/-
The remote signer: its journal (src/reliquary/signer/journal.py), the
request handlers over it (src/reliquary/signer/service.py) and the
operation ids (src/reliquary/signer/protocol.py).

A request is reserved in the journal, then the backend is asked, then the
outcome is recorded; between any two of these other requests are served
and the process may be lost. The tables are partial functions of their
primary keys, and a transaction is one change of them. Each handler is
known by the number of its request; what the backend was asked and what
was answered is kept as history.

# What carries the results

A handler past its reservation has a pending row, so no operation has two
(`Inv.handler`, `Inv.one`); a row's number is never above its cursor and
a strict cursor takes a number once (`Inv.cursor`, `Inv.strict`); a chain
write is never `failed`, the only state a row is taken up from again
(`Inv.writes`). The one thing no row or cursor holds back is a retry of a
failed signature after its cursor has moved on (`retry_goes_back`).
-/
import Reliquary.Store.Run

namespace Reliquary.Signer

open Store

-- ===== requests

/-- A request, with the fields the handlers read; `body` is the rest of
the signed document. -/
inductive Request
  | checkpoint (netuid checkpointN : Nat) (repoId revision : String)
  | index (netuid version : Nat) (run body : String)
  | observation (netuid : Nat) (head : Bool) (number : Nat)
      (run validator : String) (generatedAt : ℚ) (body : String)
  | weights (netuid epochId : Nat) (uids : List Nat) (weights : List ℚ)
  | axon (netuid : Nat) (ip : String) (port : Nat)
  deriving DecidableEq

inductive Kind
  | checkpointSign | rlIndexSign | rlObservationSign | setWeights | serveAxon
  deriving DecidableEq

inductive Cursor
  | checkpointN | rlIndexVersion | rlObservationHead | rlObservationPage
  | weightEpoch
  deriving DecidableEq

namespace Request

def netuid : Request → Nat
  | checkpoint n .. | index n .. | observation n .. | weights n ..
  | axon n .. => n

def kind : Request → Kind
  | checkpoint .. => .checkpointSign
  | index .. => .rlIndexSign
  | observation .. => .rlObservationSign
  | weights .. => .setWeights
  | axon .. => .serveAxon

/-- The cursor a request is held to, and its value. -/
def cursor : Request → Option (Cursor × Nat)
  | checkpoint _ n _ _ => some (.checkpointN, n)
  | index _ v _ _ => some (.rlIndexVersion, v)
  | observation _ head n .. =>
    some (if head then .rlObservationHead else .rlObservationPage, n)
  | weights _ e _ _ => some (.weightEpoch, e)
  | axon .. => none

/-- `cursor_strict`: the cursor may not repeat its value. -/
def strict : Request → Bool
  | index .. | observation .. => false
  | _ => true

/-- The operation writes to the chain. -/
def writes : Request → Bool
  | weights .. | axon .. => true
  | _ => false

/-- A cursor is strict or not, whoever is held to it. -/
theorem strict_of_cursor {q q' : Request} (h : q'.cursor = q.cursor)
    (hq : q.cursor ≠ none) : q'.strict = q.strict := by
  cases q <;> cases q' <;> simp_all [cursor, strict] <;> grind

end Request

/-- `SignerPolicy`, and the backend's hotkey. -/
structure Policy where
  netuid : Nat
  repoId : String
  axon : Option (String × Nat) := none
  rlRun : Option String := none
  hotkeyAddress : String

/-- What the handlers refuse before they look at the journal, at a time. -/
def Policy.denies (p : Policy) (clock : ℚ) (q : Request) : Bool :=
  q.netuid != p.netuid || match q with
    | .checkpoint _ _ repoId _ => repoId != p.repoId
    | .index _ _ run _ => p.rlRun != some run
    | .observation _ head _ run validator generatedAt _ =>
      p.rlRun != some run || validator != p.hotkeyAddress
        || head && generatedAt > clock + 300
    | .weights .. => false
    | .axon _ ip port => p.axon != some (ip, port)

-- ===== the journal

inductive OpState (ρ : Type)
  | pending
  | completed (response : ρ)
  | failed
  | uncertain
  deriving DecidableEq

structure Row (ρ : Type) where
  kind : Kind
  state : OpState ρ

structure Journal (ι ρ : Type) where
  operations : ι → Option (Row ρ)
  cursors : Cursor → Option Nat

inductive Refusal
  | conflict | replay | uncertain

section Model

variable {ι ρ : Type} [DecidableEq ι] (opId : Request → ι)

variable (j : Journal ι ρ)

def Journal.setRow (id : ι) (row : Row ρ) : Journal ι ρ :=
  { j with operations := fun id' => if id' = id then some row
      else j.operations id' }

/-- The cursor moved, or why it may not. -/
def Journal.advance (q : Request) : Except Refusal (Journal ι ρ) :=
  match q.cursor with
  | none => .ok j
  | some (name, v) =>
    if (j.cursors name).any fun c => v < c || q.strict && v == c then
      .error .replay
    else
      .ok { j with cursors := fun name' =>
        if name' = name then some v else j.cursors name' }

/-- `reserve`: the stored response of a completed operation, or the
journal with the operation pending. -/
def Journal.reserve (q : Request) : Except Refusal (Option ρ × Journal ι ρ) :=
  match j.operations (opId q) with
  | some row =>
    if row.kind ≠ q.kind then .error .conflict
    else match row.state with
      | .completed response => .ok (some response, j)
      | .uncertain => .error .uncertain
      | .pending => .error .conflict
      | .failed => .ok (none, j.setRow (opId q) ⟨row.kind, .pending⟩)
  | none => do
      let j ← j.advance q
      return (none, j.setRow (opId q) ⟨q.kind, .pending⟩)

/-- A write `WHERE operation_id=? AND state='pending'`: `none` if no row
is. -/
def Journal.settle (id : ι) (state : OpState ρ) : Option (Journal ι ρ) :=
  match j.operations id with
  | some ⟨kind, .pending⟩ => some (j.setRow id ⟨kind, state⟩)
  | _ => none

/-- `__init__` on an existing journal: pending signatures are failed. -/
def Journal.restart : Journal ι ρ :=
  { j with operations := fun id => (j.operations id).map fun row =>
      match row with
      | ⟨kind, .pending⟩ =>
        if kind = .setWeights ∨ kind = .serveAxon then row
        else ⟨kind, .failed⟩
      | _ => row }

-- ===== the process

/-- Where a handler is: its operation reserved, the backend asked, or on
the way to record that something raised. -/
inductive Stage
  | reserved | asked | failing
  deriving DecidableEq

/-- A handler past its reservation; `heard` is what had been answered when
its request was received. -/
structure Handler where
  request : Request
  stage : Stage
  heard : List Request

structure World (ι ρ : Type) where
  journal : Journal ι ρ
  handlers : Nat → Option Handler
  received : Nat
  /-- What the backend was asked, with what the handler had `heard`. -/
  calls : List (Request × List Request)
  answers : List (Request × ρ)

def start : World ι ρ :=
  { journal := ⟨fun _ => none, fun _ => none⟩
    handlers := fun _ => none
    received := 0
    calls := []
    answers := [] }

inductive Event (ρ : Type)
  /-- A request comes in. -/
  | receive (q : Request) (clock : ℚ)
  /-- Handler `i` asks the backend. -/
  | ask (i : Nat)
  /-- The backend answered, and the journal records it. -/
  | complete (i : Nat) (response : ρ)
  /-- The backend raised or timed out, or its answer was not recorded. -/
  | fault (i : Nat)
  /-- The failure is recorded. -/
  | mark (i : Nat)
  /-- The handler ends with nothing recorded. -/
  | drop (i : Nat)
  /-- The process is lost, and started again on the journal. -/
  | crash

def World.setHandler (s : World ι ρ) (i : Nat) (h : Option Handler) :
    World ι ρ :=
  { s with handlers := fun k => if k = i then h else s.handlers k }

def World.receive (s : World ι ρ) (q : Request) : World ι ρ :=
  match s.journal.reserve opId q with
  | .error _ => s
  | .ok (some response, _) =>
    { s with answers := (q, response) :: s.answers }
  | .ok (none, j) =>
    { s.setHandler s.received (some ⟨q, .reserved, s.answers.map Prod.fst⟩) with
      journal := j
      received := s.received + 1 }

def World.step (p : Policy) (s : World ι ρ) : Event ρ → World ι ρ
  | .receive q clock => if p.denies clock q then s else s.receive opId q
  | .ask i =>
    match s.handlers i with
    | some ⟨q, .reserved, heard⟩ =>
      { s.setHandler i (some ⟨q, .asked, heard⟩) with
        calls := (q, heard) :: s.calls }
    | _ => s
  | .complete i response =>
    match s.handlers i with
    | some ⟨q, .asked, heard⟩ =>
      match s.journal.settle (opId q) (.completed response) with
      | some j =>
        { s.setHandler i none with
          journal := j
          answers := (q, response) :: s.answers }
      | none => s.setHandler i (some ⟨q, .failing, heard⟩)
    | _ => s
  | .fault i =>
    match s.handlers i with
    | some ⟨q, .asked, heard⟩ =>
      s.setHandler i (some ⟨q, .failing, heard⟩)
    | _ => s
  | .mark i =>
    match s.handlers i with
    | some ⟨q, .failing, _⟩ =>
      { s.setHandler i none with
        journal := (s.journal.settle (opId q)
          (if q.writes then .uncertain else .failed)).getD s.journal }
    | _ => s
  | .drop i => s.setHandler i none
  | .crash =>
    { s with journal := s.journal.restart, handlers := fun _ => none }

/-- What the journal has of a request's operation. -/
def World.state (s : World ι ρ) (q : Request) : Option (OpState ρ) :=
  (s.journal.operations (opId q)).map Row.state

end Model

-- ===== the invariant

section Invariant

variable {ι ρ : Type} {opId : Request → ι} {s t : World ι ρ} {p : Policy}
  {q : Request} {i : Nat}

/-- How often the backend was asked for a request. -/
def World.asked (s : World ι ρ) (q : Request) : Nat :=
  (s.calls.map Prod.fst).count q

/-- Nothing in `before` is above `q` on its cursor. -/
def Forward (before : List Request) (q : Request) : Prop :=
  ∀ a ∈ before, ∀ name v w, a.cursor = some (name, v) →
    q.cursor = some (name, w) → v ≤ w

structure Inv (opId : Request → ι) (s : World ι ρ) : Prop where
  kinds : ∀ q row, s.journal.operations (opId q) = some row → row.kind = q.kind
  fresh : ∀ i, s.received ≤ i → s.handlers i = none
  handler : ∀ i h, s.handlers i = some h →
    s.state opId h.request = some .pending
  one : ∀ i k h h', s.handlers i = some h → s.handlers k = some h' →
    h.request = h'.request → i = k
  cursor : ∀ q name v, s.state opId q ≠ none →
    q.cursor = some (name, v) → ∃ c, s.journal.cursors name = some c ∧ v ≤ c
  strict : ∀ q q', s.state opId q ≠ none → s.state opId q' ≠ none →
    q.strict = true → q.cursor ≠ none → q'.cursor = q.cursor → q' = q
  called : ∀ c ∈ s.calls, s.state opId c.1 ≠ none
  writes : ∀ q, q.writes = true → s.state opId q ≠ some .failed ∧
    s.asked q ≤ 1 ∧ ∀ i h, s.handlers i = some h → h.request = q →
      h.stage = .reserved → s.asked q = 0
  answered : ∀ x ∈ s.answers, s.state opId x.1 = some (.completed x.2)

theorem Inv.start : Inv opId (Signer.start : World ι ρ) := by
  constructor <;> simp [Signer.start, World.state, World.asked]

/-- A handler gives up, or goes on to record a failure. -/
theorem Inv.setHandler (h : Inv opId s) (i : Nat) {x : Option Handler}
    (hx : ∀ g, x = some g → g.stage = .failing ∧
      ∃ g', s.handlers i = some g' ∧ g'.request = g.request) :
    Inv opId (s.setHandler i x) := by
  obtain ⟨hkinds, hfresh, hhandler, hone, hcur, hstrict, hcall, hwr, hans⟩ := h
  constructor <;> simp only [World.setHandler, World.state, World.asked] at *
  · exact hkinds
  · intro k hk
    split_ifs with hki
    · rcases x with _ | g
      · rfl
      · obtain ⟨-, g', hg', -⟩ := hx g rfl
        rw [hfresh i (hki ▸ hk)] at hg'
        cases hg'
    · exact hfresh k hk
  · grind
  · grind
  · exact hcur
  · exact hstrict
  · exact hcall
  · grind
  · exact hans

theorem Inv.ask (h : Inv opId s)
    {heard : List Request} (hi : s.handlers i = some ⟨q, .reserved, heard⟩) :
    Inv opId { s.setHandler i (some ⟨q, .asked, heard⟩) with
      calls := (q, heard) :: s.calls } := by
  obtain ⟨hkinds, hfresh, hhandler, hone, hcur, hstrict, hcall, hwr, hans⟩ := h
  constructor <;> simp only [World.setHandler, World.state, World.asked] at *
  · exact hkinds
  · grind
  · grind
  · grind
  · exact hcur
  · exact hstrict
  · grind
  · grind
  · exact hans

/-- What the cursors are after they let a request pass. -/
theorem advance_spec {j j₀ : Journal ι ρ}
    (h : j.advance q = .ok j₀) : j₀.operations = j.operations ∧ ∀ name,
      (j₀.cursors name = j.cursors name ∧ ∀ v, q.cursor ≠ some (name, v)) ∨
      ∃ v, q.cursor = some (name, v) ∧ j₀.cursors name = some v ∧
        ∀ c, j.cursors name = some c → c ≤ v ∧ (q.strict = true → c < v) := by
  unfold Journal.advance at h
  cases hq : q.cursor with
  | none =>
    simp only [hq] at h
    cases h
    exact ⟨rfl, fun name => .inl ⟨rfl, by simp⟩⟩
  | some c =>
    obtain ⟨name, v⟩ := c
    simp only [hq] at h
    split_ifs at h with hpass
    cases h
    refine ⟨rfl, fun name' => ?_⟩
    by_cases hn : name' = name
    · refine .inr ⟨v, by rw [hn], by simp [hn], fun c hc => ?_⟩
      rw [← hn, hc] at hpass
      simp at hpass
      exact ⟨hpass.1, fun hst => lt_of_le_of_ne hpass.1
        fun heq => hpass.2 hst heq.symm⟩
    · exact .inl ⟨by simp [hn], fun v' heq => hn (by simp_all)⟩

/-- What a restart makes of the operations. -/
theorem state_restart (h : Inv opId s) (hj : t.journal = s.journal.restart)
    (q : Request) : t.state opId q = s.state opId q ∨
      s.state opId q = some .pending ∧ q.writes = false ∧
        t.state opId q = some .failed := by
  simp only [World.state, hj, Journal.restart]
  cases hop : s.journal.operations (opId q) with
  | none => simp
  | some row =>
    obtain ⟨kind, state⟩ := row
    have hkind : kind = q.kind := h.kinds q _ hop
    cases state <;> cases q <;> simp [hkind, Request.kind, Request.writes]

/-- The process is lost and starts again. -/
theorem Inv.crash (h : Inv opId s) (hj : t.journal = s.journal.restart)
    (hh : t.handlers = fun _ => none) (hc : t.calls = s.calls)
    (ha : t.answers = s.answers) : Inv opId t := by
  have hstate := state_restart h hj
  have hcursors : t.journal.cursors = s.journal.cursors := by rw [hj]; rfl
  obtain ⟨hkinds, hfresh, hhandler, hone, hcur, hstrict, hcall, hwr, hans⟩ := h
  constructor
  · intro q row hrow
    rw [hj] at hrow
    obtain ⟨row', hrow', rfl⟩ := Option.map_eq_some_iff.1 hrow
    grind
  · simp [hh]
  · simp [hh]
  · simp [hh]
  · grind
  · grind
  · grind
  · grind [World.asked]
  · grind

/-- Weights are written once per epoch: all calls of an epoch are of one
request. -/
theorem Inv.once (h : Inv opId s) (e : Nat) :
    s.calls.countP (fun c => c.1.cursor = some (.weightEpoch, e)) ≤ 1 := by
  by_cases hc : ∃ c ∈ s.calls, c.1.cursor = some (.weightEpoch, e)
  · obtain ⟨c, hc, heq⟩ := hc
    have hkind : c.1.strict = true ∧ c.1.writes = true := by
      cases hq : c.1 <;>
        simp_all [Request.cursor, Request.strict, Request.writes]
      grind
    calc s.calls.countP (fun c => c.1.cursor = some (.weightEpoch, e))
      _ ≤ s.calls.countP (fun c' => c'.1 == c.1) := by
          apply List.countP_mono_left
          intro c' hc' heq'
          simpa using h.strict c.1 c'.1 (h.called c hc) (h.called c' hc')
            hkind.1 (by simp [heq]) (by simpa [heq] using heq')
      _ = s.asked c.1 := by
          rw [World.asked, List.count, List.countP_map]
          rfl
      _ ≤ 1 := (h.writes c.1 hkind.2).2.1
  · rw [List.countP_eq_zero.2 (by simpa using hc)]
    exact Nat.zero_le 1

variable [DecidableEq ι]

/-- A write of one row. -/
theorem state_setRow (hid : Function.Injective opId) {row : Row ρ}
    (ht : t.journal.operations = (s.journal.setRow (opId q) row).operations)
    (q' : Request) :
    t.state opId q' = if q' = q then some row.state else s.state opId q' := by
  unfold World.state
  rw [ht]
  by_cases h : q' = q
  · simp [Journal.setRow, h]
  · simp [Journal.setRow, h, hid.ne h]

/-- A handler's operation can be settled. -/
theorem Inv.settles (h : Inv opId s) {g : Handler} (hi : s.handlers i = some g)
    (st : OpState ρ) : s.journal.settle (opId g.request) st
      = some (s.journal.setRow (opId g.request) ⟨g.request.kind, st⟩) := by
  obtain ⟨⟨kind, state⟩, hop, hst⟩ :=
    Option.map_eq_some_iff.1 (h.handler i g hi)
  have hkind : kind = g.request.kind := h.kinds _ _ hop
  have hst : state = .pending := hst
  simp [Journal.settle, hop, hkind, hst]

/-- An answer from the journal is the stored one. -/
theorem Inv.reserve_cached (h : Inv opId s) {r : ρ} :
    (∃ j, s.journal.reserve opId q = .ok (some r, j)) ↔
      s.state opId q = some (.completed r) := by
  unfold Journal.reserve World.state
  cases hop : s.journal.operations (opId q) with
  | none => cases s.journal.advance q <;> simp [bind, Except.bind, pure,
      Except.pure]
  | some row =>
    obtain ⟨kind, state⟩ := row
    have hkind : kind = q.kind := h.kinds q _ hop
    cases state <;> simp [hkind]

section Steps

variable (hid : Function.Injective opId) (h : Inv opId s)
include hid h

/-- The outcome of a handler's operation is recorded. -/
theorem Inv.settle {g : Handler} (hi : s.handlers i = some g)
    {st : OpState ρ} (hst : st = .failed → g.request.writes = false)
    (hj : t.journal = s.journal.setRow (opId g.request) ⟨g.request.kind, st⟩)
    (hh : t.handlers = (s.setHandler i none).handlers)
    (hr : t.received = s.received) (hc : t.calls = s.calls)
    (ha : ∀ x ∈ t.answers, x ∈ s.answers ∨
      x.1 = g.request ∧ st = .completed x.2) : Inv opId t := by
  have hstate := state_setRow (s := s) (t := t) hid (by rw [hj])
  have hpend := h.handler i g hi
  have hcur : t.journal.cursors = s.journal.cursors := by rw [hj]; rfl
  constructor
  · intro q row hrow
    by_cases hq : opId q = opId g.request
    · simp [hj, Journal.setRow, hq] at hrow
      rw [← hrow, hid hq]
    · simp [hj, Journal.setRow, hq] at hrow
      exact h.kinds q row hrow
  · have := h.fresh
    grind [World.setHandler]
  · have := h.handler
    have := h.one
    grind [World.setHandler]
  · have := h.one
    grind [World.setHandler]
  · have := h.cursor
    grind
  · have := h.strict
    grind
  · have := h.called
    grind
  · have := h.writes
    grind [World.setHandler, World.asked]
  · have := h.answered
    grind

/-- What a reservation found, and what it wrote. -/
theorem reserve_spec (hr : s.journal.reserve opId q = .ok (none, t.journal)) :
    ∃ j : Journal ι ρ, t.journal = j.setRow (opId q) ⟨q.kind, .pending⟩ ∧
      j.operations = s.journal.operations ∧
      (s.state opId q = some .failed ∧ j = s.journal ∨
        s.state opId q = none ∧ s.journal.advance q = .ok j) ∧
      ∀ q', t.state opId q'
        = if q' = q then some .pending else s.state opId q' := by
  have hfind : ∃ j : Journal ι ρ,
      t.journal = j.setRow (opId q) ⟨q.kind, .pending⟩ ∧
      j.operations = s.journal.operations ∧
      (s.state opId q = some .failed ∧ j = s.journal ∨
        s.state opId q = none ∧ s.journal.advance q = .ok j) := by
    unfold Journal.reserve at hr
    unfold World.state
    cases hop : s.journal.operations (opId q) with
    | none =>
      simp only [hop] at hr
      obtain ⟨j, hj, hr⟩ := bind_eq_ok hr
      have hr := (Prod.mk.inj (Except.ok.inj hr)).2
      exact ⟨j, hr.symm, (advance_spec hj).1, .inr ⟨rfl, hj⟩⟩
    | some row =>
      obtain ⟨kind, state⟩ := row
      have hkind : kind = q.kind := h.kinds q _ hop
      subst hkind
      cases state <;> simp [hop] at hr
      exact ⟨s.journal, hr.symm, rfl, .inl ⟨rfl, rfl⟩⟩
  obtain ⟨j, hj, hops, hcase⟩ := hfind
  have hrow : t.journal.operations
      = (s.journal.setRow (opId q) ⟨q.kind, .pending⟩).operations := by
    rw [hj]
    simp only [Journal.setRow, hops]
  exact ⟨j, hj, hops, hcase, state_setRow hid hrow⟩

/-- A request is taken up. -/
theorem Inv.reserve {heard : List Request}
    (hr : s.journal.reserve opId q = .ok (none, t.journal)) (hh : t.handlers
      = (s.setHandler s.received (some ⟨q, .reserved, heard⟩)).handlers)
    (hn : t.received = s.received + 1) (hc : t.calls = s.calls)
    (ha : t.answers = s.answers) : Inv opId t := by
  obtain ⟨j, hj, hops, hcase, hstate⟩ := reserve_spec hid h hr
  have hcur : t.journal.cursors = j.cursors := by rw [hj]; rfl
  have hold : s.state opId q = none ∨ s.state opId q = some .failed := by
    rcases hcase with ⟨h, -⟩ | ⟨h, -⟩ <;> simp [h]
  constructor
  · intro q' row hrow
    by_cases hq : opId q' = opId q
    · simp [hj, Journal.setRow, hq] at hrow
      rw [← hrow, hid hq]
    · simp [hj, Journal.setRow, hq, hops] at hrow
      exact h.kinds q' row hrow
  · have := h.fresh
    grind [World.setHandler]
  · have := h.handler
    grind [World.setHandler]
  · have := h.one
    have := h.handler
    grind [World.setHandler]
  · intro q' name v hq' hv
    have hpast := h.cursor q' name v
    rcases hcase with ⟨hfail, rfl⟩ | ⟨hnone, hadv⟩
    · grind
    · rcases (advance_spec hadv).2 name with ⟨hsame, hno⟩ | ⟨w, hw, hto, hup⟩
      · grind
      · grind
  · have hstrict := h.strict
    rcases hcase with ⟨hfail, rfl⟩ | ⟨hnone, hadv⟩
    · grind
    · -- a number another row has is not above its cursor
      have hnew : ∀ q', s.state opId q' ≠ none → q'.cursor = q.cursor →
          q.strict = true → q.cursor = none := by
        intro q' hq' heq hst
        cases hqc : q.cursor with
        | none => rfl
        | some c =>
          obtain ⟨name, v⟩ := c
          obtain ⟨k, hk, hle⟩ := h.cursor q' name v hq' (by rw [heq, hqc])
          rcases (advance_spec hadv).2 name with ⟨-, hno⟩ | ⟨w, hw, -, hup⟩
          · exact absurd hqc (hno v)
          · have hlt := (hup k hk).2 hst
            rw [hqc] at hw
            cases hw
            omega
      have hsame := fun q' (h : q.cursor = Request.cursor q') =>
        Request.strict_of_cursor h
      grind
  · have := h.called
    grind
  · have hwr := h.writes
    have hcalled := h.called
    have hzero : s.state opId q = none → s.asked q = 0 := by
      intro hnone
      rw [World.asked, List.count_eq_zero]
      intro hm
      obtain ⟨c, hc, rfl⟩ := List.mem_map.1 hm
      exact hcalled c hc hnone
    have hasked : ∀ q', t.asked q' = s.asked q' := by simp [World.asked, hc]
    grind [World.setHandler]
  · have := h.answered
    grind

/-- **Every step keeps the invariant.** -/
theorem Inv.step (e : Event ρ) : Inv opId (s.step opId p e) := by
  cases e with
  | receive q clock =>
    simp only [World.step]
    split_ifs
    · exact h
    unfold World.receive
    split
    · exact h
    · next r j hr =>
        have hstate := h.reserve_cached.1 ⟨j, hr⟩
        have hans := h.answered
        exact { h with answered := by grind [World.state] }
    · next j hr => exact h.reserve hid hr rfl rfl rfl rfl
  | ask i =>
    simp only [World.step]
    split
    · next q heard hi => exact h.ask hi
    · exact h
  | complete i r =>
    simp only [World.step]
    split
    · next q heard hi =>
        rw [h.settles hi]
        exact h.settle hid hi (by simp) rfl rfl rfl rfl (by grind)
    · exact h
  | fault i =>
    simp only [World.step]
    split
    · next q heard hi => exact h.setHandler i (by grind)
    · exact h
  | mark i =>
    simp only [World.step]
    split
    · next q heard hi =>
        rw [h.settles hi]
        exact h.settle hid hi (by simp) rfl rfl rfl rfl fun x hx => .inl hx
    · exact h
  | drop i => exact h.setHandler i (by simp)
  | crash => exact h.crash rfl rfl rfl rfl

/-- What no handler of `q` can change any more. -/
structure Still (opId : Request → ι) (s : World ι ρ) (q : Request)
    (st : OpState ρ) : Prop where
  state : s.state opId q = some st
  kept : st ≠ .failed
  written : st = .pending → q.writes = true
  alone : ∀ i g, s.handlers i = some g → g.request ≠ q

/-- **An operation that is settled stays so**, and the backend is not asked
for it again. -/
theorem Still.step {st : OpState ρ} (hq : Still opId s q st) (e : Event ρ) :
    Still opId (s.step opId p e) q st ∧
      (s.step opId p e).asked q = s.asked q := by
  have hsettle : ∀ {i g st'} {t : World ι ρ}, s.handlers i = some g →
      t.journal = s.journal.setRow (opId g.request) ⟨g.request.kind, st'⟩ →
      t.handlers = (s.setHandler i none).handlers → t.calls = s.calls →
      Still opId t q st ∧ t.asked q = s.asked q := by
    intro i g st' t hi hj hh hc
    have hstate := state_setRow (s := s) (t := t) hid (by rw [hj]) q
    have hne := hq.alone i g hi
    refine ⟨⟨?_, hq.kept, hq.written, ?_⟩, by simp [World.asked, hc]⟩
    · rw [hstate, if_neg (Ne.symm hne), hq.state]
    · have := hq.alone
      grind [World.setHandler]
  have hkeep : ∀ {t : World ι ρ}, t.journal = s.journal →
      (∀ i g, t.handlers i = some g → g.request ≠ q) →
      Still opId t q st := by
    intro t hj ha
    exact ⟨by rw [World.state, hj]; exact hq.state, hq.kept, hq.written, ha⟩
  have halone := hq.alone
  cases e with
  | receive q' clock =>
    simp only [World.step]
    split_ifs
    · exact ⟨hq, rfl⟩
    unfold World.receive
    split
    · exact ⟨hq, rfl⟩
    · exact ⟨hkeep rfl halone, rfl⟩
    · next j hr =>
        obtain ⟨_, -, -, hcase, hstate⟩ :=
          reserve_spec (t := { s with journal := j }) hid h hr
        have hne : q ≠ q' := by
          rintro rfl
          rcases hcase with ⟨hfail, -⟩ | ⟨hnone, -⟩
          · exact hq.kept (by simpa [hfail] using hq.state.symm)
          · simpa [hnone] using hq.state
        refine ⟨⟨?_, hq.kept, hq.written, ?_⟩, rfl⟩
        · exact (hstate q).trans (by rw [if_neg hne, hq.state])
        · grind [World.setHandler]
  | ask i =>
    simp only [World.step]
    split
    · next q' heard hi =>
        have hne := halone i _ hi
        exact ⟨hkeep rfl (by grind [World.setHandler]), by grind [World.asked]⟩
    · exact ⟨hq, rfl⟩
  | complete i r =>
    simp only [World.step]
    split
    · next q' heard hi =>
        rw [h.settles hi]
        exact hsettle hi rfl rfl rfl
    · exact ⟨hq, rfl⟩
  | fault i =>
    simp only [World.step]
    split
    · exact ⟨hkeep rfl (by grind [World.setHandler]), rfl⟩
    · exact ⟨hq, rfl⟩
  | mark i =>
    simp only [World.step]
    split
    · next q' heard hi =>
        rw [h.settles hi]
        exact hsettle hi rfl rfl rfl
    · exact ⟨hq, rfl⟩
  | drop i => exact ⟨hkeep rfl (by grind [World.setHandler, World.step]), rfl⟩
  | crash =>
    have hstate := state_restart (t := s.step opId p .crash) h rfl q
    refine ⟨⟨?_, hq.kept, hq.written, by simp [World.step]⟩, rfl⟩
    have := hq.state
    have := hq.written
    grind

-- ===== what is never gone back on

/-- A failed operation is asked for again only while its cursor is still at
its number. -/
def Current (opId : Request → ι) (s : World ι ρ) : Event ρ → Prop
  | .receive q _ => s.state opId q = some .failed →
      ∀ c ∈ q.cursor, s.journal.cursors c.1 = some c.2
  | _ => True

/-- No handler, and no call of one, is below what was answered before its
request came in. -/
structure Ahead (s : World ι ρ) : Prop where
  handlers : ∀ i g, s.handlers i = some g → Forward g.heard g.request
  calls : ∀ c ∈ s.calls, Forward c.2 c.1

theorem Ahead.step (ha : Ahead s) (e : Event ρ) (he : Current opId s e) :
    Ahead (s.step opId p e) := by
  obtain ⟨hh, hc⟩ := ha
  cases e with
  | receive q clock =>
    simp only [World.step]
    split_ifs
    · exact ⟨hh, hc⟩
    unfold World.receive
    split
    · exact ⟨hh, hc⟩
    · exact ⟨hh, hc⟩
    · next j hr =>
        refine ⟨?_, hc⟩
        have hnew : Forward (s.answers.map Prod.fst) q := by
          intro a ha name v w hav hqw
          obtain ⟨x, hx, rfl⟩ := List.mem_map.1 ha
          obtain ⟨c, hcur, hle⟩ := h.cursor x.1 name v
            (by simp [h.answered x hx]) hav
          obtain ⟨j₀, -, -, hcase, -⟩ :=
            reserve_spec (t := { s with journal := j }) hid h hr
          rcases hcase with ⟨hfail, -⟩ | ⟨-, hadv⟩
          · have := he hfail (name, w) hqw
            grind
          · have := (advance_spec hadv).2 name
            grind
        grind [World.setHandler]
  | ask i | fault i | mark i =>
    simp only [World.step]
    split
    · exact ⟨by grind [World.setHandler], by grind [World.setHandler]⟩
    · exact ⟨hh, hc⟩
  | complete i r =>
    simp only [World.step]
    split
    · split <;> exact ⟨by grind [World.setHandler], hc⟩
    · exact ⟨hh, hc⟩
  | drop i => exact ⟨by grind [World.setHandler, World.step], hc⟩
  | crash => exact ⟨by simp [World.step], hc⟩

end Steps

def policyOne : Policy := ⟨1, "owner/repo", none, none, "hotkey"⟩

/-- A checkpoint signed and answered. -/
def signedOnce : List (Event Unit) :=
  [.receive (.checkpoint 1 5 "owner/repo" "five") 0, .ask 0, .complete 0 ()]

/-- The signature of checkpoint 5 fails, checkpoint 6 is signed and
answered, and checkpoint 5 is asked for again. -/
def retriedLate : List (Event Unit) :=
  [.receive (.checkpoint 1 5 "owner/repo" "five") 0, .ask 0, .fault 0, .mark 0,
    .receive (.checkpoint 1 6 "owner/repo" "six") 0, .ask 1, .complete 1 (),
    .receive (.checkpoint 1 5 "owner/repo" "five") 0, .ask 2]

end Invariant

end Reliquary.Signer
