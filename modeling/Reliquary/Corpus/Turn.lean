/-
One ledger turn (`plan_turn` of `validator/corpus_service.py`): a batch
of submissions and skips decided in order against one ledger read.

# What is modeled how

- A `TurnEntry` is any decision on the ledgers and the seen set, with
  what its acceptance adds. It may raise, and then has left the ledgers
  wherever it was; a raising entry is skipped by the next pass, which
  starts from the ledger read again (`planLoop`).
- The loop of passes is fueled; `planLoop_live` says how much is enough.
- `oneByOne` is a turn per entry: each reads the ledger the one before
  wrote, with its sealed chunks named and indexed.

# How a batch is compared with its entries

`Live` decides the entries in one pass in which a raising entry has no
effect. A batch with restarts is `Live` (`planLoop_live`): an entry's
verdict depends only on the entries before it, so a pass redecides what
the last one decided and stops at the next entry that raises. And `Live`
is `oneByOne` (`live_oneByOne`), by a simulation between the pass's
ledgers and the ones read back from the store, which differ only in the
order in which failures are listed.
-/
import Reliquary.Corpus.Ledger

namespace Reliquary.Corpus

open Store List

variable {E : Type} {L L' : Ledgers} {l : SlotLedger}

-- ===== the entries

/-- What a decision does to the ledgers: it consumes slots and steps
cursors on. -/
inductive Moves : Ledgers → Ledgers → Prop
  | refl (L : Ledgers) : Moves L L
  | consume {L L' : Ledgers} {slots : SlotLedger} {p n : Nat} :
      L.slots.consume p = .ok (slots, n) → Moves { L with slots } L' →
      Moves L L'
  | advance {L L' : Ledgers} {hotkey : String} : hotkey ≠ "" →
      Moves { L with cursors := L.cursors.advance hotkey } L' → Moves L L'

/-- The ledgers with every failure list in order, as a restart reads
them. -/
def Ledgers.reloaded (L : Ledgers) : Ledgers :=
  { L with slots := L.slots.reloaded }

/-- One submission or skip inside a turn. -/
structure TurnEntry (E : Type) where
  decide : Ledgers → (String → Bool) → Except E Verdict × Ledgers
  /-- What an accept adds to the seen set, by the slots it left. -/
  digests : SlotLedger → List String
  recordRef : Option RecordRef

/-- A decision of slots, cursors and the seen set, whose acceptance adds
nothing seen. -/
structure TurnEntry.Sound (e : TurnEntry E) : Prop where
  moves : ∀ L seen, Moves L (e.decide L seen).2
  fresh : ∀ L seen v L', e.decide L seen = (.ok v, L') → v.accepted = true →
    ∀ d ∈ e.digests L'.slots, seen d = false
  /-- The order in which failures are listed decides nothing. -/
  unordered : ∀ L seen, L.slots.Wf → e.decide L.reloaded seen
    = ((e.decide L seen).1, (e.decide L seen).2.reloaded)
  unorderedDigests : ∀ l : SlotLedger, l.Wf → e.digests l.reloaded = e.digests l
  recordOk : ∀ r, e.recordRef = some r → r.ok = true

-- ===== a pass

/-- Sorted, unique chunks of a set of digests, each a segment body. -/
def sealChunks (digests : Finset String) (segmentMax : Nat) :
    List (List String) :=
  chunks segmentMax (sortSet digests)

/-- What a pass over the entries holds. -/
structure Pass where
  ledgers : Ledgers
  pending : Finset String
  /-- Sealed earlier in this turn. -/
  sealed : Finset String
  chunks : List (List String)
  records : List (String × RecordRef)
  moved : Bool
deriving DecidableEq

namespace Pass

def start (s : LedgerState) : Pass where
  ledgers := s.ledgers
  pending := s.pending
  sealed := ∅
  chunks := []
  records := s.records.map fun r => (r.submissionId, r)
  moved := false

/-- The seen set a decision reads: pending, sealed in this turn, or in a
segment the ledger names. -/
def seen (index : Finset String) (p : Pass) (digest : String) : Bool :=
  decide (digest ∈ p.pending)
    || (decide (digest ∈ p.sealed) || decide (digest ∈ index))

/-- An entry that moved: its digests join pending, which is sealed once
there are enough. -/
def settle (sealThreshold segmentMax : Nat) (p : Pass) (L : Ledgers)
    (added : Finset String) (records : List (String × RecordRef)) : Pass :=
  if sealThreshold ≤ (p.pending ∪ added).card then
    { ledgers := L
      pending := ∅
      sealed := p.sealed ∪ (p.pending ∪ added)
      chunks := p.chunks ++ sealChunks (p.pending ∪ added) segmentMax
      records
      moved := true }
  else
    { p with
      ledgers := L
      pending := p.pending ∪ added
      records
      moved := true }

end Pass

open Pass

def keepRecord (records : List (String × RecordRef)) :
    Option RecordRef → Except LedgerError (List (String × RecordRef))
  | none => .ok records
  | some ref =>
    match records.lookup ref.submissionId with
    | some standing =>
      if standing = ref then .ok (put ref.submissionId ref records)
      else .error .replaced
    | none => .ok (put ref.submissionId ref records)

/-- One entry of a pass: it raised, or it has a verdict. -/
inductive Decided (E : Type)
  | raised (e : E)
  | settled (verdict : Verdict) (pass : Pass)

variable {e : TurnEntry E} {outs : List (Except E Verdict)}

section Plan

variable (index : Finset String) (sealThreshold segmentMax : Nat)
  {es : List (TurnEntry E)} {job : JobSpec} {doc : LedgerDoc} {s : LedgerState}

def decideEntry (p : Pass) (e : TurnEntry E) : Except LedgerError (Decided E) :=
  match e.decide p.ledgers (p.seen index) with
  | (.error x, _) => .ok (.raised x)
  | (.ok verdict, L) =>
    if verdict.accepted then
      match keepRecord p.records e.recordRef with
      | .error x => .error x
      | .ok records =>
        .ok (.settled verdict (p.settle sealThreshold segmentMax L
          (e.digests L.slots).toFinset records))
    else if L.slots.filled = p.ledgers.slots.filled
        ∧ L.cursors = p.ledgers.cursors then
      -- a refusal that moved nothing costs no write
      .ok (.settled verdict { p with ledgers := L })
    else
      .ok (.settled verdict (p.settle sealThreshold segmentMax L ∅ p.records))

abbrev Outcomes (E : Type) := List (Option (Except E Verdict))

/-- How a pass ended: at an entry that raised, or past the last one. -/
inductive PassEnd (E : Type)
  | broke (position : Nat) (outcomes : Outcomes E)
  | done (pass : Pass) (outcomes : Outcomes E)

/-- The entries from `position` on, those that raised before skipped. -/
def planPass (failed : List Nat) :
    Nat → List (TurnEntry E) → Pass → Outcomes E →
    Except LedgerError (PassEnd E)
  | _, [], p, outcomes => .ok (.done p outcomes)
  | position, e :: es, p, outcomes =>
    if position ∈ failed then
      planPass failed (position + 1) es p outcomes
    else
      match decideEntry index sealThreshold segmentMax p e with
      | .error x => .error x
      | .ok (.raised x) =>
        .ok (.broke position (outcomes.set position (some (.error x))))
      | .ok (.settled verdict p') =>
        planPass failed (position + 1) es p'
          (outcomes.set position (some (.ok verdict)))

/-- Per entry its outcome; the ledger to write without the segments
`chunks` will add, or none; the segment bodies, in order. -/
structure TurnPlan (E : Type) where
  outcomes : Outcomes E
  after : Option LedgerDoc
  chunks : List (List String)

/-- The references a turn writes: from v3 on always, before that once
there are some. -/
def Pass.pendingRecords (s : LedgerState) (p : Pass) :
    Option (List RecordRef) :=
  if s.schema = .v3 ∨ p.records ≠ [] then some (p.records.map Prod.snd)
  else none

def turnPlan (s : LedgerState) (p : Pass) (outcomes : Outcomes E) :
    TurnPlan E :=
  if p.moved then
    { outcomes
      after := some (ledgerSnapshot p.ledgers.slots p.ledgers.cursors
        p.pending s.segments (p.pendingRecords s))
      chunks := p.chunks }
  else { outcomes, after := none, chunks := [] }

/-- Why a turn has no plan: the ledger, or the passes ran out. -/
inductive PlanError
  | ledger (e : LedgerError)
  | fuel
deriving DecidableEq

def planLoop (job : JobSpec) (doc : LedgerDoc) (entries : List (TurnEntry E)) :
    Nat → LedgerState → List Nat → Outcomes E → Except PlanError (TurnPlan E)
  | 0, _, _, _ => .error .fuel
  | fuel + 1, s, failed, outcomes =>
    match planPass index sealThreshold segmentMax failed 0 entries
        (start s) outcomes with
    | .error x => .error (.ledger x)
    | .ok (.done p outcomes) => .ok (turnPlan s p outcomes)
    | .ok (.broke position outcomes) =>
      match rebuildLedgers job doc with
      | .error x => .error (.ledger x)
      | .ok s => planLoop job doc entries fuel s (position :: failed) outcomes

/-- Decide the entries in order against one ledger read. -/
def planTurn (job : JobSpec) (s : LedgerState) (doc : LedgerDoc)
    (entries : List (TurnEntry E)) (fuel : Nat) :
    Except PlanError (TurnPlan E) :=
  planLoop index sealThreshold segmentMax job doc entries fuel s []
    (List.replicate entries.length none)

-- ===== one pass without restarts

/-- The entries in one pass, a raising one without effect. -/
inductive Live : Pass → List (TurnEntry E) → List (Except E Verdict) →
    Pass → Prop
  | nil (p : Pass) : Live p [] [] p
  | raised {p p' : Pass} {e : TurnEntry E} {es : List (TurnEntry E)} {x : E}
      {outs : List (Except E Verdict)} :
      decideEntry index sealThreshold segmentMax p e = .ok (.raised x) →
      Live p es outs p' → Live p (e :: es) (.error x :: outs) p'
  | settled {p q p' : Pass} {e : TurnEntry E} {es : List (TurnEntry E)}
      {v : Verdict} {outs : List (Except E Verdict)} :
      decideEntry index sealThreshold segmentMax p e = .ok (.settled v q) →
      Live q es outs p' → Live p (e :: es) (.ok v :: outs) p'

variable {index} {sealThreshold segmentMax}

/-- The outcomes known so far: of the entries passed and of those that
raised. -/
def Known (outs : List (Except E Verdict)) (known : Nat → Prop)
    (outcomes : Outcomes E) : Prop :=
  outcomes.length = outs.length
    ∧ ∀ j, known j → outcomes[j]? = outs[j]?.map some

variable {outcomes : Outcomes E}

variable {known : Nat → Prop}

theorem Known.set (h : Known outs known outcomes) {i : Nat}
    {out : Except E Verdict} (hi : outs[i]? = some out) :
    Known outs (fun j => known j ∨ j = i) (outcomes.set i (some out)) := by
  refine ⟨by rw [length_set, h.1], ?_⟩
  intro j hj
  by_cases hij : i = j
  · subst hij
    have hlt : i < outcomes.length := by
      rw [h.1]
      exact (List.getElem?_eq_some_iff.1 hi).1
    rw [getElem?_set_self hlt, hi]
    rfl
  · rw [getElem?_set_ne hij]
    apply h.2
    rcases hj with hj | hj
    · exact hj
    · exact absurd hj.symm hij

theorem Known.mono {known' : Nat → Prop} (h : Known outs known outcomes)
    (hsub : ∀ j, known' j → known j) : Known outs known' outcomes :=
  ⟨h.1, fun j hj => h.2 j (hsub j hj)⟩

/-- With every outcome known there is one list of them. -/
theorem Known.eq (h : Known outs known outcomes)
    (hall : ∀ j < outs.length, known j) : outcomes = outs.map some := by
  apply ext_getElem?
  intro j
  rw [getElem?_map]
  by_cases hj : j < outs.length
  · exact h.2 j (hall j hj)
  · rw [getElem?_eq_none (by rw [h.1]; omega), getElem?_eq_none (by omega)]
    rfl

/-- The entry at a position raises. -/
def Raises (outs : List (Except E Verdict)) (j : Nat) : Prop :=
  ∃ x, outs[j]? = some (.error x)

theorem next_of_drop {α : Type} {all rest : List α} {i : Nat} {a : α}
    (h : all.drop i = a :: rest) :
    all[i]? = some a ∧ all.drop (i + 1) = rest := by
  constructor
  · rw [← head?_drop, h]
    rfl
  · rw [← tail_drop, h]
    rfl

/-- A pass that skips only entries that raise: it decides the rest as
`Live` says, or stops at one more that raises. -/
theorem planPass_live {failed : List Nat} (all : List (Except E Verdict))
    (hfailed : ∀ j ∈ failed, Raises all j) {p p' : Pass}
    (hlive : Live index sealThreshold segmentMax p es outs p') :
    ∀ (i : Nat) (outcomes : Outcomes E), all.drop i = outs →
      Known all (fun j => j < i ∨ j ∈ failed) outcomes →
      planPass index sealThreshold segmentMax failed i es p outcomes
          = .ok (.done p' (all.map some))
        ∨ ∃ j outcomes', planPass index sealThreshold segmentMax failed i es p
            outcomes = .ok (.broke j outcomes')
          ∧ j ∉ failed ∧ Raises all j
          ∧ Known all (fun k => k ∈ j :: failed) outcomes' := by
  induction hlive with
  | nil p =>
    intro i outcomes hdrop hknown
    have hlen := drop_eq_nil_iff.1 hdrop
    left
    rw [planPass, hknown.eq fun j hj => .inl (by omega)]
  | raised hd _ ih =>
    intro i outcomes hdrop hknown
    obtain ⟨hat, htail⟩ := next_of_drop hdrop
    rw [planPass]
    by_cases hf : i ∈ failed
    · -- it raised in an earlier pass
      rw [if_pos hf]
      refine ih (i + 1) outcomes htail (hknown.mono fun j hj => ?_)
      rw [Nat.lt_succ_iff_lt_or_eq] at hj
      grind
    · rw [if_neg hf, hd]
      refine .inr ⟨i, _, rfl, hf, ⟨_, hat⟩, (hknown.set hat).mono fun k hk => ?_⟩
      grind
  | settled hd _ ih =>
    intro i outcomes hdrop hknown
    obtain ⟨hat, htail⟩ := next_of_drop hdrop
    have hf : i ∉ failed := by
      intro hf
      obtain ⟨x, hx⟩ := hfailed i hf
      rw [hat] at hx
      cases hx
    rw [planPass, if_neg hf, hd]
    refine ih (i + 1) _ htail ((hknown.set hat).mono fun j hj => ?_)
    rw [Nat.lt_succ_iff_lt_or_eq] at hj
    grind

variable {entries : List (TurnEntry E)}

/-- **A batch with restarts is one pass** in which a raising entry has no
effect, after at most one pass per entry that raises. -/
theorem planLoop_live (hread : rebuildLedgers job doc = .ok s) {p : Pass}
    (hlive : Live index sealThreshold segmentMax (start s) entries outs
      p) :
    ∀ (fuel : Nat) (failed : List Nat) (outcomes : Outcomes E),
      failed.Nodup → (∀ j ∈ failed, Raises outs j) →
      Known outs (fun j => j ∈ failed) outcomes →
      outs.length < fuel + failed.length →
      planLoop index sealThreshold segmentMax job doc entries fuel s failed
        outcomes = .ok (turnPlan s p (outs.map some)) := by
  have hcount : ∀ failed : List Nat, failed.Nodup →
      (∀ j ∈ failed, Raises outs j) → failed.length ≤ outs.length := by
    intro failed hnd hraises
    have hsub : failed ⊆ List.range outs.length := by
      intro j hj
      obtain ⟨x, hx⟩ := hraises j hj
      exact mem_range.2 (List.getElem?_eq_some_iff.1 hx).1
    simpa using (hnd.subperm hsub).length_le
  intro fuel
  induction fuel with
  | zero =>
    intro failed outcomes hnd hraises hknown hfuel
    have hle := hcount failed hnd hraises
    omega
  | succ fuel ih =>
    intro failed outcomes hnd hraises hknown hfuel
    rw [planLoop]
    rcases planPass_live outs hraises hlive 0 outcomes rfl (hknown.mono
      fun j hj => hj.resolve_left (Nat.not_lt_zero j))
      with hdone | ⟨j, outcomes', hbroke, hnew, hj, hknown'⟩
    · rw [hdone]
    · rw [hbroke]
      rw [hread]
      refine ih (j :: failed) outcomes' (nodup_cons.2 ⟨hnew, hnd⟩) ?_
        hknown' ?_
      · rw [forall_mem_cons]
        exact ⟨hj, hraises⟩
      · rw [length_cons]
        omega

theorem length_live {p p' : Pass}
    (h : Live index sealThreshold segmentMax p es outs p') :
    outs.length = es.length := by
  induction h with
  | nil => rfl
  | raised _ _ ih => exact congrArg _ ih
  | settled _ _ ih => exact congrArg _ ih

theorem planTurn_live (hread : rebuildLedgers job doc = .ok s) {p : Pass}
    (hlive : Live index sealThreshold segmentMax (start s) entries outs p)
    {fuel : Nat} (hfuel : entries.length < fuel) :
    planTurn index sealThreshold segmentMax job s doc entries fuel
      = .ok (turnPlan s p (outs.map some)) := by
  have hlen := length_live hlive
  refine planLoop_live hread hlive fuel [] _ nodup_nil (by simp)
    ⟨by simp [hlen], by simp⟩ ?_
  rw [hlen]
  exact hfuel

/-- An entry that raises, left out. -/
theorem live_eraseIdx {p p' : Pass}
    (h : Live index sealThreshold segmentMax p es outs p') :
    ∀ {i : Nat}, Raises outs i → Live index sealThreshold segmentMax p
      (es.eraseIdx i) (outs.eraseIdx i) p' := by
  induction h with
  | nil p =>
    rintro i ⟨x, hx⟩
    cases hx
  | raised hd hl ih =>
    rintro (_ | i) hi
    · exact hl
    · exact .raised hd (ih hi)
  | settled hd _ ih =>
    rintro (_ | i) hi
    · obtain ⟨x, hx⟩ := hi
      cases hx
    · exact .settled hd (ih hi)

-- ===== the records

/-- No reference is given twice with different contents. -/
def OneRef (refs : List RecordRef) : Prop :=
  ∀ r ∈ refs, ∀ r' ∈ refs, r.submissionId = r'.submissionId → r = r'

/-- The references of a pass: each under its own id, once, and among
those known. -/
structure Kept (refs : List RecordRef) (records : List (String × RecordRef)) :
    Prop where
  keyed : ∀ x ∈ records, x.2.submissionId = x.1
  among : ∀ x ∈ records, x.2 ∈ refs
  once : (records.map Prod.fst).Nodup

theorem keepRecord_ok {refs : List RecordRef} (hone : OneRef refs)
    {records : List (String × RecordRef)} (h : Kept refs records)
    {ref : Option RecordRef} (hin : ∀ r, ref = some r → r ∈ refs) :
    ∃ records', keepRecord records ref = .ok records' ∧ Kept refs records'
      ∧ ∀ x, x ∈ records' ↔ x ∈ records
        ∨ ∃ r, ref = some r ∧ x = (r.submissionId, r) := by
  cases ref with
  | none =>
    refine ⟨records, rfl, h, ?_⟩
    intro x
    simp
  | some r =>
    have hr := hin r rfl
    have hstanding : ∀ r', records.lookup r.submissionId = some r' → r' = r := by
      intro r' hl
      have hmem := mem_of_lookup hl
      exact hone r' (h.among _ hmem) r hr (h.keyed _ hmem)
    refine ⟨put r.submissionId r records, ?_, ⟨?_, ?_, ?_⟩, ?_⟩
    · rw [keepRecord]
      cases hl : records.lookup r.submissionId with
      | none => rfl
      | some r' => exact if_pos (hstanding r' hl)
    · exact forall_put h.keyed rfl
    · exact forall_put h.among hr
    · exact nodup_keys_put _ _ h.once
    · intro x
      constructor
      · intro hx
        rcases mem_put hx with rfl | hx
        · exact .inr ⟨r, rfl, rfl⟩
        · exact .inl hx
      · rintro (hx | ⟨r', hr', rfl⟩)
        · have hl := lookup_of_mem h.once hx
          apply mem_of_lookup
          rw [lookup_put]
          split
          next hk => rw [hstanding x.2 (hk ▸ hl)]
          next => exact hl
        · injection hr' with hr'
          subst hr'
          apply mem_of_lookup
          rw [lookup_put, if_pos rfl]

-- ===== what moves keep

end Plan

theorem SlotLedger.Wf.consumed {l l' : SlotLedger} (h : l.Wf) {p n : Nat}
    (hc : l.consume p = .ok (l', n)) :
    l'.Wf ∧ l.Alike l' ∧ l'.filled = l.filled + 1 := by
  obtain ⟨hown, hlt, rfl⟩ := consume_ok hc
  exact ⟨⟨h.toShape.consumeAt hown, forall_put h.within hlt⟩, ⟨rfl, rfl, rfl⟩,
    rfl⟩

/-- What any moves keep of the ledgers. -/
theorem Moves.keeps (h : Moves L L') (hwf : L.slots.Wf)
    (hkeys : (L.cursors.map Prod.fst).Nodup)
    (hne : "" ∉ L.cursors.map Prod.fst) :
    L'.slots.Wf ∧ L.slots.Alike L'.slots ∧ (L'.cursors.map Prod.fst).Nodup
      ∧ "" ∉ L'.cursors.map Prod.fst := by
  induction h with
  | refl L => exact ⟨hwf, SlotLedger.Alike.refl _, hkeys, hne⟩
  | consume hc _ ih =>
    obtain ⟨hwf', hlike, -⟩ := hwf.consumed hc
    obtain ⟨h₁, h₂, h₃, h₄⟩ := ih hwf' hkeys hne
    exact ⟨h₁, hlike.trans h₂, h₃, h₄⟩
  | @advance L L' hotkey hhot _ ih =>
    have hput : (L.cursors.advance hotkey).map Prod.fst
        = if hotkey ∈ L.cursors.map Prod.fst then L.cursors.map Prod.fst
          else L.cursors.map Prod.fst ++ [hotkey] :=
      keys_put _ _ _
    apply ih hwf
    · show ((L.cursors.advance hotkey).map Prod.fst).Nodup
      exact nodup_keys_put _ _ hkeys
    · show "" ∉ (L.cursors.advance hotkey).map Prod.fst
      rw [hput]
      split
      · exact hne
      · rw [mem_append, mem_singleton, not_or]
        exact ⟨hne, Ne.symm hhot⟩

/-- Slots that moved bumped `filled`. -/
theorem Moves.filled (h : Moves L L') : L.slots.filled ≤ L'.slots.filled
      ∧ (L'.slots.filled = L.slots.filled → L'.slots = L.slots) := by
  induction h with
  | refl L => exact ⟨le_rfl, fun _ => rfl⟩
  | consume hc _ ih =>
    obtain ⟨-, -, rfl⟩ := SlotLedger.consume_ok hc
    obtain ⟨hle, -⟩ := ih
    simp only [SlotLedger.consumeAt] at hle
    refine ⟨by omega, ?_⟩
    intro heq
    omega
  | advance _ _ ih => exact ih

/-- The source's test for a refusal that moved nothing is exact. -/
theorem Moves.unmoved (h : Moves L L')
    (hfilled : L'.slots.filled = L.slots.filled)
    (hcursors : L'.cursors = L.cursors) : L' = L := by
  obtain ⟨slots, cursors⟩ := L
  obtain ⟨slots', cursors'⟩ := L'
  have hslots := h.filled.2 hfilled
  dsimp only at hslots hcursors
  rw [hslots, hcursors]

-- ===== pass invariants

/-- The entry, decided now, would raise or refuse and move nothing. -/
def Idle (index : Finset String) (p : Pass) (e : TurnEntry E) : Prop :=
  match e.decide p.ledgers (p.seen index) with
  | (.error _, _) => True
  | (.ok verdict, L) => verdict.accepted = false ∧ L = p.ledgers

/-- An idle entry leaves the pass as it is; any other is settled. -/
theorem decideEntry_spec {index : Finset String}
    {sealThreshold segmentMax : Nat} {p : Pass} {d : Decided E} (he : e.Sound) :
    decideEntry index sealThreshold segmentMax p e = .ok d → match d with
    | .raised _ => Idle index p e
    | .settled _ q => (Idle index p e ∧ q = p)
      ∨ (¬Idle index p e ∧ ∃ L added records,
        q = p.settle sealThreshold segmentMax L added records
        ∧ Moves p.ledgers L ∧ (∀ d ∈ added, p.seen index d = false)
        ∧ (records = p.records
          ∨ keepRecord p.records e.recordRef = .ok records)) := by
  intro h
  have hmoves := he.moves p.ledgers (p.seen index)
  have hfresh := he.fresh p.ledgers (p.seen index)
  unfold decideEntry at h
  unfold Idle
  generalize e.decide p.ledgers (p.seen index) = r at h hmoves hfresh ⊢
  obtain ⟨out, L⟩ := r
  cases out with
  | error x =>
    cases h
    trivial
  | ok v =>
    dsimp only at h hmoves ⊢
    by_cases hacc : v.accepted = true
    · rw [if_pos hacc] at h
      split at h
      next => cases h
      next records hkeep =>
        cases h
        refine .inr ⟨by simp [hacc], L, _, records, rfl, hmoves, ?_, .inr hkeep⟩
        intro d hd
        exact hfresh v L rfl hacc d (mem_toFinset.1 hd)
    · rw [if_neg hacc] at h
      split at h
      next hun =>
        cases h
        rw [hmoves.unmoved hun.1 hun.2]
        exact .inl ⟨⟨by simpa using hacc, rfl⟩, rfl⟩
      next hmoved =>
        cases h
        refine .inr ⟨?_, L, ∅, p.records, rfl, hmoves, by simp, .inl rfl⟩
        rintro ⟨-, rfl⟩
        exact hmoved ⟨rfl, rfl⟩

/-- What settling leaves of a pass. -/
theorem Pass.settle_spec (sealThreshold segmentMax : Nat) (p : Pass)
    (L : Ledgers) (added : Finset String)
    (records : List (String × RecordRef)) :
    (∃ bodies, (p.settle sealThreshold segmentMax L added records).chunks
      = p.chunks ++ bodies)
    ∧ (p.settle sealThreshold segmentMax L added records).moved = true
    ∧ (p.settle sealThreshold segmentMax L added records).records
      = records := by
  unfold settle
  split
  · exact ⟨⟨_, rfl⟩, rfl, rfl⟩
  · exact ⟨⟨[], (append_nil _).symm⟩, rfl, rfl⟩

section Invariant

/-- The digests of segments and of pending are apart. -/
structure Apart (held : List (List String)) (pending : Finset String) :
    Prop where
  segments : held.Pairwise List.Disjoint
  pending : ∀ c ∈ held, ∀ d ∈ c, d ∉ pending

/-- What holds of a pass over ledger `s`, whose segments hold `held`. -/
structure Pass.Inv (s : LedgerState) (held : List (List String))
    (refs : List RecordRef) (p : Pass) : Prop where
  slots : p.ledgers.slots.Wf
  alike : s.slots.Alike p.ledgers.slots
  cursorKeys : (p.ledgers.cursors.map Prod.fst).Nodup
  hotkeys : "" ∉ p.ledgers.cursors.map Prod.fst
  sealed : p.sealed = p.chunks.flatten.toFinset
  bodies : ∀ c ∈ p.chunks, c ≠ []
  apart : Apart (held ++ p.chunks) p.pending
  kept : Kept refs p.records
  still : p.moved = false → p = start s

variable {job : JobSpec} {s : LedgerState} {held : List (List String)}
  {refs : List RecordRef} {segmentMax : Nat}

theorem Pass.Inv.start (h : s.Wf job) (hapart : Apart held s.pending)
    (hrefs : ∀ r ∈ s.records, r ∈ refs) : (start s).Inv s held refs where
  slots := h.slots
  alike := SlotLedger.Alike.refl _
  cursorKeys := h.cursorKeys
  hotkeys := h.hotkeys
  sealed := rfl
  bodies := nofun
  apart := by
    rw [show held ++ (Pass.start s).chunks = held from append_nil held]
    exact hapart
  kept := by
    refine ⟨forall_mem_map.2 fun _ _ => rfl, forall_mem_map.2 hrefs, ?_⟩
    rw [Pass.start, map_map]
    exact h.recordIds
  still := fun _ => rfl

/-- What is sealed is what was pending, in bodies apart from each
other. -/
theorem sealChunks_spec (digests : Finset String) (hmax : 1 ≤ segmentMax) :
    (sealChunks digests segmentMax).flatten.toFinset = digests
      ∧ (sealChunks digests segmentMax).Pairwise List.Disjoint
      ∧ ∀ c ∈ sealChunks digests segmentMax, c ≠ [] := by
  have hflat := flatten_chunks hmax (sortSet digests)
  refine ⟨?_, ?_, ?_⟩
  · rw [sealChunks, hflat, toFinset_sortSet]
  · have hnd := nodup_sortSet digests
    rw [← hflat, nodup_flatten] at hnd
    exact hnd.2
  · exact fun c hc => chunks_ne_nil hmax hc

/-- Sealing what is pending keeps the bodies apart. -/
theorem Apart.seal {pending : Finset String} (h : Apart held pending)
    (hmax : 1 ≤ segmentMax) :
    Apart (held ++ sealChunks pending segmentMax) ∅ := by
  obtain ⟨hall, hdisj, -⟩ := sealChunks_spec pending hmax
  refine ⟨pairwise_append.2 ⟨h.segments, hdisj, ?_⟩, fun c _ d _ =>
    Finset.notMem_empty d⟩
  intro c hc c' hc' d hd hd'
  refine h.pending c hc d hd ?_
  rw [← hall, mem_toFinset]
  exact mem_flatten.2 ⟨c', hc', hd'⟩

variable {p : Pass} {sealThreshold : Nat} (h : p.Inv s held refs)
  (hmax : 1 ≤ segmentMax)
include h hmax

theorem Pass.Inv.settle (hmoves : Moves p.ledgers L) {added : Finset String}
    (hfresh : ∀ d ∈ added, p.seen held.flatten.toFinset d = false)
    {records : List (String × RecordRef)} (hkept : Kept refs records) :
    (p.settle sealThreshold segmentMax L added records).Inv s held refs := by
  obtain ⟨hwf, hlike, hkeys, hne⟩ :=
    hmoves.keeps h.slots h.cursorKeys h.hotkeys
  -- what is added is in no body
  have hapart : Apart (held ++ p.chunks) (p.pending ∪ added) := by
    refine ⟨h.apart.segments, ?_⟩
    intro c hc d hd hmem
    rcases Finset.mem_union.1 hmem with hp | ha
    · exact h.apart.pending c hc d hd hp
    · have hseen := hfresh d ha
      unfold seen at hseen
      rw [Bool.or_eq_false_iff, Bool.or_eq_false_iff, decide_eq_false_iff_not,
        decide_eq_false_iff_not, decide_eq_false_iff_not, h.sealed,
        mem_toFinset, mem_toFinset] at hseen
      rcases mem_append.1 hc with hc | hc
      · exact hseen.2.2 (mem_flatten.2 ⟨c, hc, hd⟩)
      · exact hseen.2.1 (mem_flatten.2 ⟨c, hc, hd⟩)
  unfold Pass.settle
  split
  · obtain ⟨hall, -, hbodies⟩ := sealChunks_spec (p.pending ∪ added) hmax
    refine ⟨hwf, h.alike.trans hlike, hkeys, hne, ?_, ?_, ?_, hkept, nofun⟩
    · show p.sealed ∪ (p.pending ∪ added)
        = (p.chunks ++ sealChunks (p.pending ∪ added) segmentMax).flatten.toFinset
      rw [flatten_append, toFinset_append, hall, h.sealed]
    · exact forall_mem_append.2 ⟨h.bodies, hbodies⟩
    · rw [← append_assoc]
      exact hapart.seal hmax
  · exact ⟨hwf, h.alike.trans hlike, hkeys, hne, h.sealed, h.bodies, hapart,
      hkept, nofun⟩

/-- A settled entry keeps the invariant and every reference. -/
theorem Pass.Inv.settled {q : Pass} {v : Verdict} (he : e.Sound)
    (hone : OneRef refs) (hin : ∀ r, e.recordRef = some r → r ∈ refs)
    (hd : decideEntry held.flatten.toFinset sealThreshold segmentMax p e
      = .ok (.settled v q)) : q.Inv s held refs ∧ p.records ⊆ q.records := by
  rcases decideEntry_spec he hd with
    ⟨-, rfl⟩ | ⟨-, L, added, records', rfl, hmoves, hfresh, hrecords⟩
  · exact ⟨h, Subset.refl _⟩
  · rw [(settle_spec ..).2.2]
    rcases hrecords with rfl | hrecords
    · exact ⟨h.settle hmax hmoves hfresh h.kept, Subset.refl _⟩
    · obtain ⟨records, hkeep, hkept, hmem⟩ := keepRecord_ok hone h.kept hin
      rw [hkeep] at hrecords
      cases hrecords
      exact ⟨h.settle hmax hmoves hfresh hkept, fun x hx =>
        (hmem x).2 (.inl hx)⟩

/-- A pass over sound entries ends, and keeps the invariant. -/
theorem Pass.Inv.live (sealThreshold : Nat) (hone : OneRef refs)
    {es : List (TurnEntry E)} (hsound : ∀ e ∈ es, e.Sound)
    (hin : ∀ e ∈ es, ∀ r, e.recordRef = some r → r ∈ refs) :
    ∃ p' outs, Live held.flatten.toFinset sealThreshold segmentMax p es outs p'
      ∧ p'.Inv s held refs := by
  induction es generalizing p with
  | nil => exact ⟨p, [], .nil p, h⟩
  | cons e es ih =>
    rw [forall_mem_cons] at hsound hin
    obtain ⟨records, hkeep, -⟩ := keepRecord_ok hone h.kept hin.1
    obtain ⟨d, hd⟩ : ∃ d, decideEntry held.flatten.toFinset sealThreshold
        segmentMax p e = .ok d := by
      unfold decideEntry
      rw [hkeep]
      split
      · exact ⟨_, rfl⟩
      · split_ifs
        · exact ⟨_, rfl⟩
        · exact ⟨_, rfl⟩
        · exact ⟨_, rfl⟩
    cases d with
    | raised x =>
      obtain ⟨p', outs, hl, hp'⟩ := ih h hsound.2 hin.2
      exact ⟨p', _, .raised hd hl, hp'⟩
    | settled v q =>
      obtain ⟨p', outs, hl, hp'⟩ :=
        ih (h.settled hmax hsound.1 hone hin.1 hd).1 hsound.2 hin.2
      exact ⟨p', _, .settled hd hl, hp'⟩

end Invariant

-- ===== a turn per entry

/-- The stored ledger, and the digests of the segments it names. -/
structure Stored where
  doc : LedgerDoc
  index : Finset String
deriving DecidableEq

section OneByOne

variable (name : List String → String)

/-- A sealed body as the ledger names it. -/
def segmentRef (body : List String) : SegmentRef := ⟨name body, body.length⟩

/-- What a plan leaves in the store: its chunks sealed, named and
indexed. -/
def Stored.commit (st : Stored) (plan : TurnPlan E) : Stored :=
  match plan.after with
  | none => st
  | some after =>
    { doc := { after with
        seenSegments := some (after.seenSegments.getD []
          ++ plan.chunks.map (segmentRef name)) }
      index := st.index ∪ plan.chunks.flatten.toFinset }

/-- A turn for each entry, each from the ledger the one before left. -/
def oneByOne (job : JobSpec) (sealThreshold segmentMax : Nat) (st : Stored) :
    List (TurnEntry E) →
    Except PlanError (Outcomes E × List (List String) × Stored)
  | [] => .ok ([], [], st)
  | e :: es =>
    match rebuildLedgers job st.doc with
    | .error x => .error (.ledger x)
    | .ok s =>
      match planTurn st.index sealThreshold segmentMax job s st.doc [e] 2 with
      | .error x => .error x
      | .ok plan =>
        match oneByOne job sealThreshold segmentMax (st.commit name plan)
            es with
        | .error x => .error x
        | .ok (outs, bodies, st') =>
          .ok (plan.outcomes ++ outs, plan.chunks ++ bodies, st')

end OneByOne

-- ===== the simulation

theorem TurnEntry.Sound.alike (he : e.Sound) (hL : L.slots.Wf)
    (hL' : L'.slots.Wf) (h : L.reloaded = L'.reloaded) (seen : String → Bool) :
    (e.decide L seen).1 = (e.decide L' seen).1
      ∧ (e.decide L seen).2.reloaded = (e.decide L' seen).2.reloaded := by
  have h₁ := he.unordered L seen hL
  have h₂ := he.unordered L' seen hL'
  rw [h, h₂] at h₁
  obtain ⟨hout, hledgers⟩ := Prod.mk.inj h₁
  exact ⟨hout.symm, hledgers.symm⟩

theorem filled_of_reloaded (h : L.reloaded = L'.reloaded) :
    L.slots.filled = L'.slots.filled ∧ L.cursors = L'.cursors := by
  have hfilled := congrArg (fun M : Ledgers => M.slots.filled) h
  have hcursors := congrArg Ledgers.cursors h
  exact ⟨hfilled, hcursors⟩

/-- A pass `q` over the ledger read back stands where the batch's pass
`p` does. -/
structure Sim (index index' : Finset String) (q p : Pass) : Prop where
  ledgers : q.ledgers.reloaded = p.ledgers.reloaded
  pending : q.pending = p.pending
  sealed : ∀ d, (d ∈ q.sealed ∨ d ∈ index') ↔ (d ∈ p.sealed ∨ d ∈ index)
  records : ∀ x, x ∈ q.records ↔ x ∈ p.records

theorem Sim.seen {index index' : Finset String} {q p : Pass}
    (h : Sim index index' q p) : q.seen index' = p.seen index := by
  funext d
  unfold Pass.seen
  apply Bool.eq_iff_iff.2
  simp only [Bool.or_eq_true, decide_eq_true_eq]
  rw [h.pending, h.sealed d]

theorem Sim.settle {index index' : Finset String} {q p q' p' : Pass}
    (h : Sim index index' q p) {sealThreshold segmentMax : Nat}
    (hL : L.reloaded = L'.reloaded) {added : Finset String}
    {records records' : List (String × RecordRef)}
    (hrecords : ∀ x, x ∈ records ↔ x ∈ records')
    (hq : q.settle sealThreshold segmentMax L added records = q')
    (hp : p.settle sealThreshold segmentMax L' added records' = p') :
    Sim index index' q' p' ∧ ∃ bodies, q'.chunks = q.chunks ++ bodies
      ∧ p'.chunks = p.chunks ++ bodies ∧ q'.moved = true ∧ p'.moved = true := by
  subst hq hp
  unfold Pass.settle
  rw [h.pending]
  split
  · refine ⟨⟨hL, rfl, ?_, hrecords⟩, _, rfl, rfl, rfl, rfl⟩
    intro d
    have hsealed := h.sealed d
    simp only [Finset.mem_union]
    tauto
  · refine ⟨⟨hL, rfl, h.sealed, hrecords⟩, [], ?_, ?_, rfl, rfl⟩
    · exact (append_nil _).symm
    · exact (append_nil _).symm

/-- One entry, decided in step. -/
theorem Sim.decideEntry {index index' : Finset String} {s s' : LedgerState}
    {held held' : List (List String)} {refs : List RecordRef} {q p : Pass}
    {sealThreshold segmentMax : Nat} {d : Decided E} (h : Sim index index' q p)
    (hq : q.Inv s' held' refs) (hp : p.Inv s held refs) (he : e.Sound)
    (hone : OneRef refs) (hin : ∀ r, e.recordRef = some r → r ∈ refs) :
    decideEntry index sealThreshold segmentMax p e = .ok d → match d with
    | .raised x =>
      decideEntry index' sealThreshold segmentMax q e = .ok (.raised x)
    | .settled v p' => ∃ q',
      decideEntry index' sealThreshold segmentMax q e = .ok (.settled v q')
      ∧ Sim index index' q' p' ∧ ((q' = q ∧ p' = p) ∨ ∃ bodies,
        q'.chunks = q.chunks ++ bodies ∧ p'.chunks = p.chunks ++ bodies
        ∧ q'.moved = true ∧ p'.moved = true) := by
  intro hd
  have hmovesp := he.moves p.ledgers (p.seen index)
  have hmovesq := he.moves q.ledgers (p.seen index)
  have hlike := he.alike hq.slots hp.slots h.ledgers (p.seen index)
  have hstart := filled_of_reloaded h.ledgers
  unfold Corpus.decideEntry at hd ⊢
  rw [h.seen]
  generalize e.decide p.ledgers (p.seen index) = r at hmovesp hlike hd
  generalize e.decide q.ledgers (p.seen index) = r' at hmovesq hlike ⊢
  obtain ⟨out, L⟩ := r
  obtain ⟨out', L'⟩ := r'
  obtain ⟨hout, hledgers⟩ := hlike
  subst hout
  have hend := filled_of_reloaded hledgers
  cases out' with
  | error x =>
    cases hd
    rfl
  | ok v =>
    dsimp only at hd ⊢
    by_cases hacc : v.accepted = true
    · obtain ⟨records, hkeep, -, hmem⟩ := keepRecord_ok hone hp.kept hin
      obtain ⟨records', hkeep', -, hmem'⟩ := keepRecord_ok hone hq.kept hin
      have hsame : ∀ x, x ∈ records' ↔ x ∈ records := by
        intro x
        rw [hmem, hmem', h.records]
      have hdigests : e.digests L'.slots = e.digests L.slots := by
        have hwf := (hmovesp.keeps hp.slots hp.cursorKeys hp.hotkeys).1
        have hwf' := (hmovesq.keeps hq.slots hq.cursorKeys hq.hotkeys).1
        rw [← he.unorderedDigests _ hwf, ← he.unorderedDigests _ hwf',
          show L'.slots.reloaded = L.slots.reloaded from
            congrArg Ledgers.slots hledgers]
      rw [if_pos hacc, hkeep] at hd
      cases hd
      rw [if_pos hacc, hkeep', hdigests]
      exact ⟨_, rfl, (h.settle hledgers hsame rfl rfl).imp_right .inr⟩
    · rw [if_neg hacc] at hd ⊢
      rw [hend.1, hend.2, hstart.1, hstart.2]
      split at hd
      next hun =>
        cases hd
        rw [if_pos hun]
        have hpL : L = p.ledgers := hmovesp.unmoved hun.1 hun.2
        have hqL : L' = q.ledgers :=
          hmovesq.unmoved (hend.1.trans (hun.1.trans hstart.1.symm))
            (hend.2.trans (hun.2.trans hstart.2.symm))
        rw [hpL, hqL]
        exact ⟨q, rfl, h, .inl ⟨rfl, rfl⟩⟩
      next hmove =>
        cases hd
        rw [if_neg hmove]
        exact ⟨_, rfl, (h.settle hledgers h.records rfl rfl).imp_right .inr⟩

-- ===== the ledger read back

theorem SlotLedger.Shape.reloaded_reloaded (h : l.Shape) :
    l.reloaded.reloaded = l.reloaded := by
  have hsorted : l.reloaded.failedSnapshot = l.failedSnapshot := by
    rw [h.reloaded.failedSnapshot_eq, h.failedSnapshot_eq,
      show l.reloaded.failed = l.failedSnapshot from rfl, h.failedSnapshot_eq,
      map_map]
    refine map_congr_left fun x _ => ?_
    have hx := pairwise_insertionSort (· ≤ ·) x.2
    exact Prod.ext rfl hx.insertionSort_eq
  unfold SlotLedger.reloaded
  rw [show SlotLedger.failedSnapshot { l with failed := l.failedSnapshot }
    = l.failedSnapshot from hsorted]

/-- The written form sees neither the order of failures nor that of
references. -/
theorem ledgerSnapshot_congr {slots slots' : SlotLedger} {cursors : Cursors}
    {pending : Finset String} {segments : List SegmentRef}
    {refs refs' : Option (List RecordRef)}
    (hslots : slots.reloaded = slots'.reloaded)
    (hrefs : refs.map (sortBy RecordRef.submissionId)
      = refs'.map (sortBy RecordRef.submissionId)) :
    ledgerSnapshot slots cursors pending segments refs
      = ledgerSnapshot slots' cursors pending segments refs' := by
  have hconsumed := congrArg SlotLedger.consumed hslots
  have hfailed := congrArg SlotLedger.failed hslots
  change slots.snapshot = slots'.snapshot at hconsumed
  change slots.failedSnapshot = slots'.failedSnapshot at hfailed
  have hsome : refs.isSome = refs'.isSome := by
    have h := congrArg Option.isSome hrefs
    rwa [Option.isSome_map, Option.isSome_map] at h
  unfold ledgerSnapshot
  rw [hconsumed, hfailed, hsome, hrefs]

theorem keyed_snapshot {job : JobSpec} {s : LedgerState} (h : s.Wf job)
    (refs : Option (List RecordRef)) :
    (ledgerSnapshot s.slots s.cursors s.pending s.segments refs).Keyed := by
  refine ⟨h.slots.consumedKeys, h.cursorKeys, ?_⟩
  rw [failed_ledgerSnapshot]
  exact h.slots.toShape.reloaded.failedKeys

/-- Distinct bodies have distinct, usable names. -/
structure NamesOk (name : List String → String)
    (held bodies : List (List String)) : Prop where
  inj : Set.InjOn name {c | c ∈ held ++ bodies}
  hex : ∀ c ∈ bodies, hexDigest (name c).toList = true

section ReadBack

variable {name : List String → String} {job : JobSpec} {s : LedgerState}
  {held : List (List String)} {refs : List RecordRef} {p : Pass}

/-- The ledger a pass stands for, as it would be written. -/
def Pass.state (name : List String → String) (s : LedgerState) (p : Pass) :
    LedgerState where
  schema := s.schema
  slots := p.ledgers.slots
  cursors := p.ledgers.cursors
  pending := p.pending
  segments := s.segments ++ p.chunks.map (segmentRef name)
  records := p.records.map Prod.snd

def Pass.written (name : List String → String) (s : LedgerState) (p : Pass) :
    LedgerDoc :=
  ledgerSnapshot p.ledgers.slots p.ledgers.cursors p.pending
    (s.segments ++ p.chunks.map (segmentRef name)) (p.pendingRecords s)

theorem Pass.Inv.nodup_bodies (h : p.Inv s held refs)
    (hheld : ∀ c ∈ held, c ≠ []) : (held ++ p.chunks).Nodup := by
  refine h.apart.segments.imp_of_mem ?_
  intro a b ha hb hab heq
  subst heq
  have hne : a ≠ [] := by
    rcases mem_append.1 ha with ha | ha
    · exact hheld a ha
    · exact h.bodies a ha
  obtain ⟨d, hd⟩ := exists_mem_of_ne_nil a hne
  exact hab hd hd

theorem nodup_snd {records : List (String × RecordRef)}
    (hkeyed : ∀ x ∈ records, x.2.submissionId = x.1)
    (honce : (records.map Prod.fst).Nodup) :
    ((records.map Prod.snd).map RecordRef.submissionId).Nodup := by
  rw [map_map]
  have hsame : records.map (RecordRef.submissionId ∘ Prod.snd)
      = records.map Prod.fst := map_congr_left hkeyed
  rw [hsame]
  exact honce

theorem Pass.pendingRecords_getD (s : LedgerState) (p : Pass) :
    (p.pendingRecords s).getD [] = p.records.map Prod.snd := by
  unfold pendingRecords
  split
  · rfl
  · rename_i hnone
    rw [not_or, not_not] at hnone
    rw [hnone.2]
    rfl

/-- The stored ledger stands where the batch's pass does. -/
structure At (name : List String → String) (job : JobSpec) (s : LedgerState)
    (held : List (List String)) (st₀ st : Stored) (p : Pass)
    (sk : LedgerState) : Prop where
  read : rebuildLedgers job st.doc = .ok sk
  wf : sk.Wf job
  ledgers : sk.ledgers.reloaded = p.ledgers.reloaded
  pending : sk.pending = p.pending
  segments : sk.segments = s.segments ++ p.chunks.map (segmentRef name)
  records : ∀ x, x ∈ (start sk).records ↔ x ∈ p.records
  schema : (sk.schema = .v3 ∨ p.records ≠ [])
    ↔ (s.schema = .v3 ∨ p.records ≠ [])
  index : st.index = (held ++ p.chunks).flatten.toFinset
  still : p.moved = false → st = st₀
  written : p.moved = true → st.doc = p.written name s

variable {st₀ st : Stored} {sk : LedgerState} {sealThreshold segmentMax : Nat}

section Written

variable (h : p.Inv s held refs) (hwf : s.Wf job)
  (hheld : s.segments = held.map (segmentRef name))
  (hnames : NamesOk name held p.chunks) (hok : ∀ r ∈ refs, r.ok = true)
include h hwf hheld hnames hok

theorem Pass.Inv.state_wf : (p.state name s).Wf job where
  slots := h.slots
  start := h.alike.1.trans hwf.start
  count := h.alike.2.1.trans hwf.count
  perPrompt := h.alike.2.2.trans hwf.perPrompt
  cursorKeys := h.cursorKeys
  hotkeys := h.hotkeys
  segmentsOk := by
    refine forall_mem_append.2 ⟨hwf.segmentsOk, forall_mem_map.2 ?_⟩
    intro c hc
    have hpos := length_pos_of_ne_nil (h.bodies c hc)
    unfold SegmentRef.ok segmentRef
    rw [hnames.hex c hc, Bool.true_or, Bool.true_and]
    exact decide_eq_true hpos
  segmentIds := by
    have hbodies : ∀ c ∈ held, c ≠ [] := by
      intro c hc hnil
      have hr := hwf.segmentsOk (segmentRef name c) (hheld ▸ mem_map_of_mem hc)
      unfold SegmentRef.ok at hr
      rw [Bool.and_eq_true, decide_eq_true_eq] at hr
      rw [segmentRef, hnil] at hr
      exact absurd hr.2 (by simp)
    have hmap : (p.state name s).segments.map SegmentRef.id
        = (held ++ p.chunks).map name := by
      rw [state, hheld, ← map_append, map_map]
      rfl
    rw [hmap]
    exact (h.nodup_bodies hbodies).map_on fun a ha b hb hab =>
      hnames.inj ha hb hab
  recordsOk := by
    intro r hr
    obtain ⟨x, hx, rfl⟩ := mem_map.1 hr
    exact hok _ (h.kept.among x hx)
  recordIds := nodup_snd h.kept.keyed h.kept.once

theorem Pass.Inv.rebuild :
    rebuildLedgers job (p.written name s)
      = .ok ((p.state name s).reread (p.pendingRecords s)) := by
  have hstate := h.state_wf hwf hheld hnames hok
  refine rebuild_snapshot hstate ?_ ?_
  · rw [pendingRecords_getD]
    exact hstate.recordsOk
  · rw [pendingRecords_getD]
    exact hstate.recordIds

/-- Right after a write. -/
theorem At.of_written (hmoved : p.moved = true) : At name job s held st₀
      ⟨p.written name s, (held ++ p.chunks).flatten.toFinset⟩ p
      ((p.state name s).reread (p.pendingRecords s)) where
  read := h.rebuild hwf hheld hnames hok
  wf := rebuild_wf (keyed_snapshot (h.state_wf hwf hheld hnames hok) _)
    (h.rebuild hwf hheld hnames hok)
  ledgers := by
    have hidem := h.slots.toShape.reloaded_reloaded
    show Ledgers.mk p.ledgers.slots.reloaded.reloaded p.ledgers.cursors
      = ⟨p.ledgers.slots.reloaded, p.ledgers.cursors⟩
    rw [hidem]
  pending := rfl
  segments := rfl
  records := by
    intro x
    have hmem : ∀ r, r ∈ ((p.state name s).reread (p.pendingRecords s)).records
        ↔ r ∈ p.records.map Prod.snd := by
      intro r
      rw [← pendingRecords_getD s p]
      exact (perm_sortBy _ _).mem_iff
    constructor
    · intro hx
      obtain ⟨r, hr, rfl⟩ := mem_map.1 hx
      obtain ⟨y, hy, rfl⟩ := mem_map.1 ((hmem r).1 hr)
      have hkey := h.kept.keyed y hy
      rw [hkey]
      exact hy
    · intro hx
      refine mem_map.2 ⟨x.2, (hmem x.2).2 (mem_map_of_mem hx), ?_⟩
      exact Prod.ext (h.kept.keyed x hx) rfl
  schema := by
    unfold LedgerState.reread pendingRecords
    by_cases hsome : s.schema = .v3 ∨ p.records ≠ []
    · simp [hsome]
    · simp only [hsome, iff_false]
      rw [not_or] at hsome ⊢
      exact ⟨by simp, hsome.2⟩
  index := rfl
  still := by
    intro hm
    rw [hmoved] at hm
    cases hm
  written := fun _ => rfl

end Written

theorem At.sim (h : At name job s held st₀ st p sk) (hp : p.Inv s held refs) :
    Sim held.flatten.toFinset (held ++ p.chunks).flatten.toFinset
      (start sk) p where
  ledgers := h.ledgers
  pending := h.pending
  sealed := by
    intro d
    rw [hp.sealed, flatten_append, toFinset_append, Finset.mem_union,
      show (start sk).sealed = ∅ from rfl]
    constructor
    · rintro (hd | hd | hd)
      · exact absurd hd (Finset.notMem_empty d)
      · exact .inr hd
      · exact .inl hd
    · rintro (hd | hd)
      · exact .inr (.inr hd)
      · exact .inr (.inl hd)
  records := h.records

theorem At.start_inv (h : At name job s held st₀ st p sk)
    (hp : p.Inv s held refs) :
    (start sk).Inv sk (held ++ p.chunks) refs := by
  refine Pass.Inv.start h.wf (h.pending ▸ hp.apart) ?_
  intro r hr
  have hmem : (r.submissionId, r) ∈ (start sk).records :=
    mem_map_of_mem hr
  exact hp.kept.among _ ((h.records _).1 hmem)

/-- The references two passes with the same ones would write. -/
theorem pendingRecords_congr {q : Pass} (hq : Kept refs q.records)
    (hp : Kept refs p.records) (hsame : ∀ x, x ∈ q.records ↔ x ∈ p.records)
    (hschema : (sk.schema = .v3 ∨ p.records ≠ [])
      ↔ (s.schema = .v3 ∨ p.records ≠ [])) :
    (q.pendingRecords sk).map (sortBy RecordRef.submissionId)
      = (p.pendingRecords s).map (sortBy RecordRef.submissionId) := by
  have hperm : q.records.Perm p.records :=
    (perm_ext_iff_of_nodup hq.once.of_map hp.once.of_map).2 hsame
  have hnil : q.records ≠ [] ↔ p.records ≠ [] := by
    rw [not_iff_not, ← length_eq_zero_iff, ← length_eq_zero_iff,
      hperm.length_eq]
  have hwhen : (sk.schema = .v3 ∨ q.records ≠ [])
      ↔ (s.schema = .v3 ∨ p.records ≠ []) := by
    rw [hnil]
    exact hschema
  unfold pendingRecords
  by_cases hsome : s.schema = .v3 ∨ p.records ≠ []
  · rw [if_pos hsome, if_pos (hwhen.2 hsome), Option.map_some,
      Option.map_some, sortBy_perm (nodup_snd hq.keyed hq.once) (hperm.map _)]
  · rw [if_neg hsome, if_neg (fun h => hsome (hwhen.1 h))]

/-- The bodies of a pass only grow. -/
theorem chunks_decideEntry {index : Finset String} {p q : Pass} {v : Verdict}
    (he : e.Sound)
    (h : decideEntry index sealThreshold segmentMax p e = .ok (.settled v q)) :
    (∃ bodies, q.chunks = p.chunks ++ bodies)
      ∧ (p.moved = true → q.moved = true) := by
  rcases decideEntry_spec he h with ⟨-, rfl⟩ | ⟨-, L, added, records, rfl, -⟩
  · exact ⟨⟨[], (append_nil _).symm⟩, id⟩
  · obtain ⟨hgrow, hmoved, -⟩ :=
      settle_spec sealThreshold segmentMax p L added records
    exact ⟨hgrow, fun _ => hmoved⟩

theorem chunks_live {index : Finset String} {es : List (TurnEntry E)}
    {p p' : Pass} (h : Live index sealThreshold segmentMax p es outs p') :
    (∀ e ∈ es, e.Sound) → (∃ bodies, p'.chunks = p.chunks ++ bodies)
      ∧ (p.moved = true → p'.moved = true) := by
  induction h with
  | nil p => exact fun _ => ⟨⟨[], (append_nil _).symm⟩, id⟩
  | raised _ _ ih => exact fun hsound => ih (forall_mem_cons.1 hsound).2
  | settled hd _ ih =>
    intro hsound
    rw [forall_mem_cons] at hsound
    obtain ⟨⟨b₁, h₁⟩, hm₁⟩ := chunks_decideEntry hsound.1 hd
    obtain ⟨⟨b₂, h₂⟩, hm₂⟩ := ih hsound.2
    refine ⟨⟨b₁ ++ b₂, ?_⟩, fun hm => hm₂ (hm₁ hm)⟩
    rw [h₂, h₁, append_assoc]

theorem NamesOk.sub {bodies more : List (List String)}
    (h : NamesOk name held (bodies ++ more)) : NamesOk name held bodies where
  inj := by
    refine h.inj.mono fun c hc => ?_
    rw [Set.mem_setOf_eq, ← append_assoc]
    exact mem_append_left _ hc
  hex := fun c hc => h.hex c (mem_append_left _ hc)

section Turn

variable (hwf : s.Wf job) (hmax : 1 ≤ segmentMax)
  (hheld : s.segments = held.map (segmentRef name)) (hone : OneRef refs)
  (hok : ∀ r ∈ refs, r.ok = true)
include hwf hmax hheld hone hok

/-- An entry that is settled, in a turn of its own. -/
theorem At.settled (h : At name job s held st₀ st p sk)
    (hp : p.Inv s held refs) (he : e.Sound)
    (hin : ∀ r, e.recordRef = some r → r ∈ refs) {v : Verdict} {p' : Pass}
    (hd : decideEntry held.flatten.toFinset sealThreshold segmentMax p e
      = .ok (.settled v p')) : ∃ bodies after,
      planTurn st.index sealThreshold segmentMax job sk st.doc [e] 2
          = .ok ⟨[some (.ok v)], after, bodies⟩
        ∧ p'.chunks = p.chunks ++ bodies
        ∧ (NamesOk name held p'.chunks → ∃ sk', At name job s held st₀
          (st.commit name (⟨[some (.ok v)], after, bodies⟩ : TurnPlan E))
          p' sk') := by
  have hstart := h.start_inv hp
  obtain ⟨q, hdq, hsim, hmove⟩ := (h.sim hp).decideEntry hstart hp he hone hin hd
  obtain ⟨hp', hrefs⟩ := hp.settled hmax he hone hin hd
  have hq := (hstart.settled hmax he hone hin hdq).1.kept
  rw [← h.index] at hdq
  have hplan := planTurn_live h.read (.settled hdq (.nil _)) Nat.one_lt_two
  rcases hmove with ⟨rfl, rfl⟩ | ⟨bodies, hqc, hpc, hqm, hpm⟩
  · exact ⟨[], none, hplan, (append_nil _).symm, fun _ => ⟨sk, h⟩⟩
  · have hchunks : q.chunks = bodies := hqc
    rw [turnPlan, if_pos hqm, hchunks] at hplan
    refine ⟨bodies, _, hplan, hpc, ?_⟩
    intro hnames
    -- the schema was v3 before the entry or it has references now
    have hschema : (sk.schema = .v3 ∨ p'.records ≠ [])
        ↔ (s.schema = .v3 ∨ p'.records ≠ []) := by
      by_cases hnil : p'.records = []
      · have hs := h.schema
        rw [hnil] at hrefs ⊢
        rwa [subset_nil.1 hrefs] at hs
      · simp [hnil]
    have hsegs : sk.segments ++ bodies.map (segmentRef name)
        = s.segments ++ p'.chunks.map (segmentRef name) := by
      rw [h.segments, hpc, map_append, append_assoc]
    have hslots := congrArg Ledgers.slots hsim.ledgers
    have hcursors := congrArg Ledgers.cursors hsim.ledgers
    change q.ledgers.slots.reloaded = p'.ledgers.slots.reloaded at hslots
    change q.ledgers.cursors = p'.ledgers.cursors at hcursors
    have hwritten : ledgerSnapshot q.ledgers.slots q.ledgers.cursors
        q.pending (sk.segments ++ bodies.map (segmentRef name))
        (q.pendingRecords sk) = p'.written name s := by
      rw [hsegs, hcursors, hsim.pending]
      exact ledgerSnapshot_congr hslots
        (pendingRecords_congr hq hp'.kept hsim.records hschema)
    have hindex : st.index ∪ bodies.flatten.toFinset
        = (held ++ p'.chunks).flatten.toFinset := by
      rw [h.index, hpc]
      simp only [flatten_append, toFinset_append, Finset.union_assoc]
    have hat : At name job s held st₀ _ p' _ :=
      At.of_written hp' hwf hheld hnames hok hpm
    rw [← hwritten, ← hindex] at hat
    exact ⟨_, hat⟩

/-- **One pass is a turn per entry.** -/
theorem live_oneByOne {es : List (TurnEntry E)} {p p' : Pass}
    (hlive : Live held.flatten.toFinset sealThreshold segmentMax p es outs p')
    (hnames : NamesOk name held p'.chunks)
    (hsound : ∀ e ∈ es, e.Sound)
    (hin : ∀ e ∈ es, ∀ r, e.recordRef = some r → r ∈ refs) :
    ∀ {st : Stored} {sk : LedgerState}, At name job s held st₀ st p sk →
      p.Inv s held refs → ∃ bodies st' sk', p'.chunks = p.chunks ++ bodies
        ∧ oneByOne name job sealThreshold segmentMax st es
          = .ok (outs.map some, bodies, st')
        ∧ At name job s held st₀ st' p' sk' := by
  induction hlive with
  | nil p => exact fun {st sk} h _ => ⟨[], st, sk, (append_nil _).symm, rfl, h⟩
  | raised hd _ ih =>
    intro st sk h hp
    rw [forall_mem_cons] at hsound hin
    have hdq := (h.sim hp).decideEntry (h.start_inv hp) hp hsound.1 hone hin.1 hd
    rw [← h.index] at hdq
    have hplan := planTurn_live h.read (.raised hdq (.nil _)) Nat.one_lt_two
    change _ = Except.ok (TurnPlan.mk _ none []) at hplan
    obtain ⟨bodies, st', sk', hc, hrest, hat⟩ :=
      ih hnames hsound.2 hin.2 h hp
    refine ⟨bodies, st', sk', hc, ?_, hat⟩
    rw [oneByOne, h.read]
    dsimp only
    rw [hplan]
    dsimp only [Stored.commit]
    rw [hrest]
    rfl
  | settled hd hl ih =>
    intro st sk h hp
    rw [forall_mem_cons] at hsound hin
    obtain ⟨bodies, after, hplan, hqc, hat⟩ :=
      h.settled hwf hmax hheld hone hok hp hsound.1 hin.1 hd
    obtain ⟨⟨more, hmore⟩, -⟩ := chunks_live hl hsound.2
    obtain ⟨sk', hsk'⟩ := hat (hmore ▸ hnames).sub
    obtain ⟨bodies', st', sk'', hc, hrest, hat'⟩ := ih hnames hsound.2 hin.2
      hsk' (hp.settled hmax hsound.1 hone hin.1 hd).1
    refine ⟨bodies ++ bodies', st', sk'', ?_, ?_, hat'⟩
    · rw [hc, hqc, append_assoc]
    · rw [oneByOne, h.read]
      dsimp only
      rw [hplan]
      dsimp only
      rw [hrest]
      rfl

end Turn

end ReadBack

-- ===== the result

/-- A pass moved unless every entry, decided where it began, is idle. -/
theorem moved_iff {index : Finset String} {sealThreshold segmentMax : Nat}
    {es : List (TurnEntry E)} {p p' : Pass}
    (h : Live index sealThreshold segmentMax p es outs p') :
    p.moved = false → (∀ e ∈ es, e.Sound) →
      (p'.moved = false ↔ ∀ e ∈ es, Idle index p e) := by
  induction h with
  | nil p => exact fun hp _ => by simp [hp]
  | raised hd _ ih =>
    intro hp hsound
    rw [forall_mem_cons] at hsound ⊢
    rw [ih hp hsound.2]
    exact (and_iff_right (decideEntry_spec hsound.1 hd)).symm
  | settled hd hl ih =>
    intro hp hsound
    rw [forall_mem_cons] at hsound ⊢
    rcases decideEntry_spec hsound.1 hd with
      ⟨hidle, rfl⟩ | ⟨hbusy, L, added, records, rfl, -⟩
    · rw [ih hp hsound.2]
      exact (and_iff_right hidle).symm
    · rw [(chunks_live hl hsound.2).2 (settle_spec _ _ _ _ _ _).2.1]
      exact ⟨nofun, fun hall => absurd hall.1 hbusy⟩

/-- What a plan leaves pending. -/
def TurnPlan.pending (s : LedgerState) (plan : TurnPlan E) : Finset String :=
  match plan.after with
  | none => s.pending
  | some after => (after.seenPending.getD []).toFinset

theorem SlotLedger.Shape.capacityAt_reloaded (h : l.Shape)
    (p : Nat) : l.reloaded.capacityAt p = l.capacityAt p := by
  unfold capacityAt reopened
  rw [reopenedBy_perm (h.failedAt_reloaded p)]
  rfl

/-- A slot is taken alike whatever order the failures are in. -/
theorem SlotLedger.Wf.consume_reloaded (h : l.Wf) (p : Nat) :
    l.reloaded.consume p = match l.consume p with
      | .ok (l', n) => .ok (l'.reloaded, n)
      | .error e => .error e := by
  unfold consume
  rw [show l.reloaded.check p = l.check p from rfl]
  cases l.check p with
  | error e => rfl
  | ok q =>
    have hcap := h.toShape.capacityAt_reloaded q
    have htaken : l.reloaded.takenAt q = l.takenAt q := rfl
    simp only [bind, Except.bind]
    rw [hcap, htaken]
    by_cases hfull : l.capacityAt q ≤ l.takenAt q
    · rw [if_pos hfull, if_pos hfull]
    · rw [if_neg hfull, if_neg hfull]
      rfl

/-- Takes a slot of a row for one digest. -/
def takeEntry (p : Nat) (digest : String) (ref : Option RecordRef) :
    TurnEntry SlotError where
  decide L seen :=
    if seen digest then
      (.ok { accepted := false, reason := .hashDuplicate }, L)
    else
      match L.slots.consume p with
      | .error e => (.error e, L)
      | .ok (slots, n) =>
        (.ok { accepted := true, reason := .accepted,
               slotsRemaining := some n }, { L with slots })
  digests _ := [digest]
  recordRef := ref

/-- Takes a slot and raises. -/
def brokenEntry (p : Nat) : TurnEntry SlotError where
  decide L _ :=
    match L.slots.consume p with
    | .error e => (.error e, L)
    | .ok (slots, _) => (.error .value, { L with slots })
  digests _ := []
  recordRef := none

theorem takeEntry_sound (p : Nat) (digest : String) {ref : Option RecordRef}
    (hok : ∀ r, ref = some r → r.ok = true) :
    (takeEntry p digest ref).Sound where
  moves := by
    intro L seen
    unfold takeEntry
    dsimp only
    split
    · exact Moves.refl L
    · cases hc : L.slots.consume p with
      | error e => exact Moves.refl L
      | ok r => exact Moves.consume hc (Moves.refl _)
  fresh := by
    intro L seen v L' h hacc d hd
    rw [show (takeEntry p digest ref).digests L'.slots = [digest] from rfl,
      mem_singleton] at hd
    subst hd
    unfold takeEntry at h
    dsimp only at h
    by_cases hs : seen d = true
    · rw [if_pos hs] at h
      injection h with h _
      injection h with h
      rw [← h] at hacc
      cases hacc
    · simpa using hs
  unordered := by
    intro L seen hwf
    unfold takeEntry
    dsimp only
    split
    · rfl
    · rw [show L.reloaded.slots.consume p = L.slots.reloaded.consume p from rfl,
        hwf.consume_reloaded]
      cases L.slots.consume p with
      | error e => rfl
      | ok r => rfl
  unorderedDigests := fun l _ => rfl
  recordOk := hok

theorem brokenEntry_sound (p : Nat) : (brokenEntry p).Sound where
  moves := by
    intro L seen
    unfold brokenEntry
    dsimp only
    cases hc : L.slots.consume p with
    | error e => exact Moves.refl L
    | ok r => exact Moves.consume hc (Moves.refl _)
  fresh := by
    intro L seen v L' h
    unfold brokenEntry at h
    dsimp only at h
    split at h
    · injection h with h _
      cases h
    · injection h with h _
      cases h
  unordered := by
    intro L seen hwf
    unfold brokenEntry
    dsimp only
    rw [show L.reloaded.slots.consume p = L.slots.reloaded.consume p from rfl,
      hwf.consume_reloaded]
    cases L.slots.consume p with
    | error e => rfl
    | ok r => rfl
  unorderedDigests := fun l _ => rfl
  recordOk := by
    intro r hr
    cases hr

/-- A slot taken, one that breaks half way, another taken. -/
def brokenBatch : List (TurnEntry SlotError) :=
  [takeEntry 0 "a" none, brokenEntry 0, takeEntry 0 "b" none]

def bodyName (body : List String) : String :=
  String.ofList (List.replicate 64 (if body = ["a"] then 'a' else 'b'))

/-- The ledger of a job nothing was written for yet. -/
def unwritten (job : JobSpec) : LedgerState :=
  ⟨.v1, emptySlots job, [], ∅, [], []⟩

def sampleRef (receivedAt : ℚ) : RecordRef :=
  ⟨bodyName [], bodyName [], receivedAt⟩

/-- Two entries whose references share an id and differ. -/
def clashingBatch : List (TurnEntry SlotError) :=
  [takeEntry 0 "a" (some (sampleRef 1)), takeEntry 0 "b" (some (sampleRef 2))]

end Reliquary.Corpus
