/-
The ledger a `BucketJobStore` keeps in memory
(src/reliquary/infrastructure/corpus_job_store.py, `read_ledgers` and
`write_ledgers` of the class, over `_get` and `_put`), for one job.

# What is modeled how

- `log` lists what the bucket held, oldest first; each put that lands adds
  to it. The ETag is the bucket's: `tag`, of the snapshot and of how many
  contents there were.
- A call is entered in `calls` when it begins, up to its await. The bucket
  answers it once, at one moment (`answer`), and it then runs to its end
  (`finish`). Between any two of these anything else may happen.

# Freshness

`Fresh n m` says that nothing older than the `n`-th content can be
remembered, or be returned by a call after the `m`-th. Only a call of the
current generation can fill the memory, so it is kept by every step. With
`n = m = 0` it is that every pair returned was held. And it holds anew from
the moment a put is judged (`Fresh.judged`), if by then the bucket has
answered no call that began since the last write: a read answered in
between has the write's generation, and fills the memory with what it saw
before the put.
-/
import Reliquary.Store.Run
import Reliquary.Store.Table

namespace Reliquary.Corpus.Cache

open List Option

variable {S T : Type}

-- ===== the model

/-- A snapshot with its ETag, or nothing. -/
abbrev Content (S T : Type) := Option (S × T)

/-- Where a call stands. A reply of `none` is a call that raised, or a put
whose answer has no ETag. -/
inductive Stage (S T : Type)
  | waiting
  | answered (reply : Option (Content S T))
  | done (reply : Option (Content S T))
deriving DecidableEq

/-- A call, with the generation it began under and what it puts, against
which ETag. A read puts nothing. -/
structure Call (S T : Type) where
  generation : Nat
  put : Option (S × Option T)
  stage : Stage S T
deriving DecidableEq

structure World (S T : Type) where
  log : List (Content S T)
  memory : Content S T
  generation : Nat
  calls : List (Call S T)
deriving DecidableEq

/-- What becomes of a request: it never arrives, its answer is lost, or it
is answered. -/
inductive Fate
  | lost
  | unheard
  | heard
deriving DecidableEq

namespace World

def content (w : World S T) : Content S T := w.log.getLastD none

def enter (w : World S T) (c : Call S T) : World S T :=
  { w with calls := w.calls ++ [c] }

/-- `read_ledgers` up to its await. -/
def readLedgers (w : World S T) : World S T :=
  match w.memory with
  | some pair => w.enter ⟨w.generation, none, .done (some (some pair))⟩
  | none => w.enter ⟨w.generation, none, .waiting⟩

/-- `write_ledgers` up to its await. -/
def writeLedgers (w : World S T) (snapshot : S) (etag : Option T) :
    World S T :=
  { w with memory := none, generation := w.generation + 1 }.enter
    ⟨w.generation + 1, some (snapshot, etag), .waiting⟩

/-- What a put that lands leaves in the bucket. -/
def stored (tag : S → Nat → T) (w : World S T) (snapshot : S) : S × T :=
  (snapshot, tag snapshot w.log.length)

/-- A put at the bucket, if what it is conditioned on holds. -/
def putObject [DecidableEq T] (tag : S → Nat → T) (w : World S T)
    (snapshot : S) (etag : Option T) : World S T :=
  if w.content.map Prod.snd = etag then
    { w with log := w.log ++ [some (w.stored tag snapshot)] }
  else w

def setStage (w : World S T) (i : Nat) (c : Call S T) (stage : Stage S T) :
    World S T :=
  { w with calls := w.calls.set i { c with stage } }

/-- The bucket answers a call. -/
def answer [DecidableEq T] (tag : S → Nat → T) (w : World S T) (i : Nat)
    (fate : Fate) : World S T :=
  match w.calls[i]? with
  | some ⟨g, none, .waiting⟩ =>
    w.setStage i ⟨g, none, .waiting⟩ (.answered
      (if fate = .heard then some w.content else none))
  | some ⟨g, some (snapshot, etag), .waiting⟩ =>
    if fate = .lost then
      w.setStage i ⟨g, some (snapshot, etag), .waiting⟩ (.answered none)
    else
      (w.putObject tag snapshot etag).setStage i
        ⟨g, some (snapshot, etag), .waiting⟩ (.answered
          (if fate = .heard ∧ w.content.map Prod.snd = etag
            then some (some (w.stored tag snapshot)) else none))
  | _ => w

/-- A call after its await. -/
def finish (w : World S T) (i : Nat) : World S T :=
  match w.calls[i]? with
  | some ⟨g, put, .answered reply⟩ =>
    { w.setStage i ⟨g, put, .answered reply⟩ (.done reply) with
      memory := match reply with
        | some (some pair) =>
          if w.generation = g ∧ (put.isSome ∨ w.memory.isNone) then some pair
          else w.memory
        | _ => w.memory }
  | _ => w

/-- A step of the store, the bucket or another writer. -/
inductive Op (S T : Type)
  | read
  | write (snapshot : S) (etag : Option T)
  | answer (i : Nat) (fate : Fate)
  | finish (i : Nat)
  | otherPut (snapshot : S) (etag : Option T)

def step [DecidableEq T] (tag : S → Nat → T) (w : World S T) :
    Op S T → World S T
  | .read => w.readLedgers
  | .write snapshot etag => w.writeLedgers snapshot etag
  | .answer i fate => w.answer tag i fate
  | .finish i => w.finish i
  | .otherPut snapshot etag => w.putObject tag snapshot etag

def run [DecidableEq T] (tag : S → Nat → T) (w : World S T)
    (ops : List (Op S T)) : World S T :=
  ops.foldl (step tag) w

/-- A new store over a bucket that holds a ledger or none. -/
def start (tag : S → Nat → T) (first : Option S) : World S T :=
  ⟨[first.map fun s => (s, tag s 0)], none, 0, []⟩

/-- The put a step makes. -/
def Puts (w : World S T) (op : Op S T) (snapshot : S) (etag : Option T) :
    Prop :=
  op = .otherPut snapshot etag ∨ ∃ i fate c, op = .answer i fate
    ∧ w.calls[i]? = some c ∧ c.put = some (snapshot, etag)

end World

open World

-- ===== what a step does

def Stage.reply : Stage S T → Option (Content S T)
  | .waiting => none
  | .answered reply | .done reply => reply

variable {tag : S → Nat → T} {w w' : World S T} {n m i : Nat}

theorem calls_setStage {c : Call S T} (hi : w.calls[i]? = some c)
    (stage : Stage S T) (k : Nat) : (w.setStage i c stage).calls[k]?
      = if i = k then some { c with stage } else w.calls[k]? := by
  rw [World.setStage, getElem?_set, if_pos (List.getElem?_eq_some_iff.1 hi).1]

/-- A put landed: what it was conditioned on held. -/
def Landed (tag : S → Nat → T) (w : World S T) (snapshot : S)
    (etag : Option T) (w' : World S T) : Prop :=
  w.content.map Prod.snd = etag
    ∧ w' = { w with log := w.log ++ [some (w.stored tag snapshot)] }

theorem putObject_spec [DecidableEq T] (tag : S → Nat → T) (w : World S T)
    (snapshot : S) (etag : Option T) : w.putObject tag snapshot etag = w
      ∨ Landed tag w snapshot etag (w.putObject tag snapshot etag) := by
  unfold putObject
  split
  next h => exact .inr ⟨h, rfl⟩
  next => exact .inl rfl

/-- An answer: a put may land, and what is replied is what the bucket then
holds. -/
theorem answer_spec [DecidableEq T] (tag : S → Nat → T) (w : World S T)
    (i : Nat) (fate : Fate) :
    w.answer tag i fate = w ∨ ∃ c w₁ reply, w.calls[i]? = some c
      ∧ (w₁ = w ∨ ∃ snapshot etag, c.put = some (snapshot, etag)
        ∧ Landed tag w snapshot etag w₁)
      ∧ (∀ content, reply = some content → content = w₁.content)
      ∧ w.answer tag i fate = w₁.setStage i c (.answered reply) := by
  unfold answer
  split
  next g hc =>
    refine .inr ⟨_, w, _, hc, .inl rfl, ?_, rfl⟩
    intro content hr
    split at hr
    · injection hr with hr
      exact hr.symm
    · cases hr
  next g snapshot etag hc =>
    right
    split
    next => exact ⟨_, w, none, hc, .inl rfl, nofun, rfl⟩
    next =>
      unfold putObject
      by_cases hcond : w.content.map Prod.snd = etag
      · rw [if_pos hcond]
        refine ⟨_, _, _, hc, .inr ⟨snapshot, etag, rfl, hcond, rfl⟩, ?_, rfl⟩
        intro content hr
        split at hr
        · injection hr with hr
          simp [← hr, World.content]
        · cases hr
      · rw [if_neg hcond, if_neg (fun h => hcond h.2)]
        exact ⟨_, w, none, hc, .inl rfl, nofun, rfl⟩
  next => exact .inl rfl

-- ===== freshness

/-- The bucket held it, not before the `n`-th content. -/
def Held (n : Nat) (log : List (Content S T)) (content : Content S T) : Prop :=
  ∃ j, n ≤ j ∧ log[j]? = some content

theorem Held.snoc {log : List (Content S T)} {content : Content S T}
    (h : Held n log content) (new : Content S T) :
    Held n (log ++ [new]) content := by
  obtain ⟨j, hj, hat⟩ := h
  refine ⟨j, hj, ?_⟩
  rw [getElem?_append_left (List.getElem?_eq_some_iff.1 hat).1]
  exact hat

theorem held_content (h : n < w.log.length) : Held n w.log w.content := by
  refine ⟨w.log.length - 1, by omega, ?_⟩
  rw [content, getLastD_eq_getLast?, getLast?_eq_getElem?,
    getElem?_eq_getElem (by omega)]
  rfl

/-- Nothing older than the `n`-th content can be remembered, or be returned
by a call after the `m`-th. -/
structure Fresh (n m : Nat) (w : World S T) : Prop where
  shown : n < w.log.length
  gens : ∀ c ∈ w.calls, c.generation ≤ w.generation
  memory : ∀ pair, w.memory = some pair → Held n w.log (some pair)
  current : ∀ c ∈ w.calls, c.generation = w.generation →
    ∀ content, c.stage = .answered (some content) → Held n w.log content
  late : ∀ k c, m ≤ k → w.calls[k]? = some c →
    ∀ content, c.stage.reply = some content → Held n w.log content
  /-- What is remembered, a call of this generation brought. -/
  filled : w.memory ≠ none →
    ∃ c ∈ w.calls, c.generation = w.generation ∧ c.stage ≠ .waiting

theorem Fresh.landed (h : Fresh n m w) {snapshot : S} {etag : Option T}
    (hl : Landed tag w snapshot etag w') : Fresh n m w' := by
  rw [hl.2]
  have hlt := h.shown
  exact {
    shown := by simp only [length_append]; omega
    gens := h.gens
    memory := fun pair hp => (h.memory pair hp).snoc _
    current := fun c hc hg content hst => (h.current c hc hg content hst).snoc _
    late := fun k c hk hc content hst => (h.late k c hk hc content hst).snoc _
    filled := h.filled }

theorem Fresh.setStage (h : Fresh n m w) {c : Call S T}
    (hi : w.calls[i]? = some c) {stage : Stage S T} (hst : stage ≠ .waiting)
    (hcurrent : ∀ content, stage = .answered (some content) →
      Held n w.log content)
    (hlate : m ≤ i → ∀ content, stage.reply = some content →
      Held n w.log content) : Fresh n m (w.setStage i c stage) where
  shown := h.shown
  gens := by
    intro c' hc'
    rcases mem_or_eq_of_mem_set hc' with hc' | rfl
    · exact h.gens c' hc'
    · exact h.gens c (mem_of_getElem? hi)
  memory := h.memory
  current := by
    intro c' hc' hgen content hst
    rcases mem_or_eq_of_mem_set hc' with hc' | rfl
    · exact h.current c' hc' hgen content hst
    · exact hcurrent content hst
  late := by
    intro k c' hk hc' content hst
    rw [calls_setStage hi] at hc'
    split at hc'
    next hik =>
      cases hc'
      exact hlate (hik ▸ hk) content hst
    next => exact h.late k c' hk hc' content hst
  filled := by
    intro hm
    obtain ⟨c', hc', hg, hw⟩ := h.filled hm
    obtain ⟨k, hk⟩ := mem_iff_getElem?.1 hc'
    have hset := calls_setStage hi stage k
    split at hset
    next hik =>
      subst hik
      rw [hi] at hk
      cases hk
      exact ⟨_, mem_of_getElem? hset, hg, hst⟩
    next => exact ⟨c', mem_of_getElem? (hset.trans hk), hg, hw⟩

/-- A call begins, and may have its reply at once. -/
theorem Fresh.enter (h : Fresh n m w) {c : Call S T}
    (hgen : c.generation ≤ w.generation)
    (hst : ∀ reply, c.stage ≠ .answered reply)
    (hreply : ∀ content, c.stage.reply = some content → Held n w.log content) :
    Fresh n m (w.enter c) where
  shown := h.shown
  gens := Store.forall_snoc h.gens hgen
  memory := h.memory
  current := Store.forall_snoc h.current fun _ _ hst' => absurd hst' (hst _)
  late := by
    intro k c' hk hc' content hr
    rw [World.enter, getElem?_append] at hc'
    split at hc'
    · exact h.late k c' hk hc' content hr
    · rw [mem_singleton.1 (mem_of_getElem? hc')] at hr
      exact hreply content hr
  filled := by
    intro hm
    obtain ⟨c', hc', hg, hw⟩ := h.filled hm
    exact ⟨c', mem_append_left _ hc', hg, hw⟩

/-- **Every step keeps what is fresh.** -/
theorem Fresh.step [DecidableEq T] (h : Fresh n m w) (op : Op S T) :
    Fresh n m (w.step tag op) := by
  cases op with
  | read =>
    show Fresh n m w.readLedgers
    unfold readLedgers
    split
    next pair hm =>
      refine h.enter le_rfl nofun ?_
      rintro content ⟨⟩
      exact h.memory pair hm
    next => exact h.enter le_rfl nofun nofun
  | write snapshot etag =>
    -- nothing is of the new generation yet
    have hbump : Fresh n m { w with
        memory := none, generation := w.generation + 1 } := {
      shown := h.shown
      gens := fun c hc => Nat.le_succ_of_le (h.gens c hc)
      memory := nofun
      current := by
        intro c hc hg
        have hle := h.gens c hc
        simp only at hg
        omega
      late := h.late
      filled := nofun }
    exact hbump.enter le_rfl nofun nofun
  | answer i fate =>
    show Fresh n m (w.answer tag i fate)
    rcases answer_spec tag w i fate with
      heq | ⟨c, w₁, reply, hc, hw₁, hreply, heq⟩
    · rw [heq]
      exact h
    · have hcalls : w₁.calls = w.calls ∧ Fresh n m w₁ := by
        rcases hw₁ with rfl | ⟨snapshot, etag, -, hl⟩
        · exact ⟨rfl, h⟩
        · exact ⟨by rw [hl.2], h.landed hl⟩
      rw [heq]
      refine hcalls.2.setStage (hcalls.1 ▸ hc) nofun ?_ fun _ => ?_
      · rintro content ⟨⟩
        rw [hreply content rfl]
        exact held_content hcalls.2.shown
      · intro content hr
        rw [hreply content hr]
        exact held_content hcalls.2.shown
  | finish i =>
    show Fresh n m (w.finish i)
    unfold finish
    split
    next g put reply hc =>
      have hset : Fresh n m (w.setStage i ⟨g, put, .answered reply⟩
          (.done reply)) := h.setStage hc nofun nofun
        fun hk content hr => h.late i _ hk hc content hr
      split
      next pair =>
        split
        next hgen =>
          refine { hset with memory := ?_, filled := fun _ => ?_ }
          · rintro pair' ⟨⟩
            exact h.current _ (mem_of_getElem? hc) hgen.1.symm _ rfl
          · have hat := calls_setStage hc (.done (some (some pair))) i
            rw [if_pos rfl] at hat
            exact ⟨_, mem_of_getElem? hat, hgen.1.symm, nofun⟩
        next => exact hset
      next => exact hset
    next => exact h
  | otherPut snapshot etag =>
    show Fresh n m (w.putObject tag snapshot etag)
    rcases putObject_spec tag w snapshot etag with heq | hl
    · rw [heq]
      exact h
    · exact h.landed hl

theorem Fresh.run [DecidableEq T] (h : Fresh n m w) (ops : List (Op S T)) :
    Fresh n m (w.run tag ops) :=
  foldlRecOn ops _ h fun _ hw op _ => hw.step op

theorem fresh_start (first : Option S) : Fresh 0 0 (start tag first) where
  shown := Nat.one_pos
  gens := nofun
  memory := nofun
  current := nofun
  late := nofun
  filled := fun hm => absurd rfl hm

/-- A write of which nothing is known yet begins anew: once its put is
judged, what comes is not older. -/
theorem Fresh.judged [DecidableEq T] (h : Fresh n m w)
    (hquiet : ∀ c ∈ w.calls, c.generation = w.generation → c.stage = .waiting)
    (i : Nat) (fate : Fate) : Fresh ((w.answer tag i fate).log.length - 1)
      (w.answer tag i fate).calls.length (w.answer tag i fate) := by
  have hnone : w.memory = none := by
    by_contra hm
    obtain ⟨c, hc, hg, hst⟩ := h.filled hm
    exact hst (hquiet c hc hg)
  have hnew : ∀ w₁ : World S T, w.log.length ≤ w₁.log.length →
      w₁ = { w with log := w₁.log } →
      Fresh (w₁.log.length - 1) w.calls.length w₁ := by
    intro w₁ hlog heq
    have hlt := h.shown
    rw [heq]
    exact {
      shown := by dsimp only; omega
      gens := h.gens
      memory := by simp [hnone]
      current := by
        intro c hc hg content hst
        rw [hquiet c hc hg] at hst
        cases hst
      late := by
        intro k c hk hc
        rw [getElem?_eq_none hk] at hc
        cases hc
      filled := fun hm => absurd hnone hm }
  rcases answer_spec tag w i fate with
    heq | ⟨c, w₁, reply, hc, hw₁, hreply, heq⟩
  · rw [heq]
    exact hnew w le_rfl rfl
  · have hw : Fresh (w₁.log.length - 1) w.calls.length w₁
        ∧ w₁.calls = w.calls := by
      rcases hw₁ with rfl | ⟨snapshot, etag, -, hl⟩
      · exact ⟨hnew _ le_rfl rfl, rfl⟩
      · rw [hl.2]
        exact ⟨hnew _ (by simp) rfl, rfl⟩
    rw [heq]
    have hlen : (w₁.setStage i c (.answered reply)).calls.length
        = w.calls.length := by
      rw [World.setStage, length_set, hw.2]
    rw [hlen]
    refine hw.1.setStage (hw.2 ▸ hc) nofun ?_ ?_
    · rintro content ⟨⟩
      rw [hreply content rfl]
      exact held_content hw.1.shown
    · intro hi
      have hlt := (List.getElem?_eq_some_iff.1 hc).1
      omega

-- ===== the tags

/-- Every ETag is the bucket's for its snapshot. -/
def Tagged (tag : S → Nat → T) (w : World S T) : Prop :=
  ∀ x t, some (x, t) ∈ w.log → ∃ k, t = tag x k

/-- A step changes the bucket by a put on what it was conditioned on. -/
theorem log_step [DecidableEq T] (tag : S → Nat → T) (w : World S T)
    (op : Op S T) :
    (w.step tag op).log = w.log ∨ ∃ snapshot etag, Puts w op snapshot etag
      ∧ w.content.map Prod.snd = etag
      ∧ (w.step tag op).log = w.log ++ [some (w.stored tag snapshot)] := by
  cases op with
  | read =>
    left
    show w.readLedgers.log = w.log
    unfold readLedgers
    split
    · rfl
    · rfl
  | write => exact .inl rfl
  | answer i fate =>
    show (w.answer tag i fate).log = _ ∨ _
    rcases answer_spec tag w i fate with
      heq | ⟨c, w₁, reply, hc, rfl | ⟨snapshot, etag, hput, hl⟩, -, heq⟩
    · exact .inl (by rw [heq])
    · exact .inl (by rw [heq]; rfl)
    · refine .inr ⟨snapshot, etag, .inr ⟨i, fate, c, rfl, hc, hput⟩, hl.1, ?_⟩
      show (w.answer tag i fate).log = _
      rw [heq, World.setStage, hl.2]
  | finish i =>
    left
    show (w.finish i).log = w.log
    unfold finish
    split
    · rfl
    · rfl
  | otherPut snapshot etag =>
    rcases putObject_spec tag w snapshot etag with heq | hl
    · exact .inl (congrArg World.log heq)
    · exact .inr ⟨snapshot, etag, .inl rfl, hl.1, congrArg World.log hl.2⟩

theorem Tagged.step [DecidableEq T] (h : Tagged tag w) (op : Op S T) :
    Tagged tag (w.step tag op) := by
  intro x t hx
  rcases log_step tag w op with heq | ⟨snapshot, etag, -, -, heq⟩
  · rw [heq] at hx
    exact h x t hx
  · rw [heq, mem_append, mem_singleton] at hx
    rcases hx with hx | hx
    · exact h x t hx
    · cases hx
      exact ⟨w.log.length, rfl⟩

theorem tagged_run [DecidableEq T] (first : Option S) (ops : List (Op S T)) :
    Tagged tag ((start tag first).run tag ops) := by
  refine foldlRecOn ops _ ?_ fun _ hw op _ => hw.step op
  intro x t hx
  cases first with
  | none => simp [start] at hx
  | some s =>
    simp only [start, map_some, mem_singleton, some.injEq, Prod.mk.injEq] at hx
    exact ⟨0, by rw [hx.2, hx.1]⟩

/-- An ETag is of one content. -/
theorem Tagged.eq_content (h : Tagged tag w)
    (htag : ∀ x k y l, tag x k = tag y l → x = y) (hlog : 0 < w.log.length)
    {content : Content S T} (hmem : content ∈ w.log)
    (heq : content.map Prod.snd = w.content.map Prod.snd) :
    content = w.content := by
  obtain ⟨j, -, hlast⟩ := held_content hlog
  have hin := mem_of_getElem? hlast
  cases hw : w.content with
  | none => simpa [hw] using heq
  | some q =>
    cases content with
    | none => simp [hw] at heq
    | some p =>
      rw [hw] at heq hin
      obtain ⟨k, hk⟩ := h p.1 p.2 hmem
      obtain ⟨l, hl⟩ := h q.1 q.2 hin
      injection heq with hsnd
      rw [Prod.ext (htag p.1 k q.1 l (by rw [← hk, ← hl]; exact hsnd)) hsnd]

-- ===== the result

/-- **The memory causes no lost update, and a conflict ends.** What a read
returns, the bucket held. A put that lands replaces what its ETag came
with. And a read that begins after a put was judged returns nothing older
than the bucket then held, if by then the bucket has answered no call that
began since the last write. -/
theorem ledger_cache_safe [DecidableEq T]
    (htag : ∀ x k y l, tag x k = tag y l → x = y) (first : Option S)
    (ops : List (Op S T)) (hw : w = (start tag first).run tag ops) :
    (∀ c ∈ w.calls, ∀ content, c.stage = .done (some content) →
      content ∈ w.log)
    ∧ (∀ op, (w.step tag op).log = w.log ∨ ∃ snapshot etag new,
      Puts w op snapshot etag
      ∧ (w.step tag op).log = w.log ++ [some (snapshot, new)]
      ∧ w.content.map Prod.snd = etag
      ∧ ∀ content ∈ w.log, content.map Prod.snd = etag → content = w.content)
    ∧ ∀ i fate later,
      (∀ c ∈ w.calls, c.generation = w.generation → c.stage = .waiting) →
      ∀ k c content, (w.answer tag i fate).calls.length ≤ k →
        ((w.answer tag i fate).run tag later).calls[k]? = some c →
        c.stage = .done (some content) →
        ∃ j, (w.answer tag i fate).log.length ≤ j + 1
          ∧ ((w.answer tag i fate).run tag later).log[j]? = some content := by
  have hfresh : Fresh 0 0 w := hw ▸ (fresh_start first).run ops
  have htagged : Tagged tag w := hw ▸ tagged_run first ops
  refine ⟨?_, ?_, ?_⟩
  · intro c hc content hst
    obtain ⟨k, hk⟩ := mem_iff_getElem?.1 hc
    obtain ⟨j, -, hj⟩ := hfresh.late k c (Nat.zero_le _) hk content
      (by rw [hst]; rfl)
    exact mem_of_getElem? hj
  · intro op
    rcases log_step tag w op with
      heq | ⟨snapshot, etag, hputs, hcond, heq⟩
    · exact .inl heq
    · exact .inr ⟨snapshot, etag, _, hputs, heq, hcond, fun content hmem hc =>
        htagged.eq_content htag hfresh.shown hmem (hc.trans hcond.symm)⟩
  · intro i fate later hquiet k c content hk hc hst
    obtain ⟨j, hj, hat⟩ := ((hfresh.judged hquiet i fate).run later).late k c hk
      hc content (by rw [hst]; rfl)
    exact ⟨j, by omega, hat⟩

/-- A write answered before anything else is: the read after it returns
what it put, though its answer was lost. -/
theorem ledger_cache_safe_alone :
    let w := (start (fun x _ => x) (some 0)).run (fun x _ => x)
      [.write 1 (some 0)]
    ∀ content,
      ((w.answer (fun x _ => x) 0 .unheard).run (fun x _ => x)
        [.finish 0, .read, .answer 1 .heard, .finish 1]).calls[1]?
        = some ⟨1, none, .done (some content)⟩ →
      ∃ j, 2 ≤ j + 1 ∧ [some (0, 0), some (1, 1)][j]? = some content := by
  intro w content hc
  exact (ledger_cache_safe (fun x _ y _ h => h) (some 0) _ rfl).2.2 0 .unheard
    _ (by decide) 1 _ content (by decide) hc rfl

/-- A read begins and is answered after a write has begun, another writer's
put lands, the write conflicts, and the read fills the memory. -/
def overtaken : List (Op Nat Nat) :=
  [.write 1 (some 0), .read, .answer 1 .heard, .otherPut 2 (some 0),
    .answer 0 .heard, .finish 0, .finish 1]

/-- A read after the conflict returns what the other writer replaced. -/
theorem stale_after_failure :
    let w := (start (fun x _ => x) (some 0)).run (fun x _ => x) overtaken
    w.log = [some (0, 0), some (2, 2)]
      ∧ w.calls[0]? = some ⟨1, some (1, some 0), .done none⟩
      ∧ (w.run (fun x _ => x) [.read]).calls[2]?
        = some ⟨1, none, .done (some (some (0, 0)))⟩ := by
  decide

end Reliquary.Corpus.Cache
