/-
A forced-draw job's slots over whole runs.

# Two views of one state

Capacity is counted per prompt: `remaining` is V, plus the failures that
reopened a slot, less what was consumed. Acceptance is decided per draw
slot and attempt, through the keys in the seen set. They agree because,
of every slot, the acceptances run at most one ahead of the failures
(`DrawInv.ahead`): an acceptance needs the key of the current attempt to
be free, and a failure belongs to an accepted submission, whose id
counts once.

# The run

`DrawState` holds the ledgers, the seen digests and the history of
acceptances. A step is an `admit` call (an acceptance adds the slot's key
and whatever other digests the submission brings), a recorded failure or
a restart from the snapshot. `DrawOk` says what a step may be: another
digest is no slot key, and a failure names an accepted submission with
its own prompt and slot. Both hold of what the service does
(`drawSeenKeys_other`).

`draw_slots_exact` is the result. No distinctness of the ids' first 12
characters is used: a failure whose key is recorded already is no
failure for either view.
-/
import Reliquary.Corpus.Admission
import Reliquary.Store.Run

namespace Reliquary.Corpus

open Store Finset List SlotLedger

-- ===== slot arithmetic

section Arithmetic

variable {V : Nat} {a f : Nat → Nat}

/-- Slots accepted as often as they failed, with attempts left. -/
def freeSlots (V : Nat) (a f : Nat → Nat) : Finset Nat :=
  (Finset.range V).filter fun s => f s < attemptsPerSlot ∧ a s = f s

/-- Slots out of attempts. -/
def spentSlots (V : Nat) (f : Nat → Nat) : Finset Nat :=
  (Finset.range V).filter fun s => attemptsPerSlot ≤ f s

/-- Every slot: failures are of acceptances, at most one of which is
still standing, and no more than the attempts are accepted. -/
def Ahead (V : Nat) (a f : Nat → Nat) : Prop :=
  ∀ s < V, f s ≤ a s ∧ a s ≤ f s + 1 ∧ a s ≤ attemptsPerSlot

/-- What was accepted and what is free is the capacity. -/
theorem Ahead.capacity (h : Ahead V a f) :
    ∑ s ∈ Finset.range V, a s + (freeSlots V a f).card
      = V + ∑ s ∈ Finset.range V, min (f s) (attemptsPerSlot - 1) := by
  have hpoint : ∀ s ∈ Finset.range V,
      a s + (if f s < attemptsPerSlot ∧ a s = f s then 1 else 0)
        = 1 + min (f s) (attemptsPerSlot - 1) := by
    intro s hs
    obtain ⟨hfa, haf, hmax⟩ := h s (Finset.mem_range.1 hs)
    unfold attemptsPerSlot at *
    by_cases hc : f s < 3 ∧ a s = f s
    · rw [if_pos hc]
      omega
    · rw [if_neg hc]
      omega
  calc ∑ s ∈ Finset.range V, a s + (freeSlots V a f).card
      = ∑ s ∈ Finset.range V,
          (a s + if f s < attemptsPerSlot ∧ a s = f s then 1 else 0) := by
        rw [sum_add_distrib, freeSlots, card_filter]
    _ = ∑ s ∈ Finset.range V, (1 + min (f s) (attemptsPerSlot - 1)) :=
        sum_congr rfl hpoint
    _ = V + ∑ s ∈ Finset.range V, min (f s) (attemptsPerSlot - 1) := by
        rw [sum_add_distrib]
        simp

/-- Every slot stands, is spent or is free. -/
theorem Ahead.partition (h : Ahead V a f) :
    ∑ s ∈ Finset.range V, a s + (spentSlots V f).card + (freeSlots V a f).card
      = V + ∑ s ∈ Finset.range V, f s := by
  -- a slot's failures are capped one below the limit unless it is spent
  have hsplit : ∑ s ∈ Finset.range V, f s
      = ∑ s ∈ Finset.range V, min (f s) (attemptsPerSlot - 1)
        + (spentSlots V f).card := by
    rw [spentSlots, card_filter, ← sum_add_distrib]
    refine sum_congr rfl fun s hs => ?_
    obtain ⟨hfa, haf, hmax⟩ := h s (Finset.mem_range.1 hs)
    unfold attemptsPerSlot at *
    split
    · omega
    · omega
  have hcap := h.capacity
  omega

/-- A free slot keeps the acceptances under the limit. -/
theorem Ahead.sum_lt (h : Ahead V a f) (hfree : 0 < (freeSlots V a f).card) :
    ∑ s ∈ Finset.range V, a s < attemptsPerSlot * V := by
  obtain ⟨s, hs⟩ := card_pos.1 hfree
  obtain ⟨hrange, hlt, heq⟩ := Finset.mem_filter.1 hs
  calc ∑ s ∈ Finset.range V, a s
      < ∑ _s ∈ Finset.range V, attemptsPerSlot := by
        refine Finset.sum_lt_sum ?_ ⟨s, hrange, by omega⟩
        exact fun s hs => (h s (Finset.mem_range.1 hs)).2.2
    _ = attemptsPerSlot * V := by
        simp [mul_comm]

/-- A list by the value of a bounded key. -/
theorem sum_countP_range {α : Type} (key : α → Nat) (xs : List α)
    (h : ∀ x ∈ xs, key x < V) :
    ∑ s ∈ Finset.range V, xs.countP (fun x => decide (key x = s))
      = xs.length := by
  induction xs with
  | nil => simp
  | cons x xs ih =>
    rw [List.forall_mem_cons] at h
    simp only [countP_cons, sum_add_distrib, ih h.2,
      decide_eq_true_eq, length_cons]
    rw [sum_ite_eq, if_pos (Finset.mem_range.2 h.1)]

end Arithmetic

-- ===== the run

/-- A submission id: the hex digest of the signed request. -/
structure SubmissionId where
  text : String
  hex : ∀ c ∈ text.toList, c ∈ "0123456789abcdef".toList
deriving DecidableEq

theorem SubmissionId.no_separator (id : SubmissionId) :
    '@' ∉ (idKey id.text).toList := by
  intro hmem
  rw [idKey, String.toList_ofList] at hmem
  exact absurd (id.hex _ (mem_of_mem_take hmem)) (by decide)

/-- One acceptance, as history. -/
structure Accepted where
  id : SubmissionId
  promptIndex : Nat
  slot : Nat
  attempt : Nat
deriving DecidableEq

structure DrawState where
  ledgers : Ledgers
  seen : List String
  accepted : List Accepted
deriving DecidableEq

def DrawState.slots (st : DrawState) : SlotLedger := st.ledgers.slots

def DrawState.has (st : DrawState) (digest : String) : Bool :=
  decide (digest ∈ st.seen)

def DrawState.empty (job : JobSpec) : DrawState :=
  ⟨⟨emptySlots job, []⟩, [], []⟩

inductive DrawOp
  | submit (id : SubmissionId) (sub : Submission) (others : List String)
  | fail (promptIndex : Nat) (id : SubmissionId) (slot : Nat)
      (hotkey : Option String)
  | restart

/-- What a forced-draw submission's accept adds to the seen set. -/
def drawSeenKeys (H : Hashes) (promptIndex cursor : Nat)
    (digests extra : List String) (slots : SlotLedger) :
    Except SlotError (List String) := do
  let attempt ← slots.slotAttempt promptIndex cursor
  pure (attemptDigests H promptIndex cursor attempt digests ++ extra
    ++ [slotKey H promptIndex cursor attempt])

def submitStep (H : Hashes) (job : JobSpec) (st : DrawState)
    (id : SubmissionId) (sub : Submission) (others : List String) :
    Except SlotError DrawState :=
  match admitSubmission H job sub st.has st.ledgers with
  | (.error _, ledgers) => .ok { st with ledgers }
  | (.ok verdict, ledgers) =>
    if verdict.accepted then do
      let attempt ← ledgers.slots.slotAttempt sub.promptIndex sub.cursor
      pure {
        ledgers
        seen := slotKey H sub.promptIndex sub.cursor attempt :: others
          ++ st.seen
        accepted := ⟨id, sub.promptIndex, sub.cursor, attempt⟩ :: st.accepted }
    else .ok { st with ledgers }

def drawStep (H : Hashes) (job : JobSpec) (st : DrawState) :
    DrawOp → Except SlotError DrawState
  | .submit id sub others => submitStep H job st id sub others
  | .fail promptIndex id slot hotkey => do
      let (slots, _) ← st.slots.recordFailure promptIndex id.text (some slot)
        hotkey
      pure { st with ledgers := { st.ledgers with slots } }
  | .restart => do
      let slots ← fromSnapshot job.promptCount job.slotsPerPrompt
        st.slots.snapshot job.promptStart st.slots.failedSnapshot
      pure { st with ledgers := { st.ledgers with slots } }

/-- The other digests are no slot keys, and a failure is of an accepted
submission. -/
def DrawOk (H : Hashes) (st : DrawState) : DrawOp → Prop
  | .submit _ _ others =>
    ∀ k ∈ others, ∀ p s n, k ≠ slotKey H p s n
  | .fail promptIndex id slot _ =>
    ∃ a ∈ st.accepted, a.id = id ∧ a.promptIndex = promptIndex ∧ a.slot = slot
  | .restart => True

/-- How often a draw slot was accepted. -/
def DrawState.times (st : DrawState) (p s : Nat) : Nat :=
  st.accepted.countP fun a => decide (a.promptIndex = p ∧ a.slot = s)

/-- How often it failed. -/
def SlotLedger.attemptAt (l : SlotLedger) (p s : Nat) : Nat :=
  (failuresOf (l.failedAt p) s).length

/-- A draw slot is open: not exhausted and not taken at its current
attempt. -/
def slotOpen (H : Hashes) (st : DrawState) (p s : Nat) : Bool :=
  match st.slots.slotExhausted p s, st.slots.slotAttempt p s with
  | .ok exhausted, .ok attempt =>
    !exhausted && !st.has (slotKey H p s attempt)
  | _, _ => false

/-- How many of a prompt's draw slots are. -/
def openCount (H : Hashes) (job : JobSpec) (st : DrawState) (p : Nat) : Nat :=
  ((List.range (slotCount job)).filter fun s => slotOpen H st p s).length

/-- Everything `admit` asks of a submission but a free slot. -/
structure Sound (job : JobSpec) (sub : Submission) (seen : String → Bool) :
    Prop where
  shape : shapeGate sub = pass
  checkpoint : checkpointGate job sub = pass
  owned : job.owns sub.promptIndex = true
  content : contentGate job sub seen = pass

-- ===== the invariant

structure DrawInv (H : Hashes) (job : JobSpec) (st : DrawState) : Prop where
  shape : st.slots.Shape
  start : st.slots.promptStart = job.promptStart
  count : st.slots.promptCount = job.promptCount
  slots : st.slots.slotsPerPrompt = job.slotsPerPrompt
  taken : ∀ p, st.slots.takenAt p
    = st.accepted.countP fun a => decide (a.promptIndex = p)
  owned : ∀ a ∈ st.accepted,
    job.owns a.promptIndex = true ∧ a.slot < job.slotsPerPrompt
  named : ∀ p, ∀ e ∈ st.slots.failedAt p, ∃ a ∈ st.accepted, a.promptIndex = p
      ∧ ∃ hotkey, e = failureText (idKey a.id.text) (some a.slot) hotkey
  distinct : ∀ p, ((st.slots.failedAt p).map failureId).Nodup
  keys : ∀ p s n, slotKey H p s n ∈ st.seen ↔ n < st.times p s
  ahead : ∀ p s, st.times p s ≤ st.slots.attemptAt p s + 1
    ∧ st.times p s ≤ attemptsPerSlot
  attempts : ∀ a ∈ st.accepted, a.attempt < st.times a.promptIndex a.slot
  once : (st.accepted.map fun a => (a.promptIndex, a.slot, a.attempt)).Nodup

theorem DrawInv.init (H : Hashes) (job : JobSpec) :
    DrawInv H job (DrawState.empty job) where
  shape := (wf_of_empty rfl rfl rfl).toShape
  start := rfl
  count := rfl
  slots := rfl
  taken := fun p => rfl
  owned := by rintro a ⟨⟩
  named := by rintro p e ⟨⟩
  distinct := fun p => nodup_nil
  keys := by
    intro p s n
    simp [DrawState.empty, DrawState.times]
  ahead := fun p s => ⟨Nat.zero_le _, Nat.zero_le _⟩
  attempts := by rintro a ⟨⟩
  once := nodup_nil

-- ===== what the invariant says

/-- Failures of numbered draw slots, read back. -/
theorem slots_of_failures {es : List String} {V : Nat}
    (h : ∀ e ∈ es, ∃ key : String, '@' ∉ key.toList
      ∧ ∃ s : Nat, s < V ∧ ∃ hotkey, e = failureText key (some s) hotkey) :
    ∃ nums : List Nat, slotsOf es = nums.map Nat.repr
      ∧ nums.length = es.length ∧ (∀ n ∈ nums, n < V)
      ∧ (es.countP fun e => (drawPart e).isNone) = 0
      ∧ ∀ e ∈ es, '@' ∈ e.toList := by
  induction es with
  | nil => exact ⟨[], rfl, rfl, by rintro n ⟨⟩, rfl, by rintro e ⟨⟩⟩
  | cons e es ih =>
    rw [List.forall_mem_cons] at h
    obtain ⟨⟨key, hkey, s, hs, hotkey, rfl⟩, hrest⟩ := h
    obtain ⟨nums, hslots, hlen, hlt, hnone, hat⟩ := ih hrest
    have hpart := drawPart_failureText hkey s hotkey
    refine ⟨s :: nums, ?_, ?_, ?_, ?_, ?_⟩
    · rw [slotsOf_cons_some hpart, hslots, List.map_cons]
      rfl
    · rw [length_cons, length_cons, hlen]
    · rw [List.forall_mem_cons]
      exact ⟨hs, hlt⟩
    · rw [countP_cons_of_neg (by simp [hpart]), hnone]
    · rw [List.forall_mem_cons]
      refine ⟨?_, hat⟩
      rw [failureText_toList]
      simp

variable {H : Hashes} {job : JobSpec} {st : DrawState} {p : Nat}

variable {l : SlotLedger}

/-- A slot's failures, counted among the numbers. -/
theorem attemptAt_eq {p : Nat} {nums : List Nat}
    (hnums : slotsOf (l.failedAt p) = nums.map Nat.repr) (s : Nat) :
    l.attemptAt p s = nums.count s := by
  unfold attemptAt
  rw [length_failuresOf, hnums]
  exact count_map_of_injective nums Nat.repr (fun _ _ => Nat.repr_injective) s

/-- The texts of the numbered slots, summed over the slots. -/
theorem sum_named (nums : List Nat) {V : Nat} (hlt : ∀ n ∈ nums, n < V)
    {g : Nat → Nat} (hg : g 0 = 0) :
    ∑ k ∈ (nums.map Nat.repr).toFinset, g ((nums.map Nat.repr).count k)
      = ∑ s ∈ Finset.range V, g (nums.count s) := by
  have hinj : Function.Injective Nat.repr := fun _ _ => Nat.repr_injective
  have himage : (nums.map Nat.repr).toFinset = nums.toFinset.image Nat.repr := by
    ext k
    simp
  rw [himage, sum_image fun _ _ _ _ hk => hinj hk]
  have hsub : nums.toFinset ⊆ Finset.range V := by
    intro n hn
    exact Finset.mem_range.2 (hlt n (mem_toFinset.1 hn))
  rw [← sum_subset hsub]
  · refine sum_congr rfl fun n _ => ?_
    rw [count_map_of_injective nums Nat.repr hinj]
  · intro n _ hn
    rw [count_eq_zero.2 fun hmem => hn (mem_toFinset.2 hmem), hg]

theorem slotAttempt_eq (hown : l.owns p = true) (s : Nat) :
    l.slotAttempt p s = .ok (l.attemptAt p s) := by
  unfold slotAttempt slotFailures
  rw [check_of_owns hown]
  rfl

theorem slotExhausted_eq (hown : l.owns p = true) (s : Nat) : l.slotExhausted p s
      = .ok (decide (attemptsPerSlot ≤ l.attemptAt p s)) := by
  unfold slotExhausted
  rw [slotAttempt_eq hown]
  rfl

/-- The history with one more acceptance. -/
theorem times_cons (st : DrawState) (a : Accepted) (p s : Nat) (L : Ledgers)
    (seen : List String) : DrawState.times ⟨L, seen, a :: st.accepted⟩ p s
      = st.times p s + if a.promptIndex = p ∧ a.slot = s then 1 else 0 := by
  unfold DrawState.times
  rw [countP_cons]
  by_cases ha : a.promptIndex = p ∧ a.slot = s
  · rw [if_pos ha, if_pos (decide_eq_true ha)]
  · rw [if_neg ha, if_neg (by simpa using ha)]

theorem attemptAt_failAt (l : SlotLedger) (p : Nat) (e : String)
    (q t : Nat) : l.attemptAt q t ≤ (l.failAt p e).attemptAt q t := by
  unfold attemptAt
  rw [failedAt_failAt]
  by_cases hq : q = p
  · rw [if_pos hq, hq, failuresOf, failuresOf, filterMap_append, length_append]
    omega
  · rw [if_neg hq]

section Facts

variable (h : DrawInv H job st)
include h

theorem DrawInv.owns_iff (p : Nat) : st.slots.owns p = job.owns p := by
  unfold owns JobSpec.owns JobSpec.promptEnd
  rw [h.start, h.count]

theorem DrawInv.owns (hown : job.owns p = true) : st.slots.owns p = true := by
  rw [h.owns_iff, hown]

theorem DrawInv.numbered (p : Nat) :
    ∃ nums : List Nat, slotsOf (st.slots.failedAt p) = nums.map Nat.repr
      ∧ nums.length = (st.slots.failedAt p).length
      ∧ (∀ n ∈ nums, n < job.slotsPerPrompt)
      ∧ ((st.slots.failedAt p).countP fun e => (drawPart e).isNone) = 0
      ∧ ∀ e ∈ st.slots.failedAt p, '@' ∈ e.toList := by
  refine slots_of_failures fun e he => ?_
  obtain ⟨a, ha, -, hotkey, rfl⟩ := h.named p e he
  exact ⟨_, a.id.no_separator, a.slot, (h.owned a ha).2, hotkey, rfl⟩

/-- A failure is of an acceptance of its slot, and each counts once. -/
theorem DrawInv.attemptAt_le (p s : Nat) :
    st.slots.attemptAt p s ≤ st.times p s := by
  have hfilter : st.slots.attemptAt p s = ((st.slots.failedAt p).filter fun e =>
          (failedBy s e).isSome).length := by
    unfold attemptAt failuresOf
    rw [length_filterMap_eq_countP, countP_eq_length_filter]
  have hnd : (((st.slots.failedAt p).filter fun e =>
      (failedBy s e).isSome).map failureId).Nodup :=
    (h.distinct p).sublist (filter_sublist.map _)
  have hsub : ∀ k ∈ ((st.slots.failedAt p).filter fun e =>
      (failedBy s e).isSome).map failureId,
      k ∈ (st.accepted.filter fun a =>
        decide (a.promptIndex = p ∧ a.slot = s)).map fun a =>
          idKey a.id.text := by
    intro k hk
    obtain ⟨e, he, rfl⟩ := List.mem_map.1 hk
    obtain ⟨hmem, hby⟩ := List.mem_filter.1 he
    obtain ⟨a, ha, hp, hotkey, rfl⟩ := h.named p e hmem
    have hslot : a.slot = s := by
      unfold failedBy at hby
      rw [drawPart_failureText a.id.no_separator] at hby
      dsimp only at hby
      by_cases hs : toString (a.slot : Int) = toString (s : Int)
      · exact Nat.repr_injective hs
      · rw [if_neg hs] at hby
        cases hby
    rw [failureId_failureText a.id.no_separator]
    exact List.mem_map.2 ⟨a, List.mem_filter.2 ⟨ha, by simp [hp, hslot]⟩, rfl⟩
  have hle := (hnd.subperm hsub).length_le
  rw [length_map, length_map] at hle
  rw [hfilter]
  unfold DrawState.times
  rw [countP_eq_length_filter]
  exact hle

theorem DrawInv.toAhead (p : Nat) :
    Ahead job.slotsPerPrompt (st.times p) (st.slots.attemptAt p) :=
  fun s _ => ⟨h.attemptAt_le p s, h.ahead p s⟩

theorem DrawInv.taken_eq (p : Nat) : st.slots.takenAt p
      = ∑ s ∈ Finset.range job.slotsPerPrompt, st.times p s := by
  have hsum := sum_countP_range (V := job.slotsPerPrompt) Accepted.slot
    (st.accepted.filter fun a => decide (a.promptIndex = p))
    fun a ha => (h.owned a (List.mem_of_mem_filter ha)).2
  rw [h.taken, countP_eq_length_filter, ← hsum]
  refine sum_congr rfl fun s _ => ?_
  rw [countP_filter]
  refine countP_congr fun a _ => ?_
  simp [and_comm]

theorem DrawInv.failed_eq (p : Nat) : (st.slots.failedAt p).length
      = ∑ s ∈ Finset.range job.slotsPerPrompt, st.slots.attemptAt p s := by
  obtain ⟨nums, hslots, hlen, hlt, -, -⟩ := h.numbered p
  rw [← hlen, ← sum_countP_range id nums hlt]
  refine sum_congr rfl fun s _ => ?_
  rw [attemptAt_eq hslots]
  rfl

theorem DrawInv.reopened_eq (p : Nat) :
    st.slots.reopened p = ∑ s ∈ Finset.range job.slotsPerPrompt,
          min (st.slots.attemptAt p s) (attemptsPerSlot - 1) := by
  obtain ⟨nums, hslots, -, hlt, hnone, -⟩ := h.numbered p
  unfold reopened
  rw [reopenedBy_eq, hnone, hslots, Nat.zero_add,
    sum_named nums hlt (g := fun n => min n (attemptsPerSlot - 1))
      (Nat.zero_min _)]
  refine sum_congr rfl fun s _ => ?_
  rw [attemptAt_eq hslots]

/-- **The two views agree**: what was taken and what is free is the
capacity. -/
theorem DrawInv.taken_add_free (p : Nat) :
    st.slots.takenAt p + (freeSlots job.slotsPerPrompt (st.times p)
        (st.slots.attemptAt p)).card = st.slots.capacityAt p := by
  have hcap := (h.toAhead p).capacity
  have hbound : ∑ s ∈ Finset.range job.slotsPerPrompt,
      min (st.slots.attemptAt p s) (attemptsPerSlot - 1)
      ≤ job.slotsPerPrompt * (attemptsPerSlot - 1) := by
    calc _ ≤ ∑ _s ∈ Finset.range job.slotsPerPrompt, (attemptsPerSlot - 1) :=
          Finset.sum_le_sum fun s _ => Nat.min_le_right _ _
      _ = job.slotsPerPrompt * (attemptsPerSlot - 1) := by simp
  unfold capacityAt attemptLimit
  rw [h.taken_eq, hcap, h.reopened_eq, h.slots, Nat.min_eq_left]
  unfold attemptsPerSlot at *
  omega

theorem DrawInv.wf : st.slots.Wf where
  toShape := h.shape
  within := by
    intro x hx
    have hval : st.slots.takenAt x.1 = x.2 := by
      unfold takenAt
      rw [lookup_of_mem h.shape.consumedKeys hx]
      rfl
    have hfree := h.taken_add_free x.1
    omega

-- ===== the gate

/-- A slot is open when its acceptances all failed and attempts are
left. -/
theorem DrawInv.slotOpen_iff
    (hown : job.owns p = true) (s : Nat) : slotOpen H st p s = true
      ↔ st.slots.attemptAt p s < attemptsPerSlot
        ∧ st.times p s = st.slots.attemptAt p s := by
  have hown' := h.owns hown
  have hle := h.attemptAt_le p s
  have hkey := h.keys p s (st.slots.attemptAt p s)
  unfold slotOpen DrawState.has
  rw [slotExhausted_eq hown', slotAttempt_eq hown']
  dsimp only
  rw [Bool.and_eq_true, Bool.not_eq_true', Bool.not_eq_true',
    decide_eq_false_iff_not, decide_eq_false_iff_not, hkey]
  constructor
  · rintro ⟨hout, htaken⟩
    omega
  · rintro ⟨hout, htaken⟩
    omega

theorem DrawInv.openCount_eq (hown : job.owns p = true) : openCount H job st p
      = (freeSlots job.slotsPerPrompt (st.times p)
          (st.slots.attemptAt p)).card := by
  have hnd : ((List.range (slotCount job)).filter fun s =>
      slotOpen H st p s).Nodup := nodup_range.filter _
  unfold openCount freeSlots
  rw [← toFinset_card_of_nodup hnd]
  congr 1
  ext s
  simp only [mem_toFinset, List.mem_filter, List.mem_range,
    Finset.mem_filter, Finset.mem_range, slotCount, h.slotOpen_iff hown s]

theorem DrawInv.drawCursors_eq (hown : job.owns p = true) :
    st.slots.drawCursors p (slotCount job) = .ok job.slotsPerPrompt := by
  have hown' := h.owns hown
  obtain ⟨-, -, -, -, -, hat⟩ := h.numbered p
  have hlegacy : (st.slots.failedAt p).filter
      (fun entry => decide ('@' ∉ entry.toList)) = [] := by
    rw [filter_eq_nil_iff]
    intro e he hno
    exact of_decide_eq_true hno (hat e he)
  unfold drawCursors
  rw [check_of_owns hown']
  show Except.ok (min (slotCount job + _) st.slots.attemptLimit) = _
  rw [hlegacy, attemptLimit, h.slots]
  unfold slotCount attemptsPerSlot
  congr 1
  rw [length_nil]
  omega

variable {sub : Submission}

/-- The draw gate passes exactly an open slot. -/
theorem DrawInv.drawGate_pass (hdraw : hasDraw job = true)
    (hown : job.owns sub.promptIndex = true) :
    drawGate H job sub st.slots st.has = pass ↔ sub.cursor < job.slotsPerPrompt
        ∧ slotOpen H st sub.promptIndex sub.cursor = true := by
  have hown' := h.owns hown
  unfold drawGate slotOpen
  rw [if_pos hdraw, h.drawCursors_eq hown, slotExhausted_eq hown',
    slotAttempt_eq hown']
  simp only [bind, Except.bind]
  by_cases hlt : sub.cursor < job.slotsPerPrompt
  · rw [if_neg (by omega), if_neg (by omega)]
    by_cases hout : attemptsPerSlot
        ≤ st.slots.attemptAt sub.promptIndex sub.cursor
    · simp [hout, refuse, pass]
    · by_cases hseen : st.has (slotKey H sub.promptIndex sub.cursor
          (st.slots.attemptAt sub.promptIndex sub.cursor)) = true
      · simp [hout, hseen, refuse, pass]
      · simp [hout, hseen, hlt]
  · by_cases hretired : job.slotsPerPrompt ≤ sub.cursor
        ∧ sub.cursor < attemptsPerSlot * slotCount job
    · rw [if_pos hretired]
      simp [hlt, refuse, pass]
    · rw [if_neg hretired, if_pos hlt]
      simp [hlt, refuse, pass]

-- ===== the steps

/-- Only the slots, the digests and the history are in the invariant. -/
theorem DrawInv.congr {st' : DrawState}
    (hslots : st'.slots = st.slots) (hseen : st'.seen = st.seen)
    (hacc : st'.accepted = st.accepted) : DrawInv H job st' := by
  obtain ⟨⟨slots, cursors⟩, seen, accepted⟩ := st
  obtain ⟨⟨slots', cursors'⟩, seen', accepted'⟩ := st'
  subst hslots hseen hacc
  exact { h with }

/-- **An acceptance** of an open slot keeps the invariant. -/
theorem DrawInv.accept (hsha : Function.Injective H.sha256) {p s : Nat}
    (id : SubmissionId) (hown : job.owns p = true) (hs : s < job.slotsPerPrompt)
    (hopen : slotOpen H st p s = true) {others : List String}
    (hothers : ∀ k ∈ others, ∀ p s n, k ≠ slotKey H p s n) (cursors : Cursors) :
    DrawInv H job ⟨⟨st.slots.consumeAt p, cursors⟩,
      slotKey H p s (st.slots.attemptAt p s) :: others ++ st.seen,
      ⟨id, p, s, st.slots.attemptAt p s⟩ :: st.accepted⟩ := by
  have hown' := h.owns hown
  obtain ⟨hleft, heq⟩ := (h.slotOpen_iff hown s).1 hopen
  have htimes := times_cons st ⟨id, p, s, st.slots.attemptAt p s⟩
  refine ⟨h.shape.consumeAt hown', h.start, h.count, h.slots, ?_, ?_, ?_,
    h.distinct, ?_, ?_, ?_, ?_⟩
  · intro q
    show (st.slots.consumeAt p).takenAt q = _
    rw [takenAt_consumeAt, h.taken, countP_cons]
    by_cases hq : q = p
    · rw [if_pos hq, if_pos (by simp [hq])]
    · rw [if_neg hq, if_neg (by simpa using Ne.symm hq)]
  · rw [List.forall_mem_cons]
    exact ⟨⟨hown, hs⟩, h.owned⟩
  · intro q e he
    obtain ⟨a, ha, hrest⟩ := h.named q e he
    exact ⟨a, List.mem_cons_of_mem _ ha, hrest⟩
  · intro q t n
    rw [htimes, cons_append, List.mem_cons, mem_append, h.keys]
    have hother : slotKey H q t n ∉ others :=
      fun hmem => hothers _ hmem q t n rfl
    by_cases hqt : p = q ∧ s = t
    · obtain ⟨rfl, rfl⟩ := hqt
      rw [if_pos ⟨rfl, rfl⟩]
      constructor
      · rintro (hk | hk | hk)
        · have hn := (slotText_inj (hsha hk)).2.2
          omega
        · exact absurd hk hother
        · omega
      · intro hn
        by_cases hlast : n = st.slots.attemptAt p s
        · exact .inl (by rw [hlast])
        · exact .inr (.inr (by omega))
    · rw [if_neg hqt, Nat.add_zero]
      constructor
      · rintro (hk | hk | hk)
        · obtain ⟨hq, ht, -⟩ := slotText_inj (hsha hk)
          exact absurd ⟨hq.symm, ht.symm⟩ hqt
        · exact absurd hk hother
        · exact hk
      · exact fun hn => .inr (.inr hn)
  · intro q t
    rw [htimes]
    have hold := h.ahead q t
    show _ ≤ st.slots.attemptAt q t + 1 ∧ _
    by_cases hqt : p = q ∧ s = t
    · obtain ⟨rfl, rfl⟩ := hqt
      rw [if_pos ⟨rfl, rfl⟩]
      omega
    · rw [if_neg hqt]
      exact hold
  · rw [List.forall_mem_cons]
    refine ⟨?_, ?_⟩
    · rw [htimes, if_pos ⟨rfl, rfl⟩]
      dsimp only
      omega
    · intro a ha
      rw [htimes]
      have hold := h.attempts a ha
      omega
  · rw [List.map_cons, nodup_cons]
    refine ⟨?_, h.once⟩
    intro hmem
    obtain ⟨a, ha, hkey⟩ := List.mem_map.1 hmem
    obtain ⟨hp, ht, hn⟩ : a.promptIndex = p ∧ a.slot = s
        ∧ a.attempt = st.slots.attemptAt p s := by
      simpa using hkey
    have hold := h.attempts a ha
    rw [hp, ht, hn] at hold
    omega

/-- **A new failure** of an accepted submission keeps the invariant. -/
theorem DrawInv.failed {a : Accepted} (ha : a ∈ st.accepted)
    (hotkey : Option String) (hnew : ∀ e ∈ st.slots.failedAt a.promptIndex,
      failureId e ≠ idKey a.id.text) (cursors : Cursors) :
    DrawInv H job ⟨⟨st.slots.failAt a.promptIndex
      (failureText (idKey a.id.text) (some a.slot) hotkey), cursors⟩,
      st.seen, st.accepted⟩ := by
  have hid := failureId_failureText a.id.no_separator a.slot hotkey
  have hown' := h.owns (h.owned a ha).1
  have hfresh : failureText (idKey a.id.text) (some a.slot) hotkey
      ∉ st.slots.failedAt a.promptIndex := fun hmem => hnew _ hmem hid
  refine ⟨h.shape.failAt hown' hfresh (failureText_ne _ _), h.start, h.count, h.slots,
    h.taken, h.owned, ?_, ?_, h.keys, ?_, h.attempts, h.once⟩
  · intro p e he
    rw [DrawState.slots, failedAt_failAt] at he
    by_cases hp : p = a.promptIndex
    · rw [if_pos hp] at he
      rcases mem_append.1 he with he | he
      · exact h.named p e (hp ▸ he)
      · exact ⟨a, ha, hp.symm, hotkey, List.mem_singleton.1 he⟩
    · rw [if_neg hp] at he
      exact h.named p e he
  · intro p
    rw [DrawState.slots, failedAt_failAt]
    by_cases hp : p = a.promptIndex
    · rw [if_pos hp]
      refine nodup_insert (h.distinct _) fun e he heq => ?_
      exact hnew e he (heq.trans hid)
    · rw [if_neg hp]
      exact h.distinct p
  · intro p s
    have hold := h.ahead p s
    have hmono := attemptAt_failAt st.slots a.promptIndex
      (failureText (idKey a.id.text) (some a.slot) hotkey) p s
    exact ⟨Nat.le_trans hold.1 (Nat.succ_le_succ hmono), hold.2⟩

/-- **A restart** keeps the invariant. -/
theorem DrawInv.reloaded (cursors : Cursors) :
    DrawInv H job ⟨⟨st.slots.reloaded, cursors⟩, st.seen, st.accepted⟩ := by
  have hperm := h.shape.failedAt_reloaded
  refine { h with
    shape := h.shape.reloaded, named := ?_, distinct := ?_, ahead := ?_ }
  · intro p e he
    exact h.named p e ((hperm p).mem_iff.1 he)
  · intro p
    exact ((hperm p).map failureId).nodup_iff.2 (h.distinct p)
  · intro p s
    have hsame : st.slots.reloaded.attemptAt p s = st.slots.attemptAt p s :=
      ((hperm p).filterMap _).length_eq
    show _ ≤ st.slots.reloaded.attemptAt p s + 1 ∧ _
    rw [hsame]
    exact h.ahead p s

-- ===== prompt states

theorem DrawInv.exhaustedSlots_eq
    (hown : job.owns p = true) : st.slots.exhaustedSlots p
      = .ok (spentSlots job.slotsPerPrompt (st.slots.attemptAt p)).card := by
  have hown' := h.owns hown
  obtain ⟨nums, hslots, -, hlt, -, -⟩ := h.numbered p
  -- every text is the number of its slot, so `int` reads it back
  have hflag : ∀ text ∈ (slotsOf (st.slots.failedAt p)).dedup,
      st.slots.namedExhausted p text = .ok (decide (attemptsPerSlot
            ≤ (slotsOf (st.slots.failedAt p)).count text)) := by
    intro text htext
    unfold namedExhausted
    rw [mem_dedup, hslots] at htext
    obtain ⟨n, -, rfl⟩ := List.mem_map.1 htext
    rw [String.toInt?_eq_some_of_toNat?_eq_some (Nat.toNat?_repr n)]
    dsimp only
    rw [slotExhausted_eq hown', attemptAt, length_failuresOf]
    rfl
  have hsum := sum_named nums hlt
    (g := fun n => if attemptsPerSlot ≤ n then 1 else 0) rfl
  unfold exhaustedSlots
  rw [mapM_ok _ hflag]
  show Except.ok _ = _
  congr 1
  have hdedup : (slotsOf (st.slots.failedAt p)).dedup.toFinset
      = (nums.map Nat.repr).toFinset := by
    rw [hslots]
    ext text
    simp
  rw [List.filter_map, length_map,
    ← toFinset_card_of_nodup ((nodup_dedup _).filter _),
    toFinset_filter, hdedup, card_filter, hslots]
  unfold spentSlots
  rw [card_filter]
  simp only [Function.comp_apply, id_eq, decide_eq_true_eq]
  rw [hsum]
  refine sum_congr rfl fun s _ => ?_
  rw [attemptAt_eq hslots]

/-- A prompt is open exactly while one of its draw slots is. -/
theorem DrawInv.promptState_open
    (hown : job.owns p = true) : ∃ state, st.slots.promptState p = .ok state
      ∧ (state = .open_ ↔ 0 < openCount H job st p) := by
  have hown' := h.owns hown
  have hparts := (h.toAhead p).partition
  rw [← h.taken_eq, ← h.failed_eq, ← h.openCount_eq hown] at hparts
  have hlimit : 0 < openCount H job st p →
      st.slots.takenAt p < st.slots.attemptLimit := by
    intro hpos
    rw [h.openCount_eq hown] at hpos
    unfold attemptLimit
    rw [h.taken_eq, h.slots]
    exact (h.toAhead p).sum_lt hpos
  have hpassing : st.slots.passing p
      = .ok ((st.slots.takenAt p : Int) - (st.slots.failedAt p).length) := by
    unfold passing
    rw [check_of_owns hown']
    rfl
  unfold promptState
  rw [check_of_owns hown']
  simp only [bind, Except.bind, hpassing, h.exhaustedSlots_eq hown, h.slots]
  by_cases hcomplete : (job.slotsPerPrompt : Int)
      ≤ (st.slots.takenAt p : Int) - (st.slots.failedAt p).length
  · rw [if_pos hcomplete]
    refine ⟨.complete, rfl, ?_⟩
    constructor
    · rintro ⟨⟩
    · intro hpos
      omega
  · rw [if_neg hcomplete]
    by_cases hout : st.slots.attemptLimit ≤ st.slots.takenAt p
    · rw [if_pos hout]
      refine ⟨.exhausted, rfl, ?_⟩
      constructor
      · rintro ⟨⟩
      · intro hpos
        exact absurd (hlimit hpos) (by omega)
    · rw [if_neg hout]
      by_cases hspent : (job.slotsPerPrompt : Int)
          ≤ (st.slots.takenAt p : Int) - (st.slots.failedAt p).length
            + (spentSlots job.slotsPerPrompt (st.slots.attemptAt p)).card
      · rw [if_pos hspent]
        refine ⟨.exhausted, rfl, ?_⟩
        constructor
        · rintro ⟨⟩
        · intro hpos
          omega
      · rw [if_neg hspent]
        refine ⟨.open_, rfl, ?_⟩
        constructor
        · intro _
          omega
        · exact fun _ => rfl

theorem DrawInv.remaining_eq (hown : job.owns p = true) :
    st.slots.remaining p = .ok (openCount H job st p : Int) := by
  have hown' := h.owns hown
  have hfree := h.taken_add_free p
  rw [← h.openCount_eq hown] at hfree
  unfold remaining
  rw [check_of_owns hown']
  show Except.ok _ = _
  congr 1
  omega

theorem DrawInv.isComplete_iff : st.slots.isComplete = true
      ↔ ∀ p, job.owns p = true → openCount H job st p = 0 := by
  rw [h.wf.isComplete_iff]
  refine forall_congr' fun p => ?_
  rw [h.owns_iff]
  refine imp_congr_right fun hown => ?_
  have hfree := h.taken_add_free p
  rw [← h.openCount_eq hown] at hfree
  omega

/-- A sound submission is accepted exactly on an open slot. -/
theorem DrawInv.accepts_iff (hdraw : hasDraw job = true)
    (hsound : Sound job sub st.has) :
    (admitSubmission H job sub st.has st.ledgers).accepts = true
      ↔ sub.cursor < job.slotsPerPrompt
        ∧ slotOpen H st sub.promptIndex sub.cursor = true := by
  have hown' := h.owns hsound.owned
  have hfreeOrder : ¬job.promptOrder = .minerWalk := by
    rw [job.draw_free hdraw]
    rintro ⟨⟩
  rw [Corpus.accepts_iff]
  simp only [gates, List.forall_mem_cons, not_mem_nil, false_imp_iff,
    implies_true, and_true]
  constructor
  · rintro ⟨⟨-, -, -, -, hgate, -⟩, -⟩
    exact (h.drawGate_pass hdraw hsound.owned).1 hgate
  · rintro ⟨hlt, hopen⟩
    have hpos : 0 < openCount H job st sub.promptIndex := by
      refine length_pos_of_mem (List.mem_filter.2 ⟨?_, hopen⟩)
      exact List.mem_range.2 hlt
    have hfree := h.taken_add_free sub.promptIndex
    rw [← h.openCount_eq hsound.owned] at hfree
    refine ⟨⟨hsound.shape, ?_, hsound.checkpoint, ?_,
      (h.drawGate_pass hdraw hsound.owned).2 ⟨hlt, hopen⟩,
      hsound.content⟩, ?_, ?_⟩
    · unfold completeGate
      rw [if_neg]
      intro hdone
      have hzero := h.isComplete_iff.1 hdone _ hsound.owned
      omega
    · unfold positionGate
      rw [if_neg hfreeOrder, if_pos hsound.owned]
    · unfold isFull
      rw [show st.ledgers.slots = st.slots from rfl,
        h.remaining_eq hsound.owned]
      show Except.ok (decide _) = _
      rw [decide_eq_false (by omega)]
    · unfold consume
      rw [show st.ledgers.slots = st.slots from rfl,
        check_of_owns hown']
      simp only [bind, Except.bind]
      rw [if_neg (by omega)]
      exact ⟨_, rfl⟩

-- ===== the whole run

/-- What an acceptance went through. -/
theorem DrawInv.opened (hdraw : hasDraw job = true)
    (hacc : (admitSubmission H job sub st.has st.ledgers).accepts = true) :
    job.owns sub.promptIndex = true ∧ sub.cursor < job.slotsPerPrompt
      ∧ slotOpen H st sub.promptIndex sub.cursor = true
      ∧ (admitSubmission H job sub st.has st.ledgers).2.slots
        = st.slots.consumeAt sub.promptIndex := by
  obtain ⟨n, hconsume⟩ := slots_of_accepts hacc
  obtain ⟨hown', -, hslots⟩ := consume_ok hconsume
  have hown : job.owns sub.promptIndex = true := by
    rw [← h.owns_iff]
    exact hown'
  obtain ⟨hgates, -⟩ := Corpus.accepts_iff.1 hacc
  have hgate : drawGate H job sub st.slots st.has = pass :=
    hgates _ (by simp [gates, DrawState.slots])
  obtain ⟨hlt, hopen⟩ := (h.drawGate_pass hdraw hown).1 hgate
  exact ⟨hown, hlt, hopen, hslots⟩

/-- An `admit` call. -/
theorem DrawInv.submitStep (hsha : Function.Injective H.sha256)
    (hdraw : hasDraw job = true) {id : SubmissionId} {others : List String}
    (hothers : ∀ k ∈ others, ∀ p s n, k ≠ slotKey H p s n) :
    ∃ st', submitStep H job st id sub others = .ok st' ∧ DrawInv H job st' := by
  unfold Corpus.submitStep
  have hmoved : (admitSubmission H job sub st.has st.ledgers).accepts = false →
        (admitSubmission H job sub st.has st.ledgers).2.slots = st.slots :=
    slots_of_not_accepts
  have hopened :
      (admitSubmission H job sub st.has st.ledgers).accepts = true → _ :=
    h.opened hdraw
  generalize admitSubmission H job sub st.has st.ledgers = d at *
  obtain ⟨outcome, L⟩ := d
  cases outcome with
  | error e => exact ⟨_, rfl, h.congr (hmoved rfl) rfl rfl⟩
  | ok verdict =>
    dsimp only
    by_cases hv : verdict.accepted = true
    · rw [if_pos hv]
      obtain ⟨hown, hlt, hopen, hslots⟩ := hopened hv
      have hown' : L.slots.owns sub.promptIndex = true := by
        rw [hslots]
        exact h.owns hown
      have hattempt : L.slots.attemptAt sub.promptIndex sub.cursor
          = st.slots.attemptAt sub.promptIndex sub.cursor := by
        rw [hslots]
        rfl
      rw [slotAttempt_eq hown', hattempt]
      refine ⟨_, rfl, ?_⟩
      have hnext := h.accept hsha id hown hlt hopen hothers L.cursors
      rw [← hslots] at hnext
      exact hnext
    · rw [if_neg hv]
      exact ⟨_, rfl, h.congr (hmoved (Bool.eq_false_iff.2 hv)) rfl rfl⟩

/-- **One step** returns and keeps the invariant. -/
theorem DrawInv.step (hsha : Function.Injective H.sha256)
    (hdraw : hasDraw job = true) {op : DrawOp} (hok : DrawOk H st op) :
    ∃ st', drawStep H job st op = .ok st' ∧ DrawInv H job st' := by
  cases op with
  | submit id sub others => exact h.submitStep hsha hdraw hok
  | fail p id slot hotkey =>
    obtain ⟨a, ha, rfl, rfl, rfl⟩ := hok
    have hown' := h.owns (h.owned a ha).1
    rcases recordFailure_eq hown' a.id.text (some a.slot) hotkey
      with ⟨-, hsame⟩ | ⟨hnew, b, hmoved⟩
    · refine ⟨_, by rw [drawStep, hsame]; rfl, ?_⟩
      exact h.congr rfl rfl rfl
    · refine ⟨_, by rw [drawStep, hmoved]; rfl, ?_⟩
      exact h.failed ha hotkey hnew st.ledgers.cursors
  | restart =>
    have hread := fromSnapshot_snapshot h.wf
    rw [h.start, h.count, h.slots] at hread
    refine ⟨_, by rw [drawStep, hread]; rfl, ?_⟩
    exact h.reloaded st.ledgers.cursors

end Facts

/-- **Draw-slot accounting is exact**, in every state of every run. -/
theorem draw_slots_exact (hsha : Function.Injective H.sha256)
    (hdraw : hasDraw job = true) {ops : List DrawOp}
    (hrun : Runs (drawStep H job) (DrawOk H) (DrawState.empty job) ops st) :
    -- capacity and the slots agree, prompt by prompt
    (∀ p, job.owns p = true →
      st.slots.remaining p = .ok (openCount H job st p : Int)
      ∧ ∃ state, st.slots.promptState p = .ok state
        ∧ (state = .open_ ↔ 0 < openCount H job st p))
    -- what is counted is what would be accepted
    ∧ (∀ sub, Sound job sub st.has →
      ((admitSubmission H job sub st.has st.ledgers).accepts = true
        ↔ sub.cursor < slotCount job
          ∧ slotOpen H st sub.promptIndex sub.cursor = true))
    -- no slot too often, none twice at one attempt
    ∧ (∀ p s, st.times p s ≤ attemptsPerSlot)
    ∧ (st.accepted.map fun a => (a.promptIndex, a.slot, a.attempt)).Nodup
    ∧ (st.slots.isComplete = true
      ↔ ∀ p, job.owns p = true → openCount H job st p = 0)
    -- and no call raises
    ∧ (∀ op, DrawOk H st op → ∃ st', drawStep H job st op = .ok st') := by
  have hinv : DrawInv H job st := by
    refine hrun.invariant (DrawInv.init H job) ?_
    intro s op s' hok hs' hs
    obtain ⟨s'', hs'', hinv⟩ := hs.step hsha hdraw hok
    rw [hs'] at hs''
    injection hs'' with heq
    rw [heq]
    exact hinv
  refine ⟨?_, ?_, fun p s => (hinv.ahead p s).2, hinv.once,
    hinv.isComplete_iff, ?_⟩
  · exact fun p hown => ⟨hinv.remaining_eq hown, hinv.promptState_open hown⟩
  · exact fun sub hsound => hinv.accepts_iff hdraw hsound
  · intro op hok
    obtain ⟨st', hst', -⟩ := hinv.step hsha hdraw hok
    exact ⟨st', hst'⟩

-- ===== a sample

/-- One prompt of two draw slots. -/
def twoDraws : JobSpec where
  jobId := "job"
  checkpointSha256 := "ckpt"
  promptStart := 0
  promptCount := 1
  slotsPerPrompt := 2
  eosTokenId := 0
  sampling := ⟨2, 8, 1, some "gumbel_max"⟩
  promptOrder := .free
  episode := false
  count_pos := by decide
  slots_pos := by decide
  draw_free := fun _ => rfl

/-- Texts for their own digests. -/
def plainHashes : Hashes := ⟨id, fun _ _ _ => 0⟩

def firstId : SubmissionId := ⟨"00c0ffee00c0ffee", by simp⟩

def firstSample : Submission where
  hotkey := "hk"
  cursor := 0
  promptIndex := 0
  checkpointSha256 := "ckpt"
  tokenCounts := [4]
  lastTokenIds := [0]
  digests := ["d"]
  proofCounts := none
  proofChunkTokens := none
  episodeChecked := false
  sessionKey := none

/-- The sample is accepted, fails, and the ledger is read back. -/
def redoOps : List DrawOp :=
  [.submit firstId firstSample [], .fail 0 firstId 0 (some "hk"), .restart]

def redoState : DrawState :=
  (redoOps.foldlM (drawStep plainHashes twoDraws)
    (DrawState.empty twoDraws)).toOption.getD (DrawState.empty twoDraws)

def nextState (st : DrawState) (op : DrawOp) : DrawState :=
  (drawStep plainHashes twoDraws st op).toOption.getD st

theorem redo_runs : Runs (drawStep plainHashes twoDraws) (DrawOk plainHashes)
    (DrawState.empty twoDraws) redoOps redoState := by
  let s1 := nextState (DrawState.empty twoDraws) (.submit firstId firstSample [])
  let s2 := nextState s1 (.fail 0 firstId 0 (some "hk"))
  have h1 : drawStep plainHashes twoDraws (DrawState.empty twoDraws)
      (.submit firstId firstSample []) = .ok s1 := by
    decide +kernel
  have h2 : drawStep plainHashes twoDraws s1
      (.fail 0 firstId 0 (some "hk")) = .ok s2 := by
    decide +kernel
  have h3 : drawStep plainHashes twoDraws s2 .restart = .ok redoState := by
    decide +kernel
  have hnamed : DrawOk plainHashes s1 (.fail 0 firstId 0 (some "hk")) :=
    ⟨⟨firstId, 0, 0, 0⟩, by decide +kernel, rfl, rfl, rfl⟩
  exact .cons (by rintro k ⟨⟩) h1 (.cons hnamed h2 (.cons trivial h3 (.nil _)))

/-- The failed slot is open again, with the other one. -/
theorem draw_slots_exact_redo : redoState.slots.remaining 0 = .ok 2
      ∧ redoState.slots.promptState 0 = .ok .open_ := by
  have hsha : Function.Injective plainHashes.sha256 := fun _ _ h => h
  obtain ⟨hviews, -⟩ := draw_slots_exact hsha (by decide) redo_runs
  obtain ⟨hleft, state, hstate, hopen⟩ := hviews 0 (by decide)
  rw [hleft, hstate, hopen.2 (by decide)]
  exact ⟨rfl, rfl⟩

end Reliquary.Corpus
