/-
The slot ledger of a corpus job (`corpus/slots.py`): V slots per prompt,
consumed for good, and the failures that reopen one.

# What is modeled how

- The two dictionaries are keyed maps (Store/Table.lean) from source
  rows; a row outside `[promptStart, promptStart + promptCount)` raises
  `IndexError` in every public method, through `check`.
- A failure is the text the source writes: `<id12>`, or
  `<id12>@<slot>@<hotkey>` for a forced-draw job. Its parts are what
  `entry.split("@", 2)` gives, so a hotkey may hold the separator and an
  id may not.
- `remaining` and `passing` are differences and so integers.
- A snapshot is a keyed map of rows; the decimal form its keys take in
  the stored JSON is not modeled.

# What is proven

A prompt's failures count only by how many name each slot, so their
order does not matter (`reopened_perm`), and what a well-formed ledger
(`SlotLedger.Wf`) writes as a snapshot reads back as the same counts
(`fromSnapshot_snapshot`).
-/
import Reliquary.Store.Dict
import Reliquary.Store.Run
import Reliquary.Store.Table
import Reliquary.Store.Text

namespace Reliquary.Corpus

open Store List

-- ===== the ledger

/-- How often one draw slot may be attempted, and a prompt's slots
reopened. -/
def attemptsPerSlot : Nat := 3

inductive SlotError
  /-- `IndexError`: the row is not the job's. -/
  | index
  /-- `SlotExhausted`. -/
  | exhausted
  /-- `ValueError`. -/
  | value
deriving DecidableEq, Repr

inductive PromptState
  | complete
  | exhausted
  | open_
deriving DecidableEq, Repr

structure SlotLedger where
  promptStart : Nat
  promptCount : Nat
  slotsPerPrompt : Nat
  consumed : List (Nat × Nat)
  filled : Nat
  failed : List (Nat × List String)
  count_pos : 0 < promptCount
  slots_pos : 0 < slotsPerPrompt
deriving DecidableEq

/-- The submission id's first part of a failure. -/
def failureId (entry : String) : String :=
  (splitText '@' 1 entry).headD ""

/-- The draw slot and hotkey of a failure that has them. -/
def drawPart (entry : String) : Option (String × String) :=
  match splitText '@' 2 entry with
  | [_, slot, hotkey] => some (slot, hotkey)
  | _ => none

/-- The first 12 characters of a submission id. -/
def idKey (submissionId : String) : String :=
  String.ofList (submissionId.toList.take 12)

/-- A failure as it is recorded. -/
def failureText (key : String) (slot : Option Int) (hotkey : Option String) :
    String :=
  match slot with
  | none => key
  | some slot => key ++ "@" ++ toString slot ++ "@" ++ hotkey.getD ""

/-- What `_reopened` collects: the failures without a slot, and how many
name each slot. -/
def tally (entries : List String) : Nat × List (String × Nat) :=
  entries.foldl (fun t entry =>
      match drawPart entry with
      | some (slot, _) => (t.1, addTo slot 1 t.2)
      | none => (t.1 + 1, t.2))
    (0, [])

/-- The failures that reopened a slot. -/
def reopenedBy (entries : List String) : Nat :=
  (tally entries).1
    + ((tally entries).2.map fun x => min x.2 (attemptsPerSlot - 1)).sum

/-- The slots the failures name, one per failure that names one. -/
def slotsOf (entries : List String) : List String :=
  entries.filterMap fun entry => (drawPart entry).map Prod.fst

/-- The hotkey of a failure of this draw slot. -/
def failedBy (slot : Int) (entry : String) : Option String :=
  match drawPart entry with
  | some (slot', hotkey) =>
    if slot' = toString slot then some hotkey else none
  | none => none

/-- The hotkeys that failed a draw slot. -/
def failuresOf (entries : List String) (slot : Int) : List String :=
  entries.filterMap (failedBy slot)

variable (l : SlotLedger)

namespace SlotLedger

def make (promptCount slotsPerPrompt promptStart : Nat) :
    Except SlotError SlotLedger :=
  if hc : 0 < promptCount then
    if hs : 0 < slotsPerPrompt then
      .ok { promptStart, promptCount, slotsPerPrompt, consumed := [],
            filled := 0, failed := [], count_pos := hc, slots_pos := hs }
    else .error .value
  else .error .value

def owns (position : Nat) : Bool :=
  decide (l.promptStart ≤ position)
    && decide (position < l.promptStart + l.promptCount)

def check (index : Nat) : Except SlotError Nat :=
  if l.owns index then .ok index else .error .index

def attemptLimit : Nat :=
  attemptsPerSlot * l.slotsPerPrompt

def failedAt (position : Nat) : List String :=
  (l.failed.lookup position).getD []

def takenAt (position : Nat) : Nat :=
  (l.consumed.lookup position).getD 0

def reopened (position : Nat) : Nat :=
  reopenedBy (l.failedAt position)

/-- `capacity` past its range check. -/
def capacityAt (position : Nat) : Nat :=
  min (l.slotsPerPrompt + l.reopened position) l.attemptLimit

/-- The slots a prompt has: V, plus one per failure that reopened a
slot, bounded. -/
def capacity (index : Nat) : Except SlotError Nat := do
  let position ← l.check index
  pure (l.capacityAt position)

def remaining (index : Nat) : Except SlotError Int := do
  let position ← l.check index
  pure ((l.capacityAt position : Int) - l.takenAt position)

/-- Record that a submission failed: whether that reopened a slot, or
`none` when it was recorded already. -/
def recordFailure (index : Nat) (submissionId : String) (slot : Option Int)
    (hotkey : Option String) : Except SlotError (SlotLedger × Option Bool) := do
  let position ← l.check index
  let key := idKey submissionId
  let failed := l.failedAt position
  if failed.any fun entry => decide (failureId entry = key) then
    -- a list with such an entry was there, so `setdefault` changed nothing
    pure (l, none)
  else
    let before := l.capacityAt position
    let l' := { l with
      failed := put position (failed ++ [failureText key slot hotkey]) l.failed }
    pure (l', some (decide (before < l'.capacityAt position)))

def slotFailures (index : Nat) (slot : Int) : Except SlotError (List String) := do
  let position ← l.check index
  pure (failuresOf (l.failedAt position) slot)

/-- The attempt a draw slot is at: how many times it failed. -/
def slotAttempt (index : Nat) (slot : Int) : Except SlotError Nat := do
  let found ← l.slotFailures index slot
  pure found.length

/-- How many draw slots a prompt takes cursors for. -/
def drawCursors (index slotsPerPrompt : Nat) : Except SlotError Nat := do
  let position ← l.check index
  let legacy :=
    ((l.failedAt position).filter fun entry => decide ('@' ∉ entry.toList)).length
  pure (min (slotsPerPrompt + legacy) l.attemptLimit)

def slotExhausted (index : Nat) (slot : Int) : Except SlotError Bool := do
  let attempt ← l.slotAttempt index slot
  pure (decide (attemptsPerSlot ≤ attempt))

/-- Whether the slot a failure names is out of attempts; `int(slot)`
raises on a text that is no number. -/
def namedExhausted (position : Nat) (slot : String) : Except SlotError Bool :=
  match slot.toInt? with
  | some n => l.slotExhausted position n
  | none => .error .value

/-- How many of the slots some failure names are out of attempts. -/
def exhaustedSlots (position : Nat) : Except SlotError Nat := do
  let flags ← (slotsOf (l.failedAt position)).dedup.mapM
    (l.namedExhausted position)
  pure (flags.filter id).length

/-- Slots holding work not known to have failed. -/
def passing (index : Nat) : Except SlotError Int := do
  let position ← l.check index
  pure ((l.takenAt position : Int) - (l.failedAt position).length)

def promptState (index : Nat) : Except SlotError PromptState := do
  let position ← l.check index
  let passing ← l.passing position
  if (l.slotsPerPrompt : Int) ≤ passing then
    pure .complete
  else if l.attemptLimit ≤ l.takenAt position then
    pure .exhausted
  else
    let out ← l.exhaustedSlots position
    if (l.slotsPerPrompt : Int) ≤ passing + out then
      pure .exhausted
    else
      pure .open_

def isFull (index : Nat) : Except SlotError Bool := do
  let left ← l.remaining index
  pure (decide (left = 0))

/-- Take one slot and report what is left, or refuse if there is none. -/
def consume (index : Nat) : Except SlotError (SlotLedger × Nat) := do
  let position ← l.check index
  let taken := l.takenAt position
  if l.capacityAt position ≤ taken then
    .error .exhausted
  else
    pure ({ l with
      consumed := put position (taken + 1) l.consumed
      filled := l.filled + 1 }, l.capacityAt position - (taken + 1))

def total : Nat :=
  l.promptCount * l.slotsPerPrompt + (l.failed.map fun x =>
        min (l.reopened x.1) (l.attemptLimit - l.slotsPerPrompt)).sum

def isComplete : Bool := decide (l.total ≤ l.filled)

def snapshot : List (Nat × Nat) := l.consumed

def failedSnapshot : List (Nat × List String) :=
  (l.failed.filter fun x => !x.2.isEmpty).map fun x =>
    (x.1, x.2.insertionSort (· ≤ ·))

/-- One entry of the failures a snapshot names. -/
def loadFailed (entry : Nat × List String) : Except SlotError SlotLedger :=
  if !l.owns entry.1 || entry.2.isEmpty || !decide entry.2.Nodup
      || entry.2.any (fun i => decide (i = "")) then
    .error .value
  else .ok { l with failed := put entry.1 entry.2 l.failed }

/-- One entry of the consumed slots a snapshot names. -/
def loadConsumed (entry : Nat × Nat) : Except SlotError SlotLedger :=
  if !l.owns entry.1 then .error .value
  else if entry.2 = 0 ∨ l.capacityAt entry.1 < entry.2 then .error .value
  else .ok { l with
    consumed := put entry.1 entry.2 l.consumed
    filled := l.filled + entry.2 }

def fromSnapshot (promptCount slotsPerPrompt : Nat)
    (snapshot : List (Nat × Nat)) (promptStart : Nat)
    (failed : List (Nat × List String)) : Except SlotError SlotLedger := do
  let l ← make promptCount slotsPerPrompt promptStart
  let l ← failed.foldlM loadFailed l
  snapshot.foldlM loadConsumed l

end SlotLedger

-- ===== failures as texts

theorem not_mem_toString (slot : Int) : '@' ∉ (toString slot).toList := by
  cases slot with
  | ofNat n => exact not_mem_repr (by decide) n
  | negSucc n =>
    show '@' ∉ ("-" ++ (n + 1).repr).toList
    rw [String.toList_append, mem_append, not_or]
    exact ⟨by decide, not_mem_repr (by decide) _⟩

section Entries

variable {key : String} (hkey : '@' ∉ key.toList) (slot : Int)
  (hotkey : Option String)

theorem failureText_toList : (failureText key (some slot) hotkey).toList
      = key.toList ++ '@' :: ((toString slot).toList
        ++ '@' :: (hotkey.getD "").toList) := by
  show (key ++ "@" ++ toString slot ++ "@" ++ hotkey.getD "").toList = _
  simp only [String.toList_append, append_assoc]
  rfl

theorem failureText_ne : failureText key (some slot) hotkey ≠ "" := by
  intro h0
  have hlist := congrArg String.toList h0
  rw [failureText_toList] at hlist
  simp at hlist

include hkey

theorem failureId_failureText :
    failureId (failureText key (some slot) hotkey) = key := by
  unfold failureId splitText
  rw [failureText_toList, splitMax_append hkey]
  simp

theorem drawPart_failureText : drawPart (failureText key (some slot) hotkey)
      = some (toString slot, hotkey.getD "") := by
  unfold drawPart splitText
  rw [failureText_toList, splitMax_append hkey,
    splitMax_append (not_mem_toString slot)]
  simp [splitMax]

end Entries

-- ===== counts per slot

variable {e : String}

theorem slotsOf_cons_none (he : drawPart e = none)
    (entries : List String) : slotsOf (e :: entries) = slotsOf entries := by
  unfold slotsOf
  rw [filterMap_cons_none (by rw [he]; rfl)]

theorem slotsOf_cons_some {part : String × String}
    (he : drawPart e = some part) (entries : List String) :
    slotsOf (e :: entries) = part.1 :: slotsOf entries := by
  unfold slotsOf
  rw [filterMap_cons_some (by rw [he]; rfl)]

theorem tally_eq (entries : List String) : tally entries
      = (entries.countP fun e => (drawPart e).isNone,
          gather id (fun _ => 1) (slotsOf entries) []) := by
  have hgen : ∀ (n : Nat) (d : List (String × Nat)), entries.foldl
        (fun t entry =>
          match drawPart entry with
          | some (slot, _) => (t.1, addTo slot 1 t.2)
          | none => (t.1 + 1, t.2)) (n, d)
        = (n + entries.countP fun e => (drawPart e).isNone,
            gather id (fun _ => 1) (slotsOf entries) d) := by
    induction entries with
    | nil => exact fun n d => rfl
    | cons e entries ih =>
      intro n d
      rw [foldl_cons]
      cases he : drawPart e with
      | none =>
        rw [ih, countP_cons_of_pos (by simp [he]), slotsOf_cons_none he]
        refine Prod.ext ?_ rfl
        show n + 1 + _ = n + (_ + 1)
        omega
      | some part =>
        rw [ih, countP_cons_of_neg (by simp [he]), slotsOf_cons_some he]
        rfl
  have h0 := hgen 0 []
  rw [Nat.zero_add] at h0
  exact h0

/-- The reopening failures, by how many name each slot. -/
theorem reopenedBy_eq (entries : List String) : reopenedBy entries
      = (entries.countP fun e => (drawPart e).isNone)
        + ∑ k ∈ (slotsOf entries).toFinset,
            min ((slotsOf entries).count k) (attemptsPerSlot - 1) := by
  have hsum := sum_gather_values (slotsOf entries)
    (g := fun n => min n (attemptsPerSlot - 1)) (Nat.zero_min _)
  unfold reopenedBy
  rw [tally_eq, hsum]

theorem slotsOf_perm {es es' : List String} (h : es.Perm es') :
    (slotsOf es).Perm (slotsOf es') :=
  h.filterMap _

/-- The order of the failures does not matter. -/
theorem reopenedBy_perm {es es' : List String} (h : es.Perm es') :
    reopenedBy es = reopenedBy es' := by
  have hslots := slotsOf_perm h
  rw [reopenedBy_eq, reopenedBy_eq, h.countP_eq, toFinset_eq_of_perm _ _ hslots]
  congr 1
  refine Finset.sum_congr rfl fun k _ => ?_
  rw [hslots.count_eq]

/-- A slot's failures are the entries that name it. -/
theorem length_failuresOf (entries : List String) (slot : Int) :
    (failuresOf entries slot).length
      = (slotsOf entries).count (toString slot) := by
  induction entries with
  | nil => rfl
  | cons e entries ih =>
    rw [failuresOf] at ih ⊢
    cases he : drawPart e with
    | none =>
      have hby : failedBy slot e = none := by
        simp only [failedBy, he]
      rw [filterMap_cons_none hby, slotsOf_cons_none he, ih]
    | some part =>
      rw [slotsOf_cons_some he, count_cons]
      by_cases hs : part.1 = toString slot
      · have hby : failedBy slot e = some part.2 := by
          simp only [failedBy, he]
          exact if_pos hs
        rw [filterMap_cons_some hby, length_cons, ih,
          if_pos (by simpa using hs)]
      · have hby : failedBy slot e = none := by
          simp only [failedBy, he]
          exact if_neg hs
        rw [filterMap_cons_none hby, ih, if_neg (by simpa using hs),
          Nat.add_zero]

-- ===== well-formed ledgers

namespace SlotLedger

/-- Both dictionaries hold rows of the job, once each, and nothing
empty. -/
structure Shape (l : SlotLedger) : Prop where
  consumedKeys : (l.consumed.map Prod.fst).Nodup
  consumedOk : ∀ x ∈ l.consumed, l.owns x.1 = true ∧ 0 < x.2
  filled : l.filled = (l.consumed.map Prod.snd).sum
  failedKeys : (l.failed.map Prod.fst).Nodup
  failedOk : ∀ x ∈ l.failed, l.owns x.1 = true ∧ x.2 ≠ [] ∧ x.2.Nodup ∧ "" ∉ x.2

/-- And no row holds more than its capacity. -/
structure Wf (l : SlotLedger) : Prop extends Shape l where
  within : ∀ x ∈ l.consumed, x.2 ≤ l.capacityAt x.1

theorem wf_of_empty {l : SlotLedger} (hc : l.consumed = [])
    (hf : l.failed = []) (h0 : l.filled = 0) : l.Wf where
  consumedKeys := by simp [hc]
  consumedOk := by simp [hc]
  filled := by simp [hc, h0]
  failedKeys := by simp [hf]
  failedOk := by simp [hf]
  within := by simp [hc]

/-- The job's rows. -/
def rows : Finset Nat :=
  Finset.Ico l.promptStart (l.promptStart + l.promptCount)

variable {l : SlotLedger} {p : Nat}

theorem mem_rows : p ∈ l.rows ↔ l.owns p = true := by
  simp [rows, owns]

theorem check_of_owns (h : l.owns p = true) : l.check p = .ok p := by
  rw [check, if_pos h]

/-- A capacity is V and what was reopened, up to the bound. -/
theorem capacityAt_eq (l : SlotLedger) (p : Nat) :
    l.capacityAt p = l.slotsPerPrompt
      + min (l.reopened p) (l.attemptLimit - l.slotsPerPrompt) := by
  have hlimit : l.slotsPerPrompt ≤ l.attemptLimit := by
    unfold attemptLimit attemptsPerSlot
    omega
  unfold capacityAt
  omega

section WfFacts

variable {l : SlotLedger} (h : l.Wf)
include h

theorem Wf.takenAt_le (p : Nat) : l.takenAt p ≤ l.capacityAt p := by
  unfold takenAt
  cases hl : l.consumed.lookup p with
  | none => exact Nat.zero_le _
  | some v => exact h.within _ (mem_of_lookup hl)

theorem Wf.filled_eq : l.filled = ∑ p ∈ l.rows, l.takenAt p := by
  rw [h.filled]
  have hsum := sum_entries h.consumedKeys
    (fun x hx => mem_rows.2 (h.consumedOk x hx).1) fun _ v => v
  rw [show (l.consumed.map Prod.snd).sum
    = (l.consumed.map fun x => x.2).sum from rfl, hsum]
  refine Finset.sum_congr rfl fun p _ => ?_
  unfold takenAt
  cases l.consumed.lookup p with
  | none => rfl
  | some v => rfl

theorem Wf.total_eq : l.total = ∑ p ∈ l.rows, l.capacityAt p := by
  -- a row without a failure has reopened nothing
  have hextra : (l.failed.map fun x =>
      min (l.reopened x.1) (l.attemptLimit - l.slotsPerPrompt)).sum
      = ∑ p ∈ l.rows,
          min (l.reopened p) (l.attemptLimit - l.slotsPerPrompt) := by
    rw [sum_entries h.failedKeys (fun x hx => mem_rows.2 (h.failedOk x hx).1)
      fun k _ => min (l.reopened k) (l.attemptLimit - l.slotsPerPrompt)]
    refine Finset.sum_congr rfl fun p _ => ?_
    cases hl : l.failed.lookup p with
    | none =>
      have h0 : l.reopened p = 0 := by
        unfold reopened failedAt
        rw [hl]
        rfl
      rw [h0, Nat.zero_min]
      rfl
    | some v => rfl
  have hcap : ∀ p ∈ l.rows, l.capacityAt p = l.slotsPerPrompt
      + min (l.reopened p) (l.attemptLimit - l.slotsPerPrompt) :=
    fun p _ => l.capacityAt_eq p
  rw [total, hextra, Finset.sum_congr rfl hcap, Finset.sum_add_distrib,
    Finset.sum_const, rows, Nat.card_Ico, Nat.add_sub_cancel_left,
    smul_eq_mul]

/-- A job is complete when every row's capacity is taken. -/
theorem Wf.isComplete_iff : l.isComplete = true
    ↔ ∀ p, l.owns p = true → l.takenAt p = l.capacityAt p := by
  rw [isComplete, decide_eq_true_iff, h.total_eq, h.filled_eq]
  have hle : ∀ p ∈ l.rows, l.takenAt p ≤ l.capacityAt p :=
    fun p _ => h.takenAt_le p
  constructor
  · intro hsum p hp
    have heq := le_antisymm (Finset.sum_le_sum hle) hsum
    exact (Finset.sum_eq_sum_iff_of_le hle).1 heq p (mem_rows.2 hp)
  · intro hall
    exact Finset.sum_le_sum fun p hp => (hall p (mem_rows.1 hp)).ge

end WfFacts

-- ===== what each method moves

/-- The values after an upsert, summed. -/
theorem sum_put (k v : Nat) (t : List (Nat × Nat))
    (hnd : (t.map Prod.fst).Nodup) :
    ((put k v t).map Prod.snd).sum + (t.lookup k).getD 0
      = (t.map Prod.snd).sum + v := by
  induction t with
  | nil => simp [put]
  | cons x t ih =>
    obtain ⟨a, b⟩ := x
    rw [map_cons, nodup_cons] at hnd
    rw [put, Store.lookup_cons]
    by_cases ha : a = k
    · subst ha
      simp only [if_pos, map_cons, sum_cons, Option.getD_some]
      omega
    · rw [if_neg ha, if_neg (Ne.symm ha)]
      simp only [map_cons, sum_cons]
      have hrest := ih hnd.2
      omega

/-- The ledger with one more slot of a row consumed. -/
def consumeAt (l : SlotLedger) (p : Nat) : SlotLedger :=
  { l with
    consumed := put p (l.takenAt p + 1) l.consumed
    filled := l.filled + 1 }

/-- The ledger with one more failure of a row. -/
def failAt (l : SlotLedger) (p : Nat) (entry : String) : SlotLedger :=
  { l with failed := put p (l.failedAt p ++ [entry]) l.failed }

theorem consume_ok {l l' : SlotLedger} {p n : Nat}
    (h : l.consume p = .ok (l', n)) :
    l.owns p = true ∧ l.takenAt p < l.capacityAt p ∧ l' = l.consumeAt p := by
  unfold consume check at h
  by_cases hown : l.owns p = true
  · rw [if_pos hown] at h
    by_cases hcap : l.capacityAt p ≤ l.takenAt p
    · simp [bind, Except.bind, hcap] at h
    · simp only [bind, Except.bind, hcap, if_false, pure, Except.pure,
        Except.ok.injEq, Prod.mk.injEq] at h
      exact ⟨hown, by omega, h.1.symm⟩
  · rw [if_neg hown] at h
    cases h

@[simp] theorem takenAt_consumeAt (l : SlotLedger) (p q : Nat) :
    (l.consumeAt p).takenAt q = l.takenAt q + if q = p then 1 else 0 := by
  unfold takenAt consumeAt
  rw [lookup_put]
  by_cases hq : q = p
  · rw [if_pos hq, if_pos hq, hq]
    rfl
  · rw [if_neg hq, if_neg hq, Nat.add_zero]

@[simp] theorem failedAt_failAt (l : SlotLedger) (p q : Nat) (e : String) :
    (l.failAt p e).failedAt q
      = if q = p then l.failedAt p ++ [e] else l.failedAt q := by
  unfold failAt
  conv_lhs => unfold failedAt
  rw [lookup_put]
  by_cases hq : q = p
  · rw [if_pos hq, if_pos hq]
    rfl
  · rw [if_neg hq, if_neg hq]
    rfl

theorem Shape.consumeAt (h : l.Shape)
    (hown : l.owns p = true) : (l.consumeAt p).Shape := { h with
  consumedKeys := nodup_keys_put _ _ h.consumedKeys
  consumedOk := forall_put h.consumedOk ⟨hown, Nat.succ_pos _⟩
  filled := by
    have hsum := sum_put p (l.takenAt p + 1) l.consumed h.consumedKeys
    have hfilled := h.filled
    unfold SlotLedger.consumeAt takenAt at *
    dsimp only
    omega }

theorem Shape.failAt (h : l.Shape) (hown : l.owns p = true)
    (hnew : e ∉ l.failedAt p) (he : e ≠ "") : (l.failAt p e).Shape := { h with
  failedKeys := nodup_keys_put _ _ h.failedKeys
  failedOk := by
    intro x hx
    rcases mem_put hx with rfl | hx
    · have hold : (l.failedAt p).Nodup ∧ "" ∉ l.failedAt p := by
        unfold failedAt
        cases hl : l.failed.lookup p with
        | none => exact ⟨nodup_nil, not_mem_nil⟩
        | some v => exact (h.failedOk _ (mem_of_lookup hl)).2.2
      refine ⟨hown, by simp, ?_, ?_⟩
      · exact nodup_snoc hold.1 hnew
      · rw [mem_append, mem_singleton, not_or]
        exact ⟨hold.2, Ne.symm he⟩
    · exact h.failedOk x hx }

/-- A failure recorded already moves nothing; a new one is appended. -/
theorem recordFailure_eq (hown : l.owns p = true)
    (sid : String) (slot : Option Int) (hotkey : Option String) :
    ((∃ e ∈ l.failedAt p, failureId e = idKey sid)
      ∧ l.recordFailure p sid slot hotkey = .ok (l, none))
    ∨ ((∀ e ∈ l.failedAt p, failureId e ≠ idKey sid)
      ∧ ∃ b, l.recordFailure p sid slot hotkey
          = .ok (l.failAt p (failureText (idKey sid) slot hotkey), b)) := by
  unfold recordFailure
  rw [check_of_owns hown]
  by_cases hany : (l.failedAt p).any
      (fun entry => decide (failureId entry = idKey sid)) = true
  · left
    refine ⟨?_, ?_⟩
    · obtain ⟨e, he, hid⟩ := any_eq_true.1 hany
      exact ⟨e, he, of_decide_eq_true hid⟩
    · show (if _ then _ else _) = _
      rw [if_pos hany]
      rfl
  · right
    refine ⟨?_, ?_⟩
    · intro e he hid
      exact hany (any_eq_true.2 ⟨e, he, decide_eq_true hid⟩)
    · refine ⟨some (decide (l.capacityAt p
        < (l.failAt p (failureText (idKey sid) slot hotkey)).capacityAt p)), ?_⟩
      show (if _ then _ else _) = _
      rw [if_neg hany]
      rfl

-- ===== restarts

/-- The failures of a snapshot, loaded one row after another. -/
theorem loadFailed_all (rows : List (Nat × List String)) (l : SlotLedger)
    (hnd : ((l.failed ++ rows).map Prod.fst).Nodup)
    (hok : ∀ x ∈ rows, l.owns x.1 = true ∧ x.2 ≠ [] ∧ x.2.Nodup ∧ "" ∉ x.2) :
    rows.foldlM loadFailed l = .ok { l with failed := l.failed ++ rows } := by
  have hrun := foldlM_along (f := loadFailed) rows
    (fun pre => { l with failed := l.failed ++ pre }) ?_
  · simpa using hrun
  rintro pre x post rfl
  obtain ⟨hown, hne, hdup, hempty⟩ := hok x (by simp)
  have hnew : x.1 ∉ (l.failed ++ pre).map Prod.fst :=
    fresh_key (r := post) (by simpa using hnd)
  unfold loadFailed
  rw [if_neg, put_new _ _ _ hnew, append_assoc]
  have hany : x.2.any (fun i => decide (i = "")) = false := by
    rw [any_eq_false]
    intro i hi hi0
    exact hempty (of_decide_eq_true hi0 ▸ hi)
  have hown' : owns { l with failed := l.failed ++ pre } x.1 = true := hown
  simp [hown', hne, hdup, hany]

/-- The consumed slots of a snapshot, loaded one row after another. -/
theorem loadConsumed_all (rows : List (Nat × Nat)) (l : SlotLedger)
    (hnd : ((l.consumed ++ rows).map Prod.fst).Nodup)
    (hok : ∀ x ∈ rows, l.owns x.1 = true ∧ 0 < x.2 ∧ x.2 ≤ l.capacityAt x.1) :
    rows.foldlM loadConsumed l = .ok { l with
      consumed := l.consumed ++ rows
      filled := l.filled + (rows.map Prod.snd).sum } := by
  have hrun := foldlM_along (f := loadConsumed) rows
    (fun pre => { l with
      consumed := l.consumed ++ pre
      filled := l.filled + (pre.map Prod.snd).sum }) ?_
  · simpa using hrun
  rintro pre x post rfl
  obtain ⟨hown, hpos, hcap⟩ := hok x (by simp)
  have hnew : x.1 ∉ (l.consumed ++ pre).map Prod.fst :=
    fresh_key (r := post) (by simpa using hnd)
  have hcap' : ¬(x.2 = 0 ∨ capacityAt { l with
      consumed := l.consumed ++ pre
      filled := l.filled + (pre.map Prod.snd).sum } x.1 < x.2) := by
    rintro (h0 | hlt)
    · omega
    · exact absurd hcap (Nat.not_le.2 hlt)
  unfold loadConsumed
  rw [if_neg (by simpa [owns] using hown), if_neg hcap', put_new _ _ _ hnew]
  simp [Nat.add_assoc]

/-- The failures a snapshot holds: every row's, sorted. -/
theorem Shape.failedSnapshot_eq (h : l.Shape) : l.failedSnapshot
      = l.failed.map fun x => (x.1, x.2.insertionSort (· ≤ ·)) := by
  unfold failedSnapshot
  rw [filter_eq_self.2]
  intro x hx
  simpa using (h.failedOk x hx).2.1

/-- The ledger a restart reads: its failures sorted. -/
def reloaded (l : SlotLedger) : SlotLedger :=
  { l with failed := l.failedSnapshot }

/-- Sorting the failures changes no row but its order. -/
theorem Shape.failedAt_reloaded (h : l.Shape) (p : Nat) :
    (l.reloaded.failedAt p).Perm (l.failedAt p) := by
  unfold failedAt reloaded
  rw [h.failedSnapshot_eq,
    lookup_mapValues fun _ (v : List String) => v.insertionSort (· ≤ ·)]
  cases l.failed.lookup p with
  | none => exact List.Perm.refl _
  | some v => exact perm_insertionSort _ _

theorem Shape.reloaded (h : l.Shape) : l.reloaded.Shape := { h with
  failedKeys := by
    show (l.failedSnapshot.map Prod.fst).Nodup
    rw [h.failedSnapshot_eq, map_map]
    exact h.failedKeys
  failedOk := by
    intro x hx
    rw [show l.reloaded.failed = l.failedSnapshot from rfl,
      h.failedSnapshot_eq] at hx
    obtain ⟨y, hy, rfl⟩ := mem_map.1 hx
    obtain ⟨hown, hne, hnd, hempty⟩ := h.failedOk y hy
    have hperm := perm_insertionSort (· ≤ ·) y.2
    refine ⟨hown, ?_, hperm.nodup_iff.2 hnd, fun h0 => hempty (hperm.mem_iff.1 h0)⟩
    intro hnil
    refine hne (List.Perm.eq_nil ?_)
    rw [← hnil]
    exact hperm.symm }

/-- The ledger's job before anything was consumed. -/
def emptied (l : SlotLedger) : SlotLedger :=
  { l with consumed := [], filled := 0, failed := [] }

/-- **A snapshot reads back** as the same ledger, its failures sorted. -/
theorem fromSnapshot_snapshot (h : l.Wf) :
    fromSnapshot l.promptCount l.slotsPerPrompt l.snapshot l.promptStart
      l.failedSnapshot = .ok l.reloaded := by
  have hmake : make l.promptCount l.slotsPerPrompt l.promptStart
      = .ok l.emptied := by
    unfold make emptied
    rw [dif_pos l.count_pos, dif_pos l.slots_pos]
  have hsorted := h.toShape.reloaded
  have hload : l.failedSnapshot.foldlM loadFailed l.emptied
      = .ok { l.emptied with failed := l.failedSnapshot } :=
    loadFailed_all _ l.emptied hsorted.failedKeys hsorted.failedOk
  have hconsumed : ∀ x ∈ l.snapshot, l.owns x.1 = true ∧ 0 < x.2
      ∧ x.2 ≤ capacityAt { l.emptied with failed := l.failedSnapshot } x.1 := by
    intro x hx
    obtain ⟨hown, hpos⟩ := h.consumedOk x hx
    refine ⟨hown, hpos, le_of_le_of_eq (h.within x hx) ?_⟩
    have hsame := reopenedBy_perm (h.toShape.failedAt_reloaded x.1)
    unfold capacityAt reopened
    rw [← hsame]
    rfl
  unfold fromSnapshot
  rw [hmake]
  show (l.failedSnapshot.foldlM loadFailed l.emptied >>= fun l' => _) = _
  rw [hload]
  show l.snapshot.foldlM loadConsumed _ = _
  rw [loadConsumed_all _ _ (by simpa [emptied, snapshot] using h.consumedKeys)
    hconsumed]
  simp [snapshot, emptied, reloaded, ← h.filled]

end SlotLedger

end Reliquary.Corpus
