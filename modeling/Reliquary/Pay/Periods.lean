/-
The period clock (`corpus_periods.py`): periods of drand time, the entry
period of an archive, and the replay that turns archives into weights.

# What is modeled how

- An instant is a rational number of seconds and a period an integer,
  as `math.floor` makes it; a negative one is before the genesis.
- `entry_for` searches upwards from the due period. Its loop ends
  because a period it passes over holds an entry or is in `used`; the
  bound on its steps is the number of those (`entryFor_spec`).
- A task's parameters are the three that are read here: its cap, the
  highest cap it was paid at, and whether it has one at all.
-/
import Reliquary.Store.Dict

namespace Reliquary.Pay

open Store List

-- ===== constants

/-- Where period 0 starts: drand quicknet's genesis. -/
def periodEpoch : ℚ := 1692803367

/-- One Bittensor epoch. -/
def periodSeconds : ℚ := 4320

def periodEmaN : ℚ := 6

def periodAlpha : ℚ := 2 / (periodEmaN + 1)

/-- Periods replayed back from the current one. -/
def replayDepth : Int := 24

/-- Archives that may enter in one period. -/
def catchupEntries : Nat := 4

-- ===== the clock

/-- The period holding instant `t`. -/
def periodOf (t genesis : ℚ) : Int := ⌊(t - genesis) / periodSeconds⌋

def periodEnd (period : Int) (genesis : ℚ) : ℚ :=
  genesis + (period + 1) * periodSeconds

/-- The last period nothing can still be added to. -/
def closedThrough (now : ℚ) (oldestPending : Option ℚ) (genesis slack : ℚ) :
    Int :=
  let bound := now - slack
  let bound := match oldestPending with
    | none => bound
    | some oldest => min bound oldest
  periodOf bound genesis - 1

-- ===== entry periods

/-- How many of the entries from `due` on are in period `entry`. -/
def takenAt (due : Int) (entered : List Int) (entry : Int) : Nat :=
  (entered.filter fun e => decide (due ≤ e)).count entry

/-- The loop of `entry_for`, for at most so many steps. -/
def entryFrom (blocked : Int → Bool) : Nat → Int → Int
  | 0, entry => entry
  | n + 1, entry =>
    if blocked entry then entryFrom blocked n (entry + 1) else entry

/-- May no archive enter in the period? -/
def entryBlocked (due : Int) (entered used : List Int) (perPeriod : Nat)
    (entry : Int) : Bool :=
  decide (perPeriod ≤ takenAt due entered entry) || used.contains entry

/-- The entry period of a new archive: the first from `due` on that holds
fewer than `perPeriod` of the task's archives and is not in `used`. -/
def entryFor (due : Int) (entered used : List Int)
    (perPeriod : Nat := catchupEntries) : Int :=
  entryFrom (entryBlocked due entered used perPeriod)
    (entered.length + used.length) due

/-- The loop's result is at or after its start, and every period it
passed over is blocked. -/
theorem le_entryFrom (blocked : Int → Bool) (n : Nat) (entry : Int) :
    entry ≤ entryFrom blocked n entry
      ∧ ∀ e, entry ≤ e → e < entryFrom blocked n entry → blocked e = true := by
  induction n generalizing entry with
  | zero =>
    refine ⟨le_refl _, ?_⟩
    intro e h h'
    exact absurd h' (not_lt.2 h)
  | succ n ih =>
    rw [entryFrom]
    by_cases hb : blocked entry = true
    · rw [if_pos hb]
      obtain ⟨hle, hbelow⟩ := ih (entry + 1)
      refine ⟨by omega, ?_⟩
      intro e h h'
      by_cases he : e = entry
      · rw [he]
        exact hb
      · exact hbelow e (by omega) h'
    · rw [if_neg hb]
      refine ⟨le_refl _, ?_⟩
      intro e h h'
      exact absurd h' (not_lt.2 h)

/-- A loop that ended blocked went all the way. -/
theorem entryFrom_blocked {blocked : Int → Bool} {n : Nat} {entry : Int}
    (h : blocked (entryFrom blocked n entry) = true) :
    entryFrom blocked n entry = entry + n := by
  induction n generalizing entry with
  | zero => simp [entryFrom]
  | succ n ih =>
    rw [entryFrom] at h ⊢
    by_cases hb : blocked entry = true
    · rw [if_pos hb] at h ⊢
      rw [ih h]
      push_cast
      omega
    · rw [if_neg hb] at h
      exact absurd h hb

variable {perPeriod : Nat}

/-- The periods that are blocked are entries or used ones. -/
theorem mem_of_entryBlocked {due : Int} {entered used : List Int}
    (hp : 0 < perPeriod) {e : Int}
    (h : entryBlocked due entered used perPeriod e = true) :
    e ∈ entered ++ used := by
  unfold entryBlocked at h
  rw [Bool.or_eq_true, decide_eq_true_eq] at h
  rw [mem_append]
  rcases h with h | h
  · left
    have hpos : 0 < takenAt due entered e := by omega
    exact mem_of_mem_filter (count_pos_iff.1 hpos)
  · right
    exact contains_iff_mem.1 h

/-- The loop of `entry_for` ends at a period that is not blocked: else
as many periods as there are entries and used ones, and one more, would
be among them. -/
theorem entryFor_free (due : Int) (entered used : List Int)
    (hp : 0 < perPeriod) : entryBlocked due entered used perPeriod
      (entryFor due entered used perPeriod) = false := by
  by_contra hb
  rw [Bool.not_eq_false] at hb
  obtain ⟨-, hbelow⟩ := le_entryFrom (entryBlocked due entered used perPeriod)
    (entered.length + used.length) due
  have hend := entryFrom_blocked hb
  have hsub : (List.range (entered.length + used.length + 1)).map
      (fun i : Nat => due + (i : Int)) ⊆ entered ++ used := by
    intro e he
    obtain ⟨i, hi, rfl⟩ := mem_map.1 he
    rw [mem_range] at hi
    have hblocked : entryBlocked due entered used perPeriod (due + i)
        = true := by
      by_cases hlast : i = entered.length + used.length
      · unfold entryFor at hb
        rw [hend, ← hlast] at hb
        exact hb
      · refine hbelow _ (by omega) ?_
        rw [hend]
        omega
    exact mem_of_entryBlocked hp hblocked
  have hnd : ((List.range (entered.length + used.length + 1)).map
      fun i : Nat => due + (i : Int)).Nodup := by
    refine List.Nodup.map ?_ nodup_range
    intro i j hij
    have hij : due + (i : Int) = due + (j : Int) := hij
    omega
  have hcard := (subperm_of_subset hnd hsub).length_le
  rw [length_map, length_range, length_append] at hcard
  omega

/-- **The entry period**: at or after the due one, with room, and not a
used one; and no earlier one is. -/
theorem entryFor_spec (due : Int) (entered used : List Int)
    (hp : 0 < perPeriod) : due ≤ entryFor due entered used perPeriod
      ∧ takenAt due entered (entryFor due entered used perPeriod) < perPeriod
      ∧ entryFor due entered used perPeriod ∉ used
      ∧ ∀ e, due ≤ e → e < entryFor due entered used perPeriod →
          entryBlocked due entered used perPeriod e = true := by
  obtain ⟨hle, hbelow⟩ := le_entryFrom (entryBlocked due entered used perPeriod)
    (entered.length + used.length) due
  have hfree := entryFor_free due entered used hp
  unfold entryBlocked at hfree
  rw [Bool.or_eq_false_iff, decide_eq_false_iff_not, not_le] at hfree
  refine ⟨hle, hfree.1, ?_, hbelow⟩
  intro hmem
  rw [contains_iff_mem.2 hmem] at hfree
  cases hfree.2

/-- Entries before the due period are not counted. -/
theorem takenAt_of_le {due e : Int} (h : due ≤ e) (entered : List Int) :
    takenAt due entered e = entered.count e := by
  unfold takenAt
  rw [count_filter]
  simpa using h

end Reliquary.Pay
