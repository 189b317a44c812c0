/-
Sets written out in order: what a component that stores a set as a list
needs to read the same set back.

- `sortSet` lists a finite set in order (`Finset.sort`, by insertions, so
  that it evaluates).
- `sortBy` orders records by a column; with distinct keys the result
  depends only on which records there are (`sortBy_perm`).
- `chunks` cuts a list into pieces of at most `n`, in order, none of them
  empty (`flatten_chunks`, `chunks_ne_nil`).
-/
import Reliquary.Store.Table

namespace Reliquary.Store

open List

-- ===== sets in order

section Sets

variable {α : Type} [LinearOrder α]

theorem insertionSort_perm {l l' : List α} (h : l.Perm l') :
    l.insertionSort (· ≤ ·) = l'.insertionSort (· ≤ ·) := by
  apply List.Perm.eq_of_pairwise'
    (pairwise_insertionSort _ l) (pairwise_insertionSort _ l')
  exact (perm_insertionSort _ l).trans (h.trans (perm_insertionSort _ l').symm)

/-- The elements of a set, in order. -/
def sortSet (s : Finset α) : List α :=
  Quotient.liftOn s.1 (List.insertionSort (· ≤ ·))
    fun _ _ h => insertionSort_perm h

theorem coe_sortSet (s : Finset α) : (sortSet s : Multiset α) = s.1 := by
  obtain ⟨m, hm⟩ := s
  induction m using Quotient.inductionOn with
  | h l => exact Quotient.sound (perm_insertionSort (· ≤ ·) l)

@[simp] theorem mem_sortSet {s : Finset α} {a : α} : a ∈ sortSet s ↔ a ∈ s := by
  rw [← Multiset.mem_coe, coe_sortSet, Finset.mem_val]

theorem nodup_sortSet (s : Finset α) : (sortSet s).Nodup := by
  rw [← Multiset.coe_nodup, coe_sortSet]
  exact s.nodup

@[simp] theorem toFinset_sortSet (s : Finset α) : (sortSet s).toFinset = s := by
  ext a
  rw [mem_toFinset, mem_sortSet]

end Sets

-- ===== records in order

section Records

variable {ρ κ : Type} [LinearOrder κ] {g : ρ → κ} {rows : List ρ}

/-- Records by a column. -/
def sortBy (g : ρ → κ) (rows : List ρ) : List ρ :=
  rows.insertionSort fun a b => g a ≤ g b

theorem perm_sortBy (g : ρ → κ) (rows : List ρ) : (sortBy g rows).Perm rows :=
  perm_insertionSort _ rows

/-- Records with distinct keys have one order. -/
theorem sortBy_perm {rows rows' : List ρ} (hnd : (rows.map g).Nodup)
    (h : rows.Perm rows') : sortBy g rows = sortBy g rows' := by
  have hperm : (sortBy g rows).Perm (sortBy g rows') :=
    (perm_sortBy g rows).trans (h.trans (perm_sortBy g rows').symm)
  refine hperm.eq_of_pairwise ?_ (pairwise_orderBy g rows)
    (pairwise_orderBy g rows')
  intro a b ha hb hab hba
  have ha' := (perm_sortBy g rows).mem_iff.1 ha
  have hb' := h.mem_iff.2 ((perm_sortBy g rows').mem_iff.1 hb)
  exact eq_of_key hnd ha' hb' (le_antisymm hab hba)

theorem nodup_sortBy (hnd : (rows.map g).Nodup) :
    ((sortBy g rows).map g).Nodup :=
  ((perm_sortBy g rows).map g).nodup_iff.2 hnd

/-- In a list ordered by a column, the rows up to a bound come first. -/
theorem mem_take_countP
    (h : rows.Pairwise fun a b => g a ≤ g b) {x : ρ} (hx : x ∈ rows) {u : κ}
    (hu : g x ≤ u) : x ∈ rows.take (rows.countP (g · ≤ u)) := by
  induction rows with
  | nil => simp at hx
  | cons y rows ih =>
    obtain ⟨hy, hrows⟩ := pairwise_cons.1 h
    have hyu : g y ≤ u := by
      rcases mem_cons.1 hx with rfl | hx
      · exact hu
      · exact (hy x hx).trans hu
    rw [countP_cons_of_pos (by simpa using hyu), take_succ_cons]
    rcases mem_cons.1 hx with rfl | hx
    · exact mem_cons_self
    · exact mem_cons_of_mem _ (ih hrows hx)

/-- In a list ordered by a column, a row below another comes before it. -/
theorem mem_take_of_lt (h : rows.Pairwise fun a b => g a ≤ g b) {x y : ρ}
    {n : Nat} (hy : rows[n]? = some y) (hx : x ∈ rows) (hlt : g x < g y) :
    x ∈ rows.take n := by
  induction rows generalizing n with
  | nil => simp at hx
  | cons z rows ih =>
    obtain ⟨hz, hrows⟩ := pairwise_cons.1 h
    cases n with
    | zero =>
      -- `y` is the head, and no row is below it
      obtain rfl : z = y := by simpa using hy
      rcases mem_cons.1 hx with rfl | hx
      · exact absurd hlt (lt_irrefl _)
      · exact absurd hlt (not_lt.2 (hz x hx))
    | succ n =>
      rcases mem_cons.1 hx with rfl | hx
      · exact mem_cons_self
      · exact mem_cons_of_mem _ (ih hrows (by simpa using hy) hx)

end Records

-- ===== chunks

section Chunks

variable {α : Type}

/-- A list in pieces of at most `n`. -/
def chunks (n : Nat) (l : List α) : List (List α) :=
  (List.range ((l.length + n - 1) / n)).map fun i => (l.drop (i * n)).take n

theorem flatten_take_chunks (n : Nat) (l : List α) (k : Nat) :
    ((List.range k).map fun i => (l.drop (i * n)).take n).flatten
      = l.take (k * n) := by
  induction k with
  | zero => simp
  | succ k ih =>
    rw [range_succ, map_append, flatten_append, ih, Nat.succ_mul, take_add]
    simp

theorem flatten_chunks {n : Nat} (hn : 0 < n) (l : List α) :
    (chunks n l).flatten = l := by
  have hcover : l.length ≤ (l.length + n - 1) / n * n := by
    have h := Nat.lt_div_mul_add (a := l.length + n - 1) hn
    omega
  rw [chunks, flatten_take_chunks, take_of_length_le hcover]

theorem chunks_ne_nil {n : Nat} (hn : 0 < n) {l c : List α}
    (hc : c ∈ chunks n l) : c ≠ [] := by
  obtain ⟨i, hi, rfl⟩ := mem_map.1 hc
  have hstart : i * n < l.length := by
    have hi' := (Nat.lt_div_iff_mul_lt hn).1 (mem_range.1 hi)
    have hcomm := Nat.mul_comm n i
    omega
  intro hnil
  have hlen := congrArg List.length hnil
  rw [length_take, length_drop, length_nil] at hlen
  omega

end Chunks

end Reliquary.Store
