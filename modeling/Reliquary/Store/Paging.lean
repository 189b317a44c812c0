/-
Reading a growing table page by page.

A table whose rows carry an increasing number is read after a cursor, a
bounded number of rows at a time; the cursor becomes the number of the
last row read. `page_received` is the theory: what was received before
the page, followed by the page, is exactly the rows numbered up to the
new cursor. So a reader that appends every page to what it has never
misses a row and never has one twice, whatever the page sizes.
-/
import Mathlib

namespace Reliquary.Store

open List

variable {α : Type} {g : α → Nat} {l : List α}

/-- The rows' numbers increase. -/
def Increasing (g : α → Nat) (l : List α) : Prop :=
  l.Pairwise fun x y => g x < g y

/-- The rows numbered up to `c`. -/
def upTo (g : α → Nat) (c : Nat) (l : List α) : List α :=
  l.filter fun x => decide (g x ≤ c)

/-- The rows numbered past `c`. -/
def past (g : α → Nat) (c : Nat) (l : List α) : List α :=
  l.filter fun x => decide (c < g x)

/-- The page of `n` rows after `c`. -/
def page (g : α → Nat) (c n : Nat) (l : List α) : List α :=
  (past g c l).take n

/-- The cursor after a page. -/
def nextCursor (g : α → Nat) (c : Nat) (rows : List α) : Nat :=
  (rows.getLast?.map g).getD c

theorem Increasing.filter (h : Increasing g l)
    (p : α → Bool) : Increasing g (l.filter p) :=
  List.Pairwise.filter p h

/-- A table is its rows up to the cursor, then those past it. -/
theorem upTo_append_past (h : Increasing g l) (c : Nat) :
    upTo g c l ++ past g c l = l := by
  induction l with
  | nil => rfl
  | cons x l ih =>
    obtain ⟨hx, hl⟩ := pairwise_cons.1 h
    have ih := ih hl
    unfold upTo past at ih ⊢
    rw [filter_cons, filter_cons]
    by_cases hc : g x ≤ c
    · rw [if_pos (by simpa using hc),
        if_neg (by simpa using hc), cons_append, ih]
    · -- every later row is past the cursor too
      have hnone : l.filter (fun y => decide (g y ≤ c)) = [] := by
        rw [filter_eq_nil_iff]
        intro y hy
        have := hx y hy
        simp only [decide_eq_true_eq]
        omega
      rw [hnone] at ih
      rw [if_neg (by simpa using hc),
        if_pos (by simpa using hc), hnone, nil_append]
      rw [nil_append] at ih
      rw [ih]

/-- A first page is the rows up to its last row. -/
theorem take_eq_upTo (h : Increasing g l) {n : Nat} {x : α}
    (hx : (l.take n).getLast? = some x) : l.take n = upTo g (g x) l := by
  obtain ⟨front, hfront⟩ := getLast?_eq_some_iff.1 hx
  have hcut : (l.take n ++ l.drop n).Pairwise fun x y => g x < g y := by
    rw [take_append_drop]
    exact h
  obtain ⟨htake, -, hcross⟩ := pairwise_append.1 hcut
  have hin : upTo g (g x) (l.take n) = l.take n := by
    unfold upTo
    rw [filter_eq_self]
    intro y hy
    rw [hfront] at hy htake
    rcases mem_append.1 hy with hy | hy
    · have := (pairwise_append.1 htake).2.2 y hy x (mem_singleton.2 rfl)
      simp only [decide_eq_true_eq]
      omega
    · rw [mem_singleton.1 hy]
      simp
  have hout : upTo g (g x) (l.drop n) = [] := by
    unfold upTo
    rw [filter_eq_nil_iff]
    intro y hy
    have hxl : x ∈ l.take n := by
      rw [hfront]
      exact mem_concat_self
    have := hcross x hxl y hy
    simp only [decide_eq_true_eq]
    omega
  calc l.take n = upTo g (g x) (l.take n) ++ upTo g (g x) (l.drop n) := by
        rw [hin, hout, append_nil]
    _ = upTo g (g x) (l.take n ++ l.drop n) := by
        unfold upTo
        rw [filter_append]
    _ = upTo g (g x) l := by rw [take_append_drop]

/-- **A page adds exactly the rows up to the new cursor.** -/
theorem page_received (h : Increasing g l) (c n : Nat) :
    upTo g c l ++ page g c n l = upTo g (nextCursor g c (page g c n l)) l := by
  unfold nextCursor
  cases hlast : (page g c n l).getLast? with
  | none =>
    rw [getLast?_eq_none_iff] at hlast
    rw [hlast, append_nil]
    rfl
  | some x =>
    have hpage : page g c n l = upTo g (g x) (past g c l) :=
      take_eq_upTo (h.filter _) hlast
    have hxc : c < g x := by
      have hmem : x ∈ past g c l :=
        mem_of_mem_take (mem_of_getLast? hlast)
      simpa using (mem_filter.1 hmem).2
    have hlow : upTo g (g x) (upTo g c l) = upTo g c l := by
      unfold upTo
      rw [filter_eq_self]
      intro y hy
      have := (mem_filter.1 hy).2
      simp only [decide_eq_true_eq] at this ⊢
      omega
    calc upTo g c l ++ page g c n l
        = upTo g (g x) (upTo g c l) ++ upTo g (g x) (past g c l) := by
          rw [hlow, hpage]
      _ = upTo g (g x) (upTo g c l ++ past g c l) := by
          unfold upTo
          rw [filter_append]
      _ = upTo g (g x) l := by rw [upTo_append_past h]

/-- A page that is not full reached the end. -/
theorem page_all (h : Increasing g l) {c n : Nat}
    (hn : (past g c l).length ≤ n) : upTo g c l ++ page g c n l = l := by
  unfold page
  rw [take_of_length_le hn, upTo_append_past h]

/-- The cursor never moves back. -/
theorem le_nextCursor (c n : Nat) (l : List α) :
    c ≤ nextCursor g c (page g c n l) := by
  unfold nextCursor
  cases hlast : (page g c n l).getLast? with
  | none => exact le_refl c
  | some x =>
    have hmem : x ∈ past g c l :=
      mem_of_mem_take (mem_of_getLast? hlast)
    have hx := (mem_filter.1 hmem).2
    simp only [decide_eq_true_eq] at hx
    exact le_of_lt hx

/-- The cursor stays within any bound of the rows. -/
theorem nextCursor_le {c n m : Nat} (hc : c ≤ m)
    (hl : ∀ x ∈ l, g x ≤ m) : nextCursor g c (page g c n l) ≤ m := by
  unfold nextCursor
  cases hlast : (page g c n l).getLast? with
  | none => exact hc
  | some x =>
    have hmem : x ∈ past g c l :=
      mem_of_mem_take (mem_of_getLast? hlast)
    exact hl x (mem_filter.1 hmem).1

end Reliquary.Store
