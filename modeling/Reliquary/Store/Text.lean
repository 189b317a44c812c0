/-
Texts with separators: the bounded split, and when it reads back what
was joined.

`splitMax sep n` cuts at the first `n` separators, so the last piece may
hold more of them. A piece without the separator is read back by the
first cut (`splitMax_append`), and two joined texts whose first pieces
are free of it are equal only piece by piece (`append_sep_inj`). A
decimal number is a list of digits, so it holds no separator that is not
a digit (`not_mem_repr`).
-/
import Mathlib

namespace Reliquary.Store

section Split

variable {sep : Char} {a : List Char}

/-- Cut at the first `n` separators. -/
def splitMax (sep : Char) : Nat → List Char → List (List Char)
  | 0, cs => [cs]
  | n + 1, cs =>
    if sep ∈ cs then
      cs.takeWhile (· ≠ sep) :: splitMax sep n (cs.dropWhile (· ≠ sep)).tail
    else [cs]

theorem takeWhile_sep (ha : sep ∉ a) (b : List Char) :
    (a ++ sep :: b).takeWhile (· ≠ sep) = a := by
  induction a with
  | nil => simp
  | cons c a ih =>
    rw [List.mem_cons, not_or] at ha
    rw [List.cons_append, List.takeWhile_cons_of_pos, ih ha.2]
    simpa using Ne.symm ha.1

theorem dropWhile_sep (ha : sep ∉ a) (b : List Char) :
    (a ++ sep :: b).dropWhile (· ≠ sep) = sep :: b := by
  induction a with
  | nil => simp
  | cons c a ih =>
    rw [List.mem_cons, not_or] at ha
    rw [List.cons_append, List.dropWhile_cons_of_pos, ih ha.2]
    simpa using Ne.symm ha.1

/-- The first cut reads back a first piece without the separator. -/
theorem splitMax_append (ha : sep ∉ a) (n : Nat) (b : List Char) :
    splitMax sep (n + 1) (a ++ sep :: b) = a :: splitMax sep n b := by
  rw [splitMax, if_pos (by simp), takeWhile_sep ha, dropWhile_sep ha,
    List.tail_cons]

/-- Joined texts are equal piece by piece. -/
theorem append_sep_inj {a a' b b' : List Char} (ha : sep ∉ a) (ha' : sep ∉ a')
    (h : a ++ sep :: b = a' ++ sep :: b') : a = a' ∧ b = b' := by
  have hfirst := takeWhile_sep ha b
  rw [h, takeWhile_sep ha'] at hfirst
  subst hfirst
  injection List.append_cancel_left h with _ hb
  exact ⟨rfl, hb⟩

end Split

/-- A decimal number holds digits only. -/
theorem not_mem_repr {c : Char} (hc : c.isDigit = false) (n : Nat) :
    c ∉ n.repr.toList := by
  intro hmem
  rw [Nat.repr_eq_ofList_toDigits, String.toList_ofList] at hmem
  have hdigit := Nat.isDigit_of_mem_toDigits (by decide) (by decide) hmem
  rw [hc] at hdigit
  cases hdigit

/-- The pieces as strings. -/
def splitText (sep : Char) (n : Nat) (text : String) : List String :=
  (splitMax sep n text.toList).map String.ofList

end Reliquary.Store
