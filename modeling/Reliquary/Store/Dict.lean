/-
Dictionaries of amounts: keyed maps whose values are added up.

A dictionary is a keyed map (`List (κ × M)`), as in Store/Table.lean.
`addTo` is `d[k] = d.get(k, 0) + a`; `sumOn p` is what the keys in `p`
hold, `sumAt` what one key holds and `total` what all of them hold. The
readings do not need the keys to be distinct: they are sums over the
entries, so each lemma is an induction on the list, and a dictionary
built by a loop of `addTo` is read off as a sum over what the loop went
through (`sumOn_gather`).
-/
import Mathlib

namespace Reliquary.Store

open List

section Dict

variable {κ M ρ : Type} [AddCommMonoid M] {t : List (κ × M)}

/-- Add an amount to what a key holds. -/
def addTo [DecidableEq κ] (k : κ) (a : M) : List (κ × M) → List (κ × M)
  | [] => [(k, a)]
  | (k', v) :: t =>
    if k' = k then (k', v + a) :: t else (k', v) :: addTo k a t

/-- What the keys in `p` hold. -/
def sumOn (p : κ → Bool) (t : List (κ × M)) : M :=
  (t.map fun x => if p x.1 then x.2 else 0).sum

/-- What a key holds. -/
abbrev sumAt [DecidableEq κ] (t : List (κ × M)) (k : κ) : M :=
  sumOn (fun k' => decide (k' = k)) t

/-- What all keys hold. -/
abbrev total (t : List (κ × M)) : M := sumOn (fun _ => true) t

/-- A loop that adds an amount per row. -/
def gather [DecidableEq κ] (key : ρ → κ) (amount : ρ → M) (rows : List ρ)
    (t : List (κ × M)) : List (κ × M) :=
  rows.foldl (fun t r => addTo (key r) (amount r) t) t

@[simp] theorem sumOn_nil (p : κ → Bool) :
    sumOn p ([] : List (κ × M)) = 0 := rfl

@[simp] theorem sumOn_cons (p : κ → Bool) (x : κ × M) (t : List (κ × M)) :
    sumOn p (x :: t) = (if p x.1 then x.2 else 0) + sumOn p t := by
  simp [sumOn]

theorem sumOn_perm {t t' : List (κ × M)} (h : t.Perm t') (p : κ → Bool) :
    sumOn p t = sumOn p t' :=
  (h.map _).sum_eq

/-- The entries are those that pass a test and those that do not. -/
theorem sumOn_filter (p : κ → Bool) (q : κ × M → Bool) (t : List (κ × M)) :
    sumOn p (t.filter q) + sumOn p (t.filter fun x => !q x) = sumOn p t := by
  induction t with
  | nil => simp
  | cons x t ih =>
    rw [sumOn_cons, ← ih]
    by_cases hq : q x = true
    · rw [filter_cons_of_pos hq,
        filter_cons_of_neg (by simp [hq]), sumOn_cons, add_assoc]
    · rw [filter_cons_of_neg hq,
        filter_cons_of_pos (by simpa using hq), sumOn_cons,
        add_left_comm]

theorem sumOn_addTo [DecidableEq κ] (p : κ → Bool) (k : κ) (a : M)
    (t : List (κ × M)) :
    sumOn p (addTo k a t) = sumOn p t + if p k then a else 0 := by
  induction t with
  | nil => simp [addTo]
  | cons x t ih =>
    rw [addTo]
    by_cases hx : x.1 = k
    · by_cases hk : p k = true
      · simp [hx, hk, add_assoc, add_comm]
      · simp [hx, hk]
    · rw [if_neg hx, sumOn_cons, sumOn_cons, ih, add_assoc]

/-- **What a loop gathers**: what was there, and the amounts of the rows
with those keys. -/
theorem sumOn_gather [DecidableEq κ] (p : κ → Bool) (key : ρ → κ)
    (amount : ρ → M) (rows : List ρ) (t : List (κ × M)) :
    sumOn p (gather key amount rows t) = sumOn p t
        + (rows.map fun r => if p (key r) then amount r else 0).sum := by
  induction rows generalizing t with
  | nil => simp [gather]
  | cons r rows ih =>
    show sumOn p (gather key amount rows (addTo (key r) (amount r) t)) = _
    rw [ih, sumOn_addTo, map_cons, sum_cons, add_assoc]

/-- The keys after an addition. -/
theorem mem_addTo [DecidableEq κ] {k : κ} {a : M} {x : κ × M}
    (h : x ∈ addTo k a t) :
    x ∈ t ∨ x.1 = k ∧ (x.2 = a ∨ ∃ v, (k, v) ∈ t ∧ x.2 = v + a) := by
  induction t with
  | nil =>
    rw [addTo, mem_singleton] at h
    exact .inr ⟨by rw [h], .inl (by rw [h])⟩
  | cons y t ih =>
    rw [addTo] at h
    by_cases hy : y.1 = k
    · rw [if_pos hy] at h
      rcases mem_cons.1 h with h | h
      · refine .inr ⟨by rw [h]; exact hy, .inr ⟨y.2, ?_, by rw [h]⟩⟩
        rw [← hy]
        exact mem_cons_self
      · exact .inl (mem_cons_of_mem _ h)
    · rw [if_neg hy] at h
      rcases mem_cons.1 h with h | h
      · rw [h]
        exact .inl mem_cons_self
      · rcases ih h with h | ⟨hk, h | ⟨v, hv, h⟩⟩
        · exact .inl (mem_cons_of_mem _ h)
        · exact .inr ⟨hk, .inl h⟩
        · exact .inr ⟨hk, .inr ⟨v, mem_cons_of_mem _ hv, h⟩⟩

/-- A key of the dictionary is one that was there or a row's. -/
theorem key_gather [DecidableEq κ] {key : ρ → κ} {amount : ρ → M}
    {rows : List ρ} :
    ∀ {t : List (κ × M)} {x : κ × M}, x ∈ gather key amount rows t →
      (∃ y ∈ t, y.1 = x.1) ∨ ∃ r ∈ rows, key r = x.1 := by
  induction rows with
  | nil => exact fun h => .inl ⟨_, h, rfl⟩
  | cons r rows ih =>
    intro t x h
    rcases ih (t := addTo (key r) (amount r) t) h
      with ⟨y, hy, hyx⟩ | ⟨s, hs, hsx⟩
    · rcases mem_addTo hy with hy | ⟨hk, -⟩
      · exact .inl ⟨y, hy, hyx⟩
      · exact .inr ⟨r, mem_cons_self, hk.symm.trans hyx⟩
    · exact .inr ⟨s, mem_cons_of_mem _ hs, hsx⟩

/-- The keys stay distinct. -/
theorem nodup_addTo [DecidableEq κ] (k : κ) (a : M) (h : (t.map Prod.fst).Nodup) :
    ((addTo k a t).map Prod.fst).Nodup := by
  induction t with
  | nil => simp [addTo]
  | cons x t ih =>
    rw [map_cons, nodup_cons] at h
    rw [addTo]
    by_cases hx : x.1 = k
    · rw [if_pos hx, map_cons, nodup_cons]
      exact h
    · rw [if_neg hx, map_cons, nodup_cons]
      refine ⟨?_, ih h.2⟩
      intro hmem
      obtain ⟨y, hy, hyx⟩ := mem_map.1 hmem
      rcases mem_addTo hy with hy | ⟨hk, -⟩
      · exact h.1 (mem_map.2 ⟨y, hy, hyx⟩)
      · exact hx (hyx.symm.trans hk)

theorem nodup_gather [DecidableEq κ] (key : ρ → κ) (amount : ρ → M)
    (rows : List ρ) : ∀ {t : List (κ × M)}, (t.map Prod.fst).Nodup →
      ((gather key amount rows t).map Prod.fst).Nodup := by
  induction rows with
  | nil => exact fun h => h
  | cons r rows ih => exact fun h => ih (nodup_addTo _ _ h)

/-- A key without an entry holds nothing. -/
theorem sumAt_of_not_mem [DecidableEq κ] {k : κ} (h : k ∉ t.map Prod.fst) :
    sumAt t k = 0 := by
  induction t with
  | nil => rfl
  | cons x t ih =>
    rw [map_cons, mem_cons, not_or] at h
    rw [sumAt, sumOn_cons, if_neg (by simpa using Ne.symm h.1), zero_add]
    exact ih h.2

/-- A dictionary without the values that fail a test. -/
theorem sumAt_filter_value [DecidableEq κ] {q : M → Bool} (hq : q 0 = false)
    (hnd : (t.map Prod.fst).Nodup) (k : κ) : sumAt (t.filter fun x => q x.2) k
      = if q (sumAt t k) then sumAt t k else 0 := by
  induction t with
  | nil => simp [hq]
  | cons x t ih =>
    obtain ⟨hx, hnd⟩ := nodup_cons.1 hnd
    by_cases hk : x.1 = k
    · -- nothing after `x` has its key
      have hrest : sumAt t k = 0 := sumAt_of_not_mem (hk ▸ hx)
      have hrest' : sumAt (t.filter fun x => q x.2) k = 0 :=
        sumAt_of_not_mem fun hm => hx (hk ▸ (filter_sublist.map _).mem hm)
      cases hv : q x.2 <;> simp_all
    · cases hv : q x.2 <;> simp_all

/-- What the keys of a part of the entries hold, each entry changed by
`f`. -/
theorem sumOn_part [DecidableEq κ] {t part rest : List (κ × M)}
    (h : t.Perm (part ++ rest)) (hnd : (t.map Prod.fst).Nodup) (f : M → M) :
    sumOn (fun k => decide (k ∈ part.map Prod.fst))
        (t.map fun x => (x.1, f x.2)) = (part.map fun x => f x.2).sum := by
  have hdisj : ∀ x ∈ rest, x.1 ∉ part.map Prod.fst := by
    rw [(h.map _).nodup_iff, map_append] at hnd
    exact fun x hx hm => disjoint_of_nodup_append hnd hm (mem_map_of_mem hx)
  rw [sumOn_perm (h.map _), sumOn, map_append, map_append,
    sum_append, map_map, map_map,
    sum_eq_zero (l := rest.map _), add_zero]
  · refine congrArg List.sum (map_congr_left fun x hx => ?_)
    exact if_pos (by simpa using ⟨x.2, hx⟩)
  · intro v hv
    obtain ⟨x, hx, rfl⟩ := mem_map.1 hv
    exact if_neg (by simpa using hdisj x hx)

/-- What the key of an entry holds, each entry changed by `f`. -/
theorem sumAt_map_of_mem [DecidableEq κ] {x : κ × M}
    (hnd : (t.map Prod.fst).Nodup) (hx : x ∈ t) (f : M → M) :
    sumAt (t.map fun y => (y.1, f y.2)) x.1 = f x.2 := by
  obtain ⟨pre, post, rfl⟩ := append_of_mem hx
  have hperm : (pre ++ x :: post).Perm ([x] ++ (pre ++ post)) :=
    perm_middle
  simpa using sumOn_part hperm hnd f

end Dict

-- ===== over the order

section Ordered

variable {κ ρ : Type} {t : List (κ × ℚ)}

/-- No entry is negative. -/
def Nonneg (t : List (κ × ℚ)) : Prop := ∀ x ∈ t, 0 ≤ x.2

theorem Nonneg.addTo [DecidableEq κ] (h : Nonneg t) {k : κ} {a : ℚ} (ha : 0 ≤ a) :
    Nonneg (addTo k a t) := by
  intro x hx
  rcases mem_addTo hx with hx | ⟨-, hx | ⟨v, hv, hx⟩⟩
  · exact h x hx
  · rw [hx]
    exact ha
  · rw [hx]
    exact add_nonneg (h _ hv) ha

theorem Nonneg.gather [DecidableEq κ] {key : ρ → κ} {amount : ρ → ℚ}
    {rows : List ρ} (hrows : ∀ r ∈ rows, 0 ≤ amount r) :
    ∀ {t : List (κ × ℚ)}, Nonneg t → Nonneg (gather key amount rows t) := by
  induction rows with
  | nil => exact fun h => h
  | cons r rows ih =>
    intro t h
    exact ih (fun s hs => hrows s (mem_cons_of_mem _ hs))
      (h.addTo (hrows r mem_cons_self))

theorem Nonneg.filter (h : Nonneg t) (q : κ × ℚ → Bool) : Nonneg (t.filter q) :=
  fun x hx => h x (mem_of_mem_filter hx)

theorem Nonneg.sumOn (h : Nonneg t) (p : κ → Bool) : 0 ≤ sumOn p t := by
  refine sum_nonneg ?_
  intro v hv
  obtain ⟨x, hx, rfl⟩ := mem_map.1 hv
  split
  · exact h x hx
  · exact le_refl 0

/-- Some of the entries hold at most what all of them do. -/
theorem Nonneg.sumOn_filter_le (h : Nonneg t) (p : κ → Bool) (q : κ × ℚ → Bool) :
    Store.sumOn p (t.filter q) ≤ Store.sumOn p t := by
  have hrest := (h.filter fun x => !q x).sumOn p
  have hsplit := sumOn_filter p q t
  linarith

/-- Every entry times a factor. -/
theorem sumOn_scale (p : κ → Bool) (c : ℚ) (t : List (κ × ℚ)) :
    sumOn p (t.map fun x => (x.1, x.2 * c)) = sumOn p t * c := by
  induction t with
  | nil => simp
  | cons x t ih =>
    rw [map_cons, sumOn_cons, sumOn_cons, ih, add_mul]
    by_cases hx : p x.1 = true
    · simp [hx]
    · simp [hx]

/-- Some of the entries times a factor. -/
theorem sumOn_scaleWhere (p : κ → Bool) (q : κ → Bool) (c : ℚ)
    (t : List (κ × ℚ)) :
    sumOn p (t.map fun x => if q x.1 then (x.1, x.2 * c) else x)
      = sumOn p (t.filter fun x => q x.1) * c
        + sumOn p (t.filter fun x => !q x.1) := by
  induction t with
  | nil => simp
  | cons x t ih =>
    rw [map_cons, sumOn_cons, ih]
    by_cases hq : q x.1 = true
    · rw [if_pos hq, filter_cons_of_pos (by exact hq),
        filter_cons_of_neg (by simp [hq]), sumOn_cons]
      by_cases hp : p x.1 = true
      · simp only [hp, if_true]
        ring
      · simp only [hp]
        ring_nf
        simp
    · rw [if_neg hq, filter_cons_of_neg (by exact hq),
        filter_cons_of_pos (by simpa using hq), sumOn_cons]
      ring

/-- Every entry changed to no more than it was. -/
theorem sumOn_map_le {f : κ × ℚ → κ × ℚ} (hkey : ∀ x ∈ t, (f x).1 = x.1)
    (hle : ∀ x ∈ t, (f x).2 ≤ x.2) (p : κ → Bool) :
    sumOn p (t.map f) ≤ sumOn p t := by
  unfold sumOn
  rw [map_map]
  refine sum_le_sum ?_
  intro x hx
  show (if p (f x).1 then (f x).2 else 0) ≤ if p x.1 then x.2 else 0
  rw [hkey x hx]
  split
  · exact hle x hx
  · exact le_refl 0

/-- The positive entries hold what all of them do. -/
theorem Nonneg.sumOn_pos (h : Nonneg t) (p : κ → Bool) :
    Store.sumOn p (t.filter fun x => decide (0 < x.2)) = Store.sumOn p t := by
  rw [← sumOn_filter p (fun x => decide (0 < x.2)) t, left_eq_add]
  refine sum_eq_zero ?_
  intro v hv
  obtain ⟨x, hx, rfl⟩ := mem_map.1 hv
  obtain ⟨hx, hpos⟩ := mem_filter.1 hx
  have hz : x.2 = 0 := le_antisymm (by simpa using hpos) (h x hx)
  simp [hz]

end Ordered

-- ===== over counts

section Counts

variable {κ β ρ : Type} [DecidableEq κ]

/-- A sum over the values of distinct keys, as one over the keys. -/
theorem sum_values {t : List (κ × Nat)} (hnd : (t.map Prod.fst).Nodup)
    {g : Nat → Nat} (hg : g 0 = 0) {F : Finset κ} (hF : ∀ x ∈ t, x.1 ∈ F) :
    (t.map fun x => g x.2).sum = ∑ k ∈ F, g (sumAt t k) := by
  induction t with
  | nil => simp [hg]
  | cons x t ih =>
    rw [map_cons, nodup_cons] at hnd
    have hx : x.1 ∈ F := hF x mem_cons_self
    have hhead : sumAt (x :: t) x.1 = x.2 := by
      rw [sumAt, sumOn_cons, if_pos (by simp)]
      show x.2 + sumAt t x.1 = x.2
      rw [sumAt_of_not_mem hnd.1, add_zero]
    have htail : ∀ k ∈ F.erase x.1, g (sumAt (x :: t) k) = g (sumAt t k) := by
      intro k hk
      have hne := Finset.ne_of_mem_erase hk
      rw [sumAt, sumOn_cons, if_neg (by simpa using Ne.symm hne), zero_add]
    rw [map_cons, sum_cons, ih hnd.2 fun y hy => hF y (mem_cons_of_mem _ hy),
      ← Finset.add_sum_erase F _ hx, ← Finset.add_sum_erase F _ hx, hhead,
      sumAt_of_not_mem hnd.1, hg, zero_add, Finset.sum_congr rfl htail]

/-- A counting loop counts. -/
theorem sumAt_gather_count (rows : List κ) (k : κ) :
    sumAt (gather id (fun _ => (1 : Nat)) rows []) k = rows.count k := by
  rw [sumAt, sumOn_gather, sumOn_nil, zero_add]
  induction rows with
  | nil => rfl
  | cons r rows ih =>
    rw [map_cons, sum_cons, count_cons, ih, add_comm]
    by_cases hr : r = k
    · simp [hr]
    · simp [hr]

/-- What a counting loop's values sum to, over the keys it met. -/
theorem sum_gather_values (rows : List κ) {g : Nat → Nat} (hg : g 0 = 0) :
    ((gather id (fun _ => 1) rows []).map fun x => g x.2).sum
      = ∑ k ∈ rows.toFinset, g (rows.count k) := by
  have hnd : ((gather id (fun _ => 1) rows ([] : List (κ × Nat))).map
      Prod.fst).Nodup := nodup_gather _ _ _ nodup_nil
  rw [sum_values hnd hg fun x hx => ?_]
  · refine Finset.sum_congr rfl fun k _ => ?_
    rw [sumAt_gather_count]
  · rcases key_gather hx with ⟨y, hy, -⟩ | ⟨r, hr, hrx⟩
    · cases hy
    · rw [← hrx]
      exact mem_toFinset.2 hr

omit [DecidableEq κ] in
/-- A sum over the entries of distinct keys, as one over the keys. -/
theorem sum_entries [BEq κ] [LawfulBEq κ] {t : List (κ × β)}
    (hnd : (t.map Prod.fst).Nodup) {F : Finset κ} (hF : ∀ x ∈ t, x.1 ∈ F)
    (g : κ → β → Nat) : (t.map fun x => g x.1 x.2).sum
      = ∑ k ∈ F, ((t.lookup k).map (g k)).getD 0 := by
  classical
  induction t with
  | nil => simp
  | cons x t ih =>
    obtain ⟨a, b⟩ := x
    rw [map_cons, nodup_cons] at hnd
    have ha : a ∈ F := hF (a, b) mem_cons_self
    have hnone : t.lookup a = none := by
      rw [lookup_eq_none_iff]
      intro y hy
      exact bne_iff_ne.2 fun heq => hnd.1 (mem_map.2 ⟨y, hy, heq.symm⟩)
    have htail : ∀ k ∈ F.erase a, ((((a, b) :: t).lookup k).map (g k)).getD 0
          = ((t.lookup k).map (g k)).getD 0 := by
      intro k hk
      have hne := Finset.ne_of_mem_erase hk
      rw [List.lookup_cons, show (k == a) = false by simpa using hne]
    rw [map_cons, sum_cons, ih hnd.2 fun y hy => hF y (mem_cons_of_mem _ hy),
      ← Finset.add_sum_erase F _ ha, ← Finset.add_sum_erase F _ ha, hnone,
      Finset.sum_congr rfl htail]
    simp

end Counts

end Reliquary.Store
