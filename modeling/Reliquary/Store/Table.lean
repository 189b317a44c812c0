/-
Tables as lists of rows: the fragment of SQL and of dictionary
updates that a component keeping its state in keyed tables needs.

# The shapes

- A keyed map (`List (κ × β)`): a dictionary, or a table read only
  through its primary key. `put` is the upsert — replace in place, or
  append — and `lookup_put` is its whole theory: later proofs never
  unfold it.
- A row table (`List ρ`): `updateWhere` and `deleteWhere` are SQL's
  `UPDATE … WHERE` and `DELETE … WHERE`; an insert is an append, its
  constraint check is the caller's.

# What is proven

Membership through each update, and the two facts a uniqueness
argument over a table consumes: a key column stays duplicate-free
through an update that keeps the key and through a delete, and
`Unique p` (at most one row satisfies `p`, the meaning of a partial
unique index) is kept by every update whose new matches were matches
already.
-/
import Mathlib

namespace Reliquary.Store

open List Option

-- ===== keyed maps

/-- A property of what a read gives, if it gives anything. -/
instance decidableRead {β : Type} {P : β → Prop} [DecidablePred P] :
    (o : Option β) → Decidable (∀ b, o = some b → P b)
  | none => isTrue nofun
  | some b => decidable_of_iff (P b)
      ⟨fun h _ he => some.inj he ▸ h, fun h => h b rfl⟩

/-- What holds of the value read holds of every value it may be. -/
theorem of_read {β : Type} {o : Option β} {b : β} {P : β → Prop}
    (h : o = some b) (hb : P b) : ∀ b', o = some b' → P b' :=
  fun _ h' => some.inj (h.symm.trans h') ▸ hb

variable {α : Type}

/-- A row of a table with one more at its end. -/
theorem mem_snoc {x a : α} {l : List α} : x ∈ l ++ [a] ↔ x ∈ l ∨ x = a := by
  rw [mem_append, mem_singleton]

theorem forall_snoc {P : α → Prop} {a : α} {l : List α} (h : ∀ x ∈ l, P x)
    (ha : P a) : ∀ x ∈ l ++ [a], P x :=
  fun x hx => (mem_snoc.1 hx).elim (h x) (· ▸ ha)

/-- A loop with an invariant of what is left to do. -/
theorem foldl_rest {β : Type} {f : β → α → β} {P : β → List α → Prop}
    (hstep : ∀ b a rest, P b (a :: rest) → P (f b a) rest) :
    ∀ l b, P b l → P (l.foldl f b) []
  | [], _, h => h
  | a :: l, b, h => foldl_rest hstep l _ (hstep b a l h)

/-- A loop whose body keeps a property has it once one item set it. -/
theorem foldl_sets {β : Type} {f : β → α → β} {P : β → Prop}
    (hkeep : ∀ b a, P b → P (f b a)) {l : List α} {a : α} (ha : a ∈ l)
    (hset : ∀ b, P (f b a)) (b : β) : P (l.foldl f b) := by
  obtain ⟨pre, post, rfl⟩ := append_of_mem ha
  rw [foldl_append, foldl_cons]
  exact foldlRecOn post f (hset _) fun b hb a' _ => hkeep b a' hb

/-- A list without duplicates takes one that is not in it. -/
theorem nodup_snoc {a : α} {l : List α} (h : l.Nodup) (ha : a ∉ l) :
    (l ++ [a]).Nodup :=
  h.append (nodup_singleton a) (by simpa using ha)

theorem pairwise_snoc {R : α → α → Prop} {a : α} {l : List α} (h : l.Pairwise R)
    (ha : ∀ x ∈ l, R x a) : (l ++ [a]).Pairwise R :=
  pairwise_append.2 ⟨h, pairwise_singleton _ _, by simpa using ha⟩

section Map

variable {κ β : Type} [DecidableEq κ] {t : List (κ × β)} {k : κ} {v : β}

/-- Upsert: the value of `k` becomes `v`, in place when `k` is there. -/
def put (k : κ) (v : β) : List (κ × β) → List (κ × β)
  | [] => [(k, v)]
  | (k', v') :: t => if k' = k then (k, v) :: t else (k', v') :: put k v t

omit [DecidableEq κ] in
/-- A row that follows a table of other keys is a new one. -/
theorem fresh_key {x : κ × β} {r : List (κ × β)}
    (h : ((t ++ x :: r).map Prod.fst).Nodup) : x.1 ∉ t.map Prod.fst := by
  rw [map_append, map_cons] at h
  exact fun hm => (nodup_append.1 h).2.2 _ hm _ mem_cons_self rfl

/-- The rows after an upsert: the new one and old ones. -/
theorem mem_put {x : κ × β} (h : x ∈ put k v t) : x = (k, v) ∨ x ∈ t := by
  induction t with
  | nil =>
    rw [put, mem_singleton] at h
    exact .inl h
  | cons p t ih =>
    obtain ⟨a, b⟩ := p
    rw [put] at h
    split at h
    · rcases mem_cons.1 h with h | h
      · exact .inl h
      · exact .inr (mem_cons_of_mem _ h)
    · rcases mem_cons.1 h with rfl | h
      · exact .inr mem_cons_self
      · rcases ih h with h | h
        · exact .inl h
        · exact .inr (mem_cons_of_mem _ h)

theorem forall_put {P : κ × β → Prop} (h : ∀ x ∈ t, P x) (hk : P (k, v)) :
    ∀ x ∈ put k v t, P x := by
  intro x hx
  rcases mem_put hx with rfl | hx
  · exact hk
  · exact h x hx

/-- The keys after an upsert. -/
theorem keys_put (k : κ) (v : β) (t : List (κ × β)) : (put k v t).map Prod.fst
      = if k ∈ t.map Prod.fst then t.map Prod.fst
        else t.map Prod.fst ++ [k] := by
  induction t with
  | nil => rfl
  | cons p t ih =>
    obtain ⟨a, b⟩ := p
    rw [put]
    by_cases ha : a = k
    · rw [if_pos ha, map_cons, map_cons, ha, if_pos mem_cons_self]
    · rw [if_neg ha, map_cons, map_cons, ih]
      by_cases hk : k ∈ t.map Prod.fst
      · rw [if_pos hk, if_pos (mem_cons_of_mem _ hk)]
      · have hne : ¬k ∈ a :: t.map Prod.fst := by
          intro hmem
          rcases mem_cons.1 hmem with heq | hmem
          · exact ha heq.symm
          · exact hk hmem
        rw [if_neg hk, if_neg hne, cons_append]

theorem nodup_keys_put (k : κ) (v : β)
    (hnd : (t.map Prod.fst).Nodup) : ((put k v t).map Prod.fst).Nodup := by
  rw [keys_put]
  split
  · exact hnd
  · rename_i hk
    exact nodup_snoc hnd hk

/-- An upsert of a key that is not there appends. -/
theorem put_new (k : κ) (v : β) (t : List (κ × β))
    (h : k ∉ t.map Prod.fst) : put k v t = t ++ [(k, v)] := by
  induction t with
  | nil => rfl
  | cons p t ih =>
    rw [map_cons, mem_cons, not_or] at h
    rw [put, if_neg (Ne.symm h.1), ih h.2, cons_append]

variable [BEq κ] [LawfulBEq κ]

/-- A read at a key, split on the head row's key. -/
theorem lookup_cons (k k' : κ) (v : β) (t : List (κ × β)) :
    ((k, v) :: t).lookup k' = if k' = k then some v else t.lookup k' := by
  rw [List.lookup_cons]
  by_cases h : k' = k
  · rw [if_pos h, show (k' == k) = true by simpa using h]
  · rw [if_neg h, show (k' == k) = false by simpa using h]

/-- A read after an upsert. -/
@[simp] theorem lookup_put (k k' : κ) (v : β) (t : List (κ × β)) :
    (put k v t).lookup k' = if k' = k then some v else t.lookup k' := by
  induction t with
  | nil =>
    rw [put, lookup_cons]
  | cons p t ih =>
    obtain ⟨a, b⟩ := p
    rw [put]
    by_cases ha : a = k
    · rw [if_pos ha, lookup_cons, lookup_cons]
      by_cases h : k' = k
      · rw [if_pos h, if_pos h]
      · rw [if_neg h, if_neg h, if_neg (ha ▸ h)]
    · rw [if_neg ha, lookup_cons, lookup_cons, ih]
      by_cases h : k' = k
      · rw [if_pos h, if_neg (h ▸ Ne.symm ha), if_pos h]
      · rw [if_neg h, if_neg h]

variable {k' : κ}

/-- What a read after an upsert found is the new value or an old one. -/
theorem lookup_put_some {k : κ} {v x : β} (h : (put k v t).lookup k' = some x) :
    k' = k ∧ x = v ∨ k' ≠ k ∧ t.lookup k' = some x := by
  rw [lookup_put] at h
  split at h
  · next hk => exact .inl ⟨hk, (some.inj h).symm⟩
  · next hk => exact .inr ⟨hk, h⟩

/-- An upsert of a new key changes no value. -/
theorem lookup_put_new {x : β} (hk : t.lookup k = none) (v : β)
    (h : t.lookup k' = some x) : (put k v t).lookup k' = some x := by
  have hne : k' ≠ k := by
    rintro rfl
    simp [hk] at h
  rw [lookup_put, if_neg hne, h]

theorem forall_lookup_put {P : κ → β → Prop}
    (h : ∀ k' x, t.lookup k' = some x → P k' x) (hk : P k v) :
    ∀ k' x, (put k v t).lookup k' = some x → P k' x := by
  intro k' x hx
  rcases lookup_put_some hx with ⟨rfl, rfl⟩ | ⟨-, hx⟩
  · exact hk
  · exact h k' x hx

/-- A read of the rows whose keys pass. -/
theorem lookup_filterKey (q : κ → Bool) (k : κ) (t : List (κ × β)) :
    (t.filter fun x => q x.1).lookup k = if q k then t.lookup k else none := by
  induction t with
  | nil => simp
  | cons x t ih =>
    obtain ⟨a, b⟩ := x
    rw [filter_cons]
    by_cases hq : q a = true
    · rw [if_pos hq, lookup_cons, lookup_cons, ih]
      by_cases hk : k = a
      · rw [if_pos hk, if_pos hk, hk, if_pos hq]
      · rw [if_neg hk, if_neg hk]
    · rw [if_neg hq, ih, lookup_cons]
      by_cases hk : k = a
      · rw [hk, if_neg hq, if_neg hq]
      · rw [if_neg hk]

/-- A read after a removal of another key's rows. -/
theorem lookup_remove_ne {k : κ} (h : k' ≠ k) (t : List (κ × β)) :
    (t.filter fun p => p.1 != k).lookup k' = t.lookup k' := by
  rw [lookup_filterKey (· != k), if_pos (bne_iff_ne.2 h)]

/-- A read after a removal of the key's own rows. -/
theorem lookup_remove_self (k : κ)
    (t : List (κ × β)) : (t.filter fun p => p.1 != k).lookup k = none := by
  rw [lookup_filterKey (· != k), if_neg (by simp)]

/-- What is read after a removal was there before. -/
theorem lookup_remove_some {k : κ} {v : β}
    (h : (t.filter fun p => p.1 != k).lookup k' = some v) :
    k' ≠ k ∧ t.lookup k' = some v := by
  rw [lookup_filterKey (· != k), ite_none_right_eq_some, bne_iff_ne] at h
  exact h

/-- A key without a row. -/
theorem lookup_none (h : k ∉ t.map Prod.fst) : t.lookup k = none := by
  rw [lookup_eq_none_iff]
  intro x hx
  exact bne_iff_ne.2 fun heq => h (heq ▸ List.mem_map_of_mem hx)

/-- A read of a table whose values are mapped. -/
theorem lookup_mapValues {γ : Type} (g : κ → β → γ) (k : κ) (t : List (κ × β)) :
    (t.map fun x => (x.1, g x.1 x.2)).lookup k = (t.lookup k).map (g k) := by
  induction t with
  | nil => rfl
  | cons x t ih =>
    obtain ⟨a, b⟩ := x
    rw [map_cons, lookup_cons, lookup_cons, ih]
    by_cases hk : k = a
    · rw [if_pos hk, if_pos hk, hk, map_some]
    · rw [if_neg hk, if_neg hk]

/-- A key of a table made from its keys. -/
theorem lookup_map_self {f : κ → β} {l : List κ}
    (h : k ∈ l) : (l.map fun x => (x, f x)).lookup k = some (f k) := by
  induction l with
  | nil => cases h
  | cons x l ih =>
    rw [map_cons, lookup_cons]
    by_cases hk : k = x
    · rw [if_pos hk, hk]
    · rw [if_neg hk]
      exact ih ((mem_cons.1 h).resolve_left hk)

/-- `lookup` reads a row that is there. -/
theorem mem_of_lookup (h : t.lookup k = some v) : (k, v) ∈ t := by
  obtain ⟨l, l', rfl, -⟩ := lookup_eq_some_iff.1 h
  simp

/-- A read of a key that has a row finds one. -/
theorem isSome_lookup_of_mem {x : κ × β}
    (h : x ∈ t) : (t.lookup x.1).isSome = true := by
  cases hl : t.lookup x.1 with
  | some v => rfl
  | none =>
    rw [lookup_eq_none_iff] at hl
    exact absurd (hl x h) (by simp)

/-- A row of a table with unique keys is what a read finds. -/
theorem lookup_of_mem
    (hnd : (t.map Prod.fst).Nodup) (h : (k, v) ∈ t) : t.lookup k = some v := by
  obtain ⟨v', hl⟩ := isSome_iff_exists.1 (isSome_lookup_of_mem h)
  have heq : (k, v') = (k, v) :=
    inj_on_of_nodup_map hnd (mem_of_lookup hl) h rfl
  injection heq with _ hv
  rw [hl, hv]

/-- A read after the upsert of every row of a table with unique keys. -/
theorem lookup_putAll (k : κ) (rows : List (κ × β)) :
    ∀ t : List (κ × β), (rows.map Prod.fst).Nodup →
      (rows.foldl (fun t kv => put kv.1 kv.2 t) t).lookup k
        = (rows.lookup k).or (t.lookup k) := by
  induction rows with
  | nil => intro t _; rfl
  | cons p rows ih =>
    intro t hnd
    obtain ⟨a, b⟩ := p
    rw [map_cons, nodup_cons] at hnd
    rw [foldl_cons, ih _ hnd.2, lookup_put, lookup_cons]
    by_cases hk : k = a
    · rw [if_pos hk, if_pos hk, hk, lookup_none hnd.1]
      rfl
    · rw [if_neg hk, if_neg hk]

end Map

-- ===== row tables

section Rows

variable {ρ : Type} {κ : Type} {t : List ρ} {p : ρ → Bool} {R : ρ → ρ → Prop}
  {g : ρ → κ} {t t' : List ρ} {f : ρ → ρ} {p q : ρ → Bool} {r : ρ} {x : ρ}

/-- `UPDATE t SET f WHERE p`. -/
def updateWhere (p : ρ → Bool) (f : ρ → ρ) (t : List ρ) : List ρ :=
  t.map fun r => if p r then f r else r

/-- `DELETE FROM t WHERE p`. -/
def deleteWhere (p : ρ → Bool) (t : List ρ) : List ρ :=
  t.filter fun r => !p r

@[simp] theorem mem_updateWhere : r ∈ updateWhere p f t ↔
      ∃ r₀ ∈ t, (if p r₀ then f r₀ else r₀) = r := by
  simp [updateWhere]

theorem forall_updateWhere {P : ρ → Prop} (h : ∀ r ∈ t, p r = true → P (f r))
    (h' : ∀ r ∈ t, ¬ p r = true → P r) : ∀ r ∈ updateWhere p f t, P r := by
  intro r hr
  obtain ⟨r₀, hr₀, rfl⟩ := mem_updateWhere.1 hr
  split
  · exact h r₀ hr₀ ‹_›
  · exact h' r₀ hr₀ ‹_›

@[simp] theorem mem_deleteWhere :
    r ∈ deleteWhere p t ↔ r ∈ t ∧ p r = false := by
  simp [deleteWhere]

/-- An update that keeps a column keeps the column's values. -/
theorem updateWhere_column (g : ρ → κ) (hf : ∀ r, g (f r) = g r) (t : List ρ) :
    (updateWhere p f t).map g = t.map g := by
  unfold updateWhere
  rw [List.map_map]
  refine map_congr_left fun r _ => ?_
  show g (if p r then f r else r) = g r
  split
  · exact hf r
  · rfl

/-- An update, row by row: the rows it reaches evolve by `R`, the others
stay. -/
theorem forall₂_updateWhere (hkeep : ∀ r, R r r)
    (hf : ∀ r ∈ t, p r = true → R r (f r)) :
    Forall₂ R t (updateWhere p f t) := by
  unfold updateWhere
  rw [forall₂_map_right_iff, forall₂_same]
  intro r hr
  split
  next hp => exact hf r hr hp
  next => exact hkeep r

/-- A row after evolved from a row before. -/
theorem exists_before {β : Type} {R : α → β → Prop} {t : List α} {t' : List β}
    (h : Forall₂ R t t') {r' : β} (hr : r' ∈ t') : ∃ r ∈ t, R r r' := by
  induction h with
  | nil => cases hr
  | cons hab _ ih =>
    rcases mem_cons.1 hr with rfl | hr
    · exact ⟨_, mem_cons_self, hab⟩
    · obtain ⟨r, hm, hR⟩ := ih hr
      exact ⟨r, mem_cons_of_mem _ hm, hR⟩

/-- A row before evolved into a row after. -/
theorem exists_after
    (h : Forall₂ R t t') (hr : r ∈ t) : ∃ r' ∈ t', R r r' :=
  exists_before h.flip hr

/-- Rows that evolve twice. -/
theorem forall₂_trans {R S T : ρ → ρ → Prop}
    (h : ∀ {a b c}, R a b → S b c → T a c) {t t' t'' : List ρ}
    (h₁ : Forall₂ R t t') (h₂ : Forall₂ S t' t'') :
    Forall₂ T t t'' := by
  induction h₁ generalizing t'' with
  | nil =>
    cases h₂ with
    | nil => exact Forall₂.nil
  | cons hab _ ih =>
    cases h₂ with
    | cons hbc hrest => exact Forall₂.cons (h hab hbc) (ih hrest)

/-- Rows that evolve with a column kept keep the column's values. -/
theorem column_of_forall₂ (h : Forall₂ R t t')
    (hg : ∀ r r', R r r' → g r' = g r) : t'.map g = t.map g := by
  induction h with
  | nil => rfl
  | cons hab _ ih => rw [map_cons, map_cons, ih, hg _ _ hab]

theorem nodup_of_forall₂ (h : Forall₂ R t t')
    (hg : ∀ r r', R r r' → g r' = g r) (hnd : (t.map g).Nodup) :
    (t'.map g).Nodup := by
  rw [column_of_forall₂ h hg]
  exact hnd

/-- An update out of the rows that count and of those that do not. -/
theorem filter_updateWhere
    (hp : ∀ r, p r = true → q r = false ∧ q (f r) = false) (t : List ρ) :
    (updateWhere p f t).filter q = t.filter q := by
  induction t with
  | nil => rfl
  | cons r t ih =>
    show ((if p r then f r else r) :: updateWhere p f t).filter q = _
    by_cases hr : p r = true
    · obtain ⟨hq, hq'⟩ := hp r hr
      rw [if_pos hr, filter_cons_of_neg (by simp [hq']),
        filter_cons_of_neg (by simp [hq]), ih]
    · rw [if_neg hr, filter_cons, filter_cons, ih]

/-- An update that makes the rows it reaches count. -/
theorem perm_filter_updateWhere
    (hp : ∀ r, p r = true → q r = false ∧ q (f r) = true) (t : List ρ) :
    ((updateWhere p f t).filter q).Perm (t.filter q ++ (t.filter p).map f) := by
  induction t with
  | nil => exact List.Perm.refl _
  | cons r t ih =>
    show (((if p r then f r else r) :: updateWhere p f t).filter q).Perm _
    by_cases hr : p r = true
    · obtain ⟨hq, hq'⟩ := hp r hr
      rw [if_pos hr, filter_cons_of_pos hq', filter_cons_of_neg (by simp [hq]),
        filter_cons_of_pos hr, map_cons]
      exact (ih.cons _).trans perm_middle.symm
    · rw [if_neg hr, filter_cons_of_neg hr, filter_cons, filter_cons]
      split
      · exact ih.cons _
      · exact ih

/-- A duplicate-free key column stays duplicate-free through a
delete. -/
theorem nodup_deleteWhere
    (h : (t.map g).Nodup) : ((deleteWhere p t).map g).Nodup :=
  (filter_sublist.map g).nodup h

/-- A duplicate-free key column takes a row whose key is not there. -/
theorem nodup_insert (h : (t.map g).Nodup) (hr : ∀ r' ∈ t, g r' ≠ g r) :
    ((t ++ [r]).map g).Nodup := by
  rw [map_append]
  refine nodup_snoc h fun hm => ?_
  obtain ⟨r', hr', heq⟩ := List.mem_map.1 hm
  exact hr r' hr' heq

/-- Two rows of one key are one row. -/
theorem eq_of_key (h : (t.map g).Nodup)
    {r r' : ρ} (hr : r ∈ t) (hr' : r' ∈ t) (hk : g r = g r') : r = r' :=
  inj_on_of_nodup_map h hr hr' hk

/-- `ORDER BY` a column. -/
theorem pairwise_orderBy [LinearOrder κ] (g : ρ → κ)
    [DecidableRel fun a b : ρ => g a ≤ g b] (t : List ρ) :
    (t.insertionSort fun a b => g a ≤ g b).Pairwise fun a b => g a ≤ g b := by
  have : Std.Total fun a b : ρ => g a ≤ g b :=
    ⟨fun a b => le_total (g a) (g b)⟩
  have : IsTrans ρ fun a b => g a ≤ g b := ⟨fun _ _ _ => le_trans⟩
  exact pairwise_insertionSort _ t

-- ===== at most one row

/-- Rows that evolve and keep what is counted. -/
theorem countP_of_forall₂ (hm : Forall₂ R t t')
    (h : ∀ r r', R r r' → p r' = p r) : t'.countP p = t.countP p := by
  induction hm with
  | nil => rfl
  | cons hr _ ih => rw [countP_cons, countP_cons, ih, h _ _ hr]

/-- Rows deleted that do not count. -/
theorem countP_deleteWhere (h : ∀ r ∈ t, q r = true → p r = false) :
    (deleteWhere q t).countP p = t.countP p := by
  unfold deleteWhere
  rw [countP_filter]
  refine countP_congr fun r hr => ?_
  cases hq : q r with
  | false => simp
  | true => simp [h r hr hq]

variable [BEq κ] [LawfulBEq κ]

/-- An update of the one row of a key: that row changed, and the rows of
other keys. -/
theorem perm_updateKey (hnd : (t.map g).Nodup) (hx : x ∈ t) (f : ρ → ρ) :
    (updateWhere (fun r => g r == g x) f t).Perm
      (f x :: t.filter fun r => g r != g x) := by
  induction t with
  | nil => cases hx
  | cons r t ih =>
    rw [map_cons, nodup_cons] at hnd
    show ((if g r == g x then f r else r)
      :: updateWhere (fun r => g r == g x) f t).Perm _
    rcases mem_cons.1 hx with rfl | hx
    · have hne : ∀ r ∈ t, (g r == g x) = false := by
        intro r hr
        rw [beq_eq_false_iff_ne]
        exact fun heq => hnd.1 (List.mem_map.2 ⟨r, hr, heq⟩)
      have hrest : updateWhere (fun r => g r == g x) f t = t := by
        refine (map_congr_left fun r hr => ?_).trans (List.map_id t)
        exact if_neg (by simp [hne r hr])
      have hkept : t.filter (fun r => g r != g x) = t := by
        rw [filter_eq_self]
        intro r hr
        rw [bne, hne r hr]
        rfl
      rw [if_pos (beq_self_eq_true _), hrest,
        filter_cons_of_neg (by simp), hkept]
    · have hne : (g r == g x) = false := by
        rw [beq_eq_false_iff_ne]
        exact fun heq => hnd.1 (List.mem_map.2 ⟨x, hx, heq.symm⟩)
      rw [hne, filter_cons_of_pos (by rw [bne, hne]; rfl)]
      exact ((ih hnd.2 hx).cons r).trans (List.Perm.swap ..)

/-- The one row of a key, and the rows of other keys. -/
theorem perm_key (hnd : (t.map g).Nodup) (hx : x ∈ t) :
    t.Perm (x :: t.filter fun r => g r != g x) := by
  simpa [updateWhere] using perm_updateKey hnd hx id

/-- The count after an update of the one row of a key: that row is
counted out as it was, and in as it is. -/
theorem countP_updateKey
    (hnd : (t.map g).Nodup) (hx : x ∈ t) (f : ρ → ρ) (p : ρ → Bool) :
    (updateWhere (fun r => g r == g x) f t).countP p + (if p x then 1 else 0)
      = t.countP p + if p (f x) then 1 else 0 := by
  have hnew := (perm_updateKey hnd hx f).countP_eq p
  have hold := (perm_key hnd hx).countP_eq p
  rw [hnew, hold, countP_cons, countP_cons]
  omega

/-- The count of the one row of a key. -/
theorem countP_key (hnd : (t.map g).Nodup) (hx : x ∈ t) (p : ρ → Bool) :
    t.countP (fun r => p r && g r == g x) = if p x then 1 else 0 := by
  have hrest : (t.filter fun r => g r != g x).countP
      (fun r => p r && g r == g x) = 0 := by
    rw [countP_eq_zero]
    intro r hr hboth
    rw [Bool.and_eq_true] at hboth
    exact bne_iff_ne.1 (mem_filter.1 hr).2 (eq_of_beq hboth.2)
  rw [(perm_key hnd hx).countP_eq, countP_cons, hrest]
  simp

/-- At most one row of the table satisfies `p`: what a partial unique
index promises. -/
def Unique (p : ρ → Bool) (t : List ρ) : Prop := t.countP p ≤ 1

/-- No row, or one. -/
theorem unique_nil (p : ρ → Bool) : Unique p ([] : List ρ) := by
  simp [Unique]

/-- A delete leaves at most as many matches. -/
theorem Unique.delete (h : Unique p t) : Unique p (deleteWhere q t) :=
  le_trans (filter_sublist.countP_le) h

/-- Rows that evolve so that a match was a match already. -/
theorem Unique.evolve (h : Unique p t) (ht : Forall₂ R t t')
    (hR : ∀ r r', R r r' → p r' = true → p r = true) : Unique p t' := by
  have hle : t'.countP p ≤ t.countP p := by
    clear h
    induction ht with
    | nil => exact le_refl _
    | @cons r r' t t' hab _ ih =>
      rw [countP_cons, countP_cons]
      by_cases hp : p r' = true
      · rw [if_pos hp, if_pos (hR r r' hab hp)]
        omega
      · rw [if_neg hp]
        omega
  exact le_trans hle h

/-- An insert of a row that no other row matches with. -/
theorem Unique.insert (h : Unique p t)
    (hr : p r = true → ∀ r' ∈ t, p r' = false) : Unique p (t ++ [r]) := by
  unfold Unique at *
  cases hp : p r with
  | false => simpa [hp] using h
  | true =>
    have hz : t.countP p = 0 := by
      rw [countP_eq_zero]
      intro r' hr'
      simp [hr hp r' hr']
    simp [hz, hp]

/-- The two rows a `Unique` table cannot hold. -/
theorem Unique.eq (h : Unique p t) {r r' : ρ} (hr : r ∈ t) (hr' : r' ∈ t)
    (hp : p r = true) (hp' : p r' = true) : r = r' := by
  unfold Unique at h
  rw [countP_eq_length_filter] at h
  have hm : r ∈ t.filter p := mem_filter.2 ⟨hr, hp⟩
  have hm' : r' ∈ t.filter p := mem_filter.2 ⟨hr', hp'⟩
  match hl : t.filter p, h with
  | [], _ => rw [hl] at hm; cases hm
  | [a], _ =>
    rw [hl, mem_singleton] at hm hm'
    rw [hm, hm']

end Rows

end Reliquary.Store
