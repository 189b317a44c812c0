/-
Runs of a machine and the invariant rule.

A machine is a step function on states; a run is a list of actions
taken one after another. `Run step ok s as s'` is the run of `as` from
`s` to `s'` in which every action met `ok` at the state it was taken
in: `ok` is where a result about well-behaved runs says what the
environment promises, and `Free` is the run that promises nothing.

`Run.invariant` packages the induction once: a property that holds at
the start and that every permitted step keeps holds at the end, hence
(a prefix of a run is a run) in every state on the way.
-/
import Mathlib

namespace Reliquary.Store

open List

variable {S A : Type}

/-- The actions `as` lead from `s` to `s'`, each meeting `ok` at the
state it is taken in. -/
inductive Run (step : S → A → S) (ok : S → A → Prop) :
    S → List A → S → Prop
  | nil (s : S) : Run step ok s [] s
  | cons {s s' : S} {as : List A} (a : A) :
      ok s a → Run step ok (step s a) as s' → Run step ok s (a :: as) s'

/-- A run that promises nothing. -/
abbrev Free (step : S → A → S) : S → List A → S → Prop :=
  Run step fun _ _ => True

variable {step : S → A → S} {ok : S → A → Prop} {E : Type} {I : S → Prop}
  {s s' : S} {as : List A} {P : E → Prop} {x : Except E S}
  {f : S → A → Except E S}

/-- One run after another. -/
theorem Run.append {s s' s'' : S} {as bs : List A} (h : Run step ok s as s')
    (h' : Run step ok s' bs s'') : Run step ok s (as ++ bs) s'' := by
  induction h with
  | nil s => exact h'
  | cons a ha _ ih => exact Run.cons a ha (ih h')

/-- Actions that are always permitted. -/
theorem Run.of_list (h : ∀ s, ∀ a ∈ as, ok s a) (s : S) :
    Run step ok s as (as.foldl step s) := by
  induction as generalizing s with
  | nil => exact Run.nil s
  | cons a as ih =>
    have hrest : ∀ s, ∀ b ∈ as, ok s b :=
      fun s b hb => h s b (mem_cons_of_mem _ hb)
    exact Run.cons a (h s a mem_cons_self) (ih hrest (step s a))

/-- One more action at the end. -/
theorem Run.snoc (h : Run step ok s as s') {a : A} (ha : ok s' a) :
    Run step ok s (as ++ [a]) (step s' a) :=
  h.append (Run.cons a ha (Run.nil _))

/-- Every action of a list is permitted where it is taken. -/
def Permitted (step : S → A → S) (ok : S → A → Prop) : S → List A → Prop
  | _, [] => True
  | s, a :: as => ok s a ∧ Permitted step ok (step s a) as

instance decidablePermitted [∀ s a, Decidable (ok s a)] :
    (s : S) → (as : List A) → Decidable (Permitted step ok s as)
  | _, [] => isTrue trivial
  | s, a :: as =>
    have := decidablePermitted (step s a) as
    inferInstanceAs (Decidable (ok s a ∧ Permitted step ok (step s a) as))

/-- Permitted actions make a run: a concrete one is checked by evaluation. -/
theorem Run.of_permitted (h : Permitted step ok s as) :
    Run step ok s as (as.foldl step s) := by
  induction as generalizing s with
  | nil => exact Run.nil s
  | cons a as ih => exact Run.cons a h.1 (ih h.2)

/-- **The invariant rule.** -/
theorem Run.invariant (h : Run step ok s as s') (hs : I s)
    (hstep : ∀ s a, ok s a → I s → I (step s a)) : I s' := by
  induction h with
  | nil s => exact hs
  | cons a ha _ ih => exact ih (hstep _ a ha hs)

-- ===== runs that may raise

/-- A run of steps that may raise: each was allowed and returned. -/
inductive Runs {E : Type} (step : S → A → Except E S) (ok : S → A → Prop) :
    S → List A → S → Prop
  | nil (s : S) : Runs step ok s [] s
  | cons {s s' s'' : S} {a : A} {as : List A} : ok s a →
      step s a = .ok s' → Runs step ok s' as s'' → Runs step ok s (a :: as) s''

theorem Runs.invariant {step : S → A → Except E S} (h : Runs step ok s as s')
    (hs : I s) (hstep : ∀ s a s', ok s a → step s a = .ok s' → I s → I s') :
    I s' := by
  induction h with
  | nil s => exact hs
  | cons ha hs' _ ih => exact ih (hstep _ _ _ ha hs' hs)

-- ===== loops that may raise

/-- A computation that returned, taken apart. -/
theorem bind_eq_ok {E T : Type} {x : Except E S} {g : S → Except E T} {t : T}
    (h : x >>= g = .ok t) : ∃ s, x = .ok s ∧ g s = .ok t := by
  cases x with
  | error e => cases h
  | ok s => exact ⟨s, rfl, h⟩

/-- What holds of a result, and what of an error. -/
def Ends {E : Type} (Q : S → Prop) (P : E → Prop) : Except E S → Prop
  | .ok s => Q s
  | .error e => P e

/-- A computation nothing is asked of. -/
theorem ends_any (x : Except E S) : Ends (fun _ => True) (fun _ => True) x := by
  cases x with
  | error e => exact trivial
  | ok s => exact trivial

/-- One computation after another. -/
theorem Ends.bind {E T : Type} {Q : S → Prop} {R : T → Prop}
    {P : E → Prop} {x : Except E S} {g : S → Except E T} (h : Ends Q P x)
    (hg : ∀ s, Q s → Ends R P (g s)) : Ends R P (x >>= g) := by
  cases x with
  | error e => exact h
  | ok s => exact hg s h

theorem Ends.mono {Q R : S → Prop} (h : Ends Q P x) (hQR : ∀ s, Q s → R s) :
    Ends R P x := by
  cases x with
  | error e => exact h
  | ok s => exact hQR s h

/-- The error forgotten. -/
theorem Ends.weaken {Q : S → Prop} (h : Ends Q P x) :
    Ends Q (fun _ => True) x := by
  cases x with
  | error e => exact trivial
  | ok s => exact h

/-- Two facts about one result. -/
theorem Ends.and {Q R : S → Prop} {P P' : E → Prop} (h : Ends Q P x)
    (h' : Ends R P' x) : Ends (fun s => Q s ∧ R s) P x := by
  cases x with
  | error e => exact h
  | ok s => exact ⟨h, h'⟩

/-- **The loop rule**: what holds of the state and the items still to do
is kept by every item, or the item raises what it may. -/
theorem foldlM_ends {I : S → List A → Prop}
    (hstep : ∀ s a as, I s (a :: as) → Ends (I · as) P (f s a)) :
    ∀ {as : List A} {s : S}, I s as → Ends (I · []) P (as.foldlM f s) := by
  intro as
  induction as with
  | nil => exact fun hs => hs
  | cons a as ih =>
    intro s hs
    rw [foldlM_cons]
    have hfirst := hstep s a as hs
    cases hf : f s a with
    | error e =>
      rw [hf] at hfirst
      exact hfirst
    | ok t =>
      rw [hf] at hfirst
      exact ih hfirst

/-- What every item keeps. -/
theorem foldlM_each (hstep : ∀ s, ∀ a ∈ as, I s → Ends I P (f s a)) (hs : I s) :
    Ends I P (as.foldlM f s) := by
  have hloop := foldlM_ends (E := E) (P := P) (f := f)
    (I := fun s rest => I s ∧ ∀ a ∈ rest, a ∈ as) ?_
    (show I s ∧ ∀ a ∈ as, a ∈ as from ⟨hs, fun _ ha => ha⟩)
  · exact hloop.mono fun _ h => h.1
  · intro s a rest h
    refine (hstep s a (h.2 a mem_cons_self) h.1).mono ?_
    exact fun t ht => ⟨ht, fun b hb => h.2 b (mem_cons_of_mem _ hb)⟩

/-- What a loop that returned kept of the state and the items to do. -/
theorem foldlM_ok {I : S → List A → Prop} {s s' : S}
    (h : as.foldlM f s = .ok s') (hs : I s as)
    (hstep : ∀ s a as s', I s (a :: as) → f s a = .ok s' → I s' as) :
    I s' [] := by
  have hends := foldlM_ends (f := f) (P := fun _ => True) (I := I) ?_ hs
  · rwa [h] at hends
  · intro s a as hI
    cases hf : f s a with
    | error e => exact trivial
    | ok t => exact hstep s a as t hI hf

/-- A loop each of whose items brings the state of one item more. -/
theorem foldlM_along (as : List A) (state : List A → S)
    (h : ∀ pre a post, as = pre ++ a :: post →
      f (state pre) a = .ok (state (pre ++ [a]))) :
    as.foldlM f (state []) = .ok (state as) := by
  have hrest : ∀ post pre, as = pre ++ post →
      post.foldlM f (state pre) = .ok (state as) := by
    intro post
    induction post with
    | nil =>
      intro pre hpre
      rw [hpre, append_nil]
      rfl
    | cons a post ih =>
      intro pre hpre
      rw [foldlM_cons, h pre a post hpre]
      exact ih _ (by simpa using hpre)
  exact hrest as [] rfl

/-- A loop of checks that all pass. -/
theorem forM_ok {ε α : Type} {g : α → Except ε Unit} (xs : List α)
    (h : ∀ x ∈ xs, g x = .ok ()) : xs.forM g = .ok () := by
  induction xs with
  | nil => rfl
  | cons x xs ih =>
    rw [show (x :: xs).forM g = g x >>= fun _ => xs.forM g from rfl,
      h x mem_cons_self]
    exact ih fun y hy => h y (mem_cons_of_mem _ hy)

/-- A comprehension none of whose items raises. -/
theorem mapM_ok {ε α β : Type} {g : α → Except ε β} {k : α → β} (xs : List α)
    (h : ∀ x ∈ xs, g x = .ok (k x)) : xs.mapM g = .ok (xs.map k) := by
  induction xs with
  | nil => rfl
  | cons x xs ih =>
    rw [mapM_cons, h x mem_cons_self, ih fun y hy => h y (mem_cons_of_mem _ hy)]
    rfl

/-- A comprehension that returned, item by item. -/
theorem mapM_forall₂ {ε α β : Type} {g : α → Except ε β} {xs : List α}
    {ys : List β} (h : xs.mapM g = .ok ys) :
    Forall₂ (fun x y => g x = .ok y) xs ys := by
  induction xs generalizing ys with
  | nil =>
    cases h
    exact .nil
  | cons x xs ih =>
    rw [mapM_cons] at h
    obtain ⟨y, hy, h⟩ := bind_eq_ok h
    obtain ⟨rest, hrest, h⟩ := bind_eq_ok h
    cases h
    exact .cons hy (ih hrest)

end Reliquary.Store
