/-
Overwrite deltas: histories of a keyed state, and updates that name
positions and give them their value at a later version.

A history is `c : Nat → P → V`, the state at each version. An update
from `f` to `t` is a set `S` of positions; it writes `c t p` at every
`p ∈ S` and nothing elsewhere. It is exact as long as `S` holds every
position that moved between `f` and `t` (`Covers`), a position that
moved and came back included.

# Why a half-written state is harmless

`Mixed c v l s` says that each position of `s` holds its value at some
version between `v` and `l`, a version of its own. A complete update to
`t` turns `Mixed c v l` into `Mixed c t l` (a position the update does
not write has not moved since `f ≤ v`); writing only part of it keeps
`Mixed c v l`. At `v = l` nothing is left to mix: the state is `c l`.
So the same invariant carries the exact replay and the replay over the
remains of interrupted ones.
-/
import Mathlib

namespace Reliquary.Store

variable {P V : Type} {c : Nat → P → V} {S T : Set P} {f t v l : Nat}
  {s s' : P → V}

/-- Outside `S` the history stands still from `f` to `t`. -/
def Covers (c : Nat → P → V) (S : Set P) (f t : Nat) : Prop :=
  ∀ p, p ∉ S → ∀ u, f ≤ u → u ≤ t → c u p = c t p

theorem Covers.start (c : Nat → P → V) (S : Set P) (f : Nat) :
    Covers c S f f := by
  intro p _ u hf ht
  rw [Nat.le_antisymm ht hf]

/-- One more version: what moved in it joins the set. -/
theorem Covers.step (h : Covers c S f t) (hS : S ⊆ T)
    (hT : ∀ p, c t p ≠ c (t + 1) p → p ∈ T) : Covers c T f (t + 1) := by
  intro p hp u hf hu
  have hstill : c t p = c (t + 1) p := by
    by_contra hne
    exact hp (hT p hne)
  rcases Nat.lt_or_ge u (t + 1) with hlt | hge
  · rw [h p (fun hpS => hp (hS hpS)) u hf (Nat.lt_succ_iff.1 hlt), hstill]
  · rw [Nat.le_antisymm hu hge]

/-- Each position holds its value at some version between `v` and
`l`. -/
def Mixed (c : Nat → P → V) (v l : Nat) (s : P → V) : Prop :=
  ∀ p, ∃ w, v ≤ w ∧ w ≤ l ∧ s p = c w p

theorem Mixed.start (c : Nat → P → V) (h : v ≤ l) : Mixed c v l (c v) :=
  fun _ => ⟨v, Nat.le_refl v, h, rfl⟩

/-- A window may widen downwards. -/
theorem Mixed.lower {u : Nat} (h : Mixed c v l s) (hu : u ≤ v) :
    Mixed c u l s := by
  intro p
  obtain ⟨w, hv, hw, hs⟩ := h p
  exact ⟨w, Nat.le_trans hu hv, hw, hs⟩

/-- An update cut short: some positions hold their value at `t`, the
rest are as they were. -/
theorem Mixed.partly (h : Mixed c v l s) (hv : v ≤ t) (ht : t ≤ l)
    (hs : ∀ p, s' p = c t p ∨ s' p = s p) : Mixed c v l s' := by
  intro p
  rcases hs p with hp | hp
  · exact ⟨t, hv, ht, hp⟩
  · rw [hp]
    exact h p

/-- A complete update moves the lower end of the window. -/
theorem Mixed.update (h : Mixed c v l s) (hc : Covers c S f t)
    (hf : f ≤ v) (ht : t ≤ l) (hin : ∀ p ∈ S, s' p = c t p)
    (hout : ∀ p, p ∉ S → s' p = s p) : Mixed c t l s' := by
  intro p
  by_cases hp : p ∈ S
  · exact ⟨t, Nat.le_refl t, ht, hin p hp⟩
  · obtain ⟨w, hv, hw, hs⟩ := h p
    rcases Nat.le_total t w with htw | hwt
    · exact ⟨w, htw, hw, (hout p hp).trans hs⟩
    · -- the value is from before `t`, and has not moved since
      refine ⟨t, Nat.le_refl t, ht, ?_⟩
      rw [hout p hp, hs]
      exact hc p hp w (Nat.le_trans hf hv) hwt

/-- At the end of the window nothing is mixed. -/
theorem Mixed.done (h : Mixed c l l s) : s = c l := by
  funext p
  obtain ⟨w, hv, hw, hs⟩ := h p
  rw [hs, Nat.le_antisymm hw hv]

end Reliquary.Store
