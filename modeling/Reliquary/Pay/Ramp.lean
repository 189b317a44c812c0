/-
The floor under a hotkey's share of a task's pay
(src/reliquary/validator/weight_only.py, `_ramped_incentive` and
`_apply_min_incentive_share`), in exact arithmetic.

A share `v` is paid the part `rampFraction v` of itself, and that part
grows with `v`: so the ramp is monotone, and shares kept apart are paid no
more than their sum (`sum_rampedIncentive_le`). What the floor pays is
read off in one formula (`sumOn_applyMinIncentiveShare`): the ramped
shares, scaled up to the total, or the weights as they were where the ramp
leaves nothing. Where nothing is cut the formula gives the weights back,
so that return needs no case of its own.
-/
import Reliquary.Store.Dict

namespace Reliquary.Pay

open Store List

-- ===== the model

/-- How much of a share is paid. -/
def rampedIncentive (value start threshold : ℚ) : ℚ :=
  if threshold ≤ value then value
  else if threshold ≤ start ∨ value < start then 0
  else value * (value - start) / (threshold - start)

/-- The hotkeys' shares, ramped. -/
def rampedShares (weights : List (String × ℚ)) (start threshold : ℚ) :
    List (String × ℚ) :=
  weights.map fun x =>
    (x.1, rampedIncentive (x.2 / total weights) start threshold)

/-- The weights with the small shares ramped down and their mass shared
out. -/
def applyMinIncentiveShare (weights : List (String × ℚ))
    (start threshold : ℚ) : List (String × ℚ) :=
  if total weights ≤ 0 then weights
  else if weights.all fun x => decide (rampedIncentive (x.2 / total weights)
      start threshold = x.2 / total weights) then weights
  else
    let kept := (rampedShares weights start threshold).filter
      fun x => decide (0 < x.2)
    if total kept ≤ 0 then weights
    else
      let paid := kept.map fun x => (x.1, total weights * x.2 / total kept)
      let overshoot := total paid - total weights
      if 0 < overshoot then
        -- once it is taken back the sum is the total: the loop over single
        -- floats that follows in the source has nothing to do
        match paid.argmax Prod.snd with
        | none => paid
        | some largest => addTo largest.1 (-overshoot) paid
      else paid

-- ===== the ramp

/-- The part of a share that is paid. -/
def rampFraction (value start threshold : ℚ) : ℚ :=
  if threshold ≤ value then 1
  else if threshold ≤ start ∨ value < start then 0
  else (value - start) / (threshold - start)

variable {start threshold : ℚ} {weights : List (String × ℚ)}

theorem rampedIncentive_eq (value : ℚ) : rampedIncentive value start threshold
      = value * rampFraction value start threshold := by
  unfold rampedIncentive rampFraction
  split_ifs
  · exact (mul_one value).symm
  · exact (mul_zero value).symm
  · exact mul_div_assoc _ _ _

theorem rampFraction_mono {v w : ℚ} (h : v ≤ w) :
    rampFraction v start threshold ≤ rampFraction w start threshold := by
  unfold rampFraction
  split_ifs with hv hw hw' hv' hw hw' hw hw'
  · exact le_refl 1
  · linarith
  · linarith
  · exact zero_le_one
  · exact le_refl 0
  · simp only [not_or, not_le, not_lt] at hw'
    exact div_nonneg (by linarith) (by linarith)
  · simp only [not_or, not_le, not_lt] at hv'
    rw [div_le_one (by linarith)]
    linarith
  · simp only [not_or, not_le, not_lt] at hv'
    rcases hw' with hw' | hw'
    · linarith
    · linarith
  · simp only [not_or, not_le, not_lt] at hv'
    exact div_le_div_of_nonneg_right (by linarith) (by linarith)

theorem rampFraction_nonneg (value : ℚ) :
    0 ≤ rampFraction value start threshold := by
  unfold rampFraction
  split_ifs with hv hw
  · exact zero_le_one
  · exact le_refl 0
  · simp only [not_or, not_le, not_lt] at hw
    exact div_nonneg (by linarith) (by linarith)

theorem rampedIncentive_nonneg {value : ℚ} (h : 0 ≤ value) :
    0 ≤ rampedIncentive value start threshold := by
  rw [rampedIncentive_eq]
  exact mul_nonneg h (rampFraction_nonneg value)

@[simp] theorem rampedIncentive_zero :
    rampedIncentive 0 start threshold = 0 := by
  rw [rampedIncentive_eq, zero_mul]

theorem rampedIncentive_mono {v w : ℚ} (hv : 0 ≤ v) (h : v ≤ w) :
    rampedIncentive v start threshold ≤ rampedIncentive w start threshold := by
  rw [rampedIncentive_eq, rampedIncentive_eq]
  exact mul_le_mul h (rampFraction_mono h) (rampFraction_nonneg v)
    (le_trans hv h)

/-- **Shares kept apart are paid no more than their sum.** -/
theorem sum_rampedIncentive_le (start threshold : ℚ)
    {t : List (String × ℚ)} (h : Nonneg t) {T : ℚ} (hT : 0 ≤ T) :
    (t.map fun x => rampedIncentive (x.2 / T) start threshold).sum
      ≤ rampedIncentive (total t / T) start threshold := by
  have hsplit : total t / T * rampFraction (total t / T) start threshold
      = (t.map fun x =>
        x.2 / T * rampFraction (total t / T) start threshold).sum := by
    simp only [div_eq_mul_inv, mul_assoc, sum_map_mul_right]
    simp [sumOn]
  rw [rampedIncentive_eq, hsplit]
  refine sum_le_sum fun x hx => ?_
  -- each is paid the part that the sum is paid, or less
  have hone : x.2 ≤ total t := by
    have hmem : x.2 ∈ t.map Prod.snd := mem_map_of_mem hx
    have hsnd : ∀ v ∈ t.map Prod.snd, 0 ≤ v := by
      intro v hv
      obtain ⟨y, hy, rfl⟩ := mem_map.1 hv
      exact h y hy
    simpa [sumOn] using single_le_sum hsnd _ hmem
  rw [rampedIncentive_eq]
  exact mul_le_mul_of_nonneg_left
    (rampFraction_mono (div_le_div_of_nonneg_right hone hT))
    (div_nonneg (h x hx) hT)

-- ===== what is paid

theorem nonneg_rampedShares (h : Nonneg weights) :
    Nonneg (rampedShares weights start threshold) := by
  intro x hx
  obtain ⟨y, hy, rfl⟩ := mem_map.1 hx
  exact rampedIncentive_nonneg (div_nonneg (h y hy) (h.sumOn _))

/-- **What the floor pays**: the ramped shares scaled up to the total, or
the weights where the ramp leaves nothing. -/
theorem sumOn_applyMinIncentiveShare (h : Nonneg weights) (p : String → Bool) :
    sumOn p (applyMinIncentiveShare weights start threshold)
      = if total (rampedShares weights start threshold) ≤ 0 then
          sumOn p weights
        else total weights * sumOn p (rampedShares weights start threshold)
          / total (rampedShares weights start threshold) := by
  have hkept : ∀ p, sumOn p ((rampedShares weights start threshold).filter
      fun x => decide (0 < x.2))
        = sumOn p (rampedShares weights start threshold) :=
    (nonneg_rampedShares h).sumOn_pos
  have htotal : 0 ≤ total weights := h.sumOn _
  unfold applyMinIncentiveShare
  split
  next hnone =>
    -- all weights are zero, and so is what the ramp leaves
    have hzero : total (rampedShares weights start threshold) = 0 := by
      have htw : total weights = 0 := le_antisymm hnone htotal
      simp [rampedShares, sumOn, htw, Function.comp_def]
    rw [if_pos hzero.le]
  next hsome =>
    split
    next hall =>
      have hshares : rampedShares weights start threshold
          = weights.map fun x => (x.1, x.2 * (total weights)⁻¹) := by
        refine map_congr_left fun x hx => ?_
        rw [of_decide_eq_true (all_eq_true.1 hall x hx), div_eq_mul_inv]
      have hone : total (rampedShares weights start threshold) = 1 := by
        rw [hshares, total, sumOn_scale]
        exact mul_inv_cancel₀ (by linarith)
      rw [hone, if_neg (by norm_num), hshares, sumOn_scale, div_one,
        mul_left_comm, mul_inv_cancel₀ (by linarith), mul_one]
    next =>
      have hpaid : ∀ p, sumOn p (((rampedShares weights start threshold).filter
          fun x => decide (0 < x.2)).map fun x => (x.1, total weights * x.2
            / total (rampedShares weights start threshold)))
          = total weights * sumOn p (rampedShares weights start threshold)
            / total (rampedShares weights start threshold) := by
        intro p
        rw [mul_comm (total weights), mul_div_assoc, ← hkept, ← sumOn_scale]
        congr 2
        funext x
        rw [mul_comm (total weights), mul_div_assoc]
      simp only [total, hkept]
      split
      · rfl
      next hleft =>
        rw [if_neg, hpaid]
        rw [hpaid, mul_div_cancel_right₀ _ (by linarith)]
        simp

/-- What a hotkey is paid. -/
theorem sumAt_applyMinIncentiveShare (hkeys : (weights.map Prod.fst).Nodup)
    (hpos : Nonneg weights) {x : String × ℚ} (hx : x ∈ weights) :
    sumAt (applyMinIncentiveShare weights start threshold) x.1
      = if total (rampedShares weights start threshold) ≤ 0 then x.2
        else total weights
            * rampedIncentive (x.2 / total weights) start threshold
          / total (rampedShares weights start threshold) := by
  have hweight : sumAt weights x.1 = x.2 := by
    simpa using sumAt_map_of_mem hkeys hx id
  have hramped := sumAt_map_of_mem hkeys hx
    fun v => rampedIncentive (v / total weights) start threshold
  show sumOn _ _ = _
  rw [sumOn_applyMinIncentiveShare hpos, ← hramped, ← hweight]
  rfl

theorem total_rampedShares (part rest : List (String × ℚ))
    (h : weights.Perm (part ++ rest)) :
    total (rampedShares weights start threshold)
      = (part.map fun x =>
          rampedIncentive (x.2 / total weights) start threshold).sum
        + (rest.map fun x =>
          rampedIncentive (x.2 / total weights) start threshold).sum := by
  rw [rampedShares, total, sumOn_perm (h.map _)]
  simp [sumOn, Function.comp_def]

theorem sum_ramped_nonneg {t : List (String × ℚ)} (h : Nonneg t) {T : ℚ}
    (hT : 0 ≤ T) : 0 ≤ (t.map fun x =>
      rampedIncentive (x.2 / T) start threshold).sum := by
  refine sum_nonneg ?_
  intro v hv
  obtain ⟨x, hx, rfl⟩ := mem_map.1 hv
  exact rampedIncentive_nonneg (div_nonneg (h x hx) hT)

/-- The pay of a hotkey, or of the pieces it is split into, from the ramped
shares: `F` of the hotkey, `P` of the pieces, `R` of all others. -/
theorem pay_split_le {T v F P R : ℚ} (hP : 0 ≤ P) (hPF : P ≤ F) (hR : 0 ≤ R)
    (hv : v ≤ T) (hT : 0 ≤ T) : (if P + R ≤ 0 then v else T * P / (P + R))
      ≤ if F + R ≤ 0 then v else T * F / (F + R) := by
  split_ifs with hafter hbefore hbefore
  · exact le_refl v
  · -- the pieces are all cut and no one else is left: the hotkey had it all
    have hR0 : R = 0 := by linarith
    rw [hR0, add_zero, mul_div_cancel_right₀ T (by linarith)]
    exact hv
  · linarith
  · rw [div_le_div_iff₀ (by linarith) (by linarith)]
    nlinarith [mul_nonneg (mul_nonneg hT hR) (sub_nonneg.2 hPF)]

/-- **The floor keeps the total and the order, and does not reward
splitting.** A hotkey left out of the result is paid nothing. -/
theorem applyMinIncentiveShare_fair (hkeys : (weights.map Prod.fst).Nodup)
    (hpos : Nonneg weights) (start threshold : ℚ) :
    total (applyMinIncentiveShare weights start threshold) = total weights
    ∧ (∀ x ∈ weights, ∀ y ∈ weights, x.2 ≤ y.2 →
      sumAt (applyMinIncentiveShare weights start threshold) x.1
        ≤ sumAt (applyMinIncentiveShare weights start threshold) y.1)
    ∧ ∀ hotkey v others pieces weights',
      weights.Perm ((hotkey, v) :: others) →
      weights'.Perm (pieces ++ others) → (weights'.map Prod.fst).Nodup →
      Nonneg weights' → total pieces = v →
      sumOn (fun k => decide (k ∈ pieces.map Prod.fst))
          (applyMinIncentiveShare weights' start threshold)
        ≤ sumAt (applyMinIncentiveShare weights start threshold) hotkey := by
  have hT : 0 ≤ total weights := hpos.sumOn _
  refine ⟨?_, ?_, ?_⟩
  · rw [total, sumOn_applyMinIncentiveShare hpos]
    split
    · rfl
    · exact mul_div_cancel_right₀ _ (by linarith)
  · intro x hx y hy hxy
    rw [sumAt_applyMinIncentiveShare hkeys hpos hx,
      sumAt_applyMinIncentiveShare hkeys hpos hy]
    split
    · exact hxy
    next hleft =>
      refine div_le_div_of_nonneg_right (mul_le_mul_of_nonneg_left ?_ hT)
        (by linarith)
      exact rampedIncentive_mono (div_nonneg (hpos x hx) hT)
        (div_le_div_of_nonneg_right hxy hT)
  · intro hotkey v others pieces weights' hw hw' hkeys' hpos' hv
    have hmem : (hotkey, v) ∈ weights := hw.mem_iff.2 mem_cons_self
    have hT' : total weights' = total weights := by
      rw [total, total, sumOn_perm hw, sumOn_perm hw', sumOn_cons, ← hv]
      simp [sumOn]
    have hrest : Nonneg others := fun x hx =>
      hpos x (hw.mem_iff.2 (mem_cons_of_mem _ hx))
    have hpieces : Nonneg pieces := fun x hx =>
      hpos' x (hw'.mem_iff.2 (mem_append_left _ hx))
    have hvT : v ≤ total weights := by
      have hle := hrest.sumOn fun _ => true
      rw [total, sumOn_perm hw, sumOn_cons]
      simpa using hle
    have hown : sumOn (fun k => decide (k ∈ pieces.map Prod.fst)) weights'
        = v := by
      simpa [← hv, sumOn] using sumOn_part hw' hkeys' id
    have hramped := sumOn_part hw' hkeys'
      fun v => rampedIncentive (v / total weights) start threshold
    have hle := sum_rampedIncentive_le start threshold hpieces hT
    rw [hv] at hle
    rw [sumAt_applyMinIncentiveShare hkeys hpos hmem,
      sumOn_applyMinIncentiveShare hpos', total_rampedShares _ _ hw',
      total_rampedShares [(hotkey, v)] _ hw, rampedShares, hT', hramped, hown,
      map_singleton, sum_singleton]
    exact pay_split_le (sum_ramped_nonneg hpieces hT) hle
      (sum_ramped_nonneg hrest hT) hvT hT

/-- Half of the total is paid in full; its halves fall on the ramp, and are
paid a third less. -/
theorem applyMinIncentiveShare_fair_split :
    sumAt (applyMinIncentiveShare [("a", 2), ("b", 1), ("c", 1)]
      (1 / 8) (1 / 2)) "a" = 3
    ∧ sumOn (fun k => decide (k ∈ ["a1", "a2"]))
        (applyMinIncentiveShare [("a1", 1), ("a2", 1), ("b", 1), ("c", 1)]
          (1 / 8) (1 / 2))
      ≤ sumAt (applyMinIncentiveShare [("a", 2), ("b", 1), ("c", 1)]
        (1 / 8) (1 / 2)) "a" := by
  refine ⟨by decide +kernel, ?_⟩
  exact (applyMinIncentiveShare_fair (by decide) (by simp [Nonneg]) _ _).2.2
    "a" 2 [("b", 1), ("c", 1)] [("a1", 1), ("a2", 1)] _ (List.Perm.refl _)
    (List.Perm.refl _) (by decide) (by simp [Nonneg]) (by decide +kernel)

end Reliquary.Pay
