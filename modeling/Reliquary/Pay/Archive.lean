/-
What one archive pays and carries.

The rows, the carry and the fill of a period are added up per hotkey,
cut to the cap, and the share over the cap is carried. Three facts about
that, each for any rows whose amounts are not negative:

- the rewards are the accrued amounts times the scale, and add up to at
  most the cap (`rewards_capped`);
- rewards and carry together are at most what was added up
  (`sumOn_rewards`, `sumOn_carriedOut_le`);
- the carry is at most its own cap (`carriedOut_most`): each origin that
  is burned is burned whole, or there is no excess left.
-/
import Reliquary.Pay.Ledger

namespace Reliquary.Pay

open Store Rl List

variable {config : LedgerConfig} {prices : LedgerPrices} {parts : List CarryRow}

-- ===== env factors

/-- The limit of an env is not negative. -/
theorem limit_nonneg (config : LedgerConfig) (prices : LedgerPrices)
    {k : ℚ} (hk : 0 < k) (env : String) :
    0 ≤ k * (prices.targets.lookup env).getD 0 * config.cap := by
  have htarget : 0 ≤ (prices.targets.lookup env).getD 0 := by
    cases hl : prices.targets.lookup env with
    | none => exact le_refl 0
    | some v => exact prices.target_nonneg _ (mem_of_lookup hl)
  have hcap := config.cap_fraction.1
  positivity

/-- A factor is a fraction. -/
theorem envScale_fraction (rows : List Accrual) {et : String × ℚ}
    (h : et ∈ envScale config prices rows) : 0 ≤ et.2 ∧ et.2 ≤ 1 := by
  unfold envScale at h
  split at h
  next => cases h
  next k hk =>
    obtain ⟨x, -, rfl⟩ := mem_map.1 h
    have hlimit := limit_nonneg config prices (config.envPayK_pos k hk) x.1
    dsimp only
    split
    · exact ⟨zero_le_one, le_refl 1⟩
    next hover =>
      split
      next hpos =>
        refine ⟨div_nonneg hlimit hpos.le, ?_⟩
        rw [div_le_one hpos]
        exact (not_le.1 hover).le
      next => exact ⟨zero_le_one, le_refl 1⟩

/-- A scaled amount is at most the amount. -/
theorem scaledAmount_bounds (rows : List Accrual) {r : Accrual}
    (hr : 0 ≤ r.amount) : 0 ≤ scaledAmount (envScale config prices rows) r
      ∧ scaledAmount (envScale config prices rows) r ≤ r.amount := by
  unfold scaledAmount
  cases hl : (envScale config prices rows).lookup r.environment with
  | none => simpa using hr
  | some c =>
    obtain ⟨h0, h1⟩ := envScale_fraction rows (mem_of_lookup hl)
    exact ⟨mul_nonneg hr h0, mul_le_of_le_one_right hr h1⟩

-- ===== what is added up

section Amounts

variable {rows : List Accrual} {carried : List CarryRow}
  {fill : List (String × ℚ)}

/-- What the rows of some hotkeys amount to. -/
def amountOn (p : String → Bool) (rows : List Accrual) : ℚ :=
  (rows.map fun r => if p r.hotkey then r.amount else 0).sum

/-- The same under the factors of the envs. -/
def scaledOn (scales : List (String × ℚ)) (p : String → Bool)
    (rows : List Accrual) : ℚ :=
  (rows.map fun r => if p r.hotkey then scaledAmount scales r else 0).sum

/-- What some hotkeys have carried. -/
abbrev carryOn (p : String → Bool) (carry : List CarryRow) : ℚ :=
  sumOn (fun k => p k.1) carry

theorem scaledOn_le (config : LedgerConfig) (prices : LedgerPrices)
    (hrows : ∀ r ∈ rows, 0 ≤ r.amount) (p : String → Bool) :
    scaledOn (envScale config prices rows) p rows ≤ amountOn p rows := by
  refine sum_le_sum ?_
  intro r hr
  split
  · exact (scaledAmount_bounds rows (hrows r hr)).2
  · exact le_refl 0

theorem sumOn_accruedBy (scales : List (String × ℚ)) (p : String → Bool) :
    sumOn p (accruedBy rows scales carried fill)
      = scaledOn scales p rows + carryOn p carried + sumOn p fill := by
  unfold accruedBy
  rw [sumOn_gather, sumOn_gather, sumOn_gather, sumOn_nil, zero_add]
  rfl

theorem nonneg_accruedBy (hrows : ∀ r ∈ rows, 0 ≤ r.amount)
    (hcarried : Nonneg carried) (hfill : Nonneg fill) :
    Nonneg (accruedBy rows (envScale config prices rows) carried fill) := by
  refine Nonneg.gather hfill (Nonneg.gather hcarried (Nonneg.gather ?_ ?_))
  · exact fun r hr => (scaledAmount_bounds rows (hrows r hr)).1
  · exact nofun

-- ===== the cap

theorem scaleOf_fraction (config : LedgerConfig) (all : ℚ) :
    0 < scaleOf config all ∧ scaleOf config all ≤ 1 := by
  have hcap := config.cap_fraction.1
  unfold scaleOf
  split
  · exact ⟨one_pos, le_refl 1⟩
  next hover =>
    have hall : 0 < all := hcap.trans (not_le.1 hover)
    refine ⟨div_pos hcap hall, ?_⟩
    rw [div_le_one hall]
    exact (not_le.1 hover).le

theorem mul_scaleOf_le (all : ℚ) : all * scaleOf config all ≤ config.cap := by
  have hcap := config.cap_fraction.1
  unfold scaleOf
  split
  next hle => rwa [mul_one]
  next hover =>
    have hall : 0 < all := hcap.trans (not_le.1 hover)
    rw [mul_div_cancel₀ _ hall.ne']

variable {period entry : Int} {downS : ℚ}

/-- The rewards are what was added up, times the scale. -/
theorem sumOn_rewards (hrows : ∀ r ∈ rows, 0 ≤ r.amount)
    (hcarried : Nonneg carried) (hfill : Nonneg fill) (p : String → Bool) :
    sumOn p (archiveOf config prices period entry rows carried fill
        downS).rewards
      = (scaledOn (envScale config prices rows) p rows + carryOn p carried
          + sumOn p fill)
        * (archiveOf config prices period entry rows carried fill
            downS).scale := by
  show sumOn p (byHotkey _) = _
  unfold byHotkey
  rw [sumOn_perm (perm_insertionSort _ _), sumOn_scale,
    (nonneg_accruedBy hrows hcarried hfill).sumOn_pos, sumOn_accruedBy]
  rfl

/-- **An archive pays at most the cap.** -/
theorem rewards_capped (hrows : ∀ r ∈ rows, 0 ≤ r.amount)
    (hcarried : Nonneg carried) (hfill : Nonneg fill) :
    total (archiveOf config prices period entry rows carried fill
      downS).rewards ≤ config.cap := by
  unfold total
  rw [sumOn_rewards hrows hcarried hfill, ← sumOn_accruedBy]
  exact mul_scaleOf_le _

-- ===== the carry

theorem sumOn_carryParts (period : Int) (scales : List (String × ℚ))
    (unpaid : ℚ) (p : String → Bool) :
    carryOn p (carryParts period rows scales carried unpaid)
      = (scaledOn scales p rows + carryOn p carried) * unpaid := by
  unfold carryParts carryOn
  rw [sumOn_gather, sumOn_gather, sumOn_nil, zero_add, add_mul]
  unfold scaledOn sumOn
  rw [← sum_map_mul_right, ← sum_map_mul_right]
  simp only [ite_mul, zero_mul]

theorem nonneg_carryParts (hrows : ∀ r ∈ rows, 0 ≤ r.amount)
    (hcarried : Nonneg carried) {unpaid : ℚ} (hu : 0 ≤ unpaid) :
    Nonneg (carryParts period rows (envScale config prices rows) carried
      unpaid) := by
  refine Nonneg.gather ?_ (Nonneg.gather ?_ ?_)
  · exact fun c hc => mul_nonneg (hcarried c hc) hu
  · exact fun r hr =>
      mul_nonneg (scaledAmount_bounds rows (hrows r hr)).1 hu
  · exact nofun

end Amounts

-- ===== the burning

/-- What the burning keeps true: the excess is what is over the most, no
part grows or turns negative, and while there is an excess the parts
still held have their origins still to come. -/
structure Burning (most : ℚ) (parts : List CarryRow)
    (acc : List CarryRow × ℚ) (origins : List Int) : Prop where
  nonneg : Nonneg acc.1
  excess : acc.2 = total acc.1 - most
  keys : ∀ c ∈ acc.1, ∃ c' ∈ parts, c'.1 = c.1
  le : ∀ p, sumOn p acc.1 ≤ sumOn p parts
  left : acc.2 ≤ 0 ∨ ∀ c ∈ acc.1, c.2 = 0 ∨ c.1.2 ∈ origins

/-- The factor leaves `held - cut` of `held`; where the excess is not
burned by it, nothing is left. -/
theorem burnFactor_spec {held excess : ℚ} (hheld : 0 ≤ held)
    (hexcess : 0 < excess) :
    0 ≤ burnFactor excess held ∧ burnFactor excess held ≤ 1
      ∧ held * burnFactor excess held = held - min excess held
      ∧ (excess < held ∨ burnFactor excess held = 0) := by
  unfold burnFactor
  by_cases hpos : 0 < held
  · rw [if_pos hpos]
    have hmin : 0 ≤ min excess held := le_min hexcess.le hheld
    have hle : min excess held / held ≤ 1 := by
      rw [div_le_one hpos]
      exact min_le_right ..
    have hdiv := div_nonneg hmin hheld
    refine ⟨by linarith, by linarith, ?_, ?_⟩
    · rw [mul_sub, mul_one, mul_div_cancel₀ _ hpos.ne']
    · by_cases hlt : excess < held
      · exact .inl hlt
      · right
        rw [min_eq_right (not_lt.1 hlt), div_self hpos.ne', sub_self]
  · rw [if_neg hpos]
    have hz : held = 0 := le_antisymm (not_lt.1 hpos) hheld
    refine ⟨le_refl 0, zero_le_one, ?_, .inr rfl⟩
    rw [hz, min_eq_right hexcess.le]
    ring

/-- The burning of one origin. -/
theorem Burning.step {most : ℚ} {acc : List CarryRow × ℚ} {origin : Int}
    {origins : List Int} (h : Burning most parts acc (origin :: origins)) :
    Burning most parts (burnOrigin acc origin) origins := by
  unfold burnOrigin
  by_cases hdone : acc.2 ≤ 0
  · rw [if_pos hdone]
    exact { h with left := .inl hdone }
  rw [if_neg hdone]
  have hheld : 0 ≤ total (acc.1.filter fun c => c.1.2 == origin) :=
    (h.nonneg.filter _).sumOn _
  obtain ⟨hf0, hf1, hcut, hzero⟩ := burnFactor_spec hheld (not_le.1 hdone)
  have hkey : ∀ (c : CarryRow) (f : ℚ),
      (if c.1.2 == origin then (c.1, c.2 * f) else c).1 = c.1 := by
    intro c f
    split
    · rfl
    · rfl
  refine ⟨?_, ?_, ?_, ?_, ?_⟩
  · intro c hc
    obtain ⟨c₀, hc₀, rfl⟩ := mem_map.1 hc
    split
    · exact mul_nonneg (h.nonneg c₀ hc₀) hf0
    · exact h.nonneg c₀ hc₀
  · have hsplit := sumOn_filter (fun _ => true)
      (fun c : CarryRow => c.1.2 == origin) acc.1
    show acc.2 - _ = sumOn (fun _ => true) (acc.1.map _) - most
    rw [sumOn_scaleWhere (fun _ => true)
      (fun k : String × Int => k.2 == origin), hcut, h.excess]
    unfold total
    rw [← hsplit]
    ring
  · intro c hc
    obtain ⟨c₀, hc₀, rfl⟩ := mem_map.1 hc
    rw [hkey]
    exact h.keys c₀ hc₀
  · intro p
    refine (sumOn_map_le (fun c _ => hkey c _) ?_ p).trans (h.le p)
    intro c hc
    split
    · exact mul_le_of_le_one_right (h.nonneg c hc) hf1
    · exact le_refl _
  · -- the excess is burned, or this origin is
    rcases hzero with hlt | hzero
    · left
      dsimp only
      rw [min_eq_left hlt.le, sub_self]
    · right
      intro c hc
      obtain ⟨c₀, hc₀, rfl⟩ := mem_map.1 hc
      by_cases horigin : (c₀.1.2 == origin) = true
      · rw [if_pos horigin, hzero]
        exact .inl (mul_zero _)
      · rw [if_neg horigin]
        rcases h.left with hle | hrest
        · exact absurd hle hdone
        · rcases hrest c₀ hc₀ with hz | hmem
          · exact .inl hz
          · right
            refine mem_of_ne_of_mem ?_ hmem
            simpa using horigin

theorem Burning.fold {most : ℚ} (origins : List Int) :
    ∀ {acc : List CarryRow × ℚ}, Burning most parts acc origins →
      Burning most parts (origins.foldl burnOrigin acc) [] := by
  induction origins with
  | nil => exact fun h => h
  | cons origin origins ih => exact fun h => ih h.step

/-- The parts after the burning. -/
theorem burnOldest_spec (most : ℚ) (hparts : Nonneg parts) :
    ∃ excess, Burning most parts (burnOldest most parts, excess) [] := by
  refine ⟨_, Burning.fold _ ⟨hparts, rfl, ?_, fun p => le_refl _, ?_⟩⟩
  · exact fun c hc => ⟨c, hc, rfl⟩
  · right
    intro c hc
    right
    rw [mem_insertionSort, mem_dedup]
    exact mem_map_of_mem hc

/-- What is left is at most the most. -/
theorem Burning.total_le {most excess : ℚ} {parts left : List CarryRow}
    (hmost : 0 ≤ most) (h : Burning most parts (left, excess) []) :
    total left ≤ most := by
  have hex : excess = total left - most := h.excess
  rcases h.left with hle | hzero
  · have hle : excess ≤ 0 := hle
    linarith
  · have hz : total left = 0 := by
      refine sum_eq_zero ?_
      intro v hv
      obtain ⟨c, hc, rfl⟩ := mem_map.1 hv
      rcases hzero c hc with hz | hmem
      · exact hz
      · cases hmem
    rw [hz]
    exact hmost

-- ===== what is carried out

section Out

variable {rows : List Accrual} {carried : List CarryRow} {unpaid : ℚ}

/-- **What is carried out**: nothing negative, at most the share of what
was added up, at most the cap of the carry, and of the period or of what
was carried in. -/
theorem carriedOut_spec (config : LedgerConfig) (prices : LedgerPrices)
    (period : Int) (hrows : ∀ r ∈ rows, 0 ≤ r.amount)
    (hcarried : Nonneg carried) (hu : 0 ≤ unpaid) :
    Nonneg (carriedOut config period rows (envScale config prices rows)
        carried unpaid)
      ∧ (∀ p, carryOn p (carriedOut config period rows
          (envScale config prices rows) carried unpaid)
          ≤ (scaledOn (envScale config prices rows) p rows
              + carryOn p carried) * unpaid)
      ∧ total (carriedOut config period rows (envScale config prices rows)
          carried unpaid) ≤ config.carryMaxCaps * config.cap
      ∧ ∀ c ∈ carriedOut config period rows (envScale config prices rows)
          carried unpaid, (∃ r ∈ rows, r.hotkey = c.1.1 ∧ c.1.2 = period)
            ∨ ∃ c' ∈ carried, c'.1 = c.1 := by
  have hmost : 0 ≤ config.carryMaxCaps * config.cap :=
    mul_nonneg config.carryMax_nonneg config.cap_fraction.1.le
  have hparts : Nonneg (carryParts period rows
      (envScale config prices rows) carried unpaid) :=
    nonneg_carryParts hrows hcarried hu
  unfold carriedOut
  by_cases hoff : config.carryPeriods = 0
  · rw [if_pos hoff]
    refine ⟨nofun, ?_, hmost, nofun⟩
    intro p
    rw [← sumOn_carryParts period]
    exact hparts.sumOn _
  rw [if_neg hoff]
  obtain ⟨excess, hb⟩ := burnOldest_spec
    (config.carryMaxCaps * config.cap) hparts
  refine ⟨hb.nonneg, ?_, hb.total_le hmost, ?_⟩
  · intro p
    rw [← sumOn_carryParts period]
    exact hb.le _
  · intro c hc
    obtain ⟨c', hc', hkey⟩ := hb.keys c hc
    rcases key_gather hc' with ⟨y, hy, hyc⟩ | ⟨c'', hc'', hk⟩
    · rcases key_gather hy with ⟨z, hz, -⟩ | ⟨r, hr, hk⟩
      · cases hz
      · left
        rw [← hkey, ← hyc, ← hk]
        exact ⟨r, hr, rfl, rfl⟩
    · exact .inr ⟨c'', hc'', hk.trans hkey⟩

end Out

end Reliquary.Pay
