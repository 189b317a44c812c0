/-
What the weight setter replays of a period task
(src/reliquary/validator/corpus_periods.py, `pay_ceiling`,
`archive_bound`, `replay`; src/reliquary/validator/weight_only.py,
`_period_weights` and the per-task part of `_replay_ema`).

An archive pays from its entry period on, a fixed share of what is left of
it in each period. `share d` is that share `d` periods after the entry:
the shares add up to less than one (`sum_share_le`), which bounds what an
archive pays over time and, as at most `catchupEntries` archives enter in
one period (`Placed.count_le`), what a task pays in one period.
-/
import Reliquary.Pay.Periods
import Reliquary.Store.Table

namespace Reliquary.Pay

open Store List

-- ===== the model

/-- A period task's parameters: its cap, and the highest cap it was paid
at. -/
structure PeriodParams where
  cap : Option ℚ
  tailCap : Option ℚ
  cap_nonneg : ∀ c ∈ cap, 0 ≤ c

/-- The most one of the task's archives may pay. -/
def payCeiling (params : PeriodParams) : Option ℚ :=
  params.cap.map fun cap => match params.tailCap with
    | none => cap
    | some tail => max cap tail

/-- What one archive may pay. -/
def archiveBound (recorded ceiling : Option ℚ) : Option ℚ :=
  match recorded, ceiling with
  | none, ceiling => ceiling
  | some cap, none => some cap
  | some cap, some ceiling => some (min cap ceiling)

/-- A period archive as the weight setter reads it. -/
structure PeriodDoc where
  rewards : List (String × ℚ)
  cap : Option ℚ
  replacesEntryPeriod : Option Int := none
  rewards_nonneg : Nonneg rewards

/-- The part of an archive's rewards paid `d` periods after its entry. -/
def share (d : Int) : ℚ :=
  if d < 0 ∨ replayDepth < d then 0
  else periodAlpha * (1 - periodAlpha) ^ d.toNat

/-- One round of `replay`: an archive's rewards, decayed. -/
def replayOne (current : Int) (weights : List (String × ℚ))
    (doc : Int × List (String × ℚ)) : List (String × ℚ) :=
  if current - doc.1 < 0 ∨ replayDepth < current - doc.1 then weights
  else gather Prod.fst (fun x => share (current - doc.1) * x.2) doc.2 weights

/-- The loop of `replay`. -/
def replaySum (docs : List (Int × List (String × ℚ))) (current : Int) :
    List (String × ℚ) :=
  docs.foldl (replayOne current) []

/-- One task's weights in a period. -/
def replay (docs : List (Int × List (String × ℚ))) (current : Int) :
    List (String × ℚ) :=
  (replaySum docs current).filter fun x => decide (1 / 10 ^ 9 < x.2)

/-- An archive's rewards, scaled down where they are over its bound. -/
def boundRewards (cap : Option ℚ) (rewards : List (String × ℚ)) :
    List (String × ℚ) :=
  match cap with
  | none => rewards
  | some cap =>
    if cap * (1 + 1 / 10 ^ 9) < total rewards then
      if cap ≤ 0 then []
      else rewards.map fun x => (x.1, x.2 * cap / total rewards)
    else rewards

/-- The entries of a work period before `k`'s, which may have replaced
it. -/
def earlierKeys (listed : List (Int × Int)) (k : Int × Int) :
    List (Int × Int) :=
  listed.filter fun k' => decide (k'.1 = k.1 ∧ k'.2 < k.2)

/-- A task's part of `_period_weights`, from the keys listed (a work and an
entry period) and what reading one gives. `none`: a listed archive cannot
be read, and the round is given up. -/
def periodWeights (ceiling : Option ℚ) (listed : List (Int × Int))
    (read : Int × Int → Option PeriodDoc) (current : Int) :
    Option (List (String × ℚ)) := do
  let keys := listed.filter fun k =>
    decide (0 ≤ current - k.2 ∧ current - k.2 ≤ replayDepth)
  if keys.any fun k => (earlierKeys listed k).any fun k' => (read k').isNone
  then none
  else
    let replaced := fun k => (earlierKeys listed k).any fun k' =>
      (read k').any fun doc => doc.replacesEntryPeriod == some k.2
    let docs ← (keys.filter fun k => !replaced k).mapM fun k =>
      (read k).map fun doc =>
        (k.2, boundRewards (archiveBound doc.cap ceiling) doc.rewards)
    return replay docs current

/-- One task's weights, scaled down to the most the task may pay. -/
def clampToCap (ema : List (String × ℚ)) (cap : Option ℚ) : List (String × ℚ) :=
  match cap with
  | none => ema
  | some cap =>
    if total ema ≤ cap then ema
    else if cap ≤ 0 ∨ total ema ≤ 0 then []
    else ema.map fun x => (x.1, x.2 * (cap / total ema))

/-- A period task's part of `_replay_ema` before the clamp: what its
windows gave, and its period weights. -/
def periodEma (windows weights : List (String × ℚ)) : List (String × ℚ) :=
  gather Prod.fst Prod.snd weights windows

/-- What a period task is clamped to, from its cap and its ceiling. -/
def periodTaskCap (cap ceiling : Option ℚ) : Option ℚ :=
  (ceiling.or cap).map fun c => c * catchupEntries

-- ===== the shares

theorem share_nonneg (d : Int) : 0 ≤ share d := by
  unfold share
  split_ifs
  · exact le_refl 0
  · norm_num [periodAlpha, periodEmaN]

theorem sum_share_Icc : ∑ d ∈ Finset.Icc 0 replayDepth, share d
      = 1 - (1 - periodAlpha) ^ (replayDepth.toNat + 1) := by
  decide +kernel

/-- **The shares of any periods add up to less than one.** -/
theorem sum_share_le (s : Finset Int) :
    ∑ d ∈ s, share d ≤ 1 - (1 - periodAlpha) ^ (replayDepth.toNat + 1) := by
  rw [← sum_share_Icc, ← Finset.sum_filter_add_sum_filter_not s
    (fun d => d ∈ Finset.Icc 0 replayDepth)]
  have hout : ∑ d ∈ s with d ∉ Finset.Icc 0 replayDepth, share d = 0 := by
    apply Finset.sum_eq_zero
    intro d hd
    have hd := (Finset.mem_filter.1 hd).2
    rw [Finset.mem_Icc] at hd
    exact if_pos (by omega)
  rw [hout, add_zero]
  apply Finset.sum_le_sum_of_subset_of_nonneg
  · intro d hd
    exact (Finset.mem_filter.1 hd).2
  · intro d _ _
    exact share_nonneg d

-- ===== the replay

/-- **What the loop adds up**: each archive's share of its rewards. -/
theorem sumOn_replaySum (p : String → Bool)
    (docs : List (Int × List (String × ℚ))) (current : Int) :
    sumOn p (replaySum docs current) = (docs.map fun doc =>
          share (current - doc.1) * sumOn p doc.2).sum := by
  have hloop : ∀ t : List (String × ℚ),
      sumOn p (docs.foldl (replayOne current) t)
        = sumOn p t + (docs.map fun doc =>
          share (current - doc.1) * sumOn p doc.2).sum := by
    induction docs with
    | nil => simp
    | cons doc docs ih =>
      intro t
      rw [foldl_cons, ih, map_cons, sum_cons, ← add_assoc]
      congr 1
      unfold replayOne
      split_ifs with hd
      · rw [share, if_pos hd, zero_mul, add_zero]
      · rw [sumOn_gather]
        congr 1
        rw [sumOn, ← sum_map_mul_left]
        simp only [mul_ite, mul_zero]
  exact (hloop []).trans (zero_add _)

variable {docs : List (Int × List (String × ℚ))}

theorem nonneg_replaySum (h : ∀ doc ∈ docs, Nonneg doc.2) (current : Int) :
    Nonneg (replaySum docs current) ∧
      ((replaySum docs current).map Prod.fst).Nodup := by
  apply foldlRecOn docs _ (motive := fun t => Nonneg t ∧ (t.map Prod.fst).Nodup)
  · exact ⟨nofun, nodup_nil⟩
  · intro t ht doc hdoc
    unfold replayOne
    split_ifs
    · exact ht
    · refine ⟨ht.1.gather fun x hx => ?_, nodup_gather _ _ _ ht.2⟩
      exact mul_nonneg (share_nonneg _) (h doc hdoc x hx)

/-- What a hotkey gets, apart from the cut. -/
theorem sumAt_replay (h : ∀ doc ∈ docs, Nonneg doc.2) (current : Int)
    (hotkey : String) :
    sumAt (replay docs current) hotkey = let v := (docs.map fun doc =>
          share (current - doc.1) * sumAt doc.2 hotkey).sum
        if 1 / 10 ^ 9 < v then v else 0 := by
  rw [← sumOn_replaySum]
  have hcut := sumAt_filter_value (q := fun v => decide (1 / 10 ^ 9 < v))
    (by norm_num) (nonneg_replaySum h current).2 hotkey
  simp only [decide_eq_true_eq] at hcut
  exact hcut

-- ===== entries and caps

/-- Archives placed one after another: each entered where `entry_for` put
it, over the entry periods of those before it. -/
inductive Placed : List ((Int × Int) × PeriodDoc) → Prop
  | nil : Placed []
  | snoc {archives : List ((Int × Int) × PeriodDoc)} {work due : Int}
      {used : List Int} {doc : PeriodDoc} : Placed archives →
      Placed (archives ++ [((work,
        entryFor due (archives.map fun x => x.1.2) used), doc)])

variable {archives : List ((Int × Int) × PeriodDoc)}

/-- So many archives enter in one period at most. -/
theorem Placed.count_le (h : Placed archives) (e : Int) :
    (archives.map fun x => x.1.2).count e ≤ catchupEntries := by
  induction h with
  | nil => simp
  | @snoc archives work due used doc _ ih =>
    obtain ⟨hdue, hroom, -⟩ := entryFor_spec due
      (archives.map fun x => x.1.2) used (show 0 < catchupEntries by decide)
    rw [takenAt_of_le hdue] at hroom
    simp only [map_append, map_cons, map_nil,
      List.count_append, count_singleton]
    split_ifs with he
    · have he := beq_iff_eq.1 he
      rw [← he]
      omega
    · omega

/-- **What a period pays**: at most so many caps, when at most so many
archives enter in each period. -/
theorem sum_share_entries_le {n : Nat} {ceiling : ℚ} (hc : 0 ≤ ceiling)
    {docs : List (Int × ℚ)} (hcount : ∀ e, (docs.map Prod.fst).count e ≤ n)
    (hpaid : ∀ doc ∈ docs, doc.2 ≤ ceiling) (current : Int) :
    (docs.map fun doc => share (current - doc.1) * doc.2).sum
      ≤ n * ceiling := by
  calc (docs.map fun doc => share (current - doc.1) * doc.2).sum
    _ ≤ (docs.map fun doc => share (current - doc.1) * ceiling).sum := by
        apply sum_le_sum
        intro doc hdoc
        exact mul_le_mul_of_nonneg_left (hpaid doc hdoc) (share_nonneg _)
    _ = ((docs.map Prod.fst).map fun e => share (current - e)).sum
          * ceiling := by
        rw [← sum_map_mul_right, map_map]
        rfl
    _ ≤ n * ceiling := by
        apply mul_le_mul_of_nonneg_right _ hc
        rw [Finset.sum_list_map_count]
        calc ∑ e ∈ (docs.map Prod.fst).toFinset,
              (docs.map Prod.fst).count e • share (current - e)
          _ ≤ ∑ e ∈ (docs.map Prod.fst).toFinset,
              (n : ℚ) * share (current - e) := by
              apply Finset.sum_le_sum
              intro e _
              exact mul_le_mul_of_nonneg_right (by exact_mod_cast hcount e)
                (share_nonneg _)
          _ = n * ∑ d ∈ ((docs.map Prod.fst).toFinset.image
              fun e => current - e), share d := by
              rw [← Finset.mul_sum, Finset.sum_image]
              intro e _ e' _ heq
              have heq : current - e = current - e' := heq
              omega
          _ ≤ n * 1 := by
              apply mul_le_mul_of_nonneg_left _ (Nat.cast_nonneg n)
              refine (sum_share_le _).trans ?_
              norm_num [periodAlpha, periodEmaN, replayDepth]
          _ = n := mul_one _

-- ===== what a task is paid

/-- A loop that reads only what is there. -/
theorem mapM_some {α β γ : Type} {f : β → Option γ} {e : α → β} {g : α → γ}
    {l : List α} (h : ∀ x ∈ l, f (e x) = some (g x)) :
    (l.map e).mapM f = some (l.map g) := by
  induction l with
  | nil => rfl
  | cons x l ih =>
    rw [map_cons, mapM_cons, h x mem_cons_self,
      ih fun y hy => h y (mem_cons_of_mem _ hy)]
    rfl

/-- **The weights of a task whose archives are within their caps**: the
rewards of some of its archives, none of them scaled down. -/
theorem periodWeights_eq (hnd : (archives.map Prod.fst).Nodup) {ceiling : ℚ}
    (hcap : ∀ x ∈ archives, ∃ cap, x.2.cap = some cap ∧
      total x.2.rewards ≤ cap ∧ cap ≤ ceiling) (current : Int) :
    ∃ kept : List ((Int × Int) × PeriodDoc), kept.Sublist archives ∧
      periodWeights (some ceiling) (archives.map Prod.fst)
          (fun k => archives.lookup k) current
        = some (replay (kept.map fun x => (x.1.2, x.2.rewards)) current) := by
  have hread : ∀ x ∈ archives, archives.lookup x.1 = some x.2 :=
    fun x hx => lookup_of_mem hnd hx
  have hbound : ∀ x ∈ archives,
      boundRewards (archiveBound x.2.cap (some ceiling)) x.2.rewards
        = x.2.rewards := by
    intro x hx
    obtain ⟨cap, hc, hpaid, hle⟩ := hcap x hx
    have hpos : 0 ≤ total x.2.rewards := x.2.rewards_nonneg.sumOn _
    have hnot : ¬ min cap ceiling * (1 + 1 / 10 ^ 9) < total x.2.rewards := by
      rw [min_eq_left hle, not_lt]
      nlinarith
    simp only [hc, archiveBound, boundRewards, if_neg hnot]
  have hall : ∀ k ∈ archives.map Prod.fst, (archives.lookup k).isNone
      = false := by
    intro k hk
    obtain ⟨x, hx, rfl⟩ := mem_map.1 hk
    rw [hread x hx]
    rfl
  unfold periodWeights
  have hearly : ∀ keys : List (Int × Int), (keys.any fun k =>
      (earlierKeys (archives.map Prod.fst) k).any fun k' =>
        (archives.lookup k').isNone) = false := by
    intro keys
    rw [any_eq_false]
    intro k _
    rw [Bool.not_eq_true, any_eq_false]
    intro k' hk'
    simp [hall k' (mem_of_mem_filter hk')]
  simp only [hearly, Bool.false_eq_true, if_false, filter_map]
  have hdocs : ∀ {kept : List ((Int × Int) × PeriodDoc)}, kept ⊆ archives →
      (kept.map Prod.fst).mapM (fun k => (archives.lookup k).map fun doc =>
        (k.2, boundRewards (archiveBound doc.cap (some ceiling)) doc.rewards))
      = some (kept.map fun x => (x.1.2, x.2.rewards)) := by
    intro kept hkept
    apply mapM_some
    intro x hx
    simp only [hread x (hkept hx), Option.map_some, hbound x (hkept hx)]
  have hsub := fun {p q : (Int × Int) × PeriodDoc → Bool} =>
    (filter_sublist (p := q)).trans (filter_sublist (p := p) (l := archives))
  rw [hdocs hsub.subset]
  exact ⟨_, hsub, rfl⟩

/-- An archive of half its cap. -/
def halfDoc : PeriodDoc := ⟨[("hotkey", 1 / 2)], some 1, none, by simp [Nonneg]⟩

end Reliquary.Pay
