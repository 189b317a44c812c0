/-
How long the trainer was down (`rl_ledger.py`, `_outages` and
`_outage_seconds`).

# What is modeled how

A list of intervals stands for the set of the instants inside one of them
(`downAt`); an interval `(s, e)` is half open, as one outage that ends
where the next begins is one outage. The length of such a set is its
Lebesgue measure. The functions are those of `Ledger.lean`.

# Shape of the argument

The sweep goes over the intervals by their starts. What it has not counted
yet is the part of the union at or after its reach (`sweep_length`). A
piece of a silence lies in it and on one side of every downtime
(`mem_cut`).
-/
import Mathlib.MeasureTheory.Measure.Lebesgue.Basic
import Reliquary.Pay.Ledger

namespace Reliquary.Pay

open MeasureTheory Set List

-- ===== the instants of a list of intervals

def instants (se : ℚ × ℚ) : Set ℝ := Ico (se.1 : ℝ) se.2

/-- The instants inside some interval. -/
def downAt (spans : List (ℚ × ℚ)) : Set ℝ := {t | ∃ se ∈ spans, t ∈ instants se}

/-- A period, from its start up to its end. -/
def periodSpan (config : LedgerConfig) (period : Int) : ℚ × ℚ :=
  (periodEnd period config.genesis - periodSeconds,
    periodEnd period config.genesis)

section Length

variable {se : ℚ × ℚ} {spans : List (ℚ × ℚ)} {t : ℝ}

theorem instants_inter (a b : ℚ × ℚ) :
    instants a ∩ instants b = instants (max a.1 b.1, min a.2 b.2) := by
  unfold instants
  rw [Ico_inter_Ico]
  push_cast
  rfl

theorem downAt_cons : downAt (se :: spans) = instants se ∪ downAt spans := by
  ext t
  simp [downAt]

/-- An interval has no instant from its end on. -/
theorem downAt_from {c : ℝ} (h : (se.2 : ℝ) ≤ c) :
    downAt (se :: spans) ∩ Ici c = downAt spans ∩ Ici c := by
  rw [downAt_cons, union_inter_distrib_right]
  exact union_eq_right.2 fun t ht => absurd ht.1.2 (not_lt.2 (h.trans ht.2))

theorem downAt_ne_top (spans : List (ℚ × ℚ)) : volume (downAt spans) ≠ ⊤ := by
  induction spans with
  | nil => simp [downAt]
  | cons se spans ih =>
    rw [downAt_cons]
    exact measure_union_ne_top (by simp [instants]) ih

theorem inter_ne_top (spans : List (ℚ × ℚ)) (S : Set ℝ) :
    volume (downAt spans ∩ S) ≠ ⊤ :=
  measure_ne_top_of_subset inter_subset_left (downAt_ne_top spans)

/-- What is between two instants is what is before the later and not before
the earlier. -/
theorem length_between {a b : ℚ} (hab : a ≤ b) :
    volume.real (downAt spans ∩ instants (a, b)) =
      volume.real (downAt spans ∩ Iio (b : ℝ))
        - volume.real (downAt spans ∩ Iio (a : ℝ)) := by
  have hsplit := measureReal_inter_add_sdiff
    (measurableSet_Iio (a := (a : ℝ))) (inter_ne_top spans (Iio (b : ℝ)))
  rw [inter_assoc, Iio_inter_Iio, min_eq_right (by exact_mod_cast hab),
    inter_sdiff_assoc, Iio_sdiff_Iio] at hsplit
  exact eq_sub_of_add_eq' hsplit

/-- The sweep counts what is at or after its reach. -/
theorem sweep_length (hwf : ∀ se ∈ spans, se.1 ≤ se.2)
    (hsorted : spans.Pairwise fun a b => a.1 ≤ b.1) (acc : ℚ × ℚ) :
    ((spans.foldl (fun (acc : ℚ × ℚ) se =>
      if acc.2 < se.2 then (acc.1 + (se.2 - max se.1 acc.2), se.2)
      else acc) acc).1 : ℝ) =
      acc.1 + volume.real (downAt spans ∩ Ici (acc.2 : ℝ)) := by
  induction spans generalizing acc with
  | nil => simp [downAt]
  | cons se spans ih =>
    obtain ⟨hfirst, hsorted⟩ := pairwise_cons.1 hsorted
    have ih := ih (fun x hx => hwf x (mem_cons_of_mem _ hx)) hsorted
    rw [foldl_cons, ih]
    split
    next hreach =>
      have hmax : max se.1 acc.2 ≤ se.2 :=
        max_le (hwf se mem_cons_self) hreach.le
      have hr : (acc.2 : ℝ) < se.2 := by exact_mod_cast hreach
      have hfirst : ∀ x ∈ spans, (se.1 : ℝ) ≤ x.1 := by exact_mod_cast hfirst
      -- the part before the new reach, and the part from it on
      have hnew : downAt (se :: spans) ∩ Ici (acc.2 : ℝ) ∩ Iio (se.2 : ℝ) =
          Ico ((max se.1 acc.2 : ℚ) : ℝ) se.2 := by
        ext t
        simp [downAt, instants]
        grind
      have hlen := measureReal_inter_add_sdiff (measurableSet_Iio
        (a := (se.2 : ℝ))) (inter_ne_top (se :: spans) (Ici (acc.2 : ℝ)))
      rw [hnew, Real.volume_real_Ico_of_le (by exact_mod_cast hmax),
        inter_sdiff_assoc, sdiff_eq, compl_Iio, Ici_inter_Ici,
        max_eq_right hr.le, downAt_from le_rfl] at hlen
      rw [← hlen]
      push_cast
      ring
    next hreach =>
      rw [downAt_from (by exact_mod_cast not_lt.1 hreach)]

end Length

-- ===== the outages

section Outages

variable {config : LedgerConfig} {db : LedgerDb} {downtime : List (ℚ × ℚ)}
  {now : ℚ} {outages : List (ℚ × ℚ)}

/-- A piece lies in one it was cut from, on one side of each downtime. -/
theorem mem_cut {down pieces : List (ℚ × ℚ)} {ab : ℚ × ℚ}
    (h : ab ∈ down.foldl cutDowntime pieces) :
    ∃ cd ∈ pieces, cd.1 ≤ ab.1 ∧ ab.2 ≤ cd.2 ∧
      ∀ d ∈ down, ab.2 ≤ d.1 ∨ d.2 ≤ ab.1 := by
  induction down generalizing pieces with
  | nil => exact ⟨ab, h, le_rfl, le_rfl, nofun⟩
  | cons d down ih =>
    obtain ⟨p, hp, ha, hb, hdown⟩ := ih h
    obtain ⟨cd, hcd, hp⟩ := mem_flatMap.1 hp
    refine ⟨cd, hcd, ?_⟩
    have hside := (mem_filter.1 hp).1
    rw [mem_pair] at hside
    rcases hside with rfl | rfl
    · refine ⟨ha, hb.trans (min_le_left _ _), forall_mem_cons.2 ⟨?_, hdown⟩⟩
      exact .inl (hb.trans (min_le_right _ _))
    · refine ⟨(le_max_left _ _).trans ha, hb,
        forall_mem_cons.2 ⟨?_, hdown⟩⟩
      exact .inr ((le_max_right _ _).trans ha)

/-- An outage is cut from a silence longer than the grace. -/
theorem mem_outagesAt {ab : ℚ × ℚ} (h : ab ∈ outagesAt config db downtime now) :
    ab.1 ≤ ab.2 ∧ (∀ d ∈ downtime, ab.2 ≤ d.1 ∨ d.2 ≤ ab.1) ∧
      ∃ silence,
        (silence ∈ db.outages ∨ ∃ last ∈ db.beat, silence = (last, now))
        ∧ config.outageGraceS < silence.2 - silence.1
        ∧ silence.1 ≤ ab.1 ∧ ab.2 ≤ silence.2 := by
  unfold outagesAt at h
  split at h
  · cases h
  obtain ⟨span, hspan, h⟩ := mem_flatMap.1 h
  obtain ⟨p, hp, rfl⟩ := mem_map.1 h
  obtain ⟨hcut, hlong⟩ := mem_filter.1 hp
  obtain ⟨s, hs, ha, hb, hdown⟩ := mem_cut hcut
  obtain rfl := mem_singleton.1 hs
  have hlong : config.outageGraceS < p.2 - p.1 := of_decide_eq_true hlong
  have hend : min p.2 (p.1 + config.outageMaxS) ≤ p.2 := min_le_left _ _
  refine ⟨?_, ?_, s, ?_, by linarith, ha, hend.trans hb⟩
  · have hgrace := config.grace_pos
    have hmax := config.outageMax_nonneg
    exact le_min (by linarith) (by linarith)
  · intro d hd
    exact (hdown d ((perm_insertionSort _ _).mem_iff.2 hd)).imp_left
      hend.trans
  · rcases mem_append.1 hspan with hspan | hspan
    · exact .inl hspan
    · right
      split at hspan
      · cases hspan
      next last hbeat =>
        split at hspan
        · exact ⟨last, hbeat, mem_singleton.1 hspan⟩
        · cases hspan

/-- The order the ledger sorts intervals in. -/
abbrev spanLe (a b : ℚ × ℚ) : Prop := a.1 < b.1 ∨ (a.1 = b.1 ∧ a.2 ≤ b.2)

theorem sorted_starts (spans : List (ℚ × ℚ)) :
    (spans.insertionSort spanLe).Pairwise fun a b => a.1 ≤ b.1 := by
  have hlex : ∀ a b, spanLe a b ↔ toLex a ≤ toLex b :=
    fun _ _ => Prod.Lex.toLex_le_toLex.symm
  have : Std.Total spanLe := ⟨fun a b => by
    rw [hlex, hlex]
    exact le_total _ _⟩
  have : IsTrans (ℚ × ℚ) spanLe := ⟨fun a b c => by
    rw [hlex, hlex, hlex]
    exact le_trans⟩
  refine (pairwise_insertionSort _ spans).imp fun h => ?_
  exact h.elim le_of_lt fun h => h.1.le

/-- The seconds counted are the length of the period's part of the union. -/
theorem outageSeconds_length (config : LedgerConfig)
    (hwf : ∀ se ∈ outages, se.1 ≤ se.2) (period : Int) :
    (outageSeconds config period outages : ℝ) =
      volume.real (downAt outages ∩ instants (periodSpan config period)) := by
  unfold outageSeconds
  dsimp only
  set stop := periodEnd period config.genesis with hstop
  set start := stop - periodSeconds with hstart
  have hle : start ≤ stop := by norm_num [hstart, periodSeconds]
  set clipped := (outages.filter fun se => decide (se.1 < stop) &&
    decide (start < se.2)).map fun se => (max se.1 start, min se.2 stop)
  -- the interval clipped holds the instants of its own inside the period
  have hclip : ∀ x, x ∈ clipped ↔ ∃ se ∈ outages, (se.1 < stop ∧ start < se.2)
      ∧ (max se.1 start, min se.2 stop) = x := by
    simp [clipped, and_assoc]
  have hperm := perm_insertionSort spanLe clipped
  rw [sweep_length _ (sorted_starts clipped)]
  · have hset : downAt outages ∩ instants (periodSpan config period) =
        downAt (clipped.insertionSort spanLe) ∩ Ici (start : ℝ) := by
      ext t
      constructor
      · rintro ⟨⟨se, hse, hs, he⟩, hp, hq⟩
        have hin : se.1 < stop ∧ start < se.2 := by
          constructor
          · exact_mod_cast hs.trans_lt hq
          · exact_mod_cast hp.trans_lt he
        refine ⟨⟨_, hperm.mem_iff.2 ((hclip _).2 ⟨se, hse, hin, rfl⟩), ?_⟩, hp⟩
        exact (instants_inter se (start, stop)).subset ⟨⟨hs, he⟩, hp, hq⟩
      · rintro ⟨⟨x, hx, hin⟩, -⟩
        obtain ⟨se, hse, -, rfl⟩ := (hclip x).1 (hperm.mem_iff.1 hx)
        obtain ⟨hse', hp⟩ := (instants_inter se (start, stop)).superset hin
        exact ⟨⟨se, hse, hse'⟩, hp⟩
    rw [hset]
    simp
  · intro x hx
    obtain ⟨se, hse, hin, rfl⟩ := (hclip x).1 (hperm.mem_iff.1 hx)
    exact max_le (le_min (hwf se hse) hin.1.le) (le_min hin.2.le hle)

theorem periodSpan_succ (config : LedgerConfig) (period : Int) :
    (periodSpan config (period + 1)).1 = (periodSpan config period).2 := by
  unfold periodSpan periodEnd
  push_cast
  ring

theorem periodSpan_le (config : LedgerConfig) (period : Int) :
    (periodSpan config period).1 ≤ (periodSpan config period).2 := by
  norm_num [periodSpan, periodSeconds]

/-- Consecutive periods add up. -/
theorem sum_outageSeconds (hwf : ∀ se ∈ outages, se.1 ≤ se.2) (m : Int)
    (k : Nat) :
    ((∑ i ∈ Finset.range k, outageSeconds config (m + i) outages : ℚ) : ℝ) =
      volume.real (downAt outages ∩
        instants ((periodSpan config m).1, (periodSpan config (m + k)).1)) := by
  let before (i : Nat) :=
    volume.real (downAt outages ∩ Iio ((periodSpan config (m + i)).1 : ℝ))
  have hone : ∀ i : Nat, (outageSeconds config (m + i) outages : ℝ) =
      before (i + 1) - before i := by
    intro i
    rw [outageSeconds_length config hwf]
    refine (length_between (periodSpan_le config (m + i))).trans ?_
    rw [← periodSpan_succ, add_assoc]
    simp [before]
  have hle : (periodSpan config m).1 ≤ (periodSpan config (m + k)).1 := by
    simp [periodSpan, periodEnd, periodSeconds]
  rw [Rat.cast_sum, Finset.sum_congr rfl fun i _ => hone i,
    Finset.sum_range_sub, length_between hle]
  simp [before]

/-- **Outage time is measured exactly**: the seconds of a period are the
length of its part of the union of the outages, no more than the period
has; over consecutive periods they add up to the length of their part of
the union; and an instant of an outage is in no downtime of the validator
and in a silence of the trainer longer than the grace. -/
theorem outage_time_exact (config : LedgerConfig) (db : LedgerDb)
    (downtime : List (ℚ × ℚ)) (now : ℚ) :
    let outages := outagesAt config db downtime now
    (∀ period, (outageSeconds config period outages : ℝ) =
        volume.real (downAt outages ∩ instants (periodSpan config period)) ∧
      0 ≤ outageSeconds config period outages ∧
      outageSeconds config period outages ≤ periodSeconds) ∧
    (∀ (m : Int) (k : Nat),
      ((∑ i ∈ Finset.range k, outageSeconds config (m + i) outages : ℚ) : ℝ) =
        volume.real (downAt outages ∩
          instants ((periodSpan config m).1, (periodSpan config (m + k)).1))) ∧
    ∀ t ∈ downAt outages, (∀ d ∈ downtime, t ∉ instants d) ∧
      ∃ silence,
        (silence ∈ db.outages ∨ ∃ last ∈ db.beat, silence = (last, now))
        ∧ config.outageGraceS < silence.2 - silence.1
        ∧ t ∈ instants silence := by
  intro outages
  have hwf : ∀ se ∈ outages, se.1 ≤ se.2 := fun se h => (mem_outagesAt h).1
  refine ⟨fun period => ?_, sum_outageSeconds hwf, ?_⟩
  · have hlen := outageSeconds_length config hwf period
    refine ⟨hlen, ?_, ?_⟩
    · have hpos : (0 : ℝ) ≤ outageSeconds config period outages := by
        rw [hlen]
        exact measureReal_nonneg
      exact_mod_cast hpos
    · have hle : (outageSeconds config period outages : ℝ) ≤ periodSeconds := by
        rw [hlen]
        refine (measureReal_mono inter_subset_right ?_).trans ?_
        · simp [instants]
        · simp [instants, periodSpan, periodSeconds]
      exact_mod_cast hle
  · intro t ht
    obtain ⟨ab, hab, hs, he⟩ := ht
    obtain ⟨-, hdown, s, hsilence, hlong, hin, hout⟩ := mem_outagesAt hab
    refine ⟨?_, s, hsilence, hlong, ?_, ?_⟩
    · intro d hd hin
      rcases hdown d hd with h | h
      · exact absurd (he.trans_le (by exact_mod_cast h)) (not_lt.2 hin.1)
      · exact absurd (hin.2.trans_le (by exact_mod_cast h)) (not_lt.2 hs)
    · exact le_trans (by exact_mod_cast hin) hs
    · exact he.trans_le (by exact_mod_cast hout)

end Outages

end Reliquary.Pay
