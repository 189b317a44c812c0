/-
The votes of one item: which group `_settle` picks, how many providers it
needs, and who dissents. Facts about one `Work`; what holds over runs is in
Agreement.lean.

# The two facts a settlement rests on

- A group that fails a miner (an uncertified replay, a box failure) holds a
  vote that makes `agree_needed` two (`two_of_failing`).
- Where a voter of facts stands against the picked group, `agree_needed` is
  two as well (`two_of_dissent`): a replay on which every vote certifies has
  one group, and an undrawn grade is settled by its first vote. The second
  half is an assumption here: a vote taken back can break it.
-/
import Reliquary.Grade.Dispatch

namespace Reliquary.Grade

open Store List

variable {w : Work} {g : Key × List String} {a : Answer}

theorem decisionKey_box {m : Mode} :
    decisionKey m a = .unjudgeable ↔ a.status.box = true := by
  unfold decisionKey
  cases hb : a.status.box with
  | true => simp
  | false => cases m <;> simp

theorem decisionKey_replay (h : a.status.box = false) :
    decisionKey .replay a = .replay (replayCertified a) := by
  simp [decisionKey, h]

namespace Work

-- ===== groups

theorem of_mem_groups (h : g ∈ w.groups) : (∃ r ∈ w.results, w.keyOf r = g.1) ∧
      g.2 = (w.results.filter fun r => w.keyOf r = g.1).map Prod.fst := by
  obtain ⟨key, hkey, rfl⟩ := mem_map.1 h
  rw [mem_eraseDups] at hkey
  exact ⟨mem_map.1 hkey, rfl⟩

/-- The pick is one of the groups. -/
theorem best_mem (h : w.best = some g) : g ∈ w.groups := by
  unfold best at h
  split at h
  · cases h
  · rename_i g₀ gs hgs
    injection h with h
    rw [hgs, ← h]
    refine foldlRecOn (motive := fun b => b ∈ g₀ :: gs) gs _
      mem_cons_self ?_
    intro b hb x hx
    split
    · exact mem_cons_of_mem _ hx
    · exact hb

theorem best_none (h : w.best = none) : w.results = [] := by
  unfold best at h
  split at h
  · rename_i hg
    cases hr : w.results with
    | nil => rfl
    | cons r rs =>
      have hmem : (w.keyOf r, (w.results.filter
          fun x => w.keyOf x = w.keyOf r).map Prod.fst) ∈ w.groups := by
        apply mem_map_of_mem
        rw [mem_eraseDups, hr]
        exact mem_cons_self
      rw [hg] at hmem
      cases hmem
  · cases h

variable {e : String}

/-- The voters of the pick are those whose answer has its key. -/
theorem mem_best (h : w.best = some g) :
    e ∈ g.2 ↔ ∃ a, (e, a) ∈ w.results ∧ decisionKey w.item.mode a = g.1 := by
  rw [(of_mem_groups (best_mem h)).2]
  simp only [mem_map, mem_filter, decide_eq_true_eq, Prod.exists]
  constructor
  · rintro ⟨e', a, ⟨hr, hk⟩, rfl⟩
    exact ⟨a, hr, hk⟩
  · rintro ⟨a, hr, hk⟩
    exact ⟨e, a, ⟨hr, hk⟩, rfl⟩

theorem best_nonempty (h : w.best = some g) : ∃ e, e ∈ g.2 := by
  obtain ⟨⟨r, hr, hk⟩, -⟩ := of_mem_groups (best_mem h)
  exact ⟨r.1, (mem_best h).2 ⟨r.2, hr, hk⟩⟩

theorem best_sub (h : w.best = some g) (he : e ∈ g.2) : e ∈ w.voters := by
  obtain ⟨a, hr, -⟩ := (mem_best h).1 he
  exact mem_map_of_mem hr

theorem mem_voters : e ∈ w.voters ↔ ∃ a, (e, a) ∈ w.results := by
  simp [voters]

-- ===== providers

theorem mem_providersOf {es : List String} {p : String} :
    p ∈ w.providersOf es ↔ ∃ e ∈ es, w.providers.lookup e = some p := by
  simp [providersOf]

theorem providersOf_sorted (es : List String) :
    w.providersOf (sortSet es.toFinset) = w.providersOf es := by
  ext p
  simp [mem_providersOf]

theorem card_providersOf_le (es : List String) :
    (w.providersOf es).card ≤ es.toFinset.card := by
  rw [← providersOf_sorted, ← toFinset_sortSet es.toFinset,
    toFinset_card_of_nodup (nodup_sortSet _), toFinset_sortSet]
  exact (toFinset_card_le _).trans (length_filterMap_le ..)

-- ===== needed

theorem agreeNeeded_cases : w.agreeNeeded = 2 ∨ (w.drawn ≠ some true ∧
    (∀ r ∈ w.results, r.2.status.box = false) ∧
    (w.item.mode = .replay → ∀ r ∈ w.results, replayCertified r.2 = true)) := by
  unfold agreeNeeded
  dsimp only
  split
  · exact .inl rfl
  · rename_i h
    refine .inr ⟨?_, ?_, ?_⟩
    · intro hd
      simp [hd] at h
    · intro r hr
      by_contra hb
      apply h
      have hany : (w.results.any fun r => r.2.status.box) = true :=
        any_eq_true.2 ⟨r, hr, by simpa using hb⟩
      simp [hany]
    · intro hm r hr
      by_contra hc
      apply h
      have hany : (w.results.any fun r => !replayCertified r.2) = true :=
        any_eq_true.2 ⟨r, hr, by simpa using hc⟩
      simp [hany, hm]

/-- Failing a miner takes two. -/
theorem two_of_failing (hr : (e, a) ∈ w.results) (h : a.status.box = true ∨
      (w.item.mode = .replay ∧ replayCertified a = false)) :
    w.agreeNeeded = 2 := by
  rcases w.agreeNeeded_cases with h2 | ⟨-, hbox, hcert⟩
  · exact h2
  · rcases h with hb | ⟨hm, hc⟩
    · rw [hbox _ hr] at hb
      cases hb
    · rw [hcert hm _ hr] at hc
      cases hc

/-- So does a dissent over facts. -/
theorem two_of_dissent {e e' : String} {a a' : Answer}
    (hr : (e, a) ∈ w.results) (hr' : (e', a') ∈ w.results)
    (hne : decisionKey w.item.mode a ≠ decisionKey w.item.mode a')
    (hgrade : w.item.mode = .grade → w.drawn ≠ some true →
      (∀ r ∈ w.results, r.2.status.box = false) → w.results.length ≤ 1) :
    w.agreeNeeded = 2 := by
  rcases w.agreeNeeded_cases with h2 | ⟨hdrawn, hbox, hcert⟩
  · exact h2
  · exfalso
    cases hm : w.item.mode with
    | grade =>
      have hlen := hgrade hm hdrawn hbox
      have heq : (e, a) = (e', a') := by
        cases hres : w.results with
        | nil => rw [hres] at hr; cases hr
        | cons r rs =>
          have hrs : rs = [] := by
            rw [hres, length_cons] at hlen
            exact length_eq_zero_iff.1 (by omega)
          rw [hres, hrs, mem_singleton] at hr hr'
          rw [hr, hr']
      injection heq with _ ha
      exact hne (by rw [ha])
    | replay =>
      apply hne
      rw [hm, decisionKey_replay (hbox _ hr), decisionKey_replay (hbox _ hr'),
        hcert hm _ hr, hcert hm _ hr']

end Work

-- ===== dissenters

/-- Who an agreement quarantines: a voter of facts with another key. -/
theorem of_mem_dissenters (h : w.best = some g) {e : String}
    {status : DecisionStatus}
    (he : e ∈ Dispatcher.dissenters w status (sortSet g.2.toFinset)) :
    ∃ a, (e, a) ∈ w.results ∧ decisionKey w.item.mode a ≠ g.1 := by
  unfold Dispatcher.dissenters at he
  rw [mem_filter, mem_sortSet, Finset.mem_sdiff, mem_toFinset,
    mem_toFinset, mem_sortSet, mem_toFinset] at he
  obtain ⟨⟨hv, hg⟩, -⟩ := he
  obtain ⟨a, ha⟩ := Work.mem_voters.1 hv
  exact ⟨a, ha, fun hk => hg ((Work.mem_best h).2 ⟨a, ha, hk⟩)⟩

/-- At most one, where two of three agree. -/
theorem length_dissenters (h : w.best = some g) (hlen : w.results.length ≤ 3)
    (htwo : 2 ≤ (w.providersOf g.2).card) (status : DecisionStatus) :
    (Dispatcher.dissenters w status (sortSet g.2.toFinset)).length ≤ 1 := by
  have hagree : 2 ≤ g.2.toFinset.card := htwo.trans (w.card_providersOf_le _)
  have hsub : g.2.toFinset ⊆ w.voters.toFinset := by
    intro e he
    rw [mem_toFinset] at he ⊢
    exact Work.best_sub h he
  have hall : w.voters.toFinset.card ≤ 3 :=
    (toFinset_card_le _).trans (by simpa [Work.voters] using hlen)
  have hrest : (w.voters.toFinset \ g.2.toFinset).card ≤ 1 := by
    rw [Finset.card_sdiff_of_subset hsub]
    omega
  refine (length_filter_le ..).trans ?_
  rw [toFinset_sortSet, ← toFinset_card_of_nodup (nodup_sortSet _),
    toFinset_sortSet]
  exact hrest

end Reliquary.Grade
