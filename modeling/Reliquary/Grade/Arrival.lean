/-
The oldest unready arrival, and what the grader never pays: the two halves
of the hold over every careful run.

# The bound

`oldestUnready` takes the least bound of the unready ids. A submission a
quarantined executor decided alone is unready (`Hold.lean`'s `payable`), so
it is enough that its bound is at most its arrival: the arrival itself once
learned, and no bound at all (`⊥`) before. The bound by the instant of the
enqueue is for ids with nothing stored, which `Arrivals` says: a grade is
written only after its record was read, and reading it learns the arrival.

`Patient`: an id under regrade whose arrival stays unknown is dropped from
the answer after `unknownArrivalGiveUpSeconds`.
-/
import Reliquary.Grade.Hold

namespace Reliquary.Grade.Hold

open Store Grader

namespace Grader

variable {g : Grader} {sid : String}

-- ===== the bound

/-- No id under regrade is dropped from the answer. -/
def Patient (g : Grader) (now : ℚ) : Prop :=
  ∀ sid ∈ g.regrading, g.arrival.lookup sid = none →
    now - g.waitedSince now sid ≤ unknownArrivalGiveUpSeconds

/-- The answer is at most every bound taken. -/
theorem foldl_oldest {bounds : List (WithBot ℚ)} {b : WithBot ℚ}
    (hb : b ∈ bounds) :
    ∃ v, bounds.foldl (fun oldest at_ => some (oldest.elim at_ (min at_)))
      none = some v ∧ v ≤ b := by
  refine foldl_sets (P := fun oldest : Option (WithBot ℚ) =>
    ∃ v, oldest = some v ∧ v ≤ b) ?_ hb ?_ none
  · rintro _ at_ ⟨v, rfl, hv⟩
    exact ⟨_, rfl, (min_le_right _ _).trans hv⟩
  · rintro (_ | v)
    · exact ⟨_, rfl, le_rfl⟩
    · exact ⟨_, rfl, min_le_left _ _⟩

/-- What is held has a bound, at most its arrival. -/
theorem Inv.bound_le {now a : ℚ} (h : Inv g) (hr : sid ∈ g.regrading)
    (hp : Patient g now) (ha : g.received.lookup sid = some a) :
    ∃ b, g.bound now sid = some b ∧ b ≤ (a : WithBot ℚ) := by
  unfold bound
  cases hl : g.arrival.lookup sid with
  | some at_ =>
    have hsame := (h.arrivals.known sid at_ hl).symm.trans ha
    cases hsame
    exact ⟨_, rfl, le_rfl⟩
  | none =>
    refine ⟨⊥, ?_, bot_le⟩
    have hhas := h.final sid (h.regrading sid hr)
    rw [if_neg (not_lt.2 (hp sid hr hl)), h.arrivals.not_queued hhas]
    rfl

theorem oldest_le {now a : ℚ} {r : Option (WithBot ℚ)} {d : Document}
    (hi : Inv g) (hp : Patient g now)
    (hr : g.oldestUnready now = some r) (hf : sid ∈ g.final)
    (hd : latest g.docs sid = some d) (hcaught : g.caught d ≠ [])
    (hv : g.voided sid = false) (ha : g.received.lookup sid = some a) :
    ∃ v, r = some v ∧ v ≤ (a : WithBot ℚ) := by
  unfold oldestUnready at hr
  split at hr
  · cases hr
  · split at hr
    · cases hr
    · rename_i hnone
      cases hr
      have hregrading : sid ∈ g.regrading := by
        by_contra hnot
        obtain ⟨e, he⟩ := List.exists_mem_of_ne_nil _ hcaught
        obtain ⟨he, hq⟩ := mem_caught.1 he
        rcases hi.payable sid hf hnot d hd e he hq with hvoid | ⟨hu, hh⟩
        · exact nomatch hv.symm.trans hvoid
        · exact hnone ⟨⟨e, hh⟩, ⟨sid, hu⟩⟩
      obtain ⟨b, hb, hle⟩ := hi.bound_le hregrading hp ha
      have hunready : sid ∈ g.unready := by
        simp [unready, hregrading]
      have hmem : b ∈ (sortSet g.unready).filterMap (g.bound now) :=
        List.mem_filterMap.2 ⟨sid, mem_sortSet.2 hunready, hb⟩
      obtain ⟨v, hv', hvle⟩ := foldl_oldest hmem
      exact ⟨v, hv', hvle.trans hle⟩

/-- Before the restart `s1` was graded by `b` alone and `s2` by two. -/
def bootDocs : Documents :=
  { grades := [("s1", ⟨"h1", .decided .ok, ["b"], none, none, []⟩),
      ("s2", ⟨"h2", .decided .ok, ["a", "b"], none, none, []⟩)]
    regrades := []
    voids := [] }

theorem bootDocs_wf : WellFormed bootDocs := by
  refine ⟨fun sid => ⟨0, Nat.zero_le _, fun n => ?_⟩, ?_, ?_⟩
  · refine ⟨fun h => (nomatch h), fun h => ?_⟩
    omega
  · exact fun _ _ _ hl => nomatch hl
  · intro sid d hl
    have hmem := mem_of_lookup hl
    simp only [bootDocs, List.mem_cons, Prod.mk.injEq, List.not_mem_nil,
      or_false] at hmem
    rcases hmem with ⟨-, rfl⟩ | ⟨-, rfl⟩ <;> rfl

/-- The registry quarantines `b`; its indexing ends and a rescan follows. -/
def oneIndexing : List Event :=
  [.quarantine "b", .seedRead, .seedApply, .startExecutor "b", .index 0,
    .indexRead 0 "s1", .indexRead 0 "s2", .indexDone 0,
    .rescan {"s1", "s2"} ∅]

/-- The registry quarantines `a` and `b`, and both indexings read: that of `a`
ends first. -/
def twoIndexings : List Event :=
  [.quarantine "a", .quarantine "b", .seedRead, .seedApply,
    .startExecutor "a", .startExecutor "b", .index 0, .index 1,
    .indexRead 0 "s1", .indexRead 0 "s2", .indexDone 0]

end Grader

end Reliquary.Grade.Hold
