/-
Lane reserves over whole sequences of arrivals and departures.

`laneRoom` lets an env below its reserve through without looking at the
cap, so that the cap holds is not a fact of one call: it rests on what
the earlier calls left free. The invariant is the sum `laneHeld`, the
groups with each env counted at least at its reserve. An arrival below
the reserve was counted already, any other is one more and was let in
below the cap; a departure only takes away.
-/
import Reliquary.Store.Run
import Reliquary.Rl.LeaseBook

namespace Reliquary.Rl

open Store List

variable {reserve : List (String × Nat)} {buffer : List String} {cap : Nat}
  {e : String}

-- ===== the groups held

/-- The buffered groups, each env counted at least at its reserve. -/
def laneHeld (reserve : List (String × Nat)) (buffer : List String) : Nat :=
  (reserve.map fun er => max (buffer.count er.1) er.2).sum
    + buffer.countP fun e => (reserve.lookup e).isNone

theorem lookup_pendingByEnv (buffer : List String) (e : String) :
    ((pendingByEnv buffer).lookup e).getD 0 = buffer.count e := by
  by_cases he : e ∈ buffer
  · rw [pendingByEnv, lookup_map_self (mem_dedup.2 he)]
    rfl
  · rw [count_eq_zero_of_not_mem he, lookup_none, Option.getD_none]
    simpa [pendingByEnv] using he

/-- The sum the code compares with the cap. -/
theorem laneRoom_eq (hlanes : reserve ≠ []) (e : String) :
    laneRoom e buffer.length (pendingByEnv buffer) reserve cap
      = decide (buffer.count e < (reserve.lookup e).getD 0
          ∨ laneHeld reserve buffer < cap) := by
  have hrest : ((pendingByEnv buffer).filter
      fun en => (reserve.lookup en.1).isNone).map Prod.snd
      = (buffer.dedup.filter fun e => (reserve.lookup e).isNone).map
          fun e => buffer.count e := by
    rw [pendingByEnv, filter_map, map_map]
    rfl
  simp only [laneRoom, if_neg hlanes, lookup_pendingByEnv, hrest, laneHeld,
    sum_map_count_dedup_filter_eq_countP]
  split <;> simp [*]

-- ===== arrivals and departures

/-- An arrival moves the count of one reserve, and not below it. -/
theorem reserved_enter (e : String) (buffer : List String)
    (hkeys : (reserve.map Prod.fst).Nodup) :
    (reserve.map fun er => max ((e :: buffer).count er.1) er.2).sum
      ≤ (reserve.map fun er => max (buffer.count er.1) er.2).sum
        + (reserve.lookup e).elim 0
            fun r => if buffer.count e < r then 0 else 1 := by
  induction reserve with
  | nil => simp
  | cons er reserve ih =>
    obtain ⟨e', r⟩ := er
    rw [map_cons, nodup_cons] at hkeys
    have hrest := ih hkeys.2
    simp only [map_cons, sum_cons, Store.lookup_cons]
    by_cases he : e = e'
    · subst he
      rw [lookup_none hkeys.1] at hrest
      simp only [↓reduceIte, count_cons_self, Option.elim] at hrest ⊢
      split <;> omega
    · rw [if_neg he, count_cons_of_ne he]
      omega

theorem laneHeld_enter (e : String) (buffer : List String)
    (hkeys : (reserve.map Prod.fst).Nodup) :
    laneHeld reserve (e :: buffer) ≤ laneHeld reserve buffer
      + if buffer.count e < (reserve.lookup e).getD 0 then 0 else 1 := by
  have hsum := reserved_enter e buffer hkeys
  rw [laneHeld, laneHeld, countP_cons]
  cases hr : reserve.lookup e with
  | none =>
    simp only [hr, Option.elim] at hsum
    simp
    omega
  | some r =>
    simp only [hr, Option.elim] at hsum
    simp
    omega

theorem laneHeld_erase : laneHeld reserve (buffer.erase e)
    ≤ laneHeld reserve buffer := by
  have hsub : (buffer.erase e).Sublist buffer := erase_sublist
  refine Nat.add_le_add (sum_le_sum fun er _ => ?_) hsub.countP_le
  exact max_le_max (hsub.count_le _) le_rfl

-- ===== sequences

/-- A group enters the buffer, or one leaves it. -/
inductive LaneOp
  | enter (env : String)
  | leave (env : String)

def LaneOp.step (buffer : List String) : LaneOp → List String
  | .enter env => env :: buffer
  | .leave env => buffer.erase env

/-- A group enters only where its env has room; one may always leave. -/
def LaneOp.permitted (reserve : List (String × Nat)) (cap : Nat)
    (buffer : List String) : LaneOp → Prop
  | .enter env =>
    laneRoom env buffer.length (pendingByEnv buffer) reserve cap = true
  | .leave _ => True

/-- One step keeps the held groups under the cap. -/
theorem laneHeld_step (hkeys : (reserve.map Prod.fst).Nodup)
    (hlanes : reserve ≠ []) (op : LaneOp) (h : laneHeld reserve buffer ≤ cap)
    (hop : op.permitted reserve cap buffer) :
    laneHeld reserve (op.step buffer) ≤ cap := by
  cases op with
  | enter env =>
    have hroom : buffer.count env < (reserve.lookup env).getD 0
        ∨ laneHeld reserve buffer < cap := by
      simpa [LaneOp.permitted, laneRoom_eq hlanes] using hop
    have hadd := laneHeld_enter env buffer hkeys
    show laneHeld reserve (env :: buffer) ≤ cap
    split at hadd <;> omega
  | leave env => exact laneHeld_erase.trans h

/-- **Reserves are not squeezed out**: an env below its reserve has room
whatever the others hold, and the groups that were let in one at a time,
each env counted at least at its reserve, stay within the cap. -/
theorem lane_reserves_kept (config : BookConfig) (cap : Nat)
    (hcap : config.maxPendingGroups = some cap)
    (hlanes : config.laneReserve ≠ []) :
    (∀ env pending byEnv,
      (byEnv.lookup env).getD 0 < (config.laneReserve.lookup env).getD 0 →
      laneRoom env pending byEnv config.laneReserve cap = true)
    ∧ ∀ ops buffer, Run LaneOp.step (LaneOp.permitted config.laneReserve cap)
        [] ops buffer → laneHeld config.laneReserve buffer ≤ cap := by
  refine ⟨fun env pending byEnv hbelow => ?_, fun ops buffer hrun => ?_⟩
  · rw [laneRoom, if_neg hlanes, if_pos hbelow]
  · refine hrun.invariant ?_ fun _ op hop h =>
      laneHeld_step config.reserve_keys hlanes op h hop
    obtain ⟨n, hn, hsum⟩ := config.reserve_fits hlanes
    obtain rfl : n = cap := Option.some.inj (hn.symm.trans hcap)
    simpa [laneHeld] using hsum

/-- Two of three groups are reserved for `"b"`: `"a"` takes the third, and
`"b"` still has its room. -/
theorem lane_reserves_kept_three :
    laneHeld [("b", 2)] ["b", "b", "a"] ≤ 3 :=
  (lane_reserves_kept
    { expiryS := [("a", 1), ("b", 1)], expiry_served := by simp
      expiry_pos := by decide, maxPendingGroups := some 3
      laneReserve := [("b", 2)], reserve_fits := by simp } 3 rfl
    (cons_ne_nil _ _)).2 [.enter "a", .enter "b", .enter "b"] _
    (.cons _ rfl (.cons _ rfl (.cons _ rfl (.nil _))))

end Reliquary.Rl
