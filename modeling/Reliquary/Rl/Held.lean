/-
A submission that arrived on time is judged at its arrival.

`hold_submission` counts the submissions of a lease that are being
graded, and a sweep passes over a lease with a count. The count is by
lease, not by submission: a resend holds the lease again and releases it
again, so what keeps OUR hold is that nobody releases more than they
held. `Grading` carries the number of holds that are not ours, and
`Meanwhile` says what the others may do while our submission is graded:
anything, but submit this very lease, release a hold they do not have, or
restart the process (whose memory the holds are).
-/
import Reliquary.Rl.BookRun

namespace Reliquary.Rl

open Store Relation

variable {sha256 : List UInt8 → List UInt8} {token : Nat → String}
  {s : Scope} {b b' : Book} {w w' : BookWorld} {leaseId hotkey : String}
  {arrivedAt : ℚ}

-- ===== a lease in grading

/-- The world while a submission of a lease is graded, and how many
other submissions of it are. -/
structure Grading where
  world : BookWorld
  others : Nat

section Machine

variable (sha256 : List UInt8 → List UInt8) (token : Nat → String)

/-- A step, with the other holds of the lease counted: one more when a
resend's hold succeeds, one less when one is released. -/
def gradingStep (leaseId : String) (g : Grading) (op : BookOp) : Grading :=
  { world := step sha256 token g.world op
    others := match op with
      | .holdSubmission live id hotkey arrivedAt =>
        if id = leaseId ∧ ((holdSubmission live id hotkey arrivedAt).run
          g.world).1.isOk = true then g.others + 1 else g.others
      | .releaseSubmission id =>
        if id = leaseId then g.others - 1 else g.others
      | _ => g.others }

end Machine

/-- What the others may do meanwhile. -/
def Meanwhile (leaseId : String) (g : Grading) : BookOp → Prop
  | .submit _ id _ _ _ _ => id ≠ leaseId
  | .releaseSubmission id => id = leaseId → 0 < g.others
  | .restart .. => False
  | _ => True

-- ===== the lease's row

/-- The lease is open, the hotkey's, and was not due at `arrivedAt`. -/
def OpenAt (leaseId hotkey : String) (arrivedAt : ℚ) (b : Book) : Prop :=
  ∃ r ∈ b.leases, r.leaseId = leaseId ∧ r.hotkey = hotkey
    ∧ r.isOpen = true ∧ arrivedAt < r.expiresAt

/-- A move that may not end the lease leaves it open, and not due. -/
theorem Move.openAt (hm : Move sha256 s b b') (hc : ¬s.closes leaseId)
    (hs : ¬s.submits leaseId) (h : OpenAt leaseId hotkey arrivedAt b) :
    OpenAt leaseId hotkey arrivedAt b' := by
  obtain ⟨r, hr, hid, hh, ho, he⟩ := h
  cases hm with
  | rows leases hm =>
    obtain ⟨r', hr', hrr⟩ := exists_after hm hr
    obtain ⟨hid', hh', -⟩ := hrr.same
    obtain ⟨ho', he'⟩ := hrr.open_kept ho (hid ▸ hc) (hid ▸ hs)
    exact ⟨r', hr', hid'.trans hid, hh'.trans hh, ho', lt_of_lt_of_le he he'⟩
  | issue => exact ⟨r, List.mem_append_left _ hr, hid, hh, ho, he⟩
  | adopt =>
    -- an adoption deletes closed leases only
    refine ⟨r, mem_deleteWhere.2 ⟨hr, ?_⟩, hid, hh, ho, he⟩
    simp [ho]
  | scan | restamp => exact ⟨r, hr, hid, hh, ho, he⟩
  | frame _ _ _ hl => exact ⟨r, hl ▸ hr, hid, hh, ho, he⟩

theorem Moves.openAt (hm : Moves sha256 s b b') (hc : ¬s.closes leaseId)
    (hs : ¬s.submits leaseId) (h : OpenAt leaseId hotkey arrivedAt b) :
    OpenAt leaseId hotkey arrivedAt b' :=
  hm.keeps h fun hm hb => hm.openAt hc hs hb

-- ===== the holds

/-- A hold adds one to its lease's count, whatever else it swept. -/
theorem submitting_holdSubmission (hwf : Wf sha256 w.file) (live : Live)
    (id hotkey : String) (arrivedAt : ℚ) :
    ((holdSubmission live id hotkey arrivedAt).run w).2.mem.submitting
      = if ((holdSubmission live id hotkey arrivedAt).run w).1.isOk = true
        then put id ((w.mem.submitting.lookup id).getD 0 + 1) w.mem.submitting
        else w.mem.submitting := by
  have hk : Kept sha256 { closes := Unheld w } w
      (submittable live id hotkey arrivedAt w).2 :=
    kept_submittable hwf (fun _ hid => hid) live id hotkey arrivedAt
  rw [holdSubmission_run]
  cases hsub : submittable live id hotkey arrivedAt w with
  | mk answer v =>
    rw [hsub] at hk
    have hmem : v.mem.submitting = w.mem.submitting := hk.mem.submitting
    cases answer with
    | ok l =>
      show put id ((v.mem.submitting.lookup id).getD 0 + 1) v.mem.submitting
        = put id ((w.mem.submitting.lookup id).getD 0 + 1) w.mem.submitting
      rw [hmem]
    | error e => exact hmem

/-- A release of another lease's hold. -/
theorem lookup_releaseSubmission_ne {id leaseId : String} (h : leaseId ≠ id)
    (w : BookWorld) : (releaseSubmission id w).mem.submitting.lookup leaseId
      = w.mem.submitting.lookup leaseId := by
  unfold releaseSubmission
  dsimp only
  split
  · rw [lookup_put, if_neg h, lookup_remove_ne h]
  · rw [lookup_remove_ne h]

/-- A release of one hold of several. -/
theorem lookup_releaseSubmission_self {leaseId : String} {n : Nat}
    (h : w.mem.submitting.lookup leaseId = some (n + 1)) (hn : 0 < n) :
    (releaseSubmission leaseId w).mem.submitting.lookup leaseId = some n := by
  unfold releaseSubmission
  dsimp only
  rw [h, Option.getD_some, Nat.add_sub_cancel, if_pos hn, lookup_put,
    if_pos rfl]

-- ===== the invariant

/-- Our hold is among the lease's, and the lease is open. -/
structure HeldInv (sha256 : List UInt8 → List UInt8)
    (leaseId hotkey : String) (arrivedAt : ℚ) (g : Grading) : Prop where
  wf : Wf sha256 g.world.file
  row : OpenAt leaseId hotkey arrivedAt g.world.file
  count : g.world.mem.submitting.lookup leaseId = some (g.others + 1)

/-- Our hold counts after a step of the others. -/
theorem gradingStep_count
    {g : Grading} (h : HeldInv sha256 leaseId hotkey arrivedAt g)
    (op : BookOp) (hok : Meanwhile leaseId g op) :
    (gradingStep sha256 token leaseId g op).world.mem.submitting.lookup leaseId
      = some ((gradingStep sha256 token leaseId g op).others + 1) := by
  cases hop : op.rebinds with
  | false =>
    have hk : (step sha256 token g.world op).mem.submitting
        = g.world.mem.submitting :=
      (step_kept h.wf op hop).mem.submitting
    have ho : (gradingStep sha256 token leaseId g op).others = g.others := by
      cases op with
      | holdSubmission => cases hop
      | releaseSubmission => cases hop
      | _ => rfl
    rw [ho]
    show (step sha256 token g.world op).mem.submitting.lookup leaseId = _
    rw [hk]
    exact h.count
  | true =>
    cases op with
    | holdSubmission live id hk t =>
      show ((holdSubmission live id hk t).run
        g.world).2.mem.submitting.lookup leaseId = _
      rw [submitting_holdSubmission h.wf]
      simp only [gradingStep]
      by_cases hsucc : ((holdSubmission live id hk t).run g.world).1.isOk = true
      · rw [if_pos hsucc, lookup_put]
        by_cases hid : id = leaseId
        · subst hid
          rw [if_pos rfl, if_pos ⟨rfl, hsucc⟩, h.count, Option.getD_some]
        · rw [if_neg (Ne.symm hid), if_neg fun hc => hid hc.1]
          exact h.count
      · rw [if_neg hsucc, if_neg fun hc => hsucc hc.2]
        exact h.count
    | releaseSubmission id =>
      show (releaseSubmission id g.world).mem.submitting.lookup leaseId = _
      simp only [gradingStep]
      by_cases hid : id = leaseId
      · subst hid
        have hpos : 0 < g.others := hok rfl
        rw [if_pos rfl, lookup_releaseSubmission_self h.count hpos]
        congr 1
        omega
      · rw [if_neg hid, lookup_releaseSubmission_ne (Ne.symm hid)]
        exact h.count
    | restart => exact absurd hok id
    | _ => cases hop

/-- **One step of the others** leaves our submission's lease open and
held. -/
theorem gradingStep_held {g : Grading}
    (h : HeldInv sha256 leaseId hotkey arrivedAt g) (op : BookOp)
    (hok : Meanwhile leaseId g op) : HeldInv sha256 leaseId hotkey arrivedAt
      (gradingStep sha256 token leaseId g op) := by
  have hheld : ¬Unheld g.world leaseId := by
    unfold Unheld
    rw [h.count]
    exact fun hn => by cases hn
  have hcloses : ¬(op.scope token g.world).closes leaseId := by
    cases op with
    | grant | submit | checkSubmission | holdSubmission | forfeit | expireDue =>
      exact hheld
    | _ => exact id
  have hsubmits : ¬(op.scope token g.world).submits leaseId := by
    cases op with
    | submit live id hk z d t => exact fun heq => hok heq.symm
    | _ => exact id
  exact ⟨step_wf h.wf op, (step_moves h.wf op).openAt hcloses hsubmits h.row,
    gradingStep_count h op hok⟩

-- ===== the result

/-- A hold that succeeded found its lease open and not due, and counts. -/
theorem heldInv_of_hold (hwf : Wf sha256 w.file) {live : Live} {lease : Lease}
    (h : (holdSubmission live leaseId hotkey arrivedAt).run w
      = (.ok lease, w')) : HeldInv sha256 leaseId hotkey arrivedAt
      ⟨w', (w.mem.submitting.lookup leaseId).getD 0⟩ := by
  have hcount : w'.mem.submitting.lookup leaseId
      = some ((w.mem.submitting.lookup leaseId).getD 0 + 1) := by
    have hs := submitting_holdSubmission hwf live leaseId hotkey arrivedAt
    rw [h] at hs
    have hput : w'.mem.submitting = put leaseId
        ((w.mem.submitting.lookup leaseId).getD 0 + 1)
        w.mem.submitting := hs
    rw [hput, lookup_put, if_pos rfl]
  rw [holdSubmission_run] at h
  rcases submittable_spec live leaseId hotkey arrivedAt w with
    ⟨r, hr, hid, hh, ho, he, -, heq⟩ | ⟨e, heq | heq⟩
  · rw [heq] at h
    injection h with _ hw'
    subst hw'
    exact ⟨hwf, ⟨r, hr, hid, hh, ho, he⟩, hcount⟩
  · rw [heq] at h
    injection h with h₁
    cases h₁
  · rw [heq] at h
    injection h with h₁
    cases h₁

/-- A submission of an open lease that is not due and whose hotkey is
not banned is accepted. -/
theorem submit_openAt (hwf : Wf sha256 w.file)
    (h : OpenAt leaseId hotkey arrivedAt w.file)
    (hban : w.file.banned hotkey arrivedAt = false) (live : Live)
    (inZone delivered : Bool) :
    ∃ lease w', (submit live leaseId hotkey inZone delivered
      arrivedAt).run w = (.ok lease, w') := by
  obtain ⟨r, hr, hid, hh, ho, he⟩ := h
  -- ids are unique, so the row found by id is this one
  have hrow : w.file.row leaseId = some r := by
    unfold Book.row
    cases hf : w.file.leases.find? fun r => r.leaseId == leaseId with
    | none =>
      have hno := List.find?_eq_none.1 hf r hr
      exact absurd (by simpa using hid) hno
    | some r' =>
      have hid' : r'.leaseId = leaseId := by
        simpa using List.find?_some hf
      rw [eq_of_key hwf.ids (List.mem_of_find?_eq_some hf) hr
        (hid'.trans hid.symm)]
  have hst : r.state = .opened := by simpa [LeaseRow.isOpen] using ho
  have hsub : submittable live leaseId hotkey arrivedAt w
      = (.ok r.toLease, w) := by
    unfold submittable
    rw [hrow]
    dsimp only
    rw [if_neg (not_not.2 hh), if_neg (not_not.2 hst),
      if_neg (not_le.2 he), if_neg (by rw [hban]; exact Bool.false_ne_true)]
  unfold submit Prog.txn
  simp only [Prog.bind_run, Prog.get_run, Prog.modify_run, Prog.lift_run]
  rw [hsub]
  exact ⟨_, _, rfl⟩

/-- **On-time submissions are never expired.** In any reachable book, let
a hold of a lease succeed for a submission that arrived at `arrivedAt`.
Whatever the others do meanwhile, the lease is open in every state until
our hold is released, and a submission of it judged at its arrival is
accepted unless the hotkey is banned then. -/
theorem held_never_expired (config : BookConfig)
    (quotaConfig : QuotaConfig) (start : ℚ) {ops : List BookOp}
    (hrun : BookRuns sha256 token (firstBoot config quotaConfig start)
      ops w) {live : Live} {leaseId hotkey : String} {arrivedAt : ℚ}
    {lease : Lease}
    (hhold : (holdSubmission live leaseId hotkey arrivedAt).run w
      = (.ok lease, w')) {ops' : List BookOp} {g : Grading}
    (hmean : Run (gradingStep sha256 token leaseId) (Meanwhile leaseId)
      ⟨w', (w.mem.submitting.lookup leaseId).getD 0⟩ ops' g) :
    (∃ r ∈ g.world.file.leases, r.leaseId = leaseId
        ∧ r.state = .opened) ∧ ∀ live' inZone delivered,
          g.world.file.banned hotkey arrivedAt = false →
          ∃ lease' w₂, (submit live' leaseId hotkey inZone delivered
            arrivedAt).run g.world = (.ok lease', w₂) := by
  have hwf : Wf sha256 w.file :=
    BookRuns.wf hrun (wf_firstBoot config quotaConfig start)
  have hinv : HeldInv sha256 leaseId hotkey arrivedAt g :=
    Run.invariant (I := HeldInv sha256 leaseId hotkey arrivedAt) hmean
      (heldInv_of_hold hwf hhold) fun g op hok hg =>
        gradingStep_held hg op hok
  constructor
  · obtain ⟨r, hr, hid, -, ho, -⟩ := hinv.row
    exact ⟨r, hr, hid, by simpa [LeaseRow.isOpen] using ho⟩
  · intro live' inZone delivered hban
    exact submit_openAt hinv.wf hinv.row hban live' inZone delivered

/-- A sweep long after the lease's end, then a resend that holds the
lease and releases it. -/
def sweptOps : List BookOp :=
  [.expireDue calm 500, .holdSubmission calm "0" "a" 60, .releaseSubmission "0"]

/-- The small book, its lease held at 50: it is open after all of it. -/
theorem held_never_expired_swept :
    ∃ lease w', (holdSubmission calm "0" "a" 50).run leasedWorld
        = (.ok lease, w')
      ∧ ∃ r ∈ (sweptOps.foldl (gradingStep firstByte counted "0")
          ⟨w', 0⟩).world.file.leases, r.leaseId = "0" ∧ r.state = .opened := by
  have hok : ((holdSubmission calm "0" "a" 50).run
      leasedWorld).1.toOption.isSome = true := by decide +kernel
  have hothers : 0 < (gradingStep firstByte counted "0"
      (gradingStep firstByte counted "0"
        ⟨((holdSubmission calm "0" "a" 50).run leasedWorld).2, 0⟩
        (.expireDue calm 500))
      (.holdSubmission calm "0" "a" 60)).others := by decide +kernel
  have hnone : (leasedWorld.mem.submitting.lookup "0").getD 0 = 0 := by
    decide +kernel
  cases hhold : (holdSubmission calm "0" "a" 50).run leasedWorld with
  | mk answer w' =>
    rw [hhold] at hok hothers
    cases answer with
    | error e => cases hok
    | ok lease =>
      have hmean : Run (gradingStep firstByte counted "0")
          (Meanwhile "0") ⟨w', 0⟩ sweptOps
          (sweptOps.foldl (gradingStep firstByte counted "0") ⟨w', 0⟩) :=
        Run.cons (BookOp.expireDue calm 500) trivial
          (Run.cons (BookOp.holdSubmission calm "0" "a" 60) trivial
            (Run.cons (BookOp.releaseSubmission "0") (fun _ => hothers)
              (Run.nil _)))
      rw [← hnone] at hmean
      have h := (held_never_expired oneEnv {} 0 leasedWorld_run hhold hmean).1
      exact ⟨lease, w', rfl, h⟩

end Reliquary.Rl
