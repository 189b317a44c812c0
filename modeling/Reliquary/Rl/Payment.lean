/-
What the run of a validator pays, and what its buffer holds.

# The two results

`paid_at_most_once`: however calls, resends and restarts interleave, a
lease has at most one event that pays and the quota is told of it at
most once, a prompt has at most one first scan that paid, and a refused
group is never paid. `in_zone_conserved`: a group graded in zone is in
one row of the buffer until its one report, and nothing else is ever in
the buffer or handed out. Beside them `payable_of_run`: the ledger takes
every event of a run.

All read off the invariant of the desk (`DeskWf`), which `subStep_wf`
keeps: each operation makes one step (`subStep_makes`), except a credit
from outside, which changes the history of payments alone.

# What is assumed

`token` is the source of lease ids (`secrets.token_hex`): that it draws
no id twice is the one thing the results ask of it.
-/
import Reliquary.Rl.Record

namespace Reliquary.Rl

open Store Relation TrainingBuffer RlSubmissions
open Prog (Spec)

variable {sha256 : List UInt8 → List UInt8} {token : Nat → String}
  {w w' : SubWorld}

-- ===== one step

/-- A restart: the book boots on its tables, the rest of the file is as
it was. -/
theorem start_makes (config : BookConfig) (quotaConfig : QuotaConfig)
    (submitConfig : SubmitConfig) (now : ℚ) (w : SubWorld)
    (hw : Wf sha256 w.file.book) :
    SubStep sha256 token w (start config quotaConfig submitConfig now
      w.mem.book.drawn w.mem.book.paidCalls w.file) := by
  have hgrows : BookGrows sha256 token (bookPart.view w)
      (step sha256 token (bookPart.view w) (.restart config quotaConfig now)) :=
    step_grows hw _
  have hpaid : (step sha256 token (bookPart.view w)
      (.restart config quotaConfig now)).mem.paidCalls = w.mem.book.paidCalls :=
    step_paid hw _ fun _ _ h => by cases h
  exact (SubStep.of_book hgrows hpaid).memory rfl

/-- **Each operation makes one step.** -/
theorem subStep_makes (hinj : Function.Injective token)
    (hw : SubWf sha256 token w) {op : SubOp} (hs : Served w op) :
    SubStep sha256 token w (subStep sha256 token w op) := by
  cases op with
  | book op call =>
    refine SubStep.of_book (step_grows hw.book _)
      (step_paid hw.book _ fun leaseId now h => ?_)
    cases op with
    | credit => cases hs
    | _ => cases h
  | begin_ live leaseId hotkey rollouts arrivedAt =>
    exact (makes_begin hw live leaseId hotkey rollouts
      arrivedAt).world rfl
  | record live task graded draw =>
    show SubStep _ _ _ (if task ∈ w.mem.grading then _ else w)
    split
    · exact (makes_record hinj hw live task graded draw).world rfl
    · exact SubStep.refl w
  | blacklist hotkey til reason now =>
    exact (makes_blacklist hotkey til reason now).world rfl
  | reportAudit leaseId result now =>
    exact (paid_reportAudit leaseId result now).left
      (SubStep.refl w) fun _ _ h => h.toSubStep
  | retryAudit leaseId =>
    exact (paid_retryAudit leaseId).left (SubStep.refl w)
      fun _ _ h => h.toSubStep
  | report report moved now =>
    exact (paid_reportTxn report moved now).left
      (SubStep.refl w) fun _ _ h => h.toSubStep
  | take limit now caps =>
    have htake : Makes sha256 token w
        (takeGroups limit now caps) := by
      refine .get_bind ?_
      intro u hu
      subst hu
      exact makes_onBuffer ((take_spec hw.desk.bufferKey
        limit now caps _ _).onValue (fun _ _ hq => hq.1))
    exact htake.world rfl
  | takeOlder belowK limit scan =>
    have htake : Makes sha256 token w
        (onBuffer (takeOlder belowK limit scan)) :=
      makes_onBuffer ((takeWhere_spec _ _ limit
        scan).onValue (fun _ _ hq => hq.1))
    exact htake.world rfl
  | takeExhausted maxAttempts limit scan =>
    have htake : Makes sha256 token w
        (onBuffer (takeExhausted maxAttempts limit scan)) :=
      makes_onBuffer ((takeWhere_spec _ _ limit
        scan).onValue (fun _ _ hq => hq.1))
    exact htake.world rfl
  | release leaseIds =>
    have hstep : Makes sha256 token w
        (onBuffer (release leaseIds)) :=
      makes_onBuffer (hands_release leaseIds)
    exact hstep.world rfl
  | requeue =>
    have hstep : Makes sha256 token w (onBuffer requeue) :=
      makes_onBuffer hands_requeue
    exact hstep.world rfl
  | drainTick =>
    have hstep : Makes sha256 token w (onBuffer drainTick) :=
      makes_onBuffer hands_drainTick
    exact hstep.world rfl
  | restart config quotaConfig submitConfig now =>
    exact start_makes config quotaConfig submitConfig now w hw.book

/-- The history of payments is no part of the desk's tables. -/
theorem DeskWf.withPaid {d : Desk} (h : DeskWf d) (paid : List String) :
    DeskWf { d with paid } := { h with
  row g hg := (h.row g hg).frame (fun x hx hid => ⟨x, hx, hid⟩) fun _ => rfl }

/-- **Every operation keeps the world well formed**, a credit from
outside too. -/
theorem subStep_wf (hinj : Function.Injective token) (hw : SubWf sha256 token w)
    (op : SubOp) : SubWf sha256 token (subStep sha256 token w op) := by
  by_cases hc : op.isCredit = true
  · cases op with
    | book op call =>
      have hb : BookGrows sha256 token (bookPart.view w)
          (step sha256 token (bookPart.view w) (op.seeing
            (w.file.buffer.map fun x => x.environment))) :=
        step_grows hw.book _
      exact ⟨hb.wf hw.book, hb.ids hw.ids, hw.desk.withPaid _,
        fun g hg => (hw.linked g hg).grows hinj hb ⟨rfl, rfl, rfl, rfl⟩⟩
    | _ => cases hc
  · exact (subStep_makes hinj hw (by simpa [Served] using hc)).wf hinj hw

-- ===== runs

/-- A first start is well formed, and has paid nobody. -/
theorem subWf_firstStart (config : BookConfig) (quotaConfig : QuotaConfig)
    (submitConfig : SubmitConfig) (now : ℚ) :
    SubWf sha256 token (firstStart config quotaConfig submitConfig now)
      ∧ (deskOf (firstStart config quotaConfig submitConfig now)).PaidOnce := by
  constructor
  · constructor
    · exact wf_firstBoot config quotaConfig now
    · exact ids_firstBoot config quotaConfig now
    · exact deskWf_empty.withPaid _
    · intro g hg
      cases hg
  · intro id
    show (boot config quotaConfig now 0 [] {}).mem.paidCalls.count id ≤ _
    exact Nat.zero_le _

variable {config : BookConfig} {quotaConfig : QuotaConfig}
  {submitConfig : SubmitConfig} {ops : List SubOp}

/-- Any run, of any operations, from a first start. -/
theorem subWf_run (hinj : Function.Injective token) {now : ℚ}
    (h : Free (subStep sha256 token)
      (firstStart config quotaConfig submitConfig now) ops w) :
    SubWf sha256 token w :=
  h.invariant (subWf_firstStart config quotaConfig submitConfig now).1
    fun _ op _ hw => subStep_wf hinj hw op

/-- **Every stream a run leaves is one the ledger takes.** -/
theorem payable_of_run (hinj : Function.Injective token) {now : ℚ}
    (h : Free (subStep sha256 token)
      (firstStart config quotaConfig submitConfig now) ops w) :
    ∀ e ∈ w.file.events, Pay.Payable e :=
  (subWf_run hinj h).desk.payable

/-- A run in which the submission path alone tells of payments. -/
theorem paidOnce_run (hinj : Function.Injective token) {now : ℚ}
    (h : SubRuns sha256 token
      (firstStart config quotaConfig submitConfig now) ops w) :
    SubWf sha256 token w ∧ (deskOf w).PaidOnce := by
  refine h.invariant (I := fun w => SubWf sha256 token w ∧ (deskOf w).PaidOnce)
    (subWf_firstStart config quotaConfig submitConfig now) ?_
  intro u op hop hu
  exact ⟨subStep_wf hinj hu.1 op, (subStep_makes hinj hu.1 hop).paidOnce hu.2⟩

-- ===== a small validator

/-- The submission of prompt 5's lease that is being graded. -/
def smallTask : Task where
  leaseId := "0"
  hotkey := "a"
  rollouts := [{ tokens := [1] }, { tokens := [2] }]
  arrivedAt := 3
  lease :=
    { leaseId := "0", hotkey := "a", environment := "math", promptIdx := 5
      checkpoint := 1, nonce := "72", issuedAt := 2, expiresAt := 102
      state := .opened }

/-- One rollout right, one wrong. -/
def smallGrade : Graded where
  promptTokens := [9]
  rewards := [1, 0]
  truncated := [false, false]

/-- The lease is issued, its group submitted, graded in zone and taken
for training. -/
def takenOps : List SubOp :=
  [.book (.adopt 1 [7] 1) rfl,
    .book (.grant calm [ask "a" 5 1] 2 inOrder []) rfl,
    .begin_ calm "0" "a" [{ tokens := [1] }, { tokens := [2] }] 3,
    .record calm smallTask smallGrade 0,
    .take 1 4 (.ok [])]

/-- Then its training is reported. -/
def trainedOps : List SubOp :=
  takenOps ++ [.report
    { leaseId := "0", rolloutMatch := [1, 1], accepted := true } false 5]

/-- The world after the operations. -/
def after (ops : List SubOp) : SubWorld :=
  ops.foldl (subStep firstByte counted) (firstStart oneEnv {} {} 0)

theorem counted_injective : Function.Injective counted :=
  fun _ _ h => Nat.repr_inj.1 h

-- ===== payments

/-- **One payment per lease, one first scan paid per prompt.** -/
theorem paid_at_most_once (hinj : Function.Injective token)
    (config : BookConfig) (quotaConfig : QuotaConfig)
    (submitConfig : SubmitConfig) (now : ℚ) {ops : List SubOp}
    (h : SubRuns sha256 token
      (firstStart config quotaConfig submitConfig now) ops w) :
    (∀ leaseId, w.file.events.countP (EventRow.counts .trained leaseId)
        + w.file.events.countP (EventRow.counts .firstScan leaseId) ≤ 1)
      ∧ (∀ e p, w.file.events.countP ((deskOf w).firstScanOf e p) ≤ 1)
      ∧ (∀ leaseId, w.mem.book.paidCalls.count leaseId ≤ 1)
      ∧ ∀ g ∈ w.file.groups, g.verdict = .rejected →
          w.mem.book.paidCalls.count g.leaseId = 0 := by
  obtain ⟨hw, hpaid⟩ := paidOnce_run hinj h
  refine ⟨hw.desk.pays_once, hw.desk.firstScan_once, ?_, ?_⟩
  · intro leaseId
    exact le_trans (hpaid leaseId) (hw.desk.pays_once leaseId)
  · intro g hg hr
    have hle := hpaid g.leaseId
    rw [hw.desk.refused_unpaid hg hr] at hle
    exact Nat.le_zero.1 hle

/-- The small validator trains its group: the lease is paid, once. -/
theorem paid_at_most_once_trained :
    (after trainedOps).mem.book.paidCalls = ["0"] ∧ ∀ leaseId,
          (after trainedOps).mem.book.paidCalls.count leaseId ≤ 1 := by
  have hserved : ∀ w, ∀ op ∈ trainedOps, Served w op := by
    intro w op hop
    simp only [trainedOps, takenOps, List.cons_append, List.nil_append,
      List.mem_cons, List.not_mem_nil, or_false] at hop
    rcases hop with rfl | rfl | rfl | rfl | rfl | rfl
    all_goals rfl
  exact ⟨by decide +kernel, (paid_at_most_once counted_injective oneEnv {} {}
    0 (Run.of_list hserved _)).2.2.1⟩

-- ===== the buffer

/-- The calls that hand groups out. -/
inductive IsTake : SubProg (List SubmittedGroup) → Prop
  | take (limit : Int) (now : ℚ) (caps : Except Err (List (String × Int))) :
      IsTake (takeGroups limit now caps)
  | older (belowK limit : Int) (scan : ScanOrder) :
      IsTake (onBuffer (takeOlder belowK limit scan))
  | exhausted (maxAttempts limit : Int) (scan : ScanOrder) :
      IsTake (onBuffer (takeExhausted maxAttempts limit scan))

/-- Every group answered had one row, queued, which is taken now. -/
def HandsQueued (w : SubWorld) (groups : List SubmittedGroup)
    (w' : SubWorld) : Prop :=
  ∀ b ∈ groups, (∃ x ∈ w.file.buffer, x.leaseId = b.leaseId)
    ∧ (∀ x ∈ w.file.buffer, x.leaseId = b.leaseId → x.state = .queued)
    ∧ ∀ x ∈ w'.file.buffer, x.leaseId = b.leaseId → x.state = .taken

/-- What the buffer hands out, in the larger world. -/
theorem handsQueued_of_handedOut (hd : DeskWf (deskOf w))
    {groups : List SubmittedGroup} {v : World (List BufferRow) BufferMem}
    (h : TrainingBuffer.HandedOut (bufferPart.view w) groups v) :
    HandsQueued w groups (bufferPart.set v w) := by
  intro b hb
  obtain ⟨x, hx, hs, hbody, htaken⟩ := h.2 b hb
  have hid : x.leaseId = b.leaseId := by
    rw [← hbody]
    exact (hd.bodies x hx).symm
  refine ⟨⟨x, hx, hid⟩, ?_, ?_⟩
  · intro y hy hyid
    have hyx : y = x := eq_of_key hd.bufferKey hy hx (hyid.trans hid.symm)
    rw [hyx]
    exact hs
  · intro y hy hyid
    exact htaken y hy (hyid.trans hid.symm)

/-- No take hands out a group that is out already. -/
theorem take_handsQueued (hd : DeskWf (deskOf w))
    {p : SubProg (List SubmittedGroup)} (hp : IsTake p) :
    Spec (fun u => u = w) p (fun groups u => HandsQueued w groups u)
      fun _ _ => True := by
  have hlift : ∀ {q : BufferProg (List SubmittedGroup)},
      Spec (fun v => v = bufferPart.view w) q
        (TrainingBuffer.HandedOut (bufferPart.view w))
        (fun _ v => HandedRows w.file.buffer v.file) →
      Spec (fun u => u = w) (onBuffer q)
        (fun groups u => HandsQueued w groups u) fun _ _ => True := by
    intro q hq
    refine (Spec.within hq).conseq (fun _ hu => hu) ?_ fun _ _ _ => trivial
    intro groups u hu
    obtain ⟨v, hv, heq⟩ := hu
    rw [heq]
    exact handsQueued_of_handedOut hd hv
  cases hp with
  | take limit now caps =>
    refine .get_bind ?_
    intro u hu
    subst hu
    exact hlift (take_spec hd.bufferKey limit now caps _ _)
  | older belowK limit scan =>
    exact hlift (takeWhere_spec _ _ limit scan)
  | exhausted maxAttempts limit scan =>
    exact hlift (takeWhere_spec _ _ limit scan)

/-- **A group graded in zone is buffered once, and reported once.** -/
theorem in_zone_conserved (hinj : Function.Injective token)
    (config : BookConfig) (quotaConfig : QuotaConfig)
    (submitConfig : SubmitConfig) (now : ℚ) {ops : List SubOp}
    (h : Free (subStep sha256 token)
      (firstStart config quotaConfig submitConfig now) ops w) :
    (∀ g ∈ w.file.groups, g.verdict = .graded .inZone →
        (g.training = some .queued
          ∧ w.file.buffer.countP (fun x => x.leaseId == g.leaseId) = 1
          ∧ w.file.events.countP (EventRow.counts .trained g.leaseId)
              + w.file.events.countP (EventRow.counts .untrained g.leaseId)
              = 0)
        ∨ (g.training ≠ some .queued
          ∧ w.file.buffer.countP (fun x => x.leaseId == g.leaseId) = 0
          ∧ w.file.events.countP (EventRow.counts .trained g.leaseId)
              + w.file.events.countP (EventRow.counts .untrained g.leaseId)
              = 1))
      ∧ (∀ x ∈ w.file.buffer, ∃ g ∈ w.file.groups, g.leaseId = x.leaseId
          ∧ g.verdict = .graded .inZone)
      ∧ ∀ p, IsTake p → ∀ groups w', p.run w = (.ok groups, w') →
          HandsQueued w groups w' := by
  have hw := subWf_run hinj h
  refine ⟨fun g hg hz => hw.desk.conserved hg hz, ?_, ?_⟩
  · intro x hx
    obtain ⟨g, hg, hid, hq⟩ := hw.desk.buffered x hx
    have hz := ((hw.desk.row g hg).shaped.training (by simp [hq])).1
    exact ⟨g, hg, hid, hz⟩
  · intro p hp groups w' hrun
    have hspec := take_handsQueued hw.desk hp w rfl
    rw [hrun] at hspec
    exact hspec

/-- The small validator's group, out for training: its row is the one of
the buffer. -/
theorem in_zone_conserved_taken :
    (∃ x ∈ (after takenOps).file.buffer, x.state = .taken)
      ∧ ∀ g ∈ (after takenOps).file.groups, g.verdict = .graded .inZone →
          g.training = some .queued →
          (after takenOps).file.buffer.countP
            (fun x => x.leaseId == g.leaseId) = 1 := by
  refine ⟨by decide +kernel, fun g hg hz hq => ?_⟩
  have hrun : Free (subStep firstByte counted) (firstStart oneEnv {} {} 0)
      takenOps (after takenOps) := Run.of_list (fun _ _ _ => trivial) _
  rcases (in_zone_conserved counted_injective oneEnv {} {} 0 hrun).1 g hg hz
    with ⟨-, hone, -⟩ | ⟨hno, -⟩
  · exact hone
  · exact absurd hq hno

end Reliquary.Rl
