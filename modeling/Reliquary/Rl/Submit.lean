/-
The submission path (`rl_submit.py`): a lease's group is graded, stored
and routed, to the training buffer, to an audit, or to nobody.

# The state

`Db` is the one SQLite file: the lease book's tables, the buffer, and
the four tables of this module. `SubMem` is the process: the book's
memory, the buffer's counts, and the submissions between their check and
their transaction (`grading`), which hold no lock while they are graded.

# What is outside

The grader, the proof forward and the random draw are what a call is
given: `Graded` is what the grader answered, a result about every
`Graded` is one about every grader. The trainer's reward re-check runs
before the transaction of its report (`recheck`), on the group as
buffered then.

A method of the book or of the buffer that is called inside a
transaction here joins it: run inside the outer block, its own block
restores tables that the outer one restores again.
-/
import Reliquary.Rl.LeaseBook
import Reliquary.Rl.Buffer

namespace Reliquary.Rl

open Store

-- ===== the data

/-- A group's verdict: refused for integrity (`REJECTED`), or graded. -/
inductive GroupVerdict
  | rejected
  | graded (verdict : Verdict)
  deriving DecidableEq, Repr

/-- Where an out-of-zone group's audit stands, and what a verdict on
record says. -/
inductive AuditState
  | notDrawn | pending | passed | failed | inconclusive
  deriving DecidableEq, Repr

/-- Where an in-zone group's training stands. -/
inductive Training
  | queued | accepted | rejected
  deriving DecidableEq, Repr

/-- Who gave a verdict. -/
inductive VerdictSource
  | audit | training
  deriving DecidableEq, Repr

/-- A row of `rl_groups`. -/
structure GroupRow where
  leaseId : String
  hotkey : String
  environment : String
  promptIdx : Int
  k : Int
  nonce : String
  issuedAt : ℚ
  arrivedAt : ℚ
  verdict : GroupVerdict
  reason : Option String
  rewards : Option (List ℚ)
  truncated : Option (List Bool)
  completionTokens : Nat
  firstScan : Bool
  scanSeq : Option Nat
  audit : Option AuditState
  training : Option Training
  deriving DecidableEq, Repr

/-- A row of `rl_audits`; its body is gone once concluded. -/
structure AuditRow where
  leaseId : String
  hotkey : String
  forced : Bool
  queuedAt : ℚ
  body : Option SubmittedGroup
  attempts : Nat := 0
  lag : Option Int := none
  deriving DecidableEq, Repr

/-- A row of `rl_verdicts`. -/
structure VerdictRow where
  seq : Nat
  leaseId : String
  hotkey : String
  source : VerdictSource
  verdict : AuditState
  failureClass : Option String
  forced : Bool
  at_ : ℚ
  deriving DecidableEq, Repr

/-- What a training report says of its group. -/
structure TrainingDetail where
  rolloutMatch : List ℚ
  completionTokens : List Nat
  checkpoint : Int
  environment : String
  judged : Option Bool
  matchedTokens : Option (List Int)
  rewardMoved : Bool
  deriving DecidableEq, Repr

/-- The kinds of `rl_events`, each with its detail. -/
inductive EventKind
  | firstScan (fraction : ℚ) (audited : Bool)
  | firstScanForfeited (audit : AuditState) (tokens : Nat)
  | trained (detail : TrainingDetail)
  | untrained (detail : TrainingDetail) (failureClass : Option String)
  | ban (reason : String) (til : ℚ)
  deriving DecidableEq, Repr

/-- A row of `rl_events`. -/
structure EventRow where
  seq : Nat
  leaseId : String
  hotkey : String
  kind : EventKind
  at_ : ℚ
  deriving DecidableEq, Repr

/-- One submitted rollout. -/
structure Rollout where
  tokens : List Nat
  forceSpan : Option (Int × Int) := none
  deriving DecidableEq, Repr

/-- What the grader answered. -/
structure Graded where
  promptTokens : List Nat
  rewards : List ℚ := []
  truncated : List Bool := []
  reject : Option String := none
  spans : Option (List (List (Int × Int))) := none
  deriving DecidableEq, Repr

/-- The proof forward's verdict on one group. -/
structure AuditResult where
  passed : Option Bool
  failureClass : Option String := none
  suspect : Bool := false
  deriving DecidableEq, Repr

/-- The trainer's report of a buffered group. -/
structure TrainingReport where
  leaseId : String
  rolloutMatch : List ℚ
  accepted : Bool
  failureClass : Option String := none
  matchedTokens : Option (List Int) := none
  substitutions : List (List (Int × Nat)) := []
  judged : Option Bool := none
  deriving DecidableEq, Repr

/-- The configuration, with what `__post_init__` checks. -/
structure SubmitConfig where
  auditRate : ℚ := 15 / 100
  probationRepeatAuditRate : ℚ := 1
  probationGroups : Nat := 100
  reprobationPasses : Nat := 20
  firstScanFraction : ℚ := 1 / 4
  firstScanMinTokens : Nat := 1024
  rollouts : Nat := 16
  auditMaxLag : Nat := 4
  auditRate_fraction : 0 ≤ auditRate ∧ auditRate ≤ 1 := by
    constructor <;> norm_num
  firstScan_fraction : 0 ≤ firstScanFraction ∧ firstScanFraction ≤ 1 := by
    constructor <;> norm_num
  repeatRate_fraction :
      0 ≤ probationRepeatAuditRate ∧ probationRepeatAuditRate ≤ 1 := by
    constructor <;> norm_num
  two_le_rollouts : 2 ≤ rollouts := by decide

/-- The failure classes of a verdict (`AUDIT_FAILURE_CLASSES`). -/
def auditFailureClasses : List String := ["deterministic", "statistical"]

/-- Rejections that are the grader's failure (`GRADER_FAULTS`). -/
def graderFaults : List String := ["reward_error"]

/-- Raising audit forwards of one group before it is concluded. -/
def auditMaxAttempts : Nat := 3

-- ===== the state

/-- The SQLite file. -/
structure Db where
  book : Book := {}
  groups : List GroupRow := []
  audits : List AuditRow := []
  verdicts : List VerdictRow := []
  events : List EventRow := []
  buffer : List BufferRow := []
  deriving DecidableEq

/-- A submission between its check and its transaction: what the call
was given, and the lease it was told. -/
structure Task where
  leaseId : String
  hotkey : String
  rollouts : List Rollout
  arrivedAt : ℚ
  lease : Lease
  deriving DecidableEq

/-- What the process holds beside the file. -/
structure SubMem where
  book : BookMem
  config : SubmitConfig
  buffer : BufferMem := {}
  grading : List Task := []

abbrev SubWorld := World Db SubMem

abbrev SubProg (α : Type) := Prog Err Db SubMem α

/-- The lease book in the larger world. -/
def bookPart : Part Db SubMem Book BookMem where
  file d := d.book
  setFile b d := { d with book := b }
  mem m := m.book
  setMem b m := { m with book := b }

/-- The training buffer in the larger world. -/
def bufferPart : Part Db SubMem (List BufferRow) BufferMem where
  file d := d.buffer
  setFile b d := { d with buffer := b }
  mem m := m.buffer
  setMem b m := { m with buffer := b }

/-- A method of the book. -/
def onBook {α : Type} (p : BookProg α) : SubProg α :=
  Prog.within bookPart p

/-- A method of the buffer. -/
def onBuffer {α : Type} (p : BufferProg α) : SubProg α :=
  Prog.within bufferPart p

/-- Write the file. -/
def write (f : Db → Db) : SubProg Unit :=
  Prog.modify fun w => { w with file := f w.file }

-- ===== grading

/-- Did the grader name a refusal? (An empty one is none.) -/
def Graded.refused (g : Graded) : Bool :=
  g.reject.any fun r => r != ""

/-- Was it the grader's own failure? -/
def Graded.faulty (g : Graded) : Bool :=
  g.reject.any fun r => r ∈ graderFaults

/-- The verdict: truncated rollouts count as failures inside the group,
so there is no truncation ceiling. -/
def Graded.verdict (g : Graded) : Except Err GroupVerdict :=
  if g.refused then .ok .rejected
  else (classifyGroup g.rewards g.truncated g.rewards.length).map .graded

/-- The group a submission stores. -/
def Task.group (t : Task) (g : Graded) : SubmittedGroup where
  leaseId := t.leaseId
  hotkey := t.hotkey
  environment := t.lease.environment
  promptIdx := t.lease.promptIdx
  checkpoint := t.lease.checkpoint
  nonce := t.lease.nonce
  arrivedAt := t.arrivedAt
  rewards := g.rewards
  truncated := g.truncated
  promptTokens := g.promptTokens
  completions := t.rollouts.map fun r => r.tokens
  forceSpans := t.rollouts.map fun r => r.forceSpan
  spans := g.spans

/-- What the miner is told. -/
structure Answer where
  leaseId : String
  verdict : GroupVerdict
  rewards : List ℚ
  reason : Option String := none
  resent : Bool := false
  deriving DecidableEq, Repr

/-- The audit's state after the forward's verdict. -/
def AuditResult.state (r : AuditResult) : AuditState :=
  match r.passed with
  | none => .inconclusive
  | some true => .passed
  | some false => .failed

namespace RlSubmissions

/-- The answer given for an already graded lease, if there is one. -/
def gradedAnswer (leaseId hotkey : String) (db : Db) :
    Except Err (Option Answer) :=
  match db.groups.find? fun g => g.leaseId == leaseId with
  | none => .ok none
  | some g =>
    if g.hotkey ≠ hotkey then
      .error (.permission "lease held by another hotkey")
    else .ok (some
      { leaseId, verdict := g.verdict, rewards := g.rewards.getD []
        reason := g.reason.filter fun r => r != "", resent := true })

-- ===== events and verdicts

/-- Append an event (`_event`). -/
def event (leaseId hotkey : String) (kind : EventKind) (at_ : ℚ) (db : Db) :
    Db :=
  { db with events := db.events ++
    [{ seq := db.events.length + 1, leaseId, hotkey, kind, at_ }] }

/-- Append a verdict. -/
def logVerdict (leaseId hotkey : String) (source : VerdictSource)
    (verdict : AuditState) (failureClass : Option String) (forced : Bool)
    (now : ℚ) (db : Db) : Db :=
  { db with verdicts := db.verdicts ++
    [{ seq := db.verdicts.length + 1, leaseId, hotkey, source, verdict
       failureClass, forced, at_ := now }] }

/-- Log a pass, or a failure with its class (`_verdict`). -/
def verdict (leaseId hotkey : String) (source : VerdictSource)
    (passed : Bool) (failureClass : Option String) (forced : Bool)
    (now : ℚ) : SubProg Unit :=
  if passed = false ∧ ¬∃ c ∈ failureClass, c ∈ auditFailureClasses then
    Prog.raise (.value ("a failure needs its class, one of "
      ++ "('deterministic', 'statistical')"))
  else write (logVerdict leaseId hotkey source
    (if passed then .passed else .failed)
    (if passed then none else failureClass) forced now)

/-- The hotkey's passed audits past a verdict (`_passes`). -/
def passes (db : Db) (hotkey : String) (after : Nat) : Nat :=
  db.verdicts.countP fun v => v.hotkey == hotkey && v.source == .audit
    && v.verdict == .passed && decide (after < v.seq)

/-- Too few passed audits so far, or since the last failure
(`_in_probation`). -/
def inProbation (config : SubmitConfig) (db : Db) (hotkey : String) : Bool :=
  decide (passes db hotkey 0 < config.probationGroups) ||
    match ((db.verdicts.filter fun v => v.hotkey == hotkey
        && (v.verdict == .failed || v.verdict == .inconclusive)).map
          fun v => v.seq).max? with
    | none => false
    | some last =>
      decide (passes db hotkey last < config.reprobationPasses)

/-- An out-of-zone first scan: payable when not drawn or passed, with
enough model tokens (`_first_scan`). -/
def firstScan (leaseId hotkey : String) (at_ : ℚ) (audit : AuditState)
    (tokens : Nat) : SubProg Unit :=
  Prog.get >>= fun w =>
  if (audit = .notDrawn ∨ audit = .passed)
      ∧ w.mem.config.firstScanMinTokens ≤ tokens then
    write (event leaseId hotkey
      (.firstScan w.mem.config.firstScanFraction (audit == .passed)) at_)
      >>= fun _ =>
    onBook (credit leaseId at_)
  else write (event leaseId hotkey (.firstScanForfeited audit tokens) at_)

-- ===== submission

/-- Queue an audit of the group. -/
def queueAudit (task : Task) (group : SubmittedGroup) (forced : Bool) :
    SubProg Unit :=
  Prog.get >>= fun w =>
  if w.file.audits.any fun a => a.leaseId == task.leaseId then
    Prog.raise .integrity
  else write fun db => { db with audits := db.audits ++
    [{ leaseId := task.leaseId, hotkey := task.hotkey, forced
       queuedAt := task.arrivedAt, body := some group }] }

/-- The share of a hotkey's out-of-zone groups that are audited: in
probation every first scan. -/
def rateOf (config : SubmitConfig) (forced first : Bool) : ℚ :=
  if forced then
    if first then 1 else config.probationRepeatAuditRate
  else config.auditRate

/-- Where the group goes: in zone to the buffer; a scan out of zone to
an audit when drawn, else, a first scan, to its pay; refused, nowhere. -/
def route (task : Task) (group : SubmittedGroup) (verdict : GroupVerdict)
    (scan : Option Scan) (tokens : Nat) (draw : ℚ) :
    SubProg (Option AuditState × Option Training) :=
  if verdict = .graded .inZone then
    onBuffer (TrainingBuffer.push group) >>= fun _ =>
    pure (none, some .queued)
  else match scan with
    | none => pure (none, none)
    | some scan =>
      Prog.get >>= fun w =>
      let forced := inProbation w.mem.config w.file task.hotkey
      let rate := rateOf w.mem.config forced scan.firstScan
      if 1 ≤ rate ∨ draw < rate then
        queueAudit task group forced >>= fun _ =>
        pure (some .pending, none)
      else
        (if scan.firstScan then
          firstScan task.leaseId task.hotkey task.arrivedAt .notDrawn tokens
        else pure ()) >>= fun _ =>
        pure (some .notDrawn, none)

/-- The group's row. -/
def rowOf (task : Task) (graded : Graded) (verdict : GroupVerdict)
    (scan : Option Scan) (tokens : Nat)
    (routed : Option AuditState × Option Training) : GroupRow where
  leaseId := task.leaseId
  hotkey := task.hotkey
  environment := task.lease.environment
  promptIdx := task.lease.promptIdx
  k := task.lease.checkpoint
  nonce := task.lease.nonce
  issuedAt := task.lease.issuedAt
  arrivedAt := task.arrivedAt
  verdict := verdict
  reason := graded.reject
  rewards := scan.map fun _ => graded.rewards
  truncated := scan.map fun _ => graded.truncated
  completionTokens := tokens
  firstScan := scan.any fun s => s.firstScan
  scanSeq := scan.map fun s => s.seq
  audit := routed.1
  training := routed.2

/-- Insert the group's row, its constraint checked. -/
def insertGroup (g : GroupRow) : SubProg Unit :=
  Prog.lift (sqlInt g.promptIdx) >>= fun _ =>
  Prog.lift (sqlInt g.k) >>= fun _ =>
  Prog.get >>= fun w =>
  if w.file.groups.any fun g' => g'.leaseId == g.leaseId then
    Prog.raise .integrity
  else write fun db => { db with groups := db.groups ++ [g] }

/-- The scan of a group that was graded. -/
def scanOf (live : Live) (task : Task) (graded : Graded) :
    GroupVerdict → SubProg (Option Scan)
  | .rejected => pure none
  | .graded v =>
    onBook (recordOutcome live task.lease.environment
      task.lease.promptIdx task.lease.checkpoint graded.rewards v
      task.arrivedAt) >>= fun scan =>
    pure (some scan)

/-- The transaction of `_submit`. -/
def recordTxn (live : Live) (task : Task) (graded : Graded)
    (verdict : GroupVerdict) (tokens : Nat) (draw : ℚ) : SubProg Unit :=
  Prog.txn <|
  onBook (submit live task.leaseId task.hotkey
    (verdict == .graded .inZone) (verdict != .rejected || graded.faulty)
    task.arrivedAt) >>= fun _ =>
  scanOf live task graded verdict >>= fun scan =>
  route task (task.group graded) verdict scan tokens draw >>= fun routed =>
  insertGroup (rowOf task graded verdict scan tokens routed)

/-- The first half of `_submit`: the check, after which the group is
being graded. -/
def begin_ (live : Live) (leaseId hotkey : String)
    (rollouts : List Rollout) (arrivedAt : ℚ) : SubProg Task :=
  onBook (checkSubmission live leaseId hotkey arrivedAt) >>= fun lease =>
  let task : Task := { leaseId, hotkey, rollouts, arrivedAt, lease }
  Prog.modify (fun w => { w with mem := { w.mem with
    grading := w.mem.grading ++ [task] } }) >>= fun _ =>
  pure task

/-- Its second half, once the group is graded. -/
def record (live : Live) (task : Task) (graded : Graded) (draw : ℚ) :
    SubProg Answer :=
  Prog.modify (fun w => { w with mem := { w.mem with
    grading := w.mem.grading.erase task } }) >>= fun _ =>
  Prog.lift graded.verdict >>= fun verdict =>
  Prog.lift ((task.group graded).modelTokensTo task.rollouts.length)
    >>= fun tokens =>
  recordTxn live task graded verdict tokens.sum draw >>= fun _ =>
  pure { leaseId := task.leaseId, verdict, rewards := graded.rewards
         reason := graded.reject.filter fun r => r != "" }

/-- A submission, resends answered from the record. `grade` is the
grader; LookupErrors are retried against the record, since a concurrent
resend may have closed the lease first. -/
def submit (live : Live) (leaseId hotkey : String)
    (rollouts : List Rollout) (arrivedAt : ℚ)
    (grade : Lease → Except Err Graded) (draw : ℚ) : SubProg Answer :=
  Prog.get >>= fun w =>
  if rollouts.length ≠ w.mem.config.rollouts
      ∨ ∃ r ∈ rollouts, r.tokens = [] then
    Prog.raise (.value ("a group is exactly "
      ++ toString w.mem.config.rollouts ++ " non-empty rollouts"))
  else
    Prog.lift (gradedAnswer leaseId hotkey w.file) >>= fun earlier =>
    match earlier with
    | some answer => pure answer
    | none =>
      Prog.rescue (fun e => match e with
          | .lookup _ => true
          | _ => false)
        (begin_ live leaseId hotkey rollouts arrivedAt >>= fun task =>
          Prog.lift (grade task.lease) >>= fun graded =>
          record live task graded draw)
        fun e =>
          Prog.get >>= fun w =>
          Prog.lift (gradedAnswer leaseId hotkey w.file) >>= fun earlier =>
          match earlier with
          | some answer => pure answer
          | none => Prog.raise e

/-- Called at arrival: hold the lease until its release, unless it is
already graded. -/
def hold (live : Live) (leaseId hotkey : String) (arrivedAt : ℚ) :
    SubProg Bool :=
  Prog.get >>= fun w =>
  Prog.lift (gradedAnswer leaseId hotkey w.file) >>= fun earlier =>
  match earlier with
  | some _ => pure false
  | none =>
    onBook (holdSubmission live leaseId hotkey arrivedAt) >>= fun _ =>
    pure true

/-- The operator's ban. -/
def blacklist (hotkey : String) (til : ℚ) (reason : String) (now : ℚ) :
    SubProg Unit :=
  Prog.txn <|
  onBook (Prog.modify (ban hotkey til)) >>= fun _ =>
  write (event "" hotkey (.ban reason til) now)

-- ===== audits

/-- The group's row. -/
def groupOf (db : Db) (leaseId : String) : Option GroupRow :=
  db.groups.find? fun g => g.leaseId == leaseId

/-- The queued audits' groups: past probation first, then first scans,
then the newest. -/
def auditJobs (db : Db) (limit : Int) : List SubmittedGroup :=
  let first (a : AuditRow) : Bool :=
    (groupOf db a.leaseId).any fun g => g.firstScan
  let before (a b : AuditRow) : Prop :=
    (a.forced < b.forced) ∨ (a.forced = b.forced ∧
      (first b < first a ∨ (first a = first b ∧ b.queuedAt ≤ a.queuedAt)))
  sqlLimit limit (((db.audits.filter fun a => a.body.isSome).insertionSort
    before).filterMap fun a => a.body)

/-- The pending audit of a lease, with its group. -/
def pendingAudit (db : Db) (leaseId : String) : Option (AuditRow × GroupRow) :=
  match db.audits.find? fun a => a.leaseId == leaseId && a.body.isSome with
  | none => none
  | some a => (groupOf db leaseId).map fun g => (a, g)

/-- The verdict an audit logs: a pass or a failure, or, suspect, an
inconclusive one. -/
def auditVerdict (leaseId : String) (result : AuditResult) (a : AuditRow)
    (now : ℚ) : SubProg Unit :=
  match result.passed with
  | some passed => verdict leaseId a.hotkey .audit passed
      result.failureClass a.forced now
  | none =>
    if result.suspect then
      write (logVerdict leaseId a.hotkey .audit .inconclusive none a.forced now)
    else pure ()

/-- The tables once an audit is concluded. -/
def concludeAudit (leaseId : String) (state : AuditState) (lag : Int)
    (db : Db) : Db :=
  { db with
    audits := updateWhere (fun a => a.leaseId == leaseId)
      (fun a => { a with body := none, lag := some lag }) db.audits
    groups := updateWhere (fun g => g.leaseId == leaseId)
      (fun g => { g with audit := some state }) db.groups }

/-- Conclude a drawn group, once. -/
def reportAudit (leaseId : String) (result : AuditResult) (now : ℚ) :
    SubProg Unit :=
  Prog.txn <|
  Prog.get >>= fun w =>
  match pendingAudit w.file leaseId with
  | none => Prog.raise (.lookup "no pending audit for this lease")
  | some (a, g) =>
    auditVerdict leaseId result a now >>= fun _ =>
    write (concludeAudit leaseId result.state
      (w.file.book.latest.getD 0 - g.k)) >>= fun _ =>
    if g.firstScan then
      firstScan leaseId a.hotkey now result.state g.completionTokens
    else pure ()

/-- The pending audits more than `audit_max_lag` checkpoints behind. -/
def staleAudits (config : SubmitConfig) (db : Db) : List String :=
  match db.book.latest with
  | none => []
  | some latest =>
    (db.audits.filter fun a => a.body.isSome &&
      (groupOf db a.leaseId).any fun g =>
        decide (g.k < latest - config.auditMaxLag)).map
      fun a => a.leaseId

/-- Conclude the stale ones inconclusive; how many. -/
def dropStaleAudits (now : ℚ) : SubProg Nat :=
  Prog.get >>= fun w =>
  let stale := staleAudits w.mem.config w.file
  Prog.loop (fun (_ : Unit) leaseId =>
    reportAudit leaseId { passed := none } now) () stale >>= fun _ =>
  pure stale.length

/-- A forward of the audit raised: count it. -/
def retryAudit (leaseId : String) : SubProg Nat :=
  Prog.txn <|
  write (fun db => { db with
    audits := updateWhere (fun a => a.leaseId == leaseId)
      (fun a => { a with attempts := a.attempts + 1 }) db.audits })
    >>= fun _ =>
  Prog.get >>= fun w =>
  match w.file.audits.find? fun a => a.leaseId == leaseId with
  | none => Prog.raise .callable
  | some a => pure a.attempts

/-- One audit of a drain: its forward's verdict is reported; one that
raised stays queued until its attempts are spent. -/
def runAudit (forward : SubmittedGroup → Except Err AuditResult)
    (maxAttempts : Nat) (now : ℚ) (done : Nat) (group : SubmittedGroup) :
    SubProg Nat :=
  match forward group with
  | .ok result =>
    reportAudit group.leaseId result now >>= fun _ => pure (done + 1)
  | .error _ =>
    retryAudit group.leaseId >>= fun failures =>
    if failures < maxAttempts then pure done
    else
      reportAudit group.leaseId { passed := none, suspect := true } now
        >>= fun _ => pure (done + 1)

/-- Drain up to `limit` queued audits through the proof forward. -/
def runAudits (forward : SubmittedGroup → Except Err AuditResult)
    (limit : Int) (maxAttempts : Nat) (now : ℚ) : SubProg Nat :=
  dropStaleAudits now >>= fun _ =>
  Prog.get >>= fun w =>
  Prog.loop (runAudit forward maxAttempts now) 0 (auditJobs w.file limit)

-- ===== the trainer's report

/-- A rollout with the trainer's picks in place of its suspect tokens:
of a run of consecutive positions only the first, and a stop token ends
it. -/
def substitute (stops : List Nat) :
    List (Int × Nat) → Option Int → List Nat → List Nat
  | [], _, tokens => tokens
  | (position, pick) :: rest, previous, tokens =>
    if previous ≠ some (position - 1) ∧ 0 ≤ position
        ∧ position < tokens.length then
      let tokens := tokens.set position.toNat pick
      if pick ∈ stops then tokens.take (position.toNat + 1)
      else substitute stops rest (some position) tokens
    else substitute stops rest (some position) tokens

/-- The rollouts the re-check grades again, with their indexes. -/
def changedRollouts (stops : List Nat) (group : SubmittedGroup)
    (substitutions : List (List (Int × Nat))) :
    Except Err (List (Nat × Rollout)) :=
  (substitutions.zipIdx.filter fun pi =>
    pi.1 != [] && group.spans.isNone).mapM fun pi =>
      match group.completions[pi.2]?, group.forceSpans[pi.2]? with
      | some completion, some span =>
        let pairs := pi.1.insertionSort fun a b =>
          a.1 < b.1 ∨ (a.1 = b.1 ∧ a.2 ≤ b.2)
        .ok (pi.2, { tokens := substitute stops pairs none completion
                     forceSpan := span })
      | _, _ => .error indexError

/-- Does every changed rollout have its reward still? -/
def sameRewards (old new : List ℚ) :
    List ((Nat × Rollout) × Nat) → Except Err Bool
  | [] => .ok true
  | ((i, _), k) :: rest =>
    match new[k]?, old[i]? with
    | some r, some r' =>
      if |r - r'| < 1 / 10 ^ 9 then sameRewards old new rest
      else .ok false
    | _, _ => .error indexError

/-- The reward re-check (`_rewards_hold`). -/
def rewardsHold (stops : List Nat)
    (grade : String → Int → List Rollout → Except Err Graded)
    (group : SubmittedGroup) (substitutions : List (List (Int × Nat))) :
    Except Err Bool := do
  let changed ← changedRollouts stops group substitutions
  if changed = [] then .ok true
  else
    let graded ← grade group.environment group.promptIdx
      (changed.map Prod.snd)
    if graded.refused then .ok false
    else sameRewards group.rewards graded.rewards changed.zipIdx

/-- What a report finds before its transaction: whether the rewards of
an accepted group moved. -/
def recheck (stops : List Nat)
    (grade : String → Int → List Rollout → Except Err Graded)
    (report : TrainingReport) (pending : Option SubmittedGroup) :
    Except Err Bool :=
  if report.accepted = false ∨ report.substitutions = [] then .ok false
  else match pending with
    | none => .ok false
    | some group =>
      if report.substitutions.length ≠ group.completions.length then
        .error (.value "one substitution list per rollout")
      else (rewardsHold stops grade group report.substitutions).map (!·)

/-- The report's arguments, against the group. -/
def checkReport (report : TrainingReport) (group : SubmittedGroup) :
    Except Err (List Nat) := do
  if report.rolloutMatch.length ≠ group.completions.length
      ∨ ∃ m ∈ report.rolloutMatch, ¬(0 ≤ m ∧ m ≤ 1) then
    .error (.value "one match rate in [0, 1] per rollout")
  let model ← group.modelTokensTo report.rolloutMatch.length
  if ∃ matched ∈ report.matchedTokens,
      matched.length ≠ report.rolloutMatch.length
        ∨ ∃ nm ∈ matched.zip model, ¬(0 ≤ nm.1 ∧ nm.1 ≤ nm.2) then
    .error (.value "one matched token count in [0, model tokens] per rollout")
  pure model

/-- The tables once a group is reported. -/
def reported (leaseId : String) (training : Training) (db : Db) : Db :=
  { db with
    groups := updateWhere (fun g => g.leaseId == leaseId)
      (fun g => { g with training := some training }) db.groups }

/-- The transaction of `report_training`: the row goes first, and what
is wrong with the report puts it back. -/
def reportTxn (report : TrainingReport) (moved : Bool) (now : ℚ) :
    SubProg Unit :=
  let accepted := report.accepted && !moved
  Prog.txn <|
  Prog.get >>= fun w =>
  match TrainingBuffer.get report.leaseId w.file.buffer with
  | none => Prog.raise (.lookup "no buffered group for this lease")
  | some group =>
    write (fun db => { db with
      buffer := TrainingBuffer.remove report.leaseId db.buffer })
      >>= fun _ =>
    Prog.lift (checkReport report group) >>= fun model =>
    write (reported report.leaseId
      (if accepted then .accepted else .rejected)) >>= fun _ =>
    let detail : TrainingDetail :=
      { rolloutMatch := report.rolloutMatch, completionTokens := model
        checkpoint := group.checkpoint, environment := group.environment
        judged := report.judged, matchedTokens := report.matchedTokens
        rewardMoved := moved }
    if accepted then
      write (event report.leaseId group.hotkey (.trained detail) now)
        >>= fun _ =>
      onBook (credit report.leaseId now) >>= fun _ =>
      verdict report.leaseId group.hotkey .training true none false now
    else
      write (event report.leaseId group.hotkey
        (.untrained detail report.failureClass) now) >>= fun _ =>
      if report.failureClass.isSome then
        verdict report.leaseId group.hotkey .training false
          report.failureClass false now
      else pure ()

/-- The trainer's report: the re-check, then its transaction. -/
def reportTraining (stops : List Nat)
    (grade : String → Int → List Rollout → Except Err Graded)
    (report : TrainingReport) (now : ℚ) : SubProg Unit :=
  Prog.get >>= fun w =>
  Prog.lift (recheck stops grade report
    (TrainingBuffer.get report.leaseId w.file.buffer)) >>= fun moved =>
  reportTxn report moved now

end RlSubmissions

end Reliquary.Rl
