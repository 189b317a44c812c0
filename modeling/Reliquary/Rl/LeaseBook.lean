/-
The RL lease book (`rl_leases.py`): a miner reserves prompts before it
generates them, and every lease ends in a submission, an expiry, or a
release.

# The state

`Book` is the book's tables in the SQLite file, `BookMem` what the
process holds beside them: the quota controller's entries (the file
has a copy of each, `Book.quota`), the submissions being graded
(`submitting`), the last alive mark. A method is a `Prog` over the two,
and its transaction is `txn`: an exception inside it restores the
tables and not the memory.

# What a call is given

The clock, the shuffle, the drawn ids and secrets, and the answers of
the service's callables are arguments: a result about every call is a
result about every clock and every draw. `buffer` is the environment
column of `rl_buffer`, a table of the same file that belongs to
`Buffer.lean`.
-/
import Reliquary.Store.Table
import Reliquary.Store.Txn
import Reliquary.Rl.Quota

namespace Reliquary.Rl

open Store

-- ===== the tables

/-- A row of `rl_lease_secrets`. -/
structure SecretRow where
  k : Int
  secret : List UInt8
  commitment : List UInt8
  adoptedAt : ℚ
  revealedAt : Option ℚ
  deriving DecidableEq, Repr

/-- A row of `rl_leases`. -/
structure LeaseRow extends Lease where
  closedAt : Option ℚ := none
  cause : Option Cause := none
  deriving DecidableEq, Repr

/-- A row of `rl_prompt_scans`: the scan, and the state it moved its
prompt to. -/
structure ScanRow extends Scan where
  state : PromptLife
  untilK : Option Int
  deriving DecidableEq, Repr

/-- A row of `rl_prompt_state`. -/
structure PromptRow where
  environment : String
  promptIdx : Int
  state : PromptLife
  untilK : Option Int
  seq : Nat
  startK : Option Int
  revised : Bool
  deriving DecidableEq, Repr

/-- The lease book's tables. -/
structure Book where
  latest : Option Int := none
  secrets : List SecretRow := []
  leases : List LeaseRow := []
  scans : List ScanRow := []
  prompts : List PromptRow := []
  /-- The scans' AUTOINCREMENT sequence (`sqlite_sequence`). -/
  scanSeq : Nat := 0
  bans : List (String × ℚ) := []
  alive : Option ℚ := none
  downtimes : List (ℚ × ℚ) := []
  quota : List (String × Entry) := []
  deriving DecidableEq

/-- What the process holds beside the tables. -/
structure BookMem where
  config : BookConfig
  quotaConfig : QuotaConfig
  quota : List (String × Entry) := []
  submitting : List (String × Nat) := []
  aliveAt : Option ℚ := none
  full : List String := []
  laneFull : List String := []
  /-- How many lease ids `token_hex` has drawn. -/
  drawn : Nat := 0
  /-- History, read by nothing: the leases `record_paid` was called
  for, in order. -/
  paidCalls : List String := []

abbrev BookWorld := World Book BookMem

abbrev BookProg (α : Type) := Prog Err Book BookMem α

/-- A permutation of the claims, as the shuffle draws it. -/
structure Shuffle where
  order : List (Nat × Int) → List (Nat × Int)
  perm : ∀ claims, (order claims).Perm claims

-- ===== reading

def LeaseRow.isOpen (r : LeaseRow) : Bool := r.state == .opened

/-- The rows of one hotkey's open leases. -/
def LeaseRow.openOf (hotkey : String) (r : LeaseRow) : Bool :=
  r.hotkey == hotkey && r.isOpen

variable (config : BookConfig) (b : Book) (live : Live) (w : BookWorld)

/-- The number of open leases of a hotkey. -/
def Book.inUse (hotkey : String) : Nat :=
  b.leases.countP (LeaseRow.openOf hotkey)

/-- A lease's row by its id. -/
def Book.row (leaseId : String) : Option LeaseRow :=
  b.leases.find? fun r => r.leaseId == leaseId

/-- Is the hotkey banned at `now`? -/
def Book.banned (hotkey : String) (now : ℚ) : Bool :=
  match b.bans.lookup hotkey with
  | none => false
  | some til => decide (now < til)

/-- The prompt's row of `rl_prompt_state`. -/
def Book.prompt (environment : String) (promptIdx : Int) : Option PromptRow :=
  b.prompts.find? fun r =>
    r.environment == environment && r.promptIdx == promptIdx

/-- The unrevealed secret of `k`. -/
def Book.unrevealed (k : Int) : Option SecretRow :=
  b.secrets.find? fun r => r.k == k && r.revealedAt.isNone

-- ===== the quota

/-- The controller's entry of a hotkey (`_entry`). -/
def BookMem.entry (m : BookMem) (hotkey : String) : Entry :=
  (m.quota.lookup hotkey).getD (Entry.new m.quotaConfig)

/-- The quota as `grant` reads it: a hotkey without an entry gets the
initial one. -/
def BookMem.quotaOf (m : BookMem) (hotkey : String) (now : ℚ) : Nat :=
  ((m.quota.lookup hotkey).getD { cap := m.quotaConfig.initial }).quota
    m.quotaConfig (some now)

/-- Set a hotkey's entry, in memory and (`_save`) in its row. -/
def saveEntry (hotkey : String) (e : Entry) (w : BookWorld) : BookWorld :=
  { file := { w.file with quota := put hotkey e w.file.quota }
    mem := { w.mem with quota := put hotkey e w.mem.quota } }

/-- One event of the controller. -/
def quotaEvent (hotkey : String) (event : QuotaConfig → Entry → Entry)
    (w : BookWorld) : BookWorld :=
  saveEntry hotkey (event w.mem.quotaConfig (w.mem.entry hotkey)) w

/-- One hotkey of `reconcile`: its `in_use` becomes the book's count. -/
def reconcileOne (hotkey : String) : BookWorld :=
  let e := w.mem.entry hotkey
  if e.inUse = w.file.inUse hotkey then
    { w with mem := { w.mem with quota := put hotkey e w.mem.quota } }
  else saveEntry hotkey { e with inUse := w.file.inUse hotkey } w

/-- Align every `in_use` with the open leases, after a restart. -/
def reconcile : BookWorld :=
  let holders := ((w.file.leases.filter LeaseRow.isOpen).map
    fun r => r.hotkey).dedup
  let using_ := (w.mem.quota.filter fun he => he.2.inUse != 0).map Prod.fst
  (holders ++ using_).dedup.foldl reconcileOne w

-- ===== downtime and the boot

/-- Record `[since, now]` as a downtime when it is one, and give its
length back to every open lease. -/
def downtime (since now : ℚ) (w : BookWorld) : BookWorld :=
  if now - since ≤ downtimeMinS then w
  else
    { w with file := { w.file with
        downtimes := w.file.downtimes ++ [(since, now)]
        leases := updateWhere LeaseRow.isOpen
          (fun r => { r with expiresAt := r.expiresAt + (now - since) })
          w.file.leases } }

/-- Write the alive mark (`_mark_alive`). -/
def setAlive (now : ℚ) (w : BookWorld) : BookWorld :=
  { file := { w.file with alive := some now }
    mem := { w.mem with aliveAt := some now } }

/-- The validator is up; a silence since the last mark may have been a
downtime. -/
def markAlive (now : ℚ) (w : BookWorld) : BookWorld :=
  match w.mem.aliveAt with
  | none => setAlive now w
  | some last =>
    if 0 ≤ now - last ∧ now - last < aliveEveryS then w
    else setAlive now (downtime last now w)

/-- A cooldown recorded before revisions started at the latest
checkpoint when its scan was recorded, or at the scan's own. -/
def backfillStart (r : PromptRow) : PromptRow :=
  match b.scans.find? fun s => s.seq == r.seq with
  | none => r
  | some s =>
    let adopted := (b.secrets.filter fun x =>
      decide (x.adoptedAt ≤ s.at_)).map fun x => x.k
    { r with startK := some (max s.checkpoint (adopted.max?.getD s.checkpoint)) }

/-- The file opened: `attach` loads the quota rows. The draws and the
history go on from the process before. -/
def attach (quotaConfig : QuotaConfig) (drawn : Nat) (paidCalls : List String)
    (b : Book) : BookWorld :=
  { file := b
    mem := { config, quotaConfig, quota := b.quota, drawn, paidCalls } }

/-- The silence since the last alive mark on record. -/
def bootDowntime (now : ℚ) (w : BookWorld) : BookWorld :=
  match w.file.alive with
  | none => w
  | some last => downtime last now w

/-- A downtime is kept for a week. -/
def forgetDowntimes (now : ℚ) (w : BookWorld) : BookWorld :=
  { w with file := { w.file with
    downtimes := deleteWhere (fun d => decide (d.2 < now - 7 * dayS))
      w.file.downtimes } }

/-- Every open lease has at least the grace left. -/
def graceLeases (now : ℚ) (w : BookWorld) : BookWorld :=
  { w with file := { w.file with
    leases := updateWhere
      (fun r => r.isOpen && decide (r.expiresAt < now + restartGraceS))
      (fun r => { r with expiresAt := now + restartGraceS })
      w.file.leases } }

/-- The start of the cooldowns that have none. -/
def backfillStarts : BookWorld :=
  { w with file := { w.file with
    prompts := updateWhere (fun r => r.state == .cooldown && r.startK.isNone)
      (backfillStart w.file) w.file.prompts } }

/-- Open the file (`__init__`, `_boot`). -/
def boot (quotaConfig : QuotaConfig) (now : ℚ) (drawn : Nat)
    (paidCalls : List String) (b : Book) : BookWorld :=
  backfillStarts (reconcile (graceLeases now (setAlive now
    (forgetDowntimes now (bootDowntime now
      (attach config quotaConfig drawn paidCalls b))))))

-- ===== checkpoints and secrets

/-- The tables once `k` is adopted: its secret is drawn, the secrets of
the retired checkpoints are revealed, the closed leases nobody can ask
about again are gone. -/
def Book.adopted (maxLag k : Int) (secret commitment : List UInt8) (now : ℚ) :
    Book :=
  { b with
    latest := some k
    secrets := updateWhere
      (fun r => decide (r.k < k - maxLag) && r.revealedAt.isNone)
      (fun r => { r with revealedAt := some now })
      (b.secrets ++ [{ k, secret, commitment, adoptedAt := now
                       revealedAt := none }])
    leases := deleteWhere
      (fun r => decide (r.checkpoint < k - maxLag - maxLag) && !r.isOpen)
      b.leases }

section Hash

variable (sha256 : List UInt8 → List UInt8)

/-- The transaction of `adopt_checkpoint`: draw the secret of `k`,
publish its commitment, reveal the retired secrets, drop the closed
leases nobody can ask about again. Re-adopting the latest is a no-op,
an older `k` is refused. -/
def adoptTxn (k : Int) (urandom : List UInt8) (now : ℚ) :
    BookProg (List UInt8) :=
  Prog.lift (u64 k) >>= fun _ =>
  Prog.txn <|
  Prog.get >>= fun w =>
  match w.file.latest with
  | some latest =>
    if k < latest then
      Prog.raise (.value ("checkpoint " ++ toString k
        ++ " is older than the adopted " ++ toString latest))
    else if latest = k then commitmentOf k
    else adoptNew k urandom now >>= fun _ => commitmentOf k
  | none => adoptNew k urandom now >>= fun _ => commitmentOf k
where
  /-- The commitment on record: `k` is the latest, so there is one. -/
  commitmentOf (k : Int) : BookProg (List UInt8) :=
    Prog.get >>= fun w =>
    match w.file.secrets.find? fun r => r.k == k with
    | some r => pure r.commitment
    | none => Prog.raise .callable
  /-- The writes of a new checkpoint. -/
  adoptNew (k : Int) (urandom : List UInt8) (now : ℚ) : BookProg Unit :=
    Prog.lift (secretCommitment sha256 urandom k) >>= fun commitment =>
    Prog.lift (sqlInt k) >>= fun _ =>
    Prog.get >>= fun w =>
    if w.file.secrets.any fun r => r.k == k then Prog.raise .integrity
    else
    let retired := k - w.mem.config.maxLag
    Prog.lift (sqlInt retired) >>= fun _ =>
    Prog.lift (sqlInt (retired - w.mem.config.maxLag)) >>= fun _ =>
    Prog.modify fun w => { w with
      file := w.file.adopted w.mem.config.maxLag k urandom commitment now }

end Hash

/-- What `commitments()` publishes. -/
structure Commitments where
  latest : Option Int
  maxLag : Int
  active : List (Int × String)
  revealed : List (Int × String × String)
  nonceDomain : String
  commitDomain : String
  deriving DecidableEq, Repr

/-- The commitments of the leasable checkpoints and the secrets of the
latest retired ones. -/
def commitments : Commitments :=
  let rows := w.file.secrets.insertionSort fun a b => a.k ≤ b.k
  let revealed := (rows.filter fun r => r.revealedAt.isSome).map fun r =>
    (r.k, hex r.commitment, hex r.secret)
  { latest := w.file.latest
    maxLag := w.mem.config.maxLag
    active := (rows.filter fun r => r.revealedAt.isNone).map fun r =>
      (r.k, hex r.commitment)
    revealed := revealed.drop (revealed.length - maxRevealedListed)
    nonceDomain, commitDomain }

-- ===== closing a lease unsubmitted

/-- The lease was open when a downtime began. -/
def Book.livedThroughDowntime (lease : Lease) (now : ℚ) : Bool :=
  b.downtimes.any fun d => decide (lease.issuedAt ≤ d.1 ∧ d.1 < now)

/-- Set a lease's end. -/
def closeRow (leaseId : String) (state : LeaseState) (now : ℚ)
    (cause : Option Cause) (w : BookWorld) : BookWorld :=
  { w with file := { w.file with
    leases := updateWhere (fun r => r.leaseId == leaseId)
      (fun r => { r with state, closedAt := some now, cause })
      w.file.leases } }

/-- How an unsubmitted lease ends: `none`, charged to the miner, with
the cause; `some`, released, with the cause. -/
def closingOf (lease : Lease) (now : ℚ) (charged : Cause) : Option Cause × Cause
    :=
  let used := w.file.leases.countP fun r =>
    r.hotkey == lease.hotkey && r.state == .released
      && r.cause == some .boxFailed
      && decide (∃ c ∈ r.closedAt, now - dayS < c)
  let excused : Option Cause × Cause :=
    if w.file.livedThroughDowntime lease now then
      (some .validatorUnavailable, charged)
    else (none, charged)
  match live.sandboxFailure lease with
  | none => excused
  | some (.boxFailed, _) =>
    if w.mem.config.boxFailedReleasesPerDay ≤ used then
      (none, .boxFailedOverBudget)
    else (some .boxFailed, charged)
  | some (cause, _) => (some cause, charged)

/-- Close an open lease that will not be submitted: released when the
sandbox side verifiably failed it or the validator was down, charged as
its expiry otherwise. -/
def closeUnsubmitted (lease : Lease) (now : ℚ) (charged : Cause) (w : BookWorld)
    : LeaseState × BookWorld :=
  match closingOf live w lease now charged with
  | (none, cause) =>
    (.expired, quotaEvent lease.hotkey
      (fun cfg e => e.recordExpiry cfg .expired now)
      (closeRow lease.leaseId .expired now (some cause) w))
  | (some cause, _) =>
    (.released, quotaEvent lease.hotkey (fun _ e => e.recordRelease)
      (closeRow lease.leaseId .released now (some cause) w))

/-- The leases a sweep at `now` closes: open, due, and not held by a
submission being graded. -/
def dueAt (now : ℚ) : List Lease :=
  (w.file.leases.filter fun r =>
    r.isOpen && decide (r.expiresAt ≤ now)
      && (w.mem.submitting.lookup r.leaseId).isNone).map
    fun r => r.toLease

/-- The sweep (`_expire`). -/
def expire (now : ℚ) (w : BookWorld) : BookWorld :=
  (dueAt w now).foldl
    (fun w lease => (closeUnsubmitted live lease now .expired w).2) w

/-- Sweep; how many leases ended. -/
def expireDue (now : ℚ) : BookProg Nat :=
  Prog.txn <|
  Prog.get >>= fun w =>
  Prog.modify (expire live now) >>= fun _ =>
  pure (dueAt w now).length

/-- The miner gives up its open lease: closed as its expiry, now. -/
def forfeit (live : Live) (leaseId hotkey : String) (now : ℚ) :
    BookProg Lease :=
  Prog.txn <|
  Prog.get >>= fun w =>
  match w.file.row leaseId with
  | none => Prog.raise (.lookup "no open lease of this hotkey to forfeit")
  | some r =>
    if r.hotkey ≠ hotkey ∨ r.state ≠ .opened
        ∨ (w.mem.submitting.lookup leaseId).isSome then
      Prog.raise (.lookup "no open lease of this hotkey to forfeit")
    else
      let closed := closeUnsubmitted live r.toLease now .forfeited w
      Prog.modify (fun _ => closed.2) >>= fun _ =>
      pure { r.toLease with state := closed.1 }

-- ===== requests

/-- A request that is malformed is refused before any interval. -/
def checkRequest (r : LeaseRequest) : Except Err Unit :=
  if r.hotkey = "" then .error (.value "hotkey required")
  else if (config.expiryS.lookup r.environment).isNone then
    .error (.value "environment not served")
  else if r.checkpoint < 0 then
    .error (.value "checkpoint must be a non-negative integer")
  else if r.promptIds = [] ∨ maxPromptsPerRequest < r.promptIds.length then
    .error (.value "between 1 and 1024 prompts")
  else if (∃ p ∈ r.promptIds, p < 0) ∨ ¬r.promptIds.Nodup then
    .error (.value "prompt ids must be distinct non-negative integers")
  else match config.promptRange.lookup r.environment with
    | none => .ok ()
    | some rows =>
      if ∃ p ∈ r.promptIds, rows.contains p = false then
        .error (.value "prompt outside the environment's RL range")
      else .ok ()

/-- Every request of a batch, in order. -/
def checkRequests (config : BookConfig) : List LeaseRequest → Except Err Unit
  | [] => .ok ()
  | r :: rs => do
      checkRequest config r
      checkRequests config rs

/-- The room of a hotkey at the start of a batch: `-1` when banned, else
its quota (under a global cap, at most its share) less its open
leases. -/
def roomOf (now : ℚ) (hotkey : String) : Int :=
  if w.file.banned hotkey now then -1
  else
    let limit := w.mem.quotaOf hotkey now
    let limit := match w.mem.config.maxPendingGroups with
      | none => limit
      | some _ => min limit hotkeyMaxOpen
    max 0 ((limit : Int) - w.file.inUse hotkey)

/-- The requester's own open lease of the key: a resend needs no
room. -/
def heldLease (hotkey environment : String) (prompt checkpoint : Int) : Option
    Lease :=
  (w.file.leases.find? fun r =>
    r.openOf hotkey && r.environment == environment
      && r.promptIdx == prompt && r.checkpoint == checkpoint).map
    fun r => r.toLease

/-- What a batch has decided so far, in the source's dictionaries. -/
structure Batch where
  room : List (String × Int)
  granted : List ((Nat × Int) × Lease) := []
  refused : List ((Nat × Int) × Refusal) := []
  claims : List (Nat × Int) := []

/-- Refuse a claim. -/
def Batch.refuse (b : Batch) (claim : Nat × Int) (why : Refusal) : Batch :=
  { b with refused := put claim why b.refused }

/-- One prompt of request `i`, before the shuffle: banned, answered by
its own open lease, over the hotkey's room, or a claim. The counter is
the claims the request made already. -/
def sortPrompt (i : Nat) (r : LeaseRequest) (acc : Batch × Nat) (prompt : Int) :
    Batch × Nat :=
  let (b, asked) := acc
  let room := (b.room.lookup r.hotkey).getD 0
  if room < 0 then (b.refuse (i, prompt) .banned, asked)
  else match heldLease w r.hotkey r.environment prompt r.checkpoint with
    | some lease =>
      ({ b with granted := put (i, prompt) lease b.granted }, asked)
    | none =>
      if room ≤ asked then (b.refuse (i, prompt) .quota, asked)
      else ({ b with claims := b.claims ++ [(i, prompt)] }, asked + 1)

/-- Every prompt of every request. -/
def sortRequests (requests : List LeaseRequest) (b : Batch) : Batch :=
  requests.zipIdx.foldl
    (fun b ri => (ri.1.promptIds.foldl (sortPrompt w ri.2 ri.1) (b, 0)).1) b

/-- The buffered groups of each env (`_pending_by_env`). -/
def pendingByEnv (buffer : List String) : List (String × Nat) :=
  buffer.dedup.map fun e => (e, buffer.count e)

/-- What a batch reads once, before its claims. -/
structure Lanes where
  latest : Option Int
  pending : Nat
  reserve : List (String × Nat)
  laneMax : List (String × Nat)
  byEnv : List (String × Nat)

/-- The row `grant` refuses a claim for: an open lease of the prompt at
any checkpoint, or one submitted at this one. -/
def takenBy (environment : String) (prompt k : Int) (r : LeaseRow) : Bool :=
  r.environment == environment && r.promptIdx == prompt
    && (r.isOpen || (r.checkpoint == k && r.state == .submitted))

section Hash

variable (sha256 : List UInt8 → List UInt8)

/-- The insert of a granted lease, its constraints checked: the id is
new, and no open or submitted lease has the key. -/
def insertLease (l : LeaseRow) : BookProg Unit :=
  Prog.get >>= fun w =>
  if w.file.leases.any fun r => r.leaseId == l.leaseId then
    Prog.raise .integrity
  else if w.file.leases.any fun r =>
      r.environment == l.environment && r.promptIdx == l.promptIdx
        && r.checkpoint == l.checkpoint
        && (r.isOpen || r.state == .submitted) then
    Prog.raise .integrity
  else Prog.modify fun w =>
    { w with file := { w.file with leases := w.file.leases ++ [l] } }

/-- One claim of the shuffled batch. -/
def grantClaim (requests : List LeaseRequest) (now : ℚ)
    (token : Nat → String) (lanes : Lanes) (b : Batch)
    (claim : Nat × Int) : BookProg Batch :=
  match requests[claim.1]? with
  | none => pure b
  | some r =>
  let env := r.environment
  let k := r.checkpoint
  let prompt := claim.2
  Prog.get >>= fun w =>
  match w.file.unrevealed k with
  | none => pure (b.refuse claim .stale)
  | some secret =>
  Prog.lift (sqlInt prompt) >>= fun _ =>
  if w.file.leases.any (takenBy env prompt k) then
    pure (b.refuse claim .taken)
  else
  let life := w.file.prompt env prompt
  if ∃ p ∈ life, p.state = .blacklisted then
    pure (b.refuse claim .blacklisted)
  else if ∃ p ∈ life, ∃ til ∈ p.untilK, lanes.latest.getD 0 < til then
    pure (b.refuse claim .cooling)
  else if (b.room.lookup r.hotkey).getD 0 ≤ 0 then
    pure (b.refuse claim .quota)
  else if ∃ most ∈ lanes.laneMax.lookup env,
      most ≤ (lanes.byEnv.lookup env).getD 0 then
    Prog.modify (fun w => { w with mem := { w.mem with
      laneFull := w.mem.laneFull.insert env } }) >>= fun _ =>
    pure (b.refuse claim .full)
  else if ∃ cap ∈ w.mem.config.maxPendingGroups,
      laneRoom env lanes.pending lanes.byEnv lanes.reserve cap = false then
    Prog.modify (fun w => { w with mem := { w.mem with
      full := w.mem.full.insert env } }) >>= fun _ =>
    pure (b.refuse claim .full)
  else
  Prog.modify (fun w => { w with mem := { w.mem with
    drawn := w.mem.drawn + 1 } }) >>= fun _ =>
  Prog.lift (leaseNonce sha256 secret.secret env prompt k) >>= fun nonce =>
  let lease : Lease :=
    { leaseId := token w.mem.drawn, hotkey := r.hotkey, environment := env
      promptIdx := prompt, checkpoint := k, nonce := hex nonce
      issuedAt := now
      expiresAt := now + (w.mem.config.expiryS.lookup env).getD 0
      state := .opened }
  insertLease { toLease := lease } >>= fun _ =>
  Prog.modify (quotaEvent r.hotkey fun cfg e => e.recordLease cfg now)
    >>= fun _ =>
  pure { b with
    room := put r.hotkey ((b.room.lookup r.hotkey).getD 0 - 1) b.room
    granted := put claim lease b.granted }

/-- The answers of a batch, one per request. -/
def Batch.answers (b : Batch) (requests : List LeaseRequest) :
    List LeaseAnswer :=
  requests.zipIdx.map fun ri =>
    { leases := ri.1.promptIds.filterMap fun p => b.granted.lookup (ri.2, p)
      refused := (b.refused.filter fun cr => cr.1.1 == ri.2).map fun cr =>
        (cr.1.2, cr.2) }

/-- Resolve one interval's requests together: sweep, cut every request
to its hotkey's room, then take the claims in shuffled order. -/
def grant (live : Live) (requests : List LeaseRequest) (now : ℚ)
    (shuffle : Shuffle) (token : Nat → String) (buffer : List String) :
    BookProg (List LeaseAnswer) :=
  Prog.get >>= fun w =>
  Prog.lift (checkRequests w.mem.config requests) >>= fun _ =>
  Prog.txn <|
  Prog.modify (expire live now) >>= fun _ =>
  Prog.get >>= fun w =>
  let room := (requests.map fun r => r.hotkey).dedup.map fun h =>
    (h, roomOf w now h)
  let batch := sortRequests w requests { room }
  let claims := shuffle.order batch.claims
  let cap := w.mem.config.maxPendingGroups
  let reserve := if cap.isSome then w.mem.config.laneReserve else []
  Prog.lift (match live.laneMax with
    | none => .ok []
    | some answer => if claims = [] then .ok [] else answer) >>= fun laneMax =>
  let lanes : Lanes :=
    { latest := w.file.latest
      pending := if cap.isSome then buffer.length else 0
      reserve, laneMax
      byEnv := if reserve = [] ∧ laneMax = [] then []
        else pendingByEnv buffer }
  Prog.loop (grantClaim sha256 requests now token lanes) batch claims
    >>= fun batch =>
  pure (batch.answers requests)

end Hash

-- ===== submissions

/-- The state's name, as refusals spell it. -/
def LeaseState.text : LeaseState → String
  | .opened => "open"
  | .submitted => "submitted"
  | .expired => "expired"
  | .released => "released"

/-- The lease to submit, or why not (`_submittable`). The refusal is
returned, not raised: a late lease is swept and the sweep commits. -/
def submittable (leaseId hotkey : String) (now : ℚ) (w : BookWorld) : Except Err
    Lease × BookWorld :=
  match w.file.row leaseId with
  | none => (.error (.lookup "lease unknown"), w)
  | some r =>
    if r.hotkey ≠ hotkey then
      (.error (.permission "lease held by another hotkey"), w)
    else if r.state ≠ .opened then
      (.error (.lookup ("lease " ++ r.state.text)), w)
    else if r.expiresAt ≤ now then
      (.error (.lookup "lease expired"), expire live now w)
    else if w.file.banned hotkey now then
      (.error (.permission "hotkey banned"), w)
    else (.ok r.toLease, w)

/-- What `submit` would refuse, without closing the lease. -/
def checkSubmission (leaseId hotkey : String) (now : ℚ) : BookProg Lease :=
  Prog.get >>= fun w =>
  let checked := submittable live leaseId hotkey now w
  Prog.txn (Prog.modify fun _ => checked.2) >>= fun _ =>
  Prog.lift checked.1

/-- A submission arrived on time: until it is released, no sweep expires
the lease. -/
def holdSubmission (leaseId hotkey : String) (arrivedAt : ℚ) : BookProg Lease :=
  checkSubmission live leaseId hotkey arrivedAt >>= fun lease =>
  Prog.modify (fun w => { w with mem := { w.mem with
    submitting := put leaseId ((w.mem.submitting.lookup leaseId).getD 0 + 1)
      w.mem.submitting } }) >>= fun _ =>
  pure lease

/-- One hold less; the last one goes. -/
def releaseSubmission (leaseId : String) (w : BookWorld) : BookWorld :=
  let left := (w.mem.submitting.lookup leaseId).getD 1 - 1
  let rest := w.mem.submitting.filter fun s => s.1 != leaseId
  { w with mem := { w.mem with
    submitting := if 0 < left then put leaseId left rest else rest } }

/-- End a lease by its submission. -/
def submit (leaseId hotkey : String) (inZone delivered : Bool) (now : ℚ) :
    BookProg Lease :=
  Prog.get >>= fun w =>
  let checked := submittable live leaseId hotkey now w
  Prog.txn (Prog.modify fun _ =>
    match checked.1 with
    | .error _ => checked.2
    | .ok _ =>
      quotaEvent hotkey (fun cfg e =>
          if delivered then e.recordSubmission inZone
          else e.recordExpiry cfg .rejected now)
        (closeRow' leaseId now checked.2)) >>= fun _ =>
  Prog.lift (checked.1.map fun lease => { lease with state := .submitted })
where
  /-- The update of a submission sets no cause. -/
  closeRow' (leaseId : String) (now : ℚ) (w : BookWorld) : BookWorld :=
    { w with file := { w.file with
      leases := updateWhere (fun r => r.leaseId == leaseId)
        (fun r => { r with state := .submitted, closedAt := some now })
        w.file.leases } }

/-- A submitted lease's group was paid: one delivery for its hotkey's
quota. A lease not on record as submitted is ignored. -/
def credit (leaseId : String) (now : ℚ) : BookProg Unit :=
  Prog.txn <| Prog.modify fun w =>
    match w.file.leases.find? fun r =>
        r.leaseId == leaseId && r.state == .submitted with
    | none => w
    | some r =>
      let w := quotaEvent r.hotkey (fun cfg e =>
        e.recordPaid cfg r.issuedAt (r.closedAt.getD 0) now) w
      { w with mem := { w.mem with paidCalls := w.mem.paidCalls ++ [leaseId] } }

-- ===== bans

/-- No lease and no submission before `til`; a running ban is never
shortened. -/
def ban (hotkey : String) (til : ℚ) (w : BookWorld) : BookWorld :=
  { w with file := { w.file with
    bans := put hotkey (match w.file.bans.lookup hotkey with
        | none => til
        | some u => max u til) w.file.bans } }

-- ===== prompt lifecycle

/-- Is this the prompt's row? -/
def PromptRow.isFor (environment : String) (promptIdx : Int)
    (r : PromptRow) : Bool :=
  r.environment == environment && r.promptIdx == promptIdx

/-- Where a scan moves its prompt: a second too-easy scan blacklists it
for the run, any other cools it down from the latest checkpoint, never
shortening a running cooldown. The last component is the cooldown's
start. -/
def moveOf (environment : String) (promptIdx checkpoint : Int)
    (verdict : Verdict) (cooldown : Int) : PromptLife × Option Int × Option Int
    :=
  let prior := b.prompt environment promptIdx
  let easyBefore := verdict = .tooEasy ∧ ∃ s ∈ b.scans,
    s.environment = environment ∧ s.promptIdx = promptIdx ∧ s.verdict = .tooEasy
  if easyBefore ∨ ∃ p ∈ prior, p.state = .blacklisted then
    (.blacklisted, none, none)
  else
    let start := max checkpoint (b.latest.getD 0)
    let running := ((prior.bind fun p => p.untilK).getD 0)
    (.cooldown, some (max (start + cooldown) running), some start)

/-- Append a scan and set its prompt's state. -/
def recordScan (environment : String) (promptIdx checkpoint : Int)
    (rewards : List ℚ) (verdict : Verdict) (now : ℚ)
    (move : PromptLife × Option Int × Option Int) (b : Book) : Scan × Book :=
  let seq := b.scanSeq + 1
  let scan : Scan :=
    { seq, environment, promptIdx, checkpoint, rewards, verdict
      firstScan := (b.prompt environment promptIdx).isNone, at_ := now }
  (scan,
   { b with
     scanSeq := seq
     scans := b.scans ++
       [{ toScan := scan, state := move.1, untilK := move.2.1 }]
     prompts := deleteWhere (PromptRow.isFor environment promptIdx) b.prompts
       ++ [{ environment, promptIdx, state := move.1, untilK := move.2.1
             seq, startK := move.2.2, revised := false }] })

/-- Record a graded group of a prompt leased at `checkpoint` and move
the prompt. -/
def recordOutcome (environment : String) (promptIdx checkpoint : Int)
    (rewards : List ℚ) (verdict : Verdict) (now : ℚ) : BookProg Scan :=
  Prog.get >>= fun w =>
  Prog.lift (do
    if (w.mem.config.expiryS.lookup environment).isNone then
      Except.error (Err.value "environment not served")
    let _ ← u64 promptIdx
    let _ ← u64 checkpoint
    if rewards = [] then
      Except.error (Err.value "finite rewards required")
    match live.cooldownOf environment with
    | none => Except.error Err.callable
    | some cooldown =>
      let _ ← u64 cooldown
      pure cooldown) >>= fun cooldown =>
  Prog.txn <|
  Prog.lift (sqlInt promptIdx) >>= fun _ =>
  Prog.get >>= fun w =>
  let move := moveOf w.file environment promptIdx checkpoint verdict cooldown
  Prog.lift (do
    sqlInt checkpoint
    match move.2.1 with
    | none => pure ()
    | some til => sqlInt til) >>= fun _ =>
  let recorded := recordScan environment promptIdx checkpoint rewards
    verdict now move w.file
  Prog.modify (fun w => { w with file := recorded.2 }) >>= fun _ =>
  pure recorded.1

/-- Does a revision at `cooldown` shorten this row's cooldown? -/
def PromptRow.shortens (environment : String) (cooldown : Int)
    (r : PromptRow) : Bool :=
  r.environment == environment && r.state == .cooldown &&
    match r.startK, r.untilK with
    | some start, some til => decide (start + cooldown < til)
    | _, _ => false

/-- Is this a revised cooldown still running at `latest`? -/
def PromptRow.rerun (environment : String) (latest : Int)
    (r : PromptRow) : Bool :=
  r.environment == environment && r.state == .cooldown && r.revised &&
    match r.untilK with
    | some til => decide (latest < til)
    | none => false

/-- One env of a revision: reserve a sequence number for the whole pass
if none is yet, stamp the shortened rows with it, then the revised rows
still running. Returns the pass's stamp and how many were shortened. -/
def reviseEnv (latest : Int) (acc : Option Nat × List (String × Nat))
    (envCooldown : String × Int) :
    BookProg (Option Nat × List (String × Nat)) :=
  let (env, cooldown) := envCooldown
  Prog.lift (sqlInt cooldown) >>= fun _ =>
  Prog.get >>= fun w =>
  if w.file.prompts.any (fun r => r.shortens env cooldown
      || (r.startK.isSome && r.rerun env latest)) = false then
    pure acc
  else
    let stamp := acc.1.getD (w.file.scanSeq + 1)
    let n := w.file.prompts.countP (PromptRow.shortens env cooldown)
    Prog.modify (fun w => { w with file := { w.file with
      scanSeq := max w.file.scanSeq stamp
      prompts := updateWhere (fun r => r.rerun env latest && r.seq != stamp)
        (fun r => { r with seq := stamp })
        (updateWhere (PromptRow.shortens env cooldown) (fun r => { r with
            untilK := r.startK.map (· + cooldown), seq := stamp
            revised := true }) w.file.prompts) } }) >>= fun _ =>
    pure (some stamp, if n = 0 then acc.2 else acc.2 ++ [(env, n)])

/-- The cooldowns that can be read, one per served env. -/
def readableCooldowns : List (String × Int) :=
  config.expiryS.filterMap fun es =>
    match live.cooldownOf es.1 with
    | none => none
    | some cooldown =>
      match u64 cooldown with
      | .ok _ => some (es.1, cooldown)
      | .error _ => none

/-- Bring every running cooldown in line with its env's current one,
never later. Returns the prompts shortened per env. -/
def reviseCooldowns : BookProg (List (String × Nat)) :=
  Prog.txn <|
  Prog.get >>= fun w =>
  match w.file.latest with
  | none => pure []
  | some latest =>
    Prog.loop (reviseEnv latest) (none, [])
      (readableCooldowns w.mem.config live) >>= fun acc =>
    pure acc.2

/-- Adopt a checkpoint: its transaction, then, for a new one, the
revision of the running cooldowns in a transaction of its own. -/
def adoptCheckpoint (sha256 : List UInt8 → List UInt8) (live : Live)
    (k : Int) (urandom : List UInt8) (now : ℚ) : BookProg (List UInt8) :=
  Prog.get >>= fun w =>
  adoptTxn sha256 k urandom now >>= fun commitment =>
  if w.file.latest = some k then pure commitment
  else reviseCooldowns live >>= fun _ => pure commitment

/-- A prompt's state as published. -/
structure PromptEntry where
  environment : String
  promptIdx : Int
  state : PromptLife
  untilK : Option Int
  deriving DecidableEq, Repr

/-- The published columns of a row. -/
def PromptRow.entry (r : PromptRow) : PromptEntry :=
  { environment := r.environment, promptIdx := r.promptIdx
    state := r.state, untilK := r.untilK }

/-- What `prompt_state` answers. -/
structure PromptView where
  latest : Option Int
  cursor : Nat
  more : Bool
  scans : List Scan
  prompts : List PromptEntry
  deriving DecidableEq, Repr

/-- The environment filter of a view. -/
def inEnv (environment : Option String) (env : String) : Bool :=
  environment.isNone || environment == some env

/-- The rows of a view: past the cursor, in the filter. -/
def inFilter (environment : Option String) (since : Nat) (env : String)
    (seq : Nat) : Bool :=
  decide (since < seq) && inEnv environment env

/-- The view after a cursor that passed the checks. -/
def viewAfter (since : Nat) (environment : Option String) (limit : Nat) :
    PromptView :=
  let rows := ((b.scans.filter fun s =>
    inFilter environment since s.environment s.seq).insertionSort
      fun x y => x.seq ≤ y.seq).take (limit + 1)
  let more := decide (limit < rows.length)
  let rows := rows.take limit
  let cursor := (rows.getLast?.map fun s => s.seq).getD since
  let states := b.prompts.filter fun p =>
    inFilter environment since p.environment p.seq
  -- revised states sit at seqs no scan takes: past the last scan, the
  -- cursor reaches them too
  let cursor := if more then cursor
    else max cursor ((states.map fun p => p.seq).max?.getD 0)
  { latest := b.latest, cursor, more
    scans := rows.map fun s => s.toScan
    prompts := ((states.filter fun p =>
      decide (p.seq ≤ cursor)).insertionSort
        fun x y => x.seq ≤ y.seq).map PromptRow.entry }

/-- The miners' view after cursor `since`: up to `limit` scans, and the
current state of the prompts stamped up to the new cursor. -/
def promptState (since : Int) (environment : Option String) (limit : Nat) :
    Except Err PromptView := do
  let _ ← u64 since
  sqlInt since
  sqlInt (limit + 1)
  pure (viewAfter b since.toNat environment limit)

end Reliquary.Rl
