/-
The control's half of grading (`validator/corpus_grade_remote.py`,
`RemoteGradeDispatcher`, with what it shares with the audit dispatcher,
`validator/corpus_audit_remote.py`, `ExecutorLeases`).

# What is modeled how

- An item to grade or replay is a `Work` under its number; the future a
  grader awaits is the field `decision`, written once. The queue and the
  leases hold numbers. Every method runs between two awaits, so it is one
  step, at an instant of the clock.
- The registry is fixed: each executor's provider, whether it is
  authorized and on the pinned environment. (No durable attempt store.)
- The recheck draw is the input `lot`; the lease numbers are counted.
- `_settle` and `_mark_quarantined` call each other. The model gives the
  nesting a depth; with at most two votes on an undecided item it is never
  reached (Agreement.lean).
- The history: every vote taken, and every executor quarantined for a vote
  with the voters it disagreed with and who was quarantined then. A work
  keeps who was quarantined when it was decided.
-/
import Reliquary.Store.Run
import Reliquary.Store.Table
import Reliquary.Store.Sorted

namespace Reliquary.Grade

open Store

-- ===== answers

inductive Mode
  | grade
  | replay
deriving DecidableEq, Repr

inductive AnswerStatus
  | ok
  | error
  | timeout
  | boxLost
  | boxTimeout
deriving DecidableEq, Repr

/-- `TRAJECTORY_STATUSES`: a vote that the box failed. -/
def AnswerStatus.box : AnswerStatus → Bool
  | .boxLost | .boxTimeout => true
  | _ => false

/-- An executor's facts for one item. -/
structure Answer where
  status : AnswerStatus
  submissionId : Option String := none
  diffApplied : Option Bool := none
  testsPassed : Option Bool := none
  replayDiffEqual : Option Bool := none
  observationsCompared : Nat := 0
  observationsMismatched : List Int := []
deriving DecidableEq, Repr

structure Item where
  submissionId : String
  mode : Mode
  /-- For each action, whether it has an observation. -/
  observed : List Bool := []
deriving DecidableEq, Repr

/-- `max(5, ceil(0.12 * observations))`. -/
def allowedMismatches (observations : Nat) : Nat :=
  max 5 ((12 * observations + 99) / 100)

def replayCertified (a : Answer) : Bool :=
  a.replayDiffEqual = some true &&
    a.observationsMismatched.length ≤ allowedMismatches a.observationsCompared

/-- What two executors must agree on. -/
inductive Key
  | unjudgeable
  | grade (diffApplied testsPassed : Option Bool)
  | replay (certified : Bool)
deriving DecidableEq, Repr

def decisionKey (mode : Mode) (a : Answer) : Key :=
  if a.status.box then .unjudgeable
  else
    match mode with
    | .grade => .grade a.diffApplied a.testsPassed
    | .replay => .replay (replayCertified a)

/-- The compared indices of a replay: the actions with an observation. -/
def Item.compared (item : Item) : List Nat :=
  (List.range item.observed.length).filter fun i =>
    item.observed[i]? = some true

/-- `_misfit`: the answer does not fit the lease's item. -/
def misfit (item : Item) (a : Answer) : Bool :=
  a.submissionId != some item.submissionId ||
    (a.status = .ok && match item.mode with
      | .grade => a.diffApplied.isNone || a.testsPassed.isNone
      | .replay => a.replayDiffEqual.isNone ||
          a.observationsCompared != item.compared.length ||
          !(a.observationsMismatched.Nodup) ||
          !(a.observationsMismatched.all fun i =>
            item.compared.any fun j => i = (j : Int)))

-- ===== works

inductive DecisionStatus
  | ok
  | error
  | timeout
  | ungradeable
  | disputed
  | unjudgeable
  | uncertified
deriving DecidableEq, Repr

structure Decision where
  status : DecisionStatus
  result : Option Answer
  gradedBy : List String
  providers : List String := []
deriving DecidableEq, Repr

structure Work where
  item : Item
  decision : Option Decision := none
  results : List (String × Answer) := []
  /-- Each voter's provider. -/
  providers : List (String × String) := []
  /-- The executors that voted on it. -/
  excluded : Finset String := ∅
  failedAt : List (String × ℚ) := []
  drawn : Option Bool := none
  timeouts : Nat := 0
  errors : Nat := 0
  unserved : ℚ := 0
  sweptAt : Option ℚ := none
  /-- Who was quarantined when it was decided. -/
  quarantinedThen : Finset String := ∅
deriving DecidableEq

structure Lease where
  work : Nat
  executor : String
  expiresAt : ℚ
  leasedAt : ℚ
deriving DecidableEq, Repr

/-- What a dispatcher is set up with, and its executor registry. -/
structure GradeConfig where
  executors : List String
  provider : String → Option String
  authorized : String → Bool
  pinned : String → Bool
  /-- The item fits a lease. -/
  leasable : Item → Bool
  leaseSeconds : Mode → ℚ
  disputeSeconds : ℚ
  claimLiveSeconds : ℚ
  retryExcludedSeconds : ℚ
  reportGraceSeconds : ℚ
  liveSeconds : ℚ
  benchSeconds : ℚ
  maxLeases : Nat
  strikesLimit : Nat

def maxResultsPerItem : Nat := 3

def maxTimeouts : Nat := 2

def maxErrors : Nat := 3

/-- How an attempt fails; enough of a kind decide the item, unjudged. -/
inductive Attempt
  | timeout
  | error
deriving DecidableEq, Repr

def Attempt.status : Attempt → DecisionStatus
  | .timeout => .timeout
  | .error => .error

/-- A vote that was taken. -/
structure Vote where
  work : Nat
  executor : String
  provider : String
deriving DecidableEq, Repr

/-- A quarantine for a vote. -/
structure Expulsion where
  executor : String
  work : Nat
  agreeing : List String
  quarantinedThen : Finset String
deriving DecidableEq

structure Dispatcher where
  works : List (Nat × Work)
  queue : List Nat
  leases : List (Nat × Lease)
  quarantined : Finset String
  strikes : List (String × Nat)
  benched : List (String × ℚ)
  seen : List (String × ℚ)
  claimedAt : List (String × ℚ)
  wrongEnv : Finset String
  nextWork : Nat
  nextLease : Nat
  votes : List Vote
  expulsions : List Expulsion
deriving DecidableEq

variable (w : Work) (cfg : GradeConfig) (s : Dispatcher)

namespace Work

def voters : List String := w.results.map Prod.fst

/-- The distinct providers of some voters. -/
def providersOf (executors : List String) : Finset String :=
  (executors.filterMap fun e => w.providers.lookup e).toFinset

def agreeNeeded : Nat :=
  let unjudgeable := w.results.any fun r => r.2.status.box
  let failing := w.item.mode = .replay &&
    w.results.any fun r => !replayCertified r.2
  if w.drawn = some true || failing || unjudgeable then 2 else 1

/-- Some vote certifies the replay. -/
def certifying : Bool :=
  w.results.any fun r => r.2.status = .ok && replayCertified r.2

def keyOf (r : String × Answer) : Key :=
  decisionKey w.item.mode r.2

/-- The voters of each key, in the order of the first votes. -/
def groups : List (Key × List String) :=
  (w.results.map w.keyOf).eraseDups.map fun key =>
    (key, (w.results.filter fun r => w.keyOf r = key).map Prod.fst)

/-- The first group with the most providers. -/
def best (w : Work) : Option (Key × List String) :=
  match w.groups with
  | [] => none
  | g :: gs => some (gs.foldl (fun best g =>
    if (w.providersOf best.2).card < (w.providersOf g.2).card then g
    else best) g)

def failed : Attempt → Work
  | .timeout => { w with timeouts := w.timeouts + 1 }
  | .error => { w with errors := w.errors + 1 }

def spent : Attempt → Bool
  | .timeout => maxTimeouts ≤ w.timeouts
  | .error => maxErrors ≤ w.errors

/-- One more vote: the recheck is drawn at the first, and the voter is never
leased the item again. -/
def voted (executor provider : String) (draw : Bool) (a : Answer) : Work :=
  { w with
    drawn := some (w.drawn.getD draw)
    results := put executor a w.results
    providers := put executor provider w.providers
    excluded := insert executor w.excluded
    failedAt := w.failedAt.filter fun x => x.1 != executor }

/-- The decision a group that suffices makes. -/
def agreement (g : Key × List String) : Decision :=
  let agreeing := sortSet g.2.toFinset
  ⟨if g.1 = .unjudgeable then .unjudgeable else .ok,
    agreeing.head?.bind fun e => w.results.lookup e, agreeing,
    sortSet (w.providersOf agreeing)⟩

end Work

-- ===== resolving

namespace Dispatcher

def init : Dispatcher :=
  ⟨[], [], [], ∅, [], [], [], [], ∅, 0, 0, [], []⟩

/-- The works under a lease. -/
def leased : List Nat := s.leases.map fun l => l.2.work

def update (i : Nat) (f : Work → Work) : Dispatcher :=
  match s.works.lookup i with
  | none => s
  | some w =>
    { s with works := put i (f w) s.works }

/-- The lease is over. -/
def dropLease (leaseId : Nat) : Dispatcher :=
  { s with leases := s.leases.filter fun l => l.1 != leaseId }

/-- The executor failed an attempt on the item. -/
def failedBy (now : ℚ) (executor : String) (i : Nat) : Dispatcher :=
  s.update i fun w =>
    { w with failedAt := put executor now w.failedAt }

/-- `_resolve`: the future is set once. -/
def resolve (i : Nat) (d : Decision) : Dispatcher :=
  s.update i fun w =>
    if w.decision.isSome then w
    else
      { w with decision := some d, quarantinedThen := s.quarantined }

/-- `_requeue`: an item that holds a vote goes first. -/
def requeue (now : ℚ) (i : Nat) : Dispatcher :=
  match s.works.lookup i with
  | none => s
  | some w =>
    if w.decision.isSome ∨ i ∈ s.queue then s
    else
      { s with
        works := put i { w with sweptAt := some now } s.works
        queue := if w.results = [] then s.queue ++ [i] else i :: s.queue }

/-- `_uncertified`: a replay no vote certifies. -/
def uncertified (s : Dispatcher) (i : Nat) : Dispatcher :=
  match s.works.lookup i with
  | none => s
  | some w =>
    let voters := sortSet w.voters.toFinset
    s.resolve i ⟨.uncertified,
      voters.head?.bind fun e => w.results.lookup e, voters,
      sortSet (w.providersOf voters)⟩

/-- `_failed_attempt`: an attempt that judged nobody. -/
def failedAttempt (now : ℚ) (i : Nat) (kind : Attempt) : Dispatcher :=
  let s := s.update i fun w => w.failed kind
  match s.works.lookup i with
  | none => s
  | some w =>
    if w.spent kind then
      if w.item.mode = .replay ∧ w.results ≠ [] ∧ ¬ w.certifying then
        s.uncertified i
      else s.resolve i ⟨kind.status, none, [], []⟩
    else s.requeue now i

/-- The dissenters an agreement quarantines: a split between box failures
and facts penalizes nobody. -/
def dissenters (status : DecisionStatus) (agreeing : List String) : List String
    :=
  (sortSet (w.voters.toFinset \ agreeing.toFinset)).filter fun e =>
    !(status = .unjudgeable ||
      ((w.results.lookup e).map fun a => a.status.box) = some true)

/-- `_settle`, quarantining by `expel`. -/
def settleWith (expel : Dispatcher → Nat → List String → String → Dispatcher)
    (s : Dispatcher) (now : ℚ) (i : Nat) : Dispatcher :=
  match s.works.lookup i with
  | none => s
  | some w =>
    if w.decision.isSome then s
    else
      match w.best with
      | none => s.requeue now i
      | some g =>
        if w.agreeNeeded ≤ (w.providersOf g.2).card then
          let d := w.agreement g
          (dissenters w d.status d.gradedBy).foldl
            (fun s e => expel s i d.gradedBy e) (s.resolve i d)
        else if maxResultsPerItem ≤ w.results.length then
          s.resolve i ⟨.error, none, sortSet w.voters.toFinset, []⟩
        else s.requeue now i

/-- One lease of a quarantined executor is taken back. -/
def giveBack (executor : String) (now : ℚ) (s : Dispatcher) (i : Nat) :
    Dispatcher :=
  (s.failedBy now executor i).requeue now i

/-- Its vote on an undecided item stops counting; a leased item settles
when its lease answers. -/
def withdraw (settle : Dispatcher → Nat → Dispatcher) (executor : String)
    (leased : List Nat) (s : Dispatcher) (i : Nat) : Dispatcher :=
  match s.works.lookup i with
  | none => s
  | some w =>
    if w.decision.isSome ∨ executor ∉ w.voters then s
    else
      let s := s.update i fun w =>
        { w with
          results := w.results.filter fun r => r.1 != executor
          providers := w.providers.filter fun r => r.1 != executor }
      if i ∈ leased then s else settle s i

/-- `_mark_quarantined` with `_on_quarantined`. -/
def quarantineWith (settle : Dispatcher → Nat → Dispatcher)
    (s : Dispatcher) (now : ℚ) (executor : String) : Dispatcher :=
  if executor ∈ s.quarantined then s
  else
    let own := (s.leases.filter fun l => l.2.executor = executor).map
      fun l => l.2.work
    let s :=
      { s with
        quarantined := insert executor s.quarantined
        leases := s.leases.filter fun l => l.2.executor ≠ executor }
    let s := own.foldl (giveBack executor now) s
    (s.queue ++ s.leased).foldl (withdraw settle executor s.leased) s

/-- A quarantine for a vote is noted. -/
def note (i : Nat) (agreeing : List String) (executor : String) : Dispatcher :=
  if executor ∈ s.quarantined then s
  else
    { s with
      expulsions := s.expulsions ++ [⟨executor, i, agreeing, s.quarantined⟩] }

/-- The nesting of `_settle` and `_mark_quarantined`, to a depth. -/
def expel (now : ℚ) : Nat → Dispatcher → Nat → List String → String →
    Dispatcher
  | 0, s, _, _, _ => s
  | n + 1, s, i, agreeing, executor =>
    quarantineWith (fun s j => settleWith (expel now n) s now j)
      (s.note i agreeing executor) now executor

/-- The depth: each quarantine leaves one executor fewer. -/
def depth : Nat := cfg.executors.length + 1

def settle (now : ℚ) (i : Nat) : Dispatcher :=
  settleWith (expel now (depth cfg)) s now i

def quarantine (now : ℚ) (executor : String) : Dispatcher :=
  quarantineWith (fun s j => settle cfg s now j) s now executor

-- ===== eligibility

section Config

variable (cfg : GradeConfig) (s : Dispatcher) (now : ℚ)

def held (executor : String) : Nat :=
  s.leases.countP fun l => l.2.executor = executor

def isBenched (executor : String) : Bool :=
  (s.benched.lookup executor).any (now < ·)

def liveExecutors : List String :=
  (s.seen.filter fun x => now - x.2 ≤ cfg.liveSeconds &&
    cfg.authorized x.1 && x.1 ∉ s.quarantined && !s.isBenched now x.1).map
      Prod.fst

/-- Live executors that claimed lately or hold a lease. -/
def working : List String :=
  (s.liveExecutors cfg now).filter fun e =>
    (s.claimedAt.lookup e).any (fun t => now - t ≤ cfg.claimLiveSeconds) ||
      0 < s.held e

def onPinnedEnv (executor : String) : Bool :=
  cfg.pinned executor && executor ∉ s.wrongEnv

/-- It never voted on the work, nor did its provider. -/
def fresh (executor : String) (w : Work) : Bool :=
  executor ∉ w.excluded && (match cfg.provider executor with
      | none => false
      | some p => p ∉ w.providers.map Prod.snd) &&
    s.onPinnedEnv cfg executor

/-- `_eligible`: one that failed an attempt on it comes back after the
retry wait, while no other could take it. -/
def eligible (executor : String) (w : Work) : Bool :=
  s.fresh cfg executor w &&
    match w.failedAt.lookup executor with
    | none => true
    | some t =>
      !(now - t < cfg.retryExcludedSeconds) &&
        !((s.working cfg now).any fun other => other != executor &&
          s.fresh cfg other w && (w.failedAt.lookup other).isNone)

/-- `_recheck_possible`: the executors span two providers. -/
def recheckPossible : Bool :=
  2 ≤ ((cfg.executors.filter fun e => e ∉ s.quarantined &&
    cfg.authorized e && s.onPinnedEnv cfg e).filterMap
      cfg.provider).toFinset.card

-- ===== the calls

/-- `decide`: an item no lease can carry is never leased. -/
def decideItem (item : Item) : Dispatcher :=
  { s with
    works := put s.nextWork
      { item := item
        decision := if cfg.leasable item then none
          else some ⟨.ungradeable, none, [], []⟩ } s.works
    queue := if cfg.leasable item then s.queue ++ [s.nextWork] else s.queue
    nextWork := s.nextWork + 1 }

def contact (executor : String) : Dispatcher :=
  { s with seen := put executor now s.seen }

/-- A lease the executor does not report is taken back as its error. -/
def unreported (executor : String) (s : Dispatcher) (l : Nat × Lease) :
    Dispatcher :=
  ((s.dropLease l.1).failedBy now executor l.2.work).failedAttempt now
    l.2.work .error

/-- `heartbeat`, with the leases the executor reports, if it does. -/
def heartbeat (executor : String) (heldLeases : Option (List Nat)) :
    Dispatcher :=
  let s := s.contact now executor
  match heldLeases with
  | none => s
  | some reported =>
    (s.leases.filter fun l => l.2.executor = executor &&
      l.1 ∉ reported && !(now - l.2.leasedAt < cfg.reportGraceSeconds) &&
      !(l.2.expiresAt ≤ now)).foldl (unreported now executor) s

def refusedEnv (executor : String) : Dispatcher :=
  { s with wrongEnv := insert executor s.wrongEnv }

/-- A queued work the executor may take. -/
def takes (executor : String) (i : Nat) : Bool :=
  match s.works.lookup i with
  | none => false
  | some w => w.decision.isNone && s.eligible cfg now executor w

def undecided (i : Nat) : Bool :=
  (s.works.lookup i).any fun w => w.decision.isNone

/-- The loop of `claim`: decided works leave the queue on the way. -/
def take (executor : String) : Dispatcher :=
  let before := s.queue.takeWhile fun i => !s.takes cfg now executor i
  match s.queue.dropWhile fun i => !s.takes cfg now executor i with
  | [] =>
    { s with queue := before.filter s.undecided }
  | i :: rest =>
    match s.works.lookup i with
    | none => s
    | some w =>
      { s with
        queue := before.filter s.undecided ++ rest
        leases := put s.nextLease ⟨i, executor,
          now + cfg.leaseSeconds w.item.mode, now⟩ s.leases
        nextLease := s.nextLease + 1 }

def claim (executor : String) : Dispatcher :=
  let s :=
    { s.contact now executor with
      claimedAt := put executor now s.claimedAt
      wrongEnv := s.wrongEnv.erase executor }
  if executor ∈ s.quarantined ∨ s.isBenched now executor ∨
      cfg.maxLeases ≤ s.held executor then s
  else if (cfg.provider executor).isNone then s
  else s.take cfg now executor

/-- One more strike, and whether it reaches the limit. -/
def strike (executor : String) : Dispatcher × Bool :=
  let n := (s.strikes.lookup executor).getD 0 + 1
  ({ s with strikes := put executor n s.strikes }, cfg.strikesLimit ≤ n)

def bench (executor : String) : Dispatcher :=
  { s with
    strikes := put executor 0 s.strikes
    benched := put executor (now + cfg.benchSeconds) s.benched }

/-- An expired lease: a timeout, and a strike that may bench. -/
def expired (executor : String) (i : Nat) : Dispatcher :=
  let s := (s.failedBy now executor i).failedAttempt now i .timeout
  let (s, out) := s.strike cfg executor
  if out then s.bench cfg now executor else s

/-- A vote is taken. -/
def vote (executor provider : String) (lot : Bool) (i : Nat) (a : Answer) :
    Dispatcher :=
  { s.update i (fun w =>
      w.voted executor provider (s.recheckPossible cfg && lot) a) with
    votes := s.votes ++ [⟨i, executor, provider⟩] }

/-- `result`: what the executor answers for its lease. -/
def result (executor : String) (leaseId : Nat) (a : Answer) (lot : Bool) :
    Dispatcher :=
  let s := s.contact now executor
  match s.leases.lookup leaseId with
  | none => s
  | some l =>
    if l.executor ≠ executor then s
    else
      let s := s.dropLease leaseId
      match s.works.lookup l.work with
      | none => s
      | some w =>
        if l.expiresAt ≤ now then s.expired cfg now executor l.work
        else
          let s := s.failedBy now executor l.work
          if misfit w.item a then
            -- a last strike quarantines it, by a task of its own
            ((s.failedAttempt now l.work .error).strike cfg executor).1
          else
            let s :=
              { s with strikes := put executor 0 s.strikes }
            match cfg.provider executor with
            | none => s.requeue now l.work
            | some provider =>
              match a.status with
              | .error => s.failedAttempt now l.work .error
              | .timeout => s.failedAttempt now l.work .timeout
              | .ok | .boxLost | .boxTimeout =>
                (s.vote cfg executor provider lot l.work a).settle
                  cfg now l.work

/-- The dispute clock of one queued item. -/
def dispute (working : List String) (s : Dispatcher) (i : Nat) : Dispatcher :=
  match s.works.lookup i with
  | none => s
  | some w =>
    if w.decision.isSome ∨ w.results = [] then s
    else
      let served := working.any fun e => s.eligible cfg now e w
      let since := w.sweptAt.getD now
      let unserved := if served then w.unserved
        else w.unserved + max 0 (now - since)
      let s := s.update i fun w =>
        { w with unserved := unserved, sweptAt := some now }
      if cfg.disputeSeconds ≤ unserved then
        if w.item.mode = .replay ∧ ¬ w.certifying then s.uncertified i
        else s.resolve i ⟨.disputed, none, sortSet w.voters.toFinset, []⟩
      else s

/-- `_expire_leases`. -/
def expireLeases : Dispatcher :=
  (s.leases.filter fun l => l.2.expiresAt ≤ now).foldl
    (fun s l => (s.dropLease l.1).expired cfg now l.2.executor l.2.work) s

/-- The rest of `_sweep`: the dispute clocks of the queue. -/
def disputes : Dispatcher :=
  s.queue.foldl (dispute cfg now (s.working cfg now)) s

end Config

end Dispatcher

-- ===== events

inductive GradeEvent
  | decideItem (item : Item)
  | heartbeat (executor : String) (heldLeases : Option (List Nat))
  | refusedEnv (executor : String)
  | claim (executor : String)
  | result (executor : String) (leaseId : Nat) (answer : Answer) (lot : Bool)
  /-- A quarantine from elsewhere: strikes, the registry, another control. -/
  | quarantine (executor : String)
  /-- The two halves of a sweep, each at its own reading of the clock. -/
  | expireLeases
  | disputes
deriving DecidableEq, Repr

structure Timed where
  now : ℚ
  event : GradeEvent
deriving DecidableEq, Repr

def Dispatcher.step (a : Timed) : Dispatcher :=
  match a.event with
  | .decideItem item => s.decideItem cfg item
  | .heartbeat executor held => s.heartbeat cfg a.now executor held
  | .refusedEnv executor => s.refusedEnv executor
  | .claim executor => s.claim cfg a.now executor
  | .result executor lease answer lot =>
    s.result cfg a.now executor lease answer lot
  | .quarantine executor => s.quarantine cfg a.now executor
  | .expireLeases => s.expireLeases cfg a.now
  | .disputes => s.disputes cfg a.now

end Reliquary.Grade
