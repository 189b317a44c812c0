/-
What the grader holds back from payment (`validator/corpus_grading.py`,
`_seed`, `ready`, `oldest_unready_received_at`, `_write`, `_index_unindexed`,
`_regrade`, `hold_executor`, `regrade_executor`).

# What is modeled how

- The state is the grader's sets and the tasks in flight, each at the await
  it stands at. What a task read or wrote in the store is a step of its own,
  apart from the step in which its answer comes back.
- The decisions of a grade are inputs: any document may be written.
- A task spawned starts at once (its first lines run before any later answer
  of the store comes back), so `_regrade`'s check for a regrade in flight is
  made where it is spawned.
- A store read may fail at any await (`failGrade`, `failRegrade`,
  `failExecutor`, `seedFail`); a write that raises did not land.
- The boot state has any documents and records; the quarantines of the
  registry are the first events.
- A record always carries its arrival; `unreadable` are those whose metadata
  a rescan could not learn.
-/
import Reliquary.Store.Run
import Reliquary.Grade.Document

namespace Reliquary.Grade.Hold

open Store

-- ===== the state

inductive GradeStage
  | started
  /-- Its record was read. -/
  | working
  | writing (document : Document)
  /-- Stored, the answer not yet back. -/
  | landed (document : Document)
deriving DecidableEq, Repr

/-- `left` is how many further rounds `_regrade_until_clean` has. -/
inductive RegradeStage
  | reading (left : Nat)
  | read (latest : Option Document) (left : Nat)
  | grading (generation : Nat) (regradedFor : List String) (left : Nat)
  | writing (document : Document) (generation : Nat)
      (regradedFor : List String) (left : Nat)
  | landed (document : Document) (left : Nat)
  /-- Exhausted, or a failed replay whose void is to follow. -/
  | voiding (reason : VoidReason)
deriving DecidableEq, Repr

/-- One call of `regrade_executor`. -/
inductive IndexStage
  | seeding
  /-- The grades to read, those still to read, the lone deciders found. -/
  | indexing (pending left : Finset String) (found : Finset (String × String))
deriving DecidableEq

structure IndexTask where
  executor : String
  stage : IndexStage
deriving DecidableEq

structure Grader where
  docs : Documents
  /-- Each record's arrival. -/
  received : List (String × ℚ)
  quarantined : Finset String
  final : Finset String
  unindexed : Finset String
  regrading : Finset String
  /-- The executors whose grades from before boot are not indexed. -/
  held : Finset String
  /-- Executor and submission: a decision it made alone. -/
  sole : Finset (String × String)
  seeded : Bool
  /-- The listings of `_seed` that are under way, as they were read. -/
  listings : List (Finset String)
  listed : Option (Finset String)
  arrival : List (String × ℚ)
  enqueuedAt : List (String × ℚ)
  unknownSince : List (String × ℚ)
  /-- Graded by whom, waiting for the round of the replay draw. -/
  awaitingDraw : List (String × List String)
  grades : List (String × GradeStage)
  regrades : List (String × RegradeStage)
  regradeRetry : Finset String
  indexing : List (Nat × IndexTask)
  nextTask : Nat
deriving DecidableEq

def acceptSlackSeconds : ℚ := 420

def unknownArrivalGiveUpSeconds : ℚ := 2 * 4320

/-- The executors that decided a part of the document alone. -/
def lones (d : Document) : List String :=
  (lone d.gradedBy).toList ++ (d.replay.bind fun r => lone r.gradedBy).toList

namespace Grader

/-- A process that starts over what is stored. -/
def boot (docs : Documents) (received : List (String × ℚ)) : Grader :=
  { docs := docs
    received := received
    quarantined := ∅
    final := ∅
    unindexed := ∅
    regrading := ∅
    held := ∅
    sole := ∅
    seeded := false
    listings := []
    listed := none
    arrival := []
    enqueuedAt := []
    unknownSince := []
    awaitingDraw := []
    grades := []
    regrades := []
    regradeRetry := ∅
    indexing := []
    nextTask := 0 }

section Reads

variable (g : Grader)

def caught (d : Document) : List String :=
  sortSet ((lones d).filter (· ∈ g.quarantined)).toFinset

def voided (sid : String) : Bool := (g.docs.voids.lookup sid).isSome

/-- `ready`, once seeded. -/
def ready (ids : List String) : List String :=
  ids.filter fun sid => sid ∈ g.final && sid ∉ g.regrading &&
    !(g.held.Nonempty && sid ∈ g.unindexed)

/-- `_unready`. -/
def unready : Finset String :=
  ((g.listed.getD ∅) ∪ (g.enqueuedAt.map Prod.fst).toFinset) \ g.final ∪
    (g.grades.map Prod.fst).toFinset ∪ (g.awaitingDraw.map Prod.fst).toFinset ∪
    g.regrading ∪ g.regradeRetry ∪ (g.regrades.map Prod.fst).toFinset ∪
    (if g.held.Nonempty then g.unindexed else ∅)

/-- Since when the arrival of a submission has been waited for. -/
def waitedSince (now : ℚ) (sid : String) : ℚ :=
  (g.enqueuedAt.lookup sid).getD ((g.unknownSince.lookup sid).getD now)

/-- The instant a submission bounds, unless it was given up. -/
def bound (now : ℚ) (sid : String) : Option (WithBot ℚ) :=
  match g.arrival.lookup sid with
  | some at_ => some at_
  | none =>
    if unknownArrivalGiveUpSeconds < now - g.waitedSince now sid then none
    else some ((g.enqueuedAt.lookup sid).elim ⊥
      fun first => ((first - acceptSlackSeconds : ℚ) : WithBot ℚ))

/-- `oldest_unready_received_at`; `none` is its `LookupError`. -/
def oldestUnready (now : ℚ) : Option (Option (WithBot ℚ)) :=
  if !g.seeded || g.listed.isNone then none
  else if g.held.Nonempty ∧ g.unindexed.Nonempty then none
  else some (((sortSet g.unready).filterMap (g.bound now)).foldl
    (fun oldest at_ => some (oldest.elim at_ (min at_))) none)

end Reads

-- ===== writes

section Step

variable (g : Grader)

/-- `_learn_arrival`. -/
def learnArrival (sid : String) : Grader :=
  match g.received.lookup sid with
  | none => g
  | some at_ =>
    { g with
      arrival := put sid at_ g.arrival
      enqueuedAt := g.enqueuedAt.filter fun x => x.1 != sid
      unknownSince := g.unknownSince.filter fun x => x.1 != sid }

/-- `_forget_arrival`. -/
def forgetArrival (sid : String) : Grader :=
  if sid ∈ g.regrading then g
  else
    { g with
      arrival := g.arrival.filter fun x => x.1 != sid
      enqueuedAt := g.enqueuedAt.filter fun x => x.1 != sid }

/-- `_regrade`, from its start. -/
def startRegrade (sid : String) : Grader :=
  if (g.regrades.lookup sid).isSome then g
  else
    { g with regrades := put sid (.reading maxRegradeGenerations) g.regrades }

/-- `_index`. -/
def index (sid : String) (d : Document) : Grader :=
  { g with sole := g.sole ∪ ((lones d).map fun e => (e, sid)).toFinset }

/-- `_regrade_if_quarantined`. -/
def regradeIfQuarantined (sid : String) (d : Document) : Grader :=
  let caught := g.caught d
  if caught = [] then g
  else
    { g with
      sole := g.sole.filter fun x => ¬ (x.2 = sid ∧ x.1 ∈ caught)
      regrading := insert sid g.regrading }.startRegrade sid

/-- `_write`, after its store write. -/
def written (sid : String) (d : Document) : Grader :=
  ((({ g with
      final := insert sid g.final }.index sid d).regradeIfQuarantined sid
        d).forgetArrival sid)

/-- `hold_executor`. -/
def hold (executor : String) : Grader :=
  { g with
    held := insert executor g.held
    quarantined := insert executor g.quarantined
    regrading := g.regrading ∪
      (g.sole.filter fun x => x.1 = executor).image Prod.snd
    awaitingDraw := g.awaitingDraw.filter fun x => executor ∉ x.2 }

/-- The end of `regrade_executor`: what it decided alone is regraded. -/
def pop (executor : String) : Grader :=
  let sids := (g.sole.filter fun x => x.1 = executor).image Prod.snd
  (sortSet sids).foldl startRegrade
    { g with
      sole := g.sole.filter fun x => x.1 ≠ executor
      regrading := g.regrading ∪ sids
      held := g.held.erase executor }

/-- A regrade comes to its end. -/
def release (sid : String) : Grader :=
  { g with
    regrades := g.regrades.filter fun x => x.1 != sid
    regradeRetry := g.regradeRetry.erase sid
    regrading := g.regrading.erase sid }.forgetArrival sid

def toRegrade (sid : String) (stage : RegradeStage) : Grader :=
  { g with regrades := put sid stage g.regrades }

/-- One round of `_regrade_until_clean`, the latest document read. -/
def check (sid : String) (read : Option Document) (left : Nat) : Grader :=
  match read with
  | none => g.release sid
  | some d =>
    if g.caught d = [] then
      if d.generation.isSome ∧ d.replay.any (·.failed) then
        g.toRegrade sid (.voiding .replayFailed)
      else g.release sid
    else
      let generation := d.generation.getD 0
      if maxRegradeGenerations ≤ generation ∨
          ∀ e ∈ g.caught d, e ∈ d.regradedFor then
        g.toRegrade sid (.voiding .regradeExhausted)
      else
        g.toRegrade sid (.grading (generation + 1)
          (sortSet (d.regradedFor.toFinset ∪ (g.caught d).toFinset)) left)

/-- A regrade is written: one more round, or exhausted. -/
def again (sid : String) (left : Nat) : Grader :=
  match left with
  | 0 => g.toRegrade sid (.voiding .regradeExhausted)
  | left + 1 => g.toRegrade sid (.reading left)

/-- The lone deciders of what is stored for a submission. -/
def stored (sid : String) : Finset (String × String) :=
  (((g.docs.grades.lookup sid).toList ++ (readRegrade g.docs sid).toList).flatMap
    fun d => (lones d).map fun e => (e, sid)).toFinset

end Step

end Grader

-- ===== events

inductive Event
  | record (sid : String) (receivedAt : ℚ)
  /-- A submission accepted live. -/
  | enqueue (sid : String) (now : ℚ)
  /-- A grade is started: live, or by a rescan. -/
  | start (sid : String)
  | readRecord (sid : String)
  | awaitDraw (sid : String) (gradedBy : List String)
  | decide (sid : String) (document : Document)
  | land (sid : String)
  | back (sid : String)
  | failGrade (sid : String)
  | seedRead
  | seedApply
  | seedFail
  | quarantine (executor : String)
  | startExecutor (executor : String)
  | index (task : Nat)
  | indexRead (task : Nat) (sid : String)
  | indexDone (task : Nat)
  | failExecutor (task : Nat)
  /-- A rescan retries a regrade that failed. -/
  | retry (sid : String)
  | readLatest (sid : String)
  | check (sid : String)
  | decideRegrade (sid : String) (document : Document)
  | landRegrade (sid : String)
  | backRegrade (sid : String)
  | void (sid : String)
  | failRegrade (sid : String)
  /-- What a rescan learns: the ids listed, and arrivals but these. -/
  | rescan (listing unreadable : Finset String)
  /-- `oldest_unready_received_at` notes the arrivals it does not know. -/
  | observe (now : ℚ)
deriving DecidableEq

namespace Grader

section Step

variable (g : Grader)

def toGrade (sid : String) (stage : GradeStage) : Grader :=
  { g with grades := put sid stage g.grades }

def endGrade (sid : String) : Grader :=
  { g with grades := g.grades.filter fun x => x.1 != sid }

def gradeStep (e : Event) (sid : String) (stage : GradeStage) : Grader :=
  match e, stage with
  | .readRecord _, .started =>
    if (g.received.lookup sid).isSome then
      (g.learnArrival sid).toGrade sid .working
    else g.endGrade sid
  | .awaitDraw _ gradedBy, .working =>
    { g.endGrade sid with awaitingDraw := put sid gradedBy g.awaitingDraw }
  | .decide _ document, .working =>
    { g.toGrade sid (.writing
        { document with generation := none, regradedFor := [] }) with
      awaitingDraw := g.awaitingDraw.filter fun x => x.1 != sid }
  | .land _, .writing document =>
    { g.toGrade sid (.landed document) with
      docs := g.docs.write sid document none }
  | .back _, .landed document => (g.written sid document).endGrade sid
  | .failGrade _, .started => g.endGrade sid
  | .failGrade _, .working => g.endGrade sid
  | .failGrade _, .writing _ => g.endGrade sid
  | _, _ => g

def regradeStep (e : Event) (sid : String) (stage : RegradeStage) : Grader :=
  match e, stage with
  | .readLatest _, .reading left =>
    g.toRegrade sid (.read (latest g.docs sid) left)
  | .check _, .read read left => g.check sid read left
  | .decideRegrade _ document, .grading generation regradedFor left =>
    g.toRegrade sid (.writing document generation regradedFor left)
  | .landRegrade _, .writing document generation regradedFor left =>
    { g.toRegrade sid (.landed
        { document with
          generation := some generation
          regradedFor := regradedFor } left) with
      docs := g.docs.write sid document (some (generation, regradedFor)) }
  | .backRegrade _, .landed document left =>
    (g.written sid document).again sid left
  | .void _, .voiding reason =>
    { g with
      docs :=
        { g.docs with
          voids := create sid ⟨((latest g.docs sid).map Document.hotkey).getD "",
            reason, [], []⟩ g.docs.voids } }.release sid
  | .failRegrade _, .landed _ _ => g
  | .failRegrade _, _ =>
    { g with
      regrades := g.regrades.filter fun x => x.1 != sid
      regradeRetry := insert sid g.regradeRetry }
  | _, _ => g

def indexStep (e : Event) (n : Nat) (t : IndexTask) : Grader :=
  match e, t.stage with
  | .index _, .seeding =>
    if !g.seeded then g
    else if g.unindexed.Nonempty then
      { g with
        indexing := put n { t with
          stage := .indexing g.unindexed g.unindexed ∅ } g.indexing }
    else
      { g.pop t.executor with indexing := g.indexing.filter fun x => x.1 != n }
  | .indexRead _ sid, .indexing pending left found =>
    if sid ∈ left then
      { g with
        indexing := put n { t with
          stage := .indexing pending (left.erase sid)
            (found ∪ g.stored sid) } g.indexing }
    else g
  | .indexDone _, .indexing pending left found =>
    if left.Nonempty then g
    else
      { { g with
          sole := g.sole ∪ found
          unindexed := g.unindexed \ pending }.pop t.executor with
        indexing := g.indexing.filter fun x => x.1 != n }
  | .failExecutor _, _ =>
    { g with indexing := g.indexing.filter fun x => x.1 != n }
  | _, _ => g

def step (e : Event) : Grader :=
  match e with
  | .record sid at_ =>
    { g with received := create sid at_ g.received }
  | .enqueue sid now =>
    if sid ∉ g.final ∧ (g.arrival.lookup sid).isNone ∧
        (g.enqueuedAt.lookup sid).isNone then
      { g with enqueuedAt := put sid now g.enqueuedAt }
    else g
  | .start sid =>
    if sid ∉ g.final ∧ (g.grades.lookup sid).isNone then
      g.toGrade sid .started
    else g
  | .readRecord sid | .awaitDraw sid _ | .decide sid _ | .land sid | .back sid
  | .failGrade sid =>
    match g.grades.lookup sid with
    | none => g
    | some stage => g.gradeStep e sid stage
  | .seedRead =>
    if g.seeded then g
    else
      { g with
        listings := g.listings ++ [(g.docs.grades.map Prod.fst).toFinset] }
  | .seedApply =>
    match g.listings with
    | [] => g
    | listing :: rest =>
      { g with
        listings := rest
        unindexed := g.unindexed ∪ (listing \ g.final)
        final := g.final ∪ listing
        seeded := true }
  | .seedFail =>
    { g with listings := g.listings.tail }
  | .quarantine executor => g.hold executor
  | .startExecutor executor =>
    if executor ∈ g.quarantined then
      { g.hold executor with
        indexing := put g.nextTask ⟨executor, .seeding⟩ g.indexing
        nextTask := g.nextTask + 1 }
    else g
  | .index n | .indexRead n _ | .indexDone n | .failExecutor n =>
    match g.indexing.lookup n with
    | none => g
    | some t => g.indexStep e n t
  | .retry sid => if sid ∈ g.regradeRetry then g.startRegrade sid else g
  | .readLatest sid | .check sid | .decideRegrade sid _ | .landRegrade sid
  | .backRegrade sid | .void sid | .failRegrade sid =>
    match g.regrades.lookup sid with
    | none => g
    | some stage => g.regradeStep e sid stage
  | .rescan listing unreadable =>
    (sortSet (((listing \ g.final) ∪ g.regrading ∪ g.regradeRetry) \
      unreadable)).foldl (fun g sid =>
        if (g.arrival.lookup sid).isSome then g else g.learnArrival sid)
      { g with listed := some (listing \ g.final) }
  | .observe now =>
    { g with
      unknownSince := (sortSet g.unready).foldl (fun known sid =>
        if (g.arrival.lookup sid).isSome ∨ (g.enqueuedAt.lookup sid).isSome ∨
            (known.lookup sid).isSome then known
        else put sid now known) g.unknownSince }

end Step

end Grader

end Reliquary.Grade.Hold
