/-
A judging pass of the corpus auditor (`validator/corpus_auditor.py`,
`_judge_once` with `_decide`, `_within_budget` and the reads it rests on).

# What is modeled how

- The auditor's sets are finite sets, its dictionaries keyed maps
  (Store/Table.lean). `_unjudged`, ids per hotkey, is a set of pairs.
  A sorted list is searched by counting: `bisect_right(l, x)` of a sorted
  list is the number of its entries that are at most `x`.
- A pass is a function of the auditor and of everything the world answers
  (`PassInput`): reads, miner states, drand, coverage, audits, writes,
  each arbitrary. The times at which other tasks run are the awaits; what
  they do to the auditor is a list of events at each point where the pass
  could tell the difference (`before`, `during`, `after`, `closing`), those
  of a read taken at its end. (A record that gets its verdict between the
  choice of the ids to read and its own failed read stays unreadable in
  the source, which only holds payments back.)
- A read gives a record's metadata or fails. A record without an arrival
  time counts from the read, so the metadata a read gives has one.
- A round's randomness is public: a fetch gives it or fails. The negative
  cache and the once-a-pass race only turn fetches into failures, which
  any fetch may be.
- The run starts with `_start`, so the auditor is seeded in every pass.
  When a pending record is judged again (`_next_due`, the heap) decides
  only which batches come next; batches are arbitrary here.

# What is proven

`pays_unaudited`: what holds of a record when a pass writes it a verdict
"passed, not audited". The invariant behind it (`Auditor.Inv`) is that
`_unjudged` has every known record without a verdict and `_undrawn` only
records whose draw did not select them.
-/
import Reliquary.Audit.Policy
import Reliquary.Store.Run
import Reliquary.Store.Sorted

namespace Reliquary.Audit

open Store List Option

-- ===== the auditor

/-- What the auditor keeps of a record. -/
structure Meta where
  hotkey : String
  receivedAt : ℚ
  tokenCount : Nat
deriving DecidableEq, Repr

/-- What a job's auditor is set up with. -/
structure AuditorConfig where
  params : AuditParams
  acceptSlack : ℚ
  digest : String → String → Nat
  /-- The randomness drand published for a round. -/
  randomness : Nat → String
  /-- The first round published strictly after an instant. -/
  roundAt : ℚ → Nat
  /-- A beacon and a `round_at` are given. -/
  beacon : Bool
  passSiblings : Nat
  passAuditRows : Nat
  passAuditTokens : Nat

def beaconGraceSeconds : ℚ := 2

def feedMarginSeconds : ℚ := 15

structure Auditor where
  metas : List (String × Meta)
  arrivals : List (String × List ℚ)
  queued : Finset String
  judged : Finset String
  unjudged : Finset (String × String)
  undrawn : Finset String
  unreadable : Finset String
  /-- The rounds whose randomness is cached. -/
  rounds : Finset Nat
deriving DecidableEq

variable (cfg : AuditorConfig) (s : Auditor)

namespace Auditor

def init : Auditor := ⟨[], [], ∅, ∅, ∅, ∅, ∅, ∅⟩

/-- `bisect.insort`. -/
def insort (t : ℚ) (l : List ℚ) : List ℚ := l.orderedInsert (· ≤ ·) t

def remember (sid : String) (m : Meta) : Auditor :=
  if (s.metas.lookup sid).isSome then s
  else
    { s with
      metas := put sid m s.metas
      arrivals := put m.hotkey
        (insort m.receivedAt ((s.arrivals.lookup m.hotkey).getD []))
        s.arrivals
      unjudged :=
        if sid ∈ s.judged then s.unjudged
        else insert (m.hotkey, sid) s.unjudged }

/-- `_read`: the record's metadata, or the id is unreadable. -/
def read (sid : String) : Option Meta → Auditor
  | none => { s with unreadable := insert sid s.unreadable }
  | some m =>
    remember { s with unreadable := s.unreadable.erase sid } sid m

/-- `_read_all`. -/
def readAll (reads : String → Option Meta) (ids : List String)
    (s : Auditor) : Auditor :=
  ids.dedup.foldl (fun s sid => s.read sid (reads sid)) s

def markJudged (sid : String) : Auditor :=
  { s with
    judged := insert sid s.judged
    unreadable := s.unreadable.erase sid
    undrawn := s.undrawn.erase sid
    unjudged :=
      match s.metas.lookup sid with
      | none => s.unjudged
      | some m => s.unjudged.erase (m.hotkey, sid) }

def enqueue (sid : String) : Auditor :=
  if sid ∈ s.queued ∨ sid ∈ s.judged then s
  else { s with queued := insert sid s.queued }

/-- `pending_ids`, then each of them enqueued (a full rescan). -/
def listing (submitted judged : List String) : Auditor :=
  (submitted.filter (· ∉ judged)).foldl enqueue (judged.foldl markJudged s)

end Auditor

open Auditor

/-- What other tasks do to an auditor. -/
inductive Event
  /-- The route or the feed hands an id over; the minute rescan too. -/
  | enqueue (sid : String)
  | listing (submitted judged : List String)
  /-- A round's randomness is cached (the prefetches). -/
  | fetched (round : Nat)
deriving DecidableEq, Repr

def Auditor.heed : Event → Auditor
  | .enqueue sid => s.enqueue sid
  | .listing submitted judged => s.listing submitted judged
  | .fetched round => { s with rounds := insert round s.rounds }

/-- `_start`: list the job, read every pending record, schedule all. -/
def Auditor.start (submitted judged : List String)
    (reads : String → Option Meta) : Auditor :=
  let pending := submitted.filter (· ∉ judged)
  let s := judged.foldl markJudged s
  pending.foldl enqueue
    (readAll reads (pending.filter fun sid => (s.metas.lookup sid).isNone) s)

-- ===== one decision

/-- What drand answers while one record is decided. -/
structure DrandReply where
  /-- `round_at` does not raise. -/
  resolved : Bool
  /-- A fetch of the round succeeds. -/
  fetched : Bool
deriving DecidableEq, Repr

/-- The draw a verdict carries. -/
structure Draw where
  round : Nat
  q : ℚ
  drawn : Bool
deriving DecidableEq, Repr

namespace AuditorConfig

/-- The round whose randomness draws a record. -/
def drawRound (m : Meta) : Nat :=
  cfg.roundAt m.receivedAt + 1

/-- The record's own public draw. -/
def selected (sid : String) (m : Meta) : Bool :=
  drawn cfg.digest (cfg.randomness (cfg.drawRound m)) sid cfg.params.q

end AuditorConfig

namespace Auditor

/-- `_recent`: a hotkey's arrivals inside the hold; older ones go. -/
def recent (hotkey : String) (now : ℚ) : Nat × Auditor :=
  match s.arrivals.lookup hotkey with
  | none => (0, s)
  | some l =>
    let l := l.drop (l.countP (· < now - cfg.params.holdSeconds))
    (l.countP (· ≤ now), { s with arrivals := put hotkey l s.arrivals })

/-- The draw of a sampled record whose hotkey is not slow: `none` while
its round is not out yet, else the randomness, if drand gives it. -/
def drawOf (now : ℚ) (m : Meta) (reply : DrandReply) : Option (Option Nat) :=
  if !reply.resolved then some none
  else if cfg.roundAt (now - beaconGraceSeconds) ≤ cfg.drawRound m then none
  else if cfg.drawRound m ∈ s.rounds ∨ reply.fetched = true then
    some (some (cfg.drawRound m))
  else some none

/-- `_decide`, for a record with metadata `m` of a hotkey in `state`. -/
def decide (now : ℚ) (state : MinerState) (sid : String) (m : Meta)
    (reply : DrandReply) : Choice × Option Draw × Auditor :=
  let answer (recent : Nat) (randomness : Option String) : Choice :=
    decision cfg.digest state cfg.params now m.receivedAt recent randomness
      sid cfg.acceptSlack
  if cfg.params.q < 1 ∧ effectiveState state now cfg.params = .sampled then
    let (n, s) := s.recent cfg m.hotkey now
    if 1 / cfg.params.q ≤ n ∧ cfg.beacon = true then
      match s.drawOf cfg now m reply with
      | none => (.undecidable, none, s)
      | some none => (answer n none, none, s)
      | some (some round) =>
        let d := cfg.selected sid m
        (answer n (some (cfg.randomness round)), some ⟨round, cfg.params.q, d⟩,
          { s with
            rounds := insert round s.rounds
            undrawn :=
              if !d ∧ sid ∉ s.judged then insert sid s.undrawn
              else s.undrawn })
    else (answer n none, none, s)
  else (answer 0 none, none, s)

end Auditor

-- ===== the pass

/-- A record decided "pass_unaudited". -/
structure Payable where
  sid : String
  info : Meta
  draw : Option Draw
deriving DecidableEq, Repr

/-- The outcome of auditing a record, its failure confirmed by a second
audit. -/
inductive AuditResult
  /-- An error on our side. -/
  | error
  | passed
  | failed (penalty : Bool)
deriving DecidableEq, Repr

/-- The instant up to which every arrival has been handed over. -/
inductive Coverage
  | unknown
  | upTo (t : ℚ)
  /-- No front feeds this auditor. -/
  | all
deriving DecidableEq, Repr

def Coverage.min : Coverage → Coverage → Coverage
  | .unknown, _ | _, .unknown => .unknown
  | .all, c | c, .all => c
  | .upTo t, .upTo u => .upTo (Min.min t u)

def AuditorConfig.covers (receivedAt : ℚ) : Coverage → Bool
  | .unknown => false
  | .upTo t =>
    receivedAt + cfg.params.holdSeconds + cfg.acceptSlack
      - feedMarginSeconds ≤ t
  | .all => true

/-- What the world answers during a pass. -/
structure PassInput where
  now : ℚ
  ids : List String
  reads : String → Option Meta
  states : String → MinerState
  drand : String → DrandReply
  /-- Before the siblings are collected. -/
  before : List Event
  covered : Coverage
  siblingReads : String → Option Meta
  /-- While the collected ids are read. -/
  during : List Event
  siblingDrand : String → DrandReply
  /-- While the siblings are decided. -/
  after : List Event
  auditReads : String → Option Meta
  /-- While the records to audit are read. -/
  closing : List Event
  coveredAgain : Coverage
  audits : String → AuditResult
  /-- `_audit_records` raises (a state write failed). -/
  auditRaises : Bool
  /-- The verdict write of an id returns. -/
  written : String → Bool

/-- What a pass has decided so far. -/
structure Decided where
  auditor : Auditor
  audit : List String
  unaudited : List Payable
  voided : List String
  /-- Arrivals, with their hotkeys, of records not decidable yet. -/
  undecided : List (String × ℚ)

section Pass

variable (cfg : AuditorConfig) (inp : PassInput)

/-- The states the pass reads at its start. -/
def PassInput.state (inp : PassInput) (hotkey : String) : MinerState :=
  endBan inp.now (inp.states hotkey)

/-- One record of the batch. -/
def decideKnown (d : Decided) (sid : String) : Decided :=
  match d.auditor.metas.lookup sid with
  | none => d
  | some m =>
    let (choice, draw, s) := d.auditor.decide cfg inp.now
      (inp.state m.hotkey) sid m (inp.drand sid)
    let d := { d with auditor := s }
    match choice with
    | .audit => { d with audit := d.audit ++ [sid] }
    | .passUnaudited => { d with unaudited := d.unaudited ++ [⟨sid, m, draw⟩] }
    | .voidBanned => { d with voided := d.voided ++ [sid] }
    | .undecidable =>
      { d with undecided := d.undecided ++ [(m.hotkey, m.receivedAt)] }
    | .wait => d

/-- The ids an auditor knows of. -/
def Auditor.known : Finset String :=
  (s.metas.map (·.1)).toFinset ∪ s.queued ∪ s.unreadable

/-- The records without a verdict that the auditor knows only by id. -/
def Auditor.unread : List String :=
  sortSet ((s.queued ∪ s.unreadable).filter fun sid =>
    (s.metas.lookup sid).isNone ∧ sid ∉ s.judged)

/-- The siblings of a hotkey that a pass over `inPass` has to decide, by
receipt. -/
def Auditor.candidates (inPass : List String) (hotkey : String) : List
    (ℚ × String) :=
  sortBy (fun c => toLex c) <|
    (sortSet ((s.unjudged.filter fun p => p.1 = hotkey).image Prod.snd)).filterMap
      fun sid =>
        if sid ∈ inPass ∨ sid ∈ s.undrawn then none
        else (s.metas.lookup sid).map fun m => (m.receivedAt, sid)

/-- The siblings taken on for the payable records seen so far. -/
structure Cut where
  holdEnd : List (String × ℚ)
  taken : List (String × Nat)
  /-- Per hotkey cut short: the receipt of its first sibling left out. -/
  horizon : List (String × ℚ)
  kept : List Payable
deriving DecidableEq

/-- One payable record, oldest first, while its siblings fit the pass. -/
def Cut.step (candidates : String → List (ℚ × String)) (c : Cut)
    (p : Payable) : Cut :=
  let hotkey := p.info.hotkey
  let holdUntil := max ((c.holdEnd.lookup hotkey).getD 0)
    (p.info.receivedAt + cfg.params.holdSeconds)
  let count := (candidates hotkey).countP (·.1 ≤ holdUntil)
  let grown := (c.taken.map (·.2)).sum - (c.taken.lookup hotkey).getD 0 + count
  if cfg.passSiblings < grown then
    if c.holdEnd = [] then
      -- Even the oldest does not fit: its first siblings are decided now.
      { c with
        holdEnd := put hotkey holdUntil c.holdEnd
        taken := put hotkey cfg.passSiblings c.taken
        horizon :=
          match (candidates hotkey)[cfg.passSiblings]? with
          | none => c.horizon
          | some x => put hotkey x.1 c.horizon }
    else c
  else
    { c with
      holdEnd := put hotkey holdUntil c.holdEnd
      taken := put hotkey count c.taken
      kept := c.kept ++ [p] }

def cutSiblings (candidates : String → List (ℚ × String))
    (unaudited : List Payable) : Cut :=
  (sortBy (fun p => p.info.receivedAt) unaudited).foldl
    (Cut.step cfg candidates) ⟨[], [], [], []⟩

/-- The siblings decided in this pass, with their hotkeys. -/
def Cut.siblings (c : Cut) (candidates : String → List (ℚ × String)) :
    List (String × String) :=
  c.holdEnd.flatMap fun h =>
    ((candidates h.1).take ((c.taken.lookup h.1).getD 0)).map fun x =>
      (h.1, x.2)

/-- Every sibling that could catch a record received then is decided in
this pass: its hold ends inside the window. -/
def Cut.inside (c : Cut) (hotkey : String) (receivedAt : ℚ) : Bool :=
  match c.horizon.lookup hotkey with
  | some t => receivedAt + cfg.params.holdSeconds < t
  | none =>
    (c.holdEnd.lookup hotkey).any (receivedAt + cfg.params.holdSeconds ≤ ·)

/-- One sibling. -/
def decideSibling (c : Cut) (d : Decided) (x : String × String) : Decided :=
  match d.auditor.metas.lookup x.2 with
  | none => d
  | some m =>
    let (choice, draw, s) := d.auditor.decide cfg inp.now
      (inp.state x.1) x.2 m (inp.siblingDrand x.2)
    let d := { d with auditor := s }
    match choice with
    | .audit => { d with audit := d.audit ++ [x.2] }
    | .undecidable =>
      { d with undecided := d.undecided ++ [(x.1, m.receivedAt)] }
    | .passUnaudited =>
      if c.inside cfg x.1 m.receivedAt then
        { d with unaudited := d.unaudited ++ [⟨x.2, m, draw⟩] }
      else d
    | .voidBanned | .wait => d

/-- The first loop of a pass: its batch read and decided. -/
def decideBatch (s : Auditor) : Decided × List String :=
  let ids := inp.ids.filter (· ∉ s.judged)
  let s := s.readAll inp.reads
    (ids.filter fun sid => (s.metas.lookup sid).isNone)
  let known := ids.dedup.filter fun sid => (s.metas.lookup sid).isSome
  (known.foldl (decideKnown cfg inp) ⟨s, [], [], [], []⟩, known)

/-- The siblings collected and decided, where a record is payable. -/
def decideSiblings (d : Decided) (known : List String) : Decided :=
  if d.unaudited = [] then d
  else
    let s := d.auditor.readAll inp.siblingReads d.auditor.unread
    let s := inp.during.foldl heed s
    let candidates := s.candidates known
    let cut := cutSiblings cfg candidates d.unaudited
    (cut.siblings candidates).foldl (decideSibling cfg inp cut)
      { d with auditor := s, unaudited := d.unaudited.filter (· ∈ cut.kept) }

/-- `_within_budget`: the audits a pass makes, of `order`. -/
def takeAudits (metas : List (String × Meta)) :
    List String → Nat → Nat → List String
  | [], _, _ => []
  | sid :: order, rows, tokens =>
    let size := ((metas.lookup sid).map (·.tokenCount)).getD 0
    if rows ≠ 0 ∧ (cfg.passAuditRows ≤ rows ∨
        cfg.passAuditTokens < tokens + size) then []
    else sid :: takeAudits metas order (rows + 1) (tokens + size)

/-- The audits in the order the budget takes them. -/
def auditOrder (metas : List (String × Meta)) (audit : List String) :
    List String :=
  sortBy (fun sid =>
    toLex (((metas.lookup sid).map (·.receivedAt)).getD 0, sid)) audit.dedup

/-- Per hotkey, the oldest receipt among the audits put off. -/
def deferredFrom (metas : List (String × Meta)) (later : List String) :
    List (String × ℚ) :=
  later.foldl (fun t sid =>
    match metas.lookup sid with
    | none => t
    | some m =>
      put m.hotkey (match t.lookup m.hotkey with
        | none => m.receivedAt
        | some u => min u m.receivedAt) t) []

/-- The records a pass pays or holds back, once its audits are chosen. -/
structure Plan where
  auditor : Auditor
  /-- The audits whose record was read. -/
  pairs : List (String × Meta)
  /-- Hotkeys of audits whose record could not be read. -/
  errored : List String
  early : List Payable
  late : List Payable
  voided : List String

/-- From the decisions to the verdicts to write. -/
def planPass (d : Decided) (read : String → Bool) : Plan :=
  let s := inp.after.foldl heed d.auditor
  let order := auditOrder s.metas d.audit
  let kept := takeAudits cfg s.metas order 0 0
  let later := order.drop kept.length
  let audit := d.audit.filter (· ∈ kept)
  let put_off := deferredFrom s.metas later
  let s := { s with queued := s.queued ∪ later.toFinset }
  let s := s.readAll inp.auditReads (audit.filter fun sid => !read sid)
  let s := inp.closing.foldl heed s
  let readable (sid : String) : Bool :=
    read sid || (inp.auditReads sid).isSome
  let hotkeys (ids : List String) : List String :=
    ids.filterMap fun sid => (s.metas.lookup sid).map (·.hotkey)
  let errored := hotkeys (audit.filter fun sid => !readable sid)
  let covered := inp.covered.min inp.coveredAgain
  let payable := d.unaudited.filter fun p =>
    s.unreadable = ∅ ∧ p.info.hotkey ∉ errored ∧
      cfg.covers p.info.receivedAt covered ∧
      ¬ (put_off.lookup p.info.hotkey).any
        (· ≤ p.info.receivedAt + cfg.params.holdSeconds) ∧
      ∀ u ∈ d.undecided, u.1 = p.info.hotkey →
        ¬ u.2 ≤ p.info.receivedAt + cfg.params.holdSeconds
  let audited := hotkeys audit
  { auditor := s
    pairs := (audit.filter readable).filterMap fun sid =>
      (s.metas.lookup sid).map fun m => (sid, m)
    errored := errored
    early := payable.filter fun p => p.info.hotkey ∉ audited
    late := payable.filter fun p => p.info.hotkey ∈ audited
    voided := d.voided }

/-- What a pass did. -/
structure PassLog where
  auditor : Auditor
  /-- The verdicts "passed, not audited" it wrote or tried to write. -/
  paid : List Payable
  /-- The records it audited, with the outcomes. -/
  audited : List (String × AuditResult)
  /-- The ids known when it collected siblings. -/
  collected : Finset String
  /-- The records with a verdict, and those unreadable, when it decided
  what to pay. -/
  judged : Finset String
  unreadable : Finset String

/-- The audits of a plan, and the verdicts that follow them. -/
def writePass (plan : Plan) (collected : Finset String) : PassLog :=
  let audited := plan.pairs.map fun x => (x.1, inp.audits x.1)
  let failed := (plan.pairs.filter fun x =>
    inp.audits x.1 = .failed true).map (·.2.hotkey)
  let errored := plan.errored ++ (plan.pairs.filter fun x =>
    inp.audits x.1 = .error ∨ inp.written x.1 = false).map (·.2.hotkey)
  let late :=
    if inp.auditRaises then []
    else plan.late.filter fun p =>
      p.info.hotkey ∉ failed ∧ p.info.hotkey ∉ errored
  let verdicts := plan.early.map (·.sid) ++ plan.voided ++
    (if inp.auditRaises then []
      else (plan.pairs.filter fun x => inp.audits x.1 ≠ .error).map (·.1)) ++
    late.map (·.sid)
  { auditor := (verdicts.filter fun sid => inp.written sid).foldl
      markJudged plan.auditor
    paid := plan.early ++ late
    audited := audited
    collected := collected
    judged := plan.auditor.judged
    unreadable := plan.auditor.unreadable }

/-- `_judge_once`. -/
def judgeOnce (s : Auditor) : PassLog :=
  let ids := inp.ids.filter (· ∉ s.judged)
  let read (sid : String) : Bool :=
    sid ∈ ids && (s.metas.lookup sid).isNone && (inp.reads sid).isSome
  let (d, known) := decideBatch cfg inp s
  let s := inp.before.foldl heed d.auditor
  let d := decideSiblings cfg inp { d with auditor := s } known
  writePass inp (planPass cfg inp d read) s.known

end Pass

-- ===== the invariant

/-- `_unjudged` has exactly the known records without a verdict, and the
draw of a record in `_undrawn` did not select it. -/
structure Auditor.Inv (cfg : AuditorConfig) (s : Auditor) : Prop where
  unjudged : ∀ h sid, (h, sid) ∈ s.unjudged ↔
    sid ∉ s.judged ∧ ∃ m, s.metas.lookup sid = some m ∧ m.hotkey = h
  undrawn : ∀ sid ∈ s.undrawn,
    ∃ m, s.metas.lookup sid = some m ∧ cfg.selected sid m = false

/-- What only grows: metadata, once read, and the verdicts. -/
structure Auditor.Grows (s s' : Auditor) : Prop where
  metas : ∀ sid m, s.metas.lookup sid = some m → s'.metas.lookup sid = some m
  judged : s.judged ⊆ s'.judged

/-- A record heard of has a verdict, is unreadable, or was read. -/
def Auditor.Heard (sid : String) : Prop :=
  sid ∈ s.judged ∨ sid ∈ s.unreadable ∨ (s.metas.lookup sid).isSome

namespace Auditor

variable {cfg : AuditorConfig} {s s' : Auditor} {sid : String} {x : String}

theorem Grows.refl (s : Auditor) : s.Grows s :=
  ⟨fun _ _ h => h, subset_rfl⟩

theorem Grows.trans {s'' : Auditor} (h : s.Grows s') (h' : s'.Grows s'') :
    s.Grows s'' :=
  ⟨fun sid m hm => h'.metas sid m (h.metas sid m hm), h.judged.trans h'.judged⟩

theorem inv_init (cfg : AuditorConfig) : init.Inv cfg :=
  ⟨by simp [init], by simp [init]⟩

theorem remember_known (h : (s.metas.lookup sid).isSome) (m : Meta) :
    s.remember sid m = s := if_pos h

theorem remember_new (h : s.metas.lookup sid = none) (m : Meta) :
    s.remember sid m =
      { s with
        metas := put sid m s.metas
        arrivals := put m.hotkey
          (insort m.receivedAt ((s.arrivals.lookup m.hotkey).getD []))
          s.arrivals
        unjudged :=
          if sid ∈ s.judged then s.unjudged
          else insert (m.hotkey, sid) s.unjudged } :=
  if_neg (by simp [h])

theorem Inv.remember (h : s.Inv cfg) (sid : String) (m : Meta) :
    (s.remember sid m).Inv cfg := by
  cases hl : s.metas.lookup sid with
  | some m' => rwa [remember_known (by simp [hl])]
  | none =>
    rw [remember_new hl]
    constructor
    · intro h' x
      simp only [lookup_put]
      by_cases hx : x = sid
      · subst hx
        -- the record was unknown, so no pair names it yet
        have hno : ∀ k, (k, x) ∉ s.unjudged := by
          intro k hk
          obtain ⟨-, m', hm', -⟩ := (h.unjudged k x).1 hk
          simp [hl] at hm'
        by_cases hj : x ∈ s.judged
        · simp [hj, hno]
        · simp [hj, hno, eq_comm]
      · rw [if_neg hx, ← h.unjudged]
        split
        · rfl
        · simp [hx]
    · intro x hx
      obtain ⟨m', hm', hs⟩ := h.undrawn x hx
      exact ⟨m', lookup_put_new hl m hm', hs⟩

theorem grows_remember (s : Auditor) (sid : String) (m : Meta) :
    s.Grows (s.remember sid m) := by
  cases hl : s.metas.lookup sid with
  | some m' =>
    rw [remember_known (by simp [hl])]
    exact .refl s
  | none =>
    rw [remember_new hl]
    exact ⟨fun _ _ => lookup_put_new hl m, subset_rfl⟩

theorem judged_remember (s : Auditor) (sid : String) (m : Meta) :
    (s.remember sid m).judged = s.judged := by
  rw [remember]
  split <;> rfl

theorem unreadable_remember (s : Auditor) (sid : String) (m : Meta) :
    (s.remember sid m).unreadable = s.unreadable := by
  rw [remember]
  split <;> rfl

theorem lookup_remember (s : Auditor) (sid : String) (m : Meta) :
    ((s.remember sid m).metas.lookup sid).isSome := by
  cases hl : s.metas.lookup sid with
  | some m' =>
    rw [remember_known (by simp [hl]), hl]
    rfl
  | none =>
    rw [remember_new hl]
    simp only [lookup_put, if_true]
    rfl

theorem Inv.read (h : s.Inv cfg) (sid : String) (r : Option Meta) :
    (s.read sid r).Inv cfg := by
  cases r with
  | none => exact ⟨h.unjudged, h.undrawn⟩
  | some m =>
    have h' : ({ s with unreadable := s.unreadable.erase sid } :
      Auditor).Inv cfg := ⟨h.unjudged, h.undrawn⟩
    exact h'.remember sid m

theorem grows_read (s : Auditor) (sid : String) (r : Option Meta) :
    s.Grows (s.read sid r) := by
  cases r with
  | none => exact ⟨fun _ _ hm => hm, subset_rfl⟩
  | some m =>
    have h := grows_remember
      { s with unreadable := s.unreadable.erase sid } sid m
    exact ⟨h.metas, h.judged⟩

theorem judged_read (s : Auditor) (sid : String) (r : Option Meta) :
    (s.read sid r).judged = s.judged := by
  cases r with
  | none => rfl
  | some m => exact judged_remember _ sid m

theorem heard_read_self (s : Auditor) (sid : String) (r : Option Meta) :
    (s.read sid r).Heard sid := by
  cases r with
  | none => exact .inr (.inl (Finset.mem_insert_self _ _))
  | some m => exact .inr (.inr (lookup_remember _ sid m))

theorem Heard.read (h : s.Heard x) (sid : String)
    (r : Option Meta) : (s.read sid r).Heard x := by
  by_cases hx : x = sid
  · rw [hx]
    exact heard_read_self s sid r
  rcases h with h | h | h
  · exact .inl ((judged_read s sid r).symm ▸ h)
  · refine .inr (.inl ?_)
    cases r with
    | none => exact Finset.mem_insert_of_mem h
    | some m =>
      rw [Auditor.read, unreadable_remember]
      exact Finset.mem_erase.2 ⟨hx, h⟩
  · obtain ⟨m, hm⟩ := isSome_iff_exists.1 h
    refine .inr (.inr ?_)
    rw [(grows_read s sid r).metas x m hm]
    rfl

theorem Inv.readAll (h : s.Inv cfg) (reads : String → Option Meta)
    (ids : List String) : (s.readAll reads ids).Inv cfg := by
  exact foldlRecOn _ _ h fun _ hs x _ => hs.read x _

theorem grows_readAll (s : Auditor) (reads : String → Option Meta)
    (ids : List String) : s.Grows (s.readAll reads ids) := by
  exact foldlRecOn _ _ (Grows.refl s) fun t ht x _ =>
    ht.trans (grows_read t x _)

theorem Heard.readAll (h : s.Heard x) (reads : String → Option Meta)
    (ids : List String) : (s.readAll reads ids).Heard x := by
  exact foldlRecOn (motive := fun t : Auditor => t.Heard x) _ _ h
    fun _ ht y _ => ht.read y _

/-- Every id that is read is heard of. -/
theorem heard_readAll (s : Auditor) (reads : String → Option Meta)
    {ids : List String} (hx : x ∈ ids) : (s.readAll reads ids).Heard x := by
  exact foldl_sets (P := fun t : Auditor => t.Heard x)
    (fun _ y ht => ht.read y _) (mem_dedup.2 hx)
    (fun t => heard_read_self t x _) s

/-- Reading known records again adds nothing. -/
theorem metas_readAll {reads : String → Option Meta} {ids : List String}
    (h : ∀ x ∈ ids, (s.metas.lookup x).isSome) :
    (s.readAll reads ids).metas = s.metas := by
  refine foldlRecOn (motive := fun t : Auditor => t.metas = s.metas)
    _ _ rfl fun t ht y hy => ?_
  cases reads y with
  | none => exact ht
  | some m =>
    have hk : (({ t with unreadable := t.unreadable.erase y } :
        Auditor).metas.lookup y).isSome := by
      rw [ht]
      exact h y (mem_dedup.1 hy)
    rw [read, remember_known hk, ht]

theorem Inv.markJudged (h : s.Inv cfg) (sid : String) :
    (s.markJudged sid).Inv cfg := by
  constructor
  · intro k x
    simp only [Auditor.markJudged]
    cases hl : s.metas.lookup sid with
    | none =>
      rw [h.unjudged, Finset.mem_insert]
      constructor
      · rintro ⟨hj, m, hm, hk⟩
        refine ⟨?_, m, hm, hk⟩
        rintro (rfl | hx)
        · simp [hl] at hm
        · exact hj hx
      · rintro ⟨hj, hm⟩
        exact ⟨fun hx => hj (.inr hx), hm⟩
    | some m' =>
      rw [Finset.mem_erase, h.unjudged, Finset.mem_insert]
      constructor
      · rintro ⟨hne, hj, m, hm, hk⟩
        refine ⟨?_, m, hm, hk⟩
        rintro (rfl | hx)
        · rw [hl, some_inj] at hm
          exact hne (by rw [hm, hk])
        · exact hj hx
      · rintro ⟨hj, hm⟩
        refine ⟨?_, fun hx => hj (.inr hx), hm⟩
        intro he
        exact hj (.inl (Prod.mk.inj he).2)
  · intro x hx
    exact h.undrawn x (Finset.mem_of_mem_erase hx)

theorem Heard.markJudged (h : s.Heard x) (sid : String) :
    (s.markJudged sid).Heard x := by
  by_cases hx : x = sid
  · exact .inl (hx ▸ Finset.mem_insert_self _ _)
  rcases h with h | h | h
  · exact .inl (Finset.mem_insert_of_mem h)
  · exact .inr (.inl (Finset.mem_erase.2 ⟨hx, h⟩))
  · exact .inr (.inr h)

theorem enqueue_fields (s : Auditor) (sid : String) :
    (s.enqueue sid).metas = s.metas ∧ (s.enqueue sid).judged = s.judged ∧
      (s.enqueue sid).unreadable = s.unreadable := by
  rw [enqueue]
  split <;> exact ⟨rfl, rfl, rfl⟩

/-- What any event of other tasks keeps. -/
structure Keeps (cfg : AuditorConfig) (s s' : Auditor) : Prop where
  inv : s.Inv cfg → s'.Inv cfg
  judged : s.judged ⊆ s'.judged
  metas : s'.metas = s.metas
  heard : ∀ x, s.Heard x → s'.Heard x

theorem Keeps.refl (cfg : AuditorConfig) (s : Auditor) : Keeps cfg s s :=
  ⟨id, subset_rfl, rfl, fun _ => id⟩

theorem Keeps.trans {s'' : Auditor} (h : Keeps cfg s s')
    (h' : Keeps cfg s' s'') : Keeps cfg s s'' :=
  ⟨h'.inv ∘ h.inv, h.judged.trans h'.judged, h'.metas.trans h.metas,
    fun x hx => h'.heard x (h.heard x hx)⟩

theorem keeps_foldl {β : Type} {f : Auditor → β → Auditor}
    (h : ∀ t b, Keeps cfg t (f t b)) (l : List β) (s : Auditor) :
    Keeps cfg s (l.foldl f s) :=
  foldlRecOn l f (Keeps.refl cfg s) fun t ht b _ => ht.trans (h t b)

theorem keeps_markJudged (t : Auditor) (sid : String) :
    Keeps cfg t (t.markJudged sid) :=
  ⟨fun h => h.markJudged sid, Finset.subset_insert _ _, rfl,
    fun _ h => h.markJudged sid⟩

theorem keeps_enqueue (t : Auditor) (sid : String) :
    Keeps cfg t (t.enqueue sid) := by
  rw [enqueue]
  split
  · exact .refl cfg t
  · exact ⟨fun h => ⟨h.unjudged, h.undrawn⟩, subset_rfl, rfl,
      fun _ h => h⟩

theorem keeps_heed (t : Auditor) (e : Event) : Keeps cfg t (t.heed e) := by
  cases e with
  | enqueue sid => exact keeps_enqueue t sid
  | listing submitted judged =>
    exact (keeps_foldl keeps_markJudged judged t).trans
      (keeps_foldl keeps_enqueue _ _)
  | fetched round =>
    exact ⟨fun h => ⟨h.unjudged, h.undrawn⟩, subset_rfl, rfl,
      fun _ h => h⟩

theorem keeps_heedAll (es : List Event) (t : Auditor) :
    Keeps cfg t (es.foldl heed t) :=
  keeps_foldl keeps_heed es t

theorem Inv.start (h : s.Inv cfg) (submitted judged : List String)
    (reads : String → Option Meta) :
    (s.start submitted judged reads).Inv cfg := by
  refine (keeps_foldl keeps_enqueue _ _).inv (Inv.readAll ?_ _ _)
  exact (keeps_foldl keeps_markJudged judged s).inv h

end Auditor

-- ===== decisions

namespace Auditor

variable {cfg : AuditorConfig} {s : Auditor} {now : ℚ} {state : MinerState}
  {sid : String} {m : Meta} {reply : DrandReply}

theorem keeps_recent (s : Auditor) (hotkey : String) (now : ℚ) :
    Keeps cfg s (s.recent cfg hotkey now).2 := by
  rw [recent]
  split
  · exact .refl cfg s
  · exact ⟨fun h => ⟨h.unjudged, h.undrawn⟩, subset_rfl, rfl,
      fun _ h => h⟩

/-- What `_decide` answers of a known record, and what it keeps. -/
structure DecideSpec (cfg : AuditorConfig) (s : Auditor) (now : ℚ)
    (state : MinerState) (sid : String) (m : Meta) (choice : Choice)
    (s' : Auditor) : Prop where
  keeps : s.metas.lookup sid = some m → Keeps cfg s s'
  undrawn : choice = .passUnaudited ∨ choice = .wait →
    effectiveState state now cfg.params = .sampled ∧ cfg.selected sid m = false
  payable : choice = .passUnaudited →
    m.receivedAt + cfg.params.holdSeconds + cfg.acceptSlack ≤ now
  banned : choice = .voidBanned → effectiveState state now cfg.params = .banned

/-- An answer without a draw is no payment. -/
theorem decideSpec_undrawn {s' : Auditor} (hk : Keeps cfg s s') (n : Nat) :
    DecideSpec cfg s now state sid m
      (decision cfg.digest state cfg.params now m.receivedAt n none sid
        cfg.acceptSlack) s' where
  keeps _ := hk
  undrawn h := by
    obtain ⟨-, -, -, r, hr, -⟩ := decision_undrawn h
    exact nomatch hr
  payable h := by
    obtain ⟨-, -, -, r, hr, -⟩ := decision_undrawn (.inl h)
    exact nomatch hr
  banned := decision_voidBanned

theorem decide_spec (cfg : AuditorConfig) (s : Auditor) (now : ℚ)
    (state : MinerState) (sid : String) (m : Meta) (reply : DrandReply) :
    DecideSpec cfg s now state sid m (s.decide cfg now state sid m reply).1
      (s.decide cfg now state sid m reply).2.2 := by
  have hkr : Keeps cfg s (s.recent cfg m.hotkey now).2 :=
    keeps_recent s m.hotkey now
  unfold decide
  split
  · generalize s.recent cfg m.hotkey now = r at hkr
    obtain ⟨n, t⟩ := r
    dsimp only at hkr ⊢
    split
    · cases hd : t.drawOf cfg now m reply with
      | none =>
        exact ⟨fun _ => hkr, nofun, nofun, nofun⟩
      | some o =>
        cases o with
        | none => exact decideSpec_undrawn hkr n
        | some round =>
          have hround : round = cfg.drawRound m := by
            rw [drawOf] at hd
            split at hd
            · simp at hd
            · split at hd
              · simp at hd
              · split at hd
                · simpa [eq_comm] using hd
                · simp at hd
          subst hround
          dsimp only
          refine ⟨fun hm => ?_, fun h => ?_, decision_payable,
            decision_voidBanned⟩
          · refine hkr.trans ⟨fun h => ⟨h.unjudged, fun x hx => ?_⟩,
              subset_rfl, rfl, fun _ h => h⟩
            split at hx
            · rename_i hc
              rcases Finset.mem_insert.1 hx with rfl | hx
              · refine ⟨m, ?_, by simpa using hc.1⟩
                rw [← hm, ← hkr.metas]
              · exact h.undrawn x hx
            · exact h.undrawn x hx
          · obtain ⟨hs, -, -, r, hr, hdraw⟩ := decision_undrawn h
            rw [some_inj] at hr
            refine ⟨hs, ?_⟩
            rw [AuditorConfig.selected, hr]
            exact hdraw
    · exact decideSpec_undrawn hkr n
  · exact decideSpec_undrawn (.refl cfg s) 0

end Auditor

-- ===== the loops

/-- The hotkey's records are sampled in this pass. -/
abbrev PassInput.Sampled (inp : PassInput) (hotkey : String) : Prop :=
  effectiveState (inp.state hotkey) inp.now cfg.params = .sampled

/-- What holds of the decisions taken so far. -/
structure Decided.Ok (cfg : AuditorConfig) (inp : PassInput) (d : Decided) :
    Prop where
  inv : d.auditor.Inv cfg
  audit : ∀ sid ∈ d.audit, (d.auditor.metas.lookup sid).isSome
  unaudited : ∀ p ∈ d.unaudited, d.auditor.metas.lookup p.sid = some p.info ∧
      inp.Sampled cfg p.info.hotkey ∧ cfg.selected p.sid p.info = false ∧
      p.info.receivedAt + cfg.params.holdSeconds + cfg.acceptSlack ≤ inp.now

/-- A record a pass has dealt with: it is to be audited, it holds its
hotkey's payments back, or its draw did not select it. -/
def Decided.Treated (d : Decided) (sid : String) (m : Meta) : Prop :=
  sid ∈ d.audit ∨ (m.hotkey, m.receivedAt) ∈ d.undecided ∨
    cfg.selected sid m = false

/-- Where a record is payable, every id known before is heard of, and the
pass has dealt with each of its hotkey's records received inside its hold. -/
def Decided.Covers (d : Decided) (known : Finset String) : Prop :=
  ∀ p ∈ d.unaudited, (∀ sid ∈ known, d.auditor.Heard sid) ∧
    ∀ sid m, d.auditor.metas.lookup sid = some m →
      sid ∉ d.auditor.judged → m.hotkey = p.info.hotkey →
      m.receivedAt ≤ p.info.receivedAt + cfg.params.holdSeconds →
      d.Treated cfg sid m

/-- Decisions only add. -/
structure Decided.After (cfg : AuditorConfig) (d d' : Decided) : Prop where
  keeps : d.auditor.Keeps cfg d'.auditor
  audit : d.audit ⊆ d'.audit
  undecided : d.undecided ⊆ d'.undecided

namespace Decided

variable {cfg : AuditorConfig} {inp : PassInput} {d d' : Decided} {sid : String}
  {m : Meta}

theorem After.refl (cfg : AuditorConfig) (d : Decided) : d.After cfg d :=
  ⟨.refl cfg _, Subset.refl _, Subset.refl _⟩

theorem After.trans {d'' : Decided} (h : d.After cfg d')
    (h' : d'.After cfg d'') : d.After cfg d'' :=
  ⟨h.keeps.trans h'.keeps, List.Subset.trans h.audit h'.audit,
    List.Subset.trans h.undecided h'.undecided⟩

theorem Treated.after (h : d.Treated cfg sid m)
    (ha : d.After cfg d') : d'.Treated cfg sid m :=
  h.imp (fun x => ha.audit x) (Or.imp_left fun x => ha.undecided x)

/-- What one decision adds. -/
structure Added (cfg : AuditorConfig) (inp : PassInput) (d d' : Decided)
    (sid : String) : Prop where
  ok : d'.Ok cfg inp
  after : d.After cfg d'
  treated : ∀ m, d.auditor.metas.lookup sid = some m →
    inp.Sampled cfg m.hotkey → d'.Treated cfg sid m

/-- The auditor after a decision, the lists as they were. -/
theorem Ok.keeps {s : Auditor} (h : d.Ok cfg inp)
    (hk : d.auditor.Keeps cfg s) : Ok cfg inp { d with auditor := s } where
  inv := hk.inv h.inv
  audit := by simpa only [hk.metas] using h.audit
  unaudited := by simpa only [hk.metas] using h.unaudited

theorem added_of_decide {choice : Choice} {draw : Option Draw}
    {reply : DrandReply} {s : Auditor} (h : d.Ok cfg inp)
    (hm : d.auditor.metas.lookup sid = some m)
    (hr : d.auditor.decide cfg inp.now (inp.state m.hotkey) sid m reply
      = (choice, draw, s)) (hd' : d' = { d with auditor := s } ∧
        (choice = .wait ∨ choice = .passUnaudited) ∨
      d' = { d with auditor := s, audit := d.audit ++ [sid] } ∨
      d' = { d with
        auditor := s
        undecided := d.undecided ++ [(m.hotkey, m.receivedAt)] } ∨
      choice = .passUnaudited ∧ (∃ draw, d' = { d with
        auditor := s, unaudited := d.unaudited ++ [⟨sid, m, draw⟩] }) ∨
      choice = .voidBanned ∧ d'.auditor = s ∧ d'.audit = d.audit ∧
        d'.unaudited = d.unaudited ∧ d'.undecided = d.undecided) :
    Added cfg inp d d' sid := by
  have hd := decide_spec cfg d.auditor inp.now (inp.state m.hotkey)
    sid m reply
  rw [hr] at hd
  have hk := hd.keeps hm
  have hmk : s.metas.lookup sid = some m := by rw [hk.metas, hm]
  have hok := h.keeps hk
  have hm' : ∀ m', d.auditor.metas.lookup sid = some m' → m' = m :=
    fun m' h' => some_inj.1 (h'.symm.trans hm)
  rcases hd' with ⟨rfl, hc⟩ | rfl | rfl | ⟨hc, draw, rfl⟩ |
      ⟨hc, rfl, ha, hu, hn⟩
  · refine ⟨hok, ⟨hk, Subset.refl _, Subset.refl _⟩, ?_⟩
    intro m' h' _
    rw [hm' m' h']
    exact .inr (.inr (hd.undrawn hc.symm).2)
  · refine ⟨⟨hok.inv, ?_, hok.unaudited⟩,
      ⟨hk, subset_append_left _ _, Subset.refl _⟩, ?_⟩
    · refine forall_snoc hok.audit ?_
      change (s.metas.lookup sid).isSome
      rw [hmk]
      rfl
    · exact fun _ _ _ => .inl mem_concat_self
  · refine ⟨⟨hok.inv, hok.audit, hok.unaudited⟩,
      ⟨hk, Subset.refl _, subset_append_left _ _⟩, ?_⟩
    intro m' h' _
    rw [hm' m' h']
    exact .inr (.inl mem_concat_self)
  · have hun := hd.undrawn (.inl hc)
    refine ⟨⟨hok.inv, hok.audit, ?_⟩, ⟨hk, Subset.refl _, Subset.refl _⟩, ?_⟩
    · exact forall_snoc hok.unaudited ⟨hmk, hun.1, hun.2, hd.payable hc⟩
    · intro m' h' _
      rw [hm' m' h']
      exact .inr (.inr hun.2)
  · refine ⟨⟨hok.inv, ha ▸ hok.audit, hu ▸ hok.unaudited⟩,
      ⟨hk, ha ▸ Subset.refl _, hn ▸ Subset.refl _⟩, ?_⟩
    intro m' h' hs
    rw [PassInput.Sampled, hm' m' h', hd.banned hc] at hs
    exact nomatch hs

theorem added_decideKnown (h : d.Ok cfg inp)
    (hsid : (d.auditor.metas.lookup sid).isSome) :
    Added cfg inp d (decideKnown cfg inp d sid) sid := by
  obtain ⟨m, hm⟩ := isSome_iff_exists.1 hsid
  unfold decideKnown
  rw [hm]
  dsimp only
  generalize hr : d.auditor.decide cfg inp.now (inp.state m.hotkey) sid m
    (inp.drand sid) = r
  obtain ⟨choice, draw, s⟩ := r
  apply added_of_decide h hm hr
  cases choice with
  | audit => exact .inr (.inl rfl)
  | passUnaudited => exact .inr (.inr (.inr (.inl ⟨rfl, draw, rfl⟩)))
  | voidBanned =>
    exact .inr (.inr (.inr (.inr ⟨rfl, rfl, rfl, rfl, rfl⟩)))
  | undecidable => exact .inr (.inr (.inl rfl))
  | wait => exact .inl ⟨rfl, .inl rfl⟩

theorem added_decideSibling (h : d.Ok cfg inp) (c : Cut) {x : String × String}
    (hm : d.auditor.metas.lookup x.2 = some m) (hx : m.hotkey = x.1) :
    Added cfg inp d (decideSibling cfg inp c d x) x.2 := by
  obtain ⟨k, sid⟩ := x
  obtain rfl : m.hotkey = k := hx
  unfold decideSibling
  rw [hm]
  dsimp only
  generalize hr : d.auditor.decide cfg inp.now (inp.state m.hotkey) sid m
    (inp.siblingDrand sid) = r
  obtain ⟨choice, draw, s⟩ := r
  apply added_of_decide h hm hr
  cases choice with
  | audit => exact .inr (.inl rfl)
  | passUnaudited =>
    dsimp only
    split
    · exact .inr (.inr (.inr (.inl ⟨rfl, draw, rfl⟩)))
    · exact .inl ⟨rfl, .inr rfl⟩
  | voidBanned =>
    exact .inr (.inr (.inr (.inr ⟨rfl, rfl, rfl, rfl, rfl⟩)))
  | undecidable => exact .inr (.inr (.inl rfl))
  | wait => exact .inl ⟨rfl, .inl rfl⟩

/-- A loop of decisions treats every record it decides, and has what each
decision keeps. -/
theorem added_foldl {β : Type} {f : Decided → β → Decided} {g : β → String}
    {l : List β} {I : Decided → Prop}
    (hf : ∀ e b, e.Ok cfg inp → e.auditor.metas = d.auditor.metas → b ∈ l →
      Added cfg inp e (f e b) (g b) ∧ (I e → I (f e b)))
    (h : d.Ok cfg inp) (hI : I d) :
    (l.foldl f d).Ok cfg inp ∧ d.After cfg (l.foldl f d) ∧ I (l.foldl f d) ∧
      ∀ b ∈ l, ∀ m, d.auditor.metas.lookup (g b) = some m →
        inp.Sampled cfg m.hotkey → (l.foldl f d).Treated cfg (g b) m := by
  induction l generalizing d with
  | nil => exact ⟨h, .refl cfg d, hI, nofun⟩
  | cons b l ih =>
    obtain ⟨hb, hIb⟩ := hf d b h rfl mem_cons_self
    have hmet := hb.after.keeps.metas
    obtain ⟨hok, haft, hI', htr⟩ := ih (fun e c he hem hc =>
        hf e c he (hem.trans hmet) (mem_cons_of_mem _ hc)) hb.ok (hIb hI)
    refine ⟨hok, hb.after.trans haft, hI', ?_⟩
    intro c hc m hm hs
    rcases mem_cons.1 hc with rfl | hc
    · exact (hb.treated m hm hs).after haft
    · exact htr c hc m (by rw [hmet, hm]) hs

end Decided

-- ===== the siblings taken on

/-- Per hotkey, the siblings taken on are those received by the end of
the window, or the first `passSiblings` of them, up to the horizon. -/
structure Cut.Ok (cfg : AuditorConfig)
    (candidates : String → List (ℚ × String)) (c : Cut) : Prop where
  keys : c.taken.map (·.1) = c.holdEnd.map (·.1)
  fresh : ∀ h, c.holdEnd.lookup h = none → c.horizon.lookup h = none
  taken : ∀ h t, c.holdEnd.lookup h = some t → (c.horizon.lookup h = none ∧
      c.taken.lookup h = some ((candidates h).countP (·.1 ≤ t))) ∨
    ∃ x, (candidates h)[cfg.passSiblings]? = some x ∧
      c.horizon.lookup h = some x.1 ∧
      c.taken.lookup h = some cfg.passSiblings ∧
      cfg.passSiblings < (candidates h).countP (·.1 ≤ t)
  kept : ∀ p ∈ c.kept, c.horizon.lookup p.info.hotkey = none ∧
    ∃ t, c.holdEnd.lookup p.info.hotkey = some t ∧
      p.info.receivedAt + cfg.params.holdSeconds ≤ t

namespace Cut

variable {cfg : AuditorConfig} {candidates : String → List (ℚ × String)}
  {c : Cut}

theorem ok_nil : Ok cfg candidates ⟨[], [], [], []⟩ :=
  ⟨rfl, fun _ _ => rfl, nofun, nofun⟩

theorem countP_mono (l : List (ℚ × String)) {t u : ℚ} (h : t ≤ u) :
    l.countP (·.1 ≤ t) ≤ l.countP (·.1 ≤ u) := by
  apply countP_mono_left
  intro x _ hx
  simp only [decide_eq_true_eq] at hx ⊢
  exact hx.trans h

theorem keys_put_eq {β γ : Type} {l : List (String × β)}
    {l' : List (String × γ)} (h : l.map (·.1) = l'.map (·.1)) (k : String)
    (v : β) (w : γ) : (put k v l).map (·.1) = (put k w l').map (·.1) := by
  rw [keys_put, keys_put, h]

theorem Ok.step (h : c.Ok cfg candidates) (p : Payable) :
    (Cut.step cfg candidates c p).Ok cfg candidates := by
  unfold Cut.step
  dsimp only
  generalize hu : max ((c.holdEnd.lookup p.info.hotkey).getD 0)
    (p.info.receivedAt + cfg.params.holdSeconds) = u
  have hrec : p.info.receivedAt + cfg.params.holdSeconds ≤ u :=
    hu ▸ le_max_right _ _
  have hold : ∀ t, c.holdEnd.lookup p.info.hotkey = some t → t ≤ u := by
    intro t ht
    rw [ht] at hu
    exact hu ▸ le_max_left _ _
  split
  · rename_i hgrown
    split
    · -- nothing taken on yet, and the oldest does not fit
      rename_i hempty
      have htaken : c.taken = [] := by
        have hk := h.keys
        rw [hempty, map_nil, map_eq_nil_iff] at hk
        exact hk
      have hhor : ∀ k, c.horizon.lookup k = none :=
        fun k => h.fresh k (by rw [hempty]; rfl)
      have hcount : cfg.passSiblings <
          (candidates p.info.hotkey).countP (·.1 ≤ u) := by
        simpa [htaken] using hgrown
      have hlen := hcount.trans_le
        (countP_le_length (l := candidates p.info.hotkey))
      obtain ⟨x, hx⟩ : ∃ x,
          (candidates p.info.hotkey)[cfg.passSiblings]? = some x :=
        ⟨_, getElem?_eq_getElem hlen⟩
      rw [hx]
      refine ⟨keys_put_eq h.keys _ _ _, ?_, ?_, ?_⟩
      · intro k hk
        rw [lookup_put] at hk ⊢
        by_cases hkp : k = p.info.hotkey
        · simp [hkp] at hk
        · rw [if_neg hkp]
          exact hhor k
      · intro k t ht
        rcases lookup_put_some ht with ⟨rfl, rfl⟩ | ⟨-, ht⟩
        · refine .inr ⟨x, hx, ?_, ?_, hcount⟩
          · rw [lookup_put, if_pos rfl]
          · rw [lookup_put, if_pos rfl]
        · rw [hempty] at ht
          exact nomatch ht
      · intro y hy
        obtain ⟨-, t, ht, -⟩ := h.kept y hy
        rw [hempty] at ht
        exact nomatch ht
    · exact h
  · rename_i hgrown
    -- a hotkey cut short stays so: its siblings do not fit
    have hnone : c.horizon.lookup p.info.hotkey = none := by
      cases hl : c.holdEnd.lookup p.info.hotkey with
      | none => exact h.fresh _ hl
      | some t =>
        rcases h.taken _ t hl with ⟨hn, -⟩ | ⟨x, -, -, -, hlt⟩
        · exact hn
        · have hmono := countP_mono (candidates p.info.hotkey) (hold t hl)
          omega
    refine ⟨keys_put_eq h.keys _ _ _, ?_, ?_, ?_⟩
    · intro k hk
      rw [lookup_put] at hk
      by_cases hkp : k = p.info.hotkey
      · simp [hkp] at hk
      · rw [if_neg hkp] at hk
        exact h.fresh k hk
    · intro k t ht
      rcases lookup_put_some ht with ⟨rfl, rfl⟩ | ⟨hkp, ht⟩
      · refine .inl ⟨hnone, ?_⟩
        rw [lookup_put, if_pos rfl]
      · rw [lookup_put, if_neg hkp]
        exact h.taken k t ht
    · intro y hy
      rcases mem_snoc.1 hy with hy | rfl
      · obtain ⟨hn, t, ht, hle⟩ := h.kept y hy
        refine ⟨hn, ?_⟩
        by_cases hk : y.info.hotkey = p.info.hotkey
        · refine ⟨u, ?_, hle.trans (hold t (hk ▸ ht))⟩
          rw [lookup_put, if_pos hk]
        · refine ⟨t, ?_, hle⟩
          rw [lookup_put, if_neg hk, ht]
      · refine ⟨hnone, u, ?_, hrec⟩
        rw [lookup_put, if_pos rfl]

theorem ok_cutSiblings (unaudited : List Payable) :
    (cutSiblings cfg candidates unaudited).Ok cfg candidates :=
  foldlRecOn _ _ ok_nil fun _ hc p _ => hc.step p

theorem Ok.inside (h : c.Ok cfg candidates) {p : Payable}
    (hp : p ∈ c.kept) : c.inside cfg p.info.hotkey p.info.receivedAt := by
  obtain ⟨hn, t, ht, hle⟩ := h.kept p hp
  rw [Cut.inside, hn, ht]
  simpa using hle

/-- Every candidate received inside the hold of a record in the window is
decided in this pass. -/
theorem Ok.mem_siblings (h : c.Ok cfg candidates) {hotkey : String}
    {receivedAt : ℚ}
    (hsorted : (candidates hotkey).Pairwise fun a b => a.1 ≤ b.1)
    (hin : c.inside cfg hotkey receivedAt) {x : ℚ × String}
    (hx : x ∈ candidates hotkey)
    (hle : x.1 ≤ receivedAt + cfg.params.holdSeconds) :
    (hotkey, x.2) ∈ c.siblings candidates := by
  have hend : ∃ t, c.holdEnd.lookup hotkey = some t := by
    cases hl : c.holdEnd.lookup hotkey with
    | some t => exact ⟨t, rfl⟩
    | none => simp [Cut.inside, h.fresh hotkey hl, hl] at hin
  obtain ⟨t, ht⟩ := hend
  suffices hmem : x ∈ (candidates hotkey).take
      ((c.taken.lookup hotkey).getD 0) by
    refine mem_flatMap.2 ⟨(hotkey, t), mem_of_lookup ht, ?_⟩
    exact List.mem_map_of_mem hmem
  rcases h.taken hotkey t ht with ⟨hn, htk⟩ | ⟨y, hy, hhor, htk, -⟩
  · have hle' : receivedAt + cfg.params.holdSeconds ≤ t := by
      simpa [Cut.inside, hn, ht] using hin
    rw [htk, getD_some]
    exact mem_take_countP hsorted hx (hle.trans hle')
  · have hlt : receivedAt + cfg.params.holdSeconds < y.1 := by
      simpa [Cut.inside, hhor] using hin
    rw [htk, getD_some]
    exact mem_take_of_lt hsorted hy hx (hle.trans_lt hlt)

end Cut

-- ===== the candidates

namespace Auditor

variable {cfg : AuditorConfig} {s : Auditor} {inPass : List String}

theorem candidates_sorted (s : Auditor) (inPass : List String)
    (hotkey : String) :
    (s.candidates inPass hotkey).Pairwise fun a b => a.1 ≤ b.1 := by
  refine (pairwise_orderBy (fun c : ℚ × String => toLex c) _).imp ?_
  intro a b hab
  exact Prod.Lex.monotone_fst _ _ hab

/-- A candidate is a known record of its hotkey. -/
theorem of_mem_candidates (h : s.Inv cfg) {hotkey : String}
    {x : ℚ × String} (hx : x ∈ s.candidates inPass hotkey) :
    ∃ m, s.metas.lookup x.2 = some m ∧ m.hotkey = hotkey := by
  rw [candidates, (perm_sortBy _ _).mem_iff, mem_filterMap] at hx
  obtain ⟨sid, hsid, hx⟩ := hx
  rw [mem_sortSet, Finset.mem_image] at hsid
  obtain ⟨⟨k, y⟩, hp, rfl⟩ := hsid
  obtain ⟨hp, hk⟩ := Finset.mem_filter.1 hp
  obtain ⟨-, m, hm, hmk⟩ := (h.unjudged k y).1 hp
  split at hx
  · exact nomatch hx
  · rw [hm, map_some, some_inj] at hx
    subst hx
    exact ⟨m, hm, hmk.trans hk⟩

/-- A known record without a verdict is in the pass, undrawn, or a
candidate. -/
theorem mem_candidates (h : s.Inv cfg) {sid : String} {m : Meta}
    (hm : s.metas.lookup sid = some m) (hj : sid ∉ s.judged) :
    sid ∈ inPass ∨ sid ∈ s.undrawn ∨
      (m.receivedAt, sid) ∈ s.candidates inPass m.hotkey := by
  by_cases hout : sid ∈ inPass ∨ sid ∈ s.undrawn
  · exact hout.imp_right .inl
  · refine .inr (.inr ?_)
    have hp : (m.hotkey, sid) ∈ s.unjudged :=
      (h.unjudged _ _).2 ⟨hj, m, hm, rfl⟩
    rw [candidates, (perm_sortBy _ _).mem_iff, mem_filterMap]
    refine ⟨sid, ?_, ?_⟩
    · rw [mem_sortSet, Finset.mem_image]
      exact ⟨(m.hotkey, sid), Finset.mem_filter.2 ⟨hp, rfl⟩, rfl⟩
    · rw [if_neg hout, hm]
      rfl

end Auditor

-- ===== the phases of a pass

section Phases

variable {cfg : AuditorConfig} {inp : PassInput} {s : Auditor} {d : Decided}

/-- Once the ids known without metadata are read, every known id has a
verdict, metadata, or is unreadable. -/
theorem Auditor.heard_of_known {sid : String} (h : sid ∈ s.known) :
    (s.readAll inp.siblingReads s.unread).Heard sid := by
  have hold : s.Heard sid → (s.readAll inp.siblingReads s.unread).Heard sid :=
    fun hh => hh.readAll _ _
  rw [known, Finset.mem_union, Finset.mem_union] at h
  rcases h with (h | h) | h
  · obtain ⟨x, hx, rfl⟩ := List.mem_map.1 (List.mem_toFinset.1 h)
    exact hold (.inr (.inr (isSome_lookup_of_mem hx)))
  · by_cases hj : sid ∈ s.judged
    · exact hold (.inl hj)
    by_cases hm : (s.metas.lookup sid).isSome
    · exact hold (.inr (.inr hm))
    refine heard_readAll s _ ?_
    rw [unread, mem_sortSet, Finset.mem_filter]
    have hnone : s.metas.lookup sid = none :=
      not_isSome_iff_eq_none.1 hm
    exact ⟨Finset.mem_union_left _ h, isNone_iff_eq_none.2 hnone, hj⟩
  · exact hold (.inr (.inl h))

/-- The batch is read and decided. -/
theorem decideBatch_spec (inp : PassInput) (h : s.Inv cfg) :
    (decideBatch cfg inp s).1.Ok cfg inp ∧
      ∀ sid ∈ (decideBatch cfg inp s).2, ∃ m,
        (decideBatch cfg inp s).1.auditor.metas.lookup sid = some m ∧
        (inp.Sampled cfg m.hotkey →
          (decideBatch cfg inp s).1.Treated cfg sid m) := by
  unfold decideBatch
  dsimp only
  generalize hs' : s.readAll inp.reads ((inp.ids.filter (· ∉ s.judged)).filter
      fun sid => (s.metas.lookup sid).isNone) = t
  have ht : t.Inv cfg := hs' ▸ h.readAll _ _
  generalize hk : (inp.ids.filter (· ∉ s.judged)).dedup.filter
    (fun sid => (t.metas.lookup sid).isSome) = known
  have hknown : ∀ sid ∈ known, (t.metas.lookup sid).isSome := by
    intro sid hsid
    rw [← hk] at hsid
    exact (mem_filter.1 hsid).2
  have hstart : Decided.Ok cfg inp ⟨t, [], [], [], []⟩ := ⟨ht, nofun, nofun⟩
  obtain ⟨hok, haft, -, htr⟩ := Decided.added_foldl (g := fun x : String => x)
    (f := decideKnown cfg inp) (l := known) (I := fun _ => True)
    (fun e b he hem hb => ⟨Decided.added_decideKnown he (by
      rw [hem]
      exact hknown b hb), id⟩) hstart trivial
  refine ⟨hok, fun sid hsid => ?_⟩
  obtain ⟨m, hm⟩ := isSome_iff_exists.1 (hknown sid hsid)
  refine ⟨m, ?_, htr sid hsid m hm⟩
  rw [haft.keeps.metas]
  exact hm

theorem decideSiblings_spec (hok : d.Ok cfg inp) {known : List String}
    (hknown : ∀ sid ∈ known, ∃ m, d.auditor.metas.lookup sid = some m ∧
      (inp.Sampled cfg m.hotkey → d.Treated cfg sid m)) :
    (decideSiblings cfg inp d known).Ok cfg inp ∧
      (decideSiblings cfg inp d known).Covers cfg d.auditor.known := by
  unfold decideSiblings
  by_cases hu : d.unaudited = []
  · rw [if_pos hu]
    refine ⟨hok, fun p hp => ?_⟩
    rw [hu] at hp
    exact nomatch hp
  rw [if_neg hu]
  dsimp only
  -- the auditor once the siblings are collected
  generalize hr : d.auditor.readAll inp.siblingReads d.auditor.unread = r
  have hrg : d.auditor.Grows r := hr ▸ grows_readAll _ _ _
  have hri : r.Inv cfg := hr ▸ hok.inv.readAll _ _
  generalize hs : inp.during.foldl heed r = s
  have hrs : r.Keeps cfg s := hs ▸ keeps_heedAll _ _
  have hsi : s.Inv cfg := hrs.inv hri
  have hmono : ∀ sid m, d.auditor.metas.lookup sid = some m →
      s.metas.lookup sid = some m := by
    intro sid m hm
    rw [hrs.metas]
    exact hrg.metas sid m hm
  generalize hc : cutSiblings cfg (s.candidates known) d.unaudited = c
  have hcok : c.Ok cfg (s.candidates known) := hc ▸ Cut.ok_cutSiblings _
  generalize hstart : ({ d with
    auditor := s
    unaudited := d.unaudited.filter (· ∈ c.kept) } : Decided) = d₀
  have hok₀ : d₀.Ok cfg inp := by
    subst hstart
    refine ⟨hsi, fun sid hsid => ?_, fun p hp => ?_⟩
    · obtain ⟨m, hm⟩ := isSome_iff_exists.1 (hok.audit sid hsid)
      exact isSome_iff_exists.2 ⟨m, hmono sid m hm⟩
    · have hp' := hok.unaudited p (mem_filter.1 hp).1
      exact ⟨hmono _ _ hp'.1, hp'.2⟩
  have hs₀ : d₀.auditor = s := hstart ▸ rfl
  have hsib : ∀ x ∈ c.siblings (s.candidates known),
      ∃ m, s.metas.lookup x.2 = some m ∧ m.hotkey = x.1 := by
    intro x hx
    obtain ⟨h, -, hx⟩ := mem_flatMap.1 hx
    obtain ⟨y, hy, rfl⟩ := List.mem_map.1 hx
    exact of_mem_candidates hsi (mem_of_mem_take hy)
  have hstartIn : ∀ p ∈ d₀.unaudited,
      c.inside cfg p.info.hotkey p.info.receivedAt := by
    intro p hp
    rw [← hstart] at hp
    exact hcok.inside (by simpa using (mem_filter.1 hp).2)
  -- payable records are inside the window, all along the loop
  obtain ⟨hok', haft, hin, htr⟩ := Decided.added_foldl
    (g := fun x : String × String => x.2)
    (f := decideSibling cfg inp c) (l := c.siblings (s.candidates known))
    (I := fun e => ∀ p ∈ e.unaudited,
      c.inside cfg p.info.hotkey p.info.receivedAt)
    (fun e b he hem hb => by
      obtain ⟨m, hm, hmk⟩ := hsib b hb
      rw [← hs₀, ← hem] at hm
      refine ⟨Decided.added_decideSibling he c hm hmk, fun h p hp => ?_⟩
      unfold decideSibling at hp
      rw [hm] at hp
      dsimp only at hp
      split at hp
      · exact h p hp
      · exact h p hp
      · split at hp
        · rcases mem_snoc.1 hp with hp | rfl
          · exact h p hp
          · rwa [hmk]
        · exact h p hp
      · exact h p hp
      · exact h p hp) hok₀ hstartIn
  refine ⟨hok', fun p hp => ⟨fun sid hsid => ?_, fun sid m hm hj hk hle => ?_⟩⟩
  · apply haft.keeps.heard
    rw [hs₀]
    apply hrs.heard
    rw [← hr]
    exact heard_of_known hsid
  · have hins := hin p hp
    have hms : s.metas.lookup sid = some m := by
      rw [← hs₀, ← haft.keeps.metas]
      exact hm
    have hjs : sid ∉ s.judged := by
      rw [← hs₀]
      exact fun hx => hj (haft.keeps.judged hx)
    have hsampled : inp.Sampled cfg m.hotkey := by
      rw [hk]
      exact (hok'.unaudited p hp).2.1
    rcases mem_candidates hsi hms hjs with hk' | hun | hcand
    · -- decided in the batch
      obtain ⟨m', hm', htr'⟩ := hknown sid hk'
      have hmm : m' = m :=
        some_inj.1 ((hmono sid m' hm').symm.trans hms)
      subst hmm
      have hd := htr' hsampled
      refine Or.imp (fun x => haft.audit ?_)
        (Or.imp_left fun x => haft.undecided ?_) hd
      · rw [← hstart]
        exact x
      · rw [← hstart]
        exact x
    · obtain ⟨m', hm', hsel⟩ := hsi.undrawn sid hun
      obtain rfl : m' = m := some_inj.1 (hm'.symm.trans hms)
      exact .inr (.inr hsel)
    · -- decided as a sibling
      rw [hk] at hcand
      have hmem := hcok.mem_siblings (candidates_sorted _ _ _) hins
        hcand hle
      exact htr _ hmem m (by rw [hs₀]; exact hms) hsampled

theorem takeAudits_append (metas : List (String × Meta)) (order : List String)
    (rows tokens : Nat) : takeAudits cfg metas order rows tokens ++
      order.drop (takeAudits cfg metas order rows tokens).length = order := by
  induction order generalizing rows tokens with
  | nil => rfl
  | cons sid order ih =>
    unfold takeAudits
    dsimp only
    split
    · rfl
    · rw [length_cons, drop_succ_cons, cons_append, ih]

/-- An audit is made in this pass or put off. -/
theorem kept_or_later (cfg : AuditorConfig) (metas : List (String × Meta))
    {audit : List String} {sid : String} (h : sid ∈ audit) :
    sid ∈ takeAudits cfg metas (auditOrder metas audit) 0 0 ∨
      sid ∈ (auditOrder metas audit).drop
        (takeAudits cfg metas (auditOrder metas audit) 0 0).length := by
  rw [← mem_append, takeAudits_append, auditOrder, (perm_sortBy _ _).mem_iff]
  exact mem_dedup.2 h

/-- An audit put off bounds what its hotkey is paid. -/
theorem lookup_deferredFrom {metas : List (String × Meta)}
    {later : List String} {sid : String} {m : Meta} (h : sid ∈ later)
    (hm : metas.lookup sid = some m) :
    ∃ t, (deferredFrom metas later).lookup m.hotkey = some t ∧
      t ≤ m.receivedAt := by
  unfold deferredFrom
  generalize hf : (fun (t : List (String × ℚ)) (sid : String) =>
    match metas.lookup sid with
    | none => t
    | some m =>
      put m.hotkey (match t.lookup m.hotkey with
        | none => m.receivedAt
        | some u => min u m.receivedAt) t) = f
  -- a bound only goes down
  have hdown : ∀ (t : List (String × ℚ)) x k u, t.lookup k = some u →
      ∃ u', (f t x).lookup k = some u' ∧ u' ≤ u := by
    intro t x k u hu
    rw [← hf]
    dsimp only
    split
    · exact ⟨u, hu, le_rfl⟩
    · rename_i m' _
      rw [lookup_put]
      by_cases hk : k = m'.hotkey
      · rw [if_pos hk, ← hk, hu]
        exact ⟨_, rfl, min_le_left _ _⟩
      · rw [if_neg hk]
        exact ⟨u, hu, le_rfl⟩
  refine foldl_sets (P := fun t : List (String × ℚ) =>
    ∃ u, t.lookup m.hotkey = some u ∧ u ≤ m.receivedAt) ?_ h ?_ []
  · rintro t x ⟨u, hu, hle⟩
    obtain ⟨u', hu', hle'⟩ := hdown t x _ u hu
    exact ⟨u', hu', hle'.trans hle⟩
  · intro t
    rw [← hf]
    dsimp only
    rw [hm]
    rw [lookup_put, if_pos rfl]
    refine ⟨_, rfl, ?_⟩
    split
    · exact le_rfl
    · exact min_le_right _ _

/-- Reading the audits' records and what happens meanwhile keeps the
auditor. -/
theorem planPass_keeps (hok : d.Ok cfg inp) (read : String → Bool) :
    d.auditor.Keeps cfg (planPass cfg inp d read).auditor := by
  have h₁ : d.auditor.Keeps cfg (inp.after.foldl heed d.auditor) :=
    keeps_heedAll _ _
  unfold planPass
  dsimp only
  generalize inp.after.foldl heed d.auditor = s at h₁
  generalize (auditOrder s.metas d.audit).drop
    (takeAudits cfg s.metas (auditOrder s.metas d.audit) 0 0).length = later
  have h₂ : s.Keeps cfg { s with queued := s.queued ∪ later.toFinset } :=
    ⟨fun h => ⟨h.unjudged, h.undrawn⟩, subset_rfl, rfl, fun _ h => h⟩
  generalize ({ s with queued := s.queued ∪ later.toFinset } : Auditor) = t
    at h₂
  have h₁₂ := h₁.trans h₂
  generalize hids : ((d.audit.filter (· ∈ takeAudits cfg s.metas
    (auditOrder s.metas d.audit) 0 0)).filter fun sid => !read sid) = ids
  have hsome : ∀ x ∈ ids, (t.metas.lookup x).isSome := by
    intro x hx
    rw [← hids] at hx
    rw [h₁₂.metas]
    exact hok.audit x (mem_filter.1 (mem_filter.1 hx).1).1
  have h₃ : t.Keeps cfg (t.readAll inp.auditReads ids) :=
    ⟨fun h => h.readAll _ _, (grows_readAll _ _ _).judged,
      metas_readAll hsome, fun _ h => h.readAll _ _⟩
  exact (h₁₂.trans h₃).trans (keeps_heedAll _ _)

/-- What a record the plan pays has behind it. -/
theorem planPass_spec (hok : d.Ok cfg inp) (read : String → Bool)
    {p : Payable} (hp : p ∈ (planPass cfg inp d read).early ∨
      p ∈ (planPass cfg inp d read).late) :
    p ∈ d.unaudited ∧ (planPass cfg inp d read).auditor.unreadable = ∅ ∧
      ∀ sid m, d.Treated cfg sid m →
        d.auditor.metas.lookup sid = some m → m.hotkey = p.info.hotkey →
        m.receivedAt ≤ p.info.receivedAt + cfg.params.holdSeconds →
        cfg.selected sid m = false ∨
          ((sid, m) ∈ (planPass cfg inp d read).pairs ∧
            p ∉ (planPass cfg inp d read).early) := by
  have hkeeps := planPass_keeps hok read
  have hafter : d.auditor.Keeps cfg
      (inp.after.foldl heed d.auditor) := keeps_heedAll _ _
  unfold planPass at hkeeps hp ⊢
  dsimp only at hkeeps hp ⊢
  generalize inp.after.foldl heed d.auditor = s at hafter hkeeps hp ⊢
  generalize hkept : takeAudits cfg s.metas (auditOrder s.metas d.audit) 0 0
    = kept at hkeeps hp ⊢
  generalize hlater : (auditOrder s.metas d.audit).drop kept.length = later
    at hkeeps hp ⊢
  generalize inp.closing.foldl heed (readAll inp.auditReads
      ((d.audit.filter (· ∈ kept)).filter fun sid => !read sid)
      { s with queued := s.queued ∪ later.toFinset }) = t at hkeeps hp ⊢
  -- early or late, the record met every condition
  have hpay : ∀ {q : Payable → Bool} {r : Payable → Bool},
      p ∈ (d.unaudited.filter q).filter r → p ∈ d.unaudited ∧ q p = true :=
    fun h => mem_filter.1 (mem_filter.1 h).1
  have hp' := hp.elim hpay hpay
  obtain ⟨hmem, hcond⟩ := hp'
  simp only [decide_eq_true_eq] at hcond
  obtain ⟨hread, herr, -, hdef, hund⟩ := hcond
  refine ⟨hmem, hread, fun sid m htr hm hk hle => ?_⟩
  rcases htr with haud | hundec | hsel
  · have hms : s.metas.lookup sid = some m := by rw [hafter.metas, hm]
    have hmt : t.metas.lookup sid = some m := by rw [hkeeps.metas, hm]
    rcases kept_or_later cfg s.metas haud with hin | hlate
    · rw [hkept] at hin
      have hina : sid ∈ d.audit.filter (· ∈ kept) :=
        mem_filter.2 ⟨haud, by simpa using hin⟩
      refine .inr ⟨?_, ?_⟩
      · by_cases hr : read sid || (inp.auditReads sid).isSome
        · refine mem_filterMap.2 ⟨sid, mem_filter.2 ⟨hina, hr⟩, ?_⟩
          rw [hmt]
          rfl
        · -- its record could not be read
          refine absurd (mem_filterMap.2 ⟨sid, ?_, ?_⟩) herr
          · exact mem_filter.2 ⟨hina, by simpa using hr⟩
          · rw [hmt, ← hk]
            rfl
      · intro hearly
        have hout := (mem_filter.1 hearly).2
        simp only [decide_eq_true_eq] at hout
        refine hout (mem_filterMap.2 ⟨sid, hina, ?_⟩)
        rw [hmt, ← hk]
        rfl
    · rw [hkept, hlater] at hlate
      obtain ⟨u, hu, hule⟩ := lookup_deferredFrom hlate hms
      rw [← hk, hu] at hdef
      refine absurd ?_ hdef
      simpa using hule.trans hle
  · exact absurd hle (hund _ hundec hk)
  · exact .inl hsel

end Phases

-- ===== every pass of every run

/-- What happens to an auditor. -/
inductive RunEvent
  | start (submitted judged : List String) (reads : String → Option Meta)
  | other (e : Event)
  | pass (inp : PassInput)

def Auditor.step : RunEvent → Auditor
  | .start submitted judged reads => s.start submitted judged reads
  | .other e => s.heed e
  | .pass inp => (judgeOnce cfg inp s).auditor

section Run

variable {cfg : AuditorConfig} {inp : PassInput} {s : Auditor}

/-- The decisions of a pass, with what they rest on. -/
theorem pass_decided (inp : PassInput) (h : s.Inv cfg) :
    ∃ d, ∃ read : String → Bool, ∃ t : Auditor,
      judgeOnce cfg inp s = writePass inp (planPass cfg inp d read) t.known ∧
      d.Ok cfg inp ∧ d.Covers cfg t.known := by
  obtain ⟨hok, hknown⟩ := decideBatch_spec inp h
  have hkb : (decideBatch cfg inp s).1.auditor.Keeps cfg
      (inp.before.foldl heed (decideBatch cfg inp s).1.auditor) :=
    keeps_heedAll _ _
  have hok' := hok.keeps hkb
  obtain ⟨hokd, hd⟩ := decideSiblings_spec hok' fun sid hsid => by
    obtain ⟨m, hm, htr⟩ := hknown sid hsid
    exact ⟨m, by rw [hkb.metas]; exact hm, htr⟩
  exact ⟨_, _, _, rfl, hokd, hd⟩

theorem writePass_keeps (plan : Plan) (collected : Finset String) :
    plan.auditor.Keeps cfg (writePass inp plan collected).auditor :=
  keeps_foldl keeps_markJudged _ _

theorem Auditor.Inv.step (h : s.Inv cfg) (e : RunEvent) :
    (s.step cfg e).Inv cfg := by
  cases e with
  | start submitted judged reads => exact h.start submitted judged reads
  | other e => exact (keeps_heed s e).inv h
  | pass inp =>
    obtain ⟨d, read, t, hlog, hok, -⟩ := pass_decided inp h
    rw [Auditor.step, hlog]
    exact (writePass_keeps _ _).inv ((planPass_keeps hok read).inv hok.inv)

theorem Auditor.inv_run (cfg : AuditorConfig) (events : List RunEvent) :
    (events.foldl (step cfg) .init).Inv cfg :=
  foldlRecOn _ _ (inv_init cfg) fun _ hs e _ => hs.step e

end Run

/-- After any run, in any pass: a record `x` that is given a verdict
"passed, not audited" is of a hotkey in the sampled state, its own draw
did not select it, and the pass began a hold and the slack after its
receipt; no pending record is unreadable; and every record known when the
siblings were collected has a verdict, or was read, and then, if it is of
`x`'s hotkey and was received inside `x`'s hold, its draw did not select
it or this pass audited it, without an error of ours and without a
confirmed failure. -/
theorem pays_unaudited (cfg : AuditorConfig) (events : List RunEvent)
    (inp : PassInput) (x : Payable)
    (hx : x ∈ (judgeOnce cfg inp
      (events.foldl (step cfg) .init)).paid) :
    let log := judgeOnce cfg inp (events.foldl (step cfg) .init)
    effectiveState (inp.state x.info.hotkey) inp.now cfg.params = .sampled ∧
    cfg.selected x.sid x.info = false ∧
    x.info.receivedAt + cfg.params.holdSeconds + cfg.acceptSlack ≤ inp.now ∧
    log.unreadable = ∅ ∧
    ∀ sid ∈ log.collected, sid ∈ log.judged ∨
      ∃ m, log.auditor.metas.lookup sid = some m ∧ (m.hotkey = x.info.hotkey →
          m.receivedAt ≤ x.info.receivedAt + cfg.params.holdSeconds →
          cfg.selected sid m = false ∨
            ∃ r, (sid, r) ∈ log.audited ∧ r ≠ .error ∧ r ≠ .failed true) := by
  have hinv := inv_run cfg events
  obtain ⟨d, read, t, hlog, hok, hd⟩ := pass_decided inp hinv
  rw [hlog] at hx ⊢
  generalize hplan : planPass cfg inp d read = plan at hx ⊢
  have hkp : d.auditor.Keeps cfg plan.auditor := hplan ▸ planPass_keeps hok read
  -- the late ones are those the audits let through
  have hsplit : x ∈ plan.early ∨ (x ∈ plan.late ∧
      (∀ y ∈ plan.pairs, y.2.hotkey = x.info.hotkey →
        inp.audits y.1 ≠ .error ∧ inp.audits y.1 ≠ .failed true)) := by
    rcases mem_append.1 hx with hx | hx
    · exact .inl hx
    · right
      split at hx
      · exact nomatch hx
      · obtain ⟨hlate, hcond⟩ := mem_filter.1 hx
        simp only [decide_eq_true_eq] at hcond
        obtain ⟨hfail, herr⟩ := hcond
        refine ⟨hlate, fun y hy hyk => ⟨fun he => herr ?_, fun hf => hfail ?_⟩⟩
        · refine mem_append_right _ (List.mem_map.2 ⟨y, ?_, hyk⟩)
          exact mem_filter.2 ⟨hy, by simp [he]⟩
        · exact List.mem_map.2 ⟨y, mem_filter.2 ⟨hy, by simp [hf]⟩, hyk⟩
  have hspec := planPass_spec hok read (p := x) (by
    rw [hplan]
    exact hsplit.imp_right And.left)
  rw [hplan] at hspec
  obtain ⟨hmem, hread, hpairs⟩ := hspec
  obtain ⟨-, hsampled, hsel, hpayable⟩ := hok.unaudited x hmem
  refine ⟨hsampled, hsel, hpayable, hread, fun sid hsid => ?_⟩
  obtain ⟨hheard, htreated⟩ := hd x hmem
  by_cases hj : sid ∈ plan.auditor.judged
  · exact .inl hj
  right
  rcases hkp.heard sid (hheard sid hsid) with h | h | h
  · exact absurd h hj
  · rw [hread] at h
    exact absurd h (Finset.notMem_empty _)
  · obtain ⟨m, hm⟩ := isSome_iff_exists.1 h
    have hmd : d.auditor.metas.lookup sid = some m := by
      rw [← hkp.metas, hm]
    refine ⟨m, ?_, fun hk hle => ?_⟩
    · have hkw : plan.auditor.Keeps cfg
          (writePass inp plan t.known).auditor := writePass_keeps _ _
      rw [hkw.metas, hm]
    · have htr := htreated sid m hmd (fun hx => hj (hkp.judged hx)) hk hle
      rcases hpairs sid m htr hmd hk hle with hs | ⟨hpair, hnot⟩
      · exact .inl hs
      · obtain ⟨-, hok⟩ := hsplit.resolve_left hnot
        refine .inr ⟨inp.audits sid, ?_, hok (sid, m) hpair hk⟩
        exact List.mem_map.2 ⟨(sid, m), hpair, rfl⟩

/-- A job that audits half, with a hold of ten seconds, where the draw
selects `b` alone. -/
def sampledJob : AuditorConfig where
  params := ⟨1 / 2, 1, 10, 5, 3, 5, 5⟩
  acceptSlack := 1
  digest := fun _ sid => if sid = "b" then 0 else 2 ^ 255
  randomness := fun _ => ""
  roundAt := fun t => if t < 15 then 0 else 5
  beacon := true
  passSiblings := 10
  passAuditRows := 10
  passAuditTokens := 1000

/-- Four records of one hotkey. -/
def fourRecords (sid : String) : Option Meta :=
  (["a", "b", "c", "d"].zip [1, 5, 12, 13]).lookup sid |>.map
    fun t => ⟨"miner", t, 7⟩

/-- A pass over `a` in which its sibling `b` is audited and passes. -/
def payingPass : PassInput where
  now := 20
  ids := ["a"]
  reads := fourRecords
  states := fun _ => { auditedPassed := 1 }
  drand := fun _ => ⟨true, true⟩
  before := []
  covered := .all
  siblingReads := fourRecords
  during := []
  siblingDrand := fun _ => ⟨true, true⟩
  after := []
  auditReads := fourRecords
  closing := []
  coveredAgain := .all
  audits := fun _ => .passed
  auditRaises := false
  written := fun _ => true

def afterStart : List RunEvent :=
  [.start ["a", "b", "c", "d"] [] fourRecords]

/-- `a` is paid in that pass, and `b` was audited in it. -/
theorem pays_unaudited_sibling :
    ⟨"a", ⟨"miner", 1, 7⟩, some ⟨1, 1 / 2, false⟩⟩ ∈
        (judgeOnce sampledJob payingPass
          (afterStart.foldl (step sampledJob) .init)).paid ∧
      sampledJob.selected "a" ⟨"miner", 1, 7⟩ = false ∧
      (judgeOnce sampledJob payingPass
        (afterStart.foldl (step sampledJob) .init)).audited =
          [("b", .passed)] := by
  have hx : ⟨"a", ⟨"miner", 1, 7⟩, some ⟨1, 1 / 2, false⟩⟩ ∈
      (judgeOnce sampledJob payingPass
        (afterStart.foldl (step sampledJob) .init)).paid := by
    decide +kernel
  refine ⟨hx, ?_, by decide +kernel⟩
  exact (pays_unaudited sampledJob afterStart payingPass _ hx).2.1

end Reliquary.Audit
