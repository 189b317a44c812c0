/-
The payment ledger (`rl_ledger.py`): events become accruals, closed
periods become archives.

# What is modeled how

- Amounts, times and prices are rationals, in exact arithmetic: where
  the source sums with `fsum` this adds.
- The ledger's tables are in the lease book's file and written in its
  transactions, and the ledger keeps nothing else between two calls but
  the time of the last heartbeat. So a method is a function on the
  tables that may raise, and one that raises leaves them as they were
  (`ledgerStep`).
- `prices` is an object given to the ledger. Its prices are not negative
  and its targets are shares (`AsyncPriceController.__post_init__`).
- The clock is read again for each carry it weighs and for each fill; a
  reading is a parameter of its own (`Readings`).
- A dictionary is a keyed map. Its order is the order of insertion, which
  nothing here depends on: what leaves a method is sorted by key.

Beside the tables the world keeps what each archive was made of
(`Made`): the accruals, the carry and the fill it added up. No method
reads it.
-/
import Reliquary.Store.Run
import Reliquary.Rl.Submit
import Reliquary.Pay.Periods

namespace Reliquary.Pay

open Store Rl

-- ===== the tables

/-- Where an accrual stands. -/
inductive Status
  | accrued | settled | forfeited
  deriving DecidableEq, Repr

/-- The events that pay. -/
inductive PayKind
  | trained | firstScan
  deriving DecidableEq, Repr

/-- A row of `rl_accruals`. -/
structure Accrual where
  seq : Nat
  leaseId : String
  hotkey : String
  environment : String
  kind : PayKind
  at_ : ℚ
  period : Int
  matchedTokens : Int
  tokenPrice : ℚ
  amount : ℚ
  status : Status
  deriving DecidableEq, Repr

/-- A row of `rl_pay_carry`, keyed by hotkey and origin period. -/
abbrev CarryRow := (String × Int) × ℚ

/-- What is known of an archive's publication: 0, 1 and 2 in the table. -/
inductive Published
  | unconfirmed | confirmed | unattempted
  deriving DecidableEq, Repr

/-- What an archive says when carries are on. -/
structure CarryDoc where
  accruedFresh : ℚ
  carriedIn : ℚ
  carriedOut : ℚ
  carryPeriods : Nat
  deriving DecidableEq, Repr

/-- What it says of a period the trainer was down in. -/
structure OutageDoc where
  seconds : ℚ
  fraction : ℚ
  fill : ℚ
  deriving DecidableEq, Repr

/-- A period archive. -/
structure Archive where
  taskId : String
  workPeriod : Int
  entryPeriod : Int
  rewards : List (String × ℚ)
  accruedBy : List (String × ℚ)
  accruedTotal : ℚ
  scale : ℚ
  cap : ℚ
  groups : Nat
  matchedTokens : Int
  carry : Option CarryDoc
  envScale : Option (List (String × ℚ))
  outage : Option OutageDoc
  deriving DecidableEq, Repr

/-- A row of `rl_pay_periods`. -/
structure PeriodRow where
  workPeriod : Int
  entryPeriod : Int
  doc : Archive
  published : Published
  deriving DecidableEq, Repr

/-- The ledger's tables. -/
structure LedgerDb where
  cursor : Nat := 0
  accruals : List Accrual := []
  bans : List (String × ℚ) := []
  carry : List CarryRow := []
  periods : List PeriodRow := []
  beat : Option ℚ := none
  outages : List (ℚ × ℚ) := []
  deriving DecidableEq

/-- What an archive was made of. -/
structure Made where
  doc : Archive
  rows : List Accrual
  carried : List CarryRow
  fill : List (String × ℚ)
  deriving DecidableEq

/-- The tables, the last heartbeat written (in memory), and the history
of the archives. -/
structure LedgerWorld where
  db : LedgerDb := {}
  beatAt : Option ℚ := none
  made : List Made := []
  deriving DecidableEq

/-- The configuration, with what `__post_init__` checks. -/
structure LedgerConfig where
  taskId : String
  cap : ℚ
  floor : ℚ := 9 / 10
  referenceGroups : Nat := 200
  defaultGroupTokens : Nat := 16384
  slackS : ℚ := 120
  genesis : ℚ := periodEpoch
  envPayK : Option ℚ := none
  carryPeriods : Nat := 0
  carryMaxCaps : ℚ := 2
  outageFill : Bool := false
  outageGraceS : ℚ := 600
  outageMaxS : ℚ := 86400
  cap_fraction : 0 < cap ∧ cap ≤ 1
  floor_fraction : 0 ≤ floor ∧ floor ≤ 1 := by constructor <;> norm_num
  reference_pos : 0 < referenceGroups := by decide
  default_pos : 0 < defaultGroupTokens := by decide
  slack_nonneg : 0 ≤ slackS := by norm_num
  envPayK_pos : ∀ k ∈ envPayK, 0 < k := by simp
  carryMax_nonneg : 0 ≤ carryMaxCaps := by norm_num
  grace_pos : 0 < outageGraceS := by norm_num
  outageMax_nonneg : 0 ≤ outageMaxS := by norm_num

/-- The price controller as the ledger reads it. -/
structure LedgerPrices where
  tokenPrice : String → ℚ
  targets : List (String × ℚ)
  price_nonneg : ∀ env, 0 ≤ tokenPrice env
  target_nonneg : ∀ x ∈ targets, 0 ≤ x.2

/-- The clock's readings of one `settle`: at its start, for each carry of
each period, and for each fill. -/
structure Readings where
  now : ℚ
  carry : Int → CarryRow → ℚ
  fill : Int → ℚ

-- ===== accrual

/-- Matched tokens of a trained group's rollouts at or above the floor. -/
def paidTokens (detail : TrainingDetail) (floor : ℚ) : Int :=
  let counts := match detail.matchedTokens with
    | some counts => counts
    | none => (detail.rolloutMatch.zip detail.completionTokens).map
        fun mn => ⌊mn.1 * (mn.2 : ℚ)⌋
  (((detail.rolloutMatch.zip counts).filter fun mc =>
    decide (floor ≤ mc.1)).map fun mc => mc.2).sum

variable (config : LedgerConfig) (prices : LedgerPrices) (db : LedgerDb)

/-- The last archived work period. -/
def LedgerDb.last : Option Int :=
  (db.periods.map fun r => r.workPeriod).max?

/-- The period an accrual dated `at_` goes to (`_open_period`). -/
def openPeriod (at_ : ℚ) : Int :=
  let period := periodOf at_ config.genesis
  match db.last with
  | none => period
  | some last => max period (last + 1)

/-- Mean matched tokens of the env's last trained groups
(`_reference_tokens`). -/
def referenceTokens (environment : String) : ℚ :=
  let rows : List Int := (((db.accruals.filter fun r =>
    r.environment == environment && r.kind == .trained).insertionSort
      fun a b => b.seq ≤ a.seq).map fun r => r.matchedTokens).take
        config.referenceGroups
  if rows = [] then config.defaultGroupTokens
  else ((rows.sum : Int) : ℚ) / rows.length

/-- Is the hotkey banned at `at_` (`_banned`)? -/
def LedgerDb.banned (hotkey : String) (at_ : ℚ) : Bool :=
  match db.bans.lookup hotkey with
  | none => false
  | some til => decide (at_ < til)

/-- Insert an accrual, its key checked. -/
def insertAccrual (r : Accrual) (db : LedgerDb) : Except Err LedgerDb := do
  sqlInt r.period
  sqlInt r.matchedTokens
  if db.accruals.any fun r' => r'.seq == r.seq then .error .integrity
  else .ok { db with accruals := db.accruals ++ [r] }

/-- The accrual of an event that pays. -/
def accrualOf (config : LedgerConfig) (db : LedgerDb) (e : EventRow)
    (kind : PayKind) (environment : String) (tokens : Int)
    (price amount : ℚ) : Accrual where
  seq := e.seq
  leaseId := e.leaseId
  hotkey := e.hotkey
  environment := environment
  kind := kind
  at_ := e.at_
  period := openPeriod config db e.at_
  matchedTokens := tokens
  tokenPrice := price
  amount := amount
  status := if db.banned e.hotkey e.at_ then .forfeited else .accrued

/-- A ban: its end, never shortened, and what it forfeits. -/
def forfeitAll (hotkey : String) (til : ℚ) (db : LedgerDb) : LedgerDb :=
  { db with
    bans := put hotkey (match db.bans.lookup hotkey with
        | none => til
        | some u => max u til) db.bans
    accruals := updateWhere
      (fun r => r.hotkey == hotkey && r.status == .accrued)
      (fun r => { r with status := .forfeited }) db.accruals }

/-- One event. -/
def ingestOne (config : LedgerConfig) (prices : LedgerPrices)
    (groups : List GroupRow) (db : LedgerDb) (e : EventRow) :
    Except Err LedgerDb :=
  match e.kind with
  | .ban _ til => .ok (forfeitAll e.hotkey til db)
  | .trained detail =>
    let tokens := paidTokens detail config.floor
    let price := prices.tokenPrice detail.environment
    insertAccrual (accrualOf config db e .trained detail.environment
      tokens price (tokens * price)) db
  | .firstScan fraction _ =>
    match groups.find? fun g => g.leaseId == e.leaseId with
    | none => .error (.value "'NoneType' object is not subscriptable")
    | some g =>
      let price := prices.tokenPrice g.environment
      insertAccrual (accrualOf config db e .firstScan g.environment 0
        price (fraction * price * referenceTokens config db g.environment)) db
  | .untrained .. => .ok db
  | .firstScanForfeited .. => .ok db

/-- The events after the cursor, in order, up to `limit`. -/
def eventsAfter (stream : List EventRow) (limit : Int) : List EventRow :=
  sliceTo limit ((stream.filter fun e =>
    decide (db.cursor < e.seq)).insertionSort fun a b => a.seq ≤ b.seq)

/-- Consume the events after the cursor. -/
def ingest (stream : List EventRow) (groups : List GroupRow) (limit : Int)
    (db : LedgerDb) : Except Err LedgerDb := do
  let events := eventsAfter db stream limit
  match events.getLast? with
  | none => .ok db
  | some lastEvent =>
    let db ← events.foldlM (ingestOne config prices groups) db
    .ok { db with cursor := lastEvent.seq }

-- ===== outages

/-- The pieces of a span outside one downtime. -/
def cutDowntime (pieces : List (ℚ × ℚ)) (down : ℚ × ℚ) : List (ℚ × ℚ) :=
  pieces.flatMap fun ab =>
    [(ab.1, min ab.2 down.1), (max ab.1 down.2, ab.2)].filter fun p =>
      decide (p.1 < p.2)

/-- The trainer's outages (`_outages`): recorded and going on, less the
validator's own downtime, short pieces dropped, long ones cut. -/
def outagesAt (downtime : List (ℚ × ℚ)) (now : ℚ) : List (ℚ × ℚ) :=
  if config.outageFill = false then []
  else
    let spans := db.outages ++ match db.beat with
      | none => []
      | some last =>
        if config.outageGraceS < now - last then [(last, now)] else []
    let down := downtime.insertionSort fun a b =>
      a.1 < b.1 ∨ (a.1 = b.1 ∧ a.2 ≤ b.2)
    spans.flatMap fun span =>
      ((down.foldl cutDowntime [span]).filter fun ab =>
        decide (config.outageGraceS < ab.2 - ab.1)).map fun ab =>
          (ab.1, min ab.2 (ab.1 + config.outageMaxS))

/-- Seconds of the period the trainer was down (`_outage_seconds`). -/
def outageSeconds (period : Int) (outages : List (ℚ × ℚ)) : ℚ :=
  let stop := periodEnd period config.genesis
  let start := stop - periodSeconds
  let spans := ((outages.filter fun se =>
    decide (se.1 < stop) && decide (start < se.2)).map fun se =>
      (max se.1 start, min se.2 stop)).insertionSort fun a b =>
        a.1 < b.1 ∨ (a.1 = b.1 ∧ a.2 ≤ b.2)
  (spans.foldl (fun (acc : ℚ × ℚ) se =>
    if acc.2 < se.2 then (acc.1 + (se.2 - max se.1 acc.2), se.2)
    else acc) (0, start)).1

/-- Archives a fill is averaged over. -/
def outageReferencePeriods : Nat := 6

/-- The share of the recent mean rewards an outage is filled with
(`_outage_fill`). -/
def outageFillOf (fraction now : ℚ) : List (String × ℚ) :=
  let docs := (((db.periods.insertionSort fun a b =>
    b.workPeriod ≤ a.workPeriod).map fun r => r.doc).filter fun doc =>
      decide (((doc.outage.map fun o => o.fraction).getD 0) < 1 / 2)).take
        outageReferencePeriods
  let fraction := min 1 fraction
  let out := gather (fun hr : String × ℚ => hr.1)
    (fun hr => hr.2 * fraction / docs.length)
    (docs.flatMap fun doc => doc.rewards) []
  (out.filter fun ha => decide (0 < ha.2) && !db.banned ha.1 now).insertionSort
    fun a b => a.1 ≤ b.1

/-- A heartbeat is written at most this often. -/
def beatEveryS : ℚ := 10

def outageKeepS : ℚ := 7 * 86400

/-- The trainer is alive. -/
def trainerBeat (now : ℚ) (w : LedgerWorld) : LedgerWorld :=
  if config.outageFill = false then w
  else if ∃ at_ ∈ w.beatAt, 0 ≤ now - at_ ∧ now - at_ < beatEveryS then w
  else
    let spans := match w.db.beat with
      | none => w.db.outages
      | some last =>
        if config.outageGraceS < now - last then
          w.db.outages ++ [(last, now)]
        else w.db.outages
    { w with
      db := { w.db with
        beat := some (match w.db.beat with
          | none => now
          | some last => max last now)
        outages := deleteWhere (fun se => decide (se.2 < now - outageKeepS))
          spans }
      beatAt := some now }

-- ===== settlement

/-- The integers from `a` up to, not including, `b`. -/
def rangeFrom (a b : Int) : List Int :=
  (List.range (b - a).toNat).map fun i : Nat => a + (i : Int)

/-- The closed periods holding accruals. -/
def accruedPeriods (closed : Int) : List Int :=
  (db.accruals.filter fun r =>
    r.status == .accrued && decide (r.period ≤ closed)).map fun r => r.period

/-- Those after the last archive that hold outage time. -/
def outagePeriods (closed : Int) (outages : List (ℚ × ℚ)) : List Int :=
  outages.flatMap fun se =>
    let first := periodOf se.1 config.genesis
    let first := match db.last with
      | none => first
      | some last => max first (last + 1)
    rangeFrom first (min (periodOf se.2 config.genesis) closed + 1)

/-- Closed periods to archive, oldest first (`_due_periods`): while a
carry is pending, every one after the last archive. -/
def duePeriods (closed : Int) (outages : List (ℚ × ℚ)) : List Int :=
  let due := accruedPeriods db closed
    ++ outagePeriods config db closed outages
  let pending := if 0 < config.carryPeriods ∧ db.carry ≠ [] then
      let starts := due ++ (db.last.map fun last => last + 1).toList
      rangeFrom (starts.min?.getD closed) (closed + 1)
    else []
  (due ++ pending).dedup.insertionSort (· ≤ ·)

/-- The accruals a period's archive takes. -/
def openRows (period : Int) : List Accrual :=
  db.accruals.filter fun r => r.status == .accrued && r.period == period

/-- Per env of a period's rows: the factor holding its pay to its share
(`_env_scale`). -/
def envScale (rows : List Accrual) : List (String × ℚ) :=
  match config.envPayK with
  | none => []
  | some k =>
    ((gather (fun r : Accrual => r.environment) (fun r => r.amount) rows
      []).insertionSort fun a b => a.1 ≤ b.1).map fun et =>
        let limit := k * (prices.targets.lookup et.1).getD 0 * config.cap
        (et.1, if et.2 ≤ limit then 1
          else if 0 < et.2 then limit / et.2 else 1)

/-- A row's amount under the factors of its env. -/
def scaledAmount (scales : List (String × ℚ)) (r : Accrual) : ℚ :=
  r.amount * (scales.lookup r.environment).getD 1

/-- The carry a period takes in: what is too old, or of a banned hotkey,
burns (`_take_carry`). -/
def carriedIn (reads : Readings) (period : Int) : List CarryRow :=
  db.carry.filter fun c =>
    decide (c.1.2 < period) && decide (period - c.1.2 ≤ config.carryPeriods)
      && !db.banned c.1.1 (reads.carry period c)

/-- What stays of an origin that holds `held`, with `excess` to burn. -/
def burnFactor (excess held : ℚ) : ℚ :=
  if 0 < held then 1 - min excess held / held else 0

/-- The oldest carries are cut first. -/
def burnOrigin (acc : List CarryRow × ℚ) (origin : Int) : List CarryRow × ℚ :=
  if acc.2 ≤ 0 then acc
  else
    let held := total (acc.1.filter fun c => c.1.2 == origin)
    (acc.1.map fun c => if c.1.2 == origin then
        (c.1, c.2 * burnFactor acc.2 held) else c,
      acc.2 - min acc.2 held)

/-- What is carried out of a period, at most `most` in all. -/
def burnOldest (most : ℚ) (parts : List CarryRow) : List CarryRow :=
  (((parts.map fun c => c.1.2).dedup.insertionSort (· ≤ ·)).foldl
    burnOrigin (parts, total parts - most)).1

/-- The share `unpaid` of each hotkey's fresh accrual and of what it had
carried in. -/
def carryParts (period : Int) (rows : List Accrual)
    (scales : List (String × ℚ)) (carried : List CarryRow) (unpaid : ℚ) :
    List CarryRow :=
  gather (fun c : CarryRow => c.1) (fun c => c.2 * unpaid) carried
    (gather (fun r : Accrual => (r.hotkey, period))
      (fun r => scaledAmount scales r * unpaid) rows [])

/-- What a period carries out (`_carry`). -/
def carriedOut (period : Int) (rows : List Accrual) (scales : List (String × ℚ))
    (carried : List CarryRow) (unpaid : ℚ) : List CarryRow :=
  if config.carryPeriods = 0 then []
  else burnOldest (config.carryMaxCaps * config.cap)
    (carryParts period rows scales carried unpaid)

/-- What a period pays each hotkey before the cap. -/
def accruedBy (rows : List Accrual) (scales : List (String × ℚ))
    (carried : List CarryRow) (fill : List (String × ℚ)) : List (String × ℚ) :=
  gather Prod.fst Prod.snd fill
    (gather (fun c : CarryRow => c.1.1) (fun c => c.2) carried
      (gather (fun r : Accrual => r.hotkey) (scaledAmount scales) rows []))

/-- The share of it that is paid. -/
def scaleOf (all : ℚ) : ℚ :=
  if all ≤ config.cap then 1 else config.cap / all

/-- Sorted by key. -/
def byHotkey (t : List (String × ℚ)) : List (String × ℚ) :=
  t.insertionSort fun a b => a.1 ≤ b.1

/-- The archive of a period. -/
def archiveOf (period entry : Int) (rows : List Accrual)
    (carried : List CarryRow) (fill : List (String × ℚ)) (downS : ℚ) : Archive
    :=
  let scales := envScale config prices rows
  let accrued := accruedBy rows scales carried fill
  let fresh := (rows.map (scaledAmount scales)).sum
  let all := total accrued
  let scale := scaleOf config all
  { taskId := config.taskId
    workPeriod := period
    entryPeriod := entry
    rewards := byHotkey ((accrued.filter fun ha => decide (0 < ha.2)).map
      fun ha => (ha.1, ha.2 * scale))
    accruedBy := byHotkey accrued
    accruedTotal := all
    scale := scale
    cap := config.cap
    groups := rows.length
    matchedTokens := (rows.map fun r => r.matchedTokens).sum
    carry := if config.carryPeriods = 0 then none else some
      { accruedFresh := fresh, carriedIn := all - fresh
        carriedOut := if scale < 1 then total (carriedOut config period rows
          scales carried (1 - scale)) else 0
        carryPeriods := config.carryPeriods }
    envScale := config.envPayK.map fun _ => scales
    outage := if 0 < downS then some
      { seconds := downS, fraction := downS / periodSeconds
        fill := total fill } else none }

/-- The carry table once a period took its part and carried its own. -/
def carryAfter (period : Int) (rows : List Accrual) (carried : List CarryRow)
    (scale : ℚ) (carry : List CarryRow) : List CarryRow :=
  let left := deleteWhere (fun c => decide (c.1.2 < period)) carry
  if scale < 1 then
    gather Prod.fst Prod.snd ((carriedOut config period rows
      (envScale config prices rows) carried (1 - scale)).filter fun c =>
        decide (0 < c.2)) left
  else left

/-- The world once a period is archived. -/
def archived (m : Made) (w : LedgerWorld) : LedgerWorld :=
  { w with
    db := { w.db with
      carry := carryAfter config prices m.doc.workPeriod m.rows m.carried
        m.doc.scale w.db.carry
      periods := w.db.periods ++ [{ workPeriod := m.doc.workPeriod
                                    entryPeriod := m.doc.entryPeriod
                                    doc := m.doc
                                    published := .unattempted }]
      accruals := updateWhere
        (fun r => r.status == .accrued && r.period == m.doc.workPeriod)
        (fun r => { r with status := .settled }) w.db.accruals }
    made := w.made ++ [m] }

/-- What a period is filled with. -/
def fillOf (reads : Readings) (outages : List (ℚ × ℚ)) (period : Int) : List
    (String × ℚ) :=
  let downS := outageSeconds config period outages
  if 0 < downS then
    outageFillOf db (downS / periodSeconds) (reads.fill period)
  else []

/-- A due period's archive and what it is made of. -/
def madeOf (reads : Readings) (outages : List (ℚ × ℚ)) (db : LedgerDb)
    (period : Int) : Made :=
  let rows := openRows db period
  let carried := carriedIn config db reads period
  let fill := fillOf config db reads outages period
  let entry := entryFor (periodOf reads.now config.genesis + 1)
    (db.periods.map fun r => r.entryPeriod) []
  { doc := archiveOf config prices period entry rows carried fill
      (outageSeconds config period outages)
    rows, carried, fill }

/-- The world once a period with nothing to pay is passed over: its carry
is burned. -/
def passed (period : Int) (w : LedgerWorld) : LedgerWorld :=
  { w with db := { w.db with
    carry := deleteWhere (fun c => decide (c.1.2 < period)) w.db.carry } }

/-- One due period. -/
def settlePeriod (reads : Readings) (outages : List (ℚ × ℚ)) (w : LedgerWorld)
    (period : Int) : Except Err LedgerWorld := do
  let m := madeOf config prices reads outages w.db period
  if m.rows = [] ∧ m.carried = [] ∧ m.fill = [] then
    .ok (passed period w)
  else
    sqlInt m.doc.entryPeriod
    if w.db.periods.any fun r => r.workPeriod == period then
      .error .integrity
    else .ok (archived config prices m w)

/-- What one due period does, whatever is asked of it: it is passed over,
or archived if it has no archive. -/
theorem settlePeriod_rule {config : LedgerConfig} {prices : LedgerPrices}
    {reads : Readings} {outages : List (ℚ × ℚ)} {w : LedgerWorld}
    {period : Int} {Q : LedgerWorld → Prop} (hpass : Q (passed period w))
    (harchive : (∀ p ∈ w.db.periods, p.workPeriod ≠ period) →
      Q (archived config prices
        (madeOf config prices reads outages w.db period) w)) :
    Ends Q (fun _ => True)
      (settlePeriod config prices reads outages w period) := by
  unfold settlePeriod
  dsimp only
  split
  · exact hpass
  · refine Ends.bind (Q := fun _ => True) (ends_any _) fun _ _ => ?_
    split
    · exact trivial
    next hnew =>
      refine harchive fun p hp heq => hnew ?_
      exact List.any_eq_true.2 ⟨p, hp, by simpa using heq⟩

/-- The last period a `settle` at `now` may archive. -/
def closedAt (now : ℚ) : Int :=
  closedThrough now none config.genesis
    (if config.outageFill then max config.slackS config.outageGraceS
      else config.slackS)

/-- Archive every closed period holding accruals, oldest first. -/
def settle (downtime : List (ℚ × ℚ)) (reads : Readings) (w : LedgerWorld) :
    Except Err LedgerWorld := do
  let closed := closedAt config reads.now
  let outages := outagesAt config w.db downtime reads.now
  sqlInt closed
  (duePeriods config w.db closed outages).foldlM
    (settlePeriod config prices reads outages) w

-- ===== the machine

/-- What the submission path lets through: match rates in [0, 1] and
counts not negative (`report_training`), a share of the first scans not
negative (`SubmitConfig.__post_init__`). -/
def Payable (e : EventRow) : Prop :=
  match e.kind with
  | .trained detail =>
    (∀ m ∈ detail.rolloutMatch, 0 ≤ m)
      ∧ ∀ counts ∈ detail.matchedTokens, ∀ c ∈ counts, 0 ≤ c
  | .firstScan fraction _ => 0 ≤ fraction
  | _ => True

/-- A stream of events, as the submission path writes one
(`payable_of_run`). -/
structure EventStream where
  events : List EventRow
  payable : ∀ e ∈ events, Payable e

/-- What is done with a ledger. -/
inductive LedgerOp
  | ingest (prices : LedgerPrices) (stream : EventStream)
      (groups : List GroupRow) (limit : Int)
  | settle (prices : LedgerPrices) (downtime : List (ℚ × ℚ)) (reads : Readings)
  | trainerBeat (now : ℚ)
  | restart

/-- A call that raised leaves the tables as they were. -/
def ledgerStep (w : LedgerWorld) : LedgerOp → LedgerWorld
  | .ingest prices stream groups limit =>
    match ingest config prices stream.events groups limit w.db with
    | .ok db => { w with db }
    | .error _ => w
  | .settle prices downtime reads =>
    match settle config prices downtime reads w with
    | .ok w' => w'
    | .error _ => w
  | .trainerBeat now => trainerBeat config now w
  | .restart => { w with beatAt := none }

end Reliquary.Pay
