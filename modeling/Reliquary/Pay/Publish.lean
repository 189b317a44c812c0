/-
The publication of the archives (`unpublished`, `publish`) and their
identity in the store.

# What is modeled how

- A publish call is a process: its snapshot of the documents to publish,
  and where it stands between two awaits (`Pc`). What it does between two
  awaits is one step, its transactions are whole in one, and any step of
  any other call, of the ledger or of the store can come in between.
- The store (`R2PeriodArchives`) keeps a document under its work and
  entry period. Its `write` reads first and puts only what is not there.
  A PUT takes effect at some time (`land`) and answers later (`answer`).
  A call that is gone (raised, cancelled, or lost in a restart) leaves
  its PUT behind, which may still take effect (`landLate`).
- A read that fails and a store that refuses the task end the call, as
  `stop` does.

# The argument

Once a document's publication is attempted its row no longer moves, so
an attempted document is the row's (`Attempted.unique`). Whatever is in
the store or on its way there is an attempted document under its own
name, so nothing that lands ever replaces another document
(`PublishWf.land`).
-/
import Reliquary.Pay.Conserve

namespace Reliquary.Pay

open Store Rl List

-- ===== the process

/-- Where a document is kept: work period and entry period. -/
def Archive.key (doc : Archive) : Int × Int :=
  (doc.workPeriod, doc.entryPeriod)

/-- Where a publish call stands. -/
inductive Pc
  /-- Before the read of the next document. -/
  | next
  /-- The read answered. -/
  | read (doc : Archive) (existing : Option Archive)
  /-- Before the read of `archives.write`. -/
  | writing (doc : Archive)
  /-- It answered. -/
  | writeRead (doc : Archive) (existing : Option Archive)
  /-- The PUT was sent; has it taken effect? -/
  | putting (doc : Archive) (landed : Bool)
  /-- `archives.write` returned, or the document was found. -/
  | written (doc : Archive)
  /-- Returned or raised. -/
  | ended
  deriving DecidableEq

/-- A publish call. -/
structure Publisher where
  todo : List Archive
  pc : Pc
  deriving DecidableEq

/-- The ledger, the calls, the PUTs without a call, and the store. -/
structure PublishWorld where
  ledger : LedgerWorld := {}
  publishers : List Publisher := []
  late : List Archive := []
  store : List ((Int × Int) × Archive) := []
  deriving DecidableEq

/-- The documents not confirmed, by work period. -/
def unpublished (db : LedgerDb) : List Archive :=
  ((db.periods.filter fun r => r.published != .confirmed).insertionSort
    fun a b => a.workPeriod ≤ b.workPeriod).map fun r => r.doc

/-- The row of a work period. -/
def LedgerDb.row (db : LedgerDb) (workPeriod : Int) : Option PeriodRow :=
  db.periods.find? fun r => r.workPeriod == workPeriod

/-- A row never attempted moves to a period still to come. -/
def moves (due : Int) (row : PeriodRow) : Bool :=
  row.published == .unattempted && decide (row.doc.entryPeriod < due)

/-- The document to attempt. -/
def toAttempt (db : LedgerDb) (due : Int) (row : PeriodRow) : Archive :=
  let entered := (db.periods.filter fun r =>
    r.workPeriod != row.workPeriod).map fun r => r.entryPeriod
  if moves due row then
    { row.doc with entryPeriod := entryFor due entered [] }
  else row.doc

/-- The tables once it is attempted. -/
def attempted (due : Int) (row : PeriodRow) (doc : Archive)
    (db : LedgerDb) : LedgerDb :=
  let here := fun r : PeriodRow => r.workPeriod == row.workPeriod
  let moved := if moves due row then
      updateWhere here
        (fun r => { r with entryPeriod := doc.entryPeriod, doc }) db.periods
    else db.periods
  { db with
    periods := updateWhere here
      (fun r => { r with published := .unconfirmed }) moved }

/-- The tables once a document is confirmed. -/
def confirmed (workPeriod : Int) (db : LedgerDb) : LedgerDb :=
  let here := fun r : PeriodRow => r.workPeriod == workPeriod
  { db with
    periods := updateWhere here
      (fun r => { r with published := .confirmed }) db.periods }

/-- The transaction of `publish`, for a document it did not find: the
document to write, or none when it is confirmed by now. -/
def attempt (config : LedgerConfig) (now : ℚ) (workPeriod : Int)
    (db : LedgerDb) : Except Err (LedgerDb × Option Archive) :=
  match db.row workPeriod with
  | none => .error (.value "cannot unpack non-iterable NoneType object")
  | some row =>
    if row.published = .confirmed then .ok (db, none)
    else do
      let due := periodOf now config.genesis + 1
      let doc := toAttempt db due row
      sqlInt doc.entryPeriod
      .ok (attempted due row doc db, some doc)

-- ===== the steps

/-- What can happen next. -/
inductive PublishOp
  | ledger (op : LedgerOp)
  | start
  | read (i : Nat)
  | decide (i : Nat) (now : ℚ)
  | writeRead (i : Nat)
  | put (i : Nat)
  | land (i : Nat)
  | answer (i : Nat)
  | mark (i : Nat)
  | stop (i : Nat)
  | landLate (doc : Archive)
  | restart

/-- The call goes on. -/
def PublishWorld.goes (w : PublishWorld) (i : Nat) (p : Publisher) (pc : Pc) :
    PublishWorld :=
  { w with publishers := w.publishers.set i { p with pc } }

/-- The PUT a call leaves behind. -/
def Pc.sent : Pc → Option Archive
  | .putting doc false => some doc
  | _ => none

/-- The store once a document is in it. -/
def PublishWorld.lands (w : PublishWorld) (doc : Archive) : PublishWorld :=
  { w with store := Store.put doc.key doc w.store }

/-- The tables written. -/
def PublishWorld.writes (w : PublishWorld) (db : LedgerDb) : PublishWorld :=
  { w with ledger := { w.ledger with db } }

/-- What call `i` does. -/
def publisherStep (config : LedgerConfig) (w : PublishWorld) (i : Nat)
    (p : Publisher) : PublishOp → PublishWorld
  | .read _ =>
    match p.pc, p.todo with
    | .next, doc :: todo =>
      w.goes i { p with todo } (.read doc (w.store.lookup doc.key))
    | .next, [] => w.goes i p .ended
    | _, _ => w
  | .decide _ now =>
    match p.pc with
    | .read doc (some existing) =>
      if existing ≠ doc then w.goes i p .ended
      else w.goes i p (.written doc)
    | .read doc none =>
      match attempt config now doc.workPeriod w.ledger.db with
      | .error _ => w.goes i p .ended
      | .ok (_, none) => w.goes i p .next
      | .ok (db, some doc) => (w.writes db).goes i p (.writing doc)
    | _ => w
  | .writeRead _ =>
    match p.pc with
    | .writing doc =>
      w.goes i p (.writeRead doc (w.store.lookup doc.key))
    | _ => w
  | .put _ =>
    match p.pc with
    | .writeRead doc none => w.goes i p (.putting doc false)
    | .writeRead doc (some existing) =>
      if existing ≠ doc then w.goes i p .ended
      else w.goes i p (.written doc)
    | _ => w
  | .land _ =>
    match p.pc with
    | .putting doc false =>
      (w.lands doc).goes i p (.putting doc true)
    | _ => w
  | .answer _ =>
    match p.pc with
    | .putting doc true => w.goes i p (.written doc)
    | _ => w
  | .mark _ =>
    match p.pc with
    | .written doc =>
      (w.writes (confirmed doc.workPeriod w.ledger.db)).goes i p .next
    | _ => w
  | .stop _ =>
    { w with late := w.late ++ p.pc.sent.toList }.goes i p .ended
  | _ => w

/-- The call an operation is one of. -/
def PublishOp.call : PublishOp → Option Nat
  | .read i | .decide i _ | .writeRead i | .put i | .land i | .answer i
  | .mark i | .stop i => some i
  | _ => none

/-- One step. -/
def publishStep (config : LedgerConfig) (w : PublishWorld) (op : PublishOp) :
    PublishWorld :=
  match op with
  | .ledger op => { w with ledger := ledgerStep config w.ledger op }
  | .start =>
    { w with publishers := w.publishers ++
      [{ todo := unpublished w.ledger.db, pc := .next }] }
  | .landLate doc => if doc ∈ w.late then w.lands doc else w
  | .restart =>
    { w with
      ledger := ledgerStep config w.ledger .restart
      publishers := []
      late := w.late ++ w.publishers.filterMap fun p => p.pc.sent }
  | op =>
    match op.call with
    | none => w
    | some i =>
      match w.publishers[i]? with
      | none => w
      | some p => publisherStep config w i p op

-- ===== the table

/-- The period table: one row per work period, few per entry period, each
document dated as its row. -/
structure PeriodsWf (rows : List PeriodRow) : Prop where
  keys : (rows.map fun r => r.workPeriod).Nodup
  entries : ∀ e, (rows.map fun r => r.entryPeriod).count e ≤ catchupEntries
  dated : ∀ r ∈ rows, r.doc.key = (r.workPeriod, r.entryPeriod)

/-- The document is a row's, and its publication was attempted. -/
def Attempted (rows : List PeriodRow) (doc : Archive) : Prop :=
  ∃ r ∈ rows, r.doc = doc ∧ r.published ≠ .unattempted

variable {rows : List PeriodRow}

/-- Two attempted documents of one work period are one. -/
theorem Attempted.unique (hwf : PeriodsWf rows) {doc doc' : Archive}
    (h : Attempted rows doc) (h' : Attempted rows doc')
    (hwork : doc.workPeriod = doc'.workPeriod) : doc = doc' := by
  obtain ⟨r, hr, rfl, -⟩ := h
  obtain ⟨r', hr', rfl, -⟩ := h'
  have hkey : r.workPeriod = r'.workPeriod := by
    have h₁ := congrArg Prod.fst (hwf.dated r hr)
    have h₂ := congrArg Prod.fst (hwf.dated r' hr')
    exact h₁.symm.trans (hwork.trans h₂)
  rw [eq_of_key hwf.keys hr hr' hkey]

/-- What a change of the table has to keep: attempted documents stay
so, and a row confirmed was confirmed with that document. -/
structure PeriodsStep (rows rows' : List PeriodRow) : Prop where
  wf : PeriodsWf rows'
  attempted : ∀ doc, Attempted rows doc → Attempted rows' doc
  confirmed : ∀ r ∈ rows', r.published = .confirmed → r ∈ rows

theorem PeriodsStep.refl (h : PeriodsWf rows) : PeriodsStep rows rows :=
  ⟨h, fun _ ha => ha, fun _ hr _ => hr⟩

theorem PeriodsStep.trans {rows rows' rows'' : List PeriodRow}
    (h : PeriodsStep rows rows') (h' : PeriodsStep rows' rows'') :
    PeriodsStep rows rows'' :=
  ⟨h'.wf, fun doc ha => h'.attempted doc (h.attempted doc ha),
    fun r hr hc => h.confirmed r (h'.confirmed r hr hc) hc⟩

/-- A row is appended: a new work period, an entry period with room. -/
theorem PeriodsWf.append (h : PeriodsWf rows) {r : PeriodRow}
    (hkey : ∀ r' ∈ rows, r'.workPeriod ≠ r.workPeriod)
    (hroom : (rows.map fun r => r.entryPeriod).count r.entryPeriod
      < catchupEntries) (hdated : r.doc.key = (r.workPeriod, r.entryPeriod))
    (hnew : r.published = .unattempted) : PeriodsStep rows (rows ++ [r]) := by
  refine ⟨⟨nodup_insert h.keys hkey, ?_, ?_⟩, ?_, ?_⟩
  · intro e
    rw [map_append, List.count_append, map_singleton, count_singleton]
    have hle := h.entries e
    by_cases he : r.entryPeriod = e
    · subst he
      simp only [beq_self_eq_true, if_true]
      omega
    · rw [if_neg (by simpa using he)]
      omega
  · exact forall_snoc h.dated hdated
  · rintro doc ⟨r', hr', hdoc, hp⟩
    exact ⟨r', mem_append_left _ hr', hdoc, hp⟩
  · intro r' hr' hc
    rcases mem_append.1 hr' with hr' | hr'
    · exact hr'
    · rw [mem_singleton.1 hr', hnew] at hc
      cases hc

-- ===== the ledger's

section Ledger

variable {config : LedgerConfig} {w : LedgerWorld}

/-- The entry period of a new archive has room. -/
theorem entry_room (due : Int) (entered : List Int) :
    entered.count (entryFor due entered []) < catchupEntries := by
  have hp : 0 < catchupEntries := by decide
  obtain ⟨hle, htaken, -, -⟩ := entryFor_spec due entered [] hp
  rwa [takenAt_of_le hle] at htaken

theorem periods_settle (config : LedgerConfig) (h : PeriodsWf w.db.periods)
    (prices : LedgerPrices) (downtime : List (ℚ × ℚ)) (reads : Readings) :
    Ends (fun w' => PeriodsStep w.db.periods w'.db.periods) (fun _ => True)
      (settle config prices downtime reads w) := by
  refine Ends.bind (Q := fun _ => True) (ends_any _) fun _ _ => ?_
  refine foldlM_each (fun w' period _ hw' => ?_) (PeriodsStep.refl h)
  refine settlePeriod_rule hw' fun hkey => hw'.trans ?_
  exact hw'.wf.append hkey (entry_room _ _) rfl rfl

/-- **No call of the ledger moves a row.** -/
theorem periods_ledgerStep (h : PeriodsWf w.db.periods) (op : LedgerOp) :
    PeriodsStep w.db.periods (ledgerStep config w op).db.periods := by
  cases op with
  | ingest prices stream groups limit =>
    have hends := ingest_periods config prices stream.events groups limit w.db
    rw [ledgerStep]
    split
    next db hf =>
      rw [hf] at hends
      show PeriodsStep w.db.periods db.periods
      rw [show db.periods = w.db.periods from hends]
      exact PeriodsStep.refl h
    next => exact PeriodsStep.refl h
  | settle prices downtime reads =>
    have hends := periods_settle config h prices downtime reads
    rw [ledgerStep]
    split
    next w' hf =>
      rw [hf] at hends
      exact hends
    next => exact PeriodsStep.refl h
  | trainerBeat now =>
    have hsame : (ledgerStep config w (.trainerBeat now)).db.periods
        = w.db.periods := by
      show (trainerBeat config now w).db.periods = _
      unfold trainerBeat
      split
      · rfl
      split
      · rfl
      · rfl
    rw [hsame]
    exact PeriodsStep.refl h
  | restart => exact PeriodsStep.refl h

end Ledger

-- ===== a call's writes

section Writes

variable {rows : List PeriodRow} {row : PeriodRow}

/-- The rows of the other work periods. -/
def others (rows : List PeriodRow) (row : PeriodRow) : List PeriodRow :=
  rows.filter fun r => r.workPeriod != row.workPeriod

/-- The table with one row changed. -/
def changed (row row' : PeriodRow) (rows : List PeriodRow) : List PeriodRow :=
  updateWhere (fun r => r.workPeriod == row.workPeriod) (fun _ => row') rows

theorem perm_changed (h : PeriodsWf rows) (hrow : row ∈ rows)
    (row' : PeriodRow) :
    (changed row row' rows).Perm (row' :: others rows row) :=
  perm_updateKey h.keys hrow fun _ => row'

/-- A table is its row and the others. -/
theorem perm_row (h : PeriodsWf rows) (hrow : row ∈ rows) :
    rows.Perm (row :: others rows row) := by
  have hsame : updateWhere (fun r : PeriodRow =>
      r.workPeriod == row.workPeriod) id rows = rows := by
    unfold updateWhere
    simp
  have hperm := perm_updateKey h.keys hrow id
  rwa [hsame] at hperm

/-- A row changed, but not its work period, and with room where it
enters. -/
theorem PeriodsWf.change (h : PeriodsWf rows) (hrow : row ∈ rows)
    {row' : PeriodRow} (hkey : row'.workPeriod = row.workPeriod)
    (hroom : ((others rows row).map fun r => r.entryPeriod).count
      row'.entryPeriod < catchupEntries)
    (hdated : row'.doc.key = (row'.workPeriod, row'.entryPeriod)) :
    PeriodsWf (changed row row' rows) := by
  have hperm := perm_changed h hrow row'
  have hold := perm_row h hrow
  refine ⟨?_, ?_, ?_⟩
  · rw [(hperm.map _).nodup_iff, map_cons, hkey]
    exact (hold.map _).nodup_iff.1 h.keys
  · intro e
    have hle := h.entries e
    rw [(hold.map _).count_eq, map_cons, count_cons] at hle
    rw [(hperm.map _).count_eq, map_cons, count_cons]
    by_cases he : row'.entryPeriod = e
    · subst he
      simp only [beq_self_eq_true, if_true]
      omega
    · rw [if_neg (by simpa using he)]
      omega
  · intro r hr
    rcases mem_cons.1 (hperm.mem_iff.1 hr) with heq | hr
    · rw [heq]
      exact hdated
    · exact h.dated r (mem_of_mem_filter hr)

/-- Attempted documents stay so, when the changed row keeps its own. -/
theorem PeriodsWf.change_attempted (h : PeriodsWf rows) (hrow : row ∈ rows)
    {row' : PeriodRow} (hkeeps : row.published ≠ .unattempted →
      row'.doc = row.doc ∧ row'.published ≠ .unattempted) {doc : Archive}
    (hdoc : Attempted rows doc) : Attempted (changed row row' rows) doc := by
  have hperm := perm_changed h hrow row'
  obtain ⟨r, hr, rfl, hp⟩ := hdoc
  rcases mem_cons.1 ((perm_row h hrow).mem_iff.1 hr) with heq | hr
  · rw [heq] at hp ⊢
    obtain ⟨hdoc, hp'⟩ := hkeeps hp
    exact ⟨row', hperm.mem_iff.2 mem_cons_self, hdoc, hp'⟩
  · exact ⟨r, hperm.mem_iff.2 (mem_cons_of_mem _ hr), rfl, hp⟩

/-- Where a row enters there is room beside the others. -/
theorem room_of_row (h : PeriodsWf rows) (hrow : row ∈ rows) :
    ((others rows row).map fun r => r.entryPeriod).count row.entryPeriod
      < catchupEntries := by
  have hle := h.entries row.entryPeriod
  rw [((perm_row h hrow).map _).count_eq, map_cons, count_cons_self] at hle
  omega

end Writes

section Attempt

variable {db : LedgerDb} {row : PeriodRow} {due : Int}

theorem row_mem {work : Int} (h : db.row work = some row) :
    row ∈ db.periods ∧ row.workPeriod = work := by
  refine ⟨mem_of_find?_eq_some h, ?_⟩
  simpa using find?_some h

/-- The row as the attempt leaves it. -/
def attemptedRow (db : LedgerDb) (due : Int) (row : PeriodRow) : PeriodRow :=
  { row with
    entryPeriod := (toAttempt db due row).entryPeriod
    doc := toAttempt db due row
    published := .unconfirmed }

/-- A row that does not move keeps its document. -/
theorem toAttempt_still (hm : moves due row = false) :
    toAttempt db due row = row.doc := by
  unfold toAttempt
  rw [hm]
  rfl

theorem attempted_periods (h : PeriodsWf db.periods) (hrow : row ∈ db.periods) :
    (attempted due row (toAttempt db due row) db).periods
      = changed row (attemptedRow db due row) db.periods := by
  have hentry : row.doc.entryPeriod = row.entryPeriod :=
    congrArg Prod.snd (h.dated row hrow)
  have hone : ∀ r ∈ db.periods, (r.workPeriod == row.workPeriod) = true →
      r = row := fun r hr heq => eq_of_key h.keys hr hrow (eq_of_beq heq)
  unfold attempted changed
  dsimp only
  by_cases hm : moves due row = true
  · rw [if_pos hm]
    unfold updateWhere
    rw [map_map]
    refine map_congr_left fun r hr => ?_
    by_cases heq : (r.workPeriod == row.workPeriod) = true
    · rw [if_pos heq, hone r hr heq]
      simp [attemptedRow]
    · have hne : ¬r.workPeriod = row.workPeriod := by simpa using heq
      simp [hne]
  · rw [if_neg hm]
    refine map_congr_left fun r hr => ?_
    by_cases heq : (r.workPeriod == row.workPeriod) = true
    · rw [if_pos heq, if_pos heq, hone r hr heq]
      unfold attemptedRow
      rw [toAttempt_still (by simpa using hm), hentry]
    · rw [if_neg heq, if_neg heq]

/-- **An attempt**: the document to write is the row's from now on. -/
theorem attempt_ends (h : PeriodsWf db.periods) (config : LedgerConfig)
    (now : ℚ) (work : Int) : Ends (fun x => PeriodsStep db.periods x.1.periods
        ∧ ∀ doc ∈ x.2, Attempted x.1.periods doc) (fun _ => True)
      (attempt config now work db) := by
  unfold attempt
  cases hr : db.row work with
  | none => exact trivial
  | some row =>
    obtain ⟨hrow, -⟩ := row_mem hr
    dsimp only
    split
    · exact ⟨PeriodsStep.refl h, fun _ hd => absurd hd (by simp)⟩
    next hopen =>
      refine Ends.bind (Q := fun _ => True) (ends_any _) fun _ _ => ?_
      set due := periodOf now config.genesis + 1
      have hkey : row.doc.workPeriod = row.workPeriod :=
        congrArg Prod.fst (h.dated row hrow)
      have hwf : PeriodsWf (changed row (attemptedRow db due row)
          db.periods) := by
        refine h.change hrow rfl ?_ ?_
        · -- a row that moves gets a period with room
          unfold attemptedRow toAttempt
          dsimp only
          split
          · exact entry_room _ _
          · have hentry : row.doc.entryPeriod = row.entryPeriod :=
              congrArg Prod.snd (h.dated row hrow)
            rw [hentry]
            exact room_of_row h hrow
        · unfold attemptedRow toAttempt
          split
          · exact Prod.ext hkey rfl
          · exact Prod.ext hkey rfl
      have hperm := perm_changed h hrow (attemptedRow db due row)
      have hstep : PeriodsStep db.periods (changed row
          (attemptedRow db due row) db.periods) := by
        refine ⟨hwf, fun doc => h.change_attempted hrow ?_, ?_⟩
        · intro hp
          refine ⟨toAttempt_still ?_, Published.noConfusion⟩
          unfold moves
          rw [beq_eq_false_iff_ne.2 hp, Bool.false_and]
        · intro r hr hc
          rcases mem_cons.1 (hperm.mem_iff.1 hr) with heq | hr
          · rw [heq] at hc
            cases hc
          · exact mem_of_mem_filter hr
      show PeriodsStep db.periods (attempted due row _ db).periods
        ∧ ∀ doc ∈ some (toAttempt db due row),
          Attempted (attempted due row _ db).periods doc
      rw [attempted_periods h hrow]
      refine ⟨hstep, ?_⟩
      intro doc hdoc
      injection hdoc with hdoc
      exact ⟨attemptedRow db due row, hperm.mem_iff.2 mem_cons_self, hdoc,
        Published.noConfusion⟩

end Attempt

-- ===== the store

/-- What is in the store: attempted documents, each under its own name,
one per work period. -/
structure StoreWf (rows : List PeriodRow)
    (store : List ((Int × Int) × Archive)) : Prop where
  named : ∀ x ∈ store, x.1 = x.2.key
  attempted : ∀ x ∈ store, Attempted rows x.2
  works : (store.map fun x => x.1.1).Nodup

section Stored

variable {rows : List PeriodRow} {store : List ((Int × Int) × Archive)}
  {doc : Archive}

/-- The document of a work period that is in the store is the attempted
one. -/
theorem StoreWf.same (h : StoreWf rows store) (hwf : PeriodsWf rows)
    (hdoc : Attempted rows doc) {x : (Int × Int) × Archive} (hx : x ∈ store)
    (hwork : x.1.1 = doc.workPeriod) : x = (doc.key, doc) := by
  have hname := h.named x hx
  have hwork' : x.2.workPeriod = doc.workPeriod := by
    rw [hname] at hwork
    exact hwork
  have heq := (h.attempted x hx).unique hwf hdoc hwork'
  exact Prod.ext (hname.trans (congrArg Archive.key heq)) heq

/-- **A document that lands replaces no other.** -/
theorem StoreWf.land (h : StoreWf rows store) (hwf : PeriodsWf rows)
    (hdoc : Attempted rows doc) : StoreWf rows (Store.put doc.key doc store)
      ∧ (Store.put doc.key doc store).lookup doc.key = some doc
      ∧ ∀ k x, store.lookup k = some x →
          (Store.put doc.key doc store).lookup k = some x := by
  refine ⟨⟨?_, ?_, ?_⟩, ?_, ?_⟩
  · exact forall_put h.named rfl
  · exact forall_put h.attempted hdoc
  · -- a work period already there is there under this name
    have hkeys := congrArg (List.map Prod.fst) (keys_put doc.key doc store)
    simp only [map_map] at hkeys
    rw [show (Store.put doc.key doc store).map (fun x => x.1.1)
      = (Store.put doc.key doc store).map (Prod.fst ∘ Prod.fst) from rfl,
      hkeys]
    split
    · simp only [map_map]
      exact h.works
    next hnew =>
      rw [map_append, map_map]
      refine nodup_snoc h.works fun hm => ?_
      obtain ⟨x, hx, heq⟩ := mem_map.1 hm
      refine hnew (mem_map.2 ⟨x, hx, ?_⟩)
      rw [h.same hwf hdoc hx heq]
  · rw [lookup_put, if_pos rfl]
  · intro k x hk
    rw [lookup_put]
    split
    next heq =>
      have hx := mem_of_lookup hk
      have hsame := h.same hwf hdoc hx (congrArg Prod.fst heq)
      injection hsame with _ hsame
      rw [hsame]
    next => exact hk

end Stored

-- ===== the invariant

/-- What a call knows where it stands. -/
def Pc.Ok (rows : List PeriodRow) (store : List ((Int × Int) × Archive)) :
    Pc → Prop
  | .next => True
  | .read doc existing => ∀ x ∈ existing, store.lookup doc.key = some x
  | .writing doc => Attempted rows doc
  | .writeRead doc existing => Attempted rows doc
      ∧ ∀ x ∈ existing, store.lookup doc.key = some x
  | .putting doc landed => Attempted rows doc
      ∧ (landed = true → store.lookup doc.key = some doc)
  | .written doc => store.lookup doc.key = some doc
  | .ended => True

/-- What holds at every step. -/
structure PublishWf (w : PublishWorld) : Prop where
  table : PeriodsWf w.ledger.db.periods
  store : StoreWf w.ledger.db.periods w.store
  late : ∀ doc ∈ w.late, Attempted w.ledger.db.periods doc
  calls : ∀ p ∈ w.publishers, p.pc.Ok w.ledger.db.periods w.store
  confirmed : ∀ r ∈ w.ledger.db.periods, r.published = .confirmed →
    w.store.lookup r.doc.key = some r.doc

section Wf

variable {w : PublishWorld} {config : LedgerConfig}

/-- What a call knows stays so while attempted documents and the store's
reads do. -/
theorem Pc.Ok.mono {rows rows' : List PeriodRow}
    {store store' : List ((Int × Int) × Archive)} {pc : Pc}
    (h : pc.Ok rows store)
    (hrows : ∀ doc, Attempted rows doc → Attempted rows' doc)
    (hstore : ∀ k x, store.lookup k = some x → store'.lookup k = some x) :
    pc.Ok rows' store' := by
  cases pc with
  | next => trivial
  | read doc existing => exact fun x hx => hstore _ _ (h x hx)
  | writing doc => exact hrows doc h
  | writeRead doc existing =>
    exact ⟨hrows doc h.1, fun x hx => hstore _ _ (h.2 x hx)⟩
  | putting doc landed =>
    exact ⟨hrows doc h.1, fun hl => hstore _ _ (h.2 hl)⟩
  | written doc => exact hstore _ _ h
  | ended => trivial

/-- The tables written, no attempted document lost. -/
theorem PublishWf.rewrites (h : PublishWf w) {ledger : LedgerWorld}
    (hwf : PeriodsWf ledger.db.periods)
    (hatt : ∀ doc, Attempted w.ledger.db.periods doc →
      Attempted ledger.db.periods doc)
    (hconf : ∀ r ∈ ledger.db.periods, r.published = .confirmed →
      w.store.lookup r.doc.key = some r.doc) : PublishWf { w with ledger } where
  table := hwf
  store := ⟨h.store.named, fun x hx => hatt _ (h.store.attempted x hx),
    h.store.works⟩
  late := fun doc hd => hatt doc (h.late doc hd)
  calls := fun p hp => (h.calls p hp).mono hatt fun _ _ hk => hk
  confirmed := hconf

theorem PublishWf.writes (h : PublishWf w) {ledger : LedgerWorld}
    (hs : PeriodsStep w.ledger.db.periods ledger.db.periods) :
    PublishWf { w with ledger } :=
  h.rewrites hs.wf hs.attempted
    fun r hr hc => h.confirmed r (hs.confirmed r hr hc) hc

/-- A call goes on. -/
theorem PublishWf.goes (h : PublishWf w) {i : Nat} {p : Publisher}
    {pc : Pc} (hpc : pc.Ok w.ledger.db.periods w.store) :
    PublishWf (w.goes i p pc) := { h with
  calls := by
    intro q hq
    rcases mem_or_eq_of_mem_set hq with hq | rfl
    · exact h.calls q hq
    · exact hpc }

/-- A document lands. -/
theorem PublishWf.lands (h : PublishWf w) {doc : Archive}
    (hdoc : Attempted w.ledger.db.periods doc) : PublishWf (w.lands doc) := by
  obtain ⟨hstore, -, hkeeps⟩ := h.store.land h.table hdoc
  exact ⟨h.table, hstore, h.late,
    fun p hp => (h.calls p hp).mono (fun _ ha => ha) hkeeps,
    fun r hr hc => hkeeps _ _ (h.confirmed r hr hc)⟩

/-- A document in the store is confirmed. -/
theorem PublishWf.confirms (h : PublishWf w) {doc : Archive}
    (hdoc : w.store.lookup doc.key = some doc) :
    PublishWf (w.writes (Pay.confirmed doc.workPeriod w.ledger.db)) := by
  obtain ⟨row, hrow, hrd, hp⟩ := h.store.attempted _ (mem_of_lookup hdoc)
  have hrd : row.doc = doc := hrd
  have hdated := h.table.dated row hrow
  have hwork : row.workPeriod = doc.workPeriod := by
    rw [← hrd]
    exact (congrArg Prod.fst hdated).symm
  set row' : PeriodRow := { row with published := .confirmed } with hrow'
  have hperiods : (Pay.confirmed doc.workPeriod w.ledger.db).periods
      = changed row row' w.ledger.db.periods := by
    show updateWhere _ _ _ = updateWhere _ _ _
    rw [← hwork]
    refine map_congr_left fun r hr => ?_
    by_cases heq : (r.workPeriod == row.workPeriod) = true
    · rw [if_pos heq, if_pos heq,
        eq_of_key h.table.keys hr hrow (eq_of_beq heq)]
    · rw [if_neg heq, if_neg heq]
  have hperm := perm_changed h.table hrow row'
  have hroom := room_of_row h.table hrow
  refine h.rewrites ?_ ?_ ?_
  · show PeriodsWf (Pay.confirmed _ _).periods
    rw [hperiods]
    exact h.table.change hrow rfl hroom hdated
  · show ∀ d, _ → Attempted (Pay.confirmed _ _).periods d
    rw [hperiods]
    intro doc
    refine h.table.change_attempted hrow fun _ => ?_
    exact ⟨rfl, Published.noConfusion⟩
  · show ∀ r ∈ (Pay.confirmed _ _).periods, _ → _
    rw [hperiods]
    intro r hr hc
    rcases mem_cons.1 (hperm.mem_iff.1 hr) with heq | hr
    · rw [heq]
      show w.store.lookup row.doc.key = some row.doc
      rw [hrd]
      exact hdoc
    · exact h.confirmed r (mem_of_mem_filter hr) hc

/-- A PUT without its call. -/
theorem sent_attempted {pc : Pc}
    {store : List ((Int × Int) × Archive)} (h : pc.Ok rows store)
    {doc : Archive} (hd : doc ∈ pc.sent) : Attempted rows doc := by
  cases pc with
  | putting doc' landed =>
    cases landed with
    | false =>
      injection hd with hd
      rw [← hd]
      exact h.1
    | true => cases hd
  | _ => cases hd

/-- A step of a call. -/
theorem publishWf_call (h : PublishWf w) {i : Nat} {p : Publisher}
    (hp : p ∈ w.publishers) (op : PublishOp) :
    PublishWf (publisherStep config w i p op) := by
  have hpc := h.calls p hp
  cases op with
  | read j =>
    rw [publisherStep]
    split
    · exact h.goes fun x hx => hx
    · exact h.goes trivial
    · exact h
  | decide j now =>
    rw [publisherStep]
    split
    next doc existing heq =>
      rw [heq] at hpc
      split
      · exact h.goes trivial
      next hsame =>
        rw [not_not] at hsame
        have hread := hpc existing rfl
        rw [hsame] at hread
        exact h.goes hread
    next doc heq =>
      have hends := attempt_ends h.table config now doc.workPeriod
      split
      · exact h.goes trivial
      · exact h.goes trivial
      next db doc' hatt =>
        rw [hatt] at hends
        have hw : PublishWf (w.writes db) := h.writes hends.1
        exact hw.goes (hends.2 doc' rfl)
    next => exact h
  | writeRead j =>
    rw [publisherStep]
    split
    next doc heq =>
      rw [heq] at hpc
      exact h.goes ⟨hpc, fun x hx => hx⟩
    next => exact h
  | put j =>
    rw [publisherStep]
    split
    next doc heq =>
      rw [heq] at hpc
      exact h.goes ⟨hpc.1, fun hl => absurd hl (by decide)⟩
    next doc existing heq =>
      rw [heq] at hpc
      split
      · exact h.goes trivial
      next hsame =>
        rw [not_not] at hsame
        have hread := hpc.2 existing rfl
        rw [hsame] at hread
        exact h.goes hread
    next => exact h
  | land j =>
    rw [publisherStep]
    split
    next doc heq =>
      rw [heq] at hpc
      refine (h.lands hpc.1).goes ⟨hpc.1, fun _ => ?_⟩
      exact (h.store.land h.table hpc.1).2.1
    next => exact h
  | answer j =>
    rw [publisherStep]
    split
    next doc heq =>
      rw [heq] at hpc
      exact h.goes (hpc.2 rfl)
    next => exact h
  | mark j =>
    rw [publisherStep]
    split
    next doc heq =>
      rw [heq] at hpc
      exact (h.confirms hpc).goes trivial
    next => exact h
  | stop j =>
    have hlate : PublishWf { w with late := w.late ++ p.pc.sent.toList } := by
      refine { h with late := forall_mem_append.2 ⟨h.late, ?_⟩ }
      exact fun doc hd => sent_attempted hpc (Option.mem_toList.1 hd)
    exact hlate.goes trivial
  | ledger op => exact h
  | start => exact h
  | landLate doc => exact h
  | restart => exact h

/-- Every step. -/
theorem publishWf_step (h : PublishWf w) (op : PublishOp) :
    PublishWf (publishStep config w op) := by
  have hcall : PublishWf (match op.call with
      | none => w
      | some i => match w.publishers[i]? with
        | none => w
        | some p => publisherStep config w i p op) := by
    split
    · exact h
    · split
      · exact h
      next i _ p hp =>
        exact publishWf_call h (mem_of_getElem? hp) op
  cases op with
  | ledger op => exact h.writes (periods_ledgerStep h.table op)
  | start =>
    exact { h with calls := forall_snoc h.calls trivial }
  | landLate doc =>
    unfold publishStep
    dsimp only
    split
    next hmem => exact h.lands (h.late doc hmem)
    next => exact h
  | restart =>
    refine ⟨h.table, h.store, forall_mem_append.2 ⟨h.late, ?_⟩,
      forall_mem_nil _, h.confirmed⟩
    intro doc hd
    obtain ⟨p, hp, hsent⟩ := mem_filterMap.1 hd
    exact sent_attempted (h.calls p hp) hsent
  | _ => exact hcall

end Wf

/-- The store holds no more archives of an entry period than the
table. -/
theorem StoreWf.count_le {store : List ((Int × Int) × Archive)}
    (h : StoreWf rows store) (hwf : PeriodsWf rows) (entry : Int) :
    (store.map fun x => x.1.2).count entry
      ≤ (rows.map fun r => r.entryPeriod).count entry := by
  have hnd : ((store.filter fun x => x.1.2 == entry).map
      fun x => x.1.1).Nodup :=
    (filter_sublist.map _).nodup h.works
  have hsub : (store.filter fun x => x.1.2 == entry).map (fun x => x.1.1)
      ⊆ (rows.filter fun r => r.entryPeriod == entry).map
        fun r => r.workPeriod := by
    intro work hmem
    obtain ⟨x, hx, rfl⟩ := mem_map.1 hmem
    obtain ⟨hx, he⟩ := mem_filter.1 hx
    obtain ⟨r, hr, hdoc, -⟩ := h.attempted x hx
    have hkey : x.1 = (r.workPeriod, r.entryPeriod) := by
      rw [h.named x hx, ← hdoc]
      exact hwf.dated r hr
    rw [hkey] at he ⊢
    exact mem_map.2 ⟨r, mem_filter.2 ⟨hr, he⟩, rfl⟩
  have hlen := (subperm_of_subset hnd hsub).length_le
  rw [length_map, length_map] at hlen
  rw [count_eq_countP, count_eq_countP, countP_map,
    countP_map, countP_eq_length_filter,
    countP_eq_length_filter]
  exact hlen

theorem publishWf_empty : PublishWf {} := by
  refine ⟨⟨nodup_nil, ?_, ?_⟩, ⟨?_, ?_, nodup_nil⟩, ?_, ?_, ?_⟩
  · exact fun _ => Nat.zero_le _
  all_goals exact forall_mem_nil _

/-- **Archive identity across interrupted publication.** In every state
that any interleaving of the ledger, of publish calls, of PUTs that land
at any time and of restarts comes to: no work period is in the store
under two entry periods; at most `catchupEntries` archives share an
entry period, in the table and in the store; and an archive marked
published is in the store as the table has it. -/
theorem archive_identity (config : LedgerConfig) (ops : List PublishOp)
    (w : PublishWorld) (hrun : Free (publishStep config) {} ops w) :
    (∀ x ∈ w.store, ∀ y ∈ w.store, x.1.1 = y.1.1 → x.1.2 = y.1.2)
      ∧ (∀ entry, (w.ledger.db.periods.map fun r =>
            r.entryPeriod).count entry ≤ catchupEntries
          ∧ (w.store.map fun x => x.1.2).count entry ≤ catchupEntries)
      ∧ ∀ r ∈ w.ledger.db.periods, r.published = .confirmed →
          w.store.lookup (r.workPeriod, r.entryPeriod) = some r.doc := by
  have hwf : PublishWf w := hrun.invariant publishWf_empty
    fun _ op _ h => publishWf_step h op
  refine ⟨?_, fun entry => ⟨hwf.table.entries entry, ?_⟩, ?_⟩
  · intro x hx y hy hwork
    rw [eq_of_key hwf.store.works hx hy hwork]
  · exact (hwf.store.count_le hwf.table entry).trans (hwf.table.entries entry)
  · intro r hr hc
    rw [← hwf.table.dated r hr]
    exact hwf.confirmed r hr hc

/-- An archive is settled; of two calls one is lost after its attempt is
committed and before its PUT lands, the other finds the row attempted
and publishes it. -/
def interrupted : List PublishOp :=
  [.ledger (.ingest tenthPrice tenTokens [] 10000),
    .ledger (.settle tenthPrice [] (stillAt 5000)), .start, .start,
    .read 0, .read 1, .decide 0 20000, .writeRead 0, .put 0, .stop 0,
    .decide 1 50000, .writeRead 1, .put 1, .land 1, .answer 1, .mark 1]

/-- The row moved to the entry period after 20000, at the first attempt,
and no further. -/
theorem archive_identity_interrupted :
    let w := interrupted.foldl (publishStep halfCap) {}
    (w.store.map fun x => x.1) = [(0, 5)]
      ∧ (w.late.map fun doc => doc.key) = [(0, 5)]
      ∧ (w.ledger.db.periods.map fun r => r.published) = [.confirmed]
      ∧ ∀ r ∈ w.ledger.db.periods, r.published = .confirmed →
          w.store.lookup (r.workPeriod, r.entryPeriod) = some r.doc := by
  refine ⟨by decide +kernel, by decide +kernel, by decide +kernel, ?_⟩
  exact (archive_identity halfCap interrupted _
    (Run.of_list (fun _ _ _ => trivial) _)).2.2

end Reliquary.Pay
