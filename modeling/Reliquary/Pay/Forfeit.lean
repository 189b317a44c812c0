/-
What a ban takes from a hotkey, and what it does not.

A ban acts at three places: the open accruals are forfeited when its
event is ingested, a later event is forfeited when it is dated before
the ban's end, and a carry is burned when the clock of the settlement
that weighs it is before the ban's end. The first two do not depend on
when the next settlement is. The third does: a carry from before the ban
that is first weighed after its end is paid (`ban_pays_late`).

So what an archive made since the ban pays the hotkey is free of what it
had earned before as long as no settlement weighs such a carry after the
ban's end (`ban_forfeits`).
-/
import Reliquary.Pay.Conserve

namespace Reliquary.Pay

open Store Rl List

-- ===== the property

/-- An archive whose reward to the hotkey has nothing of before the ban:
no accrual older than the ban or dated before its end, and no carry of a
period archived at the ban. -/
structure Clean (hotkey : String) (seq : Nat) (til : ℚ)
    (before : LedgerWorld) (m : Made) : Prop where
  rows : ∀ r ∈ m.rows, r.hotkey = hotkey → seq ≤ r.seq ∧ til ≤ r.at_
  carried : ∀ c ∈ m.carried, c.1.1 = hotkey →
    ∀ p ∈ before.db.periods, p.workPeriod < c.1.2

/-- The archive's reward to the hotkey is a share of its rows, its carry
and its fill, and of nothing else. -/
def Explained (hotkey : String) (m : Made) : Prop :=
  ∃ scales, sumAt m.doc.rewards hotkey
    = (scaledOn scales (fun h => decide (h = hotkey)) m.rows
        + carryOn (fun h => decide (h = hotkey)) m.carried
        + sumAt m.fill hotkey) * m.doc.scale

/-- Every archive made since the ban is clean. -/
def Forfeited (hotkey : String) (seq : Nat) (til : ℚ)
    (before w : LedgerWorld) : Prop :=
  ∀ m ∈ w.made.drop before.made.length,
    Clean hotkey seq til before m ∧ Explained hotkey m

/-- A carry of the hotkey of before the ban. -/
def OldCarry (hotkey : String) (before : LedgerWorld) (c : CarryRow) : Prop :=
  c.1.1 = hotkey ∧ ∃ p ∈ before.db.periods, c.1.2 ≤ p.workPeriod

/-- A settlement that weighs a carry of before the ban does so before
the ban's end. -/
def WeighsInTime (hotkey : String) (til : ℚ) (before w : LedgerWorld) :
    LedgerOp → Prop
  | .settle _ _ reads => ∀ c ∈ w.db.carry, OldCarry hotkey before c →
      ∀ period, reads.carry period c < til
  | _ => True

theorem MadeWf.explained {config : LedgerConfig} {m : Made}
    (h : MadeWf config m) (hotkey : String) : Explained hotkey m := by
  obtain ⟨prices, downS, hdoc⟩ := h.doc
  refine ⟨envScale config prices m.rows, ?_⟩
  rw [hdoc]
  exact sumOn_rewards h.amounts h.carried h.fill _

-- ===== the tables

/-- The tables since the ban: it is on record, and what is open of the
hotkey is of after it. -/
structure Barred (hotkey : String) (seq : Nat) (til : ℚ) (db : LedgerDb) :
    Prop where
  ban : ∃ u, db.bans.lookup hotkey = some u ∧ til ≤ u
  opened : ∀ r ∈ db.accruals, r.hotkey = hotkey → r.status = .accrued →
    seq ≤ r.seq ∧ til ≤ r.at_

section Ingest

variable {config : LedgerConfig} {hotkey : String} {seq : Nat} {til : ℚ}
  {db : LedgerDb}

/-- A row still open after its kind were closed is an old one of
another. -/
theorem open_updateWhere {p : Accrual → Bool} {status : Status} {r : Accrual}
    {rows : List Accrual}
    (hr : r ∈ updateWhere p (fun r => { r with status }) rows)
    (hs : r.status = .accrued) (hstatus : status ≠ .accrued) :
    r ∈ rows ∧ p r ≠ true := by
  obtain ⟨r₀, hr₀, rfl⟩ := mem_updateWhere.1 hr
  by_cases hp : p r₀ = true
  · rw [if_pos hp] at hs
    exact absurd hs hstatus
  · rw [if_neg hp]
    exact ⟨hr₀, hp⟩

/-- The ban itself. -/
theorem barred_forfeitAll (hotkey : String) (seq : Nat) (til : ℚ)
    (db : LedgerDb) : Barred hotkey seq til (forfeitAll hotkey til db) := by
  constructor
  · show ∃ u, (put hotkey _ db.bans).lookup hotkey = some u ∧ til ≤ u
    rw [lookup_put, if_pos rfl]
    refine ⟨_, rfl, ?_⟩
    cases db.bans.lookup hotkey with
    | none => exact le_refl til
    | some u => exact le_max_right u til
  · intro r hr hh hs
    refine absurd ?_ (open_updateWhere hr hs nofun).2
    rw [Bool.and_eq_true, beq_iff_eq, beq_iff_eq]
    exact ⟨hh, hs⟩

/-- Another ban does not end this one sooner. -/
theorem Barred.forfeit (h : Barred hotkey seq til db) (hotkey' : String)
    (til' : ℚ) : Barred hotkey seq til (forfeitAll hotkey' til' db) := by
  constructor
  · obtain ⟨u, hu, hle⟩ := h.ban
    show ∃ u, (put hotkey' _ db.bans).lookup hotkey = some u ∧ til ≤ u
    rw [lookup_put]
    by_cases hh : hotkey = hotkey'
    · rw [if_pos hh, ← hh, hu]
      exact ⟨_, rfl, hle.trans (le_max_left u til')⟩
    · rw [if_neg hh]
      exact ⟨u, hu, hle⟩
  · intro r hr hh hs
    exact h.opened r (open_updateWhere hr hs nofun).1 hh hs

/-- A new accrual of the hotkey is forfeited, or dated after the ban. -/
theorem Barred.accrue (h : Barred hotkey seq til db) {e : EventRow}
    (he : seq ≤ e.seq) {kind : PayKind} {env : String} {tokens : Int}
    {price amount : ℚ} : Ends (Barred hotkey seq til) (fun _ => True)
      (insertAccrual (accrualOf config db e kind env tokens price amount)
        db) := by
  refine insertAccrual_ends fun _ => ⟨h.ban, ?_⟩
  intro r hr hh hs
  rcases mem_append.1 hr with hr | hr
  · exact h.opened r hr hh hs
  · rw [mem_singleton.1 hr] at hh hs ⊢
    refine ⟨he, ?_⟩
    obtain ⟨u, hu, hle⟩ := h.ban
    have hh : e.hotkey = hotkey := hh
    have hs : (if db.banned e.hotkey e.at_ then Status.forfeited
      else .accrued) = .accrued := hs
    unfold LedgerDb.banned at hs
    rw [hh, hu] at hs
    show til ≤ e.at_
    by_cases hlt : e.at_ < u
    · rw [if_pos (by simpa using hlt)] at hs
      cases hs
    · exact hle.trans (not_lt.1 hlt)

/-- An event at or after the ban. -/
theorem Barred.ingestOne (h : Barred hotkey seq til db)
    (prices : LedgerPrices) (groups : List GroupRow) {e : EventRow}
    (he : seq ≤ e.seq) : Ends (Barred hotkey seq til) (fun _ => True)
      (ingestOne config prices groups db e) := by
  unfold Pay.ingestOne
  split
  · exact h.forfeit _ _
  · exact h.accrue he
  · split
    · exact trivial
    · exact h.accrue he
  · exact h
  · exact h

theorem eventsAfter_rising (db : LedgerDb) (stream : List EventRow)
    (limit : Int) : (eventsAfter db stream limit).Pairwise
      fun a b => a.seq ≤ b.seq :=
  (pairwise_orderBy (fun e : EventRow => e.seq) _).sublist (sliceTo_sublist _ _)

/-- An ingestion whose events are all at or after the ban. -/
theorem Barred.ingest (config : LedgerConfig)
    (h : Barred hotkey seq til db) (hcursor : seq ≤ db.cursor) (prices : LedgerPrices)
    (stream : List EventRow) (groups : List GroupRow) (limit : Int) :
    Ends (fun db => Barred hotkey seq til db ∧ seq ≤ db.cursor)
      (fun _ => True) (ingest config prices stream groups limit db) := by
  unfold Pay.ingest
  dsimp only
  cases hlast : (eventsAfter db stream limit).getLast? with
  | none => exact ⟨h, hcursor⟩
  | some lastEvent =>
    have hafter : ∀ e ∈ eventsAfter db stream limit, seq ≤ e.seq := by
      intro e he
      have := (mem_eventsAfter he).2
      omega
    have hloop : Ends (Barred hotkey seq til) (fun _ => True)
        ((eventsAfter db stream limit).foldlM
          (Pay.ingestOne config prices groups) db) :=
      foldlM_each (fun _ e he hdb =>
        hdb.ingestOne prices groups (hafter e he)) h
    refine hloop.bind fun db' hdb' => ⟨⟨hdb'.ban, hdb'.opened⟩, ?_⟩
    exact hafter lastEvent (mem_of_getLast? hlast)

/-- The ingestion of the ban: what comes before it is forfeited by it,
what comes after it is barred. -/
theorem barred_ingest (config : LedgerConfig) (prices : LedgerPrices)
    (groups : List GroupRow) {stream : List EventRow} {limit : Int}
    {e : EventRow} {reason : String} (he : e ∈ eventsAfter db stream limit)
    (hk : e.kind = .ban reason til) :
    Ends (fun db => Barred e.hotkey e.seq til db ∧ e.seq ≤ db.cursor)
      (fun _ => True) (ingest config prices stream groups limit db) := by
  unfold Pay.ingest
  dsimp only
  have hrising := eventsAfter_rising db stream limit
  obtain ⟨pre, post, hsplit⟩ := append_of_mem he
  rw [hsplit] at hrising ⊢
  obtain ⟨-, hpost, -⟩ := pairwise_append.1 hrising
  have hafter := (pairwise_cons.1 hpost).1
  rw [getLast?_append_cons]
  cases hlast : (e :: post).getLast? with
  | none =>
    cases hlast
  | some lastEvent =>
    have hloop : Ends (Barred e.hotkey e.seq til) (fun _ => True)
        ((pre ++ e :: post).foldlM
          (Pay.ingestOne config prices groups) db) := by
      rw [foldlM_append]
      refine Ends.bind (Q := fun _ => True) (ends_any _) fun db₁ _ => ?_
      rw [foldlM_cons]
      have hban : Pay.ingestOne config prices groups db₁ e
          = .ok (forfeitAll e.hotkey til db₁) := by
        unfold Pay.ingestOne
        rw [hk]
      rw [hban]
      exact foldlM_each (fun _ e' he' hdb =>
        hdb.ingestOne prices groups (hafter e' he'))
        (barred_forfeitAll e.hotkey e.seq til db₁)
    refine hloop.bind fun db' hdb' => ⟨⟨hdb'.ban, hdb'.opened⟩, ?_⟩
    rcases mem_cons.1 (mem_of_getLast? hlast) with heq | hmem
    · rw [heq]
    · exact hafter lastEvent hmem

end Ingest

-- ===== since the ban

/-- What holds since the ban. -/
structure Since (config : LedgerConfig) (hotkey : String) (seq : Nat)
    (til : ℚ) (before w : LedgerWorld) : Prop where
  wf : LedgerWf config w
  barred : Barred hotkey seq til w.db
  cursor : seq ≤ w.db.cursor
  periods : ∀ p ∈ before.db.periods, p ∈ w.db.periods
  made : ∃ new, w.made = before.made ++ new
    ∧ ∀ m ∈ new, Clean hotkey seq til before m

section Settle

variable {config : LedgerConfig} {prices : LedgerPrices}
  {reads : Readings} {outages : List (ℚ × ℚ)} {hotkey : String}
  {seq : Nat} {til : ℚ} {before w w' : LedgerWorld} {period : Int}

/-- No old carry is in what an archive takes in, when the clock it is
weighed at is before the ban's end. -/
theorem Since.clean (h : Since config hotkey seq til before w')
    (hold : ∀ c ∈ w'.db.carry, OldCarry hotkey before c →
      reads.carry period c < til) : Clean hotkey seq til before
      (madeOf config prices reads outages w'.db period) := by
  constructor
  · intro r hr hh
    obtain ⟨hmem, hs, -⟩ := mem_openRows.1 hr
    exact h.barred.opened r hmem hh hs
  · intro c hc hh p hp
    by_contra hle
    obtain ⟨hmem, hweighed⟩ := mem_filter.1 hc
    have hclock := hold c hmem ⟨hh, p, hp, not_lt.1 hle⟩
    obtain ⟨u, hu, htil⟩ := h.barred.ban
    have hbanned : w'.db.banned c.1.1 (reads.carry period c) = true := by
      unfold LedgerDb.banned
      rw [hh, hu]
      simpa using hclock.trans_le htil
    rw [hbanned] at hweighed
    simp at hweighed

/-- A carry after an archive that took in no old one is not old. -/
theorem Since.fresh (h : Since config hotkey seq til before w')
    (hafter : ∀ p ∈ w'.db.periods, p.workPeriod < period)
    (hclean : Clean hotkey seq til before
      (madeOf config prices reads outages w'.db period)) :
    ∀ c ∈ (archived config prices (madeOf config prices reads outages w'.db
      period) w').db.carry, ¬OldCarry hotkey before c := by
  intro c hc hold
  have hm : MadeWf config (madeOf config prices reads outages w'.db
      period) := h.wf.makes
  obtain ⟨-, -, -, hkeys⟩ := carryAfter_spec config prices hm.amounts
    hm.carried (h.wf.old hafter) (scaleOf_fraction config
      (madeOf config prices reads outages w'.db period).doc.accruedTotal).2
  obtain ⟨hh, p, hp, hle⟩ := hold
  rcases hkeys c hc with ⟨r, -, -, hk⟩ | ⟨c', hc', hk⟩
  · have hlt := hafter p (h.periods p hp)
    omega
  · rw [← hk] at hh hle
    exact absurd (hclean.carried c' hc' hh p hp) (not_lt.2 hle)

/-- What holds in the loop of a settlement since the ban. -/
structure SettlingSince (config : LedgerConfig) (hotkey : String)
    (seq : Nat) (til : ℚ) (before w : LedgerWorld) (closed : Int)
    (w' : LedgerWorld) (due : List Int) : Prop where
  settling : Settling config w closed w' due
  since : Since config hotkey seq til before w'
  old : ∀ c ∈ w'.db.carry, OldCarry hotkey before c → c ∈ w.db.carry

/-- One due period. -/
theorem SettlingSince.step {closed : Int} {due : List Int}
    (h : SettlingSince config hotkey seq til before w closed w' (period :: due))
    (hclock : ∀ c ∈ w.db.carry, OldCarry hotkey before c →
      ∀ period, reads.carry period c < til)
    (hout : config.outageFill = false → outages = []) :
    Ends (fun w' => SettlingSince config hotkey seq til before w closed w'
        due) (fun _ => True)
      (settlePeriod config prices reads outages w' period) := by
  have hafter := h.settling.due.after period mem_cons_self
  have hclean : Clean hotkey seq til before
      (madeOf config prices reads outages w'.db period) :=
    h.since.clean fun c hc hold => hclock c (h.old c hc hold) hold period
  obtain ⟨new, hmade, hnew⟩ := h.since.made
  have hends : Ends (fun w'' => Settling config w closed w'' due)
      (fun _ => True) (settlePeriod config prices reads outages w' period) :=
    (settlePeriod_ends h.settling hout).weaken
  refine (hends.and (settlePeriod_rule (Q := fun w'' =>
    LedgerWf config w'' → Since config hotkey seq til before w''
      ∧ ∀ c ∈ w''.db.carry, OldCarry hotkey before c → c ∈ w.db.carry)
    ?_ ?_)).mono fun w'' hw'' => ⟨hw''.1, (hw''.2 hw''.1.wf).1,
      (hw''.2 hw''.1.wf).2⟩
  · intro hwf
    refine ⟨⟨hwf, ⟨h.since.barred.ban, h.since.barred.opened⟩,
      h.since.cursor, h.since.periods, new, hmade, hnew⟩, ?_⟩
    exact fun c hc hold => h.old c (mem_deleteWhere.1 hc).1 hold
  · intro _ hwf
    refine ⟨⟨hwf, ⟨h.since.barred.ban, ?_⟩, h.since.cursor,
      fun p hp => mem_append_left _ (h.since.periods p hp),
      new ++ [madeOf config prices reads outages w'.db period], ?_, ?_⟩, ?_⟩
    · intro r hr hh hs
      exact h.since.barred.opened r (open_updateWhere hr hs nofun).1 hh hs
    · exact (congrArg (· ++ _) hmade).trans (append_assoc ..)
    · exact forall_snoc hnew hclean
    · exact fun c hc hold => absurd hold (h.since.fresh hafter hclean c hc)

/-- **A settlement since the ban**, with the old carry weighed in
time. -/
theorem Since.settle (h : Since config hotkey seq til before w)
    (hclock : ∀ c ∈ w.db.carry, OldCarry hotkey before c →
      ∀ period, reads.carry period c < til)
    (prices : LedgerPrices) (downtime : List (ℚ × ℚ)) :
    Ends (Since config hotkey seq til before) (fun _ => True)
      (settle config prices downtime reads w) := by
  refine Ends.bind (Q := fun _ => True) (ends_any _) fun _ _ => ?_
  refine Ends.mono (foldlM_ends (I := SettlingSince config hotkey seq til
    before w (closedAt config reads.now)) ?_ ⟨⟨h.wf, h.wf.due _ _,
      fun r hr _ _ => .inl hr⟩, h, fun c hc _ => hc⟩)
    fun w' hw' => hw'.since
  intro w' period due hw'
  exact hw'.step hclock fun hoff => outagesAt_off hoff _ _ _

end Settle

-- ===== the run

/-- Every call since the ban. -/
theorem since_step {config : LedgerConfig} {hotkey : String} {seq : Nat}
    {til : ℚ} {before w : LedgerWorld}
    (h : Since config hotkey seq til before w) (op : LedgerOp)
    (hop : WeighsInTime hotkey til before w op) :
    Since config hotkey seq til before (ledgerStep config w op) := by
  have hwf := ledgerWf_step h.wf op
  cases op with
  | ingest prices stream groups limit =>
    have hends := (h.barred.ingest config h.cursor prices stream.events
      groups limit).and (ingest_periods config prices stream.events groups
        limit w.db)
    rw [ledgerStep] at hwf ⊢
    split
    next db hf =>
      rw [hf] at hends hwf
      obtain ⟨⟨hbarred, hcursor⟩, hperiods⟩ := hends
      refine ⟨hwf, hbarred, hcursor, ?_, h.made⟩
      intro p hp
      show p ∈ db.periods
      rw [hperiods]
      exact h.periods p hp
    next => exact h
  | settle prices downtime reads =>
    have hends := h.settle hop prices downtime
    rw [ledgerStep]
    split
    next w' hf =>
      rw [hf] at hends
      exact hends
    next => exact h
  | trainerBeat now =>
    unfold ledgerStep trainerBeat at hwf ⊢
    dsimp only at hwf ⊢
    split
    · exact h
    split
    · exact h
    · next hon hbeat =>
        rw [if_neg hon, if_neg hbeat] at hwf
        exact ⟨hwf, ⟨h.barred.ban, h.barred.opened⟩, h.cursor, h.periods,
          h.made⟩
  | restart => exact { h with wf := hwf }

/-- **A ban forfeits all unsettled pay, weighed in time.** After any run,
a ban is ingested; in every run from there whose settlements weigh the
hotkey's old carry before the ban's end, no archive made since pays the
hotkey anything it had earned before the ban, nor any event dated before
the ban's end. -/
theorem ban_forfeits (config : LedgerConfig) (earlier : List LedgerOp)
    (w : LedgerWorld) (hearlier : Free (ledgerStep config) {} earlier w)
    (prices : LedgerPrices) (stream : EventStream)
    (groups : List GroupRow) (limit : Int) (e : EventRow)
    (reason : String) (til : ℚ) (he : e ∈ eventsAfter w.db stream.events limit)
    (hban : e.kind = .ban reason til) (db : LedgerDb)
    (hin : ingest config prices stream.events groups limit w.db = .ok db)
    (later : List LedgerOp) (w' : LedgerWorld)
    (hlater : Run (ledgerStep config)
      (WeighsInTime e.hotkey til { w with db }) { w with db } later w') :
    Forfeited e.hotkey e.seq til { w with db } w' := by
  have hstart : Since config e.hotkey e.seq til { w with db }
      { w with db } := by
    have hwf := (ledgerWf_run hearlier).ingest prices stream groups limit
    have hbarred := barred_ingest config prices groups he hban
    rw [hin] at hwf hbarred
    exact ⟨hwf, hbarred.1, hbarred.2, fun _ hp => hp, [],
      (append_nil _).symm, forall_mem_nil _⟩
  have hend : Since config e.hotkey e.seq til { w with db } w' :=
    hlater.invariant hstart fun _ op hop h => since_step h op hop
  obtain ⟨new, hmade, hclean⟩ := hend.made
  intro m hm
  rw [hmade, drop_left] at hm
  refine ⟨hclean m hm, (hend.wf.made m ?_).explained e.hotkey⟩
  rw [hmade]
  exact mem_append_right _ hm

/-- The group of ten tokens, and a ban of its hotkey. -/
def thenBanned (til : ℚ) : EventStream where
  events := tenTokens.events ++
    [{ seq := 2, leaseId := "", hotkey := "hk", at_ := 5001
       kind := .ban "spam" til }]
  payable := by
    exact forall_snoc tenTokens.payable trivial

/-- The ledger with half of the group paid, half carried. -/
def halfCarried : LedgerWorld :=
  [LedgerOp.ingest tenthPrice tenTokens [] 10000,
    .settle tenthPrice [] (stillAt 5000)].foldl (ledgerStep halfCap) {}

/-- The ban ingested. -/
def halfBanned (til : ℚ) : LedgerWorld :=
  ledgerStep halfCap halfCarried (.ingest tenthPrice (thenBanned til) [] 10000)

/-- Settled again at 9000, before the ban's end: what was carried is
burned. -/
theorem ban_forfeits_carry :
    let w := ledgerStep halfCap (halfBanned 20000)
      (.settle tenthPrice [] (stillAt 9000))
    halfCarried.db.carriedBy "hk" = 1 / 2 ∧ w.db.carriedBy "hk" = 0
      ∧ w.db.paidTo "hk" = 1 / 2
      ∧ Forfeited "hk" 2 20000 (halfBanned 20000) w := by
  refine ⟨by decide +kernel, by decide +kernel, by decide +kernel, ?_⟩
  have hstart : { halfCarried with db := (halfBanned 20000).db }
      = halfBanned 20000 := by
    decide +kernel
  have hforfeits := ban_forfeits halfCap _ halfCarried
    (Run.of_list (fun _ _ _ => trivial) _) tenthPrice (thenBanned 20000) []
    10000 { seq := 2, leaseId := "", hotkey := "hk", at_ := 5001
            kind := .ban "spam" 20000 } "spam" 20000 (by decide +kernel) rfl
    (halfBanned 20000).db (by decide +kernel)
    [.settle tenthPrice [] (stillAt 9000)]
  rw [hstart] at hforfeits
  refine hforfeits _ (Run.cons _ ?_ (Run.nil _))
  intro c _ _ period
  show (9000 : ℚ) < 20000
  norm_num

/-- Settled again at 9000, after the ban's end: the half carried from
before the ban is paid. -/
theorem ban_pays_late :
    let w := ledgerStep halfCap (halfBanned 6000)
      (.settle tenthPrice [] (stillAt 9000))
    (halfBanned 6000).db.bans = [("hk", 6000)]
      ∧ ((w.made.drop (halfBanned 6000).made.length).map fun m =>
          sumAt m.doc.rewards "hk") = [1 / 2]
      ∧ ¬Forfeited "hk" 2 6000 (halfBanned 6000) w := by
  refine ⟨by decide +kernel, by decide +kernel, ?_⟩
  intro hforfeited
  have hold : ∃ m ∈ (ledgerStep halfCap (halfBanned 6000)
      (.settle tenthPrice [] (stillAt 9000))).made.drop
        (halfBanned 6000).made.length, ∃ c ∈ m.carried, c.1.1 = "hk"
          ∧ ∃ p ∈ (halfBanned 6000).db.periods, c.1.2 ≤ p.workPeriod := by
    decide +kernel
  obtain ⟨m, hm, c, hc, hh, p, hp, hle⟩ := hold
  exact absurd ((hforfeited m hm).1.carried c hc hh p hp) (not_lt.2 hle)

end Reliquary.Pay
