/-
The ledger's books: over any sequence of calls, no archive pays more
than the cap and no hotkey is paid more than it earned.

# The argument

Three facts hold between two calls and carry the rest (`LedgerWf`):
periods are archived in rising order, an accrual still open is in a
later period than every archive, and a carry is from a period already
archived. So a settlement that goes through its due periods upwards
takes in all the carry there is, and leaves behind no open accrual it
passed (`settle_loop`).

What is paid is then a matter of one archive: rewards and carry out are
at most the rows and the carry in (`Backed.archive`), and the rows of an
archive are settled by it and by no other (`LedgerWf.settled`).
-/
import Reliquary.Pay.Archive

namespace Reliquary.Pay

open Store Rl List

-- ===== the invariant

/-- The row once it is settled. -/
def Accrual.settle (r : Accrual) : Accrual := { r with status := .settled }

/-- The settled rows. -/
def LedgerDb.settledRows (db : LedgerDb) : List Accrual :=
  db.accruals.filter fun r => r.status == .settled

/-- The rows the archives took, in their order. -/
def LedgerWorld.taken (w : LedgerWorld) : List Accrual :=
  w.made.flatMap fun m => m.rows

/-- An archive is the one its rows, its carry and its fill make. -/
structure MadeWf (config : LedgerConfig) (m : Made) : Prop where
  amounts : ∀ r ∈ m.rows, 0 ≤ r.amount
  rows : ∀ r ∈ m.rows, r.status = .accrued ∧ r.period = m.doc.workPeriod
  carried : Nonneg m.carried
  fill : Nonneg m.fill
  doc : ∃ prices downS, m.doc = archiveOf config prices m.doc.workPeriod
    m.doc.entryPeriod m.rows m.carried m.fill downS

/-- What was paid and is carried is at most what the rows taken amount
to, for any set of hotkeys. -/
def Backed (w : LedgerWorld) : Prop :=
  ∀ p, (w.made.map fun m => sumOn p m.doc.rewards).sum
    + carryOn p w.db.carry ≤ amountOn p w.taken

/-- What holds between two calls. -/
structure LedgerWf (config : LedgerConfig) (w : LedgerWorld) : Prop where
  amounts : ∀ r ∈ w.db.accruals, 0 ≤ r.amount ∧ 0 ≤ r.matchedTokens
  seqs : (w.db.accruals.map fun r => r.seq).Nodup
  ahead : ∀ r ∈ w.db.accruals, r.status = .accrued →
    ∀ p ∈ w.db.periods, p.workPeriod < r.period
  rising : (w.db.periods.map fun p => p.workPeriod).Pairwise (· < ·)
  carry : Nonneg w.db.carry
  origins : ∀ c ∈ w.db.carry, ∃ p ∈ w.db.periods, c.1.2 ≤ p.workPeriod
  held : total w.db.carry ≤ config.carryMaxCaps * config.cap
  docs : w.db.periods.map (fun p => p.doc) = w.made.map fun m => m.doc
  dated : ∀ p ∈ w.db.periods, p.doc.workPeriod = p.workPeriod
  settled : (w.taken.map Accrual.settle).Perm w.db.settledRows
  made : ∀ m ∈ w.made, MadeWf config m
  backed : config.outageFill = false → Backed w

variable {config : LedgerConfig} {prices : LedgerPrices}
  {w : LedgerWorld} {db : LedgerDb} {r : Accrual}

theorem most_nonneg (config : LedgerConfig) :
    0 ≤ config.carryMaxCaps * config.cap :=
  mul_nonneg config.carryMax_nonneg config.cap_fraction.1.le

theorem ledgerWf_empty (config : LedgerConfig) : LedgerWf config {} where
  amounts := forall_mem_nil _
  seqs := nodup_nil
  ahead := forall_mem_nil _
  rising := List.Pairwise.nil
  carry := forall_mem_nil _
  origins := forall_mem_nil _
  held := most_nonneg config
  docs := rfl
  dated := forall_mem_nil _
  settled := List.Perm.refl _
  made := forall_mem_nil _
  backed := fun _ p => by simp [amountOn, LedgerWorld.taken]

/-- What is after the last archive is after every archive. -/
theorem after_last {x : Int} (h : ∀ last ∈ db.last, last < x) :
    ∀ p ∈ db.periods, p.workPeriod < x := by
  intro p hp
  have hmem : p.workPeriod ∈ db.periods.map fun r => r.workPeriod :=
    mem_map_of_mem hp
  cases hlast : db.last with
  | none =>
    unfold LedgerDb.last at hlast
    rw [max?_eq_none_iff] at hlast
    rw [hlast] at hmem
    cases hmem
  | some last =>
    have hmax := (max?_eq_some_iff.1 hlast).2 _ hmem
    have := h last hlast
    omega

-- ===== ingestion

/-- An event's period is after every archive. -/
theorem openPeriod_ahead (db : LedgerDb) (at_ : ℚ) :
    ∀ p ∈ db.periods, p.workPeriod < openPeriod config db at_ := by
  refine after_last ?_
  intro last hlast
  unfold openPeriod
  rw [Option.mem_def.1 hlast]
  dsimp only
  omega

theorem paidTokens_nonneg {detail : TrainingDetail}
    (hmatch : ∀ m ∈ detail.rolloutMatch, 0 ≤ m)
    (hcounts : ∀ counts ∈ detail.matchedTokens, ∀ c ∈ counts, 0 ≤ c)
    (floor : ℚ) : 0 ≤ paidTokens detail floor := by
  refine sum_nonneg ?_
  intro c hc
  obtain ⟨mc, hmc, rfl⟩ := mem_map.1 hc
  have hzip := (of_mem_zip (mem_of_mem_filter hmc)).2
  cases hd : detail.matchedTokens with
  | some counts =>
    rw [hd] at hzip
    exact hcounts counts hd _ hzip
  | none =>
    rw [hd] at hzip
    obtain ⟨mn, hmn, heq⟩ := mem_map.1 hzip
    rw [← heq]
    refine Int.floor_nonneg.2 (mul_nonneg ?_ (Nat.cast_nonneg _))
    exact hmatch _ (of_mem_zip hmn).1

theorem referenceTokens_nonneg (h : ∀ r ∈ db.accruals, 0 ≤ r.matchedTokens)
    (env : String) : 0 ≤ referenceTokens config db env := by
  unfold referenceTokens
  dsimp only
  split
  · exact Nat.cast_nonneg _
  · refine div_nonneg (Int.cast_nonneg (sum_nonneg ?_)) (Nat.cast_nonneg _)
    intro c hc
    obtain ⟨r, hr, rfl⟩ := mem_map.1 (mem_of_mem_take hc)
    rw [mem_insertionSort] at hr
    exact h r (mem_of_mem_filter hr)

/-- An insert that ends put the row after the others, under a new key. -/
theorem insertAccrual_ends {P : LedgerDb → Prop} {r : Accrual}
    (h : (∀ r' ∈ db.accruals, r'.seq ≠ r.seq) →
      P { db with accruals := db.accruals ++ [r] }) :
    Ends P (fun _ => True) (insertAccrual r db) := by
  refine Ends.bind (Q := fun _ => True) (ends_any _) fun _ _ => ?_
  refine Ends.bind (Q := fun _ => True) (ends_any _) fun _ _ => ?_
  split
  · exact trivial
  next hnew =>
    refine h fun r' hr' heq => hnew ?_
    exact any_eq_true.2 ⟨r', hr', beq_iff_eq.2 heq⟩

theorem mem_eventsAfter {stream : List EventRow} {limit : Int} {e : EventRow}
    (h : e ∈ eventsAfter db stream limit) : e ∈ stream ∧ db.cursor < e.seq := by
  have h := (sliceTo_sublist _ _).subset h
  rw [mem_insertionSort, mem_filter, decide_eq_true_eq] at h
  exact h

section Ingest

variable (h : LedgerWf config w)
include h

/-- A new accrual, of a known period and not settled. -/
theorem LedgerWf.insert (hseq : ∀ r' ∈ w.db.accruals, r'.seq ≠ r.seq)
    (hamount : 0 ≤ r.amount) (htokens : 0 ≤ r.matchedTokens)
    (hperiod : ∀ p ∈ w.db.periods, p.workPeriod < r.period)
    (hstatus : r.status ≠ .settled) : LedgerWf config { w with db := { w.db with
      accruals := w.db.accruals ++ [r] } } := { h with
  amounts := forall_snoc h.amounts ⟨hamount, htokens⟩
  seqs := nodup_insert h.seqs hseq
  ahead := forall_snoc h.ahead fun _ => hperiod
  settled := by
    show List.Perm _ ((w.db.accruals ++ [r]).filter _)
    rw [filter_append, filter_cons_of_neg (by simpa using hstatus),
      filter_nil, append_nil]
    exact h.settled }

/-- A ban. -/
theorem LedgerWf.forfeit (hotkey : String) (til : ℚ) :
    LedgerWf config { w with db := forfeitAll hotkey til w.db } := { h with
  amounts := forall_updateWhere (fun r hr _ => h.amounts r hr)
    fun r hr _ => h.amounts r hr
  seqs := by
    show (List.map _ (updateWhere _ _ _)).Nodup
    rw [updateWhere_column]
    · exact h.seqs
    · exact fun _ => rfl
  ahead := forall_updateWhere (fun _ _ _ => nofun) fun r hr _ => h.ahead r hr
  settled := by
    show List.Perm _ ((updateWhere _ _ _).filter _)
    rw [filter_updateWhere]
    · exact h.settled
    · intro r hr
      rw [Bool.and_eq_true, beq_iff_eq, beq_iff_eq] at hr
      rw [hr.2]
      exact ⟨rfl, rfl⟩ }

/-- The insert of an event's accrual. -/
theorem LedgerWf.accrue {e : EventRow}
    {kind : PayKind} {env : String} {tokens : Int} {price amount : ℚ}
    (hamount : 0 ≤ amount) (htokens : 0 ≤ tokens) :
    Ends (fun db => LedgerWf config { w with db }) (fun _ => True)
      (insertAccrual (accrualOf config w.db e kind env tokens price amount)
        w.db) := by
  refine insertAccrual_ends fun hnew =>
    h.insert hnew hamount htokens (openPeriod_ahead _ _) ?_
  unfold accrualOf
  split
  · exact Status.noConfusion
  · exact Status.noConfusion

/-- One event. -/
theorem LedgerWf.ingestOne (prices : LedgerPrices)
    (groups : List GroupRow) {e : EventRow} (he : Payable e) :
    Ends (fun db => LedgerWf config { w with db }) (fun _ => True)
      (ingestOne config prices groups w.db e) := by
  unfold Pay.ingestOne
  unfold Payable at he
  split
  next => exact h.forfeit _ _
  next detail hk =>
    rw [hk] at he
    have htokens := paidTokens_nonneg he.1 he.2 config.floor
    refine h.accrue (mul_nonneg ?_ (prices.price_nonneg _)) htokens
    exact Int.cast_nonneg htokens
  next fraction audited hk =>
    rw [hk] at he
    split
    · exact trivial
    · refine h.accrue (mul_nonneg (mul_nonneg he (prices.price_nonneg _)) ?_)
        (le_refl 0)
      exact referenceTokens_nonneg (fun r hr => (h.amounts r hr).2) _
  next => exact h
  next => exact h

/-- **Ingestion keeps the books.** -/
theorem LedgerWf.ingest (prices : LedgerPrices)
    (stream : EventStream) (groups : List GroupRow) (limit : Int) :
    Ends (fun db => LedgerWf config { w with db }) (fun _ => True)
      (ingest config prices stream.events groups limit w.db) := by
  unfold Pay.ingest
  dsimp only
  cases (eventsAfter w.db stream.events limit).getLast? with
  | none => exact h
  | some lastEvent =>
    have hloop : Ends (fun db => LedgerWf config { w with db })
        (fun _ => True) ((eventsAfter w.db stream.events limit).foldlM
          (Pay.ingestOne config prices groups) w.db) := by
      refine foldlM_each ?_ h
      intro db e he hdb
      exact hdb.ingestOne prices groups
        (stream.payable e (mem_eventsAfter he).1)
    refine hloop.bind fun db hdb => ?_
    exact { hdb with }

end Ingest

/-- Ingestion leaves the archives alone. -/
theorem ingest_periods (config : LedgerConfig) (prices : LedgerPrices)
    (stream : List EventRow) (groups : List GroupRow) (limit : Int)
    (db : LedgerDb) : Ends (fun db' => db'.periods = db.periods) (fun _ => True)
      (ingest config prices stream groups limit db) := by
  have hone : ∀ (db : LedgerDb) (e : EventRow),
      Ends (fun db' => db'.periods = db.periods) (fun _ => True)
        (ingestOne config prices groups db e) := by
    intro db e
    unfold ingestOne
    split
    · rfl
    · exact insertAccrual_ends fun _ => rfl
    · split
      · exact trivial
      · exact insertAccrual_ends fun _ => rfl
    · rfl
    · rfl
  unfold ingest
  dsimp only
  split
  · rfl
  · have hloop : Ends (fun db' => db'.periods = db.periods) (fun _ => True)
        ((eventsAfter db stream limit).foldlM
          (ingestOne config prices groups) db) := by
      refine foldlM_each (fun db' e _ h => ?_) rfl
      exact (hone db' e).mono fun _ h' => h'.trans h
    exact hloop.bind fun _ h => h

-- ===== due periods

theorem mem_rangeFrom {a b x : Int} : x ∈ rangeFrom a b ↔ a ≤ x ∧ x < b := by
  unfold rangeFrom
  rw [mem_map]
  constructor
  · rintro ⟨i, hi, rfl⟩
    rw [mem_range] at hi
    omega
  · intro h
    refine ⟨(x - a).toNat, ?_, by omega⟩
    rw [mem_range]
    omega

/-- A set, sorted. -/
theorem rising_insertionSort (due : List Int) :
    (due.dedup.insertionSort (· ≤ ·)).Pairwise (· < ·) := by
  have hle := pairwise_insertionSort (· ≤ · : Int → Int → Prop) due.dedup
  have hnd : (due.dedup.insertionSort (· ≤ ·)).Nodup :=
    (perm_insertionSort _ _).nodup_iff.2 (nodup_dedup due)
  exact (hle.and hnd).imp fun hxy => lt_of_le_of_ne hxy.1 hxy.2

/-- Periods still to settle: upwards, closed, after every archive, and
with every closed period an open accrual is in. -/
structure Due (db : LedgerDb) (closed : Int) (due : List Int) : Prop where
  rising : due.Pairwise (· < ·)
  le_closed : ∀ x ∈ due, x ≤ closed
  after : ∀ x ∈ due, ∀ p ∈ db.periods, p.workPeriod < x
  opened : ∀ r ∈ db.accruals, r.status = .accrued → r.period ≤ closed →
    r.period ∈ due

theorem mem_accruedPeriods {closed x : Int} : x ∈ accruedPeriods db closed ↔
      ∃ r ∈ db.accruals, r.status = .accrued ∧ r.period ≤ closed
        ∧ r.period = x := by
  unfold accruedPeriods
  simp only [mem_map, mem_filter, Bool.and_eq_true, beq_iff_eq,
    decide_eq_true_eq, and_assoc]

theorem outagePeriods_spec {closed x : Int}
    {outages : List (ℚ × ℚ)} (h : x ∈ outagePeriods config db closed outages) :
    x ≤ closed ∧ ∀ last ∈ db.last, last < x := by
  obtain ⟨se, -, hx⟩ := mem_flatMap.1 h
  rw [mem_rangeFrom] at hx
  refine ⟨by omega, ?_⟩
  intro last hlast
  rw [Option.mem_def.1 hlast] at hx
  dsimp only at hx
  omega

/-- **The due periods of a settlement.** -/
theorem LedgerWf.due (h : LedgerWf config w) (closed : Int)
    (outages : List (ℚ × ℚ)) :
    Due w.db closed (duePeriods config w.db closed outages) := by
  -- the periods before the carry's are closed and after the last archive
  have hfirst : ∀ x ∈ accruedPeriods w.db closed
      ++ outagePeriods config w.db closed outages,
      x ≤ closed ∧ ∀ last ∈ w.db.last, last < x := by
    intro x hx
    rcases mem_append.1 hx with hx | hx
    · obtain ⟨r, hr, hs, hle, rfl⟩ := mem_accruedPeriods.1 hx
      refine ⟨hle, ?_⟩
      intro last hlast
      have hmem := (max?_eq_some_iff.1 hlast).1
      obtain ⟨p, hp, rfl⟩ := mem_map.1 hmem
      exact h.ahead r hr hs p hp
    · exact outagePeriods_spec hx
  have hall : ∀ x ∈ duePeriods config w.db closed outages,
      x ≤ closed ∧ ∀ last ∈ w.db.last, last < x := by
    intro x hx
    unfold duePeriods at hx
    rw [mem_insertionSort, mem_dedup] at hx
    rcases mem_append.1 hx with hx | hx
    · exact hfirst x hx
    · split at hx
      next =>
        rw [mem_rangeFrom] at hx
        refine ⟨by omega, ?_⟩
        -- the range starts after the last archive, if there is one
        intro last hlast
        cases hmin : (accruedPeriods w.db closed
            ++ outagePeriods config w.db closed outages
            ++ (w.db.last.map fun last => last + 1).toList).min? with
        | none =>
          rw [min?_eq_none_iff, Option.mem_def.1 hlast] at hmin
          simp at hmin
        | some first =>
          rw [hmin, Option.getD_some] at hx
          have hmem := (min?_eq_some_iff.1 hmin).1
          rcases mem_append.1 hmem with hmem | hmem
          · have := (hfirst first hmem).2 last hlast
            omega
          · rw [Option.mem_def.1 hlast] at hmem
            simp only [Option.map_some, Option.toList_some,
              mem_singleton] at hmem
            omega
      next => cases hx
  refine ⟨?_, fun x hx => (hall x hx).1,
    fun x hx => after_last (hall x hx).2, ?_⟩
  · exact rising_insertionSort _
  · intro r hr hs hle
    unfold duePeriods
    rw [mem_insertionSort, mem_dedup]
    refine mem_append_left _ (mem_append_left _ ?_)
    exact mem_accruedPeriods.2 ⟨r, hr, hs, hle, rfl⟩

-- ===== one archive

section Archive

variable {reads : Readings} {outages : List (ℚ × ℚ)} {period : Int}

/-- The carry before a period that is after all of it. -/
theorem deleteWhere_old {carry : List CarryRow}
    (hold : ∀ c ∈ carry, c.1.2 < period) :
    deleteWhere (fun c => decide (c.1.2 < period)) carry = [] := by
  unfold deleteWhere
  rw [filter_eq_nil_iff]
  intro c hc
  simp [hold c hc]

/-- The carry after a period that took all there was. -/
theorem carryAfter_spec (config : LedgerConfig) (prices : LedgerPrices)
    {rows : List Accrual} {carried carry : List CarryRow} {scale : ℚ}
    (hrows : ∀ r ∈ rows, 0 ≤ r.amount) (hcarried : Nonneg carried)
    (hold : ∀ c ∈ carry, c.1.2 < period) (hs : scale ≤ 1) :
    Nonneg (carryAfter config prices period rows carried scale carry)
      ∧ (∀ p, carryOn p (carryAfter config prices period rows carried scale
          carry) ≤ (scaledOn (envScale config prices rows) p rows
            + carryOn p carried) * (1 - scale))
      ∧ total (carryAfter config prices period rows carried scale carry)
          ≤ config.carryMaxCaps * config.cap
      ∧ ∀ c ∈ carryAfter config prices period rows carried scale carry,
          (∃ r ∈ rows, r.hotkey = c.1.1 ∧ c.1.2 = period)
            ∨ ∃ c' ∈ carried, c'.1 = c.1 := by
  obtain ⟨hnonneg, hle, hmost, hkeys⟩ := carriedOut_spec config prices
    period hrows hcarried (sub_nonneg.2 hs)
  unfold carryAfter
  rw [deleteWhere_old hold]
  by_cases hlt : scale < 1
  · rw [if_pos hlt]
    -- the upsert of distinct parts into an empty table adds them up
    have hsum : ∀ p, sumOn p (gather Prod.fst Prod.snd ((carriedOut config
        period rows (envScale config prices rows) carried
          (1 - scale)).filter fun c => decide (0 < c.2)) [])
        = sumOn p (carriedOut config period rows
            (envScale config prices rows) carried (1 - scale)) := by
      intro p
      rw [sumOn_gather, sumOn_nil, zero_add]
      exact hnonneg.sumOn_pos p
    refine ⟨Nonneg.gather ?_ ?_, ?_, ?_, ?_⟩
    · exact hnonneg.filter _
    · exact forall_mem_nil _
    · intro p
      exact (hsum _).trans_le (hle p)
    · exact (hsum _).trans_le hmost
    · intro c hc
      rcases key_gather hc with ⟨y, hy, -⟩ | ⟨c', hc', hk⟩
      · cases hy
      · have hk : c'.1 = c.1 := hk
        rw [← hk]
        exact hkeys c' (mem_of_mem_filter hc')
  · rw [if_neg hlt]
    have hone : scale = 1 := le_antisymm hs (not_lt.1 hlt)
    refine ⟨forall_mem_nil _, ?_, most_nonneg config, forall_mem_nil _⟩
    intro p
    rw [hone, sub_self, mul_zero]
    exact le_refl 0

theorem isOpen_iff : (r.status == .accrued && r.period == period) = true ↔
      r.status = .accrued ∧ r.period = period := by
  rw [Bool.and_eq_true, beq_iff_eq, beq_iff_eq]

theorem mem_openRows : r ∈ openRows db period ↔
      r ∈ db.accruals ∧ r.status = .accrued ∧ r.period = period := by
  unfold openRows
  rw [mem_filter, isOpen_iff]

theorem nonneg_fillOf (db : LedgerDb) :
    Nonneg (fillOf config db reads outages period) := by
  unfold fillOf
  dsimp only
  split
  · intro x hx
    unfold outageFillOf at hx
    rw [mem_insertionSort, mem_filter, Bool.and_eq_true,
      decide_eq_true_eq] at hx
    exact hx.2.1.le
  · exact forall_mem_nil _

theorem amountOn_append (p : String → Bool) (rows rows' : List Accrual) :
    amountOn p (rows ++ rows') = amountOn p rows + amountOn p rows' := by
  unfold amountOn
  rw [map_append, sum_append]

/-- With no outage there is no fill. -/
theorem fillOf_nil (db : LedgerDb) : fillOf config db reads [] period = [] := by
  unfold fillOf
  exact if_neg (lt_irrefl 0)

variable (h : LedgerWf config w)
include h

theorem LedgerWf.makes :
    MadeWf config (madeOf config prices reads outages w.db period) where
  amounts := fun r hr => (h.amounts r (mem_openRows.1 hr).1).1
  rows := fun _ hr => (mem_openRows.1 hr).2
  carried := h.carry.filter _
  fill := nonneg_fillOf w.db
  doc := ⟨prices, _, rfl⟩

/-- All the carry is from before a period after every archive. -/
theorem LedgerWf.old (hafter : ∀ p ∈ w.db.periods, p.workPeriod < period) :
    ∀ c ∈ w.db.carry, c.1.2 < period := by
  intro c hc
  obtain ⟨p, hp, hle⟩ := h.origins c hc
  have := hafter p hp
  omega

/-- A period passed over. -/
theorem LedgerWf.pass (hafter : ∀ p ∈ w.db.periods, p.workPeriod < period) :
    LedgerWf config (passed period w) := by
  unfold passed
  rw [deleteWhere_old (h.old hafter)]
  refine ⟨h.amounts, h.seqs, h.ahead, h.rising, forall_mem_nil _,
    forall_mem_nil _, most_nonneg config, h.docs,
    h.dated, h.settled, h.made, ?_⟩
  intro hoff p
  refine le_trans ?_ (h.backed hoff p)
  exact add_le_add le_rfl (h.carry.sumOn _)

/-- What an archive pays and carries out is at most its rows and the
carry it took in. -/
theorem LedgerWf.archive_backed
    (hafter : ∀ p ∈ w.db.periods, p.workPeriod < period) (hout : outages = [])
    (hb : Backed w) : Backed (archived config prices
      (madeOf config prices reads outages w.db period) w) := by
  intro p
  have hm : MadeWf config (madeOf config prices reads outages w.db
      period) := h.makes
  set m := madeOf config prices reads outages w.db period with hmdef
  obtain ⟨-, hcarry, -, -⟩ := carryAfter_spec config prices hm.amounts
    hm.carried (h.old hafter) (scaleOf_fraction config m.doc.accruedTotal).2
  have hrewards : sumOn p m.doc.rewards = (scaledOn
      (envScale config prices m.rows) p m.rows + carryOn p m.carried
        + sumOn p m.fill) * m.doc.scale :=
    sumOn_rewards hm.amounts hm.carried hm.fill p
  have hfill : m.fill = [] := by
    subst hout
    have hnil : fillOf config w.db reads [] period = [] := fillOf_nil w.db
    exact hnil
  have hin : carryOn p m.carried ≤ carryOn p w.db.carry :=
    h.carry.sumOn_filter_le _ _
  have hscaled := scaledOn_le config prices hm.amounts p
  have hbefore := hb p
  have hafter := hcarry p
  show ((w.made ++ [m]).map _).sum + carryOn p (carryAfter ..)
    ≤ amountOn p ((w.made ++ [m]).flatMap _)
  rw [map_append, sum_append, flatMap_append,
    amountOn_append, flatMap_singleton, map_singleton,
    sum_singleton, hrewards, hfill, sumOn_nil, add_zero]
  have hshare : (scaledOn (envScale config prices m.rows) p m.rows
      + carryOn p m.carried) * m.doc.scale
      + (scaledOn (envScale config prices m.rows) p m.rows
        + carryOn p m.carried) * (1 - m.doc.scale)
      = scaledOn (envScale config prices m.rows) p m.rows
        + carryOn p m.carried := by
    ring
  have hafter : carryOn p (carryAfter config prices m.doc.workPeriod m.rows
      m.carried m.doc.scale w.db.carry) ≤ (scaledOn
        (envScale config prices m.rows) p m.rows + carryOn p m.carried)
          * (1 - m.doc.scale) := hafter
  have htaken : amountOn p w.taken
      = amountOn p (w.made.flatMap fun m => m.rows) := rfl
  linarith

/-- **A period archived keeps the books.** -/
theorem LedgerWf.archive (hout : config.outageFill = false → outages = [])
    (hafter : ∀ p ∈ w.db.periods, p.workPeriod < period)
    (hopen : ∀ r ∈ w.db.accruals, r.status = .accrued → period ≤ r.period) :
    LedgerWf config (archived config prices
      (madeOf config prices reads outages w.db period) w) := by
  have hm : MadeWf config (madeOf config prices reads outages w.db
      period) := h.makes
  obtain ⟨hnonneg, -, hmost, hkeys⟩ := carryAfter_spec config prices
    hm.amounts hm.carried (h.old hafter) (scaleOf_fraction config
      (madeOf config prices reads outages w.db period).doc.accruedTotal).2
  refine ⟨?_, ?_, ?_, ?_, hnonneg, ?_, hmost, ?_, ?_, ?_, ?_,
    fun hoff => h.archive_backed hafter (hout hoff) (h.backed hoff)⟩
  · exact forall_updateWhere (fun r hr _ => h.amounts r hr)
      fun r hr _ => h.amounts r hr
  · show (List.map _ (updateWhere _ _ _)).Nodup
    rw [updateWhere_column]
    · exact h.seqs
    · exact fun _ => rfl
  · -- what is still open is of a later period
    refine forall_updateWhere (fun _ _ _ => nofun) fun r hr hother hs => ?_
    have hne : r.period ≠ period :=
      fun heq => hother (isOpen_iff.2 ⟨hs, heq⟩)
    have hle := hopen r hr hs
    refine forall_snoc (h.ahead r hr hs) ?_
    show period < r.period
    omega
  · show (List.map _ (w.db.periods ++ [_])).Pairwise _
    rw [map_append]
    exact pairwise_snoc h.rising (forall_mem_map.2 hafter)
  · intro c hc
    refine ⟨_, mem_concat_self, ?_⟩
    show c.1.2 ≤ period
    rcases hkeys c hc with ⟨r, -, -, hk⟩ | ⟨c', hc', hk⟩
    · exact hk.le
    · rw [← hk]
      exact (h.old hafter c' (mem_of_mem_filter hc')).le
  · show List.map _ (w.db.periods ++ [_]) = List.map _ (w.made ++ [_])
    rw [map_append, map_append, h.docs]
    rfl
  · exact forall_snoc h.dated rfl
  · -- the rows settled now are the rows of the archive
    have hperm := perm_filter_updateWhere
      (p := fun r : Accrual => r.status == .accrued && r.period == period)
      (q := fun r => r.status == .settled) (f := Accrual.settle) ?_
      w.db.accruals
    · show (((w.made ++ [_]).flatMap _).map _).Perm _
      rw [flatMap_append, map_append, flatMap_singleton]
      exact (h.settled.append_right _).trans hperm.symm
    · intro r hr
      rw [(isOpen_iff.1 hr).1]
      exact ⟨rfl, rfl⟩
  · exact forall_snoc h.made hm

end Archive

-- ===== whole settlements

/-- The rows a settlement has to take: each is still open, or settled
and in the archive of its period. -/
def Reached (w₀ : LedgerWorld) (closed : Int) (w : LedgerWorld) : Prop :=
  ∀ r ∈ w₀.db.accruals, r.status = .accrued → r.period ≤ closed →
    r ∈ w.db.accruals ∨ r.settle ∈ w.db.accruals
      ∧ ∃ m ∈ w.made, m.doc.workPeriod = r.period ∧ r ∈ m.rows

/-- What holds in the loop of a settlement. -/
structure Settling (config : LedgerConfig) (w₀ : LedgerWorld)
    (closed : Int) (w : LedgerWorld) (due : List Int) : Prop where
  wf : LedgerWf config w
  due : Due w.db closed due
  reached : Reached w₀ closed w

section Settle

variable {reads : Readings} {outages : List (ℚ × ℚ)} {period : Int}
  {w₀ : LedgerWorld} {closed : Int} {due : List Int}

/-- The first of the due periods has every open accrual at or after
it. -/
theorem Due.first (h : Due w.db closed (period :: due)) (hr : r ∈ w.db.accruals)
    (hs : r.status = .accrued) : period ≤ r.period := by
  by_cases hle : r.period ≤ closed
  · rcases mem_cons.1 (h.opened r hr hs hle) with heq | hmem
    · exact heq.ge
    · exact ((pairwise_cons.1 h.rising).1 _ hmem).le
  · have := h.le_closed period mem_cons_self
    omega

/-- Passing over a period nothing is open in. -/
theorem Settling.pass (h : Settling config w₀ closed w (period :: due))
    (hnone : openRows w.db period = []) :
    Settling config w₀ closed (passed period w) due where
  wf := h.wf.pass (h.due.after period mem_cons_self)
  due := by
    refine ⟨(pairwise_cons.1 h.due.rising).2,
      fun x hx => h.due.le_closed x (mem_cons_of_mem _ hx),
      fun x hx => h.due.after x (mem_cons_of_mem _ hx), ?_⟩
    intro r hr hs hle
    rcases mem_cons.1 (h.due.opened r hr hs hle) with heq | hmem
    · have hmem : r ∈ openRows w.db period := mem_openRows.2 ⟨hr, hs, heq⟩
      rw [hnone] at hmem
      cases hmem
    · exact hmem
  reached := h.reached

/-- Archiving it. -/
theorem Settling.archive (h : Settling config w₀ closed w (period :: due))
    (hout : config.outageFill = false → outages = []) :
    Settling config w₀ closed (archived config prices
      (madeOf config prices reads outages w.db period) w) due where
  wf := h.wf.archive hout (h.due.after period mem_cons_self)
    fun _ hr hs => h.due.first hr hs
  due := by
    obtain ⟨hlater, hrising⟩ := pairwise_cons.1 h.due.rising
    refine ⟨hrising,
      fun x hx => h.due.le_closed x (mem_cons_of_mem _ hx), ?_, ?_⟩
    · exact fun x hx =>
        forall_snoc (h.due.after x (mem_cons_of_mem _ hx)) (hlater x hx)
    · refine forall_updateWhere (fun _ _ _ => nofun) ?_
      intro r hr hother hs hle
      refine mem_of_ne_of_mem ?_ (h.due.opened r hr hs hle)
      exact fun heq => hother (isOpen_iff.2 ⟨hs, heq⟩)
  reached := by
    intro r hr hs hle
    rcases h.reached r hr hs hle with hmem | ⟨hmem, m, hm, hmr⟩
    · by_cases hp : r.period = period
      · right
        exact ⟨mem_updateWhere.2 ⟨r, hmem, if_pos (isOpen_iff.2 ⟨hs, hp⟩)⟩, _,
          mem_concat_self, hp.symm,
          mem_openRows.2 ⟨hmem, hs, hp⟩⟩
      · left
        exact mem_updateWhere.2 ⟨r, hmem,
          if_neg fun hboth => hp (isOpen_iff.1 hboth).2⟩
    · right
      refine ⟨mem_updateWhere.2 ⟨r.settle, hmem, rfl⟩, m,
        mem_append_left _ hm, hmr⟩

/-- A number that does not fit its column. -/
theorem sqlInt_ends (n : Int) :
    Ends (fun _ => True) (· = Err.overflow) (sqlInt n) := by
  unfold sqlInt
  split
  · exact trivial
  · exact rfl

/-- One due period: it is passed over or archived, unless the entry
period does not fit its column. -/
theorem settlePeriod_ends (h : Settling config w₀ closed w (period :: due))
    (hout : config.outageFill = false → outages = []) :
    Ends (fun w' => Settling config w₀ closed w' due) (· = .overflow)
      (settlePeriod config prices reads outages w period) := by
  unfold settlePeriod
  dsimp only
  split
  next hnone => exact h.pass hnone.1
  next =>
    refine (sqlInt_ends _).bind fun _ _ => ?_
    have hfree : (w.db.periods.any fun r => r.workPeriod == period)
        = false := by
      rw [any_eq_false]
      intro p hp heq
      have hlt := h.due.after period mem_cons_self p hp
      rw [beq_iff_eq] at heq
      omega
    rw [hfree]
    exact h.archive hout

end Settle

theorem outagesAt_off (hoff : config.outageFill = false) (db : LedgerDb)
    (downtime : List (ℚ × ℚ)) (now : ℚ) :
    outagesAt config db downtime now = [] :=
  if_pos hoff

/-- **A settlement** keeps the books and takes every open accrual of a
closed period; it raises only what a period too large for its column
raises. -/
theorem settle_ends (h : LedgerWf config w) (prices : LedgerPrices)
    (downtime : List (ℚ × ℚ)) (reads : Readings) :
    Ends (fun w' => Settling config w (closedAt config reads.now) w' [])
      (· = .overflow) (settle config prices downtime reads w) := by
  refine (sqlInt_ends _).bind fun _ _ => ?_
  refine foldlM_ends (I := Settling config w (closedAt config reads.now))
    ?_ ⟨h, h.due _ _, fun r hr _ _ => .inl hr⟩
  intro w' period due hw
  exact settlePeriod_ends hw fun hoff => outagesAt_off hoff _ _ _

-- ===== the run

/-- Every call keeps the books. -/
theorem ledgerWf_step (h : LedgerWf config w) (op : LedgerOp) :
    LedgerWf config (ledgerStep config w op) := by
  cases op with
  | ingest prices stream groups limit =>
    have hends := h.ingest prices stream groups limit
    rw [ledgerStep]
    split
    next db hf =>
      rw [hf] at hends
      exact hends
    next => exact h
  | settle prices downtime reads =>
    have hends := settle_ends h prices downtime reads
    rw [ledgerStep]
    split
    next w' hf =>
      rw [hf] at hends
      exact hends.wf
    next => exact h
  | trainerBeat now =>
    show LedgerWf config (trainerBeat config now w)
    unfold trainerBeat
    split
    · exact h
    split
    · exact h
    exact { h with }
  | restart =>
    exact { h with }

theorem ledgerWf_run {ops : List LedgerOp}
    (hrun : Free (ledgerStep config) {} ops w) : LedgerWf config w :=
  hrun.invariant (ledgerWf_empty config) fun _ op _ h => ledgerWf_step h op

-- ===== conservation

/-- What the archives pay a hotkey. -/
def LedgerDb.paidTo (db : LedgerDb) (hotkey : String) : ℚ :=
  (db.periods.map fun p => sumAt p.doc.rewards hotkey).sum

/-- What a hotkey has pending in `rl_pay_carry`. -/
def LedgerDb.carriedBy (db : LedgerDb) (hotkey : String) : ℚ :=
  carryOn (fun h => decide (h = hotkey)) db.carry

/-- What a hotkey's settled accruals amount to. -/
def LedgerDb.earnedBy (db : LedgerDb) (hotkey : String) : ℚ :=
  amountOn (fun h => decide (h = hotkey)) db.settledRows

/-- How often an accrual is in an archive. -/
def LedgerWorld.timesTaken (w : LedgerWorld) (seq : Nat) : Nat :=
  w.taken.countP fun r => r.seq == seq

/-- The books are in order. -/
structure Conserved (config : LedgerConfig) (w : LedgerWorld) : Prop where
  /-- No archive pays more than the cap. -/
  capped : ∀ p ∈ w.db.periods, total p.doc.rewards ≤ config.cap
  /-- No hotkey is paid, with what it has pending, more than it earned. -/
  paid : ∀ hotkey, w.db.paidTo hotkey + w.db.carriedBy hotkey
    ≤ w.db.earnedBy hotkey
  /-- No work period has two archives. -/
  once : (w.db.periods.map fun p => p.workPeriod).Nodup
  /-- The history is that of the archives. -/
  history : w.made.map (fun m => m.doc) = w.db.periods.map fun p => p.doc
  /-- A settled accrual is in one archive, any other in none. -/
  taken : ∀ r ∈ w.db.accruals,
    w.timesTaken r.seq = if r.status = .settled then 1 else 0
  /-- No accrual is left at or below an archived period. -/
  ahead : ∀ r ∈ w.db.accruals, r.status = .accrued →
    ∀ p ∈ w.db.periods, p.workPeriod < r.period
  /-- The carry is at most its own cap. -/
  held : total w.db.carry ≤ config.carryMaxCaps * config.cap

theorem MadeWf.capped {m : Made} (h : MadeWf config m) :
    total m.doc.rewards ≤ config.cap := by
  obtain ⟨prices, downS, hdoc⟩ := h.doc
  rw [hdoc]
  exact rewards_capped h.amounts h.carried h.fill

theorem amountOn_perm {rows rows' : List Accrual} (h : rows.Perm rows')
    (p : String → Bool) : amountOn p rows = amountOn p rows' :=
  (h.map _).sum_eq

theorem amountOn_settle (p : String → Bool) (rows : List Accrual) :
    amountOn p (rows.map Accrual.settle) = amountOn p rows := by
  unfold amountOn
  rw [map_map]
  rfl

/-- The rows taken with a key are the settled rows with it. -/
theorem LedgerWf.timesTaken (h : LedgerWf config w) (hr : r ∈ w.db.accruals) :
    w.timesTaken r.seq = if r.status = .settled then 1 else 0 := by
  have hmap : w.timesTaken r.seq
      = (w.taken.map Accrual.settle).countP fun x => x.seq == r.seq := by
    rw [countP_map]
    rfl
  rw [hmap, h.settled.countP_eq]
  unfold LedgerDb.settledRows
  rw [countP_filter]
  have hkey := countP_key h.seqs hr fun x => x.status == .settled
  simp only [beq_iff_eq] at hkey
  rw [← hkey]
  refine countP_congr fun x _ => ?_
  rw [Bool.and_comm]

theorem LedgerWf.conserved (h : LedgerWf config w)
    (hoff : config.outageFill = false) : Conserved config w where
  capped := by
    intro p hp
    have hdoc : p.doc ∈ w.made.map fun m => m.doc :=
      h.docs ▸ mem_map_of_mem hp
    obtain ⟨m, hm, heq⟩ := mem_map.1 hdoc
    rw [← heq]
    exact (h.made m hm).capped
  paid := by
    intro hotkey
    have hb := h.backed hoff fun h => decide (h = hotkey)
    have hpaid : w.db.paidTo hotkey
        = (w.made.map fun m => sumAt m.doc.rewards hotkey).sum := by
      have hcomp := congrArg (fun docs => (docs.map fun d : Archive =>
        sumAt d.rewards hotkey).sum) h.docs
      simp only [map_map] at hcomp
      exact hcomp
    have hearned : w.db.earnedBy hotkey
        = amountOn (fun h => decide (h = hotkey)) w.taken := by
      unfold LedgerDb.earnedBy
      rw [← amountOn_perm h.settled, amountOn_settle]
    rw [hpaid, hearned]
    exact hb
  once := h.rising.imp fun hlt => hlt.ne
  history := h.docs.symm
  taken := fun _ hr => h.timesTaken hr
  ahead := h.ahead
  held := h.held

/-- **Conservation and cap.** In every state the ledger can come to, with
the outage fill off, the books are in order; and a settlement from there
leaves them so, with every open accrual of a closed period settled into
the archive of that period. -/
theorem ledger_conserves (config : LedgerConfig)
    (hoff : config.outageFill = false) (ops : List LedgerOp)
    (w : LedgerWorld) (hrun : Free (ledgerStep config) {} ops w) :
    Conserved config w
      ∧ ∀ prices downtime reads, Ends (fun w' => Conserved config w'
          ∧ ∀ r ∈ w.db.accruals, r.status = .accrued →
            r.period ≤ closedAt config reads.now →
            r.settle ∈ w'.db.accruals
              ∧ ∃ m ∈ w'.made, m.doc.workPeriod = r.period ∧ r ∈ m.rows)
          (· = .overflow) (settle config prices downtime reads w) := by
  have hwf := ledgerWf_run hrun
  refine ⟨hwf.conserved hoff, ?_⟩
  intro prices downtime reads
  refine (settle_ends hwf prices downtime reads).mono fun w' hw' => ?_
  refine ⟨hw'.wf.conserved hoff, ?_⟩
  intro r hr hs hle
  rcases hw'.reached r hr hs hle with hopen | htaken
  · -- nothing due is left, so the row cannot be open
    cases hw'.due.opened r hopen hs hle
  · exact htaken

/-- A cap of a half, with the rest carried for two periods. -/
def halfCap : LedgerConfig where
  taskId := "rl"
  cap := 1 / 2
  genesis := 0
  carryPeriods := 2
  cap_fraction := by constructor <;> norm_num

/-- One token is worth a tenth. -/
def tenthPrice : LedgerPrices where
  tokenPrice _ := 1 / 10
  targets := []
  price_nonneg := fun _ => by norm_num
  target_nonneg := forall_mem_nil _

/-- A group of ten tokens, trained in period 0. -/
def tenTokens : EventStream where
  events := [{ seq := 1, leaseId := "l", hotkey := "hk", at_ := 60
               kind := .trained
                 { rolloutMatch := [1], completionTokens := [10]
                   checkpoint := 0, environment := "math", judged := none
                   matchedTokens := none, rewardMoved := false } }]
  payable := by
    intro e he
    rw [mem_singleton.1 he]
    refine ⟨?_, fun _ h => absurd h (by simp)⟩
    intro m hm
    rw [mem_singleton.1 hm]
    exact zero_le_one

/-- A clock that stands still. -/
def stillAt (now : ℚ) : Readings where
  now := now
  carry _ _ := now
  fill _ := now

/-- The group is ingested and settled: half of it is paid, the other
half carried. -/
theorem ledger_conserves_half :
    let w := [LedgerOp.ingest tenthPrice tenTokens [] 10000,
      .settle tenthPrice [] (stillAt 5000)].foldl (ledgerStep halfCap) {}
    w.db.paidTo "hk" = 1 / 2 ∧ w.db.carriedBy "hk" = 1 / 2
      ∧ w.db.earnedBy "hk" = 1 ∧ Conserved halfCap w := by
  refine ⟨by decide +kernel, by decide +kernel, by decide +kernel, ?_⟩
  exact (ledger_conserves halfCap rfl _ _
    (Run.of_list (fun _ _ _ => trivial) _)).1

end Reliquary.Pay
