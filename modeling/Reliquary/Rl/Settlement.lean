/-
The validator with its pay ledger, over one file.

Each call of either is one transaction under the book's lock, so a run is
any interleaving of the two. The desk has at most one event that pays a
lease (`DeskWf.pays_once`), the ledger one accrual per event and each in
one archive at most (`LedgerWf`); `Sourced` ties the two.
-/
import Reliquary.Pay.Conserve
import Reliquary.Rl.Payment

namespace Reliquary.Rl

open Store List Pay EventRow

/-- A call of the one or the other. -/
def payStep (sha256 : List UInt8 → List UInt8) (token : Nat → String)
    (config : LedgerConfig) (w : SubWorld × LedgerWorld) :
    SubOp ⊕ LedgerOp → SubWorld × LedgerWorld
  | .inl op => (subStep sha256 token w.1 op, w.2)
  | .inr op => (w.1, ledgerStep config w.2 op)

/-- What it ingests, if anything, are these events. -/
def Reads (events : List EventRow) : LedgerOp → Prop
  | .ingest _ stream _ _ => stream.events = events
  | _ => True

/-- The submission path alone tells of payments; an ingestion reads the
events on file, which the ledger takes (`payable_of_run`). -/
def OnFile (w : SubWorld × LedgerWorld) : SubOp ⊕ LedgerOp → Prop
  | .inl op => Served w.1 op
  | .inr op => Reads w.1.file.events op

/-- Is this an event that pays the lease? -/
def EventRow.pays (id : String) (e : EventRow) : Bool :=
  counts .trained id e || counts .firstScan id e

/-- Every accrual is of an event that pays its lease and its hotkey. -/
def Sourced (events : List EventRow) (db : LedgerDb) : Prop :=
  ∀ r ∈ db.accruals, ∃ e ∈ events, e.seq = r.seq ∧ e.hotkey = r.hotkey
    ∧ e.pays r.leaseId = true

variable {sha256 : List UInt8 → List UInt8} {token : Nat → String}
  {config : LedgerConfig} {events : List EventRow} {w : LedgerWorld}

/-- One event ingested. -/
theorem Sourced.ingestOne {db : LedgerDb} (h : Sourced events db)
    (prices : LedgerPrices) (groups : List GroupRow) {e : EventRow}
    (he : e ∈ events) : Ends (Sourced events) (fun _ => True)
      (ingestOne config prices groups db e) := by
  unfold Pay.ingestOne
  split
  · exact forall_updateWhere (fun r hr _ => h r hr) fun r hr _ => h r hr
  next hk =>
    refine insertAccrual_ends fun _ => forall_snoc h ⟨e, he, rfl, rfl, ?_⟩
    simp [pays, counts, accrualOf, hk, EventKind.tally]
  next hk =>
    split
    · exact trivial
    refine insertAccrual_ends fun _ => forall_snoc h ⟨e, he, rfl, rfl, ?_⟩
    simp [pays, counts, accrualOf, hk, EventKind.tally]
  · exact h
  · exact h

/-- A call of the ledger adds accruals of the events it reads only. -/
theorem Sourced.step (h : Sourced events w.db) {op : LedgerOp}
    (hop : Reads events op) : Sourced events (ledgerStep config w op).db := by
  cases op with
  | ingest prices stream groups limit =>
    have hends : Ends (Sourced events) (fun _ => True)
        (ingest config prices stream.events groups limit w.db) := by
      unfold ingest
      dsimp only
      split
      · exact h
      refine Ends.bind (foldlM_each (fun _ e he hdb => ?_) h) fun _ hdb => hdb
      exact hdb.ingestOne prices groups (hop ▸ (mem_eventsAfter he).1)
    rw [ledgerStep]
    split
    next hf => rwa [hf] at hends
    next => exact h
  | settle prices downtime reads =>
    have hends : Ends (fun w' => Sourced events w'.db) (fun _ => True)
        (settle config prices downtime reads w) := by
      refine Ends.bind (Q := fun _ => True) (ends_any _) fun _ _ => ?_
      refine foldlM_each (fun _ _ _ hw => settlePeriod_rule hw fun _ => ?_) h
      exact forall_updateWhere (fun r hr _ => hw r hr) fun r hr _ => hw r hr
    rw [ledgerStep]
    split
    next hf => rwa [hf] at hends
    next => exact h
  | trainerBeat now =>
    show Sourced events (trainerBeat config now w).db
    unfold trainerBeat
    split_ifs <;> exact h
  | restart => exact h

/-- No transaction takes an event out of the stream. -/
theorem events_kept {d d' : Desk} (h : Relation.ReflGen DeskMove d d') :
    d.events ⊆ d'.events := by
  cases h with
  | refl => exact Subset.refl _
  | single h =>
    cases h with
    | hand | retry => exact Subset.refl _
    | _ => exact subset_append_left _ _

/-- What holds of the two together. -/
structure PayWf (sha256 : List UInt8 → List UInt8) (token : Nat → String)
    (config : LedgerConfig) (w : SubWorld × LedgerWorld) : Prop where
  sub : SubWf sha256 token w.1
  ledger : LedgerWf config w.2
  sourced : Sourced w.1.file.events w.2.db

/-- **A call of either keeps it.** -/
theorem PayWf.step (hinj : Function.Injective token)
    {w : SubWorld × LedgerWorld} {op : SubOp ⊕ LedgerOp} (hop : OnFile w op)
    (h : PayWf sha256 token config w) :
    PayWf sha256 token config (payStep sha256 token config w op) := by
  cases op with
  | inl op =>
    have hstep := subStep_makes hinj h.sub hop
    refine ⟨hstep.wf hinj h.sub, h.ledger, fun r hr => ?_⟩
    obtain ⟨e, he, hof⟩ := h.sourced r hr
    exact ⟨e, events_kept hstep.desk he, hof⟩
  | inr op =>
    exact ⟨h.sub, ledgerWf_step h.ledger op, h.sourced.step hop⟩

/-- An event that pays counts as trained or as a first scan. -/
theorem countP_pays (id : String) (events : List EventRow) :
    events.countP (pays id) ≤ events.countP (counts .trained id)
      + events.countP (counts .firstScan id) := by
  induction events with
  | nil => simp
  | cons e events ih => grind [pays]

/-- A lease that one event pays has one accrual at most. -/
theorem Sourced.once (h : Sourced events w.db) (hw : LedgerWf config w)
    {id : String} (hone : Unique (pays id) events) :
    w.db.accruals.countP (fun r => r.leaseId == id) ≤ 1 := by
  by_contra hmany
  obtain ⟨r, hr, hid⟩ := countP_pos_iff.1
    (Nat.zero_lt_one.trans (not_le.1 hmany))
  have hcount := countP_key hw.seqs hr fun x => x.leaseId == id
  rw [if_pos hid] at hcount
  refine hmany (le_of_eq (Eq.trans (countP_congr fun x hx => ?_) hcount))
  -- all of them have the key of the one event
  obtain ⟨e, he, hseq, -, hp⟩ := h x hx
  obtain ⟨e', he', hseq', -, hp'⟩ := h r hr
  simp only [Bool.and_eq_true, beq_iff_eq] at hid ⊢
  refine ⟨fun hxid => ⟨hxid, ?_⟩, fun hboth => hboth.1⟩
  rw [← hseq, ← hseq', hone.eq he he' (hxid ▸ hp) (hid ▸ hp')]

/-- **A lease is paid in one archive at most.** However calls of the
validator and its ledger interleave, whatever raises or restarts, the
outage fill on or off: over all archives a lease has one row at most, and
the lease of a refused group no accrual; and every accrual is of an event
that pays its lease and its hotkey. -/
theorem paid_in_one_archive (hinj : Function.Injective token)
    (book : BookConfig) (quota : QuotaConfig) (submit : SubmitConfig) (now : ℚ)
    {ops : List (SubOp ⊕ LedgerOp)} {v : SubWorld}
    (hrun : Run (payStep sha256 token config) OnFile
      (firstStart book quota submit now, {}) ops (v, w)) :
    (∀ id, w.taken.countP (fun r => r.leaseId == id) ≤ 1)
      ∧ (∀ g ∈ v.file.groups, g.verdict = .rejected →
          ∀ r ∈ w.db.accruals, r.leaseId ≠ g.leaseId)
      ∧ Sourced v.file.events w.db := by
  obtain ⟨hv, hw, hs⟩ := hrun.invariant (I := PayWf sha256 token config)
    ⟨(subWf_firstStart book quota submit now).1, ledgerWf_empty config,
      forall_mem_nil _⟩ fun _ _ hop h => h.step hinj hop
  refine ⟨fun id => ?_, ?_, hs⟩
  · have htaken := hw.settled.countP_eq fun r => r.leaseId == id
    rw [countP_map] at htaken
    have hrows : w.db.settledRows.countP (fun r => r.leaseId == id)
        ≤ w.db.accruals.countP fun r => r.leaseId == id :=
      filter_sublist.countP_le
    have hone := hs.once hw ((countP_pays id _).trans (hv.desk.pays_once id))
    exact htaken.trans_le (hrows.trans hone)
  · intro g hg hr r hra hid
    obtain ⟨e, he, -, -, hp⟩ := hs r hra
    have hpos := countP_pos_iff.2 ⟨e, he, hid ▸ hp⟩
    exact absurd (hpos.trans_le (countP_pays g.leaseId _))
      (hv.desk.refused_unpaid hg hr).not_gt

/-- The events of the small validator. -/
def trainedStream : EventStream where
  events := (after trainedOps).file.events
  payable := payable_of_run counted_injective
    (show Free _ (firstStart oneEnv {} {} 0) trainedOps _ from
      Run.of_list (fun _ _ _ => trivial) _)

/-- Its group is trained, ingested and settled. -/
theorem paid_in_one_archive_trained :
    let w := (trainedOps.map Sum.inl ++
      [LedgerOp.ingest tenthPrice trainedStream [] 10,
        .settle tenthPrice [] (stillAt 5000)].map Sum.inr).foldl
        (payStep firstByte counted halfCap) (firstStart oneEnv {} {} 0, {})
    (w.2.taken.map fun r => r.leaseId) = ["0"]
      ∧ ∀ id, w.2.taken.countP (fun r => r.leaseId == id) ≤ 1 := by
  refine ⟨by decide +kernel, ?_⟩
  refine (paid_in_one_archive counted_injective oneEnv {} {} 0
    (Run.of_permitted ?_)).1
  exact ⟨rfl, rfl, rfl, rfl, rfl, rfl, rfl, trivial, trivial⟩

end Reliquary.Rl
