/-
Ledger rewrites (`validator/corpus_service.py`): the written form of a
reachable ledger, the migration of a v1 ledger and the downgrade back.

# The run

`LiveLedger` is a ledger as the service holds it, with the bodies of the
segments it names. Its steps are the ones the service takes between a
read and a write of the object: a submission or a skip decided, pending
digests sealed, an audit failure recorded, published records cleared, and
the object written and read again. A turn is a sequence of them, so what
holds in every state of a run holds of every ledger a turn, a recorded
failure or a recovery writes.

# What is proven

`LiveInv` holds in every state reached, and under it the written form
reads back. The v1 form has no field for failures: a downgrade drops
them, and `ledger_rewrites` says it keeps everything else, and all of it
where no failure is recorded.
-/
import Reliquary.Corpus.Requests

namespace Reliquary.Corpus

open Store Finset List SlotLedger

-- ===== the live ledger

/-- The object a state is written as. -/
def LedgerState.snapshot (s : LedgerState) : LedgerDoc :=
  ledgerSnapshot s.slots s.cursors s.pending s.segments
    (if s.schema = .v3 ∨ s.records ≠ [] then some s.records else none)

structure LiveLedger where
  state : LedgerState
  /-- What the segments hold, in the order the ledger names them. -/
  bodies : List (List String)
deriving DecidableEq

namespace LiveLedger

def init (job : JobSpec) : LiveLedger := ⟨unwritten job, []⟩

/-- Every digest accepted work has. -/
def digests (w : LiveLedger) : Finset String :=
  w.bodies.flatten.toFinset ∪ w.state.pending

def seen (w : LiveLedger) (digest : String) : Bool :=
  decide (digest ∈ w.state.pending)
    || decide (digest ∈ w.bodies.flatten.toFinset)

/-- An entry decided, as a turn does: one that raises or whose reference
clashes leaves nothing. -/
def settleEntry (w : LiveLedger) (e : TurnEntry SlotError) : LiveLedger :=
  match e.decide w.state.ledgers w.seen with
  | (.error _, _) => w
  | (.ok verdict, L) =>
    if verdict.accepted then
      match keepRecord (w.state.records.map fun r => (r.submissionId, r))
          e.recordRef with
      | .error _ => w
      | .ok records =>
        { w with
          state := { w.state with
            slots := L.slots
            cursors := L.cursors
            pending := w.state.pending ∪ (e.digests L.slots).toFinset
            records := records.map Prod.snd } }
    else
      { w with
        state := { w.state with slots := L.slots, cursors := L.cursors } }

/-- Pending becomes segments. -/
def sealPending (name : List String → String) (segmentMax : Nat) (w : LiveLedger) :
    LiveLedger :=
  { state := { w.state with
      pending := ∅
      segments := w.state.segments
        ++ (sealChunks w.state.pending segmentMax).map (segmentRef name) }
    bodies := w.bodies ++ sealChunks w.state.pending segmentMax }

end LiveLedger

open LiveLedger

/-- `record_prompt_failure`: only an eval or a draw job's slots reopen. -/
def recordPromptFailure (job : JobSpec) (evalSource : Bool) (s : LedgerState)
    (promptIndex : Nat) (submissionId : String) (slot : Option Int)
    (hotkey : Option String) : Except SlotError LedgerState :=
  if !(evalSource || hasDraw job) then .error .value
  else do
    let (slots, _) ← s.slots.recordFailure promptIndex submissionId slot hotkey
    pure { s with slots }

/-- `recover_pending_records` past publication: the references whose
bodies are canonical are cleared. -/
def clearRecords (committed : List RecordRef) (s : LedgerState) :
    Except LedgerError LedgerState :=
  let standing := fun r : RecordRef =>
    committed.find? fun c => decide (c.submissionId = r.submissionId)
  if s.records.any fun r => (standing r).any fun c => decide (c ≠ r) then
    .error .replaced
  else
    let remaining := s.records.filter fun r => (standing r).isNone
    if remaining.length = s.records.length then .ok s
    else .ok { s with schema := .v3, records := remaining }

inductive LedgerOp
  | submit (sub : Submission) (ref : Option RecordRef)
  | skip (req : SkipRequest)
  | sealPending (segmentMax : Nat)
  | fail (promptIndex : Nat) (id : SubmissionId) (slot : Option Int)
      (hotkey : Option String)
  | recover (committed : List RecordRef)
  | reread

section Step

variable (H : Hashes) (job : JobSpec) (name : List String → String)
  (evalSource : Bool)

/-- One step; what raises changes nothing. -/
def liveStep (w : LiveLedger) : LedgerOp → LiveLedger
  | .submit sub ref => w.settleEntry (submitEntry H job sub ref)
  | .skip req => w.settleEntry (skipEntry H job req)
  | .sealPending segmentMax => w.sealPending name segmentMax
  | .fail promptIndex id slot hotkey =>
    match recordPromptFailure job evalSource w.state promptIndex id.text slot
        hotkey with
    | .error _ => w
    | .ok state => { w with state }
  | .recover committed =>
    match clearRecords committed w.state with
    | .error _ => w
    | .ok state => { w with state }
  | .reread =>
    match rebuildLedgers job w.state.snapshot with
    | .error _ => w
    | .ok state => { w with state }

/-- What a step may be: hotkeys and ids are not empty, only an episode
job has sessions, references are as the record store makes them, and
distinct bodies have distinct hashes. -/
def LedgerOk (w : LiveLedger) : LedgerOp → Prop
  | .submit sub ref => sub.hotkey ≠ ""
      ∧ (sub.sessionKey.isSome = true → job.episode = true)
      ∧ ∀ r, ref = some r → r.ok = true
  | .skip req => req.hotkey ≠ ""
  | .sealPending segmentMax => 1 ≤ segmentMax
      ∧ NamesOk name w.bodies (sealChunks w.state.pending segmentMax)
  | .fail _ id _ _ => id.text ≠ ""
  | .recover _ => True
  | .reread => True

end Step

-- ===== the invariant

/-- The ledger is the job's, names its bodies and has no digest twice. -/
structure LiveInv (name : List String → String) (job : JobSpec)
    (w : LiveLedger) : Prop where
  wf : w.state.Wf job
  named : w.state.segments = w.bodies.map (segmentRef name)
  apart : Apart w.bodies w.state.pending

section Keeps

variable {H : Hashes} {job : JobSpec} {name : List String → String}
  {evalSource : Bool} {w : LiveLedger} {state : LedgerState}

theorem LiveInv.init : LiveInv name job (init job) where
  wf := {
    slots := wf_of_empty rfl rfl rfl
    start := rfl
    count := rfl
    perPrompt := rfl
    cursorKeys := nodup_nil
    hotkeys := not_mem_nil
    segmentsOk := nofun
    segmentIds := nodup_nil
    recordsOk := nofun
    recordIds := nodup_nil }
  named := rfl
  apart := ⟨List.Pairwise.nil, nofun⟩

/-- The references after one more: those there, or with it among them. -/
theorem keepRecord_keeps {records records' : List (String × RecordRef)}
    {ref : Option RecordRef} (h : keepRecord records ref = .ok records')
    {P : String × RecordRef → Prop} (hold : ∀ x ∈ records, P x)
    (hnew : ∀ r, ref = some r → P (r.submissionId, r))
    (honce : (records.map Prod.fst).Nodup) :
    (∀ x ∈ records', P x) ∧ (records'.map Prod.fst).Nodup := by
  cases ref with
  | none =>
    cases h
    exact ⟨hold, honce⟩
  | some r =>
    have hput : records' = put r.submissionId r records := by
      rw [keepRecord] at h
      split at h
      · split at h
        · exact (Except.ok.inj h).symm
        · cases h
      · exact (Except.ok.inj h).symm
    rw [hput]
    exact ⟨forall_put hold (hnew r rfl), nodup_keys_put _ _ honce⟩

/-- One more failure reopens no less. -/
theorem reopenedBy_append (es : List String) (e : String) :
    reopenedBy es ≤ reopenedBy (es ++ [e]) := by
  have hcount : (es.countP fun e => (drawPart e).isNone)
      ≤ (es ++ [e]).countP fun e => (drawPart e).isNone := by
    rw [countP_append]
    exact Nat.le_add_right _ _
  have hslots : slotsOf (es ++ [e]) = slotsOf es ++ slotsOf [e] :=
    filterMap_append
  have hsum : ∑ k ∈ (slotsOf es).toFinset,
        min ((slotsOf es).count k) (attemptsPerSlot - 1)
      ≤ ∑ k ∈ (slotsOf (es ++ [e])).toFinset,
        min ((slotsOf (es ++ [e])).count k) (attemptsPerSlot - 1) := by
    have hsub : (slotsOf es).toFinset ⊆ (slotsOf (es ++ [e])).toFinset := by
      rw [hslots, toFinset_append]
      exact subset_union_left
    refine le_trans (Finset.sum_le_sum fun k _ => ?_)
      (sum_le_sum_of_subset hsub)
    rw [hslots, List.count_append]
    omega
  rw [reopenedBy_eq, reopenedBy_eq]
  omega

theorem SlotLedger.Wf.failAt {l : SlotLedger} (h : l.Wf) {p : Nat} {e : String}
    (hown : l.owns p = true) (hnew : e ∉ l.failedAt p) (he : e ≠ "") :
    (l.failAt p e).Wf where
  toShape := h.toShape.failAt hown hnew he
  within := by
    intro x hx
    refine (h.within x hx).trans ?_
    have hmono : l.reopened x.1 ≤ (l.failAt p e).reopened x.1 := by
      unfold reopened
      rw [failedAt_failAt]
      split
      · rename_i hp
        rw [hp]
        exact reopenedBy_append _ _
      · exact le_rfl
    unfold capacityAt
    have hsame : (l.failAt p e).slotsPerPrompt = l.slotsPerPrompt := rfl
    have hlimit : (l.failAt p e).attemptLimit = l.attemptLimit := rfl
    omega

/-- What is recorded names the submission, and is not empty. -/
theorem failureText_id (id : SubmissionId) (hid : id.text ≠ "")
    (slot : Option Int) (hotkey : Option String) :
    failureId (failureText (idKey id.text) slot hotkey) = idKey id.text
      ∧ failureText (idKey id.text) slot hotkey ≠ "" := by
  have hsep := id.no_separator
  have hkey : idKey id.text ≠ "" := by
    intro h0
    apply hid
    have hlist := congrArg String.toList h0
    rw [idKey, String.toList_ofList] at hlist
    apply String.toList_injective
    simpa using hlist
  cases slot with
  | none =>
    refine ⟨?_, hkey⟩
    unfold failureId splitText
    rw [failureText, splitMax, if_neg hsep]
    simp
  | some slot =>
    exact ⟨failureId_failureText hsep slot hotkey, failureText_ne _ _⟩

/-- The references a snapshot holds. -/
abbrev LedgerState.refs (s : LedgerState) : Option (List RecordRef) :=
  if s.schema = .v3 ∨ s.records ≠ [] then some s.records else none

theorem LedgerState.getD_refs (s : LedgerState) :
    s.refs.getD [] = s.records := by
  unfold refs
  split
  · rfl
  · rename_i hnone
    rw [not_or, not_not] at hnone
    rw [hnone.2]
    rfl

theorem LedgerState.Wf.rebuild {s : LedgerState} (h : s.Wf job) :
    rebuildLedgers job s.snapshot = .ok (s.reread s.refs) := by
  apply rebuild_snapshot h
  · rw [s.getD_refs]
    exact h.recordsOk
  · rw [s.getD_refs]
    exact h.recordIds

section Steps

variable (h : LiveInv name job w)
include h

/-- **An entry keeps the invariant.** -/
theorem LiveInv.settleEntry {e : TurnEntry SlotError}
    (he : e.Sound) : LiveInv name job (w.settleEntry e) := by
  have hmoves := he.moves w.state.ledgers w.seen
  have hfresh := he.fresh w.state.ledgers w.seen
  unfold LiveLedger.settleEntry
  generalize e.decide w.state.ledgers w.seen = r at hmoves hfresh
  obtain ⟨out, L⟩ := r
  cases out with
  | error x => exact h
  | ok v =>
    obtain ⟨hwf, hlike, hkeys, hne⟩ :=
      hmoves.keeps h.wf.slots h.wf.cursorKeys h.wf.hotkeys
    have hwf : LedgerState.Wf job
        { w.state with slots := L.slots, cursors := L.cursors } :=
      { h.wf with
        slots := hwf
        start := hlike.1.trans h.wf.start
        count := hlike.2.1.trans h.wf.count
        perPrompt := hlike.2.2.trans h.wf.perPrompt
        cursorKeys := hkeys
        hotkeys := hne }
    dsimp only
    by_cases hacc : v.accepted = true
    · rw [if_pos hacc]
      cases hkeep : keepRecord
          (w.state.records.map fun r => (r.submissionId, r)) e.recordRef with
      | error x => exact h
      | ok records =>
        obtain ⟨hall, honce⟩ := keepRecord_keeps hkeep
          (P := fun x => x.2.ok = true ∧ x.2.submissionId = x.1)
          (List.forall_mem_map.2 fun r hr => ⟨h.wf.recordsOk r hr, rfl⟩)
          (fun r hr => ⟨he.recordOk r hr, rfl⟩)
          (by rw [List.map_map]; exact h.wf.recordIds)
        refine ⟨{ hwf with
          recordsOk := List.forall_mem_map.2 fun x hx => (hall x hx).1
          recordIds := nodup_snd (fun x hx => (hall x hx).2) honce },
          h.named, h.apart.segments, ?_⟩
        intro c hc d hd hmem
        rcases mem_union.1 hmem with hp | ha
        · exact h.apart.pending c hc d hd hp
        · have hseen := hfresh v L rfl hacc d (mem_toFinset.1 ha)
          unfold seen at hseen
          rw [Bool.or_eq_false_iff, decide_eq_false_iff_not,
            decide_eq_false_iff_not, mem_toFinset] at hseen
          exact hseen.2 (mem_flatten.2 ⟨c, hc, hd⟩)
    · rw [if_neg hacc]
      exact ⟨hwf, h.named, h.apart⟩

theorem LiveInv.sealPending {segmentMax : Nat} (hmax : 1 ≤ segmentMax)
    (hnames : NamesOk name w.bodies (sealChunks w.state.pending segmentMax)) :
    LiveInv name job (w.sealPending name segmentMax) := by
  -- the pass that did nothing but seal
  let p : Pass := {
    Pass.start w.state with
    pending := ∅
    sealed := w.state.pending
    chunks := sealChunks w.state.pending segmentMax
    moved := true }
  obtain ⟨hall, -, hbodies⟩ := sealChunks_spec w.state.pending hmax
  have hapart := h.apart.seal hmax
  have hstart : (Pass.start w.state).Inv w.state w.bodies w.state.records :=
    Pass.Inv.start h.wf h.apart fun r hr => hr
  have hp : p.Inv w.state w.bodies w.state.records := { hstart with
    sealed := hall.symm
    bodies := hbodies
    apart := hapart
    still := nofun }
  have hstate := hp.state_wf h.wf h.named hnames h.wf.recordsOk
  refine ⟨?_, ?_, hapart⟩
  · have hrecords : p.records.map Prod.snd = w.state.records := by
      show (w.state.records.map fun r => (r.submissionId, r)).map Prod.snd = _
      rw [List.map_map]
      exact map_id _
    have heq : p.state name w.state = (w.sealPending name segmentMax).state := by
      unfold Pass.state LiveLedger.sealPending
      rw [hrecords]
      rfl
    exact heq ▸ hstate
  · show w.state.segments ++ _ = (w.bodies ++ _).map (segmentRef name)
    rw [h.named, map_append]

-- ===== failures

theorem LiveInv.fail {p : Nat} {id : SubmissionId}
    (hid : id.text ≠ "") {slot : Option Int} {hotkey : Option String}
    (hrec : recordPromptFailure job evalSource w.state p id.text slot hotkey
      = .ok state) : LiveInv name job { w with state } := by
  unfold recordPromptFailure at hrec
  split at hrec
  · cases hrec
  · obtain ⟨⟨slots, b⟩, hslots, hrec⟩ := bind_eq_ok hrec
    cases hrec
    by_cases hown : w.state.slots.owns p = true
    · rcases recordFailure_eq hown id.text slot hotkey with
        ⟨-, heq⟩ | ⟨hnew, b', heq⟩
      · cases heq.symm.trans hslots
        exact h
      · cases heq.symm.trans hslots
        obtain ⟨hkey, hne⟩ := failureText_id id hid slot hotkey
        have hwf := h.wf.slots.failAt hown (fun hmem => hnew _ hmem hkey) hne
        exact ⟨{ h.wf with slots := hwf }, h.named, h.apart⟩
    · unfold recordFailure check at hslots
      rw [if_neg hown] at hslots
      cases hslots

-- ===== recovery, rereading

theorem LiveInv.recover {committed : List RecordRef}
    (hclear : clearRecords committed w.state = .ok state) :
    LiveInv name job { w with state } := by
  unfold clearRecords at hclear
  dsimp only at hclear
  split at hclear
  · cases hclear
  · split at hclear
    · cases hclear
      exact h
    · cases hclear
      refine ⟨{ h.wf with recordsOk := ?_, recordIds := ?_ }, h.named, h.apart⟩
      · intro r hr
        exact h.wf.recordsOk r (List.mem_of_mem_filter hr)
      · exact h.wf.recordIds.sublist (filter_sublist.map _)

theorem LiveInv.reread
    (hread : rebuildLedgers job w.state.snapshot = .ok state) :
    LiveInv name job { w with state } := by
  have hwf := rebuild_wf (keyed_snapshot h.wf _) hread
  rw [h.wf.rebuild] at hread
  injection hread with hread
  subst hread
  exact ⟨hwf, h.named, h.apart⟩

/-- **Every step keeps the invariant.** -/
theorem LiveInv.step {op : LedgerOp} (hok : LedgerOk job name w op) :
    LiveInv name job (liveStep H job name evalSource w op) := by
  cases op with
  | submit sub ref =>
    exact h.settleEntry (submitEntry_sound hok.1 hok.2.1 hok.2.2)
  | skip req => exact h.settleEntry (skipEntry_sound hok)
  | sealPending segmentMax => exact h.sealPending hok.1 hok.2
  | fail p id slot hotkey =>
    rw [liveStep]
    split
    · exact h
    · rename_i state hrec
      exact h.fail hok hrec
  | recover committed =>
    rw [liveStep]
    split
    · exact h
    · rename_i state hclear
      exact h.recover hclear
  | reread =>
    rw [liveStep]
    split
    · exact h
    · rename_i state hread
      exact h.reread hread

end Steps

theorem LiveInv.run {ops : List LedgerOp}
    (h : Run (liveStep H job name evalSource) (LedgerOk job name)
      (LiveLedger.init job) ops w) : LiveInv name job w :=
  h.invariant LiveInv.init fun _ _ hok hinv => hinv.step hok

end Keeps

-- ===== migration and downgrade

/-- What `ensure_ledgers_v2` answers. -/
inductive Migration
  | absent
  | already (schema : Schema)
  | migrated
deriving DecidableEq, Repr

/-- Rewrite a v1 ledger as v2: its whole seen set sealed. -/
def ensureLedgersV2 (name : List String → String) (job : JobSpec)
    (segmentMax : Nat) : Option LedgerDoc →
    Except LedgerError (Migration × Option LedgerDoc × List (List String))
  | none => .ok (.absent, none, [])
  | some doc => do
      let s ← rebuildLedgers job doc
      if s.schema = .v1 then
        let bodies := sealChunks s.pending segmentMax
        pure (.migrated, some (ledgerSnapshot s.slots s.cursors ∅
          (bodies.map (segmentRef name)) none), bodies)
      else pure (.already s.schema, some doc, [])

/-- The segments' digests, each checked against its reference and against
the ones before. -/
def mergeSegments (owner : Finset String) :
    List (SegmentRef × List String) → Except LedgerError (Finset String)
  | [] => .ok owner
  | (ref, body) :: rest =>
    if body.length ≠ ref.count then .error (.miscounted ref)
    else
      match body.find? fun d => decide (d ∈ owner) with
      | some d => .error (.overlap d)
      | none => mergeSegments (owner ∪ body.toFinset) rest

def loadSegment (bucket : String → Option (List String)) (ref : SegmentRef) :
    Except LedgerError (SegmentRef × List String) :=
  match bucket ref.id with
  | some body => .ok (ref, body)
  | none => .error (.absent ref.id)

/-- The index of a fresh `SeenIndex` made to hold the references. -/
def seenIndex (bucket : String → Option (List String))
    (refs : List SegmentRef) : Except LedgerError (Finset String) := do
  let loaded ← refs.mapM (loadSegment bucket)
  mergeSegments ∅ loaded

def checkPending (index pending : Finset String) : Except LedgerError Unit :=
  match (sortSet pending).find? fun d => decide (d ∈ index) with
  | some d => .error (.overlap d)
  | none => .ok ()

/-- What `downgrade_ledgers_v1` answers. -/
inductive Downgrade
  | absent
  | already
  | downgraded
deriving DecidableEq, Repr

/-- Rewrite a v2 ledger as v1 with its full seen set. -/
def downgradeLedgersV1 (job : JobSpec) (bucket : String → Option (List String))
    (stored : Option LedgerDoc) :
    Except LedgerError (Downgrade × Option LedgerDoc) := do
  let s ← rebuildLedgers job (stored.getD {})
  let index ← seenIndex bucket s.segments
  checkPending index s.pending
  if stored.isNone then pure (.absent, stored)
  else if s.schema = .v1 then pure (.already, stored)
  else if s.records ≠ [] then .error .pendingRecords
  else
    -- the v1 form has no field for failures
    pure (.downgraded, some {
      schema := some Schema.v1.text
      slots := some s.slots.snapshot
      cursors := some s.cursors
      seen := some (sortSet (index ∪ s.pending)) })

-- ===== results

/-- A ledger read back: everything is there, failures and references in
some order. -/
structure SameLedger (s s' : LedgerState) : Prop where
  consumed : s'.slots.consumed = s.slots.consumed
  filled : s'.slots.filled = s.slots.filled
  failures : ∀ p, (s'.slots.failedAt p).Perm (s.slots.failedAt p)
  attempts : ∀ p slot, s'.slots.slotAttempt p slot = s.slots.slotAttempt p slot
  cursors : s'.cursors = s.cursors
  pending : s'.pending = s.pending
  segments : s'.segments = s.segments
  records : s'.records.Perm s.records

section Results

variable {H : Hashes} {job : JobSpec} {name : List String → String}
  {evalSource : Bool} {w : LiveLedger} {s : LedgerState}
  {bucket : String → Option (List String)}

theorem sameLedger_reread (h : s.Wf job) : SameLedger s (s.reread s.refs) where
  consumed := rfl
  filled := rfl
  failures := fun p => h.slots.toShape.failedAt_reloaded p
  attempts := fun p slot => h.slots.slotAttempt_reloaded p slot
  cursors := rfl
  pending := rfl
  segments := rfl
  records := by
    show (sortBy RecordRef.submissionId _).Perm s.records
    rw [s.getD_refs]
    exact perm_sortBy _ _

/-- Without failures nothing is reordered. -/
theorem reloaded_of_no_failures {l : SlotLedger} (h : l.failed = []) :
    l.reloaded = l := by
  unfold reloaded failedSnapshot
  obtain ⟨a, b, c, d, e, f, g, i⟩ := l
  dsimp only at h ⊢
  rw [h]
  rfl

/-- A ledger without failures, its seen set sealed, reads back. -/
theorem rebuild_sealed (hwf : s.Wf job) (hfailed : s.slots.failed = [])
    {segmentMax : Nat} (hmax : 1 ≤ segmentMax)
    (hnames : NamesOk name [] (sealChunks s.pending segmentMax)) :
    rebuildLedgers job (ledgerSnapshot s.slots s.cursors ∅
        ((sealChunks s.pending segmentMax).map (segmentRef name)) none)
      = .ok ⟨.v2, s.slots, s.cursors, ∅,
          (sealChunks s.pending segmentMax).map (segmentRef name), []⟩ := by
  let w : LiveLedger := ⟨⟨.v1, s.slots, s.cursors, s.pending, [], []⟩, []⟩
  have hw : LiveInv name job w := {
    wf := { hwf with
      segmentsOk := nofun
      segmentIds := nodup_nil
      recordsOk := nofun
      recordIds := nodup_nil }
    named := rfl
    apart := ⟨List.Pairwise.nil, nofun⟩ }
  have hsealed := (hw.sealPending hmax hnames).wf
  have hnone : ∀ r ∈ (none : Option (List RecordRef)).getD [], r.ok = true :=
    nofun
  have hread := rebuild_snapshot hsealed hnone nodup_nil
  have hslots := reloaded_of_no_failures hfailed
  unfold LedgerState.reread sealPending at hread
  rw [hslots] at hread
  exact hread

theorem loadConsumed_failed {rows : List (Nat × Nat)} {l l' : SlotLedger}
    (h : rows.foldlM loadConsumed l = .ok l') :
    l'.failed = l.failed := by
  refine foldlM_ok (I := fun l' _ => l'.failed = l.failed) h rfl ?_
  intro l₁ x _ l₂ h₁ hx
  unfold loadConsumed at hx
  split at hx
  · cases hx
  · split at hx
    · cases hx
    · injection hx with hx
      rw [← hx, h₁]

/-- A v1 ledger has no failures: no field of it holds them. -/
theorem failed_of_v1 {doc : LedgerDoc} (h : rebuildLedgers job doc = .ok s)
    (hv1 : s.schema = .v1) : s.slots.failed = [] := by
  obtain ⟨schema, -, h⟩ := bind_eq_ok h
  obtain ⟨⟨⟩, hfields, h⟩ := bind_eq_ok h
  obtain ⟨L, hL, h⟩ := bind_eq_ok h
  by_cases hschema : schema = .v1
  · rw [if_pos hschema] at h
    cases h
    subst hschema
    have hnone : doc.failed = none := by
      cases hf : doc.failed with
      | none => rfl
      | some failed =>
        exfalso
        unfold checkFields at hfields
        have hmem : "failed" ∈ doc.fields.filter
            fun f => decide (f ∉ Schema.v1.fields) := by
          rw [List.mem_filter]
          refine ⟨?_, by decide⟩
          simp [LedgerDoc.fields, LedgerDoc.field, hf]
        rw [if_neg (ne_nil_of_mem hmem)] at hfields
        cases hfields
    unfold readLedgers at hL
    rw [hnone] at hL
    split at hL
    · cases hL
    · rename_i slots hslots
      split at hL
      · cases hL
      · cases hL
        obtain ⟨l₀, hmake, hslots⟩ := bind_eq_ok hslots
        change (doc.slots.getD []).foldlM loadConsumed l₀
          = .ok slots at hslots
        rw [show Ledgers.slots ⟨slots, _⟩ = slots from rfl,
          loadConsumed_failed hslots]
        unfold make at hmake
        split at hmake
        · split at hmake
          · injection hmake with hmake
            rw [← hmake]
          · cases hmake
        · cases hmake
  · rw [if_neg hschema] at h
    obtain ⟨seenPending, -, h⟩ := bind_eq_ok h
    obtain ⟨seenSegments, -, h⟩ := bind_eq_ok h
    obtain ⟨pending, -, h⟩ := bind_eq_ok h
    obtain ⟨segments, -, h⟩ := bind_eq_ok h
    obtain ⟨records, -, h⟩ := bind_eq_ok h
    cases h
    exact absurd hv1 hschema

/-- **A v1 ledger migrates**: its slots and cursors are kept, and its
seen set is in the segments. -/
theorem ensureLedgersV2_v1 {doc : LedgerDoc} (hkeyed : doc.Keyed)
    (hread : rebuildLedgers job doc = .ok s) (hv1 : s.schema = .v1)
    {segmentMax : Nat} (hmax : 1 ≤ segmentMax)
    (hnames : NamesOk name [] (sealChunks s.pending segmentMax)) :
    ∃ doc' s', ensureLedgersV2 name job segmentMax (some doc)
        = .ok (.migrated, some doc', sealChunks s.pending segmentMax)
      ∧ rebuildLedgers job doc' = .ok s' ∧ s'.schema = .v2
      ∧ s'.slots = s.slots ∧ s'.cursors = s.cursors
      ∧ s'.pending ∪ (sealChunks s.pending segmentMax).flatten.toFinset
        = s.pending := by
  have hwf := rebuild_wf hkeyed hread
  have hfailed := failed_of_v1 hread hv1
  refine ⟨_, _, ?_, rebuild_sealed hwf hfailed hmax hnames, rfl, rfl, rfl, ?_⟩
  · rw [ensureLedgersV2, hread]
    show (if s.schema = .v1 then _ else _) = _
    rw [if_pos hv1]
    rfl
  · rw [(sealChunks_spec s.pending hmax).1]
    exact empty_union _

-- ===== downgrade

theorem loadSegments_ok (bodies : List (List String))
    (hbucket : ∀ c ∈ bodies, bucket (name c) = some c) :
    (bodies.map (segmentRef name)).mapM (loadSegment bucket)
      = .ok (bodies.map fun c => (segmentRef name c, c)) := by
  induction bodies with
  | nil => rfl
  | cons c bodies ih =>
    rw [List.forall_mem_cons] at hbucket
    have hc : loadSegment bucket (segmentRef name c)
        = .ok (segmentRef name c, c) := by
      unfold loadSegment
      rw [show (segmentRef name c).id = name c from rfl, hbucket.1]
    rw [List.map_cons, mapM_cons, hc, ih hbucket.2]
    rfl

theorem mergeSegments_ok (bodies : List (List String)) :
    ∀ owner : Finset String, bodies.Pairwise List.Disjoint →
      (∀ c ∈ bodies, ∀ d ∈ c, d ∉ owner) →
      mergeSegments owner (bodies.map fun c => (segmentRef name c, c))
        = .ok (owner ∪ bodies.flatten.toFinset) := by
  induction bodies with
  | nil =>
    intro owner _ _
    rw [flatten_nil, toFinset_nil, union_empty]
    rfl
  | cons c bodies ih =>
    intro owner hpair hout
    rw [List.pairwise_cons] at hpair
    rw [List.forall_mem_cons] at hout
    have hfind : (c.find? fun d => decide (d ∈ owner)) = none := by
      rw [find?_eq_none]
      intro d hd
      simpa using hout.1 d hd
    rw [List.map_cons, mergeSegments, if_neg (by simp [segmentRef])]
    rw [hfind]
    rw [ih (owner ∪ c.toFinset) hpair.2 ?_, flatten_cons,
      toFinset_append, union_assoc]
    intro c' hc' d hd hmem
    rcases mem_union.1 hmem with ho | hc
    · exact hout.2 c' hc' d hd ho
    · exact hpair.1 c' hc' (mem_toFinset.1 hc) hd

theorem seenIndex_ok (h : LiveInv name job w)
    (hbucket : ∀ c ∈ w.bodies, bucket (name c) = some c) :
    seenIndex bucket w.state.segments = .ok w.bodies.flatten.toFinset := by
  unfold seenIndex
  rw [h.named, loadSegments_ok w.bodies hbucket]
  show mergeSegments ∅ _ = _
  rw [mergeSegments_ok w.bodies ∅ h.apart.segments, empty_union]
  exact fun c _ d _ => notMem_empty d

theorem checkPending_ok (h : LiveInv name job w) :
    checkPending w.bodies.flatten.toFinset w.state.pending = .ok () := by
  have hfind : ((sortSet w.state.pending).find?
      fun d => decide (d ∈ w.bodies.flatten.toFinset)) = none := by
    rw [find?_eq_none]
    intro d hd
    rw [decide_eq_true_eq, mem_toFinset]
    intro hmem
    obtain ⟨c, hc, hdc⟩ := mem_flatten.1 hmem
    exact h.apart.pending c hc d hdc (mem_sortSet.1 hd)
  unfold checkPending
  rw [hfind]

/-- The v1 object of a live ledger. -/
def LiveLedger.v1 (w : LiveLedger) : LedgerDoc where
  schema := some Schema.v1.text
  slots := some w.state.slots.snapshot
  cursors := some w.state.cursors
  seen := some (sortSet w.digests)

theorem downgrade_ok (h : LiveInv name job w) (hrecords : w.state.records = [])
    (hbucket : ∀ c ∈ w.bodies, bucket (name c) = some c) :
    downgradeLedgersV1 job bucket (some w.state.snapshot)
      = .ok (.downgraded, some w.v1) := by
  have hindex := seenIndex_ok h hbucket
  have hpending := checkPending_ok h
  unfold downgradeLedgersV1
  rw [Option.getD_some, h.wf.rebuild]
  show (seenIndex bucket w.state.segments >>= fun index => _) = _
  rw [hindex]
  show (checkPending w.bodies.flatten.toFinset w.state.pending >>= fun _ => _) = _
  rw [hpending]
  have hsorted : (w.state.reread w.state.refs).records = [] := by
    unfold LedgerState.reread
    rw [w.state.getD_refs, hrecords]
    rfl
  have hnotV1 : (w.state.reread w.state.refs).schema ≠ .v1 := by
    unfold LedgerState.reread
    split
    · simp
    · simp
  rw [if_neg (by simp), if_neg hnotV1, if_neg (not_not.2 hsorted)]
  rfl

/-- Without failures the v1 object reads as the same ledger. -/
theorem rebuild_v1 (h : LiveInv name job w)
    (hfailed : w.state.slots.failed = []) : rebuildLedgers job w.v1
      = .ok ⟨.v1, w.state.slots, w.state.cursors, w.digests, [], []⟩ := by
  have hslots := fromSnapshot_snapshot h.wf.slots
  have hnone : w.state.slots.failedSnapshot = [] := by
    unfold failedSnapshot
    rw [hfailed]
    rfl
  rw [h.wf.count, h.wf.perPrompt, h.wf.start, hnone,
    reloaded_of_no_failures hfailed] at hslots
  have hL : readLedgers job w.v1 = .ok ⟨w.state.slots, w.state.cursors⟩ := by
    have hcursors : Cursors.fromSnapshot (w.v1.cursors.getD [])
        = .ok w.state.cursors :=
      Cursors.load_all h.wf.cursorKeys h.wf.hotkeys
    rw [readLedgers, show fromSnapshot _ _ (w.v1.slots.getD []) _
      (w.v1.failed.getD []) = _ from hslots]
    dsimp only
    rw [hcursors]
  show (checkFields .v1 w.v1 >>= fun _ => _) = _
  show (readLedgers job w.v1 >>= fun L => _) = _
  rw [hL]
  show Except.ok (LedgerState.mk .v1 w.state.slots w.state.cursors
    (sortSet w.digests).toFinset [] []) = _
  rw [toFinset_sortSet]

/-- The prompts' slots, the cursors and the seen set of a ledger. -/
structure SameWork (w : LiveLedger) (s : LedgerState)
    (bodies : List (List String)) : Prop where
  remaining : ∀ p, s.slots.remaining p = w.state.slots.remaining p
  cursors : s.cursors = w.state.cursors
  seen : bodies.flatten.toFinset ∪ s.pending = w.digests

/-- **Ledger rewrites lose no state**, a downgrade where no failure is
recorded. -/
theorem ledger_rewrites {ops : List LedgerOp}
    (hrun : Run (liveStep H job name evalSource) (LedgerOk job name)
      (init job) ops w) :
    (∃ s', rebuildLedgers job w.state.snapshot = .ok s' ∧ SameLedger w.state s')
    ∧ (∀ doc s segmentMax, doc.Keyed → rebuildLedgers job doc = .ok s →
      s.schema = .v1 → 1 ≤ segmentMax →
      NamesOk name [] (sealChunks s.pending segmentMax) →
      ∃ doc' s', ensureLedgersV2 name job segmentMax (some doc)
          = .ok (.migrated, some doc', sealChunks s.pending segmentMax)
        ∧ rebuildLedgers job doc' = .ok s' ∧ s'.schema = .v2
        ∧ s'.slots = s.slots ∧ s'.cursors = s.cursors
        ∧ s'.pending ∪ (sealChunks s.pending segmentMax).flatten.toFinset
          = s.pending)
    ∧ (w.state.slots.failed = [] → w.state.records = [] →
      ∀ bucket : String → Option (List String),
        (∀ c ∈ w.bodies, bucket (name c) = some c) →
      ∀ segmentMax, 1 ≤ segmentMax →
        NamesOk name [] (sealChunks w.digests segmentMax) →
      ∃ v1 s₁ v2 s₂, downgradeLedgersV1 job bucket (some w.state.snapshot)
          = .ok (.downgraded, some v1)
        ∧ rebuildLedgers job v1 = .ok s₁ ∧ SameWork w s₁ []
        ∧ ensureLedgersV2 name job segmentMax (some v1)
          = .ok (.migrated, some v2, sealChunks w.digests segmentMax)
        ∧ rebuildLedgers job v2 = .ok s₂
        ∧ SameWork w s₂ (sealChunks w.digests segmentMax)) := by
  have hinv := LiveInv.run hrun
  refine ⟨⟨_, hinv.wf.rebuild, sameLedger_reread hinv.wf⟩, ?_, ?_⟩
  · intro doc s segmentMax hkeyed hread hv1 hmax hnames
    exact ensureLedgersV2_v1 hkeyed hread hv1 hmax hnames
  · intro hfailed hrecords bucket hbucket segmentMax hmax hnames
    have hread := rebuild_v1 hinv hfailed
    have hkeyed : w.v1.Keyed :=
      ⟨hinv.wf.slots.consumedKeys, hinv.wf.cursorKeys, nodup_nil⟩
    obtain ⟨v2, s₂, hmigrate, hread₂, -, hslots, hcursors, hseen⟩ :=
      ensureLedgersV2_v1 hkeyed hread rfl hmax hnames
    refine ⟨w.v1, _, v2, s₂, downgrade_ok hinv hrecords hbucket, hread,
      ⟨fun p => rfl, rfl, empty_union _⟩, hmigrate, hread₂, ?_, hcursors,
      ?_⟩
    · intro p
      rw [hslots]
    · rw [union_comm]
      exact hseen

end Results

-- ===== samples

/-- One submission, sealed and read again. -/
def sealedOps : List LedgerOp :=
  [.submit (threeAnswers "first" ["x", "y", "z"]) none, .sealPending 3, .reread]

def nextLive (evalSource : Bool) (w : LiveLedger) (op : LedgerOp) : LiveLedger :=
  liveStep rowHashes (oneRow 0) bodyName evalSource w op

theorem ledger_rewrites_sealed : ∃ v1 s₁, downgradeLedgersV1 (oneRow 0)
        (fun id => if id = bodyName ["x", "y", "z"] then
          some ["x", "y", "z"] else none)
        (some (sealedOps.foldl (nextLive false)
          (init (oneRow 0))).state.snapshot)
        = .ok (.downgraded, some v1)
      ∧ rebuildLedgers (oneRow 0) v1 = .ok s₁
      ∧ SameWork (sealedOps.foldl (nextLive false)
          (init (oneRow 0))) s₁ [] := by
  have hnames : NamesOk bodyName [] [["x", "y", "z"]] := by
    refine ⟨?_, by decide +kernel⟩
    intro c hc c' hc' _
    rw [List.mem_singleton.1 hc, List.mem_singleton.1 hc']
  have hrun : Run (liveStep rowHashes (oneRow 0) bodyName false)
      (LedgerOk (oneRow 0) bodyName) (init (oneRow 0)) sealedOps
      (sealedOps.foldl (nextLive false) (init (oneRow 0))) := by
    refine Run.cons _ ⟨by decide, by decide, by simp⟩
      (Run.cons _ ⟨by decide, ?_⟩ (Run.cons _ trivial (Run.nil _)))
    have hbodies : (nextLive false (init (oneRow 0))
        (.submit (threeAnswers "first" ["x", "y", "z"]) none)).bodies = [] := by
      decide +kernel
    have hchunks : sealChunks (nextLive false (init (oneRow 0))
        (.submit (threeAnswers "first" ["x", "y", "z"]) none)).state.pending 3
        = [["x", "y", "z"]] := by
      decide +kernel
    exact hbodies ▸ hchunks ▸ hnames
  have hres := (ledger_rewrites hrun).2.2 (by decide +kernel) (by decide +kernel)
    (fun id => if id = bodyName ["x", "y", "z"] then
      some ["x", "y", "z"] else none) (by decide +kernel) 3 (by decide)
    (by
      have hchunks : sealChunks (sealedOps.foldl (nextLive false)
          (init (oneRow 0))).digests 3 = [["x", "y", "z"]] := by
        decide +kernel
      exact hchunks ▸ hnames)
  obtain ⟨v1, s₁, v2, s₂, hdown, hread, hsame, -⟩ := hres
  exact ⟨v1, s₁, hdown, hread, hsame⟩

def failedId : SubmissionId := ⟨"00facade00facade", by simp⟩

/-- An eval job's slot, failed and filled again. -/
def refilledOps : List LedgerOp :=
  [.submit (threeAnswers "first" ["x", "y", "z"]) none,
    .fail 0 failedId none none,
    .submit (threeAnswers "second" ["a", "b", "c"]) none]

/-- The downgrade drops the failures: a slot filled twice no longer
fits, and a reopened one is closed. -/
theorem downgrade_drops_failures :
    (∃ w, Run (liveStep rowHashes (oneRow 0) bodyName true)
        (LedgerOk (oneRow 0) bodyName) (init (oneRow 0))
        refilledOps w ∧ w.state.records = []
      ∧ downgradeLedgersV1 (oneRow 0) (fun _ => none) (some w.state.snapshot)
        = .ok (.downgraded, some w.v1)
      ∧ rebuildLedgers (oneRow 0) w.v1 = .error (.unusable .value))
    ∧ ∃ w, Run (liveStep rowHashes (oneRow 0) bodyName true)
        (LedgerOk (oneRow 0) bodyName) (init (oneRow 0))
        (refilledOps.take 2) w
      ∧ downgradeLedgersV1 (oneRow 0) (fun _ => none) (some w.state.snapshot)
        = .ok (.downgraded, some w.v1)
      ∧ w.state.slots.remaining 0 = .ok 1
      ∧ (rebuildLedgers (oneRow 0) w.v1).toOption.map
          (fun s => s.slots.remaining 0) = some (.ok 0) := by
  have hfirst : LedgerOk (oneRow 0) bodyName (init (oneRow 0))
      (.submit (threeAnswers "first" ["x", "y", "z"]) none) :=
    ⟨by decide, by decide, by simp⟩
  have hid : failedId.text ≠ "" := by decide
  refine ⟨⟨refilledOps.foldl (nextLive true) (init (oneRow 0)),
      Run.cons _ hfirst (Run.cons _ hid
        (Run.cons _ ⟨by decide, by decide, by simp⟩ (Run.nil _))),
      by decide +kernel, by decide +kernel, by decide +kernel⟩,
    ⟨(refilledOps.take 2).foldl (nextLive true) (init (oneRow 0)),
      Run.cons _ hfirst (Run.cons _ hid (Run.nil _)),
      by decide +kernel, by decide +kernel, by decide +kernel⟩⟩

end Reliquary.Corpus
