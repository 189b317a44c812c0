/-
A corpus job's stored ledger (`validator/corpus_service.py`): the object
the bucket holds, and the live ledgers it is read as.

# What is modeled how

- `LedgerDoc` is the object, one optional field per name the source
  knows and the names of any others: which fields are there decides
  whether a schema accepts it. Values of a wrong JSON type are not
  modeled, nor is the order of an object's keys.
- `rebuildLedgers` is `rebuild_ledgers`, with its refusals in order.
- A set of digests is a `Finset`; it is stored sorted (`sortSet`).
- Segment and record ids are matched as the source's expressions match
  them: a segment's may end in a newline, a record's may not.

# What is proven

What `ledgerSnapshot` writes of a well-formed state reads back as that
state, its failures and records in order (`rebuild_snapshot`), and what
reads at all is well-formed (`rebuild_wf`).
-/
import Reliquary.Corpus.Walk
import Reliquary.Store.Run
import Reliquary.Store.Sorted

namespace Reliquary.Corpus

open Store List

-- ===== the object

inductive Schema
  | v1
  | v2
  | v3
deriving DecidableEq, Repr

open Schema

namespace Schema

def text : Schema → String
  | v1 => "reliquary/corpus-ledgers/v1"
  | v2 => "reliquary/corpus-ledgers/v2"
  | v3 => "reliquary/corpus-ledgers/v3"

def ofText (text : String) : Option Schema :=
  [v1, v2, v3].find? fun s => decide (s.text = text)

/-- The fields a schema may have. -/
def fields : Schema → List String
  | v1 => ["schema", "slots", "cursors", "seen"]
  | v2 => ["schema", "slots", "cursors", "seen_pending", "seen_segments",
      "failed"]
  | v3 => ["schema", "slots", "cursors", "seen_pending", "seen_segments",
      "failed", "pending_records"]

end Schema

/-- A sealed segment as a ledger names it. -/
structure SegmentRef where
  id : String
  count : Nat
deriving DecidableEq, Repr

/-- An accepted submission whose record is not published yet. -/
structure RecordRef where
  submissionId : String
  sha256 : String
  receivedAt : ℚ
deriving DecidableEq, Repr

open RecordRef

def hexDigit (c : Char) : Bool :=
  (decide ('0' ≤ c) && decide (c ≤ '9'))
    || (decide ('a' ≤ c) && decide (c ≤ 'f'))

def hexDigest (l : List Char) : Bool :=
  decide (l.length = 64) && l.all hexDigit

/-- `match`: the expression's `$` takes a last newline. -/
def SegmentRef.ok (r : SegmentRef) : Bool :=
  (hexDigest r.id.toList
      || (decide (r.id.toList.getLast? = some '\n')
        && hexDigest r.id.toList.dropLast))
    && decide (1 ≤ r.count)

/-- `fullmatch`. -/
def RecordRef.ok (r : RecordRef) : Bool :=
  hexDigest r.submissionId.toList && hexDigest r.sha256.toList
    && decide (0 ≤ r.receivedAt)

/-- The stored object. -/
structure LedgerDoc where
  schema : Option String := none
  slots : Option (List (Nat × Nat)) := none
  cursors : Option (List (String × Nat)) := none
  seen : Option (List String) := none
  seenPending : Option (List String) := none
  seenSegments : Option (List SegmentRef) := none
  failed : Option (List (Nat × List String)) := none
  pendingRecords : Option (List RecordRef) := none
  /-- The names of its other fields. -/
  others : List String := []
deriving DecidableEq

namespace LedgerDoc

def field (name : String) {α : Type} (value : Option α) : List String :=
  if value.isSome then [name] else []

def fields (doc : LedgerDoc) : List String :=
  field "schema" doc.schema ++ field "slots" doc.slots
    ++ field "cursors" doc.cursors ++ field "seen" doc.seen
    ++ field "seen_pending" doc.seenPending
    ++ field "seen_segments" doc.seenSegments ++ field "failed" doc.failed
    ++ field "pending_records" doc.pendingRecords ++ doc.others

/-- Each object inside has each of its keys once. -/
def Keyed (doc : LedgerDoc) : Prop :=
  ((doc.slots.getD []).map Prod.fst).Nodup
    ∧ ((doc.cursors.getD []).map Prod.fst).Nodup
    ∧ ((doc.failed.getD []).map Prod.fst).Nodup

end LedgerDoc

/-- One ledger version, parsed. -/
structure LedgerState where
  schema : Schema
  slots : SlotLedger
  cursors : Cursors
  pending : Finset String
  segments : List SegmentRef
  records : List RecordRef
deriving DecidableEq

def LedgerState.ledgers (s : LedgerState) : Ledgers := ⟨s.slots, s.cursors⟩

/-- `LedgerSnapshotError`, by what it refuses. -/
inductive LedgerError
  | schema (text : String)
  | unknown (fields : List String)
  | unusable (e : SlotError)
  | missing (field : String)
  | repeatsDigest (field : String)
  | segment (ref : SegmentRef)
  | segmentTwice
  | noRecords
  | record (ref : RecordRef)
  | recordTwice
  | replaced
  | pendingRecords
  | notV2
  | overlap (digest : String)
  | miscounted (ref : SegmentRef)
  | absent (id : String)
deriving DecidableEq

-- ===== reading

def Cursors.load (c : Cursors) (entry : String × Nat) :
    Except SlotError Cursors :=
  if entry.1 = "" then .error .value else .ok (put entry.1 entry.2 c)

def Cursors.fromSnapshot (snapshot : List (String × Nat)) :
    Except SlotError Cursors :=
  snapshot.foldlM Cursors.load []

def readSchema (doc : LedgerDoc) : Except LedgerError Schema :=
  -- absent on the empty read before a job's first write
  let text := doc.schema.getD v1.text
  match ofText text with
  | some schema => .ok schema
  | none => .error (.schema text)

def checkFields (schema : Schema) (doc : LedgerDoc) : Except LedgerError Unit :=
  let unknown := doc.fields.filter fun f => decide (f ∉ schema.fields)
  if unknown = [] then .ok ()
  else .error (.unknown (unknown.insertionSort (· ≤ ·)))

def readLedgers (job : JobSpec) (doc : LedgerDoc) :
    Except LedgerError Ledgers :=
  match SlotLedger.fromSnapshot job.promptCount job.slotsPerPrompt
      (doc.slots.getD []) job.promptStart (doc.failed.getD []) with
  | .error e => .error (.unusable e)
  | .ok slots =>
    match Cursors.fromSnapshot (doc.cursors.getD []) with
    | .error e => .error (.unusable e)
    | .ok cursors => .ok ⟨slots, cursors⟩

def requireField (name : String) {α : Type} (value : Option α) :
    Except LedgerError α :=
  match value with
  | some value => .ok value
  | none => .error (.missing name)

def digestList (name : String) (digests : List String) :
    Except LedgerError (Finset String) :=
  if digests.Nodup then .ok digests.toFinset else .error (.repeatsDigest name)

def segmentRefs (refs : List SegmentRef) :
    Except LedgerError (List SegmentRef) :=
  match refs.find? fun r => !r.ok with
  | some ref => .error (.segment ref)
  | none =>
    if (refs.map SegmentRef.id).Nodup then .ok refs
    else .error .segmentTwice

def recordRefs (value : Option (List RecordRef)) :
    Except LedgerError (List RecordRef) :=
  match value with
  | none => .error .noRecords
  | some refs =>
    match refs.find? fun r => !r.ok with
    | some ref => .error (.record ref)
    | none =>
      if (refs.map submissionId).Nodup then .ok refs
      else .error .recordTwice

/-- Only v3 names records. -/
def schemaRecords (schema : Schema) (value : Option (List RecordRef)) :
    Except LedgerError (List RecordRef) :=
  if schema = .v3 then recordRefs value else .ok []

/-- The stored object as live ledgers, or a named refusal. A v1 object
reads as all of its seen set pending and no segments. -/
def rebuildLedgers (job : JobSpec) (doc : LedgerDoc) :
    Except LedgerError LedgerState := do
  let schema ← readSchema doc
  checkFields schema doc
  let L ← readLedgers job doc
  if schema = .v1 then
    pure ⟨schema, L.slots, L.cursors, (doc.seen.getD []).toFinset, [], []⟩
  else do
    let seenPending ← requireField "seen_pending" doc.seenPending
    let seenSegments ← requireField "seen_segments" doc.seenSegments
    let pending ← digestList "seen_pending" seenPending
    let segments ← segmentRefs seenSegments
    let records ← schemaRecords schema doc.pendingRecords
    pure ⟨schema, L.slots, L.cursors, pending, segments, records⟩

-- ===== writing

/-- The form the store persists: v3 once there are record references to
write, v2 otherwise. -/
def ledgerSnapshot (slots : SlotLedger) (cursors : Cursors)
    (pending : Finset String) (segments : List SegmentRef)
    (pendingRecords : Option (List RecordRef)) : LedgerDoc where
  schema := some (if pendingRecords.isSome then v3.text
    else v2.text)
  slots := some slots.snapshot
  cursors := some cursors
  seenPending := some (sortSet pending)
  seenSegments := some segments
  failed := if slots.failedSnapshot = [] then none
    else some slots.failedSnapshot
  pendingRecords := pendingRecords.map (sortBy submissionId)

-- ===== soundness

/-- The state of a job, nothing in it repeated, empty or out of range. -/
structure LedgerState.Wf (job : JobSpec) (s : LedgerState) : Prop where
  slots : s.slots.Wf
  start : s.slots.promptStart = job.promptStart
  count : s.slots.promptCount = job.promptCount
  perPrompt : s.slots.slotsPerPrompt = job.slotsPerPrompt
  cursorKeys : (s.cursors.map Prod.fst).Nodup
  hotkeys : "" ∉ s.cursors.map Prod.fst
  segmentsOk : ∀ r ∈ s.segments, r.ok = true
  segmentIds : (s.segments.map SegmentRef.id).Nodup
  recordsOk : ∀ r ∈ s.records, r.ok = true
  recordIds : (s.records.map submissionId).Nodup

/-- References that pass are all sound, and none is named twice. -/
theorem refs_checked {α : Type} {refs refs' : List α} {ok : α → Bool}
    {id : α → String} {out : Except LedgerError (List α)} {twice : LedgerError}
    (hbad : ∀ r, (refs.find? fun r => !ok r) = some r → ∃ e, out = .error e)
    (hgood : (refs.find? fun r => !ok r) = none →
      out = if (refs.map id).Nodup then .ok refs else .error twice) :
    out = .ok refs'
      ↔ refs' = refs ∧ (∀ r ∈ refs, ok r = true) ∧ (refs.map id).Nodup := by
  cases hfind : refs.find? fun r => !ok r with
  | some r =>
    obtain ⟨e, rfl⟩ := hbad r hfind
    refine ⟨nofun, fun h => ?_⟩
    have hr := find?_some hfind
    simp [h.2.1 r (mem_of_find?_eq_some hfind)] at hr
  | none =>
    have hok : ∀ r ∈ refs, ok r = true := by simpa using hfind
    rw [hgood hfind]
    by_cases hnd : (refs.map id).Nodup
    · rw [if_pos hnd]
      exact ⟨fun h => ⟨(Except.ok.inj h).symm, hok, hnd⟩, fun h => h.1 ▸ rfl⟩
    · rw [if_neg hnd]
      exact ⟨nofun, fun h => absurd h.2.2 hnd⟩

theorem segmentRefs_iff {refs refs' : List SegmentRef} :
    segmentRefs refs = .ok refs' ↔ refs' = refs
      ∧ (∀ r ∈ refs, r.ok = true) ∧ (refs.map SegmentRef.id).Nodup := by
  rw [segmentRefs]
  exact refs_checked (fun r h => ⟨_, by rw [h]⟩) fun h => by rw [h]

theorem recordRefs_iff {refs refs' : List RecordRef} :
    recordRefs (some refs) = .ok refs' ↔ refs' = refs
      ∧ (∀ r ∈ refs, r.ok = true) ∧ (refs.map submissionId).Nodup := by
  rw [recordRefs]
  exact refs_checked (fun r h => ⟨_, by rw [h]⟩) fun h => by rw [h]

-- ===== cursors

variable {rows : List (String × Nat)}

theorem Cursors.load_all (hnd : (rows.map Prod.fst).Nodup)
    (hne : "" ∉ rows.map Prod.fst) :
    rows.foldlM Cursors.load [] = .ok rows := by
  refine foldlM_along (f := Cursors.load) rows (fun pre => pre) ?_
  rintro pre x post rfl
  have hnew : x.1 ∉ pre.map Prod.fst := fresh_key hnd
  have hx : x.1 ≠ "" := fun heq => hne (by simp [heq])
  unfold Cursors.load
  rw [if_neg hx, put_new _ _ _ hnew]

/-- A load that returned met no empty hotkey. -/
theorem Cursors.load_hotkeys (rows : List (String × Nat)) :
    ∀ c c' : Cursors, rows.foldlM Cursors.load c = .ok c' →
      "" ∉ rows.map Prod.fst := by
  induction rows with
  | nil => exact fun _ _ _ => not_mem_nil
  | cons x rows ih =>
    intro c c' h
    rw [foldlM_cons] at h
    by_cases hx : x.1 = ""
    · rw [Cursors.load, if_pos hx] at h
      cases h
    · rw [Cursors.load, if_neg hx] at h
      rw [map_cons, mem_cons, not_or]
      exact ⟨Ne.symm hx, ih _ _ h⟩

/-- What reads as cursors names a hotkey once, and none empty. -/
theorem Cursors.fromSnapshot_inv {c : Cursors} (hnd : (rows.map Prod.fst).Nodup)
    (h : Cursors.fromSnapshot rows = .ok c) :
    (c.map Prod.fst).Nodup ∧ "" ∉ c.map Prod.fst := by
  have hne := Cursors.load_hotkeys rows _ _ h
  rw [Cursors.fromSnapshot, Cursors.load_all hnd hne] at h
  injection h with h
  subst h
  exact ⟨hnd, hne⟩

-- ===== slots

namespace SlotLedger

/-- Two ledgers of one job. -/
def Alike (l l' : SlotLedger) : Prop :=
  l'.promptStart = l.promptStart ∧ l'.promptCount = l.promptCount
    ∧ l'.slotsPerPrompt = l.slotsPerPrompt

theorem Alike.refl (l : SlotLedger) : Alike l l := ⟨rfl, rfl, rfl⟩

variable {l l' : SlotLedger}

theorem Alike.trans {l'' : SlotLedger} (h : Alike l l') (h' : Alike l' l'') :
    Alike l l'' :=
  ⟨h'.1.trans h.1, h'.2.1.trans h.2.1, h'.2.2.trans h.2.2⟩

theorem loadFailed_wf {x : Nat × List String} (h : l.Wf)
    (hempty : l.consumed = []) (hload : loadFailed l x = .ok l') :
    l'.Wf ∧ l'.consumed = [] ∧ Alike l l' := by
  unfold loadFailed at hload
  split at hload
  · cases hload
  · rename_i hcond
    injection hload with hload
    subst hload
    simp only [Bool.or_eq_true, Bool.not_eq_true', any_eq_true,
      decide_eq_true_eq, decide_eq_false_iff_not, not_or, not_exists,
      not_and, Bool.not_eq_false, List.isEmpty_iff, not_not] at hcond
    obtain ⟨⟨⟨hown, hne⟩, hnd⟩, hblank⟩ := hcond
    refine ⟨⟨⟨h.consumedKeys, h.consumedOk, h.filled,
      nodup_keys_put _ _ h.failedKeys, ?_⟩, ?_⟩, hempty, rfl, rfl, rfl⟩
    · exact forall_put h.failedOk
        ⟨hown, hne, hnd, fun hmem => hblank "" hmem rfl⟩
    · intro y hy
      rw [show SlotLedger.consumed _ = l.consumed from rfl, hempty] at hy
      cases hy

theorem loadConsumed_wf {x : Nat × Nat} (h : l.Wf)
    (hnew : x.1 ∉ l.consumed.map Prod.fst) (hload : loadConsumed l x = .ok l') :
    l'.Wf ∧ l'.consumed = l.consumed ++ [x] ∧ Alike l l' := by
  unfold loadConsumed at hload
  by_cases hown : l.owns x.1 = true
  · rw [if_neg (by simp [hown])] at hload
    by_cases hcap : x.2 = 0 ∨ l.capacityAt x.1 < x.2
    · rw [if_pos hcap] at hload
      cases hload
    · rw [if_neg hcap, put_new _ _ _ hnew] at hload
      injection hload with hload
      subst hload
      rw [not_or] at hcap
      refine ⟨⟨⟨?_, ?_, ?_, h.failedKeys, h.failedOk⟩, ?_⟩, rfl, rfl, rfl, rfl⟩
      · have hkeys := nodup_keys_put x.1 x.2 h.consumedKeys
        rw [put_new _ _ _ hnew] at hkeys
        exact hkeys
      · exact forall_snoc h.consumedOk ⟨hown, Nat.pos_of_ne_zero hcap.1⟩
      · show l.filled + x.2 = ((l.consumed ++ [x]).map Prod.snd).sum
        rw [h.filled, map_append, sum_append]
        simp
      · exact forall_snoc h.within (Nat.le_of_not_lt hcap.2)
  · rw [if_pos (by simpa using hown)] at hload
    cases hload

theorem loadFailed_run {rows : List (Nat × List String)} (h : l.Wf)
    (hempty : l.consumed = []) (hrun : rows.foldlM loadFailed l = .ok l') :
    l'.Wf ∧ l'.consumed = [] ∧ Alike l l' := by
  refine foldlM_ok (I := fun l' _ => l'.Wf ∧ l'.consumed = [] ∧ Alike l l')
    hrun ⟨h, hempty, Alike.refl l⟩ ?_
  rintro l₁ x _ l₂ ⟨h₁, hempty₁, hlike⟩ hx
  obtain ⟨h₂, hempty₂, hlike'⟩ := loadFailed_wf h₁ hempty₁ hx
  exact ⟨h₂, hempty₂, hlike.trans hlike'⟩

theorem loadConsumed_run {rows : List (Nat × Nat)} (h : l.Wf)
    (hnd : ((l.consumed ++ rows).map Prod.fst).Nodup)
    (hrun : rows.foldlM loadConsumed l = .ok l') : l'.Wf ∧ Alike l l' := by
  have hend := foldlM_ok (I := fun l' rest =>
    (l'.Wf ∧ Alike l l') ∧ ((l'.consumed ++ rest).map Prod.fst).Nodup)
    hrun ⟨⟨h, Alike.refl l⟩, hnd⟩ ?_
  · exact hend.1
  rintro l₁ x rest l₂ ⟨⟨h₁, hlike⟩, hnd⟩ hx
  obtain ⟨h₂, hrows, hlike'⟩ := loadConsumed_wf h₁ (fresh_key hnd) hx
  exact ⟨⟨h₂, hlike.trans hlike'⟩, by simpa [hrows] using hnd⟩

/-- What reads as a slot ledger is one of the job. -/
theorem fromSnapshot_wf {count perPrompt start : Nat} {rows : List (Nat × Nat)}
    {failed : List (Nat × List String)} (hnd : (rows.map Prod.fst).Nodup)
    (h : fromSnapshot count perPrompt rows start failed = .ok l) :
    l.Wf ∧ l.promptStart = start ∧ l.promptCount = count
      ∧ l.slotsPerPrompt = perPrompt := by
  obtain ⟨l₀, hmake, h⟩ := bind_eq_ok h
  obtain ⟨l₁, hfailed, h⟩ := bind_eq_ok h
  have h₀ : l₀.Wf ∧ l₀.consumed = [] ∧ l₀.promptStart = start
      ∧ l₀.promptCount = count ∧ l₀.slotsPerPrompt = perPrompt := by
    unfold make at hmake
    split at hmake
    · split at hmake
      · injection hmake with hmake
        subst hmake
        exact ⟨wf_of_empty rfl rfl rfl, rfl, rfl, rfl, rfl⟩
      · cases hmake
    · cases hmake
  obtain ⟨hwf, hempty, hlike⟩ := loadFailed_run h₀.1 h₀.2.1 hfailed
  obtain ⟨hwf', hlike'⟩ := loadConsumed_run hwf (by simpa [hempty] using hnd) h
  obtain ⟨ha, hb, hc⟩ := hlike.trans hlike'
  exact ⟨hwf', ha.trans h₀.2.2.1, hb.trans h₀.2.2.2.1, hc.trans h₀.2.2.2.2⟩

end SlotLedger

-- ===== round trip

/-- What a read-back of the written form gives. -/
def LedgerState.reread (s : LedgerState)
    (pendingRecords : Option (List RecordRef)) : LedgerState where
  schema := if pendingRecords.isSome then .v3 else .v2
  slots := s.slots.reloaded
  cursors := s.cursors
  pending := s.pending
  segments := s.segments
  records := sortBy submissionId (pendingRecords.getD [])

section Written

variable (slots : SlotLedger) (cursors : Cursors) (pending : Finset String)
  (segments : List SegmentRef) (refs : Option (List RecordRef))

theorem failed_ledgerSnapshot :
    (ledgerSnapshot slots cursors pending segments refs).failed.getD []
      = slots.failedSnapshot := by
  unfold ledgerSnapshot
  by_cases hnil : slots.failedSnapshot = []
  · simp [hnil]
  · simp [hnil]

theorem checkFields_snapshot :
    checkFields (if refs.isSome then .v3 else .v2)
      (ledgerSnapshot slots cursors pending segments refs) = .ok () := by
  unfold checkFields ledgerSnapshot LedgerDoc.fields LedgerDoc.field
  cases refs with
  | none =>
    by_cases hnil : slots.failedSnapshot = []
    · simp [hnil, fields]
    · simp [hnil, fields]
  | some refs =>
    by_cases hnil : slots.failedSnapshot = []
    · simp [hnil, fields]
    · simp [hnil, fields]

theorem readSchema_snapshot :
    readSchema (ledgerSnapshot slots cursors pending segments refs)
      = .ok (if refs.isSome then .v3 else .v2) := by
  cases refs with
  | none => rfl
  | some refs => rfl

end Written

variable {job : JobSpec} {s : LedgerState}

theorem readLedgers_snapshot (h : s.Wf job) (refs : Option (List RecordRef)) :
    readLedgers job (ledgerSnapshot s.slots s.cursors s.pending s.segments refs)
      = .ok ⟨s.slots.reloaded, s.cursors⟩ := by
  have hslots := SlotLedger.fromSnapshot_snapshot h.slots
  rw [h.count, h.perPrompt, h.start] at hslots
  unfold readLedgers
  rw [failed_ledgerSnapshot]
  show (match SlotLedger.fromSnapshot job.promptCount job.slotsPerPrompt
      s.slots.snapshot job.promptStart s.slots.failedSnapshot with
    | .error e => _
    | .ok slots => _) = _
  rw [hslots]
  show (match s.cursors.foldlM Cursors.load [] with
    | .error e => _
    | .ok cursors => _) = _
  rw [Cursors.load_all h.cursorKeys h.hotkeys]

theorem readLedgers_inv {doc : LedgerDoc} {L : Ledgers}
    (hkeyed : doc.Keyed) (h : readLedgers job doc = .ok L) :
    L.slots.Wf ∧ L.slots.promptStart = job.promptStart
      ∧ L.slots.promptCount = job.promptCount
      ∧ L.slots.slotsPerPrompt = job.slotsPerPrompt
      ∧ (L.cursors.map Prod.fst).Nodup ∧ "" ∉ L.cursors.map Prod.fst := by
  unfold readLedgers at h
  split at h
  · cases h
  · rename_i slots hslots
    split at h
    · cases h
    · rename_i cursors hcursors
      injection h with h
      subst h
      obtain ⟨hwf, hstart, hcount, hper⟩ :=
        SlotLedger.fromSnapshot_wf hkeyed.1 hslots
      obtain ⟨hkeys, hne⟩ := Cursors.fromSnapshot_inv hkeyed.2.1 hcursors
      exact ⟨hwf, hstart, hcount, hper, hkeys, hne⟩

/-- **The written form reads back.** -/
theorem rebuild_snapshot (h : s.Wf job)
    {refs : Option (List RecordRef)} (hok : ∀ r ∈ refs.getD [], r.ok = true)
    (hids : ((refs.getD []).map submissionId).Nodup) :
    rebuildLedgers job
        (ledgerSnapshot s.slots s.cursors s.pending s.segments refs)
      = .ok (s.reread refs) := by
  have hpending : digestList "seen_pending" (sortSet s.pending)
      = .ok s.pending := by
    unfold digestList
    rw [if_pos (nodup_sortSet _), toFinset_sortSet]
  have hsegments := segmentRefs_iff.2 ⟨rfl, h.segmentsOk, h.segmentIds⟩
  have hrecords : schemaRecords (if refs.isSome then v3 else v2)
      (refs.map (sortBy submissionId))
      = .ok (sortBy submissionId (refs.getD [])) := by
    cases refs with
    | none => rfl
    | some refs =>
      refine recordRefs_iff.2 ⟨rfl, ?_, nodup_sortBy hids⟩
      intro r hr
      exact hok r ((perm_sortBy _ refs).mem_iff.1 hr)
  have hv1 : (if refs.isSome then v3 else v2) ≠ .v1 := by
    cases refs with
    | none => simp
    | some refs => simp
  unfold rebuildLedgers
  rw [readSchema_snapshot]
  simp only [bind, Except.bind]
  rw [checkFields_snapshot]
  rw [readLedgers_snapshot h]
  dsimp only
  rw [if_neg hv1]
  dsimp only [ledgerSnapshot, requireField]
  rw [hpending]
  rw [hsegments]
  rw [hrecords]
  rfl

/-- **What reads is well-formed.** -/
theorem rebuild_wf {doc : LedgerDoc}
    (hkeyed : doc.Keyed) (h : rebuildLedgers job doc = .ok s) : s.Wf job := by
  obtain ⟨schema, -, h⟩ := bind_eq_ok h
  obtain ⟨-, -, h⟩ := bind_eq_ok h
  obtain ⟨L, hL, h⟩ := bind_eq_ok h
  obtain ⟨hslots, hstart, hcount, hper, hkeys, hne⟩ := readLedgers_inv hkeyed hL
  by_cases hv1 : schema = .v1
  · rw [if_pos hv1] at h
    injection h with h
    subst h
    exact ⟨hslots, hstart, hcount, hper, hkeys, hne, by simp, by simp,
      by simp, by simp⟩
  · rw [if_neg hv1] at h
    obtain ⟨seenPending, -, h⟩ := bind_eq_ok h
    obtain ⟨seenSegments, -, h⟩ := bind_eq_ok h
    obtain ⟨pending, -, h⟩ := bind_eq_ok h
    obtain ⟨segments, hsegs, h⟩ := bind_eq_ok h
    obtain ⟨records, hrecs, h⟩ := bind_eq_ok h
    injection h with h
    subst h
    obtain ⟨rfl, hsegsOk, hsegIds⟩ := segmentRefs_iff.1 hsegs
    have hrecords : (∀ r ∈ records, r.ok = true)
        ∧ (records.map submissionId).Nodup := by
      unfold schemaRecords at hrecs
      split at hrecs
      · cases hvalue : doc.pendingRecords with
        | none =>
          rw [hvalue] at hrecs
          cases hrecs
        | some refs =>
          rw [hvalue] at hrecs
          obtain ⟨rfl, hok⟩ := recordRefs_iff.1 hrecs
          exact hok
      · injection hrecs with hrecs
        subst hrecs
        simp
    exact ⟨hslots, hstart, hcount, hper, hkeys, hne, hsegsOk, hsegIds,
      hrecords.1, hrecords.2⟩

end Reliquary.Corpus
