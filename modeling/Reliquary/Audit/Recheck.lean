/-
The passes an audit executor scored, and what its quarantine does to them
(`validator/corpus_auditor.py`, `_audit_records` and `reaudit_executor`;
`validator/corpus_audit_remote.py`, `result`, `_mark_quarantined`,
`quarantine`).

# What is modeled how

- One control process: its auditor, the dispatcher's set of quarantined
  executors and the store, whose calls succeed.
- A record inside an audit pass is a `Flight`. Its scores come in while
  it is audited, its verdict is written (create-only), and only when every
  write of its batch is back are the executors of its passing verdict
  noted (`_remote_scored`). These are three events, with any others in
  between.
- A quarantine refuses the executor from then on and spawns the auditor's
  listener. The listener first takes the executor's list (`collect`), then
  reads the settlement and audits (`recheck`): two events.
- A failing remote audit is repeated on the local GPU and takes that
  outcome, without the executors (`here`).
- `rechecked` is the history of what the listeners did to each record.

# What is proven

Every passing verdict that names an executor is in flight, noted, taken by
its listener, or dealt with (`Inv.tracked`). Where no record in flight
names the executor when its listener takes the list, nothing names it from
then on (`Quiet`), so everything is dealt with once the listener is done.
-/
import Reliquary.Audit.Policy
import Reliquary.Store.Run
import Reliquary.Store.Sorted

namespace Reliquary.Audit

open Store List Option

-- ===== the process

/-- A record inside an audit pass. -/
structure Flight where
  scoredBy : Finset String
  /-- Its passing verdict is written, and not noted yet. -/
  written : Bool
deriving DecidableEq

structure AuditVerdict where
  passed : Bool
  auditedAt : ℚ
  scoredBy : Finset String
deriving DecidableEq

/-- An audit on the local GPU. -/
inductive LocalAudit
  | error
  | passed
  | failed
deriving DecidableEq, Repr

/-- What a listener did to a record. -/
inductive Fate
  /-- Settled, and its verdict older than the hold at `now`. -/
  | spared (now : ℚ)
  /-- Audited here, and once more if that failed. -/
  | audited (first second : LocalAudit)
deriving DecidableEq

structure Rechecked where
  executor : String
  sid : String
  fate : Fate
deriving DecidableEq

/-- What a listener took: when, and the ids. -/
structure Taken where
  executor : String
  now : ℚ
  ids : List String
deriving DecidableEq

structure Control where
  quarantined : Finset String
  /-- Executors whose listener is spawned and has not run yet. -/
  notified : Finset String
  flights : List (String × Flight)
  remoteScored : List (String × List String)
  verdicts : List (String × AuditVerdict)
  settled : Finset String
  taken : List Taken
  rechecked : List Rechecked
  states : List (String × MinerState)
  /-- The failures `_escalate` was given, with their hotkeys. -/
  charged : List (String × String)
  voided : List String
deriving DecidableEq

def Control.init : Control := ⟨∅, ∅, [], [], [], ∅, [], [], [], [], []⟩

inductive ControlEvent
  /-- An audit pass takes a record on. -/
  | audit (sid : String)
  /-- An executor's scores of the record come in. -/
  | scored (executor sid : String)
  /-- Its verdict is written; `here`: from a repeated local audit. -/
  | write (sid : String) (passed here : Bool) (now : ℚ)
  /-- The batch's writes are back: the executors are noted. -/
  | note (sid : String)
  | settle (sid : String)
  | quarantine (executor : String)
  | collect (executor : String) (now : ℚ)
  | recheck (executor : String) (first second : String → LocalAudit)

namespace Control

variable (params : AuditParams) (hotkeyOf : String → String)

variable (s : Control)

def scoredIds (executor : String) : List String :=
  (s.remoteScored.lookup executor).getD []

/-- The executors of a passing verdict, each with the record. -/
def noted (remoteScored : List (String × List String))
    (scoredBy : Finset String) (sid : String) : List (String × List String) :=
  (sortSet scoredBy).foldl (fun t executor =>
    put executor ((t.lookup executor).getD [] ++ [sid]) t) remoteScored

/-- A settled record whose verdict is older than the hold. -/
def spares (now : ℚ) (sid : String) : Bool :=
  sid ∈ s.settled && params.holdSeconds <
      now - ((s.verdicts.lookup sid).map (·.auditedAt)).getD 0

def fateOf (now : ℚ) (first second : String → LocalAudit) (sid : String) : Fate
    :=
  if s.spares params now sid then .spared now
  else .audited (first sid) (second sid)

/-- The records that failed two local audits. -/
def failedTwice (now : ℚ) (first second : String → LocalAudit)
    (ids : List String) : List String :=
  ids.filter fun sid =>
    s.fateOf params now first second sid = .audited .failed .failed

/-- `_escalate`, over the failures of every hotkey. -/
def escalate (now : ℚ) (failed : List String)
    (states : List (String × MinerState)) : List (String × MinerState) :=
  failed.foldl (fun t sid =>
    put (hotkeyOf sid)
      (afterConfirmedFailure ((t.lookup (hotkeyOf sid)).getD {}) params now
        sid) t) states

/-- The second half of `reaudit_executor`. -/
def recheckTaken (t : Taken) (first second : String → LocalAudit) : Control :=
  let ids := t.ids.dedup
  let failed := s.failedTwice params t.now first second ids
  { s with
    taken := s.taken.filter (· ≠ t)
    rechecked := s.rechecked ++ ids.map fun sid =>
      ⟨t.executor, sid, s.fateOf params t.now first second sid⟩
    states := escalate params hotkeyOf t.now failed s.states
    charged := s.charged ++ failed.map fun sid => (hotkeyOf sid, sid)
    voided := s.voided ++ failed }

def dropFlight (sid : String) : List (String × Flight) :=
  s.flights.filter fun x => x.1 != sid

def step : ControlEvent → Control
  | .audit sid =>
    if (s.flights.lookup sid).isSome then s
    else { s with flights := put sid ⟨∅, false⟩ s.flights }
  | .scored executor sid =>
    match s.flights.lookup sid with
    | some ⟨by_, false⟩ =>
      -- A quarantined executor's leases are gone: its result is refused.
      if executor ∈ s.quarantined then s
      else
        { s with flights := put sid ⟨insert executor by_, false⟩ s.flights }
    | _ => s
  | .write sid passed here now =>
    match s.flights.lookup sid with
    | some ⟨by_, false⟩ =>
      if (s.verdicts.lookup sid).isSome then
        { s with flights := s.dropFlight sid }
      else
        let by_ := if here then ∅ else by_
        { s with
          verdicts := put sid ⟨passed, now, by_⟩ s.verdicts
          flights :=
            if passed then put sid ⟨by_, true⟩ s.flights
            else s.dropFlight sid }
    | _ => s
  | .note sid =>
    match s.flights.lookup sid with
    | some ⟨by_, true⟩ =>
      { s with
        remoteScored := noted s.remoteScored by_ sid
        flights := s.dropFlight sid }
    | _ => s
  | .settle sid => { s with settled := insert sid s.settled }
  | .quarantine executor =>
    if executor ∈ s.quarantined then s
    else
      { s with
        quarantined := insert executor s.quarantined
        notified := insert executor s.notified }
  | .collect executor now =>
    if executor ∈ s.notified then
      { s with
        notified := s.notified.erase executor
        remoteScored := s.remoteScored.filter fun x => x.1 != executor
        taken := s.taken ++ [⟨executor, now, s.scoredIds executor⟩] }
    else s
  | .recheck executor first second =>
    match s.taken.find? fun t => t.executor = executor with
    | none => s
    | some t => s.recheckTaken params hotkeyOf t first second

/-- An executor's listener is done. -/
def Done (executor : String) : Prop :=
  executor ∈ s.quarantined ∧ executor ∉ s.notified ∧
    ∀ t ∈ s.taken, t.executor ≠ executor

/-- No record in flight has scores of an executor whose listener takes
the list now. -/
def Landed : ControlEvent → Prop
  | .collect executor _ => ∀ x ∈ s.flights, executor ∉ x.2.scoredBy
  | _ => True

end Control

-- ===== what is tracked

namespace Control

/-- Where a passing verdict that names an executor is. -/
def Tracked (s : Control) (executor sid : String) : Prop :=
  (∃ f, s.flights.lookup sid = some f ∧ f.written = true ∧
    executor ∈ f.scoredBy) ∨
  sid ∈ s.scoredIds executor ∨
  (∃ t ∈ s.taken, t.executor = executor ∧ sid ∈ t.ids) ∨
  ∃ r ∈ s.rechecked, r.executor = executor ∧ r.sid = sid

/-- What the history says of a record is so. -/
def Stands (params : AuditParams) (hotkeyOf : String → String)
    (s : Control) (r : Rechecked) : Prop :=
  match r.fate with
  | .spared now => r.sid ∈ s.settled ∧ ∀ v, s.verdicts.lookup r.sid = some v →
        params.holdSeconds < now - v.auditedAt
  | .audited first second => first = .failed → second = .failed →
      r.sid ∈ s.voided ∧ (hotkeyOf r.sid, r.sid) ∈ s.charged

/-- Once an executor's listener has taken its list, nothing more names
it. -/
def Quiet (s : Control) : Prop :=
  ∀ e ∈ s.quarantined, e ∉ s.notified →
    (∀ x ∈ s.flights, e ∉ x.2.scoredBy) ∧ s.scoredIds e = []

structure Inv (params : AuditParams) (hotkeyOf : String → String)
    (s : Control) : Prop where
  /-- A written flight is a verdict's, and names no other executor. -/
  flight : ∀ sid f, s.flights.lookup sid = some f → f.written = true →
    (s.verdicts.lookup sid).isSome
  scored : ∀ executor, ∀ sid ∈ s.scoredIds executor,
    (s.verdicts.lookup sid).isSome
  taken : ∀ t ∈ s.taken, t.executor ∈ s.quarantined ∧
    ∀ sid ∈ t.ids, (s.verdicts.lookup sid).isSome
  tracked : ∀ sid v, s.verdicts.lookup sid = some v → v.passed = true →
    ∀ executor ∈ v.scoredBy, s.Tracked executor sid
  history : ∀ r ∈ s.rechecked, (s.verdicts.lookup r.sid).isSome ∧
    r.executor ∈ s.quarantined ∧ s.Stands params hotkeyOf r
  notified : s.notified ⊆ s.quarantined
  quiet : s.Quiet

variable {params : AuditParams} {hotkeyOf : String → String}
  {s s' : Control}

theorem inv_init : Inv params hotkeyOf init :=
  ⟨nofun, nofun, nofun, nofun, nofun, subset_rfl, nofun⟩

/-- What a step only adds to. -/
structure Grows (s s' : Control) : Prop where
  settled : s.settled ⊆ s'.settled
  voided : s.voided ⊆ s'.voided
  charged : s.charged ⊆ s'.charged
  quarantined : s.quarantined ⊆ s'.quarantined
  verdicts : ∀ sid v, s.verdicts.lookup sid = some v →
    s'.verdicts.lookup sid = some v

theorem Grows.verdict (h : s.Grows s') {sid : String}
    (hv : (s.verdicts.lookup sid).isSome) :
    (s'.verdicts.lookup sid).isSome := by
  obtain ⟨v, hv⟩ := isSome_iff_exists.1 hv
  exact isSome_iff_exists.2 ⟨v, h.verdicts sid v hv⟩

theorem Stands.grows {r : Rechecked} (h : s.Stands params hotkeyOf r)
    (hg : s.Grows s') (hv : (s.verdicts.lookup r.sid).isSome) :
    s'.Stands params hotkeyOf r := by
  unfold Stands at h ⊢
  obtain ⟨v₀, hv₀⟩ := isSome_iff_exists.1 hv
  split
  · rename_i now hf
    rw [hf] at h
    refine ⟨hg.settled h.1, fun v hv' => ?_⟩
    rw [hg.verdicts _ _ hv₀, some_inj] at hv'
    exact hv' ▸ h.2 v₀ hv₀
  · rename_i first second hf
    rw [hf] at h
    exact fun h₁ h₂ => ⟨hg.voided (h h₁ h₂).1, hg.charged (h h₁ h₂).2⟩

theorem Inv.history_grows (h : s.Inv params hotkeyOf) (hg : s.Grows s')
    (hr : s'.rechecked = s.rechecked) :
    ∀ r ∈ s'.rechecked, (s'.verdicts.lookup r.sid).isSome ∧
      r.executor ∈ s'.quarantined ∧ s'.Stands params hotkeyOf r := by
  intro r hrm
  rw [hr] at hrm
  obtain ⟨hv, hq, hst⟩ := h.history r hrm
  exact ⟨hg.verdict hv, hg.quarantined hq, hst.grows hg hv⟩

theorem Inv.taken_grows (h : s.Inv params hotkeyOf) (hg : s.Grows s')
    (ht : s'.taken = s.taken) : ∀ t ∈ s'.taken, t.executor ∈ s'.quarantined ∧
      ∀ sid ∈ t.ids, (s'.verdicts.lookup sid).isSome := by
  intro t htm
  rw [ht] at htm
  obtain ⟨hq, hv⟩ := h.taken t htm
  exact ⟨hg.quarantined hq, fun sid hs => hg.verdict (hv sid hs)⟩

/-- Where a verdict was, it still is, as far as the flights go. -/
theorem Tracked.grows {executor sid : String} (h : s.Tracked executor sid)
    (hs : s'.remoteScored = s.remoteScored) (ht : s'.taken = s.taken)
    (hr : s'.rechecked = s.rechecked)
    (hf : ∀ f, s.flights.lookup sid = some f → f.written = true →
      s'.flights.lookup sid = some f) : s'.Tracked executor sid := by
  refine h.imp ?_ (Or.imp ?_ (Or.imp ?_ ?_))
  · rintro ⟨f, hfl, hw, he⟩
    exact ⟨f, hf f hfl hw, hw, he⟩
  · rw [scoredIds, scoredIds, hs]
    exact id
  · rw [ht]
    exact id
  · rw [hr]
    exact id

/-- The lists after a record's executors are noted. -/
theorem lookup_noted (t : List (String × List String)) (by_ : Finset String)
    (sid executor : String) : ((noted t by_ sid).lookup executor).getD [] =
      if executor ∈ by_ then (t.lookup executor).getD [] ++ [sid]
      else (t.lookup executor).getD [] := by
  have hnd := nodup_sortSet by_
  simp only [← mem_sortSet (s := by_)]
  unfold noted
  generalize sortSet by_ = l at hnd
  induction l generalizing t with
  | nil => simp
  | cons x l ih =>
    obtain ⟨hx, hnd⟩ := nodup_cons.1 hnd
    rw [foldl_cons, ih _ hnd, lookup_put]
    by_cases hxe : executor = x
    · subst hxe
      rw [if_neg hx, if_pos rfl, if_pos mem_cons_self]
      rfl
    · rw [if_neg hxe]
      simp only [mem_cons, hxe, false_or]

theorem lookup_dropFlight_ne {sid x : String} (h : x ≠ sid) :
    (s.dropFlight sid).lookup x = s.flights.lookup x :=
  lookup_remove_ne h s.flights

/-- A flight that is not written is none of those that are. -/
theorem ne_unwritten {sid : String} {by_ : Finset String}
    (h : s.flights.lookup sid = some ⟨by_, false⟩) {x : String} {f : Flight}
    (hx : s.flights.lookup x = some f) (hw : f.written = true) : x ≠ sid := by
  rintro rfl
  cases h.symm.trans hx
  cases hw

theorem of_mem_dropFlight {sid : String} {x : String × Flight}
    (h : x ∈ s.dropFlight sid) : x ∈ s.flights :=
  (mem_filter.1 h).1

/-- A step that keeps the quarantines, and names no new executor. -/
theorem Quiet.same (h : s.Quiet) (hq : s'.quarantined = s.quarantined)
    (hn : s'.notified = s.notified)
    (hf : ∀ x ∈ s'.flights, ∀ e ∈ x.2.scoredBy, e ∈ s.quarantined →
      ∃ y ∈ s.flights, e ∈ y.2.scoredBy)
    (hs : ∀ e ∈ s.quarantined, (∀ x ∈ s.flights, e ∉ x.2.scoredBy) →
      s.scoredIds e = [] → s'.scoredIds e = []) : s'.Quiet := by
  intro e he hne
  rw [hq] at he
  rw [hn] at hne
  obtain ⟨hfl, hsc⟩ := h e he hne
  refine ⟨fun x hx hex => ?_, hs e he hfl hsc⟩
  obtain ⟨y, hy, hey⟩ := hf x hx e hex he
  exact hfl y hy hey

section Kept

variable (h : s.Inv params hotkeyOf)
include h

theorem Inv.write (sid : String) (passed here : Bool) (now : ℚ) :
    (s.step params hotkeyOf (.write sid passed here now)).Inv params
      hotkeyOf := by
  simp only [step]
  split
  · rename_i by_ hfl
    split
    · refine { h with
        flight := ?_, tracked := ?_
        quiet := h.quiet.same rfl rfl
          (fun x hx e he _ => ⟨x, of_mem_dropFlight hx, he⟩)
          fun _ _ _ hs => hs }
      · exact fun x f hx => h.flight x f (lookup_remove_some hx).2
      · intro x v hv hp executor he
        refine (h.tracked x v hv hp executor he).grows rfl rfl rfl ?_
        intro f hx hw
        rw [lookup_dropFlight_ne (ne_unwritten hfl hx hw), hx]
    · rename_i hnone
      have hg : s.Grows { s with
          verdicts := put sid
            ⟨passed, now, if here = true then ∅ else by_⟩ s.verdicts
          flights := if passed = true then
              put sid ⟨if here = true then ∅ else by_, true⟩ s.flights
            else s.dropFlight sid } := by
        refine ⟨subset_rfl, Subset.refl _, Subset.refl _, subset_rfl, ?_⟩
        rw [not_isSome_iff_eq_none] at hnone
        exact fun _ _ => lookup_put_new hnone _
      refine ⟨?_, fun e x hx => hg.verdict (h.scored e x hx),
        h.taken_grows hg rfl, ?_, h.history_grows hg rfl, h.notified,
        h.quiet.same rfl rfl (fun x hx e he _ => ?_) fun _ _ _ hs => hs⟩
      · intro x f hx hw
        by_cases hxs : x = sid
        · rw [lookup_put, if_pos hxs]
          rfl
        · rw [lookup_put, if_neg hxs]
          refine h.flight x f ?_ hw
          split at hx
          · rwa [lookup_put, if_neg hxs] at hx
          · rwa [lookup_dropFlight_ne hxs] at hx
      · intro x v hv hp executor he
        by_cases hxs : x = sid
        · subst hxs
          rw [lookup_put, if_pos rfl, some_inj] at hv
          subst hv
          refine .inl ⟨⟨if here = true then ∅ else by_, true⟩, ?_, rfl, he⟩
          rw [if_pos hp, lookup_put, if_pos rfl]
        · rw [lookup_put, if_neg hxs] at hv
          refine (h.tracked x v hv hp executor he).grows rfl rfl rfl ?_
          intro f hx hw
          split
          · rw [lookup_put, if_neg hxs, hx]
          · rw [lookup_dropFlight_ne hxs, hx]
      · split at hx
        · rcases mem_put hx with rfl | hx
          · refine ⟨_, mem_of_lookup hfl, ?_⟩
            split at he
            · exact nomatch he
            · exact he
          · exact ⟨x, hx, he⟩
        · exact ⟨x, of_mem_dropFlight hx, he⟩
  · exact h

theorem Inv.note (sid : String) :
    (s.step params hotkeyOf (.note sid)).Inv params hotkeyOf := by
  simp only [step]
  split
  · rename_i by_ hfl
    refine { h with
      flight := ?_, scored := ?_, tracked := ?_
      quiet := h.quiet.same rfl rfl
        (fun x hx e he _ => ⟨x, of_mem_dropFlight hx, he⟩)
        fun e _ hno hs => ?_ }
    · exact fun x f hx => h.flight x f (lookup_remove_some hx).2
    · intro executor x hx
      rw [scoredIds, lookup_noted] at hx
      split at hx
      · rcases mem_snoc.1 hx with hx | rfl
        · exact h.scored executor x hx
        · exact h.flight x _ hfl rfl
      · exact h.scored executor x hx
    · intro x v hv hp executor he
      rcases h.tracked x v hv hp executor he with ⟨f, hf, hw, hef⟩ | ht | ht
      · by_cases hxs : x = sid
        · subst hxs
          rw [hfl, some_inj] at hf
          subst hf
          refine .inr (.inl ?_)
          rw [scoredIds, lookup_noted, if_pos hef]
          exact mem_concat_self
        · refine .inl ⟨f, ?_, hw, hef⟩
          rw [lookup_dropFlight_ne hxs, hf]
      · refine .inr (.inl ?_)
        rw [scoredIds, lookup_noted]
        split
        · exact mem_append_left _ ht
        · exact ht
      · exact .inr (.inr ht)
    · rw [scoredIds, lookup_noted, if_neg (hno _ (mem_of_lookup hfl))]
      exact hs
  · exact h

theorem Inv.collect (executor : String) (now : ℚ)
    (hl : s.Landed (.collect executor now)) :
    (s.step params hotkeyOf (.collect executor now)).Inv params hotkeyOf := by
  simp only [step]
  split
  · rename_i hmem
    refine ⟨h.flight, ?_, ?_, ?_, h.history,
      (Finset.erase_subset _ _).trans h.notified, fun e he hne => ?_⟩
    · intro e x hx
      rw [scoredIds] at hx
      by_cases he : e = executor
      · rw [he, lookup_remove_self] at hx
        exact nomatch hx
      · rw [lookup_remove_ne he] at hx
        exact h.scored e x hx
    · exact forall_snoc h.taken ⟨h.notified hmem, h.scored executor⟩
    · intro x v hv hp e he
      rcases h.tracked x v hv hp e he with ht | ht | ⟨t, ht, hte⟩ | ht
      · exact .inl ht
      · by_cases hee : e = executor
        · subst hee
          exact .inr (.inr (.inl ⟨_, mem_append_right _
            (mem_singleton_self _), rfl, ht⟩))
        · refine .inr (.inl ?_)
          rw [scoredIds]
          rw [lookup_remove_ne hee]
          exact ht
      · exact .inr (.inr (.inl ⟨t, mem_append_left _ ht, hte⟩))
      · exact .inr (.inr (.inr ht))
    · by_cases hee : e = executor
      · subst hee
        refine ⟨hl, ?_⟩
        rw [scoredIds]
        rw [lookup_remove_self]
        rfl
      · have hold := h.quiet e he fun hx => hne (Finset.mem_erase.2 ⟨hee, hx⟩)
        refine ⟨hold.1, ?_⟩
        rw [scoredIds]
        rw [lookup_remove_ne hee]
        exact hold.2
  · exact h

theorem Inv.recheck {t : Taken}
    (ht : t ∈ s.taken) (first second : String → LocalAudit) :
    (s.recheckTaken params hotkeyOf t first second).Inv params hotkeyOf := by
  have hg : s.Grows (s.recheckTaken params hotkeyOf t first second) :=
    ⟨subset_rfl, subset_append_left _ _,
      subset_append_left _ _, subset_rfl, fun _ _ h => h⟩
  refine ⟨h.flight, h.scored, ?_, ?_, ?_, h.notified, h.quiet⟩
  · intro u hu
    exact h.taken u (mem_filter.1 hu).1
  · intro x v hv hp e he
    rcases h.tracked x v hv hp e he with hx | hx | ⟨u, hu, hue, hx⟩ |
        ⟨r, hr, hre⟩
    · exact .inl hx
    · exact .inr (.inl hx)
    · by_cases hut : u = t
      · subst hut
        refine .inr (.inr (.inr ⟨_, mem_append_right _
          (List.mem_map_of_mem (mem_dedup.2 hx)), hue, rfl⟩))
      · exact .inr (.inr (.inl ⟨u, mem_filter.2 ⟨hu, by simpa using hut⟩,
          hue, hx⟩))
    · exact .inr (.inr (.inr ⟨r, mem_append_left _ hr, hre⟩))
  · intro r hr
    obtain ⟨hq, hids⟩ := h.taken t ht
    rcases mem_append.1 hr with hr | hr
    · obtain ⟨hv, hq', hst⟩ := h.history r hr
      exact ⟨hv, hq', hst.grows hg hv⟩
    · obtain ⟨sid, hsid, rfl⟩ := List.mem_map.1 hr
      refine ⟨hids sid (mem_dedup.1 hsid), hq, ?_⟩
      unfold Stands
      split
      · rename_i now hf
        rw [fateOf] at hf
        split at hf
        · rename_i hsp
          obtain rfl : t.now = now := by simpa using hf
          rw [spares, Bool.and_eq_true, decide_eq_true_eq,
            decide_eq_true_eq] at hsp
          refine ⟨hsp.1, fun v hv => ?_⟩
          have hlt := hsp.2
          rw [show s.verdicts.lookup sid = some v from hv] at hlt
          exact hlt
        · exact nomatch hf
      · rename_i f₁ f₂ hf
        rintro rfl rfl
        have hmem : sid ∈ s.failedTwice params t.now first second t.ids.dedup :=
          mem_filter.2 ⟨hsid, decide_eq_true hf⟩
        exact ⟨mem_append_right _ hmem,
          mem_append_right _ (List.mem_map_of_mem hmem)⟩

theorem Inv.step {e : ControlEvent} (hl : s.Landed e) :
    (s.step params hotkeyOf e).Inv params hotkeyOf := by
  cases e with
  | audit sid =>
    simp only [Control.step]
    split
    · exact h
    · rename_i hnone
      refine { h with
        flight := ?_, tracked := ?_
        quiet := h.quiet.same rfl rfl (fun x hx e he _ => ?_)
          fun _ _ _ hs => hs }
      · exact forall_lookup_put h.flight nofun
      · intro x v hv hp executor he
        refine (h.tracked x v hv hp executor he).grows rfl rfl rfl ?_
        rw [not_isSome_iff_eq_none] at hnone
        exact fun _ hx _ => lookup_put_new hnone _ hx
      · rcases mem_put hx with rfl | hx
        · exact nomatch he
        · exact ⟨x, hx, he⟩
  | scored executor sid =>
    simp only [Control.step]
    split
    · rename_i by_ hfl
      split
      · exact h
      · rename_i hnq
        refine { h with
          flight := ?_, tracked := ?_
          quiet := h.quiet.same rfl rfl (fun x hx e he heq => ?_)
            fun _ _ _ hs => hs }
        · exact forall_lookup_put h.flight nofun
        · intro x v hv hp e he
          refine (h.tracked x v hv hp e he).grows rfl rfl rfl ?_
          intro f hx hw
          rw [lookup_put, if_neg (ne_unwritten hfl hx hw), hx]
        · rcases mem_put hx with rfl | hx
          · rcases Finset.mem_insert.1 he with rfl | he
            · exact absurd heq hnq
            · exact ⟨_, mem_of_lookup hfl, he⟩
          · exact ⟨x, hx, he⟩
    · exact h
  | write sid passed here now => exact h.write sid passed here now
  | note sid => exact h.note sid
  | settle sid =>
    have hg : s.Grows { s with settled := insert sid s.settled } :=
      ⟨Finset.subset_insert _ _, Subset.refl _, Subset.refl _,
        subset_rfl, fun _ _ h => h⟩
    exact { h with history := h.history_grows hg rfl }
  | quarantine executor =>
    simp only [Control.step]
    split
    · exact h
    · have hg : s.Grows { s with
          quarantined := insert executor s.quarantined
          notified := insert executor s.notified } :=
        ⟨subset_rfl, Subset.refl _, Subset.refl _,
          Finset.subset_insert _ _, fun _ _ h => h⟩
      refine ⟨h.flight, h.scored, h.taken_grows hg rfl, h.tracked,
        h.history_grows hg rfl, Finset.insert_subset_insert _ h.notified, ?_⟩
      intro e he hne
      rw [Finset.mem_insert, not_or] at hne
      exact h.quiet e ((Finset.mem_insert.1 he).resolve_left hne.1) hne.2
  | collect executor now => exact h.collect executor now hl
  | recheck executor first second =>
    simp only [Control.step]
    split
    · exact h
    · rename_i t ht
      exact h.recheck (mem_of_find?_eq_some ht) first second

end Kept

end Control

def weekHold : AuditParams := ⟨1 / 10, 100, 4320, 86400, 3, 604800, 604800⟩

/-- A pass lands before the executor that scored it is quarantined. -/
def landedFirst : List ControlEvent :=
  [.audit "a", .scored "box" "a", .write "a" true false 0, .note "a",
    .quarantine "box", .collect "box" 10,
    .recheck "box" (fun _ => .failed) fun _ => .failed]

instance (s : Control) : DecidablePred s.Landed
  | .collect _ _ => inferInstanceAs (Decidable (∀ x ∈ s.flights, _))
  | .audit .. | .scored .. | .write .. | .note .. | .settle ..
  | .quarantine .. | .recheck .. => inferInstanceAs (Decidable True)

instance (s : Control) (executor : String) : Decidable (s.Done executor) :=
  inferInstanceAs (Decidable (_ ∧ _ ∧ ∀ t ∈ s.taken, _))

/-- The verdict is written, the executor is quarantined and its listener
runs, and only then are the batch's writes back. -/
def landedLate : List ControlEvent :=
  [.audit "a", .scored "box" "a", .write "a" true false 0,
    .quarantine "box", .collect "box" 10,
    .recheck "box" (fun _ => .failed) fun _ => .failed, .note "a"]

end Reliquary.Audit
