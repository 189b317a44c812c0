/-
When a period is closed (`validator/corpus_auditor.py`,
`oldest_pending_received_at` with `enqueue`, `_read`, `_remember`, `_seed`
and `_write`; `validator/corpus_periods.py`, `closed_through`).

# What is modeled how

- The world is the store (records and verdicts, both create-only), the
  verdict writes under way, and one auditor process, which may be started
  anew at any time. Its sets and its metadata are those of Judge.lean.
- Everything between two awaits is one event, at an instant of the clock.
  `_start` is the listing (`list`), the reads, and `seed` once every
  listed id is read or unreadable. A full rescan is any number of `find`
  (a listed id without a verdict) and `findJudged`. A verdict is planned,
  lands in the store, and is marked when its write is back.
- `fresh` is a history: the ids accepted since the process started.
- minus infinity, the arrival of an id nothing is known of, is
  `Oldest.unbounded`. `closed_through` raises on it (`math.floor`), so
  nothing is declared closed. `_given_up` only keeps a log line from
  repeating and is left out.

# What is proven

A record without a verdict is known to a seeded process, or was accepted
since it started (`Inv.seeded`). A known one bounds what
`oldest_pending_received_at` answers by its receipt, unless its arrival is
unknown for the give-up time. For an unknown one the assumptions on the
route and the feed do. So a closed period gains no verdict
(`closed_gains_nothing`) where every live id is handed over within the
accept slack of its receipt. An arrival feed may be sound and late: then
the id's hand-over less the slack is after its receipt
(`fed_late_gains`).
-/
import Reliquary.Audit.Judge
import Reliquary.Pay.Periods

namespace Reliquary.Audit.Horizon

open Store Pay Finset Option

-- ===== the auditor

/-- How long after its receipt a record may reach the store. -/
def acceptSlackSeconds : ℚ := 420

/-- The settler's slack. -/
def admissionSlackSeconds : ℚ := 420

def unknownArrivalGiveUpSeconds : ℚ := 2 * 4320

/-- What the store has of a submission. -/
structure Stored where
  hotkey : String
  tokenCount : Nat
  /-- The receipt time stamped on the record; an older one has none. -/
  receivedAt : Option ℚ
deriving DecidableEq, Repr

/-- An auditor process, as far as its close bound goes. -/
structure Process where
  auditor : Auditor
  /-- When an id was handed over live. -/
  seenAt : List (String × ℚ)
  /-- When an id without a known arrival was first counted. -/
  unknownSince : List (String × ℚ)
  /-- The ids the start's listing showed. -/
  listed : Option (Finset String)
  seeded : Bool
deriving DecidableEq

namespace Process

def init : Process := ⟨Auditor.init, [], [], none, false⟩

def enqueue (p : Process) (now : ℚ) (sid : String) (live : Bool) : Process :=
  if sid ∈ p.auditor.queued ∨ sid ∈ p.auditor.judged then p
  else
    { p with
      auditor := p.auditor.enqueue sid
      seenAt :=
        if live ∧ (p.seenAt.lookup sid).isNone then put sid now p.seenAt
        else p.seenAt }

/-- `_read` and `_remember`: a record without an arrival time counts from
the read. -/
def read (p : Process) (now : ℚ) (sid : String) (record : Option Stored) :
    Process :=
  { p with
    auditor := p.auditor.read sid (record.map fun r =>
      ⟨r.hotkey, r.receivedAt.getD now, r.tokenCount⟩) }

def markJudged (p : Process) (sid : String) : Process :=
  { p with auditor := p.auditor.markJudged sid }

/-- The end of `_seed`: every listed id has a verdict or was read, with
whatever outcome. -/
def seed (p : Process) : Process :=
  match p.listed with
  | none => p
  | some ids =>
    if ∀ sid ∈ ids, sid ∈ p.auditor.judged ∨ sid ∈ p.auditor.unreadable ∨
        (p.auditor.metas.lookup sid).isSome then
      { p with seeded := true }
    else p

/-- The ids the close bound goes over. -/
def pending (p : Process) : List String :=
  sortSet (p.auditor.known \ p.auditor.judged)

end Process

open Process

/-- The earliest arrival counted so far. -/
inductive Oldest
  /-- `None`: nothing is pending. -/
  | nothing
  /-- Minus infinity. -/
  | unbounded
  | since (t : ℚ)
deriving DecidableEq, Repr

def Oldest.min : Oldest → Oldest → Oldest
  | .nothing, o | o, .nothing => o
  | .unbounded, _ | _, .unbounded => .unbounded
  | .since t, .since u => .since (Min.min t u)

namespace Process

/-- When a pending id may have been received, at the earliest; `nothing`
for one given up. -/
def arrival (p : Process) (now : ℚ) (sid : String) : Oldest :=
  match p.auditor.metas.lookup sid with
  | some m => .since m.receivedAt
  | none =>
    match p.seenAt.lookup sid with
    | some seen => .since (seen - acceptSlackSeconds)
    | none =>
      let first := (p.unknownSince.lookup sid).getD now
      if unknownArrivalGiveUpSeconds < now - first then .nothing
      else .unbounded

/-- An id without a known arrival is remembered as counted. -/
def note (now : ℚ) (p : Process) (sid : String) : Process :=
  if (p.auditor.metas.lookup sid).isSome ∨ (p.seenAt.lookup sid).isSome ∨
      (p.unknownSince.lookup sid).isSome then p
  else
    { p with unknownSince := put sid now p.unknownSince }

/-- What may still arrive unseen, from the feed's coverage. -/
def unseen : Coverage → Option Oldest
  | .unknown => none
  | .all => some .nothing
  | .upTo c => some (.since (c - acceptSlackSeconds))

/-- `oldest_pending_received_at`; `none` where it raises. -/
def oldestPending (p : Process) (now : ℚ) (covered : Coverage) :
    Option (Process × Oldest) :=
  if p.seeded then
    (unseen covered).map fun o =>
      (p.pending.foldl (note now) p,
        p.pending.foldl (fun o sid => o.min (p.arrival now sid)) o)
  else none

end Process

/-- `closed_through` of the auditor's answer. -/
def closing (genesis now : ℚ) : Oldest → Option Int
  | .nothing => some (closedThrough now none genesis admissionSlackSeconds)
  | .unbounded => none
  | .since t =>
    some (closedThrough now (some t) genesis admissionSlackSeconds)

-- ===== the world

structure World where
  clock : ℚ
  records : List (String × Stored)
  /-- When each record was written (the front's clock). -/
  acceptedAt : List (String × ℚ)
  /-- The `received_at` of each verdict that stands. -/
  verdicts : List (String × ℚ)
  /-- The verdict writes sent. -/
  flights : List (String × ℚ)
  process : Process
  /-- The ids accepted since the process started. -/
  fresh : Finset String
deriving DecidableEq

inductive WorldEvent
  /-- A submission's record is written. -/
  | accept (sid : String) (record : Stored)
  /-- The route or the feed hands an id over. -/
  | hand (sid : String)
  /-- A rescan enqueues a listed id that has no verdict. -/
  | find (sid : String)
  | findJudged (sid : String)
  /-- The auditor's process is started, anew or for the first time. -/
  | boot
  | list
  | seed
  | read (sid : String) (readable : Bool)
  | plan (sid : String)
  | land (sid : String) (receivedAt : ℚ)
  /-- The write is back: a verdict stands. -/
  | mark (sid : String)
  /-- The settler asks for the close bound. -/
  | close (covered : Coverage)
deriving DecidableEq, Repr

/-- An event and its instant. -/
structure Timed where
  now : ℚ
  event : WorldEvent
deriving DecidableEq, Repr

variable (w : World)

namespace World

def init : World := ⟨0, [], [], [], [], Process.init, ∅⟩

/-- The receipt time stamped on a submission's record. -/
def received (sid : String) : Option ℚ :=
  (w.records.lookup sid).bind Stored.receivedAt

def act (now : ℚ) : WorldEvent → World
  | .accept sid record =>
    match w.records.lookup sid with
    | some _ => w
    | none =>
      { w with
        records := put sid record w.records
        acceptedAt := put sid now w.acceptedAt
        fresh := insert sid w.fresh }
  | .hand sid =>
    { w with process := w.process.enqueue now sid true }
  | .find sid =>
    if (w.records.lookup sid).isSome then
      { w with process := w.process.enqueue now sid false }
    else w
  | .findJudged sid | .mark sid =>
    if (w.verdicts.lookup sid).isSome then
      { w with process := w.process.markJudged sid }
    else w
  | .boot =>
    { w with process := Process.init, fresh := ∅ }
  | .list =>
    { w with
      process :=
        { w.process with listed := some (w.records.map (·.1)).toFinset } }
  | .seed =>
    { w with process := w.process.seed }
  | .read sid readable =>
    { w with
      process := w.process.read now sid
        (if readable then w.records.lookup sid else none) }
  | .plan sid =>
    match w.process.auditor.metas.lookup sid with
    | none => w
    | some m =>
      { w with flights := (sid, m.receivedAt) :: w.flights }
  | .land sid receivedAt =>
    -- create-only: the first verdict stands
    if (sid, receivedAt) ∈ w.flights ∧ (w.verdicts.lookup sid).isNone then
      { w with verdicts := put sid receivedAt w.verdicts }
    else w
  | .close covered =>
    match w.process.oldestPending now covered with
    | none => w
    | some (p, _) =>
      { w with process := p }

/-- The clock goes on. -/
def tick (now : ℚ) : World :=
  { w with clock := now }

def step (a : Timed) : World :=
  (w.tick a.now).act a.now a.event

/-- The period declared closed, with every one before it, by
`closed_through` at an instant. -/
def closes (genesis now : ℚ) (covered : Coverage) : Option Int :=
  (w.process.oldestPending now covered).bind fun r => closing genesis now r.2

/-- The auditor has heard of the submission. -/
def Known (sid : String) : Prop :=
  sid ∈ w.process.auditor.queued ∨ w.process.auditor.Heard sid

/-- The submission's arrival could not be read for the give-up time: no
read of it gave a record since this process first counted it. -/
def Unread (now : ℚ) (sid : String) : Prop :=
  w.process.auditor.metas.lookup sid = none ∧
    ∃ first, w.process.unknownSince.lookup sid = some first ∧
      unknownArrivalGiveUpSeconds < now - first

/-- The instant is within the accept slack of the submission's receipt. -/
def InTime (now : ℚ) (sid : String) : Prop :=
  ∀ t, w.received sid = some t → now ≤ t + acceptSlackSeconds

/-- The coverage given to the auditor may be trusted. In one process every
id is handed over within the slack of its receipt. Fed by a front, every id
accepted before the instant covered is known. -/
def Sound (fed : Bool) (now : ℚ) : Coverage → Prop
  | .unknown => True
  | .all => fed = false ∧ ∀ sid ∈ w.fresh, ¬ w.Known sid → w.InTime now sid
  | .upTo c => fed = true ∧ c ≤ now ∧ ∀ sid ∈ w.fresh, ¬ w.Known sid →
      ∀ t, w.acceptedAt.lookup sid = some t → c ≤ t

/-- Clocks do not go back, records are written within the slack, and ids
are handed over within it or covered by a sound feed. -/
def Assumed (fed : Bool) (w : World) (a : Timed) : Prop :=
  w.clock ≤ a.now ∧
    match a.event with
    | .accept _ record => ∀ t, record.receivedAt = some t →
        a.now ≤ t + acceptSlackSeconds
    | .hand sid => fed = false → w.InTime a.now sid
    | .close covered => w.Sound fed a.now covered
    | _ => True

/-- And a fed id is handed over within the slack too. -/
def Prompt (fed : Bool) (w : World) (a : Timed) : Prop :=
  w.Assumed fed a ∧ ∀ sid, a.event = .hand sid → w.InTime a.now sid

end World

open World

-- ===== the invariant

/-- An arrival time that agrees with the record's stamp. -/
def Stamped (records : List (String × Stored)) (sid : String) (t : ℚ) : Prop :=
  ∃ r, records.lookup sid = some r ∧ ∀ u, r.receivedAt = some u → t = u

/-- What a process knows, against the store it reads. -/
structure Process.Inv (w : World) (p : Process) : Prop where
  metas : ∀ sid m, p.auditor.metas.lookup sid = some m →
    Stamped w.records sid m.receivedAt
  seen : ∀ sid s, p.seenAt.lookup sid = some s → s ≤ w.clock ∧
    ∀ t, w.received sid = some t → s ≤ t + acceptSlackSeconds
  judged : ∀ sid ∈ p.auditor.judged, (w.verdicts.lookup sid).isSome
  listed : ∀ ids, p.listed = some ids →
    ∀ sid, (w.records.lookup sid).isSome → sid ∈ ids ∨ sid ∈ w.fresh
  seeded : p.seeded = true → ∀ sid, (w.records.lookup sid).isSome →
    (sid ∈ p.auditor.queued ∨ p.auditor.Heard sid) ∨ sid ∈ w.fresh

structure World.Inv (w : World) : Prop where
  process : w.process.Inv w
  flights : ∀ x ∈ w.flights, Stamped w.records x.1 x.2
  verdicts : ∀ sid v, w.verdicts.lookup sid = some v → Stamped w.records sid v
  accepted : ∀ sid t, w.received sid = some t →
    ∃ u, w.acceptedAt.lookup sid = some u ∧ u ≤ t + acceptSlackSeconds

namespace Process.Inv

variable {w : World} {p : Process} {sid : String} {now : ℚ}

theorem init (w : World) : init.Inv w where
  metas := by simp [Process.init, Auditor.init]
  seen := by simp [Process.init]
  judged := by simp [Process.init, Auditor.init]
  listed := by simp [Process.init]
  seeded := by simp [Process.init]

/-- An id is queued; a live one is seen at the instant. -/
theorem enqueue (h : p.Inv w) (sid : String) (live : Bool)
    (hclock : now ≤ w.clock) (hlive : live = true → w.InTime now sid) :
    (p.enqueue now sid live).Inv w := by
  rw [Process.enqueue]
  split
  · exact h
  constructor
  · intro x m hm
    rw [(Auditor.enqueue_fields _ _).1] at hm
    exact h.metas x m hm
  · split
    · next hnew => exact forall_lookup_put h.seen ⟨hclock, hlive hnew.1⟩
    · exact h.seen
  · intro x hx
    rw [(Auditor.enqueue_fields _ _).2.1] at hx
    exact h.judged x hx
  · exact h.listed
  · intro hs x hx
    rcases h.seeded hs x hx with (hq | hh) | hf
    · refine .inl (.inl ?_)
      rw [Auditor.enqueue]
      split
      · exact hq
      · exact mem_insert_of_mem hq
    · refine .inl (.inr ?_)
      simpa only [Auditor.Heard, Auditor.enqueue_fields] using hh
    · exact .inr hf

theorem queued_read (s : Auditor) (sid : String) (r : Option Meta) :
    (s.read sid r).queued = s.queued := by
  cases r with
  | none => rfl
  | some m =>
    rw [Auditor.read, Auditor.remember]
    split <;> rfl

/-- Metadata known before stays; what is new is the record read. -/
theorem metas_read {s : Auditor} {r : Option Meta} {x : String} {m : Meta}
    (h : (s.read sid r).metas.lookup x = some m) :
    s.metas.lookup x = some m ∨ (x = sid ∧ r = some m) := by
  cases r with
  | none => exact .inl h
  | some m' =>
    rw [Auditor.read, Auditor.remember] at h
    split at h
    · exact .inl h
    · rw [lookup_put] at h
      split at h
      · next hx => exact .inr ⟨hx, h⟩
      · exact .inl h

theorem read (h : p.Inv w) (sid : String) {record : Option Stored}
    (hr : ∀ r, record = some r → w.records.lookup sid = some r) :
    (p.read now sid record).Inv w := by
  rw [Process.read]
  constructor
  · intro x m hm
    rcases metas_read hm with hold | ⟨rfl, hnew⟩
    · exact h.metas x m hold
    · obtain ⟨r, rfl, rfl⟩ := map_eq_some_iff.1 hnew
      refine ⟨r, hr r rfl, fun u hu => ?_⟩
      simp [hu]
  · exact h.seen
  · intro x hx
    rw [Auditor.judged_read] at hx
    exact h.judged x hx
  · exact h.listed
  · intro hs x hx
    rcases h.seeded hs x hx with (hq | hh) | hf
    · exact .inl (.inl ((queued_read _ _ _).symm ▸ hq))
    · exact .inl (.inr (hh.read sid _))
    · exact .inr hf

theorem markJudged (h : p.Inv w) (hv : (w.verdicts.lookup sid).isSome) :
    (p.markJudged sid).Inv w := { h with
  judged := (forall_mem_insert _ _ _).2 ⟨hv, h.judged⟩
  seeded := by
    intro hs x hx
    rcases h.seeded hs x hx with (hq | hh) | hf
    · exact .inl (.inl hq)
    · exact .inl (.inr (hh.markJudged sid))
    · exact .inr hf }

theorem seed (h : p.Inv w) : p.seed.Inv w := by
  rw [Process.seed]
  split
  · exact h
  · next ids hids =>
    split
    · next hall =>
      refine { h with seeded := fun _ x hx => ?_ }
      rcases h.listed ids hids x hx with hx | hx
      · exact .inl (.inr (hall x hx))
      · exact .inr hx
    · exact h

/-- The close bound changes only when an id was first counted. -/
theorem note (h : p.Inv w) (ids : List String) :
    (ids.foldl (note now) p).Inv w := by
  refine List.foldlRecOn ids _ h fun q hq x _ => ?_
  rw [Process.note]
  split
  · exact hq
  · exact { hq with }

/-- A later world: the clock went on, nothing was accepted, and verdicts
stand. -/
theorem later (h : p.Inv w) {w' : World} (hclock : w.clock ≤ w'.clock)
    (hrecords : w'.records = w.records) (hfresh : w'.fresh = w.fresh)
    (hverdicts : ∀ sid, (w.verdicts.lookup sid).isSome →
      (w'.verdicts.lookup sid).isSome) : p.Inv w' where
  metas := by
    rw [hrecords]
    exact h.metas
  seen := by
    intro x s hs
    obtain ⟨hc, ht⟩ := h.seen x s hs
    refine ⟨hc.trans hclock, fun t hr => ht t ?_⟩
    rwa [received, hrecords] at hr
  judged := fun x hx => hverdicts x (h.judged x hx)
  listed := by
    rw [hrecords, hfresh]
    exact h.listed
  seeded := by
    rw [hrecords, hfresh]
    exact h.seeded

end Process.Inv

variable {o : Oldest}

/-- What an answer of `oldest_pending_received_at` says. -/
theorem Process.oldestPending_some {p p' : Process} {now : ℚ}
    {covered : Coverage} (h : p.oldestPending now covered = some (p', o)) :
    p.seeded = true ∧ ∃ o₀, unseen covered = some o₀ ∧
      p' = p.pending.foldl (note now) p ∧
      o = p.pending.foldl (fun o sid => o.min (p.arrival now sid)) o₀ := by
  rw [oldestPending] at h
  split at h
  · next hs =>
    obtain ⟨o₀, ho, he⟩ := map_eq_some_iff.1 h
    obtain ⟨hp, ho'⟩ := Prod.mk.inj he
    exact ⟨hs, o₀, ho, hp.symm, ho'.symm⟩
  · cases h

namespace World

variable {w w' : World} {fed : Bool} {a : Timed} {sid : String} {now : ℚ}

theorem Inv.init : init.Inv where
  process := .init _
  flights := by simp [World.init]
  verdicts := by simp [World.init]
  accepted := by simp [World.init, received]

theorem Inv.tick (h : w.Inv) (hnow : w.clock ≤ now) : (w.tick now).Inv :=
  ⟨h.process.later hnow rfl rfl fun _ hv => hv, h.flights, h.verdicts,
    h.accepted⟩

/-- A change of the process alone. -/
theorem Inv.setProcess (h : w.Inv) {p : Process} (hp : p.Inv w) :
    ({ w with process := p } : World).Inv :=
  ⟨hp.later le_rfl rfl rfl fun _ hv => hv, h.flights, h.verdicts, h.accepted⟩

theorem Inv.accept (h : w.Inv) (r : Stored)
    (hnone : w.records.lookup sid = none)
    (hr : ∀ t, r.receivedAt = some t → w.clock ≤ t + acceptSlackSeconds) :
    ({ w with
       records := put sid r w.records
       acceptedAt := put sid w.clock w.acceptedAt
       fresh := insert sid w.fresh } : World).Inv := by
  have hst : ∀ x t, Stamped w.records x t →
      Stamped (put sid r w.records) x t := by
    rintro x t ⟨r', hr', ht⟩
    exact ⟨r', lookup_put_new hnone r hr', ht⟩
  -- the id is new to the store, so it is fresh; the others were there
  have hold : ∀ x, ((put sid r w.records).lookup x).isSome →
      (w.records.lookup x).isSome ∨ x ∈ insert sid w.fresh := by
    intro x hx
    rw [lookup_put] at hx
    split at hx
    · next he => exact .inr (he ▸ mem_insert_self _ _)
    · exact .inl hx
  refine ⟨⟨fun x m hm => hst x _ (h.process.metas x m hm), ?_,
    h.process.judged, ?_, ?_⟩, fun x hx => hst _ _ (h.flights x hx),
    fun x v hv => hst x v (h.verdicts x v hv), ?_⟩
  · intro x s hs
    obtain ⟨hc, ht⟩ := h.process.seen x s hs
    refine ⟨hc, fun t hrec => ?_⟩
    rw [received] at hrec
    rw [lookup_put] at hrec
    split at hrec
    · exact hc.trans (hr t hrec)
    · exact ht t hrec
  · intro ids hids x hx
    rcases hold x hx with hx | hx
    · exact (h.process.listed ids hids x hx).imp_right (mem_insert_of_mem ·)
    · exact .inr hx
  · intro hs x hx
    rcases hold x hx with hx | hx
    · exact (h.process.seeded hs x hx).imp_right (mem_insert_of_mem ·)
    · exact .inr hx
  · intro x t hrec
    rw [received] at hrec
    rw [lookup_put] at hrec ⊢
    split at hrec
    · next hx => exact ⟨w.clock, if_pos hx, hr t hrec⟩
    · next hx =>
      rw [if_neg hx]
      exact h.accepted x t hrec

theorem Inv.act (h : w.Inv) (e : WorldEvent)
    (hok : w.Prompt fed ⟨w.clock, e⟩) : (w.act w.clock e).Inv := by
  cases e with
  | accept sid r =>
    rw [World.act]
    split
    · exact h
    · next hnone => exact h.accept r hnone hok.1.2
  | hand sid =>
    exact h.setProcess
      (h.process.enqueue sid true le_rfl fun _ => hok.2 sid rfl)
  | find sid =>
    rw [World.act]
    split
    · exact h.setProcess (h.process.enqueue sid false le_rfl nofun)
    · exact h
  | findJudged sid =>
    rw [World.act]
    split
    · next hv => exact h.setProcess (h.process.markJudged hv)
    · exact h
  | boot =>
    exact ⟨.init _, h.flights, h.verdicts, h.accepted⟩
  | list =>
    refine h.setProcess ⟨h.process.metas, h.process.seen,
      h.process.judged, ?_, h.process.seeded⟩
    intro ids hids x hx
    obtain rfl := some.inj hids
    obtain ⟨r, hr⟩ := isSome_iff_exists.1 hx
    refine .inl (List.mem_toFinset.2 ?_)
    exact List.mem_map.2 ⟨(x, r), mem_of_lookup hr, rfl⟩
  | seed => exact h.setProcess h.process.seed
  | read sid readable =>
    refine h.setProcess (h.process.read sid fun r hr => ?_)
    split at hr
    · exact hr
    · cases hr
  | plan sid =>
    rw [World.act]
    split
    · exact h
    · next m hm =>
      exact ⟨h.process.later le_rfl rfl rfl fun _ hv => hv,
        List.forall_mem_cons.2 ⟨h.process.metas sid m hm, h.flights⟩,
        h.verdicts, h.accepted⟩
  | land sid t =>
    rw [World.act]
    split
    · next hland =>
      refine ⟨h.process.later le_rfl rfl rfl fun x hv => ?_, h.flights,
        forall_lookup_put h.verdicts (h.flights _ hland.1), h.accepted⟩
      rw [lookup_put]
      split
      · rfl
      · exact hv
    · exact h
  | mark sid =>
    rw [World.act]
    split
    · next hv => exact h.setProcess (h.process.markJudged hv)
    · exact h
  | close covered =>
    rw [World.act]
    split
    · exact h
    · next p o ho =>
      refine h.setProcess ?_
      obtain ⟨-, _, -, rfl, -⟩ := oldestPending_some ho
      exact h.process.note _

end World

-- ===== the bound

/-- The answer is at most an instant. -/
def Oldest.AtMost (r : ℚ) : Oldest → Prop
  | .nothing => False
  | .unbounded => True
  | .since t => t ≤ r

variable {r : ℚ}

theorem Oldest.AtMost.min_left (h : o.AtMost r) (o' : Oldest) :
    (o.min o').AtMost r := by
  cases o with
  | nothing => exact h.elim
  | unbounded => cases o' <;> exact trivial
  | since t =>
    cases o' with
    | nothing => exact h
    | unbounded => exact trivial
    | since u => exact (min_le_left t u).trans h

theorem Oldest.AtMost.min_right (h : o.AtMost r) (o' : Oldest) :
    (o'.min o).AtMost r := by
  have hcomm : o'.min o = o.min o' := by
    cases o <;> cases o' <;> simp [Oldest.min, min_comm]
  exact hcomm ▸ h.min_left o'

theorem closedThrough_lt {now genesis slack r : ℚ} {oldest : Option ℚ}
    (h : now - slack ≤ r ∨ ∃ t, oldest = some t ∧ t ≤ r) :
    closedThrough now oldest genesis slack < periodOf r genesis := by
  have hmono : ∀ b, b ≤ r → periodOf b genesis - 1 < periodOf r genesis := by
    intro b hb
    have hle : periodOf b genesis ≤ periodOf r genesis := by
      refine Int.floor_le_floor ?_
      exact div_le_div_of_nonneg_right (by linarith) (by norm_num [periodSeconds])
    omega
  refine hmono _ ?_
  cases oldest with
  | none =>
    rcases h with h | ⟨t, ht, -⟩
    · exact h
    · cases ht
  | some u =>
    rcases h with h | ⟨t, ht, h⟩
    · exact (min_le_left _ _).trans h
    · obtain rfl := some.inj ht
      exact (min_le_right _ _).trans h

/-- What is declared closed ends before every instant the answer, or the
clock less the slack, is at most. -/
theorem closing_lt {genesis now r : ℚ} {p : Int}
    (hp : closing genesis now o = some p)
    (h : now - admissionSlackSeconds ≤ r ∨ o.AtMost r) :
    p < periodOf r genesis := by
  cases o with
  | nothing =>
    obtain rfl := some.inj hp
    exact closedThrough_lt (.inl (h.resolve_right id))
  | unbounded => cases hp
  | since t =>
    obtain rfl := some.inj hp
    exact closedThrough_lt (h.imp_right fun h => ⟨t, rfl, h⟩)

/-- A pending id bounds the answer by its receipt, or was given up. -/
theorem Process.Inv.arrival {w : World} (h : w.process.Inv w) (now : ℚ)
    {sid : String} {t : ℚ} (hr : w.received sid = some t) :
    (w.process.arrival now sid).AtMost t ∨ w.Unread now sid := by
  rw [Process.arrival]
  cases hm : w.process.auditor.metas.lookup sid with
  | some m =>
    obtain ⟨r, hrec, hst⟩ := h.metas sid m hm
    rw [received, hrec] at hr
    exact .inl (hst t hr).le
  | none =>
    cases hs : w.process.seenAt.lookup sid with
    | some s =>
      have hle := (h.seen sid s hs).2 t hr
      exact .inl (sub_le_iff_le_add.2 hle)
    | none =>
      dsimp only
      split
      · next hlong =>
        refine .inr ⟨hm, ?_⟩
        cases hf : w.process.unknownSince.lookup sid with
        | some first =>
          rw [hf] at hlong
          exact ⟨first, rfl, hlong⟩
        | none =>
          -- counted for the first time now: nothing is given up
          rw [hf, getD_none, sub_self] at hlong
          exact absurd hlong (by norm_num [unknownArrivalGiveUpSeconds])
      · exact .inl trivial

theorem mem_pending {p : Process} {sid : String}
    (hk : sid ∈ p.auditor.queued ∨ p.auditor.Heard sid)
    (hj : sid ∉ p.auditor.judged) : sid ∈ p.pending := by
  rw [pending, mem_sortSet, mem_sdiff, Auditor.known]
  refine ⟨?_, hj⟩
  rcases hk with h | h | h | h
  · exact mem_union_left _ (mem_union_right _ h)
  · exact absurd h hj
  · exact mem_union_right _ h
  · obtain ⟨m, hm⟩ := isSome_iff_exists.1 h
    refine mem_union_left _ (mem_union_left _ ?_)
    exact List.mem_toFinset.2 (List.mem_map.2 ⟨_, mem_of_lookup hm, rfl⟩)

-- ===== closed periods

namespace World

variable {w w' : World} {fed : Bool} {genesis now t : ℚ} {sid : String}
  {covered : Coverage} {p : Int} {as : List Timed}

theorem Inv.step {a : Timed} (h : w.Inv) (ha : w.Prompt fed a) :
    (w.step a).Inv := by
  have ht : (w.tick a.now).Inv := h.tick ha.1.1
  have hok : (w.tick a.now).Prompt fed ⟨a.now, a.event⟩ :=
    ⟨⟨le_rfl, ha.1.2⟩, ha.2⟩
  exact ht.act a.event hok

theorem Inv.run (h : w.Inv) (hrun : Run World.step (Prompt fed) w as w') :
    w'.Inv :=
  hrun.invariant (I := fun w => w.Inv) h fun _ _ ha hw => hw.step ha

/-- A record in the store without a verdict was received after what is
declared closed. -/
theorem Inv.closes_lt (h : w.Inv) (hs : w.Sound fed now covered)
    (hp : w.closes genesis now covered = some p)
    (hv : w.verdicts.lookup sid = none) (hr : w.received sid = some t) :
    p < periodOf t genesis ∨ w.Unread now sid := by
  obtain ⟨⟨q, o⟩, hq, hp⟩ := bind_eq_some_iff.1 hp
  obtain ⟨hseeded, o₀, ho₀, -, rfl⟩ := oldestPending_some hq
  have hstored : (w.records.lookup sid).isSome := by
    obtain ⟨r, hrec, -⟩ := bind_eq_some_iff.1 hr
    simp [hrec]
  by_cases hk : w.Known sid
  · -- known, and pending: its own arrival is counted
    have hj : sid ∉ w.process.auditor.judged := by
      intro hj
      have := h.process.judged sid hj
      simp [hv] at this
    rcases h.process.arrival now hr with ha | ha
    · refine .inl (closing_lt hp (.inr ?_))
      exact foldl_sets (P := (·.AtMost t)) (fun _ _ h => h.min_left _)
        (mem_pending hk hj) (fun _ => ha.min_right _) o₀
    · exact .inr ha
  · -- not handed over yet: the route or the feed answers for it
    have hfresh : sid ∈ w.fresh :=
      (h.process.seeded hseeded sid hstored).resolve_left hk
    refine .inl (closing_lt hp ?_)
    cases covered with
    | unknown => cases ho₀
    | all =>
      have hin := hs.2 sid hfresh hk t hr
      exact .inl (sub_le_iff_le_add.2 hin)
    | upTo c =>
      obtain ⟨u, hu, hle⟩ := h.accepted sid t hr
      have hc : c ≤ t + acceptSlackSeconds :=
        (hs.2.2 sid hfresh hk u hu).trans hle
      obtain rfl := some.inj ho₀
      exact .inr (List.foldlRecOn _ _ (motive := fun o : Oldest => o.AtMost t)
        (sub_le_iff_le_add.2 hc) fun _ h _ _ => h.min_left _)

/-- A submission received within the slack of the instant. -/
theorem closes_lt_of_late (hp : w.closes genesis now covered = some p)
    (ht : now ≤ t + acceptSlackSeconds) : p < periodOf t genesis := by
  obtain ⟨_, -, hp⟩ := bind_eq_some_iff.1 hp
  exact closing_lt hp (.inl (sub_le_iff_le_add.2 ht))

theorem clock_step (w : World) (a : Timed) : (w.step a).clock = a.now := by
  rw [step]
  cases a.event with
  | hand sid | boot | list | seed | read sid ok => rfl
  | accept sid r | find sid | findJudged sid | mark sid | plan sid
  | land sid t | close covered =>
    rw [act]
    split <;> rfl

/-- Records only come in, each by its acceptance. -/
theorem records_act (w : World) (now : ℚ) (e : WorldEvent) :
    (w.act now e).records = w.records ∨ ∃ sid r, e = .accept sid r ∧
        (w.act now e).records = put sid r w.records := by
  cases e with
  | accept sid r =>
    rw [act]
    split
    · exact .inl rfl
    · exact .inr ⟨sid, r, rfl, rfl⟩
  | hand sid | boot | list | seed | read sid ok => exact .inl rfl
  | find sid | findJudged sid | mark sid | plan sid | land sid t
  | close covered =>
    rw [act]
    split <;> exact .inl rfl

/-- What a step adds to the store was received within the slack. -/
theorem received_step {a : Timed} (ha : w.Assumed fed a)
    (hr : (w.step a).received sid = some t) :
    w.received sid = some t ∨ a.now ≤ t + acceptSlackSeconds := by
  rcases records_act (w.tick a.now) a.now a.event with he | ⟨x, r, hacc, he⟩
  · rw [step, received, he] at hr
    exact .inl hr
  · rw [step, received, he, lookup_put] at hr
    split at hr
    · obtain ⟨-, hok⟩ := ha
      rw [hacc] at hok
      exact .inr (hok t hr)
    · exact .inl hr

/-- So was everything a run adds. -/
theorem received_run (hrun : Run step (Prompt fed) w as w')
    (hnow : now ≤ w.clock) (hr : w'.received sid = some t) :
    w.received sid = some t ∨ now ≤ t + acceptSlackSeconds := by
  have hall := hrun.invariant
    (I := fun v => now ≤ v.clock ∧ ∀ t, v.received sid = some t →
      w.received sid = some t ∨ now ≤ t + acceptSlackSeconds)
    ⟨hnow, fun _ h => .inl h⟩ fun v a ha ⟨hc, hv⟩ => by
      have hle : now ≤ a.now := hc.trans ha.1.1
      refine ⟨?_, fun u hu => ?_⟩
      · rwa [clock_step]
      · rcases received_step ha.1 hu with h | h
        · exact hv u h
        · exact .inr (hle.trans h)
  exact hall.2 t hr

/-- **Closed periods gain no more work**: a verdict written after period
`p` was declared closed is for a submission received in a period after it,
unless the submission could not be read for the give-up time. -/
theorem closed_gains_nothing {later : List Timed}
    (hrun : Run step (Prompt fed) init as w)
    (hclose : w.Prompt fed ⟨now, .close covered⟩)
    (hp : w.closes genesis now covered = some p)
    (hlater : Run step (Prompt fed) (w.step ⟨now, .close covered⟩)
      later w') {v : ℚ} (hnew : w.verdicts.lookup sid = none)
    (hv : w'.verdicts.lookup sid = some v) (ht : w'.received sid = some t) :
    v = t ∧ (p < periodOf t genesis ∨ w.Unread now sid) := by
  have hw : w.Inv := Inv.init.run hrun
  have hw' : w'.Inv := (hw.step hclose).run hlater
  constructor
  · obtain ⟨r, hrec, hst⟩ := hw'.verdicts sid v hv
    rw [received, hrec] at ht
    exact hst t ht
  · have hclock : now ≤ (w.step ⟨now, .close covered⟩).clock :=
      (clock_step w _).ge
    rcases received_run hlater hclock ht with hr | hlate
    · rcases received_step hclose.1 hr with hr | hlate
      · exact hw.closes_lt hclose.1.2 hp hnew hr
      · exact .inl (closes_lt_of_late hp hlate)
    · exact .inl (closes_lt_of_late hp hlate)

-- ===== on concrete runs

instance : Decidable (w.InTime now sid) :=
  inferInstanceAs (Decidable (∀ t, _ = some t → _))

instance : Decidable (w.Known sid) :=
  inferInstanceAs (Decidable (_ ∨ _ ∨ _ ∨ _))

instance : (covered : Coverage) → Decidable (w.Sound fed now covered)
  | .unknown => isTrue trivial
  | .all => inferInstanceAs (Decidable (_ ∧ ∀ sid ∈ _, _ → _))
  | .upTo _ => inferInstanceAs (Decidable (_ ∧ _ ∧ ∀ sid ∈ _, _ → _))

instance : (a : Timed) → Decidable (w.Assumed fed a)
  | ⟨_, .accept _ _⟩ | ⟨_, .hand _⟩ | ⟨_, .close _⟩ | ⟨_, .boot⟩
  | ⟨_, .find _⟩ | ⟨_, .findJudged _⟩ | ⟨_, .list⟩ | ⟨_, .seed⟩
  | ⟨_, .read _ _⟩ | ⟨_, .plan _⟩ | ⟨_, .land _ _⟩ | ⟨_, .mark _⟩ =>
    inferInstanceAs (Decidable (_ ∧ _))

instance {P : String → Prop} [DecidablePred P] :
    (e : WorldEvent) → Decidable (∀ sid, e = .hand sid → P sid)
  | .hand sid => decidable_of_iff (P sid)
      ⟨fun h _ he => WorldEvent.hand.inj he ▸ h, fun h => h sid rfl⟩
  | .accept _ _ | .close _ | .boot | .find _ | .findJudged _ | .list
  | .seed | .read _ _ | .plan _ | .land _ _ | .mark _ => isTrue nofun

instance (a : Timed) : Decidable (w.Prompt fed a) :=
  inferInstanceAs (Decidable (w.Assumed fed a ∧
    ∀ sid, a.event = .hand sid → w.InTime a.now sid))

/-- An id never counted without an arrival. -/
theorem not_unread (h : w.process.unknownSince.lookup sid = none) :
    ¬ w.Unread now sid := by
  rintro ⟨-, first, hfirst, -⟩
  rw [h] at hfirst
  cases hfirst

/-- The instant `s` seconds into period 0. -/
def into (s : ℚ) : ℚ := periodEpoch + s

/-- A submission received ten seconds before the end of period 0. -/
def lastMinute : Stored := ⟨"miner", 3, some (into 4310)⟩

/-- The judge starts, and a submission is accepted and handed over after
`delay` seconds. -/
def handedAfter (delay : ℚ) : List Timed :=
  [⟨into 0, .boot⟩, ⟨into 1, .list⟩, ⟨into 2, .seed⟩,
    ⟨into 4311, .accept "late" lastMinute⟩,
    ⟨into (4311 + delay), .hand "late"⟩]

def handed (delay : ℚ) : World := (handedAfter delay).foldl step init

/-- The settler asks a second after the feed's newest cut. -/
def asked : Timed := ⟨into 5201, .close (.upTo (into 5200))⟩

/-- The submission's audit, from its read to its verdict. -/
def audited : List Timed :=
  [⟨into 5210, .read "late" true⟩, ⟨into 5220, .plan "late"⟩,
    ⟨into 5230, .land "late" (into 4310)⟩, ⟨into 5231, .mark "late"⟩]

def judged (delay : ℚ) : World :=
  audited.foldl step ((handed delay).step asked)

/-- Handed over in a second, it keeps its period open until it is
judged. -/
theorem closed_gains_nothing_prompt :
    (handed 1).closes periodEpoch asked.now (.upTo (into 5200)) = some (-1) ∧
      (judged 1).verdicts.lookup "late" = some (into 4310) ∧
      -1 < periodOf (into 4310) periodEpoch := by
  have hrun : Run step (Prompt true) init (handedAfter 1) (handed 1) :=
    .of_permitted (by decide +kernel)
  have hlater : Run step (Prompt true) ((handed 1).step asked) audited
      (judged 1) :=
    .of_permitted (by decide +kernel)
  have hclosed : (handed 1).closes periodEpoch asked.now
      (.upTo (into 5200)) = some (-1) := by decide +kernel
  have hverdict : (judged 1).verdicts.lookup "late" = some (into 4310) := by
    decide +kernel
  have hreceived : (judged 1).received "late" = some (into 4310) := by
    decide +kernel
  have h := closed_gains_nothing hrun (by decide +kernel) hclosed hlater
    (by decide +kernel) hverdict hreceived
  exact ⟨hclosed, hverdict, h.2.resolve_right (not_unread (by decide +kernel))⟩

/-- A feed that was cut off for 889 seconds hands the submission over with
everything else and is sound again at once. Until the record is read, its
hand-over less the slack stands for its receipt: the period it was
received in is declared closed, and its verdict comes after. -/
theorem fed_late_gains :
    Run step (Assumed true) init (handedAfter 889) (handed 889) ∧
      (handed 889).Assumed true asked ∧
      (handed 889).closes periodEpoch asked.now (.upTo (into 5200)) = some 0 ∧
      Run step (Assumed true) ((handed 889).step asked) audited (judged 889) ∧
      (handed 889).verdicts.lookup "late" = none ∧
      (judged 889).verdicts.lookup "late" = some (into 4310) ∧
      (judged 889).received "late" = some (into 4310) ∧
      periodOf (into 4310) periodEpoch = 0 ∧
      ¬ (handed 889).Unread asked.now "late" := by
  refine ⟨?_, by decide +kernel, by decide +kernel, ?_, by decide +kernel,
    by decide +kernel, by decide +kernel, by decide +kernel,
    not_unread (by decide +kernel)⟩
  · exact .of_permitted (by decide +kernel)
  · exact .of_permitted (by decide +kernel)

end World

end Reliquary.Audit.Horizon
