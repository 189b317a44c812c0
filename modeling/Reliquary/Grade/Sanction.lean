/-
The grader's tasks over the dispatcher (`validator/corpus_grading.py`,
`grade_one`, `_decide_replay`, `_confirmed_failure`, `_settle_regrade`), and
what a sanction rests on.

# What is modeled how

- A task is what `grade_one` holds between two awaits: the decision it waits
  for, the void read, the escalation, the writes. Each await's end is one
  event; a task may fail or be cancelled at any of them (`fail`).
- A submission's record names its hotkey and is created once.
- The draw is an input; a draw that is not out yet leaves its task waiting.
- `escalated` is the history of the miner states the grader escalated.

# Results

`World.judged_by_two`: in every run that keeps the promise of Calls.lean.
`World.lone_outvoter` is a run without it: a box failure's withdrawal leaves
two votes on an undrawn grade item, and one provider outvotes another.
-/
import Reliquary.Grade.Calls
import Reliquary.Grade.Document

namespace Reliquary.Grade

open Store

-- ===== tasks

/-- Where a task waits. `next` is the document it writes afterwards. -/
inductive Stage
  | grading (work : Nat)
  | drawing (graded : Decision)
  | replaying (graded : Decision) (work : Nat)
  | confirming (replay : Replay) (next : Option Document)
  | voiding (void : Voided) (next : Option Document)
  | writing (document : Document)
  /-- `_settle_regrade`: the latest document was read, its void not yet. -/
  | settling (latest : Document)
deriving DecidableEq, Repr

structure Task where
  submissionId : String
  hotkey : String
  /-- A regrade's generation and whom it is for. -/
  regrade : Option (Nat × List String)
  observed : List Bool
  stage : Stage
deriving DecidableEq, Repr

structure World where
  dispatcher : Dispatcher
  /-- Each submission's hotkey, from its record. -/
  records : List (String × String)
  docs : Documents
  tasks : List (Nat × Task)
  nextTask : Nat
  /-- The miners escalated, for which submission. -/
  escalated : List (String × String)
deriving DecidableEq

inductive WorldEvent
  | dispatch (a : Timed)
  | record (submissionId hotkey : String)
  | start (submissionId : String) (regrade : Option (Nat × List String))
      (observed : List Bool)
  /-- Its audit failed, or it no longer parses. -/
  | refuse (submissionId : String) (regrade : Option (Nat × List String))
      (status : DocumentStatus)
  | settle (submissionId : String)
  | graded (task : Nat)
  | draw (task : Nat) (drawn : Bool)
  | replayed (task : Nat)
  | escalate (task : Nat)
  | void (task : Nat)
  | write (task : Nat)
  | readVoid (task : Nat)
  | fail (task : Nat)
deriving DecidableEq, Repr

/-- Only an ok decision is a grade. -/
def gradedSuccess (graded : Decision) : Bool :=
  graded.status = .ok && graded.result.any fun a => a.testsPassed = some true

/-- The document of a decided grade. -/
def Task.document (t : Task) (graded : Decision) (replay : Option Replay) :
    Document :=
  { hotkey := t.hotkey
    status := .decided graded.status
    gradedBy := graded.gradedBy
    replay := replay }

/-- After the replay: a void without sanction for what no box could judge,
then the document. -/
def Task.conclude (t : Task) (graded : Decision) (replay : Option Replay) :
    Stage :=
  let document := t.document graded replay
  if replay.any (·.failed) then .writing document
  else if replay.any (·.unjudgeable) then
    .voiding ⟨t.hotkey, .replayUnjudgeable, (replay.map (·.gradedBy)).getD [],
      (replay.map (·.providers)).getD []⟩ (some document)
  else if graded.status = .unjudgeable ∧ agreed graded then
    .voiding ⟨t.hotkey, .replayUnjudgeable, graded.gradedBy, graded.providers⟩
      (some document)
  else .writing document

/-- A failed replay is confirmed before its document is written. -/
def Task.replayed (t : Task) (graded d : Decision) : Stage :=
  let replay := replayDocument d
  if replay.failed then .confirming replay (some (t.document graded replay))
  else t.conclude graded replay

namespace World

def init : World :=
  ⟨.init, [], ⟨[], [], []⟩, [], 0, []⟩

section Step

variable (cfg : GradeConfig) (w : World)

def spawn (t : Task) : World :=
  { w with tasks := put w.nextTask t w.tasks, nextTask := w.nextTask + 1 }

def toStage (n : Nat) (t : Task) (stage : Stage) : World :=
  { w with
    tasks := put n { t with stage := stage } w.tasks }

def finish (n : Nat) : World :=
  { w with tasks := w.tasks.filter fun t => t.1 != n }

/-- `dispatcher.decide`: the number its decision comes under. -/
def decide (item : Item) : World × Nat :=
  ({ w with dispatcher := w.dispatcher.decideItem cfg item },
    w.dispatcher.nextWork)

def decision (work : Nat) : Option Decision :=
  (w.dispatcher.works.lookup work).bind (·.decision)

/-- The draw is known: replay, unless a void already tells its replay. -/
def draw (n : Nat) (t : Task) (graded : Decision) (drawn : Bool) : World :=
  if gradedSuccess graded ∨ graded.status = .disputed ∨ drawn then
    match w.docs.voids.lookup t.submissionId with
    | some ⟨hotkey, .replayFailed, gradedBy, providers⟩ =>
      w.toStage n t (t.conclude graded (some (replayFromVoid
        ⟨hotkey, .replayFailed, gradedBy, providers⟩)))
    | _ =>
      let (w, work) := w.decide cfg ⟨t.submissionId, .replay, t.observed⟩
      w.toStage n t (.replaying graded work)
  else w.toStage n t (t.conclude graded none)

/-- After a void is written. -/
def afterVoid (n : Nat) (t : Task) (next : Option Document) : World :=
  match next with
  | some document => w.toStage n t (.writing document)
  | none => w.finish n

/-- One await of a task ends. -/
def taskStep (e : WorldEvent) (n : Nat) (t : Task) : World :=
  match e, t.stage with
  | .graded _, .grading work =>
    match w.decision work with
    | none => w
    | some graded => w.toStage n t (.drawing graded)
  | .draw _ drawn, .drawing graded => w.draw cfg n t graded drawn
  | .replayed _, .replaying graded work =>
    match w.decision work with
    | none => w
    | some d => w.toStage n t (t.replayed graded d)
  | .escalate _, .confirming replay next =>
    { w with
      escalated := w.escalated ++ [(t.hotkey, t.submissionId)] }.toStage n t
      (.voiding ⟨t.hotkey, .replayFailed, replay.gradedBy, replay.providers⟩
        next)
  | .void _, .voiding void next =>
    { w with
      docs :=
        { w.docs with
          voids := create t.submissionId void w.docs.voids } }.afterVoid n t
      next
  | .write _, .writing document =>
    { w with docs := w.docs.write t.submissionId document t.regrade }.finish n
  | .readVoid _, .settling document =>
    if (w.docs.voids.lookup t.submissionId).isSome then w.finish n
    else
      match document.replay with
      | none => w.finish n
      | some replay =>
        if document.generation.isSome ∧ replay.failed then
          w.toStage n t (.confirming replay none)
        else w.finish n
  | .fail _, _ => w.finish n
  | _, _ => w

def task (e : WorldEvent) (n : Nat) : World :=
  match w.tasks.lookup n with
  | none => w
  | some t => w.taskStep cfg e n t

def step (e : WorldEvent) : World :=
  match e with
  | .dispatch a =>
    { w with dispatcher := w.dispatcher.step cfg a }
  | .record sid hotkey =>
    { w with records := create sid hotkey w.records }
  | .start sid regrade observed =>
    match w.records.lookup sid with
    | none => w
    | some hotkey =>
      let (w, work) := w.decide cfg ⟨sid, .grade, []⟩
      w.spawn ⟨sid, hotkey, regrade, observed, .grading work⟩
  | .refuse sid regrade status =>
    match w.records.lookup sid with
    | none => w
    | some hotkey =>
      w.spawn ⟨sid, hotkey, regrade, [],
        .writing { hotkey := hotkey, status := status }⟩
  | .settle sid =>
    match latest w.docs sid with
    | none => w
    | some document =>
      w.spawn ⟨sid, document.hotkey, none, [], .settling document⟩
  | .graded n | .draw n _ | .replayed n | .escalate n | .void n | .write n
  | .readVoid n | .fail n => w.task cfg e n

end Step

/-- The promise of the dispatcher's calls. -/
def Promised (cfg : GradeConfig) (w : World) : WorldEvent → Prop
  | .dispatch a => Guarded cfg w.dispatcher a
  | _ => True

instance {cfg : GradeConfig} {w : World} :
    (e : WorldEvent) → Decidable (Promised cfg w e)
  | .dispatch a => inferInstanceAs (Decidable (Guarded cfg w.dispatcher a))
  | .record .. | .start .. | .refuse .. | .settle _ | .graded _ | .draw ..
  | .replayed _ | .escalate _ | .void _ | .write _ | .readVoid _
  | .fail _ => isTrue trivial

end World

open World

-- ===== evidence

/-- An agreed replay of the miner's submission that does not certify it. -/
def FailedReplay (w : World) (hotkey sid : String) : Prop :=
  w.records.lookup sid = some hotkey ∧
    ∃ i work d, w.dispatcher.works.lookup i = some work ∧
      work.item.submissionId = sid ∧ work.item.mode = .replay ∧
      work.decision = some d ∧ d.status = .ok ∧ agreed d = true ∧
      ∃ r, d.result = some r ∧ replayCertified r = false

theorem failed_replayDocument {d : Decision}
    (h : (replayDocument d).failed = true) : d.status = .ok ∧ agreed d = true ∧
      ∀ r, d.result = some r → replayCertified r = false := by
  simp only [replayDocument, Bool.and_eq_true, decide_eq_true_eq,
    Bool.not_eq_true', Bool.and_eq_false_iff] at h
  obtain ⟨⟨hok, hcert⟩, hagreed⟩ := h
  refine ⟨hok, hagreed, ?_⟩
  intro r hr
  rcases hcert with hf | hf
  · simp [hok] at hf
  · simpa [hr] using hf

/-- What a document claims about its replay is backed. -/
structure DocOk (w : World) (sid : String) (document : Document) : Prop where
  record : w.records.lookup sid = some document.hotkey
  failed : ∀ r, document.replay = some r → r.failed = true →
    FailedReplay w document.hotkey sid

def StageOk (w : World) (t : Task) : Stage → Prop
  | .grading _ => True
  | .drawing _ => True
  | .replaying _ i => ∃ work, w.dispatcher.works.lookup i = some work ∧
      work.item.submissionId = t.submissionId ∧ work.item.mode = .replay
  | .confirming _ next => FailedReplay w t.hotkey t.submissionId ∧
      ∀ d, next = some d → DocOk w t.submissionId d
  | .voiding void next => (void.reason = .replayFailed →
      FailedReplay w t.hotkey t.submissionId) ∧
      ∀ d, next = some d → DocOk w t.submissionId d
  | .writing document => DocOk w t.submissionId document
  | .settling document => DocOk w t.submissionId document

structure TaskOk (w : World) (t : Task) : Prop where
  record : w.records.lookup t.submissionId = some t.hotkey
  stage : StageOk w t t.stage

structure DocsOk (w : World) (docs : Documents) : Prop where
  grades : ∀ sid d, docs.grades.lookup sid = some d → DocOk w sid d
  regrades : ∀ sid g d, docs.regrades.lookup (sid, g) = some d → DocOk w sid d
  voids : ∀ sid v, docs.voids.lookup sid = some v →
    v.reason = .replayFailed → ∃ hotkey, FailedReplay w hotkey sid

/-- What holds of the world, since the dispatcher was `b`. -/
structure World.Ok (cfg : GradeConfig) (b : Dispatcher) (w : World) :
    Prop where
  steady : Steady cfg b w.dispatcher
  tasks : ∀ x ∈ w.tasks, TaskOk w x.2
  docs : DocsOk w w.docs
  escalated : ∀ x ∈ w.escalated, FailedReplay w x.1 x.2

-- ===== what later states still show

/-- Records and items of the first are those of the second. -/
structure Extends (w w' : World) : Prop where
  records : ∀ sid hotkey, w.records.lookup sid = some hotkey →
    w'.records.lookup sid = some hotkey
  works : Onward w.dispatcher w'.dispatcher

section Extends

variable {cfg : GradeConfig} {b : Dispatcher} {w w' : World}
  {sid hotkey : String} {t : Task}

theorem FailedReplay.mono (h : FailedReplay w hotkey sid) (hx : Extends w w') :
    FailedReplay w' hotkey sid := by
  obtain ⟨hr, i, work, d, hl, hs, hm, hd, hrest⟩ := h
  obtain ⟨work', hl', hitem, hdec⟩ := hx.works i work hl
  refine ⟨hx.records _ _ hr, i, work', d, hl', ?_, ?_, hdec d hd, hrest⟩
  · rw [hitem]
    exact hs
  · rw [hitem]
    exact hm

theorem DocOk.mono {d : Document} (h : DocOk w sid d) (hx : Extends w w') :
    DocOk w' sid d :=
  ⟨hx.records _ _ h.record, fun r hr hf => (h.failed r hr hf).mono hx⟩

theorem StageOk.mono {stage : Stage} (h : StageOk w t stage)
    (hx : Extends w w') : StageOk w' t stage := by
  cases stage with
  | grading i => trivial
  | drawing graded => trivial
  | replaying graded i =>
    obtain ⟨work, hl, hs, hm⟩ := h
    obtain ⟨work', hl', hitem, -⟩ := hx.works i work hl
    exact ⟨work', hl', by rw [hitem]; exact hs, by rw [hitem]; exact hm⟩
  | confirming replay next =>
    exact ⟨h.1.mono hx, fun d hd => (h.2 d hd).mono hx⟩
  | voiding void next =>
    exact ⟨fun hv => (h.1 hv).mono hx, fun d hd => (h.2 d hd).mono hx⟩
  | writing document => exact DocOk.mono h hx
  | settling document => exact DocOk.mono h hx

theorem TaskOk.mono (h : TaskOk w t) (hx : Extends w w') : TaskOk w' t :=
  ⟨hx.records _ _ h.record, h.stage.mono hx⟩

theorem DocsOk.mono {docs : Documents} (h : DocsOk w docs)
    (hx : Extends w w') : DocsOk w' docs := by
  refine ⟨fun sid d hd => (h.grades sid d hd).mono hx,
    fun sid g d hd => (h.regrades sid g d hd).mono hx, ?_⟩
  intro sid v hv hr
  obtain ⟨hotkey, hf⟩ := h.voids sid v hv hr
  exact ⟨hotkey, hf.mono hx⟩

/-- A step that changes records, items or tasks only. -/
theorem World.Ok.extend (h : World.Ok cfg b w) (hx : Extends w w')
    (hsteady : Steady cfg b w'.dispatcher)
    (htasks : ∀ x ∈ w'.tasks, x ∈ w.tasks ∨ TaskOk w' x.2)
    (hdocs : DocsOk w' w'.docs)
    (hesc : ∀ x ∈ w'.escalated, x ∈ w.escalated ∨ FailedReplay w' x.1 x.2) :
    World.Ok cfg b w' := by
  refine ⟨hsteady, ?_, hdocs, ?_⟩
  · intro x hm
    rcases htasks x hm with hm | hok
    · exact (h.tasks x hm).mono hx
    · exact hok
  · intro x hm
    rcases hesc x hm with hm | hok
    · exact (h.escalated x hm).mono hx
    · exact hok

end Extends

-- ===== steps

namespace World

variable {cfg : GradeConfig} {b : Dispatcher} {w : World} {n : Nat} {t : Task}
  {e : WorldEvent} {graded : Decision} {docs : Documents}

/-- The item asked for stands under the number given. -/
theorem decide_lookup (w : World) (cfg : GradeConfig) (item : Item) :
    ∃ work, (w.decide cfg item).1.dispatcher.works.lookup
      (w.decide cfg item).2 = some work ∧ work.item = item := by
  refine ⟨{ item := item, decision := if cfg.leasable item then none
    else some ⟨.ungradeable, none, [], []⟩ }, ?_, rfl⟩
  simp [decide, Dispatcher.decideItem]

theorem docOk_plain (hr : w.records.lookup t.submissionId = some t.hotkey)
    {replay : Option Replay} (hf : ∀ r, replay = some r → r.failed = true →
      FailedReplay w t.hotkey t.submissionId) :
    DocOk w t.submissionId (t.document graded replay) :=
  ⟨hr, hf⟩

theorem stageOk_conclude (hr : w.records.lookup t.submissionId = some t.hotkey)
    {replay : Option Replay} (hf : ∀ r, replay = some r → r.failed = true →
      FailedReplay w t.hotkey t.submissionId) :
    StageOk w t (t.conclude graded replay) := by
  have hdoc : DocOk w t.submissionId (t.document graded replay) :=
    docOk_plain hr hf
  have hvoid : ∀ gradedBy providers, StageOk w t (.voiding
      ⟨t.hotkey, .replayUnjudgeable, gradedBy, providers⟩
      (some (t.document graded replay))) := by
    intro gradedBy providers
    refine ⟨nofun, ?_⟩
    intro d hd
    cases hd
    exact hdoc
  unfold Task.conclude
  split
  · exact hdoc
  · split
    · exact hvoid _ _
    · split
      · exact hvoid _ _
      · exact hdoc

theorem DocsOk.write {sid : String} {document : Document}
    {regrade : Option (Nat × List String)} (h : DocsOk w docs)
    (hd : DocOk w sid document) :
    DocsOk w (docs.write sid document regrade) := by
  unfold Documents.write
  split
  · refine ⟨?_, h.regrades, h.voids⟩
    intro sid' d hl
    rcases lookup_create hl with ⟨rfl, rfl⟩ | hl
    · exact hd
    · exact h.grades sid' d hl
  · refine ⟨h.grades, ?_, h.voids⟩
    intro sid' g d hl
    rcases lookup_create hl with ⟨heq, rfl⟩ | hl
    · cases heq
      exact ⟨hd.record, hd.failed⟩
    · exact h.regrades sid' g d hl

theorem DocsOk.void {sid : String} {v : Voided} (h : DocsOk w docs)
    (hv : v.reason = .replayFailed → ∃ hotkey, FailedReplay w hotkey sid) :
    DocsOk w { docs with voids := create sid v docs.voids } := by
  refine ⟨h.grades, h.regrades, ?_⟩
  intro sid' v' hl hr
  rcases lookup_create hl with ⟨rfl, rfl⟩ | hl
  · exact hv hr
  · exact h.voids sid' v' hl hr

section Kept

variable (h : Ok cfg b w)
include h

theorem Ok.spawn (ht : TaskOk w t) : Ok cfg b (w.spawn t) := by
  have hx : Extends w (w.spawn t) := ⟨fun _ _ hr => hr, Onward.refl _⟩
  refine h.extend hx h.steady ?_ (h.docs.mono hx) fun x hm => .inl hm
  intro x hm
  rcases mem_put hm with rfl | hm
  · exact .inr (ht.mono hx)
  · exact .inl hm

theorem Ok.toStage {stage : Stage}
    (hr : w.records.lookup t.submissionId = some t.hotkey)
    (hs : StageOk w t stage) : Ok cfg b (w.toStage n t stage) := by
  have hx : Extends w (w.toStage n t stage) :=
    ⟨fun _ _ hr => hr, Onward.refl _⟩
  refine h.extend hx h.steady ?_ (h.docs.mono hx) fun x hm => .inl hm
  intro x hm
  rcases mem_put hm with rfl | hm
  · refine .inr ⟨hr, ?_⟩
    have hmono := hs.mono hx
    cases stage <;> exact hmono
  · exact .inl hm

theorem Ok.finish : Ok cfg b (w.finish n) := by
  have hx : Extends w (w.finish n) := ⟨fun _ _ hr => hr, Onward.refl _⟩
  refine h.extend hx h.steady ?_ (h.docs.mono hx) fun x hm => .inl hm
  exact fun x hm => .inl (List.mem_filter.1 hm).1

/-- The documents grow by one that is backed. -/
theorem Ok.withDocs (hd : DocsOk w docs) :
    Ok cfg b { w with docs := docs } := by
  have hx : Extends w { w with docs := docs } :=
    ⟨fun _ _ hr => hr, Onward.refl _⟩
  exact h.extend hx h.steady (fun x hm => .inl hm) (hd.mono hx)
    fun x hm => .inl hm

/-- The same from here on. -/
theorem Ok.rebase : Ok cfg w.dispatcher w :=
  { h with steady := { h.steady with onward := Onward.refl _ } }

theorem Extends.decide {item : Item} : Extends w (w.decide cfg item).1 :=
  ⟨fun _ _ hr => hr, h.rebase.steady.decideItem.onward⟩

theorem Ok.decide {item : Item} : Ok cfg b (w.decide cfg item).1 := by
  have hx : Extends w (w.decide cfg item).1 := Extends.decide h
  exact h.extend hx h.steady.decideItem (fun x hm => .inl hm)
    (h.docs.mono hx) fun x hm => .inl hm

/-- The draw is known. -/
theorem Ok.draw {drawn : Bool}
    (ht : TaskOk w t) : Ok cfg b (w.draw cfg n t graded drawn) := by
  unfold World.draw
  split
  · split
    · rename_i hotkey gradedBy providers hv
      apply h.toStage ht.record
      apply stageOk_conclude ht.record
      intro r hr hf
      obtain ⟨hotkey', hrec, hrest⟩ := h.docs.voids _ _ hv rfl
      rw [ht.record] at hrec
      cases hrec
      exact ⟨ht.record, hrest⟩
    · obtain ⟨work, hl, hitem⟩ := w.decide_lookup cfg
        ⟨t.submissionId, .replay, t.observed⟩
      refine h.decide.toStage ht.record ⟨work, hl, ?_, ?_⟩
      · rw [hitem]
      · rw [hitem]
  · apply h.toStage ht.record
    apply stageOk_conclude ht.record
    exact nofun

/-- The replay is decided: a failed one is agreed. -/
theorem stageOk_replayed {graded d : Decision} {i : Nat} {work : Work}
    (hr : w.records.lookup t.submissionId = some t.hotkey)
    (hl : w.dispatcher.works.lookup i = some work)
    (hs : work.item.submissionId = t.submissionId)
    (hm : work.item.mode = .replay) (hd : work.decision = some d) :
    StageOk w t (t.replayed graded d) := by
  have hfailed : ∀ r, some (replayDocument d) = some r → r.failed = true →
      FailedReplay w t.hotkey t.submissionId := by
    intro r heq hf
    cases heq
    obtain ⟨hok, hagreed, hcert⟩ := failed_replayDocument hf
    obtain ⟨r, hres⟩ := ((h.steady.sound i work hl).decided d hd).shown hok
    exact ⟨hr, i, work, d, hl, hs, hm, hd, hok, hagreed, r, hres, hcert r hres⟩
  unfold Task.replayed
  dsimp only
  split
  · rename_i hf
    refine ⟨hfailed _ rfl hf, ?_⟩
    intro doc hdoc
    cases hdoc
    exact docOk_plain hr hfailed
  · exact stageOk_conclude hr hfailed

/-- One await of a task ends. -/
theorem Ok.taskStep (ht : TaskOk w t) : Ok cfg b (w.taskStep cfg e n t) := by
  have hstage := ht.stage
  unfold World.taskStep
  split
  · split
    · exact h
    · exact h.toStage ht.record trivial
  · exact h.draw ht
  · rename_i hst
    rw [hst] at hstage
    obtain ⟨work, hl, hs, hm⟩ := hstage
    split
    · exact h
    · rename_i d hd
      rw [decision, hl] at hd
      exact h.toStage ht.record (stageOk_replayed h ht.record hl hs hm hd)
  · rename_i replay next hst
    rw [hst] at hstage
    have hx : Extends w
        { w with escalated := w.escalated ++ [(t.hotkey, t.submissionId)] } :=
      ⟨fun _ _ hr => hr, Onward.refl _⟩
    have hesc : Ok cfg b
        { w with
          escalated := w.escalated ++ [(t.hotkey, t.submissionId)] } := by
      refine h.extend hx h.steady (fun x hm => .inl hm) (h.docs.mono hx) ?_
      intro x hm
      rcases mem_snoc.1 hm with hm | rfl
      · exact .inl hm
      · exact .inr (hstage.1.mono hx)
    refine hesc.toStage ht.record ⟨fun _ => hstage.1.mono hx, ?_⟩
    exact fun d hd => (hstage.2 d hd).mono hx
  · rename_i void next hst
    rw [hst] at hstage
    have hdocs : Ok cfg b
        { w with
          docs :=
            { w.docs with
              voids := create t.submissionId void w.docs.voids } } :=
      h.withDocs (DocsOk.void h.docs fun hv => ⟨_, hstage.1 hv⟩)
    unfold afterVoid
    split
    · rename_i document
      refine hdocs.toStage ht.record ?_
      exact (hstage.2 document rfl).mono ⟨fun _ _ hr => hr, Onward.refl _⟩
    · exact hdocs.finish
  · rename_i document hst
    rw [hst] at hstage
    exact (h.withDocs (DocsOk.write h.docs hstage)).finish
  · rename_i document hst
    rw [hst] at hstage
    split
    · exact h.finish
    · split
      · exact h.finish
      · rename_i replay hreplay
        split
        · rename_i hf
          refine h.toStage ht.record ⟨?_, nofun⟩
          have hfr := hstage.failed replay hreplay hf.2
          have hrec := hstage.record
          rw [ht.record] at hrec
          rw [Option.some.inj hrec]
          exact hfr
        · exact h.finish
  · exact h.finish
  · exact h

theorem Ok.task : Ok cfg b (w.task cfg e n) := by
  unfold World.task
  cases hl : w.tasks.lookup n with
  | none => exact h
  | some t => exact h.taskStep (h.tasks _ (mem_of_lookup hl))

theorem Ok.step (hp : Promised cfg w e) : Ok cfg b (w.step cfg e) := by
  cases e with
  | dispatch a =>
    have hx : Extends w (w.step cfg (.dispatch a)) :=
      ⟨fun _ _ hr => hr, (h.rebase.steady.step hp).onward⟩
    exact h.extend hx (h.steady.step hp) (fun x hm => .inl hm)
      (h.docs.mono hx) fun x hm => .inl hm
  | record sid hotkey =>
    have hx : Extends w (w.step cfg (.record sid hotkey)) :=
      ⟨fun _ _ hr => lookup_create_of hr, Onward.refl _⟩
    exact h.extend hx h.steady (fun x hm => .inl hm) (h.docs.mono hx)
      fun x hm => .inl hm
  | start sid regrade observed =>
    simp only [step]
    split
    · exact h
    · rename_i hotkey hr
      exact h.decide.spawn ⟨hr, trivial⟩
  | refuse sid regrade status =>
    simp only [step]
    split
    · exact h
    · rename_i hotkey hr
      exact h.spawn ⟨hr, hr, nofun⟩
  | settle sid =>
    simp only [step]
    split
    · exact h
    · rename_i document hl
      have hdoc : DocOk w sid document := by
        rcases latest_stored hl with hg | ⟨g, hg⟩
        · exact h.docs.grades sid document hg
        · exact h.docs.regrades sid g document hg
      exact h.spawn ⟨hdoc.record, hdoc⟩
  | graded n => exact h.task
  | draw n drawn => exact h.task
  | replayed n => exact h.task
  | escalate n => exact h.task
  | void n => exact h.task
  | write n => exact h.task
  | readVoid n => exact h.task
  | fail n => exact h.task

end Kept

theorem init_ok : Ok cfg init.dispatcher init := by
  refine ⟨init_steady, ?_, ⟨?_, ?_, ?_⟩, ?_⟩
  · intro x hx
    cases hx
  · intro sid d h
    cases h
  · intro sid g d h
    cases h
  · intro sid v h
    cases h
  · intro x hx
    cases hx

-- ===== runs

/-- A run from a sound state ends in one. -/
theorem Ok.run {as : List WorldEvent} {w' : World} (h : Ok cfg b w)
    (hrun : Run (World.step cfg) (Promised cfg) w as w') : Ok cfg b w' :=
  hrun.invariant (I := Ok cfg b) h fun _ _ hp hs => hs.step hp

/-- **No one is judged by fewer than two providers**, in every run whose
calls keep the promise: an executor and a provider vote once on an item; a
decision against a miner is backed by agreeing votes of two providers, and
counts no voter quarantined before; an executor quarantined for its vote was
outvoted by standing executors of two providers; a decision stays; and a
miner is escalated only on an agreed replay that fails its submission. -/
theorem judged_by_two {as : List WorldEvent}
    (h : Run (step cfg) (Promised cfg) init as w) :
    (w.dispatcher.votes.map fun v => (v.work, v.executor)).Nodup ∧
    (w.dispatcher.votes.map fun v => (v.work, v.provider)).Nodup ∧
    (∀ i work d, w.dispatcher.works.lookup i = some work →
      work.decision = some d → Decided cfg work d) ∧
    (∀ x ∈ w.dispatcher.expulsions, ∃ work,
      w.dispatcher.works.lookup x.work = some work ∧ Outvoted cfg work x) ∧
    (∀ bs w', Run (step cfg) (Promised cfg) w bs w' →
      ∀ i work d, w.dispatcher.works.lookup i = some work →
        work.decision = some d →
          ∃ work', w'.dispatcher.works.lookup i = some work' ∧
            work'.item = work.item ∧ work'.decision = some d) ∧
    (∀ x ∈ w.escalated, FailedReplay w x.1 x.2) := by
  have hok := init_ok.run h
  have hs := hok.steady
  refine ⟨hs.once.executor, hs.once.provider, ?_, hs.outvoted, ?_,
    hok.escalated⟩
  · exact fun i work d hl hd => (hs.sound i work hl).decided d hd
  · intro bs w' hrun i work d hl hd
    obtain ⟨work', hl', hitem, hdec⟩ :=
      (hok.rebase.run hrun).steady.onward i work hl
    exact ⟨work', hl', hitem, hdec d hd⟩

/-- Four executors of three providers, leases of an hour. -/
def threeProviders : GradeConfig :=
  { executors := ["a", "b", "c", "d"]
    provider := fun e => some (if e = "d" then "of a" else "of " ++ e)
    authorized := fun _ => true
    pinned := fun _ => true
    leasable := fun _ => true
    leaseSeconds := fun _ => 3600
    disputeSeconds := 1800
    claimLiveSeconds := 260
    retryExcludedSeconds := 600
    reportGraceSeconds := 60
    liveSeconds := 90
    benchSeconds := 1800
    maxLeases := 8
    strikesLimit := 3 }

def gradeAnswer (testsPassed : Bool) : Answer :=
  { status := .ok
    submissionId := some "s"
    diffApplied := some true
    testsPassed := some testsPassed }

def failedReplayAnswer : Answer :=
  { status := .ok
    submissionId := some "s"
    replayDiffEqual := some false }

def lostAnswer : Answer :=
  { status := .boxLost
    submissionId := some "s" }

/-- A submission passes its grade and fails its replay, twice. -/
def failedReplayRun : List WorldEvent :=
  [.record "s" "m", .start "s" none [], .dispatch ⟨0, .claim "a"⟩,
    .dispatch ⟨1, .result "a" 0 (gradeAnswer true) false⟩,
    .graded 0, .draw 0 false,
    .dispatch ⟨2, .claim "a"⟩,
    .dispatch ⟨3, .result "a" 1 failedReplayAnswer false⟩,
    .dispatch ⟨4, .claim "b"⟩,
    .dispatch ⟨5, .result "b" 2 failedReplayAnswer false⟩,
    .replayed 0, .escalate 0, .void 0, .write 0]

theorem judged_by_two_failed :
    ("m", "s") ∈ (failedReplayRun.foldl (step threeProviders)
        init).escalated ∧
      FailedReplay (failedReplayRun.foldl (step threeProviders)
        init) "m" "s" := by
  have hmem : ("m", "s") ∈ (failedReplayRun.foldl
      (step threeProviders) init).escalated := by
    decide +kernel
  refine ⟨hmem, ?_⟩
  have hrun : Run (step threeProviders) (Promised threeProviders)
      init failedReplayRun (failedReplayRun.foldl
        (step threeProviders) init) :=
    Run.of_permitted (by decide +kernel)
  exact (judged_by_two hrun).2.2.2.2.2 _ hmem

/-- A box failure is taken back while the third vote is out: of two votes
over facts one decides, and quarantines the other. -/
def withdrawnRun : List WorldEvent :=
  [.record "s" "m", .start "s" none [], .dispatch ⟨0, .claim "a"⟩,
    .dispatch ⟨1, .result "a" 0 lostAnswer false⟩,
    .dispatch ⟨2, .claim "b"⟩,
    .dispatch ⟨3, .result "b" 1 (gradeAnswer false) false⟩,
    .dispatch ⟨4, .claim "c"⟩,
    .dispatch ⟨5, .quarantine "a"⟩,
    .dispatch ⟨6, .result "c" 2 (gradeAnswer true) false⟩]

/-- The provider of a withdrawn vote votes again. -/
def votesAgainRun : List WorldEvent :=
  [.record "s" "m", .start "s" none [], .dispatch ⟨0, .claim "a"⟩,
    .dispatch ⟨1, .result "a" 0 lostAnswer false⟩,
    .dispatch ⟨2, .quarantine "a"⟩,
    .dispatch ⟨3, .claim "d"⟩,
    .dispatch ⟨4, .result "d" 1 (gradeAnswer true) false⟩]

/-- One provider's vote quarantines another's executor; and a provider votes
twice on an item. -/
theorem lone_outvoter :
    (∃ x ∈ (withdrawnRun.foldl (step threeProviders)
        init).dispatcher.expulsions,
      x.executor = "c" ∧ x.agreeing = ["b"] ∧
        (x.agreeing.filterMap threeProviders.provider).toFinset.card < 2) ∧
    ¬ ((votesAgainRun.foldl (step threeProviders)
        init).dispatcher.votes.map
          fun v => (v.work, v.provider)).Nodup := by
  decide +kernel

end World

end Reliquary.Grade
