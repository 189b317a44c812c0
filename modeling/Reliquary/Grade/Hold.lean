/-
Nothing a quarantined executor decided alone is payable: the invariant of
the grader's sets over every run.

# The invariant

For a graded submission that is not being regraded, with its latest document
and an executor that decided a part of it alone:

- `payable`: if the executor is quarantined, the submission is voided, or it
  is an old grade still unindexed and the executor is held;
- `known`: if it is not, and the grade is indexed, the pair is in `sole`.

A regrade keeps `regrading` until its own release, and its document is
indexed before that; an executor's indexing (`TaskOk`) reads every grade that
is still unindexed, so its end moves each of them from the first rule to the
second — unless it was another held executor that decided it alone.

# What a run promises

`Careful`: no second listing of the boot's grades comes back, a grade is
written where nothing is stored, and an indexing ends only while no other
held executor has a lone decision among the unindexed grades.
`two_indexings` is a run that breaks the last.
-/
import Reliquary.Grade.Regrade

namespace Reliquary.Grade.Hold

open Store Finset Option Grader

namespace Grader

-- ===== the promise

/-- What each step asks of the state it is taken in. -/
def Careful (g : Grader) : Event → Prop
  | .enqueue sid _ => latest g.docs sid = none
  | .land sid => latest g.docs sid = none
  | .seedApply => g.seeded = false
  | .indexDone n => ∀ t, g.indexing.lookup n = some t →
      ∀ sid ∈ g.unindexed, ∀ d, latest g.docs sid = some d →
        ∀ e ∈ lones d, e ∈ g.held → e = t.executor
  | _ => True

instance {g : Grader} : (e : Event) → Decidable (Careful g e)
  | .enqueue .. | .land _ => inferInstanceAs (Decidable (_ = none))
  | .seedApply => inferInstanceAs (Decidable (_ = false))
  | .indexDone _ => inferInstanceAs (Decidable (∀ t, _ = some t →
      ∀ sid ∈ _, ∀ d, _ = some d → ∀ e ∈ _, _ → _))
  | .record .. | .start _ | .readRecord _ | .awaitDraw .. | .decide ..
  | .back _ | .failGrade _ | .seedRead | .seedFail | .quarantine _
  | .startExecutor _ | .index _ | .indexRead .. | .failExecutor _ | .retry _
  | .readLatest _ | .check _ | .decideRegrade .. | .landRegrade _
  | .backRegrade _ | .void _ | .failRegrade _ | .rescan .. | .observe _ =>
    isTrue trivial

-- ===== the invariant

/-- Something is stored for the submission. -/
def Has (docs : Documents) (sid : String) : Prop := latest docs sid ≠ none

/-- A regrade of it is stored and its answer is not back. -/
def Landed (regrades : List (String × RegradeStage)) (sid : String) : Prop :=
  ∃ d left, regrades.lookup sid = some (.landed d left)

/-- The lone deciders of its latest document that stand are in `found`. -/
def Known (g : Grader) (found : Finset (String × String)) (sid : String) :
    Prop :=
  ¬ Landed g.regrades sid → ∀ d, latest g.docs sid = some d →
    ∀ e ∈ lones d, e ∉ g.quarantined → (e, sid) ∈ found

def StageOk (docs : Documents) (sid : String) : RegradeStage → Prop
  | .reading _ => True
  | .read read _ => read = latest docs sid
  | .grading generation _ _ => ∃ n, generation = n + 1 ∧
      n + 1 ≤ maxRegradeGenerations ∧ Chain docs sid n
  | .writing _ generation _ _ => ∃ n, generation = n + 1 ∧
      n + 1 ≤ maxRegradeGenerations ∧ Chain docs sid n
  | .landed d _ => latest docs sid = some d
  | .voiding _ => True

def GradeOk (docs : Documents) (final : Finset String) (sid : String) :
    GradeStage → Prop
  | .writing d => d.generation = none
  | .landed d => Has docs sid ∧ (sid ∉ final → latest docs sid = some d)
  | _ => True

/-- An indexing under way: it covers the unindexed, and what it has read of
them it has found, its own executor's decisions included. -/
structure Indexed (g : Grader) (executor : String)
    (pending left : Finset String) (found : Finset (String × String)) :
    Prop where
  seeded : g.seeded = true
  covers : g.unindexed ⊆ pending
  reads : ∀ sid ∈ left, sid ∈ g.final
  stored : ∀ x ∈ found, x.2 ∈ g.final
  known : ∀ sid ∈ g.unindexed, sid ∉ left → Known g (found ∪ g.sole) sid
  own : ∀ sid ∈ g.unindexed, sid ∉ left → sid ∉ g.regrading →
    g.voided sid = false → ∀ d, latest g.docs sid = some d →
      executor ∈ lones d → (executor, sid) ∈ found ∪ g.sole

def TaskOk (g : Grader) (t : IndexTask) : Prop :=
  t.executor ∈ g.quarantined ∧ ∀ pending left found,
    t.stage = .indexing pending left found →
      Indexed g t.executor pending left found

/-- An arrival is bounded by the instant of the enqueue only while nothing is
stored: a grade is written after its record was read, and reading it learns
the arrival. -/
structure Arrivals (docs : Documents)
    (received arrival enqueuedAt : List (String × ℚ))
    (grades : List (String × GradeStage)) : Prop where
  known : ∀ sid a, arrival.lookup sid = some a → received.lookup sid = some a
  queued : ∀ sid q, enqueuedAt.lookup sid = some q →
    latest docs sid = none ∧ arrival.lookup sid = none
  learned : ∀ sid stage, grades.lookup sid = some stage → stage ≠ .started →
    latest docs sid = none → arrival.lookup sid ≠ none

structure Inv (g : Grader) : Prop where
  wf : WellFormed g.docs
  payable : ∀ sid ∈ g.final, sid ∉ g.regrading →
    ∀ d, latest g.docs sid = some d → ∀ e ∈ lones d, e ∈ g.quarantined →
      g.voided sid = true ∨ (sid ∈ g.unindexed ∧ e ∈ g.held)
  known : ∀ sid ∈ g.final, sid ∉ g.unindexed → Known g g.sole sid
  final : ∀ sid ∈ g.final, Has g.docs sid
  unindexed : ∀ sid ∈ g.unindexed, sid ∈ g.final
  sole : ∀ x ∈ g.sole, x.2 ∈ g.final
  regrading : ∀ sid ∈ g.regrading, sid ∈ g.final
  listings : ∀ l ∈ g.listings, ∀ sid ∈ l, Has g.docs sid
  regrades : ∀ sid stage, g.regrades.lookup sid = some stage →
    sid ∈ g.regrading ∧ StageOk g.docs sid stage
  retry : ∀ sid ∈ g.regradeRetry, sid ∈ g.regrading
  early : g.seeded = false → ∀ e ∈ g.quarantined, e ∈ g.held
  grades : ∀ sid stage, g.grades.lookup sid = some stage →
    GradeOk g.docs g.final sid stage
  tasks : ∀ n t, g.indexing.lookup n = some t → TaskOk g t
  arrivals : Arrivals g.docs g.received g.arrival g.enqueuedAt g.grades

variable {g : Grader} {sid e : String} {stage : RegradeStage} {ev : Event}
  {docs : Documents} {t : IndexTask} {left : Nat} {n : Nat} {d : Document}

theorem mem_caught :
    e ∈ g.caught d ↔ e ∈ lones d ∧ e ∈ g.quarantined := by
  simp [caught]

theorem caught_nil (h : g.caught d = []) :
    ∀ e ∈ lones d, e ∉ g.quarantined := by
  intro e he hq
  have hmem : e ∈ g.caught d := mem_caught.2 ⟨he, hq⟩
  rw [h] at hmem
  cases hmem

theorem boot_inv {received : List (String × ℚ)}
    (h : WellFormed docs) : Inv (boot docs received) where
  wf := h
  payable _ h := nomatch h
  known _ h := nomatch h
  final _ h := nomatch h
  unindexed _ h := nomatch h
  sole _ h := nomatch h
  regrading _ h := nomatch h
  listings _ h := nomatch h
  regrades _ _ h := nomatch h
  retry _ h := nomatch h
  early _ _ h := nomatch h
  grades _ _ h := nomatch h
  tasks _ _ h := nomatch h
  arrivals :=
    { known := fun _ _ h => nomatch h
      queued := fun _ _ h => nomatch h
      learned := fun _ _ h => nomatch h }

-- ===== the arrivals

section Arrivals

variable {received arrival enqueuedAt : List (String × ℚ)} {a : ℚ}
  {grades : List (String × GradeStage)}
  (h : Arrivals docs received arrival enqueuedAt grades)
include h

theorem Arrivals.learn (hr : received.lookup sid = some a) :
    Arrivals docs received (put sid a arrival)
      (enqueuedAt.filter fun x => x.1 != sid) grades := by
  refine ⟨forall_lookup_put h.known hr, ?_, ?_⟩
  · intro sid' q hl
    obtain ⟨hne, hl⟩ := lookup_remove_some hl
    rw [lookup_put, if_neg hne]
    exact h.queued sid' q hl
  · intro sid' stage hl hst hn
    rw [lookup_put]
    split
    · exact some_ne_none _
    · exact h.learned sid' stage hl hst hn

theorem Arrivals.forget (hhas : Has docs sid) :
    Arrivals docs received (arrival.filter fun x => x.1 != sid)
      (enqueuedAt.filter fun x => x.1 != sid) grades := by
  refine ⟨fun sid' a hl => h.known sid' a (lookup_remove_some hl).2, ?_, ?_⟩
  · intro sid' q hl
    obtain ⟨hne, hl⟩ := lookup_remove_some hl
    rw [lookup_remove_ne hne]
    exact h.queued sid' q hl
  · intro sid' stage hl hst hn
    have hne : sid' ≠ sid := fun heq => hhas (heq ▸ hn)
    rw [lookup_remove_ne hne]
    exact h.learned sid' stage hl hst hn

theorem Arrivals.not_queued (hhas : Has docs sid) :
    enqueuedAt.lookup sid = none := by
  cases hq : enqueuedAt.lookup sid with
  | none => rfl
  | some q => exact absurd (h.queued sid q hq).1 hhas

/-- A submission that is not enqueued gets a document. -/
theorem Arrivals.withDocs {docs' : Documents}
    (hother : ∀ sid', sid' ≠ sid → latest docs' sid' = latest docs sid')
    (hself : Has docs' sid) (hq : enqueuedAt.lookup sid = none) :
    Arrivals docs' received arrival enqueuedAt grades := by
  refine ⟨h.known, ?_, ?_⟩
  · intro sid' q hl
    have hne : sid' ≠ sid := by
      intro heq
      cases hq.symm.trans (heq ▸ hl)
    rw [hother sid' hne]
    exact h.queued sid' q hl
  · intro sid' stage hl hst hn
    have hne : sid' ≠ sid := fun heq => hself (heq ▸ hn)
    exact h.learned sid' stage hl hst ((hother sid' hne).symm.trans hn)

end Arrivals

-- ===== the fields

section Fields

variable (g) (sid : String)

@[simp] theorem forgetArrival_fields :
    (g.forgetArrival sid).docs = g.docs
      ∧ (g.forgetArrival sid).quarantined = g.quarantined
      ∧ (g.forgetArrival sid).sole = g.sole
      ∧ (g.forgetArrival sid).regrading = g.regrading := by
  unfold forgetArrival
  split <;> exact ⟨rfl, rfl, rfl, rfl⟩

@[simp] theorem startRegrade_fields :
    (g.startRegrade sid).docs = g.docs
      ∧ (g.startRegrade sid).quarantined = g.quarantined
      ∧ (g.startRegrade sid).sole = g.sole
      ∧ (g.startRegrade sid).regrading = g.regrading := by
  unfold startRegrade
  split <;> exact ⟨rfl, rfl, rfl, rfl⟩

variable (d : Document)

theorem written_fields : (g.written sid d).docs = g.docs
    ∧ (g.written sid d).quarantined = g.quarantined
    ∧ g.regrading ⊆ (g.written sid d).regrading := by
  unfold written regradeIfQuarantined
  dsimp only
  split <;> simp [index]

/-- The pairs of a document that is indexed. -/
theorem mem_pairs {d : Document} {e : String} (he : e ∈ lones d) :
    (e, sid) ∈ g.sole ∪ ((lones d).map fun e => (e, sid)).toFinset := by
  refine mem_union_right _ ?_
  rw [List.mem_toFinset]
  exact List.mem_map_of_mem he

/-- A written document is indexed. -/
theorem written_sole {g : Grader} {d : Document} {e : String} (he : e ∈ lones d)
    (hq : e ∉ g.quarantined) : (e, sid) ∈ (g.written sid d).sole := by
  unfold written regradeIfQuarantined
  dsimp only
  split
  · simp only [forgetArrival_fields]
    exact mem_pairs g sid he
  · simp only [forgetArrival_fields, startRegrade_fields]
    refine mem_filter.2 ⟨mem_pairs g sid he, ?_⟩
    exact fun hc => hq (mem_caught.1 hc.2).2

end Fields

-- ===== what the invariant does not read

/-- A task is as sound in a state that keeps its indexing. -/
theorem TaskOk.map {g' : Grader} (ht : TaskOk g t)
    (hq : g.quarantined ⊆ g'.quarantined)
    (hi : ∀ pending left found, Indexed g t.executor pending left found →
      Indexed g' t.executor pending left found) : TaskOk g' t :=
  ⟨hq ht.1, fun pending left found hs =>
    hi pending left found (ht.2 pending left found hs)⟩

/-- A grade in flight reads the store and whether it is final. -/
theorem GradeOk.map {docs docs' : Documents} {final final' : Finset String}
    {stage : GradeStage} (h : GradeOk docs final sid stage)
    (hhas : Has docs sid → Has docs' sid)
    (hlatest : ∀ d, stage = .landed d → sid ∉ final' →
      sid ∉ final ∧ latest docs' sid = latest docs sid) :
    GradeOk docs' final' sid stage := by
  cases stage with
  | started => trivial
  | working => trivial
  | writing d => exact h
  | landed d =>
    refine ⟨hhas h.1, fun hf => ?_⟩
    obtain ⟨hold, heq⟩ := hlatest d rfl hf
    exact heq.trans (h.2 hold)

theorem landed_dropped {regrades : List (String × RegradeStage)}
    (hland : ¬ Landed regrades sid) (sid' : String) (h : Landed regrades sid') :
    Landed (regrades.filter fun x => x.1 != sid) sid' := by
  obtain ⟨d, left, hl⟩ := h
  refine ⟨d, left, ?_⟩
  rwa [lookup_remove_ne]
  rintro rfl
  exact hland ⟨d, left, hl⟩

theorem mem_stored (hd : latest g.docs sid = some d) (he : e ∈ lones d) :
    (e, sid) ∈ g.stored sid := by
  unfold stored
  rw [List.mem_toFinset, List.mem_flatMap]
  refine ⟨d, ?_, List.mem_map_of_mem he⟩
  rcases or_eq_some_iff.1 hd with hr | ⟨-, hg⟩
  · simp [hr]
  · simp [hg]

theorem stored_own {x : String × String} (hx : x ∈ g.stored sid) :
    x.2 = sid := by
  unfold stored at hx
  rw [List.mem_toFinset, List.mem_flatMap] at hx
  obtain ⟨d, -, hx⟩ := hx
  obtain ⟨e, -, rfl⟩ := List.mem_map.1 hx
  rfl

/-- A rescan learns arrivals one after another. -/
theorem rescan_keeps {P : Grader → Prop} {listing unreadable : Finset String}
    (hbase : P { g with listed := some (listing \ g.final) })
    (hlearn : ∀ g' sid, P g' → P (g'.learnArrival sid)) :
    P (g.step (.rescan listing unreadable)) := by
  unfold step
  refine List.foldlRecOn _ _ hbase fun g' hg' sid _ => ?_
  split
  · exact hg'
  · exact hlearn g' sid hg'

section Kept

variable (h : Inv g)
include h

/-- The tasks, in a state that keeps every indexing. -/
theorem Inv.tasksIn {g' : Grader} (hq : g.quarantined ⊆ g'.quarantined)
    (hi : ∀ {e pending left found}, Indexed g e pending left found →
      Indexed g' e pending left found) :
    ∀ n t, g.indexing.lookup n = some t → TaskOk g' t :=
  fun n t hl => (h.tasks n t hl).map hq fun _ _ _ => hi

/-- Arrivals, draws and the rescan's listing. -/
theorem Inv.aside {received arrival enqueuedAt unknownSince : List (String × ℚ)}
    {listed : Option (Finset String)}
    {awaitingDraw : List (String × List String)} {nextTask : Nat}
    (ha : Arrivals g.docs received arrival enqueuedAt g.grades) : Inv { g with
      received := received
      arrival := arrival
      enqueuedAt := enqueuedAt
      unknownSince := unknownSince
      listed := listed
      awaitingDraw := awaitingDraw
      nextTask := nextTask } :=
  { h with
    tasks := h.tasksIn subset_rfl fun hi => { hi with }
    arrivals := ha }

theorem Inv.forgetArrival (hhas : Has g.docs sid) :
    Inv (g.forgetArrival sid) := by
  unfold Grader.forgetArrival
  split
  · exact h
  · exact h.aside (h.arrivals.forget hhas)

theorem Inv.learnArrival : Inv (g.learnArrival sid) := by
  unfold Grader.learnArrival
  split
  · exact h
  · rename_i hr
    exact h.aside (h.arrivals.learn hr)

omit h in
theorem learnArrival_known (hr : (g.received.lookup sid).isSome = true) :
    (g.learnArrival sid).arrival.lookup sid ≠ none := by
  obtain ⟨a, ha⟩ := isSome_iff_exists.1 hr
  unfold learnArrival
  rw [ha, lookup_put, if_pos rfl]
  exact some_ne_none _

/-- The tasks of the indexings change. -/
theorem Inv.withTasks {indexing : List (Nat × IndexTask)}
    (ht : ∀ n t, indexing.lookup n = some t →
      g.indexing.lookup n = some t ∨ TaskOk g t) :
    Inv { g with indexing := indexing } := by
  refine { h with tasks := ?_ }
  intro n t hl
  have hok : TaskOk g t := by
    rcases ht n t hl with hl | hok
    · exact h.tasks n t hl
    · exact hok
  exact hok.map subset_rfl fun pending left found hi => { hi with }

theorem Inv.dropTask :
    Inv { g with indexing := g.indexing.filter fun x => x.1 != n } :=
  h.withTasks fun _ _ hl => .inl (lookup_remove_some hl).2

/-- The grades in flight change. -/
theorem Inv.withGrades {grades : List (String × GradeStage)}
    (hg : ∀ sid stage, grades.lookup sid = some stage →
      g.grades.lookup sid = some stage ∨
        GradeOk g.docs g.final sid stage ∧ (stage ≠ .started →
          latest g.docs sid = none → g.arrival.lookup sid ≠ none)) :
    Inv { g with grades := grades } := by
  refine { h with
    grades := ?_, tasks := ?_, arrivals := { h.arrivals with learned := ?_ } }
  · intro sid stage hl
    rcases hg sid stage hl with hl | hok
    · exact h.grades sid stage hl
    · exact hok.1
  · exact h.tasksIn subset_rfl fun hi => { hi with }
  · intro sid stage hl
    rcases hg sid stage hl with hl | hok
    · exact h.arrivals.learned sid stage hl
    · exact hok.2

theorem Inv.toGrade {stage : GradeStage}
    (hok : GradeOk g.docs g.final sid stage) (hst : stage ≠ .started →
      latest g.docs sid = none → g.arrival.lookup sid ≠ none) :
    Inv (g.toGrade sid stage) :=
  h.withGrades (forall_lookup_put (fun _ _ hl => .inl hl) (.inr ⟨hok, hst⟩))

theorem Inv.endGrade : Inv (g.endGrade sid) :=
  h.withGrades fun _ _ hl => .inl (lookup_remove_some hl).2

-- ===== regrades

/-- A regrade moves on: one that leaves the stage `landed` is indexed. -/
theorem Inv.toRegrade
    (hs : sid ∈ g.regrading) (hstage : StageOk g.docs sid stage)
    (hindexed : Landed g.regrades sid → ∀ d, latest g.docs sid = some d →
      ∀ e ∈ lones d, e ∉ g.quarantined → (e, sid) ∈ g.sole) :
    Inv (g.toRegrade sid stage) := by
  have hne : ∀ sid', sid' ≠ sid → ¬ Landed (put sid stage g.regrades) sid' →
      ¬ Landed g.regrades sid' := by
    rintro sid' hne hnl ⟨d, left, hl⟩
    exact hnl ⟨d, left, by rw [lookup_put, if_neg hne, hl]⟩
  have hknown : ∀ found sid', g.sole ⊆ found → Known g found sid' →
      Known (g.toRegrade sid stage) found sid' := by
    intro found sid' hsub hk hnl d hd e he hq
    by_cases hsid : sid' = sid
    · subst hsid
      by_cases hland : Landed g.regrades sid'
      · exact hsub (hindexed hland d hd e he hq)
      · exact hk hland d hd e he hq
    · exact hk (hne sid' hsid hnl) d hd e he hq
  refine { h with known := ?_, regrades := ?_, tasks := ?_ }
  · intro sid' hf hu
    exact hknown _ sid' subset_rfl (h.known sid' hf hu)
  · exact forall_lookup_put h.regrades ⟨hs, hstage⟩
  · refine h.tasksIn subset_rfl fun hi => { hi with known := ?_ }
    intro sid' hu hleft
    exact hknown _ sid' subset_union_right (hi.known sid' hu hleft)

theorem Inv.startRegrade (hs : sid ∈ g.regrading) :
    Inv (g.startRegrade sid) := by
  unfold Grader.startRegrade
  split
  · exact h
  · rename_i hnone
    refine h.toRegrade hs trivial ?_
    rintro ⟨d, left, hl⟩
    rw [hl] at hnone
    simp at hnone

/-- A regrade ends: the latest document stands, or the submission is void. -/
theorem Inv.release (hr : sid ∈ g.regrading) (hland : ¬ Landed g.regrades sid)
    (hclean : ∀ d, latest g.docs sid = some d → ∀ e ∈ lones d,
      e ∈ g.quarantined → g.voided sid = true) : Inv (g.release sid) := by
  refine Inv.forgetArrival ?_ (h.final sid (h.regrading sid hr))
  have hdropped := landed_dropped hland
  have hin : ∀ sid', sid' ≠ sid → sid' ∉ g.regrading.erase sid →
      sid' ∉ g.regrading := by
    intro sid' hne hnot hmem
    exact hnot (mem_erase.2 ⟨hne, hmem⟩)
  refine { h with
    payable := ?_, known := ?_, regrading := ?_, regrades := ?_, retry := ?_
    tasks := ?_ }
  · intro sid' hf hr d hd e he hq
    by_cases hsid : sid' = sid
    · subst hsid
      exact .inl (hclean d hd e he hq)
    · exact h.payable sid' hf (hin sid' hsid hr) d hd e he hq
  · intro sid' hf hu hnl
    exact h.known sid' hf hu fun hl => hnl (hdropped sid' hl)
  · exact fun sid' hr => h.regrading sid' (mem_of_mem_erase hr)
  · intro sid' stage hl
    obtain ⟨hsid, hl⟩ := lookup_remove_some hl
    obtain ⟨hr, hst⟩ := h.regrades sid' stage hl
    exact ⟨mem_erase.2 ⟨hsid, hr⟩, hst⟩
  · intro sid' hr
    obtain ⟨hne, hr⟩ := mem_erase.1 hr
    exact mem_erase.2 ⟨hne, h.retry sid' hr⟩
  · intro n t hl
    refine (h.tasks n t hl).map subset_rfl
      fun pending left found hi => { hi with known := ?_, own := ?_ }
    · intro sid' hu hleft hnl
      exact hi.known sid' hu hleft fun hl => hnl (hdropped sid' hl)
    · intro sid' hu hleft hr hv d hd he
      by_cases hsid : sid' = sid
      · subst hsid
        have hvoid := hclean d hd t.executor he (h.tasks n t hl).1
        rw [show g.voided sid' = false from hv] at hvoid
        cases hvoid
      · exact hi.own sid' hu hleft (hin sid' hsid hr) hv d hd he

-- ===== writes

/-- A document is indexed: its pairs join `sole`, through a loss of pairs
that are under regrade, and it is clean or under regrade itself. -/
theorem Inv.indexed (hhas : Has g.docs sid)
    (hnew : sid ∉ g.final → latest g.docs sid = some d)
    {sole : Finset (String × String)} {regrading : Finset String}
    (hsub : sole ⊆ g.sole ∪ ((lones d).map fun e => (e, sid)).toFinset)
    (hkeep : ∀ x ∈ g.sole ∪ ((lones d).map fun e => (e, sid)).toFinset,
      x.1 ∉ g.quarantined → x ∈ sole)
    (hold : ∀ x ∈ g.sole, x.2 ∉ regrading → x ∈ sole)
    (hr : g.regrading ⊆ regrading) (hr' : regrading ⊆ insert sid g.regrading)
    (hclean : sid ∈ regrading ∨ ∀ e ∈ lones d, e ∉ g.quarantined) :
    Inv { g with final := insert sid g.final, sole, regrading } := by
  refine { h with
    payable := ?_, known := ?_, final := ?_, unindexed := ?_, sole := ?_
    regrading := ?_, regrades := ?_, retry := fun s hs => hr (h.retry s hs)
    grades := ?_, tasks := ?_ }
  · intro sid' hf hnr d' hd' e he hq
    by_cases hin : sid' ∈ g.final
    · exact h.payable sid' hin (fun hin => hnr (hr hin)) d' hd' e he hq
    · obtain rfl := (mem_insert.1 hf).resolve_right hin
      rw [show latest g.docs sid' = some d' from hd'] at hnew
      cases hnew hin
      exact absurd hq (hclean.resolve_left hnr e he)
  · intro sid' hf hu hnl d' hd' e he hq
    by_cases hin : sid' ∈ g.final
    · exact hkeep _ (mem_union_left _
        (h.known sid' hin hu hnl d' hd' e he hq)) hq
    · obtain rfl := (mem_insert.1 hf).resolve_right hin
      rw [show latest g.docs sid' = some d' from hd'] at hnew
      cases hnew hin
      exact hkeep _ (mem_pairs g sid' he) hq
  · exact (forall_mem_insert _ _ _).2 ⟨hhas, h.final⟩
  · exact fun sid' hu => mem_insert_of_mem (h.unindexed sid' hu)
  · intro x hx
    rcases mem_union.1 (hsub hx) with hx | hx
    · exact mem_insert_of_mem (h.sole x hx)
    · rw [List.mem_toFinset] at hx
      obtain ⟨e, -, rfl⟩ := List.mem_map.1 hx
      exact mem_insert_self ..
  · intro sid' hin
    rcases mem_insert.1 (hr' hin) with rfl | hin
    · exact mem_insert_self ..
    · exact mem_insert_of_mem (h.regrading sid' hin)
  · intro sid' stage hl
    obtain ⟨hin, hst⟩ := h.regrades sid' stage hl
    exact ⟨hr hin, hst⟩
  · exact fun sid' stage hl => (h.grades sid' stage hl).map id
      fun d' _ hf => ⟨fun hin => hf (mem_insert_of_mem hin), rfl⟩
  · refine h.tasksIn subset_rfl fun hi => ⟨hi.seeded, hi.covers,
      fun x hx => mem_insert_of_mem (hi.reads x hx),
      fun x hx => mem_insert_of_mem (hi.stored x hx), ?_, ?_⟩
    · intro sid' hu hleft hnl d' hd' e he hq
      rcases mem_union.1
        (hi.known sid' hu hleft hnl d' hd' e he hq) with hx | hx
      · exact mem_union_left _ hx
      · exact mem_union_right _ (hkeep _ (mem_union_left _ hx) hq)
    · intro sid' hu hleft hnr hv d' hd' he
      rcases mem_union.1 (hi.own sid' hu hleft
        (fun hin => hnr (hr hin)) hv d' hd' he) with hx | hx
      · exact mem_union_left _ hx
      · exact mem_union_right _ (hold _ hx hnr)

/-- **A write comes back**: the document is indexed, and regraded if a
quarantined executor decided a part of it alone. -/
theorem Inv.written (hhas : Has g.docs sid)
    (hnew : sid ∉ g.final → latest g.docs sid = some d) :
    Inv (g.written sid d) := by
  have hstored : Has (({ g with
      final := insert sid g.final }.index sid d).regradeIfQuarantined sid
        d).docs sid := by
    unfold regradeIfQuarantined
    dsimp only
    split
    · exact hhas
    · simpa [index] using hhas
  refine Inv.forgetArrival ?_ hstored
  unfold regradeIfQuarantined
  dsimp only
  split
  · rename_i hcaught
    exact h.indexed hhas hnew subset_rfl (fun _ hx _ => hx)
      (fun _ hx _ => mem_union_left _ hx) subset_rfl
      (subset_insert ..) (.inr (caught_nil hcaught))
  · refine Inv.startRegrade ?_ (mem_insert_self ..)
    refine h.indexed hhas hnew (filter_subset ..) ?_ ?_
      (subset_insert ..) subset_rfl (.inl (mem_insert_self ..))
    · intro x hx hq
      refine mem_filter.2 ⟨hx, ?_⟩
      exact fun hc => hq (mem_caught.1 hc.2).2
    · intro x hx hnr
      refine mem_filter.2 ⟨mem_union_left _ hx, ?_⟩
      exact fun hc => hnr (mem_insert.2 (.inl hc.1))

-- ===== the store

omit h in
theorem StageOk.transfer {docs docs' : Documents}
    (hlatest : latest docs' sid = latest docs sid)
    (hchain : ∀ n, Chain docs sid n → Chain docs' sid n)
    (h : StageOk docs sid stage) : StageOk docs' sid stage := by
  cases stage with
  | reading left => trivial
  | read read left => exact Eq.trans h hlatest.symm
  | grading generation regradedFor left =>
    obtain ⟨n, hn, hle, hc⟩ := h
    exact ⟨n, hn, hle, hchain n hc⟩
  | writing d generation regradedFor left =>
    obtain ⟨n, hn, hle, hc⟩ := h
    exact ⟨n, hn, hle, hchain n hc⟩
  | landed d left => exact hlatest.trans h
  | voiding reason => trivial

/-- The store changes, no graded submission's latest document with it. -/
theorem Inv.withDocs (hwf : WellFormed docs)
    (hlatest : ∀ sid ∈ g.final, latest docs sid = latest g.docs sid)
    (hchain : ∀ sid ∈ g.final, ∀ n, Chain g.docs sid n → Chain docs sid n)
    (hhas : ∀ sid, Has g.docs sid → Has docs sid)
    (hvoid : ∀ sid, g.voided sid = true →
      { g with docs := docs }.voided sid = true)
    (hgrades : ∀ sid stage, g.grades.lookup sid = some stage →
      GradeOk docs g.final sid stage)
    (ha : Arrivals docs g.received g.arrival g.enqueuedAt g.grades) :
    Inv { g with docs := docs } := by
  have hknown : ∀ found sid, sid ∈ g.final → Known g found sid →
      Known { g with docs := docs } found sid := by
    intro found sid hf hk hnl d hd
    have hd' : latest docs sid = some d := hd
    exact hk hnl d ((hlatest sid hf).symm.trans hd')
  refine { h with
    wf := hwf, payable := ?_, known := ?_, final := ?_, listings := ?_
    regrades := ?_, grades := hgrades, tasks := ?_, arrivals := ha }
  · intro sid hf hr d hd e he hq
    have hd' : latest docs sid = some d := hd
    rcases h.payable sid hf hr d ((hlatest sid hf).symm.trans hd') e he hq
      with hv | hheld
    · exact .inl (hvoid sid hv)
    · exact .inr hheld
  · exact fun sid hf hu => hknown _ sid hf (h.known sid hf hu)
  · exact fun sid hf => hhas sid (h.final sid hf)
  · exact fun l hl sid hs => hhas sid (h.listings l hl sid hs)
  · intro sid stage hl
    obtain ⟨hr, hst⟩ := h.regrades sid stage hl
    have hf := h.regrading sid hr
    exact ⟨hr, hst.transfer (hlatest sid hf) (hchain sid hf)⟩
  · refine h.tasksIn subset_rfl
      fun hi => { hi with known := ?_, own := ?_ }
    · intro sid hu hleft
      exact hknown _ sid (h.unindexed sid hu) (hi.known sid hu hleft)
    · intro sid hu hleft hr hv d hd he
      have hd' : latest docs sid = some d := hd
      have hv' : g.voided sid = false := by
        cases hvd : g.voided sid with
        | false => rfl
        | true =>
          rw [hvoid sid hvd] at hv
          cases hv
      exact hi.own sid hu hleft hr hv' d
        ((hlatest sid (h.unindexed sid hu)).symm.trans hd') he

/-- The first grade of a submission lands. -/
theorem Inv.land (hl : g.grades.lookup sid = some (.writing d))
    (hnone : latest g.docs sid = none) :
    Inv { g.toGrade sid (.landed d) with docs := g.docs.write sid d none } := by
  have hne : ∀ sid' ∈ g.final, sid' ≠ sid := by
    rintro sid' hf rfl
    exact h.final sid' hf hnone
  have hself : latest (g.docs.write sid d none) sid = some d :=
    latest_write_grade hnone
  have hstored : Has (g.docs.write sid d none) sid :=
    fun hn => nomatch hself.symm.trans hn
  have hqueue : g.enqueuedAt.lookup sid = none := by
    cases hq : g.enqueuedAt.lookup sid with
    | none => rfl
    | some q =>
      exact absurd (h.arrivals.queued sid q hq).2
        (h.arrivals.learned sid _ hl nofun hnone)
  have hhas : ∀ sid', Has g.docs sid' → Has (g.docs.write sid d none) sid' := by
    intro sid' hh
    have hsid : sid' ≠ sid := fun heq => hh (heq ▸ hnone)
    unfold Has
    rw [latest_write_ne hsid]
    exact hh
  have hdocs : Inv { g with docs := g.docs.write sid d none } := by
    refine h.withDocs (h.wf.writeGrade (h.grades sid _ hl))
      (fun sid' hf => latest_write_ne (hne sid' hf))
      (fun sid' hf n hc => hc.write_ne (hne sid' hf)) hhas
      (fun sid' hv => hv) ?_ (h.arrivals.withDocs
        (fun _ hne => latest_write_ne hne) hstored hqueue)
    intro sid' stage hl'
    refine (h.grades sid' stage hl').map (hhas sid') fun d' hd' hf => ⟨hf, ?_⟩
    apply latest_write_ne
    rintro rfl
    cases hl.symm.trans (hl'.trans (congrArg some hd'))
  exact hdocs.toGrade ⟨hstored, fun _ => hself⟩ fun _ hn => absurd hn hstored

/-- A submission's own documents change while its regrade lands. -/
theorem Inv.relatest (hr : sid ∈ g.regrading) (hwf : WellFormed docs)
    (hself : latest docs sid = some d)
    (hother : ∀ sid', sid' ≠ sid → latest docs sid' = latest g.docs sid')
    (hchain : ∀ sid', sid' ≠ sid → ∀ n, Chain g.docs sid' n → Chain docs sid' n)
    (hvoids : docs.voids = g.docs.voids) : Inv { g with
      docs := docs
      regrades := put sid (.landed d left) g.regrades } := by
  have hhas : ∀ sid', Has g.docs sid' → Has docs sid' := by
    intro sid' hh
    by_cases hsid : sid' = sid
    · subst hsid
      exact fun hn => nomatch hself.symm.trans hn
    · exact fun hn => hh ((hother sid' hsid).symm.trans hn)
  have hstored : Has g.docs sid := h.final sid (h.regrading sid hr)
  have hsame : ∀ sid', sid' ∉ g.regrading →
      latest docs sid' = latest g.docs sid' :=
    fun sid' hnr => hother sid' fun heq => hnr (heq ▸ hr)
  have hlanded : Landed (put sid (.landed d left) g.regrades) sid :=
    ⟨d, left, by rw [lookup_put, if_pos rfl]⟩
  -- the submission itself has landed, so nothing is asked of its index
  have hknown : ∀ found sid', Known g found sid' → Known { g with
        docs := docs
        regrades := put sid (.landed d left) g.regrades } found sid' := by
    intro found sid' hk hnl d' hd' e he hq
    have hsid : sid' ≠ sid := by
      rintro rfl
      exact hnl hlanded
    refine hk ?_ d' ((hother sid' hsid).symm.trans hd') e he hq
    rintro ⟨d'', left', hl'⟩
    exact hnl ⟨d'', left', by rw [lookup_put, if_neg hsid, hl']⟩
  have hvoid : ∀ sid', { g with
      docs := docs
      regrades := put sid (.landed d left) g.regrades }.voided sid'
        = g.voided sid' := by
    intro sid'
    unfold voided
    rw [hvoids]
  refine { h with
    wf := hwf, payable := ?_, known := ?_, final := ?_, listings := ?_
    regrades := ?_, grades := ?_, tasks := ?_
    arrivals := h.arrivals.withDocs hother (hhas sid hstored)
      (h.arrivals.not_queued hstored) }
  · intro sid' hf hnr d' hd' e he hq
    rw [hvoid sid']
    exact h.payable sid' hf hnr d' ((hsame sid' hnr).symm.trans hd') e he hq
  · exact fun sid' hf hu => hknown _ sid' (h.known sid' hf hu)
  · exact fun sid' hf => hhas sid' (h.final sid' hf)
  · exact fun l hll sid' hs => hhas sid' (h.listings l hll sid' hs)
  · intro sid' stage hl'
    rcases lookup_put_some hl' with ⟨rfl, rfl⟩ | ⟨hsid, hl'⟩
    · exact ⟨hr, hself⟩
    · obtain ⟨hr', hst⟩ := h.regrades sid' stage hl'
      exact ⟨hr', hst.transfer (hother sid' hsid) (hchain sid' hsid)⟩
  · intro sid' stage hl'
    refine (h.grades sid' stage hl').map (hhas sid') fun d' _ hf => ⟨hf, ?_⟩
    exact hother sid' fun heq => hf (heq ▸ h.regrading sid hr)
  · refine h.tasksIn subset_rfl
      fun hi => { hi with known := ?_, own := ?_ }
    · exact fun sid' hu hleft => hknown _ sid' (hi.known sid' hu hleft)
    · intro sid' hu hleft hnr hv d' hd' he
      rw [hvoid sid'] at hv
      exact hi.own sid' hu hleft hnr hv d' ((hsame sid' hnr).symm.trans hd') he

/-- The next regrade of a submission lands. -/
theorem Inv.landRegrade {generation left : Nat}
    {regradedFor : List String} (hl : g.regrades.lookup sid
      = some (.writing d generation regradedFor left)) :
    Inv { g.toRegrade sid (.landed
        { d with
          generation := some generation
          regradedFor := regradedFor } left) with
      docs := g.docs.write sid d (some (generation, regradedFor)) } := by
  obtain ⟨hr, n, rfl, hle, hchain⟩ := h.regrades sid _ hl
  exact h.relatest hr (h.wf.writeRegrade hchain hle)
    (latest_write_regrade hchain hle) (fun _ hne => latest_write_ne hne)
    (fun _ hne _ hc => hc.write_ne hne) rfl

/-- A void lands: nothing of the submission is payable any more. -/
theorem Inv.void {v : Voided} (hr : sid ∈ g.regrading)
    (hland : ¬ Landed g.regrades sid) : Inv ({ g with
      docs :=
        { g.docs with voids := create sid v g.docs.voids } }.release sid) := by
  have hlatest : ∀ sid', latest
      { g.docs with
        voids := create sid v g.docs.voids } sid' = latest g.docs sid' :=
    fun sid' => latest_congr rfl fun _ => rfl
  have hhas : ∀ sid', Has g.docs sid' → Has
      { g.docs with voids := create sid v g.docs.voids } sid' := by
    intro sid' hh
    unfold Has
    exact hh
  have hvoided : (create sid v g.docs.voids).lookup sid ≠ none := by
    cases hl : g.docs.voids.lookup sid with
    | none =>
      rw [lookup_create_new hl]
      exact some_ne_none _
    | some w =>
      rw [lookup_create_of hl]
      exact some_ne_none _
  have hdocs : Inv { g with
      docs :=
        { g.docs with voids := create sid v g.docs.voids } } := by
    refine h.withDocs ⟨h.wf.chain, h.wf.generation, h.wf.grade⟩
      (fun sid' _ => hlatest sid') (fun sid' _ n hc => hc) hhas ?_ ?_
      { h.arrivals with }
    · intro sid' hv
      obtain ⟨w, hw⟩ := isSome_iff_exists.1 hv
      exact isSome_iff_exists.2 ⟨w, lookup_create_of hw⟩
    · exact fun sid' stage hl => (h.grades sid' stage hl).map (hhas sid')
        fun d' _ hf => ⟨hf, hlatest sid'⟩
  refine hdocs.release hr hland fun d hd e he hq => ?_
  exact isSome_iff_ne_none.2 hvoided

-- ===== quarantines

/-- A quarantine: what the executor decided alone is regraded, and what is
not indexed is held. -/
theorem Inv.hold : Inv (g.hold e) := by
  have hknown : ∀ found sid, Known g found sid → Known (g.hold e) found sid := by
    intro found sid hk hnl d hd e' he hq
    exact hk hnl d hd e' he fun hin => hq (mem_insert_of_mem hin)
  have hsub : ∀ sid, sid ∉ (g.hold e).regrading → sid ∉ g.regrading :=
    fun sid hr hin => hr (mem_union_left _ hin)
  refine { h with
    payable := ?_, known := ?_, regrading := ?_, regrades := ?_, retry := ?_
    early := ?_, tasks := ?_ }
  · intro sid hf hr d hd e' he hq
    by_cases hold : e' ∈ g.quarantined
    · rcases h.payable sid hf (hsub sid hr) d hd e' he hold with hv | ⟨hu, hh⟩
      · exact .inl hv
      · exact .inr ⟨hu, mem_insert_of_mem hh⟩
    · obtain rfl : e' = e := (mem_insert.1 hq).resolve_right hold
      by_cases hu : sid ∈ g.unindexed
      · exact .inr ⟨hu, mem_insert_self ..⟩
      · -- indexed: the pair is in `sole`, so the regrade takes it
        have hnl : ¬ Landed g.regrades sid := by
          rintro ⟨d', left, hl⟩
          exact hsub sid hr (h.regrades sid _ hl).1
        have hpair := h.known sid hf hu hnl d hd e' he hold
        refine absurd (mem_union_right _ ?_) hr
        exact mem_image.2 ⟨(e', sid), mem_filter.2 ⟨hpair, rfl⟩, rfl⟩
  · exact fun sid hf hu => hknown _ sid (h.known sid hf hu)
  · exact forall_mem_union.2 ⟨h.regrading, forall_mem_image.2
      fun x hx => h.sole x (mem_filter.1 hx).1⟩
  · intro sid stage hl
    obtain ⟨hr, hst⟩ := h.regrades sid stage hl
    exact ⟨mem_union_left _ hr, hst⟩
  · exact fun sid hr => mem_union_left _ (h.retry sid hr)
  · intro hs e' hq
    rcases mem_insert.1 hq with rfl | hq
    · exact mem_insert_self ..
    · exact mem_insert_of_mem (h.early hs e' hq)
  · refine h.tasksIn (subset_insert ..)
      fun hi => { hi with known := ?_, own := ?_ }
    · exact fun sid hu hleft => hknown _ sid (hi.known sid hu hleft)
    · intro sid hu hleft hr
      exact hi.own sid hu hleft (hsub sid hr)

theorem Inv.startRegrades {sids : List String}
    (hs : ∀ sid ∈ sids, sid ∈ g.regrading) :
    Inv (sids.foldl Grader.startRegrade g) := by
  induction sids generalizing g with
  | nil => exact h
  | cons sid rest ih =>
    refine ih (h.startRegrade (hs sid List.mem_cons_self)) ?_
    intro sid' hin
    simp only [startRegrade_fields]
    exact hs sid' (List.mem_cons_of_mem _ hin)

/-- **An indexing ends**: every old grade is indexed, and what the executor
decided alone is regraded. -/
theorem Inv.collect {pending : Finset String} {found : Finset (String × String)}
    (hq : e ∈ g.quarantined) (hi : Indexed g e pending ∅ found)
    (hone : ∀ sid ∈ g.unindexed, ∀ d, latest g.docs sid = some d →
      ∀ e' ∈ lones d, e' ∈ g.held → e' = e) : Inv ({ g with
      sole := g.sole ∪ found
      unindexed := g.unindexed \ pending }.pop e) := by
  have hnone : g.unindexed \ pending = ∅ :=
    sdiff_eq_empty_iff_subset.2 hi.covers
  have hsole : ∀ x ∈ g.sole ∪ found, x.2 ∈ g.final :=
    forall_mem_union.2 ⟨h.sole, hi.stored⟩
  unfold pop
  refine Inv.startRegrades ?_ ?_
  · refine ⟨h.wf, ?_, ?_, h.final, ?_, ?_, ?_, h.listings, ?_, ?_, ?_,
      h.grades, ?_, h.arrivals⟩
    · intro sid hf hr d hd e' he hq'
      have hr' : sid ∉ g.regrading :=
        fun hin => hr (mem_union_left _ hin)
      rcases h.payable sid hf hr' d hd e' he hq' with hv | ⟨hu, hh⟩
      · exact .inl hv
      · obtain rfl : e' = e := hone sid hu d hd e' he hh
        cases hv : g.voided sid with
        | true => exact .inl hv
        | false =>
          have hpair := hi.own sid hu (notMem_empty _) hr' hv d hd he
          refine absurd (mem_union_right _ ?_) hr
          rw [union_comm] at hpair
          exact mem_image.2 ⟨(e', sid), mem_filter.2 ⟨hpair, rfl⟩, rfl⟩
    · intro sid hf hu hnl d hd e' he hq'
      have hne : e' ≠ e := fun heq => hq' (heq ▸ hq)
      refine mem_filter.2 ⟨?_, hne⟩
      by_cases hold : sid ∈ g.unindexed
      · have hpair := hi.known sid hold (notMem_empty _) hnl d hd e' he
          hq'
        rwa [union_comm] at hpair
      · exact mem_union_left _ (h.known sid hf hold hnl d hd e' he hq')
    · intro sid hu
      exact h.unindexed sid (mem_sdiff.1 hu).1
    · exact fun x hx => hsole x (mem_filter.1 hx).1
    · exact forall_mem_union.2 ⟨h.regrading, forall_mem_image.2
        fun x hx => hsole x (mem_filter.1 hx).1⟩
    · intro sid stage hl
      obtain ⟨hr, hst⟩ := h.regrades sid stage hl
      exact ⟨mem_union_left _ hr, hst⟩
    · exact fun sid hr => mem_union_left _ (h.retry sid hr)
    · exact fun hs => nomatch hi.seeded.symm.trans hs
    · refine h.tasksIn subset_rfl fun hi' => ?_
      have hvac : ∀ sid, sid ∉ g.unindexed \ pending := by
        intro sid hin
        rw [hnone] at hin
        exact notMem_empty _ hin
      refine ⟨hi'.seeded, fun sid hin => absurd hin (hvac sid), hi'.reads,
        hi'.stored, fun sid hin => absurd hin (hvac sid),
        fun sid hin => absurd hin (hvac sid)⟩
  · intro sid hin
    rw [mem_sortSet] at hin
    exact mem_union_right _ hin

-- ===== the listing

theorem Inv.withListings {listings : List (Finset String)}
    (hl : ∀ l ∈ listings, ∀ sid ∈ l, Has g.docs sid) :
    Inv { g with listings := listings } :=
  { h with
    listings := hl
    tasks := h.tasksIn subset_rfl fun hi => { hi with } }

theorem Inv.seedRead : Inv { g with
    listings := g.listings ++ [(g.docs.grades.map Prod.fst).toFinset] } := by
  have hkeys : ∀ sid ∈ (g.docs.grades.map Prod.fst).toFinset,
      Has g.docs sid := by
    intro sid hs
    rw [List.mem_toFinset] at hs
    obtain ⟨x, hx, rfl⟩ := List.mem_map.1 hs
    obtain ⟨d, hd⟩ := isSome_iff_exists.1 (isSome_lookup_of_mem hx)
    unfold Has latest
    rw [hd]
    simp
  exact h.withListings (forall_snoc h.listings hkeys)

theorem Inv.seedFail : Inv { g with listings := g.listings.tail } :=
  h.withListings fun l hl => h.listings l (List.mem_of_mem_tail hl)

/-- The boot's listing comes back: every quarantine of before is held. -/
theorem Inv.seedApply {listing : Finset String} {rest : List (Finset String)}
    (hl : g.listings = listing :: rest) (hs : g.seeded = false) : Inv { g with
      listings := rest
      unindexed := g.unindexed ∪ (listing \ g.final)
      final := g.final ∪ listing
      seeded := true } := by
  have hhas : ∀ sid ∈ listing, Has g.docs sid :=
    h.listings listing (hl ▸ List.mem_cons_self)
  refine ⟨h.wf, ?_, ?_, ?_, ?_, ?_, ?_, ?_, h.regrades, h.retry, ?_, ?_, ?_,
    h.arrivals⟩
  · intro sid hf hr d hd e he hq
    by_cases hold : sid ∈ g.final
    · rcases h.payable sid hold hr d hd e he hq with hv | ⟨hu, hh⟩
      · exact .inl hv
      · exact .inr ⟨mem_union_left _ hu, hh⟩
    · have hin : sid ∈ listing := (mem_union.1 hf).resolve_left hold
      exact .inr ⟨mem_union_right _ (mem_sdiff.2 ⟨hin, hold⟩), h.early hs e hq⟩
  · intro sid hf hu
    have hold : sid ∈ g.final := by
      by_contra hold
      refine hu (mem_union_right _ (mem_sdiff.2 ⟨?_, hold⟩))
      exact (mem_union.1 hf).resolve_left hold
    exact h.known sid hold fun hin => hu (mem_union_left _ hin)
  · exact forall_mem_union.2 ⟨h.final, hhas⟩
  · exact fun sid hu =>
      union_subset_union h.unindexed sdiff_subset hu
  · exact fun x hx => mem_union_left _ (h.sole x hx)
  · exact fun sid hr => mem_union_left _ (h.regrading sid hr)
  · exact fun l hin => h.listings l (hl ▸ List.mem_cons_of_mem _ hin)
  · exact fun hs' => nomatch hs'
  · exact fun sid stage hlk => (h.grades sid stage hlk).map id
      fun d _ hf => ⟨fun hin => hf (mem_union_left _ hin), rfl⟩
  · exact h.tasksIn subset_rfl fun hi => nomatch hi.seeded.symm.trans hs

-- ===== the indexings

omit h in
/-- An indexing reads one more grade. -/
theorem Indexed.read {pending left : Finset String}
    {found : Finset (String × String)} (hi : Indexed g e pending left found)
    (hs : sid ∈ left) : Indexed g e pending (left.erase sid)
      (found ∪ g.stored sid) := by
  have hleft : ∀ sid', sid' ≠ sid → sid' ∉ left.erase sid → sid' ∉ left :=
    fun sid' hne hnot hin => hnot (mem_erase.2 ⟨hne, hin⟩)
  have hsub : found ∪ g.sole ⊆ found ∪ g.stored sid ∪ g.sole :=
    union_subset_union_left subset_union_left
  have hnew : g.stored sid ⊆ found ∪ g.stored sid ∪ g.sole :=
    subset_union_right.trans subset_union_left
  refine ⟨hi.seeded, hi.covers,
    fun sid' hin => hi.reads sid' (mem_of_mem_erase hin), ?_, ?_, ?_⟩
  · refine forall_mem_union.2 ⟨hi.stored, fun x hx => ?_⟩
    rw [stored_own hx]
    exact hi.reads sid hs
  · intro sid' hu hnot hnl d hd e' he hq
    by_cases hsid : sid' = sid
    · subst hsid
      exact hnew (mem_stored hd he)
    · exact hsub (hi.known sid' hu (hleft sid' hsid hnot) hnl d hd e' he hq)
  · intro sid' hu hnot hr hv d hd he
    by_cases hsid : sid' = sid
    · subst hsid
      exact hnew (mem_stored hd he)
    · exact hsub (hi.own sid' hu (hleft sid' hsid hnot) hr hv d hd he)

theorem Inv.putTask (ht : TaskOk g t) :
    Inv { g with indexing := put n t g.indexing } :=
  h.withTasks (forall_lookup_put (fun _ _ hl => .inl hl) (.inr ht))

/-- An indexing that finds nothing to read ends at once. -/
theorem Inv.popNone (hq : e ∈ g.quarantined)
    (hs : g.seeded = true) (hu : g.unindexed = ∅) : Inv (g.pop e) := by
  have hvac : ∀ sid, sid ∉ g.unindexed := by
    intro sid hin
    rw [hu] at hin
    exact notMem_empty _ hin
  have hi : Indexed g e ∅ ∅ ∅ :=
    ⟨hs, fun sid hin => absurd hin (hvac sid),
      fun sid hin => absurd hin (notMem_empty _),
      fun x hx => absurd hx (notMem_empty _),
      fun sid hin => absurd hin (hvac sid),
      fun sid hin => absurd hin (hvac sid)⟩
  have hpop := h.collect hq hi fun sid hin => absurd hin (hvac sid)
  simpa using hpop

omit h in
theorem pop_indexing : (g.pop e).indexing = g.indexing := by
  refine List.foldlRecOn _ _ (motive := fun g' : Grader =>
    g'.indexing = g.indexing) rfl fun g' hg' sid _ => ?_
  unfold startRegrade
  split <;> exact hg'

/-- One step of an indexing. -/
theorem Inv.indexStep (hl : g.indexing.lookup n = some t)
    (hone : ∀ k, ev = .indexDone k → ∀ sid ∈ g.unindexed, ∀ d,
      latest g.docs sid = some d → ∀ e ∈ lones d, e ∈ g.held →
        e = t.executor) : Inv (g.indexStep ev n t) := by
  have hq := (h.tasks n t hl).1
  have hok := (h.tasks n t hl).2
  unfold Grader.indexStep
  split
  · split
    · exact h
    · rename_i hseeded
      have hs : g.seeded = true := by simpa using hseeded
      split
      · refine h.putTask ⟨hq, fun pending left found heq => ?_⟩
        cases heq
        exact ⟨hs, subset_rfl, h.unindexed,
          fun x hx => absurd hx (notMem_empty _),
          fun sid hu hleft => absurd hu hleft,
          fun sid hu hleft => absurd hu hleft⟩
      · rename_i hnone
        exact (h.popNone hq hs (not_nonempty_iff_eq_empty.1 hnone)).withTasks
            fun k t' hl' => .inl ((congrArg (List.lookup k) pop_indexing).trans
                (lookup_remove_some hl').2)
  · rename_i k sid pending left found hst
    split
    · rename_i hs
      refine h.putTask ⟨hq, fun pending' left' found' heq => ?_⟩
      cases heq
      exact (hok pending left found hst).read hs
    · exact h
  · rename_i k pending left found hst
    split
    · exact h
    · rename_i hnone
      have hleft := not_nonempty_iff_eq_empty.1 hnone
      have hi := hok pending left found hst
      rw [hleft] at hi
      exact (h.collect hq hi (hone k rfl)).withTasks fun k t' hl' => .inl
          ((congrArg (List.lookup k) pop_indexing).trans
            (lookup_remove_some hl').2)
  · exact h.dropTask
  · exact h

-- ===== the step

omit h in
theorem not_landed (hl : g.regrades.lookup sid = some stage)
    (hne : ∀ d left, stage ≠ .landed d left) : ¬ Landed g.regrades sid := by
  rintro ⟨d, left, hl'⟩
  rw [hl] at hl'
  cases hl'
  exact hne d left rfl

/-- A regrade moves on from a stage that has not landed. -/
theorem Inv.advance {stage stage' : RegradeStage}
    (hl : g.regrades.lookup sid = some stage)
    (hne : ∀ d left, stage ≠ .landed d left)
    (hok : StageOk g.docs sid stage') : Inv (g.toRegrade sid stage') :=
  h.toRegrade (h.regrades sid stage hl).1 hok
    fun hland => absurd hland (not_landed hl hne)

theorem Inv.check {read : Option Document}
    (hl : g.regrades.lookup sid = some (.read read left)) :
    Inv (g.check sid read left) := by
  have hread : read = latest g.docs sid := (h.regrades sid _ hl).2
  have hne : ∀ d left', RegradeStage.read read left ≠ .landed d left' :=
    fun _ _ heq => nomatch heq
  have hr := (h.regrades sid _ hl).1
  have hland := not_landed hl hne
  unfold Grader.check
  cases read with
  | none =>
    refine h.release hr hland fun d hd => ?_
    exact nomatch hread.trans hd
  | some d =>
    dsimp only
    split
    · rename_i hclean
      split
      · exact h.advance hl hne trivial
      · refine h.release hr hland fun d' hd' e he hq => ?_
        cases hread.trans hd'
        exact absurd hq (caught_nil hclean e he)
    · split
      · exact h.advance hl hne trivial
      · rename_i hmore
        obtain ⟨n, hn, hchain⟩ := h.wf.chain sid
        have hgen := h.wf.latest_generation hchain hn hread.symm
        refine h.advance hl hne ⟨n, by rw [hgen], ?_, hchain⟩
        have hlt : ¬ maxRegradeGenerations ≤ d.generation.getD 0 :=
          fun hle => hmore (.inl hle)
        omega

/-- A regrade's answer comes back: it is indexed, and read again. -/
theorem Inv.backRegrade (hl : g.regrades.lookup sid = some (.landed d left)) :
    Inv ((g.written sid d).again sid left) := by
  obtain ⟨hr, hlatest⟩ := h.regrades sid _ hl
  have hlatest : latest g.docs sid = some d := hlatest
  have hhas : Has g.docs sid := fun hn => nomatch hlatest.symm.trans hn
  have hw := h.written hhas fun _ => hlatest
  obtain ⟨hdocs, hquar, hregrading⟩ := written_fields g sid d
  have hr' := hregrading hr
  have hindexed : ∀ d', latest (g.written sid d).docs sid = some d' →
      ∀ e ∈ lones d', e ∉ (g.written sid d).quarantined →
        (e, sid) ∈ (g.written sid d).sole := by
    intro d' hd' e he hq
    rw [hdocs, hlatest] at hd'
    cases hd'
    rw [hquar] at hq
    exact written_sole sid he hq
  cases left with
  | zero => exact hw.toRegrade hr' trivial fun _ => hindexed
  | succ left => exact hw.toRegrade hr' trivial fun _ => hindexed

/-- A regrade fails, to be retried: it stays held. -/
theorem Inv.failRegrade (hr : sid ∈ g.regrading)
    (hland : ¬ Landed g.regrades sid) : Inv { g with
      regrades := g.regrades.filter fun x => x.1 != sid
      regradeRetry := insert sid g.regradeRetry } := by
  have hdropped := landed_dropped hland
  refine { h with
    known := ?_, retry := ?_, tasks := ?_
    regrades := fun sid' stage hl =>
      h.regrades sid' stage (lookup_remove_some hl).2 }
  · intro sid' hf hu hnl
    exact h.known sid' hf hu fun hl => hnl (hdropped sid' hl)
  · exact (forall_mem_insert _ _ _).2 ⟨hr, h.retry⟩
  · refine h.tasksIn subset_rfl fun hi => { hi with known := ?_ }
    intro sid' hu hleft hnl
    exact hi.known sid' hu hleft fun hl => hnl (hdropped sid' hl)

theorem Inv.regradeStep (hl : g.regrades.lookup sid = some stage) :
    Inv (g.regradeStep ev sid stage) := by
  have hr := (h.regrades sid stage hl).1
  unfold Grader.regradeStep
  split
  · exact h.advance hl (fun _ _ heq => nomatch heq) rfl
  · exact h.check hl
  · exact h.advance hl (fun _ _ heq => nomatch heq) (h.regrades sid _ hl).2
  · exact h.landRegrade hl
  · exact h.backRegrade hl
  · exact h.void hr (not_landed hl fun _ _ heq => nomatch heq)
  · exact h
  · rename_i hne
    exact h.failRegrade hr (not_landed hl hne)
  · exact h

theorem Inv.gradeStep {stage : GradeStage}
    (hl : g.grades.lookup sid = some stage)
    (hland : ∀ k, ev = .land k → latest g.docs sid = none) :
    Inv (g.gradeStep ev sid stage) := by
  unfold Grader.gradeStep
  split
  · split
    · rename_i hsome
      exact h.learnArrival.toGrade trivial
        fun _ _ => learnArrival_known hsome
    · exact h.endGrade
  · exact h.endGrade.aside h.endGrade.arrivals
  · rename_i d
    have hnew : GradeOk g.docs g.final sid (.writing
        { d with generation := none, regradedFor := [] }) := rfl
    have hto := h.toGrade hnew fun _ => h.arrivals.learned sid _ hl nofun
    exact hto.aside hto.arrivals
  · exact h.land hl (hland _ rfl)
  · obtain ⟨hhas, hnew⟩ := h.grades sid _ hl
    exact (h.written hhas hnew).endGrade
  · exact h.endGrade
  · exact h.endGrade
  · exact h.endGrade
  · exact h

theorem Inv.atGrade (hland : ∀ k, ev = .land k → latest g.docs sid = none) :
    Inv (match g.grades.lookup sid with
      | none => g
      | some stage => g.gradeStep ev sid stage) := by
  split
  · exact h
  · rename_i stage hl
    exact h.gradeStep hl hland

theorem Inv.atRegrade : Inv (match g.regrades.lookup sid with
    | none => g
    | some stage => g.regradeStep ev sid stage) := by
  split
  · exact h
  · rename_i stage hl
    exact h.regradeStep hl

theorem Inv.atIndex (hdone : ∀ k, ev = .indexDone k →
    Careful g (.indexDone n)) : Inv (match g.indexing.lookup n with
      | none => g
      | some t => g.indexStep ev n t) := by
  split
  · exact h
  · rename_i t hl
    exact h.indexStep hl fun k hev => hdone k hev t hl

/-- **Every careful step keeps the invariant.** -/
theorem Inv.step (hok : Careful g ev) : Inv (g.step ev) := by
  cases ev with
  | record sid at_ => exact h.aside { h.arrivals with
      known := fun sid' a hl => lookup_create_of (h.arrivals.known sid' a hl) }
  | enqueue sid now =>
    rw [step]
    split
    · rename_i hfresh
      have hnone := isNone_iff_eq_none.1 hfresh.2.1
      exact h.aside { h.arrivals with
        queued := forall_lookup_put h.arrivals.queued ⟨hok, hnone⟩ }
    · exact h
  | start sid =>
    rw [step]
    split
    · exact h.toGrade trivial fun hne => absurd rfl hne
    · exact h
  | seedRead =>
    rw [step]
    split
    · exact h
    · exact h.seedRead
  | seedApply =>
    rw [step]
    split
    · exact h
    · rename_i listing rest hl
      exact h.seedApply hl hok
  | seedFail => exact h.seedFail
  | quarantine e => exact h.hold
  | startExecutor e =>
    rw [step]
    split
    · have htask : TaskOk (g.hold e) ⟨e, .seeding⟩ :=
        ⟨mem_insert_self .., fun _ _ _ heq => nomatch heq⟩
      exact (h.hold.putTask htask).aside h.arrivals
    · exact h
  | retry sid =>
    rw [step]
    split
    · rename_i hin
      exact h.startRegrade (h.retry sid hin)
    · exact h
  | rescan listing unreadable =>
    exact rescan_keeps (h.aside h.arrivals) fun _ _ h' => h'.learnArrival
  | observe now => exact h.aside h.arrivals
  | readRecord sid | awaitDraw sid _ | decide sid _ | back sid
  | failGrade sid => exact h.atGrade fun _ heq => nomatch heq
  | land sid => exact h.atGrade fun _ _ => hok
  | index n | indexRead n _ | failExecutor n =>
    exact h.atIndex fun _ heq => nomatch heq
  | indexDone n => exact h.atIndex fun _ _ => hok
  | readLatest sid | check sid | decideRegrade sid _ | landRegrade sid
  | backRegrade sid | void sid | failRegrade sid => exact h.atRegrade

/-- What `ready` names is clean, or voided. -/
theorem Inv.ready_clean {ids : List String} (hs : sid ∈ g.ready ids)
    (hd : latest g.docs sid = some d) :
    g.caught d = [] ∨ g.voided sid = true := by
  obtain ⟨-, hcond⟩ := List.mem_filter.1 hs
  simp only [Bool.and_eq_true, decide_eq_true_eq, Bool.not_eq_true',
    Bool.and_eq_false_iff, decide_eq_false_iff_not] at hcond
  obtain ⟨⟨hf, hr⟩, hheld⟩ := hcond
  by_contra hbad
  rw [not_or] at hbad
  obtain ⟨e, he⟩ := List.exists_mem_of_ne_nil _ hbad.1
  obtain ⟨he, hq⟩ := mem_caught.1 he
  rcases h.payable sid hf hr d hd e he hq with hv | ⟨hu, hh⟩
  · exact hbad.2 hv
  · rcases hheld with hnone | hnot
    · exact hnone ⟨e, hh⟩
    · exact hnot hu

end Kept

end Grader

end Reliquary.Grade.Hold
