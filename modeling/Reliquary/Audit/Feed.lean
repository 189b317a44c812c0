/-
The arrival feed between a front and a judge process
(`validator/corpus_feed.py`, `JudgeLink` and `ArrivalFeed`, with the
auditors' `enqueue` and `rescan_store`).

# What is modeled how

- A front is its `JudgeLink`: the queue of accepted ids, the drop
  counters, and the one post it awaits. A restart is a new epoch with an
  empty queue. The fronts run one at a time, on a clock that does not go
  back.
- A post is on its way (`sent`) until it is delivered or lost. Each
  front's posts are delivered in order; those of an older front may come
  after a newer one's. The front's await ends in success only if the post
  was delivered, and in failure at any time.
- A listing goes through the judged jobs one by one. The listing of a job
  starts at some time and ends later, with at least the records stored
  when it started. It can fail and is then started over.
- Events that the assumptions exclude (an acceptance without its record, a
  clock that goes back, a listing that misses a record) change nothing.
- `enqueued` are the ids an auditor was handed; those a listing shows with
  a verdict count, since nothing is left to judge of them.
- `log`, `before` and `bumped` are history: all acceptances, those before
  a post was built, and those before the last listing was asked for.

# What is proven

`covered_enqueued`. The invariant carries one statement of a post along
(`PostOk.vouches`): what was accepted before the post was built is in it,
was enqueued, or is for a listing to find.
-/
import Reliquary.Store.Table

namespace Reliquary.Audit.Feed

open Store List Option

-- ===== the parties

/-- An id handed to `JudgeLink.accepted`. -/
structure Accept where
  epoch : Nat
  seq : Nat
  job : String
  sid : String
  time : ℚ
deriving DecidableEq, Repr

def Accept.key (a : Accept) : String × String := (a.job, a.sid)

structure Post where
  number : Nat
  epoch : Nat
  dropped : Bool
  chunk : List Accept
  asOf : Option ℚ
  /-- The drops counted when it was built. -/
  drops : Nat
  before : List Accept
deriving DecidableEq, Repr

structure Front where
  epoch : Nat
  nextSeq : Nat
  queue : List Accept
  drops : Nat
  dropsSent : Nat
  awaiting : Option Post
deriving DecidableEq, Repr

/-- A listing under way: the jobs still to list, and the records stored
when the current job's listing started. -/
structure Listing where
  todo : List String
  started : Option (Finset (String × String))
deriving DecidableEq

structure Judge where
  epoch : Option Nat
  coveredUntil : Option ℚ
  generation : Nat
  listed : Nat
  listings : List (Nat × Listing)
  enqueued : Finset (String × String)
  bumped : List Accept
deriving DecidableEq

structure World where
  clock : ℚ
  /-- The canonical records, by job and id. -/
  stored : Finset (String × String)
  log : List Accept
  front : Front
  sent : List Post
  posts : Nat
  landed : Finset Nat
  judge : Judge
deriving DecidableEq

structure FeedConfig where
  maxIds : Nat
  postIds : Nat
  /-- The jobs judged there. -/
  jobs : List String

inductive FeedEvent
  | write (job sid : String)
  | accept (job sid : String) (t : ℚ)
  /-- A post is built; `pending`: an accepted body awaits publication. -/
  | flush (t : ℚ) (pending : Bool)
  | deliver (epoch : Nat)
  | lose (number : Nat)
  | reply (ok : Bool)
  | restartFront (t : ℚ)
  | listBegin (generation : Nat)
  | listEnd (generation : Nat) (shown : Finset (String × String))
  | listFail (generation : Nat)
  /-- An auditor's own listing. -/
  | rescan (shown : Finset (String × String))
  | restartJudge

-- ===== the front

variable (cfg : FeedConfig) (j : Judge)

namespace Front

def start (epoch : Nat) : Front := ⟨epoch, 1, [], 0, 0, none⟩

/-- `while len(self._queue) > self._max_ids: popleft`. -/
def overflow (maxIds : Nat) (queue : List Accept) : Nat :=
  queue.length - maxIds

def accepted (f : Front) (a : Accept) : Front :=
  let queue := f.queue ++ [a]
  { f with
    nextSeq := f.nextSeq + 1
    queue := queue.drop (overflow cfg.maxIds queue)
    drops := f.drops + overflow cfg.maxIds queue }

/-- The body of `flush_once` at `cut`. -/
def post (f : Front) (number : Nat) (cut : ℚ) (pending : Bool)
    (log : List Accept) : Post :=
  let chunk := f.queue.take cfg.postIds
  { number := number
    epoch := f.epoch
    dropped := f.dropsSent < f.drops
    chunk := chunk
    asOf := if chunk.length = f.queue.length ∧ pending = false then some cut
      else none
    drops := f.drops
    before := log }

def lastSeq (chunk : List Accept) : Nat :=
  (chunk.getLast?.map (·.seq)).getD 0

/-- The rest of `flush_once`, the post landed. -/
def delivered (f : Front) (p : Post) : Front :=
  { f with
    queue := f.queue.dropWhile (·.seq ≤ lastSeq p.chunk)
    dropsSent := p.drops
    awaiting := none }

end Front

-- ===== the judge

namespace Judge

def start (log : List Accept) : Judge := ⟨none, none, 0, 0, [], ∅, log⟩

def covered : Option ℚ :=
  if j.epoch = none ∨ j.listed ≠ j.generation then none
  else j.coveredUntil

/-- `receive`. -/
def receive (p : Post) (log : List Accept) : Judge :=
  let j := { j with
    enqueued := j.enqueued ∪
      ((p.chunk.filter fun a : Accept => decide (a.job ∈ cfg.jobs)).map
        Accept.key).toFinset }
  let j :=
    if j.epoch ≠ some p.epoch ∨ p.dropped = true then
      { j with
        epoch := some p.epoch
        generation := j.generation + 1
        listings := put (j.generation + 1) ⟨cfg.jobs, none⟩ j.listings
        bumped := log }
    else j
  { j with coveredUntil := p.asOf.filter (0 ≤ ·) }

/-- `_list` is through with every auditor. -/
def listingDone (generation : Nat) : Judge :=
  { j with
    listed := max j.listed generation
    listings := j.listings.filter fun x => x.1 != generation }

def listBegin (generation : Nat) (stored : Finset (String × String)) : Judge :=
  match j.listings.lookup generation with
  | none => j
  | some l =>
    if l.todo = cfg.jobs ∧ generation ≠ j.generation then
      -- `while generation == self._generation`
      { j with listings := j.listings.filter fun x => x.1 != generation }
    else
      match l.todo, l.started with
      | [], _ => j.listingDone generation
      | _ :: _, none =>
        { j with listings := put generation ⟨l.todo, some stored⟩ j.listings }
      | _ :: _, some _ => j

def listEnd (generation : Nat) (shown : Finset (String × String)) : Judge :=
  match j.listings.lookup generation with
  | some ⟨job :: todo, some seen⟩ =>
    if seen.filter (·.1 = job) ⊆ shown then
      let j := { j with
        enqueued := j.enqueued ∪ shown.filter (·.1 = job)
        listings := put generation ⟨todo, none⟩ j.listings }
      if todo = [] then j.listingDone generation else j
    else j
  | _ => j

def listFail (generation : Nat) : Judge :=
  match j.listings.lookup generation with
  | none => j
  | some _ =>
    { j with listings := put generation ⟨cfg.jobs, none⟩ j.listings }

end Judge

open Judge

-- ===== the system

namespace World

def init : World := ⟨0, ∅, [], .start 0, [], 0, ∅, .start []⟩

def step (w : World) : FeedEvent → World
  | .write job sid => { w with stored := insert (job, sid) w.stored }
  | .accept job sid t =>
    if w.clock ≤ t ∧ (job, sid) ∈ w.stored then
      let a : Accept := ⟨w.front.epoch, w.front.nextSeq, job, sid, t⟩
      { w with
        clock := t
        log := w.log ++ [a]
        front := w.front.accepted cfg a }
    else w
  | .flush t pending =>
    if w.clock ≤ t ∧ w.front.awaiting = none then
      let p := w.front.post cfg w.posts t pending w.log
      { w with
        clock := t
        posts := w.posts + 1
        sent := w.sent ++ [p]
        front := { w.front with awaiting := some p } }
    else w
  | .deliver epoch =>
    match w.sent.find? (·.epoch = epoch) with
    | none => w
    | some p =>
      { w with
        sent := w.sent.filter (·.number ≠ p.number)
        landed := insert p.number w.landed
        judge := w.judge.receive cfg p w.log }
  | .lose number =>
    { w with sent := w.sent.filter (·.number ≠ number) }
  | .reply ok =>
    match w.front.awaiting with
    | none => w
    | some p =>
      if ok then
        if p.number ∈ w.landed then
          { w with front := w.front.delivered p }
        else w
      else { w with front := { w.front with awaiting := none } }
  | .restartFront t =>
    if w.clock ≤ t then
      { w with clock := t, front := .start (w.front.epoch + 1) }
    else w
  | .listBegin generation =>
    { w with judge := w.judge.listBegin cfg generation w.stored }
  | .listEnd generation shown =>
    { w with judge := w.judge.listEnd generation shown }
  | .listFail generation =>
    { w with judge := w.judge.listFail cfg generation }
  | .rescan shown =>
    { w with
      judge := { w.judge with enqueued := w.judge.enqueued ∪ shown } }
  | .restartJudge => { w with judge := .start w.log }

end World

-- ===== the invariant

/-- An acceptance the judge has, or that its next listing is to find. -/
def Judge.Handed (a : Accept) : Prop :=
  a.job ∈ cfg.jobs → a.key ∈ j.enqueued ∨ a ∈ j.bumped

/-- What a judge's step keeps: what was handed over, and the epoch unless
everything so far is for a listing to find. -/
structure Judge.Onward (cfg : FeedConfig) (log : List Accept)
    (j j' : Judge) : Prop where
  enqueued : ∀ a ∈ log, j.Handed cfg a → j'.Handed cfg a
  bumped : j.bumped ⊆ j'.bumped
  epoch : j'.epoch = j.epoch ∨ j'.epoch = none ∨ log ⊆ j'.bumped

structure FrontOk (cfg : FeedConfig) (log : List Accept) (j : Judge)
    (f : Front) : Prop where
  queueLog : f.queue ⊆ log
  seqs : f.queue.Pairwise fun a b => a.seq < b.seq
  nextPos : 0 < f.nextSeq
  seqLt : ∀ a ∈ f.queue, 0 < a.seq ∧ a.seq < f.nextSeq
  drops : f.dropsSent ≤ f.drops
  /-- An acceptance of this front is queued, handed over, or counted
  among the drops the next post tells of. -/
  kept : ∀ a ∈ log, a.epoch = f.epoch →
    a ∈ f.queue ∨ j.Handed cfg a ∨ f.dropsSent < f.drops
  /-- Where the judge knows this front, earlier fronts' acceptances are
  for a listing to find. -/
  earlier : j.epoch = some f.epoch → ∀ a ∈ log, a.epoch ≠ f.epoch → a ∈ j.bumped

structure PostOk (cfg : FeedConfig) (clock : ℚ) (log : List Accept)
    (j : Judge) (p : Post) : Prop where
  before : p.before ⊆ log
  cut : ∀ c, p.asOf = some c → c ≤ clock ∧ ∀ a ∈ log, a.time < c → a ∈ p.before
  vouches : p.asOf.isSome → p.dropped = false → j.epoch = some p.epoch →
    ∀ a ∈ p.before, a ∈ p.chunk ∨ j.Handed cfg a

structure AwaitOk (cfg : FeedConfig) (w : World) (p : Post) : Prop where
  number : p.number < w.posts
  chunkLog : p.chunk ⊆ w.log
  same : ∀ q ∈ w.sent, q.number = p.number → q = p
  landed : p.number ∈ w.landed → (∀ a ∈ p.chunk, w.judge.Handed cfg a) ∧
      (p.dropped = true → p.before ⊆ w.judge.bumped)
  later : ∀ a ∈ w.log, a ∉ p.before → a.epoch = w.front.epoch →
    a ∈ w.front.queue ∨ p.drops < w.front.drops
  chunk : ∀ a ∈ w.front.queue, a.seq ≤ Front.lastSeq p.chunk → a ∈ p.chunk
  last : Front.lastSeq p.chunk < w.front.nextSeq
  flag : w.front.dropsSent < p.drops → p.dropped = true
  drops : w.front.dropsSent ≤ p.drops ∧ p.drops ≤ w.front.drops

structure JudgeOk (cfg : FeedConfig) (clock : ℚ) (log : List Accept)
    (j : Judge) : Prop where
  bumpedLog : j.bumped ⊆ log
  cut : ∀ c, j.coveredUntil = some c → c ≤ clock ∧
    ∀ a ∈ log, a.time < c → j.Handed cfg a
  listed : j.listed ≤ j.generation
  /-- A finished listing found what it was to find. -/
  found : j.epoch ≠ none → j.listed = j.generation →
    ∀ a ∈ j.bumped, a.job ∈ cfg.jobs → a.key ∈ j.enqueued
  /-- A listing under way found that of the jobs it is through with. -/
  listing : ∀ g l, j.listings.lookup g = some l → g ≤ j.generation ∧
    (g = j.generation → (∀ a ∈ j.bumped, a.job ∈ cfg.jobs → a.job ∉ l.todo →
        a.key ∈ j.enqueued) ∧
      ∀ seen, l.started = some seen → ∀ a ∈ j.bumped, a.key ∈ seen)

structure World.Inv (cfg : FeedConfig) (w : World) : Prop where
  log : ∀ a ∈ w.log, a.key ∈ w.stored ∧ a.time ≤ w.clock ∧
    a.epoch ≤ w.front.epoch
  front : FrontOk cfg w.log w.judge w.front
  sent : ∀ p ∈ w.sent, PostOk cfg w.clock w.log w.judge p ∧
    p.number < w.posts ∧ p.epoch ≤ w.front.epoch
  awaiting : ∀ p, w.front.awaiting = some p → AwaitOk cfg w p
  landed : ∀ n ∈ w.landed, n < w.posts
  judge : JudgeOk cfg w.clock w.log w.judge
  epoch : ∀ e, w.judge.epoch = some e → e ≤ w.front.epoch

-- ===== the judge's steps

section Judge

variable {cfg : FeedConfig} {clock : ℚ} {log : List Accept} {j j' : Judge}
  {p : Post} {f : Front}

theorem Judge.Onward.refl (j : Judge) : j.Onward cfg log j :=
  ⟨fun _ _ h => h, Subset.refl _, .inl rfl⟩

/-- A judge that is only handed more. -/
theorem Judge.Onward.more (he : j'.epoch = j.epoch) (hb : j'.bumped = j.bumped)
    (hq : j.enqueued ⊆ j'.enqueued) : j.Onward cfg log j' := by
  refine ⟨fun a _ h hj => (h hj).imp (fun x => hq x) fun x => ?_, ?_, .inl he⟩
  · rw [hb]
    exact x
  · rw [hb]
    exact Subset.refl _

theorem FrontOk.onward (h : FrontOk cfg log j f)
    (ho : j.Onward cfg log j') : FrontOk cfg log j' f := by
  refine { h with kept := ?_, earlier := ?_ }
  · intro a ha he
    exact (h.kept a ha he).imp_right (Or.imp_left (ho.enqueued a ha))
  · intro he a ha hne
    rcases ho.epoch with hs | hn | hall
    · exact ho.bumped (h.earlier (hs ▸ he) a ha hne)
    · rw [hn] at he
      exact nomatch he
    · exact hall ha

theorem PostOk.onward (h : PostOk cfg clock log j p)
    (ho : j.Onward cfg log j') : PostOk cfg clock log j' p := by
  refine ⟨h.before, h.cut, fun hs hd he a ha => ?_⟩
  rcases ho.epoch with hsame | hn | hall
  · exact (h.vouches hs hd (hsame ▸ he) a ha).imp_right
      (ho.enqueued a (h.before ha))
  · rw [hn] at he
    exact nomatch he
  · exact .inr fun _ => .inr (hall (h.before ha))

theorem Judge.onward_receive (hb : j.bumped ⊆ log) (p : Post) :
    j.Onward cfg log (j.receive cfg p log) := by
  unfold receive
  dsimp only
  split
  · exact ⟨fun a ha _ _ => .inr ha, hb, .inr (.inr (Subset.refl _))⟩
  · exact .more rfl rfl Finset.subset_union_left

/-- What a post holds is handed over by its receipt. -/
theorem Judge.handed_receive (j : Judge) (p : Post) {a : Accept}
    (ha : a ∈ p.chunk) : (j.receive cfg p log).Handed cfg a := by
  intro hj
  left
  have hmem : a.key ∈ j.enqueued ∪
      ((p.chunk.filter fun a : Accept => decide (a.job ∈ cfg.jobs)).map
        Accept.key).toFinset := by
    refine Finset.mem_union_right _ (List.mem_toFinset.2 ?_)
    exact List.mem_map_of_mem (mem_filter.2 ⟨ha, by simpa using hj⟩)
  unfold receive
  dsimp only
  split
  · exact hmem
  · exact hmem

theorem Judge.bumped_receive (j : Judge) (hd : p.dropped = true) :
    (j.receive cfg p log).bumped = log := by
  unfold receive
  dsimp only
  rw [if_pos (.inr hd)]

theorem Judge.epoch_receive (j : Judge) (p : Post) :
    (j.receive cfg p log).epoch = some p.epoch := by
  unfold receive
  dsimp only
  split
  · rfl
  · rename_i h
    push Not at h
    exact h.1

theorem Judge.epoch_listBegin (j : Judge) (g : Nat)
    (stored : Finset (String × String)) :
    (j.listBegin cfg g stored).epoch = j.epoch := by
  unfold listBegin
  repeat' split
  all_goals rfl

theorem Judge.epoch_listEnd (j : Judge) (g : Nat)
    (shown : Finset (String × String)) :
    (j.listEnd g shown).epoch = j.epoch := by
  unfold listEnd
  repeat' split
  all_goals rfl

theorem Judge.epoch_listFail (j : Judge) (g : Nat) :
    (j.listFail cfg g).epoch = j.epoch := by
  unfold listFail
  split <;> rfl

theorem JudgeOk.start (clock : ℚ) (log : List Accept) :
    JudgeOk cfg clock log (.start log) :=
  ⟨Subset.refl _, nofun, le_rfl, fun h => absurd rfl h, nofun⟩

variable (h : JudgeOk cfg clock log j)
include h

theorem JudgeOk.receive (hp : PostOk cfg clock log j p) :
    JudgeOk cfg clock log (j.receive cfg p log) := by
  have hcut : ∀ c, (j.receive cfg p log).coveredUntil = some c →
      c ≤ clock ∧ ∀ a ∈ log, a.time < c →
        (j.receive cfg p log).Handed cfg a := by
    intro c hc
    have hc' : p.asOf.filter (0 ≤ ·) = some c := hc
    have has : p.asOf = some c := (filter_eq_some_iff.1 hc').1
    refine ⟨(hp.cut c has).1, fun a ha ht => ?_⟩
    have hab := (hp.cut c has).2 a ha ht
    by_cases hbump : j.epoch ≠ some p.epoch ∨ p.dropped = true
    · intro _
      right
      unfold Judge.receive
      dsimp only
      rw [if_pos hbump]
      exact ha
    · push Not at hbump
      have hd : p.dropped = false := by simpa using hbump.2
      rcases hp.vouches (by simp [has]) hd hbump.1 a hab with hin | hh
      · exact handed_receive j p hin
      · exact (onward_receive h.bumpedLog p).enqueued a ha hh
  unfold Judge.receive at hcut ⊢
  dsimp only at hcut ⊢
  split
  · rename_i hbump
    rw [if_pos hbump] at hcut
    refine ⟨Subset.refl _, hcut, ?_, ?_, ?_⟩
    · exact h.listed.trans (Nat.le_succ _)
    · intro _ heq
      have hle := h.listed
      dsimp only at heq
      omega
    · intro g l hl
      dsimp only at hl ⊢
      rcases lookup_put_some hl with ⟨hg, rfl⟩ | ⟨-, hl⟩
      · refine ⟨hg.le, fun _ => ⟨fun a _ hj hn => absurd hj hn, nofun⟩⟩
      · have hg := (h.listing g l hl).1
        exact ⟨hg.trans (Nat.le_succ _), fun he => by omega⟩
  · rename_i hbump
    rw [if_neg hbump] at hcut
    refine ⟨h.bumpedLog, hcut, h.listed, ?_, ?_⟩
    · intro he hg a ha hj
      exact Finset.mem_union_left _ (h.found he hg a ha hj)
    · intro g l hl
      obtain ⟨hg, hcur⟩ := h.listing g l hl
      refine ⟨hg, fun he => ⟨fun a ha hj hn => ?_, (hcur he).2⟩⟩
      exact Finset.mem_union_left _ ((hcur he).1 a ha hj hn)

/-- The listing of one job or more ends the listing of a generation. -/
theorem JudgeOk.listingDone {g : Nat} (hg : g ≤ j.generation)
    (hall : g = j.generation → ∀ a ∈ j.bumped, a.job ∈ cfg.jobs →
      a.key ∈ j.enqueued) : JudgeOk cfg clock log (j.listingDone g) := by
  refine ⟨h.bumpedLog, h.cut, max_le h.listed hg, ?_, ?_⟩
  · intro he heq a ha hj
    change max j.listed g = j.generation at heq
    rcases max_choice j.listed g with hm | hm
    · exact h.found he (hm ▸ heq) a ha hj
    · exact hall (hm ▸ heq) a ha hj
  · intro g' l hl
    exact h.listing g' l (lookup_remove_some hl).2

theorem JudgeOk.dropListing (g : Nat) : JudgeOk cfg clock log
      { j with listings := j.listings.filter fun x => x.1 != g } :=
  { h with
    listing := fun g' l hl => h.listing g' l (lookup_remove_some hl).2 }

/-- A listing of the current generation moves on. -/
theorem JudgeOk.putListing {g : Nat} {l : Listing} (hg : g ≤ j.generation)
    (hl : g = j.generation →
      (∀ a ∈ j.bumped, a.job ∈ cfg.jobs → a.job ∉ l.todo → a.key ∈ j.enqueued) ∧
      ∀ seen, l.started = some seen → ∀ a ∈ j.bumped, a.key ∈ seen) :
    JudgeOk cfg clock log { j with listings := put g l j.listings } := by
  exact { h with listing := forall_lookup_put h.listing ⟨hg, hl⟩ }

theorem JudgeOk.enqueue (shown : Finset (String × String)) :
    JudgeOk cfg clock log { j with enqueued := j.enqueued ∪ shown } := by
  refine ⟨h.bumpedLog, fun c hc => ⟨(h.cut c hc).1, fun a ha ht hj => ?_⟩,
    h.listed, fun he hg a ha hj => ?_, fun g l hl => ?_⟩
  · exact ((h.cut c hc).2 a ha ht hj).imp_left
      fun x => Finset.mem_union_left _ x
  · exact Finset.mem_union_left _ (h.found he hg a ha hj)
  · obtain ⟨hg, hcur⟩ := h.listing g l hl
    refine ⟨hg, fun he => ⟨fun a ha hj hn => ?_, (hcur he).2⟩⟩
    exact Finset.mem_union_left _ ((hcur he).1 a ha hj hn)

theorem JudgeOk.listBegin (g : Nat)
    {stored : Finset (String × String)} (hs : ∀ a ∈ log, a.key ∈ stored) :
    JudgeOk cfg clock log (j.listBegin cfg g stored) ∧
      j.Onward cfg log (j.listBegin cfg g stored) := by
  unfold Judge.listBegin
  split
  · exact ⟨h, .refl j⟩
  · rename_i l hl
    obtain ⟨hg, hcur⟩ := h.listing g l hl
    split
    · exact ⟨h.dropListing g, .more rfl rfl subset_rfl⟩
    · split
      · rename_i htodo
        refine ⟨h.listingDone hg fun he a ha hj => ?_, .more rfl rfl subset_rfl⟩
        exact (hcur he).1 a ha hj (by simp [htodo])
      · refine ⟨h.putListing hg fun he => ⟨?_, ?_⟩, .more rfl rfl subset_rfl⟩
        · exact (hcur he).1
        · intro seen hseen a ha
          rw [some_inj] at hseen
          exact hseen ▸ hs a (h.bumpedLog ha)
      · exact ⟨h, .refl j⟩

theorem JudgeOk.listEnd (g : Nat) (shown : Finset (String × String)) :
    JudgeOk cfg clock log (j.listEnd g shown) ∧
      j.Onward cfg log (j.listEnd g shown) := by
  unfold Judge.listEnd
  split
  · rename_i job todo seen hl
    obtain ⟨hg, hcur⟩ := h.listing g _ hl
    split
    · rename_i hshown
      -- the job's records are enqueued, the other jobs' were before
      have hdone : g = j.generation → ∀ a ∈ j.bumped, a.job ∈ cfg.jobs →
          a.job ∉ todo →
          a.key ∈ j.enqueued ∪ shown.filter (·.1 = job) := by
        intro he a ha hj hn
        by_cases hjob : a.job = job
        · have hseen := (hcur he).2 seen rfl a ha
          refine Finset.mem_union_right _ (Finset.mem_filter.2 ⟨?_, hjob⟩)
          exact hshown (Finset.mem_filter.2 ⟨hseen, hjob⟩)
        · refine Finset.mem_union_left _ ((hcur he).1 a ha hj ?_)
          simp [hjob, hn]
      have hput : JudgeOk cfg clock log { j with
          enqueued := j.enqueued ∪ shown.filter (·.1 = job)
          listings := put g ⟨todo, none⟩ j.listings } :=
        (h.enqueue (shown.filter (·.1 = job))).putListing hg
          fun he => ⟨hdone he, nofun⟩
      have hon : j.Onward cfg log { j with
          enqueued := j.enqueued ∪ shown.filter (·.1 = job)
          listings := put g ⟨todo, none⟩ j.listings } :=
        .more rfl rfl Finset.subset_union_left
      split
      · rename_i hnil
        refine ⟨hput.listingDone hg fun he a ha hj => ?_,
          .more rfl rfl Finset.subset_union_left⟩
        exact hdone he a ha hj (by simp [hnil])
      · exact ⟨hput, hon⟩
    · exact ⟨h, .refl j⟩
  · exact ⟨h, .refl j⟩

theorem JudgeOk.listFail (g : Nat) : JudgeOk cfg clock log (j.listFail cfg g) ∧
      j.Onward cfg log (j.listFail cfg g) := by
  unfold Judge.listFail
  split
  · exact ⟨h, .refl j⟩
  · rename_i l hl
    obtain ⟨hg, -⟩ := h.listing g l hl
    exact ⟨h.putListing hg fun _ => ⟨fun a _ hj hn => absurd hj hn, nofun⟩,
      .more rfl rfl subset_rfl⟩

end Judge

-- ===== the front's steps

section Front

variable {cfg : FeedConfig} {log : List Accept} {j : Judge} {f : Front}

theorem mem_drop_or_pos {α : Type} {l : List α} {n : Nat} {x : α}
    (hx : x ∈ l) : x ∈ l.drop n ∨ 0 < n := by
  cases n with
  | zero => exact .inl hx
  | succ n => exact .inr n.succ_pos

theorem FrontOk.start {epoch : Nat} (hlog : ∀ a ∈ log, a.epoch < epoch)
    (he : ∀ e, j.epoch = some e → e < epoch) :
    FrontOk cfg log j (.start epoch) := by
  refine ⟨nofun, .nil, Nat.one_pos, nofun, le_rfl, ?_, ?_⟩
  · intro a ha hae
    have hlt := hlog a ha
    rw [hae] at hlt
    exact absurd hlt (Nat.lt_irrefl _)
  · intro hj
    exact absurd (he _ hj) (Nat.lt_irrefl _)

theorem FrontOk.accepted (h : FrontOk cfg log j f) {a : Accept}
    (hs : a.seq = f.nextSeq) (he : a.epoch = f.epoch) :
    FrontOk cfg (log ++ [a]) j (f.accepted cfg a) := by
  have hsub : (f.accepted cfg a).queue ⊆ f.queue ++ [a] :=
    drop_subset _ _
  refine ⟨?_, ?_, Nat.succ_pos _, ?_, ?_, ?_, ?_⟩
  · intro x hx
    rcases mem_append.1 (hsub hx) with hx | hx
    · exact mem_append_left _ (h.queueLog hx)
    · exact mem_append_right _ hx
  · have hpw : (f.queue ++ [a]).Pairwise fun a b => a.seq < b.seq :=
      pairwise_snoc h.seqs fun x hx => (h.seqLt x hx).2.trans_eq hs.symm
    exact hpw.sublist (drop_sublist _ _)
  · intro x hx
    change 0 < x.seq ∧ x.seq < f.nextSeq + 1
    rcases mem_append.1 (hsub hx) with hx | hx
    · have hlt := h.seqLt x hx
      omega
    · have hpos := h.nextPos
      rw [mem_singleton.1 hx, hs]
      omega
  · exact h.drops.trans (Nat.le_add_right _ _)
  · intro x hx hxe
    have hdrop : x ∈ f.queue ++ [a] → x ∈ (f.accepted cfg a).queue ∨
          (f.accepted cfg a).dropsSent < (f.accepted cfg a).drops := by
      intro hmem
      refine (mem_drop_or_pos hmem).imp_right fun hpos => ?_
      have hd := h.drops
      change f.dropsSent < f.drops + _
      omega
    rcases mem_append.1 hx with hx | hx
    · rcases h.kept x hx hxe with hq | hh | hd
      · exact (hdrop (mem_append_left _ hq)).imp_right .inr
      · exact .inr (.inl hh)
      · exact .inr (.inr (hd.trans_le (Nat.le_add_right _ _)))
    · exact (hdrop (mem_append_right _ hx)).imp_right .inr
  · intro hj x hx hne
    rcases mem_append.1 hx with hx | hx
    · exact h.earlier hj x hx hne
    · rw [mem_singleton.1 hx] at hne
      exact absurd he hne

/-- A queue in order, up to the last of its first entries. -/
theorem mem_take_of_seq {queue : List Accept} {n : Nat}
    (h : queue.Pairwise fun a b => a.seq < b.seq)
    (hpos : ∀ a ∈ queue, 0 < a.seq) {a : Accept} (ha : a ∈ queue)
    (hs : a.seq ≤ Front.lastSeq (queue.take n)) : a ∈ queue.take n := by
  by_contra hn
  have hdrop : a ∈ queue.drop n := by
    rw [← take_append_drop n queue, mem_append] at ha
    exact ha.resolve_left hn
  rw [Front.lastSeq] at hs
  cases hl : (queue.take n).getLast? with
  | none =>
    rw [hl] at hs
    have hp := hpos a ha
    change a.seq ≤ 0 at hs
    omega
  | some b =>
    rw [hl] at hs
    change a.seq ≤ b.seq at hs
    have hb : b ∈ queue.take n := mem_of_getLast? hl
    rw [← take_append_drop n queue] at h
    have hlt := (pairwise_append.1 h).2.2 b hb a hdrop
    omega

theorem lastSeq_lt {queue : List Accept} {n m : Nat} (hm : 0 < m)
    (h : ∀ a ∈ queue, a.seq < m) : Front.lastSeq (queue.take n) < m := by
  rw [Front.lastSeq]
  cases hl : (queue.take n).getLast? with
  | none => exact hm
  | some b =>
    exact h b (mem_of_mem_take (mem_of_getLast? hl))

/-- A built post vouches for what was accepted before it. -/
theorem FrontOk.post (h : FrontOk cfg log j f) {number : Nat} {cut : ℚ}
    {pending : Bool} :
    PostOk cfg cut log j (f.post cfg number cut pending log) := by
  refine ⟨Subset.refl _, ?_, ?_⟩
  · intro c hc
    change (if _ then some cut else none) = some c at hc
    split at hc
    · rw [some_inj] at hc
      exact ⟨hc.symm.le, fun a ha _ => ha⟩
    · exact nomatch hc
  · intro hs hd he a ha
    have hd' : ¬ f.dropsSent < f.drops := by
      have hdec : decide (f.dropsSent < f.drops) = false := hd
      simpa using hdec
    have hall : f.queue.take cfg.postIds = f.queue := by
      have hlen : (f.queue.take cfg.postIds).length = f.queue.length := by
        by_contra hne
        have hnone : (f.post cfg number cut pending log).asOf = none :=
          if_neg fun hx => hne hx.1
        rw [hnone] at hs
        exact nomatch hs
      exact take_of_length_le (by
        rw [length_take] at hlen
        omega)
    by_cases hae : a.epoch = f.epoch
    · rcases h.kept a ha hae with hq | hh | hdr
      · left
        change a ∈ f.queue.take cfg.postIds
        rw [hall]
        exact hq
      · exact .inr hh
      · exact absurd hdr hd'
    · exact .inr fun _ => .inr (h.earlier he a ha hae)

end Front

-- ===== every step

namespace World

variable {cfg : FeedConfig} {w : World} {t : ℚ}

theorem inv_init : init.Inv cfg := by
  refine ⟨nofun, ?_, nofun, nofun, nofun, .start 0 [], nofun⟩
  exact .start nofun nofun

/-- A step of the judge alone. -/
theorem Inv.judgeStep (h : w.Inv cfg) {j : Judge}
    (hj : JudgeOk cfg w.clock w.log j) (ho : w.judge.Onward cfg w.log j)
    (he : ∀ e, j.epoch = some e → e ≤ w.front.epoch) :
    Inv cfg { w with judge := j } := { h with
  front := h.front.onward ho
  sent p hp := ⟨(h.sent p hp).1.onward ho, (h.sent p hp).2⟩
  awaiting p hp := by
    have ha := h.awaiting p hp
    refine { ha with landed := fun hl => ⟨?_, ?_⟩ }
    · exact fun a hac =>
        ho.enqueued a (ha.chunkLog hac) ((ha.landed hl).1 a hac)
    · exact fun hd => List.Subset.trans ((ha.landed hl).2 hd) ho.bumped
  judge := hj
  epoch := he }

theorem Inv.accept (h : w.Inv cfg) {job sid : String} (ht : w.clock ≤ t)
    (hstored : (job, sid) ∈ w.stored) : Inv cfg { w with
      clock := t
      log := w.log ++ [⟨w.front.epoch, w.front.nextSeq, job, sid, t⟩]
      front := w.front.accepted cfg
        ⟨w.front.epoch, w.front.nextSeq, job, sid, t⟩ } := by
  generalize ha : (⟨w.front.epoch, w.front.nextSeq, job, sid, t⟩ : Accept) = a
  have hseq : a.seq = w.front.nextSeq := by rw [← ha]
  have hep : a.epoch = w.front.epoch := by rw [← ha]
  have htime : a.time = t := by rw [← ha]
  have hkey : a.key = (job, sid) := by rw [← ha]; rfl
  -- the new acceptance is not before any cut
  have hnew : ∀ c, c ≤ w.clock → ∀ x ∈ w.log ++ [a], x.time < c →
      x ∈ w.log := by
    intro c hc x hx hxt
    rcases mem_append.1 hx with hx | hx
    · exact hx
    · rw [mem_singleton.1 hx, htime] at hxt
      exact absurd (hc.trans ht) (not_le.2 hxt)
  refine ⟨?_, h.front.accepted hseq hep, ?_, ?_, h.landed, ?_, h.epoch⟩
  · intro x hx
    rcases mem_snoc.1 hx with hx | rfl
    · obtain ⟨h1, h2, h3⟩ := h.log x hx
      exact ⟨h1, h2.trans ht, h3⟩
    · exact ⟨hkey ▸ hstored, htime.le, hep.le⟩
  · intro p hp
    obtain ⟨hpo, hpn⟩ := h.sent p hp
    refine ⟨⟨fun x hx => mem_append_left _ (hpo.before hx), ?_,
      hpo.vouches⟩, hpn⟩
    intro c hc
    obtain ⟨hcl, hcb⟩ := hpo.cut c hc
    exact ⟨hcl.trans ht, fun x hx hxt => hcb x (hnew c hcl x hx hxt) hxt⟩
  · intro p hp
    have hw := h.awaiting p hp
    have hsub : (w.front.accepted cfg a).queue ⊆ w.front.queue ++ [a] :=
      drop_subset _ _
    have hdr : ∀ x ∈ w.front.queue ++ [a], x ∈ (w.front.accepted cfg a).queue ∨
          p.drops < (w.front.accepted cfg a).drops := by
      intro x hx
      refine (mem_drop_or_pos hx).imp_right fun hpos => ?_
      have hle := hw.drops.2
      change p.drops < w.front.drops + _
      omega
    refine ⟨hw.number, fun x hx => mem_append_left _ (hw.chunkLog hx),
      hw.same, hw.landed, ?_, ?_, hw.last.trans (Nat.lt_succ_self _),
      hw.flag, hw.drops.1, hw.drops.2.trans (Nat.le_add_right _ _)⟩
    · intro x hx hxb hxe
      rcases mem_append.1 hx with hx | hx
      · rcases hw.later x hx hxb hxe with hq | hd
        · exact hdr x (mem_append_left _ hq)
        · exact .inr (hd.trans_le (Nat.le_add_right _ _))
      · exact hdr x (mem_append_right _ hx)
    · intro x hx hxs
      rcases mem_append.1 (hsub hx) with hx | hx
      · exact hw.chunk x hx hxs
      · have hlast := hw.last
        rw [mem_singleton.1 hx, hseq] at hxs
        omega
  · refine ⟨fun x hx => mem_append_left _ (h.judge.bumpedLog hx), ?_,
      h.judge.listed, h.judge.found, h.judge.listing⟩
    intro c hc
    obtain ⟨hcl, hcb⟩ := h.judge.cut c hc
    exact ⟨hcl.trans ht, fun x hx hxt => hcb x (hnew c hcl x hx hxt) hxt⟩

/-- The clock goes on. -/
theorem Inv.tick (h : w.Inv cfg) (ht : w.clock ≤ t) :
    (∀ p ∈ w.sent, PostOk cfg t w.log w.judge p) ∧
      JudgeOk cfg t w.log w.judge := by
  refine ⟨fun p hp => ?_, ?_⟩
  · have hpo := (h.sent p hp).1
    exact ⟨hpo.before, fun c hc => ⟨(hpo.cut c hc).1.trans ht,
      (hpo.cut c hc).2⟩, hpo.vouches⟩
  · exact ⟨h.judge.bumpedLog, fun c hc => ⟨(h.judge.cut c hc).1.trans ht,
      (h.judge.cut c hc).2⟩, h.judge.listed, h.judge.found,
      h.judge.listing⟩

theorem Inv.flush (h : w.Inv cfg) {pending : Bool} (ht : w.clock ≤ t) :
    Inv cfg { w with
      clock := t
      posts := w.posts + 1
      sent := w.sent ++ [w.front.post cfg w.posts t pending w.log]
      front := { w.front with
        awaiting := some (w.front.post cfg w.posts t pending w.log) } } := by
  obtain ⟨hsent, hjudge⟩ := h.tick ht
  have hfront := h.front
  refine ⟨?_, { hfront with }, ?_, ?_, ?_, hjudge, h.epoch⟩
  · intro a ha
    obtain ⟨h1, h2, h3⟩ := h.log a ha
    exact ⟨h1, h2.trans ht, h3⟩
  · refine forall_snoc (fun p hp => ?_) ⟨hfront.post, Nat.lt_succ_self _, le_rfl⟩
    exact ⟨hsent p hp, (h.sent p hp).2.1.trans (Nat.lt_succ_self _),
      (h.sent p hp).2.2⟩
  · intro p hp
    obtain rfl : w.front.post cfg w.posts t pending w.log = p :=
      some_inj.1 hp
    refine ⟨Nat.lt_succ_self _, ?_, ?_, ?_, ?_, ?_, ?_, ?_, ?_⟩
    · exact fun a ha => hfront.queueLog (mem_of_mem_take ha)
    · intro q hq hn
      rcases mem_append.1 hq with hq | hq
      · have hlt := (h.sent q hq).2.1
        change q.number = w.posts at hn
        omega
      · exact mem_singleton.1 hq
    · intro hl
      exact absurd (h.landed _ hl) (Nat.lt_irrefl _)
    · intro a ha hb
      exact absurd ha hb
    · intro a ha hs
      exact mem_take_of_seq hfront.seqs (fun x hx => (hfront.seqLt x hx).1) ha
        hs
    · exact lastSeq_lt hfront.nextPos fun x hx => (hfront.seqLt x hx).2
    · intro hd
      exact decide_eq_true hd
    · exact ⟨hfront.drops, le_rfl⟩
  · intro n hn
    exact (h.landed n hn).trans (Nat.lt_succ_self _)

theorem Inv.deliver (h : w.Inv cfg) {p : Post} (hp : p ∈ w.sent) :
    Inv cfg { w with
      sent := w.sent.filter (·.number ≠ p.number)
      landed := insert p.number w.landed
      judge := w.judge.receive cfg p w.log } := by
  obtain ⟨hpo, hpn, hpe⟩ := h.sent p hp
  have ho : w.judge.Onward cfg w.log (w.judge.receive cfg p w.log) :=
    onward_receive h.judge.bumpedLog p
  have hstep := h.judgeStep (h.judge.receive hpo) ho (by
    intro e he
    rw [epoch_receive, some_inj] at he
    exact he ▸ hpe)
  refine ⟨hstep.log, hstep.front, fun q hq =>
    hstep.sent q (mem_filter.1 hq).1, ?_, ?_, hstep.judge, hstep.epoch⟩
  · intro q hq
    have hw := hstep.awaiting q hq
    refine { hw with
      same := fun x hx => hw.same x (mem_filter.1 hx).1, landed := ?_ }
    intro hl
    rcases Finset.mem_insert.1 hl with hl | hl
    · -- it is the post just delivered
      obtain rfl := hw.same p hp hl.symm
      refine ⟨fun a ha => handed_receive _ _ ha, fun hd => ?_⟩
      rw [bumped_receive _ hd]
      exact hpo.before
    · exact hw.landed hl
  · exact (Finset.forall_mem_insert _ _ _).2 ⟨hpn, h.landed⟩

theorem Inv.reply (h : w.Inv cfg) {p : Post}
    (hp : w.front.awaiting = some p) (hl : p.number ∈ w.landed) :
    Inv cfg { w with front := w.front.delivered p } := by
  have hw := h.awaiting p hp
  obtain ⟨hchunk, hbump⟩ := hw.landed hl
  have hf := h.front
  have hsub : (w.front.delivered p).queue.Sublist w.front.queue :=
    dropWhile_sublist _
  -- what leaves the queue was in the post
  have hleft : ∀ a ∈ w.front.queue,
      a ∈ (w.front.delivered p).queue ∨ w.judge.Handed cfg a := by
    intro a ha
    rw [← takeWhile_append_dropWhile
      (p := fun a : Accept => decide (a.seq ≤ Front.lastSeq p.chunk))
      (l := w.front.queue), mem_append] at ha
    rcases ha with ha | ha
    · right
      have hs : a.seq ≤ Front.lastSeq p.chunk := by
        simpa using mem_takeWhile_imp ha
      exact hchunk a (hw.chunk a ((takeWhile_sublist _).subset ha) hs)
    · exact .inl ha
  refine ⟨h.log, ⟨?_, hf.seqs.sublist hsub, hf.nextPos, ?_, hw.drops.2, ?_,
    hf.earlier⟩, h.sent, nofun, h.landed, h.judge, h.epoch⟩
  · exact fun a ha => hf.queueLog (hsub.subset ha)
  · exact fun a ha => hf.seqLt a (hsub.subset ha)
  · intro a ha he
    rcases hf.kept a ha he with hq | hh | hd
    · exact (hleft a hq).imp_right .inl
    · exact .inr (.inl hh)
    · -- a drop the post told of, or one after it
      by_cases hlt : p.drops < w.front.drops
      · exact .inr (.inr hlt)
      · have hdr := hw.drops
        have hflag := hw.flag (by omega)
        by_cases hab : a ∈ p.before
        · exact .inr (.inl fun _ => .inr (hbump hflag hab))
        · rcases hw.later a ha hab he with hq | hlt'
          · exact (hleft a hq).imp_right .inl
          · exact absurd hlt' hlt

theorem Inv.step (h : w.Inv cfg) (e : FeedEvent) : (w.step cfg e).Inv cfg := by
  cases e with
  | write job sid =>
    refine { h with log := fun a ha => ?_, awaiting := fun p hp => ?_ }
    · obtain ⟨h1, h2⟩ := h.log a ha
      exact ⟨Finset.mem_insert_of_mem h1, h2⟩
    · have hw := h.awaiting p hp
      exact { hw with }
  | accept job sid t =>
    simp only [World.step]
    split
    · rename_i hc
      exact h.accept hc.1 hc.2
    · exact h
  | flush t pending =>
    simp only [World.step]
    split
    · rename_i hc
      exact h.flush hc.1
    · exact h
  | deliver epoch =>
    simp only [World.step]
    split
    · exact h
    · rename_i p hp
      exact h.deliver (mem_of_find?_eq_some hp)
  | lose number =>
    refine ⟨h.log, h.front, fun p hp => h.sent p (mem_filter.1 hp).1,
      fun p hp => ?_, h.landed, h.judge, h.epoch⟩
    have hw := h.awaiting p hp
    exact { hw with same := fun q hq => hw.same q (mem_filter.1 hq).1 }
  | reply ok =>
    simp only [World.step]
    split
    · exact h
    · rename_i p hp
      split
      · split
        · rename_i hl
          exact h.reply hp hl
        · exact h
      · have hf := h.front
        exact ⟨h.log, { hf with }, h.sent, nofun, h.landed, h.judge, h.epoch⟩
  | restartFront t =>
    simp only [World.step]
    split
    · rename_i ht
      obtain ⟨hsent, hjudge⟩ := h.tick ht
      refine ⟨fun a ha => ?_, ?_, fun p hp => ⟨hsent p hp, ?_, ?_⟩, nofun,
        h.landed, hjudge, fun e he => ?_⟩
      · obtain ⟨h1, h2, h3⟩ := h.log a ha
        exact ⟨h1, h2.trans ht, h3.trans (Nat.le_succ _)⟩
      · exact .start (fun a ha => Nat.lt_succ_of_le (h.log a ha).2.2)
          fun e he => Nat.lt_succ_of_le (h.epoch e he)
      · exact (h.sent p hp).2.1
      · exact (h.sent p hp).2.2.trans (Nat.le_succ _)
      · exact (h.epoch e he).trans (Nat.le_succ _)
    · exact h
  | listBegin g =>
    obtain ⟨hj, ho⟩ := h.judge.listBegin g fun a ha => (h.log a ha).1
    refine h.judgeStep hj ho fun e he => h.epoch e ?_
    rwa [epoch_listBegin] at he
  | listEnd g shown =>
    obtain ⟨hj, ho⟩ := h.judge.listEnd g shown
    refine h.judgeStep hj ho fun e he => h.epoch e ?_
    rwa [epoch_listEnd] at he
  | listFail g =>
    obtain ⟨hj, ho⟩ := h.judge.listFail g
    refine h.judgeStep hj ho fun e he => h.epoch e ?_
    rwa [epoch_listFail] at he
  | rescan shown =>
    exact h.judgeStep (h.judge.enqueue shown)
      (.more rfl rfl Finset.subset_union_left) h.epoch
  | restartJudge =>
    refine h.judgeStep (.start _ _) ⟨fun a ha _ _ => .inr ha,
      h.judge.bumpedLog, .inr (.inl rfl)⟩ nofun

end World

/-- After any run: when `covered()` answers an instant, every submission
of a job judged there that any front accepted before it has been enqueued
at its auditor. -/
theorem covered_enqueued (cfg : FeedConfig) (events : List FeedEvent)
    (c : ℚ) (hc : (events.foldl (World.step cfg) .init).judge.covered =
      some c) (a : Accept) (ha : a ∈ (events.foldl (World.step cfg) .init).log)
    (hjob : a.job ∈ cfg.jobs) (ht : a.time < c) : (a.job, a.sid) ∈
      (events.foldl (World.step cfg) .init).judge.enqueued := by
  have h : (events.foldl (World.step cfg) .init).Inv cfg :=
    foldlRecOn _ _ World.inv_init fun _ hw e _ => hw.step e
  generalize events.foldl (World.step cfg) .init = w at h hc ha
  rw [covered] at hc
  split at hc
  · exact nomatch hc
  · rename_i hlisted
    push Not at hlisted
    rcases (h.judge.cut c hc).2 a ha ht hjob with hq | hb
    · exact hq
    · exact h.judge.found hlisted.1 hlisted.2 a hb hjob

/-- A front whose queue holds one id: the first acceptance is dropped, the
second posted, and the listing the judge then makes finds the first. -/
def overflowRun : List FeedEvent :=
  [.write "job" "a", .accept "job" "a" 1, .write "job" "b",
    .accept "job" "b" 2, .flush 3 false, .deliver 0, .reply true,
    .listBegin 1, .listEnd 1 {("job", "a"), ("job", "b")}]

theorem covered_enqueued_dropped :
    (overflowRun.foldl (World.step ⟨1, 10, ["job"]⟩) .init).judge.covered =
        some 3 ∧
      ("job", "a") ∈ (overflowRun.foldl (World.step ⟨1, 10, ["job"]⟩)
        .init).judge.enqueued := by
  have hc : (overflowRun.foldl (World.step ⟨1, 10, ["job"]⟩)
      .init).judge.covered = some 3 := by decide +kernel
  refine ⟨hc, ?_⟩
  exact covered_enqueued ⟨1, 10, ["job"]⟩ overflowRun 3 hc
    ⟨0, 1, "job", "a", 1⟩ (by decide +kernel) (by simp) (by norm_num)

end Reliquary.Audit.Feed
