/-
What the votes of the dispatcher's items guarantee, over every run.

# The invariant

- `Sound`: the votes an item counts, each by an executor of its own and a
  provider of its own, and what its decision rests on (`Decided`).
- `Board`: an undecided item is queued or leased, once.
- `LeaseOk`: the executor of a lease is not quarantined and neither it nor
  its provider ever voted on the item.
- `Inv` ties them with the history. Inside a step it has slack: the items
  that are neither queued nor leased (`loose`), the votes of a fresh
  quarantine that still count (`due`), the item that just took its third
  vote (`full`). `Steady` is `Inv` without slack: what holds between steps.
- `Onward`: an item resolves at most once. `Inv` says so from the dispatcher
  `b` on; taken at the state before a step, it is what the step keeps.

# What a run promises

`Guarded`: a vote comes in on an undrawn grade item that already holds one
only while it holds a box failure, and no executor claims while an undecided
item lost a vote of its provider to a quarantine. `lone_outvoter`
(Sanction.lean) is a run that breaks the first.
-/
import Reliquary.Grade.Voting

namespace Reliquary.Grade

open Store List Dispatcher Work

-- ===== evidence

/-- Votes of two providers that agree with the result. -/
def Backed (cfg : GradeConfig) (w : Work) (d : Decision) : Prop :=
  ∃ r, d.result = some r ∧ d.providers.Nodup ∧ 2 ≤ d.providers.length ∧
    ∀ p ∈ d.providers, ∃ e ∈ d.gradedBy, cfg.provider e = some p ∧
      ∃ a, (e, a) ∈ w.results ∧
        decisionKey w.item.mode a = decisionKey w.item.mode r

/-- The decision goes against the miner. -/
def Adverse (w : Work) (d : Decision) : Prop :=
  d.status = .unjudgeable ∨ (d.status = .ok ∧ w.item.mode = .replay ∧
    ∃ r, d.result = some r ∧ replayCertified r = false)

structure Decided (cfg : GradeConfig) (w : Work) (d : Decision) : Prop where
  counted : ∀ e ∈ d.gradedBy, e ∈ w.voters ∧ e ∉ w.quarantinedThen
  shown : d.status = .ok → ∃ r, d.result = some r
  backed : Adverse w d → Backed cfg w d

/-- The executor voted against agreeing, standing votes of two providers. -/
structure Outvoted (cfg : GradeConfig) (w : Work) (x : Expulsion) : Prop where
  decided : w.decision.isSome = true
  standing : ∀ e ∈ x.agreeing, e ∉ x.quarantinedThen
  agree : ∃ k, (∀ e ∈ x.agreeing, ∃ a, (e, a) ∈ w.results ∧
      decisionKey w.item.mode a = k) ∧
    ∃ b, (x.executor, b) ∈ w.results ∧ decisionKey w.item.mode b ≠ k
  two : 2 ≤ (x.agreeing.filterMap cfg.provider).toFinset.card

/-- The votes an item counts, among all taken on it. -/
structure Sound (cfg : GradeConfig) (votes : List Vote) (i : Nat) (w : Work) :
    Prop where
  keys : w.providers.map Prod.fst = w.voters
  nodup : w.voters.Nodup
  known : ∀ x ∈ w.providers, ⟨i, x.1, x.2⟩ ∈ votes ∧ cfg.provider x.1 = some x.2
  cast : ∀ v ∈ votes, v.work = i → v.executor ∈ w.excluded
  decided : ∀ d, w.decision = some d → Decided cfg w d

/-- A lease of an undecided item to an executor that can still vote on it. -/
structure LeaseOk (cfg : GradeConfig) (s : Dispatcher) (l : Lease) : Prop where
  undecided : ∃ w, s.works.lookup l.work = some w ∧ w.decision = none
  standing : l.executor ∉ s.quarantined
  fresh : ∀ v ∈ s.votes, v.work = l.work →
    v.executor ≠ l.executor ∧ cfg.provider l.executor ≠ some v.provider

/-- The queue and the leases, no item in two places. -/
structure Board (loose : List Nat) (s : Dispatcher) : Prop where
  queue_nodup : s.queue.Nodup
  queue_lt : ∀ i ∈ s.queue, i < s.nextWork
  apart : ∀ i ∈ s.queue, i ∉ s.leased
  loose_apart : ∀ i ∈ loose, i ∉ s.queue ∧ i ∉ s.leased
  leased_nodup : s.leased.Nodup
  lease_ids : (s.leases.map Prod.fst).Nodup
  lease_lt : ∀ l ∈ s.leases, l.1 < s.nextLease

/-- No executor and no provider votes twice on an item. -/
structure Once (s : Dispatcher) : Prop where
  vote_lt : ∀ v ∈ s.votes, v.work < s.nextWork
  executor : (s.votes.map fun v => (v.work, v.executor)).Nodup
  provider : (s.votes.map fun v => (v.work, v.provider)).Nodup

/-- Every item is still there, and decided as it was. -/
def Onward (s s' : Dispatcher) : Prop :=
  ∀ i w, s.works.lookup i = some w → ∃ w', s'.works.lookup i = some w' ∧
    w'.item = w.item ∧ ∀ d, w.decision = some d → w'.decision = some d

structure Inv (cfg : GradeConfig) (b : Dispatcher) (loose : List Nat)
    (due : Nat → String → Prop) (full : Option Nat) (s : Dispatcher) :
    Prop where
  sound : ∀ i w, s.works.lookup i = some w → Sound cfg s.votes i w
  standing : ∀ i w, s.works.lookup i = some w → w.decision = none →
    ∀ e ∈ w.voters, e ∈ s.quarantined → due i e
  few : ∀ i w, s.works.lookup i = some w → w.decision = none →
    full ≠ some i → w.results.length ≤ 2
  placed : ∀ i w, s.works.lookup i = some w → w.decision = none →
    i ∈ s.queue ∨ i ∈ s.leased ∨ i ∈ loose
  numbered : ∀ i w, s.works.lookup i = some w → i < s.nextWork
  board : Board loose s
  lease : ∀ l ∈ s.leases, LeaseOk cfg s l.2
  once : Once s
  outvoted : ∀ x ∈ s.expulsions,
    ∃ w, s.works.lookup x.work = some w ∧ Outvoted cfg w x
  onward : Onward b s

/-- The invariant between steps. -/
abbrev Steady (cfg : GradeConfig) (b s : Dispatcher) : Prop :=
  Inv cfg b [] (fun _ _ => False) none s

variable {cfg : GradeConfig} {b s : Dispatcher} {loose : List Nat}
  {due : Nat → String → Prop} {full : Option Nat} {i : Nat} {w : Work}
  {now : ℚ} {e : String} {d : Decision} {g : Key × List String} {w' : Work}
  {votes : List Vote} {q : Finset String}

theorem Onward.refl (s : Dispatcher) : Onward s s :=
  fun _ w hw => ⟨w, hw, rfl, fun _ hd => hd⟩

theorem Onward.trans {s' : Dispatcher} (h : Onward b s) (h' : Onward s s') :
    Onward b s' := by
  intro i w hw
  obtain ⟨w', hw', hitem, hdec⟩ := h i w hw
  obtain ⟨w'', hw'', hitem', hdec'⟩ := h' i w' hw'
  exact ⟨w'', hw'', hitem'.trans hitem, fun d hd => hdec' d (hdec d hd)⟩

-- ===== one item kept

/-- Everything the invariant reads of an item is kept. -/
structure Same (w w' : Work) : Prop where
  item : w'.item = w.item
  decision : w'.decision = w.decision
  results : w'.results = w.results
  providers : w'.providers = w.providers
  excluded : w'.excluded = w.excluded
  quarantinedThen : w'.quarantinedThen = w.quarantinedThen

theorem Decided.of_same (h : Decided cfg w d)
    (hi : w'.item = w.item) (hr : w'.results = w.results)
    (hq : w'.quarantinedThen = w.quarantinedThen) : Decided cfg w' d := by
  refine ⟨?_, h.shown, ?_⟩
  · intro e he
    rw [voters, hr, hq]
    exact h.counted e he
  · intro ha
    unfold Adverse at ha
    rw [hi] at ha
    unfold Backed
    rw [hi, hr]
    exact h.backed ha

theorem Outvoted.of_same {x : Expulsion} (h : Outvoted cfg w x)
    (hi : w'.item = w.item) (hr : w'.results = w.results)
    (hd : w'.decision = w.decision) : Outvoted cfg w' x := by
  refine ⟨?_, h.standing, ?_, h.two⟩
  · rw [hd]
    exact h.decided
  · rw [hi, hr]
    exact h.agree

theorem Same.sound (h : Same w w')
    (hs : Sound cfg votes i w) : Sound cfg votes i w' := by
  refine ⟨?_, ?_, ?_, ?_, ?_⟩
  · rw [voters, h.providers, h.results]
    exact hs.keys
  · rw [voters, h.results]
    exact hs.nodup
  · rw [h.providers]
    exact hs.known
  · rw [h.excluded]
    exact hs.cast
  · intro d hd
    rw [h.decision] at hd
    exact (hs.decided d hd).of_same h.item h.results h.quarantinedThen

-- ===== reads

namespace Dispatcher

@[simp] theorem lookup_update (s : Dispatcher) (i j : Nat) (f : Work → Work) :
    (s.update i f).works.lookup j
      = if j = i then (s.works.lookup i).map f else s.works.lookup j := by
  unfold update
  cases hl : s.works.lookup i with
  | none =>
    by_cases hj : j = i
    · simp [hj, hl]
    · simp [hj]
  | some w => simp

/-- An update changes the works only. -/
theorem update_eq (s : Dispatcher) (i : Nat) (f : Work → Work) :
    s.update i f = { s with works := (s.update i f).works } := by
  unfold update
  split
  · rfl
  · rfl

@[simp] theorem update_queue (s : Dispatcher) (i : Nat) (f : Work → Work) :
    (s.update i f).queue = s.queue := by
  rw [update_eq]

@[simp] theorem update_leases (s : Dispatcher) (i : Nat) (f : Work → Work) :
    (s.update i f).leases = s.leases := by
  rw [update_eq]

@[simp] theorem update_quarantined (s : Dispatcher) (i : Nat)
    (f : Work → Work) : (s.update i f).quarantined = s.quarantined := by
  rw [update_eq]

@[simp] theorem update_votes (s : Dispatcher) (i : Nat) (f : Work → Work) :
    (s.update i f).votes = s.votes := by
  rw [update_eq]

theorem lookup_cases {f : Work → Work} {j : Nat}
    (h : (s.update i f).works.lookup j = some w') :
    (j = i ∧ ∃ w, s.works.lookup i = some w ∧ w' = f w) ∨
      (j ≠ i ∧ s.works.lookup j = some w') := by
  rw [lookup_update] at h
  by_cases hj : j = i
  · rw [if_pos hj] at h
    obtain ⟨w, hw, rfl⟩ := Option.map_eq_some_iff.1 h
    exact .inl ⟨hj, w, hw, rfl⟩
  · rw [if_neg hj] at h
    exact .inr ⟨hj, h⟩

end Dispatcher

open Dispatcher

-- ===== one item changed

variable {f : Work → Work}

/-- A read after a change of an item that is known. -/
theorem lookup_changed {j : Nat} {w' : Work} (hw : s.works.lookup i = some w)
    (h : (s.update i f).works.lookup j = some w') :
    (j = i ∧ w' = f w) ∨ (j ≠ i ∧ s.works.lookup j = some w') := by
  refine (lookup_cases h).imp_left ?_
  rintro ⟨rfl, w₀, hw₀, rfl⟩
  rw [hw] at hw₀
  cases hw₀
  exact ⟨rfl, rfl⟩

/-- What holds of every item after one changes. -/
theorem forall_changed {P : Nat → Work → Prop} (hw : s.works.lookup i = some w)
    (hi : P i (f w))
    (h : ∀ j, j ≠ i → ∀ w', s.works.lookup j = some w' → P j w') :
    ∀ j w', (s.update i f).works.lookup j = some w' → P j w' := by
  intro j w' hl
  rcases lookup_changed hw hl with ⟨rfl, rfl⟩ | ⟨hj, hl⟩
  · exact hi
  · exact h j hj w' hl

/-- Votes on another item change nothing for an item. -/
theorem Sound.more {new : List Vote} {j : Nat} (hs : Sound cfg votes j w)
    (hnew : ∀ v ∈ new, v.work = i) (hj : j ≠ i) :
    Sound cfg (votes ++ new) j w := by
  refine { hs with
    known := fun x hx => (hs.known x hx).imp_left (mem_append_left _)
    cast := ?_ }
  intro v hv hvj
  rcases mem_append.1 hv with hv | hv
  · exact hs.cast v hv hvj
  · exact absurd (hvj.symm.trans (hnew v hv)) hj

variable {due' : Nat → String → Prop}

/-- One item changes and takes votes; the queue and the leases stay. -/
theorem Inv.change {full' : Option Nat} {new : List Vote}
    (h : Inv cfg b loose due full s) (hw : s.works.lookup i = some w)
    (hsound : Sound cfg (s.votes ++ new) i (f w)) (hnew : ∀ v ∈ new, v.work = i)
    (hstanding : (f w).decision = none → ∀ e ∈ (f w).voters,
      e ∈ s.quarantined → due' i e) (hdue : ∀ j e, j ≠ i → due j e → due' j e)
    (hopen : (f w).decision = none → w.decision = none ∧
      (full' ≠ some i → (f w).results.length ≤ 2))
    (hfull : ∀ j ≠ i, full' ≠ some j → full ≠ some j)
    (hleased : i ∈ s.leased → (f w).decision = none ∧ new = [])
    (hitem : (f w).item = w.item) (hdone : w.decision.isSome = true →
      (f w).results = w.results ∧ (f w).decision = w.decision)
    (honce : Once { s with votes := s.votes ++ new }) :
    Inv cfg b loose due' full'
      { s.update i f with votes := s.votes ++ new } := by
  rw [update_eq]
  refine ⟨forall_changed hw hsound ?_, forall_changed hw hstanding ?_,
    forall_changed hw (fun hd => (hopen hd).2) ?_,
    forall_changed hw (fun hd => h.placed i w hw (hopen hd).1) ?_,
    forall_changed hw (h.numbered i w hw) fun j _ => h.numbered j,
    { h.board with }, ?_, { honce with }, ?_, h.onward.trans ?_⟩
  · exact fun j hj w' hl => (h.sound j w' hl).more hnew hj
  · exact fun j hj w' hl hd e he hq =>
      hdue j e hj (h.standing j w' hl hd e he hq)
  · exact fun j hj w' hl hd hf => h.few j w' hl hd (hfull j hj hf)
  · exact fun j _ => h.placed j
  · intro l hl
    obtain ⟨⟨w₀, hw₀, hd₀⟩, hq, hfresh⟩ := h.lease l hl
    by_cases hj : l.2.work = i
    · obtain ⟨hd, rfl⟩ := hleased (mem_map.2 ⟨l, hl, hj⟩)
      refine ⟨⟨f w, by simp [hj, hw], hd⟩, hq, ?_⟩
      simpa using hfresh
    · refine ⟨⟨w₀, by simp [hj, hw₀], hd₀⟩, hq, ?_⟩
      intro v hv hvl
      rcases mem_append.1 hv with hv | hv
      · exact hfresh v hv hvl
      · exact absurd (hvl.symm.trans (hnew v hv)) hj
  · intro x hx
    obtain ⟨w₀, hw₀, ho⟩ := h.outvoted x hx
    by_cases hj : x.work = i
    · rw [hj, hw] at hw₀
      cases hw₀
      obtain ⟨hres, hdec⟩ := hdone ho.decided
      exact ⟨f w, by simp [hj, hw], ho.of_same hitem hres hdec⟩
    · exact ⟨w₀, by simp [hj, hw₀], ho⟩
  · intro j w₀ hw₀
    by_cases hj : j = i
    · rw [hj, hw] at hw₀
      cases hw₀
      refine ⟨f w, by simp [hj, hw], hitem, fun d hd => ?_⟩
      exact (hdone (by rw [hd]; rfl)).2.trans hd
    · exact ⟨w₀, by simp [hj, hw₀], rfl, fun _ hd => hd⟩

/-- One item changes; the history stays too. -/
theorem Inv.update (h : Inv cfg b loose due full s)
    (hw : s.works.lookup i = some w) (hsound : Sound cfg s.votes i (f w))
    (hstanding : (f w).decision = none → ∀ e ∈ (f w).voters,
      e ∈ s.quarantined → due' i e) (hdue : ∀ j e, j ≠ i → due j e → due' j e)
    (hopen : (f w).decision = none →
      w.decision = none ∧ (f w).results.length ≤ w.results.length)
    (hleased : i ∈ s.leased → (f w).decision = none)
    (hitem : (f w).item = w.item) (hdone : w.decision.isSome = true →
      (f w).results = w.results ∧ (f w).decision = w.decision) :
    Inv cfg b loose due' full (s.update i f) := by
  have hvotes := append_nil s.votes
  have heq : s.update i f = { s.update i f with votes := s.votes ++ [] } := by
    rw [hvotes, ← update_votes s i f]
  rw [heq]
  refine h.change hw (hvotes.symm ▸ hsound) nofun hstanding hdue ?_
    (fun _ _ hf => hf) (fun hl => ⟨hleased hl, rfl⟩) hitem hdone ?_
  · intro hd
    obtain ⟨hd₀, hlen⟩ := hopen hd
    exact ⟨hd₀, fun hf => hlen.trans (h.few i w hw hd₀ hf)⟩
  · rw [hvotes]
    exact h.once

/-- A change the invariant does not read. -/
theorem Inv.quiet (h : Inv cfg b loose due full s)
    (hf : ∀ w, s.works.lookup i = some w → Same w (f w)) :
    Inv cfg b loose due full (s.update i f) := by
  cases hw : s.works.lookup i with
  | none =>
    have heq : s.update i f = s := by
      simp [Dispatcher.update, hw]
    rw [heq]
    exact h
  | some w =>
    have hs := hf w hw
    apply h.update hw (hs.sound (h.sound i w hw))
    · intro hd e he hq
      rw [voters, hs.results] at he
      exact h.standing i w hw (hs.decision ▸ hd) e he hq
    · exact fun j e _ hdue => hdue
    · intro hd
      exact ⟨hs.decision ▸ hd, by rw [hs.results]⟩
    · intro hl
      obtain ⟨l, hmem, rfl⟩ := mem_map.1 hl
      obtain ⟨w₀, hw₀, hd₀⟩ := (h.lease l hmem).undecided
      rw [hw] at hw₀
      cases hw₀
      rw [hs.decision]
      exact hd₀
    · exact hs.item
    · exact fun _ => ⟨hs.results, hs.decision⟩

theorem Inv.failedBy (h : Inv cfg b loose due full s) :
    Inv cfg b loose due full (s.failedBy now e i) :=
  h.quiet fun _ _ => ⟨rfl, rfl, rfl, rfl, rfl, rfl⟩

/-- An item that is not under a lease is decided. -/
theorem Inv.resolve (h : Inv cfg b loose due full s) (hleased : i ∉ s.leased)
    (hd : ∀ w, s.works.lookup i = some w → w.decision = none →
      Decided cfg { w with
        decision := some d
        quarantinedThen := s.quarantined } d) :
    Inv cfg b loose due full (s.resolve i d) := by
  unfold Dispatcher.resolve
  by_cases hopen : ∃ w, s.works.lookup i = some w ∧ w.decision = none
  · obtain ⟨w, hw, hdec⟩ := hopen
    have hset : (if w.decision.isSome = true then w else
        { w with decision := some d, quarantinedThen := s.quarantined }) =
        { w with decision := some d, quarantinedThen := s.quarantined } := by
      rw [hdec]
      rfl
    have hs := h.sound i w hw
    apply h.update hw
    · rw [hset]
      refine { hs with decided := ?_ }
      intro d' hd'
      cases hd'
      exact hd w hw hdec
    · rw [hset]
      exact nofun
    · exact fun j e _ hdue => hdue
    · rw [hset]
      exact nofun
    · exact fun hl => absurd hl hleased
    · rw [hset]
    · intro hsome
      rw [hdec] at hsome
      cases hsome
  · -- decided already, or unknown: nothing changes
    refine h.quiet fun w hw => ?_
    rw [if_pos (Option.isSome_iff_ne_none.2 fun hd => hopen ⟨w, hw, hd⟩)]
    exact ⟨rfl, rfl, rfl, rfl, rfl, rfl⟩

/-- A vote that goes to no agreement: any other decision is sound when it
names standing voters only. -/
theorem decided_plain (hstatus : d.status ≠ .unjudgeable ∧ d.status ≠ .ok)
    (hcount : ∀ e ∈ d.gradedBy, e ∈ w.voters ∧ e ∉ q) :
    Decided cfg { w with decision := some d, quarantinedThen := q } d := by
  refine ⟨hcount, fun h => absurd h hstatus.2, ?_⟩
  · rintro (h | ⟨h, -⟩)
    · exact absurd h hstatus.1
    · exact absurd h hstatus.2

theorem mem_gradedBy (w : Work) : e ∈ (w.agreement g).gradedBy ↔ e ∈ g.2 := by
  rw [agreement, mem_sortSet, mem_toFinset]

/-- The agreement of the picked group, with every voter standing. -/
theorem decided_agreement (hs : Sound cfg votes i w) (hb : w.best = some g)
    (hneed : w.agreeNeeded ≤ (w.providersOf g.2).card)
    (hq : ∀ e ∈ w.voters, e ∉ q) : Decided cfg { w with
      decision := some (w.agreement g)
      quarantinedThen := q } (w.agreement g) := by
  -- the result is a vote of the group
  obtain ⟨e₀, a₀, hres, hr₀, hk₀⟩ : ∃ e₀ a₀,
      (w.agreement g).result = some a₀ ∧ (e₀, a₀) ∈ w.results ∧
        decisionKey w.item.mode a₀ = g.1 := by
    obtain ⟨e, he⟩ := best_nonempty hb
    cases hh : sortSet g.2.toFinset with
    | nil =>
      have hin := (mem_gradedBy w).2 he
      rw [agreement, hh] at hin
      cases hin
    | cons e₀ es =>
      have hin : e₀ ∈ g.2 := by
        apply (mem_gradedBy w).1
        rw [agreement, hh]
        exact mem_cons_self
      obtain ⟨a₀, hr₀, hk₀⟩ := (mem_best hb).1 hin
      refine ⟨e₀, a₀, ?_, hr₀, hk₀⟩
      simp only [agreement, hh, head?_cons, Option.bind_some]
      exact lookup_of_mem hs.nodup hr₀
  refine ⟨?_, fun _ => ⟨a₀, hres⟩, ?_⟩
  · intro e he
    have hv := best_sub hb ((mem_gradedBy w).1 he)
    exact ⟨hv, hq e hv⟩
  · intro hadv
    have htwo : 2 ≤ (w.providersOf g.2).card := by
      refine le_trans (le_of_eq (two_of_failing hr₀ ?_).symm) hneed
      rcases hadv with hun | ⟨-, hm, r, hr, hc⟩
      · refine .inl (decisionKey_box.1 (hk₀.trans ?_))
        by_contra hne
        simp [agreement, hne] at hun
      · rw [hres] at hr
        cases hr
        exact .inr ⟨hm, hc⟩
    refine ⟨a₀, hres, ?_, ?_, ?_⟩
    · exact nodup_sortSet (w.providersOf (sortSet g.2.toFinset))
    · rw [agreement, ← toFinset_card_of_nodup (nodup_sortSet _),
        toFinset_sortSet, providersOf_sorted]
      exact htwo
    · intro p hp
      rw [agreement, mem_sortSet, providersOf_sorted,
        mem_providersOf] at hp
      obtain ⟨e, he, hl⟩ := hp
      obtain ⟨a, ha, hk⟩ := (mem_best hb).1 he
      exact ⟨e, (mem_gradedBy w).2 he, (hs.known _ (mem_of_lookup hl)).2, a, ha,
        hk.trans hk₀.symm⟩

-- ===== placing

/-- A decided item needs no place, and may hold any number of votes. -/
theorem Inv.tighten (h : Inv cfg b (i :: loose) due full s)
    (hfull : full = none ∨ full = some i)
    (hi : ∀ w, s.works.lookup i = some w → w.decision ≠ none) :
    Inv cfg b loose due none s := by
  have hb := h.board
  refine { h with
    few := ?_, placed := ?_, board := ⟨hb.1, hb.2, hb.3, ?_, hb.5, hb.6, hb.7⟩ }
  · intro j w hl hd _
    rcases hfull with rfl | rfl
    · exact h.few j w hl hd nofun
    · refine h.few j w hl hd fun heq => ?_
      cases heq
      exact hi w hl hd
  · intro j w hl hd
    rcases h.placed j w hl hd with hq | hq | hq
    · exact .inl hq
    · exact .inr (.inl hq)
    · rcases mem_cons.1 hq with rfl | hq
      · exact absurd hd (hi w hl)
      · exact .inr (.inr hq)
  · exact fun j hj => hb.loose_apart j (mem_cons_of_mem _ hj)

theorem resolve_decided :
    ∀ w, (s.resolve i d).works.lookup i = some w → w.decision ≠ none := by
  intro w hl
  unfold resolve at hl
  rw [lookup_update, if_pos rfl] at hl
  obtain ⟨w₀, -, rfl⟩ := Option.map_eq_some_iff.1 hl
  by_cases hd : w₀.decision.isSome = true
  · rw [if_pos hd]
    exact Option.isSome_iff_ne_none.1 hd
  · rw [if_neg hd]
    exact nofun

theorem uncertified_decided :
    ∀ w, (s.uncertified i).works.lookup i = some w → w.decision ≠ none := by
  intro w hl
  unfold uncertified at hl
  cases hw : s.works.lookup i with
  | none =>
    rw [hw] at hl
    rw [hw] at hl
    cases hl
  | some w₀ =>
    rw [hw] at hl
    exact resolve_decided w hl

/-- A replay no vote certifies: every voter stands. -/
theorem Inv.uncertified (h : Inv cfg b loose (fun _ _ => False) full s)
    (hleased : i ∉ s.leased) :
    Inv cfg b loose (fun _ _ => False) full (s.uncertified i) := by
  unfold Dispatcher.uncertified
  cases hw : s.works.lookup i with
  | none => exact h
  | some w =>
    refine h.resolve hleased (of_read hw fun hd => ?_)
    refine decided_plain ⟨by simp, by simp⟩ ?_
    intro e he
    rw [mem_sortSet, mem_toFinset] at he
    exact ⟨he, fun hq => h.standing i w hw hd e he hq⟩

theorem requeue_decided
    (hi : ∀ w, s.works.lookup i = some w → w.decision ≠ none) :
    s.requeue now i = s := by
  unfold requeue
  cases hw : s.works.lookup i with
  | none => rfl
  | some w =>
    have hsome := Option.isSome_iff_ne_none.2 (hi w hw)
    exact if_pos (.inl hsome)

theorem requeue_queued (hi : i ∈ s.queue) : s.requeue now i = s := by
  unfold requeue
  cases hw : s.works.lookup i with
  | none => rfl
  | some w => exact if_pos (.inr hi)

theorem requeue_back (hw : s.works.lookup i = some w)
    (hd : w.decision = none) (hi : i ∉ s.queue) : s.requeue now i =
      { s with
        works := put i { w with sweptAt := some now } s.works
        queue := if w.results = [] then s.queue ++ [i] else i :: s.queue } := by
  have hcond : ¬ (w.decision.isSome = true ∨ i ∈ s.queue) := by
    simp [hd, hi]
  unfold requeue
  rw [hw]
  exact if_neg hcond

/-- An item that had no place goes back to the queue. -/
theorem Inv.requeue (h : Inv cfg b (i :: loose) due full s) (hi : i ∉ loose)
    (hfull : full = none ∨ (full = some i ∧
      ∀ w, s.works.lookup i = some w → w.results.length ≤ 2)) :
    Inv cfg b loose due none (s.requeue now i) := by
  by_cases hback : ∃ w, s.works.lookup i = some w ∧ w.decision = none
  · obtain ⟨w, hw, hd⟩ := hback
    have hnot := h.board.loose_apart i mem_cons_self
    have hq : Inv cfg b (i :: loose) due full
        (s.update i fun w => { w with sweptAt := some now }) :=
      h.quiet fun _ _ => ⟨rfl, rfl, rfl, rfl, rfl, rfl⟩
    rw [requeue_back hw hd hnot.1]
    rw [Dispatcher.update, hw] at hq
    have hmem : ∀ j, j ∈ (if w.results = [] then s.queue ++ [i]
        else i :: s.queue) ↔ j = i ∨ j ∈ s.queue := by
      intro j
      split
      · rw [mem_append, mem_singleton, or_comm]
      · rw [mem_cons]
    have hb := hq.board
    refine ⟨hq.sound, hq.standing, ?_, ?_, hq.numbered, ⟨?_, ?_, ?_, ?_,
      hb.5, hb.6, hb.7⟩, fun l hl => { hq.lease l hl with },
      { hq.once with }, hq.outvoted, hq.onward⟩
    · intro j w' hl hd' _
      rcases hfull with rfl | ⟨rfl, hf⟩
      · exact hq.few j w' hl hd' nofun
      · rcases lookup_put_some hl with ⟨-, rfl⟩ | ⟨hj, -⟩
        · exact hf w hw
        · exact hq.few j w' hl hd' fun he => hj (Option.some.inj he).symm
    · intro j w' hl hd'
      rcases hq.placed j w' hl hd' with hp | hp | hp
      · exact .inl ((hmem j).2 (.inr hp))
      · exact .inr (.inl hp)
      · rcases mem_cons.1 hp with hp | hp
        · exact .inl ((hmem j).2 (.inl hp))
        · exact .inr (.inr hp)
    · split
      · exact nodup_snoc hb.queue_nodup hnot.1
      · exact nodup_cons.2 ⟨hnot.1, hb.queue_nodup⟩
    · intro j hj
      rcases (hmem j).1 hj with rfl | hj
      · exact h.numbered _ w hw
      · exact hb.queue_lt j hj
    · intro j hj
      rcases (hmem j).1 hj with rfl | hj
      · exact hnot.2
      · exact hb.apart j hj
    · intro j hj
      have hapart := hb.loose_apart j (mem_cons_of_mem _ hj)
      refine ⟨?_, hapart.2⟩
      intro hin
      rcases (hmem j).1 hin with rfl | hin
      · exact hi hj
      · exact hapart.1 hin
  · have hdone : ∀ w, s.works.lookup i = some w → w.decision ≠ none :=
      fun w hw hd => hback ⟨w, hw, hd⟩
    rw [requeue_decided hdone]
    exact h.tighten (hfull.imp_right And.left) hdone

/-- The items of the leases that are dropped have no place. -/
theorem Inv.dropLeases {p : Nat × Lease → Bool} (h : Steady cfg b s)
    (hloose : ∀ j, j ∈ loose ↔ ∃ l ∈ s.leases, p l = false ∧ l.2.work = j) :
    Inv cfg b loose (fun _ _ => False) none
      { s with leases := s.leases.filter p } := by
  have hb := h.board
  have hsub : (s.leases.filter p).Sublist s.leases := filter_sublist
  have hleased : ∀ j, j ∈ (s.leases.filter p).map (fun l => l.2.work) →
      j ∈ s.leased :=
    fun j hj => (hsub.map _).subset hj
  refine ⟨h.sound, h.standing, h.few, ?_, h.numbered, ⟨hb.1, hb.2, ?_, ?_,
    hb.leased_nodup.sublist (hsub.map _), hb.lease_ids.sublist (hsub.map _),
    ?_⟩, fun l' hl' => { h.lease l' (hsub.subset hl') with },
    { h.once with }, h.outvoted, h.onward⟩
  · intro j w hw hd
    rcases h.placed j w hw hd with hp | hp | hp
    · exact .inl hp
    · obtain ⟨l, hl, rfl⟩ := mem_map.1 hp
      cases hpl : p l with
      | true =>
        refine .inr (.inl (mem_map.2 ⟨l, ?_, rfl⟩))
        exact mem_filter.2 ⟨hl, hpl⟩
      | false => exact .inr (.inr ((hloose _).2 ⟨l, hl, hpl, rfl⟩))
    · cases hp
  · exact fun j hj hin => hb.apart j hj (hleased j hin)
  · intro j hj
    obtain ⟨l, hl, hpl, rfl⟩ := (hloose j).1 hj
    refine ⟨fun hq => hb.apart _ hq (mem_map_of_mem hl), ?_⟩
    intro hin
    obtain ⟨l', hl', heq⟩ := mem_map.1 hin
    rw [mem_filter] at hl'
    have hsame : l' = l :=
      inj_on_of_nodup_map hb.leased_nodup hl'.1 hl heq
    rw [hsame, hpl] at hl'
    cases hl'.2
  · exact fun l' hl' => hb.lease_lt l' (hsub.subset hl')

/-- The item of a lease that is over has no place. -/
theorem Inv.unlease {l : Nat × Lease} (h : Steady cfg b s) (hl : l ∈ s.leases) :
    Inv cfg b [l.2.work] (fun _ _ => False) none (s.dropLease l.1) := by
  refine h.dropLeases fun j => ?_
  rw [mem_singleton]
  constructor
  · rintro rfl
    exact ⟨l, hl, by simp, rfl⟩
  · rintro ⟨l', hl', hid, rfl⟩
    have hsame : l' = l := inj_on_of_nodup_map h.board.lease_ids hl' hl
      (by simpa using hid)
    rw [hsame]

/-- An attempt that judged nobody. -/
theorem Inv.failedAttempt {kind : Attempt}
    (h : Inv cfg b [i] (fun _ _ => False) none s) :
    Steady cfg b (s.failedAttempt now i kind) := by
  unfold Dispatcher.failedAttempt
  have hq : Inv cfg b [i] (fun _ _ => False) none
      (s.update i fun w => w.failed kind) := by
    apply h.quiet
    intro w _
    cases kind with
    | timeout => exact ⟨rfl, rfl, rfl, rfl, rfl, rfl⟩
    | error => exact ⟨rfl, rfl, rfl, rfl, rfl, rfl⟩
  dsimp only
  generalize s.update i (fun w => w.failed kind) = s₁ at hq ⊢
  have hleased := (hq.board.loose_apart i mem_cons_self).2
  cases hw : s₁.works.lookup i with
  | none =>
    exact hq.tighten (.inl rfl) (by simp [hw])
  | some w =>
    dsimp only
    split
    · split
      · exact (hq.uncertified hleased).tighten (.inl rfl) uncertified_decided
      · refine Inv.tighten (hq.resolve hleased ?_) (.inl rfl) resolve_decided
        intro w' _ _
        refine decided_plain ?_ nofun
        cases kind with
        | timeout => exact ⟨by simp [Attempt.status], by simp [Attempt.status]⟩
        | error => exact ⟨by simp [Attempt.status], by simp [Attempt.status]⟩
    · exact hq.requeue (not_mem_nil) (.inl rfl)

-- ===== quarantine

section Quarantine

variable {expel : Dispatcher → Nat → List String → String → Dispatcher}

/-- The votes still due may shrink to those there are. -/
theorem Inv.shrink (h : Inv cfg b loose due full s)
    (hdue : ∀ j w, s.works.lookup j = some w → w.decision = none →
      ∀ e ∈ w.voters, due j e → due' j e) : Inv cfg b loose due' full s := by
  refine { h with standing := ?_ }
  intro j w hw hd e he hq
  exact hdue j w hw hd e he (h.standing j w hw hd e he hq)

theorem dissenters_lone (hb : w.best = some g) (hlen : w.results.length ≤ 1) :
    dissenters w (w.agreement g).status (w.agreement g).gradedBy = [] := by
  rw [eq_nil_iff_forall_not_mem]
  intro e he
  obtain ⟨a, ha, hne⟩ := of_mem_dissenters hb he
  obtain ⟨e', he'⟩ := best_nonempty hb
  obtain ⟨a', ha', hk⟩ := (mem_best hb).1 he'
  -- the two are one vote
  cases hres : w.results with
  | nil =>
    rw [hres] at ha
    cases ha
  | cons r rs =>
    have hrs : rs = [] := by
      rw [hres, length_cons] at hlen
      exact length_eq_zero_iff.1 (by omega)
    rw [hres, hrs, mem_singleton] at ha ha'
    injection ha.trans ha'.symm with _ haa
    exact hne (haa ▸ hk)

/-- A queued item with one vote at most settles without a quarantine. -/
theorem Inv.settle_lone (h : Inv cfg b [] due none s)
    (hw : s.works.lookup i = some w) (hd : w.decision = none)
    (hlen : w.results.length ≤ 1) (hqueue : i ∈ s.queue)
    (hst : ∀ e ∈ w.voters, e ∉ s.quarantined) :
    Inv cfg b [] due none (settleWith expel s now i) ∧
      (settleWith expel s now i).queue = s.queue ∧
      (settleWith expel s now i).leases = s.leases := by
  unfold settleWith
  rw [hw]
  dsimp only
  rw [if_neg (by simp [hd])]
  cases hb : w.best with
  | none =>
    rw [requeue_queued hqueue]
    exact ⟨h, rfl, rfl⟩
  | some g =>
    dsimp only
    split
    · rename_i hneed
      rw [dissenters_lone hb hlen, foldl_nil]
      refine ⟨?_, by simp [Dispatcher.resolve], by simp [Dispatcher.resolve]⟩
      refine h.resolve (h.board.apart i hqueue) (of_read hw fun _ => ?_)
      exact decided_agreement (h.sound i w hw) hb hneed hst
    · rw [if_neg (by unfold maxResultsPerItem; omega), requeue_queued hqueue]
      exact ⟨h, rfl, rfl⟩

/-- One item gives up the vote of a quarantined executor. -/
theorem Inv.withdraw {j : Nat} {rest : List Nat}
    (h : Inv cfg b [] (fun k e' => e' = e ∧ k ∈ j :: rest) none s)
    (hj : j ∈ s.queue ∨ j ∈ s.leased) :
    Inv cfg b [] (fun k e' => e' = e ∧ k ∈ rest) none
        (withdraw (fun s k => settleWith expel s now k) e s.leased s j) ∧
      (withdraw (fun s k => settleWith expel s now k) e s.leased s j).queue
        = s.queue ∧
      (withdraw (fun s k => settleWith expel s now k) e s.leased s j).leases
        = s.leases := by
  have hskip : (∀ w, s.works.lookup j = some w → w.decision = none →
      e ∉ w.voters) → Inv cfg b [] (fun k e' => e' = e ∧ k ∈ rest) none s := by
    intro hnone
    apply h.shrink
    rintro k w hw hd e' he' ⟨rfl, hk⟩
    refine ⟨rfl, (mem_cons.1 hk).resolve_left ?_⟩
    rintro rfl
    exact hnone w hw hd he'
  unfold Dispatcher.withdraw
  cases hw : s.works.lookup j with
  | none =>
    exact ⟨hskip (by simp [hw]), rfl, rfl⟩
  | some w =>
    dsimp only
    by_cases hcond : w.decision.isSome = true ∨ e ∉ w.voters
    · rw [if_pos hcond]
      refine ⟨hskip (of_read hw fun hd => ?_), rfl, rfl⟩
      exact hcond.resolve_left (by simp [hd])
    · rw [if_neg hcond]
      push Not at hcond
      have hd : w.decision = none := by simpa using hcond.1
      have hs := h.sound j w hw
      generalize hf : (fun w : Work =>
        { w with
          results := w.results.filter fun r => r.1 != e
          providers := w.providers.filter fun r => r.1 != e }) = f
      have hfw : f w =
          { w with
            results := w.results.filter fun r => r.1 != e
            providers := w.providers.filter fun r => r.1 != e } := by
        rw [← hf]
      have hkeys : ∀ {β : Type} (l : List (String × β)),
          (l.filter fun r => r.1 != e).map Prod.fst
            = (l.map Prod.fst).filter (· != e) := by
        intro β l
        rw [filter_map]
        rfl
      have hvoters : (f w).voters = w.voters.filter (· != e) := by
        rw [hfw]
        exact hkeys w.results
      have hout : ∀ e' ∈ (f w).voters, e' ∈ s.quarantined → False := by
        intro e' he' hq
        rw [hvoters, mem_filter] at he'
        obtain ⟨rfl, -⟩ := h.standing j w hw hd e' he'.1 hq
        simp at he'
      have hinv : Inv cfg b [] (fun k e' => e' = e ∧ k ∈ rest) none
          (s.update j f) := by
        apply h.update hw
        · refine ⟨?_, ?_, ?_, ?_, ?_⟩
          · rw [hvoters, ← hs.keys, hfw]
            exact hkeys w.providers
          · rw [hvoters]
            exact hs.nodup.filter _
          · rw [hfw]
            exact fun x hx => hs.known x (mem_filter.1 hx).1
          · rw [hfw]
            exact hs.cast
          · rw [hfw]
            intro d hd'
            rw [show w.decision = some d from hd'] at hd
            cases hd
        · exact fun _ e' he' hq => (hout e' he' hq).elim
        · rintro k e' hk ⟨rfl, hmem⟩
          exact ⟨rfl, (mem_cons.1 hmem).resolve_left hk⟩
        · rw [hfw]
          exact fun _ => ⟨hd, length_filter_le ..⟩
        · rw [hfw]
          exact fun _ => hd
        · rw [hfw]
        · rw [hd]
          exact nofun
      by_cases hl : j ∈ s.leased
      · rw [if_pos hl]
        exact ⟨hinv, by simp, by simp⟩
      · rw [if_neg hl]
        have hlt : (f w).results.length ≤ 1 := by
          have hfew := h.few j w hw hd nofun
          obtain ⟨a, ha⟩ := mem_voters.1 hcond.2
          have hdrop : (w.results.filter fun r => r.1 != e).length
              < w.results.length :=
            length_filter_lt_length_iff_exists.2 ⟨(e, a), ha, by simp⟩
          rw [hfw]
          dsimp only
          omega
        have hread : (s.update j f).works.lookup j = some (f w) := by
          simp [hw]
        have hfd : (f w).decision = none := by
          rw [hfw]
          exact hd
        obtain ⟨hi, hq, hls⟩ := hinv.settle_lone hread hfd hlt
          (by simpa using hj.resolve_right hl)
          (fun e' he' hq => hout e' he' (by simpa using hq))
        exact ⟨hi, hq.trans (by simp), hls.trans (by simp)⟩

/-- Refused from now on, its leases gone: their items have no place, and
its votes are due. -/
theorem Inv.refuse (h : Steady cfg b s) : Inv cfg b
      ((s.leases.filter fun l => l.2.executor = e).map fun l => l.2.work)
      (fun _ e' => e' = e) none
      { s with
        quarantined := insert e s.quarantined
        leases := s.leases.filter fun l => l.2.executor ≠ e } := by
  have hdrop := h.dropLeases (p := fun l => l.2.executor ≠ e)
    (fun j => show j ∈ (s.leases.filter fun l => l.2.executor = e).map
      (fun l => l.2.work) ↔ _ by simp [and_assoc])
  refine { hdrop with
    standing := ?_, board := { hdrop.board with }, lease := ?_
    once := { h.once with } }
  · intro j w hw hd e' he' hq
    rcases Finset.mem_insert.1 hq with rfl | hq
    · rfl
    · exact (h.standing j w hw hd e' he' hq).elim
  · intro l hl
    obtain ⟨hu, hst, hfr⟩ := hdrop.lease l hl
    refine ⟨hu, ?_, hfr⟩
    intro hq
    rcases Finset.mem_insert.1 hq with heq | hq
    · simp [heq] at hl
    · exact hst hq

/-- Its leases' items go back to the queue. -/
theorem Inv.giveBack (own : List Nat) (hnd : own.Nodup)
    (h : Inv cfg b own due none s) :
    Inv cfg b [] due none (own.foldl (giveBack e now) s) := by
  induction own generalizing s with
  | nil => exact h
  | cons j own ih =>
    rw [nodup_cons] at hnd
    apply ih hnd.2
    exact h.failedBy.requeue hnd.1 (.inl rfl)

/-- Every undecided item gives up its vote. -/
theorem Inv.withdrawAll {leased : List Nat} (rest : List Nat)
    (hleased : s.leased = leased)
    (hrest : ∀ j ∈ rest, j ∈ s.queue ∨ j ∈ s.leased)
    (h : Inv cfg b [] (fun k e' => e' = e ∧ k ∈ rest) none s) :
    Steady cfg b (rest.foldl (Dispatcher.withdraw
      (fun s k => settleWith expel s now k) e leased) s) := by
  induction rest generalizing s with
  | nil =>
    apply h.shrink
    rintro j w hw hd e' he' ⟨-, hj⟩
    cases hj
  | cons j rest ih =>
    obtain ⟨hi, hq, hl⟩ := h.withdraw (hrest j mem_cons_self)
    rw [hleased] at hi hq hl
    have hl' : (Dispatcher.withdraw (fun s k => settleWith expel s now k) e
        leased s j).leased = s.leased := congrArg (List.map _) hl
    refine ih (hl'.trans hleased) ?_ hi
    intro k hk
    rw [hq, hl']
    exact hrest k (mem_cons_of_mem _ hk)

/-- **A quarantine**, from between two steps. -/
theorem Inv.quarantineWith (h : Steady cfg b s) :
    Steady cfg b (quarantineWith
      (fun s k => settleWith expel s now k) s now e) := by
  unfold Dispatcher.quarantineWith
  split
  · exact h
  · dsimp only
    have hown : ((s.leases.filter fun l => l.2.executor = e).map
        fun l => l.2.work).Nodup :=
      h.board.leased_nodup.sublist (filter_sublist.map _)
    have hback : Inv cfg b [] (fun _ e' => e' = e) none
        (((s.leases.filter fun l => l.2.executor = e).map
          fun l => l.2.work).foldl (Dispatcher.giveBack e now)
          { s with
            quarantined := insert e s.quarantined
            leases := s.leases.filter fun l => l.2.executor ≠ e }) :=
      Inv.giveBack _ hown h.refuse
    generalize ((s.leases.filter fun l => l.2.executor = e).map
      fun l => l.2.work).foldl (Dispatcher.giveBack e now)
        { s with
          quarantined := insert e s.quarantined
          leases := s.leases.filter fun l => l.2.executor ≠ e } = s₁
      at hback ⊢
    apply Inv.withdrawAll (s₁.queue ++ s₁.leased) rfl
    · exact fun j hj => mem_append.1 hj
    · apply hback.shrink
      rintro j w hw hd e' - rfl
      refine ⟨rfl, mem_append.2 ?_⟩
      rcases hback.placed j w hw hd with hp | hp | hp
      · exact .inl hp
      · exact .inr hp
      · cases hp

end Quarantine

-- ===== settling

/-- The note of a quarantine for a vote. -/
theorem Inv.note {agreeing : List String}
    (h : Inv cfg b loose due full s) (hw : s.works.lookup i = some w)
    (hout : Outvoted cfg w ⟨e, i, agreeing, s.quarantined⟩) :
    Inv cfg b loose due full (s.note i agreeing e) := by
  unfold Dispatcher.note
  split
  · exact h
  · refine { h with
      board := { h.board with }, lease := fun l hl => { h.lease l hl with }
      once := { h.once with }, outvoted := ?_ }
    exact forall_snoc h.outvoted ⟨w, hw, hout⟩

/-- Two providers of the group outvote a dissenter. -/
theorem outvoted_of_dissent (hs : Sound cfg votes i w) (hb : w.best = some g)
    (htwo : 2 ≤ (w.providersOf g.2).card) (hq : ∀ e ∈ w.voters, e ∉ q)
    (he : e ∈ dissenters w (w.agreement g).status (w.agreement g).gradedBy)
    (hdec : w'.decision.isSome = true) (hitem : w'.item = w.item)
    (hres : w'.results = w.results) :
    Outvoted cfg w' ⟨e, i, (w.agreement g).gradedBy, q⟩ := by
  obtain ⟨b, hbr, hne⟩ := of_mem_dissenters hb he
  refine ⟨hdec, ?_, ⟨g.1, ?_, b, ?_, ?_⟩, ?_⟩
  · exact fun e' he' => hq e' (best_sub hb ((mem_gradedBy w).1 he'))
  · intro e' he'
    rw [hitem, hres]
    exact (mem_best hb).1 ((mem_gradedBy w).1 he')
  · rw [hres]
    exact hbr
  · rw [hitem]
    exact hne
  · refine htwo.trans (Finset.card_le_card ?_)
    intro p hp
    obtain ⟨e', he', hl⟩ := mem_providersOf.1 hp
    rw [mem_toFinset, mem_filterMap]
    exact ⟨e', (mem_gradedBy w).2 he', (hs.known _ (mem_of_lookup hl)).2⟩

theorem resolve_lookup (hw : s.works.lookup i = some w)
    (hd : w.decision = none) : (s.resolve i d).works.lookup i =
      some { w with decision := some d, quarantinedThen := s.quarantined } := by
  unfold resolve
  rw [lookup_update, if_pos rfl, hw, Option.map_some, hd]
  rfl

/-- **An item settles** after its vote: decided, and the voter that stood
against two providers quarantined, or back in the queue. -/
theorem Inv.settleWith {n : Nat}
    (h : Inv cfg b [i] (fun _ _ => False) (some i) s)
    (hw : s.works.lookup i = some w) (hd : w.decision = none)
    (hlen : w.results.length ≤ 3)
    (hgrade : w.item.mode = .grade → w.drawn ≠ some true →
      (∀ r ∈ w.results, r.2.status.box = false) → w.results.length ≤ 1) :
    Steady cfg b (settleWith (expel now (n + 1)) s now i) := by
  have hleased := (h.board.loose_apart i mem_cons_self).2
  have hst : ∀ e ∈ w.voters, e ∉ s.quarantined :=
    fun e he hq => h.standing i w hw hd e he hq
  have hs := h.sound i w hw
  unfold Dispatcher.settleWith
  rw [hw]
  dsimp only
  rw [if_neg (by simp [hd])]
  cases hb : w.best with
  | none =>
    refine h.requeue (not_mem_nil) (.inr ⟨rfl, of_read hw ?_⟩)
    rw [best_none hb]
    exact Nat.zero_le _
  | some g =>
    dsimp only
    split
    · rename_i hneed
      have hres : Steady cfg b (s.resolve i (w.agreement g)) := by
        refine Inv.tighten (h.resolve hleased (of_read hw fun _ => ?_))
          (.inr rfl) resolve_decided
        exact decided_agreement hs hb hneed hst
      have htwo : ∀ e ∈ dissenters w (w.agreement g).status
          (w.agreement g).gradedBy, 2 ≤ (w.providersOf g.2).card := by
        intro e he
        obtain ⟨a, ha, hne⟩ := of_mem_dissenters hb he
        obtain ⟨e', he'⟩ := best_nonempty hb
        obtain ⟨a', ha', hk⟩ := (mem_best hb).1 he'
        rw [← hk] at hne
        exact (two_of_dissent ha ha' hne hgrade).ge.trans hneed
      cases hdis : dissenters w (w.agreement g).status
          (w.agreement g).gradedBy with
      | nil => exact hres
      | cons e es =>
        have hmem : e ∈ dissenters w (w.agreement g).status
            (w.agreement g).gradedBy := by
          rw [hdis]
          exact mem_cons_self
        have hone := length_dissenters hb hlen (htwo e hmem)
          (w.agreement g).status
        have hes : es = [] := by
          have hle : (e :: es).length ≤ 1 := by
            rw [← hdis]
            exact hone
          rw [length_cons] at hle
          exact length_eq_zero_iff.1 (by omega)
        rw [hes, foldl_cons, foldl_nil, expel]
        apply Inv.quarantineWith
        apply hres.note (resolve_lookup hw hd)
        refine outvoted_of_dissent hs hb (htwo e hmem) ?_ hmem rfl rfl rfl
        simpa [Dispatcher.resolve] using hst
    · split
      · refine Inv.tighten (h.resolve hleased (of_read hw fun _ => ?_))
          (.inr rfl) resolve_decided
        refine decided_plain ⟨by simp, by simp⟩ ?_
        intro e he
        rw [mem_sortSet, mem_toFinset] at he
        exact ⟨he, hst e he⟩
      · rename_i hmax
        refine h.requeue (not_mem_nil) (.inr ⟨rfl, of_read hw ?_⟩)
        unfold maxResultsPerItem at hmax
        omega

end Reliquary.Grade
