/-
The dispatcher's calls keep the invariant of Agreement.lean, one lemma a
call. `Guarded` is what a run promises; only `claim` and `result` ask for it.
-/
import Reliquary.Grade.Agreement

namespace Reliquary.Grade

open Store Dispatcher List Dispatcher

variable {cfg : GradeConfig} {b s : Dispatcher} {loose : List Nat}
  {due : Nat → String → Prop} {full : Option Nat} {i : Nat} {w : Work}
  {now : ℚ} {e : String} {lot : Bool} {a : Answer} {p : String}

-- ===== the promise

/-- A box failure is among the votes of an undrawn grade item that takes a
further vote, and no vote of the claiming executor's provider was taken back
from an undecided item. -/
def Guarded (cfg : GradeConfig) (s : Dispatcher) (a : Timed) : Prop :=
  match a.event with
  | .result _ lease _ _ =>
    ∀ l, s.leases.lookup lease = some l →
      ∀ w, s.works.lookup l.work = some w → w.item.mode = .grade →
        w.drawn ≠ some true → w.results ≠ [] →
          ∃ r ∈ w.results, r.2.status.box = true
  | .claim executor =>
    ∀ v ∈ s.votes, cfg.provider executor = some v.provider →
      ∀ w, s.works.lookup v.work = some w → w.decision = none →
        v.executor ∈ w.voters
  | _ => True

instance : (a : Timed) → Decidable (Guarded cfg s a)
  | ⟨_, .result ..⟩ => inferInstanceAs (Decidable (∀ l, _ = some l →
      ∀ w, _ = some w → _ → _ → _ → ∃ r ∈ _, _))
  | ⟨_, .claim _⟩ => inferInstanceAs (Decidable (∀ v ∈ _, _ →
      ∀ w, _ = some w → _ → _))
  | ⟨_, .decideItem _⟩ | ⟨_, .heartbeat ..⟩ | ⟨_, .refusedEnv _⟩
  | ⟨_, .quarantine _⟩ | ⟨_, .expireLeases⟩ | ⟨_, .disputes⟩ => isTrue trivial

-- ===== what the invariant skips

/-- Liveness, strikes and benches are not read. -/
theorem Inv.aside (h : Inv cfg b loose due full s)
    (strikes : List (String × Nat)) (benched seen claimedAt : List (String × ℚ))
    (wrongEnv : Finset String) : Inv cfg b loose due full
      { s with
        strikes := strikes
        benched := benched
        seen := seen
        claimedAt := claimedAt
        wrongEnv := wrongEnv } :=
  { h with
    board := { h.board with }, lease := fun l hl => { h.lease l hl with }
    once := { h.once with } }

theorem Inv.contact (h : Inv cfg b loose due full s) :
    Inv cfg b loose due full (s.contact now e) :=
  h.aside s.strikes s.benched _ s.claimedAt s.wrongEnv

theorem Inv.strike (h : Inv cfg b loose due full s) :
    Inv cfg b loose due full (s.strike cfg e).1 :=
  h.aside _ s.benched s.seen s.claimedAt s.wrongEnv

-- ===== new items

theorem Inv.decideItem {item : Item} (h : Steady cfg b s) :
    Steady cfg b (s.decideItem cfg item) := by
  have hb := h.board
  have hlt := Nat.lt_succ_self s.nextWork
  have hnew : s.works.lookup s.nextWork = none := by
    by_contra hne
    obtain ⟨w, hw⟩ := Option.ne_none_iff_exists'.1 hne
    exact (h.numbered _ w hw).false
  have hleased : s.nextWork ∉ s.leased := by
    intro hin
    obtain ⟨l, hl, heq⟩ := mem_map.1 hin
    obtain ⟨w, hw, -⟩ := (h.lease l hl).undecided
    rw [heq, hnew] at hw
    cases hw
  have hqueue : ∀ {P : Nat → Prop}, (∀ j ∈ s.queue, P j) → P s.nextWork →
      ∀ j ∈ (s.decideItem cfg item).queue, P j := by
    intro P hold hitem
    unfold Dispatcher.decideItem
    split
    · exact forall_snoc hold hitem
    · exact hold
  refine ⟨forall_lookup_put h.sound ⟨rfl, nodup_nil, nofun, ?_, ?_⟩,
    forall_lookup_put h.standing (fun _ _ he => nomatch he),
    forall_lookup_put h.few fun _ _ => Nat.zero_le _,
    forall_lookup_put (fun j w hw hd => ?_) fun hd => .inl ?_,
    forall_lookup_put (fun j w hw => (h.numbered j w hw).trans hlt) hlt,
    ⟨?_, hqueue (fun j hj => (hb.queue_lt j hj).trans hlt) hlt,
      hqueue hb.apart hleased, nofun, hb.5, hb.6, hb.7⟩, ?_,
    ⟨fun v hv => (h.once.vote_lt v hv).trans hlt, h.once.2, h.once.3⟩, ?_,
    h.onward.trans fun j w hw =>
      ⟨w, lookup_put_new hnew _ hw, rfl, fun _ hd => hd⟩⟩
  · exact fun v hv heq => absurd heq (h.once.vote_lt v hv).ne
  · intro d hd
    dsimp only at hd
    split at hd
    · cases hd
    · cases hd
      refine ⟨nofun, nofun, ?_⟩
      rintro (hu | ⟨hu, -⟩)
      · cases hu
      · cases hu
  · rcases h.placed j w hw hd with hp | hp | hp
    · refine .inl ?_
      unfold Dispatcher.decideItem
      split
      · exact mem_append_left _ hp
      · exact hp
    · exact .inr (.inl hp)
    · cases hp
  · cases hl : cfg.leasable item with
    | true => simp [Dispatcher.decideItem, hl]
    | false => simp [hl] at hd
  · unfold Dispatcher.decideItem
    split
    · exact nodup_snoc hb.queue_nodup fun hin => (hb.queue_lt _ hin).false
    · exact hb.queue_nodup
  · intro l hl
    obtain ⟨⟨w, hw, hd⟩, hst, hfr⟩ := h.lease l hl
    exact ⟨⟨w, lookup_put_new hnew _ hw, hd⟩, hst, hfr⟩
  · intro x hx
    obtain ⟨w, hw, ho⟩ := h.outvoted x hx
    exact ⟨w, lookup_put_new hnew _ hw, ho⟩

-- ===== claims

theorem takes_inv (h : s.takes cfg now e i = true) :
    ∃ w, s.works.lookup i = some w ∧ w.decision = none ∧
      e ∉ w.excluded ∧ ∃ p, cfg.provider e = some p ∧
        p ∉ w.providers.map Prod.snd := by
  unfold takes at h
  split at h
  · cases h
  · rename_i w hw
    rw [Bool.and_eq_true] at h
    have hel := h.2
    unfold eligible at hel
    rw [Bool.and_eq_true] at hel
    have hfr := hel.1
    unfold fresh at hfr
    rw [Bool.and_eq_true, Bool.and_eq_true] at hfr
    refine ⟨w, hw, by simpa using h.1, by simpa using hfr.1.1, ?_⟩
    have hp := hfr.1.2
    cases hprov : cfg.provider e with
    | none => simp [hprov] at hp
    | some p => exact ⟨p, rfl, by simpa [hprov] using hp⟩

/-- A shorter queue, if it keeps every undecided item that has no lease. -/
theorem Inv.requeued {queue : List Nat} {leases : List (Nat × Lease)}
    {nextLease : Nat} (h : Steady cfg b s) (hsub : queue.Sublist s.queue)
    (hplaced : ∀ j w, s.works.lookup j = some w → w.decision = none →
      j ∈ s.queue → j ∈ queue ∨ j ∈ leases.map fun l => l.2.work)
    (hold : ∀ l ∈ s.leases, l ∈ leases)
    (hapart : ∀ j ∈ queue, j ∉ leases.map fun l => l.2.work)
    (hnd : (leases.map fun l => l.2.work).Nodup)
    (hids : (leases.map Prod.fst).Nodup) (hlt : ∀ l ∈ leases, l.1 < nextLease)
    (hlease : ∀ l ∈ leases, LeaseOk cfg s l.2) : Steady cfg b
      { s with queue := queue, leases := leases, nextLease := nextLease } := by
  refine ⟨h.sound, h.standing, h.few, ?_, h.numbered, ⟨?_, ?_, hapart, nofun,
    hnd, hids, hlt⟩, fun l hl => { hlease l hl with }, { h.once with },
    h.outvoted, h.onward⟩
  · intro j w hw hd
    rcases h.placed j w hw hd with hp | hp | hp
    · exact (hplaced j w hw hd hp).imp_right .inl
    · obtain ⟨l, hl, rfl⟩ := mem_map.1 hp
      exact .inr (.inl (mem_map.2 ⟨l, hold l hl, rfl⟩))
    · cases hp
  · exact h.board.queue_nodup.sublist hsub
  · exact fun j hj => h.board.queue_lt j (hsub.subset hj)

/-- The loop of a claim. -/
theorem Inv.take (h : Steady cfg b s) (hq : e ∉ s.quarantined)
    (hguard : ∀ v ∈ s.votes, cfg.provider e = some v.provider →
      ∀ w, s.works.lookup v.work = some w → w.decision = none →
        v.executor ∈ w.voters) : Steady cfg b (s.take cfg now e) := by
  have hb := h.board
  have hundec : ∀ j w, s.works.lookup j = some w → w.decision = none →
      s.undecided j = true := by
    intro j w hw hd
    simp [undecided, hw, hd]
  unfold Dispatcher.take
  have hsplit := takeWhile_append_dropWhile
    (p := fun j => !s.takes cfg now e j) (l := s.queue)
  generalize s.queue.takeWhile (fun j => !s.takes cfg now e j) = before
    at hsplit ⊢
  cases hdrop : s.queue.dropWhile fun j => !s.takes cfg now e j with
  | nil =>
    rw [hdrop, append_nil] at hsplit
    subst hsplit
    refine Inv.requeued h filter_sublist ?_ (fun l hl => hl)
      (fun j hj => hb.apart j (mem_filter.1 hj).1) hb.leased_nodup
      hb.lease_ids hb.lease_lt h.lease
    exact fun j w hw hd hj =>
      .inl (mem_filter.2 ⟨hj, hundec j w hw hd⟩)
  | cons j rest =>
    have htakes : s.takes cfg now e j = true := by
      have hhead := head?_dropWhile_not (fun j => !s.takes cfg now e j) s.queue
      rw [hdrop] at hhead
      simpa using hhead
    obtain ⟨w, hw, hd, hex, p, hp, hpn⟩ := takes_inv htakes
    rw [hdrop] at hsplit
    dsimp only
    rw [hw]
    dsimp only
    have hsub : (before.filter s.undecided ++ rest).Sublist s.queue := by
      rw [← hsplit]
      exact filter_sublist.append (sublist_cons_self ..)
    have hjq : j ∈ s.queue := by
      rw [← hsplit]
      exact mem_append_right _ mem_cons_self
    have hj : j ∉ before.filter s.undecided ++ rest := by
      have hnd := hb.queue_nodup
      rw [← hsplit, nodup_middle, nodup_cons] at hnd
      exact fun hin => hnd.1 ((filter_sublist.append_right rest).subset hin)
    have hid : s.nextLease ∉ s.leases.map Prod.fst := by
      intro hin
      obtain ⟨l, hl, heq⟩ := mem_map.1 hin
      exact (hb.lease_lt l hl).ne heq
    rw [put_new _ _ _ hid]
    apply Inv.requeued h hsub
    · intro k w' hw' hd' hk
      rw [← hsplit] at hk
      rcases mem_append.1 hk with hk | hk
      · refine .inl (mem_append_left _ ?_)
        exact mem_filter.2 ⟨hk, hundec k w' hw' hd'⟩
      · rcases mem_cons.1 hk with rfl | hk
        · refine .inr ?_
          rw [map_append]
          exact mem_concat_self
        · exact .inl (mem_append_right _ hk)
    · exact fun l hl => mem_append_left _ hl
    · intro k hk hin
      rw [map_append] at hin
      rcases mem_snoc.1 hin with hin | rfl
      · exact hb.apart k (hsub.subset hk) hin
      · exact hj hk
    · rw [map_append]
      exact nodup_snoc hb.leased_nodup (hb.apart j hjq)
    · rw [map_append]
      exact nodup_snoc hb.lease_ids hid
    · refine forall_snoc (fun l hl => ?_) (Nat.lt_succ_self _)
      exact (hb.lease_lt l hl).trans (Nat.lt_succ_self _)
    · refine forall_snoc h.lease ⟨⟨w, hw, hd⟩, hq, ?_⟩
      intro v hv hvj
      have hs := h.sound j w hw
      have hne : v.executor ≠ e := by
        intro heq
        exact hex (heq ▸ hs.cast v hv hvj)
      refine ⟨hne, ?_⟩
      -- a vote of its provider still stands, so its provider is known
      intro hprov
      have hvoter := hguard v hv hprov w (hvj ▸ hw) hd
      rw [← hs.keys] at hvoter
      obtain ⟨x, hx, hxe⟩ := mem_map.1 hvoter
      have hxv := (hs.known x hx).1
      have hsame : (⟨j, x.1, x.2⟩ : Vote) = v :=
        inj_on_of_nodup_map h.once.executor hxv hv (by rw [hvj, hxe])
      apply hpn
      rw [hp] at hprov
      rw [Option.some.inj hprov, ← hsame]
      exact mem_map_of_mem hx

theorem Inv.claim (h : Steady cfg b s)
    (hguard : Guarded cfg s ⟨now, .claim e⟩) :
    Steady cfg b (s.claim cfg now e) := by
  unfold Dispatcher.claim
  have hs : Steady cfg b
      { s.contact now e with
        claimedAt := put e now s.claimedAt
        wrongEnv := s.wrongEnv.erase e } :=
    h.aside s.strikes s.benched _ _ _
  dsimp only at hs ⊢
  split
  · exact hs
  · rename_i hcond
    split
    · exact hs
    · push Not at hcond
      exact hs.take hcond.1 hguard

-- ===== leases

theorem requeue_leases (s : Dispatcher) (now : ℚ) (i : Nat) :
    (s.requeue now i).leases = s.leases := by
  unfold requeue
  split
  · rfl
  · split
    · rfl
    · rfl

theorem resolve_leases (s : Dispatcher) (i : Nat) (d : Decision) :
    (s.resolve i d).leases = s.leases := by
  simp [resolve]

theorem resolve_queue (s : Dispatcher) (i : Nat) (d : Decision) :
    (s.resolve i d).queue = s.queue := by
  simp [resolve]

theorem uncertified_leases (s : Dispatcher) (i : Nat) :
    (s.uncertified i).leases = s.leases := by
  unfold uncertified
  split
  · rfl
  · exact resolve_leases ..

theorem uncertified_queue (s : Dispatcher) (i : Nat) :
    (s.uncertified i).queue = s.queue := by
  unfold uncertified
  split
  · rfl
  · exact resolve_queue ..

theorem failedAttempt_leases (s : Dispatcher) (now : ℚ) (i : Nat)
    (kind : Attempt) : (s.failedAttempt now i kind).leases = s.leases := by
  unfold failedAttempt
  dsimp only
  split
  · exact update_leases ..
  · split
    · split
      · exact (uncertified_leases ..).trans (update_leases ..)
      · exact (resolve_leases ..).trans (update_leases ..)
    · exact (requeue_leases ..).trans (update_leases ..)

/-- A loop over leases, each deleted as it is dealt with. -/
theorem Inv.overLeases {g : Dispatcher → Nat × Lease → Dispatcher}
    (hg : ∀ s l, Steady cfg b s → l ∈ s.leases → Steady cfg b (g s l) ∧
      (g s l).leases = s.leases.filter fun l' => l'.1 != l.1)
    (ls : List (Nat × Lease)) (hnd : (ls.map Prod.fst).Nodup)
    (hls : ∀ l ∈ ls, l ∈ s.leases) (h : Steady cfg b s) :
    Steady cfg b (ls.foldl g s) := by
  induction ls generalizing s with
  | nil => exact h
  | cons l ls ih =>
    rw [map_cons, nodup_cons] at hnd
    obtain ⟨hs, hl⟩ := hg s l h (hls l mem_cons_self)
    apply ih hnd.2 _ hs
    intro l' hl'
    rw [hl, mem_filter]
    refine ⟨hls l' (mem_cons_of_mem _ hl'), bne_iff_ne.2 ?_⟩
    intro heq
    exact hnd.1 (heq ▸ mem_map_of_mem hl')

theorem Inv.heartbeat {held : Option (List Nat)} (h : Steady cfg b s) :
    Steady cfg b (s.heartbeat cfg now e held) := by
  have hc : Steady cfg b (s.contact now e) := h.contact
  cases held with
  | none => exact hc
  | some reported =>
    apply Inv.overLeases ?_ _ _ (fun l hl => (mem_filter.1 hl).1) hc
    · intro s l hs hl
      refine ⟨(hs.unlease hl).failedBy.failedAttempt, ?_⟩
      exact (failedAttempt_leases ..).trans (update_leases ..)
    · exact hc.board.lease_ids.sublist (filter_sublist.map _)

/-- A lease that ran out. -/
theorem Inv.expired (h : Inv cfg b [i] (fun _ _ => False) none s) :
    Steady cfg b (s.expired cfg now e i) := by
  unfold Dispatcher.expired
  have hs : Steady cfg b ((s.failedBy now e i).failedAttempt now i .timeout) :=
    h.failedBy.failedAttempt
  dsimp only
  split
  · exact hs.strike.aside _ _ _ _ _
  · exact hs.strike

theorem expired_leases (s : Dispatcher) (now : ℚ) (e : String) (i : Nat) :
    (s.expired cfg now e i).leases = s.leases := by
  unfold expired
  dsimp only
  split
  · exact (failedAttempt_leases ..).trans (update_leases ..)
  · exact (failedAttempt_leases ..).trans (update_leases ..)

theorem Inv.expireLeases (h : Steady cfg b s) :
    Steady cfg b (s.expireLeases cfg now) := by
  apply Inv.overLeases ?_ _ _ (fun l hl => (mem_filter.1 hl).1) h
  · intro s l hs hl
    exact ⟨(hs.unlease hl).expired, expired_leases ..⟩
  · exact h.board.lease_ids.sublist (filter_sublist.map _)

-- ===== disputes

/-- The dispute clock of a queued item. -/
theorem Inv.dispute {working : List String} (h : Steady cfg b s)
    (hi : i ∈ s.queue) : Steady cfg b (dispute cfg now working s i) ∧
      (dispute cfg now working s i).queue = s.queue := by
  unfold Dispatcher.dispute
  cases hw : s.works.lookup i with
  | none => exact ⟨h, rfl⟩
  | some w =>
    dsimp only
    split
    · exact ⟨h, rfl⟩
    · generalize (if (working.any fun e => s.eligible cfg now e w) = true
        then w.unserved
        else w.unserved + max 0 (now - w.sweptAt.getD now)) = unserved
      have hq : Steady cfg b (s.update i fun w =>
          { w with unserved := unserved, sweptAt := some now }) :=
        h.quiet fun _ _ => ⟨rfl, rfl, rfl, rfl, rfl, rfl⟩
      have hleased : i ∉ (s.update i fun w =>
          { w with unserved := unserved, sweptAt := some now }).leased := by
        rw [leased, update_leases]
        exact h.board.apart i hi
      split
      · split
        · exact ⟨hq.uncertified hleased,
            (uncertified_queue ..).trans (update_queue ..)⟩
        · refine ⟨?_, (resolve_queue ..).trans (update_queue ..)⟩
          apply hq.resolve hleased
          intro w' hw' hd
          rw [lookup_update, if_pos rfl, hw] at hw'
          cases hw'
          refine decided_plain ⟨by simp, by simp⟩ ?_
          intro e he
          rw [mem_sortSet, mem_toFinset] at he
          refine ⟨he, fun hqu => ?_⟩
          rw [update_quarantined] at hqu
          exact h.standing i w hw hd e he hqu
      · exact ⟨hq, update_queue ..⟩

theorem Inv.disputes (h : Steady cfg b s) :
    Steady cfg b (s.disputes cfg now) := by
  unfold Dispatcher.disputes
  generalize s.working cfg now = working
  -- the loop runs over the queue, which it leaves as it is
  have hloop : ∀ (ids : List Nat) (s : Dispatcher), Steady cfg b s →
      (∀ j ∈ ids, j ∈ s.queue) →
        Steady cfg b (ids.foldl (Dispatcher.dispute cfg now working) s) := by
    intro ids
    induction ids with
    | nil => exact fun s hs _ => hs
    | cons j ids ih =>
      intro s hs hids
      obtain ⟨hd, hq⟩ := hs.dispute (hids j mem_cons_self)
      apply ih _ hd
      intro k hk
      rw [hq]
      exact hids k (mem_cons_of_mem _ hk)
  exact hloop s.queue s h fun _ hj => hj

-- ===== votes

/-- A voter of an item cast a vote on it. -/
theorem Sound.voted {votes : List Vote} (h : Sound cfg votes i w)
    (he : e ∈ w.voters) : ∃ v ∈ votes, v.work = i ∧ v.executor = e := by
  rw [← h.keys] at he
  obtain ⟨x, hx, rfl⟩ := mem_map.1 he
  exact ⟨_, (h.known x hx).1, rfl, rfl⟩

/-- **A vote is taken**, by an executor and a provider new to the item. -/
theorem Inv.vote (h : Inv cfg b [i] (fun _ _ => False) none s)
    (hw : s.works.lookup i = some w) (hd : w.decision = none)
    (hprov : cfg.provider e = some p) (hq : e ∉ s.quarantined)
    (hfresh : ∀ v ∈ s.votes, v.work = i → v.executor ≠ e ∧ v.provider ≠ p) :
    Inv cfg b [i] (fun _ _ => False) (some i) (s.vote cfg e p lot i a) ∧
      (s.vote cfg e p lot i a).works.lookup i
        = some (w.voted e p (s.recheckPossible cfg && lot) a) ∧
      (w.voted e p (s.recheckPossible cfg && lot) a).results
        = w.results ++ [(e, a)] := by
  have hs := h.sound i w hw
  have hnew : e ∉ w.voters := by
    intro hin
    obtain ⟨v, hv, hvi, hve⟩ := hs.voted hin
    exact (hfresh v hv hvi).1 hve
  have hres : put e a w.results = w.results ++ [(e, a)] := put_new _ _ _ hnew
  have hprovs : put e p w.providers = w.providers ++ [(e, p)] := by
    apply put_new
    rw [hs.keys]
    exact hnew
  generalize hdraw : (s.recheckPossible cfg && lot) = draw
  have hvote : s.vote cfg e p lot i a =
      { s.update i (fun w => w.voted e p draw a) with
        votes := s.votes ++ [⟨i, e, p⟩] } := by
    rw [← hdraw]
    rfl
  have hvoters : (w.voted e p draw a).voters = w.voters ++ [e] := by
    rw [Work.voters, Work.voted, hres, map_append]
    rfl
  rw [hvote]
  refine ⟨?_, ?_, hres⟩
  · have hleased := (h.board.loose_apart i mem_cons_self).2
    refine h.change hw ⟨?_, ?_, ?_, ?_, ?_⟩ (by simp) ?_ (fun _ _ _ hdue => hdue)
      (fun _ => ⟨hd, fun hf => absurd rfl hf⟩) (fun _ _ _ h => by cases h)
      (fun hl => absurd hl hleased) rfl ?_ ⟨?_, ?_, ?_⟩
    · rw [hvoters, Work.voted, hprovs, map_append, hs.keys]
      rfl
    · rw [hvoters]
      exact nodup_snoc hs.nodup hnew
    · rw [Work.voted, hprovs]
      refine forall_snoc (fun x hx => ?_) ⟨by simp, hprov⟩
      exact (hs.known x hx).imp_left (mem_append_left _)
    · refine forall_snoc (fun v hv hvi => ?_) fun _ => Finset.mem_insert_self ..
      exact Finset.mem_insert_of_mem (hs.cast v hv hvi)
    · intro d hd'
      rw [show (w.voted e p draw a).decision = none from hd] at hd'
      cases hd'
    · rw [hvoters]
      exact fun _ => forall_snoc (h.standing i w hw hd) hq
    · rw [hd]
      intro h
      cases h
    · exact forall_snoc h.once.vote_lt (h.numbered i w hw)
    · refine nodup_insert h.once.executor fun v hv heq => ?_
      obtain ⟨hvi, hve⟩ := Prod.mk.inj heq
      exact (hfresh v hv hvi).1 hve
    · refine nodup_insert h.once.provider fun v hv heq => ?_
      obtain ⟨hvi, hvp⟩ := Prod.mk.inj heq
      exact (hfresh v hv hvi).2 hvp
  · rw [lookup_update, if_pos rfl, hw]
    rfl

/-- The vote and what it settles. The promise: an undrawn grade item that
holds votes holds a box failure. -/
theorem Inv.voteSettle (h : Inv cfg b [i] (fun _ _ => False) none s)
    (hw : s.works.lookup i = some w) (hd : w.decision = none)
    (hprov : cfg.provider e = some p) (hq : e ∉ s.quarantined)
    (hfresh : ∀ v ∈ s.votes, v.work = i → v.executor ≠ e ∧ v.provider ≠ p)
    (hbox : w.item.mode = .grade → w.drawn ≠ some true → w.results ≠ [] →
      ∃ r ∈ w.results, r.2.status.box = true) :
    Steady cfg b ((s.vote cfg e p lot i a).settle cfg now i) := by
  obtain ⟨hi, hlook, hres⟩ := h.vote hw hd hprov hq hfresh
  refine Inv.settleWith hi hlook hd ?_ ?_
  · have hfew := h.few i w hw hd nofun
    rw [hres, length_append, length_singleton]
    omega
  · intro hm hdrawn hnone
    have hundrawn : w.drawn ≠ some true := by
      intro htrue
      apply hdrawn
      simp [Work.voted, htrue]
    rw [hres] at hnone ⊢
    by_cases hempty : w.results = []
    · rw [hempty]
      exact le_rfl
    · obtain ⟨r, hr, hb⟩ := hbox hm hundrawn hempty
      rw [hnone r (mem_append_left _ hr)] at hb
      cases hb

/-- The answer to a lease. -/
theorem Inv.result {leaseId : Nat} (h : Steady cfg b s)
    (hguard : Guarded cfg s ⟨now, .result e leaseId a lot⟩) :
    Steady cfg b (s.result cfg now e leaseId a lot) := by
  unfold Dispatcher.result
  have hc : Steady cfg b (s.contact now e) := h.contact
  dsimp only
  cases hl : (s.contact now e).leases.lookup leaseId with
  | none => exact hc
  | some l =>
    have hmem : (leaseId, l) ∈ (s.contact now e).leases := mem_of_lookup hl
    have hlease := hc.lease _ hmem
    obtain ⟨w, hw, hd⟩ := hlease.undecided
    have hloose := hc.unlease hmem
    have hread : ((s.contact now e).dropLease leaseId).works.lookup l.work
      = some w := hw
    dsimp only
    split
    · exact hc
    · rename_i hex
      push Not at hex
      rw [hread]
      dsimp only
      split
      · exact hloose.expired
      · split
        · exact hloose.failedBy.failedAttempt.strike
        · have hf : Inv cfg b [l.work] (fun _ _ => False) none
              (((s.contact now e).dropLease leaseId).failedBy now e
                l.work) := hloose.failedBy
          have hlook : (((s.contact now e).dropLease leaseId).failedBy now
              e l.work).works.lookup l.work
              = some { w with failedAt := put e now w.failedAt } := by
            rw [Dispatcher.failedBy, lookup_update, if_pos rfl, hread]
            rfl
          have hvotes : (((s.contact now e).dropLease leaseId).failedBy now
              e l.work).votes = s.votes := update_votes ..
          have hquar : (((s.contact now e).dropLease leaseId).failedBy now
              e l.work).quarantined = s.quarantined := update_quarantined ..
          generalize (((s.contact now e).dropLease leaseId).failedBy now e
            l.work) = s₁ at hf hlook hvotes hquar ⊢
          have hz : Inv cfg b [l.work] (fun _ _ => False) none
              { s₁ with strikes := put e 0 s₁.strikes } :=
            hf.aside _ s₁.benched s₁.seen s₁.claimedAt s₁.wrongEnv
          cases hprov : cfg.provider e with
          | none => exact hz.requeue (not_mem_nil) (.inl rfl)
          | some p =>
            have hvote : Steady cfg b (({ s₁ with
                strikes := put e 0 s₁.strikes }.vote cfg e p lot l.work
                  a).settle cfg now l.work) := by
              refine hz.voteSettle hlook hd hprov ?_ ?_ ?_
              · rw [hquar, ← hex]
                exact hlease.standing
              · intro v hv hvi
                rw [hvotes] at hv
                obtain ⟨hne, hnp⟩ := hlease.fresh v hv hvi
                rw [hex] at hne hnp
                refine ⟨hne, fun heq => hnp ?_⟩
                rw [heq, hprov]
              · exact hguard l hl w hw
            cases a.status with
            | error => exact hz.failedAttempt
            | timeout => exact hz.failedAttempt
            | ok => exact hvote
            | boxLost => exact hvote
            | boxTimeout => exact hvote

theorem Inv.step {a : Timed} (h : Steady cfg b s) (hg : Guarded cfg s a) :
    Steady cfg b (s.step cfg a) := by
  obtain ⟨now, event⟩ := a
  cases event with
  | decideItem item => exact h.decideItem
  | heartbeat executor held => exact h.heartbeat
  | refusedEnv executor =>
    exact h.aside s.strikes s.benched s.seen s.claimedAt _
  | claim executor => exact h.claim hg
  | result executor lease answer lot => exact h.result hg
  | quarantine executor => exact Inv.quarantineWith h
  | expireLeases => exact h.expireLeases
  | disputes => exact h.disputes

theorem init_steady : Steady cfg .init init := by
  have hnone : ∀ i w, init.works.lookup i ≠ some w := by
    intro i w h
    cases h
  refine ⟨fun i w h => absurd h (hnone i w), fun i w h => absurd h (hnone i w),
    fun i w h => absurd h (hnone i w), fun i w h => absurd h (hnone i w),
    fun i w h => absurd h (hnone i w), ⟨nodup_nil, ?_, ?_, ?_,
    nodup_nil, nodup_nil, ?_⟩, ?_, ⟨?_, nodup_nil,
    nodup_nil⟩, ?_, Onward.refl _⟩
  all_goals
    intro x hx
    cases hx

end Reliquary.Grade
