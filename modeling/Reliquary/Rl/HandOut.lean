/-
What the buffer's methods do to its rows.

None of them but a report adds or removes one: they change a row's state
and its attempts (`HandedRows`). And a take answers with bodies of rows
that were queued: the SQL filters of the plain queries say so, and the
mixed take chooses ids of such rows, which the primary key makes the
same rows.
-/
import Reliquary.Rl.Buffer

namespace Reliquary.Rl

open Store List
open Prog (Spec)

-- ===== the rows

/-- The rows of a buffer keep their leases and bodies. -/
abbrev HandedRows (t t' : List BufferRow) : Prop :=
  Forall₂ (fun x x' : BufferRow =>
    x'.leaseId = x.leaseId ∧ x'.body = x.body) t t'

theorem handedRows_refl (t : List BufferRow) : HandedRows t t :=
  forall₂_same.2 fun _ _ => ⟨rfl, rfl⟩

variable {f : BufferRow → BufferRow}

/-- An update of a row's state or attempts. -/
theorem handedRows_update {p : BufferRow → Bool}
    (hf : ∀ x, (f x).leaseId = x.leaseId ∧ (f x).body = x.body)
    (t : List BufferRow) : HandedRows t (updateWhere p f t) :=
  forall₂_updateWhere (fun _ => ⟨rfl, rfl⟩) fun x _ _ => hf x

/-- One update after another. -/
theorem handedRows_fold {α : Type} {f : List BufferRow → α →
    List BufferRow} (hf : ∀ t a, HandedRows t (f t a)) (as : List α)
    (t : List BufferRow) : HandedRows t (as.foldl f t) :=
  foldlRecOn as f (motive := HandedRows t) (handedRows_refl t)
    fun _ ht a _ =>
      forall₂_trans (fun h h' => ⟨h'.1.trans h.1, h'.2.trans h.2⟩) ht (hf _ a)

theorem handedRows_markTaken
    (hf : ∀ x, (f x).leaseId = x.leaseId ∧ (f x).body = x.body)
    (ids : List String) (t : List BufferRow) :
    HandedRows t (markTaken f ids t) :=
  handedRows_fold (fun t _ => handedRows_update hf t) ids t

-- ===== the methods

namespace TrainingBuffer

variable {v₀ : World (List BufferRow) BufferMem} {rows : List BufferRow}
  {limit : Int} {x : BufferRow}

/-- What it is for a method of the buffer to only hand rows out or put
them back. -/
abbrev Hands {α : Type} (v₀ : World (List BufferRow) BufferMem)
    (p : BufferProg α) : Prop :=
  Spec (fun v => v = v₀) p (fun _ v => HandedRows v₀.file v.file)
    fun _ v => HandedRows v₀.file v.file

theorem hands_requeue : Hands v₀ requeue := by
  intro v hv
  subst hv
  refine handedRows_update ?_ v.file
  exact fun _ => ⟨rfl, rfl⟩

theorem hands_release (leaseIds : List String) :
    Hands v₀ (release leaseIds) := by
  intro v hv
  subst hv
  refine handedRows_fold (fun t id => handedRows_update ?_ t) leaseIds v.file
  exact fun _ => ⟨rfl, rfl⟩

theorem hands_drainTick : Hands v₀ drainTick := by
  intro v hv
  subst hv
  exact handedRows_refl v.file

/-- What a take did: rows changed hands, and what it answers are bodies
of rows that were queued and are taken now. -/
def HandedOut (v₀ : World (List BufferRow) BufferMem)
    (groups : List SubmittedGroup)
    (v : World (List BufferRow) BufferMem) : Prop :=
  HandedRows v₀.file v.file
    ∧ ∀ g ∈ groups, ∃ x ∈ v₀.file, x.state = .queued ∧ x.body = g
        ∧ ∀ y ∈ v.file, y.leaseId = x.leaseId → y.state = .taken

/-- Rows marked as handed out are taken. -/
theorem taken_of_markTaken
    (hf : ∀ r, (f r).leaseId = r.leaseId ∧ (f r).state = .taken)
    (ids : List String) : ∀ (t : List BufferRow) (P : String → Prop),
      (∀ y ∈ t, P y.leaseId → y.state = .taken) →
      ∀ y ∈ markTaken f ids t, P y.leaseId ∨ y.leaseId ∈ ids →
        y.state = .taken := by
  induction ids with
  | nil =>
    intro t P ht y hy hid
    rcases hid with hid | hid
    · exact ht y hy hid
    · cases hid
  | cons id ids ih =>
    intro t P ht y hy hid
    -- the rows of `id` join those that are taken already
    refine ih (updateWhere (fun r => r.leaseId == id) f t)
      (fun i => P i ∨ i = id) ?_ y hy ?_
    · intro z hz hzid
      obtain ⟨r, hr, rfl⟩ := mem_updateWhere.1 hz
      split
      · exact (hf r).2
      next hne =>
        rw [if_neg hne] at hzid
        rcases hzid with hzid | hzid
        · exact ht r hr hzid
        · exact absurd (by simpa using hzid) hne
    · rcases hid with hid | hid
      · exact .inl (.inl hid)
      · rcases mem_cons.1 hid with hid | hid
        · exact .inl (.inr hid)
        · exact .inr hid

/-- Rows that were queued, handed out. -/
theorem handedOut_markTaken
    (hf : ∀ r, (f r).leaseId = r.leaseId ∧ (f r).body = r.body
      ∧ (f r).state = .taken)
    (hrows : ∀ x ∈ rows, x ∈ v₀.file ∧ x.state = .queued)
    {v : World (List BufferRow) BufferMem}
    (hv : v.file = markTaken f (rows.map fun r => r.leaseId) v₀.file) :
    HandedOut v₀ (rows.map fun r => r.body) v := by
  constructor
  · rw [hv]
    exact handedRows_markTaken (fun r => ⟨(hf r).1, (hf r).2.1⟩) _ _
  · intro g hg
    obtain ⟨x, hx, rfl⟩ := mem_map.1 hg
    obtain ⟨hmem, hs⟩ := hrows x hx
    refine ⟨x, hmem, hs, rfl, fun y hy hid => ?_⟩
    rw [hv] at hy
    refine taken_of_markTaken (fun r => ⟨(hf r).1, (hf r).2.2⟩) _ _
      (fun _ => False) (fun _ _ hno => hno.elim) y hy (.inr ?_)
    rw [hid]
    exact mem_map_of_mem hx

/-- `LIMIT` takes rows that are there. -/
theorem mem_of_mem_sqlLimit {α : Type} {rows : List α} {x : α}
    (h : x ∈ sqlLimit limit rows) : x ∈ rows := by
  unfold sqlLimit at h
  split at h
  · exact h
  · exact mem_of_mem_take h

theorem mem_ordered {le : BufferRow → BufferRow → Bool}
    : x ∈ ordered le rows ↔ x ∈ rows :=
  (perm_insertionSort _ _).mem_iff

/-- The second loop chooses ids of the rows it is given. -/
theorem mem_mixEnvs {P : String → Prop} (caps : List (String × Int))
    (limit : Int) (picked : List String) (rows : List BufferRow) :
    ∀ m : Mix, (∀ id ∈ m.chosen, P id) → (∀ id ∈ m.extra, P id) →
      (∀ r ∈ rows, P r.leaseId) →
      (∀ id ∈ (mixEnvs caps limit picked rows m).chosen, P id)
        ∧ ∀ id ∈ (mixEnvs caps limit picked rows m).extra, P id := by
  induction rows with
  | nil => exact fun m hc he _ => ⟨hc, he⟩
  | cons r rows ih =>
    intro m hc he hrows
    have hr := hrows r mem_cons_self
    have hrest : ∀ r' ∈ rows, P r'.leaseId :=
      fun r' hr' => hrows r' (mem_cons_of_mem _ hr')
    unfold mixEnvs
    split
    · exact ⟨hc, he⟩
    split
    · exact ih m hc he hrest
    split
    · exact ih _ hc (forall_snoc he hr) hrest
    · exact ih _ (forall_snoc hc hr) he hrest

/-- A mixed take chooses among the rows it is given. -/
theorem mem_mixedTake {caps : List (String × Int)} {below : Option Int}
    {id : String} (h : id ∈ mixedTake rows caps limit below) :
    ∃ r ∈ rows, r.leaseId = id := by
  have hurgent : ∀ id ∈ (urgentRows rows limit below).map
      (fun r => r.leaseId), ∃ r ∈ rows, r.leaseId = id := by
    intro id hid
    obtain ⟨r, hr, rfl⟩ := mem_map.1 hid
    refine ⟨r, ?_, rfl⟩
    cases below with
    | none => cases hr
    | some k =>
      have hr := (sliceTo_sublist _ _).subset hr
      rw [(perm_insertionSort _ _).mem_iff] at hr
      exact (mem_filter.1 hr).1
  unfold mixedTake at h
  obtain ⟨hchosen, hextra⟩ := mem_mixEnvs (P := fun id =>
    ∃ r ∈ rows, r.leaseId = id) caps limit
    ((urgentRows rows limit below).map fun r => r.leaseId) rows
    { chosen := (urgentRows rows limit below).map fun r => r.leaseId
      counts := (urgentRows rows limit below).foldl
        (fun c r => countEnv c r.environment) [] } hurgent
    (fun id hid => by cases hid) fun r hr => ⟨r, hr, rfl⟩
  rcases mem_append.1 h with h | h
  · exact hchosen id h
  · exact hextra id (mem_of_mem_take h)

/-- The fresh rows of a take are queued. -/
theorem queued_of_fresh {caps : List (String × Int)} {below : Option Int}
    {table : List BufferRow} (hkey : (table.map fun x => x.leaseId).Nodup)
    (h : x ∈ freshRows caps limit below table) :
    x ∈ table ∧ x.state = .queued := by
  have hfresh : ∀ r ∈ ordered BufferRow.arrivedBefore
      (table.filter BufferRow.isFresh), r ∈ table ∧ r.state = .queued := by
    intro r hr
    obtain ⟨hr, hf⟩ := mem_filter.1 (mem_ordered.1 hr)
    simp only [BufferRow.isFresh, Bool.and_eq_true, beq_iff_eq] at hf
    exact ⟨hr, hf.1⟩
  unfold freshRows at h
  split at h
  · exact hfresh x (mem_of_mem_sqlLimit h)
  · obtain ⟨id, hid, hx⟩ := mem_filterMap.1 h
    obtain ⟨r, hr, hrid⟩ := mem_mixedTake hid
    have hxid : x.leaseId = id := by simpa using find?_some hx
    have hmem := mem_of_find?_eq_some hx
    -- one row of an id
    have heq : x = r := eq_of_key hkey hmem (hfresh r hr).1
      (hxid.trans hrid.symm)
    rw [heq]
    exact hfresh r hr

theorem queued_of_retried {fresh table : List BufferRow}
    (h : x ∈ retriedRows limit fresh table) :
    x ∈ table ∧ x.state = .queued := by
  unfold retriedRows at h
  split at h
  · cases h
  · have hx := mem_ordered.1 (mem_of_mem_take h)
    obtain ⟨hx, hs⟩ := mem_filter.1 hx
    simp only [BufferRow.isSuspect, Bool.and_eq_true, beq_iff_eq] at hs
    exact ⟨hx, hs.1⟩

/-- A block that hands out, and undoes nothing where it raises. -/
theorem handsOut_txn {p : BufferProg (List SubmittedGroup)}
    (h : Spec (fun v => v = v₀) p (HandedOut v₀) fun _ _ => True) :
    Spec (fun v => v = v₀) (Prog.txn p) (HandedOut v₀)
      fun _ v => HandedRows v₀.file v.file := by
  refine (Spec.txn_at h).onError ?_
  intro e v hv
  obtain ⟨u, -, heq⟩ := hv
  rw [heq]
  exact handedRows_refl _

/-- A check before the rows are read. -/
theorem spec_check {α β : Type} {x : Except Err α}
    {f : α → BufferProg β} {Q : β → World (List BufferRow) BufferMem → Prop}
    (h : ∀ a, Spec (fun v => v = v₀) (f a) Q fun _ _ => True) :
    Spec (fun v => v = v₀) (Prog.lift x >>= f) Q fun _ _ => True :=
  Spec.bind (Q := fun _ v => v = v₀)
    (Spec.lift (fun _ _ _ hv => hv) fun _ _ _ _ => trivial) h

/-- What a take that counts no attempt hands out was queued. -/
theorem takeWhere_spec (p : BufferRow → Bool) (bound limit : Int)
    (scan : ScanOrder) : Spec (fun v => v = v₀) (takeWhere p bound limit scan)
      (HandedOut v₀) fun _ v => HandedRows v₀.file v.file := by
  refine handsOut_txn (spec_check fun _ => spec_check fun _ => ?_)
  refine .get_bind ?_
  intro v hv
  subst hv
  refine .modify_bind (Spec.pure ?_)
  intro u hu
  refine handedOut_markTaken ?_ ?_ (congrArg World.file hu)
  · exact fun _ => ⟨rfl, rfl, rfl⟩
  intro x hx
  have hx := (scan.perm _).mem_iff.1 (mem_of_mem_sqlLimit hx)
  obtain ⟨hx, hs⟩ := mem_filter.1 hx
  simp only [Bool.and_eq_true, beq_iff_eq] at hs
  exact ⟨hx, hs.1⟩

/-- What a take hands out was queued. -/
theorem take_spec (hkey : (v₀.file.map fun x => x.leaseId).Nodup) (limit : Int)
    (now : ℚ) (caps : Except Err (List (String × Int))) (latest : Option Int)
    (maxLag : Int) : Spec (fun v => v = v₀) (take limit now caps latest maxLag)
      (HandedOut v₀) fun _ v => HandedRows v₀.file v.file := by
  refine .bind (Q := fun groups v => HandedOut v₀ groups v)
    (handsOut_txn (spec_check fun caps => spec_check fun _ => ?_))
    fun groups => ?_
  · refine .get_bind ?_
    intro v hv
    subst hv
    refine .modify_bind (Spec.pure ?_)
    intro u hu
    refine handedOut_markTaken ?_ ?_ (congrArg World.file hu)
    · exact fun _ => ⟨rfl, rfl, rfl⟩
    exact forall_mem_append.2
      ⟨fun _ => queued_of_fresh hkey, fun _ => queued_of_retried⟩
  · refine .bind (Q := fun _ v => HandedOut v₀ groups v)
      (Spec.modify fun v hv => hv) fun _ => .pure fun _ hv => hv

end TrainingBuffer

end Reliquary.Rl
