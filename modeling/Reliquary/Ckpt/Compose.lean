/-
Composition of checkpoint deltas (`compose_deltas`, `_merge_sparse` and
`_apply_to_whole` of `ckpt_delta.py`), and why it is application of one
delta after the other.

A delta is read as a partial map of cells (`CheckpointDelta.cell`). A
well-formed delta that fits a checkpoint overwrites it by that map
(`cellAt_apply`), and a composed delta's map is the second's with the
first's where the second is silent (`cell_compose`). Two applications and
the one of the composition then agree cell by cell, and `checkpoint_ext`
makes them one checkpoint.

`width` is the element size torch gives a dtype, two bytes for bf16.
-/
import Reliquary.Ckpt.Delta
import Reliquary.Store.Sorted

namespace Reliquary.Ckpt

open Store List TensorPatch

-- ===== composition

/-- The bytes of 16-bit words. -/
def unwords (ws : List Nat) : List Nat :=
  ws.flatMap fun w => [w % 256, w / 256]

/-- `_merge_sparse`. -/
def mergeSparse (ai av bi bv : List Nat) : PatchBody :=
  let kept := (ai.zip av).filter fun x => x.1 ∉ bi
  let rows := sortBy Prod.fst (kept ++ bi.zip bv)
  .sparse (rows.map Prod.fst) (rows.map Prod.snd)

/-- `_apply_to_whole`. -/
def applyToWhole (raw bi bv : List Nat) : PatchBody :=
  .whole (unwords ((bi.zip bv).foldl (fun c x => c.set x.1 x.2) (words raw)))

def composeBody : PatchBody → PatchBody → PatchBody
  | _, .whole raw => .whole raw
  | .whole raw, .sparse bi bv => applyToWhole raw bi bv
  | .sparse ai av, .sparse bi bv => mergeSparse ai av bi bv

/-- The dictionary of patches by name: the last of a name is in it. -/
def CheckpointDelta.byName (d : CheckpointDelta) (name : String) :
    Option TensorPatch :=
  d.patches.reverse.find? fun p => p.name = name

def composeAt (first second : CheckpointDelta) (name : String) :
    Except DeltaError TensorPatch :=
  match first.byName name, second.byName name with
  | some a, some b =>
    if (a.dtype, a.shape) ≠ (b.dtype, b.shape) then
      .error (.kindsDiffer name)
    else
      .ok { b with body := composeBody a.body b.body }
  | none, some b => .ok b
  | some a, none => .ok a
  -- no name of the union is in neither
  | none, none => .error (.key name)

/-- `compose_deltas`. -/
def composeDeltas (first second : CheckpointDelta) :
    Except DeltaError CheckpointDelta :=
  if first.toVersion ≠ second.fromVersion
      ∨ first.targetSha256 ≠ second.baseSha256 then
    .error .notConsecutive
  else do
    let patches ← (sortSet ((first.patches ++ second.patches).map
      name).toFinset).mapM (composeAt first second)
    return { fromVersion := first.fromVersion, toVersion := second.toVersion
             baseSha256 := first.baseSha256
             targetSha256 := second.targetSha256, patches }

-- ===== well-formed

/-- The cells of a tensor. -/
def cellCount (width : String → Nat) (dtype : String) (shape : List Nat) :
    Nat :=
  if dtype = "bfloat16" then numel shape else numel shape * width dtype

/-- A whole patch has all the bytes of its tensor. -/
def TensorPatch.Full (width : String → Nat) (p : TensorPatch) : Prop :=
  match p.body with
  | .sparse _ _ => True
  | .whole raw => raw.length = numel p.shape * width p.dtype

/-- A well-formed patch. -/
structure TensorPatch.Good (width : String → Nat) (p : TensorPatch) : Prop where
  sound : p.Sound
  bf16 : p.SparseBf16
  full : p.Full width

/-- Well-formed patches, one a tensor. -/
structure CheckpointDelta.Good (width : String → Nat) (d : CheckpointDelta) :
    Prop where
  nodup : (d.patches.map name).Nodup
  patch : ∀ p ∈ d.patches, p.Good width

/-- Distinct names, and tensors with the cells of their dtype and shape. -/
structure Fitted (width : String → Nat) (s : Checkpoint) : Prop where
  nodup : (names s).Nodup
  size : ∀ n t, s.lookup n = some t →
    t.cells.length = cellCount width t.dtype t.shape

/-- The second delta starts where the first ends. -/
def Consecutive (a b : CheckpointDelta) : Prop :=
  a.toVersion = b.fromVersion ∧ a.targetSha256 = b.baseSha256

/-- Dtype and shape of a patch's tensor, by name. -/
def TensorPatch.kind (p : TensorPatch) : String × String × List Nat :=
  (p.name, p.dtype, p.shape)

/-- Patches of one tensor agree on its dtype and shape. -/
def SameKinds (a b : CheckpointDelta) : Prop :=
  ∀ p ∈ a.patches, ∀ q ∈ b.patches, p.name = q.name → p.kind = q.kind

-- ===== words

theorem length_words (raw : List Nat) :
    (words raw).length = raw.length / 2 := by
  induction raw using words.induct with
  | case1 lo hi raw ih =>
    simp only [words, length_cons, ih]
    omega
  | case2 raw h =>
    rcases raw with _ | ⟨x, _ | ⟨y, raw⟩⟩
    · rfl
    · simp [words]
    · exact absurd rfl (h x y raw)

theorem words_unwords (ws : List Nat) : words (unwords ws) = ws := by
  induction ws with
  | nil => rfl
  | cons w ws ih =>
    show (w % 256 + 256 * (w / 256)) :: words (unwords ws) = _
    rw [ih, Nat.mod_add_div]

theorem length_unwords (ws : List Nat) :
    (unwords ws).length = 2 * ws.length := by
  simp [unwords, Nat.mul_comm]

theorem words_lt {raw : List Nat} (h : ∀ v ∈ raw, v < 2 ^ 8) :
    ∀ w ∈ words raw, w < 2 ^ 16 := by
  induction raw using words.induct with
  | case1 lo hi raw ih =>
    simp only [words, forall_mem_cons] at h ⊢
    exact ⟨by omega, ih h.2.2⟩
  | case2 raw _ => simp [words]

theorem length_foldl_set (rows : List (Nat × Nat)) (cs : List Nat) :
    (rows.foldl (fun cs x => cs.set x.1 x.2) cs).length = cs.length := by
  induction rows generalizing cs with
  | nil => rfl
  | cons x rows ih => rw [foldl_cons, ih, length_set]

/-- A position after writes at distinct positions. -/
theorem getElem?_foldl_set (rows : List (Nat × Nat)) (cs : List Nat)
    (hnd : (rows.map Prod.fst).Nodup) (j : Nat) :
    (rows.foldl (fun cs x => cs.set x.1 x.2) cs)[j]?
      = if j < cs.length then (rows.lookup j).or cs[j]? else none := by
  induction rows generalizing cs with
  | nil =>
    by_cases hj : j < cs.length
    · simp [hj]
    · simp [hj]
  | cons x rows ih =>
    obtain ⟨i, v⟩ := x
    obtain ⟨hi, hnd⟩ := nodup_cons.1 hnd
    rw [foldl_cons, ih _ hnd, Store.lookup_cons, length_set]
    by_cases hj : j < cs.length
    · by_cases hji : j = i
      · subst hji
        have hnone : rows.lookup j = none := lookup_none hi
        simp [hnone, hj]
      · simp [hji, getElem?_set_ne (Ne.symm hji)]
    · simp [hj]

-- ===== partial maps

/-- What a patch writes at a flat position. -/
def TensorPatch.cell (p : TensorPatch) (j : Nat) : Option Nat :=
  match p.body with
  | .sparse indices values => (indices.zip values).lookup j
  | .whole raw => (wholeCells p.dtype raw)[j]?

/-- What a delta writes at a place. -/
def CheckpointDelta.cell (d : CheckpointDelta) (q : String × Nat) :
    Option Nat :=
  (d.byName q.1).bind fun p => p.cell q.2

variable {width : String → Nat} {p : TensorPatch} {d : CheckpointDelta}
  {s : Checkpoint}

theorem nodup_zip {is vs : List Nat} (his : is.Pairwise (· < ·))
    (hlen : vs.length = is.length) : ((is.zip vs).map Prod.fst).Nodup := by
  rw [map_fst_zip hlen.ge]
  exact his.imp Nat.ne_of_lt

theorem mem_writes (h : p.Sound) {w : Write} :
    w ∈ p.writes ↔ w.name = p.name ∧ p.cell w.pos = some w.bits := by
  obtain ⟨n, j, v⟩ := w
  obtain ⟨name, dtype, shape, body⟩ := p
  cases body with
  | sparse indices values =>
    have hnd := nodup_zip h.1 h.2.2.1
    have hiff : (j, v) ∈ indices.zip values
        ↔ (indices.zip values).lookup j = some v :=
      ⟨lookup_of_mem hnd, mem_of_lookup⟩
    simp only [writes, cell, ← hiff,
      ← map_uncurry_zip_eq_zipWith, mem_map, Function.uncurry]
    constructor
    · rintro ⟨x, hx, hxw⟩
      cases hxw
      exact ⟨rfl, hx⟩
    · rintro ⟨rfl, hx⟩
      exact ⟨_, hx, rfl⟩
  | whole raw =>
    simp only [writes, cell, mem_map,
      mem_zipIdx_iff_getElem?]
    constructor
    · rintro ⟨x, hx, hxw⟩
      cases hxw
      exact ⟨rfl, hx⟩
    · rintro ⟨rfl, hx⟩
      exact ⟨(v, j), hx, rfl⟩

theorem length_wholeCells (hw : width "bfloat16" = 2) {dtype : String}
    {shape raw : List Nat} (h : raw.length = numel shape * width dtype) :
    (wholeCells dtype raw).length = cellCount width dtype shape := by
  unfold wholeCells cellCount
  split
  · rename_i hd
    subst hd
    rw [length_words, h, hw]
    omega
  · exact h

/-- A patch writes inside its tensor. -/
theorem cell_lt (hw : width "bfloat16" = 2) (h : p.Good width) {j : Nat}
    (hj : p.cell j ≠ none) : j < cellCount width p.dtype p.shape := by
  obtain ⟨name, dtype, shape, body⟩ := p
  cases body with
  | sparse indices values =>
    obtain ⟨v, hv⟩ := Option.ne_none_iff_exists'.1 hj
    rw [cellCount, if_pos (show dtype = "bfloat16" from h.bf16)]
    exact h.sound.2.1 j (of_mem_zip (mem_of_lookup hv)).1
  | whole raw =>
    rw [← length_wholeCells hw h.full]
    by_contra hle
    exact hj (getElem?_eq_none (by omega))

theorem byName_eq (hnd : (d.patches.map name).Nodup)
    {n : String} : d.byName n = some p ↔ p ∈ d.patches ∧ p.name = n := by
  have hfound : ∀ q, d.byName n = some q → q ∈ d.patches ∧ q.name = n := by
    intro q hq
    exact ⟨mem_reverse.1 (mem_of_find?_eq_some hq),
      by simpa using find?_some hq⟩
  refine ⟨hfound p, ?_⟩
  rintro ⟨hp, rfl⟩
  cases hb : d.byName p.name with
  | none =>
    have hnone := find?_eq_none.1 hb p (mem_reverse.2 hp)
    simp at hnone
  | some q =>
    obtain ⟨hq, hname⟩ := hfound q hb
    rw [inj_on_of_nodup_map hnd hq hp hname]

theorem byName_none {n : String} (h : d.byName n = none)
    (hp : p ∈ d.patches) : p.name ≠ n := by
  simpa using find?_eq_none.1 h p (mem_reverse.2 hp)

theorem cell_of_mem (hd : d.Good width) (hp : p ∈ d.patches) (j : Nat) :
    d.cell (p.name, j) = p.cell j := by
  simp [CheckpointDelta.cell, (byName_eq hd.nodup).2 ⟨hp, rfl⟩]

theorem mem_delta_writes (hd : d.Good width) {w : Write} :
    w ∈ d.writes ↔ d.cell w.place = some w.bits := by
  simp only [CheckpointDelta.writes, mem_flatMap]
  constructor
  · rintro ⟨p, hp, hwp⟩
    obtain ⟨hn, hc⟩ := (mem_writes (hd.patch p hp).sound).1 hwp
    rw [Write.place, hn, cell_of_mem hd hp, hc]
  · intro h
    obtain ⟨p, hp, hc⟩ := Option.bind_eq_some_iff.1 h
    obtain ⟨hmem, hn⟩ := (byName_eq hd.nodup).1 hp
    exact ⟨p, hmem, (mem_writes (hd.patch p hmem).sound).2 ⟨hn.symm, hc⟩⟩

-- ===== application

theorem fits_iff : fits s p = true
      ↔ ∃ t, s.lookup p.name = some t ∧ t.dtype = p.dtype
        ∧ t.shape = p.shape := by
  unfold fits
  cases s.lookup p.name with
  | none => simp
  | some t => simp

/-- Whether a patch fits is read off the names, dtypes and shapes. -/
theorem fits_congr {s' : Checkpoint} (hl : layout s = layout s')
    {q : TensorPatch} (hk : p.kind = q.kind) (h : fits s p = true) :
    fits s' q = true := by
  obtain ⟨t, ht, hd, hsh⟩ := fits_iff.1 h
  obtain ⟨u, hu, hkind⟩ := kin_of_layout hl.symm ht
  simp only [kind, Prod.mk.injEq, Tensor.kind] at hk hkind
  rw [hk.1] at hu
  exact fits_iff.2 ⟨u, hu, hkind.1.trans (hd.trans hk.2.1),
    hkind.2.1.trans (hsh.trans hk.2.2)⟩

theorem Fitted.congr {s' : Checkpoint} (h : Fitted width s)
    (hl : layout s' = layout s) : Fitted width s' := by
  refine ⟨?_, ?_⟩
  · rw [← names_layout, hl, names_layout]
    exact h.nodup
  · intro n t ht
    obtain ⟨u, hu, hkind⟩ := kin_of_layout hl.symm ht
    have hsize := h.size n u hu
    simp only [Tensor.kind, Prod.mk.injEq] at hkind
    rw [← hkind.1, ← hkind.2.1, ← hkind.2.2, hsize]

theorem applyDelta_toOption (s : Checkpoint) (d : CheckpointDelta) :
    (applyDelta s d).toOption = if ∀ p ∈ d.patches, fits s p = true then
          some (d.writes.foldl writeCell s) else none := by
  unfold applyDelta
  cases hf : d.patches.find? fun p => !fits s p with
  | none =>
    have hall : ∀ p ∈ d.patches, fits s p = true := by
      simpa using hf
    rw [if_pos hall]
    rfl
  | some p =>
    rw [if_neg]
    · rfl
    · intro hall
      have hp := find?_some hf
      rw [hall p (mem_of_find?_eq_some hf)] at hp
      cases hp

/-- A fitting delta overwrites a checkpoint by its map of cells. -/
theorem cellAt_apply (hw : width "bfloat16" = 2) (hd : d.Good width)
    (hs : Fitted width s) (hfit : ∀ p ∈ d.patches, fits s p = true)
    (q : String × Nat) :
    cellAt (d.writes.foldl writeCell s) q = (d.cell q).or (cellAt s q) := by
  have hthere : ∀ w ∈ d.writes, (cellAt s w.place).isSome := by
    intro w hmem
    obtain ⟨p, hp, hc⟩ :=
      Option.bind_eq_some_iff.1 ((mem_delta_writes hd).1 hmem)
    obtain ⟨hpm, hn⟩ := (byName_eq hd.nodup).1 hp
    obtain ⟨t, ht, hdt, hsh⟩ := fits_iff.1 (hfit p hpm)
    have hlt := cell_lt hw (hd.patch p hpm) (hc ▸ Option.some_ne_none _)
    have hsize := hs.size _ t ht
    rw [hdt, hsh] at hsize
    rw [hn] at ht
    simpa [cellAt, ht, hsize] using hlt
  rw [cellAt_writes d.writes s (fun w h => (mem_delta_writes hd).1 h) hthere]
  cases hc : d.cell q with
  | none =>
    rw [if_neg]
    · rfl
    · intro hmem
      obtain ⟨w, hwm, rfl⟩ := mem_map.1 hmem
      rw [(mem_delta_writes hd).1 hwm] at hc
      cases hc
  | some v =>
    rw [if_pos]
    · rfl
    · exact mem_map.2 ⟨⟨q.1, q.2, v⟩, (mem_delta_writes hd).2 hc, rfl⟩

-- ===== one tensor's composition

/-- A read does not depend on the order of rows with distinct keys. -/
theorem lookup_perm {l l' : List (Nat × Nat)} (h : l.Perm l')
    (hnd : (l.map Prod.fst).Nodup) (j : Nat) : l.lookup j = l'.lookup j := by
  have hnd' := (h.map Prod.fst).nodup_iff.1 hnd
  apply Option.ext
  intro v
  constructor
  · intro hv
    exact lookup_of_mem hnd' (h.mem_iff.1 (mem_of_lookup hv))
  · intro hv
    exact lookup_of_mem hnd (h.mem_iff.2 (mem_of_lookup hv))

section Merge

variable {ai av bi bv : List Nat}

/-- The rows of a merge before they are sorted. -/
def mergeRows (ai av bi bv : List Nat) : List (Nat × Nat) :=
  ((ai.zip av).filter fun x => x.1 ∉ bi) ++ bi.zip bv

theorem nodup_mergeRows (ha : ai.Pairwise (· < ·)) (hb : bi.Pairwise (· < ·))
    (hla : av.length = ai.length) (hlb : bv.length = bi.length) :
    ((mergeRows ai av bi bv).map Prod.fst).Nodup := by
  rw [mergeRows, map_append, map_fst_zip hlb.ge]
  refine List.Nodup.append ?_ (hb.imp Nat.ne_of_lt) ?_
  · exact (nodup_zip ha hla).sublist (filter_sublist.map _)
  · intro i hi hib
    obtain ⟨x, hx, rfl⟩ := mem_map.1 hi
    simpa [hib] using (mem_filter.1 hx).2

/-- Later values win. -/
theorem lookup_mergeRows (hlb : bv.length = bi.length) (j : Nat) :
    (mergeRows ai av bi bv).lookup j
      = ((bi.zip bv).lookup j).or ((ai.zip av).lookup j) := by
  rw [mergeRows, lookup_append, lookup_filterKey (fun i => i ∉ bi)]
  by_cases hj : j ∈ bi
  · rw [← map_fst_zip hlb.ge] at hj
    obtain ⟨x, hx, rfl⟩ := mem_map.1 hj
    obtain ⟨v, hv⟩ := Option.isSome_iff_exists.1 (isSome_lookup_of_mem hx)
    have hin := (of_mem_zip hx).1
    simp [hv, hin]
  · have hnone : (bi.zip bv).lookup j = none := by
      cases hl : (bi.zip bv).lookup j with
      | none => rfl
      | some v => exact absurd (of_mem_zip (mem_of_lookup hl)).1 hj
    simp [hnone, hj]

theorem mem_mergeRows {x : Nat × Nat} (hx : x ∈ mergeRows ai av bi bv) :
    (x.1 ∈ ai ∧ x.2 ∈ av) ∨ (x.1 ∈ bi ∧ x.2 ∈ bv) := by
  rcases mem_append.1 hx with hx | hx
  · exact .inl (of_mem_zip (mem_filter.1 hx).1)
  · exact .inr (of_mem_zip hx)

end Merge

/-- A merge's cells are the second's, then the first's. -/
theorem cell_composeBody (hw : width "bfloat16" = 2) {a b : TensorPatch}
    (ha : a.Good width) (hb : b.Good width) (hk : a.kind = b.kind) (j : Nat) :
    cell { b with body := composeBody a.body b.body } j
      = (b.cell j).or (a.cell j) := by
  obtain ⟨name, dtype, shape, abody⟩ := a
  obtain ⟨name', dtype', shape', bbody⟩ := b
  cases hk
  cases bbody with
  | whole raw =>
    -- a whole patch is silent nowhere in the tensor
    cases hc : (wholeCells dtype raw)[j]? with
    | some v => simp [composeBody, cell, hc]
    | none =>
      have hle := List.getElem?_eq_none_iff.1 hc
      rw [length_wholeCells hw hb.full] at hle
      have hnone : cell ⟨name, dtype, shape, abody⟩ j = none := by
        by_contra hne
        exact absurd (cell_lt hw ha hne) (by simpa using hle)
      rw [hnone]
      simp [composeBody, cell, hc]
  | sparse bi bv =>
    obtain ⟨hinc, hin, hlen, _⟩ := hb.sound
    obtain rfl : dtype = "bfloat16" := hb.bf16
    cases abody with
    | sparse ai av =>
      obtain ⟨hainc, _, halen, _⟩ := ha.sound
      have hnd := nodup_mergeRows hainc hinc halen hlen
      show ((((sortBy Prod.fst (mergeRows ai av bi bv)).map Prod.fst).zip
        ((sortBy Prod.fst (mergeRows ai av bi bv)).map Prod.snd)).lookup j) = _
      rw [← unzip_fst, ← unzip_snd, zip_unzip,
        ← lookup_perm (perm_sortBy _ _).symm hnd, lookup_mergeRows hlen]
      rfl
    | whole raw =>
      have hsize := length_wholeCells hw ha.full
      have hnd := nodup_zip hinc hlen
      simp only [composeBody, applyToWhole, cell,
        wholeCells, if_true, words_unwords] at hsize ⊢
      rw [getElem?_foldl_set _ _ hnd]
      split
      · rfl
      · rename_i hj
        have hnone : (bi.zip bv).lookup j = none := by
          by_contra hne
          exact hj (hsize ▸ cell_lt hw hb hne)
        rw [hnone, getElem?_eq_none (by omega)]
        rfl

theorem good_compose {a b : TensorPatch} (ha : a.Good width)
    (hb : b.Good width) (hk : a.kind = b.kind) (hw : width "bfloat16" = 2) :
    TensorPatch.Good width { b with body := composeBody a.body b.body } := by
  obtain ⟨name, dtype, shape, abody⟩ := a
  obtain ⟨name', dtype', shape', bbody⟩ := b
  cases hk
  cases bbody with
  | whole raw => exact hb
  | sparse bi bv =>
    obtain ⟨hinc, hin, hlen, hval⟩ := hb.sound
    obtain rfl : dtype = "bfloat16" := hb.bf16
    cases abody with
    | sparse ai av =>
      obtain ⟨hainc, hain, halen, haval⟩ := ha.sound
      have hmem : ∀ x ∈ sortBy Prod.fst (mergeRows ai av bi bv),
          (x.1 ∈ ai ∧ x.2 ∈ av) ∨ (x.1 ∈ bi ∧ x.2 ∈ bv) :=
        fun x hx => mem_mergeRows ((perm_sortBy _ _).mem_iff.1 hx)
      refine ⟨⟨?_, ?_, ?_, ?_⟩, rfl, trivial⟩
      · have hle := pairwise_map.2
          (pairwise_orderBy Prod.fst (mergeRows ai av bi bv))
        have hne := nodup_sortBy (nodup_mergeRows hainc hinc halen hlen)
        exact (hle.and hne).imp fun h => Nat.lt_of_le_of_ne h.1 h.2
      · intro i hi
        obtain ⟨x, hx, rfl⟩ := mem_map.1 hi
        exact (hmem x hx).elim (fun h => hain _ h.1) fun h => hin _ h.1
      · simp
      · intro v hv
        obtain ⟨x, hx, rfl⟩ := mem_map.1 hv
        exact (hmem x hx).elim (fun h => haval _ h.2) fun h => hval _ h.2
    | whole raw =>
      refine ⟨?_, trivial, ?_⟩
      · have hws : ∀ w ∈ (bi.zip bv).foldl (fun cs x => cs.set x.1 x.2)
            (words raw), w < 2 ^ 16 := by
          refine foldlRecOn (motive := fun cs => ∀ w ∈ cs, w < 2 ^ 16)
            _ _ (words_lt ha.sound) ?_
          intro cs hcs x hx w hwm
          rcases mem_or_eq_of_mem_set hwm with h | rfl
          · exact hcs w h
          · exact hval _ (of_mem_zip hx).2
        intro v hv
        obtain ⟨w, hwm, hvw⟩ := mem_flatMap.1 hv
        have hlt := hws w hwm
        simp only [mem_cons, not_mem_nil, or_false] at hvw
        omega
      · have hfull : raw.length = numel shape * width "bfloat16" := ha.full
        show (unwords _).length = numel shape * width "bfloat16"
        rw [length_unwords, length_foldl_set, length_words, hfull, hw]
        omega

-- ===== whole composition

/-- What composition makes of two deltas. -/
structure Composes (width : String → Nat) (a b c : CheckpointDelta) : Prop where
  start : c.fromVersion = a.fromVersion ∧ c.baseSha256 = a.baseSha256
  stop : c.toVersion = b.toVersion ∧ c.targetSha256 = b.targetSha256
  good : c.Good width
  /-- the tensors patched are those of either delta -/
  comes : ∀ p ∈ c.patches, ∃ q ∈ a.patches ++ b.patches, q.kind = p.kind
  stays : ∀ q ∈ a.patches ++ b.patches, ∃ p ∈ c.patches, p.kind = q.kind
  cell : ∀ q, c.cell q = (b.cell q).or (a.cell q)

/-- What it makes of one tensor's patches. -/
structure ComposesAt (width : String → Nat) (a b : CheckpointDelta)
    (n : String) (p : TensorPatch) : Prop where
  name : p.name = n
  good : p.Good width
  comes : ∃ q ∈ a.patches ++ b.patches, q.kind = p.kind
  cell : ∀ j, p.cell j = (b.cell (n, j)).or (a.cell (n, j))

section Two

variable {a b c : CheckpointDelta}

theorem composeAt_ok (hw : width "bfloat16" = 2) (ha : a.Good width)
    (hb : b.Good width) (hk : SameKinds a b) {n : String}
    (hn : n ∈ (a.patches ++ b.patches).map name) :
    ∃ p, composeAt a b n = .ok p ∧ ComposesAt width a b n p := by
  unfold composeAt
  cases hpa : a.byName n with
  | none =>
    cases hpb : b.byName n with
    | none =>
      obtain ⟨q, hq, hqn⟩ := mem_map.1 hn
      rcases mem_append.1 hq with hq | hq
      · exact absurd hqn (byName_none hpa hq)
      · exact absurd hqn (byName_none hpb hq)
    | some q =>
      obtain ⟨hq, hqn⟩ := (byName_eq hb.nodup).1 hpb
      exact ⟨q, rfl, hqn, hb.patch q hq, ⟨q, mem_append_right _ hq, rfl⟩,
        fun j => by simp [CheckpointDelta.cell, hpa, hpb]⟩
  | some p =>
    obtain ⟨hp, hpn⟩ := (byName_eq ha.nodup).1 hpa
    cases hpb : b.byName n with
    | none =>
      exact ⟨p, rfl, hpn, ha.patch p hp, ⟨p, mem_append_left _ hp, rfl⟩,
        fun j => by simp [CheckpointDelta.cell, hpa, hpb]⟩
    | some q =>
      obtain ⟨hq, hqn⟩ := (byName_eq hb.nodup).1 hpb
      have hkind := hk p hp q hq (hpn.trans hqn.symm)
      have hsame : (p.dtype, p.shape) = (q.dtype, q.shape) :=
        congrArg Prod.snd hkind
      refine ⟨_, if_neg (not_not.2 hsame), hqn,
        good_compose (ha.patch p hp) (hb.patch q hq) hkind hw,
        ⟨q, mem_append_right _ hq, rfl⟩, ?_⟩
      intro j
      simpa [CheckpointDelta.cell, hpa, hpb] using
        cell_composeBody hw (ha.patch p hp) (hb.patch q hq) hkind j

/-- Patches of one name in either delta are of one kind. -/
theorem kind_of_name (ha : a.Good width) (hb : b.Good width)
    (hk : SameKinds a b) {p q : TensorPatch} (hp : p ∈ a.patches ++ b.patches)
    (hq : q ∈ a.patches ++ b.patches) (hn : p.name = q.name) :
    p.kind = q.kind := by
  rcases mem_append.1 hp with hp | hp <;>
    rcases mem_append.1 hq with hq | hq
  · rw [inj_on_of_nodup_map ha.nodup hp hq hn]
  · exact hk p hp q hq hn
  · exact (hk q hq p hp hn.symm).symm
  · rw [inj_on_of_nodup_map hb.nodup hp hq hn]

theorem composeDeltas_ok (hw : width "bfloat16" = 2) (ha : a.Good width)
    (hb : b.Good width) (hk : SameKinds a b) (hab : Consecutive a b) :
    ∃ c, composeDeltas a b = .ok c ∧ Composes width a b c := by
  set ns := sortSet ((a.patches ++ b.patches).map name).toFinset
    with hns
  have hone : ∀ n ∈ ns, ∃ p, composeAt a b n = .ok p
      ∧ ComposesAt width a b n p :=
    fun n hn => composeAt_ok hw ha hb hk (by simpa [hns] using hn)
  have : Nonempty TensorPatch := ⟨⟨"", "", [], .whole []⟩⟩
  choose! patch hok hat using hone
  let c : CheckpointDelta :=
    { fromVersion := a.fromVersion, toVersion := b.toVersion
      baseSha256 := a.baseSha256, targetSha256 := b.targetSha256
      patches := ns.map patch }
  have hgoods : c.Good width := by
    refine ⟨?_, ?_⟩
    · have hnames : (ns.map patch).map name = ns := by
        rw [map_map]
        exact (map_congr_left fun n hn => (hat n hn).name).trans ns.map_id
      rw [show c.patches = ns.map patch from rfl, hnames]
      exact nodup_sortSet _
    · intro p hp
      obtain ⟨n, hn, rfl⟩ := mem_map.1 hp
      exact (hat n hn).good
  have hmem : ∀ q ∈ a.patches ++ b.patches, q.name ∈ ns := by
    intro q hq
    rw [hns, mem_sortSet, mem_toFinset]
    exact mem_map_of_mem hq
  refine ⟨c, ?_, ⟨rfl, rfl⟩, ⟨rfl, rfl⟩, hgoods, ?_, ?_, ?_⟩
  · unfold composeDeltas
    rw [if_neg (by simp [hab.1, hab.2]), ← hns, mapM_ok ns hok]
    rfl
  · intro p hp
    obtain ⟨n, hn, rfl⟩ := mem_map.1 hp
    exact (hat n hn).comes
  · intro q hq
    obtain ⟨q', hq', hkind⟩ := (hat _ (hmem q hq)).comes
    refine ⟨patch q.name, mem_map_of_mem (hmem q hq), ?_⟩
    rw [← hkind]
    apply kind_of_name ha hb hk hq' hq
    exact (congrArg Prod.fst hkind).trans (hat _ (hmem q hq)).name
  · rintro ⟨n, j⟩
    by_cases hn : n ∈ ns
    · rw [← (hat n hn).cell, ← cell_of_mem hgoods (mem_map_of_mem hn),
        (hat n hn).name]
    · have hnone : ∀ d : CheckpointDelta, (∀ p ∈ d.patches, p.name ∈ ns) →
          d.cell (n, j) = none := by
        intro d hd
        have hby : d.byName n = none := by
          apply find?_eq_none.2
          intro p hp
          have hpn := hd p (mem_reverse.1 hp)
          simp only [decide_eq_true_eq]
          rintro rfl
          exact hn hpn
        simp [CheckpointDelta.cell, hby]
      rw [hnone a fun p hp => hmem p (mem_append_left _ hp),
        hnone b fun p hp => hmem p (mem_append_right _ hp), hnone c]
      · rfl
      · intro p hp
        obtain ⟨m, hm, rfl⟩ := mem_map.1 hp
        rw [(hat m hm).name]
        exact hm

/-- Applying a composition is applying the two. -/
theorem Composes.apply (hw : width "bfloat16" = 2) (ha : a.Good width)
    (hb : b.Good width) (h : Composes width a b c) {s : Checkpoint}
    (hs : Fitted width s) : (applyDelta s c).toOption
      = (applyDelta s a).toOption.bind fun t => (applyDelta t b).toOption := by
  have hla := layout_writes a.writes s
  rw [applyDelta_toOption, applyDelta_toOption]
  by_cases hfa : ∀ p ∈ a.patches, fits s p = true
  · rw [if_pos hfa, Option.bind_some, applyDelta_toOption]
    by_cases hfb : ∀ p ∈ b.patches, fits (a.writes.foldl writeCell s) p = true
    · have hfc : ∀ p ∈ c.patches, fits s p = true := by
        intro p hp
        obtain ⟨q, hq, hkind⟩ := h.comes p hp
        rcases mem_append.1 hq with hq | hq
        · exact fits_congr rfl hkind (hfa q hq)
        · exact fits_congr hla hkind (hfb q hq)
      have hlc := layout_writes c.writes s
      rw [if_pos hfb, if_pos hfc]
      congr 1
      apply checkpoint_ext
      · rw [hlc, layout_writes, hla]
      · exact (hs.congr hlc).nodup
      · funext q
        rw [cellAt_apply hw h.good hs hfc, h.cell, Option.or_assoc,
          cellAt_apply hw hb (hs.congr hla) hfb, cellAt_apply hw ha hs hfa]
    · rw [if_neg hfb, if_neg]
      intro hfc
      refine hfb fun q hq => ?_
      obtain ⟨p, hp, hkind⟩ := h.stays q (mem_append_right _ hq)
      exact fits_congr hla.symm hkind (hfc p hp)
  · rw [if_neg hfa, Option.bind_none, if_neg]
    intro hfc
    refine hfa fun q hq => ?_
    obtain ⟨p, hp, hkind⟩ := h.stays q (mem_append_left _ hq)
    exact fits_congr rfl hkind (hfc p hp)

theorem Composes.sameKinds {d : CheckpointDelta} (h : Composes width a b c)
    (ha : SameKinds a d) (hb : SameKinds b d) : SameKinds c d := by
  intro p hp q hq hn
  obtain ⟨r, hr, hkind⟩ := h.comes p hp
  have hrn : r.name = q.name := (congrArg Prod.fst hkind).trans hn
  rw [← hkind]
  rcases mem_append.1 hr with hr | hr
  · exact ha r hr q hq hrn
  · exact hb r hr q hq hrn

theorem SameKinds.symm (h : SameKinds a b) : SameKinds b a :=
  fun p hp q hq hn => (h q hq p hp hn.symm).symm

end Two

/-- `compose_deltas` is application of one delta after the other: two
consecutive well-formed deltas that agree on dtypes and shapes compose to
a well-formed delta whose application to any checkpoint is theirs, one
after the other (it raises when one of theirs does), and a third may be
composed on either side. -/
theorem composeDeltas_applies (hw : width "bfloat16" = 2)
    {a b c : CheckpointDelta} (ha : a.Good width) (hb : b.Good width)
    (hc : c.Good width) (hab : Consecutive a b) (hbc : Consecutive b c)
    (hkab : SameKinds a b) (hkbc : SameKinds b c) (hkac : SameKinds a c) :
    (∃ d, composeDeltas a b = .ok d ∧ d.Good width ∧ ∀ s, Fitted width s →
        (applyDelta s d).toOption = (applyDelta s a).toOption.bind fun t =>
              (applyDelta t b).toOption)
    ∧ ∃ ab bc l r, composeDeltas a b = .ok ab ∧ composeDeltas ab c = .ok l
      ∧ composeDeltas b c = .ok bc ∧ composeDeltas a bc = .ok r
      ∧ l.Good width ∧ r.Good width
      ∧ ∀ s, Fitted width s →
        (applyDelta s l).toOption = (applyDelta s r).toOption := by
  obtain ⟨ab, hab', h1⟩ := composeDeltas_ok hw ha hb hkab hab
  obtain ⟨bc, hbc', h2⟩ := composeDeltas_ok hw hb hc hkbc hbc
  obtain ⟨l, hl, h3⟩ := composeDeltas_ok hw h1.good hc
    (h1.sameKinds hkac hkbc) ⟨h1.stop.1.trans hbc.1, h1.stop.2.trans hbc.2⟩
  obtain ⟨r, hr, h4⟩ := composeDeltas_ok hw ha h2.good
    (h2.sameKinds hkab.symm hkac.symm).symm
    ⟨hab.1.trans h2.start.1.symm, hab.2.trans h2.start.2.symm⟩
  refine ⟨⟨ab, hab', h1.good, fun s hs => h1.apply hw ha hb hs⟩,
    ab, bc, l, r, hab', hl, hbc', hr, h3.good, h4.good, ?_⟩
  intro s hs
  rw [h3.apply hw h1.good hc hs, h4.apply hw ha h2.good hs,
    h1.apply hw ha hb hs, Option.bind_assoc]
  rw [applyDelta_toOption]
  split
  · exact (h2.apply hw hb hc (hs.congr (layout_writes _ s))).symm
  · rfl

/-- A step of a bf16 tensor. -/
def stepDelta (v : Int) (body : PatchBody) : CheckpointDelta :=
  ⟨v, v + 1, "", "", [⟨"w", "bfloat16", [2], body⟩]⟩

/-- A whole patch, then two sparse ones. -/
theorem composeDeltas_applies_steps :
    ∃ d, composeDeltas (stepDelta 0 (.whole [1, 0, 2, 0]))
      (stepDelta 1 (.sparse [1] [7])) = .ok d ∧ d.Good fun _ => 2 := by
  have hk : ∀ u v x y, SameKinds (stepDelta u x) (stepDelta v y) := by
    intro u v x y p hp q hq _
    rw [mem_singleton.1 hp, mem_singleton.1 hq]
    rfl
  have ha : (stepDelta 0 (.whole [1, 0, 2, 0])).Good fun _ => 2 :=
    ⟨by simp [stepDelta], by
      simpa [stepDelta] using ⟨by simp [TensorPatch.Sound], trivial, rfl⟩⟩
  have hb : ∀ v : Int, (stepDelta v (.sparse [1] [7])).Good fun _ => 2 :=
    fun v => ⟨by simp [stepDelta], by
      simpa [stepDelta] using
        ⟨by simp [TensorPatch.Sound, numel], rfl, trivial⟩⟩
  obtain ⟨⟨d, hd, hgood, _⟩, _⟩ := composeDeltas_applies rfl ha (hb 1) (hb 2)
    ⟨rfl, rfl⟩ ⟨rfl, rfl⟩ (hk _ _ _ _) (hk _ _ _ _) (hk _ _ _ _)
  exact ⟨d, hd, hgood⟩

end Reliquary.Ckpt
