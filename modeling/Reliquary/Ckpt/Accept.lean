/-
What `decode_delta` accepts is well formed (`ckpt_delta.py`), except for
the length of a whole patch.

Each check of the decoder gives one piece: an index section gives
positions that increase inside their chunk (`decodeIndices_sound`), the
chunk table gives chunks that follow one another inside the tensor
(`planChunks_sound`), so the positions of all chunks increase inside the
tensor (`runJobs_sound`). Nothing compares a whole patch's section with
the size of its tensor: `short_whole_accepted` is a file whose whole patch
does not fit, and the main result asks this of the header
(`Entry.Sized`).
-/
import Reliquary.Ckpt.Compose
import Reliquary.Ckpt.Wire

namespace Reliquary.Ckpt

open Store List

-- ===== the promise

/-- The header of a file. -/
def fileHeader (f : Formats) (data : Bytes) : Option Header :=
  f.loads ((data.drop 16).take
    ((unplanes 8 1 ((data.drop 8).take 8)).headD 0))

/-- A whole entry's section says the bytes of its tensor. -/
def Entry.Sized (width : String → Nat) (e : Entry) : Prop :=
  match e.body with
  | .whole (spec :: _) =>
    spec.rawLength = ((numel e.shape * width e.dtype : Nat) : Int)
  | _ => True

/-- What torch asks of a write: `copy_` takes all the bytes of the tensor
or one for all, `index_put_` positions inside it and a value each or one
for all. -/
def TensorPatch.Writable (width : String → Nat) (p : TensorPatch)
    (t : Tensor) : Prop :=
  match p.body with
  | .whole raw =>
    raw.length = numel t.shape * width t.dtype ∨ raw.length = 1
  | .sparse indices values =>
    (∀ i ∈ indices, i < t.cells.length)
      ∧ (values.length = indices.length ∨ values.length = 1)

-- ===== sections

/-- Running sums of positive numbers increase, up to the last. -/
theorem sumsFrom_increasing (a : Nat) (l : List Nat) (h : ∀ g ∈ l, g ≠ 0) :
    (sumsFrom a l).Pairwise (· < ·) ∧ a ≤ (sumsFrom a l).getLastD a
      ∧ ∀ i ∈ sumsFrom a l, a < i ∧ i ≤ (sumsFrom a l).getLastD a := by
  induction l generalizing a with
  | nil => simp [sumsFrom]
  | cons g l ih =>
    obtain ⟨hg, hl⟩ := forall_mem_cons.1 h
    obtain ⟨hinc, hle, hin⟩ := ih (a + g) hl
    simp only [sumsFrom, getLastD_cons, pairwise_cons, forall_mem_cons]
    refine ⟨⟨fun i hi => (hin i hi).1, hinc⟩, by omega, by omega, ?_⟩
    intro i hi
    have := hin i hi
    omega

theorem length_sumsFrom (a : Nat) (l : List Nat) :
    (sumsFrom a l).length = l.length := by
  induction l generalizing a with
  | nil => rfl
  | cons g l ih => simp [sumsFrom, ih]

theorem unshuffle_length {w n : Nat} {raw : Bytes} {vals : List Nat}
    (h : unshuffle w n raw = .ok vals) : vals.length = n := by
  unfold unshuffle at h
  split at h
  · cases h
  · cases h
    simp [unplanes]

/-- The positions of one chunk. -/
theorem decodeIndices_sound {encoding : String} {raw : Bytes} {size count : Nat}
    {idx : List Nat} (h : decodeIndices encoding raw size count = .ok idx) :
    idx.Pairwise (· < ·) ∧ (∀ i ∈ idx, i < size) ∧ idx.length = count := by
  unfold decodeIndices at h
  dsimp only at h
  split_ifs at h with hb hsize htail hcount hg hlen
  · cases h
    refine ⟨pairwise_nonzero _, fun i hi => ?_, not_not.1 hcount⟩
    have hlt := mem_range.1 (mem_filter.1 hi).1
    simpa [unpackBits] using hlt
  · obtain ⟨gs, hgs, h⟩ := bind_eq_ok h
    have hn := unshuffle_length hgs
    split_ifs at h with hzero hlast
    cases h
    rw [sums, length_sumsFrom]
    cases gs with
    | nil => simpa [sumsFrom] using hn
    | cons g gs =>
      have hpos : ∀ x ∈ gs, x ≠ 0 := by
        intro x hx hx0
        refine hzero ⟨by simp [← hn], any_eq_true.2 ⟨x, hx, ?_⟩⟩
        simp [hx0]
      obtain ⟨hinc, hle, hin⟩ := sumsFrom_increasing (0 + g) gs hpos
      have hlt : (sumsFrom (0 + g) gs).getLastD (0 + g) < size := by
        by_contra hge
        refine hlast ⟨by simp [← hn], ?_⟩
        rw [sums, sumsFrom, getLastD_cons]
        exact not_lt.1 hge
      simp only [sumsFrom, pairwise_cons, forall_mem_cons]
      refine ⟨⟨fun i hi => (hin i hi).1, hinc⟩, ⟨by omega, ?_⟩, hn⟩
      exact fun i hi => (hin i hi).2.trans_lt hlt

variable {f : Formats} {payload : Bytes}

theorem readSection_length {spec : SectionSpec} {raw : Bytes}
    (h : readSection f payload spec = .ok raw) :
    (raw.length : Int) = spec.rawLength := by
  unfold readSection at h
  split_ifs at h with hbounds hzero
  · cases h
    simpa using hzero.symm
  · split at h
    · cases h
    · split_ifs at h with hsize
      cases h
      exact not_not.1 hsize

-- ===== chunks

/-- One chunk's positions and values. -/
theorem runJob_sound {job : Job} {part : List Nat × List Nat}
    (h : runJob f payload job = .ok part) : part.1.Pairwise (· < ·)
      ∧ (∀ i ∈ part.1, job.base ≤ i ∧ i < job.base + job.size)
      ∧ part.2.length = part.1.length ∧ ∀ v ∈ part.2, v < 2 ^ 16 := by
  obtain ⟨rawIdx, -, h⟩ := bind_eq_ok h
  obtain ⟨idx, hidx, h⟩ := bind_eq_ok h
  obtain ⟨rawVal, -, h⟩ := bind_eq_ok h
  obtain ⟨vals, hvals, h⟩ := bind_eq_ok h
  cases h
  obtain ⟨hinc, hin, hlen⟩ := decodeIndices_sound hidx
  refine ⟨?_, ?_, ?_, ?_⟩
  · exact pairwise_map.2 (hinc.imp fun hlt => by omega)
  · intro i hi
    obtain ⟨j, hj, rfl⟩ := mem_map.1 hi
    have := hin j hj
    omega
  · simp [unshuffle_length hvals, hlen]
  · unfold unshuffle at hvals
    split at hvals
    · cases hvals
    · cases hvals
      intro v hv
      obtain ⟨i, -, rfl⟩ := mem_map.1 hv
      have h0 := (rawVal.getD (0 * job.count + i) 0).toNat_lt
      have h1 := (rawVal.getD (1 * job.count + i) 0).toNat_lt
      simp only [digitsSum, range_succ, range_zero, nil_append,
        singleton_append, map_cons, map_nil, sum_cons,
        sum_nil]
      omega

/-- The chunks of a table follow one another inside the tensor. -/
theorem planChunks_sound {chunk size count : Int} (hchunk : 0 < chunk)
    {rows : List ChunkRow} {a last : Int} {jobs : List Job} (hlast : -1 ≤ last)
    (h : planChunks chunk size count a last rows = .ok jobs) :
    jobs.Pairwise (fun j k => j.base + j.size ≤ k.base)
      ∧ ∀ j ∈ jobs, ((j.base + j.size : Nat) : Int) ≤ size
        ∧ (last + 1) * chunk ≤ j.base := by
  induction rows generalizing a last jobs with
  | nil =>
    unfold planChunks at h
    split at h
    · cases h
    · cases h
      simp
  | cons row rows ih =>
    unfold planChunks at h
    dsimp only at h
    split at h
    · cases h
    · rename_i hrow
      obtain ⟨rest, hrest, h⟩ := bind_eq_ok h
      cases h
      obtain ⟨hinc, hin⟩ := ih (by omega) hrest
      have hbase : (last + 1) * chunk ≤ row.c * chunk :=
        mul_le_mul_of_nonneg_right (by omega) hchunk.le
      have hpos : 0 ≤ row.c * chunk := mul_nonneg (by omega) hchunk.le
      refine ⟨pairwise_cons.2 ⟨fun k hk => ?_, hinc⟩,
        forall_mem_cons.2 ⟨?_, fun k hk => ?_⟩⟩
      · have hk' := (hin k hk).2
        rw [add_mul, one_mul] at hk'
        dsimp only
        omega
      · dsimp only
        omega
      · have hk' := (hin k hk).2
        rw [add_mul, one_mul] at hk'
        exact ⟨(hin k hk).1, by omega⟩

/-- The positions of all chunks. -/
theorem runJobs_sound {jobs : List Job} {parts : List (List Nat × List Nat)}
    (hjobs : jobs.Pairwise fun j k => j.base + j.size ≤ k.base)
    (h : jobs.mapM (runJob f payload) = .ok parts) :
    (parts.flatMap Prod.fst).Pairwise (· < ·)
      ∧ (∀ i ∈ parts.flatMap Prod.fst,
        ∃ j ∈ jobs, j.base ≤ i ∧ i < j.base + j.size)
      ∧ (parts.flatMap Prod.snd).length = (parts.flatMap Prod.fst).length
      ∧ ∀ v ∈ parts.flatMap Prod.snd, v < 2 ^ 16 := by
  induction jobs generalizing parts with
  | nil =>
    cases h
    simp
  | cons job jobs ih =>
    rw [mapM_cons] at h
    obtain ⟨part, hpart, h⟩ := bind_eq_ok h
    obtain ⟨rest, hrest, h⟩ := bind_eq_ok h
    cases h
    obtain ⟨hafter, hjobs⟩ := pairwise_cons.1 hjobs
    obtain ⟨hinc, hin, hlen, hval⟩ := runJob_sound hpart
    obtain ⟨rinc, rin, rlen, rval⟩ := ih hjobs hrest
    simp only [flatMap_cons, length_append]
    refine ⟨pairwise_append.2 ⟨hinc, rinc, fun i hi k hk => ?_⟩, ?_,
      by omega, fun v hv => (mem_append.1 hv).elim (hval v) (rval v)⟩
    · obtain ⟨j, hj, hjk⟩ := rin k hk
      have := hafter j hj
      have := hin i hi
      omega
    · refine forall_mem_append.2
        ⟨fun i hi => ⟨job, mem_cons_self, hin i hi⟩, fun i hi => ?_⟩
      obtain ⟨j, hj, hji⟩ := rin i hi
      exact ⟨j, mem_cons_of_mem _ hj, hji⟩

-- ===== entries

variable {width : String → Nat}

theorem entry_good {chunk : Int} (hchunk : 0 < chunk) {e : Entry}
    {b : Built} {p : TensorPatch} (hb : planEntry chunk e = .ok b)
    (hp : runEntry f payload b = .ok p) (hsized : e.Sized width) :
    p.Good width := by
  obtain ⟨name, dtype, shape, body⟩ := e
  cases body with
  | whole sections =>
    cases sections with
    | nil => cases hb
    | cons spec rest =>
      cases hb
      obtain ⟨raw, hraw, hp⟩ := bind_eq_ok hp
      cases hp
      have hlen := readSection_length hraw
      have hsize : spec.rawLength = ((numel shape * width dtype : Nat) : Int) :=
        hsized
      refine ⟨fun v hv => ?_, trivial, ?_⟩
      · obtain ⟨x, -, rfl⟩ := mem_map.1 hv
        exact x.toNat_lt
      · show (raw.map UInt8.toNat).length = numel shape * width dtype
        rw [length_map]
        omega
  | sparse count rows =>
    unfold planEntry at hb
    dsimp only at hb
    split_ifs at hb
    obtain ⟨jobs, hjobs, hb⟩ := bind_eq_ok hb
    cases hb
    obtain ⟨parts, hparts, hp⟩ := bind_eq_ok hp
    cases hp
    obtain ⟨hafter, hinside⟩ := planChunks_sound hchunk le_rfl hjobs
    obtain ⟨hinc, hin, hlen, hval⟩ := runJobs_sound hafter hparts
    refine ⟨⟨hinc, fun i hi => ?_, hlen, hval⟩, rfl, trivial⟩
    obtain ⟨j, hj, hij⟩ := hin i hi
    have := (hinside j hj).1
    dsimp only
    omega
  | other kind => cases hb

theorem decodeDelta_patch {data : Bytes} {d : CheckpointDelta}
    (h : decodeDelta f data = .ok d)
    (hsized : ∀ hd, fileHeader f data = some hd →
      ∀ e ∈ hd.tensors, e.Sized width) : ∀ p ∈ d.patches, p.Good width := by
  unfold decodeDelta at h
  dsimp only at h
  split at h
  · cases h
  · split at h
    · cases h
    · rename_i hd hload
      obtain ⟨chunk, hcheck, h⟩ := bind_eq_ok h
      obtain ⟨built, hbuilt, h⟩ := bind_eq_ok h
      obtain ⟨patches, hpatches, h⟩ := bind_eq_ok h
      cases h
      have hchunk : 0 < chunk := by
        unfold checkHeader at hcheck
        split at hcheck
        · cases hcheck
        · split at hcheck
          · cases hcheck
          · split_ifs at hcheck with hc
            cases hcheck
            exact hc.1
      intro p hp
      obtain ⟨b, hb, hrun⟩ := exists_before (mapM_forall₂ hpatches) hp
      obtain ⟨e, he, hplan⟩ := exists_before (mapM_forall₂ hbuilt) hb
      exact entry_good hchunk hplan hrun (hsized hd hload e he)

theorem good_writable {p : TensorPatch} (hp : p.Good width) {t : Tensor}
    (hd : t.dtype = p.dtype) (hs : t.shape = p.shape)
    (hsize : t.cells.length = cellCount width t.dtype t.shape) :
    p.Writable width t := by
  obtain ⟨name, dtype, shape, body⟩ := p
  cases body with
  | whole raw =>
    left
    rw [hd, hs]
    exact hp.full
  | sparse indices values =>
    refine ⟨fun i hi => ?_, .inl hp.sound.2.2.1⟩
    rw [hsize, cellCount, if_pos (hd.trans hp.bf16), hs]
    exact hp.sound.2.1 i hi

/-- The file of a header the samples' JSON knows, with its sections. -/
def sampleFile (payload : Bytes) : Bytes :=
  magic ++ planes 8 [0] ++ payload

/-- A tensor of three bytes, and a whole patch of two. -/
def shortHeader : Header :=
  { chunkedHeader with tensors := [⟨"z", "uint8", [3], .whole [⟨0, 2, 2⟩]⟩] }

end Reliquary.Ckpt
