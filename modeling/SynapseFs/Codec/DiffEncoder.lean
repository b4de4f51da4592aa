import SynapseFs.Codec.Permute
import SynapseFs.Codec.Residual
import SynapseFs.Core.Interfaces
import SynapseFs.Lib.Tiling

/-! The diff encoder: one artifact for each permutation group.

Every tensor whose dim 0 is bound to the group contributes its frames; a frame
is the residual of the target's rows against the base's rows in permuted order,
transformed and compressed. -/
namespace SynapseFs.Codec
open Lib Core Format

structure EncodeOptions where
  residual : ResidualKind
  transform : Transform
  codec : Format.Codec
  compress : CompressOptions
  frameBytes : Nat
  verifyRoundTrip : Bool
  deriving DecidableEq, Repr

structure EncodeResult where
  artifact : Bytes
  payloadBytes : Nat
  fullBytes : Nat
  deriving DecidableEq, Repr

/-- What the codec uses from outside the tree. -/
structure Libs where
  json : JsonLib
  zstd : Zstd
  blake3 : Bytes → Oid

/-- `std::vector` holds at most `PTRDIFF_MAX` bytes. -/
def kMaxVector : Nat := 2 ^ 63

/-! ### Permutations -/

/-- The loop over the indices: 32-bit, so it only ends on a shorter list or at a
moved index. -/
def isIdentity (perm : List Nat) : Outcome Bool :=
  if (perm.take (2 ^ 32)).zipIdx.any fun (p, i) => p ≠ i then .ok false
  else if 2 ^ 32 ≤ perm.length then .error (.undefined "loop without end")
  else .ok true

/-- The index arithmetic is 32-bit. -/
def storeIndices (region : Bytes) (width n : Nat) (perm : List Nat) : Bytes :=
  (List.range n).foldl (fun r i => overwrite r (u32 (i * width)) (storeLe width (perm.getD i 0))) region

/-- The reference and the payload behind it. -/
def writePermutation (payload : Bytes) (perm : List Nat) : Outcome (PermutationRef × Bytes) := do
  let n := u32 perm.length
  if ← isIdentity perm then return ({ PermutationRef.default with n }, payload)
  else
    let width := if n ≤ 65536 then 2 else 4
    let len := n * width
    return ({ kind := .explicit, n, width, off := payload.length, len },
      payload ++ storeIndices (List.replicate len 0) width n perm)

/-! ### Frames -/

/-- The rows of one run, whatever the source says it read. -/
def readRun (base : TensorSource) (name : String) (unitBytes : Nat) (run : UnitRun) : Outcome Bytes := do
  let (_, bytes) ← base.readUnits name run.first run.count (List.replicate (run.count * unitBytes) 0)
  return bytes

def gatherBaseUnits (base : TensorSource) (name : String) (expanded : List Nat) (first count unitBytes : Nat) :
    Outcome Bytes :=
  gather "gather_base_units" name (readRun base name unitBytes) expanded first count unitBytes

/-- What the frame loop carries. -/
structure FrameState where
  payload : Bytes
  fullBytes : Nat
  frames : List FrameIndexEntry

/-- The re-read that `verify_round_trip` asks for. -/
def checkRoundTrip (opts : EncodeOptions) (dtype : DType) (name : String) (base resid target : Bytes) : Outcome Unit :=
  if opts.verifyRoundTrip then do
    let check ← applyResidual opts.residual .none dtype base resid (List.replicate target.length 0)
    if check ≠ target then sfsErr .internal "encode/apply_residual round trip mismatch" name else .ok ()
  else .ok ()

/-- The residual of rows `[a, b)`; a raw one reads no base. -/
def frameResidual (opts : EncodeOptions) (base : TensorSource) (dtype : DType) (name : String) (expanded : List Nat)
    (unitBytes a b : Nat) (target : Bytes) : Outcome Bytes :=
  match opts.residual with
  | .raw => .ok target
  | kind => do
    let gathered ← gatherBaseUnits base name expanded a (b - a) unitBytes
    let resid := encodeResidual kind dtype gathered target
    checkRoundTrip opts dtype name gathered resid target
    return resid

def encodeFrame (libs : Libs) (opts : EncodeOptions) (base target : TensorSource) (dtype : DType) (name : String)
    (expanded : List Nat) (unitBytes : Nat) (s : FrameState) (range : Nat × Nat) : Outcome FrameState := do
  let (a, b) := range
  let (n, targetBytes) ← target.readUnits name a (b - a) (List.replicate ((b - a) * unitBytes) 0)
  let resid ← frameResidual opts base dtype name expanded unitBytes a b targetBytes
  let comp ← compressFrame libs.zstd (applyTransform opts.transform dtype resid) opts.compress
  return {
    payload := s.payload ++ comp
    fullBytes := u64 (s.fullBytes + n)
    frames := s.frames ++ [⟨a, b, s.payload.length, comp.length, libs.blake3 targetBytes⟩] }

/-- A unit larger than the target size gets a frame of its own. -/
def frameUnits (frameBytes unitBytes : Nat) : Nat := max 1 (frameBytes / max 1 unitBytes)

/-! ### Artifacts -/

/-- What the loop over the tensors carries. -/
structure EncodeState where
  payload : Bytes
  fullBytes : Nat
  tensors : List TensorDiff

/-- The first dim-0 axis of the tensor that is bound to the group. -/
def dimZeroBinding (group : String) (axes : List AxisBinding) : Option AxisBinding :=
  axes.find? fun axis => axis.dim = 0 ∧ axis.group = group

def encodeTensor (libs : Libs) (opts : EncodeOptions) (base target : TensorSource) (perm : List Nat) (name : String)
    (binding : AxisBinding) (s : EncodeState) : Outcome EncodeState :=
  match target.tensorMeta name with
  | none => sfsErr .tensorNotInBufferLayout "tensor not in target" name
  | some m => do
    let unitBytes ← m.unitBytes binding.dim
    let expanded := expand perm binding.block
    let total := expanded.length
    if m.shape[binding.dim]? ≠ some total then
      sfsErr .blockFactorMismatch "expanded permutation size != axis length" name
    else
      let fs ← (steps total (frameUnits opts.frameBytes unitBytes)).foldlM
        (encodeFrame libs opts base target m.dtype name expanded unitBytes) ⟨s.payload, s.fullBytes, []⟩
      let tdiff : TensorDiff :=
        { shapeName := name, shape := m.shape, dtype := m.dtype, residual := opts.residual,
          transform := opts.transform, frames := fs.frames }
      tdiff.validateTiling total
      return ⟨fs.payload, fs.fullBytes, s.tensors ++ [tdiff]⟩

/-- One step of the loop over `topology.tensors`. -/
def encodeBound (libs : Libs) (opts : EncodeOptions) (base target : TensorSource) (group : String) (perm : List Nat)
    (s : EncodeState) (entry : String × List AxisBinding) : Outcome EncodeState :=
  match dimZeroBinding group entry.2 with
  | none => .ok s
  | some binding => encodeTensor libs opts base target perm entry.1 binding s

/-- `[8-byte length][JSON header][payload]`. -/
def layOut (text payload : Bytes) : Bytes := storeLe 8 text.length ++ (text ++ payload)

def encodeGroup (libs : Libs) (base target : TensorSource) (topology : Topology) (group : String) (perm : List Nat)
    (alignable : Bool) (alignment : AlignmentInfo) (opts : EncodeOptions) : Outcome EncodeResult := do
  let (ref, payload) ← writePermutation [] perm
  let s ← topology.tensors.entries.foldlM (encodeBound libs opts base target group perm) ⟨payload, 0, []⟩
  let header : DiffHeader :=
    { formatVersion := 1, group, codec := opts.codec, permutation := ref, tensors := s.tensors, alignable, alignment }
  let text := header.toCanonicalJson libs.json
  if kMaxVector ≤ 8 + text.length + s.payload.length then .error (.exception "vector::_M_default_append")
  else return ⟨layOut text s.payload, s.payload.length, s.fullBytes⟩

/-! ### Permutations as written -/

theorem isIdentity_eq {perm : List Nat} (h : perm.length < 2 ^ 32) :
    isIdentity perm = .ok (decide (perm = List.range perm.length)) := by
  unfold isIdentity
  rw [List.take_of_length_le h.le]
  by_cases hid : perm = List.range perm.length
  · rw [if_neg, if_neg (by omega), decide_eq_true hid]
    rw [List.any_eq_true]
    rintro ⟨⟨p, i⟩, hmem, hne⟩
    have hget := List.mem_zipIdx_iff_getElem?.mp hmem
    rw [hid] at hget
    obtain ⟨_, hp⟩ := List.getElem?_eq_some_iff.mp hget
    rw [List.getElem_range] at hp
    exact absurd hp.symm (of_decide_eq_true hne)
  · rw [if_pos, decide_eq_false hid]
    rw [List.any_eq_true]
    by_contra hall
    refine hid (List.ext_getElem (by simp) fun i hi hi' => ?_)
    rw [List.getElem_range]
    by_contra hne
    exact hall ⟨(perm[i], i), List.mem_zipIdx_iff_getElem?.mpr (List.getElem?_eq_getElem hi), decide_eq_true hne⟩

/-- Without wraparound the indices stand one behind the other. -/
theorem storeIndices_eq {perm : List Nat} {width : Nat} (hw : perm.length * width ≤ 2 ^ 32) :
    storeIndices (List.replicate (perm.length * width) 0) width perm.length perm = perm.flatMap (storeLe width) := by
  have hpre : ∀ k ≤ perm.length, (List.range k).foldl
      (fun r i => overwrite r (u32 (i * width)) (storeLe width (perm.getD i 0)))
        (List.replicate (perm.length * width) 0) =
      filled ((perm.take k).flatMap (storeLe width)) (List.replicate (perm.length * width) 0) := by
    intro k
    induction k with
    | zero => exact fun _ => (filled_nil _).symm
    | succ k ih =>
      intro hk
      have hlt : k < perm.length := hk
      have hoff : u32 (k * width) = ((perm.take k).flatMap (storeLe width)).length := by
        rw [length_flatMap_const _ _ fun p _ => length_storeLe width p, List.length_take, Nat.min_eq_left hlt.le]
        rcases Nat.eq_zero_or_pos width with rfl | hpos
        · rfl
        · exact u32_of_lt (((Nat.mul_lt_mul_right hpos).mpr hlt).trans_le hw)
      rw [List.range_succ, List.foldl_append, ih hlt.le, List.foldl_cons, List.foldl_nil, hoff, overwrite_filled,
        List.take_succ_eq_append_getElem hlt, List.flatMap_append, List.flatMap_singleton, List.getD_eq_getElem?_getD,
        List.getElem?_eq_getElem hlt]
      rfl
  have hall := hpre perm.length le_rfl
  rw [List.take_length] at hall
  rw [storeIndices, hall, filled_of_length_eq]
  rw [length_flatMap_const _ _ fun p _ => length_storeLe width p, List.length_replicate]

/-- The reference that is written for a moved permutation. -/
def explicitRef (perm : List Nat) : PermutationRef :=
  let width := if perm.length ≤ 65536 then 2 else 4
  { kind := .explicit, n := perm.length, width, off := 0, len := perm.length * width }

theorem writePermutation_identity (payload : Bytes) {n : Nat} (h : n < 2 ^ 32) :
    writePermutation payload (List.range n) = .ok ({ PermutationRef.default with n }, payload) := by
  unfold writePermutation
  rw [isIdentity_eq (by rwa [List.length_range]), List.length_range, decide_eq_true rfl, u32_of_lt h]
  rfl

theorem writePermutation_explicit (payload : Bytes) {perm : List Nat} (h : perm.length < 2 ^ 32)
    (hne : perm ≠ List.range perm.length) : ∃ indices,
      writePermutation payload perm = .ok ({ explicitRef perm with off := payload.length }, payload ++ indices) ∧
      (perm.length ≤ 2 ^ 30 → indices = perm.flatMap (storeLe (explicitRef perm).width)) := by
  refine ⟨storeIndices (List.replicate (explicitRef perm).len 0) (explicitRef perm).width perm.length perm, ?_, ?_⟩
  · unfold writePermutation
    rw [isIdentity_eq h, decide_eq_false hne, u32_of_lt h]
    rfl
  · intro hle
    refine storeIndices_eq ?_
    show perm.length * (if perm.length ≤ 65536 then 2 else 4) ≤ 2 ^ 32
    split <;> omega

theorem explicitRef_width (perm : List Nat) :
    (explicitRef perm).width = 2 ∧ perm.length ≤ 65536 ∨ (explicitRef perm).width = 4 ∧ 65536 < perm.length := by
  unfold explicitRef
  dsimp only
  split
  · exact .inl ⟨rfl, by assumption⟩
  · exact .inr ⟨rfl, by omega⟩

/-- A bijection of at most `2 ^ 30` units reads back from where it was written. -/
theorem readPermutation_written (front : Bytes) {perm : List Nat} (hv : isValidPermutation perm perm.length = true)
    (hle : perm.length ≤ 2 ^ 30) (more : Bytes) :
    readPermutation { explicitRef perm with off := front.length }
      (front ++ (perm.flatMap (storeLe (explicitRef perm).width) ++ more)) = .ok perm := by
  obtain ⟨-, hlt, -⟩ := isValidPermutation_iff.mp hv
  have hlen := length_flatMap_const (storeLe (explicitRef perm).width) perm fun p _ => length_storeLe _ p
  have hwidth := explicitRef_width perm
  have hoff : ({ explicitRef perm with off := front.length } : PermutationRef).off = front.length := rfl
  have hn : ({ explicitRef perm with off := front.length } : PermutationRef).n = perm.length := rfl
  have hw : ({ explicitRef perm with off := front.length } : PermutationRef).width = (explicitRef perm).width := rfl
  have hrlen : ({ explicitRef perm with off := front.length } : PermutationRef).len =
      perm.length * (explicitRef perm).width := rfl
  have hkind : ({ explicitRef perm with off := front.length } : PermutationRef).kind = .explicit := rfl
  generalize ({ explicitRef perm with off := front.length } : PermutationRef) = ref at hoff hn hw hrlen hkind ⊢
  rw [← hw] at hlen hwidth hrlen ⊢
  have hsmall : perm.length * ref.width ≤ 2 ^ 32 := by
    rcases hwidth with ⟨hw, -⟩ | ⟨hw, -⟩ <;> rw [hw] <;> omega
  have hload : ∀ i (hi : i < perm.length),
      loadIndex ref (front ++ (perm.flatMap (storeLe ref.width) ++ more)) i = .ok perm[i] := by
    intro i hi
    have hlast : i * ref.width + ref.width ≤ perm.length * ref.width := by
      rw [← Nat.succ_mul]
      exact Nat.mul_le_mul_right _ hi
    have hpos : 0 < ref.width := by
      rcases hwidth with ⟨hw, -⟩ | ⟨hw, -⟩ <;> rw [hw] <;> decide
    have hval : perm[i] < 256 ^ ref.width := by
      have := hlt _ (List.getElem_mem hi)
      rcases hwidth with ⟨hw, hsz⟩ | ⟨hw, -⟩ <;> rw [hw] <;> omega
    have hite : (if ref.width = 2 then 2 else 4) = ref.width := by
      rcases hwidth with ⟨hw, -⟩ | ⟨hw, -⟩ <;> simp [hw]
    unfold loadIndex
    dsimp only
    rw [hite, hoff, u32_of_lt (by omega), if_neg (by rw [List.length_append, List.length_append, hlen]; omega),
      slice_append_right, slice_append_left _ _ _ _ (by rw [hlen]; exact hlast), ← unit,
      unit_flatMap _ _ (fun p _ => length_storeLe _ p) i hi, loadLe_storeLe_of_lt hval]
  unfold readPermutation
  rw [hkind, hn, hrlen, hoff]
  dsimp only
  have hend : u64 (front.length + perm.length * ref.width) ≤ front.length + perm.length * ref.width := Nat.mod_le _ _
  rw [u64_of_lt (by omega), if_neg (not_not.mpr rfl),
    if_neg (by rw [List.length_append, List.length_append, hlen]; omega)]
  refine bind_eq_ok.mpr ⟨perm, mapM_range_eq_ok hload, ?_⟩
  rw [if_pos hv]
  rfl

/-! ### Frames as written -/

/-- The frame holds rows `[unitBegin, unitEnd)` of `target` against `gathered`. -/
structure FrameHolds (libs : Libs) (opts : EncodeOptions) (dtype : DType) (w : Nat) (gathered target payload : Bytes)
    (f : FrameIndexEntry) : Prop where
  inPayload : f.off + f.len ≤ payload.length
  decompresses : libs.zstd.decompress (slice payload f.off f.len) ((f.unitEnd - f.unitBegin) * w) =
    .ok (applyTransform opts.transform dtype (encodeResidual opts.residual dtype
      (slice gathered (f.unitBegin * w) ((f.unitEnd - f.unitBegin) * w))
      (slice target (f.unitBegin * w) ((f.unitEnd - f.unitBegin) * w))))
  digest_eq : f.digest = libs.blake3 (slice target (f.unitBegin * w) ((f.unitEnd - f.unitBegin) * w))

theorem FrameHolds.mono {libs : Libs} {opts : EncodeOptions} {dtype : DType} {w : Nat} {gathered target payload : Bytes}
    {f : FrameIndexEntry} (h : FrameHolds libs opts dtype w gathered target payload f) (more : Bytes) :
    FrameHolds libs opts dtype w gathered target (payload ++ more) f where
  inPayload := h.inPayload.trans (by simp)
  decompresses := by rw [slice_append_left _ _ _ _ h.inPayload, h.decompresses]
  digest_eq := h.digest_eq

/-- What one tensor offers the encoder: rows of `target`, and rows of the base
that come out of the gather as those of `gathered`. -/
structure Encodable (opts : EncodeOptions) (base target : TensorSource) (perm : List Nat) (name : String) (block : Nat)
    (m : TensorMeta) (w : Nat) (data gathered : Bytes) : Prop where
  meta_eq : target.tensorMeta name = some m
  unitBytes_eq : m.unitBytes 0 = .ok w
  rows : m.shape[0]? = some (perm.length * block)
  reads : target.ReadsRows name data w
  length_data : data.length = perm.length * block * w
  length_gathered : gathered.length = perm.length * block * w
  elements : w % m.dtype.size = 0
  gathers : opts.residual ≠ .raw → ∀ a count, a + count ≤ perm.length * block →
    gatherBaseUnits base name (expand perm block) a count w = .ok (slice gathered (a * w) (count * w))

/-- What the artifact says of a tensor, and what its payload holds for it. -/
structure TensorHolds (libs : Libs) (opts : EncodeOptions) (name : String) (m : TensorMeta) (w rows : Nat)
    (data gathered payload : Bytes) (t : TensorDiff) : Prop where
  fields : t = { shapeName := name, shape := m.shape, dtype := m.dtype, residual := opts.residual,
                 transform := opts.transform, frames := t.frames }
  tiles : Tiles 0 (t.frames.map fun f => (f.unitBegin, f.unitEnd)) rows
  frames : ∀ f ∈ t.frames, FrameHolds libs opts m.dtype w gathered data payload f

section
variable {libs : Libs} {opts : EncodeOptions} {base target : TensorSource} {perm : List Nat} {name : String} {block : Nat}
  {m : TensorMeta} {w : Nat} {data gathered : Bytes}

theorem length_rows {b : Bytes} {rows a c w : Nat} (hlen : b.length = rows * w) (hac : a + c ≤ rows) :
    (slice b (a * w) (c * w)).length = c * w := by
  have : (a + c) * w ≤ rows * w := Nat.mul_le_mul_right w hac
  rw [Nat.add_mul] at this
  rw [length_slice]
  omega

theorem mul_mod_size {c w size : Nat} (h : w % size = 0) : c * w % size = 0 :=
  Nat.mod_eq_zero_of_dvd ((Nat.dvd_of_mod_eq_zero h).mul_left c)

theorem frameResidual_eq (h : Encodable opts base target perm name block m w data gathered) {a b : Nat} (hab : a ≤ b)
    (hb : b ≤ perm.length * block) :
    frameResidual opts base m.dtype name (expand perm block) w a b (slice data (a * w) ((b - a) * w)) =
      .ok (encodeResidual opts.residual m.dtype (slice gathered (a * w) ((b - a) * w))
        (slice data (a * w) ((b - a) * w))) := by
  have hle : a + (b - a) ≤ perm.length * block := by omega
  have hdata := length_rows h.length_data hle
  have hgath := length_rows h.length_gathered hle
  have hcheck : opts.residual ≠ .raw → checkRoundTrip opts m.dtype name (slice gathered (a * w) ((b - a) * w))
      (encodeResidual opts.residual m.dtype (slice gathered (a * w) ((b - a) * w)) (slice data (a * w) ((b - a) * w)))
      (slice data (a * w) ((b - a) * w)) = .ok () := by
    intro hraw
    unfold checkRoundTrip
    split
    · refine bind_eq_ok.mpr ⟨slice data (a * w) ((b - a) * w), ?_, if_neg (not_not.mpr rfl)⟩
      have := @applyResidual_transformed opts.residual .none m.dtype (slice gathered (a * w) ((b - a) * w))
        (slice data (a * w) ((b - a) * w)) (List.replicate (slice data (a * w) ((b - a) * w)).length 0)
        (.inr (hgath.trans hdata.symm))
        (by rw [hdata]; exact mul_mod_size h.elements) List.length_replicate
      exact this
    · rfl
  unfold frameResidual
  cases hk : opts.residual with
  | raw => rfl
  | xorAfterPermute =>
    rw [hk] at hcheck
    exact bind_eq_ok.mpr ⟨_, h.gathers (by rw [hk]; exact nofun) a (b - a) hle, bind_eq_ok.mpr ⟨(), hcheck nofun, rfl⟩⟩
  | zigzagAfterPermute =>
    rw [hk] at hcheck
    exact bind_eq_ok.mpr ⟨_, h.gathers (by rw [hk]; exact nofun) a (b - a) hle, bind_eq_ok.mpr ⟨(), hcheck nofun, rfl⟩⟩

/-- One turn of the frame loop. -/
theorem encodeFrame_spec (hz : libs.zstd.Lossless) (h : Encodable opts base target perm name block m w data gathered)
    {a b : Nat} (hab : a < b) (hb : b ≤ perm.length * block) (s : FrameState) :
    ∃ comp f, encodeFrame libs opts base target m.dtype name (expand perm block) w s (a, b) =
        .ok ⟨s.payload ++ comp, u64 (s.fullBytes + (b - a) * w), s.frames ++ [f]⟩ ∧
      (f.unitBegin, f.unitEnd) = (a, b) ∧ FrameHolds libs opts m.dtype w gathered data (s.payload ++ comp) f := by
  have hle : a + (b - a) ≤ perm.length * block := by omega
  have hdata := length_rows h.length_data hle
  have hgath := length_rows h.length_gathered hle
  have hread := h.reads a (b - a) (List.replicate ((b - a) * w) 0)
    (h.length_data ▸ Nat.mul_le_mul_right w hle) List.length_replicate
  obtain ⟨comp, hcomp, hdec⟩ := hz opts.compress (applyTransform opts.transform m.dtype (encodeResidual opts.residual m.dtype
    (slice gathered (a * w) ((b - a) * w)) (slice data (a * w) ((b - a) * w))))
  rw [length_applyTransform, length_encodeResidual _ _ (.inr (hgath.trans hdata.symm)), hdata] at hdec
  refine ⟨comp, ⟨a, b, s.payload.length, comp.length, libs.blake3 (slice data (a * w) ((b - a) * w))⟩, ?_, rfl, ?_⟩
  · refine bind_eq_ok.mpr ⟨_, hread, bind_eq_ok.mpr ⟨_, frameResidual_eq h hab.le hb, bind_eq_ok.mpr ⟨comp, ?_, rfl⟩⟩⟩
    unfold compressFrame
    rw [hcomp]
  · refine ⟨by simp, ?_, rfl⟩
    have hslice : slice (s.payload ++ comp) s.payload.length comp.length = comp := by
      rw [← Nat.add_zero s.payload.length, slice_append_right, slice_full]
    dsimp only
    rw [hslice, hdec]

/-- The frame loop over ranges that tile `[a, c)`. -/
theorem encodeFrames_spec (hz : libs.zstd.Lossless) (h : Encodable opts base target perm name block m w data gathered)
    {a c : Nat} {ranges : List (Nat × Nat)} (ht : Tiles a ranges c) (hc : c ≤ perm.length * block) (s : FrameState)
    (hs : ∀ f ∈ s.frames, FrameHolds libs opts m.dtype w gathered data s.payload f) :
    ∃ more frames full, ranges.foldlM (encodeFrame libs opts base target m.dtype name (expand perm block) w) s =
        .ok ⟨s.payload ++ more, full, s.frames ++ frames⟩ ∧
      frames.map (fun f => (f.unitBegin, f.unitEnd)) = ranges ∧
      ∀ f ∈ s.frames ++ frames, FrameHolds libs opts m.dtype w gathered data (s.payload ++ more) f := by
  induction ht generalizing s with
  | nil a => exact ⟨[], [], s.fullBytes, by simp [pure, Except.pure], rfl, by simpa using hs⟩
  | cons hab hrest ih =>
    obtain ⟨comp, f, hf, hunits, hholds⟩ := encodeFrame_spec hz h hab (hrest.le.trans hc) s
    obtain ⟨more, frames, full, hfold, hmap, hall⟩ := ih hc ⟨s.payload ++ comp, _, s.frames ++ [f]⟩ fun g hg => by
      rcases List.mem_append.mp hg with hg | hg
      · exact (hs g hg).mono comp
      · rw [List.mem_singleton.mp hg]
        exact hholds
    refine ⟨comp ++ more, f :: frames, full, ?_, by rw [List.map_cons, hunits, hmap], ?_⟩
    · rw [List.foldlM_cons]
      refine bind_eq_ok.mpr ⟨_, hf, ?_⟩
      rw [hfold]
      simp
    · simpa using hall

/-! ### Tensors as written -/

theorem tilesFrom_of_tiles {a c : Nat} {frames : List FrameIndexEntry}
    (h : Tiles a (frames.map fun f => (f.unitBegin, f.unitEnd)) c) : tilesFrom name frames = .ok () := by
  induction frames generalizing a with
  | nil => rfl
  | cons f rest ih =>
    obtain ⟨-, -, hr⟩ := Tiles.cons_iff.mp h
    cases rest with
    | nil => rfl
    | cons g rest =>
      have hnext : g.unitBegin = f.unitEnd := (Tiles.cons_iff.mp hr).1
      unfold tilesFrom
      rw [if_neg (not_not.mpr hnext.symm)]
      exact ih hr

theorem validateTiling_of_tiles {t : TensorDiff} {rows : Nat} (hpos : 0 < rows)
    (h : Tiles 0 (t.frames.map fun f => (f.unitBegin, f.unitEnd)) rows) : t.validateTiling rows = .ok () := by
  obtain ⟨b, hlast⟩ := h.getLast? hpos
  have htiles : tilesFrom t.shapeName t.frames = .ok () := tilesFrom_of_tiles h
  rw [List.getLast?_map] at hlast
  unfold TensorDiff.validateTiling
  cases hf : t.frames with
  | nil => rw [hf] at hlast; cases hlast
  | cons f rest =>
    rw [hf] at h hlast htiles
    obtain ⟨l, hl, hle⟩ := Option.map_eq_some_iff.mp hlast
    have hbegin : f.unitBegin = 0 := (Tiles.cons_iff.mp h).1
    have hend : l.unitEnd = rows := congrArg Prod.snd hle
    rw [hl]
    dsimp only
    rw [if_neg (not_not.mpr hbegin)]
    exact bind_eq_ok.mpr ⟨(), htiles, if_neg (not_not.mpr hend)⟩

theorem TensorHolds.mono {rows : Nat} {payload : Bytes} {t : TensorDiff}
    (h : TensorHolds libs opts name m w rows data gathered payload t) (more : Bytes) :
    TensorHolds libs opts name m w rows data gathered (payload ++ more) t where
  fields := h.fields
  tiles := h.tiles
  frames := fun f hf => (h.frames f hf).mono more

theorem Encodable.rows_pos (h : Encodable opts base target perm name block m w data gathered) :
    0 < perm.length * block := by
  obtain ⟨units, hu, hpos, -⟩ := TensorMeta.unitBytes_eq_ok h.unitBytes_eq
  rw [h.rows] at hu
  cases hu
  exact hpos

theorem encodeTensor_spec (hz : libs.zstd.Lossless) {binding : AxisBinding} (hdim : binding.dim = 0)
    (h : Encodable opts base target perm name binding.block m w data gathered) (s : EncodeState) :
    ∃ more t full, encodeTensor libs opts base target perm name binding s =
        .ok ⟨s.payload ++ more, full, s.tensors ++ [t]⟩ ∧
      TensorHolds libs opts name m w (perm.length * binding.block) data gathered (s.payload ++ more) t := by
  have hlen : (expand perm binding.block).length = perm.length * binding.block := length_expandPermutation _ _
  obtain ⟨more, frames, full, hfold, hmap, hall⟩ := encodeFrames_spec hz h
    (steps_tiles (perm.length * binding.block) (frameUnits opts.frameBytes w) (by unfold frameUnits; omega)) le_rfl
    ⟨s.payload, s.fullBytes, []⟩ nofun
  have htiles : Tiles 0 (frames.map fun f => (f.unitBegin, f.unitEnd)) (perm.length * binding.block) := by
    rw [hmap]
    exact steps_tiles _ _ (by unfold frameUnits; omega)
  refine ⟨more, { shapeName := name, shape := m.shape, dtype := m.dtype, residual := opts.residual,
                  transform := opts.transform, frames }, full, ?_, rfl, htiles, by simpa using hall⟩
  unfold encodeTensor
  rw [h.meta_eq]
  dsimp only
  rw [hdim]
  refine bind_eq_ok.mpr ⟨w, h.unitBytes_eq, ?_⟩
  rw [hlen, if_neg (not_not.mpr h.rows)]
  refine bind_eq_ok.mpr ⟨_, hfold, bind_eq_ok.mpr ⟨(), ?_, rfl⟩⟩
  exact validateTiling_of_tiles h.rows_pos htiles

end

/-! ### Groups as written -/

section
variable {libs : Libs} {opts : EncodeOptions} {base target : TensorSource} {group : String} {perm : List Nat}
  {m : String → TensorMeta} {w : String → Nat} {data gathered : String → Bytes}

/-- Every tensor bound to the group can be encoded. -/
def GroupEncodable (opts : EncodeOptions) (base target : TensorSource) (group : String) (perm : List Nat)
    (m : String → TensorMeta) (w : String → Nat) (data gathered : String → Bytes)
    (entries : List (String × List AxisBinding)) : Prop :=
  ∀ e ∈ entries, ∀ binding, dimZeroBinding group e.2 = some binding →
    Encodable opts base target perm e.1 binding.block (m e.1) (w e.1) (data e.1) (gathered e.1)

/-- The tensors of an artifact are those bound to the group, each with its rows. -/
structure GroupHolds (libs : Libs) (opts : EncodeOptions) (group : String) (perm : List Nat)
    (m : String → TensorMeta) (w : String → Nat) (data gathered : String → Bytes)
    (entries : List (String × List AxisBinding)) (payload : Bytes) (tensors : List TensorDiff) : Prop where
  sound : ∀ t ∈ tensors, ∃ e ∈ entries, ∃ binding, dimZeroBinding group e.2 = some binding ∧
    TensorHolds libs opts e.1 (m e.1) (w e.1) (perm.length * binding.block) (data e.1) (gathered e.1) payload t
  complete : ∀ e ∈ entries, (dimZeroBinding group e.2).isSome → ∃ t ∈ tensors, t.shapeName = e.1

theorem dimZeroBinding_dim {axes : List AxisBinding} {binding : AxisBinding} (h : dimZeroBinding group axes = some binding) :
    binding ∈ axes ∧ binding.dim = 0 ∧ binding.group = group := by
  have := List.find?_some h
  simp only [decide_eq_true_eq] at this
  exact ⟨List.mem_of_find?_eq_some h, this⟩

theorem encodeBounds_spec (hz : libs.zstd.Lossless) (entries : List (String × List AxisBinding)) :
    ∀ s : EncodeState, GroupEncodable opts base target group perm m w data gathered entries →
    ∃ more tensors full, entries.foldlM (encodeBound libs opts base target group perm) s =
        .ok ⟨s.payload ++ more, full, s.tensors ++ tensors⟩ ∧
      GroupHolds libs opts group perm m w data gathered entries (s.payload ++ more) tensors := by
  induction entries with
  | nil => exact fun s _ => ⟨[], [], s.fullBytes, by simp [pure, Except.pure], nofun, nofun⟩
  | cons e rest ih =>
    intro s henc
    have hrest : GroupEncodable opts base target group perm m w data gathered rest := fun e' he' =>
      henc e' (List.mem_cons_of_mem _ he')
    rw [List.foldlM_cons]
    cases hb : dimZeroBinding group e.2 with
    | none =>
      obtain ⟨more, tensors, full, hfold, hholds⟩ := ih s hrest
      refine ⟨more, tensors, full, bind_eq_ok.mpr ⟨s, by rw [encodeBound, hb], hfold⟩, ?_, ?_⟩
      · intro t ht
        obtain ⟨e', he', hh⟩ := hholds.sound t ht
        exact ⟨e', List.mem_cons_of_mem _ he', hh⟩
      · intro e' he' hs
        rcases List.mem_cons.mp he' with rfl | he'
        · rw [hb] at hs
          cases hs
        · exact hholds.complete e' he' hs
    | some binding =>
      obtain ⟨more, t, full, ht, hth⟩ := encodeTensor_spec hz (dimZeroBinding_dim hb).2.1
        (henc e List.mem_cons_self binding hb) s
      obtain ⟨more', tensors, full', hfold, hholds⟩ := ih ⟨s.payload ++ more, full, s.tensors ++ [t]⟩ hrest
      have hname : t.shapeName = e.1 := by rw [hth.fields]
      refine ⟨more ++ more', t :: tensors, full', bind_eq_ok.mpr ⟨_, by rw [encodeBound, hb]; exact ht, ?_⟩, ?_, ?_⟩
      · rw [hfold]
        simp
      · intro t' ht'
        rw [← List.append_assoc]
        rcases List.mem_cons.mp ht' with rfl | ht'
        · exact ⟨e, List.mem_cons_self, binding, hb, hth.mono more'⟩
        · obtain ⟨e', he', hh⟩ := hholds.sound t' ht'
          exact ⟨e', List.mem_cons_of_mem _ he', hh⟩
      · intro e' he' hs
        rcases List.mem_cons.mp he' with rfl | he'
        · exact ⟨t, List.mem_cons_self, hname⟩
        · obtain ⟨t', ht', hn⟩ := hholds.complete e' he' hs
          exact ⟨t', List.mem_cons_of_mem _ ht', hn⟩

/-- The rule for `encodeGroup`: the permutation, then the frames of every bound
tensor, behind a header that names them; unless the artifact outgrows a vector. -/
theorem encodeGroup_spec (hz : libs.zstd.Lossless) {topology : Topology} {alignable : Bool} {alignment : AlignmentInfo}
    {ref : PermutationRef} {front : Bytes} (hperm : writePermutation [] perm = .ok (ref, front))
    (henc : GroupEncodable opts base target group perm m w data gathered topology.tensors.entries) :
    ∃ more tensors full, GroupHolds libs opts group perm m w data gathered topology.tensors.entries (front ++ more)
        tensors ∧
      encodeGroup libs base target topology group perm alignable alignment opts =
        let header : DiffHeader := ⟨1, group, opts.codec, ref, tensors, alignable, alignment⟩
        let text := header.toCanonicalJson libs.json
        if kMaxVector ≤ 8 + text.length + (front ++ more).length then .error (.exception "vector::_M_default_append")
        else .ok ⟨layOut text (front ++ more), (front ++ more).length, full⟩ := by
  obtain ⟨more, tensors, full, hfold, hholds⟩ := encodeBounds_spec hz topology.tensors.entries ⟨front, 0, []⟩ henc
  refine ⟨more, tensors, full, hholds, ?_⟩
  unfold encodeGroup
  simp only [hperm, bind, Except.bind]
  rw [hfold]
  rfl

end

end SynapseFs.Codec
