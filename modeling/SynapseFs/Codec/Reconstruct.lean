import SynapseFs.Codec.DiffEncoder
import SynapseFs.Format.Manifest

/-! Reading a group of a commit, whole or in part.

A Full group is a range of its block. A Delta group reads the frames the range
overlaps: the base's rows (through this same function, in the base commit's
manifest), their columns moved as another tensor's artifact of this commit says,
then the residual, then the digest. The recursion is along base commits, so its
budget is a number of hops. -/
namespace SynapseFs.Codec
open Lib Core Format

/-- A null pointer is `none`. -/
structure ReadCtx where
  blocks : Option BlockReads
  manifest : Option Manifest
  history : Option (Oid → Outcome Manifest)
  maxDepth : Nat
  topology : Option Topology

/-- How a base group is read: an offset, a buffer, the bytes read and the buffer. -/
abbrev BaseRead := Nat → Bytes → Outcome (Nat × Bytes)

/-- `std::vector<std::byte> v(n)`. -/
def zeroVector (n : Nat) : Outcome Bytes :=
  if kMaxVector ≤ n then .error (.exception "cannot create std::vector larger than max_size()")
  else .ok (List.replicate n 0)

/-! ### The base rows of a frame -/

def readFull (readBase : BaseRead) (name : String) (off len : Nat) : Outcome Bytes := do
  let buf ← zeroVector len
  let (n, bytes) ← readBase off buf
  if n ≠ len then sfsErr .malformedObject "short read reconstructing delta base" name else return bytes

/-- No permutation is the identity: the same range of the base. -/
def gatherBaseBytes (readBase : BaseRead) (name : String) (expanded : List Nat) (unitBegin unitEnd unitBytes : Nat) :
    Outcome Bytes :=
  let count := u64Sub unitEnd unitBegin
  match expanded with
  | [] => readFull readBase name (u64 (unitBegin * unitBytes)) (u64 (count * unitBytes))
  | _ => do
    let _ ← zeroVector (u64 (count * unitBytes))
    gather "gather_base_bytes" name (fun run =>
      readFull readBase name (u64 (run.first * unitBytes)) (u64 (run.count * unitBytes))) expanded unitBegin count unitBytes

/-! ### The columns -/

/-- No permutation is nothing to do. -/
structure SecondaryAxis where
  perm : List Nat
  unitBytes : Nat
  deriving DecidableEq, Repr

/-- The first axis that is not dim 0. -/
def secondaryBinding (axes : List AxisBinding) : Option AxisBinding := axes.find? fun ax => ax.dim ≠ 0

/-- The product of the dimensions behind `dim`. -/
def trailingElems (shape : List Nat) (dim : Nat) : Nat := (shape.drop (dim + 1)).foldl (fun t d => u64 (t * d)) 1

/-- The size of what moves with one index of the axis. -/
def secondaryUnitBytes (shape : List Nat) (dim : Nat) (dtype : DType) : Nat :=
  u32 (u32 (trailingElems shape dim) * dtype.size)

/-- The first tensor whose dim 0 is bound to the group; an empty name is as good as none. -/
def ownerOf (topology : Topology) (group : String) : Option String :=
  (topology.tensors.entries.find? fun e => (e.2.any fun ax => ax.dim = 0 ∧ ax.group = group) ∧ e.1 ≠ "").map Prod.fst

/-- The owner's permutation, from the owner's own entry in this commit. -/
def ownerPermutation (libs : Libs) (blocks : BlockReads) (manifest : Manifest) (owner : String) : Outcome (List Nat) :=
  match manifest.findGroup owner with
  | none => sfsErr .malformedObject "secondary axis owner missing from manifest" owner
  | some entry =>
    match entry.mode, entry.diffBlock with
    | .full, _ => .ok []
    | .delta, none => sfsErr .malformedObject "secondary axis owner missing diff_block" owner
    | .delta, some diffBlock => do
      let artifact ← parseDiffArtifact libs.json (← blocks.get diffBlock .diff)
      readPermutation artifact.header.permutation artifact.payload

def resolveSecondaryPermutation (libs : Libs) (blocks : BlockReads) (ctx : ReadCtx) (tdiff : TensorDiff) :
    Outcome SecondaryAxis :=
  match ctx.topology with
  | none => .ok ⟨[], 0⟩
  | some topology =>
    match (topology.tensors.get? tdiff.shapeName).bind secondaryBinding with
    | none => .ok ⟨[], 0⟩
    | some secondary =>
      if (topology.findGroup secondary.group).any PermGroup.pinned then .ok ⟨[], 0⟩
      else
        match ownerOf topology secondary.group with
        | none => sfsErr .internal "no tensor owns secondary axis group" secondary.group
        | some owner =>
          match ctx.manifest with
          | none => sfsErr .internal "ReadCtx missing manifest for secondary axis lookup" ""
          | some manifest => do
            -- An owner that is Full, or whose permutation is the identity, gives no indices.
            match ← ownerPermutation libs blocks manifest owner with
            | [] => return ⟨[], 0⟩
            | perm =>
              let expanded ← expandReserved perm secondary.block
              return ⟨expanded, secondaryUnitBytes tdiff.shape secondary.dim tdiff.dtype⟩

/-! ### The frame loop -/

/-- The base rows of a frame with their columns moved. -/
def baseFrame (readBase : BaseRead) (name : String) (expanded : List Nat) (secondary : SecondaryAxis)
    (unitBegin unitEnd unitBytes : Nat) : Outcome Bytes := do
  let base ← gatherBaseBytes readBase name expanded unitBegin unitEnd unitBytes
  match secondary.perm with
  | [] => return base
  | perm => do
    let _ ← zeroVector unitBytes
    permuteRows base (u64Sub unitEnd unitBegin) unitBytes perm secondary.unitBytes

/-- The target rows of a frame, digest-checked. -/
def decodeFrame (libs : Libs) (readBase : BaseRead) (name : String) (expanded : List Nat) (secondary : SecondaryAxis)
    (unitBytes : Nat) (payload : Bytes) (tdiff : TensorDiff) (frame : FrameIndexEntry) : Outcome Bytes :=
  if payload.length < u64 (frame.off + frame.len) then
    sfsErr .malformedObject "frame extends past payload" tdiff.shapeName
  else do
    let base ← baseFrame readBase name expanded secondary frame.unitBegin frame.unitEnd unitBytes
    let raw := u64Sub (u64 (frame.unitEnd * unitBytes)) (u64 (frame.unitBegin * unitBytes))
    let buf ← zeroVector raw
    if payload.length < frame.off + frame.len then .error (.undefined "subspan outside the payload")
    else
      let (dn, decompressed) ← decompressFrame libs.zstd (slice payload frame.off frame.len) buf
      if dn ≠ raw then sfsErr .malformedObject "frame decompressed to unexpected size" tdiff.shapeName
      else
        let reconstructed ← applyResidual tdiff.residual tdiff.transform tdiff.dtype base decompressed buf
        if libs.blake3 reconstructed ≠ frame.digest then
          sfsErr .frameDigestMismatch "frame digest mismatch"
            (tdiff.shapeName ++ " unit [" ++ toString frame.unitBegin ++ "," ++ toString frame.unitEnd ++ ")")
        else return reconstructed

/-- One turn of the loop: what overlaps the window goes to its place in `out`. -/
def readFrame (decode : FrameIndexEntry → Outcome Bytes) (unitBytes off wantEnd : Nat) (s : Nat × Bytes)
    (frame : FrameIndexEntry) : Outcome (Nat × Bytes) :=
  let frameBegin := u64 (frame.unitBegin * unitBytes)
  let frameEnd := u64 (frame.unitEnd * unitBytes)
  if frameEnd ≤ off ∨ wantEnd ≤ frameBegin then .ok s
  else do
    let reconstructed ← decode frame
    let lo := max frameBegin off
    let hi := min frameEnd wantEnd
    if hi < lo then .error (.undefined "memcpy of a negative size")
    else return (s.1 + (hi - lo), overwrite s.2 (lo - off) (slice reconstructed (lo - frameBegin) (hi - lo)))

/-- The group's permutation at the granularity of the tensor's axis. -/
def expandedFor (header : DiffHeader) (payload : Bytes) (name : String) (axisLength : Nat) : Outcome (List Nat) :=
  match header.permutation.kind with
  | .identity => .ok []
  | .explicit => do
    let perm ← readPermutation header.permutation payload
    if header.permutation.n = 0 ∨ axisLength % header.permutation.n ≠ 0 then
      sfsErr .blockFactorMismatch "axis length does not divide by permutation n" name
    else expandReserved perm (u32 (axisLength / header.permutation.n))

def tensorBytes (shape : List Nat) (dtype : DType) : Nat := u64 (shape.foldl (fun n d => u64 (n * d)) 1 * dtype.size)

def readTensorRange (libs : Libs) (blocks : BlockReads) (ctx : ReadCtx) (readBase : BaseRead) (header : DiffHeader)
    (payload : Bytes) (tdiff : TensorDiff) (baseName : String) (off : Nat) (out : Bytes) : Outcome (Nat × Bytes) :=
  match tdiff.frames.getLast? with
  | none => sfsErr .malformedObject "diff tensor has no frames" tdiff.shapeName
  | some last =>
    let axisLength := last.unitEnd
    let bytes := tensorBytes tdiff.shape tdiff.dtype
    if axisLength = 0 ∨ bytes % axisLength ≠ 0 then
      sfsErr .malformedObject "tensor bytes do not divide by unit count" tdiff.shapeName
    else do
      let unitBytes := bytes / axisLength
      let expanded ← expandedFor header payload tdiff.shapeName axisLength
      let secondary ← resolveSecondaryPermutation libs blocks ctx tdiff
      if secondary.perm ≠ [] ∧ unitBytes ≠ u64 (secondary.perm.length * secondary.unitBytes) then
        sfsErr .blockFactorMismatch "secondary axis length does not match row width" tdiff.shapeName
      else
        tdiff.frames.foldlM (readFrame (decodeFrame libs readBase baseName expanded secondary unitBytes payload tdiff)
          unitBytes off (u64 (off + out.length))) (0, out)

/-! ### Groups -/

def readDeltaRange (libs : Libs) (blocks : BlockReads) (ctx : ReadCtx)
    (readAt : ReadCtx → String → BaseRead) (group : GroupEntry) (name : String) (off : Nat) (out : Bytes) :
    Outcome (Nat × Bytes) :=
  match group.base, group.diffBlock with
  | some base, some diffBlock =>
    if ctx.maxDepth < group.chainDepth then sfsErr .chainTooDeep "chain depth exceeds max_depth" name
    else
      match ctx.history with
      | none => sfsErr .internal "ReadCtx missing history for delta base" ""
      | some history => do
        let artifact ← parseDiffArtifact libs.json (← blocks.get diffBlock .diff)
        match artifact.header.tensors.find? fun t => t.shapeName = name with
        | none => sfsErr .malformedObject "diff artifact has no entry for this tensor" name
        | some tdiff =>
          let baseManifest ← history base.commit
          readTensorRange libs blocks ctx (readAt { ctx with manifest := some baseManifest } base.group)
            artifact.header artifact.payload tdiff base.group off out
  | _, _ => sfsErr .malformedObject "Delta group missing base or diff_block" name

/-- `codec::read_range`, at most `fuel` hops deep. -/
def readRange (libs : Libs) : Nat → ReadCtx → String → BaseRead
  | 0, _, _, _, _ => .error .outOfFuel
  | fuel + 1, ctx, name, off, out =>
    match ctx.blocks, ctx.manifest with
    | some blocks, some manifest =>
      match manifest.findGroup name with
      | none => sfsErr .malformedObject "unknown group" name
      | some group =>
        match group.mode with
        | .delta => readDeltaRange libs blocks ctx (readRange libs fuel) group name off out
        | .full =>
          match group.block with
          | none => sfsErr .malformedObject "Full group missing block" name
          | some block => blocks.readRange block .raw off out
    | _, _ => sfsErr .internal "ReadCtx missing blocks or manifest" ""

/-! ### What a correct read is -/

/-- Every range of `b`, short only at its end. -/
def Reads (read : BaseRead) (b : Bytes) : Prop :=
  ∀ off out, off < 2 ^ 64 → out.length < kMaxVector →
    read off out = .ok ((slice b off out.length).length, filled (slice b off out.length) out)

section
variable {readBase : BaseRead} {b : Bytes} {w rows : Nat}

theorem zeroVector_eq {n : Nat} (h : n < kMaxVector) : zeroVector n = .ok (List.replicate n 0) :=
  if_neg (not_le.mpr h)

theorem readFull_eq (hr : Reads readBase b) (name : String) {off len : Nat} (hle : off + len ≤ b.length)
    (hoff : off < 2 ^ 64) (hmax : len < kMaxVector) : readFull readBase name off len = .ok (slice b off len) := by
  have hlen : (slice b off len).length = len := by rw [length_slice]; omega
  have hread := hr off (List.replicate len 0) hoff (by rwa [List.length_replicate])
  rw [List.length_replicate, hlen, filled_of_length_eq (by rw [hlen, List.length_replicate])] at hread
  refine bind_eq_ok.mpr ⟨_, zeroVector_eq hmax, bind_eq_ok.mpr ⟨_, hread, ?_⟩⟩
  exact if_neg (not_not.mpr rfl)

/-- The rows a Delta tensor is encoded against, before their columns move. -/
def gatheredRows (b : Bytes) (w : Nat) : List Nat → Bytes
  | [] => b
  | expanded => units b w expanded

/-- The same with their columns moved. -/
def movedColumns (b : Bytes) (w rows : Nat) (secondary : SecondaryAxis) : Bytes :=
  match secondary.perm with
  | [] => b
  | perm => moveColumns b w rows perm secondary.unitBytes

theorem slice_units (idx : List Nat) (hidx : ∀ i ∈ idx, (i + 1) * w ≤ b.length) {a c : Nat} (h : a + c ≤ idx.length) :
    units b w (slice idx a c) = slice (units b w idx) (a * w) (c * w) := by
  have hsplit : idx = idx.take a ++ (slice idx a c ++ idx.drop (a + c)) := by
    rw [slice, ← List.drop_drop, List.take_append_drop, List.take_append_drop]
  have hlen : ∀ l : List Nat, (∀ i ∈ l, i ∈ idx) → (units b w l).length = l.length * w := fun l hl =>
    length_units b w l fun i hi => hidx i (hl i hi)
  have hleft : (units b w (idx.take a)).length = a * w := by
    rw [hlen _ fun i => List.mem_of_mem_take, List.length_take, Nat.min_eq_left (by omega)]
  have hmid : (units b w (slice idx a c)).length = c * w := by
    rw [hlen (slice idx a c) fun i hi => List.mem_of_mem_drop (List.mem_of_mem_take hi), length_slice,
      Nat.min_eq_left (by omega)]
  conv_rhs => rw [hsplit, units_append, units_append]
  exact (slice_middle _ _ _ hleft hmid).symm

/-- The rows a permutation of the axis names are rows of the base. -/
theorem index_le {idx : List Nat} (hidx : ∀ p ∈ idx, p < rows) (hb : b.length = rows * w) :
    ∀ p ∈ idx, (p + 1) * w ≤ b.length := fun p hp =>
  hb ▸ Nat.mul_le_mul_right w (hidx p hp)

/-- A range of the axis, read at 64-bit offsets into buffers that exist. -/
theorem gatherBaseBytes_eq (hr : Reads readBase b) (name : String) {expanded : List Nat}
    (hidx : ∀ p ∈ expanded, p < rows ∧ p < 2 ^ 32) (hlen : expanded = [] ∨ expanded.length = rows)
    (hb : b.length = rows * w) (h64 : b.length < 2 ^ 64) {first last : Nat} (hle : first ≤ last) (hlast : last ≤ rows)
    (hlast64 : last < 2 ^ 64) (hmax : (last - first) * w < kMaxVector) :
    gatherBaseBytes readBase name expanded first last w =
      .ok (slice (gatheredRows b w expanded) (first * w) ((last - first) * w)) := by
  have hbytes : ∀ k ≤ rows, k * w ≤ b.length := fun k hk => hb ▸ Nat.mul_le_mul_right w hk
  have hfit : ∀ k ≤ rows, u64 (k * w) = k * w := fun k hk => u64_of_lt ((hbytes k hk).trans_lt h64)
  unfold gatherBaseBytes
  dsimp only
  rw [u64Sub_of_le hle hlast64]
  cases expanded with
  | nil =>
    dsimp only [gatheredRows]
    rw [hfit first (by omega), hfit (last - first) (by omega)]
    refine readFull_eq hr name ?_ ((hbytes first (by omega)).trans_lt h64) hmax
    have := hbytes last hlast
    rw [← Nat.add_mul, Nat.add_sub_cancel' hle]
    exact this
  | cons p rest =>
    have hlen := hlen.resolve_left (List.cons_ne_nil _ _)
    dsimp only [gatheredRows]
    rw [← slice_units _ (index_le (fun p hp => (hidx p hp).1) hb) (by omega)]
    refine bind_eq_ok.mpr ⟨_, zeroVector_eq ?_, ?_⟩
    · rwa [hfit _ (by omega)]
    · refine @gather_eq _ w (min rows (2 ^ 32)) _ _ _ _ _ _ (by omega) (fun p hp => lt_min (hidx p hp).1 (hidx p hp).2)
        (min_le_right _ _) (hbytes _ (min_le_left _ _)) fun run hpos hcount hrun => ?_
      have hrun := hrun.trans (min_le_left _ _)
      rw [hfit _ (by omega), hfit _ (by omega)]
      refine readFull_eq hr name ?_ ((hbytes _ (by omega)).trans_lt h64)
        ((Nat.mul_le_mul_right w hcount).trans_lt hmax)
      rw [← Nat.add_mul]
      exact hbytes _ hrun

theorem length_gatheredRows {expanded : List Nat} (hidx : ∀ p ∈ expanded, p < rows)
    (hlen : expanded = [] ∨ expanded.length = rows) (hb : b.length = rows * w) :
    (gatheredRows b w expanded).length = rows * w := by
  cases expanded with
  | nil => exact hb
  | cons p rest =>
    rw [gatheredRows, length_units b w _ (index_le hidx hb), hlen.resolve_left nofun]
    exact nofun

/-- A column permutation that fits the rows. -/
def SecondaryAxis.Fits (s : SecondaryAxis) (w : Nat) : Prop :=
  s.perm ≠ [] → (∀ p ∈ s.perm, p < s.perm.length) ∧ s.perm.length * s.unitBytes = w

theorem length_movedColumns {s : SecondaryAxis} (hs : s.Fits w) (hb : b.length = rows * w) :
    (movedColumns b w rows s).length = rows * w := by
  unfold movedColumns
  cases hp : s.perm with
  | nil => exact hb
  | cons p rest =>
    obtain ⟨hlt, hw⟩ := hs (by rw [hp]; exact nofun)
    rw [hp] at hlt hw
    exact length_moveColumns hlt hw hb.ge

/-- Rows `[a, a + c)` of moved columns. -/
theorem slice_moveColumns {perm : List Nat} {u : Nat} (hperm : ∀ p ∈ perm, p < perm.length)
    (hrow : perm.length * u = w) (hb : b.length = rows * w) {a c : Nat} (h : a + c ≤ rows) :
    moveColumns (slice b (a * w) (c * w)) w c perm u = slice (moveColumns b w rows perm u) (a * w) (c * w) := by
  have := units_moveColumns hperm hrow hb.ge (List.range' a c) fun i hi => by
    have := List.mem_range'_1.mp hi
    omega
  rw [units_range', units_range', List.length_range'] at this
  exact this.symm

theorem baseFrame_eq (hr : Reads readBase b) (name : String) {expanded : List Nat}
    (hidx : ∀ p ∈ expanded, p < rows ∧ p < 2 ^ 32) (hlen : expanded = [] ∨ expanded.length = rows)
    {s : SecondaryAxis} (hs : s.Fits w) (hb : b.length = rows * w) (hmax : b.length < kMaxVector) (hw : 0 < w)
    {first last : Nat} (hlt : first < last) (hlast : last ≤ rows) :
    baseFrame readBase name expanded s first last w =
      .ok (slice (movedColumns (gatheredRows b w expanded) w rows s) (first * w) ((last - first) * w)) := by
  have hg := length_gatheredRows (fun p hp => (hidx p hp).1) hlen hb
  have hle := hlt.le
  have hrows64 : last < 2 ^ 64 := by
    have : rows * 1 ≤ rows * w := Nat.mul_le_mul_left rows hw
    unfold kMaxVector at hmax
    omega
  have hrow : w < kMaxVector := (Nat.le_mul_of_pos_left w (by omega : 0 < rows)).trans_lt (hb ▸ hmax)
  have hpart : (last - first) * w < kMaxVector :=
    (Nat.mul_le_mul_right w (by omega : last - first ≤ rows)).trans_lt (hb ▸ hmax)
  have h64 : b.length < 2 ^ 64 := by unfold kMaxVector at hmax; omega
  refine bind_eq_ok.mpr ⟨_, gatherBaseBytes_eq hr name hidx hlen hb h64 hle hlast hrows64 hpart, ?_⟩
  unfold movedColumns
  cases hp : s.perm with
  | nil => rfl
  | cons p rest =>
    obtain ⟨hcols, hwidth⟩ := hs (by rw [hp]; exact nofun)
    rw [hp] at hcols hwidth
    refine bind_eq_ok.mpr ⟨_, zeroVector_eq hrow, ?_⟩
    rw [u64Sub_of_le hle hrows64, permuteRows_eq hcols hwidth (length_rows hg (by omega)).ge,
      slice_moveColumns hcols hwidth hg (by omega)]

end

section
variable {libs : Libs} {opts : EncodeOptions} {name : String} {m : TensorMeta} {w rows : Nat}
  {data gathered payload : Bytes} {t : TensorDiff} {readBase : BaseRead} {baseName : String} {expanded : List Nat}
  {secondary : SecondaryAxis}

/-- The base rows behind every frame are those of `gathered`. -/
def FramesRead (readBase : BaseRead) (baseName : String) (expanded : List Nat) (secondary : SecondaryAxis)
    (w rows : Nat) (gathered : Bytes) : Prop :=
  ∀ first last, first < last → last ≤ rows → baseFrame readBase baseName expanded secondary first last w =
    .ok (slice gathered (first * w) ((last - first) * w))

/-- A frame decodes to the target rows it was written for. -/
theorem decodeFrame_eq (ht : TensorHolds libs opts name m w rows data gathered payload t) {f : FrameIndexEntry}
    (hf : f ∈ t.frames) (hbase : FramesRead readBase baseName expanded secondary w rows gathered)
    (hdata : data.length = rows * w) (hgathered : gathered.length = rows * w) (helem : w % m.dtype.size = 0)
    (hmax : rows * w < kMaxVector) (hpayload : payload.length < kMaxVector) :
    decodeFrame libs readBase baseName expanded secondary w payload t f =
      .ok (slice data (f.unitBegin * w) ((f.unitEnd - f.unitBegin) * w)) := by
  obtain ⟨-, hlt, hend⟩ := ht.tiles.mem (List.mem_map.mpr ⟨f, hf, rfl⟩)
  dsimp only at hlt hend
  have hframe := ht.frames f hf
  have hin := hframe.inPayload
  have hle : f.unitBegin + (f.unitEnd - f.unitBegin) ≤ rows := by omega
  have hrows := length_rows hdata hle
  have hgath := length_rows hgathered hle
  have hbegin : f.unitBegin * w ≤ f.unitEnd * w := Nat.mul_le_mul_right w hlt.le
  have hfin : f.unitEnd * w ≤ rows * w := Nat.mul_le_mul_right w hend
  have hraw : u64Sub (u64 (f.unitEnd * w)) (u64 (f.unitBegin * w)) = (f.unitEnd - f.unitBegin) * w := by
    unfold kMaxVector at hmax
    rw [u64_of_lt (by omega), u64_of_lt (by omega), u64Sub_of_le hbegin (by omega), Nat.sub_mul]
  have hsmall : (f.unitEnd - f.unitBegin) * w < kMaxVector := by
    rw [Nat.sub_mul]
    omega
  have hdtype : t.dtype = m.dtype := by rw [ht.fields]
  have hres : t.residual = opts.residual := by rw [ht.fields]
  have htr : t.transform = opts.transform := by rw [ht.fields]
  unfold decodeFrame
  dsimp only
  rw [u64_of_lt (by unfold kMaxVector at hpayload; omega), if_neg (by omega), hraw, hdtype, hres, htr]
  refine bind_eq_ok.mpr ⟨_, hbase _ _ hlt hend, bind_eq_ok.mpr ⟨_, zeroVector_eq hsmall, ?_⟩⟩
  rw [if_neg (by omega)]
  have hlenres := (length_applyTransform opts.transform m.dtype _).trans
    (length_encodeResidual opts.residual m.dtype (.inr (hgath.trans hrows.symm)))
  refine bind_eq_ok.mpr ⟨_, decompressFrame_eq (by rw [List.length_replicate]; exact hframe.decompresses)
    (by rw [hlenres, hrows, List.length_replicate]), ?_⟩
  dsimp only
  rw [List.length_replicate, if_neg (not_not.mpr rfl)]
  refine bind_eq_ok.mpr ⟨_, applyResidual_transformed opts.transform (.inr (hgath.trans hrows.symm))
    (by rw [hrows]; exact mul_mod_size helem) (by rw [List.length_replicate, hrows]), ?_⟩
  rw [if_neg (not_not.mpr hframe.digest_eq.symm)]
  rfl

/-- The frame loop, from any point of the tiling. -/
theorem readFrames_eq {decode : FrameIndexEntry → Outcome Bytes} {off : Nat} {out : Bytes} {frames : List FrameIndexEntry}
    {c : Nat} (htiles : Tiles c (frames.map fun f => (f.unitBegin, f.unitEnd)) rows)
    (hdecode : ∀ f ∈ frames, decode f = .ok (slice data (f.unitBegin * w) ((f.unitEnd - f.unitBegin) * w)))
    (hdata : data.length = rows * w) (hmax : rows * w < kMaxVector) (hw : 0 < w) (stop : Nat) (hstop : off ≤ stop) :
    frames.foldlM (readFrame decode w off stop)
        ((copied data off stop (c * w)).length, filled (copied data off stop (c * w)) out) =
      .ok ((copied data off stop (rows * w)).length, filled (copied data off stop (rows * w)) out) := by
  induction frames generalizing c with
  | nil =>
    cases htiles
    rfl
  | cons f rest ih =>
    obtain ⟨rfl, hlt, hrest⟩ := Tiles.cons_iff.mp htiles
    dsimp only at hlt hrest ⊢
    have hle : f.unitEnd * w ≤ rows * w := Nat.mul_le_mul_right w hrest.le
    have hlt' : f.unitBegin * w < f.unitEnd * w := (Nat.mul_lt_mul_right hw).mpr hlt
    have hbegin : u64 (f.unitBegin * w) = f.unitBegin * w := u64_of_lt (by unfold kMaxVector at hmax; omega)
    have hend : u64 (f.unitEnd * w) = f.unitEnd * w := u64_of_lt (by unfold kMaxVector at hmax; omega)
    rw [List.foldlM_cons]
    refine bind_eq_ok.mpr ⟨_, ?_, ih hrest fun g hg => hdecode g (List.mem_cons_of_mem _ hg)⟩
    unfold readFrame
    dsimp only
    rw [hbegin, hend]
    by_cases hmiss : f.unitEnd * w ≤ off ∨ stop ≤ f.unitBegin * w
    · rw [if_pos hmiss, copied_skip data hlt'.le hmiss]
    · rw [if_neg hmiss]
      rw [not_or, not_le, not_le] at hmiss
      refine bind_eq_ok.mpr ⟨_, hdecode f List.mem_cons_self, ?_⟩
      have hslice : slice (slice data (f.unitBegin * w) ((f.unitEnd - f.unitBegin) * w))
          (max (f.unitBegin * w) off - f.unitBegin * w) (min (f.unitEnd * w) stop - max (f.unitBegin * w) off) =
          slice data (max (f.unitBegin * w) off) (min (f.unitEnd * w) stop - max (f.unitBegin * w) off) := by
        rw [slice_slice _ _ _ _ _ (by rw [Nat.sub_mul]; omega)]
        congr 1
        omega
      rw [if_neg (by omega), hslice, copied_step out hlt' (hdata ▸ hle) hmiss.1 hmiss.2 hstop]
      show Except.ok _ = _
      rw [length_copied (by omega), length_copied (by omega)]
      congr 2
      omega

/-- Past the end of the tensor no frame is looked at. -/
theorem readFrames_past {decode : FrameIndexEntry → Outcome Bytes} {off stop c : Nat} {s : Nat × Bytes}
    {frames : List FrameIndexEntry} (htiles : Tiles c (frames.map fun f => (f.unitBegin, f.unitEnd)) rows)
    (hoff : rows * w ≤ off) : frames.foldlM (readFrame decode w off stop) s = .ok s := by
  induction frames generalizing c with
  | nil => rfl
  | cons f rest ih =>
    obtain ⟨-, -, hrest⟩ := Tiles.cons_iff.mp htiles
    have hend : u64 (f.unitEnd * w) ≤ off :=
      (Nat.mod_le _ _).trans ((Nat.mul_le_mul_right w hrest.le).trans hoff)
    rw [List.foldlM_cons]
    exact bind_eq_ok.mpr ⟨s, if_pos (.inl hend), ih hrest⟩

theorem foldl_u64_mul (shape : List Nat) (a : Nat) :
    u64 (shape.foldl (fun n d => u64 (n * d)) a) = u64 (a * shape.prod) := by
  induction shape generalizing a with
  | nil => rw [List.foldl_nil, List.prod_nil, Nat.mul_one]
  | cons d rest ih =>
    rw [List.foldl_cons, ih, List.prod_cons, ← Nat.mul_assoc]
    simp only [u64, Nat.mod_mul_mod]

/-- The size of a tensor that fits 64 bits. -/
theorem tensorBytes_eq {shape : List Nat} {dtype : DType} (h : shape.prod * dtype.size < 2 ^ 64) :
    tensorBytes shape dtype = shape.prod * dtype.size := by
  have hprod : shape.prod < 2 ^ 64 :=
    (Nat.le_mul_of_pos_right _ dtype.size_pos).trans_lt h
  have hfold := foldl_u64_mul shape 1
  rw [Nat.one_mul, u64_of_lt hprod] at hfold
  unfold tensorBytes
  rw [u64, Nat.mul_mod, show List.foldl (fun n d => u64 (n * d)) 1 shape % 2 ^ 64 = shape.prod from hfold,
    Nat.mul_mod_mod, Nat.mod_eq_of_lt h]

/-- A stored tensor reads as its target. -/
theorem readTensorRange_reads {blocks : BlockReads} {ctx : ReadCtx} {header : DiffHeader}
    (ht : TensorHolds libs opts name m w rows data gathered payload t) (hrows : 0 < rows) (hw : 0 < w)
    (hbytes : tensorBytes m.shape m.dtype = rows * w)
    (hexp : expandedFor header payload name rows = .ok expanded)
    (hsec : resolveSecondaryPermutation libs blocks ctx t = .ok secondary)
    (hwidth : secondary.perm ≠ [] → w = u64 (secondary.perm.length * secondary.unitBytes))
    (hbase : FramesRead readBase baseName expanded secondary w rows gathered)
    (hdata : data.length = rows * w) (hgathered : gathered.length = rows * w) (helem : w % m.dtype.size = 0)
    (hmax : rows * w < kMaxVector) (hpayload : payload.length < kMaxVector) :
    Reads (readTensorRange libs blocks ctx readBase header payload t baseName) data := by
  intro off out hoff hout
  obtain ⟨b, hlast⟩ := ht.tiles.getLast? hrows
  rw [List.getLast?_map] at hlast
  obtain ⟨last, hl, hle⟩ := Option.map_eq_some_iff.mp hlast
  have hend : last.unitEnd = rows := congrArg Prod.snd hle
  have hname : t.shapeName = name := by rw [ht.fields]
  have hshape : tensorBytes t.shape t.dtype = rows * w := by rw [ht.fields]; exact hbytes
  unfold readTensorRange
  rw [hl]
  dsimp only
  rw [hend, hshape, hname, if_neg (by rw [not_or, not_not]; exact ⟨hrows.ne', Nat.mul_mod_right rows w⟩),
    Nat.mul_div_cancel_left w hrows]
  refine bind_eq_ok.mpr ⟨expanded, hexp, bind_eq_ok.mpr ⟨secondary, hsec, ?_⟩⟩
  rw [if_neg fun hne => hne.2 (hwidth hne.1)]
  by_cases hpast : rows * w ≤ off
  · rw [readFrames_past ht.tiles hpast, slice_past _ _ (hdata ▸ hpast), filled_nil]
    rfl
  · unfold kMaxVector at hmax hout
    have hdecode : ∀ f ∈ t.frames, decodeFrame libs readBase baseName expanded secondary w payload t f =
        .ok (slice data (f.unitBegin * w) ((f.unitEnd - f.unitBegin) * w)) := fun f hf =>
      decodeFrame_eq ht hf hbase hdata hgathered helem (by unfold kMaxVector; omega) hpayload
    have hloop := @readFrames_eq w rows data _ off out _ _ ht.tiles hdecode hdata (by unfold kMaxVector; omega) hw
      (off + out.length) (Nat.le_add_right _ _)
    rw [Nat.zero_mul, copied_zero, filled_nil, List.length_nil, ← hdata, copied_all] at hloop
    rw [u64_of_lt (by omega)]
    exact hloop

end

/-- What `read_range` does with a Delta group whose parts are all there. -/
theorem readRange_delta {libs : Libs} {fuel : Nat} {ctx : ReadCtx} {blocks : BlockReads} {manifest baseManifest : Manifest}
    {history : Oid → Outcome Manifest} {name : String} {entry : GroupEntry} {base : DeltaBase} {diffBlock : Oid}
    {bytes : Bytes} {artifact : DiffArtifactView} {t : TensorDiff} (hblocks : ctx.blocks = some blocks)
    (hmanifest : ctx.manifest = some manifest) (hhistory : ctx.history = some history)
    (hentry : manifest.findGroup name = some entry) (hmode : entry.mode = .delta) (hbase : entry.base = some base)
    (hdiff : entry.diffBlock = some diffBlock) (hdepth : entry.chainDepth ≤ ctx.maxDepth)
    (hget : blocks.get diffBlock .diff = .ok bytes) (hparse : parseDiffArtifact libs.json bytes = .ok artifact)
    (hfind : artifact.header.tensors.find? (fun t => t.shapeName = name) = some t)
    (hbm : history base.commit = .ok baseManifest) :
    readRange libs (fuel + 1) ctx name = readTensorRange libs blocks ctx
      (readRange libs fuel { ctx with manifest := some baseManifest } base.group) artifact.header artifact.payload t
      base.group := by
  funext off out
  unfold readRange
  rw [hblocks, hmanifest]
  dsimp only
  rw [hentry]
  dsimp only
  rw [hmode]
  dsimp only
  unfold readDeltaRange
  rw [hbase, hdiff]
  dsimp only
  rw [if_neg (not_lt.mpr hdepth), hhistory]
  simp only [hget, hparse, hfind, hbm, hblocks, bind, Except.bind]

/-! ### The whole file -/

def kStreamChunk : Nat := 4 * 2 ^ 20

section
variable {σ : Type} (sink : σ → Bytes → Outcome σ)

/-- One chunk of an entry: read into the front of `buf`, handed to the sink. -/
def streamChunk (readGroup : BaseRead) (name : String) (s : σ × Bytes) (r : Nat × Nat) : Outcome (σ × Bytes) := do
  let (n, bytes) ← readGroup r.1 (s.2.take (r.2 - r.1))
  if n ≠ r.2 - r.1 then sfsErr .malformedObject "short read reconstructing group" name
  else
    let t ← sink s.1 bytes
    return (t, bytes ++ s.2.drop (r.2 - r.1))

/-- One buffer entry of `reconstruct_file`. -/
def streamEntry (libs : Libs) (fuel : Nat) (ctx : ReadCtx) (manifest : Manifest) (s : σ × Bytes) (e : Format.BufferEntry) :
    Outcome (σ × Bytes) :=
  if (manifest.findGroup e.group).isNone then
    sfsErr .malformedObject "buffer entry references unknown group" e.group
  else (steps e.nbytes kStreamChunk).foldlM (streamChunk sink (readRange libs fuel ctx e.group) e.group) s

/-- `reconstruct_file`, with a sink that keeps a state. -/
def reconstructFile (libs : Libs) (fuel : Nat) (ctx : ReadCtx) (s : σ) : Outcome σ :=
  match ctx.manifest, ctx.blocks with
  | none, _ => sfsErr .internal "ReadCtx missing manifest" ""
  | some _, none => .error (.undefined "null block store")
  | some manifest, some blocks => do
    let header ← blocks.get manifest.file.headerBlock .header
    let s ← sink s header
    let s ← manifest.buffer.foldlM (streamEntry sink libs fuel ctx manifest) (s, List.replicate kStreamChunk 0)
    return s.1

end

/-- What every call of the sink keeps, the reconstruction keeps. -/
theorem reconstructFile_invariant {σ : Type} {sink : σ → Bytes → Outcome σ} {I : σ → Prop}
    (hstep : ∀ s b s', I s → sink s b = .ok s' → I s') {libs : Libs} {fuel : Nat} {ctx : ReadCtx} {s s' : σ}
    (h : reconstructFile sink libs fuel ctx s = .ok s') (hs : I s) : I s' := by
  unfold reconstructFile at h
  split at h
  · exact absurd h sfsErr_ne_ok
  · cases h
  · obtain ⟨header, -, h⟩ := bind_eq_ok.mp h
    obtain ⟨s₁, hs₁, h⟩ := bind_eq_ok.mp h
    obtain ⟨s₂, hs₂, h⟩ := bind_eq_ok.mp h
    cases h
    refine foldlM_invariant (I := fun s => I s.1) (fun s e _ s' hI hentry => ?_) (hstep _ _ _ hs hs₁) hs₂
    unfold streamEntry at hentry
    split at hentry
    · exact absurd hentry sfsErr_ne_ok
    · refine foldlM_invariant (I := fun s => I s.1) (fun s r _ s' hI hchunk => ?_) hI hentry
      obtain ⟨⟨n, bytes⟩, -, hchunk⟩ := bind_eq_ok.mp hchunk
      dsimp only at hchunk
      split at hchunk
      · exact absurd hchunk sfsErr_ne_ok
      · obtain ⟨t, ht, hchunk⟩ := bind_eq_ok.mp hchunk
        cases hchunk
        exact hstep _ _ _ hI ht

/-- A sink that keeps the stream. -/
def collect (acc bytes : Bytes) : Outcome Bytes := .ok (acc ++ bytes)

theorem streamChunk_eq {readGroup : BaseRead} {b acc buf : Bytes} {r : Nat × Nat} (hr : Reads readGroup b)
    (name : String) (hle : r.1 < r.2) (hb : r.2 ≤ b.length) (hlen : b.length < 2 ^ 64) (hbuf : buf.length = kStreamChunk)
    (hwidth : r.2 - r.1 ≤ kStreamChunk) :
    ∃ buf', buf'.length = kStreamChunk ∧
      streamChunk collect readGroup name (acc, buf) r = .ok (acc ++ slice b r.1 (r.2 - r.1), buf') := by
  have htake : (buf.take (r.2 - r.1)).length = r.2 - r.1 := by rw [List.length_take]; omega
  have hslice : (slice b r.1 (r.2 - r.1)).length = r.2 - r.1 := by rw [length_slice]; omega
  have hread := hr r.1 (buf.take (r.2 - r.1)) (by omega) (by rw [htake]; unfold kMaxVector; unfold kStreamChunk at hwidth; omega)
  rw [htake, hslice, filled_of_length_eq (hslice.trans htake.symm)] at hread
  refine ⟨slice b r.1 (r.2 - r.1) ++ buf.drop (r.2 - r.1), ?_, ?_⟩
  · rw [List.length_append, hslice, List.length_drop]
    omega
  · refine bind_eq_ok.mpr ⟨_, hread, ?_⟩
    dsimp only
    rw [if_neg (not_not.mpr rfl)]
    rfl

theorem streamChunks_eq {readGroup : BaseRead} {b : Bytes} (hr : Reads readGroup b) (name : String)
    (hlen : b.length < 2 ^ 64) {l : List (Nat × Nat)} {a c : Nat} (ht : Tiles a l c) (hc : c ≤ b.length)
    (hwidth : ∀ r ∈ l, r.2 - r.1 ≤ kStreamChunk) : ∀ acc buf : Bytes, buf.length = kStreamChunk →
    ∃ buf', buf'.length = kStreamChunk ∧
      l.foldlM (streamChunk collect readGroup name) (acc, buf) = .ok (acc ++ slice b a (c - a), buf') := by
  induction ht with
  | nil a =>
    intro acc buf hbuf
    refine ⟨buf, hbuf, ?_⟩
    rw [Nat.sub_self, slice_zero_len, List.append_nil]
    rfl
  | @cons a d c rest hlt hrest ih =>
    intro acc buf hbuf
    have hle := hrest.le
    obtain ⟨buf₁, hbuf₁, hchunk⟩ := @streamChunk_eq readGroup b acc buf (a, d) hr name hlt (hle.trans hc) hlen hbuf
      (hwidth _ List.mem_cons_self)
    obtain ⟨buf₂, hbuf₂, hloop⟩ := ih hc (fun r hr => hwidth r (List.mem_cons_of_mem _ hr))
      (acc ++ slice b a (d - a)) buf₁ hbuf₁
    refine ⟨buf₂, hbuf₂, ?_⟩
    rw [List.foldlM_cons]
    refine bind_eq_ok.mpr ⟨_, hchunk, hloop.trans ?_⟩
    have hjoin := slice_append_slice b a (d - a) (c - d)
    rw [show a + (d - a) = d by omega, show d - a + (c - d) = c - a by omega] at hjoin
    rw [List.append_assoc, hjoin]

theorem streamEntries_eq {libs : Libs} {fuel : Nat} {ctx : ReadCtx} {manifest : Manifest} {content : String → Bytes}
    {l : List Format.BufferEntry} (hgroup : ∀ e ∈ l, (manifest.findGroup e.group).isSome)
    (hreads : ∀ e ∈ l, Reads (readRange libs fuel ctx e.group) (content e.group))
    (hlen : ∀ e ∈ l, (content e.group).length = e.nbytes ∧ e.nbytes < 2 ^ 64) : ∀ acc buf : Bytes,
    buf.length = kStreamChunk → ∃ buf', buf'.length = kStreamChunk ∧
      l.foldlM (streamEntry collect libs fuel ctx manifest) (acc, buf) =
        .ok (acc ++ l.flatMap fun e => content e.group, buf') := by
  induction l with
  | nil =>
    intro acc buf hbuf
    refine ⟨buf, hbuf, ?_⟩
    rw [List.flatMap_nil, List.append_nil]
    rfl
  | cons e rest ih =>
    intro acc buf hbuf
    obtain ⟨hbytes, hsmall⟩ := hlen e List.mem_cons_self
    obtain ⟨buf₁, hbuf₁, hentry⟩ := streamChunks_eq (hreads e List.mem_cons_self) e.group (by omega)
      (steps_tiles e.nbytes kStreamChunk (by decide)) (by omega) (fun r hr => steps_width hr) acc buf hbuf
    rw [Nat.sub_zero, ← hbytes, slice_full, hbytes] at hentry
    have htail {e' : Format.BufferEntry} (h : e' ∈ rest) : e' ∈ e :: rest := List.mem_cons_of_mem _ h
    obtain ⟨buf₂, hbuf₂, hloop⟩ := ih (fun e' h => hgroup e' (htail h)) (fun e' h => hreads e' (htail h))
      (fun e' h => hlen e' (htail h)) (acc ++ content e.group) buf₁ hbuf₁
    refine ⟨buf₂, hbuf₂, ?_⟩
    rw [List.foldlM_cons]
    refine bind_eq_ok.mpr ⟨_, ?_, hloop.trans (by rw [List.flatMap_cons, List.append_assoc])⟩
    unfold streamEntry
    rw [if_neg fun hnone => Option.isSome_iff_ne_none.mp (hgroup e List.mem_cons_self) (Option.isNone_iff_eq_none.mp hnone)]
    exact hentry

/-- A file whose parts can all be read is streamed as its header and its tensors, in buffer order. -/
theorem reconstructFile_eq {libs : Libs} {fuel : Nat} {ctx : ReadCtx} {manifest : Manifest} {blocks : BlockReads}
    {header : Bytes} {content : String → Bytes} (hmanifest : ctx.manifest = some manifest)
    (hblocks : ctx.blocks = some blocks) (hheader : blocks.get manifest.file.headerBlock .header = .ok header)
    (hgroup : ∀ e ∈ manifest.buffer, (manifest.findGroup e.group).isSome)
    (hreads : ∀ e ∈ manifest.buffer, Reads (readRange libs fuel ctx e.group) (content e.group))
    (hlen : ∀ e ∈ manifest.buffer, (content e.group).length = e.nbytes ∧ e.nbytes < 2 ^ 64) :
    reconstructFile collect libs fuel ctx [] = .ok (header ++ manifest.buffer.flatMap fun e => content e.group) := by
  obtain ⟨buf, -, hloop⟩ := streamEntries_eq hgroup hreads hlen ([] ++ header) (List.replicate kStreamChunk 0)
    List.length_replicate
  unfold reconstructFile
  rw [hmanifest, hblocks]
  exact bind_eq_ok.mpr ⟨header, hheader, bind_eq_ok.mpr ⟨_, rfl, bind_eq_ok.mpr ⟨_, hloop, rfl⟩⟩⟩

end SynapseFs.Codec
