import Mathlib.Data.Nat.ModEq
import SynapseFs.Codec.Reconstruct
import SynapseFs.Format.HeaderGuards

/-! What a Delta read relies on in the artifacts it meets.

`read_tensor_range` takes unit ranges, payload offsets and the shape from the
artifact and combines them in 64-bit arithmetic. The guards here say which of its
numbers have to agree: a frame is shorter than the largest vector, its end in the
payload does not wrap, its units lie in the permutation it is gathered with, and a
row is as long as the columns that move in it. `readRange_returns` is the rule: if
every artifact that a manifest names is guarded, a read at any depth returns an error
or a count. -/
namespace SynapseFs.Codec
open Lib Core Format

/-- A reader that returns an error, or a count and the buffer it was given. -/
def SafeRead (read : BaseRead) : Prop :=
  ∀ off out, off < 2 ^ 64 → out.length < kMaxVector → Returns (read off out) fun r => r.2.length = out.length

/-! ### Arithmetic -/

theorem u64Sub_add (a b : Nat) : u64Sub a b + b ≡ a [MOD 2 ^ 64] := by
  unfold u64Sub u64 Nat.ModEq
  have hb : b % 2 ^ 64 < 2 ^ 64 := Nat.mod_lt _ (Nat.two_pow_pos 64)
  omega

/-- The length of a frame in units, times the unit, is its length in bytes, wraps and all. -/
theorem u64_mul_sub (a b w : Nat) : u64 (u64Sub a b * w) = u64Sub (u64 (a * w)) (u64 (b * w)) := by
  have hlt : u64Sub (u64 (a * w)) (u64 (b * w)) < 2 ^ 64 := u64_lt _
  have hunits : u64Sub a b * w + b * w ≡ a * w [MOD 2 ^ 64] := by
    rw [← Nat.add_mul]
    exact (u64Sub_add a b).mul_right w
  have hbytes : u64Sub (u64 (a * w)) (u64 (b * w)) + b * w ≡ a * w [MOD 2 ^ 64] :=
    calc u64Sub (u64 (a * w)) (u64 (b * w)) + b * w
        ≡ u64Sub (u64 (a * w)) (u64 (b * w)) + u64 (b * w) [MOD 2 ^ 64] := (Nat.mod_modEq (b * w) _).symm.add_left _
      _ ≡ u64 (a * w) [MOD 2 ^ 64] := u64Sub_add _ _
      _ ≡ a * w [MOD 2 ^ 64] := Nat.mod_modEq _ _
  have hmod : u64Sub a b * w ≡ u64Sub (u64 (a * w)) (u64 (b * w)) [MOD 2 ^ 64] :=
    (hunits.trans hbytes.symm).add_right_cancel' _
  rw [u64, hmod, Nat.mod_eq_of_lt hlt]

/-! ### Gathers -/

/-- Every unit that is found in the scratch buffer lies in it. -/
def Scratch.Within (s : Scratch) (w : Nat) : Prop := ∀ p off, s.offs.lookup p = some off → off + w ≤ s.bytes.length

theorem Scratch.add_within {s : Scratch} {w : Nat} (hs : s.Within w) {run : UnitRun} {bytes : Bytes}
    (hlen : bytes.length = run.count * w) : (s.add run w bytes).Within w := by
  intro p off hl
  simp only [Scratch.add] at hl ⊢
  rw [List.length_append, hlen]
  rcases lookup_map_reverse_range (fun k => u32 (run.first + k)) (fun k => s.bytes.length + k * w) run.count p s.offs with
    ⟨k, hk, -, hlk⟩ | ⟨-, hlk⟩
  · cases hlk.symm.trans hl
    have hend : (k + 1) * w ≤ run.count * w := Nat.mul_le_mul_right _ hk
    rw [Nat.succ_mul] at hend
    omega
  · rw [hlk] at hl
    have := hs p off hl
    omega

theorem readRuns_returns {read : UnitRun → Outcome Bytes} {w : Nat} (runs : List UnitRun)
    (hread : ∀ run ∈ runs, Returns (read run) fun b => b.length = run.count * w) : ∀ {s : Scratch}, s.Within w →
    Returns (readRuns read w s runs) fun s' => s'.Within w := by
  induction runs with
  | nil => exact fun hs => hs
  | cons run rest ih =>
    intro s hs
    unfold readRuns
    refine (hread run List.mem_cons_self).bind fun bytes _ hbytes => ?_
    exact ih (fun r hr => hread r (List.mem_cons_of_mem _ hr)) (Scratch.add_within hs hbytes)

theorem length_flatten_const {l : List Bytes} {w : Nat} (h : ∀ b ∈ l, b.length = w) : l.flatten.length = l.length * w := by
  have := length_flatMap_const id l h
  rwa [List.flatMap_id] at this

theorem gather_returns {read : UnitRun → Outcome Bytes} {perm : List Nat} {first count w : Nat} (fn name : String)
    (hin : first + count ≤ perm.length)
    (hread : ∀ run, run.count ≤ count → Returns (read run) fun b => b.length = run.count * w) :
    Returns (gather fn name read perm first count w) fun b => b.length = count * w := by
  have hslice : (slice perm first count).length = count := by rw [length_slice]; omega
  unfold gather dependencyRuns
  rw [if_neg (not_lt.mpr hin), returns_bind, returns_ok]
  have hempty : Scratch.Within ⟨[], []⟩ w := nofun
  refine (readRuns_returns _ (fun run hrun => hread run ?_) hempty).bind fun s _ hs => ?_
  · have := toRuns_count_le hrun
    rwa [List.length_mergeSort, hslice] at this
  · refine Returns.bind (Q := fun copied => copied.length = (slice perm first count).length ∧
      ∀ b ∈ copied, b.length = w) (Returns.mapM fun p _ => ?_) fun copied _ hcopied => ?_
    · unfold copyUnit
      split
      · next off hoff =>
        rw [returns_ok, length_slice]
        have := hs p off hoff
        omega
      · exact returns_sfsErr _ _ _
    · show copied.flatten.length = count * w
      rw [length_flatten_const hcopied.2, hcopied.1, hslice]

/-! ### Base rows -/

section
variable {readBase : BaseRead}

theorem readFull_returns (hr : SafeRead readBase) (name : String) {off len : Nat} (hoff : off < 2 ^ 64)
    (hlen : len < kMaxVector) : Returns (readFull readBase name off len) fun b => b.length = len := by
  unfold readFull
  rw [zeroVector_eq hlen, returns_bind, returns_ok]
  refine (hr off (List.replicate len 0) hoff (by rw [List.length_replicate]; exact hlen)).bind fun r _ hbytes => ?_
  obtain ⟨n, bytes⟩ := r
  dsimp only at hbytes ⊢
  split
  · exact returns_sfsErr _ _ _
  · rw [List.length_replicate] at hbytes
    exact hbytes

/-- The base rows of a frame: short of the largest vector, and within the permutation if there is one. -/
theorem gatherBaseBytes_returns (hr : SafeRead readBase) (name : String) {expanded : List Nat}
    {unitBegin unitEnd w : Nat} (hsize : u64 (u64Sub unitEnd unitBegin * w) < kMaxVector)
    (hunits : expanded ≠ [] → unitBegin ≤ unitEnd ∧ unitEnd ≤ expanded.length ∧ expanded.length * w < 2 ^ 64)
    (hend : unitEnd < 2 ^ 64) :
    Returns (gatherBaseBytes readBase name expanded unitBegin unitEnd w) fun b =>
      b.length = u64 (u64Sub unitEnd unitBegin * w) := by
  unfold gatherBaseBytes
  dsimp only
  split
  · exact readFull_returns hr name (u64_lt _) hsize
  · next hne =>
    obtain ⟨hle, hin, hfit⟩ := hunits hne
    have hcount : u64Sub unitEnd unitBegin = unitEnd - unitBegin := u64Sub_of_le hle hend
    rw [hcount] at hsize ⊢
    have hbytes : (unitEnd - unitBegin) * w ≤ expanded.length * w := Nat.mul_le_mul_right _ (by omega)
    rw [u64_of_lt (by omega)] at hsize ⊢
    rw [zeroVector_eq hsize, returns_bind, returns_ok]
    refine gather_returns _ _ (by omega) fun run hrun => ?_
    have hrun' : run.count * w ≤ (unitEnd - unitBegin) * w := Nat.mul_le_mul_right _ hrun
    rw [u64_of_lt (show run.count * w < 2 ^ 64 by omega)]
    exact readFull_returns hr name (u64_lt _) (by omega)

/-- Rows of `w` bytes whose columns lie in them. -/
theorem permuteRows_returns {rows : Bytes} {count w u : Nat} {perm : List Nat} (hrows : rows.length = count * w)
    (hcols : 0 < count → perm.length * u ≤ w ∧ ∀ p ∈ perm, (p + 1) * u ≤ w) :
    Returns (permuteRows rows count w perm u) fun _ => True := by
  unfold permuteRows
  refine Returns.bind (Q := fun _ => True) (Returns.mono (Q := fun bs : List Bytes =>
    bs.length = (List.range count).length ∧ ∀ b ∈ bs, True) (Returns.mapM fun r hr => ?_) fun _ _ _ => trivial)
    fun _ _ _ => trivial
  have hr := List.mem_range.mp hr
  have hstep : (r + 1) * w ≤ count * w := Nat.mul_le_mul_right _ hr
  have hunit : (unit rows w r).length = w := length_unit rows (by rw [hrows]; exact hstep)
  unfold permuteUnits
  rw [if_pos (by rw [hunit]; exact hcols (by omega))]
  trivial

/-! ### Frames -/

/-- The size of a frame, as the reader computes it. -/
def rawBytes (w : Nat) (f : FrameIndexEntry) : Nat := u64Sub (u64 (f.unitEnd * w)) (u64 (f.unitBegin * w))

/-- A frame that gets past the bounds check has its end where the check saw it, is shorter than the largest vector,
and lies in the permutation of `positions` units, if there is one. -/
def FrameGuarded (payload : Bytes) (positions w : Nat) (f : FrameIndexEntry) : Prop :=
  u64 (f.off + f.len) ≤ payload.length → f.off + f.len < 2 ^ 64 ∧ rawBytes w f < kMaxVector ∧
    (positions ≠ 0 → f.unitBegin ≤ f.unitEnd ∧ f.unitEnd ≤ positions)

/-- Where `cols` columns of `u` bytes move, the rows of the frame are as many as its bytes hold. -/
def ColumnsGuarded (payload : Bytes) (cols u w : Nat) (f : FrameIndexEntry) : Prop :=
  u64 (f.off + f.len) ≤ payload.length → w < kMaxVector ∧ u64Sub f.unitEnd f.unitBegin * w < 2 ^ 64 ∧
    (0 < u64Sub f.unitEnd f.unitBegin → cols * u < 2 ^ 64)

theorem baseFrame_returns (hr : SafeRead readBase) (name : String) {expanded : List Nat} {secondary : SecondaryAxis}
    {first last w : Nat} (hsize : u64 (u64Sub last first * w) < kMaxVector) (hlast : last < 2 ^ 64)
    (hunits : expanded ≠ [] → first ≤ last ∧ last ≤ expanded.length ∧ expanded.length * w < 2 ^ 64)
    (hcols : secondary.perm ≠ [] → w < kMaxVector ∧ u64Sub last first * w < 2 ^ 64 ∧
      (0 < u64Sub last first → secondary.perm.length * secondary.unitBytes ≤ w ∧
        ∀ p ∈ secondary.perm, (p + 1) * secondary.unitBytes ≤ w)) :
    Returns (baseFrame readBase name expanded secondary first last w) fun _ => True := by
  unfold baseFrame
  refine (gatherBaseBytes_returns hr name hsize hunits hlast).bind fun base _ hbase => ?_
  split
  · trivial
  · next hne =>
    obtain ⟨hrow, hfit, hin⟩ := hcols hne
    rw [u64_of_lt hfit] at hbase
    rw [zeroVector_eq hrow, returns_bind, returns_ok]
    exact permuteRows_returns hbase hin

/-- What the reader has made of the two permutations when it comes to the frames. -/
structure Moves (expanded : List Nat) (secondary : SecondaryAxis) (positions cols u w : Nat) : Prop where
  rows : expanded.length = positions
  rowsFit : positions * w < 2 ^ 64
  columns : secondary.perm ≠ [] → secondary.perm.length = cols ∧ secondary.unitBytes = u ∧ w = u64 (cols * u) ∧
    ∀ p ∈ secondary.perm, p < cols

theorem applyResidual_returns (kind : ResidualKind) (transform : Transform) (dtype : DType) (base residual out : Bytes) :
    Returns (applyResidual kind transform dtype base residual out) fun _ => True := by
  unfold applyResidual
  split
  · exact returns_sfsErr _ _ _
  · split
    · exact returns_sfsErr _ _ _
    · cases kind with
      | raw => trivial
      | xorAfterPermute =>
        dsimp only
        split
        · exact returns_sfsErr _ _ _
        · trivial
      | zigzagAfterPermute =>
        dsimp only
        split
        · exact returns_sfsErr _ _ _
        · split
          · exact returns_sfsErr _ _ _
          · trivial

theorem decompressFrame_returns (z : Zstd) (src dst : Bytes) : Returns (decompressFrame z src dst) fun _ => True := by
  unfold decompressFrame
  split
  · trivial
  · exact returns_sfsErr _ _ _

theorem decodeFrame_returns {libs : Libs} (hr : SafeRead readBase) (name : String) {expanded : List Nat}
    {secondary : SecondaryAxis} {positions cols u w : Nat} (hm : Moves expanded secondary positions cols u w)
    {payload : Bytes} (t : TensorDiff) {f : FrameIndexEntry} (hf : f.InRange)
    (hframe : FrameGuarded payload positions w f)
    (hcols : secondary.perm ≠ [] → ColumnsGuarded payload cols u w f) :
    Returns (decodeFrame libs readBase name expanded secondary w payload t f) fun _ => rawBytes w f < kMaxVector := by
  unfold decodeFrame
  split
  · exact returns_sfsErr _ _ _
  · next hcheck =>
    have hcheck := not_lt.mp hcheck
    obtain ⟨hend, hsize, hunits⟩ := hframe hcheck
    rw [u64_of_lt hend] at hcheck
    refine (baseFrame_returns hr name (by rw [u64_mul_sub]; exact hsize) hf.2.1 ?_ ?_).bind fun base _ _ => ?_
    · intro hne
      rw [hm.rows]
      obtain ⟨hle, hin⟩ := hunits (hm.rows ▸ fun h => hne (List.eq_nil_of_length_eq_zero h))
      exact ⟨hle, hin, hm.rowsFit⟩
    · intro hne
      obtain ⟨hlen, hunit, hw, hlt⟩ := hm.columns hne
      obtain ⟨hrow, hfit, hwide⟩ := hcols hne (by rw [u64_of_lt hend]; exact hcheck)
      refine ⟨hrow, hfit, fun hpos => ?_⟩
      rw [u64_of_lt (hwide hpos)] at hw
      rw [hlen, hunit]
      exact ⟨hw.ge, fun p hp => hw ▸ Nat.mul_le_mul_right u (hlt p hp)⟩
    · dsimp only
      rw [← rawBytes, zeroVector_eq hsize, returns_bind, returns_ok, if_neg (not_lt.mpr hcheck)]
      refine (decompressFrame_returns _ _ _).bind fun r _ _ => ?_
      obtain ⟨dn, decompressed⟩ := r
      dsimp only
      split
      · exact returns_sfsErr _ _ _
      · refine (applyResidual_returns _ _ _ _ _ _).bind fun reconstructed _ _ => ?_
        split
        · exact returns_sfsErr _ _ _
        · exact hsize

/-- The copy of a frame stays in the window: a frame shorter than half the address space that overlaps the window
has its ends in order. -/
theorem readFrame_returns {decode : FrameIndexEntry → Outcome Bytes} {w off : Nat} {out : Bytes} {s : Nat × Bytes}
    {f : FrameIndexEntry} (hoff : off < 2 ^ 64) (hout : out.length < kMaxVector) (hs : s.2.length = out.length)
    (hdecode : u64 (f.unitEnd * w) ≠ 0 → Returns (decode f) fun _ => rawBytes w f < kMaxVector) :
    Returns (readFrame decode w off (u64 (off + out.length)) s f) fun r => r.2.length = out.length := by
  unfold rawBytes at hdecode
  unfold readFrame
  dsimp only
  have hbegin : u64 (f.unitBegin * w) < 2 ^ 64 := u64_lt _
  have hend : u64 (f.unitEnd * w) < 2 ^ 64 := u64_lt _
  generalize u64 (f.unitBegin * w) = a at hbegin hdecode ⊢
  generalize u64 (f.unitEnd * w) = b at hend hdecode ⊢
  split
  · exact hs
  · next hover =>
    rw [not_or, not_le, not_le] at hover
    refine (hdecode (by omega)).bind fun reconstructed _ hraw => ?_
    have hstop : u64 (off + out.length) ≤ off + out.length := Nat.mod_le _ _
    have horder : max a off ≤ min b (u64 (off + out.length)) := by
      unfold u64Sub u64 kMaxVector at *
      omega
    rw [if_neg (not_lt.mpr horder)]
    show (overwrite s.2 _ _).length = out.length
    rw [length_overwrite _ _ _ ?_, hs]
    rw [length_slice, hs]
    omega

end

/-! ### Permutations -/

/-- Header and permutation of the artifact can be read. -/
def ArtifactSafe (json : JsonLib) (bytes : Bytes) : Prop :=
  ArtifactTyped json bytes ∧ ∀ view, parseDiffArtifact json bytes = .ok view →
    view.header.permutation.Fits view.payload

/-- The length of the group's permutation on an axis. -/
def positions (ref : PermutationRef) (axisLength : Nat) : Nat :=
  match ref.kind with
  | .identity => 0
  | .explicit => ref.n * u32 (axisLength / ref.n)

theorem positions_le (ref : PermutationRef) (axisLength : Nat) : positions ref axisLength ≤ axisLength := by
  unfold positions
  split
  · exact Nat.zero_le _
  · exact (Nat.mul_le_mul_left _ (Nat.mod_le _ _)).trans (Nat.mul_div_le _ _)

/-- Indices wrap at 32 bits, so they stay on an axis of any length. -/
theorem expand_lt {perm : List Nat} {block n : Nat} (hn : ∀ p ∈ perm, p < n) : ∀ q ∈ expand perm block, q < n * block := by
  by_cases hsmall : n * block ≤ 2 ^ 32
  · exact expandPermutation_lt hn hsmall
  · intro q hq
    obtain ⟨p, -, hq⟩ := List.mem_flatMap.mp hq
    obtain ⟨b, -, rfl⟩ := List.mem_map.mp hq
    exact (u32_lt _).trans (not_le.mp hsmall)

theorem expandedFor_returns {header : DiffHeader} {payload : Bytes} (hr : header.permutation.InRange)
    (hfits : header.permutation.Fits payload) (name : String) {axisLength : Nat}
    (hreserve : axisLength % header.permutation.n = 0 → positions header.permutation axisLength < 2 ^ 61) :
    Returns (expandedFor header payload name axisLength) fun e => e.length = positions header.permutation axisLength := by
  unfold positions at hreserve ⊢
  unfold expandedFor
  cases hkind : header.permutation.kind with
  | identity => rfl
  | explicit =>
    rw [hkind] at hreserve
    refine (readPermutation_returns hr hfits).bind fun perm _ hperm => ?_
    obtain ⟨hlen, -⟩ := hperm hkind
    split
    · exact returns_sfsErr _ _ _
    · next hdiv =>
      rw [not_or, not_not] at hdiv
      rw [expandReserved_eq (by rw [hlen]; exact hreserve hdiv.2), returns_ok, expand, length_expandPermutation, hlen]

section
variable (libs : Libs) (blocks : BlockReads)

/-- The tensor's `axis` is bound to a group of `n` units whose permutation another tensor's artifact holds. -/
def ColumnsMove (ctx : ReadCtx) (t : TensorDiff) (axis : AxisBinding) (n : Nat) : Prop :=
  ∃ topology owner manifest entry o bytes view, ctx.topology = some topology ∧
    (topology.tensors.get? t.shapeName).bind secondaryBinding = some axis ∧
    ¬(topology.findGroup axis.group).any PermGroup.pinned ∧
    ownerOf topology axis.group = some owner ∧ ctx.manifest = some manifest ∧
    manifest.findGroup owner = some entry ∧ entry.mode = .delta ∧ entry.diffBlock = some o ∧
    blocks.get o .diff = .ok bytes ∧ parseDiffArtifact libs.json bytes = .ok view ∧
    view.header.permutation.kind = .explicit ∧ view.header.permutation.n = n

/-- The permutations that the tensors of a manifest are read with can be read. -/
def OwnersSafe (manifest : Manifest) : Prop :=
  ∀ name entry o bytes, manifest.findGroup name = some entry → entry.mode = .delta → entry.diffBlock = some o →
    blocks.get o .diff = .ok bytes → ArtifactSafe libs.json bytes

/-- The object store returns errors and values. -/
structure StoreReturns : Prop where
  get : ∀ oid kind, Returns (blocks.get oid kind) fun b => b.length < 2 ^ 63
  readRange : ∀ oid kind, SafeRead (blocks.readRange oid kind)

variable {libs blocks}

theorem parseDiffArtifact_safe {bytes : Bytes} (hlen : bytes.length < 2 ^ 63) (h : ArtifactSafe libs.json bytes) :
    Returns (parseDiffArtifact libs.json bytes) fun view =>
      view.header.permutation.Fits view.payload :=
  ((parseDiffArtifact_returns_iff libs.json hlen).mpr h.1).mono fun view hview _ => h.2 view hview

theorem ownerPermutation_returns (hstore : StoreReturns blocks) {manifest : Manifest}
    (hsafe : OwnersSafe libs blocks manifest) (owner : String) :
    Returns (ownerPermutation libs blocks manifest owner) fun perm => perm ≠ [] →
      ∃ entry o bytes view, manifest.findGroup owner = some entry ∧ entry.mode = .delta ∧ entry.diffBlock = some o ∧
        blocks.get o .diff = .ok bytes ∧ parseDiffArtifact libs.json bytes = .ok view ∧
        view.header.permutation.kind = .explicit ∧ perm.length = view.header.permutation.n ∧
        ∀ p ∈ perm, p < view.header.permutation.n := by
  unfold ownerPermutation
  split
  · exact returns_sfsErr _ _ _
  · next entry hentry =>
    split
    · exact fun h => absurd rfl h
    · exact returns_sfsErr _ _ _
    · next o hmode hdiff =>
      refine (hstore.get o .diff).bind fun bytes hget hlen => ?_
      refine (parseDiffArtifact_safe hlen (hsafe owner entry o bytes hentry hmode hdiff hget)).bind fun view hview hfits => ?_
      refine (readPermutation_returns (parseDiffArtifact_inRange hview).1 hfits).mono fun perm hperm hin hne => ?_
      cases hkind : view.header.permutation.kind with
      | identity =>
        unfold readPermutation at hperm
        rw [hkind] at hperm
        cases hperm
        exact absurd rfl hne
      | explicit =>
        obtain ⟨hlength, hlt⟩ := hin hkind
        exact ⟨entry, o, bytes, view, hentry, hmode, hdiff, hget, hview, hkind, hlength, hlt⟩

theorem resolveSecondaryPermutation_returns (hstore : StoreReturns blocks) {ctx : ReadCtx} {t : TensorDiff}
    (hsafe : ∀ manifest, ctx.manifest = some manifest → OwnersSafe libs blocks manifest)
    (hreserve : ∀ axis n, ColumnsMove libs blocks ctx t axis n → n * axis.block < 2 ^ 61) :
    Returns (resolveSecondaryPermutation libs blocks ctx t) fun s => s.perm ≠ [] →
      ∃ axis n, ColumnsMove libs blocks ctx t axis n ∧ s.perm.length = n * axis.block ∧
        s.unitBytes = secondaryUnitBytes t.shape axis.dim t.dtype ∧ ∀ p ∈ s.perm, p < n * axis.block := by
  have hnone : Returns (.ok ⟨[], 0⟩ : Outcome SecondaryAxis) fun s => s.perm ≠ [] →
      ∃ axis n, ColumnsMove libs blocks ctx t axis n ∧ s.perm.length = n * axis.block ∧
        s.unitBytes = secondaryUnitBytes t.shape axis.dim t.dtype ∧ ∀ p ∈ s.perm, p < n * axis.block :=
    fun h => absurd rfl h
  unfold resolveSecondaryPermutation
  split
  · exact hnone
  · next topology htop =>
    split
    · exact hnone
    · next axis haxis =>
      split
      · exact hnone
      · next hpin =>
        split
        · exact returns_sfsErr _ _ _
        · next owner howner =>
          split
          · exact returns_sfsErr _ _ _
          · next manifest hman =>
            refine (ownerPermutation_returns hstore (hsafe manifest hman) owner).bind fun perm _ hperm => ?_
            split
            · exact hnone
            · next hne =>
              obtain ⟨entry, o, bytes, view, hentry, hmode, hdiff, hget, hview, hkind, hlen, hlt⟩ := hperm hne
              have hmove : ColumnsMove libs blocks ctx t axis view.header.permutation.n :=
                ⟨topology, owner, manifest, entry, o, bytes, view, htop, haxis, hpin, howner, hman, hentry, hmode, hdiff,
                  hget, hview, hkind, rfl⟩
              rw [expandReserved_eq (by rw [hlen]; exact hreserve axis _ hmove), returns_bind, returns_ok]
              intro _
              refine ⟨axis, _, hmove, ?_, rfl, expand_lt hlt⟩
              rw [expand, length_expandPermutation, hlen]

/-! ### Tensors -/

variable (libs blocks) in
/-- The tensor's frames, at rows of `w` bytes. -/
structure RowsGuarded (ctx : ReadCtx) (view : DiffArtifactView) (t : TensorDiff) (axisLength w : Nat) : Prop where
  reserve : axisLength % view.header.permutation.n = 0 → positions view.header.permutation axisLength < 2 ^ 61
  frames : ∀ f ∈ t.frames, u64 (f.unitEnd * w) ≠ 0 →
    FrameGuarded view.payload (positions view.header.permutation axisLength) w f
  reserveColumns : ∀ axis n, ColumnsMove libs blocks ctx t axis n → n * axis.block < 2 ^ 61
  columns : ∀ axis n, ColumnsMove libs blocks ctx t axis n → n * axis.block ≠ 0 →
    w = u64 (n * axis.block * secondaryUnitBytes t.shape axis.dim t.dtype) →
    ∀ f ∈ t.frames, u64 (f.unitEnd * w) ≠ 0 →
      ColumnsGuarded view.payload (n * axis.block) (secondaryUnitBytes t.shape axis.dim t.dtype) w f

variable (libs blocks) in
/-- The same, if the sizes of the tensor pass the checks in front of the frames. -/
def TensorGuarded (ctx : ReadCtx) (view : DiffArtifactView) (t : TensorDiff) : Prop :=
  ∀ last, t.frames.getLast? = some last → last.unitEnd ≠ 0 → tensorBytes t.shape t.dtype % last.unitEnd = 0 →
    RowsGuarded libs blocks ctx view t last.unitEnd (tensorBytes t.shape t.dtype / last.unitEnd)

theorem readTensorRange_returns (hstore : StoreReturns blocks) {ctx : ReadCtx} {readBase : BaseRead}
    (hr : SafeRead readBase) (hsafe : ∀ manifest, ctx.manifest = some manifest → OwnersSafe libs blocks manifest)
    {view : DiffArtifactView} (hperm : view.header.permutation.InRange) (hfits : view.header.permutation.Fits view.payload)
    {t : TensorDiff} (ht : t.InRange) (hguard : TensorGuarded libs blocks ctx view t) (baseName : String) :
    SafeRead (readTensorRange libs blocks ctx readBase view.header view.payload t baseName) := by
  intro off out hoff hout
  unfold readTensorRange
  split
  · exact returns_sfsErr _ _ _
  · next last hlast =>
    dsimp only
    split
    · exact returns_sfsErr _ _ _
    · next hdiv =>
      rw [not_or, not_not] at hdiv
      obtain ⟨haxis, hdiv⟩ := hdiv
      have hrows := hguard last hlast haxis hdiv
      have hbytes : last.unitEnd * (tensorBytes t.shape t.dtype / last.unitEnd) < 2 ^ 64 :=
        (Nat.mul_div_le _ _).trans_lt (u64_lt _)
      generalize tensorBytes t.shape t.dtype / last.unitEnd = w at hrows hbytes ⊢
      refine (expandedFor_returns hperm hfits _ hrows.reserve).bind fun expanded _ hexp => ?_
      refine (resolveSecondaryPermutation_returns hstore hsafe hrows.reserveColumns).bind fun secondary _ hsec => ?_
      have hrowsFit : positions view.header.permutation last.unitEnd * w < 2 ^ 64 :=
        (Nat.mul_le_mul_right w (positions_le _ _)).trans_lt hbytes
      split
      · exact returns_sfsErr _ _ _
      · next hwidth =>
        have hwidth : secondary.perm ≠ [] → w = u64 (secondary.perm.length * secondary.unitBytes) := fun hne =>
          not_not.mp fun h => hwidth ⟨hne, h⟩
        refine Returns.foldlM (I := fun s : Nat × Bytes => s.2.length = out.length) rfl fun s f hf hs => ?_
        refine readFrame_returns hoff hout hs fun hread => ?_
        by_cases hne : secondary.perm = []
        · have hm : Moves expanded secondary (positions view.header.permutation last.unitEnd) 0 0 w :=
            ⟨hexp, hrowsFit, fun h => absurd hne h⟩
          exact decodeFrame_returns hr baseName hm t (ht.2 f hf) (hrows.frames f hf hread) fun h => absurd hne h
        · obtain ⟨axis, n, hmove, hlen, hunit, hlt⟩ := hsec hne
          have hw := hwidth hne
          rw [hlen, hunit] at hw
          have hcols : n * axis.block ≠ 0 := hlen ▸ fun h => hne (List.eq_nil_of_length_eq_zero h)
          have hm : Moves expanded secondary (positions view.header.permutation last.unitEnd) (n * axis.block)
              (secondaryUnitBytes t.shape axis.dim t.dtype) w :=
            ⟨hexp, hrowsFit, fun _ => ⟨hlen, hunit, hw, hlt⟩⟩
          exact decodeFrame_returns hr baseName hm t (ht.2 f hf) (hrows.frames f hf hread) fun _ =>
            hrows.columns axis n hmove hcols hw f hf hread

/-! ### Groups -/

variable (libs blocks) in
/-- Every Diff object that an entry of the manifest points at is guarded, for the tensor it is read for. -/
def EntriesGuarded (ctx : ReadCtx) (manifest : Manifest) : Prop :=
  ∀ name entry o bytes, manifest.findGroup name = some entry → entry.mode = .delta → entry.diffBlock = some o →
    blocks.get o .diff = .ok bytes → ArtifactSafe libs.json bytes ∧
      ∀ view t, parseDiffArtifact libs.json bytes = .ok view →
        view.header.tensors.find? (fun t => t.shapeName = name) = some t →
        TensorGuarded libs blocks { ctx with manifest := some manifest } view t

/-- A chain of bases from the manifest ends after fewer than `d` hops. -/
def Rooted (history : Oid → Outcome Manifest) : Nat → Manifest → Prop
  | 0, _ => False
  | d + 1, m => ∀ name entry base m', m.findGroup name = some entry → entry.base = some base →
    history base.commit = .ok m' → Rooted history d m'

variable (libs blocks) in
/-- What a read relies on outside of the code: the history returns errors and manifests, the chains in it end, and
the artifacts are guarded, in the manifest that is read and in all that it is based on. -/
structure WorldGuarded (ctx : ReadCtx) (fuel : Nat) : Prop where
  history : ∀ history, ctx.history = some history → ∀ o, Returns (history o) fun _ => True
  rooted : ∀ history m, ctx.history = some history → ctx.manifest = some m → Rooted history fuel m
  entries : ∀ m, (ctx.manifest = some m ∨ ∃ history o, ctx.history = some history ∧ history o = .ok m) →
    EntriesGuarded libs blocks ctx m

/-- The base manifest of a guarded world is one hop closer to the end of its chains. -/
theorem WorldGuarded.base {ctx : ReadCtx} {fuel : Nat} (hw : WorldGuarded libs blocks ctx (fuel + 1))
    {history : Oid → Outcome Manifest} (hhistory : ctx.history = some history) {manifest m : Manifest}
    (hmanifest : ctx.manifest = some manifest) {name : String} {entry : GroupEntry} {base : DeltaBase}
    (hentry : manifest.findGroup name = some entry) (hbase : entry.base = some base) (hm : history base.commit = .ok m) :
    0 < fuel ∧ WorldGuarded libs blocks { ctx with manifest := some m } fuel := by
  have hrooted := hw.rooted history manifest hhistory hmanifest name entry base m hentry hbase hm
  refine ⟨Nat.pos_of_ne_zero fun hzero => ?_, hw.history, fun h m' hh hm' => ?_, fun m' hm' => hw.entries m' (.inr ?_)⟩
  · rw [hzero] at hrooted
    exact hrooted
  · cases hhistory.symm.trans hh
    cases hm'
    exact hrooted
  · rcases hm' with hm' | hm'
    · cases hm'
      exact ⟨history, base.commit, hhistory, hm⟩
    · exact hm'

theorem readDeltaRange_returns (hstore : StoreReturns blocks) {ctx : ReadCtx} {fuel : Nat}
    (hw : WorldGuarded libs blocks ctx (fuel + 1)) {manifest : Manifest} (hmanifest : ctx.manifest = some manifest)
    {name : String} {entry : GroupEntry} (hentry : manifest.findGroup name = some entry) (hmode : entry.mode = .delta)
    {readAt : ReadCtx → String → BaseRead}
    (hread : ∀ m, 0 < fuel → WorldGuarded libs blocks { ctx with manifest := some m } fuel →
      ∀ group, SafeRead (readAt { ctx with manifest := some m } group)) :
    SafeRead (readDeltaRange libs blocks ctx readAt entry name) := by
  intro off out hoff hout
  have hentries := hw.entries manifest (.inl hmanifest)
  unfold readDeltaRange
  split
  · next base o hbase hdiff =>
    split
    · exact returns_sfsErr _ _ _
    · split
      · exact returns_sfsErr _ _ _
      · next history hhistory =>
        refine (hstore.get o .diff).bind fun bytes hget hlen => ?_
        obtain ⟨hsafe, htensor⟩ := hentries name entry o bytes hentry hmode hdiff hget
        refine (parseDiffArtifact_safe hlen hsafe).bind fun view hview hfits => ?_
        obtain ⟨hperm, hrange, -⟩ := parseDiffArtifact_inRange hview
        split
        · exact returns_sfsErr _ _ _
        · next t hfind =>
          refine (hw.history history hhistory base.commit).bind fun m hm _ => ?_
          obtain ⟨hpos, hdown⟩ := hw.base hhistory hmanifest hentry hbase hm
          have hself : ({ ctx with manifest := some manifest } : ReadCtx) = ctx := by rw [← hmanifest]
          have hguard : TensorGuarded libs blocks ctx view t := hself ▸ htensor view t hview hfind
          have howners : ∀ m, ctx.manifest = some m → OwnersSafe libs blocks m := fun m hm n e o' b he hmd hd hg =>
            (hw.entries m (.inl hm) n e o' b he hmd hd hg).1
          exact readTensorRange_returns hstore (hread m hpos hdown base.group) howners hperm hfits
            (hrange t (List.mem_of_find?_eq_some hfind)) hguard base.group off out hoff hout
  · exact returns_sfsErr _ _ _

/-- The rule: in a guarded world a read at any depth returns. -/
theorem readRange_returns (hstore : StoreReturns blocks) (fuel : Nat) : ∀ ctx : ReadCtx, ctx.blocks = some blocks →
    0 < fuel → WorldGuarded libs blocks ctx fuel → ∀ name, SafeRead (readRange libs fuel ctx name) := by
  induction fuel with
  | zero => exact fun _ _ h => absurd h (lt_irrefl 0)
  | succ fuel ih =>
    intro ctx hblocks _ hw name off out hoff hout
    unfold readRange
    rw [hblocks]
    cases hmanifest : ctx.manifest with
    | none => exact returns_sfsErr _ _ _
    | some manifest =>
      dsimp only
      cases hentry : manifest.findGroup name with
      | none => exact returns_sfsErr _ _ _
      | some entry =>
        dsimp only
        cases hmode : entry.mode with
        | full =>
          dsimp only
          split
          · exact returns_sfsErr _ _ _
          · exact hstore.readRange _ _ off out hoff hout
        | delta =>
          exact readDeltaRange_returns hstore hw hmanifest hentry hmode (fun m hpos hdown => ih _ hblocks hpos hdown) off
            out hoff hout

end

/-! ### What becomes of a Diff object -/

/-- The bytes 5 and 6 in one frame, in the other order in the base; the permutation is said to be at `off`. -/
def pairHeader (off : Nat) : DiffHeader where
  formatVersion := 1
  group := "g"
  codec := .zstd
  permutation := ⟨.explicit, 2, 2, off, 4⟩
  tensors := [{
    shapeName := "w", shape := [2], dtype := .u8, residual := .raw, transform := .none
    frames := [⟨0, 2, 4, 11,
      ⟨[0xf2, 0xe0, 0x6b, 0xb7, 0x57, 0x99, 0x8c, 0x6f, 0x67, 0xb4, 0x04, 0xd9, 0x18, 0xb8, 0x17, 0x00,
        0xe2, 0x69, 0x51, 0x05, 0x09, 0xd5, 0xeb, 0x46, 0x5f, 0xa0, 0xa0, 0x9d, 0x0c, 0xe5, 0xd9, 0x46], rfl⟩⟩] }]
  alignable := true
  alignment := ⟨"weight_matching_lap", 0, 0⟩

/-- The header's text around the offset. -/
def pairText (off : String) : Bytes :=
  ascii ("\x7b\"alignable\":true,\"alignment\":\x7b\"cost_normalized\":0.0,\"cost_raw\":0.0,".toList ++
    "\"method\":\"weight_matching_lap\"\x7d,\"codec\":\"zstd\",\"format_version\":1,\"group\":\"g\",".toList ++
    "\"magic\":\"SYNDIFF\",\"permutation\":\x7b\"dtype\":\"u16\",\"kind\":\"explicit\",\"len\":4,\"n\":2,\"off\":".toList ++
    off.toList ++ "\x7d,\"tensors\":[\x7b\"dtype\":\"U8\",\"frames\":[\x7b\"digest\":\"".toList ++
    "f2e06bb757998c6f67b404d918b81700e269510509d5eb465fa0a09d0ce5d946".toList ++
    "\",\"len\":11,\"off\":4,\"units\":[0,2]\x7d],\"name\":\"w\",\"residual\":\"raw\",".toList ++
    "\"shape\":[2],\"transform\":\"none\"\x7d]\x7d".toList)

/-- The permutation, and the two bytes in a zstd frame with one raw block. -/
def pairPayload : Bytes := [1, 0, 0, 0] ++ [0x28, 0xb5, 0x2f, 0xfd, 0x20, 0x02, 0x11, 0x00, 0x00, 5, 6]

/-- The libraries on an object whose header text is read as `j`. -/
def pairLibs (j : Json) : Libs where
  json := ⟨fun _ => .ok j, fun _ => []⟩
  zstd := ⟨fun _ _ => .error "nothing is compressed", fun _ _ => .ok [5, 6]⟩
  blake3 _ :=
    ⟨[0xf2, 0xe0, 0x6b, 0xb7, 0x57, 0x99, 0x8c, 0x6f, 0x67, 0xb4, 0x04, 0xd9, 0x18, 0xb8, 0x17, 0x00,
      0xe2, 0x69, 0x51, 0x05, 0x09, 0xd5, 0xeb, 0x46, 0x5f, 0xa0, 0xa0, 0x9d, 0x0c, 0xe5, 0xd9, 0x46], rfl⟩

/-- One Diff object, and a base block of two bytes. -/
def pairBlocks (diff : Bytes) : BlockReads where
  get _ kind := if kind = .diff then .ok diff else sfsErr .objectNotFound "object not found" ""
  readRange _ _ off out := .ok ((slice [6, 5] off out.length).length, filled (slice [6, 5] off out.length) out)

def pairOid (b : UInt8) : Oid := .fill b

def pairManifest (entry : GroupEntry) : Manifest where
  formatVersion := 1
  hashAlgo := "blake3"
  file := ⟨"model.safetensors", pairOid 1, 66, ""⟩
  buffer := [⟨"w", 64, 2, "w"⟩]
  groups := ⟨[("w", entry)], List.nodup_singleton _⟩

/-- The tensor is a Delta of the same tensor, which its base commit holds in full. -/
def pairCtx (diff : Bytes) : ReadCtx where
  blocks := some (pairBlocks diff)
  manifest := some (pairManifest ⟨.delta, none, some ⟨pairOid 2, "w"⟩, some (pairOid 3), 1⟩)
  history := some fun _ => .ok (pairManifest ⟨.full, some (pairOid 4), none, none, 0⟩)
  maxDepth := 4
  topology := none

theorem findGroup_pair {entry e : GroupEntry} {name : String} (h : (pairManifest entry).findGroup name = some e) :
    name = "w" ∧ e = entry := by
  have hmem := List.mem_singleton.mp (FinMap.get?_eq_some.mp h)
  exact ⟨congrArg Prod.fst hmem, congrArg Prod.snd hmem⟩

theorem store_pair {diff : Bytes} (h : diff.length < 2 ^ 63) : StoreReturns (pairBlocks diff) where
  get oid kind := by
    show Returns (if kind = .diff then .ok diff else _) _
    split
    · exact h
    · exact returns_sfsErr _ _ _
  readRange oid kind off out _ _ := by
    show (filled (slice [6, 5] off out.length) out).length = out.length
    rw [length_filled, length_slice]
    omega

theorem rooted_pair (diff : Bytes) {history : Oid → Outcome Manifest} {m : Manifest}
    (hh : (pairCtx diff).history = some history) (hm : (pairCtx diff).manifest = some m) : Rooted history 2 m := by
  cases hh
  cases hm
  intro name entry base m' _ _ hm'
  cases hm'
  intro name' entry' base' m'' hentry' hbase'
  rw [(findGroup_pair hentry').2] at hbase'
  cases hbase'

theorem parse_pair {off : Nat} (hoff : off < 2 ^ 64) {text : Bytes} (hne : text ≠ []) (hlen : text.length < 2 ^ 32) :
    parseDiffArtifact (pairLibs (pairHeader off).toJson).json (layOut text pairPayload) =
      .ok ⟨pairHeader off, pairPayload⟩ := by
  have hcost : (Json.f64Trunc 0).isSome := by decide
  have hrange : (pairHeader off).InRange := by
    refine ⟨by show (1 : Nat) < 2 ^ 32; omega, fun _ => ⟨?_, .inl rfl, hoff, ?_⟩, fun t ht => ?_, hcost, hcost⟩
    · show (2 : Nat) < 2 ^ 32
      omega
    · show (4 : Nat) < 2 ^ 64
      omega
    · rw [List.mem_singleton.mp ht]
      refine ⟨fun d hd => ?_, fun f hf => ?_⟩
      · rw [List.mem_singleton.mp hd]
        omega
      · rw [List.mem_singleton.mp hf]
        exact ⟨by decide, by decide, by decide, by decide⟩
  have hpayload : pairPayload.length = 15 := rfl
  rw [layOut, parseDiffArtifact_text _ _ hne (by omega)]
  refine bind_eq_ok.mpr ⟨pairHeader off, ?_, rfl⟩
  exact DiffHeader.fromJson_toJson hrange

/-- The tensor of the pair is guarded, wherever its columns would come from. -/
theorem tensor_pair (libs : Libs) (blocks : BlockReads) (m : Option Manifest) {ctx : ReadCtx} (htop : ctx.topology = none)
    {t : TensorDiff} (ht : t ∈ (pairHeader 0).tensors) :
    TensorGuarded libs blocks { ctx with manifest := m } ⟨pairHeader 0, pairPayload⟩ t := by
  have hcols : ∀ axis n, ¬ColumnsMove libs blocks { ctx with manifest := m } t axis n := by
    rintro axis n ⟨topology, _, _, _, _, _, _, htopology, -⟩
    cases htop.symm.trans htopology
  rw [List.mem_singleton.mp ht] at hcols ⊢
  intro last hlast _ _
  cases hlast
  refine ⟨fun _ => by decide, fun f hf _ _ => ?_, fun axis n h => absurd h (hcols axis n),
    fun axis n h => absurd h (hcols axis n)⟩
  rw [List.mem_singleton.mp hf]
  exact ⟨by decide, by decide, fun _ => ⟨by decide, by decide⟩⟩

theorem safe_pair {libs : Libs} {bytes : Bytes} (hlen : bytes.length < 2 ^ 63)
    (h : parseDiffArtifact libs.json bytes = .ok ⟨pairHeader 0, pairPayload⟩) : ArtifactSafe libs.json bytes := by
  refine ⟨(parseDiffArtifact_returns_iff libs.json hlen).mp (by rw [h]; trivial), fun view hview => ?_⟩
  cases h.symm.trans hview
  exact fun _ _ _ => by decide

theorem world_pair {libs : Libs} {bytes : Bytes} (hlen : bytes.length < 2 ^ 63)
    (h : parseDiffArtifact libs.json bytes = .ok ⟨pairHeader 0, pairPayload⟩) :
    WorldGuarded libs (pairBlocks bytes) (pairCtx bytes) 2 where
  history history hh o := by
    cases hh
    trivial
  rooted history m hh hm := rooted_pair bytes hh hm
  entries m _ name entry o b hentry _ _ hget := by
    cases hget
    refine ⟨safe_pair hlen h, fun view t hview hfind => ?_⟩
    cases h.symm.trans hview
    exact tensor_pair libs _ (some m) rfl (List.mem_of_find?_eq_some hfind)

theorem length_pairText {off : List Char} (h : off.length ≤ 255) :
    0 < (pairText (String.ofList off)).length ∧ (pairText (String.ofList off)).length ≤ 255 * 8 := by
  iterate 4 refine length_ascii_append (by decide) ?_
  refine length_ascii_append h ?_
  iterate 2 refine length_ascii_append (by decide) ?_
  exact length_ascii_single (by decide) (by decide)

/-- A header text with nothing but the magic. -/
def bareText : Bytes := ascii "\x7b\"magic\":\"SYNDIFF\"\x7d".toList

/-- Where the artifact is not parsed, the read ends as the parser does. -/
theorem readRange_pair_error {libs : Libs} {diff : Bytes} {f : Failure} (off : Nat) (out : Bytes)
    (h : parseDiffArtifact libs.json diff = .error f) : readRange libs 2 (pairCtx diff) "w" off out = .error f := by
  show (parseDiffArtifact libs.json diff >>= _) = _
  rw [h]
  rfl

/-- Where the permutation is not read, so does the tensor. -/
theorem readRange_pair_permutation {libs : Libs} {diff : Bytes} {n : Nat} {f : Failure} (off : Nat) (out : Bytes)
    (hparse : parseDiffArtifact libs.json diff = .ok ⟨pairHeader n, pairPayload⟩)
    (hperm : readPermutation (pairHeader n).permutation pairPayload = .error f) :
    readRange libs 2 (pairCtx diff) "w" off out = .error f := by
  show (parseDiffArtifact libs.json diff >>= _) = _
  rw [hparse]
  show (readPermutation (pairHeader n).permutation pairPayload >>= _) >>= _ = _
  rw [hperm]
  rfl

/-- A field that is missing leaves as an exception. -/
theorem readRange_bare : readRange (pairLibs (.obj [("magic", .str "SYNDIFF")])) 2 (pairCtx (layOut bareText [])) "w" 0 [0] =
    .error (.exception "[json.exception.out_of_range.403] key 'format_version' not found") := by
  refine readRange_pair_error 0 [0] ?_
  have hlen : bareText.length = 19 := by decide +kernel
  rw [layOut, parseDiffArtifact_text _ _ (List.ne_nil_of_length_pos (by omega)) (by rw [hlen]; decide)]
  rfl

/-- A permutation whose end wraps to the front of the payload is loaded from far behind it. -/
theorem readRange_wrapped : readRange (pairLibs (pairHeader (2 ^ 64 - 2)).toJson) 2
    (pairCtx (layOut (pairText "18446744073709551614") pairPayload)) "w" 0 [0] =
      .error (.undefined "load outside the payload") := by
  have htext : 0 < (pairText "18446744073709551614").length ∧ (pairText "18446744073709551614").length ≤ 255 * 8 :=
    length_pairText (by decide)
  have hparse := @parse_pair (2 ^ 64 - 2) (by omega) (pairText "18446744073709551614")
    (List.ne_nil_of_length_pos htext.1) (by omega)
  exact readRange_pair_permutation 0 [0] hparse (by decide)

end SynapseFs.Codec
