import Mathlib.Data.List.Nodup
import SynapseFs.Codec.DiffGuards

/-! What the bytes of a successful Delta read are.

The frame loop copies from every frame what overlaps the window and counts the
bytes. Each byte it copies comes from a frame with the right digest (`readFrames_spec`);
that the count is the length of the window says nothing of bytes that are copied twice.
A full count means a full window exactly when no two frames share a byte of the
window, and none of them is so far out that its place wraps (`verified_iff`). -/
namespace SynapseFs.Codec
open Lib Core Format

/-! ### One frame -/

/-- Where a frame's bytes start, as the loop computes it. -/
def frameBegin (w : Nat) (f : FrameIndexEntry) : Nat := u64 (f.unitBegin * w)

def frameEnd (w : Nat) (f : FrameIndexEntry) : Nat := u64 (f.unitEnd * w)

/-- The positions the loop copies from the frame. -/
def copies (w off stop : Nat) (f : FrameIndexEntry) : List Nat := clip (frameBegin w f) (frameEnd w f) off stop

/-- A decoded frame has the stored digest and the bytes between its ends. -/
theorem decodeFrame_ok {libs : Libs} {readBase : BaseRead} {name : String} {expanded : List Nat} {secondary : SecondaryAxis}
    {w : Nat} {payload : Bytes} {t : TensorDiff} {f : FrameIndexEntry} {r : Bytes}
    (h : decodeFrame libs readBase name expanded secondary w payload t f = .ok r) :
    libs.blake3 r = f.digest ∧ r.length = u64Sub (frameEnd w f) (frameBegin w f) := by
  unfold decodeFrame at h
  split at h
  · exact absurd h sfsErr_ne_ok
  · obtain ⟨base, -, h⟩ := bind_eq_ok.mp h
    dsimp only at h
    obtain ⟨buf, hbuf, h⟩ := bind_eq_ok.mp h
    split at h
    · cases h
    · obtain ⟨⟨dn, decompressed⟩, -, h⟩ := bind_eq_ok.mp h
      dsimp only at h
      split at h
      · exact absurd h sfsErr_ne_ok
      · obtain ⟨reconstructed, happly, h⟩ := bind_eq_ok.mp h
        split at h
        · exact absurd h sfsErr_ne_ok
        · next hdigest =>
          cases h
          refine ⟨not_not.mp hdigest, (length_applyResidual happly).trans ?_⟩
          unfold zeroVector at hbuf
          split at hbuf
          · cases hbuf
          · cases hbuf
            exact List.length_replicate

section
variable {decode : FrameIndexEntry → Outcome Bytes} {w off stop : Nat}

/-- What one turn of the loop does: it counts the positions it copies, fills them from the decoded frame, and leaves the
others. -/
theorem readFrame_ok (hlen : ∀ f r, decode f = .ok r → r.length = u64Sub (frameEnd w f) (frameBegin w f))
    {s s' : Nat × Bytes} {f : FrameIndexEntry} (hstop : stop ≤ off + s.2.length)
    (h : readFrame decode w off stop s f = .ok s') :
    s'.1 = s.1 + (copies w off stop f).length ∧ s'.2.length = s.2.length ∧
      ∀ i, (off + i ∈ copies w off stop f → ∃ r, decode f = .ok r ∧ s'.2[i]? = r[off + i - frameBegin w f]?) ∧
        (off + i ∉ copies w off stop f → s'.2[i]? = s.2[i]?) := by
  have hend : frameEnd w f < 2 ^ 64 := u64_lt _
  have hlen := hlen f
  unfold readFrame at h
  rw [← frameBegin, ← frameEnd] at h
  simp only [copies, mem_clip, length_clip]
  generalize frameBegin w f = a at h hlen ⊢
  generalize frameEnd w f = b at h hlen hend ⊢
  dsimp only at h
  split at h
  · next hskip =>
    cases h
    refine ⟨by omega, rfl, fun i => ⟨fun hin => ?_, fun _ => rfl⟩⟩
    omega
  · next hover =>
    obtain ⟨r, hr, h⟩ := bind_eq_ok.mp h
    split at h
    · cases h
    · next horder =>
      cases h
      rw [not_or, not_le, not_le] at hover
      have hr' := hlen r hr
      rw [u64Sub_of_le (by omega) hend] at hr'
      have hslice : (slice r (max a off - a) (min b stop - max a off)).length = min b stop - max a off := by
        rw [length_slice]
        omega
      refine ⟨rfl, length_overwrite _ _ _ (by rw [hslice]; omega), fun i => ?_⟩
      dsimp only
      rw [getElem?_overwrite (by omega), hslice]
      refine ⟨fun hin => ⟨r, hr, ?_⟩, fun hout => if_neg (by omega)⟩
      rw [if_pos (by omega), getElem?_slice, if_pos (by omega)]
      congr 1
      omega

/-- The positions copied from a list of frames, in the order of the loop. -/
def allCopies (w off stop : Nat) (frames : List FrameIndexEntry) : List Nat := frames.flatMap (copies w off stop)

theorem allCopies_past (w : Nat) (frames : List FrameIndexEntry) (h : stop ≤ off) : allCopies w off stop frames = [] := by
  refine List.flatMap_eq_nil_iff.mpr fun f _ => List.eq_nil_of_length_eq_zero ?_
  rw [copies, length_clip]
  omega

/-- The whole loop: the count is of all positions copied, and a byte that was copied is one of a decoded frame. -/
theorem readFrames_ok (hlen : ∀ f r, decode f = .ok r → r.length = u64Sub (frameEnd w f) (frameBegin w f)) :
    ∀ {frames : List FrameIndexEntry} {s s' : Nat × Bytes}, stop ≤ off + s.2.length →
      frames.foldlM (readFrame decode w off stop) s = .ok s' →
        s'.1 = s.1 + (allCopies w off stop frames).length ∧ s'.2.length = s.2.length ∧
          ∀ i, (off + i ∈ allCopies w off stop frames → ∃ f ∈ frames, ∃ r, decode f = .ok r ∧
              off + i ∈ copies w off stop f ∧ s'.2[i]? = r[off + i - frameBegin w f]?) ∧
            (off + i ∉ allCopies w off stop frames → s'.2[i]? = s.2[i]?) := by
  intro frames
  induction frames with
  | nil =>
    intro s s' _ h
    cases h
    exact ⟨rfl, rfl, fun i => ⟨fun hin => absurd hin List.not_mem_nil, fun _ => rfl⟩⟩
  | cons f rest ih =>
    intro s s' hstop h
    rw [List.foldlM_cons] at h
    obtain ⟨s₁, hstep, hrest⟩ := bind_eq_ok.mp h
    obtain ⟨hcount, hsize, hbytes⟩ := readFrame_ok hlen hstop hstep
    obtain ⟨hcount', hsize', hbytes'⟩ := ih (by rw [hsize]; exact hstop) hrest
    refine ⟨?_, hsize'.trans hsize, fun i => ?_⟩
    · rw [hcount', hcount, allCopies, allCopies, List.flatMap_cons, List.length_append, Nat.add_assoc]
    · rw [allCopies, List.flatMap_cons, List.mem_append, ← allCopies]
      -- a later frame wins, an earlier one shows where no later one copies
      by_cases hlater : off + i ∈ allCopies w off stop rest
      · obtain ⟨g, hg, r, hr, hin, hval⟩ := (hbytes' i).1 hlater
        exact ⟨fun _ => ⟨g, List.mem_cons_of_mem _ hg, r, hr, hin, hval⟩, fun hout => absurd (Or.inr hlater) hout⟩
      · have hkeep := (hbytes' i).2 hlater
        refine ⟨fun hin => ?_, fun hout => hkeep.trans ((hbytes i).2 fun hin => hout (Or.inl hin))⟩
        have hin := hin.resolve_right hlater
        obtain ⟨r, hr, hval⟩ := (hbytes i).1 hin
        exact ⟨f, List.mem_cons_self, r, hr, hin, hkeep.trans hval⟩

end

/-! ### A Delta group -/

/-- What a read of a Delta group finds before it comes to the frames. -/
structure DeltaSource (libs : Libs) (ctx : ReadCtx) (name : String) where
  blocks : BlockReads
  manifest : Manifest
  history : Oid → Outcome Manifest
  entry : GroupEntry
  base : DeltaBase
  diffBlock : Oid
  object : Bytes
  view : DiffArtifactView
  tensor : TensorDiff
  baseManifest : Manifest
  blocks_eq : ctx.blocks = some blocks
  manifest_eq : ctx.manifest = some manifest
  history_eq : ctx.history = some history
  entry_eq : manifest.findGroup name = some entry
  delta : entry.mode = .delta
  base_eq : entry.base = some base
  diffBlock_eq : entry.diffBlock = some diffBlock
  depth : entry.chainDepth ≤ ctx.maxDepth
  object_eq : blocks.get diffBlock .diff = .ok object
  view_eq : parseDiffArtifact libs.json object = .ok view
  tensor_eq : view.header.tensors.find? (fun t => t.shapeName = name) = some tensor
  baseManifest_eq : history base.commit = .ok baseManifest

namespace DeltaSource

/-- A read of a Delta group that succeeds has found all of it. -/
theorem of_ok {libs : Libs} {fuel : Nat} {ctx : ReadCtx} {name : String} {off : Nat} {out : Bytes} {r : Nat × Bytes}
    {manifest : Manifest} {entry : GroupEntry} (hmanifest : ctx.manifest = some manifest)
    (hentry : manifest.findGroup name = some entry) (hmode : entry.mode = .delta)
    (h : readRange libs fuel ctx name off out = .ok r) : Nonempty (DeltaSource libs ctx name) := by
  cases fuel with
  | zero => cases h
  | succ fuel =>
    unfold readRange at h
    rw [hmanifest] at h
    split at h
    · next blocks m hblocks hm =>
      cases hm
      rw [hentry] at h
      dsimp only at h
      rw [hmode] at h
      dsimp only at h
      unfold readDeltaRange at h
      split at h
      · next base diffBlock hbase hdiff =>
        split at h
        · exact absurd h sfsErr_ne_ok
        · next hle =>
          split at h
          · exact absurd h sfsErr_ne_ok
          · next history hhistory =>
            obtain ⟨object, hobject, h⟩ := bind_eq_ok.mp h
            obtain ⟨view, hview, h⟩ := bind_eq_ok.mp h
            split at h
            · exact absurd h sfsErr_ne_ok
            · next tensor htensor =>
              obtain ⟨baseManifest, hbm, -⟩ := bind_eq_ok.mp h
              exact ⟨⟨blocks, manifest, history, entry, base, diffBlock, object, view, tensor, baseManifest, hblocks,
                hmanifest, hhistory, hentry, hmode, hbase, hdiff, not_lt.mp hle, hobject, hview, htensor, hbm⟩⟩
      · exact absurd h sfsErr_ne_ok
    · exact absurd h sfsErr_ne_ok

variable {libs : Libs} {ctx : ReadCtx} {name : String} (d : DeltaSource libs ctx name)

/-- The number of units is where the last frame ends. -/
def axisLength : Nat := (d.tensor.frames.getLast?.map FrameIndexEntry.unitEnd).getD 0

def unitBytes : Nat := tensorBytes d.tensor.shape d.tensor.dtype / d.axisLength

/-- The bytes of a frame as a read with `fuel` calls left for the base reconstructs and checks them. -/
def Decodes (fuel : Nat) (f : FrameIndexEntry) (r : Bytes) : Prop :=
  ∃ expanded secondary, expandedFor d.view.header d.view.payload d.tensor.shapeName d.axisLength = .ok expanded ∧
    resolveSecondaryPermutation libs d.blocks ctx d.tensor = .ok secondary ∧
    decodeFrame libs (readRange libs fuel { ctx with manifest := some d.baseManifest } d.base.group) d.base.group expanded
      secondary d.unitBytes d.view.payload d.tensor f = .ok r

/-- Byte `i` of the window comes from a frame with the stored digest, and the frame lies where the byte does. -/
def ByteVerified (fuel off : Nat) (bytes : Bytes) (i : Nat) : Prop :=
  ∃ f ∈ d.tensor.frames, ∃ r, d.Decodes fuel f r ∧ libs.blake3 r = f.digest ∧
    off + i ∈ copies d.unitBytes off (off + bytes.length) f ∧ bytes[i]? = r[off + i - frameBegin d.unitBytes f]? ∧
    f.unitBegin * d.unitBytes ≤ off + i ∧ off + i < f.unitEnd * d.unitBytes

/-- Every byte is written, and verified. -/
def Verified (fuel off : Nat) (bytes : Bytes) : Prop := ∀ i < bytes.length, d.ByteVerified fuel off bytes i

/-- A position of the window that the frame is taken to hold. -/
def Holds (off len : Nat) (f : FrameIndexEntry) (p : Nat) : Prop :=
  off ≤ p ∧ p < off + len ∧ frameBegin d.unitBytes f ≤ p ∧ p < frameEnd d.unitBytes f

/-- No two frames hold the same byte of the window, and none that holds one starts behind the 64-bit positions. -/
structure Apart (off len : Nat) : Prop where
  disjoint : d.tensor.frames.Pairwise fun f g => ∀ p, ¬(d.Holds off len f p ∧ d.Holds off len g p)
  placed : ∀ f ∈ d.tensor.frames, ∀ p, d.Holds off len f p → f.unitBegin * d.unitBytes < 2 ^ 64

variable {fuel off : Nat} {out bytes : Bytes}

theorem mem_copies {len : Nat} {f : FrameIndexEntry} {p : Nat} :
    p ∈ copies d.unitBytes off (off + len) f ↔ d.Holds off len f p := by
  rw [copies, mem_clip, Holds]
  omega

theorem nodup_iff {len : Nat} : (allCopies d.unitBytes off (off + len) d.tensor.frames).Nodup ↔
    d.tensor.frames.Pairwise fun f g => ∀ p, ¬(d.Holds off len f p ∧ d.Holds off len g p) := by
  rw [allCopies, List.nodup_flatMap]
  have hself : ∀ f ∈ d.tensor.frames, (copies d.unitBytes off (off + len) f).Nodup := fun f _ => List.nodup_range'
  rw [and_iff_right hself]
  have hrel : (Function.onFun List.Disjoint (copies d.unitBytes off (off + len))) =
      fun f g => ∀ p, ¬(d.Holds off len f p ∧ d.Holds off len g p) := by
    funext f g
    simp only [Function.onFun, List.Disjoint, mem_copies, not_and]
  rw [hrel]

/-- What a read that fills its buffer did. -/
theorem read_ok (hoff : off < 2 ^ 64) (hout : out.length < 2 ^ 64)
    (h : readRange libs (fuel + 1) ctx name off out = .ok (out.length, bytes)) : bytes.length = out.length ∧
      (allCopies d.unitBytes off (off + out.length) d.tensor.frames).length = out.length ∧
      ∀ i, off + i ∈ allCopies d.unitBytes off (off + out.length) d.tensor.frames →
        ∃ f ∈ d.tensor.frames, ∃ r, d.Decodes fuel f r ∧ libs.blake3 r = f.digest ∧
          off + i ∈ copies d.unitBytes off (off + out.length) f ∧ bytes[i]? = r[off + i - frameBegin d.unitBytes f]? := by
  rw [readRange_delta d.blocks_eq d.manifest_eq d.history_eq d.entry_eq d.delta d.base_eq d.diffBlock_eq d.depth d.object_eq
    d.view_eq d.tensor_eq d.baseManifest_eq] at h
  unfold readTensorRange at h
  split at h
  · exact absurd h sfsErr_ne_ok
  · next last hlast =>
    have haxis : d.axisLength = last.unitEnd := by rw [axisLength, hlast]; rfl
    dsimp only at h
    rw [← haxis, ← unitBytes] at h
    split at h
    · exact absurd h sfsErr_ne_ok
    · obtain ⟨expanded, hexpanded, h⟩ := bind_eq_ok.mp h
      obtain ⟨secondary, hsecondary, h⟩ := bind_eq_ok.mp h
      split at h
      · exact absurd h sfsErr_ne_ok
      · have hstop : u64 (off + out.length) ≤ off + out.length := Nat.mod_le _ _
        obtain ⟨hcount, hsize, hbytes⟩ := readFrames_ok (fun f r hr => (decodeFrame_ok hr).2) hstop h
        rw [Nat.zero_add] at hcount
        change out.length = _ at hcount
        have hfits : u64 (off + out.length) = off + out.length := by
          refine u64_of_lt (not_le.mp fun hwrap => ?_)
          have hpast : u64 (off + out.length) ≤ off := by
            unfold u64
            omega
          rw [allCopies_past d.unitBytes d.tensor.frames hpast] at hcount
          rw [List.length_nil] at hcount
          omega
        rw [hfits] at hcount hbytes
        refine ⟨hsize, hcount.symm, fun i hi => ?_⟩
        obtain ⟨f, hf, r, hr, hin, hval⟩ := (hbytes i).1 hi
        exact ⟨f, hf, r, ⟨expanded, secondary, hexpanded, hsecondary, hr⟩, (decodeFrame_ok hr).1, hin, hval⟩

/-- **A full Delta read is written and verified** byte for byte exactly when the frames stay apart in the window. -/
theorem verified_iff (hoff : off < 2 ^ 64) (hout : out.length < 2 ^ 64)
    (h : readRange libs (fuel + 1) ctx name off out = .ok (out.length, bytes)) :
    d.Verified fuel off bytes ↔ d.Apart off out.length := by
  obtain ⟨hsize, hcount, hbytes⟩ := d.read_ok hoff hout h
  have hwindow : ∀ p ∈ allCopies d.unitBytes off (off + out.length) d.tensor.frames, off ≤ p ∧ p < off + out.length := by
    intro p hp
    obtain ⟨f, -, hf⟩ := List.mem_flatMap.mp hp
    have hf := d.mem_copies.mp hf
    exact ⟨hf.1, hf.2.1⟩
  have hcovers := nodup_iff_covers hcount hwindow
  constructor
  · intro hver
    rw [Verified, hsize] at hver
    have hdisjoint := d.nodup_iff.mp (hcovers.mpr fun p hle hlt => by
      obtain ⟨f, hf, r, -, -, hin, -⟩ := hver (p - off) (by omega)
      rw [hsize, Nat.add_sub_cancel' hle] at hin
      exact List.mem_flatMap.mpr ⟨f, hf, hin⟩)
    refine ⟨hdisjoint, fun f hf p hp => ?_⟩
    by_contra hfar
    have hbelow : p < 2 ^ 64 := hp.2.2.2.trans (u64_lt _)
    obtain ⟨g, hg, r, -, -, hin, -, hplace, -⟩ := hver (p - off) (by have := hp.1; have := hp.2.1; omega)
    rw [hsize, Nat.add_sub_cancel' hp.1] at hin
    rw [Nat.add_sub_cancel' hp.1] at hplace
    have hne : f ≠ g := by
      rintro rfl
      omega
    have : Std.Symm fun f g => ∀ p, ¬(d.Holds off out.length f p ∧ d.Holds off out.length g p) :=
      ⟨fun f g hfg p hgf => hfg p ⟨hgf.2, hgf.1⟩⟩
    exact hdisjoint.forall hf hg hne p ⟨hp, d.mem_copies.mp hin⟩
  · intro hapart i hi
    rw [hsize] at hi
    have hin := hcovers.mp (d.nodup_iff.mpr hapart.disjoint) (off + i) (Nat.le_add_right _ _) (by omega)
    obtain ⟨f, hf, r, hdec, hdigest, hcopy, hval⟩ := hbytes i hin
    have hholds := d.mem_copies.mp hcopy
    have hbegin : frameBegin d.unitBytes f = f.unitBegin * d.unitBytes := u64_of_lt (hapart.placed f hf _ hholds)
    have hend : frameEnd d.unitBytes f ≤ f.unitEnd * d.unitBytes := Nat.mod_le _ _
    refine ⟨f, hf, r, hdec, hdigest, by rw [hsize]; exact hcopy, hval, ?_, ?_⟩
    · rw [← hbegin]
      exact hholds.2.2.1
    · exact hholds.2.2.2.trans_le hend

end DeltaSource

/-! ### A tensor of two bytes -/

/-- The digest of the byte 6. -/
def sixDigest : Oid :=
  ⟨[0x1c, 0x31, 0x0b, 0x6b, 0xda, 0xdd, 0x69, 0x99, 0x1c, 0xd4, 0xe5, 0xdb, 0xef, 0x96, 0xc2, 0x63,
    0x85, 0x36, 0xc3, 0x2b, 0x53, 0x4e, 0x3e, 0xd6, 0x47, 0x85, 0x84, 0x6b, 0xfc, 0xeb, 0xd2, 0x06], rfl⟩

/-- Two bytes, both 6, in a frame for each of the given units. -/
def sixTensor (units : List Nat) : TensorDiff where
  shapeName := "w"
  shape := [2]
  dtype := .u8
  residual := .raw
  transform := .none
  frames := units.map fun u => ⟨u, u + 1, 0, 10, sixDigest⟩

def sixHeader (units : List Nat) : DiffHeader where
  formatVersion := 1
  group := "g"
  codec := .zstd
  permutation := PermutationRef.default
  tensors := [sixTensor units]
  alignable := true
  alignment := ⟨"weight_matching_lap", 0, 0⟩

/-- The text of a header with two frames. -/
def sixText (first second : String) : Bytes :=
  asciiOf ["\x7b\"alignable\":true,\"alignment\":\x7b\"cost_normalized\":0.0,\"cost_raw\":0.0,",
    "\"method\":\"weight_matching_lap\"\x7d,\"codec\":\"zstd\",\"format_version\":1,\"group\":\"g\",",
    "\"magic\":\"SYNDIFF\",\"permutation\":\x7b\"kind\":\"identity\"\x7d,\"tensors\":[\x7b\"dtype\":\"U8\",\"frames\":[",
    "\x7b\"digest\":\"1c310b6bdadd69991cd4e5dbef96c2638536c32b534e3ed64785846bfcebd206\",",
    "\"len\":10,\"off\":0,\"units\":[", first, "]\x7d,",
    "\x7b\"digest\":\"1c310b6bdadd69991cd4e5dbef96c2638536c32b534e3ed64785846bfcebd206\",",
    "\"len\":10,\"off\":0,\"units\":[", second, "]\x7d",
    "],\"name\":\"w\",\"residual\":\"raw\",\"shape\":[2],\"transform\":\"none\"\x7d]\x7d"]

/-- The byte 6 in a zstd frame with one raw block. -/
def sixPayload : Bytes := [0x28, 0xb5, 0x2f, 0xfd, 0x20, 0x01, 0x09, 0x00, 0x00, 6]

/-- The libraries on an object with such a header. -/
def sixLibs (units : List Nat) : Libs where
  json := ⟨fun _ => .ok (sixHeader units).toJson, fun _ => []⟩
  zstd := ⟨fun _ _ => .error "nothing is compressed", fun _ _ => .ok [6]⟩
  blake3 _ := sixDigest

/-- What a read of the tensor finds in an object with that header. -/
def sixSource {units : List Nat} {diff : Bytes}
    (h : parseDiffArtifact (sixLibs units).json diff = .ok ⟨sixHeader units, sixPayload⟩) :
    DeltaSource (sixLibs units) (pairCtx diff) "w" where
  blocks := pairBlocks diff
  manifest := pairManifest ⟨.delta, none, some ⟨pairOid 2, "w"⟩, some (pairOid 3), 1⟩
  history := fun _ => .ok (pairManifest ⟨.full, some (pairOid 4), none, none, 0⟩)
  entry := ⟨.delta, none, some ⟨pairOid 2, "w"⟩, some (pairOid 3), 1⟩
  base := ⟨pairOid 2, "w"⟩
  diffBlock := pairOid 3
  object := diff
  view := ⟨sixHeader units, sixPayload⟩
  tensor := sixTensor units
  baseManifest := pairManifest ⟨.full, some (pairOid 4), none, none, 0⟩
  blocks_eq := rfl
  manifest_eq := rfl
  history_eq := rfl
  entry_eq := rfl
  delta := rfl
  base_eq := rfl
  diffBlock_eq := rfl
  depth := show 1 ≤ 4 by decide
  object_eq := rfl
  view_eq := h
  tensor_eq := rfl
  baseManifest_eq := rfl

theorem parse_six {units : List Nat} {text : Bytes} (hunits : ∀ u ∈ units, u < 2) (hne : text ≠ [])
    (hlen : text.length < 2 ^ 32) :
    parseDiffArtifact (sixLibs units).json (layOut text sixPayload) = .ok ⟨sixHeader units, sixPayload⟩ := by
  have hcost : (Json.f64Trunc 0).isSome := by decide
  have hrange : (sixHeader units).InRange := by
    refine ⟨show (1 : Nat) < 2 ^ 32 by omega, nofun, fun t ht => ?_, hcost, hcost⟩
    rw [List.mem_singleton.mp ht]
    refine ⟨fun d hd => ?_, fun f hf => ?_⟩
    · rw [List.mem_singleton.mp hd]
      omega
    · obtain ⟨u, hu, rfl⟩ := List.mem_map.mp hf
      have := hunits u hu
      exact ⟨show u < 2 ^ 64 by omega, show u + 1 < 2 ^ 64 by omega, show (0 : Nat) < 2 ^ 64 by omega,
        show (10 : Nat) < 2 ^ 64 by omega⟩
  have hpayload : sixPayload.length = 10 := rfl
  rw [layOut, parseDiffArtifact_text _ _ hne (by omega)]
  exact bind_eq_ok.mpr ⟨sixHeader units, DiffHeader.fromJson_toJson hrange, rfl⟩

theorem unitBytes_six {units : List Nat} {diff : Bytes}
    (h : parseDiffArtifact (sixLibs units).json diff = .ok ⟨sixHeader units, sixPayload⟩)
    (hlast : units.getLast? = some 1) : (sixSource h).unitBytes = 1 := by
  have haxis : (sixSource h).axisLength = 2 := by
    show ((List.map _ units).getLast?.map _).getD 0 = 2
    rw [List.getLast?_map, hlast]
    rfl
  rw [DeltaSource.unitBytes, haxis]
  show tensorBytes [2] .u8 / 2 = 1
  decide

theorem length_sixText {a b : List Char} (ha : a.length ≤ 255) (hb : b.length ≤ 255) :
    (sixText (String.ofList a) (String.ofList b)).length ≤ 255 * 12 := by
  iterate 12 refine length_asciiOf_le (by first | assumption | decide) ?_
  exact Nat.le_refl _

/-- A frame for each byte: the read is full and verified. -/
theorem verified_six : ∃ d : DeltaSource (sixLibs [0, 1]) (pairCtx (layOut (sixText "0,1" "1,2") sixPayload)) "w",
    readRange (sixLibs [0, 1]) 2 (pairCtx (layOut (sixText "0,1" "1,2") sixPayload)) "w" 0 [9, 9] = .ok (2, [6, 6]) ∧
      d.Apart 0 2 ∧ d.Verified 1 0 [6, 6] := by
  -- the text is long: nothing but its length is looked at
  have hfull : ∀ diff, parseDiffArtifact (sixLibs [0, 1]).json diff = .ok ⟨sixHeader [0, 1], sixPayload⟩ →
      ∃ d : DeltaSource (sixLibs [0, 1]) (pairCtx diff) "w",
        readRange (sixLibs [0, 1]) 2 (pairCtx diff) "w" 0 [9, 9] = .ok (2, [6, 6]) ∧ d.Apart 0 2 ∧
          d.Verified 1 0 [6, 6] := by
    intro diff hparse
    have hread : readRange (sixLibs [0, 1]) 2 (pairCtx diff) "w" 0 [9, 9] = .ok (2, [6, 6]) := by
      show (parseDiffArtifact (sixLibs [0, 1]).json diff >>= _) = _
      rw [hparse]
      rfl
    have hwidth := unitBytes_six hparse rfl
    have hapart : (sixSource hparse).Apart 0 2 := by
      refine ⟨List.pairwise_pair.mpr fun p hp => ?_, fun f hf p _ => ?_⟩
      · obtain ⟨⟨-, -, -, hlt⟩, -, -, hle, -⟩ := hp
        rw [hwidth] at hlt hle
        exact absurd (hle.trans_lt hlt) (by decide)
      · obtain ⟨u, hu, rfl⟩ := List.mem_map.mp hf
        have : u < 2 := (by decide : ∀ u ∈ [0, 1], u < 2) u hu
        rw [hwidth]
        show u * 1 < 2 ^ 64
        omega
    have hver := (sixSource hparse).verified_iff (by omega) (show [9, 9].length < 2 ^ 64 by decide) hread
    exact ⟨sixSource hparse, hread, hapart, hver.mpr hapart⟩
  have htext : (sixText "0,1" "1,2").length ≤ 255 * 12 := length_sixText (by decide) (by decide)
  exact hfull _ (parse_six (by decide) asciiOf_ne_nil (by omega))

/-- The second byte in two frames, the first in none: both are counted, and the first is what the buffer held. -/
theorem gap_unverified : ∃ d : DeltaSource (sixLibs [1, 1]) (pairCtx (layOut (sixText "1,2" "1,2") sixPayload)) "w",
    readRange (sixLibs [1, 1]) 2 (pairCtx (layOut (sixText "1,2" "1,2") sixPayload)) "w" 0 [9, 9] = .ok (2, [9, 6]) ∧
      ¬d.Verified 1 0 [9, 6] := by
  have hgap : ∀ diff, parseDiffArtifact (sixLibs [1, 1]).json diff = .ok ⟨sixHeader [1, 1], sixPayload⟩ →
      ∃ d : DeltaSource (sixLibs [1, 1]) (pairCtx diff) "w",
        readRange (sixLibs [1, 1]) 2 (pairCtx diff) "w" 0 [9, 9] = .ok (2, [9, 6]) ∧ ¬d.Verified 1 0 [9, 6] := by
    intro diff hparse
    have hread : readRange (sixLibs [1, 1]) 2 (pairCtx diff) "w" 0 [9, 9] = .ok (2, [9, 6]) := by
      show (parseDiffArtifact (sixLibs [1, 1]).json diff >>= _) = _
      rw [hparse]
      rfl
    refine ⟨sixSource hparse, hread, fun hver => ?_⟩
    obtain ⟨f, hf, r, -, -, -, -, hplace, -⟩ := hver 0 (by decide)
    obtain ⟨u, hu, rfl⟩ := List.mem_map.mp hf
    rw [unitBytes_six hparse rfl, show u = 1 by simpa using hu] at hplace
    exact absurd hplace (by decide)
  have htext : (sixText "1,2" "1,2").length ≤ 255 * 12 := length_sixText (by decide) (by decide)
  exact hgap _ (parse_six (by decide) asciiOf_ne_nil (by omega))

end SynapseFs.Codec
