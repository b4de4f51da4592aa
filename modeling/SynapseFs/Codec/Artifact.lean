import SynapseFs.Codec.DiffGuards

/-! What the diff encoder writes reads back.

`encode_group` lays a header's text and the payload one behind the other, and the
payload opens with the permutation. `readsBack_iff` puts the two readers against
the two writers: the header always comes back, the permutation as long as its
indices are addressed without wraparound. -/
namespace SynapseFs.Codec
open Lib Core Format

/-! ### The header of a group -/

/-- The header that `encode_group` assembles, and what its loop leaves. -/
def groupHeader (libs : Libs) (base target : TensorSource) (topology : Topology) (group : String) (perm : List Nat)
    (alignable : Bool) (alignment : AlignmentInfo) (opts : EncodeOptions) : Outcome (DiffHeader × EncodeState) := do
  let (ref, payload) ← writePermutation [] perm
  let s ← topology.tensors.entries.foldlM (encodeBound libs opts base target group perm) ⟨payload, 0, []⟩
  return (⟨1, group, opts.codec, ref, s.tensors, alignable, alignment⟩, s)

section
variable {libs : Libs} {opts : EncodeOptions} {base target : TensorSource} {topology : Topology} {group : String}
  {perm : List Nat} {alignable : Bool} {alignment : AlignmentInfo}

theorem encodeGroup_eq : encodeGroup libs base target topology group perm alignable alignment opts =
    groupHeader libs base target topology group perm alignable alignment opts >>= fun (header, s) =>
      let text := header.toCanonicalJson libs.json
      if kMaxVector ≤ 8 + text.length + s.payload.length then .error (.exception "vector::_M_default_append")
      else .ok ⟨layOut text s.payload, s.payload.length, s.fullBytes⟩ := by
  unfold encodeGroup groupHeader
  rw [bind_assoc]
  refine congrArg _ (funext fun r => ?_)
  rw [bind_assoc]
  rfl

theorem encodeGroup_done {header : DiffHeader} {s : EncodeState}
    (h : groupHeader libs base target topology group perm alignable alignment opts = .ok (header, s))
    (hsize : 8 + (header.toCanonicalJson libs.json).length + s.payload.length < kMaxVector) :
    encodeGroup libs base target topology group perm alignable alignment opts =
      .ok ⟨layOut (header.toCanonicalJson libs.json) s.payload, s.payload.length, s.fullBytes⟩ := by
  rw [encodeGroup_eq, h]
  exact if_neg (not_le.mpr hsize)

/-- A short header and a short payload fit a vector. -/
theorem encodeGroup_short {header : DiffHeader} {s : EncodeState}
    (h : groupHeader libs base target topology group perm alignable alignment opts = .ok (header, s))
    (htext : (header.toCanonicalJson libs.json).length ≤ 255 * 8) (hpayload : s.payload.length ≤ 255) :
    ∃ result, encodeGroup libs base target topology group perm alignable alignment opts = .ok result := by
  refine ⟨_, encodeGroup_done h ?_⟩
  unfold kMaxVector
  omega

theorem encodeGroup_ok {result : EncodeResult}
    (h : encodeGroup libs base target topology group perm alignable alignment opts = .ok result) :
    ∃ header s, groupHeader libs base target topology group perm alignable alignment opts = .ok (header, s) ∧
      8 + (header.toCanonicalJson libs.json).length + s.payload.length < kMaxVector ∧
      result = ⟨layOut (header.toCanonicalJson libs.json) s.payload, s.payload.length, s.fullBytes⟩ := by
  rw [encodeGroup_eq] at h
  obtain ⟨⟨header, s⟩, hs, h⟩ := bind_eq_ok.mp h
  dsimp only at h
  split at h
  · cases h
  · next hlt =>
    cases h
    exact ⟨header, s, hs, not_le.mp hlt, rfl⟩

theorem groupHeader_ok {header : DiffHeader} {s : EncodeState}
    (h : groupHeader libs base target topology group perm alignable alignment opts = .ok (header, s)) :
    ∃ ref front, writePermutation [] perm = .ok (ref, front) ∧
      topology.tensors.entries.foldlM (encodeBound libs opts base target group perm) ⟨front, 0, []⟩ = .ok s ∧
      header = ⟨1, group, opts.codec, ref, s.tensors, alignable, alignment⟩ := by
  obtain ⟨⟨ref, front⟩, hw, h⟩ := bind_eq_ok.mp h
  obtain ⟨s', hs, h⟩ := bind_eq_ok.mp h
  cases h
  exact ⟨ref, front, hw, hs, rfl⟩

/-! ### Its numbers fit -/

/-- The frames lie in the axis, and in a payload of that size. -/
def FramesLaid (frames : List FrameIndexEntry) (rows size : Nat) : Prop :=
  ∀ f ∈ frames, f.unitBegin ≤ rows ∧ f.unitEnd ≤ rows ∧ f.off + f.len ≤ size

theorem FramesLaid.mono {frames : List FrameIndexEntry} {rows size size' : Nat} (h : FramesLaid frames rows size)
    (hle : size ≤ size') : FramesLaid frames rows size' := fun f hf =>
  ⟨(h f hf).1, (h f hf).2.1, (h f hf).2.2.trans hle⟩

theorem encodeFrame_laid {dtype : DType} {name : String} {expanded : List Nat} {unitBytes rows a b : Nat}
    {s s' : FrameState} (h : encodeFrame libs opts base target dtype name expanded unitBytes s (a, b) = .ok s')
    (ha : a ≤ rows) (hb : b ≤ rows) (hs : FramesLaid s.frames rows s.payload.length) :
    FramesLaid s'.frames rows s'.payload.length ∧ s.payload.length ≤ s'.payload.length := by
  obtain ⟨⟨n, bytes⟩, -, h⟩ := bind_eq_ok.mp h
  obtain ⟨resid, -, h⟩ := bind_eq_ok.mp h
  obtain ⟨comp, -, h⟩ := bind_eq_ok.mp h
  cases h
  have hle : s.payload.length ≤ (s.payload ++ comp).length := by
    rw [List.length_append]
    omega
  refine ⟨fun f hf => ?_, hle⟩
  rcases List.mem_append.mp hf with hf | hf
  · exact hs.mono hle f hf
  · rw [List.mem_singleton.mp hf]
    exact ⟨ha, hb, (List.length_append).ge⟩

/-- What the tensors written so far say fits the types the reader gives it. -/
def Laid (s : EncodeState) : Prop :=
  ∀ t ∈ s.tensors, (∀ d ∈ t.shape, d < 2 ^ 64) ∧ ∃ rows < 2 ^ 64, FramesLaid t.frames rows s.payload.length

theorem encodeTensor_laid (htyped : target.Typed) {name : String} {binding : AxisBinding} {s s' : EncodeState}
    (h : encodeTensor libs opts base target perm name binding s = .ok s') (hs : Laid s) : Laid s' := by
  unfold encodeTensor at h
  split at h
  · exact absurd h sfsErr_ne_ok
  · next m hm =>
    obtain ⟨w, -, h⟩ := bind_eq_ok.mp h
    dsimp only at h
    split at h
    · exact absurd h sfsErr_ne_ok
    · next hrows =>
      obtain ⟨fs, hfold, h⟩ := bind_eq_ok.mp h
      obtain ⟨_, -, h⟩ := bind_eq_ok.mp h
      cases h
      have hrows64 : (expand perm binding.block).length < 2 ^ 64 :=
        htyped name m hm _ (List.mem_of_getElem? (not_not.mp hrows))
      have htiles := steps_tiles (expand perm binding.block).length (frameUnits opts.frameBytes w)
        (by unfold frameUnits; omega)
      -- the frame loop keeps its frames in the payload, which only grows
      have hloop : FramesLaid fs.frames (expand perm binding.block).length fs.payload.length ∧
          s.payload.length ≤ fs.payload.length := by
        refine @foldlM_invariant _ _ _ (fun fs => FramesLaid fs.frames (expand perm binding.block).length
          fs.payload.length ∧ s.payload.length ≤ fs.payload.length) _ _ _ ?_
            ⟨fun f hf => absurd hf List.not_mem_nil, le_rfl⟩ hfold
        intro fs' range hrange fs'' hfs' hstep
        obtain ⟨-, hlt, hle⟩ := htiles.mem hrange
        obtain ⟨hlaid, hgrow⟩ := encodeFrame_laid hstep (hlt.le.trans hle) hle hfs'.1
        exact ⟨hlaid, hfs'.2.trans hgrow⟩
      intro t ht
      rcases List.mem_append.mp ht with ht | ht
      · obtain ⟨hshape, rows, hlt, hlaid⟩ := hs t ht
        exact ⟨hshape, rows, hlt, hlaid.mono hloop.2⟩
      · rw [List.mem_singleton.mp ht]
        exact ⟨htyped name m hm, _, hrows64, hloop.1⟩

theorem groupHeader_laid (htyped : target.Typed) {front : Bytes} {s : EncodeState}
    (h : topology.tensors.entries.foldlM (encodeBound libs opts base target group perm) ⟨front, 0, []⟩ = .ok s) :
    Laid s := by
  refine foldlM_invariant (fun s' e _ s'' hs' hstep => ?_) (fun t ht => absurd ht List.not_mem_nil : Laid ⟨front, 0, []⟩) h
  unfold encodeBound at hstep
  split at hstep
  · cases hstep
    exact hs'
  · exact encodeTensor_laid htyped hstep hs'

theorem writePermutation_ref {payload out : Bytes} {ref : PermutationRef} (h : writePermutation payload perm = .ok (ref, out)) :
    (ref.kind = .identity ∧ ref = { PermutationRef.default with n := ref.n }) ∨
      (ref.kind = .explicit ∧ ref.n < 2 ^ 32 ∧ (ref.width = 2 ∨ ref.width = 4) ∧ ref.off = payload.length ∧
        ref.len = ref.n * ref.width) := by
  obtain ⟨id, -, h⟩ := bind_eq_ok.mp h
  cases id with
  | true =>
    cases h
    exact .inl ⟨rfl, rfl⟩
  | false =>
    cases h
    refine .inr ⟨rfl, Nat.mod_lt _ (by decide), ?_, rfl, rfl⟩
    show (if u32 perm.length ≤ 65536 then 2 else 4) = 2 ∨ (if u32 perm.length ≤ 65536 then 2 else 4) = 4
    split
    · exact .inl rfl
    · exact .inr rfl

/-- Every number of a header that is written fits the type it is read as. -/
theorem groupHeader_inRange (htyped : target.Typed) {header : DiffHeader} {s : EncodeState}
    (h : groupHeader libs base target topology group perm alignable alignment opts = .ok (header, s))
    (hmax : s.payload.length < kMaxVector) (hraw : (Json.f64Trunc alignment.costRaw).isSome)
    (hnorm : (Json.f64Trunc alignment.costNormalized).isSome) : header.InRange := by
  obtain ⟨ref, front, hw, hfold, rfl⟩ := groupHeader_ok h
  have hlaid := groupHeader_laid htyped hfold
  unfold kMaxVector at hmax
  refine ⟨show 1 < 2 ^ 32 by decide, fun hk => ?_, fun t ht => ?_, hraw, hnorm⟩
  · rcases writePermutation_ref hw with ⟨hid, -⟩ | ⟨-, hn, hwidth, hoff, hlen⟩
    · exact absurd (hid.symm.trans hk) (by decide)
    · refine ⟨hn, hwidth, hoff ▸ (by decide), ?_⟩
      show ref.len < 2 ^ 64
      rcases hwidth with hwidth | hwidth <;> rw [hlen, hwidth] <;> omega
  · obtain ⟨hshape, rows, hlt, hframes⟩ := hlaid t ht
    refine ⟨hshape, fun f hf => ?_⟩
    obtain ⟨hb, he, hend⟩ := hframes f hf
    exact ⟨hb.trans_lt hlt, he.trans_lt hlt, by omega, by omega⟩

end

/-! ### Both readers against both writers -/

/-- The header, less the number of an identity permutation. -/
def withoutIdentityN (h : DiffHeader) : DiffHeader :=
  match h.permutation.kind with
  | .identity => { h with permutation := { h.permutation with n := 0 } }
  | .explicit => h

/-- The permutation, or nothing for the identity. -/
def materialised (perm : List Nat) : List Nat := if perm = List.range perm.length then [] else perm

/-- Header and payload come apart as they were laid out, and a permutation put behind `front` is read from there. -/
structure ReadsBack (json : JsonLib) (header : DiffHeader) (payload front : Bytes) (perm : List Nat) : Prop where
  artifact : parseDiffArtifact json (layOut (header.toCanonicalJson json) payload) = .ok ⟨withoutIdentityN header, payload⟩
  permutation : ∃ ref out, writePermutation front perm = .ok (ref, out) ∧ readPermutation ref out = .ok (materialised perm)

theorem readPermutation_iff {perm : List Nat} (hv : isValidPermutation perm perm.length = true)
    (hn : perm.length < 2 ^ 32) (front : Bytes) :
    (∃ ref out, writePermutation front perm = .ok (ref, out) ∧ readPermutation ref out = .ok (materialised perm)) ↔
      perm = List.range perm.length ∨ perm.length ≤ 2 ^ 30 := by
  unfold materialised
  by_cases hid : perm = List.range perm.length
  · rw [if_pos hid]
    refine ⟨fun _ => .inl hid, fun _ => ⟨{ PermutationRef.default with n := perm.length }, front, ?_, rfl⟩⟩
    have hw := writePermutation_identity front hn
    rwa [← hid] at hw
  · rw [if_neg hid]
    obtain ⟨indices, hw, hindices⟩ := writePermutation_explicit front hn hid
    refine ⟨fun ⟨ref, out, href, hread⟩ => .inr (not_lt.mp fun hwide => ?_), fun h => ?_⟩
    · cases hw.symm.trans href
      refine readPermutation_wide rfl ?_ hwide _ _ hread
      rcases explicitRef_width perm with ⟨-, hle⟩ | ⟨hwidth, -⟩
      · omega
      · exact hwidth
    · have hle := h.resolve_left hid
      refine ⟨_, _, hw, ?_⟩
      have hread := readPermutation_written front hv hle []
      rwa [List.append_nil, ← hindices hle] at hread

/-- An identity permutation is stored with no number. -/
theorem withoutIdentityN_built {libs : Libs} {opts : EncodeOptions} {base target : TensorSource} {topology : Topology}
    {group : String} {order : List Nat} {alignable : Bool} {alignment : AlignmentInfo} {header : DiffHeader}
    {s : EncodeState} (h : groupHeader libs base target topology group order alignable alignment opts = .ok (header, s)) :
    withoutIdentityN header = { header with permutation := header.permutation.stored } := by
  obtain ⟨ref, front, hw, -, rfl⟩ := groupHeader_ok h
  unfold withoutIdentityN PermutationRef.stored
  rcases writePermutation_ref hw with ⟨hk, href⟩ | ⟨hk, -⟩
  · dsimp only
    rw [hk]
    dsimp only
    rw [href]
    rfl
  · dsimp only
    rw [hk]

section
variable {libs : Libs} {opts : EncodeOptions} {base target : TensorSource} {topology : Topology} {group : String}
  {order : List Nat} {alignable : Bool} {alignment : AlignmentInfo} {header : DiffHeader} {s : EncodeState}

/-- Header and payload of a finished artifact come apart. -/
theorem parseDiffArtifact_built (htyped : target.Typed)
    (hbuilt : groupHeader libs base target topology group order alignable alignment opts = .ok (header, s))
    (hmax : s.payload.length < kMaxVector) (hraw : (Json.f64Trunc alignment.costRaw).isSome)
    (hnorm : (Json.f64Trunc alignment.costNormalized).isSome) (hempty : ∀ v, libs.json.parse [] ≠ .ok v)
    (hjson : libs.json.parse (libs.json.dump header.toJson) = .ok header.toJson) {payload : Bytes}
    (hsize : 8 + (header.toCanonicalJson libs.json).length + payload.length < kMaxVector) :
    parseDiffArtifact libs.json (layOut (header.toCanonicalJson libs.json) payload) =
      .ok ⟨withoutIdentityN header, payload⟩ := by
  have hrange := groupHeader_inRange htyped hbuilt hmax hraw hnorm
  have hne : header.toCanonicalJson libs.json ≠ [] := fun hnil => by
    rw [← DiffHeader.toCanonicalJson, hnil] at hjson
    exact hempty _ hjson
  unfold kMaxVector at hsize
  rw [layOut, parseDiffArtifact_text libs.json payload hne (by omega), withoutIdentityN_built hbuilt]
  refine bind_eq_ok.mpr ⟨_, ?_, rfl⟩
  unfold DiffHeader.parse DiffHeader.toCanonicalJson
  rw [hjson]
  exact DiffHeader.fromJson_toJson hrange

end

/-- A header that `encode_group` built reads back with every payload; with it every bijection that moves something
reads back exactly when it has at most `2 ^ 30` indices. -/
theorem readsBack_iff {libs : Libs} {opts : EncodeOptions} {base target : TensorSource} {topology : Topology}
    {group : String} {order : List Nat} {alignable : Bool} {alignment : AlignmentInfo} {header : DiffHeader}
    {s : EncodeState} {result : EncodeResult} (htyped : target.Typed)
    (hbuilt : groupHeader libs base target topology group order alignable alignment opts = .ok (header, s))
    (hdone : encodeGroup libs base target topology group order alignable alignment opts = .ok result)
    (hraw : (Json.f64Trunc alignment.costRaw).isSome) (hnorm : (Json.f64Trunc alignment.costNormalized).isSome)
    (hempty : ∀ v, libs.json.parse [] ≠ .ok v)
    (hjson : libs.json.parse (libs.json.dump header.toJson) = .ok header.toJson) {payload : Bytes}
    (hsize : 8 + (header.toCanonicalJson libs.json).length + payload.length < kMaxVector) (front : Bytes)
    {perm : List Nat} (hv : isValidPermutation perm perm.length = true) (hn : perm.length < 2 ^ 32) :
    ReadsBack libs.json header payload front perm ↔ perm = List.range perm.length ∨ perm.length ≤ 2 ^ 30 := by
  refine ⟨fun h => (readPermutation_iff hv hn front).mp h.permutation, fun h =>
    ⟨?_, (readPermutation_iff hv hn front).mpr h⟩⟩
  obtain ⟨header', s', hbuilt', hlen, -⟩ := encodeGroup_ok hdone
  cases hbuilt.symm.trans hbuilt'
  exact parseDiffArtifact_built htyped hbuilt (by omega) hraw hnorm hempty hjson hsize

/-! ### Two indices, and too many -/

/-- A checkpoint with the one tensor `w`. -/
def pairSource (data : Bytes) : TensorSource where
  bufferLayout := [⟨"w", 0, 2, "w"⟩]
  tensorMeta name := if name = "w" then some ⟨"w", [2], .u8, 0, 2⟩ else none
  readUnits _ first count out := .ok ((slice data first count).length, filled (slice data first count) out)

/-- The dim 0 of `w` is the group. -/
def pairTopology : Topology where
  groups := ⟨[("g", ⟨2, false⟩)], List.nodup_singleton _⟩
  tensors := ⟨[("w", [⟨0, "g", 1⟩])], List.nodup_singleton _⟩

def rawOptions : EncodeOptions := ⟨.raw, .none, .zstd, ⟨3, false⟩, 128 * 1024, false⟩

/-- The libraries on the header and the frame that are written. -/
def pairWriter : Libs where
  json := ⟨fun text => if text = [] then .error "[json.exception.parse_error.101] attempting to parse an empty input"
    else .ok (pairHeader 0).toJson, fun _ => pairText "0"⟩
  zstd := ⟨fun _ _ => .ok [0x28, 0xb5, 0x2f, 0xfd, 0x20, 0x02, 0x11, 0x00, 0x00, 5, 6], fun _ _ => .ok [5, 6]⟩
  blake3 := (pairLibs .null).blake3

theorem typed_pair (data : Bytes) : (pairSource data).Typed := by
  intro name m hm d hd
  unfold pairSource at hm
  dsimp only at hm
  split at hm
  · cases hm
    rw [List.mem_singleton.mp hd]
    decide
  · cases hm

theorem parse_pairWriter {text : Bytes} (h : text ≠ []) : pairWriter.json.parse text = .ok (pairHeader 0).toJson := by
  show (if text = [] then _ else _) = _
  rw [if_neg h]

theorem readsBack_pair : ∃ header s, groupHeader pairWriter (pairSource [6, 5]) (pairSource [5, 6]) pairTopology "g" [1, 0]
      true ⟨"weight_matching_lap", 0, 0⟩ rawOptions = .ok (header, s) ∧
    ReadsBack pairWriter.json header s.payload s.payload [1, 0] := by
  have htext : 0 < (pairText "0").length ∧ (pairText "0").length ≤ 255 * 8 := length_pairText (by decide)
  have hne : pairText "0" ≠ [] := List.ne_nil_of_length_pos htext.1
  have hbuilt : groupHeader pairWriter (pairSource [6, 5]) (pairSource [5, 6]) pairTopology "g" [1, 0] true
      ⟨"weight_matching_lap", 0, 0⟩ rawOptions = .ok (pairHeader 0, ⟨pairPayload, 2, (pairHeader 0).tensors⟩) := by rfl
  have hjson : pairWriter.json.parse (pairWriter.json.dump (pairHeader 0).toJson) = .ok (pairHeader 0).toJson :=
    parse_pairWriter hne
  have hempty : ∀ v, pairWriter.json.parse [] ≠ .ok v := fun _ => nofun
  have hcost : (Json.f64Trunc 0).isSome := by decide
  -- only the sizes of the text and of the payload are looked at
  have hback : ∀ header s, groupHeader pairWriter (pairSource [6, 5]) (pairSource [5, 6]) pairTopology "g" [1, 0] true
        ⟨"weight_matching_lap", 0, 0⟩ rawOptions = .ok (header, s) →
      pairWriter.json.parse (pairWriter.json.dump header.toJson) = .ok header.toJson →
      (header.toCanonicalJson pairWriter.json).length ≤ 255 * 8 → s.payload.length = 15 →
      ReadsBack pairWriter.json header s.payload s.payload [1, 0] := by
    intro header s hbuilt hjson htext hpayload
    have hsize : 8 + (header.toCanonicalJson pairWriter.json).length + s.payload.length < kMaxVector := by
      unfold kMaxVector
      omega
    exact (readsBack_iff (typed_pair _) hbuilt (encodeGroup_done hbuilt hsize) hcost hcost hempty hjson hsize s.payload
      (by decide) (by decide)).mpr (.inr (by decide))
  exact ⟨_, _, hbuilt, hback _ _ hbuilt hjson htext.2 rfl⟩

/-- The first two of `k + 2` indices are exchanged. -/
def exchanged (k : Nat) : List Nat := 1 :: 0 :: List.range' 2 k

theorem length_exchanged (k : Nat) : (exchanged k).length = k + 2 := by
  unfold exchanged
  rw [List.length_cons, List.length_cons, List.length_range']

theorem valid_exchanged (k : Nat) : isValidPermutation (exchanged k) (exchanged k).length = true := by
  refine isValidPermutation_iff.mpr ⟨rfl, fun p hp => ?_, ?_⟩
  · rw [length_exchanged]
    rcases List.mem_cons.mp hp with rfl | hp
    · omega
    rcases List.mem_cons.mp hp with rfl | hp
    · omega
    have := List.mem_range'_1.mp hp
    omega
  · unfold exchanged
    refine List.nodup_cons.mpr ⟨fun h => ?_, List.nodup_cons.mpr ⟨fun h => ?_, List.nodup_range'⟩⟩
    · rcases List.mem_cons.mp h with h | h
      · cases h
      · have := List.mem_range'_1.mp h
        omega
    · have := List.mem_range'_1.mp h
      omega

theorem exchanged_ne (k : Nat) : exchanged k ≠ List.range (exchanged k).length := by
  intro hid
  have hfirst := congrArg (fun l => l[0]?) hid
  rw [List.getElem?_range (by rw [length_exchanged]; omega)] at hfirst
  cases hfirst

/-- The first two of one index more than a 32-bit offset reaches are exchanged. -/
def wideSwap : List Nat := 1 :: 0 :: List.range' 2 (2 ^ 30 - 1)

theorem length_wideSwap : wideSwap.length = 2 ^ 30 + 1 := length_exchanged (2 ^ 30 - 1)

/-- A bijection on fewer than `2 ^ 32` indices that no reader accepts once it is written. -/
theorem wideSwap_unread : isValidPermutation wideSwap wideSwap.length = true ∧ wideSwap.length < 2 ^ 32 ∧
    ¬∃ ref out, writePermutation [] wideSwap = .ok (ref, out) ∧ readPermutation ref out = .ok (materialised wideSwap) := by
  have hn : wideSwap.length < 2 ^ 32 := by
    rw [length_wideSwap]
    omega
  have hvalid : isValidPermutation wideSwap wideSwap.length = true := valid_exchanged (2 ^ 30 - 1)
  refine ⟨hvalid, hn, fun h => ?_⟩
  rcases (readPermutation_iff hvalid hn []).mp h with hid | hle
  · exact exchanged_ne (2 ^ 30 - 1) hid
  · rw [length_wideSwap] at hle
    omega

end SynapseFs.Codec
