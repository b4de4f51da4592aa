import SynapseFs.Core.Tensor
import SynapseFs.Core.Topology
import SynapseFs.Core.Oid
import SynapseFs.Format.Json

/-! Diff artifacts: `[8-byte length][JSON header][payload]`.

The header names each tensor's frames by unit range and payload offset; the
payload opens with the group's permutation, unless that is the identity. -/
namespace SynapseFs.Format
open Lib Core

def kDiffMagic : String := "SYNDIFF"

inductive ResidualKind where
  /-- The frame bytes are the target bytes. -/
  | raw
  | xorAfterPermute
  | zigzagAfterPermute
  deriving DecidableEq, Repr

inductive Transform where
  | none | bytePlane | bitshuffle
  deriving DecidableEq, Repr

inductive Codec where
  | none | zstd
  deriving DecidableEq, Repr

inductive PermKind where
  /-- Takes no payload bytes. -/
  | identity
  | explicit
  deriving DecidableEq, Repr

structure PermutationRef where
  kind : PermKind
  n : Nat
  /-- Bytes per index. -/
  width : Nat
  off : Nat
  len : Nat
  deriving DecidableEq, Repr

/-- `PermutationRef{}`. -/
def PermutationRef.default : PermutationRef := ⟨.identity, 0, 2, 0, 0⟩

/-- One compressed frame over the output units `[unitBegin, unitEnd)`. -/
structure FrameIndexEntry where
  unitBegin : Nat
  unitEnd : Nat
  off : Nat
  len : Nat
  /-- BLAKE3 of the target bytes. -/
  digest : Oid
  deriving DecidableEq, Repr

structure TensorDiff where
  shapeName : String
  shape : List Nat
  dtype : DType
  residual : ResidualKind
  transform : Transform
  frames : List FrameIndexEntry
  deriving DecidableEq, Repr

structure AlignmentInfo where
  method : String
  /-- The bits of a double. -/
  costRaw : UInt64
  costNormalized : UInt64
  deriving DecidableEq, Repr

structure DiffHeader where
  formatVersion : Nat
  group : String
  codec : Codec
  permutation : PermutationRef
  tensors : List TensorDiff
  alignable : Bool
  alignment : AlignmentInfo
  deriving DecidableEq, Repr

/-! ### Names -/

def ResidualKind.toString : ResidualKind → String
  | raw => "raw" | xorAfterPermute => "xor_after_permute" | zigzagAfterPermute => "zigzag_after_permute"

def ResidualKind.fromString (s : String) : Outcome ResidualKind :=
  if s = "raw" then .ok .raw
  else if s = "xor_after_permute" then .ok .xorAfterPermute
  else if s = "zigzag_after_permute" then .ok .zigzagAfterPermute
  else sfsErr .malformedObject "unknown residual kind" s

def Transform.toString : Transform → String
  | none => "none" | bytePlane => "byteplane" | bitshuffle => "bitshuffle"

def Transform.fromString (s : String) : Outcome Transform :=
  if s = "none" then .ok .none
  else if s = "byteplane" then .ok .bytePlane
  else if s = "bitshuffle" then .ok .bitshuffle
  else sfsErr .malformedObject "unknown transform" s

def Codec.toString : Codec → String
  | none => "none" | zstd => "zstd"

def Codec.fromString (s : String) : Outcome Codec :=
  if s = "none" then .ok .none
  else if s = "zstd" then .ok .zstd
  else sfsErr .malformedObject "unknown codec" s

theorem ResidualKind.fromString_toString (k : ResidualKind) : fromString k.toString = .ok k := by
  cases k <;> simp [fromString, toString]

theorem Transform.fromString_toString (t : Transform) : fromString t.toString = .ok t := by
  cases t <;> simp [fromString, toString]

theorem Codec.fromString_toString (c : Codec) : fromString c.toString = .ok c := by
  cases c <;> simp [fromString, toString]

/-- `s.size()`. -/
def byteSize (s : String) : Nat := (s.toList.map Char.utf8Size).sum

def hexDecodeDigest (s : String) : Outcome Oid :=
  if byteSize s ≠ kOidBytes * 2 then sfsErr .malformedObject "digest has wrong length" s
  else
    match hexDecode s.toList with
    | some bytes =>
      if h : bytes.length = kOidBytes then .ok ⟨bytes, h⟩
      else sfsErr .malformedObject "invalid hex digit in digest" ""
    | none => sfsErr .malformedObject "invalid hex digit in digest" ""

theorem byteSize_hexEncode (b : Bytes) : ((hexEncode b).map Char.utf8Size).sum = 2 * b.length := by
  have hdigit : ∀ n < 16, (hexDigit n).utf8Size = 1 := by decide
  induction b with
  | nil => rfl
  | cons x rest ih =>
    have hx : x.toNat < 256 := x.toNat_lt
    rw [hexEncode, List.map_cons, List.map_cons, List.sum_cons, List.sum_cons, ih, hdigit _ (by omega),
      hdigit _ (by omega), List.length_cons]
    omega

theorem hexDecodeDigest_hexEncode (o : Oid) : hexDecodeDigest (String.ofList (hexEncode o.bytes)) = .ok o := by
  unfold hexDecodeDigest byteSize
  rw [String.toList_ofList, byteSize_hexEncode, o.length_eq, if_neg (by decide), hexDecode_hexEncode]
  dsimp only
  rw [dif_pos o.length_eq]

/-! ### Tiling -/

/-- The loop over neighbouring frames. -/
def tilesFrom (name : String) : List FrameIndexEntry → Outcome Unit
  | f :: g :: rest =>
    if f.unitEnd ≠ g.unitBegin then sfsErr .malformedObject "frame gap or overlap" name
    else tilesFrom name (g :: rest)
  | _ => .ok ()

/-- Frames tile `[0, groupSize)`. -/
def TensorDiff.validateTiling (t : TensorDiff) (groupSize : Nat) : Outcome Unit :=
  match t.frames, t.frames.getLast? with
  | first :: _, some last =>
    if first.unitBegin ≠ 0 then sfsErr .malformedObject "frames do not start at unit 0" t.shapeName
    else do
      tilesFrom t.shapeName t.frames
      if last.unitEnd ≠ groupSize then sfsErr .malformedObject "frames do not cover the whole group" t.shapeName
      else .ok ()
  | _, _ =>
    if groupSize = 0 then .ok () else sfsErr .malformedObject "no frames for a non-empty group" t.shapeName

/-! ### Header -/

namespace DiffHeader

def permutationRefToJson (p : PermutationRef) : Json :=
  match p.kind with
  | .identity => .mkObj [("kind", .str "identity")]
  | .explicit => .mkObj
    [("kind", .str "explicit"),
     ("n", .uint p.n),
     ("dtype", .str (if p.width = 2 then "u16" else "u32")),
     ("off", .uint p.off),
     ("len", .uint p.len)]

def widthFromString (dt : String) : Outcome Nat :=
  if dt = "u16" then .ok 2
  else if dt = "u32" then .ok 4
  else sfsErr .malformedObject "unknown permutation dtype" dt

def permutationRefFromJson (j : Json) : Outcome PermutationRef := do
  let kind ← (← j.atKey "kind").getStr
  if kind = "identity" then return PermutationRef.default
  else if kind ≠ "explicit" then sfsErr .malformedObject "unknown permutation kind" kind
  else
    let n ← (← j.atKey "n").getU32
    let dt ← (← j.atKey "dtype").getStr
    let width ← widthFromString dt
    let off ← (← j.atKey "off").getU64
    let len ← (← j.atKey "len").getU64
    return { kind := .explicit, n, width, off, len }

def frameToJson (f : FrameIndexEntry) : Json :=
  .mkObj
    [("units", .arr [.uint f.unitBegin, .uint f.unitEnd]),
     ("off", .uint f.off),
     ("len", .uint f.len),
     ("digest", .str (String.ofList (hexEncode f.digest.bytes)))]

def frameFromJson (tensor : String) (fj : Json) : Outcome FrameIndexEntry := do
  match ← fj.atKey "units" with
  | .arr [b, e] =>
    let unitBegin ← b.getU64
    let unitEnd ← e.getU64
    let off ← (← fj.atKey "off").getU64
    let len ← (← fj.atKey "len").getU64
    let digest ← hexDecodeDigest (← (← fj.atKey "digest").getStr)
    return { unitBegin, unitEnd, off, len, digest }
  | _ => sfsErr .malformedObject "malformed frame units" tensor

def tensorToJson (t : TensorDiff) : Json :=
  .mkObj
    [("name", .str t.shapeName),
     ("shape", .arr (t.shape.map .uint)),
     ("dtype", .str t.dtype.toString),
     ("residual", .str t.residual.toString),
     ("transform", .str t.transform.toString),
     ("frames", .arr (t.frames.map frameToJson))]

def tensorFromJson (tj : Json) : Outcome TensorDiff := do
  let shapeName ← (← tj.atKey "name").getStr
  let shape ← (← tj.atKey "shape").items.mapM Json.getU64
  let dtype ← DType.fromString (← (← tj.atKey "dtype").getStr)
  let residual ← ResidualKind.fromString (← (← tj.atKey "residual").getStr)
  let transform ← Transform.fromString (← (← tj.atKey "transform").getStr)
  let frames ← (← tj.atKey "frames").items.mapM (frameFromJson shapeName)
  return { shapeName, shape, dtype, residual, transform, frames }

def alignmentToJson (a : AlignmentInfo) : Json :=
  .mkObj [("method", .str a.method), ("cost_raw", .float a.costRaw), ("cost_normalized", .float a.costNormalized)]

def alignmentFromJson (j : Json) : Outcome AlignmentInfo :=
  if j.contains "alignment" then do
    let aj ← j.atKey "alignment"
    let method ← aj.valueOr "method" Json.getStr "weight_matching_lap"
    let costRaw ← aj.valueOr "cost_raw" Json.getF64 0
    let costNormalized ← aj.valueOr "cost_normalized" Json.getF64 0
    return { method, costRaw, costNormalized }
  else .ok ⟨"weight_matching_lap", 0, 0⟩

def toJson (h : DiffHeader) : Json :=
  .mkObj
    [("magic", .str kDiffMagic),
     ("format_version", .uint h.formatVersion),
     ("group", .str h.group),
     ("codec", .str h.codec.toString),
     ("permutation", permutationRefToJson h.permutation),
     ("tensors", .arr (h.tensors.map tensorToJson)),
     ("alignable", .bool h.alignable),
     ("alignment", alignmentToJson h.alignment)]

def toCanonicalJson (json : JsonLib) (h : DiffHeader) : Bytes := json.dump h.toJson

def fromJson (j : Json) : Outcome DiffHeader := do
  let magic ← j.valueOr "magic" Json.getStr ""
  if magic ≠ kDiffMagic then sfsErr .malformedObject "bad diff artifact magic" magic
  else
    let formatVersion ← (← j.atKey "format_version").getU32
    let group ← (← j.atKey "group").getStr
    let codec ← Codec.fromString (← (← j.atKey "codec").getStr)
    let permutation ← permutationRefFromJson (← j.atKey "permutation")
    let tensors ← (← j.atKey "tensors").items.mapM tensorFromJson
    let alignable ← j.valueOr "alignable" Json.getBool true
    let alignment ← alignmentFromJson j
    return { formatVersion, group, codec, permutation, tensors, alignable, alignment }

/-- Only the text is read under a handler: a field that is missing or of another
type leaves as an exception. -/
def parse (json : JsonLib) (bytes : Bytes) : Outcome DiffHeader :=
  match json.parse bytes with
  | .error what => sfsErr .malformedObject ("diff header JSON parse failed: " ++ what) ""
  | .ok (.obj fields) => fromJson (.obj fields)
  | .ok _ => sfsErr .malformedObject "diff header is not a JSON object" ""

end DiffHeader

/-! ### Artifacts -/

structure DiffArtifactView where
  header : DiffHeader
  payload : Bytes
  deriving DecidableEq, Repr

def parseDiffArtifact (json : JsonLib) (bytes : Bytes) : Outcome DiffArtifactView :=
  if bytes.length < 8 then sfsErr .malformedObject "diff artifact truncated (no header length)" ""
  else
    let headerLen := loadLe (bytes.take 8)
    if headerLen = 0 ∨ bytes.length < u64 (8 + headerLen) then
      sfsErr .malformedObject "diff artifact truncated or implausible header length" ""
    else if bytes.length - 8 < headerLen then .error (.undefined "subspan outside the artifact")
    else do
      let header ← DiffHeader.parse json (slice bytes 8 headerLen)
      return ⟨header, bytes.drop (8 + headerLen)⟩

/-- The index arithmetic is 32-bit. -/
def loadIndex (ref : PermutationRef) (payload : Bytes) (i : Nat) : Outcome Nat :=
  let width := if ref.width = 2 then 2 else 4
  if payload.length < ref.off + u32 (i * width) + width then .error (.undefined "load outside the payload")
  else .ok (loadLe (slice payload (ref.off + u32 (i * width)) width))

def readPermutation (ref : PermutationRef) (payload : Bytes) : Outcome (List Nat) :=
  match ref.kind with
  | .identity => .ok []
  | .explicit =>
    if ref.len ≠ u64 (ref.n * ref.width) then
      sfsErr .malformedObject "permutation length does not match n * width" ""
    else if payload.length < u64 (ref.off + ref.len) then
      sfsErr .malformedObject "permutation extends past payload" ""
    else do
      let out ← (List.range ref.n).mapM (loadIndex ref payload)
      if isValidPermutation out ref.n then return out
      else sfsErr .invalidPermutation "permutation is not a bijection on [0, n)" ""

/-! ### Round trips -/

/-- The fields fit the types the reader gives them. -/
def FrameIndexEntry.InRange (f : FrameIndexEntry) : Prop :=
  f.unitBegin < 2 ^ 64 ∧ f.unitEnd < 2 ^ 64 ∧ f.off < 2 ^ 64 ∧ f.len < 2 ^ 64

def TensorDiff.InRange (t : TensorDiff) : Prop := (∀ d ∈ t.shape, d < 2 ^ 64) ∧ ∀ f ∈ t.frames, f.InRange

def PermutationRef.InRange (p : PermutationRef) : Prop :=
  p.kind = .explicit → p.n < 2 ^ 32 ∧ (p.width = 2 ∨ p.width = 4) ∧ p.off < 2 ^ 64 ∧ p.len < 2 ^ 64

structure DiffHeader.InRange (h : DiffHeader) : Prop where
  formatVersion : h.formatVersion < 2 ^ 32
  permutation : h.permutation.InRange
  tensors : ∀ t ∈ h.tensors, t.InRange
  costRaw : (Json.f64Trunc h.alignment.costRaw).isSome
  costNormalized : (Json.f64Trunc h.alignment.costNormalized).isSome

/-- What is left of a permutation's header: the identity keeps no number. -/
def PermutationRef.stored (p : PermutationRef) : PermutationRef :=
  match p.kind with
  | .identity => PermutationRef.default
  | .explicit => p

namespace DiffHeader

theorem permutationRefFromJson_toJson {p : PermutationRef} (h : p.InRange) :
    permutationRefFromJson (permutationRefToJson p) = .ok p.stored := by
  obtain ⟨kind, n, width, off, len⟩ := p
  unfold permutationRefFromJson permutationRefToJson PermutationRef.stored
  cases kind with
  | identity => exact bind_eq_ok.mpr ⟨_, Json.atKey_mkObj rfl, rfl⟩
  | explicit =>
    obtain ⟨hn, hw, ho, hl⟩ := h rfl
    dsimp only at hn hw ho hl ⊢
    refine bind_eq_ok.mpr ⟨_, Json.atKey_mkObj rfl, bind_eq_ok.mpr ⟨_, rfl, ?_⟩⟩
    rw [if_neg (by decide), if_neg (by decide)]
    refine bind_eq_ok.mpr ⟨_, Json.atKey_mkObj rfl, bind_eq_ok.mpr ⟨_, Json.getU32_uint hn, ?_⟩⟩
    refine bind_eq_ok.mpr ⟨_, Json.atKey_mkObj rfl, bind_eq_ok.mpr ⟨_, rfl, ?_⟩⟩
    have hwidth : widthFromString (if width = 2 then "u16" else "u32") = .ok width := by
      rcases hw with rfl | rfl <;> rfl
    refine bind_eq_ok.mpr ⟨_, hwidth, ?_⟩
    refine bind_eq_ok.mpr ⟨_, Json.atKey_mkObj rfl, bind_eq_ok.mpr ⟨_, Json.getU64_uint ho, ?_⟩⟩
    exact bind_eq_ok.mpr ⟨_, Json.atKey_mkObj rfl, bind_eq_ok.mpr ⟨_, Json.getU64_uint hl, rfl⟩⟩

theorem frameFromJson_toJson (tensor : String) {f : FrameIndexEntry} (h : f.InRange) :
    frameFromJson tensor (frameToJson f) = .ok f := by
  obtain ⟨hb, he, ho, hl⟩ := h
  unfold frameFromJson frameToJson
  refine bind_eq_ok.mpr ⟨_, Json.atKey_mkObj rfl, ?_⟩
  dsimp only
  refine bind_eq_ok.mpr ⟨_, Json.getU64_uint hb, bind_eq_ok.mpr ⟨_, Json.getU64_uint he, ?_⟩⟩
  refine bind_eq_ok.mpr ⟨_, Json.atKey_mkObj rfl, bind_eq_ok.mpr ⟨_, Json.getU64_uint ho, ?_⟩⟩
  refine bind_eq_ok.mpr ⟨_, Json.atKey_mkObj rfl, bind_eq_ok.mpr ⟨_, Json.getU64_uint hl, ?_⟩⟩
  refine bind_eq_ok.mpr ⟨_, Json.atKey_mkObj rfl, bind_eq_ok.mpr ⟨_, rfl, ?_⟩⟩
  exact bind_eq_ok.mpr ⟨_, hexDecodeDigest_hexEncode _, rfl⟩

theorem tensorFromJson_toJson {t : TensorDiff} (h : t.InRange) : tensorFromJson (tensorToJson t) = .ok t := by
  unfold tensorFromJson tensorToJson
  refine bind_eq_ok.mpr ⟨_, Json.atKey_mkObj rfl, bind_eq_ok.mpr ⟨_, rfl, ?_⟩⟩
  refine bind_eq_ok.mpr ⟨_, Json.atKey_mkObj rfl, bind_eq_ok.mpr ⟨t.shape, ?_, ?_⟩⟩
  · exact mapM_map_eq_ok _ fun d hd => Json.getU64_uint (h.1 d hd)
  refine bind_eq_ok.mpr ⟨_, Json.atKey_mkObj rfl, bind_eq_ok.mpr ⟨_, rfl, ?_⟩⟩
  refine bind_eq_ok.mpr ⟨_, DType.fromString_toString _, ?_⟩
  refine bind_eq_ok.mpr ⟨_, Json.atKey_mkObj rfl, bind_eq_ok.mpr ⟨_, rfl, ?_⟩⟩
  refine bind_eq_ok.mpr ⟨_, ResidualKind.fromString_toString _, ?_⟩
  refine bind_eq_ok.mpr ⟨_, Json.atKey_mkObj rfl, bind_eq_ok.mpr ⟨_, rfl, ?_⟩⟩
  refine bind_eq_ok.mpr ⟨_, Transform.fromString_toString _, ?_⟩
  refine bind_eq_ok.mpr ⟨_, Json.atKey_mkObj rfl, bind_eq_ok.mpr ⟨t.frames, ?_, rfl⟩⟩
  exact mapM_map_eq_ok _ fun f hf => frameFromJson_toJson _ (h.2 f hf)

theorem alignmentFromJson_toJson {fields : List (String × Json)} (a : AlignmentInfo)
    (h : fields.reverse.lookup "alignment" = some (alignmentToJson a)) : alignmentFromJson (.mkObj fields) = .ok a := by
  unfold alignmentFromJson
  rw [if_pos (Json.contains_mkObj h)]
  refine bind_eq_ok.mpr ⟨_, Json.atKey_mkObj h, ?_⟩
  unfold alignmentToJson
  refine bind_eq_ok.mpr ⟨_, Json.valueOr_mkObj rfl rfl, bind_eq_ok.mpr ⟨_, Json.valueOr_mkObj rfl rfl, ?_⟩⟩
  exact bind_eq_ok.mpr ⟨_, Json.valueOr_mkObj rfl rfl, rfl⟩

theorem fromJson_toJson {h : DiffHeader} (hr : h.InRange) :
    fromJson h.toJson = .ok { h with permutation := h.permutation.stored } := by
  unfold fromJson toJson
  refine bind_eq_ok.mpr ⟨_, Json.valueOr_mkObj rfl rfl, ?_⟩
  rw [if_neg (not_not.mpr rfl)]
  refine bind_eq_ok.mpr ⟨_, Json.atKey_mkObj rfl, bind_eq_ok.mpr ⟨_, Json.getU32_uint hr.formatVersion, ?_⟩⟩
  refine bind_eq_ok.mpr ⟨_, Json.atKey_mkObj rfl, bind_eq_ok.mpr ⟨_, rfl, ?_⟩⟩
  refine bind_eq_ok.mpr ⟨_, Json.atKey_mkObj rfl, bind_eq_ok.mpr ⟨_, rfl, ?_⟩⟩
  refine bind_eq_ok.mpr ⟨_, Codec.fromString_toString _, ?_⟩
  refine bind_eq_ok.mpr ⟨_, Json.atKey_mkObj rfl, ?_⟩
  refine bind_eq_ok.mpr ⟨_, permutationRefFromJson_toJson hr.permutation, ?_⟩
  refine bind_eq_ok.mpr ⟨_, Json.atKey_mkObj rfl, bind_eq_ok.mpr ⟨h.tensors, ?_, ?_⟩⟩
  · exact mapM_map_eq_ok _ fun t ht => tensorFromJson_toJson (hr.tensors t ht)
  refine bind_eq_ok.mpr ⟨_, Json.valueOr_mkObj rfl rfl, ?_⟩
  exact bind_eq_ok.mpr ⟨_, alignmentFromJson_toJson h.alignment rfl, rfl⟩

theorem permutationRefToJson_canonical {p : PermutationRef} (h : p.InRange) : (permutationRefToJson p).Canonical := by
  unfold permutationRefToJson
  split
  · exact .mkObj (List.forall_mem_singleton.mpr (.str _))
  · next hk =>
    obtain ⟨hn, -, ho, hl⟩ := h hk
    refine .mkObj fun e he => ?_
    simp only [List.mem_cons, List.not_mem_nil, or_false] at he
    rcases he with rfl | rfl | rfl | rfl | rfl
    exacts [.str _, .uint (hn.trans (by decide)), .str _, .uint ho, .uint hl]

theorem frameToJson_canonical {f : FrameIndexEntry} (h : f.InRange) : (frameToJson f).Canonical := by
  obtain ⟨hb, he, ho, hl⟩ := h
  refine .mkObj fun e hm => ?_
  simp only [List.mem_cons, List.not_mem_nil, or_false] at hm
  rcases hm with rfl | rfl | rfl | rfl
  · exact .arr fun x hx => by
      simp only [List.mem_cons, List.not_mem_nil, or_false] at hx
      rcases hx with rfl | rfl
      exacts [.uint hb, .uint he]
  exacts [.uint ho, .uint hl, .str _]

theorem arr_map_canonical {α : Type} (f : α → Json) {l : List α} (h : ∀ a ∈ l, (f a).Canonical) :
    (Json.arr (l.map f)).Canonical := by
  refine .arr fun x hx => ?_
  obtain ⟨a, ha, rfl⟩ := List.mem_map.mp hx
  exact h a ha

theorem tensorToJson_canonical {t : TensorDiff} (h : t.InRange) : (tensorToJson t).Canonical := by
  refine .mkObj fun e he => ?_
  simp only [List.mem_cons, List.not_mem_nil, or_false] at he
  rcases he with rfl | rfl | rfl | rfl | rfl | rfl
  exacts [.str _, arr_map_canonical _ fun d hd => .uint (h.1 d hd), .str _, .str _, .str _,
    arr_map_canonical _ fun f hf => frameToJson_canonical (h.2 f hf)]

theorem toJson_canonical {h : DiffHeader} (hr : h.InRange) : h.toJson.Canonical := by
  refine .mkObj fun e he => ?_
  simp only [List.mem_cons, List.not_mem_nil, or_false] at he
  rcases he with rfl | rfl | rfl | rfl | rfl | rfl | rfl | rfl
  · exact .str _
  · exact .uint (hr.formatVersion.trans (by decide))
  · exact .str _
  · exact .str _
  · exact permutationRefToJson_canonical hr.permutation
  · exact arr_map_canonical _ fun t ht => tensorToJson_canonical (hr.tensors t ht)
  · exact .bool _
  · refine .mkObj fun e he => ?_
    simp only [List.mem_cons, List.not_mem_nil, or_false] at he
    rcases he with rfl | rfl | rfl
    exacts [.str _, .float hr.costRaw, .float hr.costNormalized]

/-- A header reads back as written, up to the numbers of an identity permutation. -/
theorem parse_toCanonicalJson {json : JsonLib} (hj : json.RoundTrips) {h : DiffHeader} (hr : h.InRange) :
    parse json (h.toCanonicalJson json) = .ok { h with permutation := h.permutation.stored } := by
  unfold parse toCanonicalJson
  rw [hj _ (toJson_canonical hr)]
  exact fromJson_toJson hr

end DiffHeader

/-- An artifact whose size fits a 64-bit length comes apart into its header text and its payload. -/
theorem parseDiffArtifact_text (json : JsonLib) {text : Bytes} (payload : Bytes) (hne : text ≠ [])
    (hlen : 8 + text.length + payload.length < 2 ^ 64) :
    parseDiffArtifact json (storeLe 8 text.length ++ (text ++ payload)) =
      (do return ⟨← DiffHeader.parse json text, payload⟩) := by
  have hload : loadLe ((storeLe 8 text.length ++ (text ++ payload)).take 8) = text.length := by
    rw [List.take_left' (length_storeLe _ _), loadLe_storeLe_of_lt (by omega)]
  have hpos : 0 < text.length := List.length_pos_iff.mpr hne
  have htotal : (storeLe 8 text.length ++ (text ++ payload)).length = 8 + text.length + payload.length := by
    simp only [List.length_append, length_storeLe]
    omega
  unfold parseDiffArtifact
  dsimp only
  rw [hload, htotal, if_neg (by omega), u64_of_lt (by omega), if_neg (by omega), if_neg (by omega),
    slice_middle _ _ _ (length_storeLe _ _) rfl, ← List.drop_drop, List.drop_left' (length_storeLe _ _), List.drop_left]

theorem parseDiffArtifact_eq {json : JsonLib} (hj : json.RoundTrips) {h : DiffHeader} (hr : h.InRange) (payload : Bytes)
    (hne : h.toCanonicalJson json ≠ [])
    (hlen : 8 + (h.toCanonicalJson json).length + payload.length < 2 ^ 64) :
    parseDiffArtifact json (storeLe 8 (h.toCanonicalJson json).length ++ (h.toCanonicalJson json ++ payload)) =
      .ok ⟨{ h with permutation := h.permutation.stored }, payload⟩ := by
  rw [parseDiffArtifact_text json payload hne hlen, DiffHeader.parse_toCanonicalJson hj hr]
  rfl

/-- Past `2 ^ 30` indices two of them are loaded from one address, and no
permutation is accepted. -/
theorem readPermutation_wide {ref : PermutationRef} (hk : ref.kind = .explicit) (hw : ref.width = 4)
    (hn : 2 ^ 30 < ref.n) (payload : Bytes) (perm : List Nat) : readPermutation ref payload ≠ .ok perm := by
  intro h
  unfold readPermutation at h
  rw [hk] at h
  dsimp only at h
  split at h
  · exact absurd h sfsErr_ne_ok
  · split at h
    · exact absurd h sfsErr_ne_ok
    · obtain ⟨out, hout, h⟩ := bind_eq_ok.mp h
      split at h
      · next hv =>
        obtain ⟨hlen, hall⟩ := mapM_eq_ok hout
        rw [List.length_range] at hlen
        have h0 := hall 0 (by rw [List.length_range]; omega) (by omega)
        have hd := hall (2 ^ 30) (by rw [List.length_range]; omega) (by omega)
        rw [List.getElem_range] at h0 hd
        have hsame : loadIndex ref payload (2 ^ 30) = loadIndex ref payload 0 := by
          unfold loadIndex
          rw [hw]
          rfl
        rw [hsame, h0] at hd
        have hnd := (isValidPermutation_iff.mp hv).2.2
        have := (List.Nodup.getElem_inj_iff hnd).mp (Except.ok.inj hd)
        omega
      · exact absurd h sfsErr_ne_ok

end SynapseFs.Format
