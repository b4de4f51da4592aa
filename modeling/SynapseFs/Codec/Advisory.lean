import SynapseFs.Codec.Artifact
import SynapseFs.Codec.ChainHops

/-! The alignment of a diff header is advisory.

Two artifacts that differ in nothing but the alignment are put in the place of
each other, in a manifest or anywhere in a history. No read looks at the
alignment, so all reads agree (`readRange_twin`), provided both headers parse; and
a cost that is not finite is written as null, which the parser does not take
for a number. -/
namespace SynapseFs.Codec
open Lib Core Format

/-! ### Two histories -/

/-- Both fail alike, or both give one artifact, whatever its alignment. -/
def Alike (x y : Outcome DiffArtifactView) : Prop :=
  (∃ v a, x = .ok v ∧ y = .ok { v with header := { v.header with alignment := a } }) ∨ ∃ f, x = .error f ∧ y = .error f

/-- An entry in the other history: commits have other names there, and the artifact has one. -/
def otherEntry (rename : Oid → Oid) (o₁ o₂ : Oid) (e : GroupEntry) : GroupEntry :=
  { e with
    base := e.base.map fun b => { b with commit := rename b.commit }
    diffBlock := e.diffBlock.map fun o => if o = o₁ then o₂ else o }

/-- `m'` is `m` in the other history. -/
def Mirrors (rename : Oid → Oid) (o₁ o₂ : Oid) (m m' : Manifest) : Prop :=
  ∀ name, m'.findGroup name = (m.findGroup name).map (otherEntry rename o₁ o₂)

/-- Every commit has its mirror under its other name, or is missing in both. -/
def HistoriesMirror (rename : Oid → Oid) (o₁ o₂ : Oid) (history history' : Oid → Outcome Manifest) : Prop :=
  ∀ c, (∃ m m', history c = .ok m ∧ history' (rename c) = .ok m' ∧ Mirrors rename o₁ o₂ m m') ∨
    ∃ f, history c = .error f ∧ history' (rename c) = .error f

section
variable {libs : Libs} {blocks : BlockReads} {rename : Oid → Oid} {o₁ o₂ : Oid} {history history' : Oid → Outcome Manifest}
  {m m' : Manifest} {maxDepth : Nat} {topology : Option Topology}

/-- The artifact under either name. -/
def FetchedAlike (libs : Libs) (blocks : BlockReads) (o₁ o₂ : Oid) : Prop :=
  Alike (blocks.get o₁ .diff >>= parseDiffArtifact libs.json) (blocks.get o₂ .diff >>= parseDiffArtifact libs.json)

theorem alike_refl (x : Outcome DiffArtifactView) : Alike x x := by
  cases x with
  | ok v => exact .inl ⟨v, v.header.alignment, rfl, rfl⟩
  | error f => exact .inr ⟨f, rfl, rfl⟩

theorem fetch_alike (h : FetchedAlike libs blocks o₁ o₂) (o : Oid) :
    Alike (blocks.get o .diff >>= parseDiffArtifact libs.json)
      (blocks.get (if o = o₁ then o₂ else o) .diff >>= parseDiffArtifact libs.json) := by
  by_cases ho : o = o₁
  · subst ho
    rw [if_pos rfl]
    exact h
  · rw [if_neg ho]
    exact alike_refl _

theorem ownerPermutation_twin (h : FetchedAlike libs blocks o₁ o₂) (hm : Mirrors rename o₁ o₂ m m') (owner : String) :
    ownerPermutation libs blocks m' owner = ownerPermutation libs blocks m owner := by
  unfold ownerPermutation
  rw [hm owner]
  cases m.findGroup owner with
  | none => rfl
  | some e =>
    obtain ⟨mode, block, base, diffBlock, depth⟩ := e
    cases mode with
    | full => rfl
    | delta =>
      cases diffBlock with
      | none => rfl
      | some o =>
        dsimp only [Option.map_some, otherEntry]
        rw [← bind_assoc, ← bind_assoc]
        rcases fetch_alike h o with ⟨v, a, hx, hy⟩ | ⟨f, hx, hy⟩
        · rw [hx, hy]
          rfl
        · rw [hx, hy]

theorem resolveSecondary_twin (h : FetchedAlike libs blocks o₁ o₂) (hm : Mirrors rename o₁ o₂ m m') (t : TensorDiff) :
    resolveSecondaryPermutation libs blocks (placeCtx blocks history' maxDepth topology m') t =
      resolveSecondaryPermutation libs blocks (placeCtx blocks history maxDepth topology m) t := by
  unfold resolveSecondaryPermutation placeCtx
  simp only [ownerPermutation_twin h hm]

/-- Nothing of a header but its permutation is looked at. -/
theorem readTensorRange_twin (h : FetchedAlike libs blocks o₁ o₂) (hm : Mirrors rename o₁ o₂ m m') {readBase readBase' : BaseRead}
    (hbase : readBase' = readBase) (header : DiffHeader) (a : AlignmentInfo) (payload : Bytes) (t : TensorDiff)
    (baseName : String) (off : Nat) (out : Bytes) :
    readTensorRange libs blocks (placeCtx blocks history' maxDepth topology m') readBase'
        { header with alignment := a } payload t baseName off out =
      readTensorRange libs blocks (placeCtx blocks history maxDepth topology m) readBase header payload t baseName off out := by
  subst hbase
  unfold readTensorRange
  rw [@resolveSecondary_twin _ _ _ _ _ history history' _ _ maxDepth topology h hm]
  rfl

/-- Reads in the two histories agree, at every depth. -/
theorem readRange_twin (h : FetchedAlike libs blocks o₁ o₂) (hh : HistoriesMirror rename o₁ o₂ history history')
    (fuel : Nat) : ∀ m m', Mirrors rename o₁ o₂ m m' → ∀ name,
      readRange libs fuel (placeCtx blocks history' maxDepth topology m') name =
        readRange libs fuel (placeCtx blocks history maxDepth topology m) name := by
  induction fuel with
  | zero => exact fun _ _ _ _ => rfl
  | succ fuel ih =>
    intro m m' hm name
    funext off out
    unfold readRange
    dsimp only [placeCtx]
    rw [hm name]
    cases m.findGroup name with
    | none => rfl
    | some e =>
      obtain ⟨mode, block, base, diffBlock, depth⟩ := e
      cases mode with
      | full => rfl
      | delta =>
        dsimp only [Option.map_some, otherEntry]
        unfold readDeltaRange
        cases base with
        | none => rfl
        | some base =>
          cases diffBlock with
          | none => rfl
          | some o =>
            dsimp only [Option.map_some]
            split
            · rfl
            · rw [← bind_assoc, ← bind_assoc]
              rcases fetch_alike h o with ⟨v, a, hx, hy⟩ | ⟨f, hx, hy⟩
              · rw [hx, hy]
                dsimp only [Except.bind, bind]
                cases v.header.tensors.find? (fun t => t.shapeName = name) with
                | none => rfl
                | some t =>
                  rcases hh base.commit with ⟨bm, bm', hc, hc', hmirror⟩ | ⟨f, hc, hc'⟩
                  · dsimp only
                    rw [hc, hc']
                    exact readTensorRange_twin h hm (ih bm bm' hmirror base.group) v.header a v.payload t base.group off out
                  · dsimp only
                    rw [hc, hc']
              · rw [hx, hy]
                rfl

end

/-! ### Headers with another alignment -/

/-- Neither cost is a NaN or an infinity. -/
def FiniteCosts (a : AlignmentInfo) : Prop :=
  (Json.f64Trunc a.costRaw).isSome ∧ (Json.f64Trunc a.costNormalized).isSome

theorem getF64_textual {bits a : UInt64} (h : (Json.float bits).textual.getF64 = .ok a) : (Json.f64Trunc bits).isSome := by
  rw [Json.textual] at h
  split at h
  · assumption
  · cases h

/-- A cost that is not finite is not read. -/
theorem finite_of_fromJson {h h' : DiffHeader} (hok : DiffHeader.fromJson h.toJson.textual = .ok h') :
    FiniteCosts h.alignment := by
  have hobj : ∃ stored, h.toJson.textual = .obj stored ∧
      stored.lookup "alignment" = some (DiffHeader.alignmentToJson h.alignment).textual :=
    Json.lookup_mkObj_textual rfl
  obtain ⟨stored, hstored, hlookup⟩ := hobj
  have hmember : ∀ {key : String} {v : Json}, [("cost_normalized", Json.float h.alignment.costNormalized),
      ("cost_raw", Json.float h.alignment.costRaw), ("method", Json.str h.alignment.method)].lookup key = some v →
      ∀ {a : UInt64}, (DiffHeader.alignmentToJson h.alignment).textual.valueOr key Json.getF64 0 = .ok a →
        v.textual.getF64 = .ok a := by
    intro key v hkey a ha
    obtain ⟨fields, hfields, hv⟩ := @Json.lookup_mkObj_textual
      [("method", .str h.alignment.method), ("cost_raw", .float h.alignment.costRaw),
        ("cost_normalized", .float h.alignment.costNormalized)] key v hkey
    rw [show DiffHeader.alignmentToJson h.alignment = Json.mkObj _ from rfl, hfields, Json.valueOr] at ha
    rw [hv] at ha
    exact ha
  unfold DiffHeader.fromJson at hok
  obtain ⟨magic, -, hok⟩ := bind_eq_ok.mp hok
  split at hok
  · exact absurd hok sfsErr_ne_ok
  · simp only [bind_eq_ok] at hok
    obtain ⟨_, -, _, -, _, -, _, -, _, -, _, -, _, -, _, -, _, -, _, -, _, -, _, -, alignment, halign, -⟩ := hok
    unfold DiffHeader.alignmentFromJson at halign
    rw [hstored] at halign
    split at halign
    · obtain ⟨aj, haj, halign⟩ := bind_eq_ok.mp halign
      have hat : aj = (DiffHeader.alignmentToJson h.alignment).textual := by
        rw [Json.atKey, hlookup] at haj
        cases haj
        rfl
      subst hat
      obtain ⟨_, -, halign⟩ := bind_eq_ok.mp halign
      obtain ⟨raw, hraw, halign⟩ := bind_eq_ok.mp halign
      obtain ⟨norm, hnorm, -⟩ := bind_eq_ok.mp halign
      exact ⟨getF64_textual (hmember rfl hraw), getF64_textual (hmember rfl hnorm)⟩
    · next hmissing =>
      refine absurd ?_ hmissing
      rw [Json.contains, hlookup]
      rfl

section
variable {libs : Libs} {opts : EncodeOptions} {base target : TensorSource} {topology : Topology} {group : String}
  {perm : List Nat} {alignable : Bool} {a a' : AlignmentInfo} {header : DiffHeader} {s : EncodeState} {result : EncodeResult}

/-- The alignment goes into the header as it is, and nowhere else. -/
theorem groupHeader_alignment (h : groupHeader libs base target topology group perm alignable a opts = .ok (header, s)) :
    groupHeader libs base target topology group perm alignable a' opts = .ok ({ header with alignment := a' }, s) := by
  obtain ⟨ref, front, hw, hfold, rfl⟩ := groupHeader_ok h
  exact bind_eq_ok.mpr ⟨_, hw, bind_eq_ok.mpr ⟨_, hfold, rfl⟩⟩

/-- An artifact comes apart into the text of its header and its payload. -/
theorem parse_built (hbuilt : groupHeader libs base target topology group perm alignable a opts = .ok (header, s))
    (hdone : encodeGroup libs base target topology group perm alignable a opts = .ok result)
    (hempty : ∀ v, libs.json.parse [] ≠ .ok v)
    (hjson : libs.json.parse (libs.json.dump header.toJson) = .ok header.toJson.textual) :
    s.payload.length < kMaxVector ∧ parseDiffArtifact libs.json result.artifact =
      (do return ⟨← DiffHeader.fromJson header.toJson.textual, s.payload⟩) := by
  obtain ⟨header', s', hbuilt', hlen, rfl⟩ := encodeGroup_ok hdone
  cases hbuilt.symm.trans hbuilt'
  have hne : header.toCanonicalJson libs.json ≠ [] := fun hnil => by
    rw [← DiffHeader.toCanonicalJson, hnil] at hjson
    exact hempty _ hjson
  obtain ⟨stored, hstored, -⟩ : ∃ stored, header.toJson.textual = .obj stored ∧
      stored.lookup "alignment" = some (DiffHeader.alignmentToJson header.alignment).textual :=
    Json.lookup_mkObj_textual rfl
  have hparse : DiffHeader.parse libs.json (header.toCanonicalJson libs.json) =
      DiffHeader.fromJson header.toJson.textual := by
    unfold DiffHeader.parse DiffHeader.toCanonicalJson
    rw [hjson, hstored]
  unfold kMaxVector at hlen ⊢
  refine ⟨by omega, ?_⟩
  dsimp only
  rw [layOut, parseDiffArtifact_text libs.json s.payload hne (by omega), hparse]

theorem parse_finite (htyped : target.Typed)
    (hbuilt : groupHeader libs base target topology group perm alignable a opts = .ok (header, s))
    (hdone : encodeGroup libs base target topology group perm alignable a opts = .ok result)
    (hempty : ∀ v, libs.json.parse [] ≠ .ok v)
    (hjson : libs.json.parse (libs.json.dump header.toJson) = .ok header.toJson.textual) (hfinite : FiniteCosts a) :
    parseDiffArtifact libs.json result.artifact =
      .ok ⟨{ header with permutation := header.permutation.stored }, s.payload⟩ := by
  obtain ⟨hmax, hparse⟩ := parse_built hbuilt hdone hempty hjson
  have hrange := groupHeader_inRange htyped hbuilt hmax hfinite.1 hfinite.2
  rw [hparse, (DiffHeader.toJson_canonical hrange).textual_eq, DiffHeader.fromJson_toJson hrange]
  rfl

theorem finite_of_parse (hbuilt : groupHeader libs base target topology group perm alignable a opts = .ok (header, s))
    (hdone : encodeGroup libs base target topology group perm alignable a opts = .ok result)
    (hempty : ∀ v, libs.json.parse [] ≠ .ok v)
    (hjson : libs.json.parse (libs.json.dump header.toJson) = .ok header.toJson.textual) {v : DiffArtifactView}
    (h : parseDiffArtifact libs.json result.artifact = .ok v) : FiniteCosts a := by
  rw [(parse_built hbuilt hdone hempty hjson).2] at h
  obtain ⟨header', hok, -⟩ := bind_eq_ok.mp h
  obtain ⟨ref, front, -, -, rfl⟩ := groupHeader_ok hbuilt
  exact finite_of_fromJson hok

end

/-! ### Advisory data -/

/-- Both artifacts parse, and wherever they are in the place of each other every read is the same. -/
structure Advisory (libs : Libs) (artifact₁ artifact₂ : Bytes) : Prop where
  parsed : (∃ v, parseDiffArtifact libs.json artifact₁ = .ok v) ∧ ∃ v, parseDiffArtifact libs.json artifact₂ = .ok v
  reads : ∀ (blocks : BlockReads) (rename : Oid → Oid) (o₁ o₂ : Oid) (history history' : Oid → Outcome Manifest)
    (m m' : Manifest) (maxDepth : Nat) (topology : Option Topology), blocks.get o₁ .diff = .ok artifact₁ →
    blocks.get o₂ .diff = .ok artifact₂ → HistoriesMirror rename o₁ o₂ history history' → Mirrors rename o₁ o₂ m m' →
    ∀ fuel name off out, readRange libs fuel (placeCtx blocks history' maxDepth topology m') name off out =
      readRange libs fuel (placeCtx blocks history maxDepth topology m) name off out

/-- Two calls of `encode_group` that differ in the alignment give artifacts that stand for each other exactly when
all their costs are finite. -/
theorem advisory_iff {libs : Libs} {opts : EncodeOptions} {base target : TensorSource} {topology : Topology}
    {group : String} {perm : List Nat} {alignable : Bool} {a₁ a₂ : AlignmentInfo} {header : DiffHeader} {s : EncodeState}
    {r₁ r₂ : EncodeResult} (htyped : target.Typed)
    (hbuilt : groupHeader libs base target topology group perm alignable a₁ opts = .ok (header, s))
    (hdone₁ : encodeGroup libs base target topology group perm alignable a₁ opts = .ok r₁)
    (hdone₂ : encodeGroup libs base target topology group perm alignable a₂ opts = .ok r₂)
    (hempty : ∀ v, libs.json.parse [] ≠ .ok v)
    (hjson₁ : libs.json.parse (libs.json.dump header.toJson) = .ok header.toJson.textual)
    (hjson₂ : libs.json.parse (libs.json.dump { header with alignment := a₂ }.toJson) =
      .ok { header with alignment := a₂ }.toJson.textual) :
    Advisory libs r₁.artifact r₂.artifact ↔ FiniteCosts a₁ ∧ FiniteCosts a₂ := by
  have hbuilt₂ := @groupHeader_alignment _ _ _ _ _ _ _ _ _ a₂ _ _ hbuilt
  constructor
  · intro h
    obtain ⟨⟨v₁, hv₁⟩, v₂, hv₂⟩ := h.parsed
    exact ⟨finite_of_parse hbuilt hdone₁ hempty hjson₁ hv₁, finite_of_parse hbuilt₂ hdone₂ hempty hjson₂ hv₂⟩
  · intro ⟨hf₁, hf₂⟩
    have hv₁ := parse_finite htyped hbuilt hdone₁ hempty hjson₁ hf₁
    have hv₂ := parse_finite htyped hbuilt₂ hdone₂ hempty hjson₂ hf₂
    refine ⟨⟨⟨_, hv₁⟩, _, hv₂⟩, fun blocks rename o₁ o₂ history history' m m' maxDepth topology' hget₁ hget₂ hh hm fuel
      name off out => ?_⟩
    have hfetch : FetchedAlike libs blocks o₁ o₂ := by
      unfold FetchedAlike
      rw [hget₁, hget₂]
      exact .inl ⟨_, a₂, hv₁, hv₂⟩
    exact congrFun (congrFun (readRange_twin hfetch hh fuel m m' hm name) off) out

/-! ### A cost of one and a half, and one that is no number -/

/-- The header's text around the raw cost. -/
def costText (digits : String) : Bytes :=
  asciiOf ["\x7b\"alignable\":true,\"alignment\":\x7b\"cost_normalized\":0.0,\"cost_raw\":", digits,
    ",\"method\":\"weight_matching_lap\"\x7d,\"codec\":\"zstd\",\"format_version\":1,\"group\":\"g\",",
    "\"magic\":\"SYNDIFF\",\"permutation\":\x7b\"dtype\":\"u16\",\"kind\":\"explicit\",\"len\":4,\"n\":2,\"off\":0\x7d,",
    "\"tensors\":[\x7b\"dtype\":\"U8\",\"frames\":[\x7b\"digest\":\"",
    "f2e06bb757998c6f67b404d918b81700e269510509d5eb465fa0a09d0ce5d946",
    "\",\"len\":11,\"off\":4,\"units\":[0,2]\x7d],\"name\":\"w\",\"residual\":\"raw\",",
    "\"shape\":[2],\"transform\":\"none\"\x7d]\x7d"]

/-- The header with that raw cost. -/
def costHeader (raw : UInt64) : DiffHeader := { pairHeader 0 with alignment := ⟨"weight_matching_lap", raw, 0⟩ }

/-- The raw cost of a header that is about to be written. -/
def costOf (j : Json) : Outcome Json := j.atKey "alignment" >>= fun aj => aj.atKey "cost_raw"

theorem costOf_toJson (h : DiffHeader) : costOf h.toJson = .ok (.float h.alignment.costRaw) :=
  bind_eq_ok.mpr ⟨_, Json.atKey_mkObj rfl, Json.atKey_mkObj rfl⟩

/-- The libraries on the headers with cost 0 and with the cost `raw`, whose text is `digits`: the texts differ in the
first letter of the cost. -/
def costWriter (raw : UInt64) (digits : String) : Libs where
  json := {
    parse := fun text =>
      if text = [] then .error "[json.exception.parse_error.101] attempting to parse an empty input"
      else .ok (costHeader (if text[64]? = some 48 then 0 else raw)).toJson.textual
    dump := fun j =>
      match costOf j with
      | .ok (.float bits) => costText (if bits = 0 then "0.0" else digits)
      | _ => [] }
  zstd := pairWriter.zstd
  blake3 := pairWriter.blake3

theorem length_costText {l : List Char} (h : l.length ≤ 255) : (costText (String.ofList l)).length ≤ 255 * 8 := by
  iterate 8 refine length_asciiOf_le (by first | assumption | decide) ?_
  exact Nat.le_refl _

theorem letter_costText (c : Char) (l : List Char) :
    (costText (String.ofList (c :: l)))[64]? = some (UInt8.ofNat c.toNat) := by
  refine (congrArg (fun text : Bytes => text[64]?) (asciiOf_cons _ _)).trans ?_
  rw [List.getElem?_append_right (show _ ≤ 64 by decide)]
  exact (congrArg (fun text : Bytes => text[0]?) (asciiOf_cons _ _)).trans rfl

theorem dump_cost (raw bits : UInt64) (digits : String) :
    (costWriter raw digits).json.dump (costHeader bits).toJson = costText (if bits = 0 then "0.0" else digits) := by
  unfold costWriter
  dsimp only
  rw [costOf_toJson]
  rfl

theorem parse_cost (raw : UInt64) (digits : String) {text : Bytes} (h : text ≠ []) : (costWriter raw digits).json.parse text =
    .ok (costHeader (if text[64]? = some 48 then 0 else raw)).toJson.textual := by
  unfold costWriter
  dsimp only
  rw [if_neg h]

theorem json_cost {raw bits : UInt64} {digits : String} {c : Char} {l : List Char} (hdigits : digits = String.ofList (c :: l))
    (hc : UInt8.ofNat c.toNat ≠ 48) (hb : bits = 0 ∨ bits = raw ∧ raw ≠ 0) :
    (costWriter raw digits).json.parse ((costWriter raw digits).json.dump (costHeader bits).toJson) =
      .ok (costHeader bits).toJson.textual := by
  have hne : costText (if bits = 0 then "0.0" else digits) ≠ [] := asciiOf_ne_nil
  rw [dump_cost, parse_cost raw digits hne]
  rcases hb with rfl | ⟨rfl, hb⟩
  · have hzero : (costText "0.0")[64]? = some 48 := letter_costText '0' ['.', '0']
    rw [if_pos rfl, if_pos hzero]
  · rw [if_neg hb, hdigits, letter_costText, if_neg fun h => hc (Option.some.inj h)]

/-- The group is written with either cost, and its header is read back as JSON keeps it. -/
theorem cost_written (raw : UInt64) {digits : String} {c : Char} {l : List Char} (hdigits : digits = String.ofList (c :: l))
    (hl : (c :: l).length ≤ 255) (bits : UInt64) : ∃ s : EncodeState, ∃ result : EncodeResult,
      groupHeader (costWriter raw digits) (pairSource [6, 5]) (pairSource [5, 6]) pairTopology "g" [1, 0] true
        ⟨"weight_matching_lap", bits, 0⟩ rawOptions = .ok (costHeader bits, s) ∧
      encodeGroup (costWriter raw digits) (pairSource [6, 5]) (pairSource [5, 6]) pairTopology "g" [1, 0] true
        ⟨"weight_matching_lap", bits, 0⟩ rawOptions = .ok result := by
  have hbuilt : groupHeader (costWriter raw digits) (pairSource [6, 5]) (pairSource [5, 6]) pairTopology "g" [1, 0] true
      ⟨"weight_matching_lap", bits, 0⟩ rawOptions = .ok (costHeader bits, ⟨pairPayload, 2, (pairHeader 0).tensors⟩) := rfl
  have htext : ((costHeader bits).toCanonicalJson (costWriter raw digits).json).length ≤ 255 * 8 := by
    rw [DiffHeader.toCanonicalJson, dump_cost]
    split
    · exact length_costText (l := ['0', '.', '0']) (by decide)
    · rw [hdigits]
      exact length_costText hl
  obtain ⟨result, hdone⟩ := encodeGroup_short hbuilt htext (by decide)
  exact ⟨_, result, hbuilt, hdone⟩

theorem empty_cost (raw : UInt64) (digits : String) (v : Json) : (costWriter raw digits).json.parse [] ≠ .ok v := by
  unfold costWriter
  dsimp only
  rw [if_pos rfl]
  exact nofun

/-- The costs 0 and 1.5. -/
theorem advisory_pair : ∃ r₁ r₂ : EncodeResult,
    encodeGroup (costWriter 0x3ff8000000000000 "1.5") (pairSource [6, 5]) (pairSource [5, 6]) pairTopology "g" [1, 0] true
      ⟨"weight_matching_lap", 0, 0⟩ rawOptions = .ok r₁ ∧
    encodeGroup (costWriter 0x3ff8000000000000 "1.5") (pairSource [6, 5]) (pairSource [5, 6]) pairTopology "g" [1, 0] true
      ⟨"weight_matching_lap", 0x3ff8000000000000, 0⟩ rawOptions = .ok r₂ ∧
    Advisory (costWriter 0x3ff8000000000000 "1.5") r₁.artifact r₂.artifact := by
  have hdigits : "1.5" = String.ofList ['1', '.', '5'] := rfl
  obtain ⟨s, r₁, hbuilt, hdone₁⟩ := cost_written 0x3ff8000000000000 hdigits (by decide) 0
  obtain ⟨-, r₂, -, hdone₂⟩ := cost_written 0x3ff8000000000000 hdigits (by decide) 0x3ff8000000000000
  have hjson₁ := @json_cost 0x3ff8000000000000 0 _ _ _ hdigits (by decide) (.inl rfl)
  have hjson₂ := @json_cost 0x3ff8000000000000 0x3ff8000000000000 _ _ _ hdigits (by decide) (.inr ⟨rfl, by decide⟩)
  refine ⟨r₁, r₂, hdone₁, hdone₂, (advisory_iff (typed_pair _) hbuilt hdone₁ hdone₂ (empty_cost _ _) hjson₁ hjson₂).mpr ?_⟩
  exact ⟨⟨by decide, by decide⟩, by decide, by decide⟩

/-- With a cost that is no number the group is written all the same, and its artifact never parses. -/
theorem nan_unread : ∃ r₁ r₂ : EncodeResult,
    encodeGroup (costWriter 0x7ff8000000000000 "null") (pairSource [6, 5]) (pairSource [5, 6]) pairTopology "g" [1, 0] true
      ⟨"weight_matching_lap", 0, 0⟩ rawOptions = .ok r₁ ∧
    encodeGroup (costWriter 0x7ff8000000000000 "null") (pairSource [6, 5]) (pairSource [5, 6]) pairTopology "g" [1, 0] true
      ⟨"weight_matching_lap", 0x7ff8000000000000, 0⟩ rawOptions = .ok r₂ ∧
    (∀ v, parseDiffArtifact (costWriter 0x7ff8000000000000 "null").json r₂.artifact ≠ .ok v) ∧
    ¬Advisory (costWriter 0x7ff8000000000000 "null") r₁.artifact r₂.artifact := by
  have hdigits : "null" = String.ofList ['n', 'u', 'l', 'l'] := rfl
  obtain ⟨-, r₁, -, hdone₁⟩ := cost_written 0x7ff8000000000000 hdigits (by decide) 0
  obtain ⟨s, r₂, hbuilt, hdone₂⟩ := cost_written 0x7ff8000000000000 hdigits (by decide) 0x7ff8000000000000
  have hjson := @json_cost 0x7ff8000000000000 0x7ff8000000000000 _ _ _ hdigits (by decide) (.inr ⟨rfl, by decide⟩)
  have hunread : ∀ v, parseDiffArtifact (costWriter 0x7ff8000000000000 "null").json r₂.artifact ≠ .ok v := by
    intro v hv
    have hfinite := finite_of_parse hbuilt hdone₂ (empty_cost _ _) hjson hv
    exact absurd hfinite.1 (by decide)
  refine ⟨r₁, r₂, hdone₁, hdone₂, hunread, fun h => ?_⟩
  obtain ⟨-, v, hv⟩ := h.parsed
  exact hunread v hv

end SynapseFs.Codec
