import SynapseFs.Format.ResidualHdr

/-! When an artifact's header is read without an exception.

Past the JSON text nothing in `DiffHeader::parse` is under a handler, so a field
that is missing or of another type throws, and a double that no integer can hold is
converted to one. The parser stops early at a name it does not know, and what comes
after such a name is not looked at. `HeaderTyped` says field by field what the parser
relies on, and `parse_returns_iff` that nothing less will do. -/
namespace SynapseFs.Format
open Lib Core

/-! ### Fields -/

/-- The field is there and has its type; `rest` is about what follows. -/
def Field {α : Type} (j : Json) (key : String) (get : Json → Outcome α) (rest : α → Prop) : Prop :=
  ∃ v a, j.atKey key = .ok v ∧ get v = .ok a ∧ rest a

namespace Json

theorem atKey_no_error (j : Json) (key : String) (e : Error) : j.atKey key ≠ .error (.error e) := by
  unfold atKey
  split
  · split <;> exact nofun
  · exact nofun

theorem getStr_no_error (j : Json) (e : Error) : j.getStr ≠ .error (.error e) := by
  cases j <;> exact nofun

theorem getArithmetic_no_error (width : Nat) (j : Json) (e : Error) : j.getArithmetic width ≠ .error (.error e) := by
  unfold getArithmetic
  split
  · exact nofun
  · exact nofun
  · split
    · split <;> exact nofun
    · exact nofun
  · exact nofun

theorem getU32_no_error (j : Json) (e : Error) : j.getU32 ≠ .error (.error e) := by
  unfold getU32
  split
  · exact nofun
  · exact getArithmetic_no_error 32 j e

theorem getU64_no_error (j : Json) (e : Error) : j.getU64 ≠ .error (.error e) := getArithmetic_no_error 64 j e

theorem getBool_no_error (j : Json) (e : Error) : j.getBool ≠ .error (.error e) := by
  cases j <;> exact nofun

theorem getF64_no_error (j : Json) (e : Error) : j.getF64 ≠ .error (.error e) := by
  cases j <;> exact nofun

theorem valueOr_no_error {α : Type} (j : Json) (key : String) {get : Json → Outcome α} (dflt : α)
    (hget : ∀ v e, get v ≠ .error (.error e)) (e : Error) : j.valueOr key get dflt ≠ .error (.error e) := by
  unfold valueOr
  split
  · split
    · exact hget _ e
    · exact nofun
  · exact nofun

end Json

theorem returns_field {α β : Type} {j : Json} {key : String} {get : Json → Outcome α} {f : α → Outcome β} {Q : β → Prop}
    (hget : ∀ v e, get v ≠ .error (.error e)) :
    Returns (j.atKey key >>= fun v => get v >>= f) Q ↔ Field j key get fun a => Returns (f a) Q := by
  rw [returns_bind, returns_iff_ok (j.atKey_no_error key)]
  constructor
  · rintro ⟨v, hv, h⟩
    rw [returns_bind, returns_iff_ok (hget v)] at h
    obtain ⟨a, ha, h⟩ := h
    exact ⟨v, a, hv, ha, h⟩
  · rintro ⟨v, a, hv, ha, h⟩
    refine ⟨v, hv, ?_⟩
    rw [returns_bind, ha]
    exact h

theorem returns_atKey {β : Type} {j : Json} {key : String} {f : Json → Outcome β} {Q : β → Prop} :
    Returns (j.atKey key >>= f) Q ↔ ∃ v, j.atKey key = .ok v ∧ Returns (f v) Q := by
  rw [returns_bind, returns_iff_ok (j.atKey_no_error key)]

theorem returns_valueOr {α β : Type} {j : Json} {key : String} {get : Json → Outcome α} {dflt : α} {f : α → Outcome β}
    {Q : β → Prop} (hget : ∀ v e, get v ≠ .error (.error e)) :
    Returns (j.valueOr key get dflt >>= f) Q ↔ ∃ a, j.valueOr key get dflt = .ok a ∧ Returns (f a) Q := by
  rw [returns_bind, returns_iff_ok (j.valueOr_no_error key dflt hget)]

theorem field_congr {α : Type} {j : Json} {key : String} {get : Json → Outcome α} {P Q : α → Prop}
    (h : ∀ a, P a ↔ Q a) : Field j key get P ↔ Field j key get Q := by
  unfold Field
  simp only [h]

/-- A name the parser does not know is an error. -/
theorem names_error :
    (∀ s f, DType.fromString s = .error f → ∃ e, f = .error e) ∧
    (∀ s f, ResidualKind.fromString s = .error f → ∃ e, f = .error e) ∧
    (∀ s f, Transform.fromString s = .error f → ∃ e, f = .error e) ∧
    (∀ s f, Codec.fromString s = .error f → ∃ e, f = .error e) ∧
    ∀ s f, hexDecodeDigest s = .error f → ∃ e, f = .error e := by
  refine ⟨fun s f h => ?_, fun s f h => ?_, fun s f h => ?_, fun s f h => ?_, fun s f h => ?_⟩
  · unfold DType.fromString at h
    split at h
    · cases h
    · cases h
      exact ⟨_, rfl⟩
  · unfold ResidualKind.fromString at h
    repeat' split at h
    all_goals cases h
    exact ⟨_, rfl⟩
  · unfold Transform.fromString at h
    repeat' split at h
    all_goals cases h
    exact ⟨_, rfl⟩
  · unfold Codec.fromString at h
    repeat' split at h
    all_goals cases h
    exact ⟨_, rfl⟩
  · unfold hexDecodeDigest at h
    repeat' split at h
    all_goals cases h
    all_goals exact ⟨_, rfl⟩

/-! ### What the parser relies on -/

def PermutationTyped (j : Json) (rest : Prop) : Prop :=
  Field j "kind" Json.getStr fun kind =>
    (kind = "identity" → rest) ∧
    (kind = "explicit" → Field j "n" Json.getU32 fun _ => Field j "dtype" Json.getStr fun dt =>
      dt = "u16" ∨ dt = "u32" → Field j "off" Json.getU64 fun _ => Field j "len" Json.getU64 fun _ => rest)

def FrameTyped (fj : Json) (rest : Prop) : Prop :=
  ∃ units, fj.atKey "units" = .ok units ∧ ∀ b e, units = .arr [b, e] →
    (∃ n, b.getU64 = .ok n) ∧ (∃ n, e.getU64 = .ok n) ∧
    Field fj "off" Json.getU64 fun _ => Field fj "len" Json.getU64 fun _ => Field fj "digest" Json.getStr fun text =>
      ∀ digest, hexDecodeDigest text = .ok digest → rest

def TensorTyped (tj : Json) (rest : Prop) : Prop :=
  Field tj "name" Json.getStr fun _ =>
    ∃ shape, tj.atKey "shape" = .ok shape ∧ (∀ d ∈ shape.items, ∃ n, d.getU64 = .ok n) ∧
    Field tj "dtype" Json.getStr fun dt => ∀ dtype, DType.fromString dt = .ok dtype →
    Field tj "residual" Json.getStr fun r => ∀ residual, ResidualKind.fromString r = .ok residual →
    Field tj "transform" Json.getStr fun t => ∀ transform, Transform.fromString t = .ok transform →
    ∃ frames, tj.atKey "frames" = .ok frames ∧ frames.items.foldr FrameTyped rest

def AlignmentTyped (j : Json) : Prop :=
  j.contains "alignment" = true → ∃ aj, j.atKey "alignment" = .ok aj ∧
    (∃ s, aj.valueOr "method" Json.getStr "weight_matching_lap" = .ok s) ∧
    (∃ x, aj.valueOr "cost_raw" Json.getF64 0 = .ok x) ∧ ∃ x, aj.valueOr "cost_normalized" Json.getF64 0 = .ok x

/-- Every field that the parser comes to is there with its type. -/
def HeaderTyped (j : Json) : Prop :=
  ∃ magic, j.valueOr "magic" Json.getStr "" = .ok magic ∧ (magic = kDiffMagic →
    Field j "format_version" Json.getU32 fun _ => Field j "group" Json.getStr fun _ =>
    Field j "codec" Json.getStr fun c => ∀ codec, Codec.fromString c = .ok codec →
    ∃ p, j.atKey "permutation" = .ok p ∧ PermutationTyped p (
      ∃ tensors, j.atKey "tensors" = .ok tensors ∧ tensors.items.foldr TensorTyped (
        (∃ b, j.valueOr "alignable" Json.getBool true = .ok b) ∧ AlignmentTyped j)))

namespace DiffHeader

theorem returns_permutation (j : Json) (rest : Prop) :
    Returns (permutationRefFromJson j) (fun _ => rest) ↔ PermutationTyped j rest := by
  unfold permutationRefFromJson PermutationTyped
  rw [returns_field Json.getStr_no_error]
  refine field_congr fun kind => ?_
  by_cases hid : kind = "identity"
  · rw [if_pos hid]
    subst hid
    exact ⟨fun h => ⟨fun _ => h, nofun⟩, fun h => h.1 rfl⟩
  · rw [if_neg hid]
    by_cases hex : kind = "explicit"
    · rw [if_neg (not_not.mpr hex), returns_field Json.getU32_no_error]
      refine Iff.trans ?_ ⟨fun h => ⟨fun h' => absurd h' hid, fun _ => h⟩, fun h => h.2 hex⟩
      refine field_congr fun n => ?_
      rw [returns_field Json.getStr_no_error]
      refine field_congr fun dt => ?_
      rw [returns_bind]
      unfold widthFromString
      by_cases h16 : dt = "u16"
      · rw [if_pos h16, returns_ok, returns_field Json.getU64_no_error]
        refine Iff.trans ?_ ⟨fun h _ => h, fun h => h (Or.inl h16)⟩
        exact field_congr fun off => returns_field Json.getU64_no_error
      · rw [if_neg h16]
        by_cases h32 : dt = "u32"
        · rw [if_pos h32, returns_ok, returns_field Json.getU64_no_error]
          refine Iff.trans ?_ ⟨fun h _ => h, fun h => h (Or.inr h32)⟩
          exact field_congr fun off => returns_field Json.getU64_no_error
        · rw [if_neg h32]
          exact ⟨fun _ h => (h.elim h16 h32).elim, fun _ => returns_sfsErr _ _ _⟩
    · rw [if_pos hex]
      exact ⟨fun _ => ⟨fun h => absurd h hid, fun h => absurd h hex⟩, fun _ => returns_sfsErr _ _ _⟩

theorem returns_frameTail (fj : Json) (mk : Nat → Nat → Oid → FrameIndexEntry) (rest : Prop) :
    Returns (do
      let off ← (← fj.atKey "off").getU64
      let len ← (← fj.atKey "len").getU64
      let digest ← hexDecodeDigest (← (← fj.atKey "digest").getStr)
      return mk off len digest) (fun _ => rest) ↔
    Field fj "off" Json.getU64 fun _ => Field fj "len" Json.getU64 fun _ => Field fj "digest" Json.getStr fun text =>
      ∀ digest, hexDecodeDigest text = .ok digest → rest := by
  rw [returns_field Json.getU64_no_error]
  refine field_congr fun off => ?_
  rw [returns_field Json.getU64_no_error]
  refine field_congr fun len => ?_
  rw [returns_field Json.getStr_no_error]
  refine field_congr fun text => ?_
  rw [returns_bind, returns_of_errors (names_error.2.2.2.2 text)]
  exact Iff.rfl

theorem returns_frame (tensor : String) (fj : Json) (rest : Prop) :
    Returns (frameFromJson tensor fj) (fun _ => rest) ↔ FrameTyped fj rest := by
  unfold frameFromJson FrameTyped
  rw [returns_atKey]
  refine exists_congr fun units => and_congr_right fun _ => ?_
  split
  · next b e _ =>
    rw [returns_bind, returns_iff_ok b.getU64_no_error]
    constructor
    · rintro ⟨n, hb, h⟩ b' e' heq
      cases heq
      rw [returns_bind, returns_iff_ok e.getU64_no_error] at h
      obtain ⟨n', he, h⟩ := h
      exact ⟨⟨n, hb⟩, ⟨n', he⟩, (returns_frameTail fj _ rest).mp h⟩
    · intro h
      obtain ⟨⟨n, hb⟩, ⟨n', he⟩, h⟩ := h b e rfl
      refine ⟨n, hb, ?_⟩
      rw [returns_bind, he, returns_ok]
      exact (returns_frameTail fj _ rest).mpr h
  · next hne =>
    exact ⟨fun _ b e heq => absurd heq (hne b e), fun _ => returns_sfsErr _ _ _⟩

theorem returns_tensorTail (tj : Json) (name : String)
    (mk : DType → ResidualKind → Transform → List FrameIndexEntry → TensorDiff) (rest : Prop) :
    Returns (do
      let dtype ← DType.fromString (← (← tj.atKey "dtype").getStr)
      let residual ← ResidualKind.fromString (← (← tj.atKey "residual").getStr)
      let transform ← Transform.fromString (← (← tj.atKey "transform").getStr)
      let frames ← (← tj.atKey "frames").items.mapM (frameFromJson name)
      return mk dtype residual transform frames) (fun _ => rest) ↔
    Field tj "dtype" Json.getStr fun dt => ∀ dtype, DType.fromString dt = .ok dtype →
    Field tj "residual" Json.getStr fun r => ∀ residual, ResidualKind.fromString r = .ok residual →
    Field tj "transform" Json.getStr fun t => ∀ transform, Transform.fromString t = .ok transform →
    ∃ frames, tj.atKey "frames" = .ok frames ∧ frames.items.foldr FrameTyped rest := by
  rw [returns_field Json.getStr_no_error]
  refine field_congr fun dt => ?_
  rw [returns_bind, returns_of_errors (names_error.1 dt)]
  refine forall_congr' fun dtype => imp_congr_right fun _ => ?_
  rw [returns_field Json.getStr_no_error]
  refine field_congr fun r => ?_
  rw [returns_bind, returns_of_errors (names_error.2.1 r)]
  refine forall_congr' fun residual => imp_congr_right fun _ => ?_
  rw [returns_field Json.getStr_no_error]
  refine field_congr fun t => ?_
  rw [returns_bind, returns_of_errors (names_error.2.2.1 t)]
  refine forall_congr' fun transform => imp_congr_right fun _ => ?_
  rw [returns_atKey]
  refine exists_congr fun frames => and_congr_right fun _ => ?_
  rw [returns_bind]
  exact returns_mapM_foldr (returns_frame name) _ rest

theorem returns_tensor (tj : Json) (rest : Prop) :
    Returns (tensorFromJson tj) (fun _ => rest) ↔ TensorTyped tj rest := by
  unfold tensorFromJson TensorTyped
  rw [returns_field Json.getStr_no_error]
  refine field_congr fun name => ?_
  rw [returns_atKey]
  refine exists_congr fun shape => and_congr_right fun _ => ?_
  rw [returns_bind, ← returns_mapM_iff_ok Json.getU64_no_error]
  exact returns_congr fun dims => returns_tensorTail tj name _ rest

theorem returns_alignment (j : Json) : Returns (alignmentFromJson j) (fun _ => True) ↔ AlignmentTyped j := by
  unfold alignmentFromJson AlignmentTyped
  by_cases h : j.contains "alignment" = true
  · rw [if_pos h, returns_atKey]
    refine Iff.trans (exists_congr fun aj => and_congr_right fun _ => ?_) ⟨fun h' _ => h', fun h' => h' h⟩
    rw [returns_valueOr Json.getStr_no_error]
    constructor
    · rintro ⟨s, hs, h'⟩
      rw [returns_valueOr Json.getF64_no_error] at h'
      obtain ⟨x, hx, h'⟩ := h'
      rw [returns_valueOr Json.getF64_no_error] at h'
      obtain ⟨y, hy, -⟩ := h'
      exact ⟨⟨s, hs⟩, ⟨x, hx⟩, ⟨y, hy⟩⟩
    · rintro ⟨⟨s, hs⟩, ⟨x, hx⟩, ⟨y, hy⟩⟩
      refine ⟨s, hs, ?_⟩
      rw [returns_bind, hx, returns_ok, returns_bind, hy]
      trivial
  · rw [if_neg h]
    exact ⟨fun _ h' => absurd h' h, fun _ => trivial⟩

theorem returns_headerTail (j : Json) (mk : List TensorDiff → Bool → AlignmentInfo → DiffHeader) :
    Returns (do
      let tensors ← (← j.atKey "tensors").items.mapM tensorFromJson
      let alignable ← j.valueOr "alignable" Json.getBool true
      let alignment ← alignmentFromJson j
      return mk tensors alignable alignment) (fun _ => True) ↔
    ∃ tensors, j.atKey "tensors" = .ok tensors ∧ tensors.items.foldr TensorTyped (
      (∃ b, j.valueOr "alignable" Json.getBool true = .ok b) ∧ AlignmentTyped j) := by
  rw [returns_atKey]
  refine exists_congr fun tensors => and_congr_right fun _ => ?_
  rw [returns_bind, ← returns_mapM_foldr returns_tensor]
  refine returns_congr fun list => ?_
  rw [returns_valueOr Json.getBool_no_error, exists_and_right.symm]
  refine exists_congr fun b => and_congr_right fun _ => ?_
  rw [returns_bind, ← returns_alignment]
  exact returns_congr fun _ => Iff.rfl

theorem fromJson_returns_iff (j : Json) : Returns (fromJson j) (fun _ => True) ↔ HeaderTyped j := by
  unfold fromJson HeaderTyped
  rw [returns_valueOr Json.getStr_no_error]
  refine exists_congr fun magic => and_congr_right fun _ => ?_
  by_cases hmagic : magic = kDiffMagic
  · rw [if_neg (not_not.mpr hmagic), returns_field Json.getU32_no_error]
    refine Iff.trans (field_congr fun version => ?_) ⟨fun h _ => h, fun h => h hmagic⟩
    rw [returns_field Json.getStr_no_error]
    refine field_congr fun group => ?_
    rw [returns_field Json.getStr_no_error]
    refine field_congr fun c => ?_
    rw [returns_bind, returns_of_errors (names_error.2.2.2.1 c)]
    refine forall_congr' fun codec => imp_congr_right fun _ => ?_
    rw [returns_atKey]
    refine exists_congr fun p => and_congr_right fun _ => ?_
    rw [returns_bind, ← returns_permutation]
    exact returns_congr fun perm => returns_headerTail j _
  · rw [if_pos hmagic]
    exact ⟨fun _ h => absurd h hmagic, fun _ => returns_sfsErr _ _ _⟩

theorem parse_returns_iff (json : JsonLib) (text : Bytes) : Returns (parse json text) (fun _ => True) ↔
    ∀ fields, json.parse text = .ok (.obj fields) → HeaderTyped (.obj fields) := by
  unfold parse
  split
  · next what hparse =>
    refine ⟨fun _ fields h => ?_, fun _ => returns_sfsErr _ _ _⟩
    cases hparse.symm.trans h
  · next fields hparse =>
    rw [fromJson_returns_iff]
    refine ⟨fun h fields' h' => ?_, fun h => h fields hparse⟩
    cases hparse.symm.trans h'
    exact h
  · next j hj hparse =>
    exact ⟨fun _ fields h => absurd (Except.ok.inj (hparse.symm.trans h)) (hj fields), fun _ => returns_sfsErr _ _ _⟩

end DiffHeader

/-! ### Artifacts -/

/-- The number in front of the header text. -/
def headerLen (bytes : Bytes) : Nat := loadLe (bytes.take 8)

/-- The header's length does not wrap, and the header's fields are typed, if it is there to be read. -/
def ArtifactTyped (json : JsonLib) (bytes : Bytes) : Prop :=
  8 ≤ bytes.length → 8 + headerLen bytes < 2 ^ 64 ∧
    (0 < headerLen bytes → 8 + headerLen bytes ≤ bytes.length → ∀ fields,
      json.parse (slice bytes 8 (headerLen bytes)) = .ok (.obj fields) → HeaderTyped (.obj fields))

theorem headerLen_lt {bytes : Bytes} (h : 8 ≤ bytes.length) : headerLen bytes < 2 ^ 64 := by
  have hlt := loadLe_lt (bytes.take 8)
  rw [List.length_take, Nat.min_eq_left h] at hlt
  exact hlt

/-- The end of a header that is too long comes out in front of its start. -/
theorem headerEnd_wraps {bytes : Bytes} (h : 8 ≤ bytes.length) (hwrap : ¬8 + headerLen bytes < 2 ^ 64) :
    u64 (8 + headerLen bytes) = 8 + headerLen bytes - 2 ^ 64 := by
  have hlt := headerLen_lt h
  rw [u64, Nat.mod_eq_sub_mod (not_lt.mp hwrap), Nat.mod_eq_of_lt (by omega)]

theorem parseDiffArtifact_returns_iff (json : JsonLib) {bytes : Bytes} (hlen : bytes.length < 2 ^ 63) :
    Returns (parseDiffArtifact json bytes) (fun _ => True) ↔ ArtifactTyped json bytes := by
  unfold parseDiffArtifact ArtifactTyped
  by_cases hshort : bytes.length < 8
  · rw [if_pos hshort]
    exact ⟨fun _ h => absurd h (not_le.mpr hshort), fun _ => returns_sfsErr _ _ _⟩
  · have hlong := not_lt.mp hshort
    have hlt := headerLen_lt hlong
    rw [if_neg hshort]
    dsimp only
    rw [← headerLen]
    by_cases hwrap : 8 + headerLen bytes < 2 ^ 64
    · rw [u64_of_lt hwrap]
      by_cases htrunc : headerLen bytes = 0 ∨ bytes.length < 8 + headerLen bytes
      · rw [if_pos htrunc]
        exact ⟨fun _ _ => ⟨hwrap, fun hpos hin => by omega⟩, fun _ => returns_sfsErr _ _ _⟩
      · rw [if_neg htrunc, if_neg (by omega), returns_bind]
        refine Iff.trans (returns_congr fun _ => Iff.rfl) ((DiffHeader.parse_returns_iff json _).trans ?_)
        exact ⟨fun h _ => ⟨hwrap, fun _ _ => h⟩, fun h => (h hlong).2 (by omega) (by omega)⟩
    · rw [headerEnd_wraps hlong hwrap, if_neg (by omega), if_pos (by omega)]
      exact ⟨fun h => h.elim, fun h => absurd (h hlong).1 hwrap⟩

/-! ### Permutations -/

/-- If the permutation passes the two checks, its end does not wrap. -/
def PermutationRef.Fits (ref : PermutationRef) (payload : Bytes) : Prop :=
  ref.kind = .explicit → ref.len = ref.n * ref.width → u64 (ref.off + ref.len) ≤ payload.length →
    ref.off + ref.len < 2 ^ 64

theorem loadIndex_eq {ref : PermutationRef} {payload : Bytes} {i : Nat} (hr : ref.width = 2 ∨ ref.width = 4)
    (hend : ref.off + ref.n * ref.width ≤ payload.length) (hi : i < ref.n) : ∃ p, loadIndex ref payload i = .ok p := by
  have hwidth : (if ref.width = 2 then 2 else 4) = ref.width := by
    rcases hr with h | h <;> rw [h] <;> rfl
  have hle : u32 (i * ref.width) ≤ i * ref.width := Nat.mod_le _ _
  have hstep : (i + 1) * ref.width ≤ ref.n * ref.width := Nat.mul_le_mul_right _ hi
  rw [Nat.succ_mul] at hstep
  unfold loadIndex
  dsimp only
  rw [hwidth, if_neg (by omega)]
  exact ⟨_, rfl⟩

theorem readPermutation_returns {ref : PermutationRef} (hr : ref.InRange) {payload : Bytes} (hfits : ref.Fits payload) :
    Returns (readPermutation ref payload) fun perm =>
      ref.kind = .explicit → perm.length = ref.n ∧ ∀ p ∈ perm, p < ref.n := by
  unfold readPermutation
  split
  · next hkind => exact fun h => by rw [hkind] at h; cases h
  · next hkind =>
    obtain ⟨hn, hw, ho, hl⟩ := hr hkind
    have hprod : u64 (ref.n * ref.width) = ref.n * ref.width := by
      refine u64_of_lt ?_
      rcases hw with h | h <;> rw [h] <;> omega
    rw [hprod]
    split
    · exact returns_sfsErr _ _ _
    · next hlen =>
      have hlen := not_not.mp hlen
      split
      · exact returns_sfsErr _ _ _
      · next hend =>
        have hnowrap := hfits hkind hlen (not_lt.mp hend)
        rw [u64_of_lt hnowrap, hlen] at hend
        have hloads : Returns ((List.range ref.n).mapM (loadIndex ref payload)) fun out =>
            out.length = (List.range ref.n).length ∧ ∀ p ∈ out, True := by
          refine Returns.mapM fun i hi => ?_
          obtain ⟨p, hp⟩ := loadIndex_eq hw (not_lt.mp hend) (List.mem_range.mp hi)
          rw [hp]
          trivial
        refine hloads.bind fun out _ hout => ?_
        split
        · next hvalid =>
          obtain ⟨hlength, hbound, -⟩ := isValidPermutation_iff.mp hvalid
          exact fun _ => ⟨hlength, hbound⟩
        · exact returns_sfsErr _ _ _

theorem readPermutation_returns_iff {ref : PermutationRef} (hr : ref.InRange) {payload : Bytes}
    (hlen : payload.length < 2 ^ 63) : Returns (readPermutation ref payload) (fun _ => True) ↔ ref.Fits payload := by
  refine ⟨fun h hkind hsize hend => ?_, fun h => (readPermutation_returns hr h).mono fun _ _ _ => trivial⟩
  by_contra hwrap
  obtain ⟨hn, hw, ho, hl⟩ := hr hkind
  have hprod : ref.n * ref.width < 2 ^ 34 := by
    rcases hw with h | h <;> rw [h] <;> omega
  have hpos : 0 < ref.n := by
    refine Nat.pos_of_ne_zero fun hzero => hwrap ?_
    rw [hsize, hzero, Nat.zero_mul]
    exact ho
  -- the first index is loaded from behind the payload
  have hload : loadIndex ref payload 0 = .error (.undefined "load outside the payload") := by
    unfold loadIndex
    dsimp only
    rw [if_pos (by omega)]
  unfold readPermutation at h
  rw [hkind] at h
  dsimp only at h
  rw [u64_of_lt (by omega), if_neg (not_not.mpr hsize), if_neg (not_lt.mpr hend), List.range_eq_range',
    show ref.n = (ref.n - 1) + 1 by omega, List.range'_succ, List.mapM_cons, hload] at h
  exact h

/-! ### Ranges of what is read -/

namespace DiffHeader

theorem getArithmetic_lt {width n : Nat} {j : Json} (h : j.getArithmetic width = .ok n) : n < 2 ^ width := by
  unfold Json.getArithmetic at h
  split at h
  · cases h
    exact Nat.mod_lt _ (Nat.two_pow_pos width)
  · next z =>
    cases h
    have hpos : (0 : Int) < (2 ^ width : Nat) := Int.natCast_pos.mpr (Nat.two_pow_pos width)
    have hlt := Int.emod_lt_of_pos z hpos
    have hge := Int.emod_nonneg z (Int.ne_of_gt hpos)
    omega
  · split at h
    · split at h
      · next hz =>
        cases h
        omega
      · cases h
    · cases h
  · cases h

theorem getU32_lt {n : Nat} {j : Json} (h : j.getU32 = .ok n) : n < 2 ^ 32 := by
  unfold Json.getU32 at h
  split at h
  · next b =>
    cases h
    cases b <;> decide
  · exact getArithmetic_lt h

theorem permutationRefFromJson_inRange {j : Json} {p : PermutationRef} (h : permutationRefFromJson j = .ok p) :
    p.InRange := by
  unfold permutationRefFromJson at h
  simp only [bind_eq_ok] at h
  obtain ⟨kj, -, kind, -, h⟩ := h
  split at h
  · cases h
    exact nofun
  · split at h
    · exact absurd h sfsErr_ne_ok
    · simp only [bind_eq_ok] at h
      obtain ⟨_, -, n, hn, _, -, dt, -, width, hw, _, -, off, ho, _, -, len, hl, h⟩ := h
      cases h
      refine fun _ => ⟨getU32_lt hn, ?_, getArithmetic_lt ho, getArithmetic_lt hl⟩
      unfold widthFromString at hw
      split at hw
      · exact Or.inl (Except.ok.inj hw).symm
      · split at hw
        · exact Or.inr (Except.ok.inj hw).symm
        · exact absurd hw sfsErr_ne_ok

theorem frameFromJson_inRange {tensor : String} {fj : Json} {f : FrameIndexEntry} (h : frameFromJson tensor fj = .ok f) :
    f.InRange := by
  unfold frameFromJson at h
  rw [bind_eq_ok] at h
  obtain ⟨units, -, h⟩ := h
  split at h
  · simp only [bind_eq_ok] at h
    obtain ⟨ub, hb, ue, he, _, -, off, ho, _, -, len, hl, _, -, _, -, digest, -, h⟩ := h
    cases h
    exact ⟨getArithmetic_lt hb, getArithmetic_lt he, getArithmetic_lt ho, getArithmetic_lt hl⟩
  · exact absurd h sfsErr_ne_ok

theorem tensorFromJson_inRange {tj : Json} {t : TensorDiff} (h : tensorFromJson tj = .ok t) : t.InRange := by
  unfold tensorFromJson at h
  simp only [bind_eq_ok] at h
  obtain ⟨_, -, name, -, _, -, shape, hshape, _, -, _, -, dtype, -, _, -, _, -, residual, -, _, -, _, -, transform, -, _,
    -, frames, hframes, h⟩ := h
  cases h
  constructor
  · intro d hd
    obtain ⟨v, -, hv⟩ := exists_of_mapM hshape hd
    exact getArithmetic_lt hv
  · intro f hf
    obtain ⟨v, -, hv⟩ := exists_of_mapM hframes hf
    exact frameFromJson_inRange hv

end DiffHeader

/-- What is read from an artifact fits the types it is read into, and the payload is part of the artifact. -/
theorem parseDiffArtifact_inRange {json : JsonLib} {bytes : Bytes} {view : DiffArtifactView}
    (h : parseDiffArtifact json bytes = .ok view) : view.header.permutation.InRange ∧
      (∀ t ∈ view.header.tensors, t.InRange) ∧ view.payload.length ≤ bytes.length := by
  unfold parseDiffArtifact at h
  split at h
  · exact absurd h sfsErr_ne_ok
  · dsimp only at h
    split at h
    · exact absurd h sfsErr_ne_ok
    · split at h
      · cases h
      · rw [bind_eq_ok] at h
        obtain ⟨header, hheader, h⟩ := h
        cases h
        unfold DiffHeader.parse at hheader
        split at hheader
        · exact absurd hheader sfsErr_ne_ok
        · unfold DiffHeader.fromJson at hheader
          rw [bind_eq_ok] at hheader
          obtain ⟨magic, -, hheader⟩ := hheader
          split at hheader
          · exact absurd hheader sfsErr_ne_ok
          · simp only [bind_eq_ok] at hheader
            obtain ⟨_, -, version, -, _, -, group, -, _, -, _, -, codec, -, _, -, perm, hperm, _, -, tensors, htensors,
              alignable, -, alignment, -, hheader⟩ := hheader
            cases hheader
            refine ⟨DiffHeader.permutationRefFromJson_inRange hperm, fun t ht => ?_, ?_⟩
            · obtain ⟨v, -, hv⟩ := exists_of_mapM htensors ht
              exact DiffHeader.tensorFromJson_inRange hv
            · rw [List.length_drop]
              exact Nat.sub_le _ _
        · exact absurd hheader sfsErr_ne_ok

/-- Header and permutation are read without a stray access or an exception from these artifacts, and from no others. -/
theorem artifact_returns_iff (json : JsonLib) {bytes : Bytes} (hlen : bytes.length < 2 ^ 63) :
    Returns (parseDiffArtifact json bytes)
      (fun view => Returns (readPermutation view.header.permutation view.payload) fun _ => True) ↔
    ArtifactTyped json bytes ∧
      ∀ view, parseDiffArtifact json bytes = .ok view → view.header.permutation.Fits view.payload := by
  have hperm {view : DiffArtifactView} (h : parseDiffArtifact json bytes = .ok view) :
      Returns (readPermutation view.header.permutation view.payload) (fun _ => True) ↔
        view.header.permutation.Fits view.payload := by
    obtain ⟨hrange, -, hpayload⟩ := parseDiffArtifact_inRange h
    exact readPermutation_returns_iff hrange (hpayload.trans_lt hlen)
  rw [← parseDiffArtifact_returns_iff json hlen]
  constructor
  · intro h
    exact ⟨h.mono fun _ _ _ => trivial, fun view hview => (hperm hview).mp (h.of_ok hview)⟩
  · rintro ⟨hparse, hfits⟩
    exact hparse.mono fun view hview _ => (hperm hview).mpr (hfits view hview)

end SynapseFs.Format
