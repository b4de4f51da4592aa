import SynapseFs.Format.HeaderGuards
import SynapseFs.Format.StHeader

/-! When a safetensors header is read without an exception.

The header is also parsed from blocks of the store, which may hold anything. Only
the JSON text is parsed under a handler; the walk over the parsed value asks for
strings and numbers where it finds other things, and the sum of the length and its
eight bytes can wrap. `parseStHeader_returns_iff` says which inputs come back as a
header or an error. -/
namespace SynapseFs.Format
open Lib Core

/-- What the walk asks of a tensor's value; `rest` is about the fields behind it. -/
def StTensorTyped (v : Json) (rest : Prop) : Prop :=
  Field v "dtype" Json.getStr fun name => ∀ dtype, DType.fromString name = .ok dtype →
    (v.contains "shape" = true → ∃ shape, v.atKey "shape" = .ok shape ∧ ∀ d ∈ shape.items, ∃ n, d.getU64 = .ok n) ∧
    ∃ off, v.atKey "data_offsets" = .ok off ∧ ∀ b e, off = .arr [b, e] →
      ∃ first last, b.getU64 = .ok first ∧ e.getU64 = .ok last ∧ (first ≤ last → rest)

/-- A field that is no tensor is passed over. -/
def StFieldTyped (field : String × Json) (rest : Prop) : Prop :=
  if field.1 = "__metadata__" ∨ field.2.contains "dtype" = false ∨ field.2.contains "data_offsets" = false then rest
  else StTensorTyped field.2 rest

/-- The header's length does not wrap, and its fields are typed, if it is there to be read. -/
def StHeaderTyped (json : JsonLib) (bytes : Bytes) : Prop :=
  8 ≤ bytes.length → 8 + headerLen bytes < 2 ^ 64 ∧
    (0 < headerLen bytes → 8 + headerLen bytes ≤ bytes.length → ∀ fields,
      json.parse (slice bytes 8 (headerLen bytes)) = .ok (.obj fields) → fields.foldr StFieldTyped True)

theorem returns_dataOffsets (key : String) (off : Json) (rest : Prop) :
    Returns (dataOffsets key off) (fun _ => rest) ↔ ∀ b e, off = .arr [b, e] →
      ∃ first last, b.getU64 = .ok first ∧ e.getU64 = .ok last ∧ (first ≤ last → rest) := by
  unfold dataOffsets
  split
  · next b e =>
    rw [returns_bind, returns_iff_ok b.getU64_no_error]
    refine ⟨fun ⟨first, hb, h⟩ b' e' heq => ?_, fun h => ?_⟩
    · cases heq
      rw [returns_bind, returns_iff_ok e.getU64_no_error] at h
      obtain ⟨last, he, h⟩ := h
      refine ⟨first, last, hb, he, fun hle => ?_⟩
      rwa [if_neg (not_lt.mpr hle)] at h
    · obtain ⟨first, last, hb, he, h⟩ := h b e rfl
      refine ⟨first, hb, ?_⟩
      rw [returns_bind, he]
      show Returns (if last < first then _ else _) _
      split
      · exact returns_sfsErr _ _ _
      · next hle => exact h (not_lt.mp hle)
  · next hoff => exact ⟨fun _ b e heq => absurd heq (hoff b e), fun _ => returns_sfsErr _ _ _⟩

theorem returns_shape (v : Json) (rest : Prop) : Returns (shapeFromJson v) (fun _ => rest) ↔
    (v.contains "shape" = true → ∃ shape, v.atKey "shape" = .ok shape ∧ ∀ d ∈ shape.items, ∃ n, d.getU64 = .ok n) ∧
      rest := by
  unfold shapeFromJson
  by_cases h : v.contains "shape" = true
  · rw [if_pos h, returns_atKey]
    constructor
    · rintro ⟨shape, hshape, hret⟩
      obtain ⟨hitems, hrest⟩ := (returns_mapM_iff_ok Json.getU64_no_error _ _).mp hret
      exact ⟨fun _ => ⟨shape, hshape, hitems⟩, hrest⟩
    · rintro ⟨hshape, hrest⟩
      obtain ⟨shape, hshape, hitems⟩ := hshape h
      exact ⟨shape, hshape, (returns_mapM_iff_ok Json.getU64_no_error _ _).mpr ⟨hitems, hrest⟩⟩
  · rw [if_neg h]
    exact ⟨fun hrest => ⟨fun h' => absurd h' h, hrest⟩, fun ⟨_, hrest⟩ => hrest⟩

theorem returns_tensorMeta (headerExtent : Nat) (key : String) (v : Json) (rest : Prop) :
    Returns (tensorMetaFromJson headerExtent key v) (fun _ => rest) ↔ StTensorTyped v rest := by
  unfold tensorMetaFromJson StTensorTyped
  rw [returns_field Json.getStr_no_error]
  refine field_congr fun name => ?_
  rw [returns_bind, returns_of_errors (names_error.1 name)]
  refine forall_congr' fun dtype => imp_congr_right fun _ => ?_
  rw [returns_bind, ← returns_shape]
  refine returns_congr fun shape => ?_
  rw [returns_atKey]
  refine exists_congr fun off => and_congr_right fun _ => ?_
  rw [returns_bind, ← returns_dataOffsets key]
  exact returns_congr fun _ => Iff.rfl

theorem returns_addField (h : StHeader) (field : String × Json) (rest : Prop) :
    Returns (addField h field) (fun _ => rest) ↔ StFieldTyped field rest := by
  unfold addField StFieldTyped
  by_cases hmeta : field.1 = "__metadata__"
  · rw [if_pos hmeta, if_pos (.inl hmeta)]
    exact Iff.rfl
  · rw [if_neg hmeta]
    by_cases hskip : field.2.contains "dtype" = false ∨ field.2.contains "data_offsets" = false
    · have hbool : (!field.2.contains "dtype" || !field.2.contains "data_offsets") = true := by
        rcases hskip with hskip | hskip <;> rw [hskip] <;> simp
      rw [if_pos hbool, if_pos (Or.inr hskip)]
      exact Iff.rfl
    · rw [if_neg (not_or.mpr ⟨hmeta, hskip⟩), if_neg, returns_bind, ← returns_tensorMeta h.headerExtent field.1]
      · refine returns_congr fun t => ?_
        split <;> exact Iff.rfl
      · rw [not_or, Bool.not_eq_false, Bool.not_eq_false] at hskip
        rw [hskip.1, hskip.2]
        exact Bool.false_ne_true

/-- Which inputs come back as an error or as a header that lies in them. -/
theorem parseStHeader_returns_iff (json : JsonLib) {bytes : Bytes} (hlen : bytes.length < 2 ^ 64) :
    Returns (parseStHeader json bytes) (fun h => h.headerExtent ≤ bytes.length) ↔ StHeaderTyped json bytes := by
  have hextent : Returns (parseStHeader json bytes) (fun h => h.headerExtent ≤ bytes.length) ↔
      Returns (parseStHeader json bytes) fun _ => True :=
    ⟨fun h => h.mono fun _ _ _ => trivial, fun h => h.mono fun _ hok _ => (parseStHeader_ok hok).2.2.2⟩
  rw [hextent]
  unfold parseStHeader readHeaderLen StHeaderTyped
  by_cases hshort : bytes.length < 8
  · rw [if_pos hshort]
    exact ⟨fun _ h => absurd h (not_le.mpr hshort), fun _ => returns_sfsErr _ _ _⟩
  · have hlong := not_lt.mp hshort
    have hlt := headerLen_lt hlong
    rw [if_neg hshort, ← headerLen, returns_bind, returns_ok]
    by_cases hwrap : 8 + headerLen bytes < 2 ^ 64
    · rw [u64_of_lt hwrap]
      by_cases htrunc : headerLen bytes = 0 ∨ bytes.length < 8 + headerLen bytes
      · rw [if_pos htrunc]
        exact ⟨fun _ _ => ⟨hwrap, fun hpos hin => by omega⟩, fun _ => returns_sfsErr _ _ _⟩
      · rw [if_neg htrunc, if_neg (by omega)]
        have hin : 0 < headerLen bytes ∧ 8 + headerLen bytes ≤ bytes.length := by omega
        split
        · next what hparse =>
          refine ⟨fun _ _ => ⟨hwrap, fun _ _ fields h => ?_⟩, fun _ => returns_sfsErr _ _ _⟩
          cases hparse.symm.trans h
        · next fields hparse =>
          rw [returns_foldlM_foldr returns_addField]
          refine ⟨fun h _ => ⟨hwrap, fun _ _ fields' h' => ?_⟩, fun h => (h hlong).2 hin.1 hin.2 fields hparse⟩
          cases hparse.symm.trans h'
          exact h
        · next j hj hparse =>
          refine ⟨fun _ _ => ⟨hwrap, fun _ _ fields h => ?_⟩, fun _ => returns_sfsErr _ _ _⟩
          exact absurd (Except.ok.inj (hparse.symm.trans h)) (hj fields)
    · rw [headerEnd_wraps hlong hwrap, if_neg (by omega), if_pos (by omega)]
      exact ⟨fun h => h.elim, fun h => absurd (h hlong).1 hwrap⟩

/-- The header of two bytes of JSON, and no tensor in it. -/
theorem parse_emptyObject : Returns (parseStHeader ⟨fun _ => .ok (.obj []), fun _ => []⟩ (storeLe 8 2 ++ [0x7b, 0x7d]))
    fun h => h.headerExtent ≤ (storeLe 8 2 ++ [0x7b, 0x7d]).length :=
  (parseStHeader_returns_iff _ (by decide)).mpr fun _ => ⟨by decide, fun _ _ fields h => by cases h; trivial⟩

/-- A length that wraps is read past the end of its eight bytes, and a dtype that is a number throws. -/
theorem stHeader_unsafe :
    parseStHeader ⟨fun _ => .ok .null, fun _ => []⟩ (List.replicate 8 255) =
      .error (.undefined "string_view outside the file") ∧
    parseStHeader ⟨fun _ => .ok (.obj [("w", .obj [("data_offsets", .null), ("dtype", .uint 1)])]), fun _ => []⟩
        (storeLe 8 37 ++ ascii "\x7b\"w\":\x7b\"data_offsets\":null,\"dtype\":1\x7d\x7d".toList) =
      .error (.exception "[json.exception.type_error.302] type must be string, but is number") ∧
    ¬∀ (json : JsonLib) (bytes : Bytes), bytes.length < 2 ^ 64 →
      Returns (parseStHeader json bytes) fun h => h.headerExtent ≤ bytes.length := by
  have hwrap : parseStHeader ⟨fun _ => .ok .null, fun _ => []⟩ (List.replicate 8 255) =
      .error (.undefined "string_view outside the file") := by rfl
  refine ⟨hwrap, by rfl, fun h => ?_⟩
  have := h ⟨fun _ => .ok .null, fun _ => []⟩ (List.replicate 8 255) (by decide)
  rw [hwrap] at this
  exact this

end SynapseFs.Format
