import SynapseFs.Format.Commit
import SynapseFs.Store.Journal

/-! How a journal record is written: a length word, the record's JSON, and the
digest of it, so that a write that was cut short is recognised.

The length is compared in 32 bits, `4u + len`, and that is what both slices are
guarded by: a length near `2 ^ 32` wraps to a sum below 4, and a file of that
size has already been refused as too short. -/
namespace SynapseFs.Store
open Lib Core Format

namespace JournalRecord

def oidText (o : Option Oid) : String :=
  match o with
  | some o => o.toString
  | none => ""

def toJson (r : JournalRecord) : Json :=
  .mkObj
    [("format_version", .uint r.formatVersion),
     ("op", .str (if r.op = .merge then "merge" else "pack")),
     ("seq", .uint r.seq),
     ("timestamp", .str r.timestamp),
     ("ref_name", .str r.refName),
     ("ref_old", .str (oidText r.refOld)),
     ("ref_new", .str (oidText r.refNew)),
     ("pack_name", .str r.packName),
     ("subsumed", .arr (r.subsumed.map fun o => .str o.toString))]

/-- `[4-byte length][payload][32-byte digest of payload]`. -/
def frame (blake3 : Bytes → Oid) (payload : Bytes) : Bytes :=
  storeLe 4 (u32 payload.length) ++ (payload ++ digest blake3 payload)

def encode (json : JsonLib) (blake3 : Bytes → Oid) (r : JournalRecord) : Bytes := frame blake3 (json.dump r.toJson)

/-- `std::span::subspan`, which checks nothing. -/
def subspan (bytes : Bytes) (off count : Nat) : Outcome Bytes :=
  if bytes.length < off + count then .error (.undefined "subspan outside the record") else .ok (slice bytes off count)

/-- The part of `decode` that takes the frame off. -/
def unframe (blake3 : Bytes → Oid) (bytes : Bytes) : Outcome Bytes :=
  let len := loadLe (bytes.take 4)
  if bytes.length < 4 + kOidBytes then sfsErr .journalTorn "journal record shorter than framing overhead" ""
  else if bytes.length ≠ u32 (4 + len) + kOidBytes then
    sfsErr .journalTorn "journal record length does not match frame" ""
  else do
    let payload ← subspan bytes 4 len
    let stored ← subspan bytes (u32 (4 + len)) kOidBytes
    if digest blake3 payload ≠ stored then sfsErr .journalTorn "journal record digest mismatch (torn write)" ""
    else return payload

/-- An oid that may be missing is an empty string. -/
def oidOfText (s : String) : Outcome (Option Oid) :=
  if s = "" then .ok none else do return some (← Oid.parse s)

def subsumedFromJson (j : Json) : Outcome (List Oid) :=
  if j.contains "subsumed" then do
    let items ← j.atKey "subsumed"
    items.items.mapM Commit.oidField
  else .ok []

def fromJson (j : Json) : Outcome JournalRecord := do
  let formatVersion ← (← j.atKey "format_version").getU32
  let op ← (← j.atKey "op").getStr
  let seq ← (← j.atKey "seq").getU64
  let timestamp ← (← j.atKey "timestamp").getStr
  let refName ← j.valueOr "ref_name" Json.getStr ""
  let refOld ← oidOfText (← j.valueOr "ref_old" Json.getStr "")
  let refNew ← oidOfText (← j.valueOr "ref_new" Json.getStr "")
  let packName ← j.valueOr "pack_name" Json.getStr ""
  let subsumed ← subsumedFromJson j
  return { formatVersion, op := if op = "merge" then .merge else .pack, seq, timestamp, refName, refOld, refNew,
           packName, subsumed }

def decode (json : JsonLib) (blake3 : Bytes → Oid) (bytes : Bytes) : Outcome JournalRecord := do
  let payload ← unframe blake3 bytes
  match json.parse payload with
  | .error what => sfsErr .journalTorn ("journal record JSON parse failed: " ++ what) ""
  | .ok j => catching (fromJson j) fun what => sfsErr .journalTorn ("journal record field error: " ++ what) ""

/-! ### The frame -/

theorem length_frame (blake3 : Bytes → Oid) (payload : Bytes) :
    (frame blake3 payload).length = 4 + payload.length + kOidBytes := by
  simp only [frame, List.length_append, length_storeLe, length_digest]
  omega

/-- A sum that wraps is too small for the file to be long enough. -/
theorem no_wrap {size len : Nat} (hlen : len < 2 ^ 32) (hsize : 4 + kOidBytes ≤ size)
    (heq : size = u32 (4 + len) + kOidBytes) : u32 (4 + len) = 4 + len := by
  unfold u32 at heq ⊢
  omega

theorem loadLe_take_lt (bytes : Bytes) : loadLe (bytes.take 4) < 2 ^ 32 := by
  calc loadLe (bytes.take 4) < 256 ^ (bytes.take 4).length := loadLe_lt _
    _ ≤ 256 ^ 4 := Nat.pow_le_pow_right (by decide) (by rw [List.length_take]; exact Nat.min_le_left _ _)
    _ = 2 ^ 32 := by decide

theorem subspan_ok {bytes : Bytes} {off count : Nat} (h : off + count ≤ bytes.length) :
    subspan bytes off count = .ok (slice bytes off count) :=
  if_neg (Nat.not_lt.mpr h)

/-- Both slices are inside, and what comes out is the payload of a whole frame. -/
theorem unframe_returns (blake3 : Bytes → Oid) (bytes : Bytes) :
    Returns (unframe blake3 bytes) fun payload => bytes = frame blake3 payload := by
  have hlt := loadLe_take_lt bytes
  unfold unframe
  generalize hlen : loadLe (bytes.take 4) = len at *
  dsimp only
  split
  · exact returns_sfsErr _ _ _
  · next hshort =>
    split
    · exact returns_sfsErr _ _ _
    · next hsize =>
      have heq := not_not.mp hsize
      have hsum := no_wrap hlt (Nat.not_lt.mp hshort) heq
      rw [hsum] at heq ⊢
      rw [subspan_ok (by omega), subspan_ok (by omega)]
      show Returns (if _ then _ else _) _
      split
      · exact returns_sfsErr _ _ _
      · next hdigest =>
        have hword : storeLe 4 (u32 (slice bytes 4 len).length) = slice bytes 0 4 := by
          have htake : (bytes.take 4).length = 4 := by
            rw [List.length_take]
            omega
          have hback := storeLe_loadLe (bytes.take 4)
          rw [htake, hlen] at hback
          rw [length_slice, Nat.min_eq_left (by omega), u32_of_lt hlt, hback]
          rfl
        show bytes = frame blake3 (slice bytes 4 len)
        rw [frame, hword, not_not.mp hdigest, slice_append_slice,
          show slice bytes 4 (len + kOidBytes) = slice bytes (0 + 4) (len + kOidBytes) from rfl, slice_append_slice,
          show 4 + (len + kOidBytes) = bytes.length by omega, slice_full]

theorem take_frame (blake3 : Bytes → Oid) {payload : Bytes} (h : payload.length < 2 ^ 32) :
    loadLe ((frame blake3 payload).take 4) = payload.length := by
  rw [frame, List.take_left' (length_storeLe 4 _), u32_of_lt h, loadLe_storeLe_of_lt (by omega)]

theorem unframe_frame (blake3 : Bytes → Oid) {payload : Bytes} (h : payload.length < 2 ^ 32 - 4) :
    unframe blake3 (frame blake3 payload) = .ok payload := by
  have hlen := length_frame blake3 payload
  unfold unframe
  dsimp only
  rw [take_frame blake3 (by omega), u32_of_lt (by omega), hlen, if_neg (by omega), if_neg (not_not.mpr rfl),
    subspan_ok (by omega), subspan_ok (by omega)]
  have hpayload : slice (frame blake3 payload) 4 payload.length = payload :=
    slice_middle _ _ _ (length_storeLe 4 _) rfl
  have hdigest : slice (frame blake3 payload) (4 + payload.length) kOidBytes = digest blake3 payload := by
    rw [slice_all _ _ (by omega), ← List.drop_drop, frame, List.drop_left' (length_storeLe 4 _), List.drop_left]
  rw [hpayload, hdigest]
  exact if_neg (not_not.mpr rfl)

/-- Bytes that start as a frame does, and are shorter or longer than it says. -/
theorem unframe_torn (blake3 : Bytes → Oid) {bytes : Bytes} {n : Nat} (hn : n < 2 ^ 32 - 4)
    (hword : 4 ≤ bytes.length → loadLe (bytes.take 4) = n) (hsize : bytes.length ≠ 4 + n + kOidBytes) :
    ∃ what, unframe blake3 bytes = sfsErr .journalTorn what "" := by
  unfold unframe
  dsimp only
  by_cases hshort : bytes.length < 4 + kOidBytes
  · exact ⟨_, if_pos hshort⟩
  · rw [if_neg hshort, hword (by omega), u32_of_lt (by omega), if_pos hsize]
    exact ⟨_, rfl⟩

/-- Any truncation and any extension. -/
theorem unframe_cut (blake3 : Bytes → Oid) {payload bytes : Bytes} (h : payload.length < 2 ^ 32 - 4)
    (hne : bytes ≠ frame blake3 payload) (hcut : bytes <+: frame blake3 payload ∨ frame blake3 payload <+: bytes) :
    ∃ what, unframe blake3 bytes = sfsErr .journalTorn what "" := by
  have hlen := length_frame blake3 payload
  refine unframe_torn blake3 h (fun hfour => ?_) ?_
  · rw [← take_frame blake3 (by omega)]
    rcases hcut with ⟨rest, he⟩ | ⟨rest, he⟩
    · rw [← he, List.take_append_of_le_length hfour]
    · rw [← he, List.take_append_of_le_length (by omega)]
  · intro hsize
    rcases hcut with hcut | hcut
    · exact hne (hcut.eq_of_length (by omega))
    · exact hne (hcut.eq_of_length (by omega)).symm

/-! ### The fields -/

/-- The numbers fit their types. -/
structure InRange (r : JournalRecord) : Prop where
  formatVersion : r.formatVersion < 2 ^ 32
  seq : r.seq < 2 ^ 64

theorem oidOfText_oidText (o : Option Oid) : oidOfText (oidText o) = .ok o := by
  cases o with
  | none => rfl
  | some o =>
    have hne : o.toString ≠ "" := fun h => by
      have hparse := Oid.parse_toString o
      rw [h] at hparse
      cases hparse
    show oidOfText o.toString = _
    unfold oidOfText
    rw [if_neg hne, Oid.parse_toString]
    rfl

theorem subsumedFromJson_mkObj {fields : List (String × Json)} (subsumed : List Oid)
    (h : fields.reverse.lookup "subsumed" = some (.arr (subsumed.map fun o => .str o.toString))) :
    subsumedFromJson (.mkObj fields) = .ok subsumed := by
  unfold subsumedFromJson
  rw [if_pos (Json.contains_mkObj h)]
  refine bind_eq_ok.mpr ⟨_, Json.atKey_mkObj h, mapM_map_eq_ok _ fun o _ => ?_⟩
  exact bind_eq_ok.mpr ⟨o.toString, rfl, Oid.parse_toString o⟩

theorem fromJson_toJson {r : JournalRecord} (h : r.InRange) : fromJson r.toJson = .ok r := by
  unfold fromJson toJson
  refine bind_eq_ok.mpr ⟨_, Json.atKey_mkObj rfl, bind_eq_ok.mpr ⟨_, Json.getU32_uint h.formatVersion, ?_⟩⟩
  refine bind_eq_ok.mpr ⟨_, Json.atKey_mkObj rfl, bind_eq_ok.mpr ⟨_, rfl, ?_⟩⟩
  refine bind_eq_ok.mpr ⟨_, Json.atKey_mkObj rfl, bind_eq_ok.mpr ⟨_, Json.getU64_uint h.seq, ?_⟩⟩
  refine bind_eq_ok.mpr ⟨_, Json.atKey_mkObj rfl, bind_eq_ok.mpr ⟨_, rfl, ?_⟩⟩
  refine bind_eq_ok.mpr ⟨_, Json.valueOr_mkObj rfl rfl, ?_⟩
  refine bind_eq_ok.mpr ⟨_, Json.valueOr_mkObj rfl rfl, bind_eq_ok.mpr ⟨_, oidOfText_oidText _, ?_⟩⟩
  refine bind_eq_ok.mpr ⟨_, Json.valueOr_mkObj rfl rfl, bind_eq_ok.mpr ⟨_, oidOfText_oidText _, ?_⟩⟩
  refine bind_eq_ok.mpr ⟨_, Json.valueOr_mkObj rfl rfl, ?_⟩
  refine bind_eq_ok.mpr ⟨_, subsumedFromJson_mkObj _ rfl, ?_⟩
  obtain ⟨formatVersion, op, seq, timestamp, refName, refOld, refNew, packName, subsumed⟩ := r
  cases op <;> rfl

theorem decode_encode {json : JsonLib} (blake3 : Bytes → Oid) {r : JournalRecord} (hr : r.InRange)
    (hread : json.parse (json.dump r.toJson) = .ok r.toJson) (hlen : (json.dump r.toJson).length < 2 ^ 32 - 4) :
    decode json blake3 (r.encode json blake3) = .ok r := by
  refine bind_eq_ok.mpr ⟨_, unframe_frame blake3 hlen, ?_⟩
  rw [hread]
  exact (catching_eq_ok fun _ => sfsErr_ne_ok).mpr (fromJson_toJson hr)

theorem decode_torn {json : JsonLib} {blake3 : Bytes → Oid} {bytes : Bytes}
    (h : ∃ what, unframe blake3 bytes = sfsErr .journalTorn what "") :
    ∃ what, decode json blake3 bytes = sfsErr .journalTorn what "" := by
  obtain ⟨what, h⟩ := h
  unfold decode
  rw [h]
  exact ⟨what, rfl⟩

/-- A record comes back from its bytes; bytes that were cut short or that go on
are refused as torn; and of no bytes at all is anything read outside. -/
theorem record_framing (json : JsonLib) (blake3 : Bytes → Oid) :
    (∀ r : JournalRecord, r.InRange → json.parse (json.dump r.toJson) = .ok r.toJson →
      (json.dump r.toJson).length < 2 ^ 32 - 4 → decode json blake3 (r.encode json blake3) = .ok r) ∧
    (∀ r : JournalRecord, (json.dump r.toJson).length < 2 ^ 32 - 4 → ∀ bytes, bytes ≠ r.encode json blake3 →
      (bytes <+: r.encode json blake3 ∨ r.encode json blake3 <+: bytes) →
        ∃ what, decode json blake3 bytes = sfsErr .journalTorn what "") ∧
    ∀ bytes, Returns (unframe blake3 bytes) fun payload => bytes = frame blake3 payload := by
  refine ⟨fun r hr hread hlen => decode_encode blake3 hr hread hlen, fun r hlen bytes hne hcut => ?_, ?_⟩
  · exact decode_torn (unframe_cut blake3 hlen hne hcut)
  · exact unframe_returns blake3

/-! A record of a ref that had no value. -/

def newRefRecord : JournalRecord :=
  { op := .merge, timestamp := "2024-01-01T00:00:00Z", refName := "main",
    refOld := none, refNew := some (.fill 1) }

def newRefText : Bytes :=
  asciiOf ["\x7b\"format_version\":1,\"op\":\"merge\",\"pack_name\":\"\",\"ref_name\":\"main\",",
    "\"ref_new\":\"b3:0101010101010101010101010101010101010101010101010101010101010101\",",
    "\"ref_old\":\"\",\"seq\":0,\"subsumed\":[],\"timestamp\":\"2024-01-01T00:00:00Z\"\x7d"]

/-- The digest of that text. -/
def newRefDigest : Oid :=
  ⟨[160, 71, 227, 236, 133, 104, 236, 10, 184, 201, 150, 95, 63, 109, 61, 49,
    116, 148, 139, 79, 115, 101, 20, 254, 89, 12, 232, 112, 130, 231, 127, 233], rfl⟩

theorem length_newRefText : newRefText.length ≤ 255 * 3 := by
  iterate 3 refine length_asciiOf_le (by decide) ?_
  exact Nat.le_refl _

theorem newRef_framing : decode (.sole newRefRecord.toJson newRefText) (fun _ => newRefDigest)
    (newRefRecord.encode (.sole newRefRecord.toJson newRefText) fun _ => newRefDigest) = .ok newRefRecord := by
  have hlen : newRefText.length < 2 ^ 32 - 4 := length_newRefText.trans_lt (by decide)
  exact (record_framing _ _).1 newRefRecord ⟨by decide, by decide⟩ (JsonLib.sole_parse _ _) hlen

end JournalRecord

end SynapseFs.Store
