import SynapseFs.Lib.Bytes
import SynapseFs.Core.Error

/-! Object identifiers: BLAKE3-256 over an object's framed bytes.

BLAKE3 itself is not part of the tree, so it is a parameter: a function from byte
strings to 32-byte digests. What is hashed is modelled exactly (`framePrefix`,
`computeOid`), and so is the text form `b3:<64 hex>` that ref files and JSON
objects carry. -/
namespace SynapseFs.Core
open Lib

/-- The enumerator is the byte the loose-object container stores. -/
inductive ObjectKind where
  | raw | diff | header | manifest | commit | topology | tree
  deriving DecidableEq, Repr

namespace ObjectKind

def toByte : ObjectKind → UInt8
  | raw => 0 | diff => 1 | header => 2 | manifest => 3 | commit => 4 | topology => 5 | tree => 6

def tag : ObjectKind → String
  | raw => "raw" | diff => "diff" | header => "header" | manifest => "manifest"
  | commit => "commit" | topology => "topology" | tree => "tree"

theorem toByte_inj {a b : ObjectKind} (h : a.toByte = b.toByte) : a = b := by
  revert h
  cases a <;> cases b <;> decide

end ObjectKind

def kOidBytes : Nat := 32
def kOidHexChars : Nat := 64

structure Oid where
  bytes : Bytes
  length_eq : bytes.length = kOidBytes
  deriving DecidableEq, Repr

/-- `Oid{}`. -/
def zeroOid : Oid := ⟨List.replicate 32 0, rfl⟩

/-- One byte throughout. -/
def Oid.fill (n : UInt8) : Oid := ⟨List.replicate 32 n, List.length_replicate⟩

theorem Oid.ext {a b : Oid} (h : a.bytes = b.bytes) : a = b := by
  cases a
  cases b
  cases h
  rfl

/-! ### Text form -/

def hexDigit (n : Nat) : Char := "0123456789abcdef".toList.getD n '0'

/-- Both cases are accepted on input. -/
def hexNibble (c : Char) : Option Nat :=
  if '0' ≤ c ∧ c ≤ '9' then some (c.toNat - '0'.toNat)
  else if 'a' ≤ c ∧ c ≤ 'f' then some (c.toNat - 'a'.toNat + 10)
  else if 'A' ≤ c ∧ c ≤ 'F' then some (c.toNat - 'A'.toNat + 10)
  else none

def hexEncode : Bytes → List Char
  | [] => []
  | b :: rest => hexDigit (b.toNat / 16) :: hexDigit (b.toNat % 16) :: hexEncode rest

def hexDecode : List Char → Option Bytes
  | [] => some []
  | [_] => none
  | hi :: lo :: rest => do
    let h ← hexNibble hi
    let l ← hexNibble lo
    let tail ← hexDecode rest
    return UInt8.ofNat (h * 16 + l) :: tail

theorem hexNibble_hexDigit : ∀ n < 16, hexNibble (hexDigit n) = some n := by decide

@[simp] theorem length_hexEncode (b : Bytes) : (hexEncode b).length = 2 * b.length := by
  induction b with
  | nil => rfl
  | cons x rest ih =>
    simp only [hexEncode, List.length_cons, ih]
    omega

theorem hexDecode_hexEncode (b : Bytes) : hexDecode (hexEncode b) = some b := by
  induction b with
  | nil => rfl
  | cons x rest ih =>
    have hx : x.toNat < 256 := x.toNat_lt
    have hhi := hexNibble_hexDigit (x.toNat / 16) (by omega)
    have hlo := hexNibble_hexDigit (x.toNat % 16) (by omega)
    have hjoin : UInt8.ofNat (x.toNat / 16 * 16 + x.toNat % 16) = x := by
      rw [Nat.div_add_mod', UInt8.ofNat_toNat]
    simp only [hexEncode, hexDecode, hhi, hlo, ih, hjoin, Option.bind_eq_bind, Option.bind_some, Option.pure_def]

theorem hexDigit_ne : ∀ n < 16, hexDigit n ≠ '\n' ∧ hexDigit n ≠ '\r' := by decide

theorem hexEncode_ne (b : Bytes) : ∀ c ∈ hexEncode b, c ≠ '\n' ∧ c ≠ '\r' := by
  induction b with
  | nil => exact nofun
  | cons x rest ih =>
    have hx : x.toNat < 256 := x.toNat_lt
    intro c hc
    rcases List.mem_cons.mp hc with rfl | hc
    · exact hexDigit_ne _ (by omega)
    · rcases List.mem_cons.mp hc with rfl | hc
      · exact hexDigit_ne _ (by omega)
      · exact ih c hc

theorem length_hexDecode : ∀ (s : List Char) (b : Bytes), hexDecode s = some b → 2 * b.length = s.length
  | [], b, h => by cases h; rfl
  | [_], b, h => by cases h
  | hi :: lo :: rest, b, h => by
    simp only [hexDecode, Option.bind_eq_bind, Option.bind_eq_some_iff, Option.pure_def] at h
    obtain ⟨_, _, _, _, tail, ht, hb⟩ := h
    have := length_hexDecode rest tail ht
    cases hb
    simp only [List.length_cons]
    omega

namespace Oid

/-- `"b3:" <64 hex>`, lower case. -/
def toString (o : Oid) : String := String.ofList ('b' :: '3' :: ':' :: hexEncode o.bytes)

def parse (s : String) : Outcome Oid :=
  if s.toList.length = 3 + kOidHexChars ∧ s.toList.take 3 = ['b', '3', ':'] then
    match hexDecode (s.toList.drop 3) with
    | some bytes =>
      if hlen : bytes.length = kOidBytes then .ok ⟨bytes, hlen⟩
      else sfsErr .malformedObject "invalid hex digit in oid" s
    | none => sfsErr .malformedObject "invalid hex digit in oid" s
  else sfsErr .malformedObject "oid must be \"b3:<64 hex>\"" s

theorem parse_toString (o : Oid) : parse o.toString = .ok o := by
  have hlen : (hexEncode o.bytes).length = kOidHexChars := by
    rw [length_hexEncode, o.length_eq]
    rfl
  unfold parse toString
  simp only [String.toList_ofList, List.length_cons, hlen, List.take_succ_cons, List.take_zero,
    List.drop_succ_cons, List.drop_zero]
  rw [if_pos ⟨by omega, trivial⟩, hexDecode_hexEncode]
  simp [o.length_eq]

theorem parse_fuel (s : String) : parse s ≠ .error .outOfFuel := by
  unfold parse
  split
  · split
    · split <;> exact nofun
    · exact nofun
  · exact nofun

theorem toString_inj {a b : Oid} (h : a.toString = b.toString) : a = b := by
  have := parse_toString a
  rw [h, parse_toString] at this
  cases this
  rfl

end Oid

/-! ### Addressing -/

/-- The bytes of an ASCII text. -/
def ascii (s : List Char) : Bytes := s.map fun c => UInt8.ofNat c.toNat

/-- The bytes of an ASCII text in pieces. -/
def asciiOf (pieces : List String) : Bytes := ascii (pieces.flatMap String.toList)

/-! The texts below are literals, and a literal is `String.ofList` of its characters. -/

theorem asciiOf_cons (l : List Char) (rest : List String) : asciiOf (String.ofList l :: rest) = ascii l ++ asciiOf rest := by
  rw [asciiOf, List.flatMap_cons, String.toList_ofList, ascii, List.map_append]
  rfl

theorem length_asciiOf_le {k : Nat} {l : List Char} {rest : List String} (hl : l.length ≤ 255)
    (hr : (asciiOf rest).length ≤ 255 * k) : (asciiOf (String.ofList l :: rest)).length ≤ 255 * (k + 1) := by
  rw [asciiOf_cons, List.length_append, ascii, List.length_map]
  omega

theorem asciiOf_ne_nil {c : Char} {l : List Char} {rest : List String} : asciiOf (String.ofList (c :: l) :: rest) ≠ [] := by
  rw [asciiOf_cons]
  exact List.cons_ne_nil _ _

theorem length_ascii_single {l : List Char} (hpos : 0 < l.length) (hl : l.length ≤ 255) :
    0 < (ascii (String.ofList l).toList).length ∧ (ascii (String.ofList l).toList).length ≤ 255 * 1 := by
  rw [String.toList_ofList, ascii, List.length_map]
  omega

/-- The length of a text that another piece is put behind. -/
theorem length_ascii_append {k : Nat} {a l : List Char} (hl : l.length ≤ 255)
    (ha : 0 < (ascii a).length ∧ (ascii a).length ≤ 255 * k) :
    0 < (ascii (a ++ (String.ofList l).toList)).length ∧ (ascii (a ++ (String.ofList l).toList)).length ≤ 255 * (k + 1) := by
  rw [String.toList_ofList, ascii, List.length_map, List.length_append]
  rw [ascii, List.length_map] at ha
  omega

/-- `"synapsefs." <kind> " " <decimal len> NUL`, into the 40-byte buffer of
`Hasher::begin_frame`; nothing is written when it does not fit. -/
def framePrefix (kind : ObjectKind) (len : Nat) : Bytes :=
  let text := "synapsefs.".toList ++ kind.tag.toList ++ [' '] ++ Nat.toDigits 10 len
  if text.length + 1 ≤ 40 then ascii text ++ [0] else []

/-- The addressing function: BLAKE3 of the framed payload. -/
def computeOid (blake3 : Bytes → Oid) (kind : ObjectKind) (payload : Bytes) : Oid :=
  blake3 (framePrefix kind payload.length ++ payload)

/-- `kind_tag` of a stored byte: a byte that names no enumerator has a tag as well. -/
def kindTag (kind : UInt8) : String :=
  match [ObjectKind.raw, .diff, .header, .manifest, .commit, .topology, .tree].find? fun k => k.toByte = kind with
  | some k => k.tag
  | none => "?"

def framePrefixOf (tag : String) (len : Nat) : Bytes :=
  let text := "synapsefs.".toList ++ tag.toList ++ [' '] ++ Nat.toDigits 10 len
  if text.length + 1 ≤ 40 then ascii text ++ [0] else []

/-- `compute_oid` of a kind as a file stores it. -/
def computeOidOf (blake3 : Bytes → Oid) (kind : UInt8) (payload : Bytes) : Oid :=
  blake3 (framePrefixOf (kindTag kind) payload.length ++ payload)

theorem computeOidOf_toByte (blake3 : Bytes → Oid) (kind : ObjectKind) (payload : Bytes) :
    computeOidOf blake3 kind.toByte payload = computeOid blake3 kind payload := by
  cases kind <;> rfl

/-- Unframed digest, for chunk and frame digests. -/
def digest (blake3 : Bytes → Oid) (data : Bytes) : Bytes := (blake3 data).bytes

@[simp] theorem length_digest (blake3 : Bytes → Oid) (data : Bytes) : (digest blake3 data).length = kOidBytes :=
  (blake3 data).length_eq

end SynapseFs.Core
