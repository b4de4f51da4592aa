import SynapseFs.Core.Oid
import SynapseFs.Lib.Blocks

/-! The vendored SHA-256.

`Sha256` hashes in pieces: `update` is the block absorber of `Lib.Blocks`, and
`finalize` pads through `update` as well, a byte at a time. `finalize_pieces`
says that this is the hash of the whole message as the standard states it: the
message padded to full blocks, the compression folded over them. The compression
itself (`process`) is the same function in both. -/
namespace SynapseFs.Stio
open Lib Core

/-! ### Compression -/

structure HashWords where
  a : UInt32
  b : UInt32
  c : UInt32
  d : UInt32
  e : UInt32
  f : UInt32
  g : UInt32
  h : UInt32
  deriving DecidableEq, Repr

namespace Sha256

def rotr (x n : UInt32) : UInt32 := (x >>> n) ||| (x <<< (32 - n))

def initial : HashWords :=
  ⟨0x6a09e667, 0xbb67ae85, 0x3c6ef372, 0xa54ff53a, 0x510e527f, 0x9b05688c, 0x1f83d9ab, 0x5be0cd19⟩

def kK : List UInt32 := [
  0x428a2f98, 0x71374491, 0xb5c0fbcf, 0xe9b5dba5, 0x3956c25b, 0x59f111f1, 0x923f82a4, 0xab1c5ed5,
  0xd807aa98, 0x12835b01, 0x243185be, 0x550c7dc3, 0x72be5d74, 0x80deb1fe, 0x9bdc06a7, 0xc19bf174,
  0xe49b69c1, 0xefbe4786, 0x0fc19dc6, 0x240ca1cc, 0x2de92c6f, 0x4a7484aa, 0x5cb0a9dc, 0x76f988da,
  0x983e5152, 0xa831c66d, 0xb00327c8, 0xbf597fc7, 0xc6e00bf3, 0xd5a79147, 0x06ca6351, 0x14292967,
  0x27b70a85, 0x2e1b2138, 0x4d2c6dfc, 0x53380d13, 0x650a7354, 0x766a0abb, 0x81c2c92e, 0x92722c85,
  0xa2bfe8a1, 0xa81a664b, 0xc24b8b70, 0xc76c51a3, 0xd192e819, 0xd6990624, 0xf40e3585, 0x106aa070,
  0x19a4c116, 0x1e376c08, 0x2748774c, 0x34b0bcb5, 0x391c0cb3, 0x4ed8aa4a, 0x5b9cca4f, 0x682e6ff3,
  0x748f82ee, 0x78a5636f, 0x84c87814, 0x8cc70208, 0x90befffa, 0xa4506ceb, 0xbef9a3f7, 0xc67178f2]

/-- The big-endian word at `i`. -/
def wordAt (block : Bytes) (i : Nat) : UInt32 :=
  ((block.getD (i * 4) 0).toUInt32 <<< 24) ||| ((block.getD (i * 4 + 1) 0).toUInt32 <<< 16) |||
    ((block.getD (i * 4 + 2) 0).toUInt32 <<< 8) ||| (block.getD (i * 4 + 3) 0).toUInt32

def expand (w : List UInt32) (i : Nat) : List UInt32 :=
  let w15 := w.getD (i - 15) 0
  let w2 := w.getD (i - 2) 0
  let s0 := rotr w15 7 ^^^ rotr w15 18 ^^^ (w15 >>> 3)
  let s1 := rotr w2 17 ^^^ rotr w2 19 ^^^ (w2 >>> 10)
  w ++ [w.getD (i - 16) 0 + s0 + w.getD (i - 7) 0 + s1]

def schedule (block : Bytes) : List UInt32 := (List.range' 16 48).foldl expand ((List.range 16).map (wordAt block))

def round (s : HashWords) (k w : UInt32) : HashWords :=
  let s1 := rotr s.e 6 ^^^ rotr s.e 11 ^^^ rotr s.e 25
  let ch := (s.e &&& s.f) ^^^ (~~~s.e &&& s.g)
  let t1 := s.h + s1 + ch + k + w
  let s0 := rotr s.a 2 ^^^ rotr s.a 13 ^^^ rotr s.a 22
  let maj := (s.a &&& s.b) ^^^ (s.a &&& s.c) ^^^ (s.b &&& s.c)
  let t2 := s0 + maj
  ⟨t1 + t2, s.a, s.b, s.c, s.d + t1, s.e, s.f, s.g⟩

def process (s : HashWords) (block : Bytes) : HashWords :=
  let r := (kK.zip (schedule block)).foldl (fun s kw => round s kw.1 kw.2) s
  ⟨s.a + r.a, s.b + r.b, s.c + r.c, s.d + r.d, s.e + r.e, s.f + r.f, s.g + r.g, s.h + r.h⟩

/-- A word, most significant byte first. -/
def wordBytes (w : UInt32) : Bytes := [(w >>> 24).toUInt8, (w >>> 16).toUInt8, (w >>> 8).toUInt8, w.toUInt8]

def output (s : HashWords) : Bytes := [s.a, s.b, s.c, s.d, s.e, s.f, s.g, s.h].flatMap wordBytes

/-- `bit_len >> (56 - 8 * i)`, for each of eight bytes. -/
def lengthBytes (bitLen : Nat) : Bytes := (storeLe 8 bitLen).reverse

end Sha256

/-! ### In pieces -/

structure Sha256 where
  words : HashWords
  buf : Bytes
  totalLen : Nat

namespace Sha256

def reset : Sha256 := ⟨initial, [], 0⟩

def update (s : Sha256) (data : Bytes) : Sha256 :=
  let (words, buf) := Blocks.absorb process 64 data.length (s.words, s.buf) data
  { words, buf, totalLen := u64 (s.totalLen + data.length) }

/-- `while (buf_len_ != 56) update(&zero, 1)`. -/
def padZeros : Nat → Sha256 → Sha256
  | 0, s => s
  | fuel + 1, s => if s.buf.length = 56 then s else padZeros fuel (s.update [0])

def finalize (s : Sha256) : Bytes :=
  let bitLen := u64 (s.totalLen * 8)
  let s := s.update [0x80]
  let s := padZeros 64 s
  let s := s.update (lengthBytes bitLen)
  output s.words

end Sha256

def hex (b : Bytes) : String := String.ofList (hexEncode b)

/-! ### The whole message -/

namespace Sha256

/-- The zero bytes between the delimiter and the length. -/
def zeroCount (len : Nat) : Nat := (119 - len % 64) % 64

/-- The delimiter, the fewest zeros that leave room, the length in bits. -/
def padded (message : Bytes) : Bytes :=
  message ++ [0x80] ++ List.replicate (zeroCount message.length) 0 ++ lengthBytes (u64 (message.length * 8))

/-- The hash of a message: the compression folded over the blocks of it, padded. -/
def hash (message : Bytes) : Bytes :=
  output ((List.range ((padded message).length / 64)).foldl (fun s i => process s (unit (padded message) 64 i)) initial)

theorem length_lengthBytes (n : Nat) : (lengthBytes n).length = 8 := by
  rw [lengthBytes, List.length_reverse, length_storeLe]

/-- Where a hasher stands that has been given `all`, the length apart. -/
def Absorbed (s : Sha256) (all : Bytes) : Prop := (s.words, s.buf) = Blocks.fed process 64 initial all

theorem reset_absorbed : Absorbed reset [] := (Blocks.fed_short _ _ (by decide)).symm

theorem update_absorbed {s : Sha256} {all : Bytes} (data : Bytes) (h : Absorbed s all) :
    Absorbed (s.update data) (all ++ data) := by
  have hrest := Blocks.fed_rest_lt process (by decide : 0 < 64) initial all
  have hpiece := Blocks.absorb_eq process (by decide : 0 < 64) data.length (Blocks.fed process 64 initial all).1 hrest
    (le_refl data.length)
  rw [Blocks.fed_append process (by decide), Prod.mk.eta, ← h] at hpiece
  unfold Absorbed update
  rw [← hpiece]

/-- The buffer holds what is behind the full blocks. -/
theorem Absorbed.length_buf {s : Sha256} {all : Bytes} (h : Absorbed s all) : s.buf.length = all.length % 64 := by
  have hbuf := congrArg Prod.snd h
  dsimp only at hbuf
  have := Nat.div_add_mod' all.length 64
  rw [hbuf, Blocks.fed, List.length_drop]
  omega

/-- The loop stops behind the fewest zeros that fill the buffer up to its length field. -/
theorem padZeros_absorbed (n : Nat) : ∀ {s : Sha256} {all : Bytes} {fuel : Nat}, Absorbed s all → n ≤ fuel →
    (120 - all.length % 64) % 64 = n → Absorbed (padZeros (fuel + 1) s) (all ++ List.replicate n 0) := by
  induction n with
  | zero =>
    intro s all fuel h _ hn
    have hfull : s.buf.length = 56 := by
      rw [h.length_buf]
      omega
    rw [padZeros, if_pos hfull, List.replicate_zero, List.append_nil]
    exact h
  | succ n ih =>
    intro s all fuel h hfuel hn
    have hopen : s.buf.length ≠ 56 := by
      rw [h.length_buf]
      omega
    obtain ⟨fuel, rfl⟩ : ∃ k, fuel = k + 1 := ⟨fuel - 1, by omega⟩
    have hnext := @ih _ _ fuel (update_absorbed [0] h) (by omega)
      (by rw [List.length_append, List.length_singleton]; omega)
    rw [padZeros, if_neg hopen]
    rwa [List.append_assoc, List.singleton_append, ← List.replicate_succ] at hnext

theorem totalLen_update (s : Sha256) (data : Bytes) : (s.update data).totalLen = u64 (s.totalLen + data.length) := rfl

/-- Finalizing is the hash of what has been given, whose length has not wrapped. -/
theorem finalize_absorbed {s : Sha256} {all : Bytes} (h : Absorbed s all) (hlen : s.totalLen = all.length) :
    s.finalize = hash all := by
  have hpad := @padZeros_absorbed (zeroCount all.length) _ _ 63 (update_absorbed [0x80] h)
    (by unfold zeroCount; omega) (by rw [List.length_append, List.length_singleton, zeroCount]; omega)
  have hall := update_absorbed (lengthBytes (u64 (all.length * 8))) hpad
  have hwords := congrArg Prod.fst hall
  dsimp only at hwords
  unfold finalize
  dsimp only
  rw [hlen, hwords]
  rfl

/-- The pieces of a message, one update each. -/
theorem updates_absorbed (pieces : List Bytes) : ∀ {s : Sha256} {all : Bytes}, Absorbed s all →
    s.totalLen = all.length → (all ++ pieces.flatten).length < 2 ^ 64 →
      Absorbed (pieces.foldl update s) (all ++ pieces.flatten) ∧
        (pieces.foldl update s).totalLen = (all ++ pieces.flatten).length := by
  induction pieces with
  | nil =>
    intro s all h hlen _
    rw [List.flatten_nil, List.append_nil]
    exact ⟨h, hlen⟩
  | cons piece rest ih =>
    intro s all h hlen hword
    rw [List.flatten_cons, ← List.append_assoc] at hword ⊢
    rw [List.foldl_cons]
    have htotal : (s.update piece).totalLen = (all ++ piece).length := by
      rw [List.length_append] at hword
      rw [totalLen_update, hlen, ← List.length_append, u64_of_lt (by omega)]
    exact ih (update_absorbed piece h) htotal hword

/-- Hashing in pieces is hashing the message they make up. -/
theorem finalize_pieces (pieces : List Bytes) (hlen : pieces.flatten.length < 2 ^ 64) :
    (pieces.foldl update reset).finalize = hash pieces.flatten := by
  obtain ⟨habs, htotal⟩ := updates_absorbed pieces reset_absorbed rfl (by rw [List.nil_append]; exact hlen)
  rw [List.nil_append] at habs htotal
  exact finalize_absorbed habs htotal

example : hex (hash [0x61, 0x62, 0x63]) = "ba7816bf8f01cfea414140de5dae2223b00361a396177a9cb410ff61f20015ad" := by
  decide +kernel

end Sha256

end SynapseFs.Stio
