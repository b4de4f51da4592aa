import Mathlib.Data.Nat.Prime.Basic
import Mathlib.Order.Bounds.Basic
import SynapseFs.Lib.Bytes

/-! SHA-256 as FIPS 180-4 states it: a message is a string of bits of any length
below `2 ^ 64`, words are 32 bits, the first bit of a string is the most significant.

The constants are not listed but computed: `roundConstants` are the first bits of the
fractional parts of the cube roots of the first 64 primes, `initialHash` those of the
square roots of the first eight (`root_spec`). Bytes are strings of eight bits, and
`unit_bitsOfBytes` takes blocks and words through that. -/
namespace SynapseFs.Lib.Fips180

abbrev Bits := List Bool

abbrev Word := BitVec 32

/-! ### Strings of bits -/

/-- The number that a string is. -/
def ofBits (s : Bits) : Nat := s.foldl (fun n b => 2 * n + b.toNat) 0

/-- The last `w` bits of a number. -/
def toBits : Nat → Nat → Bits
  | 0, _ => []
  | w + 1, n => n.testBit w :: toBits w n

def wordOf (s : Bits) : Word := BitVec.ofNat 32 (ofBits s)

def bitsOf (x : Word) : Bits := toBits 32 x.toNat

/-! ### Functions -/

def ch (x y z : Word) : Word := (x &&& y) ^^^ (~~~x &&& z)

def maj (x y z : Word) : Word := (x &&& y) ^^^ (x &&& z) ^^^ (y &&& z)

def bigSigma0 (x : Word) : Word := x.rotateRight 2 ^^^ x.rotateRight 13 ^^^ x.rotateRight 22

def bigSigma1 (x : Word) : Word := x.rotateRight 6 ^^^ x.rotateRight 11 ^^^ x.rotateRight 25

def smallSigma0 (x : Word) : Word := x.rotateRight 7 ^^^ x.rotateRight 18 ^^^ (x >>> 3)

def smallSigma1 (x : Word) : Word := x.rotateRight 17 ^^^ x.rotateRight 19 ^^^ (x >>> 10)

/-! ### Constants -/

/-- The first 64 primes. -/
def primes : List Nat := (List.range 312).filter fun p => p.Prime

/-- The bits of the `k`-th root of `n` below the `bits`-th, `r` being the ones above. -/
def rootFrom (k n : Nat) : Nat → Nat → Nat
  | 0, r => r
  | bits + 1, r => rootFrom k n bits (if (r + 2 ^ bits) ^ k ≤ n then r + 2 ^ bits else r)

/-- The `k`-th root of `n`, rounded down, when it has at most 40 bits. -/
def root (k n : Nat) : Nat := rootFrom k n 40 0

/-- The first 32 bits of the fractional part of the `k`-th root of `p`. -/
def rootBits (k p : Nat) : Word := BitVec.ofNat 32 (root k (p * 2 ^ (32 * k)))

def roundConstants : List Word := primes.map (rootBits 3)

/-- Eight words: a hash value, or the working variables. -/
structure Vars where
  a : Word
  b : Word
  c : Word
  d : Word
  e : Word
  f : Word
  g : Word
  h : Word
  deriving DecidableEq

def initialHash : Vars :=
  ⟨rootBits 2 2, rootBits 2 3, rootBits 2 5, rootBits 2 7, rootBits 2 11, rootBits 2 13, rootBits 2 17, rootBits 2 19⟩

/-! ### Preprocessing -/

/-- The zeros between the bit 1 and the length. -/
def zeros (len : Nat) : Nat := (447 + 512 - len % 512) % 512

def pad (m : Bits) : Bits := m ++ true :: (List.replicate (zeros m.length) false ++ toBits 64 m.length)

/-! ### Hash computation -/

/-- The message schedule of a block, whose words are `m 0` to `m 15`. -/
def schedule (m : Nat → Word) (t : Nat) : Word :=
  if t < 16 then m t
  else smallSigma1 (schedule m (t - 2)) + schedule m (t - 7) + smallSigma0 (schedule m (t - 15)) + schedule m (t - 16)

def step (k w : Word) (v : Vars) : Vars :=
  let t1 := v.h + bigSigma1 v.e + ch v.e v.f v.g + k + w
  let t2 := bigSigma0 v.a + maj v.a v.b v.c
  ⟨t1 + t2, v.a, v.b, v.c, v.d + t1, v.e, v.f, v.g⟩

def compress (hash : Vars) (block : Bits) : Vars :=
  let w := schedule fun t => wordOf (unit block 32 t)
  let v := (List.range 64).foldl (fun v t => step (roundConstants.getD t 0) (w t) v) hash
  ⟨v.a + hash.a, v.b + hash.b, v.c + hash.c, v.d + hash.d, v.e + hash.e, v.f + hash.f, v.g + hash.g, v.h + hash.h⟩

def hashBits (hash : Vars) : Bits := [hash.a, hash.b, hash.c, hash.d, hash.e, hash.f, hash.g, hash.h].flatMap bitsOf

def sha256 (m : Bits) : Bits :=
  hashBits ((List.range ((pad m).length / 512)).foldl (fun hash i => compress hash (unit (pad m) 512 i)) initialHash)

/-! ### What the definitions say -/

/-- The search keeps a lower bound, and what it adds up to is within one. -/
theorem rootFrom_spec (k n : Nat) : ∀ (bits r : Nat), r ^ k ≤ n → n < (r + 2 ^ bits) ^ k →
    (rootFrom k n bits r) ^ k ≤ n ∧ n < (rootFrom k n bits r + 1) ^ k := by
  intro bits
  induction bits with
  | zero => exact fun r hle hlt => ⟨hle, hlt⟩
  | succ bits ih =>
    intro r hle hlt
    rw [rootFrom]
    split
    · next hbit =>
      refine ih _ hbit ?_
      rwa [Nat.add_assoc, ← Nat.two_mul, ← Nat.pow_succ']
    · next hbit => exact ih _ hle (Nat.lt_of_not_le hbit)

theorem root_spec {k n : Nat} (hk : 0 < k) (h : n < (2 ^ 40) ^ k) : root k n ^ k ≤ n ∧ n < (root k n + 1) ^ k := by
  refine rootFrom_spec k n 40 0 ?_ (by rwa [Nat.zero_add])
  rw [Nat.zero_pow hk]
  exact Nat.zero_le n

theorem prime_iff {p : Nat} (h : p < 312) : p.Prime ↔ 2 ≤ p ∧ ∀ d < 18, 2 ≤ d → d < p → p % d ≠ 0 := by
  rw [Nat.prime_def_le_sqrt]
  refine and_congr_right fun htwo => ⟨fun hall d hd hd2 hdp hmod => ?_, fun hall d hd2 hd hdvd => ?_⟩
  · have hdvd := Nat.dvd_of_mod_eq_zero hmod
    have hprime := Nat.prime_def_le_sqrt.mpr ⟨htwo, hall⟩
    rcases (Nat.dvd_prime hprime).mp hdvd with h | h <;> omega
  · have hsq : d * d ≤ p := Nat.le_sqrt.mp hd
    have h18 : d < 18 := by
      by_contra hge
      have := Nat.mul_le_mul (Nat.le_of_not_lt hge) (Nat.le_of_not_lt hge)
      omega
    have hdouble := Nat.mul_le_mul_left d hd2
    exact hall d h18 hd2 (by omega) (Nat.mod_eq_zero_of_dvd hdvd)

theorem primes_eq : primes = [
    2, 3, 5, 7, 11, 13, 17, 19, 23, 29, 31, 37, 41, 43, 47, 53, 59, 61, 67, 71, 73, 79, 83, 89, 97, 101, 103, 107, 109,
    113, 127, 131, 137, 139, 149, 151, 157, 163, 167, 173, 179, 181, 191, 193, 197, 199, 211, 223, 227, 229, 233, 239,
    241, 251, 257, 263, 269, 271, 277, 281, 283, 293, 307, 311] := by
  have htest : primes = (List.range 312).filter fun p => 2 ≤ p ∧ ∀ d < 18, 2 ≤ d → d < p → p % d ≠ 0 :=
    List.filter_congr fun p hp => decide_eq_decide.mpr (prime_iff (List.mem_range.mp hp))
  rw [htest]
  decide +kernel

/-- The number of zeros is the least that makes the padded message whole. -/
theorem zeros_isLeast (len : Nat) : IsLeast {k | (len + 1 + k) % 512 = 448} (zeros len) := by
  constructor
  · rw [Set.mem_setOf_eq, zeros]
    omega
  · intro k hk
    rw [Set.mem_setOf_eq] at hk
    rw [zeros]
    omega

theorem schedule_lt (m : Nat → Word) {t : Nat} (h : t < 16) : schedule m t = m t := by
  rw [schedule, if_pos h]

theorem schedule_ge (m : Nat → Word) {t : Nat} (h : 16 ≤ t) : schedule m t =
    smallSigma1 (schedule m (t - 2)) + schedule m (t - 7) + smallSigma0 (schedule m (t - 15)) + schedule m (t - 16) := by
  rw [schedule, if_neg (by omega)]

/-! ### Numbers and their bits -/

@[simp] theorem length_toBits (w n : Nat) : (toBits w n).length = w := by
  induction w with
  | zero => rfl
  | succ w ih => rw [toBits, List.length_cons, ih]

theorem ofBits_from (s : Bits) (n : Nat) : s.foldl (fun n b => 2 * n + b.toNat) n = n * 2 ^ s.length + ofBits s := by
  induction s generalizing n with
  | nil => simp [ofBits]
  | cons b rest ih =>
    rw [ofBits, List.foldl_cons, List.foldl_cons, ih, ih (2 * 0 + b.toNat), List.length_cons, Nat.pow_succ]
    ring

theorem ofBits_append (s t : Bits) : ofBits (s ++ t) = ofBits s * 2 ^ t.length + ofBits t := by
  rw [ofBits, List.foldl_append, ofBits_from]
  rfl

/-- A number is read back from its bits. -/
theorem ofBits_toBits (w n : Nat) : ofBits (toBits w n) = n % 2 ^ w := by
  induction w with
  | zero => simp [toBits, ofBits, Nat.mod_one]
  | succ w ih =>
    have hcons : ofBits (toBits (w + 1) n) = (n.testBit w).toNat * 2 ^ w + ofBits (toBits w n) := by
      have happ := ofBits_append [n.testBit w] (toBits w n)
      rw [length_toBits] at happ
      simpa [toBits, ofBits] using happ
    rw [hcons, ih, Nat.toNat_testBit, Nat.mod_pow_succ, Nat.mul_comm, Nat.add_comm]

/-- The bits of a number above and below a place. -/
theorem toBits_add (u w n : Nat) : toBits (u + w) n = toBits u (n / 2 ^ w) ++ toBits w n := by
  induction u with
  | zero => rw [Nat.zero_add]; rfl
  | succ u ih =>
    rw [Nat.succ_add, toBits, ih, toBits, Nat.testBit_div_two_pow, List.cons_append]

/-- Only the last `w` bits matter. -/
theorem toBits_mod (w n : Nat) : toBits w (n % 2 ^ w) = toBits w n := by
  have hall : ∀ u, u ≤ w → toBits u (n % 2 ^ w) = toBits u n := by
    intro u
    induction u with
    | zero => exact fun _ => rfl
    | succ u ih =>
      intro hu
      rw [toBits, toBits, ih (by omega), Nat.testBit_mod_two_pow, decide_eq_true (by omega : u < w), Bool.true_and]
  exact hall w le_rfl

/-! ### Bytes -/

def bitsOfBytes (b : Bytes) : Bits := b.flatMap fun x => toBits 8 x.toNat

theorem length_bitsOfBytes (b : Bytes) : (bitsOfBytes b).length = b.length * 8 :=
  length_flatMap_const _ b fun _ _ => length_toBits 8 _

theorem bitsOfBytes_append (a b : Bytes) : bitsOfBytes (a ++ b) = bitsOfBytes a ++ bitsOfBytes b := List.flatMap_append

theorem bitsOfBytes_cons (x : UInt8) (b : Bytes) : bitsOfBytes (x :: b) = toBits 8 x.toNat ++ bitsOfBytes b := List.flatMap_cons

/-- Dropping bytes drops eight bits for each. -/
theorem bitsOfBytes_drop (b : Bytes) (n : Nat) : bitsOfBytes (b.drop n) = (bitsOfBytes b).drop (n * 8) := by
  by_cases h : n ≤ b.length
  · have hlen : (bitsOfBytes (b.take n)).length = n * 8 := by rw [length_bitsOfBytes, List.length_take, Nat.min_eq_left h]
    have happ := bitsOfBytes_append (b.take n) (b.drop n)
    rw [List.take_append_drop] at happ
    rw [happ, List.drop_left' hlen]
  · rw [List.drop_eq_nil_of_le (by omega), List.drop_eq_nil_of_le (by rw [length_bitsOfBytes]; omega)]
    rfl

theorem bitsOfBytes_take (b : Bytes) (n : Nat) : bitsOfBytes (b.take n) = (bitsOfBytes b).take (n * 8) := by
  by_cases h : n ≤ b.length
  · have hlen : (bitsOfBytes (b.take n)).length = n * 8 := by rw [length_bitsOfBytes, List.length_take, Nat.min_eq_left h]
    have happ := bitsOfBytes_append (b.take n) (b.drop n)
    rw [List.take_append_drop] at happ
    rw [happ, List.take_left' hlen]
  · rw [List.take_of_length_le (by omega), List.take_of_length_le (by rw [length_bitsOfBytes]; omega)]

/-- A unit of the bits is the bits of a unit. -/
theorem unit_bitsOfBytes (b : Bytes) (size i : Nat) : unit (bitsOfBytes b) (size * 8) i = bitsOfBytes (unit b size i) := by
  rw [unit, unit, slice, slice, bitsOfBytes_take, bitsOfBytes_drop, Nat.mul_assoc]

theorem ofBits_bitsOfBytes_cons (x : UInt8) (b : Bytes) :
    ofBits (bitsOfBytes (x :: b)) = x.toNat * 2 ^ (b.length * 8) + ofBits (bitsOfBytes b) := by
  rw [bitsOfBytes_cons, ofBits_append, ofBits_toBits, length_bitsOfBytes, Nat.mod_eq_of_lt x.toNat_lt]

/-- Bytes with the same bits are the same. -/
theorem bitsOfBytes_inj {a b : Bytes} (h : bitsOfBytes a = bitsOfBytes b) : a = b := by
  induction a generalizing b with
  | nil =>
    have hlen := congrArg List.length h
    rw [length_bitsOfBytes, length_bitsOfBytes, List.length_nil] at hlen
    exact (List.eq_nil_of_length_eq_zero (by omega)).symm
  | cons x rest ih =>
    cases b with
    | nil =>
      have hlen := congrArg List.length h
      rw [length_bitsOfBytes, length_bitsOfBytes, List.length_cons, List.length_nil] at hlen
      omega
    | cons y rest' =>
      rw [bitsOfBytes_cons, bitsOfBytes_cons] at h
      obtain ⟨hfirst, hrest⟩ := List.append_inj h (by rw [length_toBits, length_toBits])
      have hnat := congrArg ofBits hfirst
      rw [ofBits_toBits, ofBits_toBits, Nat.mod_eq_of_lt x.toNat_lt, Nat.mod_eq_of_lt y.toNat_lt] at hnat
      rw [UInt8.toNat_inj.mp hnat, ih hrest]

end SynapseFs.Lib.Fips180
