import Mathlib.Data.List.GetD
import SynapseFs.Lib.Fips180
import SynapseFs.Stio.Sha256

/-! The vendored SHA-256 is the one of FIPS 180-4.

The standard speaks of bits and of words of 32 bits (`Lib.Fips180`), the code of bytes
and `uint32_t`. Word by word they agree (`wordAt_bits`, `rotr_toBitVec`), so they agree
on the schedule, on a block and on the padded message (`hash_bits`). With what `Sha256`
says about pieces this is the digest of a message however it is cut, and the loop that
pads ends (`streaming_digest`). -/
namespace SynapseFs.Stio
open Lib Core Lib.Fips180

namespace Sha256

/-! ### Words -/

theorem shifted_toNat (v : UInt8) {k : UInt32} (hk : k.toNat ≤ 24) : (v.toUInt32 <<< k).toNat = v.toNat * 2 ^ k.toNat := by
  have hpow : 2 ^ k.toNat ≤ 2 ^ 24 := Nat.pow_le_pow_right (by decide) hk
  have hv := v.toNat_lt
  have hmul : v.toNat * 2 ^ k.toNat < 2 ^ 32 := calc
    v.toNat * 2 ^ k.toNat ≤ v.toNat * 2 ^ 24 := Nat.mul_le_mul_left _ hpow
    _ < 2 ^ 32 := by omega
  rw [UInt32.toNat_shiftLeft, UInt8.toNat_toUInt32, Nat.mod_eq_of_lt (by omega : k.toNat < 32), Nat.shiftLeft_eq,
    Nat.mod_eq_of_lt hmul]

theorem or_shifted {a b : Nat} (k : Nat) (h : b < 2 ^ k) : a * 2 ^ k ||| b = a * 2 ^ k + b := by
  rw [← Nat.shiftLeft_eq, Nat.shiftLeft_add_eq_or_of_lt h]

theorem word_toNat (x y z w : UInt8) :
    ((x.toUInt32 <<< 24) ||| (y.toUInt32 <<< 16) ||| (z.toUInt32 <<< 8) ||| w.toUInt32).toNat =
      x.toNat * 2 ^ 24 + y.toNat * 2 ^ 16 + z.toNat * 2 ^ 8 + w.toNat := by
  have hy := y.toNat_lt
  have hz := z.toNat_lt
  have hw := w.toNat_lt
  obtain ⟨hzw, hyzw⟩ : z.toNat * 2 ^ 8 + w.toNat < 2 ^ 16 ∧ y.toNat * 2 ^ 16 + (z.toNat * 2 ^ 8 + w.toNat) < 2 ^ 24 := by
    constructor <;> omega
  have hlast : z.toNat * 2 ^ 8 ||| w.toNat = z.toNat * 2 ^ 8 + w.toNat := or_shifted 8 hw
  have hlow : y.toNat * 2 ^ 16 ||| (z.toNat * 2 ^ 8 + w.toNat) = y.toNat * 2 ^ 16 + (z.toNat * 2 ^ 8 + w.toNat) :=
    or_shifted 16 hzw
  have h24 : (24 : UInt32).toNat = 24 := rfl
  have h16 : (16 : UInt32).toNat = 16 := rfl
  have h8 : (8 : UInt32).toNat = 8 := rfl
  rw [UInt32.toNat_or, UInt32.toNat_or, UInt32.toNat_or, shifted_toNat x (by decide), shifted_toNat y (by decide),
    shifted_toNat z (by decide), UInt8.toNat_toUInt32, h24, h16, h8, Nat.or_assoc, Nat.or_assoc, hlast, hlow,
    or_shifted 24 hyzw,
    Nat.add_assoc, Nat.add_assoc]

theorem shiftRight_toBitVec (x : UInt32) {n : UInt32} (hn : n.toNat < 32) : (x >>> n).toBitVec = x.toBitVec >>> n.toNat := by
  rw [UInt32.toBitVec_shiftRight, BitVec.ushiftRight_eq', BitVec.toNat_umod]
  show x.toBitVec >>> (n.toNat % 32) = _
  rw [Nat.mod_eq_of_lt hn]

/-- The rotation of the code is the rotation of the standard. -/
theorem rotr_toBitVec (x n : UInt32) (hpos : 0 < n.toNat) (hn : n.toNat < 32) :
    (rotr x n).toBitVec = x.toBitVec.rotateRight n.toNat := by
  have hback : (32 - n).toNat = 32 - n.toNat := by
    rw [UInt32.toNat_sub_of_le _ _ (UInt32.le_iff_toNat_le.mpr hn.le)]
    rfl
  have hleft : (x <<< (32 - n)).toBitVec = x.toBitVec <<< (32 - n.toNat) := by
    rw [UInt32.toBitVec_shiftLeft, BitVec.shiftLeft_eq', BitVec.toNat_umod]
    show x.toBitVec <<< ((32 - n).toNat % 32) = _
    rw [hback, Nat.mod_eq_of_lt (by omega)]
  rw [rotr, UInt32.toBitVec_or, shiftRight_toBitVec x hn, hleft, BitVec.rotateRight_def, Nat.mod_eq_of_lt hn]

theorem unit_four {b : Bytes} {i : Nat} (h : i * 4 + 4 ≤ b.length) :
    unit b 4 i = [b.getD (i * 4) 0, b.getD (i * 4 + 1) 0, b.getD (i * 4 + 2) 0, b.getD (i * 4 + 3) 0] := by
  have hgrid := grid_getD (b.drop (i * 4)) 0 1 4 (by rw [List.length_drop]; omega)
  rw [unit, slice, ← hgrid]
  simp [grid, List.range_succ]

/-- A word of the block is the word of its bits. -/
theorem wordAt_bits {block : Bytes} {i : Nat} (h : i * 4 + 4 ≤ block.length) :
    (wordAt block i).toBitVec = wordOf (unit (bitsOfBytes block) 32 i) := by
  have hunit : unit (bitsOfBytes block) 32 i = bitsOfBytes (unit block 4 i) := unit_bitsOfBytes block 4 i
  rw [hunit, unit_four h, wordOf]
  simp only [ofBits_bitsOfBytes_cons, List.length_cons, List.length_nil]
  apply BitVec.eq_of_toNat_eq
  rw [BitVec.toNat_ofNat]
  show (wordAt block i).toNat = _
  rw [wordAt, word_toNat]
  generalize block.getD (i * 4) 0 = x, block.getD (i * 4 + 1) 0 = y, block.getD (i * 4 + 2) 0 = z, block.getD (i * 4 + 3) 0 = w
  have hx := x.toNat_lt
  have hy := y.toNat_lt
  have hz := z.toNat_lt
  have hw := w.toNat_lt
  simp [bitsOfBytes, ofBits]
  omega
/-! ### Functions -/

theorem rotr3_bits (x : UInt32) {i j k : UInt32} (hi : 0 < i.toNat ∧ i.toNat < 32) (hj : 0 < j.toNat ∧ j.toNat < 32)
    (hk : 0 < k.toNat ∧ k.toNat < 32) : (rotr x i ^^^ rotr x j ^^^ rotr x k).toBitVec =
      x.toBitVec.rotateRight i.toNat ^^^ x.toBitVec.rotateRight j.toNat ^^^ x.toBitVec.rotateRight k.toNat := by
  rw [UInt32.toBitVec_xor, UInt32.toBitVec_xor, rotr_toBitVec x i hi.1 hi.2, rotr_toBitVec x j hj.1 hj.2,
    rotr_toBitVec x k hk.1 hk.2]

theorem rotr2_bits (x : UInt32) {i j k : UInt32} (hi : 0 < i.toNat ∧ i.toNat < 32) (hj : 0 < j.toNat ∧ j.toNat < 32)
    (hk : k.toNat < 32) : (rotr x i ^^^ rotr x j ^^^ (x >>> k)).toBitVec =
      x.toBitVec.rotateRight i.toNat ^^^ x.toBitVec.rotateRight j.toNat ^^^ (x.toBitVec >>> k.toNat) := by
  rw [UInt32.toBitVec_xor, UInt32.toBitVec_xor, rotr_toBitVec x i hi.1 hi.2, rotr_toBitVec x j hj.1 hj.2,
    shiftRight_toBitVec x hk]

/-! ### The schedule -/

/-- One more word, by the recurrence of the standard. -/
theorem expand_bits {w : List UInt32} {m : Nat → Word} {n : Nat} (hn : 16 ≤ n) (hlen : w.length = n)
    (hw : ∀ t < n, (w.getD t 0).toBitVec = Fips180.schedule m t) :
    ∀ t < n + 1, ((expand w n).getD t 0).toBitVec = Fips180.schedule m t := by
  intro t ht
  rcases Nat.lt_succ_iff_lt_or_eq.mp ht with ht | rfl
  · rw [expand, List.getD_append _ _ _ _ (by omega)]
    exact hw t ht
  · have h0 := rotr2_bits (w.getD (t - 15) 0) (i := 7) (j := 18) (k := 3) (by decide) (by decide) (by decide)
    have h1 := rotr2_bits (w.getD (t - 2) 0) (i := 17) (j := 19) (k := 10) (by decide) (by decide) (by decide)
    rw [hw (t - 15) (by omega)] at h0
    rw [hw (t - 2) (by omega)] at h1
    rw [expand, List.getD_append_right _ _ _ _ (by omega), hlen, Nat.sub_self, List.getD_cons_zero, UInt32.toBitVec_add,
      UInt32.toBitVec_add, UInt32.toBitVec_add, h0, h1, hw (t - 7) (by omega), hw (t - 16) (by omega), schedule_ge m hn]
    show _ + Fips180.smallSigma0 _ + _ + Fips180.smallSigma1 _ = _
    ac_rfl

/-- The array of the code is the schedule of the standard. -/
theorem schedule_bits {block : Bytes} (hblock : block.length = 64) : (schedule block).length = 64 ∧
    ∀ t < 64, ((schedule block).getD t 0).toBitVec = Fips180.schedule (fun t => wordOf (unit (bitsOfBytes block) 32 t)) t := by
  have hrun : ∀ n, ((List.range' 16 n).foldl expand ((List.range 16).map (wordAt block))).length = 16 + n ∧
      ∀ t < 16 + n, (((List.range' 16 n).foldl expand ((List.range 16).map (wordAt block))).getD t 0).toBitVec =
        Fips180.schedule (fun t => wordOf (unit (bitsOfBytes block) 32 t)) t := by
    intro n
    induction n with
    | zero =>
      refine ⟨by rfl, fun t ht => ?_⟩
      rw [List.range'_zero, List.foldl_nil, List.getD_eq_getElem?_getD, List.getElem?_map, List.getElem?_range ht,
        schedule_lt _ ht]
      exact wordAt_bits (by omega)
    | succ n ih =>
      obtain ⟨hlen, hw⟩ := ih
      rw [List.range'_concat, List.foldl_append, List.foldl_cons, List.foldl_nil, Nat.one_mul]
      refine ⟨?_, expand_bits (Nat.le_add_right 16 n) hlen hw⟩
      rw [expand, List.length_append, hlen, List.length_singleton]
      omega
  exact hrun 48

/-! ### A block -/

/-- The variables of the code as those of the standard. -/
def toVars (s : HashWords) : Vars :=
  ⟨s.a.toBitVec, s.b.toBitVec, s.c.toBitVec, s.d.toBitVec, s.e.toBitVec, s.f.toBitVec, s.g.toBitVec, s.h.toBitVec⟩

theorem round_bits (s : HashWords) (k w : UInt32) : toVars (round s k w) = step k.toBitVec w.toBitVec (toVars s) := by
  have h0 := rotr3_bits s.a (i := 2) (j := 13) (k := 22) (by decide) (by decide) (by decide)
  have h1 := rotr3_bits s.e (i := 6) (j := 11) (k := 25) (by decide) (by decide) (by decide)
  unfold round toVars step
  simp only [UInt32.toBitVec_add, h0, h1]
  rfl

theorem constants_bits : roundConstants = kK.map UInt32.toBitVec := by
  rw [roundConstants, primes_eq]
  decide +kernel

theorem initial_bits : toVars initial = initialHash := by
  decide +kernel

theorem zip_getD {ks ws : List UInt32} {n : Nat} (hk : ks.length = n) (hw : ws.length = n) :
    ks.zip ws = (List.range n).map fun t => (ks.getD t 0, ws.getD t 0) := by
  refine List.ext_getElem (by rw [List.length_zip, List.length_map, List.length_range, hk, hw, Nat.min_self]) ?_
  intro t ht ht'
  rw [List.length_zip] at ht
  rw [List.getElem_zip, List.getElem_map, List.getElem_range, List.getD_eq_getElem _ _ (by omega),
    List.getD_eq_getElem _ _ (by omega)]

/-- Two loops over one list whose steps correspond. -/
theorem foldl_corresponds {α β γ : Type} (f : α → β) {g : α → γ → α} {g' : β → γ → β} {l : List γ}
    (h : ∀ x ∈ l, ∀ s, f (g s x) = g' (f s) x) : ∀ s, f (l.foldl g s) = l.foldl g' (f s) := by
  induction l with
  | nil => exact fun _ => rfl
  | cons x rest ih =>
    intro s
    rw [List.foldl_cons, List.foldl_cons, ih (fun y hy => h y (List.mem_cons_of_mem _ hy)), h x List.mem_cons_self]

/-- The rounds and the additions behind them. -/
theorem process_bits (s : HashWords) {block : Bytes} (hblock : block.length = 64) :
    toVars (process s block) = compress (toVars s) (bitsOfBytes block) := by
  obtain ⟨hlen, hw⟩ := schedule_bits hblock
  have hrounds : toVars ((kK.zip (schedule block)).foldl (fun s kw => round s kw.1 kw.2) s) =
      (List.range 64).foldl (fun v t => step (roundConstants.getD t 0)
        (Fips180.schedule (fun t => wordOf (unit (bitsOfBytes block) 32 t)) t) v) (toVars s) := by
    have hzip := @zip_getD kK (schedule block) 64 rfl hlen
    rw [hzip, List.foldl_map]
    refine foldl_corresponds toVars (fun t ht s => ?_) s
    have hk : roundConstants.getD t 0 = (kK.getD t 0).toBitVec := by
      rw [constants_bits, List.getD_eq_getElem?_getD, List.getD_eq_getElem?_getD, List.getElem?_map]
      cases kK[t]? <;> rfl
    rw [round_bits, hw t (List.mem_range.mp ht), hk]
  unfold process compress
  dsimp only
  rw [← hrounds]
  simp only [toVars, UInt32.toBitVec_add, BitVec.add_comm]

/-! ### The message -/

theorem byte_bits (w : UInt32) {k : UInt32} (hk : k.toNat < 32) :
    toBits 8 (w >>> k).toUInt8.toNat = toBits 8 (w.toNat / 2 ^ k.toNat) := by
  rw [UInt32.toNat_toUInt8, UInt32.toNat_shiftRight, Nat.mod_eq_of_lt hk, Nat.shiftRight_eq_div_pow, toBits_mod]

/-- A word is written most significant bit first. -/
theorem wordBytes_bits (w : UInt32) : bitsOfBytes (wordBytes w) = bitsOf w.toBitVec := by
  have h24 := @byte_bits w 24 (by decide)
  have h16 := @byte_bits w 16 (by decide)
  have h8 := @byte_bits w 8 (by decide)
  have h0 : toBits 8 w.toUInt8.toNat = toBits 8 w.toNat := by rw [UInt32.toNat_toUInt8, toBits_mod]
  have hsplit : bitsOf w.toBitVec = toBits 8 (w.toNat / 2 ^ 24) ++ (toBits 8 (w.toNat / 2 ^ 16) ++
      (toBits 8 (w.toNat / 2 ^ 8) ++ toBits 8 w.toNat)) := by
    rw [← toBits_add 8 8 w.toNat, ← toBits_add 8 16 w.toNat, ← toBits_add 8 24 w.toNat]
    rfl
  rw [hsplit, wordBytes]
  simp only [bitsOfBytes_cons, h24, h16, h8, h0]
  rfl

theorem output_bits (s : HashWords) : bitsOfBytes (output s) = hashBits (toVars s) := by
  simp only [output, hashBits, List.flatMap_cons, List.flatMap_nil, bitsOfBytes_append, wordBytes_bits, toVars]
  rfl

theorem lengthBytes_bits (n : Nat) : bitsOfBytes (lengthBytes n) = toBits 64 n := by
  have hall : ∀ (k n : Nat), bitsOfBytes (storeLe k n).reverse = toBits (k * 8) n := by
    intro k
    induction k with
    | zero => exact fun n => by rfl
    | succ k ih =>
      intro n
      have hlow : toBits 8 (n % 2 ^ 8) = toBits 8 n := toBits_mod 8 n
      rw [storeLe, List.reverse_cons, bitsOfBytes_append, ih, Nat.succ_mul, toBits_add, bitsOfBytes_cons, UInt8.toNat_ofNat',
        hlow]
      rw [show bitsOfBytes [] = [] from rfl, List.append_nil]
      rfl
  exact hall 8 n

theorem zeros_bits (n : Nat) : bitsOfBytes (List.replicate n 0) = List.replicate (n * 8) false := by
  induction n with
  | zero => rfl
  | succ n ih =>
    rw [List.replicate_succ, bitsOfBytes_cons, ih, Nat.succ_mul, Nat.add_comm, List.replicate_add]
    rfl

theorem padded_bits {message : Bytes} (hlen : message.length < 2 ^ 61) :
    bitsOfBytes (padded message) = pad (bitsOfBytes message) := by
  have hdelimiter : bitsOfBytes [0x80] = true :: List.replicate 7 false := by decide
  have hzeros : zeros (message.length * 8) = 7 + zeroCount message.length * 8 := by
    rw [zeros, zeroCount]
    omega
  have hlength : u64 (message.length * 8) = message.length * 8 := u64_of_lt (by omega)
  rw [padded, pad, bitsOfBytes_append, bitsOfBytes_append, bitsOfBytes_append, hdelimiter, zeros_bits, lengthBytes_bits,
    hlength, length_bitsOfBytes, hzeros, List.replicate_add]
  simp only [List.append_assoc, List.cons_append]

/-- The hash of a message is its digest. -/
theorem hash_bits {message : Bytes} (hlen : message.length < 2 ^ 61) :
    bitsOfBytes (hash message) = sha256 (bitsOfBytes message) := by
  have hblocks : (bitsOfBytes (padded message)).length / 512 = (padded message).length / 64 := by
    rw [length_bitsOfBytes]
    omega
  have hprocess : ∀ i ∈ List.range ((padded message).length / 64), ∀ s,
      toVars (process s (unit (padded message) 64 i)) = compress (toVars s) (unit (bitsOfBytes (padded message)) 512 i) := by
    intro i hi s
    have hi := List.mem_range.mp hi
    have hunit : unit (bitsOfBytes (padded message)) 512 i = bitsOfBytes (unit (padded message) 64 i) :=
      unit_bitsOfBytes (padded message) 64 i
    rw [hunit, process_bits]
    exact length_unit _ (by omega)
  have hhom : toVars ((List.range ((padded message).length / 64)).foldl (fun s i => process s (unit (padded message) 64 i))
        initial) = (List.range ((padded message).length / 64)).foldl
          (fun v i => compress v (unit (bitsOfBytes (padded message)) 512 i)) (toVars initial) := by
    refine foldl_corresponds toVars ?_ initial
    exact hprocess
  rw [hash, output_bits, hhom, initial_bits, sha256, ← padded_bits hlen, hblocks]

/-! ### The padding loop -/

/-- One round. -/
def addZero (s : Sha256) : Sha256 := s.update [0]

/-- The loop is left after `k` rounds, and no earlier. -/
def LeavesAfter (s : Sha256) (k : Nat) : Prop := (addZero^[k] s).buf.length = 56 ∧ ∀ i < k, (addZero^[i] s).buf.length ≠ 56

theorem padZeros_eq {k : Nat} : ∀ {s : Sha256} {fuel : Nat}, LeavesAfter s k → k ≤ fuel →
    padZeros (fuel + 1) s = addZero^[k] s := by
  induction k with
  | zero =>
    intro s fuel h _
    have hfull : s.buf.length = 56 := h.1
    rw [padZeros, if_pos hfull]
    rfl
  | succ k ih =>
    intro s fuel h hfuel
    obtain ⟨fuel, rfl⟩ : ∃ n, fuel = n + 1 := ⟨fuel - 1, by omega⟩
    have hopen : s.buf.length ≠ 56 := h.2 0 (by omega)
    have hrest : LeavesAfter (s.update [0]) k := ⟨h.1, fun i hi => h.2 (i + 1) (by omega)⟩
    rw [padZeros, if_neg hopen, ih hrest (by omega)]
    rfl

theorem zeros_absorbed {s : Sha256} {all : Bytes} (h : Absorbed s all) (i : Nat) :
    Absorbed (addZero^[i] s) (all ++ List.replicate i 0) := by
  induction i with
  | zero => rwa [List.replicate_zero, List.append_nil]
  | succ i ih =>
    have hnext := update_absorbed [0] ih
    rw [List.append_assoc, ← List.replicate_succ'] at hnext
    rw [Function.iterate_succ_apply']
    exact hnext

/-- A buffer that is not full has room for the zeros. -/
theorem padding_ends {s : Sha256} {all : Bytes} (h : Absorbed s all) : ∃ k ≤ 63, LeavesAfter s k := by
  have hbuf : ∀ i, (addZero^[i] s).buf.length = (all.length + i) % 64 := by
    intro i
    rw [(zeros_absorbed h i).length_buf, List.length_append, List.length_replicate]
  refine ⟨(120 - all.length % 64) % 64, by omega, ?_, fun i hi => ?_⟩
  · rw [hbuf]
    omega
  · rw [hbuf]
    omega

end Sha256

/-! ### The stream -/

structure Sha256Stream where
  hasher : Sha256

namespace Sha256Stream

def new : Sha256Stream := ⟨Sha256.reset⟩

def update (s : Sha256Stream) (data : Bytes) : Sha256Stream := ⟨s.hasher.update data⟩

def finishHex (s : Sha256Stream) : String := hex s.hasher.finalize

theorem hasher_updates (pieces : List Bytes) : ∀ s : Sha256Stream,
    (pieces.foldl update s).hasher = pieces.foldl Sha256.update s.hasher := by
  induction pieces with
  | nil => exact fun _ => rfl
  | cons piece rest ih => exact fun s => ih (s.update piece)

end Sha256Stream

/-- However a message is cut, `Sha256` and `Sha256Stream` return its digest, and the padding loop ends. -/
theorem streaming_digest (pieces : List Bytes) (hlen : pieces.flatten.length < 2 ^ 61) :
    (∃ digest : Bytes, bitsOfBytes digest = sha256 (bitsOfBytes pieces.flatten) ∧
      (pieces.foldl Sha256.update Sha256.reset).finalize = digest ∧
      (pieces.foldl Sha256Stream.update Sha256Stream.new).finishHex = hex digest) ∧
    ∃ k, ((pieces.foldl Sha256.update Sha256.reset).update [0x80]).LeavesAfter k ∧
      Sha256.padZeros 64 ((pieces.foldl Sha256.update Sha256.reset).update [0x80]) =
        Sha256.addZero^[k] ((pieces.foldl Sha256.update Sha256.reset).update [0x80]) := by
  have hpieces := Sha256.finalize_pieces pieces (by omega)
  refine ⟨⟨Sha256.hash pieces.flatten, Sha256.hash_bits hlen, hpieces, ?_⟩, ?_⟩
  · rw [Sha256Stream.finishHex, Sha256Stream.hasher_updates]
    exact congrArg hex hpieces
  · have habs := (Sha256.updates_absorbed pieces Sha256.reset_absorbed rfl (by rw [List.nil_append]; omega)).1
    obtain ⟨k, hk, hleaves⟩ := Sha256.padding_ends (Sha256.update_absorbed [0x80] habs)
    exact ⟨k, hleaves, Sha256.padZeros_eq hleaves hk⟩

/-- Three bytes in three pieces, one of them empty. -/
theorem abc_digest :
    ∃ digest : Bytes, bitsOfBytes digest = sha256 (bitsOfBytes [0x61, 0x62, 0x63]) ∧
      (([[0x61], [], [0x62, 0x63]] : List Bytes).foldl Sha256.update Sha256.reset).finalize = digest := by
  obtain ⟨digest, hbits, hfinal, -⟩ := (streaming_digest [[0x61], [], [0x62, 0x63]] (by decide)).1
  exact ⟨digest, hbits, hfinal⟩

end SynapseFs.Stio
