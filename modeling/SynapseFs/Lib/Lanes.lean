import SynapseFs.Lib.Bytes

/-! Vector registers: a register is its bits, a lane is `w` bytes of them.

A register is loaded from and stored to memory as little-endian bytes, so its lanes
are the words of the bytes it covers (`lane_load`, `store_eq`). Operations on the whole
register and operations lane by lane are told apart by their definitions and meet in
the `lane_` lemmas. A loop that stores piece after piece fills its buffer (`fill_loop`). -/
namespace SynapseFs.Lib

/-! ### Bytes and words -/

theorem loadLe_append (a b : Bytes) : loadLe (a ++ b) = loadLe a + 256 ^ a.length * loadLe b := by
  induction a with
  | nil => simp [loadLe]
  | cons x rest ih =>
    rw [List.cons_append, loadLe, loadLe, ih, List.length_cons, Nat.pow_succ]
    ring

/-- Part of a number's bytes is part of the number. -/
theorem loadLe_slice {b : Bytes} {off len : Nat} (h : off + len ≤ b.length) :
    loadLe (slice b off len) = loadLe b / 256 ^ off % 256 ^ len := by
  have hsplit : b = b.take off ++ (slice b off len ++ b.drop (off + len)) := by
    rw [slice, ← List.drop_drop, List.take_append_drop, List.take_append_drop]
  have htake : (b.take off).length = off := by rw [List.length_take]; omega
  have hlen : (slice b off len).length = len := by rw [length_slice]; omega
  have hlow := loadLe_lt (b.take off)
  have hmid := loadLe_lt (slice b off len)
  rw [htake] at hlow
  rw [hlen] at hmid
  conv_rhs => rw [hsplit, loadLe_append, loadLe_append, htake, hlen]
  rw [Nat.add_mul_div_left _ _ (Nat.pow_pos (by decide)), Nat.div_eq_of_lt hlow, Nat.zero_add,
    Nat.add_mul_mod_self_left, Nat.mod_eq_of_lt hmid]

/-! ### Registers -/

/-- `n` bytes of memory as a register. -/
def load (n : Nat) (b : Bytes) (off : Nat) : BitVec (8 * n) := BitVec.ofNat (8 * n) (loadLe (slice b off n))

/-- The memory a register is stored to. -/
def store {n : Nat} (r : BitVec (8 * n)) : Bytes := storeLe n r.toNat

/-- Lane `j` of `w` bytes. -/
def lane (w : Nat) {m : Nat} (r : BitVec m) (j : Nat) : BitVec (8 * w) := r.extractLsb' (8 * (j * w)) (8 * w)

/-- The register with the given lanes. -/
def ofLanes (w k : Nat) (f : Nat → BitVec (8 * w)) : BitVec (8 * (k * w)) :=
  BitVec.ofNat _ (loadLe ((List.range k).flatMap fun j => storeLe w (f j).toNat))

theorem two_pow_eight_mul (n : Nat) : 2 ^ (8 * n) = 256 ^ n := Nat.pow_mul 2 8 n

theorem toNat_load {n : Nat} {b : Bytes} {off : Nat} (h : off + n ≤ b.length) :
    (load n b off).toNat = loadLe (slice b off n) := by
  have hlen : (slice b off n).length = n := by rw [length_slice]; omega
  have hlt := loadLe_lt (slice b off n)
  rw [hlen] at hlt
  rw [load, BitVec.toNat_ofNat, two_pow_eight_mul, Nat.mod_eq_of_lt hlt]

theorem toNat_lane (w : Nat) {m : Nat} (r : BitVec m) (j : Nat) :
    (lane w r j).toNat = r.toNat / 256 ^ (j * w) % 256 ^ w := by
  rw [lane, BitVec.extractLsb'_toNat, Nat.shiftRight_eq_div_pow, two_pow_eight_mul, two_pow_eight_mul]

@[simp] theorem length_store {n : Nat} (r : BitVec (8 * n)) : (store r).length = n := length_storeLe n _

theorem loadLe_store {n : Nat} (r : BitVec (8 * n)) : loadLe (store r) = r.toNat :=
  loadLe_storeLe_of_lt (two_pow_eight_mul n ▸ r.isLt)

theorem unit_store {w k : Nat} (r : BitVec (8 * (k * w))) {j : Nat} (hj : j < k) : unit (store r) w j = store (lane w r j) := by
  have hle : (j + 1) * w ≤ (store r).length := by
    rw [length_store]
    exact Nat.mul_le_mul_right w hj
  have hlen := length_unit (store r) hle
  have hback := storeLe_loadLe (unit (store r) w j)
  rw [Nat.succ_mul] at hle
  rw [hlen, unit, loadLe_slice hle, loadLe_store] at hback
  show _ = storeLe w (lane w r j).toNat
  rw [toNat_lane, hback]
  rfl

/-- A register is stored as its lanes, the lowest first. -/
theorem store_eq {n w k : Nat} (h : n = k * w) (r : BitVec (8 * n)) :
    store r = (List.range k).flatMap fun j => store (lane w r j) := by
  subst h
  calc store r
      = units (store r) w (List.range k) := by
        rw [List.range_eq_range', units_range', Nat.zero_mul, slice_all _ _ (by rw [length_store]; omega)]
        rfl
    _ = (List.range k).flatMap fun j => store (lane w r j) :=
        List.flatMap_congr fun j hj => unit_store r (List.mem_range.mp hj)

/-- The lanes of a loaded register are the words it was loaded from. -/
theorem lane_load {n w j : Nat} {b : Bytes} {off : Nat} (h : off + n ≤ b.length) (hj : (j + 1) * w ≤ n) :
    lane w (load n b off) j = load w b (off + j * w) := by
  rw [Nat.succ_mul] at hj
  have hslice : slice (slice b off n) (j * w) w = slice b (off + j * w) w := slice_slice b off n _ _ hj
  apply BitVec.eq_of_toNat_eq
  rw [toNat_lane, toNat_load h, toNat_load (by omega), ← hslice]
  refine (loadLe_slice ?_).symm
  rw [length_slice]
  omega

theorem lane_ofLanes {w k j : Nat} (f : Nat → BitVec (8 * w)) (hj : j < k) : lane w (ofLanes w k f) j = f j := by
  have hlen : ∀ i ∈ List.range k, (storeLe w (f i).toNat).length = w := fun i _ => length_storeLe w _
  have hall := length_flatMap_const (fun i => storeLe w (f i).toNat) (List.range k) hlen
  rw [List.length_range] at hall
  have hstore : store (ofLanes w k f) = (List.range k).flatMap fun i => storeLe w (f i).toNat := by
    have hlt := loadLe_lt ((List.range k).flatMap fun i => storeLe w (f i).toNat)
    have hback := storeLe_loadLe ((List.range k).flatMap fun i => storeLe w (f i).toNat)
    rw [hall] at hlt hback
    rw [store, ofLanes, BitVec.toNat_ofNat, two_pow_eight_mul, Nat.mod_eq_of_lt hlt, hback]
  have hunit : store (lane w (ofLanes w k f) j) = store (f j) := by
    rw [← unit_store _ hj, hstore, unit_flatMap _ _ hlen j (by rwa [List.length_range]), List.getElem_range]
    rfl
  have hnat := congrArg loadLe hunit
  rw [loadLe_store, loadLe_store] at hnat
  exact BitVec.eq_of_toNat_eq hnat

@[simp] theorem lane_xor (w : Nat) {m : Nat} (a b : BitVec m) (j : Nat) : lane w (a ^^^ b) j = lane w a j ^^^ lane w b j :=
  BitVec.extractLsb'_xor

@[simp] theorem lane_and (w : Nat) {m : Nat} (a b : BitVec m) (j : Nat) : lane w (a &&& b) j = lane w a j &&& lane w b j :=
  BitVec.extractLsb'_and

@[simp] theorem lane_zero (w m j : Nat) : lane w (0#m) j = 0#(8 * w) := BitVec.extractLsb'_zero

/-! ### Loops that store -/

/-- Pieces of `w` bytes, stored from piece `first` on behind what is there. -/
theorem fill_loop {w : Nat} (piece : Nat → Bytes) (dst : Bytes) (count : Nat) : ∀ (first : Nat) (data : Bytes),
    data.length = first * w → (∀ i, (piece i).length = w) →
      (List.range' first count).foldl (fun d i => overwrite d (i * w) (piece i)) (filled data dst) =
        filled (data ++ (List.range' first count).flatMap piece) dst := by
  induction count with
  | zero =>
    intro first data _ _
    simp
  | succ n ih =>
    intro first data hdata hpiece
    rw [List.range'_succ, List.foldl_cons, ← hdata, overwrite_filled,
      ih (first + 1) (data ++ piece first) (by rw [List.length_append, hdata, hpiece, Nat.succ_mul]) hpiece,
      List.flatMap_cons, List.append_assoc]

/-- Blocks of `k` numbers, one after the other. -/
theorem flatMap_blocks (k count : Nat) : (List.range count).flatMap (fun q => List.range' (q * k) k) = List.range (count * k) := by
  induction count with
  | zero => simp
  | succ n ih =>
    have hjoin := @List.range'_append_1 0 (n * k) k
    rw [Nat.zero_add] at hjoin
    rw [List.range_succ, List.flatMap_append, ih, List.flatMap_singleton, List.range_eq_range', Nat.succ_mul,
      List.range_eq_range', hjoin]

/-- A loop that stores `k` pieces at a time. -/
theorem fill_blocks {n k : Nat} {block piece : Nat → Bytes} (hlen : ∀ q, (block q).length = n) {count : Nat}
    (hblock : ∀ q < count, block q = (List.range' (q * k) k).flatMap piece) (dst : Bytes) :
    (List.range count).foldl (fun d q => overwrite d (q * n) (block q)) dst =
      filled ((List.range (count * k)).flatMap piece) dst := by
  have hloop := @fill_loop n block dst count 0 [] (by rw [Nat.zero_mul]; rfl) hlen
  rw [← List.range_eq_range', filled_nil, List.nil_append] at hloop
  rw [hloop, List.flatMap_congr fun q hq => hblock q (List.mem_range.mp hq), ← List.flatMap_assoc, flatMap_blocks]

end SynapseFs.Lib
