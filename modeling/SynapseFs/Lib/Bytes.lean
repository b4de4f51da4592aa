import Mathlib.Data.List.Basic
import Mathlib.Tactic.Ring

/-! Byte buffers as lists.

Every buffer a program owns is a list, every read is a `slice` (short at the end,
as `pread` is) and every write is an `overwrite`. `filled` is what a buffer holds
when a range read into it is done: the bytes read, then whatever was there. A
buffer that is read unit by unit is seen through `unit`. Words are little-endian
and fixed in width; `u32` and `u64` are the wraparound of the machine types. -/
namespace SynapseFs.Lib

abbrev Bytes := List UInt8

variable {α : Type}

/-! ### Slices -/

/-- Up to `len` items from `off`: short only at the end. -/
def slice (b : List α) (off len : Nat) : List α := (b.drop off).take len

@[simp] theorem length_slice (b : List α) (off len : Nat) :
    (slice b off len).length = min len (b.length - off) := by
  simp [slice]

@[simp] theorem slice_nil (off len : Nat) : slice ([] : List α) off len = [] := by
  simp [slice]

@[simp] theorem slice_zero_len (b : List α) (off : Nat) : slice b off 0 = [] := by
  simp [slice]

theorem slice_past (b : List α) {off : Nat} (len : Nat) (h : b.length ≤ off) : slice b off len = [] := by
  simp [slice, List.drop_eq_nil_of_le h]

/-- A slice that takes everything from its offset on. -/
theorem slice_all (b : List α) (off : Nat) {len : Nat} (h : b.length - off ≤ len) :
    slice b off len = b.drop off := by
  rw [slice, List.take_of_length_le]
  simpa using h

theorem slice_full (b : List α) : slice b 0 b.length = b := by
  simp [slice]

/-- Only the length up to the end of the buffer matters. -/
theorem slice_min (b : List α) (off len : Nat) :
    slice b off (min len (b.length - off)) = slice b off len := by
  by_cases h : len ≤ b.length - off
  · rw [Nat.min_eq_left h]
  · rw [Nat.min_eq_right (by omega), slice_all b off le_rfl, slice_all b off (by omega)]

theorem slice_append_slice (b : List α) (off len₁ len₂ : Nat) :
    slice b off len₁ ++ slice b (off + len₁) len₂ = slice b off (len₁ + len₂) := by
  simp only [slice, List.take_add, List.drop_drop]

theorem slice_slice (b : List α) (off len off' len' : Nat) (h : off' + len' ≤ len) :
    slice (slice b off len) off' len' = slice b (off + off') len' := by
  simp only [slice, List.drop_take, List.drop_drop, List.take_take]
  rw [Nat.min_eq_left (by omega)]

theorem slice_append_left (a b : List α) (off len : Nat) (h : off + len ≤ a.length) :
    slice (a ++ b) off len = slice a off len := by
  rw [slice, List.drop_append_of_le_length (by omega), List.take_append_of_le_length (by simp; omega)]
  rfl

theorem slice_append_right (a b : List α) (off len : Nat) :
    slice (a ++ b) (a.length + off) len = slice b off len := by
  simp [slice, ← List.drop_drop]

/-- The middle of three parts. -/
theorem slice_middle (a b c : List α) {off len : Nat} (ha : a.length = off) (hb : b.length = len) :
    slice (a ++ (b ++ c)) off len = b := by
  subst ha hb
  rw [← Nat.add_zero a.length, slice_append_right, slice_append_left _ _ _ _ (by omega), slice_full]

theorem slice_drop (b : List α) (off off' len : Nat) :
    slice (b.drop off) off' len = slice b (off + off') len := by
  simp [slice, List.drop_drop]

theorem getElem?_slice (b : List α) (off len i : Nat) : (slice b off len)[i]? = if i < len then b[off + i]? else none := by
  rw [slice, List.getElem?_take, List.getElem?_drop]

/-! ### Writes -/

/-- `data` over the bytes of `buf` from `off` on. -/
def overwrite (buf : List α) (off : Nat) (data : List α) : List α :=
  buf.take off ++ data ++ buf.drop (off + data.length)

theorem length_overwrite (buf data : List α) (off : Nat) (h : off + data.length ≤ buf.length) :
    (overwrite buf off data).length = buf.length := by
  simp only [overwrite, List.length_append, List.length_take, List.length_drop]
  omega

theorem getElem?_overwrite {buf data : List α} {off : Nat} (h : off ≤ buf.length) (i : Nat) : (overwrite buf off data)[i]? =
    if off ≤ i ∧ i < off + data.length then data[i - off]? else buf[i]? := by
  have htake : (buf.take off).length = off := by rw [List.length_take]; omega
  rw [overwrite, List.append_assoc, List.getElem?_append, htake]
  by_cases hlow : i < off
  · rw [if_pos hlow, if_neg (by omega), List.getElem?_take, if_pos hlow]
  · rw [if_neg hlow, List.getElem?_append]
    by_cases hmid : i - off < data.length
    · rw [if_pos hmid, if_pos (by omega)]
    · rw [if_neg hmid, if_neg (by omega), List.getElem?_drop]
      congr 1
      omega

@[simp] theorem overwrite_nil (buf : List α) (off : Nat) : overwrite buf off [] = buf := by
  simp [overwrite]

/-- What a buffer holds once `data` has been read into its front. -/
def filled (data buf : List α) : List α := data ++ buf.drop data.length

@[simp] theorem length_filled (data buf : List α) :
    (filled data buf).length = data.length + (buf.length - data.length) := by
  simp [filled]

@[simp] theorem filled_nil (buf : List α) : filled [] buf = buf := by
  simp [filled]

theorem filled_of_length_eq {data buf : List α} (h : data.length = buf.length) : filled data buf = data := by
  simp [filled, h]

/-- Writing the next bytes behind what has been read so far. -/
theorem overwrite_filled (data more buf : List α) :
    overwrite (filled data buf) data.length more = filled (data ++ more) buf := by
  simp only [overwrite, filled, List.take_left', List.length_append, List.drop_append, List.drop_drop]
  simp

theorem slice_filled (data buf : List α) (off len : Nat) (h : off + len ≤ data.length) :
    slice (filled data buf) off len = slice data off len :=
  slice_append_left _ _ _ _ h

/-- `pwrite_all`: a write past the end leaves `zero` in between. -/
def pwriteAll (zero : α) (file data : List α) (off : Nat) : List α :=
  if data = [] then file else overwrite (file ++ List.replicate (off - file.length) zero) off data

/-- Writing on from where what has been written ends, over a file that may be longer. -/
theorem pwriteAll_filled (zero : α) (done more file : List α) :
    pwriteAll zero (filled done file) more done.length = filled (done ++ more) file := by
  unfold pwriteAll
  by_cases h : more = []
  · rw [if_pos h, h, List.append_nil]
  · have hlen : done.length - (filled done file).length = 0 := by
      rw [length_filled]
      omega
    rw [if_neg h, hlen, List.replicate_zero, List.append_nil, overwrite_filled]

/-- A write at the end. -/
theorem pwriteAll_end (zero : α) (file data : List α) : pwriteAll zero file data file.length = file ++ data := by
  have h := pwriteAll_filled zero file data []
  rwa [filled, filled, List.drop_nil, List.drop_nil, List.append_nil, List.append_nil] at h

/-! ### Units -/

/-- The `i`-th unit of `size` items. -/
def unit (b : List α) (size i : Nat) : List α := slice b (i * size) size

theorem length_unit (b : List α) {size i : Nat} (h : (i + 1) * size ≤ b.length) :
    (unit b size i).length = size := by
  have : i * size + size ≤ b.length := by rw [← Nat.succ_mul]; exact h
  simp only [unit, length_slice]
  omega

/-- Units named by an index list, in its order. -/
def units (b : List α) (size : Nat) (idx : List Nat) : List α := idx.flatMap (unit b size)

@[simp] theorem units_nil (b : List α) (size : Nat) : units b size [] = [] := rfl

theorem units_cons (b : List α) (size i : Nat) (idx : List Nat) :
    units b size (i :: idx) = unit b size i ++ units b size idx := rfl

theorem units_append (b : List α) (size : Nat) (idx idx' : List Nat) :
    units b size (idx ++ idx') = units b size idx ++ units b size idx' := by
  simp [units]

theorem length_units (b : List α) (size : Nat) (idx : List Nat)
    (h : ∀ i ∈ idx, (i + 1) * size ≤ b.length) : (units b size idx).length = idx.length * size := by
  induction idx with
  | nil => simp
  | cons i rest ih =>
    rw [units_cons, List.length_append, length_unit b (h i (by simp)),
      ih (fun j hj => h j (by simp [hj])), List.length_cons]
    ring

/-- Consecutive units are one slice. -/
theorem units_range' (b : List α) (size first count : Nat) :
    units b size (List.range' first count) = slice b (first * size) (count * size) := by
  induction count generalizing first with
  | zero => simp
  | succ n ih =>
    rw [List.range'_succ, units_cons, ih, unit, Nat.succ_mul first, slice_append_slice, Nat.succ_mul n,
      Nat.add_comm size]

/-- A unit of a slice that starts at a unit boundary. -/
theorem unit_slice (b : List α) (size first count i : Nat) (h : i < count) :
    unit (slice b (first * size) (count * size)) size i = unit b size (first + i) := by
  have : i * size + size ≤ count * size := by rw [← Nat.succ_mul]; exact Nat.mul_le_mul_right _ h
  rw [unit, slice_slice _ _ _ _ _ this, unit, Nat.add_mul]

/-- The `k`-th unit of a gather is the unit its index names. -/
theorem unit_units (b : List α) (size : Nat) (idx : List Nat) (h : ∀ i ∈ idx, (i + 1) * size ≤ b.length)
    (k : Nat) (hk : k < idx.length) : unit (units b size idx) size k = unit b size idx[k] := by
  induction idx generalizing k with
  | nil => exact absurd hk (by simp)
  | cons i rest ih =>
    have hi := length_unit b (h i (by simp))
    cases k with
    | zero =>
      simp only [units_cons, unit, Nat.zero_mul, List.getElem_cons_zero]
      rw [show slice (slice b (i * size) size ++ units b size rest) 0 size =
        slice (unit b size i) 0 (unit b size i).length by
          rw [hi]; exact slice_append_left _ _ _ _ (by rw [Nat.zero_add]; exact hi.ge), slice_full]
      rfl
    | succ k =>
      rw [List.getElem_cons_succ, ← ih (fun j hj => h j (by simp [hj])) k (by simpa using hk), units_cons, unit,
        show (k + 1) * size = (unit b size i).length + k * size by rw [hi]; ring, slice_append_right]
      rfl

theorem length_flatMap_const {ι : Type} (f : ι → List α) {n : Nat} (l : List ι) (h : ∀ a ∈ l, (f a).length = n) :
    (l.flatMap f).length = l.length * n := by
  induction l with
  | nil => simp
  | cons a rest ih =>
    rw [List.flatMap_cons, List.length_append, h a List.mem_cons_self, ih fun x hx => h x (List.mem_cons_of_mem _ hx),
      List.length_cons]
    ring

/-- A unit of a concatenation of units. -/
theorem unit_flatMap {ι : Type} (f : ι → List α) {n : Nat} (l : List ι) (h : ∀ a ∈ l, (f a).length = n) (k : Nat)
    (hk : k < l.length) : unit (l.flatMap f) n k = f l[k] := by
  induction l generalizing k with
  | nil => exact absurd hk (Nat.not_lt_zero k)
  | cons a rest ih =>
    have ha := h a List.mem_cons_self
    rw [List.flatMap_cons]
    cases k with
    | zero =>
      rw [unit, Nat.zero_mul, slice_append_left _ _ _ _ (by omega), ← ha, slice_full, List.getElem_cons_zero]
    | succ k =>
      rw [unit, show (k + 1) * n = (f a).length + k * n by rw [ha]; ring, slice_append_right, ← unit,
        ih (fun x hx => h x (List.mem_cons_of_mem _ hx)) k (Nat.lt_of_succ_lt_succ hk), List.getElem_cons_succ]

/-! ### Grids -/

/-- `rows * cols` items, row by row. -/
def grid (rows cols : Nat) (f : Nat → Nat → α) : List α :=
  (List.range rows).flatMap fun i => (List.range cols).map (f i)

@[simp] theorem length_grid (rows cols : Nat) (f : Nat → Nat → α) : (grid rows cols f).length = rows * cols := by
  rw [grid, length_flatMap_const _ _ fun i _ => by rw [List.length_map, List.length_range], List.length_range]

theorem getElem?_grid {rows cols i k : Nat} (f : Nat → Nat → α) (hi : i < rows) (hk : k < cols) :
    (grid rows cols f)[i * cols + k]? = some (f i k) := by
  have hrow := unit_flatMap (fun i => (List.range cols).map (f i)) (List.range rows) (n := cols)
    (fun i _ => by rw [List.length_map, List.length_range]) i (by simpa using hi)
  rw [List.getElem_range] at hrow
  have hget : (unit (grid rows cols f) cols i)[k]? = some (f i k) := by
    rw [grid, hrow, List.getElem?_map, List.getElem?_range hk]
    rfl
  rw [unit, slice, List.getElem?_take_of_lt hk, List.getElem?_drop] at hget
  exact hget

theorem grid_congr {rows cols : Nat} {f g : Nat → Nat → α} (h : ∀ i < rows, ∀ k < cols, f i k = g i k) :
    grid rows cols f = grid rows cols g :=
  List.flatMap_congr fun i hi => List.map_congr_left fun k hk =>
    h i (List.mem_range.mp hi) k (List.mem_range.mp hk)

/-- A list read row by row is itself. -/
theorem grid_getD (b : List α) (d : α) (rows cols : Nat) (h : rows * cols ≤ b.length) :
    grid rows cols (fun i k => b.getD (i * cols + k) d) = b.take (rows * cols) := by
  refine List.ext_getElem? fun j => ?_
  by_cases hj : j < rows * cols
  · have hc : 0 < cols := Nat.pos_of_ne_zero fun h0 => by simp [h0] at hj
    have hdiv : j / cols < rows := Nat.div_lt_of_lt_mul (by rw [Nat.mul_comm]; exact hj)
    have hget := getElem?_grid (fun i k => b.getD (i * cols + k) d) hdiv (Nat.mod_lt j hc)
    rw [Nat.div_add_mod' j cols] at hget
    rw [hget, List.getElem?_take_of_lt hj, List.getD_eq_getElem?_getD, List.getElem?_eq_getElem (by omega)]
    rfl
  · rw [List.getElem?_eq_none (by rw [length_grid]; omega), List.getElem?_eq_none (by rw [List.length_take]; omega)]

/-! ### Words -/

/-- `uint32_t` wraparound. -/
def u32 (n : Nat) : Nat := n % 2 ^ 32

/-- `uint64_t` wraparound. -/
def u64 (n : Nat) : Nat := n % 2 ^ 64

/-- `uint64_t` subtraction. -/
def u64Sub (a b : Nat) : Nat := u64 (a + (2 ^ 64 - u64 b))

theorem u32_of_lt {n : Nat} (h : n < 2 ^ 32) : u32 n = n := Nat.mod_eq_of_lt h

theorem u64_of_lt {n : Nat} (h : n < 2 ^ 64) : u64 n = n := Nat.mod_eq_of_lt h

theorem u32_lt (n : Nat) : u32 n < 2 ^ 32 := Nat.mod_lt _ (by decide)

theorem u64_lt (n : Nat) : u64 n < 2 ^ 64 := Nat.mod_lt _ (by decide)

theorem u64Sub_of_le {a b : Nat} (h : b ≤ a) (ha : a < 2 ^ 64) : u64Sub a b = a - b := by
  rw [u64Sub, u64_of_lt (by omega : b < 2 ^ 64), u64]
  omega

/-- The natural with the given little-endian bytes. -/
def loadLe : Bytes → Nat
  | [] => 0
  | b :: rest => b.toNat + 256 * loadLe rest

/-- The `w` little-endian bytes of `n`. -/
def storeLe : Nat → Nat → Bytes
  | 0, _ => []
  | w + 1, n => UInt8.ofNat n :: storeLe w (n / 256)

@[simp] theorem length_storeLe (w n : Nat) : (storeLe w n).length = w := by
  induction w generalizing n with
  | zero => rfl
  | succ w ih => simp [storeLe, ih]

theorem loadLe_storeLe (w n : Nat) : loadLe (storeLe w n) = n % 256 ^ w := by
  induction w generalizing n with
  | zero => simp [storeLe, loadLe, Nat.mod_one]
  | succ w ih =>
    have hb : (UInt8.ofNat n).toNat = n % 256 := by simp
    rw [storeLe, loadLe, ih, hb, Nat.pow_succ', Nat.mod_mul]

theorem loadLe_storeLe_of_lt {w n : Nat} (h : n < 256 ^ w) : loadLe (storeLe w n) = n := by
  rw [loadLe_storeLe, Nat.mod_eq_of_lt h]

theorem storeLe_loadLe (b : Bytes) : storeLe b.length (loadLe b) = b := by
  induction b with
  | nil => rfl
  | cons x rest ih =>
    have hx : x.toNat < 256 := x.toNat_lt
    rw [List.length_cons, storeLe, loadLe, show (x.toNat + 256 * loadLe rest) / 256 = loadLe rest by omega, ih]
    congr 1
    exact UInt8.toNat_inj.mp (by rw [UInt8.toNat_ofNat']; omega)

theorem loadLe_lt (b : Bytes) : loadLe b < 256 ^ b.length := by
  induction b with
  | nil => simp [loadLe]
  | cons x rest ih =>
    have hx : x.toNat < 256 := x.toNat_lt
    rw [loadLe, List.length_cons, Nat.pow_succ]
    omega

end SynapseFs.Lib
