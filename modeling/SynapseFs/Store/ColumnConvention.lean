import SynapseFs.Align.Reorder
import SynapseFs.Codec.GatherRuns
import SynapseFs.Store.CommitPlanner

/-! One convention for moved columns, in three modules.

The aligner expands a group permutation to elements of a row, the planner and the
reader to blocks of bytes. `column` says what all three mean: element `k` of a
moved row is element `full[k]` of the base row. The widths are 32-bit on the way,
and `Fits` is what that leaves. -/
namespace SynapseFs.Store
open Lib Core Align SynapseFs.Codec

/-! ### Expanding twice -/

theorem flatMap_range'_blocks (a c b : Nat) :
    (List.range' a c).flatMap (fun q => List.range' (q * b) b) = List.range' (a * b) (c * b) := by
  induction c generalizing a with
  | zero => simp
  | succ c ih =>
    rw [List.range'_succ, List.flatMap_cons, ih, Nat.succ_mul, Nat.succ_mul, Nat.add_comm (c * b) b,
      List.range'_append_1]

/-- Without wraparound each index becomes a block of neighbours. -/
theorem expandPermutation_eq {perm : List Nat} {block : Nat} (h : ∀ p ∈ perm, (p + 1) * block ≤ 2 ^ 32) :
    expandPermutation perm block = perm.flatMap fun p => List.range' (p * block) block := by
  refine List.flatMap_congr fun p hp => ?_
  have hle := h p hp
  rw [Nat.succ_mul] at hle
  rw [List.range'_eq_map_range]
  refine List.map_congr_left fun b hb => ?_
  have hb := List.mem_range.mp hb
  rw [u32_of_lt (by omega : p * block < 2 ^ 32), u32_of_lt (by omega)]

theorem expandPermutation_expand {perm : List Nat} {n block inner : Nat} (hperm : ∀ p ∈ perm, p < n)
    (h : n * (block * inner) ≤ 2 ^ 32) :
    expandPermutation perm (block * inner) =
      (perm.flatMap fun p => List.range' (p * block) block).flatMap fun q => List.range' (q * inner) inner := by
  rw [expandPermutation_eq fun p hp => (Nat.mul_le_mul_right _ (hperm p hp)).trans h, List.flatMap_assoc]
  refine List.flatMap_congr fun p _ => ?_
  rw [flatMap_range'_blocks, Nat.mul_assoc]

/-- Blocks of bytes are as many units. -/
theorem units_blocks (b : Bytes) (inner size : Nat) (idx : List Nat) :
    units b (inner * size) idx = units b size (idx.flatMap fun q => List.range' (q * inner) inner) := by
  rw [units, units, List.flatMap_assoc]
  refine List.flatMap_congr fun q _ => ?_
  have := units_range' b size (q * inner) inner
  rw [units] at this
  rw [this, unit, Nat.mul_assoc]

/-- A unit of a row is a unit of the rows. -/
theorem unit_unit (b : Bytes) {w size r k : Nat} (hk : k < w) :
    unit (unit b (w * size) r) size k = unit b size (r * w + k) := by
  rw [← unit_slice b size (r * w) w k hk, unit, unit, Nat.mul_assoc]
  rfl

/-! ### The axis -/

/-- A tensor whose secondary axis is dim 1, and the permutation of that axis. -/
structure ColumnAxis where
  rows : Nat
  /-- The number of units of the secondary group. -/
  size : Nat
  block : Nat
  trailing : List Nat
  dtype : DType
  perm : List Nat
  bijective : perm.Perm (List.range size)
  /-- A row is a buffer. -/
  small : size * block * trailing.prod * dtype.size < kMaxVector

namespace ColumnAxis

variable (t : ColumnAxis)

def shape : List Nat := t.rows :: t.size * t.block :: t.trailing

/-- The elements of a row. -/
def width : Nat := t.size * t.block * t.trailing.prod

def rowBytes : Nat := t.width * t.dtype.size

/-- The column permutation that planner and reader make of it. -/
def secondary : SecondaryAxis := ⟨expand t.perm t.block, secondaryUnitBytes t.shape 1 t.dtype⟩

/-- The planner's view of the base. -/
def moving (inner : TensorSource) (name : String) : TensorSource :=
  columnPermutingSource inner name t.secondary.perm t.secondary.unitBytes

/-- The 32-bit widths hold: those of the elements of a row, and of the bytes that
move with one column. A tensor without elements needs less. -/
def Fits : Prop :=
  t.width = 0 ∨ t.rows = 0 ∧ t.size * u32 (t.block * t.trailing.prod) < 2 ^ 32 ∨
    t.width < 2 ^ 32 ∧ t.trailing.prod * t.dtype.size < 2 ^ 32

theorem length_perm : t.perm.length = t.size := t.bijective.length_eq.trans List.length_range

theorem perm_lt {p : Nat} (hp : p ∈ t.perm) : p < t.size := List.mem_range.mp (t.bijective.mem_iff.mp hp)

theorem length_secondary : t.secondary.perm.length = t.size * t.block := by
  rw [secondary, expand, length_expandPermutation, length_perm]

/-- The fold wraps as one product. -/
theorem trailingElems_eq (shape : List Nat) (dim : Nat) : trailingElems shape dim = u64 (shape.drop (dim + 1)).prod := by
  have hfold : ∀ (l : List Nat) (t : Nat), l.foldl (fun t d => u64 (t * d)) (u64 t) = u64 (t * l.prod) := by
    intro l
    induction l with
    | nil => simp
    | cons d rest ih =>
      intro t
      have hstep : u64 (u64 t * d) = u64 (t * d) := by simp only [u64, Nat.mod_mul_mod]
      rw [List.foldl_cons, hstep, ih, List.prod_cons, Nat.mul_assoc]
  have := hfold (shape.drop (dim + 1)) 1
  rwa [Nat.one_mul] at this

theorem unitBytes_eq : t.secondary.unitBytes = u32 (t.trailing.prod * t.dtype.size) := by
  have h64 : ∀ n, u32 (u64 n) = u32 n := fun n => Nat.mod_mod_of_dvd n (by decide)
  show secondaryUnitBytes t.shape 1 t.dtype = _
  rw [secondaryUnitBytes, trailingElems_eq, h64]
  show u32 (u32 t.trailing.prod * t.dtype.size) = _
  simp only [u32, Nat.mod_mul_mod]

/-- Wrapped or not, a column is one of the row. -/
theorem secondary_lt : ∀ p ∈ t.secondary.perm, p < t.secondary.perm.length := by
  rw [length_secondary]
  intro q hq
  by_cases h : t.size * t.block ≤ 2 ^ 32
  · exact expandPermutation_lt (fun p hp => t.perm_lt hp) h q hq
  · obtain ⟨p, -, hq⟩ := List.mem_flatMap.mp hq
    obtain ⟨b, -, rfl⟩ := List.mem_map.mp hq
    have := u32_lt (u32 (p * t.block) + b)
    omega

/-! ### The planner's view -/

section
variable {t} {base : Bytes} {inner : TensorSource} {name : String}

theorem rowBytes_lt : t.rowBytes < kMaxVector := t.small

/-- The base with its columns moved. -/
def moved (t : ColumnAxis) (base : Bytes) : Bytes :=
  moveColumns base t.rowBytes t.rows t.secondary.perm t.secondary.unitBytes

variable (hbase : base.length = t.rows * t.rowBytes)
include hbase

theorem length_moved (hrow : t.secondary.perm.length * t.secondary.unitBytes = t.rowBytes) :
    (t.moved base).length = base.length := by
  rw [moved, length_moveColumns t.secondary_lt hrow hbase.ge, hbase]

/-- Where a row is as wide as its columns, the planner reads moved rows. -/
theorem moving_reads (hmax : base.length < kMaxVector) (hin : inner.ReadsRows name base t.rowBytes)
    (hrow : t.secondary.perm.length * t.secondary.unitBytes = t.rowBytes) :
    (t.moving inner name).ReadsRows name (t.moved base) t.rowBytes := by
  intro first count out hle hout
  rw [length_moved hbase hrow] at hle
  have hsplit : (first + count) * t.rowBytes = first * t.rowBytes + count * t.rowBytes := Nat.add_mul _ _ _
  have hrow64 : u64 (t.secondary.perm.length * t.secondary.unitBytes) = t.rowBytes := by
    rw [hrow]
    exact u64_of_lt (t.rowBytes_lt.trans (by decide))
  have hcount64 : u64 (count * t.rowBytes) = count * t.rowBytes := u64_of_lt (by unfold kMaxVector at hmax; omega)
  have hlen : (slice base (first * t.rowBytes) (count * t.rowBytes)).length = count * t.rowBytes := by
    rw [length_slice]
    omega
  have hmoved : moveColumns (slice base (first * t.rowBytes) (count * t.rowBytes)) t.rowBytes count t.secondary.perm
      t.secondary.unitBytes = slice (t.moved base) (first * t.rowBytes) (count * t.rowBytes) := by
    by_cases h0 : t.rowBytes = 0
    · have hnil := length_moveColumns t.secondary_lt hrow hlen.ge
      simp only [h0, Nat.mul_zero, slice_zero_len] at hnil ⊢
      exact List.length_eq_zero_iff.mp hnil
    · rw [hbase] at hle
      exact slice_moveColumns t.secondary_lt hrow hbase (Nat.le_of_mul_le_mul_right hle (Nat.pos_of_ne_zero h0))
  unfold moving columnPermutingSource
  dsimp only
  rw [if_neg (not_not.mpr rfl), hin first count out hle hout]
  show (if _ then _ else _) = _
  rw [hrow64, hcount64, if_neg (not_not.mpr rfl), permuteRows_eq t.secondary_lt hrow hlen.ge, hmoved]
  have hlen' : (slice (t.moved base) (first * t.rowBytes) (count * t.rowBytes)).length = count * t.rowBytes := by
    rw [length_slice, length_moved hbase hrow]
    omega
  show Except.ok (_, filled _ _) = _
  rw [filled_of_length_eq (hlen'.trans hlen.symm)]

/-- A view that returns has found rows as wide as its columns. -/
theorem moving_width (hin : inner.ReadsRows name base t.rowBytes) {out : Bytes} (hout : out.length = base.length)
    {r : Nat × Bytes} (h : (t.moving inner name).readUnits name 0 t.rows out = .ok r) (hmax : base.length < kMaxVector) :
    t.rows * t.rowBytes = t.rows * (t.secondary.perm.length * t.secondary.unitBytes) ∨
      t.rowBytes < t.secondary.perm.length * t.secondary.unitBytes := by
  by_contra hcon
  rw [not_or, not_lt] at hcon
  have hle : t.rows * (t.secondary.perm.length * t.secondary.unitBytes) ≤ t.rows * t.rowBytes :=
    Nat.mul_le_mul_left _ hcon.2
  have hrow64 : u64 (t.secondary.perm.length * t.secondary.unitBytes) = t.secondary.perm.length * t.secondary.unitBytes :=
    u64_of_lt (hcon.2.trans_lt (t.rowBytes_lt.trans (by decide)))
  have hcount64 : u64 (t.rows * (t.secondary.perm.length * t.secondary.unitBytes)) =
      t.rows * (t.secondary.perm.length * t.secondary.unitBytes) := u64_of_lt (by unfold kMaxVector at hmax; omega)
  unfold moving columnPermutingSource at h
  dsimp only at h
  rw [if_neg (not_not.mpr rfl), hin 0 t.rows out (by rw [Nat.zero_add]; exact hbase.ge) (hout.trans hbase)] at h
  have h : (if t.rows * t.rowBytes ≠ u64 (t.rows * u64 (t.secondary.perm.length * t.secondary.unitBytes)) then _
    else _) = Except.ok r := h
  rw [hrow64, hcount64, if_pos hcon.1] at h
  cases h

end

/-! ### Elements -/

section
variable {t} {base : Bytes} {α : Type} (widen : Bytes → α)

theorem length_elements_rows {b : Bytes} (hb : b.length = t.rows * t.rowBytes) :
    (elements widen t.dtype.size b).length = t.rows * t.width := by
  rw [length_elements, hb, rowBytes, ← Nat.mul_assoc, Nat.mul_div_cancel _ t.dtype.size_pos]

theorem getElem?_elements_row {b : Bytes} (hb : b.length = t.rows * t.rowBytes) {r k : Nat} (hr : r < t.rows)
    (hk : k < t.width) : (elements widen t.dtype.size b)[r * t.width + k]? =
      some (widen (unit (unit b t.rowBytes r) t.dtype.size k)) := by
  have hlen := length_elements_rows widen hb
  rw [length_elements] at hlen
  rw [getElem?_elements widen, rowBytes, unit_unit b hk]
  rw [hlen]
  have : (r + 1) * t.width ≤ t.rows * t.width := Nat.mul_le_mul_right _ hr
  rw [Nat.succ_mul] at this
  omega

/-- Where the widths hold, the blocks of bytes are the elements that the aligner moves. -/
theorem units_secondary (h32 : t.width < 2 ^ 32) (hunit : t.trailing.prod * t.dtype.size < 2 ^ 32) (row : Bytes) :
    units row t.secondary.unitBytes t.secondary.perm =
      units row t.dtype.size (expandPermutation t.perm (t.block * t.trailing.prod)) := by
  by_cases h0 : t.trailing.prod = 0
  · -- A column of no bytes: both sides gather nothing.
    have hnil : expandPermutation t.perm (t.block * t.trailing.prod) = [] := by
      rw [h0, Nat.mul_zero]
      simp [expandPermutation]
    have hzero : t.secondary.unitBytes = 0 := by rw [t.unitBytes_eq, h0, Nat.zero_mul]; rfl
    rw [hnil, hzero]
    simp [units, unit]
  · have hcols : t.size * t.block ≤ 2 ^ 32 := by
      refine le_trans ?_ h32.le
      exact Nat.le_mul_of_pos_right _ (Nat.pos_of_ne_zero h0)
    rw [t.unitBytes_eq, u32_of_lt hunit, units_blocks]
    show units row _ ((expandPermutation t.perm t.block).flatMap _) = _
    rw [expandPermutation_eq fun p hp => (Nat.mul_le_mul_right _ (t.perm_lt hp)).trans hcols,
      expandPermutation_expand (fun p hp => t.perm_lt hp) (by rw [← Nat.mul_assoc]; exact h32.le)]

/-- The convention: element `k` of a moved row is element `full[k]` of the base row. -/
theorem column (hbase : base.length = t.rows * t.rowBytes)
    (hrow : t.secondary.perm.length * t.secondary.unitBytes = t.rowBytes) (h32 : t.width < 2 ^ 32)
    (hunit : t.trailing.prod * t.dtype.size < 2 ^ 32) {r k q : Nat} (hr : r < t.rows)
    (hq : (expandPermutation t.perm (t.block * t.trailing.prod))[k]? = some q) :
    (elements widen t.dtype.size (t.moved base))[r * t.width + k]? =
      (elements widen t.dtype.size base)[r * t.width + q]? := by
  have hwidth : t.size * (t.block * t.trailing.prod) = t.width := (Nat.mul_assoc _ _ _).symm
  obtain ⟨hk, hget⟩ := List.getElem?_eq_some_iff.mp hq
  have hlen : (expandPermutation t.perm (t.block * t.trailing.prod)).length = t.width := by
    rw [length_expandPermutation, t.length_perm, hwidth]
  have hall : ∀ q ∈ expandPermutation t.perm (t.block * t.trailing.prod), q < t.width := fun q hq =>
    hwidth ▸ expandPermutation_lt (fun p hp => t.perm_lt hp) (by rw [hwidth]; exact h32.le) q hq
  have hqlt := hall q (List.mem_of_getElem? hq)
  have hrowlen := length_unit base (row_le hbase.ge hr)
  have hin : ∀ i ∈ expandPermutation t.perm (t.block * t.trailing.prod),
      (i + 1) * t.dtype.size ≤ (unit base t.rowBytes r).length := fun i hi => by
    rw [hrowlen]
    exact Nat.mul_le_mul_right _ (hall i hi)
  rw [getElem?_elements_row widen ((length_moved hbase hrow).trans hbase) hr (hlen ▸ hk),
    getElem?_elements_row widen hbase hr hqlt, moved, unit_moveColumns t.secondary_lt hrow hbase.ge hr,
    units_secondary h32 hunit, unit_units _ _ _ hin k hk, hget]

end

/-! ### The widths -/

theorem rowBytes_eq (t : ColumnAxis) : t.rowBytes = t.size * t.block * (t.trailing.prod * t.dtype.size) := by
  rw [rowBytes, width, Nat.mul_assoc (t.size * t.block)]

theorem row_of_fits {t : ColumnAxis} (h : t.width = 0 ∨ t.trailing.prod * t.dtype.size < 2 ^ 32) :
    t.secondary.perm.length * t.secondary.unitBytes = t.rowBytes := by
  rw [length_secondary, unitBytes_eq, rowBytes_eq]
  rcases h with h | h
  · rcases Nat.mul_eq_zero.mp h with h0 | h0
    · rw [h0, Nat.zero_mul, Nat.zero_mul]
    · rw [h0, Nat.zero_mul]
      rfl
  · rw [u32_of_lt h]

/-- Where rows are as wide as their columns, no width was cut off. -/
theorem fits_of_row {t : ColumnAxis} (hpos : t.width ≠ 0)
    (h : t.secondary.perm.length * t.secondary.unitBytes = t.rowBytes) : t.trailing.prod * t.dtype.size < 2 ^ 32 := by
  rw [length_secondary, unitBytes_eq, rowBytes_eq] at h
  have hcols : 0 < t.size * t.block := Nat.pos_of_ne_zero fun h0 => hpos (by rw [width, h0, Nat.zero_mul])
  rw [← Nat.eq_of_mul_eq_mul_left hcols h]
  exact u32_lt _

theorem columns_le (t : ColumnAxis) : t.secondary.perm.length * t.secondary.unitBytes ≤ t.rowBytes := by
  rw [length_secondary, unitBytes_eq, rowBytes_eq]
  exact Nat.mul_le_mul_left _ (Nat.mod_le _ _)

theorem width_div {t : ColumnAxis} (hpos : t.width ≠ 0) : t.width / t.size = t.block * t.trailing.prod := by
  have hsize : 0 < t.size := Nat.pos_of_ne_zero fun h0 => hpos (by rw [width, h0, Nat.zero_mul, Nat.zero_mul])
  rw [width, Nat.mul_assoc, Nat.mul_div_cancel_left _ hsize]

end ColumnAxis

/-! ### Agreement -/

variable {α : Type} {t : ColumnAxis} {widen : Bytes → α} {zero : α} {base : Bytes}

/-- What the three modules promise each other about the tensor, over any source
and any base that read `base`. -/
structure ConventionsAgree (t : ColumnAxis) (widen : Bytes → α) (zero : α) (base : Bytes) : Prop where
  /-- The aligner takes back the planner's move. -/
  undone : ∀ (inner : TensorSource) (name : String) (axes : List AxisBinding) (other : AxisBinding)
    (solved : PermutationMap), inner.ReadsRows name base t.rowBytes → otherBinding axes 0 = some other →
    solved.get? other.group = some t.perm →
    ∃ moved, (t.moving inner name).readUnits name 0 t.rows (List.replicate base.length 0) = .ok (base.length, moved) ∧
      reorderIfSolved zero (elements widen t.dtype.size moved) axes t.width solved =
        .ok (elements widen t.dtype.size base)
  /-- The reader moves the columns of gathered rows, the writer gathers rows whose columns have moved. -/
  commute : ∀ (inner : TensorSource) (readBase : BaseRead) (name : String) (order : List Nat),
    inner.ReadsRows name base t.rowBytes → Reads readBase base → order.Perm (List.range t.rows) → t.rows ≤ 2 ^ 32 →
    ∀ first count, 0 < count → first + count ≤ t.rows →
    ∃ out, baseFrame readBase name order t.secondary first (first + count) t.rowBytes = .ok out ∧
      gatherBaseUnits (t.moving inner name) name order first count t.rowBytes = .ok out

/-- The planner's adapter is this view. -/
theorem adaptMember_moving {target src : TensorSource} {topo : Topology} {report : MatchReport} {tensor group : String}
    {axes : List AxisBinding} {gm : GroupMatch} {m : TensorMeta} (haxes : topo.tensors.get? tensor = some axes)
    (hsec : secondaryBinding axes = some ⟨1, group, t.block⟩) (hmoves : groupIsEffectivelyIdentity topo report group = false)
    (hgm : report.groups.get? group = some gm) (hperm : gm.permutation = t.perm)
    (hm : target.tensorMeta tensor = some m) (hshape : m.shape = t.shape) (hdtype : m.dtype = t.dtype) :
    adaptMember target topo report src tensor = .ok (t.moving src tensor) := by
  unfold adaptMember
  rw [haxes]
  simp only [Option.bind_some, hsec, hmoves, Bool.false_eq_true, if_false, hgm, hm, hshape, hdtype]
  show Except.ok (columnPermutingSource src tensor (expand gm.permutation t.block) _) = _
  rw [hperm]
  rfl

/-- The reorder past its guards. -/
theorem reorderIfSolved_eq {raw : List α} {axes : List AxisBinding} {other : AxisBinding} {solved : PermutationMap}
    (hother : otherBinding axes 0 = some other) (hsolved : solved.get? other.group = some t.perm) (hwide : 1 < t.width) :
    reorderIfSolved zero raw axes t.width solved = reorderColumns zero raw t.width t.perm := by
  have hsize : t.size ≠ 0 := fun h0 => by
    rw [ColumnAxis.width, h0, Nat.zero_mul, Nat.zero_mul] at hwide
    omega
  have hne : t.perm ≠ [] := fun h => hsize (by rw [← t.length_perm, h]; rfl)
  have hdvd : t.width % t.perm.length = 0 := by
    rw [t.length_perm, ColumnAxis.width, Nat.mul_assoc]
    exact Nat.mul_mod_right _ _
  unfold reorderIfSolved
  rw [if_neg (by omega), hother]
  dsimp only
  rw [hsolved]
  dsimp only
  rw [if_neg (by simp [hne, hdvd])]

section
variable (hbase : base.length = t.rows * t.rowBytes)
include hbase

/-- The planner's move and the aligner's reorder cancel, element by element. -/
theorem elements_undone (hunit : t.trailing.prod * t.dtype.size < 2 ^ 32) (h32 : t.width < 2 ^ 32)
    {axes : List AxisBinding} {other : AxisBinding} {solved : PermutationMap} (hother : otherBinding axes 0 = some other)
    (hsolved : solved.get? other.group = some t.perm) :
    reorderIfSolved zero (elements widen t.dtype.size (t.moved base)) axes t.width solved =
      .ok (elements widen t.dtype.size base) := by
  have hrow := ColumnAxis.row_of_fits (t := t) (.inr hunit)
  have hlen := ColumnAxis.length_elements_rows widen ((ColumnAxis.length_moved hbase hrow).trans hbase)
  have hlen' := ColumnAxis.length_elements_rows widen hbase
  rcases Nat.lt_trichotomy t.width 1 with h0 | h1 | hwide
  · rw [Nat.lt_one_iff.mp h0, Nat.mul_zero] at hlen hlen'
    rw [List.length_eq_zero_iff.mp hlen, List.length_eq_zero_iff.mp hlen']
    exact if_pos h0.le
  · -- One column, which can only stay where it is.
    have hfull : expandPermutation t.perm (t.block * t.trailing.prod) = [0] := by
      have hwidth : t.size * (t.block * t.trailing.prod) = 1 := by rw [← Nat.mul_assoc]; exact h1
      have hperm := expand_perm t.bijective (b := t.block * t.trailing.prod) (by rw [hwidth]; decide)
      rw [hwidth] at hperm
      exact hperm.eq_singleton
    have hsame : elements widen t.dtype.size (t.moved base) = elements widen t.dtype.size base := by
      refine List.ext_getElem? fun i => ?_
      by_cases hi : i < t.rows
      · have := ColumnAxis.column widen hbase hrow h32 hunit hi (k := 0) (q := 0) (by rw [hfull]; rfl)
        rwa [h1, Nat.mul_one] at this
      · rw [List.getElem?_eq_none (by rw [hlen, h1]; omega), List.getElem?_eq_none (by rw [hlen', h1]; omega)]
    rw [hsame]
    exact if_pos h1.le
  · have hdiv := ColumnAxis.width_div (t := t) (by omega)
    rw [reorderIfSolved_eq hother hsolved hwide]
    refine reorderColumns_undo t.bijective (by omega) ⟨t.block * t.trailing.prod, Nat.mul_assoc _ _ _⟩ h32 hlen hlen'
      fun r hr k q hq => ?_
    rw [hdiv] at hq
    exact ColumnAxis.column widen hbase hrow h32 hunit hr hq

variable (hmax : base.length < kMaxVector)
include hmax

theorem undone_of_row {inner : TensorSource} {name : String} {axes : List AxisBinding} {other : AxisBinding}
    {solved : PermutationMap} (hin : inner.ReadsRows name base t.rowBytes) (hother : otherBinding axes 0 = some other)
    (hsolved : solved.get? other.group = some t.perm)
    (hfits : t.width = 0 ∨ t.width < 2 ^ 32 ∧ t.trailing.prod * t.dtype.size < 2 ^ 32) :
    ∃ moved, (t.moving inner name).readUnits name 0 t.rows (List.replicate base.length 0) = .ok (base.length, moved) ∧
      reorderIfSolved zero (elements widen t.dtype.size moved) axes t.width solved =
        .ok (elements widen t.dtype.size base) := by
  have hrow := ColumnAxis.row_of_fits (t := t) (hfits.imp_right And.right)
  have hlen := ColumnAxis.length_moved hbase hrow
  have hread := ColumnAxis.moving_reads hbase hmax hin hrow 0 t.rows (List.replicate base.length 0)
    (by rw [Nat.zero_add, hlen]; exact hbase.ge) (by rw [List.length_replicate, hbase])
  rw [Nat.zero_mul, ← hbase, ← hlen, slice_full, hlen] at hread
  refine ⟨t.moved base, hread, ?_⟩
  rcases hfits with h0 | ⟨h32, hunit⟩
  · have hnil : ∀ b : Bytes, b.length = t.rows * t.rowBytes → elements widen t.dtype.size b = [] := fun b hb =>
      List.length_eq_zero_iff.mp (by rw [ColumnAxis.length_elements_rows widen hb, h0, Nat.mul_zero])
    rw [hnil _ hbase, hnil _ (hlen.trans hbase)]
    exact if_pos (by omega)
  · exact elements_undone hbase hunit h32 hother hsolved

omit hmax in
/-- Without rows there is nothing to move, and the aligner's loops run over the columns alone. -/
theorem undone_of_empty {inner : TensorSource} {name : String} {axes : List AxisBinding} {other : AxisBinding}
    {solved : PermutationMap} (hin : inner.ReadsRows name base t.rowBytes) (hother : otherBinding axes 0 = some other)
    (hsolved : solved.get? other.group = some t.perm) (hrows : t.rows = 0)
    (hcols : t.size * u32 (t.block * t.trailing.prod) < 2 ^ 32) :
    ∃ moved, (t.moving inner name).readUnits name 0 t.rows (List.replicate base.length 0) = .ok (base.length, moved) ∧
      reorderIfSolved zero (elements widen t.dtype.size moved) axes t.width solved =
        .ok (elements widen t.dtype.size base) := by
  rw [hrows, Nat.zero_mul] at hbase
  cases List.length_eq_zero_iff.mp hbase
  have hnil : elements widen t.dtype.size [] = [] := by simp [elements]
  refine ⟨[], ?_, ?_⟩
  · have hread := hin 0 0 [] (by simp) (by simp)
    rw [hrows]
    unfold ColumnAxis.moving columnPermutingSource
    dsimp only
    rw [if_neg (not_not.mpr rfl)]
    show ((inner.readUnits name 0 0 []) >>= _) = _
    rw [hread]
    simp [Bind.bind, Except.bind, permuteRows, u64, pure, Except.pure]
  · rw [hnil]
    by_cases hwide : 1 < t.width
    · rw [reorderIfSolved_eq hother hsolved hwide]
      have hdiv := ColumnAxis.width_div (t := t) (by omega)
      obtain ⟨inv, hinv, -⟩ := invertPermutation_spec (expand_perm t.bijective hcols.le) hcols
      have hne : t.perm ≠ [] := fun h => by
        have hsize : t.size = 0 := by rw [← t.length_perm, h]; rfl
        rw [ColumnAxis.width, hsize, Nat.zero_mul, Nat.zero_mul] at hwide
        omega
      unfold reorderColumns
      rw [if_neg (by simp [hne]; omega), t.length_perm, hdiv]
      exact bind_eq_ok.mpr ⟨inv, hinv, by simp [grid, pure, Except.pure]⟩
    · exact if_pos (by omega)

theorem commute_of_row (hrow : t.secondary.perm.length * t.secondary.unitBytes = t.rowBytes) {inner : TensorSource}
    {readBase : BaseRead} {name : String} {order : List Nat} (hin : inner.ReadsRows name base t.rowBytes)
    (hr : Reads readBase base) (horder : order.Perm (List.range t.rows)) (hrows : t.rows ≤ 2 ^ 32) {first count : Nat}
    (hle : first + count ≤ t.rows) :
    ∃ out, baseFrame readBase name order t.secondary first (first + count) t.rowBytes = .ok out ∧
      gatherBaseUnits (t.moving inner name) name order first count t.rowBytes = .ok out := by
  have hlen : order.length = t.rows := horder.length_eq.trans List.length_range
  have hlt : ∀ p ∈ order, p < t.rows := fun p hp => List.mem_range.mp (horder.mem_iff.mp hp)
  have hslice : ∀ p ∈ slice order first count, p < t.rows := fun p hp =>
    hlt p (List.mem_of_mem_drop (List.mem_of_mem_take hp))
  have hslicelen : (slice order first count).length = count := by rw [length_slice]; omega
  have hmovedlen := (ColumnAxis.length_moved hbase hrow).trans hbase
  have hcount : count * t.rowBytes ≤ base.length := hbase ▸ Nat.mul_le_mul_right _ (by omega)
  refine ⟨_, ?_, gatherBaseUnits_eq (ColumnAxis.moving_reads hbase hmax hin hrow) (hlen ▸ hle) hlt hrows hmovedlen.ge⟩
  have hgather := gatherBaseBytes_units hr name (hlen ▸ hle) (hlen ▸ hlt) (hlen ▸ hrows) (hlen ▸ hbase)
    (by unfold kMaxVector at hmax; omega) (hcount.trans_lt hmax)
  refine bind_eq_ok.mpr ⟨_, hgather, ?_⟩
  rw [ColumnAxis.moved, units_moveColumns t.secondary_lt hrow hbase.ge _ hslice, hslicelen]
  cases hperm : t.secondary.perm with
  | nil =>
    -- No columns: the rows are empty.
    have h0 : t.rowBytes = 0 := by rw [← hrow, hperm, List.length_nil, Nat.zero_mul]
    have hnil : units base t.rowBytes (slice order first count) = [] := List.length_eq_zero_iff.mp (by
      rw [length_units _ _ _ fun i hi => hbase ▸ Nat.mul_le_mul_right _ (hslice i hi), h0, Nat.mul_zero])
    rw [hnil]
    simp [moveColumns, pure, Except.pure]
  | cons p rest =>
    refine bind_eq_ok.mpr ⟨_, zeroVector_eq t.rowBytes_lt, ?_⟩
    have hunits := length_units base t.rowBytes (slice order first count) fun i hi =>
      hbase ▸ Nat.mul_le_mul_right _ (hslice i hi)
    have hcols := t.secondary_lt
    have hwidth := hrow
    rw [hperm] at hcols hwidth
    rw [u64Sub_of_le (Nat.le_add_right _ _) (by omega), Nat.add_sub_cancel_left,
      permuteRows_eq hcols hwidth (by rw [hunits, hslicelen])]

/-- A cut-off width is noticed by one of them: the planner's rows are too short, or
the aligner's loops do not cover the columns. -/
theorem fits_of_agree (h : ConventionsAgree t widen zero base) : t.Fits := by
  have hsolved : ((FinMap.empty : PermutationMap).insert "c" t.perm).get? "c" = some t.perm := FinMap.get?_insert_self _ _ _
  obtain ⟨moved, hread, hreorder⟩ := h.undone (rowSource base t.rowBytes) "w" [⟨1, "c", t.block⟩] ⟨1, "c", t.block⟩ _
    (rowSource_reads base t.rowBytes "w") rfl hsolved
  by_contra hfits
  unfold ColumnAxis.Fits at hfits
  rw [not_or, not_or] at hfits
  obtain ⟨hpos, hempty, hwidths⟩ := hfits
  have hdiv := ColumnAxis.width_div hpos
  have hcols : t.size * u32 (t.block * t.trailing.prod) ≤ t.width := by
    rw [ColumnAxis.width, Nat.mul_assoc]
    exact Nat.mul_le_mul_left _ (Nat.mod_le _ _)
  have hmoving := ColumnAxis.moving_width hbase (rowSource_reads base t.rowBytes "w") (List.length_replicate ..) hread hmax
  rcases Nat.eq_zero_or_pos t.rows with hrows | hrows
  · have hlong : 2 ^ 32 ≤ t.size * u32 (t.block * t.trailing.prod) := not_lt.mp fun hlt => hempty ⟨hrows, hlt⟩
    rw [reorderIfSolved_eq rfl hsolved (by omega)] at hreorder
    have := (reorderColumns_fits hreorder).1
    rw [t.length_perm, hdiv] at this
    omega
  · have hrow : t.secondary.perm.length * t.secondary.unitBytes = t.rowBytes :=
      (Nat.eq_of_mul_eq_mul_left hrows (hmoving.resolve_right (not_lt.mpr t.columns_le))).symm
    have hlong : 2 ^ 32 ≤ t.width := not_lt.mp fun hlt => hwidths ⟨hlt, ColumnAxis.fits_of_row hpos hrow⟩
    have hmoved := ColumnAxis.moving_reads hbase hmax (rowSource_reads base t.rowBytes "w") hrow 0 t.rows
      (List.replicate base.length 0) (by rw [Nat.zero_add, ColumnAxis.length_moved hbase hrow]; exact hbase.ge)
      (by rw [List.length_replicate, hbase])
    have hlen : moved.length = t.rows * t.rowBytes := by
      rw [(Prod.mk.inj (Except.ok.inj (hread.symm.trans hmoved))).2, Nat.zero_mul, length_slice,
        ColumnAxis.length_moved hbase hrow]
      omega
    rw [reorderIfSolved_eq rfl hsolved (by omega)] at hreorder
    obtain ⟨hshort, hcovered⟩ := reorderColumns_fits hreorder
    rw [ColumnAxis.length_elements_rows widen hlen, Nat.mul_div_cancel _ (Nat.pos_of_ne_zero hpos), t.length_perm,
      hdiv] at hcovered
    rw [t.length_perm, hdiv] at hshort
    omega

/-- Aligner, planner and reader mean the same columns exactly where the 32-bit
widths hold. -/
theorem conventions_agree_iff : ConventionsAgree t widen zero base ↔ t.Fits := by
  refine ⟨fits_of_agree hbase hmax, fun hfits => ⟨fun inner name axes other solved hin hother hsolved => ?_,
    fun inner readBase name order hin hr horder hrows first count hpos hle => ?_⟩⟩
  · rcases hfits with h0 | ⟨hrows, hcols⟩ | hwidths
    · exact undone_of_row hbase hmax hin hother hsolved (.inl h0)
    · exact undone_of_empty hbase hin hother hsolved hrows hcols
    · exact undone_of_row hbase hmax hin hother hsolved (.inr hwidths)
  · have hrow : t.secondary.perm.length * t.secondary.unitBytes = t.rowBytes := by
      rcases hfits with h0 | ⟨hempty, -⟩ | hwidths
      · exact ColumnAxis.row_of_fits (.inl h0)
      · omega
      · exact ColumnAxis.row_of_fits (.inr hwidths.2)
    exact commute_of_row hbase hmax hrow hin hr horder hrows hle

end

/-- Two rows of three columns of a 2×2 kernel, the columns rotated. -/
def kernelAxis : ColumnAxis where
  rows := 2
  size := 3
  block := 1
  trailing := [2, 2]
  dtype := .f16
  perm := [1, 2, 0]
  bijective := by decide
  small := by decide

theorem conventions_agree_kernel :
    ConventionsAgree kernelAxis (fun b => b) [] ((List.range 48).map UInt8.ofNat) ∧ kernelAxis.Fits := by
  have hfits : kernelAxis.Fits := .inr (.inr (by decide))
  exact ⟨(conventions_agree_iff (by decide) (by decide)).mpr hfits, hfits⟩

/-- One row of two columns of 2^30 floats each, swapped: a column is 2^32 bytes. -/
def wideAxis : ColumnAxis where
  rows := 1
  size := 2
  block := 1
  trailing := [2 ^ 30]
  dtype := .f32
  perm := [1, 0]
  bijective := by decide
  small := by decide

/-- The planner takes such a column for one of no bytes. -/
theorem wide_conventions_differ : ¬ ConventionsAgree wideAxis (fun b => b) [] (List.replicate (2 ^ 33) 0) := by
  intro h
  have hlen : (List.replicate (2 ^ 33) (0 : UInt8)).length = wideAxis.rows * wideAxis.rowBytes := by
    rw [List.length_replicate]
    decide
  rcases fits_of_agree hlen (by rw [List.length_replicate]; decide) h with h0 | ⟨h0, -⟩ | ⟨-, h32⟩
  · exact absurd h0 (by decide)
  · exact absurd h0 (by decide)
  · exact absurd h32 (by decide)

end SynapseFs.Store
