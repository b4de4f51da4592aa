import SynapseFs.Core.Topology

/-! Bringing rows of the target into the base's frame along their other axis.

A solved permutation sends a target index to the base index whose place it takes,
so the columns are gathered by its inverse. The permutation is of groups of
columns: how many elements move together is what the row width leaves. -/
namespace SynapseFs.Align
open Lib Core

/-- `PermutationMap`: what has been solved so far. Empty means identity. -/
abbrev PermutationMap := FinMap String (List Nat)

/-- The dim-0 binding of a tensor, if it has one. -/
def dim0Binding (axes : List AxisBinding) : Option AxisBinding := axes.find? fun b => b.dim = 0

/-- The first binding on a different dim. -/
def otherBinding (axes : List AxisBinding) (excludeDim : Nat) : Option AxisBinding :=
  axes.find? fun b => b.dim ≠ excludeDim

section
variable {α : Type}

/-- The elements of a buffer, each through `widen`. -/
def elements (widen : Bytes → α) (size : Nat) (b : Bytes) : List α :=
  (List.range (b.length / size)).map fun i => widen (unit b size i)

/-- `out[r * w + k] = data[r * w + gather[k]]`. The indices in `gather` are below
its length, which is at most the row width. -/
def reorderColumns (zero : α) (data : List α) (rowWidth : Nat) (groupPerm : List Nat) : Outcome (List α) :=
  if groupPerm = [] ∨ rowWidth = 0 then .error (.undefined "division by zero")
  else do
    let block := u32 (rowWidth / groupPerm.length)
    let gather ← invertPermutation (expandPermutation groupPerm block)
    let numRows := data.length / rowWidth
    if numRows ≠ 0 ∧ gather.length < rowWidth then .error (.undefined "read outside the gather")
    else return grid numRows rowWidth (fun r k => data.getD (r * rowWidth + gather.getD k 0) zero) ++
      List.replicate (data.length % rowWidth) zero

/-- Nothing to do where the other axis has no solved permutation, or none that fits. -/
def reorderIfSolved (zero : α) (raw : List α) (axes : List AxisBinding) (rowWidth : Nat) (solved : PermutationMap) :
    Outcome (List α) :=
  if rowWidth ≤ 1 then .ok raw
  else
    match otherBinding axes 0 with
    | none => .ok raw
    | some other =>
      match solved.get? other.group with
      | none => .ok raw
      | some perm =>
        if perm = [] ∨ rowWidth % perm.length ≠ 0 then .ok raw else reorderColumns zero raw rowWidth perm

/-! ### What a reorder does -/

theorem length_elements (widen : Bytes → α) (size : Nat) (b : Bytes) : (elements widen size b).length = b.length / size := by
  simp [elements]

theorem getElem?_elements (widen : Bytes → α) {size : Nat} {b : Bytes} {i : Nat} (hi : i < b.length / size) :
    (elements widen size b)[i]? = some (widen (unit b size i)) := by
  simp [elements, hi]

variable {zero : α} {data base : List α} {rows rowWidth size : Nat} {perm : List Nat}

/-- Where column `k` of the data is column `full[k]` of the base, the columns come back. -/
theorem reorderColumns_undo (hp : perm.Perm (List.range size)) (hpos : 0 < rowWidth) (hdvd : size ∣ rowWidth)
    (h32 : rowWidth < 2 ^ 32) (hdata : data.length = rows * rowWidth) (hbase : base.length = rows * rowWidth)
    (hmoved : ∀ r < rows, ∀ k q, (expandPermutation perm (rowWidth / size))[k]? = some q →
      data[r * rowWidth + k]? = base[r * rowWidth + q]?) :
    reorderColumns zero data rowWidth perm = .ok base := by
  have hlen : perm.length = size := hp.length_eq.trans List.length_range
  have hwidth : size * (rowWidth / size) = rowWidth := Nat.mul_div_cancel' hdvd
  have hsize : 0 < size := Nat.pos_of_ne_zero fun h0 => by
    rw [h0, Nat.zero_mul] at hwidth
    omega
  have hblock : u32 (rowWidth / size) = rowWidth / size := u32_of_lt ((Nat.div_le_self _ _).trans_lt h32)
  have hfull : (expandPermutation perm (rowWidth / size)).Perm (List.range rowWidth) := by
    have := hp.flatMap_right fun p => (List.range (rowWidth / size)).map fun b => u32 (u32 (p * (rowWidth / size)) + b)
    have hid := expandPermutation_range size (rowWidth / size) (by omega)
    rw [hwidth] at hid
    rw [← hid]
    exact this
  obtain ⟨inv, hinv, hinvlen, hback⟩ := invertPermutation_spec hfull h32
  have hrows : data.length / rowWidth = rows := by rw [hdata, Nat.mul_div_cancel _ hpos]
  have hrest : data.length % rowWidth = 0 := by rw [hdata, Nat.mul_mod_left]
  have hne : perm ≠ [] := fun h => by
    rw [h] at hlen
    exact absurd hlen.symm hsize.ne'
  unfold reorderColumns
  rw [if_neg (by simp [hne, hpos.ne']), hlen, hblock]
  refine bind_eq_ok.mpr ⟨inv, hinv, ?_⟩
  rw [if_neg (by omega), hrows, hrest, List.replicate_zero, List.append_nil]
  have hgrid : grid rows rowWidth (fun r k => data.getD (r * rowWidth + inv.getD k 0) zero) =
      grid rows rowWidth fun r k => base.getD (r * rowWidth + k) zero := by
    refine grid_congr fun r hr k hk => ?_
    -- `k` is the image of some `j`, and the inverse takes it back there.
    obtain ⟨j, hj⟩ := List.mem_iff_getElem?.mp (hfull.mem_iff.mpr (List.mem_range.mpr hk))
    simp only [List.getD_eq_getElem?_getD, hback j k hj, Option.getD_some]
    rw [hmoved r hr j k hj]
  show Except.ok _ = _
  rw [hgrid, grid_getD _ _ _ _ hbase.ge, List.take_of_length_le hbase.le]

/-- The inverse is as long as the permutation, which is shorter than 2^32. -/
theorem invertPermutation_length {full inv : List Nat} (h : invertPermutation full = .ok inv) :
    inv.length = full.length ∧ full.length < 2 ^ 32 := by
  unfold invertPermutation at h
  split at h
  · cases h
  · next hlt =>
    split at h
    · cases h
    · cases h
      rw [foldl_set_length, List.length_replicate]
      exact ⟨rfl, not_le.mp hlt⟩

/-- A reorder that returns has found every column of every row. -/
theorem reorderColumns_fits {out : List α} (h : reorderColumns zero data rowWidth perm = .ok out) :
    perm.length * u32 (rowWidth / perm.length) < 2 ^ 32 ∧
      (data.length / rowWidth = 0 ∨ rowWidth ≤ perm.length * u32 (rowWidth / perm.length)) := by
  unfold reorderColumns at h
  split at h
  · cases h
  · obtain ⟨inv, hinv, h⟩ := bind_eq_ok.mp h
    obtain ⟨hlen, hlt⟩ := invertPermutation_length hinv
    rw [length_expandPermutation] at hlen hlt
    refine ⟨hlt, ?_⟩
    dsimp only at h
    split at h
    · cases h
    · next hread => omega

end

end SynapseFs.Align
