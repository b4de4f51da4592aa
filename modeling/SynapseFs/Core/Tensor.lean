import SynapseFs.Core.Error
import SynapseFs.Lib.Bytes

/-! Tensors as a checkpoint declares them, and runs of output units.

A unit is everything behind one index of dim 0. -/
namespace SynapseFs.Core
open Lib

inductive DType where
  | f16 | bf16 | f32 | f64
  | i8 | i16 | i32 | i64
  | u8 | u16 | u32 | u64
  | bool
  deriving DecidableEq, Repr

namespace DType

/-- The names that safetensors writes. -/
def toString : DType → String
  | f16 => "F16" | bf16 => "BF16" | f32 => "F32" | f64 => "F64"
  | i8 => "I8" | i16 => "I16" | i32 => "I32" | i64 => "I64"
  | u8 => "U8" | u16 => "U16" | u32 => "U32" | u64 => "U64"
  | bool => "BOOL"

def fromString (s : String) : Outcome DType :=
  match [f16, bf16, f32, f64, i8, i16, i32, i64, u8, u16, u32, u64, bool].find? fun d => d.toString = s with
  | some d => .ok d
  | none => sfsErr .unsupportedDType "unknown safetensors dtype" s

def size : DType → Nat
  | bool | i8 | u8 => 1
  | f16 | bf16 | i16 | u16 => 2
  | f32 | i32 | u32 => 4
  | f64 | i64 | u64 => 8

theorem fromString_toString (d : DType) : fromString d.toString = .ok d := by
  cases d <;> rfl

theorem size_pos (d : DType) : 0 < d.size := by
  cases d <;> decide

end DType

/-- Shape and dtype, as declared in the safetensors header. -/
structure TensorMeta where
  shapeOwner : String
  shape : List Nat
  dtype : DType
  dataOff : Nat
  nbytes : Nat
  deriving DecidableEq, Repr

/-- Bytes per output unit along `dim`. -/
def TensorMeta.unitBytes (m : TensorMeta) (dim : Nat) : Outcome Nat :=
  match m.shape[dim]? with
  | none => sfsErr .shapeMismatch "axis out of range for tensor" m.shapeOwner
  | some units =>
    if units = 0 then sfsErr .shapeMismatch "zero-length axis" m.shapeOwner
    else if m.nbytes % units ≠ 0 then
      sfsErr .shapeMismatch "tensor bytes do not divide evenly by axis length" m.shapeOwner
    else .ok (m.nbytes / units)

theorem TensorMeta.unitBytes_eq_ok {m : TensorMeta} {dim w : Nat} (h : m.unitBytes dim = .ok w) :
    ∃ units, m.shape[dim]? = some units ∧ 0 < units ∧ m.nbytes = units * w := by
  unfold unitBytes at h
  split at h
  · exact absurd h sfsErr_ne_ok
  · next units hu =>
    split at h
    · exact absurd h sfsErr_ne_ok
    · next hz =>
      split at h
      · exact absurd h sfsErr_ne_ok
      · next hd =>
        cases h
        refine ⟨units, hu, Nat.pos_of_ne_zero hz, ?_⟩
        exact (Nat.mul_div_cancel' (Nat.dvd_of_mod_eq_zero (not_not.mp hd))).symm

theorem TensorMeta.unitBytes_of_units {m : TensorMeta} {dim units w : Nat} (hd : m.shape[dim]? = some units)
    (hpos : 0 < units) (hn : m.nbytes = units * w) : m.unitBytes dim = .ok w := by
  unfold unitBytes
  rw [hd]
  dsimp only
  rw [if_neg hpos.ne', hn, Nat.mul_mod_right, if_neg (not_not.mpr rfl), Nat.mul_div_cancel_left _ hpos]

/-! ### Runs of units -/

structure UnitRun where
  first : Nat
  count : Nat
  deriving DecidableEq, Repr

/-- The rest of the loop, with the run that is open. -/
def toRunsFrom (start count : Nat) : List Nat → List UnitRun
  | [] => [⟨start, count⟩]
  | i :: rest =>
    if i = start + count then toRunsFrom start (count + 1) rest
    else ⟨start, count⟩ :: toRunsFrom i 1 rest

/-- Collapse ascending unit indices into runs. -/
def toRuns : List Nat → List UnitRun
  | [] => []
  | i :: rest => toRunsFrom i 1 rest

def UnitRun.Covers (r : UnitRun) (p : Nat) : Prop := r.first ≤ p ∧ p < r.first + r.count

theorem toRunsFrom_covers (p : Nat) (l : List Nat) : ∀ start count,
    (∃ r ∈ toRunsFrom start count l, r.Covers p) ↔ (start ≤ p ∧ p < start + count) ∨ p ∈ l := by
  induction l with
  | nil => simp [toRunsFrom, UnitRun.Covers]
  | cons i rest ih =>
    intro start count
    unfold toRunsFrom
    split
    · next he =>
      have : (start ≤ p ∧ p < start + (count + 1)) ↔ (start ≤ p ∧ p < start + count) ∨ p = i := by omega
      rw [ih, List.mem_cons, this, or_assoc]
    · simp only [List.mem_cons, exists_eq_or_imp, ih]
      have : (i ≤ p ∧ p < i + 1) ↔ p = i := by omega
      rw [this]
      rfl

/-- The runs cover exactly the indices, in whatever order those come. -/
theorem toRuns_covers (l : List Nat) (p : Nat) : (∃ r ∈ toRuns l, r.Covers p) ↔ p ∈ l := by
  cases l with
  | nil => simp [toRuns]
  | cons i rest =>
    rw [toRuns, toRunsFrom_covers, List.mem_cons]
    have : (i ≤ p ∧ p < i + 1) ↔ p = i := by omega
    rw [this]

theorem toRunsFrom_pos (l : List Nat) : ∀ start count, 0 < count → ∀ r ∈ toRunsFrom start count l, 0 < r.count := by
  induction l with
  | nil =>
    intro start count h r hr
    rw [List.mem_singleton.mp hr]
    exact h
  | cons i rest ih =>
    intro start count h r hr
    unfold toRunsFrom at hr
    split at hr
    · exact ih start (count + 1) (Nat.succ_pos _) r hr
    · rcases List.mem_cons.mp hr with rfl | hr
      · exact h
      · exact ih i 1 Nat.one_pos r hr

theorem toRuns_pos {l : List Nat} {r : UnitRun} (h : r ∈ toRuns l) : 0 < r.count := by
  cases l with
  | nil => cases h
  | cons i rest => exact toRunsFrom_pos rest i 1 Nat.one_pos r h

theorem toRunsFrom_count_le (l : List Nat) : ∀ start count, ∀ r ∈ toRunsFrom start count l,
    r.count ≤ count + l.length := by
  induction l with
  | nil =>
    intro start count r hr
    rw [List.mem_singleton.mp hr]
    exact le_rfl
  | cons i rest ih =>
    intro start count r hr
    unfold toRunsFrom at hr
    rw [List.length_cons]
    split at hr
    · have := ih start (count + 1) r hr
      omega
    · rcases List.mem_cons.mp hr with rfl | hr
      · exact Nat.le_add_right _ _
      · have := ih i 1 r hr
        omega

theorem toRuns_count_le {l : List Nat} {r : UnitRun} (h : r ∈ toRuns l) : r.count ≤ l.length := by
  cases l with
  | nil => cases h
  | cons i rest =>
    have := toRunsFrom_count_le rest i 1 r h
    rw [List.length_cons]
    omega

/-- A run over indices below `n` ends by `n`. -/
theorem toRuns_le {l : List Nat} {r : UnitRun} {n : Nat} (h : r ∈ toRuns l) (hn : ∀ p ∈ l, p < n) :
    r.first + r.count ≤ n := by
  have hpos := toRuns_pos h
  have := hn _ ((toRuns_covers l (r.first + r.count - 1)).mp ⟨r, h, by constructor <;> omega⟩)
  omega

end SynapseFs.Core
