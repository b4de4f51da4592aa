import Mathlib.Data.List.Range
import SynapseFs.Core.Error
import SynapseFs.Lib.Bytes
import SynapseFs.Lib.FinMap

/-! Permutation groups: which tensor axes move together.

Permutations are lists of 32-bit unit indices; the arithmetic of
`expandPermutation` wraps as the type does. -/
namespace SynapseFs.Core
open Lib

structure PermGroup where
  /-- The number of units. -/
  size : Nat
  /-- Identity is the only legal permutation. -/
  pinned : Bool
  deriving DecidableEq, Repr

structure AxisBinding where
  dim : Nat
  group : String
  /-- `shape[dim] = size * block`. -/
  block : Nat
  deriving DecidableEq, Repr

structure Topology where
  groups : FinMap String PermGroup
  /-- Only the axes that carry a permutation. -/
  tensors : FinMap String (List AxisBinding)

namespace Topology

def findGroup (t : Topology) (name : String) : Option PermGroup := t.groups.get? name

def validateAxis (t : Topology) (tensor : String) (shape : List Nat) (axis : AxisBinding) : Outcome Unit :=
  match shape[axis.dim]? with
  | none => sfsErr .topologyParse "axis out of range" tensor
  | some len =>
    match t.findGroup axis.group with
    | none => sfsErr .topologyParse "axis references unknown group" axis.group
    | some g =>
      if len ≠ u64 (g.size * axis.block) then
        sfsErr .blockFactorMismatch ("shape[dim] != group.size * block for " ++ tensor) axis.group
      else .ok ()

/-- Every axis resolves, every group is non-empty, and every listed axis has the
length of its group. -/
def validate (t : Topology) (shapes : FinMap String (List Nat)) : Outcome Unit := do
  forM t.groups.entries fun (name, g) =>
    if g.size = 0 then sfsErr .topologyParse "empty permutation group" name else .ok ()
  forM t.tensors.entries fun (tensor, axes) =>
    match shapes.get? tensor with
    | none => sfsErr .topologyIncomplete "topology references unknown tensor" tensor
    | some shape => forM axes fun axis => t.validateAxis tensor shape axis

/-- What a validated topology is. -/
theorem validate_spec {t : Topology} {shapes : FinMap String (List Nat)} (h : t.validate shapes = .ok ()) :
    (∀ name g, t.findGroup name = some g → 0 < g.size) ∧
      ∀ tensor axes, t.tensors.get? tensor = some axes → ∃ shape, shapes.get? tensor = some shape ∧
        ∀ axis ∈ axes, ∃ g, t.findGroup axis.group = some g ∧ shape[axis.dim]? = some (u64 (g.size * axis.block)) := by
  obtain ⟨_, hgroups, htensors⟩ := bind_eq_ok.mp h
  refine ⟨fun name g hg => ?_, fun tensor axes haxes => ?_⟩
  · have hgroup := forM_eq_ok.mp hgroups (name, g) (FinMap.get?_eq_some.mp hg)
    dsimp only at hgroup
    split at hgroup
    · exact absurd hgroup sfsErr_ne_ok
    · next hz => exact Nat.pos_of_ne_zero hz
  · have htensor := forM_eq_ok.mp htensors (tensor, axes) (FinMap.get?_eq_some.mp haxes)
    dsimp only at htensor
    split at htensor
    · exact absurd htensor sfsErr_ne_ok
    · next shape hshape =>
      refine ⟨shape, hshape, fun axis haxis => ?_⟩
      have hone := forM_eq_ok.mp htensor axis haxis
      unfold validateAxis at hone
      split at hone
      · exact absurd hone sfsErr_ne_ok
      · next len hlen =>
        split at hone
        · exact absurd hone sfsErr_ne_ok
        · next g hg =>
          split at hone
          · exact absurd hone sfsErr_ne_ok
          · next heq => exact ⟨g, hg, by rw [hlen, not_not.mp heq]⟩

end Topology

/-! ### Permutations -/

def expandPermutation (perm : List Nat) (block : Nat) : List Nat :=
  perm.flatMap fun p => (List.range block).map fun b => u32 (u32 (p * block) + b)

/-- The loop behind `seen`. -/
def isValidFrom (n : Nat) : List Nat → List Nat → Bool
  | _, [] => true
  | seen, p :: rest => if n ≤ p ∨ p ∈ seen then false else isValidFrom n (p :: seen) rest

/-- `perm` is a bijection on `[0, n)`. -/
def isValidPermutation (perm : List Nat) (n : Nat) : Bool :=
  if perm.length ≠ n then false else isValidFrom n [] perm

theorem isValidFrom_iff (n : Nat) (l : List Nat) : ∀ seen, isValidFrom n seen l = true ↔
    (∀ p ∈ l, p < n ∧ p ∉ seen) ∧ l.Nodup := by
  induction l with
  | nil => simp [isValidFrom]
  | cons p rest ih =>
    intro seen
    unfold isValidFrom
    split
    · next h =>
      refine ⟨nofun, fun hall => ?_⟩
      have := hall.1 p List.mem_cons_self
      rcases h with h | h
      · omega
      · exact absurd h this.2
    · next h =>
      rw [not_or, not_le] at h
      rw [ih, List.nodup_cons]
      constructor
      · rintro ⟨hall, hnd⟩
        refine ⟨fun q hq => ?_, fun hm => (hall p hm).2 List.mem_cons_self, hnd⟩
        rcases List.mem_cons.mp hq with rfl | hq
        · exact h
        · exact ⟨(hall q hq).1, fun hs => (hall q hq).2 (List.mem_cons_of_mem _ hs)⟩
      · rintro ⟨hall, hp, hnd⟩
        refine ⟨fun q hq => ⟨(hall q (List.mem_cons_of_mem _ hq)).1, fun hs => ?_⟩, hnd⟩
        rcases List.mem_cons.mp hs with rfl | hs
        · exact hp hq
        · exact (hall q (List.mem_cons_of_mem _ hq)).2 hs

/-- What a validated permutation is. -/
theorem isValidPermutation_iff {perm : List Nat} {n : Nat} :
    isValidPermutation perm n = true ↔ perm.length = n ∧ (∀ p ∈ perm, p < n) ∧ perm.Nodup := by
  unfold isValidPermutation
  by_cases h : perm.length = n
  · rw [if_neg (not_not.mpr h), isValidFrom_iff]
    simp [h]
  · simp [h]

theorem length_expandPermutation (perm : List Nat) (block : Nat) :
    (expandPermutation perm block).length = perm.length * block := by
  induction perm with
  | nil => simp [expandPermutation]
  | cons p rest ih =>
    rw [expandPermutation, List.flatMap_cons, List.length_append, ← expandPermutation, ih]
    simp
    ring

/-- Without wraparound an expanded index stays on its axis. -/
theorem expandPermutation_lt {perm : List Nat} {block n : Nat} (hn : ∀ p ∈ perm, p < n) (hb : n * block ≤ 2 ^ 32) :
    ∀ q ∈ expandPermutation perm block, q < n * block := by
  intro q hq
  obtain ⟨p, hp, hq⟩ := List.mem_flatMap.mp hq
  obtain ⟨b, hb', rfl⟩ := List.mem_map.mp hq
  have hlt : p * block + b < n * block := by
    have := hn p hp
    have hb' := List.mem_range.mp hb'
    have : (p + 1) * block ≤ n * block := Nat.mul_le_mul_right _ this
    rw [Nat.succ_mul] at this
    omega
  rw [u32_of_lt (by omega : p * block < 2 ^ 32), u32_of_lt (by omega)]
  exact hlt

/-- The identity expands to the identity. -/
theorem expandPermutation_range (n block : Nat) (hb : n * block ≤ 2 ^ 32) :
    expandPermutation (List.range n) block = List.range (n * block) := by
  induction n with
  | zero => simp [expandPermutation]
  | succ n ih =>
    rw [Nat.succ_mul] at hb ⊢
    rw [List.range_succ, expandPermutation, List.flatMap_append, ← expandPermutation, ih (by omega), List.range_add]
    congr 1
    rw [List.flatMap_singleton]
    refine List.map_congr_left fun b hb' => ?_
    have := List.mem_range.mp hb'
    rw [u32_of_lt (by omega : n * block < 2 ^ 32), u32_of_lt (by omega)]

/-- `inv[perm[i]] = i`. The loop's index is 32-bit. -/
def invertPermutation (perm : List Nat) : Outcome (List Nat) :=
  if 2 ^ 32 ≤ perm.length then .error (.undefined "loop without end")
  else if perm.any fun p => perm.length ≤ p then .error (.undefined "write outside the vector")
  else .ok (perm.zipIdx.foldl (fun inv (p, i) => inv.set p i) (List.replicate perm.length 0))

theorem foldl_set_length (l : List (Nat × Nat)) : ∀ inv : List Nat,
    (l.foldl (fun inv (p, i) => inv.set p i) inv).length = inv.length := by
  induction l with
  | nil => exact fun _ => rfl
  | cons a rest ih =>
    intro inv
    rw [List.foldl_cons, ih, List.length_set]

/-- Writes to distinct places: each is there at the end. -/
theorem foldl_set_mem (l : List (Nat × Nat)) : ∀ inv : List Nat, (l.map Prod.fst).Nodup →
    (∀ a ∈ l, a.1 < inv.length) → ∀ a ∈ l, (l.foldl (fun inv (p, i) => inv.set p i) inv)[a.1]? = some a.2 := by
  have hkeep : ∀ (l : List (Nat × Nat)) (inv : List Nat) (q : Nat), q ∉ l.map Prod.fst →
      (l.foldl (fun inv (p, i) => inv.set p i) inv)[q]? = inv[q]? := by
    intro l
    induction l with
    | nil => exact fun _ _ _ => rfl
    | cons a rest ih =>
      intro inv q hq
      rw [List.map_cons, List.mem_cons, not_or] at hq
      rw [List.foldl_cons, ih _ q hq.2, List.getElem?_set_ne (Ne.symm hq.1)]
  induction l with
  | nil =>
    intro inv _ _ a ha
    cases ha
  | cons a rest ih =>
    intro inv hnd hlt b hb
    rw [List.map_cons, List.nodup_cons] at hnd
    rw [List.foldl_cons]
    rcases List.mem_cons.mp hb with rfl | hb
    · rw [hkeep _ _ _ hnd.1, List.getElem?_set_self (hlt b List.mem_cons_self)]
    · exact ih _ hnd.2 (fun c hc => by rw [List.length_set]; exact hlt c (List.mem_cons_of_mem _ hc)) b hb

/-- The inverse of a bijection takes each index back to its place. -/
theorem invertPermutation_spec {perm : List Nat} {n : Nat} (hp : perm.Perm (List.range n)) (hn : n < 2 ^ 32) :
    ∃ inv : List Nat, invertPermutation perm = .ok inv ∧ inv.length = n ∧
      ∀ i p : Nat, perm[i]? = some p → inv[p]? = some i := by
  have hlen : perm.length = n := hp.length_eq.trans List.length_range
  have hlt : ∀ p ∈ perm, p < perm.length := fun p h => hlen ▸ List.mem_range.mp (hp.mem_iff.mp h)
  refine ⟨_, (if_neg (by omega)).trans (if_neg ?_), ?_, fun i p hi => ?_⟩
  · rw [List.any_eq_true]
    rintro ⟨p, hmem, hle⟩
    exact absurd (hlt p hmem) (not_lt.mpr (of_decide_eq_true hle))
  · rw [foldl_set_length, List.length_replicate, hlen]
  · have hfst : perm.zipIdx.map Prod.fst = perm := List.zipIdx_map_fst 0 perm
    refine foldl_set_mem perm.zipIdx _ (hfst.symm ▸ hp.nodup_iff.mpr List.nodup_range) (fun a ha => ?_) (p, i)
      (List.mem_zipIdx_iff_getElem?.mpr hi)
    rw [List.length_replicate]
    exact hlt a.1 (List.mem_of_getElem? (List.mem_zipIdx_iff_getElem?.mp ha))

end SynapseFs.Core
