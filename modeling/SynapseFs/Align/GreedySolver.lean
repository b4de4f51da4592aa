import Mathlib.Algebra.BigOperators.Fin
import Mathlib.Algebra.Order.BigOperators.Group.Finset
import Mathlib.Algebra.Order.Field.Rat
import Mathlib.Data.Fintype.EquivFin
import Mathlib.Data.List.FinRange
import Mathlib.Data.List.Sort
import Mathlib.Logic.Equiv.Basic
import Mathlib.Tactic.Abel
import SynapseFs.Core.Error
import SynapseFs.Lib.LocalSearch

/-! The approximate assignment solver: cheapest pairs first, then 2-swaps.

The sort may leave equal costs in any order, so a sort is any list of all the pairs in
order of cost (`SortedPairs`). What the greedy phase has taken is kept by `Partial`;
once every pair has been tried no row is without a column, because rows and columns run
out together (`greedy_complete`). The second phase is a local search over `scanPairs`:
a swap that it accepts lowers the total, and when it stops early no swap would
(`solve_sound`). -/
namespace SynapseFs.Align.GreedySolver
open Lib Core

/-! ### The solver -/

structure LapResult (α : Type) where
  assignment : List Nat
  costRaw : α
  exact : Bool
  iterations : Nat

variable {n : Nat} {α : Type}

/-- Every pair of a row and a column, in order of cost. -/
structure SortedPairs [LE α] (cost : Fin n → Fin n → α) where
  pairs : List (Fin n × Fin n)
  perm : pairs.Perm ((List.finRange n).flatMap fun i => (List.finRange n).map fun j => (i, j))
  sorted : pairs.Pairwise fun p q => cost p.1 p.2 ≤ cost q.1 q.2

/-- The variables of the greedy loop; a row without a column is `kUnassigned`. -/
structure Greedy (n : Nat) where
  assignment : Fin n → Option (Fin n)
  rowTaken : Fin n → Bool
  colTaken : Fin n → Bool
  assigned : Nat

namespace Greedy

def start (n : Nat) : Greedy n := ⟨fun _ => none, fun _ => false, fun _ => false, 0⟩

def take (s : Greedy n) (i j : Fin n) : Greedy n where
  assignment := Function.update s.assignment i (some j)
  rowTaken := Function.update s.rowTaken i true
  colTaken := Function.update s.colTaken j true
  assigned := s.assigned + 1

/-- The loop over the pairs, which ends early once every row has its column. -/
def run (s : Greedy n) : List (Fin n × Fin n) → Greedy n
  | [] => s
  | (i, j) :: rest =>
    if s.rowTaken i || s.colTaken j then s.run rest
    else if (s.take i j).assigned = n then s.take i j
    else (s.take i j).run rest

/-- A row without a column would be read as a column outside the matrix. -/
def columns (s : Greedy n) : Outcome (Fin n → Fin n) :=
  if h : ∀ i, (s.assignment i).isSome then .ok fun i => (s.assignment i).get (h i)
  else .error (.undefined "read outside the matrix")

end Greedy

/-- `std::swap(assignment[i1], assignment[i2])`. -/
def swapRows (p : Fin n × Fin n) (a : Fin n → Fin n) : Fin n → Fin n :=
  Function.update (Function.update a p.1 (a p.2)) p.2 (a p.1)

/-- `swapped < current`. -/
def lowers [Add α] [LT α] [DecidableLT α] (cost : Fin n → Fin n → α) (p : Fin n × Fin n) (a : Fin n → Fin n) : Bool :=
  let j1 := a p.1
  let j2 := a p.2
  let current := cost p.1 j1 + cost p.2 j2
  let swapped := cost p.1 j2 + cost p.2 j1
  decide (swapped < current)

/-- The pairs of rows that a pass compares, in its order. -/
def scanPairs (n : Nat) : List (Fin n × Fin n) :=
  (List.finRange n).flatMap fun i1 => ((List.finRange n).filter fun i2 => i1 < i2).map fun i2 => (i1, i2)

def total [AddCommMonoid α] (cost : Fin n → Fin n → α) (a : Fin n → Fin n) : α := ∑ i, cost i (a i)

section
variable [AddCommMonoid α] [LinearOrder α]

/-- Everything behind the check of the size. -/
def solveMatrix (maxPasses : Nat) (cost : Fin n → Fin n → α) (order : SortedPairs cost) : Outcome (LapResult α) := do
  let greedy ← ((Greedy.start n).run order.pairs).columns
  let (a, iterations) := LocalSearch.passes swapRows (lowers cost) (scanPairs n) maxPasses greedy 0
  return ⟨(List.finRange n).map fun i => (a i).val, total cost a, false, iterations⟩

/-- `cost[i * n + j]`. -/
def matrix (cost : List α) (n : Nat) (h : cost.length = n * n) (i j : Fin n) : α :=
  cost.get ⟨i * n + j, by
    rw [h]
    calc i * n + j < i * n + n := Nat.add_lt_add_left j.isLt _
      _ = (i + 1) * n := (Nat.succ_mul _ _).symm
      _ ≤ n * n := Nat.mul_le_mul_right n i.isLt⟩

def solve (sort : ∀ {n : Nat} (cost : Fin n → Fin n → α), SortedPairs cost) (maxPasses : Nat) (cost : List α) (n : Nat) :
    Outcome (LapResult α) :=
  if n = 0 then .ok ⟨[], 0, false, 0⟩
  else if h : cost.length = n * n then solveMatrix maxPasses (matrix cost n h) (sort (matrix cost n h))
  else sfsErr .internal "cost matrix size does not match n*n" (toString cost.length)

end

theorem SortedPairs.mem_pairs [LE α] {cost : Fin n → Fin n → α} (order : SortedPairs cost) (p : Fin n × Fin n) :
    p ∈ order.pairs := by
  refine order.perm.mem_iff.mpr ?_
  obtain ⟨i, j⟩ := p
  simp

/-! ### The greedy phase -/

namespace Greedy

variable {s : Greedy n} {i j : Fin n}

/-- The marks are those of the assignment, no column has two rows, and the count is the number of rows taken. -/
structure Partial (s : Greedy n) : Prop where
  row : ∀ i, s.rowTaken i = true ↔ ∃ j, s.assignment i = some j
  col : ∀ j, s.colTaken j = true ↔ ∃ i, s.assignment i = some j
  inj : ∀ i i' j, s.assignment i = some j → s.assignment i' = some j → i = i'
  count : s.assigned = (Finset.univ.filter fun i => s.rowTaken i = true).card

theorem start_keeps : (start n).Partial where
  row i := by simp [start]
  col j := by simp [start]
  inj i i' j h := absurd h (by simp [start])
  count := by simp [start]

theorem Partial.unassigned (h : s.Partial) (hi : s.rowTaken i = false) : s.assignment i = none := by
  cases hrow : s.assignment i with
  | none => rfl
  | some j =>
    rw [(h.row i).mpr ⟨j, hrow⟩] at hi
    cases hi

theorem take_row (s : Greedy n) (i j : Fin n) : (s.take i j).assignment i = some j := Function.update_self ..

theorem take_other (s : Greedy n) {i i' : Fin n} (j : Fin n) (hne : i' ≠ i) : (s.take i j).assignment i' = s.assignment i' :=
  Function.update_of_ne hne ..

theorem take_rowTaken (s : Greedy n) (i j i' : Fin n) : (s.take i j).rowTaken i' = if i' = i then true else s.rowTaken i' :=
  Function.update_apply ..

theorem take_colTaken (s : Greedy n) (i j j' : Fin n) : (s.take i j).colTaken j' = if j' = j then true else s.colTaken j' :=
  Function.update_apply ..

theorem Partial.take (h : s.Partial) (hi : s.rowTaken i = false) (hj : s.colTaken j = false) : (s.take i j).Partial where
  row i' := by
    by_cases hne : i' = i
    · subst hne
      exact iff_of_true (Function.update_self ..) ⟨j, take_row s i' j⟩
    · rw [take_other s j hne, ← h.row i', take_rowTaken, if_neg hne]
  col j' := by
    by_cases hne : j' = j
    · subst hne
      exact iff_of_true (Function.update_self ..) ⟨i, take_row s i j'⟩
    · rw [take_colTaken, if_neg hne, h.col j']
      constructor
      · rintro ⟨i', h'⟩
        have hrow : i' ≠ i := by
          rintro rfl
          rw [h.unassigned hi] at h'
          cases h'
        exact ⟨i', (take_other s j hrow).trans h'⟩
      · rintro ⟨i', h'⟩
        have hrow : i' ≠ i := by
          rintro rfl
          rw [take_row] at h'
          exact hne (Option.some.inj h').symm
        exact ⟨i', (take_other s j hrow).symm.trans h'⟩
  inj i₁ i₂ j' h₁ h₂ := by
    have hfree : ∀ i', i' ≠ i → (s.take i j).assignment i' ≠ some j := by
      intro i' hne h'
      rw [take_other s j hne] at h'
      rw [(h.col j).mpr ⟨i', h'⟩] at hj
      cases hj
    by_cases hne₁ : i₁ = i
    · subst hne₁
      rw [take_row] at h₁
      cases h₁
      exact (Decidable.byContradiction fun hne => hfree i₂ (Ne.symm hne) h₂)
    · by_cases hne₂ : i₂ = i
      · subst hne₂
        rw [take_row] at h₂
        cases h₂
        exact absurd h₁ (hfree i₁ hne₁)
      · rw [take_other s j hne₁] at h₁
        rw [take_other s j hne₂] at h₂
        exact h.inj i₁ i₂ j' h₁ h₂
  count := by
    have hinsert : (Finset.univ.filter fun i' => (s.take i j).rowTaken i' = true) =
        insert i (Finset.univ.filter fun i' => s.rowTaken i' = true) := by
      ext i'
      rw [Finset.mem_insert, Finset.mem_filter_univ, Finset.mem_filter_univ, take_rowTaken]
      split
      · next heq => simp [heq]
      · next hne => simp [hne]
    rw [hinsert, Finset.card_insert_of_notMem (by rw [Finset.mem_filter_univ, hi]; simp), ← h.count]
    rfl

/-- A row keeps its column. -/
def Kept (s t : Greedy n) : Prop := ∀ i j, s.assignment i = some j → t.assignment i = some j

theorem Partial.take_kept (h : s.Partial) (hi : s.rowTaken i = false) (j : Fin n) : Kept s (s.take i j) := by
  intro i' j' h'
  have hne : i' ≠ i := by
    rintro rfl
    rw [h.unassigned hi] at h'
    cases h'
  exact (take_other s j hne).trans h'

/-- A pair is tried when its row or its column is taken. -/
def Tried (s : Greedy n) (p : Fin n × Fin n) : Prop := (∃ j, s.assignment p.1 = some j) ∨ ∃ i, s.assignment i = some p.2

theorem Tried.kept {t : Greedy n} {p : Fin n × Fin n} (h : s.Tried p) (hkept : Kept s t) : t.Tried p :=
  h.imp (Exists.imp fun j hj => hkept _ j hj) (Exists.imp fun i hi => hkept i _ hi)

theorem Partial.tried (h : s.Partial) (htaken : (s.rowTaken i || s.colTaken j) = true) : s.Tried (i, j) :=
  ((Bool.or_eq_true _ _).mp htaken).imp (h.row i).mp (h.col j).mp

/-- The loop keeps `Partial`, and ends when every row is taken or every pair has been tried. -/
theorem run_keeps (pairs : List (Fin n × Fin n)) : ∀ {s : Greedy n}, s.Partial → (s.run pairs).Partial ∧ Kept s (s.run pairs) ∧
    ((s.run pairs).assigned = n ∨ ∀ p ∈ pairs, (s.run pairs).Tried p) := by
  induction pairs with
  | nil => exact fun h => ⟨h, fun _ _ h => h, .inr fun p hp => absurd hp List.not_mem_nil⟩
  | cons p rest ih =>
    obtain ⟨i, j⟩ := p
    intro s h
    rw [run]
    by_cases htaken : (s.rowTaken i || s.colTaken j) = true
    · rw [if_pos htaken]
      obtain ⟨hkeeps, hkept, hend⟩ := ih h
      refine ⟨hkeeps, hkept, hend.imp_right fun hall p hp => ?_⟩
      rcases List.mem_cons.mp hp with rfl | hp
      · exact (h.tried htaken).kept hkept
      · exact hall p hp
    · rw [if_neg htaken]
      obtain ⟨hi, hj⟩ := Bool.or_eq_false_iff.mp (Bool.eq_false_iff.mpr htaken)
      have htake := h.take hi hj
      have hfirst := h.take_kept hi j
      by_cases hfull : (s.take i j).assigned = n
      · rw [if_pos hfull]
        exact ⟨htake, hfirst, .inl hfull⟩
      · rw [if_neg hfull]
        obtain ⟨hkeeps, hkept, hend⟩ := ih htake
        refine ⟨hkeeps, fun i' j' h' => hkept i' j' (hfirst i' j' h'), hend.imp_right fun hall p hp => ?_⟩
        rcases List.mem_cons.mp hp with rfl | hp
        · exact .inl ⟨j, hkept i j (take_row s i j)⟩
        · exact hall p hp

/-- Rows and columns run out together. -/
theorem Partial.complete (h : s.Partial) (hend : s.assigned = n ∨ ∀ p, s.Tried p) (i : Fin n) : ∃ j, s.assignment i = some j := by
  rcases hend with hcount | hall
  · have hcard : (Finset.univ.filter fun i => s.rowTaken i = true).card = Fintype.card (Fin n) := by
      rw [← h.count, hcount, Fintype.card_fin]
    have huniv := (Finset.card_eq_iff_eq_univ _).mp hcard
    exact (h.row i).mp ((Finset.mem_filter_univ i).mp (huniv ▸ Finset.mem_univ i))
  · by_contra hi
    -- Every column would be taken, by as many rows.
    have hcols : ∀ j, ∃ i', s.assignment i' = some j := fun j => (hall (i, j)).resolve_left hi
    choose f hf using hcols
    have hinj : Function.Injective f := by
      intro j j' hjj
      have hboth := hf j
      rw [hjj, hf j'] at hboth
      exact (Option.some.inj hboth).symm
    obtain ⟨j, rfl⟩ := Finite.surjective_of_injective hinj i
    exact hi ⟨j, hf j⟩

/-- Pairs that come in order of cost: what is taken in the row or the column of a pair costs no more than the pair. -/
theorem run_cheapest [Preorder α] {cost : Fin n → Fin n → α} (pairs : List (Fin n × Fin n)) : ∀ {s : Greedy n}, s.Partial →
    pairs.Pairwise (fun p q => cost p.1 p.2 ≤ cost q.1 q.2) →
    (∀ i j, s.assignment i = some j → ∀ q ∈ pairs, cost i j ≤ cost q.1 q.2) → ∀ p ∈ pairs,
      (∃ j, (s.run pairs).assignment p.1 = some j ∧ cost p.1 j ≤ cost p.1 p.2) ∨
        ∃ i, (s.run pairs).assignment i = some p.2 ∧ cost i p.2 ≤ cost p.1 p.2 := by
  induction pairs with
  | nil => exact fun _ _ _ p hp => absurd hp List.not_mem_nil
  | cons p rest ih =>
    obtain ⟨i, j⟩ := p
    intro s h hsorted hcheap q hq
    obtain ⟨hfirst, hrest⟩ := List.pairwise_cons.mp hsorted
    rw [run]
    by_cases htaken : (s.rowTaken i || s.colTaken j) = true
    · rw [if_pos htaken]
      rcases List.mem_cons.mp hq with rfl | hq
      · have hkept := (run_keeps rest h).2.1
        exact (h.tried htaken).imp
          (Exists.imp fun j' hj' => ⟨hkept i j' hj', hcheap i j' hj' (i, j) List.mem_cons_self⟩)
          (Exists.imp fun i' hi' => ⟨hkept i' j hi', hcheap i' j hi' (i, j) List.mem_cons_self⟩)
      · exact ih h hrest (fun i' j' h' q hq => hcheap i' j' h' q (List.mem_cons_of_mem _ hq)) q hq
    · rw [if_neg htaken]
      obtain ⟨hi, hj⟩ := Bool.or_eq_false_iff.mp (Bool.eq_false_iff.mpr htaken)
      have htake := h.take hi hj
      have hcheap' : ∀ i' j', (s.take i j).assignment i' = some j' → ∀ r ∈ rest, cost i' j' ≤ cost r.1 r.2 := by
        intro i' j' h' r hr
        by_cases hne : i' = i
        · rw [hne, take_row] at h'
          rw [hne, ← Option.some.inj h']
          exact hfirst r hr
        · rw [take_other s j hne] at h'
          exact hcheap i' j' h' r (List.mem_cons_of_mem _ hr)
      by_cases hfull : (s.take i j).assigned = n
      · rw [if_pos hfull]
        rcases List.mem_cons.mp hq with rfl | hq
        · exact .inl ⟨j, take_row s i j, le_rfl⟩
        · obtain ⟨j', hj'⟩ := htake.complete (.inl hfull) q.1
          exact .inl ⟨j', hj', hcheap' q.1 j' hj' q hq⟩
      · rw [if_neg hfull]
        rcases List.mem_cons.mp hq with rfl | hq
        · exact .inl ⟨j, (run_keeps rest htake).2.1 i j (take_row s i j), le_rfl⟩
        · exact ih htake hrest hcheap' q hq

/-- The greedy phase ends with a bijection, whatever the order of equal costs. -/
theorem columns_bijective [LE α] {cost : Fin n → Fin n → α} (order : SortedPairs cost) :
    ∃ a : Fin n → Fin n, ((start n).run order.pairs).columns = .ok a ∧ Function.Bijective a := by
  obtain ⟨hkeeps, -, hend⟩ := run_keeps order.pairs start_keeps
  have hcomplete := hkeeps.complete (hend.imp_right fun hall p => hall p (order.mem_pairs p))
  have hsome : ∀ i, (((start n).run order.pairs).assignment i).isSome := fun i => by
    obtain ⟨j, hj⟩ := hcomplete i
    rw [hj]
    rfl
  refine ⟨fun i => (((start n).run order.pairs).assignment i).get (hsome i), dif_pos hsome, ?_⟩
  refine Finite.injective_iff_bijective.mp fun i i' heq => ?_
  exact hkeeps.inj i i' _ (Option.some_get (hsome i)).symm (heq ▸ (Option.some_get (hsome i')).symm)

/-- No pair is cheaper than both what its row and what its column have got. -/
theorem columns_cheapest [Preorder α] {cost : Fin n → Fin n → α} (order : SortedPairs cost) {a : Fin n → Fin n}
    (h : ((start n).run order.pairs).columns = .ok a) (i j : Fin n) :
    cost i (a i) ≤ cost i j ∨ ∃ i', a i' = j ∧ cost i' j ≤ cost i j := by
  have hassigned : ∀ i, ((start n).run order.pairs).assignment i = some (a i) := by
    unfold columns at h
    split at h
    · cases h
      exact fun i => (Option.some_get _).symm
    · cases h
  have hcheapest := run_cheapest order.pairs start_keeps order.sorted (fun i j h => by simp [start] at h) (i, j)
    (order.mem_pairs (i, j))
  rcases hcheapest with ⟨j', hj', hle⟩ | ⟨i', hi', hle⟩
  · rw [hassigned i] at hj'
    exact .inl (Option.some.inj hj' ▸ hle)
  · rw [hassigned i'] at hi'
    exact .inr ⟨i', Option.some.inj hi', hle⟩

end Greedy

/-! ### Swaps -/

section
variable [AddCommGroup α] {cost : Fin n → Fin n → α} {a : Fin n → Fin n}

theorem swapRows_eq (p : Fin n × Fin n) (a : Fin n → Fin n) : swapRows p a = a ∘ Equiv.swap p.1 p.2 := by
  funext x
  rw [swapRows, Function.comp_apply, Equiv.swap_apply_def, Function.update_apply, Function.update_apply]
  split
  · next h2 =>
    split
    · next h1 => rw [← h1, h2]
    · rfl
  · next h2 =>
    split
    · rfl
    · rfl

theorem swapRows_bijective {p : Fin n × Fin n} (h : Function.Bijective a) : Function.Bijective (swapRows p a) := by
  rw [swapRows_eq]
  exact h.comp (Equiv.swap p.1 p.2).bijective

/-- A swap changes the total by what it changes at its two rows. -/
theorem total_swapRows (cost : Fin n → Fin n → α) (a : Fin n → Fin n) {p : Fin n × Fin n} (hne : p.1 ≠ p.2) :
    total cost (swapRows p a) = total cost a + ((cost p.1 (a p.2) + cost p.2 (a p.1)) - (cost p.1 (a p.1) + cost p.2 (a p.2))) := by
  have hfirst : swapRows p a p.1 = a p.2 := by rw [swapRows_eq, Function.comp_apply, Equiv.swap_apply_left]
  have hsecond : swapRows p a p.2 = a p.1 := by rw [swapRows_eq, Function.comp_apply, Equiv.swap_apply_right]
  have hother : ∀ x, x ≠ p.1 ∧ x ≠ p.2 → cost x (swapRows p a x) - cost x (a x) = 0 := by
    rintro x ⟨h1, h2⟩
    rw [swapRows_eq, Function.comp_apply, Equiv.swap_apply_of_ne_of_ne h1 h2, sub_self]
  have hdiff : total cost (swapRows p a) - total cost a =
      (cost p.1 (a p.2) - cost p.1 (a p.1)) + (cost p.2 (a p.1) - cost p.2 (a p.2)) := by
    rw [total, total, ← Finset.sum_sub_distrib, Fintype.sum_eq_add p.1 p.2 hne hother, hfirst, hsecond]
  rw [← sub_eq_iff_eq_add', hdiff]
  abel

variable [LinearOrder α] [IsOrderedAddMonoid α]

/-- What the code compares is the total before and after. -/
theorem lowers_iff (p : Fin n × Fin n) : lowers cost p a = true ↔ total cost (swapRows p a) < total cost a := by
  have hlowers : lowers cost p a = true ↔ cost p.1 (a p.2) + cost p.2 (a p.1) < cost p.1 (a p.1) + cost p.2 (a p.2) :=
    decide_eq_true_iff
  rw [hlowers]
  by_cases hne : p.1 = p.2
  · rw [swapRows_eq, hne, Equiv.swap_self]
    exact iff_of_false (lt_irrefl _) (lt_irrefl _)
  · rw [total_swapRows cost a hne, add_lt_iff_neg_left, sub_neg]

/-- One comparison of a pass: nothing happens, or the total falls. -/
theorem attempt_lowers (cost : Fin n → Fin n → α) (a : Fin n → Fin n) (improved : Bool) (p : Fin n × Fin n) :
    LocalSearch.attempt swapRows (lowers cost) (a, improved) p = (a, improved) ∨
      (LocalSearch.attempt swapRows (lowers cost) (a, improved) p).2 = true ∧
        total cost (LocalSearch.attempt swapRows (lowers cost) (a, improved) p).1 < total cost a := by
  unfold LocalSearch.attempt
  split
  · next h => exact .inr ⟨rfl, (lowers_iff p).mp h⟩
  · exact .inl rfl

theorem mem_scanPairs {p : Fin n × Fin n} : p ∈ scanPairs n ↔ p.1 < p.2 := by
  obtain ⟨i, k⟩ := p
  simp [scanPairs]

/-- Where no comparison is accepted, no swap of two rows lowers the total. -/
theorem le_swapRows (h : ∀ p ∈ scanPairs n, lowers cost p a = false) (i k : Fin n) :
    total cost a ≤ total cost (swapRows (i, k) a) := by
  have hbelow : ∀ i k : Fin n, i < k → total cost a ≤ total cost (swapRows (i, k) a) := by
    intro i k hik
    have hfalse := h (i, k) (mem_scanPairs.mpr hik)
    exact le_of_not_gt fun hlt => by simp [(lowers_iff (i, k)).mpr hlt] at hfalse
  rcases lt_trichotomy i k with hlt | rfl | hlt
  · exact hbelow i k hlt
  · rw [swapRows_eq, Equiv.swap_self]
    exact le_rfl
  · have hcomm : swapRows (i, k) a = swapRows (k, i) a := by
      rw [swapRows_eq, swapRows_eq, Equiv.swap_comm]
    rw [hcomm]
    exact hbelow k i hlt

/-- The second phase, from any assignment that is a bijection. -/
theorem passes_sound (cost : Fin n → Fin n → α) (maxPasses : Nat) {greedy : Fin n → Fin n}
    (hgreedy : Function.Bijective greedy) {a : Fin n → Fin n} {iterations : Nat}
    (h : LocalSearch.passes swapRows (lowers cost) (scanPairs n) maxPasses greedy 0 = (a, iterations)) :
    Function.Bijective a ∧ total cost a ≤ total cost greedy ∧ iterations ≤ maxPasses ∧
      (iterations < maxPasses → ∀ i k, total cost a ≤ total cost (swapRows (i, k) a)) := by
  have hmove : ∀ p a, Function.Bijective a → lowers cost p a = true → Function.Bijective (swapRows p a) :=
    fun _ _ ha _ => swapRows_bijective ha
  have hbij : Function.Bijective (a, iterations).1 := h ▸ LocalSearch.passes_keeps hmove (scanPairs n) maxPasses greedy 0 hgreedy
  have hle : total cost (a, iterations).1 ≤ total cost greedy :=
    h ▸ LocalSearch.passes_value_le (total cost) hmove (fun p _ _ hlowers => (lowers_iff p).mp hlowers) (scanPairs n)
      maxPasses 0 hgreedy
  have hcount : (a, iterations).2 ≤ 0 + maxPasses := h ▸ LocalSearch.passes_count_le (scanPairs n) maxPasses greedy 0
  have hsettled : (a, iterations).2 < 0 + maxPasses → ∀ p ∈ scanPairs n, lowers cost p (a, iterations).1 = false :=
    h ▸ LocalSearch.passes_settled (scanPairs n) maxPasses greedy 0
  rw [Nat.zero_add] at hcount hsettled
  exact ⟨hbij, hle, hcount, fun hlt => le_swapRows (hsettled hlt)⟩

end

/-- The greedy solver returns a bijection whose cost it reports, no worse than the greedy assignment; a comparison
changes nothing or lowers the total; and where passes are left over, no swap of two rows would lower it. -/
theorem solve_sound {α : Type} [AddCommGroup α] [LinearOrder α] [IsOrderedAddMonoid α]
    (sort : ∀ {n : Nat} (cost : Fin n → Fin n → α), SortedPairs cost) (maxPasses : Nat) (cost : List α) (n : Nat)
    (h : cost.length = n * n) :
    ∃ (greedy a : Fin n → Fin n) (iterations : Nat),
      ((Greedy.start n).run (sort (matrix cost n h)).pairs).columns = .ok greedy ∧
      solve sort maxPasses cost n =
        .ok ⟨(List.finRange n).map fun i => (a i).val, total (matrix cost n h) a, false, iterations⟩ ∧
      Function.Bijective a ∧
      total (matrix cost n h) a ≤ total (matrix cost n h) greedy ∧
      (∀ (b : Fin n → Fin n) (improved : Bool) (p : Fin n × Fin n),
        LocalSearch.attempt swapRows (lowers (matrix cost n h)) (b, improved) p = (b, improved) ∨
          (LocalSearch.attempt swapRows (lowers (matrix cost n h)) (b, improved) p).2 = true ∧
            total (matrix cost n h) (LocalSearch.attempt swapRows (lowers (matrix cost n h)) (b, improved) p).1 <
              total (matrix cost n h) b) ∧
      iterations ≤ maxPasses ∧
      (iterations < maxPasses → ∀ i k, total (matrix cost n h) a ≤ total (matrix cost n h) (swapRows (i, k) a)) := by
  obtain ⟨greedy, hcolumns, hgreedy⟩ := Greedy.columns_bijective (sort (matrix cost n h))
  by_cases hn : n = 0
  · subst hn
    refine ⟨greedy, greedy, 0, hcolumns, ?_, hgreedy, le_rfl, attempt_lowers _, Nat.zero_le _, fun _ i => i.elim0⟩
    rw [solve, if_pos rfl]
    rfl
  · rcases hrun : LocalSearch.passes swapRows (lowers (matrix cost n h)) (scanPairs n) maxPasses greedy 0 with ⟨a, iterations⟩
    obtain ⟨hbij, hle, hcount, hoptimal⟩ := passes_sound (matrix cost n h) maxPasses hgreedy hrun
    refine ⟨greedy, a, iterations, hcolumns, ?_, hbij, hle, attempt_lowers _, hcount, hoptimal⟩
    rw [solve, if_neg hn, dif_pos h, solveMatrix, hcolumns]
    simp only [bind, Except.bind, hrun]
    rfl

/-- One of the sorts: equal costs stay in the order of the loops. -/
def SortedPairs.stable [LinearOrder α] (cost : Fin n → Fin n → α) : SortedPairs cost where
  pairs := ((List.finRange n).flatMap fun i => (List.finRange n).map fun j => (i, j)).insertionSort
    fun p q => cost p.1 p.2 ≤ cost q.1 q.2
  perm := List.perm_insertionSort _ _
  sorted := by
    have : Std.Total fun p q : Fin n × Fin n => cost p.1 p.2 ≤ cost q.1 q.2 := ⟨fun _ _ => le_total _ _⟩
    have : IsTrans (Fin n × Fin n) fun p q => cost p.1 p.2 ≤ cost q.1 q.2 := ⟨fun _ _ _ => le_trans⟩
    exact List.pairwise_insertionSort _ _

/-- The cheapest pair leaves the dearest one, until the rows are swapped. -/
theorem twoRows_sound : ∃ (a : Fin 2 → Fin 2) (iterations : Nat),
    solve SortedPairs.stable 8 [0, 1, 1, (10 : ℚ)] 2 =
        .ok ⟨(List.finRange 2).map fun i => (a i).val, total (matrix [0, 1, 1, 10] 2 rfl) a, false, iterations⟩ ∧
      Function.Bijective a := by
  obtain ⟨_, a, iterations, -, hsolve, hbijective, -⟩ := solve_sound SortedPairs.stable 8 [0, 1, 1, (10 : ℚ)] 2 rfl
  exact ⟨a, iterations, hsolve, hbijective⟩

end SynapseFs.Align.GreedySolver
