import Mathlib.Algebra.BigOperators.Group.Finset.Basic
import Mathlib.Algebra.Order.BigOperators.Group.Finset
import Mathlib.Algebra.Order.Group.Defs
import Mathlib.Tactic.Abel

/-! Assignments with prices.

Rows take objects, some pairs of them allowed, at a cost; a row without an object costs
`null`. An assignment that leaves no row more than `ε` from its best choice at given
prices (`Slack`) is within `ε` for each row of every other, up to what the prices of
the objects come to that it leaves (`Slack.total_le`). -/
namespace SynapseFs.Lib.Assignment

variable {ι κ α : Type} [Fintype ι] [Fintype κ] [AddCommGroup α] [LinearOrder α] [IsOrderedAddMonoid α]
  (allowed : ι → κ → Prop) (cost : ι → κ → α) (null : α) (price : κ → α) (ε : α)

/-- Rows have allowed objects, and no two the same. -/
structure Feasible (M : ι → Option κ) : Prop where
  allowed : ∀ i j, M i = some j → allowed i j
  matching : ∀ i i' j, M i = some j → M i' = some j → i = i'

def total (M : ι → Option κ) : α := ∑ i, (M i).elim null (cost i)

/-- At these prices no row would gain more than `ε` by another choice. -/
structure Slack (M : ι → Option κ) : Prop where
  sold : ∀ i j, M i = some j → (∀ j', allowed i j' → cost i j + price j ≤ cost i j' + price j' + ε) ∧
    cost i j + price j ≤ null + ε
  idle : ∀ i, M i = none → ∀ j, allowed i j → null ≤ cost i j + price j + ε

variable {allowed cost null price ε}

open scoped Classical in
omit [LinearOrder α] [IsOrderedAddMonoid α] in
/-- What the rows pay is what the objects that are sold bring. -/
theorem sum_paid {M : ι → Option κ} (hM : ∀ i i' j, M i = some j → M i' = some j → i = i') :
    ∑ i, (M i).elim 0 price = ∑ j, if ∃ i, M i = some j then price j else 0 := by
  have hrow : ∀ i, (M i).elim 0 price = ∑ j, if M i = some j then price j else 0 := by
    intro i
    cases hi : M i with
    | none => simp
    | some j =>
      rw [Finset.sum_eq_single j, if_pos rfl]
      · rfl
      · intro j' _ hne
        exact if_neg fun he => hne (Option.some.inj he).symm
      · intro hnot
        exact absurd (Finset.mem_univ j) hnot
  rw [Finset.sum_congr rfl fun i _ => hrow i, Finset.sum_comm]
  refine Finset.sum_congr rfl fun j _ => ?_
  split
  · next h =>
    obtain ⟨i, hi⟩ := h
    rw [Finset.sum_eq_single i, if_pos hi]
    · intro i' _ hne
      exact if_neg fun hi' => hne (hM i' i j hi' hi)
    · intro hnot
      exact absurd (Finset.mem_univ i) hnot
  · next h => exact Finset.sum_eq_zero fun i _ => if_neg fun hi => h ⟨i, hi⟩

namespace Slack

variable {A M : ι → Option κ}

omit [Fintype ι] [Fintype κ] [IsOrderedAddMonoid α] in
/-- A row with its price is within `ε` of what it would be in another assignment. -/
theorem row_le (h : Slack allowed cost null price ε A) (hM : Feasible allowed M) [IsOrderedAddMonoid α] (hε : 0 ≤ ε)
    (i : ι) : (A i).elim null (cost i) + (A i).elim 0 price ≤ (M i).elim null (cost i) + (M i).elim 0 price + ε := by
  cases ha : A i with
  | some j =>
    obtain ⟨hbest, hnull⟩ := h.sold i j ha
    cases hm : M i with
    | some j' => exact hbest j' (hM.allowed i j' hm)
    | none => simpa using hnull
  | none =>
    cases hm : M i with
    | some j' => simpa using h.idle i ha j' (hM.allowed i j' hm)
    | none => simpa using hε

open scoped Classical in
/-- Within `ε` for each row of every other assignment, and what is left unsold at its price. -/
theorem total_le (h : Slack allowed cost null price ε A) (hA : Feasible allowed A) (hM : Feasible allowed M)
    (hε : 0 ≤ ε) (hprice : ∀ j, 0 ≤ price j) :
    total cost null A ≤ total cost null M + Fintype.card ι • ε + ∑ j, if ∃ i, A i = some j then 0 else price j := by
  have hrows : total cost null A + ∑ i, (A i).elim 0 price ≤
      total cost null M + ∑ i, (M i).elim 0 price + Fintype.card ι • ε := by
    have hsum := Finset.sum_le_sum fun i (_ : i ∈ Finset.univ) => h.row_le hM hε i
    simpa [total, Finset.sum_add_distrib] using hsum
  have hpaid : ∑ i, (M i).elim 0 price ≤ ∑ j, price j := by
    rw [sum_paid hM.matching]
    refine Finset.sum_le_sum fun j _ => ?_
    split
    · exact le_rfl
    · exact hprice j
  have hsplit : ∑ i, (A i).elim 0 price + ∑ j, (if ∃ i, A i = some j then 0 else price j) = ∑ j, price j := by
    rw [sum_paid hA.matching, ← Finset.sum_add_distrib]
    refine Finset.sum_congr rfl fun j _ => ?_
    split
    · exact add_zero _
    · exact zero_add _
  rw [← hsplit] at hpaid
  have hall := hrows.trans (add_le_add_left (add_le_add_right hpaid (total cost null M)) (Fintype.card ι • ε))
  refine le_of_add_le_add_right (a := ∑ i, (A i).elim 0 price) (hall.trans_eq ?_)
  abel

end Slack

end SynapseFs.Lib.Assignment
