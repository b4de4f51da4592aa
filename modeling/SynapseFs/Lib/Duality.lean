import Mathlib.Algebra.BigOperators.Group.Finset.Basic
import Mathlib.Algebra.BigOperators.WithTop
import Mathlib.Algebra.Order.BigOperators.Group.Finset
import Mathlib.Algebra.Order.Group.Defs
import Mathlib.Algebra.Order.Monoid.WithTop
import Mathlib.Data.Fintype.Card
import Mathlib.Tactic.Abel

/-! Columns for every row, at least cost.

A cost may be infinite, which rules the pair out. Prices for rows and columns under every
cost (`Dual`) bound each choice of columns from below; a choice that meets its prices, and
leaves only columns of price zero, is cheapest (`Dual.total_le`). Rows that are allowed
fewer columns than there are rows have no choice at all (`exists_infinite`).

A search that labels rows and columns with their distance from a row that has no price yet
tells how far prices may move: rows up and columns down by what they fall short of the
bound (`Adjusted`). The prices stay prices and the rows of the search have one
(`Dual.adjust`), and the pairs that the labels came from become tight (`Adjusted.tight`). -/
namespace SynapseFs.Lib.Duality

variable {ι κ α : Type}

/-- What the rows pay for their columns. -/
def total [Fintype ι] [AddCommMonoid α] (cost : ι → κ → WithTop α) (a : ι → κ) : WithTop α := ∑ i, cost i (a i)

/-- Fewer columns than rows: some row gets a column that is ruled out. -/
theorem exists_infinite {cost : ι → κ → WithTop α} (rows : Finset ι) (columns : Finset κ) (hcard : columns.card < rows.card)
    (hout : ∀ i ∈ rows, ∀ j, j ∉ columns → cost i j = ⊤) {b : ι → κ} (hb : Function.Injective b) : ∃ i, cost i (b i) = ⊤ := by
  classical
  by_contra hnone
  have hinto : ∀ i ∈ rows, b i ∈ columns := fun i hi => by
    by_contra hj
    exact hnone ⟨i, hout i hi (b i) hj⟩
  have hle : rows.card ≤ columns.card := Finset.card_le_card_of_injOn b hinto hb.injOn
  omega

section
variable [AddCommGroup α] [LinearOrder α]

/-- The rows that have a price, and all columns, stay under the costs; a column is never paid for. -/
structure Dual (cost : ι → κ → WithTop α) (priced : ι → Prop) (u : ι → α) (v : κ → α) : Prop where
  le : ∀ i, priced i → ∀ j, ((u i + v j : α) : WithTop α) ≤ cost i j
  nonpos : ∀ j, v j ≤ 0

variable [IsOrderedAddMonoid α] {cost : ι → κ → WithTop α} {u u' : ι → α} {v v' : κ → α}

/-! ### Prices bound the total -/

/-- No choice of columns costs less than all the prices together. -/
theorem Dual.sum_le [Fintype ι] [Fintype κ] (h : Dual cost (fun _ => True) u v) {b : ι → κ} (hb : Function.Injective b) :
    ((∑ i, u i + ∑ j, v j : α) : WithTop α) ≤ total cost b := by
  classical
  have hcolumns : ∑ j, v j ≤ ∑ i, v (b i) := by
    rw [← Finset.sum_image (f := v) fun i _ i' _ he => hb he]
    exact Finset.sum_le_sum_of_subset_of_nonpos' (Finset.subset_univ _) fun j _ _ => h.nonpos j
  calc ((∑ i, u i + ∑ j, v j : α) : WithTop α)
      ≤ ((∑ i, u i + ∑ i, v (b i) : α) : WithTop α) := WithTop.coe_le_coe.mpr (add_le_add_right hcolumns _)
    _ = ∑ i, ((u i + v (b i) : α) : WithTop α) := by rw [← Finset.sum_add_distrib, WithTop.coe_sum]
    _ ≤ total cost b := Finset.sum_le_sum fun i _ => h.le i trivial (b i)

/-- Where the pairs meet their prices and what is left over has none, the choice is cheapest. -/
theorem Dual.total_le [Fintype ι] [Fintype κ] (h : Dual cost (fun _ => True) u v) {a b : ι → κ} (ha : Function.Injective a)
    (hb : Function.Injective b) (htight : ∀ i, cost i (a i) = ((u i + v (a i) : α) : WithTop α))
    (hleft : ∀ j, (∀ i, a i ≠ j) → v j = 0) : total cost a ≤ total cost b := by
  classical
  refine le_of_eq_of_le ?_ (h.sum_le hb)
  have hcolumns : ∑ i, v (a i) = ∑ j, v j := by
    rw [← Finset.sum_image (f := v) fun i _ i' _ he => ha he]
    refine Finset.sum_subset (Finset.subset_univ _) fun j _ hj => hleft j fun i he => hj ?_
    exact Finset.mem_image.mpr ⟨i, Finset.mem_univ i, he⟩
  calc total cost a = ∑ i, ((u i + v (a i) : α) : WithTop α) := Finset.sum_congr rfl fun i _ => htight i
    _ = ((∑ i, u i + ∑ j, v j : α) : WithTop α) := by rw [← WithTop.coe_sum, Finset.sum_add_distrib, hcolumns]

/-! ### Prices after a search -/

variable {priced priced' rows : ι → Prop} {columns : κ → Prop} {depth : ι → α} {label : κ → α} {bound : α}

/-- Labels of what a search has reached: no further than the bound, never beyond what a row offers, and nothing that was
not reached is nearer than the bound. -/
structure Reached (cost : ι → κ → WithTop α) (u : ι → α) (v : κ → α) (rows : ι → Prop) (columns : κ → Prop) (depth : ι → α)
    (label : κ → α) (bound : α) : Prop where
  column_le : ∀ j, columns j → label j ≤ bound
  inner : ∀ i j, rows i → columns j → ((label j - depth i + (u i + v j) : α) : WithTop α) ≤ cost i j
  outer : ∀ i j, rows i → ¬columns j → ((bound - depth i + (u i + v j) : α) : WithTop α) ≤ cost i j

/-- Rows go up and columns go down by what they fall short of the bound. -/
structure Adjusted (u u' : ι → α) (v v' : κ → α) (rows : ι → Prop) (columns : κ → Prop) (depth : ι → α) (label : κ → α)
    (bound : α) : Prop where
  row : ∀ i, rows i → u' i = u i + (bound - depth i)
  otherRow : ∀ i, ¬rows i → u' i = u i
  column : ∀ j, columns j → v' j = v j - (bound - label j)
  otherColumn : ∀ j, ¬columns j → v' j = v j

theorem Dual.adjust (h : Dual cost priced u v) (hr : Reached cost u v rows columns depth label bound)
    (ha : Adjusted u u' v v' rows columns depth label bound) (hpriced : ∀ i, priced' i → rows i ∨ priced i) :
    Dual cost priced' u' v' where
  le i hi' j := by
    by_cases hi : rows i
    · by_cases hj : columns j
      · refine le_of_eq_of_le (congrArg _ ?_) (hr.inner i j hi hj)
        rw [ha.row i hi, ha.column j hj]
        abel
      · refine le_of_eq_of_le (congrArg _ ?_) (hr.outer i j hi hj)
        rw [ha.row i hi, ha.otherColumn j hj]
        abel
    · refine le_trans (WithTop.coe_le_coe.mpr ?_) (h.le i ((hpriced i hi').resolve_left hi) j)
      rw [ha.otherRow i hi]
      by_cases hj : columns j
      · rw [ha.column j hj]
        exact add_le_add_right (sub_le_self _ (sub_nonneg.mpr (hr.column_le j hj))) _
      · rw [ha.otherColumn j hj]
  nonpos j := by
    by_cases hj : columns j
    · rw [ha.column j hj]
      exact (sub_le_self _ (sub_nonneg.mpr (hr.column_le j hj))).trans (h.nonpos j)
    · rw [ha.otherColumn j hj]
      exact h.nonpos j

omit [LinearOrder α] [IsOrderedAddMonoid α] in
/-- A pair that a label came from. -/
theorem Adjusted.tight (ha : Adjusted u u' v v' rows columns depth label bound) {i : ι} {j : κ} (hi : rows i) (hj : columns j)
    (hpair : cost i j = ((label j - depth i + (u i + v j) : α) : WithTop α)) :
    cost i j = ((u' i + v' j : α) : WithTop α) := by
  rw [hpair, ha.row i hi, ha.column j hj]
  refine congrArg _ ?_
  abel

omit [LinearOrder α] [IsOrderedAddMonoid α] in
/-- A tight pair stays so where the row and the column have one label, or none. -/
theorem Adjusted.stays_tight (ha : Adjusted u u' v v' rows columns depth label bound) {i : ι} {j : κ}
    (hboth : rows i ↔ columns j) (hlabel : rows i → label j = depth i) (hpair : cost i j = ((u i + v j : α) : WithTop α)) :
    cost i j = ((u' i + v' j : α) : WithTop α) := by
  by_cases hi : rows i
  · refine ha.tight hi (hboth.mp hi) ?_
    rw [hpair, hlabel hi, sub_self, zero_add]
  · rw [hpair, ha.otherRow i hi, ha.otherColumn j fun hj => hi (hboth.mpr hj)]

end

end SynapseFs.Lib.Duality
