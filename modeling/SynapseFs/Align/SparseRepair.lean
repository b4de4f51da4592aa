import SynapseFs.Align.Evidence
import SynapseFs.Align.ExactSolver

/-! The sparse path with the solver that it calls.

The rows that the auction leaves over are few, and the exact solver matches them: with it
the repair of a partial matching cannot fail, and no way of completing the matching costs
less on the rows that were left (`repair_optimal`). -/
namespace SynapseFs.Align
open Core RectangularLsap
open GreedySolver (matrix)

variable {n : Nat}

/-- The core of the solver, on costs that are numbers. -/
def rectangularLsap (n : Nat) (cost : List ℚ) : LsapResult :=
  if h : cost.length = n * n then
    match solve (fun i j => .finite (matrix cost n h i j)) false with
    | .ok (.done pairs) => .solved (pairs.map fun p => p.1.val) (pairs.map fun p => p.2.val)
    | .ok .infeasible => .infeasible
    | _ => .invalid
  else .invalid

theorem rectangularLsap_solved {cost : List ℚ} (hn : n ≠ 0) (h : cost.length = n * n) : ∃ a : Fin n → Fin n,
    rectangularLsap n cost = .solved ((List.finRange n).map fun i => i.val) ((List.finRange n).map fun i => (a i).val) ∧
      Function.Bijective a ∧
      ∀ b, Function.Bijective b → GreedySolver.total (matrix cost n h) a ≤ GreedySolver.total (matrix cost n h) b := by
  obtain ⟨a, hsolve, hbijective, hbest⟩ := solve_finite (matrix cost n h) hn
  refine ⟨a, ?_, hbijective, hbest⟩
  rw [rectangularLsap, dif_pos h, hsolve]
  simp only [List.map_map, Function.comp_def]

theorem map_val_perm {a : Fin n → Fin n} (ha : Function.Bijective a) :
    ((List.finRange n).map fun i => (a i).val).Perm (List.range n) := by
  refine (List.perm_ext_iff_of_nodup ((List.nodup_finRange n).map fun i i' he => ha.1 (Fin.ext he)) List.nodup_range).mpr fun k => ?_
  rw [List.mem_map, List.mem_range]
  constructor
  · rintro ⟨i, -, rfl⟩
    exact (a i).isLt
  · intro hk
    obtain ⟨i, hi⟩ := ha.2 ⟨k, hk⟩
    exact ⟨i, List.mem_finRange i, congrArg Fin.val hi⟩

/-- The core returns bijections, as the repair needs. -/
theorem rectangularLsap_bijective : Bijective rectangularLsap := by
  intro n cost rows cols h
  by_cases hn : n = 0
  · subst hn
    unfold rectangularLsap at h
    split at h
    · cases h
      exact ⟨List.Perm.refl _, List.Perm.refl _⟩
    · cases h
  · by_cases hlen : cost.length = n * n
    · obtain ⟨a, hsolved, ha, -⟩ := rectangularLsap_solved hn hlen
      rw [hsolved] at h
      cases h
      exact ⟨map_val_perm Function.bijective_id, map_val_perm ha⟩
    · rw [rectangularLsap, dif_neg hlen] at h
      cases h

/-! ### The repair -/

/-- What the core's pairs cost in the matrix. -/
theorem costOf_matrix {cost : List ℚ} (h : cost.length = n * n) (a : Fin n → Fin n) :
    costOf cost n ((List.finRange n).map fun i => i.val) ((List.finRange n).map fun i => (a i).val) =
      GreedySolver.total (matrix cost n h) a := by
  have hzip : ((List.finRange n).map fun i => i.val).zip ((List.finRange n).map fun i => (a i).val) =
      (List.finRange n).map fun i => (i.val, (a i).val) := by
    rw [List.zip_map']
  rw [costOf, hzip, List.map_map, GreedySolver.total, Fin.sum_univ_def]
  refine congrArg List.sum (List.map_congr_left fun i _ => ?_)
  show cost.getD (i.val * n + (a i).val) 0 = _
  rw [List.getD_eq_getElem?_getD]
  unfold matrix
  rw [List.getElem?_eq_getElem, Option.getD_some]
  rfl

variable {assign : Fin n → Option (Fin n)} {members : List (Member n)} {group : String}

theorem repairCosts_length (members : List (Member n)) (rows objects : List (Fin n)) :
    (rows.flatMap fun i => objects.map fun j => trueCost members i j).length = rows.length * objects.length := by
  rw [List.length_flatMap]
  simp

/-- A permutation that keeps the matching sends the rows that are left to the objects that are left. -/
theorem exists_leftover (h : PartialMatching assign) {σ : Fin n → Fin n} (hσ : Function.Bijective σ)
    (hkeeps : ∀ i j, assign i = some j → σ i = j) :
    ∃ b : Fin (freeBidders assign).length → Fin (freeBidders assign).length, Function.Bijective b ∧
      ∀ r, (freeObjects assign)[(b r).val]? = some (σ (freeBidders assign)[r]) := by
  have hall : ∀ r : Fin (freeBidders assign).length, ∃ c : Fin (freeBidders assign).length,
      (freeObjects assign)[c.val]? = some (σ (freeBidders assign)[r]) := fun r => by
    have hfree : assign (freeBidders assign)[r] = none := (mem_freeBidders assign _).mp (List.getElem_mem _)
    have hmem : σ (freeBidders assign)[r] ∈ freeObjects assign := (mem_freeObjects assign _).mpr fun i hi => by
      rw [hσ.1 (hkeeps i _ hi), hfree] at hi
      cases hi
    obtain ⟨c, hc, hat⟩ := List.mem_iff_getElem.mp hmem
    exact ⟨⟨c, length_freeObjects h ▸ hc⟩, hat ▸ List.getElem?_eq_getElem hc⟩
  choose b hb using hall
  refine ⟨b, Finite.injective_iff_bijective.mp fun r r' he => ?_, hb⟩
  have hsame := hb r
  rw [he, hb r'] at hsame
  have hnodup : (freeBidders assign).Nodup := (List.nodup_finRange n).filter _
  exact Fin.ext ((hnodup.getElem_inj_iff).mp (hσ.1 (Option.some.inj hsame)).symm)

theorem solveJv_solved {lsap : Nat → List ℚ → LsapResult} {cost : List ℚ} {rows cols : List Nat} (hn : n ≠ 0)
    (hlen : cost.length = n * n) (h : lsap n cost = .solved rows cols) :
    solveJv lsap cost n = .ok ⟨assignmentOf n rows cols, costOf cost n rows cols⟩ := by
  rw [solveJv, if_neg hn, if_neg (not_not.mpr hlen), h]

/-- The solver on the leftover block. -/
theorem solveJv_leftover (h : PartialMatching assign) (members : List (Member n)) (hleft : freeBidders assign ≠ []) :
    ∃ lap, solveJv rectangularLsap ((freeBidders assign).flatMap fun i => (freeObjects assign).map fun j => trueCost members i j)
        (freeBidders assign).length = .ok lap ∧
      ∀ σ : Fin n → Fin n, Function.Bijective σ → (∀ i j, assign i = some j → σ i = j) →
        lap.costRaw ≤ ((freeBidders assign).map fun i => trueCost members i (σ i)).sum := by
  have hm : (freeBidders assign).length ≠ 0 := fun hz => hleft (List.length_eq_zero_iff.mp hz)
  have hlen := repairCosts_length members (freeBidders assign) (freeObjects assign)
  rw [length_freeObjects h] at hlen
  obtain ⟨a, hsolved, -, hbest⟩ := rectangularLsap_solved hm hlen
  refine ⟨_, solveJv_solved hm hlen hsolved, fun σ hσ hkeeps => ?_⟩
  obtain ⟨b, hb, hobject⟩ := exists_leftover h hσ hkeeps
  refine (costOf_matrix hlen a).trans_le ((hbest b hb).trans_eq ?_)
  rw [GreedySolver.total, Fin.sum_univ_def]
  refine congrArg List.sum (List.ext_getElem (by simp) fun k hk _ => ?_)
  have hk' : k < (freeBidders assign).length := by simpa using hk
  have hentry := getElem?_grid (fun i j => trueCost members i j) (freeObjects assign) (hobject ⟨k, hk'⟩) (freeBidders assign) k
    (freeBidders assign)[k] (List.getElem?_eq_getElem hk')
  rw [length_freeObjects h] at hentry
  simp only [List.getElem_map, List.getElem_finRange]
  exact (List.getElem?_eq_some_iff.mp hentry).2

/-- With its own solver the repair does not fail, and completes the matching at least cost. -/
theorem repair_optimal (h : PartialMatching assign) (members : List (Member n)) (group : String) :
    ∃ assign' repair perm, sparseNullRepair rectangularLsap (repairCosts members) group assign = .ok (assign', repair) ∧
      Repaired assign assign' perm ∧
      repair.cost = (∑ i, if assign i = none then trueCost members i (perm i) else 0) ∧
      ∀ σ : Fin n → Fin n, Function.Bijective σ → (∀ i j, assign i = some j → σ i = j) →
        repair.cost ≤ ∑ i, if assign i = none then trueCost members i (σ i) else 0 := by
  rcases nullRepair_cases (repairCosts members) group h rectangularLsap_bijective with
    ⟨e, hrun, hcosts | ⟨csub, hcsub, hsolve⟩⟩ | ⟨assign', repair, _, hrun, -, -⟩
  · cases hcosts
  · have hleft : freeBidders assign ≠ [] := fun hnil => by
      rw [sparseNullRepair, if_pos hnil] at hrun
      cases hrun
    obtain ⟨lap, hlap, -⟩ := solveJv_leftover h members hleft
    cases hcsub
    rw [hlap] at hsolve
    cases hsolve
  · obtain ⟨perm, hrepaired, hcost⟩ := repair_cost h rectangularLsap_bijective hrun
    refine ⟨assign', repair, perm, hrun, hrepaired, hcost, fun σ hσ hkeeps => ?_⟩
    rw [← sum_freeBidders assign fun i => trueCost members i (σ i)]
    by_cases hnil : freeBidders assign = []
    · rw [sparseNullRepair, if_pos hnil] at hrun
      cases hrun
      rw [hnil]
      exact le_rfl
    · obtain ⟨lap, hlap, hbest⟩ := solveJv_leftover h members hnil
      rw [sparseNullRepair, if_neg hnil, if_neg (not_not.mpr (length_freeObjects h))] at hrun
      obtain ⟨csub, hcsub, hrun⟩ := bind_eq_ok.mp hrun
      cases hcsub
      obtain ⟨lap', hlap', hrun⟩ := bind_eq_ok.mp hrun
      obtain ⟨objects, -, hrun⟩ := bind_eq_ok.mp hrun
      rw [hlap] at hlap'
      cases hlap'
      cases hrun
      exact hbest σ hσ hkeeps

end SynapseFs.Align
