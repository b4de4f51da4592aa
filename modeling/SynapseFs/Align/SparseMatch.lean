import Mathlib.Algebra.BigOperators.Fin
import Mathlib.Algebra.Order.BigOperators.Group.Finset
import Mathlib.Algebra.Order.Field.Rat
import Mathlib.Data.List.FinRange
import Mathlib.Tactic.Ring
import SynapseFs.Align.Auction
import SynapseFs.Core.Topology

/-! What follows the auction: the repair of the rows that it leaves without an object,
the check of the permutation, and the evidence that is counted for it.

Costs are rationals. The rows of a tensor are taken as the reads deliver them, in the
order of the base; the core of the assignment solver is a parameter. -/
namespace SynapseFs.Align
open Core

/-! ### Costs -/

/-- One tensor that speaks for the group: the units of both sides, `width` numbers each. -/
structure Member (n : Nat) where
  width : Nat
  target : Fin n → Fin width → ℚ
  base : Fin n → Fin width → ℚ

variable {n : Nat}

/-- One entry of `sparse_true_cost`: squares and product apart. -/
def sparseTrueCost (members : List (Member n)) (i j : Fin n) : ℚ :=
  (members.map fun m => ((∑ k, m.target i k * m.target i k) + (∑ k, m.base j k * m.base j k) -
    2 * ∑ k, m.target i k * m.base j k) / (m.width : ℚ)).sum

/-- One entry of the matrix of the repair: the mean square of the difference. -/
def trueCost (members : List (Member n)) (i j : Fin n) : ℚ :=
  (members.map fun m => (∑ k, (m.target i k - m.base j k) * (m.target i k - m.base j k)) / (m.width : ℚ)).sum

/-- `Csub`, row by row. -/
def repairCosts (members : List (Member n)) (rows objects : List (Fin n)) : Outcome (List ℚ) :=
  .ok (rows.flatMap fun i => objects.map fun j => trueCost members i j)

/-! ### The assignment solver -/

/-- What the core of the solver returns: rows and columns of an assignment, or an error code. -/
inductive LsapResult where
  | solved (rows cols : List Nat)
  | infeasible
  | invalid

structure LapResult where
  assignment : List Nat
  costRaw : ℚ

/-- `assignment[row] = col`, pair by pair. -/
def assignmentOf (n : Nat) (rows cols : List Nat) : List Nat :=
  (rows.zip cols).foldl (fun assignment (row, col) => assignment.set row col) (List.replicate n 0)

def costOf (cost : List ℚ) (n : Nat) (rows cols : List Nat) : ℚ :=
  ((rows.zip cols).map fun (row, col) => cost.getD (row * n + col) 0).sum

def solveJv (lsap : Nat → List ℚ → LsapResult) (cost : List ℚ) (n : Nat) : Outcome LapResult :=
  if n = 0 then .ok ⟨[], 0⟩
  else if cost.length ≠ n * n then
    sfsErr .internal "cost matrix size does not match n*n" (toString cost.length)
  else
    match lsap n cost with
    | .infeasible => sfsErr .internal "LAP solver: infeasible cost matrix" ""
    | .invalid => sfsErr .internal "LAP solver: invalid cost matrix" ""
    | .solved rows cols => .ok ⟨assignmentOf n rows cols, costOf cost n rows cols⟩

/-- The core of the solver returns bijections. -/
def Bijective (lsap : Nat → List ℚ → LsapResult) : Prop :=
  ∀ n cost rows cols, lsap n cost = .solved rows cols → rows.Perm (List.range n) ∧ cols.Perm (List.range n)

/-! ### Null repair -/

structure NullRepairResult where
  nRepaired : Nat
  cost : ℚ

def freeBidders (assign : Fin n → Option (Fin n)) : List (Fin n) := (List.finRange n).filter fun i => (assign i).isNone

def freeObjects (assign : Fin n → Option (Fin n)) : List (Fin n) :=
  (List.finRange n).filter fun j => !(List.finRange n).any fun i => assign i = some j

/-- `free_objects[a]`. -/
def objectAt (objects : List (Fin n)) (a : Nat) : Outcome (Fin n) :=
  match objects[a]? with
  | some j => .ok j
  | none => .error (.undefined "read outside the vector")

/-- `acc[i] = j` for the rows and their objects. -/
def writeObjects (assign : Fin n → Option (Fin n)) (rows objects : List (Fin n)) : Fin n → Option (Fin n) :=
  (rows.zip objects).foldl (fun assign (i, j) => Function.update assign i (some j)) assign

/-- The rows without an object get the objects without an owner, as the exact solver matches them. -/
def sparseNullRepair (lsap : Nat → List ℚ → LsapResult) (costs : List (Fin n) → List (Fin n) → Outcome (List ℚ))
    (group : String) (assign : Fin n → Option (Fin n)) : Outcome ((Fin n → Option (Fin n)) × NullRepairResult) :=
  if freeBidders assign = [] then .ok (assign, ⟨0, 0⟩)
  else if (freeObjects assign).length ≠ (freeBidders assign).length then
    sfsErr .internal "auction left an unbalanced partial assignment" group
  else do
    let csub ← costs (freeBidders assign) (freeObjects assign)
    let lap ← solveJv lsap csub (freeBidders assign).length
    let objects ← lap.assignment.mapM (objectAt (freeObjects assign))
    return (writeObjects assign (freeBidders assign) objects, ⟨(freeBidders assign).length, lap.costRaw⟩)

/-- The repaired assignment as a permutation, -1 being the largest word. -/
def permutationOf (assign : Fin n → Option (Fin n)) : List Nat :=
  (List.finRange n).map fun i => (assign i).elim (2 ^ 32 - 1) Fin.val

/-- `match_group_sparse` from the repair to the check. -/
def repairedPermutation (lsap : Nat → List ℚ → LsapResult)
    (costs : List (Fin n) → List (Fin n) → Outcome (List ℚ)) (group : String) (assign : Fin n → Option (Fin n)) :
    Outcome (List Nat × NullRepairResult) := do
  let (assign, repair) ← sparseNullRepair lsap costs group assign
  if isValidPermutation (permutationOf assign) n then return (permutationOf assign, repair)
  else sfsErr .invalidPermutation "sparse path produced an invalid permutation" group

/-! ### The solver's assignment -/

/-- No object has two rows. -/
def PartialMatching (assign : Fin n → Option (Fin n)) : Prop :=
  ∀ i i' j, assign i = some j → assign i' = some j → i = i'

section
variable {rows cols : List Nat} {m : Nat}

theorem length_assignmentOf : (assignmentOf m rows cols).length = m := by
  rw [assignmentOf, foldl_set_length, List.length_replicate]

/-- Every row of the core has its column. -/
theorem assignmentOf_row (hr : rows.Perm (List.range m)) (hc : cols.Perm (List.range m)) {k r c : Nat}
    (hk : rows[k]? = some r) (hk' : cols[k]? = some c) : (assignmentOf m rows cols)[r]? = some c := by
  have hlen : rows.length = cols.length := hr.length_eq.trans hc.length_eq.symm
  have hfst : (rows.zip cols).map Prod.fst = rows := List.map_fst_zip hlen.le
  refine foldl_set_mem (rows.zip cols) _ (hfst.symm ▸ hr.nodup_iff.mpr List.nodup_range) (fun a ha => ?_) (r, c)
    (List.mem_of_getElem? (List.getElem?_zip_eq_some.mpr ⟨hk, hk'⟩))
  have hmem : a.1 ∈ rows := hfst ▸ List.mem_map_of_mem ha
  rw [List.length_replicate]
  exact List.mem_range.mp (hr.mem_iff.mp hmem)

/-- As many entries as columns, and every column among them. -/
theorem assignmentOf_perm (hr : rows.Perm (List.range m)) (hc : cols.Perm (List.range m)) :
    (assignmentOf m rows cols).Perm (List.range m) := by
  have hlen : rows.length = cols.length := hr.length_eq.trans hc.length_eq.symm
  have hsub : List.range m ⊆ assignmentOf m rows cols := by
    intro c hc'
    obtain ⟨k, hk⟩ := List.mem_iff_getElem?.mp (hc.mem_iff.mpr hc')
    have hlt := hlen ▸ (List.getElem?_eq_some_iff.mp hk).1
    exact List.mem_of_getElem? (assignmentOf_row hr hc (List.getElem?_eq_getElem hlt) hk)
  refine ((List.subperm_of_subset List.nodup_range hsub).perm_of_length_le ?_).symm
  rw [length_assignmentOf, List.length_range]

end

/-! ### The rows and the objects that are left -/

theorem mem_freeBidders (assign : Fin n → Option (Fin n)) (i : Fin n) : i ∈ freeBidders assign ↔ assign i = none := by
  simp [freeBidders]

theorem mem_freeObjects (assign : Fin n → Option (Fin n)) (j : Fin n) :
    j ∈ freeObjects assign ↔ ∀ i, assign i ≠ some j := by
  simp [freeObjects]

theorem freeBidders_nodup (assign : Fin n → Option (Fin n)) : (freeBidders assign).Nodup :=
  (List.nodup_finRange n).filter _

theorem freeObjects_nodup (assign : Fin n → Option (Fin n)) : (freeObjects assign).Nodup :=
  (List.nodup_finRange n).filter _

/-- As many rows as objects are left. -/
theorem length_freeObjects {assign : Fin n → Option (Fin n)} (h : PartialMatching assign) :
    (freeObjects assign).length = (freeBidders assign).length := by
  have hsplit : ∀ l : List (Fin n), (l.filterMap assign).length + (l.filter fun i => (assign i).isNone).length =
      l.length := by
    intro l
    induction l with
    | nil => rfl
    | cons i rest ih =>
      rw [List.filterMap_cons, List.filter_cons]
      cases assign i with
      | none =>
        simp only [Option.isNone_none, if_true, List.length_cons]
        omega
      | some j =>
        simp only [Option.isNone_some, List.length_cons]
        simp only [Bool.false_eq_true, if_false]
        omega
  have htaken : ((List.finRange n).filterMap assign).Nodup := by
    refine List.Nodup.filterMap (fun i i' j hi hi' => ?_) (List.nodup_finRange n)
    exact h i i' j hi hi'
  have hperm : (freeObjects assign ++ (List.finRange n).filterMap assign).Perm (List.finRange n) := by
    refine (List.perm_ext_iff_of_nodup ?_ (List.nodup_finRange n)).mpr fun j => ?_
    · refine List.nodup_append.mpr ⟨freeObjects_nodup assign, htaken, ?_⟩
      intro j hj j' hj' heq
      obtain ⟨i, -, hi⟩ := List.mem_filterMap.mp hj'
      exact (mem_freeObjects assign j).mp hj i (heq ▸ hi)
    · rw [List.mem_append, mem_freeObjects, List.mem_filterMap]
      constructor
      · exact fun _ => List.mem_finRange j
      · intro _
        by_cases htaken : ∃ i, assign i = some j
        · obtain ⟨i, hi⟩ := htaken
          exact .inr ⟨i, List.mem_finRange i, hi⟩
        · exact .inl fun i hi => htaken ⟨i, hi⟩
  have hlen := hperm.length_eq
  have hfree := hsplit (List.finRange n)
  rw [List.length_append] at hlen
  rw [freeBidders]
  omega

/-! ### The repair -/

/-- `perm` is the assignment once the repair has completed it. -/
structure Repaired (assign assign' : Fin n → Option (Fin n)) (perm : Fin n → Fin n) : Prop where
  eq : ∀ i, assign' i = some (perm i)
  bijective : Function.Bijective perm
  keeps : ∀ i j, assign i = some j → perm i = j

theorem exists_repaired {assign assign' : Fin n → Option (Fin n)} (htotal : ∀ i, ∃ j, assign' i = some j)
    (h : PartialMatching assign') (hkeeps : ∀ i j, assign i = some j → assign' i = some j) :
    ∃ perm, Repaired assign assign' perm := by
  choose perm hperm using htotal
  refine ⟨perm, hperm, Finite.injective_iff_bijective.mp fun i i' heq => ?_, fun i j hi => ?_⟩
  · exact h i i' (perm i) (hperm i) (heq ▸ hperm i')
  · exact Option.some.inj ((hperm i).symm.trans (hkeeps i j hi))

/-- Writes to distinct rows: each is there at the end, and no other. -/
theorem foldl_update_spec (l : List (Fin n × Fin n)) : ∀ f : Fin n → Option (Fin n), (l.map Prod.fst).Nodup →
    (∀ e ∈ l, l.foldl (fun f (i, j) => Function.update f i (some j)) f e.1 = some e.2) ∧
      ∀ i ∉ l.map Prod.fst, l.foldl (fun f (i, j) => Function.update f i (some j)) f i = f i := by
  induction l with
  | nil => simp
  | cons e rest ih =>
    intro f hnd
    rw [List.map_cons, List.nodup_cons] at hnd
    obtain ⟨hin, hout⟩ := ih (Function.update f e.1 (some e.2)) hnd.2
    simp only [List.foldl_cons]
    constructor
    · intro e' he'
      rcases List.mem_cons.mp he' with rfl | he'
      · rw [hout e'.1 hnd.1, Function.update_self]
      · exact hin e' he'
    · intro i hi
      rw [List.map_cons, List.mem_cons, not_or] at hi
      rw [hout i hi.2, Function.update_of_ne hi.1]

/-- What the solver returns for the leftover block. -/
theorem solveJv_eq_ok {lsap : Nat → List ℚ → LsapResult} {cost : List ℚ} {m : Nat} {lap : LapResult} (hm : m ≠ 0)
    (h : solveJv lsap cost m = .ok lap) : ∃ rows cols, lsap m cost = .solved rows cols ∧
      lap = ⟨assignmentOf m rows cols, costOf cost m rows cols⟩ := by
  unfold solveJv at h
  rw [if_neg hm] at h
  split at h
  · cases h
  · split at h
    · cases h
    · cases h
    · next rows cols hsolved =>
      cases h
      exact ⟨rows, cols, hsolved, rfl⟩

section
variable {lsap : Nat → List ℚ → LsapResult} {costs : List (Fin n) → List (Fin n) → Outcome (List ℚ)} {group : String}
  {assign : Fin n → Option (Fin n)}

/-- The objects that the solver's assignment names, one for each row. -/
theorem exists_objects {assignment : List Nat} (h : assignment.Perm (List.range (freeObjects assign).length)) :
    ∃ objects, assignment.mapM (objectAt (freeObjects assign)) = .ok objects ∧ objects.length = assignment.length ∧
      objects.Nodup ∧ ∀ k a : Nat, assignment[k]? = some a → objects[k]? = (freeObjects assign)[a]? := by
  have hat : ∀ a j, objectAt (freeObjects assign) a = .ok j ↔ (freeObjects assign)[a]? = some j := by
    intro a j
    unfold objectAt
    cases (freeObjects assign)[a]? with
    | none => simp
    | some j' => simp
  obtain ⟨objects, hobjects⟩ := exists_mapM_ok (f := objectAt (freeObjects assign)) (l := assignment) fun a ha =>
    ⟨_, (hat a _).mpr (List.getElem?_eq_getElem (List.mem_range.mp (h.mem_iff.mp ha)))⟩
  obtain ⟨hlen, hall⟩ := mapM_eq_ok hobjects
  have hread : ∀ k a : Nat, assignment[k]? = some a → objects[k]? = (freeObjects assign)[a]? := by
    intro k a hk
    obtain ⟨hlt, rfl⟩ := List.getElem?_eq_some_iff.mp hk
    rw [(hat _ _).mp (hall k hlt (hlen.symm ▸ hlt)), List.getElem?_eq_getElem (hlen.symm ▸ hlt)]
  refine ⟨objects, hobjects, hlen, List.nodup_iff_getElem?_ne_getElem?.mpr fun k k' hlt hlt' heq => ?_, hread⟩
  have hk := List.getElem?_eq_getElem (hlen ▸ hlt'.trans' hlt)
  have hk' := List.getElem?_eq_getElem (hlen ▸ hlt')
  have hmem := List.mem_range.mp (h.mem_iff.mp (List.getElem_mem (hlen ▸ hlt'.trans' hlt)))
  rw [hread k _ hk, hread k' _ hk'] at heq
  have hsame := (List.getElem?_inj hmem (freeObjects_nodup assign)).mp heq
  have := (List.Nodup.getElem_inj_iff (h.nodup_iff.mpr List.nodup_range)).mp hsame
  omega

/-- The rows that were left have the objects that were left, each one; the others keep theirs. -/
theorem exists_repaired_of_objects (h : PartialMatching assign) {objects : List (Fin n)} (hnd : objects.Nodup)
    (hlen : objects.length = (freeBidders assign).length) (hfree : ∀ j ∈ objects, j ∈ freeObjects assign) :
    ∃ perm, Repaired assign (writeObjects assign (freeBidders assign) objects) perm ∧
      ∀ (k : Nat) (i j : Fin n), (freeBidders assign)[k]? = some i → objects[k]? = some j → perm i = j := by
  have hfst : ((freeBidders assign).zip objects).map Prod.fst = freeBidders assign := List.map_fst_zip hlen.ge
  obtain ⟨hin, hout⟩ := foldl_update_spec ((freeBidders assign).zip objects) assign
    (by rw [hfst]; exact freeBidders_nodup assign)
  rw [hfst] at hout
  rw [← writeObjects] at hin hout
  generalize writeObjects assign (freeBidders assign) objects = assign' at hin hout ⊢
  have hat : ∀ (k : Nat) (i j : Fin n), (freeBidders assign)[k]? = some i → objects[k]? = some j → assign' i = some j :=
    fun k i j hi hj => hin (i, j) (List.mem_of_getElem? (List.getElem?_zip_eq_some.mpr ⟨hi, hj⟩))
  have hnew : ∀ i, assign i = none → ∃ (k : Nat) (j : Fin n), (freeBidders assign)[k]? = some i ∧
      objects[k]? = some j ∧ assign' i = some j := by
    intro i hi
    obtain ⟨k, hk⟩ := List.mem_iff_getElem?.mp ((mem_freeBidders assign i).mpr hi)
    have hlt := (List.getElem?_eq_some_iff.mp hk).1
    have hj := List.getElem?_eq_getElem (hlen.symm ▸ hlt)
    exact ⟨k, _, hk, hj, hat k i _ hk hj⟩
  have hkeeps : ∀ i j, assign i = some j → assign' i = some j := by
    intro i j hi
    rw [hout i fun hmem => by rw [(mem_freeBidders assign i).mp hmem] at hi; cases hi]
    exact hi
  have htotal : ∀ i, ∃ j, assign' i = some j := by
    intro i
    cases hi : assign i with
    | none =>
      obtain ⟨k, j, -, -, hj⟩ := hnew i hi
      exact ⟨j, hj⟩
    | some j => exact ⟨j, hkeeps i j hi⟩
  have hmatching : PartialMatching assign' := by
    intro i i' j hi hi'
    cases ha : assign i with
    | none =>
      obtain ⟨k, j₁, hk, hj₁, hset⟩ := hnew i ha
      rw [hi] at hset
      cases hset
      cases ha' : assign i' with
      | none =>
        obtain ⟨k', j₂, hk', hj₂, hset'⟩ := hnew i' ha'
        rw [hi'] at hset'
        cases hset'
        have hlt := (List.getElem?_eq_some_iff.mp hj₁).1
        have hkk := (List.getElem?_inj hlt hnd).mp (hj₁.trans hj₂.symm)
        rw [hkk, hk'] at hk
        exact (Option.some.inj hk).symm
      | some j₂ =>
        have hset' := hkeeps i' j₂ ha'
        rw [hi'] at hset'
        cases hset'
        exact absurd ha' ((mem_freeObjects assign j).mp (hfree j (List.mem_of_getElem? hj₁)) i')
    | some j₁ =>
      have hset := hkeeps i j₁ ha
      rw [hi] at hset
      cases hset
      cases ha' : assign i' with
      | none =>
        obtain ⟨k', j₂, hk', hj₂, hset'⟩ := hnew i' ha'
        rw [hi'] at hset'
        cases hset'
        exact absurd ha ((mem_freeObjects assign j).mp (hfree j (List.mem_of_getElem? hj₂)) i)
      | some j₂ =>
        have hset' := hkeeps i' j₂ ha'
        rw [hi'] at hset'
        cases hset'
        exact h i i' j ha ha'
  obtain ⟨perm, hperm⟩ := exists_repaired htotal hmatching hkeeps
  refine ⟨perm, hperm, fun k i j hi hj => ?_⟩
  have := hat k i j hi hj
  rw [hperm.eq i] at this
  exact Option.some.inj this

/-- The cost of the solver's assignment, summed over the rows in their own order. -/
theorem costOf_eq {β : Type} {rows cols : List Nat} {cost : List ℚ} {items : List β} {f : β → ℚ}
    (hr : rows.Perm (List.range items.length)) (hc : cols.Perm (List.range items.length))
    (h : ∀ (k r c : Nat) (b : β), rows[k]? = some r → cols[k]? = some c → items[r]? = some b →
      cost.getD (r * items.length + c) 0 = f b) : costOf cost items.length rows cols = (items.map f).sum := by
  have hlen : rows.length = cols.length := hr.length_eq.trans hc.length_eq.symm
  have hzip : ((rows.zip cols).map fun (row, col) => cost.getD (row * items.length + col) 0) =
      rows.map fun r => (items[r]?.map f).getD 0 := by
    refine List.ext_getElem? fun k => ?_
    rw [List.getElem?_map, List.getElem?_map]
    cases hk : rows[k]? with
    | none => rw [List.getElem?_eq_none (by rw [List.length_zip]; have := List.getElem?_eq_none_iff.mp hk; omega)]; rfl
    | some r =>
      have hlt := (List.getElem?_eq_some_iff.mp hk).1
      have hk' := List.getElem?_eq_getElem (hlen ▸ hlt)
      have hmem := List.mem_range.mp (hr.mem_iff.mp (List.mem_of_getElem? hk))
      have hpair : (rows.zip cols)[k]? = some (r, cols.get ⟨k, hlen ▸ hlt⟩) := List.getElem?_zip_eq_some.mpr ⟨hk, hk'⟩
      rw [hpair, Option.map_some, Option.map_some, List.getElem?_eq_getElem hmem]
      exact congrArg some (h k r _ _ hk hk' (List.getElem?_eq_getElem hmem))
  have hrange : (List.range items.length).map (fun r => (items[r]?.map f).getD 0) = items.map f := by
    refine List.ext_getElem? fun k => ?_
    rw [List.getElem?_map, List.getElem?_map]
    rcases lt_or_ge k items.length with hk | hk
    · rw [List.getElem?_range hk, List.getElem?_eq_getElem hk]
      simp [hk]
    · rw [List.getElem?_eq_none (by simpa using hk), List.getElem?_eq_none hk]
      rfl
  rw [costOf, hzip, (hr.map _).sum_eq, hrange]

/-- The repair completes a partial matching to a bijection, or its costs or the solver fail. -/
theorem nullRepair_cases (costs : List (Fin n) → List (Fin n) → Outcome (List ℚ)) (group : String)
    (h : PartialMatching assign) (hl : Bijective lsap) :
    (∃ e, sparseNullRepair lsap costs group assign = .error e ∧
      (costs (freeBidders assign) (freeObjects assign) = .error e ∨
        ∃ csub, costs (freeBidders assign) (freeObjects assign) = .ok csub ∧
          solveJv lsap csub (freeBidders assign).length = .error e)) ∨
    ∃ assign' repair perm, sparseNullRepair lsap costs group assign = .ok (assign', repair) ∧
      Repaired assign assign' perm ∧
      ∀ w : Fin n → Fin n → ℚ, (∀ csub, costs (freeBidders assign) (freeObjects assign) = .ok csub →
          ∀ (r c : Nat) (i j : Fin n), (freeBidders assign)[r]? = some i → (freeObjects assign)[c]? = some j →
            csub.getD (r * (freeBidders assign).length + c) 0 = w i j) →
        repair.cost = ((freeBidders assign).map fun i => w i (perm i)).sum := by
  by_cases hnil : freeBidders assign = []
  · obtain ⟨perm, hperm⟩ : ∃ perm, Repaired assign assign perm := exists_repaired (fun i => by
      cases hi : assign i with
      | none =>
        have hmem := (mem_freeBidders assign i).mpr hi
        rw [hnil] at hmem
        exact absurd hmem List.not_mem_nil
      | some j => exact ⟨j, rfl⟩) h fun _ _ hi => hi
    refine .inr ⟨assign, ⟨0, 0⟩, perm, if_pos hnil, hperm, fun w _ => ?_⟩
    rw [hnil]
    rfl
  · have hbalance := length_freeObjects h
    have hrun : sparseNullRepair lsap costs group assign = (do
        let csub ← costs (freeBidders assign) (freeObjects assign)
        let lap ← solveJv lsap csub (freeBidders assign).length
        let objects ← lap.assignment.mapM (objectAt (freeObjects assign))
        return (writeObjects assign (freeBidders assign) objects, ⟨(freeBidders assign).length, lap.costRaw⟩)) := by
      rw [sparseNullRepair, if_neg hnil, if_neg (not_not.mpr hbalance)]
    cases hcosts : costs (freeBidders assign) (freeObjects assign) with
    | error e =>
      refine .inl ⟨e, ?_, .inl rfl⟩
      rw [hrun, hcosts]
      rfl
    | ok csub =>
      cases hsolve : solveJv lsap csub (freeBidders assign).length with
      | error e =>
        refine .inl ⟨e, ?_, .inr ⟨csub, rfl, hsolve⟩⟩
        rw [hrun, hcosts]
        simp only [bind, Except.bind, hsolve]
      | ok lap =>
        have hm : (freeBidders assign).length ≠ 0 := fun hz => hnil (List.length_eq_zero_iff.mp hz)
        obtain ⟨rows, cols, hsolved, hlap⟩ := solveJv_eq_ok hm hsolve
        obtain ⟨hrows, hcols⟩ := hl _ _ _ _ hsolved
        have hperm : (assignmentOf (freeBidders assign).length rows cols).Perm
            (List.range (freeObjects assign).length) := by
          rw [hbalance]
          exact assignmentOf_perm hrows hcols
        obtain ⟨objects, hobjects, holen, hond, hoat⟩ := exists_objects hperm
        have hfree : ∀ j ∈ objects, j ∈ freeObjects assign := by
          intro j hj
          obtain ⟨k, hk⟩ := List.mem_iff_getElem?.mp hj
          have hlt := (List.getElem?_eq_some_iff.mp hk).1
          rw [hoat k _ (List.getElem?_eq_getElem (holen ▸ hlt))] at hk
          exact List.mem_of_getElem? hk
        obtain ⟨perm, hrepaired, hpermAt⟩ := exists_repaired_of_objects h hond (holen.trans length_assignmentOf) hfree
        refine .inr ⟨writeObjects assign (freeBidders assign) objects, ⟨(freeBidders assign).length, lap.costRaw⟩, perm,
          ?_, hrepaired, fun w hw => ?_⟩
        · rw [hrun, hcosts]
          simp only [bind, Except.bind, hsolve]
          rw [hlap, hobjects]
          rfl
        · rw [hlap]
          refine costOf_eq hrows hcols fun k r c i hk hk' hi => ?_
          have hrow := assignmentOf_row hrows hcols hk hk'
          have hc : c < (freeObjects assign).length := by
            rw [hbalance]
            exact List.mem_range.mp (hcols.mem_iff.mp (List.mem_of_getElem? hk'))
          have hobject := hoat r c hrow
          have hj := List.getElem?_eq_getElem hc
          rw [hpermAt r i _ hi (hobject.trans hj)]
          exact hw csub rfl r c i _ hi hj

/-- The check of the permutation passes, unless the costs or the solver fail before it. -/
theorem repairedPermutation_cases (h : PartialMatching assign) (hl : Bijective lsap) :
    (∃ e, repairedPermutation lsap costs group assign = .error e ∧
      (costs (freeBidders assign) (freeObjects assign) = .error e ∨
        ∃ csub, costs (freeBidders assign) (freeObjects assign) = .ok csub ∧
          solveJv lsap csub (freeBidders assign).length = .error e)) ∨
    ∃ perm repair, repairedPermutation lsap costs group assign = .ok (perm, repair) ∧
      isValidPermutation perm n = true ∧ ∀ i j : Fin n, assign i = some j → perm[i.val]? = some j.val := by
  rcases nullRepair_cases costs group h hl with
    ⟨e, hrun, hwhy⟩ | ⟨assign', repair, perm, hrun, hrepaired, -⟩
  · refine .inl ⟨e, ?_, hwhy⟩
    rw [repairedPermutation, hrun]
    rfl
  · have hperm : permutationOf assign' = (List.finRange n).map fun i => (perm i).val := by
      refine List.map_congr_left fun i _ => ?_
      rw [hrepaired.eq i]
      rfl
    have hvalid : isValidPermutation (permutationOf assign') n = true := by
      rw [isValidPermutation_iff, hperm]
      refine ⟨by simp, fun p hp => ?_, ?_⟩
      · obtain ⟨i, -, rfl⟩ := List.mem_map.mp hp
        exact (perm i).isLt
      · exact (List.nodup_finRange n).map fun i i' heq => hrepaired.bijective.1 (Fin.ext heq)
    refine .inr ⟨permutationOf assign', repair, ?_, hvalid, fun i j hi => ?_⟩
    · rw [repairedPermutation, hrun]
      exact if_pos hvalid
    · rw [hperm, List.getElem?_map, List.getElem?_eq_getElem (by simp), List.getElem_finRange]
      exact congrArg (fun p : Fin n => some p.val) (hrepaired.keeps i j hi)

end

/-! ### The sparse path -/

theorem AuctionState.Sound.partialMatching {bound : ℤ} {s : AuctionState n} (h : s.Sound bound) :
    PartialMatching s.assign := by
  intro i i' j hi hi'
  rw [h.inverse] at hi hi'
  exact Option.some.inj (hi.symm.trans hi')

/-- Throughout the auction the owners and the assigned rows are one matching, every object
for which a row bids has one winner, which pays its bid, and prices rise up to a bound;
every phase ends; and the repair completes what the auction leaves to a bijection. -/
theorem sparse_match_bijective {K : Nat} (g : Candidates n K) (topk : Topk n K) (ht : topk.Lawful) (epsShrink : ℚ)
    (hshrink : 1 < epsShrink) (bidGuard : ℤ) (lsap : Nat → List ℚ → LsapResult) (hl : Bijective lsap) :
    (∀ eps s, Reached g topk epsShrink eps s →
      (∀ i j, s.assign i = some j ↔ s.owner j = some i) ∧
      (∀ i, s.bidder g topk i = true →
        ∃! w, s.wins g topk eps w = true ∧ s.object g topk w = s.object g topk i) ∧
      (∀ w, s.wins g topk eps w = true → s.winPrice g topk eps (s.object g topk w) = s.bid g topk eps w) ∧
      (∀ j, s.prices j ≤ (s.round g topk eps).prices j ∧ s.prices j ≤ s.reset.prices j ∧
        s.prices j ≤ 2 ^ 20 + initialEps g) ∧
      ∀ guard r, ∃ s', s.phase g topk eps guard (phaseFuel g) r = .ok s' ∧ Reached g topk epsShrink eps s') ∧
    ∃ s, auction g topk epsShrink bidGuard = .ok s ∧ Reached g topk epsShrink 1 s ∧
      (freeObjects s.assign).length = (freeBidders s.assign).length ∧
      ∀ costs group,
        (∃ e, repairedPermutation lsap costs group s.assign = .error e ∧
          (costs (freeBidders s.assign) (freeObjects s.assign) = .error e ∨
            ∃ csub, costs (freeBidders s.assign) (freeObjects s.assign) = .ok csub ∧
              solveJv lsap csub (freeBidders s.assign).length = .error e)) ∨
        ∃ perm repair, repairedPermutation lsap costs group s.assign = .ok (perm, repair) ∧
          isValidPermutation perm n = true ∧ ∀ i j : Fin n, s.assign i = some j → perm[i.val]? = some j.val := by
  constructor
  · intro eps s h
    have hsound := h.sound ht hshrink
    refine ⟨hsound.inverse, fun i hi => ?_, fun w hw => AuctionState.winPrice_eq hw, fun j => ?_, fun guard r => ?_⟩
    · obtain ⟨w, hw, hobject⟩ : ∃ w, s.wins g topk eps w = true ∧ s.object g topk w = s.object g topk i :=
        AuctionState.exists_winner ht hsound.nonneg hi
      exact ⟨w, ⟨hw, hobject⟩, fun w' hw' => AuctionState.winner_unique hw'.1 hw (hw'.2.trans hobject.symm)⟩
    · exact ⟨AuctionState.round_prices_ge ht j, le_rfl, hsound.le j⟩
    · exact h.phase_ends ht hshrink guard r
  · obtain ⟨s, hrun, h⟩ := auction_ends (g := g) ht hshrink bidGuard
    have hmatching := (h.sound ht hshrink).partialMatching
    exact ⟨s, hrun, h, length_freeObjects hmatching, fun costs group => repairedPermutation_cases hmatching hl⟩

/-- The solver on a diagonal that nothing undercuts. -/
def diagonal (n : Nat) (_ : List ℚ) : LsapResult := .solved (List.range n) (List.range n)

theorem diagonal_bijective : Bijective diagonal := by
  intro n cost rows cols h
  cases h
  exact ⟨List.Perm.refl _, List.Perm.refl _⟩

theorem single_bijective : ∃ s, auction single onlyCandidate 5 400 = .ok s ∧
    (freeObjects s.assign).length = (freeBidders s.assign).length ∧
    ∀ costs group,
      (∃ e, repairedPermutation diagonal costs group s.assign = .error e ∧
        (costs (freeBidders s.assign) (freeObjects s.assign) = .error e ∨
          ∃ csub, costs (freeBidders s.assign) (freeObjects s.assign) = .ok csub ∧
            solveJv diagonal csub (freeBidders s.assign).length = .error e)) ∨
      ∃ perm repair, repairedPermutation diagonal costs group s.assign = .ok (perm, repair) ∧
        isValidPermutation perm 1 = true ∧ ∀ i j : Fin 1, s.assign i = some j → perm[i.val]? = some j.val := by
  obtain ⟨-, s, hrun, -, hbalance, hperm⟩ := sparse_match_bijective single onlyCandidate onlyCandidate_lawful 5
    (by norm_num) 400 diagonal diagonal_bijective
  exact ⟨s, hrun, hbalance, hperm⟩

end SynapseFs.Align
