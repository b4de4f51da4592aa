import SynapseFs.Align.SparseMatch

/-! The evidence for a group: what its assignment costs, and how many of its rows have one
best candidate.

A row's cost is in the repair's sum or is read from the candidates, and the loop tells
the two apart by looking for the row's object among its candidates. It counts ties from
the first candidate on, which is the least so far already; the dense loop starts at the
second. `evidence_right_iff` says exactly when the figures are right all the same. -/
namespace SynapseFs.Align
open Core

variable {n : Nat}

/-- The two branches that both loops over a row share: the least cost and how often it came again. -/
def tieStep (s : ℚ × Nat) (c : ℚ) : ℚ × Nat :=
  if c < s.1 then (c, 0) else if c = s.1 then (s.1, s.2 + 1) else s

/-- The dense loop, from the second column on. -/
def denseTies : List ℚ → Nat
  | [] => 0
  | c :: rest => (rest.foldl tieStep (c, 0)).2

/-- The sparse loop, from the first candidate on. -/
def sparseTies : List ℚ → Nat
  | [] => 0
  | c :: rest => ((c :: rest).foldl tieStep (c, 0)).2

/-- The cost at `matched_k`, the last candidate that is the object of the row. -/
def matchedCost (object : Option (Fin n)) (row : List (Fin n × ℚ)) : Option ℚ :=
  row.foldl (fun matched e => if some e.1 = object then some e.2 else matched) none

structure Evidence where
  achievedCost : ℚ
  distinct : Nat

def countRow (rows : Fin n → List (Fin n × ℚ)) (assign : Fin n → Option (Fin n)) (e : Evidence) (i : Fin n) : Evidence :=
  ⟨e.achievedCost + (matchedCost (assign i) (rows i)).getD 0,
    if sparseTies ((rows i).map Prod.snd) = 0 then e.distinct + 1 else e.distinct⟩

/-- The evidence loop: `rows` are the candidates with their costs, `assign` is the repaired assignment. -/
def evidence (rows : Fin n → List (Fin n × ℚ)) (assign : Fin n → Option (Fin n)) (repairCost : ℚ) : Evidence :=
  (List.finRange n).foldl (countRow rows assign) ⟨repairCost, 0⟩

/-- The candidates of every row with the costs of `sparse_true_cost`. -/
def candidateRows (members : List (Member n)) (cand : Fin n → List (Fin n)) (i : Fin n) : List (Fin n × ℚ) :=
  (cand i).map fun j => (j, sparseTrueCost members i j)

/-! ### What the figures should be -/

/-- The least cost is there once. -/
def MinOnce (costs : List ℚ) : Prop := ∃ m ∈ costs, (∀ c ∈ costs, m ≤ c) ∧ costs.count m = 1

instance (costs : List ℚ) : Decidable (MinOnce costs) :=
  inferInstanceAs (Decidable (∃ m ∈ costs, (∀ c ∈ costs, m ≤ c) ∧ costs.count m = 1))

/-- The first cost is less than all others. -/
def FirstBest : List ℚ → Prop
  | [] => False
  | c :: rest => ∀ x ∈ rest, c < x

structure CountedRight (members : List (Member n)) (cand : Fin n → List (Fin n)) (perm : Fin n → Fin n)
    (e : Evidence) : Prop where
  cost : e.achievedCost = ∑ i, trueCost members i (perm i)
  distinct : e.distinct = (List.finRange n).countP fun i => MinOnce ((cand i).map (trueCost members i))

/-- No row that the auction left gets one of its candidates, unless at no cost, and none has
its first candidate for the only best. -/
structure CountsOnce (members : List (Member n)) (cand : Fin n → List (Fin n)) (assign : Fin n → Option (Fin n))
    (perm : Fin n → Fin n) : Prop where
  repaired : ∀ i, assign i = none → perm i ∈ cand i → trueCost members i (perm i) = 0
  first : ∀ i, ¬ FirstBest ((cand i).map (trueCost members i))

/-! ### Ties -/

/-- The loop ends at the least cost, and has counted how often it came after the first time. -/
theorem foldl_tieStep (l : List ℚ) : ∀ (b : ℚ) (t : Nat), ∃ m ties, l.foldl tieStep (b, t) = (m, ties) ∧
    m ≤ b ∧ (∀ x ∈ l, m ≤ x) ∧ (m = b → ties = t + l.count b) ∧ (m < b → m ∈ l ∧ ties + 1 = l.count m) := by
  induction l with
  | nil =>
    intro b t
    exact ⟨b, t, rfl, le_rfl, by simp, by simp, fun h => absurd h (lt_irrefl b)⟩
  | cons x rest ih =>
    intro b t
    rw [List.foldl_cons, tieStep]
    rcases lt_trichotomy x b with hx | rfl | hx
    · rw [if_pos hx]
      obtain ⟨m, ties, hrun, hmx, hall, heq, hlt⟩ := ih x 0
      refine ⟨m, ties, hrun, hmx.trans hx.le, List.forall_mem_cons.mpr ⟨hmx, hall⟩, fun h => ?_, fun _ => ?_⟩
      · exact absurd (h ▸ hmx) (not_le.mpr hx)
      · rcases hmx.eq_or_lt with rfl | hmx
        · exact ⟨List.mem_cons_self, by rw [heq rfl, List.count_cons_self, Nat.zero_add]⟩
        · obtain ⟨hmem, hties⟩ := hlt hmx
          exact ⟨List.mem_cons_of_mem _ hmem, by rw [List.count_cons_of_ne hmx.ne', hties]⟩
    · rw [if_neg (lt_irrefl x), if_pos rfl]
      obtain ⟨m, ties, hrun, hmx, hall, heq, hlt⟩ := ih x (t + 1)
      refine ⟨m, ties, hrun, hmx, List.forall_mem_cons.mpr ⟨hmx, hall⟩, fun h => ?_, fun h => ?_⟩
      · rw [heq h, List.count_cons_self]
        omega
      · obtain ⟨hmem, hties⟩ := hlt h
        exact ⟨List.mem_cons_of_mem _ hmem, by rw [List.count_cons_of_ne h.ne', hties]⟩
    · rw [if_neg hx.not_gt, if_neg hx.ne']
      obtain ⟨m, ties, hrun, hmb, hall, heq, hlt⟩ := ih b t
      refine ⟨m, ties, hrun, hmb, List.forall_mem_cons.mpr ⟨hmb.trans hx.le, hall⟩, fun h => ?_, fun h => ?_⟩
      · rw [heq h, List.count_cons_of_ne hx.ne']
      · obtain ⟨hmem, hties⟩ := hlt h
        exact ⟨List.mem_cons_of_mem _ hmem, by rw [List.count_cons_of_ne (h.trans hx).ne', hties]⟩

/-- The least cost is what the definition says it is. -/
theorem minOnce_iff_count {costs : List ℚ} {m : ℚ} (hm : m ∈ costs) (hle : ∀ c ∈ costs, m ≤ c) :
    MinOnce costs ↔ costs.count m = 1 := by
  constructor
  · rintro ⟨m', hm', hle', hcount⟩
    rw [le_antisymm (hle m' hm') (hle' m hm)]
    exact hcount
  · intro hcount
    exact ⟨m, hm, hle, hcount⟩

/-- The dense loop finds no ties iff the least cost is there once. -/
theorem denseTies_eq_zero_iff {costs : List ℚ} (h : costs ≠ []) : denseTies costs = 0 ↔ MinOnce costs := by
  cases costs with
  | nil => exact absurd rfl h
  | cons c rest =>
    obtain ⟨m, ties, hrun, hmc, hall, heq, hlt⟩ := foldl_tieStep rest c 0
    rw [denseTies, hrun]
    rcases hmc.eq_or_lt with rfl | hmc
    · rw [minOnce_iff_count List.mem_cons_self (List.forall_mem_cons.mpr ⟨le_rfl, hall⟩), List.count_cons_self, heq rfl]
      dsimp only
      omega
    · obtain ⟨hmem, hties⟩ := hlt hmc
      rw [minOnce_iff_count (List.mem_cons_of_mem _ hmem) (List.forall_mem_cons.mpr ⟨hmc.le, hall⟩),
        List.count_cons_of_ne hmc.ne']
      dsimp only
      omega

/-- The sparse loop counts the first candidate against itself. -/
theorem sparseTies_eq_zero_iff {costs : List ℚ} (h : costs ≠ []) :
    sparseTies costs = 0 ↔ MinOnce costs ∧ ¬ FirstBest costs := by
  cases costs with
  | nil => exact absurd rfl h
  | cons c rest =>
    obtain ⟨m, ties, hrun, hmc, hall, heq, hlt⟩ := foldl_tieStep rest c 1
    have hsparse : sparseTies (c :: rest) = ties := by
      rw [sparseTies, List.foldl_cons, tieStep, if_neg (lt_irrefl c), if_pos rfl, Nat.zero_add, hrun]
    rw [hsparse]
    rcases hmc.eq_or_lt with rfl | hmc
    · rw [heq rfl, minOnce_iff_count List.mem_cons_self (List.forall_mem_cons.mpr ⟨le_rfl, hall⟩), List.count_cons_self]
      constructor
      · intro hzero
        omega
      · rintro ⟨hcount, hfirst⟩
        refine absurd (fun x hx => lt_of_le_of_ne (hall x hx) fun he => ?_) hfirst
        have := List.count_pos_iff.mpr (he ▸ hx)
        omega
    · obtain ⟨hmem, hties⟩ := hlt hmc
      rw [minOnce_iff_count (List.mem_cons_of_mem _ hmem) (List.forall_mem_cons.mpr ⟨hmc.le, hall⟩),
        List.count_cons_of_ne hmc.ne']
      constructor
      · intro hzero
        exact ⟨by omega, fun hfirst => absurd (hfirst m hmem) hmc.not_gt⟩
      · rintro ⟨hcount, -⟩
        omega

theorem FirstBest.minOnce {costs : List ℚ} (h : FirstBest costs) : MinOnce costs := by
  cases costs with
  | nil => exact h.elim
  | cons c rest =>
    refine (minOnce_iff_count List.mem_cons_self (List.forall_mem_cons.mpr ⟨le_rfl, fun x hx => (h x hx).le⟩)).mpr ?_
    rw [List.count_cons_self, List.count_eq_zero.mpr fun hmem => lt_irrefl c (h c hmem)]

/-! ### Costs -/

/-- The squares and the product come to the square of the difference. -/
theorem sparseTrueCost_eq (members : List (Member n)) (i j : Fin n) :
    sparseTrueCost members i j = trueCost members i j := by
  refine congrArg List.sum (List.map_congr_left fun m _ => ?_)
  congr 1
  rw [Finset.mul_sum, ← Finset.sum_add_distrib, ← Finset.sum_sub_distrib]
  refine Finset.sum_congr rfl fun k _ => ?_
  ring

theorem trueCost_nonneg (members : List (Member n)) (i j : Fin n) : 0 ≤ trueCost members i j := by
  refine List.sum_nonneg fun x hx => ?_
  obtain ⟨m, -, rfl⟩ := List.mem_map.mp hx
  exact div_nonneg (Finset.sum_nonneg fun k _ => mul_self_nonneg _) (Nat.cast_nonneg _)

theorem candidateRows_costs (members : List (Member n)) (cand : Fin n → List (Fin n)) (i : Fin n) :
    (candidateRows members cand i).map Prod.snd = (cand i).map (trueCost members i) := by
  rw [candidateRows, List.map_map]
  exact List.map_congr_left fun j _ => sparseTrueCost_eq members i j

/-- An entry of a matrix that is laid out row by row. -/
theorem getElem?_grid {α β γ : Type} (f : α → β → γ) (cols : List β) {c : Nat} {b : β} (hc : cols[c]? = some b) :
    ∀ (rows : List α) (r : Nat) (a : α), rows[r]? = some a →
    (rows.flatMap fun a => cols.map (f a))[r * cols.length + c]? = some (f a b) := by
  have hlt := (List.getElem?_eq_some_iff.mp hc).1
  intro rows
  induction rows with
  | nil =>
    intro r a hr
    cases hr
  | cons a' rest ih =>
    intro r a hr
    rw [List.flatMap_cons]
    cases r with
    | zero =>
      cases hr
      rw [Nat.zero_mul, Nat.zero_add, List.getElem?_append_left (by rwa [List.length_map]), List.getElem?_map, hc]
      rfl
    | succ r =>
      have hplace : (r + 1) * cols.length + c = cols.length + (r * cols.length + c) := by ring
      rw [hplace, List.getElem?_append_right (by rw [List.length_map]; omega), List.length_map, Nat.add_sub_cancel_left]
      exact ih r a hr

/-- What the loop adds for a row: the cost of its object, where that is a candidate. -/
theorem matchedCost_eq (f : Fin n → ℚ) (object : Fin n) (cand : List (Fin n)) :
    matchedCost (some object) (cand.map fun j => (j, f j)) = if object ∈ cand then some (f object) else none := by
  have hfold : ∀ (l : List (Fin n)) (m : Option ℚ),
      (l.map fun j => (j, f j)).foldl (fun matched e => if some e.1 = some object then some e.2 else matched) m =
        if object ∈ l then some (f object) else m := by
    intro l
    induction l with
    | nil => exact fun _ => rfl
    | cons j rest ih =>
      intro m
      rw [List.map_cons, List.foldl_cons, ih]
      by_cases hj : object = j
      · simp [hj]
      · simp [hj, Ne.symm hj]
  exact hfold cand none

/-! ### The loop -/

theorem evidence_eq (rows : Fin n → List (Fin n × ℚ)) (assign : Fin n → Option (Fin n)) (repairCost : ℚ) :
    evidence rows assign repairCost =
      ⟨repairCost + ∑ i, (matchedCost (assign i) (rows i)).getD 0,
        (List.finRange n).countP fun i => sparseTies ((rows i).map Prod.snd) = 0⟩ := by
  have hfold : ∀ (l : List (Fin n)) (e : Evidence), l.foldl (countRow rows assign) e =
      ⟨e.achievedCost + (l.map fun i => (matchedCost (assign i) (rows i)).getD 0).sum,
        e.distinct + l.countP fun i => sparseTies ((rows i).map Prod.snd) = 0⟩ := by
    intro l
    induction l with
    | nil => simp
    | cons i rest ih =>
      intro e
      rw [List.foldl_cons, ih, countRow, List.map_cons, List.sum_cons, List.countP_cons, add_assoc]
      by_cases hties : sparseTies ((rows i).map Prod.snd) = 0
      · simp [hties, Nat.add_comm, Nat.add_assoc]
      · simp [hties]
  rw [evidence, hfold, Nat.zero_add, Fin.sum_univ_def]

theorem sum_freeBidders (assign : Fin n → Option (Fin n)) (f : Fin n → ℚ) :
    ((freeBidders assign).map f).sum = ∑ i, if assign i = none then f i else 0 := by
  have hfilter : ∀ l : List (Fin n), ((l.filter fun i => (assign i).isNone).map f).sum =
      (l.map fun i => if assign i = none then f i else 0).sum := by
    intro l
    induction l with
    | nil => rfl
    | cons i rest ih =>
      rw [List.map_cons, List.sum_cons, ← ih, List.filter_cons]
      cases hi : assign i with
      | none => simp
      | some j => simp
  rw [freeBidders, hfilter, Fin.sum_univ_def]

/-- The repair's cost is that of the rows that it assigns. -/
theorem repair_cost {members : List (Member n)} {assign assign' : Fin n → Option (Fin n)} {repair : NullRepairResult}
    {lsap : Nat → List ℚ → LsapResult} {group : String} (h : PartialMatching assign) (hl : Bijective lsap)
    (hrun : sparseNullRepair lsap (repairCosts members) group assign = .ok (assign', repair)) :
    ∃ perm, Repaired assign assign' perm ∧
      repair.cost = ∑ i, if assign i = none then trueCost members i (perm i) else 0 := by
  rcases nullRepair_cases (repairCosts members) group h hl with
    ⟨e, herr, -⟩ | ⟨_, _, perm, hok, hrepaired, hcost⟩
  · rw [hrun] at herr
    cases herr
  · rw [hrun] at hok
    cases hok
    refine ⟨perm, hrepaired, ?_⟩
    rw [← sum_freeBidders assign fun i => trueCost members i (perm i)]
    refine hcost (trueCost members) fun csub hcsub r c i j hi hj => ?_
    cases hcsub
    rw [← length_freeObjects h, List.getD_eq_getElem?_getD, getElem?_grid (trueCost members) _ hj _ r i hi]
    rfl

theorem countP_eq_iff {α : Type} {p q : α → Bool} (l : List α) (h : ∀ a ∈ l, p a = true → q a = true) :
    l.countP p = l.countP q ↔ ∀ a ∈ l, q a = true → p a = true := by
  induction l with
  | nil => simp
  | cons a rest ih =>
    have hrest : ∀ a ∈ rest, p a = true → q a = true := fun b hb => h b (List.mem_cons_of_mem _ hb)
    have hle := List.countP_mono_left hrest
    have ha := h a List.mem_cons_self
    rw [List.countP_cons, List.countP_cons, List.forall_mem_cons, ← ih hrest]
    cases hp : p a with
    | true => simp [ha hp]
    | false =>
      cases hq : q a with
      | true =>
        simp
        omega
      | false => simp

/-- Both figures are right exactly where the repair gives no row one of its own candidates at
a cost, and no row has its first candidate for the only best; the dense loop is right on every row. -/
theorem evidence_right_iff (members : List (Member n)) (cand : Fin n → List (Fin n)) (hcand : ∀ i, cand i ≠ [])
    (assign : Fin n → Option (Fin n)) (h : PartialMatching assign) (hin : ∀ i j, assign i = some j → j ∈ cand i)
    (lsap : Nat → List ℚ → LsapResult) (hl : Bijective lsap) (group : String) (assign' : Fin n → Option (Fin n))
    (repair : NullRepairResult)
    (hrun : sparseNullRepair lsap (repairCosts members) group assign = .ok (assign', repair)) :
    ∃ perm, Repaired assign assign' perm ∧
      (CountedRight members cand perm (evidence (candidateRows members cand) assign' repair.cost) ↔
        CountsOnce members cand assign perm) ∧
      ∀ costs, costs ≠ [] → (denseTies costs = 0 ↔ MinOnce costs) := by
  obtain ⟨perm, hrepaired, hcost⟩ := repair_cost h hl hrun
  have hmatched : ∀ i, (matchedCost (assign' i) (candidateRows members cand i)).getD 0 =
      if perm i ∈ cand i then trueCost members i (perm i) else 0 := by
    intro i
    rw [hrepaired.eq i, candidateRows, matchedCost_eq (sparseTrueCost members i) (perm i) (cand i), sparseTrueCost_eq]
    split
    · rfl
    · rfl
  have hachieved : (evidence (candidateRows members cand) assign' repair.cost).achievedCost =
      ∑ i, ((if assign i = none then trueCost members i (perm i) else 0) +
        if perm i ∈ cand i then trueCost members i (perm i) else 0) := by
    rw [evidence_eq, hcost, Finset.sum_add_distrib]
    simp only [hmatched]
  -- A row is counted at least once, by the repair or among its candidates.
  have honce : ∀ i ∈ Finset.univ, trueCost members i (perm i) ≤
      (if assign i = none then trueCost members i (perm i) else 0) +
        if perm i ∈ cand i then trueCost members i (perm i) else 0 := by
    intro i _
    have hnonneg := trueCost_nonneg members i (perm i)
    cases hi : assign i with
    | none =>
      rw [if_pos rfl, le_add_iff_nonneg_right]
      split
      · exact hnonneg
      · exact le_rfl
    | some j =>
      have hmem : perm i ∈ cand i := hrepaired.keeps i j hi ▸ hin i j hi
      simp [hmem]
  have hcosts : (evidence (candidateRows members cand) assign' repair.cost).achievedCost =
      ∑ i, trueCost members i (perm i) ↔
        ∀ i, assign i = none → perm i ∈ cand i → trueCost members i (perm i) = 0 := by
    rw [hachieved, eq_comm, Finset.sum_eq_sum_iff_of_le honce]
    refine forall_congr' fun i => ?_
    cases hi : assign i with
    | none =>
      by_cases hmem : perm i ∈ cand i
      · simp [hmem]
      · simp [hmem]
    | some j =>
      have hmem : perm i ∈ cand i := hrepaired.keeps i j hi ▸ hin i j hi
      simp [hmem]
  have hne : ∀ i, (cand i).map (trueCost members i) ≠ [] := fun i hnil => hcand i (List.map_eq_nil_iff.mp hnil)
  have hdistinct : (evidence (candidateRows members cand) assign' repair.cost).distinct =
      ((List.finRange n).countP fun i => MinOnce ((cand i).map (trueCost members i))) ↔
        ∀ i, ¬ FirstBest ((cand i).map (trueCost members i)) := by
    rw [evidence_eq]
    simp only [candidateRows_costs]
    rw [countP_eq_iff]
    · refine ⟨fun hall i hfirst => ?_, fun hall i _ hmin => ?_⟩
      · have hties := of_decide_eq_true (hall i (List.mem_finRange i) (decide_eq_true hfirst.minOnce))
        exact ((sparseTies_eq_zero_iff (hne i)).mp hties).2 hfirst
      · exact decide_eq_true ((sparseTies_eq_zero_iff (hne i)).mpr ⟨of_decide_eq_true hmin, hall i⟩)
    · intro i _ hties
      exact decide_eq_true ((sparseTies_eq_zero_iff (hne i)).mp (of_decide_eq_true hties)).1
  refine ⟨perm, hrepaired, ⟨fun hright => ⟨hcosts.mp hright.cost, hdistinct.mp hright.distinct⟩, fun honce' =>
    ⟨hcosts.mpr honce'.repaired, hdistinct.mpr honce'.first⟩⟩, fun costs hne' => denseTies_eq_zero_iff hne'⟩

/-- Two rows, each nearest to the candidate that is listed first. -/
def pair : Member 2 := ⟨1, fun i _ => if i.val = 0 then 0 else 3, fun j _ => if j.val = 0 then 0 else 2⟩

def nearestFirst : Fin 2 → List (Fin 2) := fun i => [i, i.rev]

/-- The guard has cut the auction off before the second row had its object. -/
def cutOff : Fin 2 → Option (Fin 2) := fun i => if i.val = 0 then some i else none

theorem cutOff_matching : PartialMatching cutOff := by
  unfold PartialMatching
  decide

/-- The repair gives the second row its first candidate, at cost 1. -/
theorem cutOff_repaired : sparseNullRepair diagonal (repairCosts [pair]) "g" cutOff =
    .ok (writeObjects cutOff [1] [1], ⟨1, 1⟩) := by
  have hbidders : freeBidders cutOff = [1] := by decide
  have hobjects : freeObjects cutOff = [1] := by decide
  have hcost : repairCosts [pair] [1] [1] = .ok [1] := by
    have hone : trueCost [pair] 1 1 = 1 := by decide +kernel
    simp [repairCosts, hone]
  have hlap : solveJv diagonal [1] 1 = .ok ⟨[0], 1⟩ := by
    have hsum : costOf [1] 1 [0] [0] = 1 := by decide +kernel
    simp only [solveJv, diagonal]
    exact congrArg (fun c => Except.ok (⟨[0], c⟩ : LapResult)) hsum
  rw [sparseNullRepair, hbidders, hobjects, if_neg (by simp), if_neg (by simp), hcost]
  simp only [bind, Except.bind, List.length_singleton, hlap]
  rfl

theorem pair_evidence_iff : ∃ perm, Repaired cutOff (writeObjects cutOff [1] [1]) perm ∧
    (CountedRight [pair] nearestFirst perm (evidence (candidateRows [pair] nearestFirst) (writeObjects cutOff [1] [1]) 1) ↔
      CountsOnce [pair] nearestFirst cutOff perm) ∧
    ∀ costs, costs ≠ [] → (denseTies costs = 0 ↔ MinOnce costs) :=
  evidence_right_iff [pair] nearestFirst (by decide) cutOff cutOff_matching (by decide) diagonal diagonal_bijective "g"
    (writeObjects cutOff [1] [1]) ⟨1, 1⟩ cutOff_repaired

/-- Cost 2 for 1, and no distinct row for two. -/
theorem pair_miscounted : sparseNullRepair diagonal (repairCosts [pair]) "g" cutOff =
      .ok (writeObjects cutOff [1] [1], ⟨1, 1⟩) ∧
    Repaired cutOff (writeObjects cutOff [1] [1]) id ∧
    ¬ CountedRight [pair] nearestFirst id
      (evidence (candidateRows [pair] nearestFirst) (writeObjects cutOff [1] [1]) 1) := by
  refine ⟨cutOff_repaired, ⟨by decide, Function.bijective_id, by decide⟩, fun h => ?_⟩
  have hcost := h.cost
  rw [show (evidence (candidateRows [pair] nearestFirst) (writeObjects cutOff [1] [1]) 1).achievedCost = 2 by
      decide +kernel, show ∑ i, trueCost [pair] i (id i) = 1 by decide +kernel] at hcost
  norm_num at hcost

end SynapseFs.Align
