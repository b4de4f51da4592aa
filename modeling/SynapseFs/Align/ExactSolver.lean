import Mathlib.Algebra.BigOperators.Fin
import Mathlib.Data.Int.ConditionallyCompleteOrder
import SynapseFs.Align.AugmentingPath
import SynapseFs.Align.GreedySolver

/-! What the exact solver returns.

Where costs add up exactly, the labels of a search are distances (`Measured`), so that the
prices stay under the costs and the pairs stay tight from row to row (`Priced`): the choice
that `solve` returns is cheapest (`solve_optimal`). Whatever the arithmetic, it returns a
choice unless there is none (`solve_returned`). The solvers of the matcher are put together
from it and the greedy one; a result that says it is exact is one (`autoSolve_exact`). -/
namespace SynapseFs.Align.RectangularLsap
open Lib Core

variable {nr nc : Nat} {α : Type}

/-! ### Labels are distances -/

section
variable [AddCommGroup α] [LinearOrder α] [IsOrderedAddMonoid α] {cost : Fin nr → Fin nc → WithTop α}
  {s s' : Solution nr nc α} {curRow : Fin nr} {sink j : Fin nc} {t t' : Search nr nc α} {assigned : Fin nr → Prop}

/-- The prices of the rows that are assigned, with every pair tight and every free column at zero. -/
structure Priced (cost : Fin nr → Fin nc → WithTop α) (assigned : Fin nr → Prop) (s : Solution nr nc α) : Prop where
  dual : Duality.Dual cost assigned s.u s.v
  tight : ∀ i j, s.col4row i = some j → cost i j = ((s.u i + s.v j : α) : WithTop α)
  free : ∀ j, s.row4col j = none → s.v j = 0

/-- `depth` is the distance of the rows: a label is the least that the rows scanned offer, no closed column is further than
the last one, and no open one is nearer. -/
structure Measured (cost : Fin nr → Fin nc → WithTop α) (s : Solution nr nc α) (curRow : Fin nr) (depth : Fin nr → α)
    (t : Search nr nc α) : Prop where
  root : depth curRow = 0
  first : t.SR curRow = false → ∀ j, t.SC j = false
  current : t.SR t.i = false → depth t.i = t.minVal
  depth_eq : ∀ i j, i ≠ curRow → (t.SR i = true ∨ i = t.i) → s.col4row i = some j → t.shortestPathCosts j = (depth i : α)
  offers : ∀ i j, t.SR i = true → t.shortestPathCosts j ≤ pathCost cost s (depth i) i j
  exact : ∀ i j, t.path j = some i → t.shortestPathCosts j ≠ ⊤ → t.shortestPathCosts j = pathCost cost s (depth i) i j
  closed_le : ∀ j, t.SC j = true → t.shortestPathCosts j ≤ t.minVal
  le_open : ∀ j, t.SC j = false → (t.minVal : WithTop α) ≤ t.shortestPathCosts j

/-- A tight price bounds what a row offers. -/
theorem le_pathCost (h : Duality.Dual cost assigned s.u s.v) {i : Fin nr} (hi : assigned i) (d : α) (j : Fin nc) :
    (d : WithTop α) ≤ pathCost cost s d i j := by
  have hle := h.le i hi j
  unfold pathCost
  cases hc : cost i j with
  | top => exact le_top
  | coe c =>
    rw [hc] at hle
    rw [WithTop.map_coe, WithTop.coe_le_coe, add_sub_assoc, add_sub_assoc, le_add_iff_nonneg_right, sub_sub, sub_nonneg]
    exact WithTop.coe_le_coe.mp hle

omit [IsOrderedAddMonoid α] in
theorem Measured.start (s : Solution nr nc α) (curRow : Fin nr) : Measured cost s curRow (fun _ => 0) (Search.start s curRow) where
  root := rfl
  first _ _ := rfl
  current _ := rfl
  depth_eq i j hne hi := by simp [Search.start, hne] at hi
  offers i j h := by simp [Search.start] at h
  exact i j _ h := by simp [Search.start] at h
  closed_le j h := by simp [Search.start] at h
  le_open _ _ := le_top

/-- After the first row distances do not go down, as the row that is scanned has a tight pair. -/
theorem Measured.mono {depth : Fin nr → α} (m : Measured cost s curRow depth t) (g : Searching cost s curRow t)
    (hs : Matched cost s assigned) (hp : Priced cost assigned s) (n : Next cost s t j t') (hroot : t.SR curRow = true) :
    (t.minVal : WithTop α) ≤ t'.minVal := by
  have hne : t.i ≠ curRow := fun he => by
    have hfresh := g.fresh
    rw [he, hroot] at hfresh
    cases hfresh
  obtain ⟨j', hj', -⟩ := g.current.resolve_left hne
  rw [← n.reached, n.relaxed j n.mem]
  exact le_min (m.le_open j ((g.open_iff j).mp n.mem)) (le_pathCost hp.dual ((hs.row t.i).mp ⟨j', hj'⟩) _ j)

/-- The distances after an iteration are those from before, with that of the row that is next. -/
theorem Measured.next {depth depth' : Fin nr → α} (m : Measured cost s curRow depth t) (g : Searching cost s curRow t)
    (hs : Matched cost s assigned) (hp : Priced cost assigned s) (n : Next cost s t j t')
    (hdepth : ∀ i, t'.SR i = true → depth' i = depth i)
    (hrow : t'.SR t'.i = false → depth' t'.i = t'.minVal ∧ s.col4row t'.i = some j) : Measured cost s curRow depth' t' where
  root := (hdepth curRow (g.root_next n)).trans m.root
  first h := by
    rw [g.root_next n] at h
    cases h
  current h := (hrow h).1
  depth_eq i j' hne hi hj' := by
    cases hscanned : t'.SR i with
    | true =>
      obtain ⟨j'', hj'', hclosed⟩ := (g.row_next n hscanned).resolve_left hne
      obtain rfl : j'' = j' := Option.some.inj (hj''.symm.trans hj')
      rw [(n.other j'' (g.not_open hclosed)).1, hdepth i hscanned]
      exact m.depth_eq i j'' hne (n.scanned_iff.mp hscanned).symm hj'
    | false =>
      obtain rfl : i = t'.i := hi.resolve_left (by rw [hscanned]; simp)
      obtain ⟨hcurrent, hcol⟩ := hrow hscanned
      obtain rfl : j = j' := Option.some.inj (hcol.symm.trans hj')
      rw [n.reached, hcurrent]
  offers i j' hi := by
    rw [hdepth i hi]
    cases hclosed : t.SC j' with
    | false =>
      rw [n.relaxed j' ((g.open_iff j').mpr hclosed)]
      rcases n.scanned_iff.mp hi with rfl | hi
      · rw [m.current g.fresh]
        exact min_le_right ..
      · exact (min_le_left ..).trans (m.offers i j' hi)
    | true =>
      rw [(n.other j' (g.not_open hclosed)).1]
      rcases n.scanned_iff.mp hi with rfl | hi
      · refine (m.closed_le j' hclosed).trans ?_
        rw [m.current g.fresh]
        have hne : t.i ≠ curRow := fun he => by
          have hnone := m.first (he ▸ g.fresh) j'
          rw [hclosed] at hnone
          cases hnone
        obtain ⟨j'', hj'', -⟩ := g.current.resolve_left hne
        exact le_pathCost hp.dual ((hs.row t.i).mp ⟨j'', hj''⟩) _ j'
      · exact m.offers i j' hi
  exact i j' hpath hlabel := by
    obtain ⟨i', hpath', hscanned, -⟩ := (g.grown_next n).labelled j' hlabel
    obtain rfl : i' = i := Option.some.inj (hpath'.symm.trans hpath)
    rw [hdepth i' hscanned]
    cases hclosed : t.SC j' with
    | false =>
      have hopen := (g.open_iff j').mpr hclosed
      rw [n.relaxed j' hopen] at hlabel ⊢
      rw [n.path j' hopen] at hpath
      split at hpath
      · next hlt =>
        obtain rfl : t.i = i' := Option.some.inj hpath
        rw [min_eq_right hlt.le, m.current g.fresh]
      · next hlt =>
        rw [min_eq_left (not_lt.mp hlt)] at hlabel ⊢
        exact m.exact i' j' hpath hlabel
    | true =>
      obtain ⟨hlabel', hpath'⟩ := n.other j' (g.not_open hclosed)
      rw [hlabel'] at hlabel ⊢
      exact m.exact i' j' (hpath' ▸ hpath) hlabel
  closed_le j' hj' := by
    rcases n.closed_iff.mp hj' with rfl | hj'
    · exact n.reached.le
    · rw [(n.other j' (g.not_open hj')).1]
      refine (m.closed_le j' hj').trans (m.mono g hs hp n ?_)
      refine Bool.not_eq_false _ ▸ fun hfalse => ?_
      rw [m.first hfalse j'] at hj'
      cases hj'
  le_open j' hj' := by
    have hopen : t.SC j' = false := Bool.eq_false_iff.mpr fun h => by simp [n.closed_iff.mpr (.inr h)] at hj'
    exact n.lowest j' ((g.open_iff j').mpr hopen)

/-- The search keeps distances, with those of the rows it goes on from. -/
theorem Measured.exists_next {depth : Fin nr → α} (m : Measured cost s curRow depth t) (g : Searching cost s curRow t)
    (hs : Matched cost s assigned) (hcur : ¬assigned curRow) (hp : Priced cost assigned s) (n : Next cost s t j t') :
    ∃ depth', Measured cost s curRow depth' t' := by
  cases hj : s.row4col j with
  | none =>
    have hi : t'.i = t.i := by rw [n.row, hj, Option.getD_none]
    refine ⟨depth, m.next g hs hp n (fun _ _ => rfl) fun hfresh => ?_⟩
    rw [hi, n.scanned_iff.mpr (.inl rfl)] at hfresh
    cases hfresh
  | some i =>
    have hfresh := (g.again hs hcur n hj).fresh
    refine ⟨Function.update depth t'.i t'.minVal, m.next g hs hp n (fun i' hi' => ?_) fun _ => ⟨Function.update_self .., ?_⟩⟩
    · refine Function.update_of_ne (fun he => ?_) ..
      rw [he, hfresh] at hi'
      cases hi'
    · rw [n.row, hj, Option.getD_some]
      exact (hs.pair i j).mp hj

/-! ### Prices from row to row -/

/-- The label of a column that has one. -/
def label (t : Search nr nc α) (j : Fin nc) : α := (t.shortestPathCosts j).untopD 0

omit [LinearOrder α] [IsOrderedAddMonoid α] in
theorem Grown.label_eq (g : Grown cost s curRow t) {j : Fin nc} (hj : t.SC j = true) :
    t.shortestPathCosts j = (label t j : α) := by
  obtain ⟨c, hc⟩ := WithTop.ne_top_iff_exists.mp (g.closed j hj)
  rw [label, ← hc, WithTop.untopD_coe]

omit [LinearOrder α] [IsOrderedAddMonoid α] in
/-- What a row offers a column, as a cost. -/
theorem pathCost_eq_coe {d e : α} {i : Fin nr} {j : Fin nc} (h : pathCost cost s d i j = (e : α)) :
    cost i j = ((e - d + (s.u i + s.v j) : α) : WithTop α) := by
  unfold pathCost at h
  cases hc : cost i j with
  | top =>
    rw [hc] at h
    cases h
  | coe c =>
    rw [hc, WithTop.map_coe, WithTop.coe_inj] at h
    rw [← h, WithTop.coe_inj]
    abel

theorem le_cost_of_le_pathCost {d e : α} {i : Fin nr} {j : Fin nc} (h : (e : WithTop α) ≤ pathCost cost s d i j) :
    ((e - d + (s.u i + s.v j) : α) : WithTop α) ≤ cost i j := by
  unfold pathCost at h
  cases hc : cost i j with
  | top => exact le_top
  | coe c =>
    rw [hc, WithTop.map_coe, WithTop.coe_le_coe] at h
    refine WithTop.coe_le_coe.mpr ?_
    calc e - d + (s.u i + s.v j) ≤ (d + c - s.u i - s.v j) - d + (s.u i + s.v j) :=
          add_le_add_left (sub_le_sub_right h d) _
      _ = c := by abel

/-- A search that has ended leaves labels that prices may be moved by. -/
theorem Measured.reached {depth : Fin nr → α} (m : Measured cost s curRow depth t) (e : Ended cost s curRow sink t) :
    Duality.Reached cost s.u s.v (fun i => t.SR i = true) (fun j => t.SC j = true) depth (label t) t.minVal where
  column_le j hj := WithTop.coe_le_coe.mp (e.label_eq hj ▸ m.closed_le j hj)
  inner i j hi hj := le_cost_of_le_pathCost (e.label_eq hj ▸ m.offers i j hi)
  outer i j hi hj := le_cost_of_le_pathCost ((m.le_open j (Bool.eq_false_iff.mpr hj)).trans (m.offers i j hi))

omit [IsOrderedAddMonoid α] in
theorem Measured.adjusted {depth : Fin nr → α} (m : Measured cost s curRow depth t) (e : Ended cost s curRow sink t)
    (a : Augmented s curRow sink t s') :
    Duality.Adjusted s.u s'.u s.v s'.v (fun i => t.SR i = true) (fun j => t.SC j = true) depth (label t) t.minVal where
  row i hi := by
    by_cases he : i = curRow
    · rw [he, a.current, m.root, sub_zero]
    · obtain ⟨j, hj, -⟩ := (e.row i hi).resolve_left he
      exact a.raised i j (depth i) hi he hj (m.depth_eq i j he (.inl hi) hj)
  otherRow i hi := a.otherRow i (Bool.eq_false_iff.mpr hi) fun he => hi (he ▸ e.root)
  column j hj := a.lowered j (label t j) hj (e.label_eq hj)
  otherColumn j hj := a.otherColumn j (Bool.eq_false_iff.mpr hj)

/-- With the row that was added the prices are prices again. -/
theorem Priced.augmented {depth : Fin nr → α} (hp : Priced cost assigned s) (hs : Matched cost s assigned)
    (hcur : ¬assigned curRow) (e : Ended cost s curRow sink t) (m : Measured cost s curRow depth t)
    (a : Augmented s curRow sink t s') : Priced cost (fun i => i = curRow ∨ assigned i) s' where
  dual := hp.dual.adjust (m.reached e) (m.adjusted e a) fun i hi => by
    cases hi with
    | inl he => exact .inl (he ▸ e.root)
    | inr hi => exact .inr hi
  tight i j hpair := by
    rcases a.turned.pairs i j hpair with hold | ⟨hclosed, hpath⟩
    · have hne : i ≠ curRow := fun he => hcur ((hs.row curRow).mp ⟨j, he ▸ hold⟩)
      refine (m.adjusted e a).stays_tight ⟨fun hi => ?_, fun hj => ?_⟩ (fun hi => ?_) (hp.tight i j hold)
      · obtain ⟨j', hj', hclosed⟩ := (e.row i hi).resolve_left hne
        exact Option.some.inj (hj'.symm.trans hold) ▸ hclosed
      · rcases e.column j hj with rfl | ⟨i', hrow, hi'⟩
        · have hrow := (hs.pair i j).mpr hold
          rw [e.free.2.1] at hrow
          cases hrow
        · exact Option.some.inj (((hs.pair i j).mpr hold).symm.trans hrow) ▸ hi'
      · have hlabel := m.depth_eq i j hne (.inl hi) hold
        obtain ⟨j', hj', hclosed⟩ := (e.row i hi).resolve_left hne
        obtain rfl : j' = j := Option.some.inj (hj'.symm.trans hold)
        exact WithTop.coe_inj.mp ((e.label_eq hclosed).symm.trans hlabel)
    · obtain ⟨i', hpath', hscanned, -⟩ := e.labelled j (e.closed j hclosed)
      obtain rfl : i' = i := Option.some.inj (hpath'.symm.trans hpath)
      refine (m.adjusted e a).tight hscanned hclosed (pathCost_eq_coe ?_)
      rw [← m.exact i' j hpath (e.closed j hclosed), e.label_eq hclosed]
  free j hj := by
    have hnot : ∀ i, s.row4col j ≠ some i := fun i hi => by
      obtain ⟨i', hi'⟩ := a.turned.column j (.inr ⟨i, hi⟩)
      cases hj.symm.trans hi'
    have hopen : t.SC j = false := Bool.eq_false_iff.mpr fun hclosed => by
      rcases e.column j hclosed with rfl | ⟨i, hi, -⟩
      · obtain ⟨i', hi'⟩ := a.turned.column j (.inl rfl)
        cases hj.symm.trans hi'
      · exact hnot i hi
    rw [a.otherColumn j hopen]
    refine hp.free j ?_
    cases hrow : s.row4col j with
    | none => rfl
    | some i => exact absurd hrow (hnot i)

/-- Prices are kept from row to row, by searches that measure distances. -/
theorem priced_kept (cost : Fin nr → Fin nc → WithTop α) :
    Kept cost (Priced cost) fun s curRow t => ∃ depth, Measured cost s curRow depth t where
  start _ s curRow _ := ⟨_, Measured.start s curRow⟩
  next _ _ _ _ _ _ hs hcur hp g hm n := by
    obtain ⟨_, m⟩ := hm
    exact m.exists_next g hs hcur hp n
  augmented _ _ _ _ _ _ hs hcur hp e hm a := by
    obtain ⟨_, m⟩ := hm
    exact hp.augmented hs hcur e m a

end

/-! ### The whole matrix -/

section
variable [Zero α] [Add α] [Sub α] [LinearOrder α] {I : (Fin nr → Prop) → Solution nr nc α → Prop}
  {Q : Solution nr nc α → Fin nr → Search nr nc α → Prop}

omit [Add α] [Sub α] [LinearOrder α] in
theorem Solution.start_matched (cost : Fin nr → Fin nc → WithTop α) : Matched cost (Solution.start nr nc) fun _ => False where
  pair i j := by simp [Solution.start]
  row i := by simp [Solution.start]
  finite i j h := by simp [Solution.start] at h

/-- What comes out of a matrix that is not tall. -/
structure Outcomes (cost : Fin nr → Fin nc → Entry α) (I : (Fin nr → Prop) → Solution nr nc α → Prop)
    (r : Return (Fin nr → Fin nc)) : Prop where
  invalid : r = .invalid ↔ ∃ i j, (cost i j).rejected = true
  infeasible : r = .infeasible ↔ (¬∃ i j, (cost i j).rejected = true) ∧
    ∀ b : Fin nr → Fin nc, Function.Injective b → ∃ i, (cost i (b i)).cost = ⊤
  done : ∀ a, r = .done a → Function.Injective a ∧ (∀ i, (cost i (a i)).cost ≠ ⊤) ∧
    ∃ s, I (fun _ => True) s ∧ (∀ i j, s.row4col j = some i ↔ s.col4row i = some j) ∧ ∀ i, s.col4row i = some (a i)

theorem solveWide_sound (cost : Fin nr → Fin nc → Entry α) (k : Kept (fun i j => (cost i j).cost) I Q)
    (hI : I (fun _ => False) (Solution.start nr nc)) : ∃ r, solveWide cost = .ok r ∧ Outcomes cost I r := by
  unfold solveWide
  by_cases hrejected : ∃ i j, (cost i j).rejected = true
  · rw [if_pos hrejected]
    exact ⟨.invalid, rfl, iff_of_true rfl hrejected, iff_of_false (by simp) fun h => h.1 hrejected, by simp⟩
  · rw [if_neg hrejected]
    rcases addRows_sound k (List.finRange nr) (Solution.start_matched _) hI (List.nodup_finRange nr) (fun _ _ h => h) with
      ⟨hrows, hnone⟩ | ⟨s, assigned, hrows, hs, hI', hall⟩
    · refine ⟨.infeasible, ?_, iff_of_false (by simp) hrejected, iff_of_true rfl ⟨hrejected, hnone⟩, by simp⟩
      rw [hrows]
      rfl
    · obtain rfl : assigned = fun _ => True := by
        funext i
        exact eq_true ((hall i).mpr (.inl (List.mem_finRange i)))
      have hsome : ∀ i, (s.col4row i).isSome := fun i => Option.isSome_iff_exists.mpr ((hs.row i).mpr trivial)
      have hcol : ∀ i, s.col4row i = some ((s.col4row i).get (hsome i)) := fun i => (Option.some_get _).symm
      have hinjective : Function.Injective fun i => (s.col4row i).get (hsome i) := fun i i' he => by
        have hrow := (hs.pair i _).mpr (hcol i)
        dsimp only at he
        rw [he, (hs.pair i' _).mpr (hcol i')] at hrow
        exact (Option.some.inj hrow).symm
      refine ⟨.done fun i => (s.col4row i).get (hsome i), ?_, iff_of_false (by simp) hrejected,
        iff_of_false (by simp) fun h => ?_, fun a ha => ?_⟩
      · simp only [hrows, bind, Except.bind, columns, dif_pos hsome]
        rfl
      · obtain ⟨i, hi⟩ := h.2 _ hinjective
        exact hs.finite i _ (hcol i) hi
      · obtain rfl := Return.done.inj ha
        exact ⟨hinjective, fun i => hs.finite i _ (hcol i), s, hI', hs.pair, hcol⟩

end

/-! ### Pairs -/

/-- As many pairs as there can be, no two in a row or a column. -/
structure Assignment (pairs : List (Fin nr × Fin nc)) : Prop where
  rows : (pairs.map Prod.fst).Nodup
  columns : (pairs.map Prod.snd).Nodup
  full : pairs.length = min nr nc

theorem Assignment.swap {pairs : List (Fin nr × Fin nc)} (h : Assignment pairs) : Assignment (pairs.map Prod.swap) where
  rows := by
    rw [List.map_map]
    exact h.columns
  columns := by
    rw [List.map_map]
    exact h.rows
  full := by rw [List.length_map, h.full, Nat.min_comm]

/-- Where there are enough columns, an assignment is a column for every row. -/
theorem Assignment.exists_columns {pairs : List (Fin nr × Fin nc)} (h : Assignment pairs) (hle : nr ≤ nc) :
    ∃ b : Fin nr → Fin nc, Function.Injective b ∧ pairs.Perm ((List.finRange nr).map fun i => (i, b i)) := by
  have huniv : (pairs.map Prod.fst).toFinset = Finset.univ := by
    refine Finset.eq_univ_of_card _ ?_
    rw [List.toFinset_card_of_nodup h.rows, List.length_map, h.full, Nat.min_eq_left hle, Fintype.card_fin]
  have hall : ∀ i, ∃ j, (i, j) ∈ pairs := fun i => by
    obtain ⟨p, hp, rfl⟩ := List.mem_map.mp (List.mem_toFinset.mp (huniv ▸ Finset.mem_univ i))
    exact ⟨p.2, hp⟩
  choose b hb using hall
  refine ⟨b, fun i i' he => ?_, ?_⟩
  · exact congrArg Prod.fst (List.inj_on_of_nodup_map h.columns (hb i) (hb i') he)
  · have hnodup : ((List.finRange nr).map fun i => (i, b i)).Nodup :=
      (List.nodup_finRange nr).map fun i i' he => congrArg Prod.fst he
    refine (List.perm_ext_iff_of_nodup h.rows.of_map hnodup).mpr fun p => ⟨fun hp => ?_, fun hp => ?_⟩
    · refine List.mem_map.mpr ⟨p.1, List.mem_finRange p.1, ?_⟩
      exact List.inj_on_of_nodup_map h.rows (hb p.1) hp rfl
    · obtain ⟨i, -, rfl⟩ := List.mem_map.mp hp
      exact hb i

/-- A column for every row. -/
theorem assignment_wide {a : Fin nr → Fin nc} (ha : Function.Injective a) (hle : nr ≤ nc) :
    Assignment ((List.finRange nr).map fun i => (i, a i)) where
  rows := by simpa [List.map_map, Function.comp_def] using List.nodup_finRange nr
  columns := by
    rw [List.map_map]
    exact (List.nodup_finRange nr).map ha
  full := by simp [hle]

theorem argsortIter_perm (rows : Fin nr → Fin nc) : (argsortIter rows).Perm (List.finRange nr) := List.perm_insertionSort _ _

theorem argsortIter_sorted {rows : Fin nr → Fin nc} (h : Function.Injective rows) :
    ((argsortIter rows).map rows).Pairwise (· < ·) := by
  have : Std.Total fun i j : Fin nr => rows i ≤ rows j := ⟨fun _ _ => le_total _ _⟩
  have : IsTrans (Fin nr) fun i j => rows i ≤ rows j := ⟨fun _ _ _ => le_trans⟩
  have hsorted : (argsortIter rows).Pairwise fun i j => rows i ≤ rows j := List.pairwise_insertionSort _ _
  have hnodup : (argsortIter rows).Nodup := (argsortIter_perm rows).nodup_iff.mpr (List.nodup_finRange nr)
  rw [List.pairwise_map]
  exact (hsorted.and hnodup).imp fun hij => lt_of_le_of_ne hij.1 fun he => hij.2 (h he)

/-- A row for every column, written in the order of the rows. -/
theorem assignment_tall {a : Fin nc → Fin nr} (ha : Function.Injective a) (hle : nc ≤ nr) :
    Assignment ((argsortIter a).map fun j => (a j, j)) where
  rows := by
    rw [List.map_map]
    exact ((argsortIter_perm a).nodup_iff.mpr (List.nodup_finRange nc)).map ha
  columns := by
    rw [List.map_map]
    simpa [Function.comp_def] using (argsortIter_perm a).nodup_iff.mpr (List.nodup_finRange nc)
  full := by simp [(argsortIter_perm a).length_eq, hle]

/-! ### What is returned -/

/-- What `solve` tells apart: matrices that are invalid, those without an assignment of finite cost, and the others, for
which it returns one in the order of the rows. -/
structure Returned (cost : Fin nr → Fin nc → Entry α) (r : Return (List (Fin nr × Fin nc))) : Prop where
  invalid : r = .invalid ↔ ∃ i j, (cost i j).rejected = true
  infeasible : r = .infeasible ↔ (¬∃ i j, (cost i j).rejected = true) ∧
    ∀ pairs : List (Fin nr × Fin nc), Assignment pairs → ∃ p ∈ pairs, (cost p.1 p.2).cost = ⊤
  done : ∀ pairs, r = .done pairs → Assignment pairs ∧ (pairs.map Prod.fst).Pairwise (· < ·) ∧
    ∀ p ∈ pairs, (cost p.1 p.2).cost ≠ ⊤

theorem Return.map_eq_done {β γ : Type} {f : β → γ} {r : Return β} {c : γ} (h : r.map f = .done c) :
    ∃ b, r = .done b ∧ f b = c := by
  cases r with
  | done b => exact ⟨b, rfl, Return.done.inj h⟩
  | infeasible => cases h
  | invalid => cases h

theorem Return.map_eq_infeasible {β γ : Type} {f : β → γ} {r : Return β} : r.map f = .infeasible ↔ r = .infeasible := by
  cases r <;> simp [Return.map]

theorem Return.map_eq_invalid {β γ : Type} {f : β → γ} {r : Return β} : r.map f = .invalid ↔ r = .invalid := by
  cases r <;> simp [Return.map]

section
variable [Zero α] [Add α] [Sub α] [LinearOrder α] {cost : Fin nr → Fin nc → Entry α}

omit [Zero α] [Add α] [Sub α] [LinearOrder α] in
/-- An empty matrix has the empty assignment. -/
theorem returned_empty (h : nr = 0 ∨ nc = 0) : Returned cost (.done []) := by
  have hnone : ¬∃ i j, (cost i j).rejected = true := by
    rintro ⟨i, j, -⟩
    have := i.isLt
    have := j.isLt
    omega
  have hassignment : Assignment ([] : List (Fin nr × Fin nc)) := ⟨by simp, by simp, by simp; omega⟩
  refine ⟨iff_of_false (by simp) hnone, iff_of_false (by simp) fun h' => ?_, fun pairs he => ?_⟩
  · obtain ⟨_, hp, -⟩ := h'.2 [] hassignment
    cases hp
  · obtain rfl := Return.done.inj he
    exact ⟨hassignment, by simp, by simp⟩

omit [Zero α] [Add α] [Sub α] [LinearOrder α] in
theorem Outcomes.wide {I : (Fin nr → Prop) → Solution nr nc α → Prop} {r : Return (Fin nr → Fin nc)} (h : Outcomes cost I r)
    (hle : nr ≤ nc) : Returned cost (r.map fun cols => (List.finRange nr).map fun i => (i, cols i)) where
  invalid := Return.map_eq_invalid.trans h.invalid
  infeasible := by
    rw [Return.map_eq_infeasible, h.infeasible]
    refine and_congr_right fun _ => ⟨fun hall pairs hpairs => ?_, fun hall b hb => ?_⟩
    · obtain ⟨b, hb, hperm⟩ := hpairs.exists_columns hle
      obtain ⟨i, hi⟩ := hall b hb
      exact ⟨(i, b i), hperm.mem_iff.mpr (List.mem_map.mpr ⟨i, List.mem_finRange i, rfl⟩), hi⟩
    · obtain ⟨p, hp, hcost⟩ := hall _ (assignment_wide hb hle)
      obtain ⟨i, -, rfl⟩ := List.mem_map.mp hp
      exact ⟨i, hcost⟩
  done pairs hr := by
    obtain ⟨a, ha, rfl⟩ := Return.map_eq_done hr
    obtain ⟨hinjective, hfinite, -⟩ := h.done a ha
    refine ⟨assignment_wide hinjective hle, ?_, fun p hp => ?_⟩
    · simpa [List.map_map, Function.comp_def] using List.pairwise_lt_finRange nr
    · obtain ⟨i, -, rfl⟩ := List.mem_map.mp hp
      exact hfinite i

omit [Zero α] [Add α] [Sub α] [LinearOrder α] in
theorem Outcomes.tall {I : (Fin nc → Prop) → Solution nc nr α → Prop} {r : Return (Fin nc → Fin nr)}
    (h : Outcomes (fun j i => cost i j) I r) (hle : nc ≤ nr) :
    Returned cost (r.map fun rows => (argsortIter rows).map fun v => (rows v, v)) where
  invalid := Return.map_eq_invalid.trans (h.invalid.trans exists_comm)
  infeasible := by
    rw [Return.map_eq_infeasible, h.infeasible, exists_comm]
    refine and_congr_right fun _ => ⟨fun hall pairs hpairs => ?_, fun hall b hb => ?_⟩
    · obtain ⟨b, hb, hperm⟩ := hpairs.swap.exists_columns hle
      obtain ⟨j, hj⟩ := hall b hb
      obtain ⟨p, hp, he⟩ := List.mem_map.mp (hperm.mem_iff.mpr (List.mem_map.mpr ⟨j, List.mem_finRange j, rfl⟩))
      refine ⟨p, hp, ?_⟩
      obtain rfl : p = (b j, j) := by rw [← Prod.swap_swap p, he]; rfl
      exact hj
    · obtain ⟨p, hp, hcost⟩ := hall _ (assignment_tall hb hle)
      obtain ⟨j, -, rfl⟩ := List.mem_map.mp hp
      exact ⟨j, hcost⟩
  done pairs hr := by
    obtain ⟨a, ha, rfl⟩ := Return.map_eq_done hr
    obtain ⟨hinjective, hfinite, -⟩ := h.done a ha
    refine ⟨assignment_tall hinjective hle, ?_, fun p hp => ?_⟩
    · rw [List.map_map]
      exact argsortIter_sorted hinjective
    · obtain ⟨j, -, rfl⟩ := List.mem_map.mp hp
      exact hfinite j

variable [Neg α] {maximize : Bool}

theorem solve_eq_wide (hne : ¬(nr = 0 ∨ nc = 0)) (hle : nr ≤ nc) {r : Return (Fin nr → Fin nc)}
    (h : solveWide (signed maximize cost) = .ok r) :
    solve cost maximize = .ok (r.map fun cols => (List.finRange nr).map fun i => (i, cols i)) := by
  rw [solve, if_neg hne, if_neg (by omega), h]
  rfl

theorem solve_eq_tall (hne : ¬(nr = 0 ∨ nc = 0)) (hlt : nc < nr) {r : Return (Fin nc → Fin nr)}
    (h : solveWide (fun j i => signed maximize cost i j) = .ok r) :
    solve cost maximize = .ok (r.map fun rows => (argsortIter rows).map fun v => (rows v, v)) := by
  rw [solve, if_neg hne, if_pos hlt, h]
  rfl

omit [Neg α] in
/-- Nothing is asked of the arithmetic. -/
theorem nothing_kept (cost : Fin nr → Fin nc → WithTop α) : Kept cost (fun _ _ => True) fun _ _ _ => True :=
  ⟨fun _ _ _ _ => trivial, fun _ _ _ _ _ _ _ _ _ _ _ _ => trivial, fun _ _ _ _ _ _ _ _ _ _ _ _ => trivial⟩

end

/-! ### What is cheapest -/

section
variable [AddCommGroup α] [LinearOrder α] [IsOrderedAddMonoid α]

/-- What the pairs cost together. -/
def pairsCost (cost : Fin nr → Fin nc → Entry α) (pairs : List (Fin nr × Fin nc)) : WithTop α :=
  (pairs.map fun p => (cost p.1 p.2).cost).sum

omit [LinearOrder α] [IsOrderedAddMonoid α] in
theorem pairsCost_wide (cost : Fin nr → Fin nc → Entry α) {a : Fin nr → Fin nc} {pairs : List (Fin nr × Fin nc)}
    (h : pairs.Perm ((List.finRange nr).map fun i => (i, a i))) :
    pairsCost cost pairs = Duality.total (fun i j => (cost i j).cost) a := by
  rw [pairsCost, (h.map _).sum_eq, List.map_map, Duality.total, Fin.sum_univ_def]
  rfl

omit [LinearOrder α] [IsOrderedAddMonoid α] in
theorem pairsCost_swap (cost : Fin nr → Fin nc → Entry α) (pairs : List (Fin nr × Fin nc)) :
    pairsCost (fun j i => cost i j) (pairs.map Prod.swap) = pairsCost cost pairs := by
  rw [pairsCost, pairsCost, List.map_map]
  rfl

omit [IsOrderedAddMonoid α] in
theorem Priced.start (cost : Fin nr → Fin nc → WithTop α) : Priced cost (fun _ => False) (Solution.start nr nc) where
  dual := ⟨fun _ h => h.elim, fun _ => le_rfl⟩
  tight i j h := by simp [Solution.start] at h
  free j _ := rfl

/-- A matrix that is not tall is solved at least cost. -/
theorem solveWide_optimal {cost : Fin nr → Fin nc → Entry α} {a b : Fin nr → Fin nc} (h : solveWide cost = .ok (.done a))
    (hb : Function.Injective b) :
    Duality.total (fun i j => (cost i j).cost) a ≤ Duality.total (fun i j => (cost i j).cost) b := by
  obtain ⟨r, hr, houtcomes⟩ := solveWide_sound cost (priced_kept _) (Priced.start _)
  obtain rfl : r = .done a := Except.ok.inj (hr.symm.trans h)
  obtain ⟨hinjective, -, s, hpriced, hpair, hcol⟩ := houtcomes.done a rfl
  refine hpriced.dual.total_le hinjective hb (fun i => hpriced.tight i (a i) (hcol i)) fun j hj => hpriced.free j ?_
  cases hrow : s.row4col j with
  | none => rfl
  | some i => exact absurd (Option.some.inj ((hcol i).symm.trans ((hpair i j).mp hrow))) (hj i)

/-- Where costs add up exactly no assignment costs less than the one that is returned. -/
theorem solve_optimal {cost : Fin nr → Fin nc → Entry α} {maximize : Bool} {pairs : List (Fin nr × Fin nc)}
    (h : solve cost maximize = .ok (.done pairs)) {others : List (Fin nr × Fin nc)} (hothers : Assignment others) :
    pairsCost (signed maximize cost) pairs ≤ pairsCost (signed maximize cost) others := by
  by_cases hne : nr = 0 ∨ nc = 0
  · rw [solve, if_pos hne] at h
    cases h
    obtain rfl : others = [] := List.length_eq_zero_iff.mp (by rw [hothers.full]; omega)
    exact le_rfl
  · rcases Nat.lt_or_ge nc nr with hlt | hle
    · obtain ⟨r, hr, -⟩ := solveWide_sound (fun j i => signed maximize cost i j) (nothing_kept _) trivial
      rw [solve_eq_tall hne hlt hr] at h
      obtain ⟨a, rfl, rfl⟩ := Return.map_eq_done (Except.ok.inj h)
      obtain ⟨b, hb, hperm⟩ := hothers.swap.exists_columns hlt.le
      rw [← pairsCost_swap, ← pairsCost_swap _ others, pairsCost_wide _ hperm, pairsCost_wide (a := a)]
      · exact solveWide_optimal hr hb
      · rw [List.map_map]
        exact (argsortIter_perm a).map _
    · obtain ⟨r, hr, -⟩ := solveWide_sound (signed maximize cost) (nothing_kept _) trivial
      rw [solve_eq_wide hne hle hr] at h
      obtain ⟨a, rfl, rfl⟩ := Return.map_eq_done (Except.ok.inj h)
      obtain ⟨b, hb, hperm⟩ := hothers.exists_columns hle
      rw [pairsCost_wide _ hperm, pairsCost_wide _ (List.Perm.refl _)]
      exact solveWide_optimal hr hb

end

/-- Three rows and four columns, of which two are out of reach for the first row. -/
def threeByFour (i : Fin 3) (j : Fin 4) : Entry ℤ :=
  if i = 0 then (if j = 0 then .finite 1 else if j = 1 then .finite 2 else .infinity)
  else if i = 1 then (if j = 0 then .finite 1 else if j = 1 then .finite 4 else .finite 9)
  else (if j = 0 then .finite 3 else .finite 5)

/-- All three rows want the first column. -/
theorem threeByFour_optimal : solve threeByFour false = .ok (.done [(0, 1), (1, 0), (2, 2)]) ∧
    pairsCost threeByFour [(0, 1), (1, 0), (2, 2)] ≤ pairsCost threeByFour [(0, 0), (1, 1), (2, 3)] := by
  have hsolve : solve threeByFour false = .ok (.done [(0, 1), (1, 0), (2, 2)]) := by rfl
  exact ⟨hsolve, solve_optimal hsolve ⟨by decide, by decide, by decide⟩⟩

/-! ### The solvers of the matcher -/

open GreedySolver (SortedPairs matrix total)

section
variable {n : Nat}

/-- `+` of doubles. -/
def Entry.add [Add α] : Entry α → Entry α → Entry α
  | nan, _ | _, nan | infinity, negInfinity | negInfinity, infinity => nan
  | infinity, _ | _, infinity => infinity
  | negInfinity, _ | _, negInfinity => negInfinity
  | finite a, finite b => finite (a + b)

/-- `assignment[row] = col`. -/
def writeAssignment (pairs : List (Fin n × Fin n)) : List Nat :=
  pairs.foldl (fun assignment p => assignment.set p.1 p.2) (List.replicate n 0)

def writeTotal [Zero α] [Add α] (cost : Fin n → Fin n → Entry α) (pairs : List (Fin n × Fin n)) : Entry α :=
  pairs.foldl (fun (sum : Entry α) p => sum.add (cost p.1 p.2)) (.finite 0)

def solveJv [Zero α] [Add α] [Sub α] [Neg α] [LinearOrder α] (cost : List (Entry α)) (n : Nat) :
    Outcome (GreedySolver.LapResult (Entry α)) :=
  if n = 0 then .ok ⟨[], .finite 0, false, 0⟩
  else if h : cost.length = n * n then do
    match ← solve (matrix cost n h) false with
    | .infeasible => sfsErr .internal "LAP solver: infeasible cost matrix" ""
    | .invalid => sfsErr .internal "LAP solver: invalid cost matrix" ""
    | .done pairs => return ⟨writeAssignment pairs, writeTotal (matrix cost n h) pairs, true, 0⟩
  else sfsErr .internal "cost matrix size does not match n*n" (toString cost.length)

/-- Costs that are numbers, as the greedy solver takes them. -/
def autoSolve [AddCommGroup α] [LinearOrder α] (sort : ∀ {n : Nat} (cost : Fin n → Fin n → α), SortedPairs cost)
    (maxPasses crossover : Nat) (cost : List α) (n : Nat) : Outcome (GreedySolver.LapResult (Entry α)) :=
  if n < crossover then solveJv (cost.map .finite) n
  else do
    let lap ← GreedySolver.solve sort maxPasses cost n
    return ⟨lap.assignment, .finite lap.costRaw, lap.exact, lap.iterations⟩

theorem foldl_set (l : List (Fin n)) (a : Fin n → Fin n) : ∀ out : List Nat, out.length = n → l.Nodup →
    ∀ i : Fin n, (l.foldl (fun out i => out.set i (a i)) out)[(i : Nat)]? = if i ∈ l then some (a i : Nat) else out[(i : Nat)]? := by
  induction l with
  | nil => simp
  | cons k rest ih =>
    intro out hlen hnodup i
    obtain ⟨hk, hrest⟩ := List.nodup_cons.mp hnodup
    rw [List.foldl_cons, ih _ (by simpa using hlen) hrest i]
    by_cases hi : i ∈ rest
    · rw [if_pos hi, if_pos (List.mem_cons_of_mem _ hi)]
    · rw [if_neg hi]
      by_cases he : i = k
      · rw [if_pos (he ▸ List.mem_cons_self), he, List.getElem?_set_self (by rw [hlen]; exact k.isLt)]
      · rw [if_neg (by simp [he, hi]), List.getElem?_set_ne fun hv => he (Fin.ext hv.symm)]

theorem foldl_set_length (l : List (Fin n)) (a : Fin n → Fin n) : ∀ out : List Nat,
    (l.foldl (fun out i => out.set i (a i)) out).length = out.length := by
  induction l with
  | nil => exact fun _ => rfl
  | cons k rest ih => exact fun out => by rw [List.foldl_cons, ih, List.length_set]

theorem writeAssignment_eq (a : Fin n → Fin n) :
    writeAssignment ((List.finRange n).map fun i => (i, a i)) = (List.finRange n).map fun i => (a i).val := by
  rw [writeAssignment, List.foldl_map]
  refine List.ext_getElem? fun k => ?_
  by_cases hk : k < n
  · rw [foldl_set (List.finRange n) a (List.replicate n 0) (by simp) (List.nodup_finRange n) ⟨k, hk⟩]
    simp [hk]
  · rw [List.getElem?_eq_none (by rw [foldl_set_length]; simpa using hk), List.getElem?_eq_none (by simpa using hk)]

/-- The total of a choice of finite costs. -/
theorem writeTotal_eq [AddCommMonoid α] (cost : Fin n → Fin n → α) (a : Fin n → Fin n) :
    writeTotal (fun i j => .finite (cost i j)) ((List.finRange n).map fun i => (i, a i)) = .finite (total cost a) := by
  have hfold : ∀ (l : List (Fin n)) (c : α), l.foldl (fun (sum : Entry α) i => sum.add (.finite (cost i (a i)))) (.finite c) =
      .finite (c + (l.map fun i => cost i (a i)).sum) := by
    intro l
    induction l with
    | nil => exact fun c => by simp
    | cons i rest ih => exact fun c => by rw [List.foldl_cons, Entry.add, ih, List.map_cons, List.sum_cons, add_assoc]
  rw [writeTotal, List.foldl_map, hfold, zero_add, total, Fin.sum_univ_def]

variable [AddCommGroup α] [LinearOrder α] [IsOrderedAddMonoid α]

omit [AddCommGroup α] [LinearOrder α] [IsOrderedAddMonoid α] in
theorem matrix_finite (cost : List α) (h : cost.length = n * n) (h' : (cost.map Entry.finite).length = n * n) :
    matrix (cost.map Entry.finite) n h' = fun i j => Entry.finite (matrix cost n h i j) := by
  funext i j
  simp [matrix]

/-- On a square matrix of numbers the solver returns the cheapest permutation. -/
theorem solve_finite (cost : Fin n → Fin n → α) (hn : n ≠ 0) : ∃ a : Fin n → Fin n,
    solve (fun i j => .finite (cost i j)) false = .ok (.done ((List.finRange n).map fun i => (i, a i))) ∧
      Function.Bijective a ∧ ∀ b, Function.Bijective b → total cost a ≤ total cost b := by
  obtain ⟨r, hr, houtcomes⟩ := solveWide_sound (fun i j => Entry.finite (cost i j)) (nothing_kept _) trivial
  have htotal : ∀ b : Fin n → Fin n, Duality.total (fun i j => (Entry.finite (cost i j)).cost) b =
      (total cost b : α) := fun b => by
    simp only [Entry.cost, Duality.total, total, ← WithTop.coe_sum]
  cases r with
  | invalid =>
    obtain ⟨i, j, hrejected⟩ := houtcomes.invalid.mp rfl
    cases hrejected
  | infeasible =>
    obtain ⟨i, hi⟩ := (houtcomes.infeasible.mp rfl).2 id Function.injective_id
    cases hi
  | done a =>
    refine ⟨a, @solve_eq_wide _ _ _ _ _ _ _ _ _ false (by omega) le_rfl _ hr,
      Finite.injective_iff_bijective.mp (houtcomes.done a rfl).1, fun b hb => ?_⟩
    have hle := solveWide_optimal hr hb.injective
    rw [htotal a, htotal b] at hle
    exact WithTop.coe_le_coe.mp hle

theorem solveJv_finite (cost : List α) (hn : n ≠ 0) (h : cost.length = n * n) : ∃ a : Fin n → Fin n,
    solveJv (cost.map .finite) n = .ok ⟨(List.finRange n).map fun i => (a i).val, .finite (total (matrix cost n h) a), true, 0⟩ ∧
      Function.Bijective a ∧ ∀ b, Function.Bijective b → total (matrix cost n h) a ≤ total (matrix cost n h) b := by
  have h' : (cost.map Entry.finite).length = n * n := by rw [List.length_map, h]
  obtain ⟨a, hsolve, hbijective, hbest⟩ := solve_finite (matrix cost n h) hn
  refine ⟨a, ?_, hbijective, hbest⟩
  rw [solveJv, if_neg hn, dif_pos h', matrix_finite cost h h', hsolve]
  simp only [bind, Except.bind, writeAssignment_eq, writeTotal_eq]
  rfl

/-- The greedy solver returns a permutation at its cost, and does not say that it is exact. -/
theorem greedy_permutes (sort : ∀ {n : Nat} (cost : Fin n → Fin n → α), SortedPairs cost) (maxPasses : Nat)
    (cost : List α) (h : cost.length = n * n) : ∃ (a : Fin n → Fin n) (iterations : Nat),
      GreedySolver.solve sort maxPasses cost n =
        .ok ⟨(List.finRange n).map fun i => (a i).val, total (matrix cost n h) a, false, iterations⟩ ∧ Function.Bijective a := by
  by_cases hn : n = 0
  · subst hn
    exact ⟨id, 0, by rw [GreedySolver.solve, if_pos rfl]; rfl, Function.bijective_id⟩
  · obtain ⟨greedy, hcolumns, hgreedy⟩ := GreedySolver.Greedy.columns_bijective (sort (matrix cost n h))
    rcases hrun : LocalSearch.passes GreedySolver.swapRows (GreedySolver.lowers (matrix cost n h)) (GreedySolver.scanPairs n)
      maxPasses greedy 0 with ⟨a, iterations⟩
    refine ⟨a, iterations, ?_, (GreedySolver.passes_sound (matrix cost n h) maxPasses hgreedy hrun).1⟩
    rw [GreedySolver.solve, if_neg hn, dif_pos h, GreedySolver.solveMatrix, hcolumns]
    simp only [bind, Except.bind, hrun]
    rfl

end

end SynapseFs.Align.RectangularLsap
