import SynapseFs.Align.RectangularLsap
import SynapseFs.Lib.Duality

/-! What the searches of the exact solver find, whatever the arithmetic.

What an iteration of a search does is said once, by `Next`; what the arrays mean is
`Grown`, which only needs that costs have an order: the rows get different columns of
finite cost under any rounding (`addRows_sound`), and a search that gives up has found
rows for which there are not enough columns (`Searching.infeasible`). What the prices are
good for is left to what the iterations keep (`Kept`). -/
namespace SynapseFs.Align.RectangularLsap
open Lib Core

variable {nr nc : Nat} {α : Type}

/-! ### One row scanned -/

open scoped List in
theorem removeAt_perm {κ : Type} {remaining : List κ} {index : Nat} {j : κ} (h : remaining[index]? = some j) :
    j :: removeAt remaining index ~ remaining := by
  obtain ⟨front, last, rfl⟩ : ∃ front last, remaining = front ++ [last] := by
    rcases List.eq_nil_or_concat remaining with rfl | ⟨front, last, hlast⟩
    · simp at h
    · exact ⟨front, last, hlast.trans List.concat_eq_append⟩
  simp only [removeAt, List.getLast?_append, List.getLast?_singleton, Option.some_or]
  by_cases hin : index < front.length
  · obtain ⟨before, after, hfront, hlen⟩ : ∃ before after, front = before ++ j :: after ∧ before.length = index := by
      rw [List.getElem?_append_left hin] at h
      obtain ⟨_, hj⟩ := List.getElem?_eq_some_iff.mp h
      exact ⟨front.take index, front.drop (index + 1), by rw [← hj, List.getElem_cons_drop, List.take_append_drop], by simp; omega⟩
    subst hfront
    have hset : ((before ++ j :: after) ++ [last]).set index last = (before ++ last :: after) ++ [last] := by
      rw [← hlen, List.append_assoc, List.set_append_right _ _ (Nat.le_refl _), Nat.sub_self]
      simp
    rw [hset, List.dropLast_concat]
    calc j :: (before ++ last :: after)
        ~ j :: last :: (before ++ after) := List.perm_middle.cons j
      _ ~ last :: j :: (before ++ after) := List.Perm.swap ..
      _ ~ last :: (before ++ j :: after) := List.perm_middle.symm.cons last
      _ ~ (before ++ j :: after) ++ [last] := (List.perm_append_singleton ..).symm
  · have hlast : index = front.length := by
      have := (List.getElem?_eq_some_iff.mp h).1
      simp at this
      omega
    subst hlast
    obtain rfl : last = j := by simpa using h
    simpa using (List.perm_append_singleton last front).symm

section
variable [LinearOrder α]

theorem relax_self (t : Scan nr nc α) (i : Fin nr) (j : Fin nc) (r : WithTop α) :
    (t.relax i j r).shortestPathCosts j = min (t.shortestPathCosts j) r ∧
      (t.relax i j r).path j = if r < t.shortestPathCosts j then some i else t.path j := by
  unfold Scan.relax
  split
  · next h => exact ⟨by simp [min_eq_right h.le], by simp⟩
  · next h => exact ⟨(min_eq_left (not_lt.mp h)).symm, rfl⟩

theorem relax_other (t : Scan nr nc α) (i : Fin nr) {j j' : Fin nc} (r : WithTop α) (h : j' ≠ j) :
    (t.relax i j r).shortestPathCosts j' = t.shortestPathCosts j' ∧ (t.relax i j r).path j' = t.path j' := by
  unfold Scan.relax
  split
  · exact ⟨Function.update_of_ne h .., Function.update_of_ne h ..⟩
  · exact ⟨rfl, rfl⟩

theorem relax_lowest (t : Scan nr nc α) (i : Fin nr) (j : Fin nc) (r : WithTop α) :
    (t.relax i j r).lowest = t.lowest ∧ (t.relax i j r).index = t.index := by
  unfold Scan.relax
  split
  · exact ⟨rfl, rfl⟩
  · exact ⟨rfl, rfl⟩

theorem pick_labels (t : Scan nr nc α) (row4col : Fin nc → Option (Fin nr)) (it : Nat) (j : Fin nc) :
    (t.pick row4col it j).shortestPathCosts = t.shortestPathCosts ∧ (t.pick row4col it j).path = t.path := by
  unfold Scan.pick
  split
  · exact ⟨rfl, rfl⟩
  · exact ⟨rfl, rfl⟩

theorem pick_cases (t : Scan nr nc α) (row4col : Fin nc → Option (Fin nr)) (it : Nat) (j : Fin nc) :
    (t.pick row4col it j).lowest ≤ t.lowest ∧ (t.pick row4col it j).lowest ≤ t.shortestPathCosts j ∧
      ((t.pick row4col it j).lowest = t.lowest ∧ (t.pick row4col it j).index = t.index ∨
        (t.pick row4col it j).lowest = t.shortestPathCosts j ∧ (t.pick row4col it j).index = some it) := by
  unfold Scan.pick
  split
  · next h => exact ⟨h.elim le_of_lt fun h => h.1.le, le_rfl, .inr ⟨rfl, rfl⟩⟩
  · next h => exact ⟨le_rfl, not_lt.mp fun hlt => h (.inl hlt), .inl ⟨rfl, rfl⟩⟩

end

section
variable [Add α] [Sub α] [LinearOrder α] {cost : Fin nr → Fin nc → WithTop α} {s : Solution nr nc α}

/-- What a scan makes of the variables it starts from: every column of the list is relaxed, the others are left alone, and
the lowest is that of a column of the list or was there before. -/
structure Scanned (cost : Fin nr → Fin nc → WithTop α) (s : Solution nr nc α) (minVal : α) (i : Fin nr) (it : Nat)
    (l : List (Fin nc)) (t r : Scan nr nc α) : Prop where
  relaxed : ∀ j ∈ l, r.shortestPathCosts j = min (t.shortestPathCosts j) (pathCost cost s minVal i j)
  path : ∀ j ∈ l, r.path j = if pathCost cost s minVal i j < t.shortestPathCosts j then some i else t.path j
  other : ∀ j, j ∉ l → r.shortestPathCosts j = t.shortestPathCosts j ∧ r.path j = t.path j
  lowest_le : r.lowest ≤ t.lowest ∧ ∀ j ∈ l, r.lowest ≤ r.shortestPathCosts j
  found : r.lowest = t.lowest ∧ r.index = t.index ∨
    ∃ k j, l[k]? = some j ∧ r.index = some (it + k) ∧ r.lowest = r.shortestPathCosts j

variable (cost s) in
theorem scan_scanned (minVal : α) (i : Fin nr) (l : List (Fin nc)) : ∀ (it : Nat) (t : Scan nr nc α), l.Nodup →
    Scanned cost s minVal i it l t (scan cost s minVal i it l t) := by
  induction l with
  | nil =>
    intro it t _
    exact ⟨by simp, by simp, fun _ _ => ⟨rfl, rfl⟩, ⟨le_rfl, by simp⟩, .inl ⟨rfl, rfl⟩⟩
  | cons j rest ih =>
    intro it t hnodup
    obtain ⟨hj, hrest⟩ := List.nodup_cons.mp hnodup
    -- The rest of the loop starts from what the first column left.
    generalize hmid : (t.relax i j (pathCost cost s minVal i j)).pick s.row4col it j = mid
    have hrun : scan cost s minVal i it (j :: rest) t = scan cost s minVal i (it + 1) rest mid := by rw [scan, hmid]
    have hlabels := pick_labels (t.relax i j (pathCost cost s minVal i j)) s.row4col it j
    have hpick := pick_cases (t.relax i j (pathCost cost s minVal i j)) s.row4col it j
    rw [hmid] at hlabels hpick
    obtain ⟨hself, hpath⟩ := relax_self t i j (pathCost cost s minVal i j)
    obtain ⟨hlow, hindex⟩ := relax_lowest t i j (pathCost cost s minVal i j)
    have hother := fun j' (hne : j' ≠ j) => relax_other t i (pathCost cost s minVal i j) hne
    rw [← hlabels.1, ← hlabels.2] at hother
    rw [← hlabels.1] at hself hpick
    rw [← hlabels.2] at hpath
    rw [hlow, hindex] at hpick
    have h := ih (it + 1) mid hrest
    obtain ⟨hkeptCost, hkeptPath⟩ := h.other j hj
    rw [hrun]
    refine ⟨?_, ?_, ?_, ⟨h.lowest_le.1.trans hpick.1, ?_⟩, ?_⟩
    · intro j' hj'
      rcases List.mem_cons.mp hj' with rfl | hj'
      · rw [hkeptCost, hself]
      · rw [h.relaxed j' hj', (hother j' fun he => hj (he ▸ hj')).1]
    · intro j' hj'
      rcases List.mem_cons.mp hj' with rfl | hj'
      · rw [hkeptPath, hpath]
      · rw [h.path j' hj', (hother j' fun he => hj (he ▸ hj')).1, (hother j' fun he => hj (he ▸ hj')).2]
    · intro j' hj'
      obtain ⟨hne, hnotin⟩ := not_or.mp (mt List.mem_cons.mpr hj')
      rw [(h.other j' hnotin).1, (h.other j' hnotin).2]
      exact hother j' hne
    · intro j' hj'
      rcases List.mem_cons.mp hj' with rfl | hj'
      · rw [hkeptCost]
        exact h.lowest_le.1.trans hpick.2.1
      · exact h.lowest_le.2 j' hj'
    · rcases h.found with ⟨hsame, hindex'⟩ | ⟨k, j', hk, hindex', hlowest⟩
      · rw [hsame, hindex']
        exact hpick.2.2.imp_right fun hfound => ⟨0, j, rfl, hfound.2, hfound.1.trans hkeptCost.symm⟩
      · exact .inr ⟨k + 1, j', hk, by rw [hindex']; congr 1; omega, hlowest⟩

/-! ### One iteration of a search -/

/-- An iteration scans its row and closes a cheapest open column. -/
structure Next (cost : Fin nr → Fin nc → WithTop α) (s : Solution nr nc α) (t : Search nr nc α) (j : Fin nc)
    (t' : Search nr nc α) : Prop where
  remaining : (j :: t'.remaining).Perm t.remaining
  relaxed : ∀ j' ∈ t.remaining, t'.shortestPathCosts j' = min (t.shortestPathCosts j') (pathCost cost s t.minVal t.i j')
  path : ∀ j' ∈ t.remaining,
    t'.path j' = if pathCost cost s t.minVal t.i j' < t.shortestPathCosts j' then some t.i else t.path j'
  other : ∀ j', j' ∉ t.remaining → t'.shortestPathCosts j' = t.shortestPathCosts j' ∧ t'.path j' = t.path j'
  reached : t'.shortestPathCosts j = t'.minVal
  lowest : ∀ j' ∈ t.remaining, (t'.minVal : WithTop α) ≤ t'.shortestPathCosts j'
  row : t'.i = (s.row4col j).getD t.i
  SR : t'.SR = Function.update t.SR t.i true
  SC : t'.SC = Function.update t.SC j true

variable (cost s) in
/-- An iteration finds nothing that can be reached, or a column, which ends the search if no row has it. -/
theorem Search.step_cases {t : Search nr nc α} (hnodup : t.remaining.Nodup) :
    t.step cost s = .ok .infeasible ∧
        (∀ j ∈ t.remaining, t.shortestPathCosts j = ⊤ ∧ pathCost cost s t.minVal t.i j = ⊤) ∨
      ∃ j t', Next cost s t j t' ∧ t.step cost s = .ok (if s.row4col j = none then .sink j t' else .again t') := by
  have h := scan_scanned cost s t.minVal t.i t.remaining 0 ⟨t.path, t.shortestPathCosts, ⊤, none⟩ hnodup
  unfold step
  generalize scan cost s t.minVal t.i 0 t.remaining ⟨t.path, t.shortestPathCosts, ⊤, none⟩ = r at h ⊢
  dsimp only at h ⊢
  cases hlowest : r.lowest with
  | top =>
    refine .inl ⟨rfl, fun j hj => ?_⟩
    have htop : r.shortestPathCosts j = ⊤ := top_le_iff.mp (hlowest ▸ h.lowest_le.2 j hj)
    rw [h.relaxed j hj] at htop
    exact min_eq_top.mp htop
  | coe minVal =>
    obtain ⟨hsame, -⟩ | ⟨k, j, hk, hindex, hcost⟩ := h.found
    · rw [hlowest] at hsame
      cases hsame
    · rw [Nat.zero_add] at hindex
      refine .inr ⟨j, ⟨minVal, (s.row4col j).getD t.i, r.path, r.shortestPathCosts, Function.update t.SR t.i true,
        Function.update t.SC j true, removeAt t.remaining k⟩, ?_, ?_⟩
      · exact {
          remaining := removeAt_perm hk
          relaxed := h.relaxed
          path := h.path
          other := h.other
          reached := hcost.symm.trans hlowest
          lowest := fun j' hj' => hlowest ▸ h.lowest_le.2 j' hj'
          row := rfl
          SR := rfl
          SC := rfl }
      · simp only [hindex, readAt, bind, Except.bind, hk]
        rfl

/-! ### What the arrays mean -/

omit [LinearOrder α] in
theorem pathCost_eq_top {minVal : α} {i : Fin nr} {j : Fin nc} : pathCost cost s minVal i j = ⊤ ↔ cost i j = ⊤ :=
  WithTop.map_eq_top_iff

/-- Rows and columns have each other, at a finite cost. -/
structure Matched (cost : Fin nr → Fin nc → WithTop α) (s : Solution nr nc α) (assigned : Fin nr → Prop) : Prop where
  pair : ∀ i j, s.row4col j = some i ↔ s.col4row i = some j
  row : ∀ i, (∃ j, s.col4row i = some j) ↔ assigned i
  finite : ∀ i j, s.col4row i = some j → cost i j ≠ ⊤

/-- What a search from `curRow` has grown. A column has a label once a row that was scanned may have it, and its path leads
back to such a row; the paths of closed columns lead back to `curRow`, by columns that were closed before. -/
structure Grown (cost : Fin nr → Fin nc → WithTop α) (s : Solution nr nc α) (curRow : Fin nr) (t : Search nr nc α) : Prop where
  nodup : t.remaining.Nodup
  open_iff : ∀ j, j ∈ t.remaining ↔ t.SC j = false
  row : ∀ i, t.SR i = true → i = curRow ∨ ∃ j, s.col4row i = some j ∧ t.SC j = true
  closed : ∀ j, t.SC j = true → t.shortestPathCosts j ≠ ⊤
  labelled : ∀ j, t.shortestPathCosts j ≠ ⊤ → ∃ i, t.path j = some i ∧ t.SR i = true ∧ cost i j ≠ ⊤
  unlabelled : ∀ j, t.shortestPathCosts j = ⊤ → ∀ i, t.SR i = true → cost i j = ⊤
  ranked : ∃ rank : Fin nc → Nat, (∀ j, t.SC j = true → rank j + t.remaining.length < nc) ∧
    ∀ j i, t.SC j = true → t.path j = some i → i = curRow ∨ ∃ j', s.col4row i = some j' ∧ t.SC j' = true ∧ rank j' < rank j

/-- A search that goes on from a row that it has not scanned. -/
structure Searching (cost : Fin nr → Fin nc → WithTop α) (s : Solution nr nc α) (curRow : Fin nr) (t : Search nr nc α) : Prop
    extends Grown cost s curRow t where
  fresh : t.SR t.i = false
  current : t.i = curRow ∨ ∃ j, s.col4row t.i = some j ∧ t.SC j = true
  root : t.SR curRow = true ∨ t.i = curRow
  column : ∀ j, t.SC j = true → ∃ i, s.row4col j = some i ∧ (t.SR i = true ∨ i = t.i)

/-- A search that has closed a column that no row has. -/
structure Ended (cost : Fin nr → Fin nc → WithTop α) (s : Solution nr nc α) (curRow : Fin nr) (sink : Fin nc)
    (t : Search nr nc α) : Prop extends Grown cost s curRow t where
  root : t.SR curRow = true
  free : t.SC sink = true ∧ s.row4col sink = none ∧ t.shortestPathCosts sink = t.minVal
  column : ∀ j, t.SC j = true → j = sink ∨ ∃ i, s.row4col j = some i ∧ t.SR i = true

variable {curRow : Fin nr} {t t' : Search nr nc α} {j : Fin nc} {assigned : Fin nr → Prop}

namespace Next

theorem mem (n : Next cost s t j t') : j ∈ t.remaining := n.remaining.mem_iff.mp List.mem_cons_self

theorem scanned_iff (n : Next cost s t j t') {i : Fin nr} : t'.SR i = true ↔ i = t.i ∨ t.SR i = true := by
  rw [n.SR, Function.update_apply]
  split
  · next h => simp [h]
  · next h => simp [h]

theorem closed_iff (n : Next cost s t j t') {j' : Fin nc} : t'.SC j' = true ↔ j' = j ∨ t.SC j' = true := by
  rw [n.SC, Function.update_apply]
  split
  · next h => simp [h]
  · next h => simp [h]

end Next

omit [Add α] [Sub α] [LinearOrder α] in
theorem Grown.not_open (g : Grown cost s curRow t) {j : Fin nc} (h : t.SC j = true) : j ∉ t.remaining := fun hj => by
  rw [(g.open_iff j).mp hj] at h
  cases h

/-- The rows that are scanned after an iteration have columns that were closed before it. -/
theorem Searching.row_next (g : Searching cost s curRow t) (n : Next cost s t j t') {i : Fin nr} (hi : t'.SR i = true) :
    i = curRow ∨ ∃ j', s.col4row i = some j' ∧ t.SC j' = true := by
  rcases n.scanned_iff.mp hi with rfl | hi
  · exact g.current
  · exact g.row i hi

theorem Searching.grown_next (g : Searching cost s curRow t) (n : Next cost s t j t') : Grown cost s curRow t' := by
  have hnodup := n.remaining.nodup_iff.mpr g.nodup
  have hlen : t'.remaining.length + 1 = t.remaining.length := n.remaining.length_eq
  have hclosed : ∀ j', t.SC j' = true → j' ≠ j := fun j' hj' he => g.not_open hj' (he ▸ n.mem)
  have hlabelled : ∀ j', t'.shortestPathCosts j' ≠ ⊤ → ∃ i, t'.path j' = some i ∧ t'.SR i = true ∧ cost i j' ≠ ⊤ := by
    intro j' hj'
    by_cases hopen : j' ∈ t.remaining
    · rw [n.path j' hopen]
      rw [n.relaxed j' hopen] at hj'
      by_cases hlt : pathCost cost s t.minVal t.i j' < t.shortestPathCosts j'
      · exact ⟨t.i, if_pos hlt, n.scanned_iff.mpr (.inl rfl), fun htop => hlt.ne_top (pathCost_eq_top.mpr htop)⟩
      · rw [min_eq_left (not_lt.mp hlt)] at hj'
        obtain ⟨i, hpath, hi, hcost⟩ := g.labelled j' hj'
        exact ⟨i, (if_neg hlt).trans hpath, n.scanned_iff.mpr (.inr hi), hcost⟩
    · obtain ⟨hsame, hpath⟩ := n.other j' hopen
      obtain ⟨i, hi, hscanned, hcost⟩ := g.labelled j' (hsame ▸ hj')
      exact ⟨i, hpath.trans hi, n.scanned_iff.mpr (.inr hscanned), hcost⟩
  refine {
    nodup := hnodup.of_cons
    open_iff := fun j' => ?_
    row := fun i hi => (g.row_next n hi).imp_right (Exists.imp fun j' hj' => ⟨hj'.1, n.closed_iff.mpr (.inr hj'.2)⟩)
    closed := fun j' hj' => ?_
    labelled := hlabelled
    unlabelled := fun j' hj' i hi => ?_
    ranked := ?_ }
  · have hsc : t'.SC j' = true ↔ j' = j ∨ t.SC j' = true := n.closed_iff
    by_cases he : j' = j
    · subst he
      simp [hsc.mpr (.inl rfl), (List.nodup_cons.mp hnodup).1]
    · have hmem : j' ∈ t'.remaining ↔ j' ∈ t.remaining := by
        rw [← n.remaining.mem_iff, List.mem_cons, or_iff_right he]
      rw [hmem, g.open_iff j', n.SC, Function.update_of_ne he]
  · rcases n.closed_iff.mp hj' with rfl | hj'
    · rw [n.reached]
      exact WithTop.coe_ne_top
    · rw [(n.other j' (g.not_open hj')).1]
      exact g.closed j' hj'
  · by_cases hopen : j' ∈ t.remaining
    · rw [n.relaxed j' hopen] at hj'
      obtain ⟨hbefore, hpath⟩ := min_eq_top.mp hj'
      rcases n.scanned_iff.mp hi with rfl | hi
      · exact pathCost_eq_top.mp hpath
      · exact g.unlabelled j' hbefore i hi
    · rw [(n.other j' hopen).1] at hj'
      rcases n.scanned_iff.mp hi with rfl | hi
      · exact absurd hj' (g.closed j' (Bool.not_eq_false _ ▸ mt (g.open_iff j').mpr hopen))
      · exact g.unlabelled j' hj' i hi
  · obtain ⟨rank, hbound, hback⟩ := g.ranked
    have hle : t.remaining.length ≤ nc := by simpa using g.nodup.length_le_card
    -- The column that is closed now comes after those that were.
    refine ⟨Function.update rank j (nc - t.remaining.length), fun j' hj' => ?_, fun j' i hj' hpath => ?_⟩
    · rcases n.closed_iff.mp hj' with rfl | hj'
      · rw [Function.update_self]
        omega
      · rw [Function.update_of_ne (hclosed j' hj')]
        have := hbound j' hj'
        omega
    · have hrow : i = curRow ∨ ∃ j'', s.col4row i = some j'' ∧ t.SC j'' = true ∧
          rank j'' < Function.update rank j (nc - t.remaining.length) j' := by
        rcases n.closed_iff.mp hj' with rfl | hj'
        · obtain ⟨i', hpath', hi', -⟩ := hlabelled j' (by rw [n.reached]; exact WithTop.coe_ne_top)
          obtain rfl : i' = i := Option.some.inj (hpath'.symm.trans hpath)
          refine (g.row_next n hi').imp_right (Exists.imp fun j'' hj'' => ⟨hj''.1, hj''.2, ?_⟩)
          rw [Function.update_self]
          have := hbound j'' hj''.2
          omega
        · rw [(n.other j' (g.not_open hj')).2] at hpath
          rw [Function.update_of_ne (hclosed j' hj')]
          exact hback j' i hj' hpath
      refine hrow.imp_right (Exists.imp fun j'' hj'' => ⟨hj''.1, n.closed_iff.mpr (.inr hj''.2.1), ?_⟩)
      rw [Function.update_of_ne (hclosed j'' hj''.2.1)]
      exact hj''.2.2

/-! ### A whole search -/

theorem Searching.root_next (g : Searching cost s curRow t) (n : Next cost s t j t') : t'.SR curRow = true :=
  n.scanned_iff.mpr (g.root.symm.imp_left Eq.symm)

/-- The row of the column that was closed has not been scanned, or the column would have been closed before. -/
theorem Searching.again (g : Searching cost s curRow t) (hs : Matched cost s assigned) (hcur : ¬assigned curRow)
    (n : Next cost s t j t') {i : Fin nr} (hj : s.row4col j = some i) : Searching cost s curRow t' := by
  have hcol : s.col4row i = some j := (hs.pair i j).mp hj
  have hi : t'.i = i := by rw [n.row, hj, Option.getD_some]
  refine { g.grown_next n with fresh := ?_, current := ?_, root := .inl (g.root_next n), column := fun j' hj' => ?_ }
  · refine Bool.eq_false_iff.mpr fun hscanned => ?_
    rw [hi] at hscanned
    rcases g.row_next n hscanned with rfl | ⟨j', hj', hclosed⟩
    · exact hcur ((hs.row i).mp ⟨j, hcol⟩)
    · obtain rfl : j = j' := Option.some.inj (hcol.symm.trans hj')
      exact g.not_open hclosed n.mem
  · exact .inr ⟨j, hi ▸ hcol, n.closed_iff.mpr (.inl rfl)⟩
  · rcases n.closed_iff.mp hj' with rfl | hj'
    · exact ⟨i, hj, .inr hi.symm⟩
    · obtain ⟨i', hrow, hi'⟩ := g.column j' hj'
      exact ⟨i', hrow, .inl (n.scanned_iff.mpr hi'.symm)⟩

theorem Searching.ended (g : Searching cost s curRow t) (n : Next cost s t j t') (hj : s.row4col j = none) :
    Ended cost s curRow j t' := by
  refine { g.grown_next n with
    root := g.root_next n
    free := ⟨n.closed_iff.mpr (.inl rfl), hj, n.reached⟩
    column := fun j' hj' => ?_ }
  rcases n.closed_iff.mp hj' with rfl | hj'
  · exact .inl rfl
  · obtain ⟨i, hrow, hi⟩ := g.column j' hj'
    exact .inr ⟨i, hrow, n.scanned_iff.mpr hi.symm⟩

omit [LinearOrder α] in
/-- The rows that were scanned may only have the columns that are closed, and these are fewer. -/
theorem Searching.infeasible (g : Searching cost s curRow t) (hs : Matched cost s assigned) (hcur : ¬assigned curRow)
    (hopen : ∀ j ∈ t.remaining, t.shortestPathCosts j = ⊤ ∧ pathCost cost s t.minVal t.i j = ⊤) {b : Fin nr → Fin nc}
    (hb : Function.Injective b) : ∃ i, cost i (b i) = ⊤ := by
  have hroot : curRow ∈ Finset.univ.filter fun i => t.SR i = true ∨ i = t.i := by
    rw [Finset.mem_filter_univ]
    exact g.root.imp_right Eq.symm
  refine Duality.exists_infinite (Finset.univ.filter fun i => t.SR i = true ∨ i = t.i) (Finset.univ.filter fun j => t.SC j = true)
    ?_ ?_ hb
  · refine (Nat.lt_of_le_of_lt ?_ (Finset.card_erase_lt_of_mem hroot))
    refine Finset.card_le_card_of_injOn (fun j => (s.row4col j).getD curRow) (fun j hj => ?_) fun j hj j' hj' he => ?_
    · obtain ⟨i, hrow, hi⟩ := g.column j ((Finset.mem_filter_univ j).mp hj)
      refine Finset.mem_erase.mpr ⟨fun he => hcur ((hs.row curRow).mp ⟨j, ?_⟩), (Finset.mem_filter_univ _).mpr ?_⟩
      · dsimp only at he
        rw [hrow, Option.getD_some] at he
        exact (hs.pair curRow j).mp (he ▸ hrow)
      · dsimp only
        rw [hrow, Option.getD_some]
        exact hi
    · obtain ⟨i, hrow, -⟩ := g.column j ((Finset.mem_filter_univ j).mp hj)
      obtain ⟨i', hrow', -⟩ := g.column j' ((Finset.mem_filter_univ j').mp hj')
      dsimp only at he
      rw [hrow, hrow', Option.getD_some, Option.getD_some] at he
      have hcol := (hs.pair i j).mp hrow
      rw [he, (hs.pair i' j').mp hrow'] at hcol
      exact (Option.some.inj hcol).symm
  · intro i hi j hj
    have hopenj := hopen j ((g.open_iff j).mpr (Bool.eq_false_iff.mpr fun h => hj ((Finset.mem_filter_univ j).mpr h)))
    rcases (Finset.mem_filter_univ i).mp hi with hi | rfl
    · exact g.unlabelled j hopenj.1 i hi
    · exact pathCost_eq_top.mp hopenj.2

/-- A search that has steps left for every open column gives up where there is no way, or ends at a free column; what its
iterations keep holds there. -/
theorem Search.run_sound (hs : Matched cost s assigned) (hcur : ¬assigned curRow) {Q : Search nr nc α → Prop}
    (hQ : ∀ t j t', Searching cost s curRow t → Q t → Next cost s t j t' → Q t') (fuel : Nat) :
    ∀ t : Search nr nc α, Searching cost s curRow t → Q t → t.remaining.length < fuel →
      (t.run cost s fuel = .ok none ∧ ∀ b : Fin nr → Fin nc, Function.Injective b → ∃ i, cost i (b i) = ⊤) ∨
        ∃ sink t', t.run cost s fuel = .ok (some (sink, t')) ∧ Ended cost s curRow sink t' ∧ Q t' := by
  induction fuel with
  | zero => exact fun t _ _ h => absurd h (Nat.not_lt_zero _)
  | succ fuel ih =>
    intro t g hq hfuel
    rcases Search.step_cases cost s g.nodup with ⟨hstep, hopen⟩ | ⟨j, t', n, hstep⟩
    · refine .inl ⟨?_, fun b hb => g.infeasible hs hcur hopen hb⟩
      rw [run, hstep]
      rfl
    · cases hj : s.row4col j with
      | none =>
        refine .inr ⟨j, t', ?_, g.ended n hj, hQ t j t' g hq n⟩
        rw [run, hstep, if_pos hj]
        rfl
      | some i =>
        have hrun : t.run cost s (fuel + 1) = t'.run cost s fuel := by
          rw [run, hstep, if_neg (by rw [hj]; simp)]
          rfl
        rw [hrun]
        have hlen : t'.remaining.length + 1 = t.remaining.length := n.remaining.length_eq
        exact ih t' (g.again hs hcur n hj) (hQ t j t' g hq n) (by omega)

omit [Add α] [Sub α] [LinearOrder α] in
theorem Searching.start [Zero α] (s : Solution nr nc α) (curRow : Fin nr) : Searching cost s curRow (Search.start s curRow) where
  nodup := List.nodup_reverse.mpr (List.nodup_finRange nc)
  open_iff j := by simp [Search.start]
  row i h := by simp [Search.start] at h
  closed j h := by simp [Search.start] at h
  labelled j h := by simp [Search.start] at h
  unlabelled j _ i h := by simp [Search.start] at h
  ranked := ⟨fun _ => 0, fun j h => by simp [Search.start] at h, fun j i h => by simp [Search.start] at h⟩
  fresh := rfl
  current := .inl rfl
  root := .inr rfl
  column j h := by simp [Search.start] at h

theorem augmentingPath_sound [Zero α] (hs : Matched cost s assigned) (hcur : ¬assigned curRow) {Q : Search nr nc α → Prop}
    (hstart : Q (Search.start s curRow)) (hQ : ∀ t j t', Searching cost s curRow t → Q t → Next cost s t j t' → Q t') :
    (augmentingPath cost s curRow = .ok none ∧ ∀ b : Fin nr → Fin nc, Function.Injective b → ∃ i, cost i (b i) = ⊤) ∨
      ∃ sink t', augmentingPath cost s curRow = .ok (some (sink, t')) ∧ Ended cost s curRow sink t' ∧ Q t' :=
  Search.run_sound hs hcur hQ (nc + 1) _ (Searching.start s curRow) hstart (by simp [Search.start])

end

/-! ### The path turned round -/

namespace Partners

/-- Rows and columns have each other. -/
def Paired (p : Partners nr nc) : Prop := ∀ i j, p.row4col j = some i ↔ p.col4row i = some j

/-- Rows and columns have each other, but for a column that no row has. -/
structure Loose (p : Partners nr nc) (j : Fin nc) : Prop where
  free : ∀ i, p.col4row i ≠ some j
  pair : ∀ i j', j' ≠ j → (p.row4col j' = some i ↔ p.col4row i = some j')

/-- `row4col[j] = i; col4row[i] = j`. -/
def give (p : Partners nr nc) (i : Fin nr) (j : Fin nc) : Partners nr nc :=
  ⟨Function.update p.row4col j (some i), Function.update p.col4row i (some j)⟩

variable {p : Partners nr nc} {i : Fin nr} {j : Fin nc}

theorem give_col (p : Partners nr nc) (i : Fin nr) (j : Fin nc) : (p.give i j).col4row i = some j := Function.update_self ..

theorem give_col_other (p : Partners nr nc) {i i' : Fin nr} (j : Fin nc) (h : i' ≠ i) :
    (p.give i j).col4row i' = p.col4row i' := Function.update_of_ne h ..

theorem give_row (p : Partners nr nc) (i : Fin nr) (j : Fin nc) : (p.give i j).row4col j = some i := Function.update_self ..

theorem give_row_other (p : Partners nr nc) (i : Fin nr) {j j' : Fin nc} (h : j' ≠ j) :
    (p.give i j).row4col j' = p.row4col j' := Function.update_of_ne h ..

/-- A column that is not the one the row had before. -/
theorem Loose.give_pair (h : p.Loose j) {i' : Fin nr} {j' : Fin nc} (hother : p.col4row i ≠ some j') :
    (p.give i j).row4col j' = some i' ↔ (p.give i j).col4row i' = some j' := by
  by_cases hj : j' = j
  · subst hj
    rw [give_row]
    by_cases hi : i' = i
    · subst hi
      rw [give_col]
      simp
    · rw [give_col_other p j' hi]
      exact iff_of_false (fun he => hi (Option.some.inj he).symm) (h.free i')
  · rw [give_row_other p i hj, h.pair i' j' hj]
    by_cases hi : i' = i
    · subst hi
      rw [give_col]
      exact iff_of_false hother fun he => hj (Option.some.inj he).symm
    · rw [give_col_other p j hi]

/-- The column that the row had before is loose now. -/
theorem Loose.give (h : p.Loose j) {j' : Fin nc} (hcol : p.col4row i = some j') : (p.give i j).Loose j' where
  free i' he := by
    by_cases hi : i' = i
    · subst hi
      rw [give_col] at he
      exact h.free i' ((Option.some.inj he) ▸ hcol)
    · rw [give_col_other p j hi] at he
      have hj : j' ≠ j := fun hj => h.free i (hj ▸ hcol)
      have hrow := (h.pair i' j' hj).mpr he
      rw [(h.pair i j' hj).mpr hcol] at hrow
      exact hi (Option.some.inj hrow).symm
  pair i' j'' hne := h.give_pair (by rw [hcol]; exact fun he => hne (Option.some.inj he).symm)

/-- A row that had none takes the loose column. -/
theorem Loose.close (h : p.Loose j) (hcol : p.col4row i = none) : (p.give i j).Paired :=
  fun _ _ => h.give_pair (by rw [hcol]; simp)

end Partners

/-- What turning a path round does: every pair is an old one or one of the path, no row and no column is left alone that was
not before, and the current row and the loose column are taken. -/
structure Turned (path : Fin nc → Option (Fin nr)) (SC : Fin nc → Bool) (curRow : Fin nr) (p : Partners nr nc) (j : Fin nc)
    (q : Partners nr nc) : Prop where
  paired : q.Paired
  row : ∀ i, (∃ j', q.col4row i = some j') ↔ i = curRow ∨ ∃ j', p.col4row i = some j'
  column : ∀ j', j' = j ∨ (∃ i, p.row4col j' = some i) → ∃ i, q.row4col j' = some i
  pairs : ∀ i j', q.col4row i = some j' → p.col4row i = some j' ∨ SC j' = true ∧ path j' = some i

/-- The loop gets back to the current row: the columns that are behind have not been touched, and each lies before the one
it was reached from. -/
theorem augment_turned {path : Fin nc → Option (Fin nr)} {SC : Fin nc → Bool} {curRow : Fin nr}
    {col4row : Fin nr → Option (Fin nc)} {rank : Fin nc → Nat} (hpath : ∀ j, SC j = true → ∃ i, path j = some i)
    (hback : ∀ j i, SC j = true → path j = some i →
      i = curRow ∨ ∃ j', col4row i = some j' ∧ SC j' = true ∧ rank j' < rank j) (fuel : Nat) :
    ∀ (p : Partners nr nc) (j : Fin nc), SC j = true → rank j < fuel → p.Loose j → p.col4row curRow = none →
      (∀ i j', col4row i = some j' → rank j' < rank j → p.col4row i = some j') →
      ∃ q, augment path curRow fuel p j = .ok q ∧ Turned path SC curRow p j q := by
  induction fuel with
  | zero => exact fun _ _ _ h => absurd h (Nat.not_lt_zero _)
  | succ fuel ih =>
    intro p j hj hfuel hloose hfree hkept
    obtain ⟨i, hi⟩ := hpath j hj
    by_cases hcur : i = curRow
    · subst hcur
      refine ⟨p.give i j, by simp [augment, hi, readAt, bind, Except.bind, pure, Except.pure, Partners.give], ?_⟩
      refine { paired := hloose.close hfree, row := fun i' => ?_, column := fun j' hj' => ?_, pairs := fun i' j' h => ?_ }
      · by_cases he : i' = i
        · exact iff_of_true ⟨j, he ▸ p.give_col i j⟩ (.inl he)
        · rw [p.give_col_other j he, or_iff_right he]
      · by_cases he : j' = j
        · exact ⟨i, he ▸ p.give_row i j⟩
        · rw [p.give_row_other i he]
          exact hj'.resolve_left he
      · by_cases he : i' = i
        · rw [he, p.give_col] at h
          rw [← Option.some.inj h, he]
          exact .inr ⟨hj, hi⟩
        · rw [p.give_col_other j he] at h
          exact .inl h
    · obtain ⟨j', hcol, hj', hrank⟩ := (hback j i hj hi).resolve_left hcur
      have hp := hkept i j' hcol hrank
      obtain ⟨q, hq, hturned⟩ := ih (p.give i j) j' hj' (by omega) (hloose.give hp)
        ((p.give_col_other j (Ne.symm hcur)).trans hfree) fun i' j'' hcol' hrank' => by
          have hne : i' ≠ i := by
            rintro rfl
            rw [hcol] at hcol'
            rw [Option.some.inj hcol'] at hrank'
            exact Nat.lt_irrefl _ hrank'
          rw [p.give_col_other j hne]
          exact hkept i' j'' hcol' (hrank'.trans hrank)
      refine ⟨q, ?_, { paired := hturned.paired, row := fun i' => ?_, column := fun j'' hj'' => ?_, pairs := fun i' j'' h => ?_ }⟩
      · rw [← hq]
        simp [augment, hi, hcur, hp, readAt, bind, Except.bind, Partners.give]
      · rw [hturned.row]
        by_cases he : i' = i
        · subst he
          exact iff_of_true (.inr ⟨j, p.give_col i' j⟩) (.inr ⟨j', hp⟩)
        · rw [p.give_col_other j he]
      · refine hturned.column j'' (.inr ?_)
        by_cases he : j'' = j
        · exact ⟨i, he ▸ p.give_row i j⟩
        · rw [p.give_row_other i he]
          exact hj''.resolve_left he
      · rcases hturned.pairs i' j'' h with h | h
        · by_cases he : i' = i
          · rw [he, p.give_col] at h
            rw [← Option.some.inj h, he]
            exact .inr ⟨hj, hi⟩
          · rw [p.give_col_other j he] at h
            exact .inl h
        · exact .inr h

/-! ### One row after another -/

section
variable [Add α] [Sub α] [LinearOrder α] {cost : Fin nr → Fin nc → WithTop α} {s s' : Solution nr nc α}
  {curRow : Fin nr} {sink : Fin nc} {t : Search nr nc α} {assigned : Fin nr → Prop}

/-- What an iteration of the loop over the rows makes of the solution. -/
structure Augmented (s : Solution nr nc α) (curRow : Fin nr) (sink : Fin nc) (t : Search nr nc α) (s' : Solution nr nc α) :
    Prop where
  current : s'.u curRow = s.u curRow + t.minVal
  raised : ∀ i j c, t.SR i = true → i ≠ curRow → s.col4row i = some j → t.shortestPathCosts j = (c : α) →
    s'.u i = s.u i + (t.minVal - c)
  otherRow : ∀ i, t.SR i = false → i ≠ curRow → s'.u i = s.u i
  lowered : ∀ j c, t.SC j = true → t.shortestPathCosts j = (c : α) → s'.v j = s.v j - (t.minVal - c)
  otherColumn : ∀ j, t.SC j = false → s'.v j = s.v j
  turned : Turned t.path t.SC curRow ⟨s.row4col, s.col4row⟩ sink ⟨s'.row4col, s'.col4row⟩

omit [Add α] [LinearOrder α] in
theorem fallsShort_coe {j : Fin nc} {c : α} (h : t.shortestPathCosts j = (c : α)) : fallsShort t j = some (t.minVal - c) := by
  unfold fallsShort
  rw [h]

omit [Add α] [LinearOrder α] in
theorem Grown.fallsShort (g : Grown cost s curRow t) {j : Fin nc} (hj : t.SC j = true) : (fallsShort t j).isSome := by
  obtain ⟨c, hc⟩ := WithTop.ne_top_iff_exists.mp (g.closed j hj)
  rw [fallsShort_coe hc.symm]
  rfl

omit [LinearOrder α] in
/-- The prices are moved and the path is turned round, whatever the labels of the search are. -/
theorem Ended.augmented (e : Ended cost s curRow sink t) (hs : Matched cost s assigned) (hcur : ¬assigned curRow) :
    ∃ u v p, raiseRows s t curRow = .ok u ∧ lowerColumns s t = .ok v ∧
      augment t.path curRow nc ⟨s.row4col, s.col4row⟩ sink = .ok p ∧
      Augmented s curRow sink t ⟨u, v, t.path, p.col4row, p.row4col⟩ := by
  have hrows : ∀ i, t.SR i = true → i ≠ curRow → ((s.col4row i).bind (fallsShort t)).isSome := by
    intro i hi hne
    obtain ⟨j, hj, hclosed⟩ := (e.row i hi).resolve_left hne
    rw [hj]
    exact e.fallsShort hclosed
  have hcolumns : ∀ j, t.SC j = true → (fallsShort t j).isSome := fun j hj => e.fallsShort hj
  obtain ⟨hsink, hfree, -⟩ := e.free
  obtain ⟨rank, hbound, hback⟩ := e.ranked
  have hnone : s.col4row curRow = none := by
    cases hcol : s.col4row curRow with
    | none => rfl
    | some j => exact absurd ((hs.row curRow).mp ⟨j, hcol⟩) hcur
  have hloose : Partners.Loose ⟨s.row4col, s.col4row⟩ sink :=
    ⟨fun i hi => by simp [(hs.pair i sink).mpr hi] at hfree, fun i j _ => hs.pair i j⟩
  obtain ⟨p, hp, hturned⟩ := augment_turned (fun j hj => (e.labelled j (e.closed j hj)).imp fun _ h => h.1) hback nc
    ⟨s.row4col, s.col4row⟩ sink hsink (by have := hbound sink hsink; omega) hloose hnone fun i j h _ => h
  refine ⟨_, _, p, dif_pos hrows, dif_pos hcolumns, hp, ?_⟩
  refine { current := dif_pos rfl, raised := ?_, otherRow := ?_, lowered := ?_, otherColumn := ?_, turned := hturned }
  · intro i j c hi hne hj hc
    dsimp only
    rw [dif_neg hne, dif_pos hi]
    simp only [hj, Option.bind_some, fallsShort_coe hc, Option.get_some]
  · intro i hi hne
    dsimp only
    rw [dif_neg hne, dif_neg (by rw [hi]; simp)]
  · intro j c hj hc
    dsimp only
    rw [dif_pos hj]
    simp only [fallsShort_coe hc, Option.get_some]
  · intro j hj
    dsimp only
    rw [dif_neg (by rw [hj]; simp)]

omit [LinearOrder α] in
/-- The rows that have a column, at a finite cost, are those from before and the current one. -/
theorem Augmented.matched (a : Augmented s curRow sink t s') (e : Ended cost s curRow sink t) (hs : Matched cost s assigned) :
    Matched cost s' fun i => i = curRow ∨ assigned i where
  pair := a.turned.paired
  row i := (a.turned.row i).trans (or_congr_right (hs.row i))
  finite i j h := by
    rcases a.turned.pairs i j h with h | ⟨hclosed, hpath⟩
    · exact hs.finite i j h
    · obtain ⟨i', hpath', -, hcost⟩ := e.labelled j (e.closed j hclosed)
      obtain rfl : i = i' := Option.some.inj (hpath.symm.trans hpath')
      exact hcost

variable [Zero α]

/-- What every iteration of the loop over the rows keeps, from what the iterations of its search keep. -/
structure Kept (cost : Fin nr → Fin nc → WithTop α) (I : (Fin nr → Prop) → Solution nr nc α → Prop)
    (Q : Solution nr nc α → Fin nr → Search nr nc α → Prop) : Prop where
  start : ∀ assigned s curRow, I assigned s → Q s curRow (Search.start s curRow)
  next : ∀ assigned s curRow t j t', Matched cost s assigned → ¬assigned curRow → I assigned s → Searching cost s curRow t →
    Q s curRow t → Next cost s t j t' → Q s curRow t'
  augmented : ∀ assigned s curRow sink t s', Matched cost s assigned → ¬assigned curRow → I assigned s →
    Ended cost s curRow sink t → Q s curRow t → Augmented s curRow sink t s' → I (fun i => i = curRow ∨ assigned i) s'

variable {I : (Fin nr → Prop) → Solution nr nc α → Prop} {Q : Solution nr nc α → Fin nr → Search nr nc α → Prop}

/-- One row: it gets a column, or there is no way to give all rows columns. -/
theorem addRow_sound (k : Kept cost I Q) (hs : Matched cost s assigned) (hI : I assigned s) (hcur : ¬assigned curRow) :
    (addRow cost s curRow = .ok none ∧ ∀ b : Fin nr → Fin nc, Function.Injective b → ∃ i, cost i (b i) = ⊤) ∨
      ∃ s', addRow cost s curRow = .ok (some s') ∧ (Matched cost s' fun i => i = curRow ∨ assigned i) ∧
        I (fun i => i = curRow ∨ assigned i) s' := by
  rcases augmentingPath_sound hs hcur (k.start assigned s curRow hI) fun t j t' g hq n =>
    k.next assigned s curRow t j t' hs hcur hI g hq n with ⟨hpath, hnone⟩ | ⟨sink, t, hpath, e, hq⟩
  · refine .inl ⟨?_, hnone⟩
    rw [addRow, hpath]
    rfl
  · obtain ⟨u, v, p, hu, hv, hp, ha⟩ := e.augmented hs hcur
    refine .inr ⟨⟨u, v, t.path, p.col4row, p.row4col⟩, ?_, ha.matched e hs,
      k.augmented assigned s curRow sink t _ hs hcur hI e hq ha⟩
    simp only [addRow, hpath, hu, hv, hp, bind, Except.bind]
    rfl

theorem addRows_sound (k : Kept cost I Q) (rows : List (Fin nr)) : ∀ {s : Solution nr nc α} {assigned : Fin nr → Prop},
    Matched cost s assigned → I assigned s → rows.Nodup → (∀ i ∈ rows, ¬assigned i) →
      (addRows cost rows s = .ok none ∧ ∀ b : Fin nr → Fin nc, Function.Injective b → ∃ i, cost i (b i) = ⊤) ∨
        ∃ s' assigned', addRows cost rows s = .ok (some s') ∧ Matched cost s' assigned' ∧ I assigned' s' ∧
          ∀ i, assigned' i ↔ i ∈ rows ∨ assigned i := by
  induction rows with
  | nil =>
    intro s assigned hs hI _ _
    exact .inr ⟨s, assigned, rfl, hs, hI, fun i => by simp⟩
  | cons curRow rest ih =>
    intro s assigned hs hI hnodup hfree
    obtain ⟨hcur, hrest⟩ := List.nodup_cons.mp hnodup
    rcases addRow_sound k hs hI (hfree curRow List.mem_cons_self) with ⟨hrow, hnone⟩ | ⟨s', hrow, hs', hI'⟩
    · refine .inl ⟨?_, hnone⟩
      rw [addRows, hrow]
      rfl
    · have hrun : addRows cost (curRow :: rest) s = addRows cost rest s' := by
        rw [addRows, hrow]
        rfl
      rw [hrun]
      refine (ih hs' hI' hrest fun i hi => ?_).imp_right fun ⟨s'', assigned', hrun', hs'', hI'', hiff⟩ =>
        ⟨s'', assigned', hrun', hs'', hI'', fun i => ?_⟩
      · rintro (rfl | hassigned)
        · exact hcur hi
        · exact hfree i (List.mem_cons_of_mem _ hi) hassigned
      · rw [hiff i, List.mem_cons, or_left_comm, or_assoc]

end

end SynapseFs.Align.RectangularLsap
