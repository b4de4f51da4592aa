import Mathlib.Data.Finset.Card
import Mathlib.Data.Finset.Dedup
import Mathlib.Logic.Function.Basic
import Mathlib.Logic.Relation

/-! Forests of parent pointers, as union-find keeps them.

A root is its own parent. `Height p k x r` climbs from `x` to the root `r` in `k`
steps; `Roots p root` says that every climb ends, and where. Pointing a node at its
grandparent keeps the roots and lengthens no climb (`Roots.halve`); pointing one
root at another merges two trees (`Roots.link`), which are the classes of the
relation with one pair more (`Classes.link`). -/
namespace SynapseFs.Lib.Forest

variable {α : Type} [DecidableEq α]

inductive Height (p : α → α) : Nat → α → α → Prop where
  | root {r : α} (h : p r = r) : Height p 0 r r
  | up {k : Nat} {x r : α} (h : p x ≠ x) (hup : Height p k (p x) r) : Height p (k + 1) x r

namespace Height

variable {p : α → α} {k m : Nat} {x r s : α}

omit [DecidableEq α] in
theorem isRoot (h : Height p k x r) : p r = r := by
  induction h with
  | root h => exact h
  | up _ _ ih => exact ih

omit [DecidableEq α] in
/-- There is one way up. -/
theorem unique (h : Height p k x r) : ∀ {m : Nat} {s : α}, Height p m x s → k = m ∧ r = s := by
  induction h with
  | root h =>
    intro m s h'
    cases h' with
    | root _ => exact ⟨rfl, rfl⟩
    | up hne _ => exact absurd h hne
  | up hne _ ih =>
    intro m s h'
    cases h' with
    | root h => exact absurd h hne
    | up _ h' =>
      obtain ⟨rfl, rfl⟩ := ih h'
      exact ⟨rfl, rfl⟩

omit [DecidableEq α] in
/-- No climb comes back. -/
theorem no_cycle (h : Height p k x r) (hne : p x ≠ x) : p (p x) ≠ x := by
  cases h with
  | root h => exact absurd h hne
  | up _ h =>
    intro hback
    have hne' : p (p x) ≠ p x := fun he => hne (he.symm.trans hback)
    cases h with
    | root h => exact absurd h hne'
    | up _ h' =>
      have := (Height.unique (hback ▸ h' : Height p _ x r) (.up hne (.up hne' h'))).1
      omega

/-- In a set that the climb does not leave, it is shorter than the set is large. -/
theorem lt_card (h : Height p k x r) {nodes : Finset α} (hclosed : ∀ a ∈ nodes, p a ∈ nodes) (hx : x ∈ nodes) :
    k < nodes.card := by
  -- The nodes on the way are distinct: each has a height of its own.
  have hway : ∀ {k : Nat} {x r : α}, Height p k x r → x ∈ nodes →
      ∃ way : Finset α, way ⊆ nodes ∧ way.card = k + 1 ∧ ∀ a ∈ way, ∃ j ≤ k, Height p j a r := by
    intro k x r h
    induction h with
    | root h =>
      intro hx
      refine ⟨{_}, Finset.singleton_subset_iff.mpr hx, Finset.card_singleton _, fun a ha => ?_⟩
      rw [Finset.mem_singleton.mp ha]
      exact ⟨0, le_rfl, .root h⟩
    | @up k x r hne h ih =>
      intro hx
      obtain ⟨way, hsub, hcard, hall⟩ := ih (hclosed x hx)
      have hnew : x ∉ way := by
        intro hmem
        obtain ⟨j, hj, h'⟩ := hall x hmem
        have := (h'.unique (.up hne h)).1
        omega
      refine ⟨insert x way, Finset.insert_subset hx hsub, by rw [Finset.card_insert_of_notMem hnew, hcard], ?_⟩
      intro a ha
      rcases Finset.mem_insert.mp ha with rfl | ha
      · exact ⟨k + 1, le_rfl, .up hne h⟩
      · obtain ⟨j, hj, h'⟩ := hall a ha
        exact ⟨j, by omega, h'⟩
  obtain ⟨way, hsub, hcard, -⟩ := hway h hx
  have := Finset.card_le_card hsub
  omega

/-- Pointing a node at its grandparent. -/
theorem halve (a : α) (h : Height p k x r) : ∃ j ≤ k, Height (Function.update p a (p (p a))) j x r := by
  induction h with
  | @root r h =>
    refine ⟨0, le_rfl, .root ?_⟩
    rw [Function.update_apply]
    split
    · next he => rw [← he, h, h]
    · exact h
  | @up k x r hne h ih =>
    obtain ⟨j, hj, hup⟩ := ih
    by_cases he : x = a
    · subst he
      have hgrand := (Height.up hne h).no_cycle hne
      cases hup with
      | root hroot =>
        rw [Function.update_of_ne hne] at hroot
        refine ⟨1, by omega, .up ?_ ?_⟩
        · rwa [Function.update_self]
        · rw [Function.update_self, hroot]
          exact .root (by rwa [Function.update_of_ne hne])
      | @up j _ _ _ hup =>
        rw [Function.update_of_ne hne] at hup
        exact ⟨j + 1, by omega, .up (by rwa [Function.update_self]) (by rwa [Function.update_self])⟩
    · refine ⟨j + 1, by omega, .up ?_ ?_⟩
      · rwa [Function.update_of_ne he]
      · rwa [Function.update_of_ne he]

/-- Pointing the root `b` at the root `a`. -/
theorem link {a b : α} (ha : p a = a) (hb : p b = b) (hab : a ≠ b) (h : Height p k x r) :
    ∃ j, Height (Function.update p b a) j x (if r = b then a else r) := by
  induction h with
  | @root r h =>
    by_cases hr : r = b
    · subst hr
      rw [if_pos rfl]
      refine ⟨1, .up ?_ ?_⟩
      · rwa [Function.update_self]
      · rw [Function.update_self]
        exact .root (by rwa [Function.update_of_ne hab])
    · rw [if_neg hr]
      exact ⟨0, .root (by rwa [Function.update_of_ne hr])⟩
  | @up k x r hne h ih =>
    obtain ⟨j, hup⟩ := ih
    have hx : x ≠ b := fun he => hne (he.symm ▸ hb)
    exact ⟨j + 1, .up (by rwa [Function.update_of_ne hx]) (by rwa [Function.update_of_ne hx])⟩

end Height

/-! ### The root of every node -/

/-- Every climb from `x` ends, at `root x`. -/
def Roots (p root : α → α) : Prop := ∀ x, ∃ k, Height p k x (root x)

namespace Roots

variable {p root : α → α}

omit [DecidableEq α] in
theorem isRoot (h : Roots p root) (x : α) : p (root x) = root x := by
  obtain ⟨k, hk⟩ := h x
  exact hk.isRoot

omit [DecidableEq α] in
theorem root_of_isRoot (h : Roots p root) {x : α} (hx : p x = x) : root x = x := by
  obtain ⟨k, hk⟩ := h x
  exact (hk.unique (.root hx)).2

omit [DecidableEq α] in
theorem root_root (h : Roots p root) (x : α) : root (root x) = root x := h.root_of_isRoot (h.isRoot x)

omit [DecidableEq α] in
theorem root_parent (h : Roots p root) (x : α) : root (p x) = root x := by
  by_cases hx : p x = x
  · rw [hx]
  · obtain ⟨k, hk⟩ := h (p x)
    obtain ⟨m, hm⟩ := h x
    exact ((Height.up hx hk).unique hm).2

/-- Pointing a node at its grandparent changes no root. -/
theorem halve (h : Roots p root) (a : α) : Roots (Function.update p a (p (p a))) root := by
  intro x
  obtain ⟨k, hk⟩ := h x
  obtain ⟨j, -, hj⟩ := hk.halve a
  exact ⟨j, hj⟩

/-- Pointing one root at another gives its tree the other root. -/
theorem link (h : Roots p root) {a b : α} (ha : p a = a) (hb : p b = b) (hab : a ≠ b) :
    Roots (Function.update p b a) fun x => if root x = b then a else root x := by
  intro x
  obtain ⟨k, hk⟩ := h x
  exact hk.link ha hb hab

end Roots

/-! ### The classes of the trees -/

/-- Two nodes have one root iff the relation connects them. -/
def Classes (root : α → α) (r : α → α → Prop) : Prop := ∀ x y, root x = root y ↔ Relation.EqvGen r x y

omit [DecidableEq α] in
/-- Where every node is a root and nothing is related. -/
theorem Classes.id {r : α → α → Prop} (h : ∀ x y, ¬ r x y) : Classes (fun x : α => x) r := by
  intro x y
  constructor
  · intro hxy
    rw [show x = y from hxy]
    exact .refl y
  · intro hxy
    induction hxy with
    | rel x y hr => exact absurd hr (h x y)
    | refl => rfl
    | symm _ _ _ ih => exact ih.symm
    | trans _ _ _ _ _ ih ih' => exact ih.trans ih'

omit [DecidableEq α] in
/-- A pair that was connected before. -/
theorem Classes.keep {root : α → α} {r r' : α → α → Prop} {a b : α} (h : Classes root r)
    (hr : ∀ x y, r' x y ↔ r x y ∨ x = a ∧ y = b) (hab : root a = root b) : Classes root r' := by
  intro x y
  constructor
  · intro hxy
    exact ((h x y).mp hxy).mono fun x y hr' => (hr x y).mpr (.inl hr')
  · intro hxy
    induction hxy with
    | rel x y hr' =>
      rcases (hr x y).mp hr' with hr' | ⟨rfl, rfl⟩
      · exact (h x y).mpr (.rel x y hr')
      · exact hab
    | refl => rfl
    | symm _ _ _ ih => exact ih.symm
    | trans _ _ _ _ _ ih ih' => exact ih.trans ih'

/-- One pair more, and the root of one end under the root of the other. -/
theorem Classes.link {root : α → α} {r r' : α → α → Prop} {a b ra rb : α} (h : Classes root r)
    (hr : ∀ x y, r' x y ↔ r x y ∨ x = a ∧ y = b) (hroots : root a = ra ∧ root b = rb ∨ root a = rb ∧ root b = ra) :
    Classes (fun x => if root x = rb then ra else root x) r' := by
  have hmono : ∀ {x y}, root x = root y → Relation.EqvGen r' x y := fun {x y} hxy =>
    ((h x y).mp hxy).mono fun x y hr' => (hr x y).mpr (.inl hr')
  have hpair : Relation.EqvGen r' a b := .rel a b ((hr a b).mpr (.inr ⟨rfl, rfl⟩))
  -- What is under `rb` is connected with what is under `ra`.
  have hcross : ∀ {x y}, root x = rb → root y = ra → Relation.EqvGen r' x y := by
    intro x y hx hy
    rcases hroots with ⟨ha, hb⟩ | ⟨ha, hb⟩
    · exact .trans _ _ _ (hmono (hx.trans hb.symm)) (.trans _ _ _ (.symm _ _ hpair) (hmono (ha.trans hy.symm)))
    · exact .trans _ _ _ (hmono (hx.trans ha.symm)) (.trans _ _ _ hpair (hmono (hb.trans hy.symm)))
  intro x y
  constructor
  · intro hxy
    dsimp only at hxy
    split at hxy
    · next hx =>
      split at hxy
      · next hy => exact hmono (hx.trans hy.symm)
      · exact hcross hx hxy.symm
    · split at hxy
      · next hy => exact .symm _ _ (hcross hy hxy)
      · exact hmono hxy
  · intro hxy
    induction hxy with
    | rel x y hr' =>
      rcases (hr x y).mp hr' with hr' | ⟨rfl, rfl⟩
      · dsimp only
        rw [(h x y).mpr (.rel x y hr')]
      · dsimp only
        rcases hroots with ⟨ha, hb⟩ | ⟨ha, hb⟩
        · rw [ha, hb, if_pos rfl, ite_eq_right_iff]
          exact fun he => rfl
        · rw [ha, hb, if_pos rfl]
          exact (ite_eq_left_iff.mpr fun _ => rfl).symm
    | refl => rfl
    | symm _ _ _ ih => exact ih.symm
    | trans _ _ _ _ _ ih ih' => exact ih.trans ih'

/-! ### Marks on the classes -/

/-- A class has a mark of one kind iff it has one of the other. -/
structure SameMarks (r : α → α → Prop) (marked wanted : α → Prop) : Prop where
  sound : ∀ x, marked x → ∃ y, Relation.EqvGen r x y ∧ wanted y
  complete : ∀ x, wanted x → ∃ y, Relation.EqvGen r x y ∧ marked y

omit [DecidableEq α] in
theorem SameMarks.mono {r r' : α → α → Prop} {marked wanted : α → Prop} (h : SameMarks r marked wanted)
    (hr : ∀ x y, r x y → r' x y) : SameMarks r' marked wanted := by
  constructor
  · intro x hx
    obtain ⟨y, hxy, hy⟩ := h.sound x hx
    exact ⟨y, hxy.mono hr, hy⟩
  · intro x hx
    obtain ⟨y, hxy, hy⟩ := h.complete x hx
    exact ⟨y, hxy.mono hr, hy⟩

omit [DecidableEq α] in
theorem SameMarks.exists_iff {r : α → α → Prop} {marked wanted : α → Prop} (h : SameMarks r marked wanted) (x : α) :
    (∃ y, Relation.EqvGen r x y ∧ marked y) ↔ ∃ y, Relation.EqvGen r x y ∧ wanted y := by
  constructor
  · rintro ⟨y, hxy, hy⟩
    obtain ⟨z, hyz, hz⟩ := h.sound y hy
    exact ⟨z, hxy.trans _ _ _ hyz, hz⟩
  · rintro ⟨y, hxy, hy⟩
    obtain ⟨z, hyz, hz⟩ := h.complete y hy
    exact ⟨z, hxy.trans _ _ _ hyz, hz⟩

end SynapseFs.Lib.Forest
