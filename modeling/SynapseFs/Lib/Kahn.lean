import Mathlib.Data.Finset.Basic
import Mathlib.Data.List.Induction
import Mathlib.Data.List.Nodup
import Mathlib.Logic.Relation
import Mathlib.Order.WellFounded
import Mathlib.Data.Fintype.EquivFin

/-! Kahn's algorithm, as the orders it makes.

A node can be placed once everything it depends on is (`Ready`). The algorithm
places the least ready node as long as there is one: `Placed` are the orders on the
way, and there is one of each length. Where the dependencies have no cycle, an
order that cannot go on has every node. -/
namespace SynapseFs.Lib.Kahn

variable {α : Type} [LinearOrder α] (nodes : Finset α) (deps : α → Finset α)

/-- It can be placed next. -/
structure Ready (order : List α) (a : α) : Prop where
  node : a ∈ nodes
  new : a ∉ order
  settled : ∀ d ∈ deps a, d ∈ order

inductive Placed : List α → Prop where
  | nil : Placed []
  | snoc {order : List α} {p : α} (h : Placed order) (hp : Ready nodes deps order p)
      (hleast : ∀ a, Ready nodes deps order a → p ≤ a) : Placed (order ++ [p])

/-- Nothing can be placed next. -/
def Complete (order : List α) : Prop := ∀ a, ¬ Ready nodes deps order a

/-- No node depends on itself, however indirectly. -/
def Acyclic : Prop := ∀ a, ¬ Relation.TransGen (fun a d => a ∈ nodes ∧ d ∈ deps a) a a

variable {nodes deps}

namespace Placed

variable {order order' : List α}

theorem nodup (h : Placed nodes deps order) : order.Nodup := by
  induction h with
  | nil => exact List.nodup_nil
  | snoc _ hp _ ih => exact List.nodup_append.mpr ⟨ih, List.nodup_singleton _, fun a ha b hb => by
      rw [List.mem_singleton.mp hb]
      exact fun he => hp.new (he ▸ ha)⟩

theorem mem_nodes (h : Placed nodes deps order) : ∀ a ∈ order, a ∈ nodes := by
  induction h with
  | nil =>
    intro a ha
    cases ha
  | snoc _ hp _ ih =>
    intro a ha
    rcases List.mem_append.mp ha with ha | ha
    · exact ih a ha
    · rw [List.mem_singleton.mp ha]
      exact hp.node

/-- Every node was ready at its turn, and the orders before it were made the same way. -/
theorem at_turn (h : Placed nodes deps order) {front back : List α} {a : α} (he : order = front ++ a :: back) :
    Placed nodes deps front ∧ Ready nodes deps front a := by
  induction h generalizing back with
  | nil => exact absurd he.symm (by simp)
  | snoc h hp _ ih =>
    rcases List.eq_nil_or_concat back with rfl | ⟨back', last, rfl⟩
    · obtain ⟨rfl, hlast⟩ := List.append_inj' he rfl
      cases hlast
      exact ⟨h, hp⟩
    · rw [List.concat_eq_append, ← List.cons_append, ← List.append_assoc] at he
      exact ih (List.append_inj' he rfl).1

/-- Dependencies come first. -/
theorem deps_first (h : Placed nodes deps order) {front back : List α} {a : α} (he : order = front ++ a :: back) :
    ∀ d ∈ deps a, d ∈ front :=
  (h.at_turn he).2.settled

/-- There is one order of each length. -/
theorem unique (h : Placed nodes deps order) : ∀ {order' : List α}, Placed nodes deps order' →
    order.length = order'.length → order = order' := by
  induction h with
  | nil =>
    intro order' _ hlen
    exact (List.length_eq_zero_iff.mp hlen.symm).symm
  | snoc h hp hleast ih =>
    intro order' h' hlen
    cases h' with
    | nil => exact absurd hlen (by simp)
    | snoc h' hp' hleast' =>
      have hfront := ih h' (by simpa using hlen)
      subst hfront
      rw [le_antisymm (hleast _ hp') (hleast' _ hp)]

/-- There is one order that cannot go on. -/
theorem complete_unique (h : Placed nodes deps order) (hc : Complete nodes deps order) (h' : Placed nodes deps order')
    (hc' : Complete nodes deps order') : order = order' := by
  have hle : ∀ {a b : List α}, Placed nodes deps a → Complete nodes deps a → Placed nodes deps b →
      b.length ≤ a.length := by
    intro a b ha hca hb
    by_contra hlt
    rw [not_le] at hlt
    have hsplit : b = b.take a.length ++ b[a.length] :: b.drop (a.length + 1) := by
      rw [List.getElem_cons_drop, List.take_append_drop]
    obtain ⟨hfront, hready⟩ := hb.at_turn hsplit
    have hsame := ha.unique hfront (by rw [List.length_take]; omega)
    rw [← hsame] at hready
    exact hca _ hready
  exact h.unique h' (le_antisymm (hle h' hc' h) (hle h hc h'))

end Placed

omit [LinearOrder α] in
/-- Without a cycle, an order that cannot go on has every node. -/
theorem Complete.all {order : List α} (hc : Complete nodes deps order) (hclosed : ∀ a ∈ nodes, ∀ d ∈ deps a, d ∈ nodes)
    (hacyclic : Acyclic nodes deps) : ∀ a ∈ nodes, a ∈ order := by
  let below : nodes → nodes → Prop := fun d a => Relation.TransGen (fun a d => a ∈ nodes ∧ d ∈ deps a) a.1 d.1
  have hwf : WellFounded below := by
    have htrans : IsTrans nodes below := ⟨fun _ _ _ hab hbc => hbc.trans hab⟩
    have hirrefl : Std.Irrefl below := ⟨fun a => hacyclic a.1⟩
    exact Finite.wellFounded_of_trans_of_irrefl below
  intro a ha
  -- The induction is on what a node depends on: if all of that is placed, the node is not left out.
  have hall : ∀ x : nodes, x.1 ∈ order := fun x => hwf.induction x fun x ih => by
    by_contra hx
    exact hc x.1 ⟨x.2, hx, fun d hd => ih ⟨d, hclosed x.1 x.2 d hd⟩ (.single ⟨x.2, hd⟩)⟩
  exact hall ⟨a, ha⟩

end SynapseFs.Lib.Kahn
