import Mathlib.Data.Finset.Card
import Mathlib.Data.String.Basic
import SynapseFs.Align.Reorder
import SynapseFs.Lib.Kahn

/-! The order in which groups are solved.

Kahn's algorithm over the groups, the ready ones sorted before each is taken; where
it does not place every group, the names in order instead. The maps are hash maps,
so the order of their entries is no property of the topology:
`topologicalGroupOrder_spec` says that the result does not depend on it. -/
namespace SynapseFs.Align
open Lib Core

def sorted (names : List String) : List String := names.mergeSort fun a b => a ≤ b

/-- What the group depends on, for every group; `operator[]` makes what is missing. -/
abbrev Dependencies := FinMap String (Finset String)

def addDependency (owner : String) (deps : Dependencies) (b : AxisBinding) : Dependencies :=
  if b.dim ≠ 0 ∧ b.group ≠ owner then deps.insert owner (insert b.group ((deps.get? owner).getD ∅)) else deps

def addTensor (deps : Dependencies) (axes : List AxisBinding) : Dependencies :=
  match dim0Binding axes with
  | none => deps
  | some owner => axes.foldl (addDependency owner.group) deps

def dependencies (topo : Topology) : Dependencies :=
  topo.tensors.entries.foldl (fun deps entry => addTensor deps entry.2) (topo.groups.mapKV fun _ _ => ∅)

structure PlaceState where
  order : List String
  ready : List String
  remaining : Dependencies

/-- One name of the inner loop, once `p` is in `order`. -/
def releaseName (order : List String) (p : String) (s : List String × Dependencies) (name : String) :
    List String × Dependencies :=
  match s.2.get? name with
  | none => s
  | some rest =>
    if p ∉ rest then s
    else
      (if rest.erase p = ∅ ∧ name ∉ order ∧ name ∉ s.1 then s.1 ++ [name] else s.1, s.2.insert name (rest.erase p))

/-- One turn of `while (!ready.empty())`, over the names in the order of the hash map. -/
def placeNext (hashOrder : List String) (s : PlaceState) : Option PlaceState :=
  match sorted s.ready with
  | [] => none
  | p :: ready =>
    let released := hashOrder.foldl (releaseName (s.order ++ [p]) p) (ready, s.remaining)
    some ⟨s.order ++ [p], released.1, released.2⟩

def placeAll (hashOrder : List String) : Nat → PlaceState → Outcome (List String)
  | 0, _ => .error .outOfFuel
  | fuel + 1, s =>
    match placeNext hashOrder s with
    | none => .ok s.order
    | some s' => placeAll hashOrder fuel s'

/-- `hashOrder` is the order in which the map of dependencies is gone through. Each
turn places a name, so there is one turn for each and one to see that there is none. -/
def topologicalGroupOrder (topo : Topology) (hashOrder : List String) : Outcome (List String) := do
  let deps := dependencies topo
  let ready := hashOrder.filter fun name => (deps.get? name).getD ∅ = ∅
  let order ← placeAll hashOrder (hashOrder.length + 1) ⟨[], ready, deps⟩
  return if order.length ≠ topo.groups.keys.length then sorted topo.groups.keys else order

/-! ### Sorting -/

theorem sorted_perm (l : List String) : (sorted l).Perm l := List.mergeSort_perm l _

theorem sorted_pairwise (l : List String) : (sorted l).Pairwise (· ≤ ·) := by
  refine (List.pairwise_mergeSort (fun a b c hab hbc => ?_) (fun a b => ?_) l).imp of_decide_eq_true
  · exact decide_eq_true ((of_decide_eq_true hab).trans (of_decide_eq_true hbc))
  · rcases le_total a b with h | h
    · rw [decide_eq_true h, Bool.true_or]
    · rw [decide_eq_true h, Bool.or_true]

/-- The order of what is sorted does not matter. -/
theorem sorted_congr {l l' : List String} (h : l.Perm l') : sorted l = sorted l' :=
  List.Perm.eq_of_pairwise (fun _ _ _ _ => le_antisymm) (sorted_pairwise l) (sorted_pairwise l')
    ((sorted_perm l).trans (h.trans (sorted_perm l').symm))

/-! ### What a group depends on -/

/-- `d` is bound to another axis of a tensor whose dim 0 is bound to `g`. -/
def DependsOn (topo : Topology) (g d : String) : Prop :=
  ∃ e ∈ topo.tensors.entries, ∃ owner, dim0Binding e.2 = some owner ∧ owner.group = g ∧
    ∃ b ∈ e.2, b.dim ≠ 0 ∧ b.group ≠ g ∧ b.group = d

/-- Every axis names a group of the topology. -/
def AxesNamed (topo : Topology) : Prop := ∀ e ∈ topo.tensors.entries, ∀ b ∈ e.2, b.group ∈ topo.groups.keys

/-- `d` is among what the map holds for `g`. -/
def Holds (deps : Dependencies) (g d : String) : Prop := ∃ s, deps.get? g = some s ∧ d ∈ s

theorem holds_addDependency {owner : String} {deps : Dependencies} {b : AxisBinding} {g d : String} :
    Holds (addDependency owner deps b) g d ↔
      Holds deps g d ∨ owner = g ∧ b.dim ≠ 0 ∧ b.group ≠ g ∧ b.group = d := by
  unfold addDependency Holds
  split
  · next h =>
    rw [FinMap.get?_insert]
    by_cases hg : g = owner
    · subst hg
      rw [if_pos rfl]
      cases hs : deps.get? g with
      | none => simp [h, eq_comm]
      | some s => simp [h, eq_comm, or_comm]
    · rw [if_neg hg]
      exact ⟨.inl, fun h => h.resolve_right fun hr => hg hr.1.symm⟩
  · next h =>
    refine ⟨.inl, fun h' => h'.resolve_right ?_⟩
    rintro ⟨rfl, hdim, hne, -⟩
    exact h ⟨hdim, hne⟩

theorem holds_addTensor {deps : Dependencies} {axes : List AxisBinding} {g d : String} :
    Holds (addTensor deps axes) g d ↔ Holds deps g d ∨
      ∃ owner, dim0Binding axes = some owner ∧ owner.group = g ∧ ∃ b ∈ axes, b.dim ≠ 0 ∧ b.group ≠ g ∧ b.group = d := by
  unfold addTensor
  cases howner : dim0Binding axes with
  | none => simp
  | some owner =>
    have hfold : ∀ (l : List AxisBinding) (deps : Dependencies), Holds (l.foldl (addDependency owner.group) deps) g d ↔
        Holds deps g d ∨ owner.group = g ∧ ∃ b ∈ l, b.dim ≠ 0 ∧ b.group ≠ g ∧ b.group = d := by
      intro l
      induction l with
      | nil => simp
      | cons b rest ih =>
        intro deps
        rw [List.foldl_cons, ih, holds_addDependency, or_assoc, List.exists_mem_cons_iff]
        tauto
    refine (hfold axes deps).trans ?_
    simp

theorem holds_dependencies {topo : Topology} {g d : String} : Holds (dependencies topo) g d ↔ DependsOn topo g d := by
  have hfold : ∀ (l : List (String × List AxisBinding)) (deps : Dependencies),
      Holds (l.foldl (fun deps entry => addTensor deps entry.2) deps) g d ↔ Holds deps g d ∨
        ∃ e ∈ l, ∃ owner, dim0Binding e.2 = some owner ∧ owner.group = g ∧
          ∃ b ∈ e.2, b.dim ≠ 0 ∧ b.group ≠ g ∧ b.group = d := by
    intro l
    induction l with
    | nil => simp
    | cons e rest ih =>
      intro deps
      rw [List.foldl_cons, ih, holds_addTensor, or_assoc, List.exists_mem_cons_iff]
  have hempty : ¬ Holds (topo.groups.mapKV fun _ _ => (∅ : Finset String)) g d := by
    rintro ⟨s, hs, hd⟩
    rw [FinMap.get?_mapKV] at hs
    obtain ⟨_, -, rfl⟩ := Option.map_eq_some_iff.mp hs
    exact absurd hd (Finset.notMem_empty d)
  exact (hfold _ _).trans ⟨fun h => h.resolve_left hempty, .inr⟩

/-- Where every axis names a group, the map has the groups for its keys. -/
theorem mem_keys_dependencies {topo : Topology} (h : AxesNamed topo) (g : String) :
    g ∈ (dependencies topo).keys ↔ g ∈ topo.groups.keys := by
  have hinsert : ∀ (deps : Dependencies) (owner : String) (b : AxisBinding), owner ∈ deps.keys →
      (addDependency owner deps b).keys.toFinset = deps.keys.toFinset := by
    intro deps owner b howner
    refine Finset.ext fun k => ?_
    rw [List.mem_toFinset, List.mem_toFinset]
    unfold addDependency
    split
    · rw [FinMap.mem_keys, FinMap.mem_keys, FinMap.get?_insert]
      split
      · next he =>
        rw [he]
        exact ⟨fun _ => FinMap.mem_keys.mp howner, fun _ => ⟨_, rfl⟩⟩
      · exact Iff.rfl
    · exact Iff.rfl
  have haxes : ∀ (l : List AxisBinding) (deps : Dependencies) (owner : String), owner ∈ deps.keys →
      (l.foldl (addDependency owner) deps).keys.toFinset = deps.keys.toFinset := by
    intro l
    induction l with
    | nil => exact fun _ _ _ => rfl
    | cons b rest ih =>
      intro deps owner howner
      have hstep := hinsert deps owner b howner
      rw [List.foldl_cons, ih _ owner (by rw [← List.mem_toFinset, hstep, List.mem_toFinset]; exact howner), hstep]
  have htensors : ∀ (l : List (String × List AxisBinding)) (deps : Dependencies),
      (∀ e ∈ l, ∀ b ∈ e.2, b.group ∈ deps.keys) →
      (l.foldl (fun deps entry => addTensor deps entry.2) deps).keys.toFinset = deps.keys.toFinset := by
    intro l
    induction l with
    | nil => exact fun _ _ => rfl
    | cons e rest ih =>
      intro deps hl
      have hstep : (addTensor deps e.2).keys.toFinset = deps.keys.toFinset := by
        unfold addTensor
        split
        · rfl
        · next owner howner => exact haxes e.2 deps _ (hl e List.mem_cons_self owner (List.mem_of_find?_eq_some howner))
      have hmem : ∀ k, k ∈ deps.keys → k ∈ (addTensor deps e.2).keys := fun k hk => by
        rw [← List.mem_toFinset, hstep, List.mem_toFinset]
        exact hk
      rw [List.foldl_cons, ih _ fun e' he' b hb => hmem _ (hl e' (List.mem_cons_of_mem _ he') b hb), hstep]
  have hkeys := htensors topo.tensors.entries (topo.groups.mapKV fun _ _ => ∅) fun e he b hb => by
    rw [FinMap.keys_mapKV]
    exact h e he b hb
  rw [FinMap.keys_mapKV] at hkeys
  rw [← List.mem_toFinset, ← List.mem_toFinset (a := g), ← hkeys]
  rfl

/-! ### The loop -/

/-- The state of the loop stands for an order that Kahn's algorithm makes. -/
structure Stands (nodes : Finset String) (deps : String → Finset String) (s : PlaceState) : Prop where
  placed : Kahn.Placed nodes deps s.order
  ready_nodup : s.ready.Nodup
  ready_iff : ∀ a, a ∈ s.ready ↔ Kahn.Ready nodes deps s.order a
  remaining : ∀ a ∈ nodes, ∃ rest, s.remaining.get? a = some rest ∧ ∀ d, d ∈ rest ↔ d ∈ deps a ∧ d ∉ s.order

section
variable {nodes : Finset String} {deps : String → Finset String}

/-- What is ready depends on nothing that was not placed before it was. -/
theorem not_depends {order : List String} {p a : String} (h : Kahn.Placed nodes deps order)
    (hp : Kahn.Ready nodes deps order p) (ha : p ∈ deps a) : a ∉ order ++ [p] ∧ ¬ Kahn.Ready nodes deps order a := by
  have hready : ¬ Kahn.Ready nodes deps order a := fun hr => hp.new (hr.settled p ha)
  refine ⟨fun hmem => ?_, hready⟩
  rcases List.mem_append.mp hmem with hmem | hmem
  · obtain ⟨front, back, rfl⟩ := List.append_of_mem hmem
    exact hp.new (List.mem_append_left _ (h.deps_first rfl p ha))
  · cases List.mem_singleton.mp hmem
    exact hready hp

/-- The inner loop after the names in `done`: those that waited for `p` alone are ready. -/
structure Released (nodes : Finset String) (deps : String → Finset String) (order ready : List String) (p : String)
    (done : List String) (s : List String × Dependencies) : Prop where
  ready_nodup : s.1.Nodup
  ready_iff : ∀ a, a ∈ s.1 ↔ a ∈ ready ∨ a ∈ done ∧ p ∈ deps a ∧ ∀ d ∈ deps a, d ∈ order ++ [p]
  remaining : ∀ a ∈ nodes, ∃ rest, s.2.get? a = some rest ∧
    ∀ d, d ∈ rest ↔ d ∈ deps a ∧ d ∉ order ∧ (a ∈ done → d ≠ p)

theorem Released.step {order ready done : List String} {p name : String} {s : List String × Dependencies}
    (h : Released nodes deps order ready p done s) (hplaced : Kahn.Placed nodes deps order)
    (hp : Kahn.Ready nodes deps order p) (hready : ∀ a ∈ ready, Kahn.Ready nodes deps order a) (hname : name ∈ nodes)
    (hnew : name ∉ done) : Released nodes deps order ready p (done ++ [name]) (releaseName (order ++ [p]) p s name) := by
  obtain ⟨rest, hrest, hmem⟩ := h.remaining name hname
  have hp_iff : p ∈ rest ↔ p ∈ deps name := by
    rw [hmem]
    exact ⟨And.left, fun hd => ⟨hd, hp.new, fun hd' => absurd hd' hnew⟩⟩
  unfold releaseName
  rw [hrest]
  dsimp only
  by_cases hdep : p ∈ deps name
  · obtain ⟨hplacedName, hreadyName⟩ := not_depends hplaced hp hdep
    have hnotReady : name ∉ s.1 := fun hin => by
      rcases (h.ready_iff name).mp hin with hin | hin
      · exact hreadyName (hready name hin)
      · exact hnew hin.1
    have herase : ∀ d, d ∈ rest.erase p ↔ d ∈ deps name ∧ d ∉ order ++ [p] := fun d => by
      rw [Finset.mem_erase, hmem, List.mem_append, List.mem_singleton]
      tauto
    have hempty : rest.erase p = ∅ ↔ ∀ d ∈ deps name, d ∈ order ++ [p] := by
      rw [Finset.eq_empty_iff_forall_notMem]
      refine forall_congr' fun d => ?_
      rw [herase]
      tauto
    rw [if_neg (not_not.mpr (hp_iff.mpr hdep))]
    refine ⟨?_, fun a => ?_, fun a ha => ?_⟩
    · split
      · exact List.nodup_append.mpr ⟨h.ready_nodup, List.nodup_singleton _, fun a ha b hb => by
          rw [List.mem_singleton.mp hb]
          exact fun he => hnotReady (he ▸ ha)⟩
      · exact h.ready_nodup
    · by_cases ha : a = name
      · subst ha
        simp only [hempty, hplacedName, hnotReady, not_false_eq_true, and_true]
        split
        · next hall => exact ⟨fun _ => .inr ⟨by simp, hdep, hall⟩, fun _ => by simp⟩
        · next hall =>
          refine ⟨fun hin => absurd hin hnotReady, ?_⟩
          rintro (hin | ⟨-, -, hall'⟩)
          · exact absurd (hready a hin) hreadyName
          · exact absurd hall' hall
      · have hlist : a ∈ done ++ [name] ↔ a ∈ done := by simp [ha]
        rw [hlist, ← h.ready_iff a]
        split
        · simp [ha]
        · exact Iff.rfl
    · by_cases he : a = name
      · subst he
        refine ⟨rest.erase p, FinMap.get?_insert_self _ _ _, fun d => ?_⟩
        rw [herase, List.mem_append, List.mem_append, List.mem_singleton]
        simp
      · obtain ⟨resta, hresta, hmema⟩ := h.remaining a ha
        refine ⟨resta, by rw [FinMap.get?_insert_ne _ _ he, hresta], fun d => ?_⟩
        rw [hmema, List.mem_append, List.mem_singleton]
        simp [he]
  · rw [if_pos (by rw [hp_iff]; exact hdep)]
    refine ⟨h.ready_nodup, fun a => ?_, fun a ha => ?_⟩
    · rw [h.ready_iff a, List.mem_append, List.mem_singleton]
      by_cases he : a = name
      · subst he
        simp [hdep]
      · simp [he]
    · obtain ⟨resta, hresta, hmema⟩ := h.remaining a ha
      refine ⟨resta, hresta, fun d => ?_⟩
      rw [hmema, List.mem_append, List.mem_singleton]
      by_cases he : a = name
      · subst he
        refine ⟨fun hd => ⟨hd.1, hd.2.1, fun _ hdp => hdep (hdp ▸ hd.1)⟩, fun hd => ⟨hd.1, hd.2.1, fun hin => absurd hin hnew⟩⟩
      · simp [he]

theorem Released.run {order ready : List String} {p : String} (hplaced : Kahn.Placed nodes deps order)
    (hp : Kahn.Ready nodes deps order p) (hready : ∀ a ∈ ready, Kahn.Ready nodes deps order a) (names : List String) :
    ∀ (done : List String) (s : List String × Dependencies), Released nodes deps order ready p done s →
    (∀ n ∈ names, n ∈ nodes) → (done ++ names).Nodup →
    Released nodes deps order ready p (done ++ names) (names.foldl (releaseName (order ++ [p]) p) s) := by
  induction names with
  | nil =>
    intro done s h _ _
    rwa [List.append_nil]
  | cons n rest ih =>
    intro done s h hnodes hnd
    rw [List.append_cons] at hnd ⊢
    have hnew : n ∉ done := fun hin =>
      List.disjoint_of_nodup_append (List.nodup_append.mp hnd).1 hin (List.mem_singleton_self n)
    exact ih (done ++ [n]) _ (h.step hplaced hp hready (hnodes n List.mem_cons_self) hnew)
      (fun m hm => hnodes m (List.mem_cons_of_mem _ hm)) hnd

/-- A turn places the least ready name, and what that releases is ready. -/
theorem Stands.step {hashOrder : List String} {s s' : PlaceState} (h : Stands nodes deps s)
    (hhash : hashOrder.Nodup) (hnodes : ∀ n, n ∈ hashOrder ↔ n ∈ nodes) (hs : placeNext hashOrder s = some s') :
    Stands nodes deps s' ∧ s'.order.length = s.order.length + 1 := by
  unfold placeNext at hs
  split at hs
  · cases hs
  · next p ready hsort =>
    cases hs
    have hperm : (p :: ready).Perm s.ready := hsort ▸ sorted_perm s.ready
    obtain ⟨hleast, -⟩ := List.pairwise_cons.mp (hsort ▸ sorted_pairwise s.ready)
    obtain ⟨hout, hnd⟩ := List.nodup_cons.mp (hperm.nodup_iff.mpr h.ready_nodup)
    have hmem : ∀ a, a ∈ p :: ready ↔ Kahn.Ready nodes deps s.order a := fun a => hperm.mem_iff.trans (h.ready_iff a)
    have hp := (hmem p).mp List.mem_cons_self
    have hready : ∀ a ∈ ready, Kahn.Ready nodes deps s.order a := fun a ha => (hmem a).mp (List.mem_cons_of_mem _ ha)
    have hstart : Released nodes deps s.order ready p [] (ready, s.remaining) := by
      refine ⟨hnd, fun a => by simp, fun a ha => ?_⟩
      obtain ⟨rest, hrest, hd⟩ := h.remaining a ha
      exact ⟨rest, hrest, fun d => by rw [hd d]; simp⟩
    have hrun := Released.run h.placed hp hready hashOrder [] _ hstart (fun n hn => (hnodes n).mp hn)
      (by rwa [List.nil_append])
    rw [List.nil_append] at hrun
    refine ⟨⟨h.placed.snoc hp fun a ha => ?_, hrun.ready_nodup, fun a => ?_, fun a ha => ?_⟩, by simp⟩
    · rcases List.mem_cons.mp ((hmem a).mpr ha) with rfl | ha
      · exact le_rfl
      · exact hleast a ha
    · rw [hrun.ready_iff, hnodes]
      constructor
      · rintro (hin | ⟨hnode, hdep, hall⟩)
        · have hr := hready a hin
          refine ⟨hr.node, fun hplaced => ?_, fun d hd => List.mem_append_left _ (hr.settled d hd)⟩
          rcases List.mem_append.mp hplaced with hplaced | hplaced
          · exact hr.new hplaced
          · exact hout (List.mem_singleton.mp hplaced ▸ hin)
        · exact ⟨hnode, (not_depends h.placed hp hdep).1, hall⟩
      · intro hr
        by_cases hdep : p ∈ deps a
        · exact .inr ⟨hr.node, hdep, hr.settled⟩
        · refine .inl ?_
          have hbefore : Kahn.Ready nodes deps s.order a := by
            refine ⟨hr.node, fun hin => hr.new (List.mem_append_left _ hin), fun d hd => ?_⟩
            rcases List.mem_append.mp (hr.settled d hd) with hin | hin
            · exact hin
            · exact absurd (List.mem_singleton.mp hin ▸ hd) hdep
          rcases List.mem_cons.mp ((hmem a).mpr hbefore) with rfl | hin
          · exact absurd (List.mem_append_right _ (List.mem_singleton_self _)) hr.new
          · exact hin
    · obtain ⟨rest, hrest, hd⟩ := hrun.remaining a ha
      refine ⟨rest, hrest, fun d => ?_⟩
      rw [hd d, List.mem_append, List.mem_singleton, hnodes]
      exact ⟨fun h => ⟨h.1, fun h' => h'.elim h.2.1 (h.2.2 ha)⟩,
        fun h => ⟨h.1, fun h' => h.2 (.inl h'), fun _ h' => h.2 (.inr h')⟩⟩

/-- The loop comes to the end, and there nothing is ready. -/
theorem Stands.run {hashOrder : List String} (hhash : hashOrder.Nodup) (hnodes : ∀ n, n ∈ hashOrder ↔ n ∈ nodes) :
    ∀ (fuel : Nat) (s : PlaceState), Stands nodes deps s → hashOrder.length < fuel + s.order.length →
    ∃ order, placeAll hashOrder fuel s = .ok order ∧ Kahn.Placed nodes deps order ∧ Kahn.Complete nodes deps order := by
  intro fuel
  induction fuel with
  | zero =>
    intro s h hfuel
    have hsub : s.order ⊆ hashOrder := fun a ha => (hnodes a).mpr (h.placed.mem_nodes a ha)
    have := (List.subperm_of_subset h.placed.nodup hsub).length_le
    omega
  | succ fuel ih =>
    intro s h hfuel
    unfold placeAll
    cases hs : placeNext hashOrder s with
    | some s' =>
      obtain ⟨h', hlen⟩ := h.step hhash hnodes hs
      exact ih s' h' (by omega)
    | none =>
      refine ⟨s.order, rfl, h.placed, fun a ha => ?_⟩
      unfold placeNext at hs
      split at hs
      · next hsort =>
        have hnil : s.ready = [] := (hsort ▸ sorted_perm s.ready).nil_eq.symm
        have hin := (h.ready_iff a).mpr ha
        rw [hnil] at hin
        cases hin
      · cases hs

end

/-! ### The order -/

/-- The groups and what they depend on, as sets. -/
def nodesOf (topo : Topology) : Finset String := topo.groups.keys.toFinset

def depsOf (topo : Topology) (g : String) : Finset String := ((dependencies topo).get? g).getD ∅

theorem mem_depsOf {topo : Topology} {g d : String} : d ∈ depsOf topo g ↔ DependsOn topo g d := by
  rw [← holds_dependencies, depsOf, Holds]
  cases (dependencies topo).get? g with
  | none => simp
  | some s => simp

/-- A topology, up to the order of its hash maps. -/
structure SameContent (a b : Topology) : Prop where
  groups : a.groups.entries.Perm b.groups.entries
  tensors : a.tensors.entries.Perm b.tensors.entries

section
variable {topo topo' : Topology}

theorem SameContent.keys (h : SameContent topo' topo) : topo'.groups.keys.Perm topo.groups.keys := h.groups.map _

theorem SameContent.nodesOf_eq (h : SameContent topo' topo) : nodesOf topo' = nodesOf topo :=
  Finset.ext fun a => by
    rw [nodesOf, nodesOf, List.mem_toFinset, List.mem_toFinset]
    exact h.keys.mem_iff

theorem SameContent.depsOf_eq (h : SameContent topo' topo) : depsOf topo' = depsOf topo := by
  funext g
  refine Finset.ext fun d => ?_
  rw [mem_depsOf, mem_depsOf, DependsOn, DependsOn]
  simp only [h.tensors.mem_iff]

theorem SameContent.axesNamed (h : SameContent topo' topo) (hn : AxesNamed topo) : AxesNamed topo' := fun e he b hb =>
  h.keys.mem_iff.mpr (hn e (h.tensors.mem_iff.mp he) b hb)

/-- Kahn's order, and the fallback where it leaves a group out. -/
theorem topologicalGroupOrder_eq {hashOrder : List String} (hn : AxesNamed topo)
    (hhash : hashOrder.Perm (dependencies topo).keys) :
    ∃ order, Kahn.Placed (nodesOf topo) (depsOf topo) order ∧ Kahn.Complete (nodesOf topo) (depsOf topo) order ∧
      topologicalGroupOrder topo hashOrder =
        .ok (if order.length ≠ topo.groups.keys.length then sorted topo.groups.keys else order) := by
  have hnd : hashOrder.Nodup := hhash.nodup_iff.mpr (dependencies topo).nodup
  have hnodes : ∀ n, n ∈ hashOrder ↔ n ∈ nodesOf topo := fun n => by
    rw [hhash.mem_iff, mem_keys_dependencies hn, nodesOf, List.mem_toFinset]
  have hstart : Stands (nodesOf topo) (depsOf topo)
      ⟨[], hashOrder.filter fun name => ((dependencies topo).get? name).getD ∅ = ∅, dependencies topo⟩ := by
    refine ⟨.nil, hnd.filter _, fun a => ?_, fun a ha => ?_⟩
    · rw [List.mem_filter, hnodes, decide_eq_true_eq, Finset.eq_empty_iff_forall_notMem]
      exact ⟨fun h => ⟨h.1, List.not_mem_nil, fun d hd => absurd hd (h.2 d)⟩,
        fun h => ⟨h.node, fun d hd => absurd (h.settled d hd) List.not_mem_nil⟩⟩
    · rw [← hnodes, hhash.mem_iff] at ha
      obtain ⟨rest, hrest⟩ := FinMap.mem_keys.mp ha
      exact ⟨rest, hrest, fun d => by simp [depsOf, hrest]⟩
  obtain ⟨order, horder, hplaced, hcomplete⟩ := Stands.run hnd hnodes (hashOrder.length + 1) _ hstart (by simp)
  exact ⟨order, hplaced, hcomplete, bind_eq_ok.mpr ⟨order, horder, rfl⟩⟩

end

/-- The order has each group once; where the dependencies have no cycle, each after
all that it depends on; and it is one order, whichever way the hash maps are gone through. -/
theorem topologicalGroupOrder_spec (topo : Topology) (hn : AxesNamed topo) :
    ∃ order, (∀ topo' hashOrder, SameContent topo' topo → hashOrder.Perm (dependencies topo').keys →
        topologicalGroupOrder topo' hashOrder = .ok order) ∧
      order.Perm topo.groups.keys ∧
      ((∀ g, ¬ Relation.TransGen (DependsOn topo) g g) →
        ∀ front g back, order = front ++ g :: back → ∀ d, DependsOn topo g d → d ∈ front) := by
  obtain ⟨order, hplaced, hcomplete, -⟩ := topologicalGroupOrder_eq hn (List.Perm.refl (dependencies topo).keys)
  have hkeys : topo.groups.keys.Nodup := topo.groups.nodup
  refine ⟨if order.length ≠ topo.groups.keys.length then sorted topo.groups.keys else order, ?_, ?_, ?_⟩
  · intro topo' hashOrder hsame hhash
    obtain ⟨order', hplaced', hcomplete', heq⟩ := topologicalGroupOrder_eq (hsame.axesNamed hn) hhash
    rw [hsame.nodesOf_eq, hsame.depsOf_eq] at hplaced' hcomplete'
    rw [heq, hplaced'.complete_unique hcomplete' hplaced hcomplete, hsame.keys.length_eq, sorted_congr hsame.keys]
  · split
    · exact sorted_perm _
    · next hlen =>
      refine (List.subperm_of_subset hplaced.nodup fun a ha => ?_).perm_of_length_le (not_not.mp hlen).ge
      exact List.mem_toFinset.mp (hplaced.mem_nodes a ha)
  · intro hacyclic front g back he d hd
    have hclosed : ∀ a ∈ nodesOf topo, ∀ d ∈ depsOf topo a, d ∈ nodesOf topo := by
      intro a _ d hd
      obtain ⟨e, he, _, -, -, b, hb, -, -, rfl⟩ := mem_depsOf.mp hd
      exact List.mem_toFinset.mpr (hn e he b hb)
    have hacyclic' : Kahn.Acyclic (nodesOf topo) (depsOf topo) := fun a ha =>
      hacyclic a (ha.lift id fun _ _ h => mem_depsOf.mp h.2)
    have hall := hcomplete.all hclosed hacyclic'
    have hlen : order.length = topo.groups.keys.length :=
      le_antisymm (List.subperm_of_subset hplaced.nodup fun a ha =>
          List.mem_toFinset.mp (hplaced.mem_nodes a ha)).length_le
        (List.subperm_of_subset hkeys fun a ha => hall a (List.mem_toFinset.mpr ha)).length_le
    rw [if_neg (not_not.mpr hlen)] at he
    exact hplaced.deps_first he d (mem_depsOf.mpr hd)

/-- Three layers, each fed by the one before. -/
def layers : Topology where
  groups := ⟨[("c", ⟨4, false⟩), ("a", ⟨4, true⟩), ("b", ⟨4, false⟩)], by decide⟩
  tensors := ⟨[("w1", [⟨0, "b", 1⟩, ⟨1, "a", 1⟩]), ("w2", [⟨1, "b", 1⟩, ⟨0, "c", 1⟩])], by decide⟩

theorem layers_depends {g d : String} (h : DependsOn layers g d) : d < g := by
  obtain ⟨e, he, owner, howner, rfl, b, hb, hdim, -, rfl⟩ := h
  simp only [layers, List.mem_cons, List.not_mem_nil, or_false] at he
  rcases he with rfl | rfl
  · cases howner
    rcases List.mem_cons.mp hb with rfl | hb
    · exact absurd rfl hdim
    · cases List.mem_singleton.mp hb
      decide
  · cases howner
    rcases List.mem_cons.mp hb with rfl | hb
    · decide
    · cases List.mem_singleton.mp hb
      exact absurd rfl hdim

theorem layers_ordered : ∃ order, topologicalGroupOrder layers ["c", "a", "b"] = .ok order ∧
    topologicalGroupOrder layers ["b", "c", "a"] = .ok order ∧ order.Perm ["c", "a", "b"] ∧
    ∀ front g back, order = front ++ g :: back → ∀ d, DependsOn layers g d → d ∈ front := by
  have hn : AxesNamed layers := by
    unfold AxesNamed
    decide
  have hacyclic : ∀ g, ¬ Relation.TransGen (DependsOn layers) g g := by
    intro g h
    have hlt : ∀ {a b}, Relation.TransGen (DependsOn layers) a b → b < a := by
      intro a b h
      induction h with
      | single h => exact layers_depends h
      | tail _ h ih => exact (layers_depends h).trans ih
    exact absurd (hlt h) (lt_irrefl g)
  obtain ⟨order, hsame, hperm, hfirst⟩ := topologicalGroupOrder_spec layers hn
  have hself : SameContent layers layers := ⟨List.Perm.refl _, List.Perm.refl _⟩
  exact ⟨order, hsame layers _ hself (by decide), hsame layers _ hself (by decide), hperm, hfirst hacyclic⟩

end SynapseFs.Align
