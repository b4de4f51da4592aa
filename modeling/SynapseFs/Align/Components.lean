import SynapseFs.Align.Graph

/-! The groups that `finalize` makes of the axes.

`finalize` climbs from every axis twice, halving as it goes, once to collect the
trees and once to bind the axes. `Finalized` is what the topology owes the calls:
one group for the axes that they connect, pinned where they pin one of these, and
each axis a whole number of blocks of it. -/
namespace SynapseFs.Align.AxisOp
open Lib Core AxisUnionFind

/-- `shapes` has the length of every axis. -/
def Recorded (ops : List AxisOp) (shapes : FinMap String (List Nat)) : Prop :=
  ∀ key len, (key, len) ∈ added ops → ∃ shape, shapes.get? key.tensor = some shape ∧ shape[key.dim]? = some len

structure Finalized (ops : List AxisOp) (topo : Topology) (group : Nat → String) : Prop where
  same : ∀ a b, a < (added ops).length → b < (added ops).length → (group a = group b ↔ Connected ops a b)
  bound : ∀ h key len, (added ops)[h]? = some (key, len) →
    ∃ g block bindings, topo.findGroup (group h) = some g ∧ topo.tensors.get? key.tensor = some bindings ∧
      ⟨key.dim, group h, block⟩ ∈ bindings ∧ len = g.size * block ∧
      (g.pinned = true ↔ ∃ m, Connected ops h m ∧ Pinned ops m)
  once : ∀ tensor bindings, topo.tensors.get? tensor = some bindings → (bindings.map AxisBinding.dim).Nodup ∧
    ∀ b ∈ bindings, ⟨tensor, b.dim⟩ ∈ (added ops).map Prod.fst
  named : ∀ name ∈ topo.groups.keys, ∃ h < (added ops).length, group h = name
  valid : ∀ shapes, Recorded ops shapes → topo.validate shapes = .ok ()

/-! ### The trees -/

section
variable {ops : List AxisOp} {uf : AxisUnionFind} {root : Nat → Nat}

/-- The axes by their roots. -/
def trees (n : Nat) (root : Nat → Nat) : FinMap Nat (List Nat) :=
  ((List.range n).map fun i => (root i, i)).foldl (fun m e => m.push e.1 e.2) .empty

theorem membersByRoot_spec (h : Built ops uf root) (hsmall : (added ops).length < 2 ^ 32) :
    ∃ uf', uf.membersByRoot = .ok (uf', trees (added ops).length root) ∧ Built ops uf' root := by
  have hloop : ∀ step : AxisUnionFind × FinMap Nat (List Nat) → Nat → Outcome (AxisUnionFind × FinMap Nat (List Nat)),
      (∀ uf m i r uf', uf.find i = .ok (r, uf') → step (uf, m) i = .ok (uf', m.push r i)) →
      ∀ (l : List Nat) (uf : AxisUnionFind) (m : FinMap Nat (List Nat)), (∀ i ∈ l, i < (added ops).length) →
      Built ops uf root → ∃ uf', l.foldlM step (uf, m) =
        .ok (uf', (l.map fun i => (root i, i)).foldl (fun m e => m.push e.1 e.2) m) ∧ Built ops uf' root := by
    intro step hstep l
    induction l with
    | nil => exact fun uf m _ h => ⟨uf, rfl, h⟩
    | cons i rest ih =>
      intro uf m hl h
      obtain ⟨uf₁, hfind, h₁, -⟩ := h.find (hl i List.mem_cons_self)
      obtain ⟨uf₂, hrest, h₂⟩ := ih uf₁ (m.push (root i) i) (fun j hj => hl j (List.mem_cons_of_mem _ hj)) h₁
      refine ⟨uf₂, ?_, h₂⟩
      rw [List.foldlM_cons]
      exact bind_eq_ok.mpr ⟨_, hstep _ _ _ _ _ hfind, hrest⟩
  rw [membersByRoot, h.length, if_neg (by omega)]
  refine hloop _ ?_ (List.range (added ops).length) uf .empty (fun i hi => List.mem_range.mp hi) h
  intro uf m i r uf' hfind
  exact bind_eq_ok.mpr ⟨_, hfind, rfl⟩

theorem mem_trees {n r : Nat} {members : List Nat} (h : (r, members) ∈ (trees n root).entries) :
    members = (List.range n).filter (fun i => root i = r) ∧ ∃ i < n, root i = r := by
  have hget := FinMap.get?_eq_some.mpr h
  have hkeys := FinMap.mem_keys_of_mem h
  constructor
  · rw [FinMap.get?_foldl_push hget, List.filter_map, List.map_map]
    simp [Function.comp_def]
  · rw [trees, FinMap.mem_keys_foldl_push] at hkeys
    simpa [FinMap.keys, FinMap.empty] using hkeys

theorem exists_tree {n i : Nat} (hi : i < n) : ∃ members, (root i, members) ∈ (trees n root).entries := by
  have hkeys : root i ∈ (trees n root).keys := by
    rw [trees, FinMap.mem_keys_foldl_push]
    exact .inr (List.mem_map.mpr ⟨(root i, i), List.mem_map.mpr ⟨i, List.mem_range.mpr hi, rfl⟩, rfl⟩)
  obtain ⟨members, hget⟩ := FinMap.mem_keys.mp hkeys
  exact ⟨members, FinMap.get?_eq_some.mp hget⟩

/-! ### Their groups -/

/-- The group of the tree of `h`. -/
structure GroupFor (ops : List AxisOp) (h : Nat) (g : PermGroup) : Prop where
  size : IsLeast (lengths ops h) g.size
  pinned : g.pinned = true ↔ ∃ m, Connected ops h m ∧ Pinned ops m

theorem foldl_min_spec {β : Type} (f : β → Nat) (l : List β) (top : Nat) :
    l.foldl (fun m b => min m (f b)) top ∈ top :: l.map f ∧
      ∀ v ∈ top :: l.map f, l.foldl (fun m b => min m (f b)) top ≤ v := by
  refine List.min?_eq_some_iff.mp ?_
  rw [List.min?_cons', List.foldl_map]

/-- What `mapM` reads is what is in the list. -/
theorem mem_nodes_iff {members : List Nat} {nodes : List AxisUnionFind.Node}
    (h : members.mapM uf.node = .ok nodes) (n : AxisUnionFind.Node) :
    n ∈ nodes ↔ ∃ j ∈ members, uf.nodes[j]? = some n := by
  constructor
  · intro hn
    obtain ⟨j, hj, hnode⟩ := exists_of_mapM h hn
    exact ⟨j, hj, node_eq_ok.mp hnode⟩
  · rintro ⟨j, hj, hn⟩
    obtain ⟨hlen, hall⟩ := mapM_eq_ok h
    obtain ⟨k, hk, rfl⟩ := List.mem_iff_getElem.mp hj
    have hread := node_eq_ok.mp (hall k hk (hlen.symm ▸ hk))
    rw [hn] at hread
    rw [Option.some.inj hread]
    exact List.getElem_mem _

theorem Built.axis (h : Built ops uf root) {j : Nat} {n : AxisUnionFind.Node} (hn : uf.nodes[j]? = some n) :
    (added ops)[j]? = some (n.key, n.len) := by
  rw [← h.axes, AxisUnionFind.axes, List.getElem?_map, hn]
  rfl

/-- The lengths and the marks of a tree are those of what the calls connect. -/
theorem groupOf_spec (h : Built ops uf root) (hlen : ∀ a ∈ added ops, a.2 < 2 ^ 32) {i : Nat}
    (hi : i < (added ops).length) :
    ∃ g, uf.groupOf ((List.range (added ops).length).filter fun j => root j = root i) = .ok g ∧ GroupFor ops i g := by
  have hmem : ∀ j, j ∈ (List.range (added ops).length).filter (fun j => root j = root i) ↔
      j < (added ops).length ∧ Connected ops i j := by
    intro j
    rw [List.mem_filter, List.mem_range, decide_eq_true_eq, eq_comm, h.classes]
  obtain ⟨nodes, hnodes⟩ := exists_mapM_ok (f := uf.node)
    (l := (List.range (added ops).length).filter fun j => root j = root i) (by
      intro j hj
      obtain ⟨n, hn⟩ := exists_node (h.length.symm ▸ ((hmem j).mp hj).1)
      exact ⟨n, node_eq_ok.mpr hn⟩)
  have hread : ∀ n, n ∈ nodes ↔ ∃ j, Connected ops i j ∧ uf.nodes[j]? = some n := by
    intro n
    rw [mem_nodes_iff hnodes]
    constructor
    · rintro ⟨j, hj, hn⟩
      exact ⟨j, ((hmem j).mp hj).2, hn⟩
    · rintro ⟨j, hj, hn⟩
      exact ⟨j, (hmem j).mpr ⟨h.length ▸ (List.getElem?_eq_some_iff.mp hn).1, hj⟩, hn⟩
  have hlengths : ∀ x, x ∈ lengths ops i ↔ ∃ n ∈ nodes, x = n.len := by
    intro x
    constructor
    · rintro ⟨j, key, hj, hconn⟩
      obtain ⟨n, hn⟩ := exists_node (h.length.symm ▸ (List.getElem?_eq_some_iff.mp hj).1)
      rw [h.axis hn] at hj
      cases hj
      exact ⟨n, (hread n).mpr ⟨j, hconn, hn⟩, rfl⟩
    · rintro ⟨n, hn, rfl⟩
      obtain ⟨j, hconn, hn⟩ := (hread n).mp hn
      exact ⟨j, n.key, h.axis hn, hconn⟩
  have hsmall : ∀ n ∈ nodes, n.len < 2 ^ 32 := by
    intro n hn
    obtain ⟨j, -, hn⟩ := (hread n).mp hn
    exact hlen _ (List.mem_of_getElem? (h.axis hn))
  obtain ⟨hleast, hall⟩ := foldl_min_spec AxisUnionFind.Node.len nodes (2 ^ 64 - 1)
  have hle := fun n (hn : n ∈ nodes) => hall _ (List.mem_cons_of_mem _ (List.mem_map_of_mem hn))
  have hin : ∃ n ∈ nodes, nodes.foldl (fun m n => min m n.len) (2 ^ 64 - 1) = n.len := by
    obtain ⟨n, hn⟩ := exists_node (h.length.symm ▸ hi)
    have hn := (hread n).mpr ⟨i, .refl i, hn⟩
    rcases List.mem_cons.mp hleast with heq | hmem
    · have := hle n hn
      have := hsmall n hn
      omega
    · obtain ⟨least, hmem, heq⟩ := List.mem_map.mp hmem
      exact ⟨least, hmem, heq.symm⟩
  obtain ⟨least, hleast, heq⟩ := hin
  refine ⟨_, bind_eq_ok.mpr ⟨nodes, hnodes, rfl⟩, ⟨?_, fun x hx => ?_⟩, ?_⟩
  · dsimp only
    rw [heq, u32_of_lt (hsmall least hleast)]
    exact (hlengths _).mpr ⟨least, hleast, rfl⟩
  · obtain ⟨n, hn, rfl⟩ := (hlengths x).mp hx
    dsimp only
    rw [heq, u32_of_lt (hsmall least hleast), ← heq]
    exact hle n hn
  · rw [← h.marks.exists_iff i, List.any_eq_true]
    constructor
    · rintro ⟨n, hn, hp⟩
      obtain ⟨j, hconn, hn⟩ := (hread n).mp hn
      exact ⟨j, hconn, n, hn, hp⟩
    · rintro ⟨j, hconn, n, hn, hp⟩
      exact ⟨n, (hread n).mpr ⟨j, hconn, hn⟩, hp⟩

theorem groupName_inj {a b : Nat} (ha : a < 2 ^ 32) (hb : b < 2 ^ 32) (h : groupName a = groupName b) : a = b := by
  rw [groupName, groupName, u32_of_lt ha, u32_of_lt hb, String.append_right_inj] at h
  have h : Nat.repr a = Nat.repr b := h
  have hdigits := congrArg String.toList h
  rw [Nat.repr, Nat.repr, String.toList_ofList, String.toList_ofList] at hdigits
  rw [← Nat.ofDigitChars_ten_toDigits (n := a), hdigits, Nat.ofDigitChars_ten_toDigits]

/-- The two maps, once the trees of `order` have their names. -/
structure Named (uf : AxisUnionFind) (order : List (Nat × List Nat)) (rootToGroup : FinMap Nat String)
    (groups : FinMap String PermGroup) : Prop where
  named : ∀ id r members, order[id]? = some (r, members) → rootToGroup.get? r = some (groupName id) ∧
    ∃ g, uf.groupOf members = .ok g ∧ groups.get? (groupName id) = some g
  roots : ∀ r ∈ rootToGroup.keys, r ∈ order.map Prod.fst
  names : ∀ name ∈ groups.keys, ∃ id < order.length, name = groupName id

theorem nameGroups_spec (order : List (Nat × List Nat)) (hnd : (order.map Prod.fst).Nodup) (hsmall : order.length < 2 ^ 32)
    (hgroup : ∀ e ∈ order, ∃ g, uf.groupOf e.2 = .ok g) :
    ∃ rootToGroup groups, order.zipIdx.foldlM uf.nameGroup (.empty, .empty) = .ok (rootToGroup, groups) ∧
      Named uf order rootToGroup groups := by
  induction order using List.reverseRecOn with
  | nil =>
    refine ⟨.empty, .empty, rfl, fun id r members h => absurd h (by simp), fun r hr => ?_, fun name hn => ?_⟩
    · exact absurd hr List.not_mem_nil
    · exact absurd hn List.not_mem_nil
  | append_singleton order e ih =>
    obtain ⟨root, members⟩ := e
    rw [List.map_append, List.map_singleton, List.nodup_append] at hnd
    rw [List.length_append, List.length_singleton] at hsmall
    obtain ⟨rootToGroup, groups, hrun, hnamed⟩ := ih hnd.1 (by omega) fun e he => hgroup e (List.mem_append_left _ he)
    obtain ⟨g, hg⟩ := hgroup (root, members) (List.mem_append_right _ (List.mem_singleton_self _))
    have hroot : root ∉ rootToGroup.keys := fun hmem =>
      hnd.2.2 root (hnamed.roots root hmem) root (List.mem_singleton_self _) rfl
    have hname : groupName order.length ∉ groups.keys := by
      intro hmem
      obtain ⟨id, hid, heq⟩ := hnamed.names _ hmem
      have := groupName_inj (by omega) (by omega) heq
      omega
    refine ⟨rootToGroup.emplace root (groupName order.length), groups.emplace (groupName order.length) g, ?_, ?_⟩
    · rw [List.zipIdx_append, List.foldlM_append, hrun, Nat.zero_add]
      exact bind_eq_ok.mpr ⟨_, rfl, bind_eq_ok.mpr ⟨_, bind_eq_ok.mpr ⟨g, hg, rfl⟩, rfl⟩⟩
    · constructor
      · intro id r ms hid
        rw [FinMap.get?_emplace_new _ hroot, FinMap.get?_emplace_new _ hname]
        rcases lt_or_ge id order.length with hlt | hge
        · rw [List.getElem?_append_left hlt] at hid
          obtain ⟨hr, g', hg', hget⟩ := hnamed.named id r ms hid
          have hne : r ≠ root := fun he => hroot (he ▸ FinMap.mem_keys.mpr ⟨_, hr⟩)
          have hne' : groupName id ≠ groupName order.length := fun he => hname (he ▸ FinMap.mem_keys.mpr ⟨_, hget⟩)
          rw [if_neg hne, if_neg hne']
          exact ⟨hr, g', hg', hget⟩
        · rw [List.getElem?_append_right hge, List.getElem?_singleton] at hid
          obtain ⟨hzero, heq⟩ := Option.ite_none_right_eq_some.mp hid
          cases heq
          have hid' : id = order.length := by omega
          rw [hid', if_pos rfl, if_pos rfl]
          exact ⟨rfl, g, hg, rfl⟩
      · intro r hr
        obtain ⟨name, hget⟩ := FinMap.mem_keys.mp hr
        rw [FinMap.get?_emplace_new _ hroot] at hget
        rw [List.map_append, List.mem_append]
        by_cases he : r = root
        · exact .inr (he ▸ List.mem_singleton_self _)
        · rw [if_neg he] at hget
          exact .inl (hnamed.roots r (FinMap.mem_keys.mpr ⟨name, hget⟩))
      · intro name hn
        obtain ⟨g', hget⟩ := FinMap.mem_keys.mp hn
        rw [FinMap.get?_emplace_new _ hname] at hget
        rw [List.length_append, List.length_singleton]
        by_cases he : name = groupName order.length
        · exact ⟨order.length, Nat.lt_succ_self _, he⟩
        · rw [if_neg he] at hget
          obtain ⟨id, hid, heq⟩ := hnamed.names name (FinMap.mem_keys.mpr ⟨g', hget⟩)
          exact ⟨id, Nat.lt_succ_of_lt hid, heq⟩

/-- Every axis has a group by its root, trees have groups of their own, and no group is without a tree. -/
structure Grouped (ops : List AxisOp) (root : Nat → Nat) (rootToGroup : FinMap Nat String)
    (groups : FinMap String PermGroup) (group : Nat → String) (g : Nat → PermGroup) : Prop where
  name : ∀ i < (added ops).length, rootToGroup.get? (root i) = some (group i)
  get : ∀ i < (added ops).length, groups.get? (group i) = some (g i)
  isFor : ∀ i < (added ops).length, GroupFor ops i (g i)
  same : ∀ i < (added ops).length, ∀ j < (added ops).length, group i = group j ↔ root i = root j
  names : ∀ name ∈ groups.keys, ∃ i < (added ops).length, group i = name

theorem nameTrees_spec (h : Built ops uf root) (hlen : ∀ a ∈ added ops, a.2 < 2 ^ 32)
    (hsmall : (added ops).length < 2 ^ 32) {order : List (Nat × List Nat)}
    (horder : order.Perm (trees (added ops).length root).entries) :
    ∃ rootToGroup groups group g, order.zipIdx.foldlM uf.nameGroup (.empty, .empty) = .ok (rootToGroup, groups) ∧
      Grouped ops root rootToGroup groups group g := by
  have htree : ∀ r members, (r, members) ∈ order → ∃ i < (added ops).length, r = root i ∧
      ∃ g, uf.groupOf members = .ok g ∧ GroupFor ops i g := by
    intro r members he
    obtain ⟨rfl, i, hi, rfl⟩ := mem_trees (horder.mem_iff.mp he)
    exact ⟨i, hi, rfl, groupOf_spec h hlen hi⟩
  have hnd : (order.map Prod.fst).Nodup := (horder.map Prod.fst).nodup_iff.mpr (trees (added ops).length root).nodup
  have hfew : order.length < 2 ^ 32 := by
    have hsub : order.map Prod.fst ⊆ List.range (added ops).length := by
      intro r hr
      obtain ⟨⟨r, members⟩, he, rfl⟩ := List.mem_map.mp hr
      obtain ⟨i, hi, rfl, -⟩ := htree r members he
      exact List.mem_range.mpr (h.root_lt hi)
    have hle := (List.subperm_of_subset hnd hsub).length_le
    rw [List.length_map, List.length_range] at hle
    omega
  obtain ⟨rootToGroup, groups, hrun, hnamed⟩ := nameGroups_spec order hnd hfew fun e he => by
    obtain ⟨i, -, -, g, hg, -⟩ := htree e.1 e.2 he
    exact ⟨g, hg⟩
  -- The place of the root of an axis in the order, which is what the name is made of.
  have hplace : ∀ i < (added ops).length, ∃ id < order.length, (order.map Prod.fst)[id]? = some (root i) ∧
      rootToGroup.get? (root i) = some (groupName id) ∧
      ∃ g, groups.get? (groupName id) = some g ∧ GroupFor ops i g := by
    intro i hi
    obtain ⟨members, hmem⟩ : ∃ members, (root i, members) ∈ (trees (added ops).length root).entries := exists_tree hi
    obtain ⟨id, hid⟩ := List.mem_iff_getElem?.mp (horder.mem_iff.mpr hmem)
    obtain ⟨hname, g, hg, hget⟩ := hnamed.named id _ members hid
    obtain ⟨rfl, -⟩ := mem_trees hmem
    obtain ⟨g', hg', hfor⟩ := groupOf_spec h hlen hi
    rw [hg] at hg'
    cases hg'
    exact ⟨id, (List.getElem?_eq_some_iff.mp hid).1, by rw [List.getElem?_map, hid]; rfl, hname, g, hget, hfor⟩
  refine ⟨rootToGroup, groups, fun i => (rootToGroup.get? (root i)).getD "",
    fun i => (groups.get? ((rootToGroup.get? (root i)).getD "")).getD ⟨0, false⟩, hrun, ?_⟩
  constructor
  · intro i hi
    obtain ⟨id, -, -, hname, -⟩ := hplace i hi
    rw [hname]
    rfl
  · intro i hi
    obtain ⟨id, -, -, hname, g, hget, -⟩ := hplace i hi
    rw [hname, Option.getD_some, hget]
    rfl
  · intro i hi
    obtain ⟨id, -, -, hname, g, hget, hfor⟩ := hplace i hi
    rw [hname, Option.getD_some, hget]
    exact hfor
  · intro i hi j hj
    obtain ⟨id, hlt, hid, hname, -⟩ := hplace i hi
    obtain ⟨jd, hlt', hjd, hname', -⟩ := hplace j hj
    rw [hname, hname', Option.getD_some, Option.getD_some]
    constructor
    · intro heq
      have hsame := groupName_inj (by omega) (by omega) heq
      rw [hsame, hjd] at hid
      exact (Option.some.inj hid).symm
    · intro heq
      rw [heq] at hname
      exact Option.some.inj (hname.symm.trans hname')
  · intro name hn
    obtain ⟨id, hid, rfl⟩ := hnamed.names name hn
    obtain ⟨i, hi, hr, -⟩ := htree order[id].1 order[id].2 (List.getElem_mem hid)
    obtain ⟨hname, -⟩ := hnamed.named id order[id].1 order[id].2 (List.getElem?_eq_getElem hid)
    refine ⟨i, hi, ?_⟩
    rw [← hr, hname]
    rfl

/-! ### The axes of the groups -/

/-- What the loop pushes for one axis. -/
def boundAxis (ops : List AxisOp) (group : Nat → String) (g : Nat → PermGroup) (i : Nat) : String × AxisBinding :=
  let axis := (added ops).getD i (⟨"", 0⟩, 0)
  (axis.1.tensor, ⟨axis.1.dim, group i, u32 (axis.2 / (g i).size)⟩)

/-- The axis is a whole number of blocks. -/
def Fits (ops : List AxisOp) (g : Nat → PermGroup) (i : Nat) : Prop :=
  ∀ key len, (added ops)[i]? = some (key, len) → (g i).size ≠ 0 ∧ (g i).size ∣ len

variable {rootToGroup : FinMap Nat String} {groups : FinMap String PermGroup} {group : Nat → String} {g : Nat → PermGroup}

theorem bindAxis_spec (hg : Grouped ops root rootToGroup groups group g) (h : Built ops uf root)
    (tensors : FinMap String (List AxisBinding)) {i : Nat} (hi : i < (added ops).length) :
    (Fits ops g i ∧ ∃ uf', bindAxis rootToGroup groups (uf, tensors) i =
        .ok (uf', tensors.push (boundAxis ops group g i).1 (boundAxis ops group g i).2) ∧ Built ops uf' root) ∨
      ¬ Fits ops g i ∧
        ∃ context, bindAxis rootToGroup groups (uf, tensors) i = sfsErr .blockFactorMismatch mismatch context := by
  obtain ⟨uf', hfind, h', -⟩ := h.find hi
  obtain ⟨n, hn⟩ := exists_node (h'.length.symm ▸ hi)
  have haxis := h'.axis hn
  have hrun : bindAxis rootToGroup groups (uf, tensors) i =
      if (g i).size = 0 ∨ n.len % (g i).size ≠ 0 then
        sfsErr .blockFactorMismatch mismatch (mismatchContext n (g i).size)
      else .ok (uf', tensors.push n.key.tensor ⟨n.key.dim, group i, u32 (n.len / (g i).size)⟩) := by
    simp only [bindAxis, hfind, bind, Except.bind, hg.name i hi, hg.get i hi, atOrThrow, node_eq_ok.mpr hn]
    rfl
  have hbound : boundAxis ops group g i = (n.key.tensor, ⟨n.key.dim, group i, u32 (n.len / (g i).size)⟩) := by
    rw [boundAxis, List.getD_eq_getElem?_getD, haxis]
    rfl
  have hfits : Fits ops g i ↔ ¬ ((g i).size = 0 ∨ n.len % (g i).size ≠ 0) := by
    rw [not_or, not_not, ← Nat.dvd_iff_mod_eq_zero]
    constructor
    · exact fun h => h n.key n.len haxis
    · intro h key len haxis'
      rw [haxis] at haxis'
      cases haxis'
      exact h
  rw [hrun, hfits, hbound]
  split
  · next hbad => exact .inr ⟨not_not.mpr hbad, _, rfl⟩
  · next hgood => exact .inl ⟨hgood, uf', rfl, h'⟩

/-- The loop binds every axis, or stops at one that does not fit. -/
theorem bindAxes_spec (hg : Grouped ops root rootToGroup groups group g) : ∀ (l : List Nat) (uf : AxisUnionFind)
    (tensors : FinMap String (List AxisBinding)), (∀ i ∈ l, i < (added ops).length) → Built ops uf root →
    ((∀ i ∈ l, Fits ops g i) ∧ ∃ uf', l.foldlM (bindAxis rootToGroup groups) (uf, tensors) =
        .ok (uf', (l.map (boundAxis ops group g)).foldl (fun m e => m.push e.1 e.2) tensors)) ∨
      (∃ i ∈ l, ¬ Fits ops g i) ∧ ∃ context,
        l.foldlM (bindAxis rootToGroup groups) (uf, tensors) = sfsErr .blockFactorMismatch mismatch context := by
  intro l
  induction l with
  | nil =>
    intro uf tensors _ _
    exact .inl ⟨fun i hi => absurd hi List.not_mem_nil, uf, rfl⟩
  | cons i rest ih =>
    intro uf tensors hl h
    rw [List.foldlM_cons]
    rcases bindAxis_spec hg h tensors (hl i List.mem_cons_self) with ⟨hfits, uf', hrun, h'⟩ | ⟨hbad, context, hrun⟩
    · rw [hrun]
      rcases ih uf' (tensors.push _ _) (fun j hj => hl j (List.mem_cons_of_mem _ hj)) h' with
        ⟨hall, uf'', hrest⟩ | ⟨⟨j, hj, hbad⟩, context, hrest⟩
      · exact .inl ⟨List.forall_mem_cons.mpr ⟨hfits, hall⟩, uf'', hrest⟩
      · exact .inr ⟨⟨j, List.mem_cons_of_mem _ hj, hbad⟩, context, hrest⟩
    · rw [hrun]
      exact .inr ⟨⟨i, List.mem_cons_self, hbad⟩, context, rfl⟩

theorem added_nodup (ops : List AxisOp) : ((added ops).map Prod.fst).Nodup := by
  induction ops using List.reverseRecOn with
  | nil => exact List.nodup_nil
  | append_singleton ops op ih =>
    rw [added_snoc]
    unfold addAxis
    split
    · split
      · exact ih
      · next hnew =>
        rw [List.map_append, List.nodup_append]
        refine ⟨ih, List.nodup_singleton _, ?_⟩
        intro a ha b hb hab
        rw [List.map_singleton, List.mem_singleton] at hb
        rw [hab, hb] at ha
        exact hnew ha
    · exact ih

/-- The axes that are connected have the same lengths around them. -/
theorem lengths_congr {i j : Nat} (h : Connected ops i j) : lengths ops i = lengths ops j := by
  refine Set.ext fun x => ?_
  constructor
  · rintro ⟨k, key, hk, hconn⟩
    exact ⟨k, key, hk, .trans _ _ _ (.symm _ _ h) hconn⟩
  · rintro ⟨k, key, hk, hconn⟩
    exact ⟨k, key, hk, .trans _ _ _ h hconn⟩

theorem exists_uneven_iff (hg : Grouped ops root rootToGroup groups group g) :
    (∃ h, Uneven ops h) ↔ ∃ i < (added ops).length, ¬ Fits ops g i := by
  constructor
  · rintro ⟨h, m, hleast, hbad⟩
    have hall : ∀ j key len, (added ops)[j]? = some (key, len) → Connected ops h j → (m = 0 ∨ ¬ m ∣ len) →
        ∃ i < (added ops).length, ¬ Fits ops g i := by
      intro j key len hj hconn hbad
      have hlt := (List.getElem?_eq_some_iff.mp hj).1
      have hsize : (g j).size = m := (lengths_congr hconn ▸ (hg.isFor j hlt).size).unique hleast
      refine ⟨j, hlt, fun hfits => ?_⟩
      obtain ⟨hne, hdvd⟩ := hfits key len hj
      rw [hsize] at hne hdvd
      exact hbad.elim hne fun hnot => hnot hdvd
    rcases hbad with hzero | ⟨len, ⟨j, key, hj, hconn⟩, hnot⟩
    · obtain ⟨j, key, hj, hconn⟩ := hleast.1
      exact hall j key m hj hconn (.inl hzero)
    · exact hall j key len hj hconn (.inr hnot)
  · rintro ⟨i, hi, hbad⟩
    simp only [Fits, not_forall, not_and] at hbad
    obtain ⟨key, len, haxis, hbad⟩ := hbad
    refine ⟨i, (g i).size, (hg.isFor i hi).size, ?_⟩
    by_cases hzero : (g i).size = 0
    · exact .inl hzero
    · exact .inr ⟨len, ⟨i, key, haxis, .refl i⟩, hbad hzero⟩

theorem exists_axis {i : Nat} (hi : i < (added ops).length) : ∃ key len, (added ops)[i]? = some (key, len) :=
  ⟨_, _, List.getElem?_eq_getElem hi⟩

theorem boundAxis_eq {i : Nat} {key : AxisKey} {len : Nat} (h : (added ops)[i]? = some (key, len)) :
    boundAxis ops group g i = (key.tensor, ⟨key.dim, group i, u32 (len / (g i).size)⟩) := by
  rw [boundAxis, List.getD_eq_getElem?_getD, h]
  rfl

/-- What the loop leaves when every axis fits. -/
def boundTensors (ops : List AxisOp) (group : Nat → String) (g : Nat → PermGroup) : FinMap String (List AxisBinding) :=
  ((List.range (added ops).length).map (boundAxis ops group g)).foldl (fun m e => m.push e.1 e.2) .empty

/-- The bindings of a tensor are those of its axes. -/
theorem bindings_eq {tensor : String} {bindings : List AxisBinding}
    (h : (boundTensors ops group g).get? tensor = some bindings) :
    bindings = ((List.range (added ops).length).filter fun i => (boundAxis ops group g i).1 = tensor).map fun i =>
      (boundAxis ops group g i).2 := by
  rw [FinMap.get?_foldl_push h, List.filter_map, List.map_map]
  rfl

theorem mem_bindings {tensor : String} {bindings : List AxisBinding}
    (h : (boundTensors ops group g).get? tensor = some bindings) (b : AxisBinding) : b ∈ bindings ↔
      ∃ i key len, (added ops)[i]? = some (key, len) ∧ key.tensor = tensor ∧
        b = ⟨key.dim, group i, u32 (len / (g i).size)⟩ := by
  rw [bindings_eq h]
  constructor
  · intro hb
    obtain ⟨i, hi, rfl⟩ := List.mem_map.mp hb
    rw [List.mem_filter, List.mem_range, decide_eq_true_eq] at hi
    obtain ⟨key, len, hkey⟩ := exists_axis hi.1
    rw [boundAxis_eq hkey] at hi ⊢
    exact ⟨i, key, len, hkey, hi.2, rfl⟩
  · rintro ⟨i, key, len, hkey, rfl, rfl⟩
    refine List.mem_map.mpr ⟨i, List.mem_filter.mpr ⟨?_, decide_eq_true ?_⟩, ?_⟩
    · exact List.mem_range.mpr (List.getElem?_eq_some_iff.mp hkey).1
    · rw [boundAxis_eq hkey]
    · rw [boundAxis_eq hkey]

theorem exists_bindings {i : Nat} {key : AxisKey} {len : Nat} (h : (added ops)[i]? = some (key, len)) :
    ∃ bindings, (boundTensors ops group g).get? key.tensor = some bindings := by
  rw [← FinMap.mem_keys, boundTensors, FinMap.mem_keys_foldl_push]
  have hi := List.mem_range.mpr (List.getElem?_eq_some_iff.mp h).1
  refine .inr (List.mem_map.mpr ⟨_, List.mem_map.mpr ⟨i, hi, rfl⟩, ?_⟩)
  rw [boundAxis_eq h]

theorem exists_axis_of_key {tensor : String} (h : tensor ∈ (boundTensors ops group g).keys) :
    ∃ (i : Nat) (key : AxisKey) (len : Nat), (added ops)[i]? = some (key, len) ∧ key.tensor = tensor := by
  rw [boundTensors, FinMap.mem_keys_foldl_push, List.map_map] at h
  rcases h with h | h
  · exact absurd h List.not_mem_nil
  · obtain ⟨i, hi, rfl⟩ := List.mem_map.mp h
    obtain ⟨key, len, hkey⟩ := exists_axis (List.mem_range.mp hi)
    rw [Function.comp_apply, boundAxis_eq hkey]
    exact ⟨i, key, len, hkey, rfl⟩

/-- A tensor has one binding for each of its axes. -/
theorem bindings_nodup {tensor : String} {bindings : List AxisBinding}
    (h : (boundTensors ops group g).get? tensor = some bindings) : (bindings.map AxisBinding.dim).Nodup := by
  rw [bindings_eq h, List.map_map]
  refine List.Nodup.map_on ?_ (List.nodup_range.filter _)
  intro i hi j hj heq
  rw [List.mem_filter, List.mem_range, decide_eq_true_eq] at hi hj
  obtain ⟨hi, hti⟩ := hi
  obtain ⟨hj, htj⟩ := hj
  obtain ⟨key, len, hkey⟩ := exists_axis hi
  obtain ⟨key', len', hkey'⟩ := exists_axis hj
  rw [Function.comp_apply, Function.comp_apply, boundAxis_eq hkey, boundAxis_eq hkey'] at heq
  rw [boundAxis_eq hkey] at hti
  rw [boundAxis_eq hkey'] at htj
  have hsame : key = key' := by
    cases key
    cases key'
    exact congrArg₂ AxisKey.mk (hti.trans htj.symm) heq
  refine (List.getElem?_inj (by rwa [List.length_map]) (added_nodup ops)).mp ?_
  rw [List.getElem?_map, List.getElem?_map, hkey, hkey', hsame]
  rfl

theorem len_eq_blocks (hlen : ∀ a ∈ added ops, a.2 < 2 ^ 32) (hfits : ∀ i < (added ops).length, Fits ops g i) {i : Nat}
    {key : AxisKey} {len : Nat} (h : (added ops)[i]? = some (key, len)) :
    len = (g i).size * u32 (len / (g i).size) := by
  have hsmall := hlen _ (List.mem_of_getElem? h)
  have hle : len / (g i).size ≤ len := Nat.div_le_self _ _
  obtain ⟨-, hdvd⟩ := hfits i (List.getElem?_eq_some_iff.mp h).1 key len h
  rw [u32_of_lt (by omega), Nat.mul_div_cancel' hdvd]

/-- The topology passes its own check. -/
theorem boundTensors_valid (hg : Grouped ops root rootToGroup groups group g) (hlen : ∀ a ∈ added ops, a.2 < 2 ^ 32)
    (hfits : ∀ i < (added ops).length, Fits ops g i) {shapes : FinMap String (List Nat)} (hshapes : Recorded ops shapes) :
    Topology.validate ⟨groups, boundTensors ops group g⟩ shapes = .ok () := by
  refine bind_eq_ok.mpr ⟨(), forM_eq_ok.mpr fun e he => ?_, forM_eq_ok.mpr fun e he => ?_⟩
  · obtain ⟨name, size⟩ := e
    obtain ⟨i, hi, rfl⟩ := hg.names name (FinMap.mem_keys_of_mem he)
    have hsize := FinMap.entry_unique he (FinMap.get?_eq_some.mp (hg.get i hi))
    obtain ⟨key, len, hkey⟩ := exists_axis hi
    exact if_neg (hsize ▸ (hfits i hi key len hkey).1)
  · obtain ⟨tensor, bindings⟩ := e
    obtain ⟨i, key, len, hkey, rfl⟩ := exists_axis_of_key (FinMap.mem_keys_of_mem he)
    obtain ⟨shape, hshape, -⟩ := hshapes key len (List.mem_of_getElem? hkey)
    dsimp only
    rw [hshape]
    refine forM_eq_ok.mpr fun b hb => ?_
    obtain ⟨j, key', len', hkey', htensor, rfl⟩ := (mem_bindings (FinMap.get?_eq_some.mpr he) b).mp hb
    have hj := (List.getElem?_eq_some_iff.mp hkey').1
    obtain ⟨shape', hshape', hdim⟩ := hshapes key' len' (List.mem_of_getElem? hkey')
    rw [htensor, hshape] at hshape'
    cases hshape'
    have hget : Topology.findGroup ⟨groups, boundTensors ops group g⟩ (group j) = some (g j) := hg.get j hj
    have hsmall := hlen _ (List.mem_of_getElem? hkey')
    simp only [Topology.validateAxis, hdim, hget]
    rw [← len_eq_blocks hlen hfits hkey', u64_of_lt (by omega), if_neg (not_not.mpr rfl)]

theorem finalized (hb : Built ops uf root) (hg : Grouped ops root rootToGroup groups group g)
    (hlen : ∀ a ∈ added ops, a.2 < 2 ^ 32) (hfits : ∀ i < (added ops).length, Fits ops g i) :
    Finalized ops ⟨groups, boundTensors ops group g⟩ group := by
  constructor
  · intro a b ha hb'
    rw [hg.same a ha b hb', hb.classes]
  · intro h key len hh
    have hlt := (List.getElem?_eq_some_iff.mp hh).1
    obtain ⟨bindings, hget⟩ : ∃ bindings, (boundTensors ops group g).get? key.tensor = some bindings :=
      exists_bindings hh
    exact ⟨g h, u32 (len / (g h).size), bindings, hg.get h hlt, hget,
      (mem_bindings hget _).mpr ⟨h, key, len, hh, rfl, rfl⟩, len_eq_blocks hlen hfits hh, (hg.isFor h hlt).pinned⟩
  · intro tensor bindings hget
    refine ⟨bindings_nodup hget, fun b hmem => ?_⟩
    obtain ⟨i, key, len, hkey, rfl, rfl⟩ := (mem_bindings hget b).mp hmem
    exact List.mem_map.mpr ⟨_, List.mem_of_getElem? hkey, rfl⟩
  · intro name hn
    obtain ⟨i, hi, rfl⟩ := hg.names name hn
    exact ⟨i, hi, rfl⟩
  · intro shapes hshapes
    exact boundTensors_valid hg hlen hfits hshapes

/-- `finalize` makes the topology, or stops because an axis does not fit. -/
theorem finalize_cases (h : Built ops uf root) (hlen : ∀ a ∈ added ops, a.2 < 2 ^ 32)
    (hsmall : (added ops).length < 2 ^ 32) {hashOrder : List (Nat × List Nat) → List (Nat × List Nat)}
    (hhash : ∀ l, (hashOrder l).Perm l) :
    ((¬ ∃ h, Uneven ops h) ∧ ∃ topo uf' group, uf.finalize hashOrder = .ok (topo, uf') ∧ Finalized ops topo group) ∨
      (∃ h, Uneven ops h) ∧ ∃ context, uf.finalize hashOrder = sfsErr .blockFactorMismatch mismatch context := by
  obtain ⟨uf₁, hmembers, h₁⟩ := membersByRoot_spec h hsmall
  obtain ⟨rootToGroup, groups, group, g, hname, hg⟩ := nameTrees_spec h₁ hlen hsmall (hhash _)
  have hrange : ∀ i ∈ List.range uf₁.nodes.length, i < (added ops).length := fun i hi =>
    h₁.length ▸ List.mem_range.mp hi
  rw [exists_uneven_iff hg]
  rcases bindAxes_spec hg _ uf₁ .empty hrange h₁ with ⟨hfits, uf₂, hbind⟩ | ⟨⟨i, hi, hbad⟩, context, hbind⟩
  · rw [h₁.length] at hfits hbind
    have hfits' : ∀ i < (added ops).length, Fits ops g i := fun i hi => hfits i (List.mem_range.mpr hi)
    have hno : ¬ ∃ i < (added ops).length, ¬ Fits ops g i := by
      rintro ⟨i, hi, hbad⟩
      exact hbad (hfits' i hi)
    refine .inl ⟨hno, ⟨groups, boundTensors ops group g⟩, uf₂, group, ?_, finalized h₁ hg hlen hfits'⟩
    refine bind_eq_ok.mpr ⟨_, hmembers, bind_eq_ok.mpr ⟨_, hname, ?_⟩⟩
    dsimp only
    rw [h₁.length]
    exact bind_eq_ok.mpr ⟨_, hbind, rfl⟩
  · refine .inr ⟨⟨i, hrange i hi, hbad⟩, context, ?_⟩
    simp only [finalize, hmembers, hname, bind, Except.bind]
    rw [hbind]
    rfl

end

/-- For every run of calls on valid handles: `find` ends; `add` gives an axis the handle
that it has; `finalize` makes the groups that the calls connect, or reports the
mismatch, and it reports one iff the smallest length of some group is 0 or does not
divide the others. -/
theorem run_finalizes (ops : List AxisOp) (hashOrder : List (Nat × List Nat) → List (Nat × List Nat))
    (hhash : ∀ l, (hashOrder l).Perm l) (hvalid : Valid ops) (hlen : ∀ a ∈ added ops, a.2 < 2 ^ 32)
    (hsmall : (added ops).length < 2 ^ 32) :
    ∃ uf, run ops = .ok uf ∧
      (∀ h < (added ops).length, ∃ r uf', uf.find h = .ok (r, uf')) ∧
      (∀ h key len, (added ops)[h]? = some (key, len) → ∀ len', (uf.add key len').1 = h) ∧
      (∀ topo uf', uf.finalize hashOrder = .ok (topo, uf') → ∃ group, Finalized ops topo group) ∧
      ((∃ topo uf', uf.finalize hashOrder = .ok (topo, uf')) ∨
        ∃ context, uf.finalize hashOrder = sfsErr .blockFactorMismatch mismatch context) ∧
      ((∃ context, uf.finalize hashOrder = sfsErr .blockFactorMismatch mismatch context) ↔ ∃ h, Uneven ops h) := by
  obtain ⟨uf, root, hrun, h⟩ := run_spec ops hvalid hsmall
  refine ⟨uf, hrun, fun i hi => ?_, fun i key len hi len' => ?_, ?_⟩
  · obtain ⟨uf', hfind, -⟩ := h.find hi
    exact ⟨root i, uf', hfind⟩
  · have hget : uf.index.get? key = some i := by
      rw [h.index, List.getElem?_map, hi]
      rfl
    rw [AxisUnionFind.add, hget]
  · rcases finalize_cases h hlen hsmall hhash with ⟨hno, topo, uf', group, hfin, hspec⟩ | ⟨hbad, context, hfin⟩
    · rw [hfin]
      refine ⟨fun topo' uf'' heq => ?_, .inl ⟨topo, uf', rfl⟩, ⟨fun herr => ?_, fun hbad => absurd hbad hno⟩⟩
      · cases heq
        exact ⟨group, hspec⟩
      · obtain ⟨context, heq⟩ := herr
        cases heq
    · rw [hfin]
      refine ⟨fun topo' uf'' heq => ?_, .inr ⟨context, rfl⟩, ⟨fun _ => hbad, fun _ => ⟨context, rfl⟩⟩⟩
      cases heq

/-- The channels of a convolution, the features of a linear layer behind a flatten, and
a bias that is pinned. -/
def flattened : List AxisOp :=
  [.add ⟨"conv", 0⟩ 4, .add ⟨"fc", 1⟩ 16, .add ⟨"bias", 0⟩ 4, .pin 2, .unite 1 0, .unite 2 0]

theorem flattened_finalizes :
    ∃ uf, run flattened = .ok uf ∧
      (∀ h < (added flattened).length, ∃ r uf', uf.find h = .ok (r, uf')) ∧
      (∀ h key len, (added flattened)[h]? = some (key, len) → ∀ len', (uf.add key len').1 = h) ∧
      (∀ topo uf', uf.finalize List.reverse = .ok (topo, uf') → ∃ group, Finalized flattened topo group) ∧
      ((∃ topo uf', uf.finalize List.reverse = .ok (topo, uf')) ∨
        ∃ context, uf.finalize List.reverse = sfsErr .blockFactorMismatch mismatch context) ∧
      ((∃ context, uf.finalize List.reverse = sfsErr .blockFactorMismatch mismatch context) ↔
        ∃ h, Uneven flattened h) := by
  refine run_finalizes flattened List.reverse List.reverse_perm ?_ (by decide) (by decide)
  have hall : ∀ i (hi : i < flattened.length), ∀ h ∈ flattened[i].handles, h < (added (flattened.take i)).length := by
    decide
  intro front op back he
  have hi : front.length < flattened.length := by
    rw [he]
    simp
  have hop : flattened[front.length] = op := by simp [he]
  have hfront : flattened.take front.length = front := by rw [he, List.take_left]
  have hhandles := hall front.length hi
  rwa [hop, hfront] at hhandles

/-! ### More axes than handles -/

/-- One tensor, each axis of length 0. -/
def emptyAxes (n : Nat) : List AxisOp := (List.range n).map fun d => .add ⟨"w", d⟩ 0

theorem emptyAxes_succ (n : Nat) : emptyAxes (n + 1) = emptyAxes n ++ [.add ⟨"w", n⟩ 0] := by
  rw [emptyAxes, List.range_succ, List.map_append]
  rfl

theorem added_emptyAxes (n : Nat) : added (emptyAxes n) = (List.range n).map fun d => (⟨"w", d⟩, 0) := by
  induction n with
  | zero => rfl
  | succ n ih =>
    rw [emptyAxes_succ, added_snoc, ih, addAxis, if_neg, List.range_succ, List.map_append]
    · rfl
    · simp

theorem run_emptyAxes (n : Nat) : ∃ uf, run (emptyAxes n) = .ok uf ∧ uf.nodes.length = n ∧
    ∀ key ∈ uf.index.keys, key.dim < n := by
  induction n with
  | zero => exact ⟨.empty, rfl, rfl, fun key hkey => absurd hkey List.not_mem_nil⟩
  | succ n ih =>
    obtain ⟨uf, hrun, hlen, hkeys⟩ := ih
    have hnew : (⟨"w", n⟩ : AxisKey) ∉ uf.index.keys := fun hmem => absurd (hkeys _ hmem) (lt_irrefl n)
    have hadd : (uf.add ⟨"w", n⟩ 0).2 = ⟨uf.nodes ++ [⟨⟨"w", n⟩, 0, u32 n, 0, false⟩],
        uf.index.emplace ⟨"w", n⟩ (u32 n)⟩ := by
      rw [AxisUnionFind.add, FinMap.get?_eq_none.mpr hnew, hlen]
    refine ⟨(uf.add ⟨"w", n⟩ 0).2, ?_, ?_, ?_⟩
    · rw [emptyAxes_succ, run, List.foldlM_append, ← run, hrun]
      rfl
    · rw [hadd, List.length_append, hlen]
      rfl
    · intro key hkey
      rw [hadd] at hkey
      obtain ⟨handle, hget⟩ := FinMap.mem_keys.mp hkey
      rw [FinMap.get?_emplace_new _ hnew] at hget
      by_cases he : key = ⟨"w", n⟩
      · rw [he]
        exact Nat.lt_succ_self n
      · rw [if_neg he] at hget
        exact Nat.lt_succ_of_lt (hkeys key (FinMap.mem_keys.mpr ⟨handle, hget⟩))

theorem emptyAxes_uneven {n : Nat} (hn : 0 < n) : Uneven (emptyAxes n) 0 := by
  have haxis : (added (emptyAxes n))[0]? = some (⟨"w", 0⟩, 0) := by
    rw [added_emptyAxes, List.getElem?_map, List.getElem?_range hn]
    rfl
  exact ⟨0, ⟨⟨0, ⟨"w", 0⟩, haxis, .refl 0⟩, fun x _ => Nat.zero_le x⟩, .inl rfl⟩

theorem emptyAxes_valid (n : Nat) : Valid (emptyAxes n) := by
  intro front op back he h hh
  have hmem : op ∈ emptyAxes n := he ▸ List.mem_append_right _ List.mem_cons_self
  obtain ⟨d, -, rfl⟩ := List.mem_map.mp hmem
  cases hh

/-- With more axes than a handle can count, the loops of `finalize` do not end. -/
theorem finalize_endless {uf : AxisUnionFind} (h : 2 ^ 32 ≤ uf.nodes.length)
    (hashOrder : List (Nat × List Nat) → List (Nat × List Nat)) :
    uf.finalize hashOrder = .error (.undefined "loop without end") := by
  rw [finalize, membersByRoot, if_pos h]
  rfl

theorem emptyAxes_endless : Valid (emptyAxes (2 ^ 32)) ∧ (∀ a ∈ added (emptyAxes (2 ^ 32)), a.2 < 2 ^ 32) ∧
    (∃ h, Uneven (emptyAxes (2 ^ 32)) h) ∧ ∃ uf, run (emptyAxes (2 ^ 32)) = .ok uf ∧
      ∀ hashOrder context, uf.finalize hashOrder ≠ sfsErr .blockFactorMismatch mismatch context := by
  refine ⟨emptyAxes_valid _, ?_, ⟨0, emptyAxes_uneven (by decide)⟩, ?_⟩
  · intro a ha
    rw [added_emptyAxes] at ha
    obtain ⟨d, -, rfl⟩ := List.mem_map.mp ha
    exact Nat.two_pow_pos 32
  · obtain ⟨uf, hrun, hlen, -⟩ := run_emptyAxes (2 ^ 32)
    refine ⟨uf, hrun, fun hashOrder context => ?_⟩
    rw [finalize_endless hlen.ge]
    intro h
    cases h

end SynapseFs.Align.AxisOp
