import Mathlib.Data.String.Basic
import SynapseFs.Lib.BestFirst
import SynapseFs.Store.Dag

/-! What a walk visits, and in what order.

The walk takes the newest commit it has queued, so it is a best-first search
(`Visits`) on the timestamps. It visits what the tips reach, each commit once
(`dag_queries`, with the other two queries); and it visits in topological order
exactly when no commit is overtaken by one of its ancestors
(`walk_topological_iff`), which a parent newer than its child brings about. -/
namespace SynapseFs.Store
open Lib Core Format BestFirst

/-- The visitor that never cuts a branch, and writes down what it is shown. -/
def collect (vs : List Oid) (o : Oid) (_ : Commit) : Outcome (Bool × List Oid) := .ok (true, vs ++ [o])

/-- What a commit is queued as. -/
def entryOf (cs : CommitStore) (o : Oid) : Entry :=
  match cs.read o with
  | .ok c => (c.timestamp, o)
  | .error _ => ("", o)

theorem entryOf_eq {cs : CommitStore} {o : Oid} {c : Commit} (h : cs.read o = .ok c) : entryOf cs o = (c.timestamp, o) := by
  unfold entryOf
  rw [h]

theorem entryOf_snd (cs : CommitStore) (o : Oid) : (entryOf cs o).2 = o := by
  unfold entryOf
  split <;> rfl

/-! ### The order of the queue -/

abbrev Entry.Less (a b : Entry) : Prop := a.lt b = true

theorem Entry.less_iff {a b : Entry} : a.Less b ↔ a.1 < b.1 ∨ (a.1 = b.1 ∧ a.2.bytes < b.2.bytes) := by
  simp [Entry.Less, Entry.lt]

instance : IsStrictTotalOrder Entry Entry.Less where
  irrefl a h := by
    rcases Entry.less_iff.mp h with h | ⟨-, h⟩
    · exact lt_irrefl _ h
    · exact List.lt_irrefl _ h
  trans a b c h h' := by
    rw [Entry.less_iff] at h h' ⊢
    rcases h with h | ⟨he, h⟩
    · rcases h' with h' | ⟨he', -⟩
      · exact .inl (h.trans h')
      · exact .inl (he' ▸ h)
    · rcases h' with h' | ⟨he', h'⟩
      · exact .inl (he ▸ h')
      · exact .inr ⟨he.trans he', List.lt_trans h h'⟩
  trichotomous a b h h' := by
    rw [Entry.less_iff] at h h'
    obtain ⟨hts, hoid⟩ := not_or.mp h
    obtain ⟨hts', hoid'⟩ := not_or.mp h'
    have he : a.1 = b.1 := le_antisymm (not_lt.mp hts') (not_lt.mp hts)
    have hbytes : a.2.bytes = b.2.bytes :=
      List.le_antisymm (fun hlt => hoid' ⟨he.symm, hlt⟩) fun hlt => hoid ⟨he, hlt⟩
    exact Prod.ext he (Oid.ext hbytes)

/-- `b` is taken before `a` where both are queued. -/
def Older (cs : CommitStore) (a b : Oid) : Prop := (entryOf cs a).Less (entryOf cs b)

instance (cs : CommitStore) : IsStrictTotalOrder Oid (Older cs) where
  irrefl a := irrefl_of Entry.Less (entryOf cs a)
  trans a b c := trans_of Entry.Less
  trichotomous a b h h' := by
    rw [← entryOf_snd cs a, ← entryOf_snd cs b]
    rcases trichotomous_of Entry.Less (entryOf cs a) (entryOf cs b) with hlt | he | hlt
    · exact absurd hlt h
    · rw [he]
    · exact absurd hlt h'

/-- `pq.top()` is the greatest entry. -/
theorem popMax_greatest {pq : List Entry} : ∀ {e : Entry} {rest : List Entry}, popMax pq = some (e, rest) →
    ∀ x ∈ rest, ¬e.Less x := by
  induction pq with
  | nil =>
    intro e rest h
    cases h
  | cons y ys ih =>
    intro e rest h x hx
    unfold popMax at h
    split at h
    · cases h
      cases hx
    · next top others hsome =>
      have hgreatest := ih hsome
      split at h
      · next hlt =>
        cases h
        rcases List.mem_cons.mp hx with rfl | hx
        · exact fun hlt' => irrefl_of Entry.Less x (trans_of Entry.Less hlt hlt')
        · exact hgreatest x hx
      · next hge =>
        cases h
        rcases List.mem_cons.mp hx with rfl | hx
        · exact hge
        · intro hlt
          rcases trichotomous_of Entry.Less x top with hxt | rfl | htx
          · exact hge (trans_of Entry.Less hlt hxt)
          · exact hge hlt
          · exact hgreatest x hx htx

/-! ### The walk -/

theorem edge_iff {cs : CommitStore} {a b : Oid} : Edge (parentsOf cs) a b ↔ ParentOf cs a b := mem_parentsOf

theorem edge_eq (cs : CommitStore) : Edge (parentsOf cs) = ParentOf cs := by
  funext a b
  exact propext edge_iff

theorem reached_iff {cs : CommitStore} {tips : List Oid} {o : Oid} :
    Reached (parentsOf cs) tips o ↔ Reachable cs tips o := by
  unfold Reached Reachable Ancestor
  rw [edge_eq]

/-- Where a walk stands: what it has visited is best first, and the queue holds
what is open, under its timestamps, once. -/
structure Queued (cs : CommitStore) (tips vs seen : List Oid) (pq : List Entry) : Prop where
  ordered : Ordered (parentsOf cs) tips (Older cs) vs
  entries : ∀ e ∈ pq, e = entryOf cs e.2
  nodup : (pq.map Prod.snd).Nodup
  open_iff : ∀ o, o ∈ pq.map Prod.snd ↔ Open (parentsOf cs) tips vs o
  seen_iff : ∀ o, o ∈ seen ↔ o ∈ vs ∨ o ∈ pq.map Prod.snd

/-- What is queued is queued under its timestamp, and once. -/
theorem pushUnseen_entries {cs : CommitStore} {os : List Oid} : ∀ {seen : List Oid} {pq : List Entry} {seen' : List Oid}
    {pq' : List Entry}, pushUnseen cs os seen pq = .ok (seen', pq') → (∀ e ∈ pq, e = entryOf cs e.2) →
      (pq.map Prod.snd).Nodup → (∀ o ∈ pq.map Prod.snd, o ∈ seen) →
      (∀ e ∈ pq', e = entryOf cs e.2) ∧ (pq'.map Prod.snd).Nodup := by
  induction os with
  | nil =>
    intro seen pq seen' pq' h hentries hnodup _
    cases h
    exact ⟨hentries, hnodup⟩
  | cons x xs ih =>
    intro seen pq seen' pq' h hentries hnodup hseen
    unfold pushUnseen at h
    split at h
    · exact ih h hentries hnodup hseen
    · next hx =>
      obtain ⟨c, hc, h⟩ := bind_eq_ok.mp h
      refine ih h (fun e he => ?_) ?_ fun o ho => ?_
      · rcases List.mem_cons.mp he with rfl | he
        · exact (entryOf_eq hc).symm
        · exact hentries e he
      · exact List.nodup_cons.mpr ⟨fun hm => hx (hseen x hm), hnodup⟩
      · rcases List.mem_cons.mp ho with rfl | ho
        · exact List.mem_cons_self
        · exact List.mem_cons_of_mem _ (hseen o ho)

section
variable {cs : CommitStore} {tips vs seen : List Oid} {pq : List Entry}

theorem Queued.start {seen : List Oid} {pq : List Entry} (h : pushUnseen cs tips [] [] = .ok (seen, pq)) :
    Queued cs tips [] seen pq := by
  obtain ⟨hseen, hqueue⟩ := pushUnseen_spec h
  obtain ⟨hentries, hnodup⟩ := pushUnseen_entries h (by simp) (by simp) (by simp)
  refine ⟨ordered_nil, hentries, hnodup, fun o => ?_, fun o => ?_⟩
  · rw [hqueue]
    simp [Open]
  · rw [hseen, hqueue]
    simp

/-- A commit that is visited was open, and the greatest; its parents are open after it. -/
theorem Queued.visit (w : Queued cs tips vs seen pq) {ts : String} {oid : Oid} {rest : List Entry} {c : Commit}
    {seen' : List Oid} {pq' : List Entry} (hpop : popMax pq = some ((ts, oid), rest)) (hc : cs.read oid = .ok c)
    (hpush : pushUnseen cs c.parents seen rest = .ok (seen', pq')) : Queued cs tips (vs ++ [oid]) seen' pq' := by
  have hperm := popMax_perm hpop
  have hpq : ∀ o, o ∈ pq.map Prod.snd ↔ o = oid ∨ o ∈ rest.map Prod.snd := fun o => by
    rw [(hperm.map Prod.snd).mem_iff, List.map_cons, List.mem_cons]
  have hnodup := (hperm.map Prod.snd).nodup_iff.mp w.nodup
  rw [List.map_cons, List.nodup_cons] at hnodup
  have hrest : ∀ e ∈ rest, e = entryOf cs e.2 := fun e he => w.entries e (hperm.mem_iff.mpr (List.mem_cons_of_mem _ he))
  have hopen : Open (parentsOf cs) tips vs oid := (w.open_iff oid).mp ((hpq oid).mpr (.inl rfl))
  have hseen : ∀ o ∈ rest.map Prod.snd, o ∈ seen := fun o ho => (w.seen_iff o).mpr (.inr ((hpq o).mpr (.inr ho)))
  obtain ⟨hseen', hqueue⟩ := pushUnseen_spec hpush
  obtain ⟨hentries', hnodup'⟩ := pushUnseen_entries hpush hrest hnodup.2 hseen
  refine ⟨w.ordered.snoc hopen fun u hu hne => ?_, hentries', hnodup', fun o => ?_, fun o => ?_⟩
  · -- What else is open is still queued, and the queue gave its greatest entry.
    obtain ⟨e, he, rfl⟩ := List.mem_map.mp (((hpq u).mp ((w.open_iff u).mpr hu)).resolve_left hne)
    have htop : (ts, oid) = entryOf cs oid := w.entries _ (hperm.mem_iff.mpr List.mem_cons_self)
    have hge := popMax_greatest hpop e he
    rw [htop, hrest e he] at hge
    rcases trichotomous_of (Older cs) e.2 oid with hlt | heq | hlt
    · exact hlt
    · exact absurd heq hne
    · exact absurd hlt hge
  · rw [hqueue, w.seen_iff, hpq]
    have hold : o ∈ rest.map Prod.snd ↔ Open (parentsOf cs) tips vs o ∧ o ≠ oid := by
      rw [← w.open_iff, hpq]
      constructor
      · exact fun h => ⟨.inr h, fun he => hnodup.1 (he ▸ h)⟩
      · exact fun h => h.1.resolve_left h.2
    rw [hold]
    unfold Open
    rw [List.mem_append, List.mem_singleton]
    simp only [List.mem_append, List.mem_singleton, or_and_right, exists_or, exists_eq_left]
    have hedge : Edge (parentsOf cs) oid o ↔ o ∈ c.parents := by
      rw [Edge, parentsOf_eq hc]
    rw [hedge]
    by_cases hv : o ∈ vs
    · simp [hv]
    · by_cases hi : o = oid
      · simp [hi]
      · simp only [hv, hi, ne_eq, not_false_eq_true, true_and, false_or, and_true, ← or_assoc]
        by_cases hopened : o ∈ tips ∨ ∃ s ∈ vs, Edge (parentsOf cs) s o
        · simp only [hopened, true_or]
        · simp only [hopened, false_or, not_false_eq_true, and_true]
  · rw [hseen', hqueue, w.seen_iff, hpq, List.mem_append, List.mem_singleton]
    tauto

end

/-- A walk that visits everything is a finished search. -/
theorem walkLoop_visits {cs : CommitStore} {tips : List Oid} {vs' : List Oid} : ∀ {fuel : Nat} {vs seen : List Oid}
    {pq : List Entry}, walkLoop cs collect fuel vs seen pq = .ok (vs', .ok ()) → Queued cs tips vs seen pq →
      Visits (parentsOf cs) tips (Older cs) vs' := by
  intro fuel
  induction fuel using Nat.strong_induction_on with
  | _ fuel ih =>
    intro vs seen pq h w
    rcases walkLoop_round h with ⟨rfl, rfl⟩ | ⟨fuel', ts, oid, rest, c, keepGoing, vs₁, hlt, hpop, hc, hv, hnext⟩
    · exact ⟨w.ordered, fun a ha => List.not_mem_nil ((w.open_iff a).mpr ha)⟩
    · cases hv
      rcases hnext with ⟨-, seen', pq', hpush, hrec⟩ | ⟨hcut, -⟩
      · exact ih fuel' hlt hrec (w.visit hpop hc hpush)
      · cases hcut

theorem walkCommits_visits {cs : CommitStore} {tips vs : List Oid} (h : walkCommits cs tips collect [] = .ok (vs, .ok ())) :
    Visits (parentsOf cs) tips (Older cs) vs := by
  unfold walkCommits at h
  obtain ⟨r | ⟨seen, pq⟩, hpush, h⟩ := bind_eq_ok.mp h
  · cases h
  · exact walkLoop_visits h (Queued.start (settle_eq_ok.mp hpush))

/-- Where every commit reads, the walk comes to its end. -/
theorem walkCommits_collects {cs : CommitStore} {tips : List Oid} (hread : ∀ o, Reachable cs tips o → ∃ c, cs.read o = .ok c) :
    ∃ vs, walkCommits cs tips collect [] = .ok (vs, .ok ()) := by
  obtain ⟨vs, h, -⟩ := walkCommits_ok (G := fun _ => True) hread
    (fun vs o c _ _ _ => ⟨vs ++ [o], rfl, trivial⟩) (fun vs o c _ h => by cases h) trivial
  exact ⟨vs, h⟩

/-! ### Two small histories -/

/-- The commits of a list, each with its timestamp and its parents. -/
def datedCommits (rows : List (Oid × String × List Oid)) (h : ∀ r ∈ rows, r.2.2.length ≤ 2) : CommitStore where
  read o :=
    match rows.find? fun r => r.1 = o with
    | some r => .ok ⟨1, r.2.2, .fill 8, .fill 9, r.2.1, "author", "message"⟩
    | none => sfsErr .objectNotFound "object not found" ""
  oids := rows.map Prod.fst
  covers o c ho := by
    split at ho
    · next r hr =>
      have hfound := List.find?_some hr
      have he : r.1 = o := of_decide_eq_true hfound
      exact List.mem_map.mpr ⟨r, List.mem_of_find?_eq_some hr, he⟩
    · exact absurd ho sfsErr_ne_ok
  parents_le o c ho := by
    split at ho
    · next r hr =>
      cases ho
      exact h r (List.mem_of_find?_eq_some hr)
    · exact absurd ho sfsErr_ne_ok
  total o h := by
    split at h
    · cases h
    · cases h

/-- A merge of two commits on one root. -/
def mergedCommits : CommitStore :=
  datedCommits [(.fill 1, "2026-01-01T00:00:00Z", []), (.fill 2, "2026-01-02T00:00:00Z", [.fill 1]),
    (.fill 3, "2026-01-02T00:00:00Z", [.fill 1]), (.fill 4, "2026-01-03T00:00:00Z", [.fill 2, .fill 3])] (by decide)

/-- The root is dated after the commit on it, and is merged with that commit. -/
def skewedCommits : CommitStore :=
  datedCommits [(.fill 1, "2026-01-03T00:00:00Z", []), (.fill 2, "2026-01-02T00:00:00Z", [.fill 1]),
    (.fill 3, "2026-01-04T00:00:00Z", [.fill 2, .fill 1])] (by decide)

/-- Every commit has the same manifest, of one tensor. -/
def oneManifest : ManifestStore where
  read _ := .ok
    { formatVersion := 1, hashAlgo := "blake3", file := ⟨"model.safetensors", .fill 5, 66, ""⟩
      buffer := [⟨"w", 64, 2, "w"⟩], groups := ⟨[("w", ⟨.full, some (.fill 6), none, none, 0⟩)], by decide⟩ }
  total _ h := by cases h

theorem datedCommits_parent {rows : List (Oid × String × List Oid)} {h : ∀ r ∈ rows, r.2.2.length ≤ 2} {a b : Oid}
    (hab : ParentOf (datedCommits rows h) a b) : ∃ r ∈ rows, r.1 = a ∧ b ∈ r.2.2 := by
  obtain ⟨c, hc, hb⟩ := hab
  unfold datedCommits at hc
  dsimp only at hc
  split at hc
  · next r hr =>
    cases hc
    have hfound := List.find?_some hr
    exact ⟨r, List.mem_of_find?_eq_some hr, of_decide_eq_true hfound, hb⟩
  · exact absurd hc sfsErr_ne_ok

theorem datedCommits_read {rows : List (Oid × String × List Oid)} {h : ∀ r ∈ rows, r.2.2.length ≤ 2} {tips : List Oid}
    (htips : ∀ t ∈ tips, t ∈ rows.map Prod.fst) (hrows : ∀ r ∈ rows, ∀ p ∈ r.2.2, p ∈ rows.map Prod.fst) {o : Oid}
    (ho : Reachable (datedCommits rows h) tips o) : ∃ c, (datedCommits rows h).read o = .ok c := by
  have hmem : o ∈ rows.map Prod.fst := by
    refine ho.mem_of_closed htips fun v _ c hc p hp => ?_
    obtain ⟨r, hr, -, hp⟩ := datedCommits_parent ⟨c, hc, hp⟩
    exact hrows r hr p hp
  obtain ⟨r, hr, rfl⟩ := List.mem_map.mp hmem
  unfold datedCommits
  dsimp only
  split
  · exact ⟨_, rfl⟩
  · next hnone =>
    have hfound := List.find?_eq_none.mp hnone r hr
    exact absurd (decide_eq_true rfl) hfound

/-- Where parents come down in some rank, no commit is its own ancestor. -/
theorem acyclic_of_rank {cs : CommitStore} (rank : Oid → Nat) (h : ∀ a b, ParentOf cs a b → rank b < rank a) (o : Oid) :
    ¬Relation.TransGen (ParentOf cs) o o := by
  intro hcycle
  have hdown : ∀ {a b : Oid}, Relation.TransGen (ParentOf cs) a b → rank b < rank a := by
    intro a b hab
    induction hab with
    | single hp => exact h _ _ hp
    | tail _ hp ih => exact (h _ _ hp).trans ih
  exact lt_irrefl _ (hdown hcycle)

def firstByte (o : Oid) : Nat := (o.bytes.headD 0).toNat

/-! ### The three queries -/

/-- What commit `o` and its manifest `m` name. -/
def Names (o : Oid) (c : Commit) (m : Manifest) (x : Oid) : Prop :=
  x = o ∨ x = c.manifest ∨ x = c.topology ∨ x = m.file.headerBlock ∨
    ∃ name g, (name, g) ∈ m.groups.entries ∧ (g.block = some x ∨ g.diffBlock = some x)

theorem mem_manifestObjects {m : Manifest} {x : Oid} : x ∈ manifestObjects m ↔
    x = m.file.headerBlock ∨ ∃ name g, (name, g) ∈ m.groups.entries ∧ (g.block = some x ∨ g.diffBlock = some x) := by
  simp only [manifestObjects, groupObjects, List.mem_cons, List.mem_flatMap, List.mem_append, Option.mem_toList,
    Prod.exists]

theorem addedBy_iff {cs : CommitStore} {ms : ManifestStore} {o x : Oid} : AddedBy cs ms o x ↔
    ∃ c m, cs.read o = .ok c ∧ ms.read c.manifest = .ok m ∧ Names o c m x := by
  simp only [AddedBy, Names, mem_manifestObjects]

theorem ancestor_iff_transGen {cs : CommitStore} {a b : Oid} :
    Ancestor cs b a ↔ a = b ∨ Relation.TransGen (ParentOf cs) b a :=
  Relation.reflTransGen_iff_eq_or_transGen

/-- **The three queries agree.** In a history that can be read, ancestry is being
found along parents, the walk visits what the tips reach, each commit once, and
the objects are what those commits and their manifests name. -/
theorem dag_queries (cs : CommitStore) (ms : ManifestStore) (tips : List Oid)
    (hread : ∀ o, Reachable cs tips o → ∃ c m, cs.read o = .ok c ∧ ms.read c.manifest = .ok m) :
    (∀ a b, Reachable cs tips b → ∃ r, isAncestor cs a b = .ok r ∧
      (r = true ↔ a = b ∨ Relation.TransGen (ParentOf cs) b a)) ∧
    (∃ vs, walkCommits cs tips collect [] = .ok (vs, .ok ()) ∧ vs.Nodup ∧
      ∀ o, o ∈ vs ↔ ∃ tip ∈ tips, o = tip ∨ Relation.TransGen (ParentOf cs) tip o) ∧
    ∃ objs, reachableObjects cs ms tips = .ok objs ∧ ∀ x, x ∈ objs ↔
      ∃ o c m, (∃ tip ∈ tips, o = tip ∨ Relation.TransGen (ParentOf cs) tip o) ∧ cs.read o = .ok c ∧
        ms.read c.manifest = .ok m ∧ Names o c m x := by
  have hcommit : ∀ o, Reachable cs tips o → ∃ c, cs.read o = .ok c := fun o ho =>
    (hread o ho).imp fun c ⟨_, hc, _⟩ => hc
  have hreach : ∀ o, Reachable cs tips o ↔ ∃ tip ∈ tips, o = tip ∨ Relation.TransGen (ParentOf cs) tip o := fun o => by
    simp only [Reachable, ancestor_iff_transGen]
  refine ⟨fun a b hb => ?_, ?_, ?_⟩
  · have hbelow : ∀ o, Ancestor cs b o → ∃ c, cs.read o = .ok c := by
      intro o ho
      obtain ⟨tip, htip, hpath⟩ := hb
      exact hcommit o ⟨tip, htip, hpath.trans ho⟩
    obtain ⟨r, hr⟩ := isAncestor_ok hbelow a
    exact ⟨r, hr, (isAncestor_spec hr).trans ancestor_iff_transGen⟩
  · obtain ⟨vs, hwalk⟩ := walkCommits_collects hcommit
    have hvisits := walkCommits_visits hwalk
    exact ⟨vs, hwalk, hvisits.ordered.nodup, fun o => by rw [hvisits.mem_iff, reached_iff, hreach]⟩
  · obtain ⟨objs, hobjs⟩ := reachableObjects_ok hread
    refine ⟨objs, hobjs, fun x => ?_⟩
    rw [(reachableObjects_spec hobjs).1]
    constructor
    · rintro ⟨kind, hkind⟩
      obtain ⟨o, ho, hadded⟩ := addedBy_of_referenced hread hkind
      obtain ⟨c, m, hc, hm, hx⟩ := addedBy_iff.mp hadded
      exact ⟨o, c, m, (hreach o).mp ho, hc, hm, hx⟩
    · rintro ⟨o, c, m, ho, hc, hm, hx⟩
      exact referenced_of_addedBy ((hreach o).mpr ho) (addedBy_iff.mpr ⟨c, m, hc, hm, hx⟩)

theorem dag_queries_merged :
    (∀ a b, Reachable mergedCommits [.fill 4] b → ∃ r, isAncestor mergedCommits a b = .ok r ∧
      (r = true ↔ a = b ∨ Relation.TransGen (ParentOf mergedCommits) b a)) ∧
    (∃ vs, walkCommits mergedCommits [.fill 4] collect [] = .ok (vs, .ok ()) ∧ vs.Nodup ∧
      ∀ o, o ∈ vs ↔ ∃ tip ∈ [Oid.fill 4], o = tip ∨ Relation.TransGen (ParentOf mergedCommits) tip o) ∧
    ∃ objs, reachableObjects mergedCommits oneManifest [.fill 4] = .ok objs ∧ ∀ x, x ∈ objs ↔
      ∃ o c m, (∃ tip ∈ [Oid.fill 4], o = tip ∨ Relation.TransGen (ParentOf mergedCommits) tip o) ∧
        mergedCommits.read o = .ok c ∧ oneManifest.read c.manifest = .ok m ∧ Names o c m x :=
  dag_queries mergedCommits oneManifest [.fill 4] fun _ ho =>
    (datedCommits_read (by decide) (by decide) ho).imp fun _ hc => ⟨_, hc, rfl⟩

/-! ### The order -/

/-- **When the walk is topological.** In an acyclic history that can be read, it is
exactly when no commit is overtaken by one of its ancestors. -/
theorem walk_topological_iff (cs : CommitStore) (tips : List Oid)
    (hread : ∀ o, Reachable cs tips o → ∃ c, cs.read o = .ok c)
    (hacyclic : ∀ o, ¬Relation.TransGen (ParentOf cs) o o) :
    ∃ vs, walkCommits cs tips collect [] = .ok (vs, .ok ()) ∧
      ((vs.Pairwise fun a b => ¬Relation.TransGen (ParentOf cs) b a) ↔
        ∀ w p x, ¬Overtaken (parentsOf cs) tips (Older cs) w p x) := by
  obtain ⟨vs, hwalk⟩ := walkCommits_collects hread
  have htop := (walkCommits_visits hwalk).topological_iff (by rwa [edge_eq])
  rw [Topological, edge_eq] at htop
  exact ⟨vs, hwalk, htop⟩

theorem skewed_reads (o : Oid) (ho : Reachable skewedCommits [.fill 3] o) : ∃ c, skewedCommits.read o = .ok c :=
  datedCommits_read (by decide) (by decide) ho

theorem skewed_acyclic (o : Oid) : ¬Relation.TransGen (ParentOf skewedCommits) o o := by
  refine acyclic_of_rank firstByte (fun a b hab => ?_) o
  obtain ⟨r, hr, rfl, hb⟩ := datedCommits_parent hab
  clear hab
  revert b
  revert r
  decide

theorem walk_topological_iff_skewed : ∃ vs, walkCommits skewedCommits [.fill 3] collect [] = .ok (vs, .ok ()) ∧
    ((vs.Pairwise fun a b => ¬Relation.TransGen (ParentOf skewedCommits) b a) ↔
      ∀ w p x, ¬Overtaken (parentsOf skewedCommits) [.fill 3] (Older skewedCommits) w p x) :=
  walk_topological_iff skewedCommits [.fill 3] skewed_reads skewed_acyclic

theorem skewed_walk : walkCommits skewedCommits [.fill 3] collect [] = .ok ([.fill 3, .fill 1, .fill 2], .ok ()) := by
  decide +kernel

/-- The root is visited before the commit on it. -/
theorem walk_not_topological : ¬ ∀ (cs : CommitStore) (tips vs : List Oid),
    (∀ o, Reachable cs tips o → ∃ c, cs.read o = .ok c) → (∀ o, ¬Relation.TransGen (ParentOf cs) o o) →
    walkCommits cs tips collect [] = .ok (vs, .ok ()) → vs.Pairwise fun a b => ¬Relation.TransGen (ParentOf cs) b a := by
  intro h
  have htop := h skewedCommits [.fill 3] _ skewed_reads skewed_acyclic skewed_walk
  have hparent : ParentOf skewedCommits (.fill 2) (.fill 1) := mem_parentsOf.mp (by decide)
  have hbefore := (List.pairwise_cons.mp (List.pairwise_cons.mp htop).2).1 (.fill 2) (List.mem_singleton_self _)
  exact hbefore (.single hparent)

end SynapseFs.Store
