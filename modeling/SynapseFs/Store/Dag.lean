import Mathlib.Logic.Relation
import Mathlib.Data.Finset.Card
import SynapseFs.Format.Manifest

/-! Commit DAG walks: ancestry and reachability.

The walks see a repository through what its commits and manifests read as
(`CommitStore`, `ManifestStore`). A store lists the addresses that can be read
at all, so every walk has a bound; that the bound is never reached is proved,
not assumed (`walkCommits_fuel`, `isAncestor_fuel`). -/
namespace SynapseFs.Store
open Lib Core Format

structure CommitStore where
  read : Oid → Outcome Commit
  /-- Every address that reads as a commit is among these. -/
  oids : List Oid
  covers : ∀ o c, read o = .ok c → o ∈ oids
  parents_le : ∀ o c, read o = .ok c → c.parents.length ≤ 2
  total : ∀ o, read o ≠ .error .outOfFuel

structure ManifestStore where
  read : Oid → Outcome Manifest
  total : ∀ o, read o ≠ .error .outOfFuel

/-! ### The walk -/

/-- The priority of a commit: its timestamp, then its address. -/
abbrev Entry := String × Oid

def Entry.lt (a b : Entry) : Bool := a.1 < b.1 || (a.1 == b.1 && a.2.bytes < b.2.bytes)

/-- `pq.top()` and `pq.pop()`. -/
def popMax : List Entry → Option (Entry × List Entry)
  | [] => none
  | e :: rest =>
    match popMax rest with
    | none => some (e, [])
    | some (top, others) => if e.lt top then some (top, e :: others) else some (e, top :: others)

/-- The tips loop and the parents loop: queue what has not been seen. -/
def pushUnseen (cs : CommitStore) : List Oid → List Oid → List Entry → Outcome (List Oid × List Entry)
  | [], seen, pq => .ok (seen, pq)
  | o :: rest, seen, pq =>
    if o ∈ seen then pushUnseen cs rest seen pq
    else do
      let c ← cs.read o
      pushUnseen cs rest (o :: seen) ((c.timestamp, o) :: pq)

variable {σ : Type}

/-- The visitor's state survives an error of the walk, so both are returned. -/
def walkLoop (cs : CommitStore) (visit : σ → Oid → Commit → Outcome (Bool × σ)) :
    Nat → σ → List Oid → List Entry → Outcome (σ × Except Error Unit)
  | fuel, s, seen, pq =>
    match popMax pq, fuel with
    | none, _ => .ok (s, .ok ())
    | some _, 0 => .error .outOfFuel
    | some ((_, oid), rest), fuel + 1 => do
      match ← settle (cs.read oid) with
      | .error e => return (s, .error e)
      | .ok c =>
        let (keepGoing, s) ← visit s oid c
        if keepGoing then
          match ← settle (pushUnseen cs c.parents seen rest) with
          | .error e => return (s, .error e)
          | .ok (seen, pq) => walkLoop cs visit fuel s seen pq
        else walkLoop cs visit fuel s seen rest

def walkCommits (cs : CommitStore) (tips : List Oid) (visit : σ → Oid → Commit → Outcome (Bool × σ)) (s : σ) :
    Outcome (σ × Except Error Unit) := do
  match ← settle (pushUnseen cs tips [] []) with
  | .error e => return (s, .error e)
  | .ok (seen, pq) => walkLoop cs visit cs.oids.length s seen pq

/-! ### Ancestry -/

def ancestorLoop (cs : CommitStore) (maybeAncestor : Oid) : Nat → List Oid → List Oid → Outcome Bool
  | _, _, [] => .ok false
  | 0, _, _ :: _ => .error .outOfFuel
  | fuel + 1, visited, cur :: stack =>
    if cur ∈ visited then ancestorLoop cs maybeAncestor fuel visited stack
    else if cur = maybeAncestor then .ok true
    else do
      let c ← cs.read cur
      ancestorLoop cs maybeAncestor fuel (cur :: visited) (c.parents.reverse ++ stack)

/-- A commit is its own ancestor here. -/
def isAncestor (cs : CommitStore) (maybeAncestor of : Oid) : Outcome Bool :=
  if maybeAncestor = of then .ok true
  else ancestorLoop cs maybeAncestor (2 * cs.oids.length + 1) [] [of]

/-! ### Reachable objects -/

structure ReachState where
  objects : List Oid
  err : Option Error

def groupObjects (g : GroupEntry) : List Oid := g.block.toList ++ g.diffBlock.toList

def manifestObjects (m : Manifest) : List Oid :=
  m.file.headerBlock :: m.groups.entries.flatMap fun (_, g) => groupObjects g

def reachVisit (ms : ManifestStore) (s : ReachState) (commitOid : Oid) (c : Commit) : Outcome (Bool × ReachState) := do
  let objects := commitOid :: c.manifest :: c.topology :: s.objects
  match ← settle (ms.read c.manifest) with
  | .error e => return (false, { objects, err := some e })
  | .ok m => return (true, { s with objects := manifestObjects m ++ objects })

def reachableObjects (cs : CommitStore) (ms : ManifestStore) (tips : List Oid) : Outcome (List Oid) := do
  let (s, status) ← walkCommits cs tips (reachVisit ms) { objects := [], err := none }
  match status, s.err with
  | .error e, _ => .error (.error e)
  | .ok (), some e => .error (.error e)
  | .ok (), none => .ok s.objects

/-! ### What is reachable -/

def ParentOf (cs : CommitStore) (a b : Oid) : Prop := ∃ c, cs.read a = .ok c ∧ b ∈ c.parents

/-- `b` is `a` or is found by following parents from `a`. -/
def Ancestor (cs : CommitStore) (a b : Oid) : Prop := Relation.ReflTransGen (ParentOf cs) a b

def Reachable (cs : CommitStore) (tips : List Oid) (o : Oid) : Prop := ∃ tip ∈ tips, Ancestor cs tip o

/-- The parents of what reads as a commit. -/
def parentsOf (cs : CommitStore) (o : Oid) : List Oid :=
  match cs.read o with
  | .ok c => c.parents
  | .error _ => []

theorem parentsOf_eq {cs : CommitStore} {o : Oid} {c : Commit} (h : cs.read o = .ok c) : parentsOf cs o = c.parents := by
  unfold parentsOf
  rw [h]

theorem mem_parentsOf {cs : CommitStore} {a b : Oid} : b ∈ parentsOf cs a ↔ ParentOf cs a b := by
  constructor
  · intro h
    unfold parentsOf at h
    split at h
    · next c hc => exact ⟨c, hc, h⟩
    · cases h
  · rintro ⟨c, hc, hb⟩
    rwa [parentsOf_eq hc]

theorem Reachable.parent {cs : CommitStore} {tips : List Oid} {o p : Oid} {c : Commit} (h : Reachable cs tips o)
    (hc : cs.read o = .ok c) (hp : p ∈ c.parents) : Reachable cs tips p := by
  obtain ⟨tip, ht, ha⟩ := h
  exact ⟨tip, ht, ha.tail ⟨c, hc, hp⟩⟩

/-- A set of commits that has the tips and the parents of its members has all. -/
theorem Reachable.mem_of_closed {cs : CommitStore} {tips vs : List Oid} {o : Oid} (h : Reachable cs tips o)
    (htips : ∀ t ∈ tips, t ∈ vs) (hclosed : ∀ v ∈ vs, ∀ c, cs.read v = .ok c → ∀ p ∈ c.parents, p ∈ vs) : o ∈ vs := by
  obtain ⟨tip, ht, ha⟩ := h
  induction ha with
  | refl => exact htips tip ht
  | tail _ hp ih =>
    obtain ⟨c, hc, hmem⟩ := hp
    exact hclosed _ ih c hc _ hmem

/-- Everything reached from a commit is in a list that is closed under parents. -/
theorem mem_of_ancestor {cs : CommitStore} {b o : Oid} {l : List Oid} (h : Ancestor cs b o) (hb : b ∈ l)
    (hl : ∀ v ∈ l, ∀ p ∈ parentsOf cs v, p ∈ l) : o ∈ l := by
  refine Reachable.mem_of_closed ⟨b, List.mem_singleton_self b, h⟩ (fun t ht => ?_) fun v hv c hc p hp => ?_
  · rw [List.mem_singleton.mp ht]
    exact hb
  · exact hl v hv p (by rwa [parentsOf_eq hc])

theorem popMax_perm {pq : List Entry} : ∀ {e : Entry} {rest : List Entry}, popMax pq = some (e, rest) →
    pq.Perm (e :: rest) := by
  induction pq with
  | nil => exact nofun
  | cons x xs ih =>
    intro e rest h
    unfold popMax at h
    split at h
    · next hnone =>
      cases h
      cases xs with
      | nil => exact List.Perm.refl _
      | cons y ys =>
        unfold popMax at hnone
        split at hnone
        · cases hnone
        · split at hnone <;> cases hnone
    · next top others hsome =>
      have hp := ih hsome
      split at h
      · cases h
        exact (hp.cons x).trans (List.Perm.swap _ _ _)
      · cases h
        exact hp.cons _

theorem popMax_eq_none {pq : List Entry} (h : popMax pq = none) : pq = [] := by
  cases pq with
  | nil => rfl
  | cons x xs =>
    unfold popMax at h
    split at h
    · cases h
    · split at h <;> cases h

theorem pushUnseen_spec {cs : CommitStore} {os : List Oid} : ∀ {seen : List Oid} {pq : List Entry} {seen' : List Oid}
    {pq' : List Entry}, pushUnseen cs os seen pq = .ok (seen', pq') →
      (∀ o, o ∈ seen' ↔ o ∈ seen ∨ o ∈ os) ∧
      (∀ o, o ∈ pq'.map Prod.snd ↔ o ∈ pq.map Prod.snd ∨ (o ∈ os ∧ o ∉ seen)) := by
  induction os with
  | nil =>
    intro seen pq seen' pq' h
    cases h
    simp
  | cons x xs ih =>
    intro seen pq seen' pq' h
    unfold pushUnseen at h
    split at h
    · next hx =>
      obtain ⟨h1, h2⟩ := ih h
      refine ⟨fun o => ?_, fun o => ?_⟩
      · rw [h1 o, List.mem_cons]
        exact ⟨fun h => h.elim .inl (fun h => .inr (.inr h)),
          fun h => h.elim .inl (fun h => h.elim (fun h => .inl (h ▸ hx)) .inr)⟩
      · rw [h2 o, List.mem_cons]
        exact ⟨fun h => h.elim .inl (fun h => .inr ⟨.inr h.1, h.2⟩),
          fun h => h.elim .inl (fun h => h.1.elim (fun he => absurd (he ▸ hx) h.2) (fun hm => .inr ⟨hm, h.2⟩))⟩
    · next hx =>
      rw [bind_eq_ok] at h
      obtain ⟨c, -, h⟩ := h
      obtain ⟨h1, h2⟩ := ih h
      refine ⟨fun o => ?_, fun o => ?_⟩
      · rw [h1 o, List.mem_cons, List.mem_cons]
        tauto
      · rw [h2 o, List.map_cons, List.mem_cons, List.mem_cons, List.mem_cons]
        by_cases ho : o = x
        · subst ho
          simp [hx]
        · simp [ho]

/-- One round of a walk that ends well. -/
theorem walkLoop_round {cs : CommitStore} {visit : σ → Oid → Commit → Outcome (Bool × σ)} {fuel : Nat} {s s' : σ}
    {seen : List Oid} {pq : List Entry} (h : walkLoop cs visit fuel s seen pq = .ok (s', .ok ())) :
    (pq = [] ∧ s' = s) ∨ ∃ fuel' ts oid rest c keepGoing s₁, fuel' < fuel ∧ popMax pq = some ((ts, oid), rest) ∧
      cs.read oid = .ok c ∧ visit s oid c = .ok (keepGoing, s₁) ∧
      ((keepGoing = true ∧ ∃ seen' pq', pushUnseen cs c.parents seen rest = .ok (seen', pq') ∧
          walkLoop cs visit fuel' s₁ seen' pq' = .ok (s', .ok ())) ∨
        (keepGoing = false ∧ walkLoop cs visit fuel' s₁ seen rest = .ok (s', .ok ()))) := by
  unfold walkLoop at h
  split at h
  · next hpop =>
    cases h
    exact .inl ⟨popMax_eq_none hpop, rfl⟩
  · cases h
  · next ts oid rest fuel' hpop =>
    right
    rw [bind_eq_ok] at h
    obtain ⟨c | c, hread, h⟩ := h
    · cases h
    · have hread := settle_eq_ok.mp hread
      simp only [bind_eq_ok] at h
      obtain ⟨⟨keepGoing, s₁⟩, hv, h⟩ := h
      refine ⟨fuel', ts, oid, rest, c, keepGoing, s₁, Nat.lt_succ_self _, hpop, hread, hv, ?_⟩
      cases keepGoing with
      | false => exact .inr ⟨rfl, h⟩
      | true =>
        simp only [if_true, bind_eq_ok] at h
        obtain ⟨r | ⟨seen', pq'⟩, hpush, h⟩ := h
        · cases h
        · exact .inl ⟨rfl, seen', pq', settle_eq_ok.mp hpush, h⟩

section
variable {cs : CommitStore} {tips : List Oid} {visit : σ → Oid → Commit → Outcome (Bool × σ)}
  {I : List Oid → σ → Prop} {G : σ → Prop}

/-- What holds of the walk's own state: everything seen has been visited or is
queued, and the parents of what has been visited have been seen. -/
structure WalkState (cs : CommitStore) (tips vs seen : List Oid) (pq : List Entry) : Prop where
  seen_iff : ∀ o, o ∈ seen ↔ o ∈ vs ∨ o ∈ pq.map Prod.snd
  readable : ∀ v ∈ vs, ∃ c, cs.read v = .ok c
  parents : ∀ v ∈ vs, ∀ c, cs.read v = .ok c → ∀ p ∈ c.parents, p ∈ seen
  sound : ∀ o ∈ seen, Reachable cs tips o

theorem WalkState.visit_next {vs seen : List Oid} {pq : List Entry} (w : WalkState cs tips vs seen pq) {ts : String}
    {oid : Oid} {rest : List Entry} {c : Commit} {seen' : List Oid} {pq' : List Entry}
    (hpop : popMax pq = some ((ts, oid), rest)) (hc : cs.read oid = .ok c)
    (hpush : pushUnseen cs c.parents seen rest = .ok (seen', pq')) :
    Reachable cs tips oid ∧ WalkState cs tips (oid :: vs) seen' pq' := by
  have hperm := (popMax_perm hpop).map Prod.snd
  have hpq : ∀ o, o ∈ pq.map Prod.snd ↔ o = oid ∨ o ∈ rest.map Prod.snd := by
    intro o
    rw [hperm.mem_iff, List.map_cons, List.mem_cons]
  obtain ⟨hseen, hqueue⟩ := pushUnseen_spec hpush
  have hreach : Reachable cs tips oid := w.sound oid ((w.seen_iff oid).mpr (.inr ((hpq oid).mpr (.inl rfl))))
  refine ⟨hreach, ?_, ?_, ?_, ?_⟩
  · intro o
    rw [hseen, w.seen_iff, hpq, hqueue, List.mem_cons, w.seen_iff, hpq]
    tauto
  · intro v hv
    rcases List.mem_cons.mp hv with rfl | hv
    · exact ⟨c, hc⟩
    · exact w.readable v hv
  · intro v hv c' hc' p hp
    rw [hseen]
    rcases List.mem_cons.mp hv with rfl | hv
    · rw [hc] at hc'
      cases hc'
      exact .inr hp
    · exact .inl (w.parents v hv c' hc' p hp)
  · intro o ho
    rcases (hseen o).mp ho with ho | ho
    · exact w.sound o ho
    · exact hreach.parent hc ho

theorem walkLoop_good
    (hgood : ∀ s oid c keepGoing s', visit s oid c = .ok (keepGoing, s') → G s' → G s ∧ keepGoing = true)
    {s' : σ} (hend : G s') : ∀ {fuel : Nat} {s : σ} {seen : List Oid} {pq : List Entry},
      walkLoop cs visit fuel s seen pq = .ok (s', .ok ()) → G s := by
  intro fuel
  induction fuel using Nat.strong_induction_on with
  | _ fuel ih =>
    intro s seen pq h
    rcases walkLoop_round h with ⟨_, rfl⟩ | ⟨fuel', _, _, _, _, _, _, hlt, _, _, hv, hnext⟩
    · exact hend
    · rcases hnext with ⟨_, _, _, _, hrec⟩ | ⟨_, hrec⟩
      · exact (hgood _ _ _ _ _ hv (ih fuel' hlt hrec)).1
      · exact (hgood _ _ _ _ _ hv (ih fuel' hlt hrec)).1

/-- The run: `I` goes with the visited list; a good end was good all along, so
no branch was cut and the visited list is closed. -/
theorem walkLoop_run
    (hstep : ∀ vs s oid c keepGoing s', I vs s → Reachable cs tips oid → cs.read oid = .ok c →
      visit s oid c = .ok (keepGoing, s') → I (oid :: vs) s')
    (hgood : ∀ s oid c keepGoing s', visit s oid c = .ok (keepGoing, s') → G s' → G s ∧ keepGoing = true)
    {s' : σ} (hend : G s') : ∀ {fuel : Nat} {s : σ} {vs seen : List Oid} {pq : List Entry},
      walkLoop cs visit fuel s seen pq = .ok (s', .ok ()) → I vs s → WalkState cs tips vs seen pq →
      ∃ vs' seen', (∀ o ∈ seen, o ∈ seen') ∧ I vs' s' ∧ WalkState cs tips vs' seen' [] := by
  intro fuel
  induction fuel using Nat.strong_induction_on with
  | _ fuel ih =>
    intro s vs seen pq h hinv w
    rcases walkLoop_round h with ⟨rfl, rfl⟩ | ⟨fuel', ts, oid, rest, c, keepGoing, s₁, hlt, hpop, hc, hv, hnext⟩
    · exact ⟨vs, seen, fun _ h => h, hinv, w⟩
    · rcases hnext with ⟨rfl, seen₁, pq₁, hpush, hrec⟩ | ⟨rfl, hrec⟩
      · obtain ⟨hreach, w₁⟩ := w.visit_next hpop hc hpush
        obtain ⟨vs', seen', hsub, hinv', w'⟩ := ih fuel' hlt hrec (hstep _ _ _ _ _ _ hinv hreach hc hv) w₁
        refine ⟨vs', seen', fun o ho => hsub o ?_, hinv', w'⟩
        exact ((pushUnseen_spec hpush).1 o).mpr (.inl ho)
      · -- A branch was cut: the state was not good then, and would not be at the end.
        exact absurd (walkLoop_good hgood hend hrec) fun hg => by cases (hgood _ _ _ _ _ hv hg).2

/-- The rule for walks: an invariant of the visitor, and a property of its end
state under which nothing was cut, give the invariant over exactly the reachable
commits, all of which read. -/
theorem walkCommits_run
    (hstep : ∀ vs s oid c keepGoing s', I vs s → Reachable cs tips oid → cs.read oid = .ok c →
      visit s oid c = .ok (keepGoing, s') → I (oid :: vs) s')
    (hgood : ∀ s oid c keepGoing s', visit s oid c = .ok (keepGoing, s') → G s' → G s ∧ keepGoing = true)
    {s s' : σ} (hinit : I [] s) (h : walkCommits cs tips visit s = .ok (s', .ok ())) (hend : G s') :
    ∃ vs, I vs s' ∧ (∀ o, o ∈ vs ↔ Reachable cs tips o) ∧ ∀ o ∈ vs, ∃ c, cs.read o = .ok c := by
  unfold walkCommits at h
  rw [bind_eq_ok] at h
  obtain ⟨r | ⟨seen, pq⟩, hpush, h⟩ := h
  · cases h
  · obtain ⟨hseen, hqueue⟩ := pushUnseen_spec (settle_eq_ok.mp hpush)
    have w : WalkState cs tips [] seen pq := by
      refine ⟨fun o => by simp [hseen, hqueue], nofun, nofun, fun o ho => ?_⟩
      rw [hseen] at ho
      exact ⟨o, ho.resolve_left nofun, Relation.ReflTransGen.refl⟩
    obtain ⟨vs, seen', hsub, hinv, w'⟩ := walkLoop_run hstep hgood hend h hinit w
    have hvs : ∀ o, o ∈ seen' ↔ o ∈ vs := fun o => by simp [w'.seen_iff]
    refine ⟨vs, hinv, fun o => ⟨fun ho => w'.sound o ((hvs o).mpr ho), fun ho => ?_⟩, w'.readable⟩
    refine ho.mem_of_closed (fun t ht => (hvs t).mp (hsub t ((hseen t).mpr (.inr ht)))) fun v hv c hc p hp => ?_
    exact (hvs p).mp (w'.parents v hv c hc p hp)

end

/-! ### What the reachable commits reference -/

/-- The objects that reachable commits and manifests name, with the kind each is
named as. -/
inductive Referenced (cs : CommitStore) (ms : ManifestStore) (tips : List Oid) : ObjectKind → Oid → Prop where
  | commit {o : Oid} (h : Reachable cs tips o) : Referenced cs ms tips .commit o
  | manifest {o : Oid} {c : Commit} (h : Reachable cs tips o) (hc : cs.read o = .ok c) :
    Referenced cs ms tips .manifest c.manifest
  | topology {o : Oid} {c : Commit} (h : Reachable cs tips o) (hc : cs.read o = .ok c) :
    Referenced cs ms tips .topology c.topology
  | header {o : Oid} {c : Commit} {m : Manifest} (h : Reachable cs tips o) (hc : cs.read o = .ok c)
    (hm : ms.read c.manifest = .ok m) : Referenced cs ms tips .header m.file.headerBlock
  | raw {o : Oid} {c : Commit} {m : Manifest} {name : String} {g : GroupEntry} {b : Oid} (h : Reachable cs tips o)
    (hc : cs.read o = .ok c) (hm : ms.read c.manifest = .ok m) (hg : (name, g) ∈ m.groups.entries)
    (hb : g.block = some b) : Referenced cs ms tips .raw b
  | diff {o : Oid} {c : Commit} {m : Manifest} {name : String} {g : GroupEntry} {d : Oid} (h : Reachable cs tips o)
    (hc : cs.read o = .ok c) (hm : ms.read c.manifest = .ok m) (hg : (name, g) ∈ m.groups.entries)
    (hd : g.diffBlock = some d) : Referenced cs ms tips .diff d

/-- `o` is one of the objects that the visit of commit `v` adds. -/
def AddedBy (cs : CommitStore) (ms : ManifestStore) (v o : Oid) : Prop :=
  ∃ c m, cs.read v = .ok c ∧ ms.read c.manifest = .ok m ∧
    (o = v ∨ o = c.manifest ∨ o = c.topology ∨ o ∈ manifestObjects m)

theorem referenced_of_addedBy {cs : CommitStore} {ms : ManifestStore} {tips : List Oid} {v o : Oid}
    (hv : Reachable cs tips v) (h : AddedBy cs ms v o) : ∃ kind, Referenced cs ms tips kind o := by
  obtain ⟨c, m, hc, hm, rfl | rfl | rfl | ho⟩ := h
  · exact ⟨_, .commit hv⟩
  · exact ⟨_, .manifest hv hc⟩
  · exact ⟨_, .topology hv hc⟩
  · rcases List.mem_cons.mp ho with rfl | ho
    · exact ⟨_, .header hv hc hm⟩
    · obtain ⟨⟨name, g⟩, hg, ho⟩ := List.mem_flatMap.mp ho
      rcases List.mem_append.mp ho with hb | hd
      · exact ⟨_, .raw hv hc hm hg (Option.mem_toList.mp hb)⟩
      · exact ⟨_, .diff hv hc hm hg (Option.mem_toList.mp hd)⟩

theorem addedBy_of_referenced {cs : CommitStore} {ms : ManifestStore} {tips : List Oid} {kind : ObjectKind} {o : Oid}
    (hread : ∀ v, Reachable cs tips v → ∃ c m, cs.read v = .ok c ∧ ms.read c.manifest = .ok m)
    (h : Referenced cs ms tips kind o) : ∃ v, Reachable cs tips v ∧ AddedBy cs ms v o := by
  have hgroup : ∀ {m : Manifest} {name : String} {g : GroupEntry}, (name, g) ∈ m.groups.entries →
      o ∈ groupObjects g → o ∈ manifestObjects m := fun hg ho =>
    List.mem_cons_of_mem _ (List.mem_flatMap.mpr ⟨_, hg, ho⟩)
  cases h with
  | commit hv =>
    obtain ⟨c, m, hc, hm⟩ := hread o hv
    exact ⟨o, hv, c, m, hc, hm, .inl rfl⟩
  | manifest hv hc =>
    obtain ⟨c', m, hc', hm⟩ := hread _ hv
    cases hc.symm.trans hc'
    exact ⟨_, hv, _, m, hc, hm, .inr (.inl rfl)⟩
  | topology hv hc =>
    obtain ⟨c', m, hc', hm⟩ := hread _ hv
    cases hc.symm.trans hc'
    exact ⟨_, hv, _, m, hc, hm, .inr (.inr (.inl rfl))⟩
  | header hv hc hm => exact ⟨_, hv, _, _, hc, hm, .inr (.inr (.inr (List.mem_cons_self)))⟩
  | raw hv hc hm hg hb =>
    refine ⟨_, hv, _, _, hc, hm, .inr (.inr (.inr (hgroup hg (List.mem_append_left _ ?_))))⟩
    rw [hb]
    exact List.mem_singleton_self _
  | diff hv hc hm hg hd =>
    refine ⟨_, hv, _, _, hc, hm, .inr (.inr (.inr (hgroup hg (List.mem_append_right _ ?_))))⟩
    rw [hd]
    exact List.mem_singleton_self _

theorem reachVisit_ok {ms : ManifestStore} {s s' : ReachState} {o : Oid} {c : Commit} {keepGoing : Bool}
    (h : reachVisit ms s o c = .ok (keepGoing, s')) :
    (∃ m, ms.read c.manifest = .ok m ∧ keepGoing = true ∧ s'.err = s.err ∧
      s'.objects = manifestObjects m ++ (o :: c.manifest :: c.topology :: s.objects)) ∨ s'.err ≠ none := by
  unfold reachVisit at h
  simp only [bind_eq_ok] at h
  obtain ⟨e | m, hm, h⟩ := h
  · cases h
    exact .inr nofun
  · cases h
    exact .inl ⟨m, settle_eq_ok.mp hm, rfl, rfl, rfl⟩

/-- Without an error so far, the objects are those the visited commits add. -/
def ReachInv (cs : CommitStore) (ms : ManifestStore) (vs : List Oid) (s : ReachState) : Prop :=
  s.err = none → (∀ o, o ∈ s.objects ↔ ∃ v ∈ vs, AddedBy cs ms v o) ∧
    ∀ v ∈ vs, ∃ c m, cs.read v = .ok c ∧ ms.read c.manifest = .ok m

theorem reachVisit_inv {cs : CommitStore} {ms : ManifestStore} {vs : List Oid} {s s' : ReachState} {oid : Oid}
    {c : Commit} {keepGoing : Bool} (hinv : ReachInv cs ms vs s) (hc : cs.read oid = .ok c)
    (hv : reachVisit ms s oid c = .ok (keepGoing, s')) : ReachInv cs ms (oid :: vs) s' := by
  intro herr
  rcases reachVisit_ok hv with ⟨m, hm, -, hkeep, hobj⟩ | hbad
  · obtain ⟨ho, hr⟩ := hinv (hkeep ▸ herr)
    have hself : ∀ o, AddedBy cs ms oid o ↔ o = oid ∨ o = c.manifest ∨ o = c.topology ∨ o ∈ manifestObjects m := by
      intro o
      constructor
      · rintro ⟨c', m', hc', hm', h⟩
        cases hc.symm.trans hc'
        cases hm.symm.trans hm'
        exact h
      · exact fun h => ⟨c, m, hc, hm, h⟩
    refine ⟨fun o => ?_, fun v hv => ?_⟩
    · rw [hobj]
      simp only [List.mem_append, List.mem_cons, ho, exists_eq_or_imp, hself]
      tauto
    · rcases List.mem_cons.mp hv with rfl | hv
      · exact ⟨c, m, hc, hm⟩
      · exact hr v hv
  · exact absurd herr hbad

theorem reachVisit_good {ms : ManifestStore} {s s' : ReachState} {oid : Oid} {c : Commit} {keepGoing : Bool}
    (hv : reachVisit ms s oid c = .ok (keepGoing, s')) (hg : s'.err = none) : s.err = none ∧ keepGoing = true := by
  rcases reachVisit_ok hv with ⟨m, -, hk, hkeep, -⟩ | hbad
  · exact ⟨hkeep ▸ hg, hk⟩
  · exact absurd hg hbad

/-- The list is what the reachable commits reference, and all of those read. -/
theorem reachableObjects_spec {cs : CommitStore} {ms : ManifestStore} {tips objs : List Oid}
    (h : reachableObjects cs ms tips = .ok objs) :
    (∀ o, o ∈ objs ↔ ∃ kind, Referenced cs ms tips kind o) ∧
      ∀ v, Reachable cs tips v → ∃ c m, cs.read v = .ok c ∧ ms.read c.manifest = .ok m := by
  unfold reachableObjects at h
  rw [bind_eq_ok] at h
  obtain ⟨⟨s, status⟩, hwalk, h⟩ := h
  dsimp only at h
  split at h
  · cases h
  · cases h
  · next herr =>
    cases h
    obtain ⟨vs, hinv, hvs, -⟩ := walkCommits_run (I := ReachInv cs ms) (G := fun s => s.err = none)
      (fun _ _ _ _ _ _ hinv _ hc hv => reachVisit_inv hinv hc hv) (fun _ _ _ _ _ hv hg => reachVisit_good hv hg)
      (fun _ => ⟨fun o => by simp, nofun⟩) hwalk herr
    obtain ⟨ho, hr⟩ := hinv herr
    have hread : ∀ v, Reachable cs tips v → ∃ c m, cs.read v = .ok c ∧ ms.read c.manifest = .ok m :=
      fun v hv => hr v ((hvs v).mpr hv)
    refine ⟨fun o => ?_, hread⟩
    rw [ho]
    constructor
    · rintro ⟨v, hv, ha⟩
      exact referenced_of_addedBy ((hvs v).mp hv) ha
    · rintro ⟨kind, hk⟩
      obtain ⟨v, hv, ha⟩ := addedBy_of_referenced hread hk
      exact ⟨v, (hvs v).mpr hv, ha⟩

/-! ### The bound is never reached -/

/-- Commits that can be read and have not been seen. -/
def unseen (cs : CommitStore) (seen : List Oid) : Nat := (cs.oids.toFinset \ seen.toFinset).card

theorem unseen_cons {cs : CommitStore} {seen : List Oid} {o : Oid} (ho : o ∈ cs.oids) (hnew : o ∉ seen) :
    unseen cs (o :: seen) + 1 = unseen cs seen := by
  have hmem : o ∈ cs.oids.toFinset \ seen.toFinset := by simp [ho, hnew]
  have herase : cs.oids.toFinset \ (o :: seen).toFinset = (cs.oids.toFinset \ seen.toFinset).erase o := by
    ext x
    simp only [List.toFinset_cons, Finset.mem_sdiff, Finset.mem_insert, Finset.mem_erase]
    tauto
  rw [unseen, unseen, herase, Finset.card_erase_of_mem hmem]
  have := Finset.card_pos.mpr ⟨o, hmem⟩
  omega

theorem unseen_le (cs : CommitStore) (seen : List Oid) : unseen cs seen ≤ cs.oids.length :=
  (Finset.card_le_card Finset.sdiff_subset).trans (List.toFinset_card_le _)

/-- Queueing moves commits from the unseen to the queue. -/
theorem pushUnseen_fuel (cs : CommitStore) (os : List Oid) : ∀ (seen : List Oid) (pq : List Entry),
    pushUnseen cs os seen pq ≠ .error .outOfFuel ∧ ∀ seen' pq', pushUnseen cs os seen pq = .ok (seen', pq') →
      pq'.length + unseen cs seen' = pq.length + unseen cs seen := by
  induction os with
  | nil =>
    intro seen pq
    refine ⟨nofun, fun seen' pq' h => ?_⟩
    cases h
    rfl
  | cons x xs ih =>
    intro seen pq
    unfold pushUnseen
    split
    · exact ih seen pq
    · next hx =>
      refine ⟨bind_fuel (cs.total x) fun c _ => (ih _ _).1, fun seen' pq' h => ?_⟩
      obtain ⟨c, hc, h⟩ := bind_eq_ok.mp h
      have := (ih _ _).2 _ _ h
      rw [this, List.length_cons]
      have := unseen_cons (cs.covers x c hc) hx
      omega

theorem walkLoop_fuel {cs : CommitStore} {visit : σ → Oid → Commit → Outcome (Bool × σ)}
    (hvisit : ∀ s o c, cs.read o = .ok c → visit s o c ≠ .error .outOfFuel) (fuel : Nat) :
    ∀ (s : σ) (seen : List Oid) (pq : List Entry), pq.length + unseen cs seen ≤ fuel →
      walkLoop cs visit fuel s seen pq ≠ .error .outOfFuel := by
  induction fuel with
  | zero =>
    intro s seen pq hle
    obtain rfl : pq = [] := List.eq_nil_of_length_eq_zero (by omega)
    exact nofun
  | succ fuel ih =>
    intro s seen pq hle
    unfold walkLoop
    split
    · exact nofun
    · next h => cases h
    · next ts oid rest fuel' hpop heq =>
      cases heq
      have hlen : pq.length = rest.length + 1 := by simpa using (popMax_perm hpop).length_eq
      refine bind_fuel (settle_fuel (cs.total oid)) fun r hr => ?_
      cases r with
      | error e => exact nofun
      | ok c =>
        refine bind_fuel (hvisit s oid c (settle_eq_ok.mp hr)) fun ⟨keepGoing, s₁⟩ _ => ?_
        dsimp only
        split
        · obtain ⟨hne, hpush⟩ := pushUnseen_fuel cs c.parents seen rest
          refine bind_fuel (settle_fuel hne) fun r hr => ?_
          cases r with
          | error e => exact nofun
          | ok p =>
            have := hpush p.1 p.2 (settle_eq_ok.mp hr)
            exact ih s₁ p.1 p.2 (by omega)
        · exact ih s₁ seen rest (by omega)

/-- Every walk ends: each readable commit is queued at most once. -/
theorem walkCommits_fuel {cs : CommitStore} {visit : σ → Oid → Commit → Outcome (Bool × σ)}
    (hvisit : ∀ s o c, cs.read o = .ok c → visit s o c ≠ .error .outOfFuel) (tips : List Oid) (s : σ) :
    walkCommits cs tips visit s ≠ .error .outOfFuel := by
  obtain ⟨hne, hpush⟩ := pushUnseen_fuel cs tips [] []
  refine bind_fuel (settle_fuel hne) fun r hr => ?_
  cases r with
  | error e => exact nofun
  | ok p =>
    have hle := hpush p.1 p.2 (settle_eq_ok.mp hr)
    have := unseen_le cs []
    exact walkLoop_fuel hvisit _ s p.1 p.2 (by rw [hle]; simpa using this)

theorem reachVisit_fuel (ms : ManifestStore) (s : ReachState) (o : Oid) (c : Commit) :
    reachVisit ms s o c ≠ .error .outOfFuel := by
  refine bind_fuel (settle_fuel (ms.total _)) fun r _ => ?_
  cases r <;> exact nofun

theorem reachableObjects_fuel (cs : CommitStore) (ms : ManifestStore) (tips : List Oid) :
    reachableObjects cs ms tips ≠ .error .outOfFuel := by
  refine bind_fuel (walkCommits_fuel (fun s o c _ => reachVisit_fuel ms s o c) tips _) fun ⟨s, status⟩ _ => ?_
  dsimp only
  split <;> exact nofun

theorem ancestorLoop_fuel (cs : CommitStore) (a : Oid) (fuel : Nat) : ∀ (visited stack : List Oid),
    stack.length + 2 * unseen cs visited ≤ fuel → ancestorLoop cs a fuel visited stack ≠ .error .outOfFuel := by
  induction fuel with
  | zero =>
    intro visited stack hle
    obtain rfl : stack = [] := List.eq_nil_of_length_eq_zero (by omega)
    exact nofun
  | succ fuel ih =>
    intro visited stack hle
    cases stack with
    | nil => exact nofun
    | cons cur stack =>
      rw [List.length_cons] at hle
      unfold ancestorLoop
      split
      · exact ih visited stack (by omega)
      · next hnew =>
        split
        · exact nofun
        · refine bind_fuel (cs.total cur) fun c hc => ih _ _ ?_
          have := unseen_cons (cs.covers cur c hc) hnew
          have := cs.parents_le cur c hc
          rw [List.length_append, List.length_reverse]
          omega

theorem isAncestor_fuel (cs : CommitStore) (a b : Oid) : isAncestor cs a b ≠ .error .outOfFuel := by
  unfold isAncestor
  split
  · exact nofun
  · refine ancestorLoop_fuel cs a _ [] [b] ?_
    have := unseen_le cs []
    rw [List.length_singleton]
    omega

/-! ### Ancestry is decided -/

/-- Everything visited or stacked comes from `b`; the parents of what has been
visited are visited or stacked; `a` has not been visited. -/
structure AncestorState (cs : CommitStore) (a b : Oid) (visited stack : List Oid) : Prop where
  start : b ∈ visited ∨ b ∈ stack
  sound : ∀ o ∈ stack, Ancestor cs b o
  parents : ∀ v ∈ visited, ∀ c, cs.read v = .ok c → ∀ p ∈ c.parents, p ∈ visited ∨ p ∈ stack
  absent : a ∉ visited

theorem ancestor_end {cs : CommitStore} {a b : Oid} {fuel : Nat} {visited : List Oid} {r : Bool}
    (w : AncestorState cs a b visited []) (h : ancestorLoop cs a fuel visited [] = .ok r) :
    r = true ↔ Ancestor cs b a := by
  have hr : r = false := by
    cases fuel <;> (cases h; rfl)
  subst hr
  refine ⟨nofun, fun ha => absurd ?_ w.absent⟩
  refine Reachable.mem_of_closed ⟨b, List.mem_singleton_self b, ha⟩ (fun t ht => ?_) fun v hv c hc p hp => ?_
  · rw [List.mem_singleton.mp ht]
    exact w.start.resolve_right nofun
  · exact (w.parents v hv c hc p hp).resolve_right nofun

/-- Dropping a stacked commit that has been visited loses nothing. -/
theorem mem_of_popped {cur o : Oid} {visited stack : List Oid} (h : o ∈ visited ∨ o ∈ cur :: stack)
    (hseen : cur ∈ visited) : o ∈ visited ∨ o ∈ stack := by
  rcases h with h | h
  · exact .inl h
  · exact (List.mem_cons.mp h).elim (fun he => .inl (he ▸ hseen)) .inr

theorem ancestorLoop_spec {cs : CommitStore} {a b : Oid} : ∀ {fuel : Nat} {visited stack : List Oid} {r : Bool},
    AncestorState cs a b visited stack → ancestorLoop cs a fuel visited stack = .ok r →
      (r = true ↔ Ancestor cs b a) := by
  intro fuel
  induction fuel with
  | zero =>
    intro visited stack r w h
    cases stack with
    | nil => exact ancestor_end w h
    | cons cur stack => cases h
  | succ fuel ih =>
    intro visited stack r w h
    cases stack with
    | nil => exact ancestor_end w h
    | cons cur stack =>
      unfold ancestorLoop at h
      split at h
      · next hseen =>
        refine ih ⟨?_, fun o ho => w.sound o (List.mem_cons_of_mem _ ho), fun v hv c hc p hp => ?_, w.absent⟩ h
        · exact mem_of_popped w.start hseen
        · exact mem_of_popped (w.parents v hv c hc p hp) hseen
      · split at h
        · next ha =>
          cases h
          subst ha
          exact ⟨fun _ => w.sound _ List.mem_cons_self, fun _ => rfl⟩
        · next ha =>
          obtain ⟨c, hc, h⟩ := bind_eq_ok.mp h
          have hcur := w.sound cur List.mem_cons_self
          refine ih ⟨?_, fun o ho => ?_, fun v hv c' hc' p hp => ?_, ?_⟩ h
          · rcases w.start with hb | hb
            · exact .inl (List.mem_cons_of_mem _ hb)
            · exact (List.mem_cons.mp hb).elim (fun he => .inl (he ▸ List.mem_cons_self))
                fun hb => .inr (List.mem_append_right _ hb)
          · rcases List.mem_append.mp ho with ho | ho
            · exact hcur.tail ⟨c, hc, List.mem_reverse.mp ho⟩
            · exact w.sound o (List.mem_cons_of_mem _ ho)
          · rcases List.mem_cons.mp hv with rfl | hv
            · cases hc.symm.trans hc'
              exact .inr (List.mem_append_left _ (List.mem_reverse.mpr hp))
            · rcases w.parents v hv c' hc' p hp with hp | hp
              · exact .inl (List.mem_cons_of_mem _ hp)
              · exact (List.mem_cons.mp hp).elim (fun he => .inl (he ▸ List.mem_cons_self))
                  fun hp => .inr (List.mem_append_right _ hp)
          · exact fun hm => (List.mem_cons.mp hm).elim (fun he => ha he.symm) w.absent

theorem isAncestor_spec {cs : CommitStore} {a b : Oid} {r : Bool} (h : isAncestor cs a b = .ok r) :
    r = true ↔ Ancestor cs b a := by
  unfold isAncestor at h
  split at h
  · next he =>
    cases h
    exact ⟨fun _ => he ▸ Relation.ReflTransGen.refl, fun _ => rfl⟩
  · refine ancestorLoop_spec ⟨.inr List.mem_cons_self, fun o ho => ?_, fun v hv => absurd hv List.not_mem_nil,
      List.not_mem_nil⟩ h
    rw [List.mem_singleton.mp ho]
    exact Relation.ReflTransGen.refl

/-- Where everything reachable reads, ancestry has an answer. -/
theorem ancestorLoop_ok {cs : CommitStore} {a b : Oid} (hread : ∀ o, Ancestor cs b o → ∃ c, cs.read o = .ok c) :
    ∀ (fuel : Nat) (visited stack : List Oid), (∀ o ∈ stack, Ancestor cs b o) →
      ancestorLoop cs a fuel visited stack = .error .outOfFuel ∨ ∃ r, ancestorLoop cs a fuel visited stack = .ok r := by
  intro fuel
  induction fuel with
  | zero =>
    intro visited stack _
    cases stack with
    | nil => exact .inr ⟨_, rfl⟩
    | cons _ _ => exact .inl rfl
  | succ fuel ih =>
    intro visited stack hs
    cases stack with
    | nil => exact .inr ⟨_, rfl⟩
    | cons cur stack =>
      unfold ancestorLoop
      split
      · exact ih visited stack fun o ho => hs o (List.mem_cons_of_mem _ ho)
      · split
        · exact .inr ⟨_, rfl⟩
        · have hcur := hs cur List.mem_cons_self
          obtain ⟨c, hc⟩ := hread cur hcur
          rw [hc]
          refine ih _ _ fun o ho => ?_
          rcases List.mem_append.mp ho with ho | ho
          · exact hcur.tail ⟨c, hc, List.mem_reverse.mp ho⟩
          · exact hs o (List.mem_cons_of_mem _ ho)

theorem isAncestor_ok {cs : CommitStore} {b : Oid} (hread : ∀ o, Ancestor cs b o → ∃ c, cs.read o = .ok c) (a : Oid) :
    ∃ r, isAncestor cs a b = .ok r := by
  have hfuel := isAncestor_fuel cs a b
  unfold isAncestor at hfuel ⊢
  split at hfuel
  · next he => exact ⟨true, if_pos he⟩
  · next hne =>
    rw [if_neg hne]
    refine (ancestorLoop_ok hread _ [] [b] fun o ho => ?_).resolve_left hfuel
    rw [List.mem_singleton.mp ho]
    exact Relation.ReflTransGen.refl

theorem isAncestor_of_ancestor {cs : CommitStore} {a b : Oid} (hread : ∀ o, Ancestor cs b o → ∃ c, cs.read o = .ok c)
    (h : Ancestor cs b a) : isAncestor cs a b = .ok true := by
  obtain ⟨r, hr⟩ := isAncestor_ok hread a
  rw [hr, (isAncestor_spec hr).mpr h]

/-! ### Walks of what reads succeed -/

section
variable {cs : CommitStore} {tips : List Oid} {visit : σ → Oid → Commit → Outcome (Bool × σ)} {G : σ → Prop}

theorem pushUnseen_ok {os : List Oid} (hread : ∀ o ∈ os, ∃ c, cs.read o = .ok c) : ∀ (seen : List Oid) (pq : List Entry),
    ∃ r, pushUnseen cs os seen pq = .ok r := by
  induction os with
  | nil => exact fun seen pq => ⟨_, rfl⟩
  | cons x xs ih =>
    intro seen pq
    have hrest := ih fun o ho => hread o (List.mem_cons_of_mem _ ho)
    unfold pushUnseen
    split
    · exact hrest seen pq
    · obtain ⟨c, hc⟩ := hread x List.mem_cons_self
      rw [hc]
      exact hrest _ _

theorem walkLoop_ok (hread : ∀ o, Reachable cs tips o → ∃ c, cs.read o = .ok c)
    (hvisit : ∀ s o c, G s → Reachable cs tips o → cs.read o = .ok c → ∃ s', visit s o c = .ok (true, s') ∧ G s') :
    ∀ (fuel : Nat) (s : σ) (seen : List Oid) (pq : List Entry), G s → (∀ o ∈ pq.map Prod.snd, Reachable cs tips o) →
      walkLoop cs visit fuel s seen pq = .error .outOfFuel ∨
        ∃ s', walkLoop cs visit fuel s seen pq = .ok (s', .ok ()) ∧ G s' := by
  intro fuel
  induction fuel with
  | zero =>
    intro s seen pq hg _
    unfold walkLoop
    cases popMax pq with
    | none => exact .inr ⟨s, rfl, hg⟩
    | some _ => exact .inl rfl
  | succ fuel ih =>
    intro s seen pq hg hpq
    unfold walkLoop
    cases hpop : popMax pq with
    | none => exact .inr ⟨s, rfl, hg⟩
    | some e =>
      obtain ⟨⟨ts, oid⟩, rest⟩ := e
      have hmem : ∀ o, o ∈ pq.map Prod.snd ↔ o = oid ∨ o ∈ rest.map Prod.snd := fun o => by
        rw [((popMax_perm hpop).map Prod.snd).mem_iff, List.map_cons, List.mem_cons]
      have hreach := hpq oid ((hmem oid).mpr (.inl rfl))
      obtain ⟨c, hc⟩ := hread oid hreach
      obtain ⟨s₁, hv, hg₁⟩ := hvisit s oid c hg hreach hc
      obtain ⟨⟨seen', pq'⟩, hpush⟩ := pushUnseen_ok (fun p hp => hread p (hreach.parent hc hp)) seen rest
      have hnext := ih s₁ seen' pq' hg₁ fun o ho => by
        rcases ((pushUnseen_spec hpush).2 o).mp ho with ho | ho
        · exact hpq o ((hmem o).mpr (.inr ho))
        · exact hreach.parent hc ho.1
      simpa only [settle, hc, hv, hpush, bind, Except.bind, if_true] using hnext

theorem walkCommits_ok (hread : ∀ o, Reachable cs tips o → ∃ c, cs.read o = .ok c)
    (hvisit : ∀ s o c, G s → Reachable cs tips o → cs.read o = .ok c → ∃ s', visit s o c = .ok (true, s') ∧ G s')
    (hfuel : ∀ s o c, cs.read o = .ok c → visit s o c ≠ .error .outOfFuel) {s : σ} (hg : G s) :
    ∃ s', walkCommits cs tips visit s = .ok (s', .ok ()) ∧ G s' := by
  have htip : ∀ o ∈ tips, Reachable cs tips o := fun o ho => ⟨o, ho, Relation.ReflTransGen.refl⟩
  obtain ⟨⟨seen, pq⟩, hpush⟩ := pushUnseen_ok (fun o ho => hread o (htip o ho)) [] []
  have hwalk : walkCommits cs tips visit s = walkLoop cs visit cs.oids.length s seen pq := by
    unfold walkCommits
    rw [hpush]
    rfl
  have hne := walkCommits_fuel hfuel tips s
  rw [hwalk] at hne ⊢
  refine (walkLoop_ok hread hvisit _ s seen pq hg fun o ho => ?_).resolve_left hne
  rcases ((pushUnseen_spec hpush).2 o).mp ho with ho | ho
  · cases ho
  · exact htip o ho.1

end

/-- Where all reachable commits and their manifests read, the objects are listed. -/
theorem reachableObjects_ok {cs : CommitStore} {ms : ManifestStore} {tips : List Oid}
    (hread : ∀ o, Reachable cs tips o → ∃ c m, cs.read o = .ok c ∧ ms.read c.manifest = .ok m) :
    ∃ objs, reachableObjects cs ms tips = .ok objs := by
  have hvisit : ∀ (s : ReachState) o c, s.err = none → Reachable cs tips o → cs.read o = .ok c →
      ∃ s', reachVisit ms s o c = .ok (true, s') ∧ s'.err = none := by
    intro s o c hg ho hc
    obtain ⟨c', m, hc', hm⟩ := hread o ho
    cases hc.symm.trans hc'
    refine ⟨{ s with objects := manifestObjects m ++ o :: c.manifest :: c.topology :: s.objects }, ?_, hg⟩
    rw [reachVisit, hm]
    rfl
  have hwalk : ∃ s, walkCommits cs tips (reachVisit ms) ⟨[], none⟩ = .ok (s, .ok ()) ∧ s.err = none :=
    walkCommits_ok (fun o ho => (hread o ho).imp fun c ⟨_, hc, _⟩ => hc) hvisit
      (fun s o c _ => reachVisit_fuel ms s o c) rfl
  obtain ⟨⟨objects, err⟩, hwalk, rfl⟩ := hwalk
  rw [reachableObjects, hwalk]
  exact ⟨objects, rfl⟩

end SynapseFs.Store
