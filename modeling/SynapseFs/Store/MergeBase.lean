import SynapseFs.Lib.BreadthFirst
import SynapseFs.Store.MergeLogic

/-! What the merge base is.

The search goes out from the second commit by hops and stops at the first commit of
the first one's history. That commit is a common ancestor, and there is none where
the search finds none; but hops are not generations, so it need not be a lowest one.
`mergeBase_lowest_iff` says which histories are merged on a lowest common ancestor. -/
namespace SynapseFs.Store
open Lib Core Format BreadthFirst

theorem ancestor_iff_follow {cs : CommitStore} {a b : Oid} :
    Ancestor cs b a ↔ ∃ p, follow (parentsOf cs) b p = some a := by
  rw [← reaches_iff_follow]
  have hrel : (fun x y => y ∈ parentsOf cs x) = ParentOf cs := by
    funext x y
    exact propext mem_parentsOf
  rw [hrel]
  exact Iff.rfl

/-! ### The two searches -/

/-- The history of `a`, as a list. -/
theorem ancestorsLoop_spec {cs : CommitStore} {a : Oid} (hread : ∀ o, Ancestor cs a o → ∃ c, cs.read o = .ok c) :
    ∀ (fuel : Nat) (visited stack : List Oid), (∀ o, o ∈ visited ∨ o ∈ stack → Ancestor cs a o) →
      (a ∈ visited ∨ a ∈ stack) →
      (∀ v ∈ visited, ∀ c, cs.read v = .ok c → ∀ p ∈ c.parents, p ∈ visited ∨ p ∈ stack) →
      stack.length + 2 * unseen cs visited ≤ fuel →
      ∃ vs, ancestorsLoop cs fuel visited stack = .ok vs ∧ ∀ o, o ∈ vs ↔ Ancestor cs a o := by
  have hdone : ∀ visited : List Oid, (∀ o, o ∈ visited ∨ o ∈ ([] : List Oid) → Ancestor cs a o) →
      (a ∈ visited ∨ a ∈ ([] : List Oid)) →
      (∀ v ∈ visited, ∀ c, cs.read v = .ok c → ∀ p ∈ c.parents, p ∈ visited ∨ p ∈ ([] : List Oid)) →
      ∀ o, o ∈ visited ↔ Ancestor cs a o := by
    intro visited hsound hstart hparents o
    refine ⟨fun h => hsound o (.inl h), fun h => ?_⟩
    refine Reachable.mem_of_closed ⟨a, List.mem_singleton_self a, h⟩ (fun t ht => ?_) fun v hv c hc p hp => ?_
    · rw [List.mem_singleton.mp ht]
      exact hstart.resolve_right List.not_mem_nil
    · exact (hparents v hv c hc p hp).resolve_right List.not_mem_nil
  intro fuel
  induction fuel with
  | zero =>
    intro visited stack hsound hstart hparents hle
    obtain rfl : stack = [] := List.eq_nil_of_length_eq_zero (by omega)
    exact ⟨visited, rfl, hdone visited hsound hstart hparents⟩
  | succ fuel ih =>
    intro visited stack hsound hstart hparents hle
    cases stack with
    | nil => exact ⟨visited, rfl, hdone visited hsound hstart hparents⟩
    | cons cur stack =>
      rw [List.length_cons] at hle
      unfold ancestorsLoop
      split
      · next hseen =>
        refine ih visited stack (fun o ho => hsound o ?_) (mem_of_popped hstart hseen)
          (fun v hv c hc p hp => mem_of_popped (hparents v hv c hc p hp) hseen) (by omega)
        exact ho.imp_right (List.mem_cons_of_mem _)
      · next hnew =>
        have hcur := hsound cur (.inr List.mem_cons_self)
        obtain ⟨c, hc⟩ := hread cur hcur
        rw [hc]
        have hmove : ∀ o, o ∈ visited ∨ o ∈ cur :: stack → o ∈ cur :: visited ∨ o ∈ c.parents.reverse ++ stack := by
          rintro o (ho | ho)
          · exact .inl (List.mem_cons_of_mem _ ho)
          · exact (List.mem_cons.mp ho).elim (fun he => .inl (he ▸ List.mem_cons_self))
              fun ho => .inr (List.mem_append_right _ ho)
        refine ih _ _ (fun o ho => ?_) (hmove a hstart) (fun v hv c' hc' p hp => ?_) (unseen_visit hc hnew ?_ hle)
        · rcases ho with ho | ho
          · rcases List.mem_cons.mp ho with rfl | ho
            · exact hcur
            · exact hsound o (.inl ho)
          · rcases List.mem_append.mp ho with ho | ho
            · exact hcur.tail ⟨c, hc, List.mem_reverse.mp ho⟩
            · exact hsound o (.inr (List.mem_cons_of_mem _ ho))
        · rcases List.mem_cons.mp hv with rfl | hv
          · cases hc.symm.trans hc'
            exact .inr (List.mem_append_left _ (List.mem_reverse.mpr hp))
          · exact hmove p (hparents v hv c' hc' p hp)
        · rw [List.length_append, List.length_reverse, Nat.add_comm]

/-- The search finds the end of the first path into `A`, or there is no path into it. -/
theorem mergeBaseLoop_spec {cs : CommitStore} {b : Oid} (hread : ∀ o, Ancestor cs b o → ∃ c, cs.read o = .ok c)
    (A : List Oid) : ∀ (fuel : Nat) (visited queue : List Oid), Frontier (parentsOf cs) (· ∈ A) b visited queue →
      (∀ o ∈ queue, Ancestor cs b o) → queue.length + 2 * unseen cs visited ≤ fuel →
      ∃ r, mergeBaseLoop cs A fuel visited queue = .ok r ∧
        (∀ c, r = some c → ∃ p, FirstHit (parentsOf cs) (· ∈ A) b p c) ∧
        (r = none → ∀ c, Ancestor cs b c → c ∉ A) := by
  have hdone : ∀ visited : List Oid, Frontier (parentsOf cs) (· ∈ A) b visited [] →
      ∀ c, Ancestor cs b c → c ∉ A := by
    intro visited hf c hc
    obtain ⟨p, hp⟩ := ancestor_iff_follow.mp hc
    exact hf.none hp
  intro fuel
  induction fuel with
  | zero =>
    intro visited queue hf _ hle
    obtain rfl : queue = [] := List.eq_nil_of_length_eq_zero (by omega)
    exact ⟨none, rfl, (fun c hc => by cases hc), fun _ => hdone visited hf⟩
  | succ fuel ih =>
    intro visited queue hf hqueue hle
    cases queue with
    | nil => exact ⟨none, rfl, (fun c hc => by cases hc), fun _ => hdone visited hf⟩
    | cons cur queue =>
      rw [List.length_cons] at hle
      unfold mergeBaseLoop
      split
      · next hseen =>
        exact ih visited queue (hf.skip hseen) (fun o ho => hqueue o (List.mem_cons_of_mem _ ho)) (by omega)
      · next hnew =>
        split
        · next hhit =>
          refine ⟨some cur, rfl, fun c hc => ?_, fun hc => by cases hc⟩
          cases hc
          exact hf.hit hhit
        · next hmiss =>
          have hcur := hqueue cur List.mem_cons_self
          obtain ⟨c, hc⟩ := hread cur hcur
          rw [hc]
          have hnext := hf.visit hmiss
          rw [parentsOf_eq hc] at hnext
          refine ih _ _ hnext (fun o ho => ?_) (unseen_visit hc hnew ?_ hle)
          · rcases List.mem_append.mp ho with ho | ho
            · exact hqueue o (List.mem_cons_of_mem _ ho)
            · exact hcur.tail ⟨c, hc, ho⟩
          · rw [List.length_append]

/-! ### The base -/

section
variable (cs : CommitStore) (a b : Oid)

def CommonAncestor (c : Oid) : Prop := Ancestor cs a c ∧ Ancestor cs b c

/-- No other common ancestor descends from it. -/
def LowestCommonAncestor (c : Oid) : Prop :=
  CommonAncestor cs a b c ∧ ∀ d, CommonAncestor cs a b d → d ≠ c → ¬Ancestor cs d c

/-- From `b`, some lowest common ancestor is nearer than every common ancestor that is not lowest: fewer hops away,
or as many along earlier parents. -/
def LowestNearest : Prop :=
  ∀ p e, follow (parentsOf cs) b p = some e → CommonAncestor cs a b e → ¬LowestCommonAncestor cs a b e →
    ∃ q d, Before q p ∧ follow (parentsOf cs) b q = some d ∧ LowestCommonAncestor cs a b d

variable {cs a b}

/-- The rule: where both histories can be read, the base is the common ancestor that is nearest to `b`. -/
theorem mergeBase_spec (hread : ∀ o, Ancestor cs a o ∨ Ancestor cs b o → ∃ c, cs.read o = .ok c) :
    ∃ r, mergeBase cs a b = .ok r ∧
      (∀ c, r = some c → ∃ p, FirstHit (parentsOf cs) (CommonAncestor cs a b) b p c) ∧
      (r = none ↔ ∀ c, ¬CommonAncestor cs a b c) := by
  have hunseen := unseen_le cs []
  obtain ⟨A, hA, hmem⟩ := ancestorsLoop_spec (fun o ho => hread o (.inl ho)) (2 * cs.oids.length + 1) [] [a]
    (fun o ho => by
      rw [List.mem_singleton.mp (ho.resolve_left List.not_mem_nil)]
      exact .refl)
    (.inr List.mem_cons_self) nofun (by rw [List.length_singleton]; omega)
  obtain ⟨r, hr, hsome, hnone⟩ := mergeBaseLoop_spec (fun o ho => hread o (.inr ho)) A (2 * cs.oids.length + 1) [] [b]
    (Frontier.start _ b)
    (fun o ho => by
      rw [List.mem_singleton.mp ho]
      exact .refl)
    (by rw [List.length_singleton]; omega)
  have hcommon {p : List Nat} {c : Oid} (hp : follow (parentsOf cs) b p = some c) :
      c ∈ A ↔ CommonAncestor cs a b c := by
    rw [hmem]
    exact ⟨fun h => ⟨h, ancestor_iff_follow.mpr ⟨p, hp⟩⟩, And.left⟩
  refine ⟨r, bind_eq_ok.mpr ⟨A, hA, hr⟩, fun c hc => ?_, fun hempty c hc => ?_, fun hno => ?_⟩
  · obtain ⟨p, hfirst⟩ := hsome c hc
    exact ⟨p, hfirst.ends, (hcommon hfirst.ends).mp hfirst.hit, fun q d hq hd =>
      hfirst.first q d hq ((hcommon hq).mpr hd)⟩
  · exact hnone hempty c hc.2 ((hmem c).mpr hc.1)
  · cases r with
    | none => rfl
    | some c =>
      obtain ⟨p, hfirst⟩ := hsome c rfl
      exact absurd ((hcommon hfirst.ends).mp hfirst.hit) (hno c)

/-- The base is a lowest common ancestor, or rightly empty, exactly where a lowest common ancestor is nearest. -/
theorem mergeBase_lowest_iff (hread : ∀ o, Ancestor cs a o ∨ Ancestor cs b o → ∃ c, cs.read o = .ok c) :
    (∃ r, mergeBase cs a b = .ok r ∧ (∀ c, r = some c → LowestCommonAncestor cs a b c) ∧
      (r = none ↔ ∀ c, ¬CommonAncestor cs a b c)) ↔ LowestNearest cs a b := by
  obtain ⟨r, hr, hsome, hnone⟩ := mergeBase_spec hread
  constructor
  · rintro ⟨r', hr', hlow, -⟩
    cases hr.symm.trans hr'
    intro p e hp he hnot
    cases r with
    | none => exact absurd he (hnone.mp rfl e)
    | some c =>
      obtain ⟨q, hfirst⟩ := hsome c rfl
      refine ⟨q, c, ?_, hfirst.ends, hlow c rfl⟩
      rcases trichotomous_of Before q p with hlt | rfl | hlt
      · exact hlt
      · -- the two paths have one end, and only one of the ends is lowest
        cases hfirst.ends.symm.trans hp
        exact absurd (hlow _ rfl) hnot
      · exact absurd hlt (hfirst.first p e hp he)
  · intro hnear
    refine ⟨r, hr, fun c hc => ?_, hnone⟩
    obtain ⟨p, hfirst⟩ := hsome c hc
    by_contra hnot
    obtain ⟨q, d, hlt, hq, hd⟩ := hnear p c hfirst.ends hfirst.hit hnot
    exact hfirst.first q d hq hd.1 hlt

end

/-! ### Two small histories -/

def smallOid (n : UInt8) : Oid := .fill n

/-- The commits of a list, each with its parents. -/
def smallCommits (rows : List (Oid × List Oid)) (h : ∀ r ∈ rows, r.2.length ≤ 2) : CommitStore where
  read o :=
    match rows.find? fun r => r.1 = o with
    | some r => .ok ⟨1, r.2, smallOid 0, smallOid 0, "2026-01-01T00:00:00Z", "author", "message"⟩
    | none => sfsErr .objectNotFound "object not found" ""
  oids := rows.map Prod.fst
  covers o c ho := by
    split at ho
    · next r hr =>
      have hfound := List.find?_some hr
      have he : r.1 = o := of_decide_eq_true hfound
      exact List.mem_map.mpr ⟨r, List.mem_of_find?_eq_some hr, he⟩
    · exact absurd ho sfsErr_ne_ok
  parents_le o c ho := by
    split at ho
    · next r hr =>
      cases ho
      exact h r (List.mem_of_find?_eq_some hr)
    · exact absurd ho sfsErr_ne_ok
  total o := by
    split <;> exact nofun

/-- Two commits on one root. -/
def forkedCommits : CommitStore :=
  smallCommits [(smallOid 1, []), (smallOid 2, [smallOid 1]), (smallOid 3, [smallOid 1])] (by decide)

theorem mergeBase_lowest_forked :
    (∀ o, Ancestor forkedCommits (smallOid 2) o ∨ Ancestor forkedCommits (smallOid 3) o →
      ∃ c, forkedCommits.read o = .ok c) ∧
    ∃ r, mergeBase forkedCommits (smallOid 2) (smallOid 3) = .ok r ∧
      (∀ c, r = some c → LowestCommonAncestor forkedCommits (smallOid 2) (smallOid 3) c) ∧
      (r = none ↔ ∀ c, ¬CommonAncestor forkedCommits (smallOid 2) (smallOid 3) c) := by
  have hours {o : Oid} (h : Ancestor forkedCommits (smallOid 2) o) : o ∈ [smallOid 2, smallOid 1] :=
    mem_of_ancestor h (by decide) (by decide)
  have htheirs {o : Oid} (h : Ancestor forkedCommits (smallOid 3) o) : o ∈ [smallOid 3, smallOid 1] :=
    mem_of_ancestor h (by decide) (by decide)
  have hcommon {o : Oid} (h : CommonAncestor forkedCommits (smallOid 2) (smallOid 3) o) : o = smallOid 1 := by
    have ho := hours h.1
    have ht := htheirs h.2
    simp only [List.mem_cons, List.not_mem_nil, or_false] at ho ht
    rcases ho with rfl | rfl
    · exact absurd ht (by decide)
    · rfl
  have hread : ∀ o, Ancestor forkedCommits (smallOid 2) o ∨ Ancestor forkedCommits (smallOid 3) o →
      ∃ c, forkedCommits.read o = .ok c := by
    rintro o (h | h)
    · have ho := hours h
      simp only [List.mem_cons, List.not_mem_nil, or_false] at ho
      rcases ho with rfl | rfl <;> exact ⟨_, rfl⟩
    · have ho := htheirs h
      simp only [List.mem_cons, List.not_mem_nil, or_false] at ho
      rcases ho with rfl | rfl <;> exact ⟨_, rfl⟩
  refine ⟨hread, (mergeBase_lowest_iff hread).mpr fun p e _ he hnot => absurd ⟨he, fun d hd hne => ?_⟩ hnot⟩
  exact absurd ((hcommon hd).trans (hcommon he).symm) hne

/-- A root 1 with a child 2; 3 and 4 go on from 2, 5 from the root; 6 merges 4 into 5. -/
def crossedCommits : CommitStore :=
  smallCommits [(smallOid 1, []), (smallOid 2, [smallOid 1]), (smallOid 3, [smallOid 2]), (smallOid 4, [smallOid 2]),
    (smallOid 5, [smallOid 1]), (smallOid 6, [smallOid 5, smallOid 4])] (by decide)

/-- The root is as near to 6 as its child is, and along the first parent. -/
theorem mergeBase_crossed : mergeBase crossedCommits (smallOid 3) (smallOid 6) = .ok (some (smallOid 1)) ∧
    ¬LowestCommonAncestor crossedCommits (smallOid 3) (smallOid 6) (smallOid 1) := by
  have hstep {a b : Oid} (h : b ∈ parentsOf crossedCommits a) : Ancestor crossedCommits a b :=
    .single (mem_parentsOf.mp h)
  refine ⟨by decide, fun hlow => ?_⟩
  have hours : Ancestor crossedCommits (smallOid 3) (smallOid 2) := hstep (by decide)
  have htheirs : Ancestor crossedCommits (smallOid 6) (smallOid 2) :=
    (hstep (by decide) : Ancestor crossedCommits (smallOid 6) (smallOid 4)).trans (hstep (by decide))
  exact hlow.2 (smallOid 2) ⟨hours, htheirs⟩ (by decide) (hstep (by decide))

theorem mergeBase_not_lowest :
    ¬∃ r, mergeBase crossedCommits (smallOid 3) (smallOid 6) = .ok r ∧
      (∀ c, r = some c → LowestCommonAncestor crossedCommits (smallOid 3) (smallOid 6) c) ∧
      (r = none ↔ ∀ c, ¬CommonAncestor crossedCommits (smallOid 3) (smallOid 6) c) := by
  rintro ⟨r, hr, hlow, -⟩
  cases mergeBase_crossed.1.symm.trans hr
  exact mergeBase_crossed.2 (hlow _ rfl)

end SynapseFs.Store
