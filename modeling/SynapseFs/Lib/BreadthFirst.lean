import Mathlib.Data.List.Shortlex
import Mathlib.Logic.Relation

/-! Breadth-first search, and what it finds first.

A path out of a node is a list of indices into successor lists. A queue with a
visited set meets the nodes in the order of their first paths, shorter ones first
and then by index (`List.Shortlex`), so the first goal it meets ends the first path
into a goal. `Frontier` is the invariant; its lemmas are the rounds of the loop. -/
namespace SynapseFs.Lib.BreadthFirst

variable {α : Type} (next : α → List α)

/-- Where the path out of `a` ends. -/
def follow : α → List Nat → Option α
  | a, [] => some a
  | a, i :: rest => (next a)[i]?.bind fun b => follow b rest

/-- The order in which paths are met. -/
abbrev Before (p q : List Nat) : Prop := List.Shortlex (· < ·) p q

variable {next}

theorem follow_append (a : α) (p q : List Nat) : follow next a (p ++ q) = (follow next a p).bind fun b => follow next b q := by
  induction p generalizing a with
  | nil => rfl
  | cons i rest ih =>
    show (next a)[i]?.bind (fun b => follow next b (rest ++ q)) = _
    rw [follow, Option.bind_assoc]
    exact congrArg _ (funext ih)

theorem follow_singleton (a : α) (i : Nat) : follow next a [i] = (next a)[i]? := by
  show (next a)[i]?.bind some = _
  rw [Option.bind_fun_some]

/-- What can be reached has a path. -/
theorem reaches_iff_follow {a c : α} :
    Relation.ReflTransGen (fun x y => y ∈ next x) a c ↔ ∃ p, follow next a p = some c := by
  constructor
  · intro h
    induction h with
    | refl => exact ⟨[], rfl⟩
    | tail _ hstep ih =>
      obtain ⟨p, hp⟩ := ih
      obtain ⟨i, hi⟩ := List.mem_iff_getElem?.mp hstep
      refine ⟨p ++ [i], ?_⟩
      rw [follow_append, hp, Option.bind_some, follow_singleton, hi]
  · rintro ⟨p, hp⟩
    induction p generalizing a with
    | nil =>
      cases hp
      exact .refl
    | cons i rest ih =>
      obtain ⟨b, hb, hrest⟩ := Option.bind_eq_some_iff.mp hp
      exact .head (List.mem_iff_getElem?.mpr ⟨i, hb⟩) (ih hrest)

/-! ### The order -/

theorem before_trans {p q r : List Nat} (h : Before p q) (h' : Before q r) : Before p r := by
  rcases List.shortlex_def.mp h with h | ⟨h, hl⟩
  · rcases List.shortlex_def.mp h' with h' | ⟨h', -⟩
    · exact .of_length_lt (h.trans h')
    · exact .of_length_lt (h' ▸ h)
  · rcases List.shortlex_def.mp h' with h' | ⟨h', hl'⟩
    · exact .of_length_lt (h ▸ h')
    · exact .of_lex (h.trans h') (List.lt_trans hl hl')

theorem before_irrefl (p : List Nat) : ¬Before p p := fun h => by
  rcases List.shortlex_def.mp h with h | ⟨-, h⟩
  · exact lt_irrefl _ h
  · exact List.lt_irrefl p h

theorem lex_append {p q : List Nat} (hlen : p.length = q.length) (h : List.Lex (· < ·) p q) (s t : List Nat) :
    List.Lex (· < ·) (p ++ s) (q ++ t) := by
  induction h with
  | nil => cases hlen
  | cons _ ih => exact .cons (ih (Nat.succ.inj hlen))
  | rel h => exact .rel h

/-- What follows on two paths of one length does not change which is before. -/
theorem before_append {p q : List Nat} (h : Before p q) {s t : List Nat} (hst : s.length = t.length) :
    Before (p ++ s) (q ++ t) := by
  rcases List.shortlex_def.mp h with h | ⟨hlen, h⟩
  · refine .of_length_lt ?_
    rw [List.length_append, List.length_append]
    omega
  · refine .of_lex ?_ (lex_append hlen h s t)
    rw [List.length_append, List.length_append]
    omega

theorem before_step (p : List Nat) (i : Nat) : Before p (p ++ [i]) := by
  refine .of_length_lt ?_
  rw [List.length_append, List.length_singleton]
  exact Nat.lt_succ_self _

/-- Nothing that a path begins with comes after it. -/
theorem not_before_of_prefix {p q : List Nat} (h : p <+: q) : ¬Before q p := by
  obtain ⟨t, rfl⟩ := h
  intro hlt
  rcases List.shortlex_def.mp hlt with h | ⟨h, -⟩
  · rw [List.length_append] at h
    omega
  · rw [List.length_append] at h
    obtain rfl : t = [] := List.eq_nil_of_length_eq_zero (by omega)
    rw [List.append_nil] at hlt
    exact before_irrefl p hlt

/-- A path is before the steps out of a path that its own start is before. -/
theorem before_of_dropLast {p q : List Nat} (h : Before p.dropLast q) (i : Nat) : Before p (q ++ [i]) := by
  rcases List.eq_nil_or_concat p with rfl | ⟨front, j, rfl⟩
  · exact .of_length_lt (by simp)
  · rw [List.concat_eq_append, List.dropLast_concat] at *
    exact before_append h rfl

/-! ### The search -/

/-- The first path out of `b` that ends in a goal, and its end. -/
structure FirstHit (next : α → List α) (goal : α → Prop) (b : α) (p : List Nat) (c : α) : Prop where
  ends : follow next b p = some c
  hit : goal c
  first : ∀ q d, follow next b q = some d → goal d → ¬Before q p

theorem exists_firstHit {goal : α → Prop} {b c : α} {p : List Nat} (hp : follow next b p = some c) (hc : goal c) :
    ∃ q d, FirstHit next goal b q d := by
  have hwf : WellFounded (fun p q : List Nat => Before p q) := List.Shortlex.wf Nat.lt_wfRel.wf
  obtain ⟨q, ⟨d, hq, hd⟩, hmin⟩ := hwf.has_min {q | ∃ d, follow next b q = some d ∧ goal d} ⟨p, c, hp, hc⟩
  exact ⟨q, d, hq, hd, fun q' d' hq' hd' => hmin q' ⟨d', hq', hd'⟩⟩

/-- The state of the loop. Every node in the queue has a path, in the order in which they are met; the paths that
were taken off it are before all of them; and the first path into a goal has not been lost. -/
structure Marked (next : α → List α) (goal : α → Prop) (b : α) (visited queue : List α) (popped : List (List Nat))
    (marks : List (List Nat × α)) : Prop where
  queue_eq : marks.map Prod.snd = queue
  ends : ∀ m ∈ marks, follow next b m.1 = some m.2
  sorted : marks.Pairwise fun m m' => Before m.1 m'.1
  after : ∀ p ∈ popped, ∀ m ∈ marks, Before p m.1
  parents : ∀ m ∈ marks, m.1 ≠ [] → m.1.dropLast ∈ popped
  visited : ∀ v ∈ visited, ¬goal v ∧ ∃ p ∈ popped, follow next b p = some v
  kept : ∀ p c, FirstHit next goal b p c → ∃ m ∈ marks, m.1 <+: p

def Frontier (next : α → List α) (goal : α → Prop) (b : α) (visited queue : List α) : Prop :=
  ∃ popped marks, Marked next goal b visited queue popped marks

section
variable {goal : α → Prop} {b cur : α} {visited queue : List α}

theorem Frontier.start (goal : α → Prop) (b : α) : Frontier next goal b [] [b] := by
  refine ⟨[], [([], b)], rfl, fun m hm => ?_, List.pairwise_singleton _ _, nofun, fun m hm hne => ?_, nofun,
    fun p c _ => ⟨_, List.mem_cons_self, List.nil_prefix⟩⟩
  · rw [List.mem_singleton.mp hm]
    rfl
  · rw [List.mem_singleton.mp hm] at hne
    exact absurd rfl hne

/-- The head of the queue and its path. -/
theorem Frontier.head (h : Frontier next goal b visited (cur :: queue)) : ∃ popped p marks,
    Marked next goal b visited (cur :: queue) popped ((p, cur) :: marks) ∧ marks.map Prod.snd = queue := by
  obtain ⟨popped, marks, hm⟩ := h
  cases marks with
  | nil => cases hm.queue_eq
  | cons m marks =>
    obtain ⟨hcur, hqueue⟩ := List.cons.inj hm.queue_eq
    obtain ⟨p, c⟩ := m
    cases hcur
    exact ⟨popped, p, marks, hm, hqueue⟩

/-- A goal at the head ends the first path into a goal. -/
theorem Frontier.hit (h : Frontier next goal b visited (cur :: queue)) (hcur : goal cur) :
    ∃ p, FirstHit next goal b p cur := by
  obtain ⟨popped, p, marks, hm, -⟩ := h.head
  have hend := hm.ends _ List.mem_cons_self
  refine ⟨p, hend, hcur, fun q d hq hd hbefore => ?_⟩
  obtain ⟨q', d', hfirst⟩ := exists_firstHit hq hd
  -- the first hit runs through the queue, so it is not before the head
  obtain ⟨m, hmem, hpre⟩ := hm.kept q' d' hfirst
  have hle : ¬Before q' p := fun hlt => by
    rcases List.mem_cons.mp hmem with rfl | hmem
    · exact not_before_of_prefix hpre hlt
    · exact not_before_of_prefix hpre (before_trans hlt ((List.pairwise_cons.mp hm.sorted).1 m hmem))
  have hq' : Before q' p ∨ q' = p ∨ Before p q' := trichotomous_of _ q' p
  rcases hq' with h' | rfl | h'
  · exact hle h'
  · exact hfirst.first q d hq hd hbefore
  · exact hfirst.first q d hq hd (before_trans hbefore h')

/-- A node that was visited before can be passed over: its first path is before this one. -/
theorem Frontier.skip (h : Frontier next goal b visited (cur :: queue)) (hcur : cur ∈ visited) :
    Frontier next goal b visited queue := by
  obtain ⟨popped, p, marks, hm, hqueue⟩ := h.head
  have htail {m : List Nat × α} (hmem : m ∈ marks) : m ∈ (p, cur) :: marks := List.mem_cons_of_mem _ hmem
  refine ⟨popped, marks, hqueue, fun m hmem => hm.ends m (htail hmem), hm.sorted.of_cons,
    fun q hq m hmem => hm.after q hq m (htail hmem), fun m hmem => hm.parents m (htail hmem), hm.visited,
    fun q c hfirst => ?_⟩
  obtain ⟨m, hmem, hpre⟩ := hm.kept q c hfirst
  rcases List.mem_cons.mp hmem with rfl | hmem
  · obtain ⟨t, rfl⟩ := hpre
    obtain ⟨-, p', hp', hend⟩ := hm.visited cur hcur
    have hcur : follow next b p = some cur := hm.ends _ List.mem_cons_self
    have hshort : follow next b (p' ++ t) = some c := by
      rw [follow_append, hend, ← hfirst.ends, follow_append, hcur]
    exact absurd (before_append (hm.after p' hp' _ List.mem_cons_self) rfl) (hfirst.first _ c hshort hfirst.hit)
  · exact ⟨m, hmem, hpre⟩

/-- The marks of the successors of a node. -/
def stepMarks (next : α → List α) (p : List Nat) (a : α) : List (List Nat × α) :=
  (next a).zipIdx.map fun s => (p ++ [s.2], s.1)

theorem mem_stepMarks {p : List Nat} {a : α} {m : List Nat × α} :
    m ∈ stepMarks next p a ↔ ∃ i, m.1 = p ++ [i] ∧ (next a)[i]? = some m.2 := by
  unfold stepMarks
  rw [List.mem_map]
  constructor
  · rintro ⟨⟨c, i⟩, hmem, rfl⟩
    exact ⟨i, rfl, List.mem_zipIdx_iff_getElem?.mp hmem⟩
  · rintro ⟨i, hp, hget⟩
    exact ⟨(m.2, i), List.mem_zipIdx_iff_getElem?.mpr hget, Prod.ext hp.symm rfl⟩

theorem stepMarks_sorted (p : List Nat) (a : α) : (stepMarks next p a).Pairwise fun m m' => Before m.1 m'.1 := by
  have hidx : ((next a).zipIdx.map Prod.snd).Pairwise (· < ·) := by
    rw [List.zipIdx_map_snd]
    exact List.pairwise_lt_range'
  unfold stepMarks
  rw [List.pairwise_map] at hidx ⊢
  refine hidx.imp fun hlt => ?_
  exact List.Shortlex.append_left ((List.shortlex_singleton_iff _ _).mpr hlt) p

/-- A node that is no goal is visited, and its successors go to the end. -/
theorem Frontier.visit (h : Frontier next goal b visited (cur :: queue)) (hcur : ¬goal cur) :
    Frontier next goal b (cur :: visited) (queue ++ next cur) := by
  obtain ⟨popped, p, marks, hm, hqueue⟩ := h.head
  have hend : follow next b p = some cur := hm.ends _ List.mem_cons_self
  have htail {m : List Nat × α} (hmem : m ∈ marks) : m ∈ (p, cur) :: marks := List.mem_cons_of_mem _ hmem
  obtain ⟨hhead, hsorted⟩ := List.pairwise_cons.mp hm.sorted
  have hfirst {m : List Nat × α} (hmem : m ∈ marks) {i : Nat} : Before m.1 (p ++ [i]) := by
    refine before_of_dropLast ?_ i
    by_cases hne : m.1 = []
    · rw [hne]
      have := hhead m hmem
      rw [hne] at this
      exact absurd this List.not_shortlex_nil_right
    · exact hm.after _ (hm.parents m (htail hmem) hne) _ List.mem_cons_self
  refine ⟨p :: popped, marks ++ stepMarks next p cur, ?_, fun m hmem => ?_, ?_, fun q hq m hmem => ?_,
    fun m hmem hne => ?_, fun v hv => ?_, fun q c hf => ?_⟩
  · rw [List.map_append, hqueue, stepMarks, List.map_map]
    exact congrArg _ (List.zipIdx_map_fst 0 (next cur))
  · rcases List.mem_append.mp hmem with hmem | hmem
    · exact hm.ends m (htail hmem)
    · obtain ⟨i, hp, hget⟩ := mem_stepMarks.mp hmem
      rw [hp, follow_append, hend, Option.bind_some, follow_singleton, hget]
  · refine List.pairwise_append.mpr ⟨hsorted, stepMarks_sorted p cur, fun m hmem m' hmem' => ?_⟩
    obtain ⟨i, hp, -⟩ := mem_stepMarks.mp hmem'
    rw [hp]
    exact hfirst hmem
  · rcases List.mem_append.mp hmem with hin | hin
    · rcases List.mem_cons.mp hq with rfl | hq
      · exact hhead m hin
      · exact hm.after q hq m (htail hin)
    · obtain ⟨i, hp, -⟩ := mem_stepMarks.mp hin
      rw [hp]
      rcases List.mem_cons.mp hq with rfl | hq
      · exact before_step q i
      · exact before_trans (hm.after q hq _ List.mem_cons_self) (before_step p i)
  · rcases List.mem_append.mp hmem with hmem | hmem
    · exact List.mem_cons_of_mem _ (hm.parents m (htail hmem) hne)
    · obtain ⟨i, hp, -⟩ := mem_stepMarks.mp hmem
      rw [hp, List.dropLast_concat]
      exact List.mem_cons_self
  · rcases List.mem_cons.mp hv with rfl | hv
    · exact ⟨hcur, p, List.mem_cons_self, hend⟩
    · obtain ⟨hno, q, hq, hvend⟩ := hm.visited v hv
      exact ⟨hno, q, List.mem_cons_of_mem _ hq, hvend⟩
  · obtain ⟨m, hmem, hpre⟩ := hm.kept q c hf
    rcases List.mem_cons.mp hmem with rfl | hmem
    · obtain ⟨t, rfl⟩ := hpre
      have hrest := hf.ends
      rw [follow_append, hend, Option.bind_some] at hrest
      -- the path goes on, since its end is a goal and this node is not
      cases t with
      | nil =>
        cases hrest
        exact absurd hf.hit hcur
      | cons i rest =>
        obtain ⟨d, hd, -⟩ := Option.bind_eq_some_iff.mp hrest
        refine ⟨(p ++ [i], d), List.mem_append_right _ (mem_stepMarks.mpr ⟨i, rfl, hd⟩), rest, ?_⟩
        show p ++ [i] ++ rest = p ++ i :: rest
        rw [List.append_assoc, List.singleton_append]
    · exact ⟨m, List.mem_append_left _ hmem, hpre⟩

/-- An empty queue has met no goal, so there is none. -/
theorem Frontier.none (h : Frontier next goal b visited []) {p : List Nat} {c : α} (hp : follow next b p = some c) :
    ¬goal c := by
  intro hc
  obtain ⟨popped, marks, hm⟩ := h
  obtain ⟨q, d, hfirst⟩ := exists_firstHit hp hc
  obtain ⟨m, hmem, -⟩ := hm.kept q d hfirst
  rw [List.map_eq_nil_iff.mp hm.queue_eq] at hmem
  cases hmem

end

end SynapseFs.Lib.BreadthFirst
