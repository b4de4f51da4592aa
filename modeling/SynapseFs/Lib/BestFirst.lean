import Mathlib.Data.List.Induction
import Mathlib.Data.List.Nodup
import Mathlib.Logic.Relation
import Mathlib.Order.Basic
import Mathlib.Order.Nat

/-! Best-first search, and when its order is topological.

A search takes, of the open nodes, the greatest one; what is open is a start or a
successor of a node already taken (`Ordered`, `Visits`). Such an order need not be
topological. `Visits.topological_iff` says when it is: no node is `Overtaken`, that
is, no node below it can be reached through nodes that are all greater than it. -/
namespace SynapseFs.Lib.BestFirst

variable {α : Type} (next : α → List α) (starts : List α) (lt : α → α → Prop)

def Edge (a b : α) : Prop := b ∈ next a

/-- What can be taken once `done` has been. -/
def Open (done : List α) (a : α) : Prop := a ∉ done ∧ (a ∈ starts ∨ ∃ s ∈ done, Edge next s a)

/-- At its turn, every node is the greatest of the open ones. -/
def Ordered (vs : List α) : Prop :=
  ∀ done v rest, vs = done ++ v :: rest →
    Open next starts done v ∧ ∀ u, Open next starts done u → u ≠ v → lt u v

/-- A search that has come to its end. -/
structure Visits (vs : List α) : Prop where
  ordered : Ordered next starts lt vs
  closed : ∀ a, ¬Open next starts vs a

def Reached (a : α) : Prop := ∃ t ∈ starts, Relation.ReflTransGen (Edge next) t a

/-- A node below `w` is reached from `x` through nodes that are all greater than
`w`, and `x` is a start or comes right after a node that is above `w`. -/
structure Overtaken (w p x : α) : Prop where
  reached : Reached next starts w
  below : Relation.TransGen (Edge next) w p
  entry : x ∈ starts ∨ ∃ s, Reached next starts s ∧ Relation.TransGen (Edge next) s w ∧ Edge next s x
  greater : lt w x
  path : Relation.ReflTransGen (fun a b => Edge next a b ∧ lt w b) x p

variable {next starts lt}

/-! ### The search -/

theorem ordered_nil : Ordered next starts lt [] := by
  intro done v rest h
  exact absurd h.symm (by simp)

/-- Taking the greatest open node goes on with the order. -/
theorem Ordered.snoc {vs : List α} {v : α} (h : Ordered next starts lt vs) (hv : Open next starts vs v)
    (hmax : ∀ u, Open next starts vs u → u ≠ v → lt u v) : Ordered next starts lt (vs ++ [v]) := by
  intro done v' rest heq
  rcases List.eq_nil_or_concat rest with rfl | ⟨front, last, rfl⟩
  · obtain ⟨rfl, hlast⟩ := List.append_inj' heq rfl
    cases hlast
    exact ⟨hv, hmax⟩
  · rw [List.concat_eq_append, ← List.cons_append, ← List.append_assoc] at heq
    exact h done v' front (List.append_inj' heq rfl).1

theorem Ordered.nodup {vs : List α} (h : Ordered next starts lt vs) : vs.Nodup := by
  induction vs using List.reverseRecOn with
  | nil => exact List.nodup_nil
  | append_singleton vs v ih =>
    have hprev : Ordered next starts lt vs := by
      intro done u rest heq
      exact h done u (rest ++ [v]) (by rw [heq]; simp)
    rw [List.nodup_append]
    refine ⟨ih hprev, List.nodup_singleton v, fun a ha b hb => ?_⟩
    rw [List.mem_singleton.mp hb]
    rintro rfl
    exact (h vs a [] rfl).1.1 ha

theorem Ordered.reached {vs : List α} (h : Ordered next starts lt vs) : ∀ v ∈ vs, Reached next starts v := by
  induction vs using List.reverseRecOn with
  | nil =>
    intro v hv
    cases hv
  | append_singleton vs v ih =>
    have hprev := ih fun done u rest heq => h done u (rest ++ [v]) (by rw [heq]; simp)
    intro u hu
    rcases List.mem_append.mp hu with hu | hu
    · exact hprev u hu
    · rw [List.mem_singleton.mp hu]
      rcases (h vs v [] rfl).1.2 with hs | ⟨s, hs, he⟩
      · exact ⟨v, hs, .refl⟩
      · obtain ⟨t, ht, hpath⟩ := hprev s hs
        exact ⟨t, ht, hpath.tail he⟩

/-- A finished search has taken what can be reached, each node once. -/
theorem Visits.mem_iff {vs : List α} (h : Visits next starts lt vs) {a : α} : a ∈ vs ↔ Reached next starts a := by
  constructor
  · exact h.ordered.reached a
  · rintro ⟨t, ht, hpath⟩
    induction hpath with
    | refl => exact Classical.not_not.mp fun hno => h.closed t ⟨hno, .inl ht⟩
    | tail _ he ih => exact Classical.not_not.mp fun hno => h.closed _ ⟨hno, .inr ⟨_, ih, he⟩⟩

theorem Visits.edge_mem (h : Visits next starts lt vs) {a b : α} (ha : a ∈ vs) (he : Edge next a b) : b ∈ vs := by
  obtain ⟨t, ht, hpath⟩ := h.mem_iff.mp ha
  exact h.mem_iff.mpr ⟨t, ht, hpath.tail he⟩

theorem Visits.below_mem (h : Visits next starts lt vs) {a b : α} (ha : a ∈ vs)
    (hb : Relation.TransGen (Edge next) a b) : b ∈ vs := by
  obtain ⟨t, ht, hpath⟩ := h.mem_iff.mp ha
  exact h.mem_iff.mpr ⟨t, ht, hpath.trans hb.to_reflTransGen⟩

/-! ### The order of two nodes -/

section
variable [DecidableEq α] {vs : List α}

theorem split_at {v : α} (hv : v ∈ vs) : ∃ done rest, vs = done ++ v :: rest ∧ done.length = vs.idxOf v ∧
    ∀ u, u ∈ done ↔ vs.idxOf u < vs.idxOf v := by
  obtain ⟨done, rest, rfl, hnew⟩ := List.eq_append_cons_of_mem hv
  have hidx : (done ++ v :: rest).idxOf v = done.length := by
    rw [List.idxOf_append_of_notMem hnew, List.idxOf_cons_self, Nat.add_zero]
  refine ⟨done, rest, rfl, hidx.symm, fun u => ⟨fun hu => ?_, fun hu => ?_⟩⟩
  · rw [hidx, List.idxOf_append_of_mem hu]
    exact List.idxOf_lt_length_iff.mpr hu
  · by_contra hno
    rw [hidx, List.idxOf_append_of_notMem hno] at hu
    omega

/-- What could have been taken before `v` and was not is less. -/
theorem Ordered.turn (h : Ordered next starts lt vs) {u v : α} (hv : v ∈ vs) (hle : vs.idxOf v ≤ vs.idxOf u)
    (hu : u ∈ starts ∨ ∃ s ∈ vs, vs.idxOf s < vs.idxOf v ∧ Edge next s u) (hne : u ≠ v) : lt u v := by
  obtain ⟨done, rest, hvs, -, hdone⟩ := split_at hv
  refine (h done v rest hvs).2 u ⟨?_, hu.imp_right ?_⟩ hne
  · rw [hdone]
    exact Nat.not_lt.mpr hle
  · rintro ⟨s, -, hlt, he⟩
    exact ⟨s, (hdone s).mpr hlt, he⟩

/-- Every node is a start or has been opened by an earlier one. -/
theorem Ordered.opened (h : Ordered next starts lt vs) {v : α} (hv : v ∈ vs) :
    v ∈ starts ∨ ∃ s ∈ vs, vs.idxOf s < vs.idxOf v ∧ Edge next s v := by
  obtain ⟨done, rest, hvs, -, hdone⟩ := split_at hv
  refine (h done v rest hvs).1.2.imp_right ?_
  rintro ⟨s, hs, he⟩
  exact ⟨s, hvs ▸ List.mem_append_left _ hs, (hdone s).mp hs, he⟩

/-- Of the nodes above `d` one is open when `p`, taken before `d`, has its turn. -/
theorem Visits.waiting (h : Visits next starts lt vs) (hacyclic : ∀ a, ¬Relation.TransGen (Edge next) a a) {d p : α}
    (hd : d ∈ vs) (hbelow : Relation.TransGen (Edge next) d p) (hlt : vs.idxOf p < vs.idxOf d) :
    ∃ w ∈ vs, Relation.TransGen (Edge next) w p ∧ vs.idxOf p < vs.idxOf w ∧
      (w ∈ starts ∨ ∃ s ∈ vs, vs.idxOf s < vs.idxOf p ∧ Edge next s w) := by
  induction hn : vs.idxOf d using Nat.strongRecOn generalizing d with
  | _ n ih =>
    subst hn
    rcases h.ordered.opened hd with hs | ⟨s, hs, hsd, he⟩
    · exact ⟨d, hd, hbelow, hlt, .inl hs⟩
    · have hsp : Relation.TransGen (Edge next) s p := .head he hbelow
      rcases Nat.lt_trichotomy (vs.idxOf s) (vs.idxOf p) with hearly | heq | hlate
      · exact ⟨d, hd, hbelow, hlt, .inr ⟨s, hs, hearly, he⟩⟩
      · rw [(List.idxOf_inj hs).mp heq] at hsp
        exact absurd hsp (hacyclic p)
      · exact ih _ hsd hs hsp hlate rfl

variable [IsStrictTotalOrder α lt]

/-- Through nodes greater than `w`, out of a start or a node taken before `w`, all
is taken before `w`. -/
theorem Visits.path_first (h : Visits next starts lt vs) {w x p : α} (hw : w ∈ vs)
    (hx : x ∈ starts ∨ ∃ s ∈ vs, vs.idxOf s < vs.idxOf w ∧ Edge next s x) (hgreater : lt w x)
    (hpath : Relation.ReflTransGen (fun a b => Edge next a b ∧ lt w b) x p) : p ∈ vs ∧ vs.idxOf p < vs.idxOf w := by
  have hfirst : ∀ {y : α}, (y ∈ starts ∨ ∃ s ∈ vs, vs.idxOf s < vs.idxOf w ∧ Edge next s y) → lt w y →
      y ∈ vs ∧ vs.idxOf y < vs.idxOf w := by
    intro y hy hgt
    have hmem : y ∈ vs := by
      rcases hy with hs | ⟨s, hs, -, he⟩
      · exact h.mem_iff.mpr ⟨y, hs, .refl⟩
      · exact h.edge_mem hs he
    refine ⟨hmem, Nat.not_le.mp fun hle => ?_⟩
    have hne : y ≠ w := by
      rintro rfl
      exact irrefl_of lt _ hgt
    exact irrefl_of lt w (trans_of lt hgt (h.ordered.turn hw hle hy hne))
  induction hpath with
  | refl => exact hfirst hx hgreater
  | tail _ he ih => exact hfirst (.inr ⟨_, ih.1, ih.2, he.1⟩) he.2

/-- `s` is taken before `w`, is less than it, and a path of greater nodes leads
from `s` to `p`: what is above `w` and taken between `s` and `p` is below `s`. -/
theorem Visits.above_of_between (h : Visits next starts lt vs) {s x p w y : α} (hs : s ∈ vs)
    (hsw : lt s w) (hsx : Edge next s x) (hgreater : lt w x)
    (hpath : Relation.ReflTransGen (fun a b => Edge next a b ∧ lt w b) x p) (hy : y ∈ vs)
    (hlo : vs.idxOf s < vs.idxOf y) (hhi : vs.idxOf y < vs.idxOf p) : Relation.TransGen (Edge next) s y := by
  induction hn : vs.idxOf y using Nat.strongRecOn generalizing y with
  | _ n ih =>
    subst hn
    -- Were `y` open when `s` is taken, it would be less, and `p` would be taken first.
    have hclosed : ¬(y ∈ starts ∨ ∃ z ∈ vs, vs.idxOf z < vs.idxOf s ∧ Edge next z y) := by
      intro hopen
      have hne : y ≠ s := by
        rintro rfl
        omega
      have hyw : lt y w := trans_of lt (h.ordered.turn hs hlo.le hopen hne) hsw
      have hpath' : Relation.ReflTransGen (fun a b => Edge next a b ∧ lt y b) x p :=
        hpath.lift id fun _ _ he => ⟨he.1, trans_of lt hyw he.2⟩
      have := (h.path_first hy (.inr ⟨s, hs, hlo, hsx⟩) (trans_of lt hyw hgreater) hpath').2
      omega
    obtain ⟨hstart, hopener⟩ := not_or.mp hclosed
    obtain ⟨z, hz, hzy, he⟩ := (h.ordered.opened hy).resolve_left hstart
    rcases Nat.lt_trichotomy (vs.idxOf z) (vs.idxOf s) with hearly | heq | hlate
    · exact absurd ⟨z, hz, hearly, he⟩ hopener
    · rw [(List.idxOf_inj hz).mp heq] at he
      exact .single he
    · exact (ih _ hzy hz hlate (by omega) rfl).tail he

/-- Following the path to `p` backwards, through nodes greater than `w`, ends at
what `w` is overtaken from. -/
theorem Visits.overtaken_of_path (h : Visits next starts lt vs) {w p x : α} (hw : w ∈ vs)
    (hbelow : Relation.TransGen (Edge next) w p) (hlt : vs.idxOf p < vs.idxOf w)
    (hwait : w ∈ starts ∨ ∃ s ∈ vs, vs.idxOf s < vs.idxOf p ∧ Edge next s w) (hx : x ∈ vs)
    (hle : vs.idxOf x ≤ vs.idxOf p) (hgreater : lt w x)
    (hpath : Relation.ReflTransGen (fun a b => Edge next a b ∧ lt w b) x p) :
    ∃ x', Overtaken next starts lt w p x' := by
  induction hn : vs.idxOf x using Nat.strongRecOn generalizing x with
  | _ n ih =>
    subst hn
    have hreached := h.mem_iff.mp hw
    rcases h.ordered.opened hx with hstart | ⟨s, hs, hsx, he⟩
    · exact ⟨x, hreached, hbelow, .inl hstart, hgreater, hpath⟩
    · have hne : s ≠ w := by
        rintro rfl
        omega
      rcases trichotomous_of lt s w with hsw | heq | hws
      · -- `w` is not open yet when `s` is taken, so what opens it is below `s`.
        have hclosed : ¬(w ∈ starts ∨ ∃ z ∈ vs, vs.idxOf z < vs.idxOf s ∧ Edge next z w) := fun hopen =>
          irrefl_of lt s (trans_of lt hsw (h.ordered.turn hs (by omega) hopen hne.symm))
        obtain ⟨hnostart, hnoopener⟩ := not_or.mp hclosed
        obtain ⟨y, hy, hyp, hyw⟩ := hwait.resolve_left hnostart
        have habove : Relation.TransGen (Edge next) s w := by
          rcases Nat.lt_trichotomy (vs.idxOf y) (vs.idxOf s) with hearly | heq | hlate
          · exact absurd ⟨y, hy, hearly, hyw⟩ hnoopener
          · rw [(List.idxOf_inj hy).mp heq] at hyw
            exact .single hyw
          · exact (h.above_of_between hs hsw he hgreater hpath hy hlate hyp).tail hyw
        exact ⟨x, hreached, hbelow, .inr ⟨s, h.mem_iff.mp hs, habove, he⟩, hgreater, hpath⟩
      · exact absurd heq hne
      · exact ih _ hsx hs (by omega) hws (.head ⟨he, hgreater⟩ hpath) rfl

/-- No node is taken before one that is above it. -/
def Topological (next : α → List α) (vs : List α) : Prop :=
  vs.Pairwise fun a b => ¬Relation.TransGen (Edge next) b a

theorem topological_iff_idxOf (hnodup : vs.Nodup) : Topological next vs ↔
    ∀ a ∈ vs, ∀ b ∈ vs, vs.idxOf a < vs.idxOf b → ¬Relation.TransGen (Edge next) b a := by
  rw [Topological, List.pairwise_iff_getElem]
  constructor
  · intro h a ha b hb hlt
    have hab := h _ _ (List.idxOf_lt_length_iff.mpr ha) (List.idxOf_lt_length_iff.mpr hb) hlt
    rwa [List.getElem_idxOf, List.getElem_idxOf] at hab
  · intro h i j hi hj hij
    refine h _ (List.getElem_mem hi) _ (List.getElem_mem hj) ?_
    rwa [hnodup.idxOf_getElem i hi, hnodup.idxOf_getElem j hj]

/-- **When the order is topological.** -/
theorem Visits.topological_iff (h : Visits next starts lt vs) (hacyclic : ∀ a, ¬Relation.TransGen (Edge next) a a) :
    Topological next vs ↔ ∀ w p x, ¬Overtaken next starts lt w p x := by
  rw [topological_iff_idxOf h.ordered.nodup]
  constructor
  · intro htop w p x hover
    have hw := h.mem_iff.mpr hover.reached
    have hpfirst : (x ∈ starts ∨ ∃ s ∈ vs, vs.idxOf s < vs.idxOf w ∧ Edge next s x) → False := fun hx => by
      obtain ⟨hp, hlt⟩ := h.path_first hw hx hover.greater hover.path
      exact htop p hp w hw hlt hover.below
    rcases hover.entry with hstart | ⟨s, hs, habove, he⟩
    · exact hpfirst (.inl hstart)
    · have hs := h.mem_iff.mpr hs
      rcases Nat.lt_trichotomy (vs.idxOf s) (vs.idxOf w) with hearly | heq | hlate
      · exact hpfirst (.inr ⟨s, hs, hearly, he⟩)
      · rw [(List.idxOf_inj hs).mp heq] at habove
        exact hacyclic w habove
      · exact htop w hw s hs hlate habove
  · intro hno p hp d hd hlt hbelow
    obtain ⟨w, hw, hwp, hlt, hwait⟩ := h.waiting hacyclic hd hbelow hlt
    have hne : w ≠ p := by
      rintro rfl
      omega
    have hless := h.ordered.turn hp hlt.le hwait hne
    obtain ⟨x, hover⟩ := h.overtaken_of_path hw hwp hlt hwait hp le_rfl hless .refl
    exact hno w p x hover

end

end SynapseFs.Lib.BestFirst
