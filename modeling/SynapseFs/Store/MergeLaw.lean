import SynapseFs.Store.MergeLogic

/-! The law of the three-way merge.

For a group, the law says what a merge of valid manifests stores in terms of the
base and the two sides alone (`MergeLaw`). The code follows it but for one corner:
a conflict that is settled for a side that deleted the group. There the shared
branch of the second switch takes the other side's entry (`merge_law_iff`). -/
namespace SynapseFs.Store
open Lib Core Format

/-! ### Content -/

/-- What an entry resolves to: everything but the chain depth and the fields its mode does not read. -/
def content (g : GroupEntry) : GroupMode × Option Oid × Option DeltaBase :=
  match g.mode with
  | .full => (.full, g.block, none)
  | .delta => (.delta, g.diffBlock, g.base)

theorem sameContent_iff {a b : GroupEntry} : sameContent a b = true ↔ content a = content b := by
  unfold sameContent content
  cases ha : a.mode with
  | full =>
    cases hb : b.mode with
    | full => simp
    | delta => simp
  | delta =>
    cases hb : b.mode with
    | full => simp
    | delta =>
      cases hab : a.base with
      | none => cases hbb : b.base <;> simp
      | some x =>
        cases hbb : b.base with
        | none => simp
        | some y =>
          have hxy : x = y ↔ x.commit = y.commit ∧ x.group = y.group := by
            cases x
            cases y
            simp
          simp [hxy]

theorem sameContent_eq_false {a b : GroupEntry} : sameContent a b = false ↔ content a ≠ content b := by
  rw [← Bool.not_eq_true, sameContent_iff]

/-! ### One group -/

/-- Both sides changed or added it differently, or one side deleted it. -/
def Contested (base ours theirs : Option GroupEntry) : Prop :=
  match ours, theirs with
  | some o, some t => sameContent o t = false ∧
      ∀ b, base = some b → sameContent b o = false ∧ sameContent b t = false
  | none, none => False
  | _, _ => base.isSome

theorem resolveGroup_conflict_iff (base ours theirs : Option GroupEntry) :
    resolveGroup base ours theirs = .conflict ↔ Contested base ours theirs := by
  cases ours with
  | none => cases theirs <;> cases base <;> simp [resolveGroup, Contested]
  | some o =>
    cases theirs with
    | none => cases base <;> simp [resolveGroup, Contested]
    | some t =>
      cases hot : sameContent o t with
      | true => simp [resolveGroup, Contested, hot]
      | false =>
        cases base with
        | none => simp [resolveGroup, Contested, hot]
        | some b =>
          cases hbo : sameContent b o <;> cases hbt : sameContent b t <;>
            simp [resolveGroup, Contested, hot, hbo, hbt]

section
variable {strategy : MergeStrategy} {base : Option GroupEntry} {b o t : GroupEntry}

theorem pickGroup_agreed (h : sameContent o t = true) : pickGroup strategy base (some o) (some t) = some o := by
  simp [pickGroup, resolveGroup, h, settleConflict, takeSide]

theorem pickGroup_added (o : GroupEntry) :
    pickGroup strategy none (some o) none = some o ∧ pickGroup strategy none none (some o) = some o := by
  simp [pickGroup, resolveGroup, settleConflict, takeSide]

theorem pickGroup_ours (hbo : sameContent b o = false) (hbt : sameContent b t = true) :
    pickGroup strategy (some b) (some o) (some t) = some o := by
  have hot : sameContent o t = false := by
    rw [sameContent_eq_false] at hbo ⊢
    rw [← sameContent_iff.mp hbt]
    exact hbo.symm
  simp [pickGroup, resolveGroup, hot, hbo, hbt, settleConflict, takeSide]

theorem pickGroup_theirs (hbo : sameContent b o = true) (hbt : sameContent b t = false) :
    pickGroup strategy (some b) (some o) (some t) = some t := by
  have hot : sameContent o t = false := by
    rw [sameContent_eq_false] at hbt ⊢
    rw [← sameContent_iff.mp hbo]
    exact hbt
  simp [pickGroup, resolveGroup, hot, hbo, hbt, settleConflict, takeSide]

end

/-- A contested group goes to the side that the strategy names, if that side has it, and else to the other. -/
theorem pickGroup_contested {base ours theirs : Option GroupEntry} (h : Contested base ours theirs) :
    pickGroup .ours base ours theirs = ours.or theirs ∧ pickGroup .theirs base ours theirs = theirs.or ours := by
  unfold pickGroup
  rw [(resolveGroup_conflict_iff base ours theirs).mpr h]
  cases ours <;> cases theirs <;> simp [settleConflict, takeSide]

/-- What is left when a group is not contested. -/
inductive Uncontested : Option GroupEntry → Option GroupEntry → Option GroupEntry → Prop where
  | absent (base : Option GroupEntry) : Uncontested base none none
  | agreed (base : Option GroupEntry) {o t : GroupEntry} (h : sameContent o t = true) : Uncontested base (some o) (some t)
  | addedOurs (o : GroupEntry) : Uncontested none (some o) none
  | addedTheirs (t : GroupEntry) : Uncontested none none (some t)
  | ours {b o t : GroupEntry} (hbo : sameContent b o = false) (hbt : sameContent b t = true) :
    Uncontested (some b) (some o) (some t)
  | theirs {b o t : GroupEntry} (hbo : sameContent b o = true) (hbt : sameContent b t = false) :
    Uncontested (some b) (some o) (some t)

theorem uncontested_of_not {base ours theirs : Option GroupEntry} (h : ¬Contested base ours theirs) :
    Uncontested base ours theirs := by
  cases ours with
  | none =>
    cases theirs with
    | none => exact .absent base
    | some t =>
      cases base with
      | none => exact .addedTheirs t
      | some b => exact absurd rfl h
  | some o =>
    cases theirs with
    | none =>
      cases base with
      | none => exact .addedOurs o
      | some b => exact absurd rfl h
    | some t =>
      cases hot : sameContent o t with
      | true => exact .agreed base hot
      | false =>
        cases base with
        | none => exact absurd ⟨hot, nofun⟩ h
        | some b =>
          cases hbo : sameContent b o with
          | true =>
            cases hbt : sameContent b t with
            | true =>
              have hsame := (sameContent_iff.mp hbo).symm.trans (sameContent_iff.mp hbt)
              exact absurd hsame (sameContent_eq_false.mp hot)
            | false => exact .theirs hbo hbt
          | false =>
            cases hbt : sameContent b t with
            | true => exact .ours hbo hbt
            | false =>
              refine absurd ⟨hot, fun b' hb' => ?_⟩ h
              cases hb'
              exact ⟨hbo, hbt⟩

/-- What is stored for a group that our side has is an entry, unless it is in conflict. -/
theorem pickGroup_isSome {strategy : MergeStrategy} {base ours theirs : Option GroupEntry}
    (h : strategy = .refuse → ¬Contested base ours theirs) (hside : ours.isSome) :
    (pickGroup strategy base ours theirs).isSome := by
  by_cases hc : Contested base ours theirs
  · obtain ⟨o, rfl⟩ := Option.isSome_iff_exists.mp hside
    cases strategy with
    | refuse => exact absurd hc (h rfl)
    | ours => rw [(pickGroup_contested hc).1, Option.some_or]; rfl
    | theirs =>
      rw [(pickGroup_contested hc).2]
      cases theirs <;> rfl
  · cases uncontested_of_not hc with
    | absent => cases hside
    | agreed _ hot => rw [pickGroup_agreed hot]; rfl
    | addedOurs o => rw [(pickGroup_added o).1]; rfl
    | addedTheirs => cases hside
    | ours hbo hbt => rw [pickGroup_ours hbo hbt]; rfl
    | theirs hbo hbt => rw [pickGroup_theirs hbo hbt]; rfl

/-! ### The mirrored call -/

def MergeStrategy.swap : MergeStrategy → MergeStrategy
  | .refuse => .refuse
  | .ours => .theirs
  | .theirs => .ours

theorem contested_swap (base ours theirs : Option GroupEntry) :
    Contested base theirs ours ↔ Contested base ours theirs := by
  have hcomm (a b : GroupEntry) : sameContent a b = sameContent b a := by
    rw [Bool.eq_iff_iff, sameContent_iff, sameContent_iff]
    exact eq_comm
  cases ours with
  | none => cases theirs <;> exact Iff.rfl
  | some o =>
    cases theirs with
    | none => exact Iff.rfl
    | some t =>
      show (sameContent t o = false ∧ _) ↔ (sameContent o t = false ∧ _)
      rw [hcomm t o]
      refine and_congr_right fun _ => forall_congr' fun b => imp_congr_right fun _ => ?_
      exact and_comm

/-- The mirrored call stores the same content. -/
theorem pickGroup_swap (strategy : MergeStrategy) (base ours theirs : Option GroupEntry) :
    (pickGroup strategy.swap base theirs ours).map content = (pickGroup strategy base ours theirs).map content := by
  by_cases hc : Contested base ours theirs
  · have hc' := (contested_swap base ours theirs).mpr hc
    cases strategy with
    | refuse =>
      unfold pickGroup
      rw [MergeStrategy.swap, (resolveGroup_conflict_iff _ _ _).mpr hc, (resolveGroup_conflict_iff _ _ _).mpr hc']
      rfl
    | ours => rw [MergeStrategy.swap, (pickGroup_contested hc).1, (pickGroup_contested hc').2]
    | theirs => rw [MergeStrategy.swap, (pickGroup_contested hc).2, (pickGroup_contested hc').1]
  · cases uncontested_of_not hc with
    | absent =>
      cases base <;> cases strategy <;> rfl
    | @agreed _ o t hot =>
      have hto : sameContent t o = true := sameContent_iff.mpr (sameContent_iff.mp hot).symm
      rw [pickGroup_agreed hot, pickGroup_agreed hto, Option.map_some, Option.map_some, sameContent_iff.mp hot]
    | addedOurs o => rw [(pickGroup_added o).1, (pickGroup_added o).2]
    | addedTheirs t => rw [(pickGroup_added t).1, (pickGroup_added t).2]
    | ours hbo hbt => rw [pickGroup_ours hbo hbt, pickGroup_theirs hbt hbo]
    | theirs hbo hbt => rw [pickGroup_theirs hbo hbt, pickGroup_ours hbt hbo]

/-! ### Manifests -/

/-- What the report says of a conflict. -/
def conflictOf (base ours theirs : Manifest) (name : String) : GroupConflict :=
  ⟨name, reportableBlock (base.findGroup name), reportableBlock (ours.findGroup name),
    reportableBlock (theirs.findGroup name)⟩

def ContestedIn (base ours theirs : Manifest) (name : String) : Prop :=
  Contested (base.findGroup name) (ours.findGroup name) (theirs.findGroup name)

theorem settleConflict_iff {strategy : MergeStrategy} {base ours theirs : Option GroupEntry} :
    settleConflict strategy ours theirs (resolveGroup base ours theirs) = .conflict ↔
      strategy = .refuse ∧ Contested base ours theirs := by
  rw [← resolveGroup_conflict_iff]
  cases resolveGroup base ours theirs <;> cases strategy <;> cases ours <;> cases theirs <;> simp [settleConflict]

theorem mem_conflicts {strategy : MergeStrategy} {base ours theirs : Manifest} (names : List String) :
    ∀ (s : GroupLoop) (c : GroupConflict), c ∈ (names.foldl (mergeGroup strategy base ours theirs) s).conflicts ↔
      c ∈ s.conflicts ∨ strategy = .refuse ∧ ∃ name ∈ names, ContestedIn base ours theirs name ∧
        c = conflictOf base ours theirs name := by
  induction names with
  | nil => simp
  | cons name rest ih =>
    intro s c
    rw [List.foldl_cons, ih]
    have hstep : c ∈ (mergeGroup strategy base ours theirs s name).conflicts ↔
        c ∈ s.conflicts ∨ strategy = .refuse ∧ ContestedIn base ours theirs name ∧
          c = conflictOf base ours theirs name := by
      unfold mergeGroup
      dsimp only
      split
      · next hsettle =>
        obtain ⟨hr, hc⟩ := settleConflict_iff.mp hsettle
        show c ∈ s.conflicts ++ [conflictOf base ours theirs name] ↔ _
        rw [List.mem_append, List.mem_singleton]
        exact ⟨fun h => h.imp_right fun h => ⟨hr, hc, h⟩, fun h => h.imp_right fun h => h.2.2⟩
      · next hsettle =>
        have hnot : ¬(strategy = .refuse ∧ ContestedIn base ours theirs name) := fun h =>
          hsettle (settleConflict_iff.mpr h)
        have hsame : c ∈ s.conflicts ↔ c ∈ s.conflicts ∨ strategy = .refuse ∧ ContestedIn base ours theirs name ∧
            c = conflictOf base ours theirs name :=
          ⟨.inl, fun h => h.resolve_right fun h => hnot ⟨h.1, h.2.1⟩⟩
        split
        · exact hsame
        · exact hsame
    rw [hstep]
    simp only [List.mem_cons, exists_eq_or_imp]
    tauto

/-- A manifest with the layout of a valid one, all of its groups and no group that is not valid, is valid. -/
theorem validate_of_groups {m m' : Manifest} (h : m.validate = .ok ()) (hfile : m'.file = m.file)
    (hbuffer : m'.buffer = m.buffer) (hgroups : ∀ name, (m.findGroup name).isSome → (m'.findGroup name).isSome)
    (hvalid : ∀ name g, m'.findGroup name = some g → Manifest.validateGroup name g = .ok ()) : m'.validate = .ok () := by
  have hwalk : ∀ (l : List Format.BufferEntry) (i cursor last : Nat), m.validateBuffer i cursor l = .ok last →
      m'.validateBuffer i cursor l = .ok last := by
    intro l
    induction l with
    | nil => exact fun _ _ _ h => h
    | cons e rest ih =>
      intro i cursor last h
      unfold Manifest.validateBuffer at h ⊢
      split at h
      · exact absurd h sfsErr_ne_ok
      · next hoff =>
        rw [if_neg hoff]
        split at h
        · exact absurd h sfsErr_ne_ok
        · next hpos =>
          rw [if_neg hpos]
          split at h
          · exact absurd h sfsErr_ne_ok
          · next hgroup =>
            rw [if_neg fun hnone => ?_]
            · exact ih _ _ _ h
            · have hsome : (m.findGroup e.group).isSome := by
                rw [← Option.not_isNone]
                exact (Bool.not_eq_true _).mp hgroup ▸ rfl
              have := hgroups e.group hsome
              rw [Option.isNone_iff_eq_none.mp hnone] at this
              cases this
  unfold Manifest.validate at h ⊢
  rw [hbuffer, hfile]
  split at h
  · exact absurd h sfsErr_ne_ok
  · next first rest hb =>
    obtain ⟨cursor, hcursor, h⟩ := bind_eq_ok.mp h
    split at h
    · exact absurd h sfsErr_ne_ok
    · next htotal =>
      rw [hb] at hcursor ⊢
      refine bind_eq_ok.mpr ⟨cursor, hwalk _ _ _ _ hcursor, ?_⟩
      rw [if_neg htotal]
      refine forM_eq_ok.mpr fun e he => hvalid e.1 e.2 (FinMap.get?_eq_some.mpr he)

/-- The rule: a merge of valid manifests of one file shape returns the conflicts, or the picks. -/
theorem mergeManifests_spec {base ours theirs : Manifest} (ho : ours.validate = .ok ()) (ht : theirs.validate = .ok ())
    (hheader : ours.file.headerBlock = theirs.file.headerBlock) (strategy : MergeStrategy) :
    ∃ result, mergeManifests strategy base ours theirs = .ok result ∧
      (∀ c, c ∈ result.conflicts ↔ strategy = .refuse ∧ ∃ name, ContestedIn base ours theirs name ∧
        c = conflictOf base ours theirs name) ∧
      (result.merged.isSome ↔ result.conflicts = []) ∧
      ∀ m, result.merged = some m → ∀ name, m.findGroup name =
        pickGroup strategy (base.findGroup name) (ours.findGroup name) (theirs.findGroup name) := by
  have hcontested {name : String} (h : ContestedIn base ours theirs name) : name ∈ groupNames ours theirs := by
    rw [mem_groupNames]
    unfold ContestedIn Contested at h
    cases hours : ours.findGroup name with
    | some o => exact .inl rfl
    | none =>
      cases htheirs : theirs.findGroup name with
      | some t => exact .inr rfl
      | none => rw [hours, htheirs] at h; exact h.elim
  have hconf : ∀ c, c ∈ ((groupNames ours theirs).foldl (mergeGroup strategy base ours theirs) ⟨[], .empty⟩).conflicts ↔
      strategy = .refuse ∧ ∃ name, ContestedIn base ours theirs name ∧ c = conflictOf base ours theirs name := by
    intro c
    rw [mem_conflicts]
    constructor
    · rintro (h | ⟨hr, name, -, hc, rfl⟩)
      · cases h
      · exact ⟨hr, name, hc, rfl⟩
    · rintro ⟨hr, name, hc, rfl⟩
      exact .inr ⟨hr, name, hcontested hc, hc, rfl⟩
  unfold mergeManifests
  rw [if_neg (not_not.mpr hheader)]
  dsimp only
  by_cases hempty : ((groupNames ours theirs).foldl (mergeGroup strategy base ours theirs) ⟨[], .empty⟩).conflicts = []
  · rw [if_neg (not_not.mpr hempty)]
    have hgroups := mergeGroups_spec strategy base ours theirs (groupNames ours theirs) ⟨[], .empty⟩ hempty
    have hno {name : String} (hr : strategy = .refuse) : ¬ContestedIn base ours theirs name := fun hc => by
      have hmem := (hconf (conflictOf base ours theirs name)).mpr ⟨hr, name, hc, rfl⟩
      rw [hempty] at hmem
      cases hmem
    have hpick : ∀ name, FinMap.get? ((groupNames ours theirs).foldl (mergeGroup strategy base ours theirs)
        ⟨[], .empty⟩).groups name =
          pickGroup strategy (base.findGroup name) (ours.findGroup name) (theirs.findGroup name) := by
      intro name
      rw [hgroups name]
      simp only [mem_groupNames, FinMap.get?_empty, Option.or_none]
      split
      · rfl
      · next hn =>
        simp only [not_or, Bool.not_eq_true, Option.isSome_eq_false_iff, Option.isNone_iff_eq_none] at hn
        rw [hn.1, hn.2]
        cases strategy <;> cases base.findGroup name <;> rfl
    refine ⟨_, bind_eq_ok.mpr ⟨(), validate_of_groups ho rfl rfl (fun name hname => ?_) (fun name g hg => ?_), rfl⟩, ?_,
      ⟨fun _ => rfl, fun _ => rfl⟩, ?_⟩
    · show (FinMap.get? _ name).isSome
      rw [hpick name]
      exact pickGroup_isSome (fun hr => hno hr) hname
    · have hg' : pickGroup strategy (base.findGroup name) (ours.findGroup name) (theirs.findGroup name) = some g :=
        (hpick name).symm.trans hg
      rcases pickGroup_mem hg' with h | h
      · exact Manifest.validate_groups ho h
      · exact Manifest.validate_groups ht h
    · intro c
      rw [← hconf c, hempty]
    · intro m hm name
      cases hm
      exact hpick name
  · rw [if_pos hempty]
    refine ⟨_, rfl, hconf, ⟨nofun, fun h => absurd h hempty⟩, nofun⟩

/-! ### The law -/

/-- What the merge of `ours` and `theirs` on `base` has to be, group by group. -/
structure MergeLaw (strategy : MergeStrategy) (base ours theirs : Manifest) (result : MergeResult) : Prop where
  /-- Both sides have it with equal content. -/
  agreed : ∀ m, result.merged = some m → ∀ name o t, ours.findGroup name = some o → theirs.findGroup name = some t →
    sameContent o t = true → ∃ g, m.findGroup name = some g ∧ sameContent g o = true ∧ sameContent g t = true
  /-- Only one side has it, and the base does not. -/
  added : ∀ m, result.merged = some m → ∀ name g, base.findGroup name = none →
    (ours.findGroup name = some g ∧ theirs.findGroup name = none ∨
      ours.findGroup name = none ∧ theirs.findGroup name = some g) → m.findGroup name = some g
  /-- All three have it, and one side differs from the base. -/
  changed : ∀ m, result.merged = some m → ∀ name b o t, base.findGroup name = some b → ours.findGroup name = some o →
    theirs.findGroup name = some t →
    (sameContent b o = false → sameContent b t = true → m.findGroup name = some o) ∧
    (sameContent b o = true → sameContent b t = false → m.findGroup name = some t)
  /-- Everything else is a conflict, reported where no side is named. -/
  reported : ∀ name, (∃ c ∈ result.conflicts, c.group = name) ↔ strategy = .refuse ∧ ContestedIn base ours theirs name
  /-- The state of the side that is named. -/
  chosen : ∀ m, result.merged = some m → ∀ name, ContestedIn base ours theirs name →
    (strategy = .ours → m.findGroup name = ours.findGroup name) ∧
    (strategy = .theirs → m.findGroup name = theirs.findGroup name)
  /-- A manifest exactly where there is no conflict. -/
  merged : result.merged.isSome ↔ result.conflicts = []

/-- The outcome of the mirrored call: the conflicts with their sides swapped, or groups of the same content. -/
structure Mirrored (result result' : MergeResult) : Prop where
  conflicts : ∀ name b o t, ⟨name, b, o, t⟩ ∈ result.conflicts ↔ ⟨name, b, t, o⟩ ∈ result'.conflicts
  merged : result.merged.isSome ↔ result'.merged.isSome
  groups : ∀ m m', result.merged = some m → result'.merged = some m' →
    ∀ name, (m.findGroup name).map content = (m'.findGroup name).map content

/-- The side that the strategy names deleted a group that the other side has. -/
def DeletedByChosen (strategy : MergeStrategy) (base ours theirs : Manifest) (name : String) : Prop :=
  (base.findGroup name).isSome ∧
    (strategy = .ours ∧ ours.findGroup name = none ∧ (theirs.findGroup name).isSome ∨
      strategy = .theirs ∧ theirs.findGroup name = none ∧ (ours.findGroup name).isSome)

theorem contested_of_deleted {strategy : MergeStrategy} {base ours theirs : Manifest} {name : String}
    (h : DeletedByChosen strategy base ours theirs name) : ContestedIn base ours theirs name := by
  obtain ⟨hb, ⟨-, ho, ht⟩ | ⟨-, ht, ho⟩⟩ := h
  · obtain ⟨t, ht⟩ := Option.isSome_iff_exists.mp ht
    unfold ContestedIn
    rw [ho, ht]
    exact hb
  · obtain ⟨o, ho⟩ := Option.isSome_iff_exists.mp ho
    unfold ContestedIn
    rw [ho, ht]
    exact hb

/-- The mirrored calls of valid manifests mirror each other. -/
theorem mirrored_of_spec {strategy : MergeStrategy} {base ours theirs : Manifest} (ho : ours.validate = .ok ())
    (ht : theirs.validate = .ok ()) (hheader : ours.file.headerBlock = theirs.file.headerBlock) {result : MergeResult}
    (h : mergeManifests strategy base ours theirs = .ok result) :
    ∃ result', mergeManifests strategy.swap base theirs ours = .ok result' ∧ Mirrored result result' := by
  obtain ⟨r, hr, hconf, hmerged, hgroups⟩ := @mergeManifests_spec base ours theirs ho ht hheader strategy
  cases h.symm.trans hr
  obtain ⟨r', hr', hconf', hmerged', hgroups'⟩ := @mergeManifests_spec base theirs ours ht ho hheader.symm strategy.swap
  have hswap : strategy.swap = .refuse ↔ strategy = .refuse := by cases strategy <;> simp [MergeStrategy.swap]
  have hmirror : ∀ name b o t, ⟨name, b, o, t⟩ ∈ result.conflicts ↔ ⟨name, b, t, o⟩ ∈ r'.conflicts := by
    intro name b o t
    rw [hconf, hconf', hswap]
    refine and_congr_right fun _ => exists_congr fun n => ?_
    unfold ContestedIn conflictOf
    rw [contested_swap]
    refine and_congr_right fun _ => ?_
    simp only [GroupConflict.mk.injEq]
    tauto
  have hnil : result.conflicts = [] ↔ r'.conflicts = [] := by
    simp only [List.eq_nil_iff_forall_not_mem]
    exact ⟨fun hno c hc => hno _ ((hmirror c.group c.baseBlock c.theirBlock c.ourBlock).mpr hc),
      fun hno c hc => hno _ ((hmirror c.group c.baseBlock c.ourBlock c.theirBlock).mp hc)⟩
  refine ⟨r', hr', hmirror, by rw [hmerged, hmerged', hnil], fun m m' hm hm' name => ?_⟩
  rw [hgroups m hm name, hgroups' m' hm' name, pickGroup_swap]

/-- A merge of valid manifests of one file shape follows the law exactly where the side it is settled for has not
deleted a group that the other side has. -/
theorem merge_law_iff {base ours theirs : Manifest} (ho : ours.validate = .ok ()) (ht : theirs.validate = .ok ())
    (hheader : ours.file.headerBlock = theirs.file.headerBlock) (strategy : MergeStrategy) :
    (∃ result, mergeManifests strategy base ours theirs = .ok result ∧ MergeLaw strategy base ours theirs result ∧
      ∃ result', mergeManifests strategy.swap base theirs ours = .ok result' ∧ Mirrored result result') ↔
    ∀ name, ¬DeletedByChosen strategy base ours theirs name := by
  obtain ⟨r, hr, hconf, hmerged, hgroups⟩ := @mergeManifests_spec base ours theirs ho ht hheader strategy
  constructor
  · rintro ⟨r', hr', hlaw, -⟩ name hdel
    cases hr.symm.trans hr'
    have hcont := contested_of_deleted hdel
    have hnone : r.conflicts = [] := by
      rw [List.eq_nil_iff_forall_not_mem]
      intro c hc
      obtain ⟨hrefuse, -⟩ := (hconf c).mp hc
      obtain ⟨-, ⟨hs, -⟩ | ⟨hs, -⟩⟩ := hdel <;> cases hs.symm.trans hrefuse
    obtain ⟨m, hm⟩ := Option.isSome_iff_exists.mp (hmerged.mpr hnone)
    have hpick := hgroups m hm name
    obtain ⟨-, ⟨rfl, hours, htheirs⟩ | ⟨rfl, htheirs, hours⟩⟩ := hdel
    · rw [(hlaw.chosen m hm name hcont).1 rfl, (pickGroup_contested hcont).1, hours, Option.none_or] at hpick
      rw [← hpick] at htheirs
      cases htheirs
    · rw [(hlaw.chosen m hm name hcont).2 rfl, (pickGroup_contested hcont).2, htheirs, Option.none_or] at hpick
      rw [← hpick] at hours
      cases hours
  · intro hkeep
    refine ⟨r, hr, ⟨?_, ?_, ?_, ?_, ?_, hmerged⟩, mirrored_of_spec ho ht hheader hr⟩
    · intro m hm name o t hours htheirs hot
      refine ⟨o, ?_, sameContent_iff.mpr rfl, hot⟩
      rw [hgroups m hm name, hours, htheirs, pickGroup_agreed hot]
    · rintro m hm name g hbase (⟨hours, htheirs⟩ | ⟨hours, htheirs⟩)
      · rw [hgroups m hm name, hbase, hours, htheirs, (pickGroup_added g).1]
      · rw [hgroups m hm name, hbase, hours, htheirs, (pickGroup_added g).2]
    · intro m hm name b o t hbase hours htheirs
      rw [hgroups m hm name, hbase, hours, htheirs]
      exact ⟨pickGroup_ours, pickGroup_theirs⟩
    · intro name
      constructor
      · rintro ⟨c, hc, rfl⟩
        obtain ⟨hrefuse, n, hn, rfl⟩ := (hconf c).mp hc
        exact ⟨hrefuse, hn⟩
      · rintro ⟨hrefuse, hc⟩
        exact ⟨_, (hconf _).mpr ⟨hrefuse, name, hc, rfl⟩, rfl⟩
    · intro m hm name hcont
      rw [hgroups m hm name]
      refine ⟨fun hs => ?_, fun hs => ?_⟩
      · subst hs
        rw [(pickGroup_contested hcont).1]
        cases hours : ours.findGroup name with
        | some o => rfl
        | none =>
          cases htheirs : theirs.findGroup name with
          | none => rfl
          | some t =>
            refine absurd ⟨?_, .inl ⟨rfl, hours, Option.isSome_of_eq_some htheirs⟩⟩ (hkeep name)
            unfold ContestedIn at hcont
            rwa [hours, htheirs] at hcont
      · subst hs
        rw [(pickGroup_contested hcont).2]
        cases htheirs : theirs.findGroup name with
        | some o => rfl
        | none =>
          cases hours : ours.findGroup name with
          | none => rfl
          | some t =>
            refine absurd ⟨?_, .inr ⟨rfl, htheirs, Option.isSome_of_eq_some hours⟩⟩ (hkeep name)
            unfold ContestedIn at hcont
            rwa [hours, htheirs] at hcont

/-! ### One tensor, with and without a second group -/

def lawOid (n : UInt8) : Oid := .fill n

def lawEntry (n : UInt8) : GroupEntry := ⟨.full, some (lawOid n), none, none, 0⟩

def lawManifest (groups : List (String × GroupEntry)) (h : (groups.map Prod.fst).Nodup) : Manifest where
  formatVersion := 1
  hashAlgo := "blake3"
  file := ⟨"model.safetensors", lawOid 0, 66, ""⟩
  buffer := [⟨"w", 64, 2, "w"⟩]
  groups := ⟨groups, h⟩

/-- The two sides changed different groups. -/
theorem merge_law_two :
    (lawManifest [("w", lawEntry 2), ("x", lawEntry 1)] (by decide)).validate = .ok () ∧
    (lawManifest [("w", lawEntry 1), ("x", lawEntry 3)] (by decide)).validate = .ok () ∧
    ∃ result, mergeManifests .refuse (lawManifest [("w", lawEntry 1), ("x", lawEntry 1)] (by decide))
        (lawManifest [("w", lawEntry 2), ("x", lawEntry 1)] (by decide))
        (lawManifest [("w", lawEntry 1), ("x", lawEntry 3)] (by decide)) = .ok result ∧
      MergeLaw .refuse (lawManifest [("w", lawEntry 1), ("x", lawEntry 1)] (by decide))
        (lawManifest [("w", lawEntry 2), ("x", lawEntry 1)] (by decide))
        (lawManifest [("w", lawEntry 1), ("x", lawEntry 3)] (by decide)) result ∧
      ∃ result', mergeManifests .refuse (lawManifest [("w", lawEntry 1), ("x", lawEntry 1)] (by decide))
          (lawManifest [("w", lawEntry 1), ("x", lawEntry 3)] (by decide))
          (lawManifest [("w", lawEntry 2), ("x", lawEntry 1)] (by decide)) = .ok result' ∧ Mirrored result result' := by
  have hours : (lawManifest [("w", lawEntry 2), ("x", lawEntry 1)] (by decide)).validate = .ok () := by decide
  have htheirs : (lawManifest [("w", lawEntry 1), ("x", lawEntry 3)] (by decide)).validate = .ok () := by decide
  refine ⟨hours, htheirs, (merge_law_iff hours htheirs rfl .refuse).mpr ?_⟩
  rintro name ⟨-, ⟨hs, -⟩ | ⟨hs, -⟩⟩ <;> cases hs

/-- We deleted a group that they changed, and the merge is settled for our side: it has their entry. -/
theorem merge_law_broken :
    ¬∃ result, mergeManifests .ours (lawManifest [("w", lawEntry 1), ("x", lawEntry 1)] (by decide))
        (lawManifest [("w", lawEntry 1)] (by decide))
        (lawManifest [("w", lawEntry 1), ("x", lawEntry 2)] (by decide)) = .ok result ∧
      MergeLaw .ours (lawManifest [("w", lawEntry 1), ("x", lawEntry 1)] (by decide))
        (lawManifest [("w", lawEntry 1)] (by decide))
        (lawManifest [("w", lawEntry 1), ("x", lawEntry 2)] (by decide)) result ∧
      ∃ result', mergeManifests .theirs (lawManifest [("w", lawEntry 1), ("x", lawEntry 1)] (by decide))
          (lawManifest [("w", lawEntry 1), ("x", lawEntry 2)] (by decide))
          (lawManifest [("w", lawEntry 1)] (by decide)) = .ok result' ∧ Mirrored result result' := by
  rintro ⟨result, hr, hlaw, -⟩
  obtain ⟨m, hm, hx⟩ : ∃ m, result.merged = some m ∧ m.findGroup "x" = some (lawEntry 2) := by
    cases hr
    exact ⟨_, rfl, by decide⟩
  have hcont : ContestedIn (lawManifest [("w", lawEntry 1), ("x", lawEntry 1)] (by decide))
      (lawManifest [("w", lawEntry 1)] (by decide))
      (lawManifest [("w", lawEntry 1), ("x", lawEntry 2)] (by decide)) "x" := rfl
  have hdeleted := (hlaw.chosen m hm "x" hcont).1 rfl
  rw [hx] at hdeleted
  cases hdeleted

end SynapseFs.Store
