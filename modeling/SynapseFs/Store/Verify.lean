import SynapseFs.Store.Objects
import SynapseFs.Store.Refs

/-! `sfs verify`: walk the commits from the tips and check what each references.

The walk reads every commit and manifest it meets, so those are checked on the
way. Blocks are checked once per address: `seenBlocks` does not remember the kind
an address was checked as. The topology of a commit is not looked at. -/
namespace SynapseFs.Store
open Lib Core Format

structure VerifyOptions where
  full : Bool
  stopOnFirstError : Bool

structure VerifyFinding where
  kind : ErrKind
  object : Oid
  detail : String
  chunkIndex : Option Nat
  deriving DecidableEq, Repr

structure VerifyReport where
  commitsWalked : Nat
  objectsChecked : Nat
  bytesHashed : Nat
  findings : List VerifyFinding
  deriving DecidableEq, Repr

/-- The report and the set of blocks already checked. -/
structure VerifyState where
  report : VerifyReport
  seenBlocks : List Oid

namespace VerifyState

def addFinding (s : VerifyState) (kind : ErrKind) (object : Oid) (detail : String) (chunkIndex : Option Nat) :
    VerifyState :=
  { s with report := { s.report with findings := s.report.findings ++ [⟨kind, object, detail, chunkIndex⟩] } }

def noFindings (s : VerifyState) : Prop := s.report.findings = []

theorem addFinding_found (s : VerifyState) (kind : ErrKind) (object : Oid) (detail : String) (chunkIndex : Option Nat) :
    ¬ (s.addFinding kind object detail chunkIndex).noFindings := by
  simp [noFindings, addFinding]

end VerifyState

variable (json : JsonLib) (blake3 : Bytes → Oid)

/-! ### Blocks -/

/-- Which chunk a payload that does not hash to its address fails in: one ranged
read over the whole object names it. -/
def attributeChunk (blocks : LooseStore) (oid : Oid) (kind : ObjectKind) (e : Error) : Outcome (Option Nat) :=
  if e.kind ≠ .hashMismatch then .ok none
  else do
    match ← settle (blocks.sizeOf oid) with
    | .error _ => return none
    | .ok size =>
      if size = 0 then return none
      else
        match ← settle (blocks.readRange blake3 oid kind 0 (List.replicate size 0)) with
        | .ok _ => return none
        | .error re => return if re.kind = .chunkDigestMismatch then re.context.toNat?.map u32 else none

def checkBlock (blocks : LooseStore) (full : Bool) (oid : Oid) (kind : ObjectKind) (what : String) (s : VerifyState) :
    Outcome VerifyState :=
  if oid ∈ s.seenBlocks then .ok s
  else
    let s := { s with
      seenBlocks := oid :: s.seenBlocks
      report := { s.report with objectsChecked := s.report.objectsChecked + 1 } }
    if full then do
      match ← settle (blocks.verifyBlock blake3 oid kind) with
      | .error e =>
        let chunkIdx ← attributeChunk blake3 blocks oid kind e
        return s.addFinding e.kind oid (what ++ ": " ++ e.what) chunkIdx
      | .ok () =>
        match ← settle (blocks.sizeOf oid) with
        | .ok size => return { s with report := { s.report with bytesHashed := s.report.bytesHashed + size } }
        | .error _ => return s
    else if blocks.contains oid = false then .ok (s.addFinding .objectNotFound oid (what ++ ": block missing") none)
    else .ok s

/-- The blocks a manifest references, in the order they are checked. -/
def blockRefs (m : Manifest) : List (Oid × ObjectKind × String) :=
  (m.file.headerBlock, .header, "header block") ::
    m.groups.entries.flatMap fun (gname, g) =>
      (g.block.map fun b => (b, ObjectKind.raw, "group '" ++ gname ++ "'")).toList ++
        (g.diffBlock.map fun d => (d, ObjectKind.diff, "group '" ++ gname ++ "' diff")).toList

def checkBlocks (blocks : LooseStore) (full : Bool) (refs : List (Oid × ObjectKind × String)) (s : VerifyState) :
    Outcome VerifyState :=
  refs.foldlM (fun s r => checkBlock blake3 blocks full r.1 r.2.1 r.2.2 s) s

/-! ### Deltas -/

def checkAncestorInvariant (commits : CommitStore) (commitOid : Oid) : List (String × GroupEntry) → Outcome Unit
  | [] => .ok ()
  | (name, g) :: rest =>
    match g.mode, g.base with
    | .delta, some base => do
      if ← isAncestor commits base.commit commitOid then checkAncestorInvariant commits commitOid rest
      else
        sfsErr .ancestorInvariantViolated "delta group's base commit is not an ancestor of this commit" name
    | _, _ => checkAncestorInvariant commits commitOid rest

def manifestFor (commits : CommitStore) (manifests : ManifestStore) (commitOid : Oid) : Outcome Manifest := do
  let c ← commits.read commitOid
  manifests.read c.manifest

/-- The depth of one group against the entry it is based on. -/
def checkDepth (commits : CommitStore) (manifests : ManifestStore) (commitOid : Oid) (s : VerifyState)
    (entry : String × GroupEntry) : Outcome VerifyState :=
  let (gname, g) := entry
  match g.mode, g.base with
  | .delta, some base => do
    match ← settle (manifestFor commits manifests base.commit) with
    | .error e =>
      return s.addFinding e.kind base.commit ("group '" ++ gname ++ "': cannot load base commit's manifest") none
    | .ok baseManifest =>
      match baseManifest.findGroup base.group with
      | none =>
        return s.addFinding .malformedObject base.commit
          ("group '" ++ gname ++ "': base group '" ++ base.group ++ "' not found in base manifest") none
      | some baseGroup =>
        if g.chainDepth ≠ u32 (baseGroup.chainDepth + 1) then
          return s.addFinding .malformedObject commitOid ("group '" ++ gname ++ "': chain_depth " ++
            toString g.chainDepth ++ " != base's " ++ toString baseGroup.chainDepth ++ " + 1") none
        else return s
  | _, _ => .ok s

/-! ### The walk -/

def verifyVisit (blocks : LooseStore) (commits : CommitStore) (manifests : ManifestStore) (opts : VerifyOptions)
    (s : VerifyState) (commitOid : Oid) (c : Commit) : Outcome (Bool × VerifyState) := do
  let s := { s with report := { s.report with commitsWalked := s.report.commitsWalked + 1 } }
  match ← settle (manifests.read c.manifest) with
  | .error e => return (!opts.stopOnFirstError, s.addFinding e.kind c.manifest e.what none)
  | .ok m =>
    let s ← checkBlocks blake3 blocks opts.full (blockRefs m) s
    let ai ← settle (checkAncestorInvariant commits commitOid m.groups.entries)
    let s := match ai with
      | .error e => s.addFinding e.kind commitOid e.what none
      | .ok () => s
    let s ← m.groups.entries.foldlM (checkDepth commits manifests commitOid) s
    return (!(opts.stopOnFirstError && !s.report.findings.isEmpty), s)

/-- The heads must read as commits; with `stopOnFirstError` the first that does
not ends the run. -/
def checkHeads (commits : CommitStore) (opts : VerifyOptions) : List Ref → VerifyState →
    Outcome (Bool × VerifyState)
  | [], s => .ok (true, s)
  | ref :: rest, s => do
    match ← settle (commits.read ref.target) with
    | .ok _ => checkHeads commits opts rest s
    | .error _ =>
      let s := s.addFinding .refNotFound ref.target ("ref " ++ ref.name ++ " points at a missing/invalid commit") none
      if opts.stopOnFirstError then return (false, s) else checkHeads commits opts rest s

/-- Over stores as they read; `verify` is this at the stores of one directory. -/
def verifyWith (blocks : LooseStore) (commits : CommitStore) (manifests : ManifestStore) (refs : RefStore)
    (tips : List Oid) (opts : VerifyOptions) : Outcome VerifyReport := do
  let (goOn, s) ← checkHeads commits opts refs.listHeads
    { report := { commitsWalked := 0, objectsChecked := 0, bytesHashed := 0, findings := [] }, seenBlocks := [] }
  if goOn = false then return s.report
  else
    let (s, status) ← walkCommits commits tips (verifyVisit blake3 blocks commits manifests opts) s
    match status with
    | .error e => return (s.addFinding e.kind zeroOid e.what none).report
    | .ok () => return s.report

def verify (blocks : LooseStore) (refs : RefStore) (tips : List Oid) (opts : VerifyOptions) : Outcome VerifyReport :=
  verifyWith blake3 blocks (blocks.commits json blake3) (blocks.manifests json blake3) refs tips opts

/-! ### What no finding means -/

variable {json blake3}

/-- A block is checked unless its address was; a good end was a good start. -/
theorem checkBlock_full {blocks : LooseStore} {oid : Oid} {kind : ObjectKind} {what : String} {s s' : VerifyState}
    (h : checkBlock blake3 blocks true oid kind what s = .ok s') (hg : s'.noFindings) :
    s.noFindings ∧ (∀ o, o ∈ s'.seenBlocks ↔ o = oid ∨ o ∈ s.seenBlocks) ∧
      (oid ∈ s.seenBlocks ∨ ∃ payload, blocks.get blake3 oid kind = .ok payload) := by
  unfold checkBlock at h
  split at h
  · next hseen =>
    cases h
    exact ⟨hg, fun o => ⟨.inr, fun ho => ho.elim (fun he => he ▸ hseen) id⟩, .inl hseen⟩
  · simp only [if_true, bind_eq_ok] at h
    obtain ⟨e | u, hv, h⟩ := h
    · obtain ⟨_, -, h⟩ := bind_eq_ok.mp h
      cases h
      exact absurd hg (VerifyState.addFinding_found _ _ _ _ _)
    · have hget := LooseStore.verifyBlock_eq_ok.mp (settle_eq_ok.mp hv)
      obtain ⟨e | size, -, h⟩ := bind_eq_ok.mp h
      · cases h
        exact ⟨hg, fun o => List.mem_cons, .inr hget⟩
      · cases h
        exact ⟨hg, fun o => List.mem_cons, .inr hget⟩

/-- Every address seen so far was checked as some kind it is referenced as. -/
def SeenChecked (blake3 : Bytes → Oid) (blocks : LooseStore) (P : ObjectKind → Oid → Prop) (s : VerifyState) : Prop :=
  ∀ o ∈ s.seenBlocks, ∃ kind, P kind o ∧ ∃ payload, blocks.get blake3 o kind = .ok payload

theorem checkBlocks_good {blocks : LooseStore} {refs : List (Oid × ObjectKind × String)} : ∀ {s s' : VerifyState},
    checkBlocks blake3 blocks true refs s = .ok s' → s'.noFindings → s.noFindings := by
  induction refs with
  | nil =>
    intro s s' h hg
    cases h
    exact hg
  | cons r rest ih =>
    intro s s' h hg
    unfold checkBlocks at h
    rw [List.foldlM_cons, bind_eq_ok] at h
    obtain ⟨s₁, h₁, h⟩ := h
    exact (checkBlock_full h₁ (ih h hg)).1

theorem checkBlocks_full {blocks : LooseStore} {P : ObjectKind → Oid → Prop}
    (refs : List (Oid × ObjectKind × String)) : ∀ {s s' : VerifyState}, (∀ r ∈ refs, P r.2.1 r.1) →
      checkBlocks blake3 blocks true refs s = .ok s' → s'.noFindings → SeenChecked blake3 blocks P s →
      s.noFindings ∧ (∀ o ∈ s.seenBlocks, o ∈ s'.seenBlocks) ∧ (∀ r ∈ refs, r.1 ∈ s'.seenBlocks) ∧
        SeenChecked blake3 blocks P s' := by
  induction refs with
  | nil =>
    intro s s' _ h hg hs
    cases h
    exact ⟨hg, fun _ ho => ho, nofun, hs⟩
  | cons r rest ih =>
    intro s s' hP h hg hs
    unfold checkBlocks at h
    rw [List.foldlM_cons, bind_eq_ok] at h
    obtain ⟨s₁, h₁, h⟩ := h
    have hrest : SeenChecked blake3 blocks P s₁ → _ := ih (fun x hx => hP x (List.mem_cons_of_mem _ hx)) h hg
    have hg₁ : s₁.noFindings := checkBlocks_good h hg
    obtain ⟨hgs, hseen, hcheck⟩ := checkBlock_full h₁ hg₁
    have hs₁ : SeenChecked blake3 blocks P s₁ := by
      intro o ho
      rcases (hseen o).mp ho with rfl | ho
      · rcases hcheck with hold | hget
        · exact hs _ hold
        · exact ⟨r.2.1, hP r List.mem_cons_self, hget⟩
      · exact hs o ho
    obtain ⟨-, hsub, hmem, hs'⟩ := hrest hs₁
    refine ⟨hgs, fun o ho => hsub o ((hseen o).mpr (.inr ho)), fun x hx => ?_, hs'⟩
    rcases List.mem_cons.mp hx with rfl | hx
    · exact hsub _ ((hseen _).mpr (.inl rfl))
    · exact hmem x hx

theorem checkDepth_good {commits : CommitStore} {manifests : ManifestStore} {commitOid : Oid} {s s' : VerifyState}
    {entry : String × GroupEntry} (h : checkDepth commits manifests commitOid s entry = .ok s')
    (hg : s'.noFindings) : s' = s := by
  unfold checkDepth at h
  dsimp only at h
  split at h
  · obtain ⟨e | m, -, h⟩ := bind_eq_ok.mp h
    · cases h
      exact absurd hg (VerifyState.addFinding_found _ _ _ _ _)
    · dsimp only at h
      split at h
      · cases h
        exact absurd hg (VerifyState.addFinding_found _ _ _ _ _)
      · split at h
        · cases h
          exact absurd hg (VerifyState.addFinding_found _ _ _ _ _)
        · cases h
          rfl
  · cases h
    rfl

theorem checkDepths_good {commits : CommitStore} {manifests : ManifestStore} {commitOid : Oid}
    (entries : List (String × GroupEntry)) : ∀ {s s' : VerifyState},
      entries.foldlM (checkDepth commits manifests commitOid) s = .ok s' → s'.noFindings → s' = s := by
  induction entries with
  | nil =>
    intro s s' h _
    cases h
    rfl
  | cons e rest ih =>
    intro s s' h hg
    rw [List.foldlM_cons, bind_eq_ok] at h
    obtain ⟨s₁, h₁, h⟩ := h
    obtain rfl := ih h hg
    exact checkDepth_good h₁ hg

section
variable {blocks : LooseStore} {commits : CommitStore} {manifests : ManifestStore} {tips : List Oid}
  {opts : VerifyOptions}

/-- The kinds a manifest references blocks as. -/
def IsBlockKind (kind : ObjectKind) : Prop := kind = .header ∨ kind = .raw ∨ kind = .diff

/-- A block reference of a reachable manifest. -/
def BlockReferenced (commits : CommitStore) (manifests : ManifestStore) (tips : List Oid) (kind : ObjectKind)
    (o : Oid) : Prop := IsBlockKind kind ∧ Referenced commits manifests tips kind o

theorem blockReferenced_of_blockRefs {v : Oid} {c : Commit} {m : Manifest} (hv : Reachable commits tips v)
    (hc : commits.read v = .ok c) (hm : manifests.read c.manifest = .ok m) {r : Oid × ObjectKind × String}
    (hr : r ∈ blockRefs m) : BlockReferenced commits manifests tips r.2.1 r.1 := by
  rcases List.mem_cons.mp hr with rfl | hr
  · exact ⟨.inl rfl, .header hv hc hm⟩
  · obtain ⟨⟨gname, g⟩, hg, hr⟩ := List.mem_flatMap.mp hr
    rcases List.mem_append.mp hr with hr | hr
    · obtain ⟨b, hb, rfl⟩ := Option.map_eq_some_iff.mp (Option.mem_toList.mp hr)
      exact ⟨.inr (.inl rfl), .raw hv hc hm hg hb⟩
    · obtain ⟨d, hd, rfl⟩ := Option.map_eq_some_iff.mp (Option.mem_toList.mp hr)
      exact ⟨.inr (.inr rfl), .diff hv hc hm hg hd⟩

theorem mem_blockRefs_of_blockReferenced {kind : ObjectKind} {o : Oid}
    (h : BlockReferenced commits manifests tips kind o) : ∃ v c m r, Reachable commits tips v ∧
      commits.read v = .ok c ∧ manifests.read c.manifest = .ok m ∧ r ∈ blockRefs m ∧ r.1 = o := by
  obtain ⟨hk, h⟩ := h
  have hgroup : ∀ {m : Manifest} {name : String} {g : GroupEntry} {r : Oid × ObjectKind × String},
      (name, g) ∈ m.groups.entries →
      r ∈ (g.block.map fun b => (b, ObjectKind.raw, "group '" ++ name ++ "'")).toList ++
        (g.diffBlock.map fun d => (d, ObjectKind.diff, "group '" ++ name ++ "' diff")).toList →
      r ∈ blockRefs m := fun hg hr => List.mem_cons_of_mem _ (List.mem_flatMap.mpr ⟨_, hg, hr⟩)
  cases h with
  | commit _ => rcases hk with h | h | h <;> cases h
  | manifest _ _ => rcases hk with h | h | h <;> cases h
  | topology _ _ => rcases hk with h | h | h <;> cases h
  | header hv hc hm => exact ⟨_, _, _, _, hv, hc, hm, List.mem_cons_self, rfl⟩
  | raw hv hc hm hg hb =>
    exact ⟨_, _, _, _, hv, hc, hm, hgroup hg (List.mem_append_left _ (by rw [hb]; exact List.mem_cons_self)), rfl⟩
  | diff hv hc hm hg hd =>
    exact ⟨_, _, _, _, hv, hc, hm, hgroup hg (List.mem_append_right _ (by rw [hd]; exact List.mem_cons_self)), rfl⟩

/-- Without findings: the visited manifests read, their blocks have been seen,
and what has been seen was checked. -/
def VerifyInv (blake3 : Bytes → Oid) (blocks : LooseStore) (commits : CommitStore) (manifests : ManifestStore)
    (tips vs : List Oid) (s : VerifyState) : Prop :=
  s.noFindings → SeenChecked blake3 blocks (BlockReferenced commits manifests tips) s ∧
    ∀ v ∈ vs, ∀ c, commits.read v = .ok c → ∃ m, manifests.read c.manifest = .ok m ∧
      ∀ r ∈ blockRefs m, r.1 ∈ s.seenBlocks

theorem verifyVisit_ok {s s' : VerifyState} {oid : Oid} {c : Commit} {keepGoing : Bool}
    (h : verifyVisit blake3 blocks commits manifests opts s oid c = .ok (keepGoing, s')) (hg : s'.noFindings) :
    keepGoing = true ∧ ∃ m s₁, manifests.read c.manifest = .ok m ∧ s₁.noFindings ∧ s'.seenBlocks = s₁.seenBlocks ∧
      ∃ n, checkBlocks blake3 blocks opts.full (blockRefs m)
        { s with report := { s.report with commitsWalked := n } } = .ok s₁ := by
  unfold verifyVisit at h
  obtain ⟨e | m, hm, h⟩ := bind_eq_ok.mp h
  · cases h
    exact absurd hg (VerifyState.addFinding_found _ _ _ _ _)
  · simp only [bind_eq_ok] at h
    obtain ⟨s₁, h₁, ai, -, s₂, h₂, h⟩ := h
    cases h
    have hnil : s'.report.findings = [] := hg
    refine ⟨by simp [hnil], m, s₁, settle_eq_ok.mp hm, ?_⟩
    have hs' := checkDepths_good _ h₂ hg
    cases ai with
    | error e =>
      rw [hs'] at hg
      exact absurd hg (VerifyState.addFinding_found _ _ _ _ _)
    | ok u =>
      cases hs'
      exact ⟨hg, rfl, _, h₁⟩

theorem verifyVisit_inv (hfull : opts.full = true) {vs : List Oid} {s s' : VerifyState} {oid : Oid} {c : Commit}
    {keepGoing : Bool} (hinv : VerifyInv blake3 blocks commits manifests tips vs s) (hv : Reachable commits tips oid)
    (hc : commits.read oid = .ok c)
    (h : verifyVisit blake3 blocks commits manifests opts s oid c = .ok (keepGoing, s')) :
    VerifyInv blake3 blocks commits manifests tips (oid :: vs) s' := by
  intro hg
  obtain ⟨-, m, s₁, hm, hg₁, hseen, n, hblocks⟩ := verifyVisit_ok h hg
  rw [hfull] at hblocks
  have hgs := checkBlocks_good hblocks hg₁
  obtain ⟨hs, hvs⟩ := hinv hgs
  obtain ⟨-, hsub, hmem, hs₁⟩ := checkBlocks_full (blockRefs m)
    (fun r hr => blockReferenced_of_blockRefs hv hc hm hr) hblocks hg₁ hs
  refine ⟨fun o ho => hs₁ o (hseen ▸ ho), fun v hv' c' hc' => ?_⟩
  rw [hseen]
  rcases List.mem_cons.mp hv' with rfl | hv'
  · cases hc.symm.trans hc'
    exact ⟨m, hm, hmem⟩
  · obtain ⟨m', hm', hr⟩ := hvs v hv' c' hc'
    exact ⟨m', hm', fun r hr' => hsub _ (hr r hr')⟩

theorem verifyVisit_good {s s' : VerifyState} {oid : Oid} {c : Commit} {keepGoing : Bool} (hfull : opts.full = true)
    (h : verifyVisit blake3 blocks commits manifests opts s oid c = .ok (keepGoing, s')) (hg : s'.noFindings) :
    s.noFindings ∧ keepGoing = true := by
  obtain ⟨hk, m, s₁, -, hg₁, -, n, hblocks⟩ := verifyVisit_ok h hg
  rw [hfull] at hblocks
  have hgs := checkBlocks_good hblocks hg₁
  exact ⟨hgs, hk⟩

theorem checkHeads_seen (heads : List Ref) : ∀ {s s' : VerifyState} {goOn : Bool},
    checkHeads commits opts heads s = .ok (goOn, s') → s'.seenBlocks = s.seenBlocks ∧
      (goOn = false → ¬ s'.noFindings) := by
  induction heads with
  | nil =>
    intro s s' goOn h
    cases h
    exact ⟨rfl, nofun⟩
  | cons ref rest ih =>
    intro s s' goOn h
    unfold checkHeads at h
    obtain ⟨e | c, -, h⟩ := bind_eq_ok.mp h
    · dsimp only at h
      split at h
      · cases h
        exact ⟨rfl, fun _ => VerifyState.addFinding_found _ _ _ _ _⟩
      · obtain ⟨hseen, hstop⟩ := ih h
        exact ⟨hseen, hstop⟩
    · exact ih h

/-- No finding: every reachable commit and manifest reads, and every block they
reference was checked as one of the kinds it is referenced as. -/
theorem verifyWith_clean {refs : RefStore} {report : VerifyReport} (hfull : opts.full = true)
    (h : verifyWith blake3 blocks commits manifests refs tips opts = .ok report) (hf : report.findings = []) :
    (∀ v, Reachable commits tips v → ∃ c m, commits.read v = .ok c ∧ manifests.read c.manifest = .ok m) ∧
      ∀ kind o, BlockReferenced commits manifests tips kind o →
        ∃ kind', BlockReferenced commits manifests tips kind' o ∧ ∃ payload, blocks.get blake3 o kind' = .ok payload := by
  unfold verifyWith at h
  obtain ⟨⟨goOn, s⟩, hheads, h⟩ := bind_eq_ok.mp h
  obtain ⟨hseen, hstop⟩ := checkHeads_seen _ hheads
  dsimp only at h
  split at h
  · next hgo =>
    cases h
    exact absurd hf (hstop hgo)
  · obtain ⟨⟨s', status⟩, hwalk, h⟩ := bind_eq_ok.mp h
    cases status with
    | error e =>
      cases h
      exact absurd hf (VerifyState.addFinding_found _ _ _ _ _)
    | ok u =>
      cases h
      obtain ⟨vs, hinv, hvs, hread⟩ := walkCommits_run (I := VerifyInv blake3 blocks commits manifests tips)
        (G := VerifyState.noFindings) (fun _ _ _ _ _ _ hinv hv hc h => verifyVisit_inv hfull hinv hv hc h)
        (fun _ _ _ _ _ h hg => verifyVisit_good hfull h hg)
        (fun _ => ⟨fun o ho => absurd (hseen ▸ ho) List.not_mem_nil, nofun⟩) hwalk hf
      obtain ⟨hs, hall⟩ := hinv hf
      refine ⟨fun v hv => ?_, fun kind o ho => ?_⟩
      · obtain ⟨c, hc⟩ := hread v ((hvs v).mpr hv)
        obtain ⟨m, hm, -⟩ := hall v ((hvs v).mpr hv) c hc
        exact ⟨c, m, hc, hm⟩
      · obtain ⟨v, c, m, r, hv, hc, hm, hr, rfl⟩ := mem_blockRefs_of_blockReferenced ho
        obtain ⟨m', hm', hmem⟩ := hall v ((hvs v).mpr hv) c hc
        cases hm.symm.trans hm'
        exact hs _ (hmem r hr)

end

section
variable (json : JsonLib) (blake3 : Bytes → Oid)

/-- Everything the tips reach is there, and reads as every kind it is referenced as. -/
def ReachableReads (blocks : LooseStore) (tips : List Oid) : Prop :=
  (∀ objs, reachableObjects (blocks.commits json blake3) (blocks.manifests json blake3) tips = .ok objs →
    ∀ o ∈ objs, blocks.contains o = true) ∧
  ∀ kind o, Referenced (blocks.commits json blake3) (blocks.manifests json blake3) tips kind o →
    ∃ payload, blocks.get blake3 o kind = .ok payload

/-- The two things `verify` does not look at: the topologies, and a block's other kinds. -/
def UncheckedSound (blocks : LooseStore) (tips : List Oid) : Prop :=
  (∀ v c, Reachable (blocks.commits json blake3) tips v → blocks.readCommit json blake3 v = .ok c →
    ∃ payload, blocks.get blake3 c.topology .topology = .ok payload) ∧
  ∀ o kind kind', BlockReferenced (blocks.commits json blake3) (blocks.manifests json blake3) tips kind o →
    BlockReferenced (blocks.commits json blake3) (blocks.manifests json blake3) tips kind' o → kind = kind'

end

/-- An object has one kind. -/
theorem LooseStore.get_kind_unique {blocks : LooseStore} {o : Oid} {kind kind' : ObjectKind} {p p' : Bytes}
    (h : blocks.get blake3 o kind = .ok p) (h' : blocks.get blake3 o kind' = .ok p') : kind = kind' := by
  obtain ⟨file, hdr, hf, -, hh⟩ := get_eq_ok.mp h
  obtain ⟨file', hdr', hf', -, hh'⟩ := get_eq_ok.mp h'
  cases hf.symm.trans hf'
  cases hh.decode.symm.trans hh'.decode
  exact ObjectKind.toByte_inj (hh.kind_eq.symm.trans hh'.kind_eq)

/-- A full run without findings vouches for everything reachable exactly when the
topologies read and no block is referenced as two kinds. -/
theorem verify_clean_iff (json : JsonLib) (blake3 : Bytes → Oid) (blocks : LooseStore) (refs : RefStore)
    (tips : List Oid) (opts : VerifyOptions) (report : VerifyReport) (hfull : opts.full = true)
    (h : verify json blake3 blocks refs tips opts = .ok report) (hf : report.findings = []) :
    ReachableReads json blake3 blocks tips ↔ UncheckedSound json blake3 blocks tips := by
  obtain ⟨hread, hblocks⟩ := verifyWith_clean hfull h hf
  constructor
  · rintro ⟨-, hget⟩
    refine ⟨fun v c hv hc => hget _ _ (.topology hv hc), fun o kind kind' hk hk' => ?_⟩
    obtain ⟨p, hp⟩ := hget kind o hk.2
    obtain ⟨p', hp'⟩ := hget kind' o hk'.2
    exact LooseStore.get_kind_unique hp hp'
  · rintro ⟨htopo, hone⟩
    have hblock : ∀ kind o, IsBlockKind kind →
        Referenced (blocks.commits json blake3) (blocks.manifests json blake3) tips kind o →
        ∃ payload, blocks.get blake3 o kind = .ok payload := by
      intro kind o hk ho
      obtain ⟨kind', ho', hget⟩ := hblocks kind o ⟨hk, ho⟩
      rwa [hone o kind kind' ⟨hk, ho⟩ ho']
    have hall : ∀ kind o, Referenced (blocks.commits json blake3) (blocks.manifests json blake3) tips kind o →
        ∃ payload, blocks.get blake3 o kind = .ok payload := by
      intro kind o ho
      cases ho with
      | commit hv =>
        obtain ⟨c, m, hc, -⟩ := hread o hv
        obtain ⟨bytes, hget, -⟩ := LooseStore.readCommit_eq_ok hc
        exact ⟨bytes, hget⟩
      | manifest hv hc =>
        obtain ⟨c', m, hc', hm⟩ := hread _ hv
        cases hc.symm.trans hc'
        obtain ⟨bytes, hget, -⟩ := LooseStore.readManifest_eq_ok hm
        exact ⟨bytes, hget⟩
      | topology hv hc => exact htopo _ _ hv hc
      | header hv hc hm => exact hblock _ _ (.inl rfl) (.header hv hc hm)
      | raw hv hc hm hg hb => exact hblock _ _ (.inr (.inl rfl)) (.raw hv hc hm hg hb)
      | diff hv hc hm hg hd => exact hblock _ _ (.inr (.inr rfl)) (.diff hv hc hm hg hd)
    refine ⟨fun objs hobjs o ho => ?_, hall⟩
    obtain ⟨kind, hr⟩ := ((reachableObjects_spec hobjs).1 o).mp ho
    obtain ⟨payload, hp⟩ := hall kind o hr
    obtain ⟨file, hdr, hfile, -⟩ := LooseStore.get_eq_ok.mp hp
    rw [LooseStore.contains, hfile]
    rfl

/-! ### A clean report over a repository without its topology

One root commit with a one-byte tensor, as the program writes it, and the
topology object deleted. The texts and digests are the real ones; they are told
apart by their lengths. -/

def sampleCommitOid : Oid :=
  ⟨[116, 195, 48, 32, 237, 251, 99, 57, 117, 0, 165, 122, 158, 6, 163, 104, 145, 209, 45, 88, 179, 212, 115,
   17, 0, 53, 198, 205, 58, 19, 56, 13], rfl⟩

def sampleManifestOid : Oid :=
  ⟨[91, 195, 182, 183, 243, 110, 80, 183, 217, 40, 173, 137, 142, 170, 148, 220, 194, 201, 112, 243, 157,
   102, 132, 207, 172, 100, 235, 162, 53, 201, 45, 141], rfl⟩

def sampleHeaderOid : Oid :=
  ⟨[72, 64, 3, 39, 14, 189, 195, 137, 17, 18, 146, 62, 82, 18, 32, 213, 243, 208, 223, 164, 26, 0, 247, 181,
   144, 205, 106, 132, 188, 209, 103, 196], rfl⟩

def sampleRawDigest : Bytes :=
  [141, 124, 229, 98, 208, 236, 158, 154, 144, 218, 161, 76, 139, 239, 191, 61, 72, 213, 173, 28, 254, 134,
   74, 46, 129, 189, 8, 253, 179, 6, 2, 61]

def sampleRawOid : Oid := ⟨sampleRawDigest, rfl⟩

def sampleTopologyOid : Oid :=
  ⟨[92, 32, 238, 118, 171, 44, 114, 67, 124, 206, 197, 121, 37, 128, 223, 204, 48, 214, 57, 52, 97, 171, 72,
   52, 32, 130, 194, 99, 179, 142, 34, 254], rfl⟩

def sampleManifest : Manifest :=
  { formatVersion := 1, hashAlgo := "blake3"
    file := { name := "m", headerBlock := sampleHeaderOid, totalBytes := 11, sha256 := "" }
    buffer := [{ tensor := "t", off := 10, nbytes := 1, group := "t" }]
    groups := FinMap.empty.insert "t"
      { mode := .full, block := some sampleRawOid, base := none, diffBlock := none, chainDepth := 0 } }

def sampleCommit : Commit :=
  { formatVersion := 1, parents := [], manifest := sampleManifestOid, topology := sampleTopologyOid
    timestamp := "2025-01-01T00:00:00Z", author := "", message := "" }

/-- `{"author":"","format_version":1,"manifest":"b3:..","message":"","parents":[],"timestamp":..,"topology":".."}`. -/
def sampleCommitBytes : Bytes :=
  [123, 34, 97, 117, 116, 104, 111, 114, 34, 58, 34, 34, 44, 34, 102, 111, 114, 109, 97, 116, 95, 118, 101,
   114, 115, 105, 111, 110, 34, 58, 49, 44, 34, 109, 97, 110, 105, 102, 101, 115, 116, 34, 58, 34, 98, 51,
   58, 53, 98, 99, 51, 98, 54, 98, 55, 102, 51, 54, 101, 53, 48, 98, 55, 100, 57, 50, 56, 97, 100, 56, 57,
   56, 101, 97, 97, 57, 52, 100, 99, 99, 50, 99, 57, 55, 48, 102, 51, 57, 100, 54, 54, 56, 52, 99, 102, 97,
   99, 54, 52, 101, 98, 97, 50, 51, 53, 99, 57, 50, 100, 56, 100, 34, 44, 34, 109, 101, 115, 115, 97, 103,
   101, 34, 58, 34, 34, 44, 34, 112, 97, 114, 101, 110, 116, 115, 34, 58, 91, 93, 44, 34, 116, 105, 109,
   101, 115, 116, 97, 109, 112, 34, 58, 34, 50, 48, 50, 53, 45, 48, 49, 45, 48, 49, 84, 48, 48, 58, 48, 48,
   58, 48, 48, 90, 34, 44, 34, 116, 111, 112, 111, 108, 111, 103, 121, 34, 58, 34, 98, 51, 58, 53, 99, 50,
   48, 101, 101, 55, 54, 97, 98, 50, 99, 55, 50, 52, 51, 55, 99, 99, 101, 99, 53, 55, 57, 50, 53, 56, 48,
   100, 102, 99, 99, 51, 48, 100, 54, 51, 57, 51, 52, 54, 49, 97, 98, 52, 56, 51, 52, 50, 48, 56, 50, 99,
   50, 54, 51, 98, 51, 56, 101, 50, 50, 102, 101, 34, 125]

/-- `{"buffer":[..],"file":{..},"format_version":1,"groups":{"t":{..}},"hash_algo":"blake3"}`. -/
def sampleManifestBytes : Bytes :=
  [123, 34, 98, 117, 102, 102, 101, 114, 34, 58, 91, 123, 34, 103, 114, 111, 117, 112, 34, 58, 34, 116, 34,
   44, 34, 110, 98, 121, 116, 101, 115, 34, 58, 49, 44, 34, 111, 102, 102, 34, 58, 49, 48, 44, 34, 116, 101,
   110, 115, 111, 114, 34, 58, 34, 116, 34, 125, 93, 44, 34, 102, 105, 108, 101, 34, 58, 123, 34, 104, 101,
   97, 100, 101, 114, 95, 98, 108, 111, 99, 107, 34, 58, 34, 98, 51, 58, 52, 56, 52, 48, 48, 51, 50, 55, 48,
   101, 98, 100, 99, 51, 56, 57, 49, 49, 49, 50, 57, 50, 51, 101, 53, 50, 49, 50, 50, 48, 100, 53, 102, 51,
   100, 48, 100, 102, 97, 52, 49, 97, 48, 48, 102, 55, 98, 53, 57, 48, 99, 100, 54, 97, 56, 52, 98, 99, 100,
   49, 54, 55, 99, 52, 34, 44, 34, 110, 97, 109, 101, 34, 58, 34, 109, 34, 44, 34, 115, 104, 97, 50, 53, 54,
   34, 58, 34, 34, 44, 34, 116, 111, 116, 97, 108, 95, 98, 121, 116, 101, 115, 34, 58, 49, 49, 125, 44, 34,
   102, 111, 114, 109, 97, 116, 95, 118, 101, 114, 115, 105, 111, 110, 34, 58, 49, 44, 34, 103, 114, 111,
   117, 112, 115, 34, 58, 123, 34, 116, 34, 58, 123, 34, 98, 108, 111, 99, 107, 34, 58, 34, 98, 51, 58, 56,
   100, 55, 99, 101, 53, 54, 50, 100, 48, 101, 99, 57, 101, 57, 97, 57, 48, 100, 97, 97, 49, 52, 99, 56, 98,
   101, 102, 98, 102, 51, 100, 52, 56, 100, 53, 97, 100, 49, 99, 102, 101, 56, 54, 52, 97, 50, 101, 56, 49,
   98, 100, 48, 56, 102, 100, 98, 51, 48, 54, 48, 50, 51, 100, 34, 44, 34, 99, 104, 97, 105, 110, 95, 100,
   101, 112, 116, 104, 34, 58, 48, 44, 34, 109, 111, 100, 101, 34, 58, 34, 102, 117, 108, 108, 34, 125, 125,
   44, 34, 104, 97, 115, 104, 95, 97, 108, 103, 111, 34, 58, 34, 98, 108, 97, 107, 101, 51, 34, 125]

/-- An eight-byte length and an empty header. -/
def sampleHeaderBytes : Bytes := [2, 0, 0, 0, 0, 0, 0, 0, 123, 125]

def sampleJson : JsonLib where
  dump j := if j.contains "message" then sampleCommitBytes else sampleManifestBytes
  parse b :=
    if b.length = 255 then .ok sampleCommit.toJson
    else if b.length = 358 then .ok sampleManifest.toJson
    else .error "parse error"

/-- BLAKE3 on the framed payloads and on the payloads as chunks. -/
def sampleHash (b : Bytes) : Oid :=
  match b.length with
  | 276 => sampleCommitOid
  | 381 => sampleManifestOid
  | 30 => sampleHeaderOid
  | 17 => sampleRawOid
  | 255 =>
    ⟨[217, 31, 144, 105, 179, 54, 47, 219, 85, 250, 204, 32, 217, 26, 171, 241, 203, 96, 110, 79, 156, 230,
      247, 46, 240, 184, 124, 222, 175, 173, 121, 220], rfl⟩
  | 358 =>
    ⟨[48, 128, 205, 120, 93, 105, 203, 211, 217, 61, 213, 206, 51, 150, 128, 208, 14, 247, 88, 137, 246, 10,
      173, 44, 176, 68, 45, 20, 160, 99, 111, 78], rfl⟩
  | 10 =>
    ⟨[184, 179, 141, 28, 176, 103, 95, 107, 53, 18, 163, 124, 117, 40, 115, 117, 216, 161, 127, 153, 146,
      229, 145, 85, 196, 9, 163, 88, 55, 86, 12, 249], rfl⟩
  | _ =>
    ⟨[68, 139, 216, 221, 150, 36, 21, 74, 105, 15, 142, 132, 220, 82, 214, 246, 51, 186, 124, 213, 69, 196,
      211, 201, 180, 224, 246, 162, 246, 250, 113, 244], rfl⟩

def sampleFile (kind : ObjectKind) (payload : Bytes) : Bytes :=
  match encodeObject sampleHash kind payload (2 ^ 22) with
  | .ok file => file
  | .error _ => []

def sampleStore : LooseStore where
  chunkBytes := 2 ^ 22
  files :=
    { entries :=
        [(sampleCommitOid, sampleFile .commit sampleCommitBytes),
         (sampleManifestOid, sampleFile .manifest sampleManifestBytes),
         (sampleHeaderOid, sampleFile .header sampleHeaderBytes), (sampleRawOid, sampleFile .raw [7])]
      nodup := by decide }

def noRefs : RefStore where
  tree := FileTree.ofLists [] [] (by decide) (by decide) (by decide)
  dot := ["repo", ".synapsefs"]
  dot_plain := repo_plain

theorem sample_verify : verify sampleJson sampleHash sampleStore noRefs [sampleCommitOid] ⟨true, false⟩ =
    .ok ⟨1, 2, 11, []⟩ := by
  decide +kernel

theorem sample_readCommit : sampleStore.readCommit sampleJson sampleHash sampleCommitOid = .ok sampleCommit := by
  decide +kernel

/-- The report is clean and the topology of the only commit is gone. -/
theorem verify_misses_topology : ¬ ∀ (json : JsonLib) (blake3 : Bytes → Oid) (blocks : LooseStore) (refs : RefStore)
    (tips : List Oid) (opts : VerifyOptions) (report : VerifyReport), opts.full = true →
    verify json blake3 blocks refs tips opts = .ok report → report.findings = [] →
    ReachableReads json blake3 blocks tips := by
  intro h
  obtain ⟨-, hget⟩ := h sampleJson sampleHash sampleStore noRefs [sampleCommitOid] ⟨true, false⟩ ⟨1, 2, 11, []⟩ rfl
    sample_verify rfl
  have htip : Reachable (sampleStore.commits sampleJson sampleHash) [sampleCommitOid] sampleCommitOid :=
    ⟨sampleCommitOid, List.mem_singleton_self _, Relation.ReflTransGen.refl⟩
  obtain ⟨payload, hp⟩ := hget .topology sampleCommit.topology (Referenced.topology htip sample_readCommit)
  obtain ⟨file, hdr, hfile, -⟩ := LooseStore.get_eq_ok.mp hp
  have hgone : sampleStore.files.get? sampleCommit.topology = none := by decide +kernel
  rw [hgone] at hfile
  cases hfile

theorem verify_clean_iff_sample :
    verify sampleJson sampleHash sampleStore noRefs [sampleCommitOid] ⟨true, false⟩ = .ok ⟨1, 2, 11, []⟩ ∧
      (ReachableReads sampleJson sampleHash sampleStore [sampleCommitOid] ↔
        UncheckedSound sampleJson sampleHash sampleStore [sampleCommitOid]) :=
  ⟨sample_verify, verify_clean_iff sampleJson sampleHash sampleStore noRefs [sampleCommitOid] ⟨true, false⟩
    ⟨1, 2, 11, []⟩ rfl sample_verify rfl⟩

end SynapseFs.Store
