import SynapseFs.Codec.ReadDepth
import SynapseFs.Store.History

/-! Delta chains in a history.

Every Delta entry is based on an entry of an ancestor, one link shallower, and no
chain is longer than the configuration allows. A commit adds links to its parent;
a merge carries entries over from either side, whose ancestors are its own. -/
namespace SynapseFs.Store
open Lib Core Format Align SynapseFs.Codec

/-- The link of one entry of commit `oid`. -/
structure Link (cfg : RepoConfig) (objects : ObjectMap) (oid : Oid) (e : GroupEntry) (base : DeltaBase) (bm : Manifest)
    (be : GroupEntry) : Prop where
  base_eq : e.base = some base
  ancestor : Relation.TransGen (ParentOf objects.commits) oid base.commit
  manifest : manifestFor objects.commits objects.manifests base.commit = .ok bm
  group : bm.findGroup base.group = some be
  depth : e.chainDepth = u32 (be.chainDepth + 1)
  base_le : be.chainDepth ≤ cfg.maxChainDepth

def Linked (cfg : RepoConfig) (objects : ObjectMap) (oid : Oid) (e : GroupEntry) : Prop :=
  e.chainDepth ≤ cfg.maxChainDepth ∧ (e.mode = .delta → ∃ base bm be, Link cfg objects oid e base bm be)

/-- The invariant of histories. -/
structure ChainInv (cfg : RepoConfig) (objects : ObjectMap) : Prop where
  kinds : ∀ o obj, objects.get? o = some obj → (∃ c h, obj = commitObject c h) ∨ ∃ m, obj = manifestObject m
  parents : ∀ o c, objects.commits.read o = .ok c → ∀ p ∈ c.parents, ∃ c', objects.commits.read p = .ok c'
  manifests : ∀ o c, objects.commits.read o = .ok c → ∃ m, objects.manifests.read c.manifest = .ok m
  linked : ∀ o m, manifestFor objects.commits objects.manifests o = .ok m →
    ∀ name e, m.findGroup name = some e → Linked cfg objects o e

section
variable {libs : Libs} {cfg : RepoConfig} {objects : ObjectMap}

theorem transGen_extends {a b : ObjectMap} (hx : Extends a b) {o p : Oid}
    (h : Relation.TransGen (ParentOf a.commits) o p) : Relation.TransGen (ParentOf b.commits) o p := by
  refine Relation.TransGen.mono ?_ o p h
  rintro o p ⟨c, hc, hp⟩
  exact ⟨c, hx.commit hc, hp⟩

theorem Linked.mono {a b : ObjectMap} (hx : Extends a b) {o : Oid} {e : GroupEntry} (h : Linked cfg a o e) :
    Linked cfg b o e := by
  refine ⟨h.1, fun hd => ?_⟩
  obtain ⟨base, bm, be, hl⟩ := h.2 hd
  exact ⟨base, bm, be, hl.base_eq, transGen_extends hx hl.ancestor, hx.manifestFor hl.manifest, hl.group, hl.depth,
    hl.base_le⟩

/-- A link of a parent's entry is a link of a child that carries the entry. -/
theorem Linked.of_parent {o p : Oid} {c : Commit} {e : GroupEntry} (hc : objects.commits.read o = .ok c)
    (hp : p ∈ c.parents) (h : Linked cfg objects p e) : Linked cfg objects o e := by
  refine ⟨h.1, fun hd => ?_⟩
  obtain ⟨base, bm, be, hl⟩ := h.2 hd
  exact ⟨base, bm, be, hl.base_eq, .head ⟨c, hc, hp⟩ hl.ancestor, hl.manifest, hl.group, hl.depth, hl.base_le⟩

/-- The step lemma: a recorded commit with stored parents and linked entries keeps the invariant. -/
theorem ChainInv.record (h : ChainInv cfg objects) {r : Recorded} (hclear : Clear libs objects r)
    (hm : r.commit.manifest = r.manifest.oid libs.json libs.blake3)
    (hparents : ∀ p ∈ r.commit.parents, ∃ c, objects.commits.read p = .ok c)
    (hlinked : ∀ name e, r.manifest.findGroup name = some e →
      Linked cfg (record libs objects r) (r.oid libs) e) : ChainInv cfg (record libs objects r) := by
  have hx : Extends objects (Store.record libs objects r) := record_extends objects r
  obtain ⟨hread, hfor⟩ := record_reads hclear hm
  refine ⟨fun o obj hobj => ?_, fun o c hc p hp => ?_, fun o c hc => ?_, fun o m hom name e he => ?_⟩
  · rcases putObject_cases hobj with hobj | ⟨-, rfl⟩
    · rcases putObject_cases hobj with hobj | ⟨-, rfl⟩
      · exact h.kinds o obj hobj
      · exact .inr ⟨_, rfl⟩
    · exact .inl ⟨_, _, rfl⟩
  · have hstored : ∃ c', objects.commits.read p = .ok c' := by
      rcases record_cases hc with hc | ⟨-, rfl⟩
      · exact h.parents o c hc p hp
      · exact hparents p hp
    obtain ⟨c', hc'⟩ := hstored
    exact ⟨c', hx.commit hc'⟩
  · rcases record_cases hc with hc | ⟨rfl, rfl⟩
    · obtain ⟨m, hm⟩ := h.manifests o c hc
      exact ⟨m, hx.manifest hm⟩
    · obtain ⟨c, hc, hm⟩ := bind_eq_ok.mp hfor
      cases hread.symm.trans hc
      exact ⟨_, hm⟩
  · obtain ⟨c, hc, hmread⟩ := bind_eq_ok.mp hom
    rcases record_cases hc with hold | ⟨rfl, rfl⟩
    · obtain ⟨m', hm'⟩ := h.manifests o c hold
      cases (hx.manifest hm').symm.trans hmread
      exact (h.linked o m (bind_eq_ok.mpr ⟨c, hold, hm'⟩) name e he).mono hx
    · cases hfor.symm.trans hom
      exact hlinked name e he

/-- The depths that the planner is handed are within the bound. -/
theorem parentInfo_spec (h : ChainInv cfg objects) {parent : Option Oid} {info : FinMap String ParentTensorInfo}
    (hinfo : parentInfo objects parent = .ok info) {name : String} {pi : ParentTensorInfo}
    (hpi : info.get? name = some pi) : ∃ m g, parent = some pi.parentCommit ∧
      manifestFor objects.commits objects.manifests pi.parentCommit = .ok m ∧ m.findGroup name = some g ∧
      pi.chainDepth = g.chainDepth ∧ g.chainDepth ≤ cfg.maxChainDepth := by
  cases parent with
  | none =>
    cases hinfo
    rw [FinMap.get?_empty] at hpi
    cases hpi
  | some parent =>
    obtain ⟨m, hm, hinfo⟩ := bind_eq_ok.mp hinfo
    cases hinfo
    rw [FinMap.get?_mapKV] at hpi
    obtain ⟨g, hg, rfl⟩ := Option.map_eq_some_iff.mp hpi
    exact ⟨m, g, rfl, hm, hg, rfl, (h.linked parent m hm name g hg).1⟩

/-- What a plan records is linked to the parent it was planned against. -/
theorem linked_of_plan (h : ChainInv cfg objects) {parent : Option Oid} {info : FinMap String ParentTensorInfo}
    (hinfo : parentInfo objects parent = .ok info) {base target : TensorSource} {topo : Topology} {report : MatchReport}
    {opts : EncodeOptions} {o : PlanOutput} (hplan : planCommitGroups libs base target topo report info cfg opts = .ok o)
    {objects' : ObjectMap} (hx : Extends objects objects') {oid : Oid} {c : Commit}
    (hc : objects'.commits.read oid = .ok c) (hparents : c.parents = parent.toList) {name : String} {e : GroupEntry}
    (he : o.entries.get? name = some e) : Linked cfg objects' oid e := by
  obtain ⟨plans, kept, hspec⟩ := planCommitGroups_spec hplan
  rcases hspec.entries name e he with ⟨p, hp, hk, hm, -, pi, hpi, rfl⟩ | ⟨⟨-, -, -, -, -, -, rfl⟩, -⟩
  · obtain ⟨m, be, rfl, hman, hbe, hdepth, hle⟩ := parentInfo_spec h hinfo hpi
    obtain ⟨g, gm, source, hplanned⟩ := hspec.planned p hp
    have hdelta := hspec.kept_delta p hp hk
    rw [hplanned.decision_eq] at hdelta
    refine ⟨depth_of_delta hdelta (le_maxBaseDepth hm hpi) (maxBaseDepth_le (fun n i hi => ?_) _), fun _ => ?_⟩
    · obtain ⟨_, g', -, -, -, hd, hle⟩ := parentInfo_spec h hinfo hi
      exact hd ▸ hle
    · have hparent : ParentOf objects'.commits oid pi.parentCommit := ⟨c, hc, by rw [hparents]; exact List.mem_cons_self⟩
      exact ⟨_, m, be, rfl, .single hparent, hx.manifestFor hman, hbe, by rw [← hdepth]; rfl, hle⟩
  · exact ⟨Nat.zero_le _, nofun⟩

/-- The run lemma. -/
theorem chainInv_of_built (h : Built libs cfg objects) : ChainInv cfg objects := by
  induction h with
  | empty =>
    have hnone : ∀ o c, (ObjectMap.commits .empty).read o ≠ .ok c := by
      intro o c hc
      obtain ⟨obj, hobj, -⟩ := readCommit_iff.mp hc
      rw [FinMap.get?_empty] at hobj
      cases hobj
    refine ⟨fun o obj hobj => ?_, fun o c hc => absurd hc (hnone o c), fun o c hc => absurd hc (hnone o c),
      fun o m hm => ?_⟩
    · rw [FinMap.get?_empty] at hobj
      cases hobj
    · obtain ⟨c, hc, -⟩ := bind_eq_ok.mp hm
      exact absurd hc (hnone o c)
  | @commit objects h parent info hinfo base target topo report opts o hplan r hgroups hparents hmanifest hclear ih =>
    obtain ⟨hread, -⟩ := record_reads hclear hmanifest
    refine ih.record hclear hmanifest (fun p hp => ?_) fun name e he => ?_
    · rw [hparents] at hp
      cases parent with
      | none => cases hp
      | some parent =>
        rw [List.mem_singleton.mp hp]
        obtain ⟨m, hm, -⟩ := bind_eq_ok.mp hinfo
        obtain ⟨c, hc, -⟩ := bind_eq_ok.mp hm
        exact ⟨c, hc⟩
    · have he : o.entries.get? name = some e := by
        rw [← hgroups]
        exact he
      exact linked_of_plan ih hinfo hplan (record_extends objects r) hread hparents he
  | @merge objects h ours theirs strategy result hplan r hmerged hparents hmanifest hclear ih =>
    obtain ⟨hread, -⟩ := record_reads hclear hmanifest
    have hx : Extends objects (record libs objects r) := record_extends objects r
    have hside : ∀ {side : Oid} {c : Commit} {m : Manifest}, side ∈ [ours, theirs] → objects.commits.read side = .ok c →
        objects.manifests.read c.manifest = .ok m → ∀ name e, m.groups.get? name = some e →
        Linked cfg (record libs objects r) (r.oid libs) e := by
      intro side c m hmem hc hm name e he
      have hold := (ih.linked side m (bind_eq_ok.mpr ⟨c, hc, hm⟩) name e he).mono hx
      exact hold.of_parent hread (hparents ▸ hmem)
    cases planMerge_cases hplan with
    | fastForward _ hm => rw [hmerged] at hm; cases hm
    | conflicted _ hm => rw [hmerged] at hm; cases hm
    | merged _ ho ht hom htm hm hfrom =>
      cases hmerged.symm.trans hm
      refine ih.record hclear hmanifest (fun p hp => ?_) fun name e he => ?_
      · rw [hparents] at hp
        rcases List.mem_cons.mp hp with rfl | hp
        · exact ⟨_, ho⟩
        · exact ⟨_, List.mem_singleton.mp hp ▸ ht⟩
      · rcases hfrom.group_of_side he with h | h
        · exact hside List.mem_cons_self ho hom name e h
        · exact hside (List.mem_cons_of_mem _ List.mem_cons_self) ht htm name e h

/-! ### What `verify` sees -/

theorem ChainInv.ancestors (h : ChainInv cfg objects) {o p : Oid} {c : Commit} (hc : objects.commits.read o = .ok c)
    (ha : Ancestor objects.commits o p) : ∃ c', objects.commits.read p = .ok c' := by
  induction ha with
  | refl => exact ⟨c, hc⟩
  | tail _ hp _ =>
    obtain ⟨c', hc', hmem⟩ := hp
    exact h.parents _ c' hc' _ hmem

/-- Check (6) accepts. -/
theorem checkAncestorInvariant_ok (h : ChainInv cfg objects) {oid : Oid} {c : Commit}
    (hc : objects.commits.read oid = .ok c) (entries : List (String × GroupEntry))
    (hlinked : ∀ e ∈ entries, Linked cfg objects oid e.2) :
    checkAncestorInvariant objects.commits oid entries = .ok () := by
  induction entries with
  | nil => rfl
  | cons entry rest ih =>
    obtain ⟨name, g⟩ := entry
    have hrest := ih fun e he => hlinked e (List.mem_cons_of_mem _ he)
    unfold checkAncestorInvariant
    split
    · next base hmode hbase =>
      obtain ⟨base', bm, be, hl⟩ := (hlinked _ List.mem_cons_self).2 hmode
      cases hbase.symm.trans hl.base_eq
      refine bind_eq_ok.mpr ⟨true, isAncestor_of_ancestor (fun p hp => h.ancestors hc hp) hl.ancestor.to_reflTransGen, ?_⟩
      exact hrest
    · exact hrest

/-- Check (7) finds nothing. -/
theorem checkDepths_ok {oid : Oid} (entries : List (String × GroupEntry))
    (hlinked : ∀ e ∈ entries, Linked cfg objects oid e.2) (s : VerifyState) :
    entries.foldlM (checkDepth objects.commits objects.manifests oid) s = .ok s := by
  induction entries with
  | nil => rfl
  | cons entry rest ih =>
    obtain ⟨name, g⟩ := entry
    rw [List.foldlM_cons]
    refine bind_eq_ok.mpr ⟨s, ?_, ih fun e he => hlinked e (List.mem_cons_of_mem _ he)⟩
    unfold checkDepth
    dsimp only
    split
    · next base hmode hbase =>
      obtain ⟨base', bm, be, hl⟩ := (hlinked _ List.mem_cons_self).2 hmode
      cases hbase.symm.trans hl.base_eq
      refine bind_eq_ok.mpr ⟨_, settle_eq_ok.mpr hl.manifest, ?_⟩
      dsimp only
      rw [hl.group]
      exact if_neg (not_not.mpr hl.depth)
    · rfl

/-! ### What a read sees -/

theorem never_manifestFor (h : ChainInv cfg objects) (o : Oid) :
    Never TooDeep (manifestFor objects.commits objects.manifests o) := by
  have hread : ∀ {α : Type} (view : StoredObject → Outcome α), (∀ c h, Never TooDeep (view (commitObject c h))) →
      (∀ m, Never TooDeep (view (manifestObject m))) → ∀ o, Never TooDeep (objects.readAs view o) := by
    intro α view hcommit hmanifest o
    unfold ObjectMap.readAs
    split
    · next obj hobj =>
      rcases h.kinds o obj hobj with ⟨c, hc, rfl⟩ | ⟨m, rfl⟩
      · exact hcommit c hc
      · exact hmanifest m
    · exact never_sfsErr _ _ (by decide)
  refine never_bind (hread StoredObject.asCommit (fun c _ => never_ok c) (fun _ => never_sfsErr _ _ (by decide)) _) fun c _ => ?_
  exact hread StoredObject.asManifest (fun _ _ => never_sfsErr _ _ (by decide)) (fun m => never_ok m) _

/-- The block store of a directory, as reads see it. -/
def LooseStore.reads (s : LooseStore) (blake3 : Bytes → Oid) : BlockReads := ⟨s.get blake3, s.readRange blake3⟩

theorem LooseStore.reads_shallow (s : LooseStore) (blake3 : Bytes → Oid) : BlocksShallow (s.reads blake3) := by
  have hopen : ∀ oid, Never TooDeep (s.openFile oid) := fun oid => by
    unfold openFile
    split
    · exact never_ok _
    · exact never_sfsErr _ _ (by decide)
  have hdecode : ∀ b, Never TooDeep (ObjectHeader.decode b) := fun b => by
    unfold ObjectHeader.decode
    split
    · exact never_sfsErr _ _ (by decide)
    · split
      · exact never_sfsErr _ _ (by decide)
      · exact never_ok _
  have hheader : ∀ hdr kind oid, Never TooDeep (checkHeader hdr kind oid) := fun hdr kind oid => by
    unfold checkHeader
    split
    · exact never_sfsErr _ _ (by decide)
    · split
      · exact never_sfsErr _ _ (by decide)
      · exact never_ok _
  have hchunks : ∀ file hdr digests oid offset want fuel done out,
      Never TooDeep (readChunks blake3 file hdr digests oid offset want fuel done out) := by
    intro file hdr digests oid offset want fuel
    induction fuel with
    | zero =>
      intro done out
      unfold readChunks
      split
      · exact never_error id
      · exact never_ok _
    | succ fuel ih =>
      intro done out
      unfold readChunks
      split
      · refine never_bind ?_ fun r _ => ?_
        · unfold readChunk
          dsimp only
          split
          · exact never_sfsErr _ _ (by decide)
          · refine never_bind ?_ fun _ _ => never_ok _
            unfold verifyChunk
            dsimp only
            split
            · exact never_sfsErr _ _ (by decide)
            · split
              · exact never_sfsErr _ _ (by decide)
              · exact never_ok _
        · obtain ⟨chunkBuf, within⟩ := r
          dsimp only
          split
          · exact never_undefined _
          · exact ih _ _
      · exact never_ok _
  constructor
  · intro oid kind
    refine never_bind (hopen oid) fun file _ => never_bind (hdecode _) fun hdr _ => never_bind (hheader _ _ _) fun _ _ => ?_
    unfold checkPayload
    split
    · exact never_sfsErr _ _ (by decide)
    · split
      · exact never_undefined _
      · dsimp only
        split
        · exact never_sfsErr _ _ (by decide)
        · exact never_ok _
  · intro oid kind off out
    refine never_bind (hopen oid) fun file _ => ?_
    split
    · exact never_sfsErr _ _ (by decide)
    · refine never_bind (hdecode _) fun hdr _ => never_bind (hheader _ _ _) fun _ _ => ?_
      split
      · exact never_ok _
      · split
        · exact never_undefined _
        · dsimp only
          split
          · exact never_sfsErr _ _ (by decide)
          · exact hchunks _ _ _ _ _ _ _ _ _

/-! ### Histories -/

/-- How a commit of a history is read. -/
def readCtxAt (objects : ObjectMap) (cfg : RepoConfig) (blocks : BlockReads) (topology : Option Topology)
    (manifest : Manifest) : ReadCtx :=
  { blocks := some blocks, manifest := some manifest,
    history := some (manifestFor objects.commits objects.manifests), maxDepth := cfg.maxChainDepth, topology }

/-- In every history, each Delta entry hangs one link below an entry of an ancestor
and within the bound; so `verify` accepts the chains of every commit, and no read
finds one too deep. -/
theorem chains_of_built (h : Built libs cfg objects) {oid : Oid} {c : Commit} {m : Manifest}
    (hc : objects.commits.read oid = .ok c) (hm : objects.manifests.read c.manifest = .ok m) :
    (∀ name e, m.findGroup name = some e → e.mode = .delta → ∃ base bm be, e.base = some base ∧
      Relation.TransGen (ParentOf objects.commits) oid base.commit ∧
      manifestFor objects.commits objects.manifests base.commit = .ok bm ∧ bm.findGroup base.group = some be ∧
      e.chainDepth = u32 (be.chainDepth + 1) ∧
      (cfg.maxChainDepth + 1 < 2 ^ 32 → e.chainDepth = be.chainDepth + 1) ∧ e.chainDepth ≤ cfg.maxChainDepth) ∧
    checkAncestorInvariant objects.commits oid m.groups.entries = .ok () ∧
    (∀ s, m.groups.entries.foldlM (checkDepth objects.commits objects.manifests oid) s = .ok s) ∧
    ∀ (store : LooseStore) (topology : Option Topology) (fuel : Nat) (name : String) (off : Nat) (out : Bytes),
      Never TooDeep (readRange libs fuel
        (readCtxAt objects cfg (store.reads libs.blake3) topology m) name off out) := by
  have hinv := chainInv_of_built h
  have hfor : manifestFor objects.commits objects.manifests oid = .ok m := bind_eq_ok.mpr ⟨c, hc, hm⟩
  have hlinked : ∀ e ∈ m.groups.entries, Linked cfg objects oid e.2 := fun e he =>
    hinv.linked oid m hfor e.1 e.2 (FinMap.get?_eq_some.mpr he)
  refine ⟨fun name e he hd => ?_, checkAncestorInvariant_ok hinv hc _ hlinked, checkDepths_ok _ hlinked,
    fun store topology fuel => ?_⟩
  · have hl := hinv.linked oid m hfor name e he
    obtain ⟨base, bm, be, hlink⟩ := hl.2 hd
    refine ⟨base, bm, be, hlink.base_eq, hlink.ancestor, hlink.manifest, hlink.group, hlink.depth, fun hwrap => ?_, hl.1⟩
    have := hlink.base_le
    rw [hlink.depth, u32_of_lt (by omega)]
  · refine readRange_never_tooDeep rfl (store.reads_shallow libs.blake3) (fun history hh o => ?_) ?_ fuel
    · cases hh
      exact never_manifestFor hinv o
    · intro m' hm' name e he
      rcases hm' with hm' | ⟨history, o, hh, hm'⟩
      · cases hm'
        exact (hinv.linked oid m hfor name e he).1
      · cases hh
        exact (hinv.linked o m' hm' name e he).1

end

/-! ### A small repository

Two commits of one tensor of two bytes; the second swaps the rows and changes one. -/

mutual
/-- Compact JSON text, for values without escapes and no double but zero. -/
def printJson : Json → List Char
  | .null => "null".toList
  | .bool b => (if b then "true" else "false").toList
  | .uint n => Nat.toDigits 10 n
  | .int z => (toString z).toList
  | .float _ => "0.0".toList
  | .str s => '"' :: (s.toList ++ ['"'])
  | .arr items => '[' :: (printItems items ++ [']'])
  | .obj fields => '\x7b' :: (printFields fields ++ ['\x7d'])

def printItems : List Json → List Char
  | [] => []
  | [j] => printJson j
  | j :: rest => printJson j ++ ',' :: printItems rest

def printFields : List (String × Json) → List Char
  | [] => []
  | [(k, j)] => '"' :: (k.toList ++ '"' :: ':' :: printJson j)
  | (k, j) :: rest => '"' :: (k.toList ++ '"' :: ':' :: printJson j) ++ ',' :: printFields rest
end

/-! The digests of what is hashed, by content. -/

def sevenSixDigest : Oid :=
  ⟨[0x85, 0xe6, 0x18, 0xdb, 0xe1, 0x97, 0xbd, 0x8a, 0x6f, 0x50, 0x27, 0xb8, 0x85, 0xb0, 0xa3, 0x3b,
    0xab, 0x44, 0x47, 0x8e, 0x67, 0xf6, 0xd2, 0x62, 0xf0, 0x1e, 0xdc, 0x6c, 0xee, 0x57, 0x23, 0x49], rfl⟩

def fiveSevenOid : Oid :=
  ⟨[0xe9, 0x04, 0xa5, 0xcc, 0xa9, 0xc5, 0x27, 0xc5, 0x3b, 0xc7, 0x2b, 0x77, 0x7a, 0xce, 0x49, 0x4c,
    0x98, 0x83, 0xea, 0xf5, 0x59, 0x3c, 0x30, 0x7f, 0xa4, 0x81, 0xa3, 0x49, 0xbf, 0x3c, 0xb6, 0x80], rfl⟩

def smallTopologyOid : Oid := sampleTopologyOid

def smallHeaderOid : Oid := sampleHeaderOid

def rootCommitOid : Oid :=
  ⟨[0x45, 0x11, 0x01, 0xa3, 0xcf, 0x09, 0xe0, 0xd6, 0xcf, 0xa6, 0xa8, 0x66, 0x00, 0x38, 0x0a, 0x97,
    0x6d, 0xd1, 0x1f, 0xe5, 0x17, 0x83, 0xb4, 0x3a, 0x07, 0xe5, 0x59, 0x76, 0xb5, 0x90, 0xdd, 0xcc], rfl⟩

def nextCommitOid : Oid :=
  ⟨[0x9f, 0x1e, 0xbc, 0x92, 0xc9, 0x2a, 0x42, 0xc1, 0x5b, 0x15, 0x17, 0x31, 0xe8, 0x3d, 0xe3, 0x65,
    0xf9, 0x38, 0x2b, 0xf2, 0x5e, 0x99, 0xc8, 0x84, 0x98, 0xcc, 0xa9, 0xe5, 0x2a, 0xf1, 0x98, 0x06], rfl⟩

def rootManifestOid : Oid :=
  ⟨[0x66, 0x10, 0x23, 0x4c, 0x70, 0x66, 0xd2, 0xe0, 0x1d, 0xb5, 0x54, 0xb1, 0x88, 0x47, 0x4e, 0x0c,
    0xb7, 0x2e, 0x06, 0x28, 0x28, 0xbd, 0xb0, 0xf1, 0xad, 0xe3, 0xea, 0xb8, 0xe0, 0x16, 0x7f, 0xfd], rfl⟩

def swapOid : Oid :=
  ⟨[0xf8, 0x30, 0x3a, 0x45, 0xe2, 0xa1, 0x5f, 0x52, 0x60, 0x53, 0x08, 0xff, 0x1e, 0x4e, 0xe2, 0x72,
    0x7c, 0xb0, 0x1c, 0x9b, 0xba, 0xb9, 0xe3, 0x11, 0xa4, 0xe8, 0x98, 0xa8, 0xcb, 0x65, 0x5f, 0x48], rfl⟩

def nextManifestOid : Oid :=
  ⟨[0xcb, 0xf2, 0x8f, 0x7b, 0x60, 0xf2, 0x2a, 0x6f, 0x8a, 0xe2, 0xa7, 0xfc, 0x3d, 0x12, 0x6e, 0xf8,
    0x4d, 0x7c, 0x9c, 0xbb, 0x08, 0x43, 0xd5, 0x21, 0x25, 0x54, 0x31, 0x11, 0xa8, 0x8d, 0x72, 0xef], rfl⟩

/-- BLAKE3 on the strings that are hashed here, which differ in length. -/
def smallHash (b : Bytes) : Oid :=
  match b.length with
  | 2 => sevenSixDigest
  | 18 => fiveSevenOid
  | 23 => smallTopologyOid
  | 30 => smallHeaderOid
  | 280 => rootCommitOid
  | 349 => nextCommitOid
  | 381 => rootManifestOid
  | 483 => swapOid
  | 487 => nextManifestOid
  | _ => zeroOid

/-- Input of fewer than 256 bytes goes into one raw block. -/
def smallZstd : Zstd where
  compress _ src :=
    .ok ([0x28, 0xb5, 0x2f, 0xfd, 0x20, UInt8.ofNat src.length, UInt8.ofNat (8 * src.length + 1), 0, 0] ++ src)
  decompress frame _ := .ok (frame.drop 9)

def smallLibs : Libs := ⟨⟨fun _ => .error "no text is read", fun j => ascii (printJson j)⟩, smallZstd, smallHash⟩

def smallConfig : RepoConfig := ⟨5, fun delta full => 1000000000 * full < delta⟩

def smallMeta : TensorMeta := { shapeOwner := "w", shape := [2], dtype := .u8, dataOff := 0, nbytes := 2 }

def smallSource (data : Bytes) : TensorSource where
  bufferLayout := [{ tensor := "w", off := 0, nbytes := 2, group := "w" }]
  tensorMeta name := if name = "w" then some smallMeta else none
  readUnits name first count out :=
    if name = "w" then .ok (count, filled (slice data first count) out)
    else sfsErr .objectNotFound "no such tensor" name

def smallTopology : Topology where
  groups := FinMap.empty.insert "g0" ⟨2, false⟩
  tensors := FinMap.empty.insert "w" [⟨0, "g0", 1⟩]

def noMatches : MatchReport := ⟨.empty⟩

def swapped : MatchReport := ⟨FinMap.empty.insert "g0" ⟨[1, 0], false, true, 0, 0⟩⟩

def smallOptions : EncodeOptions :=
  { residual := .raw, transform := .none, codec := .zstd, compress := ⟨3, false⟩, frameBytes := 131072,
    verifyRoundTrip := true }

def smallManifest (groups : FinMap String GroupEntry) : Manifest :=
  { formatVersion := 1, hashAlgo := "blake3"
    file := { name := "m", headerBlock := smallHeaderOid, totalBytes := 12, sha256 := "" }
    buffer := [{ tensor := "w", off := 10, nbytes := 2, group := "w" }]
    groups }

def rootRecord : Recorded where
  manifest := smallManifest (FinMap.empty.insert "w" (fullEntry fiveSevenOid))
  commit :=
    { formatVersion := 1, parents := [], manifest := rootManifestOid, topology := smallTopologyOid
      timestamp := "2024-01-01T00:00:00Z", author := "a", message := "one" }
  parents_le := by decide

def nextRecord : Recorded where
  manifest := smallManifest (FinMap.empty.insert "w" (deltaEntry ⟨rootCommitOid, 0⟩ "w" swapOid))
  commit :=
    { formatVersion := 1, parents := [rootCommitOid], manifest := nextManifestOid, topology := smallTopologyOid
      timestamp := "2024-01-02T00:00:00Z", author := "a", message := "two" }
  parents_le := by decide

def rootPlan : Outcome PlanOutput :=
  planCommitGroups smallLibs (smallSource []) (smallSource [5, 7]) smallTopology noMatches .empty smallConfig smallOptions

def nextPlan : Outcome PlanOutput :=
  planCommitGroups smallLibs (smallSource [5, 7]) (smallSource [7, 6]) smallTopology swapped
    (FinMap.empty.insert "w" ⟨rootCommitOid, 0⟩) smallConfig smallOptions

theorem rootRecord_oid : rootRecord.oid smallLibs = rootCommitOid := by decide +kernel
theorem rootManifest_oid : rootRecord.manifest.oid smallLibs.json smallLibs.blake3 = rootManifestOid := by decide +kernel
theorem nextRecord_oid : nextRecord.oid smallLibs = nextCommitOid := by decide +kernel
theorem nextManifest_oid : nextRecord.manifest.oid smallLibs.json smallLibs.blake3 = nextManifestOid := by decide +kernel

/-- What the two plans leave in the manifests. -/
theorem plan_entries : (rootPlan.toOption.map fun o => o.entries.entries) = some rootRecord.manifest.groups.entries ∧
    (nextPlan.toOption.map fun o => o.entries.entries) = some nextRecord.manifest.groups.entries := by
  decide +kernel

theorem entries_of_plan {plan : Outcome PlanOutput} {groups : FinMap String GroupEntry}
    (h : (plan.toOption.map fun o => o.entries.entries) = some groups.entries) :
    ∃ o, plan = .ok o ∧ groups = o.entries := by
  cases plan with
  | error e => cases h
  | ok o => exact ⟨o, rfl, FinMap.eq_of_entries (Option.some.inj h).symm⟩

theorem rootRecord_clear : Clear smallLibs .empty rootRecord where
  manifest := fun _ h => by
    rw [FinMap.get?_empty] at h
    cases h
  commit := fun _ h => by
    rw [FinMap.get?_empty] at h
    cases h
  apart := by
    rw [rootRecord_oid, rootManifest_oid]
    decide

theorem nextRecord_clear : Clear smallLibs (record smallLibs .empty rootRecord) nextRecord := by
  have hfresh : ∀ o, o ≠ rootCommitOid → o ≠ rootManifestOid → (record smallLibs .empty rootRecord).get? o = none := by
    intro o hc hm
    cases h : (record smallLibs .empty rootRecord).get? o with
    | none => rfl
    | some obj =>
      rcases putObject_cases h with h | ⟨he, -⟩
      · rcases putObject_cases h with h | ⟨he, -⟩
        · rw [FinMap.get?_empty] at h
          cases h
        · exact absurd (he.trans rootManifest_oid) hm
      · exact absurd (he.trans rootRecord_oid) hc
  refine ⟨fun _ h => ?_, fun _ h => ?_, ?_⟩
  · rw [nextManifest_oid, hfresh _ (by decide) (by decide)] at h
    cases h
  · rw [nextRecord_oid, hfresh _ (by decide) (by decide)] at h
    cases h
  · rw [nextRecord_oid, nextManifest_oid]
    decide

def smallObjects : ObjectMap := record smallLibs (record smallLibs .empty rootRecord) nextRecord

/-- A history of a root commit and a commit on top of it. -/
theorem small_built : Built smallLibs smallConfig smallObjects := by
  obtain ⟨o, hplan, hgroups⟩ := entries_of_plan plan_entries.1
  obtain ⟨o', hplan', hgroups'⟩ := entries_of_plan plan_entries.2
  have hroot : Built smallLibs smallConfig (record smallLibs .empty rootRecord) :=
    .commit (.empty : Built smallLibs smallConfig .empty) (rfl : parentInfo .empty none = .ok .empty) hplan hgroups rfl
      rootManifest_oid.symm rootRecord_clear
  obtain ⟨-, hfor⟩ := record_reads rootRecord_clear rootManifest_oid.symm
  rw [rootRecord_oid] at hfor
  have hinfo : parentInfo (record smallLibs .empty rootRecord) (some rootCommitOid) =
      .ok (FinMap.empty.insert "w" ⟨rootCommitOid, 0⟩) := bind_eq_ok.mpr ⟨_, hfor, rfl⟩
  exact .commit hroot hinfo hplan' hgroups' rfl nextManifest_oid.symm nextRecord_clear

theorem chains_of_built_small :
    (nextRecord.manifest.findGroup "w").map GroupEntry.mode = some .delta ∧
      checkAncestorInvariant smallObjects.commits (nextRecord.oid smallLibs) nextRecord.manifest.groups.entries = .ok () := by
  obtain ⟨hread, hfor⟩ := record_reads nextRecord_clear nextManifest_oid.symm
  obtain ⟨c, hc, hm⟩ := bind_eq_ok.mp hfor
  cases hread.symm.trans hc
  exact ⟨by decide, (chains_of_built small_built hread hm).2.1⟩

end SynapseFs.Store
