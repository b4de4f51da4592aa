import SynapseFs.Codec.DiffGuards
import SynapseFs.Codec.ReadDepth

/-! How deep a read goes.

A read of a Delta group goes on at the group's base. The depth check looks at the
number the manifest stores and not at how deep the read already is, so what bounds
the recursion is the chain of groups the check lets through (`hop`, `hops`). A read
nests at most `max_depth` hops exactly when that chain ends by then (`bounded_iff`);
where it does not, there are objects on which the read goes on to the end of any
budget. -/
namespace SynapseFs.Codec
open Lib Core Format

/-! ### Hops -/

/-- A group of a commit. -/
abbrev Place := Manifest × String

section
variable (history : Oid → Outcome Manifest) (maxDepth : Nat)

/-- Where a read of a Delta group goes on, if its entry passes every check and its base commit is known. -/
def hop (s : Place) : Option Place :=
  match s.1.findGroup s.2 with
  | none => none
  | some e =>
    match e.mode, e.base, e.diffBlock with
    | .delta, some base, some _ =>
      if maxDepth < e.chainDepth then none
      else
        match history base.commit with
        | .ok m => some (m, base.group)
        | .error _ => none
    | _, _, _ => none

/-- The group `n` hops further. -/
def hops : Nat → Place → Option Place
  | 0, s => some s
  | n + 1, s => (hop history maxDepth s).bind (hops n)

/-- The names of the groups left behind on the way. -/
def trail : Nat → Place → List String
  | 0, _ => []
  | n + 1, s =>
    match hop history maxDepth s with
    | none => []
    | some s' => s.2 :: trail n s'

end

section
variable {history : Oid → Outcome Manifest} {maxDepth : Nat}

theorem hop_eq_some {s s' : Place} : hop history maxDepth s = some s' ↔
    ∃ e base diffBlock, s.1.findGroup s.2 = some e ∧ e.mode = .delta ∧ e.base = some base ∧ e.diffBlock = some diffBlock ∧
      e.chainDepth ≤ maxDepth ∧ history base.commit = .ok s'.1 ∧ s'.2 = base.group := by
  unfold hop
  constructor
  · intro h
    split at h
    · cases h
    · next e he =>
      split at h
      · next base diffBlock hmode hbase hdiff =>
        split at h
        · cases h
        · next hle =>
          split at h
          · next m hm =>
            cases h
            exact ⟨e, base, diffBlock, he, hmode, hbase, hdiff, not_lt.mp hle, hm, rfl⟩
          · cases h
      · cases h
  · rintro ⟨e, base, diffBlock, he, hmode, hbase, hdiff, hle, hm, hname⟩
    rw [he]
    dsimp only
    rw [hmode, hbase, hdiff]
    dsimp only
    rw [if_neg (not_lt.mpr hle), hm, ← hname]

theorem hops_succ_right (n : Nat) : ∀ s, hops history maxDepth (n + 1) s =
    (hops history maxDepth n s).bind (hop history maxDepth) := by
  induction n with
  | zero =>
    intro s
    show (hop history maxDepth s).bind some = (some s).bind (hop history maxDepth)
    rw [Option.bind_fun_some]
    rfl
  | succ n ih =>
    intro s
    calc (hop history maxDepth s).bind (hops history maxDepth (n + 1))
        = (hop history maxDepth s).bind fun t => (hops history maxDepth n t).bind (hop history maxDepth) :=
          congrArg _ (funext ih)
      _ = ((hop history maxDepth s).bind (hops history maxDepth n)).bind (hop history maxDepth) :=
          (Option.bind_assoc _ _ _).symm

end

/-! ### The budget -/

section
variable {libs : Libs} {history : Oid → Outcome Manifest} {maxDepth : Nat}

/-- The context of a read of group `s` over the map `history`. -/
def placeCtx (blocks : BlockReads) (history : Oid → Outcome Manifest) (maxDepth : Nat) (topology : Option Topology)
    (m : Manifest) : ReadCtx :=
  ⟨some blocks, some m, some history, maxDepth, topology⟩

/-- A budget of more calls than the chain has hops is enough. -/
theorem readRange_fuel {blocks : BlockReads} (hb : BlocksNever (· = .outOfFuel) blocks)
    (hh : ∀ o, Never (· = .outOfFuel) (history o)) (topology : Option Topology) (fuel : Nat) : ∀ (s : Place),
    hops history maxDepth fuel s = none → ∀ off out,
      Never (· = .outOfFuel) (readRange libs fuel (placeCtx blocks history maxDepth topology s.1) s.2 off out) := by
  induction fuel with
  | zero =>
    intro s h
    cases h
  | succ fuel ih =>
    intro s h off out
    unfold readRange placeCtx
    dsimp only
    split
    · exact foreign_fuel.sfsErr _ _ (by decide)
    · next e he =>
      split
      · next hmode =>
        refine never_readDeltaRange foreign_fuel hb (fun history' hhist o => ?_) (fun _ h => by cases h)
          (fun history' base m hhist hbase hdiff hle hm off out => ?_) off out
        · cases hhist
          exact hh o
        · cases hhist
          obtain ⟨diffBlock, hdiff⟩ := Option.isSome_iff_exists.mp hdiff
          have hnext : hop history maxDepth s = some (m, base.group) :=
            hop_eq_some.mpr ⟨e, base, diffBlock, he, hmode, hbase, hdiff, hle, hm, rfl⟩
          rw [hops, hnext] at h
          exact ih (m, base.group) h off out
      · split
        · exact foreign_fuel.sfsErr _ _ (by decide)
        · exact hb.2 _ _ _ _

/-- At a group that passes no check the depth is reported, however many calls are left. -/
theorem readRange_tooDeep (blocks : BlockReads) (topology : Option Topology) {s : Place} {e : GroupEntry} {base : DeltaBase}
    {diffBlock : Oid} {m : Manifest} (he : s.1.findGroup s.2 = some e) (hmode : e.mode = .delta)
    (hbase : e.base = some base) (hdiff : e.diffBlock = some diffBlock) (hm : history base.commit = .ok m)
    (hend : hop history maxDepth s = none) (fuel off : Nat) (out : Bytes) :
    readRange libs (fuel + 1) (placeCtx blocks history maxDepth topology s.1) s.2 off out =
      sfsErr .chainTooDeep "chain depth exceeds max_depth" s.2 := by
  have hdeep : maxDepth < e.chainDepth := by
    by_contra hle
    have hnext : hop history maxDepth s = some (m, base.group) :=
      hop_eq_some.mpr ⟨e, base, diffBlock, he, hmode, hbase, hdiff, not_lt.mp hle, hm, rfl⟩
    cases hend.symm.trans hnext
  unfold readRange placeCtx
  dsimp only
  rw [he]
  dsimp only
  rw [hmode]
  dsimp only
  unfold readDeltaRange
  rw [hbase, hdiff]
  exact if_pos hdeep

/-! ### Objects on which a read goes all the way -/

def noDigest : Oid := .fill 0

/-- One byte in one frame. -/
def byteDiff (name : String) : TensorDiff where
  shapeName := name
  shape := [1]
  dtype := .u8
  residual := .raw
  transform := .none
  frames := [⟨0, 1, 0, 0, noDigest⟩]

/-- An artifact for each of the tensors, with no payload. -/
def trailHeader (names : List String) : DiffHeader where
  formatVersion := 1
  group := ""
  codec := .zstd
  permutation := PermutationRef.default
  tensors := names.map byteDiff
  alignable := true
  alignment := ⟨"", 0, 0⟩

/-- Every Diff object is `bytes`. -/
def trailBlocks (bytes : Bytes) : BlockReads where
  get _ _ := .ok bytes
  readRange _ _ _ _ := sfsErr .objectNotFound "object not found" ""

theorem trailBlocks_fuel (bytes : Bytes) : BlocksNever (· = .outOfFuel) (trailBlocks bytes) :=
  ⟨fun _ _ => never_ok _, fun _ _ _ _ => foreign_fuel.sfsErr _ _ (by decide)⟩

theorem find_trail {names : List String} {name : String} (h : name ∈ names) :
    (trailHeader names).tensors.find? (fun t => t.shapeName = name) = some (byteDiff name) := by
  obtain ⟨t, ht⟩ : ∃ t, (trailHeader names).tensors.find? (fun t => t.shapeName = name) = some t := by
    rw [← Option.isSome_iff_exists, List.find?_isSome]
    exact ⟨byteDiff name, List.mem_map_of_mem h, decide_eq_true rfl⟩
  obtain ⟨n, -, rfl⟩ := List.mem_map.mp (List.mem_of_find?_eq_some ht)
  have hfound := List.find?_some ht
  have hname : n = name := of_decide_eq_true hfound
  rw [ht, hname]

/-- The byte of such a tensor is read from the base first of all. -/
theorem readTensorRange_byte (blocks : BlockReads) {ctx : ReadCtx} (htop : ctx.topology = none) {readBase : BaseRead}
    {f : Failure} (hbase : readBase 0 [0] = .error f) (names : List String) (name baseName : String) :
    readTensorRange libs blocks ctx readBase (trailHeader names) [] (byteDiff name) baseName 0 [0] = .error f := by
  have hsecondary : resolveSecondaryPermutation libs blocks ctx (byteDiff name) = .ok ⟨[], 0⟩ := by
    unfold resolveSecondaryPermutation
    rw [htop]
  have hframe : decodeFrame libs readBase baseName [] ⟨[], 0⟩ 1 [] (byteDiff name) ⟨0, 1, 0, 0, noDigest⟩ = .error f := by
    show ((((readBase 0 [0]) >>= _) >>= _) >>= _) = Except.error f
    rw [hbase]
    rfl
  have hbytes : tensorBytes (byteDiff name).shape (byteDiff name).dtype = 1 := rfl
  have hlast : (byteDiff name).frames.getLast? = some ⟨0, 1, 0, 0, noDigest⟩ := rfl
  have hexpanded : expandedFor (trailHeader names) [] (byteDiff name).shapeName 1 = .ok [] := rfl
  unfold readTensorRange
  rw [hlast]
  dsimp only
  rw [hbytes, if_neg (by decide), hexpanded, hsecondary]
  show ((decodeFrame libs readBase baseName [] ⟨[], 0⟩ 1 [] (byteDiff name) ⟨0, 1, 0, 0, noDigest⟩ >>= _) >>= _) = Except.error f
  rw [hframe]
  rfl

/-- A chain as long as the budget uses it up. -/
theorem readRange_outOfFuel {bytes : Bytes} {names : List String}
    (hparse : parseDiffArtifact libs.json bytes = .ok ⟨trailHeader names, []⟩) (fuel : Nat) : ∀ (s : Place),
    (hops history maxDepth fuel s).isSome → (∀ name ∈ trail history maxDepth fuel s, name ∈ names) →
      readRange libs fuel (placeCtx (trailBlocks bytes) history maxDepth none s.1) s.2 0 [0] = .error .outOfFuel := by
  induction fuel with
  | zero => exact fun _ _ _ => rfl
  | succ fuel ih =>
    intro s h hnames
    rw [hops] at h
    rw [trail] at hnames
    obtain ⟨s', hnext⟩ : ∃ s', hop history maxDepth s = some s' := by
      cases hs : hop history maxDepth s with
      | none =>
        rw [hs] at h
        cases h
      | some s' => exact ⟨s', rfl⟩
    rw [hnext] at h hnames
    obtain ⟨hname, hnames⟩ := List.forall_mem_cons.mp hnames
    obtain ⟨e, base, diffBlock, he, hmode, hbase, hdiff, hle, hm, hgroup⟩ := hop_eq_some.mp hnext
    have hread := ih s' h hnames
    have hstep : readRange libs (fuel + 1) (placeCtx (trailBlocks bytes) history maxDepth none s.1) s.2 = _ :=
      readRange_delta rfl rfl rfl he hmode hbase hdiff hle rfl hparse (find_trail hname) hm
    rw [hstep, hgroup.symm]
    exact readTensorRange_byte (trailBlocks bytes) rfl hread names s.2 s'.2

end

/-! ### The bound -/

/-- **Bounded recursion** of a read of group `s`: whatever the objects are, it ends within `max_depth` Delta hops, and
where the bases go on after that many hops it reports that the chain is too deep. -/
structure Bounded (libs : Libs) (history : Oid → Outcome Manifest) (maxDepth : Nat) (s : Place) : Prop where
  ends : ∀ blocks topology, BlocksNever (· = .outOfFuel) blocks → ∀ off out,
    readRange libs (maxDepth + 1) (placeCtx blocks history maxDepth topology s.1) s.2 off out ≠ .error .outOfFuel
  reports : ∀ s' e base diffBlock m, hops history maxDepth maxDepth s = some s' → s'.1.findGroup s'.2 = some e →
    e.mode = .delta → e.base = some base → e.diffBlock = some diffBlock → history base.commit = .ok m →
      ∀ blocks topology fuel off out,
        readRange libs (fuel + 1) (placeCtx blocks history maxDepth topology s'.1) s'.2 off out =
          sfsErr .chainTooDeep "chain depth exceeds max_depth" s'.2

/-- The recursion is bounded exactly when the depth check stops the chain within `max_depth` hops. The artifact that
lists the groups of the chain only has to be one that can be written. -/
theorem bounded_iff {libs : Libs} {history : Oid → Outcome Manifest} (hh : ∀ o, history o ≠ .error .outOfFuel)
    (maxDepth : Nat) (s : Place) {bytes : Bytes}
    (hbytes : parseDiffArtifact libs.json bytes = .ok ⟨trailHeader (trail history maxDepth (maxDepth + 1) s), []⟩) :
    Bounded libs history maxDepth s ↔ hops history maxDepth (maxDepth + 1) s = none := by
  constructor
  · intro h
    by_contra hlong
    have hsome : (hops history maxDepth (maxDepth + 1) s).isSome := Option.isSome_iff_ne_none.mpr hlong
    exact h.ends (trailBlocks bytes) none (trailBlocks_fuel bytes) 0 [0]
      (readRange_outOfFuel hbytes (maxDepth + 1) s hsome fun _ hname => hname)
  · intro hend
    have hnever : ∀ o, Never (· = .outOfFuel) (history o) := fun o f hf hout => hh o (hout ▸ hf)
    refine ⟨fun blocks topology hb off out hout => ?_, fun s' e base diffBlock m hs' he hmode hbase hdiff hm => ?_⟩
    · exact readRange_fuel hb hnever topology (maxDepth + 1) s hend off out _ hout rfl
    · have hstop : hop history maxDepth s' = none := by
        rw [hops_succ_right, hs'] at hend
        exact hend
      exact fun blocks topology fuel off out => readRange_tooDeep blocks topology he hmode hbase hdiff hm hstop fuel off out

/-! ### Two maps of one tensor -/

/-- The text of the artifact of `w`. -/
def trailText : Bytes :=
  asciiOf ["\x7b\"alignable\":true,\"alignment\":\x7b\"cost_normalized\":0.0,\"cost_raw\":0.0,\"method\":\"\"\x7d,",
    "\"codec\":\"zstd\",\"format_version\":1,\"group\":\"\",\"magic\":\"SYNDIFF\",",
    "\"permutation\":\x7b\"kind\":\"identity\"\x7d,\"tensors\":[\x7b\"dtype\":\"U8\",\"frames\":[\x7b\"digest\":\"",
    "0000000000000000000000000000000000000000000000000000000000000000",
    "\",\"len\":0,\"off\":0,\"units\":[0,1]\x7d],\"name\":\"w\",\"residual\":\"raw\",",
    "\"shape\":[1],\"transform\":\"none\"\x7d]\x7d"]

/-- `w` as a Delta of `w` in another commit; the depth says what it likes. -/
def hopManifest (chainDepth : Nat) : Manifest :=
  pairManifest ⟨.delta, none, some ⟨pairOid 2, "w"⟩, some (pairOid 3), chainDepth⟩

/-- The text of the manifest with depth 0. -/
def hopText : Bytes :=
  asciiOf ["\x7b\"buffer\":[\x7b\"group\":\"w\",\"nbytes\":2,\"off\":64,\"tensor\":\"w\"\x7d],\"file\":\x7b\"header_block\":\"b3:",
    "0101010101010101010101010101010101010101010101010101010101010101",
    "\",\"name\":\"model.safetensors\",\"sha256\":\"\",\"total_bytes\":66\x7d,\"format_version\":1,",
    "\"groups\":\x7b\"w\":\x7b\"base\":\x7b\"commit\":\"b3:",
    "0202020202020202020202020202020202020202020202020202020202020202",
    "\",\"group\":\"w\"\x7d,\"chain_depth\":0,\"diff_block\":\"b3:",
    "0303030303030303030303030303030303030303030303030303030303030303",
    "\",\"mode\":\"delta\"\x7d\x7d,\"hash_algo\":\"blake3\"\x7d"]

/-- The libraries on the two texts, which differ in the first letter of the first key; nothing is decompressed or hashed. -/
def hopLibs : Libs where
  json := ⟨fun text => .ok (if text[2]? = some 98 then (hopManifest 0).toJson else (trailHeader ["w"]).toJson), fun _ => hopText⟩
  zstd := ⟨fun _ _ => .error "nothing is compressed", fun _ _ => .error "nothing is decompressed"⟩
  blake3 _ := noDigest

theorem letter_hop : hopText[2]? = some 98 := (congrArg (fun text : Bytes => text[2]?) (asciiOf_cons _ _)).trans rfl

theorem letter_trail : trailText[2]? = some 97 := (congrArg (fun text : Bytes => text[2]?) (asciiOf_cons _ _)).trans rfl

theorem length_trailText : trailText.length ≤ 255 * 6 := by
  iterate 6 refine length_asciiOf_le (by decide) ?_
  exact Nat.le_refl _

theorem parse_hop : Manifest.parse hopLibs.json hopText = .ok (hopManifest 0) := by
  have hjson : hopLibs.json.parse hopText = .ok (hopManifest 0).toJson := congrArg Except.ok (if_pos letter_hop)
  have hfields : Manifest.fromJson (hopManifest 0).toJson = .ok (hopManifest 0) := by
    rfl
  unfold Manifest.parse
  rw [hjson]
  dsimp only
  rw [hfields]
  refine bind_eq_ok.mpr ⟨_, rfl, bind_eq_ok.mpr ⟨(), rfl, if_neg (not_not.mpr rfl)⟩⟩

theorem parse_trail : parseDiffArtifact hopLibs.json (layOut trailText []) = .ok ⟨trailHeader ["w"], []⟩ := by
  have hlen := length_trailText
  have hne : trailText ≠ [] := asciiOf_ne_nil
  have hother : trailText[2]? ≠ some 98 := by
    rw [letter_trail]
    decide
  have hjson : hopLibs.json.parse trailText = .ok (trailHeader ["w"]).toJson := congrArg Except.ok (if_neg hother)
  have hfields : DiffHeader.fromJson (trailHeader ["w"]).toJson = .ok (trailHeader ["w"]) := rfl
  rw [layOut, parseDiffArtifact_text _ _ hne (by rw [List.length_nil]; omega)]
  refine bind_eq_ok.mpr ⟨_, ?_, rfl⟩
  unfold DiffHeader.parse
  rw [hjson]
  exact hfields

/-- A Delta of depth 1 over a Full group. -/
def shallowHistory : Oid → Outcome Manifest := fun _ => .ok (pairManifest ⟨.full, some (pairOid 4), none, none, 0⟩)

theorem bounded_shallow : hops shallowHistory 5 6 (hopManifest 1, "w") = none ∧
    Bounded hopLibs shallowHistory 5 (hopManifest 1, "w") := by
  have hend : hops shallowHistory 5 6 (hopManifest 1, "w") = none := rfl
  have hknown : ∀ o, shallowHistory o ≠ .error .outOfFuel := fun _ => nofun
  exact ⟨hend, (bounded_iff hknown 5 (hopManifest 1, "w") parse_trail).mpr hend⟩

/-- Every commit has the same manifest, whose group is a Delta of itself that says it has depth 0. -/
def loopHistory : Oid → Outcome Manifest := fun _ => .ok (hopManifest 0)

theorem hops_loop (n : Nat) : hops loopHistory 5 n (hopManifest 0, "w") = some (hopManifest 0, "w") := by
  induction n with
  | zero => rfl
  | succ n ih => exact ih

theorem trail_loop (n : Nat) : ∀ name ∈ trail loopHistory 5 n (hopManifest 0, "w"), name ∈ ["w"] := by
  induction n with
  | zero => exact nofun
  | succ n ih => exact List.forall_mem_cons.mpr ⟨List.mem_cons_self, ih⟩

/-- The manifest is accepted, the check is passed at every hop, and no budget is enough. -/
theorem loop_unbounded : Manifest.parse hopLibs.json hopText = .ok (hopManifest 0) ∧
    (∀ fuel, readRange hopLibs fuel (placeCtx (trailBlocks (layOut trailText [])) loopHistory 5 none (hopManifest 0)) "w" 0
      [0] = .error .outOfFuel) ∧ ¬Bounded hopLibs loopHistory 5 (hopManifest 0, "w") := by
  have hrun : ∀ fuel, readRange hopLibs fuel
      (placeCtx (trailBlocks (layOut trailText [])) loopHistory 5 none (hopManifest 0)) "w" 0 [0] = .error .outOfFuel :=
    fun fuel => readRange_outOfFuel parse_trail fuel (hopManifest 0, "w") (by rw [hops_loop]; rfl) (trail_loop fuel)
  exact ⟨parse_hop, hrun, fun h => h.ends _ none (trailBlocks_fuel _) 0 [0] (hrun 6)⟩

end SynapseFs.Codec
