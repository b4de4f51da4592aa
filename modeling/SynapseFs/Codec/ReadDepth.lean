import SynapseFs.Codec.Reconstruct

/-! Where a read can report a chain that is too deep, and where its budget can run out.

Every step of a read fails in other ways, so the report can only come from the
depth check of a Delta group, here or at a base, and only the recursion along the
bases uses up a budget. -/
namespace SynapseFs.Codec
open Lib Core Format

def TooDeep : Failure → Prop
  | .error e => e.kind = .chainTooDeep
  | _ => False

theorem never_sfsErr {α : Type} {kind : ErrKind} (what context : String) (h : kind ≠ .chainTooDeep) :
    Never TooDeep (sfsErr kind what context : Outcome α) := never_error h

theorem never_exception {α : Type} (what : String) : Never TooDeep (.error (.exception what) : Outcome α) := never_error id

theorem never_undefined {α : Type} (what : String) : Never TooDeep (.error (.undefined what) : Outcome α) := never_error id

/-- Failures that no step of a read but the depth check and the budget gives. -/
structure Foreign (bad : Failure → Prop) : Prop where
  error : ∀ e : Error, e.kind ≠ .chainTooDeep → ¬bad (.error e)
  thrown : ∀ what, ¬bad (.exception what)
  ill : ∀ what, ¬bad (.undefined what)

namespace Foreign
variable {α : Type} {bad : Failure → Prop} (hbad : Foreign bad)
include hbad

theorem sfsErr {kind : ErrKind} (what context : String) (h : kind ≠ .chainTooDeep) :
    Never bad (Core.sfsErr kind what context : Outcome α) := never_error (hbad.error _ h)

theorem exception (what : String) : Never bad (.error (.exception what) : Outcome α) := never_error (hbad.thrown what)

theorem undefined (what : String) : Never bad (.error (.undefined what) : Outcome α) := never_error (hbad.ill what)

end Foreign

theorem foreign_tooDeep : Foreign TooDeep := ⟨fun _ h => h, fun _ => id, fun _ => id⟩

theorem foreign_fuel : Foreign (· = .outOfFuel) := ⟨fun _ _ => nofun, fun _ => nofun, fun _ => nofun⟩

/-- A block store that never fails in such a way. -/
def BlocksNever (bad : Failure → Prop) (blocks : BlockReads) : Prop :=
  (∀ oid kind, Never bad (blocks.get oid kind)) ∧
    ∀ oid kind off out, Never bad (blocks.readRange oid kind off out)

section
variable {bad : Failure → Prop} (hbad : Foreign bad)
include hbad

/-! ### Headers -/

theorem never_atKey (j : Json) (key : String) : Never bad (j.atKey key) := by
  unfold Json.atKey
  split
  · split
    · exact never_ok _
    · exact hbad.exception _
  · exact hbad.exception _

theorem never_getStr (j : Json) : Never bad j.getStr := by
  cases j
  case str => exact never_ok _
  all_goals exact hbad.exception _

theorem never_getArithmetic (width : Nat) (j : Json) : Never bad (j.getArithmetic width) := by
  unfold Json.getArithmetic
  split
  · exact never_ok _
  · exact never_ok _
  · split
    · split
      · exact never_ok _
      · exact hbad.undefined _
    · exact hbad.undefined _
  · exact hbad.exception _

theorem never_getU32 (j : Json) : Never bad j.getU32 := by
  unfold Json.getU32
  split
  · exact never_ok _
  · exact never_getArithmetic hbad 32 _

theorem never_getF64 (j : Json) : Never bad j.getF64 := by
  unfold Json.getF64
  split
  · exact never_ok _
  · exact never_ok _
  · exact never_ok _
  · exact hbad.exception _

theorem never_getBool (j : Json) : Never bad j.getBool := by
  cases j
  case bool => exact never_ok _
  all_goals exact hbad.exception _

theorem never_valueOr {α : Type} (j : Json) (key : String) {get : Json → Outcome α} (dflt : α)
    (hg : ∀ v, Never bad (get v)) : Never bad (j.valueOr key get dflt) := by
  unfold Json.valueOr
  split
  · split
    · exact hg _
    · exact never_ok _
  · exact hbad.exception _

theorem never_permutationRef (j : Json) : Never bad (DiffHeader.permutationRefFromJson j) := by
  unfold DiffHeader.permutationRefFromJson
  refine never_bind (never_atKey hbad _ _) fun _ _ => never_bind (never_getStr hbad _) fun kind _ => ?_
  split
  · exact never_ok _
  · split
    · exact hbad.sfsErr _ _ (by decide)
    · refine never_bind (never_atKey hbad _ _) fun _ _ => never_bind (never_getU32 hbad _) fun _ _ => ?_
      refine never_bind (never_atKey hbad _ _) fun _ _ => never_bind (never_getStr hbad _) fun dt _ => never_bind ?_ fun _ _ => ?_
      · unfold DiffHeader.widthFromString
        split
        · exact never_ok _
        · split
          · exact never_ok _
          · exact hbad.sfsErr _ _ (by decide)
      · refine never_bind (never_atKey hbad _ _) fun _ _ => never_bind (never_getArithmetic hbad 64 _) fun _ _ => ?_
        refine never_bind (never_atKey hbad _ _) fun _ _ => never_bind (never_getArithmetic hbad 64 _) fun _ _ => never_ok _

theorem never_digest (s : String) : Never bad (hexDecodeDigest s) := by
  unfold hexDecodeDigest
  split
  · exact hbad.sfsErr _ _ (by decide)
  · split
    · split
      · exact never_ok _
      · exact hbad.sfsErr _ _ (by decide)
    · exact hbad.sfsErr _ _ (by decide)

theorem never_frame (tensor : String) (fj : Json) : Never bad (DiffHeader.frameFromJson tensor fj) := by
  unfold DiffHeader.frameFromJson
  refine never_bind (never_atKey hbad _ _) fun units _ => ?_
  split
  · refine never_bind (never_getArithmetic hbad 64 _) fun _ _ => never_bind (never_getArithmetic hbad 64 _) fun _ _ => ?_
    refine never_bind (never_atKey hbad _ _) fun _ _ => never_bind (never_getArithmetic hbad 64 _) fun _ _ => ?_
    refine never_bind (never_atKey hbad _ _) fun _ _ => never_bind (never_getArithmetic hbad 64 _) fun _ _ => ?_
    refine never_bind (never_atKey hbad _ _) fun _ _ => never_bind (never_getStr hbad _) fun _ _ => ?_
    exact never_bind (never_digest hbad _) fun _ _ => never_ok _
  · exact hbad.sfsErr _ _ (by decide)

theorem never_names : (∀ s, Never bad (DType.fromString s)) ∧ (∀ s, Never bad (ResidualKind.fromString s)) ∧
    (∀ s, Never bad (Transform.fromString s)) ∧ ∀ s, Never bad (Format.Codec.fromString s) := by
  refine ⟨fun s => ?_, fun s => ?_, fun s => ?_, fun s => ?_⟩
  · unfold DType.fromString
    split
    · exact never_ok _
    · exact hbad.sfsErr _ _ (by decide)
  · unfold ResidualKind.fromString
    split
    · exact never_ok _
    · split
      · exact never_ok _
      · split
        · exact never_ok _
        · exact hbad.sfsErr _ _ (by decide)
  · unfold Transform.fromString
    split
    · exact never_ok _
    · split
      · exact never_ok _
      · split
        · exact never_ok _
        · exact hbad.sfsErr _ _ (by decide)
  · unfold Format.Codec.fromString
    split
    · exact never_ok _
    · split
      · exact never_ok _
      · exact hbad.sfsErr _ _ (by decide)

theorem never_tensor (tj : Json) : Never bad (DiffHeader.tensorFromJson tj) := by
  unfold DiffHeader.tensorFromJson
  refine never_bind (never_atKey hbad _ _) fun _ _ => never_bind (never_getStr hbad _) fun name _ => ?_
  refine never_bind (never_atKey hbad _ _) fun _ _ =>
    never_bind (never_mapM _ fun d _ => never_getArithmetic hbad 64 d) fun _ _ => ?_
  refine never_bind (never_atKey hbad _ _) fun _ _ => never_bind (never_getStr hbad _) fun _ _ => ?_
  refine never_bind ((never_names hbad).1 _) fun _ _ => ?_
  refine never_bind (never_atKey hbad _ _) fun _ _ => never_bind (never_getStr hbad _) fun _ _ => ?_
  refine never_bind ((never_names hbad).2.1 _) fun _ _ => ?_
  refine never_bind (never_atKey hbad _ _) fun _ _ => never_bind (never_getStr hbad _) fun _ _ => ?_
  refine never_bind ((never_names hbad).2.2.1 _) fun _ _ => ?_
  exact never_bind (never_atKey hbad _ _) fun _ _ => never_bind (never_mapM _ fun f _ => never_frame hbad _ f) fun _ _ => never_ok _

theorem never_alignment (j : Json) : Never bad (DiffHeader.alignmentFromJson j) := by
  unfold DiffHeader.alignmentFromJson
  split
  · refine never_bind (never_atKey hbad _ _) fun aj _ => never_bind (never_valueOr hbad _ _ _ (never_getStr hbad)) fun _ _ => ?_
    refine never_bind (never_valueOr hbad _ _ _ (never_getF64 hbad)) fun _ _ => ?_
    exact never_bind (never_valueOr hbad _ _ _ (never_getF64 hbad)) fun _ _ => never_ok _
  · exact never_ok _

theorem never_header (j : Json) : Never bad (DiffHeader.fromJson j) := by
  unfold DiffHeader.fromJson
  refine never_bind (never_valueOr hbad _ _ _ (never_getStr hbad)) fun magic _ => ?_
  split
  · exact hbad.sfsErr _ _ (by decide)
  · refine never_bind (never_atKey hbad _ _) fun _ _ => never_bind (never_getU32 hbad _) fun _ _ => ?_
    refine never_bind (never_atKey hbad _ _) fun _ _ => never_bind (never_getStr hbad _) fun _ _ => ?_
    refine never_bind (never_atKey hbad _ _) fun _ _ => never_bind (never_getStr hbad _) fun _ _ => ?_
    refine never_bind ((never_names hbad).2.2.2 _) fun _ _ => ?_
    refine never_bind (never_atKey hbad _ _) fun _ _ => never_bind (never_permutationRef hbad _) fun _ _ => ?_
    refine never_bind (never_atKey hbad _ _) fun _ _ => never_bind (never_mapM _ fun t _ => never_tensor hbad t) fun _ _ => ?_
    refine never_bind (never_valueOr hbad _ _ _ (never_getBool hbad)) fun _ _ => ?_
    exact never_bind (never_alignment hbad _) fun _ _ => never_ok _

theorem never_artifact (json : JsonLib) (bytes : Bytes) : Never bad (parseDiffArtifact json bytes) := by
  unfold parseDiffArtifact
  split
  · exact hbad.sfsErr _ _ (by decide)
  · dsimp only
    split
    · exact hbad.sfsErr _ _ (by decide)
    · split
      · exact hbad.undefined _
      · refine never_bind ?_ fun _ _ => never_ok _
        unfold DiffHeader.parse
        split
        · exact hbad.sfsErr _ _ (by decide)
        · exact never_header hbad _
        · exact hbad.sfsErr _ _ (by decide)

theorem never_readPermutation (ref : PermutationRef) (payload : Bytes) :
    Never bad (readPermutation ref payload) := by
  unfold readPermutation
  split
  · exact never_ok _
  · split
    · exact hbad.sfsErr _ _ (by decide)
    · split
      · exact hbad.sfsErr _ _ (by decide)
      · refine never_bind (never_mapM _ fun i _ => ?_) fun out _ => ?_
        · unfold loadIndex
          generalize (if ref.width = 2 then 2 else 4) = width
          dsimp only
          split
          · exact hbad.undefined _
          · exact never_ok _
        · split
          · exact never_ok _
          · exact hbad.sfsErr _ _ (by decide)

/-! ### Frames -/

section
variable {libs : Libs} {readBase : BaseRead}

theorem never_zeroVector (n : Nat) : Never bad (zeroVector n) := by
  unfold zeroVector
  split
  · exact hbad.exception _
  · exact never_ok _

theorem never_readFull (hr : ∀ off out, Never bad (readBase off out)) (name : String) (off len : Nat) :
    Never bad (readFull readBase name off len) := by
  refine never_bind (never_zeroVector hbad _) fun buf _ => never_bind (hr _ _) fun r _ => ?_
  obtain ⟨n, bytes⟩ := r
  dsimp only
  split
  · exact hbad.sfsErr _ _ (by decide)
  · exact never_ok _

theorem never_gather {read : UnitRun → Outcome Bytes} (hr : ∀ run, Never bad (read run)) (fn name : String)
    (perm : List Nat) (first count unitBytes : Nat) : Never bad (gather fn name read perm first count unitBytes) := by
  have hruns : ∀ (runs : List UnitRun) (s : Scratch), Never bad (readRuns read unitBytes s runs) := by
    intro runs
    induction runs with
    | nil => exact fun s => never_ok _
    | cons run rest ih => exact fun s => never_bind (hr run) fun _ _ => ih _
  refine never_bind ?_ fun runs _ => never_bind (hruns _ _) fun s _ =>
    never_bind (never_mapM _ fun p _ => ?_) fun _ _ => never_ok _
  · unfold dependencyRuns
    split
    · exact hbad.undefined _
    · exact never_ok _
  · unfold copyUnit
    split
    · exact never_ok _
    · exact hbad.sfsErr _ _ (by decide)

theorem never_gatherBaseBytes (hr : ∀ off out, Never bad (readBase off out)) (name : String) (expanded : List Nat)
    (first last unitBytes : Nat) : Never bad (gatherBaseBytes readBase name expanded first last unitBytes) := by
  unfold gatherBaseBytes
  dsimp only
  split
  · exact never_readFull hbad hr _ _ _
  · exact never_bind (never_zeroVector hbad _) fun _ _ => never_gather hbad (fun run => never_readFull hbad hr _ _ _) _ _ _ _ _ _

theorem never_baseFrame (hr : ∀ off out, Never bad (readBase off out)) (name : String) (expanded : List Nat)
    (secondary : SecondaryAxis) (first last unitBytes : Nat) :
    Never bad (baseFrame readBase name expanded secondary first last unitBytes) := by
  refine never_bind (never_gatherBaseBytes hbad hr _ _ _ _ _) fun base _ => ?_
  split
  · exact never_ok _
  · refine never_bind (never_zeroVector hbad _) fun _ _ => never_bind (never_mapM _ fun r _ => ?_) fun _ _ => never_ok _
    unfold permuteUnits
    split
    · exact never_ok _
    · exact hbad.undefined _

theorem never_applyResidual (kind : ResidualKind) (transform : Transform) (dtype : DType) (base residual out : Bytes) :
    Never bad (applyResidual kind transform dtype base residual out) := by
  unfold applyResidual
  split
  · exact hbad.sfsErr _ _ (by decide)
  · split
    · exact hbad.sfsErr _ _ (by decide)
    · dsimp only
      split
      · exact never_ok _
      · split
        · exact hbad.sfsErr _ _ (by decide)
        · exact never_ok _
      · split
        · exact hbad.sfsErr _ _ (by decide)
        · split
          · exact hbad.sfsErr _ _ (by decide)
          · exact never_ok _

theorem never_decodeFrame (hr : ∀ off out, Never bad (readBase off out)) (name : String) (expanded : List Nat)
    (secondary : SecondaryAxis) (unitBytes : Nat) (payload : Bytes) (tdiff : TensorDiff) (frame : FrameIndexEntry) :
    Never bad (decodeFrame libs readBase name expanded secondary unitBytes payload tdiff frame) := by
  unfold decodeFrame
  split
  · exact hbad.sfsErr _ _ (by decide)
  · refine never_bind (never_baseFrame hbad hr _ _ _ _ _ _) fun base _ => never_bind (never_zeroVector hbad _) fun buf _ => ?_
    split
    · exact hbad.undefined _
    · refine never_bind ?_ fun r _ => ?_
      · unfold decompressFrame
        split
        · exact never_ok _
        · exact hbad.sfsErr _ _ (by decide)
      · obtain ⟨dn, decompressed⟩ := r
        dsimp only
        split
        · exact hbad.sfsErr _ _ (by decide)
        · refine never_bind (never_applyResidual hbad _ _ _ _ _ _) fun reconstructed _ => ?_
          split
          · exact hbad.sfsErr _ _ (by decide)
          · exact never_ok _

theorem never_readFrame {decode : FrameIndexEntry → Outcome Bytes} (hd : ∀ f, Never bad (decode f))
    (unitBytes off wantEnd : Nat) (s : Nat × Bytes) (frame : FrameIndexEntry) :
    Never bad (readFrame decode unitBytes off wantEnd s frame) := by
  unfold readFrame
  dsimp only
  split
  · exact never_ok _
  · refine never_bind (hd frame) fun _ _ => ?_
    split
    · exact hbad.undefined _
    · exact never_ok _

/-! ### Groups -/

theorem never_expandReserved (perm : List Nat) (block : Nat) : Never bad (expandReserved perm block) := by
  unfold expandReserved
  split
  · exact hbad.exception _
  · exact never_ok _

theorem never_secondary {blocks : BlockReads} (hb : BlocksNever bad blocks) (ctx : ReadCtx) (tdiff : TensorDiff) :
    Never bad (resolveSecondaryPermutation libs blocks ctx tdiff) := by
  have howner : ∀ manifest owner, Never bad (ownerPermutation libs blocks manifest owner) := by
    intro manifest owner
    unfold ownerPermutation
    split
    · exact hbad.sfsErr _ _ (by decide)
    · split
      · exact never_ok _
      · exact hbad.sfsErr _ _ (by decide)
      · refine never_bind (hb.1 _ _) fun _ _ => never_bind (never_artifact hbad _ _) fun _ _ => ?_
        exact never_readPermutation hbad _ _
  unfold resolveSecondaryPermutation
  split
  · exact never_ok _
  · split
    · exact never_ok _
    · split
      · exact never_ok _
      · split
        · exact hbad.sfsErr _ _ (by decide)
        · split
          · exact hbad.sfsErr _ _ (by decide)
          · refine never_bind (howner _ _) fun perm _ => ?_
            split
            · exact never_ok _
            · exact never_bind (never_expandReserved hbad _ _) fun _ _ => never_ok _

theorem never_readTensorRange {blocks : BlockReads} (hb : BlocksNever bad blocks)
    (hr : ∀ off out, Never bad (readBase off out)) (ctx : ReadCtx) (header : DiffHeader) (payload : Bytes)
    (tdiff : TensorDiff) (baseName : String) (off : Nat) (out : Bytes) :
    Never bad (readTensorRange libs blocks ctx readBase header payload tdiff baseName off out) := by
  unfold readTensorRange
  split
  · exact hbad.sfsErr _ _ (by decide)
  · dsimp only
    split
    · exact hbad.sfsErr _ _ (by decide)
    · refine never_bind ?_ fun expanded _ => never_bind (never_secondary hbad hb _ _) fun secondary _ => ?_
      · unfold expandedFor
        split
        · exact never_ok _
        · refine never_bind (never_readPermutation hbad _ _) fun _ _ => ?_
          split
          · exact hbad.sfsErr _ _ (by decide)
          · exact never_expandReserved hbad _ _
      · split
        · exact hbad.sfsErr _ _ (by decide)
        · exact never_foldlM _ _ fun s f _ => never_readFrame hbad (fun f => never_decodeFrame hbad hr _ _ _ _ _ _ f) _ _ _ _ _

/-- A Delta group fails so only at its depth check or at its base. -/
theorem never_readDeltaRange {blocks : BlockReads} (hb : BlocksNever bad blocks) {ctx : ReadCtx} {group : GroupEntry}
    (hh : ∀ history, ctx.history = some history → ∀ o, Never bad (history o)) {name : String}
    (hdepth : ctx.maxDepth < group.chainDepth →
      ¬bad (.error ⟨.chainTooDeep, "chain depth exceeds max_depth", name⟩)) {readAt : ReadCtx → String → BaseRead}
    (hr : ∀ history base m, ctx.history = some history → group.base = some base → group.diffBlock.isSome →
      group.chainDepth ≤ ctx.maxDepth → history base.commit = .ok m →
        ∀ off out, Never bad (readAt { ctx with manifest := some m } base.group off out)) (off : Nat) (out : Bytes) :
    Never bad (readDeltaRange libs blocks ctx readAt group name off out) := by
  unfold readDeltaRange
  split
  · next base diffBlock hbase hdiff =>
    split
    · next hdeep => exact never_error (hdepth hdeep)
    · next hle =>
      split
      · exact hbad.sfsErr _ _ (by decide)
      · next history hhist =>
        refine never_bind (hb.1 _ _) fun _ _ => never_bind (never_artifact hbad _ _) fun artifact _ => ?_
        split
        · exact hbad.sfsErr _ _ (by decide)
        · refine never_bind (hh history hhist _) fun m hm => ?_
          have hsome : group.diffBlock.isSome := by rw [hdiff]; rfl
          exact never_readTensorRange hbad hb (hr history base m hhist hbase hsome (not_lt.mp hle) hm) _ _ _ _ _ _ _
  · exact hbad.sfsErr _ _ (by decide)

end

end

/-! ### Depth -/

/-- A block store has no notion of depth. -/
def BlocksShallow (blocks : BlockReads) : Prop :=
  (∀ oid kind, Never TooDeep (blocks.get oid kind)) ∧
    ∀ oid kind off out, Never TooDeep (blocks.readRange oid kind off out)

/-- Every group a read can come to is within the bound. -/
def DepthsWithin (ctx : ReadCtx) : Prop :=
  ∀ m, (ctx.manifest = some m ∨ ∃ history o, ctx.history = some history ∧ history o = .ok m) →
    ∀ name e, m.findGroup name = some e → e.chainDepth ≤ ctx.maxDepth

/-- The rule: shallow stores and depths within the bound, so no read is too deep. -/
theorem readRange_never_tooDeep {libs : Libs} {ctx : ReadCtx} {blocks : BlockReads} (hblocks : ctx.blocks = some blocks)
    (hb : BlocksShallow blocks) (hh : ∀ history, ctx.history = some history → ∀ o, Never TooDeep (history o))
    (hd : DepthsWithin ctx) (fuel : Nat) : ∀ name off out, Never TooDeep (readRange libs fuel ctx name off out) := by
  induction fuel generalizing ctx with
  | zero => exact fun name off out => never_error id
  | succ fuel ih =>
    intro name off out
    unfold readRange
    rw [hblocks]
    split
    · next b m hbs hm =>
      cases hbs
      split
      · exact never_sfsErr _ _ (by decide)
      · next group hg =>
        split
        · refine never_readDeltaRange foreign_tooDeep hb hh (fun hdeep => ?_) (fun history base m' hhist _ _ _ hm' off out => ?_)
            off out
          · exact absurd (hd m (.inl hm) name group hg) (not_le.mpr hdeep)
          · refine @ih { ctx with manifest := some m' } hblocks hh (fun m'' hm'' => hd m'' (.inr ?_)) base.group off out
            rcases hm'' with hm'' | hm''
            · cases hm''
              exact ⟨history, _, hhist, hm'⟩
            · exact hm''
        · split
          · exact never_sfsErr _ _ (by decide)
          · exact hb.2 _ _ _ _
    · exact never_sfsErr _ _ (by decide)

end SynapseFs.Codec
