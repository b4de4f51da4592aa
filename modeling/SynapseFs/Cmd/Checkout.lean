import SynapseFs.Codec.Reconstruct
import SynapseFs.Stio.StWriter
import SynapseFs.Store.Refs
import SynapseFs.Store.Verify

/-! `sfs checkout`.

The command resolves its revision, points HEAD at it, and only then reads the
commit and the manifest and restores the file. `checkout_unchanged` says when an
error leaves HEAD and the refs as they were: `Safe` names the ways that can be,
and for an output that does not lead into the refs (`Outside`) there is no other.

The file system may refuse the write of HEAD (`WriteAnswer`) and any call of the
file writer (`Stio.Answers`). The topology is loaded as far as it can be, and
never fails the command. -/
namespace SynapseFs.Cmd
open Lib Core Format Codec Store Stio

/-- How `atomic_write` ends: before its rename, after it but not synced, or in full. -/
inductive WriteAnswer where
  | refused | unsynced | stored
  deriving DecidableEq, Repr

/-- What the command runs in. -/
structure CheckoutEnv where
  libs : Libs
  fuel : Nat
  /-- The repository is found, its config loaded and its store opened: `max_chain_depth`. -/
  config : Outcome Nat
  headWrite : WriteAnswer
  answers : Answers
  /-- How much of each append the system takes. -/
  wrote : Nat → Nat
  cwd : Path
  loadCommitTopology : Commit → Manifest → Option Topology

def headLine : Head → String
  | .symbolic name => "ref: " ++ name
  | .detached oid => oid.toString

def setHead (r : RefStore) : Head → RefStore × Outcome Unit
  | .symbolic name => r.setHeadSymbolic name
  | .detached oid => r.setHeadDetached oid

/-- `set_head_*`, with the answer of the system. -/
def writeHead (answer : WriteAnswer) (r : RefStore) (head : Head) : RefStore × Outcome Unit :=
  match answer with
  | .stored => setHead r head
  | .unsynced => ((setHead r head).1, sfsErr .io "cannot write ref" (pathString r.headPath))
  | .refused => (r, sfsErr .io "cannot write ref" (pathString r.headPath))

/-- A branch by name, or else a revision to resolve; and what HEAD is to be. -/
def selectTarget (r : RefStore) (store : LooseStore) (revision : String) : Outcome (Oid × Head) :=
  if r.listHeads.any fun h => h.name = "refs/heads/" ++ revision ∨ h.name = revision then do
    let tip ← r.resolve store.listAll ("refs/heads/" ++ revision)
    return (tip, .symbolic ("refs/heads/" ++ revision))
  else do
    let target ← r.revParse store.listAll revision
    return (target, .detached target)

/-- The callback of `reconstruct_file`, with the number of the call. -/
def appendChunk (wrote : Nat → Nat) (s : StWriter × FileTree × Nat) (chunk : Bytes) :
    Outcome (StWriter × FileTree × Nat) :=
  match s.1.append chunk (wrote s.2.2) s.2.1 with
  | (w, tree, .ok ()) => .ok (w, tree, s.2.2 + 1)
  | (_, _, .error e) => .error e

def readCtx (env : CheckoutEnv) (maxDepth : Nat) (store : LooseStore) (c : Commit) (m : Manifest) : ReadCtx :=
  { blocks := some ⟨store.get env.libs.blake3, store.readRange env.libs.blake3⟩
    manifest := some m
    history := some (manifestFor (store.commits env.libs.json env.libs.blake3)
      (store.manifests env.libs.json env.libs.blake3))
    maxDepth
    topology := env.loadCommitTopology c m }

/-- The writer, from its creation to its destructor. When the reconstruction
fails the destructor takes away the temp file, whatever was appended to it. -/
def restoreFile (env : CheckoutEnv) (maxDepth : Nat) (tree : FileTree) (store : LooseStore) (c : Commit)
    (m : Manifest) (output : String) : FileTree × Outcome Unit :=
  match StWriter.create env.answers tree env.cwd output m ⟨true⟩ with
  | (tree, .error e) => (tree, .error e)
  | (tree, .ok w) =>
    match reconstructFile (appendChunk env.wrote) env.libs env.fuel (readCtx env maxDepth store c m) (w, tree, 0) with
    | .error e => (w.destroy tree, .error e)
    | .ok (w, tree, _) =>
      let (w, tree, st) := w.finish env.answers tree
      (w.destroy tree, st)

/-- What follows once HEAD has moved. -/
def restore (env : CheckoutEnv) (maxDepth : Nat) (r : RefStore) (store : LooseStore) (target : Oid)
    (output : String) : RefStore × Outcome Unit :=
  match (store.commits env.libs.json env.libs.blake3).read target with
  | .error e => (r, .error e)
  | .ok c =>
    match (store.manifests env.libs.json env.libs.blake3).read c.manifest with
    | .error e => (r, .error e)
    | .ok m =>
      if output = "" then (r, .ok ())
      else
        let (tree, st) := restoreFile env maxDepth r.tree store c m output
        ({ r with tree }, st)

def runCheckout (env : CheckoutEnv) (r : RefStore) (store : LooseStore) (revision output : String) :
    RefStore × Outcome Unit :=
  match env.config with
  | .error e => (r, .error e)
  | .ok maxDepth =>
    match selectTarget r store revision with
    | .error e => (r, .error e)
    | .ok (target, head) =>
      match writeHead env.headWrite r head with
      | (r, .error e) => (r, .error e)
      | (r, .ok ()) => restore env maxDepth r store target output

/-! ### HEAD and the refs -/

/-- The files that hold them. -/
def IsRef (dot q : Path) : Prop := q = dot ++ ["HEAD"] ∨ dot ++ ["refs", "heads"] <+: q

/-- HEAD and every ref hold what they held. -/
def SameRefs (r r' : RefStore) : Prop := ∀ q, IsRef r.dot q → r'.tree.text? q = r.tree.text? q

/-- The output and its temp file are not among them, wherever the output leads. -/
def Outside (env : CheckoutEnv) (r : RefStore) (output : String) : Prop :=
  ∀ tree dir, r.tree.makeDirs [] (parentComps env.cwd output) = (tree, some dir) →
    ¬ IsRef r.dot (dir ++ [fileName env.cwd output]) ∧
      ¬ IsRef r.dot (dir ++ [tempName env.answers.pid env.cwd output])

theorem setHead_eq (r : RefStore) (head : Head) : setHead r head = r.writeLine r.headPath (headLine head) := by
  cases head <;> rfl

/-- A write of HEAD that succeeds puts its line there, and touches no other file. -/
theorem setHead_text (r : RefStore) (head : Head) : (setHead r head).1.dot = r.dot ∧
    ((setHead r head).2 = .ok () → (setHead r head).1.tree.text? r.headPath = some (headLine head ++ "\n")) ∧
    ∀ q, q ≠ r.headPath ∨ (setHead r head).2 ≠ .ok () → (setHead r head).1.tree.text? q = r.tree.text? q := by
  obtain ⟨hwritten, hkept⟩ := FileTree.text?_atomicWrite (t := r.tree) (headLine head ++ "\n") r.headPath_plain
  rw [setHead_eq, RefStore.writeLine]
  rcases hw : r.tree.atomicWrite r.headPath (headLine head ++ "\n") with ⟨tree, ok⟩
  have hpath : r.headPath = r.dot ++ ["HEAD"] := rfl
  rw [← hpath, hw] at hwritten hkept
  cases ok with
  | true => exact ⟨rfl, fun _ => hwritten rfl, fun q hq => hkept q (hq.imp_right fun h => absurd rfl h)⟩
  | false => exact ⟨rfl, fun h => absurd h sfsErr_ne_ok, fun q _ => hkept q (.inr rfl)⟩

/-! ### The file writer -/

section
variable {env : CheckoutEnv} {maxDepth : Nat} {tree tree' : FileTree} {store : LooseStore} {c : Commit}
  {m : Manifest} {output : String} {st : Outcome Unit}

/-- The writer that a reconstruction leaves is one that has been appended to. -/
theorem reconstruct_writing {w₀ w : StWriter} {t₀ t₂ t : FileTree} {done : Bytes} {text : List Char} {ctx : ReadCtx}
    {k : Nat}
    (h : reconstructFile (appendChunk env.wrote) env.libs env.fuel ctx (w₀, t₂, 0) = .ok (w, t, k))
    (hstart : StWriter.Writing w₀ t₀ done text w₀ t₂) : ∃ done text, StWriter.Writing w₀ t₀ done text w t := by
  refine reconstructFile_invariant (I := fun s => ∃ done text, StWriter.Writing w₀ t₀ done text s.1 s.2.1) ?_ h
    ⟨done, text, hstart⟩
  rintro ⟨w, t, k⟩ chunk s' ⟨done, text, hw⟩ happ
  have hnext := StWriter.append_writing hw (chunk, env.wrote k)
  unfold appendChunk at happ
  dsimp only at happ hnext
  rcases hcall : w.append chunk (env.wrote k) t with ⟨w', t', e | u⟩
  · rw [hcall] at happ
    cases happ
  · rw [hcall] at happ hnext
    cases happ
    exact ⟨_, _, hnext⟩

/-- Restoring touches the output and its temp file, and no other. -/
theorem restoreFile_text (h : restoreFile env maxDepth tree store c m output = (tree', st)) (q : Path)
    (hq : ∀ t₁ dir, tree.makeDirs [] (parentComps env.cwd output) = (t₁, some dir) →
      q ≠ dir ++ [fileName env.cwd output] ∧ q ≠ dir ++ [tempName env.answers.pid env.cwd output]) :
    tree'.text? q = tree.text? q := by
  have hmade := FileTree.text?_makeDirs tree [] (parentComps env.cwd output) q
  unfold restoreFile at h
  rcases hmake : tree.makeDirs [] (parentComps env.cwd output) with ⟨t₁, _ | dir⟩
  · have hcreate : ∃ e, StWriter.create env.answers tree env.cwd output m ⟨true⟩ = (t₁, .error e) := by
      unfold StWriter.create
      rw [hmake]
      exact ⟨_, rfl⟩
    obtain ⟨e, he⟩ := hcreate
    rw [he] at h
    cases h
    rw [hmake] at hmade
    exact hmade
  · obtain ⟨hdest, htemp⟩ := hq t₁ dir hmake
    rw [hmake] at hmade
    rw [← hmade]
    by_cases hrefused : env.answers.openFails = true ∨
        t₁.openFile dir (tempName env.answers.pid env.cwd output) = Option.none
    · obtain ⟨e, he⟩ := StWriter.create_refused m ⟨true⟩ hmake hrefused
      rw [he] at h
      cases h
      rfl
    · obtain ⟨hopen, hsome⟩ := not_or.mp hrefused
      obtain ⟨t₂, ht₂⟩ := Option.ne_none_iff_exists'.mp hsome
      obtain ⟨hcreate, hstart⟩ := StWriter.create_opens m ⟨true⟩ hmake (Bool.eq_false_of_not_eq_true hopen) ht₂
      rw [hcreate] at h
      dsimp only at h
      split at h
      · -- The destructor takes the temp file away.
        cases h
        obtain ⟨-, hother⟩ := StWriter.destroy_frame (StWriter.opened env.answers dir env.cwd output m ⟨true⟩) t₂
        exact FileTree.text?_congr ((hother q htemp).trans (hstart.other q htemp))
      · next w t k hrec =>
        obtain ⟨done, text, hw⟩ := reconstruct_writing hrec hstart
        have hne := StWriter.tempName_ne env.answers.pid env.cwd output
        by_cases hr : StWriter.Renames env.answers (StWriter.opened env.answers dir env.cwd output m ⟨true⟩) t₁ done
        · obtain ⟨t₃, st', hfinish, -, -, -, hother⟩ := StWriter.finish_renames hw hne hr
          rw [hfinish] at h
          cases h
          exact FileTree.text?_congr (hother q htemp hdest)
        · obtain ⟨w', t₃, e, hfinish, hdir, htmp, -, hother⟩ := StWriter.finish_stops hw hne hr
          obtain ⟨-, hgone⟩ := StWriter.destroy_frame w' t₃
          rw [hfinish] at h
          cases h
          exact FileTree.text?_congr ((hgone q (by rw [hdir, htmp]; exact htemp)).trans (hother q htemp))

end

theorem restore_dot (env : CheckoutEnv) (maxDepth : Nat) (r : RefStore) (store : LooseStore) (target : Oid)
    (output : String) : (restore env maxDepth r store target output).1.dot = r.dot := by
  unfold restore
  split
  · rfl
  · split
    · rfl
    · split <;> rfl

/-- Restoring to an output outside the refs leaves them alone. -/
theorem restore_sameRefs {env : CheckoutEnv} {r : RefStore} {output : String} (hout : Outside env r output)
    (maxDepth : Nat) (store : LooseStore) (target : Oid) :
    SameRefs r (restore env maxDepth r store target output).1 := by
  intro q hq
  unfold restore
  split
  · rfl
  · split
    · rfl
    · next m _ =>
      split
      · rfl
      · refine restoreFile_text Prod.mk.eta.symm q fun t₁ dir hmake => ?_
        obtain ⟨hdest, htemp⟩ := hout t₁ dir hmake
        exact ⟨fun h => hdest (h ▸ hq), fun h => htemp (h ▸ hq)⟩

/-! ### When it fails -/

/-- The command ends with an error, or is ended by an exception. -/
inductive Reported : Failure → Prop where
  | error (e : Core.Error) : Reported (.error e)
  | exception (what : String) : Reported (.exception what)

/-- What can fail once HEAD has moved. -/
inductive Fails (env : CheckoutEnv) (maxDepth : Nat) (r : RefStore) (store : LooseStore) (target : Oid)
    (output : String) : Prop where
  | commit {f : Failure} (hf : Reported f)
    (h : (store.commits env.libs.json env.libs.blake3).read target = .error f)
  | manifest {c : Commit} {f : Failure} (hf : Reported f)
    (hc : (store.commits env.libs.json env.libs.blake3).read target = .ok c)
    (h : (store.manifests env.libs.json env.libs.blake3).read c.manifest = .error f)
  | create {c : Commit} {m : Manifest} {tree : FileTree} {f : Failure} (hf : Reported f)
    (hc : (store.commits env.libs.json env.libs.blake3).read target = .ok c)
    (hm : (store.manifests env.libs.json env.libs.blake3).read c.manifest = .ok m) (hne : output ≠ "")
    (h : StWriter.create env.answers r.tree env.cwd output m ⟨true⟩ = (tree, .error f))
  | reconstruct {c : Commit} {m : Manifest} {tree : FileTree} {w : StWriter} {f : Failure} (hf : Reported f)
    (hc : (store.commits env.libs.json env.libs.blake3).read target = .ok c)
    (hm : (store.manifests env.libs.json env.libs.blake3).read c.manifest = .ok m) (hne : output ≠ "")
    (hw : StWriter.create env.answers r.tree env.cwd output m ⟨true⟩ = (tree, .ok w))
    (h : reconstructFile (appendChunk env.wrote) env.libs env.fuel (readCtx env maxDepth store c m) (w, tree, 0) =
      .error f)
  | finish {c : Commit} {m : Manifest} {tree t : FileTree} {w v : StWriter} {k : Nat} {f : Failure} (hf : Reported f)
    (hc : (store.commits env.libs.json env.libs.blake3).read target = .ok c)
    (hm : (store.manifests env.libs.json env.libs.blake3).read c.manifest = .ok m) (hne : output ≠ "")
    (hw : StWriter.create env.answers r.tree env.cwd output m ⟨true⟩ = (tree, .ok w))
    (hr : reconstructFile (appendChunk env.wrote) env.libs env.fuel (readCtx env maxDepth store c m) (w, tree, 0) =
      .ok (v, t, k))
    (h : (v.finish env.answers t).2.2 = .error f)

theorem restore_fails_iff (env : CheckoutEnv) (maxDepth : Nat) (r : RefStore) (store : LooseStore) (target : Oid)
    (output : String) :
    Fails env maxDepth r store target output ↔
      ∃ f, Reported f ∧ (restore env maxDepth r store target output).2 = .error f := by
  constructor
  · intro h
    cases h with
    | commit hf h => exact ⟨_, hf, by rw [restore, h]⟩
    | manifest hf hc h => exact ⟨_, hf, by rw [restore, hc]; dsimp only; rw [h]⟩
    | create hf hc hm hne h =>
      exact ⟨_, hf, by rw [restore, hc]; dsimp only; rw [hm]; dsimp only; rw [if_neg hne, restoreFile, h]⟩
    | reconstruct hf hc hm hne hw h =>
      refine ⟨_, hf, ?_⟩
      rw [restore, hc]
      dsimp only
      rw [hm]
      dsimp only
      rw [if_neg hne, restoreFile, hw]
      dsimp only
      rw [h]
    | finish hf hc hm hne hw hr h =>
      refine ⟨_, hf, ?_⟩
      rw [restore, hc]
      dsimp only
      rw [hm]
      dsimp only
      rw [if_neg hne, restoreFile, hw]
      dsimp only
      rw [hr]
      exact h
  · rintro ⟨f, hf, h⟩
    unfold restore at h
    split at h
    · next hc =>
      cases h
      exact .commit hf hc
    · next c hc =>
      split at h
      · next hm =>
        cases h
        exact .manifest hf hc hm
      · next m hm =>
        split at h
        · cases h
        · next hne =>
          unfold restoreFile at h
          rcases hw : StWriter.create env.answers r.tree env.cwd output m ⟨true⟩ with ⟨tree, e' | w⟩
          · rw [hw] at h
            cases h
            exact .create hf hc hm hne hw
          · rw [hw] at h
            dsimp only at h
            rcases hr : reconstructFile (appendChunk env.wrote) env.libs env.fuel (readCtx env maxDepth store c m)
              (w, tree, 0) with e' | ⟨v, t, k⟩
            · rw [hr] at h
              cases h
              exact .reconstruct hf hc hm hne hw hr
            · rw [hr] at h
              exact .finish hf hc hm hne hw hr h

/-- An error leaves HEAD and the refs as they were. -/
structure Unchanged (env : CheckoutEnv) (r : RefStore) (store : LooseStore) (revision output : String) : Prop where
  same : ∀ f, Reported f → (runCheckout env r store revision output).2 = .error f →
    SameRefs r (runCheckout env r store revision output).1

/-- If the command gets as far as moving HEAD, nothing fails from there on, or
the line that it writes is the one HEAD already holds. -/
structure Safe (env : CheckoutEnv) (r : RefStore) (store : LooseStore) (revision output : String) : Prop where
  moves : ∀ maxDepth target head, env.config = .ok maxDepth → selectTarget r store revision = .ok (target, head) →
    env.headWrite ≠ .refused → (setHead r head).2 = .ok () →
    (env.headWrite = .stored ∧ ¬ Fails env maxDepth (setHead r head).1 store target output) ∨
      (r.tree.text? r.headPath = some (headLine head ++ "\n") ∧ Outside env (setHead r head).1 output)

theorem sameRefs_refl (r : RefStore) : SameRefs r r := fun _ _ => rfl

/-- HEAD holds the line that is written to it already: nothing changes. -/
theorem setHead_sameRefs {r : RefStore} {head : Head} (h : (setHead r head).2 ≠ .ok () ∨
    r.tree.text? r.headPath = some (headLine head ++ "\n")) : SameRefs r (setHead r head).1 := by
  obtain ⟨-, hwritten, hkept⟩ := setHead_text r head
  intro q _
  by_cases hq : q = r.headPath
  · by_cases hok : (setHead r head).2 = .ok ()
    · rw [hq, hwritten hok, h.resolve_left fun hne => hne hok]
    · exact hkept q (.inr hok)
  · exact hkept q (.inl hq)

section
variable {env : CheckoutEnv} {r : RefStore} {store : LooseStore} {revision output : String} {maxDepth : Nat}
  {target : Oid} {head : Head}

/-- The command stops at HEAD: the system or the tree refuses the write, or it is not synced. -/
theorem runCheckout_stops (output : String) (hconfig : env.config = .ok maxDepth)
    (hsel : selectTarget r store revision = .ok (target, head))
    (hstop : env.headWrite ≠ .stored ∨ (setHead r head).2 ≠ .ok ()) :
    ∃ e, (runCheckout env r store revision output).2 = .error (.error e) ∧
      (runCheckout env r store revision output).1 = if env.headWrite = .refused then r else (setHead r head).1 := by
  unfold runCheckout writeHead
  rw [hconfig]
  dsimp only
  rw [hsel]
  dsimp only
  cases hw : env.headWrite with
  | refused => exact ⟨_, rfl, rfl⟩
  | unsynced => exact ⟨_, rfl, rfl⟩
  | stored =>
    have hne := hstop.resolve_left fun h => h hw
    rw [setHead_eq, RefStore.writeLine] at hne ⊢
    rcases htree : r.tree.atomicWrite r.headPath (headLine head ++ "\n") with ⟨tree, ok⟩
    rw [htree] at hne
    cases ok with
    | true => exact absurd rfl hne
    | false => exact ⟨_, rfl, rfl⟩

theorem runCheckout_restores (output : String) (hconfig : env.config = .ok maxDepth)
    (hsel : selectTarget r store revision = .ok (target, head)) (hstored : env.headWrite = .stored)
    (hset : (setHead r head).2 = .ok ()) :
    runCheckout env r store revision output = restore env maxDepth (setHead r head).1 store target output := by
  unfold runCheckout writeHead
  rw [hconfig]
  dsimp only
  rw [hsel]
  dsimp only
  rw [hstored]
  rcases hw : setHead r head with ⟨r', st⟩
  rw [hw] at hset
  cases hset
  rfl

theorem unchanged_of_safe (h : Safe env r store revision output) : Unchanged env r store revision output := by
  refine ⟨fun f hf herr => ?_⟩
  rcases hconfig : env.config with e | maxDepth
  · rw [runCheckout, hconfig]
    exact sameRefs_refl r
  rcases hsel : selectTarget r store revision with e | ⟨target, head⟩
  · rw [runCheckout, hconfig]
    dsimp only
    rw [hsel]
    exact sameRefs_refl r
  by_cases hstop : env.headWrite ≠ .stored ∨ (setHead r head).2 ≠ .ok ()
  · obtain ⟨-, -, hr⟩ := runCheckout_stops output hconfig hsel hstop
    rw [hr]
    split
    · exact sameRefs_refl r
    · next hnotRefused =>
      by_cases hset : (setHead r head).2 = .ok ()
      · have hheld := (h.moves maxDepth target head hconfig hsel hnotRefused hset).resolve_left fun hs =>
          hstop.elim (fun hne => hne hs.1) (fun hne => hne hset)
        exact setHead_sameRefs (.inr hheld.1)
      · exact setHead_sameRefs (.inl hset)
  · obtain ⟨hstored, hset⟩ := not_or.mp hstop
    have hstored := not_not.mp hstored
    have hset := not_not.mp hset
    rw [runCheckout_restores output hconfig hsel hstored hset] at herr ⊢
    rcases h.moves maxDepth target head hconfig hsel (by rw [hstored]; decide) hset with ⟨-, hnot⟩ | ⟨hheld, hout⟩
    · exact absurd ((restore_fails_iff ..).mpr ⟨f, hf, herr⟩) hnot
    · intro q hq
      have hmoved := setHead_sameRefs (.inr hheld) q hq
      rw [← hmoved]
      exact restore_sameRefs hout maxDepth store target q (by rw [(setHead_text r head).1]; exact hq)

theorem safe_of_unchanged (hout : ∀ head, Outside env (setHead r head).1 output)
    (h : Unchanged env r store revision output) : Safe env r store revision output := by
  refine ⟨fun maxDepth target head hconfig hsel hnotRefused hset => ?_⟩
  obtain ⟨hdot, hwritten, -⟩ := setHead_text r head
  by_cases hsafe : env.headWrite = .stored ∧ ¬ Fails env maxDepth (setHead r head).1 store target output
  · exact .inl hsafe
  · refine .inr ⟨?_, hout head⟩
    by_cases hstored : env.headWrite = .stored
    · -- Restoring fails, and leaves the line in HEAD.
      obtain ⟨f, hf, herr⟩ := (restore_fails_iff ..).mp (not_not.mp fun hnot => hsafe ⟨hstored, hnot⟩)
      have hrun := runCheckout_restores output hconfig hsel hstored hset
      have hsame := h.same f hf (by rw [hrun, herr]) r.headPath (.inl rfl)
      rw [hrun, restore_sameRefs (hout head) maxDepth store target r.headPath (.inl (by rw [hdot]; rfl))] at hsame
      rw [← hsame, hwritten hset]
    · obtain ⟨e, herr, hr⟩ := runCheckout_stops output hconfig hsel (.inl hstored)
      have hsame := h.same _ (.error e) herr r.headPath (.inl rfl)
      rw [hr, if_neg hnotRefused] at hsame
      rw [← hsame, hwritten hset]

end

/-- A repository just initialised, where nothing is refused. -/
def freshRefs : RefStore where
  tree := FileTree.ofLists [["repo", ".synapsefs", "refs", "heads"]]
    [(["repo", ".synapsefs", "HEAD"], "ref: refs/heads/main\n")] (by decide) (by decide) (by decide)
  dot := ["repo", ".synapsefs"]
  dot_plain := repo_plain

def freshStore : LooseStore where
  chunkBytes := 2 ^ 22
  files := .empty

def quietEnv : CheckoutEnv where
  libs := ⟨sampleJson, ⟨fun _ _ => .error "nothing is compressed", fun _ _ => .error "nothing is decompressed"⟩,
    sampleHash⟩
  fuel := 5
  config := .ok 5
  headWrite := .stored
  answers := ⟨7, false, false, false, false⟩
  wrote := id
  cwd := ["repo"]
  loadCommitTopology _ _ := Option.none

theorem freshRefs_select : selectTarget freshRefs freshStore zeroOid.toString = .ok (zeroOid, .detached zeroOid) := by
  decide +kernel

end SynapseFs.Cmd
