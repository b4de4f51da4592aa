import SynapseFs.Format.Canonical
import SynapseFs.Lib.ReadThrough
import SynapseFs.Store.Containers
import SynapseFs.Store.Objects
import SynapseFs.Store.Refs

/-! The caches of the commit and the manifest store.

Both stores remember every object that they parsed, and every object that they wrote, as it
was given to them. Whatever is asked in whatever order, and whatever other processes put
meanwhile, the answers are those of a store that reads and parses each object every time
(`cached_as_plain`). For an object that is written this takes three things: that it would be
accepted when it is read, that its text reads back, and that the slot of its address is empty
or holds the object itself. -/
namespace SynapseFs.Store
open Lib Core Format

/-- A call of one of the stores, or what another process does meanwhile. -/
inductive StoreCall where
  | readCommit (oid : Oid)
  | getCached (oid : Oid)
  | readManifest (oid : Oid)
  | manifestFor (commit : Oid)
  | writeCommit (c : Commit)
  | writeManifest (m : Manifest)
  | commitAndAdvance (c : Commit) (refName : String) (expected : Option Oid)
  | elsewhere (kind : ObjectKind) (payload : Bytes)
  | elsewhereRef (refName : String) (expected : Option Oid) (desired : Oid)

inductive StoreAnswer where
  | commit (r : Outcome Commit)
  | manifest (r : Outcome Manifest)
  | oid (r : Outcome Oid)
  | none

/-- The files of a repository. -/
structure RepoFiles where
  store : LooseStore
  refs : RefStore

/-- The files, and what `CommitStore::Impl` and `ManifestStore::Impl` hold. -/
structure CachedRepo where
  files : RepoFiles
  commits : FinMap Oid Commit
  manifests : FinMap Oid Manifest

section
variable (json : JsonLib) (blake3 : Bytes → Oid)

/-! ### Without caches -/

namespace RepoFiles

def put (f : RepoFiles) (kind : ObjectKind) (payload : Bytes) : Outcome Oid × RepoFiles :=
  match f.store.put blake3 kind payload with
  | .ok (oid, store) => (.ok oid, { f with store })
  | .error e => (.error e, f)

def updateRef (f : RepoFiles) (refName : String) (expected : Option Oid) (desired : Oid) : Outcome Unit × RepoFiles :=
  ((f.refs.update refName expected desired).2, { f with refs := (f.refs.update refName expected desired).1 })

/-- Each object read and parsed anew. -/
def call (f : RepoFiles) : StoreCall → StoreAnswer × RepoFiles
  | .readCommit oid => (.commit (f.store.readCommit json blake3 oid), f)
  | .getCached oid => (.commit (f.store.readCommit json blake3 oid), f)
  | .readManifest oid => (.manifest (f.store.readManifest json blake3 oid), f)
  | .manifestFor oid =>
    (.manifest (do
      let c ← f.store.readCommit json blake3 oid
      f.store.readManifest json blake3 c.manifest), f)
  | .writeCommit c =>
    let (r, f') := f.put blake3 .commit (c.toCanonicalJson json)
    (.oid r, f')
  | .writeManifest m =>
    match m.validate with
    | .error e => (.oid (.error e), f)
    | .ok () =>
      let (r, f') := f.put blake3 .manifest (m.toCanonicalJson json)
      (.oid r, f')
  | .commitAndAdvance c refName expected =>
    match f.put blake3 .commit (c.toCanonicalJson json) with
    | (.error e, f') => (.oid (.error e), f')
    | (.ok oid, f') =>
      let (r, f'') := f'.updateRef refName expected oid
      (.oid (r.map fun _ => oid), f'')
  | .elsewhere kind payload => (.none, (f.put blake3 kind payload).2)
  | .elsewhereRef refName expected desired => (.none, (f.updateRef refName expected desired).2)

end RepoFiles

/-! ### With caches -/

namespace CachedRepo

def readCommit (s : CachedRepo) (oid : Oid) : Outcome Commit × CachedRepo :=
  let (r, commits) := ReadThrough.read s.commits (s.files.store.readCommit json blake3) oid
  (r, { s with commits })

/-- The pointer is into the cache. -/
def getCached (s : CachedRepo) (oid : Oid) : Outcome Commit × CachedRepo :=
  match s.commits.get? oid with
  | some c => (.ok c, s)
  | none =>
    match s.readCommit json blake3 oid with
    | (.error e, s') => (.error e, s')
    | (.ok c, s') =>
      let commits := s'.commits.emplace oid c
      (.ok ((commits.get? oid).getD c), { s' with commits })

def readManifest (s : CachedRepo) (oid : Oid) : Outcome Manifest × CachedRepo :=
  let (r, manifests) := ReadThrough.read s.manifests (s.files.store.readManifest json blake3) oid
  (r, { s with manifests })

def manifestFor (s : CachedRepo) (oid : Oid) : Outcome Manifest × CachedRepo :=
  match s.getCached json blake3 oid with
  | (.error e, s') => (.error e, s')
  | (.ok c, s') =>
    match s'.manifests.get? c.manifest with
    | some m => (.ok m, s')
    | none =>
      match s'.readManifest json blake3 c.manifest with
      | (.error e, s'') => (.error e, s'')
      | (.ok m, s'') =>
        let manifests := s''.manifests.emplace c.manifest m
        (.ok ((manifests.get? c.manifest).getD m), { s'' with manifests })

def writeCommit (s : CachedRepo) (c : Commit) : Outcome Oid × CachedRepo :=
  match s.files.put blake3 .commit (c.toCanonicalJson json) with
  | (.error e, files) => (.error e, { s with files })
  | (.ok oid, files) => (.ok oid, { s with files, commits := s.commits.emplace oid c })

def writeManifest (s : CachedRepo) (m : Manifest) : Outcome Oid × CachedRepo :=
  match m.validate with
  | .error e => (.error e, s)
  | .ok () =>
    match s.files.put blake3 .manifest (m.toCanonicalJson json) with
    | (.error e, files) => (.error e, { s with files })
    | (.ok oid, files) => (.ok oid, { s with files, manifests := s.manifests.emplace oid m })

/-- The object first, then the ref. -/
def commitAndAdvance (s : CachedRepo) (c : Commit) (refName : String) (expected : Option Oid) : Outcome Oid × CachedRepo :=
  match s.writeCommit json blake3 c with
  | (.error e, s') => (.error e, s')
  | (.ok oid, s') =>
    let (r, files) := s'.files.updateRef refName expected oid
    (r.map fun _ => oid, { s' with files })

def call (s : CachedRepo) : StoreCall → StoreAnswer × CachedRepo
  | .readCommit oid => (s.readCommit json blake3 oid).map .commit id
  | .getCached oid => (s.getCached json blake3 oid).map .commit id
  | .readManifest oid => (s.readManifest json blake3 oid).map .manifest id
  | .manifestFor oid => (s.manifestFor json blake3 oid).map .manifest id
  | .writeCommit c => (s.writeCommit json blake3 c).map .oid id
  | .writeManifest m => (s.writeManifest json blake3 m).map .oid id
  | .commitAndAdvance c refName expected => (s.commitAndAdvance json blake3 c refName expected).map .oid id
  | .elsewhere kind payload => (.none, { s with files := (s.files.put blake3 kind payload).2 })
  | .elsewhereRef refName expected desired => (.none, { s with files := (s.files.updateRef refName expected desired).2 })

/-- Two stores are opened. -/
def opened (files : RepoFiles) : CachedRepo := ⟨files, .empty, .empty⟩

end CachedRepo

/-- Calls in turn, with their answers. -/
def answers {σ : Type} (call : σ → StoreCall → StoreAnswer × σ) (s : σ) : List StoreCall → List StoreAnswer × σ
  | [] => ([], s)
  | c :: rest => ((call s c).1 :: (answers call (call s c).2 rest).1, (answers call (call s c).2 rest).2)

/-! ### The store grows -/

/-- Every file is still there. -/
def Grows (a b : LooseStore) : Prop := ∀ oid file, a.files.get? oid = some file → b.files.get? oid = some file

/-- The slot of an object is empty and the object can be stored, or the object is in it. -/
def Slot (s : LooseStore) (kind : ObjectKind) (payload : Bytes) : Prop :=
  s.files.get? (computeOid blake3 kind payload) = none ∧ LooseStore.Storable payload s.chunkBytes ∨
    s.get blake3 (computeOid blake3 kind payload) kind = .ok payload

/-- What the writer of an object sees to. -/
def CallOk (f : RepoFiles) : StoreCall → Prop
  | .writeCommit c | .commitAndAdvance c _ _ =>
    c.Valid ∧ json.parse (c.toCanonicalJson json) = .ok c.toJson ∧ Slot blake3 f.store .commit (c.toCanonicalJson json)
  | .writeManifest m =>
    m.validate = .ok () →
      m.Valid ∧ json.parse (m.toCanonicalJson json) = .ok m.toJson ∧ Slot blake3 f.store .manifest (m.toCanonicalJson json)
  | _ => True

/-- Each call of a run, in the state that it meets. -/
def CallsOk (f : RepoFiles) : List StoreCall → Prop
  | [] => True
  | c :: rest => CallOk json blake3 f c ∧ CallsOk (f.call json blake3 c).2 rest

variable {json blake3}
variable {a b : LooseStore} {f : RepoFiles} {s : CachedRepo}

theorem Grows.refl : Grows a a := fun _ _ h => h

theorem Grows.get (h : Grows a b) {oid : Oid} {kind : ObjectKind} {payload : Bytes} (hget : a.get blake3 oid kind = .ok payload) :
    b.get blake3 oid kind = .ok payload := by
  obtain ⟨file, hdr, hfile, hrest⟩ := LooseStore.get_eq_ok.mp hget
  exact LooseStore.get_eq_ok.mpr ⟨file, hdr, h oid file hfile, hrest⟩

theorem Grows.readCommit (h : Grows a b) (oid : Oid) (c : Commit) (hread : a.readCommit json blake3 oid = .ok c) :
    b.readCommit json blake3 oid = .ok c := by
  obtain ⟨bytes, hget, hrest⟩ := bind_eq_ok.mp hread
  exact bind_eq_ok.mpr ⟨bytes, h.get hget, hrest⟩

theorem Grows.readManifest (h : Grows a b) (oid : Oid) (m : Manifest) (hread : a.readManifest json blake3 oid = .ok m) :
    b.readManifest json blake3 oid = .ok m := by
  obtain ⟨bytes, hget, hrest⟩ := bind_eq_ok.mp hread
  exact bind_eq_ok.mpr ⟨bytes, h.get hget, hrest⟩

variable (blake3) in
/-- A put changes no slot but an empty one. -/
theorem put_grows (f : RepoFiles) (kind : ObjectKind) (payload : Bytes) :
    Grows f.store (f.put blake3 kind payload).2.store := by
  cases hslot : f.store.files.get? (computeOid blake3 kind payload) with
  | some file =>
    simp only [RepoFiles.put, LooseStore.put, hslot]
    exact Grows.refl
  | none =>
    cases hencoded : encodeObject blake3 kind payload f.store.chunkBytes with
    | error e =>
      simp only [RepoFiles.put, LooseStore.put, hslot, hencoded, bind, Except.bind]
      exact Grows.refl
    | ok encoded =>
      simp only [RepoFiles.put, LooseStore.put, hslot, hencoded, bind, Except.bind]
      intro oid file hfile
      show (f.store.files.insert _ encoded).get? oid = some file
      rw [FinMap.get?_insert_ne _ _ ?_, hfile]
      rintro rfl
      rw [hslot] at hfile
      cases hfile

/-- An object that is put can be got. -/
theorem put_slot {kind : ObjectKind} {payload : Bytes} (h : Slot blake3 f.store kind payload) :
    ∃ f', f.put blake3 kind payload = (.ok (computeOid blake3 kind payload), f') ∧
      f'.store.get blake3 (computeOid blake3 kind payload) kind = .ok payload := by
  rcases h with ⟨hslot, hstorable⟩ | hget
  · refine ⟨_, by rw [RepoFiles.put, LooseStore.put_empty_slot hslot hstorable.pow2], LooseStore.get_eq_ok.mpr ?_⟩
    exact ⟨_, _, FinMap.get?_insert_self _ _ _, LooseStore.length_encoded_lt hstorable, LooseStore.encoded_holds hstorable⟩
  · obtain ⟨file, hdr, hfile, -⟩ := LooseStore.get_eq_ok.mp hget
    exact ⟨f, by simp only [RepoFiles.put, LooseStore.put, hfile], hget⟩

theorem written_commit_reads {c : Commit} (h : CallOk json blake3 f (.writeCommit c)) :
    ∃ f', f.put blake3 .commit (c.toCanonicalJson json) = (.ok (c.oid json blake3), f') ∧
      f'.store.readCommit json blake3 (c.oid json blake3) = .ok c := by
  obtain ⟨hvalid, hreads, hslot⟩ := h
  obtain ⟨f', hput, hget⟩ := put_slot hslot
  refine ⟨f', hput, bind_eq_ok.mpr ⟨_, hget, bind_eq_ok.mpr ⟨c, Commit.parse_toCanonicalJson hvalid hreads, ?_⟩⟩⟩
  rw [if_neg (not_not.mpr rfl)]
  rfl

theorem written_manifest_reads {m : Manifest} (h : CallOk json blake3 f (.writeManifest m)) (hok : m.validate = .ok ()) :
    ∃ f', f.put blake3 .manifest (m.toCanonicalJson json) = (.ok (m.oid json blake3), f') ∧
      f'.store.readManifest json blake3 (m.oid json blake3) = .ok m := by
  obtain ⟨hvalid, hreads, hslot⟩ := h hok
  obtain ⟨f', hput, hget⟩ := put_slot hslot
  refine ⟨f', hput, bind_eq_ok.mpr ⟨_, hget, bind_eq_ok.mpr ⟨m, Manifest.parse_toCanonicalJson hvalid hreads, ?_⟩⟩⟩
  rw [if_neg (not_not.mpr rfl)]
  rfl

/-! ### One call -/

/-- The caches hold what the store would answer. -/
structure CachedRepo.Inv (json : JsonLib) (blake3 : Bytes → Oid) (s : CachedRepo) : Prop where
  commits : ReadThrough.Agrees s.commits (s.files.store.readCommit json blake3)
  manifests : ReadThrough.Agrees s.manifests (s.files.store.readManifest json blake3)

/-- A call answers as the plain one, leaves the files that it leaves, and keeps the caches right. -/
structure Same (json : JsonLib) (blake3 : Bytes → Oid) {α : Type} (cached : α × CachedRepo) (plain : α × RepoFiles) : Prop where
  answer : cached.1 = plain.1
  files : cached.2.files = plain.2
  inv : cached.2.Inv json blake3

theorem CachedRepo.Inv.grow (h : s.Inv json blake3) {files : RepoFiles} (hgrows : Grows s.files.store files.store) :
    ({ s with files } : CachedRepo).Inv json blake3 :=
  ⟨h.commits.mono hgrows.readCommit, h.manifests.mono hgrows.readManifest⟩

theorem Same.map {α β : Type} {cached : α × CachedRepo} {plain : α × RepoFiles} (h : Same json blake3 cached plain) (g : α → β) :
    Same json blake3 (cached.map g id) (plain.map g id) :=
  ⟨congrArg g h.answer, h.files, h.inv⟩

namespace CachedRepo.Inv

theorem readCommit (h : s.Inv json blake3) (oid : Oid) :
    Same json blake3 (s.readCommit json blake3 oid) (s.files.store.readCommit json blake3 oid, s.files) :=
  ⟨h.commits.read_eq oid, rfl, h.commits.read_agrees oid, h.manifests⟩

theorem readManifest (h : s.Inv json blake3) (oid : Oid) :
    Same json blake3 (s.readManifest json blake3 oid) (s.files.store.readManifest json blake3 oid, s.files) :=
  ⟨h.manifests.read_eq oid, rfl, h.commits, h.manifests.read_agrees oid⟩

theorem getCached (h : s.Inv json blake3) (oid : Oid) :
    Same json blake3 (s.getCached json blake3 oid) (s.files.store.readCommit json blake3 oid, s.files) := by
  unfold CachedRepo.getCached
  cases hget : s.commits.get? oid with
  | some c => exact ⟨(h.commits oid c hget).symm, rfl, h⟩
  | none =>
    obtain ⟨hanswer, hfiles, hinv⟩ := h.readCommit oid
    rcases hread : s.readCommit json blake3 oid with ⟨r, s'⟩
    rw [hread] at hanswer hfiles hinv
    dsimp only at hanswer hfiles hinv
    subst hanswer
    cases hplain : s.files.store.readCommit json blake3 oid with
    | error e => exact ⟨rfl, hfiles, hinv⟩
    | ok c =>
      have hc : s'.files.store.readCommit json blake3 oid = .ok c := by rw [hfiles, hplain]
      refine ⟨?_, hfiles, hinv.commits.emplace hc, hinv.manifests⟩
      show Except.ok (((s'.commits.emplace oid c).get? oid).getD c) = _
      rw [hinv.commits.get?_emplace hc]
      rfl

theorem manifestFor (h : s.Inv json blake3) (oid : Oid) :
    Same json blake3 (s.manifestFor json blake3 oid)
      (s.files.store.readCommit json blake3 oid >>= fun c => s.files.store.readManifest json blake3 c.manifest, s.files) := by
  unfold CachedRepo.manifestFor
  obtain ⟨hanswer, hfiles, hinv⟩ := h.getCached oid
  rcases hcached : s.getCached json blake3 oid with ⟨r, s'⟩
  rw [hcached] at hanswer hfiles hinv
  dsimp only at hanswer hfiles hinv
  subst hanswer
  cases hplain : s.files.store.readCommit json blake3 oid with
  | error e => exact ⟨rfl, hfiles, hinv⟩
  | ok c =>
    simp only [bind, Except.bind]
    cases hget : s'.manifests.get? c.manifest with
    | some m =>
      have hm := hinv.manifests _ m hget
      rw [hfiles] at hm
      exact ⟨hm.symm, hfiles, hinv⟩
    | none =>
      obtain ⟨hanswer', hfiles', hinv'⟩ := hinv.readManifest c.manifest
      rcases hread : s'.readManifest json blake3 c.manifest with ⟨r', s''⟩
      rw [hread] at hanswer' hfiles' hinv'
      dsimp only at hanswer' hfiles' hinv'
      subst hanswer'
      rw [hfiles] at hfiles' ⊢
      cases hmanifest : s.files.store.readManifest json blake3 c.manifest with
      | error e => exact ⟨rfl, hfiles', hinv'⟩
      | ok m =>
        have hm : s''.files.store.readManifest json blake3 c.manifest = .ok m := by rw [hfiles', hmanifest]
        refine ⟨?_, hfiles', hinv'.commits, hinv'.manifests.emplace hm⟩
        show Except.ok (((s''.manifests.emplace c.manifest m).get? c.manifest).getD m) = _
        rw [hinv'.manifests.get?_emplace hm]
        rfl

/-- What is remembered of a commit that is written is what reading it would give. -/
theorem writeCommit (h : s.Inv json blake3) {c : Commit} (hok : CallOk json blake3 s.files (.writeCommit c)) :
    Same json blake3 (s.writeCommit json blake3 c) (s.files.put blake3 .commit (c.toCanonicalJson json)) := by
  have hgrows := put_grows blake3 s.files .commit (c.toCanonicalJson json)
  obtain ⟨f', hput, hread⟩ := written_commit_reads hok
  unfold CachedRepo.writeCommit
  rw [hput] at hgrows ⊢
  have hgrown := h.grow hgrows
  exact ⟨rfl, rfl, hgrown.commits.emplace hread, hgrown.manifests⟩

theorem writeManifest (h : s.Inv json blake3) {m : Manifest} (hok : CallOk json blake3 s.files (.writeManifest m)) :
    Same json blake3 ((s.writeManifest json blake3 m).map .oid id) (s.files.call json blake3 (.writeManifest m)) := by
  unfold CachedRepo.writeManifest RepoFiles.call
  dsimp only
  cases hvalidate : m.validate with
  | error e => exact ⟨rfl, rfl, h⟩
  | ok u =>
    have hgrows := put_grows blake3 s.files .manifest (m.toCanonicalJson json)
    obtain ⟨f', hput, hread⟩ := written_manifest_reads hok hvalidate
    dsimp only
    rw [hput] at hgrows ⊢
    have hgrown := h.grow hgrows
    exact ⟨rfl, rfl, hgrown.commits, hgrown.manifests.emplace hread⟩

theorem commitAndAdvance (h : s.Inv json blake3) {c : Commit} (refName : String) (expected : Option Oid)
    (hok : CallOk json blake3 s.files (.writeCommit c)) :
    Same json blake3 ((s.commitAndAdvance json blake3 c refName expected).map .oid id)
      (s.files.call json blake3 (.commitAndAdvance c refName expected)) := by
  obtain ⟨hanswer, hfiles, hinv⟩ := h.writeCommit hok
  unfold CachedRepo.commitAndAdvance RepoFiles.call
  rcases hwrite : s.writeCommit json blake3 c with ⟨r, s'⟩
  rcases hput : s.files.put blake3 .commit (c.toCanonicalJson json) with ⟨r', f'⟩
  rw [hwrite, hput] at hanswer hfiles
  rw [hwrite] at hinv
  dsimp only at hanswer hfiles hinv ⊢
  rw [hput]
  subst hanswer hfiles
  cases r with
  | error e => exact ⟨rfl, rfl, hinv⟩
  | ok oid => exact ⟨rfl, rfl, hinv.commits, hinv.manifests⟩

theorem call (h : s.Inv json blake3) {c : StoreCall} (hok : CallOk json blake3 s.files c) :
    Same json blake3 (s.call json blake3 c) (s.files.call json blake3 c) := by
  cases c with
  | readCommit oid => exact (h.readCommit oid).map StoreAnswer.commit
  | getCached oid => exact (h.getCached oid).map StoreAnswer.commit
  | readManifest oid => exact (h.readManifest oid).map StoreAnswer.manifest
  | manifestFor oid => exact (h.manifestFor oid).map StoreAnswer.manifest
  | writeCommit c => exact (h.writeCommit hok).map StoreAnswer.oid
  | writeManifest m => exact h.writeManifest hok
  | commitAndAdvance c refName expected => exact h.commitAndAdvance refName expected hok
  | elsewhere kind payload => exact ⟨rfl, rfl, h.grow (put_grows blake3 s.files kind payload)⟩
  | elsewhereRef refName expected desired => exact ⟨rfl, rfl, h.commits, h.manifests⟩

end CachedRepo.Inv

/-! ### Every run -/

theorem answers_same (h : s.Inv json blake3) {calls : List StoreCall} (hok : CallsOk json blake3 s.files calls) :
    (answers (CachedRepo.call json blake3) s calls).1 = (answers (RepoFiles.call json blake3) s.files calls).1 ∧
      (answers (CachedRepo.call json blake3) s calls).2.files = (answers (RepoFiles.call json blake3) s.files calls).2 := by
  induction calls generalizing s with
  | nil => exact ⟨rfl, rfl⟩
  | cons c rest ih =>
    obtain ⟨hfirst, hrest⟩ := hok
    obtain ⟨hanswer, hfiles, hinv⟩ := h.call hfirst
    rw [← hfiles] at hrest
    obtain ⟨hanswers, hend⟩ := ih hinv hrest
    rw [hfiles] at hanswers hend
    exact ⟨congrArg₂ List.cons hanswer hanswers, hend⟩

/-- **The caches are not seen.** Any run of calls on two stores that were just opened is answered, and leaves the files, as
by stores that read and parse every object anew. -/
theorem cached_as_plain (files : RepoFiles) (calls : List StoreCall) (h : CallsOk json blake3 files calls) :
    (answers (CachedRepo.call json blake3) (CachedRepo.opened files) calls).1 =
        (answers (RepoFiles.call json blake3) files calls).1 ∧
      (answers (CachedRepo.call json blake3) (CachedRepo.opened files) calls).2.files =
        (answers (RepoFiles.call json blake3) files calls).2 :=
  answers_same ⟨ReadThrough.agrees_empty, ReadThrough.agrees_empty⟩ h

end

/-! ### One commit -/

def soleCommit : Commit :=
  { formatVersion := 1, parents := [], manifest := .fill 0x11, topology := .fill 0x22, timestamp := "2025-01-01T00:00:00Z",
    author := "a", message := "m" }

def soleText : Bytes :=
  asciiOf ["\x7b\"author\":\"a\",\"format_version\":1,\"manifest\":\"b3:",
    "1111111111111111111111111111111111111111111111111111111111111111\",\"message\":\"m\",\"parents\":[],",
    "\"timestamp\":\"2025-01-01T00:00:00Z\",\"topology\":\"b3:",
    "2222222222222222222222222222222222222222222222222222222222222222\"\x7d"]

def soleLib : JsonLib := .sole soleCommit.toJson soleText

theorem synapsefs_plain : ∀ c ∈ [".synapsefs"], PlainName c := by decide

def emptyRepo : RepoFiles where
  store := ⟨2 ^ 22, .empty⟩
  refs := ⟨FileTree.ofLists [[".synapsefs", "refs", "heads"]] [] List.nodup_nil (by decide) (by decide), [".synapsefs"],
    synapsefs_plain⟩

/-- It is written and the branch made, then asked for, with its manifest that is not there. -/
def soleCalls : List StoreCall :=
  [.commitAndAdvance soleCommit "refs/heads/main" none, .getCached zeroOid, .manifestFor zeroOid, .readCommit (.fill 1)]

theorem cached_as_plain_sole : CallsOk soleLib (fun _ => zeroOid) emptyRepo soleCalls ∧
    (answers (CachedRepo.call soleLib fun _ => zeroOid) (CachedRepo.opened emptyRepo) soleCalls).1 =
        (answers (RepoFiles.call soleLib fun _ => zeroOid) emptyRepo soleCalls).1 ∧
      (answers (CachedRepo.call soleLib fun _ => zeroOid) (CachedRepo.opened emptyRepo) soleCalls).2.files =
        (answers (RepoFiles.call soleLib fun _ => zeroOid) emptyRepo soleCalls).2 := by
  have hok : CallsOk soleLib (fun _ => zeroOid) emptyRepo soleCalls := by
    refine ⟨⟨⟨by decide, by decide, by decide +kernel⟩, JsonLib.sole_parse _ _, .inl ⟨rfl, ?_⟩⟩, trivial, trivial, trivial, trivial⟩
    exact ⟨by decide +kernel, by decide, by decide +kernel, by decide +kernel⟩
  exact ⟨hok, cached_as_plain emptyRepo soleCalls hok⟩

end SynapseFs.Store
