import SynapseFs.Store.Repo

/-! Every branch names a commit whose objects are all there.

The invariant is stronger than that: every commit in the store is complete, every
file under `refs/heads` is a flat branch that names a stored commit, and so does
every pending journal record. One lemma says what a write must be for the invariant
to survive it; each command is then a list of such writes.

gc takes its tips from the refs alone. A record that a crashed merge left behind
names a commit that no ref reaches, gc removes it, and recovery moves the branch
there all the same. -/
namespace SynapseFs.Store
open Lib Core Format RefStore

variable {json : JsonLib} {blake3 : Bytes → Oid}

/-! ### Stored objects -/

def StoredCommit (objects : ObjectMap) (o : Oid) : Prop := ∃ c, objects.commits.read o = .ok c

/-- Everything a commit names is there, as what it names it. -/
structure CommitComplete (objects : ObjectMap) (c : Commit) : Prop where
  parents : ∀ p ∈ c.parents, StoredCommit objects p
  manifest : ∃ m, objects.get? c.manifest = some (manifestObject m) ∧
    ∀ o ∈ manifestObjects m, objects.get? o = some blobObject
  topology : objects.get? c.topology = some blobObject

def ObjectsClosed (objects : ObjectMap) : Prop := ∀ o c, objects.commits.read o = .ok c → CommitComplete objects c

theorem StoredCommit.mono {a b : ObjectMap} {o : Oid} (h : StoredCommit a o) (hx : Extends a b) : StoredCommit b o := by
  obtain ⟨c, hc⟩ := h
  obtain ⟨obj, hobj, hc⟩ := readCommit_iff.mp hc
  exact ⟨c, readCommit_iff.mpr ⟨obj, hx o obj hobj, hc⟩⟩

theorem StoredCommit.of_get {objects : ObjectMap} {o : Oid} {c : Commit} {hp : c.parents.length ≤ 2}
    (h : objects.get? o = some (commitObject c hp)) : StoredCommit objects o :=
  ⟨c, readCommit_iff.mpr ⟨_, h, rfl⟩⟩

theorem CommitComplete.mono {a b : ObjectMap} {c : Commit} (h : CommitComplete a c) (hx : Extends a b) :
    CommitComplete b c := by
  obtain ⟨m, hm, hb⟩ := h.manifest
  exact ⟨fun p hp => (h.parents p hp).mono hx, ⟨m, hx _ _ hm, fun o ho => hx _ _ (hb o ho)⟩, hx _ _ h.topology⟩

theorem ObjectsClosed.put {objects : ObjectMap} {oid : Oid} {obj : StoredObject} (h : ObjectsClosed objects)
    (hnew : ∀ c, obj.asCommit = .ok c → CommitComplete (Repo.putObject objects oid obj) c) :
    ObjectsClosed (Repo.putObject objects oid obj) := by
  intro o c hread
  obtain ⟨a, ha, hc⟩ := readCommit_iff.mp hread
  rcases putObject_cases ha with ha | ⟨-, rfl⟩
  · exact (h o c (readCommit_iff.mpr ⟨a, ha, hc⟩)).mono (putObject_extends objects oid obj)
  · exact hnew c hc

/-- In a closed store a commit's whole history reads, and what it references is there. -/
theorem ObjectsClosed.reachable {objects : ObjectMap} (h : ObjectsClosed objects) {tips : List Oid}
    (htips : ∀ t ∈ tips, StoredCommit objects t) {v : Oid} (hv : Reachable objects.commits tips v) :
    StoredCommit objects v := by
  obtain ⟨tip, ht, ha⟩ := hv
  induction ha with
  | refl => exact htips tip ht
  | tail _ hp _ =>
    obtain ⟨c, hc, hmem⟩ := hp
    exact (h _ c hc).parents _ hmem

theorem ObjectsClosed.lists {objects : ObjectMap} (h : ObjectsClosed objects) {tips : List Oid}
    (htips : ∀ t ∈ tips, StoredCommit objects t) :
    ∃ objs, reachableObjects objects.commits objects.manifests tips = .ok objs := by
  refine reachableObjects_ok fun v hv => ?_
  obtain ⟨c, hc⟩ := h.reachable htips hv
  obtain ⟨m, hm, -⟩ := (h v c hc).manifest
  exact ⟨c, m, hc, readManifest_of_get hm⟩

/-- A referenced object is a commit of the history or a manifest or blob of one. -/
theorem ObjectsClosed.referenced {objects : ObjectMap} (h : ObjectsClosed objects) {tips : List Oid}
    (htips : ∀ t ∈ tips, StoredCommit objects t) {kind : ObjectKind} {o : Oid}
    (ho : Referenced objects.commits objects.manifests tips kind o) :
    (Reachable objects.commits tips o ∧ StoredCommit objects o) ∨ (∃ m, objects.get? o = some (manifestObject m)) ∨
      objects.get? o = some blobObject := by
  have hblob : ∀ {v : Oid} {c : Commit} {m : Manifest} {x : Oid}, objects.commits.read v = .ok c →
      objects.manifests.read c.manifest = .ok m → x ∈ manifestObjects m → objects.get? x = some blobObject := by
    intro v c m x hc hm hx
    obtain ⟨m', hm', hb⟩ := (h v c hc).manifest
    cases hm.symm.trans (readManifest_of_get hm')
    exact hb x hx
  cases ho with
  | commit hv => exact .inl ⟨hv, h.reachable htips hv⟩
  | manifest _ hc => exact .inr (.inl ((h _ _ hc).manifest.imp fun _ hm => hm.1))
  | topology _ hc => exact .inr (.inr (h _ _ hc).topology)
  | header _ hc hm => exact .inr (.inr (hblob hc hm List.mem_cons_self))
  | raw _ hc hm hg hb =>
    refine .inr (.inr (hblob hc hm (List.mem_cons_of_mem _ (List.mem_flatMap.mpr ⟨_, hg, ?_⟩))))
    simp [groupObjects, hb]
  | diff _ hc hm hg hd =>
    refine .inr (.inr (hblob hc hm (List.mem_cons_of_mem _ (List.mem_flatMap.mpr ⟨_, hg, ?_⟩))))
    simp [groupObjects, hd]

/-! ### The invariant -/

def FullBranchName (name : String) : Prop := ∃ n, FlatName n ∧ name = "refs/heads/" ++ n

structure RefsClosed (P : Oid → Prop) (refs : RefStore) : Prop where
  dir : refs.tree.nodes.get? refs.refsHeads = some .dir
  heads : ∀ q text, refs.tree.nodes.get? (refs.refsHeads ++ q) = some (.file text) →
    ∃ n o, q = [n] ∧ FlatName n ∧ text = o.toString ++ "\n" ∧ P o
  head : ∀ text, refs.tree.nodes.get? refs.headPath = some (.file text) → HeadText text

def RecordClosed (P : Oid → Prop) (rec : JournalRecord) : Prop :=
  FullBranchName rec.refName ∧ ∀ o, rec.refNew = some o → P o

structure Closed (r : Repo) : Prop where
  objects : ObjectsClosed r.objects
  refs : RefsClosed (StoredCommit r.objects) r.refs
  pending : ∀ rec ∈ r.journal.pending, RecordClosed (StoredCommit r.objects) rec

theorem RefsClosed.mono {P Q : Oid → Prop} {refs : RefStore} (h : RefsClosed P refs) (hPQ : ∀ o, P o → Q o) :
    RefsClosed Q refs := by
  refine ⟨h.dir, fun q text hf => ?_, h.head⟩
  obtain ⟨n, o, hq, hn, ht, ho⟩ := h.heads q text hf
  exact ⟨n, o, hq, hn, ht, hPQ o ho⟩

theorem RecordClosed.mono {P Q : Oid → Prop} {rec : JournalRecord} (h : RecordClosed P rec) (hPQ : ∀ o, P o → Q o) :
    RecordClosed Q rec :=
  ⟨h.1, fun o ho => hPQ o (h.2 o ho)⟩

/-- The two spellings of a flat branch. -/
def FlatRef (name : String) : Prop := ∃ n, FlatName n ∧ (name = n ∨ name = "refs/heads/" ++ n)

theorem FullBranchName.flat {name : String} (h : FullBranchName name) : FlatRef name :=
  h.imp fun _ h => ⟨h.1, .inr h.2⟩

theorem FlatRef.path {name : String} (h : FlatRef name) (refs : RefStore) :
    ∃ n, FlatName n ∧ refs.branchRefPath name = refs.refsHeads ++ [n] := by
  obtain ⟨n, hn, rfl | rfl⟩ := h
  · exact ⟨name, hn, branchRefPath_short refs hn⟩
  · exact ⟨n, hn, branchRefPath_full refs hn⟩


/-- A tree that differs at one branch file keeps the invariant if the file names a
commit that satisfies it. -/
theorem RefsClosed.update {P : Oid → Prop} {refs : RefStore} (h : RefsClosed P refs) {refName : String}
    (hname : FlatRef refName) (expected : Option Oid) {desired : Oid} (hd : P desired) :
    RefsClosed P (refs.update refName expected desired).1 := by
  obtain ⟨n, hn, hpath⟩ := hname.path refs
  obtain ⟨hdot, hsame | hget⟩ := update_flat refs hpath hn h.dir expected desired
  · rw [hsame]
    exact h
  · have hheads : (refs.update refName expected desired).1.refsHeads = refs.refsHeads := by
      rw [refsHeads, hdot, refsHeads]
    have hhead : (refs.update refName expected desired).1.headPath = refs.headPath := by
      rw [headPath, hdot, headPath]
    refine ⟨?_, fun q text hf => ?_, fun text hf => ?_⟩
    · rw [hheads, hget, if_neg (by simp)]
      exact h.dir
    · rw [hheads, hget] at hf
      split at hf
      · next he =>
        cases hf
        exact ⟨n, desired, List.append_cancel_left he, hn, rfl, hd⟩
      · exact h.heads q text hf
    · rw [hhead, hget, if_neg (by simp [headPath, refsHeads])] at hf
      exact h.head text hf

theorem RefsClosed.writeHead {P : Oid → Prop} {refs : RefStore} (h : RefsClosed P refs) {line : String}
    (hline : HeadText (line ++ "\n")) : RefsClosed P (refs.writeLine refs.headPath line).1 := by
  have hdir : refs.tree.nodes.get? refs.dot = some .dir :=
    refs.tree.dir_of_prefix refs.dot ["refs", "heads"] (List.cons_ne_nil _ _)
      (by rw [← refsHeads, h.dir]; exact Option.some_ne_none _)
  obtain ⟨hdot, hsame | hget⟩ := writeLine_in_dir refs line refs.dot_plain (by decide : PlainName "HEAD") hdir
  · rw [headPath, hsame]
    exact h
  · have hheads : (refs.writeLine refs.headPath line).1.refsHeads = refs.refsHeads := by
      rw [refsHeads, headPath, hdot, refsHeads]
    have hhead : (refs.writeLine refs.headPath line).1.headPath = refs.headPath := by
      rw [headPath, headPath, hdot]
    refine ⟨?_, fun q text hf => ?_, fun text hf => ?_⟩
    · rw [hheads, headPath, hget, if_neg (by simp [refsHeads])]
      exact h.dir
    · rw [hheads, headPath, hget, if_neg (by simp [refsHeads])] at hf
      exact h.heads q text hf
    · rw [hhead, headPath, hget, if_pos rfl] at hf
      cases hf
      exact hline

/-- A symbolic HEAD is a full branch name. -/
theorem RefsClosed.symbolic {P : Oid → Prop} {refs : RefStore} (h : RefsClosed P refs) {name : String}
    (hr : refs.readHead = .ok (.symbolic name)) : FullBranchName name := by
  obtain ⟨text, hf, ht⟩ := readHead_symbolic hr
  exact (h.head text hf).symbolic ht

/-- A full branch name resolves to a commit that satisfies the invariant. -/
theorem RefsClosed.resolve {P : Oid → Prop} {refs : RefStore} (h : RefsClosed P refs) {name : String}
    (hname : FullBranchName name) {objects : List Oid} {o : Oid} (hr : refs.resolve objects name = .ok o) : P o := by
  obtain ⟨n, hn, rfl⟩ := hname
  obtain ⟨text, hf, ho⟩ := resolve_full hn hr
  obtain ⟨_, o', -, -, rfl, hP⟩ := h.heads [n] text hf
  rw [trimmed_line, Oid.parse_toString] at ho
  cases ho
  exact hP

/-! ### Writes -/

/-- What a write must be for the invariant to survive it. -/
def WriteSafe (r : Repo) : Write → Prop
  | .object oid obj => ∀ c, obj.asCommit = .ok c → CommitComplete (Repo.putObject r.objects oid obj) c
  | .refUpdate refName _ desired => FlatRef refName ∧ StoredCommit r.objects desired
  | .journalBegin rec => RecordClosed (StoredCommit r.objects) rec
  | .journalCommit _ => True
  | .headSymbolic refName => FullBranchName refName
  | .headDetached _ => True

theorem Closed.write {r : Repo} (h : Closed r) {w : Write} (hw : WriteSafe r w) : Closed (r.write w).1 := by
  cases w with
  | object oid obj =>
    have hx : ∀ o, StoredCommit r.objects o → StoredCommit (Repo.putObject r.objects oid obj) o :=
      fun o ho => ho.mono (putObject_extends r.objects oid obj)
    exact ⟨h.objects.put hw, h.refs.mono hx, fun rec hrec => (h.pending rec hrec).mono hx⟩
  | refUpdate refName expected desired => exact ⟨h.objects, h.refs.update hw.1 expected hw.2, h.pending⟩
  | journalBegin rec =>
    refine ⟨h.objects, h.refs, fun rec' hrec' => ?_⟩
    rcases Journal.pending_begin hrec' with rfl | hrec'
    · exact hw
    · exact h.pending rec' hrec'
  | journalCommit seq => exact ⟨h.objects, h.refs, fun rec hrec => h.pending rec (Journal.pending_commit hrec)⟩
  | headSymbolic refName =>
    obtain ⟨n, hn, rfl⟩ := hw
    refine ⟨h.objects, h.refs.writeHead (.inl ⟨n, hn, ?_⟩), h.pending⟩
    rw [← String.toList_inj]
    simp
  | headDetached oid => exact ⟨h.objects, h.refs.writeHead (.inr ⟨oid, rfl⟩), h.pending⟩

/-- Each write is safe in the state the ones before it leave. -/
def WritesSafe : Repo → List Write → Prop
  | _, [] => True
  | r, w :: rest => WriteSafe r w ∧ WritesSafe (r.write w).1 rest

/-- However far the writes get. -/
theorem Closed.writes {ws : List Write} : ∀ {r : Repo} (k : Nat), Closed r → WritesSafe r ws → Closed (r.writes k ws) := by
  induction ws with
  | nil =>
    intro r k h _
    cases k <;> exact h
  | cons w rest ih =>
    intro r k h hw
    cases k with
    | zero => exact h
    | succ k =>
      have hstep := h.write hw.1
      have hrest := hw.2
      unfold Repo.writes
      split
      · next r' hr =>
        rw [hr] at hstep hrest
        exact ih k hstep hrest
      · next r' hr =>
        rw [hr] at hstep
        exact hstep

/-! ### Collisions -/

/-- The store has `obj` at `oid`, or a command puts it there. -/
def Held (r : Repo) (ws : List Write) (oid : Oid) (obj : StoredObject) : Prop :=
  r.objects.get? oid = some obj ∨ .object oid obj ∈ ws

/-- No two objects at hand share an address. -/
def NoCollision (r : Repo) (ws : List Write) : Prop := ∀ oid a b, Held r ws oid a → Held r ws oid b → a = b

section
variable {H : Oid → StoredObject → Prop} {objects : ObjectMap} {oid : Oid} {obj : StoredObject}

/-- Putting one of the objects at hand: it is there afterwards, and nothing else is. -/
theorem put_held (hH : ∀ oid a b, H oid a → H oid b → a = b) (hsub : ∀ o a, objects.get? o = some a → H o a)
    (hobj : H oid obj) : (Repo.putObject objects oid obj).get? oid = some obj ∧
      ∀ o a, (Repo.putObject objects oid obj).get? o = some a → H o a := by
  refine ⟨putObject_self fun old hold => hH oid old obj (hsub oid old hold) hobj, fun o a ha => ?_⟩
  rcases putObject_cases ha with ha | ⟨rfl, rfl⟩
  · exact hsub o a ha
  · exact hobj

/-- Blobs are always safe to write, and are there for what follows. -/
theorem writesSafe_blobs (hH : ∀ oid a b, H oid a → H oid b → a = b) {rest : List Write} : ∀ (oids : List Oid) (r : Repo),
    (∀ o a, r.objects.get? o = some a → H o a) → (∀ o ∈ oids, H o blobObject) →
    (∀ objects, Extends r.objects objects → (∀ o a, objects.get? o = some a → H o a) →
      (∀ o ∈ oids, objects.get? o = some blobObject) → WritesSafe { r with objects } rest) →
    WritesSafe r (oids.map (fun o => .object o blobObject) ++ rest) := by
  intro oids
  induction oids with
  | nil => exact fun r hsub _ hrest => hrest r.objects (fun _ _ h => h) hsub nofun
  | cons x xs ih =>
    intro r hsub hheld hrest
    refine ⟨nofun, ih _ ?_ (fun o ho => hheld o (List.mem_cons_of_mem _ ho)) fun objects hx hsub' hpresent => ?_⟩
    · exact (put_held hH hsub (hheld x List.mem_cons_self)).2
    · refine hrest objects (Extends.trans (putObject_extends _ _ _) hx) hsub' fun o ho => ?_
      rcases List.mem_cons.mp ho with rfl | ho
      · exact hx _ _ (put_held hH hsub (hheld _ List.mem_cons_self)).1
      · exact hpresent o ho

/-- A complete commit is safe to write. -/
theorem writeSafe_commit {r : Repo} {c : Commit} {hp : c.parents.length ≤ 2} (h : CommitComplete r.objects c) :
    WriteSafe r (.object oid (commitObject c hp)) := by
  intro c' hc'
  cases hc'
  exact h.mono (putObject_extends _ _ _)

end

/-! ### Commands -/

theorem blobWrites_eq (i : CommitInput blake3) : i.blobWrites =
    (((ObjectKind.header, i.header) :: i.blocks).map fun b => computeOid blake3 b.1 b.2).map
      fun o => .object o blobObject := by
  rw [List.map_map]
  rfl

/-- What the manifest of a commit names has been put. -/
theorem manifestObjects_put (i : CommitInput blake3) {o : Oid} (ho : o ∈ manifestObjects i.manifest) :
    o ∈ ((ObjectKind.header, i.header) :: i.blocks).map fun b => computeOid blake3 b.1 b.2 := by
  rcases List.mem_cons.mp ho with rfl | ho
  · exact List.mem_cons_self
  · obtain ⟨⟨name, g⟩, hg, ho⟩ := List.mem_flatMap.mp ho
    obtain ⟨b, hb, rfl⟩ := i.stored name g hg o ho
    exact List.mem_cons_of_mem _ (List.mem_map.mpr ⟨b, hb, rfl⟩)

theorem parentOf_stored {r : Repo} (h : Closed r) {refName : String} (hname : FullBranchName refName)
    {parent : Option Oid} (hp : parentOf r refName = .ok parent) : ∀ p ∈ parent.toList, StoredCommit r.objects p := by
  intro p hmem
  unfold parentOf at hp
  split at hp
  · next tip htip =>
    cases hp
    rw [List.mem_singleton.mp hmem]
    exact h.refs.resolve hname htip
  · split at hp
    · cases hp
      cases hmem
    · cases hp
  · cases hp

theorem advance_safe {r : Repo} (i : CommitInput blake3) {refName : String} {parent : Option Oid}
    {H : Oid → StoredObject → Prop} (hH : ∀ oid a b, H oid a → H oid b → a = b)
    (hsub : ∀ o a, r.objects.get? o = some a → H o a)
    (hheld : ∀ oid obj, .object oid obj ∈ i.advanceWrites json refName parent → H oid obj)
    (hblobs : ∀ o ∈ manifestObjects i.manifest, r.objects.get? o = some blobObject) (hname : FullBranchName refName)
    (hparent : ∀ p ∈ parent.toList, StoredCommit r.objects p) :
    WritesSafe r (i.advanceWrites json refName parent) := by
  obtain ⟨hm, hsub₁⟩ := put_held hH hsub (hheld _ _ List.mem_cons_self)
  obtain ⟨ht, hsub₂⟩ := put_held hH hsub₁ (hheld _ _ (List.mem_cons_of_mem _ List.mem_cons_self))
  obtain ⟨hc, -⟩ := put_held hH hsub₂ (hheld _ _ (List.mem_cons_of_mem _ (List.mem_cons_of_mem _ List.mem_cons_self)))
  have hx := Extends.trans (putObject_extends r.objects (i.manifest.oid json blake3) (manifestObject i.manifest))
    (putObject_extends _ (computeOid blake3 .topology i.topologyBytes) blobObject)
  refine ⟨nofun, nofun, writeSafe_commit ⟨fun p hp => (hparent p hp).mono hx, ⟨i.manifest, ?_, ?_⟩, ht⟩,
    ⟨hname.flat, StoredCommit.of_get hc⟩, trivial⟩
  · exact putObject_extends _ _ _ _ _ hm
  · exact fun o ho => hx o _ (hblobs o ho)

theorem runCommit_safe {r : Repo} (h : Closed r) {i : CommitInput blake3} {ws : List Write}
    (hrun : runCommit json blake3 r i = .ok ws) (hcol : NoCollision r ws) : WritesSafe r ws := by
  have hsub : ∀ o a, r.objects.get? o = some a → Held r ws o a := fun o a ha => .inl ha
  unfold runCommit at hrun
  obtain ⟨head, hhead, hrun⟩ := bind_eq_ok.mp hrun
  cases head with
  | detached o =>
    cases hrun
    trivial
  | symbolic refName =>
    have hname := h.refs.symbolic hhead
    obtain ⟨parent, hparent, hrun⟩ := bind_eq_ok.mp hrun
    split at hrun
    · cases hrun
      exact ⟨nofun, trivial⟩
    · split at hrun
      · cases hrun
        rw [← List.append_nil i.blobWrites, blobWrites_eq] at hcol ⊢
        refine writesSafe_blobs hcol _ r (fun o a ha => .inl ha) (fun o ho => .inr ?_) fun _ _ _ _ => trivial
        exact List.mem_append_left _ (List.mem_map.mpr ⟨o, ho, rfl⟩)
      · cases hrun
        rw [blobWrites_eq] at hcol ⊢
        refine writesSafe_blobs hcol _ r (fun o a ha => .inl ha) (fun o ho => .inr ?_) fun objects hx hsub hb => ?_
        · exact List.mem_append_left _ (List.mem_map.mpr ⟨o, ho, rfl⟩)
        · refine advance_safe i hcol hsub (fun oid obj hmem => .inr (List.mem_append_right _ hmem))
            (fun o ho => hb o (manifestObjects_put i ho)) hname fun p hp => ?_
          exact (parentOf_stored h hname hparent p hp).mono hx

/-- A commit that has a proper descendant in the store is read from it. -/
theorem Ancestor.stored_of_ne {objects : ObjectMap} {a b : Oid} (h : Ancestor objects.commits a b) (hne : b ≠ a) :
    StoredCommit objects a := by
  rcases Relation.ReflTransGen.cases_head h with he | ⟨x, ⟨c, hc, -⟩, -⟩
  · exact absurd he.symm hne
  · exact ⟨c, hc⟩

/-- The groups of a merged manifest are blobs of its two sides. -/
theorem merged_blobs {objects : ObjectMap} (h : ObjectsClosed objects) {strategy : MergeStrategy}
    {ours theirs : Oid} {ourCommit theirCommit : Commit} {base ourManifest theirManifest merged : Manifest}
    (ho : objects.commits.read ours = .ok ourCommit) (ht : objects.commits.read theirs = .ok theirCommit)
    (hom : objects.manifests.read ourCommit.manifest = .ok ourManifest)
    (htm : objects.manifests.read theirCommit.manifest = .ok theirManifest)
    (hm : MergedFrom strategy base ourManifest theirManifest merged) :
    ∀ o ∈ manifestObjects merged, objects.get? o = some blobObject := by
  have hside : ∀ {v : Oid} {c : Commit} {m : Manifest}, objects.commits.read v = .ok c →
      objects.manifests.read c.manifest = .ok m → ∀ o ∈ manifestObjects m, objects.get? o = some blobObject := by
    intro v c m hc hread o ho
    obtain ⟨m', hm', hb⟩ := (h v c hc).manifest
    cases hread.symm.trans (readManifest_of_get hm')
    exact hb o ho
  intro o hmem
  rcases List.mem_cons.mp hmem with rfl | hmem
  · rw [hm.file_eq]
    exact hside ho hom _ List.mem_cons_self
  · obtain ⟨⟨name, g⟩, hg, hog⟩ := List.mem_flatMap.mp hmem
    rcases hm.group_of_side (FinMap.get?_eq_some.mpr hg) with hs | hs
    · exact hside ho hom o (List.mem_cons_of_mem _ (List.mem_flatMap.mpr ⟨_, FinMap.get?_eq_some.mp hs, hog⟩))
    · exact hside ht htm o (List.mem_cons_of_mem _ (List.mem_flatMap.mpr ⟨_, FinMap.get?_eq_some.mp hs, hog⟩))

theorem mergeWrites_safe {r : Repo} (i : MergeInput) {refName : String} {ours theirs : Oid} {ourCommit : Commit}
    {merged : Manifest} (hcol : NoCollision r (i.mergeWrites json blake3 refName ours theirs ourCommit merged))
    (hblobs : ∀ o ∈ manifestObjects merged, r.objects.get? o = some blobObject) (hname : FullBranchName refName)
    (hours : StoredCommit r.objects ours) (htheirs : StoredCommit r.objects theirs)
    (htopo : r.objects.get? ourCommit.topology = some blobObject) :
    WritesSafe r (i.mergeWrites json blake3 refName ours theirs ourCommit merged) := by
  obtain ⟨hm, hsub⟩ := put_held hcol (fun o a ha => .inl ha) (.inr List.mem_cons_self)
  obtain ⟨hc, -⟩ := put_held hcol hsub (.inr (List.mem_cons_of_mem _ List.mem_cons_self))
  have hx := putObject_extends r.objects (merged.oid json blake3) (manifestObject merged)
  have hcomplete : CommitComplete (Repo.putObject r.objects (merged.oid json blake3) (manifestObject merged))
      (i.commit json blake3 refName ours theirs ourCommit merged) := by
    refine ⟨fun p hp => ?_, ⟨merged, hm, fun o ho => hx o _ (hblobs o ho)⟩, hx _ _ htopo⟩
    rcases List.mem_cons.mp hp with rfl | hp
    · exact hours.mono hx
    · rw [List.mem_singleton.mp hp]
      exact htheirs.mono hx
  have hnew := StoredCommit.of_get hc
  refine ⟨nofun, writeSafe_commit hcomplete, ⟨hname, fun o ho => ?_⟩, ⟨hname.flat, hnew⟩, trivial, trivial⟩
  cases ho
  exact hnew

theorem runMerge_safe {r : Repo} (h : Closed r) {i : MergeInput} {ws : List Write}
    (hrun : runMerge json blake3 r i = .ok ws) (hcol : NoCollision r ws) : WritesSafe r ws := by
  unfold runMerge at hrun
  split at hrun
  · cases hrun
    trivial
  · obtain ⟨head, hhead, hrun⟩ := bind_eq_ok.mp hrun
    cases head with
    | detached o =>
      cases hrun
      trivial
    | symbolic refName =>
      have hname := h.refs.symbolic hhead
      simp only [bind_eq_ok] at hrun
      obtain ⟨ours, hours, theirs, -, plan, hplan, hrun⟩ := hrun
      have hostored := h.refs.resolve hname hours
      split at hrun
      · cases hrun
        trivial
      · cases planMerge_cases hplan with
        | fastForward hff hm target htarget hcase =>
          rw [if_pos hff, htarget] at hrun
          cases hrun
          split
          · trivial
          · refine ⟨⟨hname.flat, ?_⟩, trivial⟩
            rcases hcase with rfl | ⟨rfl, hne, hanc⟩
            · exact hostored
            · exact hanc.stored_of_ne hne
        | conflicted hff hm =>
          rw [if_neg (by simp [hff]), hm] at hrun
          cases hrun
          trivial
        | merged hff ho ht hom htm hm hmerged =>
          rw [if_neg (by simp [hff]), hm] at hrun
          obtain ⟨c, hc, hrun⟩ := bind_eq_ok.mp hrun
          cases hrun
          cases ho.symm.trans hc
          exact mergeWrites_safe i hcol (merged_blobs h.objects ho ht hom htm hmerged) hname hostored ⟨_, ht⟩
            (h.objects _ _ ho).topology

theorem runCheckout_safe {r : Repo} (h : Closed r) {revision : String} {ws : List Write}
    (hrun : runCheckout r revision = .ok ws) : WritesSafe r ws := by
  unfold runCheckout at hrun
  split at hrun
  · next hany =>
    obtain ⟨_, -, hrun⟩ := bind_eq_ok.mp hrun
    cases hrun
    obtain ⟨head, hmem, hname⟩ := List.any_eq_true.mp hany
    obtain ⟨⟨name, node⟩, hchild, hhead⟩ := List.mem_filterMap.mp hmem
    obtain ⟨n, hn, he⟩ : ∃ n, FlatName n ∧ head.name = n := by
      cases node with
      | dir => cases hhead
      | file text =>
        obtain ⟨n, o, hq, hn, -, -⟩ := h.refs.heads [name] text (FileTree.mem_children.mp hchild)
        cases hq
        dsimp only at hhead
        split at hhead
        · cases hhead
          exact ⟨name, hn, rfl⟩
        · cases hhead
    refine ⟨⟨revision, ?_, rfl⟩, trivial⟩
    rcases of_decide_eq_true hname with hfull | hshort
    · -- A file name has no slash, so it is not a full branch name.
      refine absurd ?_ hn.1.2.2.2
      rw [← he, hfull, String.toList_append]
      exact List.mem_append_left _ (by decide)
    · rw [← hshort, he]
      exact hn
  · obtain ⟨_, -, hrun⟩ := bind_eq_ok.mp hrun
    cases hrun
    exact ⟨trivial, trivial⟩

/-! ### gc and recovery -/

/-- Every pending record names a commit that a tip reaches. -/
def PendingReachable (r : Repo) : Prop :=
  ∀ rec ∈ r.journal.pending, ∀ o, rec.refNew = some o → Reachable r.objects.commits (gcTips r.refs) o

theorem mem_gcTips_head {refs : RefStore} {P : Oid → Prop} (h : RefsClosed P refs) {q : Path} {text : String}
    (hf : refs.tree.nodes.get? (refs.refsHeads ++ q) = some (.file text)) :
    ∃ n o, q = [n] ∧ FlatName n ∧ text = o.toString ++ "\n" ∧ o ∈ gcTips refs := by
  obtain ⟨n, o, rfl, hn, rfl, -⟩ := h.heads q text hf
  refine ⟨n, o, rfl, hn, rfl, List.mem_append_left _ (List.mem_map.mpr ⟨⟨n, o⟩, ?_, rfl⟩)⟩
  exact mem_listHeads hf (by rw [trimmed_line, Oid.parse_toString])

/-- What stays after a prune is closed, and has every commit the tips reach. -/
theorem ObjectsClosed.prune {objects : ObjectMap} (h : ObjectsClosed objects) {tips live : List Oid}
    (hlive : reachableObjects objects.commits objects.manifests tips = .ok live) :
    ObjectsClosed (objects.filterKeys fun o => o ∈ live) ∧
      ∀ v, Reachable objects.commits tips v → StoredCommit (objects.filterKeys fun o => o ∈ live) v := by
  obtain ⟨hmem, hread⟩ := reachableObjects_spec hlive
  have hget : ∀ o, (objects.filterKeys fun o => o ∈ live).get? o = if o ∈ live then objects.get? o else none := by
    intro o
    rw [FinMap.get?_filterKeys]
    by_cases ho : o ∈ live <;> simp [ho]
  have hkeep : ∀ {kind o}, Referenced objects.commits objects.manifests tips kind o →
      (objects.filterKeys fun o => o ∈ live).get? o = objects.get? o := by
    intro kind o ho
    rw [hget, if_pos ((hmem o).mpr ⟨kind, ho⟩)]
  have htips : ∀ t ∈ tips, StoredCommit objects t := by
    intro t ht
    obtain ⟨c, -, hc, -⟩ := hread t ⟨t, ht, Relation.ReflTransGen.refl⟩
    exact ⟨c, hc⟩
  have hstored : ∀ v, Reachable objects.commits tips v → StoredCommit (objects.filterKeys fun o => o ∈ live) v := by
    intro v hv
    obtain ⟨c, hc⟩ := h.reachable htips hv
    obtain ⟨obj, hobj, hc⟩ := readCommit_iff.mp hc
    exact ⟨c, readCommit_iff.mpr ⟨obj, (hkeep (.commit hv)).trans hobj, hc⟩⟩
  refine ⟨fun o c hc => ?_, hstored⟩
  obtain ⟨obj, hobj, hcommit⟩ := readCommit_iff.mp hc
  rw [hget] at hobj
  split at hobj
  · next hl =>
    have hc := readCommit_iff.mpr ⟨obj, hobj, hcommit⟩
    obtain ⟨kind, href⟩ := (hmem o).mp hl
    -- A live object that reads as a commit is live as one.
    have hv : Reachable objects.commits tips o := by
      rcases h.referenced htips href with ⟨hv, -⟩ | ⟨m, hm⟩ | hb
      · exact hv
      · cases hobj.symm.trans hm
        cases hcommit
      · cases hobj.symm.trans hb
        cases hcommit
    obtain ⟨m, hm, hblobs⟩ := (h o c hc).manifest
    have hread := readManifest_of_get hm
    refine ⟨fun p hp => hstored p (hv.parent hc hp), ⟨m, (hkeep (.manifest hv hc)).trans hm, fun x hx => ?_⟩,
      (hkeep (.topology hv hc)).trans (h o c hc).topology⟩
    obtain ⟨kind, hx'⟩ := referenced_of_addedBy hv ⟨c, m, hc, hread, .inr (.inr (.inr hx))⟩
    exact (hkeep hx').trans (hblobs x hx)
  · cases hobj

theorem Closed.gc {r : Repo} (h : Closed r) {env : GcEnv} {size : StoredObject → Nat} {opts : GcOptions}
    {report : GcReport} {objects : ObjectMap}
    (hgc : SynapseFs.Store.gc env r.objects.commits r.objects.manifests r.refs size r.objects opts =
      .ok (report, objects))
    (hpend : opts.prune = true → opts.dryRun = false → PendingReachable r) : Closed { r with objects } := by
  rcases gc_objects hgc with rfl | ⟨live, hprune, hdry, hlive, rfl⟩
  · exact h
  · obtain ⟨hclosed, hstored⟩ := h.objects.prune hlive
    refine ⟨hclosed, ⟨h.refs.dir, fun q text hf => ?_, h.refs.head⟩, fun rec hrec => ⟨(h.pending rec hrec).1, ?_⟩⟩
    · obtain ⟨n, o, hq, hn, ht, htip⟩ := mem_gcTips_head h.refs hf
      exact ⟨n, o, hq, hn, ht, hstored o ⟨o, htip, Relation.ReflTransGen.refl⟩⟩
    · exact fun o ho => hstored o (hpend hprune hdry rec hrec o ho)

theorem Closed.recover {r : Repo} (h : Closed r) :
    Closed { r with
      journal := (r.journal.recover r.objects.keys r.refs).1.1
      refs := (r.journal.recover r.objects.keys r.refs).1.2 } := by
  obtain ⟨hrefs, hpending⟩ := Journal.recover_run (I := RefsClosed (StoredCommit r.objects)) (j := r.journal)
    r.objects.keys (fun refs rec new hrefs hrec _ hnew =>
      hrefs.update (h.pending rec hrec).1.flat rec.refOld ((h.pending rec hrec).2 new hnew)) h.refs
  exact ⟨h.objects, hrefs, fun rec hrec => h.pending rec (hpending rec hrec)⟩

/-! ### Runs -/

/-- Under what a step keeps every branch complete: objects do not collide, a new
branch is a flat name at a stored commit, and gc does not prune what a pending
record still needs. -/
def Action.Safe (json : JsonLib) (r : Repo) : Action blake3 → Prop
  | .branch name startPoint => FlatRef name ∧ ∀ o, branchStart r startPoint = .ok o → StoredCommit r.objects o
  | .gc _ _ opts => opts.prune = true → opts.dryRun = false → PendingReachable r
  | a => NoCollision r (a.writes json r)

theorem toOption_cases {α : Type} {P : List α → Prop} {x : Outcome (List α)} (hnil : P [])
    (hok : ∀ l, x = .ok l → P l) : P (x.toOption.getD []) := by
  cases x with
  | error e => exact hnil
  | ok l => exact hok l rfl

theorem Closed.step {r : Repo} (h : Closed r) {a : Action blake3} (ha : a.Safe json r) (k : Nat) :
    Closed (r.step json a k) := by
  cases a with
  | commit i =>
    refine h.writes k ?_
    revert ha
    exact toOption_cases (P := fun ws => NoCollision r ws → WritesSafe r ws) (fun _ => trivial)
      fun ws hrun hcol => runCommit_safe h hrun hcol
  | merge i =>
    refine h.writes k ?_
    revert ha
    exact toOption_cases (P := fun ws => NoCollision r ws → WritesSafe r ws) (fun _ => trivial)
      fun ws hrun hcol => runMerge_safe h hrun hcol
  | branch name startPoint =>
    refine h.writes k (toOption_cases (P := WritesSafe r) trivial fun ws hrun => ?_)
    obtain ⟨start, hstart, hrun⟩ := bind_eq_ok.mp hrun
    cases hrun
    exact ⟨⟨ha.1, ha.2 start hstart⟩, trivial⟩
  | checkout revision =>
    exact h.writes k (toOption_cases (P := WritesSafe r) trivial fun ws hrun => runCheckout_safe h hrun)
  | gc env size opts =>
    unfold Repo.step
    dsimp only
    split
    · next hgc => exact h.gc hgc ha
    · exact h
  | recover => exact h.recover

/-- The states that steps allowed by `C` lead to, each cut short anywhere. -/
inductive Run (json : JsonLib) (C : Repo → Action blake3 → Prop) (start : Repo) : Repo → Prop where
  | start : Run json C start start
  | step {r : Repo} (a : Action blake3) (k : Nat) (h : Run json C start r) (ha : C r a) :
    Run json C start (r.step json a k)

theorem closed_init (dot : Path) (hdot : ∀ c ∈ dot, PlainName c) : Closed (Repo.init dot hdot) := by
  have hfile : ∀ p text, (Repo.init dot hdot).refs.tree.nodes.get? p = some (.file text) ↔
      (p, text) ∈ [(dot ++ ["HEAD"], "ref: refs/heads/main\n")] := by
    intro p text
    unfold Repo.init
    dsimp only
    rw [FileTree.ofLists_file]
  refine ⟨fun o c hc => ?_, ⟨?_, fun q text hf => ?_, fun text hf => ?_⟩, nofun⟩
  · obtain ⟨obj, hobj, -⟩ := readCommit_iff.mp hc
    cases hobj
  · unfold Repo.init refsHeads
    dsimp only
    rw [FileTree.ofLists_dir (t := dot ++ ["refs", "heads"])]
    · exact List.mem_cons_of_mem _ List.mem_cons_self
    · exact List.prefix_rfl
  · have := (hfile _ _).mp hf
    simp [refsHeads, Repo.init] at this
  · have := (hfile _ _).mp hf
    rw [List.mem_singleton] at this
    cases this
    exact .inl ⟨"main", ⟨by decide, by simp⟩, by decide⟩

theorem closed_of_run {start r : Repo} (h : Run json (Action.Safe json : Repo → Action blake3 → Prop) start r) (hs : Closed start) :
    Closed r := by
  induction h with
  | start => exact hs
  | step a k _ ha ih => exact ih.step ha k

/-- Every file under `refs/heads` names a commit that is in the store with
everything reachable from it. -/
def BranchesComplete (r : Repo) : Prop :=
  ∀ q text, r.refs.tree.nodes.get? (r.refs.refsHeads ++ q) = some (.file text) →
    ∃ o c objs, Oid.parse (trimmed text) = .ok o ∧ r.objects.commits.read o = .ok c ∧
      reachableObjects r.objects.commits r.objects.manifests [o] = .ok objs ∧ ∀ x ∈ objs, ∃ obj, r.objects.get? x = some obj

theorem Closed.branchesComplete {r : Repo} (h : Closed r) : BranchesComplete r := by
  intro q text hf
  obtain ⟨n, o, -, -, rfl, c, hc⟩ := h.refs.heads q text hf
  have htips : ∀ t ∈ [o], StoredCommit r.objects t := fun t ht => List.mem_singleton.mp ht ▸ ⟨c, hc⟩
  obtain ⟨objs, hobjs⟩ := h.objects.lists htips
  refine ⟨o, c, objs, by rw [trimmed_line, Oid.parse_toString], hc, hobjs, fun x hx => ?_⟩
  obtain ⟨kind, href⟩ := ((reachableObjects_spec hobjs).1 x).mp hx
  rcases h.objects.referenced htips href with ⟨-, c', hc'⟩ | ⟨m, hm⟩ | hb
  · obtain ⟨obj, hobj, -⟩ := readCommit_iff.mp hc'
    exact ⟨obj, hobj⟩
  · exact ⟨_, hm⟩
  · exact ⟨_, hb⟩

/-- From an empty repository, through any commands cut short anywhere. -/
theorem branchesComplete_of_run (json : JsonLib) (blake3 : Bytes → Oid) (dot : Path) (hdot : ∀ c ∈ dot, PlainName c)
    (r : Repo) (h : Run json (Action.Safe json : Repo → Action blake3 → Prop) (Repo.init dot hdot) r) : BranchesComplete r :=
  (closed_of_run h (closed_init dot hdot)).branchesComplete


/-! ### A crashed merge, gc, recovery

Two branches diverge; the merge of one into the other crashes once its record is
written; gc prunes; recovery replays the record. -/

/-- Stands in for the two libraries: commits are told apart by their messages. -/
def crashJson : JsonLib where
  dump j :=
    match j.atKey "message" with
    | .ok (.str s) => ascii s.toList
    | _ => []
  parse _ := .error "parse error"

def crashHash (b : Bytes) : Oid := ⟨storeLe 32 (b.foldl (fun n x => n * 257 + x.toNat + 1) 0), length_storeLe _ _⟩

/-- A checkpoint of one tensor of one byte. -/
def crashInput (message : String) : CommitInput crashHash where
  header := [2, 0, 0, 0, 0, 0, 0, 0, 123, 125]
  fileName := "m.safetensors"
  totalBytes := 11
  sha256 := ""
  buffer := [{ tensor := "t", off := 10, nbytes := 1, group := "t" }]
  blocks := [(.raw, [7])]
  groups := FinMap.empty.insert "t"
    { mode := .full, block := some (computeOid crashHash .raw [7]), base := none, diffBlock := none, chainDepth := 0 }
  stored := by
    intro name g hg o ho
    cases List.mem_singleton.mp hg
    cases List.mem_singleton.mp ho
    exact ⟨_, List.mem_singleton_self _, rfl⟩
  topology := []
  noAlign := false
  timestamp := "2025-01-01T00:00:00Z"
  author := ""
  message := message

def crashStart : Repo := Repo.init [".synapsefs"] (by decide)

/-- Each command with the number of its writes that are made. -/
def crashSteps : List (Action crashHash × Nat) :=
  [(.commit (crashInput "a"), 6), (.branch "dev" "", 1), (.commit (crashInput "b"), 6), (.checkout "dev", 1),
   (.commit (crashInput "c"), 6), (.merge ⟨"main", false, false, "2025-01-01T00:00:00Z", "", ""⟩, 3),
   (.gc ⟨.ok (), .ok false, []⟩ (fun _ => 0) ⟨true, false⟩, 0), (.recover, 0)]

def crashEnd : Repo := crashSteps.foldl (fun r s => r.step crashJson s.1 s.2) crashStart

theorem run_foldl {start : Repo} (steps : List (Action blake3 × Nat)) : ∀ {r : Repo},
    Run json (fun _ (_ : Action blake3) => True) start r →
      Run json (fun _ (_ : Action blake3) => True) start (steps.foldl (fun r s => r.step json s.1 s.2) r) := by
  induction steps with
  | nil => exact fun h => h
  | cons s rest ih => exact fun h => ih (.step s.1 s.2 h trivial)

/-- The branch `dev` names a commit that is not in the store. -/
theorem crashEnd_dangles : ∃ o : Oid, crashEnd.refs.tree.nodes.get? (crashEnd.refs.refsHeads ++ ["dev"]) =
    some (.file (o.toString ++ "\n")) ∧ (crashEnd.objects.get? o).isNone = true :=
  ⟨crashHash (ascii "synapsefs.commit 30".toList ++ 0 :: ascii "Merge main into refs/heads/dev".toList),
    by decide +kernel⟩

theorem recover_installs_pruned_commit : ¬ ∀ (json : JsonLib) (blake3 : Bytes → Oid) (dot : Path)
    (hdot : ∀ c ∈ dot, PlainName c) (r : Repo),
    Run json (fun _ (_ : Action blake3) => True) (Repo.init dot hdot) r → BranchesComplete r := by
  intro h
  obtain ⟨o, hfile, hgone⟩ := crashEnd_dangles
  have hrun : Run crashJson (fun _ (_ : Action crashHash) => True) crashStart crashEnd := run_foldl crashSteps .start
  obtain ⟨o', c, -, ho', hc, -⟩ := h crashJson crashHash [".synapsefs"] _ crashEnd hrun ["dev"] _ hfile
  rw [trimmed_line, Oid.parse_toString] at ho'
  cases ho'
  obtain ⟨obj, hobj, -⟩ := readCommit_iff.mp hc
  rw [hobj] at hgone
  cases hgone

theorem runCommit_root {r : Repo} {i : CommitInput blake3} {refName : String}
    (hhead : r.refs.readHead = .ok (.symbolic refName)) (hparent : parentOf r refName = .ok none)
    (hvalid : i.manifest.validate = .ok ()) :
    runCommit json blake3 r i = .ok (i.blobWrites ++ i.advanceWrites json refName none) := by
  simp only [runCommit, hhead, hparent, readsParent, hvalid, bind, Except.bind, pure, Except.pure]

/-- A first commit collides with nothing when its manifest and its commit have
addresses of their own. -/
theorem noCollision_root {r : Repo} (i : CommitInput blake3) (refName : String) (hempty : ∀ o, r.objects.get? o = none)
    (hmc : i.manifest.oid json blake3 ≠ (i.commit json none).oid json blake3)
    (hblob : ∀ b ∈ (ObjectKind.header, i.header) :: (.topology, i.topologyBytes) :: i.blocks,
      computeOid blake3 b.1 b.2 ≠ i.manifest.oid json blake3 ∧
        computeOid blake3 b.1 b.2 ≠ (i.commit json none).oid json blake3) :
    NoCollision r (i.blobWrites ++ i.advanceWrites json refName none) := by
  have hobj : ∀ oid x, Held r (i.blobWrites ++ i.advanceWrites json refName none) oid x →
      (x = blobObject ∧ oid ≠ i.manifest.oid json blake3 ∧ oid ≠ (i.commit json none).oid json blake3) ∨
      (x = manifestObject i.manifest ∧ oid = i.manifest.oid json blake3) ∨
      (x = commitObject (i.commit json none) (i.commit_parents json none) ∧
        oid = (i.commit json none).oid json blake3) := by
    intro oid x hx
    rcases hx with hx | hx
    · rw [hempty] at hx
      cases hx
    · rcases List.mem_append.mp hx with hx | hx
      · obtain ⟨b, hb, he⟩ := List.mem_map.mp hx
        cases he
        refine .inl ⟨rfl, hblob b ?_⟩
        rcases List.mem_cons.mp hb with rfl | hb
        · exact List.mem_cons_self
        · exact List.mem_cons_of_mem _ (List.mem_cons_of_mem _ hb)
      · simp only [CommitInput.advanceWrites, List.mem_cons, Write.object.injEq, reduceCtorEq, List.not_mem_nil,
          or_false] at hx
        rcases hx with ⟨rfl, rfl⟩ | ⟨rfl, rfl⟩ | ⟨rfl, rfl⟩
        · exact .inr (.inl ⟨rfl, rfl⟩)
        · exact .inl ⟨rfl, hblob (.topology, i.topologyBytes) (List.mem_cons_of_mem _ List.mem_cons_self)⟩
        · exact .inr (.inr ⟨rfl, rfl⟩)
  intro oid a b ha hb
  rcases hobj oid a ha with ⟨rfl, h⟩ | ⟨rfl, h⟩ | ⟨rfl, h⟩ <;> rcases hobj oid b hb with ⟨rfl, h'⟩ | ⟨rfl, h'⟩ | ⟨rfl, h'⟩
  · rfl
  · exact absurd h' h.1
  · exact absurd h' h.2
  · exact absurd h h'.1
  · rfl
  · exact absurd (h.symm.trans h') hmc
  · exact absurd h h'.2
  · exact absurd (h'.symm.trans h) hmc
  · rfl

theorem crashInput_safe : Action.Safe crashJson crashStart (.commit (crashInput "a")) := by
  have hrun : runCommit crashJson crashHash crashStart (crashInput "a") = .ok ((crashInput "a").blobWrites ++
      (crashInput "a").advanceWrites crashJson "refs/heads/main" none) :=
    runCommit_root (by decide +kernel) (by decide +kernel) (by decide)
  show NoCollision crashStart ((runCommit crashJson crashHash crashStart (crashInput "a")).toOption.getD [])
  rw [hrun]
  exact noCollision_root (crashInput "a") "refs/heads/main" (fun _ => rfl) (by decide +kernel) (by decide +kernel)

theorem branchesComplete_after_commit :
    BranchesComplete (crashStart.step crashJson (.commit (crashInput "a")) 6) :=
  branchesComplete_of_run crashJson crashHash [".synapsefs"] (by decide) _
    (.step (.commit (crashInput "a")) 6 .start crashInput_safe)

end SynapseFs.Store
