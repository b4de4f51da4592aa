import SynapseFs.Store.Closure
import SynapseFs.Store.RefRaces

/-! Recovery after a crash, whatever happened in between.

`merge` always writes record number 0, so there is at most one record, and a
later merge that gets as far as its own record replaces the one a crash left. A
run here is commands that are cut short anywhere, branch moves and deletions of
any kind, and recoveries that are themselves cut short; what a recovery does is
said of every state such a run leads to. -/
namespace SynapseFs.Store
open Lib Core Format

variable {json : JsonLib} {blake3 : Bytes → Oid}

/-! ### Recovery that is cut short -/

namespace Journal

/-- The loop of `recover` up to its `k`-th effect: for each record the update, then the removal of its file. -/
def recoverCut (objects : List Oid) : Nat → Journal → RefStore → List JournalRecord → Journal × RefStore
  | 0, j, refs, _ => (j, refs)
  | _ + 1, j, refs, [] => (j, refs)
  | 1, j, refs, rec :: _ => (j, (replay objects refs rec).1)
  | k + 2, j, refs, rec :: rest =>
    match replay objects refs rec with
    | (refs, .error _) => (j, refs)
    | (refs, .ok ()) => recoverCut objects k (j.commit rec.seq) refs rest

/-- With both effects of every record it is the loop. -/
theorem recoverCut_all (objects : List Oid) (recs : List JournalRecord) : ∀ (k : Nat) (j : Journal) (refs : RefStore),
    2 * recs.length ≤ k → recoverCut objects k j refs recs = (recoverLoop objects j refs recs).1 := by
  induction recs with
  | nil =>
    intro k j refs _
    cases k <;> rfl
  | cons rec rest ih =>
    intro k j refs hk
    rw [List.length_cons] at hk
    obtain ⟨k, rfl⟩ : ∃ k', k = k' + 2 := ⟨k - 2, by omega⟩
    unfold recoverCut recoverLoop
    rcases replay objects refs rec with ⟨refs', failure | _⟩
    · rfl
    · exact ih k _ _ (by omega)

end Journal

/-! ### A compare-and-swap -/

theorem holds_some {node : Option Node} {e : Oid} (h : Holds node (some e)) :
    ∃ text, node = some (.file text) ∧ trimmed text = e.toString := by
  obtain ⟨n, rfl, htext⟩ := h
  cases n with
  | dir =>
    have hparse := Oid.parse_toString e
    rw [← show "" = e.toString from htext] at hparse
    exact absurd hparse RefStore.parse_empty
  | file text => exact ⟨text, rfl, htext⟩

namespace RefStore

/-- The file of `refName` holds `desired` in `r'`, and everything else is as in `r`. -/
def Moved (r : RefStore) (refName : String) (desired : Oid) (r' : RefStore) : Prop :=
  r'.dot = r.dot ∧ ∃ p text, r.tree.find (r.branchRefPath refName) = some (p, .file text) ∧
    ∀ q, r'.tree.nodes.get? q = if q = p then some (.file (desired.toString ++ "\n")) else r.tree.nodes.get? q

/-- An update with an expectation writes over the file that meets it, which cannot
fail, or reports a lost race and writes nothing. -/
theorem update_some (r : RefStore) (refName : String) (e desired : Oid) :
    (Holds (r.node refName) (some e) → (r.update refName (some e) desired).2 = .ok () ∧
      r.Moved refName desired (r.update refName (some e) desired).1) ∧
    (¬Holds (r.node refName) (some e) →
      ∃ what, r.update refName (some e) desired = (r, sfsErr .refRaceLost what refName)) := by
  constructor
  · intro h
    obtain ⟨text, hnode, -⟩ := holds_some h
    obtain ⟨⟨p, n⟩, hfind, rfl⟩ := Option.map_eq_some_iff.mp hnode
    obtain ⟨hok, hget⟩ := FileTree.atomicWrite_over_file (desired.toString ++ "\n") hfind (r.branchRefPath_noslash refName)
    rw [(r.update_holds refName (some e) desired).1 h]
    unfold writeLine
    rcases hw : r.tree.atomicWrite (r.branchRefPath refName) (desired.toString ++ "\n") with ⟨tree, ok⟩
    rw [hw] at hok hget
    cases hok
    exact ⟨rfl, rfl, p, text, hfind, hget⟩
  · intro h
    unfold RefStore.node at h
    unfold update
    cases hfind : r.tree.find (r.branchRefPath refName) with
    | none =>
      simp only [hfind]
      exact ⟨_, rfl⟩
    | some found =>
      obtain ⟨p, n⟩ := found
      rw [hfind] at h
      have hread : r.readTrimmed (r.branchRefPath refName) = .ok (nodeText n) := by
        rw [readTrimmed, hfind]
        cases n <;> rfl
      simp only [hfind, hread]
      exact ⟨_, if_pos fun heq => h ⟨n, rfl, heq⟩⟩

/-- Where the file was there is the file still. -/
theorem Moved.holds {r r' : RefStore} {refName : String} {desired : Oid} (h : r.Moved refName desired r') :
    Holds (r'.node refName) (some desired) := by
  obtain ⟨hdot, p, text, hfind, hget⟩ := h
  have hp := find_eq_some hfind
  have hdirs : ∀ q, r'.tree.nodes.get? q = some .dir ↔ r.tree.nodes.get? q = some .dir := by
    intro q
    rw [hget]
    by_cases hq : q = p
    · subst hq
      rw [if_pos rfl, hp]
      exact ⟨nofun, nofun⟩
    · rw [if_neg hq]
  have hpath : r'.branchRefPath refName = r.branchRefPath refName := by
    unfold branchRefPath refsHeads
    rw [hdot]
  have hfind' : r'.tree.find (r'.branchRefPath refName) = some (p, .file (desired.toString ++ "\n")) := by
    unfold FileTree.find at hfind ⊢
    rw [hpath, FileTree.locate_congr hdirs]
    split at hfind
    · obtain ⟨n, -, he⟩ := Option.map_eq_some_iff.mp hfind
      cases he
      rw [hget, if_pos rfl]
      rfl
    · cases hfind
  exact ⟨_, congrArg (Option.map Prod.snd) hfind', trimmed_line desired⟩

/-- A name other than HEAD resolves, or is reported as unresolved. -/
theorem resolve_settles (r : RefStore) (objects : List Oid) {name : String} (h : name ≠ "HEAD") :
    ∃ current, settle (r.resolve objects name) = .ok current := by
  have hparse : ∀ s, ∃ current, settle (Oid.parse s) = .ok current := by
    intro s
    unfold Oid.parse
    split
    · split
      · split <;> exact ⟨_, rfl⟩
      · exact ⟨_, rfl⟩
    · exact ⟨_, rfl⟩
  rw [resolve, revParse, if_neg h]
  unfold parseName
  split
  · next found hfind =>
    obtain ⟨p, n⟩ := found
    have hread : r.readTrimmed (r.branchRefPath name) = .ok (nodeText n) := by
      rw [readTrimmed, hfind]
      cases n <;> rfl
    rw [hread]
    exact hparse _
  · unfold parseOidSpec
    split
    · split
      · exact hparse _
      · dsimp only
        split <;> exact ⟨_, rfl⟩
    · exact ⟨_, rfl⟩

theorem resolve_of_holds {r : RefStore} (objects : List Oid) {name : String} {e : Oid} (hne : name ≠ "HEAD")
    (h : Holds (r.node name) (some e)) : r.resolve objects name = .ok e := by
  obtain ⟨text, hnode, htext⟩ := holds_some h
  obtain ⟨⟨p, n⟩, hfind, rfl⟩ := Option.map_eq_some_iff.mp hnode
  exact (Through.name hne ⟨text, hfind, by rw [htext, Oid.parse_toString]⟩).resolve

end RefStore

/-! ### One record -/

/-- What `merge` writes. -/
structure MergeRecord (rec : JournalRecord) (old new : Oid) : Prop where
  op : rec.op = .merge
  seq : rec.seq = 0
  refName : rec.refName ≠ "HEAD"
  refOld : rec.refOld = some old
  refNew : rec.refNew = some new

/-- The refs are as they were, or the ref of `rec` held its old value and holds its new one now. -/
def Replayed (rec : JournalRecord) (old new : Oid) (refs refs' : RefStore) : Prop :=
  refs' = refs ∨ (Holds (refs.node rec.refName) (some old) ∧ refs.Moved rec.refName new refs')

theorem replay_merge {rec : JournalRecord} {old new : Oid} (h : MergeRecord rec old new) (objects : List Oid)
    (refs : RefStore) : (Journal.replay objects refs rec).2 = .ok () ∧
      Replayed rec old new refs (Journal.replay objects refs rec).1 ∧
      (Holds (refs.node rec.refName) (some old) →
        Holds ((Journal.replay objects refs rec).1.node rec.refName) (some new)) := by
  obtain ⟨current, hcurrent⟩ := refs.resolve_settles objects h.refName
  unfold Journal.replay
  simp only [h.op, hcurrent, h.refNew]
  split
  · next hnew =>
    refine ⟨rfl, .inl rfl, fun hold => ?_⟩
    rw [RefStore.resolve_of_holds objects h.refName hold] at hcurrent
    cases hcurrent
    cases hnew
    exact hold
  · rw [h.refOld]
    by_cases hold : Holds (refs.node rec.refName) (some old)
    · obtain ⟨hok, hmoved⟩ := (refs.update_some rec.refName old new).1 hold
      rcases hup : refs.update rec.refName (some old) new with ⟨refs', out⟩
      rw [hup] at hok hmoved
      cases hok
      exact ⟨rfl, .inr ⟨hold, hmoved⟩, fun _ => hmoved.holds⟩
    · obtain ⟨what, hup⟩ := (refs.update_some rec.refName old new).2 hold
      rw [hup]
      exact ⟨rfl, .inl rfl, fun h => absurd h hold⟩

/-! ### What every run keeps -/

/-- The lines that are written to ref files. -/
def RefLine (text : String) : Prop := (∃ o : Oid, text = o.toString ++ "\n") ∨ ∃ n, text = "ref: refs/heads/" ++ n ++ "\n"

structure Recoverable (r : Repo) : Prop where
  lines : ∀ p text, r.refs.tree.nodes.get? p = some (.file text) → RefLine text
  record : ∀ seq rec, r.journal.records.get? seq = some rec → seq = 0 ∧ ∃ old new, MergeRecord rec old new

theorem trimmed_prefix (text : String) : (trimmed text).toList <+: text.toList := by
  rw [trimmed, String.toList_ofList]
  have hsuffix := List.dropWhile_suffix (fun c => c == '\n' || c == '\r') (l := text.toList.reverse)
  simpa using List.reverse_prefix.mpr hsuffix

/-- HEAD never names itself. -/
theorem Recoverable.symbolic {r : Repo} (h : Recoverable r) {name : String} (hn : r.refs.readHead = .ok (.symbolic name)) :
    name ≠ "HEAD" := by
  obtain ⟨text, hf, htext⟩ := RefStore.readHead_symbolic hn
  rintro rfl
  obtain ⟨rest, hrest⟩ := trimmed_prefix text
  rw [htext] at hrest
  have hchar : text.toList[5]? = some 'H' := by
    rw [← hrest]
    rfl
  rcases h.lines _ _ hf with ⟨o, rfl⟩ | ⟨n, rfl⟩
  · rw [trimmed_line] at htext
    have hhead := congrArg (fun s => s.toList.head?) htext
    simp [Oid.toString] at hhead
  · have hr : ("ref: refs/heads/" ++ n ++ "\n").toList[5]? = some 'r' := by
      rw [String.toList_append, String.toList_append]
      rfl
    rw [hr] at hchar
    exact absurd hchar (by decide)

namespace RefStore

theorem writeLine_files {r : RefStore} {comps : List String} {line text : String} {p : Path}
    (h : (r.writeLine comps line).1.tree.nodes.get? p = some (.file text)) :
    text = line ++ "\n" ∨ r.tree.nodes.get? p = some (.file text) := by
  have hfiles := @FileTree.atomicWrite_files r.tree comps (line ++ "\n") text p
  unfold writeLine at h
  rcases hw : r.tree.atomicWrite comps (line ++ "\n") with ⟨tree, ok⟩
  rw [hw] at h hfiles
  cases ok <;> exact hfiles h

theorem update_files {r : RefStore} {refName text : String} {expected : Option Oid} {desired : Oid} {p : Path}
    (h : (r.update refName expected desired).1.tree.nodes.get? p = some (.file text)) :
    RefLine text ∨ r.tree.nodes.get? p = some (.file text) := by
  have hline : (r.writeLine (r.branchRefPath refName) desired.toString).1.tree.nodes.get? p = some (.file text) →
      RefLine text ∨ r.tree.nodes.get? p = some (.file text) :=
    fun h => (writeLine_files h).imp (fun he => .inl ⟨desired, he⟩) id
  by_cases hholds : Holds (r.node refName) expected
  · rw [(r.update_holds refName expected desired).1 hholds] at h
    exact hline h
  · obtain ⟨failure, hup⟩ := (r.update_holds refName expected desired).2 hholds
    rw [hup] at h
    exact .inr h

theorem deleteBranch_files {r : RefStore} {name text : String} {p : Path}
    (h : (r.deleteBranch name).1.tree.nodes.get? p = some (.file text)) : r.tree.nodes.get? p = some (.file text) := by
  unfold deleteBranch at h
  split at h
  · exact h
  · dsimp only at h
    split at h
    · unfold FileTree.remove at h
      dsimp only at h
      rw [FinMap.get?_erase] at h
      split at h
      · cases h
      · exact h
    · exact h

end RefStore

theorem Recoverable.files {r : Repo} (h : Recoverable r) {refs : RefStore}
    (hfiles : ∀ p text, refs.tree.nodes.get? p = some (.file text) →
      RefLine text ∨ r.refs.tree.nodes.get? p = some (.file text)) : Recoverable { r with refs } :=
  ⟨fun p text hf => (hfiles p text hf).elim id (h.lines p text), h.record⟩

/-! ### Commands -/

/-- Records are merge records, and HEAD is set to branches. -/
def RecordedWrite : Write → Prop
  | .journalBegin rec => ∃ old new, MergeRecord rec old new
  | .headSymbolic refName => ∃ n, refName = "refs/heads/" ++ n
  | _ => True

theorem recorded_object (oid : Oid) (obj : StoredObject) : RecordedWrite (.object oid obj) := True.intro

theorem recorded_update (refName : String) (expected : Option Oid) (desired : Oid) :
    RecordedWrite (.refUpdate refName expected desired) := True.intro

theorem Recoverable.write {r : Repo} (h : Recoverable r) {w : Write} (hw : RecordedWrite w) : Recoverable (r.write w).1 := by
  cases w with
  | object oid obj => exact ⟨h.lines, h.record⟩
  | refUpdate refName expected desired => exact h.files fun p text hf => RefStore.update_files hf
  | journalBegin rec =>
    obtain ⟨old, new, hrec⟩ := hw
    refine ⟨h.lines, fun seq rec' hget => ?_⟩
    replace hget : (r.journal.records.insert rec.seq rec).get? seq = some rec' := hget
    rw [FinMap.get?_insert] at hget
    split at hget
    · next hseq =>
      cases hget
      exact ⟨hseq.trans hrec.seq, old, new, hrec⟩
    · exact h.record seq rec' hget
  | journalCommit seq =>
    refine ⟨h.lines, fun seq' rec hget => ?_⟩
    replace hget : (r.journal.records.erase seq).get? seq' = some rec := hget
    rw [FinMap.get?_erase] at hget
    split at hget
    · cases hget
    · exact h.record seq' rec hget
  | headSymbolic refName =>
    obtain ⟨n, rfl⟩ := hw
    refine h.files fun p text hf => (RefStore.writeLine_files hf).imp (fun he => .inr ⟨n, ?_⟩) id
    rw [he, ← String.append_assoc]
    rfl
  | headDetached oid =>
    exact h.files fun p text hf => (RefStore.writeLine_files hf).imp (fun he => .inl ⟨oid, he⟩) id

theorem Recoverable.writes {ws : List Write} : ∀ {r : Repo} (k : Nat), Recoverable r → (∀ w ∈ ws, RecordedWrite w) →
    Recoverable (r.writes k ws) := by
  induction ws with
  | nil =>
    intro r k h _
    cases k <;> exact h
  | cons w rest ih =>
    intro r k h hws
    cases k with
    | zero => exact h
    | succ k =>
      have hwrite := h.write (hws w List.mem_cons_self)
      unfold Repo.writes
      rcases hw : r.write w with ⟨r', failure | _⟩
      · rw [hw] at hwrite
        exact hwrite
      · rw [hw] at hwrite
        exact ih k hwrite fun w' hw' => hws w' (List.mem_cons_of_mem _ hw')

theorem recorded_blobs (i : CommitInput blake3) : ∀ w ∈ i.blobWrites, RecordedWrite w := by
  intro w hw
  obtain ⟨b, -, rfl⟩ := List.mem_map.mp hw
  exact recorded_object _ _

theorem recorded_advance (i : CommitInput blake3) (refName : String) (parent : Option Oid) :
    ∀ w ∈ i.advanceWrites json refName parent, RecordedWrite w := by
  intro w hw
  simp only [CommitInput.advanceWrites, List.mem_cons, List.not_mem_nil, or_false] at hw
  rcases hw with rfl | rfl | rfl | rfl
  exacts [recorded_object _ _, recorded_object _ _, recorded_object _ _, recorded_update _ _ _]

theorem recorded_commit {r : Repo} {i : CommitInput blake3} {ws : List Write} (h : runCommit json blake3 r i = .ok ws) :
    ∀ w ∈ ws, RecordedWrite w := by
  obtain ⟨head, -, h⟩ := bind_eq_ok.mp h
  cases head with
  | detached o =>
    cases h
    exact List.forall_mem_nil _
  | symbolic refName =>
    obtain ⟨parent, -, h⟩ := bind_eq_ok.mp h
    split at h
    · cases h
      exact fun w hw => recorded_blobs i w (List.mem_of_mem_take hw)
    · split at h
      · cases h
        exact recorded_blobs i
      · cases h
        intro w hw
        rcases List.mem_append.mp hw with hw | hw
        · exact recorded_blobs i w hw
        · exact recorded_advance i refName parent w hw

theorem recorded_merge {r : Repo} (hr : Recoverable r) {i : MergeInput} {ws : List Write}
    (h : runMerge json blake3 r i = .ok ws) : ∀ w ∈ ws, RecordedWrite w := by
  unfold runMerge at h
  split at h
  · cases h
    exact List.forall_mem_nil _
  · obtain ⟨head, hhead, h⟩ := bind_eq_ok.mp h
    cases head with
    | detached o =>
      cases h
      exact List.forall_mem_nil _
    | symbolic refName =>
      simp only [bind_eq_ok] at h
      obtain ⟨ours, -, theirs, -, plan, -, h⟩ := h
      split at h
      · cases h
        exact List.forall_mem_nil _
      · split at h
        · split at h
          · cases h
            exact List.forall_mem_nil _
          · cases h
            split
            · exact List.forall_mem_nil _
            · exact List.forall_mem_singleton.mpr (recorded_update _ _ _)
        · split at h
          · cases h
            exact List.forall_mem_nil _
          · next merged _ =>
            obtain ⟨ourCommit, -, h⟩ := bind_eq_ok.mp h
            cases h
            intro w hw
            simp only [MergeInput.mergeWrites, List.mem_cons, List.not_mem_nil, or_false] at hw
            rcases hw with rfl | rfl | rfl | rfl | rfl
            · exact recorded_object _ _
            · exact recorded_object _ _
            · exact ⟨ours, _, rfl, rfl, hr.symbolic hhead, rfl, rfl⟩
            · exact recorded_update _ _ _
            · exact True.intro

theorem recorded_checkout {r : Repo} {revision : String} {ws : List Write} (h : runCheckout r revision = .ok ws) :
    ∀ w ∈ ws, RecordedWrite w := by
  unfold runCheckout at h
  split at h
  · obtain ⟨o, -, h⟩ := bind_eq_ok.mp h
    cases h
    exact List.forall_mem_singleton.mpr ⟨revision, rfl⟩
  · obtain ⟨o, -, h⟩ := bind_eq_ok.mp h
    cases h
    exact List.forall_mem_singleton.mpr trivial

theorem recorded_writes {r : Repo} (hr : Recoverable r) (a : Action blake3) : ∀ w ∈ a.writes json r, RecordedWrite w := by
  have hget : ∀ x : Outcome (List Write), (∀ ws, x = .ok ws → ∀ w ∈ ws, RecordedWrite w) →
      ∀ w ∈ x.toOption.getD [], RecordedWrite w := by
    intro x hx
    cases x with
    | error e => exact List.forall_mem_nil _
    | ok ws => exact hx ws rfl
  cases a with
  | commit i => exact hget _ fun ws h => recorded_commit h
  | merge i => exact hget _ fun ws h => recorded_merge hr h
  | branch name startPoint =>
    refine hget _ fun ws h => ?_
    obtain ⟨start, -, h⟩ := bind_eq_ok.mp h
    cases h
    exact List.forall_mem_singleton.mpr (recorded_update _ _ _)
  | checkout revision => exact hget _ fun ws h => recorded_checkout h
  | gc env size opts => exact List.forall_mem_nil _
  | recover => exact List.forall_mem_nil _

/-! ### Recovery -/

/-- At most the one record there is. -/
theorem Recoverable.pending {r : Repo} (h : Recoverable r) : r.journal.pending = [] ∨
    ∃ rec old new, r.journal.pending = [rec] ∧ MergeRecord rec old new := by
  have hentries : ∀ e ∈ r.journal.records.entries, e.1 = 0 ∧ ∃ old new, MergeRecord e.2 old new :=
    fun e he => h.record e.1 e.2 (FinMap.get?_eq_some.mpr he)
  have hnodup := r.journal.records.nodup
  unfold Journal.pending
  match hl : r.journal.records.entries with
  | [] => exact .inl rfl
  | [e] =>
    rw [hl] at hentries
    obtain ⟨-, old, new, hrec⟩ := hentries e List.mem_cons_self
    exact .inr ⟨e.2, old, new, rfl, hrec⟩
  | e :: e' :: rest =>
    rw [hl] at hentries hnodup
    have he := (hentries e List.mem_cons_self).1
    have he' := (hentries e' (List.mem_cons_of_mem _ List.mem_cons_self)).1
    rw [List.map_cons, List.map_cons, he, he'] at hnodup
    exact absurd List.mem_cons_self (List.nodup_cons.mp hnodup).1

/-- A recovery that stops after its `k`-th effect. -/
def Repo.recoverCut (r : Repo) (k : Nat) : Repo :=
  let (journal, refs) := Journal.recoverCut r.objects.keys k r.journal r.refs r.journal.pending
  { r with journal, refs }

/-- What a recovery that is cut short has changed: nothing, or the ref of the
record, which held the old value and holds the new one. -/
def RecoveryMoves (r : Repo) (refs : RefStore) : Prop :=
  refs = r.refs ∨ ∃ rec old new, rec ∈ r.journal.pending ∧ MergeRecord rec old new ∧
    Holds (r.refs.node rec.refName) (some old) ∧ r.refs.Moved rec.refName new refs

theorem recoverCut_nil (objects : List Oid) (k : Nat) (j : Journal) (refs : RefStore) :
    Journal.recoverCut objects k j refs [] = (j, refs) := by
  cases k <;> rfl

theorem recoverCut_single {rec : JournalRecord} {old new : Oid} (h : MergeRecord rec old new) (objects : List Oid)
    (k : Nat) (j : Journal) (refs : RefStore) :
    Replayed rec old new refs (Journal.recoverCut objects k j refs [rec]).2 ∧
      ((Journal.recoverCut objects k j refs [rec]).1 = j ∨
        (Journal.recoverCut objects k j refs [rec]).1 = j.commit 0) := by
  obtain ⟨hok, hreplayed, -⟩ := replay_merge h objects refs
  match k with
  | 0 => exact ⟨.inl rfl, .inl rfl⟩
  | 1 => exact ⟨hreplayed, .inl rfl⟩
  | k + 2 =>
    unfold Journal.recoverCut
    rcases hres : Journal.replay objects refs rec with ⟨refs', failure | _⟩
    · rw [hres] at hok
      cases hok
    · rw [hres] at hreplayed
      dsimp only
      rw [recoverCut_nil, h.seq]
      exact ⟨hreplayed, .inr rfl⟩

theorem Recoverable.recoverCut_cases {r : Repo} (h : Recoverable r) (k : Nat) :
    RecoveryMoves r (r.recoverCut k).refs ∧
      ((r.recoverCut k).journal = r.journal ∨ (r.recoverCut k).journal = r.journal.commit 0) := by
  rcases h.pending with hnil | ⟨rec, old, new, hone, hrec⟩
  · have hcut : r.recoverCut k = r := by
      unfold Repo.recoverCut
      rw [hnil, recoverCut_nil]
    rw [hcut]
    exact ⟨.inl rfl, .inl rfl⟩
  · obtain ⟨hreplayed, hjournal⟩ := recoverCut_single hrec r.objects.keys k r.journal r.refs
    rw [← hone] at hreplayed hjournal
    exact ⟨hreplayed.imp id fun hm => ⟨rec, old, new, by rw [hone]; exact List.mem_cons_self, hrec, hm⟩, hjournal⟩

/-- A recovery that runs to its end. -/
theorem Recoverable.recover_complete {r : Repo} (h : Recoverable r) :
    (r.journal.recover r.objects.keys r.refs).2 = .ok () ∧
      (r.journal.recover r.objects.keys r.refs).1.1.pending = [] ∧
      ∀ rec ∈ r.journal.pending, ∀ old new, MergeRecord rec old new → Holds (r.refs.node rec.refName) (some old) →
        Holds ((r.journal.recover r.objects.keys r.refs).1.2.node rec.refName) (some new) := by
  unfold Journal.recover
  rcases h.pending with hnil | ⟨rec, old, new, hone, hrec⟩
  · rw [hnil]
    exact ⟨rfl, hnil, fun rec hm => absurd hm List.not_mem_nil⟩
  · obtain ⟨hok, -, hholds⟩ := replay_merge hrec r.objects.keys r.refs
    have hempty : (r.journal.commit rec.seq).pending = [] := by
      refine List.eq_nil_iff_forall_not_mem.mpr fun rec' hm => ?_
      obtain ⟨seq, hget⟩ := Journal.mem_pending.mp hm
      rw [Journal.commit, FinMap.get?_erase] at hget
      split at hget
      · cases hget
      · next hne => exact hne ((h.record seq rec' hget).1.trans hrec.seq.symm)
    rw [hone]
    unfold Journal.recoverLoop
    rcases hres : Journal.replay r.objects.keys r.refs rec with ⟨refs', failure | _⟩
    · rw [hres] at hok
      cases hok
    · rw [hres] at hholds
      refine ⟨rfl, hempty, fun rec' hm old' new' hrec' hold => ?_⟩
      cases List.mem_singleton.mp hm
      have hnew : new' = new := Option.some.inj (hrec'.refNew.symm.trans hrec.refNew)
      have hold' : old' = old := Option.some.inj (hrec'.refOld.symm.trans hrec.refOld)
      subst hnew hold'
      exact hholds hold

/-! ### Runs with crashes -/

/-- Commands cut short after any number of their writes, branches that are moved
or deleted, and recoveries cut short after any number of their effects. -/
inductive CrashRun (json : JsonLib) (blake3 : Bytes → Oid) (start : Repo) : Repo → Prop where
  | start : CrashRun json blake3 start start
  | command {r : Repo} (a : Action blake3) (k : Nat) (h : CrashRun json blake3 start r) :
    CrashRun json blake3 start (r.step json a k)
  | moved {r : Repo} (refName : String) (expected : Option Oid) (desired : Oid) (h : CrashRun json blake3 start r) :
    CrashRun json blake3 start { r with refs := (r.refs.update refName expected desired).1 }
  | deleted {r : Repo} (name : String) (h : CrashRun json blake3 start r) :
    CrashRun json blake3 start { r with refs := (r.refs.deleteBranch name).1 }
  | recovering {r : Repo} (k : Nat) (h : CrashRun json blake3 start r) : CrashRun json blake3 start (r.recoverCut k)

theorem recoverable_init (dot : Path) (hdot : ∀ c ∈ dot, PlainName c) : Recoverable (Repo.init dot hdot) := by
  refine ⟨fun p text hf => ?_, fun seq rec hget => by cases hget⟩
  unfold Repo.init at hf
  dsimp only at hf
  rw [FileTree.ofLists_file, List.mem_singleton] at hf
  cases hf
  exact .inr ⟨"main", rfl⟩

theorem Recoverable.recoverCut {r : Repo} (h : Recoverable r) (k : Nat) : Recoverable (r.recoverCut k) := by
  obtain ⟨hmoves, hjournal⟩ := h.recoverCut_cases k
  refine ⟨fun p text hf => ?_, fun seq rec hget => ?_⟩
  · rcases hmoves with he | ⟨rec, old, new, -, -, -, -, p', text', -, hget⟩
    · rw [he] at hf
      exact h.lines p text hf
    · rw [hget] at hf
      split at hf
      · cases hf
        exact .inl ⟨new, rfl⟩
      · exact h.lines p text hf
  · rcases hjournal with he | he
    · rw [he] at hget
      exact h.record seq rec hget
    · rw [he, Journal.commit, FinMap.get?_erase] at hget
      split at hget
      · cases hget
      · exact h.record seq rec hget

theorem Recoverable.step {r : Repo} (h : Recoverable r) (a : Action blake3) (k : Nat) : Recoverable (r.step json a k) := by
  have hcmd : Recoverable (r.writes k (a.writes json r)) := h.writes k (recorded_writes h a)
  cases a with
  | commit i => exact hcmd
  | merge i => exact hcmd
  | branch name startPoint => exact hcmd
  | checkout revision => exact hcmd
  | gc env size opts =>
    unfold Repo.step
    dsimp only
    split
    · exact ⟨h.lines, h.record⟩
    · exact h
  | recover =>
    have hall := h.recoverCut (2 * r.journal.pending.length)
    unfold Repo.recoverCut at hall
    rw [Journal.recoverCut_all _ _ _ _ _ (Nat.le_refl _)] at hall
    exact hall

theorem recoverable_of_run {start r : Repo} (h : CrashRun json blake3 start r) (hs : Recoverable start) : Recoverable r := by
  induction h with
  | start => exact hs
  | command a k _ ih => exact ih.step a k
  | moved refName expected desired _ ih => exact ih.files fun p text hf => RefStore.update_files hf
  | deleted name _ ih => exact ih.files fun p text hf => .inr (RefStore.deleteBranch_files hf)
  | recovering k _ ih => exact ih.recoverCut k

/-- After any run, recovery moves a ref only from the record's old value to its
new one and touches nothing else, also when it is cut short; run to its end it
has done so if the ref held the old value, the record is gone, and recovering
again does nothing. -/
theorem recovery_safe (json : JsonLib) (blake3 : Bytes → Oid) (dot : Path) (hdot : ∀ c ∈ dot, PlainName c) (r : Repo)
    (h : CrashRun json blake3 (Repo.init dot hdot) r) :
    (∀ k, RecoveryMoves r (r.recoverCut k).refs) ∧
    RecoveryMoves r (r.journal.recover r.objects.keys r.refs).1.2 ∧
    (r.journal.recover r.objects.keys r.refs).2 = .ok () ∧
    (r.journal.recover r.objects.keys r.refs).1.1.pending = [] ∧
    (∀ rec ∈ r.journal.pending, ∀ old new, MergeRecord rec old new → Holds (r.refs.node rec.refName) (some old) →
      Holds ((r.journal.recover r.objects.keys r.refs).1.2.node rec.refName) (some new)) ∧
    ∀ objects, (r.journal.recover r.objects.keys r.refs).1.1.recover objects
      (r.journal.recover r.objects.keys r.refs).1.2 = ((r.journal.recover r.objects.keys r.refs).1, .ok ()) := by
  have hr := recoverable_of_run h (recoverable_init dot hdot)
  obtain ⟨hok, hempty, hholds⟩ := hr.recover_complete
  have hfull := (hr.recoverCut_cases (2 * r.journal.pending.length)).1
  unfold Repo.recoverCut at hfull
  rw [Journal.recoverCut_all _ _ _ _ _ (Nat.le_refl _)] at hfull
  refine ⟨fun k => (hr.recoverCut_cases k).1, hfull, hok, hempty, hholds, fun objects => ?_⟩
  generalize (r.journal.recover r.objects.keys r.refs).1 = after at *
  rw [Journal.recover, hempty]
  rfl

/-! A merge that crashed behind its record. -/

def crashedMerge : Repo := (crashSteps.take 6).foldl (fun r s => r.step crashJson s.1 s.2) crashStart

theorem crashRun_foldl {start : Repo} (steps : List (Action blake3 × Nat)) : ∀ {r : Repo}, CrashRun json blake3 start r →
    CrashRun json blake3 start (steps.foldl (fun r s => r.step json s.1 s.2) r) := by
  induction steps with
  | nil => exact fun h => h
  | cons s rest ih => exact fun h => ih (.command s.1 s.2 h)

theorem crashedMerge_recovers : crashedMerge.journal.pending.length = 1 ∧
    (crashedMerge.journal.recover crashedMerge.objects.keys crashedMerge.refs).1.1.pending = [] :=
  ⟨by decide +kernel, (recovery_safe crashJson crashHash [".synapsefs"] (by decide) crashedMerge
    (crashRun_foldl (crashSteps.take 6) .start)).2.2.2.1⟩

end SynapseFs.Store
