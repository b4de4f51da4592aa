import SynapseFs.Format.Manifest
import SynapseFs.Lib.FileOps
import SynapseFs.Stio.Sha256

/-! The byte-exact writer of `sfs checkout`.

`StWriter` writes to a temp file beside the destination and renames it into
place. `session_atomic_iff` is about a whole life of it, from `create` over any
appends to `finish` or to the destructor: when the destination ends as it must,
either the appended bytes or what was there.

A file's text has one character for each byte. The system may refuse any call,
and a write may stop anywhere; these answers are inputs (`Answers`, and with each
append how many of its bytes the system takes). -/
namespace SynapseFs.Stio
open Lib Core Format

def charsOf (b : Bytes) : List Char := b.map fun x => Char.ofNat x.toNat

@[simp] theorem length_charsOf (b : Bytes) : (charsOf b).length = b.length := List.length_map ..

theorem charsOf_append (a b : Bytes) : charsOf (a ++ b) = charsOf a ++ charsOf b := List.map_append ..

/-- `parent_path()`: empty for a name without a slash. -/
def parentPath (dest : String) : String :=
  let upToSlash := dest.toList.reverse.dropWhile fun c => c ≠ '/'
  match upToSlash.dropWhile fun c => c = '/' with
  | [] => if upToSlash = [] then "" else "/"
  | front => String.ofList front.reverse

/-- What the system answers to the calls that are made once. -/
structure Answers where
  pid : Nat
  openFails : Bool
  fsyncFails : Bool
  renameFails : Bool
  fsyncDirFails : Bool

structure StWriterOptions where
  verifySha256 : Bool

structure StWriter where
  destPath : String
  /-- The directory both names are in. -/
  dir : Path
  destName : String
  tmpName : String
  fdValid : Bool
  hasher : Sha256
  verify : Bool
  written : Nat
  expectedTotal : Nat
  expectedSha256 : String

/-- `dest.filename()`. -/
def fileName (cwd : Path) (dest : String) : String := (resolveName cwd dest).getLast?.getD ""

def tempName (pid : Nat) (cwd : Path) (dest : String) : String := fileName cwd dest ++ ".sfs-tmp-" ++ toString pid

/-- The components of the directory it is in. -/
def parentComps (cwd : Path) (dest : String) : List String := (resolveName cwd dest).dropLast

namespace StWriter

def create (a : Answers) (t : FileTree) (cwd : Path) (dest : String) (m : Manifest) (opts : StWriterOptions) :
    FileTree × Outcome StWriter :=
  match t.makeDirs [] (parentComps cwd dest) with
  | (t, none) => (t, sfsErr .io "cannot create temp file for checkout" dest)
  | (t, some dir) =>
    if a.openFails then (t, sfsErr .io "cannot create temp file for checkout" dest)
    else
      match t.openFile dir (tempName a.pid cwd dest) with
      | none => (t, sfsErr .io "cannot create temp file for checkout" dest)
      | some t => (t, .ok
        { destPath := dest
          dir
          destName := fileName cwd dest
          tmpName := tempName a.pid cwd dest
          fdValid := true
          hasher := Sha256.reset
          verify := opts.verifySha256
          written := 0
          expectedTotal := m.file.totalBytes
          expectedSha256 := m.file.sha256 })

/-- The largest offset of a file. -/
def maxOffset : Nat := 2 ^ 63 - 1

/-- How many bytes of `data` a write at `written` stores, when the system takes `wrote` of them. -/
def taken (written : Nat) (data : Bytes) (wrote : Nat) : Nat := min (min wrote data.length) (maxOffset - written)

def append (w : StWriter) (data : Bytes) (wrote : Nat) (t : FileTree) : StWriter × FileTree × Outcome Unit :=
  if data = [] then (w, t, .ok ())
  else
    let n := taken w.written data wrote
    let t := t.writeFile w.dir w.tmpName (charsOf (data.take n)) w.written
    if n ≠ data.length then (w, t, sfsErr .io "write failed during checkout" w.destPath)
    else
      ({ w with hasher := if w.verify then w.hasher.update data else w.hasher
                written := u64 (w.written + data.length) }, t, .ok ())

def finish (w : StWriter) (a : Answers) (t : FileTree) : StWriter × FileTree × Outcome Unit :=
  if w.written ≠ w.expectedTotal then
    (w, t, sfsErr .malformedObject ("checkout wrote " ++ toString w.written ++ " bytes, manifest says " ++
      toString w.expectedTotal) "")
  else if a.fsyncFails then (w, t, sfsErr .io "fsync failed" w.destPath)
  else if w.verify ∧ w.expectedSha256 ≠ "" ∧ hex w.hasher.finalize ≠ w.expectedSha256 then
    ({ w with fdValid := false }, t.removeFile (w.dir ++ [w.tmpName]),
      sfsErr .hashMismatch "reconstructed file sha256 does not match manifest witness" w.destPath)
  else
    match if a.renameFails then (t, false) else t.rename w.dir w.tmpName w.destName with
    | (t, false) => ({ w with fdValid := false }, t, sfsErr .io "rename into place failed" w.destPath)
    | (t, true) =>
      if a.fsyncDirFails ∨ parentPath w.destPath = "" then
        ({ w with fdValid := false }, t, sfsErr .io "fsync parent dir failed" (parentPath w.destPath))
      else ({ w with fdValid := false }, t, .ok ())

/-- The destructor: an open temp file is removed. -/
def destroy (w : StWriter) (t : FileTree) : FileTree := if w.fdValid then t.removeFile (w.dir ++ [w.tmpName]) else t

/-- The appends of a session, each with what the system takes; one that fails ends nothing. -/
def appends (s : StWriter × FileTree) (calls : List (Bytes × Nat)) : StWriter × FileTree :=
  calls.foldl (fun (w, t) c => let (w, t, _) := w.append c.1 c.2 t; (w, t)) s

/-- A writer from `create` to its destruction, and whether `finish` was called and succeeded. -/
def session (a : Answers) (t : FileTree) (cwd : Path) (dest : String) (m : Manifest) (opts : StWriterOptions)
    (calls : List (Bytes × Nat)) (finishes : Bool) : FileTree × Bool :=
  match create a t cwd dest m opts with
  | (t, .error _) => (t, false)
  | (t, .ok w) =>
    let (w, t) := appends (w, t) calls
    if finishes then
      match w.finish a t with
      | (w, t, .ok ()) => (w.destroy t, true)
      | (w, t, .error _) => (w.destroy t, false)
    else (w.destroy t, false)

/-! ### What is written -/

/-- The bytes of the appends that succeed, behind those of the ones before. -/
def acceptCall (done : Bytes) (c : Bytes × Nat) : Bytes :=
  if taken done.length c.1 c.2 = c.1.length then done ++ c.1 else done

def accepted (calls : List (Bytes × Nat)) : Bytes := calls.foldl acceptCall []

/-- The text of the temp file after one more append: whatever the system took of
it, over what was there. -/
def tempCall (s : Bytes × List Char) (c : Bytes × Nat) : Bytes × List Char :=
  (acceptCall s.1 c, filled (charsOf (s.1 ++ c.1.take (taken s.1.length c.1 c.2))) s.2)

def tempText (leftover : String) (calls : List (Bytes × Nat)) : List Char :=
  (calls.foldl tempCall ([], leftover.toList)).2

/-- How far the temp file reaches: as far as the leftover or any write into it. -/
def reachCall (s : Bytes × Nat) (c : Bytes × Nat) : Bytes × Nat :=
  (acceptCall s.1 c, max s.2 (s.1.length + taken s.1.length c.1 c.2))

def reach (leftover : String) (calls : List (Bytes × Nat)) : Nat :=
  (calls.foldl reachCall ([], leftover.toList.length)).2

theorem taken_le (written : Nat) (data : Bytes) (wrote : Nat) : taken written data wrote ≤ data.length := by
  unfold taken
  omega

theorem length_tempText (leftover : String) (calls : List (Bytes × Nat)) :
    (tempText leftover calls).length = reach leftover calls := by
  have hrun : ∀ (calls : List (Bytes × Nat)) (done : Bytes) (text : List Char),
      (calls.foldl tempCall (done, text)).2.length = (calls.foldl reachCall (done, text.length)).2 := by
    intro calls
    induction calls with
    | nil => exact fun _ _ => rfl
    | cons c rest ih =>
      intro done text
      have hlen : (filled (charsOf (done ++ c.1.take (taken done.length c.1 c.2))) text).length =
          max text.length (done.length + taken done.length c.1 c.2) := by
        have := taken_le done.length c.1 c.2
        rw [length_filled, length_charsOf, List.length_append, List.length_take]
        omega
      rw [List.foldl_cons, List.foldl_cons, tempCall, reachCall, ih, hlen]
  exact hrun calls [] leftover.toList

/-- What is read back in front of a buffer that holds it and more. -/
theorem filled_prefix (x y text : List Char) : filled x (filled (x ++ y) text) = filled (x ++ y) text := by
  rw [filled, filled, List.append_assoc x y, List.drop_left, ← List.append_assoc]

theorem tempCall_filled (s : Bytes × List Char) (c : Bytes × Nat) :
    filled (charsOf (tempCall s c).1) (tempCall s c).2 = (tempCall s c).2 := by
  unfold tempCall acceptCall
  split
  · next hall =>
    have h := filled_prefix (charsOf (s.1 ++ c.1)) [] s.2
    rw [List.append_nil] at h
    rw [hall, List.take_length]
    exact h
  · rw [charsOf_append]
    exact filled_prefix _ _ _

theorem length_acceptCall {done : Bytes} (c : Bytes × Nat) (h : done.length ≤ maxOffset) :
    (acceptCall done c).length ≤ maxOffset := by
  unfold acceptCall
  split
  · next hall =>
    rw [List.length_append]
    unfold taken at hall
    omega
  · exact h

/-! ### Appending -/

/-- A writer that was opened as `w₀` in the tree `t₀` and has accepted `done`,
with `text` in its temp file. -/
structure Writing (w₀ : StWriter) (t₀ : FileTree) (done : Bytes) (text : List Char) (w : StWriter) (t : FileTree) :
    Prop where
  same : w = { w₀ with hasher := w.hasher, written := w.written }
  written_eq : w.written = done.length
  dir_eq : t.nodes.get? w₀.dir = some .dir
  temp_eq : t.nodes.get? (w₀.dir ++ [w₀.tmpName]) = some (.file (String.ofList text))
  front : filled (charsOf done) text = text
  bound : done.length ≤ maxOffset
  hasher_eq : w₀.verify = true → Sha256.Absorbed w.hasher done ∧ w.hasher.totalLen = done.length
  dirs : FileTree.SameDirs t₀ t
  other : ∀ q, q ≠ w₀.dir ++ [w₀.tmpName] → t.nodes.get? q = t₀.nodes.get? q

section
variable {w₀ w : StWriter} {t₀ t : FileTree} {done : Bytes} {text : List Char}

/-- One append: the temp file holds what the system took, and an append that
succeeds has been accepted whole. -/
theorem append_writing (h : Writing w₀ t₀ done text w t) (c : Bytes × Nat) :
    Writing w₀ t₀ (acceptCall done c) (tempCall (done, text) c).2 (w.append c.1 c.2 t).1 (w.append c.1 c.2 t).2.1 := by
  have hdir : w.dir = w₀.dir := by rw [h.same]
  have htmp : w.tmpName = w₀.tmpName := by rw [h.same]
  have hverify : w.verify = w₀.verify := by rw [h.same]
  have hfront := tempCall_filled (done, text) c
  have hbound := length_acceptCall c h.bound
  unfold append
  by_cases hdata : c.1 = []
  · have hdone : acceptCall done c = done := by
      rw [acceptCall, hdata, List.append_nil, ite_self]
    have htext : (tempCall (done, text) c).2 = text := by
      rw [tempCall, hdata, List.take_nil, List.append_nil]
      exact h.front
    rw [if_pos hdata, hdone, htext]
    exact h
  · obtain ⟨hdirs, hget⟩ := FileTree.writeFile_spec h.dir_eq h.temp_eq (charsOf (c.1.take (taken done.length c.1 c.2)))
      done.length
    have hwritten : pwriteAll '\x00' text (charsOf (c.1.take (taken done.length c.1 c.2))) done.length =
        (tempCall (done, text) c).2 := by
      have hfill := pwriteAll_filled '\x00' (charsOf done) (charsOf (c.1.take (taken done.length c.1 c.2))) text
      rw [h.front, length_charsOf, ← charsOf_append] at hfill
      exact hfill
    rw [String.toList_ofList, hwritten] at hget
    set t₁ := t.writeFile w₀.dir w₀.tmpName (charsOf (c.1.take (taken done.length c.1 c.2))) done.length with ht₁
    have hdir₁ : t₁.nodes.get? w₀.dir = some .dir := (hdirs w₀.dir).mpr h.dir_eq
    have hother : ∀ q, q ≠ w₀.dir ++ [w₀.tmpName] → t₁.nodes.get? q = t₀.nodes.get? q := by
      intro q hq
      rw [hget, if_neg hq, h.other q hq]
    have htemp : t₁.nodes.get? (w₀.dir ++ [w₀.tmpName]) = some (.file (String.ofList (tempCall (done, text) c).2)) := by
      rw [hget, if_pos rfl]
    have hwrite : t.writeFile w.dir w.tmpName (charsOf (c.1.take (taken w.written c.1 c.2))) w.written = t₁ := by
      rw [hdir, htmp, h.written_eq]
    rw [if_neg hdata]
    dsimp only
    rw [hwrite, h.written_eq]
    by_cases hall : taken done.length c.1 c.2 = c.1.length
    · have hdone : acceptCall done c = done ++ c.1 := if_pos hall
      rw [if_neg (not_not.mpr hall)]
      constructor
      · exact congrArg (fun x : StWriter => { x with hasher := if w.verify then w.hasher.update c.1 else w.hasher
                                                     written := u64 (done.length + c.1.length) }) h.same
      · show u64 (done.length + c.1.length) = _
        rw [← List.length_append, ← hdone, u64_of_lt (by unfold maxOffset at hbound; omega)]
      · exact hdir₁
      · exact htemp
      · exact hfront
      · exact hbound
      · intro hv
        obtain ⟨habs, htotal⟩ := h.hasher_eq hv
        show Sha256.Absorbed (if w.verify = true then _ else _) _ ∧ (if w.verify = true then _ else _ : Sha256).totalLen = _
        rw [hverify, if_pos hv, hdone]
        refine ⟨Sha256.update_absorbed c.1 habs, ?_⟩
        rw [hdone] at hbound
        rw [Sha256.totalLen_update, htotal, ← List.length_append, u64_of_lt (by unfold maxOffset at hbound; omega)]
      · exact h.dirs.trans hdirs
      · exact hother
    · have hdone : acceptCall done c = done := if_neg hall
      have hkept : (tempCall (done, text) c).1 = done := hdone
      rw [hkept] at hfront
      rw [if_pos hall, hdone]
      exact ⟨h.same, h.written_eq, hdir₁, htemp, hfront, h.bound, h.hasher_eq, h.dirs.trans hdirs, hother⟩

theorem appends_writing (calls : List (Bytes × Nat)) (h : Writing w₀ t₀ done text w t) :
    Writing w₀ t₀ (calls.foldl acceptCall done) (calls.foldl tempCall (done, text)).2 (appends (w, t) calls).1
      (appends (w, t) calls).2 := by
  induction calls generalizing done text w t with
  | nil => exact h
  | cons c rest ih => exact ih (append_writing h c)

/-! ### Finishing -/

/-- What must hold for the rename to be reached and done. -/
structure Renames (a : Answers) (w₀ : StWriter) (t₀ : FileTree) (done : Bytes) : Prop where
  total : done.length = w₀.expectedTotal
  synced : a.fsyncFails = false
  hash : w₀.verify = true → w₀.expectedSha256 ≠ "" → hex (Sha256.hash done) = w₀.expectedSha256
  answered : a.renameFails = false
  plain : PlainName w₀.destName
  free : t₀.nodes.get? (w₀.dir ++ [w₀.destName]) ≠ some .dir

/-- The destination changes when the rename is done, and then it holds the temp file. -/
theorem finish_renames (h : Writing w₀ t₀ done text w t) (hne : w₀.tmpName ≠ w₀.destName) {a : Answers}
    (hr : Renames a w₀ t₀ done) :
    ∃ t' st, w.finish a t = ({ w with fdValid := false }, t', st) ∧
      (st = .ok () ↔ a.fsyncDirFails = false ∧ parentPath w₀.destPath ≠ "") ∧ FileTree.SameDirs t₀ t' ∧
      t'.nodes.get? (w₀.dir ++ [w₀.destName]) = some (.file (String.ofList text)) ∧
      ∀ q, q ≠ w₀.dir ++ [w₀.tmpName] → q ≠ w₀.dir ++ [w₀.destName] → t'.nodes.get? q = t₀.nodes.get? q := by
  have hpath : w₀.dir ++ [w₀.destName] ≠ w₀.dir ++ [w₀.tmpName] :=
    fun he => hne (List.singleton_inj.mp (List.append_cancel_left he)).symm
  have hfree : t.nodes.get? (w₀.dir ++ [w₀.destName]) ≠ some .dir := by
    rw [h.other _ hpath]
    exact hr.free
  obtain ⟨hdone, hdirs, hget⟩ := FileTree.rename_spec hne h.dir_eq h.temp_eq hr.plain hfree
  have hdest : (t.rename w₀.dir w₀.tmpName w₀.destName).1.nodes.get? (w₀.dir ++ [w₀.destName]) =
      some (.file (String.ofList text)) := by rw [hget, if_neg hpath, if_pos rfl]
  have hother : ∀ q, q ≠ w₀.dir ++ [w₀.tmpName] → q ≠ w₀.dir ++ [w₀.destName] →
      (t.rename w₀.dir w₀.tmpName w₀.destName).1.nodes.get? q = t₀.nodes.get? q := by
    intro q htemp hq
    rw [hget, if_neg htemp, if_neg hq, h.other q htemp]
  have htotal : w.written = w.expectedTotal := by
    rw [h.written_eq, hr.total, h.same]
  have hhash : ¬ (w.verify = true ∧ w.expectedSha256 ≠ "" ∧ hex w.hasher.finalize ≠ w.expectedSha256) := by
    rintro ⟨hv, hs, hbad⟩
    have hv₀ : w₀.verify = true := by rw [h.same] at hv; exact hv
    obtain ⟨habs, hlen⟩ := h.hasher_eq hv₀
    have hsha : w.expectedSha256 = w₀.expectedSha256 := by rw [h.same]
    rw [hsha] at hs hbad
    exact hbad (by rw [Sha256.finalize_absorbed habs hlen]; exact hr.hash hv₀ hs)
  have hdir : w.dir = w₀.dir := by rw [h.same]
  have htmp : w.tmpName = w₀.tmpName := by rw [h.same]
  have hname : w.destName = w₀.destName := by rw [h.same]
  have hdestPath : w.destPath = w₀.destPath := by rw [h.same]
  have hpair : t.rename w₀.dir w₀.tmpName w₀.destName = ((t.rename w₀.dir w₀.tmpName w₀.destName).1, true) :=
    Prod.ext rfl hdone
  unfold finish
  rw [if_neg (not_not.mpr htotal), hr.synced, if_neg nofun, if_neg hhash, hr.answered, if_neg nofun, hdir, htmp, hname,
    hdestPath, hpair]
  dsimp only
  by_cases hsync : a.fsyncDirFails = true ∨ parentPath w₀.destPath = ""
  · rw [if_pos hsync]
    refine ⟨_, _, rfl, ⟨fun he => absurd he sfsErr_ne_ok, fun hok => ?_⟩, h.dirs.trans hdirs, hdest, hother⟩
    rcases hsync with hf | hp
    · rw [hok.1] at hf
      cases hf
    · exact absurd hp hok.2
  · rw [if_neg hsync]
    obtain ⟨hf, hp⟩ := not_or.mp hsync
    exact ⟨_, _, rfl, ⟨fun _ => ⟨Bool.eq_false_of_not_eq_true hf, hp⟩, fun _ => rfl⟩, h.dirs.trans hdirs, hdest, hother⟩

/-- Otherwise `finish` fails and nothing but the temp file is touched. -/
theorem finish_stops (h : Writing w₀ t₀ done text w t) (hne : w₀.tmpName ≠ w₀.destName) {a : Answers}
    (hr : ¬ Renames a w₀ t₀ done) :
    ∃ w' t' e, w.finish a t = (w', t', .error e) ∧ w'.dir = w₀.dir ∧ w'.tmpName = w₀.tmpName ∧
      FileTree.SameDirs t₀ t' ∧ ∀ q, q ≠ w₀.dir ++ [w₀.tmpName] → t'.nodes.get? q = t₀.nodes.get? q := by
  have hdir : w.dir = w₀.dir := by rw [h.same]
  have htmp : w.tmpName = w₀.tmpName := by rw [h.same]
  have hname : w.destName = w₀.destName := by rw [h.same]
  have hverify : w.verify = w₀.verify := by rw [h.same]
  have hsha : w.expectedSha256 = w₀.expectedSha256 := by rw [h.same]
  have hexpected : w.expectedTotal = w₀.expectedTotal := by rw [h.same]
  unfold finish
  by_cases htotal : w.written ≠ w.expectedTotal
  · rw [if_pos htotal]
    exact ⟨_, _, _, rfl, hdir, htmp, h.dirs, h.other⟩
  · rw [if_neg htotal]
    by_cases hsync : a.fsyncFails = true
    · rw [if_pos hsync]
      exact ⟨_, _, _, rfl, hdir, htmp, h.dirs, h.other⟩
    · rw [if_neg hsync]
      by_cases hbad : w.verify = true ∧ w.expectedSha256 ≠ "" ∧ hex w.hasher.finalize ≠ w.expectedSha256
      · rw [if_pos hbad, hdir, htmp]
        obtain ⟨hdirs, hother⟩ := FileTree.removeFile_frame t (w₀.dir ++ [w₀.tmpName])
        exact ⟨_, _, _, rfl, rfl, rfl, h.dirs.trans hdirs, fun q hq => (hother q hq).trans (h.other q hq)⟩
      · rw [if_neg hbad, hdir, htmp, hname]
        -- Everything up to the rename went well, so it is the rename that cannot be done.
        have hstuck : (if a.renameFails = true then (t, false) else t.rename w₀.dir w₀.tmpName w₀.destName) = (t, false) := by
          by_cases hanswer : a.renameFails = true
          · rw [if_pos hanswer]
          · rw [if_neg hanswer]
            refine FileTree.rename_fails hne fun ⟨hplain, hfree⟩ => hr ?_
            have hpath : w₀.dir ++ [w₀.destName] ≠ w₀.dir ++ [w₀.tmpName] :=
              fun he => hne (List.singleton_inj.mp (List.append_cancel_left he)).symm
            refine ⟨?_, Bool.eq_false_of_not_eq_true hsync, fun hv hs => ?_, Bool.eq_false_of_not_eq_true hanswer, hplain, ?_⟩
            · rw [← h.written_eq, ← hexpected]
              exact not_not.mp htotal
            · by_contra hdiff
              obtain ⟨habs, hlen⟩ := h.hasher_eq hv
              refine hbad ⟨hverify.trans hv, by rw [hsha]; exact hs, ?_⟩
              rw [Sha256.finalize_absorbed habs hlen, hsha]
              exact hdiff
            · rw [← h.other _ hpath]
              exact hfree
        rw [hstuck]
        exact ⟨_, _, _, rfl, rfl, rfl, h.dirs, h.other⟩

end

theorem destroy_frame (w : StWriter) (t : FileTree) : FileTree.SameDirs t (w.destroy t) ∧
    ∀ q, q ≠ w.dir ++ [w.tmpName] → (w.destroy t).nodes.get? q = t.nodes.get? q := by
  unfold destroy
  split
  · exact FileTree.removeFile_frame t _
  · exact ⟨.rfl, fun _ _ => rfl⟩

/-! ### Names -/

theorem resolveName_ne_nil (cwd : Path) (dest : String) : resolveName cwd dest ≠ [] := by
  have hsplit : splitSlash dest.toList ≠ [] := by
    unfold splitSlash
    split
    · exact List.cons_ne_nil _ _
    · split
      · exact List.cons_ne_nil _ _
      · split <;> exact List.cons_ne_nil _ _
  unfold resolveName
  dsimp only
  split
  · exact fun h => hsplit (List.map_eq_nil_iff.mp h)
  · exact fun h => hsplit (List.map_eq_nil_iff.mp (List.append_eq_nil_iff.mp h).2)

theorem resolveName_eq (cwd : Path) (dest : String) :
    resolveName cwd dest = parentComps cwd dest ++ [fileName cwd dest] := by
  have hne := resolveName_ne_nil cwd dest
  rw [parentComps, fileName, List.getLast?_eq_getLast_of_ne_nil hne, Option.getD_some, List.dropLast_append_getLast hne]

/-- The temp file's name is longer. -/
theorem tempName_ne (pid : Nat) (cwd : Path) (dest : String) : tempName pid cwd dest ≠ fileName cwd dest := by
  intro h
  have hlen := congrArg (fun s => s.toList.length) h
  simp only [tempName, String.toList_append, List.length_append] at hlen
  have : ".sfs-tmp-".toList.length = 9 := rfl
  omega

/-- What the destination names. -/
def destNode (t : FileTree) (cwd : Path) (dest : String) : Option Node :=
  (t.find (resolveName cwd dest)).map Prod.snd

section
variable {cwd : Path} {dest : String} {t t₁ t' : FileTree} {dir : Path}

/-- Where the destination is, once the directories on the way are made. -/
theorem locate_dest (hmake : t.makeDirs [] (parentComps cwd dest) = (t₁, some dir)) (hdirs : FileTree.SameDirs t₁ t') :
    ∃ p, t'.locate [] (resolveName cwd dest) = some p ∧ (PlainName (fileName cwd dest) → p = dir ++ [fileName cwd dest]) ∧
      ∀ name, name ≠ fileName cwd dest → p ≠ dir ++ [name] := by
  obtain ⟨hd, hloc⟩ := FileTree.makeDirs_locate _ hmake
  have hd' : t'.nodes.get? dir = some .dir := (hdirs dir).mpr hd
  rw [resolveName_eq, FileTree.locate_append, hdirs.locate, hloc, Option.bind_some, FileTree.locate, FileTree.step,
    if_neg (not_not.mpr hd')]
  by_cases hstay : fileName cwd dest = "" ∨ fileName cwd dest = "."
  · rw [if_pos hstay]
    refine ⟨dir, rfl, fun hp => ?_, fun name _ h => ?_⟩
    · exact (hstay.elim hp.1 hp.2.1).elim
    · simpa using congrArg List.length h
  · rw [if_neg hstay]
    by_cases hup : fileName cwd dest = ".."
    · rw [if_pos hup]
      refine ⟨dir.dropLast, rfl, fun hp => absurd hup hp.2.2.1, fun name _ h => ?_⟩
      have hlen := congrArg List.length h
      rw [List.length_dropLast, List.length_append, List.length_singleton] at hlen
      omega
    · rw [if_neg hup]
      refine ⟨dir ++ [fileName cwd dest], rfl, fun _ => rfl, fun name hne h => ?_⟩
      exact hne (List.singleton_inj.mp (List.append_cancel_left h)).symm

/-- Only the temp file changed, so the destination is what it was. -/
theorem destNode_frame (hmake : t.makeDirs [] (parentComps cwd dest) = (t₁, some dir)) (hdirs : FileTree.SameDirs t₁ t')
    (pid : Nat) (hother : ∀ q, q ≠ dir ++ [tempName pid cwd dest] → t'.nodes.get? q = t₁.nodes.get? q) :
    destNode t' cwd dest = destNode t₁ cwd dest := by
  obtain ⟨p, hp, -, hne⟩ := locate_dest hmake hdirs
  have hp₁ : t₁.locate [] (resolveName cwd dest) = some p := by rw [← hdirs.locate, hp]
  unfold destNode FileTree.find
  rw [hp, hp₁]
  dsimp only
  rw [hother p (hne _ (tempName_ne pid cwd dest))]

/-- A plain destination in the directory made for it. -/
theorem destNode_plain (hmake : t.makeDirs [] (parentComps cwd dest) = (t₁, some dir)) (hdirs : FileTree.SameDirs t₁ t')
    (hplain : PlainName (fileName cwd dest)) : destNode t' cwd dest = t'.nodes.get? (dir ++ [fileName cwd dest]) := by
  obtain ⟨p, hp, hpath, -⟩ := locate_dest hmake hdirs
  unfold destNode FileTree.find
  rw [hp, hpath hplain]
  dsimp only
  rw [Option.map_map]
  exact Option.map_id'

end

/-! ### Sessions -/

section
variable {a : Answers} {t t₁ : FileTree} {cwd : Path} {dest : String} {m : Manifest} {opts : StWriterOptions}
  {calls : List (Bytes × Nat)} {finishes : Bool} {dir : Path}

/-- What the temp file held before the session. -/
def leftover (t₁ : FileTree) (dir : Path) (pid : Nat) (cwd : Path) (dest : String) : String :=
  (t₁.text? (dir ++ [tempName pid cwd dest])).getD ""

/-- The session reaches its rename and the rename is done: nothing is refused,
the lengths and the witness agree, and no directory has the destination's name. -/
structure Commits (a : Answers) (t₁ : FileTree) (dir cwd : Path) (dest : String) (m : Manifest) (opts : StWriterOptions)
    (calls : List (Bytes × Nat)) (finishes : Bool) : Prop where
  finishes_eq : finishes = true
  answered : a.openFails = false ∧ a.fsyncFails = false ∧ a.renameFails = false
  opens : (t₁.openFile dir (tempName a.pid cwd dest)).isSome = true
  total : (accepted calls).length = m.file.totalBytes
  hash : opts.verifySha256 = true → m.file.sha256 ≠ "" → hex (Sha256.hash (accepted calls)) = m.file.sha256
  plain : PlainName (fileName cwd dest)
  free : t₁.nodes.get? (dir ++ [fileName cwd dest]) ≠ some .dir

/-- The writer `create` returns. -/
def opened (a : Answers) (dir cwd : Path) (dest : String) (m : Manifest) (opts : StWriterOptions) : StWriter :=
  { destPath := dest
    dir
    destName := fileName cwd dest
    tmpName := tempName a.pid cwd dest
    fdValid := true
    hasher := Sha256.reset
    verify := opts.verifySha256
    written := 0
    expectedTotal := m.file.totalBytes
    expectedSha256 := m.file.sha256 }

theorem create_opens (m : Manifest) (opts : StWriterOptions) (hmake : t.makeDirs [] (parentComps cwd dest) = (t₁, some dir)) (hopen : a.openFails = false)
    {t₂ : FileTree} (ht : t₁.openFile dir (tempName a.pid cwd dest) = some t₂) :
    create a t cwd dest m opts = (t₂, .ok (opened a dir cwd dest m opts)) ∧
      Writing (opened a dir cwd dest m opts) t₁ [] (leftover t₁ dir a.pid cwd dest).toList (opened a dir cwd dest m opts)
        t₂ := by
  obtain ⟨hd, hdirs, hget⟩ := FileTree.openFile_eq_some ht
  constructor
  · unfold create
    simp only [hmake, hopen, ht]
    rfl
  · constructor
    · rfl
    · rfl
    · exact (hdirs _).mpr hd
    · rw [String.ofList_toList]
      exact (hget _).trans (if_pos rfl)
    · exact filled_nil _
    · exact Nat.zero_le _
    · exact fun _ => ⟨Sha256.reset_absorbed, rfl⟩
    · exact hdirs
    · exact fun q hq => (hget q).trans (if_neg hq)

theorem create_refused (m : Manifest) (opts : StWriterOptions) (hmake : t.makeDirs [] (parentComps cwd dest) = (t₁, some dir))
    (h : a.openFails = true ∨ t₁.openFile dir (tempName a.pid cwd dest) = none) :
    ∃ e, create a t cwd dest m opts = (t₁, .error e) := by
  unfold create
  simp only [hmake]
  split
  · exact ⟨_, rfl⟩
  · next hopen => 
    rcases h with h | h
    · exact absurd h hopen
    · rw [h]
      exact ⟨_, rfl⟩

/-- The session's rename is done: the destination is what the temp file was. -/
theorem session_commits (hmake : t.makeDirs [] (parentComps cwd dest) = (t₁, some dir))
    (h : Commits a t₁ dir cwd dest m opts calls finishes) :
    ∃ t' ok, session a t cwd dest m opts calls finishes = (t', ok) ∧
      (ok = true ↔ a.fsyncDirFails = false ∧ parentPath dest ≠ "") ∧
      destNode t' cwd dest = some (.file (String.ofList (tempText (leftover t₁ dir a.pid cwd dest) calls))) := by
  obtain ⟨hopen, hsync, hrename⟩ := h.answered
  obtain ⟨t₂, ht₂⟩ := Option.isSome_iff_exists.mp h.opens
  obtain ⟨hcreate, hstart⟩ := create_opens m opts hmake hopen ht₂
  have hw := appends_writing calls hstart
  have hne : (opened a dir cwd dest m opts).tmpName ≠ (opened a dir cwd dest m opts).destName := tempName_ne _ _ _
  obtain ⟨t₃, st, hfinish, hst, hdirs, hdest, -⟩ := finish_renames hw hne (a := a)
    ⟨h.total, hsync, h.hash, hrename, h.plain, h.free⟩
  have hnode := destNode_plain hmake hdirs h.plain
  unfold session
  rw [hcreate, h.finishes_eq]
  dsimp only
  rcases happ : appends (opened a dir cwd dest m opts, t₂) calls with ⟨w, t₄⟩
  rw [happ] at hfinish
  dsimp only at hfinish ⊢
  rw [if_pos rfl, hfinish]
  cases st with
  | ok u => exact ⟨_, _, rfl, ⟨fun _ => hst.mp rfl, fun _ => rfl⟩, hnode.trans hdest⟩
  | error e => exact ⟨_, _, rfl, ⟨nofun, fun hs => absurd (hst.mpr hs) nofun⟩, hnode.trans hdest⟩

/-- Otherwise only directories on the way were made. -/
theorem session_stops (hmake : t.makeDirs [] (parentComps cwd dest) = (t₁, some dir))
    (h : ¬ Commits a t₁ dir cwd dest m opts calls finishes) :
    ∃ t', session a t cwd dest m opts calls finishes = (t', false) ∧ destNode t' cwd dest = destNode t₁ cwd dest := by
  by_cases hcreate : a.openFails = true ∨ t₁.openFile dir (tempName a.pid cwd dest) = none
  · obtain ⟨e, he⟩ := create_refused m opts hmake hcreate
    unfold session
    rw [he]
    exact ⟨_, rfl, rfl⟩
  · obtain ⟨hopen, hsome⟩ := not_or.mp hcreate
    obtain ⟨t₂, ht₂⟩ := Option.ne_none_iff_exists'.mp hsome
    obtain ⟨hc, hstart⟩ := create_opens m opts hmake (Bool.eq_false_of_not_eq_true hopen) ht₂
    have hw := appends_writing calls hstart
    have hne : (opened a dir cwd dest m opts).tmpName ≠ (opened a dir cwd dest m opts).destName := tempName_ne _ _ _
    unfold session
    rw [hc]
    dsimp only
    rcases happ : appends (opened a dir cwd dest m opts, t₂) calls with ⟨w, t₄⟩
    rw [happ] at hw
    dsimp only at hw ⊢
    by_cases hfin : finishes = true
    · have hstuck : ¬ Renames a (opened a dir cwd dest m opts) t₁ (accepted calls) := fun hr =>
        h ⟨hfin, ⟨Bool.eq_false_of_not_eq_true hopen, hr.synced, hr.answered⟩, by rw [ht₂]; rfl, hr.total, hr.hash,
          hr.plain, hr.free⟩
      obtain ⟨w', t₅, e, hfinish, hdir, htmp, hdirs, hother⟩ := finish_stops hw hne hstuck
      obtain ⟨hdirs', hother'⟩ := destroy_frame w' t₅
      rw [if_pos hfin, hfinish]
      refine ⟨_, rfl, destNode_frame hmake (hdirs.trans hdirs') a.pid fun q hq => ?_⟩
      rw [hother' q (by rw [hdir, htmp]; exact hq), hother q hq]
    · obtain ⟨hdirs', hother'⟩ := destroy_frame w t₄
      have hplace : w.dir = dir ∧ w.tmpName = tempName a.pid cwd dest := by
        rw [hw.same]
        exact ⟨rfl, rfl⟩
      rw [if_neg hfin]
      refine ⟨_, rfl, destNode_frame hmake (hw.dirs.trans hdirs') a.pid fun q hq => ?_⟩
      rw [hother' q (by rw [hplace.1, hplace.2]; exact hq), hw.other q hq]

end

/-! ### Atomicity -/

/-- The contract: `finish` succeeds and the destination is the bytes appended,
as many as the manifest says and with its witness; or it does not, and the
destination is what it was. -/
structure Atomic (a : Answers) (t : FileTree) (cwd : Path) (dest : String) (m : Manifest) (opts : StWriterOptions)
    (calls : List (Bytes × Nat)) (finishes : Bool) : Prop where
  success : (session a t cwd dest m opts calls finishes).2 = true →
    destNode (session a t cwd dest m opts calls finishes).1 cwd dest =
        some (.file (String.ofList (charsOf (accepted calls)))) ∧
      (accepted calls).length = m.file.totalBytes ∧
      (opts.verifySha256 = true → m.file.sha256 ≠ "" → hex (Sha256.hash (accepted calls)) = m.file.sha256)
  failure : (session a t cwd dest m opts calls finishes).2 = false →
    destNode (session a t cwd dest m opts calls finishes).1 cwd dest = destNode t cwd dest

/-- When a session keeps it. One that is renamed into place and can sync the
directory: neither the leftover temp file nor a failed append reaches past the
end. One that cannot sync it: the destination already was what is renamed onto
it. Any other: making the directories left what the destination names. -/
def AtomicWhen (a : Answers) (t : FileTree) (cwd : Path) (dest : String) (m : Manifest) (opts : StWriterOptions)
    (calls : List (Bytes × Nat)) (finishes : Bool) : Prop :=
  match t.makeDirs [] (parentComps cwd dest) with
  | (t₁, none) => destNode t₁ cwd dest = destNode t cwd dest
  | (t₁, some dir) =>
    (Commits a t₁ dir cwd dest m opts calls finishes →
      if a.fsyncDirFails = false ∧ parentPath dest ≠ "" then
        reach (leftover t₁ dir a.pid cwd dest) calls ≤ m.file.totalBytes
      else destNode t cwd dest = some (.file (String.ofList (tempText (leftover t₁ dir a.pid cwd dest) calls)))) ∧
    (¬ Commits a t₁ dir cwd dest m opts calls finishes → destNode t₁ cwd dest = destNode t cwd dest)

/-- The temp file is what was appended when it reaches no further. -/
theorem tempText_eq_iff (text : String) (calls : List (Bytes × Nat)) :
    tempText text calls = charsOf (accepted calls) ↔ reach text calls ≤ (accepted calls).length := by
  have hfront : filled (charsOf (accepted calls)) (tempText text calls) = tempText text calls := by
    have hrun : ∀ (calls : List (Bytes × Nat)) (s : Bytes × List Char), filled (charsOf s.1) s.2 = s.2 →
        filled (charsOf (calls.foldl acceptCall s.1)) (calls.foldl tempCall s).2 = (calls.foldl tempCall s).2 := by
      intro calls
      induction calls with
      | nil => exact fun _ h => h
      | cons c rest ih => exact fun s _ => ih (tempCall s c) (tempCall_filled s c)
    exact hrun calls ([], text.toList) (filled_nil _)
  rw [← length_tempText]
  constructor
  · intro h
    rw [h, length_charsOf]
  · intro h
    rw [← hfront, filled, length_charsOf, List.drop_eq_nil_of_le h, List.append_nil]

section
variable {a : Answers} {t t₁ : FileTree} {cwd : Path} {dest : String} {m : Manifest} {opts : StWriterOptions}
  {calls : List (Bytes × Nat)} {finishes : Bool} {dir : Path}

theorem atomic_of_commits_iff (hmake : t.makeDirs [] (parentComps cwd dest) = (t₁, some dir))
    (h : Commits a t₁ dir cwd dest m opts calls finishes) :
    Atomic a t cwd dest m opts calls finishes ↔
      if a.fsyncDirFails = false ∧ parentPath dest ≠ "" then
        reach (leftover t₁ dir a.pid cwd dest) calls ≤ m.file.totalBytes
      else destNode t cwd dest = some (.file (String.ofList (tempText (leftover t₁ dir a.pid cwd dest) calls))) := by
  obtain ⟨t', ok, hsession, hok, hdest⟩ := session_commits hmake h
  by_cases hs : a.fsyncDirFails = false ∧ parentPath dest ≠ ""
  · rw [if_pos hs, ← h.total, ← tempText_eq_iff]
    have htrue := hok.mpr hs
    constructor
    · intro hatomic
      have hdest' := hatomic.success (by rw [hsession]; exact htrue)
      rw [hsession] at hdest'
      have htext := hdest.symm.trans hdest'.1
      exact String.ofList_injective (Node.file.inj (Option.some.inj htext))
    · intro htext
      refine ⟨fun _ => ?_, fun hfalse => ?_⟩
      · rw [hsession, hdest, htext]
        exact ⟨rfl, h.total, h.hash⟩
      · rw [hsession] at hfalse
        rw [htrue] at hfalse
        cases hfalse
  · rw [if_neg hs]
    have hfalse : ok = false := Bool.eq_false_of_not_eq_true fun h => hs (hok.mp h)
    constructor
    · intro hatomic
      have hdest' := hatomic.failure (by rw [hsession]; exact hfalse)
      rw [hsession] at hdest'
      exact hdest'.symm.trans hdest
    · intro htext
      refine ⟨fun htrue => ?_, fun _ => ?_⟩
      · rw [hsession] at htrue
        rw [hfalse] at htrue
        cases htrue
      · rw [hsession, hdest, htext]

/-- A session that fails is atomic when the destination is what it was. -/
theorem atomic_of_failure {t' : FileTree} (hsession : session a t cwd dest m opts calls finishes = (t', false)) :
    Atomic a t cwd dest m opts calls finishes ↔ destNode t' cwd dest = destNode t cwd dest := by
  constructor
  · intro hatomic
    have hdest := hatomic.failure (by rw [hsession])
    rwa [hsession] at hdest
  · intro hdest
    refine ⟨fun htrue => ?_, fun _ => ?_⟩
    · rw [hsession] at htrue
      cases htrue
    · rw [hsession, hdest]

theorem atomic_of_stops_iff (hmake : t.makeDirs [] (parentComps cwd dest) = (t₁, some dir))
    (h : ¬ Commits a t₁ dir cwd dest m opts calls finishes) :
    Atomic a t cwd dest m opts calls finishes ↔ destNode t₁ cwd dest = destNode t cwd dest := by
  obtain ⟨t', hsession, hdest⟩ := session_stops hmake h
  rw [atomic_of_failure hsession, hdest]

end

/-- A session is atomic exactly then. -/
theorem session_atomic_iff (a : Answers) (t : FileTree) (cwd : Path) (dest : String) (m : Manifest)
    (opts : StWriterOptions) (calls : List (Bytes × Nat)) (finishes : Bool) :
    Atomic a t cwd dest m opts calls finishes ↔ AtomicWhen a t cwd dest m opts calls finishes := by
  unfold AtomicWhen
  rcases hmake : t.makeDirs [] (parentComps cwd dest) with ⟨t₁, _ | dir⟩
  · have hcreate : session a t cwd dest m opts calls finishes = (t₁, false) := by
      unfold session create
      rw [hmake]
      rfl
    exact atomic_of_failure hcreate
  · dsimp only
    by_cases h : Commits a t₁ dir cwd dest m opts calls finishes
    · rw [atomic_of_commits_iff hmake h]
      exact ⟨fun hc => ⟨fun _ => hc, fun hn => absurd h hn⟩, fun hw => hw.1 h⟩
    · rw [atomic_of_stops_iff hmake h]
      exact ⟨fun hc => ⟨fun hn => absurd hn h, fun _ => hc⟩, fun hw => hw.2 h⟩

/-! ### A temp file left behind -/

/-- The temp file of process 7, left by a session that did not end. -/
def crashedTree : FileTree :=
  FileTree.ofLists [["out"]] [(["out", tempName 7 [] "out/m.safetensors"], "longer")]
    (by simp) (by simp) (by simp)

def oneByteManifest : Manifest :=
  ⟨1, "blake3-256", ⟨"m.safetensors", zeroOid, 1, hex (Sha256.hash [1])⟩, [], FinMap.empty⟩

/-- One byte written over six: `finish` succeeds and the destination has six. -/
theorem leftover_not_atomic : ¬ ∀ (a : Answers) (t : FileTree) (cwd : Path) (dest : String) (m : Manifest)
    (opts : StWriterOptions) (calls : List (Bytes × Nat)) (finishes : Bool),
      Atomic a t cwd dest m opts calls finishes := by
  intro h
  have hcomps : parentComps [] "out/m.safetensors" = ["out"] := rfl
  have hname : fileName [] "out/m.safetensors" = "m.safetensors" := rfl
  have hdir : crashedTree.nodes.get? ["out"] = some .dir :=
    FileTree.ofLists_dir _ _ _ _ _ (List.mem_cons_of_mem _ (List.mem_singleton_self _)) (List.prefix_refl _)
  have hfile : ∀ (name text : String), crashedTree.nodes.get? ["out", name] = some (.file text) ↔
      (["out", name], text) ∈ [(["out", tempName 7 [] "out/m.safetensors"], "longer")] :=
    fun name text => FileTree.ofLists_file _ _ _ _ _ _ _
  have htemp : crashedTree.nodes.get? (["out"] ++ [tempName 7 [] "out/m.safetensors"]) = some (.file "longer") :=
    (hfile _ _).mpr (List.mem_singleton_self _)
  have hmake : crashedTree.makeDirs [] (parentComps [] "out/m.safetensors") = (crashedTree, some ["out"]) := by
    rw [hcomps]
    exact FileTree.makeDirs_of_dir crashedTree [] ["out"] (by decide) hdir
  have hopen : (crashedTree.openFile ["out"] (tempName 7 [] "out/m.safetensors")).isSome = true := by
    have hplain : PlainName (tempName 7 [] "out/m.safetensors") := by
      rw [show tempName 7 [] "out/m.safetensors" = "m.safetensors.sfs-tmp-7" from rfl]
      decide
    unfold FileTree.openFile
    rw [dif_pos ⟨hdir, by rw [htemp]; exact nofun, hplain⟩]
    rfl
  have hfree : crashedTree.nodes.get? (["out"] ++ [fileName [] "out/m.safetensors"]) ≠ some .dir := by
    rw [hname]
    intro hd
    rw [FinMap.get?_eq_some] at hd
    simp [crashedTree, FileTree.ofLists] at hd
  have hcommits : Commits ⟨7, false, false, false, false⟩ crashedTree ["out"] [] "out/m.safetensors" oneByteManifest ⟨true⟩
      [([1], 1)] true :=
    ⟨rfl, ⟨rfl, rfl, rfl⟩, hopen, by decide, fun _ _ => rfl, by rw [hname]; decide, hfree⟩
  have hatomic := (atomic_of_commits_iff hmake hcommits).mp (h _ _ _ _ _ _ _ _)
  have hleft : leftover crashedTree ["out"] 7 [] "out/m.safetensors" = "longer" := by
    rw [leftover, FileTree.text?_eq_some.mpr htemp]
    rfl
  rw [if_pos ⟨rfl, by simp [parentPath]⟩, hleft] at hatomic
  exact absurd hatomic (by decide)

end StWriter

end SynapseFs.Stio
