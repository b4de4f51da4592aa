import SynapseFs.Lib.Bytes
import SynapseFs.Lib.CrashFs
import SynapseFs.Lib.FileTree
import SynapseFs.Lib.Runs

/-! Atomic writes.

A write goes to a temp file of a random name, which is synced and renamed into place,
and then the directory is synced. Any number of writers do this at the same time, each
call may fail, temp files are swept away under them, and the power may fail at any
moment. No reader ever finds a part of a file (`atomic_write_whole`), and what a writer
has reported stays, where the directory stays (`atomic_write_durable`). A directory that
it made itself may not stay (`fresh_directory_lost`), nor a file that it only found
(`found_not_durable`). -/
namespace SynapseFs.Util
open Lib

structure AtomicWriteOptions where
  /-- The directory of the destination if it is empty. -/
  tempDir : Path
  fsyncContents : Bool
  fsyncParent : Bool
  overwrite : Bool

/-- `make_temp_name`, with the random number. -/
def makeTempName (dir : Path) (random : Nat) : Path := dir ++ [String.ofList ("tmp.".toList ++ Nat.toDigits 16 random)]

def isTempName (p : Path) : Bool := (p.getLast?.map fun c => "tmp.".toList.isPrefixOf c.toList).getD false

inductive WriteStep where
  | start
  | opening (attempt : Nat)
  /-- `off` bytes are written. -/
  | writing (tmp : Path) (fd off : Nat)
  | syncing (tmp : Path) (fd : Nat)
  /-- The file is closed. -/
  | renaming (tmp : Path) (fd : Nat)
  /-- The rename was the one of this number. -/
  | syncingParent (entry : Nat)
  | removing (tmp : Path)
  | done (ok : Bool)
  deriving DecidableEq, Repr

/-- A call of `atomic_write`. -/
structure Writer where
  dest : Path
  data : Bytes
  opts : AtomicWriteOptions
  step : WriteStep

/-- What the system answers to a call. -/
inductive Answer where
  | ok
  | fails
  /-- The temp file of this random number is created, or is there already. -/
  | opened (random : Nat)
  | exists (random : Nat)
  | wrote (n : Nat)
  | interrupted
  deriving DecidableEq, Repr

/-- The directories that a path leads through. -/
def parents (p : Path) : List Path := p.dropLast.inits.filter (· ≠ [])

/-- `fs::create_directories`. A directory has no content that could be lost, only a name. -/
def createDirectories (dirs : CrashFs Path Unit) (p : Path) : CrashFs Path Unit :=
  (p.inits.filter (· ≠ [])).foldl (fun d a => if (d.names a).isSome then d else (d.create a ()).fsync d.inodes.length) dirs

def reaches (dirs : CrashFs Path Unit) (p : Path) : Bool := (parents p).all fun a => (dirs.names a).isSome

structure AtomicSys where
  fs : CrashFs Path Bytes
  dirs : CrashFs Path Unit
  writers : List Writer
  /-- Temp files that were swept away. -/
  swept : List Path
  /-- The renames so far, with what was renamed. -/
  log : List (Path × Bytes)

inductive AtomicAct where
  | spawn (dest : Path) (data : Bytes) (opts : AtomicWriteOptions)
  | run (i : Nat) (a : Answer)
  /-- `purge_temp_dir`, or the sweep of gc. -/
  | sweep (p : Path)
  | crash (pick : Path → Nat) (garbage : Nat → Bytes) (pickDir : Path → Nat)

def AtomicAct.isCrash : AtomicAct → Bool
  | .crash _ _ _ => true
  | _ => false

def Writer.tempDir (w : Writer) : Path := if w.opts.tempDir = [] then w.dest.dropLast else w.opts.tempDir

namespace AtomicSys

def readFile (s : AtomicSys) (p : Path) : Option Bytes := if reaches s.dirs p then s.fs.read p else none

def put (s : AtomicSys) (i : Nat) (w : Writer) (step : WriteStep) : AtomicSys :=
  { s with writers := s.writers.set i { w with step } }

/-- The next call of a writer. -/
def advance (s : AtomicSys) (i : Nat) (w : Writer) : WriteStep → Answer → Option AtomicSys
  | .start, .ok =>
    if w.opts.overwrite = false ∧ (s.readFile w.dest).isSome then some (s.put i w (.done true))
    else
      some ({ s with dirs := createDirectories (createDirectories s.dirs w.tempDir) w.dest.dropLast }.put i w (.opening 0))
  | .opening _, .opened random =>
    let tmp := makeTempName w.tempDir random
    -- `O_EXCL`; and a name that was swept away is not drawn again.
    if (s.fs.names tmp).isNone ∧ tmp ∉ s.swept then
      some ({ s with fs := s.fs.create tmp [] }.put i w (.writing tmp s.fs.inodes.length 0))
    else none
  | .opening attempt, .exists random =>
    if (s.fs.names (makeTempName w.tempDir random)).isSome then
      some (s.put i w (if attempt + 1 < 8 then .opening (attempt + 1) else .done false))
    else none
  | .opening _, .fails => some (s.put i w (.done false))
  | .writing tmp fd off, .wrote n =>
    if off < w.data.length ∧ n ≤ w.data.length - off then
      some ({ s with fs := s.fs.write fd (overwrite ((s.fs.contentAt (some fd)).getD []) off (slice w.data off n)) }.put i w
        (.writing tmp fd (off + n)))
    else none
  | .writing tmp fd off, .interrupted => if off < w.data.length then some (s.put i w (.writing tmp fd off)) else none
  | .writing tmp _ off, .fails => if off < w.data.length then some (s.put i w (.removing tmp)) else none
  | .writing tmp fd off, .ok =>
    if off < w.data.length then none
    else some (s.put i w (if w.opts.fsyncContents then .syncing tmp fd else .renaming tmp fd))
  | .syncing tmp fd, .ok => some ({ s with fs := s.fs.fsync fd }.put i w (.renaming tmp fd))
  | .syncing tmp _, .fails => some (s.put i w (.removing tmp))
  | .renaming tmp _, .ok =>
    if (s.fs.names tmp).isSome then
      some ({ s with fs := s.fs.rename tmp w.dest, log := s.log ++ [(w.dest, w.data)] }.put i w
        (if w.opts.fsyncParent then .syncingParent s.log.length else .done true))
    else none
  | .renaming tmp _, .fails => some (s.put i w (.removing tmp))
  | .syncingParent _, .ok =>
    some ({ s with
      fs := s.fs.syncDir fun p => p.dropLast = w.dest.dropLast
      dirs := s.dirs.syncDir fun p => p.dropLast = w.dest.dropLast }.put i w (.done true))
  | .syncingParent _, .fails => some (s.put i w (.done false))
  | .removing tmp, .ok => some ({ s with fs := s.fs.unlink tmp }.put i w (.done false))
  | .removing _, .fails => some (s.put i w (.done false))
  | _, _ => none

def step (s : AtomicSys) : AtomicAct → Option AtomicSys
  | .spawn dest data opts => some { s with writers := s.writers ++ [⟨dest, data, opts, .start⟩] }
  | .run i a => (s.writers[i]?).bind fun w => s.advance i w w.step a
  | .sweep p => if isTempName p then some { s with fs := s.fs.unlink p, swept := p :: s.swept } else none
  -- The processes are gone.
  | .crash pick garbage pickDir =>
    -- What was in a directory that is lost is lost.
    let dirs := s.dirs.crash pickDir fun _ => ()
    some { s with fs := (s.fs.crash pick garbage).keep (reaches dirs), dirs := dirs.keep (reaches dirs), writers := [] }

/-- Nothing but temp files has the name of one, and contents are synced. -/
def sane (_ : AtomicSys) : AtomicAct → Bool
  | .spawn dest _ opts => !isTempName dest && opts.fsyncContents
  | _ => true

def start (fs : CrashFs Path Bytes) (dirs : CrashFs Path Unit) : AtomicSys := ⟨fs, dirs, [], [], []⟩

end AtomicSys

theorem isTempName_makeTempName (dir : Path) (random : Nat) : isTempName (makeTempName dir random) = true := by
  rw [isTempName, makeTempName, List.getLast?_append]
  simp

/-! ### Directories -/

theorem mem_parents {a p : Path} : a ∈ parents p ↔ a <+: p.dropLast ∧ a ≠ [] := by
  rw [parents, List.mem_filter, List.mem_inits, decide_eq_true_eq]

theorem parents_trans {a b p : Path} (hb : b ∈ parents a) (ha : a ∈ parents p) : b ∈ parents p := by
  rw [mem_parents] at hb ha ⊢
  exact ⟨hb.1.trans ((List.dropLast_prefix a).trans ha.1), hb.2⟩

/-- A directory that is there. -/
def IsDir (r : Option Unit) : Prop := r ≠ none

theorem isSome_of_certain {dirs : CrashFs Path Unit} {a : Path} (h : dirs.Certain a IsDir) : (dirs.names a).isSome = true := by
  have hread := h.read
  unfold CrashFs.read at hread
  cases hname : dirs.names a with
  | none =>
    rw [hname] at hread
    exact absurd rfl hread
  | some i => rfl

theorem certain_createDirectories {dirs : CrashFs Path Unit} {a : Path} (h : dirs.Certain a IsDir) (p : Path) :
    (createDirectories dirs p).Certain a IsDir := by
  unfold createDirectories
  induction p.inits.filter (· ≠ []) generalizing dirs with
  | nil => exact h
  | cons b rest ih =>
    rw [List.foldl_cons]
    refine ih ?_
    split
    · exact h
    · next hnone =>
      have hne : a ≠ b := by
        rintro rfl
        exact hnone (isSome_of_certain h)
      exact ((h.alloc ()).bind_ne hne).fsync _

namespace AtomicSys

/-- The directories that lead to a file stay. -/
def DirsCertain (s : AtomicSys) (p : Path) : Prop := ∀ a ∈ parents p, s.dirs.Certain a IsDir

variable {s : AtomicSys} {p : Path}

theorem DirsCertain.reaches (h : s.DirsCertain p) : reaches s.dirs p = true :=
  List.all_eq_true.mpr fun a ha => isSome_of_certain (h a ha)

theorem DirsCertain.crash (h : s.DirsCertain p) (pick : Path → Nat) :
    Util.reaches (s.dirs.crash pick fun _ => ()) p = true ∧
      ∀ a ∈ parents p, ((s.dirs.crash pick fun _ => ()).keep (Util.reaches (s.dirs.crash pick fun _ => ()))).Certain a IsDir := by
  have hcrash : ∀ a ∈ parents p, (s.dirs.crash pick fun _ => ()).Certain a IsDir := fun a ha => (h a ha).crash pick _
  refine ⟨List.all_eq_true.mpr fun a ha => isSome_of_certain (hcrash a ha), fun a ha => (hcrash a ha).keep (.inl ?_)⟩
  exact List.all_eq_true.mpr fun b hb => isSome_of_certain (hcrash b (parents_trans hb ha))

end AtomicSys

/-! ### What a writer has -/

namespace Writer

def temp? (w : Writer) : Option Path :=
  match w.step with
  | .writing tmp _ _ => some tmp
  | .syncing tmp _ => some tmp
  | .renaming tmp _ => some tmp
  | .removing tmp => some tmp
  | _ => none

/-- The file that it writes, and what is in it. -/
def file? (w : Writer) : Option (Nat × Inode Bytes) :=
  match w.step with
  | .writing _ fd off => some (fd, ⟨w.data.take off, none⟩)
  | .syncing _ fd => some (fd, ⟨w.data, none⟩)
  | .renaming _ fd => some (fd, ⟨w.data, some w.data⟩)
  | _ => none

end Writer

namespace AtomicSys

/-- The file at `p` is in place and certain, by the rename of number `k` or a later one. -/
def Landed (s : AtomicSys) (p : Path) (k : Nat) : Prop :=
  ∃ i j c, s.fs.names p = some i ∧ s.fs.inodes[i]? = some ⟨c, some c⟩ ∧ k ≤ j ∧ s.log[j]? = some (p, c)

structure Owns (s : AtomicSys) (w : Writer) : Prop where
  plain : isTempName w.dest = false
  synced : w.opts.fsyncContents = true
  /-- Its temp file is there, or it was swept away. -/
  temp : ∀ t, w.temp? = some t → isTempName t = true ∧ ((s.fs.names t).isSome ∨ t ∈ s.swept)
  file : ∀ fd x, w.file? = some (fd, x) →
    s.fs.inodes[fd]? = some x ∧ ∀ t, w.temp? = some t → ∀ i, s.fs.names t = some i → i = fd
  within : ∀ tmp fd off, w.step = .writing tmp fd off → off ≤ w.data.length
  landed : ∀ k, w.step = .syncingParent k → s.Landed w.dest k

/-- No two have a temp file or an open file in common. -/
def Apart (a b : Writer) : Prop :=
  (∀ t, a.temp? = some t → b.temp? ≠ some t) ∧ ∀ fd x y, a.file? = some (fd, x) → b.file? ≠ some (fd, y)

/-- What a writer has is as it was, but for a sweep. -/
structure Spares (w : Writer) (s s' : AtomicSys) : Prop where
  names : ∀ t, w.temp? = some t → s'.fs.names t = s.fs.names t ∨ s'.fs.names t = none ∧ t ∈ s'.swept
  swept : ∀ t ∈ s.swept, t ∈ s'.swept
  file : ∀ fd x, w.file? = some (fd, x) → s.fs.inodes[fd]? = some x → s'.fs.inodes[fd]? = some x
  landed : ∀ k, s.Landed w.dest k → s'.Landed w.dest k

/-- What was certain of the other names still is, but for what was renamed onto them, and but for a file in a directory
that is lost. -/
structure Carries (s s' : AtomicSys) : Prop where
  log : s.log <+: s'.log
  dirs : ∀ p, s.DirsCertain p → s'.DirsCertain p
  certain : ∀ p, isTempName p = false → ∀ P : Option Bytes → Prop, s.DirsCertain p ∨ P none → s.fs.Certain p P →
    s'.fs.Certain p fun r => P r ∨ ∃ j c, s.log.length ≤ j ∧ s'.log[j]? = some (p, c) ∧ r = some c

variable {s s' : AtomicSys} {w : Writer}

theorem Owns.spared (h : s.Owns w) (hs : Spares w s s') : s'.Owns w where
  plain := h.plain
  synced := h.synced
  temp t ht := by
    obtain ⟨htemp, hthere⟩ := h.temp t ht
    refine ⟨htemp, ?_⟩
    rcases hs.names t ht with heq | ⟨-, hswept⟩
    · rw [heq]
      exact hthere.imp id (hs.swept t)
    · exact .inr hswept
  file fd x hfile := by
    obtain ⟨hinode, hname⟩ := h.file fd x hfile
    refine ⟨hs.file fd x hfile hinode, fun t ht i hi => ?_⟩
    rcases hs.names t ht with heq | ⟨hnone, -⟩
    · exact hname t ht i (heq ▸ hi)
    · rw [hnone] at hi
      cases hi
  within := h.within
  landed k hk := hs.landed k (h.landed k hk)

theorem DirsCertain.congr {p : Path} (hdirs : s'.dirs = s.dirs) (h : s.DirsCertain p) : s'.DirsCertain p := fun a ha => by
  rw [hdirs]
  exact h a ha

theorem Carries.refl_fs (hfs : s'.fs = s.fs) (hlog : s'.log = s.log) (hdirs : ∀ p, s.DirsCertain p → s'.DirsCertain p) :
    Carries s s' where
  log := by rw [hlog]
  dirs := hdirs
  certain p _ P _ hp := by
    rw [hfs]
    exact hp.mono fun r hr => .inl hr

/-! ### One call -/

section
variable (hw : s.Owns w)

theorem names_of_ne {fs : CrashFs Path Bytes} {n p : Path} (target : Option Nat) (h : p ≠ n) :
    (fs.bind n target).names p = fs.names p := by
  rw [CrashFs.bind_names, if_neg h]

theorem ne_of_temp {p t : Path} (hp : isTempName p = false) (ht : isTempName t = true) : p ≠ t := by
  rintro rfl
  rw [hp] at ht
  cases ht

/-- A name of a temp file is bound anew. -/
theorem carries_temp {t : Path} (ht : isTempName t = true) {target : Option Nat} {fs : CrashFs Path Bytes}
    (hfs : ∀ p P, s.fs.Certain p P → fs.Certain p P) (hs' : s'.fs = fs.bind t target) (hlog : s'.log = s.log)
    (hdirs : s'.dirs = s.dirs) : Carries s s' where
  log := by rw [hlog]
  dirs p := .congr hdirs
  certain p hp P _ hcertain := by
    rw [hs']
    exact ((hfs p P hcertain).bind_ne (ne_of_temp hp ht)).mono fun r hr => .inl hr

include hw

theorem spares_create {tmp : Path} (htmp : isTempName tmp = true) (hnone : s.fs.names tmp = none) (hswept : tmp ∉ s.swept) :
    Spares w s { s with fs := s.fs.create tmp [] } where
  names t ht := by
    left
    obtain ⟨-, hthere⟩ := hw.temp t ht
    refine names_of_ne _ ?_
    rintro rfl
    rw [hnone] at hthere
    exact hthere.elim nofun hswept
  swept t ht := ht
  file fd x _ hinode := by
    show (s.fs.inodes ++ [_])[fd]? = some x
    rw [List.getElem?_append_left (List.getElem?_eq_some_iff.mp hinode).1, hinode]
  landed := by
    rintro k ⟨i, j, c, hname, hinode, hj, hlog⟩
    refine ⟨i, j, c, ?_, ?_, hj, hlog⟩
    · exact (names_of_ne _ (ne_of_temp hw.plain htmp)).trans hname
    · show (s.fs.inodes ++ [_])[i]? = _
      rw [List.getElem?_append_left (List.getElem?_eq_some_iff.mp hinode).1, hinode]

omit hw in
theorem spares_write {fd : Nat} {x : Inode Bytes} (hfd : ∀ y, w.file? ≠ some (fd, y)) (hx : s.fs.inodes[fd]? = some x)
    (hloose : x.durable = none) (content : Bytes) : Spares w s { s with fs := s.fs.write fd content } where
  names t _ := .inl rfl
  swept t ht := ht
  file i y hfile hinode := by
    have hne : fd ≠ i := by
      rintro rfl
      exact hfd y hfile
    show (s.fs.inodes.set fd _)[i]? = some y
    rw [List.getElem?_set_ne hne, hinode]
  landed := by
    rintro k ⟨i, j, c, hname, hinode, hj, hlog⟩
    have hne : fd ≠ i := by
      rintro rfl
      rw [hinode] at hx
      cases hx
      cases hloose
    refine ⟨i, j, c, hname, ?_, hj, hlog⟩
    show (s.fs.inodes.set fd _)[i]? = _
    rw [List.getElem?_set_ne hne, hinode]

omit hw in
theorem spares_fsync {fd : Nat} (hfd : ∀ y, w.file? ≠ some (fd, y)) : Spares w s { s with fs := s.fs.fsync fd } where
  names t _ := .inl rfl
  swept t ht := ht
  file i y hfile hinode := by
    have hne : fd ≠ i := by
      rintro rfl
      exact hfd y hfile
    show (s.fs.inodes.modify fd _)[i]? = some y
    rw [List.getElem?_modify, hinode]
    exact congrArg some (if_neg hne)
  landed := by
    rintro k ⟨i, j, c, hname, hinode, hj, hlog⟩
    refine ⟨i, j, c, hname, ?_, hj, hlog⟩
    show (s.fs.inodes.modify fd _)[i]? = _
    rw [List.getElem?_modify, hinode]
    by_cases hi : fd = i
    · exact congrArg some (if_pos hi)
    · exact congrArg some (if_neg hi)

theorem spares_rename {tmp dest : Path} {fd : Nat} {data : Bytes} (htmp : isTempName tmp = true)
    (hdest : isTempName dest = false) (hmine : w.temp? ≠ some tmp) (hname : s.fs.names tmp = some fd)
    (hfile : s.fs.inodes[fd]? = some ⟨data, some data⟩) :
    Spares w s { s with fs := s.fs.rename tmp dest, log := s.log ++ [(dest, data)] } where
  names t ht := by
    left
    have hne : t ≠ tmp := by
      rintro rfl
      exact hmine ht
    rw [CrashFs.rename, names_of_ne _ hne, names_of_ne _ (ne_of_temp hdest (hw.temp t ht).1).symm]
  swept t ht := ht
  file fd x _ hinode := hinode
  landed := by
    rintro k ⟨i, j, c, hname', hinode, hj, hlog⟩
    have hlt := (List.getElem?_eq_some_iff.mp hlog).1
    by_cases hp : w.dest = dest
    · refine ⟨fd, s.log.length, data, ?_, hfile, by omega, ?_⟩
      · rw [CrashFs.rename, hp, names_of_ne _ (ne_of_temp hdest htmp), CrashFs.bind_names, if_pos rfl, hname]
      · rw [hp]
        exact List.getElem?_concat_length
    · refine ⟨i, j, c, ?_, hinode, hj, ?_⟩
      · rw [CrashFs.rename, names_of_ne _ (ne_of_temp hw.plain htmp), names_of_ne _ hp, hname']
      · show (s.log ++ [_])[j]? = _
        rw [List.getElem?_append_left hlt, hlog]

omit hw in
theorem spares_unlink {t : Path} (hplain : isTempName w.dest = false) (ht : isTempName t = true) {swept : List Path}
    (hmine : w.temp? ≠ some t ∨ t ∈ swept) (hswept : ∀ t ∈ s.swept, t ∈ swept) :
    Spares w s { s with fs := s.fs.unlink t, swept := swept } where
  names t' ht' := by
    by_cases hne : t' = t
    · right
      rw [CrashFs.unlink, CrashFs.bind_names, if_pos hne, hne]
      exact ⟨rfl, hmine.resolve_left fun h => h (hne ▸ ht')⟩
    · left
      exact names_of_ne _ hne
  swept := hswept
  file fd x _ hinode := hinode
  landed := by
    rintro k ⟨i, j, c, hname, hinode, hj, hlog⟩
    exact ⟨i, j, c, (names_of_ne _ (ne_of_temp hplain ht)).trans hname, hinode, hj, hlog⟩

end

theorem carries_rename (dest : Path) {tmp : Path} {fd : Nat} {data : Bytes} (htmp : isTempName tmp = true)
    (hname : s.fs.names tmp = some fd) (hfile : s.fs.inodes[fd]? = some ⟨data, some data⟩) :
    Carries s { s with fs := s.fs.rename tmp dest, log := s.log ++ [(dest, data)] } where
  log := List.prefix_append _ _
  dirs p := .congr rfl
  certain p hp P _ hcertain := by
    have hnew : p = dest → (s.fs.bind dest (s.fs.names tmp)).Certain p fun r => P r ∨
        ∃ j c, s.log.length ≤ j ∧ (s.log ++ [(dest, data)])[j]? = some (p, c) ∧ r = some c := by
      rintro rfl
      rw [hname]
      refine (hcertain.mono fun r hr => .inl hr).bind_self (fun i hi => ?_) (.inr ⟨s.log.length, data, Nat.le_refl _, ?_, ?_⟩)
      · cases hi
        exact ⟨_, hfile, rfl⟩
      · exact List.getElem?_concat_length
      · rw [CrashFs.contentAt, hfile]
        rfl
    rw [CrashFs.rename]
    refine CrashFs.Certain.bind_ne ?_ (ne_of_temp hp htmp)
    by_cases hdest : p = dest
    · exact hnew hdest
    · exact (hcertain.bind_ne hdest).mono fun r hr => .inl hr

/-! ### One step -/

/-- The writers do not get in each other's way. -/
structure Inv (s : AtomicSys) : Prop where
  owns : ∀ (i : Nat) (w : Writer), s.writers[i]? = some w → s.Owns w
  apart : ∀ (i j : Nat) (a b : Writer), i ≠ j → s.writers[i]? = some a → s.writers[j]? = some b → Apart a b

/-- A writer moves, and spares the others. -/
theorem Inv.move (h : s.Inv) {i : Nat} {w w' : Writer} (hw : s.writers[i]? = some w) (hwriters : s'.writers = s.writers.set i w')
    (hspares : ∀ (j : Nat) (b : Writer), j ≠ i → s.writers[j]? = some b → Spares b s s') (hown : s'.Owns w')
    (hapart : ∀ (j : Nat) (b : Writer), j ≠ i → s.writers[j]? = some b → Apart w' b ∧ Apart b w') : s'.Inv where
  owns j b hb := by
    rw [hwriters] at hb
    rcases getElem?_set_cases hb with ⟨rfl, rfl⟩ | ⟨hj, hb⟩
    · exact hown
    · exact (h.owns j b hb).spared (hspares j b hj hb)
  apart j k a b hjk ha hb := by
    rw [hwriters] at ha hb
    rcases getElem?_set_cases ha with ⟨rfl, rfl⟩ | ⟨hj, ha'⟩
    · rcases getElem?_set_cases hb with ⟨rfl, -⟩ | ⟨hk, hb'⟩
      · exact absurd rfl hjk
      · exact (hapart k b hk hb').1
    · rcases getElem?_set_cases hb with ⟨rfl, rfl⟩ | ⟨hk, hb'⟩
      · exact (hapart j a hj ha').2
      · exact h.apart j k a b hjk ha' hb'

/-- A writer that has nothing more than before stays apart from the others. -/
theorem Apart.less {a a' b : Writer} (h : Apart a b ∧ Apart b a) (htemp : ∀ t, a'.temp? = some t → a.temp? = some t)
    (hfile : ∀ fd x, a'.file? = some (fd, x) → ∃ y, a.file? = some (fd, y)) : Apart a' b ∧ Apart b a' := by
  refine ⟨⟨fun t ht => h.1.1 t (htemp t ht), fun fd x y hx => ?_⟩, fun t ht ht' => h.2.1 t ht (htemp t ht'), fun fd x y hx hy => ?_⟩
  · obtain ⟨z, hz⟩ := hfile fd x hx
    exact h.1.2 fd z y hz
  · obtain ⟨z, hz⟩ := hfile fd y hy
    exact h.2.2 fd x z hx hz

theorem Inv.others (h : s.Inv) {i : Nat} (hw : s.writers[i]? = some w) {j : Nat} {b : Writer} (hj : j ≠ i)
    (hb : s.writers[j]? = some b) : s.Owns b ∧ Apart w b ∧ Apart b w :=
  ⟨h.owns j b hb, h.apart i j w b hj.symm hw hb, h.apart j i b w hj hb hw⟩

/-- A writer that makes no call. -/
theorem Inv.stay (h : s.Inv) {i : Nat} (hw : s.writers[i]? = some w) {step : WriteStep} (hown : s.Owns { w with step })
    (htemp : ∀ t, ({ w with step } : Writer).temp? = some t → w.temp? = some t)
    (hfile : ∀ fd x, ({ w with step } : Writer).file? = some (fd, x) → ∃ y, w.file? = some (fd, y)) :
    (s.put i w step).Inv ∧ Carries s (s.put i w step) := by
  refine ⟨h.move hw rfl (fun j b _ _ => ⟨fun _ _ => .inl rfl, fun _ ht => ht, fun _ _ _ hx => hx, fun _ hk => hk⟩) ?_ ?_,
    .refl_fs rfl rfl fun p => .congr rfl⟩
  · exact ⟨hown.plain, hown.synced, hown.temp, hown.file, hown.within, hown.landed⟩
  · exact fun j b hj hb => Apart.less (h.others hw hj hb).2 htemp hfile

/-- A writer that is over, or has not begun, owns nothing. -/
theorem Owns.idle (h : s.Owns w) {step : WriteStep} (htemp : ({ w with step } : Writer).temp? = none)
    (hfile : ({ w with step } : Writer).file? = none) (hland : ∀ k, step ≠ .syncingParent k)
    (hwrite : ∀ tmp fd off, step ≠ .writing tmp fd off) : s.Owns { w with step } where
  plain := h.plain
  synced := h.synced
  temp t ht := by
    rw [htemp] at ht
    cases ht
  file fd x hx := by
    rw [hfile] at hx
    cases hx
  within tmp fd off hstep := absurd hstep (hwrite tmp fd off)
  landed k hk := absurd hk (hland k)

/-- A writer that is over, or goes on to a call that has no file open. -/
theorem Inv.leave (h : s.Inv) {i : Nat} (hw : s.writers[i]? = some w) {step : WriteStep}
    (hstep : (∃ ok, step = .done ok) ∨ ∃ attempt, step = .opening attempt) :
    (s.put i w step).Inv ∧ Carries s (s.put i w step) := by
  rcases hstep with ⟨ok, rfl⟩ | ⟨attempt, rfl⟩
  · exact h.stay hw ((h.owns i w hw).idle rfl rfl nofun nofun) nofun nofun
  · exact h.stay hw ((h.owns i w hw).idle rfl rfl nofun nofun) nofun nofun

/-- A writer that gives up keeps its temp file for the moment. -/
theorem Inv.giveUp (h : s.Inv) {i : Nat} (hw : s.writers[i]? = some w) {tmp : Path} (htmp : w.temp? = some tmp) :
    (s.put i w (.removing tmp)).Inv ∧ Carries s (s.put i w (.removing tmp)) := by
  have hown := h.owns i w hw
  refine h.stay hw ⟨hown.plain, hown.synced, fun t ht => ?_, nofun, nofun, nofun⟩ (fun t ht => ?_) nofun
  · cases ht
    exact hown.temp tmp htmp
  · cases ht
    exact htmp

theorem advance_opened (h : s.Inv) {i attempt random : Nat} (hw : s.writers[i]? = some w)
    (hadv : s.advance i w (.opening attempt) (.opened random) = some s') : s'.Inv ∧ Carries s s' := by
  dsimp only [advance] at hadv
  split at hadv
  · next hfree =>
    cases hadv
    have htmp := isTempName_makeTempName w.tempDir random
    have hnone : s.fs.names (makeTempName w.tempDir random) = none := Option.isNone_iff_eq_none.mp hfree.1
    have hown := h.owns i w hw
    refine ⟨h.move hw rfl (fun j b hj hb => ?_) ?_ fun j b hj hb => ?_,
      carries_temp htmp (fun p P hp => hp.alloc []) rfl rfl rfl⟩
    · obtain ⟨hn, hs, hf, hl⟩ := spares_create (h.others hw hj hb).1 htmp hnone hfree.2
      exact ⟨hn, hs, hf, hl⟩
    · refine ⟨hown.plain, hown.synced, fun t ht => ?_, fun fd x hx => ?_, fun tmp fd off hst => ?_, nofun⟩
      · cases ht
        refine ⟨htmp, .inl ?_⟩
        show ((s.fs.alloc []).bind _ _).names _ |>.isSome
        rw [CrashFs.bind_names, if_pos rfl]
        rfl
      · cases hx
        refine ⟨List.getElem?_concat_length, fun t ht j hj => ?_⟩
        cases ht
        change ((s.fs.alloc []).bind _ _).names _ = some j at hj
        rw [CrashFs.bind_names, if_pos rfl] at hj
        exact (Option.some.inj hj).symm
      · cases hst
        exact Nat.zero_le _
    · obtain ⟨hb', -⟩ := h.others hw hj hb
      have hfresh : b.temp? ≠ some (makeTempName w.tempDir random) := by
        intro ht
        have hthere := (hb'.temp _ ht).2
        rw [hnone] at hthere
        exact hthere.elim nofun hfree.2
      have hnew : ∀ x, b.file? ≠ some (s.fs.inodes.length, x) := by
        intro x hx
        have hlt := (List.getElem?_eq_some_iff.mp (hb'.file _ x hx).1).1
        exact Nat.lt_irrefl _ hlt
      refine ⟨⟨fun t ht => ?_, fun fd x y hx => ?_⟩, fun t ht ht' => ?_, fun fd x y hx hy => ?_⟩
      · cases ht
        exact hfresh
      · cases hx
        exact hnew y
      · cases ht'
        exact hfresh ht
      · cases hy
        exact hnew x hx
  · cases hadv

theorem advance_wrote (h : s.Inv) {i fd off n : Nat} {tmp : Path} (hw : s.writers[i]? = some w)
    (hstep : w.step = .writing tmp fd off) (hadv : s.advance i w (.writing tmp fd off) (.wrote n) = some s') :
    s'.Inv ∧ Carries s s' := by
  dsimp only [advance] at hadv
  split at hadv
  · next hmore =>
    cases hadv
    have hown := h.owns i w hw
    have hfile : w.file? = some (fd, ⟨w.data.take off, none⟩) := by rw [Writer.file?, hstep]
    have htemp : w.temp? = some tmp := by rw [Writer.temp?, hstep]
    obtain ⟨hinode, hname⟩ := hown.file fd _ hfile
    have hcontent : (s.fs.contentAt (some fd)).getD [] = w.data.take off := by
      rw [CrashFs.contentAt, hinode]
      rfl
    have hwritten : overwrite (w.data.take off) off (slice w.data off n) = w.data.take (off + n) := by
      have hlen : (w.data.take off).length = off := by
        rw [List.length_take]
        omega
      rw [overwrite, List.take_of_length_le hlen.le, List.drop_eq_nil_of_le (by omega), List.append_nil, slice, ← List.take_add]
    refine ⟨h.move hw rfl (fun j b hj hb => ?_) ?_ fun j b hj hb => ?_,
      ⟨List.prefix_rfl, fun p => .congr rfl, fun p hp P _ hcertain => ?_⟩⟩
    · obtain ⟨-, -, hapart⟩ := h.others hw hj hb
      obtain ⟨hn, hs, hf, hl⟩ := spares_write (w := b) (fun y hy => hapart.2 fd y _ hy hfile) hinode rfl
        (overwrite ((s.fs.contentAt (some fd)).getD []) off (slice w.data off n))
      exact ⟨hn, hs, hf, hl⟩
    · refine ⟨hown.plain, hown.synced, fun t ht => ?_, fun fd' x hx => ?_, fun tmp' fd' off' hst => ?_, fun k hst => ?_⟩
      · cases ht
        exact hown.temp tmp htemp
      · cases hx
        rw [hcontent, hwritten]
        refine ⟨List.getElem?_set_self (List.getElem?_eq_some_iff.mp hinode).1, fun t ht => ?_⟩
        cases ht
        exact hname tmp htemp
      · cases hst
        show off + n ≤ w.data.length
        omega
      · cases hst
    · refine Apart.less (h.others hw hj hb).2 (fun t ht => ?_) fun fd' x hx => ?_
      · cases ht
        exact htemp
      · cases hx
        exact ⟨_, hfile⟩
    · refine (hcertain.write ?_ _).mono fun r hr => .inl hr
      rintro ⟨x, hx, hd⟩
      rw [hinode] at hx
      cases hx
      cases hd
  · cases hadv

theorem advance_fsync (h : s.Inv) {i fd : Nat} {tmp : Path} (hw : s.writers[i]? = some w)
    (hstep : w.step = .syncing tmp fd) : ({ s with fs := s.fs.fsync fd }.put i w (.renaming tmp fd)).Inv ∧
      Carries s ({ s with fs := s.fs.fsync fd }.put i w (.renaming tmp fd)) := by
  have hown := h.owns i w hw
  have hfile : w.file? = some (fd, ⟨w.data, none⟩) := by rw [Writer.file?, hstep]
  have htemp : w.temp? = some tmp := by rw [Writer.temp?, hstep]
  obtain ⟨hinode, hname⟩ := hown.file fd _ hfile
  refine ⟨h.move hw rfl (fun j b hj hb => ?_) ?_ fun j b hj hb => ?_,
    ⟨List.prefix_rfl, fun p => .congr rfl, fun p hp P _ hcertain => ?_⟩⟩
  · obtain ⟨-, -, hapart⟩ := h.others hw hj hb
    obtain ⟨hn, hs, hf, hl⟩ := spares_fsync (s := s) (w := b) (fun y hy => hapart.2 fd y _ hy hfile)
    exact ⟨hn, hs, hf, hl⟩
  · refine ⟨hown.plain, hown.synced, fun t ht => ?_, fun fd' x hx => ?_, nofun, nofun⟩
    · cases ht
      exact hown.temp tmp htemp
    · cases hx
      refine ⟨?_, fun t ht => ?_⟩
      · show (s.fs.inodes.modify fd _)[fd]? = _
        rw [List.getElem?_modify, hinode]
        exact congrArg some (if_pos rfl)
      · cases ht
        exact hname tmp htemp
  · refine Apart.less (h.others hw hj hb).2 (fun t ht => ?_) fun fd' x hx => ?_
    · cases ht
      exact htemp
    · cases hx
      exact ⟨_, hfile⟩
  · exact (hcertain.fsync fd).mono fun r hr => .inl hr

theorem advance_rename (h : s.Inv) {i fd : Nat} {tmp : Path} (hw : s.writers[i]? = some w)
    (hstep : w.step = .renaming tmp fd) (hadv : s.advance i w (.renaming tmp fd) .ok = some s') : s'.Inv ∧ Carries s s' := by
  dsimp only [advance] at hadv
  split at hadv
  · next hthere =>
    cases hadv
    have hown := h.owns i w hw
    have hfile : w.file? = some (fd, ⟨w.data, some w.data⟩) := by rw [Writer.file?, hstep]
    have htemp : w.temp? = some tmp := by rw [Writer.temp?, hstep]
    have htmp := (hown.temp tmp htemp).1
    obtain ⟨hinode, hname⟩ := hown.file fd _ hfile
    have hfd : s.fs.names tmp = some fd := by
      obtain ⟨i', hi'⟩ := Option.isSome_iff_exists.mp hthere
      rw [hi', hname tmp htemp i' hi']
    have hcarries := carries_rename w.dest htmp hfd hinode
    refine ⟨h.move hw rfl (fun j b hj hb => ?_) ?_ fun j b hj hb => ?_, ⟨hcarries.log, fun p => .congr rfl, hcarries.certain⟩⟩
    · obtain ⟨hb', -, hapart⟩ := h.others hw hj hb
      obtain ⟨hn, hs, hf, hl⟩ := spares_rename hb' htmp hown.plain (fun ht => hapart.1 tmp ht htemp) hfd hinode
      exact ⟨hn, hs, hf, hl⟩
    · by_cases hparent : w.opts.fsyncParent = true
      · rw [if_pos hparent]
        refine ⟨hown.plain, hown.synced, nofun, nofun, nofun, fun k hk => ?_⟩
        cases hk
        refine ⟨fd, s.log.length, w.data, ?_, hinode, Nat.le_refl _, List.getElem?_concat_length⟩
        show (s.fs.rename tmp w.dest).names w.dest = some fd
        rw [CrashFs.rename, names_of_ne _ (ne_of_temp hown.plain htmp), CrashFs.bind_names, if_pos rfl, hfd]
      · rw [if_neg hparent]
        exact ⟨hown.plain, hown.synced, nofun, nofun, nofun, nofun⟩
    · by_cases hparent : w.opts.fsyncParent = true
      · rw [if_pos hparent]
        exact Apart.less (h.others hw hj hb).2 nofun nofun
      · rw [if_neg hparent]
        exact Apart.less (h.others hw hj hb).2 nofun nofun
  · cases hadv

theorem advance_remove (h : s.Inv) {i : Nat} {tmp : Path} (hw : s.writers[i]? = some w)
    (hstep : w.step = .removing tmp) : ({ s with fs := s.fs.unlink tmp }.put i w (.done false)).Inv ∧
      Carries s ({ s with fs := s.fs.unlink tmp }.put i w (.done false)) := by
  have hown := h.owns i w hw
  have htemp : w.temp? = some tmp := by rw [Writer.temp?, hstep]
  have htmp := (hown.temp tmp htemp).1
  refine ⟨h.move hw rfl (fun j b hj hb => ?_) ?_ fun j b hj hb => ?_, carries_temp htmp (fun p P hp => hp) rfl rfl rfl⟩
  · obtain ⟨hb', -, hapart⟩ := h.others hw hj hb
    obtain ⟨hn, hs, hf, hl⟩ := spares_unlink hb'.plain htmp (.inl fun ht => hapart.1 tmp ht htemp) fun t ht => ht
    exact ⟨hn, hs, hf, hl⟩
  · exact ⟨hown.plain, hown.synced, nofun, nofun, nofun, nofun⟩
  · exact Apart.less (h.others hw hj hb).2 nofun nofun

theorem advance_syncParent (h : s.Inv) {i : Nat} (hw : s.writers[i]? = some w) {inDir : Path → Bool} :
    ({ s with fs := s.fs.syncDir inDir, dirs := s.dirs.syncDir inDir }.put i w (.done true)).Inv ∧
      Carries s ({ s with fs := s.fs.syncDir inDir, dirs := s.dirs.syncDir inDir }.put i w (.done true)) := by
  have hown := h.owns i w hw
  refine ⟨h.move hw rfl (fun j b hj hb => ⟨fun t ht => .inl rfl, fun t ht => ht, fun fd x _ hx => hx, fun k hk => hk⟩) ?_
    fun j b hj hb => Apart.less (h.others hw hj hb).2 nofun nofun, ⟨List.prefix_rfl, fun p hd a ha => (hd a ha).syncDir _,
    fun p hp P _ hcertain => ?_⟩⟩
  · exact ⟨hown.plain, hown.synced, nofun, nofun, nofun, nofun⟩
  · exact (hcertain.syncDir _).mono fun r hr => .inl hr

/-- A writer makes directories before it opens a file. -/
theorem advance_start (h : s.Inv) {i : Nat} (hw : s.writers[i]? = some w) {dirs : CrashFs Path Unit}
    (hdirs : ∀ p, s.DirsCertain p → ({ s with dirs } : AtomicSys).DirsCertain p) :
    ({ s with dirs }.put i w (.opening 0)).Inv ∧ Carries s ({ s with dirs }.put i w (.opening 0)) := by
  have hown : s.Owns { w with step := .opening 0 } := (h.owns i w hw).idle rfl rfl nofun nofun
  refine ⟨h.move hw rfl (fun j b _ _ => ⟨fun _ _ => .inl rfl, fun _ ht => ht, fun _ _ _ hx => hx, fun _ hk => hk⟩) ?_
    fun j b hj hb => Apart.less (h.others hw hj hb).2 nofun nofun, .refl_fs rfl rfl hdirs⟩
  exact ⟨hown.plain, hown.synced, nofun, nofun, nofun, nofun⟩

theorem advance_inv (h : s.Inv) {i : Nat} (hw : s.writers[i]? = some w) {a : Answer}
    (hadv : s.advance i w w.step a = some s') : s'.Inv ∧ Carries s s' := by
  have hown := h.owns i w hw
  cases hstep : w.step with
  | start =>
    rw [hstep] at hadv
    cases a with
    | ok =>
      dsimp only [advance] at hadv
      split at hadv
      · cases hadv
        exact h.leave hw (.inl ⟨true, rfl⟩)
      · cases hadv
        exact advance_start h hw fun p hd a ha => certain_createDirectories (certain_createDirectories (hd a ha) _) _
    | _ => cases hadv
  | opening attempt =>
    rw [hstep] at hadv
    cases a with
    | opened random => exact advance_opened h hw hadv
    | «exists» random =>
      dsimp only [advance] at hadv
      split at hadv
      · cases hadv
        split
        · exact h.leave hw (.inr ⟨attempt + 1, rfl⟩)
        · exact h.leave hw (.inl ⟨false, rfl⟩)
      · cases hadv
    | fails =>
      cases hadv
      exact h.leave hw (.inl ⟨false, rfl⟩)
    | _ => cases hadv
  | writing tmp fd off =>
    rw [hstep] at hadv
    have htemp : w.temp? = some tmp := by rw [Writer.temp?, hstep]
    have hfile : w.file? = some (fd, ⟨w.data.take off, none⟩) := by rw [Writer.file?, hstep]
    cases a with
    | wrote n => exact advance_wrote h hw hstep hadv
    | interrupted =>
      dsimp only [advance] at hadv
      split at hadv
      · cases hadv
        refine h.stay hw ?_ (fun t ht => by rw [Writer.temp?, hstep]; exact ht) fun fd' x hx => ?_
        · rw [← hstep]
          exact hown
        · rw [← hstep] at hx
          exact ⟨x, hx⟩
      · cases hadv
    | fails =>
      dsimp only [advance] at hadv
      split at hadv
      · cases hadv
        exact h.giveUp hw htemp
      · cases hadv
    | ok =>
      dsimp only [advance] at hadv
      split at hadv
      · cases hadv
      · next hall =>
        cases hadv
        have hwhole : w.data.take off = w.data := List.take_of_length_le (by omega)
        rw [if_pos hown.synced]
        refine h.stay hw ⟨hown.plain, hown.synced, fun t ht => ?_, fun fd' x hx => ?_, nofun, nofun⟩
          (fun t ht => ?_) fun fd' x hx => ?_
        · cases ht
          exact hown.temp tmp htemp
        · cases hx
          obtain ⟨hinode, hname⟩ := hown.file fd _ hfile
          rw [hwhole] at hinode
          refine ⟨hinode, fun t ht => ?_⟩
          cases ht
          exact hname tmp htemp
        · cases ht
          exact htemp
        · cases hx
          exact ⟨_, hfile⟩
    | _ => cases hadv
  | syncing tmp fd =>
    rw [hstep] at hadv
    cases a with
    | ok =>
      cases hadv
      exact advance_fsync h hw hstep
    | fails =>
      cases hadv
      exact h.giveUp hw (by rw [Writer.temp?, hstep])
    | _ => cases hadv
  | «renaming» tmp fd =>
    rw [hstep] at hadv
    cases a with
    | ok => exact advance_rename h hw hstep hadv
    | fails =>
      cases hadv
      exact h.giveUp hw (by rw [Writer.temp?, hstep])
    | _ => cases hadv
  | syncingParent k =>
    rw [hstep] at hadv
    cases a with
    | ok =>
      cases hadv
      exact advance_syncParent h hw
    | fails =>
      cases hadv
      exact h.leave hw (.inl ⟨false, rfl⟩)
    | _ => cases hadv
  | removing tmp =>
    rw [hstep] at hadv
    cases a with
    | ok =>
      cases hadv
      exact advance_remove h hw hstep
    | fails =>
      cases hadv
      exact h.leave hw (.inl ⟨false, rfl⟩)
    | _ => cases hadv
  | done ok =>
    rw [hstep] at hadv
    cases a <;> cases hadv

theorem step_inv (h : s.Inv) {a : AtomicAct} (hsane : sane s a = true) (hstep : s.step a = some s') :
    s'.Inv ∧ Carries s s' := by
  cases a with
  | spawn dest data opts =>
    cases hstep
    obtain ⟨hplain, hsynced⟩ := Bool.and_eq_true_iff.mp hsane
    refine ⟨⟨fun i w hw => ?_, fun i j a b hij ha hb => ?_⟩, .refl_fs rfl rfl fun p => .congr rfl⟩
    · rcases getElem?_append_cases hw with rfl | hw
      · exact ⟨by simpa using hplain, hsynced, nofun, nofun, nofun, nofun⟩
      · exact (h.owns i w hw).spared ⟨fun _ _ => .inl rfl, fun _ ht => ht, fun _ _ _ hx => hx, fun _ hk => hk⟩
    · rcases getElem?_append_cases ha with rfl | ha
      · exact ⟨nofun, nofun⟩
      · rcases getElem?_append_cases hb with rfl | hb
        · exact ⟨fun t _ => nofun, fun fd x y _ => nofun⟩
        · exact h.apart i j a b hij ha hb
  | run i a =>
    obtain ⟨w, hw, hadv⟩ := Option.bind_eq_some_iff.mp hstep
    exact advance_inv h hw hadv
  | sweep p =>
    dsimp only [step] at hstep
    split at hstep
    · next htmp =>
      cases hstep
      refine ⟨⟨fun i w hw => ?_, h.apart⟩, carries_temp htmp (fun p P hp => hp) rfl rfl rfl⟩
      have hown := h.owns i w hw
      obtain ⟨hn, hs, hf, hl⟩ := spares_unlink (s := s) hown.plain htmp (.inr List.mem_cons_self) fun t ht =>
        List.mem_cons_of_mem _ ht
      exact hown.spared ⟨hn, hs, hf, hl⟩
    · cases hstep
  | crash pick garbage pickDir =>
    cases hstep
    refine ⟨⟨fun _ _ => nofun, fun _ _ _ _ _ => nofun⟩, ⟨List.prefix_rfl, fun p hd => (hd.crash pickDir).2,
      fun p hp P hkeep hcertain => ?_⟩⟩
    exact ((hcertain.crash pick garbage).keep (hkeep.imp_left fun hd => (hd.crash pickDir).1)).mono fun r hr => .inl hr

/-- How a writer comes to report success. -/
def Reports (s s' : AtomicSys) (w : Writer) : Prop :=
  (s.readFile w.dest).isSome ∧ s'.fs = s.fs ∨ (∃ k, w.step = .syncingParent k) ∧ s'.fs.names = s.fs.names ∨
    w.opts.fsyncParent = false

/-- What a call does to the directories. -/
inductive MovesDirs (dirs : CrashFs Path Unit) : CrashFs Path Unit → Prop where
  | same : MovesDirs dirs dirs
  | made (p q : Path) : MovesDirs dirs (createDirectories (createDirectories dirs p) q)
  | synced (inDir : Path → Bool) : MovesDirs dirs (dirs.syncDir inDir)

/-- A call moves one writer on, and renames its file at most. -/
theorem advance_shape {i : Nat} {a : Answer} (h : s.advance i w w.step a = some s') :
    ∃ step, s'.writers = s.writers.set i { w with step } ∧ (s'.log = s.log ∨ s'.log = s.log ++ [(w.dest, w.data)]) ∧
      MovesDirs s.dirs s'.dirs ∧ (step = .done true → Reports s s' w) := by
  cases hstep : w.step with
  | start =>
    rw [hstep] at h
    cases a with
    | ok =>
      dsimp only [advance] at h
      split at h
      · next hfound =>
        cases h
        exact ⟨_, rfl, .inl rfl, .same, fun _ => .inl ⟨hfound.2, rfl⟩⟩
      · cases h
        exact ⟨_, rfl, .inl rfl, .made _ _, nofun⟩
    | _ => cases h
  | opening attempt =>
    rw [hstep] at h
    cases a with
    | opened random =>
      dsimp only [advance] at h
      split at h
      · cases h
        exact ⟨_, rfl, .inl rfl, .same, nofun⟩
      · cases h
    | «exists» random =>
      dsimp only [advance] at h
      split at h
      · cases h
        refine ⟨_, rfl, .inl rfl, .same, ?_⟩
        split <;> exact nofun
      · cases h
    | fails =>
      cases h
      exact ⟨_, rfl, .inl rfl, .same, nofun⟩
    | _ => cases h
  | writing tmp fd off =>
    rw [hstep] at h
    cases a with
    | wrote n =>
      dsimp only [advance] at h
      split at h
      · cases h
        exact ⟨_, rfl, .inl rfl, .same, nofun⟩
      · cases h
    | interrupted =>
      dsimp only [advance] at h
      split at h
      · cases h
        exact ⟨_, rfl, .inl rfl, .same, nofun⟩
      · cases h
    | fails =>
      dsimp only [advance] at h
      split at h
      · cases h
        exact ⟨_, rfl, .inl rfl, .same, nofun⟩
      · cases h
    | ok =>
      dsimp only [advance] at h
      split at h
      · cases h
      · cases h
        refine ⟨_, rfl, .inl rfl, .same, ?_⟩
        split <;> exact nofun
    | _ => cases h
  | syncing tmp fd =>
    rw [hstep] at h
    cases a with
    | ok =>
      cases h
      exact ⟨_, rfl, .inl rfl, .same, nofun⟩
    | fails =>
      cases h
      exact ⟨_, rfl, .inl rfl, .same, nofun⟩
    | _ => cases h
  | «renaming» tmp fd =>
    rw [hstep] at h
    cases a with
    | ok =>
      dsimp only [advance] at h
      split at h
      · cases h
        refine ⟨_, rfl, .inr rfl, .same, ?_⟩
        split
        · exact nofun
        · next hparent => exact fun _ => .inr (.inr (Bool.eq_false_iff.mpr hparent))
      · cases h
    | fails =>
      cases h
      exact ⟨_, rfl, .inl rfl, .same, nofun⟩
    | _ => cases h
  | syncingParent k =>
    rw [hstep] at h
    cases a with
    | ok =>
      cases h
      exact ⟨_, rfl, .inl rfl, .synced _, fun _ => .inr (.inl ⟨⟨k, hstep⟩, rfl⟩)⟩
    | fails =>
      cases h
      exact ⟨_, rfl, .inl rfl, .same, nofun⟩
    | _ => cases h
  | removing tmp =>
    rw [hstep] at h
    cases a with
    | ok =>
      cases h
      exact ⟨_, rfl, .inl rfl, .same, nofun⟩
    | fails =>
      cases h
      exact ⟨_, rfl, .inl rfl, .same, nofun⟩
    | _ => cases h
  | done ok =>
    rw [hstep] at h
    cases a <;> cases h

/-! ### Every run -/

/-- A disk on which everything is synced. -/
structure Clean (fs : CrashFs Path Bytes) (dirs : CrashFs Path Unit) : Prop where
  past : ∀ p, fs.past p = []
  kept : ∀ p i, fs.names p = some i → fs.Kept i
  pastDirs : ∀ p, dirs.past p = []
  keptDirs : ∀ p i, dirs.names p = some i → dirs.Kept i
  reached : ∀ p i, fs.names p = some i → reaches dirs p = true

variable {fs : CrashFs Path Bytes} {dirs : CrashFs Path Unit}

theorem Clean.certain (h : Clean fs dirs) (p : Path) : fs.Certain p (· = fs.read p) := by
  intro t ht
  rw [h.past p, List.mem_singleton] at ht
  subst ht
  exact ⟨h.kept p, rfl⟩

theorem Clean.certain_dirs (h : Clean fs dirs) {p : Path} (hreach : reaches dirs p = true) : (start fs dirs).DirsCertain p := by
  intro a ha t ht
  change t ∈ dirs.names a :: dirs.past a at ht
  rw [h.pastDirs a, List.mem_singleton] at ht
  subst ht
  refine ⟨h.keptDirs a, ?_⟩
  obtain ⟨i, hi⟩ := Option.isSome_iff_exists.mp (List.all_eq_true.mp hreach a ha)
  obtain ⟨x, hx, -⟩ := h.keptDirs a i hi
  show IsDir (dirs.contentAt (dirs.names a))
  rw [hi, CrashFs.contentAt, hx]
  exact Option.some_ne_none _

theorem Clean.read_none (h : Clean fs dirs) {p : Path} (hlost : ¬reaches dirs p = true) : fs.read p = none := by
  show fs.contentAt (fs.names p) = none
  cases hname : fs.names p with
  | none => rfl
  | some i => exact absurd (h.reached p i hname) hlost

theorem Clean.readFile (h : Clean fs dirs) (p : Path) : (start fs dirs).readFile p = fs.read p := by
  unfold AtomicSys.readFile
  split
  · rfl
  · next hlost => exact (h.read_none hlost).symm

theorem inv_start (fs : CrashFs Path Bytes) (dirs : CrashFs Path Unit) : (start fs dirs).Inv :=
  ⟨fun _ _ => nofun, fun _ _ _ _ _ => nofun⟩

theorem inv_of_reach (h : Reach step sane (start fs dirs) s) : s.Inv :=
  h.invariant (inv_start fs dirs) fun _ _ _ hinv hsane hstep => (step_inv hinv hsane hstep).1

theorem DirsCertain.run {s₁ : AtomicSys} {p : Path} (hinv : s.Inv) (hd : s.DirsCertain p) (h : Reach step sane s s₁) :
    s₁.Inv ∧ s₁.DirsCertain p := by
  refine Reach.invariant (I := fun t => t.Inv ∧ t.DirsCertain p) ⟨hinv, hd⟩ ?_ h
  rintro t a t' ⟨hinv, hd⟩ hsane hstep
  obtain ⟨hinv', hcarries⟩ := step_inv hinv hsane hstep
  exact ⟨hinv', hcarries.dirs p hd⟩

theorem kept_createDirectories {d : CrashFs Path Unit} {a : Path} (h : d.Certain a fun _ => True) (p : Path) :
    (createDirectories d p).Certain a fun _ => True := by
  unfold createDirectories
  induction p.inits.filter (· ≠ []) generalizing d with
  | nil => exact h
  | cons b rest ih =>
    rw [List.foldl_cons]
    refine ih ?_
    split
    · exact h
    · by_cases hab : a = b
      · subst hab
        intro t ht
        refine ⟨fun i hi => ?_, trivial⟩
        change t ∈ ((d.alloc ()).bind a (some d.inodes.length)).names a :: ((d.alloc ()).bind a (some d.inodes.length)).past a at ht
        rw [CrashFs.bind_names, CrashFs.bind_past, if_pos rfl, if_pos rfl] at ht
        rcases List.mem_cons.mp ht with rfl | ht
        · cases hi
          have hnew : ((d.create a ()).fsync d.inodes.length).inodes[d.inodes.length]? = some ⟨(), some ()⟩ := by
            show ((d.inodes ++ [(⟨(), none⟩ : Inode Unit)]).modify d.inodes.length _)[d.inodes.length]? = _
            rw [List.getElem?_modify, List.getElem?_concat_length]
            exact congrArg some (if_pos rfl)
          exact ⟨_, hnew, rfl⟩
        · exact (CrashFs.fsync_kept ((h.alloc ()) t ht |>.1 i hi)).1
      · exact ((h.alloc ()).bind_ne hab).fsync _

/-- No crash takes the content of a directory, only its name. -/
theorem dirs_kept_of_reach (hclean : Clean fs dirs) (h : Reach step sane (start fs dirs) s) (a : Path) :
    s.dirs.Certain a fun _ => True := by
  refine Reach.invariant (I := fun t => t.dirs.Certain a fun _ => True) ?_ ?_ h
  · intro t ht
    change t ∈ dirs.names a :: dirs.past a at ht
    rw [hclean.pastDirs a, List.mem_singleton] at ht
    exact ⟨fun i hi => hclean.keptDirs a i (ht.symm.trans hi), trivial⟩
  · intro t act t' hkept _ hstep
    cases act with
    | spawn dest data opts =>
      cases hstep
      exact hkept
    | run i ans =>
      obtain ⟨w, -, hadv⟩ := Option.bind_eq_some_iff.mp hstep
      obtain ⟨-, -, -, hmoves, -⟩ := advance_shape hadv
      generalize t'.dirs = moved at hmoves ⊢
      cases hmoves with
      | same => exact hkept
      | made p q => exact kept_createDirectories (kept_createDirectories hkept p) q
      | synced inDir => exact hkept.syncDir inDir
    | sweep p =>
      dsimp only [step] at hstep
      split at hstep
      · cases hstep
        exact hkept
      · cases hstep
    | crash pick garbage pickDir =>
      cases hstep
      exact (hkept.crash pickDir _).keep (.inr trivial)

/-- What may be behind a name: what was there at the start, or all the data of a writer. -/
def Whole (s : AtomicSys) (fs : CrashFs Path Bytes) (p : Path) (r : Option Bytes) : Prop :=
  r = fs.read p ∨ ∃ data, (p, data) ∈ s.log ∧ r = some data

theorem whole_of_reach (hclean : Clean fs dirs) (h : Reach step sane (start fs dirs) s) {p : Path}
    (hp : isTempName p = false) : (reaches dirs p = true → s.DirsCertain p) ∧ s.fs.Certain p (s.Whole fs p) := by
  refine (Reach.invariant (I := fun t => t.Inv ∧ (reaches dirs p = true → t.DirsCertain p) ∧ t.fs.Certain p (t.Whole fs p))
    ⟨inv_start fs dirs, hclean.certain_dirs, (hclean.certain p).mono fun r hr => .inl hr⟩ ?_ h).2
  rintro t a t' ⟨hinv, hdirs, hcertain⟩ hsane hstep
  obtain ⟨hinv', hcarries⟩ := step_inv hinv hsane hstep
  have hkeep : t.DirsCertain p ∨ t.Whole fs p none := by
    by_cases hreach : reaches dirs p = true
    · exact .inl (hdirs hreach)
    · exact .inr (.inl (hclean.read_none hreach).symm)
  refine ⟨hinv', fun hreach => hcarries.dirs p (hdirs hreach), (hcarries.certain p hp _ hkeep hcertain).mono ?_⟩
  rintro r ((hr | ⟨data, hmem, hr⟩) | ⟨j, data, -, hj, hr⟩)
  · exact .inl hr
  · exact .inr ⟨data, hcarries.log.subset hmem, hr⟩
  · exact .inr ⟨data, List.mem_of_getElem? hj, hr⟩

theorem readFile_whole (hclean : Clean fs dirs) (h : Reach step sane (start fs dirs) s) {p : Path}
    (hp : isTempName p = false) : s.Whole fs p (s.readFile p) := by
  obtain ⟨hkept, hcertain⟩ := whole_of_reach hclean h hp
  unfold AtomicSys.readFile
  split
  · exact hcertain.read
  · next hlost => exact .inl (hclean.read_none fun hreach => hlost (hkept hreach).reaches).symm

/-- **No reader finds a part of a file.** In every interleaving of writers, sweeps and crashes, a file that is not a temp
file is as it was at the start, or it is all the data of a writer that renamed it into place. -/
theorem atomic_write_whole (hclean : Clean fs dirs) (h : Reach step sane (start fs dirs) s) (p : Path)
    (hp : isTempName p = false) :
    s.readFile p = (start fs dirs).readFile p ∨ ∃ data, (p, data) ∈ s.log ∧ s.readFile p = some data := by
  rw [hclean.readFile p]
  exact readFile_whole hclean h hp

/-- **What a writer reports stays.** Once it has synced its directory, and if the way to that directory stays, the file is
from then on what this writer renamed into place, or what another one did later, through every crash. -/
theorem atomic_write_durable {s₁ : AtomicSys} {i k : Nat} (hreach : Reach step sane (start fs dirs) s)
    (hw : s.writers[i]? = some w) (hsync : w.step = .syncingParent k) (hreport : s.step (.run i .ok) = some s₁)
    (hdir : s₁.DirsCertain w.dest) (hrun : Reach step sane s₁ s') :
    ∃ j data, k ≤ j ∧ s'.log[j]? = some (w.dest, data) ∧ s'.readFile w.dest = some data := by
  have hinv := inv_of_reach hreach
  have hown := hinv.owns i w hw
  obtain ⟨n, j, data, hname, hinode, hj, hlog⟩ := hown.landed k hsync
  have hstep : s.step (.run i .ok) = some ({ s with
      fs := s.fs.syncDir fun p => p.dropLast = w.dest.dropLast
      dirs := s.dirs.syncDir fun p => p.dropLast = w.dest.dropLast }.put i w (.done true)) := by
    show (s.writers[i]?).bind _ = _
    rw [hw, Option.bind_some, hsync]
    rfl
  have hinv₁ := (step_inv hinv rfl hreport).1
  rw [hstep] at hreport
  cases hreport
  have hlanded : (s.fs.syncDir fun p => p.dropLast = w.dest.dropLast).Certain w.dest fun r =>
      ∃ j data, k ≤ j ∧ s.log[j]? = some (w.dest, data) ∧ r = some data := by
    refine CrashFs.certain_syncDir (decide_eq_true rfl) (fun m hm => ?_) ⟨j, data, hj, hlog, ?_⟩
    · rw [hname] at hm
      cases hm
      exact ⟨_, hinode, rfl⟩
    · rw [CrashFs.read, hname, CrashFs.contentAt, hinode]
      rfl
  have hall : (s'.Inv ∧ s'.DirsCertain w.dest) ∧ k ≤ s'.log.length ∧ s'.fs.Certain w.dest fun r =>
      ∃ j data, k ≤ j ∧ s'.log[j]? = some (w.dest, data) ∧ r = some data := by
    refine Reach.invariant (I := fun t => (t.Inv ∧ t.DirsCertain w.dest) ∧ k ≤ t.log.length ∧ t.fs.Certain w.dest fun r =>
      ∃ j data, k ≤ j ∧ t.log[j]? = some (w.dest, data) ∧ r = some data) ⟨⟨hinv₁, hdir⟩, ?_, hlanded⟩ ?_ hrun
    · have := (List.getElem?_eq_some_iff.mp hlog).1
      show k ≤ s.log.length
      omega
    · rintro t a t' ⟨⟨hinv, hd⟩, hk, hcertain⟩ hsane hstep
      obtain ⟨hinv', hcarries⟩ := step_inv hinv hsane hstep
      refine ⟨⟨hinv', hcarries.dirs _ hd⟩, hk.trans hcarries.log.length_le,
        (hcarries.certain w.dest hown.plain _ (.inl hd) hcertain).mono ?_⟩
      rintro r (⟨j, data, hj, hget, hr⟩ | ⟨j, data, hj, hget, hr⟩)
      · obtain ⟨more, hmore⟩ := hcarries.log
        refine ⟨j, data, hj, ?_, hr⟩
        rw [← hmore, List.getElem?_append_left (List.getElem?_eq_some_iff.mp hget).1, hget]
      · exact ⟨j, data, hk.trans hj, hget, hr⟩
  obtain ⟨⟨-, hd⟩, -, hcertain⟩ := hall
  rw [AtomicSys.readFile, if_pos hd.reaches]
  exact hcertain.read

/-! ### On an empty disk -/

def emptyDisk : CrashFs Path Bytes := ⟨[], fun _ => none, fun _ => []⟩

/-- These directories are there, and are synced. -/
def madeDirs (made : List Path) : CrashFs Path Unit :=
  ⟨[⟨(), some ()⟩], fun p => if p ∈ made then some 0 else none, fun _ => []⟩

theorem clean_empty (made : List Path) : Clean emptyDisk (madeDirs made) where
  past _ := rfl
  kept _ _ := nofun
  pastDirs _ := rfl
  keptDirs p i h := by
    change (if p ∈ made then some 0 else none) = some i at h
    split at h
    · cases h
      exact ⟨_, rfl, rfl⟩
    · cases h
  reached _ _ := nofun

def headPath : Path := [".synapsefs", "HEAD"]

/-- The repository's directory, and nothing in it. -/
def bareDirs : CrashFs Path Unit := madeDirs [[".synapsefs"]]

def inTmp (overwrite : Bool) : AtomicWriteOptions := ⟨[".synapsefs", "tmp"], true, true, overwrite⟩

/-- The first writer writes two bytes, up to the sync of the directory. -/
def written (dest : Path) (data : Bytes) (overwrite : Bool) : List AtomicAct :=
  [.spawn dest data (inTmp overwrite), .run 0 .ok, .run 0 (.opened 7), .run 0 (.wrote 1), .run 0 .interrupted,
    .run 0 (.wrote 1), .run 0 .ok, .run 0 .ok, .run 0 .ok]

/-- A crash that leaves each name as what it was the longest, and no file that was not synced. -/
def worst : AtomicAct := .crash (fun _ => 1) (fun _ => []) fun _ => 1

/-- The power fails before the directory is synced, and the old name is left. -/
theorem whole_head : ∃ s, Reach step sane (start emptyDisk bareDirs) s ∧
    runActs step sane (start emptyDisk bareDirs) (written headPath [1, 2] true ++ [worst]) = some s ∧
    (s.readFile headPath = (start emptyDisk bareDirs).readFile headPath ∨
      ∃ data, (headPath, data) ∈ s.log ∧ s.readFile headPath = some data) := by
  have hrun : ∃ s, runActs step sane (start emptyDisk bareDirs) (written headPath [1, 2] true ++ [worst]) = some s := ⟨_, rfl⟩
  obtain ⟨s, hrun⟩ := hrun
  have hreach : Reach step sane (start emptyDisk bareDirs) s := Reach.runActs .init hrun
  exact ⟨s, hreach, hrun, atomic_write_whole (clean_empty _) hreach headPath (by decide)⟩

/-- The power fails once it is. -/
theorem durable_head : ∃ s w s₁ s', Reach step sane (start emptyDisk bareDirs) s ∧ s.writers[0]? = some w ∧
    w.step = .syncingParent 0 ∧ s.step (.run 0 .ok) = some s₁ ∧ Reach step sane s₁ s' ∧ s₁.step worst = some s' ∧
    ∃ j data, 0 ≤ j ∧ s'.log[j]? = some (w.dest, data) ∧ s'.readFile w.dest = some data := by
  have hrun : ∃ s, runActs step sane (start emptyDisk bareDirs) (written headPath [1, 2] true) = some s ∧
      s.writers[0]? = some ⟨headPath, [1, 2], inTmp true, .syncingParent 0⟩ ∧
      ∃ s₁, s.step (.run 0 .ok) = some s₁ ∧ ∃ s', s₁.step worst = some s' := ⟨_, rfl, rfl, _, rfl, _, rfl⟩
  obtain ⟨s, hrun, hw, s₁, hreport, s', hcrash⟩ := hrun
  have hreach : Reach step sane (start emptyDisk bareDirs) s := Reach.runActs .init hrun
  have hdir : s₁.DirsCertain headPath :=
    (DirsCertain.run (inv_start emptyDisk bareDirs) ((clean_empty _).certain_dirs (by decide)) (hreach.step rfl hreport)).2
  have hrun' : Reach step sane s₁ s' := .step (a := worst) .init rfl hcrash
  exact ⟨s, _, s₁, s', hreach, hw, rfl, hreport, hrun', hcrash, atomic_write_durable hreach hw rfl hreport hdir hrun'⟩

/-- A directory that a writer made is nowhere synced, and what it reported is lost with it. -/
theorem fresh_directory_lost : ∃ s s', runActs step sane (start emptyDisk bareDirs)
      (written [".synapsefs", "objects", "ab", "cd"] [1, 2] false ++ [.run 0 .ok]) = some s ∧
    s.writers[0]?.map Writer.step = some (.done true) ∧ s.readFile [".synapsefs", "objects", "ab", "cd"] = some [1, 2] ∧
    s.step worst = some s' ∧ s'.readFile [".synapsefs", "objects", "ab", "cd"] = none :=
  ⟨_, _, rfl, rfl, rfl, rfl, rfl⟩

/-- A writer that leaves alone what it finds reports a file that the power takes away. -/
theorem found_not_durable : ∃ s s', runActs step sane (start emptyDisk bareDirs)
      (written headPath [1, 2] false ++ [.spawn headPath [1, 2] (inTmp false), .run 1 .ok]) = some s ∧
    s.writers[1]?.map Writer.step = some (.done true) ∧ s.readFile headPath = some [1, 2] ∧
    s.step worst = some s' ∧ s'.readFile headPath = none :=
  ⟨_, _, rfl, rfl, rfl, rfl, rfl⟩

end AtomicSys

end SynapseFs.Util
