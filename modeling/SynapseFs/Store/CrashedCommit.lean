import SynapseFs.Store.Containers
import SynapseFs.Util.AtomicIo

/-! Commits, and a power failure in the middle of one.

A commit puts its objects one after another, each an atomic write that has reported
before the next one begins, and replaces the file of its branch last. A crash on the way
leaves objects that nothing points at. It never leaves a branch that names a commit whose
objects are not all there (`crashed_commit_harmless`), where each put could rely on what
it reported: the directories on the way to the object were synced, and so was the object
itself if it was only found. The code does not see to either (`first_object_lost`, `AtomicSys.found_not_durable`). -/
namespace SynapseFs.Store
open Lib Core Format Util

/-- `Oid::fanout_path`. -/
def fanoutPath (oid : Oid) : Path :=
  [String.ofList (hexEncode (oid.bytes.take 1)), String.ofList (hexEncode (oid.bytes.drop 1))]

def objectPath (dot : Path) (oid : Oid) : Path := dot ++ "objects" :: fanoutPath oid

/-- An object to be put. Its chunks can be counted in the header. -/
structure PutObject (chunkBytes : Nat) where
  kind : ObjectKind
  payload : Bytes
  storable : LooseStore.Storable payload chunkBytes

/-- What a commit writes: its objects in turn, then the line of its branch. -/
structure CommitWrites (chunkBytes : Nat) where
  objects : List (PutObject chunkBytes)
  refPath : Path
  line : Bytes

inductive CommitStep where
  | putting (k : Nat)
  /-- Object `k` is put by the writer of this number. -/
  | waiting (k writer : Nat)
  | over
  deriving DecidableEq, Repr

def CommitStep.putting? : CommitStep → Option Nat
  | .putting k => some k
  | _ => none

def CommitStep.waiting? : CommitStep → Option (Nat × Nat)
  | .waiting k writer => some (k, writer)
  | _ => none

structure CommitProc (chunkBytes : Nat) where
  writes : CommitWrites chunkBytes
  step : CommitStep

/-- The disk with its writers, the processes, and the commits whose branch was to be replaced. -/
structure CommitSys (chunkBytes : Nat) where
  disk : AtomicSys
  procs : List (CommitProc chunkBytes)
  advanced : List (CommitWrites chunkBytes)

inductive CommitAct (chunkBytes : Nat) where
  | begin (writes : CommitWrites chunkBytes)
  | put (i : Nat)
  | settle (i : Nat)
  | advance (i : Nat)
  /-- A writer goes on, something else is written, temp files are swept, the power fails. -/
  | disk (a : AtomicAct)

section
variable (blake3 : Bytes → Oid) (dot : Path) {chunkBytes : Nat}

def PutObject.oid (o : PutObject chunkBytes) : Oid := computeOid blake3 o.kind o.payload

/-- `LooseStore::put`. -/
def objectOptions : AtomicWriteOptions := ⟨dot ++ ["tmp"], true, true, false⟩

/-- `write_line`. -/
def refOptions : AtomicWriteOptions := ⟨[], true, true, true⟩

namespace CommitSys

def step (s : CommitSys chunkBytes) : CommitAct chunkBytes → Option (CommitSys chunkBytes)
  | .begin writes => some { s with procs := s.procs ++ [⟨writes, .putting 0⟩] }
  | .put i => do
    let p ← s.procs[i]?
    let k ← p.step.putting?
    let o ← p.writes.objects[k]?
    let data ← (encodeObject blake3 o.kind o.payload chunkBytes).toOption
    let disk ← s.disk.step (.spawn (objectPath dot (o.oid blake3)) data (objectOptions dot))
    some { s with disk, procs := s.procs.set i { p with step := .waiting k s.disk.writers.length } }
  | .settle i => do
    let p ← s.procs[i]?
    let (k, j) ← p.step.waiting?
    let w ← s.disk.writers[j]?
    if w.step = .done true then some { s with procs := s.procs.set i { p with step := .putting (k + 1) } } else none
  | .advance i => do
    let p ← s.procs[i]?
    let k ← p.step.putting?
    let disk ← s.disk.step (.spawn p.writes.refPath p.writes.line refOptions)
    if k = p.writes.objects.length then
      some { disk, procs := s.procs.set i { p with step := .over }, advanced := p.writes :: s.advanced }
    else none
  | .disk a => do
    let disk ← s.disk.step a
    -- The processes go with the power.
    some { s with disk, procs := if a.isCrash then [] else s.procs }

/-- Nothing on the way to the file, nor the file, would be lost with the power. -/
def synced (d : AtomicSys) (p : Path) : Bool :=
  reaches d.dirs p && (d.fs.past p).isEmpty && (parents p).all fun a => (d.dirs.past a).isEmpty

/-- A put that reports success can rely on it. -/
def reliable (d : AtomicSys) : AtomicAct → Bool
  | .run i a => ((d.writers[i]?).all fun w => w.opts.overwrite || ((d.step (.run i a)).all fun d' =>
      ((d'.writers[i]?).all fun w' => w'.step ≠ .done true || synced d' w.dest)))
  | _ => true

/-- Only commits write objects and branches. -/
def elsewhere : AtomicAct → Bool
  | .spawn dest _ _ => !(dot ++ ["objects"]).isPrefixOf dest && !(dot ++ ["refs", "heads"]).isPrefixOf dest
  | _ => true

def careful (s : CommitSys chunkBytes) : CommitAct chunkBytes → Bool
  | .begin writes => (dot ++ ["refs", "heads"]).isPrefixOf writes.refPath && !isTempName writes.refPath
  | .disk a => AtomicSys.sane s.disk a && elsewhere dot a && reliable s.disk a
  | _ => true

def start (fs : CrashFs Path Bytes) (dirs : CrashFs Path Unit) : CommitSys chunkBytes := ⟨.start fs dirs, [], []⟩

end CommitSys

/-- The file of an object, which hashes to the address in its path. -/
def Sound (p : Path) (data : Bytes) : Prop :=
  ∃ kind payload hdr, p = objectPath dot (computeOid blake3 kind payload) ∧ data.length < 2 ^ 64 ∧
    LooseStore.Holds blake3 data hdr (computeOid blake3 kind payload) kind payload

/-- An object's file is there, and no crash takes it away. -/
def There (d : AtomicSys) (p : Path) : Prop :=
  d.DirsCertain p ∧ d.fs.Certain p fun r => ∃ data, r = some data ∧ Sound blake3 dot p data

/-- What may be written: an object to its path, and to a branch the line of a commit that got that far. -/
def Good (advanced : List (CommitWrites chunkBytes)) (p : Path) (data : Bytes) : Prop :=
  (dot ++ ["objects"] <+: p → Sound blake3 dot p data) ∧
    (dot ++ ["refs", "heads"] <+: p → ∃ c ∈ advanced, c.refPath = p ∧ c.line = data)

/-! ### Paths -/

variable {dot}

theorem under_objects (oid : Oid) : dot ++ ["objects"] <+: objectPath dot oid :=
  ⟨fanoutPath oid, by rw [List.append_assoc]; rfl⟩

theorem not_branch_object (oid : Oid) : ¬dot ++ ["refs", "heads"] <+: objectPath dot oid := by
  intro h
  have hhead := (List.prefix_append_right_inj dot).mp h
  rw [List.cons_prefix_cons] at hhead
  exact absurd hhead.1 (by decide)

theorem not_object_branch {p : Path} (h : dot ++ ["refs", "heads"] <+: p) : ¬dot ++ ["objects"] <+: p := by
  obtain ⟨rest, rfl⟩ := h
  intro h
  rw [List.append_assoc] at h
  have hhead := (List.prefix_append_right_inj dot).mp h
  exact absurd (List.cons_prefix_cons.mp hhead).1 (by decide)

theorem hexEncode_not_temp (b : Bytes) : "tmp.".toList.isPrefixOf (hexEncode b) = false := by
  have hdigit : ∀ n, hexDigit n ≠ 't' := by
    intro n
    rcases Nat.lt_or_ge n 16 with h | h
    · exact (by decide : ∀ m < 16, hexDigit m ≠ 't') n h
    · rw [hexDigit, List.getD_eq_default _ _ (by exact h)]
      decide
  cases b with
  | nil => rfl
  | cons x rest =>
    show (('t' == hexDigit (x.toNat / 16)) && _) = false
    rw [beq_eq_false_iff_ne.mpr (hdigit _).symm, Bool.false_and]

theorem objectPath_plain (oid : Oid) : isTempName (objectPath dot oid) = false := by
  have hlast : (objectPath dot oid).getLast? = some (String.ofList (hexEncode (oid.bytes.drop 1))) := by
    rw [objectPath, fanoutPath, List.getLast?_append]
    rfl
  rw [isTempName, hlast, Option.map_some, Option.getD_some, String.toList_ofList (l := hexEncode _)]
  exact hexEncode_not_temp _

theorem objectPath_inj {a b : Oid} (h : objectPath dot a = objectPath dot b) : a = b := by
  have hpath := List.append_cancel_left h
  simp only [fanoutPath, List.cons.injEq, String.ofList_inj, and_true, true_and] at hpath
  have hhead := congrArg hexDecode hpath.1
  have htail := congrArg hexDecode hpath.2
  rw [hexDecode_hexEncode, hexDecode_hexEncode, Option.some.injEq] at hhead htail
  refine Oid.ext ?_
  rw [← List.take_append_drop 1 a.bytes, hhead, htail, List.take_append_drop]

/-! ### What a put leaves -/

variable {blake3} {fs : CrashFs Path Bytes} {dirs : CrashFs Path Unit}

theorem sound_of_encode {o : PutObject chunkBytes} {data : Bytes}
    (h : (encodeObject blake3 o.kind o.payload chunkBytes).toOption = some data) :
    Sound blake3 dot (objectPath dot (o.oid blake3)) data := by
  rw [LooseStore.encodeObject_eq o.storable.pow2] at h
  cases h
  exact ⟨o.kind, o.payload, _, rfl, LooseStore.length_encoded_lt o.storable, LooseStore.encoded_holds o.storable⟩

/-- The file of an object is there, and a store that has it returns content of that address. -/
def ObjectReads (blake3 : Bytes → Oid) (dot : Path) (d : AtomicSys) (oid : Oid) : Prop :=
  ∃ data kind payload, d.readFile (objectPath dot oid) = some data ∧ computeOid blake3 kind payload = oid ∧
    ∀ s : LooseStore, s.files.get? oid = some data → s.get blake3 oid kind = .ok payload

theorem There.reads {d : AtomicSys} {oid : Oid} (h : There blake3 dot d (objectPath dot oid)) :
    ObjectReads blake3 dot d oid := by
  obtain ⟨data, hread, kind, payload, hdr, hpath, hlen, hholds⟩ := h.2.read
  have hoid := objectPath_inj hpath
  subst hoid
  refine ⟨data, kind, payload, ?_, rfl, fun s hs => LooseStore.get_eq_ok.mpr ⟨data, hdr, hs, hlen, hholds⟩⟩
  rw [AtomicSys.readFile, if_pos h.1.reaches, hread]

/-- It stays, whatever happens on the disk. -/
theorem There.step {d d' : AtomicSys} {a : AtomicAct} {p : Path} (h : There blake3 dot d p) (hinv : d.Inv)
    (hsane : AtomicSys.sane d a = true) (hstep : d.step a = some d') (hp : isTempName p = false)
    (hgood : ∀ data, (p, data) ∈ d'.log → Sound blake3 dot p data) : There blake3 dot d' p := by
  obtain ⟨-, hcarries⟩ := AtomicSys.step_inv hinv hsane hstep
  refine ⟨hcarries.dirs p h.1, (hcarries.certain p hp _ (.inl h.1) h.2).mono ?_⟩
  rintro r (hr | ⟨j, c, -, hj, rfl⟩)
  · exact hr
  · exact ⟨c, rfl, hgood c (List.mem_of_getElem? hj)⟩

/-- The objects at the start. -/
def SoundStart (blake3 : Bytes → Oid) (dot : Path) (fs : CrashFs Path Bytes) : Prop :=
  ∀ oid data, fs.read (objectPath dot oid) = some data → Sound blake3 dot (objectPath dot oid) data

theorem there_start (hclean : AtomicSys.Clean fs dirs) (hsound : SoundStart blake3 dot fs) {oid : Oid}
    (h : fs.read (objectPath dot oid) ≠ none) : There blake3 dot (.start fs dirs) (objectPath dot oid) := by
  have hreach : reaches dirs (objectPath dot oid) = true := by
    by_contra hlost
    exact h (hclean.read_none hlost)
  refine ⟨hclean.certain_dirs hreach, (hclean.certain _).mono fun r hr => ?_⟩
  obtain ⟨data, hdata⟩ := Option.ne_none_iff_exists'.mp h
  exact ⟨data, hr.trans hdata, hsound oid data hdata⟩

/-- A file that is synced with its directories is there. -/
theorem there_of_synced (hclean : AtomicSys.Clean fs dirs) (hsound : SoundStart blake3 dot fs) {d : AtomicSys} {oid : Oid}
    (hrun : Reach AtomicSys.step AtomicSys.sane (.start fs dirs) d)
    (hgood : ∀ data, (objectPath dot oid, data) ∈ d.log → Sound blake3 dot (objectPath dot oid) data)
    (hsynced : CommitSys.synced d (objectPath dot oid) = true) (hnamed : (d.fs.names (objectPath dot oid)).isSome) :
    There blake3 dot d (objectPath dot oid) := by
  rw [CommitSys.synced, Bool.and_eq_true, Bool.and_eq_true] at hsynced
  obtain ⟨⟨hreach, hpast⟩, hdirs⟩ := hsynced
  obtain ⟨-, hwhole⟩ := AtomicSys.whole_of_reach hclean hrun (objectPath_plain oid)
  refine ⟨fun a ha t ht => ?_, fun t ht => ?_⟩
  · have hkept := AtomicSys.dirs_kept_of_reach hclean hrun a t ht
    rw [List.isEmpty_iff.mp (List.all_eq_true.mp hdirs a ha), List.mem_singleton] at ht
    obtain ⟨i, hi⟩ := Option.isSome_iff_exists.mp (List.all_eq_true.mp hreach a ha)
    obtain ⟨x, hx, -⟩ := hkept.1 i (ht.trans hi)
    refine ⟨hkept.1, ?_⟩
    rw [ht, hi, CrashFs.contentAt, hx]
    exact Option.some_ne_none _
  · rw [List.isEmpty_iff.mp hpast, List.mem_singleton] at ht
    obtain ⟨hkept, hr⟩ := hwhole t (List.mem_cons.mpr (.inl ht))
    obtain ⟨i, hi⟩ := Option.isSome_iff_exists.mp hnamed
    obtain ⟨x, hx, -⟩ := hkept i (ht.trans hi)
    have hcontent : d.fs.contentAt t = some x.content := by rw [ht, hi, CrashFs.contentAt, hx, Option.map_some]
    refine ⟨hkept, x.content, hcontent, ?_⟩
    rw [hcontent] at hr
    rcases hr with hr | ⟨data, hmem, hr⟩
    · exact hsound oid _ hr.symm
    · cases hr
      exact hgood _ hmem

/-! ### One step -/

variable (blake3 dot fs dirs)

/-- What a process has behind it is there. -/
structure ProcKeeps (d : AtomicSys) (p : CommitProc chunkBytes) : Prop where
  put : ∀ k, p.step.putting? = some k →
    ∀ i < k, ∀ o, p.writes.objects[i]? = some o → There blake3 dot d (objectPath dot (o.oid blake3))
  waits : ∀ k j, p.step.waiting? = some (k, j) →
    (∀ i < k, ∀ o, p.writes.objects[i]? = some o → There blake3 dot d (objectPath dot (o.oid blake3))) ∧
      ∃ w o, d.writers[j]? = some w ∧ p.writes.objects[k]? = some o ∧ w.dest = objectPath dot (o.oid blake3)
  branch : dot ++ ["refs", "heads"] <+: p.writes.refPath
  plain : isTempName p.writes.refPath = false

/-- What is known of the writer of an object. -/
structure Puts (d : AtomicSys) (w : Writer) : Prop where
  path : ∃ oid, w.dest = objectPath dot oid
  leaves : w.opts.overwrite = false
  syncs : w.opts.fsyncParent = true
  there : w.step = .done true → There blake3 dot d w.dest

structure CommitInv (s : CommitSys chunkBytes) : Prop where
  run : Reach AtomicSys.step AtomicSys.sane (.start fs dirs) s.disk
  writers : ∀ (i : Nat) (w : Writer), s.disk.writers[i]? = some w → Good blake3 dot s.advanced w.dest w.data
  puts : ∀ (i : Nat) (w : Writer), s.disk.writers[i]? = some w → dot ++ ["objects"] <+: w.dest → Puts blake3 dot s.disk w
  log : ∀ p data, (p, data) ∈ s.disk.log → Good blake3 dot s.advanced p data
  procs : ∀ (i : Nat) (p : CommitProc chunkBytes), s.procs[i]? = some p → ProcKeeps blake3 dot s.disk p
  advanced : ∀ c ∈ s.advanced, ∀ o ∈ c.objects, There blake3 dot s.disk (objectPath dot (o.oid blake3))
  found : ∀ oid, fs.read (objectPath dot oid) ≠ none → There blake3 dot s.disk (objectPath dot oid)

variable {blake3 dot fs dirs}
variable {s s' : CommitSys chunkBytes} {d d' : AtomicSys}

/-- Objects that were there are there, and writers are where they were. -/
theorem ProcKeeps.step {p : CommitProc chunkBytes} (h : ProcKeeps blake3 dot d p)
    (hthere : ∀ oid, There blake3 dot d (objectPath dot oid) → There blake3 dot d' (objectPath dot oid))
    (hdest : ∀ (j : Nat) (w : Writer), d.writers[j]? = some w → ∃ w', d'.writers[j]? = some w' ∧ w'.dest = w.dest) :
    ProcKeeps blake3 dot d' p where
  put k hk i hi o ho := hthere _ (h.put k hk i hi o ho)
  waits k j hkj := by
    obtain ⟨hbefore, w, o, hw, ho, hpath⟩ := h.waits k j hkj
    obtain ⟨w', hw', hsame⟩ := hdest j w hw
    exact ⟨fun i hi o ho => hthere _ (hbefore i hi o ho), w', o, hw', ho, hsame.trans hpath⟩
  branch := h.branch
  plain := h.plain

theorem Puts.of_there {w : Writer} (h : Puts blake3 dot d w)
    (hthere : ∀ oid, There blake3 dot d (objectPath dot oid) → There blake3 dot d' (objectPath dot oid)) :
    Puts blake3 dot d' w where
  path := h.path
  leaves := h.leaves
  syncs := h.syncs
  there hdone := by
    obtain ⟨oid, hoid⟩ := h.path
    rw [hoid]
    exact hthere oid (hoid ▸ h.there hdone)

/-- A call renames what a writer may write. -/
theorem CommitInv.log_step (h : CommitInv blake3 dot fs dirs s) {a : AtomicAct} (hstep : s.disk.step a = some d') :
    ∀ p data, (p, data) ∈ d'.log → Good blake3 dot s.advanced p data := by
  cases a with
  | spawn dest data opts =>
    cases hstep
    exact h.log
  | run i ans =>
    obtain ⟨w, hw, hadv⟩ := Option.bind_eq_some_iff.mp hstep
    obtain ⟨-, -, hlog | hlog, -⟩ := AtomicSys.advance_shape hadv
    · rw [hlog]
      exact h.log
    · rw [hlog]
      intro p data hmem
      rcases List.mem_append.mp hmem with hmem | hmem
      · exact h.log p data hmem
      · cases List.mem_singleton.mp hmem
        exact h.writers i w hw
  | sweep p =>
    dsimp only [AtomicSys.step] at hstep
    split at hstep
    · cases hstep
      exact h.log
    · cases hstep
  | crash pick garbage pickDir =>
    cases hstep
    exact h.log

theorem CommitInv.there_step (h : CommitInv blake3 dot fs dirs s) {a : AtomicAct}
    (hsane : AtomicSys.sane s.disk a = true) (hstep : s.disk.step a = some d') (oid : Oid)
    (hthere : There blake3 dot s.disk (objectPath dot oid)) : There blake3 dot d' (objectPath dot oid) :=
  hthere.step (AtomicSys.inv_of_reach h.run) hsane hstep (objectPath_plain oid) fun data hmem =>
    (h.log_step hstep _ data hmem).1 (under_objects oid)

/-- A writer of something begins; the commits may be more than before. -/
theorem CommitInv.spawn (h : CommitInv blake3 dot fs dirs s) {dest : Path} {data : Bytes} {opts : AtomicWriteOptions}
    {procs : List (CommitProc chunkBytes)} {advanced : List (CommitWrites chunkBytes)}
    (hsane : AtomicSys.sane s.disk (.spawn dest data opts) = true)
    (hstep : s.disk.step (.spawn dest data opts) = some d') (hmore : ∀ c ∈ s.advanced, c ∈ advanced)
    (hgood : Good blake3 dot advanced dest data)
    (hput : dot ++ ["objects"] <+: dest →
      (∃ oid, dest = objectPath dot oid) ∧ opts.overwrite = false ∧ opts.fsyncParent = true)
    (hprocs : ∀ (i : Nat) (p : CommitProc chunkBytes), procs[i]? = some p → ProcKeeps blake3 dot d' p)
    (hadvanced : ∀ c ∈ advanced, ∀ o ∈ c.objects, There blake3 dot s.disk (objectPath dot (o.oid blake3))) :
    CommitInv blake3 dot fs dirs ⟨d', procs, advanced⟩ := by
  have hmono : ∀ p data, Good blake3 dot s.advanced p data → Good blake3 dot advanced p data := by
    rintro p data ⟨hobject, hbranch⟩
    refine ⟨hobject, fun hp => ?_⟩
    obtain ⟨c, hc, heq⟩ := hbranch hp
    exact ⟨c, hmore c hc, heq⟩
  have hthere := h.there_step hsane hstep
  have hlog := h.log_step hstep
  have hrun := h.run.step hsane hstep
  cases hstep
  refine ⟨hrun, fun i w hw => ?_, fun i w hw hp => ?_, fun p data hmem => hmono p data (hlog p data hmem), hprocs,
    fun c hc o ho => hthere _ (hadvanced c hc o ho), fun oid hread => hthere _ (h.found oid hread)⟩
  · rcases getElem?_append_cases hw with rfl | hw
    · exact hgood
    · exact hmono _ _ (h.writers i w hw)
  · rcases getElem?_append_cases hw with rfl | hw
    · obtain ⟨hpath, hleaves, hsyncs⟩ := hput hp
      exact ⟨hpath, hleaves, hsyncs, nofun⟩
    · exact (h.puts i w hw hp).of_there hthere

theorem CommitInv.procs_of (h : CommitInv blake3 dot fs dirs s) {a : AtomicAct}
    (hsane : AtomicSys.sane s.disk a = true) (hstep : s.disk.step a = some d')
    (hdest : ∀ (j : Nat) (w : Writer), s.disk.writers[j]? = some w → ∃ w', d'.writers[j]? = some w' ∧ w'.dest = w.dest)
    (i : Nat) (p : CommitProc chunkBytes) (hp : s.procs[i]? = some p) : ProcKeeps blake3 dot d' p :=
  (h.procs i p hp).step (h.there_step hsane hstep) hdest

theorem step_put (h : CommitInv blake3 dot fs dirs s) {i : Nat} (hstep : s.step blake3 dot (.put i) = some s') :
    CommitInv blake3 dot fs dirs s' := by
  simp only [CommitSys.step, bind, Option.bind_eq_some_iff] at hstep
  obtain ⟨p, hp, k, hk, o, ho, data, hdata, d', hspawn, hs'⟩ := hstep
  cases hs'
  have hkeeps := h.procs i p hp
  have hsane : AtomicSys.sane s.disk (.spawn (objectPath dot (o.oid blake3)) data (objectOptions dot)) = true := by
    show (!isTempName (objectPath dot (o.oid blake3)) && true) = true
    rw [objectPath_plain]
    rfl
  have hwriters : d'.writers = s.disk.writers ++ [⟨objectPath dot (o.oid blake3), data, objectOptions dot, .start⟩] := by
    cases hspawn
    rfl
  have hdest : ∀ (j : Nat) (w : Writer), s.disk.writers[j]? = some w → ∃ w', d'.writers[j]? = some w' ∧ w'.dest = w.dest :=
    fun j w hw => ⟨w, by rw [hwriters, List.getElem?_append_left (List.getElem?_eq_some_iff.mp hw).1, hw], rfl⟩
  refine h.spawn hsane hspawn (fun c hc => hc) ⟨fun _ => sound_of_encode hdata, fun hb => absurd hb (not_branch_object _)⟩
    (fun _ => ⟨⟨_, rfl⟩, rfl, rfl⟩) (fun j q hq => ?_) h.advanced
  rcases getElem?_set_cases hq with ⟨rfl, rfl⟩ | ⟨-, hq⟩
  · have hmoved := h.procs_of hsane hspawn hdest j p hp
    refine ⟨nofun, fun k' j' hkj => ?_, hkeeps.branch, hkeeps.plain⟩
    cases hkj
    refine ⟨hmoved.put k hk, ⟨objectPath dot (o.oid blake3), data, objectOptions dot, .start⟩, o, ?_, ho, rfl⟩
    rw [hwriters]
    exact List.getElem?_concat_length
  · exact h.procs_of hsane hspawn hdest j q hq

theorem step_settle (h : CommitInv blake3 dot fs dirs s) {i : Nat} (hstep : s.step blake3 dot (.settle i) = some s') :
    CommitInv blake3 dot fs dirs s' := by
  simp only [CommitSys.step, bind, Option.bind_eq_some_iff] at hstep
  obtain ⟨p, hp, ⟨k, j⟩, hkj, w, hw, hs'⟩ := hstep
  split at hs'
  · next hdone =>
    cases hs'
    have hkeeps := h.procs i p hp
    obtain ⟨hbefore, w', o, hw', ho, hpath⟩ := hkeeps.waits k j hkj
    cases hw.symm.trans hw'
    refine ⟨h.run, h.writers, h.puts, h.log, fun i' q hq => ?_, h.advanced, h.found⟩
    rcases getElem?_set_cases hq with ⟨rfl, rfl⟩ | ⟨-, hq⟩
    · refine ⟨fun k' hk' m hm o' ho' => ?_, nofun, hkeeps.branch, hkeeps.plain⟩
      cases hk'
      rcases Nat.lt_succ_iff_lt_or_eq.mp hm with hm | rfl
      · exact hbefore m hm o' ho'
      · cases ho.symm.trans ho'
        rw [← hpath]
        exact (h.puts j w hw (hpath ▸ under_objects _)).there hdone
    · exact h.procs i' q hq
  · cases hs'

theorem step_advance (h : CommitInv blake3 dot fs dirs s) {i : Nat} (hstep : s.step blake3 dot (.advance i) = some s') :
    CommitInv blake3 dot fs dirs s' := by
  simp only [CommitSys.step, bind, Option.bind_eq_some_iff] at hstep
  obtain ⟨p, hp, k, hk, d', hspawn, hs'⟩ := hstep
  split at hs'
  · next hall =>
    cases hs'
    have hkeeps := h.procs i p hp
    have hsane : AtomicSys.sane s.disk (.spawn p.writes.refPath p.writes.line refOptions) = true := by
      show (!isTempName p.writes.refPath && true) = true
      rw [hkeeps.plain]
      rfl
    have hwriters : d'.writers = s.disk.writers ++ [⟨p.writes.refPath, p.writes.line, refOptions, .start⟩] := by
      cases hspawn
      rfl
    have hdest : ∀ (j : Nat) (w : Writer), s.disk.writers[j]? = some w → ∃ w', d'.writers[j]? = some w' ∧ w'.dest = w.dest :=
      fun j w hw => ⟨w, by rw [hwriters, List.getElem?_append_left (List.getElem?_eq_some_iff.mp hw).1, hw], rfl⟩
    refine h.spawn hsane hspawn (fun c hc => List.mem_cons_of_mem _ hc)
      ⟨fun hobject => absurd hobject (not_object_branch hkeeps.branch), fun _ => ⟨p.writes, List.mem_cons_self, rfl, rfl⟩⟩
      (fun hobject => absurd hobject (not_object_branch hkeeps.branch)) (fun j q hq => ?_) fun c hc o ho => ?_
    · rcases getElem?_set_cases hq with ⟨rfl, rfl⟩ | ⟨-, hq⟩
      · exact ⟨nofun, nofun, hkeeps.branch, hkeeps.plain⟩
      · exact h.procs_of hsane hspawn hdest j q hq
    · rcases List.mem_cons.mp hc with rfl | hc
      · -- Every object of it was put.
        obtain ⟨m, hm⟩ := List.getElem?_of_mem ho
        exact hkeeps.put k hk m (hall ▸ (List.getElem?_eq_some_iff.mp hm).1) o hm
      · exact h.advanced c hc o ho
  · cases hs'

/-- A writer that reports success on an object leaves it there. -/
theorem there_of_reports (hclean : AtomicSys.Clean fs dirs) (hsound : SoundStart blake3 dot fs)
    (h : CommitInv blake3 dot fs dirs s) {i : Nat} {a : Answer} {w : Writer} (hw : s.disk.writers[i]? = some w)
    (hobject : dot ++ ["objects"] <+: w.dest) (hstep : s.disk.step (.run i a) = some d')
    (hreports : AtomicSys.Reports s.disk d' w) (hsynced : CommitSys.synced d' w.dest = true) :
    There blake3 dot d' w.dest := by
  have hputs := h.puts i w hw hobject
  have hnamed : (d'.fs.names w.dest).isSome = true := by
    rcases hreports with ⟨hfound, hfs⟩ | ⟨⟨k, hk⟩, hnames⟩ | hparent
    · rw [hfs]
      rw [AtomicSys.readFile] at hfound
      split at hfound
      · rw [CrashFs.read] at hfound
        cases hname : s.disk.fs.names w.dest with
        | none =>
          rw [hname] at hfound
          cases hfound
        | some n => rfl
      · cases hfound
    · obtain ⟨n, j, c, hname, -⟩ := ((AtomicSys.inv_of_reach h.run).owns i w hw).landed k hk
      rw [hnames, hname]
      rfl
    · rw [hputs.syncs] at hparent
      cases hparent
  obtain ⟨oid, hoid⟩ := hputs.path
  rw [hoid] at hsynced hnamed ⊢
  exact there_of_synced hclean hsound (h.run.step rfl hstep)
    (fun data hmem => (h.log_step hstep _ data hmem).1 (under_objects oid))
    hsynced hnamed

theorem step_run (hclean : AtomicSys.Clean fs dirs) (hsound : SoundStart blake3 dot fs)
    (h : CommitInv blake3 dot fs dirs s) {i : Nat} {a : Answer} (hstep : s.disk.step (.run i a) = some d')
    (hreliable : CommitSys.reliable s.disk (.run i a) = true) : CommitInv blake3 dot fs dirs ⟨d', s.procs, s.advanced⟩ := by
  have hthere := h.there_step rfl hstep
  obtain ⟨w, hw, hadv⟩ := Option.bind_eq_some_iff.mp hstep
  obtain ⟨step, hwriters, -, -, hreports⟩ := AtomicSys.advance_shape hadv
  have hlt := (List.getElem?_eq_some_iff.mp hw).1
  have hdest : ∀ (j : Nat) (v : Writer), s.disk.writers[j]? = some v → ∃ v', d'.writers[j]? = some v' ∧ v'.dest = v.dest := by
    intro j v hv
    by_cases hj : i = j
    · subst hj
      cases hw.symm.trans hv
      exact ⟨{ w with step }, by rw [hwriters, List.getElem?_set_self hlt], rfl⟩
    · exact ⟨v, by rw [hwriters, List.getElem?_set_ne hj, hv], rfl⟩
  refine ⟨h.run.step rfl hstep, fun j v hv => ?_, fun j v hv hp => ?_, h.log_step hstep, h.procs_of rfl hstep hdest,
    fun c hc o ho => hthere _ (h.advanced c hc o ho), fun oid hread => hthere _ (h.found oid hread)⟩
  · rw [hwriters] at hv
    rcases getElem?_set_cases hv with ⟨rfl, rfl⟩ | ⟨-, hv⟩
    · exact h.writers j w hw
    · exact h.writers j v hv
  · have hv' := hv
    rw [hwriters] at hv
    rcases getElem?_set_cases hv with ⟨rfl, rfl⟩ | ⟨-, hv⟩
    · have hputs := h.puts j w hw hp
      refine ⟨hputs.path, hputs.leaves, hputs.syncs, fun hdone => ?_⟩
      show There blake3 dot d' w.dest
      refine there_of_reports hclean hsound h hw hp hstep (hreports hdone) ?_
      have hall := hreliable
      rw [CommitSys.reliable, hw, Option.all_some, hputs.leaves, Bool.false_or, hstep, Option.all_some, hv', Option.all_some,
        hdone] at hall
      simpa using hall
    · exact (h.puts j v hv hp).of_there hthere

theorem step_disk (hclean : AtomicSys.Clean fs dirs) (hsound : SoundStart blake3 dot fs)
    (h : CommitInv blake3 dot fs dirs s) {a : AtomicAct} (hcareful : s.careful dot (.disk a) = true)
    (hstep : s.step blake3 dot (.disk a) = some s') : CommitInv blake3 dot fs dirs s' := by
  simp only [CommitSys.step, bind, Option.bind_eq_some_iff] at hstep
  obtain ⟨d', hstep, hs'⟩ := hstep
  cases hs'
  rw [CommitSys.careful, Bool.and_eq_true, Bool.and_eq_true] at hcareful
  obtain ⟨⟨hsane, helsewhere⟩, hreliable⟩ := hcareful
  have hthere := h.there_step hsane hstep
  cases a with
  | spawn dest data opts =>
    rw [CommitSys.elsewhere, Bool.and_eq_true, Bool.not_eq_true', Bool.not_eq_true'] at helsewhere
    have hnot : ∀ q : Path, q.isPrefixOf dest = false → ¬q <+: dest := by
      intro q hq hprefix
      rw [List.isPrefixOf_iff_prefix.mpr hprefix] at hq
      cases hq
    refine h.spawn hsane hstep (fun c hc => hc)
      ⟨fun hp => absurd hp (hnot _ helsewhere.1), fun hp => absurd hp (hnot _ helsewhere.2)⟩
      (fun hp => absurd hp (hnot _ helsewhere.1)) (h.procs_of hsane hstep fun j w hw => ?_) h.advanced
    cases hstep
    exact ⟨w, by rw [List.getElem?_append_left (List.getElem?_eq_some_iff.mp hw).1, hw], rfl⟩
  | run i ans => exact step_run hclean hsound h hstep hreliable
  | sweep p =>
    have hrun := h.run.step hsane hstep
    have hlog := h.log_step hstep
    have hprocs := h.procs_of hsane hstep
    dsimp only [AtomicSys.step] at hstep
    split at hstep
    · cases hstep
      exact ⟨hrun, h.writers, fun i w hw hp => (h.puts i w hw hp).of_there hthere, hlog, hprocs fun j w hw => ⟨w, hw, rfl⟩,
        fun c hc o ho => hthere _ (h.advanced c hc o ho), fun oid hread => hthere _ (h.found oid hread)⟩
    · cases hstep
  | crash pick garbage pickDir =>
    have hrun := h.run.step hsane hstep
    have hlog := h.log_step hstep
    cases hstep
    exact ⟨hrun, nofun, nofun, hlog, nofun, fun c hc o ho => hthere _ (h.advanced c hc o ho),
      fun oid hread => hthere _ (h.found oid hread)⟩

theorem commit_start (hclean : AtomicSys.Clean fs dirs) (hsound : SoundStart blake3 dot fs) :
    CommitInv blake3 dot fs dirs (CommitSys.start fs dirs : CommitSys chunkBytes) where
  run := .init
  writers _ _ hw := by cases hw
  puts _ _ hw := by cases hw
  log _ _ hmem := by cases hmem
  procs _ _ hp := by cases hp
  advanced _ hc := by cases hc
  found _ hread := there_start hclean hsound hread

theorem commit_inv (hclean : AtomicSys.Clean fs dirs) (hsound : SoundStart blake3 dot fs)
    (h : Reach (CommitSys.step blake3 dot) (CommitSys.careful dot) (CommitSys.start fs dirs) s) :
    CommitInv blake3 dot fs dirs s := by
  refine Reach.invariant (I := CommitInv blake3 dot fs dirs) (commit_start hclean hsound) ?_ h
  intro t a t' hinv hcareful hstep
  cases a with
  | begin writes =>
    cases hstep
    rw [CommitSys.careful, Bool.and_eq_true, Bool.not_eq_true'] at hcareful
    refine ⟨hinv.run, hinv.writers, hinv.puts, hinv.log, fun i p hp => ?_, hinv.advanced, hinv.found⟩
    rcases getElem?_append_cases hp with rfl | hp
    · refine ⟨fun k hk => ?_, nofun, List.isPrefixOf_iff_prefix.mp hcareful.1, hcareful.2⟩
      cases hk
      exact nofun
    · exact hinv.procs i p hp
  | put i => exact step_put hinv hstep
  | settle i => exact step_settle hinv hstep
  | advance i => exact step_advance hinv hstep
  | disk a => exact step_disk hclean hsound hinv hcareful hstep

/-! ### Every run -/

/-- **A crashed commit is harmless.** Whenever the power fails, and however many commits are under way, a branch reads as it
did at the start or as the line of a commit whose objects are all there, and no object that was there is lost. -/
theorem crashed_commit_harmless (hclean : AtomicSys.Clean fs dirs) (hsound : SoundStart blake3 dot fs)
    (h : Reach (CommitSys.step blake3 dot) (CommitSys.careful dot) (CommitSys.start fs dirs) s) :
    (∀ p, dot ++ ["refs", "heads"] <+: p → isTempName p = false →
      s.disk.readFile p = (AtomicSys.start fs dirs).readFile p ∨
        ∃ c ∈ s.advanced, c.refPath = p ∧ s.disk.readFile p = some c.line ∧
          ∀ o ∈ c.objects, ObjectReads blake3 dot s.disk (o.oid blake3)) ∧
      ∀ oid, (AtomicSys.start fs dirs).readFile (objectPath dot oid) ≠ none → ObjectReads blake3 dot s.disk oid := by
  have hinv := commit_inv hclean hsound h
  refine ⟨fun p hbranch hplain => ?_, fun oid hread => ?_⟩
  · rw [hclean.readFile p]
    rcases AtomicSys.readFile_whole hclean hinv.run hplain with hsame | ⟨data, hmem, hread⟩
    · exact .inl hsame
    · obtain ⟨c, hc, hp, hline⟩ := (hinv.log p data hmem).2 hbranch
      exact .inr ⟨c, hc, hp, hline ▸ hread, fun o ho => (hinv.advanced c hc o ho).reads⟩
  · rw [hclean.readFile] at hread
    exact (hinv.found oid hread).reads

end

/-! ### A small repository -/

def smallDot : Path := [".synapsefs"]

/-- The directory of the branches, and these of objects. -/
def smallDirs (fanout : List Path) : CrashFs Path Unit :=
  AtomicSys.madeDirs ([smallDot, smallDot ++ ["objects"], smallDot ++ ["refs"], smallDot ++ ["refs", "heads"]] ++ fanout)

def mainPath : Path := smallDot ++ ["refs", "heads", "main"]

/-- One empty object. -/
def smallWrites : CommitWrites 4 where
  objects := [⟨.raw, [], ⟨by decide, by decide, by decide, by decide⟩⟩]
  refPath := mainPath
  line := [98, 51]

/-- The object is put and the branch is replaced. Then the power fails, and of the directories only the oldest are left. -/
def smallCommit : List (CommitAct 4) :=
  [.begin smallWrites, .put 0, .disk (.run 0 .ok), .disk (.run 0 (.opened 1)), .disk (.run 0 (.wrote 40)), .disk (.run 0 .ok),
    .disk (.run 0 .ok), .disk (.run 0 .ok), .disk (.run 0 .ok), .settle 0, .advance 0, .disk (.run 1 .ok),
    .disk (.run 1 (.opened 2)), .disk (.run 1 (.wrote 2)), .disk (.run 1 .ok), .disk (.run 1 .ok), .disk (.run 1 .ok),
    .disk (.crash (fun _ => 0) (fun _ => []) fun _ => 1)]

/-- What the run comes to from an empty disk with these directories. -/
def afterSmall (ok : CommitSys 4 → CommitAct 4 → Bool) (fanout : List Path) : Option (CommitSys 4) :=
  runActs (CommitSys.step (fun _ => zeroOid) smallDot) ok (CommitSys.start AtomicSys.emptyDisk (smallDirs fanout)) smallCommit

theorem crashed_commit_harmless_small : ∃ s, afterSmall (CommitSys.careful smallDot) [smallDot ++ ["objects", "00"]] = some s ∧
    s.disk.readFile mainPath = some [98, 51] ∧
    ((∀ p, smallDot ++ ["refs", "heads"] <+: p → isTempName p = false →
      s.disk.readFile p = (AtomicSys.start AtomicSys.emptyDisk (smallDirs [smallDot ++ ["objects", "00"]])).readFile p ∨
        ∃ c ∈ s.advanced, c.refPath = p ∧ s.disk.readFile p = some c.line ∧
          ∀ o ∈ c.objects, ObjectReads (fun _ => zeroOid) smallDot s.disk (o.oid fun _ => zeroOid)) ∧
      ∀ oid, (AtomicSys.start AtomicSys.emptyDisk (smallDirs [smallDot ++ ["objects", "00"]])).readFile (objectPath smallDot oid) ≠
        none → ObjectReads (fun _ => zeroOid) smallDot s.disk oid) := by
  have hrun : ∃ s, afterSmall (CommitSys.careful smallDot) [smallDot ++ ["objects", "00"]] = some s ∧
      s.disk.readFile mainPath = some [98, 51] := ⟨_, rfl, rfl⟩
  obtain ⟨s, hrun, hread⟩ := hrun
  exact ⟨s, hrun, hread, crashed_commit_harmless (AtomicSys.clean_empty _) nofun (Reach.runActs .init hrun)⟩

/-- The object was the first in its directory. The branch names it, and the directory is gone. -/
theorem first_object_lost : ∃ s, afterSmall (fun _ _ => true) [] = some s ∧ s.disk.readFile mainPath = some [98, 51] ∧
    s.disk.readFile (objectPath smallDot zeroOid) = none :=
  ⟨_, rfl, rfl, rfl⟩

end SynapseFs.Store
