import SynapseFs.Mount.Fs
import SynapseFs.Mount.Prefetch

/-! A mounted session: the callbacks of the low-level adapter.

The kernel asks; every callback looks at inodes, handles and flags and goes straight to
`read`. A mount is of a commit, so there is one directory with one file that never
changes: `View` is that file system, and every run of requests gets its answers
(`session_serves`), whatever the cache and the readahead behind them do. -/
namespace SynapseFs.Mount
open Lib Core Format SynapseFs.Codec

def kRootIno : Nat := 1
def kFileIno : Nat := 2

/-! ### Replies -/

inductive Errno where
  | noent | acces | nospc | intr | rofs | io | isdir | notdir
  deriving DecidableEq, Repr

/-- An integrity failure is an I/O error, never bytes that merely look plausible. -/
def errnoFor (e : Error) : Errno :=
  match e.kind with
  | .noSuchFile => .noent
  | .permissionDenied => .acces
  | .noSpace => .nospc
  | .interrupted => .intr
  | .readOnlyFilesystem => .rofs
  | _ => .io

inductive FileType where
  | dir | reg
  deriving DecidableEq, Repr

structure Attr where
  ino : Nat
  type : FileType
  perm : Nat
  nlink : Nat
  size : Nat
  /-- Of all three times. -/
  time : Nat
  deriving DecidableEq, Repr

structure DirEntry where
  name : String
  attr : Attr
  /-- Where the listing goes on. -/
  next : Nat
  deriving DecidableEq, Repr

inductive Reply where
  /-- `fuse_reply_err`, with 0 for success. -/
  | err (e : Option Errno)
  | entry (ino generation timeout : Nat) (attr : Attr)
  | attr (a : Attr) (timeout : Nat)
  | opened (fh : Nat) (keepCache directIo : Bool)
  | buf (bytes : Bytes)
  | dir (entries : List DirEntry)
  | none
  deriving DecidableEq

/-! ### Requests -/

/-- A read, with the stores as they answer during it and during the readahead behind it. -/
structure ReadRequest where
  ino : Nat
  size : Nat
  off : Nat
  fh : Nat
  ctx : ReadCtx
  ahead : Nat → ReadCtx

inductive Request where
  | lookup (parent : Nat) (name : String)
  | getattr (ino : Nat)
  /-- `addr` is where the handle is allocated if there is one. -/
  | open (ino flags addr : Nat)
  | read (r : ReadRequest)
  | release (ino fh : Nat)
  | forget (ino nlookup : Nat)
  | forgetMulti (forgets : List (Nat × Nat))
  | opendir (ino : Nat)
  | readdir (ino size off : Nat)
  | releasedir

structure MountCtx where
  fs : Fs
  mountTime : Nat
  maxRead : Nat
  fileLookupCount : Nat
  /-- The open handles. -/
  files : FinMap Nat PrefetchState

def kCacheTimeoutSeconds : Nat := 3600

namespace MountCtx

def fillAttr (ctx : MountCtx) (ino : Nat) : Attr :=
  if ino = kRootIno then ⟨kRootIno, .dir, 0o555, 2, 0, ctx.mountTime⟩
  else ⟨kFileIno, .reg, 0o444, 1, ctx.fs.fileSize, ctx.mountTime⟩

def llLookup (ctx : MountCtx) (parent : Nat) (name : String) : MountCtx × Reply :=
  if parent ≠ kRootIno ∨ ctx.fs.fileName ≠ name then (ctx, .err (some .noent))
  else ({ ctx with fileLookupCount := u64 (ctx.fileLookupCount + 1) },
    .entry kFileIno 1 kCacheTimeoutSeconds (ctx.fillAttr kFileIno))

def llGetattr (ctx : MountCtx) (ino : Nat) : Reply :=
  if ino ≠ kRootIno ∧ ino ≠ kFileIno then .err (some .noent) else .attr (ctx.fillAttr ino) kCacheTimeoutSeconds

/-- `(flags & O_ACCMODE) != O_RDONLY`. -/
def writes (flags : Nat) : Prop := flags % 4 ≠ 0

instance (flags : Nat) : Decidable (writes flags) := inferInstanceAs (Decidable (_ ≠ _))

def llOpen (ctx : MountCtx) (ino flags addr : Nat) : MountCtx × Reply :=
  if ino = kRootIno then (ctx, .err (some .isdir))
  else if ino ≠ kFileIno then (ctx, .err (some .noent))
  else if writes flags then (ctx, .err (some .rofs))
  else ({ ctx with files := ctx.files.insert addr (.new .default) }, .opened addr true false)

def llRelease (ctx : MountCtx) (fh : Nat) : Outcome (MountCtx × Reply) :=
  if fh ≠ 0 ∧ (ctx.files.get? fh).isNone then .error (.undefined "delete of a released handle")
  else .ok ({ ctx with files := ctx.files.erase fh }, .err none)

def llForget (ctx : MountCtx) (ino nlookup : Nat) : MountCtx × Reply :=
  if ino = kFileIno then
    let cur := ctx.fileLookupCount
    ({ ctx with fileLookupCount := if 0 < cur then (if cur ≤ nlookup then 0 else cur - nlookup) else cur }, .none)
  else (ctx, .none)

/-- Every forget of the batch is answered. -/
def llForgetMulti (ctx : MountCtx) : List (Nat × Nat) → MountCtx × List Reply
  | [] => (ctx, [])
  | (ino, nlookup) :: rest =>
    let (ctx, reply) := ctx.llForget ino nlookup
    let (ctx, replies) := ctx.llForgetMulti rest
    (ctx, reply :: replies)

def llOpendir (ino : Nat) : Reply := if ino ≠ kRootIno then .err (some .notdir) else .opened 0 false false

/-- The directory, as `readdir` numbers it. -/
def listing (fileName : String) (attr : Nat → Attr) : List DirEntry :=
  [⟨".", attr kRootIno, 1⟩, ⟨"..", attr kRootIno, 2⟩, ⟨fileName, attr kFileIno, 3⟩]

/-- The entries that fit. `direntSize` is what `fuse_add_direntry` needs for a name. -/
def fitting (direntSize : String → Nat) (size : Nat) : List DirEntry → Nat → List DirEntry
  | [], _ => []
  | e :: rest, used =>
    if direntSize e.name = 0 ∨ size < used + direntSize e.name then []
    else e :: fitting direntSize size rest (used + direntSize e.name)

def llReaddir (direntSize : String → Nat) (ctx : MountCtx) (ino size off : Nat) : Reply :=
  if ino ≠ kRootIno then .err (some .notdir)
  else .dir (fitting direntSize size ((listing ctx.fs.fileName ctx.fillAttr).drop off) 0)

section
variable (libs : Libs) (hops : Nat) (alloc : Cache FrameKey → Ptr)

/-- Best-effort readahead: a read that fails or finds no bytes ends it. -/
def warmAhead (maxRead : Nat) : Fs → (Nat → ReadCtx) → Nat → Nat → Outcome Fs
  | fs, _, _, 0 => .ok fs
  | fs, ahead, off, frames + 1 =>
    if fs.fileSize ≤ off then .ok fs
    else
      match fs.read libs hops alloc (ahead 0) off (List.replicate maxRead 0) with
      | (fs, .ok (n, _)) => if n = 0 then .ok fs else warmAhead maxRead fs (fun i => ahead (i + 1)) (u64 (off + n)) frames
      | (fs, .error (.error _)) => .ok fs
      | (_, .error f) => .error f

/-- Behind a read: the handle sees it, and may want frames ahead. -/
def readAhead (ctx : MountCtx) (r : ReadRequest) (n : Nat) : Outcome MountCtx :=
  if r.fh = 0 then .ok ctx
  else
    match ctx.files.get? r.fh with
    | none => .error (.undefined "use of a released handle")
    | some p => do
      let (p, frames) := p.observe r.off n
      let fs ← warmAhead libs hops alloc ctx.maxRead ctx.fs r.ahead (u64 (r.off + n)) frames
      return { ctx with fs := fs, files := ctx.files.insert r.fh p }

def llRead (ctx : MountCtx) (r : ReadRequest) : Outcome (MountCtx × Reply) :=
  if r.ino ≠ kFileIno then .ok (ctx, .err (some .noent))
  else
    match ctx.fs.read libs hops alloc r.ctx r.off (List.replicate r.size 0) with
    | (fs, .ok (n, bytes)) => do
      let ctx ← readAhead libs hops alloc { ctx with fs := fs } r n
      return (ctx, .buf (bytes.take n))
    | (fs, .error (.error e)) => .ok ({ ctx with fs := fs }, .err (some (errnoFor e)))
    | (_, .error f) => .error f

variable (direntSize : String → Nat)

/-- One request, and the replies to it. -/
def step (ctx : MountCtx) : Request → Outcome (MountCtx × List Reply)
  | .lookup parent name => let (ctx, reply) := ctx.llLookup parent name; .ok (ctx, [reply])
  | .getattr ino => .ok (ctx, [ctx.llGetattr ino])
  | .open ino flags addr => let (ctx, reply) := ctx.llOpen ino flags addr; .ok (ctx, [reply])
  | .read r => do
    let (ctx, reply) ← ctx.llRead libs hops alloc r
    return (ctx, [reply])
  | .release _ fh => do
    let (ctx, reply) ← ctx.llRelease fh
    return (ctx, [reply])
  | .forget ino nlookup => let (ctx, reply) := ctx.llForget ino nlookup; .ok (ctx, [reply])
  | .forgetMulti forgets => .ok (ctx.llForgetMulti forgets)
  | .opendir ino => .ok (ctx, [llOpendir ino])
  | .readdir ino size off => .ok (ctx, [ctx.llReaddir direntSize ino size off])
  | .releasedir => .ok (ctx, [.err none])

def serve : MountCtx → List Request → Outcome (MountCtx × List (List Reply))
  | ctx, [] => .ok (ctx, [])
  | ctx, request :: rest => do
    let (ctx, replies) ← ctx.step libs hops alloc direntSize request
    let (ctx, more) ← serve ctx rest
    return (ctx, replies :: more)

end

/-- `MountSession::start`, the session and its options left out. -/
def start (fs : Fs) (mountTime maxRead : Nat) : MountCtx := ⟨fs, mountTime, maxRead, 0, .empty⟩

end MountCtx

/-! ### The file system that it is -/

/-- A directory with one file in it, and nothing that changes. -/
structure View where
  fileName : String
  data : Bytes
  mountTime : Nat

namespace View

def attr (v : View) (ino : Nat) : Attr :=
  if ino = kRootIno then ⟨kRootIno, .dir, 0o555, 2, 0, v.mountTime⟩ else ⟨kFileIno, .reg, 0o444, 1, v.data.length, v.mountTime⟩

def getattr (v : View) (ino : Nat) : Reply :=
  if ino = kRootIno ∨ ino = kFileIno then .attr (v.attr ino) kCacheTimeoutSeconds else .err (some .noent)

/-- The file opens for reading, and nothing else does. -/
def opened (ino flags addr : Nat) : Reply :=
  if ino = kRootIno then .err (some .isdir)
  else if ino = kFileIno then (if MountCtx.writes flags then .err (some .rofs) else .opened addr true false)
  else .err (some .noent)

/-- The right replies to a request: they depend on the request alone. -/
def answer (direntSize : String → Nat) (v : View) : Request → List Reply
  | .lookup parent name =>
    [if parent = kRootIno ∧ name = v.fileName then .entry kFileIno 1 kCacheTimeoutSeconds (v.attr kFileIno)
      else .err (some .noent)]
  | .getattr ino => [v.getattr ino]
  | .open ino flags addr => [opened ino flags addr]
  | .read r => [if r.ino = kFileIno then .buf (slice v.data r.off r.size) else .err (some .noent)]
  | .release _ _ => [.err none]
  | .forget _ _ => [.none]
  | .forgetMulti forgets => forgets.map fun _ => .none
  | .opendir ino => [if ino = kRootIno then .opened 0 false false else .err (some .notdir)]
  | .readdir ino size off =>
    [if ino = kRootIno then .dir (MountCtx.fitting direntSize size ((MountCtx.listing v.fileName v.attr).drop off) 0)
      else .err (some .notdir)]
  | .releasedir => [.err none]

end View

/-- The open handles, each with the reads that got bytes through it. -/
abbrev Handles := Nat → Option (List (Nat × Nat))

namespace Handles

def set (h : Handles) (fh : Nat) (seen : Option (List (Nat × Nat))) : Handles := fun k => if k = fh then seen else h k

def opens (h : Handles) : List Reply → Handles
  | [.opened fh _ _] => h.set fh (some [])
  | _ => h

def reads (h : Handles) (r : ReadRequest) : List Reply → Handles
  | [.buf bytes] => h.set r.fh ((h r.fh).map (· ++ [(r.off, bytes.length)]))
  | _ => h

def after (h : Handles) (request : Request) (replies : List Reply) : Handles :=
  match request with
  | .open _ _ _ => h.opens replies
  | .read r => h.reads r replies
  | .release _ fh => h.set fh none
  | _ => h

/-- A new handle is where no handle is, and what is read or released through is open. -/
def Permits (h : Handles) : Request → Prop
  | .open _ _ addr => addr ≠ 0 ∧ h addr = none
  | .read r => r.fh = 0 ∨ (h r.fh).isSome
  | .release _ fh => fh = 0 ∨ (h fh).isSome
  | _ => True

end Handles

/-- The stores answer during a request. -/
def Answering (libs : Libs) (hops : Nat) (m : Manifest) (header : Bytes) (content : String → Bytes) : Request → Prop
  | .read r => Fs.Answers libs hops r.ctx m header content ∧ ∀ i, Fs.Answers libs hops (r.ahead i) m header content
  | _ => True

section
variable (libs : Libs) (hops : Nat) (m : Manifest) (direntSize : String → Nat) (v : View)

/-- The right replies, or for a read of the file the error of what the stores failed with. -/
def Answered (request : Request) (replies : List Reply) : Prop :=
  replies = v.answer direntSize request ∨
    ∃ r err, request = .read r ∧ r.ino = kFileIno ∧ Fs.Fails libs hops r.ctx m err ∧ replies = [.err (some (errnoFor err))]

/-- The kernel keeps to the handles it has. Which ones these are does not depend on what its reads return. -/
def Permitted : Handles → List Request → Prop
  | _, [] => True
  | h, request :: rest => h.Permits request ∧ Permitted (h.after request (v.answer direntSize request)) rest

/-- Requests and their replies, from some open handles to others. -/
inductive Session : Handles → List Request → List (List Reply) → Handles → Prop
  | nil (h : Handles) : Session h [] [] h
  | cons {h h' : Handles} {request : Request} {replies : List Reply} {rest : List Request} {more : List (List Reply)} :
    Answered libs hops m direntSize v request replies → Session (h.after request replies) rest more h' →
      Session h (request :: rest) (replies :: more) h'

end

/-! ### Every run of it -/

/-- The two have the same handles open. -/
def Handles.Same (h h' : Handles) : Prop := ∀ fh, (h fh).isSome = (h' fh).isSome

section
variable {libs : Libs} {hops : Nat} {alloc : Cache FrameKey → Ptr} {m : Manifest} {header : Bytes}
  {content : String → Bytes} {direntSize : String → Nat} {v : View} {ctx : MountCtx} {h h' : Handles}

theorem Handles.Same.permits (hsame : h.Same h') {request : Request} (hper : h'.Permits request) : h.Permits request := by
  cases request with
  | «open» ino flags addr =>
    refine ⟨hper.1, ?_⟩
    have hnone := hsame addr
    rw [hper.2] at hnone
    exact Option.isNone_iff_eq_none.mp (by simpa using hnone)
  | read r => exact hper.imp id fun hopen => (hsame r.fh).trans hopen
  | release ino fh => exact hper.imp id fun hopen => (hsame fh).trans hopen
  | _ => trivial

theorem Handles.isSome_set (h : Handles) (fh : Nat) (seen : Option (List (Nat × Nat))) (k : Nat) :
    (h.set fh seen k).isSome = if k = fh then seen.isSome else (h k).isSome := by
  rw [Handles.set]
  split <;> rfl

theorem Handles.set_absent {fh : Nat} (habsent : h fh = none) : h.set fh none = h := by
  funext k
  rw [Handles.set]
  split
  · next hk => rw [hk, habsent]
  · rfl

/-- A read opens and closes nothing. -/
theorem Handles.reads_same (h : Handles) (r : ReadRequest) (replies : List Reply) : (h.reads r replies).Same h := by
  intro k
  unfold Handles.reads
  split
  · rw [Handles.isSome_set, Option.isSome_map]
    split
    · next hk => rw [hk]
    · rfl
  · rfl

theorem Handles.Same.opens (hsame : h.Same h') (replies : List Reply) : (h.opens replies).Same (h'.opens replies) := by
  intro k
  unfold Handles.opens
  split
  · rw [Handles.isSome_set, Handles.isSome_set, hsame k]
  · exact hsame k

theorem Handles.Same.reads (hsame : h.Same h') (r : ReadRequest) (replies replies' : List Reply) :
    (h.reads r replies).Same (h'.reads r replies') := fun k =>
  (h.reads_same r replies k).trans ((hsame k).trans (h'.reads_same r replies' k).symm)

theorem Handles.Same.after (hsame : h.Same h') {request : Request} {replies : List Reply}
    (hans : Answered libs hops m direntSize v request replies) :
    (h.after request replies).Same (h'.after request (v.answer direntSize request)) := by
  rcases hans with rfl | ⟨r, err, rfl, -, -, rfl⟩
  · cases request with
    | «open» ino flags addr => exact hsame.opens _
    | read r => exact hsame.reads r _ _
    | release ino fh =>
      intro k
      show (h.set fh none k).isSome = (h'.set fh none k).isSome
      rw [Handles.isSome_set, Handles.isSome_set, hsame k]
    | _ => exact hsame
  · exact hsame.reads r [.err (some (errnoFor err))] (v.answer direntSize (.read r))

/-- The mount between two requests: it shows the file, and each open handle has seen its own reads. -/
structure MountCtx.Behind (ctx : MountCtx) (m : Manifest) (header : Bytes) (content : String → Bytes) (v : View) (h : Handles) :
    Prop where
  mounts : ctx.fs.Mounts m header content
  name : ctx.fs.fileName = v.fileName
  time : ctx.mountTime = v.mountTime
  data : v.data = Fs.stream m header content
  files : ∀ fh, ctx.files.get? fh = (h fh).map (PrefetchState.observed .default)
  /-- A handle is not at address 0. -/
  null : h 0 = none

variable (libs hops alloc) in
theorem Fs.read_fileName (fs : Fs) (rctx : ReadCtx) (off : Nat) (out : Bytes) :
    (fs.read libs hops alloc rctx off out).1.fileName = fs.fileName := by
  unfold Fs.read
  split <;> rfl

/-- Readahead leaves a mount, whatever its reads return. -/
theorem warmAhead_mounts (hshape : Fs.Shape m header content) (maxRead : Nat) (frames : Nat) : ∀ (fs : Fs)
    (ahead : Nat → ReadCtx) (off : Nat), fs.Mounts m header content →
      (∀ i, Fs.Answers libs hops (ahead i) m header content) →
        ∃ fs', MountCtx.warmAhead libs hops alloc maxRead fs ahead off frames = .ok fs' ∧ fs'.Mounts m header content ∧
          fs'.fileName = fs.fileName := by
  induction frames with
  | zero => exact fun fs _ _ hfs _ => ⟨fs, rfl, hfs, rfl⟩
  | succ frames ih =>
    intro fs ahead off hfs hans
    unfold MountCtx.warmAhead
    split
    · exact ⟨fs, rfl, hfs, rfl⟩
    · obtain ⟨hnext, hshown⟩ := Fs.read_eq alloc hshape hfs ⟨ahead 0, off, List.replicate maxRead 0⟩ (hans 0)
      have hname := Fs.read_fileName libs hops alloc fs (ahead 0) off (List.replicate maxRead 0)
      rcases hread : fs.read libs hops alloc (ahead 0) off (List.replicate maxRead 0) with ⟨fs', result⟩
      rw [hread] at hnext hshown hname
      rcases hshown with hok | ⟨err, -, herr⟩
      · subst hok
        dsimp only
        split
        · exact ⟨fs', rfl, hnext, hname⟩
        · obtain ⟨fs'', hwarm, hmounts, hname'⟩ := ih fs' (fun i => ahead (i + 1))
            (u64 (off + min (List.replicate maxRead (0 : UInt8)).length (m.file.totalBytes - off))) hnext fun i => hans (i + 1)
          exact ⟨fs'', hwarm, hmounts, hname'.trans hname⟩
      · subst herr
        exact ⟨fs', rfl, hnext, hname⟩

namespace MountCtx.Behind

theorem fillAttr_eq (hshape : Fs.Shape m header content) (hbehind : ctx.Behind m header content v h) :
    ctx.fillAttr = v.attr := by
  funext ino
  rw [fillAttr, View.attr, hbehind.time, hbehind.mounts.fileSize, hbehind.data, hshape.length_stream]

/-- A handle that sees a read. -/
theorem observe (hbehind : ctx.Behind m header content v h) {fh off n : Nat} {p : PrefetchState}
    (hget : ctx.files.get? fh = some p) {fs : Fs} (hmounts : fs.Mounts m header content) (hname : fs.fileName = v.fileName) :
    ({ ctx with fs := fs, files := ctx.files.insert fh (p.observe off n).1 } : MountCtx).Behind m header content v
      (h.set fh ((h fh).map (· ++ [(off, n)]))) := by
  rw [hbehind.files] at hget
  obtain ⟨reads, hreads, rfl⟩ := Option.map_eq_some_iff.mp hget
  refine ⟨hmounts, hname, hbehind.time, hbehind.data, fun k => ?_, ?_⟩
  · dsimp only
    rw [FinMap.get?_insert, Handles.set, hreads]
    split
    · rw [Option.map_some, Option.map_some, PrefetchState.observed_snoc]
    · exact hbehind.files k
  · rw [Handles.set]
    split
    · next hzero => rw [← hzero, hbehind.null, Option.map_none]
    · exact hbehind.null

/-- Behind a read of `n` bytes. -/
theorem readAhead (hshape : Fs.Shape m header content) (hbehind : ctx.Behind m header content v h) (r : ReadRequest) (n : Nat)
    (hper : h.Permits (.read r)) (hahead : ∀ i, Fs.Answers libs hops (r.ahead i) m header content) :
    ∃ ctx', ctx.readAhead libs hops alloc r n = .ok ctx' ∧
      ctx'.Behind m header content v (h.set r.fh ((h r.fh).map (· ++ [(r.off, n)]))) := by
  unfold MountCtx.readAhead
  split
  · next hzero =>
    refine ⟨ctx, rfl, ?_⟩
    rwa [hzero, hbehind.null, Option.map_none, Handles.set_absent hbehind.null]
  · next hne =>
    obtain ⟨reads, hreads⟩ := Option.isSome_iff_exists.mp (hper.resolve_left hne)
    have hget := hbehind.files r.fh
    rw [hreads, Option.map_some] at hget
    obtain ⟨fs, hwarm, hmounts, hname⟩ := warmAhead_mounts hshape ctx.maxRead
      ((PrefetchState.observed .default reads).observe r.off n).2 ctx.fs r.ahead (u64 (r.off + n)) hbehind.mounts hahead
    rw [hget]
    refine ⟨_, bind_eq_ok.mpr ⟨fs, hwarm, rfl⟩, ?_⟩
    exact hbehind.observe hget hmounts (hname.trans hbehind.name)

theorem llRead (hshape : Fs.Shape m header content) (hbehind : ctx.Behind m header content v h) (r : ReadRequest)
    (hper : h.Permits (.read r)) (hans : Fs.Answers libs hops r.ctx m header content)
    (hahead : ∀ i, Fs.Answers libs hops (r.ahead i) m header content) :
    ∃ ctx' reply, ctx.llRead libs hops alloc r = .ok (ctx', reply) ∧ Answered libs hops m direntSize v (.read r) [reply] ∧
      ctx'.Behind m header content v (h.after (.read r) [reply]) := by
  unfold MountCtx.llRead
  split
  · next hino => exact ⟨ctx, _, rfl, Or.inl (by rw [View.answer, if_neg hino]), hbehind⟩
  · next hino =>
    have hino : r.ino = kFileIno := not_not.mp hino
    obtain ⟨hnext, hshown⟩ := Fs.read_eq alloc hshape hbehind.mounts ⟨r.ctx, r.off, List.replicate r.size 0⟩ hans
    have hname := Fs.read_fileName libs hops alloc ctx.fs r.ctx r.off (List.replicate r.size 0)
    rcases hread : ctx.fs.read libs hops alloc r.ctx r.off (List.replicate r.size 0) with ⟨fs, result⟩
    rw [hread] at hnext hshown hname
    have hbehind' : ({ ctx with fs := fs } : MountCtx).Behind m header content v h :=
      ⟨hnext, hname.trans hbehind.name, hbehind.time, hbehind.data, hbehind.files, hbehind.null⟩
    rcases hshown with hok | ⟨err, hfails, herr⟩
    · have hcount : min (List.replicate r.size (0 : UInt8)).length (m.file.totalBytes - r.off) =
          (slice v.data r.off r.size).length := by
        rw [length_slice, hbehind.data, hshape.length_stream, List.length_replicate]
      have hbytes : (filled (slice v.data r.off r.size) (List.replicate r.size 0)).take (slice v.data r.off r.size).length =
          slice v.data r.off r.size := List.take_left
      dsimp only at hok
      rw [hcount, List.length_replicate, ← hbehind.data] at hok
      subst hok
      obtain ⟨ctx', hahead', hbehind''⟩ := hbehind'.readAhead hshape r (slice v.data r.off r.size).length hper hahead
      refine ⟨ctx', .buf (slice v.data r.off r.size), ?_, Or.inl (by rw [View.answer, if_pos hino]), hbehind''⟩
      dsimp only
      rw [hbytes, hahead']
      rfl
    · subst herr
      exact ⟨_, _, rfl, Or.inr ⟨r, err, rfl, hino, hfails, rfl⟩, hbehind'⟩

theorem llLookup (hbehind : ctx.Behind m header content v h) (hattr : ctx.fillAttr = v.attr) (parent : Nat) (name : String) :
    [(ctx.llLookup parent name).2] = v.answer direntSize (.lookup parent name) ∧
      (ctx.llLookup parent name).1.Behind m header content v h := by
  unfold MountCtx.llLookup
  dsimp only [View.answer]
  rw [hattr, hbehind.name]
  by_cases hfile : parent = kRootIno ∧ name = v.fileName
  · rw [if_neg (not_or.mpr ⟨not_not.mpr hfile.1, not_not.mpr hfile.2.symm⟩), if_pos hfile]
    exact ⟨rfl, hbehind.mounts, hbehind.name, hbehind.time, hbehind.data, hbehind.files, hbehind.null⟩
  · rw [if_pos (by rwa [← not_and_or, eq_comm (a := v.fileName)]), if_neg hfile]
    exact ⟨rfl, hbehind⟩

theorem llOpen (hbehind : ctx.Behind m header content v h) (ino flags addr : Nat) (hper : h.Permits (.open ino flags addr)) :
    (ctx.llOpen ino flags addr).2 = View.opened ino flags addr ∧
      (ctx.llOpen ino flags addr).1.Behind m header content v (h.after (.open ino flags addr) [View.opened ino flags addr]) := by
  unfold MountCtx.llOpen View.opened
  split
  · exact ⟨rfl, hbehind⟩
  · by_cases hino : ino = kFileIno
    · rw [if_neg (not_not.mpr hino), if_pos hino]
      split
      · exact ⟨rfl, hbehind⟩
      · refine ⟨rfl, hbehind.mounts, hbehind.name, hbehind.time, hbehind.data, fun k => ?_, ?_⟩
        · show (ctx.files.insert addr (.new .default)).get? k = (h.set addr (some []) k).map _
          rw [FinMap.get?_insert, Handles.set]
          split
          · rfl
          · exact hbehind.files k
        · show h.set addr (some []) 0 = none
          rw [Handles.set, if_neg (Ne.symm hper.1)]
          exact hbehind.null
    · rw [if_pos hino, if_neg hino]
      exact ⟨rfl, hbehind⟩

theorem llRelease (hbehind : ctx.Behind m header content v h) (ino fh : Nat) (hper : h.Permits (.release ino fh)) :
    ∃ ctx', ctx.llRelease fh = .ok (ctx', .err none) ∧ ctx'.Behind m header content v (h.set fh none) := by
  have hopen : ¬(fh ≠ 0 ∧ (ctx.files.get? fh).isNone) := by
    rintro ⟨hne, hnone⟩
    rw [hbehind.files, Option.isNone_map] at hnone
    have hsome := hper.resolve_left hne
    rw [← Option.not_isNone, hnone] at hsome
    cases hsome
  refine ⟨_, if_neg hopen, hbehind.mounts, hbehind.name, hbehind.time, hbehind.data, fun k => ?_, ?_⟩
  · dsimp only
    rw [FinMap.get?_erase, Handles.set]
    split
    · rfl
    · exact hbehind.files k
  · rw [Handles.set]
    split
    · rfl
    · exact hbehind.null

/-- Forgetting changes a count that no request reads. -/
theorem llForgetMulti (forgets : List (Nat × Nat)) : ∀ {ctx : MountCtx}, ctx.Behind m header content v h →
    (ctx.llForgetMulti forgets).2 = forgets.map (fun _ => Reply.none) ∧
      (ctx.llForgetMulti forgets).1.Behind m header content v h := by
  induction forgets with
  | nil => exact fun hbehind => ⟨rfl, hbehind⟩
  | cons f rest ih =>
    intro ctx hbehind
    have hone : (ctx.llForget f.1 f.2).2 = .none ∧ (ctx.llForget f.1 f.2).1.Behind m header content v h := by
      unfold MountCtx.llForget
      split
      · exact ⟨rfl, hbehind.mounts, hbehind.name, hbehind.time, hbehind.data, hbehind.files, hbehind.null⟩
      · exact ⟨rfl, hbehind⟩
    obtain ⟨hreplies, hrest⟩ := ih hone.2
    refine ⟨?_, hrest⟩
    rw [MountCtx.llForgetMulti, List.map_cons, ← hreplies, ← hone.1]

theorem step (hshape : Fs.Shape m header content) (hbehind : ctx.Behind m header content v h) (request : Request)
    (hper : h.Permits request) (hans : Answering libs hops m header content request) :
    ∃ ctx' replies, ctx.step libs hops alloc direntSize request = .ok (ctx', replies) ∧
      Answered libs hops m direntSize v request replies ∧ ctx'.Behind m header content v (h.after request replies) := by
  have hattr := hbehind.fillAttr_eq hshape
  cases request with
  | lookup parent name =>
    obtain ⟨hreply, hbehind'⟩ := hbehind.llLookup hattr parent name
    exact ⟨_, _, rfl, Or.inl hreply, hbehind'⟩
  | getattr ino =>
    refine ⟨ctx, _, rfl, Or.inl ?_, hbehind⟩
    rw [MountCtx.llGetattr, View.answer, View.getattr, hattr]
    by_cases hino : ino = kRootIno ∨ ino = kFileIno
    · rw [if_pos hino, if_neg (by tauto)]
    · rw [if_neg hino, if_pos (not_or.mp hino)]
  | «open» ino flags addr =>
    obtain ⟨hreply, hbehind'⟩ := hbehind.llOpen ino flags addr hper
    refine ⟨(ctx.llOpen ino flags addr).1, [(ctx.llOpen ino flags addr).2], rfl, ?_, ?_⟩
    · exact Or.inl (congrArg (fun reply => [reply]) hreply)
    · rw [hreply]
      exact hbehind'
  | read r =>
    obtain ⟨ctx', reply, hread, hanswered, hbehind'⟩ := hbehind.llRead hshape r hper hans.1 hans.2
    exact ⟨ctx', [reply], bind_eq_ok.mpr ⟨(ctx', reply), hread, rfl⟩, hanswered, hbehind'⟩
  | release ino fh =>
    obtain ⟨ctx', hrelease, hbehind'⟩ := hbehind.llRelease ino fh hper
    exact ⟨ctx', [.err none], bind_eq_ok.mpr ⟨(ctx', .err none), hrelease, rfl⟩, Or.inl rfl, hbehind'⟩
  | forget ino nlookup =>
    obtain ⟨hreplies, hbehind'⟩ := llForgetMulti [(ino, nlookup)] hbehind
    exact ⟨_, _, rfl, Or.inl hreplies, hbehind'⟩
  | forgetMulti forgets =>
    obtain ⟨hreplies, hbehind'⟩ := llForgetMulti forgets hbehind
    exact ⟨_, _, rfl, Or.inl hreplies, hbehind'⟩
  | opendir ino =>
    refine ⟨ctx, _, rfl, Or.inl ?_, hbehind⟩
    rw [MountCtx.llOpendir, View.answer, ite_not]
  | readdir ino size off =>
    refine ⟨ctx, _, rfl, Or.inl ?_, hbehind⟩
    rw [MountCtx.llReaddir, View.answer, ite_not, hattr, hbehind.name]
  | releasedir => exact ⟨ctx, _, rfl, Or.inl rfl, hbehind⟩

theorem serve (hshape : Fs.Shape m header content) (requests : List Request) : ∀ {ctx : MountCtx} {h h' : Handles},
    ctx.Behind m header content v h → h.Same h' → Permitted direntSize v h' requests →
      (∀ request ∈ requests, Answering libs hops m header content request) →
        ∃ ctx' replies h', ctx.serve libs hops alloc direntSize requests = .ok (ctx', replies) ∧
          Session libs hops m direntSize v h requests replies h' ∧ ctx'.Behind m header content v h' := by
  induction requests with
  | nil => exact fun {ctx h h'} hbehind _ _ _ => ⟨ctx, [], h, rfl, .nil h, hbehind⟩
  | cons request rest ih =>
    intro ctx h h' hbehind hsame hper hans
    obtain ⟨ctx₁, replies, hstep, hanswered, hbehind₁⟩ :=
      hbehind.step hshape request (hsame.permits hper.1) (hans request List.mem_cons_self)
    obtain ⟨ctx₂, more, h₂, hserve, hsession, hbehind₂⟩ := ih hbehind₁ (hsame.after hanswered) hper.2
      fun request hmem => hans request (List.mem_cons_of_mem _ hmem)
    refine ⟨ctx₂, replies :: more, h₂, ?_, .cons hanswered hsession, hbehind₂⟩
    exact bind_eq_ok.mpr ⟨(ctx₁, replies), hstep, bind_eq_ok.mpr ⟨(ctx₂, more), hserve, rfl⟩⟩

end MountCtx.Behind

end

/-- **A mount is the file system of its commit.** Every permitted run of requests is answered, each request as if it
were the only one or with the error of a failing store, whatever the budget of the cache, the size of the reads ahead
and the allocator; and each open handle has seen its own reads and no others. -/
theorem session_serves {libs : Libs} {hops : Nat} {rctx : ReadCtx} {m : Manifest} {header : Bytes} {content : String → Bytes}
    (hshape : Fs.Shape m header content) (hblocks : rctx.blocks.isSome) (hfew : m.buffer.length < 2 ^ 32)
    (alloc : Cache FrameKey → Ptr) (direntSize : String → Nat) (cacheBytes mountTime maxRead : Nat) (requests : List Request)
    (hper : Permitted direntSize ⟨m.file.name, Fs.stream m header content, mountTime⟩ (fun _ => none) requests)
    (hans : ∀ request ∈ requests, Answering libs hops m header content request) :
    ∃ fs ctx replies h, Fs.create libs rctx m cacheBytes = .ok fs ∧
      (MountCtx.start fs mountTime maxRead).serve libs hops alloc direntSize requests = .ok (ctx, replies) ∧
      Session libs hops m direntSize ⟨m.file.name, Fs.stream m header content, mountTime⟩ (fun _ => none) requests replies h ∧
      ∀ fh, ctx.files.get? fh = (h fh).map (PrefetchState.observed .default) := by
  obtain ⟨fs, hcreate, hmounts⟩ := Fs.create_eq hshape hblocks hfew cacheBytes
  have hname : fs.fileName = m.file.name := by
    obtain ⟨-, -, hcreate⟩ := bind_eq_ok.mp hcreate
    obtain ⟨table, -, hcreate⟩ := bind_eq_ok.mp hcreate
    split at hcreate
    · exact absurd hcreate sfsErr_ne_ok
    · cases hcreate
      rfl
  have hstart : (MountCtx.start fs mountTime maxRead).Behind m header content
      ⟨m.file.name, Fs.stream m header content, mountTime⟩ (fun _ => none) :=
    ⟨hmounts, hname, rfl, rfl, fun _ => rfl, rfl⟩
  obtain ⟨ctx, replies, h, hserve, hsession, hbehind⟩ :=
    hstart.serve hshape requests (fun _ => rfl) hper hans
  exact ⟨fs, ctx, replies, h, hcreate, hserve, hsession, hbehind.files⟩

/-- Found, opened, read twice, listed and closed. -/
def plainRequests : List Request :=
  [.lookup kRootIno "model.safetensors", .open kFileIno 0 4096,
    .read ⟨kFileIno, 16, 0, 4096, Fs.plainCtx, fun _ => Fs.plainCtx⟩,
    .read ⟨kFileIno, 16, 16, 4096, Fs.plainCtx, fun _ => Fs.plainCtx⟩, .readdir kRootIno 4096 0, .release kFileIno 4096]

theorem session_serves_two :
    Permitted String.length ⟨"model.safetensors", Fs.stream (Fs.plainManifest 2) Fs.plainHeader fun _ => [7], 0⟩ (fun _ => none)
      plainRequests ∧
    ∃ fs ctx replies h, Fs.create Fs.plainLibs Fs.plainCtx (Fs.plainManifest 2) 0 = .ok fs ∧
      (MountCtx.start fs 0 16).serve Fs.plainLibs 1 (fun _ => ⟨0, 0⟩) String.length plainRequests = .ok (ctx, replies) ∧
      Session Fs.plainLibs 1 (Fs.plainManifest 2) String.length
        ⟨"model.safetensors", Fs.stream (Fs.plainManifest 2) Fs.plainHeader fun _ => [7], 0⟩ (fun _ => none) plainRequests replies h ∧
      ∀ fh, ctx.files.get? fh = (h fh).map (PrefetchState.observed .default) := by
  have hper : Permitted String.length
      ⟨"model.safetensors", Fs.stream (Fs.plainManifest 2) Fs.plainHeader fun _ => [7], 0⟩ (fun _ => none) plainRequests :=
    ⟨trivial, ⟨by decide, rfl⟩, Or.inr rfl, Or.inr rfl, trivial, Or.inr rfl, trivial⟩
  have hfew : (Fs.plainManifest 2).buffer.length < 2 ^ 32 := by
    rw [Fs.length_plain]
    omega
  refine ⟨hper, session_serves (Fs.shape_plain (by omega) (by omega)) rfl hfew _ _ 0 0 16 _ hper fun request hmem => ?_⟩
  have hanswers := (Fs.holds_plain 2).answers
  rcases hmem with _ | ⟨_, _ | ⟨_, _ | ⟨_, _ | ⟨_, _ | ⟨_, _ | ⟨_, hmem⟩⟩⟩⟩⟩⟩
  exacts [trivial, trivial, ⟨hanswers, fun _ => hanswers⟩, ⟨hanswers, fun _ => hanswers⟩, trivial, trivial,
    absurd hmem List.not_mem_nil]

end SynapseFs.Mount
