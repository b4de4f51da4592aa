import SynapseFs.Lib.Runs
import SynapseFs.Store.Gc

/-! A mount daemon and gc over one repository.

A daemon holds no lock. It leaves a marker with its pid in the repository when it
starts, and takes the marker away when it ends; gc looks at the marker once, under
its own lock, and unlinks objects some time later. Between any two of these steps
anything else may happen: daemons start, end and are killed, objects are written, refs
move, and gc itself is killed.

A daemon's objects are safe from the moment it registers if no gc was past its check
by then, and as long as no other daemon registers or ends (`registered_keeps`): there
is one marker for all of them (`second_daemon_exposes`). -/
namespace SynapseFs.Mount
open Lib Core Format Store

/-! ### The marker -/

/-- `build_marker_contents`. -/
def buildMarkerContents (pid : Nat) (mountpoint : String) : String := toString pid ++ "\n" ++ mountpoint ++ "\n"

def isBlank (c : Char) : Bool := c = ' ' || c = '\t' || c = '\n' || c = '\x0b' || c = '\x0c' || c = '\r'

/-- `f >> pid`: blanks, a sign, digits. No digits, or a number that a `long long` does not hold, is a failure. -/
def extractLongLong (s : List Char) : Option Int :=
  let body := s.dropWhile isBlank
  let negative := body.head? = some '-'
  let digits := (if negative ∨ body.head? = some '+' then body.drop 1 else body).takeWhile Char.isDigit
  if digits = [] then none
  else
    let v : Int := if negative then -(Nat.ofDigitChars 10 digits 0 : Int) else Nat.ofDigitChars 10 digits 0
    if v < -2 ^ 63 ∨ 2 ^ 63 ≤ v then none else some v

/-- `static_cast<pid_t>`. -/
def toPid (v : Int) : Int := (v + 2 ^ 31) % 2 ^ 32 - 2 ^ 31

/-- The answers of `kill(pid, 0)`. -/
inductive KillReply where
  | ok | eperm | esrch
  deriving DecidableEq, Repr

/-- A marker whose process is gone is stale. One that does not read stops gc. -/
def mountAttached (path : String) (kill : Int → KillReply) : Option String → Outcome Bool
  | none => .ok false
  | some text =>
    match extractLongLong text.toList with
    | none => sfsErr .malformedObject "unreadable mount marker; refusing to gc" path
    | some pid =>
      if pid ≤ 0 then sfsErr .malformedObject "unreadable mount marker; refusing to gc" path
      else .ok (kill (toPid pid) ≠ .esrch)

theorem digit_plain {c : Char} (h : c.isDigit = true) : isBlank c = false ∧ c ≠ '-' ∧ c ≠ '+' := by
  refine ⟨Bool.eq_false_iff.mpr fun hblank => ?_, ?_, ?_⟩
  · simp only [isBlank, Bool.or_eq_true, decide_eq_true_eq] at hblank
    rcases hblank with ((((rfl | rfl) | rfl) | rfl) | rfl) | rfl <;> exact absurd h (by decide)
  · rintro rfl
    exact absurd h (by decide)
  · rintro rfl
    exact absurd h (by decide)

/-- A pid is read back from its marker. -/
theorem extractLongLong_marker {pid : Nat} (h : pid < 2 ^ 63) (mountpoint : String) :
    extractLongLong (buildMarkerContents pid mountpoint).toList = some (pid : Int) := by
  have hdigits : ∀ c ∈ Nat.toDigits 10 pid, c.isDigit = true := fun c hc => Nat.isDigit_of_mem_toDigits (by decide) (by decide) hc
  have htext : (buildMarkerContents pid mountpoint).toList = Nat.toDigits 10 pid ++ '\n' :: (mountpoint.toList ++ ['\n']) := by
    simp [buildMarkerContents]
  obtain ⟨d, rest, hcons⟩ := List.exists_cons_of_ne_nil (Nat.toDigits_ne_nil (b := 10) (n := pid))
  obtain ⟨hblank, hminus, hplus⟩ := digit_plain (hdigits d (by rw [hcons]; exact List.mem_cons_self))
  have hbody : (Nat.toDigits 10 pid ++ '\n' :: (mountpoint.toList ++ ['\n'])).dropWhile isBlank =
      Nat.toDigits 10 pid ++ '\n' :: (mountpoint.toList ++ ['\n']) := by
    rw [hcons, List.cons_append, List.dropWhile_cons, hblank, if_neg (by decide)]
  have hhead : (Nat.toDigits 10 pid ++ '\n' :: (mountpoint.toList ++ ['\n'])).head? = some d := by
    rw [hcons]
    rfl
  have htake : (Nat.toDigits 10 pid ++ '\n' :: (mountpoint.toList ++ ['\n'])).takeWhile Char.isDigit = Nat.toDigits 10 pid := by
    rw [List.takeWhile_append_of_pos hdigits, List.takeWhile_cons, if_neg (by decide), List.append_nil]
  have hminus' : ¬some d = some '-' := fun heq => hminus (Option.some.inj heq)
  have hplus' : ¬some d = some '+' := fun heq => hplus (Option.some.inj heq)
  unfold extractLongLong
  dsimp only
  rw [htext, hbody, hhead]
  simp only [hminus', hplus', or_self, if_false]
  rw [htake, if_neg Nat.toDigits_ne_nil, Nat.ofDigitChars_ten_toDigits, if_neg (by omega)]

/-- **The two sides of the marker agree**: gc finds a registered daemon attached as long as its process is there. -/
theorem mountAttached_marker {pid : Nat} (hpos : 0 < pid) (hlt : pid < 2 ^ 31) (path : String) (kill : Int → KillReply)
    (mountpoint : String) : mountAttached path kill (some (buildMarkerContents pid mountpoint)) = .ok (kill pid ≠ .esrch) := by
  have hpid : toPid (pid : Int) = pid := by
    unfold toPid
    omega
  unfold mountAttached
  dsimp only
  rw [extractLongLong_marker (by omega)]
  dsimp only
  rw [if_neg (by omega), hpid]

/-! ### The repository and its processes -/

inductive GcStage where
  | idle
  /-- The lock is held and no mount was attached. -/
  | checked (opts : GcOptions)
  /-- What the tips reach is known; the objects are listed next. -/
  | reached (opts : GcOptions) (live : List Oid)
  /-- What is still to be unlinked. -/
  | pruning (dead : List Oid)

structure Shared where
  refs : RefStore
  objects : ObjectMap
  marker : Option String
  processes : List Nat
  pids : ∀ pid ∈ processes, 0 < pid ∧ pid < 2 ^ 31
  /-- Another user's processes answer `kill` with EPERM. -/
  foreign : Nat → Bool
  /-- The daemons that have registered and run. -/
  attached : List Nat
  stage : GcStage

inductive Happening where
  | spawn (pid : Nat)
  /-- `Daemon::register_with_repo`. -/
  | register (pid : Nat) (mountpoint : String)
  /-- `Daemon::Impl::~Impl`: the marker goes, whoever wrote it. -/
  | exit (pid : Nat)
  /-- The process is killed and cleans nothing up. -/
  | die (pid : Nat)
  | put (oid : Oid) (object : StoredObject)
  | moveRefs (refs : RefStore)
  | gcCheck (opts : GcOptions)
  | gcReach
  | gcList
  /-- The next object is unlinked, or cannot be. -/
  | gcUnlink (removed : Bool)
  /-- gc is over, or it is killed: the lock is free. -/
  | gcEnd

namespace Shared

def kill (s : Shared) (pid : Int) : KillReply :=
  if pid.toNat ∈ s.processes then (if s.foreign pid.toNat then .eperm else .ok) else .esrch

def mountAttached (s : Shared) : Outcome Bool :=
  Mount.mountAttached (absoluteName (s.refs.dot ++ ["mount-daemon.pid"])) s.kill s.marker

/-- What gc is to keep, or its end. -/
def reach (s : Shared) (opts : GcOptions) : GcStage :=
  if opts.prune = false ∨ gcTips s.refs = [] then .idle
  else
    match reachableObjects s.objects.commits s.objects.manifests (gcTips s.refs) with
    | .error _ => .idle
    | .ok live => .reached opts live

def step (s : Shared) : Happening → Option Shared
  | .spawn pid =>
    if h : (0 < pid ∧ pid < 2 ^ 31) ∧ pid ∉ s.processes then
      some { s with processes := pid :: s.processes, pids := List.forall_mem_cons.mpr ⟨h.1, s.pids⟩ }
    else none
  | .register pid mountpoint =>
    if pid ∈ s.processes ∧ pid ∉ s.attached then
      some { s with marker := some (buildMarkerContents pid mountpoint), attached := pid :: s.attached }
    else none
  | .exit pid =>
    if pid ∈ s.processes ∧ pid ∈ s.attached then
      some { s with
        marker := none, attached := s.attached.filter (· ≠ pid), processes := s.processes.filter (· ≠ pid)
        pids := fun p hp => s.pids p (List.mem_of_mem_filter hp) }
    else none
  | .die pid =>
    if pid ∈ s.processes then
      some { s with
        attached := s.attached.filter (· ≠ pid), processes := s.processes.filter (· ≠ pid)
        pids := fun p hp => s.pids p (List.mem_of_mem_filter hp) }
    else none
  | .put oid object => some { s with objects := s.objects.emplace oid object }
  | .moveRefs refs => some { s with refs := refs }
  | .gcCheck opts =>
    match s.stage, s.mountAttached with
    | .idle, .ok false => some { s with stage := .checked opts }
    | _, _ => none
  | .gcReach =>
    match s.stage with
    | .checked opts => some { s with stage := s.reach opts }
    | _ => none
  | .gcList =>
    match s.stage with
    | .reached opts live =>
      some { s with stage := .pruning (if opts.dryRun then [] else s.objects.keys.filter fun o => o ∉ live) }
    | _ => none
  | .gcUnlink removed =>
    match s.stage with
    | .pruning (o :: rest) =>
      some { s with objects := if removed then s.objects.erase o else s.objects, stage := .pruning rest }
    | _ => none
  | .gcEnd => some { s with stage := .idle }

/-! ### gc by itself

Taken one after the other with nothing in between, the steps of gc are `gc`. -/

/-- `n` objects unlinked. -/
def gcEvents (opts : GcOptions) (n : Nat) : List Happening :=
  [.gcCheck opts, .gcReach, .gcList] ++ (List.replicate n (.gcUnlink true) ++ [.gcEnd])

theorem unlinks (dead : List Oid) : ∀ {s : Shared}, s.stage = .pruning dead →
    ∃ s', runActs step (fun _ _ => true) s (List.replicate dead.length (.gcUnlink true) ++ [.gcEnd]) = some s' ∧
      s'.stage = .idle ∧ ∀ oid, s'.objects.get? oid = if oid ∈ dead then none else s.objects.get? oid := by
  induction dead with
  | nil => exact fun {s} _ => ⟨{ s with stage := .idle }, rfl, rfl, fun oid => (if_neg List.not_mem_nil).symm⟩
  | cons o rest ih =>
    intro s hstage
    obtain ⟨s', hrun, hidle, hget⟩ := ih (s := { s with objects := s.objects.erase o, stage := .pruning rest }) rfl
    refine ⟨s', ?_, hidle, fun oid => ?_⟩
    · have hstep : s.step (.gcUnlink true) = some { s with objects := s.objects.erase o, stage := .pruning rest } := by
        dsimp only [step]
        rw [hstage]
        rfl
      rw [List.length_cons, List.replicate_succ, List.cons_append, runActs, if_pos rfl, hstep, Option.bind_some, hrun]
    · rw [hget]
      dsimp only
      rw [FinMap.get?_erase]
      by_cases ho : oid = o
      · simp [ho]
      · simp [ho]

theorem gc_undisturbed {s : Shared} (hidle : s.stage = .idle) {size : StoredObject → Nat} {opts : GcOptions}
    {report : GcReport} {objects' : ObjectMap} (hprune : opts.prune = true) (htips : gcTips s.refs ≠ [])
    (hgc : gc ⟨.ok (), s.mountAttached, []⟩ s.objects.commits s.objects.manifests s.refs size s.objects opts = .ok (report, objects')) :
    ∃ n s', runActs step (fun _ _ => true) s (gcEvents opts n) = some s' ∧ s'.stage = .idle ∧
      ∀ oid, s'.objects.get? oid = objects'.get? oid := by
  have hgo : ¬(opts.prune = false ∨ gcTips s.refs = []) := by simp [hprune, htips]
  unfold gc at hgc
  simp only [bind_eq_ok] at hgc
  obtain ⟨_, -, attached, hattached, hgc⟩ := hgc
  split at hgc
  · exact absurd hgc sfsErr_ne_ok
  · next hfree =>
    obtain ⟨live, hlive, hgc⟩ := bind_eq_ok.mp hgc
    cases hgc
    generalize hdead : (if opts.dryRun then [] else s.objects.keys.filter fun o => o ∉ live) = dead
    obtain ⟨s', hrun, hstage, hget⟩ := unlinks dead (s := { s with stage := .pruning dead }) rfl
    refine ⟨dead.length, s', ?_, hstage, fun oid => ?_⟩
    · have hcheck : s.step (.gcCheck opts) = some { s with stage := .checked opts } := by
        dsimp only [step]
        rw [hidle, hattached, Bool.not_eq_true _ |>.mp hfree]
      have hreach : ({ s with stage := .checked opts } : Shared).step .gcReach = some { s with stage := .reached opts live } := by
        dsimp only [step]
        rw [reach, if_neg hgo]
        dsimp only
        rw [hlive]
      have hlist : ({ s with stage := .reached opts live } : Shared).step .gcList = some { s with stage := .pruning dead } := by
        dsimp only [step]
        rw [hdead]
      rw [gcEvents, List.cons_append, runActs, if_pos rfl, hcheck, Option.bind_some, List.cons_append, runActs, if_pos rfl, hreach,
        Option.bind_some, List.cons_append, runActs, if_pos rfl, hlist, Option.bind_some, List.nil_append, hrun]
    · rw [hget, ← hdead]
      dsimp only
      cases opts.dryRun with
      | true => exact if_neg List.not_mem_nil
      | false =>
        rw [if_neg Bool.false_ne_true, if_neg Bool.false_ne_true, FinMap.get?_filterKeys]
        by_cases hkeep : oid ∈ live
        · have hstays : oid ∉ s.objects.keys.filter fun o => o ∉ live := by simp [hkeep]
          rw [if_pos (decide_eq_true hkeep), if_neg hstays]
        · rw [if_neg (by simpa using hkeep : ¬decide (oid ∈ live) = true)]
          by_cases hkey : oid ∈ s.objects.keys
          · rw [if_pos (List.mem_filter.mpr ⟨hkey, by simpa using hkeep⟩)]
          · rw [if_neg fun hmem => hkey (List.mem_filter.mp hmem).1, FinMap.get?_eq_none.mpr hkey]

/-! ### What a daemon can count on -/

/-- `pid` stays attached, and no other daemon registers or ends. -/
def alone (pid : Nat) (s : Shared) (e : Happening) : Bool :=
  pid ∈ s.attached && match e with
    | .register q _ => q = pid
    | .exit q => q = pid
    | _ => true

/-- No gc is going on, and none can begin while `pid` is attached. -/
structure Guarded (pid : Nat) (s : Shared) : Prop where
  idle : s.stage = .idle
  running : pid ∈ s.attached → pid ∈ s.processes
  marked : pid ∈ s.attached → ∃ mountpoint, s.marker = some (buildMarkerContents pid mountpoint)

variable {pid : Nat} {s s' : Shared} {e : Happening}

/-- The check fails for as long as the daemon runs. -/
theorem Guarded.refuses (h : s.Guarded pid) (hatt : pid ∈ s.attached) (opts : GcOptions) : s.step (.gcCheck opts) = none := by
  obtain ⟨mountpoint, hmarker⟩ := h.marked hatt
  have hmem := h.running hatt
  obtain ⟨hpos, hlt⟩ := s.pids pid hmem
  have hkill : s.kill pid ≠ .esrch := by
    unfold kill
    rw [Int.toNat_natCast, if_pos hmem]
    split <;> simp
  have hattached : s.mountAttached = .ok true := by
    rw [mountAttached, hmarker, mountAttached_marker hpos hlt, decide_eq_true hkill]
  dsimp only [Shared.step]
  rw [h.idle, hattached]

theorem Guarded.step (h : s.Guarded pid) (hok : alone pid s e = true) (hstep : s.step e = some s') :
    s'.Guarded pid ∧ ∀ oid object, s.objects.get? oid = some object → s'.objects.get? oid = some object := by
  obtain ⟨hatt, hothers⟩ := Bool.and_eq_true_iff.mp hok
  have hatt : pid ∈ s.attached := of_decide_eq_true hatt
  cases e with
  | spawn p =>
    dsimp only [Shared.step] at hstep
    split at hstep
    · cases hstep
      exact ⟨⟨h.idle, fun hp => List.mem_cons_of_mem _ (h.running hp), h.marked⟩, fun _ _ hget => hget⟩
    · cases hstep
  | register p mountpoint =>
    have hp : p = pid := of_decide_eq_true hothers
    dsimp only [Shared.step] at hstep
    split at hstep
    · next hfresh => exact absurd (hp ▸ hatt) hfresh.2
    · cases hstep
  | exit p =>
    have hp : p = pid := of_decide_eq_true hothers
    subst hp
    have hgone : p ∉ s.attached.filter (· ≠ p) := by simp
    dsimp only [Shared.step] at hstep
    split at hstep
    · cases hstep
      exact ⟨⟨h.idle, fun hp => absurd hp hgone, fun hp => absurd hp hgone⟩, fun _ _ hget => hget⟩
    · cases hstep
  | die p =>
    dsimp only [Shared.step] at hstep
    split at hstep
    · cases hstep
      refine ⟨⟨h.idle, fun hp => ?_, fun hp => h.marked (List.mem_of_mem_filter hp)⟩, fun _ _ hget => hget⟩
      obtain ⟨hp, hne⟩ := List.mem_filter.mp hp
      exact List.mem_filter.mpr ⟨h.running hp, hne⟩
    · cases hstep
  | put oid object =>
    cases hstep
    refine ⟨⟨h.idle, h.running, h.marked⟩, fun o v hget => ?_⟩
    dsimp only
    unfold FinMap.emplace
    split
    · exact hget
    · next hnew =>
      rw [FinMap.get?_insert, if_neg]
      · exact hget
      · rintro rfl
        exact hnew (FinMap.mem_keys.mpr ⟨v, hget⟩)
  | moveRefs refs =>
    cases hstep
    exact ⟨⟨h.idle, h.running, h.marked⟩, fun _ _ hget => hget⟩
  | gcCheck opts =>
    rw [h.refuses hatt] at hstep
    cases hstep
  | gcReach =>
    dsimp only [Shared.step] at hstep
    rw [h.idle] at hstep
    cases hstep
  | gcList =>
    dsimp only [Shared.step] at hstep
    rw [h.idle] at hstep
    cases hstep
  | gcUnlink removed =>
    dsimp only [Shared.step] at hstep
    rw [h.idle] at hstep
    cases hstep
  | gcEnd =>
    cases hstep
    exact ⟨⟨rfl, h.running, h.marked⟩, fun _ _ hget => hget⟩

theorem guarded_register {mountpoint : String} (hidle : s.stage = .idle) (hstep : s.step (.register pid mountpoint) = some s') :
    s'.Guarded pid ∧ pid ∈ s'.attached := by
  dsimp only [Shared.step] at hstep
  split at hstep
  · next hreg =>
    cases hstep
    exact ⟨⟨hidle, fun _ => hreg.1, fun _ => ⟨mountpoint, rfl⟩⟩, List.mem_cons_self⟩
  · cases hstep

/-- **What a daemon found when it registered stays**, in every interleaving in which gc was not past its check by then
and no other daemon registers or ends; and gc refuses for as long as it is attached. -/
theorem registered_keeps {mountpoint : String} {s₀ s₁ s : Shared} (hidle : s₀.stage = .idle)
    (hreg : s₀.step (.register pid mountpoint) = some s₁) (hrun : Reach Shared.step (alone pid) s₁ s) :
    (∀ oid object, s₁.objects.get? oid = some object → s.objects.get? oid = some object) ∧
      (pid ∈ s.attached → ∀ opts, s.step (.gcCheck opts) = none) := by
  have hinv : s.Guarded pid ∧ ∀ oid object, s₁.objects.get? oid = some object → s.objects.get? oid = some object := by
    refine Reach.invariant (I := fun t => t.Guarded pid ∧ ∀ oid object, s₁.objects.get? oid = some object →
      t.objects.get? oid = some object) ⟨(guarded_register hidle hreg).1, fun _ _ hget => hget⟩ ?_ hrun
    rintro t e t' ⟨hguard, hkept⟩ hok hstep
    obtain ⟨hguard', hkept'⟩ := hguard.step hok hstep
    exact ⟨hguard', fun oid object hget => hkept' oid object (hkept oid object hget)⟩
  exact ⟨hinv.2, hinv.1.refuses⟩

/-! ### What it cannot

Two daemons over two root commits; the branch has left the one that they show. -/

def twoDaemons : Shared where
  refs := nestedBranch
  objects := twoRoots
  marker := none
  processes := [1, 2]
  pids := by decide
  foreign := fun _ => false
  attached := []
  stage := .idle

/-- One daemon over them, alone from its registration on. -/
theorem registered_keeps_one : twoDaemons.stage = .idle ∧ ∃ s₁ s : Shared,
    twoDaemons.step (.register 1 "/mnt") = some s₁ ∧ Reach Shared.step (alone 1) s₁ s ∧ s.processes = [1] ∧
      (∀ oid object, s₁.objects.get? oid = some object → s.objects.get? oid = some object) ∧
      (1 ∈ s.attached → ∀ opts, s.step (.gcCheck opts) = none) := by
  have hreach : Reach Shared.step (alone 1) { twoDaemons with marker := some (buildMarkerContents 1 "/mnt"), attached := [1] }
      { twoDaemons with
        marker := some (buildMarkerContents 1 "/mnt"), attached := [1], processes := [1], pids := by decide } :=
    .step (a := .die 2) .init rfl rfl
  have hreg : twoDaemons.step (.register 1 "/mnt") =
      some { twoDaemons with marker := some (buildMarkerContents 1 "/mnt"), attached := [1] } := rfl
  exact ⟨rfl, _, _, hreg, hreach, rfl, registered_keeps rfl hreg hreach⟩

/-- The first daemon runs and there is no marker. -/
def exposed : Shared := { twoDaemons with processes := [1], attached := [1], pids := by decide }

/-- The second daemon takes the marker of both with it, and gc prunes what the first one shows. -/
theorem second_daemon_exposes : ∃ s, runActs step (fun _ _ => true) twoDaemons
      [.register 1 "/mnt", .register 2 "/mnt2", .exit 2] = some s ∧
    1 ∈ s.attached ∧ (s.objects.get? (oidOf 1)).isSome ∧
      ∃ n s', runActs step (fun _ _ => true) s (gcEvents ⟨true, false⟩ n) = some s' ∧ s'.objects.get? (oidOf 1) = none := by
  have htips : gcTips nestedBranch = [oidOf 0] := by decide
  obtain ⟨report, hgc⟩ := gc_prunes (fun _ => 0) twoRoots (by rw [htips]; exact nofun) (by rw [htips]; exact twoRoots_live)
  have htips' : gcTips exposed.refs ≠ [] := by
    show gcTips nestedBranch ≠ []
    rw [htips]
    exact nofun
  obtain ⟨n, s', hrun, -, hget⟩ := gc_undisturbed (s := exposed) rfl rfl htips' hgc
  refine ⟨exposed, rfl, List.mem_singleton_self 1, rfl, n, s', hrun, ?_⟩
  rw [hget, FinMap.get?_filterKeys, if_neg (by decide)]

end Shared

end SynapseFs.Mount
