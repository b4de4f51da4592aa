import Mathlib.Data.List.Chain
import SynapseFs.Lib.Runs
import SynapseFs.Store.Journal

/-! Processes that move one branch.

`RefStore::update` is a compare-and-swap made of file operations: an existence
test, a read that is compared, and an atomic replacement. Here each is a step of
its own, and `commit`, `merge` and `verify --repair` take them with the locking
each of them does: the first two hold the exclusive repository lock from before
they resolve the branch until they exit, the third takes no lock. A process may
end at any point; its lock ends with it. -/
namespace SynapseFs.Store
open Lib Core

/-! ### The steps of an update -/

inductive UpdateStep where
  | existenceTest | compare | replace
  deriving DecidableEq, Repr

/-- What reading the file of a ref gives, trimmed. A directory reads as no text. -/
def nodeText : Node → String
  | .file text => trimmed text
  | .dir => ""

/-- After the existence test: the next step, or `RefRaceLost`. -/
def afterTest (node : Option Node) (expected : Option Oid) : Option UpdateStep :=
  match expected, node with
  | some _, some _ => some .compare
  | none, none => some .replace
  | _, _ => none

/-- What an update ends with when it does not replace the file. -/
inductive Refused where
  | raceLost | other
  deriving DecidableEq, Repr

/-- The read and the comparison. -/
def afterRead (node : Option Node) (expected : Oid) : Except Refused Unit :=
  match node with
  | none => .error .other
  | some n => if nodeText n ≠ expected.toString then .error .raceLost else .ok ()

/-- The file holds the value an update expects. -/
def Holds (node : Option Node) : Option Oid → Prop
  | none => node = none
  | some e => ∃ n, node = some n ∧ nodeText n = e.toString

/-- What stands under the name of a branch. -/
def RefStore.node (r : RefStore) (refName : String) : Option Node :=
  (r.tree.find (r.branchRefPath refName)).map Prod.snd

theorem holds_of_test {node : Option Node} {expected : Option Oid} (h : afterTest node expected = some .replace) :
    Holds node expected := by
  cases expected with
  | none =>
    cases node with
    | none => rfl
    | some n => cases h
  | some e => cases node <;> cases h

theorem afterRead_eq_ok {node : Option Node} {e : Oid} : afterRead node e = .ok () ↔ Holds node (some e) := by
  cases node with
  | none =>
    constructor
    · intro h
      cases h
    · rintro ⟨n, h, _⟩
      cases h
  | some n =>
    unfold afterRead
    by_cases hne : nodeText n ≠ e.toString
    · simp only [if_pos hne]
      exact ⟨nofun, fun ⟨n', hn, heq⟩ => absurd heq (by cases hn; exact hne)⟩
    · simp only [if_neg hne]
      exact ⟨fun _ => ⟨n, rfl, not_not.mp hne⟩, fun _ => trivial⟩

/-- Taken one after the other with nothing in between, the steps are `RefStore::update`: it writes when the file
holds what is expected, and otherwise fails and leaves everything as it was. -/
theorem RefStore.update_holds (r : RefStore) (refName : String) (expected : Option Oid) (desired : Oid) :
    (Holds (r.node refName) expected →
      r.update refName expected desired = r.writeLine (r.branchRefPath refName) desired.toString) ∧
    (¬ Holds (r.node refName) expected →
      ∃ failure, r.update refName expected desired = (r, .error failure)) := by
  unfold RefStore.node RefStore.update
  cases hfind : r.tree.find (r.branchRefPath refName) with
  | none =>
    simp only [hfind]
    cases expected with
    | none => exact ⟨fun _ => rfl, fun h => absurd rfl h⟩
    | some e => exact ⟨fun ⟨_, h, _⟩ => (by cases h), fun _ => ⟨_, rfl⟩⟩
  | some found =>
    obtain ⟨p, n⟩ := found
    simp only [hfind]
    cases expected with
    | none => exact ⟨fun h => (by cases h), fun _ => ⟨_, rfl⟩⟩
    | some e =>
      have hread : r.readTrimmed (r.branchRefPath refName) = .ok (nodeText n) := by
        rw [readTrimmed, hfind]
        cases n <;> rfl
      simp only [hread]
      constructor
      · rintro ⟨n', hn, heq⟩
        cases hn
        exact if_neg (not_not.mpr heq)
      · intro hnot
        exact ⟨_, if_pos fun heq => hnot ⟨n, rfl, heq⟩⟩

/-! ### Processes -/

inductive ProcKind where
  | commit | merge | repair
  deriving DecidableEq, Repr

/-- What a process does once its update is over. -/
inductive Then where
  | exit
  /-- A merge removes its journal record. -/
  | close (seq : Nat)
  /-- Recovery removes the record and goes on with the others. -/
  | clear (seq : Nat) (rest : List JournalRecord)

inductive ProcPc where
  | start
  /-- The lock is held; resolving the branch is next. -/
  | locked
  /-- The branch is resolved; the new commit is built next. -/
  | planned (expected : Option Oid)
  | updating (u : UpdateStep) (expected : Option Oid) (desired : Oid) (after : Then)
  | closing (seq : Nat)
  /-- `Journal::pending`: the record files still to be read, and the records read. -/
  | scanning (todo : List Nat) (recs : List JournalRecord)
  | replaying (recs : List JournalRecord)
  | clearing (seq : Nat) (rest : List JournalRecord)
  | done

structure Proc where
  kind : ProcKind
  pc : ProcPc

/-- An update that reported success, with what stood in the file when it was replaced. -/
structure RefUpdate where
  replaced : Option Node
  expected : Option Oid
  desired : Oid
  deriving DecidableEq

/-- The file of the branch, the holder of the lock, the journal, the processes, and the updates that succeeded. -/
structure RefSys where
  node : Option Node
  lock : Option Nat
  journal : Journal
  procs : List Proc
  updates : List RefUpdate

/-- What a process does next, with what the environment answers. -/
inductive ProcMove where
  | next
  /-- The new commit is `desired`; the branch is moved to it. -/
  | build (desired : Oid)
  /-- The same, with a journal record written first. -/
  | buildJournaled (desired : Oid) (rec : JournalRecord)
  /-- The atomic write, and whether it succeeds. -/
  | write (ok : Bool)
  /-- The replay of a record of another branch, and whether it goes through. -/
  | replayOther (ok : Bool)
  /-- The process ends: it fails, or is killed. -/
  | quit

inductive ProcAct where
  | spawn (kind : ProcKind)
  | run (i : Nat) (m : ProcMove)

namespace RefSys

/-- The state before any process runs. -/
def new (node : Option Node) (journal : Journal) : RefSys := ⟨node, none, journal, [], []⟩

def put (s : RefSys) (i : Nat) (p : Proc) (pc : ProcPc) : RefSys :=
  { s with procs := s.procs.set i { p with pc := pc } }

/-- The process ends, and its lock with it. -/
def finish (s : RefSys) (i : Nat) (p : Proc) : RefSys :=
  { s.put i p .done with lock := if s.lock = some i then none else s.lock }

/-- `RefStore::resolve` of a branch name; the kind of the failure is `none` when there is no such ref. -/
def resolveNode (node : Option Node) : Except (Option Failure) Oid :=
  match node with
  | none => .error none
  | some n =>
    match Oid.parse (nodeText n) with
    | .ok o => .ok o
    | .error f => .error (some f)

/-- The update of process `i` is over. A merge that lost leaves its record in the journal. -/
def updated (s : RefSys) (i : Nat) (p : Proc) (after : Then) (outcome : Except Refused Unit) : RefSys :=
  match after, outcome with
  | .exit, _ => s.finish i p
  | .close seq, .ok () => s.put i p (.closing seq)
  | .close _, .error _ => s.finish i p
  | .clear seq rest, .ok () => s.put i p (.clearing seq rest)
  | .clear seq rest, .error .raceLost => s.put i p (.clearing seq rest)
  | .clear _ _, .error .other => s.finish i p

/-- A step of process `i`, which is `p`. `isBranch` tells the names of the branch. -/
def move (isBranch : String → Bool) (s : RefSys) (i : Nat) (p : Proc) (m : ProcMove) : Option RefSys :=
  match p.pc, m with
  | .done, _ => none
  | _, .quit => some (s.finish i p)
  | .start, .next =>
    match p.kind, s.lock with
    | .repair, _ => some (s.put i p (.scanning s.journal.records.keys []))
    | _, none => some { s.put i p .locked with lock := some i }
    | _, some _ => some (s.put i p .done)
  | .locked, .next =>
    match p.kind, resolveNode s.node with
    | _, .ok tip => some (s.put i p (.planned (some tip)))
    | .commit, .error none => some (s.put i p (.planned none))
    | _, .error _ => some (s.finish i p)
  | .planned expected, .build desired => some (s.put i p (.updating .existenceTest expected desired .exit))
  | .planned expected, .buildJournaled desired rec =>
    if p.kind = .merge ∧ rec.op = .merge ∧ rec.refOld = expected ∧ rec.refNew = some desired then
      some { s.put i p (.updating .existenceTest expected desired (.close rec.seq)) with
        journal := s.journal.begin rec }
    else none
  | .updating .existenceTest expected desired after, .next =>
    match afterTest s.node expected with
    | some u => some (s.put i p (.updating u expected desired after))
    | none => some (s.updated i p after (.error .raceLost))
  | .updating .compare (some e) desired after, .next =>
    match afterRead s.node e with
    | .ok () => some (s.put i p (.updating .replace (some e) desired after))
    | .error r => some (s.updated i p after (.error r))
  | .updating .replace expected desired after, .write true =>
    some { s.updated i p after (.ok ()) with
      node := some (.file (desired.toString ++ "\n"))
      updates := s.updates ++ [⟨s.node, expected, desired⟩] }
  | .updating .replace _ _ after, .write false => some (s.updated i p after (.error .other))
  | .closing seq, .next => some { s.finish i p with journal := s.journal.commit seq }
  | .scanning (seq :: todo) recs, .next =>
    match s.journal.records.get? seq with
    | some rec => some (s.put i p (.scanning todo (recs ++ [rec])))
    | none => some (s.put i p (.scanning todo recs))
  | .scanning [] recs, .next => some (s.put i p (.replaying recs))
  | .replaying [], .next => some (s.finish i p)
  | .replaying (rec :: rest), .next =>
    match rec.op with
    | .pack => some (s.finish i p)
    | .merge =>
      if isBranch rec.refName = false then none
      else
        match rec.refNew with
        | none => some (s.put i p (.clearing rec.seq rest))
        | some new =>
          if resolveNode s.node = .ok new then some (s.put i p (.clearing rec.seq rest))
          else some (s.put i p (.updating .existenceTest rec.refOld new (.clear rec.seq rest)))
  | .replaying (rec :: rest), .replayOther ok =>
    if isBranch rec.refName = true ∨ rec.op = .pack then none
    else if ok then some (s.put i p (.clearing rec.seq rest)) else some (s.finish i p)
  | .clearing seq rest, .next => some { s.put i p (.replaying rest) with journal := s.journal.commit seq }
  | _, _ => none

def step (isBranch : String → Bool) (s : RefSys) : ProcAct → Option RefSys
  | .spawn kind => some { s with procs := s.procs ++ [⟨kind, .start⟩] }
  | .run i m => (s.procs[i]?).bind fun p => s.move isBranch i p m

/-! ### What a step can do -/

end RefSys

/-- A process that has passed its comparison and has not yet replaced the file, with the value it expects there. -/
def ProcPc.armed : ProcPc → Option (Option Oid)
  | .updating .replace expected _ _ => some expected
  | _ => none

namespace RefSys

/-- The next step of `p` passes its comparison. -/
def arms (s : RefSys) (p : Proc) : Bool :=
  match p.pc with
  | .updating .existenceTest expected _ _ => afterTest s.node expected = some .replace
  | .updating .compare (some e) _ _ =>
    match afterRead s.node e with
    | .ok _ => true
    | .error _ => false
  | _ => false

/-- No process passes its comparison while another one stands between its own comparison and the replacement, if
one of the two is a repair. -/
def apart (s : RefSys) : ProcAct → Bool
  | .spawn _ => true
  | .run i _ => (s.procs[i]?).all fun p => !s.arms p || (List.range s.procs.length).all fun j =>
      j = i || (s.procs[j]?).all fun q => q.pc.armed.isNone || (p.kind ≠ .repair && q.kind ≠ .repair)

/-- What a step does to the branch and to the log of updates. -/
inductive Effect (s s' : RefSys) (p : Proc) (pc : ProcPc) : Prop where
  | idle (hnode : s'.node = s.node) (hlog : s'.updates = s.updates) (hpc : pc.armed = none)
  | arm (expected : Option Oid) (hnode : s'.node = s.node) (hlog : s'.updates = s.updates)
    (hpc : pc.armed = some expected) (hholds : Holds s.node expected) (harms : s.arms p = true)
  | replace (expected : Option Oid) (desired : Oid) (hwas : p.pc.armed = some expected)
    (hnode : s'.node = some (.file (desired.toString ++ "\n")))
    (hlog : s'.updates = s.updates ++ [⟨s.node, expected, desired⟩]) (hpc : pc.armed = none)

/-- Everything a step of process `i` can do. -/
structure Moved (s s' : RefSys) (i : Nat) (p : Proc) (pc : ProcPc) : Prop where
  procs : s'.procs = s.procs.set i { p with pc := pc }
  others : ∀ j, j ≠ i → s.lock = some j → s'.lock = some j
  own : p.kind ≠ .repair → pc ≠ .done → (p.pc ≠ .start → s.lock = some i) → s'.lock = some i
  effect : Effect s s' p pc

/-- A step that keeps the lock as it is. -/
theorem Moved.keeps {s s' : RefSys} {i : Nat} {p : Proc} {pc : ProcPc}
    (hprocs : s'.procs = s.procs.set i { p with pc := pc }) (hlock : s'.lock = s.lock)
    (hpc : p.kind = .repair ∨ pc = .done ∨ p.pc ≠ .start) (heffect : Effect s s' p pc) : Moved s s' i p pc := by
  refine ⟨hprocs, fun j _ hj => hlock.trans hj, fun hkind hdone hheld => hlock.trans ?_, heffect⟩
  rcases hpc with h | h | h
  · exact absurd h hkind
  · exact absurd h hdone
  · exact hheld h

/-- The process ends. -/
theorem Moved.ends {s s' : RefSys} {i : Nat} {p : Proc} (hprocs : s'.procs = (s.finish i p).procs)
    (hlock : s'.lock = (s.finish i p).lock) (heffect : Effect s s' p .done) : Moved s s' i p .done := by
  refine ⟨hprocs, fun j hj hlocked => hlock.trans ?_, fun _ hdone => absurd rfl hdone, heffect⟩
  show (if s.lock = some i then none else s.lock) = some j
  rw [if_neg, hlocked]
  rw [hlocked]
  exact fun h => hj (Option.some.inj h)

/-- How a process goes on once its update is over. -/
theorem updated_goes_on (s : RefSys) (i : Nat) (p : Proc) (after : Then) (outcome : Except Refused Unit) :
    s.updated i p after outcome = s.finish i p ∨
      ∃ pc, pc.armed = none ∧ s.updated i p after outcome = s.put i p pc := by
  cases after with
  | exit => exact Or.inl rfl
  | close seq =>
    cases outcome with
    | ok _ => exact Or.inr ⟨_, rfl, rfl⟩
    | error r => exact Or.inl rfl
  | clear seq rest =>
    cases outcome with
    | ok _ => exact Or.inr ⟨_, rfl, rfl⟩
    | error r =>
      cases r with
      | raceLost => exact Or.inr ⟨_, rfl, rfl⟩
      | other => exact Or.inl rfl

/-- The end of an update that leaves the file. -/
theorem moved_updated {s : RefSys} {i : Nat} {p : Proc} {after : Then} {outcome : Except Refused Unit}
    (hpc : p.pc ≠ .start) : ∃ pc, Moved s (s.updated i p after outcome) i p pc := by
  rcases s.updated_goes_on i p after outcome with h | ⟨pc, hnot, h⟩
  · rw [h]
    exact ⟨.done, .ends rfl rfl (.idle rfl rfl rfl)⟩
  · rw [h]
    exact ⟨pc, .keeps rfl rfl (Or.inr (Or.inr hpc)) (.idle rfl rfl hnot)⟩

/-- The end of an update that replaces the file. -/
theorem moved_replaced {s : RefSys} {i : Nat} {p : Proc} {expected : Option Oid} {desired : Oid} {after : Then}
    (hpc : p.pc = .updating .replace expected desired after) :
    ∃ pc, Moved s { s.updated i p after (.ok ()) with
      node := some (.file (desired.toString ++ "\n"))
      updates := s.updates ++ [⟨s.node, expected, desired⟩] } i p pc := by
  have hwas : p.pc.armed = some expected := by rw [hpc]; rfl
  have hnot : p.pc ≠ .start := by rw [hpc]; nofun
  rcases s.updated_goes_on i p after (.ok ()) with h | ⟨pc, hpc', h⟩
  · rw [h]
    exact ⟨.done, .ends rfl rfl (.replace expected desired hwas rfl rfl rfl)⟩
  · rw [h]
    exact ⟨pc, .keeps rfl rfl (Or.inr (Or.inr hnot)) (.replace expected desired hwas rfl rfl hpc')⟩

theorem move_moved {isBranch : String → Bool} {s s' : RefSys} {i : Nat} {p : Proc} {m : ProcMove}
    (h : s.move isBranch i p m = some s') : ∃ pc, Moved s s' i p pc := by
  unfold move at h
  split at h
  · cases h
  · cases h
    exact ⟨.done, .ends rfl rfl (.idle rfl rfl rfl)⟩
  · next hpc =>
    split at h
    · next hkind =>
      cases h
      exact ⟨_, .keeps rfl rfl (Or.inl hkind) (.idle rfl rfl rfl)⟩
    · next hlock _ =>
      cases h
      refine ⟨_, rfl, fun j _ hj => ?_, fun _ _ _ => rfl, .idle rfl rfl rfl⟩
      rw [hlock] at hj
      cases hj
    · cases h
      exact ⟨_, .keeps rfl rfl (Or.inr (Or.inl rfl)) (.idle rfl rfl rfl)⟩
  · next hpc =>
    have hnot : p.pc ≠ .start := by rw [hpc]; nofun
    split at h
    · cases h
      exact ⟨_, .keeps rfl rfl (Or.inr (Or.inr hnot)) (.idle rfl rfl rfl)⟩
    · cases h
      exact ⟨_, .keeps rfl rfl (Or.inr (Or.inr hnot)) (.idle rfl rfl rfl)⟩
    · cases h
      exact ⟨.done, .ends rfl rfl (.idle rfl rfl rfl)⟩
  · next hpc =>
    cases h
    exact ⟨_, .keeps rfl rfl (Or.inr (Or.inr (by rw [hpc]; nofun))) (.idle rfl rfl rfl)⟩
  · next hpc =>
    split at h
    · cases h
      exact ⟨_, .keeps rfl rfl (Or.inr (Or.inr (by rw [hpc]; nofun))) (.idle rfl rfl rfl)⟩
    · cases h
  · next expected desired after hpc =>
    have hnot : p.pc ≠ .start := by rw [hpc]; nofun
    split at h
    · next u htest =>
      cases h
      refine ⟨_, .keeps rfl rfl (Or.inr (Or.inr hnot)) ?_⟩
      cases u with
      | replace =>
        refine .arm expected rfl rfl rfl (holds_of_test htest) ?_
        rw [arms, hpc]
        exact decide_eq_true htest
      | existenceTest => exact .idle rfl rfl rfl
      | compare => exact .idle rfl rfl rfl
    · cases h
      exact moved_updated hnot
  · next e desired after hpc =>
    have hnot : p.pc ≠ .start := by rw [hpc]; nofun
    split at h
    · next hread =>
      cases h
      refine ⟨_, .keeps rfl rfl (Or.inr (Or.inr hnot)) (.arm (some e) rfl rfl rfl (afterRead_eq_ok.mp hread) ?_)⟩
      simp only [arms, hpc, hread]
    · cases h
      exact moved_updated hnot
  · next hpc =>
    cases h
    exact moved_replaced hpc
  · next hpc =>
    cases h
    exact moved_updated (by rw [hpc]; nofun)
  · cases h
    exact ⟨.done, .ends rfl rfl (.idle rfl rfl rfl)⟩
  · next hpc =>
    have hnot : p.pc ≠ .start := by rw [hpc]; nofun
    split at h
    · cases h
      exact ⟨_, .keeps rfl rfl (Or.inr (Or.inr hnot)) (.idle rfl rfl rfl)⟩
    · cases h
      exact ⟨_, .keeps rfl rfl (Or.inr (Or.inr hnot)) (.idle rfl rfl rfl)⟩
  · next hpc =>
    cases h
    exact ⟨_, .keeps rfl rfl (Or.inr (Or.inr (by rw [hpc]; nofun))) (.idle rfl rfl rfl)⟩
  · cases h
    exact ⟨.done, .ends rfl rfl (.idle rfl rfl rfl)⟩
  · next rec rest hpc =>
    have hnot : p.pc ≠ .start := by rw [hpc]; nofun
    split at h
    · cases h
      exact ⟨.done, .ends rfl rfl (.idle rfl rfl rfl)⟩
    · split at h
      · cases h
      · split at h
        · cases h
          exact ⟨_, .keeps rfl rfl (Or.inr (Or.inr hnot)) (.idle rfl rfl rfl)⟩
        · split at h
          · cases h
            exact ⟨_, .keeps rfl rfl (Or.inr (Or.inr hnot)) (.idle rfl rfl rfl)⟩
          · cases h
            exact ⟨_, .keeps rfl rfl (Or.inr (Or.inr hnot)) (.idle rfl rfl rfl)⟩
  · next hpc =>
    split at h
    · cases h
    · split at h
      · cases h
        exact ⟨_, .keeps rfl rfl (Or.inr (Or.inr (by rw [hpc]; nofun))) (.idle rfl rfl rfl)⟩
      · cases h
        exact ⟨.done, .ends rfl rfl (.idle rfl rfl rfl)⟩
  · next hpc =>
    cases h
    exact ⟨_, .keeps rfl rfl (Or.inr (Or.inr (by rw [hpc]; nofun))) (.idle rfl rfl rfl)⟩
  · cases h

/-! ### Whole runs -/

/-- Every update that succeeded replaced the value it expected, so that the updates form one chain from what the
branch held at first to what it holds now. -/
structure Linked (first : Option Node) (s : RefSys) : Prop where
  replaced : ∀ u ∈ s.updates, Holds u.replaced u.expected
  head : ∀ u, s.updates.head? = some u → u.replaced = first
  chain : s.updates.IsChain fun u v => v.replaced = some (.file (u.desired.toString ++ "\n")) ∧ v.expected = some u.desired
  last : s.node = (s.updates.getLast?.map fun u => Node.file (u.desired.toString ++ "\n")).or first

structure Inv (first : Option Node) (s : RefSys) : Prop where
  linked : s.Linked first
  lock : ∀ (i : Nat) p, s.procs[i]? = some p → p.kind ≠ .repair → p.pc ≠ .start → p.pc ≠ .done → s.lock = some i
  sole : ∀ (i j : Nat) p q, s.procs[i]? = some p → s.procs[j]? = some q → p.pc.armed.isSome → q.pc.armed.isSome →
    i = j
  found : ∀ (i : Nat) p expected, s.procs[i]? = some p → p.pc.armed = some expected → Holds s.node expected

theorem inv_new (node : Option Node) (journal : Journal) : Inv node (RefSys.new node journal) := by
  have hnone : ∀ (i : Nat) p, (RefSys.new node journal).procs[i]? = some p → False :=
    fun _ _ hp => by simp [RefSys.new] at hp
  refine ⟨⟨nofun, nofun, .nil, rfl⟩, fun i p hp => (hnone i p hp).elim, fun i _ p _ hp => (hnone i p hp).elim,
    fun i p _ hp => (hnone i p hp).elim⟩

/-- An update that replaces the value it expects makes the chain longer. -/
theorem Linked.replace {first : Option Node} {s s' : RefSys} {expected : Option Oid} {desired : Oid}
    (h : s.Linked first) (hholds : Holds s.node expected)
    (hnode : s'.node = some (.file (desired.toString ++ "\n")))
    (hlog : s'.updates = s.updates ++ [⟨s.node, expected, desired⟩]) : s'.Linked first := by
  refine ⟨?_, ?_, ?_, ?_⟩
  · intro u hu
    rw [hlog] at hu
    rcases List.mem_append.mp hu with hu | hu
    · exact h.replaced u hu
    · cases List.mem_singleton.mp hu
      exact hholds
  · intro u hu
    rw [hlog] at hu
    cases hold : s.updates with
    | nil =>
      rw [hold] at hu
      cases hu
      have hlast := h.last
      rw [hold] at hlast
      exact hlast
    | cons v rest =>
      rw [hold] at hu
      exact h.head u (by rw [hold]; exact hu)
  · rw [hlog, List.isChain_append]
    refine ⟨h.chain, List.isChain_singleton _, fun u hu v hv => ?_⟩
    cases hv
    have hlast : s.node = some (.file (u.desired.toString ++ "\n")) := by
      rw [h.last, Option.mem_def.mp hu]
      rfl
    refine ⟨hlast, ?_⟩
    rw [hlast] at hholds
    cases expected with
    | none => cases hholds
    | some e =>
      obtain ⟨n, hn, htext⟩ := hholds
      cases hn
      rw [nodeText, trimmed_line] at htext
      rw [Oid.toString_inj htext]
  · rw [hnode, hlog, List.getLast?_append]
    rfl

theorem Linked.idle {first : Option Node} {s s' : RefSys} (h : s.Linked first) (hnode : s'.node = s.node)
    (hlog : s'.updates = s.updates) : s'.Linked first := by
  refine ⟨?_, ?_, ?_, ?_⟩
  · rw [hlog]
    exact h.replaced
  · rw [hlog]
    exact h.head
  · rw [hlog]
    exact h.chain
  · rw [hnode, hlog]
    exact h.last

/-- Under the condition, a process that passes its comparison is the only one between comparison and replacement:
two processes with the lock are one, and the condition keeps a repair apart. -/
theorem Inv.alone {first : Option Node} {s : RefSys} (h : s.Inv first) {i j : Nat} {p q : Proc} {m : ProcMove}
    (hp : s.procs[i]? = some p) (hq : s.procs[j]? = some q) (hok : s.apart (.run i m) = true)
    (harms : s.arms p = true) (harmed : q.pc.armed.isSome) : j = i := by
  by_contra hne
  have hlt : j < s.procs.length := (List.getElem?_eq_some_iff.mp hq).1
  simp only [apart, hp, Option.all_some, harms, Bool.not_true, Bool.false_or, List.all_eq_true, List.mem_range,
    Bool.or_eq_true, decide_eq_true_eq] at hok
  rcases hok j hlt with hji | hall
  · exact hne hji
  · rw [hq, Option.all_some, Bool.or_eq_true, Option.isNone_iff_eq_none] at hall
    rcases hall with hnone | hkinds
    · rw [hnone] at harmed
      cases harmed
    · simp only [Bool.and_eq_true, decide_eq_true_eq] at hkinds
      have hpc : p.pc ≠ .start ∧ p.pc ≠ .done := by
        constructor <;> intro he <;> rw [arms, he] at harms <;> cases harms
      have hqc : q.pc ≠ .start ∧ q.pc ≠ .done := by
        constructor <;> intro he <;> rw [he] at harmed <;> cases harmed
      have hi := h.lock i p hp hkinds.1 hpc.1 hpc.2
      have hj := h.lock j q hq hkinds.2 hqc.1 hqc.2
      exact hne (Option.some.inj (hj.symm.trans hi))

/-- Every step that meets the condition keeps the invariant. -/
theorem Inv.moved {first : Option Node} {s s' : RefSys} (h : s.Inv first) {i : Nat} {p : Proc} {pc : ProcPc}
    {m : ProcMove} (hp : s.procs[i]? = some p) (hlive : p.pc ≠ .done) (hok : s.apart (.run i m) = true)
    (hmoved : Moved s s' i p pc) : s'.Inv first := by
  obtain ⟨hprocs, hothers, hown, heffect⟩ := hmoved
  have hcases : ∀ {j : Nat} {q : Proc}, s'.procs[j]? = some q →
      j = i ∧ q = { p with pc := pc } ∨ j ≠ i ∧ s.procs[j]? = some q := fun hq => getElem?_set_cases (hprocs ▸ hq)
  have hlock : ∀ (j : Nat) q, s'.procs[j]? = some q → q.kind ≠ .repair → q.pc ≠ .start → q.pc ≠ .done →
      s'.lock = some j := by
    intro j q hq hkind hstart hdone
    rcases hcases hq with ⟨rfl, rfl⟩ | ⟨hj, hq⟩
    · exact hown hkind hdone fun hne => h.lock j p hp hkind hne hlive
    · exact hothers j hj (h.lock j q hq hkind hstart hdone)
  cases heffect with
  | idle hnode hlog hpc =>
    have hold : ∀ {j : Nat} {q : Proc}, s'.procs[j]? = some q → q.pc.armed.isSome → s.procs[j]? = some q := by
      intro j q hq harmed
      rcases hcases hq with ⟨_, rfl⟩ | ⟨_, hq⟩
      · rw [hpc] at harmed
        cases harmed
      · exact hq
    refine ⟨h.linked.idle hnode hlog, hlock, ?_, ?_⟩
    · intro j k q r hq hr hqa hra
      exact h.sole j k q r (hold hq hqa) (hold hr hra) hqa hra
    · intro j q expected hq harmed
      rw [hnode]
      exact h.found j q expected (hold hq (by rw [harmed]; rfl)) harmed
  | arm expected hnode hlog hpc hholds harms =>
    have honly : ∀ {j : Nat} {q : Proc}, s'.procs[j]? = some q → q.pc.armed.isSome → j = i := by
      intro j q hq harmed
      rcases hcases hq with ⟨hj, _⟩ | ⟨_, hq⟩
      · exact hj
      · exact h.alone hp hq hok harms harmed
    refine ⟨h.linked.idle hnode hlog, hlock, ?_, ?_⟩
    · intro j k q r hq hr hqa hra
      rw [honly hq hqa, honly hr hra]
    · intro j q expected' hq harmed
      have hj := honly hq (by rw [harmed]; rfl)
      rcases hcases hq with ⟨_, rfl⟩ | ⟨hne, _⟩
      · rw [hnode]
        cases hpc.symm.trans harmed
        exact hholds
      · exact absurd hj hne
  | replace expected desired hwas hnode hlog hpc =>
    have hnone : ∀ {j : Nat} {q : Proc}, s'.procs[j]? = some q → q.pc.armed = none := by
      intro j q hq
      rcases hcases hq with ⟨_, rfl⟩ | ⟨hj, hq⟩
      · exact hpc
      · exact Option.not_isSome_iff_eq_none.mp fun harmed =>
          hj (h.sole j i q p hq hp harmed (by rw [hwas]; rfl))
    refine ⟨h.linked.replace (h.found i p expected hp hwas) hnode hlog, hlock, ?_, ?_⟩
    · intro j k q r hq _ hqa _
      rw [hnone hq] at hqa
      cases hqa
    · intro j q expected' hq harmed
      rw [hnone hq] at harmed
      cases harmed

theorem move_live {isBranch : String → Bool} {s s' : RefSys} {i : Nat} {p : Proc} {m : ProcMove}
    (h : s.move isBranch i p m = some s') : p.pc ≠ .done := by
  intro hpc
  simp only [move, hpc] at h
  cases h

theorem Inv.step {isBranch : String → Bool} {first : Option Node} {s s' : RefSys} {a : ProcAct} (h : s.Inv first)
    (hok : s.apart a = true) (hstep : s.step isBranch a = some s') : s'.Inv first := by
  cases a with
  | spawn kind =>
    cases hstep
    have hcases : ∀ {j : Nat} {q : Proc}, (s.procs ++ [⟨kind, .start⟩])[j]? = some q →
        q.pc = .start ∨ s.procs[j]? = some q := by
      intro j q hq
      rcases getElem?_append_cases hq with rfl | hq
      · exact Or.inl rfl
      · exact Or.inr hq
    have hold : ∀ {j : Nat} {q : Proc}, (s.procs ++ [⟨kind, .start⟩])[j]? = some q → q.pc.armed.isSome →
        s.procs[j]? = some q := by
      intro j q hq harmed
      rcases hcases hq with hstart | hq
      · rw [hstart] at harmed
        cases harmed
      · exact hq
    refine ⟨h.linked.idle rfl rfl, ?_, ?_, ?_⟩
    · intro j q hq hkind hstart hdone
      rcases hcases hq with hs | hq
      · exact absurd hs hstart
      · exact h.lock j q hq hkind hstart hdone
    · exact fun j k q r hq hr hqa hra => h.sole j k q r (hold hq hqa) (hold hr hra) hqa hra
    · exact fun j q expected hq harmed => h.found j q expected (hold hq (by rw [harmed]; rfl)) harmed
  | run i m =>
    obtain ⟨p, hp, hmove⟩ := Option.bind_eq_some_iff.mp hstep
    obtain ⟨pc, hmoved⟩ := move_moved hmove
    exact h.moved hp (move_live hmove) hok hmoved

/-- In every interleaving in which no repair is between comparison and replacement together with another process,
the updates that succeeded form one chain and none is overwritten unseen. -/
theorem linked_of_apart (isBranch : String → Bool) (first : Option Node) (journal : Journal) (s : RefSys)
    (h : Reach (step isBranch) apart (RefSys.new first journal) s) : s.Linked first :=
  (h.invariant (inv_new first journal) fun _ _ _ hinv hok hstep => hinv.step hok hstep).linked

/-! A merge died between its journal record and its update. A repair replays the record while a commit runs. -/

def oldTip : Oid := .fill 1
def mergedTip : Oid := .fill 2
def committedTip : Oid := .fill 3

def mainFile : Node := .file (oldTip.toString ++ "\n")

def isMain (name : String) : Bool := name = "refs/heads/main"

def diedMerge : Journal :=
  Journal.empty.begin { op := .merge, timestamp := "", refName := "refs/heads/main", refOld := some oldTip,
                        refNew := some mergedTip }

/-- The repair is done before the commit resolves the branch. -/
def repairFirst : List ProcAct :=
  [.spawn .commit, .spawn .repair, .run 0 .next, .run 1 .next, .run 1 .next, .run 1 .next, .run 1 .next, .run 1 .next,
    .run 1 .next, .run 1 (.write true), .run 1 .next, .run 1 .next, .run 0 .next, .run 0 (.build committedTip),
    .run 0 .next, .run 0 .next, .run 0 (.write true)]

theorem linked_of_apart_repairFirst :
    ((runActs (step isMain) apart (RefSys.new (some mainFile) diedMerge) repairFirst).map fun s =>
        s.updates.map fun u => (u.expected, u.desired)) =
        some [(some oldTip, mergedTip), (some mergedTip, committedTip)] ∧
      ∀ s, runActs (step isMain) apart (RefSys.new (some mainFile) diedMerge) repairFirst = some s →
        s.Linked (some mainFile) :=
  ⟨by decide +kernel, fun s hs => linked_of_apart isMain (some mainFile) diedMerge s (Reach.init.runActs hs)⟩

/-- The repair has compared when the commit, which holds the lock, compares and replaces. -/
def repairAcross : List ProcAct :=
  [.spawn .commit, .spawn .repair, .run 0 .next, .run 0 .next, .run 1 .next, .run 1 .next, .run 1 .next, .run 1 .next,
    .run 1 .next, .run 1 .next, .run 0 (.build committedTip), .run 0 .next, .run 0 .next, .run 0 (.write true),
    .run 1 (.write true)]

theorem not_linked_repairAcross :
    ¬ ∀ s, Reach (step isMain) (fun _ _ => true) (RefSys.new (some mainFile) diedMerge) s →
      s.Linked (some mainFile) := by
  intro h
  have hend : ((runActs (step isMain) (fun _ _ => true) (RefSys.new (some mainFile) diedMerge) repairAcross).map
      fun s => s.updates) =
      some [⟨some mainFile, some oldTip, committedTip⟩,
        ⟨some (.file (committedTip.toString ++ "\n")), some oldTip, mergedTip⟩] := by decide +kernel
  obtain ⟨s, hs, hlog⟩ := Option.map_eq_some_iff.mp hend
  have hmem : ⟨some (.file (committedTip.toString ++ "\n")), some oldTip, mergedTip⟩ ∈ s.updates := by
    rw [hlog]
    exact List.mem_cons_of_mem _ (List.mem_singleton_self _)
  obtain ⟨n, hn, htext⟩ := (h s (Reach.init.runActs hs)).replaced _ hmem
  cases hn
  rw [nodeText, trimmed_line] at htext
  exact absurd (Oid.toString_inj htext) (by decide)

end RefSys

end SynapseFs.Store
