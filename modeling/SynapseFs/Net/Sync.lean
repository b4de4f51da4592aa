import SynapseFs.Net.Received

/-! The file synchronisation of push and pull.

Two repositories exchange their files over a socket. The receiver gets the other
side's inventory, walks it in key order, asks for every path that it does not have
with the same value, and puts each answer into place. Names, lines and contents
are byte strings; a file is known by the name that the directory walk spells.

The peer is a process that answers each request with bytes; nothing is assumed
about them here. A read past what it has sent finds the connection closed. -/
namespace SynapseFs.Net
open Lib Core Format Store

/-- The files by name. -/
abbrev Disk := FinMap Bytes Bytes

/-! ### Text -/

def newline : UInt8 := 10
def slash : UInt8 := 47

def text (s : String) : Bytes := ascii s.toList

def chars (b : Bytes) : List Char := b.map fun x => Char.ofNat x.toNat

def decimal (n : Nat) : Bytes := ascii (Nat.toDigits 10 n)

def isSpace (c : Char) : Bool := c = ' ' || c = '\t' || c = '\n' || c = '\x0b' || c = '\x0c' || c = '\r'

/-- `std::stoull` on a whole text; it takes a sign, and a negative number wraps. -/
def safeStoull (s : List Char) : Option Nat :=
  let body := s.dropWhile isSpace
  let negative := body.head? = some '-'
  let digits := if negative ∨ body.head? = some '+' then body.drop 1 else body
  if digits = [] ∨ digits.all Char.isDigit = false then none
  else
    let v := Nat.ofDigitChars 10 digits 0
    if 2 ^ 64 ≤ v then none else some (if negative then u64 (2 ^ 64 - v) else v)

/-- `read_line`, and what is left to read. -/
def readLine (input : Bytes) : Bytes × Bytes :=
  (input.takeWhile (· ≠ newline), (input.dropWhile (· ≠ newline)).drop 1)

/-! ### Names -/

/-- `parent_path` and `filename`. -/
def splitName (p : Bytes) : Bytes × Bytes :=
  let fromEnd := p.reverse
  (((fromEnd.dropWhile (· ≠ slash)).dropWhile (· = slash)).reverse, (fromEnd.takeWhile (· ≠ slash)).reverse)

def isHex (b : Bytes) : Bool := (chars b).all fun c => (hexNibble c).isSome

/-- `object_oid_from_path`. -/
def objectOidFromPath (p : Bytes) : Option Oid :=
  let fname := (splitName p).2
  let dname := (splitName (splitName p).1).2
  if fname.length ≠ 62 ∨ dname.length ≠ 2 ∨ isHex fname = false ∨ isHex dname = false then none
  else
    match Oid.parse (String.ofList ("b3:".toList ++ chars dname ++ chars fname)) with
    | .ok oid => some oid
    | .error _ => none

def tempPath (p : Bytes) : Bytes := p ++ text ".tmp"

/-! ### Inventories -/

/-- A value of an inventory: a ref's content, a file's size, or any other JSON value, which equals no local one and
which `get<size_t>` may or may not take. -/
inductive InvValue where
  | content (b : Bytes)
  | size (n : Nat)
  | other (asSize : Option Nat)
  deriving DecidableEq

def targetDirs : List Bytes :=
  [text ".synapsefs/objects", text ".synapsefs/refs", text ".synapsefs/ref", text ".synapsefs/journal"]

def under (dir p : Bytes) : Bool := (dir ++ [slash]).isPrefixOf p

/-- `path.find(pattern) != npos`. -/
def containsText (pattern p : Bytes) : Bool := p.tails.any fun t => pattern.isPrefixOf t

def inventoryValue (p content : Bytes) : InvValue :=
  if containsText (text "/ref") p || containsText (text "HEAD") p then .content content else .size content.length

def getLocalInventory (disk : Disk) : FinMap Bytes InvValue :=
  (disk.filterKeys fun p => targetDirs.any fun dir => under dir p).mapKV inventoryValue

/-- A JSON object is walked in the order of its keys, each once. -/
structure Inventory where
  entries : List (Bytes × InvValue)
  sorted : entries.Pairwise fun a b => a.1 < b.1

/-! ### Receiving a file -/

/-- What `handle_receive_file` leaves, and the name it has put into place, with whether it was checked against an
address first. -/
structure Received where
  disk : Disk
  input : Bytes
  committed : Option (Bytes × Bool)

/-- The last part: the old file goes, the temporary file takes its name. -/
def commitFile (renames : Bool) (disk : Disk) (input path content : Bytes) (checked : Bool) : Received :=
  if renames then ⟨((disk.erase path).erase (tempPath path)).insert path content, input, some (path, checked)⟩
  else ⟨disk.erase path, input, none⟩

/-- `handle_receive_file`, after its `FILE` line. `opens` and `renames` say whether the temporary file can be opened
and renamed. -/
def handleReceiveFile (blake3 : Bytes → Oid) (opens renames : Bool) (disk : Disk) (input : Bytes) : Outcome Received :=
  let (path, input) := readLine input
  let (sizeLine, input) := readLine input
  let (offsetLine, input) := readLine input
  match safeStoull (chars sizeLine), safeStoull (chars offsetLine) with
  | some totalSize, some offset =>
    if path = [] ∨ totalSize < offset ∨ opens = false then .ok ⟨disk, input, none⟩
    else
      let remaining := totalSize - offset
      let kept := if 0 < offset then (disk.get? (tempPath path)).getD [] else []
      let content := kept ++ input.take remaining
      let disk := disk.insert (tempPath path) content
      if input.length < remaining then .ok ⟨disk, [], none⟩
      else
        match objectOidFromPath path with
        | none => .ok (commitFile renames disk (input.drop remaining) path content false)
        | some oid => do
          if ← verifyReceivedObjectPayload blake3 content oid then
            return commitFile renames disk (input.drop remaining) path content true
          else return ⟨disk.erase (tempPath path), input.drop remaining, none⟩
  | _, _ => .ok ⟨disk, input, none⟩

/-! ### The receiver's loop -/

/-- A peer: what it answers to the bytes of a request, where it stands. -/
structure Peer (σ : Type) where
  start : σ
  answer : σ → Bytes → σ × Bytes

/-- The other side, and what the system lets the receiver do at its `n`-th request. -/
structure Link (σ : Type) where
  blake3 : Bytes → Oid
  peer : Peer σ
  sends : Nat → Bool
  opens : Nat → Bool
  renames : Nat → Bool

/-- What came of a request. -/
structure Answer where
  asked : Bytes
  committed : Option (Bytes × Bool)
  deriving DecidableEq

structure Session (σ : Type) where
  disk : Disk
  input : Bytes
  peer : σ
  allOk : Bool
  /-- A request could not be sent. -/
  stopped : Bool
  answers : List Answer

/-- What is left of an earlier transfer, and where it goes on. -/
def resumeOffset (disk : Disk) (path : Bytes) (value : InvValue) : Outcome (Disk × Nat) :=
  match disk.get? (tempPath path) with
  | none => .ok (disk, 0)
  | some leftover =>
    let resume (remoteSize : Nat) : Disk × Nat :=
      if remoteSize < leftover.length then (disk.erase (tempPath path), 0) else (disk, leftover.length)
    match value with
    | .content _ => .ok (disk.erase (tempPath path), 0)
    | .size n => .ok (resume n)
    | .other (some n) => .ok (resume n)
    | .other none => .error (.exception "type_error")

def request (path : Bytes) (offset : Nat) : Bytes :=
  text "REQ\n" ++ path ++ [newline] ++ decimal offset ++ [newline]

variable {σ : Type}

/-- One entry of the remote inventory. -/
def syncEntry (link : Link σ) (localInv : FinMap Bytes InvValue) (s : Session σ) (entry : Bytes × InvValue) :
    Outcome (Session σ) :=
  if s.stopped ∨ localInv.get? entry.1 = some entry.2 then .ok s
  else do
    let (disk, offset) ← resumeOffset s.disk entry.1 entry.2
    let n := s.answers.length
    if link.sends n = false then return { s with disk := disk, allOk := false, stopped := true }
    else
      let (peer, sent) := link.peer.answer s.peer (request entry.1 offset)
      let (cmd, input) := readLine (s.input ++ sent)
      if cmd = text "FILE" then
        let r ← handleReceiveFile link.blake3 (link.opens n) (link.renames n) disk input
        return { s with
          disk := r.disk
          input := r.input
          peer := peer
          allOk := s.allOk && r.committed.isSome
          answers := s.answers ++ [⟨entry.1, r.committed⟩] }
      else
        return { s with
          disk := disk
          input := input
          peer := peer
          allOk := false
          answers := s.answers ++ [⟨entry.1, none⟩] }

def Session.begin (link : Link σ) (disk : Disk) : Session σ := ⟨disk, [], link.peer.start, true, false, []⟩

/-- The loop over some entries of the remote inventory. -/
def syncEntries (link : Link σ) (localInv : FinMap Bytes InvValue) :
    List (Bytes × InvValue) → Session σ → Outcome (Session σ)
  | [], s => .ok s
  | entry :: rest, s => do
    let s ← syncEntry link localInv s entry
    syncEntries link localInv rest s

/-- The session of `receiver_sync_loop`, which returns `allOk` of its end. -/
def receiverSyncLoop (link : Link σ) (remote : Inventory) (disk : Disk) : Outcome (Session σ) :=
  syncEntries link (getLocalInventory disk) remote.entries (Session.begin link disk)

/-! ### What a walk has asked for -/

/-- A file is checked when its name is the name of an object. -/
theorem committed_checked {blake3 : Bytes → Oid} {opens renames : Bool} {disk : Disk} {input : Bytes} {r : Received}
    {p : Bytes} {checked : Bool} (h : handleReceiveFile blake3 opens renames disk input = .ok r)
    (hc : r.committed = some (p, checked)) : checked = (objectOidFromPath p).isSome := by
  have hcommit : ∀ {d : Disk} {rest path content : Bytes} {c : Bool},
      (commitFile renames d rest path content c).committed = some (p, checked) → path = p ∧ c = checked := by
    intro d rest path content c h
    unfold commitFile at h
    split at h
    · cases h
      exact ⟨rfl, rfl⟩
    · cases h
  unfold handleReceiveFile at h
  dsimp only at h
  split at h
  · split at h
    · cases h
      cases hc
    · split at h
      · cases h
        cases hc
      · split at h
        · next hnone =>
          cases h
          obtain ⟨rfl, rfl⟩ := hcommit hc
          rw [hnone]
          rfl
        · next oid hsome =>
          obtain ⟨ok, _, h⟩ := bind_eq_ok.mp h
          cases ok with
          | true =>
            cases h
            obtain ⟨rfl, rfl⟩ := hcommit hc
            rw [hsome]
            rfl
          | false =>
            cases h
            cases hc
  · cases h
    cases hc

/-- What one entry adds to the answers. -/
theorem syncEntry_answers {link : Link σ} {localInv : FinMap Bytes InvValue} {s s' : Session σ}
    {entry : Bytes × InvValue} (h : syncEntry link localInv s entry = .ok s') :
    (s.stopped = true ∨ localInv.get? entry.1 = some entry.2) ∧ s' = s ∨
      s.stopped = false ∧ localInv.get? entry.1 ≠ some entry.2 ∧
        (s'.answers = s.answers ∧ s'.stopped = true ∨
          s'.stopped = false ∧ ∃ c, s'.answers = s.answers ++ [⟨entry.1, c⟩] ∧
            ∀ p checked, c = some (p, checked) → checked = (objectOidFromPath p).isSome) := by
  unfold syncEntry at h
  split at h
  · next hskip =>
    cases h
    exact Or.inl ⟨hskip, rfl⟩
  · next hgo =>
    obtain ⟨hrun, hdiff⟩ := not_or.mp hgo
    have hrun : s.stopped = false := Bool.eq_false_iff.mpr hrun
    refine Or.inr ⟨hrun, hdiff, ?_⟩
    obtain ⟨⟨disk, offset⟩, _, h⟩ := bind_eq_ok.mp h
    dsimp only at h
    split at h
    · cases h
      exact Or.inl ⟨rfl, rfl⟩
    · refine Or.inr ?_
      split at h
      · obtain ⟨r, hr, h⟩ := bind_eq_ok.mp h
        cases h
        exact ⟨hrun, r.committed, rfl, fun p checked hc => committed_checked hr hc⟩
      · cases h
        exact ⟨hrun, none, rfl, nofun⟩

/-- The answers of a walk over `done`, up to where it stopped: one to every entry that differs, and no other. -/
structure Walked (localInv : FinMap Bytes InvValue) (done : List (Bytes × InvValue)) (s : Session σ) : Prop where
  reached : ∃ seen rest, done = seen ++ rest ∧ (s.stopped = false → rest = []) ∧
    (∀ a ∈ s.answers, ∃ e ∈ seen, e.1 = a.asked) ∧
    ∀ e ∈ seen, localInv.get? e.1 ≠ some e.2 → ∃ a ∈ s.answers, a.asked = e.1
  checked : ∀ a ∈ s.answers, ∀ p checked, a.committed = some (p, checked) → checked = (objectOidFromPath p).isSome

theorem Walked.step {link : Link σ} {localInv : FinMap Bytes InvValue} {done : List (Bytes × InvValue)}
    {s s' : Session σ} {entry : Bytes × InvValue} (h : Walked localInv done s)
    (hstep : syncEntry link localInv s entry = .ok s') : Walked localInv (done ++ [entry]) s' := by
  obtain ⟨⟨seen, rest, rfl, hrest, hfrom, hasked⟩, hchecked⟩ := h
  rcases syncEntry_answers hstep with ⟨hskip, rfl⟩ | ⟨hrun, hdiff, hcase⟩
  · refine ⟨?_, hchecked⟩
    by_cases hstop : s'.stopped = true
    · refine ⟨seen, rest ++ [entry], by simp, fun hrun => ?_, hfrom, hasked⟩
      rw [hstop] at hrun
      cases hrun
    · have hsame := hskip.resolve_left hstop
      rw [hrest (Bool.eq_false_iff.mpr hstop)]
      refine ⟨seen ++ [entry], [], by simp, fun _ => rfl, ?_, ?_⟩
      · intro a ha
        obtain ⟨e, he, hae⟩ := hfrom a ha
        exact ⟨e, List.mem_append_left _ he, hae⟩
      · intro e he hdiff
        rcases List.mem_append.mp he with he | he
        · exact hasked e he hdiff
        · cases List.mem_singleton.mp he
          exact absurd hsame hdiff
  · rw [hrest hrun, List.append_nil]
    rcases hcase with ⟨hans, hstop⟩ | ⟨hrun', c, hans, hc⟩
    · refine ⟨⟨seen, [entry], rfl, fun hrun' => ?_, ?_, ?_⟩, ?_⟩
      · rw [hstop] at hrun'
        cases hrun'
      · rw [hans]
        exact hfrom
      · rw [hans]
        exact hasked
      · rw [hans]
        exact hchecked
    · refine ⟨⟨seen ++ [entry], [], by simp, fun _ => rfl, ?_, ?_⟩, ?_⟩
      · intro a ha
        rw [hans] at ha
        rcases List.mem_append.mp ha with ha | ha
        · obtain ⟨e, he, hae⟩ := hfrom a ha
          exact ⟨e, List.mem_append_left _ he, hae⟩
        · cases List.mem_singleton.mp ha
          exact ⟨entry, List.mem_append_right _ (List.mem_singleton_self _), rfl⟩
      · intro e he hd
        rw [hans]
        rcases List.mem_append.mp he with he | he
        · obtain ⟨a, ha, hae⟩ := hasked e he hd
          exact ⟨a, List.mem_append_left _ ha, hae⟩
        · cases List.mem_singleton.mp he
          exact ⟨_, List.mem_append_right _ (List.mem_singleton_self _), rfl⟩
      · intro a ha
        rw [hans] at ha
        rcases List.mem_append.mp ha with ha | ha
        · exact hchecked a ha
        · cases List.mem_singleton.mp ha
          exact hc

theorem Walked.run {link : Link σ} {localInv : FinMap Bytes InvValue} {entries : List (Bytes × InvValue)} :
    ∀ {done : List (Bytes × InvValue)} {s s' : Session σ}, Walked localInv done s →
      syncEntries link localInv entries s = .ok s' → Walked localInv (done ++ entries) s' := by
  induction entries with
  | nil =>
    intro done s s' h hrun
    cases hrun
    rw [List.append_nil]
    exact h
  | cons entry rest ih =>
    intro done s s' h hrun
    obtain ⟨t, ht, hrun⟩ := bind_eq_ok.mp hrun
    have := ih (h.step ht) hrun
    rwa [List.append_assoc] at this

theorem walked_begin (link : Link σ) (localInv : FinMap Bytes InvValue) (disk : Disk) :
    Walked localInv [] (Session.begin link disk) :=
  ⟨⟨[], [], rfl, fun _ => rfl, nofun, nofun⟩, nofun⟩

/-! ### Refs come after objects -/

def ObjectPath (p : Bytes) : Prop := under (text ".synapsefs/objects") p = true ∧ (objectOidFromPath p).isSome = true

def RefPath (p : Bytes) : Prop := under (text ".synapsefs/refs") p = true

instance (p : Bytes) : Decidable (RefPath p) := inferInstanceAs (Decidable (_ = true))

/-- Names that part at a byte are ordered by that byte. -/
theorem lt_of_parting {common a b : Bytes} {x y : UInt8} (hxy : x < y) :
    common ++ x :: a < common ++ y :: b := by
  induction common with
  | nil => exact List.cons_lt_cons_iff.mpr (Or.inl hxy)
  | cons c rest ih => exact List.cons_lt_cons_iff.mpr (Or.inr ⟨rfl, ih⟩)

theorem object_lt_ref {p r : Bytes} (hp : ObjectPath p) (hr : RefPath r) : p < r := by
  obtain ⟨a, rfl⟩ := List.isPrefixOf_iff_prefix.mp hp.1
  obtain ⟨b, rfl⟩ := List.isPrefixOf_iff_prefix.mp hr
  exact @lt_of_parting (text ".synapsefs/") _ _ 111 114 (by decide)

def objectPath : Bytes := text ".synapsefs/objects/00/" ++ List.replicate 62 48
def refPath : Bytes := text ".synapsefs/refs/heads/main"

def objectFile : Bytes := ObjectHeader.encode ⟨0, 0, 16, 1, 1, 0⟩ ++ [1]

def smallRemote : Inventory where
  entries := [(objectPath, .size objectFile.length), (refPath, .content (text "tip\n"))]
  sorted := by decide +kernel

/-- A peer that says its lines in turn. -/
def scripted (lines : List Bytes) : Link (List Bytes) where
  blake3 := fun _ => zeroOid
  peer := ⟨lines, fun rest _ => (rest.tail, rest.headD [])⟩
  sends := fun _ => true
  opens := fun _ => true
  renames := fun _ => true

def fileAnswer (path content : Bytes) : Bytes :=
  text "FILE\n" ++ path ++ [newline] ++ decimal content.length ++ text "\n0\n" ++ content

def answersOf (o : Outcome (Session σ)) : Option (List Answer) := o.toOption.map fun s => s.answers

theorem answersOf_eq_some {o : Outcome (Session σ)} {l : List Answer} (h : answersOf o = some l) :
    ∃ s, o = .ok s ∧ s.answers = l := by
  cases o with
  | error f => cases h
  | ok s => exact ⟨s, rfl, Option.some.inj h⟩

def goodScript : List Bytes := [fileAnswer objectPath objectFile, fileAnswer refPath (text "tip\n")]

/-- The object is refused by the peer; the walk goes on to the ref. -/
def refusingScript : List Bytes := [text "NONE\n", fileAnswer refPath (text "tip\n")]

end SynapseFs.Net
