import SynapseFs.Net.Sync

/-! Pulling from an honest peer.

The other side runs `sender_sync_loop` over files that do not change. Each request
is then answered with the file from the offset asked for, receiver and sender
agree line by line, and what the receiver puts into place has the advertised size,
or the content if it is a ref (`syncEntry_honest`). A pull that reports success
has every path of the remote inventory in place (`pull_converges`), provided that
names have no line breaks, which the protocol cannot carry, and that no advertised
file is called like the temporary file of another one. -/
namespace SynapseFs.Net
open Lib Core Format Store

/-! ### The sender -/

/-- `handle_send_file`. -/
def handleSendFile (disk : Disk) (path : Bytes) (offset : Nat) : Bytes :=
  match disk.get? path with
  | none => []
  | some content =>
    let offset := if content.length < offset then content.length else offset
    text "FILE\n" ++ path ++ [newline] ++ decimal content.length ++ [newline] ++ decimal offset ++ [newline] ++
      content.drop offset

/-- Where `sender_sync_loop` stands between two lines. -/
inductive SenderState where
  | idle
  /-- After `REQ`. -/
  | asked
  /-- After the path of a request. -/
  | named (path : Bytes)
  | finished
  deriving DecidableEq

/-- One line of `sender_sync_loop`, and what it sends. -/
def senderLine (disk : Disk) (st : SenderState) (line : Bytes) : SenderState × Bytes :=
  match st with
  | .idle =>
    if line = text "DONE" ∨ line = [] then (.finished, [])
    else if line = text "REQ" then (.asked, [])
    else (.idle, [])
  | .asked => (.named line, [])
  | .named path =>
    match safeStoull (chars line) with
    | none => (.idle, [])
    | some offset => if path = [] then (.idle, []) else (.idle, handleSendFile disk path offset)
  | .finished => (.finished, [])

/-- The lines of a text that ends with a line. -/
def linesOf : Bytes → List Bytes
  | [] => []
  | c :: rest =>
    if c = newline then [] :: linesOf rest
    else
      match linesOf rest with
      | [] => [[c]]
      | line :: lines => (c :: line) :: lines

def senderLines (disk : Disk) : List Bytes → SenderState → SenderState × Bytes
  | [], st => (st, [])
  | line :: rest, st =>
    let (st, sent) := senderLine disk st line
    let (st, more) := senderLines disk rest st
    (st, sent ++ more)

/-- The peer that runs `sender_sync_loop` over the files of `disk`. -/
def sender (disk : Disk) : Peer SenderState := ⟨.idle, fun st req => senderLines disk (linesOf req) st⟩

/-! ### Lines and numbers -/

theorem readLine_line {line : Bytes} (h : newline ∉ line) (rest : Bytes) :
    readLine (line ++ newline :: rest) = (line, rest) := by
  have hne : ∀ x ∈ line, (decide (x ≠ newline)) = true := fun x hx => decide_eq_true fun he => h (he ▸ hx)
  unfold readLine
  rw [List.takeWhile_append_of_pos hne, List.dropWhile_append_of_pos hne]
  simp

theorem linesOf_line {line : Bytes} (h : newline ∉ line) (rest : Bytes) :
    linesOf (line ++ newline :: rest) = line :: linesOf rest := by
  induction line with
  | nil => rfl
  | cons c cs ih =>
    have hc : c ≠ newline := fun he => h (he ▸ List.mem_cons_self)
    have hcs : newline ∉ cs := fun hm => h (List.mem_cons_of_mem _ hm)
    rw [List.cons_append, linesOf, if_neg hc, ih hcs]

theorem digit_lt {c : Char} (h : c.isDigit = true) : 48 ≤ c.toNat ∧ c.toNat ≤ 57 := by
  simp only [Char.isDigit, Bool.and_eq_true, decide_eq_true_eq] at h
  exact ⟨h.1, h.2⟩

theorem chars_ascii {l : List Char} (h : ∀ c ∈ l, c.toNat < 256) : chars (ascii l) = l := by
  induction l with
  | nil => rfl
  | cons c cs ih =>
    have hc : (UInt8.ofNat c.toNat).toNat = c.toNat := by
      rw [UInt8.toNat_ofNat']
      exact Nat.mod_eq_of_lt (h c List.mem_cons_self)
    show Char.ofNat (UInt8.ofNat c.toNat).toNat :: chars (ascii cs) = c :: cs
    rw [hc, Char.ofNat_toNat, ih fun x hx => h x (List.mem_cons_of_mem _ hx)]

theorem digit_of_mem {n : Nat} {c : Char} (h : c ∈ Nat.toDigits 10 n) : c.isDigit = true :=
  Nat.isDigit_of_mem_toDigits (by decide) (by decide) h

theorem newline_not_mem_decimal (n : Nat) : newline ∉ decimal n := by
  intro h
  obtain ⟨c, hc, he⟩ := List.mem_map.mp h
  have hd := digit_lt (digit_of_mem hc)
  have := congrArg UInt8.toNat he
  rw [UInt8.toNat_ofNat', Nat.mod_eq_of_lt (by omega)] at this
  have hten : newline.toNat = 10 := rfl
  omega

theorem safeStoull_decimal {n : Nat} (h : n < 2 ^ 64) : safeStoull (chars (decimal n)) = some n := by
  have hdigits : ∀ c ∈ Nat.toDigits 10 n, 48 ≤ c.toNat ∧ c.toNat ≤ 57 := fun c hc => digit_lt (digit_of_mem hc)
  rw [decimal, chars_ascii fun c hc => by have := hdigits c hc; omega]
  cases hl : Nat.toDigits 10 n with
  | nil => exact absurd hl Nat.toDigits_ne_nil
  | cons c cs =>
    have hc := hdigits c (hl ▸ List.mem_cons_self)
    have hne : ∀ x : Char, x.toNat < 48 → c ≠ x := fun x hx he => by rw [he] at hc; omega
    have hspace : isSpace c = false := by
      simp [isSpace, hne ' ' (by decide), hne '\t' (by decide), hne '\n' (by decide), hne '\x0b' (by decide),
        hne '\x0c' (by decide), hne '\r' (by decide)]
    have hall : (c :: cs).all Char.isDigit = true := by
      rw [← hl]
      exact List.all_eq_true.mpr fun x hx => digit_of_mem hx
    have hval : Nat.ofDigitChars 10 (c :: cs) 0 = n := by rw [← hl, Nat.ofDigitChars_ten_toDigits]
    unfold safeStoull
    simp only [List.dropWhile_cons, hspace, Bool.false_eq_true, if_false, List.head?_cons, Option.some.injEq,
      hne '-' (by decide), hne '+' (by decide), or_self, hall, reduceCtorEq, hval]
    rw [if_neg (by omega)]

/-- A request whose name has no line break is answered with the file. -/
theorem sender_answer (disk : Disk) {path : Bytes} {offset : Nat} (hpath : path ≠ []) (hline : newline ∉ path)
    (hoffset : offset < 2 ^ 64) :
    (sender disk).answer .idle (request path offset) = (.idle, handleSendFile disk path offset) := by
  have hlines : linesOf (request path offset) = [text "REQ", path, decimal offset] := by
    have hreq : request path offset =
        text "REQ" ++ newline :: (path ++ newline :: (decimal offset ++ newline :: [])) := by
      simp [request, show text "REQ\n" = text "REQ" ++ [newline] from rfl]
    rw [hreq, linesOf_line (by decide), linesOf_line hline, linesOf_line (newline_not_mem_decimal offset)]
    rfl
  show senderLines disk (linesOf (request path offset)) .idle = _
  have hreq : senderLine disk .idle (text "REQ") = (.asked, []) := by
    rw [senderLine, if_neg (by decide), if_pos rfl]
  have hname : senderLine disk .asked path = (.named path, []) := rfl
  have hoff : senderLine disk (.named path) (decimal offset) = (.idle, handleSendFile disk path offset) := by
    simp only [senderLine, safeStoull_decimal hoffset]
    exact if_neg hpath
  rw [hlines]
  simp only [senderLines, hreq, hname, hoff, List.nil_append, List.append_nil]

/-! ### One request -/

/-- A file as its inventory value advertises it. -/
def Fits (value : InvValue) (content : Bytes) : Prop :=
  match value with
  | .content b => content = b
  | .size n => content.length = n
  | .other _ => False

theorem inventoryValue_cases (p content : Bytes) :
    inventoryValue p content = .content content ∨ inventoryValue p content = .size content.length := by
  unfold inventoryValue
  split
  · exact Or.inl rfl
  · exact Or.inr rfl

theorem fits_inventoryValue (p content : Bytes) : Fits (inventoryValue p content) content := by
  rcases inventoryValue_cases p content with h | h
  · rw [h]
    exact rfl
  · rw [h]
    exact rfl

/-- Where a transfer goes on: at the end of what is left of a file that may be resumed. -/
theorem resumeOffset_spec {disk disk' : Disk} {path content : Bytes} {offset : Nat}
    (h : resumeOffset disk path (inventoryValue path content) = .ok (disk', offset)) :
    offset ≤ content.length ∧ (∀ p, p ≠ tempPath path → disk'.get? p = disk.get? p) ∧
      (0 < offset → ∃ leftover, disk'.get? (tempPath path) = some leftover ∧ leftover.length = offset ∧
        inventoryValue path content = .size content.length) := by
  have herase : ∀ p, p ≠ tempPath path → (disk.erase (tempPath path)).get? p = disk.get? p := fun p hp => by
    rw [FinMap.get?_erase, if_neg hp]
  unfold resumeOffset at h
  split at h
  · cases h
    exact ⟨Nat.zero_le _, fun _ _ => rfl, fun hpos => absurd hpos (Nat.lt_irrefl 0)⟩
  · next leftover hleft =>
    rcases inventoryValue_cases path content with hv | hv
    · rw [hv] at h
      cases h
      exact ⟨Nat.zero_le _, herase, fun hpos => absurd hpos (Nat.lt_irrefl 0)⟩
    · rw [hv] at h ⊢
      have h := Except.ok.inj h
      dsimp only at h
      split at h
      · cases h
        exact ⟨Nat.zero_le _, herase, fun hpos => absurd hpos (Nat.lt_irrefl 0)⟩
      · next hle =>
        cases h
        exact ⟨not_lt.mp hle, fun _ _ => rfl, fun _ => ⟨leftover, hleft, rfl, rfl⟩⟩

/-- The sender's answer, as the receiver reads it. -/
theorem handleReceiveFile_sent (blake3 : Bytes → Oid) (opens renames : Bool) (disk : Disk) {path content : Bytes}
    {offset : Nat} (hpath : path ≠ []) (hline : newline ∉ path) (hsize : content.length < 2 ^ 64)
    (hoffset : offset ≤ content.length) :
    handleReceiveFile blake3 opens renames disk
        (path ++ newline :: (decimal content.length ++ newline :: (decimal offset ++ newline :: content.drop offset))) =
      if opens = false then .ok ⟨disk, content.drop offset, none⟩
      else
        let kept := if 0 < offset then (disk.get? (tempPath path)).getD [] else []
        let whole := kept ++ content.drop offset
        let disk := disk.insert (tempPath path) whole
        match objectOidFromPath path with
        | none => .ok (commitFile renames disk [] path whole false)
        | some oid => do
          if ← verifyReceivedObjectPayload blake3 whole oid then
            return commitFile renames disk [] path whole true
          else return ⟨disk.erase (tempPath path), [], none⟩ := by
  have htake : (content.drop offset).take (content.length - offset) = content.drop offset :=
    List.take_of_length_le (by simp)
  have hdrop : (content.drop offset).drop (content.length - offset) = [] := List.drop_of_length_le (by simp)
  unfold handleReceiveFile
  simp only [readLine_line hline, readLine_line (newline_not_mem_decimal _), safeStoull_decimal hsize,
    safeStoull_decimal (Nat.lt_of_le_of_lt hoffset hsize), hpath, not_lt.mpr hoffset, false_or, htake, hdrop,
    List.length_drop, Nat.lt_irrefl, if_false]
  all_goals rfl

/-- Whatever the sender sends is put into place as it was advertised, or not at all. -/
theorem receive_sent {blake3 : Bytes → Oid} {opens renames : Bool} {disk : Disk} {path content : Bytes} {offset : Nat}
    {r : Received} (hpath : path ≠ []) (hline : newline ∉ path) (hsize : content.length < 2 ^ 64)
    (hoffset : offset ≤ content.length)
    (hkept : 0 < offset → ∃ leftover, disk.get? (tempPath path) = some leftover ∧ leftover.length = offset ∧
      inventoryValue path content = .size content.length)
    (h : handleReceiveFile blake3 opens renames disk
      (path ++ newline :: (decimal content.length ++ newline :: (decimal offset ++ newline :: content.drop offset))) =
        .ok r) (hcommit : r.committed.isSome = true) :
    r.input = [] ∧ (∀ p, p ≠ path → p ≠ tempPath path → r.disk.get? p = disk.get? p) ∧
      ∃ whole, r.disk.get? path = some whole ∧ Fits (inventoryValue path content) whole ∧
        ∀ oid, objectOidFromPath path = some oid → verifyReceivedObjectPayload blake3 whole oid = .ok true := by
  rw [handleReceiveFile_sent blake3 opens renames disk hpath hline hsize hoffset] at h
  split at h
  · cases h
    cases hcommit
  · dsimp only at h
    have hfits : Fits (inventoryValue path content)
        ((if 0 < offset then (disk.get? (tempPath path)).getD [] else []) ++ content.drop offset) := by
      split
      · next hpos =>
        obtain ⟨leftover, hleft, hlen, hv⟩ := hkept hpos
        rw [hv, hleft]
        show (leftover ++ content.drop offset).length = content.length
        rw [List.length_append, List.length_drop, hlen]
        omega
      · next hzero =>
        rw [Nat.eq_zero_of_not_pos hzero]
        exact fits_inventoryValue path content
    generalize (if 0 < offset then (disk.get? (tempPath path)).getD [] else []) ++ content.drop offset = whole at h hfits
    have hplaced : ∀ checked, r = commitFile renames (disk.insert (tempPath path) whole) [] path whole checked →
        r.input = [] ∧ (∀ p, p ≠ path → p ≠ tempPath path → r.disk.get? p = disk.get? p) ∧
          r.disk.get? path = some whole := by
      intro checked hr
      unfold commitFile at hr
      split at hr
      · subst hr
        refine ⟨rfl, fun p hp htemp => ?_, FinMap.get?_insert_self _ _ _⟩
        show ((((disk.insert (tempPath path) whole).erase path).erase (tempPath path)).insert path whole).get? p = _
        rw [FinMap.get?_insert_ne _ _ hp, FinMap.get?_erase, if_neg htemp, FinMap.get?_erase, if_neg hp,
          FinMap.get?_insert_ne _ _ htemp]
      · subst hr
        cases hcommit
    split at h
    · next hnone =>
      obtain ⟨hinput, hframe, hget⟩ := hplaced false (Except.ok.inj h).symm
      refine ⟨hinput, hframe, whole, hget, hfits, fun oid hoid => ?_⟩
      rw [hnone] at hoid
      cases hoid
    · next oid hsome =>
      obtain ⟨ok, hverify, h⟩ := bind_eq_ok.mp h
      cases ok with
      | true =>
        obtain ⟨hinput, hframe, hget⟩ := hplaced true (Except.ok.inj h).symm
        refine ⟨hinput, hframe, whole, hget, hfits, fun oid' hoid' => ?_⟩
        cases hsome.symm.trans hoid'
        exact hverify
      | false =>
        cases h
        cases hcommit

/-- The answer to a request, line by line. -/
theorem readLine_sent {disk : Disk} {path content : Bytes} {offset : Nat} (hget : disk.get? path = some content)
    (hoffset : offset ≤ content.length) :
    readLine (handleSendFile disk path offset) = (text "FILE",
      path ++ newline :: (decimal content.length ++ newline :: (decimal offset ++ newline :: content.drop offset))) := by
  have hsent : handleSendFile disk path offset = text "FILE" ++ newline ::
      (path ++ newline :: (decimal content.length ++ newline :: (decimal offset ++ newline :: content.drop offset))) := by
    rw [handleSendFile, hget]
    simp [not_lt.mpr hoffset, show text "FILE\n" = text "FILE" ++ [newline] from rfl]
  rw [hsent, readLine_line (by decide)]

/-! ### A whole session -/

/-- Between two requests both sides are at a line of their own. -/
structure Agreed (s : Session SenderState) : Prop where
  running : s.stopped = false
  read : s.input = []
  waits : s.peer = .idle

/-- An entry that the receiver asks for. -/
def Requested (disk : Disk) (e : Bytes × InvValue) : Prop := (getLocalInventory disk).get? e.1 ≠ some e.2

/-- A file in place as advertised, and checked if it is an object. -/
def Placed (blake3 : Bytes → Oid) (disk : Disk) (e : Bytes × InvValue) : Prop :=
  ∃ c, disk.get? e.1 = some c ∧ Fits e.2 c ∧
    ∀ oid, objectOidFromPath e.1 = some oid → verifyReceivedObjectPayload blake3 c oid = .ok true

theorem syncEntry_allOk {σ : Type} {link : Link σ} {localInv : FinMap Bytes InvValue} {s s' : Session σ}
    {entry : Bytes × InvValue} (h : syncEntry link localInv s entry = .ok s') (hok : s'.allOk = true) :
    s.allOk = true := by
  unfold syncEntry at h
  split at h
  · cases h
    exact hok
  · obtain ⟨_, _, h⟩ := bind_eq_ok.mp h
    dsimp only at h
    split at h
    · cases h
      cases hok
    · split at h
      · obtain ⟨r, _, h⟩ := bind_eq_ok.mp h
        cases h
        exact (Bool.and_eq_true_iff.mp hok).1
      · cases h
        cases hok

theorem syncEntries_allOk {σ : Type} {link : Link σ} {localInv : FinMap Bytes InvValue}
    {entries : List (Bytes × InvValue)} : ∀ {s s' : Session σ}, syncEntries link localInv entries s = .ok s' →
      s'.allOk = true → s.allOk = true := by
  induction entries with
  | nil =>
    intro s s' h hok
    cases h
    exact hok
  | cons entry rest ih =>
    intro s s' h hok
    obtain ⟨t, ht, h⟩ := bind_eq_ok.mp h
    exact syncEntry_allOk ht (ih h hok)

/-- One request to an honest peer. -/
theorem syncEntry_honest {link : Link SenderState} {remoteDisk : Disk} {localInv : FinMap Bytes InvValue}
    {s s' : Session SenderState} {path content : Bytes} (hpeer : link.peer = sender remoteDisk)
    (hget : remoteDisk.get? path = some content) (hpath : path ≠ []) (hline : newline ∉ path)
    (hsize : content.length < 2 ^ 64) (hagreed : Agreed s)
    (hdiff : localInv.get? path ≠ some (inventoryValue path content))
    (h : syncEntry link localInv s (path, inventoryValue path content) = .ok s') (hok : s'.allOk = true) :
    Agreed s' ∧ (∀ p, p ≠ path → p ≠ tempPath path → s'.disk.get? p = s.disk.get? p) ∧
      Placed link.blake3 s'.disk (path, inventoryValue path content) := by
  obtain ⟨hrunning, hread, hwaits⟩ := hagreed
  unfold syncEntry at h
  rw [if_neg (not_or.mpr ⟨by simp [hrunning], hdiff⟩)] at h
  obtain ⟨⟨disk, offset⟩, hresume, h⟩ := bind_eq_ok.mp h
  obtain ⟨hoffset, hframe, hkept⟩ := resumeOffset_spec hresume
  have hanswer : link.peer.answer s.peer (request path offset) = (.idle, handleSendFile remoteDisk path offset) := by
    rw [hpeer, hwaits]
    exact sender_answer remoteDisk hpath hline (Nat.lt_of_le_of_lt hoffset hsize)
  simp only [hanswer, hread, List.nil_append, readLine_sent hget hoffset, if_true] at h
  split at h
  · cases h
    cases hok
  · obtain ⟨r, hr, h⟩ := bind_eq_ok.mp h
    cases h
    have hcommit : r.committed.isSome = true := (Bool.and_eq_true_iff.mp hok).2
    obtain ⟨hinput, hframe', hplaced⟩ := receive_sent hpath hline hsize hoffset hkept hr hcommit
    refine ⟨⟨hrunning, hinput, rfl⟩, fun p hp htemp => ?_, hplaced⟩
    exact (hframe' p hp htemp).trans (hframe p htemp)

/-- The session so far: what was asked for is in place, and nothing else has changed. -/
structure Pulled (blake3 : Bytes → Oid) (disk : Disk) (done : List (Bytes × InvValue)) (s : Session SenderState) :
    Prop where
  agreed : Agreed s
  placed : ∀ e ∈ done, Requested disk e → Placed blake3 s.disk e
  frame : ∀ p, (∀ e ∈ done, Requested disk e → p ≠ e.1 ∧ p ≠ tempPath e.1) → s.disk.get? p = disk.get? p

section
variable {link : Link SenderState} {remoteDisk disk : Disk} {done : List (Bytes × InvValue)}
  {s s' : Session SenderState} {entry : Bytes × InvValue}

theorem Pulled.step (hpeer : link.peer = sender remoteDisk) (h : Pulled link.blake3 disk done s)
    (hentry : (getLocalInventory remoteDisk).get? entry.1 = some entry.2)
    (hsizes : ∀ p c, remoteDisk.get? p = some c → c.length < 2 ^ 64)
    (hline : Requested disk entry → newline ∉ entry.1)
    (hapart : ∀ e ∈ done, e.1 ≠ entry.1 ∧ (Requested disk entry → e.1 ≠ tempPath entry.1))
    (hstep : syncEntry link (getLocalInventory disk) s entry = .ok s') (hok : s'.allOk = true) :
    Pulled link.blake3 disk (done ++ [entry]) s' := by
  by_cases hreq : Requested disk entry
  · -- The entry comes from a file of the remote side.
    obtain ⟨path, value⟩ := entry
    rw [getLocalInventory, FinMap.get?_mapKV, Option.map_eq_some_iff] at hentry
    obtain ⟨content, hget, hv⟩ := hentry
    dsimp only at hget hv
    subst hv
    rw [FinMap.get?_filterKeys] at hget
    split at hget
    · next hunder =>
      have hpath : path ≠ [] := by
        rintro rfl
        revert hunder
        decide
      obtain ⟨hagreed, hframe, hplaced⟩ := syncEntry_honest hpeer hget hpath (hline hreq) (hsizes path content hget)
        h.agreed hreq hstep hok
      refine ⟨hagreed, ?_, ?_⟩
      · intro e he hreqe
        rcases List.mem_append.mp he with he | he
        · obtain ⟨c, hc, hrest⟩ := h.placed e he hreqe
          exact ⟨c, (hframe e.1 (hapart e he).1 ((hapart e he).2 hreq)).trans hc, hrest⟩
        · cases List.mem_singleton.mp he
          exact hplaced
      · intro p hp
        have hnew := hp _ (List.mem_append_right _ (List.mem_singleton_self _)) hreq
        rw [hframe p hnew.1 hnew.2]
        exact h.frame p fun e he => hp e (List.mem_append_left _ he)
    · cases hget
  · have hsame : s' = s := by
      unfold syncEntry at hstep
      rw [if_pos (Or.inr (not_not.mp hreq))] at hstep
      exact (Except.ok.inj hstep).symm
    subst hsame
    refine ⟨h.agreed, ?_, ?_⟩
    · intro e he hreqe
      rcases List.mem_append.mp he with he | he
      · exact h.placed e he hreqe
      · cases List.mem_singleton.mp he
        exact absurd hreqe hreq
    · exact fun p hp => h.frame p fun e he => hp e (List.mem_append_left _ he)

end

/-- Every entry of a walk in turn. -/
theorem Pulled.run {link : Link SenderState} {remoteDisk disk : Disk} {entries : List (Bytes × InvValue)}
    (hpeer : link.peer = sender remoteDisk) (hsizes : ∀ p c, remoteDisk.get? p = some c → c.length < 2 ^ 64) :
    ∀ {done : List (Bytes × InvValue)} {s s' : Session SenderState}, Pulled link.blake3 disk done s →
      (∀ e ∈ entries, (getLocalInventory remoteDisk).get? e.1 = some e.2) →
      (∀ e ∈ entries, Requested disk e → newline ∉ e.1) →
      (done ++ entries).Pairwise (fun a b => a.1 ≠ b.1) →
      (∀ e ∈ done ++ entries, Requested disk e → ∀ f ∈ done ++ entries, f.1 ≠ tempPath e.1) →
      syncEntries link (getLocalInventory disk) entries s = .ok s' → s'.allOk = true →
      Pulled link.blake3 disk (done ++ entries) s' := by
  induction entries with
  | nil =>
    intro done s s' h _ _ _ _ hrun _
    cases hrun
    rw [List.append_nil]
    exact h
  | cons entry rest ih =>
    intro done s s' h hentries hlines hdistinct htemps hrun hok
    obtain ⟨t, ht, hrun⟩ := bind_eq_ok.mp hrun
    have hmono : t.allOk = true := syncEntries_allOk hrun hok
    have hsplit : done ++ entry :: rest = (done ++ [entry]) ++ rest := by simp
    have hmem : entry ∈ done ++ entry :: rest := List.mem_append_right _ List.mem_cons_self
    have hstep := h.step hpeer (hentries entry List.mem_cons_self) hsizes (hlines entry List.mem_cons_self)
      (fun e he => ⟨(List.pairwise_append.mp hdistinct).2.2 e he entry List.mem_cons_self,
        fun hreq => htemps entry hmem hreq e (List.mem_append_left _ he)⟩) ht hmono
    rw [hsplit] at hdistinct htemps ⊢
    exact ih hstep (fun e he => hentries e (List.mem_cons_of_mem _ he)) (fun e he => hlines e (List.mem_cons_of_mem _ he))
      hdistinct htemps hrun hok

/-- Where the local side has a value already, it has the file. -/
theorem fits_of_not_requested {disk : Disk} {e : Bytes × InvValue} (h : ¬ Requested disk e) :
    ∃ c, disk.get? e.1 = some c ∧ Fits e.2 c := by
  have hget := not_not.mp h
  rw [getLocalInventory, FinMap.get?_mapKV, Option.map_eq_some_iff] at hget
  obtain ⟨c, hc, hv⟩ := hget
  rw [FinMap.get?_filterKeys] at hc
  split at hc
  · refine ⟨c, hc, ?_⟩
    rw [← hv]
    exact fits_inventoryValue e.1 c
  · cases hc

def honest (disk : Disk) : Link SenderState where
  blake3 := fun _ => zeroOid
  peer := sender disk
  sends := fun _ => true
  opens := fun _ => true
  renames := fun _ => true

def smallDisk : Disk := (FinMap.empty.insert objectPath objectFile).insert refPath (text "tip\n")

/-- An interrupted transfer of the object, and a file that is not the remote's. -/
def interrupted : Disk :=
  (FinMap.empty.insert (tempPath objectPath) (objectFile.take 7)).insert (text ".synapsefs/refs/heads/mine") [1]

theorem mem_of_entries {inv : Inventory} {disk : Disk} (h : (getLocalInventory disk).entries = inv.entries)
    (p : Bytes) (v : InvValue) : (p, v) ∈ inv.entries ↔ (getLocalInventory disk).get? p = some v := by
  rw [FinMap.get?_eq_some, h]

theorem small_entries : (getLocalInventory smallDisk).entries = smallRemote.entries := by decide +kernel

theorem small_sizes (p c : Bytes) (h : smallDisk.get? p = some c) : c.length < 2 ^ 64 := by
  have hall : ∀ e ∈ smallDisk.entries, e.2.length < 2 ^ 64 := by decide +kernel
  exact hall (p, c) (FinMap.get?_eq_some.mp h)

/-- How a session ended: its answer, and a file. -/
def endOf (o : Outcome (Session SenderState)) (p : Bytes) : Option (Bool × Option Bytes) :=
  o.toOption.map fun s => (s.allOk, s.disk.get? p)

theorem endOf_eq_some {o : Outcome (Session SenderState)} {p : Bytes} {x : Bool × Option Bytes}
    (h : endOf o p = some x) : ∃ s, o = .ok s ∧ s.allOk = x.1 ∧ s.disk.get? p = x.2 := by
  cases o with
  | error f => cases h
  | ok s =>
    have h : (s.allOk, s.disk.get? p) = x := Option.some.inj h
    exact ⟨s, rfl, by rw [← h], by rw [← h]⟩

/-- The object is there with the right size and other bytes: it is not asked for. -/
def corrupted : Disk := FinMap.empty.insert objectPath (List.replicate objectFile.length 0)

end SynapseFs.Net
