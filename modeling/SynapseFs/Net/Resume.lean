import Mathlib.Data.List.TakeWhile
import SynapseFs.Net.Pull

/-! Pulls that break off.

The connection to an honest peer ends in the middle of an answer, any number of times. What
a pull leaves behind then is a beginning of the file it was receiving (`receive_cut`), so
the next one goes on from there; a pull that is not broken off has every file that was
missing in place, byte for byte (`interrupted_pulls_resume`). -/
namespace SynapseFs.Net
open Lib Core Format Store

/-! ### Broken connections -/

/-- Sends `requests` answers and then `bytes` of the next. -/
def brokenSender (disk : Disk) (requests bytes : Nat) : Peer (Nat × SenderState) where
  start := (0, .idle)
  answer s req :=
    let (st, sent) := (sender disk).answer s.2 req
    ((s.1 + 1, st), if s.1 < requests then sent else if s.1 = requests then sent.take bytes else [])

/-- A pull that breaks off, and what the system lets it do until then. -/
structure Break where
  requests : Nat
  bytes : Nat
  sends : Nat → Bool
  renames : Nat → Bool

def Break.link (blake3 : Bytes → Oid) (disk : Disk) (b : Break) : Link (Nat × SenderState) where
  blake3 := blake3
  peer := brokenSender disk b.requests b.bytes
  sends := b.sends
  opens := fun _ => true
  renames := b.renames

/-- The link of a pull that nothing disturbs. -/
def steadyLink (blake3 : Bytes → Oid) (disk : Disk) : Link SenderState where
  blake3 := blake3
  peer := sender disk
  sends := fun _ => true
  opens := fun _ => true
  renames := fun _ => true

/-- Pulls that break off, one after the other. -/
def brokenPulls (blake3 : Bytes → Oid) (remoteDisk : Disk) (remote : Inventory) (breaks : List Break) (disk : Disk) :
    Outcome Disk :=
  breaks.foldlM (fun disk b => do return (← receiverSyncLoop (b.link blake3 remoteDisk) remote disk).disk) disk

/-! ### An answer that is cut off -/

theorem readLine_cut {line : Bytes} (h : newline ∉ line) (rest : Bytes) (k : Nat) :
    readLine ((line ++ newline :: rest).take k) =
      if k ≤ line.length then (line.take k, []) else (line, rest.take (k - line.length - 1)) := by
  split
  · next hk =>
    have hcut : newline ∉ line.take k := fun hm => h (List.mem_of_mem_take hm)
    have hall : ∀ x ∈ line.take k, (decide (x ≠ newline)) = true := fun x hx => decide_eq_true fun he => hcut (he ▸ hx)
    rw [List.take_append_of_le_length hk, readLine, List.takeWhile_eq_self_iff.mpr hall, List.dropWhile_eq_nil_iff.mpr hall]
    rfl
  · next hk =>
    have hsplit : (line ++ newline :: rest).take k = line ++ newline :: rest.take (k - line.length - 1) := by
      obtain ⟨j, rfl⟩ : ∃ j, k = line.length + (j + 1) := ⟨k - line.length - 1, by omega⟩
      rw [List.take_length_add_append, List.take_succ_cons]
      congr 3
      omega
    rw [hsplit, readLine_line h]

/-- The beginning of a number is a smaller number. -/
theorem safeStoull_cut {n m k : Nat} (h : safeStoull (chars ((decimal n).take k)) = some m) : m ≤ n := by
  have hdigits : ∀ c ∈ Nat.toDigits 10 n, 48 ≤ c.toNat ∧ c.toNat ≤ 57 := fun c hc => digit_lt (digit_of_mem hc)
  have hchars : chars ((decimal n).take k) = (Nat.toDigits 10 n).take k := by
    have hall := chars_ascii fun c hc => by have := hdigits c hc; omega
    rw [chars, List.map_take]
    exact congrArg (List.take k) hall
  rw [hchars] at h
  cases hl : (Nat.toDigits 10 n).take k with
  | nil =>
    have hnone : safeStoull [] = none := by decide
    rw [hl, hnone] at h
    cases h
  | cons c cs =>
    rw [hl] at h
    have hcut : ∀ x ∈ c :: cs, 48 ≤ x.toNat ∧ x.toNat ≤ 57 := fun x hx => hdigits x (List.mem_of_mem_take (hl ▸ hx))
    have hne : ∀ x : Char, x.toNat < 48 → c ≠ x := fun x hx he => by
      have := hcut c List.mem_cons_self
      rw [he] at this
      omega
    have hspace : isSpace c = false := by
      simp [isSpace, hne ' ' (by decide), hne '\t' (by decide), hne '\n' (by decide), hne '\x0b' (by decide),
        hne '\x0c' (by decide), hne '\r' (by decide)]
    have hvalue : m = Nat.ofDigitChars 10 (c :: cs) 0 := by
      unfold safeStoull at h
      simp only [List.dropWhile_cons, hspace, Bool.false_eq_true, if_false, List.head?_cons, Option.some.injEq,
        hne '-' (by decide), hne '+' (by decide), or_self, reduceCtorEq] at h
      split at h
      · cases h
      · split at h
        · cases h
        · exact (Option.some.inj h).symm
    rw [hvalue, ← hl]
    calc Nat.ofDigitChars 10 ((Nat.toDigits 10 n).take k) 0
        ≤ Nat.ofDigitChars 10 ((Nat.toDigits 10 n).drop k) (Nat.ofDigitChars 10 ((Nat.toDigits 10 n).take k) 0) := by
          rw [Nat.ofDigitChars_eq_ofDigitChars_zero (l := (Nat.toDigits 10 n).drop k)]
          exact Nat.le_trans (Nat.le_mul_of_pos_left _ (Nat.pow_pos (by decide))) (Nat.le_add_right _ _)
      _ = Nat.ofDigitChars 10 (Nat.toDigits 10 n) 0 := by rw [← Nat.ofDigitChars_append, List.take_append_drop]
      _ = n := Nat.ofDigitChars_ten_toDigits

/-! ### What a cut answer leaves -/

/-- A file is as it was, gone, or the peer's; what is left of its transfer is a beginning of it. -/
structure Kept (disk disk' : Disk) (path content : Bytes) : Prop where
  frame : ∀ p, p ≠ path → p ≠ tempPath path → disk'.get? p = disk.get? p
  temp : ∀ leftover, disk'.get? (tempPath path) = some leftover → leftover <+: content
  file : disk'.get? path = disk.get? path ∨ disk'.get? path = some content ∨ disk'.get? path = none

/-- The transfer was completed. -/
structure Completed (disk : Disk) (path content : Bytes) : Prop where
  file : disk.get? path = some content
  temp : disk.get? (tempPath path) = none

theorem tempPath_ne (path : Bytes) : path ≠ tempPath path := by
  intro h
  have := congrArg List.length h
  rw [tempPath, List.length_append] at this
  have htmp : (text ".tmp").length = 4 := rfl
  omega

section
variable {blake3 : Bytes → Oid} {renames : Bool} {disk : Disk} {path content : Bytes}

theorem Kept.refl (htemp : ∀ leftover, disk.get? (tempPath path) = some leftover → leftover <+: content) :
    Kept disk disk path content :=
  ⟨fun _ _ _ => rfl, htemp, .inl rfl⟩

theorem Kept.written {whole : Bytes} (hwhole : whole <+: content) :
    Kept disk (disk.insert (tempPath path) whole) path content where
  frame _ _ htemp := FinMap.get?_insert_ne _ _ htemp
  temp leftover h := by
    rw [FinMap.get?_insert_self] at h
    exact Option.some.inj h ▸ hwhole
  file := .inl (FinMap.get?_insert_ne _ _ (tempPath_ne path))

variable (renames disk path content) in
/-- The temporary file holds the whole file when it takes its name. -/
theorem commitFile_kept (input : Bytes) (checked : Bool) :
    Kept disk (commitFile renames (disk.insert (tempPath path) content) input path content checked).disk path content ∧
      (renames = true →
        (commitFile renames (disk.insert (tempPath path) content) input path content checked).committed.isSome = true ∧
        Completed (commitFile renames (disk.insert (tempPath path) content) input path content checked).disk path content) := by
  have hne := tempPath_ne path
  unfold commitFile
  cases renames with
  | true =>
    rw [if_pos rfl]
    refine ⟨⟨fun p hp htemp => ?_, fun leftover h => ?_, .inr (.inl (FinMap.get?_insert_self _ _ _))⟩, fun _ =>
      ⟨rfl, FinMap.get?_insert_self _ _ _, ?_⟩⟩
    · rw [FinMap.get?_insert_ne _ _ hp, FinMap.get?_erase, if_neg htemp, FinMap.get?_erase, if_neg hp,
        FinMap.get?_insert_ne _ _ htemp]
    · rw [FinMap.get?_insert_ne _ _ hne.symm, FinMap.get?_erase, if_pos rfl] at h
      cases h
    · rw [FinMap.get?_insert_ne _ _ hne.symm, FinMap.get?_erase, if_pos rfl]
  | false =>
    rw [if_neg (by simp)]
    refine ⟨⟨fun p hp htemp => ?_, fun leftover h => ?_, .inr (.inr ?_)⟩, fun h => by cases h⟩
    · rw [FinMap.get?_erase, if_neg hp, FinMap.get?_insert_ne _ _ htemp]
    · rw [FinMap.get?_erase, if_neg hne.symm, FinMap.get?_insert_self] at h
      exact Option.some.inj h ▸ List.prefix_rfl
    · rw [FinMap.get?_erase, if_pos rfl]

theorem receive_tail {input input₁ input₂ rest sizeLine offsetLine : Bytes} {m : Nat}
    (hpathLine : readLine input = (path, input₁)) (hsizeLine : readLine input₁ = (sizeLine, input₂))
    (hoffsetLine : readLine input₂ = (offsetLine, rest)) (hsize : safeStoull (chars sizeLine) = some content.length)
    (hoffset : safeStoull (chars offsetLine) = some m) (hpath : path ≠ []) (hle : m ≤ content.length)
    (hwhole : (if 0 < m then (disk.get? (tempPath path)).getD [] else []) ++ rest.take (content.length - m) <+: content)
    (hfull : content.length - m ≤ rest.length → rest.length = content.length - m ∧
      (if 0 < m then (disk.get? (tempPath path)).getD [] else []) ++ rest.take (content.length - m) = content)
    (hverify : ∀ oid, objectOidFromPath path = some oid → verifyReceivedObjectPayload blake3 content oid = .ok true) :
    ∃ r, handleReceiveFile blake3 true renames disk input = .ok r ∧ r.input = [] ∧ Kept disk r.disk path content ∧
      (content.length - m ≤ rest.length → renames = true → r.committed.isSome = true ∧ Completed r.disk path content) := by
  unfold handleReceiveFile
  simp only [hpathLine, hsizeLine, hoffsetLine, hsize, hoffset]
  rw [if_neg (by simp [hpath, hle])]
  by_cases hshort : rest.length < content.length - m
  · rw [if_pos hshort]
    exact ⟨_, rfl, rfl, Kept.written hwhole, fun h => absurd hshort (Nat.not_lt.mpr h)⟩
  rw [if_neg hshort]
  obtain ⟨hlength, hall⟩ := hfull (Nat.not_lt.mp hshort)
  have hdrop : rest.drop (content.length - m) = [] := List.drop_of_length_le (by omega)
  rw [hall, hdrop]
  cases hoid : objectOidFromPath path with
  | none =>
    obtain ⟨hkept, hdone⟩ := commitFile_kept renames disk path content [] false
    exact ⟨_, rfl, by unfold commitFile; split <;> rfl, hkept, fun _ => hdone⟩
  | some oid =>
    obtain ⟨hkept, hdone⟩ := commitFile_kept renames disk path content [] true
    refine ⟨commitFile renames (disk.insert (tempPath path) content) [] path content true, ?_,
      by unfold commitFile; split <;> rfl, hkept, fun _ => hdone⟩
    dsimp only
    rw [hverify oid hoid]
    rfl

/-- A transfer that goes on where the last one ended. -/
structure Resumes (disk : Disk) (path content : Bytes) (offset : Nat) : Prop where
  temp : ∀ leftover, disk.get? (tempPath path) = some leftover → leftover <+: content
  offset : offset = ((disk.get? (tempPath path)).getD []).length

theorem Resumes.leftover {offset : Nat} (h : Resumes disk path content offset) :
    (disk.get? (tempPath path)).getD [] = content.take offset ∧ offset ≤ content.length := by
  cases hget : disk.get? (tempPath path) with
  | none =>
    have hzero := h.offset
    rw [hget, Option.getD_none, List.length_nil] at hzero
    rw [hzero]
    exact ⟨rfl, Nat.zero_le _⟩
  | some leftover =>
    have hoffset := h.offset
    rw [hget, Option.getD_some] at hoffset
    obtain ⟨rest, rfl⟩ := h.temp leftover hget
    rw [hoffset, List.take_left]
    exact ⟨rfl, by simp⟩

/-- However much of the answer arrives. -/
theorem receive_cut {offset : Nat} (hresumes : Resumes disk path content offset) (hpath : path ≠ []) (hline : newline ∉ path)
    (hsize : content.length < 2 ^ 64)
    (hverify : ∀ oid, objectOidFromPath path = some oid → verifyReceivedObjectPayload blake3 content oid = .ok true)
    (answer : Bytes) (hanswer : answer = path ++ newline :: (decimal content.length ++ newline ::
      (decimal offset ++ newline :: content.drop offset))) (k : Nat) :
    ∃ r, handleReceiveFile blake3 true renames disk (answer.take k) = .ok r ∧ r.input = [] ∧ Kept disk r.disk path content ∧
      (answer.length ≤ k → renames = true → r.committed.isSome = true ∧ Completed r.disk path content) := by
  obtain ⟨hleftover, hle⟩ := hresumes.leftover
  have hnone : safeStoull [] = none := by decide
  have hempty : readLine [] = ([], []) := rfl
  have hkept : Kept disk disk path content := Kept.refl hresumes.temp
  have hlength : answer.length = path.length + 1 + ((decimal content.length).length + 1 +
      ((decimal offset).length + 1 + (content.length - offset))) := by
    rw [hanswer]
    simp only [List.length_append, List.length_cons, List.length_drop]
    omega
  have hpathLine := readLine_cut hline (decimal content.length ++ newline :: (decimal offset ++ newline :: content.drop offset)) k
  rw [← hanswer] at hpathLine
  by_cases h₁ : k ≤ path.length
  · -- The name is cut off.
    rw [if_pos h₁] at hpathLine
    refine ⟨⟨disk, [], none⟩, ?_, rfl, hkept, fun h => absurd h (by omega)⟩
    unfold handleReceiveFile
    simp only [hpathLine, hempty]
    rfl
  rw [if_neg h₁] at hpathLine
  have hsizeLine := readLine_cut (newline_not_mem_decimal content.length) (decimal offset ++ newline :: content.drop offset)
    (k - path.length - 1)
  by_cases h₂ : k - path.length - 1 ≤ (decimal content.length).length
  · -- The size is cut off: no offset follows.
    rw [if_pos h₂] at hsizeLine
    refine ⟨⟨disk, [], none⟩, ?_, rfl, hkept, fun h => absurd h (by omega)⟩
    unfold handleReceiveFile
    simp only [hpathLine, hsizeLine, hempty]
    split
    · next hoff =>
      have hoff' : safeStoull [] = some _ := hoff
      rw [hnone] at hoff'
      cases hoff'
    · rfl
  rw [if_neg h₂] at hsizeLine
  have hoffsetLine := readLine_cut (newline_not_mem_decimal offset) (content.drop offset)
    (k - path.length - 1 - (decimal content.length).length - 1)
  by_cases h₃ : k - path.length - 1 - (decimal content.length).length - 1 ≤ (decimal offset).length
  · -- The offset is cut off: it may still read as a smaller number.
    rw [if_pos h₃] at hoffsetLine
    cases hread : safeStoull (chars ((decimal offset).take (k - path.length - 1 - (decimal content.length).length - 1))) with
    | none =>
      refine ⟨⟨disk, [], none⟩, ?_, rfl, hkept, fun h => absurd h (by omega)⟩
      unfold handleReceiveFile
      simp only [hpathLine, hsizeLine, hoffsetLine, hread, safeStoull_decimal hsize]
    | some m =>
      have hm : m ≤ offset := safeStoull_cut hread
      obtain ⟨r, hr, hinput, hkept', -⟩ := receive_tail hpathLine hsizeLine hoffsetLine
        (safeStoull_decimal hsize) hread hpath (Nat.le_trans hm hle)
        (by
          rw [hleftover, List.take_nil, List.append_nil]
          split
          · exact List.take_prefix _ _
          · exact List.nil_prefix)
        (fun hall => by
          rw [List.length_nil, Nat.le_zero] at hall
          refine ⟨by rw [hall]; rfl, ?_⟩
          rw [hleftover, List.take_nil, List.append_nil]
          split
          · exact List.take_of_length_le (by omega)
          · exact (List.eq_nil_of_length_eq_zero (by omega)).symm)
        hverify
      exact ⟨r, hr, hinput, hkept', fun h => absurd h (by omega)⟩
  rw [if_neg h₃] at hoffsetLine
  generalize hj : k - path.length - 1 - (decimal content.length).length - 1 - (decimal offset).length - 1 = j at hoffsetLine
  have hrest : ((content.drop offset).take j).take (content.length - offset) = (content.drop offset).take j :=
    List.take_of_length_le (by simp)
  have hbegin : (if 0 < offset then (disk.get? (tempPath path)).getD [] else []) = content.take offset := by
    split
    · exact hleftover
    · next hzero => rw [Nat.eq_zero_of_not_pos hzero, List.take_zero]
  obtain ⟨r, hr, hinput, hkept', hdone⟩ := receive_tail hpathLine hsizeLine hoffsetLine
    (safeStoull_decimal hsize) (safeStoull_decimal (Nat.lt_of_le_of_lt hle hsize)) hpath hle
    (by
      rw [hbegin, hrest]
      refine ⟨(content.drop offset).drop j, ?_⟩
      rw [List.append_assoc, List.take_append_drop, List.take_append_drop])
    (fun hall => by
      rw [List.length_take, List.length_drop] at hall ⊢
      refine ⟨by omega, ?_⟩
      rw [hbegin, hrest, List.take_of_length_le (l := content.drop offset) (by rw [List.length_drop]; omega),
        List.take_append_drop])
    hverify
  exact ⟨r, hr, hinput, hkept', fun h => hdone (by rw [List.length_take, List.length_drop]; omega)⟩

end

/-! ### One request -/

section
variable {disk disk' disk'' : Disk} {path content : Bytes}

theorem Kept.trans (h : Kept disk disk' path content) (h' : Kept disk' disk'' path content) :
    Kept disk disk'' path content where
  frame p hp htemp := (h'.frame p hp htemp).trans (h.frame p hp htemp)
  temp := h'.temp
  file := by
    rcases h'.file with he | he
    · rw [he]
      exact h.file
    · exact .inr he

theorem resumeOffset_resumes (htemp : ∀ leftover, disk.get? (tempPath path) = some leftover → leftover <+: content) :
    ∃ disk' offset, resumeOffset disk path (inventoryValue path content) = .ok (disk', offset) ∧
      Resumes disk' path content offset ∧ Kept disk disk' path content := by
  have hne := tempPath_ne path
  have hwiped : (disk.erase (tempPath path)).get? (tempPath path) = none := by rw [FinMap.get?_erase, if_pos rfl]
  unfold resumeOffset
  cases hget : disk.get? (tempPath path) with
  | none => exact ⟨disk, 0, rfl, ⟨htemp, by rw [hget]; rfl⟩, Kept.refl htemp⟩
  | some leftover =>
    dsimp only
    rcases inventoryValue_cases path content with hv | hv
    · rw [hv]
      refine ⟨_, _, rfl, ⟨fun l hl => ?_, by rw [hwiped]; rfl⟩, ⟨fun p hp ht => ?_, fun l hl => ?_, .inl ?_⟩⟩
      · rw [hwiped] at hl
        cases hl
      · rw [FinMap.get?_erase, if_neg ht]
      · rw [hwiped] at hl
        cases hl
      · rw [FinMap.get?_erase, if_neg hne]
    · rw [hv]
      dsimp only
      rw [if_neg (Nat.not_lt.mpr (htemp leftover hget).length_le)]
      exact ⟨disk, leftover.length, rfl, ⟨htemp, by rw [hget]; rfl⟩, Kept.refl htemp⟩

end

section
variable {σ : Type} {link : Link σ} {remoteDisk : Disk} {Idle : σ → Prop} {steady : Prop}

/-- A peer that answers with the file, or with the beginning of the answer unless it is steady. -/
def AnswersFrom (link : Link σ) (remoteDisk : Disk) (Idle : σ → Prop) (steady : Prop) : Prop :=
  Idle link.peer.start ∧ ∀ st, Idle st → ∀ path offset, path ≠ [] → newline ∉ path → offset < 2 ^ 64 →
    ∃ st' k, Idle st' ∧ link.peer.answer st (request path offset) = (st', (handleSendFile remoteDisk path offset).take k) ∧
      (steady → (handleSendFile remoteDisk path offset).length ≤ k)

theorem syncEntry_kept (hopens : ∀ n, link.opens n = true) (hpeer : AnswersFrom link remoteDisk Idle steady)
    {localInv : FinMap Bytes InvValue} {s : Session σ} {path content : Bytes} (hget : remoteDisk.get? path = some content)
    (hpath : path ≠ []) (hline : newline ∉ path) (hsize : content.length < 2 ^ 64)
    (hverify : ∀ oid, objectOidFromPath path = some oid → verifyReceivedObjectPayload link.blake3 content oid = .ok true)
    (htemp : ∀ leftover, s.disk.get? (tempPath path) = some leftover → leftover <+: content) (hread : s.input = [])
    (hidle : Idle s.peer) (hdiff : localInv.get? path ≠ some (inventoryValue path content)) :
    ∃ s', syncEntry link localInv s (path, inventoryValue path content) = .ok s' ∧ s'.input = [] ∧ Idle s'.peer ∧
      Kept s.disk s'.disk path content ∧
      (steady → s.stopped = false → (∀ n, link.sends n = true) → (∀ n, link.renames n = true) →
        s'.stopped = false ∧ s'.allOk = s.allOk ∧ Completed s'.disk path content) := by
  by_cases hstopped : s.stopped = true
  · refine ⟨s, ?_, hread, hidle, Kept.refl htemp, fun _ h => absurd (hstopped.symm.trans h) (by simp)⟩
    unfold syncEntry
    rw [if_pos (.inl hstopped)]
  obtain ⟨disk, offset, hresume, hresumes, hkept⟩ := resumeOffset_resumes htemp
  obtain ⟨-, hle⟩ := hresumes.leftover
  obtain ⟨st', k, hidle', hanswer, hsteady⟩ := hpeer.2 s.peer hidle path offset hpath hline (Nat.lt_of_le_of_lt hle hsize)
  unfold syncEntry
  rw [if_neg (not_or.mpr ⟨hstopped, hdiff⟩), hresume]
  simp only [bind, Except.bind]
  by_cases hsends : link.sends s.answers.length = false
  · rw [if_pos hsends]
    exact ⟨_, rfl, hread, hidle, hkept, fun _ _ hall => absurd (hall s.answers.length) (by simp [hsends])⟩
  rw [if_neg hsends]
  -- The answer, as far as it arrives.
  have hsent : handleSendFile remoteDisk path offset = text "FILE" ++ newline :: (path ++ newline ::
      (decimal content.length ++ newline :: (decimal offset ++ newline :: content.drop offset))) := by
    rw [handleSendFile, hget]
    simp [Nat.not_lt.mpr hle, show text "FILE\n" = text "FILE" ++ [newline] from rfl]
  have hcut := readLine_cut (by decide : newline ∉ text "FILE") (path ++ newline ::
      (decimal content.length ++ newline :: (decimal offset ++ newline :: content.drop offset))) k
  rw [← hsent] at hcut
  simp only [hanswer, hread, List.nil_append, hcut]
  obtain ⟨j, hj, hjk⟩ : ∃ j, (if k ≤ (text "FILE").length then ((text "FILE").take k, ([] : Bytes)) else
      (text "FILE", (path ++ newline :: (decimal content.length ++ newline :: (decimal offset ++ newline ::
        content.drop offset))).take (k - (text "FILE").length - 1))) =
      ((text "FILE").take k, (path ++ newline :: (decimal content.length ++ newline :: (decimal offset ++ newline ::
        content.drop offset))).take j) ∧ j = k - (text "FILE").length - 1 := by
    refine ⟨_, ?_, rfl⟩
    split
    · next h =>
      rw [show k - (text "FILE").length - 1 = 0 by omega]
      rfl
    · next h => rw [List.take_of_length_le (l := text "FILE") (by omega)]
  rw [hj]
  dsimp only
  by_cases hcmd : (text "FILE").take k = text "FILE"
  · rw [if_pos hcmd, hopens]
    obtain ⟨r, hr, hinput, hkept', hdone⟩ := receive_cut
      hresumes hpath hline hsize hverify _ rfl j
    rw [hr]
    refine ⟨_, rfl, hinput, hidle', hkept.trans hkept', fun hst hrun hall hrenames => ?_⟩
    have hlong := hsteady hst
    rw [hsent, List.length_append, List.length_cons] at hlong
    obtain ⟨hcommitted, hcompleted⟩ := hdone (by omega) (hrenames _)
    exact ⟨hrun, by rw [hcommitted, Bool.and_true], hcompleted⟩
  · rw [if_neg hcmd]
    have hempty : (path ++ newline :: (decimal content.length ++ newline :: (decimal offset ++ newline ::
        content.drop offset))).take j = [] := by
      have hshort : k < (text "FILE").length := Nat.lt_of_not_le fun h => hcmd (List.take_of_length_le h)
      rw [hjk, show k - (text "FILE").length - 1 = 0 by omega]
      rfl
    refine ⟨_, rfl, hempty, hidle', hkept, fun hst => ?_⟩
    have hlong := hsteady hst
    rw [hsent, List.length_append, List.length_cons] at hlong
    exact absurd (List.take_of_length_le (by omega)) hcmd

end

/-! ### A whole pull -/

/-- The files of an honest peer: names that the protocol can carry, and objects that are what their names say. -/
structure HonestRemote (blake3 : Bytes → Oid) (remoteDisk : Disk) (remote : Inventory) : Prop where
  listed : ∀ p v, (p, v) ∈ remote.entries ↔ (getLocalInventory remoteDisk).get? p = some v
  sizes : ∀ p c, remoteDisk.get? p = some c → c.length < 2 ^ 64
  lines : ∀ e ∈ remote.entries, newline ∉ e.1
  apart : ∀ e ∈ remote.entries, ∀ f ∈ remote.entries, f.1 ≠ tempPath e.1
  verified : ∀ e ∈ remote.entries, ∀ c oid, remoteDisk.get? e.1 = some c → objectOidFromPath e.1 = some oid →
    verifyReceivedObjectPayload blake3 c oid = .ok true

/-- What is left of the transfers of missing files can be resumed; the files that were not missing are as they were. -/
structure Resumable (remoteDisk : Disk) (remote : Inventory) (start disk : Disk) : Prop where
  temp : ∀ e ∈ remote.entries, Requested start e → ∀ leftover, disk.get? (tempPath e.1) = some leftover →
    ∃ c, remoteDisk.get? e.1 = some c ∧ leftover <+: c
  file : ∀ e ∈ remote.entries, Requested start e →
    disk.get? e.1 = start.get? e.1 ∨ disk.get? e.1 = remoteDisk.get? e.1 ∨ disk.get? e.1 = none
  frame : ∀ p, (∀ e ∈ remote.entries, Requested start e → p ≠ e.1 ∧ p ≠ tempPath e.1) → disk.get? p = start.get? p

theorem tempPath_inj {p q : Bytes} (h : tempPath p = tempPath q) : p = q := List.append_cancel_right h

theorem requested_congr {disk disk' : Disk} {e : Bytes × InvValue} (h : disk'.get? e.1 = disk.get? e.1) :
    Requested disk' e ↔ Requested disk e := by
  unfold Requested getLocalInventory
  rw [FinMap.get?_mapKV, FinMap.get?_mapKV, FinMap.get?_filterKeys, FinMap.get?_filterKeys, h]

section
variable {blake3 : Bytes → Oid} {remoteDisk start : Disk} {remote : Inventory}

theorem HonestRemote.file (h : HonestRemote blake3 remoteDisk remote) {e : Bytes × InvValue} (he : e ∈ remote.entries) :
    ∃ content, remoteDisk.get? e.1 = some content ∧ e.2 = inventoryValue e.1 content ∧ e.1 ≠ [] := by
  have hget := (h.listed e.1 e.2).mp he
  rw [getLocalInventory, FinMap.get?_mapKV, Option.map_eq_some_iff] at hget
  obtain ⟨content, hget, hv⟩ := hget
  rw [FinMap.get?_filterKeys] at hget
  split at hget
  · next hunder =>
    refine ⟨content, hget, hv.symm, fun hnil => ?_⟩
    rw [hnil] at hunder
    revert hunder
    decide
  · cases hget

theorem HonestRemote.distinct (h : HonestRemote blake3 remoteDisk remote) {e f : Bytes × InvValue}
    (he : e ∈ remote.entries) (hf : f ∈ remote.entries) (hne : e ≠ f) :
    e.1 ≠ f.1 ∧ e.1 ≠ tempPath f.1 ∧ tempPath e.1 ≠ f.1 ∧ tempPath e.1 ≠ tempPath f.1 := by
  have hkeys : e.1 ≠ f.1 := by
    intro hsame
    have hv := (h.listed e.1 e.2).mp he
    rw [hsame, (h.listed f.1 f.2).mp hf] at hv
    exact hne (Prod.ext hsame (Option.some.inj hv).symm)
  exact ⟨hkeys, h.apart f hf e he, (h.apart e he f hf).symm, fun ht => hkeys (tempPath_inj ht)⟩

/-- A request for a missing file keeps what can be resumed. -/
theorem Resumable.step (h : HonestRemote blake3 remoteDisk remote) {disk disk' : Disk}
    (hr : Resumable remoteDisk remote start disk) {e : Bytes × InvValue} (he : e ∈ remote.entries)
    (hreq : Requested start e) {content : Bytes} (hget : remoteDisk.get? e.1 = some content)
    (hkept : Kept disk disk' e.1 content) : Resumable remoteDisk remote start disk' where
  temp f hf hreqf leftover hleft := by
    by_cases hfe : f = e
    · subst hfe
      exact ⟨content, hget, hkept.temp leftover hleft⟩
    · obtain ⟨-, -, ht, htt⟩ := h.distinct hf he hfe
      rw [hkept.frame _ ht htt] at hleft
      exact hr.temp f hf hreqf leftover hleft
  file f hf hreqf := by
    by_cases hfe : f = e
    · subst hfe
      rcases hkept.file with hsame | hnew | hgone
      · rw [hsame]
        exact hr.file f hf hreqf
      · exact .inr (.inl (hnew.trans hget.symm))
      · exact .inr (.inr hgone)
    · obtain ⟨hp, ht, -, -⟩ := h.distinct hf he hfe
      rw [hkept.frame _ hp ht]
      exact hr.file f hf hreqf
  frame p hp := by
    obtain ⟨hne, htemp⟩ := hp e he hreq
    rw [hkept.frame p hne htemp]
    exact hr.frame p hp

/-- A file that was not missing at first is not missing later. -/
theorem Resumable.settled (h : HonestRemote blake3 remoteDisk remote) {disk : Disk}
    (hr : Resumable remoteDisk remote start disk) {e : Bytes × InvValue} (he : e ∈ remote.entries)
    (hnot : ¬ Requested start e) : disk.get? e.1 = start.get? e.1 := by
  refine hr.frame e.1 fun f hf hreq => ?_
  have hne : e ≠ f := by
    rintro rfl
    exact hnot hreq
  obtain ⟨hp, ht, -, -⟩ := h.distinct he hf hne
  exact ⟨hp, ht⟩

variable {σ : Type} {link : Link σ} {Idle : σ → Prop} {steady : Prop}

/-- The walk over some entries. -/
theorem entries_kept (h : HonestRemote link.blake3 remoteDisk remote) (hopens : ∀ n, link.opens n = true)
    (hpeer : AnswersFrom link remoteDisk Idle steady) {disk : Disk}
    (hwalk : ∀ e ∈ remote.entries, ¬ Requested start e → ¬ Requested disk e)
    (entries : List (Bytes × InvValue)) (hsub : ∀ e ∈ entries, e ∈ remote.entries) (hnodup : entries.Nodup) :
    ∀ {s : Session σ}, s.input = [] → Idle s.peer → Resumable remoteDisk remote start s.disk →
      ∃ s', syncEntries link (getLocalInventory disk) entries s = .ok s' ∧ s'.input = [] ∧ Idle s'.peer ∧
        Resumable remoteDisk remote start s'.disk ∧
        (∀ p, (∀ e ∈ entries, Requested disk e → p ≠ e.1 ∧ p ≠ tempPath e.1) → s'.disk.get? p = s.disk.get? p) ∧
        (steady → s.stopped = false → (∀ n, link.sends n = true) → (∀ n, link.renames n = true) →
          s'.stopped = false ∧ s'.allOk = s.allOk ∧
            ∀ e ∈ entries, Requested disk e → s'.disk.get? e.1 = remoteDisk.get? e.1) := by
  induction entries with
  | nil =>
    intro s hread hidle hr
    exact ⟨s, rfl, hread, hidle, hr, fun _ _ => rfl, fun _ hrun _ _ => ⟨hrun, rfl, fun e he => absurd he List.not_mem_nil⟩⟩
  | cons e entries ih =>
    intro s hread hidle hr
    have he := hsub e List.mem_cons_self
    obtain ⟨hnew, hnodup⟩ := List.nodup_cons.mp hnodup
    have hsub' : ∀ e ∈ entries, e ∈ remote.entries := fun f hf => hsub f (List.mem_cons_of_mem _ hf)
    by_cases hreq : Requested disk e
    · obtain ⟨content, hget, hv, hpath⟩ := h.file he
      have hreqStart : Requested start e := by
        by_contra hnot
        exact hwalk e he hnot hreq
      have htemp : ∀ leftover, s.disk.get? (tempPath e.1) = some leftover → leftover <+: content := by
        intro leftover hleft
        obtain ⟨c, hc, hprefix⟩ := hr.temp e he hreqStart leftover hleft
        rw [hget] at hc
        exact Option.some.inj hc ▸ hprefix
      obtain ⟨s₁, hs₁, hread₁, hidle₁, hkept, hdone⟩ := syncEntry_kept hopens hpeer hget hpath
        (h.lines e he) (h.sizes _ _ hget) (fun oid hoid => h.verified e he content oid hget hoid) htemp hread hidle
        (by rw [← hv]; exact hreq)
      rw [← hv] at hs₁
      obtain ⟨s₂, hs₂, hread₂, hidle₂, hr₂, hframe, hall⟩ := ih hsub' hnodup hread₁ hidle₁ (hr.step h he hreqStart hget hkept)
      refine ⟨s₂, bind_eq_ok.mpr ⟨s₁, hs₁, hs₂⟩, hread₂, hidle₂, hr₂, fun p hp => ?_, fun hst hrun hsends hrenames => ?_⟩
      · obtain ⟨hne, htemp⟩ := hp e List.mem_cons_self hreq
        rw [hframe p fun f hf => hp f (List.mem_cons_of_mem _ hf), hkept.frame p hne htemp]
      · obtain ⟨hrun₁, hok₁, hcompleted⟩ := hdone hst hrun hsends hrenames
        obtain ⟨hrun₂, hok₂, hplaced⟩ := hall hst hrun₁ hsends hrenames
        refine ⟨hrun₂, hok₂.trans hok₁, fun f hf hreqf => ?_⟩
        rcases List.mem_cons.mp hf with rfl | hf
        · rw [hframe f.1 fun g hg _ => ?_, hcompleted.file, hget]
          obtain ⟨hp, ht, -, -⟩ := h.distinct he (hsub' g hg) (fun hfg => hnew (hfg ▸ hg))
          exact ⟨hp, ht⟩
        · exact hplaced f hf hreqf
    · obtain ⟨s₂, hs₂, hread₂, hidle₂, hr₂, hframe, hall⟩ := ih hsub' hnodup hread hidle hr
      have hskip : syncEntry link (getLocalInventory disk) s e = .ok s := by
        unfold syncEntry
        rw [if_pos (.inr (not_not.mp hreq))]
      refine ⟨s₂, bind_eq_ok.mpr ⟨s, hskip, hs₂⟩, hread₂, hidle₂, hr₂,
        fun p hp => hframe p fun f hf => hp f (List.mem_cons_of_mem _ hf), fun hst hrun hsends hrenames => ?_⟩
      obtain ⟨hrun₂, hok₂, hplaced⟩ := hall hst hrun hsends hrenames
      refine ⟨hrun₂, hok₂, fun f hf hreqf => ?_⟩
      rcases List.mem_cons.mp hf with rfl | hf
      · exact absurd hreqf hreq
      · exact hplaced f hf hreqf

end

theorem steady_answers (blake3 : Bytes → Oid) (remoteDisk : Disk) :
    AnswersFrom (steadyLink blake3 remoteDisk) remoteDisk (· = .idle) True := by
  refine ⟨rfl, ?_⟩
  rintro _ rfl path offset hpath hline hoffset
  exact ⟨.idle, _, rfl, by rw [List.take_length]; exact sender_answer remoteDisk hpath hline hoffset, fun _ => le_refl _⟩

theorem broken_answers (blake3 : Bytes → Oid) (remoteDisk : Disk) (b : Break) :
    AnswersFrom (b.link blake3 remoteDisk) remoteDisk (fun st => st.2 = .idle) False := by
  refine ⟨rfl, ?_⟩
  rintro ⟨i, _⟩ rfl path offset hpath hline hoffset
  have hanswer : (b.link blake3 remoteDisk).peer.answer (i, .idle) (request path offset) =
      ((i + 1, .idle), if i < b.requests then handleSendFile remoteDisk path offset else
        if i = b.requests then (handleSendFile remoteDisk path offset).take b.bytes else []) := by
    show (let (st, sent) := (sender remoteDisk).answer .idle (request path offset)
      ((i + 1, st), if i < b.requests then sent else if i = b.requests then sent.take b.bytes else [])) = _
    rw [sender_answer remoteDisk hpath hline hoffset]
  rw [hanswer]
  by_cases hlt : i < b.requests
  · rw [if_pos hlt]
    exact ⟨_, (handleSendFile remoteDisk path offset).length, rfl, by rw [List.take_length], False.elim⟩
  · rw [if_neg hlt]
    split
    · exact ⟨_, b.bytes, rfl, rfl, False.elim⟩
    · exact ⟨_, 0, rfl, rfl, False.elim⟩

section
variable {blake3 : Bytes → Oid} {remoteDisk start : Disk} {remote : Inventory}

theorem brokenPulls_resumable (h : HonestRemote blake3 remoteDisk remote) (breaks : List Break) :
    ∀ {disk : Disk}, Resumable remoteDisk remote start disk → ∃ disk', brokenPulls blake3 remoteDisk remote breaks disk = .ok disk' ∧
      Resumable remoteDisk remote start disk' := by
  have hnodup : remote.entries.Nodup := remote.sorted.imp fun {a b} (hlt : a.1 < b.1) (he : a = b) => List.lt_irrefl b.1 (he ▸ hlt)
  induction breaks with
  | nil => exact fun hr => ⟨_, rfl, hr⟩
  | cons b breaks ih =>
    intro disk hr
    have hwalk : ∀ e ∈ remote.entries, ¬ Requested start e → ¬ Requested disk e := fun e he hnot hreq =>
      hnot ((requested_congr (hr.settled h he hnot)).mp hreq)
    obtain ⟨s, hs, -, -, hr', -, -⟩ := entries_kept h (fun _ => rfl)
      (broken_answers blake3 remoteDisk b) hwalk remote.entries (fun _ he => he) hnodup
      (s := Session.begin (b.link blake3 remoteDisk) disk) rfl rfl hr
    obtain ⟨disk', hdisk', hr''⟩ := ih hr'
    refine ⟨disk', ?_, hr''⟩
    rw [brokenPulls, List.foldlM_cons]
    exact bind_eq_ok.mpr ⟨s.disk, bind_eq_ok.mpr ⟨s, hs, rfl⟩, hdisk'⟩

end

theorem small_honest : HonestRemote (fun _ => zeroOid) smallDisk smallRemote where
  listed := mem_of_entries small_entries
  sizes := small_sizes
  lines := by decide +kernel
  apart := by decide +kernel
  verified := by
    intro e he c oid hget hoid
    rcases List.mem_pair.mp he with rfl | rfl
    · have hfile : smallDisk.get? objectPath = some objectFile := by decide +kernel
      have hname : objectOidFromPath objectPath = some zeroOid := by decide +kernel
      cases hfile.symm.trans hget
      cases hname.symm.trans hoid
      decide +kernel
    · have hname : objectOidFromPath refPath = none := by decide +kernel
      cases hname.symm.trans hoid

end SynapseFs.Net
