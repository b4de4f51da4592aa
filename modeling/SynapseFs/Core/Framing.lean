import SynapseFs.Core.Oid

/-! The frame of an object's address, as it is written and as it is hashed.

`write_frame_prefix` prints into a buffer of 40 bytes and copies into another one,
and reports 0 where a text does not fit. For every kind and every 64-bit length it
does fit (`length_frameText`), so `Hasher` feeds BLAKE3 the whole frame, however the
payload is cut (`fed_updates`); and a frame is read in one way only (`framed_inj`),
because neither a tag nor a number has a blank or a NUL in it. -/
namespace SynapseFs.Core
open Lib

/-! ### Printing -/

/-- `"synapsefs." <kind> " " <decimal len>`. -/
def frameText (kind : ObjectKind) (len : Nat) : List Char :=
  "synapsefs.".toList ++ kind.tag.toList ++ [' '] ++ Nat.toDigits 10 len

/-- `snprintf`: as much of the text as leaves room for the NUL, and the length of all of it. -/
def snprintf (size : Nat) (text : List Char) : Bytes × Nat := (ascii (text.take (size - 1)) ++ [0], text.length)

/-- What `out` holds afterwards, and the number of bytes written. -/
def writeFramePrefix (kind : ObjectKind) (len : Nat) (out : Bytes) : Bytes × Nat :=
  let (buf, n) := snprintf 40 (frameText kind len)
  let total := n + 1
  if out.length < total then (out, 0)
  else (overwrite (overwrite out 0 (buf.take n)) n [0], total)

/-- The bytes that an address is the hash of. -/
def framed (kind : ObjectKind) (payload : Bytes) : Bytes := ascii (frameText kind payload.length) ++ 0 :: payload

/-! ### Hashing in pieces -/

/-- The state of BLAKE3 is what it has been given since it was initialized. -/
structure Hasher where
  fed : Bytes

namespace Hasher

def new : Hasher := ⟨[]⟩

/-- `stack` is what the buffer on the stack holds before anything is written to it. -/
def beginFrame (_ : Hasher) (stack : Bytes) (kind : ObjectKind) (payloadLen : Nat) : Hasher :=
  let (buf, n) := writeFramePrefix kind payloadLen stack
  ⟨buf.take n⟩

def update (h : Hasher) (data : Bytes) : Hasher := ⟨h.fed ++ data⟩

def finish (blake3 : Bytes → Oid) (h : Hasher) : Oid := blake3 h.fed

/-- `compute_oid`, up to `finish`. -/
def ofPayload (stack : Bytes) (kind : ObjectKind) (payload : Bytes) : Hasher :=
  (new.beginFrame stack kind payload.length).update payload

theorem fed_foldl_update (pieces : List Bytes) : ∀ h : Hasher, (pieces.foldl update h).fed = h.fed ++ pieces.flatten := by
  induction pieces with
  | nil =>
    intro h
    simp
  | cons piece rest ih =>
    intro h
    rw [List.foldl_cons, ih, List.flatten_cons, update, List.append_assoc]

end Hasher

/-! ### What fits -/

theorem length_tag (kind : ObjectKind) : kind.tag.toList.length ≤ 8 := by
  cases kind <;> decide

/-- The buffer is as long as the longest tag with the longest number. -/
theorem length_frameText (kind : ObjectKind) {len : Nat} (hlen : len < 2 ^ 64) : (frameText kind len).length ≤ 39 := by
  have htag := length_tag kind
  have hdigits : (Nat.toDigits 10 len).length ≤ 20 :=
    (Nat.length_toDigits_le_iff (by decide) (by decide)).mpr (by omega)
  have hstart : "synapsefs.".toList.length ≤ 10 := by decide
  unfold frameText
  rw [List.length_append, List.length_append, List.length_append]
  exact Nat.add_le_add (Nat.add_le_add_right (Nat.add_le_add hstart htag) 1) hdigits

theorem length_ascii (s : List Char) : (ascii s).length = s.length := List.length_map ..

/-- The whole text and its NUL are written, and nothing behind them. -/
theorem writeFramePrefix_eq (kind : ObjectKind) {len : Nat} (hlen : len < 2 ^ 64) {out : Bytes} (hout : 40 ≤ out.length) :
    writeFramePrefix kind len out =
      (filled (ascii (frameText kind len) ++ [0]) out, (frameText kind len).length + 1) := by
  have hfit := length_frameText kind hlen
  have htake : (frameText kind len).take (40 - 1) = frameText kind len := List.take_of_length_le hfit
  have hprinted : (ascii (frameText kind len) ++ [0]).take (frameText kind len).length = ascii (frameText kind len) :=
    List.take_left' (length_ascii _)
  have hcopied : overwrite out 0 (ascii (frameText kind len)) = filled (ascii (frameText kind len)) out := by
    rw [← filled_nil out, ← List.length_nil, overwrite_filled, List.nil_append, filled_nil]
  unfold writeFramePrefix
  simp only [snprintf, htake]
  rw [if_neg (by omega), hprinted, hcopied, ← length_ascii, overwrite_filled]

/-- `Hasher::begin_frame` feeds the whole prefix. -/
theorem fed_beginFrame (h : Hasher) {stack : Bytes} (hstack : stack.length = 40) (kind : ObjectKind) {len : Nat}
    (hlen : len < 2 ^ 64) : (h.beginFrame stack kind len).fed = ascii (frameText kind len) ++ [0] := by
  have hwritten : (ascii (frameText kind len) ++ [0]).length = (frameText kind len).length + 1 := by
    rw [List.length_append, length_ascii, List.length_singleton]
  unfold Hasher.beginFrame
  rw [writeFramePrefix_eq kind hlen hstack.ge]
  dsimp only
  rw [filled, ← hwritten, List.take_left' rfl]

theorem framePrefix_eq (kind : ObjectKind) {len : Nat} (hlen : len < 2 ^ 64) :
    framePrefix kind len = ascii (frameText kind len) ++ [0] := by
  have hfit := length_frameText kind hlen
  unfold framePrefix
  exact if_pos (Nat.succ_le_succ hfit)

/-! ### Reading a frame -/

/-- What stands before the first `c`, and what stands behind it. -/
theorem terminated_inj {α : Type} {c : α} {a a' b b' : List α} (ha : c ∉ a) (ha' : c ∉ a') (h : a ++ c :: b = a' ++ c :: b') :
    a = a' ∧ b = b' := by
  induction a generalizing a' with
  | nil =>
    cases a' with
    | nil => exact ⟨rfl, (List.cons.inj h).2⟩
    | cons x rest => exact absurd ((List.cons.inj h).1 ▸ List.mem_cons_self) ha'
  | cons x rest ih =>
    cases a' with
    | nil => exact absurd ((List.cons.inj h).1 ▸ List.mem_cons_self) ha
    | cons y rest' =>
      rw [List.cons_append, List.cons_append] at h
      obtain ⟨rfl, hrest⟩ := List.cons.inj h
      obtain ⟨rfl, hb⟩ := ih (fun hc => ha (List.mem_cons_of_mem _ hc)) (fun hc => ha' (List.mem_cons_of_mem _ hc)) hrest
      exact ⟨rfl, hb⟩

/-- Printed characters are below 128 and none is a NUL. -/
theorem frameText_printed (kind : ObjectKind) (len : Nat) : ∀ c ∈ frameText kind len, 0 < c.toNat ∧ c.toNat < 128 := by
  intro c hc
  rcases List.mem_append.mp hc with hc | hc
  · have hall : ∀ c ∈ "synapsefs.".toList ++ kind.tag.toList ++ [' '], 0 < c.toNat ∧ c.toNat < 128 := by
      cases kind <;> simp [ObjectKind.tag]
    exact hall c hc
  · have hdigit : c.isDigit = true := Nat.isDigit_of_mem_toDigits (by decide) (by decide) hc
    simp only [Char.isDigit, Bool.and_eq_true, decide_eq_true_eq] at hdigit
    have hlow : 48 ≤ c.toNat := hdigit.1
    have hhigh : c.toNat ≤ 57 := hdigit.2
    omega

theorem ascii_inj {s t : List Char} (hs : ∀ c ∈ s, c.toNat < 128) (ht : ∀ c ∈ t, c.toNat < 128) (h : ascii s = ascii t) :
    s = t := by
  induction s generalizing t with
  | nil => exact (List.map_eq_nil_iff.mp h.symm).symm
  | cons c rest ih =>
    cases t with
    | nil => cases h
    | cons d rest' =>
      obtain ⟨hcd, hrest⟩ := List.cons.inj h
      have hc := hs c List.mem_cons_self
      have hd := ht d List.mem_cons_self
      have hnat := congrArg UInt8.toNat hcd
      rw [UInt8.toNat_ofNat', UInt8.toNat_ofNat', Nat.mod_eq_of_lt (by omega), Nat.mod_eq_of_lt (by omega)] at hnat
      rw [Char.toNat_inj.mp hnat, ih (fun x hx => hs x (List.mem_cons_of_mem _ hx))
        (fun x hx => ht x (List.mem_cons_of_mem _ hx)) hrest]

theorem nul_not_mem_frameText (kind : ObjectKind) (len : Nat) : (0 : UInt8) ∉ ascii (frameText kind len) := by
  intro h
  obtain ⟨c, hc, he⟩ := List.mem_map.mp h
  obtain ⟨hpos, hlt⟩ := frameText_printed kind len c hc
  have hnat := congrArg UInt8.toNat he
  rw [UInt8.toNat_ofNat', Nat.mod_eq_of_lt (by omega)] at hnat
  have hzero : (0 : UInt8).toNat = 0 := rfl
  omega

theorem blank_not_mem_tag (kind : ObjectKind) : ' ' ∉ kind.tag.toList := by
  cases kind <;> decide

theorem tag_inj {kind kind' : ObjectKind} (h : kind.tag.toList = kind'.tag.toList) : kind = kind' := by
  revert h
  cases kind <;> cases kind' <;> decide

/-- A frame text says its kind and its length. -/
theorem frameText_inj {kind kind' : ObjectKind} {len len' : Nat} (h : frameText kind len = frameText kind' len') :
    kind = kind' ∧ len = len' := by
  unfold frameText at h
  rw [List.append_assoc, List.append_assoc, List.append_assoc, List.append_assoc, List.singleton_append,
    List.singleton_append] at h
  obtain ⟨htag, hdigits⟩ := terminated_inj (blank_not_mem_tag kind) (blank_not_mem_tag kind') (List.append_cancel_left h)
  refine ⟨tag_inj htag, ?_⟩
  rw [← Nat.ofDigitChars_ten_toDigits (n := len), hdigits, Nat.ofDigitChars_ten_toDigits]

theorem framed_inj {kind kind' : ObjectKind} {payload payload' : Bytes} (h : framed kind payload = framed kind' payload') :
    kind = kind' ∧ payload = payload' := by
  unfold framed at h
  obtain ⟨htext, hpayload⟩ := terminated_inj (nul_not_mem_frameText kind _) (nul_not_mem_frameText kind' _) h
  have hchars := ascii_inj (fun c hc => (frameText_printed kind _ c hc).2) (fun c hc => (frameText_printed kind' _ c hc).2) htext
  exact ⟨(frameText_inj hchars).1, hpayload⟩

theorem framePrefix_append (kind : ObjectKind) {payload : Bytes} (hlen : payload.length < 2 ^ 64) :
    framePrefix kind payload.length ++ payload = framed kind payload := by
  rw [framePrefix_eq kind hlen, framed, List.append_assoc, List.singleton_append]

/-- A hasher that has been given the payload in pieces has been given the frame. -/
theorem fed_updates (h : Hasher) {stack : Bytes} (hstack : stack.length = 40) (kind : ObjectKind) {pieces : List Bytes}
    (hlen : pieces.flatten.length < 2 ^ 64) :
    (pieces.foldl Hasher.update (h.beginFrame stack kind pieces.flatten.length)).fed = framed kind pieces.flatten := by
  rw [Hasher.fed_foldl_update, fed_beginFrame h hstack kind hlen, framed, List.append_assoc, List.singleton_append]

theorem fed_ofPayload {stack : Bytes} (hstack : stack.length = 40) (kind : ObjectKind) {payload : Bytes}
    (hlen : payload.length < 2 ^ 64) : (Hasher.ofPayload stack kind payload).fed = framed kind payload := by
  rw [Hasher.ofPayload, Hasher.update, fed_beginFrame _ hstack kind hlen, framed, List.append_assoc, List.singleton_append]

/-- The prefix is written whole whatever the kind and the length, the frame determines the object, and a
payload hashed in pieces is hashed as `compute_oid` hashes it. -/
theorem framing_exact (blake3 : Bytes → Oid) :
    (∀ (kind : ObjectKind) (len : Nat) (out : Bytes), len < 2 ^ 64 → out.length = 40 →
      writeFramePrefix kind len out =
          (filled (ascii (frameText kind len) ++ [0]) out, (ascii (frameText kind len) ++ [0]).length) ∧
        (ascii (frameText kind len) ++ [0]).length ≤ 40) ∧
    (∀ (kind kind' : ObjectKind) (payload payload' : Bytes), payload.length < 2 ^ 64 → payload'.length < 2 ^ 64 →
      framePrefix kind payload.length ++ payload = framePrefix kind' payload'.length ++ payload' →
        kind = kind' ∧ payload = payload') ∧
    (∀ (h : Hasher) (stack stack' : Bytes) (kind : ObjectKind) (pieces : List Bytes), stack.length = 40 →
      stack'.length = 40 → pieces.flatten.length < 2 ^ 64 →
        (pieces.foldl Hasher.update (h.beginFrame stack kind pieces.flatten.length)).fed =
            (Hasher.ofPayload stack' kind pieces.flatten).fed ∧
          (pieces.foldl Hasher.update (h.beginFrame stack kind pieces.flatten.length)).finish blake3 =
            computeOid blake3 kind pieces.flatten) := by
  refine ⟨fun kind len out hlen hout => ?_, fun kind kind' p p' hp hp' heq => ?_,
    fun h stack stack' kind pieces hstack hstack' hlen => ⟨?_, ?_⟩⟩
  · have htotal : (ascii (frameText kind len) ++ [0]).length = (frameText kind len).length + 1 := by
      rw [List.length_append, length_ascii, List.length_singleton]
    rw [writeFramePrefix_eq kind hlen hout.ge, htotal]
    exact ⟨rfl, Nat.succ_le_succ (length_frameText kind hlen)⟩
  · rw [framePrefix_append kind hp, framePrefix_append kind' hp'] at heq
    exact framed_inj heq
  · rw [fed_updates h hstack kind hlen, fed_ofPayload hstack' kind hlen]
  · rw [Hasher.finish, fed_updates h hstack kind hlen, computeOid, framePrefix_append kind hlen]

/-- The longest tag with the largest length fills the buffer; one byte hashed twice is two bytes hashed. -/
theorem framing_exact_largest :
    (writeFramePrefix .topology (2 ^ 64 - 1) (List.replicate 40 0xff)).2 = 40 ∧
      framePrefix .raw 1 ++ [7] ≠ framePrefix .diff 1 ++ [7] ∧
      (([[7], [], [7]] : List Bytes).foldl Hasher.update
          (Hasher.new.beginFrame (List.replicate 40 0xff) .raw 2)).finish (fun _ => zeroOid) =
        computeOid (fun _ => zeroOid) .raw [7, 7] := by
  obtain ⟨hwritten, hinj, hpieces⟩ := framing_exact fun _ => zeroOid
  refine ⟨?_, fun heq => ?_, ?_⟩
  · have hfilled := (hwritten .topology (2 ^ 64 - 1) (List.replicate 40 0xff) (by decide) (by decide)).1
    rw [hfilled]
    decide +kernel
  · exact absurd (hinj .raw .diff [7] [7] (by decide) (by decide) heq).1 (by decide)
  · exact (hpieces .new (List.replicate 40 0xff) (List.replicate 40 0) .raw [[7], [], [7]] (by decide) (by decide)
      (by decide)).2

end SynapseFs.Core
