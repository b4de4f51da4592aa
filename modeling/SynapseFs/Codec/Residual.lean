import SynapseFs.Codec.Compress
import SynapseFs.Format.ResidualHdr

/-! Residuals: what is left of a target once its base is known.

XOR and zigzag work on bit patterns, element by element, and wrap; both are
undone exactly (`applyResidual_transformed`). A transform sits between the
residual and its compression and is undone first. -/
namespace SynapseFs.Codec
open Lib Core Format

/-! ### Zigzag -/

/-- The delta's bits with the sign moved to the lowest bit. -/
def zigzagEncodeWord {n : Nat} (b t : BitVec n) : BitVec n :=
  let delta := t - b
  (delta <<< 1) ^^^ (if delta.msb then BitVec.allOnes n else 0#n)

def zigzagApplyWord {n : Nat} (b z : BitVec n) : BitVec n :=
  b + ((z >>> 1) ^^^ (~~~(z &&& 1#n) + 1#n))

/-- The `i`-th element of `w` bytes, as an integer. -/
def word (w : Nat) (b : Bytes) (i : Nat) : BitVec (8 * w) := BitVec.ofNat (8 * w) (loadLe (unit b w i))

def mapWords (w : Nat) (f : BitVec (8 * w) → BitVec (8 * w) → BitVec (8 * w)) (base x : Bytes) (count : Nat) : Bytes :=
  (List.range count).flatMap fun i => storeLe w (f (word w base i) (word w x i)).toNat

/-- Only the four element widths write into `dst`. -/
def zigzagEncode (dst base target : Bytes) (elemBytes : Nat) : Bytes :=
  if elemBytes ∈ [1, 2, 4, 8] then filled (mapWords elemBytes zigzagEncodeWord base target (dst.length / elemBytes)) dst
  else dst

def zigzagApply (dst base resid : Bytes) (elemBytes : Nat) : Bytes :=
  if elemBytes ∈ [1, 2, 4, 8] then filled (mapWords elemBytes zigzagApplyWord base resid (dst.length / elemBytes)) dst
  else dst

/-! ### Residuals of a frame -/

def xorBytes (base x : Bytes) : Bytes := List.zipWith (· ^^^ ·) base x

/-- What the writer leaves in the zeroed frame buffer `resid`. -/
def encodeResidual (kind : ResidualKind) (dtype : DType) (base target : Bytes) : Bytes :=
  match kind with
  | .raw => target
  | .xorAfterPermute => xorBytes base target
  | .zigzagAfterPermute => zigzagEncode (List.replicate target.length 0) base target dtype.size

def applyTransform (transform : Transform) (dtype : DType) (resid : Bytes) : Bytes :=
  match transform with
  | .none => resid
  | .bytePlane => byteplaneSplit resid dtype.size
  | .bitshuffle => bitshuffle resid dtype.size

def undoTransform (transform : Transform) (dtype : DType) (resid : Bytes) : Bytes :=
  match transform with
  | .none => resid
  | .bytePlane => byteplaneJoin resid dtype.size
  | .bitshuffle => bitunshuffle resid dtype.size

/-- What `apply_residual` leaves in `out`. -/
def applyResidual (kind : ResidualKind) (transform : Transform) (dtype : DType) (base residual out : Bytes) :
    Outcome Bytes :=
  if out.length ≠ residual.length then sfsErr .internal "apply_residual: out and residual frame sizes differ" ""
  else if dtype.size = 0 then sfsErr .unsupportedDType "apply_residual: unknown dtype" ""
  else
    let payload := undoTransform transform dtype residual
    match kind with
    | .raw => .ok payload
    | .xorAfterPermute =>
      if base.length ≠ payload.length then sfsErr .malformedObject "apply_residual: base/residual size mismatch" ""
      else .ok (xorBytes base payload)
    | .zigzagAfterPermute =>
      if base.length ≠ payload.length then sfsErr .malformedObject "apply_residual: base/residual size mismatch" ""
      else if payload.length % dtype.size ≠ 0 then
        sfsErr .malformedObject "apply_residual: residual size not a multiple of element size" ""
      else .ok (zigzagApply out base payload dtype.size)

/-! ### Inverses -/

theorem zigzag_mask {n : Nat} (hn : 0 < n) (z : BitVec n) :
    ~~~(z &&& 1#n) + 1#n = if z.getLsbD 0 then BitVec.allOnes n else 0#n := by
  have hone : z &&& 1#n = if z.getLsbD 0 then 1#n else 0#n := by
    refine BitVec.eq_of_getLsbD_eq fun i hi => ?_
    by_cases hz : z.getLsbD 0
    · cases i with
      | zero => simp [hz, hn]
      | succ i => simp [hz, BitVec.getLsbD_one]
    · cases i with
      | zero => simp [hz]
      | succ i => simp [hz, BitVec.getLsbD_one]
  rw [hone]
  split
  · rw [← BitVec.neg_eq_not_add, BitVec.neg_one_eq_allOnes]
  · rw [← BitVec.neg_eq_not_add, BitVec.neg_zero]

theorem zigzag_delta {n : Nat} (hn : 0 < n) (d : BitVec n) :
    let z := (d <<< 1) ^^^ (if d.msb then BitVec.allOnes n else 0#n)
    (z >>> 1) ^^^ (~~~(z &&& 1#n) + 1#n) = d := by
  intro z
  have hsign : z.getLsbD 0 = d.msb := by
    cases hm : d.msb <;> simp [z, hm, hn]
  rw [zigzag_mask hn, hsign]
  refine BitVec.eq_of_getLsbD_eq fun i hi => ?_
  by_cases hlast : 1 + i < n
  · cases hm : d.msb <;> simp [z, hm, hi, hlast]
  · -- the bit shifted out was the sign
    have htop : d[i] = d.msb := by
      rw [BitVec.msb_eq_getLsbD_last, ← BitVec.getLsbD_eq_getElem hi, show n - 1 = i by omega]
    cases hm : d.msb <;> simp [z, hm, hi, htop, hlast]

theorem zigzagApplyWord_encode {n : Nat} (hn : 0 < n) (b t : BitVec n) :
    zigzagApplyWord b (zigzagEncodeWord b t) = t := by
  unfold zigzagApplyWord zigzagEncodeWord
  dsimp only
  rw [zigzag_delta hn, BitVec.add_comm, BitVec.sub_add_cancel]

theorem length_mapWords (w : Nat) (f : BitVec (8 * w) → BitVec (8 * w) → BitVec (8 * w)) (base x : Bytes)
    (count : Nat) : (mapWords w f base x count).length = count * w := by
  rw [mapWords, length_flatMap_const _ _ fun i _ => length_storeLe w _, List.length_range]

theorem word_storeLe (w : Nat) (v : BitVec (8 * w)) : BitVec.ofNat (8 * w) (loadLe (storeLe w v.toNat)) = v := by
  have hlt : v.toNat < 256 ^ w := by
    have := v.isLt
    rwa [Nat.pow_mul] at this
  rw [loadLe_storeLe_of_lt hlt, BitVec.ofNat_toNat, BitVec.setWidth_eq]

theorem storeLe_word {w : Nat} {b : Bytes} {i : Nat} (h : (i + 1) * w ≤ b.length) :
    storeLe w (word w b i).toNat = unit b w i := by
  have hlen := length_unit b h
  have hlt : loadLe (unit b w i) < 2 ^ (8 * w) := by
    have := loadLe_lt (unit b w i)
    rwa [hlen, ← Nat.pow_mul 2 8 w] at this
  rw [word, BitVec.toNat_ofNat, Nat.mod_eq_of_lt hlt]
  have hback := storeLe_loadLe (unit b w i)
  rwa [hlen] at hback

theorem zigzagApply_encode {base target : Bytes} {w : Nat} (hw : w ∈ [1, 2, 4, 8]) (hm : target.length % w = 0)
    {dst dst' : Bytes} (hd : dst.length = target.length) (hd' : dst'.length = target.length) :
    zigzagApply dst' base (zigzagEncode dst base target w) w = target := by
  have hpos : 0 < w := Nat.pos_of_ne_zero fun h0 => absurd (h0 ▸ hw) (by decide)
  have htot : target.length / w * w = target.length := Nat.div_mul_cancel (Nat.dvd_of_mod_eq_zero hm)
  unfold zigzagApply zigzagEncode
  rw [if_pos hw, if_pos hw, hd, hd', filled_of_length_eq (by rw [length_mapWords, htot, hd']),
    filled_of_length_eq (by rw [length_mapWords, htot, hd])]
  have hword : ∀ i ∈ List.range (target.length / w),
      storeLe w (zigzagApplyWord (word w base i)
        (word w (mapWords w zigzagEncodeWord base target (target.length / w)) i)).toNat = unit target w i := by
    intro i hi
    have hi := List.mem_range.mp hi
    have hle : (i + 1) * w ≤ target.length := (Nat.mul_le_mul_right w hi).trans htot.le
    have hcode : word w (mapWords w zigzagEncodeWord base target (target.length / w)) i =
        zigzagEncodeWord (word w base i) (word w target i) := by
      rw [word, mapWords, unit_flatMap _ _ (fun i _ => length_storeLe w _) i (by rwa [List.length_range]),
        List.getElem_range, word_storeLe]
    rw [hcode, zigzagApplyWord_encode (by omega), storeLe_word hle]
  calc mapWords w zigzagApplyWord base (mapWords w zigzagEncodeWord base target (target.length / w)) (target.length / w)
      = units target w (List.range (target.length / w)) := List.flatMap_congr hword
    _ = target := by rw [List.range_eq_range', units_range', Nat.zero_mul, htot, slice_full]

theorem xorBytes_xorBytes {base target : Bytes} (h : base.length = target.length) :
    xorBytes base (xorBytes base target) = target := by
  refine List.ext_getElem (by simp [xorBytes, h]) fun i hi hi' => ?_
  simp [xorBytes, ← UInt8.xor_assoc]

theorem length_encodeResidual (kind : ResidualKind) (dtype : DType) {base target : Bytes}
    (h : kind = .raw ∨ base.length = target.length) : (encodeResidual kind dtype base target).length = target.length := by
  unfold encodeResidual
  split
  · rfl
  · have h := h.resolve_left nofun
    simp [xorBytes, h]
  · unfold zigzagEncode
    split
    · rw [length_filled, length_mapWords, List.length_replicate]
      have := Nat.div_mul_le_self target.length dtype.size
      omega
    · exact List.length_replicate

theorem length_applyTransform (transform : Transform) (dtype : DType) (resid : Bytes) :
    (applyTransform transform dtype resid).length = resid.length := by
  unfold applyTransform
  split
  · rfl
  · exact length_byteplaneSplit _ _
  · exact length_bitshuffle _ _

theorem length_undoTransform (transform : Transform) (dtype : DType) (resid : Bytes) :
    (undoTransform transform dtype resid).length = resid.length := by
  unfold undoTransform
  split
  · rfl
  · exact length_byteplaneJoin _ _
  · exact length_bitunshuffle _ _

/-- What comes out is as long as the buffer it was made in. -/
theorem length_applyResidual {kind : ResidualKind} {transform : Transform} {dtype : DType} {base residual out r : Bytes}
    (h : applyResidual kind transform dtype base residual out = .ok r) : r.length = out.length := by
  have hlen := length_undoTransform transform dtype residual
  unfold applyResidual at h
  split at h
  · exact absurd h sfsErr_ne_ok
  · next hout =>
    split at h
    · exact absurd h sfsErr_ne_ok
    · rw [← not_not.mp hout] at hlen
      dsimp only at h
      split at h
      · cases h
        exact hlen
      · split at h
        · exact absurd h sfsErr_ne_ok
        · next hbase =>
          cases h
          rw [xorBytes, List.length_zipWith, not_not.mp hbase, Nat.min_self, hlen]
      · split at h
        · exact absurd h sfsErr_ne_ok
        · split at h
          · exact absurd h sfsErr_ne_ok
          · cases h
            unfold zigzagApply
            split
            · rw [length_filled, length_mapWords]
              exact Nat.add_sub_cancel' (Nat.div_mul_le_self _ _)
            · rfl

theorem undoTransform_applyTransform (transform : Transform) (dtype : DType) (resid : Bytes) :
    undoTransform transform dtype (applyTransform transform dtype resid) = resid := by
  cases transform
  · rfl
  · exact byteplaneJoin_split _ _
  · exact bitunshuffle_shuffle _ _

theorem DType.size_mem (d : DType) : d.size ∈ [1, 2, 4, 8] := by
  cases d <;> decide

/-- The reader's residual step undoes the writer's, whatever the kind and the
transform. A raw residual does not look at the base. -/
theorem applyResidual_transformed {kind : ResidualKind} (transform : Transform) {dtype : DType} {base target out : Bytes}
    (hbase : kind = .raw ∨ base.length = target.length) (hm : target.length % dtype.size = 0)
    (hout : out.length = target.length) :
    applyResidual kind transform dtype base (applyTransform transform dtype (encodeResidual kind dtype base target)) out =
      .ok target := by
  have hlen := length_encodeResidual kind dtype hbase
  have hsize := DType.size_pos dtype
  unfold applyResidual
  rw [length_applyTransform, hlen, if_neg (not_not.mpr hout), if_neg (by omega), undoTransform_applyTransform]
  dsimp only
  cases kind with
  | raw => rfl
  | xorAfterPermute =>
    have hb := hbase.resolve_left nofun
    dsimp only
    rw [hlen, if_neg (not_not.mpr hb)]
    exact congrArg Except.ok (xorBytes_xorBytes hb)
  | zigzagAfterPermute =>
    have hb := hbase.resolve_left nofun
    dsimp only
    rw [hlen, if_neg (not_not.mpr hb), if_neg (not_not.mpr hm)]
    exact congrArg Except.ok (zigzagApply_encode (DType.size_mem dtype) hm List.length_replicate hout)

/-- The codec of a frame, whole and part by part: for every kind, transform and
element width the reader gets the target back, the zigzag of a word is undone
under wraparound, and each transform is inverted on any input. -/
theorem residual_round_trip (kind : ResidualKind) (transform : Transform) (dtype : DType) {base target out : Bytes}
    (hbase : base.length = target.length) (hm : target.length % dtype.size = 0) (hout : out.length = target.length) :
    applyResidual kind transform dtype base (applyTransform transform dtype (encodeResidual kind dtype base target)) out =
        .ok target ∧
      (∀ b t : BitVec (8 * dtype.size), zigzagApplyWord b (zigzagEncodeWord b t) = t) ∧
      ∀ src : Bytes, byteplaneJoin (byteplaneSplit src dtype.size) dtype.size = src ∧
        bitunshuffle (bitshuffle src dtype.size) dtype.size = src := by
  refine ⟨applyResidual_transformed transform (.inr hbase) hm hout, fun b t => ?_, fun src => ?_⟩
  · have hpos : 0 < 8 * dtype.size := Nat.mul_pos (by decide) dtype.size_pos
    exact zigzagApplyWord_encode hpos b t
  · exact ⟨byteplaneJoin_split src dtype.size, bitunshuffle_shuffle src dtype.size⟩

/-- Nine 16-bit elements, one of them across the sign bit: a group of eight and a tail. -/
theorem residual_round_trip_nine :
    let base : Bytes := [0, 0, 1, 0, 255, 127, 0, 128, 255, 255, 7, 0, 8, 1, 9, 0, 3, 200]
    let target : Bytes := [1, 0, 0, 0, 0, 128, 255, 127, 0, 0, 7, 0, 9, 2, 8, 0, 5, 100]
    target.length = 18 ∧ applyResidual .zigzagAfterPermute .bitshuffle .f16 base
      (applyTransform .bitshuffle .f16 (encodeResidual .zigzagAfterPermute .f16 base target)) (List.replicate 18 0) =
        .ok target := by
  intro base target
  have htrip := @residual_round_trip .zigzagAfterPermute .bitshuffle .f16 base target (List.replicate 18 0) (by decide)
    (by decide) (by decide)
  exact ⟨by decide, htrip.1⟩

end SynapseFs.Codec
