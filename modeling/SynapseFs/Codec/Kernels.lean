import SynapseFs.Codec.Residual
import SynapseFs.Lib.Lanes

/-! The residual kernels: a scalar one, and two that work on whole registers.

The AVX2 and AVX-512 kernels differ in the size of their registers and in how they
write an address. Each walks full registers first and leaves the rest to the scalar
loop; whatever the length and the width of an element, the bytes are the scalar
kernel's (`kernels_eq_scalar`). The buffers of a call do not overlap, and none is so
long that a loop counter wraps. -/
namespace SynapseFs.Codec
open Lib Core Format

/-! ### Scalar -/

def xorApplyScalar (dst base resid : Bytes) (n : Nat) : Bytes :=
  (List.range n).foldl (fun d i => overwrite d i [base.getD i 0 ^^^ resid.getD i 0]) dst

def xorEncodeScalar (dst base target : Bytes) (n : Nat) : Bytes :=
  (List.range n).foldl (fun d i => overwrite d i [base.getD i 0 ^^^ target.getD i 0]) dst

/-- The loop over the elements of one width. -/
def zigzagApplyWidth (w : Nat) (dst base resid : Bytes) (count : Nat) : Bytes :=
  (List.range count).foldl
    (fun d i => overwrite d (i * w) (storeLe w (zigzagApplyWord (word w base i) (word w resid i)).toNat)) dst

/-- A width that no element has leaves `dst` as it is. -/
def zigzagApplyScalar (dst base resid : Bytes) (n elemBytes : Nat) : Bytes :=
  if elemBytes ∈ [1, 2, 4, 8] then zigzagApplyWidth elemBytes dst base resid (n / elemBytes) else dst

/-! ### Intrinsics on 16-bit lanes -/

section
variable {k : Nat}

/-- `_mm256_set1_epi16`, `_mm512_set1_epi16`. -/
def set1Epi16 (k : Nat) (v : BitVec 16) : BitVec (8 * (k * 2)) := ofLanes 2 k fun _ => v

/-- `_mm256_add_epi16`, `_mm512_add_epi16`: every lane wraps on its own. -/
def addEpi16 (a b : BitVec (8 * (k * 2))) : BitVec (8 * (k * 2)) := ofLanes 2 k fun j => lane 2 a j + lane 2 b j

/-- `_mm256_sub_epi16`, `_mm512_sub_epi16`. -/
def subEpi16 (a b : BitVec (8 * (k * 2))) : BitVec (8 * (k * 2)) := ofLanes 2 k fun j => lane 2 a j - lane 2 b j

/-- `_mm256_srli_epi16`, `_mm512_srli_epi16`: zeros come in from above. -/
def srliEpi16 (a : BitVec (8 * (k * 2))) (count : Nat) : BitVec (8 * (k * 2)) :=
  ofLanes 2 k fun j => if 15 < count then 0 else lane 2 a j >>> count

end

/-! ### Kernels on registers -/

/-- The XOR loop over registers of `bytes` bytes, and the bytes left over. -/
def xorApplyVector (bytes : Nat) (dst base resid : Bytes) (n : Nat) : Bytes :=
  let body := (List.range (n / bytes)).foldl (fun d q =>
    overwrite d (q * bytes) (store (load bytes base (q * bytes) ^^^ load bytes resid (q * bytes)))) dst
  (List.range' (n / bytes * bytes) (n % bytes)).foldl
    (fun d i => overwrite d i [base.getD i 0 ^^^ resid.getD i 0]) body

/-- A register of `k` zigzag codes applied to a register of `k` elements. -/
def zigzagApplyRegister {k : Nat} (b z : BitVec (8 * (k * 2))) : BitVec (8 * (k * 2)) :=
  let lowBit := z &&& set1Epi16 k 1
  let mask := subEpi16 0 lowBit
  let deltaBits := srliEpi16 z 1 ^^^ mask
  addEpi16 b deltaBits

/-- The loop over registers of `k` elements, element `i` at byte `addr i`, and the scalar kernel on the rest. -/
def zigzagApplyU16 (k : Nat) (addr : Nat → Nat) (dst base resid : Bytes) (count : Nat) : Bytes :=
  let body := (List.range (count / k)).foldl (fun d q =>
    overwrite d (addr (q * k)) (store (zigzagApplyRegister (k := k) (load (k * 2) base (addr (q * k)))
      (load (k * 2) resid (addr (q * k)))))) dst
  let i := count / k * k
  if i < count then
    body.take (i * 2) ++
      zigzagApplyScalar (body.drop (i * 2)) (base.drop (i * 2)) (resid.drop (i * 2)) ((count - i) * 2) 2
  else body

section
variable (disabled : Bool)

/-! A compiler without the instruction set builds kernels that are `disabled`. -/

def xorApplyAvx2 (dst base resid : Bytes) (n : Nat) : Bytes :=
  if disabled then xorApplyScalar dst base resid n else xorApplyVector 32 dst base resid n

def xorEncodeAvx2 (dst base target : Bytes) (n : Nat) : Bytes := xorApplyAvx2 disabled dst base target n

/-- The address is that of register `i / 16`. -/
def zigzagApplyAvx2U16 : Bytes → Bytes → Bytes → Nat → Bytes := zigzagApplyU16 16 fun i => i / 16 * 32

def zigzagApplyAvx2 (dst base resid : Bytes) (n elemBytes : Nat) : Bytes :=
  if disabled then zigzagApplyScalar dst base resid n elemBytes
  else if elemBytes = 2 then zigzagApplyAvx2U16 dst base resid (n / 2)
  else zigzagApplyScalar dst base resid n elemBytes

def xorApplyAvx512 (dst base resid : Bytes) (n : Nat) : Bytes :=
  if disabled then xorApplyScalar dst base resid n else xorApplyVector 64 dst base resid n

def xorEncodeAvx512 (dst base target : Bytes) (n : Nat) : Bytes := xorApplyAvx512 disabled dst base target n

def zigzagApplyAvx512U16 : Bytes → Bytes → Bytes → Nat → Bytes := zigzagApplyU16 32 fun i => i * 2

def zigzagApplyAvx512 (dst base resid : Bytes) (n elemBytes : Nat) : Bytes :=
  if disabled then zigzagApplyScalar dst base resid n elemBytes
  else if elemBytes = 2 then zigzagApplyAvx512U16 dst base resid (n / 2)
  else zigzagApplyScalar dst base resid n elemBytes

end

/-! ### XOR -/

section
variable {base resid : Bytes}

def xorPiece (base resid : Bytes) (i : Nat) : Bytes := [base.getD i 0 ^^^ resid.getD i 0]

theorem xorLoop_eq (base resid dst data : Bytes) (count : Nat) :
    (List.range' data.length count).foldl (fun d i => overwrite d i [base.getD i 0 ^^^ resid.getD i 0]) (filled data dst) =
      filled (data ++ (List.range' data.length count).flatMap (xorPiece base resid)) dst := by
  have hloop := @fill_loop 1 (xorPiece base resid) dst count data.length data (Nat.mul_one _).symm fun _ => rfl
  simp only [Nat.mul_one] at hloop
  exact hloop

theorem xorApplyScalar_eq (dst : Bytes) (n : Nat) :
    xorApplyScalar dst base resid n = filled ((List.range n).flatMap (xorPiece base resid)) dst := by
  have hloop := xorLoop_eq base resid dst [] n
  rw [filled_nil, List.nil_append, List.length_nil, ← List.range_eq_range'] at hloop
  exact hloop

theorem slice_one {b : Bytes} {a : Nat} (h : a < b.length) : slice b a 1 = [b.getD a 0] := by
  rw [slice, List.take_one, List.head?_drop, List.getD_eq_getElem?_getD, List.getElem?_eq_getElem h]
  rfl

theorem store_xor_byte {a : Nat} (hb : a < base.length) (hr : a < resid.length) :
    store (load 1 base a ^^^ load 1 resid a) = xorPiece base resid a := by
  have hnat : (load 1 base a ^^^ load 1 resid a).toNat = (base.getD a 0 ^^^ resid.getD a 0).toNat := by
    rw [BitVec.toNat_xor, toNat_load (by omega), toNat_load (by omega), slice_one hb, slice_one hr, UInt8.toNat_xor]
    rfl
  rw [store, hnat]
  show [UInt8.ofNat _] = _
  rw [UInt8.ofNat_toNat]
  rfl

/-- A register's worth of XOR is that many bytes of it. -/
theorem store_xor {bytes q : Nat} (hb : (q + 1) * bytes ≤ base.length) (hr : (q + 1) * bytes ≤ resid.length) :
    store (load bytes base (q * bytes) ^^^ load bytes resid (q * bytes)) =
      (List.range' (q * bytes) bytes).flatMap (xorPiece base resid) := by
  rw [Nat.succ_mul] at hb hr
  rw [store_eq (Nat.mul_one bytes).symm, List.range'_eq_map_range, List.flatMap_map]
  refine List.flatMap_congr fun j hj => ?_
  have hj := List.mem_range.mp hj
  rw [lane_xor, lane_load hb (by omega), lane_load hr (by omega), show q * bytes + j * 1 = q * bytes + j by omega]
  exact store_xor_byte (by omega) (by omega)

theorem xorApplyVector_eq_scalar (bytes : Nat) {n : Nat} (hb : n ≤ base.length) (hr : n ≤ resid.length) (dst : Bytes) :
    xorApplyVector bytes dst base resid n = xorApplyScalar dst base resid n := by
  have hfull : n / bytes * bytes ≤ n := Nat.div_mul_le_self n bytes
  have hblock : ∀ q < n / bytes, store (load bytes base (q * bytes) ^^^ load bytes resid (q * bytes)) =
      (List.range' (q * bytes) bytes).flatMap (xorPiece base resid) := by
    intro q hq
    have hle : (q + 1) * bytes ≤ n := (Nat.mul_le_mul_right bytes hq).trans hfull
    exact store_xor (hle.trans hb) (hle.trans hr)
  have hlen : ((List.range (n / bytes * bytes)).flatMap (xorPiece base resid)).length = n / bytes * bytes := by
    have hpiece : ∀ i ∈ List.range (n / bytes * bytes), (xorPiece base resid i).length = 1 := fun _ _ => rfl
    rw [length_flatMap_const _ _ hpiece, List.length_range, Nat.mul_one]
  have htail := xorLoop_eq base resid dst ((List.range (n / bytes * bytes)).flatMap (xorPiece base resid)) (n % bytes)
  rw [hlen] at htail
  have hjoin := @List.range'_append_1 0 (n / bytes * bytes) (n % bytes)
  rw [Nat.zero_add, Nat.div_add_mod', ← List.range_eq_range', ← List.range_eq_range'] at hjoin
  unfold xorApplyVector
  dsimp only
  rw [fill_blocks (fun q => length_store _) hblock dst, htail, xorApplyScalar_eq, ← List.flatMap_append, hjoin]

/-! ### Zigzag -/

def zigzagPiece (w : Nat) (base resid : Bytes) (i : Nat) : Bytes :=
  storeLe w (zigzagApplyWord (word w base i) (word w resid i)).toNat

theorem zigzagApplyWidth_eq (w : Nat) (dst : Bytes) (count : Nat) :
    zigzagApplyWidth w dst base resid count = filled ((List.range count).flatMap (zigzagPiece w base resid)) dst := by
  have hloop := @fill_loop w (zigzagPiece w base resid) dst count 0 [] (Nat.zero_mul w).symm fun i => length_storeLe w _
  rw [filled_nil, List.nil_append, ← List.range_eq_range'] at hloop
  exact hloop

/-- The register formula is the scalar one on every lane. -/
theorem lane_zigzagApplyRegister {k j : Nat} (hj : j < k) (b z : BitVec (8 * (k * 2))) :
    lane 2 (zigzagApplyRegister b z) j = zigzagApplyWord (lane 2 b j) (lane 2 z j) := by
  unfold zigzagApplyRegister zigzagApplyWord addEpi16 subEpi16 srliEpi16 set1Epi16
  rw [lane_ofLanes _ hj, lane_xor, lane_ofLanes _ hj, lane_ofLanes _ hj, lane_and, lane_ofLanes _ hj, if_neg (by decide)]
  congr 2
  rw [← BitVec.neg_eq_not_add]
  exact (congrArg (· - _) (lane_zero 2 _ j)).trans (BitVec.zero_sub _)

theorem store_zigzag {k q : Nat} (hb : (q + 1) * (k * 2) ≤ base.length) (hr : (q + 1) * (k * 2) ≤ resid.length) :
    store (zigzagApplyRegister (k := k) (load (k * 2) base (q * (k * 2))) (load (k * 2) resid (q * (k * 2)))) =
      (List.range' (q * k) k).flatMap (zigzagPiece 2 base resid) := by
  rw [Nat.succ_mul] at hb hr
  rw [store_eq (w := 2) (k := k) rfl, List.range'_eq_map_range, List.flatMap_map]
  refine List.flatMap_congr fun j hj => ?_
  have hj := List.mem_range.mp hj
  rw [lane_zigzagApplyRegister hj, lane_load hb (by omega), lane_load hr (by omega),
    show q * (k * 2) + j * 2 = (q * k + j) * 2 by ring]
  rfl

theorem word_drop (w : Nat) (b : Bytes) (i j : Nat) : word w (b.drop (i * w)) j = word w b (i + j) := by
  rw [word, word, unit, unit, slice_drop, Nat.add_mul]

theorem zigzagApplyScalar_two (dst base resid : Bytes) (n : Nat) : zigzagApplyScalar dst base resid n 2 =
    filled ((List.range (n / 2)).flatMap (zigzagPiece 2 base resid)) dst :=
  (if_pos (by decide)).trans (zigzagApplyWidth_eq 2 dst (n / 2))

theorem zigzagApplyU16_eq_scalar {k n : Nat} {addr : Nat → Nat} (haddr : ∀ q, addr (q * k) = q * (k * 2))
    (hb : n ≤ base.length) (hr : n ≤ resid.length) (dst : Bytes) :
    zigzagApplyU16 k addr dst base resid (n / 2) = zigzagApplyScalar dst base resid n 2 := by
  generalize hcount : n / 2 = count
  have hfull : count / k * k ≤ count := Nat.div_mul_le_self count k
  have hblock : ∀ q < count / k,
      store (zigzagApplyRegister (k := k) (load (k * 2) base (q * (k * 2))) (load (k * 2) resid (q * (k * 2)))) =
        (List.range' (q * k) k).flatMap (zigzagPiece 2 base resid) := by
    intro q hq
    have hle : (q + 1) * k ≤ count := (Nat.mul_le_mul_right k hq).trans hfull
    have hbytes : (q + 1) * (k * 2) ≤ n := by
      rw [← Nat.mul_assoc]
      omega
    exact store_zigzag (hbytes.trans hb) (hbytes.trans hr)
  have hlen : ((List.range (count / k * k)).flatMap (zigzagPiece 2 base resid)).length = count / k * k * 2 := by
    have hpiece : ∀ i ∈ List.range (count / k * k), (zigzagPiece 2 base resid i).length = 2 :=
      fun _ _ => length_storeLe 2 _
    rw [length_flatMap_const _ _ hpiece, List.length_range]
  unfold zigzagApplyU16
  simp only [haddr]
  rw [fill_blocks (fun q => length_store _) hblock dst]
  generalize hi : count / k * k = i at hfull hlen
  rw [zigzagApplyScalar_two, zigzagApplyScalar_two, hcount]
  split
  · -- the scalar kernel starts where the registers ended
    next hlt =>
    have htail : zigzagPiece 2 (base.drop (i * 2)) (resid.drop (i * 2)) = fun j => zigzagPiece 2 base resid (i + j) := by
      funext j
      rw [zigzagPiece, word_drop, word_drop]
      rfl
    have hjoin := @List.range'_append_1 0 i (count - i)
    rw [Nat.zero_add, Nat.add_sub_cancel' hfull, ← List.range_eq_range', ← List.range_eq_range'] at hjoin
    rw [Nat.mul_div_cancel _ (by decide), htail, filled, filled, filled, hlen,
      List.take_left' hlen, List.drop_left' hlen, ← hjoin, List.flatMap_append, List.range'_eq_map_range,
      List.flatMap_map, List.append_assoc, List.length_append, hlen, List.drop_drop]
  · next hdone =>
    rw [show i = count by omega]

end

/-! ### The kernels of the model -/

/-- **The register kernels are the scalar ones**, whatever the length, the width of an element and the contents, and
whether the compiler had the instruction set or not. -/
theorem kernels_eq_scalar (disabled : Bool) {base other : Bytes} {n : Nat} (hb : n ≤ base.length) (ho : n ≤ other.length)
    (dst : Bytes) :
    (xorApplyAvx2 disabled dst base other n = xorApplyScalar dst base other n ∧
      xorApplyAvx512 disabled dst base other n = xorApplyScalar dst base other n) ∧
    (xorEncodeAvx2 disabled dst base other n = xorEncodeScalar dst base other n ∧
      xorEncodeAvx512 disabled dst base other n = xorEncodeScalar dst base other n) ∧
    ∀ elemBytes, zigzagApplyAvx2 disabled dst base other n elemBytes = zigzagApplyScalar dst base other n elemBytes ∧
      zigzagApplyAvx512 disabled dst base other n elemBytes = zigzagApplyScalar dst base other n elemBytes := by
  have hxor2 : xorApplyAvx2 disabled dst base other n = xorApplyScalar dst base other n := by
    unfold xorApplyAvx2
    split
    · rfl
    · exact xorApplyVector_eq_scalar 32 hb ho dst
  have hxor512 : xorApplyAvx512 disabled dst base other n = xorApplyScalar dst base other n := by
    unfold xorApplyAvx512
    split
    · rfl
    · exact xorApplyVector_eq_scalar 64 hb ho dst
  refine ⟨⟨hxor2, hxor512⟩, ⟨hxor2, hxor512⟩, fun elemBytes => ⟨?_, ?_⟩⟩
  · unfold zigzagApplyAvx2
    split
    · rfl
    · split
      · next hwidth =>
        rw [hwidth]
        exact zigzagApplyU16_eq_scalar (fun q => by omega) hb ho dst
      · rfl
  · unfold zigzagApplyAvx512
    split
    · rfl
    · split
      · next hwidth =>
        rw [hwidth]
        exact zigzagApplyU16_eq_scalar (fun q => by omega) hb ho dst
      · rfl

/-- Nineteen 16-bit elements: one register of AVX2, none of AVX-512, and a tail. -/
theorem kernels_eq_scalar_nineteen :
    let base : Bytes := (List.range 38).map UInt8.ofNat
    let resid : Bytes := (List.range 38).map fun i => UInt8.ofNat (7 * i + 3)
    38 ≤ base.length ∧ 38 ≤ resid.length ∧
      zigzagApplyAvx2 false (List.replicate 38 0) base resid 38 2 =
        zigzagApplyScalar (List.replicate 38 0) base resid 38 2 := by
  intro base resid
  have hb : 38 ≤ base.length := by decide
  have hr : 38 ≤ resid.length := by decide
  exact ⟨hb, hr, ((kernels_eq_scalar false hb hr (List.replicate 38 0)).2.2 2).1⟩

/-- What `apply_residual` has for the XOR kernel is the scalar loop on the whole frame. -/
theorem xorBytes_eq_scalar {base resid dst : Bytes} (hb : base.length = dst.length) (hr : resid.length = dst.length) :
    xorBytes base resid = xorApplyScalar dst base resid dst.length := by
  have hmap : (List.range dst.length).flatMap (xorPiece base resid) =
      (List.range dst.length).map fun i => base.getD i 0 ^^^ resid.getD i 0 := List.map_eq_flatMap.symm
  rw [xorApplyScalar_eq, hmap, filled_of_length_eq (by rw [List.length_map, List.length_range])]
  refine List.ext_getElem (by simp [xorBytes, hb, hr]) fun i hi hi' => ?_
  have hlt : i < dst.length := by simpa using hi'
  simp [xorBytes, hb, hr, hlt]

theorem zigzagApply_eq_scalar (dst base resid : Bytes) (elemBytes : Nat) :
    zigzagApply dst base resid elemBytes = zigzagApplyScalar dst base resid dst.length elemBytes := by
  unfold zigzagApply zigzagApplyScalar
  rw [zigzagApplyWidth_eq]
  rfl

end SynapseFs.Codec
