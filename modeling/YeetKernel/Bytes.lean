import Mathlib.Data.BitVec

/-!
# Little-endian fields in blocks of bytes

A field of `k` bytes is read and written at a byte offset, alone or as one of
an array of fields; so are runs of bytes and single bits. A read depends only
on the bytes it covers and a write changes only those, so fields that do not
overlap are independent of each other.
-/

namespace Yeet.Bytes

abbrev Byte := BitVec 8

abbrev Block (n : ℕ) := Fin n → Byte

variable {n o k : ℕ} {l : List Byte}

def byteAt (b : Block n) (o : ℕ) : Byte := if h : o < n then b ⟨o,h⟩ else 0

def getField (b : Block n) (o : ℕ) : (k : ℕ) → BitVec (8*k)
  | 0 => 0
  | k+1 => (byteAt b (o+k)++getField b o k).cast (by omega)

def setField (b : Block n) (o k : ℕ) (v : BitVec (8*k)) : Block n :=
  fun i => if o ≤ i ∧ i < o+k then v.extractLsb' (8*(i-o)) 8 else b i

theorem byteAt_setField_in (b : Block n) {o k i : ℕ} (v : BitVec (8*k)) (hn : o+k ≤ n)
    (hi : i < k) : byteAt (setField b o k v) (o+i) = v.extractLsb' (8*i) 8 := by
  have h1 : o+i < n := by omega
  have h2 : o ≤ o+i ∧ o+i < o+k := by omega
  rw [byteAt, dif_pos h1, setField, if_pos h2, Nat.add_sub_cancel_left]

theorem byteAt_setField_out (b : Block n) {o k i : ℕ} (v : BitVec (8*k))
    (hi : i < o ∨ o+k ≤ i) : byteAt (setField b o k v) i = byteAt b i := by
  have h2 : ¬ (o ≤ i ∧ i < o+k) := by omega
  unfold byteAt
  split
  · rw [setField, if_neg h2]
  · rfl

theorem getField_congr {b c : Block n}
    (h : ∀ i, o ≤ i → i < o+k → byteAt b i = byteAt c i) : getField b o k = getField c o k := by
  induction k with
  | zero => rfl
  | succ k ih =>
    rw [getField, getField, h (o+k) (by omega) (by omega), ih (fun i h1 h2 => h i h1 (by omega))]

theorem getField_eq {b : Block n} {v : BitVec (8*k)}
    (h : ∀ i < k, byteAt b (o+i) = v.extractLsb' (8*i) 8) : getField b o k = v := by
  induction k with
  | zero => exact (BitVec.eq_nil _).trans (BitVec.eq_nil _).symm
  | succ k ih =>
    have hlow : getField b o k = v.extractLsb' 0 (8*k) := by
      refine ih (fun i hi => ?_)
      rw [h i (by omega)]
      ext j hj
      have hlt : 8*i+j < 8*k := by omega
      simp [hlt]
    rw [getField, h k (by omega), hlow]
    ext j hj
    simp only [BitVec.getElem_cast, BitVec.getElem_append, BitVec.getElem_extractLsb']
    split
    · rw [Nat.zero_add]
      exact BitVec.getLsbD_eq_getElem hj
    · rw [← BitVec.getLsbD_eq_getElem hj]
      congr 1
      omega

@[simp] theorem getField_setField (b : Block n) (v : BitVec (8*k)) (hn : o+k ≤ n) :
    getField (setField b o k v) o k = v :=
  getField_eq (fun _ hi => byteAt_setField_in b v hn hi)

theorem getField_setField_ne (b : Block n) {o k p l : ℕ} (v : BitVec (8*k))
    (h : p+l ≤ o ∨ o+k ≤ p) : getField (setField b o k v) p l = getField b p l :=
  getField_congr (fun _ _ _ => byteAt_setField_out b v (by omega))

def getBytes (b : Block n) (o k : ℕ) : List Byte := (List.range k).map (fun i => byteAt b (o+i))

def putBytes (b : Block n) (o : ℕ) (l : List Byte) : Block n :=
  fun i => if o ≤ i ∧ i < o+l.length then l.getD (i-o) 0 else b i

theorem byteAt_putBytes_in (b : Block n) {o i : ℕ} (hn : o+l.length ≤ n)
    (hi : i < l.length) : byteAt (putBytes b o l) (o+i) = l.getD i 0 := by
  have h1 : o+i < n := by omega
  have h2 : o ≤ o+i ∧ o+i < o+l.length := by omega
  rw [byteAt, dif_pos h1, putBytes, if_pos h2, Nat.add_sub_cancel_left]

theorem byteAt_putBytes_out (b : Block n) {o i : ℕ}
    (hi : i < o ∨ o+l.length ≤ i) : byteAt (putBytes b o l) i = byteAt b i := by
  have h2 : ¬ (o ≤ i ∧ i < o+l.length) := by omega
  unfold byteAt
  split
  · rw [putBytes, if_neg h2]
  · rfl

def setFields (b : Block n) (o k m : ℕ) (v : Fin m → BitVec (8*k)) : Block n :=
  fun i => if h : (i-o)/k < m ∧ o ≤ i then (v ⟨(i-o)/k,h.1⟩).extractLsb' (8*((i-o)%k)) 8 else b i

theorem byteAt_setFields_in (b : Block n) {o k m i : ℕ} (v : Fin m → BitVec (8*k)) (j : Fin m)
    (hn : o+k*m ≤ n) (hi : i < k) :
    byteAt (setFields b o k m v) (o+k*j+i) = (v j).extractLsb' (8*i) 8 := by
  have hkm : k*j.val+k ≤ k*m := by
    rw [← Nat.mul_succ]
    exact Nat.mul_le_mul_left k j.isLt
  have h1 : o+k*j+i < n := by omega
  have hsub : o+k*j.val+i-o = k*j.val+i := by omega
  have hdiv : (k*j.val+i)/k = j.val := by
    rw [Nat.mul_add_div (by omega), Nat.div_eq_of_lt hi, Nat.add_zero]
  have hmod : (k*j.val+i)%k = i := by
    rw [Nat.mul_add_mod, Nat.mod_eq_of_lt hi]
  rw [byteAt, dif_pos h1, setFields]
  simp only [hsub, hdiv, hmod]
  rw [dif_pos ⟨j.isLt,by omega⟩]

theorem byteAt_setFields_out (b : Block n) {o k m i : ℕ} (v : Fin m → BitVec (8*k))
    (hk : 0 < k) (hi : i < o ∨ o+k*m ≤ i) : byteAt (setFields b o k m v) i = byteAt b i := by
  have h2 : ¬ ((i-o)/k < m ∧ o ≤ i) := by
    rintro ⟨h3,h4⟩
    rw [Nat.div_lt_iff_lt_mul hk, Nat.mul_comm] at h3
    omega
  unfold byteAt
  split
  · rw [setFields, dif_neg h2]
  · rfl

theorem getField_setFields (b : Block n) {o k m : ℕ} (v : Fin m → BitVec (8*k)) (j : Fin m)
    (hn : o+k*m ≤ n) : getField (setFields b o k m v) (o+k*j) k = v j :=
  getField_eq (fun _ hi => byteAt_setFields_in b v j hn hi)

theorem getField_setFields_ne (b : Block n) {o k m p l : ℕ} (v : Fin m → BitVec (8*k))
    (hk : 0 < k) (h : p+l ≤ o ∨ o+k*m ≤ p) : getField (setFields b o k m v) p l = getField b p l :=
  getField_congr (fun _ _ _ => byteAt_setFields_out b v hk (by omega))

def testBit (b : Block n) (k : ℕ) : Bool := byteAt b (k/8) &&& (1#8 <<< (k%8)) != 0

def setBit (b : Block n) (k : ℕ) : Block n :=
  putBytes b (k/8) [byteAt b (k/8) ||| (1#8 <<< (k%8))]

def clearBit (b : Block n) (k : ℕ) : Block n :=
  putBytes b (k/8) [byteAt b (k/8) &&& ~~~(1#8 <<< (k%8))]

theorem mask_test : ∀ (x : Byte) (j : Fin 8), (x &&& (1#8 <<< j.val) != 0) = x.getLsbD j := by
  decide +kernel

theorem testBit_eq (b : Block n) (k : ℕ) : testBit b k = (byteAt b (k/8)).getLsbD (k%8) :=
  mask_test _ ⟨k%8,Nat.mod_lt k (by decide)⟩

theorem byteAt_putByte (b : Block n) {i : ℕ} (hi : i < n) (x : Byte) (j : ℕ) :
    byteAt (putBytes b i [x]) j = if j = i then x else byteAt b j := by
  split
  · rename_i h
    subst h
    exact byteAt_putBytes_in b (i := 0) (l := [x]) hi Nat.one_pos
  · exact byteAt_putBytes_out b (by simp only [List.length_singleton]; omega)

theorem testBit_setBit (b : Block n) {k : ℕ} (hk : k/8 < n) (j : ℕ) :
    testBit (setBit b k) j = (decide (j = k) || testBit b j) := by
  simp only [testBit_eq, setBit, byteAt_putByte b hk]
  have h8 : j%8 < 8 := Nat.mod_lt j (by decide)
  split
  · rename_i h
    simp only [BitVec.getLsbD_or, BitVec.getLsbD_shiftLeft, BitVec.getLsbD_one, h8, h]
    grind
  · have : j ≠ k := by grind
    simp [this]

end Yeet.Bytes
