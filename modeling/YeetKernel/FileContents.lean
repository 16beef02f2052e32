import YeetKernel.FsArray

/-!
# Reading and writing contents

The contents of a file are its bytes up to the size. On a volume in order a
write replaces a range of them or is refused, and a read gives a range back.
-/

namespace Yeet.Fs
open Kernel Bytes FsDisk Resumption Function

def contents (v : Volume) (d : Dinode) : List Byte := (List.range d.size.toNat).map (v.byte d)

/-- Each block belongs to one inode and is marked, no file has a hole, and slot `i` has the
copy of an allocated inode. Blocks may also be marked without belonging to an inode. -/
structure Consistent (loose : List Uint) (i : Ino) (s : State) : Prop where
  owned : Owned s.vol s.vol.dinode loose
  filled : ∀ n < s.vol.sb.ninodes, (s.vol.dinode n).type ≠ 0 → (s.vol.dinode n).type ≠ T_DEV →
    Filled s.vol (s.vol.dinode n)
  lt : s.num i < s.vol.sb.ninodes
  din : (s.inode i).din = s.vol.dinode (s.num i)
  type : (s.inode i).din.type ≠ 0

def viewOf (v : Volume) : View where
  inodes := v.sb.ninodes
  node := fun n => bare (v.dinode n)
  byte := fun n => v.byte (v.dinode n)

variable {loose : List Uint} {V : View} {i : Ino} {s s' : State} {o : ℕ} {l : List Byte}

theorem Consistent.sound (h : Consistent loose i s) : Sound loose (viewOf s.vol) i s where
  backed := ⟨h.owned,rfl,fun _ _ => rfl,fun _ _ _ _ => rfl,h.filled⟩
  lt := h.lt
  din := h.din
  type := h.type

theorem Sound.consistent (h : Sound loose V i s) : Consistent loose i s where
  owned := h.backed.owned
  filled := by
    rw [h.backed.inodes]
    exact h.backed.filled
  lt := by
    rw [h.backed.inodes]
    exact h.lt
  din := h.din
  type := h.type

theorem length_contents (v : Volume) (d : Dinode) : (contents v d).length = d.size.toNat := by
  rw [contents, List.length_map, List.length_range]

theorem Sound.contents (h : Sound loose V i s) {m : ℕ} (hm : m < V.inodes)
    (ht : (s.vol.dinode m).type ≠ 0) :
    Fs.contents s.vol (s.vol.dinode m) = V.bytes m 0 (V.size m) := by
  have hnode := h.backed.node m hm
  have hsize : V.size m = (s.vol.dinode m).size.toNat := by
    rw [View.size, hnode]
    rfl
  rw [Fs.contents, View.bytes, hsize]
  apply List.map_congr_left
  intro o _
  rw [Nat.zero_add, h.backed.byte m hm ht]

/-- A range of bytes is replaced, and the array grows if it has to. -/
def replace (c : List Byte) (o : ℕ) (l : List Byte) : List Byte := c.take o++l++c.drop (o+l.length)

theorem length_replace {c l : List Byte} (h : o ≤ c.length) :
    (replace c o l).length = max c.length (o+l.length) := by
  rw [replace, List.length_append, List.length_append, List.length_take, List.length_drop]
  omega

theorem overlay_replace (f : ℕ → Byte) {k o : ℕ} (l : List Byte) (h : o ≤ k) :
    (List.range (max k (o+l.length))).map (overlay f o l) = replace ((List.range k).map f) o l := by
  apply List.ext_getElem
  · rw [length_replace (by rw [List.length_map, List.length_range]; exact h), List.length_map,
      List.length_range, List.length_map, List.length_range]
  intro j h1 h2
  rw [List.length_map, List.length_range] at h1
  have hc : ((List.range k).map f).length = k := by rw [List.length_map, List.length_range]
  have ht : (((List.range k).map f).take o).length = o := by
    rw [List.length_take, hc]
    omega
  rw [List.getElem_map, List.getElem_range, overlay]
  simp only [replace]
  by_cases hj : j < o
  · rw [if_neg (by omega), List.getElem_append_left (by rw [List.length_append, ht]; omega),
      List.getElem_append_left (by rw [ht]; exact hj), List.getElem_take, List.getElem_map,
      List.getElem_range]
  by_cases hj' : j < o+l.length
  · rw [if_pos ⟨by omega,hj'⟩, List.getElem_append_left (by rw [List.length_append, ht]; omega),
      List.getElem_append_right (by rw [ht]; omega), List.getD_eq_getElem _ _ (by omega)]
    simp only [ht]
  rw [if_neg (by omega), List.getElem_append_right (by rw [List.length_append, ht]; omega),
    List.getElem_drop, List.getElem_map, List.getElem_range]
  congr 1
  rw [List.length_append, ht]
  omega

theorem size_write (V : View) (n : ℕ) (hmax : o+l.length ≤ MAXFILE*BSIZE) :
    (V.write n o l).size n = max (V.size n) (o+l.length) := by
  have hbig : MAXFILE*BSIZE < 2^32 := by decide
  show (update V.node n _ n).size.toNat = _
  rw [update_self]
  show (grow (V.node n).size (o+l.length)).toNat = _
  unfold grow View.size
  split
  · rw [BitVec.toNat_ofNat, Nat.mod_eq_of_lt (by omega)]
    omega
  · omega

theorem bytes_write (V : View) (n : ℕ) (ho : o ≤ V.size n) (hmax : o+l.length ≤ MAXFILE*BSIZE) :
    (V.write n o l).bytes n 0 ((V.write n o l).size n) = replace (V.bytes n 0 (V.size n)) o l := by
  have hbyte : (V.write n o l).byte n = overlay (V.byte n) o l := update_self _ _ _
  rw [size_write V n hmax]
  simp only [View.bytes, hbyte, Nat.zero_add]
  exact overlay_replace _ _ ho

structure Writes (i : Ino) (off : ℕ) (src : List Byte) (s s' : State) : Prop where
  contents : Fs.contents s'.vol (s'.inode i).din = replace (Fs.contents s.vol (s.inode i).din) off src
  others : ∀ m < s.vol.sb.ninodes, m ≠ s.num i → (s.vol.dinode m).type ≠ 0 →
    bare (s'.vol.dinode m) = bare (s.vol.dinode m) ∧
      Fs.contents s'.vol (s'.vol.dinode m) = Fs.contents s.vol (s.vol.dinode m)
  changed : Changed i s s'

theorem Sound.writes (h : Sound loose V i s) {off : ℕ} {src : List Byte} (ho : off ≤ V.size (s.num i))
    (hmax : off+src.length ≤ MAXFILE*BSIZE) (h' : Sound loose (V.write (s.num i) off src) i s')
    (hch : Changed i s s') : Writes i off src s s' := by
  have hnum := hch.num
  constructor
  case contents =>
    have ht := h.type
    have ht' := h'.type
    have hlt' := h'.lt
    rw [h.din] at ht ⊢
    rw [h'.din] at ht' ⊢
    rw [h'.contents hlt' ht', h.contents h.lt ht, hnum, bytes_write V _ ho hmax]
  case others =>
    intro m hm hne ht
    rw [h.backed.inodes] at hm
    have hnode : (V.write (s.num i) off src).node m = V.node m := update_of_ne hne _ _
    have hbyte : (V.write (s.num i) off src).byte m = V.byte m := update_of_ne hne _ _
    have hbare : bare (s'.vol.dinode m) = bare (s.vol.dinode m) := by
      rw [← h.backed.node m hm, ← h'.backed.node m hm]
      exact hnode
    have ht' : (s'.vol.dinode m).type ≠ 0 := by
      have : (bare (s'.vol.dinode m)).type = (bare (s.vol.dinode m)).type := by rw [hbare]
      change (s'.vol.dinode m).type = (s.vol.dinode m).type at this
      rw [this]
      exact ht
    refine ⟨hbare,?_⟩
    rw [h'.contents hm ht', h.contents hm ht]
    simp only [View.bytes, View.size, hnode, hbyte]
  case changed => exact hch

section Read

variable (h : Consistent loose i s) (hd : (s.inode i).din.type ≠ T_DEV)

include h hd

theorem Consistent.stored : Stored s.vol (s.inode i).din (contents s.vol (s.inode i).din) := by
  have hf := h.sound.filled hd
  have hlen := length_contents s.vol (s.inode i).din
  constructor
  case size => exact Nat.le_of_eq hlen
  case small =>
    rw [hlen]
    exact hf.small
  case block =>
    intro o ho
    rw [hlen] at ho
    exact hf.byteBlock ho
  case byte =>
    intro o ho
    rw [List.getD_eq_getElem _ _ ho]
    simp only [contents, List.getElem_map, List.getElem_range]

theorem returns_readi_all (off n : Uint) {P : ℤ × List Byte → State → Prop}
    (hno : (s.inode i).din.size.toNat < off.toNat ∨ 2^32 ≤ off.toNat+n.toNat → P (-1,[]) s)
    (hyes : off.toNat ≤ (s.inode i).din.size.toNat → off.toNat+n.toNat < 2^32 →
      P ((((contents s.vol (s.inode i).din).drop off.toNat).take n.toNat).length,
        ((contents s.vol (s.inode i).din).drop off.toNat).take n.toNat) s) :
    Returns (readi i off n) P s := by
  have hst := h.stored hd
  have hlen := length_contents s.vol (s.inode i).din
  have hsmall := hst.small
  have hbig : MAXFILE*BSIZE < 2^31 := by decide
  rw [hlen] at hsmall
  have hoff := off.isLt
  have hcond : ((s.inode i).din.size < off ∨ off+n < off) ↔
      (s.inode i).din.size.toNat < off.toNat ∨ 2^32 ≤ off.toNat+n.toNat := by
    rw [BitVec.lt_def, BitVec.lt_def, BitVec.toNat_add]
    have := n.isLt
    omega
  unfold readi
  refine returns_bind (returns_fetch ?_)
  simp only [if_neg hd]
  split
  · rename_i hc
    exact returns_pure (hno (hcond.mp hc))
  rename_i hc
  rw [hcond] at hc
  have hsum : (off+n).toNat = off.toNat+n.toNat := by
    rw [BitVec.toNat_add]
    exact Nat.mod_eq_of_lt (by omega)
  have hm : (if (s.inode i).din.size < off+n then (s.inode i).din.size-off else n).toNat =
      min n.toNat ((s.inode i).din.size.toNat-off.toNat) := by
    split
    · rename_i hlt
      rw [BitVec.lt_def, hsum] at hlt
      rw [BitVec.toNat_sub_of_le (BitVec.le_def.mpr (by omega))]
      omega
    · rename_i hlt
      rw [BitVec.lt_def, hsum] at hlt
      omega
  generalize (if (s.inode i).din.size < off+n then (s.inode i).din.size-off else n) = m at hm ⊢
  have hint : m.toInt = (m.toNat : ℤ) := BitVec.toInt_eq_toNat_of_lt (by omega)
  have htake : ((contents s.vol (s.inode i).din).drop off.toNat).take m.toNat =
      ((contents s.vol (s.inode i).din).drop off.toNat).take n.toNat := by
    rw [hm, ← hlen, ← List.length_drop]
    exact List.take_eq_take_min.symm
  have hcount : m.toNat = (((contents s.vol (s.inode i).din).drop off.toNat).take n.toNat).length := by
    rw [List.length_take, List.length_drop, hlen, hm]
  refine returns_bind (returns_mono (returns_readBlocks hst _ _ _ _ (by rw [hlen]; omega)
    (Nat.le_refl _)) (fun r s' hr => returns_pure ?_))
  rw [hr.1, hr.2, List.nil_append, htake, hint, hcount]
  exact hyes (by omega) (by omega)

end Read

end Yeet.Fs
