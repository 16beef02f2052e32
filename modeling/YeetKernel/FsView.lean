import YeetKernel.FsBytes
import YeetKernel.FsPath

/-!
# The file system as its users see it

A view has for each inode number its attributes and its bytes. Where the bytes
are on disk is left out, so an operation on a file is one change of the view:
a write puts its bytes over those of the view and moves the size.
-/

namespace Yeet.Fs
open Kernel Bytes FsDisk Function

def bare (d : Dinode) : Dinode := {d with addrs := fun _ => 0}

structure View where
  inodes : ℕ
  node : ℕ → Dinode
  byte : ℕ → ℕ → Byte

namespace View

def setNode (V : View) (n : ℕ) (d : Dinode) : View := {V with node := update V.node n d}

def setByte (V : View) (n : ℕ) (b : ℕ → Byte) : View := {V with byte := update V.byte n b}

def claim (V : View) (n : ℕ) (type : Ushort) : View :=
  (V.setNode n {Dinode.zero with type := type}).setByte n (fun _ => 0)

end View

def overlay (f : ℕ → Byte) (o : ℕ) (l : List Byte) (i : ℕ) : Byte :=
  if o ≤ i ∧ i < o+l.length then l.getD (i-o) 0 else f i

def grow (size : Uint) (o : ℕ) : Uint := if size.toNat < o then BitVec.ofNat 32 o else size

namespace View

def write (V : View) (n o : ℕ) (l : List Byte) : View :=
  (V.setNode n {V.node n with size := grow (V.node n).size (o+l.length)}).setByte n
    (overlay (V.byte n) o l)

def bytes (V : View) (n o k : ℕ) : List Byte := (List.range k).map (fun i => V.byte n (o+i))

def size (V : View) (n : ℕ) : ℕ := (V.node n).size.toNat

end View

variable {V : View} {z n o : ℕ} {l : List Byte}

theorem blockNo_lt (h : o < MAXFILE*BSIZE) : o/BSIZE < MAXFILE :=
  (Nat.div_lt_iff_lt_mul (by decide)).mpr h

theorem below_next {off k : ℕ} (hz : off ≤ z) (hlt : k*BSIZE < max z (off/BSIZE*BSIZE+1))
    (e : k ≠ off/BSIZE) : k*BSIZE < z := by
  have hle := Nat.div_mul_le_self off BSIZE
  rcases lt_max_iff.mp hlt with hlt | hlt
  · exact hlt
  · have h1 : k ≤ off/BSIZE := Nat.le_of_mul_le_mul_right (Nat.lt_succ_iff.mp hlt) (by decide)
    have h2 := Nat.mul_lt_mul_of_pos_right (Nat.lt_of_le_of_ne h1 e) (show 0 < BSIZE by decide)
    omega

theorem within_block {off m k : ℕ} (hm : m ≤ BSIZE-off%BSIZE) (hk : k*BSIZE < max z (off+m)) :
    k*BSIZE < max z (off/BSIZE*BSIZE+1) := by
  have hmod := Nat.mod_lt off (show 0 < BSIZE by decide)
  have hdiv := Nat.div_add_mod' off BSIZE
  rcases lt_max_iff.mp hk with hk | hk
  · exact lt_max_iff.mpr (Or.inl hk)
  refine lt_max_iff.mpr (Or.inr (Nat.lt_succ_of_le ?_))
  apply Nat.mul_le_mul_right
  refine Nat.le_of_lt_succ (Nat.lt_of_mul_lt_mul_right (a := BSIZE) ?_)
  rw [Nat.succ_mul]
  omega

theorem overlay_append (f : ℕ → Byte) (o : ℕ) (l l' : List Byte) :
    overlay (overlay f o l) (o+l.length) l' = overlay f o (l++l') := by
  funext i
  unfold overlay
  rw [List.length_append]
  by_cases h1 : o+l.length ≤ i ∧ i < o+l.length+l'.length
  · rw [if_pos h1, if_pos (by omega), List.getD_eq_getElem?_getD, List.getD_eq_getElem?_getD,
      List.getElem?_append_right (by omega), Nat.sub_add_eq]
  rw [if_neg h1]
  by_cases h2 : o ≤ i ∧ i < o+l.length
  · rw [if_pos h2, if_pos (by omega), List.getD_eq_getElem?_getD, List.getD_eq_getElem?_getD,
      List.getElem?_append_left (by omega)]
  · rw [if_neg h2, if_neg (by omega)]

theorem setByte_setByte (V : View) (n : ℕ) (f g : ℕ → Byte) :
    (V.setByte n f).setByte n g = V.setByte n g := by
  simp only [View.setByte, update_idem]

theorem overlay_nil (f : ℕ → Byte) (o : ℕ) : overlay f o [] = f := by
  funext i
  exact if_neg (by simp only [List.length_nil]; omega)

theorem setByte_self (V : View) (n : ℕ) : V.setByte n (V.byte n) = V := by
  simp only [View.setByte, update_eq_self]

theorem setNode_self (V : View) (n : ℕ) : V.setNode n (V.node n) = V := by
  simp only [View.setNode, update_eq_self]

theorem write_raise (h : V.size n < o+l.length) : (V.setByte n (overlay (V.byte n) o l)).setNode n
      {V.node n with size := BitVec.ofNat 32 (o+l.length)} = V.write n o l := by
  unfold View.size at h
  rw [View.write, grow, if_pos h]
  rfl

theorem write_inside (h : o+l.length ≤ V.size n) :
    V.setByte n (overlay (V.byte n) o l) = V.write n o l := by
  unfold View.size at h
  rw [View.write, grow, if_neg (Nat.not_lt.mpr h)]
  exact congrArg (fun W => View.setByte W n _) (setNode_self V n).symm

end Yeet.Fs
