import YeetKernel.MkfsImage

/-!
# Is the image well formed?

The size of the root directory is rounded up past its last entry. If the
entries end exactly at a block boundary, the new size takes in a block that
was never allocated.
-/

namespace Yeet.Mkfs
open Kernel FsDisk Fs Function

structure WellFormed (v : Volume) : Prop where
  filled : ∀ n < v.sb.ninodes, (v.dinode n).type ≠ 0 →
    ∀ k, k*BSIZE < (v.dinode n).size.toNat → InData v.sb (v.addr (v.dinode n) k)
  unique : ∀ n p m q b, Ref v v.dinode n p b → Ref v v.dinode m q b → n = m ∧ p = q
  map : ∀ b < BPB, v.sb.inUse v.disk b = true ↔
    b < v.sb.dataStart ∨ ∃ n p, Ref v v.dinode n p (BitVec.ofNat 32 b)

variable {m : Image} {D : ℕ → Dinode} {V : View}

theorem ref_congr {v : Volume} {E : ℕ → Dinode} (h : ∀ j < v.sb.ninodes, v.dinode j = E j)
    (n : ℕ) (p : Option ℕ) (b : Uint) : Ref v v.dinode n p b ↔ Ref v E n p b := by
  constructor
  all_goals
    intro hr
    have e := h n hr.inode
    exact ⟨hr.inode,e ▸ hr.type,e ▸ hr.block,hr.ne⟩

theorem Made.parts (h : Made m D V) (k : ℕ) :
    let v := (m.setInode rootino (newRoot D k)).marked
    (∀ n p j q b, Ref v v.dinode n p b → Ref v v.dinode j q b → n = j ∧ p = q) ∧
      ∀ b < BPB, v.sb.inUse v.disk b = true ↔
        b < v.sb.dataStart ∨ ∃ n p, Ref v v.dinode n p (BitVec.ofNat 32 b) := by
  intro v
  have ho : Owned v (update D rootino (newRoot D k)) [] := h.owned_root k
  have hr := ref_congr (v := v) (fun j hj => h.table_root k hj)
  refine ⟨fun n p j q b h1 h2 => ho.unique n p j q b ((hr _ _ _).mp h1) ((hr _ _ _).mp h2),
    fun b hb => ?_⟩
  have hB : BPB < 2^32 := by decide
  have hbN : (BitVec.ofNat 32 b).toNat = b := by
    rw [BitVec.toNat_ofNat]
    exact Nat.mod_eq_of_lt (by omega)
  have hsmall : (m.setInode rootino (newRoot D k)).freeblock ≤ BPB := h.base.small
  have huse : v.sb.inUse v.disk b = decide (b < m.freeblock) := inUse_marked hsmall hb
  by_cases hfront : b < v.sb.dataStart
  · exact iff_of_true (ho.front b hfront) (Or.inl hfront)
  by_cases hin : b < FSSIZE
  · have hd : InData v.sb (BitVec.ofNat 32 b) := by
      unfold InData
      rw [hbN]
      exact ⟨Nat.not_lt.mp hfront,hin⟩
    have := ho.used _ hd
    rw [hbN] at this
    rw [this]
    simp only [hr, List.not_mem_nil, or_false, hfront, false_or]
  -- past the end of the image no bit is set
  rw [huse]
  have := h.base.high
  refine iff_of_false (by simp; omega) ?_
  rintro (hc | ⟨n,p,hc⟩)
  · exact hfront hc
  · have := (ho.range _ _ _ ((hr _ _ _).mp hc)).2
    rw [hbN] at this
    exact hin this

theorem covers_rounded {k : ℕ} : (∀ i, i*BSIZE < rounded k → i*BSIZE < direntSize*(k+2)) ↔
      (k+2)%(BSIZE/direntSize) ≠ 0 := by
  have hd : BSIZE/direntSize = 32 := rfl
  rw [hd]
  simp only [rounded, direntSize, BSIZE]
  constructor
  · intro h
    have := h (16*(k+2)/512) (by omega)
    omega
  · intro h i hi
    omega

theorem Made.filled_iff {files : List Input} (h : Made m D V) (hh : Holds V files)
    (hk : files.length ≤ NINODES) :
    let v := (m.setInode rootino (newRoot D files.length)).marked
    (∀ n < v.sb.ninodes, (v.dinode n).type ≠ 0 →
      ∀ k, k*BSIZE < (v.dinode n).size.toNat → InData v.sb (v.addr (v.dinode n) k)) ↔
      (files.length+2)%(BSIZE/direntSize) ≠ 0 := by
  intro v
  have ho : Owned v (update D rootino (newRoot D files.length)) [] := h.owned_root _
  have hroot : v.dinode rootino = newRoot D files.length := by
    rw [h.table_root _ root_lt, update_self]
  have htype : (D rootino).type ≠ 0 := by
    rw [← h.type root_lt, hh.dir]
    decide
  have hblock : ∀ j < NINODES, (D j).type ≠ 0 → ∀ i, v.addr (v.dinode j) i ≠ 0 ↔
      i*BSIZE < V.size j := by
    intro j hj hjt i
    rw [h.addr_root _ hj hjt]
    exact h.tight j hj hjt (some i)
  have hsize : V.size rootino = direntSize*(files.length+2) := by
    rw [hh.root.size, length_rootData]
  rw [← covers_rounded]
  constructor
  · intro hf i hi
    have hin := hf rootino root_lt (by rw [hroot]; exact htype) i (by
      rw [hroot, newRoot, toNat_rounded hk]
      exact hi)
    have hne := InData.ne_zero ho.laid hin
    rw [← hsize]
    exact (hblock rootino root_lt htype i).mp hne
  intro hc n hn ht i hi
  have hn : n < NINODES := hn
  have hD : (v.dinode n).type = (D n).type := h.type_root _ hn
  have hlt : i*BSIZE < V.size n := by
    by_cases he : n = rootino
    · subst he
      rw [hroot, newRoot, toNat_rounded hk] at hi
      rw [hsize]
      exact hc i hi
    · rw [h.table_root _ hn, update_of_ne he] at hi
      rw [View.size, h.base.backs.node n (by rwa [h.base.inodes])]
      exact hi
  have hne := (hblock n hn (by rwa [← hD]) i).mpr hlt
  have hr := ref_addr (v := v) (D := v.dinode) hn ht hne
  exact ho.range _ _ _ ((ref_congr (fun j hj => h.table_root _ hj) _ _ _).mp hr)

/-- The image is well formed exactly when the entries of the root directory do not
end at the boundary of a block. -/
theorem mkfs_image_iff (files : List Input) (h : Fits files) : ∃ img, mkfs files = .ok img ∧
      (WellFormed (mounted img.disk) ↔ (files.length+2)%(BSIZE/direntSize) ≠ 0) := by
  obtain ⟨img,m,D,V,hok,hmade,hh,hv⟩ := mkfs_makes h
  have hk : files.length ≤ NINODES := by
    have := h.inodes
    omega
  have hp := hmade.parts files.length
  have hf := hmade.filled_iff hh hk
  refine ⟨img,hok,?_⟩
  rw [hv]
  constructor
  · intro hw
    exact hf.mp hw.filled
  · intro hne
    exact ⟨hf.mpr hne,hp.1,hp.2⟩

theorem mkfs_image_one : ∃ img, mkfs [⟨[97],[1,2,3]⟩] = .ok img ∧
    (WellFormed (mounted img.disk) ↔ (1+2)%(BSIZE/direntSize) ≠ 0) :=
  mkfs_image_iff [⟨[97],[1,2,3]⟩] ⟨by decide,by decide,by decide,by decide⟩

def thirty : List Input := (List.range 30).map (fun i => ⟨[BitVec.ofNat 8 (97+i)],[]⟩)

/-- With thirty files the root directory has thirty-two entries, and a hole. -/
theorem mkfs_leaves_hole : ∃ img, mkfs thirty = .ok img ∧ ¬ WellFormed (mounted img.disk) := by
  have hfits : Fits thirty := ⟨by decide,by decide,by decide,by decide⟩
  obtain ⟨img,m,D,V,hok,hmade,hh,hv⟩ := mkfs_makes hfits
  refine ⟨img,hok,fun hw => ?_⟩
  rw [hv] at hw
  exact (hmade.filled_iff hh (by decide)).mp hw.filled (by decide)

end Yeet.Mkfs
