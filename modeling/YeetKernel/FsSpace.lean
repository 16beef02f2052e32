import Mathlib.Order.Interval.Finset.Nat
import YeetKernel.FsBacks
import YeetKernel.FsReads

/-!
# Free blocks

How many blocks are free, and how many a write is going to take: one for each
block of its range that is not there yet, and one for the indirect block. Both
go down together, so what is left over is known before the write starts.
-/

namespace Yeet.FsDisk
open Kernel

variable {b : Uint}

theorem allocated_front {v w : Volume} (h : Allocated v w b) : SameFront v w := ⟨h.sb,h.front⟩

variable {m : ℕ}

theorem dinode_write_data {v : Volume} (hv : v.Laid) (hb : InData v.sb b)
    (hm : m < v.sb.ninodes) (x : DiskBlock) : (v.write b.toNat x).dinode m = v.dinode m := by
  show getDinode ((v.write _ _).disk (v.sb.iblock m)) _ = getDinode (v.disk (v.sb.iblock m)) _
  rw [disk_write_ne]
  have h1 := hv.iblock_lt hm
  have h2 := bmapstart_lt v.sb
  have h3 := hb.1
  omega

def Volume.free (v : Volume) : ℕ :=
  ((Finset.range v.sb.size).filter (fun b => v.sb.inUse v.disk b = false)).card

def touched (o y : ℕ) : Finset ℕ := (Finset.Ico o y).image (fun i => i/BSIZE)

def Volume.lacks (v : Volume) (d : Dinode) (k : ℕ) : ℕ :=
  (if v.addr d k = 0 then 1 else 0)+(if NDIRECT ≤ k ∧ d.indirect = 0 then 1 else 0)

def Volume.missing (v : Volume) (d : Dinode) (o y : ℕ) : ℕ :=
  ((touched o y).filter (fun k => v.addr d k = 0)).card+
    (if (∃ k ∈ touched o y, NDIRECT ≤ k) ∧ d.indirect = 0 then 1 else 0)

variable {v w : Volume} {D : ℕ → Dinode} {loose : List Uint} {b : Uint} {d e : Dinode} {o y k : ℕ}

theorem free_congr (hs : w.sb = v.sb)
    (hu : ∀ c < v.sb.size, v.sb.inUse w.disk c = v.sb.inUse v.disk c) : w.free = v.free := by
  unfold Volume.free
  rw [hs]
  congr 1
  apply Finset.filter_congr
  intro c hc
  rw [hu c (Finset.mem_range.mp hc)]

theorem free_write_data (hb : InData v.sb b) (x : DiskBlock) : (v.write b.toNat x).free = v.free := by
  refine free_congr rfl (fun c hc => ?_)
  unfold Superblock.inUse
  rw [disk_write_ne]
  have := bblock_lt v.sb hc
  have := hb.1
  omega

theorem free_setDinode (hv : v.Laid) (hm : m < v.sb.ninodes) (d : Dinode) :
    (v.setDinode m d).free = v.free := by
  refine free_congr rfl (fun c _ => ?_)
  unfold Superblock.inUse
  rw [Volume.setDinode, disk_write_ne]
  have := hv.iblock_lt hm
  have := bmapstart_le v.sb c
  omega

theorem Allocated.free_succ (h : Allocated v w b) : w.free+1 = v.free := by
  have hmem : b.toNat ∈ (Finset.range v.sb.size).filter (fun c => v.sb.inUse v.disk c = false) :=
    Finset.mem_filter.mpr ⟨Finset.mem_range.mpr h.data.2,h.free⟩
  have herase : (Finset.range w.sb.size).filter (fun c => w.sb.inUse w.disk c = false) =
      ((Finset.range v.sb.size).filter (fun c => v.sb.inUse v.disk c = false)).erase b.toNat := by
    ext c
    rw [h.sb, Finset.mem_erase, Finset.mem_filter, Finset.mem_filter, Finset.mem_range]
    constructor
    · intro hc
      have hbit := h.bits c (Or.inl hc.1)
      rw [hc.2] at hbit
      simp only [Bool.false_eq, Bool.or_eq_false_iff, decide_eq_false_iff_not] at hbit
      exact ⟨hbit.1,hc.1,hbit.2⟩
    · intro hc
      refine ⟨hc.2.1,?_⟩
      rw [h.bits c (Or.inl hc.2.1), hc.2.2]
      simp [hc.1]
  unfold Volume.free
  rw [herase]
  exact Finset.card_erase_add_one hmem

theorem balloc_of_free (h : 0 < v.free) : ∃ r, balloc v = .ok r := by
  obtain ⟨c,hc⟩ := Finset.card_pos.mp h
  rw [Finset.mem_filter, Finset.mem_range] at hc
  unfold balloc
  cases hf : (List.range v.sb.size).find? (fun b => !v.sb.inUse v.disk b) with
  | none =>
    have := List.find?_eq_none.mp hf c (List.mem_range.mpr hc.1)
    rw [hc.2] at this
    exact absurd rfl this
  | some a => exact ⟨_,rfl⟩

theorem balloc_of_full (h : v.free = 0) : balloc v = .error (.panic "balloc: out of blocks") := by
  have hnone : (List.range v.sb.size).find? (fun b => !v.sb.inUse v.disk b) = none := by
    apply List.find?_eq_none.mpr
    intro c hc hu
    have hempty := Finset.card_eq_zero.mp h
    have hmem : c ∈ (Finset.range v.sb.size).filter (fun b => v.sb.inUse v.disk b = false) := by
      rw [Finset.mem_filter, Finset.mem_range]
      exact ⟨List.mem_range.mp hc,by simpa using hu⟩
    rw [hempty] at hmem
    exact absurd hmem (Finset.notMem_empty c)
  unfold balloc
  rw [hnone]

theorem mem_touched : k ∈ touched o y ↔ ∃ i, (o ≤ i ∧ i < y) ∧ i/BSIZE = k := by
  simp only [touched, Finset.mem_image, Finset.mem_Ico]

theorem touched_empty (h : y ≤ o) : touched o y = ∅ := by
  rw [touched, Finset.Ico_eq_empty (by omega), Finset.image_empty]

theorem missing_empty (h : y ≤ o) : v.missing d o y = 0 := by
  rw [Volume.missing, touched_empty h]
  simp

theorem missing_le (v : Volume) (d : Dinode) (o y : ℕ) : v.missing d o y ≤ y-o+1 := by
  have h1 := Finset.card_filter_le (touched o y) (fun k => v.addr d k = 0)
  have h2 : (touched o y).card ≤ (Finset.Ico o y).card := Finset.card_image_le
  rw [Nat.card_Ico] at h2
  unfold Volume.missing
  split <;> omega

theorem missing_mono (v : Volume) (d : Dinode) (o : ℕ) {y z : ℕ} (h : y ≤ z) :
    v.missing d o y ≤ v.missing d o z := by
  have hsub : touched o y ⊆ touched o z :=
    Finset.image_subset_image (Finset.Ico_subset_Ico_right h)
  unfold Volume.missing
  apply Nat.add_le_add
  · exact Finset.card_le_card (Finset.filter_subset_filter _ hsub)
  split
  · rename_i h0
    obtain ⟨⟨k,hk,hd⟩,hi⟩ := h0
    rw [if_pos ⟨⟨k,hsub hk,hd⟩,hi⟩]
  · exact Nat.zero_le _

theorem lacks_le_missing (h : o < y) : v.lacks d (o/BSIZE) ≤ v.missing d o y := by
  have hmem : o/BSIZE ∈ touched o y := mem_touched.mpr ⟨o,⟨Nat.le_refl _,h⟩,rfl⟩
  unfold Volume.lacks Volume.missing
  apply Nat.add_le_add
  · split
    · rename_i h0
      exact Finset.card_pos.mpr ⟨_,Finset.mem_filter.mpr ⟨hmem,h0⟩⟩
    · exact Nat.zero_le _
  split
  · rename_i h0
    rw [if_pos ⟨⟨_,hmem,h0.1⟩,h0.2⟩]
  · exact Nat.zero_le _

theorem touched_step (h : o < y) :
    touched o y = insert (o/BSIZE) (touched (o+min (y-o) (BSIZE-o%BSIZE)) y) := by
  have hd := Nat.div_add_mod' o BSIZE
  have hm := Nat.mod_lt o (show 0 < BSIZE by decide)
  ext k
  rw [Finset.mem_insert, mem_touched, mem_touched]
  constructor
  · intro hk
    obtain ⟨i,hi,rfl⟩ := hk
    by_cases hnext : o+min (y-o) (BSIZE-o%BSIZE) ≤ i
    · exact Or.inr ⟨i,⟨hnext,hi.2⟩,rfl⟩
    left
    apply Nat.div_eq_of_lt_le
    · omega
    · rw [Nat.succ_mul]
      omega
  · intro hk
    rcases hk with rfl | hk
    · exact ⟨o,⟨Nat.le_refl _,h⟩,rfl⟩
    · obtain ⟨i,hi,rfl⟩ := hk
      exact ⟨i,⟨by omega,hi.2⟩,rfl⟩

theorem touched_later (hk : k ∈ touched (o+min (y-o) (BSIZE-o%BSIZE)) y) : o/BSIZE < k := by
  have hd := Nat.div_add_mod' o BSIZE
  have hm := Nat.mod_lt o (show 0 < BSIZE by decide)
  obtain ⟨i,hi,rfl⟩ := mem_touched.mp hk
  apply (Nat.le_div_iff_mul_le (by decide)).mpr
  rw [Nat.succ_mul]
  omega

theorem missing_step (h : o < y) (haddr : ∀ j, j ≠ o/BSIZE → w.addr e j = v.addr d j)
    (hi : e.indirect = 0 ↔ d.indirect = 0 ∧ o/BSIZE < NDIRECT) :
    v.missing d o y = v.lacks d (o/BSIZE)+w.missing e (o+min (y-o) (BSIZE-o%BSIZE)) y := by
  have hcongr : (touched (o+min (y-o) (BSIZE-o%BSIZE)) y).filter (fun k => v.addr d k = 0) =
      (touched (o+min (y-o) (BSIZE-o%BSIZE)) y).filter (fun k => w.addr e k = 0) := by
    apply Finset.filter_congr
    intro k hk
    rw [haddr k (Nat.ne_of_gt (touched_later hk))]
  have hnot : o/BSIZE ∉ (touched (o+min (y-o) (BSIZE-o%BSIZE)) y).filter
      (fun k => w.addr e k = 0) := fun hk =>
    Nat.lt_irrefl _ (touched_later (Finset.mem_filter.mp hk).1)
  have hcard : ((touched o y).filter (fun k => v.addr d k = 0)).card =
      (if v.addr d (o/BSIZE) = 0 then 1 else 0)+
        ((touched (o+min (y-o) (BSIZE-o%BSIZE)) y).filter (fun k => w.addr e k = 0)).card := by
    rw [touched_step h, Finset.filter_insert, hcongr]
    split
    · rw [Finset.card_insert_of_notMem hnot]
      omega
    · omega
  have hex : (∃ k ∈ touched o y, NDIRECT ≤ k) ↔
      NDIRECT ≤ o/BSIZE ∨ ∃ k ∈ touched (o+min (y-o) (BSIZE-o%BSIZE)) y, NDIRECT ≤ k := by
    rw [touched_step h, Finset.exists_mem_insert]
  have hind : (if (∃ k ∈ touched o y, NDIRECT ≤ k) ∧ d.indirect = 0 then 1 else 0) =
      (if NDIRECT ≤ o/BSIZE ∧ d.indirect = 0 then 1 else 0)+
        (if (∃ k ∈ touched (o+min (y-o) (BSIZE-o%BSIZE)) y, NDIRECT ≤ k) ∧ e.indirect = 0 then 1
          else 0) := by
    by_cases h0 : d.indirect = 0
    · by_cases hk : o/BSIZE < NDIRECT
      · simp only [hex, h0, hi, hk, Nat.not_le.mpr hk, and_true, false_or, if_false, Nat.zero_add]
      · have hk' := Nat.not_lt.mp hk
        simp only [hex, h0, hi, hk, hk', and_true, and_false, true_or, if_true, if_false]
    · simp only [hi, h0, and_false, false_and, if_false]
  unfold Volume.missing Volume.lacks
  rw [hcard, hind]
  omega

/-- The blocks from `o` up to `y` have been mapped, and those that were missing come from
the free ones. -/
structure Spans (v : Volume) (d : Dinode) (w : Volume) (e : Dinode) (o y : ℕ) : Prop where
  there : ∀ k ∈ touched o y, w.addr e k ≠ 0
  addr : ∀ k, k ∉ touched o y → w.addr e k = v.addr d k
  indirect : e.indirect = 0 ↔ d.indirect = 0 ∧ ∀ k ∈ touched o y, k < NDIRECT
  free : w.free+v.missing d o y = v.free

theorem spans_empty (v : Volume) (d : Dinode) (h : y ≤ o) : Spans v d v d o y := by
  constructor
  case there =>
    rw [touched_empty h]
    exact fun k hk => absurd hk (Finset.notMem_empty k)
  case addr => exact fun _ _ => rfl
  case indirect =>
    rw [touched_empty h]
    exact ⟨fun h0 => ⟨h0,fun k hk => absurd hk (Finset.notMem_empty k)⟩,fun h0 => h0.1⟩
  case free => rw [missing_empty h, Nat.add_zero]

theorem Spans.same_addr {w' : Volume} {e' : Dinode} (h : Spans v d w e o y)
    (ha : ∀ k, w'.addr e' k = w.addr e k) (hi : e'.indirect = e.indirect) (hf : w'.free = w.free) :
    Spans v d w' e' o y := by
  constructor
  case there =>
    intro k hk
    rw [ha]
    exact h.there k hk
  case addr =>
    intro k hk
    rw [ha]
    exact h.addr k hk
  case indirect =>
    rw [hi]
    exact h.indirect
  case free =>
    rw [hf]
    exact h.free

theorem Spans.missing_append {z : ℕ} (h : Spans v d w e o y) (hoy : o ≤ y) (hyz : y ≤ z) :
    v.missing d o z = v.missing d o y+w.missing e y z := by
  have hunion : touched o z = touched o y ∪ (touched y z \ touched o y) := by
    rw [Finset.union_sdiff_self_eq_union]
    ext k
    rw [Finset.mem_union, mem_touched, mem_touched, mem_touched]
    constructor
    · intro hk
      obtain ⟨i,hi,rfl⟩ := hk
      by_cases hiy : i < y
      · exact Or.inl ⟨i,⟨hi.1,hiy⟩,rfl⟩
      · exact Or.inr ⟨i,⟨by omega,hi.2⟩,rfl⟩
    · intro hk
      rcases hk with ⟨i,hi,rfl⟩ | ⟨i,hi,rfl⟩
      · exact ⟨i,⟨hi.1,by omega⟩,rfl⟩
      · exact ⟨i,⟨by omega,hi.2⟩,rfl⟩
  have hrest : (touched y z \ touched o y).filter (fun k => v.addr d k = 0) =
      (touched y z).filter (fun k => w.addr e k = 0) := by
    ext k
    rw [Finset.mem_filter, Finset.mem_filter, Finset.mem_sdiff]
    constructor
    · intro hk
      rw [h.addr k hk.1.2]
      exact ⟨hk.1.1,hk.2⟩
    intro hk
    have hnot : k ∉ touched o y := fun hm => h.there k hm hk.2
    rw [h.addr k hnot] at hk
    exact ⟨⟨hk.1,hnot⟩,hk.2⟩
  have hcard : ((touched o z).filter (fun k => v.addr d k = 0)).card =
      ((touched o y).filter (fun k => v.addr d k = 0)).card+
        ((touched y z).filter (fun k => w.addr e k = 0)).card := by
    rw [hunion, Finset.filter_union, hrest, Finset.card_union_of_disjoint]
    rw [← hrest]
    exact Finset.disjoint_filter_filter Finset.disjoint_sdiff
  have hex : (∃ k ∈ touched o z, NDIRECT ≤ k) ↔
      (∃ k ∈ touched o y, NDIRECT ≤ k) ∨ ∃ k ∈ touched y z, NDIRECT ≤ k := by
    rw [hunion, Finset.union_sdiff_self_eq_union]
    simp only [Finset.mem_union, or_and_right, exists_or]
  have hall : (∀ k ∈ touched o y, k < NDIRECT) ↔ ¬ ∃ k ∈ touched o y, NDIRECT ≤ k := by
    simp only [not_exists, not_and, Nat.not_le]
  have hind : (if (∃ k ∈ touched o z, NDIRECT ≤ k) ∧ d.indirect = 0 then 1 else 0) =
      (if (∃ k ∈ touched o y, NDIRECT ≤ k) ∧ d.indirect = 0 then 1 else 0)+
        (if (∃ k ∈ touched y z, NDIRECT ≤ k) ∧ e.indirect = 0 then 1 else 0) := by
    by_cases h0 : d.indirect = 0
    · by_cases h1 : ∃ k ∈ touched o y, NDIRECT ≤ k
      · simp only [hex, h.indirect, hall, h0, h1, true_or, and_true, not_true_eq_false, and_false,
          if_true, if_false]
      · simp only [hex, h.indirect, hall, h0, h1, false_or, and_true, not_false_eq_true, if_false,
          Nat.zero_add]
    · simp only [h.indirect, h0, and_false, false_and, if_false]
  unfold Volume.missing
  rw [hcard, hind]
  omega

end Yeet.FsDisk
