import YeetKernel.FsSpace

/-!
# A block of a file

`bmap` finds a block or takes a free one, and one more for the indirect block.
Only the volume and the addresses of the inode in memory change, and it fails
just when there are not enough free blocks.
-/

namespace Yeet.Fs
open Kernel FsDisk Resumption Function

def Changed (i : Ino) (s s' : State) : Prop :=
  ∃ v d, s' = {s with vol := v}.setInode i {s.inode i with din := d}

structure Mapped (loose : List Uint) (V : View) (i : Ino) (n k : ℕ) (s : State) (D : ℕ → Dinode)
    (s' : State) (D' : ℕ → Dinode) : Prop where
  backed : Backed loose s'.vol D' V
  changed : Changed i s s'
  din : (s'.inode i).din = D' n
  other : ∀ m, m ≠ n → D' m = D m
  node : bare (D' n) = bare (D n)
  disk : ∀ m < V.inodes, s'.vol.dinode m = s.vol.dinode m
  there : s'.vol.addr (D' n) k ≠ 0
  addr : ∀ j, j ≠ k → s'.vol.addr (D' n) j = s.vol.addr (D n) j
  indirect : (D' n).indirect = 0 ↔ (D n).indirect = 0 ∧ k < NDIRECT
  free : s'.vol.free+s.vol.lacks (D n) k = s.vol.free
  same : s.vol.addr (D n) k ≠ 0 → s'.vol = s.vol ∧ D' = D

variable {loose : List Uint} {V : View} {i : Ino} {n k : ℕ} {s s' : State} {D : ℕ → Dinode}

theorem setInode_self (s : State) (i : Ino) : s.setInode i (s.inode i) = s := by
  simp only [State.setInode, update_eq_self]

theorem changed_refl (i : Ino) (s : State) : Changed i s s :=
    ⟨s.vol,(s.inode i).din,(setInode_self s i).symm⟩

theorem changed_vol (i : Ino) (s : State) (v : Volume) : Changed i s {s with vol := v} :=
  ⟨v,(s.inode i).din,(setInode_self _ i).symm⟩

theorem Changed.trans {s₁ s₂ s₃ : State} (h : Changed i s₁ s₂) (h' : Changed i s₂ s₃) :
    Changed i s₁ s₃ := by
  obtain ⟨v,d,rfl⟩ := h
  obtain ⟨w,e,rfl⟩ := h'
  refine ⟨w,e,?_⟩
  simp only [State.setInode, update_self, update_idem]

theorem dinode_allocated (h : Backed loose s.vol D V) {w : Volume} {b : Uint} (ha : Allocated s.vol w b) :
    ∀ m < V.inodes, w.dinode m = s.vol.dinode m := fun m hm =>
  (allocated_front ha).dinode h.owned.laid (by rw [h.inodes]; exact hm)

theorem mapped_same (h : Backed loose s.vol D V) (hd : (s.inode i).din = D n)
    (hk : s.vol.addr (D n) k ≠ 0) : Mapped loose V i n k s D s D := by
  have hind : NDIRECT ≤ k → (D n).indirect ≠ 0 := by
    intro h1 h2
    apply hk
    rw [Volume.addr, dif_neg (by omega), if_pos h2]
  constructor
  case backed => exact h
  case changed => exact changed_refl i s
  case din => exact hd
  case other => exact fun _ _ => rfl
  case node => rfl
  case disk => exact fun _ _ => rfl
  case there => exact hk
  case addr => exact fun _ _ => rfl
  case indirect =>
    refine ⟨fun h1 => ⟨h1,?_⟩,fun h1 => h1.1⟩
    by_contra h2
    exact hind (Nat.not_lt.mp h2) h1
  case free => simp only [Volume.lacks, if_neg hk, if_neg (fun e : _ ∧ _ => hind e.1 e.2), Nat.add_zero]
  case same => exact fun _ => ⟨rfl,rfl⟩

section Steps

variable (h : Backed loose s.vol D V) (hn : n < V.inodes) (ht : (D n).type ≠ 0)
variable {Q : Outcome State Fault Uint → Prop} {j : ℕ} {b : Uint} {w : Volume}

include h hn ht

theorem ends_slot (hd : (s.inode i).din = D n) (k : Fin (NDIRECT+1))
    (hsame : (D n).addrs k ≠ 0 → Q (some (.ok ((D n).addrs k,s))))
    (hnew : ∀ b w, (D n).addrs k = 0 → Allocated s.vol w b → b ≠ 0 →
      Backed loose w (update D n ((D n).setAddr k b)) V →
      Q (some (.ok (b,{s with vol := w}.setInode i {s.inode i with din := (D n).setAddr k b}))))
    (hfull : (D n).addrs k = 0 → s.vol.free = 0 →
      Q (some (.error (.panic "balloc: out of blocks")))) :
    Ends (perform (fun s => s.bmapSlot i k)) Q s := by
  apply ends_atom
  unfold State.bmapSlot
  dsimp only
  rw [hd]
  by_cases h0 : (D n).addrs k = 0
  · rw [if_pos h0]
    rcases Nat.eq_zero_or_pos s.vol.free with hf | hf
    · rw [balloc_of_full hf]
      exact hfull h0 hf
    obtain ⟨⟨b,w⟩,hb⟩ := balloc_of_free hf
    obtain ⟨h1,h2,-⟩ := h.allocSlot hn ht h0 hb
    rw [hb]
    exact hnew b w h0 (balloc_allocates h.owned hb) h1 h2
  · rw [if_neg h0]
    exact hsame h0

theorem ends_entry (hi : (D n).indirect ≠ 0) (hj : j < NINDIRECT)
    (hsame : s.vol.addr (D n) (NDIRECT+j) ≠ 0 → Q (some (.ok (s.vol.addr (D n) (NDIRECT+j),s))))
    (hnew : ∀ b w, s.vol.addr (D n) (NDIRECT+j) = 0 → Allocated s.vol w b → b ≠ 0 →
      Backed loose (w.write (D n).indirect.toNat (setWord (w.disk (D n).indirect.toNat) j b)) D V →
      Q (some (.ok (b,{s with
        vol := w.write (D n).indirect.toNat (setWord (w.disk (D n).indirect.toNat) j b)}))))
    (hfull : s.vol.addr (D n) (NDIRECT+j) = 0 → s.vol.free = 0 →
      Q (some (.error (.panic "balloc: out of blocks")))) :
    Ends (perform (fun s => s.bmapEntry (D n).indirect j)) Q s := by
  have haddr : s.vol.addr (D n) (NDIRECT+j) = getWord (s.vol.disk (D n).indirect.toNat) j := by
    rw [Volume.addr, dif_neg (by omega), if_neg hi, Nat.add_sub_cancel_left]
  apply ends_atom
  unfold State.bmapEntry
  dsimp only
  rw [← haddr]
  by_cases h0 : s.vol.addr (D n) (NDIRECT+j) = 0
  · rw [if_pos h0]
    rcases Nat.eq_zero_or_pos s.vol.free with hf | hf
    · rw [balloc_of_full hf]
      exact hfull h0 hf
    obtain ⟨⟨b,w⟩,hb⟩ := balloc_of_free hf
    obtain ⟨h1,h2,-⟩ := h.allocEntry hn ht hi hj h0 hb
    rw [hb]
    exact hnew b w h0 (balloc_allocates h.owned hb) h1 h2
  · rw [if_neg h0]
    exact hsame h0

theorem mapped_direct (hk : k < NDIRECT)
    (h0 : (D n).addrs ⟨k,Nat.lt_succ_of_lt hk⟩ = 0) (ha : Allocated s.vol w b) (hb : b ≠ 0)
    (hw : Backed loose w (update D n ((D n).setAddr ⟨k,Nat.lt_succ_of_lt hk⟩ b)) V) :
    Mapped loose V i n k s D ({s with vol := w}.setInode i
      {s.inode i with din := (D n).setAddr ⟨k,Nat.lt_succ_of_lt hk⟩ b})
      (update D n ((D n).setAddr ⟨k,Nat.lt_succ_of_lt hk⟩ b)) := by
  have haddr0 : s.vol.addr (D n) k = 0 := by rw [Volume.addr, dif_pos hk, h0]
  have hlast : (⟨k,Nat.lt_succ_of_lt hk⟩ : Fin (NDIRECT+1)) ≠ Fin.last NDIRECT := fun e =>
    Nat.ne_of_lt hk (congrArg Fin.val e)
  have hplace : placeOf (⟨k,Nat.lt_succ_of_lt hk⟩ : Fin (NDIRECT+1)) = some k := if_neg hlast
  have hslot := fun j => h.addr_slot hn ht h0 ha j
  rw [hplace] at hslot
  constructor
  case backed => exact hw
  case changed => exact ⟨w,_,rfl⟩
  case din => rw [inode_setInode, update_self]
  case other => exact fun m hm => update_of_ne hm _ _
  case node =>
    rw [update_self]
    exact bare_setAddr _ _ _
  case disk => exact dinode_allocated h ha
  case there =>
    rw [update_self]
    show w.addr _ _ ≠ 0
    rw [hslot, if_pos rfl]
    exact hb
  case addr =>
    intro j hj
    rw [update_self]
    show w.addr _ _ = _
    rw [hslot, if_neg (fun e => hj (Option.some.inj e))]
  case indirect =>
    have hind : ((D n).setAddr ⟨k,Nat.lt_succ_of_lt hk⟩ b).indirect = (D n).indirect := by
      rw [Dinode.indirect, addrs_setAddr, update_of_ne (Ne.symm hlast), Dinode.indirect]
    rw [update_self, hind]
    exact ⟨fun h1 => ⟨h1,hk⟩,fun h1 => h1.1⟩
  case free =>
    rw [Volume.lacks, if_pos haddr0, if_neg (fun e => by omega)]
    exact ha.free_succ
  case same => exact fun h1 => absurd haddr0 h1

theorem mapped_entry (hi : (D n).indirect ≠ 0) (hj : j < NINDIRECT) (hd : (s.inode i).din = D n)
    (h0 : s.vol.addr (D n) (NDIRECT+j) = 0) (ha : Allocated s.vol w b) (hb : b ≠ 0)
    (hw : Backed loose (w.write (D n).indirect.toNat (setWord (w.disk (D n).indirect.toNat) j b)) D
      V) :
    Mapped loose V i n (NDIRECT+j) s D {s with
      vol := w.write (D n).indirect.toNat (setWord (w.disk (D n).indirect.toNat) j b)} D := by
  have hn' : n < s.vol.sb.ninodes := by rw [h.inodes]; exact hn
  have hdata : InData w.sb (D n).indirect := by
    rw [ha.sb]
    exact h.owned.indirect_data hn' ht hi
  have hentry := h.addr_entry hn ht hi hj ha
  constructor
  case backed => exact hw
  case changed => exact changed_vol i s _
  case din => exact hd
  case other => exact fun _ _ => rfl
  case node => rfl
  case disk =>
    intro m hm
    rw [← dinode_allocated h ha m hm]
    refine dinode_write_data ((allocated_front ha).laid h.owned.laid) hdata ?_ _
    rw [ha.sb, h.inodes]
    exact hm
  case there =>
    show Volume.addr _ _ _ ≠ 0
    rw [hentry, if_pos rfl]
    exact hb
  case addr =>
    intro m hm
    show Volume.addr _ _ _ = _
    rw [hentry, if_neg hm]
  case indirect => exact ⟨fun h1 => absurd h1 hi,fun h1 => absurd h1.1 hi⟩
  case free =>
    show (w.write _ _).free+_ = _
    rw [Volume.lacks, if_pos h0, if_neg (fun e => hi e.2), free_write_data hdata]
    exact ha.free_succ
  case same => exact fun h1 => absurd h0 h1

theorem lacks_both (h0 : (D n).indirect = 0) (ha : Allocated s.vol w b) (hb : b ≠ 0) :
    s.vol.lacks (D n) (NDIRECT+j) = w.lacks ((D n).setAddr (Fin.last NDIRECT) b) (NDIRECT+j)+1 := by
  have hslot := h.addr_slot (k := Fin.last NDIRECT) hn ht h0 ha (NDIRECT+j)
  rw [if_neg (by simp [placeOf])] at hslot
  have hzero : s.vol.addr (D n) (NDIRECT+j) = 0 := by
    rw [Volume.addr, dif_neg (by omega), if_pos h0]
  have hind : ((D n).setAddr (Fin.last NDIRECT) b).indirect = b := by
    rw [Dinode.indirect, addrs_setAddr, update_self]
  have hlack : NDIRECT ≤ NDIRECT+j ∧ (D n).indirect = 0 := ⟨Nat.le_add_right _ _,h0⟩
  rw [Volume.lacks, Volume.lacks, hslot, if_pos hzero, if_pos hlack,
    if_neg (fun e => hb (by rw [← hind]; exact e.2))]

theorem mapped_both {D' : ℕ → Dinode}
    (h0 : (D n).indirect = 0) (ha : Allocated s.vol w b) (hb : b ≠ 0)
    (hm : Mapped loose V i n (NDIRECT+j)
      ({s with vol := w}.setInode i {s.inode i with din := (D n).setAddr (Fin.last NDIRECT) b})
      (update D n ((D n).setAddr (Fin.last NDIRECT) b)) s' D') :
    Mapped loose V i n (NDIRECT+j) s D s' D' := by
  have hslot := fun m => h.addr_slot (k := Fin.last NDIRECT) hn ht h0 ha m
  have hplace : placeOf (Fin.last NDIRECT) = none := if_pos rfl
  rw [hplace] at hslot
  have hnone : ∀ m, w.addr ((D n).setAddr (Fin.last NDIRECT) b) m = s.vol.addr (D n) m := by
    intro m
    rw [hslot, if_neg (by simp)]
  have hzero : s.vol.addr (D n) (NDIRECT+j) = 0 := by
    rw [Volume.addr, dif_neg (by omega), if_pos h0]
  have hind : ((D n).setAddr (Fin.last NDIRECT) b).indirect = b := by
    rw [Dinode.indirect, addrs_setAddr, update_self]
  constructor
  case backed => exact hm.backed
  case changed => exact Changed.trans ⟨w,_,rfl⟩ hm.changed
  case din => exact hm.din
  case other => exact fun m h1 => (hm.other m h1).trans (update_of_ne h1 _ _)
  case node =>
    have h1 := hm.node
    rw [update_self] at h1
    exact h1.trans (bare_setAddr _ _ _)
  case disk => exact fun m h1 => (hm.disk m h1).trans (dinode_allocated h ha m h1)
  case there => exact hm.there
  case addr =>
    intro m h1
    have h2 := hm.addr m h1
    rw [update_self] at h2
    exact h2.trans (hnone m)
  case indirect =>
    have h1 := hm.indirect
    rw [update_self, hind] at h1
    exact ⟨fun h2 => absurd (h1.mp h2).1 hb,fun h2 => absurd h2.2 (by omega)⟩
  case free =>
    have h1 := hm.free
    have h2 := ha.free_succ
    have h3 := lacks_both h hn ht (j := j) h0 ha hb
    rw [update_self] at h1
    change s'.vol.free+w.lacks _ _ = w.free at h1
    omega
  case same => exact fun h1 => absurd hzero h1

theorem ends_entry_mapped (hd : (s.inode i).din = D n) (hi : (D n).indirect ≠ 0)
    (hj : j < NINDIRECT) (hQ : ∀ s' D', Mapped loose V i n (NDIRECT+j) s D s' D' →
      Q (some (.ok (s'.vol.addr (D' n) (NDIRECT+j),s'))))
    (hfull : s.vol.free < s.vol.lacks (D n) (NDIRECT+j) →
      Q (some (.error (.panic "balloc: out of blocks")))) :
    Ends (perform (fun s => s.bmapEntry (D n).indirect j)) Q s := by
  apply ends_entry h hn ht hi hj
  · intro h0
    exact hQ s D (mapped_same h hd h0)
  · intro b w h0 ha hb hw
    have h1 := hQ _ _ (mapped_entry h hn ht hi hj hd h0 ha hb hw)
    change Q (some (.ok (Volume.addr _ _ _,_))) at h1
    rw [h.addr_entry hn ht hi hj ha, if_pos rfl] at h1
    exact h1
  · intro h0 hf
    apply hfull
    rw [hf, Volume.lacks, if_pos h0]
    omega

theorem ends_bmap (hd : (s.inode i).din = D n) (hk : k < MAXFILE)
    (hQ : ∀ s' D', Mapped loose V i n k s D s' D' → Q (some (.ok (s'.vol.addr (D' n) k,s'))))
    (hfull : s.vol.free < s.vol.lacks (D n) k → Q (some (.error (.panic "balloc: out of blocks")))) :
    Ends (bmap i k) Q s := by
  unfold bmap
  split
  · rename_i hlt
    have haddr : ∀ (v : Volume) (d : Dinode), v.addr d k = d.addrs ⟨k,Nat.lt_succ_of_lt hlt⟩ :=
      fun v d => dif_pos hlt
    apply ends_slot h hn ht hd
    · intro h0
      have hm := mapped_same (k := k) h hd (by rw [haddr]; exact h0)
      rw [← haddr s.vol]
      exact hQ s D hm
    · intro b w h0 ha hb hw
      have hm := mapped_direct (i := i) h hn ht hlt h0 ha hb hw
      have h1 := hQ _ _ hm
      rw [haddr, update_self, addrs_setAddr, update_self] at h1
      exact h1
    · intro h0 hf
      apply hfull
      rw [hf, Volume.lacks, haddr, if_pos h0]
      omega
  rename_i hge
  obtain ⟨j,rfl⟩ : ∃ j, k = NDIRECT+j := ⟨k-NDIRECT,by omega⟩
  rw [Nat.add_sub_cancel_left, if_pos (by simp only [MAXFILE] at hk; omega)]
  have hj : j < NINDIRECT := by simp only [MAXFILE] at hk; omega
  refine ends_bind (ends_slot h hn ht hd _ (fun hi => ?_) (fun b w h0 ha hb hw => ?_)
    (fun h0 hf => ?_))
  · exact ends_entry_mapped h hn ht hd hi hj hQ hfull
  · have hi : (update D n ((D n).setAddr (Fin.last NDIRECT) b) n).indirect = b := by
      rw [update_self, Dinode.indirect, addrs_setAddr, update_self]
    have hlack := lacks_both h hn ht (j := j) h0 ha hb
    have hend := ends_entry_mapped
      (s := {s with vol := w}.setInode i {s.inode i with din := (D n).setAddr (Fin.last NDIRECT) b})
      (i := i) hw hn (by rw [update_self]; exact ht) (by rw [inode_setInode, update_self])
      (by rw [hi]; exact hb) hj (fun s' D' hm => hQ s' D' (mapped_both h hn ht h0 ha hb hm))
      (fun hf => hfull (by
        have hsucc := ha.free_succ
        rw [update_self] at hf
        change w.free < w.lacks _ _ at hf
        omega))
    rw [hi] at hend
    exact hend
  · apply hfull
    have hlack : NDIRECT ≤ NDIRECT+j ∧ (D n).indirect = 0 := ⟨Nat.le_add_right _ _,h0⟩
    rw [hf, Volume.lacks, if_pos hlack]
    omega

end Steps

end Yeet.Fs
