import YeetKernel.FsDisk

/-!
# Which inode owns which block

The blocks of an inode are the indirect block and the blocks with a number,
directly or through the indirect block. Every data block whose bit is set in
the free map has one place in one allocated inode, or is loose: taken from the
free map and not yet entered in an inode, or the other way round. `D` gives
the inodes as they are to be, which may be ahead of the disk.
-/

namespace Yeet.FsDisk
open Kernel Bytes Function

def Superblock.dataStart (sb : Superblock) : ℕ := sb.bmapstart+sb.size/BPB+1

def Dinode.indirect (d : Dinode) : Uint := d.addrs (Fin.last NDIRECT)

def Volume.addr (v : Volume) (d : Dinode) (k : ℕ) : Uint :=
  if h : k < NDIRECT then d.addrs ⟨k,Nat.lt_succ_of_lt h⟩
  else if d.indirect = 0 then 0
  else getWord (v.disk d.indirect.toNat) (k-NDIRECT)

def Volume.blockAt (v : Volume) (d : Dinode) : Option ℕ → Uint
  | none => d.indirect
  | some k => v.addr d k

def InData (sb : Superblock) (b : Uint) : Prop := sb.dataStart ≤ b.toNat ∧ b.toNat < sb.size

structure Ref (v : Volume) (D : ℕ → Dinode) (n : ℕ) (p : Option ℕ) (b : Uint) : Prop where
  inode : n < v.sb.ninodes
  type : (D n).type ≠ 0
  block : v.blockAt (D n) p = b
  ne : b ≠ 0

structure Owned (v : Volume) (D : ℕ → Dinode) (loose : List Uint) : Prop where
  laid : v.Laid
  front : ∀ b < v.sb.dataStart, v.sb.inUse v.disk b = true
  range : ∀ n p b, Ref v D n p b → InData v.sb b
  unique : ∀ n p m q b, Ref v D n p b → Ref v D m q b → n = m ∧ p = q
  used : ∀ b, InData v.sb b →
    (v.sb.inUse v.disk b.toNat = true ↔ (∃ n p, Ref v D n p b) ∨ b ∈ loose)
  nodup : loose.Nodup
  data : ∀ b ∈ loose, InData v.sb b
  unref : ∀ b ∈ loose, ∀ n p, ¬ Ref v D n p b

variable {v w : Volume} {D E : ℕ → Dinode} {loose : List Uint} {n : ℕ} {b : Uint} {d : Dinode}
variable {sb : Superblock} {x : DiskBlock} {k : Fin (NDIRECT+1)} {j : ℕ}

theorem Volume.Laid.size_lt (h : v.Laid) : v.sb.size < 2^32 := by
  rw [← h.super]
  exact BitVec.isLt _

theorem bmapstart_lt (sb : Superblock) : sb.bmapstart < sb.dataStart := by
  unfold Superblock.dataStart
  generalize sb.size/BPB = q
  omega

theorem bblock_lt (sb : Superblock) {c : ℕ} (hc : c < sb.size) : sb.bblock c < sb.dataStart := by
  have : c/BPB ≤ sb.size/BPB := Nat.div_le_div_right (Nat.le_of_lt hc)
  unfold Superblock.bblock Superblock.dataStart
  omega

theorem InData.ne_zero (h : v.Laid) (hb : InData v.sb b) : b ≠ 0 := by
  rintro rfl
  have h1 := h.bmapstart_gt
  have h2 := bmapstart_lt v.sb
  have h3 : v.sb.dataStart ≤ 0 := hb.1
  omega

theorem addr_congr {d e : Dinode} (ha : e.addrs = d.addrs)
    (hd : d.indirect ≠ 0 → w.disk d.indirect.toNat = v.disk d.indirect.toNat) (k : ℕ) :
    w.addr e k = v.addr d k := by
  have hi : e.indirect = d.indirect := by rw [Dinode.indirect, ha]; rfl
  unfold Volume.addr
  rw [hi, ha]
  split
  · rfl
  split
  · rfl
  · rename_i hne
    rw [hd hne]

theorem blockAt_congr {d e : Dinode} (ha : e.addrs = d.addrs)
    (hd : d.indirect ≠ 0 → w.disk d.indirect.toNat = v.disk d.indirect.toNat) (p : Option ℕ) :
    w.blockAt e p = v.blockAt d p := by
  cases p with
  | none => rw [Volume.blockAt, Volume.blockAt, Dinode.indirect, ha]; rfl
  | some k => exact addr_congr ha hd k

section

variable (h : Owned v D loose)
include h

theorem Owned.congr (hsb : w.sb = v.sb) (h1 : w.disk 1 = v.disk 1)
    (hu : ∀ b < v.sb.size, v.sb.inUse w.disk b = v.sb.inUse v.disk b)
    (hf : ∀ b < v.sb.dataStart, v.sb.inUse w.disk b = true)
    (ht : ∀ n < v.sb.ninodes, (E n).type ≠ 0 ↔ (D n).type ≠ 0)
    (hb : ∀ n < v.sb.ninodes, (D n).type ≠ 0 → ∀ p, w.blockAt (E n) p = v.blockAt (D n) p) :
    Owned w E loose := by
  have hr : ∀ n p b, Ref w E n p b ↔ Ref v D n p b := by
    intro n p b
    constructor
    · rintro ⟨h2,h3,h4,h5⟩
      rw [hsb] at h2
      have ht' := (ht n h2).mp h3
      exact ⟨h2,ht',by rw [← hb n h2 ht' p]; exact h4,h5⟩
    · rintro ⟨h2,h3,h4,h5⟩
      exact ⟨by rw [hsb]; exact h2,(ht n h2).mpr h3,by rw [hb n h2 h3 p]; exact h4,h5⟩
  refine ⟨h.laid.of_super hsb h1,?_,fun n p b hn => ?_,fun n p m q b hn hm => ?_,fun b hd => ?_,
    h.nodup,fun b hl => ?_,fun b hl n p hn => ?_⟩
  · rw [hsb]
    exact hf
  · rw [hsb]
    exact h.range n p b ((hr n p b).mp hn)
  · exact h.unique n p m q b ((hr n p b).mp hn) ((hr m q b).mp hm)
  · rw [hsb] at hd ⊢
    rw [hu _ hd.2, h.used b hd]
    simp only [hr]
  · rw [hsb]
    exact h.data b hl
  · exact h.unref b hl n p ((hr n p b).mp hn)

theorem Owned.indirect_data (hn : n < v.sb.ninodes) (ht : (D n).type ≠ 0)
    (hi : (D n).indirect ≠ 0) : InData v.sb (D n).indirect :=
  h.range n none _ ⟨hn,ht,rfl,hi⟩

theorem Owned.inodes (hsb : w.sb = v.sb) (h1 : w.disk 1 = v.disk 1)
    (hd : ∀ c, v.sb.bmapstart ≤ c → w.disk c = v.disk c) : Owned w D loose := by
  have hu : ∀ b, v.sb.inUse w.disk b = v.sb.inUse v.disk b := by
    intro b
    unfold Superblock.inUse
    rw [hd _ (bmapstart_le v.sb b)]
  refine h.congr hsb h1 (fun b _ => hu b) (fun b hb => ?_) (fun _ _ => Iff.rfl) (fun n hn ht p => ?_)
  · rw [hu]
    exact h.front b hb
  refine blockAt_congr rfl (fun hi => hd _ ?_) p
  have := h.indirect_data hn ht hi
  have := bmapstart_lt v.sb
  unfold InData at *
  omega

theorem Owned.setDinode {m : ℕ} (hm : m < v.sb.ninodes) (d : Dinode) :
    Owned (v.setDinode m d) D loose := by
  refine h.inodes rfl ?_ (fun c hc => ?_)
  · exact disk_write_ne _ (Nat.ne_of_lt (h.laid.super_lt m))
  · have := h.laid.iblock_lt hm
    exact disk_write_ne _ (by omega)

theorem Owned.attrs {d : Dinode} (ha : d.addrs = (D n).addrs)
    (ht : d.type ≠ 0 ↔ (D n).type ≠ 0) : Owned v (update D n d) loose := by
  refine h.congr rfl rfl (fun _ _ => rfl) h.front (fun m _ => ?_) (fun m _ _ p => ?_)
  · by_cases hm : m = n
    · subst hm
      rw [update_self]
      exact ht
    · rw [update_of_ne hm]
  by_cases hm : m = n
  · subst hm
    rw [update_self]
    exact blockAt_congr ha (fun _ => rfl) p
  · rw [update_of_ne hm]

theorem Owned.write (hb : InData v.sb b)
    (hi : ∀ n, n < v.sb.ninodes → (D n).type ≠ 0 → (D n).indirect ≠ b) (x : DiskBlock) :
    Owned (v.write b.toNat x) D loose ∧ ∀ n, n < v.sb.ninodes → (D n).type ≠ 0 → ∀ p,
        (v.write b.toNat x).blockAt (D n) p = v.blockAt (D n) p := by
  have hblock : ∀ n, n < v.sb.ninodes → (D n).type ≠ 0 → ∀ p,
      (v.write b.toNat x).blockAt (D n) p = v.blockAt (D n) p := by
    intro n hn ht p
    refine blockAt_congr rfl (fun _ => disk_write_ne _ (fun e => ?_)) p
    exact hi n hn ht (BitVec.eq_of_toNat_eq e)
  have hlt : ∀ c, c < v.sb.dataStart → (v.write b.toNat x).disk c = v.disk c := by
    intro c hc
    refine disk_write_ne _ (fun e => ?_)
    have := hb.1
    omega
  have hu : ∀ c < v.sb.size, v.sb.inUse (v.write b.toNat x).disk c = v.sb.inUse v.disk c := by
    intro c hc
    unfold Superblock.inUse
    rw [hlt _ (bblock_lt v.sb hc)]
  refine ⟨h.congr rfl (hlt 1 ?_) hu (fun c hc => ?_) (fun _ _ => Iff.rfl) hblock,hblock⟩
  · have := h.laid.bmapstart_gt
    have := bmapstart_lt v.sb
    omega
  have hc' : c < v.sb.size := by
    have := hb.2
    have := hb.1
    omega
  rw [hu c hc']
  exact h.front c hc

end

structure Allocated (v w : Volume) (b : Uint) : Prop where
  data : InData v.sb b
  free : v.sb.inUse v.disk b.toNat = false
  sb : w.sb = v.sb
  front : ∀ c < v.sb.bmapstart, w.disk c = v.disk c
  zero : w.disk b.toNat = fun _ => 0
  others : ∀ c, v.sb.dataStart ≤ c → c ≠ b.toNat → w.disk c = v.disk c
  bits : ∀ c, (c < v.sb.size ∨ c < v.sb.dataStart) →
    v.sb.inUse w.disk c = (decide (c = b.toNat) || v.sb.inUse v.disk c)

theorem bblock_eq {c e : ℕ} (h : sb.bblock c = sb.bblock e) (hm : c%BPB = e%BPB) : c = e := by
  unfold Superblock.bblock at h
  rw [← Nat.div_add_mod c BPB, ← Nat.div_add_mod e BPB, hm]
  have : c/BPB = e/BPB := by omega
  rw [this]

theorem inUse_write_bit {d : Disk} {e c : ℕ} {f : Bool → Bool}
    (hx : ∀ k, testBit x k = if k = e%BPB then f (testBit (d (sb.bblock e)) k)
      else testBit (d (sb.bblock e)) k) :
    sb.inUse (update d (sb.bblock e) x) c =
      if c = e then f (sb.inUse d c) else sb.inUse d c := by
  unfold Superblock.inUse
  by_cases hb : sb.bblock c = sb.bblock e
  · rw [hb, update_self, hx]
    by_cases hm : c%BPB = e%BPB
    · rw [if_pos hm, if_pos (bblock_eq hb hm)]
    · rw [if_neg hm, if_neg (fun h => hm (by rw [h]))]
  · rw [update_of_ne hb, if_neg (fun h => hb (by rw [h]))]

theorem testBit_set_at {e : ℕ} (k : ℕ) :
    testBit (setBit x (e%BPB)) k = if k = e%BPB then true else testBit x k := by
  have h : e%BPB/8 < BSIZE := by
    have : e%BPB < BPB := Nat.mod_lt _ (by decide)
    simp only [BPB, BSIZE] at *
    omega
  rw [testBit_setBit x h]
  by_cases hk : k = e%BPB
  · simp [hk]
  · simp [hk]

theorem balloc_allocates (h : Owned v D loose) (hb : balloc v = .ok (b,w)) : Allocated v w b := by
  unfold balloc at hb
  split at hb
  · cases hb
  rename_i e he
  have hfree := List.find?_some he
  have hlt := List.mem_range.mp (List.mem_of_find?_eq_some he)
  simp only [Bool.not_eq_true'] at hfree
  cases hb
  have hto : (BitVec.ofNat 32 e).toNat = e := by
    rw [BitVec.toNat_ofNat]
    exact Nat.mod_eq_of_lt (Nat.lt_trans hlt h.laid.size_lt)
  have hge : v.sb.dataStart ≤ e := by
    by_contra hc
    rw [h.front e (by omega)] at hfree
    cases hfree
  have hbb := bblock_lt v.sb hlt
  have hbm := bmapstart_le v.sb e
  have hds := bmapstart_lt v.sb
  refine ⟨⟨by omega,by omega⟩,by rw [hto]; exact hfree,rfl,fun c hc => ?_,?_,fun c hc hne => ?_,
    fun c hc => ?_⟩
  · simp only [Volume.write]
    rw [update_of_ne (by omega), update_of_ne (by omega)]
  · rw [hto]
    exact update_self _ _ _
  · rw [hto] at hne
    simp only [Volume.write]
    rw [update_of_ne hne, update_of_ne (by omega)]
  have hcb : v.sb.bblock c < v.sb.dataStart := by
    rcases hc with hc | hc
    · exact bblock_lt v.sb hc
    · exact bblock_lt v.sb (by omega)
  have hout : v.sb.inUse ((v.write (v.sb.bblock e)
      (setBit (v.disk (v.sb.bblock e)) (e%BPB))).write e (fun _ => 0)).disk c =
      v.sb.inUse (update v.disk (v.sb.bblock e) (setBit (v.disk (v.sb.bblock e)) (e%BPB))) c := by
    unfold Superblock.inUse
    simp only [Volume.write]
    rw [update_of_ne (by omega)]
  rw [hout, hto, inUse_write_bit (f := fun _ => true) testBit_set_at]
  by_cases hce : c = e
  · simp [hce]
  · simp [hce]

theorem Allocated.addr_eq (ha : Allocated v w b)
    (hi : d.indirect ≠ 0 → InData v.sb d.indirect) (hne : d.indirect ≠ b) (p : Option ℕ) :
    w.blockAt d p = v.blockAt d p := by
  refine blockAt_congr rfl (fun h0 => ha.others _ (hi h0).1 (fun e => ?_)) p
  exact hne (BitVec.eq_of_toNat_eq e)

theorem Owned.balloc (h : Owned v D loose) (ha : Allocated v w b) : Owned w D (b::loose) ∧
      ∀ n, n < v.sb.ninodes → (D n).type ≠ 0 → ∀ p, w.blockAt (D n) p = v.blockAt (D n) p := by
  have hfree : ¬ ((∃ n p, Ref v D n p b) ∨ b ∈ loose) := by
    rw [← h.used b ha.data, ha.free]
    simp
  have hblock : ∀ n, n < v.sb.ninodes → (D n).type ≠ 0 → ∀ p,
      w.blockAt (D n) p = v.blockAt (D n) p := by
    intro n hn ht p
    refine ha.addr_eq (h.indirect_data hn ht) (fun e => hfree (Or.inl ⟨n,none,hn,ht,e,?_⟩)) p
    exact InData.ne_zero h.laid ha.data
  have hr : ∀ n p c, Ref w D n p c ↔ Ref v D n p c := by
    intro n p c
    constructor
    · rintro ⟨h2,h3,h4,h5⟩
      rw [ha.sb] at h2
      exact ⟨h2,h3,by rw [← hblock n h2 h3 p]; exact h4,h5⟩
    · rintro ⟨h2,h3,h4,h5⟩
      exact ⟨by rw [ha.sb]; exact h2,h3,by rw [hblock n h2 h3 p]; exact h4,h5⟩
  refine ⟨⟨h.laid.of_super ha.sb (ha.front 1 h.laid.bmapstart_gt),fun c hc => ?_,
    fun n p c hn => ?_,fun n p m q c hn hm => ?_,fun c hc => ?_,?_,fun c hc => ?_,
    fun c hc n p hn => ?_⟩,hblock⟩
  · rw [ha.sb] at hc ⊢
    rw [ha.bits c (Or.inr hc), h.front c hc, Bool.or_true]
  · rw [ha.sb]
    exact h.range n p c ((hr n p c).mp hn)
  · exact h.unique n p m q c ((hr n p c).mp hn) ((hr m q c).mp hm)
  · rw [ha.sb] at hc ⊢
    rw [ha.bits _ (Or.inl hc.2), Bool.or_eq_true, h.used c hc, decide_eq_true_eq]
    simp only [hr, List.mem_cons]
    constructor
    · rintro (e | e | e)
      · exact Or.inr (Or.inl (BitVec.eq_of_toNat_eq e))
      · exact Or.inl e
      · exact Or.inr (Or.inr e)
    rintro (e | e | e)
    · exact Or.inr (Or.inl e)
    · exact Or.inl (by rw [e])
    · exact Or.inr (Or.inr e)
  · exact List.nodup_cons.mpr ⟨fun e => hfree (Or.inr e),h.nodup⟩
  · rw [ha.sb]
    rcases List.mem_cons.mp hc with rfl | hc
    · exact ha.data
    · exact h.data c hc
  have hn := (hr n p c).mp hn
  rcases List.mem_cons.mp hc with rfl | hc
  · exact hfree (Or.inl ⟨n,p,hn⟩)
  · exact h.unref c hc n p hn

theorem Owned.attach (h : Owned v D (b::loose)) (p₀ : Option ℕ) (hn : n < v.sb.ninodes)
    (ht : (D n).type ≠ 0) (h0 : v.blockAt (D n) p₀ = 0) (hsb : w.sb = v.sb)
    (h1 : w.disk 1 = v.disk 1) (hu : ∀ c < v.sb.size, v.sb.inUse w.disk c = v.sb.inUse v.disk c)
    (hf : ∀ c < v.sb.dataStart, v.sb.inUse w.disk c = true)
    (htype : ∀ m < v.sb.ninodes, (E m).type ≠ 0 ↔ (D m).type ≠ 0)
    (hb : ∀ m < v.sb.ninodes, (D m).type ≠ 0 → ∀ q,
      w.blockAt (E m) q = if m = n ∧ q = p₀ then b else v.blockAt (D m) q) : Owned w E loose := by
  have hbne : b ≠ 0 := InData.ne_zero h.laid (h.data b List.mem_cons_self)
  have hnb : ∀ m q, ¬ Ref v D m q b := h.unref b List.mem_cons_self
  have hr : ∀ m q c, Ref w E m q c ↔ (m = n ∧ q = p₀ ∧ c = b) ∨ Ref v D m q c := by
    intro m q c
    constructor
    · rintro ⟨h2,h3,h4,h5⟩
      rw [hsb] at h2
      have h3 := (htype m h2).mp h3
      rw [hb m h2 h3] at h4
      split at h4
      · rename_i e
        exact Or.inl ⟨e.1,e.2,h4.symm⟩
      · exact Or.inr ⟨h2,h3,h4,h5⟩
    rintro (⟨rfl,rfl,rfl⟩ | ⟨h2,h3,h4,h5⟩)
    · refine ⟨by rw [hsb]; exact hn,(htype m hn).mpr ht,?_,hbne⟩
      rw [hb m hn ht, if_pos ⟨rfl,rfl⟩]
    refine ⟨by rw [hsb]; exact h2,(htype m h2).mpr h3,?_,h5⟩
    rw [hb m h2 h3, if_neg ?_]
    · exact h4
    · rintro ⟨rfl,rfl⟩
      exact h5 (h4.symm.trans h0)
  have hnod := List.nodup_cons.mp h.nodup
  refine ⟨h.laid.of_super hsb h1,by rw [hsb]; exact hf,fun m q c hm => ?_,
    fun m q m' q' c hm hm' => ?_,fun c hc => ?_,hnod.2,fun c hc => ?_,fun c hc m q hm => ?_⟩
  · rw [hsb]
    rcases (hr m q c).mp hm with ⟨_,_,rfl⟩ | hm
    · exact h.data c List.mem_cons_self
    · exact h.range m q c hm
  · rcases (hr m q c).mp hm with ⟨rfl,rfl,rfl⟩ | hm <;>
      rcases (hr m' q' c).mp hm' with ⟨rfl,rfl,h3⟩ | hm'
    · exact ⟨rfl,rfl⟩
    · exact absurd hm' (hnb m' q')
    · exact absurd (h3 ▸ hm) (hnb m q)
    · exact h.unique m q m' q' c hm hm'
  · rw [hsb] at hc ⊢
    rw [hu _ hc.2, h.used c hc]
    simp only [hr, List.mem_cons]
    constructor
    · rintro (⟨m,q,hm⟩ | rfl | hl)
      · exact Or.inl ⟨m,q,Or.inr hm⟩
      · exact Or.inl ⟨n,p₀,Or.inl ⟨rfl,rfl,rfl⟩⟩
      · exact Or.inr hl
    rintro (⟨m,q,⟨_,_,rfl⟩ | hm⟩ | hl)
    · exact Or.inr (Or.inl rfl)
    · exact Or.inl ⟨m,q,hm⟩
    · exact Or.inr (Or.inr hl)
  · rw [hsb]
    exact h.data c (List.mem_cons_of_mem _ hc)
  · rcases (hr m q c).mp hm with ⟨_,_,rfl⟩ | hm
    · exact hnod.1 hc
    · exact h.unref c (List.mem_cons_of_mem _ hc) m q hm

def placeOf (k : Fin (NDIRECT+1)) : Option ℕ := if k = Fin.last NDIRECT then none else some k.val

def Dinode.setAddr (d : Dinode) (k : Fin (NDIRECT+1)) (b : Uint) : Dinode :=
  {d with addrs := update d.addrs k b}

theorem addrs_setAddr (d : Dinode) (k : Fin (NDIRECT+1)) (b : Uint) :
    (d.setAddr k b).addrs = update d.addrs k b := rfl

theorem blockAt_placeOf (v : Volume) (d : Dinode) (k : Fin (NDIRECT+1)) :
    v.blockAt d (placeOf k) = d.addrs k := by
  unfold placeOf
  split
  · rename_i e
    rw [e]
    rfl
  rename_i e
  have hk : k.val < NDIRECT := by
    have h1 := k.isLt
    have h2 : k.val ≠ NDIRECT := fun h => e (Fin.ext h)
    omega
  rw [Volume.blockAt, Volume.addr, dif_pos hk]

theorem blockAt_setAddr (h0 : d.addrs k = 0) (hz : v.disk b.toNat = fun _ => 0) (q : Option ℕ) :
    v.blockAt (d.setAddr k b) q = if q = placeOf k then b else v.blockAt d q := by
  split
  · rename_i e
    rw [e, blockAt_placeOf, addrs_setAddr, update_self]
  rename_i e
  unfold placeOf at e
  by_cases hk : k = Fin.last NDIRECT
  · subst hk
    rw [if_pos rfl] at e
    cases q with
    | none => exact absurd rfl e
    | some j =>
      have hi : d.indirect = 0 := h0
      have hi' : (d.setAddr (Fin.last NDIRECT) b).indirect = b := by
        rw [Dinode.indirect, addrs_setAddr, update_self]
      simp only [Volume.blockAt, Volume.addr, hi, hi', if_true]
      split
      · rename_i hj
        have : (⟨j,Nat.lt_succ_of_lt hj⟩ : Fin (NDIRECT+1)) ≠ Fin.last NDIRECT := by
          intro h
          have := congrArg Fin.val h
          simp only [Fin.val_last] at this
          omega
        rw [addrs_setAddr, update_of_ne this]
      · split
        · rfl
        · rw [hz, getWord]
          exact getField_eq (k := 4) (fun i _ => by simp [byteAt])
  · rw [if_neg hk] at e
    have hi : (d.setAddr k b).indirect = d.indirect := by
      rw [Dinode.indirect, addrs_setAddr]
      exact update_of_ne (Ne.symm hk) _ _
    cases q with
    | none => exact hi
    | some j =>
      simp only [Volume.blockAt, Volume.addr, hi]
      split
      · rename_i hj
        have : (⟨j,Nat.lt_succ_of_lt hj⟩ : Fin (NDIRECT+1)) ≠ k := by
          rintro rfl
          exact e rfl
        rw [addrs_setAddr, update_of_ne this]
      · rfl

theorem Owned.attachSlot (h : Owned v D (b::loose)) (hn : n < v.sb.ninodes) (ht : (D n).type ≠ 0)
    (h0 : (D n).addrs k = 0) (hz : v.disk b.toNat = fun _ => 0) :
    Owned v (update D n ((D n).setAddr k b)) loose := by
  refine h.attach (placeOf k) hn ht (by rw [blockAt_placeOf]; exact h0) rfl rfl (fun _ _ => rfl)
    h.front (fun m _ => ?_) (fun m _ _ q => ?_)
  · by_cases hm : m = n
    · subst hm
      rw [update_self]
      exact Iff.rfl
    · rw [update_of_ne hm]
  by_cases hm : m = n
  · subst hm
    rw [update_self, blockAt_setAddr h0 hz]
    simp
  · rw [update_of_ne hm, if_neg (fun e => hm e.1)]

theorem blockAt_setEntry (hi : d.indirect ≠ 0) (hj : j < NINDIRECT) (q : Option ℕ) :
    (v.write d.indirect.toNat (setWord (v.disk d.indirect.toNat) j b)).blockAt d q =
      if q = some (NDIRECT+j) then b else v.blockAt d q := by
  cases q with
  | none => simp [Volume.blockAt]
  | some k =>
    simp only [Volume.blockAt, Volume.addr, if_neg hi, disk_write, Option.some.injEq]
    split
    · rename_i hk
      rw [if_neg (by omega)]
    rename_i hk
    rw [getWord_setWord _ hj]
    by_cases he : k = NDIRECT+j
    · rw [if_pos he, if_pos (by omega)]
    · rw [if_neg he, if_neg (by omega)]

theorem Owned.attachEntry (h : Owned v D (b::loose)) (hn : n < v.sb.ninodes) (ht : (D n).type ≠ 0)
    (hi : (D n).indirect ≠ 0) (hj : j < NINDIRECT) (h0 : v.blockAt (D n) (some (NDIRECT+j)) = 0) :
    Owned (v.write (D n).indirect.toNat (setWord (v.disk (D n).indirect.toNat) j b)) D loose := by
  have hd := h.indirect_data hn ht hi
  have hlt : ∀ c, c < v.sb.dataStart → (v.write (D n).indirect.toNat
      (setWord (v.disk (D n).indirect.toNat) j b)).disk c = v.disk c := by
    intro c hc
    refine disk_write_ne _ (fun e => ?_)
    have := hd.1
    omega
  have hu : ∀ c < v.sb.size, v.sb.inUse (v.write (D n).indirect.toNat
      (setWord (v.disk (D n).indirect.toNat) j b)).disk c = v.sb.inUse v.disk c := by
    intro c hc
    unfold Superblock.inUse
    rw [hlt _ (bblock_lt v.sb hc)]
  refine h.attach _ hn ht h0 rfl (hlt 1 ?_) hu (fun c hc => ?_) (fun _ _ => Iff.rfl) (fun m hm hmt q => ?_)
  · have := h.laid.bmapstart_gt
    have := bmapstart_lt v.sb
    omega
  · rw [hu c (by have := hd.1; have := hd.2; omega)]
    exact h.front c hc
  by_cases hmn : m = n
  · subst hmn
    rw [blockAt_setEntry hi hj]
    simp
  rw [if_neg (fun e => hmn e.1)]
  refine blockAt_congr rfl (fun hmi => disk_write_ne _ (fun e => hmn ?_)) q
  have he : (D m).indirect = (D n).indirect := BitVec.eq_of_toNat_eq e
  exact (h.unique m none n none _ ⟨hm,hmt,rfl,hmi⟩ ⟨hn,ht,he.symm,hmi⟩).1

end Yeet.FsDisk
