import YeetKernel.Mkfs
import YeetKernel.FsBacks

/-!
# The image while it is built

If the free map were written now, the image would be a volume behind a view in
the sense of the kernel: taking `freeblock` is the kernel's `balloc` on that
volume. A file has a block at exactly the places its bytes need.
-/

namespace Yeet.Mkfs
open Kernel Bytes FsDisk Fs Function

def Image.marked (m : Image) : Volume := ⟨sb,update m.disk sb.bmapstart (usedMap m.freeblock)⟩

theorem usedMap_succ (k : ℕ) : usedMap (k+1) = setBit (usedMap k) k := by
  rw [usedMap, List.range_succ, List.foldl_append]
  rfl

theorem testBit_usedMap {k : ℕ} (hk : k ≤ BPB) (j : ℕ) : testBit (usedMap k) j = decide (j < k) := by
  induction k with
  | zero =>
    have hz : ∀ i, byteAt blank i = 0 := by
      intro i
      unfold byteAt
      split <;> rfl
    simp [testBit_eq, usedMap, hz]
  | succ k ih =>
    have hlt : k/8 < BSIZE := by
      simp only [BPB, BSIZE] at *
      omega
    rw [usedMap_succ, testBit_setBit _ hlt, ih (by omega)]
    by_cases hj : j = k
    · simp [hj]
    · have : (j < k+1) ↔ j < k := by omega
      simp [hj, this]

section Marked

variable {m : Image} {c : ℕ}

theorem inUse_marked (hk : m.freeblock ≤ BPB) (hc : c < BPB) :
    sb.inUse m.marked.disk c = decide (c < m.freeblock) := by
  have hb : sb.bblock c = sb.bmapstart := by
    rw [Superblock.bblock, Nat.div_eq_of_lt hc, Nat.zero_add]
  have hd : m.marked.disk sb.bmapstart = usedMap m.freeblock := by
    simp only [Image.marked, update_self]
  rw [Superblock.inUse, hb, Nat.mod_eq_of_lt hc, hd]
  exact testBit_usedMap hk c

theorem marked_disk (hc : c ≠ sb.bmapstart) : m.marked.disk c = m.disk c := update_of_ne hc _ _

theorem marked_wsect (b : DiskBlock) (hc : c ≠ sb.bmapstart) :
    (wsect c b m).marked = m.marked.write c b := by
  unfold Image.marked wsect Volume.write
  exact congrArg (Volume.mk sb) (update_comm hc _ _ _)

theorem rsect_marked (hc : c ≠ sb.bmapstart) (hlt : c < FSSIZE) :
    rsect c m = .ok (m.marked.disk c) := by
  rw [rsect, if_pos hlt, marked_disk hc]

theorem data_ne {b : Uint} (h : InData sb b) : b.toNat ≠ sb.bmapstart := by
  have h1 := h.1
  have h2 := bmapstart_lt sb
  omega

theorem dataStart_eq : sb.dataStart = nmeta := by decide

end Marked

/-- What holds at any time while `mkfs` runs. `D` gives the inodes, one of which
may be ahead of the image. -/
structure Base (m : Image) (D : ℕ → Dinode) (V : View) : Prop where
  backs : Backs m.marked D V
  clean : ∀ c, m.freeblock ≤ c → m.disk c = fun _ => 0
  low : nmeta ≤ m.freeblock
  high : m.freeblock ≤ FSSIZE

variable {m : Image} {D : ℕ → Dinode} {V : View} {n : ℕ}

theorem Base.inodes (h : Base m D V) : V.inodes = NINODES := h.backs.inodes.symm

theorem Base.small (h : Base m D V) : m.freeblock ≤ BPB := Nat.le_trans h.high (by decide)

theorem Base.balloc (h : Base m D V) (hlt : m.freeblock < FSSIZE) :
    FsDisk.balloc m.marked = .ok (m.fresh,m.next.marked) := by
  have hB : FSSIZE ≤ BPB := by decide
  have hfind : (List.range m.marked.sb.size).find?
      (fun b => !m.marked.sb.inUse m.marked.disk b) = some m.freeblock := by
    rw [List.find?_range_eq_some]
    refine ⟨?_,List.mem_range.mpr hlt,fun j hj => ?_⟩
    · have := inUse_marked (m := m) (c := m.freeblock) h.small (by omega)
      simp only [Image.marked] at this ⊢
      simp [this]
    · have := inUse_marked (m := m) (c := j) h.small (by omega)
      simp only [Image.marked] at this ⊢
      simp [this, hj]
  have hb : sb.bblock m.freeblock = sb.bmapstart := by
    rw [Superblock.bblock, Nat.div_eq_of_lt (by omega), Nat.zero_add]
  have hne : m.freeblock ≠ sb.bmapstart := by
    have h1 := h.low
    have h2 : sb.bmapstart < nmeta := by decide
    omega
  have hdisk : m.next.marked = (m.marked.write sb.bmapstart
      (setBit (m.marked.disk sb.bmapstart) (m.freeblock%BPB))).write m.freeblock (fun _ => 0) := by
    unfold Image.marked Image.next Volume.write
    refine congrArg (Volume.mk sb) ?_
    funext c
    simp only [update_idem, update_self, Nat.mod_eq_of_lt (Nat.lt_of_lt_of_le hlt hB), usedMap_succ]
    by_cases hc : c = m.freeblock
    · subst hc
      rw [update_self, update_of_ne hne, h.clean _ (Nat.le_refl _)]
    · rw [update_of_ne hc]
  unfold FsDisk.balloc
  rw [hfind]
  show Except.ok _ = _
  rw [hdisk]
  simp only [Image.marked, hb]
  rfl

theorem Base.taken (h : Base m D V) {p : Option ℕ} {b : Uint} (hr : Ref m.marked D n p b) :
    InData sb b ∧ b.toNat < m.freeblock := by
  have hd : InData sb b := h.backs.owned.range _ _ _ hr
  have hB : FSSIZE ≤ BPB := by decide
  have hlt : b.toNat < FSSIZE := hd.2
  have hu : sb.inUse m.marked.disk b.toNat = true :=
    (h.backs.owned.used b hd).mpr (Or.inl ⟨n,p,hr⟩)
  rw [inUse_marked h.small (by omega)] at hu
  exact ⟨hd,of_decide_eq_true hu⟩

theorem Base.wsect (h : Base m D V) {c : ℕ} (hc : c < m.freeblock) (hne : c ≠ sb.bmapstart)
    {b : DiskBlock} {E : ℕ → Dinode} {W : View} (hb : Backs (m.marked.write c b) E W) :
    Base (wsect c b m) E W := by
  refine ⟨?_,fun e he => ?_,h.low,h.high⟩
  · rw [marked_wsect b hne]
    exact hb
  have he : m.freeblock ≤ e := he
  show update m.disk c b e = _
  rw [update_of_ne (by omega)]
  exact h.clean e he

def Placed (v : Volume) (D : ℕ → Dinode) (w : Volume) (E : ℕ → Dinode) (n : ℕ) (p : Option ℕ)
    (b : Uint) : Prop :=
  ∀ j < NINODES, (D j).type ≠ 0 → ∀ q,
    w.blockAt (E j) q = if j = n ∧ q = p then b else v.blockAt (D j) q

section Alloc

variable (h : Base m D V) (hlt : m.freeblock < FSSIZE) (hn : n < NINODES) (ht : (D n).type ≠ 0)

include h hlt hn ht

theorem Base.slot {k : Fin (NDIRECT+1)} (h0 : (D n).addrs k = 0) :
    m.fresh ≠ 0 ∧ Base m.next (update D n ((D n).setAddr k m.fresh)) V ∧
      Placed m.marked D m.next.marked (update D n ((D n).setAddr k m.fresh)) n (placeOf k)
        m.fresh := by
  have hb := h.balloc hlt
  have hn' : n < V.inodes := by rwa [h.inodes]
  have ha := balloc_allocates h.backs.owned hb
  obtain ⟨h1,h2,-⟩ := h.backs.allocSlot hn' ht h0 hb
  refine ⟨h1,⟨h2,fun c hc => h.clean c (Nat.le_of_succ_le hc),Nat.le_succ_of_le h.low,hlt⟩,?_⟩
  intro j hj hjt q
  have hsame := (h.backs.owned.balloc ha).2 j hj hjt q
  by_cases he : j = n
  · subst he
    rw [update_self, blockAt_setAddr h0 ha.zero, hsame]
    simp
  · rw [update_of_ne he, if_neg (fun e => he e.1), hsame]

theorem Base.entry (hi : (D n).indirect ≠ 0) {j : ℕ} (hj : j < NINDIRECT)
    (h0 : m.marked.addr (D n) (NDIRECT+j) = 0) :
    m.fresh ≠ 0 ∧
      let a := (D n).indirect.toNat
      let w := Mkfs.wsect a (setWord (m.disk a) j m.fresh) m.next
      Base w D V ∧ Placed m.marked D w.marked D n (some (NDIRECT+j)) m.fresh := by
  have hb := h.balloc hlt
  have hn' : n < V.inodes := by rwa [h.inodes]
  have ha := balloc_allocates h.backs.owned hb
  have href : Ref m.marked D n none (D n).indirect := ⟨hn,ht,rfl,hi⟩
  obtain ⟨hdata,htaken⟩ := h.taken href
  have hne := data_ne hdata
  obtain ⟨h1,h2,-⟩ := h.backs.allocEntry hn' ht hi hj h0 hb
  obtain ⟨ho,hsame⟩ := h.backs.owned.balloc ha
  have hdisk : m.next.marked.disk (D n).indirect.toNat = m.disk (D n).indirect.toNat :=
    marked_disk hne
  rw [hdisk] at h2
  refine ⟨h1,⟨?_,fun c hc => ?_,Nat.le_succ_of_le h.low,hlt⟩,?_⟩
  · rw [marked_wsect _ hne]
    exact h2
  · have hc : m.freeblock+1 ≤ c := hc
    show update m.disk _ _ c = _
    rw [update_of_ne (by omega)]
    exact h.clean c (by omega)
  intro i hi' hit q
  rw [marked_wsect _ hne, ← hdisk]
  by_cases he : i = n
  · subst he
    rw [blockAt_setEntry hi hj, hsame i hi' hit]
    simp
  rw [if_neg (fun e => he e.1), ← hsame i hi' hit q]
  -- the indirect blocks of two inodes are different
  refine blockAt_congr rfl (fun hii => disk_write_ne _ (fun e => ?_)) q
  have e : (D i).indirect = (D n).indirect := BitVec.eq_of_toNat_eq e
  exact he (ho.unique i none n none _ ⟨hi',hit,e,hi⟩ ⟨hn,ht,rfl,hi⟩).1

end Alloc

end Yeet.Mkfs
