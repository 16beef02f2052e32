import YeetKernel.Kernel

/-!
# The on-disk format and the block allocator

Blocks, superblock, inodes and the free map as `fs.h` lays them out, and the
routines of `fs.c` that read and write them. A volume is the global copy of
the superblock together with the blocks as they are seen through the buffer
cache.
-/

namespace Yeet.FsDisk
open Kernel Bytes Function

def ROOTINO : Uint := 1
def NDIRECT : ℕ := 10
def NINDIRECT : ℕ := BSIZE/4
def MAXFILE : ℕ := NDIRECT+NINDIRECT
def IPB : ℕ := BSIZE/64
def BPB : ℕ := BSIZE*8
def DIRSIZ : ℕ := 14

def T_DIR : Ushort := 1
def T_FILE : Ushort := 2
def T_DEV : Ushort := 3

abbrev Disk := ℕ → DiskBlock

structure Superblock where
  size : ℕ
  nblocks : ℕ
  ninodes : ℕ
  nlog : ℕ
  logstart : ℕ
  inodestart : ℕ
  bmapstart : ℕ
  deriving DecidableEq

structure Volume where
  sb : Superblock
  disk : Disk

/-- A block is changed in its buffer and logged. -/
def Volume.write (v : Volume) (n : ℕ) (b : DiskBlock) : Volume := {v with disk := update v.disk n b}

def readsb (d : Disk) : Superblock where
  size := (getField (d 1) 0 4).toNat
  nblocks := (getField (d 1) 4 4).toNat
  ninodes := (getField (d 1) 8 4).toNat
  nlog := (getField (d 1) 12 4).toNat
  logstart := (getField (d 1) 16 4).toNat
  inodestart := (getField (d 1) 20 4).toNat
  bmapstart := (getField (d 1) 24 4).toNat

def Superblock.bblock (sb : Superblock) (b : ℕ) : ℕ := b/BPB+sb.bmapstart

def Superblock.iblock (sb : Superblock) (i : ℕ) : ℕ := i/IPB+sb.inodestart

def Superblock.inUse (sb : Superblock) (d : Disk) (b : ℕ) : Bool :=
  testBit (d (sb.bblock b)) (b%BPB)

/-- The first block whose bit is clear, marked and zeroed. -/
def balloc (v : Volume) : Except Fault (Uint × Volume) :=
  match (List.range v.sb.size).find? (fun b => !v.sb.inUse v.disk b) with
  | none => .error (.panic "balloc: out of blocks")
  | some b =>
    let w := v.write (v.sb.bblock b) (setBit (v.disk (v.sb.bblock b)) (b%BPB))
    .ok (BitVec.ofNat 32 b,w.write b (fun _ => 0))

/-- The superblock is read again before the bit is cleared. -/
def bfree (v : Volume) (b : Uint) : Except Fault Volume :=
  let sb := readsb v.disk
  if sb.inUse v.disk b.toNat then
    let n := sb.bblock b.toNat
    .ok (Volume.write ⟨sb,v.disk⟩ n (clearBit (v.disk n) (b.toNat%BPB)))
  else .error (.panic "freeing free block")

structure Dinode where
  type : Ushort
  major : Ushort
  minor : Ushort
  nlink : Ushort
  mode : Uint
  uid : Ushort
  gid : Ushort
  size : Uint
  addrs : Fin (NDIRECT+1) → Uint

def Dinode.zero : Dinode := ⟨0,0,0,0,0,0,0,0,fun _ => 0⟩

def getDinode (b : DiskBlock) (k : ℕ) : Dinode where
  type := getField b (64*k) 2
  major := getField b (64*k+2) 2
  minor := getField b (64*k+4) 2
  nlink := getField b (64*k+6) 2
  mode := getField b (64*k+8) 4
  uid := getField b (64*k+12) 2
  gid := getField b (64*k+14) 2
  size := getField b (64*k+16) 4
  addrs := fun j => getField b (64*k+20+4*j) 4

def putDinode (b : DiskBlock) (k : ℕ) (d : Dinode) : DiskBlock :=
  let b := setField b (64*k) 2 d.type
  let b := setField b (64*k+2) 2 d.major
  let b := setField b (64*k+4) 2 d.minor
  let b := setField b (64*k+6) 2 d.nlink
  let b := setField b (64*k+8) 4 d.mode
  let b := setField b (64*k+12) 2 d.uid
  let b := setField b (64*k+14) 2 d.gid
  let b := setField b (64*k+16) 4 d.size
  setFields b (64*k+20) 4 (NDIRECT+1) d.addrs

def Volume.dinode (v : Volume) (i : ℕ) : Dinode := getDinode (v.disk (v.sb.iblock i)) (i%IPB)

def Volume.setDinode (v : Volume) (i : ℕ) (d : Dinode) : Volume :=
  let n := v.sb.iblock i
  v.write n (putDinode (v.disk n) (i%IPB) d)

def getWord (b : DiskBlock) (j : ℕ) : Uint := getField b (4*j) 4

def setWord (b : DiskBlock) (j : ℕ) (a : Uint) : DiskBlock := setField b (4*j) 4 a

def bfreeAll : List Uint → Volume → Except Fault Volume
  | [],v => .ok v
  | a::l,v => if a = 0 then bfreeAll l v else bfree v a >>= bfreeAll l

/-- The direct blocks, then the blocks listed in the indirect block, then the
indirect block itself. -/
def itruncBlocks (d : Dinode) (v : Volume) : Except Fault Volume := do
  let v ← bfreeAll ((List.finRange NDIRECT).map (fun k => d.addrs k.castSucc)) v
  let a := d.addrs (Fin.last NDIRECT)
  if a = 0 then .ok v else do
    let w ← bfreeAll ((List.range NINDIRECT).map (getWord (v.disk a.toNat))) v
    bfree w a

section Format

variable (b : DiskBlock) {k l i : ℕ} (d : Dinode)

theorem byteAt_putDinode_out (h : i < 64*k ∨ 64*k+64 ≤ i) :
    byteAt (putDinode b k d) i = byteAt b i := by
  simp only [putDinode]
  rw [byteAt_setFields_out _ _ (by decide) (by simp only [NDIRECT]; omega)]
  repeat rw [byteAt_setField_out _ _ (by omega)]

theorem getDinode_congr {c : DiskBlock}
    (h : ∀ i, 64*k ≤ i → i < 64*k+64 → byteAt b i = byteAt c i) :
    getDinode b k = getDinode c k := by
  have hf : ∀ o m, o+m ≤ 64 → getField b (64*k+o) m = getField c (64*k+o) m :=
    fun o m ho => getField_congr (fun i h1 h2 => h i (by omega) (by omega))
  have ha : ∀ j : Fin (NDIRECT+1), getField b (64*k+20+4*j) 4 = getField c (64*k+20+4*j) 4 := by
    intro j
    have hj : j.val < 11 := j.isLt
    rw [Nat.add_assoc]
    exact hf _ _ (by omega)
  have h0 := hf 0 2 (by decide)
  rw [Nat.add_zero] at h0
  simp only [getDinode, ha, h0, hf _ 2 (by decide : 2+2 ≤ 64), hf _ 2 (by decide : 4+2 ≤ 64),
    hf _ 2 (by decide : 6+2 ≤ 64), hf _ 4 (by decide : 8+4 ≤ 64), hf _ 2 (by decide : 12+2 ≤ 64),
    hf _ 2 (by decide : 14+2 ≤ 64), hf _ 4 (by decide : 16+4 ≤ 64)]

theorem getDinode_putDinode_ne (h : l ≠ k) : getDinode (putDinode b k d) l = getDinode b l :=
  getDinode_congr _ (fun i h1 h2 => byteAt_putDinode_out b d (by omega))

end Format

theorem getDinode_putDinode (b : DiskBlock) {k : ℕ} (d : Dinode) (hk : k < IPB) :
    getDinode (putDinode b k d) k = d := by
  have hk : 64*k+64 ≤ BSIZE := by
    simp only [IPB, BSIZE] at hk ⊢
    omega
  have ha : ∀ j : Fin (NDIRECT+1),
      getField (putDinode b k d) (64*k+20+4*j) 4 = d.addrs j := by
    intro j
    exact getField_setFields (k := 4) _ d.addrs j (by simp only [NDIRECT]; omega)
  have hout : ∀ (c : DiskBlock) (p l : ℕ), p+l ≤ 64*k+20 →
      getField (setFields c (64*k+20) 4 (NDIRECT+1) d.addrs) p l = getField c p l :=
    fun c p l h => getField_setFields_ne (k := 4) c d.addrs (by decide) (Or.inl h)
  simp only [getDinode, ha]
  simp only [putDinode]
  congr 1 <;> rw [hout _ _ _ (by omega)] <;>
    repeat first
      | rw [getField_setField _ _ (by omega)]
      | rw [getField_setField_ne _ _ (by omega)]

theorem getWord_setWord (b : DiskBlock) {j : ℕ} (hj : j < NINDIRECT) (a : Uint) (i : ℕ) :
    getWord (setWord b j a) i = if i = j then a else getWord b i := by
  simp only [NINDIRECT, BSIZE] at hj
  split
  · rename_i h
    subst h
    exact getField_setField (k := 4) b a (by simp only [BSIZE]; omega)
  · exact getField_setField_ne (k := 4) b a (by omega)

/-- The superblock is the one on disk, and its regions are in the order of `fs.h`. -/
structure Volume.Laid (v : Volume) : Prop where
  super : readsb v.disk = v.sb
  log : 1 < v.sb.logstart
  inodes : v.sb.logstart+v.sb.nlog ≤ v.sb.inodestart
  bitmap : v.sb.inodestart+v.sb.ninodes/IPB+1 ≤ v.sb.bmapstart

variable {v w : Volume} {n m : ℕ}

theorem Volume.Laid.super_lt (h : v.Laid) (n : ℕ) : 1 < v.sb.iblock n := by
  have h1 := h.log
  have h2 := h.inodes
  unfold Superblock.iblock
  generalize n/IPB = q
  omega

theorem Volume.Laid.iblock_lt (h : v.Laid) (hn : n < v.sb.ninodes) :
    v.sb.iblock n < v.sb.bmapstart := by
  have h1 := h.bitmap
  have h2 : n/IPB ≤ v.sb.ninodes/IPB := Nat.div_le_div_right (Nat.le_of_lt hn)
  unfold Superblock.iblock
  omega

theorem Volume.Laid.bmapstart_gt (h : v.Laid) : 1 < v.sb.bmapstart := by
  have h1 := h.log
  have h2 := h.inodes
  have h3 := h.bitmap
  generalize v.sb.ninodes/IPB = q at h3
  omega

theorem Volume.Laid.ninodes_lt (h : v.Laid) : v.sb.ninodes < 2^32 := by
  rw [← h.super]
  exact BitVec.isLt _

theorem bmapstart_le (sb : Superblock) (b : ℕ) : sb.bmapstart ≤ sb.bblock b := Nat.le_add_left _ _

theorem readsb_congr {d e : Disk} (h : e 1 = d 1) : readsb e = readsb d := by
  unfold readsb
  rw [h]

theorem Volume.Laid.of_super (h : v.Laid) (hsb : w.sb = v.sb) (hd : w.disk 1 = v.disk 1) :
    w.Laid := by
  have hr := readsb_congr hd
  constructor
  · rw [hr, h.super, hsb]
  · rw [hsb]
    exact h.log
  · rw [hsb]
    exact h.inodes
  · rw [hsb]
    exact h.bitmap

theorem disk_write_ne (b : DiskBlock) (h : m ≠ n) : (v.write n b).disk m = v.disk m :=
  update_of_ne h _ _

theorem disk_write (b : DiskBlock) : (v.write n b).disk n = b := update_self _ _ _

theorem iblock_inj {sb : Superblock} (h : sb.iblock m = sb.iblock n) (hm : m%IPB = n%IPB) :
    m = n := by
  unfold Superblock.iblock at h
  rw [← Nat.div_add_mod m IPB, ← Nat.div_add_mod n IPB, hm]
  have : m/IPB = n/IPB := by omega
  rw [this]

theorem dinode_setDinode (d : Dinode) : (v.setDinode n d).dinode n = d := by
  have h : n%IPB < IPB := Nat.mod_lt n (by decide)
  show getDinode ((v.write _ _).disk (v.sb.iblock n)) _ = d
  rw [disk_write, getDinode_putDinode _ _ h]

theorem dinode_setDinode_ne (d : Dinode) (h : m ≠ n) : (v.setDinode n d).dinode m = v.dinode m := by
  show getDinode ((v.write _ _).disk (v.sb.iblock m)) _ = getDinode (v.disk (v.sb.iblock m)) _
  by_cases hb : v.sb.iblock m = v.sb.iblock n
  · rw [hb, disk_write]
    exact getDinode_putDinode_ne _ _ (fun e => h (iblock_inj hb e))
  · rw [disk_write_ne _ hb]

theorem Volume.Laid.setDinode (h : v.Laid) (d : Dinode) : (v.setDinode n d).Laid :=
  h.of_super rfl (disk_write_ne _ (Nat.ne_of_lt (h.super_lt n)))

theorem inUse_setDinode (h : v.Laid) (hn : n < v.sb.ninodes) (d : Dinode) (b : ℕ) :
    v.sb.inUse (v.setDinode n d).disk b = v.sb.inUse v.disk b := by
  have h1 := h.iblock_lt hn
  have h2 : v.sb.bblock b ≠ v.sb.iblock n := by
    have := bmapstart_le v.sb b
    omega
  show testBit ((v.write _ _).disk _) _ = testBit (v.disk _) _
  rw [disk_write_ne _ h2]

structure SameFront (v w : Volume) : Prop where
  sb : w.sb = v.sb
  front : ∀ n, n < v.sb.bmapstart → w.disk n = v.disk n

theorem SameFront.refl (v : Volume) : SameFront v v := ⟨rfl,fun _ _ => rfl⟩

theorem SameFront.trans {u : Volume} (h : SameFront v w) (h' : SameFront w u) : SameFront v u := by
  constructor
  · rw [h'.sb, h.sb]
  · intro n hn
    rw [h'.front n (by rwa [h.sb]), h.front n hn]

theorem SameFront.laid (h : SameFront v w) (hv : v.Laid) : w.Laid :=
  hv.of_super h.sb (h.front 1 hv.bmapstart_gt)

theorem SameFront.dinode (h : SameFront v w) (hv : v.Laid) (hn : n < v.sb.ninodes) :
    w.dinode n = v.dinode n := by
  unfold Volume.dinode
  rw [h.sb, h.front _ (hv.iblock_lt hn)]

theorem bfree_front (hv : v.Laid) {b : Uint} (h : bfree v b = .ok w) : SameFront v w := by
  unfold bfree at h
  rw [hv.super] at h
  dsimp only at h
  split at h
  · cases h
    refine ⟨rfl,fun n hn => update_of_ne ?_ _ _⟩
    have := bmapstart_le v.sb b.toNat
    omega
  · cases h

theorem bfreeAll_front (l : List Uint) (hv : v.Laid) (h : bfreeAll l v = .ok w) :
    SameFront v w := by
  induction l generalizing v with
  | nil =>
    cases h
    exact SameFront.refl _
  | cons a l ih =>
    rw [bfreeAll] at h
    split at h
    · exact ih hv h
    · obtain ⟨u,h1,h2⟩ := bind_eq_ok.mp h
      have hf := bfree_front hv h1
      exact hf.trans (ih (hf.laid hv) h2)

theorem itruncBlocks_front (hv : v.Laid) {d : Dinode} (h : itruncBlocks d v = .ok w) :
    SameFront v w := by
  obtain ⟨u,h1,h2⟩ := bind_eq_ok.mp h
  have hu := bfreeAll_front _ hv h1
  dsimp only at h2
  split at h2
  · cases h2
    exact hu
  · obtain ⟨x,h3,h4⟩ := bind_eq_ok.mp h2
    have hx := bfreeAll_front _ (hu.laid hv) h3
    exact hu.trans (hx.trans (bfree_front (hx.laid (hu.laid hv)) h4))

end Yeet.FsDisk
