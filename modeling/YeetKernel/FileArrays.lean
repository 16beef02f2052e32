import YeetKernel.FileContents
import YeetKernel.FsMachine

/-!
# Files behave as byte arrays

The functional specification of `writei` and `readi`. A volume with one file shows
that there is something it applies to.
-/

namespace Yeet.Fs
open Kernel Bytes FsDisk Resumption Function

variable {loose : List Uint} {i : Ino} {s : State}

theorem files_are_byte_arrays (h : Consistent loose i s) (hd : (s.inode i).din.type ≠ T_DEV) :
    (∀ (off : Uint) (src : List Byte), src.length < 2^32 →
      (Refused (contents s.vol (s.inode i).din).length off.toNat src.length →
        Returns (writei i src off) (fun r s' => r = -1 ∧ s' = s) s) ∧
      (¬ Refused (contents s.vol (s.inode i).din).length off.toNat src.length →
        s.vol.missing (s.inode i).din off.toNat (off.toNat+src.length) ≤ s.vol.free →
        Returns (writei i src off) (fun r s' => r = src.length ∧ Consistent loose i s' ∧
          Writes i off.toNat src s s' ∧ (contents s'.vol (s'.inode i).din).length =
            max (contents s.vol (s.inode i).din).length (off.toNat+src.length)) s)) ∧
    ∀ off n : Uint,
      ((contents s.vol (s.inode i).din).length < off.toNat ∨ 2^32 ≤ off.toNat+n.toNat →
        Returns (readi i off n) (fun r s' => r.1 = -1 ∧ s' = s) s) ∧
      (¬ ((contents s.vol (s.inode i).din).length < off.toNat ∨ 2^32 ≤ off.toNat+n.toNat) →
        Returns (readi i off n) (fun r s' => s' = s ∧ r.1 = r.2.length ∧
          r.2 = ((contents s.vol (s.inode i).din).drop off.toNat).take
            (min (off.toNat+n.toNat) (contents s.vol (s.inode i).din).length-off.toNat)) s) := by
  have hlen := length_contents s.vol (s.inode i).din
  have hsize : (viewOf s.vol).size (s.num i) = (contents s.vol (s.inode i).din).length := by
    rw [hlen, h.sound.size]
  constructor
  · intro off src hsrc
    constructor
    · intro hno
      rw [← hsize] at hno
      refine ends_writei h.sound hd hsrc off (fun _ => ⟨_,_,rfl,rfl,rfl⟩) (fun hc => absurd hno hc)
        (fun hc => absurd hno hc)
    intro hyes hroom
    rw [← hsize] at hyes
    refine ends_writei h.sound hd hsrc off (fun hc => absurd hc hyes) (fun _ s' h' hch _ => ?_)
      (fun _ hlack => absurd hroom (Nat.not_le.mpr hlack))
    have hoff : off.toNat ≤ (viewOf s.vol).size (s.num i) := by
      unfold Refused at hyes
      omega
    have hw := h.sound.writes hoff (by unfold Refused at hyes; omega) h' hch
    refine ⟨_,_,rfl,rfl,h'.consistent,hw,?_⟩
    rw [hw.contents, length_replace (by rw [← hsize]; exact hoff)]
  · intro off n
    constructor
    · intro hno
      rw [hlen] at hno
      refine returns_readi_all h hd off n (fun _ => ⟨rfl,rfl⟩) (fun h1 h2 => ?_)
      omega
    intro hyes
    rw [hlen] at hyes
    refine returns_readi_all h hd off n (fun hc => absurd hc hyes) (fun h1 h2 => ⟨rfl,rfl,?_⟩)
    have hmin : min (off.toNat+n.toNat) (contents s.vol (s.inode i).din).length-off.toNat =
        min n.toNat ((contents s.vol (s.inode i).din).drop off.toNat).length := by
      rw [List.length_drop]
      omega
    rw [hmin]
    exact List.take_eq_take_min

section Scratch

def scratchDisk (d : Dinode) : Disk := fun b =>
  if b = 1 then setFields (fun _ => 0) 0 4 7 (fun j => [300#32,295#32,8#32,0#32,2#32,2#32,4#32].getD j 0)
  else if b = 2 then putDinode (fun _ => 0) 1 d
  else if b = 4 then putBytes (fun _ => 0) 0 [0x1f#8]
  else fun _ => 0

def scratchSuper : Superblock := ⟨300,295,8,0,2,2,4⟩

def firstSlot : Ino := Fin.ofNat 50 0

def scratch (d : Dinode) : State :=
  {boot (scratchDisk d) with
    inode := update (fun _ => Inode.free) firstSlot ⟨ROOTDEV,1,true,true,d⟩
    iref := update (fun _ => 0) firstSlot 1
    outstanding := 1}

theorem scratch_sb (d : Dinode) : (scratch d).vol.sb = scratchSuper := by
  show readsb (scratchDisk d) = scratchSuper
  have h1 : scratchDisk d 1 = setFields (fun _ => 0) 0 4 7
    (fun j => [300#32,295#32,8#32,0#32,2#32,2#32,4#32].getD j 0) := if_pos rfl
  unfold readsb
  rw [h1]
  decide +kernel

theorem scratch_inUse (d : Dinode) {b : ℕ} (hb : b < 300) :
    scratchSuper.inUse (scratch d).vol.disk b = decide (b < 5) := by
  have h4 : (scratch d).vol.disk (scratchSuper.bblock b) = putBytes (fun _ => 0) 0 [0x1f#8] := by
    have : scratchSuper.bblock b = 4 := by
      rw [Superblock.bblock, Nat.div_eq_of_lt (Nat.lt_trans hb (by decide))]
      rfl
    rw [this]
    rfl
  unfold Superblock.inUse
  rw [h4]
  clear h4
  revert b
  decide +kernel

theorem scratch_free (d : Dinode) : (scratch d).vol.free = 295 := by
  have hcongr : (Finset.range 300).filter (fun b => scratchSuper.inUse (scratch d).vol.disk b = false) =
      (Finset.range 300).filter (fun b => decide (b < 5) = false) := by
    apply Finset.filter_congr
    intro b hb
    rw [scratch_inUse d (Finset.mem_range.mp hb)]
  unfold Volume.free
  rw [scratch_sb]
  exact (congrArg Finset.card hcongr).trans (by decide +kernel)

theorem scratch_dinode (d : Dinode) : (scratch d).vol.dinode 1 = d := by
  have hsb := scratch_sb d
  show getDinode ((scratch d).vol.disk ((scratch d).vol.sb.iblock 1)) _ = d
  rw [hsb]
  exact getDinode_putDinode _ _ (by decide)

theorem scratch_dinode_ne (d : Dinode) {m : ℕ} (hm : m < 8) (hne : m ≠ 1) :
    ((scratch d).vol.dinode m).type = 0 := by
  have hsb := scratch_sb d
  show (getDinode ((scratch d).vol.disk ((scratch d).vol.sb.iblock m)) _).type = 0
  rw [hsb]
  have hblock : scratchSuper.iblock m = 2 := by
    rw [Superblock.iblock, Nat.div_eq_of_lt (show m < IPB from hm)]
    rfl
  have hmod : m%IPB = m := Nat.mod_eq_of_lt hm
  rw [hblock, hmod]
  show (getDinode (putDinode (fun _ => 0) 1 d) m).type = 0
  rw [getDinode_putDinode_ne _ _ hne]
  clear hmod hblock hsb
  revert m
  decide +kernel

theorem scratch_consistent {d : Dinode} (ht : d.type ≠ 0) (hs : d.size = 0)
    (ha : ∀ k, d.addrs k = 0) : Consistent [] firstSlot (scratch d) := by
  have hsb := scratch_sb d
  have hdin := scratch_dinode d
  have hone : ∀ m < (scratch d).vol.sb.ninodes, ((scratch d).vol.dinode m).type ≠ 0 → m = 1 := by
    intro m hm htm
    rw [hsb] at hm
    by_contra hne
    exact htm (scratch_dinode_ne d hm hne)
  have hblock : ∀ p, (scratch d).vol.blockAt d p = 0 := by
    intro p
    cases p with
    | none => exact ha _
    | some k => exact addr_empty ha k
  have href : ∀ n p b, ¬ Ref (scratch d).vol (scratch d).vol.dinode n p b := by
    intro n p b hr
    obtain rfl := hone n hr.inode hr.type
    have hb := hr.block
    rw [hdin, hblock] at hb
    exact hr.ne hb.symm
  constructor
  case owned =>
    constructor
    case laid =>
      constructor
      · rfl
      all_goals
        rw [hsb]
        decide
    case front =>
      intro b hb
      rw [hsb] at hb ⊢
      have hb5 : b < 5 := hb
      rw [scratch_inUse d (by omega), decide_eq_true hb5]
    case range => exact fun n p b hr => absurd hr (href n p b)
    case unique => exact fun n p m q b hr => absurd hr (href n p b)
    case used =>
      intro b hb
      rw [hsb] at hb ⊢
      have h5 : 5 ≤ b.toNat := hb.1
      rw [scratch_inUse d hb.2, decide_eq_false (by omega)]
      constructor
      · intro h0
        cases h0
      intro h0
      rcases h0 with ⟨n,p,hr⟩ | h0
      · exact absurd hr (href n p b)
      · cases h0
    case nodup => exact List.nodup_nil
    case data => exact fun b hb => absurd hb List.not_mem_nil
    case unref => exact fun b hb => absurd hb List.not_mem_nil
  case filled =>
    intro n hn htn _
    obtain rfl := hone n hn htn
    rw [hdin]
    exact filled_empty hs
  case lt =>
    rw [hsb]
    exact (by decide : 1 < 8)
  case din => exact hdin.symm
  case type => exact ht

def emptyFile : Dinode := {Dinode.zero with type := T_FILE, nlink := 1}

theorem files_are_byte_arrays_scratch : Returns (writei firstSlot [1,2,3] 0) (fun r s' => r = 3 ∧
      contents s'.vol (s'.inode firstSlot).din = [1,2,3]) (scratch emptyFile) := by
  have hc : contents (scratch emptyFile).vol ((scratch emptyFile).inode firstSlot).din = [] := rfl
  have hroom : (scratch emptyFile).vol.missing ((scratch emptyFile).inode firstSlot).din 0 3 ≤
      (scratch emptyFile).vol.free := by
    rw [scratch_free]
    exact Nat.le_trans (missing_le _ _ _ _) (by decide)
  have hno : ¬ Refused ([] : List Byte).length 0 3 := by
    unfold Refused
    decide
  have h := ((files_are_byte_arrays (scratch_consistent (d := emptyFile) (by decide) rfl (fun _ => rfl))
    (by decide)).1 0 [1,2,3] (by decide)).2 (by rw [hc]; exact hno) hroom
  refine returns_mono h (fun r s' hr => ⟨hr.1,?_⟩)
  rw [hr.2.2.1.contents, hc]
  rfl

end Scratch

end Yeet.Fs
