import YeetKernel.FileArrays
import YeetKernel.MkfsLookup

/-!
# Directories as finite maps

`dirlink` writes an entry to the first slot that is free, or behind the last
one. For the lookups that follow this is the insertion of one name.
-/

namespace Yeet.Fs
open Kernel Bytes FsDisk Resumption Mkfs

section Search

variable {P P' : ℕ → Bool} {k a : ℕ} (he : ∀ e, e ≠ a → P' e = P e) (hk : a ≤ k)

include he hk

theorem find_fresh (hP : ∀ e < k, P e = false) (ha : P' a = true) :
    (List.range (max k (a+1))).find? P' = some a := by
  refine List.find?_range_eq_some.mpr ⟨ha,List.mem_range.mpr (by omega),fun e hlt => ?_⟩
  rw [he e (by omega), hP e (by omega)]
  rfl

theorem find_beside (ha : P' a = false) (hP : a < k → P a = false) :
    (List.range (max k (a+1))).find? P' = (List.range k).find? P := by
  have hsame : ∀ e < k, P' e = P e := by grind
  cases hf : (List.range k).find? P with
  | none =>
    rw [List.find?_range_eq_none] at hf ⊢
    grind
  | some j =>
    obtain ⟨h1,h2,h3⟩ := List.find?_range_eq_some.mp hf
    have hj := List.mem_range.mp h2
    refine List.find?_range_eq_some.mpr ⟨?_,List.mem_range.mpr (by omega),?_⟩ <;> grind

end Search

variable {loose : List Uint} {i : Ino} {s : State} {v v' : Volume} {d d' : Dinode} {a : ℕ}
variable {de : List Byte}

theorem entry_overlay (hb : ∀ o, v'.byte d' o = overlay (v.byte d) (direntSize*a) de o)
    (hl : de.length = direntSize) (e : ℕ) : entry v' d' e = if e = a then de else entry v d e := by
  by_cases h : e = a
  · rw [if_pos h, h]
    refine List.ext_getElem (by simp [entry, hl]) (fun j h1 h2 => ?_)
    simp [entry, hb, overlay, h2]
  rw [if_neg h]
  refine List.map_congr_left (fun j hj => ?_)
  have hj := List.mem_range.mp hj
  rw [hb, overlay, if_neg (by unfold direntSize at *; omega)]

theorem lookup_insert {k : Ushort} {name : Name} (hk : k ≠ 0)
    (he : ∀ e, entry v' d' e = if e = a then mkDirent k name else entry v d e)
    (hc : d'.size.toNat/direntSize = max (d.size.toNat/direntSize) (a+1))
    (ha : a ≤ d.size.toNat/direntSize)
    (hfree : a < d.size.toNat/direntSize → direntInum (entry v d a) = 0)
    (hno : locate v d (hits name) = none) (m : Name) :
    (locate v' d' (hits m)).map (entryInum v' d') = if namecmp m name then some (k.setWidth 32)
      else (locate v d (hits m)).map (entryInum v d) := by
  have hother : ∀ e, e ≠ a → hits m (entry v' d' e) = hits m (entry v d e) := fun e h => by
    rw [he, if_neg h]
  have hnew : hits m (entry v' d' a) = namecmp m name := by
    rw [he, if_pos rfl, hits_mkDirent m hk, namecmp]
  have hold : ∀ h : a < d.size.toNat/direntSize, hits m (entry v d a) = false := fun h => by
    simp [hits, hfree h]
  cases hm : namecmp m name with
  | true =>
    have hsame : hits m = hits name := by
      funext e
      rw [hits, hits, namecmp, namecmp, beq_iff_eq.mp hm]
    rw [locate, hc, find_fresh hother ha (fun e h => ?_) (hnew.trans hm)]
    · simp [entryInum, he, direntInum_mkDirent]
    · rw [hsame]
      simpa using List.find?_range_eq_none.mp hno e h
  | false =>
    rw [locate, hc, find_beside hother ha (hnew.trans hm) hold]
    refine Option.map_congr (fun e hmem => ?_)
    have hhit := List.find?_some hmem
    have hlt := List.mem_range.mp (List.mem_of_find?_eq_some hmem)
    rw [entryInum, entryInum, he, if_neg (by grind)]

/-- Where the entry goes: to the first slot that is free, or to the end. -/
def linkSlot (v : Volume) (d : Dinode) : ℕ :=
  (locate v d (fun de => direntInum de == 0)).elim d.size.toNat (direntSize*·)

theorem linkSlot_le (v : Volume) (d : Dinode) : linkSlot v d ≤ d.size.toNat := by
  rw [linkSlot]
  cases hl : locate v d (fun de => direntInum de == 0) with
  | none => exact Nat.le_refl _
  | some e =>
    have he := List.mem_range.mp (List.mem_of_find?_eq_some hl)
    rw [Nat.lt_div_iff_mul_lt (by decide)] at he
    rw [Option.elim_some]
    unfold direntSize at *
    omega

theorem Scanned.linkSlot_eq {l : List Byte}
    (h : Scanned v d (fun de => direntInum de == 0) l a) : direntSize*a = linkSlot v d := by
  rw [linkSlot]
  rcases h.locate_eq with ⟨hl,-⟩ | ⟨hl,h1,h2,-⟩
  · rw [hl, Option.elim_some]
  · rw [hl, Option.elim_none, h1, h2]

/-- What a directory without the name becomes, and the blocks that it takes. -/
structure Inserted (loose : List Uint) (i : Ino) (name : Name) (inum : Uint) (s s' : State) :
    Prop where
  consistent : Consistent loose i s'
  type : (s'.inode i).din.type = T_DIR
  same : (s'.inode i).inum = (s.inode i).inum
  size : (s'.inode i).din.size.toNat = max (s.inode i).din.size.toNat
    (linkSlot s.vol (s.inode i).din+direntSize)
  aligned : (s'.inode i).din.size.toNat%direntSize = 0
  free : s'.vol.free+s.vol.missing (s.inode i).din (linkSlot s.vol (s.inode i).din)
    (linkSlot s.vol (s.inode i).din+direntSize) = s.vol.free
  child : ∀ m, child s'.vol (s.inode i).inum m = if namecmp m name then
    some ((inum.setWidth 16).setWidth 32) else Fs.child s.vol (s.inode i).inum m

theorem child_eq (h : Consistent loose i s) (hd : (s.inode i).din.type = T_DIR) (m : Name) :
    child s.vol (s.inode i).inum m =
      (locate s.vol (s.inode i).din (hits m)).map (entryInum s.vol (s.inode i).din) := by
  rw [child, show s.vol.dinode (s.inode i).inum.toNat = (s.inode i).din from h.din.symm, if_pos hd]

variable {name : Name} {inum : Uint}

theorem Sound.inserted {s' : State} (h : Consistent loose i s) (hd : (s.inode i).din.type = T_DIR)
    (hz : (s.inode i).din.size.toNat%direntSize = 0) (hi : inum.setWidth 16 ≠ 0)
    (hno : child s.vol (s.inode i).inum name = none)
    (ha : direntSize*a = linkSlot s.vol (s.inode i).din)
    (hmax : direntSize*a+direntSize ≤ MAXFILE*BSIZE)
    (hfree : direntSize*a < (s.inode i).din.size.toNat → direntInum (entry s.vol (s.inode i).din a) = 0)
    (h' : Sound loose ((viewOf s.vol).write (s.num i) (direntSize*a)
      (mkDirent (inum.setWidth 16) name)) i s') (hch : Changed i s s')
    (hsp : s'.vol.free+s.vol.missing (s.inode i).din (direntSize*a) (direntSize*a+direntSize) =
      s.vol.free) : Inserted loose i name inum s s' := by
  have hal := linkSlot_le s.vol (s.inode i).din
  rw [← ha] at hal
  have hn : s'.num i = s.num i := hch.num
  have hlen := length_mkDirent (inum.setWidth 16) name
  have hnode := h'.node
  have hsize := h'.size
  rw [hn] at hnode hsize
  rw [size_write _ _ (by rwa [hlen]), ← h.sound.size, hlen] at hsize
  have htype : (s'.inode i).din.type = T_DIR := by
    rw [← hd, h.din]
    exact (congrArg Dinode.type hnode).symm.trans
      (by simp [View.write, View.setNode, View.setByte, viewOf, bare])
  have hb : ∀ o, s'.vol.byte (s'.inode i).din o =
      overlay (s.vol.byte (s.inode i).din) (direntSize*a) (mkDirent (inum.setWidth 16) name) o := by
    intro o
    have ht := h'.type
    have hbyte := h'.backed.byte _ h'.lt (by rwa [← h'.din]) o
    rw [← h'.din, hn] at hbyte
    rw [← hbyte, h.din]
    simp [View.write, View.setByte, viewOf]
  rw [child_eq h hd, Option.map_eq_none_iff] at hno
  have hinum : (s'.inode i).inum = (s.inode i).inum := BitVec.eq_of_toNat_eq hn
  refine ⟨h'.consistent,htype,hinum,by rw [← ha]; exact hsize,?_,by rw [← ha]; exact hsp,fun m => ?_⟩
  · unfold direntSize at *
    omega
  rw [← hinum, child_eq h'.consistent htype, hinum, child_eq h hd]
  refine lookup_insert hi (entry_overlay hb hlen) ?_ ?_ (fun hlt => hfree ?_) hno m <;>
    unfold direntSize at * <;> omega

/-- For the lookups of all names `dirlink` is the insertion of a name that was not
there. It panics where the slot is at the largest size, or the blocks that the
slot lacks are not there. -/
theorem dirlink_inserts (h : Consistent loose i s) (hd : (s.inode i).din.type = T_DIR)
    (hz : (s.inode i).din.size.toNat%direntSize = 0) (hi : inum.setWidth 16 ≠ 0)
    (hno : child s.vol (s.inode i).inum name = none) : Ends (dirlink i name inum) (fun o =>
      if linkSlot s.vol (s.inode i).din = MAXFILE*BSIZE then o = some (.error (.panic "dirlink"))
      else if s.vol.free < s.vol.missing (s.inode i).din (linkSlot s.vol (s.inode i).din)
          (linkSlot s.vol (s.inode i).din+direntSize) then
        o = some (.error (.panic "balloc: out of blocks"))
      else ∃ s', o = some (.ok (0,s')) ∧ Inserted loose i name inum s s') s := by
  have hdev : (s.inode i).din.type ≠ T_DEV := by rw [hd]; decide
  have hf := h.sound.filled hdev
  have hw : Whole s.vol (s.inode i).din := ⟨hz,hf.small,fun o ho => hf.byteBlock ho⟩
  obtain ⟨l,a,hs⟩ := hw.scanned (fun de => direntInum de == 0)
  obtain ⟨l',a',hs'⟩ := hw.scanned (hits name)
  have ha := hs.linkSlot_eq
  have hal := linkSlot_le s.vol (s.inode i).din
  rw [← ha] at hal ⊢
  have hsmall := hf.small
  have hmax : MAXFILE*BSIZE = 70656 := by decide
  have hoff : (BitVec.ofNat 32 (direntSize*a)).toNat = direntSize*a := by
    rw [BitVec.toNat_ofNat]
    exact Nat.mod_eq_of_lt (by omega)
  have hlen := length_mkDirent (inum.setWidth 16) name
  -- the write is refused at the largest size only
  have hrefused : Refused ((viewOf s.vol).size (s.num i)) (direntSize*a) direntSize ↔
      direntSize*a = MAXFILE*BSIZE := by
    rw [Refused, ← h.sound.size, hmax]
    unfold direntSize at *
    omega
  have hno' := hno
  rw [child_eq h hd, Option.map_eq_none_iff] at hno'
  unfold dirlink dirlookup
  refine ends_after (returns_bind (returns_fetch ?_))
  rw [if_neg (not_not.mpr hd)]
  refine returns_bind (returns_scanAll hs' hdev _ ?_)
  rw [hno']
  refine returns_pure (ends_after (returns_scanAll hs hdev _ ?_))
  refine ends_bind (ends_writei h.sound hdev (by rw [hlen]; decide) _ (fun hr => ?_)
    (fun hr s' h' hch hsp => ?_) (fun hr hlack => ?_))
  · rw [hoff, hlen, hrefused] at hr
    show if _ then _ else _
    rw [if_pos hr]
  · rw [hoff, hlen] at hr
    rw [hoff] at h'
    rw [hoff, hlen] at hsp
    have hfree := hsp.free
    rw [hlen]
    show if _ then _ else _
    rw [if_neg (mt hrefused.mpr hr), if_neg (by omega)]
    rw [Refused] at hr
    refine ⟨s',rfl,h'.inserted h hd hz hi hno ha (by omega) (fun hlt => ?_) hch hfree⟩
    rcases hs.stop with ⟨h1,h2⟩ | ⟨h1,h2⟩
    · rw [← hs.stored.entry_eq h1]
      exact beq_iff_eq.mp h2
    · omega
  · rw [hoff, hlen] at hr hlack
    show if _ then _ else _
    rw [if_neg (mt hrefused.mpr hr), if_pos hlack]

/-- A new directory, with its block still to come. -/
def emptyDir : Dinode := {emptyFile with type := T_DIR}

/-- Two names in a new directory: the second goes behind the first. -/
theorem dirlink_inserts_second :
    Returns (do let _ ← dirlink firstSlot [97] 5; dirlink firstSlot [98] 6) (fun r s' => r = 0 ∧
      child s'.vol 1 [97] = some 5 ∧ child s'.vol 1 [98] = some 6) (scratch emptyDir) := by
  have hc := scratch_consistent (d := emptyDir) (by decide) rfl (fun _ => rfl)
  have hfree := scratch_free emptyDir
  have hchild : ∀ m, child (scratch emptyDir).vol 1 m = none := fun m => (child_eq hc rfl m).trans rfl
  have hslot : linkSlot (scratch emptyDir).vol ((scratch emptyDir).inode firstSlot).din = 0 := rfl
  have hsize : ((scratch emptyDir).inode firstSlot).din.size.toNat = 0 := rfl
  have hinum : ((scratch emptyDir).inode firstSlot).inum = 1 := rfl
  have htype : ((scratch emptyDir).inode firstSlot).din.type = T_DIR := rfl
  have hmiss := fun v d o => missing_le v d o (o+direntSize)
  generalize scratch emptyDir = s at *
  have hnew₁ : child s.vol (s.inode firstSlot).inum [97] = none := by rw [hinum, hchild]
  have h₁ := dirlink_inserts hc htype (by rw [hsize]; rfl) (show (5 : Uint).setWidth 16 ≠ 0 by decide)
    hnew₁
  have hm₁ := hmiss s.vol (s.inode firstSlot).din 0
  rw [hslot] at h₁
  apply ends_bind
  apply ends_mono h₁
  intro o ho
  rw [if_neg (by decide), if_neg (by unfold direntSize at *; omega)] at ho
  obtain ⟨s₁,rfl,h⟩ := ho
  have hn₁ := h.same.trans hinum
  have hfree₁ := h.free
  have hsize₁ := h.size
  have hle := linkSlot_le s₁.vol (s₁.inode firstSlot).din
  rw [hslot] at hfree₁ hsize₁
  have hchild₁ := h.child
  rw [hinum] at hchild₁
  have hnew₂ : child s₁.vol (s₁.inode firstSlot).inum [98] = none := by
    rw [hn₁, hchild₁, if_neg (by decide), hchild]
  have h₂ := dirlink_inserts h.consistent h.type h.aligned
    (show (6 : Uint).setWidth 16 ≠ 0 by decide) hnew₂
  have hm₂ := hmiss s₁.vol (s₁.inode firstSlot).din (linkSlot s₁.vol (s₁.inode firstSlot).din)
  have hmax : MAXFILE*BSIZE = 70656 := by decide
  apply ends_mono h₂
  intro o ho
  rw [if_neg (by unfold direntSize at *; omega), if_neg (by unfold direntSize at *; omega)] at ho
  obtain ⟨s₂,rfl,h'⟩ := ho
  have hchild₂ := h'.child
  rw [hn₁] at hchild₂
  refine ⟨0,s₂,rfl,rfl,?_,?_⟩
  · rw [hchild₂, if_neg (by decide), hchild₁, if_pos (by decide)]
    rfl
  · rw [hchild₂, if_pos (by decide)]
    rfl

end Yeet.Fs
