import Mathlib.Data.List.GetD
import YeetKernel.FsView
import YeetKernel.Outcome

/-!
# Reading, left alone

When no other process runs, the routines that only read return what is stored in
the blocks of an inode. Only the part of a file that is read has to be there:
what comes after it may be a hole.
-/

namespace Yeet.Fs
open Kernel Bytes FsDisk Resumption Function

structure Stored (v : Volume) (d : Dinode) (l : List Byte) : Prop where
  size : l.length ≤ d.size.toNat
  small : l.length ≤ MAXFILE*BSIZE
  block : ∀ o < l.length, v.addr d (o/BSIZE) ≠ 0
  byte : ∀ o < l.length, v.byte d o = l.getD o 0

variable {s : State} {v : Volume} {d : Dinode} {l : List Byte} {i : Ino} {o m : ℕ}

theorem returns_perform {α : Type} {f : State → Except Fault (α × State)} {P : α → State → Prop}
    {a : α} {r : State} (hf : f s = .ok (a,r)) (h : P a r) : Returns (perform f) P s :=
  returns_atom (congrArg some hf) h

theorem returns_perform_iff {α : Type} {f : State → Except Fault (α × State)}
    {P : α → State → Prop} : Returns (perform f) P s ↔ ∃ a r, f s = .ok (a,r) ∧ P a r := by
  refine ⟨fun h => ?_,fun ⟨a,r,hf,h⟩ => returns_perform hf h⟩
  simp only [Returns, perform, atom, Ends] at h
  split at h
  · rename_i hf
    cases hf
  · obtain ⟨_,_,e,_⟩ := h
    cases e
  rename_i b r hf
  obtain ⟨a,r',e,ha⟩ := h
  cases e
  exact ⟨b,r,Option.some.inj hf,ha⟩

theorem returns_bmap {k : ℕ} (hk : k < MAXFILE) (ha : s.vol.addr (s.inode i).din k ≠ 0)
    {P : Uint → State → Prop} (hP : P (s.vol.addr (s.inode i).din k) s) :
    Returns (bmap i k) P s := by
  unfold Volume.addr at ha hP
  unfold bmap
  split
  · rename_i hd
    rw [dif_pos hd] at ha hP
    exact returns_perform (if_neg ha) hP
  rename_i hd
  rw [dif_neg hd] at ha hP
  have hi : (s.inode i).din.addrs (Fin.last NDIRECT) ≠ 0 := fun h0 => ha (if_pos h0)
  have hi' : (s.inode i).din.indirect ≠ 0 := hi
  rw [if_neg hi', Dinode.indirect] at ha hP
  rw [if_pos (by simp only [MAXFILE] at hk; omega)]
  exact returns_bind (returns_perform (if_neg hi) (returns_perform (if_neg ha) hP))

theorem slice_eq (h : o+m ≤ l.length) :
    (l.drop o).take m = (List.range m).map (fun j => l.getD (o+j) 0) := by
  apply List.ext_getElem
  · rw [List.length_take, List.length_drop, List.length_map, List.length_range]
    omega
  intro j h1 h2
  rw [List.length_map, List.length_range] at h2
  rw [List.getElem_take, List.getElem_drop, List.getElem_map, List.getElem_range,
    List.getD_eq_getElem _ _ (by omega)]

theorem Stored.getBytes (h : Stored v d l) (hm : o%BSIZE+m ≤ BSIZE)
    (hl : o+m ≤ l.length) (h0 : 0 < m) :
    getBytes (v.disk (v.addr d (o/BSIZE)).toNat) (o%BSIZE) m = (l.drop o).take m := by
  have ha := h.block o (by omega)
  rw [slice_eq hl]
  refine List.map_congr_left (fun j hj => ?_)
  have hj := List.mem_range.mp hj
  obtain ⟨hdiv,hmod⟩ := offset_in_block (o := o) (i := j) (by omega)
  rw [← h.byte (o+j) (by omega), Volume.byte, hdiv, if_neg ha, hmod]

section Read

variable (h : Stored s.vol (s.inode i).din l)

include h

theorem returns_readBlocks (fuel : ℕ) : ∀ (off n : ℕ) (acc : List Byte), off+n ≤ l.length →
    n ≤ fuel → Returns (readBlocks i fuel off n acc)
      (fun r s' => r = acc++(l.drop off).take n ∧ s' = s) s := by
  induction fuel with
  | zero =>
    intro off n acc hn hf
    obtain rfl : n = 0 := by omega
    exact returns_pure ⟨by simp,rfl⟩
  | succ fuel ih =>
    intro off n acc hn hf
    unfold readBlocks
    split
    · rename_i h0
      subst h0
      exact returns_pure ⟨by simp,rfl⟩
    rename_i h0
    have hmod := Nat.mod_lt off (show 0 < BSIZE by decide)
    have hsmall := h.small
    have hb : off/BSIZE < MAXFILE := (Nat.div_lt_iff_lt_mul (by decide)).mpr (by omega)
    refine returns_bind (returns_bmap hb (h.block off (by omega)) ?_)
    refine returns_bind (returns_fetch ?_)
    rw [h.getBytes (by omega) (by omega) (by omega)]
    refine returns_mono (ih _ _ _ (by omega) (by omega)) (fun r s' hr => ⟨?_,hr.2⟩)
    rw [hr.1, List.append_assoc, ← List.drop_drop]
    congr 1
    rw [← List.take_add]
    congr 1
    omega

theorem returns_readi (hd : (s.inode i).din.type ≠ T_DEV) (off : ℕ) {n : ℕ}
    (hn : off+n ≤ l.length) {P : ℤ × List Byte → State → Prop} (hP : P ((n : ℤ),(l.drop off).take n) s) :
    Returns (readi i (BitVec.ofNat 32 off) (BitVec.ofNat 32 n)) P s := by
  have hbig : MAXFILE*BSIZE < 2^31 := by decide
  have h1 := h.small
  have h2 := h.size
  have ho : (BitVec.ofNat 32 off).toNat = off := Nat.mod_eq_of_lt (by omega)
  have hN : (BitVec.ofNat 32 n).toNat = n := Nat.mod_eq_of_lt (by omega)
  have hsum : (BitVec.ofNat 32 off+BitVec.ofNat 32 n).toNat = off+n := by
    rw [BitVec.toNat_add, ho, hN]
    exact Nat.mod_eq_of_lt (by omega)
  have hc : ¬ ((s.inode i).din.size < BitVec.ofNat 32 off ∨
      BitVec.ofNat 32 off+BitVec.ofNat 32 n < BitVec.ofNat 32 off) := by
    rw [BitVec.lt_def, BitVec.lt_def, ho, hsum]
    omega
  have hle : ¬ (s.inode i).din.size < BitVec.ofNat 32 off+BitVec.ofNat 32 n := by
    rw [BitVec.lt_def, hsum]
    omega
  have hi : (BitVec.ofNat 32 n).toInt = (n : ℤ) := by
    rw [BitVec.toInt_eq_toNat_of_lt (by omega), hN]
  unfold readi
  refine returns_bind (returns_fetch ?_)
  simp only [if_neg hd, if_neg hc, if_neg hle]
  refine returns_bind (returns_mono (returns_readBlocks h _ _ _ _ (by rw [ho, hN]; exact hn)
    (Nat.le_refl _)) (fun r s' hr => returns_pure ?_))
  rw [hr.1, hr.2, hi, ho, hN, List.nil_append]
  exact hP

end Read

section Scan

def entryOf (l : List Byte) (e : ℕ) : List Byte := (l.drop (direntSize*e)).take direntSize

def entry (v : Volume) (d : Dinode) (e : ℕ) : List Byte :=
  (List.range direntSize).map (fun j => v.byte d (direntSize*e+j))

def locate (v : Volume) (d : Dinode) (test : List Byte → Bool) : Option ℕ :=
  (List.range (d.size.toNat/direntSize)).find? (fun e => test (entry v d e))

/-- The search reads these bytes and stops at entry `a`: there is what it looks for,
or the file ends. -/
structure Scanned (v : Volume) (d : Dinode) (test : List Byte → Bool) (l : List Byte) (a : ℕ) :
    Prop where
  stored : Stored v d l
  skip : ∀ e < a, test (entryOf l e) = false
  stop : direntSize*a+direntSize ≤ l.length ∧ test (entryOf l a) = true ∨
    direntSize*a = l.length ∧ d.size.toNat = l.length

variable {test : List Byte → Bool} {a : ℕ}

theorem Stored.entry_eq (h : Stored v d l) {e : ℕ} (he : direntSize*e+direntSize ≤ l.length) :
    entryOf l e = entry v d e := by
  rw [entryOf, slice_eq he]
  refine List.map_congr_left (fun j hj => ?_)
  have := List.mem_range.mp hj
  exact (h.byte _ (by omega)).symm

namespace Scanned

theorem within (h : Scanned v d test l a) : direntSize*a ≤ l.length := by
  rcases h.stop with hs | hs <;> omega

theorem skip_entry (h : Scanned v d test l a) {e : ℕ} (he : e < a) : test (entry v d e) = false := by
  have h1 := h.within
  have h2 : direntSize*e+direntSize ≤ direntSize*a := Nat.mul_le_mul_left direntSize he
  rw [← h.stored.entry_eq (by omega)]
  exact h.skip e he

theorem locate_eq (h : Scanned v d test l a) :
    locate v d test = some a ∧ direntSize*a+direntSize ≤ l.length ∨
      locate v d test = none ∧ direntSize*a = l.length ∧ d.size.toNat = l.length ∧
        d.size.toNat/direntSize = a := by
  have hsize := h.stored.size
  have hpos : 0 < direntSize := by decide
  rcases h.stop with ⟨h1,h2⟩ | ⟨h1,h2⟩
  · refine Or.inl ⟨List.find?_range_eq_some.mpr ⟨?_,?_,fun e he => ?_⟩,h1⟩
    · rwa [← h.stored.entry_eq h1]
    · rw [List.mem_range, Nat.lt_iff_add_one_le, Nat.le_div_iff_mul_le hpos, Nat.succ_mul,
        Nat.mul_comm]
      omega
    · rw [h.skip_entry he]
      rfl
  · have hdiv : d.size.toNat/direntSize = a := by rw [h2, ← h1, Nat.mul_div_cancel_left _ hpos]
    refine Or.inr ⟨List.find?_range_eq_none.mpr (fun e he => ?_),h1,h2,hdiv⟩
    rw [h.skip_entry (by omega)]
    rfl

end Scanned

variable (h : Scanned s.vol (s.inode i).din test l a) (hd : (s.inode i).din.type ≠ T_DEV)
variable {P : ℕ × Option (List Byte) → State → Prop}

include h hd

theorem returns_scan (msg : String)
    (hP : P (direntSize*a,(locate s.vol (s.inode i).din test).map (entry s.vol (s.inode i).din)) s)
    (fuel : ℕ) : ∀ e ≤ a, a < e+fuel → Returns (scan i msg test fuel (direntSize*e)) P s := by
  have hsize := h.stored.size
  have hpos : 0 < direntSize := by decide
  induction fuel with
  | zero =>
    intro e he hf
    omega
  | succ fuel ih =>
    intro e he hf
    unfold scan
    refine returns_bind (returns_fetch ?_)
    rcases Nat.lt_or_eq_of_le he with hlt | rfl
    · have hle : direntSize*e+direntSize ≤ direntSize*a := Nat.mul_le_mul_left direntSize hlt
      have hin := h.within
      rw [if_pos (by omega)]
      refine returns_bind (returns_readi h.stored hd _ (n := direntSize) (by omega) ?_)
      have ht : test ((l.drop (direntSize*e)).take direntSize) = false := h.skip e hlt
      simp only [ne_eq, not_true_eq_false, if_false, ht, Bool.false_eq_true]
      exact ih (e+1) hlt (by omega)
    rcases h.locate_eq with ⟨hl,hin⟩ | ⟨hl,h1,h2,-⟩
    · rw [if_pos (by omega)]
      refine returns_bind (returns_readi h.stored hd _ hin ?_)
      have he := h.stored.entry_eq hin
      have ht := (List.find?_range_eq_some.mp hl).1
      rw [hl, Option.map_some] at hP
      rw [entryOf] at he
      simp only [ne_eq, not_true_eq_false, if_false, he, ht, if_true]
      exact returns_pure hP
    · rw [if_neg (by omega)]
      rw [hl] at hP
      exact returns_pure hP

theorem returns_scanAll (msg : String)
    (hP : P (direntSize*a,(locate s.vol (s.inode i).din test).map (entry s.vol (s.inode i).din)) s) :
    Returns (scanAll i msg test 0) P s := by
  unfold scanAll
  refine returns_bind (returns_fetch (returns_scan h hd msg hP _ 0 (Nat.zero_le _) ?_))
  have h1 := h.within
  have h2 := h.stored.size
  have : a ≤ (s.inode i).din.size.toNat/direntSize := by
    rw [Nat.le_div_iff_mul_le (by decide), Nat.mul_comm]
    omega
  omega

end Scan

/-- Nobody works on the inodes of the volume, but one may be locked. What is in the
cache is as on disk, and so many slots are free. -/
structure Idle (s : State) (v : Volume) (held : Option Ino) (k : ℕ) : Prop where
  vol : s.vol = v
  nonneg : ∀ i, 0 ≤ s.iref i
  busy : ∀ i, 0 < s.iref i → held ≠ some i → (s.inode i).busy = false
  same : ∀ i, 0 < s.iref i → (s.inode i).valid = true →
    (s.inode i).din = v.dinode (s.inode i).inum.toNat
  locked : ∀ i, held = some i → 0 < s.iref i ∧ (s.inode i).busy = true
  spare : k ≤ (Finset.univ.filter (fun i => s.iref i = 0)).card

structure Slot (s : State) (i : Ino) (n : Uint) : Prop where
  ref : 0 < s.iref i
  inum : (s.inode i).inum = n

variable {t : State} {held : Option Ino} {n : Uint} {P : Unit → State → Prop}

theorem Idle.change {held' : Option Ino} (h : Idle s v held 0) (hv : t.vol = v)
    (hne : ∀ j, j ≠ i → t.inode j = s.inode j ∧ t.iref j = s.iref j ∧ (held' = some j ↔ held = some j))
    (h0 : 0 ≤ t.iref i) (hb : held' ≠ some i → (t.inode i).busy = false)
    (hs : (t.inode i).valid = true → (t.inode i).din = v.dinode (t.inode i).inum.toNat)
    (hl : held' = some i → 0 < t.iref i ∧ (t.inode i).busy = true) : Idle t v held' 0 := by
  refine ⟨hv,fun j => ?_,fun j hj hh => ?_,fun j hj hval => ?_,fun j hj => ?_,Nat.zero_le _⟩ <;>
    by_cases he : j = i
  · exact he ▸ h0
  · rw [(hne j he).2.1]
    exact h.nonneg j
  · subst he
    exact hb hh
  · obtain ⟨h1,h2,h3⟩ := hne j he
    rw [h1]
    exact h.busy j (h2 ▸ hj) (fun e => hh (h3.mpr e))
  · subst he
    exact hs hval
  · obtain ⟨h1,h2,h3⟩ := hne j he
    rw [h1] at hval ⊢
    exact h.same j (h2 ▸ hj) hval
  · subst he
    exact hl hj
  · obtain ⟨h1,h2,h3⟩ := hne j he
    rw [h1, h2]
    exact h.locked j (h3.mp hj)

theorem Idle.ilock (h : Idle s v none 0) (hs : Slot s i n) (ht : (v.dinode n.toNat).type ≠ 0)
    (hP : ∀ t, Idle t v (some i) 0 → (t.inode i).din = v.dinode n.toNat → t.iref = s.iref →
      (∀ j, (t.inode j).dev = (s.inode j).dev ∧ (t.inode j).inum = (s.inode j).inum) → P () t) :
    Returns (ilock i) P s := by
  have hb := h.busy i hs.ref (by simp)
  have hr := hs.ref
  unfold Fs.ilock
  refine returns_bind (returns_atom (a := ()) (r := s.setInode i {s.inode i with busy := true}) ?_ ?_)
  · unfold State.acquire
    rw [if_neg (by omega), hb]
    simp
  have hin : (s.setInode i {s.inode i with busy := true}).inode i =
      {s.inode i with busy := true} := by simp only [State.setInode, update_self]
  -- the state with some contents in the locked slot
  have key : ∀ x : Inode, x.dev = (s.inode i).dev → x.inum = n → x.busy = true →
      x.din = v.dinode n.toNat → P () (s.setInode i x) := by
    intro x h1 h2 h3 h4
    have hx : (s.setInode i x).inode i = x := by simp only [State.setInode, update_self]
    have hother : ∀ j, j ≠ i → (s.setInode i x).inode j = s.inode j := by
      intro j he
      simp only [State.setInode, update_of_ne he]
    refine hP _ (h.change (i := i) h.vol (fun j he => ⟨hother j he,rfl,?_⟩) (h.nonneg i)
      (fun hn => absurd rfl hn) (fun _ => ?_) (fun _ => ⟨hr,?_⟩)) ?_ rfl (fun j => ?_)
    · simp only [Option.some.injEq, reduceCtorEq, iff_false]
      exact fun e => he e.symm
    · rw [hx, h4, h2]
    · rw [hx, h3]
    · rw [hx, h4]
    by_cases he : j = i
    · subst he
      rw [hx, h1, h2, hs.inum]
      exact ⟨rfl,rfl⟩
    · rw [hother j he]
      exact ⟨rfl,rfl⟩
  cases hv : (s.inode i).valid with
  | true =>
    refine returns_perform (a := ()) (r := s.setInode i {s.inode i with busy := true}) ?_ ?_
    · unfold State.load
      rw [hin]
      simp [hv]
    · have hd := h.same i hr hv
      rw [hs.inum] at hd
      exact key {s.inode i with busy := true} rfl hs.inum rfl hd
  | false =>
    refine returns_perform (a := ()) (r := s.setInode i
      {s.inode i with busy := true, valid := true, din := v.dinode n.toNat}) ?_ ?_
    · have hvol : (s.setInode i {s.inode i with busy := true}).vol = v := h.vol
      unfold State.load
      rw [hin, hvol]
      simp only [hv, Bool.false_eq_true, if_false, hs.inum, if_neg ht]
      simp only [State.setInode, update_idem]
    · exact key {s.inode i with busy := true, valid := true, din := v.dinode n.toNat} rfl hs.inum
        rfl rfl

theorem returns_iunlock (hb : (s.inode i).busy = true) (hr : 0 < s.iref i)
    (hP : P () (s.setInode i {s.inode i with busy := false})) : Returns (iunlock i) P s := by
  refine returns_perform (a := ()) ?_ hP
  unfold State.unlock
  rw [if_neg]
  simp only [hb, Bool.not_true, Bool.false_or, decide_eq_true_eq]
  omega

theorem returns_iput (hl : (s.inode i).valid = true → (s.inode i).din.nlink ≠ 0 ∨ 1 < s.iref i)
    (hP : P () (s.setRef i (s.iref i-1))) : Returns (iput i) P s := by
  refine returns_bind (returns_perform (a := false) (if_neg ?_) (returns_pure hP))
  rintro ⟨h1,h2,h3⟩
  rcases hl h2 with hl | hl
  · exact hl h3
  · omega

theorem Idle.iunlock (h : Idle s v (some i) 0)
    (hP : Idle (s.setInode i {s.inode i with busy := false}) v none 0 →
      P () (s.setInode i {s.inode i with busy := false})) : Returns (iunlock i) P s := by
  obtain ⟨hr,hb⟩ := h.locked i rfl
  refine returns_iunlock hb hr (hP (h.change (i := i) h.vol (fun j he => ⟨?_,rfl,?_⟩)
    (h.nonneg i) (fun _ => ?_) (fun hv => ?_) (fun e => nomatch e)))
  · simp only [State.setInode, update_of_ne he]
  · simp only [reduceCtorEq, Option.some.injEq, false_iff]
    exact fun e => he e.symm
  · simp only [State.setInode, update_self]
  · simp only [State.setInode, update_self] at hv ⊢
    exact h.same i hr hv

theorem Idle.iput (h : Idle s v none 0) (hs : Slot s i n)
    (hl : (v.dinode n.toNat).nlink ≠ 0 ∨ 1 < s.iref i)
    (hP : Idle (s.setRef i (s.iref i-1)) v none 0 → P () (s.setRef i (s.iref i-1))) :
    Returns (iput i) P s := by
  have hr := hs.ref
  have hsame := h.same i hr
  refine returns_iput (fun hv => by rwa [hsame hv, hs.inum]) (hP (h.change (i := i) h.vol
    (fun j he => ⟨rfl,?_,Iff.rfl⟩) ?_ (fun _ => h.busy i hr (by simp)) hsame (fun e => nomatch e)))
  · simp only [State.setRef, update_of_ne he]
  · simp only [State.setRef, update_self]
    omega

end Yeet.Fs
