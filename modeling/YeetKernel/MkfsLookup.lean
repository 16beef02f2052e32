import YeetKernel.MkfsImage
import YeetKernel.FsResolve

/-!
# The kernel reads what mkfs wrote

The hole that the root directory may have comes after all entries, so no
lookup of a file gets to it.
-/

namespace Yeet.Mkfs
open Kernel Bytes FsDisk Fs Resumption Function

section Names

theorem cstr_nonzero (l : List Byte) : ∀ c ∈ cstr l, (c != 0) = true :=
  fun _ hc => List.mem_takeWhile_imp (p := fun c => c != 0) hc

theorem cstr_cstr (l : List Byte) : cstr (cstr l) = cstr l := by
  have h : cstr (cstr l) = (cstr l).takeWhile (fun c => c != 0) := by
    rw [cstr, List.take_of_length_le (length_cstr l)]
  rw [h]
  exact List.takeWhile_eq_self_iff.mpr (cstr_nonzero l)

theorem direntInum_mkDirent (i : Ushort) (name : Name) : direntInum (mkDirent i name) = i := by
  show i.extractLsb' 8 8++i.extractLsb' 0 8 = i
  apply BitVec.eq_of_getLsbD_eq
  intro k hk
  rw [BitVec.getLsbD_append]
  split
  · rename_i h
    rw [BitVec.getLsbD_extractLsb', Nat.zero_add, decide_eq_true h, Bool.true_and]
  · rw [BitVec.getLsbD_extractLsb', show 8+(k-8) = k by omega,
      decide_eq_true (show k-8 < 8 by omega), Bool.true_and]

theorem cstr_direntName (i : Ushort) (name : Name) :
    cstr (direntName (mkDirent i name)) = cstr name := by
  have hlen := length_mkDirent i name
  have hd : (mkDirent i name).drop 2 = cstr name++List.replicate (DIRSIZ-(cstr name).length) 0 := rfl
  have hl : ((mkDirent i name).drop 2).length = DIRSIZ := by
    rw [List.length_drop, hlen]
    rfl
  have h1 : direntName (mkDirent i name) = (mkDirent i name).drop 2 := by
    rw [direntName, List.take_of_length_le (Nat.le_of_eq hl)]
  rw [h1, cstr, List.take_of_length_le (Nat.le_of_eq hl), hd,
    List.takeWhile_append_of_pos (cstr_nonzero name), List.takeWhile_replicate]
  simp

end Names

section Entries

variable {a l : List Byte}

theorem entryOf_zero (ha : a.length = direntSize) : entryOf (a++l) 0 = a := by
  rw [entryOf, Nat.mul_zero, List.drop_zero, ← ha, List.take_left]

theorem entryOf_succ (ha : a.length = direntSize) (e : ℕ) : entryOf (a++l) (e+1) = entryOf l e := by
  rw [entryOf, entryOf, Nat.mul_succ, Nat.add_comm, ← List.drop_drop, ← ha, List.drop_left]

theorem entryOf_dirents {files : List Input} {i : ℕ} {f : Input} (h : files[i]? = some f) (n : ℕ) :
    entryOf (dirents n files) i = mkDirent (BitVec.ofNat 16 (n+i)) f.stored := by
  induction files generalizing n i with
  | nil => simp at h
  | cons g l ih =>
    cases i with
    | zero =>
      cases h
      exact entryOf_zero (length_mkDirent _ _)
    | succ i =>
      rw [dirents, entryOf_succ (length_mkDirent _ _), ih h]
      congr 2
      omega

theorem entryOf_root (files : List Input) :
    entryOf (rootData files) 0 = mkDirent 1 [46] ∧ entryOf (rootData files) 1 = mkDirent 1 [46,46] ∧
      ∀ i f, files[i]? = some f →
        entryOf (rootData files) (i+2) = mkDirent (BitVec.ofNat 16 (i+2)) f.stored := by
  have h1 := length_mkDirent 1 [46]
  have h2 := length_mkDirent 1 [46,46]
  rw [rootData, List.append_assoc]
  refine ⟨entryOf_zero h1,?_,fun i f hf => ?_⟩
  · rw [entryOf_succ h1, entryOf_zero h2]
  · rw [entryOf_succ h1, entryOf_succ h2, entryOf_dirents hf, Nat.add_comm]

end Entries

structure Named (files : List Input) : Prop where
  nonempty : ∀ f ∈ files, cstr f.stored ≠ []
  distinct : (files.map (fun f => cstr f.stored)).Nodup
  dot : ∀ f ∈ files, cstr f.stored ≠ [46]
  dotdot : ∀ f ∈ files, cstr f.stored ≠ [46,46]

theorem hits_mkDirent (name : Name) {i : Ushort} (hi : i ≠ 0) (other : Name) :
    hits name (mkDirent i other) = (cstr name == cstr other) := by
  rw [hits, direntInum_mkDirent, namecmp, cstr_direntName, bne_iff_ne.mpr hi, Bool.true_and]

variable {m : Image} {D : ℕ → Dinode} {V : View} {files : List Input} {i : ℕ} {f : Input}

theorem inum_ne_zero (hi : i+2 < NINODES) : BitVec.ofNat 16 (i+2) ≠ 0 := by
  intro h
  have := congrArg BitVec.toNat h
  simp only [BitVec.toNat_ofNat, NINODES] at *
  rw [Nat.mod_eq_of_lt (by omega)] at this
  simp at this

theorem lookup_hits (hn : Named files) (hk : files.length+1 < NINODES) (hf : files[i]? = some f) :
    hits (cstr f.stored) (entryOf (rootData files) (i+2)) = true ∧
      ∀ e < i+2, hits (cstr f.stored) (entryOf (rootData files) e) = false := by
  obtain ⟨h0,h1,h2⟩ := entryOf_root files
  have hmem := List.mem_of_getElem? hf
  have hilt := (List.getElem?_eq_some_iff.mp hf).1
  refine ⟨?_,fun e he => ?_⟩
  · rw [h2 i f hf, hits_mkDirent _ (inum_ne_zero (by omega)), cstr_cstr]
    exact beq_self_eq_true _
  rcases e with _ | _ | e
  · rw [h0, hits_mkDirent _ (by decide), cstr_cstr]
    exact beq_eq_false_iff_ne.mpr (hn.dot f hmem)
  · rw [h1, hits_mkDirent _ (by decide), cstr_cstr]
    exact beq_eq_false_iff_ne.mpr (hn.dotdot f hmem)
  have helt : e < files.length := by omega
  have hg : files[e]? = some (files.get ⟨e,helt⟩) := List.getElem?_eq_getElem helt
  rw [h2 e _ hg, hits_mkDirent _ (inum_ne_zero (by omega)), cstr_cstr]
  refine beq_eq_false_iff_ne.mpr (fun heq => ?_)
  have h3 : (files.map (fun f => cstr f.stored))[i]? = some (cstr f.stored) := by
    rw [List.getElem?_map, hf]
    rfl
  have h4 : (files.map (fun f => cstr f.stored))[e]? = some (cstr f.stored) := by
    rw [List.getElem?_map, hg, heq]
    rfl
  have := (List.getElem?_inj (by rwa [List.length_map]) hn.distinct).mp (h3.trans h4.symm)
  omega

section Image

variable {v : Volume} (hm : Made m D V) (hh : Holds V files) (hk : files.length+1 < NINODES)
  (hv : v = (m.setInode rootino (newRoot D files.length)).marked)

include hm hh hk hv

theorem stored_root : Stored v (v.dinode rootino) (rootData files) ∧
    (v.dinode rootino).type = T_DIR ∧ (v.dinode rootino).nlink ≠ 0 := by
  subst hv
  have ht : (D rootino).type = T_DIR := by rw [← hm.type root_lt, hh.dir]
  have ht0 : (D rootino).type ≠ 0 := by
    rw [ht]
    decide
  have hroot := hm.table_root files.length root_lt
  rw [update_self] at hroot
  have hlen := length_rootData files
  have hsmall := root_small (k := files.length) (by omega)
  refine ⟨⟨?_,by rw [hlen]; exact hsmall,fun o ho => ?_,fun o ho => ?_⟩,?_,?_⟩
  · rw [hroot, newRoot, hlen, toNat_rounded (by omega)]
    simp only [rounded, direntSize, BSIZE]
    omega
  · rw [hm.addr_root _ root_lt ht0]
    refine (hm.tight rootino root_lt ht0 (some (o/BSIZE))).mpr ?_
    have := Nat.div_mul_le_self o BSIZE
    have := hh.root.size
    simp only [Covers]
    omega
  · rw [hm.byte_root _ root_lt ht0]
    exact hh.root.byte o ho
  · rw [hm.type_root _ root_lt, ht]
  have hl := hh.linked
  rw [hm.base.backs.node rootino (by rw [hm.base.inodes]; exact root_lt)] at hl
  rw [hroot, show (newRoot D files.length).nlink = 1 from hl]
  decide

theorem stored_file (hf : files[i]? = some f) (hs : f.data.length ≤ MAXFILE*BSIZE) :
    Stored v (v.dinode (i+2)) f.data ∧ (v.dinode (i+2)).type = T_FILE ∧
      (v.dinode (i+2)).size = BitVec.ofNat 32 f.data.length := by
  subst hv
  have hilt := (List.getElem?_eq_some_iff.mp hf).1
  have hi : i+2 < NINODES := by omega
  have ht : (D (i+2)).type = T_FILE := by rw [← hm.type hi, hh.type i f hf]
  have ht0 : (D (i+2)).type ≠ 0 := by
    rw [ht]
    decide
  have hne : i+2 ≠ rootino := by
    show i+2 ≠ 1
    omega
  have htab := hm.table_root files.length hi
  rw [update_of_ne hne] at htab
  have hhas := hh.file i f hf
  have hsize : (D (i+2)).size.toNat = f.data.length := by
    rw [← hhas.size, View.size, hm.base.backs.node (i+2) (by rwa [hm.base.inodes])]
    rfl
  refine ⟨⟨?_,hs,fun o ho => ?_,fun o ho => ?_⟩,?_,?_⟩
  · rw [htab, hsize]
  · rw [hm.addr_root _ hi ht0]
    refine (hm.tight (i+2) hi ht0 (some (o/BSIZE))).mpr ?_
    have := Nat.div_mul_le_self o BSIZE
    have := hhas.size
    simp only [Covers]
    omega
  · rw [hm.byte_root _ hi ht0]
    exact hhas.byte o ho
  · rw [hm.type_root _ hi, ht]
  · rw [htab, ← hsize, BitVec.ofNat_toNat, BitVec.setWidth_eq]

end Image

variable {s : State} {v : Volume}

theorem lookup_scanned (hst : Stored v (v.dinode rootino) (rootData files)) (hn : Named files)
    (hk : files.length+1 < NINODES) (hf : files[i]? = some f) :
    Scanned v (v.dinode rootino) (hits (cstr f.stored)) (rootData files) (i+2) ∧
      direntSize*(i+2)+direntSize ≤ (rootData files).length := by
  have hilt := (List.getElem?_eq_some_iff.mp hf).1
  obtain ⟨hhit,hskip⟩ := lookup_hits hn hk hf
  have hlen : direntSize*(i+2)+direntSize ≤ (rootData files).length := by
    rw [length_rootData, ← Nat.mul_succ]
    exact Nat.mul_le_mul_left _ (by omega)
  exact ⟨⟨hst,hskip,Or.inl ⟨hlen,hhit⟩⟩,hlen⟩

theorem child_file (hst : Stored v (v.dinode rootino) (rootData files))
    (ht : (v.dinode rootino).type = T_DIR) (hn : Named files) (hk : files.length+1 < NINODES)
    (hf : files[i]? = some f) : child v ROOTINO (cstr f.stored) = some (BitVec.ofNat 32 (i+2)) := by
  obtain ⟨hr,hlen⟩ := lookup_scanned hst hn hk hf
  have hilt := (List.getElem?_eq_some_iff.mp hf).1
  have hloc : locate v (v.dinode rootino) (hits (cstr f.stored)) = some (i+2) := by
    rcases hr.locate_eq with ⟨h1,-⟩ | ⟨-,h1,-,-⟩
    · exact h1
    · rw [h1] at hlen
      exact absurd hlen (by simp [direntSize])
  have hnum : entryInum v (v.dinode rootino) (i+2) = BitVec.ofNat 32 (i+2) := by
    rw [entryInum, ← hst.entry_eq hlen, (entryOf_root files).2.2 i f hf, direntInum_mkDirent]
    apply BitVec.eq_of_toNat_eq
    simp only [NINODES] at hk
    rw [BitVec.toNat_setWidth, BitVec.toNat_ofNat, BitVec.toNat_ofNat, Nat.mod_eq_of_lt (by omega)]
    omega
  unfold child
  rw [show ROOTINO.toNat = rootino from rfl]
  simp only [if_pos ht, hloc, Option.map_some, hnum]

theorem namei_returns (p : Procno) (hs : Idle s v none 2)
    (hst : Stored v (v.dinode rootino) (rootData files)) (ht : (v.dinode rootino).type = T_DIR)
    (hl : (v.dinode rootino).nlink ≠ 0) (hn : Named files) (hk : files.length+1 < NINODES)
    (hf : files[i]? = some f) (hslash : f.name.any (fun c => c == slash) = false)
    {P : Option Ino → State → Prop}
    (hP : ∀ ip t, Idle t v none 0 → Slot t ip (BitVec.ofNat 32 (i+2)) → P (some ip) t) :
    Returns (namei p (slash::cstr f.stored)) P s := by
  have hmem := List.mem_of_getElem? hf
  have hsub : ∀ c ∈ cstr f.stored, c ≠ slash := by
    intro c hc
    have h1 : c ∈ f.stored := (List.take_sublist _ _).mem ((List.takeWhile_sublist _).mem hc)
    have h2 : c ∈ f.name := by
      unfold Input.stored at h1
      split at h1
      · exact absurd h1 List.not_mem_nil
      rename_i d l he
      rw [he]
      split at h1
      · exact List.mem_cons_of_mem _ h1
      · exact h1
    simpa using List.any_eq_false.mp hslash c h2
  have hcomp : components (slash::cstr f.stored) = [cstr f.stored] := by
    rw [components_slash, components_single (hn.nonempty f hmem) hsub,
      List.take_of_length_le (length_cstr _)]
  have hchild := child_file hst ht hn hk hf
  have hidle : Idle s v none 0 := ⟨hs.vol,hs.nonneg,hs.busy,hs.same,hs.locked,Nat.zero_le _⟩
  have hroot : Alive s v ROOTINO := ⟨by change (v.dinode rootino).type ≠ 0; rw [ht]; decide,Or.inl hl⟩
  obtain ⟨a,ha,b,hb,hab⟩ := Finset.one_lt_card.mp hs.spare
  have ha := (Finset.mem_filter.mp ha).2
  have hb := (Finset.mem_filter.mp hb).2
  have hroom : Room s v ROOTINO [cstr f.stored] := room_of_spare hab ha hb _ _
  have hclear : Clear s v ROOTINO [cstr f.stored] :=
    ⟨hroot,fun _ => ⟨_,_,(lookup_scanned hst hn hk hf).1⟩,fun _ _ => trivial⟩
  unfold namei
  refine returns_bind ((namex_root_iff hidle rfl hroot (by rwa [hcomp])
    (fun r t hr => ?_)).mpr (by rwa [hcomp]))
  have hr := hr.fst
  rw [hcomp, resolve, List.foldlM_cons, hchild] at hr
  cases r with
  | none => cases hr.result
  | some x =>
    have hpos := hs.nonneg x.1
    refine returns_pure (hP x.1 t hr.idle ⟨?_,Option.some.inj hr.result⟩)
    rw [hr.refs]
    simp only [Option.map_some, Option.elim_some, update_self]
    omega

theorem image_reads (h : Fits files) (hn : Named files) {img m : Image} {D : ℕ → Dinode}
    {V : View} (hm : Made m D V) (hh : Holds V files)
    (hv : mounted img.disk = (m.setInode rootino (newRoot D files.length)).marked) (p : Procno)
    {s : State} (hs : Idle s (mounted img.disk) none 2) {i : ℕ} {f : Input}
    (hf : files[i]? = some f) :
    Returns (namei p (slash::cstr f.stored)) (fun r s1 => ∃ ip, r = some ip ∧
      Returns (ilock ip) (fun _ s2 => (s2.inode ip).din.type = T_FILE ∧
        Returns (readi ip 0 (s2.inode ip).din.size)
          (fun r _ => r = ((f.data.length : ℤ),f.data)) s2) s1) s := by
  have hmem := List.mem_of_getElem? hf
  obtain ⟨hst,ht,hl⟩ := stored_root hm hh h.inodes hv
  obtain ⟨hstf,htf,hsf⟩ := stored_file hm hh h.inodes hv hf (h.sizes f hmem)
  have hilt := (List.getElem?_eq_some_iff.mp hf).1
  have hnum : (BitVec.ofNat 32 (i+2)).toNat = i+2 := by
    have := h.inodes
    simp only [NINODES] at this
    exact Nat.mod_eq_of_lt (by omega)
  refine namei_returns p hs hst ht hl hn h.inodes hf (h.names f hmem) (fun ip s1 h1 hslot => ?_)
  refine ⟨ip,rfl,h1.ilock hslot ?_ (fun s2 h2 hd _ _ => ?_)⟩
  · rw [hnum, htf]
    decide
  rw [hnum] at hd
  rw [hd, htf, hsf]
  refine ⟨rfl,returns_readi (l := f.data) ?_ ?_ 0 ?_ ?_⟩
  · rw [hd, h2.vol]
    exact hstf
  · rw [hd, htf]
    decide
  · rw [Nat.zero_add]
  · rw [List.drop_zero, List.take_length]

theorem boot_idle (d : Disk) : Idle (boot d) (mounted d) none 2 := by
  have href : ∀ i, 0 ≤ (boot d).iref i := by
    intro i
    by_cases he : i = ⟨0,by decide⟩
    · subst he
      simp [boot]
    · simp [boot, update_of_ne he]
  have hslot : ∀ i, ((boot d).inode i).busy = false ∧ ((boot d).inode i).valid = false := by
    intro i
    by_cases he : i = ⟨0,by decide⟩
    · subst he
      simp [boot]
    · simp [boot, update_of_ne he, Inode.free]
  refine ⟨rfl,href,fun i _ _ => (hslot i).1,fun i _ hv => ?_,(fun i hi => by cases hi),?_⟩
  · rw [(hslot i).2] at hv
    exact absurd hv (by decide)
  have hfree : ∀ i : Ino, i ≠ ⟨0,by decide⟩ → (boot d).iref i = 0 := by
    intro i he
    simp only [boot, update_of_ne he]
  have hsub : ({⟨1,by decide⟩,⟨2,by decide⟩} : Finset Ino) ⊆
      Finset.univ.filter (fun i => (boot d).iref i = 0) := by
    intro i hi
    rw [Finset.mem_insert, Finset.mem_singleton] at hi
    rw [Finset.mem_filter]
    refine ⟨Finset.mem_univ _,hfree i ?_⟩
    rcases hi with rfl | rfl <;> decide
  exact Finset.card_le_card hsub

/-- What `mkfs` writes the kernel reads: on the image, in the state after booting or
any other in which nobody works on the inodes, the name of each file leads to an
inode of type `T_FILE` whose bytes are those of the file. -/
theorem kernel_reads_image (files : List Input) (h : Fits files) (hn : Named files) :
    ∃ img, mkfs files = .ok img ∧ Idle (boot img.disk) (mounted img.disk) none 2 ∧
      ∀ s, Idle s (mounted img.disk) none 2 → ∀ (p : Procno), ∀ f ∈ files,
        Returns (namei p (slash::cstr f.stored)) (fun r s1 => ∃ ip, r = some ip ∧
          Returns (ilock ip) (fun _ s2 => (s2.inode ip).din.type = T_FILE ∧
            Returns (readi ip 0 (s2.inode ip).din.size)
              (fun r _ => r = ((f.data.length : ℤ),f.data)) s2) s1) s := by
  obtain ⟨img,m,D,V,hok,hm,hh,hv⟩ := mkfs_makes h
  refine ⟨img,hok,boot_idle _,fun s hs p f hf => ?_⟩
  obtain ⟨i,hi⟩ := List.mem_iff_getElem?.mp hf
  exact image_reads h hn hm hh hv p hs hi

theorem kernel_reads_one : ∃ img, mkfs [⟨[95,97],[1,2,3]⟩] = .ok img ∧
    Idle (boot img.disk) (mounted img.disk) none 2 ∧
      ∀ s, Idle s (mounted img.disk) none 2 → ∀ (p : Procno), ∀ f ∈ [Input.mk [95,97] [1,2,3]],
        Returns (namei p (slash::cstr f.stored)) (fun r s1 => ∃ ip, r = some ip ∧
          Returns (ilock ip) (fun _ s2 => (s2.inode ip).din.type = T_FILE ∧
            Returns (readi ip 0 (s2.inode ip).din.size)
              (fun r _ => r = ((f.data.length : ℤ),f.data)) s2) s1) s :=
  kernel_reads_image [⟨[95,97],[1,2,3]⟩] ⟨by decide,by decide,by decide,by decide⟩
    ⟨by decide,by decide,by decide,by decide⟩

end Yeet.Mkfs
