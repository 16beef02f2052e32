import Mathlib.Data.List.GetD
import YeetKernel.MkfsInode

/-!
# The image that mkfs makes

The image has the root directory with an entry for each file and the files with
their bytes, as long as these fit: `mkfs` then takes exactly the blocks they need.
-/

namespace Yeet.Mkfs
open Kernel Bytes FsDisk Fs Function

variable {m : Image} {D : ℕ → Dinode} {V : View} {n k : ℕ} {l : List Byte}

structure Has (V : View) (n : ℕ) (l : List Byte) : Prop where
  size : V.size n = l.length
  byte : ∀ o < l.length, V.byte n o = l.getD o 0

theorem write_append (V : View) (n : ℕ) {a b : List Byte} (ha : 0 < a.length) (hb : 0 < b.length)
    (hz : V.size n+a.length < 2^32) :
    (V.write n (V.size n) a).write n ((V.write n (V.size n) a).size n) b =
      V.write n (V.size n) (a++b) := by
  have hs : (V.write n (V.size n) a).size n = V.size n+a.length := by
    rw [size_append ha (Nat.mod_eq_of_lt hz), update_self]
  rw [← write_raise (V := V.write n (V.size n) a) (by omega), hs,
    ← write_raise (V := V) (l := a++b) (by rw [List.length_append]; omega)]
  have hlen : V.size n+(a++b).length = V.size n+a.length+b.length := by
    rw [List.length_append]
    omega
  rw [hlen, ← overlay_append]
  simp only [View.write, View.setByte, View.setNode, update_self, update_idem]

theorem write_nil (V : View) (n : ℕ) : V.write n (V.size n) [] = V := by
  rw [← write_inside (Nat.le_refl _), overlay_nil, setByte_self]

theorem Has.append {l d : List Byte} (h : Has V n l) (hz : l.length+d.length < 2^32) :
    Has (V.write n (V.size n) d) n (l++d) := by
  by_cases hd : d = []
  · subst hd
    rwa [write_nil, List.append_nil]
  have hd : 0 < d.length := List.length_pos_iff.mpr hd
  refine ⟨?_,fun o ho => ?_⟩
  · rw [size_append hd, update_self, h.size, List.length_append]
    rw [h.size, BitVec.toNat_ofNat]
    exact Nat.mod_eq_of_lt hz
  rw [List.length_append] at ho
  simp only [View.write, View.setByte, update_self, overlay, h.size]
  by_cases hlt : o < l.length
  · rw [if_neg (by omega), h.byte o hlt, List.getD_append _ _ _ _ hlt]
  · rw [if_pos (by omega), List.getD_append_right _ _ _ _ (by omega)]

theorem Has.other (h : Has V n l) {j o : ℕ} (hj : n ≠ j) (d : List Byte) :
    Has (V.write j o d) n l := by
  refine ⟨?_,fun i hi => ?_⟩
  · rw [← h.size]
    simp only [View.size, View.write, View.setByte, View.setNode, update_of_ne hj]
  · rw [← h.byte i hi]
    simp only [View.write, View.setByte, update_of_ne hj]
    rfl

theorem Has.created (h : Has V n l) {j : ℕ} (hj : n ≠ j) (type : Ushort) :
    Has (created V j type) n l := by
  refine ⟨?_,fun i hi => ?_⟩
  · rw [← h.size]
    simp only [View.size, Mkfs.created, View.claim, View.setByte, View.setNode, update_of_ne hj]
  · rw [← h.byte i hi]
    simp only [Mkfs.created, View.claim, View.setByte, View.setNode, update_of_ne hj]

theorem has_created (V : View) (n : ℕ) (type : Ushort) : Has (created V n type) n [] := by
  refine ⟨?_,fun o ho => absurd ho (Nat.not_lt_zero _)⟩
  simp only [View.size, created, View.setNode, update_self]
  rfl

theorem attr_write {α : Type} (g : Dinode → α) (hg : ∀ d z, g {d with size := z} = g d) (V : View)
    (j o : ℕ) (l : List Byte) : g ((V.write j o l).node n) = g (V.node n) := by
  by_cases he : n = j
  · subst he
    simp only [View.write, View.setByte, View.setNode, update_self]
    exact hg _ _
  · simp only [View.write, View.setByte, View.setNode, update_of_ne he]

theorem type_write (V : View) (j o : ℕ) (l : List Byte) :
    ((V.write j o l).node n).type = (V.node n).type :=
  attr_write Dinode.type (fun _ _ => rfl) V j o l

theorem nlink_write (V : View) (j o : ℕ) (l : List Byte) :
    ((V.write j o l).node n).nlink = (V.node n).nlink :=
  attr_write Dinode.nlink (fun _ _ => rfl) V j o l

theorem node_created (V : View) (j : ℕ) (type : Ushort) :
    (created V j type).node n = if n = j then newInode type else V.node n := by
  by_cases he : n = j
  · subst he
    rw [if_pos rfl]
    simp only [created, View.setNode, update_self]
    rfl
  · rw [if_neg he]
    simp only [created, View.claim, View.setByte, View.setNode, update_of_ne he]

theorem type_created (V : View) (j : ℕ) (type : Ushort) :
    ((created V j type).node n).type = if n = j then type else (V.node n).type := by
  rw [node_created]
  split <;> rfl

theorem copyLoop_spec (hn : n < NINODES) (fuel : ℕ) :
    ∀ (m : Image) (D : ℕ → Dinode) (V : View) (l : List Byte), Made m D V → (D n).type ≠ 0 →
      l.length ≤ fuel → V.size n+l.length ≤ MAXFILE*BSIZE →
      m.freeblock+blocks (V.size n+l.length) ≤ FSSIZE+blocks (V.size n) →
      ∃ E w, copyLoop n fuel l m = .ok w ∧ Made w E (V.write n (V.size n) l) ∧
        w.freeblock+blocks (V.size n) = m.freeblock+blocks (V.size n+l.length) ∧
        w.freeinode = m.freeinode := by
  induction fuel with
  | zero =>
    intro m D V l h ht hl hmax hroom
    have hnil : l = [] := List.eq_nil_of_length_eq_zero (by omega)
    subst hnil
    exact ⟨D,m,rfl,by rwa [write_nil],rfl,rfl⟩
  | succ fuel ih =>
    intro m D V l h ht hl hmax hroom
    by_cases hnil : l = []
    · subst hnil
      exact ⟨D,m,rfl,by rwa [write_nil],rfl,rfl⟩
    have hpos : 0 < l.length := List.length_pos_iff.mpr hnil
    have hB : 0 < BSIZE := by decide
    have hlen : (l.take BSIZE).length = min BSIZE l.length := List.length_take
    have hmono := blocks_mono (o := V.size n+(l.take BSIZE).length) (p := V.size n+l.length)
      (by omega)
    obtain ⟨E,w,hw,hmade,hcount,hinodes,htype⟩ := iappend_spec h hn ht (l := l.take BSIZE)
      (by omega) (by omega) (by omega)
    have hlt : V.size n+(l.take BSIZE).length < 2^32 := by
      simp only [MAXFILE, NDIRECT, NINDIRECT, BSIZE] at hmax hlen ⊢
      omega
    have hsize : (V.write n (V.size n) (l.take BSIZE)).size n = V.size n+(l.take BSIZE).length := by
      rw [size_append (by omega) (Nat.mod_eq_of_lt hlt), update_self]
    have hall : V.size n+(l.take BSIZE).length+(l.drop BSIZE).length = V.size n+l.length := by
      rw [hlen, List.length_drop]
      omega
    obtain ⟨E',w',hw',hmade',hcount',hinodes'⟩ := ih w E _ (l.drop BSIZE) hmade (by rwa [htype])
      (by rw [List.length_drop]; omega) (by rw [hsize, hall]; exact hmax)
      (by rw [hsize, hall]; omega)
    rw [hsize, hall] at hcount'
    refine ⟨E',w',?_,?_,by omega,hinodes'.trans hinodes⟩
    · unfold copyLoop
      simp only [List.isEmpty_iff, hnil, if_false, hw, bind, Except.bind]
      exact hw'
    by_cases hrest : l.drop BSIZE = []
    · rw [hrest, write_nil] at hmade'
      have htake : l.take BSIZE = l := by
        have := List.take_append_drop BSIZE l
        rwa [hrest, List.append_nil] at this
      rwa [htake] at hmade'
    · rwa [write_append V n (by omega) (List.length_pos_iff.mpr hrest) hlt,
        List.take_append_drop] at hmade'

def dirents : ℕ → List Input → List Byte
  | _,[] => []
  | n,f::l => mkDirent (BitVec.ofNat 16 n) f.stored++dirents (n+1) l

theorem dirents_append (n : ℕ) (l : List Input) (f : Input) :
    dirents n (l++[f]) = dirents n l++mkDirent (BitVec.ofNat 16 (n+l.length)) f.stored := by
  induction l generalizing n with
  | nil => simp [dirents]
  | cons g l ih =>
    rw [List.cons_append, dirents, dirents, ih, List.append_assoc, List.length_cons]
    congr 4
    omega

theorem length_dirents (n : ℕ) (l : List Input) : (dirents n l).length = direntSize*l.length := by
  induction l generalizing n with
  | nil => rfl
  | cons f l ih =>
    rw [dirents, List.length_append, length_mkDirent, ih, List.length_cons, direntSize]
    omega

def rootData (l : List Input) : List Byte :=
  mkDirent 1 [46]++mkDirent 1 [46,46]++dirents 2 l

theorem length_rootData (l : List Input) : (rootData l).length = direntSize*(l.length+2) := by
  rw [rootData, List.length_append, List.length_append, length_mkDirent, length_mkDirent,
    length_dirents, direntSize]
  omega

structure Holds (V : View) (l : List Input) : Prop where
  dir : (V.node rootino).type = T_DIR
  linked : (V.node rootino).nlink = 1
  root : Has V rootino (rootData l)
  type : ∀ i f, l[i]? = some f → (V.node (i+2)).type = T_FILE
  file : ∀ i f, l[i]? = some f → Has V (i+2) f.data

def total (l : List Input) : ℕ :=
  nmeta+blocks (direntSize*(l.length+2))+(l.map (fun f => blocks f.data.length)).sum

theorem total_append (l : List Input) (f : Input) :
    total (l++[f])+blocks (direntSize*(l.length+2)) =
      total l+blocks (direntSize*(l.length+3))+blocks f.data.length := by
  have hlen : (l++[f]).length+2 = l.length+3 := by
    rw [List.length_append, List.length_singleton]
  rw [total, total, hlen, List.map_append, List.sum_append, List.map_singleton, List.sum_singleton]
  omega

theorem total_mono (l k : List Input) : total l ≤ total (l++k) := by
  have := blocks_mono (o := direntSize*(l.length+2)) (p := direntSize*((l++k).length+2)) (by
    rw [List.length_append]
    exact Nat.mul_le_mul_left _ (by omega))
  simp only [total, List.map_append, List.sum_append]
  omega

theorem Made.type (h : Made m D V) (hn : n < NINODES) : (V.node n).type = (D n).type := by
  rw [h.base.backs.node n (by rwa [h.base.inodes])]
  rfl

theorem root_lt : rootino < NINODES := by decide

theorem root_small (hk : k ≤ NINODES) : direntSize*(k+2) ≤ MAXFILE*BSIZE := by
  simp only [direntSize, NINODES, MAXFILE, NDIRECT, NINDIRECT, BSIZE] at *
  omega

theorem max_lt (hk : k ≤ MAXFILE*BSIZE) : k < 2^32 :=
  Nat.lt_of_le_of_lt hk (by decide)

structure Done (m : Image) (V : View) (l : List Input) : Prop where
  made : ∃ D, Made m D V
  holds : Holds V l
  inodes : m.freeinode = l.length+2
  blocks : m.freeblock = total l

theorem addFile_spec {l : List Input} {f : Input} (h : Done m V l)
    (hname : f.name.any (fun c => c == slash) = false) (hsize : f.data.length ≤ MAXFILE*BSIZE)
    (hinode : l.length+2 < NINODES) (hroom : total (l++[f]) ≤ FSSIZE) :
    ∃ w W, addFile f m = .ok w ∧ Done w W (l++[f]) := by
  obtain ⟨D,hmade⟩ := h.made
  have hfi := h.inodes
  have hfb := h.blocks
  have htot := total_append l f
  have hne : rootino ≠ m.freeinode := by
    rw [hfi]
    show 1 ≠ _
    omega
  obtain ⟨w1,hw1,hm1,hb1,hi1⟩ := ialloc_spec hmade (by omega) T_FILE
  have hroot := h.holds.root.created hne T_FILE
  have htype1 : ((created V m.freeinode T_FILE).node rootino).type = T_DIR := by
    rw [type_created, if_neg hne, h.holds.dir]
  have hs1 : (created V m.freeinode T_FILE).size rootino = direntSize*(l.length+2) := by
    rw [hroot.size, length_rootData]
  have hs2 : direntSize*(l.length+2)+direntSize = direntSize*(l.length+3) := rfl
  obtain ⟨E,w2,hw2,hm2,hb2,hi2,-⟩ := iappend_spec hm1 root_lt
    (by rw [← hm1.type root_lt, htype1]; decide)
    (l := mkDirent (BitVec.ofNat 16 m.freeinode) f.stored)
    (by rw [length_mkDirent]; decide)
    (by rw [hs1, length_mkDirent, hs2]; exact root_small (k := l.length+1) (by omega))
    (by rw [hs1, length_mkDirent, hs2]; omega)
  rw [hs1, length_mkDirent, hs2] at hb2
  generalize hV2 : (created V m.freeinode T_FILE).write rootino
    ((created V m.freeinode T_FILE).size rootino)
    (mkDirent (BitVec.ofNat 16 m.freeinode) f.stored) = V2 at hm2
  have htype2 : ∀ n, (V2.node n).type = if n = m.freeinode then T_FILE else (V.node n).type := by
    intro n
    rw [← hV2, type_write, type_created]
  have hroot2 : Has V2 rootino (rootData (l++[f])) := by
    have := hroot.append (d := mkDirent (BitVec.ofNat 16 m.freeinode) f.stored) (by
      rw [length_rootData, length_mkDirent, hs2]
      exact max_lt (root_small (k := l.length+1) (by omega)))
    rw [hV2] at this
    rw [rootData, dirents_append, ← List.append_assoc, Nat.add_comm, ← hfi]
    exact this
  have hnew : Has V2 m.freeinode [] := by
    rw [← hV2]
    exact (has_created V m.freeinode T_FILE).other (Ne.symm hne) _
  have hs3 : V2.size m.freeinode = 0 := hnew.size
  have hz : blocks 0 = 0 := by decide
  obtain ⟨E3,w3,hw3,hm3,hb3,hi3⟩ := copyLoop_spec (n := m.freeinode) (by omega) f.data.length w2 E V2
    f.data hm2 (by rw [← hm2.type (by omega), htype2, if_pos rfl]; decide) (Nat.le_refl _)
    (by rw [hs3]; omega) (by rw [hs3, Nat.zero_add]; omega)
  rw [hs3, Nat.zero_add] at hb3
  have hold : ∀ i g, l[i]? = some g → i+2 ≠ m.freeinode := by
    intro i g hg
    have := (List.getElem?_eq_some_iff.mp hg).1
    omega
  have hfile : Has (V2.write m.freeinode (V2.size m.freeinode) f.data) m.freeinode f.data :=
    hnew.append (by
      rw [List.length_nil, Nat.zero_add]
      exact max_lt hsize)
  refine ⟨w3,_,?_,⟨E3,hm3⟩,⟨?_,?_,hroot2.other hne _,fun i g hg => ?_,fun i g hg => ?_⟩,?_,?_⟩
  · rw [addFile, hname]
    simp only [Bool.false_eq_true, if_false, hw1, bind, Except.bind, hw2]
    exact hw3
  · rw [type_write, htype2, if_neg hne, h.holds.dir]
  · rw [nlink_write, ← hV2, nlink_write, node_created, if_neg hne, h.holds.linked]
  · rw [type_write, htype2]
    split
    · rfl
    rename_i hi
    rw [List.getElem?_append] at hg
    split at hg
    · exact h.holds.type i g hg
    · have := (List.getElem?_eq_some_iff.mp hg).1
      rw [List.length_singleton] at this
      omega
  · by_cases hi : i+2 = m.freeinode
    · have : l.length = i := by omega
      subst this
      rw [List.getElem?_concat_length] at hg
      cases hg
      rw [hi]
      exact hfile
    rw [List.getElem?_append] at hg
    split at hg
    · refine Has.other ?_ hi _
      rw [← hV2]
      refine ((h.holds.file i g hg).created hi T_FILE).other ?_ _
      show i+2 ≠ 1
      omega
    · have := (List.getElem?_eq_some_iff.mp hg).1
      rw [List.length_singleton] at this
      omega
  · rw [hi3, hi2, hi1, hfi, List.length_append, List.length_singleton]
  · omega

theorem addFiles_spec (files : List Input) : ∀ (m : Image) (V : View) (l : List Input), Done m V l →
      (∀ f ∈ files, f.name.any (fun c => c == slash) = false) →
      (∀ f ∈ files, f.data.length ≤ MAXFILE*BSIZE) → l.length+files.length+1 < NINODES →
      total (l++files) ≤ FSSIZE → ∃ w W, addFiles files m = .ok w ∧ Done w W (l++files) := by
  induction files with
  | nil =>
    intro m V l h _ _ _ _
    exact ⟨m,V,rfl,by rwa [List.append_nil]⟩
  | cons f files ih =>
    intro m V l h hname hsize hinode hroom
    have hassoc : l++f::files = l++[f]++files := by simp
    rw [hassoc] at hroom
    rw [List.length_cons] at hinode
    obtain ⟨w,W,hw,hd⟩ := addFile_spec h (hname f List.mem_cons_self)
      (hsize f List.mem_cons_self) (by omega) (Nat.le_trans (total_mono _ _) hroom)
    obtain ⟨w',W',hw',hd'⟩ := ih w W (l++[f]) hd (fun g hg => hname g (List.mem_cons_of_mem _ hg))
      (fun g hg => hsize g (List.mem_cons_of_mem _ hg))
      (by rw [List.length_append, List.length_singleton]; omega) hroom
    refine ⟨w',W',?_,by rwa [hassoc]⟩
    rw [addFiles, hw]
    exact hw'

section Start

theorem getField_blank (o k : ℕ) : getField blank o k = 0 :=
  getField_eq (fun i _ => by simp [byteAt, blank])

theorem getDinode_blank (k : ℕ) : getDinode blank k = Dinode.zero := by
  simp only [getDinode, getField_blank]
  rfl

theorem readsb_super {d : Disk} (h : d 1 = superBlock sb) : readsb d = sb := by
  simp only [readsb, h, superBlock]
  congr 1

def bareView : View := ⟨NINODES,fun _ => Dinode.zero,fun _ _ => 0⟩

theorem zeroed_made : Made zeroed (fun _ => Dinode.zero) bareView := by
  have hclean : ∀ c, c ≠ 1 → zeroed.disk c = blank := by
    intro c hc
    simp only [zeroed, update_of_ne hc]
  have hsuper : zeroed.marked.disk 1 = superBlock sb := by
    rw [marked_disk (by decide)]
    simp only [zeroed, update_self]
  have hsmall : zeroed.freeblock ≤ BPB := by decide
  have hnone : ∀ n p b, ¬ Ref zeroed.marked (fun _ => Dinode.zero) n p b :=
    fun n p b h => h.type rfl
  have howned : Owned zeroed.marked (fun _ => Dinode.zero) [] := by
    refine ⟨⟨readsb_super hsuper,by decide,by decide,by decide⟩,fun b hb => ?_,
      fun n p b h => absurd h (hnone n p b),fun n p _ _ b h => absurd h (hnone n p b),
      fun b hb => ?_,List.nodup_nil,fun b hb => absurd hb List.not_mem_nil,
      fun b hb => absurd hb List.not_mem_nil⟩
    · have hb : b < nmeta := dataStart_eq ▸ hb
      have hB : nmeta ≤ BPB := by decide
      refine (inUse_marked hsmall (Nat.lt_of_lt_of_le hb hB)).trans ?_
      exact decide_eq_true hb
    have hB : FSSIZE ≤ BPB := by decide
    have hlt : b.toNat < FSSIZE := hb.2
    have hge : nmeta ≤ b.toNat := dataStart_eq ▸ hb.1
    have hu : zeroed.marked.sb.inUse zeroed.marked.disk b.toNat = false := by
      refine (inUse_marked hsmall (Nat.lt_of_lt_of_le hlt hB)).trans ?_
      exact decide_eq_false (Nat.not_lt.mpr hge)
    rw [hu]
    refine iff_of_false (by decide) (fun hr => ?_)
    rcases hr with ⟨n,p,hr⟩ | hr
    · exact hnone n p b hr
    · exact absurd hr List.not_mem_nil
  refine ⟨⟨⟨howned,rfl,fun n _ => rfl,fun n _ h => absurd rfl h,fun n _ h => absurd rfl h⟩,
    fun c hc => hclean c ?_,Nat.le_refl _,by decide⟩,fun j _ h => absurd rfl h,fun j hj => ?_,
    fun j _ _ => rfl⟩
  · have hc : nmeta ≤ c := hc
    have : 1 < nmeta := by decide
    omega
  have hb : zeroed.disk (sb.iblock j) = blank := by
    refine hclean _ (Nat.ne_of_gt ?_)
    exact Nat.lt_of_lt_of_le (by decide : 1 < sb.inodestart) (Nat.le_add_left _ _)
  show getDinode (zeroed.disk (sb.iblock j)) (j%IPB) = _
  rw [hb, getDinode_blank]

theorem makeRoot_spec : ∃ m V, makeRoot = .ok m ∧ Done m V [] := by
  obtain ⟨w1,hw1,hm1,hb1,hi1⟩ := ialloc_spec zeroed_made (by decide) T_DIR
  have hroot : zeroed.freeinode = rootino := rfl
  rw [hroot] at hw1 hm1 hi1
  have hnew := has_created bareView rootino T_DIR
  have htype1 : ((created bareView rootino T_DIR).node rootino).type = T_DIR := by
    rw [type_created, if_pos rfl]
  have hfb : zeroed.freeblock = nmeta := rfl
  rw [hfb] at hb1
  obtain ⟨E2,w2,hw2,hm2,hb2,hi2,ht2⟩ := iappend_spec hm1 root_lt
    (by rw [← hm1.type root_lt, htype1]; decide) (l := mkDirent (BitVec.ofNat 16 rootino) [46])
    (by rw [length_mkDirent]; decide) (by rw [hnew.size, length_mkDirent]; decide)
    (by rw [hnew.size, length_mkDirent, hb1]; decide)
  rw [hnew.size, length_mkDirent, hb1] at hb2
  have hdot := hnew.append (d := mkDirent (BitVec.ofNat 16 rootino) [46])
    (by rw [length_mkDirent]; decide)
  rw [List.nil_append] at hdot
  obtain ⟨E3,w3,hw3,hm3,hb3,hi3,-⟩ := iappend_spec hm2 root_lt
    (by rw [ht2, ← hm1.type root_lt, htype1]; decide)
    (l := mkDirent (BitVec.ofNat 16 rootino) [46,46])
    (by rw [length_mkDirent]; decide) (by rw [hdot.size, length_mkDirent, length_mkDirent]; decide)
    (by
      have h1 : blocks (List.length ([] : List Byte)+direntSize) = 1 := by decide
      have h2 : blocks (List.length ([] : List Byte)) = 0 := by decide
      have h3 : blocks direntSize = 1 := by decide
      have h4 : blocks (direntSize+direntSize) = 1 := by decide
      have h5 : nmeta+1 < FSSIZE := by decide
      rw [hdot.size, length_mkDirent, length_mkDirent]
      omega)
  rw [hdot.size, length_mkDirent, length_mkDirent] at hb3
  refine ⟨w3,_,?_,⟨E3,hm3⟩,⟨?_,?_,?_,fun i f hf => ?_,fun i f hf => ?_⟩,?_,?_⟩
  · rw [makeRoot, hw1]
    simp only [bind, Except.bind, if_true, hw2]
    exact hw3
  · rw [type_write, type_write, htype1]
  · rw [nlink_write, nlink_write, node_created, if_pos rfl]
    rfl
  · rw [rootData, dirents, List.append_nil]
    exact hdot.append (by rw [length_mkDirent, length_mkDirent]; decide)
  · simp at hf
  · simp at hf
  · rw [hi3, hi2, hi1]
    rfl
  have h1 : blocks (List.length ([] : List Byte)+direntSize) = 1 := by decide
  have h2 : blocks (List.length ([] : List Byte)) = 0 := by decide
  have h3 : blocks direntSize = 1 := by decide
  have h4 : blocks (direntSize+direntSize) = 1 := by decide
  have h5 : total [] = nmeta+1 := by decide
  omega

end Start

structure Fits (files : List Input) : Prop where
  names : ∀ f ∈ files, f.name.any (fun c => c == slash) = false
  sizes : ∀ f ∈ files, f.data.length ≤ MAXFILE*BSIZE
  inodes : files.length+1 < NINODES
  blocks : total files ≤ FSSIZE

def rounded (k : ℕ) : ℕ := (direntSize*(k+2)/BSIZE+1)*BSIZE

theorem toNat_rounded (hk : k ≤ NINODES) : (BitVec.ofNat 32 (rounded k)).toNat = rounded k := by
  rw [BitVec.toNat_ofNat]
  apply Nat.mod_eq_of_lt
  simp only [rounded, direntSize, BSIZE, NINODES] at *
  omega

def newRoot (D : ℕ → Dinode) (k : ℕ) : Dinode :=
  {D rootino with size := BitVec.ofNat 32 (rounded k)}

def mounted (d : Disk) : Volume := ⟨readsb d,d⟩

section

variable (h : Made m D V) {j : ℕ}
include h

theorem Made.owned_root (k : ℕ) :
    Owned (m.setInode rootino (newRoot D k)).marked (update D rootino (newRoot D k)) [] := by
  rw [marked_setInode root_lt]
  exact (h.base.backs.owned.attrs (d := newRoot D k) rfl Iff.rfl).setDinode root_lt _

theorem Made.table_root (k : ℕ) (hj : j < NINODES) :
    (m.setInode rootino (newRoot D k)).marked.dinode j = update D rootino (newRoot D k) j := by
  rw [← table_setInode (m := m) (fun _ _ => rfl) h.table (newRoot D k) j hj]
  have hne : sb.iblock j ≠ sb.bmapstart := Nat.ne_of_lt (iblock_lt hj)
  have := marked_disk (m := m.setInode rootino (newRoot D k)) hne
  show getDinode _ _ = getDinode _ _
  exact congrArg (fun b => getDinode b (j%IPB)) this

theorem Made.addrs_root (k : ℕ) (hj : j < NINODES) :
    ((m.setInode rootino (newRoot D k)).marked.dinode j).addrs = (D j).addrs := by
  rw [h.table_root _ hj]
  by_cases he : j = rootino
  · subst he
    rw [update_self]
    rfl
  · rw [update_of_ne he]

theorem Made.type_root (k : ℕ) (hj : j < NINODES) :
    ((m.setInode rootino (newRoot D k)).marked.dinode j).type = (D j).type := by
  rw [h.table_root _ hj]
  by_cases he : j = rootino
  · subst he
    rw [update_self]
    rfl
  · rw [update_of_ne he]

theorem Made.addr_root (k : ℕ) (hj : j < NINODES) (ht : (D j).type ≠ 0) (i : ℕ) :
    (m.setInode rootino (newRoot D k)).marked.addr
      ((m.setInode rootino (newRoot D k)).marked.dinode j) i = m.marked.addr (D j) i :=
  blockAt_setInode (d := newRoot D k) h.base root_lt hj ht (h.addrs_root k hj) (some i)

theorem Made.byte_root (k : ℕ) (hj : j < NINODES) (ht : (D j).type ≠ 0) (o : ℕ) :
    (m.setInode rootino (newRoot D k)).marked.byte
      ((m.setInode rootino (newRoot D k)).marked.dinode j) o = V.byte j o := by
  rw [h.base.backs.byte j (by rwa [h.base.inodes]) ht]
  refine byte_congr (h.addr_root k hj ht) (fun i hi => ?_) o
  have h1 := (h.base.taken (ref_addr hj ht hi)).1.1
  have h2 := iblock_lt root_lt
  have h3 := bmapstart_lt sb
  rw [marked_setInode root_lt]
  refine disk_write_ne _ ?_
  show _ ≠ sb.iblock rootino
  omega

end

theorem mkfs_makes {files : List Input} (h : Fits files) :
    ∃ img m D V, mkfs files = .ok img ∧ Made m D V ∧ Holds V files ∧
      mounted img.disk = (m.setInode rootino (newRoot D files.length)).marked := by
  obtain ⟨m0,V0,hm0,hd0⟩ := makeRoot_spec
  obtain ⟨m,V,hm,hd⟩ := addFiles_spec files m0 V0 [] hd0 h.names h.sizes
    (by rw [List.length_nil, Nat.zero_add]; exact h.inodes) h.blocks
  rw [List.nil_append] at hd
  obtain ⟨D,hmade⟩ := hd.made
  have hsize : (D rootino).size.toNat = direntSize*(files.length+2) := by
    have h1 := hmade.base.backs.node rootino (by rw [hmade.base.inodes]; exact root_lt)
    have h2 := hd.holds.root.size
    rw [View.size, h1, length_rootData] at h2
    exact h2
  have hlt : m.freeblock < BSIZE*8 := Nat.lt_of_le_of_lt hmade.base.high (by decide)
  refine ⟨wsect sb.bmapstart (usedMap m.freeblock) (m.setInode rootino (newRoot D files.length)),
    m,D,V,?_,hmade,hd.holds,?_⟩
  · rw [mkfs, hm0]
    simp only [bind, Except.bind, hm, fixRoot, rinode_eq root_lt, hmade.table rootino root_lt, hsize,
      winode_eq root_lt]
    exact if_pos hlt
  · have := (hmade.owned_root files.length).laid.super
    unfold mounted
    exact congrArg (fun s => Volume.mk s _) this

end Yeet.Mkfs
