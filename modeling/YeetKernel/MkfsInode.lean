import YeetKernel.MkfsAppend

/-!
# The inodes of the image

Writing an inode leaves the data blocks and the free map alone. `ialloc` adds an
empty file to the view, and `iappend` writes at the end of one.
-/

namespace Yeet.Mkfs
open Kernel Bytes FsDisk Fs Function

variable {m : Image} {D : ℕ → Dinode} {V : View} {n : ℕ} {l : List Byte}

structure Made (m : Image) (D : ℕ → Dinode) (V : View) : Prop where
  base : Base m D V
  tight : Tight m D (fun j => Covers (V.size j))
  table : ∀ j < NINODES, m.vol.dinode j = D j
  free : ∀ j, m.freeinode ≤ j → j < NINODES → (D j).type = 0

theorem iblock_lt (hn : n < NINODES) : sb.iblock n < sb.bmapstart := by
  have : n/IPB ≤ NINODES/IPB := Nat.div_le_div_right (Nat.le_of_lt hn)
  simp only [Superblock.iblock, sb, ninodeblocks]
  omega

def Image.setInode (m : Image) (n : ℕ) (d : Dinode) : Image :=
  wsect (sb.iblock n) (putDinode (m.disk (sb.iblock n)) (n%IPB) d) m

theorem rsect_inode (hn : n < NINODES) : rsect (sb.iblock n) m = .ok (m.disk (sb.iblock n)) := by
  have h1 := iblock_lt hn
  have h2 : sb.bmapstart < FSSIZE := by decide
  exact if_pos (by omega)

theorem winode_eq (hn : n < NINODES) (d : Dinode) : winode n d m = .ok (m.setInode n d) := by
  rw [winode, rsect_inode hn]
  rfl

theorem rinode_eq (hn : n < NINODES) : rinode n m = .ok (m.vol.dinode n) := by
  rw [rinode, rsect_inode hn]
  rfl

theorem vol_setInode (d : Dinode) : (m.setInode n d).vol = m.vol.setDinode n d := rfl

theorem marked_setInode (hn : n < NINODES) (d : Dinode) :
    (m.setInode n d).marked = m.marked.setDinode n d := by
  have hne : sb.iblock n ≠ sb.bmapstart := Nat.ne_of_lt (iblock_lt hn)
  rw [Image.setInode, marked_wsect _ hne, ← marked_disk hne]
  rfl

theorem Base.setInode (h : Base m D V) (hn : n < NINODES) {d : Dinode} {W : View}
    (hb : Backs m.marked (update D n d) W) (hW : W.inodes = V.inodes) :
    Base (m.setInode n d) (update D n d) W := by
  have hlt := iblock_lt hn
  have hlow := h.low
  have hmeta : sb.bmapstart < nmeta := by decide
  refine ⟨?_,fun c hc => ?_,h.low,h.high⟩
  · rw [marked_setInode hn]
    exact hb.setDinode (by rw [hW, h.inodes]; exact hn) d
  have hc : m.freeblock ≤ c := hc
  show update m.disk _ _ c = _
  rw [update_of_ne (by omega)]
  exact h.clean c hc

theorem blockAt_setInode (h : Base m D V) (hn : n < NINODES) {j : ℕ} (hj : j < NINODES)
    (ht : (D j).type ≠ 0) {d e : Dinode} (ha : e.addrs = (D j).addrs) (q : Option ℕ) :
    (m.setInode n d).marked.blockAt e q = m.marked.blockAt (D j) q := by
  rw [marked_setInode hn]
  refine blockAt_congr ha (fun hi => disk_write_ne _ ?_) q
  have h1 := (h.backs.owned.indirect_data hj ht hi).1
  have h2 := iblock_lt hn
  have h3 := bmapstart_lt sb
  show _ ≠ sb.iblock n
  intro e
  rw [e] at h1
  have : sb.dataStart ≤ sb.iblock n := h1
  omega

theorem table_setInode {u : Image} (hon : ∀ c < nmeta, m.disk c = u.disk c)
    (ht : ∀ j < NINODES, u.vol.dinode j = D j) (d : Dinode) :
    ∀ j < NINODES, (m.setInode n d).vol.dinode j = update D n d j := by
  intro j hj
  rw [vol_setInode]
  by_cases he : j = n
  · subst he
    rw [update_self]
    exact dinode_setDinode d
  rw [update_of_ne he, dinode_setDinode_ne d he, ← ht j hj]
  have h1 := iblock_lt hj
  have h2 : sb.bmapstart < nmeta := by decide
  have h3 : m.disk (sb.iblock j) = u.disk (sb.iblock j) := hon _ (by omega)
  simp only [Volume.dinode, Image.vol, h3]

theorem size_append (hl : 0 < l.length)
    (hz : (BitVec.ofNat 32 (V.size n+l.length)).toNat = V.size n+l.length) :
    (V.write n (V.size n) l).size = update V.size n (V.size n+l.length) := by
  funext j
  rw [← write_raise (by omega)]
  by_cases he : j = n
  · subst he
    rw [update_self]
    simp only [View.size, View.setNode, update_self]
    exact hz
  · rw [update_of_ne he]
    simp only [View.size, View.setNode, View.setByte, update_of_ne he]

theorem iappend_spec (h : Made m D V) (hn : n < NINODES) (ht : (D n).type ≠ 0)
    (hl : 0 < l.length) (hmax : V.size n+l.length ≤ MAXFILE*BSIZE)
    (hroom : m.freeblock+blocks (V.size n+l.length) ≤ FSSIZE+blocks (V.size n)) :
    ∃ E w, iappend n l m = .ok w ∧ Made w E (V.write n (V.size n) l) ∧
      w.freeblock+blocks (V.size n) = m.freeblock+blocks (V.size n+l.length) ∧
      w.freeinode = m.freeinode ∧ ∀ j, (E j).type = (D j).type := by
  have hsize : ∀ j < NINODES, (D j).size.toNat = V.size j := by
    intro j hj
    rw [View.size, h.base.backs.node j (by rwa [h.base.inodes])]
    rfl
  obtain ⟨din,w,hloop,hap⟩ := appendLoop_spec hn l.length m D V V.size l h.base h.tight ht
    (Nat.le_refl _) hmax hroom
  generalize hz : BitVec.ofNat 32 (V.size n+l.length) = size at *
  have hszN : size.toNat = V.size n+l.length := by
    rw [← hz, BitVec.toNat_ofNat]
    apply Nat.mod_eq_of_lt
    simp only [MAXFILE, NDIRECT, NINDIRECT, BSIZE] at hmax
    omega
  have hnode : V.node n = bare din := by
    have := hap.base.backs.node n (by rwa [hap.base.inodes])
    rwa [update_self] at this
  have htype : din.type = (D n).type := by
    have := h.base.backs.node n (by rwa [h.base.inodes])
    rw [hnode] at this
    have := congrArg Dinode.type this
    exact this
  have hb := hap.base.backs.resize (n := n) (z := size) (by rw [hszN]; exact hmax) (fun k hk => by
    refine (hap.tight n hn (by rwa [update_self, htype]) (some k)).mpr ?_
    simp only [update_self]
    rwa [hszN] at hk)
  rw [update_self, update_idem] at hb
  have hview : (V.setByte n (overlay (V.byte n) (V.size n) l)).setNode n
      (bare {din with size := size}) = V.write n (V.size n) l := by
    rw [← write_raise (by omega), hz, hnode]
    rfl
  rw [hview] at hb
  have hbase := hap.base.setInode hn (d := {din with size := size}) (W := V.write n (V.size n) l)
    (by rw [update_idem]; exact hb) rfl
  rw [update_idem] at hbase
  have hE : ∀ j, (update D n {din with size := size} j).type = (D j).type := by
    intro j
    by_cases he : j = n
    · subst he
      rw [update_self]
      exact htype
    · rw [update_of_ne he]
  refine ⟨_,_,?_,⟨hbase,fun j hj hjt q => ?_,table_setInode hap.onward.front h.table _,
    fun j hf hj => ?_⟩,?_,hap.onward.inodes,hE⟩
  · rw [iappend, rinode_eq hn, h.table n hn]
    simp only [bind, Except.bind, hsize n hn, hloop, hz]
    exact winode_eq hn _
  · have ht' : (update D n din j).type ≠ 0 := by
      by_cases he : j = n
      · subst he
        rw [update_self, htype]
        exact ht
      · rw [update_of_ne he] at hjt ⊢
        exact hjt
    have ha : (update D n {din with size := size} j).addrs = (update D n din j).addrs := by
      by_cases he : j = n
      · subst he
        rw [update_self, update_self]
      · rw [update_of_ne he, update_of_ne he]
    rw [blockAt_setInode hap.base hn hj ht' ha, hap.tight j hj ht' q]
    rw [size_append hl (by rw [hz, hszN])]
  · rw [hE]
    exact h.free j (by rw [← hap.onward.inodes]; exact hf) hj
  · exact hap.count

def created (V : View) (n : ℕ) (type : Ushort) : View :=
  (V.claim n type).setNode n (bare (newInode type))

theorem ialloc_spec (h : Made m D V) (hi : m.freeinode < NINODES) (type : Ushort) :
    ∃ w, ialloc type m = .ok (m.freeinode,w) ∧
      Made w (update D m.freeinode (newInode type)) (created V m.freeinode type) ∧
      w.freeblock = m.freeblock ∧ w.freeinode = m.freeinode+1 := by
  have hbase : Base {m with freeinode := m.freeinode+1} D V :=
    ⟨h.base.backs,h.base.clean,h.base.low,h.base.high⟩
  have h0 := h.free m.freeinode (Nat.le_refl _) hi
  have hb := (h.base.backs.claim h0 type).attr (n := m.freeinode) (d := newInode type)
    (by rw [update_self]; rfl) (by rw [update_self]; rfl) (by rw [update_self]; rfl)
  rw [update_idem] at hb
  refine ⟨_,?_,⟨hbase.setInode hi hb rfl,fun j hj hjt q => ?_,
    table_setInode (fun _ _ => rfl) h.table _,fun j hf hj => ?_⟩,rfl,rfl⟩
  · rw [ialloc, winode_eq hi]
    rfl
  · by_cases he : j = m.freeinode
    · subst he
      rw [update_self] at hjt ⊢
      have hzero : ∀ v : Volume, v.blockAt (newInode type) q = 0 := by
        intro v
        cases q with
        | none => rfl
        | some k => exact addr_empty (fun _ => rfl) k
      have hsize : (created V m.freeinode type).size m.freeinode = 0 := by
        simp only [created, View.size, View.setNode, update_self]
        rfl
      simp only [hzero, hsize]
      cases q <;> simp [Covers]
    · rw [update_of_ne he] at hjt ⊢
      rw [blockAt_setInode hbase hi hj hjt rfl]
      refine (h.tight j hj hjt q).trans ?_
      simp only [created, View.size, View.claim, View.setByte, View.setNode, update_of_ne he]
  · have hf : m.freeinode+1 ≤ j := hf
    rw [update_of_ne (by omega)]
    exact h.free j (by omega) hj

end Yeet.Mkfs
