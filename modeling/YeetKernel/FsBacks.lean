import YeetKernel.FsView

/-!
# A volume behind a view

The inodes, wherever their current copy is, have the attributes of the view,
their blocks have its bytes, and no block is missing. Each change of the
volume is followed to the view: allocation changes nothing there.
-/

namespace Yeet.Fs
open Kernel Bytes FsDisk Function

structure Backs (v : Volume) (D : ℕ → Dinode) (V : View) : Prop where
  owned : Owned v D []
  inodes : v.sb.ninodes = V.inodes
  node : ∀ n < V.inodes, V.node n = bare (D n)
  byte : ∀ n < V.inodes, (D n).type ≠ 0 → ∀ o, V.byte n o = v.byte (D n) o
  filled : ∀ n < V.inodes, (D n).type ≠ 0 → (D n).type ≠ T_DEV → Filled v (D n)

/-- The same with blocks that are marked but belong to no inode. -/
structure Backed (loose : List Uint) (v : Volume) (D : ℕ → Dinode) (V : View) : Prop where
  owned : Owned v D loose
  inodes : v.sb.ninodes = V.inodes
  node : ∀ n < V.inodes, V.node n = bare (D n)
  byte : ∀ n < V.inodes, (D n).type ≠ 0 → ∀ o, V.byte n o = v.byte (D n) o
  filled : ∀ n < V.inodes, (D n).type ≠ 0 → (D n).type ≠ T_DEV → Filled v (D n)

variable {v w : Volume} {D : ℕ → Dinode} {V : View} {n : ℕ} {b : Uint} {loose : List Uint}
variable {d : Dinode} {k : Fin (NDIRECT+1)} {j : ℕ} {l : List Byte} {z : Uint}

theorem Backs.backed (h : Backs v D V) : Backed [] v D V :=
  ⟨h.owned,h.inodes,h.node,h.byte,h.filled⟩

theorem Backed.backs (h : Backed [] v D V) : Backs v D V :=
  ⟨h.owned,h.inodes,h.node,h.byte,h.filled⟩

theorem node_update {D : ℕ → Dinode} (h : ∀ m < V.inodes, V.node m = bare (D m)) :
    ∀ m < V.inodes, (V.setNode n (bare d)).node m = bare (update D n d m) := by
  intro m hm
  by_cases he : m = n
  · subst he
    simp only [View.setNode, update_self]
  · simp only [View.setNode, update_of_ne he]
    exact h m hm

theorem Backed.disk_setDinode (h : Backed loose v D V) (hn : n < V.inodes) (d : Dinode) {c : ℕ}
    (hc : v.sb.bmapstart ≤ c) : (v.setDinode n d).disk c = v.disk c := by
  have := h.owned.laid.iblock_lt (n := n) (by rwa [h.inodes])
  exact disk_write_ne _ (by omega)

theorem Backed.addr_setDinode (h : Backed loose v D V) (hn : n < V.inodes) (d : Dinode) {m : ℕ}
    (hm : m < V.inodes) (ht : (D m).type ≠ 0) (k : ℕ) :
    (v.setDinode n d).addr (D m) k = v.addr (D m) k := by
  refine addr_congr rfl (fun hi => h.disk_setDinode hn d ?_) k
  have := h.owned.indirect_data (by rwa [h.inodes]) ht hi
  have := bmapstart_lt v.sb
  unfold InData at *
  omega

theorem Backed.setDinode (h : Backed loose v D V) (hn : n < V.inodes) (d : Dinode) :
    Backed loose (v.setDinode n d) D V := by
  have hn' : n < v.sb.ninodes := by rwa [h.inodes]
  refine ⟨h.owned.setDinode hn' d,h.inodes,h.node,fun m hm ht o => ?_,fun m hm ht hd => ?_⟩
  · rw [h.byte m hm ht]
    refine (byte_congr (h.addr_setDinode hn d hm ht) (fun k hk => h.disk_setDinode hn d ?_) o).symm
    have := h.owned.range _ _ _ (ref_addr (by rwa [h.inodes]) ht hk)
    have := bmapstart_lt v.sb
    unfold InData at *
    omega
  · refine (h.filled m hm ht hd).congr rfl (fun k hk => ?_)
    rw [h.addr_setDinode hn d hm ht]
    exact hk

theorem Backs.setDinode (h : Backs v D V) (hn : n < V.inodes) (d : Dinode) :
    Backs (v.setDinode n d) D V :=
  (h.backed.setDinode hn d).backs

theorem Backs.attr (h : Backs v D V) (ha : d.addrs = (D n).addrs)
    (hs : d.size = (D n).size) (ht : d.type = (D n).type) :
    Backs v (update D n d) (V.setNode n (bare d)) := by
  have haddr : ∀ k, v.addr d k = v.addr (D n) k := addr_congr ha (fun _ => rfl)
  refine ⟨h.owned.attrs ha (by rw [ht]),h.inodes,node_update h.node,fun m hm hmt o => ?_,
    fun m hm hmt hd => ?_⟩
  · by_cases he : m = n
    · subst he
      rw [update_self] at hmt ⊢
      rw [ht] at hmt
      show V.byte m o = _
      rw [h.byte m hm hmt, byte_congr haddr (fun _ _ => rfl)]
    · rw [update_of_ne he] at hmt ⊢
      exact h.byte m hm hmt o
  by_cases he : m = n
  · subst he
    rw [update_self] at hmt hd ⊢
    rw [ht] at hmt hd
    refine (h.filled m hm hmt hd).congr hs (fun k hk => ?_)
    rw [haddr]
    exact hk
  · rw [update_of_ne he] at hmt hd ⊢
    exact h.filled m hm hmt hd

theorem Backed.resize (h : Backed loose v D V) (hz : z.toNat ≤ MAXFILE*BSIZE)
    (hb : ∀ k, k*BSIZE < z.toNat → v.addr (D n) k ≠ 0) :
    Backed loose v (update D n {D n with size := z}) (V.setNode n (bare {D n with size := z})) := by
  refine ⟨h.owned.attrs rfl Iff.rfl,h.inodes,node_update h.node,fun m hm hmt o => ?_,
    fun m hm hmt hd => ?_⟩
  · by_cases he : m = n
    · subst he
      rw [update_self] at hmt ⊢
      show V.byte m o = _
      rw [h.byte m hm hmt]
      exact (byte_congr (addr_congr rfl (fun _ => rfl)) (fun _ _ => rfl) o).symm
    · rw [update_of_ne he] at hmt ⊢
      exact h.byte m hm hmt o
  by_cases he : m = n
  · subst he
    rw [update_self]
    refine ⟨hz,fun k hk => ?_⟩
    rw [addr_congr (rfl : ({D m with size := z} : Dinode).addrs = (D m).addrs) (fun _ => rfl)]
    exact hb k hk
  · rw [update_of_ne he] at hmt hd ⊢
    exact h.filled m hm hmt hd

theorem Backs.resize (h : Backs v D V) (hz : z.toNat ≤ MAXFILE*BSIZE)
    (hb : ∀ k, k*BSIZE < z.toNat → v.addr (D n) k ≠ 0) :
    Backs v (update D n {D n with size := z}) (V.setNode n (bare {D n with size := z})) :=
  (h.backed.resize hz hb).backs

theorem addr_empty (hd : ∀ k, d.addrs k = 0) (k : ℕ) : v.addr d k = 0 := by
  have hi : d.indirect = 0 := hd _
  unfold Volume.addr
  rw [if_pos hi]
  split
  · exact hd _
  · rfl

theorem byte_empty (hd : ∀ k, d.addrs k = 0) (o : ℕ) : v.byte d o = 0 := by
  unfold Volume.byte
  rw [if_pos (addr_empty hd _)]

theorem filled_empty (hd : d.size = 0) : Filled v d := by
  constructor
  · rw [hd]
    exact Nat.zero_le _
  · intro k hk
    rw [hd] at hk
    exact absurd hk (Nat.not_lt_zero _)

theorem Owned.claim {loose : List Uint} (h : Owned v D loose) (ht : (D n).type = 0)
    (hd : ∀ k, d.addrs k = 0) : Owned v (update D n d) loose := by
  have hz : ∀ q, v.blockAt d q = 0 := by
    intro q
    cases q with
    | none => exact hd _
    | some k => exact addr_empty hd k
  have hr : ∀ m q c, Ref v (update D n d) m q c ↔ Ref v D m q c := by
    intro m q c
    by_cases hm : m = n
    · subst hm
      constructor
      · rintro ⟨_,_,h3,h4⟩
        rw [update_self, hz] at h3
        exact absurd h3.symm h4
      · rintro ⟨_,h2,_,_⟩
        exact absurd ht h2
    · constructor <;> rintro ⟨h1,h2,h3,h4⟩
      · rw [update_of_ne hm] at h2 h3
        exact ⟨h1,h2,h3,h4⟩
      · exact ⟨h1,by rwa [update_of_ne hm],by rwa [update_of_ne hm],h4⟩
  refine ⟨h.laid,h.front,fun m q c hc => h.range m q c ((hr _ _ _).mp hc),fun m q m' q' c h1 h2 =>
    h.unique _ _ _ _ c ((hr _ _ _).mp h1) ((hr _ _ _).mp h2),fun c hc => ?_,h.nodup,h.data,
    fun c hc m q hq => h.unref c hc m q ((hr _ _ _).mp hq)⟩
  simp only [hr]
  exact h.used c hc

theorem Backs.claim (h : Backs v D V) (ht : (D n).type = 0) (type : Ushort) :
    Backs v (update D n {Dinode.zero with type := type}) (V.claim n type) := by
  refine ⟨Owned.claim h.owned ht (fun _ => rfl),h.inodes,
    node_update (d := {Dinode.zero with type := type}) h.node,fun m hm hmt o => ?_,
    fun m hm hmt hd => ?_⟩
  · by_cases he : m = n
    · subst he
      rw [update_self]
      simp only [View.claim, View.setByte, update_self]
      exact (byte_empty (fun _ => rfl) o).symm
    · rw [update_of_ne he] at hmt ⊢
      simp only [View.claim, View.setByte, update_of_ne he]
      exact h.byte m hm hmt o
  · by_cases he : m = n
    · subst he
      rw [update_self]
      exact filled_empty rfl
    · rw [update_of_ne he] at hmt hd ⊢
      exact h.filled m hm hmt hd

def Keeps (v : Volume) (d : Dinode) (w : Volume) (e : Dinode) : Prop :=
  ∀ k, v.addr d k ≠ 0 → w.addr e k = v.addr d k

theorem Keeps.filled {d e : Dinode} (h : Keeps v d w e) (hf : Filled v d) (hs : e.size = d.size) :
    Filled w e := by
  refine hf.congr hs (fun k hk => ?_)
  rw [h k hk]
  exact hk

theorem bare_setAddr (d : Dinode) (k : Fin (NDIRECT+1)) (b : Uint) : bare (d.setAddr k b) = bare d :=
  rfl

theorem Backed.balloc_addr (h : Backed loose v D V) (ha : Allocated v w b) (hn : n < V.inodes)
    (ht : (D n).type ≠ 0) (k : ℕ) : w.addr (D n) k = v.addr (D n) k :=
  (h.owned.balloc ha).2 n (by rwa [h.inodes]) ht (some k)

theorem Backed.addr_slot (h : Backed loose v D V) (hn : n < V.inodes) (ht : (D n).type ≠ 0)
    (h0 : (D n).addrs k = 0) (ha : Allocated v w b) (j : ℕ) :
    w.addr ((D n).setAddr k b) j = if some j = placeOf k then b else v.addr (D n) j := by
  have h1 := blockAt_setAddr h0 ha.zero (some j)
  simp only [Volume.blockAt] at h1
  rw [h1, h.balloc_addr ha hn ht]

theorem Backed.addr_entry (h : Backed loose v D V) (hn : n < V.inodes) (ht : (D n).type ≠ 0)
    (hi : (D n).indirect ≠ 0) (hj : j < NINDIRECT) (ha : Allocated v w b) (k : ℕ) :
    (w.write (D n).indirect.toNat (setWord (w.disk (D n).indirect.toNat) j b)).addr (D n) k =
      if k = NDIRECT+j then b else v.addr (D n) k := by
  have h1 := blockAt_setEntry (v := w) (b := b) hi hj (some k)
  simp only [Volume.blockAt, Option.some.injEq] at h1
  rw [h1, h.balloc_addr ha hn ht]

theorem Backed.allocSlot (h : Backed loose v D V) (hn : n < V.inodes) (ht : (D n).type ≠ 0)
    (h0 : (D n).addrs k = 0) (hb : balloc v = .ok (b,w)) :
    b ≠ 0 ∧ Backed loose w (update D n ((D n).setAddr k b)) V ∧ Keeps v (D n) w ((D n).setAddr k b) := by
  have hn' : n < v.sb.ninodes := by rwa [h.inodes]
  have ha := balloc_allocates h.owned hb
  obtain ⟨ho,-⟩ := h.owned.balloc ha
  have hkeep : Keeps v (D n) w ((D n).setAddr k b) := by
    intro j hj
    rw [h.addr_slot hn ht h0 ha, if_neg]
    · intro e
      have h2 := blockAt_placeOf v (D n) k
      rw [← e, h0] at h2
      exact hj h2
  refine ⟨InData.ne_zero h.owned.laid ha.data,⟨ho.attachSlot (by rwa [ha.sb]) ht h0 ha.zero,
    ha.sb ▸ h.inodes,fun m hm => ?_,fun m hm hmt o => ?_,fun m hm hmt hd => ?_⟩,hkeep⟩
  · by_cases he : m = n
    · subst he
      rw [update_self]
      exact h.node m hm
    · rw [update_of_ne he]
      exact h.node m hm
  · by_cases he : m = n
    · subst he
      rw [update_self, byte_setAddr h0 ha.zero, h.owned.balloc_byte ha hn' ht]
      exact h.byte m hm ht o
    · rw [update_of_ne he] at hmt ⊢
      rw [h.owned.balloc_byte ha (by rwa [h.inodes]) hmt]
      exact h.byte m hm hmt o
  by_cases he : m = n
  · subst he
    rw [update_self] at hd ⊢
    exact hkeep.filled (h.filled m hm ht hd) rfl
  rw [update_of_ne he] at hmt hd ⊢
  refine (h.filled m hm hmt hd).congr rfl (fun j hj => ?_)
  rw [h.balloc_addr ha hm hmt]
  exact hj

theorem Backs.allocSlot (h : Backs v D V) (hn : n < V.inodes) (ht : (D n).type ≠ 0)
    (h0 : (D n).addrs k = 0) (hb : balloc v = .ok (b,w)) :
    b ≠ 0 ∧ Backs w (update D n ((D n).setAddr k b)) V ∧ Keeps v (D n) w ((D n).setAddr k b) := by
  obtain ⟨h1,h2,h3⟩ := h.backed.allocSlot hn ht h0 hb
  exact ⟨h1,h2.backs,h3⟩

theorem Backed.allocEntry (h : Backed loose v D V) (hn : n < V.inodes) (ht : (D n).type ≠ 0)
    (hi : (D n).indirect ≠ 0) (hj : j < NINDIRECT) (h0 : v.addr (D n) (NDIRECT+j) = 0)
    (hb : balloc v = .ok (b,w)) :
    let u := w.write (D n).indirect.toNat (setWord (w.disk (D n).indirect.toNat) j b)
    b ≠ 0 ∧ Backed loose u D V ∧ u.addr (D n) (NDIRECT+j) = b ∧ Keeps v (D n) u (D n) := by
  intro u
  have hn' : n < v.sb.ninodes := by rwa [h.inodes]
  have ha := balloc_allocates h.owned hb
  obtain ⟨ho,-⟩ := h.owned.balloc ha
  have hnw : n < w.sb.ninodes := by rwa [ha.sb]
  have h0' : w.addr (D n) (NDIRECT+j) = 0 := by rw [h.balloc_addr ha hn ht, h0]
  have hat := h.addr_entry hn ht hi hj ha
  have hbi : b ≠ (D n).indirect := by
    intro e
    have := ho.unref b List.mem_cons_self n none
    exact this ⟨hnw,ht,e.symm,InData.ne_zero h.owned.laid ha.data⟩
  -- the addresses and blocks of other inodes do not involve this indirect block
  have hother : ∀ m, m ≠ n → m < V.inodes → (D m).type ≠ 0 → ∀ q c, Ref w D m q c →
      u.disk c.toNat = w.disk c.toNat := by
    intro m he hm hmt q c hc
    refine disk_write_ne _ (fun e => ?_)
    have e : c = (D n).indirect := BitVec.eq_of_toNat_eq e
    subst e
    exact he (ho.unique m q n none _ hc ⟨hnw,ht,rfl,hi⟩).1
  have haddr : ∀ m, m ≠ n → m < V.inodes → (D m).type ≠ 0 → ∀ k, u.addr (D m) k = w.addr (D m) k := by
    intro m he hm hmt k
    refine addr_congr rfl (fun h2 => hother m he hm hmt none _ ?_) k
    exact ⟨by rwa [ha.sb, h.inodes],hmt,rfl,h2⟩
  have hkeep : Keeps v (D n) u (D n) := by
    intro k hk
    rw [hat, if_neg]
    intro e
    rw [e] at hk
    exact hk h0
  refine ⟨InData.ne_zero h.owned.laid ha.data,⟨ho.attachEntry hnw ht hi hj h0',ha.sb ▸ h.inodes,
    h.node,fun m hm hmt o => ?_,fun m hm hmt hd => ?_⟩,?_,hkeep⟩
  · rw [h.byte m hm hmt, ← h.owned.balloc_byte ha (by rwa [h.inodes]) hmt]
    by_cases he : m = n
    · subst he
      refine (byte_setEntry hi hj h0' ha.zero hbi (fun k hk e => ?_) o).symm
      have := ho.unique m (some k) m none _ (ref_addr hnw ht hk) ⟨hnw,ht,e.symm,hk⟩
      cases this.2
    · refine (byte_congr (haddr m he hm hmt) (fun k hk => ?_) o).symm
      exact hother m he hm hmt (some k) _ (ref_addr (by rwa [ha.sb, h.inodes]) hmt hk)
  · by_cases he : m = n
    · subst he
      exact hkeep.filled (h.filled m hm ht hd) rfl
    · refine (h.filled m hm hmt hd).congr rfl (fun k hk => ?_)
      rw [haddr m he hm hmt, h.balloc_addr ha hm hmt]
      exact hk
  · rw [hat, if_pos rfl]

theorem Backs.allocEntry (h : Backs v D V) (hn : n < V.inodes) (ht : (D n).type ≠ 0)
    (hi : (D n).indirect ≠ 0) (hj : j < NINDIRECT) (h0 : v.addr (D n) (NDIRECT+j) = 0)
    (hb : balloc v = .ok (b,w)) :
    let u := w.write (D n).indirect.toNat (setWord (w.disk (D n).indirect.toNat) j b)
    b ≠ 0 ∧ Backs u D V ∧ u.addr (D n) (NDIRECT+j) = b ∧ Keeps v (D n) u (D n) := by
  intro u
  obtain ⟨h1,h2,h3,h4⟩ := h.backed.allocEntry hn ht hi hj h0 hb
  exact ⟨h1,h2.backs,h3,h4⟩

theorem overlay_block {f : ℕ → Byte} {x : DiskBlock} {k o i : ℕ}
    (hl : o+l.length ≤ BSIZE) (hf : i/BSIZE = k → f i = byteAt x (i%BSIZE)) :
    overlay f (k*BSIZE+o) l i = if i/BSIZE = k then byteAt (putBytes x o l) (i%BSIZE) else f i := by
  have hi := Nat.div_add_mod i BSIZE
  have hm : i%BSIZE < BSIZE := Nat.mod_lt i (by decide)
  have hc := Nat.mul_comm BSIZE (i/BSIZE)
  unfold overlay
  by_cases hk : i/BSIZE = k
  · rw [if_pos hk]
    by_cases hin : o ≤ i%BSIZE ∧ i%BSIZE < o+l.length
    · have h1 := byteAt_putBytes_in x (i := i%BSIZE-o) hl (by omega)
      rw [Nat.add_sub_cancel' hin.1] at h1
      rw [h1, if_pos (by rw [← hk]; omega)]
      congr 1
      rw [← hk]
      omega
    · rw [byteAt_putBytes_out x (by omega), if_neg (by rw [← hk]; omega), hf hk]
  · rw [if_neg hk, if_neg]
    rintro ⟨h1,h2⟩
    refine hk (Nat.div_eq_of_lt_le ?_ ?_)
    · omega
    · rw [Nat.succ_mul]
      omega

theorem Backed.patch (h : Backed loose v D V) (hn : n < V.inodes) (ht : (D n).type ≠ 0) {k o : ℕ}
    (hk : v.addr (D n) k ≠ 0) (hl : o+l.length ≤ BSIZE) :
    let a := (v.addr (D n) k).toNat
    let u := v.write a (putBytes (v.disk a) o l)
    Backed loose u D (V.setByte n (overlay (V.byte n) (k*BSIZE+o) l)) ∧ Keeps v (D n) u (D n) := by
  intro a u
  have hn' : n < v.sb.ninodes := by rwa [h.inodes]
  obtain ⟨h1,h2,h3⟩ := h.owned.write_byte hn' ht hk (putBytes (v.disk a) o l)
  refine ⟨⟨h1,h.inodes,h.node,fun m hm hmt i => ?_,fun m hm hmt hd => ?_⟩, fun j _ => h2 n hn' ht j⟩
  · have hm' : m < v.sb.ninodes := by rw [h.inodes]; exact hm
    rw [h3 m hm' hmt]
    by_cases he : m = n
    · subst he
      simp only [View.setByte, update_self, true_and]
      rw [overlay_block (x := v.disk a) hl]
      · rw [h.byte m hm hmt]
      · intro hi
        rw [h.byte m hm hmt, Volume.byte, hi, if_neg hk]
    · simp only [View.setByte, update_of_ne he, he, false_and, if_false]
      exact h.byte m hm hmt i
  · refine (h.filled m hm hmt hd).congr rfl (fun j hj => ?_)
    rw [h2 m (by rw [h.inodes]; exact hm) hmt]
    exact hj

theorem Backs.patch (h : Backs v D V) (hn : n < V.inodes) (ht : (D n).type ≠ 0) {k o : ℕ}
    (hk : v.addr (D n) k ≠ 0) (hl : o+l.length ≤ BSIZE) :
    let a := (v.addr (D n) k).toNat
    let u := v.write a (putBytes (v.disk a) o l)
    Backs u D (V.setByte n (overlay (V.byte n) (k*BSIZE+o) l)) ∧ Keeps v (D n) u (D n) := by
  intro a u
  obtain ⟨h1,h2⟩ := h.backed.patch hn ht hk hl
  exact ⟨h1.backs,h2⟩

end Yeet.Fs
