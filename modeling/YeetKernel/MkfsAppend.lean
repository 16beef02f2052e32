import YeetKernel.MkfsBuild

/-!
# Appending to a file of the image

One round of `iappend` takes the blocks that the next byte needs and no others,
so the counter `freeblock` follows from the sizes of the files. The whole of it
is a write at the end of the file.
-/

namespace Yeet.Mkfs
open Kernel Bytes FsDisk Fs Function

def Covers (o : ℕ) : Option ℕ → Prop
  | none => NDIRECT*BSIZE < o
  | some k => k*BSIZE < o

def blocks (o : ℕ) : ℕ := (o+BSIZE-1)/BSIZE+if NDIRECT*BSIZE < o then 1 else 0

def reach (o : ℕ) : ℕ := max o (o/BSIZE*BSIZE+1)

theorem blocks_mono {o p : ℕ} (h : o ≤ p) : blocks o ≤ blocks p := by
  have h1 : (o+BSIZE-1)/BSIZE ≤ (p+BSIZE-1)/BSIZE := Nat.div_le_div_right (by omega)
  unfold blocks
  split_ifs <;> omega

theorem reach_le {o p : ℕ} (h : o < p) : reach o ≤ p := by
  have := Nat.div_mul_le_self o BSIZE
  unfold reach
  omega

variable {o o' : ℕ}

theorem covers_reach (h : o < o') (hb : o' ≤ (o/BSIZE+1)*BSIZE) (q : Option ℕ) :
    Covers o' q ↔ Covers (reach o) q := by
  have h1 := Nat.div_mul_le_self o BSIZE
  have h2 := Nat.lt_div_mul_add (a := o) (b := BSIZE) (by decide)
  cases q with
  | none =>
    simp only [Covers, reach, NDIRECT, BSIZE] at *
    omega
  | some k =>
    simp only [Covers, reach, BSIZE] at *
    omega

theorem blocks_reach (h : o < o') (hb : o' ≤ (o/BSIZE+1)*BSIZE) : blocks o' = blocks (reach o) := by
  have h1 : NDIRECT*BSIZE < o' ↔ NDIRECT*BSIZE < reach o := covers_reach h hb none
  have h2 : (o'+BSIZE-1)/BSIZE = (reach o+BSIZE-1)/BSIZE := by
    simp only [reach, BSIZE] at *
    omega
  rw [blocks, blocks, h2]
  simp only [h1]

def Tight (m : Image) (D : ℕ → Dinode) (Z : ℕ → Option ℕ → Prop) : Prop :=
  ∀ j < NINODES, (D j).type ≠ 0 → ∀ q, m.marked.blockAt (D j) q ≠ 0 ↔ Z j q

variable {m w : Image} {D E : ℕ → Dinode} {V : View} {n : ℕ} {z : ℕ → ℕ}
  {Z Y : ℕ → Option ℕ → Prop} {p : Option ℕ} {b : Uint} {k : ℕ}

theorem Tight.congr (h : Tight m D Z) (he : ∀ j q, Z j q ↔ Y j q) : Tight m D Y :=
  fun j hj ht q => (h j hj ht q).trans (he j q)

theorem Tight.placed (h : Tight m D Z) (hp : Placed m.marked D w.marked E n p b) (hb : b ≠ 0)
    (ht : ∀ j, (E j).type ≠ 0 → (D j).type ≠ 0) : Tight w E (fun j q => j = n ∧ q = p ∨ Z j q) := by
  intro j hj hjt q
  rw [hp j hj (ht j hjt)]
  by_cases he : j = n ∧ q = p
  · rw [if_pos he]
    exact iff_of_true hb (Or.inl he)
  · rw [if_neg he, h j hj (ht j hjt) q]
    simp [he]

theorem type_setAddr {k : Fin (NDIRECT+1)} (j : ℕ) :
    (update D n ((D n).setAddr k b) j).type = (D j).type := by
  by_cases he : j = n
  · subst he
    rw [update_self]
    rfl
  · rw [update_of_ne he]

structure Onward (m w : Image) : Prop where
  front : ∀ c < nmeta, w.disk c = m.disk c
  inodes : w.freeinode = m.freeinode

theorem Onward.refl (m : Image) : Onward m m := ⟨fun _ _ => rfl,rfl⟩

theorem Onward.trans {u : Image} (h : Onward m w) (h' : Onward w u) : Onward m u :=
  ⟨fun c hc => (h'.front c hc).trans (h.front c hc),h'.inodes.trans h.inodes⟩

theorem Onward.next (m : Image) : Onward m m.next := ⟨fun _ _ => rfl,rfl⟩

theorem Onward.wsect (m : Image) {c : ℕ} (hc : nmeta ≤ c) (x : DiskBlock) :
    Onward m (Mkfs.wsect c x m) :=
  ⟨fun e he => update_of_ne (by omega) _ _,rfl⟩

structure Allotted (m : Image) (D : ℕ → Dinode) (V : View) (z : ℕ → ℕ) (n : ℕ)
    (x : Uint) (din : Dinode) (w : Image) : Prop where
  base : Base w (update D n din) V
  tight : Tight w (update D n din) (fun j => Covers (update z n (reach (z n)) j))
  addr : w.marked.addr din (z n/BSIZE) = x
  ne : x ≠ 0
  count : w.freeblock+blocks (z n) = m.freeblock+blocks (reach (z n))
  onward : Onward m w

theorem addr_direct (v : Volume) (d : Dinode) (hk : k < NDIRECT) :
    v.addr d k = d.addrs ⟨k,Nat.lt_succ_of_lt hk⟩ := dif_pos hk

theorem addr_indirect (v : Volume) (d : Dinode) (hk : NDIRECT ≤ k) (hi : d.indirect ≠ 0) :
    v.addr d k = getWord (v.disk d.indirect.toNat) (k-NDIRECT) := by
  rw [Volume.addr, dif_neg (by omega), if_neg hi]

section Round

variable (h : Base m D V) (hz : Tight m D (fun j => Covers (z j))) (hn : n < NINODES)
  (ht : (D n).type ≠ 0)

include h hn ht in
theorem Base.indirect_read (hi : (D n).indirect ≠ 0) :
    rsect (D n).indirect.toNat m = .ok (m.marked.disk (D n).indirect.toNat) ∧
      nmeta ≤ (D n).indirect.toNat := by
  obtain ⟨hd,-⟩ := h.taken (n := n) (p := none) ⟨hn,ht,rfl,hi⟩
  exact ⟨rsect_marked (data_ne hd) hd.2,dataStart_eq ▸ hd.1⟩

include h hz hn ht

theorem block_there (hc : z n/BSIZE*BSIZE < z n) :
    ∃ x, block (z n/BSIZE) (D n) m = .ok (x,D n,m) ∧ Allotted m D V z n x (D n) m := by
  have ha : m.marked.addr (D n) (z n/BSIZE) ≠ 0 := (hz n hn ht (some (z n/BSIZE))).mpr hc
  have hr : reach (z n) = z n := by
    unfold reach
    omega
  refine ⟨m.marked.addr (D n) (z n/BSIZE),?_,?_⟩
  · unfold block slot
    by_cases hd : z n/BSIZE < NDIRECT
    · rw [addr_direct _ _ hd] at ha ⊢
      simp only [dif_pos hd, if_neg ha]
    have hi : (D n).indirect ≠ 0 := by
      refine (hz n hn ht none).mpr (Nat.lt_of_le_of_lt ?_ hc)
      exact Nat.mul_le_mul_right _ (Nat.not_lt.mp hd)
    have hi' : (D n).addrs (Fin.last NDIRECT) ≠ 0 := hi
    rw [addr_indirect _ _ (Nat.not_lt.mp hd) hi] at ha ⊢
    simp only [dif_neg hd, if_neg hi', (h.indirect_read hn ht hi).1, bind, Except.bind, if_neg ha]
  · refine ⟨?_,?_,rfl,ha,by rw [hr],Onward.refl m⟩
    · rw [update_eq_self]
      exact h
    · rw [hr, update_eq_self, update_eq_self]
      exact hz

end Round

section Full

variable {k : ℕ}

theorem covers_next (hk : k ≠ NDIRECT) (q : Option ℕ) :
    Covers (reach (k*BSIZE)) q ↔ q = some k ∨ Covers (k*BSIZE) q := by
  have hd : k*BSIZE/BSIZE = k := Nat.mul_div_cancel k (by decide)
  cases q with
  | none =>
    simp only [Covers, reach, hd, NDIRECT, BSIZE] at *
    simp only [reduceCtorEq, false_or]
    omega
  | some i =>
    simp only [Covers, reach, Option.some.injEq, BSIZE]
    omega

theorem covers_first (q : Option ℕ) : Covers (reach (NDIRECT*BSIZE)) q ↔
    q = some NDIRECT ∨ q = none ∨ Covers (NDIRECT*BSIZE) q := by
  cases q with
  | none => simp [Covers, reach, NDIRECT, BSIZE]
  | some i =>
    simp only [Covers, reach, Option.some.injEq, reduceCtorEq, false_or, NDIRECT, BSIZE]
    omega

theorem blocks_next (hk : k ≠ NDIRECT) : blocks (reach (k*BSIZE)) = blocks (k*BSIZE)+1 := by
  have hd : reach (k*BSIZE) = k*BSIZE+1 := by
    rw [reach, Nat.mul_div_cancel k (by decide)]
    omega
  have h1 : (k*BSIZE+1+BSIZE-1)/BSIZE = (k*BSIZE+BSIZE-1)/BSIZE+1 := by
    simp only [BSIZE]
    omega
  have h2 : NDIRECT*BSIZE < k*BSIZE+1 ↔ NDIRECT*BSIZE < k*BSIZE := by
    simp only [NDIRECT, BSIZE] at *
    omega
  rw [hd, blocks, blocks, h1]
  simp only [h2]
  omega

theorem blocks_first : blocks (reach (NDIRECT*BSIZE)) = blocks (NDIRECT*BSIZE)+2 := by decide

variable {k : ℕ}

theorem entry_round {d : Dinode} (hs : slot (Fin.last NDIRECT) d w = (D n,m)) (h : Base m D V)
    (hlt : m.freeblock < FSSIZE) (hn : n < NINODES) (ht : (D n).type ≠ 0)
    (hi : (D n).indirect ≠ 0) (hd : NDIRECT ≤ k) (hmax : k < MAXFILE)
    (h0 : m.marked.addr (D n) k = 0) :
    m.fresh ≠ 0 ∧ ∃ u, block k d w = .ok (m.fresh,D n,u) ∧ Base u D V ∧
      Placed m.marked D u.marked D n (some k) m.fresh ∧ u.freeblock = m.freeblock+1 ∧
      Onward m u := by
  have hj : k-NDIRECT < NINDIRECT := by
    simp only [MAXFILE] at hmax
    omega
  have hback : NDIRECT+(k-NDIRECT) = k := by omega
  obtain ⟨h1,h2,h3⟩ := h.entry hlt hn ht hi hj (by rwa [hback])
  obtain ⟨hread,hmeta⟩ := h.indirect_read hn ht hi
  have hdata := h.taken (n := n) (p := none) ⟨hn,ht,rfl,hi⟩
  have hdisk : m.marked.disk (D n).indirect.toNat = m.disk (D n).indirect.toNat :=
    marked_disk (data_ne hdata.1)
  rw [hback] at h3
  rw [addr_indirect _ _ hd hi, hdisk] at h0
  rw [hdisk] at hread
  refine ⟨h1,_,?_,h2,h3,rfl,(Onward.next m).trans (Onward.wsect _ hmeta _)⟩
  unfold block
  simp only [dif_neg (Nat.not_lt.mpr hd), hs, hread, bind, Except.bind, if_pos h0]

variable (h : Base m D V) (hz : Tight m D (fun j => Covers (z j))) (hn : n < NINODES)
  (ht : (D n).type ≠ 0) (hk : z n = k*BSIZE)
  (hroom : m.freeblock+blocks (reach (k*BSIZE)) ≤ FSSIZE+blocks (k*BSIZE))

include hk in
theorem full_div : z n/BSIZE = k := by
  rw [hk]
  exact Nat.mul_div_cancel k (by decide)

include hz hn ht hk in
theorem full_addr : m.marked.addr (D n) k = 0 := by
  by_contra hc
  have : k*BSIZE < z n := (hz n hn ht (some k)).mp hc
  omega

include h hz hn ht hk hroom

theorem block_direct (hd : k < NDIRECT) :
    ∃ x din w, block k (D n) m = .ok (x,din,w) ∧ Allotted m D V z n x din w := by
  have hne : k ≠ NDIRECT := by omega
  rw [blocks_next hne] at hroom
  have h0 := full_addr hz hn ht hk
  rw [addr_direct _ _ hd] at h0
  obtain ⟨h1,h2,h3⟩ := h.slot (by omega) hn ht h0
  have hplace : placeOf ⟨k,Nat.lt_succ_of_lt hd⟩ = some k := by
    rw [placeOf, if_neg]
    intro e
    have := congrArg Fin.val e
    simp only [Fin.val_last] at this
    omega
  rw [hplace] at h3
  have haddr := h3 n hn ht (some k)
  rw [if_pos ⟨rfl,rfl⟩, update_self] at haddr
  refine ⟨m.fresh,(D n).setAddr ⟨k,Nat.lt_succ_of_lt hd⟩ m.fresh,m.next,?_,h2,?_,?_,h1,?_,
    Onward.next m⟩
  · unfold block slot
    simp only [dif_pos hd, if_pos h0, addrs_setAddr, update_self]
  · refine (hz.placed h3 h1 (fun j hj => by rwa [type_setAddr] at hj)).congr (fun j q => ?_)
    by_cases he : j = n
    · subst he
      rw [update_self, hk, covers_next hne]
      simp
    · rw [update_of_ne he]
      simp [he]
  · rw [full_div hk]
    exact haddr
  · rw [hk, blocks_next hne]
    show m.freeblock+1+_ = _
    omega

theorem block_entry (hd : NDIRECT < k) (hmax : k < MAXFILE) :
    ∃ x din w, block k (D n) m = .ok (x,din,w) ∧ Allotted m D V z n x din w := by
  have hne : k ≠ NDIRECT := by omega
  rw [blocks_next hne] at hroom
  have hi : (D n).indirect ≠ 0 := by
    refine (hz n hn ht none).mpr ?_
    simp only [Covers, hk]
    exact Nat.mul_lt_mul_of_pos_right hd (by decide)
  have hs : slot (Fin.last NDIRECT) (D n) m = (D n,m) := if_neg hi
  obtain ⟨h1,u,hu,h2,h3,hcount,hon⟩ := entry_round hs h (by omega) hn ht hi (Nat.le_of_lt hd) hmax
    (full_addr hz hn ht hk)
  have haddr := h3 n hn ht (some k)
  rw [if_pos ⟨rfl,rfl⟩] at haddr
  refine ⟨m.fresh,D n,u,hu,?_,?_,?_,h1,?_,hon⟩
  · rw [update_eq_self]
    exact h2
  · rw [update_eq_self]
    refine (hz.placed h3 h1 (fun j hj => hj)).congr (fun j q => ?_)
    by_cases he : j = n
    · subst he
      rw [update_self, hk, covers_next hne]
      simp
    · rw [update_of_ne he]
      simp [he]
  · rw [full_div hk]
    exact haddr
  · rw [hk, blocks_next hne, hcount]
    omega

theorem block_first (hd : k = NDIRECT) :
    ∃ x din w, block k (D n) m = .ok (x,din,w) ∧ Allotted m D V z n x din w := by
  subst hd
  rw [blocks_first] at hroom
  have hi : (D n).addrs (Fin.last NDIRECT) = 0 := by
    by_contra hc
    have : NDIRECT*BSIZE < z n := (hz n hn ht none).mp hc
    omega
  obtain ⟨h1,h2,h3⟩ := h.slot (by omega) hn ht hi
  have hplace : placeOf (Fin.last NDIRECT) = none := if_pos rfl
  rw [hplace] at h3
  generalize hE : update D n ((D n).setAddr (Fin.last NDIRECT) m.fresh) = E at h2 h3
  have hEn : E n = (D n).setAddr (Fin.last NDIRECT) m.fresh := by rw [← hE, update_self]
  have hs : slot (Fin.last NDIRECT) (D n) m = (E n,m.next) := by
    rw [slot, if_pos hi, hEn]
  have hti : (E n).type ≠ 0 := by
    rw [hEn]
    exact ht
  have hin : (E n).indirect ≠ 0 := by
    have := h3 n hn ht none
    rw [if_pos ⟨rfl,rfl⟩] at this
    rw [show (E n).indirect = m.fresh from this]
    exact h1
  have h0 : m.next.marked.addr (E n) NDIRECT = 0 := by
    have := h3 n hn ht (some NDIRECT)
    rw [if_neg (by simp)] at this
    exact this.trans (full_addr hz hn ht hk)
  have hlt : m.next.freeblock < FSSIZE := by
    show m.freeblock+1 < FSSIZE
    omega
  obtain ⟨h4,u,hu,h5,h6,hcount,hon⟩ := entry_round hs h2 hlt hn hti hin (Nat.le_refl _)
    (by decide) h0
  have haddr := h6 n hn hti (some NDIRECT)
  rw [if_pos ⟨rfl,rfl⟩] at haddr
  have hback : update D n (E n) = E := by
    rw [hEn, hE]
  have htype : ∀ j, (E j).type ≠ 0 → (D j).type ≠ 0 := by
    intro j hj
    rwa [← hE, type_setAddr] at hj
  refine ⟨m.next.fresh,E n,u,hu,?_,?_,?_,h4,?_,(Onward.next m).trans hon⟩
  · rw [hback]
    exact h5
  · rw [hback]
    refine ((hz.placed h3 h1 htype).placed h6 h4 (fun j hj => hj)).congr (fun j q => ?_)
    by_cases he : j = n
    · subst he
      rw [update_self, hk, covers_first]
      simp
    · rw [update_of_ne he]
      simp [he]
  · rw [full_div hk]
    exact haddr
  · rw [hk, blocks_first, hcount]
    show m.freeblock+1+1+_ = _
    omega

end Full

theorem block_spec (h : Base m D V) (hz : Tight m D (fun j => Covers (z j))) (hn : n < NINODES)
    (ht : (D n).type ≠ 0) (hmax : z n < MAXFILE*BSIZE)
    (hroom : m.freeblock+blocks (reach (z n)) ≤ FSSIZE+blocks (z n)) :
    ∃ x din w, block (z n/BSIZE) (D n) m = .ok (x,din,w) ∧ Allotted m D V z n x din w := by
  have hle := Nat.div_mul_le_self (z n) BSIZE
  rcases Nat.lt_or_eq_of_le hle with hlt | heq
  · obtain ⟨x,h1,h2⟩ := block_there h hz hn ht hlt
    exact ⟨x,D n,m,h1,h2⟩
  rw [← heq] at hroom
  have hM : z n/BSIZE < MAXFILE := (Nat.div_lt_iff_lt_mul (by decide)).mpr hmax
  rcases Nat.lt_trichotomy (z n/BSIZE) NDIRECT with hd | hd | hd
  · exact block_direct h hz hn ht heq.symm hroom hd
  · exact block_first h hz hn ht heq.symm hroom hd
  · exact block_entry h hz hn ht heq.symm hroom hd hM

structure Appended (m : Image) (D : ℕ → Dinode) (V : View) (z : ℕ → ℕ) (n o : ℕ) (din : Dinode)
    (w : Image) : Prop where
  base : Base w (update D n din) V
  tight : Tight w (update D n din) (fun j => Covers (update z n o j))
  count : w.freeblock+blocks (z n) = m.freeblock+blocks o
  onward : Onward m w

theorem Allotted.patch {x : Uint} {din : Dinode} (h : Allotted m D V z n x din w)
    (hn : n < NINODES) (ht : din.type ≠ 0) {l : List Byte} (hl : 0 < l.length)
    (hb : z n+l.length ≤ (z n/BSIZE+1)*BSIZE) : rsect x.toNat w = .ok (w.disk x.toNat) ∧
      Appended m D (V.setByte n (overlay (V.byte n) (z n) l)) z n (z n+l.length) din
        (wsect x.toNat (putBytes (w.disk x.toNat) (z n-z n/BSIZE*BSIZE) l) w) := by
  have hle := Nat.div_mul_le_self (z n) BSIZE
  have hE : update D n din n = din := update_self _ _ _
  have htE : (update D n din n).type ≠ 0 := by rwa [hE]
  have haddr : w.marked.addr (update D n din n) (z n/BSIZE) = x := by
    rw [hE]
    exact h.addr
  have hx : w.marked.addr (update D n din n) (z n/BSIZE) ≠ 0 := by
    rw [haddr]
    exact h.ne
  obtain ⟨hd,hlt⟩ := h.base.taken (ref_addr hn htE hx)
  rw [haddr] at hd hlt
  have hdisk : w.marked.disk x.toNat = w.disk x.toNat := marked_disk (data_ne hd)
  have hn' : n < V.inodes := by rwa [h.base.inodes]
  have hfit : z n-z n/BSIZE*BSIZE+l.length ≤ BSIZE := by
    rw [Nat.succ_mul] at hb
    omega
  have hp := (h.base.backs.patch hn' htE hx hfit).1
  have hw := (h.base.backs.owned.write_byte hn htE hx
    (putBytes (w.disk x.toNat) (z n-z n/BSIZE*BSIZE) l)).2.1
  rw [haddr] at hp hw
  simp only [hdisk, Nat.add_sub_cancel' hle] at hp
  have hmeta : nmeta ≤ x.toNat := dataStart_eq ▸ hd.1
  refine ⟨?_,⟨h.base.wsect hlt (data_ne hd) hp,fun j hj hjt q => ?_,?_,
    h.onward.trans (Onward.wsect w hmeta _)⟩⟩
  · rw [← hdisk]
    exact rsect_marked (data_ne hd) hd.2
  · have hsame : (wsect x.toNat (putBytes (w.disk x.toNat) (z n-z n/BSIZE*BSIZE) l) w).marked.blockAt
        (update D n din j) q = w.marked.blockAt (update D n din j) q := by
      rw [marked_wsect _ (data_ne hd)]
      cases q with
      | none => rfl
      | some k => exact hw j hj hjt k
    rw [hsame, h.tight j hj hjt q]
    by_cases he : j = n
    · subst he
      simp only [update_self]
      exact (covers_reach (by omega) hb q).symm
    · simp only [update_of_ne he]
  · show w.freeblock+_ = _
    rw [h.count]
    rw [blocks_reach (by omega) hb]

theorem appendLoop_spec (hn : n < NINODES) (fuel : ℕ) :
    ∀ (m : Image) (D : ℕ → Dinode) (V : View) (z : ℕ → ℕ) (l : List Byte), Base m D V →
      Tight m D (fun j => Covers (z j)) → (D n).type ≠ 0 → l.length ≤ fuel →
      z n+l.length ≤ MAXFILE*BSIZE → m.freeblock+blocks (z n+l.length) ≤ FSSIZE+blocks (z n) →
      ∃ din w, appendLoop fuel (D n) (z n) l m = .ok (din,z n+l.length,w) ∧
        Appended m D (V.setByte n (overlay (V.byte n) (z n) l)) z n (z n+l.length) din w := by
  have hdone : ∀ (m : Image) (D : ℕ → Dinode) (V : View) (z : ℕ → ℕ), Base m D V →
      Tight m D (fun j => Covers (z j)) →
      Appended m D (V.setByte n (overlay (V.byte n) (z n) [])) z n (z n+0) (D n) m := by
    intro m D V z h hz
    rw [overlay_nil, setByte_self]
    refine ⟨?_,?_,rfl,Onward.refl m⟩
    · rw [update_eq_self]
      exact h
    · rw [Nat.add_zero, update_eq_self, update_eq_self]
      exact hz
  induction fuel with
  | zero =>
    intro m D V z l h hz ht hl hmax hroom
    have hnil : l = [] := List.eq_nil_of_length_eq_zero (by omega)
    subst hnil
    exact ⟨D n,m,rfl,hdone m D V z h hz⟩
  | succ fuel ih =>
    intro m D V z l h hz ht hl hmax hroom
    by_cases hnil : l = []
    · subst hnil
      exact ⟨D n,m,rfl,hdone m D V z h hz⟩
    have hpos : 0 < l.length := List.length_pos_iff.mpr hnil
    have hlt := Nat.lt_div_mul_add (a := z n) (b := BSIZE) (by decide)
    have hM : z n/BSIZE < MAXFILE := (Nat.div_lt_iff_lt_mul (by decide)).mpr (by omega)
    have hr := blocks_mono (reach_le (o := z n) (p := z n+l.length) (by omega))
    obtain ⟨x,din,w,hblock,ha⟩ := block_spec h hz hn ht (by omega) (by omega)
    have htd : din.type ≠ 0 := by
      have h1 := ha.base.backs.node n (by rwa [ha.base.inodes])
      have h2 := h.backs.node n (by rwa [h.inodes])
      rw [update_self, h2] at h1
      rw [show din.type = (D n).type from (congrArg Dinode.type h1).symm]
      exact ht
    have hfirst : 0 < (z n/BSIZE+1)*BSIZE-z n := by
      rw [Nat.succ_mul]
      omega
    generalize hn1 : min l.length ((z n/BSIZE+1)*BSIZE-z n) = n1
    have hlen : (l.take n1).length = n1 := by
      rw [List.length_take]
      omega
    obtain ⟨hread,hap⟩ := ha.patch hn htd (l := l.take n1) (by omega) (by omega)
    rw [hlen] at hap
    obtain ⟨din2,w2,hrest,hlast⟩ := ih _ (update D n din) _ (update z n (z n+n1)) (l.drop n1) hap.base
      hap.tight (by rwa [update_self]) (by rw [List.length_drop]; omega)
      (by rw [update_self, List.length_drop]; omega)
      (by
        have := hap.count
        rw [update_self, List.length_drop, show z n+n1+(l.length-n1) = z n+l.length by omega]
        omega)
    have hall : z n+n1+(l.drop n1).length = z n+l.length := by
      rw [List.length_drop]
      omega
    have hoff : z n+n1 = z n+(l.take n1).length := by rw [hlen]
    rw [update_self, update_self, hall] at hrest
    rw [update_self, hall] at hlast
    have hview : (V.setByte n (overlay (V.byte n) (z n) (l.take n1))).setByte n
        (overlay ((V.setByte n (overlay (V.byte n) (z n) (l.take n1))).byte n) (z n+n1)
          (l.drop n1)) = V.setByte n (overlay (V.byte n) (z n) l) := by
      rw [setByte_setByte, hoff]
      simp only [View.setByte, update_self]
      rw [overlay_append, List.take_append_drop]
    rw [hview] at hlast
    refine ⟨din2,w2,?_,?_,?_,?_,hap.onward.trans hlast.onward⟩
    · unfold appendLoop
      simp only [List.isEmpty_iff, hnil, if_false, hM, if_true, hblock, bind, Except.bind, hread, hn1]
      exact hrest
    · have := hlast.base
      rwa [update_idem] at this
    · have := hlast.tight
      simp only [update_idem] at this
      exact this
    have h1 := hap.count
    have h2 := hlast.count
    rw [update_self] at h2
    omega

end Yeet.Mkfs
