import YeetKernel.FsAlloc

/-!
# Files as arrays of bytes

What `writei` and `readi` do to an inode that is in memory, on any volume in
order: every way they can end, with what they leave behind. The block an inode
lacks is taken from the free ones, and the other inodes keep their bytes.
-/

namespace Yeet.Fs
open Kernel Bytes FsDisk Resumption Function

/-- The volume is in order and slot `i` has the current copy of an inode. -/
structure Sound (loose : List Uint) (V : View) (i : Ino) (s : State) : Prop where
  backed : Backed loose s.vol s.vol.dinode V
  lt : s.num i < V.inodes
  din : (s.inode i).din = s.vol.dinode (s.num i)
  type : (s.inode i).din.type ≠ 0

/-- A write has got so far that there are blocks up to `z`, and will end at `y`. -/
structure Filling (loose : List Uint) (D : ℕ → Dinode) (V : View) (i : Ino) (n z y : ℕ) (s : State) :
    Prop where
  backed : Backed loose s.vol D V
  lt : n < V.inodes
  num : s.num i = n
  din : (s.inode i).din = D n
  type : (D n).type ≠ 0
  disk : ∀ m < V.inodes, m ≠ n → s.vol.dinode m = D m
  covers : V.size n ≤ z
  there : ∀ k, k*BSIZE < z → s.vol.addr (D n) k ≠ 0
  stale : s.vol.dinode n = D n ∨ V.size n < y

variable {loose : List Uint} {V : View} {i : Ino} {n z y : ℕ} {s s' : State} {D D' : ℕ → Dinode}
variable {o : ℕ} {l : List Byte} {v : Volume} {off : ℕ}

theorem owned_dinode_congr (h : Owned v D loose)
    (hD : ∀ m < v.sb.ninodes, D' m = D m) : Owned v D' loose := by
  refine h.congr rfl rfl (fun _ _ => rfl) h.front (fun m hm => ?_) (fun m hm _ p => ?_)
  · rw [hD m hm]
  · rw [hD m hm]

theorem Backed.dinode_congr (h : Backed loose v D V)
    (hD : ∀ m < V.inodes, D' m = D m) : Backed loose v D' V := by
  constructor
  case owned => exact owned_dinode_congr h.owned (by rw [h.inodes]; exact hD)
  case inodes => exact h.inodes
  case node =>
    intro m hm
    rw [hD m hm]
    exact h.node m hm
  case byte =>
    intro m hm
    rw [hD m hm]
    exact h.byte m hm
  case filled =>
    intro m hm
    rw [hD m hm]
    exact h.filled m hm

theorem Changed.num (h : Changed i s s') : s'.num i = s.num i := by
  obtain ⟨v,d,rfl⟩ := h
  rw [State.num, inode_setInode, State.num]

theorem Sound.node (h : Sound loose V i s) : V.node (s.num i) = bare (s.inode i).din := by
  rw [h.din]
  exact h.backed.node _ h.lt

theorem Sound.size (h : Sound loose V i s) : (s.inode i).din.size.toNat = V.size (s.num i) := by
  rw [View.size, h.node]
  rfl

theorem Sound.filled (h : Sound loose V i s) (hd : (s.inode i).din.type ≠ T_DEV) :
    Filled s.vol (s.inode i).din := by
  have ht := h.type
  rw [h.din] at ht hd ⊢
  exact h.backed.filled _ h.lt ht hd

theorem Sound.start (h : Sound loose V i s) (hd : (s.inode i).din.type ≠ T_DEV) (y : ℕ) :
    Filling loose s.vol.dinode V i (s.num i) (V.size (s.num i)) y s := by
  constructor
  case backed => exact h.backed
  case lt => exact h.lt
  case num => rfl
  case din => exact h.din
  case type =>
    rw [← h.din]
    exact h.type
  case disk => exact fun _ _ _ => rfl
  case covers => exact Nat.le_refl _
  case there =>
    intro k hk
    rw [← h.size] at hk
    rw [← h.din]
    exact (h.filled hd).block k hk
  case stale => exact Or.inl rfl

theorem Filling.mapped (h : Filling loose D V i n z y s) (hz : off ≤ z) (hy : off < y)
    (hm : Mapped loose V i n (off/BSIZE) s D s' D') :
    Filling loose D' V i n (max z (off/BSIZE*BSIZE+1)) y s' := by
  have hle := Nat.div_mul_le_self off BSIZE
  constructor
  case backed => exact hm.backed
  case lt => exact h.lt
  case num => exact hm.changed.num.trans h.num
  case din => exact hm.din
  case type =>
    have ht : (bare (D' n)).type = (bare (D n)).type := by rw [hm.node]
    change (D' n).type = (D n).type at ht
    rw [ht]
    exact h.type
  case disk =>
    intro m h1 h2
    rw [hm.disk m h1, hm.other m h2]
    exact h.disk m h1 h2
  case covers => exact Nat.le_trans h.covers (Nat.le_max_left _ _)
  case there =>
    intro k hk
    by_cases e : k = off/BSIZE
    · rw [e]
      exact hm.there
    · rw [hm.addr k e]
      exact h.there k (below_next hz hk e)
  case stale =>
    by_cases h0 : s.vol.addr (D n) (off/BSIZE) = 0
    · right
      have : ¬ off/BSIZE*BSIZE < V.size n := fun hlt =>
        h.there _ (Nat.lt_of_lt_of_le hlt h.covers) h0
      omega
    · obtain ⟨h1,rfl⟩ := hm.same h0
      rw [h1]
      exact h.stale

section Patch

variable (h : Filling loose D V i n z y s) {off : ℕ} {l : List Byte}
  (hb : s.vol.addr (D n) (off/BSIZE) ≠ 0)

include h hb

theorem Filling.data : InData s.vol.sb (s.vol.addr (D n) (off/BSIZE)) :=
  h.backed.owned.range _ _ _ (ref_addr (by rw [h.backed.inodes]; exact h.lt) h.type hb)

theorem Filling.patch_addr (k : ℕ) :
    (s.patch (s.vol.addr (D n) (off/BSIZE)).toNat (off%BSIZE) l).vol.addr (D n) k =
      s.vol.addr (D n) k := by
  have hn : n < s.vol.sb.ninodes := by
    rw [h.backed.inodes]
    exact h.lt
  exact (h.backed.owned.write_byte hn h.type hb _).2.1 n hn h.type k

theorem Filling.patch (hfit : off%BSIZE+l.length ≤ BSIZE) :
    Filling loose D (V.setByte n (overlay (V.byte n) off l)) i n z y
      (s.patch (s.vol.addr (D n) (off/BSIZE)).toNat (off%BSIZE) l) := by
  have hpatch := (h.backed.patch h.lt h.type hb hfit).1
  rw [Nat.div_add_mod'] at hpatch
  have hdin : ∀ m < V.inodes, (s.patch (s.vol.addr (D n) (off/BSIZE)).toNat (off%BSIZE) l).vol.dinode
      m = s.vol.dinode m := fun m hm =>
    dinode_write_data h.backed.owned.laid (h.data hb) (by rw [h.backed.inodes]; exact hm) _
  constructor
  case backed => exact hpatch
  case lt => exact h.lt
  case num => exact h.num
  case din => exact h.din
  case type => exact h.type
  case disk =>
    intro m h1 h2
    rw [hdin m h1]
    exact h.disk m h1 h2
  case covers => exact h.covers
  case there =>
    intro k hk
    rw [h.patch_addr hb]
    exact h.there k hk
  case stale =>
    rw [hdin n h.lt]
    exact h.stale

theorem Filling.patch_missing (o x : ℕ) :
    (s.patch (s.vol.addr (D n) (off/BSIZE)).toNat (off%BSIZE) l).vol.missing (D n) o x =
      s.vol.missing (D n) o x := by
  simp only [Volume.missing, h.patch_addr hb]

theorem Filling.patch_free :
    (s.patch (s.vol.addr (D n) (off/BSIZE)).toNat (off%BSIZE) l).vol.free = s.vol.free :=
  free_write_data (h.data hb) _

theorem Filling.patch_spans {w : Volume} {e : Dinode} {o x : ℕ}
    (hs : Spans (s.patch (s.vol.addr (D n) (off/BSIZE)).toNat (off%BSIZE) l).vol (D n) w e o x) :
    Spans s.vol (D n) w e o x where
  there := hs.there
  addr := fun k hk => (hs.addr k hk).trans (h.patch_addr hb k)
  indirect := hs.indirect
  free := by
    have hfree := hs.free
    rw [h.patch_missing hb, h.patch_free hb] at hfree
    exact hfree

end Patch

theorem Mapped.spans {w : Volume} {e : Dinode} (hoff : off < y)
    (hm : Mapped loose V i n (off/BSIZE) s D s' D')
    (hs : Spans s'.vol (D' n) w e (off+min (y-off) (BSIZE-off%BSIZE)) y) :
    Spans s.vol (D n) w e off y := by
  have hstep := touched_step hoff
  have hnot : off/BSIZE ∉ touched (off+min (y-off) (BSIZE-off%BSIZE)) y := fun hk =>
    Nat.lt_irrefl _ (touched_later hk)
  constructor
  case there =>
    intro k hk
    rw [hstep] at hk
    rcases Finset.mem_insert.mp hk with rfl | hk
    · rw [hs.addr _ hnot]
      exact hm.there
    · exact hs.there k hk
  case addr =>
    intro k hk
    rw [hstep, Finset.mem_insert, not_or] at hk
    rw [hs.addr k hk.2, hm.addr k hk.1]
  case indirect =>
    rw [hs.indirect, hm.indirect, hstep]
    simp only [Finset.forall_mem_insert, and_assoc]
  case free =>
    have h1 := missing_step hoff hm.addr hm.indirect
    have h2 := hs.free
    have h3 := hm.free
    omega

theorem Filling.grow (h : Filling loose D V i n z y s) {z' : ℕ} (hz : z ≤ z')
    (ht : ∀ k, k*BSIZE < z' → s.vol.addr (D n) k ≠ 0) : Filling loose D V i n z' y s :=
  {h with covers := Nat.le_trans h.covers hz, there := ht}

theorem ends_writeBlocks (hmax : y ≤ MAXFILE*BSIZE) (fuel : ℕ) :
    ∀ (D : ℕ → Dinode) (V : View) (z : ℕ) (s : State) (off : ℕ) (src : List Byte)
      (Q : Outcome State Fault ℕ → Prop), Filling loose D V i n z y s → off ≤ z →
      off+src.length = y → src.length ≤ fuel →
      (∀ D' s', Filling loose D' (V.setByte n (overlay (V.byte n) off src)) i n (max z y) y s' →
        Changed i s s' → Spans s.vol (D n) s'.vol (D' n) off y → Q (some (.ok (y,s')))) →
      (s.vol.free < s.vol.missing (D n) off y → Q (some (.error (.panic "balloc: out of blocks")))) →
      Ends (writeBlocks i fuel off src) Q s := by
  have hend : ∀ (D : ℕ → Dinode) (V : View) (z : ℕ) (s : State) (off : ℕ)
      (Q : Outcome State Fault ℕ → Prop), Filling loose D V i n z y s → off ≤ z → off = y →
      (∀ D' s', Filling loose D' (V.setByte n (overlay (V.byte n) off [])) i n (max z y) y s' →
        Changed i s s' → Spans s.vol (D n) s'.vol (D' n) off y → Q (some (.ok (y,s')))) →
      Ends (pure off : FsProg ℕ) Q s := by
    intro D V z s off Q h hz hy hQ
    subst hy
    rw [overlay_nil, setByte_self, Nat.max_eq_left hz] at hQ
    exact ends_pure (hQ D s h (changed_refl i s) (spans_empty _ _ (Nat.le_refl _)))
  induction fuel with
  | zero =>
    intro D V z s off src Q h hz hy hf hQ hfull
    obtain rfl : src = [] := List.eq_nil_of_length_eq_zero (by omega)
    exact hend D V z s off Q h hz hy hQ
  | succ fuel ih =>
    intro D V z s off src Q h hz hy hf hQ hfull
    unfold writeBlocks
    split
    · rename_i h0
      subst h0
      exact hend D V z s off Q h hz hy hQ
    rename_i h0
    have hpos : 0 < src.length := List.length_pos_iff.mpr h0
    have hmod := Nat.mod_lt off (show 0 < BSIZE by decide)
    have hdiv := Nat.div_mul_le_self off BSIZE
    have hlen : src.length = y-off := by omega
    set m := min src.length (BSIZE-off%BSIZE) with hm
    have htake : (src.take m).length = m := by
      rw [List.length_take]
      omega
    refine ends_bind (ends_bmap h.backed h.lt h.type h.din (blockNo_lt (by omega))
      (fun s₁ D₁ hmap => ?_) (fun hlack => ?_))
    · have hstep := missing_step (y := y) (show off < y by omega) hmap.addr hmap.indirect
      rw [← hlen, ← hm] at hstep
      have hcount := hmap.free
      have h₁ := h.mapped hz (by omega) hmap
      have hp := h₁.patch hmap.there (l := src.take m) (by rw [htake]; omega)
      have hin : ∀ k, k*BSIZE < max z (off+m) → k*BSIZE < max z (off/BSIZE*BSIZE+1) :=
        fun k hk => within_block (by omega) hk
      have hg := hp.grow (by omega) (fun k hk => hp.there k (hin k hk))
      apply ends_bind
      apply ends_atom
      refine ih _ _ _ _ (off+m) (src.drop m) Q hg (Nat.le_max_right _ _) ?_ ?_
        (fun D₂ s₂ h₂ hch hspan => ?_) (fun hlack => ?_)
      · rw [List.length_drop]
        omega
      · rw [List.length_drop]
        omega
      · rw [setByte_setByte, show (V.setByte n _).byte n = _ from update_self _ _ _] at h₂
        have hover := overlay_append (V.byte n) off (src.take m) (src.drop m)
        rw [htake, List.take_append_drop] at hover
        rw [hover, show max (max z (off+m)) y = max z y by omega] at h₂
        refine hQ D₂ s₂ h₂ (hmap.changed.trans (Changed.trans (changed_vol i s₁ _) hch)) ?_
        have hspan' := h₁.patch_spans hmap.there hspan
        rw [hm, hlen] at hspan'
        exact hmap.spans (by omega) hspan'
      · rw [h₁.patch_missing hmap.there, h₁.patch_free hmap.there] at hlack
        apply hfull
        omega
    · apply hfull
      exact Nat.lt_of_lt_of_le hlack (lacks_le_missing (by omega))

section

variable (h : Filling loose D (V.setByte n (overlay (V.byte n) o l)) i n z (o+l.length) s)
include h

theorem Filling.raise
    (hz : o+l.length ≤ z) (hmax : o+l.length ≤ MAXFILE*BSIZE) (hsize : V.size n < o+l.length) :
    Sound loose (V.write n o l) i
      (s.store i (fun d => {d with size := BitVec.ofNat 32 (o+l.length)})) := by
  have hbig : MAXFILE*BSIZE < 2^32 := by decide
  have hto : (BitVec.ofNat 32 (o+l.length)).toNat = o+l.length := by
    rw [BitVec.toNat_ofNat]
    exact Nat.mod_eq_of_lt (by omega)
  have hres := h.backed.resize (n := n) (z := BitVec.ofNat 32 (o+l.length)) (by rw [hto]; exact hmax)
    (fun k hk => h.there k (by rw [hto] at hk; omega))
  have hW : (V.setByte n (overlay (V.byte n) o l)).setNode n
      (bare {D n with size := BitVec.ofNat 32 (o+l.length)}) = V.write n o l := by
    have hnode : V.node n = bare (D n) := h.backed.node n h.lt
    rw [← write_raise hsize, hnode]
    rfl
  rw [hW] at hres
  constructor
  case backed =>
    rw [store_vol, h.num, h.din]
    refine (hres.setDinode h.lt _).dinode_congr (fun m hm => ?_)
    by_cases e : m = n
    · subst e
      rw [update_self]
      exact dinode_setDinode _
    · rw [update_of_ne e]
      exact (dinode_setDinode_ne _ e).trans (h.disk m hm e)
  case lt =>
    rw [store_num, h.num]
    exact h.lt
  case din =>
    rw [store_num, store_inode, store_vol]
    exact (dinode_setDinode _).symm
  case type =>
    rw [store_inode]
    show (s.inode i).din.type ≠ 0
    rw [h.din]
    exact h.type

theorem Filling.inside (hsize : o+l.length ≤ V.size n) : Sound loose (V.write n o l) i s := by
  have hdisk : s.vol.dinode n = D n := h.stale.resolve_right (Nat.not_lt.mpr hsize)
  rw [← write_inside hsize]
  constructor
  case backed =>
    refine h.backed.dinode_congr (fun m hm => ?_)
    by_cases e : m = n
    · rw [e]
      exact hdisk
    · exact h.disk m hm e
  case lt =>
    rw [h.num]
    exact h.lt
  case din => rw [h.num, hdisk, h.din]
  case type =>
    rw [h.din]
    exact h.type

theorem Filling.extend
    (hz : o+l.length ≤ z) (hmax : o+l.length ≤ MAXFILE*BSIZE) (hoff : o ≤ V.size n) :
    Sound loose (V.write n o l) i (s.extend i (BitVec.ofNat 32 l.length) (o+l.length)) ∧
      Changed i s (s.extend i (BitVec.ofNat 32 l.length) (o+l.length)) ∧
      ∀ v d x, Spans v d s.vol (D n) o x →
        Spans v d (s.extend i (BitVec.ofNat 32 l.length) (o+l.length)).vol
          ((s.extend i (BitVec.ofNat 32 l.length) (o+l.length)).inode i).din o x := by
  have hbig : MAXFILE*BSIZE < 2^32 := by decide
  have hsz : (s.inode i).din.size.toNat = V.size n := by
    have hnode : V.node n = bare (D n) := h.backed.node n h.lt
    rw [h.din, View.size, hnode]
    rfl
  unfold State.extend
  rw [hsz]
  split
  · rename_i hc
    refine ⟨h.raise hz hmax hc.2,⟨_,_,store_eq s i _⟩,fun v d x hs => ?_⟩
    rw [store_vol, store_inode, h.num, h.din]
    refine hs.same_addr (fun k => ?_) rfl ?_
    · rw [← h.backed.addr_setDinode h.lt {D n with size := BitVec.ofNat 32 (o+l.length)} h.lt h.type k]
      exact addr_congr rfl (fun _ => rfl) k
    · exact free_setDinode h.backed.owned.laid (by rw [h.backed.inodes]; exact h.lt) _
  rename_i hc
  refine ⟨h.inside ?_,changed_refl i s,fun v d x hs => by rw [h.din]; exact hs⟩
  by_contra hlt
  refine hc ⟨?_,Nat.not_le.mp hlt⟩
  show (0#32).toNat < (BitVec.ofNat 32 l.length).toNat
  rw [BitVec.toNat_ofNat, BitVec.toNat_ofNat, Nat.mod_eq_of_lt (a := l.length) (by omega)]
  omega

end

def Refused (size off n : ℕ) : Prop := size < off ∨ 2^32 ≤ off+n ∨ MAXFILE*BSIZE < off+n

theorem ends_writei (h : Sound loose V i s) (hd : (s.inode i).din.type ≠ T_DEV) {src : List Byte}
    (hlen : src.length < 2^32) (off : Uint) {Q : Outcome State Fault ℤ → Prop}
    (hno : Refused (V.size (s.num i)) off.toNat src.length → Q (some (.ok (-1,s))))
    (hyes : ¬ Refused (V.size (s.num i)) off.toNat src.length → ∀ s',
      Sound loose (V.write (s.num i) off.toNat src) i s' → Changed i s s' →
      Spans s.vol (s.inode i).din s'.vol (s'.inode i).din off.toNat (off.toNat+src.length) →
      Q (some (.ok (src.length,s')))) (hfull : ¬ Refused (V.size (s.num i)) off.toNat src.length →
      s.vol.free < s.vol.missing (s.inode i).din off.toNat (off.toNat+src.length) →
      Q (some (.error (.panic "balloc: out of blocks")))) : Ends (writei i src off) Q s := by
  have hbig : MAXFILE*BSIZE < 2^31 := by decide
  have hn : (BitVec.ofNat 32 src.length).toNat = src.length := Nat.mod_eq_of_lt hlen
  have hcond : ((s.inode i).din.size < off ∨ off+BitVec.ofNat 32 src.length < off) ↔
      V.size (s.num i) < off.toNat ∨ 2^32 ≤ off.toNat+src.length := by
    rw [BitVec.lt_def, BitVec.lt_def, BitVec.toNat_add, hn, h.size]
    have := off.isLt
    omega
  unfold writei
  apply ends_bind
  apply ends_atom
  show Ends (if (s.inode i).din.type = T_DEV then _ else _) Q s
  rw [if_neg hd]
  split
  · rename_i hc
    apply ends_pure
    apply hno
    rcases hcond.mp hc with h1 | h1
    · exact Or.inl h1
    · exact Or.inr (Or.inl h1)
  rename_i hc
  rw [hcond] at hc
  have hsum : (off+BitVec.ofNat 32 src.length).toNat = off.toNat+src.length := by
    rw [BitVec.toNat_add, hn]
    exact Nat.mod_eq_of_lt (by omega)
  rw [hsum]
  split
  · rename_i hmax
    exact ends_pure (hno (Or.inr (Or.inr hmax)))
  rename_i hmax
  have hok : ¬ Refused (V.size (s.num i)) off.toNat src.length := by
    unfold Refused
    omega
  have hint : (BitVec.ofNat 32 src.length).toInt = (src.length : ℤ) := by
    rw [BitVec.toInt_eq_toNat_of_lt (by rw [hn]; omega), hn]
  refine ends_bind (ends_writeBlocks (Nat.not_lt.mp hmax) src.length _ V _ s off.toNat src _
    (h.start hd _) (by omega) rfl (Nat.le_refl _) (fun D' s' h' hch hspan => ?_) (fun hlack => ?_))
  · obtain ⟨h1,h2,h3⟩ := h'.extend (Nat.le_max_right _ _) (Nat.not_lt.mp hmax) (by omega)
    apply ends_bind
    apply ends_atom
    apply ends_pure
    rw [hint]
    rw [← h.din] at hspan
    exact hyes hok _ h1 (hch.trans h2) (h3 _ _ _ hspan)
  · rw [← h.din] at hlack
    exact hfull hok hlack

end Yeet.Fs
