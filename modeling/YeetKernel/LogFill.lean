import YeetKernel.LogBlocks

/-!
# How the blocks of a write are filled

One round of `writei` finds its block or allocates it, and with the first entry
of the indirect block that block too. `Filled` says what a list of rounds does
to the file and which blocks are then in the log.
-/

namespace Yeet.LogBudget
open Kernel FsDisk Function

variable {s s' : State} {b bn : ℕ} {l : List ℕ} {k : ℕ} {ks : List ℕ}

theorem State.Sound.taken (h : s.Sound) (hf : s.free = b::l) :
    (∀ x ∈ l, x ∈ s.free ∧ x ≠ b) ∧ l.Nodup := by
  have hn := h.nodup
  rw [hf] at hn ⊢
  obtain ⟨hb,hn⟩ := List.nodup_cons.mp hn
  exact ⟨fun x hx => ⟨List.mem_cons_of_mem b hx,fun e => hb (e ▸ hx)⟩,hn⟩

theorem State.Sound.place (h : s.Sound) (hf : s.free = b::l) (hfree : s'.free = l)
    (hind : s'.indirect = s.indirect) (haddr : s'.addr = update s.addr bn b)
    (hbit : s'.bitmap = s.bitmap) (hino : s'.inode = s.inode) : s'.Sound := by
  have hb := h.free b (by rw [hf]; simp)
  obtain ⟨hl,hn⟩ := h.taken hf
  have hbfree : s.bitmap ≠ b := fun e => h.bitmap.2.2.1 (by rw [hf, e]; simp)
  have hifree : s.inode ≠ b := fun e => h.inode.2.1 (by rw [hf, e]; simp)
  have hne : ∀ x, x ≠ b → (∀ i, s.addr i ≠ x) → ∀ i, s'.addr i ≠ x := by
    intro x hx hs i
    rw [haddr]
    by_cases e : i = bn
    · rw [e, update_self]
      exact fun e => hx e.symm
    · rw [update_of_ne e]
      exact hs i
  refine ⟨fun i j hi hij => ?_,fun h0 => ?_,by rwa [hfree],
    fun x hx => ?_,?_,?_⟩
  · rw [haddr] at hi hij
    by_cases ei : i = bn <;> by_cases ej : j = bn
    · rw [ei, ej]
    · rw [ei, update_self, update_of_ne ej] at hij
      exact absurd hij.symm (hb.2.2 j)
    · rw [ej, update_self, update_of_ne ei] at hij
      exact absurd hij (hb.2.2 i)
    · rw [update_of_ne ei] at hi hij
      rw [update_of_ne ej] at hij
      exact h.inj i j hi hij
  · rw [hind] at h0 ⊢
    exact hne _ hb.2.1.symm (h.indirect h0)
  · rw [hfree] at hx
    obtain ⟨h1,h2,h3⟩ := h.free x (hl x hx).1
    exact ⟨h1,by rw [hind]; exact h2,hne x (hl x hx).2 h3⟩
  · obtain ⟨h1,h2,h3,h4,h5⟩ := h.bitmap
    rw [hbit, hino, hfree, hind]
    exact ⟨h1,h2,fun hm => h3 (hl _ hm).1,h4,hne _ hbfree h5⟩
  · obtain ⟨h1,h2,h3,h4⟩ := h.inode
    rw [hino, hfree, hind]
    exact ⟨h1,fun hm => h2 (hl _ hm).1,h3,hne _ hifree h4⟩

theorem State.Sound.hang (h : s.Sound) (hf : s.free = b::l) (hfree : s'.free = l)
    (hind : s'.indirect = b) (haddr : s'.addr = s.addr)
    (hbit : s'.bitmap = s.bitmap) (hino : s'.inode = s.inode) : s'.Sound := by
  have hb := h.free b (by rw [hf]; simp)
  obtain ⟨hl,hn⟩ := h.taken hf
  refine ⟨by rw [haddr]; exact h.inj,fun _ => ?_,by rwa [hfree],
    fun x hx => ?_,?_,?_⟩
  · rw [hind, haddr]
    exact hb.2.2
  · rw [hfree] at hx
    obtain ⟨h1,-,h3⟩ := h.free x (hl x hx).1
    rw [hind, haddr]
    exact ⟨h1,(hl x hx).2,h3⟩
  · obtain ⟨h1,h2,h3,-,h5⟩ := h.bitmap
    rw [hbit, hino, hfree, hind, haddr]
    exact ⟨h1,h2,fun hm => h3 (hl _ hm).1,fun e => h3 (by rw [hf, e]; simp),h5⟩
  · obtain ⟨h1,h2,-,h4⟩ := h.inode
    rw [hino, hfree, hind, haddr]
    exact ⟨h1,fun hm => h2 (hl _ hm).1,fun e => h2 (by rw [hf, e]; simp),h4⟩

def State.needed (s : State) (ks : List ℕ) : ℕ :=
  (ks.filter (fun i => s.addr i == 0)).length+
    (if s.indirect = 0 ∧ ks.any (fun i => decide (NDIRECT ≤ i)) = true then 1 else 0)

structure Filled (s s' : State) (ks : List ℕ) : Prop where
  sound : s'.Sound
  mapped : ∀ i ∈ ks, s'.addr i ≠ 0
  kept : ∀ i, s.addr i ≠ 0 ∨ i ∉ ks → s'.addr i = s.addr i
  indirect : s'.indirect = 0 ↔ s.indirect = 0 ∧ ∀ i ∈ ks, i < NDIRECT
  same : s.indirect ≠ 0 → s'.indirect = s.indirect
  free : s'.free.length+s.needed ks = s.free.length
  log : ∀ b, b ∈ s'.log ↔ b ∈ s.log ∨ (∃ i ∈ ks, s'.addr i = b) ∨
    (∃ i ∈ ks, s.addr i = 0) ∧ s.bitmap = b ∨ (∃ i ∈ ks, s.addr i = 0 ∧ NDIRECT ≤ i) ∧ s'.indirect = b
  bitmap : s'.bitmap = s.bitmap
  inode : s'.inode = s.inode
  size : s'.size = s.size

theorem needed_one (s : State) (k : ℕ) :
    s.needed [k] = (if s.addr k = 0 then 1 else 0)+(if s.indirect = 0 ∧ NDIRECT ≤ k then 1 else 0) := by
  unfold State.needed
  congr 1
  · by_cases h : s.addr k = 0 <;> simp [h]
  · simp

theorem addr_direct (s : State) (hk : k < NDIRECT) : s.addr k = s.addrs k := if_pos hk

theorem addr_table {s : State} (hk : ¬ k < NDIRECT) (hlt : k-NDIRECT < NINDIRECT)
    (h : s.indirect ≠ 0) : s.addr k = s.table (k-NDIRECT) := by
  rw [State.addr, if_neg hk, if_neg h, if_pos hlt]

theorem addr_none {s : State} (hk : ¬ k < NDIRECT) (h : s.indirect = 0) : s.addr k = 0 := by
  rw [State.addr, if_neg hk, if_pos h]

theorem addr_setDirect (s : State) (hk : k < NDIRECT) (b : ℕ) :
    State.addr {s with addrs := update s.addrs k b} = update s.addr k b := by
  ext i
  by_cases e : i = k
  · rw [e, update_self, addr_direct _ hk]
    exact update_self ..
  · rw [update_of_ne e]
    simp only [State.addr, update_of_ne e]

theorem addr_setTable (s : State) (hk : ¬ k < NDIRECT) (hlt : k-NDIRECT < NINDIRECT)
    (h : s.indirect ≠ 0) (b : ℕ) :
    State.addr {s with table := update s.table (k-NDIRECT) b} = update s.addr k b := by
  ext i
  by_cases e : i = k
  · rw [e, update_self]
    exact (addr_table (s := {s with table := update s.table (k-NDIRECT) b}) hk hlt h).trans
      (update_self ..)
  rw [update_of_ne e]
  by_cases hi : i < NDIRECT
  · rw [addr_direct _ hi, addr_direct _ hi]
  · have hne : i-NDIRECT ≠ k-NDIRECT := by omega
    simp only [State.addr, if_neg hi, update_of_ne hne]

theorem addr_hang (s : State) (h : s.indirect = 0) (b : ℕ) :
    State.addr {s with indirect := b, table := fun _ => 0} = s.addr := by
  ext i
  by_cases hi : i < NDIRECT
  · rw [addr_direct _ hi, addr_direct _ hi]
  rw [addr_none hi h, State.addr, if_neg hi]
  split
  · rfl
  · split <;> rfl

theorem mem_logWrite {s : State} {b x : ℕ} : x ∈ (s.logWrite b).log ↔ x = b ∨ x ∈ s.log :=
  List.mem_cons

theorem filled_mapped (h : s.Sound) (hk : s.addr k ≠ 0) : Filled s (s.logWrite (s.addr k)) [k] where
  sound := ⟨h.inj,h.indirect,h.nodup,h.free,h.bitmap,h.inode⟩
  mapped i hi := by rw [List.mem_singleton.mp hi]; exact hk
  kept _ _ := rfl
  indirect := by
    refine ⟨fun h0 => ⟨h0,fun i hi => ?_⟩,fun h0 => h0.1⟩
    rw [List.mem_singleton.mp hi]
    by_contra hc
    exact hk (addr_none hc h0)
  same _ := rfl
  free := by
    rw [needed_one, if_neg hk, if_neg]
    · rfl
    · rintro ⟨h0,hle⟩
      exact hk (addr_none (by omega) h0)
  log b := by
    have haddr : (s.logWrite (s.addr k)).addr = s.addr := rfl
    rw [mem_logWrite, haddr]
    simp only [List.mem_singleton, exists_eq_left, hk, false_and, or_false]
    exact ⟨fun hb => hb.symm.imp_right Eq.symm,fun hb => hb.symm.imp_left Eq.symm⟩
  bitmap := rfl
  inode := rfl
  size := rfl

theorem filled_fresh (hk : s.addr k = 0) (hs : s'.Sound) (hb : b ≠ 0)
    (haddr : s'.addr = update s.addr k b) (hind : s'.indirect = 0 ↔ s.indirect = 0 ∧ k < NDIRECT)
    (hsame : s.indirect ≠ 0 → s'.indirect = s.indirect)
    (hfree : s'.free.length+(1+if s.indirect = 0 ∧ NDIRECT ≤ k then 1 else 0) = s.free.length)
    (hlog : ∀ x, x ∈ s'.log ↔ x ∈ s.log ∨ b = x ∨ s.bitmap = x ∨ NDIRECT ≤ k ∧ s'.indirect = x)
    (hbit : s'.bitmap = s.bitmap) (hino : s'.inode = s.inode) (hsize : s'.size = s.size) :
    Filled s s' [k] where
  sound := hs
  mapped i hi := by
    rw [List.mem_singleton.mp hi, haddr, update_self]
    exact hb
  kept i hi := by
    rw [haddr, update_of_ne]
    rintro rfl
    rcases hi with hi | hi
    · exact hi hk
    · exact hi (List.mem_singleton_self _)
  indirect := by
    rw [hind]
    simp
  same := hsame
  free := by rw [needed_one, if_pos hk, hfree]
  log x := by
    rw [hlog, haddr]
    simp [hk]
  bitmap := hbit
  inode := hino
  size := hsize

theorem bmap_fills (h : s.Sound) (hk : k < MAXFILE) (hn : s.needed [k] ≤ s.free.length) :
    ∃ b s', s.bmap k = .ok (b,s') ∧ Filled s (s'.logWrite b) [k] := by
  rw [needed_one] at hn
  by_cases hdir : k < NDIRECT
  · by_cases h0 : s.addrs k = 0
    · -- a direct block
      rw [addr_direct s hdir, if_pos h0, if_neg (by omega)] at hn
      obtain ⟨b,l,hf⟩ := List.exists_cons_of_length_pos (Nat.lt_of_lt_of_le Nat.one_pos hn)
      refine ⟨b,_,by simp only [State.bmap, if_pos hdir, if_pos h0, State.balloc, hf]; rfl,?_⟩
      have haddr := addr_setDirect s hdir b
      refine filled_fresh (b := b) (by rw [addr_direct s hdir]; exact h0)
        (h.place hf rfl rfl haddr rfl rfl) (h.free b (by rw [hf]; simp)).1 haddr ?_ (fun _ => rfl) ?_
        (fun x => ?_) rfl rfl rfl
      · simp only [State.logWrite, hdir, and_true]
      · rw [if_neg (by omega), hf]
        rfl
      simp only [mem_logWrite]
      have : ¬ NDIRECT ≤ k := by omega
      simp only [this, false_and, or_false]
      tauto
    · refine ⟨s.addrs k,s,by simp only [State.bmap, if_pos hdir, if_neg h0],?_⟩
      rw [← addr_direct s hdir] at h0 ⊢
      exact filled_mapped h h0
  have hlt : k-NDIRECT < NINDIRECT := by
    simp only [MAXFILE] at hk
    omega
  have hle : NDIRECT ≤ k := by omega
  by_cases hind : s.indirect = 0
  · -- an indirect block, and its first entry
    have h0 := addr_none hdir hind
    rw [if_pos h0, if_pos ⟨hind,hle⟩] at hn
    obtain ⟨b,l,hf⟩ := List.exists_cons_of_length_pos (Nat.lt_of_succ_le (Nat.le_of_succ_le hn))
    cases l with
    | nil =>
      rw [hf] at hn
      exact absurd hn (Nat.not_succ_le_self 1)
    | cons c l =>
      have hb := (h.free b (by rw [hf]; simp)).1
      refine ⟨c,_,by simp only [State.bmap, if_neg hdir, if_pos hlt, State.loadIndirect,
        if_pos hind, State.balloc, hf]; rfl,?_⟩
      have hhang := addr_hang s hind b
      have h1 : State.Sound {s with free := c::l, indirect := b, table := fun _ => 0} :=
        h.hang hf rfl rfl hhang rfl rfl
      have haddr := addr_setTable {s with free := c::l, indirect := b, table := fun _ => 0}
        hdir hlt hb c
      have h2 : State.Sound {s with
          free := l
          indirect := b
          table := update (fun _ => 0) (k-NDIRECT) c} := h1.place rfl rfl rfl haddr rfl rfl
      have haddr' : State.addr {s with
          free := l
          indirect := b
          table := update (fun _ => 0) (k-NDIRECT) c} = update s.addr k c := by
        rw [← hhang]
        exact haddr
      refine filled_fresh (b := c) h0 ⟨h2.inj,h2.indirect,h2.nodup,h2.free,h2.bitmap,h2.inode⟩
        (h.free c (by rw [hf]; simp)).1 haddr' ?_ (fun hc => absurd hind hc) ?_ (fun x => ?_)
        rfl rfl rfl
      · exact iff_of_false hb (fun hc => hdir hc.2)
      · rw [if_pos ⟨hind,hle⟩, hf]
        rfl
      · simp only [mem_logWrite, hle, true_and]
        simp only [State.logWrite]
        tauto
  · have hno : ¬ (s.indirect = 0 ∧ NDIRECT ≤ k) := fun hc => hind hc.1
    rw [if_neg hno] at hn
    by_cases h0 : s.table (k-NDIRECT) = 0
    · -- an entry of the indirect block
      have ha : s.addr k = 0 := by
        rw [addr_table hdir hlt hind]
        exact h0
      rw [if_pos ha] at hn
      obtain ⟨b,l,hf⟩ := List.exists_cons_of_length_pos (Nat.lt_of_lt_of_le Nat.one_pos hn)
      refine ⟨b,_,by simp only [State.bmap, if_neg hdir, if_pos hlt, State.loadIndirect,
        if_neg hind, ok_bind, if_pos h0, State.balloc, hf]; rfl,?_⟩
      have haddr := addr_setTable s hdir hlt hind b
      refine filled_fresh (b := b) ha (h.place hf rfl rfl haddr rfl rfl)
        (h.free b (by rw [hf]; simp)).1 haddr ?_ (fun _ => rfl) ?_ (fun x => ?_) rfl rfl rfl
      · exact iff_of_false hind (fun hc => hind hc.1)
      · rw [if_neg hno, hf]
        rfl
      · simp only [mem_logWrite, hle, true_and]
        simp only [State.logWrite]
        tauto
    · refine ⟨s.table (k-NDIRECT),s,by simp only [State.bmap, if_neg hdir, if_pos hlt,
        State.loadIndirect, if_neg hind, ok_bind, if_neg h0],?_⟩
      rw [← addr_table hdir hlt hind] at h0 ⊢
      exact filled_mapped h h0

theorem bmap_panics (hk : k < MAXFILE) (hn : s.free.length < s.needed [k]) :
    ∃ e, s.bmap k = .error e := by
  rw [needed_one] at hn
  by_cases hdir : k < NDIRECT
  · have hno : ¬ (s.indirect = 0 ∧ NDIRECT ≤ k) := fun hc => absurd hc.2 (Nat.not_le.mpr hdir)
    rw [if_neg hno, addr_direct s hdir] at hn
    by_cases h0 : s.addrs k = 0
    · rw [if_pos h0] at hn
      have hf : s.free = [] := List.eq_nil_of_length_eq_zero (by omega)
      exact ⟨_,by simp only [State.bmap, if_pos hdir, if_pos h0, State.balloc, hf]; rfl⟩
    · rw [if_neg h0] at hn
      cases hn
  have hlt : k-NDIRECT < NINDIRECT := by
    simp only [MAXFILE] at hk
    omega
  by_cases hind : s.indirect = 0
  · rw [if_pos (addr_none hdir hind), if_pos ⟨hind,Nat.not_lt.mp hdir⟩] at hn
    cases hf : s.free with
    | nil =>
      exact ⟨_,by simp only [State.bmap, if_neg hdir, if_pos hlt, State.loadIndirect, if_pos hind,
        State.balloc, hf]; rfl⟩
    | cons b l =>
      rw [hf, List.length_cons] at hn
      have hl : l = [] := List.eq_nil_of_length_eq_zero (by omega)
      subst hl
      exact ⟨_,by simp only [State.bmap, if_neg hdir, if_pos hlt, State.loadIndirect, if_pos hind,
        State.balloc, hf]; rfl⟩
  · have hno : ¬ (s.indirect = 0 ∧ NDIRECT ≤ k) := fun hc => hind hc.1
    rw [if_neg hno, addr_table hdir hlt hind] at hn
    by_cases h0 : s.table (k-NDIRECT) = 0
    · rw [if_pos h0] at hn
      have hf : s.free = [] := List.eq_nil_of_length_eq_zero (by omega)
      exact ⟨_,by simp only [State.bmap, if_neg hdir, if_pos hlt, State.loadIndirect, if_neg hind,
        ok_bind, if_pos h0, State.balloc, hf]; rfl⟩
    · rw [if_neg h0] at hn
      cases hn

theorem Filled.addr_rest (h : Filled s s' [k]) (hk : k ∉ ks) : ∀ i ∈ ks, s'.addr i = s.addr i := by
  intro i hi
  apply h.kept i
  right
  rw [List.mem_singleton]
  rintro rfl
  exact hk hi

theorem needed_nil (s : State) : s.needed [] = 0 := by
  simp [State.needed]

theorem needed_head (s : State) (k : ℕ) (ks : List ℕ) :
    s.needed (k::ks) = (if s.addr k = 0 then 1 else 0)+(ks.filter (fun i => s.addr i == 0)).length+
      (if s.indirect = 0 ∧ (NDIRECT ≤ k ∨ ks.any (fun i => decide (NDIRECT ≤ i)) = true)
        then 1 else 0) := by
  unfold State.needed
  congr 1
  · rw [List.filter_cons]
    by_cases h : s.addr k = 0
    · simp [h, Nat.add_comm]
    · simp [h]
  · simp only [List.any_cons, Bool.or_eq_true, decide_eq_true_eq]

theorem needed_le (s : State) (k : ℕ) (ks : List ℕ) : s.needed [k] ≤ s.needed (k::ks) := by
  rw [needed_one, needed_head]
  by_cases h : s.indirect = 0 ∧ NDIRECT ≤ k
  · have h' : s.indirect = 0 ∧ (NDIRECT ≤ k ∨ ks.any (fun i => decide (NDIRECT ≤ i)) = true) :=
      ⟨h.1,Or.inl h.2⟩
    rw [if_pos h, if_pos h']
    omega
  · rw [if_neg h]
    omega

theorem needed_cons (h : Filled s s' [k]) (hk : k ∉ ks) :
    s.needed (k::ks) = s.needed [k]+s'.needed ks := by
  have hfilter : ks.filter (fun i => s'.addr i == 0) = ks.filter (fun i => s.addr i == 0) := by
    apply List.filter_congr
    intro i hi
    rw [h.addr_rest hk i hi]
  have hind : s'.indirect = 0 ↔ s.indirect = 0 ∧ k < NDIRECT := by
    rw [h.indirect]
    simp
  have htable : (if s.indirect = 0 ∧ (NDIRECT ≤ k ∨ ks.any (fun i => decide (NDIRECT ≤ i)) = true)
      then 1 else 0) = (if s.indirect = 0 ∧ NDIRECT ≤ k then 1 else 0)+
        (if s'.indirect = 0 ∧ ks.any (fun i => decide (NDIRECT ≤ i)) = true then 1 else 0) := by
    by_cases h0 : s.indirect = 0 <;> by_cases hle : NDIRECT ≤ k
    · simp [hind, h0, hle, Nat.not_lt.mpr hle]
    · simp [hind, h0, hle, Nat.lt_of_not_le hle]
    · simp [hind, h0]
    · simp [hind, h0]
  rw [needed_one, needed_head, htable, State.needed, hfilter]
  omega

theorem join_cases {P A B C D E F : Prop} :
    ((P ∨ A ∨ B ∨ C) ∨ D ∨ E ∨ F) ↔ P ∨ (A ∨ D) ∨ (B ∨ E) ∨ C ∨ F := by tauto

theorem Filled.cons {s₂ : State} (h : Filled s s' [k]) (h' : Filled s' s₂ ks)
    (hk : k ∉ ks) : Filled s s₂ (k::ks) where
  sound := h'.sound
  mapped i hi := by
    rcases List.mem_cons.mp hi with rfl | hi
    · rw [h'.kept i (Or.inr hk)]
      exact h.mapped i (List.mem_singleton_self i)
    · exact h'.mapped i hi
  kept i hi := by
    have h1 : s'.addr i = s.addr i := by
      apply h.kept
      rcases hi with hi | hi
      · exact Or.inl hi
      right
      rw [List.mem_singleton]
      rintro rfl
      exact hi List.mem_cons_self
    rw [← h1]
    apply h'.kept
    rcases hi with hi | hi
    · left
      rw [h1]
      exact hi
    · exact Or.inr (fun hm => hi (List.mem_cons_of_mem k hm))
  indirect := by
    rw [h'.indirect, h.indirect]
    simp only [List.mem_singleton, forall_eq, List.forall_mem_cons, and_assoc]
  same h0 := by
    have h1 := h.same h0
    rw [h'.same (by rw [h1]; exact h0), h1]
  free := by
    have h1 := h.free
    have h2 := h'.free
    rw [needed_cons h hk]
    omega
  log b := by
    have hrest := h.addr_rest hk
    have hk2 : s₂.addr k = s'.addr k := h'.kept k (Or.inr hk)
    have hind : NDIRECT ≤ k → s₂.indirect = s'.indirect := by
      intro hle
      apply h'.same
      rw [ne_eq, h.indirect]
      rintro ⟨-,hlt⟩
      exact absurd (hlt k (List.mem_singleton_self k)) (by omega)
    have hfresh : (∃ i ∈ ks, s'.addr i = 0) ↔ ∃ i ∈ ks, s.addr i = 0 := by
      constructor
      · rintro ⟨i,hi,h0⟩
        exact ⟨i,hi,hrest i hi ▸ h0⟩
      · rintro ⟨i,hi,h0⟩
        exact ⟨i,hi,(hrest i hi).trans h0⟩
    have hfresh' : (∃ i ∈ ks, s'.addr i = 0 ∧ NDIRECT ≤ i) ↔ ∃ i ∈ ks, s.addr i = 0 ∧ NDIRECT ≤ i := by
      constructor
      · rintro ⟨i,hi,h0,hle⟩
        exact ⟨i,hi,hrest i hi ▸ h0,hle⟩
      · rintro ⟨i,hi,h0,hle⟩
        exact ⟨i,hi,(hrest i hi).trans h0,hle⟩
    have hnew : ((s.addr k = 0 ∧ NDIRECT ≤ k) ∧ s'.indirect = b) ↔
        (s.addr k = 0 ∧ NDIRECT ≤ k) ∧ s₂.indirect = b :=
      and_congr_right (fun hc => by rw [hind hc.2])
    rw [h'.log, h.log, h.bitmap, hfresh, hfresh']
    simp only [List.mem_singleton, exists_eq_left, List.exists_mem_cons_iff, hk2, or_and_right, hnew]
    exact join_cases
  bitmap := h'.bitmap.trans h.bitmap
  inode := h'.inode.trans h.inode
  size := h'.size.trans h.size

theorem filled_nil (h : s.Sound) : Filled s s [] where
  sound := h
  mapped i hi := absurd hi List.not_mem_nil
  kept _ _ := rfl
  indirect := by simp
  same _ := rfl
  free := by simp [State.needed]
  log b := by simp
  bitmap := rfl
  inode := rfl
  size := rfl

theorem writeBlocks_fills (fuel off n : ℕ) (h : s.Sound) (hfuel : n ≤ fuel)
    (hend : off+n ≤ MAXFILE*BSIZE) : (s.needed (span off n) ≤ s.free.length →
      ∃ s', s.writeBlocks fuel off n = .ok s' ∧ Filled s s' (span off n)) ∧
    (s.free.length < s.needed (span off n) → ∃ e, s.writeBlocks fuel off n = .error e) := by
  induction fuel generalizing s off n with
  | zero =>
    obtain rfl : n = 0 := by omega
    refine ⟨fun _ => ⟨s,rfl,filled_nil h⟩,fun hlt => ?_⟩
    rw [span, if_pos rfl, needed_nil] at hlt
    exact absurd hlt (Nat.not_lt_zero _)
  | succ fuel ih =>
    by_cases hn : n = 0
    · subst hn
      refine ⟨fun _ => ⟨s,rfl,filled_nil h⟩,fun hlt => ?_⟩
      rw [span, if_pos rfl, needed_nil] at hlt
      exact absurd hlt (Nat.not_lt_zero _)
    have hstep := span_step off hn
    have hk : off/BSIZE < MAXFILE := span_lt hend _ (by rw [hstep]; simp)
    have hnodup := span_nodup off n
    rw [hstep] at hnodup ⊢
    have hpos : 0 < min n (BSIZE-off%BSIZE) := by
      simp only [BSIZE]
      omega
    have hle : min n (BSIZE-off%BSIZE) ≤ n := Nat.min_le_left _ _
    unfold State.writeBlocks
    rw [if_neg hn]
    generalize min n (BSIZE-off%BSIZE) = m at *
    have hnot := (List.nodup_cons.mp hnodup).1
    by_cases hone : s.needed [off/BSIZE] ≤ s.free.length
    · obtain ⟨b,s₁,hb,hf⟩ := bmap_fills h hk hone
      rw [hb, ok_bind, needed_cons hf hnot]
      obtain ⟨hok,herr⟩ := ih (off+m) (n-m) hf.sound (by omega) (by omega)
      have hfree := hf.free
      constructor
      · intro hn'
        obtain ⟨s₂,h2,hf2⟩ := hok (by omega)
        exact ⟨s₂,h2,hf.cons hf2 hnot⟩
      · intro hn'
        exact herr (by omega)
    · obtain ⟨e,he⟩ := bmap_panics hk (Nat.lt_of_not_le hone)
      rw [he]
      refine ⟨fun hn' => ?_,fun _ => ⟨e,rfl⟩⟩
      exact absurd (Nat.le_trans (needed_le s _ _) hn') hone

end Yeet.LogBudget
