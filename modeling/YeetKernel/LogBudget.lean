import YeetKernel.LogFill

/-!
# What one transaction of `filewrite` logs

How many blocks a transaction logs can be told from the shape of the file: its
size, which of its blocks are there, whether it has an indirect block. The
shape is carried from transaction to transaction.
-/

namespace Yeet.LogBudget
open Kernel FsDisk
open Fs (chunkMax)

/-- What decides about the transactions: the size, which blocks of the file are
there, whether it has an indirect block, and how many blocks are free. -/
structure Shape where
  size : Uint
  mapped : ℕ → Bool
  indirect : Bool
  free : ℕ

def State.shape (s : State) : Shape :=
  ⟨s.size,fun i => s.addr i != 0,s.indirect != 0,s.free.length⟩

namespace Shape

def fresh (h : Shape) (ks : List ℕ) : List ℕ := ks.filter (fun i => !h.mapped i)

def needed (h : Shape) (ks : List ℕ) : ℕ :=
  (h.fresh ks).length+
    (if h.indirect = false ∧ ks.any (fun i => decide (NDIRECT ≤ i)) = true then 1 else 0)

def grows (h : Shape) (off n : Uint) : Prop := n > 0 ∧ off+n > h.size

instance decidableGrows (h : Shape) (off n : Uint) : Decidable (h.grows off n) :=
  inferInstanceAs (Decidable (_ ∧ _))

/-- The blocks written, the bitmap block if one of them is new, the indirect
block if one of its entries is new, the block of the inode if the file grows. -/
def cost (h : Shape) (off n : Uint) : ℕ :=
  (span off.toNat n.toNat).length+ (if h.fresh (span off.toNat n.toNat) ≠ [] then 1 else 0)+
    (if (h.fresh (span off.toNat n.toNat)).any (fun i => decide (NDIRECT ≤ i)) = true then 1 else 0)+
    (if h.grows off n then 1 else 0)

def after (h : Shape) (off n : Uint) : Shape where
  size := if h.grows off n then off+n else h.size
  mapped i := h.mapped i || (span off.toNat n.toNat).any (fun j => j == i)
  indirect := h.indirect || (span off.toNat n.toNat).any (fun i => decide (NDIRECT ≤ i))
  free := h.free-h.needed (span off.toNat n.toNat)

def costs (n : ℕ) : ℕ → ℕ → Uint → Shape → List ℕ
  | 0, _, _, _ => []
  | fuel+1, i, off, h =>
    if i < n then
      let n1 := min (n-i) chunkMax
      let k := BitVec.ofNat 32 n1
      if off > h.size ∨ off+k < off ∨ (off+k).toNat > MAXFILE*BSIZE then [0]
      else if h.free < h.needed (span off.toNat k.toNat) then []
      else h.cost off k::costs n fuel (i+n1) (off+k) (h.after off k)
    else []

end Shape

section Cost

variable {s s' : State} {ks : List ℕ} {off n : Uint}

theorem shape_fresh (s : State) (ks : List ℕ) :
    s.shape.fresh ks = ks.filter (fun i => s.addr i == 0) := by
  unfold Shape.fresh State.shape
  apply List.filter_congr
  intro i _
  simp [bne]

theorem shape_needed (s : State) (ks : List ℕ) : s.shape.needed ks = s.needed ks := by
  rw [Shape.needed, State.needed, shape_fresh]
  congr 1
  simp [State.shape, bne]

theorem Filled.logged (h : Filled s s' ks) (hlog : s.log = []) :
    s'.log.toFinset = ks.toFinset.image s'.addr ∪
      ((if s.shape.fresh ks ≠ [] then {s.bitmap} else ∅) ∪
        if (s.shape.fresh ks).any (fun i => decide (NDIRECT ≤ i)) = true then {s'.indirect} else ∅) := by
  have h1 : s.shape.fresh ks ≠ [] ↔ ∃ i ∈ ks, s.addr i = 0 := by
    rw [shape_fresh, ne_eq, List.filter_eq_nil_iff]
    simp
  have h2 : (s.shape.fresh ks).any (fun i => decide (NDIRECT ≤ i)) = true ↔
      ∃ i ∈ ks, s.addr i = 0 ∧ NDIRECT ≤ i := by
    rw [shape_fresh, List.any_eq_true]
    simp only [List.mem_filter, beq_iff_eq, decide_eq_true_eq, and_assoc]
  ext b
  rw [List.mem_toFinset, h.log, hlog]
  simp only [List.not_mem_nil, false_or, Finset.mem_union, Finset.mem_image, List.mem_toFinset]
  refine or_congr_right (or_congr ?_ ?_)
  · by_cases hc : ∃ i ∈ ks, s.addr i = 0
    · rw [if_pos (h1.mpr hc), Finset.mem_singleton]
      simp only [hc, true_and]
      exact eq_comm
    · rw [if_neg (fun hx => hc (h1.mp hx))]
      simp only [hc, false_and, Finset.notMem_empty]
  by_cases hc : ∃ i ∈ ks, s.addr i = 0 ∧ NDIRECT ≤ i
  · rw [if_pos (h2.mpr hc), Finset.mem_singleton]
    simp only [hc, true_and]
    exact eq_comm
  · rw [if_neg (fun hx => hc (h2.mp hx))]
    simp only [hc, false_and, Finset.notMem_empty]

theorem Filled.indirect_ne (h : Filled s s' ks)
    (hf : (s.shape.fresh ks).any (fun i => decide (NDIRECT ≤ i)) = true) : s'.indirect ≠ 0 := by
  rw [List.any_eq_true] at hf
  obtain ⟨i,hi,hle⟩ := hf
  rw [ne_eq, h.indirect]
  rintro ⟨-,hlt⟩
  have := hlt i (List.mem_of_mem_filter hi)
  rw [decide_eq_true_eq] at hle
  omega

theorem Filled.card (h : Filled s s' ks) (hlog : s.log = []) (hn : ks.Nodup) :
    s'.log.toFinset.card = ks.length+(if s.shape.fresh ks ≠ [] then 1 else 0)+
      (if (s.shape.fresh ks).any (fun i => decide (NDIRECT ≤ i)) = true then 1 else 0) := by
  have hs := h.sound
  have himage : (ks.toFinset.image s'.addr).card = ks.length := by
    rw [Finset.card_image_of_injOn, List.toFinset_card_of_nodup hn]
    intro i hi j _ hij
    rw [Finset.mem_coe, List.mem_toFinset] at hi
    exact hs.inj i j (h.mapped i hi) hij
  rw [h.logged hlog, Finset.card_union_of_disjoint, Finset.card_union_of_disjoint, himage,
    Nat.add_assoc]
  · congr 2
    · split <;> rfl
    · split <;> rfl
  · rw [Finset.disjoint_left]
    intro b hb hb'
    split at hb
    · rw [Finset.mem_singleton.mp hb] at hb'
      split at hb'
      · rename_i hf
        have := hs.bitmap.2.2.2.1
        rw [h.bitmap] at this
        exact this (Finset.mem_singleton.mp hb')
      · cases hb'
    · cases hb
  rw [Finset.disjoint_left]
  intro b hb hb'
  obtain ⟨i,hi,rfl⟩ := Finset.mem_image.mp hb
  rcases Finset.mem_union.mp hb' with hb' | hb'
  · split at hb'
    · have := hs.bitmap.2.2.2.2 i
      rw [h.bitmap] at this
      exact this (Finset.mem_singleton.mp hb')
    · cases hb'
  · split at hb'
    · rename_i hf
      exact hs.indirect (h.indirect_ne hf) i (Finset.mem_singleton.mp hb')
    · cases hb'

theorem Filled.inode_fresh (h : Filled s s' ks) (hlog : s.log = []) : s'.inode ∉ s'.log := by
  obtain ⟨h1,h2,h3,h4⟩ := h.sound.inode
  rw [h.log, hlog]
  rintro (hc | ⟨i,-,hi⟩ | ⟨-,hb⟩ | ⟨-,hi⟩)
  · cases hc
  · exact h4 i hi
  · rw [← h.bitmap] at hb
    exact h.sound.bitmap.2.1 hb
  · exact h3 hi.symm

theorem extend_card (hs : s'.inode ∉ s'.log) (hsize : s'.size = s.size) :
    (s'.extend off n).log.toFinset.card =
      s'.log.toFinset.card+(if s.shape.grows off n then 1 else 0) := by
  have hiff : s.shape.grows off n ↔ n > 0 ∧ off+n > s'.size := by
    rw [hsize]
    exact Iff.rfl
  unfold State.extend
  by_cases hg : s.shape.grows off n
  · rw [if_pos (hiff.mp hg), if_pos hg]
    simp only [State.logWrite, List.toFinset_cons]
    rw [Finset.card_insert_of_notMem (by rw [List.mem_toFinset]; exact hs)]
  · rw [if_neg (fun hc => hg (hiff.mpr hc)), if_neg hg]
    rfl

theorem Filled.shape_after (h : Filled s s' (span off.toNat n.toNat)) :
    (s'.extend off n).shape = s.shape.after off n := by
  have haddr : (s'.extend off n).addr = s'.addr := by
    unfold State.extend
    split <;> rfl
  have hind : (s'.extend off n).indirect = s'.indirect := by
    unfold State.extend
    split <;> rfl
  have hfree : (s'.extend off n).free = s'.free := by
    unfold State.extend
    split <;> rfl
  have hsize : (s'.extend off n).size = if s.shape.grows off n then off+n else s.size := by
    have hiff : s.shape.grows off n ↔ n > 0 ∧ off+n > s'.size := by
      rw [h.size]
      exact Iff.rfl
    unfold State.extend
    by_cases hg : s.shape.grows off n
    · rw [if_pos (hiff.mp hg), if_pos hg]
      rfl
    · rw [if_neg (fun hc => hg (hiff.mpr hc)), if_neg hg, h.size]
  unfold State.shape Shape.after
  rw [haddr, hind, hfree, hsize]
  congr 1
  · ext1 i
    rw [Bool.eq_iff_iff]
    simp only [bne_iff_ne, Bool.or_eq_true, List.any_eq_true, beq_iff_eq, exists_eq_right]
    constructor
    · intro hne
      by_contra hc
      obtain ⟨h1,h2⟩ := not_or.mp hc
      exact hne ((h.kept i (Or.inr h2)).trans (Decidable.not_not.mp h1))
    rintro (hne | hi)
    · rw [h.kept i (Or.inl hne)]
      exact hne
    · exact h.mapped i hi
  · rw [Bool.eq_iff_iff]
    simp only [bne_iff_ne, Bool.or_eq_true, List.any_eq_true, decide_eq_true_eq, ne_eq, h.indirect]
    by_cases h0 : s.indirect = 0 <;> simp [h0]
  have hn := h.free
  rw [← shape_needed] at hn
  change s'.free.length = s.free.length-s.shape.needed _
  omega

theorem extend_sound (h : s.Sound) : (s.extend off n).Sound := by
  unfold State.extend
  split
  · exact ⟨h.inj,h.indirect,h.nodup,h.free,h.bitmap,h.inode⟩
  · exact h

theorem writei_logs (h : s.Sound) (hlog : s.log = [])
    (hok : ¬ (off > s.size ∨ off+n < off ∨ (off+n).toNat > MAXFILE*BSIZE)) :
    (s.shape.needed (span off.toNat n.toNat) ≤ s.free.length →
      ∃ s', s.writei off n = .ok (true,s') ∧ s'.Sound ∧
        s'.log.toFinset.card = s.shape.cost off n ∧ s'.shape = s.shape.after off n) ∧
    (s.free.length < s.shape.needed (span off.toNat n.toNat) → ∃ e, s.writei off n = .error e) := by
  obtain ⟨h1,hrest⟩ := not_or.mp hok
  obtain ⟨h2,h3⟩ := not_or.mp hrest
  have hend : off.toNat+n.toNat ≤ MAXFILE*BSIZE := by
    rw [BitVec.lt_def, BitVec.toNat_add] at h2
    rw [BitVec.toNat_add] at h3
    have := off.isLt
    have := n.isLt
    omega
  obtain ⟨hfill,hpanic⟩ := writeBlocks_fills n.toNat off.toNat n.toNat h (Nat.le_refl _) hend
  unfold State.writei
  rw [if_neg (not_or.mpr ⟨h1,h2⟩), if_neg h3, shape_needed]
  constructor
  · intro hn
    obtain ⟨s',hs',hf⟩ := hfill hn
    rw [hs', ok_bind]
    refine ⟨_,rfl,extend_sound hf.sound,?_,hf.shape_after⟩
    rw [extend_card (hf.inode_fresh hlog) hf.size, hf.card hlog (span_nodup _ _), Shape.cost]
  · intro hn
    obtain ⟨e,he⟩ := hpanic hn
    rw [he]
    exact ⟨e,rfl⟩

theorem transactions_costs (n fuel i : ℕ) (off : Uint) (h : s.Sound) :
    (s.transactions n fuel i off).map (fun l => l.toFinset.card) = s.shape.costs n fuel i off := by
  induction fuel generalizing s i off with
  | zero => rfl
  | succ fuel ih =>
    unfold State.transactions Shape.costs
    by_cases hi : i < n
    swap
    · rw [if_neg hi, if_neg hi]
      rfl
    rw [if_pos hi, if_pos hi]
    dsimp only
    generalize BitVec.ofNat 32 (min (n-i) chunkMax) = k
    have h0 : State.Sound {s with log := []} :=
      ⟨h.inj,h.indirect,h.nodup,h.free,h.bitmap,h.inode⟩
    have hshape : State.shape {s with log := []} = s.shape := rfl
    by_cases hbad : off > s.size ∨ off+k < off ∨ (off+k).toNat > MAXFILE*BSIZE
    · have hw : State.writei {s with log := []} off k = .ok (false,{s with log := []}) := by
        unfold State.writei
        rcases hbad with hb | hb | hb
        · rw [if_pos (Or.inl hb)]
        · rw [if_pos (Or.inr hb)]
        · by_cases hc : off > s.size ∨ off+k < off
          · rw [if_pos hc]
          · rw [if_neg hc, if_pos hb]
      have hbad' : off > s.shape.size ∨ off+k < off ∨ (off+k).toNat > MAXFILE*BSIZE := hbad
      rw [hw, if_pos hbad']
      rfl
    have hbad' : ¬ (off > s.shape.size ∨ off+k < off ∨ (off+k).toNat > MAXFILE*BSIZE) := hbad
    rw [if_neg hbad']
    obtain ⟨hok,herr⟩ := writei_logs h0 rfl hbad
    by_cases hn : s.shape.needed (span off.toNat k.toNat) ≤ s.free.length
    · obtain ⟨s',hw,hs',hcard,hafter⟩ := hok hn
      rw [hw, if_neg (show ¬ s.shape.free < _ from Nat.not_lt.mpr hn)]
      dsimp only
      rw [List.map_cons, hcard, ih _ _ hs', hafter]
      rfl
    · obtain ⟨e,hw⟩ := herr (Nat.lt_of_not_le hn)
      rw [hw, if_pos (show s.shape.free < _ from Nat.lt_of_not_le hn)]
      rfl

end Cost

/-- For every file and disk, offset and count: each transaction of `filewrite`
logs at most MAXOPBLOCKS blocks if and only if its cost is within the budget. -/
theorem filewrite_budget_iff {s : State} (h : s.Sound) (off n : Uint) :
    (∀ l ∈ s.filewrite off n, l.toFinset.card ≤ MAXOPBLOCKS) ↔
      ∀ c ∈ s.shape.costs n.toInt.toNat n.toInt.toNat 0 off, c ≤ MAXOPBLOCKS := by
  rw [← transactions_costs _ _ _ _ h]
  simp only [State.filewrite, List.forall_mem_map]

section Example

def emptyFile : State where
  size := 0
  addrs _ := 0
  indirect := 0
  table _ := 0
  free := List.range' 100 40
  bitmap := 58
  inode := 32
  log := []

theorem emptyFile_addr (i : ℕ) : emptyFile.addr i = 0 := by
  unfold State.addr
  split
  · rfl
  · rfl

theorem emptyFile_sound : emptyFile.Sound where
  inj i j hi := absurd (emptyFile_addr i) hi
  indirect h0 := absurd rfl h0
  nodup := List.nodup_range'
  free b hb := by
    have hmem : 100 ≤ b ∧ b < 140 := List.mem_range'_1.mp hb
    refine ⟨by omega,show b ≠ 0 by omega,fun i hi => ?_⟩
    rw [emptyFile_addr] at hi
    omega
  bitmap := ⟨by decide,by decide,by decide,by decide,fun i => by rw [emptyFile_addr]; decide⟩
  inode := ⟨by decide,by decide,by decide,fun i => by rw [emptyFile_addr]; decide⟩

theorem filewrite_budget_block : emptyFile.Sound ∧
    ∀ l ∈ emptyFile.filewrite 0 512, l.toFinset.card ≤ MAXOPBLOCKS := by
  refine ⟨emptyFile_sound,(filewrite_budget_iff emptyFile_sound 0 512).mpr ?_⟩
  decide +kernel

/-- The first 6656 bytes of a file: 13 blocks, the bitmap, the indirect block
and the inode. -/
theorem filewrite_exceeds_budget : emptyFile.Sound ∧
    (emptyFile.filewrite 0 6656).map (fun l => l.toFinset.card) = [16] ∧ MAXOPBLOCKS < 16 := by
  refine ⟨emptyFile_sound,?_,by decide⟩
  decide +kernel

end Example

end Yeet.LogBudget
