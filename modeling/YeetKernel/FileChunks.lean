import YeetKernel.FileTransaction

/-!
# The pieces of filewrite

How the loop of `filewrite` ends. As long as each piece is accepted the pieces are
written as if they were one; a piece that is refused ends the loop, and the pieces
before it stay written.
-/

namespace Yeet.Fs
open Kernel Bytes FsDisk Resumption Function

def fileBytes (s : State) (i : Ino) : List Byte := contents s.vol (s.vol.dinode (s.num i))

variable {loose : List Uint} {V : View} {f : Fileno} {i : Ino} {s s' : State} {src : List Byte}
variable {o : ℕ}

theorem Writable.fileBytes (h : Writable loose V f i s) :
    Fs.fileBytes s i = V.bytes (s.num i) 0 (V.size (s.num i)) := by
  have hs := h.sound
  have ht := hs.type
  rw [hs.din] at ht
  have hc := hs.contents hs.lt ht
  rw [loaded_num] at hc
  exact hc

theorem Writable.size_le (h : Writable loose V f i s) : V.size (s.num i) ≤ MAXFILE*BSIZE := by
  have hs := h.sound
  have hnum := loaded_num s i
  have hd : ((s.loaded i).inode i).din.type ≠ T_DEV := by
    have ht := h.regular
    rw [← hnum, hs.node] at ht
    exact ht
  have hsmall := (hs.filled hd).small
  rw [hs.size, hnum] at hsmall
  exact hsmall

theorem grow_grow (z : Uint) {a b : ℕ} (hab : a ≤ b) (hb : b < 2^32) : grow (grow z a) b = grow z b := by
  have ha : (BitVec.ofNat 32 a).toNat = a := Nat.mod_eq_of_lt (by omega)
  by_cases h : z.toNat < a
  · have h1 : grow z a = BitVec.ofNat 32 a := if_pos h
    have h2 : grow z b = BitVec.ofNat 32 b := if_pos (by omega)
    rw [h1, h2, grow, ha]
    split
    · rfl
    · rw [show a = b by omega]
  · have hz : grow z a = z := if_neg h
    rw [hz]

theorem write_write (V : View) (n : ℕ) {a b : List Byte}
    (hmax : o+a.length+b.length ≤ MAXFILE*BSIZE) :
    (V.write n o a).write n (o+a.length) b = V.write n o (a++b) := by
  have hbig : MAXFILE*BSIZE < 2^32 := by decide
  have hg := grow_grow (V.node n).size (show o+a.length ≤ o+a.length+b.length by omega) (by omega)
  have ho := overlay_append (V.byte n) o a b
  unfold View.write
  simp only [View.setNode, View.setByte, update_self, update_idem, List.length_append]
  rw [hg, ho, Nat.add_assoc]

theorem write_nil (V : View) (n : ℕ) (ho : o ≤ V.size n) : V.write n o [] = V := by
  have hg : grow (V.node n).size o = (V.node n).size := if_neg (by unfold View.size at ho; omega)
  unfold View.write
  rw [List.length_nil, Nat.add_zero, hg, overlay_nil, setNode_self, setByte_self]

theorem range_map_append (g : ℕ → Byte) (j a b : ℕ) : (List.range (a+b)).map (fun t => g (j+t)) =
      (List.range a).map (fun t => g (j+t))++(List.range b).map (fun t => g (j+a+t)) := by
  rw [List.range_add, List.map_append, List.map_map]
  congr 1
  apply List.map_congr_left
  intro t _
  exact congrArg g (Nat.add_assoc j a t).symm

section Loop

variable {addr : ℕ → Byte} {n : ℕ}

theorem chunk_lt (k : ℕ) : min k chunkMax < 2^32 :=
  Nat.lt_of_le_of_lt (Nat.min_le_right _ _) (by decide)

/-- `Q` holds of the outcomes of a write that fits: the first `k` bytes of `g` are written
at the offset, or the blocks run out. -/
structure Fills {α : Type} (loose : List Uint) (V : View) (f : Fileno) (i : Ino) (g : ℕ → Byte)
    (k : ℕ) (r : α) (Q : Outcome State Fault α → Prop) (s : State) : Prop where
  done : s.vol.missing (s.vol.dinode (s.num i)) (s.file f).off.toNat ((s.file f).off.toNat+k) ≤
      s.vol.free → ∀ s', s'.num i = s.num i →
    Writable loose (V.write (s.num i) (s.file f).off.toNat ((List.range k).map g)) f i s' →
    (s'.file f).off.toNat = (s.file f).off.toNat+k → Q (some (.ok (r,s')))
  full : s.vol.free < s.vol.missing (s.vol.dinode (s.num i)) (s.file f).off.toNat
    ((s.file f).off.toNat+k) → Q (some (.error (.panic "balloc: out of blocks")))

theorem Fills.rest {α : Type} {g : ℕ → Byte} {r : α} {Q : Outcome State Fault α → Prop}
    (hq : Fills loose V f i g 0 r Q s) (h : Writable loose V f i s)
    (hoff : (s.file f).off.toNat ≤ V.size (s.num i)) : Ends (pure r : FsProg α) Q s := by
  have hQ := hq.done
  rw [List.range_zero, List.map_nil, write_nil V _ hoff,
    missing_empty (Nat.le_of_eq (Nat.add_zero _))] at hQ
  exact ends_pure (hQ (Nat.zero_le _) s rfl h rfl)

theorem ends_writeChunks (fuel : ℕ) : ∀ (V : View) (s : State) (j k : ℕ)
    (Q : Outcome State Fault ℕ → Prop), Writable loose V f i s → (s.inode i).busy = false → j+k = n →
    k ≤ fuel → (s.file f).off.toNat ≤ V.size (s.num i) → (s.file f).off.toNat+k ≤ MAXFILE*BSIZE →
    Fills loose V f i (fun t => addr (j+t)) k n Q s → Ends (writeChunks f i addr n fuel j) Q s := by
  induction fuel with
  | zero =>
    intro V s j k Q h hb hjk hf hoff hmax hq
    obtain rfl : k = 0 := by omega
    obtain rfl : j = n := hjk
    exact hq.rest h hoff
  | succ fuel ih =>
    intro V s j k Q h hb hjk hf hoff hmax hq
    rw [writeChunks_succ]
    by_cases hlt : j < n
    · rw [if_pos hlt]
      have hpos : 0 < min (n-j) chunkMax := lt_min (by omega) (by decide)
      have hle := Nat.min_le_left (n-j) chunkMax
      have hchunk := chunk_lt (n-j)
      generalize min (n-j) chunkMax = m at hpos hle hchunk ⊢
      have hlen : ((List.range m).map (fun t => addr (j+t))).length = m := by
        rw [List.length_map, List.length_range]
      obtain ⟨k',rfl⟩ : ∃ k', k = m+k' := ⟨k-m,by omega⟩
      have hok : ¬ Refused (V.size (s.num i)) (s.file f).off.toNat
          ((List.range m).map (fun t => addr (j+t))).length := by
        have hbig : MAXFILE*BSIZE < 2^32 := by decide
        rw [hlen]
        unfold Refused
        omega
      apply ends_bind
      refine ends_transaction h hb (by rw [hlen]; exact hchunk) ⟨fun hc => absurd hc hok,
        fun _ s' hw ho hoff' hspan => ?_,fun _ hlack => ?_⟩
      · have hnum := hw.num
        rw [hlen] at hoff' hspan
        have happ := hspan.missing_append (z := (s.file f).off.toNat+(m+k')) (by omega) (by omega)
        have hcount := hspan.free
        simp only [Then]
        rw [hlen, if_neg (by omega), if_neg (by simp)]
        refine ih _ s' (j+m) k' Q ho (hw.idle hb) (by omega) (by omega) ?_ (by omega)
          ⟨fun hroom s₂ h2 h3 h4 => ?_,fun hlack => hq.full ?_⟩
        · rw [hnum, hoff', size_write V _ (by rw [hlen]; omega), hlen]
          exact Nat.le_max_right _ _
        · rw [hnum, hoff', Nat.add_assoc] at hroom
          refine hq.done (by omega) s₂ (h2.trans hnum) ?_ (by omega)
          have hwrite := write_write V (s.num i) (o := (s.file f).off.toNat)
            (a := (List.range m).map (fun t => addr (j+t)))
            (b := (List.range k').map (fun t => addr (j+m+t)))
            (by rw [hlen, List.length_map, List.length_range]; omega)
          rw [hlen] at hwrite
          rw [hnum, hoff', hwrite, ← range_map_append] at h3
          exact h3
        · rw [hnum, hoff', Nat.add_assoc] at hlack
          omega
      · rw [hlen] at hlack
        exact hq.full (Nat.lt_of_lt_of_le hlack (missing_mono _ _ _ (by omega)))
    · rw [if_neg hlt]
      obtain rfl : k = 0 := by omega
      obtain rfl : j = n := hjk
      exact hq.rest h hoff

theorem writeChunks_off (fuel : ℕ) : ∀ (V : View) (s : State) (j : ℕ), Writable loose V f i s →
    (s.inode i).busy = false → Ends (writeChunks f i addr n fuel j)
      (fun o => ∀ r s', o = some (.ok (r,s')) → (s.file f).off.toNat ≤ (s'.file f).off.toNat) s := by
  have hsame : ∀ (s : State) (j : ℕ), Ends (pure j : FsProg ℕ)
      (fun o => ∀ r s', o = some (.ok (r,s')) → (s.file f).off.toNat ≤ (s'.file f).off.toNat) s := by
    intro s j
    apply ends_pure
    intro r s' hr
    cases hr
    exact Nat.le_refl _
  induction fuel with
  | zero => exact fun V s j _ _ => hsame s j
  | succ fuel ih =>
    intro V s j h hb
    rw [writeChunks_succ]
    split
    · have hlen : ((List.range (min (n-j) chunkMax)).map (fun t => addr (j+t))).length =
          min (n-j) chunkMax := by rw [List.length_map, List.length_range]
      apply ends_bind
      refine ends_transaction h hb (by rw [hlen]; exact chunk_lt _) ⟨fun _ s' hw ho hv hoff => ?_,
        fun _ s' hw ho hoff hspan => ?_,fun _ _ => ?_⟩
      · simp only [Then]
        rw [if_pos (by decide), ← hoff]
        exact hsame s' j
      · simp only [Then]
        rw [hlen, if_neg (by omega), if_neg (by simp)]
        refine ends_mono (ih _ s' _ ho (hw.idle hb)) (fun o hgo r s₂ hr => ?_)
        have := hgo r s₂ hr
        omega
      · exact fun r s' hr => by cases hr
    · exact hsame s j

end Loop

section Calls

variable {addr : ℕ → Byte} {n : Uint} {Q : Outcome State Fault ℤ → Prop}

def total (n : Uint) (j : ℕ) : FsProg ℤ := if (j : ℤ) = n.toInt then pure n.toInt else pure (-1)

theorem ends_filewrite (h : Writable loose V f i s)
    (hQ : Ends (writeChunks f i addr n.toInt.toNat n.toInt.toNat 0) (Then (total n) Q) s) :
    Ends (filewrite f addr n) Q s := by
  unfold filewrite
  apply ends_bind
  apply ends_atom
  simp only [Then]
  rw [h.writable, h.type, h.ip]
  simp only [Bool.true_eq_false, if_false]
  show Ends (writeChunks f i addr n.toInt.toNat n.toInt.toNat 0 >>= total n) Q s
  exact ends_bind hQ

theorem ends_total {j : ℕ} (hQ : ∀ r, Q (some (.ok (r,s)))) : Ends (total n j) Q s := by
  unfold total
  split
  all_goals exact ends_pure (hQ _)

section

variable (h : Writable loose V f i s) {Q : Outcome State Fault ℤ → Prop}
include h

theorem filewrite_fits (hb : (s.inode i).busy = false) (hn : 0 ≤ n.toInt)
    (hok : ¬ Refused (V.size (s.num i)) (s.file f).off.toNat n.toInt.toNat)
    (hq : Fills loose V f i addr n.toInt.toNat n.toInt Q s) : Ends (filewrite f addr n) Q s := by
  unfold Refused at hok
  apply ends_filewrite h
  refine ends_writeChunks _ V s 0 _ _ h hb (Nat.zero_add _) (Nat.le_refl _) (by omega) (by omega)
    ⟨fun hroom s' h1 h2 h3 => ?_,hq.full⟩
  have hto : ((n.toInt.toNat : ℕ) : ℤ) = n.toInt := Int.toNat_of_nonneg hn
  simp only [Then, total]
  rw [if_pos hto]
  simp only [Nat.zero_add] at h2
  exact ends_pure (hq.done hroom s' h1 h2 h3)

theorem filewrite_refused (hb : (s.inode i).busy = false) (hn : 0 < n.toInt)
    (hno : Refused (V.size (s.num i)) (s.file f).off.toNat (min n.toInt.toNat chunkMax))
    (hQ : ∀ s', s'.num i = s.num i → s'.vol = s.vol → (s'.file f).off = (s.file f).off →
      Q (some (.ok (-1,s')))) : Ends (filewrite f addr n) Q s := by
  apply ends_filewrite h
  obtain ⟨k,hk⟩ : ∃ k, n.toInt.toNat = k+1 := ⟨n.toInt.toNat-1,by omega⟩
  rw [hk] at hno ⊢
  rw [writeChunks_succ, if_pos (Nat.succ_pos k)]
  have hlen : ((List.range (min (k+1-0) chunkMax)).map (fun t => addr (0+t))).length =
      min (k+1) chunkMax := by rw [List.length_map, List.length_range, Nat.sub_zero]
  apply ends_bind
  refine ends_transaction h hb (by rw [hlen]; exact chunk_lt _) ⟨fun _ s' hw ho hv hoff => ?_,
    fun hc => absurd (by rw [hlen]; exact hno) hc,fun hc => absurd (by rw [hlen]; exact hno) hc⟩
  simp only [Then]
  rw [if_pos (by decide)]
  apply ends_pure
  simp only [Then, total]
  rw [if_neg (by omega)]
  exact ends_pure (hQ s' hw.num hv hoff)

theorem filewrite_nothing (hn : n.toInt ≤ 0)
    (hQ : Q (some (.ok (if n.toInt = 0 then 0 else -1,s)))) : Ends (filewrite f addr n) Q s := by
  apply ends_filewrite h
  rw [show n.toInt.toNat = 0 by omega]
  apply ends_pure
  simp only [Then, total]
  by_cases h0 : n.toInt = 0
  · rw [if_pos h0] at hQ
    rw [if_pos (show ((0 : ℕ) : ℤ) = n.toInt from h0.symm), h0]
    exact ends_pure hQ
  · rw [if_neg h0] at hQ
    rw [if_neg (fun e => h0 e.symm)]
    exact ends_pure hQ

theorem filewrite_moves (hb : (s.inode i).busy = false) (hn : 0 < n.toInt)
    (hok : ¬ Refused (V.size (s.num i)) (s.file f).off.toNat (min n.toInt.toNat chunkMax)) :
    Ends (filewrite f addr n) (fun o => ∀ r s', o = some (.ok (r,s')) →
      (s.file f).off.toNat < (s'.file f).off.toNat) s := by
  apply ends_filewrite h
  obtain ⟨k,hk⟩ : ∃ k, n.toInt.toNat = k+1 := ⟨n.toInt.toNat-1,by omega⟩
  rw [hk] at hok ⊢
  rw [writeChunks_succ, if_pos (Nat.succ_pos k)]
  have hlen : ((List.range (min (k+1-0) chunkMax)).map (fun t => addr (0+t))).length =
      min (k+1) chunkMax := by rw [List.length_map, List.length_range, Nat.sub_zero]
  have hpos : 0 < min (k+1) chunkMax := lt_min (Nat.succ_pos k) (by decide)
  apply ends_bind
  refine ends_transaction h hb (by rw [hlen]; exact chunk_lt _)
    ⟨fun hc => absurd (by rw [hlen] at hc; exact hc) hok,fun _ s' hw ho hoff hspan => ?_,
      fun _ _ r s' hr => (by cases hr)⟩
  rw [hlen] at hoff
  simp only [Then]
  rw [hlen, if_neg (by omega), if_neg (by simp)]
  refine ends_mono (writeChunks_off k _ s' _ ho (hw.idle hb)) (fun o hgo => ?_)
  rcases o with _ | (e | ⟨j,s₂⟩)
  · exact fun r s' hr => by cases hr
  · exact fun r s' hr => by cases hr
  apply ends_total
  intro r r' s₃ hr
  cases hr
  have := hgo j s₂ rfl
  omega

end

end Calls

end Yeet.Fs
