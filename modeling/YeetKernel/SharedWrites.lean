import YeetKernel.ChunkedWrite
import YeetKernel.SharedTurns

/-!
# Many writers on one open file

Processes write through one `struct file` in any interleaving. The offset is
read and moved under the lock of the inode, so each write starts where the
last one ended.
-/

namespace Yeet.SharedWrites
open Kernel Bytes FsDisk Fs Threads Function
open Resumption hiding Move Seen

def writeAll (f : Fileno) : List Write → FsProg Unit
  | [] => pure ()
  | w::l => do
    let _ ← filewrite f w.addr w.n
    writeAll f l

section System

variable {P : Type} [DecidableEq P] {W : P → List Write} {loose : List Uint} {f : Fileno} {i : Ino}
  {s : State} {p : P} {c : List Byte} {D T : List Write} {w : Write} {V : View} {src : List Byte}
variable {s₁ : State}

theorem sound_counts {α : Type} {x : FsProg α} (hx : x.Does (fun s s' => ∃ k, s' = s.ops k)) (r : Turn) :
    (discipline W loose f i).Sound () p x r (fun _ r' => r' = r) := by
  refine sound_does hx (fun s s' ρ hi _ h => ?_) trivial
  obtain ⟨k,rfl⟩ := h
  exact ⟨hi.ops k,fun _ h => h⟩

theorem sound_acquire [Fintype P] (hmax : ∑ p, size (W p) ≤ MAXFILE*BSIZE) :
    (discipline W loose f i).Sound () p (atom (fun s => s.acquire i)) ⟨none,D,w::T⟩ (fun _ r =>
      ∃ s₁ c, r = ⟨some (s₁,c),D,w::T⟩ ∧ Tidy loose f i c s₁ ∧
        c.length+w.bytes.length ≤ MAXFILE*BSIZE) := by
  apply sound_atom
  intro s ρ b s' hi _ hr hf
  obtain ⟨l,ho,hs⟩ := hi.stands
  unfold State.acquire at hf
  split at hf
  · cases hf
  split at hf
  · cases hf
  rename_i hbusy
  cases hf
  cases hs with
  | held q s₁ k hq hother hs hb hl =>
    subst hs
    exact absurd hb hbusy
  | free hn hb ht =>
    have ht' : Tidy loose f i (joined l) (s.setInode i {s.inode i with busy := true}) := by
      refine ht.congr rfl rfl rfl ?_ ?_ ?_
      · rw [State.num, inode_setInode, State.num]
      all_goals rw [inode_setInode]
    refine ⟨fun _ h => h,⟨some (_,joined l),D,w::T⟩,⟨plan_update hi.plan (by rw [hr]),l,
      done_update ho (by rw [hr]),?_⟩,trivial,_,joined l,rfl,ht',?_⟩
    · refine .held p _ s.outstanding (by rw [update_self]) (fun q hq => ?_) rfl ?_ ht'.leads
      · rw [update_of_ne hq]
        exact hn q
      · rw [inode_setInode]
    · exact room hmax hi.plan ho (by rw [hr])

theorem size_of_tidy (hw : Writable loose V f i s) (hc : fileBytes s i = c) :
    c.length = V.size (s.num i) := by
  rw [← hc, hw.fileBytes, View.bytes, List.length_map, List.length_range]

theorem Tidy.lockedWrite (h : Tidy loose f i c s) (hroom : c.length+src.length ≤ MAXFILE*BSIZE) :
    Ends (Fs.lockedWrite f i src) (fun o => ∀ r s', o = some (.ok (r,s')) →
      r = src.length ∧ Tidy loose f i (c++src) s') s := by
  obtain ⟨V,hw,hc,ho⟩ := h
  have hbig : MAXFILE*BSIZE < 2^32 := by decide
  have hsize := size_of_tidy hw hc
  have hfits : ¬ Refused (V.size (s.num i)) (s.file f).off.toNat src.length := by
    unfold Refused
    omega
  refine ends_lockedWrite hw (by omega) ⟨fun hno => absurd hno hfits,
    fun _ s' hwork hw' ho' _ r t hr => ?_,fun _ _ r t hr => (by cases hr)⟩
  cases hr
  refine ⟨rfl,_,hw',?_,?_⟩
  · rw [hw'.fileBytes, hwork.num, bytes_write V _ (by omega) (by omega), ← hw.fileBytes, hc, ho, replace,
      List.take_length, List.drop_of_length_le (by omega), List.append_nil]
  · rw [ho', ho, List.length_append]

theorem Tidy.lockedRead (h : Tidy loose f i c s) :
    Ends (Fs.lockedRead f i) (fun o => ∀ x s', o = some (.ok (x,s')) → x.2.type ≠ T_DEV) s := by
  obtain ⟨V,hw,-,-⟩ := h
  unfold Fs.lockedRead
  apply ends_bind
  apply ends_atom
  show Then _ _ (some (s.load i))
  rw [hw.load]
  apply ends_bind
  apply ends_atom
  apply ends_bind
  apply ends_atom
  simp only [Then]
  apply ends_pure
  intro x s' hx
  cases hx
  have ht := hw.regular
  rw [hw.node] at ht
  rw [State.loaded, inode_setInode]
  exact ht

theorem sound_lockedWrite (ht : Tidy loose f i c s₁) (hroom : c.length+src.length ≤ MAXFILE*BSIZE) :
    (discipline W loose f i).Sound () p (lockedWrite f i src) ⟨some (s₁,c),D,T⟩ (fun r t =>
      ∃ s₂, t = ⟨some (s₂,c),D,T⟩ ∧ r = src.length ∧ Tidy loose f i (c++src) s₂) := by
  have hown := owns W loose f i p c D T
  have hE := ht.lockedWrite hroom
  rw [lockedWrite_eq, ends_bind_iff] at hE
  have hread : Ends (lockedRead f i) (fun o => ∀ x s, o = some (.ok (x,s)) →
      Ends (writeAdvance f i src x.1 x.2) (fun o => ∀ r s', o = some (.ok (r,s')) →
        r = src.length ∧ Tidy loose f i (c++src) s') s ∧ x.2.type ≠ T_DEV) s₁ := by
    apply ends_mono (ends_and hE ht.lockedRead)
    intro o ho x s hx
    have htype := ho.2 x s hx
    have hthen := ho.1
    rw [hx] at hthen
    simp only [Then, if_neg htype] at hthen
    exact ⟨hthen,htype⟩
  rw [lockedWrite_eq]
  refine sound_seq (sound_owning hown (fun k => lockedRead_blindly f i) lockedRead_holds hread)
    (fun x t h => ?_)
  obtain ⟨s₂,rfl,hadv,htype⟩ := h
  rw [if_neg htype]
  exact sound_owning hown (fun k => writeAdvance_blindly f i src _ _) (writeAdvance_holds src _ _) hadv

theorem sound_iunlock (ht : Tidy loose f i (c++w.bytes) s₁) :
    (discipline W loose f i).Sound () p (iunlock i) ⟨some (s₁,c),D,w::T⟩
      (fun _ r => r = ⟨none,D++[w],T⟩) := by
  apply sound_atom
  intro s ρ b s' hi _ hr hf
  obtain ⟨l,k,ho,hj,hother,hs,hb,hl⟩ := hi.holding hr
  subst hs
  have hun : (s₁.ops k).unlock i = .ok ((),(s₁.ops k).setInode i {s₁.inode i with busy := false}) := by
    unfold State.unlock
    refine if_neg ?_
    have href := hl.ref
    show ¬ (!(s₁.inode i).busy || decide (s₁.iref i < 1)) = true
    rw [hb, decide_eq_false (by omega)]
    decide
  have hf : some ((s₁.ops k).unlock i) = some (.ok (b,s')) := hf
  rw [hun] at hf
  cases hf
  refine ⟨fun _ h => h,⟨none,D++[w],T⟩,⟨plan_update hi.plan (by rw [hr]; simp),l++[(p,w)],
    done_append ho (by rw [hr]),?_⟩,trivial,rfl⟩
  rw [joined_append, hj]
  refine .free (snap_update hother rfl) (by rw [inode_setInode]) (ht.congr rfl rfl rfl ?_ ?_ ?_)
  · rw [State.num, inode_setInode, State.num]
  · rw [inode_setInode]
  · rw [inode_setInode]

theorem sound_transaction [Fintype P] (hmax : ∑ p, size (W p) ≤ MAXFILE*BSIZE) :
    (discipline W loose f i).Sound () p (transaction f i w.bytes) ⟨none,D,w::T⟩
      (fun r t => r = w.bytes.length ∧ t = ⟨none,D++[w],T⟩) := by
  unfold transaction
  refine sound_seq (sound_counts (does_assign (fun s => ⟨s.outstanding+1,rfl⟩)) _) (fun _ t h => ?_)
  subst h
  refine sound_seq (sound_acquire hmax) (fun _ t h => ?_)
  obtain ⟨s₁,c,rfl,ht,hroom⟩ := h
  refine sound_seq (sound_lockedWrite ht hroom) (fun r t h => ?_)
  obtain ⟨s₂,rfl,hr,ht₂⟩ := h
  refine sound_seq (sound_iunlock ht₂) (fun _ t h => ?_)
  subst h
  refine sound_seq (sound_counts (does_assign (fun s => ⟨s.outstanding-1,rfl⟩)) _) (fun _ t h => ?_)
  exact sound_pure ⟨hr,h⟩

theorem sound_look (r : Turn) :
    (discipline W loose f i).Sound () p (fetch (fun s => s.file f) : FsProg File) r (fun x r' =>
      (x.writable = true ∧ x.type = .inode ∧ x.ip = some i) ∧ r' = r) := by
  apply sound_act
  intro s ρ x s' hi hl hr hf
  cases hf
  have hlead := hi.leads
  exact ⟨ρ,hi,hl,fun q _ => ⟨id,Or.inl rfl⟩,trivial,⟨hlead.writable,hlead.type,hlead.ip⟩,hr⟩

theorem sound_look_empty (hw : w.bytes = []) :
    (discipline W loose f i).Sound () p (fetch (fun s => s.file f) : FsProg File) ⟨none,D,w::T⟩
    (fun x r' => (x.writable = true ∧ x.type = .inode ∧ x.ip = some i) ∧ r' = ⟨none,D++[w],T⟩) := by
  apply sound_atom
  intro s ρ x s' hi _ hr hf
  cases hf
  have hlead := hi.leads
  obtain ⟨l,ho,hs⟩ := hi.stands
  refine ⟨fun _ h => h,⟨none,D++[w],T⟩,⟨plan_update hi.plan (by rw [hr]; simp),l++[(p,w)],
    done_append ho (by rw [hr]),?_⟩,trivial,⟨hlead.writable,hlead.type,hlead.ip⟩,rfl⟩
  rw [joined_append, hw, List.append_nil]
  cases hs with
  | free hn hb ht => exact .free (snap_update (fun q _ => hn q) rfl) hb ht
  | held q s₁ k hq hother hs hb hl =>
    have hne : q ≠ p := by
      intro e
      rw [e, hr] at hq
      cases hq
    refine .held q s₁ k (by rw [update_of_ne hne]; exact hq) (fun z hz => ?_) hs hb hl
    by_cases e : z = p
    · rw [e, update_self]
    · rw [update_of_ne e]
      exact hother z hz

theorem writeChunks_end (f : Fileno) (i : Ino) (addr : ℕ → Byte) {n j : ℕ} (h : n ≤ j) (fuel : ℕ) :
    writeChunks f i addr n fuel j = pure j := by
  cases fuel with
  | zero => rfl
  | succ fuel => rw [writeChunks_succ, if_neg (by omega)]

theorem sound_filewrite [Fintype P] (hmax : ∑ p, size (W p) ≤ MAXFILE*BSIZE)
    (hw : w.n.toInt ≤ chunkMax) :
    (discipline W loose f i).Sound () p (filewrite f w.addr w.n) ⟨none,D,w::T⟩
      (fun _ r => r = ⟨none,D++[w],T⟩) := by
  have hlast : ∀ (j : ℕ) (t : Turn), t = ⟨none,D++[w],T⟩ → (discipline W loose f i).Sound () p
      (if (j : ℤ) = w.n.toInt then pure w.n.toInt else pure (-1) : FsProg ℤ) t
        (fun _ r => r = ⟨none,D++[w],T⟩) := by
    intro j t h
    split
    · exact sound_pure h
    · exact sound_pure h
  unfold filewrite
  by_cases hpos : 0 < w.n.toInt.toNat
  · refine sound_seq (sound_look _) (fun x t h => ?_)
    obtain ⟨⟨hx,ht,hip⟩,rfl⟩ := h
    rw [if_neg (by rw [hx]; decide), ht, hip]
    have hmin : min (w.n.toInt.toNat-0) chunkMax = w.n.toInt.toNat := by omega
    have hbytes : (List.range w.n.toInt.toNat).map (fun j => w.addr (0+j)) = w.bytes := by
      simp only [Nat.zero_add]
      rfl
    obtain ⟨fuel,hfuel⟩ : ∃ fuel, w.n.toInt.toNat = fuel+1 := ⟨w.n.toInt.toNat-1,by omega⟩
    have hloop : writeChunks f i w.addr w.n.toInt.toNat w.n.toInt.toNat 0 =
        transaction f i w.bytes >>= fun r =>
          if r < 0 then pure 0
          else if r ≠ (w.n.toInt.toNat : ℕ) then halt "short filewrite"
          else pure (0+w.n.toInt.toNat) := by
      have h := writeChunks_succ f i w.addr w.n.toInt.toNat fuel 0
      rw [← hfuel, if_pos hpos, hmin, hbytes,
        writeChunks_end f i w.addr (show w.n.toInt.toNat ≤ 0+w.n.toInt.toNat by omega)] at h
      exact h
    show (discipline W loose f i).Sound () p (writeChunks f i w.addr _ _ 0 >>= _) _ _
    rw [hloop, Resumption.bind_assoc]
    refine sound_seq (sound_transaction hmax) (fun r t h => ?_)
    obtain ⟨hr,ht⟩ := h
    have hlen : w.bytes.length = w.n.toInt.toNat := by
      rw [Write.bytes, List.length_map, List.length_range]
    rw [if_neg (by omega), if_neg (by omega)]
    exact hlast _ t ht
  · have hzero : w.n.toInt.toNat = 0 := by omega
    have hbytes : w.bytes = [] := by
      rw [Write.bytes, hzero]
      rfl
    refine sound_seq (sound_look_empty hbytes) (fun x t h => ?_)
    obtain ⟨⟨hx,ht,hip⟩,hturn⟩ := h
    rw [if_neg (by rw [hx]; decide), ht, hip]
    show (discipline W loose f i).Sound () p (writeChunks f i w.addr _ _ 0 >>= _) _ _
    rw [writeChunks_end f i w.addr (by omega)]
    exact hlast 0 t hturn

theorem sound_writeAll [Fintype P] (hmax : ∑ p, size (W p) ≤ MAXFILE*BSIZE) (l : List Write)
    (hl : ∀ w ∈ l, w.n.toInt ≤ chunkMax) (D : List Write) :
    (discipline W loose f i).Sound () p (writeAll f l) ⟨none,D,l⟩
      (fun _ r => r.snap = none ∧ r.todo = []) := by
  induction l generalizing D with
  | nil => exact sound_pure ⟨rfl,rfl⟩
  | cons w l ih =>
    refine sound_seq (sound_filewrite hmax (hl w List.mem_cons_self)) (fun _ t h => ?_)
    subst h
    exact ih (fun v hv => hl v (List.mem_cons_of_mem w hv)) _

def writers (f : Fileno) (W : P → List Write) : Machine State Fault P Unit Unit where
  enabled _ _ := false
  code p _ := writeAll f (W p)
  leave _ _ s := s

def start (f : Fileno) (W : P → List Write) (s : State) : Pool State Fault P Unit Unit :=
  ⟨s,fun p => some ((),writeAll f (W p))⟩

theorem writers_follow (W : P → List Write) (loose : List Uint) (f : Fileno) (i : Ino) :
    Follows (discipline W loose f i) (writers f W) (fun _ => False) := by
  constructor
  case enabled => exact fun _ _ h => absurd h Bool.false_ne_true
  case code => exact fun _ _ _ h => absurd h id
  case leave => exact fun p _ s ρ hi _ hf => ⟨ρ,hi,hf,fun q _ => ⟨id,Or.inl rfl⟩⟩

theorem start_inv (hw : Writable loose V f i s) (hb : (s.inode i).busy = false)
    (hsize : fileBytes s i = []) (hoff : (s.file f).off = 0) (W : P → List Write) :
    Inv W loose f i s (fun p => ⟨none,[],W p⟩) := by
  refine ⟨fun p => rfl,[],fun p => rfl,.free (fun p => rfl) hb ⟨V,hw,hsize,?_⟩⟩
  rw [hoff]
  rfl

theorem run_inv [Fintype P] (hw : Writable loose V f i s) (hb : (s.inode i).busy = false)
    (hsize : fileBytes s i = []) (hoff : (s.file f).off = 0)
    (hchunk : ∀ p, ∀ w ∈ W p, w.n.toInt ≤ chunkMax) (hmax : ∑ p, size (W p) ≤ MAXFILE*BSIZE)
    {h : List (Move P Unit × Seen P Unit Unit)} {x : Pool State Fault P Unit Unit}
    (hrun : Lts.Run (Threads.exec (writers f W)) (start f W s) h x) :
    ∃ ρ, Inv W loose f i x.state ρ ∧
      ∀ p, (discipline W loose f i).Fits x.state p (ρ p) (x.thread p) := by
  induction hrun with
  | nil =>
    exact ⟨_,start_inv hw hb hsize hoff W,fun p => ⟨trivial,trivial,
      sound_writeAll hmax (W p) (hchunk p) []⟩⟩
  | snoc run step ih =>
    obtain ⟨ρ,hi,hfit⟩ := ih
    refine step_fits (writers_follow W loose f i) hi hfit (fun p c hm => ?_) step
    -- no process is enabled, so no call starts
    subst hm
    simp only [Threads.exec, writers] at step
    split at step
    · exact absurd step (by simp)
    · cases step

end System

/-- Once all processes are done, the file has all their writes, those of each process in their
order, and the offset is behind the last. -/
theorem shared_writes_kept {P : Type} [DecidableEq P] [Fintype P] {loose : List Uint} {V : View}
    {f : Fileno} {i : Ino} {s : State} (hw : Writable loose V f i s) (hb : (s.inode i).busy = false)
    (hsize : fileBytes s i = []) (hoff : (s.file f).off = 0) {W : P → List Write}
    (hchunk : ∀ p, ∀ w ∈ W p, w.n.toInt ≤ chunkMax) (hmax : ∑ p, size (W p) ≤ MAXFILE*BSIZE)
    {h : List (Move P Unit × Seen P Unit Unit)} {x : Pool State Fault P Unit Unit}
    (hrun : Lts.Run (Threads.exec (writers f W)) (start f W s) h x) (hdone : ∀ p, x.thread p = none) :
    ∃ l : List (P × Write), (∀ p, own l p = W p) ∧ fileBytes x.state i = joined l ∧
      (x.state.file f).off.toNat = ∑ p, size (W p) := by
  obtain ⟨ρ,hi,hfit⟩ := run_inv hw hb hsize hoff hchunk hmax hrun
  have hrest : ∀ p, (ρ p).snap = none ∧ (ρ p).todo = [] := by
    intro p
    have hp := hfit p
    rw [hdone p] at hp
    exact hp
  obtain ⟨l,ho,hs⟩ := hi.stands
  have hown : ∀ p, own l p = W p := by
    intro p
    rw [ho p, ← hi.plan p, (hrest p).2, List.append_nil]
  cases hs with
  | free hn hb ht =>
    obtain ⟨V',hw',hc,hoff'⟩ := ht
    refine ⟨l,hown,hc,?_⟩
    rw [hoff', length_joined]
    exact Finset.sum_congr rfl (fun p _ => congrArg size (hown p))
  | held p s₁ k hp hq hs hb hl =>
    rw [(hrest p).1] at hp
    cases hp

section Scratch

def twoBytes (p : Bool) : List Write := [⟨fun _ => if p then 66 else 65,1⟩]

def twoWriters : List (Move Bool Unit) :=
  List.replicate 5 (.step false 0)++List.replicate 2 (.step true 0)++
    List.replicate 8 (.step false 0)++List.replicate 11 (.step true 0)

theorem shared_writes_kept_two : ∃ h x,
    Lts.Run (Threads.exec (writers firstFile twoBytes))
      (start firstFile twoBytes (scratchFile emptyFile 0)) h x ∧
    (∀ p, x.thread p = none) ∧ ∃ l : List (Bool × Write), (∀ p, own l p = twoBytes p) ∧
      fileBytes x.state firstSlot = joined l ∧ (x.state.file firstFile).off.toNat = 2 := by
  obtain ⟨h,x,hrun,-,hdone⟩ := Lts.replay_reaches (Threads.exec (writers firstFile twoBytes))
    (start firstFile twoBytes (scratchFile emptyFile 0)) twoWriters
    (fun _ x => ∀ p, (x.thread p).isNone = true) (by decide +kernel)
  have hnone : ∀ p, x.thread p = none := fun p => Option.isNone_iff_eq_none.mp (hdone p)
  refine ⟨h,x,hrun,hnone,?_⟩
  exact shared_writes_kept (scratchFile_writable (d := emptyFile) (by decide) (by decide) rfl
    (fun _ => rfl) 0) rfl rfl rfl (by decide) (by decide) hrun hnone

end Scratch

end Yeet.SharedWrites
