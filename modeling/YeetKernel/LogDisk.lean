import YeetKernel.BlockIo
import YeetKernel.Kernel

/-!
# The write-ahead log on disk

`commit` and `recover_from_log` as programs on a disk whose block writes are
synchronous and atomic. Between two writes the power may fail, also during
recovery and any number of times. The disk is always in one of three phases:
the header is clear and the home blocks are old, the header lists the logged
blocks and the log holds their new contents, or the header is clear and the
home blocks are new.
-/

namespace Yeet.LogDisk
open Kernel Bytes BlockIo Function

abbrev DiskIo := Io Uint DiskBlock

/-- `struct log`; `lh` is `lh.block[0..lh.n)`. -/
structure Log where
  start : Uint
  size : ℕ
  lh : List Uint
  deriving DecidableEq, Repr

def Log.block (lg : Log) (tail : ℕ) : Uint := lg.start+BitVec.ofNat 32 (tail+1)

/-- `lh->n` of a header block. -/
def headCount (b : DiskBlock) : ℕ := (getField b 0 4 : Uint).toInt.toNat

/-- `lh->block[0..n)` of a header block. -/
def headBlocks (b : DiskBlock) : List Uint :=
  (List.range (headCount b)).map (fun i => getField b (4+4*i) 4)

def fillHead : List Uint → ℕ → DiskBlock → DiskBlock
  | [], _, b => b
  | x::xs, i, b => fillHead xs (i+1) (setField b (4+4*i) 4 x)

/-- `hb->n = n; hb->block[i] = block[i]` over the old contents of the header. -/
def setHead (b : DiskBlock) (lh : List Uint) : DiskBlock :=
  fillHead lh 0 (setField b 0 4 (BitVec.ofNat 32 lh.length))

def installTrans (lg : Log) : DiskIo Unit :=
  forEach lg.lh.zipIdx (fun e => do
    let lbuf ← bread (lg.block e.2)
    let _ ← bread e.1
    bwrite e.1 lbuf)

def readHead (lg : Log) : DiskIo Log := do
  let buf ← bread lg.start
  return { lg with lh := headBlocks buf }

def writeHead (lg : Log) : DiskIo Unit := do
  let buf ← bread lg.start
  bwrite lg.start (setHead buf lg.lh)

def recoverFromLog (lg : Log) : DiskIo Log := do
  let lg ← readHead lg
  installTrans lg
  let lg := { lg with lh := [] }
  writeHead lg
  return lg

def writeLog (lg : Log) : DiskIo Unit :=
  forEach lg.lh.zipIdx (fun e => do
    let _ ← bread (lg.block e.2)
    let from' ← bread e.1
    bwrite (lg.block e.2) from')

def commit (lg : Log) : DiskIo Log :=
  if 0 < lg.lh.length then do
    writeLog lg
    writeHead lg
    installTrans lg
    let lg := { lg with lh := [] }
    writeHead lg
    return lg
  else return lg

/-- Recovery started on the disk `d` ends with the disk `d'`, after any number
of crashes on the way. -/
inductive Recovers (lg : Log) : (Uint → DiskBlock) → (Uint → DiskBlock) → Prop where
  | done (d : Uint → DiskBlock) : Recovers lg d (final (recoverFromLog lg) (boot d)).disk
  | crash {d d' : Uint → DiskBlock} (k : ℕ)
      (rest : Recovers lg (crash (recoverFromLog lg) (boot d) k) d') : Recovers lg d d'

def InLog (lg : Log) (b : Uint) : Prop := ∃ j < lg.size, b = lg.start+BitVec.ofNat 32 j

section Header

theorem fillHead_below (xs : List Uint) (i : ℕ) (b : DiskBlock) {o : ℕ} (h : o+4 ≤ 4+4*i) :
    getField (fillHead xs i b) o 4 = getField b o 4 := by
  induction xs generalizing i b with
  | nil => rfl
  | cons x xs ih => rw [fillHead, ih _ _ (by omega), getField_setField_ne _ _ (Or.inl h)]

theorem fillHead_get (xs : List Uint) (i : ℕ) (b : DiskBlock) (hn : 4+4*(i+xs.length) ≤ BSIZE)
    (j : ℕ) (hj : j < xs.length) : getField (fillHead xs i b) (4+4*(i+j)) 4 = xs[j] := by
  induction xs generalizing i b j with
  | nil => simp at hj
  | cons x xs ih =>
    rw [List.length_cons] at hn
    cases j with
    | zero =>
      show getField (fillHead (x::xs) i b) (4+4*i) 4 = x
      rw [fillHead, fillHead_below _ _ _ (by omega), getField_setField _ _ (by omega)]
    | succ j =>
      have := ih (i+1) (setField b (4+4*i) 4 x) (by omega) j (by simpa using hj)
      rw [fillHead, show i+(j+1) = i+1+j by omega, this]
      rfl

theorem headCount_setHead (b : DiskBlock) (lh : List Uint) (hn : lh.length ≤ LOGSIZE) :
    headCount (setHead b lh) = lh.length := by
  have hc : (getField (setHead b lh) 0 4 : Uint) = BitVec.ofNat 32 lh.length := by
    rw [setHead, fillHead_below _ _ _ (by omega), getField_setField _ _ (by decide)]
  have hl : lh.length ≤ 30 := hn
  rw [headCount, hc, BitVec.toInt_ofNat', Int.bmod_def]
  omega

theorem headBlocks_setHead (b : DiskBlock) (lh : List Uint) (hn : lh.length ≤ LOGSIZE) :
    headBlocks (setHead b lh) = lh := by
  have hl : lh.length ≤ 30 := hn
  refine List.ext_getElem (by simp [headBlocks, headCount_setHead b lh hn]) (fun j h1 h2 => ?_)
  have := fillHead_get lh 0 (setField b 0 4 (BitVec.ofNat 32 lh.length))
    (show 4+4*(0+lh.length) ≤ 512 by omega) j h2
  rw [Nat.zero_add] at this
  simpa [headBlocks, setHead] using this

theorem headBlocks_nil {b : DiskBlock} (h : headCount b = 0) : headBlocks b = [] := by
  simp [headBlocks, h]

end Header

/-- What `log_write` guarantees about a transaction. -/
structure Loggable (lg : Log) : Prop where
  distinct : lg.lh.Nodup
  outside : ∀ b ∈ lg.lh, ¬ InLog lg b
  fits : lg.lh.length+1 ≤ lg.size
  bound : lg.lh.length ≤ LOGSIZE

def updated (lg : Log) (pre post : Uint → DiskBlock) (b : Uint) : DiskBlock :=
  if b ∈ lg.lh then post b else pre b

/-- The header is clear and every home block has the contents `h`. -/
structure Clear (lg : Log) (h : Uint → DiskBlock) (d : Uint → DiskBlock) : Prop where
  count : headCount (d lg.start) = 0
  home : ∀ b, ¬ InLog lg b → d b = h b

/-- The header lists the transaction and the log holds its blocks. -/
structure Committed (lg : Log) (pre post : Uint → DiskBlock) (d : Uint → DiskBlock) : Prop where
  head : headBlocks (d lg.start) = lg.lh
  logged : ∀ e ∈ lg.lh.zipIdx, d (lg.block e.2) = post e.1
  other : ∀ b, ¬ InLog lg b → b ∉ lg.lh → d b = pre b
  home : ∀ b ∈ lg.lh, d b = pre b ∨ d b = post b

section Phases

variable {lg : Log} {pre post : Uint → DiskBlock} {s : Store Uint DiskBlock} {e : Uint × ℕ}
variable {d : Uint → DiskBlock} {i j : ℕ} {C : (Uint → DiskBlock) → Prop} {h : Uint → DiskBlock}

theorem start_inLog (hl : Loggable lg) : InLog lg lg.start :=
  ⟨0,Nat.lt_of_lt_of_le (Nat.succ_pos _) hl.fits,by simp⟩

theorem zipIdx_lt (he : e ∈ lg.lh.zipIdx) : e.2 < lg.lh.length := by
  have := List.mem_zipIdx he
  omega

theorem zipIdx_mem (he : e ∈ lg.lh.zipIdx) : e.1 ∈ lg.lh := by
  have := List.mem_zipIdx he
  exact this.2.2 ▸ List.getElem_mem _

theorem zipIdx_ext {e x : Uint × ℕ} (he : e ∈ lg.lh.zipIdx) (hx : x ∈ lg.lh.zipIdx)
    (h : x.2 = e.2) : x = e := by
  have h1 := (List.mem_zipIdx he).2.2
  have h2 := (List.mem_zipIdx hx).2.2
  refine Prod.ext ?_ h
  rw [h1, h2]
  congr 1

theorem block_inLog (hl : Loggable lg) (he : e ∈ lg.lh.zipIdx) : InLog lg (lg.block e.2) :=
  ⟨e.2+1,Nat.lt_of_lt_of_le (Nat.succ_lt_succ (zipIdx_lt he)) hl.fits,rfl⟩

theorem offset_inj {a : Uint} (hi : i < 2^32) (hj : j < 2^32)
    (h : a+BitVec.ofNat 32 i = a+BitVec.ofNat 32 j) : i = j := by
  have hv := congrArg BitVec.toNat (add_left_cancel h)
  simpa only [BitVec.toNat_ofNat, Nat.mod_eq_of_lt hi, Nat.mod_eq_of_lt hj] using hv

theorem block_ne (hl : Loggable lg) (hi : i < lg.lh.length) (hj : j < lg.lh.length)
    (h : i ≠ j) : lg.block i ≠ lg.block j := by
  have hb : lg.lh.length ≤ 30 := hl.bound
  intro e
  have := offset_inj (by omega) (by omega) e
  omega

theorem block_ne_start (hl : Loggable lg) {i : ℕ} (hi : i < lg.lh.length) :
    lg.block i ≠ lg.start := by
  have hb : lg.lh.length ≤ 30 := hl.bound
  intro e
  have := offset_inj (j := 0) (by omega) (by omega) (e.trans (by simp))
  omega

theorem ne_of_home {b c : Uint} (hb : ¬ InLog lg b) (hc : InLog lg c) : b ≠ c :=
  fun e => hb (e ▸ hc)

theorem writeLog_safe (hl : Loggable lg) (hs : Clear lg pre s.disk)
    (hpost : ∀ b ∈ lg.lh, s.read b = post b) :
    Safe (writeLog lg) s (Clear lg pre) (fun _ s' => Clear lg pre s'.disk ∧
      ∀ e ∈ lg.lh.zipIdx, s'.disk (lg.block e.2) = post e.1 ∧ s'.pinned (lg.block e.2) = none) := by
  refine safe_mono (safe_forEach (I := fun done s' => Clear lg pre s'.disk ∧
      (∀ b ∈ lg.lh, s'.read b = post b) ∧ ∀ e ∈ done, e ∈ lg.lh.zipIdx ∧
        s'.disk (lg.block e.2) = post e.1 ∧ s'.pinned (lg.block e.2) = none)
    lg.lh.zipIdx [] ?_ (fun _ _ h => h.1) ⟨hs,hpost,by simp⟩) (fun _ h => h)
    (fun _ s' h => ⟨h.1,fun e he => (h.2.2 e (by simpa using he)).2⟩)
  rintro done e rest hsplit s' ⟨hc,hp,hd⟩
  have he : e ∈ lg.lh.zipIdx := by
    rw [← List.nil_append lg.lh.zipIdx, hsplit]
    simp
  have hin := block_inLog hl he
  have hc' : Clear lg pre (s'.write (lg.block e.2,s'.read e.1)).disk := by
    refine ⟨?_,fun b hb => ?_⟩
    · simp only [Store.write, update_of_ne (block_ne_start hl (zipIdx_lt he)).symm]
      exact hc.count
    · simp only [Store.write, update_of_ne (ne_of_home hb hin)]
      exact hc.home b hb
  refine safe_bread (safe_bread (safe_bwrite hc hc' ⟨hc',fun b hb => ?_,fun x hx => ?_⟩))
  · have hne := ne_of_home (hl.outside b hb) hin
    rw [← hp b hb]
    simp only [Store.read, Store.write, update_of_ne hne]
  by_cases hxe : x.2 = e.2
  · have hx' : x ∈ lg.lh.zipIdx := by
      rcases List.mem_append.mp hx with hx | hx
      · exact (hd x hx).1
      · rw [List.mem_singleton.mp hx]
        exact he
    obtain rfl := zipIdx_ext he hx' hxe
    exact ⟨he,by simp [Store.write, hp x.1 (zipIdx_mem he)]⟩
  have hx' : x ∈ done := by
    rcases List.mem_append.mp hx with hx | hx
    · exact hx
    · exact absurd (congrArg Prod.snd (List.mem_singleton.mp hx)) hxe
  obtain ⟨h1,h2,h3⟩ := hd x hx'
  have hne := block_ne hl (zipIdx_lt h1) (zipIdx_lt he) hxe
  refine ⟨h1,?_⟩
  simp only [Store.write, update_of_ne hne]
  exact ⟨h2,h3⟩

theorem read_of_unpinned {b : Uint} (h : s.pinned b = none) : s.read b = s.disk b := by
  simp [Store.read, h]

theorem writeHead_commits (hl : Loggable lg) (hs : Clear lg pre s.disk)
    (hlog : ∀ e ∈ lg.lh.zipIdx, s.disk (lg.block e.2) = post e.1) :
    Committed lg pre post (s.write (lg.start,setHead (s.read lg.start) lg.lh)).disk := by
  have hin := start_inLog hl
  refine ⟨?_,fun e he => ?_,fun b hb _ => ?_,fun b hb => Or.inl ?_⟩
  · simp only [Store.write, update_self]
    exact headBlocks_setHead _ _ hl.bound
  · simp only [Store.write, update_of_ne (block_ne_start hl (zipIdx_lt he))]
    exact hlog e he
  · simp only [Store.write, update_of_ne (ne_of_home hb hin)]
    exact hs.home b hb
  · simp only [Store.write, update_of_ne (ne_of_home (hl.outside b hb) hin)]
    exact hs.home b (hl.outside b hb)

theorem Committed.install (hl : Loggable lg) (h : Committed lg pre post d)
    {c : Uint} (hc : c ∈ lg.lh) : Committed lg pre post (update d c (post c)) := by
  have hout := hl.outside c hc
  refine ⟨?_,fun e he => ?_,fun b hb hbl => ?_,fun b hb => ?_⟩
  · rw [update_of_ne (ne_of_home hout (start_inLog hl)).symm]
    exact h.head
  · rw [update_of_ne (ne_of_home hout (block_inLog hl he)).symm]
    exact h.logged e he
  · have hne : b ≠ c := fun e => hbl (e ▸ hc)
    rw [update_of_ne hne]
    exact h.other b hb hbl
  by_cases e : b = c
  · subst e
    exact Or.inr (update_self ..)
  · rw [update_of_ne e]
    exact h.home b hb

theorem installTrans_safe (hl : Loggable lg) (hs : Committed lg pre post s.disk)
    (hp : ∀ e ∈ lg.lh.zipIdx, s.pinned (lg.block e.2) = none) :
    Safe (installTrans lg) s (Committed lg pre post) (fun _ s' =>
      Committed lg pre post s'.disk ∧ ∀ b ∈ lg.lh, s'.disk b = post b) := by
  refine safe_mono (safe_forEach (I := fun done s' => Committed lg pre post s'.disk ∧
      (∀ e ∈ lg.lh.zipIdx, s'.pinned (lg.block e.2) = none) ∧
      ∀ e ∈ done, s'.disk e.1 = post e.1)
    lg.lh.zipIdx [] ?_ (fun _ _ h => h.1) ⟨hs,hp,by simp⟩) (fun _ h => h)
    (fun _ s' h => ⟨h.1,fun b hb => ?_⟩)
  · rintro done e rest hsplit s' ⟨hc,hp,hd⟩
    have he : e ∈ lg.lh.zipIdx := by
      rw [← List.nil_append lg.lh.zipIdx, hsplit]
      simp
    have hmem := zipIdx_mem he
    have hval : s'.read (lg.block e.2) = post e.1 := by
      rw [read_of_unpinned (hp e he), hc.logged e he]
    have hc' : Committed lg pre post (s'.write (e.1,s'.read (lg.block e.2))).disk := by
      rw [hval]
      exact hc.install hl hmem
    refine safe_bread (safe_bread (safe_bwrite hc hc' ⟨hc',fun x hx => ?_,fun x hx => ?_⟩))
    · have hne := ne_of_home (hl.outside e.1 hmem) (block_inLog hl hx)
      simp only [Store.write, update_of_ne hne.symm]
      exact hp x hx
    simp only [Store.write, hval]
    by_cases hxe : x.1 = e.1
    · rw [hxe, update_self]
    rw [update_of_ne hxe]
    rcases List.mem_append.mp hx with hx | hx
    · exact hd x hx
    · exact absurd (congrArg Prod.fst (List.mem_singleton.mp hx)) hxe
  · obtain ⟨i,hi,rfl⟩ := List.mem_iff_getElem.mp hb
    have := h.2.2 (lg.lh[i],i) (by simp [List.mem_zipIdx_iff_getElem?])
    exact this

theorem writeHead_clears (hl : Loggable lg) (hs : Committed lg pre post s.disk)
    (hnew : ∀ b ∈ lg.lh, s.disk b = post b) (buf : DiskBlock) :
    Clear lg (updated lg pre post) (s.write (lg.start,setHead buf [])).disk := by
  refine ⟨?_,fun b hb => ?_⟩
  · simp only [Store.write, update_self]
    exact headCount_setHead _ _ (Nat.zero_le _)
  simp only [Store.write, update_of_ne (ne_of_home hb (start_inLog hl)), updated]
  split
  · rename_i hm
    exact hnew b hm
  · rename_i hm
    exact hs.other b hb hm

theorem readHead_safe (hc : C s.disk) : Safe (readHead lg) s C
      (fun r s' => r = { lg with lh := headBlocks (s.read lg.start) } ∧ s' = s) :=
  safe_bread (safe_pure hc ⟨rfl,rfl⟩)

theorem writeHead_safe {Q : Unit → Store Uint DiskBlock → Prop}
    (hc : C s.disk) (hw : C (s.write (lg.start,setHead (s.read lg.start) lg.lh)).disk)
    (hq : Q () (s.write (lg.start,setHead (s.read lg.start) lg.lh))) : Safe (writeHead lg) s C Q :=
  safe_bread (safe_bwrite hc hw hq)

/-- The disk after the transaction has been committed, before or after the
log is cleared. -/
def Durable (lg : Log) (pre post : Uint → DiskBlock) (d : Uint → DiskBlock) : Prop :=
  Committed lg pre post d ∨ Clear lg (updated lg pre post) d

theorem finish_safe (hl : Loggable lg) (hs : Committed lg pre post s.disk)
    (hp : ∀ e ∈ lg.lh.zipIdx, s.pinned (lg.block e.2) = none) : Safe (do
      installTrans lg
      writeHead { lg with lh := [] }
      return ({ lg with lh := [] } : Log)) s (Durable lg pre post)
      (fun _ s' => Clear lg (updated lg pre post) s'.disk) := by
  refine safe_bind (safe_mono (installTrans_safe hl hs hp) (fun _ => Or.inl) (fun _ _ h => h)) ?_
  rintro _ s' ⟨hc,hnew⟩
  have hclear := writeHead_clears hl hc hnew (s'.read lg.start)
  exact safe_bind (R := fun _ s' => Clear lg (updated lg pre post) s'.disk)
    (writeHead_safe (Or.inl hc) (Or.inr hclear) hclear) (fun _ s'' h => safe_pure (Or.inr h) h)

theorem recover_committed (hl : Loggable lg) (hd : Committed lg pre post d) :
    Safe (recoverFromLog lg) (boot d) (Durable lg pre post)
      (fun _ s' => Clear lg (updated lg pre post) s'.disk) := by
  refine safe_bind (readHead_safe (Or.inl hd)) ?_
  rintro _ _ ⟨rfl,rfl⟩
  have hread : headBlocks ((boot d).read lg.start) = lg.lh := hd.head
  rw [hread]
  exact finish_safe hl hd (fun _ _ => rfl)

theorem recover_clear (hin : InLog lg lg.start) (hd : Clear lg h d) :
    Safe (recoverFromLog lg) (boot d) (Clear lg h) (fun _ s' => Clear lg h s'.disk) := by
  refine safe_bind (readHead_safe hd) ?_
  rintro _ _ ⟨rfl,rfl⟩
  have hread : headBlocks ((boot d).read lg.start) = [] := headBlocks_nil hd.count
  rw [hread]
  refine safe_bind (R := fun _ s => s = boot d) (safe_pure hd rfl) ?_
  rintro _ s rfl
  have hclear : Clear lg h ((boot d).write (lg.start,setHead ((boot d).read lg.start) [])).disk := by
    refine ⟨?_,fun b hb => ?_⟩
    · simp only [Store.write, update_self]
      exact headCount_setHead _ _ (Nat.zero_le _)
    · simp only [Store.write, update_of_ne (ne_of_home hb hin)]
      exact hd.home b hb
  exact safe_bind (R := fun _ s' => Clear lg h s'.disk) (writeHead_safe hd hclear hclear)
    (fun _ s'' hs => safe_pure hs hs)

theorem Recovers.clear {d d' : Uint → DiskBlock} (hin : InLog lg lg.start)
    (hr : Recovers lg d d') (hd : Clear lg h d) : Clear lg h d' := by
  induction hr with
  | done d => exact (recover_clear hin hd).2
  | crash k _ ih => exact ih ((recover_clear hin hd).1 k)

theorem Recovers.durable (hl : Loggable lg) {d d' : Uint → DiskBlock} (hr : Recovers lg d d')
    (hd : Durable lg pre post d) : Clear lg (updated lg pre post) d' := by
  induction hr with
  | done d =>
    rcases hd with hd | hd
    · exact (recover_committed hl hd).2
    · exact (recover_clear (start_inLog hl) hd).2
  | crash k _ ih =>
    rcases hd with hd | hd
    · exact ih ((recover_committed hl hd).1 k)
    · exact ih (Or.inr ((recover_clear (start_inLog hl) hd).1 k))

theorem forEach_writes {γ : Type} (l : List γ) (f : γ → DiskIo Unit)
    (hf : ∀ c s, (f c s).2.length = 1) (s : Store Uint DiskBlock) :
    (forEach l f s).2.length = l.length := by
  induction l generalizing s with
  | nil => rfl
  | cons c cs ih =>
    show ((f c s).2++_).length = _
    rw [List.length_append, hf, ih, List.length_cons, Nat.add_comm]

theorem writeLog_writes (lg : Log) (s : Store Uint DiskBlock) :
    (writeLog lg s).2.length = lg.lh.length := by
  rw [writeLog, forEach_writes _ _ (fun _ _ => rfl), List.length_zipIdx]

theorem commit_tail (hl : Loggable lg) (hs : Clear lg pre s.disk)
    (hlog : ∀ e ∈ lg.lh.zipIdx, s.disk (lg.block e.2) = post e.1 ∧ s.pinned (lg.block e.2) = none) :
    Safe (do
      installTrans lg
      writeHead { lg with lh := [] }
      return ({ lg with lh := [] } : Log)) (final (writeHead lg) s) (Durable lg pre post)
      (fun _ s' => Clear lg (updated lg pre post) s'.disk) := by
  refine finish_safe hl (writeHead_commits hl hs (fun e he => (hlog e he).1)) (fun e he => ?_)
  show update s.pinned lg.start none (lg.block e.2) = none
  rw [update_of_ne (block_ne_start hl (zipIdx_lt he))]
  exact (hlog e he).2

theorem commit_crash (hl : Loggable lg) (hs : Clear lg pre s.disk)
    (hpost : ∀ b ∈ lg.lh, s.read b = post b) (k : ℕ) :
    (k ≤ lg.lh.length → Clear lg pre (crash (commit lg) s k)) ∧
      (lg.lh.length < k → Durable lg pre post (crash (commit lg) s k)) := by
  by_cases hn : 0 < lg.lh.length
  · have hw := writeLog_safe hl hs hpost
    have hlen := writeLog_writes lg s
    rw [commit, if_pos hn]
    constructor
    · intro hk
      rw [crash_bind_early (by omega)]
      exact hw.1 k
    intro hk
    have hone : (writeHead lg (final (writeLog lg) s)).2.length = 1 := rfl
    rw [crash_bind_late (by omega), hlen, crash_bind_late (by omega), hone]
    exact (commit_tail hl hw.2.1 hw.2.2).1 _
  · have hnil : lg.lh = [] := List.eq_nil_of_length_eq_zero (by omega)
    have hcrash : crash (commit lg) s k = s.disk := by
      rw [commit, if_neg hn]
      simp [crash, pure, Store.writes]
    have hup : updated lg pre post = pre := by
      funext b
      simp [updated, hnil]
    rw [hcrash, Durable, hup]
    exact ⟨fun _ => hs,fun _ => Or.inr hs⟩

end Phases

/-- A crash anywhere in `commit`, followed by a recovery with any number of
further crashes, leaves all home blocks old or all logged blocks new; they are
new if the first `write_head` was among the writes that reached the disk. -/
theorem commit_crash_atomic {lg : Log} (hl : Loggable lg) (s : Store Uint DiskBlock)
    (hclear : headCount (s.disk lg.start) = 0) (k : ℕ) {d : Uint → DiskBlock}
    (hr : Recovers lg (crash (commit lg) s k) d) :
    ((∀ b, ¬ InLog lg b → d b = s.disk b) ∨ ∀ b, ¬ InLog lg b → d b = updated lg s.disk s.read b) ∧
    (lg.lh.length < k → ∀ b, ¬ InLog lg b → d b = updated lg s.disk s.read b) ∧
    headCount (d lg.start) = 0 := by
  have hs : Clear lg s.disk s.disk := ⟨hclear,fun _ _ => rfl⟩
  have hc := commit_crash hl hs (fun b _ => (rfl : s.read b = s.read b)) k
  rcases Nat.lt_or_ge lg.lh.length k with hk | hk
  · have hd := hr.durable hl (hc.2 hk)
    exact ⟨Or.inr hd.home,fun _ => hd.home,hd.count⟩
  · have hd := hr.clear (start_inLog hl) (hc.1 hk)
    exact ⟨Or.inl hd.home,fun hlt => absurd hlt (Nat.not_lt.mpr hk),hd.count⟩

def sampleLog : Log := ⟨2,LOGSIZE,[60,61]⟩

theorem sampleLog_loggable : Loggable sampleLog := by
  refine ⟨by decide,?_,by decide,by decide⟩
  rintro b hb ⟨j,hj,e⟩
  have hj' : j < 30 := hj
  have hv := congrArg BitVec.toNat e
  have hb' : b = 60 ∨ b = 61 := by simpa [sampleLog] using hb
  rcases hb' with rfl | rfl <;> simp [sampleLog] at hv <;> omega

theorem commit_crash_atomic_sample :
    let s : Store Uint DiskBlock := ⟨fun _ => fun _ => 0,fun _ => some (fun _ => 1)⟩
    Recovers sampleLog (crash (commit sampleLog) s 4)
      (final (recoverFromLog sampleLog) (boot (crash (commit sampleLog) s 4))).disk ∧
    (final (recoverFromLog sampleLog) (boot (crash (commit sampleLog) s 4))).disk 60 =
      fun _ => 1 := by
  intro s
  have hr : Recovers sampleLog _ _ := .done (crash (commit sampleLog) s 4)
  refine ⟨hr,?_⟩
  have h := (commit_crash_atomic sampleLog_loggable s (by decide +kernel) 4 hr).2.1 (by decide) 60
    (sampleLog_loggable.outside 60 (by decide))
  rw [h]
  rfl

section Life

structure Transaction where
  blocks : List Uint
  contents : Uint → DiskBlock

def Transaction.log (t : Transaction) (start : Uint) (size : ℕ) : Log := ⟨start,size,t.blocks⟩

/-- The modified blocks are in the cache only. -/
def Transaction.store (t : Transaction) (d : Uint → DiskBlock) : Store Uint DiskBlock :=
  ⟨d,fun b => if b ∈ t.blocks then some (t.contents b) else none⟩

theorem Transaction.read_store (t : Transaction) (d : Uint → DiskBlock) (b : Uint)
    (hb : b ∈ t.blocks) : (t.store d).read b = t.contents b := by
  simp [Store.read, Transaction.store, hb]

/-- Commits one after the other, with power failures after any number of writes
and recoveries; the transactions are those whose header reached the disk. -/
inductive Life (start : Uint) (size : ℕ) (d₀ : Uint → DiskBlock) :
    List Transaction → (Uint → DiskBlock) → Prop where
  | fresh : Life start size d₀ [] d₀
  | commit {ts : List Transaction} {d : Uint → DiskBlock} (t : Transaction)
      (life : Life start size d₀ ts d) (hl : Loggable (t.log start size)) :
      Life start size d₀ (ts++[t]) (final (commit (t.log start size)) (t.store d)).disk
  | crash {ts : List Transaction} {d d' : Uint → DiskBlock} (t : Transaction) (k : ℕ)
      (life : Life start size d₀ ts d) (hl : Loggable (t.log start size))
      (hr : Recovers (t.log start size) (crash (commit (t.log start size)) (t.store d) k) d') :
      Life start size d₀ (if t.blocks.length < k then ts++[t] else ts) d'

theorem commit_done {lg : Log} {pre post : Uint → DiskBlock} {s : Store Uint DiskBlock}
    (hl : Loggable lg) (hs : Clear lg pre s.disk) (hpost : ∀ b ∈ lg.lh, s.read b = post b) :
    Clear lg (updated lg pre post) (final (commit lg) s).disk := by
  rw [commit]
  by_cases hn : 0 < lg.lh.length
  · have hw := writeLog_safe hl hs hpost
    rw [if_pos hn, final_bind, final_bind]
    exact (commit_tail hl hw.2.1 hw.2.2).2
  have hup : updated lg pre post = pre := by
    funext b
    simp [updated, List.eq_nil_of_length_eq_zero (Nat.eq_zero_of_not_pos hn)]
  rw [hup, if_neg hn]
  exact hs

variable {start : Uint} {size : ℕ} {d₀ d : Uint → DiskBlock} {ts : List Transaction}

/-- Whenever no commit is under way the disk has the effect of whole transactions,
in their order: of all that were committed and of those interrupted whose header
had been written. -/
theorem life_durable (h0 : headCount (d₀ start) = 0) (life : Life start size d₀ ts d) :
    headCount (d start) = 0 ∧ ∀ b, (∀ j < size, b ≠ start+BitVec.ofNat 32 j) →
      d b = ts.foldl (fun d t => updated (t.log start size) d t.contents) d₀ b := by
  -- A clear header says the same for every list of blocks.
  have hc : ∀ t : Transaction, Clear (t.log start size)
      (ts.foldl (fun d t => updated (t.log start size) d t.contents) d₀) d := by
    induction life with
    | fresh => exact fun _ => ⟨h0,fun _ _ => rfl⟩
    | commit t _ hl ih =>
      have hd := commit_done hl (ih t) (t.read_store _)
      rw [List.foldl_append]
      exact fun _ => ⟨hd.count,hd.home⟩
    | crash t k _ hl hr ih =>
      have hd := commit_crash hl (ih t) (t.read_store _) k
      split
      case isTrue hk =>
        have hd' := hr.durable hl (hd.2 hk)
        rw [List.foldl_append]
        exact fun _ => ⟨hd'.count,hd'.home⟩
      case isFalse hk =>
        have hd' := hr.clear (start_inLog hl) (hd.1 (Nat.not_lt.mp hk))
        exact fun _ => ⟨hd'.count,hd'.home⟩
  exact ⟨(hc ⟨[],d⟩).count,fun b hb => (hc ⟨[],d⟩).home b (fun ⟨j,hj,e⟩ => hb j hj e)⟩

def fillTwo (x : Byte) : Transaction := ⟨[60,61],fun _ _ => x⟩

theorem life_durable_interrupted : ∃ d,
    Life 2 LOGSIZE (fun _ _ => 0) [fillTwo 1,fillTwo 2] d ∧ d 60 = fun _ => 2 := by
  have hl : ∀ x, Loggable ((fillTwo x).log 2 LOGSIZE) := fun _ => sampleLog_loggable
  have life : Life 2 LOGSIZE (fun _ _ => 0) [fillTwo 1,fillTwo 2] _ :=
    .crash (fillTwo 2) 4 (Life.fresh.commit (fillTwo 1) (hl 1)) (hl 2) (.done _)
  refine ⟨_,life,?_⟩
  rw [(life_durable (by decide +kernel) life).2 60 (by decide)]
  rfl

end Life

end Yeet.LogDisk
