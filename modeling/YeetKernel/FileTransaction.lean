import YeetKernel.FileContents

/-!
# One transaction of filewrite

`filewrite` cuts its bytes into pieces and writes each in a transaction of its own,
under the lock of the inode. What one of them does is said here once: it appends to
what is in front of the offset and moves the offset, or it leaves everything alone.
-/

namespace Yeet.Fs
open Kernel Bytes FsDisk Resumption Function

def lockedWrite (f : Fileno) (ip : Ino) (src : List Byte) : FsProg ℤ := do
  perform (fun s => s.load ip)
  let off ← fetch (fun s => (s.file f).off)
  let r ← writei ip src off
  assign (fun s => s.advance f r)
  pure r

def transaction (f : Fileno) (ip : Ino) (src : List Byte) : FsProg ℤ := do
  beginOp
  atom (fun s => s.acquire ip)
  let r ← lockedWrite f ip src
  iunlock ip
  endOp
  pure r

theorem writeChunks_succ (f : Fileno) (ip : Ino) (addr : ℕ → Byte) (n fuel i : ℕ) :
    writeChunks f ip addr n (fuel+1) i =
      if i < n then
        transaction f ip ((List.range (min (n-i) chunkMax)).map (fun j => addr (i+j))) >>= fun r =>
          if r < 0 then pure i
          else if r ≠ (min (n-i) chunkMax : ℕ) then halt "short filewrite"
          else writeChunks f ip addr n fuel (i+min (n-i) chunkMax)
      else pure i := by
  simp only [writeChunks, transaction, lockedWrite, ilock, bind_assoc]
  rfl

structure Writable (loose : List Uint) (V : View) (f : Fileno) (i : Ino) (s : State) : Prop where
  type : (s.file f).type = .inode
  writable : (s.file f).writable = true
  ip : (s.file f).ip = some i
  ref : 1 ≤ s.iref i
  backed : Backed loose s.vol s.vol.dinode V
  lt : s.num i < V.inodes
  cached : (s.inode i).valid = true → (s.inode i).din = s.vol.dinode (s.num i)
  alloc : (V.node (s.num i)).type ≠ 0
  regular : (V.node (s.num i)).type ≠ T_DEV

/-- Only the volume, the copy of the inode and the offset have changed, and the copy is
valid. -/
def Worked (f : Fileno) (i : Ino) (s s' : State) : Prop :=
  ∃ v d o, s' = {s with
    vol := v
    inode := update s.inode i {s.inode i with valid := true, din := d}
    file := update s.file f {s.file f with off := o}}

def State.loaded (s : State) (i : Ino) : State :=
  s.setInode i {s.inode i with valid := true, din := s.vol.dinode (s.num i)}

variable {loose : List Uint} {V : View} {f : Fileno} {i : Ino} {s s' : State} {src : List Byte}
variable {Q : Outcome State Fault ℤ → Prop}

theorem Writable.node (h : Writable loose V f i s) :
    V.node (s.num i) = bare (s.vol.dinode (s.num i)) := h.backed.node _ h.lt

theorem Writable.load (h : Writable loose V f i s) : s.load i = .ok ((),s.loaded i) := by
  unfold State.load State.loaded
  split
  · rename_i hv
    rw [← h.cached hv, ← hv]
    exact congrArg (fun x => Except.ok ((),x)) (setInode_self s i).symm
  have ht : (s.vol.dinode (s.inode i).inum.toNat).type ≠ 0 := by
    have := h.alloc
    rw [h.node] at this
    exact this
  exact if_neg ht

theorem loaded_num (s : State) (i : Ino) : (s.loaded i).num i = s.num i := by
  rw [State.loaded, State.num, inode_setInode, State.num]

theorem Writable.sound (h : Writable loose V f i s) : Sound loose V i (s.loaded i) := by
  constructor
  case backed => exact h.backed
  case lt =>
    rw [loaded_num]
    exact h.lt
  case din =>
    rw [loaded_num, State.loaded, inode_setInode]
    rfl
  case type =>
    rw [State.loaded, inode_setInode]
    have ht := h.alloc
    rw [h.node] at ht
    exact ht

theorem loaded_worked (f : Fileno) (i : Ino) (s : State) : Worked f i s (s.loaded i) := by
  refine ⟨s.vol,s.vol.dinode (s.num i),(s.file f).off,?_⟩
  rw [show update s.file f {s.file f with off := (s.file f).off} = s.file from update_eq_self f s.file]
  rfl

theorem worked_of_changed (h : Changed i (s.loaded i) s') (o : Uint) :
    Worked f i s (s'.setFile f {s'.file f with off := o}) := by
  obtain ⟨v,d,rfl⟩ := h
  refine ⟨v,d,o,?_⟩
  simp only [State.loaded, State.setInode, State.setFile, update_self, update_idem]

theorem Worked.num (h : Worked f i s s') : s'.num i = s.num i := by
  obtain ⟨v,d,o,rfl⟩ := h
  simp only [State.num, update_self]

theorem type_write (V : View) (n m o : ℕ) (l : List Byte) :
    ((V.write n o l).node m).type = (V.node m).type := by
  show (update V.node n _ m).type = _
  by_cases e : m = n
  · rw [e, update_self]
  · rw [update_of_ne e]

theorem Writable.worked {V' : View} (h : Writable loose V f i s) (hw : Worked f i s s')
    (hb : Backed loose s'.vol s'.vol.dinode V') (hi : V'.inodes = V.inodes)
    (hd : (s'.inode i).din = s'.vol.dinode (s'.num i))
    (ht : (V'.node (s.num i)).type = (V.node (s.num i)).type) : Writable loose V' f i s' := by
  have hnum := hw.num
  obtain ⟨v,d,o,rfl⟩ := hw
  constructor
  case type =>
    simp only [update_self]
    exact h.type
  case writable =>
    simp only [update_self]
    exact h.writable
  case ip =>
    simp only [update_self]
    exact h.ip
  case ref => exact h.ref
  case backed => exact hb
  case lt =>
    rw [hnum, hi]
    exact h.lt
  case cached => exact fun _ => hd
  case alloc =>
    rw [hnum, ht]
    exact h.alloc
  case regular =>
    rw [hnum, ht]
    exact h.regular

theorem advance_neg (s : State) (f : Fileno) : s.advance f (-1) = s := if_neg (by decide)

theorem advance_off (s : State) (f : Fileno) (k : ℕ) :
    s.advance f k = s.setFile f {s.file f with off := (s.file f).off+BitVec.ofNat 32 k} := by
  unfold State.advance
  split
  · rw [BitVec.ofInt_natCast]
  rename_i hk
  obtain rfl : k = 0 := by omega
  have hself : s.setFile f (s.file f) = s := by simp only [State.setFile, update_eq_self]
  simp [hself]

/-- `Q` holds of the outcomes of a write: it is refused, or the bytes are written at the
offset, or the blocks run out. -/
structure Answers (loose : List Uint) (V : View) (f : Fileno) (i : Ino) (src : List Byte)
    (Q : Outcome State Fault ℤ → Prop) (s : State) : Prop where
  refused : Refused (V.size (s.num i)) (s.file f).off.toNat src.length → ∀ s', Worked f i s s' →
    Writable loose V f i s' → s'.vol = s.vol → (s'.file f).off = (s.file f).off →
    Q (some (.ok (-1,s')))
  written : ¬ Refused (V.size (s.num i)) (s.file f).off.toNat src.length → ∀ s', Worked f i s s' →
    Writable loose (V.write (s.num i) (s.file f).off.toNat src) f i s' →
    (s'.file f).off.toNat = (s.file f).off.toNat+src.length →
    Spans s.vol (s.vol.dinode (s.num i)) s'.vol (s'.vol.dinode (s.num i)) (s.file f).off.toNat
      ((s.file f).off.toNat+src.length) → Q (some (.ok (src.length,s')))
  full : ¬ Refused (V.size (s.num i)) (s.file f).off.toNat src.length →
    s.vol.free < s.vol.missing (s.vol.dinode (s.num i)) (s.file f).off.toNat
      ((s.file f).off.toNat+src.length) → Q (some (.error (.panic "balloc: out of blocks")))

theorem ends_lockedWrite (h : Writable loose V f i s) (hlen : src.length < 2^32)
    (hq : Answers loose V f i src Q s) : Ends (lockedWrite f i src) Q s := by
  have hsound := h.sound
  have hnum := loaded_num s i
  have hdin : ((s.loaded i).inode i).din = s.vol.dinode (s.num i) := by
    rw [State.loaded, inode_setInode]
  have hreg : ((s.loaded i).inode i).din.type ≠ T_DEV := by
    have ht := h.regular
    rw [h.node] at ht
    rw [hdin]
    exact ht
  unfold lockedWrite
  apply ends_bind
  apply ends_atom
  show Then _ Q (some (s.load i))
  rw [h.load]
  apply ends_bind
  apply ends_atom
  apply ends_bind
  refine ends_writei hsound hreg hlen (s.file f).off (fun hc => ?_) (fun hc s' h' hch hspan => ?_)
    (fun hc hlack => ?_)
  · rw [hnum] at hc
    apply ends_bind
    apply ends_atom
    apply ends_pure
    beta_reduce
    rw [advance_neg]
    refine hq.refused hc _ (loaded_worked f i s) ?_ rfl rfl
    refine h.worked (loaded_worked f i s) h.backed rfl ?_ rfl
    rw [hnum]
    exact hdin
  · rw [hnum] at hc h'
    have hfile : s'.file = s.file := by
      obtain ⟨v,d,rfl⟩ := hch
      rfl
    have hnum' := hch.num
    have hbig : MAXFILE*BSIZE < 2^32 := by decide
    apply ends_bind
    apply ends_atom
    apply ends_pure
    beta_reduce
    rw [advance_off]
    have hw := worked_of_changed (f := f) hch ((s'.file f).off+BitVec.ofNat 32 src.length)
    refine hq.written hc _ hw ?_ ?_ ?_
    · refine h.worked hw h'.backed rfl h'.din (type_write V _ _ _ _)
    · simp only [State.setFile, update_self, hfile]
      rw [BitVec.toNat_add, BitVec.toNat_ofNat, Nat.mod_eq_of_lt hlen]
      unfold Refused at hc
      exact Nat.mod_eq_of_lt (by omega)
    · rw [hdin, h'.din, hnum', hnum] at hspan
      exact hspan
  · rw [hnum] at hc
    rw [hdin] at hlack
    exact hq.full hc hlack

def State.locked (s : State) (i : Ino) : State :=
  {s with outstanding := s.outstanding+1}.setInode i {s.inode i with busy := true}

def State.released (s : State) (i : Ino) : State :=
  {s.setInode i {s.inode i with busy := false} with outstanding := s.outstanding-1}

theorem Writable.congr (h : Writable loose V f i s) (hf : s'.file = s.file) (hr : s'.iref = s.iref)
    (hv : s'.vol = s.vol) (hn : s'.num i = s.num i) (hd : (s'.inode i).din = (s.inode i).din)
    (hc : (s'.inode i).valid = (s.inode i).valid) : Writable loose V f i s' := by
  constructor
  case type => rw [hf]; exact h.type
  case writable => rw [hf]; exact h.writable
  case ip => rw [hf]; exact h.ip
  case ref => rw [hr]; exact h.ref
  case backed => rw [hv]; exact h.backed
  case lt => rw [hn]; exact h.lt
  case cached => rw [hc, hd, hv, hn]; exact h.cached
  case alloc => rw [hn]; exact h.alloc
  case regular => rw [hn]; exact h.regular

theorem locked_num (s : State) (i : Ino) : (s.locked i).num i = s.num i := by
  rw [State.locked, State.num, inode_setInode, State.num]

theorem released_num (s : State) (i : Ino) : (s.released i).num i = s.num i := by
  simp only [State.released, State.num, State.setInode, update_self]

theorem Writable.locked (h : Writable loose V f i s) : Writable loose V f i (s.locked i) := by
  refine h.congr rfl rfl rfl (locked_num s i) ?_ ?_
  all_goals rw [State.locked, inode_setInode]

theorem Writable.released (h : Writable loose V f i s) : Writable loose V f i (s.released i) := by
  refine h.congr rfl rfl rfl (released_num s i) ?_ ?_
  all_goals simp only [State.released, State.setInode, update_self]

theorem Worked.released (hb : (s.inode i).busy = false) (h : Worked f i (s.locked i) s') :
    Worked f i s (s'.released i) := by
  obtain ⟨v,d,o,rfl⟩ := h
  refine ⟨v,d,o,?_⟩
  simp only [State.released, State.locked, State.setInode, update_self, update_idem, ← hb,
    Int.add_sub_cancel]

theorem Worked.idle (h : Worked f i s s') (hb : (s.inode i).busy = false) :
    (s'.inode i).busy = false := by
  obtain ⟨v,d,o,rfl⟩ := h
  simp only [update_self]
  exact hb

theorem ends_release (h : Worked f i (s.locked i) s') (hr : 1 ≤ s.iref i) (r : ℤ)
    (hQ : Q (some (.ok (r,s'.released i)))) :
    Ends (iunlock i >>= fun _ => endOp >>= fun _ => (pure r : FsProg ℤ)) Q s' := by
  have hbusy : (s'.inode i).busy = true ∧ s'.iref i = s.iref i := by
    obtain ⟨v,d,o,rfl⟩ := h
    constructor
    · simp only [State.locked, State.setInode, update_self]
    · rfl
  apply ends_bind
  apply ends_atom
  show Then _ Q (some (s'.unlock i))
  have hun : s'.unlock i = .ok ((),s'.setInode i {s'.inode i with busy := false}) := by
    unfold State.unlock
    rw [hbusy.1, hbusy.2]
    exact if_neg (by simpa using hr)
  rw [hun]
  apply ends_bind
  apply ends_atom
  exact ends_pure hQ

theorem ends_transaction (h : Writable loose V f i s) (hb : (s.inode i).busy = false)
    (hlen : src.length < 2^32) (hq : Answers loose V f i src Q s) :
    Ends (transaction f i src) Q s := by
  have hnum := locked_num s i
  have hacq : State.acquire {s with outstanding := s.outstanding+1} i = some (.ok ((),s.locked i)) := by
    unfold State.acquire
    have hr : ¬ s.iref i < 1 := by
      have := h.ref
      omega
    rw [if_neg hr, hb]
    rfl
  unfold transaction
  apply ends_bind
  apply ends_atom
  apply ends_bind
  apply ends_atom
  beta_reduce
  rw [hacq]
  apply ends_bind
  refine ends_lockedWrite h.locked hlen ⟨fun hc s' hw ho hv hoff => ?_,
    fun hc s' hw ho hoff hspan => ?_,fun hc hlack => ?_⟩
  · rw [hnum] at hc
    exact ends_release hw h.ref _ (hq.refused hc _ (hw.released hb) ho.released hv hoff)
  · rw [hnum] at hc ho hspan
    exact ends_release hw h.ref _ (hq.written hc _ (hw.released hb) ho.released hoff hspan)
  · rw [hnum] at hc hlack
    exact hq.full hc hlack

end Yeet.Fs
