import YeetKernel.FsProc

/-!
# Programs below the tables of files and processes

Locking, reading and writing inodes and searching directories change no
reference count, no open file and no process.
-/

namespace Yeet.Fs
open Kernel Bytes FsDisk Resumption

structure Below (s s' : State) : Prop where
  iref : s'.iref = s.iref
  file : s'.file = s.file
  proc : s'.proc = s.proc

structure Within (i : Ino) (s s' : State) : Prop extends Below s s' where
  busy : (s'.inode i).busy = (s.inode i).busy

variable {s s' : State} {α β : Type} {i : Ino} {f : State → Except Fault (α × State)}

theorem below_refl (s : State) : Below s s := ⟨rfl,rfl,rfl⟩

theorem below_look {f : State → β} : (fetch f : FsProg β).Does Below := does_fetch below_refl

theorem below_halt {msg : String} : (halt msg : FsProg α).Does Below := does_fail

theorem below_deref (o : Option α) : (deref o : FsProg α).Does Below := by
  cases o with
  | none => exact does_fail
  | some a => exact does_pure

theorem below_perform (h : ∀ s a s', f s = .ok (a,s') → Below s s') : (perform f).Does Below :=
  does_atom (fun s a s' e => h s a s' (Option.some.inj e))

theorem below_beginOp : beginOp.Does Below := does_assign (fun _ => ⟨rfl,rfl,rfl⟩)

theorem below_endOp : endOp.Does Below := does_assign (fun _ => ⟨rfl,rfl,rfl⟩)

theorem below_store (i : Ino) (f : Dinode → Dinode) :
    (assign (fun s => s.store i f) : FsProg Unit).Does Below :=
  does_assign (fun _ => ⟨rfl,rfl,rfl⟩)

theorem within_refl (i : Ino) (s : State) : Within i s s := ⟨below_refl s,rfl⟩

theorem within_setInode (v : Volume) {x : Inode} (hx : x.busy = (s.inode i).busy) :
    Within i s (State.setInode {s with vol := v} i x) :=
  ⟨⟨rfl,rfl,rfl⟩,by simpa [State.setInode] using hx⟩

theorem within_perform
    (h : ∀ s a s', f s = .ok (a,s') → Within i s s') : (perform f).Does (Within i) :=
  does_atom (fun s a s' e => h s a s' (Option.some.inj e))

theorem below_within {x : FsProg α} (h : x.Does (Within i)) : x.Does Below :=
  does_mono h (fun _ _ h => h.toBelow)

theorem within_load (i : Ino) : (perform (fun s => s.load i)).Does (Within i) := by
  apply within_perform
  intro s b s' h
  unfold State.load at h
  dsimp only at h
  split at h
  · cases h
    exact within_refl i s
  split at h
  · cases h
  · cases h
    exact within_setInode s.vol rfl

theorem below_ilock (i : Ino) : (ilock i).Does Below := by
  apply does_bind
  · apply does_atom
    intro s b s' h
    unfold State.acquire at h
    split at h
    · cases h
    split at h
    · cases h
    · cases h
      exact ⟨rfl,rfl,rfl⟩
  · exact fun _ => below_within (within_load i)

theorem below_iunlock (i : Ino) : (iunlock i).Does Below := by
  apply below_perform
  intro s b s' h
  unfold State.unlock at h
  split at h
  · cases h
  · cases h
    exact ⟨rfl,rfl,rfl⟩

theorem within_bmap (i : Ino) (bn : ℕ) : (bmap i bn).Does (Within i) := by
  have hslot : ∀ k, (perform (fun s => s.bmapSlot i k)).Does (Within i) := by
    intro k
    apply within_perform
    intro s b s' h
    unfold State.bmapSlot at h
    dsimp only at h
    split at h
    · obtain ⟨⟨b,v⟩,_,h⟩ := bind_eq_ok.mp h
      cases h
      exact within_setInode v rfl
    · cases h
      exact within_refl i s
  unfold bmap
  split
  · exact hslot _
  split
  · refine does_bind (hslot _) (fun a => within_perform ?_)
    intro s b s' h
    unfold State.bmapEntry at h
    dsimp only at h
    split at h
    · obtain ⟨⟨b,v⟩,_,h⟩ := bind_eq_ok.mp h
      cases h
      exact ⟨⟨rfl,rfl,rfl⟩,rfl⟩
    · cases h
      exact within_refl i s
  · exact does_fail

theorem below_readBlocks (i : Ino) (fuel off n : ℕ) (acc : List Byte) :
    (readBlocks i fuel off n acc).Does Below := by
  induction fuel generalizing off n acc with
  | zero => exact does_pure
  | succ fuel ih =>
    unfold readBlocks
    split
    · exact does_pure
    · exact does_bind (below_within (within_bmap i _)) (fun b => does_bind below_look (fun l => ih _ _ _))

theorem below_readi (i : Ino) (off n : Uint) : (readi i off n).Does Below := by
  unfold readi
  refine does_bind below_look (fun d => ?_)
  split
  · split
    · refine does_bind (below_iunlock i) (fun _ => does_bind does_choose (fun k =>
        does_bind does_choose (fun m => does_bind (below_ilock i) (fun _ => ?_))))
      split <;> exact does_pure
    · exact does_pure
  · split
    · exact does_pure
    · exact does_bind (below_readBlocks i _ _ _ _) (fun l => does_pure)

theorem within_writeBlocks (i : Ino) (fuel off : ℕ) (l : List Byte) :
    (writeBlocks i fuel off l).Does (Within i) := by
  induction fuel generalizing off l with
  | zero => exact does_pure
  | succ fuel ih =>
    unfold writeBlocks
    split
    · exact does_pure
    · refine does_bind (within_bmap i _) (fun b => does_bind (does_assign (fun s => ?_))
        (fun _ => ih _ _))
      exact ⟨⟨rfl,rfl,rfl⟩,rfl⟩

theorem within_extend (n : Uint) (o : ℕ) :
    (assign (fun s => s.extend i n o) : FsProg Unit).Does (Within i) := by
  refine does_assign (fun s => ?_)
  unfold State.extend
  split
  · rw [store_eq]
    exact within_setInode _ rfl
  · exact within_refl i s

theorem below_writei (i : Ino) (l : List Byte) (off : Uint) : (writei i l off).Does Below := by
  unfold writei
  refine does_bind below_look (fun d => ?_)
  split
  · split
    · exact does_bind (below_iunlock i) (fun _ => does_bind (below_ilock i) (fun _ => does_pure))
    · exact does_pure
  split
  · exact does_pure
  split
  · exact does_pure
  · exact does_bind (below_within (within_writeBlocks i _ _ _)) (fun o =>
      does_bind (below_within (within_extend _ _)) (fun _ => does_pure))

theorem below_scan (dp : Ino) (msg : String) (test : List Byte → Bool) (fuel off : ℕ) :
    (scan dp msg test fuel off).Does Below := by
  induction fuel generalizing off with
  | zero => exact does_pure
  | succ fuel ih =>
    unfold scan
    refine does_bind below_look (fun size => ?_)
    split
    · refine does_bind (below_readi dp _ _) (fun r => ?_)
      split
      · exact below_halt
      · split
        · exact does_pure
        · exact ih _
    · exact does_pure

theorem below_scanAll (dp : Ino) (msg : String) (test : List Byte → Bool) (start : ℕ) :
    (scanAll dp msg test start).Does Below :=
  does_bind below_look (fun _ => below_scan dp msg test _ _)

theorem below_isdirempty (dp : Ino) : (isdirempty dp).Does Below :=
  does_bind (below_scanAll dp _ _ _) (fun _ => does_pure)

theorem below_loadPages (ip : Ino) (offset sz : Uint) (fuel i : ℕ) :
    (loadPages ip offset sz fuel i).Does Below := by
  induction fuel generalizing i with
  | zero => exact does_pure
  | succ fuel ih =>
    unfold loadPages
    split
    · refine does_bind does_choose (fun pte => ?_)
      split
      · exact below_halt
      refine does_bind (below_readi ip _ _) (fun r => ?_)
      split
      · exact does_pure
      · exact ih _
    · exact does_pure

theorem below_loadSegments (ip : Ino) (k : ℕ) (off : Uint) :
    (loadSegments ip k off).Does Below := by
  induction k generalizing off with
  | zero => exact does_pure
  | succ k ih =>
    unfold loadSegments
    refine does_bind (below_readi ip _ _) (fun r => ?_)
    split
    · exact does_pure
    split
    · exact ih _
    split
    · exact does_pure
    refine does_bind does_choose (fun sz => ?_)
    split
    · exact does_pure
    have hload : ∀ a o z, (loaduvm a ip o z).Does Below := by
      intro a o z
      unfold loaduvm
      split
      · exact below_halt
      · exact below_loadPages ip _ _ _ _
    refine does_bind (hload _ _ _) (fun done => ?_)
    split
    · exact ih _
    · exact does_pure

end Yeet.Fs
