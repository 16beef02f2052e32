import YeetKernel.Owning
import YeetKernel.FileChunks
import YeetKernel.FsBelow

/-!
# What a writer does under the lock

The number of transactions in progress is all that others can change while an inode
is locked, and a writer does not look at it. In turn, what the writer does keeps the
lock and what the others see of the file.
-/

namespace Yeet.Fs
open Kernel Bytes FsDisk Resumption Function

def State.ops (s : State) (k : ℤ) : State := {s with outstanding := k}

def writeRegular (i : Ino) (src : List Byte) (off : Uint) (d : Dinode) : FsProg ℤ :=
  if d.size < off ∨ off+BitVec.ofNat 32 src.length < off then pure (-1)
  else if MAXFILE*BSIZE < (off+BitVec.ofNat 32 src.length).toNat then pure (-1)
  else do
    let off' ← writeBlocks i src.length off.toNat src
    assign (fun s => s.extend i (BitVec.ofNat 32 src.length) off')
    pure (BitVec.ofNat 32 src.length).toInt

def lockedRead (f : Fileno) (ip : Ino) : FsProg (Uint × Dinode) := do
  perform (fun s => s.load ip)
  let off ← fetch (fun s => (s.file f).off)
  let d ← fetch (fun s => (s.inode ip).din)
  pure (off,d)

def writeAdvance (f : Fileno) (ip : Ino) (src : List Byte) (off : Uint) (d : Dinode) : FsProg ℤ := do
  let r ← writeRegular ip src off d
  assign (fun s => s.advance f r)
  pure r

theorem lockedWrite_eq (f : Fileno) (ip : Ino) (src : List Byte) :
    lockedWrite f ip src = lockedRead f ip >>= fun x =>
      if x.2.type = T_DEV then
        (if devsw x.2.major then consolewrite ip (BitVec.ofNat 32 src.length) else pure (-1)) >>= fun r =>
          assign (fun s => s.advance f r) >>= fun _ => pure r
      else writeAdvance f ip src x.1 x.2 := by
  unfold lockedWrite lockedRead
  rw [bind_assoc]
  apply congrArg (perform (fun s => s.load ip) >>= ·)
  funext _
  rw [bind_assoc]
  apply congrArg (fetch (fun s : State => (s.file f).off) >>= ·)
  funext off
  unfold writei
  rw [bind_assoc, bind_assoc]
  apply congrArg (fetch (fun s : State => (s.inode ip).din) >>= ·)
  funext d
  show (if d.type = T_DEV then _ else writeRegular ip src off d) >>= _ = _
  show _ = if d.type = T_DEV then _ else _
  split <;> rfl

section Blind

variable {k : ℤ} {α : Type}

theorem blindly_perform {f : State → Except Fault (α × State)}
    (h : ∀ s, f (s.ops k) = (f s).map (fun x => (x.1,x.2.ops k))) :
    (perform f).Blindly (fun s => s.ops k) := by
  apply blindly_atom
  intro s
  rw [h]
  cases f s with
  | error e => rfl
  | ok r => rfl

theorem load_blindly (i : Ino) : (perform (fun s => s.load i)).Blindly (fun s => s.ops k) := by
  apply blindly_perform
  intro s
  unfold State.load
  show (if (s.inode i).valid then _ else _) = _
  split
  · rfl
  · dsimp only
    show (if (s.vol.dinode (s.inode i).inum.toNat).type = 0 then _ else _) = _
    split <;> rfl

theorem bmapSlot_blindly (i : Ino) (j : Fin (NDIRECT+1)) :
    (perform (fun s => s.bmapSlot i j)).Blindly (fun s => s.ops k) := by
  apply blindly_perform
  intro s
  unfold State.bmapSlot
  dsimp only
  show (if (s.inode i).din.addrs j = 0 then balloc s.vol >>= _ else _) = _
  split
  · cases balloc s.vol with
    | error e => rfl
    | ok r => rfl
  · rfl

theorem bmapEntry_blindly (a : Uint) (j : ℕ) :
    (perform (fun s => s.bmapEntry a j)).Blindly (fun s => s.ops k) := by
  apply blindly_perform
  intro s
  unfold State.bmapEntry
  dsimp only
  show (if getWord (s.vol.disk a.toNat) j = 0 then balloc s.vol >>= _ else _) = _
  split
  · cases balloc s.vol with
    | error e => rfl
    | ok r => rfl
  · rfl

theorem bmap_blindly (i : Ino) (bn : ℕ) : (bmap i bn).Blindly (fun s => s.ops k) := by
  unfold bmap
  split
  · exact bmapSlot_blindly i _
  · split
    · exact blindly_bind (bmapSlot_blindly i _) (fun a => bmapEntry_blindly a _)
    · exact blindly_fail

theorem writeBlocks_blindly (i : Ino) (fuel off : ℕ) (l : List Byte) :
    (writeBlocks i fuel off l).Blindly (fun s => s.ops k) := by
  induction fuel generalizing off l with
  | zero => exact blindly_pure
  | succ fuel ih =>
    unfold writeBlocks
    split
    · exact blindly_pure
    · apply blindly_bind (bmap_blindly i _)
      intro b
      exact blindly_bind (blindly_assign (fun _ => rfl)) (fun _ => ih _ _)

theorem writeRegular_blindly (i : Ino) (src : List Byte) (off : Uint) (d : Dinode) :
    (writeRegular i src off d).Blindly (fun s => s.ops k) := by
  unfold writeRegular
  split
  · exact blindly_pure
  split
  · exact blindly_pure
  apply blindly_bind (writeBlocks_blindly i _ _ _)
  intro off'
  refine blindly_bind (blindly_assign (fun s => ?_)) (fun _ => blindly_pure)
  unfold State.extend
  show (if 0 < BitVec.ofNat 32 src.length ∧ (s.inode i).din.size.toNat < off' then _ else _) = _
  split <;> rfl

theorem lockedRead_blindly (f : Fileno) (i : Ino) : (lockedRead f i).Blindly (fun s => s.ops k) := by
  have hoff : (fetch (fun s => (s.file f).off) : FsProg Uint).Blindly (fun s => s.ops k) :=
    blindly_fetch (fun _ => rfl)
  have hdin : (fetch (fun s => (s.inode i).din) : FsProg Dinode).Blindly (fun s => s.ops k) :=
    blindly_fetch (fun _ => rfl)
  apply blindly_bind (load_blindly i)
  intro _
  apply blindly_bind hoff
  intro off
  exact blindly_bind hdin (fun _ => blindly_pure)

theorem writeAdvance_blindly (f : Fileno) (i : Ino) (src : List Byte) (off : Uint) (d : Dinode) :
    (writeAdvance f i src off d).Blindly (fun s => s.ops k) := by
  apply blindly_bind (writeRegular_blindly i src off d)
  intro r
  refine blindly_bind (blindly_assign (fun s => ?_)) (fun _ => blindly_pure)
  unfold State.advance
  split <;> rfl

end Blind

structure Holds (f : Fileno) (i : Ino) (s s' : State) : Prop where
  busy : (s'.inode i).busy = (s.inode i).busy
  iref : s'.iref = s.iref
  type : (s'.file f).type = (s.file f).type
  writable : (s'.file f).writable = (s.file f).writable
  ip : (s'.file f).ip = (s.file f).ip

section Holds

variable {f : Fileno} {i : Ino} {s s' : State}

theorem holds_refl (f : Fileno) (i : Ino) (s : State) : Holds f i s s := ⟨rfl,rfl,rfl,rfl,rfl⟩

theorem does_holds {α : Type} {x : FsProg α} (h : x.Does (Within i)) : x.Does (Holds f i) :=
  does_mono h (fun _ _ h => ⟨h.busy,h.iref,by rw [h.file],by rw [h.file],by rw [h.file]⟩)

theorem writeRegular_holds (src : List Byte) (off : Uint) (d : Dinode) :
    (writeRegular i src off d).Does (Holds f i) := by
  unfold writeRegular
  split
  · exact does_pure
  split
  · exact does_pure
  · exact does_bind (does_holds (within_writeBlocks i _ _ _)) (fun _ =>
      does_bind (does_holds (within_extend _ _)) (fun _ => does_pure))

theorem lockedRead_holds : (lockedRead f i).Does (Holds f i) := by
  apply does_bind (does_holds (within_load i))
  intro _
  apply does_bind (does_fetch (holds_refl f i))
  intro off
  exact does_bind (does_fetch (holds_refl f i)) (fun _ => does_pure)

theorem writeAdvance_holds (src : List Byte) (off : Uint) (d : Dinode) :
    (writeAdvance f i src off d).Does (Holds f i) := by
  apply does_bind (writeRegular_holds src off d)
  intro r
  refine does_bind (does_assign (fun s => ?_)) (fun _ => does_pure)
  unfold State.advance
  split
  · constructor
    case busy => rfl
    case iref => rfl
    case type => simp only [State.setFile, update_self]
    case writable => simp only [State.setFile, update_self]
    case ip => simp only [State.setFile, update_self]
  · exact holds_refl f i s

end Holds

end Yeet.Fs
