import YeetKernel.RefStep
import YeetKernel.FsBelow

/-!
# Programs that count nothing

Locking, reading and writing inodes, searching directories and moving file
offsets change no reference count and no pointer.
-/

namespace Yeet.RefHand
open Kernel Bytes FsDisk Fs Resumption Function

variable {s s' : State} {α β : Type}

theorem Quiet.of (hi : s'.iref = s.iref) (hf : s'.file = s.file) (hp : s'.proc = s.proc) :
    Quiet s s' := by
  refine ⟨hi,fun f => ?_,fun p => ?_⟩
  · rw [hf]
    exact ⟨rfl,rfl,rfl⟩
  · rw [hp]
    exact ⟨rfl,rfl,rfl⟩

theorem Quiet.trans {t : State} (h : Quiet s t) (h' : Quiet t s') : Quiet s s' := by
  refine ⟨h'.iref.trans h.iref,fun f => ?_,fun p => ?_⟩
  · have h1 := h.file f
    have h2 := h'.file f
    exact ⟨h2.1.trans h1.1,h2.2.1.trans h1.2.1,h2.2.2.trans h1.2.2⟩
  · have h1 := h.proc p
    have h2 := h'.proc p
    exact ⟨h2.1.trans h1.1,h2.2.1.trans h1.2.1,h2.2.2.trans h1.2.2⟩

theorem does_quiet {x : FsProg α} (h : x.Does Below) : x.Does Quiet :=
  does_mono h (fun _ _ h => Quiet.of h.iref h.file h.proc)

theorem does_look {f : State → β} : (fetch f : FsProg β).Does Quiet :=
  does_quiet below_look

theorem does_halt {msg : String} : (halt msg : FsProg α).Does Quiet :=
  does_quiet below_halt

theorem does_deref (o : Option α) : (deref o : FsProg α).Does Quiet :=
  does_quiet (below_deref o)

theorem does_perform {f : State → Except Fault (α × State)}
    (h : ∀ s a s', f s = .ok (a,s') → Quiet s s') : (perform f).Does Quiet :=
  does_atom (fun s a s' e => h s a s' (Option.some.inj e))

theorem does_beginOp : beginOp.Does Quiet :=
  does_quiet below_beginOp

theorem does_endOp : endOp.Does Quiet :=
  does_quiet below_endOp

theorem does_store (i : Ino) (f : Dinode → Dinode) :
    (assign (fun s => s.store i f) : FsProg Unit).Does Quiet :=
  does_quiet (below_store i f)

theorem does_ilock (i : Ino) : (ilock i).Does Quiet :=
  does_quiet (below_ilock i)

theorem does_iunlock (i : Ino) : (iunlock i).Does Quiet :=
  does_quiet (below_iunlock i)

theorem does_readi (i : Ino) (off n : Uint) : (readi i off n).Does Quiet :=
  does_quiet (below_readi i off n)

theorem does_writei (i : Ino) (l : List Byte) (off : Uint) : (writei i l off).Does Quiet :=
  does_quiet (below_writei i l off)

theorem does_scanAll (dp : Ino) (msg : String) (test : List Byte → Bool) (start : ℕ) :
    (scanAll dp msg test start).Does Quiet :=
  does_quiet (below_scanAll dp msg test start)

theorem does_isdirempty (dp : Ino) : (isdirempty dp).Does Quiet :=
  does_quiet (below_isdirempty dp)

theorem does_advance (f : Fileno) (r : ℤ) :
    (assign (fun s => s.advance f r) : FsProg Unit).Does Quiet := by
  apply does_assign
  intro s
  unfold State.advance
  split
  · refine ⟨rfl,fun g => ?_,fun _ => ⟨rfl,rfl,rfl⟩⟩
    simp only [State.setFile, update_apply]
    split
    · rename_i e
      rw [e]
      exact ⟨rfl,rfl,rfl⟩
    · exact ⟨rfl,rfl,rfl⟩
  · exact Quiet.refl s

theorem does_filestat (f : Fileno) : (filestat f).Does Quiet := by
  unfold filestat
  refine does_bind does_look (fun x => ?_)
  split
  · exact does_bind (does_deref _) (fun ip => does_bind (does_ilock ip) (fun _ =>
      does_bind does_look (fun st => does_bind (does_iunlock ip) (fun _ => does_pure))))
  · exact does_pure

theorem does_fileread (f : Fileno) (n : Uint) : (fileread f n).Does Quiet := by
  unfold fileread
  refine does_bind does_look (fun x => ?_)
  split
  · exact does_pure
  split
  · refine does_bind does_choose (fun k => does_bind does_choose (fun m => ?_))
    split <;> exact does_pure
  · exact does_bind (does_deref _) (fun ip => does_bind (does_ilock ip) (fun _ =>
      does_bind does_look (fun off => does_bind (does_readi ip off n) (fun r =>
        does_bind (does_advance f _) (fun _ => does_bind (does_iunlock ip) (fun _ =>
          does_pure))))))
  · exact does_halt

theorem does_writeChunks (f : Fileno) (ip : Ino) (addr : ℕ → Byte) (n fuel i : ℕ) :
    (writeChunks f ip addr n fuel i).Does Quiet := by
  induction fuel generalizing i with
  | zero => exact does_pure
  | succ fuel ih =>
    unfold writeChunks
    split
    · refine does_bind does_beginOp (fun _ => does_bind (does_ilock ip) (fun _ =>
        does_bind does_look (fun off => does_bind (does_writei ip _ off) (fun r =>
          does_bind (does_advance f r) (fun _ => does_bind (does_iunlock ip) (fun _ =>
            does_bind does_endOp (fun _ => ?_)))))))
      split
      · exact does_pure
      · split
        · exact does_halt
        · exact ih _
    · exact does_pure

theorem does_filewrite (f : Fileno) (addr : ℕ → Byte) (n : Uint) :
    (filewrite f addr n).Does Quiet := by
  unfold filewrite
  refine does_bind does_look (fun x => ?_)
  split
  · exact does_pure
  split
  · refine does_bind does_choose (fun k => ?_)
    split <;> exact does_pure
  · refine does_bind (does_deref _) (fun ip => does_bind (does_writeChunks f ip addr _ _ _)
      (fun i => ?_))
    split <;> exact does_pure
  · exact does_halt

theorem does_loadSegments (ip : Ino) (k : ℕ) (off : Uint) : (loadSegments ip k off).Does Quiet :=
  does_quiet (below_loadSegments ip k off)

theorem Quiet.setProc {p : Procno} {x : Process} (h1 : x.status = (s.proc p).status)
    (h2 : x.ofile = (s.proc p).ofile) (h3 : x.cwd = (s.proc p).cwd) : Quiet s (s.setProc p x) := by
  refine ⟨rfl,fun _ => ⟨rfl,rfl,rfl⟩,fun q => ?_⟩
  simp only [State.setProc, update_apply]
  split
  · rename_i e
    rw [e]
    exact ⟨h1,h2,h3⟩
  · exact ⟨rfl,rfl,rfl⟩

theorem does_execLoad (p : Procno) (ip : Ino) : (execLoad p ip).Does Quiet := by
  unfold execLoad
  refine does_bind does_look (fun d => does_bind does_look (fun x => ?_))
  split
  · refine does_bind (does_assign (fun s => ?_)) (fun _ => does_bind (does_readi ip _ _)
      (fun r => ?_))
    · unfold State.setuidFrom
      split
      · exact Quiet.setProc rfl rfl rfl
      · exact Quiet.refl s
    split
    · exact does_pure
    refine does_bind does_choose (fun m => ?_)
    generalize (if r.1 < 0 then outside elfSize m else r.2) = elf
    dsimp only
    split
    · exact does_pure
    refine does_bind does_choose (fun pgdir => ?_)
    split
    · exact does_pure
    · exact does_loadSegments ip _ _
  · exact does_pure

end Yeet.RefHand
