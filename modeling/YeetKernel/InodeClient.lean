import YeetKernel.FsMachine
import YeetKernel.Threads
import YeetKernel.Tally

/-!
# Clients of the inode cache

Processes use the inode cache in any interleaving and in any order that the
discipline of `fs.c` permits: a slot is duplicated, locked or put by a process
that has a reference to it, examined and modified only while it is locked, and
written back before it is unlocked. What a process has obtained so far is in
its hand. Modifications are those of holders of the lock: on a volume without
holes a reader changes no address.
-/

namespace Yeet.Icache
open Kernel FsDisk Fs Resumption Function

/-- How a process has a slot: `loading` is inside `ilock`, `dirty` is between a
change and `iupdate`, `dying` and `dead` are inside `iput`, before and after
the inode is free on disk. -/
inductive Lock where
  | free
  | loading
  | clean
  | dirty
  | dying
  | dead
  deriving DecidableEq

structure Hand where
  refs : Ino → ℤ
  lock : Ino → Lock

def Hand.empty : Hand := ⟨fun _ => 0,fun _ => .free⟩

def Hand.add (h : Hand) (i : Ino) (n : ℤ) : Hand := {h with refs := update h.refs i (h.refs i+n)}

def Hand.setLock (h : Hand) (i : Ino) (l : Lock) : Hand := {h with lock := update h.lock i l}

/-- A change to the memory copy. Only `iput` changes the type. -/
structure Edit where
  fn : Dinode → Dinode
  type : ∀ d, (fn d).type = d.type

inductive Op where
  | get (inum : Uint)
  | alloc (type : Ushort)
  | dup (i : Ino)
  | lock (i : Ino)
  | modify (i : Ino) (f : Edit)
  | update (i : Ino)
  | unlock (i : Ino)
  | put (i : Ino)

/-- The file system, what the processes have, and the last action: whose it
was, in which operation, and the state in front of it. -/
structure Client where
  fs : State
  hand : Procno → Hand
  last : Option (Procno × Op × State)

def Client.did (s : Client) (p : Procno) (c : Op) (fs : State) : Client :=
  {s with fs := fs, last := some (p,c,s.fs)}

def Client.note (s : Client) (p : Procno) (h : Hand) : Client :=
  {s with hand := Function.update s.hand p h, last := none}

/-- If `named` is set, inodes are looked up by the numbers in directory entries
only: they are allocated and have links. -/
def Client.permits (named : Bool) (s : Client) (p : Procno) : Op → Bool
  | .get n => decide (n.toNat < s.fs.vol.sb.ninodes) &&
      (!named || (s.fs.vol.dinode n.toNat).type != 0 && (s.fs.vol.dinode n.toNat).nlink != 0)
  | .alloc t => t != 0
  | .dup i => decide (0 < (s.hand p).refs i)
  | .lock i => decide (0 < (s.hand p).refs i)
  | .modify i _ => (s.hand p).lock i != .free
  | .update i => (s.hand p).lock i != .free
  | .unlock i => (s.hand p).lock i == .clean
  | .put i => decide ((if (s.hand p).lock i = .free then 0 else 1) < (s.hand p).refs i)

def body : Op → FsProg Ino
  | .get n => iget ROOTDEV n
  | .alloc t => ialloc ROOTDEV t
  | .dup i => do
    idup i
    pure i
  | .lock i => do
    ilock i
    pure i
  | .modify i f => do
    assign (fun s => s.setInode i {s.inode i with din := f.fn (s.inode i).din})
    pure i
  | .update i => do
    assign (fun s => s.iupdate i)
    pure i
  | .unlock i => do
    iunlock i
    pure i
  | .put i => do
    iput i
    pure i

def after : Op → Ino → Hand → Hand
  | .get _,i,h => h.add i 1
  | .alloc _,i,h => h.add i 1
  | .dup _,i,h => h.add i 1
  | .lock _,i,h => h.setLock i .clean
  | .modify _ _,i,h => h.setLock i .dirty
  | .update _,i,h => h.setLock i .clean
  | .unlock _,i,h => h.setLock i .free
  | .put _,i,h => h.add i (-1)

def onFs {α : Type} (p : Procno) (c : Op) (x : FsProg α) : Prog Client Fault α :=
  x.embed Client.fs (fun s fs => s.did p c fs)

def code (named : Bool) (p : Procno) (c : Op) : Prog Client Fault Ino := do
  let i ← (onFs p c (body c)).guard (fun s => s.permits named p c)
  assign (fun s => s.note p (after c i (s.hand p)))
  pure i

def machine (named : Bool) : Machine Client Fault Procno Op Ino where
  enabled _ _ := true
  code := code named
  leave _ _ s := s

def start (v : Volume) : Client where
  fs := {
    vol := v
    inode := fun _ => Inode.free
    iref := fun _ => 0
    file := fun _ => File.free
    proc := fun _ => Process.free
    initproc := ⟨0,nproc_pos⟩
    outstanding := 0 }
  hand _ := Hand.empty
  last := none

/-- The inode is to be freed by the operation `c`: it has no links, its slot is
locked and the same as the disk copy; if numbers come from names only, there is
no other reference. -/
structure Doomed (named : Bool) (c : Op) (t : State) (i : Ino) : Prop where
  put : c = .put i
  ref : 0 < t.iref i
  busy : (t.inode i).busy = true
  valid : (t.inode i).valid = true
  synced : (t.inode i).din = t.vol.dinode (t.inode i).inum.toNat
  unlinked : (t.inode i).din.nlink = 0
  alone : named = true → t.iref i = 1

structure FreesDoomed (named : Bool) (h : Hand) (c : Op) (t s : State) : Prop where
  /-- `iput` decides to free an inode only if the process has its one reference. -/
  decided : ∀ i, c = .put i → (t.inode i).busy = false → (s.inode i).busy = true →
    t.iref i = 1 ∧ h.refs i = 1 ∧ (t.inode i).valid = true ∧
      (t.inode i).din = t.vol.dinode (t.inode i).inum.toNat ∧ (t.inode i).din.nlink = 0
  freed : ∀ n, n < t.vol.sb.ninodes → (t.vol.dinode n).type ≠ 0 → (s.vol.dinode n).type = 0 →
    ∃ i, Doomed named c t i ∧ (t.inode i).inum.toNat = n
  truncated : ∀ b, t.vol.sb.inUse t.vol.disk b = true → t.vol.sb.inUse s.vol.disk b = false →
    ∃ i, Doomed named c t i

end Yeet.Icache
