import YeetKernel.FsDisk
import YeetKernel.Resumption

/-!
# Inodes, their contents and directories

The inode cache and the routines of `fs.c` above it, as programs of atomic
actions: an action is what a routine does under one lock, with the writes
next to it that no other process can see. Of a device only its effect on the
inode lock is kept; what it reads comes from outside.
-/

namespace Yeet.Fs
open Kernel Bytes FsDisk Resumption Function

def ROOTDEV : Uint := 1
def CONSOLE : Ushort := 1

abbrev Ino := Fin NINODE
abbrev Fileno := Fin NFILE
abbrev Procno := Fin NPROC

theorem ninode_pos : 0 < NINODE := by decide

theorem nproc_pos : 0 < NPROC := by decide

structure Inode where
  dev : Uint
  inum : Uint
  busy : Bool
  valid : Bool
  din : Dinode

inductive FdType where
  | none
  | pipe
  | inode
  deriving DecidableEq

structure File where
  type : FdType
  ref : ℤ
  readable : Bool
  writable : Bool
  ip : Option Ino
  off : Uint

inductive Status where
  | unused
  | embryo
  | live
  | zombie
  deriving DecidableEq

structure Process where
  status : Status
  parent : Option Procno
  ofile : Fin NOFILE → Option Fileno
  cwd : Option Ino
  uid : Uint
  gid : Uint

structure State where
  vol : Volume
  inode : Ino → Inode
  iref : Ino → ℤ
  file : Fileno → File
  proc : Procno → Process
  initproc : Procno
  outstanding : ℤ

abbrev FsProg := Prog State Fault

def perform {α : Type} (f : State → Except Fault (α × State)) : FsProg α :=
  atom (fun s => some (f s))

def halt {α : Type} (msg : String) : FsProg α := fail (.panic msg)

def deref {α : Type} : Option α → FsProg α
  | some a => pure a
  | none => fail .nullDeref

/-- Bytes whose content the model does not determine. -/
def outside (n m : ℕ) : List Byte := (List.range n).map (fun i => BitVec.ofNat 8 (m/256^i))

def beginOp : FsProg Unit := assign (fun s => {s with outstanding := s.outstanding+1})

def endOp : FsProg Unit := assign (fun s => {s with outstanding := s.outstanding-1})

def State.setInode (s : State) (i : Ino) (x : Inode) : State := {s with inode := update s.inode i x}

def State.setRef (s : State) (i : Ino) (n : ℤ) : State := {s with iref := update s.iref i n}

def State.iupdate (s : State) (i : Ino) : State :=
  {s with vol := s.vol.setDinode (s.inode i).inum.toNat (s.inode i).din}

/-- Fields of the memory copy are set and `iupdate` is called. -/
def State.store (s : State) (i : Ino) (f : Dinode → Dinode) : State :=
  (s.setInode i {s.inode i with din := f (s.inode i).din}).iupdate i

def State.iget (s : State) (dev inum : Uint) : Except Fault (Ino × State) :=
  match (List.finRange NINODE).find?
      (fun i => s.iref i > 0 && (s.inode i).dev == dev && (s.inode i).inum == inum) with
  | some i => .ok (i,s.setRef i (s.iref i+1))
  | none =>
    match (List.finRange NINODE).find? (fun i => s.iref i == 0) with
    | none => .error (.panic "iget: no inodes")
    | some i =>
      .ok (i,(s.setInode i {s.inode i with
        dev := dev, inum := inum, busy := false, valid := false}).setRef i 1)

theorem store_eq (s : State) (i : Ino) (f : Dinode → Dinode) :
    s.store i f = {s with vol := s.vol.setDinode (s.inode i).inum.toNat (f (s.inode i).din)}.setInode i
      {s.inode i with din := f (s.inode i).din} := by
  simp only [State.store, State.iupdate, State.setInode, update_self]

theorem iupdate_eq (s : State) (i : Ino) :
    s.iupdate i = {s with vol := s.vol.setDinode (s.inode i).inum.toNat (s.inode i).din}.setInode i
      (s.inode i) := by
  simp only [State.iupdate, State.setInode, update_eq_self]

theorem iget_cases {s s' : State} {dev inum : Uint} {i : Ino} (h : s.iget dev inum = .ok (i,s')) :
    (0 < s.iref i ∧ (s.inode i).dev = dev ∧ (s.inode i).inum = inum ∧
      s' = s.setRef i (s.iref i+1)) ∨
    ((∀ j, 0 < s.iref j → (s.inode j).dev = dev → (s.inode j).inum ≠ inum) ∧ s.iref i = 0 ∧
      s' = (s.setInode i {s.inode i with
        dev := dev, inum := inum, busy := false, valid := false}).setRef i 1) := by
  unfold State.iget at h
  split at h
  · rename_i j hj
    cases h
    have := List.find?_some hj
    simp only [Bool.and_eq_true, decide_eq_true_eq, beq_iff_eq] at this
    exact Or.inl ⟨this.1.1,this.1.2,this.2,rfl⟩
  rename_i hnone
  split at h
  · cases h
  rename_i j hj
  cases h
  have h0 := List.find?_some hj
  rw [beq_iff_eq] at h0
  refine Or.inr ⟨fun k h1 h2 h3 => ?_,h0,rfl⟩
  have := List.find?_eq_none.mp hnone k (List.mem_finRange k)
  simp [h1, h2, h3] at this

def iget (dev inum : Uint) : FsProg Ino := perform (fun s => s.iget dev inum)

def idup (i : Ino) : FsProg Unit := assign (fun s => s.setRef i (s.iref i+1))

def State.claim (s : State) (inum : ℕ) (type : Ushort) : Bool × State :=
  if (s.vol.dinode inum).type = 0 then
    (true,{s with vol := s.vol.setDinode inum {Dinode.zero with type := type}})
  else (false,s)

def iallocFrom (dev : Uint) (type : Ushort) : List ℕ → FsProg Ino
  | [] => halt "ialloc: no inodes"
  | inum::l => do
    let free ← perform (fun s => .ok (s.claim inum type))
    if free then iget dev (BitVec.ofNat 32 inum) else iallocFrom dev type l

def ialloc (dev : Uint) (type : Ushort) : FsProg Ino := do
  let n ← fetch (fun s => s.vol.sb.ninodes)
  iallocFrom dev type (List.range' 1 (n-1))

def State.acquire (s : State) (i : Ino) : Option (Except Fault (Unit × State)) :=
  if s.iref i < 1 then some (.error (.panic "ilock"))
  else if (s.inode i).busy then none
  else some (.ok ((),s.setInode i {s.inode i with busy := true}))

def State.load (s : State) (i : Ino) : Except Fault (Unit × State) :=
  if (s.inode i).valid then .ok ((),s)
  else
    let d := s.vol.dinode (s.inode i).inum.toNat
    if d.type = 0 then .error (.panic "ilock: no type")
    else .ok ((),s.setInode i {s.inode i with valid := true, din := d})

def ilock (i : Ino) : FsProg Unit := do
  atom (fun s => s.acquire i)
  perform (fun s => s.load i)

def State.unlock (s : State) (i : Ino) : Except Fault (Unit × State) :=
  if !(s.inode i).busy || s.iref i < 1 then .error (.panic "iunlock")
  else .ok ((),s.setInode i {s.inode i with busy := false})

def iunlock (i : Ino) : FsProg Unit := perform (fun s => s.unlock i)

def State.itrunc (s : State) (i : Ino) : Except Fault (Unit × State) := do
  let v ← itruncBlocks (s.inode i).din s.vol
  .ok ((),{s with vol := v}.store i (fun d => {d with addrs := fun _ => 0, size := 0}))

/-- The first locked part of `iput`: whether the inode is to be freed. -/
def State.put (s : State) (i : Ino) : Except Fault (Bool × State) :=
  if s.iref i = 1 ∧ (s.inode i).valid ∧ (s.inode i).din.nlink = 0 then
    if (s.inode i).busy then .error (.panic "iput busy")
    else .ok (true,s.setInode i {s.inode i with busy := true})
  else .ok (false,s.setRef i (s.iref i-1))

def iput (i : Ino) : FsProg Unit := do
  let last ← perform (fun s => s.put i)
  if last then do
    perform (fun s => s.itrunc i)
    assign (fun s => s.store i (fun d => {d with type := 0}))
    assign (fun s =>
      (s.setInode i {s.inode i with busy := false, valid := false}).setRef i (s.iref i-1))
  else pure ()

def iunlockput (i : Ino) : FsProg Unit := do
  iunlock i
  iput i

def State.bmapSlot (s : State) (i : Ino) (k : Fin (NDIRECT+1)) : Except Fault (Uint × State) :=
  let d := (s.inode i).din
  if d.addrs k = 0 then do
    let (b,v) ← balloc s.vol
    .ok (b,{s with vol := v}.setInode i {s.inode i with din := {d with addrs := update d.addrs k b}})
  else .ok (d.addrs k,s)

/-- An address in the indirect block `a`, allocated if it is zero. -/
def State.bmapEntry (s : State) (a : Uint) (j : ℕ) : Except Fault (Uint × State) :=
  let w := getWord (s.vol.disk a.toNat) j
  if w = 0 then do
    let (b,v) ← balloc s.vol
    .ok (b,{s with vol := v.write a.toNat (setWord (v.disk a.toNat) j b)})
  else .ok (w,s)

def bmap (i : Ino) (bn : ℕ) : FsProg Uint :=
  if h : bn < NDIRECT then perform (fun s => s.bmapSlot i ⟨bn,Nat.lt_succ_of_lt h⟩)
  else if bn-NDIRECT < NINDIRECT then do
    let a ← perform (fun s => s.bmapSlot i (Fin.last NDIRECT))
    perform (fun s => s.bmapEntry a (bn-NDIRECT))
  else halt "bmap: out of range"

/-- The device has a driver: only the console registers one. -/
def devsw (major : Ushort) : Bool :=
  decide (0 ≤ major.toInt) && decide (major.toInt < NDEV) && major == CONSOLE

def consoleread (i : Ino) (n : Uint) : FsProg (ℤ × List Byte) := do
  iunlock i
  let k ← choose
  let m ← choose
  ilock i
  if k ≤ n.toNat then pure (k,outside k m) else pure (-1,[])

def consolewrite (i : Ino) (n : Uint) : FsProg ℤ := do
  iunlock i
  ilock i
  pure n.toInt

/-- The loop of `readi`, with the bytes still to be read as its bound. -/
def readBlocks (i : Ino) : ℕ → ℕ → ℕ → List Byte → FsProg (List Byte)
  | 0,_,_,acc => pure acc
  | fuel+1,off,n,acc =>
    if n = 0 then pure acc else do
      let b ← bmap i (off/BSIZE)
      let m := min n (BSIZE-off%BSIZE)
      let l ← fetch (fun s => getBytes (s.vol.disk b.toNat) (off%BSIZE) m)
      readBlocks i fuel (off+m) (n-m) (acc++l)

def readi (i : Ino) (off n : Uint) : FsProg (ℤ × List Byte) := do
  let d ← fetch (fun s => (s.inode i).din)
  if d.type = T_DEV then
    if devsw d.major then consoleread i n else pure (-1,[])
  else if d.size < off ∨ off+n < off then pure (-1,[])
  else do
    let m := if d.size < off+n then d.size-off else n
    let l ← readBlocks i m.toNat off.toNat m.toNat []
    pure (m.toInt,l)

def State.patch (s : State) (b off : ℕ) (l : List Byte) : State :=
  {s with vol := s.vol.write b (putBytes (s.vol.disk b) off l)}

/-- The loop of `writei`; the result is the offset after it. -/
def writeBlocks (i : Ino) : ℕ → ℕ → List Byte → FsProg ℕ
  | 0,off,_ => pure off
  | fuel+1,off,src =>
    if src = [] then pure off else do
      let b ← bmap i (off/BSIZE)
      let m := min src.length (BSIZE-off%BSIZE)
      assign (fun s => s.patch b.toNat (off%BSIZE) (src.take m))
      writeBlocks i fuel (off+m) (src.drop m)

def State.extend (s : State) (i : Ino) (n : Uint) (off : ℕ) : State :=
  if 0 < n ∧ (s.inode i).din.size.toNat < off then
    s.store i (fun d => {d with size := BitVec.ofNat 32 off})
  else s

def writei (i : Ino) (src : List Byte) (off : Uint) : FsProg ℤ := do
  let n := BitVec.ofNat 32 src.length
  let d ← fetch (fun s => (s.inode i).din)
  if d.type = T_DEV then
    if devsw d.major then consolewrite i n else pure (-1)
  else if d.size < off ∨ off+n < off then pure (-1)
  else if MAXFILE*BSIZE < (off+n).toNat then pure (-1)
  else do
    let off' ← writeBlocks i src.length off.toNat src
    assign (fun s => s.extend i n off')
    pure n.toInt

def State.num (s : State) (i : Ino) : ℕ := (s.inode i).inum.toNat

variable {s : State} {i j : Ino}

@[simp] theorem inode_setInode (x : Inode) : (s.setInode i x).inode i = x := update_self _ _ _

theorem inode_setInode_ne (x : Inode) (h : j ≠ i) : (s.setInode i x).inode j = s.inode j :=
  update_of_ne h _ _

theorem store_inode (s : State) (i : Ino) (f : Dinode → Dinode) :
    (s.store i f).inode i = {s.inode i with din := f (s.inode i).din} := by
  rw [store_eq, inode_setInode]

theorem store_inode_ne (s : State) (f : Dinode → Dinode) (h : j ≠ i) :
    (s.store i f).inode j = s.inode j := by
  rw [store_eq, inode_setInode_ne _ h]

theorem store_num (s : State) (i j : Ino) (f : Dinode → Dinode) : (s.store i f).num j = s.num j := by
  unfold State.num
  by_cases e : j = i
  · rw [e, store_inode]
  · rw [store_inode_ne s f e]

theorem store_vol (s : State) (i : Ino) (f : Dinode → Dinode) :
    (s.store i f).vol = s.vol.setDinode (s.num i) (f (s.inode i).din) := by
  rw [store_eq]
  rfl

end Yeet.Fs
