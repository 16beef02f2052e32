import YeetKernel.FsPath

/-!
# Processes as holders of files

`fork`, `exit`, `wait` and `exec` as far as they touch open files, current
directories, parents and identities. The slot that `allocproc` takes from the
free list and all decisions of the memory allocator come from outside.
-/

namespace Yeet.Fs
open Kernel Bytes FsDisk Resumption

def ELF_MAGIC : Uint := 0x464C457F
def ELF_PROG_LOAD : Uint := 1
def elfSize : ℕ := 52
def phSize : ℕ := 32

def State.setStatus (s : State) (p : Procno) (t : Status) : State :=
  s.setProc p {s.proc p with status := t}

def State.allocproc (s : State) (k : ℕ) : Option Procno × State :=
  if h : k < NPROC then
    if (s.proc ⟨k,h⟩).status = .unused then (some ⟨k,h⟩,s.setStatus ⟨k,h⟩ .embryo) else (none,s)
  else (none,s)

def allocproc : FsProg (Option Procno) := do
  let k ← choose
  let np ← perform (fun s => .ok (s.allocproc k))
  match np with
  | none => pure none
  | some np => do
    let kstack ← choose
    if kstack = 0 then do
      assign (fun s => s.setStatus np .unused)
      pure none
    else pure (some np)

def State.dupSlot (s : State) (np : Procno) (fd : Fd) (f : Fileno) :
    Except Fault (Unit × State) := do
  let s ← s.filedup f
  .ok ((),s.setSlot np fd (some f))

def copyFiles (p np : Procno) : List Fd → FsProg Unit
  | [] => pure ()
  | fd::l => do
    let o ← fetch (fun s => (s.proc p).ofile fd)
    match o with
    | none => copyFiles p np l
    | some f => do
      perform (fun s => s.dupSlot np fd f)
      copyFiles p np l

def State.dupCwd (s : State) (np : Procno) (i : Ino) : State :=
  (s.setRef i (s.iref i+1)).setProc np {s.proc np with cwd := some i}

def State.inherit (s : State) (p np : Procno) : State :=
  s.setProc np {s.proc np with uid := (s.proc p).uid, gid := (s.proc p).gid}

def fork (p : Procno) : FsProg ℤ := do
  let np ← allocproc
  match np with
  | none => pure (-1)
  | some np => do
    let pgdir ← choose
    if pgdir = 0 then do
      assign (fun s => s.setStatus np .unused)
      pure (-1)
    else do
      assign (fun s => s.setProc np {s.proc np with parent := some p})
      copyFiles p np (List.finRange NOFILE)
      let cwd ← fetch (fun s => (s.proc p).cwd)
      let i ← deref cwd
      assign (fun s => s.dupCwd np i)
      assign (fun s => s.inherit p np)
      assign (fun s => s.setStatus np .live)
      pure np.val

def closeFiles (p : Procno) : List Fd → FsProg Unit
  | [] => pure ()
  | fd::l => do
    let o ← fetch (fun s => (s.proc p).ofile fd)
    match o with
    | none => closeFiles p l
    | some f => do
      fileclose f
      assign (fun s => s.setSlot p fd none)
      closeFiles p l

/-- `exit` up to the point where the process gives up the processor. -/
def exit (p : Procno) : FsProg ℤ := do
  let init ← fetch State.initproc
  if p = init then halt "init exiting"
  else do
    closeFiles p (List.finRange NOFILE)
    beginOp
    let cwd ← fetch (fun s => (s.proc p).cwd)
    let i ← deref cwd
    iput i
    endOp
    assign (fun s => s.setProc p {s.proc p with cwd := none})
    pure 0

/-- The last part of `exit`: the children are given to `init`, and the process
becomes a zombie. -/
def State.zombie (s : State) (p : Procno) : State :=
  let adopt : Process → Process := fun x =>
    if x.parent = some p ∧ x.status ≠ .unused then {x with parent := some s.initproc} else x
  {s with proc := fun q => adopt (s.proc q)}.setStatus p .zombie

def State.hasChild (s : State) (p : Procno) (t : Status → Bool) : Bool :=
  (List.finRange NPROC).any (fun q => t (s.proc q).status && (s.proc q).parent == some p)

/-- One pass of `wait` over the table; the zombie it meets first is `k`. -/
def State.wait (s : State) (p : Procno) (k : ℕ) (killed : Bool) :
    Option (Except Fault (ℤ × State)) :=
  if s.hasChild p (fun t => t == .zombie) then
    if h : k < NPROC then
      let q : Procno := ⟨k,h⟩
      if (s.proc q).status = .zombie ∧ (s.proc q).parent = some p then
        some (.ok (k,s.setProc q {s.proc q with status := .unused, parent := none}))
      else none
    else none
  else if !s.hasChild p (fun t => t != .unused) || killed then some (.ok (-1,s))
  else none

def wait (p : Procno) : FsProg ℤ := do
  let k ← choose
  let killed ← choose
  atom (fun s => s.wait p k (killed != 0))

def wordOf (l : List Byte) (o : ℕ) : Uint :=
  l.getD (o+3) 0++l.getD (o+2) 0++l.getD (o+1) 0++l.getD o 0

def loadPages (ip : Ino) (offset sz : Uint) : ℕ → ℕ → FsProg Bool
  | 0,_ => pure true
  | fuel+1,i =>
    if i < sz.toNat then do
      let pte ← choose
      if pte = 0 then halt "loaduvm: address should exist"
      else do
        let n := min (sz.toNat-i) PGSIZE
        let r ← readi ip (offset+BitVec.ofNat 32 i) (BitVec.ofNat 32 n)
        if r.1 ≠ n then pure false else loadPages ip offset sz fuel (i+PGSIZE)
    else pure true

def loaduvm (addr : Uint) (ip : Ino) (offset sz : Uint) : FsProg Bool :=
  if addr.toNat%PGSIZE ≠ 0 then halt "loaduvm: addr must be page aligned"
  else loadPages ip offset sz (sz.toNat/PGSIZE+1) 0

/-- The program headers of `exec`, `k` of them from the offset `off` on. -/
def loadSegments (ip : Ino) : ℕ → Uint → FsProg Bool
  | 0,_ => pure true
  | k+1,off => do
    let r ← readi ip off (BitVec.ofNat 32 phSize)
    if r.1 ≠ phSize then pure false
    else if wordOf r.2 0 ≠ ELF_PROG_LOAD then loadSegments ip k (off+BitVec.ofNat 32 phSize)
    else if wordOf r.2 20 < wordOf r.2 16 then pure false
    else do
      let sz ← choose
      if sz = 0 then pure false
      else do
        let done ← loaduvm (wordOf r.2 8) ip (wordOf r.2 4) (wordOf r.2 16)
        if done then loadSegments ip k (off+BitVec.ofNat 32 phSize) else pure false

def mayExec (x : Process) (d : Dinode) : Bool :=
  (x.uid == d.uid.setWidth 32 && d.mode.getLsbD 6) ||
    (x.gid == d.gid.setWidth 32 && d.mode.getLsbD 3) || d.mode.getLsbD 0

/-- The `setuid` bit makes the owner of the file the user of the process. -/
def State.setuidFrom (s : State) (p : Procno) (d : Dinode) : State :=
  if d.mode.getLsbD 9 then s.setProc p {s.proc p with uid := d.uid.setWidth 32} else s

/-- `exec` from the permission check to the last program header. -/
def execLoad (p : Procno) (ip : Ino) : FsProg Bool := do
  let d ← fetch (fun s => (s.inode ip).din)
  let x ← fetch (fun s => s.proc p)
  if mayExec x d then do
    assign (fun s => s.setuidFrom p d)
    let r ← readi ip 0 (BitVec.ofNat 32 elfSize)
    if (BitVec.ofInt 32 r.1).toNat < elfSize then pure false
    else do
      let m ← choose
      let elf := if r.1 < 0 then outside elfSize m else r.2
      if wordOf elf 0 ≠ ELF_MAGIC then pure false
      else do
        let pgdir ← choose
        if pgdir = 0 then pure false
        else loadSegments ip ((wordOf elf 44).setWidth 16).toNat (wordOf elf 28)
  else pure false

def exec (p : Procno) (path : List Byte) : FsProg ℤ := do
  beginOp
  let r ← namei p path
  match r with
  | none => do
    endOp
    pure (-1)
  | some ip => do
    ilock ip
    let page ← choose
    if page = 0 then halt "trap"
    else do
      let loaded ← execLoad p ip
      iunlockput ip
      endOp
      let image ← choose
      if loaded && image != 0 then pure 0 else pure (-1)

end Yeet.Fs
