import YeetKernel.FsCall

/-!
# The system calls as one machine

Identities and modes, the list of all calls, and the state in which the first
process starts to run; at the end a small volume with an empty root directory.
-/

namespace Yeet.Fs
open Kernel Bytes FsDisk Resumption Function

def idMax : ℕ := 32767

def modeMax : ℕ := 3361

/-- The body that `chmod`, `chown` and `chgrp` of `fs.c` share. The reference that
`namei` returns is not put back. -/
def setAttr (p : Procno) (path : Path) (f : Dinode → Dinode) : FsProg ℤ := do
  beginOp
  let r ← namei p path
  match r with
  | none => do
    endOp
    pure (-1)
  | some ip => do
    ilock ip
    assign (fun s => s.store ip f)
    iunlock ip
    endOp
    pure 0

def chmod (p : Procno) (path : Path) (mode : Uint) : FsProg ℤ :=
  setAttr p path (fun d => {d with mode := mode})

def chown (p : Procno) (path : Path) (uid : Uint) : FsProg ℤ :=
  setAttr p path (fun d => {d with uid := uid.setWidth 16})

def chgrp (p : Procno) (path : Path) (gid : Uint) : FsProg ℤ :=
  setAttr p path (fun d => {d with gid := gid.setWidth 16})

def sysChmod (p : Procno) (path : Path) (mode : Uint) : FsProg ℤ :=
  if mode.toInt > modeMax ∨ mode.toInt < 0 then pure (-1)
  else do
    let _ ← chmod p path mode
    pure 0

def sysChown (p : Procno) (path : Path) (uid : Uint) : FsProg ℤ := do
  let _ ← chown p path uid
  pure 0

def sysChgrp (p : Procno) (path : Path) (gid : Uint) : FsProg ℤ := do
  let _ ← chgrp p path gid
  pure 0

def sysSetuid (p : Procno) (n : Uint) : FsProg ℤ :=
  if n.toInt < 0 ∨ n.toInt > idMax then pure (-2)
  else do
    assign (fun s => s.setProc p {s.proc p with uid := n})
    pure 0

def sysSetgid (p : Procno) (n : Uint) : FsProg ℤ :=
  if n.toInt < 0 ∨ n.toInt > idMax then pure (-2)
  else do
    assign (fun s => s.setProc p {s.proc p with gid := n})
    pure 0

inductive Call where
  | fork
  | exit
  | wait
  | exec (path : Path)
  | openPath (path : Path) (omode : Uint)
  | close (fd : Uint)
  | dup (fd : Uint)
  | pipe
  | read (fd n : Uint)
  | write (fd : Uint) (addr : ℕ → Byte) (n : Uint)
  | fstat (fd : Uint)
  | link (old new : Path)
  | unlink (path : Path)
  | mkdir (path : Option Path)
  | mknod (path : Option Path) (major minor : Uint)
  | chdir (path : Option Path)
  | chmod (path : Path) (mode : Uint)
  | chown (path : Path) (uid : Uint)
  | chgrp (path : Path) (gid : Uint)
  | setuid (n : Uint)
  | setgid (n : Uint)
  | badArgument

def code (p : Procno) : Call → FsProg ℤ
  | .fork => fork p
  | .exit => exit p
  | .wait => wait p
  | .exec path => exec p path
  | .openPath path omode => sysOpen p path omode
  | .close fd => sysClose p fd
  | .dup fd => sysDup p fd
  | .pipe => sysPipe p
  | .read fd n => sysRead p fd n
  | .write fd addr n => sysWrite p fd addr n
  | .fstat fd => sysFstat p fd
  | .link old new => sysLink p old new
  | .unlink path => sysUnlink p path
  | .mkdir path => sysMkdir p path
  | .mknod path major minor => sysMknod p path major minor
  | .chdir path => sysChdir p path
  | .chmod path mode => sysChmod p path mode
  | .chown path uid => sysChown p path uid
  | .chgrp path gid => sysChgrp p path gid
  | .setuid n => sysSetuid p n
  | .setgid n => sysSetgid p n
  | .badArgument => pure (-1)

/-- Only `exit` does something after its program: it does not return. -/
def leave (p : Procno) : Call → State → State
  | .exit,s => s.zombie p
  | _,s => s

def machine : Machine State Fault Procno Call ℤ where
  enabled s p := (s.proc p).status == .live
  code := code
  leave := leave

def Process.free : Process := ⟨.unused,none,fun _ => none,none,0,0⟩

def File.free : File := ⟨.none,0,false,false,none,0⟩

def Inode.free : Inode := ⟨0,0,false,false,Dinode.zero⟩

/-- After `userinit` and `iinit`: one process, whose current directory is the
root of the volume. -/
def boot (d : Disk) : State where
  vol := ⟨readsb d,d⟩
  inode := update (fun _ => Inode.free) ⟨0,by decide⟩
    ⟨ROOTDEV,ROOTINO,false,false,Dinode.zero⟩
  iref := update (fun _ => 0) ⟨0,by decide⟩ 1
  file := fun _ => File.free
  proc := update (fun _ => Process.free) ⟨0,by decide⟩
    ⟨.live,some ⟨0,by decide⟩,fun _ => none,some ⟨0,by decide⟩,PROC_UID,PROC_GID⟩
  initproc := ⟨0,by decide⟩
  outstanding := 0

def blank : DiskBlock := fun _ => 0

def superBlock (sb : Superblock) : DiskBlock :=
  let b := setField blank 0 4 (BitVec.ofNat 32 sb.size)
  let b := setField b 4 4 (BitVec.ofNat 32 sb.nblocks)
  let b := setField b 8 4 (BitVec.ofNat 32 sb.ninodes)
  let b := setField b 12 4 (BitVec.ofNat 32 sb.nlog)
  let b := setField b 16 4 (BitVec.ofNat 32 sb.logstart)
  let b := setField b 20 4 (BitVec.ofNat 32 sb.inodestart)
  setField b 24 4 (BitVec.ofNat 32 sb.bmapstart)

def smallSuper : Superblock := ⟨40,32,16,2,2,4,7⟩

def rootAddrs : Fin (NDIRECT+1) → Uint := fun k => if k.val = 0 then 8 else 0

def rootInode : Dinode :=
  {Dinode.zero with type := T_DIR, nlink := 1, size := 32, addrs := rootAddrs}

def rootBlock : DiskBlock := putBytes blank 0 (mkDirent 1 [46]++mkDirent 1 [46,46])

def smallMap : DiskBlock := putBytes blank 0 [0xff,0x01]

def smallDisk : Disk :=
  update (update (update (update (fun _ => blank) 1 (superBlock smallSuper)) 4
    (putDinode blank 1 rootInode)) 7 smallMap) 8 rootBlock

def first : Procno := ⟨0,nproc_pos⟩

def lastResult (h : List (Resumption.Move Procno Call × Resumption.Seen Procno Call ℤ)) : Option ℤ :=
  match h.getLast? with
  | some (_,.returned _ _ r) => some r
  | _ => none

def calls : List (Call × ℕ) → List (Resumption.Move Procno Call)
  | [] => []
  | (c,n)::l => .call first c::(List.replicate n (.step 0)++calls l)

end Yeet.Fs
