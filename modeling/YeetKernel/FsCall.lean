import YeetKernel.FsProc

/-!
# The system calls

The calls of `sysfile.c` on descriptors and paths. The arguments of a call are
what the kernel fetches from the user stack. Where a transaction is begun
before the fetch, `none` stands for a fetch that fails.
-/

namespace Yeet.Fs
open Kernel Bytes FsDisk Resumption

abbrev Path := List Byte

def O_WRONLY : Uint := 0x001
def O_RDWR : Uint := 0x002
def O_CREATE : Uint := 0x200

def FILE_UID : Ushort := 0
def FILE_GID : Ushort := 0
def FILE_MODE : Uint := 0o755

def PROC_UID : Uint := 0
def PROC_GID : Uint := 0

def argfd (p : Procno) (fd : Uint) : FsProg (Option (Fd × Fileno)) := fetch (fun s => s.argfd p fd)

def sysDup (p : Procno) (fd : Uint) : FsProg ℤ := do
  let r ← argfd p fd
  match r with
  | none => pure (-1)
  | some (_,f) => do
    let d ← fdalloc p f
    match d with
    | none => pure (-1)
    | some d => do
      filedup f
      pure d.val

def sysRead (p : Procno) (fd n : Uint) : FsProg ℤ := do
  let r ← argfd p fd
  match r with
  | none => pure (-1)
  | some (_,f) => do
    let r ← fileread f n
    pure r.1

def sysWrite (p : Procno) (fd : Uint) (addr : ℕ → Byte) (n : Uint) : FsProg ℤ := do
  let r ← argfd p fd
  match r with
  | none => pure (-1)
  | some (_,f) => filewrite f addr n

def sysClose (p : Procno) (fd : Uint) : FsProg ℤ := do
  let r ← argfd p fd
  match r with
  | none => pure (-1)
  | some (d,f) => do
    assign (fun s => s.setSlot p d none)
    fileclose f
    pure 0

def sysFstat (p : Procno) (fd : Uint) : FsProg ℤ := do
  let r ← argfd p fd
  match r with
  | none => pure (-1)
  | some (_,f) => do
    let st ← filestat f
    pure (if st.isSome then 0 else -1)

def linkBad (ip : Ino) : FsProg ℤ := do
  ilock ip
  assign (fun s => s.store ip (fun d => {d with nlink := d.nlink-1}))
  iunlockput ip
  endOp
  pure (-1)

/-- `sys_link` from the lookup of the new name on. -/
def linkNew (p : Procno) (ip : Ino) (new : Path) : FsProg ℤ := do
  let r ← nameiparent p new
  match r with
  | none => linkBad ip
  | some (dp,name) => do
    ilock dp
    let x ← fetch (fun s => s.inode ip)
    let dev ← fetch (fun s => (s.inode dp).dev)
    if dev ≠ x.dev then do
      iunlockput dp
      linkBad ip
    else do
      let n ← dirlink dp name x.inum
      if n < 0 then do
        iunlockput dp
        linkBad ip
      else do
        iunlockput dp
        iput ip
        endOp
        pure 0

def sysLink (p : Procno) (old new : Path) : FsProg ℤ := do
  beginOp
  let r ← namei p old
  match r with
  | none => do
    endOp
    pure (-1)
  | some ip => do
    ilock ip
    let type ← fetch (fun s => (s.inode ip).din.type)
    if type = T_DIR then do
      iunlockput ip
      endOp
      pure (-1)
    else do
      assign (fun s => s.store ip (fun d => {d with nlink := d.nlink+1}))
      iunlock ip
      linkNew p ip new

def unlinkBad (dp : Ino) : FsProg ℤ := do
  iunlockput dp
  endOp
  pure (-1)

/-- The parent of a removed directory loses the link from `..`. -/
def dropParent (dp : Ino) (type : Ushort) : FsProg Unit :=
  if type = T_DIR then assign (fun s => s.store dp (fun d => {d with nlink := d.nlink-1}))
  else pure ()

/-- The entry at `off` is cleared and the counts of both inodes drop. -/
def unlinkEntry (dp ip : Ino) (off : ℕ) (type : Ushort) : FsProg ℤ := do
  let n ← writei dp (List.replicate direntSize 0) (BitVec.ofNat 32 off)
  if n ≠ direntSize then halt "unlink: writei"
  else do
    dropParent dp type
    iunlockput dp
    assign (fun s => s.store ip (fun d => {d with nlink := d.nlink-1}))
    iunlockput ip
    endOp
    pure 0

def dot : Name := [46]
def dotdot : Name := [46,46]

def sysUnlink (p : Procno) (path : Path) : FsProg ℤ := do
  beginOp
  let r ← nameiparent p path
  match r with
  | none => do
    endOp
    pure (-1)
  | some (dp,name) => do
    ilock dp
    if namecmp name dot || namecmp name dotdot then unlinkBad dp
    else do
      let found ← dirlookup dp name
      match found with
      | none => unlinkBad dp
      | some (ip,off) => do
        ilock ip
        let d ← fetch (fun s => (s.inode ip).din)
        if d.nlink.toInt < 1 then halt "unlink: nlink < 1"
        else if d.type = T_DIR then do
          let empty ← isdirempty ip
          if empty then unlinkEntry dp ip off d.type
          else do
            iunlockput ip
            unlinkBad dp
        else unlinkEntry dp ip off d.type

/-- The entries `.` and `..` if the new inode is a directory. -/
def makeDots (dp ip : Ino) (type : Ushort) : FsProg Unit :=
  if type = T_DIR then do
    assign (fun s => s.store dp (fun d => {d with nlink := d.nlink+1}))
    let self ← fetch (fun s => (s.inode ip).inum)
    let n ← dirlink ip dot self
    if n < 0 then halt "create dots"
    else do
      let up ← fetch (fun s => (s.inode dp).inum)
      let n ← dirlink ip dotdot up
      if n < 0 then halt "create dots" else pure ()
  else pure ()

/-- The part of `create` for a name that is not in use. -/
def createNew (dp : Ino) (name : Name) (type major minor : Ushort) : FsProg (Option Ino) := do
  let dev ← fetch (fun s => (s.inode dp).dev)
  let ip ← ialloc dev type
  ilock ip
  assign (fun s => s.store ip (fun d => {d with
    major := major, minor := minor, nlink := 1, uid := FILE_UID, gid := FILE_GID, mode := FILE_MODE}))
  makeDots dp ip type
  let inum ← fetch (fun s => (s.inode ip).inum)
  let n ← dirlink dp name inum
  if n < 0 then halt "create: dirlink"
  else do
    iunlockput dp
    pure (some ip)

def create (p : Procno) (path : Path) (type major minor : Ushort) : FsProg (Option Ino) := do
  let r ← nameiparent p path
  match r with
  | none => pure none
  | some (dp,name) => do
    ilock dp
    let found ← dirlookup dp name
    match found with
    | some (ip,_) => do
      iunlockput dp
      ilock ip
      let t ← fetch (fun s => (s.inode ip).din.type)
      if type = T_FILE ∧ t = T_FILE then pure (some ip)
      else do
        iunlockput ip
        pure none
    | none => createNew dp name type major minor

def openInode (p : Procno) (path : Path) (omode : Uint) : FsProg (Option Ino) :=
  if omode &&& O_CREATE ≠ 0 then create p path T_FILE 0 0
  else do
    let r ← namei p path
    match r with
    | none => pure none
    | some ip => do
      ilock ip
      let type ← fetch (fun s => (s.inode ip).din.type)
      if type = T_DIR ∧ omode ≠ 0 then do
        iunlockput ip
        pure none
      else pure (some ip)

/-- The last assignments of `sys_open`. -/
def State.openFile (s : State) (f : Fileno) (ip : Ino) (omode : Uint) : State :=
  s.setFile f {s.file f with
    type := .inode, ip := some ip, off := 0, readable := omode &&& O_WRONLY == 0,
    writable := omode &&& O_WRONLY != 0 || omode &&& O_RDWR != 0}

def sysOpen (p : Procno) (path : Path) (omode : Uint) : FsProg ℤ := do
  beginOp
  let r ← openInode p path omode
  match r with
  | none => do
    endOp
    pure (-1)
  | some ip => do
    let f ← filealloc
    match f with
    | none => do
      iunlockput ip
      endOp
      pure (-1)
    | some f => do
      let fd ← fdalloc p f
      match fd with
      | none => do
        fileclose f
        iunlockput ip
        endOp
        pure (-1)
      | some fd => do
        iunlock ip
        endOp
        assign (fun s => s.openFile f ip omode)
        pure fd.val

/-- `sys_mkdir` and `sys_mknod` from `create` on; `none` if an argument could not
be fetched. -/
def makeNode (p : Procno) (path : Option Path) (type major minor : Ushort) : FsProg ℤ := do
  beginOp
  match path with
  | none => do
    endOp
    pure (-1)
  | some path => do
    let r ← create p path type major minor
    match r with
    | none => do
      endOp
      pure (-1)
    | some ip => do
      iunlockput ip
      endOp
      pure 0

def sysMkdir (p : Procno) (path : Option Path) : FsProg ℤ := makeNode p path T_DIR 0 0

def sysMknod (p : Procno) (path : Option Path) (major minor : Uint) : FsProg ℤ :=
  makeNode p path T_DEV (major.setWidth 16) (minor.setWidth 16)

def sysChdir (p : Procno) (path : Option Path) : FsProg ℤ := do
  beginOp
  match path with
  | none => do
    endOp
    pure (-1)
  | some path => do
    let r ← namei p path
    match r with
    | none => do
      endOp
      pure (-1)
    | some ip => do
      ilock ip
      let type ← fetch (fun s => (s.inode ip).din.type)
      if type ≠ T_DIR then do
        iunlockput ip
        endOp
        pure (-1)
      else do
        iunlock ip
        let cwd ← fetch (fun s => (s.proc p).cwd)
        let old ← deref cwd
        iput old
        endOp
        assign (fun s => s.setProc p {s.proc p with cwd := some ip})
        pure 0

def sysPipe (p : Procno) : FsProg ℤ := do
  let r ← pipealloc
  match r with
  | none => pure (-1)
  | some (rf,wf) => do
    let fd0 ← fdalloc p rf
    match fd0 with
    | none => do
      fileclose rf
      fileclose wf
      pure (-1)
    | some fd0 => do
      let fd1 ← fdalloc p wf
      match fd1 with
      | none => do
        assign (fun s => s.setSlot p fd0 none)
        fileclose rf
        fileclose wf
        pure (-1)
      | some _ => pure 0

end Yeet.Fs
