import YeetKernel.FsInode

/-!
# Path names and open files

A directory is a file of sixteen-byte entries, an inode number followed by a
name of at most `DIRSIZ` bytes. A path is the bytes of a C string without its
final zero. What transfers to and from pipes return comes from outside.
-/

namespace Yeet.Fs
open Kernel Bytes FsDisk Resumption Function

abbrev Name := List Byte

def direntSize : ℕ := 16

def direntInum (de : List Byte) : Ushort := de.getD 1 0++de.getD 0 0

def direntName (de : List Byte) : Name := (de.drop 2).take DIRSIZ

/-- What a comparison or copy of at most `DIRSIZ` characters sees. -/
def cstr (l : List Byte) : Name := (l.take DIRSIZ).takeWhile (fun c => c != 0)

def namecmp (s t : Name) : Bool := cstr s == cstr t

def mkDirent (inum : Ushort) (name : Name) : List Byte :=
  [inum.extractLsb' 0 8,inum.extractLsb' 8 8]++
    (cstr name++List.replicate (DIRSIZ-(cstr name).length) 0)

theorem length_cstr (l : List Byte) : (cstr l).length ≤ DIRSIZ := by
  refine Nat.le_trans (List.takeWhile_sublist _).length_le ?_
  rw [List.length_take]
  omega

theorem length_mkDirent (inum : Ushort) (name : Name) :
    (mkDirent inum name).length = direntSize := by
  have h := length_cstr name
  simp only [mkDirent, List.length_append, List.length_cons, List.length_nil,
    List.length_replicate, direntSize, DIRSIZ] at *
  omega

/-- The entries of `dp` from an offset on, up to one that passes the test. -/
def scan (dp : Ino) (msg : String) (test : List Byte → Bool) :
    ℕ → ℕ → FsProg (ℕ × Option (List Byte))
  | 0,off => pure (off,none)
  | fuel+1,off => do
    let size ← fetch (fun s => (s.inode dp).din.size)
    if off < size.toNat then do
      let r ← readi dp (BitVec.ofNat 32 off) (BitVec.ofNat 32 direntSize)
      if r.1 ≠ direntSize then halt msg
      else if test r.2 then pure (off,some r.2)
      else scan dp msg test fuel (off+direntSize)
    else pure (off,none)

def scanAll (dp : Ino) (msg : String) (test : List Byte → Bool) (start : ℕ) :
    FsProg (ℕ × Option (List Byte)) := do
  let size ← fetch (fun s => (s.inode dp).din.size)
  scan dp msg test (size.toNat/direntSize+1) start

def dirlookup (dp : Ino) (name : Name) : FsProg (Option (Ino × ℕ)) := do
  let x ← fetch (fun s => s.inode dp)
  if x.din.type ≠ T_DIR then halt "dirlookup not DIR"
  else do
    let r ← scanAll dp "dirlink read"
      (fun de => direntInum de != 0 && namecmp name (direntName de)) 0
    match r.2 with
    | none => pure none
    | some de => do
      let ip ← iget x.dev ((direntInum de).setWidth 32)
      pure (some (ip,r.1))

def dirlink (dp : Ino) (name : Name) (inum : Uint) : FsProg ℤ := do
  let found ← dirlookup dp name
  match found with
  | some (ip,_) => do
    iput ip
    pure (-1)
  | none => do
    let r ← scanAll dp "dirlink read" (fun de => direntInum de == 0) 0
    let n ← writei dp (mkDirent (inum.setWidth 16) name) (BitVec.ofNat 32 r.1)
    if n ≠ direntSize then halt "dirlink" else pure 0

def isdirempty (dp : Ino) : FsProg Bool := do
  let r ← scanAll dp "isdirempty: readi" (fun de => direntInum de != 0) (2*direntSize)
  pure r.2.isNone

def slash : Byte := 47

def skipelem (path : List Byte) : Option (Name × List Byte) :=
  match path.dropWhile (fun c => c == slash) with
  | [] => none
  | c::l =>
    let rest := (c::l).dropWhile (fun c => c != slash)
    some (((c::l).takeWhile (fun c => c != slash)).take DIRSIZ,rest.dropWhile (fun c => c == slash))

/-- The elements that repeated calls of `skipelem` give; each takes at least one
byte of the path. -/
def elements : ℕ → List Byte → List Name
  | 0,_ => []
  | fuel+1,path =>
    match skipelem path with
    | none => []
    | some (name,rest) => name::elements fuel rest

def walk (parent : Bool) : List Name → Ino → FsProg (Option (Ino × Name))
  | [],ip =>
    if parent then do
      iput ip
      pure none
    else pure (some (ip,[]))
  | name::l,ip => do
    ilock ip
    let type ← fetch (fun s => (s.inode ip).din.type)
    if type ≠ T_DIR then do
      iunlockput ip
      pure none
    else if parent && l.isEmpty then do
      iunlock ip
      pure (some (ip,name))
    else do
      let next ← dirlookup ip name
      match next with
      | none => do
        iunlockput ip
        pure none
      | some (next,_) => do
        iunlockput ip
        walk parent l next

def namex (p : Procno) (path : List Byte) (parent : Bool) : FsProg (Option (Ino × Name)) := do
  let names := elements path.length path
  if path.head? = some slash then do
    let ip ← iget ROOTDEV ROOTINO
    walk parent names ip
  else do
    let cwd ← fetch (fun s => (s.proc p).cwd)
    let ip ← deref cwd
    idup ip
    walk parent names ip

def namei (p : Procno) (path : List Byte) : FsProg (Option Ino) := do
  let r ← namex p path false
  pure (r.map Prod.fst)

def nameiparent (p : Procno) (path : List Byte) : FsProg (Option (Ino × Name)) := namex p path true

abbrev Fd := Fin NOFILE

def State.setFile (s : State) (f : Fileno) (x : File) : State := {s with file := update s.file f x}

def State.setProc (s : State) (p : Procno) (x : Process) : State :=
  {s with proc := update s.proc p x}

def State.setSlot (s : State) (p : Procno) (fd : Fd) (o : Option Fileno) : State :=
  s.setProc p {s.proc p with ofile := update (s.proc p).ofile fd o}

def State.filealloc (s : State) : Option Fileno × State :=
  match (List.finRange NFILE).find? (fun f => (s.file f).ref == 0) with
  | none => (none,s)
  | some f => (some f,s.setFile f {s.file f with ref := 1})

def filealloc : FsProg (Option Fileno) := perform (fun s => .ok s.filealloc)

def State.filedup (s : State) (f : Fileno) : Except Fault State :=
  if (s.file f).ref < 1 then .error (.panic "filedup")
  else .ok (s.setFile f {s.file f with ref := (s.file f).ref+1})

def filedup (f : Fileno) : FsProg Unit :=
  perform (fun s => (s.filedup f).map (fun s => ((),s)))

/-- The locked part of `fileclose`: the file if its last reference is gone. -/
def State.drop (s : State) (f : Fileno) : Except Fault (Option File × State) :=
  let x := s.file f
  if x.ref < 1 then .error (.panic "fileclose")
  else if x.ref-1 > 0 then .ok (none,s.setFile f {x with ref := x.ref-1})
  else .ok (some x,s.setFile f {x with ref := 0, type := .none})

def fileclose (f : Fileno) : FsProg Unit := do
  let ff ← perform (fun s => s.drop f)
  match ff with
  | none => pure ()
  | some x =>
    match x.type with
    | .inode => do
      beginOp
      let ip ← deref x.ip
      iput ip
      endOp
    | _ => pure ()

def filestat (f : Fileno) : FsProg (Option Inode) := do
  let x ← fetch (fun s => s.file f)
  match x.type with
  | .inode => do
    let ip ← deref x.ip
    ilock ip
    let st ← fetch (fun s => s.inode ip)
    iunlock ip
    pure (some st)
  | _ => pure none

def State.advance (s : State) (f : Fileno) (r : ℤ) : State :=
  if r > 0 then s.setFile f {s.file f with off := (s.file f).off+BitVec.ofInt 32 r} else s

def piperead (n : Uint) : FsProg (ℤ × List Byte) := do
  let k ← choose
  let m ← choose
  if k ≤ n.toNat then pure (k,outside k m) else pure (-1,[])

def pipewrite (n : Uint) : FsProg ℤ := do
  let k ← choose
  if k = 0 then pure (-1) else pure n.toInt

def fileread (f : Fileno) (n : Uint) : FsProg (ℤ × List Byte) := do
  let x ← fetch (fun s => s.file f)
  if x.readable = false then pure (-1,[])
  else match x.type with
    | .pipe => piperead n
    | .inode => do
      let ip ← deref x.ip
      ilock ip
      let off ← fetch (fun s => (s.file f).off)
      let r ← readi ip off n
      assign (fun s => s.advance f r.1)
      iunlock ip
      pure r
    | .none => halt "fileread"

def chunkMax : ℕ := (LOGSIZE-1-1-2)/2*512

/-- The loop of `filewrite`; the result is the number of bytes written. -/
def writeChunks (f : Fileno) (ip : Ino) (addr : ℕ → Byte) (n : ℕ) : ℕ → ℕ → FsProg ℕ
  | 0,i => pure i
  | fuel+1,i =>
    if i < n then do
      let n1 := min (n-i) chunkMax
      beginOp
      ilock ip
      let off ← fetch (fun s => (s.file f).off)
      let r ← writei ip ((List.range n1).map (fun j => addr (i+j))) off
      assign (fun s => s.advance f r)
      iunlock ip
      endOp
      if r < 0 then pure i
      else if r ≠ n1 then halt "short filewrite"
      else writeChunks f ip addr n fuel (i+n1)
    else pure i

def filewrite (f : Fileno) (addr : ℕ → Byte) (n : Uint) : FsProg ℤ := do
  let x ← fetch (fun s => s.file f)
  if x.writable = false then pure (-1)
  else match x.type with
    | .pipe => pipewrite n
    | .inode => do
      let ip ← deref x.ip
      let k := n.toInt.toNat
      let i ← writeChunks f ip addr k k 0
      if (i : ℤ) = n.toInt then pure n.toInt else pure (-1)
    | .none => halt "filewrite"

def pipealloc : FsProg (Option (Fileno × Fileno)) := do
  let f0 ← filealloc
  match f0 with
  | none => pure none
  | some f0 => do
    let f1 ← filealloc
    match f1 with
    | none => do
      fileclose f0
      pure none
    | some f1 => do
      let page ← choose
      if page = 0 then do
        fileclose f0
        fileclose f1
        pure none
      else do
        assign (fun s =>
          let s := s.setFile f0 {s.file f0 with type := .pipe, readable := true, writable := false}
          s.setFile f1 {s.file f1 with type := .pipe, readable := false, writable := true})
        pure (some (f0,f1))

def State.argfd (s : State) (p : Procno) (fd : Uint) : Option (Fd × Fileno) :=
  if h : fd.toNat < NOFILE then ((s.proc p).ofile ⟨fd.toNat,h⟩).map (fun f => (⟨fd.toNat,h⟩,f))
  else none

def State.freeFd (s : State) (p : Procno) : Option Fd :=
  (List.finRange NOFILE).find? (fun fd => ((s.proc p).ofile fd).isNone)

def State.fdalloc (s : State) (p : Procno) (f : Fileno) : Option Fd × State :=
  match s.freeFd p with
  | none => (none,s)
  | some fd => (some fd,s.setSlot p fd (some f))

def fdalloc (p : Procno) (f : Fileno) : FsProg (Option Fd) :=
  perform (fun s => .ok (s.fdalloc p f))

end Yeet.Fs
