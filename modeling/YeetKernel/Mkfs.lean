import YeetKernel.FsMachine
import YeetKernel.FsBlocks

/-!
# The program that makes the first image

`mkfs` writes an image of `FSSIZE` blocks with a root directory and the files
it is given. Blocks are handed out in order by the counter `freeblock`, inodes
by `freeinode`, and the free map is written at the end from the first of them.
Files are opened on the host, so a file is its name and its bytes.
-/

namespace Yeet.Mkfs
open Kernel Bytes FsDisk Fs Function

def NINODES : ℕ := 200

def nbitmap : ℕ := FSSIZE/(BSIZE*8)+1
def ninodeblocks : ℕ := NINODES/IPB+1
def nmeta : ℕ := 2+LOGSIZE+ninodeblocks+nbitmap

def sb : Superblock where
  size := FSSIZE
  nblocks := FSSIZE-nmeta
  ninodes := NINODES
  nlog := LOGSIZE
  logstart := 2
  inodestart := 2+LOGSIZE
  bmapstart := 2+LOGSIZE+ninodeblocks

/-- How `mkfs` ends early: a failed assertion, or a sector past the end of the image. -/
inductive Stop where
  | assert
  | read
  deriving DecidableEq

structure Image where
  disk : Disk
  freeinode : ℕ
  freeblock : ℕ

def wsect (sec : ℕ) (b : DiskBlock) (m : Image) : Image := {m with disk := update m.disk sec b}

def rsect (sec : ℕ) (m : Image) : Except Stop DiskBlock :=
  if sec < FSSIZE then .ok (m.disk sec) else .error .read

def winode (inum : ℕ) (d : Dinode) (m : Image) : Except Stop Image := do
  let b ← rsect (sb.iblock inum) m
  .ok (wsect (sb.iblock inum) (putDinode b (inum%IPB) d) m)

def rinode (inum : ℕ) (m : Image) : Except Stop Dinode := do
  let b ← rsect (sb.iblock inum) m
  .ok (getDinode b (inum%IPB))

def newInode (type : Ushort) : Dinode :=
  {Dinode.zero with
    type := type
    nlink := 1
    uid := FILE_UID
    gid := FILE_GID
    mode := FILE_MODE}

def ialloc (type : Ushort) (m : Image) : Except Stop (ℕ × Image) := do
  let w ← winode m.freeinode (newInode type) {m with freeinode := m.freeinode+1}
  .ok (m.freeinode,w)

def Image.next (m : Image) : Image := {m with freeblock := m.freeblock+1}

def Image.fresh (m : Image) : Uint := BitVec.ofNat 32 m.freeblock

def slot (k : Fin (NDIRECT+1)) (din : Dinode) (m : Image) : Dinode × Image :=
  if din.addrs k = 0 then (din.setAddr k m.fresh,m.next) else (din,m)

/-- The block with number `fbn` of the file, allocated if there is none. -/
def block (fbn : ℕ) (din : Dinode) (m : Image) : Except Stop (Uint × Dinode × Image) :=
  if h : fbn < NDIRECT then
    let k : Fin (NDIRECT+1) := ⟨fbn,Nat.lt_succ_of_lt h⟩
    let r := slot k din m
    .ok (r.1.addrs k,r)
  else do
    let r := slot (Fin.last NDIRECT) din m
    let a := r.1.indirect.toNat
    let indirect ← rsect a r.2
    if getWord indirect (fbn-NDIRECT) = 0 then
      .ok (r.2.fresh,r.1,wsect a (setWord indirect (fbn-NDIRECT) r.2.fresh) r.2.next)
    else .ok (getWord indirect (fbn-NDIRECT),r)

/-- The loop of `iappend`. Each round takes at least one byte, so the number of
bytes bounds the rounds. -/
def appendLoop : ℕ → Dinode → ℕ → List Byte → Image → Except Stop (Dinode × ℕ × Image)
  | 0,din,off,_,m => .ok (din,off,m)
  | fuel+1,din,off,p,m =>
    if p.isEmpty then .ok (din,off,m)
    else
      let fbn := off/BSIZE
      if fbn < MAXFILE then do
        let r ← block fbn din m
        let n1 := min p.length ((fbn+1)*BSIZE-off)
        let buf ← rsect r.1.toNat r.2.2
        appendLoop fuel r.2.1 (off+n1) (p.drop n1)
          (wsect r.1.toNat (putBytes buf (off-fbn*BSIZE) (p.take n1)) r.2.2)
      else .error .assert

def iappend (inum : ℕ) (p : List Byte) (m : Image) : Except Stop Image := do
  let din ← rinode inum m
  let r ← appendLoop p.length din din.size.toNat p m
  winode inum {r.1 with size := BitVec.ofNat 32 r.2.1} r.2.2

structure Input where
  name : Name
  data : List Byte

def Input.stored (f : Input) : Name :=
  match f.name with
  | [] => []
  | c::l => if c = 95 then l else c::l

def copyLoop (inum : ℕ) : ℕ → List Byte → Image → Except Stop Image
  | 0,_,m => .ok m
  | fuel+1,l,m =>
    if l.isEmpty then .ok m
    else do
      let w ← iappend inum (l.take BSIZE) m
      copyLoop inum fuel (l.drop BSIZE) w

def rootino : ℕ := ROOTINO.toNat

def addFile (f : Input) (m : Image) : Except Stop Image :=
  if f.name.any (fun c => c == slash) then .error .assert
  else do
    let r ← ialloc T_FILE m
    let w ← iappend rootino (mkDirent (BitVec.ofNat 16 r.1) f.stored) r.2
    copyLoop r.1 f.data.length f.data w

def addFiles : List Input → Image → Except Stop Image
  | [],m => .ok m
  | f::l,m => do
    let w ← addFile f m
    addFiles l w

def fixRoot (m : Image) : Except Stop Image := do
  let din ← rinode rootino m
  winode rootino {din with size := BitVec.ofNat 32 ((din.size.toNat/BSIZE+1)*BSIZE)} m

def usedMap (used : ℕ) : DiskBlock := (List.range used).foldl setBit blank

def balloc (used : ℕ) (m : Image) : Except Stop Image :=
  if used < BSIZE*8 then .ok (wsect sb.bmapstart (usedMap used) m) else .error .assert

def zeroed : Image := ⟨update (fun _ => blank) 1 (superBlock sb),1,nmeta⟩

def makeRoot : Except Stop Image := do
  let r ← ialloc T_DIR zeroed
  if r.1 = rootino then do
    let w ← iappend r.1 (mkDirent (BitVec.ofNat 16 r.1) [46]) r.2
    iappend r.1 (mkDirent (BitVec.ofNat 16 r.1) [46,46]) w
  else .error .assert

def mkfs (files : List Input) : Except Stop Image := do
  let m ← makeRoot
  let m ← addFiles files m
  let m ← fixRoot m
  balloc m.freeblock m

def Image.vol (m : Image) : Volume := ⟨sb,m.disk⟩

end Yeet.Mkfs
