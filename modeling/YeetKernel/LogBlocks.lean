import YeetKernel.FsPath

/-!
# Which blocks a transaction of `filewrite` logs

`filewrite` cuts a write into chunks, each between `begin_op` and `end_op`. A
chunk logs the blocks it writes, the bitmap block if one of them has to be
allocated, the indirect block if it gets a new entry, and the block of the
inode if the file grows. The model follows the block numbers only: the inode,
its indirect block and the free blocks of the disk, in the order in which
`balloc` finds them. The disk has a single bitmap block.
-/

namespace Yeet.LogBudget
open Kernel FsDisk Function
open Fs (chunkMax)

/-- The file and the disk; `log` has the blocks that were passed to `log_write`
since `begin_op`. -/
structure State where
  size : Uint
  addrs : ℕ → ℕ
  indirect : ℕ
  table : ℕ → ℕ
  free : List ℕ
  bitmap : ℕ
  inode : ℕ
  log : List ℕ

def State.logWrite (s : State) (b : ℕ) : State := {s with log := b::s.log}

def State.balloc (s : State) : Except Fault (ℕ × State) :=
  match s.free with
  | [] => .error (.panic "balloc: out of blocks")
  | b::free => .ok (b,({s with free := free}.logWrite s.bitmap).logWrite b)

def State.loadIndirect (s : State) : Except Fault State :=
  if s.indirect = 0 then do
    let (b,s) ← s.balloc
    .ok {s with indirect := b, table := fun _ => 0}
  else .ok s

def State.bmap (s : State) (bn : ℕ) : Except Fault (ℕ × State) :=
  if bn < NDIRECT then
    if s.addrs bn = 0 then do
      let (b,s) ← s.balloc
      .ok (b,{s with addrs := update s.addrs bn b})
    else .ok (s.addrs bn,s)
  else if bn-NDIRECT < NINDIRECT then do
    let s ← s.loadIndirect
    if s.table (bn-NDIRECT) = 0 then do
      let (b,s) ← s.balloc
      .ok (b,{s with table := update s.table (bn-NDIRECT) b}.logWrite s.indirect)
    else .ok (s.table (bn-NDIRECT),s)
  else .error (.panic "bmap: out of range")

/-- The loop of `writei`; the first argument bounds the number of rounds. -/
def State.writeBlocks : ℕ → ℕ → ℕ → State → Except Fault State
  | 0, _, _, s => .ok s
  | fuel+1, off, n, s =>
    if n = 0 then .ok s
    else do
      let (b,s) ← s.bmap (off/BSIZE)
      let m := min n (BSIZE-off%BSIZE)
      writeBlocks fuel (off+m) (n-m) (s.logWrite b)

/-- `ip->size = off; iupdate(ip);` if the file has grown. -/
def State.extend (s : State) (off n : Uint) : State :=
  if n > 0 ∧ off+n > s.size then {s with size := off+n}.logWrite s.inode else s

/-- `false` stands for the result -1. -/
def State.writei (s : State) (off n : Uint) : Except Fault (Bool × State) :=
  if off > s.size ∨ off+n < off then .ok (false,s)
  else if (off+n).toNat > MAXFILE*BSIZE then .ok (false,s)
  else do
    let s ← s.writeBlocks n.toNat off.toNat n.toNat
    .ok (true,s.extend off n)

/-- The loop of `filewrite` at the byte `i` of `n`: what each transaction that
comes to its end has logged. -/
def State.transactions (n : ℕ) : ℕ → ℕ → Uint → State → List (List ℕ)
  | 0, _, _, _ => []
  | fuel+1, i, off, s =>
    if i < n then
      let n1 := min (n-i) chunkMax
      match {s with log := []}.writei off (BitVec.ofNat 32 n1) with
      | .error _ => []
      | .ok (false,s') => [s'.log]
      | .ok (true,s') => s'.log::transactions n fuel (i+n1) (off+BitVec.ofNat 32 n1) s'
    else []

def State.filewrite (s : State) (off n : Uint) : List (List ℕ) :=
  s.transactions n.toInt.toNat n.toInt.toNat 0 off

def State.addr (s : State) (bn : ℕ) : ℕ :=
  if bn < NDIRECT then s.addrs bn
  else if s.indirect = 0 then 0
  else if bn-NDIRECT < NINDIRECT then s.table (bn-NDIRECT) else 0

structure State.Sound (s : State) : Prop where
  inj : ∀ i j, s.addr i ≠ 0 → s.addr i = s.addr j → i = j
  indirect : s.indirect ≠ 0 → ∀ i, s.addr i ≠ s.indirect
  nodup : s.free.Nodup
  free : ∀ b ∈ s.free, b ≠ 0 ∧ b ≠ s.indirect ∧ ∀ i, s.addr i ≠ b
  bitmap : s.bitmap ≠ 0 ∧ s.bitmap ≠ s.inode ∧ s.bitmap ∉ s.free ∧ s.bitmap ≠ s.indirect ∧
    ∀ i, s.addr i ≠ s.bitmap
  inode : s.inode ≠ 0 ∧ s.inode ∉ s.free ∧ s.inode ≠ s.indirect ∧ ∀ i, s.addr i ≠ s.inode

def span (off n : ℕ) : List ℕ :=
  if n = 0 then [] else List.range' (off/BSIZE) ((off+n-1)/BSIZE-off/BSIZE+1)

theorem span_step (off : ℕ) {n : ℕ} (hn : n ≠ 0) :
    span off n = off/BSIZE::span (off+min n (BSIZE-off%BSIZE)) (n-min n (BSIZE-off%BSIZE)) := by
  by_cases hm : n ≤ BSIZE-off%BSIZE
  · have h2 : (off+n-1)/BSIZE-off/BSIZE = 0 := by
      simp only [BSIZE] at *
      omega
    rw [Nat.min_eq_left hm, Nat.sub_self, span, span, if_neg hn, if_pos rfl, h2]
    rfl
  rw [Nat.min_eq_right (Nat.le_of_not_le hm), span, span, if_neg hn, if_neg (by omega)]
  have h2 : (off+(BSIZE-off%BSIZE))/BSIZE = off/BSIZE+1 := by
    simp only [BSIZE]
    omega
  have h3 : (off+(BSIZE-off%BSIZE)+(n-(BSIZE-off%BSIZE))-1)/BSIZE-(off/BSIZE+1)+1 =
      (off+n-1)/BSIZE-off/BSIZE := by
    simp only [BSIZE] at *
    omega
  rw [h2, h3, List.range'_succ]

theorem span_nodup (off n : ℕ) : (span off n).Nodup := by
  unfold span
  split
  · exact List.nodup_nil
  · exact List.nodup_range'

theorem span_lt {off n : ℕ} (h : off+n ≤ MAXFILE*BSIZE) : ∀ i ∈ span off n, i < MAXFILE := by
  intro i hi
  unfold span at hi
  split at hi
  · cases hi
  rename_i hn
  rw [List.mem_range'_1] at hi
  simp only [MAXFILE, NDIRECT, NINDIRECT, BSIZE] at *
  omega

end Yeet.LogBudget
