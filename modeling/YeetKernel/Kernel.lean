import YeetKernel.Bytes

/-!
# Kernel constants and abnormal outcomes

The constants are those of `param.h` and `fs.h` for the CS333 project 5
build. A kernel routine that cannot finish ends in a `Fault`: a panic with
its message, an access through a null pointer, an index outside an array,
or a pointer loop that visits more nodes than exist.
-/

namespace Yeet.Kernel

abbrev Uint := BitVec 32

abbrev Ushort := BitVec 16

def NPROC : ℕ := 64
def NCPU : ℕ := 8
def NOFILE : ℕ := 16
def NFILE : ℕ := 100
def NINODE : ℕ := 50
def NDEV : ℕ := 10
def MAXOPBLOCKS : ℕ := 10
def LOGSIZE : ℕ := MAXOPBLOCKS*3
def NBUF : ℕ := MAXOPBLOCKS*3
def FSSIZE : ℕ := 2000
def PGSIZE : ℕ := 4096
def KERNBASE : ℕ := 0x80000000
def BSIZE : ℕ := 512

def MAXPRIO : ℕ := 6
def MAXBUDG : Uint := 200
def TICKS_TO_PROMOTE : Uint := MAXBUDG*20

abbrev DiskBlock := Bytes.Block BSIZE

abbrev levels : ℕ := MAXPRIO+1

abbrev Level := Fin levels

instance (priority := high) : NeZero levels := ⟨Nat.succ_ne_zero _⟩

inductive Fault where
  | panic (msg : String)
  | nullDeref
  | outOfBounds
  | spin
  deriving DecidableEq, Repr

@[simp] theorem ok_bind {α β : Type} (a : α) (f : α → Except Fault β) :
    (Except.ok a >>= f) = f a := rfl

@[simp] theorem error_bind {α β : Type} (e : Fault) (f : α → Except Fault β) :
    (Except.error e >>= f) = Except.error e := rfl

theorem bind_eq_ok {α β : Type} {x : Except Fault α} {f : α → Except Fault β} {b : β} :
    x >>= f = .ok b ↔ ∃ a, x = .ok a ∧ f a = .ok b := by
  cases x <;> simp

theorem ok_pair_inj {α β : Type} {a a' : α} {b b' : β}
    (h : (.ok (a,b) : Except Fault (α × β)) = .ok (a',b')) : a = a' ∧ b = b' :=
  Prod.mk.inj (Except.ok.inj h)

theorem map_eq_ok {α β : Type} {x : Except Fault α} {f : α → β} {b : β} :
    x.map f = .ok b ↔ ∃ a, x = .ok a ∧ f a = b := by
  cases x <;> simp [Except.map]

end Yeet.Kernel
