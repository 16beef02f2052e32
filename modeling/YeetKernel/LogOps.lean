import Mathlib.Algebra.Order.BigOperators.Group.Finset
import YeetKernel.Kernel
import YeetKernel.Lts

/-!
# Concurrent file system operations on the log

Any finite number of processes run `begin_op`, `log_write` and `end_op`. One
action is one critical section of `log.lock` or a piece of unlocked code: the
tests at the start of `log_write`, and each block write of `commit`, which
runs without the lock. A sleeper may be woken at any time, so a pass of the
loop of `begin_op` that has to sleep leaves the state as it is.
-/

namespace Yeet.LogOps
open Kernel Function

/-- Where `commit` stands: the `tail` of its two loops, or one of the single
writes. -/
inductive Commit where
  | enter
  | writeLog (tail : ℕ)
  | writeHead
  | installTrans (tail : ℕ)
  | empty
  | clearHead
  | leave
  deriving DecidableEq, Repr

inductive Ctl where
  | outside
  | inOp
  | writing (b : Uint)
  | committing (c : Commit)
  deriving DecidableEq, Repr

structure State (P : Type) where
  size : ℤ
  outstanding : ℤ
  committing : Bool
  lh : List Uint
  ctl : P → Ctl

inductive Action (P : Type) where
  | beginOp (p : P)
  | logWrite (p : P) (b : Uint)
  | absorb (p : P)
  | endOp (p : P)
  | commit (p : P)
  deriving DecidableEq, Repr

inductive Event (P : Type) where
  | slept (p : P)
  | began (p : P)
  | passed (p : P) (b : Uint)
  | logged (p : P) (b : Uint)
  | ended (p : P)
  | advanced (p : P)
  | copied (p : P) (b : Uint)
  | headWritten (p : P) (blocks : List Uint)
  | installed (p : P) (b : Uint)
  | committed (p : P)
  deriving DecidableEq, Repr

abbrev Outcome (P : Type) := Option (Except Fault (State P × Event P))

variable {P : Type} [DecidableEq P]

def State.goto (s : State P) (p : P) (k : Ctl) : State P := { s with ctl := update s.ctl p k }

@[simp] theorem goto_ctl (s : State P) (p : P) (k : Ctl) : (s.goto p k).ctl = update s.ctl p k :=
  rfl

@[simp] theorem goto_lh (s : State P) (p : P) (k : Ctl) : (s.goto p k).lh = s.lh := rfl

@[simp] theorem goto_committing (s : State P) (p : P) (k : Ctl) :
    (s.goto p k).committing = s.committing := rfl

@[simp] theorem goto_outstanding (s : State P) (p : P) (k : Ctl) :
    (s.goto p k).outstanding = s.outstanding := rfl

def beginOp (s : State P) (p : P) : Outcome P :=
  match s.ctl p with
  | .outside =>
    if s.committing then some (.ok (s,.slept p))
    else if (s.lh.length : ℤ)+(s.outstanding+1)*MAXOPBLOCKS > LOGSIZE then
      some (.ok (s,.slept p))
    else some (.ok ({ s.goto p .inOp with outstanding := s.outstanding+1 },.began p))
  | _ => none

/-- The tests of `log_write`, made before the lock is taken. -/
def logWrite (s : State P) (p : P) (b : Uint) : Outcome P :=
  match s.ctl p with
  | .inOp =>
    if (s.lh.length : ℤ) ≥ LOGSIZE ∨ (s.lh.length : ℤ) ≥ s.size-1 then
      some (.error (.panic "too big a transaction"))
    else if s.outstanding < 1 then some (.error (.panic "log_write outside of trans"))
    else some (.ok (s.goto p (.writing b),.passed p b))
  | _ => none

/-- The locked part of `log_write`: absorb the block or append it. -/
def absorb (s : State P) (p : P) : Outcome P :=
  match s.ctl p with
  | .writing b =>
    if s.lh.contains b then some (.ok (s.goto p .inOp,.logged p b))
    else if s.lh.length < LOGSIZE then
      some (.ok ({ s.goto p .inOp with lh := s.lh++[b] },.logged p b))
    else some (.error .outOfBounds)
  | _ => none

def endOp (s : State P) (p : P) : Outcome P :=
  match s.ctl p with
  | .inOp =>
    if s.committing then some (.error (.panic "log.committing"))
    else if s.outstanding-1 = 0 then
      some (.ok ({ s.goto p (.committing .enter) with outstanding := 0, committing := true },
        .ended p))
    else some (.ok ({ s.goto p .outside with outstanding := s.outstanding-1 },.ended p))
  | _ => none

/-- The next step of `commit` and of the rest of `end_op`. -/
def commit (s : State P) (p : P) : Outcome P :=
  match s.ctl p with
  | .committing .enter =>
    let next := if 0 < s.lh.length then .writeLog 0 else .leave
    some (.ok (s.goto p (.committing next),.advanced p))
  | .committing (.writeLog tail) =>
    match s.lh[tail]? with
    | some b => some (.ok (s.goto p (.committing (.writeLog (tail+1))),.copied p b))
    | none => some (.ok (s.goto p (.committing .writeHead),.advanced p))
  | .committing .writeHead =>
    some (.ok (s.goto p (.committing (.installTrans 0)),.headWritten p s.lh))
  | .committing (.installTrans tail) =>
    match s.lh[tail]? with
    | some b => some (.ok (s.goto p (.committing (.installTrans (tail+1))),.installed p b))
    | none => some (.ok (s.goto p (.committing .empty),.advanced p))
  | .committing .empty =>
    some (.ok ({ s.goto p (.committing .clearHead) with lh := [] },.advanced p))
  | .committing .clearHead =>
    some (.ok (s.goto p (.committing .leave),.headWritten p s.lh))
  | .committing .leave =>
    some (.ok ({ s.goto p .outside with committing := false },.committed p))
  | _ => none

def exec (s : State P) : Action P → Outcome P
  | .beginOp p => beginOp s p
  | .logWrite p b => logWrite s p b
  | .absorb p => absorb s p
  | .endOp p => endOp s p
  | .commit p => commit s p

def initial (P : Type) (nlog : ℕ) : State P :=
  { size := nlog, outstanding := 0, committing := false, lh := [], ctl := fun _ => .outside }

def nlog : ℕ := LOGSIZE

abbrev Run := Lts.Run (exec (P := P))

/-- What the events say: the processes between `begin_op` and `end_op`, the
blocks logged by their current operations, and all blocks logged since the
last commit. -/
structure Ledger (P : Type) where
  opened : P → Bool
  mine : P → List Uint
  blocks : List (P × Uint)

def note (l : Ledger P) : Event P → Ledger P
  | .began p => { l with opened := update l.opened p true, mine := update l.mine p [] }
  | .logged p b =>
    { l with mine := update l.mine p ((l.mine p).insert b), blocks := l.blocks++[(p,b)] }
  | .ended p => { l with opened := update l.opened p false }
  | .committed _ => { l with blocks := [] }
  | _ => l

def emptyLedger : Ledger P := ⟨fun _ => false,fun _ => [],[]⟩

def ledger (h : List (Action P × Event P)) : Ledger P :=
  h.foldl (fun l x => note l x.2) emptyLedger

theorem ledger_snoc (h : List (Action P × Event P)) (a : Action P) (e : Event P) :
    ledger (h++[(a,e)]) = note (ledger h) e := by
  simp [ledger]

end Yeet.LogOps
