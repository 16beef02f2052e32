import YeetKernel.Kernel
import YeetKernel.Lts
import YeetKernel.DoublyLinked

/-!
# The buffer cache and the disk driver

Processes call `bread`, change the data of buffers they hold, and call
`bwrite`, `log_write` and `brelse` on them. One action is one critical section
of `bcache.lock` or `idelock`, or a piece of code on a buffer the process
holds; the interrupt handler runs at any time. A process keeps what it does
with its buffers: it changes data only while it holds the buffer and calls
`bwrite` or `log_write` before `brelse`, and it reads from one of the two
devices. The disk returns what was last written to it.
-/

namespace Yeet.BufCache
open Kernel DoublyLinked Function

abbrev Bufno := Fin NBUF

structure Buf (D : Type) where
  busy : Bool
  valid : Bool
  dirty : Bool
  dev : Uint
  blockno : Uint
  data : D

/-- What `iderw` was called for: the read of `bread`, or `bwrite`. -/
inductive Job where
  | read (dev blockno : Uint)
  | write
  deriving DecidableEq, Repr

/-- Where a process is: in `bget`, in `bread` with the buffer that `bget`
returned, about to queue the buffer in `iderw`, or asleep there. -/
inductive Ctl where
  | idle
  | getting (dev blockno : Uint)
  | testing (dev blockno : Uint) (b : Bufno)
  | syncing (j : Job) (b : Bufno)
  | waiting (j : Job) (b : Bufno)
  deriving DecidableEq, Repr

/-- `held` are the buffers that a process got from `bread` and has not
released; `unsaved` those that were changed and not handed to `bwrite` or
`log_write` since. -/
structure State (P D : Type) where
  links : Links Bufno
  buf : Bufno → Buf D
  idequeue : List Bufno
  havedisk1 : Bool
  disk : Uint → Uint → D
  ctl : P → Ctl
  held : P → Bufno → Bool
  unsaved : Bufno → Bool

inductive Action (P D : Type) where
  | bread (p : P) (dev blockno : Uint)
  | bget (p : P)
  | test (p : P)
  | iderw (p : P)
  | ideintr
  | wake (p : P)
  | modify (p : P) (b : Bufno) (x : D)
  | bwrite (p : P) (b : Bufno)
  | logWrite (p : P) (b : Bufno)
  | brelse (p : P) (b : Bufno)

inductive Event (P D : Type) where
  | asked (p : P) (dev blockno : Uint)
  | slept (p : P)
  | found (p : P) (b : Bufno)
  | recycled (p : P) (b : Bufno)
  | missed (p : P) (b : Bufno)
  | returned (p : P) (b : Bufno) (dev blockno : Uint) (x : D)
  | queued (p : P) (b : Bufno)
  | spurious
  | done (b : Bufno)
  | written (p : P) (b : Bufno)
  | modified (p : P) (dev blockno : Uint) (x : D)
  | marked (p : P) (b : Bufno)
  | released (p : P) (b : Bufno)

abbrev Outcome (P D : Type) := Option (Except Fault (State P D × Event P D))

def Real (dev : Uint) : Prop := dev &&& 1 = dev

instance (dev : Uint) : Decidable (Real dev) := inferInstanceAs (Decidable (_ = _))

variable {P D : Type} [DecidableEq P]

def State.goto (s : State P D) (p : P) (k : Ctl) : State P D := { s with ctl := update s.ctl p k }

def State.setBuf (s : State P D) (b : Bufno) (x : Buf D) : State P D :=
  { s with buf := update s.buf b x }

def State.give (s : State P D) (p : P) (dev blockno : Uint) (b : Bufno) (x : Buf D) : State P D :=
  { s with
    buf := update s.buf b x
    ctl := update s.ctl p (.testing dev blockno b)
    held := update s.held p (update (s.held p) b true) }

def bread (s : State P D) (p : P) (dev blockno : Uint) : Outcome P D :=
  if s.ctl p = .idle ∧ Real dev then
    some (.ok (s.goto p (.getting dev blockno),.asked p dev blockno))
  else none

/-- One pass of `bget` from the label `loop`. -/
def bget (s : State P D) (p : P) : Outcome P D :=
  match s.ctl p with
  | .getting dev blockno =>
    let cached := fun b => (s.buf b).dev == dev && (s.buf b).blockno == blockno
    let clean := fun b => !(s.buf b).busy && !(s.buf b).dirty
    match search s.links.next cached NBUF (s.links.next none) with
    | none => some (.error .spin)
    | some (some b) =>
      if (s.buf b).busy then some (.ok (s,.slept p))
      else some (.ok (s.give p dev blockno b { s.buf b with busy := true },.found p b))
    | some none =>
      match search s.links.prev clean NBUF (s.links.prev none) with
      | none => some (.error .spin)
      | some none => some (.error (.panic "bget: no buffers"))
      | some (some b) =>
        some (.ok (s.give p dev blockno b { s.buf b with
          dev := dev
          blockno := blockno
          busy := true
          valid := false
          dirty := false },.recycled p b))
  | _ => none

/-- The rest of `bread`, up to the call of `iderw`. -/
def test (s : State P D) (p : P) : Outcome P D :=
  match s.ctl p with
  | .testing dev blockno b =>
    if (s.buf b).valid then
      some (.ok (s.goto p .idle,.returned p b dev blockno (s.buf b).data))
    else some (.ok (s.goto p (.syncing (.read dev blockno) b),.missed p b))
  | _ => none

/-- The disk starts on `b`: the data of a write leave the buffer now. -/
def idestart (s : State P D) (b : Bufno) : Except Fault (State P D) :=
  if (s.buf b).blockno.toNat ≥ FSSIZE then .error (.panic "incorrect blockno")
  else if (s.buf b).dirty then
    let unit := (s.buf b).dev &&& 1
    let written := update (s.disk unit) (s.buf b).blockno (s.buf b).data
    .ok { s with disk := update s.disk unit written }
  else .ok s

/-- The tests of `iderw` and the locked part up to the first `sleep`. -/
def iderw (s : State P D) (p : P) : Outcome P D :=
  match s.ctl p with
  | .syncing j b =>
    if (s.buf b).busy = false then some (.error (.panic "iderw: buf not busy"))
    else if (s.buf b).valid && !(s.buf b).dirty then
      some (.error (.panic "iderw: nothing to do"))
    else if (s.buf b).dev ≠ 0 ∧ s.havedisk1 = false then
      some (.error (.panic "iderw: ide disk 1 not present"))
    else
      let s' := { s.goto p (.waiting j b) with idequeue := s.idequeue++[b] }
      if s'.idequeue.head? = some b then
        some ((idestart s' b).map (fun s' => (s',.queued p b)))
      else some (.ok (s',.queued p b))
  | _ => none

def ideintr (s : State P D) : Outcome P D :=
  match s.idequeue with
  | [] => some (.ok (s,.spurious))
  | b::rest =>
    let x := s.buf b
    let x := if x.dirty then x else { x with data := s.disk (x.dev &&& 1) x.blockno }
    let s := { s with
      idequeue := rest
      buf := update s.buf b { x with valid := true, dirty := false } }
    match rest with
    | [] => some (.ok (s,.done b))
    | c::_ => some ((idestart s c).map (fun s => (s,.done b)))

/-- The loop at the end of `iderw`, and the return to the caller. -/
def wake (s : State P D) (p : P) : Outcome P D :=
  match s.ctl p with
  | .waiting j b =>
    if (s.buf b).valid && !(s.buf b).dirty then
      match j with
      | .read dev blockno =>
        some (.ok (s.goto p .idle,.returned p b dev blockno (s.buf b).data))
      | .write => some (.ok (s.goto p .idle,.written p b))
    else some (.ok (s,.slept p))
  | _ => none

def modifyData (s : State P D) (p : P) (b : Bufno) (x : D) : Outcome P D :=
  if s.ctl p = .idle ∧ s.held p b = true then
    some (.ok ({ s.setBuf b { s.buf b with data := x } with
      unsaved := update s.unsaved b true },.modified p (s.buf b).dev (s.buf b).blockno x))
  else none

def bwrite (s : State P D) (p : P) (b : Bufno) : Outcome P D :=
  if s.ctl p = .idle ∧ s.held p b = true then
    if (s.buf b).busy = false then some (.error (.panic "bwrite"))
    else some (.ok ({ (s.setBuf b { s.buf b with dirty := true }).goto p (.syncing .write b) with
      unsaved := update s.unsaved b false },.marked p b))
  else none

/-- What `log_write` does to the buffer: it is pinned until the commit. -/
def logWrite (s : State P D) (p : P) (b : Bufno) : Outcome P D :=
  if s.ctl p = .idle ∧ s.held p b = true then
    some (.ok ({ s.setBuf b { s.buf b with dirty := true } with
      unsaved := update s.unsaved b false },.marked p b))
  else none

def brelse (s : State P D) (p : P) (b : Bufno) : Outcome P D :=
  if s.ctl p = .idle ∧ s.held p b = true ∧ s.unsaved b = false then
    if (s.buf b).busy = false then some (.error (.panic "brelse"))
    else some (.ok ({ s.setBuf b { s.buf b with busy := false } with
      links := (s.links.unlink b).pushFront b
      held := update s.held p (update (s.held p) b false) },.released p b))
  else none

def exec (s : State P D) : Action P D → Outcome P D
  | .bread p dev blockno => bread s p dev blockno
  | .bget p => bget s p
  | .test p => test s p
  | .iderw p => iderw s p
  | .ideintr => ideintr s
  | .wake p => wake s p
  | .modify p b x => modifyData s p b x
  | .bwrite p b => bwrite s p b
  | .logWrite p b => logWrite s p b
  | .brelse p b => brelse s p b

def binit (links : Links Bufno) : Links Bufno := (List.finRange NBUF).foldl Links.pushFront links

def initial (P : Type) {D : Type} (havedisk1 : Bool) (disk : Uint → Uint → D) (zero : D) :
    State P D :=
  { links := binit empty
    buf := fun _ => ⟨false,false,false,-1,0,zero⟩
    idequeue := []
    havedisk1 := havedisk1
    disk := disk
    ctl := fun _ => .idle
    held := fun _ _ => false
    unsaved := fun _ => false }

abbrev Run := Lts.Run (exec (P := P) (D := D))

/-- The block array: what the last modification of each block left there. -/
def note (A : Uint → Uint → D) : Event P D → Uint → Uint → D
  | .modified _ dev blockno x => update A dev (update (A dev) blockno x)
  | _ => A

def array (disk : Uint → Uint → D) (h : List (Action P D × Event P D)) : Uint → Uint → D :=
  h.foldl (fun A x => note A x.2) disk

omit [DecidableEq P] in
theorem array_snoc (disk : Uint → Uint → D) (h : List (Action P D × Event P D))
    (a : Action P D) (e : Event P D) : array disk (h++[(a,e)]) = note (array disk h) e := by
  simp [array]

end Yeet.BufCache
