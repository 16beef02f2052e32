import YeetKernel.StateLists

/-!
# The process table and its critical sections

The fields of `struct proc` that the lifecycle code reads or writes are kept
as one function per field; `lists` holds `next` and the head and tail
pointers. Each definition below is the body of one `ptable.lock` critical
section of `proc.c` (CS333_P3P4 build), in source order, with the lock
handling itself left to the step relation.
-/

namespace Yeet.ProcTable
open Kernel StateLists Function

inductive ProcState where
  | unused
  | embryo
  | sleeping
  | runnable
  | running
  | zombie
  deriving DecidableEq, Repr

/-- A sleep channel: the address of a process slot or any other address. -/
inductive Chan where
  | proc (p : Slot)
  | addr (a : ℕ)
  deriving DecidableEq, Repr

structure Table where
  state : Slot → ProcState
  pid : Slot → Uint
  parent : Slot → Option Slot
  chan : Slot → Option Chan
  killed : Slot → Bool
  kstack : Slot → Bool
  priority : Slot → ℕ
  budget : Slot → Uint
  cpuTicksIn : Slot → Uint
  cpuTicksTotal : Slot → Uint
  lists : Lists
  promoteAtTime : Uint
  nextpid : Uint
  initproc : Option Slot
  ticks : Uint

def Table.setState (t : Table) (p : Slot) (st : ProcState) : Table :=
  { t with state := update t.state p st }

def assertState (p : Slot) (st : ProcState) (t : Table) : Except Fault Unit :=
  if t.state p = st then .ok () else .error (.panic "assertState - wrong state")

def readyList (prio : ℕ) : Except Fault ListId :=
  if h : prio < MAXPRIO+1 then .ok (.ready ⟨prio,h⟩) else .error .outOfBounds

/-- `if (stateListRemove(..) < 0) panic(msg); assertState(p, st);` -/
def leave (l : ListId) (msg : String) (p : Slot) (st : ProcState) (t : Table) :
    Except Fault Table := do
  let (r,ls) ← stateListRemove l p t.lists
  if r < 0 then .error (.panic msg) else do
    let t := { t with lists := ls }
    assertState p st t
    return t

/-- `stateListAdd(..); assertState(p, st);` -/
def enter (l : ListId) (p : Slot) (st : ProcState) (t : Table) : Except Fault Table := do
  let ls ← stateListAdd l p t.lists
  let t := { t with lists := ls }
  assertState p st t
  return t

def enterAtHead (l : ListId) (p : Slot) (st : ProcState) (t : Table) : Except Fault Table := do
  let t := { t with lists := stateListAddAtHead l p t.lists }
  assertState p st t
  return t

/-- The locked part of `allocproc`. -/
def allocproc (t : Table) : Except Fault (Option Slot × Table) :=
  match t.lists.head .free with
  | none => .ok (none,t)
  | some p => do
    let t ← leave .free "alloc - remove from free failed" p .unused t
    let t := t.setState p .embryo
    let t ← enterAtHead .embryo p .embryo t
    return (some p,{ t with pid := update t.pid p t.nextpid, nextpid := t.nextpid+1 })

/-- The rest of `allocproc` when `kalloc` returns a page. -/
def allocprocStack (p : Slot) (t : Table) : Table :=
  { t with
    kstack := update t.kstack p true
    cpuTicksTotal := update t.cpuTicksTotal p 0
    cpuTicksIn := update t.cpuTicksIn p 0
    budget := update t.budget p MAXBUDG
    priority := update t.priority p 0 }

/-- The rest of `allocproc` when `kalloc` fails. The guard of the list code
is spelled `CS33_P3P4`, so only the state changes and the slot stays on the
embryo list. -/
def allocprocNoStack (p : Slot) (t : Table) : Table :=
  { t with kstack := update t.kstack p false, state := update t.state p .unused }

def initFreeListFrom : List Slot → Table → Except Fault Table
  | [], t => .ok t
  | p::ps, t => do
    let t := t.setState p .unused
    let ls ← stateListAdd .free p t.lists
    initFreeListFrom ps { t with lists := ls }

def initFreeList (t : Table) : Except Fault Table := initFreeListFrom (List.finRange NPROC) t

/-- The first critical section of `userinit`. -/
def userinitLists (t : Table) : Except Fault Table :=
  initFreeList { t with lists := initProcessLists t.lists }

/-- `p->state = RUNNABLE; stateListAdd(ready[p->priority]); assertState(..);` -/
def makeReady (p : Slot) (t : Table) : Except Fault Table := do
  let t := t.setState p .runnable
  let l ← readyList (t.priority p)
  enter l p .runnable t

/-- The fields `userinit` sets after `allocproc` returned `p`. -/
def userinitFill (p : Slot) (t : Table) : Table :=
  { t with
    parent := update t.parent p (some p)
    promoteAtTime := t.ticks+TICKS_TO_PROMOTE }

def userinitReady (p : Slot) (t : Table) : Except Fault Table := do
  let t ← leave .embryo "userinit - remove from embryo failed" p .embryo (userinitFill p t)
  makeReady p t

/-- `fork` when `copyuvm` fails. -/
def forkAbort (np : Slot) (t : Table) : Except Fault Table := do
  let t := { t with kstack := update t.kstack np false }
  let t ← leave .embryo "fork - remove from embryo failed" np .embryo t
  let t := t.setState np .unused
  enterAtHead .free np .unused t

/-- The fields `fork` by `p` sets in the child. -/
def forkFill (p np : Slot) (t : Table) : Table :=
  { t with
    parent := update t.parent np (some p)
    priority := update t.priority np 0
    budget := update t.budget np MAXBUDG }

/-- `fork` by `p` from the assignment of `np->parent` on. -/
def forkDone (p np : Slot) (t : Table) : Except Fault Table := do
  let t ← leave .embryo "fork - remove from embryo failed" np .embryo (forkFill p np t)
  makeReady np t

/-- The body of the loop of `wakeup1` for a sleeper whose channel matches. -/
def wakeOne (p : Slot) (t : Table) : Except Fault Table := do
  let t ← leave .sleep "wakeup1 - remove from sleep failed" p .sleeping t
  makeReady p t

/-- The loop of `wakeup1`; `p->next` is read after the body has run. -/
def wakeupFrom (chan : Option Chan) : ℕ → Option Slot → Table → Except Fault Table
  | _, none, t => .ok t
  | 0, some _, _ => .error .spin
  | n+1, some p, t =>
    if t.chan p = chan then do
      let t ← wakeOne p t
      wakeupFrom chan n (t.lists.next p) t
    else wakeupFrom chan n (t.lists.next p) t

def wakeup1 (chan : Option Chan) (t : Table) : Except Fault Table :=
  wakeupFrom chan NPROC (t.lists.head .sleep) t

def adopt (p q : Slot) (t : Table) : Table :=
  if t.parent q = some p then { t with parent := update t.parent q t.initproc } else t

/-- One reparenting loop of `exit`: it writes no `next` field. -/
def reparent (p : Slot) (l : ListId) (t : Table) : Except Fault Table := do
  let qs ← walkFrom t.lists (t.lists.head l)
  return qs.foldl (fun t q => adopt p q t) t

def reparentAll (p : Slot) : List ListId → Table → Except Fault Table
  | [], t => .ok t
  | l::ls, t => do
    let t ← reparent p l t
    reparentAll p ls t

/-- The zombie loop of `exit`, which wakes init for each adopted zombie. -/
def reparentZombies (p : Slot) : ℕ → Option Slot → Table → Except Fault Table
  | _, none, t => .ok t
  | 0, some _, _ => .error .spin
  | n+1, some q, t =>
    if t.parent q = some p then do
      let t ← wakeup1 (t.initproc.map .proc) { t with parent := update t.parent q t.initproc }
      reparentZombies p n (t.lists.next q) t
    else reparentZombies p n (t.lists.next q) t

def level : ListId → Option ℕ
  | .ready i => some i
  | _ => none

def readyLists : List ListId := (List.finRange levels).map .ready

def liveLists : List ListId := .embryo::readyLists++[.running,.sleep]

/-- `sched`: the checks and the accounting before the context switch. -/
def sched (p : Slot) (t : Table) : Except Fault Table :=
  if t.state p = .running then .error (.panic "sched running")
  else .ok { t with
    cpuTicksTotal := update t.cpuTicksTotal p (t.cpuTicksTotal p+(t.ticks-t.cpuTicksIn p)) }

/-- `exit` of process `p` from the acquisition of `ptable.lock` on. -/
def exit (p : Slot) (t : Table) : Except Fault Table :=
  if t.initproc = some p then .error (.panic "init exiting") else do
    let t ← wakeup1 ((t.parent p).map .proc) t
    let t ← reparentAll p liveLists t
    let t ← reparentZombies p NPROC (t.lists.head .zombie) t
    let t ← leave .running "exit - remove from running failed\n" p .running t
    let t := t.setState p .zombie
    let t ← enter .zombie p .zombie t
    sched p t

def demoteProc (p : Slot) (t : Table) : Table :=
  if t.budget p ≤ MAXBUDG then t
  else { t with
    priority := if t.priority p < MAXPRIO then update t.priority p (t.priority p+1) else t.priority
    budget := update t.budget p MAXBUDG }

def charge (p : Slot) (t : Table) : Table :=
  { t with budget := update t.budget p (t.budget p-(t.ticks-t.cpuTicksIn p)) }

def sleep (p : Slot) (chan : Chan) (t : Table) : Except Fault Table := do
  let t := { t with chan := update t.chan p (some chan) }
  let t ← leave .running "sleep - remove from running failed" p .running t
  let t := t.setState p .sleeping
  let t ← enter .sleep p .sleeping t
  sched p (demoteProc p (charge p t))

def yield (p : Slot) (t : Table) : Except Fault Table := do
  let t ← leave .running "yield - remove from running failed" p .running t
  let t := demoteProc p (charge p (t.setState p .runnable))
  let l ← readyList (t.priority p)
  let t ← enter l p .runnable t
  sched p t

def hasChild (p : Slot) (t : Table) : List ListId → Except Fault Bool
  | [] => .ok false
  | l::ls => do
    let qs ← walkFrom t.lists (t.lists.head l)
    let b ← hasChild p t ls
    return qs.any (fun q => t.parent q = some p) || b

inductive WaitResult where
  | reaped (child : Slot) (pid : Uint)
  | failed
  | slept
  deriving DecidableEq, Repr

def reap (q : Slot) (t : Table) : Except Fault Table := do
  let t := { t with kstack := update t.kstack q false }
  let t ← leave .zombie "wait - remove from zombie failed" q .zombie t
  let t := t.setState q .unused
  let t ← enter .free q .unused t
  return { t with
    pid := update t.pid q 0
    parent := update t.parent q none
    killed := update t.killed q false }

/-- One turn of the loop of `wait` by process `p`. -/
def waitPass (p : Slot) (t : Table) : Except Fault (WaitResult × Table) := do
  let zs ← walkFrom t.lists (t.lists.head .zombie)
  match zs.find? (fun q => t.parent q = some p) with
  | some q => do
    let t' ← reap q t
    return (.reaped q (t.pid q),t')
  | none => do
    let havekids ← hasChild p t liveLists
    if !havekids || t.killed p then return (.failed,t) else do
      let t ← sleep p (.proc p) t
      return (.slept,t)

/-- The search order of `kill` and of the priority calls over some lists. -/
def findPid (pid : Uint) (t : Table) : List ListId → Except Fault (Option (ListId × Slot))
  | [] => .ok none
  | l::ls => do
    let qs ← walkFrom t.lists (t.lists.head l)
    match qs.find? (fun q => t.pid q = pid) with
    | some q => return some (l,q)
    | none => findPid pid t ls

def kill (pid : Uint) (t : Table) : Except Fault (Int × Table) := do
  match ← findPid pid t liveLists with
  | none => return (-1,t)
  | some (l,p) => do
    let t := { t with killed := update t.killed p true }
    if l = .sleep then do
      let t ← leave .sleep "kill - remove from sleep failed\n" p .sleeping t
      let t ← makeReady p t
      return (0,t)
    else return (0,t)

def assertPriorityOn (t : Table) : List Level → Except Fault Unit
  | [] => .ok ()
  | i::is => do
    let qs ← walkFrom t.lists (t.lists.head (.ready i))
    if qs.all (fun q => t.priority q = i) then assertPriorityOn t is
    else .error (.panic "assertPriority - p not in right priority list")

def assertPriority (t : Table) : Except Fault Unit :=
  assertPriorityOn t (List.finRange levels)

def promoteFirst (ls : Lists) : Lists :=
  let ls := match ls.head (.ready 0), ls.tail (.ready 0) with
    | some _, some t =>
      { ls with
        next := update ls.next t (ls.head (.ready 1))
        tail := match ls.tail (.ready 1) with
          | some u => update ls.tail (.ready 0) (some u)
          | none => ls.tail }
    | _, _ =>
      { ls with
        head := update ls.head (.ready 0) (ls.head (.ready 1))
        tail := update ls.tail (.ready 0) (ls.tail (.ready 1)) }
  { ls with
    head := update ls.head (.ready 1) none
    tail := update ls.tail (.ready 1) none }

def shiftUp (ls : Lists) (i : Fin MAXPRIO) : Lists :=
  { ls with
    head := update ls.head (.ready i.castSucc) (ls.head (.ready i.succ))
    tail := update ls.tail (.ready i.castSucc) (ls.tail (.ready i.succ)) }

def promoteLists (ls : Lists) : Lists :=
  let ls := (List.finRange MAXPRIO).tail.foldl shiftUp (promoteFirst ls)
  { ls with
    head := update ls.head (.ready (Fin.last MAXPRIO)) none
    tail := update ls.tail (.ready (Fin.last MAXPRIO)) none }

def resetReady : List Level → Table → Except Fault Table
  | [], t => .ok t
  | i::is, t => do
    let qs ← walkFrom t.lists (t.lists.head (.ready i))
    resetReady is (qs.foldl (fun t q =>
      { t with budget := update t.budget q MAXBUDG, priority := update t.priority q i }) t)

def raise (l : ListId) (t : Table) : Except Fault Table := do
  let qs ← walkFrom t.lists (t.lists.head l)
  return qs.foldl (fun t q =>
    { t with
      priority := if 0 < t.priority q then update t.priority q (t.priority q-1) else t.priority
      budget := update t.budget q MAXBUDG }) t

def promoteAll (t : Table) : Except Fault Table :=
  if t.ticks < t.promoteAtTime then .ok t else do
    let t := { t with lists := promoteLists t.lists }
    let t ← resetReady ((List.finRange MAXPRIO).map Fin.castSucc) t
    let t ← raise .sleep t
    let t ← raise .running t
    return { t with promoteAtTime := t.ticks+TICKS_TO_PROMOTE }

/-- The dispatch of `p`, the head of a ready list, up to the context switch. -/
def dispatch (p : Slot) (t : Table) : Except Fault Table := do
  let t := { t with cpuTicksIn := update t.cpuTicksIn p t.ticks }
  assertPriority t
  let l ← readyList (t.priority p)
  let t ← leave l "scheduler - remove from ready failed" p .runnable t
  let t := t.setState p .running
  enterAtHead .running p .running t

/-- The level at which the dispatch loop, standing at `i`, finds a process. -/
def nextReady (t : Table) (i : ℕ) : Option Level :=
  (List.finRange levels).find? (fun j => i ≤ j ∧ t.lists.head (.ready j) ≠ none)

/-- `setPriority` up to the point where it returns; the flag tells whether
the return path releases the lock that the call itself acquired. -/
def setPriority (pid : Uint) (priority : Int) (t : Table) :
    Except Fault (Int × Bool × Table) := do
  match ← findPid pid t readyLists with
  | some (l,p) =>
    if level l = some (t.priority p) then return (t.priority p,false,t) else do
      let k ← readyList (t.priority p)
      let (r,ls) ← stateListRemove k p t.lists
      if r ≠ 0 then .error (.panic "setpriority - remove from ready failed\n")
      else if 0 ≤ priority ∧ priority ≤ MAXPRIO then do
        let t := { t with
          lists := ls
          priority := update t.priority p <| MAXPRIO-priority.toNat
          budget := update t.budget p MAXBUDG }
        let k ← readyList (t.priority p)
        let ls ← stateListAdd k p t.lists
        return (0,true,{ t with lists := ls })
      else .error (.panic "setpriority - bad priority value")
  | none =>
    match ← findPid pid t [.running,.sleep] with
    | some (_,p) =>
      if 0 ≤ priority ∧ priority ≤ MAXPRIO then
        return (priority,true,{ t with
          priority := update t.priority p priority.toNat
          budget := update t.budget p MAXBUDG })
      else return (-1,false,t)
    | none => return (-1,true,t)

end Yeet.ProcTable
