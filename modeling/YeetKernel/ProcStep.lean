import YeetKernel.Lts
import YeetKernel.ProcTable

/-!
# Interleaved execution of the process code

A state holds the process table, the holder of `ptable.lock` and, for every
CPU and every process, the point its kernel code has reached. One action is
one critical section of `ptable.lock`, or the unlocked code between two of
them where that code writes the table. A CPU that switches into or out of
the scheduler keeps the lock across the switch.
-/

namespace Yeet.ProcStep
open Kernel StateLists ProcTable Function

abbrev Cpu := Fin NCPU

inductive Boot where
  | alloc
  | stack (p : Slot)
  | ready (p : Slot)
  deriving DecidableEq, Repr

/-- Where a CPU is. `scanning i` and `resuming p i` hold the lock; `i` is the
index of the dispatch loop, which survives while the dispatched process runs. -/
inductive CpuCtl where
  | booting (b : Boot)
  | idle
  | scanning (i : ℕ)
  | resuming (p : Slot) (i : ℕ)
  | running (p : Slot) (i : ℕ)
  deriving DecidableEq, Repr

/-- The pending system call of a process, as far as it owns an embryo slot. -/
inductive Doing where
  | nothing
  | forkStack (np : Slot)
  | forkCopy (np : Slot)
  deriving DecidableEq, Repr

/-- The code a process continues with when it is dispatched again. -/
inductive Resume where
  | forkret
  | yield
  | sleep
  | wait
  deriving DecidableEq, Repr

structure State where
  tab : Table
  lock : Option Cpu
  cpu : Cpu → CpuCtl
  doing : Slot → Doing
  resume : Slot → Resume

inductive Action where
  | userinitAlloc
  | userinitStack (ok : Bool)
  | userinitReady
  | tick
  | wakeup (c : Cpu) (a : ℕ)
  | schedBegin (c : Cpu)
  | schedNext (c : Cpu)
  | resume (c : Cpu)
  | forkAlloc (c : Cpu)
  | forkStack (c : Cpu) (ok : Bool)
  | forkAbort (c : Cpu)
  | forkDone (c : Cpu)
  | exit (c : Cpu)
  | wait (c : Cpu)
  | kill (c : Cpu) (pid : Uint)
  | sleep (c : Cpu) (a : ℕ)
  | yield (c : Cpu)
  | setPriority (c : Cpu) (pid : Uint) (priority : Int)
  deriving DecidableEq, Repr

inductive Event where
  | silent
  | forked (p child : Slot) (pid : Uint)
  | exited (p : Slot)
  | waited (p : Slot) (r : WaitResult)
  | dispatched (p : Slot) (level : Level)
  deriving DecidableEq, Repr

/-- `none`: the action is not possible now, or its CPU spins on the lock. -/
abbrev Outcome := Option (Except Fault (State × Event))

/-- `acquire(&ptable.lock)` by CPU `c`, then `body`. -/
def acquire (c : Cpu) (s : State) (body : Except Fault (State × Event)) : Outcome :=
  match s.lock with
  | none => some body
  | some d => if d = c then some (.error (.panic "acquire")) else none

def onCpu (c : Cpu) (s : State) (body : Slot → ℕ → Outcome) : Outcome :=
  match s.cpu c with
  | .running p i => body p i
  | _ => none

/-- `p` has switched to the scheduler of CPU `c`, which goes on at `i+1`. -/
def toScheduler (s : State) (c : Cpu) (p : Slot) (i : ℕ) (r : Resume) (t : Table) : State :=
  { s with
    tab := t
    lock := some c
    cpu := update s.cpu c (.scanning (i+1))
    resume := update s.resume p r }

/-- A turn of `wait` by `p` has ended with `r`; sleeping gives up the CPU. -/
def afterWait (s : State) (c : Cpu) (p : Slot) (i : ℕ) (t : Table) : WaitResult → State
  | .slept => toScheduler s c p i .wait t
  | _ => { s with tab := t, lock := none, cpu := update s.cpu c (.running p i) }

@[simp] theorem afterWait_tab (s : State) (c : Cpu) (p : Slot) (i : ℕ) (t : Table) (r : WaitResult) :
    (afterWait s c p i t r).tab = t := by
  cases r <;> rfl

def waitTurn (s : State) (c : Cpu) (p : Slot) (i : ℕ) (t : Table) :
    Except Fault (State × Event) := do
  let (r,t) ← waitPass p t
  return (afterWait s c p i t r,.waited p r)

def bootCpu : Cpu := ⟨0,by decide⟩

def userinit (s : State) : Action → Outcome
  | .userinitAlloc =>
    if s.cpu bootCpu = .booting .alloc then
      acquire bootCpu s (do
        match ← allocproc s.tab with
        | (none,_) => .error .nullDeref
        | (some p,t) =>
          return ({ s with
            tab := { t with initproc := some p }
            cpu := update s.cpu bootCpu (.booting (.stack p))
            doing := update s.doing p .nothing
            resume := update s.resume p .forkret },.silent))
    else none
  | .userinitStack ok =>
    match s.cpu bootCpu with
    | .booting (.stack p) =>
      if ok then
        some (.ok ({ s with
          tab := allocprocStack p s.tab
          cpu := update s.cpu bootCpu (.booting (.ready p)) },.silent))
      else some (.error .nullDeref)
    | _ => none
  | .userinitReady =>
    match s.cpu bootCpu with
    | .booting (.ready p) =>
      acquire bootCpu s (do
        let t ← userinitReady p s.tab
        return ({ s with tab := t, cpu := update s.cpu bootCpu .idle },.silent))
    | _ => none
  | _ => none

def scheduler (s : State) : Action → Outcome
  | .schedBegin c =>
    if s.cpu c = .idle then
      acquire c s (do
        assertPriority s.tab
        let t ← promoteAll s.tab
        return ({ s with tab := t, lock := some c, cpu := update s.cpu c (.scanning 0) },.silent))
    else none
  | .schedNext c =>
    match s.cpu c with
    | .scanning i =>
      match nextReady s.tab i with
      | none => some (.ok ({ s with lock := none, cpu := update s.cpu c .idle },.silent))
      | some j =>
        match s.tab.lists.head (.ready j) with
        | none => none
        | some p => some (do
          let t ← dispatch p s.tab
          return ({ s with tab := t, cpu := update s.cpu c (.resuming p j) },.dispatched p j))
    | _ => none
  | .resume c =>
    match s.cpu c with
    | .resuming p i =>
      match s.resume p with
      | .forkret | .yield =>
        some (.ok ({ s with lock := none, cpu := update s.cpu c (.running p i) },.silent))
      | .sleep =>
        some (.ok ({ s with
          tab := { s.tab with chan := update s.tab.chan p none }
          lock := none
          cpu := update s.cpu c (.running p i) },.silent))
      | .wait => some (waitTurn s c p i { s.tab with chan := update s.tab.chan p none })
    | _ => none
  | _ => none

def forkStep (s : State) : Action → Outcome
  | .forkAlloc c => onCpu c s (fun p _ =>
      if s.doing p = .nothing then
        acquire c s (do
          match ← allocproc s.tab with
          | (none,t) => return ({ s with tab := t },.silent)
          | (some np,t) =>
            return ({ s with
              tab := t
              doing := update (update s.doing np .nothing) p (.forkStack np)
              resume := update s.resume np .forkret },.silent))
      else none)
  | .forkStack c ok => onCpu c s (fun p _ =>
      match s.doing p with
      | .forkStack np =>
        if ok then
          some (.ok ({ s with
            tab := allocprocStack np s.tab
            doing := update s.doing p (.forkCopy np) },.silent))
        else
          some (.ok ({ s with
            tab := allocprocNoStack np s.tab
            doing := update s.doing p .nothing },.silent))
      | _ => none)
  | .forkAbort c => onCpu c s (fun p _ =>
      match s.doing p with
      | .forkCopy np => acquire c s (do
          let t ← forkAbort np s.tab
          return ({ s with tab := t, doing := update s.doing p .nothing },.silent))
      | _ => none)
  | .forkDone c => onCpu c s (fun p _ =>
      match s.doing p with
      | .forkCopy np => acquire c s (do
          let t ← forkDone p np s.tab
          return ({ s with tab := t, doing := update s.doing p .nothing },.forked p np (s.tab.pid np)))
      | _ => none)
  | _ => none

def procCall (s : State) : Action → Outcome
  | .exit c => onCpu c s (fun p i =>
      if s.doing p = .nothing then
        acquire c s (do
          let t ← exit p s.tab
          return (toScheduler s c p i .yield t,.exited p))
      else none)
  | .wait c => onCpu c s (fun p i =>
      if s.doing p = .nothing then acquire c s (waitTurn s c p i s.tab) else none)
  | .kill c pid => onCpu c s (fun p _ =>
      if s.doing p = .nothing then
        acquire c s (do
          let (_,t) ← kill pid s.tab
          return ({ s with tab := t },.silent))
      else none)
  | .sleep c a => onCpu c s (fun p i =>
      if s.doing p = .nothing then
        acquire c s (do
          let t ← sleep p (.addr a) s.tab
          return (toScheduler s c p i .sleep t,.silent))
      else none)
  | .yield c => onCpu c s (fun p i =>
      acquire c s (do
        let t ← yield p s.tab
        return (toScheduler s c p i .yield t,.silent)))
  | .setPriority c pid priority => onCpu c s (fun p _ =>
      if s.doing p = .nothing ∧ (s.lock = none ∨ s.lock = some c) then
        some (do
          let (_,released,t) ← setPriority pid priority s.tab
          return ({ s with
            tab := t
            lock := if s.lock = none ∧ released then none else some c },.silent))
      else none)
  | _ => none

/-- `wakeup` from process or interrupt code; the scheduler runs it never. -/
def wakeupStep (s : State) (c : Cpu) (a : ℕ) : Outcome :=
  match s.cpu c with
  | .scanning _ | .resuming _ _ => none
  | _ => acquire c s (do
      let t ← wakeup1 (some (.addr a)) s.tab
      return ({ s with tab := t },.silent))

def exec (s : State) (a : Action) : Outcome :=
  match a with
  | .userinitAlloc | .userinitStack _ | .userinitReady => userinit s a
  | .tick => some (.ok ({ s with tab := { s.tab with ticks := s.tab.ticks+1 } },.silent))
  | .wakeup c a => wakeupStep s c a
  | .schedBegin _ | .schedNext _ | .resume _ => scheduler s a
  | .forkAlloc _ | .forkStack _ _ | .forkAbort _ | .forkDone _ => forkStep s a
  | _ => procCall s a

/-- The zeroed process table at boot, with an arbitrary clock. -/
def bssTable (ticks promoteAtTime : Uint) : Table :=
  { state := fun _ => .unused
    pid := fun _ => 0
    parent := fun _ => none
    chan := fun _ => none
    killed := fun _ => false
    kstack := fun _ => false
    priority := fun _ => 0
    budget := fun _ => 0
    cpuTicksIn := fun _ => 0
    cpuTicksTotal := fun _ => 0
    lists := ⟨fun _ => none,fun _ => none,fun _ => none⟩
    promoteAtTime := promoteAtTime
    nextpid := 1
    initproc := none
    ticks := ticks }

/-- `userinit` has built the free list; the other CPUs may already schedule. -/
def boot (ticks promoteAtTime : Uint) : Except Fault State := do
  let t ← userinitLists (bssTable ticks promoteAtTime)
  return {
    tab := t
    lock := none
    cpu := fun c => if c = bootCpu then .booting .alloc else .idle
    doing := fun _ => .nothing
    resume := fun _ => .forkret }

def Start (s : State) : Prop := ∃ ticks promoteAtTime, boot ticks promoteAtTime = .ok s

abbrev Run := Lts.Run exec

def bootRun (as : List Action) : Option (List (Action × Event) × State) :=
  match boot 0 0 with
  | .ok s => Lts.replay exec s as
  | .error _ => none

theorem bootRun_reaches (as : List Action) (C : List (Action × Event) → State → Prop)
    [∀ h s, Decidable (C h s)] (hc : ((bootRun as).any (fun r => decide (C r.1 r.2))) = true) :
    ∃ s₀ h s, Start s₀ ∧ Run s₀ h s ∧ h.map Prod.fst = as ∧ C h s := by
  unfold bootRun at hc
  split at hc
  · rename_i s₀ hb
    obtain ⟨h,s,hrun⟩ := Lts.replay_reaches exec s₀ as C hc
    exact ⟨s₀,h,s,⟨0,0,hb⟩,hrun⟩
  · cases hc

def bootAndFork : List Action :=
  [.userinitAlloc,.userinitStack true,.userinitReady,.schedBegin bootCpu,.schedNext bootCpu,
    .resume bootCpu,.forkAlloc bootCpu,.forkStack bootCpu true,.forkDone bootCpu]

def StacksAvailable (h : List (Action × Event)) : Prop :=
  ∀ a ∈ h.map Prod.fst, a ≠ .userinitStack false ∧ ∀ c, a ≠ .forkStack c false

end Yeet.ProcStep
