import YeetKernel.Vm
import YeetKernel.Threads

/-!
# The calls that move pages

`fork`, `exec`, `growproc`, `exit`, `wait`, `pipe` and the closing of pipe
ends, together with the boot sequence, as programs over the pages and the
process table. Of `exec` this is the mapping of pages: what the file system
and the argument strings decide comes from outside. A store of user code goes
through the page table of its process.
-/

namespace Yeet.Vm
open Yeet.Kernel Bytes Resumption Function
open StateLists (Slot)

structure Proghdr where
  load : Bool
  vaddr : ℕ
  memsz : ℕ
  filesz : ℕ
  deriving DecidableEq, Repr

inductive Call where
  | boot
  | fork
  | exec (phs : List Proghdr)
  | growproc (n : ℤ)
  | exit
  | wait
  | pipe
  | pipeclose (k : ℕ) (writable : Bool)
  | store (va : ℕ) (v : Byte)
  deriving DecidableEq, Repr

def setStage (q : Slot) (t : Stage) : VmProg Unit := assign (fun s =>
  {s with stage := update s.stage q t})

/-- Some slot in state UNUSED becomes EMBRYO, unless there is none. -/
def takeSlot (n : ℕ) : VmProg (Option Slot) := atom (fun s =>
  if h : n < NPROC then
    if s.stage ⟨n,h⟩ = .unused then
      some (.ok (some ⟨n,h⟩,{s with stage := update s.stage ⟨n,h⟩ .embryo}))
    else some (.ok (none,s))
  else some (.ok (none,s)))

def setKstack (q : Slot) (g : Page) : VmProg Unit := assign (fun s =>
  {s with kstack := update s.kstack q (some g)})

def allocproc : VmProg (Option Slot) := do
  let n ← choose
  match ← takeSlot n with
  | none => return none
  | some q =>
    match ← kalloc with
    | none =>
      setStage q .unused
      return none
    | some g =>
      setKstack q g
      return some q

/-- The new process gets the address space, its size and its parent, and
becomes RUNNABLE. -/
def adopt (p : Owner) (q : Slot) (d : Page) (sz : ℕ) (parent : Slot) : VmProg Unit :=
  assign (fun s =>
    {s with
      pgdir := update s.pgdir q (some d)
      sz := update s.sz q sz
      parent := update s.parent q (some parent)
      stage := update s.stage q .alive
      building := update s.building p none})

def State.freeStack (im : Image) (s : State) (q : Slot) : Except Fault State :=
  match s.kstack q with
  | none => .error (.panic "kfree")
  | some g => (s.kfree im g).map (fun s' => {s' with kstack := update s'.kstack q none})

def getPgdir (q : Slot) : VmProg Page := atom (fun s =>
  match s.pgdir q with
  | none => some (.error .nullDeref)
  | some d => some (.ok (d,s)))

def getSz (q : Slot) : VmProg ℕ := fetch (fun s => s.sz q)

def setSz (q : Slot) (sz : ℕ) : VmProg Unit := assign (fun s => {s with sz := update s.sz q sz})

variable (im : Image)

def freeStack (q : Slot) : VmProg Unit := atom (fun s =>
  some ((s.freeStack im q).map (fun s' => ((),s'))))

def fork (q : Slot) : VmProg ℤ := do
  match ← allocproc with
  | none => return -1
  | some np =>
    let pgdir ← getPgdir q
    let sz ← getSz q
    match ← copyuvm im (some q) pgdir sz with
    | none => do
      freeStack im np
      setStage np .unused
      return -1
    | some d => do
      adopt (some q) np d sz q
      return 0

def growproc (q : Slot) (n : ℤ) : VmProg ℤ := do
  let sz ← getSz q
  let pgdir ← getPgdir q
  let newsz := (((sz : ℤ)+n)%2^32).toNat
  if n > 0 then
    let sz' ← allocuvm im pgdir sz newsz
    if sz' = 0 then return -1
    else do
      setSz q sz'
      return 0
  else if n < 0 then
    let sz' ← deallocuvm im pgdir sz newsz
    if sz' = 0 then return -1
    else do
      setSz q sz'
      return 0
  else do
    setSz q sz
    return 0

/-- The segments of the program. The outcomes of `readi` and `loaduvm` come
from outside. -/
def loadLoop (pgdir : Page) : List Proghdr → ℕ → VmProg (Option ℕ)
  | [], sz => pure (some sz)
  | ph::phs, sz => do
    if (← choose) = 0 then return none
    else if !ph.load then loadLoop pgdir phs sz
    else if ph.memsz < ph.filesz then return none
    else do
      let sz' ← allocuvm im pgdir sz ((ph.vaddr+ph.memsz)%2^32)
      if sz' = 0 then return none
      else if (← choose) = 0 then return none
      else loadLoop pgdir phs sz'

def commit (q : Slot) (pgdir : Page) (sz : ℕ) : VmProg Page := atom (fun s =>
  match s.pgdir q with
  | none => some (.error (.panic "freevm: no pgdir"))
  | some oldpgdir => some (.ok (oldpgdir,
      {s with
        pgdir := update s.pgdir q (some pgdir)
        sz := update s.sz q sz
        building := update s.building (some q) (some oldpgdir)})))

def bad (q : Slot) (pgdir : Page) : VmProg ℤ := do
  freevm im (some q) pgdir
  return -1

/-- The first choice is whether the file is found, may be run and has an ELF
header, the last whether the arguments can be copied. -/
def exec (q : Slot) (phs : List Proghdr) : VmProg ℤ := do
  if (← choose) = 0 then return -1
  else
    match ← setupkvm im (some q) with
    | none => return -1
    | some pgdir =>
      match ← loadLoop im pgdir phs 0 with
      | none => bad im q pgdir
      | some sz => do
        let sz' ← allocuvm im pgdir (pgroundup sz) ((pgroundup sz+2*PGSIZE)%2^32)
        if sz' = 0 then bad im q pgdir
        else do
          clearpteu pgdir (sz'-2*PGSIZE)
          if (← choose) = 0 then bad im q pgdir
          else do
            let oldpgdir ← commit q pgdir sz'
            freevm im (some q) oldpgdir
            return 0

/-- The rest of `exit` is done when it leaves the processor for good. -/
def exit (q : Slot) : VmProg ℤ := atom (fun s =>
  if s.initproc = some q then some (.error (.panic "init exiting")) else some (.ok (0,s)))

def State.exited (s : State) (q : Slot) : State :=
  {s with
    parent := fun r => if s.parent r = some q then s.initproc else s.parent r
    stage := update s.stage q .zombie}

/-- Some zombie child of `q` and its `pgdir`, unless there is none. -/
def findZombie (q : Slot) (n : ℕ) : VmProg (Option (Slot × Option Page)) := atom (fun s =>
  if s.reaping = none then
    if h : n < NPROC then
      if s.stage ⟨n,h⟩ = .zombie ∧ s.parent ⟨n,h⟩ = some q then
        some (.ok (some (⟨n,h⟩,s.pgdir ⟨n,h⟩),{s with
          reaping := some ⟨n,h⟩, building := update s.building (some q) (s.pgdir ⟨n,h⟩)}))
      else some (.ok (none,s))
    else some (.ok (none,s))
  else none)

def reaped (z : Slot) : VmProg Unit := assign (fun s =>
  {s with
    stage := update s.stage z .unused
    parent := update s.parent z none
    reaping := none})

def wait (q : Slot) : VmProg ℤ := do
  let n ← choose
  match ← findZombie q n with
  | none => return -1
  | some (z,none) =>
    freeStack im z
    fail (.panic "freevm: no pgdir")
  | some (z,some pgdir) =>
    freeStack im z
    freevm im (some q) pgdir
    reaped z
    return 0

/-- `sys_pipe`. When no descriptor can be had, closing both files frees the
page. -/
def pipe : VmProg ℤ := do
  if (← choose) = 0 then return -1
  else
    match ← kalloc with
    | none => return -1
    | some g =>
      if (← choose) = 0 then
        kfree im g
        return -1
      else
        assign (fun s => {s with pipes := ⟨g,true,true⟩::s.pipes})
        return 0

def Pipe.close (pi : Pipe) (writable : Bool) : Pipe :=
  if writable then {pi with writeopen := false} else {pi with readopen := false}

def pipeclose (k : ℕ) (writable : Bool) : VmProg ℤ := atom (fun s =>
  match s.pipes[k]? with
  | none => none
  | some pi =>
    if pi.close writable = pi then none
    else if (pi.close writable).readopen = false ∧ (pi.close writable).writeopen = false then
      some ((s.kfree im pi.page).map (fun s' => (0,{s' with pipes := s'.pipes.eraseIdx k})))
    else some (.ok (0,{s with pipes := s.pipes.set k (pi.close writable)})))

/-- The page a virtual address leads to if the bits of `mask` are set in the
entries of both levels. -/
def State.translate (s : State) (pgdir : Page) (va : ℕ) (mask : Uint) : Option Page :=
  if s.pte pgdir (pdx va) &&& mask = mask then
    if s.pte (pteAddr (s.pte pgdir (pdx va))) (ptx va) &&& mask = mask then
      some (pteAddr (s.pte (pteAddr (s.pte pgdir (pdx va))) (ptx va)))
    else none
  else none

def store (q : Slot) (va : ℕ) (v : Byte) : VmProg ℤ := atom (fun s =>
  match (s.pgdir q).bind (fun d => s.translate d va (PTE_P ||| PTE_W ||| PTE_U)) with
  | none => some (.ok (-1,s))
  | some g => some (.ok (0,s.fill g (putBytes (s.mem g) (va%PGSIZE) [v]))))

def kvmalloc : VmProg Unit := do
  match ← setupkvm im none with
  | none => fail .nullDeref
  | some d => assign (fun s => {s with kpgdir := some d, building := update s.building none none})

def inituvm (pgdir : Page) : VmProg Unit := do
  match ← kalloc with
  | none => fail .nullDeref
  | some mem =>
    memset mem 0
    let _ ← mappages pgdir 0 PGSIZE mem (PTE_W ||| PTE_U)

def userinit : VmProg Unit := do
  match ← allocproc with
  | none => fail .nullDeref
  | some q =>
    assign (fun s => {s with initproc := some q})
    match ← setupkvm im none with
    | none => fail (.panic "userinit: out of memory?")
    | some d =>
      inituvm d
      adopt none q d PGSIZE q

def firstBoot : VmProg Unit := atom (fun s =>
  if s.booted then none else some (.ok ((),{s with booted := true})))

/-- `main`, as far as it concerns pages. -/
def boot : VmProg ℤ := do
  firstBoot
  freerange im (4*1024*1024/PGSIZE-im.kend) im.kend
  kvmalloc im
  freerange im (PHYSTOP/PGSIZE-4*1024*1024/PGSIZE) (4*1024*1024/PGSIZE)
  userinit im
  return 0

def code : Owner → Call → VmProg ℤ
  | none, .boot => boot im
  | some q, .fork => fork im q
  | some q, .exec phs => exec im q phs
  | some q, .growproc n => growproc im q n
  | some q, .exit => exit q
  | some q, .wait => wait im q
  | some _, .pipe => pipe im
  | some _, .pipeclose k writable => pipeclose im k writable
  | some q, .store va v => store q va v
  | _, _ => pure (-1)

def live (s : State) : Owner → Bool
  | none => true
  | some q => s.stage q = .alive

def leave : Owner → Call → State → State
  | some q, .exit, s => s.exited q
  | _, _, s => s

def machine : Machine State Fault Owner Call ℤ where
  enabled := live
  code := code im
  leave := leave

def start (mem : Page → PageData) : State where
  mem := mem
  freelist := []
  kpgdir := none
  stage := fun _ => .unused
  kstack := fun _ => none
  pgdir := fun _ => none
  sz := fun _ => 0
  parent := fun _ => none
  initproc := none
  pipes := []
  building := fun _ => none
  reaping := none
  booted := false
  top := 0

end Yeet.Vm
