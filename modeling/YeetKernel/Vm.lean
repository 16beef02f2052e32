import YeetKernel.Resumption
import YeetKernel.StateLists

/-!
# Physical pages and address spaces

The page allocator of `kalloc.c` and the page tables of `vm.c`. Memory is a
page of bytes for each physical page number; page directories and page tables
are pages whose words are read as entries. The routines are programs of
atomic actions, so that calls of several processes may interleave between any
two of them. The local variable that points to a page directory under
construction, or about to be freed, is kept in `building`.
-/

namespace Yeet.Vm
open Yeet.Kernel Bytes Resumption Function
open StateLists (Slot)

def NPDENTRIES : ℕ := 1024
def NPTENTRIES : ℕ := 1024
def EXTMEM : ℕ := 0x100000
def PHYSTOP : ℕ := 0xE000000
def DEVSPACE : ℕ := 0xFE000000
def KERNLINK : ℕ := KERNBASE+EXTMEM

def PTE_P : Uint := 0x001
def PTE_W : Uint := 0x002
def PTE_U : Uint := 0x004

abbrev Page := ℕ

abbrev PageData := Block PGSIZE

def pdx (va : ℕ) : ℕ := va/(PGSIZE*NPTENTRIES)%NPDENTRIES

def ptx (va : ℕ) : ℕ := va/PGSIZE%NPTENTRIES

def pgroundup (sz : ℕ) : ℕ := (sz+PGSIZE-1)/PGSIZE*PGSIZE

def present (w : Uint) : Bool := w &&& PTE_P != 0

def userBit (w : Uint) : Bool := w &&& PTE_U != 0

/-- `PTE_ADDR`, as the number of the page. -/
def pteAddr (w : Uint) : Page := (w >>> 12).toNat

def pteFlags (w : Uint) : Uint := w &&& 0xFFF

/-- `pa | perm | PTE_P` for the physical page `g`. -/
def mkPte (g : Page) (perm : Uint) : Uint := BitVec.ofNat 32 (g*PGSIZE) ||| perm ||| PTE_P

/-- Where the linker puts the kernel: the physical pages of `data` and of the
first address after `end`. -/
structure Image where
  data : ℕ
  kend : ℕ
  text : EXTMEM/PGSIZE < data
  order : data < kend
  fits : kend < PHYSTOP/PGSIZE

def Image.managed (im : Image) (g : Page) : Prop := im.kend ≤ g ∧ g < PHYSTOP/PGSIZE

instance Image.decidableManaged (im : Image) (g : Page) : Decidable (im.managed g) :=
  inferInstanceAs (Decidable (_ ∧ _))

/-- The states of a slot; SLEEPING, RUNNABLE and RUNNING are `alive`. -/
inductive Stage where
  | unused
  | embryo
  | alive
  | zombie
  deriving DecidableEq, Repr

structure Pipe where
  page : Page
  readopen : Bool
  writeopen : Bool
  deriving DecidableEq, Repr

abbrev Owner := Option Slot

structure State where
  mem : Page → PageData
  freelist : List Page
  kpgdir : Option Page
  stage : Slot → Stage
  kstack : Slot → Option Page
  pgdir : Slot → Option Page
  sz : Slot → ℕ
  parent : Slot → Option Slot
  initproc : Option Slot
  pipes : List Pipe
  building : Owner → Option Page
  /-- The zombie that `wait`, with `ptable.lock` held, is taking apart. -/
  reaping : Option Slot
  booted : Bool
  /-- The end of the memory that `freerange` has given to the allocator. -/
  top : ℕ

abbrev VmProg := Prog State Fault

def State.pte (s : State) (t : Page) (j : ℕ) : Uint := getField (s.mem t) (4*j) 4

def State.target (s : State) (t : Page) (j : ℕ) : Option Page :=
  if present (s.pte t j) then some (pteAddr (s.pte t j)) else none

def State.fill (s : State) (g : Page) (b : PageData) : State := {s with mem := update s.mem g b}

def State.setPte (s : State) (t : Page) (j : ℕ) (w : Uint) : State :=
  s.fill t (setField (s.mem t) (4*j) 4 w)

def memset (g : Page) (c : Byte) : VmProg Unit := assign (fun s => s.fill g (fun _ => c))

/-- The body of `kfree` once the address is accepted: junk, then the free list. -/
def State.free (s : State) (g : Page) : State :=
  {s.fill g (fun _ => 1) with freelist := g::s.freelist}

def State.kalloc (s : State) : Option Page × State :=
  match s.freelist with
  | [] => (none,s)
  | g::l => (some g,{s with freelist := l})

def kalloc : VmProg (Option Page) := atom (fun s => some (.ok s.kalloc))

variable (im : Image)

def State.kfree (s : State) (g : Page) : Except Fault State :=
  if im.managed g then .ok (s.free g) else .error (.panic "kfree")

/-- `kfree` of the page that `f` finds, if any, and what is then done to the
pointer to it. -/
def kfreeAt (f : State → Option Page) (after : State → State) : VmProg Unit := atom (fun s =>
  match f s with
  | none => some (.ok ((),s))
  | some g => some ((s.kfree im g).map (fun s' => ((),after s'))))

def kfree (g : Page) : VmProg Unit := kfreeAt im (fun _ => some g) id

def freerange : ℕ → ℕ → VmProg Unit
  | 0, _ => pure ()
  | n+1, g => do
    kfreeAt im (fun _ => some g) (fun s => {s with top := g+1})
    freerange n (g+1)

abbrev PteRef := Page × ℕ

def readPte (r : PteRef) : VmProg Uint := fetch (fun s => s.pte r.1 r.2)

def writePte (r : PteRef) (w : Uint) : VmProg Unit := assign (fun s => s.setPte r.1 r.2 w)

/-- The new table is zeroed and then entered in the directory. -/
def installTable (d : Page) (i : ℕ) (t : Page) : VmProg Unit := assign (fun s =>
  (s.fill t (fun _ => 0)).setPte d i (mkPte t (PTE_W ||| PTE_U)))

def walkpgdir (pgdir : Page) (va : ℕ) (alloc : Bool) : VmProg (Option PteRef) := do
  let pde ← readPte (pgdir,pdx va)
  if present pde then return some (pteAddr pde,ptx va)
  else if alloc then
    match ← kalloc with
    | none => return none
    | some pgtab =>
      installTable pgdir (pdx va) pgtab
      return some (pgtab,ptx va)
  else return none

/-- The loop of `mappages`, one page after the other; the frames are
consecutive. -/
def mapLoop (pgdir : Page) (perm : Uint) : ℕ → ℕ → Page → VmProg Bool
  | 0, _, _ => pure true
  | n+1, a, g => do
    match ← walkpgdir pgdir a true with
    | none => return false
    | some r =>
      if present (← readPte r) then fail (.panic "remap")
      else do
        writePte r (mkPte g perm)
        mapLoop pgdir perm n ((a+PGSIZE)%2^32) (g+1)

/-- `false` when a page table cannot be had. -/
def mappages (pgdir : Page) (va size : ℕ) (g : Page) (perm : Uint) : VmProg Bool :=
  let a := va/PGSIZE
  let last := (va+size+2^32-1)%2^32/PGSIZE
  mapLoop pgdir perm ((last+2^20-a)%2^20+1) (a*PGSIZE) g

structure Kmap where
  virt : ℕ
  phys_start : ℕ
  phys_end : ℕ
  perm : Uint

def kmap : List Kmap :=
  [⟨KERNBASE,0,EXTMEM,PTE_W⟩, ⟨KERNLINK,KERNLINK-KERNBASE,im.data*PGSIZE,0⟩,
    ⟨KERNBASE+im.data*PGSIZE,im.data*PGSIZE,PHYSTOP,PTE_W⟩,
    ⟨DEVSPACE,DEVSPACE,0,PTE_W⟩]

def newDir (p : Owner) (d : Page) : VmProg Unit := assign (fun s =>
  {s.fill d (fun _ => 0) with building := update s.building p (some d)})

def forget (p : Owner) : VmProg Unit := assign (fun s =>
  {s with building := update s.building p none})

def kmapLoop (p : Owner) (pgdir : Page) : List Kmap → VmProg (Option Page)
  | [] => pure (some pgdir)
  | k::ks => do
    if ← mappages pgdir k.virt ((k.phys_end+2^32-k.phys_start)%2^32) (k.phys_start/PGSIZE) k.perm
    then kmapLoop p pgdir ks
    else do
      forget p
      return none

def setupkvm (p : Owner) : VmProg (Option Page) := do
  match ← kalloc with
  | none => return none
  | some pgdir =>
    newDir p pgdir
    if KERNBASE+PHYSTOP > DEVSPACE then fail (.panic "PHYSTOP too high")
    else kmapLoop p pgdir (kmap im)

/-- The frame of a present entry is freed and the entry cleared. Page 0, for
which `deallocuvm` has a check of its own, fails in `kfree` with the same
message. -/
def freePte (r : PteRef) : VmProg Unit :=
  kfreeAt im (fun s => s.target r.1 r.2) (fun s => s.setPte r.1 r.2 0)

/-- The loop of `deallocuvm`; where a table is missing its whole range is
skipped. The first argument bounds the number of rounds. -/
def deallocLoop (pgdir : Page) (oldsz : ℕ) : ℕ → ℕ → VmProg Unit
  | 0, _ => pure ()
  | n+1, a =>
    if a < oldsz then do
      match ← walkpgdir pgdir a false with
      | none => deallocLoop pgdir oldsz n (a+(NPTENTRIES-1)*PGSIZE+PGSIZE)
      | some r =>
        freePte im r
        deallocLoop pgdir oldsz n (a+PGSIZE)
    else pure ()

def deallocuvm (pgdir : Page) (oldsz newsz : ℕ) : VmProg ℕ :=
  if newsz ≥ oldsz then return oldsz
  else do
    deallocLoop im pgdir oldsz (oldsz/PGSIZE+1) (pgroundup newsz)
    return newsz

def allocLoop (pgdir : Page) (oldsz newsz : ℕ) : ℕ → ℕ → VmProg ℕ
  | 0, _ => pure newsz
  | n+1, a =>
    if a < newsz then do
      match ← kalloc with
      | none =>
        let _ ← deallocuvm im pgdir newsz oldsz
        return 0
      | some mem =>
        memset mem 0
        let _ ← mappages pgdir a PGSIZE mem (PTE_W ||| PTE_U)
        allocLoop pgdir oldsz newsz n (a+PGSIZE)
    else pure newsz

def allocuvm (pgdir : Page) (oldsz newsz : ℕ) : VmProg ℕ :=
  if newsz ≥ KERNBASE then return 0
  else if newsz < oldsz then return oldsz
  else allocLoop im pgdir oldsz newsz (newsz/PGSIZE+1) (pgroundup oldsz)

def freeTables (pgdir : Page) : ℕ → ℕ → VmProg Unit
  | 0, _ => pure ()
  | n+1, i => do
    kfreeAt im (fun s => s.target pgdir i) id
    freeTables pgdir n (i+1)

def freevm (p : Owner) (pgdir : Page) : VmProg Unit := do
  let _ ← deallocuvm im pgdir KERNBASE 0
  forget p
  freeTables im pgdir NPDENTRIES 0
  kfree im pgdir

def clearpteu (pgdir : Page) (uva : ℕ) : VmProg Unit := do
  match ← walkpgdir pgdir uva false with
  | none => fail (.panic "clearpteu")
  | some r => assign (fun s => s.setPte r.1 r.2 (s.pte r.1 r.2 &&& ~~~PTE_U))

def copyPage (mem pa : Page) : VmProg Unit := assign (fun s => s.fill mem (s.mem pa))

def copyLoop (p : Owner) (pgdir d : Page) : ℕ → ℕ → VmProg (Option Page)
  | 0, _ => pure (some d)
  | n+1, i => do
    match ← walkpgdir pgdir i false with
    | none => fail (.panic "copyuvm: pte should exist")
    | some r =>
      let w ← readPte r
      if !present w then fail (.panic "copyuvm: page not present")
      else
        match ← kalloc with
        | none => do
          freevm im p d
          return none
        | some mem => do
          copyPage mem (pteAddr w)
          if ← mappages d i PGSIZE mem (pteFlags w) then copyLoop p pgdir d n (i+PGSIZE)
          else do
            freevm im p d
            return none

def copyuvm (p : Owner) (pgdir : Page) (sz : ℕ) : VmProg (Option Page) := do
  match ← setupkvm im p with
  | none => return none
  | some d => copyLoop im p pgdir d ((sz+PGSIZE-1)/PGSIZE) 0

end Yeet.Vm
