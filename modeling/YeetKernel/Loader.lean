import YeetKernel.VmCalls
import YeetKernel.FsProc
import YeetKernel.Outcome

/-!
# Loading a program

`loaduvm` and the loop of `exec` over the program headers, on the pages and
page tables of an address space under construction. Where the bytes of the
file come from is a parameter. The kernel reaches a frame through `p2v`, so a
store goes to the physical page that the entry names, whether the entry is
present or not. Each store is recorded.
-/

namespace Yeet.Loader
open Kernel Bytes Resumption Vm
open Fs (wordOf phSize ELF_PROG_LOAD)

structure Write where
  va : ℕ
  page : Page
  len : ℕ
  deriving DecidableEq, Repr

structure Loading (F : Type) where
  vm : State
  files : F
  written : List Write

variable {F α : Type}

def onVm (x : VmProg α) : Prog (Loading F) Fault α :=
  x.embed Loading.vm (fun w s => {w with vm := s})

def onFiles (x : Prog F Fault α) : Prog (Loading F) Fault α :=
  x.embed Loading.files (fun w f => {w with files := f})

section Model

variable (im : Image)

/-- The kernel may write to the page at its address `p2v`. The text of the
kernel is mapped read-only, and beyond PHYSTOP `p2v` leads to user addresses
at which no process has memory. -/
def kernelWrites (g : Page) : Bool :=
  g < EXTMEM/PGSIZE || (im.data ≤ g && g < PHYSTOP/PGSIZE)

def deliver (va : ℕ) (g : Page) (l : List Byte) : Prog (Loading F) Fault Unit := atom (fun w =>
  if l = [] then some (.ok ((),w))
  else if kernelWrites im g then
    some (.ok ((),{w with
      vm := w.vm.fill g (putBytes (w.vm.mem g) 0 l)
      written := ⟨va,g,l.length⟩::w.written}))
  else some (.error (.panic "trap")))

variable (readi : Uint → Uint → Prog F Fault (ℤ × List Byte))

def loadPages (pgdir : Page) (addr offset sz : Uint) : ℕ → ℕ → Prog (Loading F) Fault Bool
  | 0,_ => pure true
  | fuel+1,i =>
    if i < sz.toNat then do
      let va := (addr+BitVec.ofNat 32 i).toNat
      let r ← onVm (walkpgdir pgdir va false)
      match r with
      | none => fail (.panic "loaduvm: address should exist")
      | some r => do
        let pte ← onVm (readPte r)
        let n := min (sz.toNat-i) PGSIZE
        let k ← onFiles (readi (offset+BitVec.ofNat 32 i) (BitVec.ofNat 32 n))
        deliver im va (pteAddr pte) k.2
        if k.1 ≠ n then pure false else loadPages pgdir addr offset sz fuel (i+PGSIZE)
    else pure true

def loaduvm (pgdir : Page) (addr offset sz : Uint) : Prog (Loading F) Fault Bool :=
  if addr.toNat%PGSIZE ≠ 0 then fail (.panic "loaduvm: addr must be page aligned")
  else loadPages im readi pgdir addr offset sz (sz.toNat/PGSIZE+1) 0

/-- The loop of `exec` over `k` program headers from the offset `off` on; `none`
is its way to `bad`. -/
def loadSegments (pgdir : Page) : ℕ → Uint → ℕ → Prog (Loading F) Fault (Option ℕ)
  | 0,_,sz => pure (some sz)
  | k+1,off,sz => do
    let r ← onFiles (readi off (BitVec.ofNat 32 phSize))
    if r.1 ≠ phSize then pure none
    else if wordOf r.2 0 ≠ ELF_PROG_LOAD then
      loadSegments pgdir k (off+BitVec.ofNat 32 phSize) sz
    else if wordOf r.2 20 < wordOf r.2 16 then pure none
    else do
      let sz' ← onVm (allocuvm im pgdir sz (wordOf r.2 8+wordOf r.2 20).toNat)
      if sz' = 0 then pure none
      else do
        let done ← loaduvm im readi pgdir (wordOf r.2 8) (wordOf r.2 4) (wordOf r.2 16)
        if done then loadSegments pgdir k (off+BitVec.ofNat 32 phSize) sz' else pure none

end Model

def readFile (content : List Byte) (off n : Uint) : ℤ × List Byte :=
  if content.length < off.toNat ∨ off+n < off then (-1,[])
  else (((content.drop off.toNat).take n.toNat).length,(content.drop off.toNat).take n.toNat)

def readContent (off n : Uint) : Prog (List Byte) Fault (ℤ × List Byte) :=
  fetch (fun content => readFile content off n)

def pagesOf (sz : ℕ) : ℕ := (sz+PGSIZE-1)/PGSIZE

def tablesOf (n : ℕ) : ℕ := (n+NPTENTRIES-1)/NPTENTRIES

def need (n : ℕ) : ℕ := n+tablesOf n

/-- How far an address space has grown and how many pages are free. `bare`
tells that memory ran out at the table of the last page: `allocuvm` does not
look at what `mappages` returns, so the page counts as allocated but is not
mapped. -/
structure Room where
  sz : ℕ
  free : ℕ
  bare : Bool
  deriving DecidableEq, Repr

def Room.mapped (r : Room) : ℕ := if r.bare then pagesOf r.sz-1 else pagesOf r.sz

def Room.grow (r : Room) (e : ℕ) : Option Room :=
  if KERNBASE ≤ e then none
  else if e < r.sz then some r
  else if e = 0 then none
  else
    let k := need (pagesOf e)-need (pagesOf r.sz)
    if k ≤ r.free then some ⟨e,r.free-k,r.bare⟩
    else if k = r.free+1 ∧ pagesOf e%NPTENTRIES = 1 then some ⟨e,0,true⟩
    else none

inductive Verdict where
  | wild
  | fails
  | fits
  deriving DecidableEq, Repr

section Plan

variable (content : List Byte) (tables : ℕ → Bool)

/-- There is a table for the page with this number; above KERNBASE it is one
of `tables`. -/
def Room.hasTable (r : Room) (v : ℕ) : Bool :=
  if v < KERNBASE/PGSIZE then v < NPTENTRIES*tablesOf r.mapped else tables (v/NPTENTRIES)

/-- Page after page: the file ends, or the page is mapped and can be filled, or
the page is not mapped. -/
def Room.fill (r : Room) (addr offset sz : Uint) : ℕ → ℕ → Verdict
  | 0,_ => .fits
  | fuel+1,i =>
    if i < sz.toNat then
      let v := (addr+BitVec.ofNat 32 i).toNat/PGSIZE
      let n := min (sz.toNat-i) PGSIZE
      let k := readFile content (offset+BitVec.ofNat 32 i) (BitVec.ofNat 32 n)
      if v < r.mapped then
        if k.1 ≠ n then .fails else r.fill addr offset sz fuel (i+PGSIZE)
      else if k.2 = [] ∧ r.hasTable tables v then .fails
      else .wild
    else .fits

/-- Up to the first header at which `exec` gives up, every segment is aligned
and only mapped pages are filled. -/
def Room.sane (r : Room) : ℕ → Uint → Bool
  | 0,_ => true
  | k+1,off =>
    let h := readFile content off (BitVec.ofNat 32 phSize)
    if h.1 ≠ phSize then true
    else if wordOf h.2 0 ≠ ELF_PROG_LOAD then r.sane k (off+BitVec.ofNat 32 phSize)
    else if wordOf h.2 20 < wordOf h.2 16 then true
    else
      match r.grow (wordOf h.2 8+wordOf h.2 20).toNat with
      | none => true
      | some r' =>
        if (wordOf h.2 8).toNat%PGSIZE ≠ 0 then false
        else
          match r'.fill content tables (wordOf h.2 8) (wordOf h.2 4) (wordOf h.2 16)
              ((wordOf h.2 16).toNat/PGSIZE+1) 0 with
          | .wild => false
          | .fails => true
          | .fits => r'.sane k (off+BitVec.ofNat 32 phSize)

/-- What is loaded in the end, if `exec` does not give up. -/
def Room.load (r : Room) : ℕ → Uint → Option Room
  | 0,_ => some r
  | k+1,off =>
    let h := readFile content off (BitVec.ofNat 32 phSize)
    if h.1 ≠ phSize then none
    else if wordOf h.2 0 ≠ ELF_PROG_LOAD then r.load k (off+BitVec.ofNat 32 phSize)
    else if wordOf h.2 20 < wordOf h.2 16 then none
    else
      match r.grow (wordOf h.2 8+wordOf h.2 20).toNat with
      | none => none
      | some r' =>
        match r'.fill content tables (wordOf h.2 8) (wordOf h.2 4) (wordOf h.2 16)
            ((wordOf h.2 16).toNat/PGSIZE+1) 0 with
        | .fits => r'.load k (off+BitVec.ofNat 32 phSize)
        | _ => none

end Plan

end Yeet.Loader
