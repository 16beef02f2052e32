import YeetKernel.FsPath
import YeetKernel.Vm

/-!
# The buffers of `read` and `write`

How the arguments of `sys_read` and `sys_write` are fetched from the user
stack and checked, and which user addresses the transfer then reads or writes.
`argptr` adds the signed count to the address modulo 2^32, while `readi` takes
it as unsigned and clamps it to the rest of the file. What pipes and the
console deliver comes from outside.
-/

namespace Yeet.UserBuffer
open Kernel Bytes
open FsDisk (MAXFILE)
open Fs (chunkMax)

structure Access where
  addr : Uint
  len : ℕ
  deriving DecidableEq, Repr

/-- A device has a driver, for the console, and input waiting; a file or
directory has a size. -/
inductive Node where
  | device (driver : Bool) (input : List Byte)
  | file (size : Uint)
  deriving DecidableEq, Repr

/-- For a pipe: how many bytes it delivers or takes before the call ends. -/
inductive FileType where
  | none
  | pipe (ready : ℕ)
  | inode (ip : Node) (off : Uint)
  deriving DecidableEq, Repr

structure File where
  readable : Bool
  writable : Bool
  type : FileType
  deriving DecidableEq, Repr

/-- The process that calls: its size, stack pointer, memory and open files. -/
structure Caller where
  sz : Uint
  esp : Uint
  mem : Uint → Byte
  ofile : Fin NOFILE → Option File
  small : sz.toNat < KERNBASE

section Arguments

def Caller.word (u : Caller) (a : Uint) : Uint :=
  u.mem (a+3)++u.mem (a+2)++u.mem (a+1)++u.mem a

def fetchint (u : Caller) (addr : Uint) : Option Uint :=
  if addr ≥ u.sz ∨ addr+4 > u.sz then none else some (u.word addr)

def argint (u : Caller) (n : ℕ) : Option Uint := fetchint u (u.esp+4+BitVec.ofNat 32 (4*n))

def argptr (u : Caller) (n : ℕ) (size : Uint) : Option Uint :=
  match argint u n with
  | none => none
  | some i => if i ≥ u.sz ∨ i+size > u.sz then none else some i

def argfd (u : Caller) (n : ℕ) : Option File :=
  match argint u n with
  | none => none
  | some fd =>
    if fd.toInt < 0 ∨ fd.toInt ≥ NOFILE then none
    else if h : fd.toNat < NOFILE then u.ofile ⟨fd.toNat,h⟩ else none

end Arguments

section Transfer

def eof : Byte := 4

def newline : Byte := 10

def bytewise (addr : Uint) (n : ℕ) : List Access :=
  (List.range n).map (fun i => ⟨addr+BitVec.ofNat 32 i,1⟩)

def consoleread : List Byte → Uint → ℕ → List Access
  | [], _, _ => []
  | _::_, _, 0 => []
  | c::input, dst, n+1 =>
    if c = eof then []
    else if c = newline then [⟨dst,1⟩]
    else ⟨dst,1⟩::consoleread input (dst+1) n

/-- The loops of `readi` and `writei` over the blocks of `n` bytes of a file. -/
def blocks : ℕ → Uint → ℕ → ℕ → List Access
  | 0, _, _, _ => []
  | fuel+1, addr, off, n =>
    if n = 0 then []
    else
      let m := min n (BSIZE-off%BSIZE)
      ⟨addr,m⟩::blocks fuel (addr+BitVec.ofNat 32 m) (off+m) (n-m)

def readi (ip : Node) (dst off n : Uint) : List Access :=
  match ip with
  | .device driver input => if driver then consoleread input dst n.toInt.toNat else []
  | .file size =>
    if off > size ∨ off+n < off then []
    else
      let m := if off+n > size then size-off else n
      blocks m.toNat dst off.toNat m.toNat

def writei (ip : Node) (src off n : Uint) : Option (List Access × Node) :=
  match ip with
  | .device driver input =>
    if driver then some (bytewise src n.toInt.toNat,.device driver input) else none
  | .file size =>
    if off > size ∨ off+n < off then none
    else if (off+n).toNat > MAXFILE*BSIZE then none
    else some (blocks n.toNat src off.toNat n.toNat,
      .file (if n > 0 ∧ off+n > size then off+n else size))

/-- The loop of `filewrite`, at the byte `i` of `n`. -/
def writeChunks (addr : Uint) (n : ℕ) : ℕ → ℕ → Node → Uint → List Access
  | 0, _, _, _ => []
  | fuel+1, i, ip, off =>
    if i < n then
      let n1 := min (n-i) chunkMax
      match writei ip (addr+BitVec.ofNat 32 i) off (BitVec.ofNat 32 n1) with
      | none => []
      | some (acc,ip') => acc++writeChunks addr n fuel (i+n1) ip' (off+BitVec.ofNat 32 n1)
    else []

def fileread (f : File) (addr n : Uint) : List Access :=
  if f.readable = false then []
  else match f.type with
    | .pipe ready => bytewise addr (min ready n.toInt.toNat)
    | .inode ip off => readi ip addr off n
    | .none => []

def filewrite (f : File) (addr n : Uint) : List Access :=
  if f.writable = false then []
  else match f.type with
    | .pipe ready => bytewise addr (min ready n.toInt.toNat)
    | .inode ip off => writeChunks addr n.toInt.toNat n.toInt.toNat 0 ip off
    | .none => []

def withBuffer (u : Caller) (transfer : File → Uint → Uint → List Access) : List Access :=
  match argfd u 0 with
  | none => []
  | some f =>
    match argint u 2 with
    | none => []
    | some n =>
      match argptr u 1 n with
      | none => []
      | some p => transfer f p n

def sysRead (u : Caller) : List Access := withBuffer u fileread

def sysWrite (u : Caller) : List Access := withBuffer u filewrite

end Transfer

def Within (p n : ℕ) (l : List Access) : Prop :=
  ∀ a ∈ l, p ≤ a.addr.toNat ∧ a.addr.toNat+a.len ≤ p+n

section Within

variable {p : ℕ} {addr : Uint} {n m : ℕ} {l l' : List Access}

theorem within_nil (p n : ℕ) : Within p n [] := fun _ ha => absurd ha List.not_mem_nil

theorem within_cons (h : Within addr.toNat n l) (hm : m ≤ n) : Within addr.toNat n (⟨addr,m⟩::l) := by
  intro a ha
  rcases List.mem_cons.mp ha with rfl | ha
  · exact ⟨Nat.le_refl _,Nat.add_le_add_left hm _⟩
  · exact h a ha

theorem toNat_advance (hm : m ≤ n) (hn : addr.toNat+n < 2^32) :
    (addr+BitVec.ofNat 32 m).toNat = addr.toNat+m := by
  rw [BitVec.toNat_add, BitVec.toNat_ofNat]
  omega

theorem within_shift (h : Within (addr.toNat+m) (n-m) l) (hm : m ≤ n) : Within addr.toNat n l := by
  intro a ha
  obtain ⟨h1,h2⟩ := h a ha
  omega

theorem bytewise_within (hn : addr.toNat+n < 2^32) (hm : m ≤ n) :
    Within addr.toNat n (bytewise addr m) := by
  intro a ha
  obtain ⟨i,hi,rfl⟩ := List.mem_map.mp ha
  have hlt := List.mem_range.mp hi
  dsimp only
  rw [toNat_advance (n := n) (by omega) hn]
  omega

theorem consoleread_within (input : List Byte) (addr : Uint) (n : ℕ) (hn : addr.toNat+n < 2^32) :
    Within addr.toNat n (consoleread input addr n) := by
  induction input generalizing addr n with
  | nil => exact within_nil _ _
  | cons c input ih =>
    cases n with
    | zero => exact within_nil _ _
    | succ n =>
      have hone : (addr+1).toNat = addr.toNat+1 := toNat_advance (m := 1) (by omega) hn
      have hrest := ih (addr+1) n (by omega)
      rw [hone] at hrest
      unfold consoleread
      split
      · exact within_nil _ _
      · split
        · exact within_cons (within_nil _ _) (by omega)
        · exact within_cons (within_shift hrest (by omega)) (by omega)

theorem blocks_within (fuel off : ℕ) (addr : Uint) (n : ℕ) (hn : addr.toNat+n < 2^32) :
    Within addr.toNat n (blocks fuel addr off n) := by
  induction fuel generalizing addr off n with
  | zero => exact within_nil _ _
  | succ fuel ih =>
    unfold blocks
    split
    · exact within_nil _ _
    have hm : min n (BSIZE-off%BSIZE) ≤ n := Nat.min_le_left _ _
    dsimp only
    generalize min n (BSIZE-off%BSIZE) = m at hm ⊢
    have hadd := toNat_advance hm hn
    have hrest := ih (off+m) (addr+BitVec.ofNat 32 m) (n-m) (by omega)
    rw [hadd] at hrest
    exact within_cons (within_shift hrest hm) hm

theorem blocks_beyond {e : ℕ} (fuel off : ℕ) (addr : Uint) (n : ℕ) (hfuel : n ≤ fuel)
    (he : e < 2^31) (ha : addr.toNat ≤ e) (hn : e < addr.toNat+n) :
    ∃ a ∈ blocks fuel addr off n, e < a.addr.toNat+a.len := by
  induction fuel generalizing addr off n with
  | zero => omega
  | succ fuel ih =>
    unfold blocks
    rw [if_neg (by omega)]
    have hpos : 0 < min n (BSIZE-off%BSIZE) := by
      simp only [BSIZE]
      omega
    have hsmall : min n (BSIZE-off%BSIZE) ≤ 512 := by
      simp only [BSIZE]
      omega
    have hle : min n (BSIZE-off%BSIZE) ≤ n := Nat.min_le_left _ _
    dsimp only
    generalize min n (BSIZE-off%BSIZE) = m at hpos hsmall hle ⊢
    by_cases hcross : e < addr.toNat+m
    · exact ⟨⟨addr,m⟩,List.mem_cons_self,hcross⟩
    have hadd : (addr+BitVec.ofNat 32 m).toNat = addr.toNat+m :=
      toNat_advance (Nat.le_refl m) (by omega)
    obtain ⟨a,hmem,hlt⟩ := ih (off+m) (addr+BitVec.ofNat 32 m) (n-m) (by omega) (by omega)
      (by omega)
    exact ⟨a,List.mem_cons_of_mem _ hmem,hlt⟩

end Within

section Transfers

variable {addr off size n : Uint}

theorem clamped (hoff : ¬ off > size) (hwrap : ¬ off+n < off) :
    (if off+n > size then size-off else n).toNat = min n.toNat (size-off).toNat := by
  rw [gt_iff_lt, BitVec.lt_def] at hoff
  rw [BitVec.lt_def, BitVec.toNat_add] at hwrap
  have h1 := off.isLt
  have h2 := n.isLt
  have h3 := size.isLt
  have hsub : (size-off).toNat = size.toNat-off.toNat := by
    rw [BitVec.toNat_sub]
    omega
  split <;> rename_i hc <;> rw [gt_iff_lt, BitVec.lt_def, BitVec.toNat_add] at hc <;> omega

theorem toNat_count (h : 0 ≤ n.toInt) : n.toInt.toNat = n.toNat ∧ n.toNat < 2^31 := by
  have := n.isLt
  rw [BitVec.toInt_eq_toNat_cond] at h ⊢
  split at h <;> rename_i hc
  · rw [if_pos hc]
    omega
  · omega

theorem readi_within (ip : Node) (off : Uint) (h : 0 ≤ n.toInt) (hn : addr.toNat+n.toNat < 2^32) :
    Within addr.toNat n.toNat (readi ip addr off n) := by
  unfold readi
  cases ip with
  | device driver input =>
    dsimp only
    rw [(toNat_count h).1]
    split
    · exact consoleread_within input addr _ hn
    · exact within_nil _ _
  | file size =>
    dsimp only
    split
    · exact within_nil _ _
    rename_i hc
    obtain ⟨h1,h2⟩ := not_or.mp hc
    have hm := clamped h1 h2
    generalize (if off+n > size then size-off else n) = m at hm ⊢
    have hblocks := blocks_within m.toNat off.toNat addr m.toNat (by omega)
    intro a ha
    obtain ⟨h3,h4⟩ := hblocks a ha
    omega

theorem writei_within (ip : Node) (off : Uint) (h : 0 ≤ n.toInt) (hn : addr.toNat+n.toNat < 2^32)
    {acc : List Access} {ip' : Node} (hw : writei ip addr off n = some (acc,ip')) :
    Within addr.toNat n.toNat acc := by
  unfold writei at hw
  cases ip with
  | device driver input =>
    dsimp only at hw
    split at hw
    · cases hw
      rw [(toNat_count h).1]
      exact bytewise_within hn (Nat.le_refl _)
    · cases hw
  | file size =>
    dsimp only at hw
    split at hw
    · cases hw
    split at hw
    · cases hw
    · cases hw
      exact blocks_within _ _ _ _ hn

theorem writeChunks_within {k : ℕ} (hk : k < 2^31) (hn : addr.toNat+k < 2^32) (fuel i : ℕ)
    (ip : Node) (off : Uint) : Within addr.toNat k (writeChunks addr k fuel i ip off) := by
  induction fuel generalizing i ip off with
  | zero => exact within_nil _ _
  | succ fuel ih =>
    unfold writeChunks
    split
    · rename_i hi
      dsimp only
      have hle : min (k-i) chunkMax ≤ k-i := Nat.min_le_left _ _
      generalize min (k-i) chunkMax = n1 at hle ⊢
      have hadd : (addr+BitVec.ofNat 32 i).toNat = addr.toNat+i := toNat_advance (n := k) (by omega) hn
      have hcount : (BitVec.ofNat 32 n1).toNat = n1 := by
        rw [BitVec.toNat_ofNat]
        omega
      have hpos : 0 ≤ (BitVec.ofNat 32 n1).toInt := by
        rw [BitVec.toInt_eq_toNat_cond, hcount]
        split <;> omega
      cases hw : writei ip (addr+BitVec.ofNat 32 i) off (BitVec.ofNat 32 n1) with
      | none => exact within_nil _ _
      | some r =>
        have hfirst := writei_within ip off hpos (by rw [hadd, hcount]; omega) hw
        rw [hadd, hcount] at hfirst
        intro a ha
        rcases List.mem_append.mp ha with ha | ha
        · obtain ⟨h1,h2⟩ := hfirst a ha
          omega
        · exact ih _ _ _ a ha
    · exact within_nil _ _

end Transfers

def Contained (u : Caller) (l : List Access) : Prop := ∀ a ∈ l, a.addr.toNat+a.len ≤ u.sz.toNat

/-- The call is a `read` from a file or directory with a count that is negative
as an int. The check of the buffer passes, neither does the offset lie beyond
the end nor does its sum with the count wrap around, and the rest of the file,
or as many bytes as the count has as an unsigned number, go beyond the size of
the process. -/
def Spills (u : Caller) : Prop :=
  ∃ f n p size off, argfd u 0 = some f ∧ argint u 2 = some n ∧ argptr u 1 n = some p ∧
    f.readable = true ∧ f.type = .inode (.file size) off ∧ n.toInt < 0 ∧ ¬ off > size ∧
    ¬ off+n < off ∧ u.sz.toNat < p.toNat+min n.toNat (size-off).toNat

section Calls

variable {u : Caller} {f : File} {n p : Uint} {transfer : File → Uint → Uint → List Access}

theorem sz_lt (u : Caller) : u.sz.toNat < 2^31 := u.small

theorem argptr_fits (h : argptr u 1 n = some p) :
    p.toNat < u.sz.toNat ∧ (0 ≤ n.toInt → p.toNat+n.toNat ≤ u.sz.toNat) := by
  have hs := sz_lt u
  unfold argptr at h
  split at h
  · cases h
  split at h
  · cases h
  rename_i i _ hc
  obtain rfl := Option.some.inj h
  obtain ⟨h1,h2⟩ := not_or.mp hc
  rw [ge_iff_le, BitVec.le_def] at h1
  rw [gt_iff_lt, BitVec.lt_def, BitVec.toNat_add] at h2
  refine ⟨by omega,fun hn => ?_⟩
  have := (toNat_count hn).2
  omega

theorem withBuffer_contained
    (h : ∀ f n p, argfd u 0 = some f → argint u 2 = some n → argptr u 1 n = some p →
      Contained u (transfer f p n)) : Contained u (withBuffer u transfer) := by
  have hnil : Contained u [] := fun a ha => absurd ha List.not_mem_nil
  unfold withBuffer
  split
  · exact hnil
  rename_i f hf
  split
  · exact hnil
  rename_i n hn
  split
  · exact hnil
  · rename_i p hp
    exact h f n p hf hn hp

theorem withBuffer_eq (hf : argfd u 0 = some f)
    (hn : argint u 2 = some n) (hp : argptr u 1 n = some p) :
    withBuffer u transfer = transfer f p n := by
  simp only [withBuffer, hf, hn, hp]

theorem contained_of_within {l : List Access} {k : ℕ} (h : Within p.toNat k l)
    (hk : p.toNat+k ≤ u.sz.toNat) : Contained u l := fun a ha => (h a ha).2.trans hk

theorem negative_count (h : ¬ 0 ≤ n.toInt) : n.toInt.toNat = 0 := by omega

theorem filewrite_contained (f : File) (h : argptr u 1 n = some p) :
    Contained u (filewrite f p n) := by
  have hs := sz_lt u
  obtain ⟨hp,hfit⟩ := argptr_fits h
  unfold filewrite
  by_cases hn : 0 ≤ n.toInt
  · have hk := hfit hn
    obtain ⟨hcount,hlt⟩ := toNat_count hn
    rw [hcount]
    split
    · exact contained_of_within (p := p) (within_nil _ 0) (by omega)
    split
    · exact contained_of_within (bytewise_within (by omega) (Nat.min_le_right _ _)) hk
    · exact contained_of_within (writeChunks_within hlt (by omega) _ _ _ _) hk
    · exact contained_of_within (p := p) (within_nil _ 0) (by omega)
  rw [negative_count hn]
  have hnil : Contained u [] := contained_of_within (p := p) (within_nil _ 0) (by omega)
  split
  · exact hnil
  split
  · rw [Nat.min_zero]
    exact hnil
  · exact hnil
  · exact hnil

theorem consoleread_zero (input : List Byte) (dst : Uint) : consoleread input dst 0 = [] := by
  cases input <;> rfl

theorem fileread_contained (h : argptr u 1 n = some p)
    (hno : ∀ size off, f.readable = true → f.type = .inode (.file size) off → n.toInt < 0 →
      ¬ off > size → ¬ off+n < off → p.toNat+min n.toNat (size-off).toNat ≤ u.sz.toNat) :
    Contained u (fileread f p n) := by
  have hs := sz_lt u
  obtain ⟨hp,hfit⟩ := argptr_fits h
  have hnil : Contained u [] := contained_of_within (p := p) (within_nil _ 0) (by omega)
  unfold fileread
  by_cases hn : 0 ≤ n.toInt
  · have hk := hfit hn
    obtain ⟨hcount,hlt⟩ := toNat_count hn
    rw [hcount]
    split
    · exact hnil
    split
    · exact contained_of_within (bytewise_within (by omega) (Nat.min_le_right _ _)) hk
    · exact contained_of_within (readi_within _ _ hn (by omega)) hk
    · exact hnil
  rw [negative_count hn]
  split
  · exact hnil
  rename_i hr
  split
  · rw [Nat.min_zero]
    exact hnil
  · rename_i ip off htype
    unfold readi
    cases ip with
    | device driver input =>
      dsimp only
      rw [negative_count hn, consoleread_zero, ite_self]
      exact hnil
    | file size =>
      dsimp only
      split
      · exact hnil
      rename_i hc
      obtain ⟨h1,h2⟩ := not_or.mp hc
      have hbound := hno size off ((Bool.not_eq_false _).mp hr) htype (by omega) h1 h2
      rw [← clamped h1 h2] at hbound
      exact contained_of_within (blocks_within _ _ _ _ (by omega)) hbound
  · exact hnil

/-- For every caller, whatever its registers, stack and files: the transfers of
`sys_read` and `sys_write` stay inside the process if and only if the call is
not one that spills. -/
theorem buffers_contained_iff (u : Caller) :
    Contained u (sysRead u) ∧ Contained u (sysWrite u) ↔ ¬ Spills u := by
  constructor
  · rintro ⟨hread,-⟩ ⟨f,n,p,size,off,hf,hn,hp,hr,htype,hneg,h1,h2,hspill⟩
    have hs := sz_lt u
    have hlow := (argptr_fits hp).1
    rw [sysRead, withBuffer_eq hf hn hp] at hread
    have hcall : fileread f p n = blocks (if off+n > size then size-off else n).toNat p off.toNat
        (if off+n > size then size-off else n).toNat := by
      simp only [fileread, hr, htype, readi, if_neg (not_or.mpr ⟨h1,h2⟩), Bool.true_eq_false,
        if_false]
    rw [hcall] at hread
    rw [← clamped h1 h2] at hspill
    obtain ⟨a,ha,hbeyond⟩ := blocks_beyond _ off.toNat p _ (Nat.le_refl _) hs (Nat.le_of_lt hlow)
      hspill
    exact absurd (hread a ha) (by omega)
  · intro hno
    constructor
    · apply withBuffer_contained
      intro f n p hf hn hp
      apply fileread_contained hp
      intro size off hr htype hneg h1 h2
      by_contra hc
      exact hno ⟨f,n,p,size,off,hf,hn,hp,hr,htype,hneg,h1,h2,by omega⟩
    · exact withBuffer_contained (fun f n p _ _ hp => filewrite_contained f hp)

/-- The stack of a process of two pages: descriptor 0, the last byte as the
buffer, and the count -1. -/
def lastByte (a : Uint) : Byte :=
  if a = 4104 then 0xff
  else if a = 4105 then 0x1f
  else if 4108 ≤ a ∧ a < 4112 then 0xff
  else 0

theorem two_pages_small : (8192 : Uint).toNat < KERNBASE := by decide

def spilling : Caller where
  sz := 8192
  esp := 4096
  mem := lastByte
  ofile _ := some ⟨true,false,.inode (.file 100) 0⟩
  small := two_pages_small

/-- All 100 bytes are stored, from the last byte of the process on. -/
theorem read_spills : sysRead spilling = [⟨8191,100⟩] ∧ ¬ Contained spilling (sysRead spilling) := by
  have hread : sysRead spilling = [⟨8191,100⟩] := by decide
  refine ⟨hread,fun h => ?_⟩
  rw [hread] at h
  exact absurd (h _ List.mem_cons_self) (by decide)

end Calls

end Yeet.UserBuffer
