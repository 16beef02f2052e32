import Mathlib.Data.BitVec
import YeetKernel.Spans

/-!
# The allocator of the user library

`malloc` and `free` with the ring of free blocks. A block is a header and what
follows it; its size counts headers. What the rest of the process is, and what
`sbrk` does to it, is left open.
-/

namespace Yeet.Umalloc
open Spans

structure Header where
  ptr : ℕ
  size : ℕ

/-- The headers in memory, `freep`, and the process. -/
structure Heap (σ : Type) where
  hdr : ℕ → Header
  freep : ℕ
  env : σ

/-- The process around the allocator: the address of `base`, `sbrk`, where a header can be
written, and the bytes that `sbrk` has added. -/
structure Host (σ : Type) where
  base : ℕ
  base_pos : 0 < base
  sbrk : ℕ → σ → Option ℕ × σ
  mapped : σ → ℕ → Bool
  mem : σ → ℕ → Bool

inductive Stop where
  | hang
  | trap
  deriving DecidableEq

variable {σ : Type}

def Heap.next (h : Heap σ) (a : ℕ) : ℕ := (h.hdr a).ptr

def Heap.size (h : Heap σ) (a : ℕ) : ℕ := (h.hdr a).size

def Heap.behind (h : Heap σ) (a : ℕ) : ℕ := (a+8*h.size a)%2^32

def Heap.put (h : Heap σ) (a ptr size : ℕ) : Heap σ :=
  {h with hdr := Function.update h.hdr a ⟨ptr,size⟩}

def stops (h : Heap σ) (bp p : ℕ) : Bool :=
  (p < bp && bp < h.next p) || (h.next p ≤ p && (p < bp || bp < h.next p))

def freeLoop (h : Heap σ) (bp : ℕ) : ℕ → ℕ → Option ℕ
  | 0, _ => none
  | n+1, p => if stops h bp p then some p else freeLoop h bp n (h.next p)

/-- `b` becomes the block behind `a`, or a part of it. -/
def link (h : Heap σ) (a b : ℕ) : Heap σ :=
  if h.behind a = b then h.put a (h.next b) ((h.size a+h.size b)%2^32)
  else h.put a b (h.size a)

def free (n : ℕ) (h : Heap σ) (ap : ℕ) : Except Stop (Heap σ) :=
  let bp := ap-8
  match freeLoop h bp n h.freep with
  | none => .error .hang
  | some p => .ok {link (link h bp (h.next p)) p bp with freep := p}

def morecore (H : Host σ) (n : ℕ) (h : Heap σ) (nunits : ℕ) : Except Stop (ℕ × Heap σ) :=
  let nu := if nunits < 4096 then 4096 else nunits
  match H.sbrk (nu*8%2^32) h.env with
  | (none,s) => .ok (0,{h with env := s})
  | (some p,s) =>
    if H.mapped s p then do
      let h' ← free n ({h with env := s}.put p (h.next p) nu) (p+8)
      pure (h'.freep,h')
    else .error .trap

/-- The block at `p` is large enough: all of it or its end is given out. -/
def take (h : Heap σ) (nunits prevp p : ℕ) : ℕ × Heap σ :=
  if h.size p = nunits then (p+8,{h.put prevp (h.next p) (h.size prevp) with freep := prevp})
  else
    let h₁ := h.put p (h.next p) (h.size p-nunits)
    let q := h₁.behind p
    (q+8,{h₁.put q (h₁.next q) nunits with freep := prevp})

def mallocLoop (H : Host σ) (nunits : ℕ) : ℕ → Heap σ → ℕ → ℕ → Except Stop (ℕ × Heap σ)
  | 0, _, _, _ => .error .hang
  | n+1, h, prevp, p =>
    if nunits ≤ h.size p then .ok (take h nunits prevp p)
    else if p = h.freep then do
      let (q,h) ← morecore H n h nunits
      if q = 0 then pure (0,h) else mallocLoop H nunits n h q (h.next q)
    else mallocLoop H nunits n h p (h.next p)

def units (nbytes : ℕ) : ℕ := (nbytes+7)%2^32/8+1

def start (H : Host σ) (h : Heap σ) : Heap σ :=
  if h.freep = 0 then {h.put H.base H.base 0 with freep := H.base} else h

def malloc (H : Host σ) (n : ℕ) (h : Heap σ) (nbytes : ℕ) : Except Stop (ℕ × Heap σ) :=
  mallocLoop H (units nbytes) n (start H h) (start H h).freep ((start H h).next (start H h).freep)

def Returns {α : Type} (call : ℕ → Except Stop α) (a : α) : Prop :=
  ∃ N, ∀ n ≥ N, call n = .ok a

theorem Returns.unique {α : Type} {call : ℕ → Except Stop α} {a b : α} (ha : Returns call a)
    (hb : Returns call b) : a = b := by
  obtain ⟨N,hN⟩ := ha
  obtain ⟨M,hM⟩ := hb
  have h := (hN _ (Nat.le_max_left N M)).symm.trans (hM _ (Nat.le_max_right N M))
  exact Except.ok.inj h

section Links

variable {h h' : Heap σ} {z : ℕ} {l : List Span} {a : Span}

@[simp] theorem next_put (h : Heap σ) (a p n x : ℕ) :
    (h.put a p n).next x = if x = a then p else h.next x := by
  by_cases e : x = a <;> simp [Heap.put, Heap.next, e]

@[simp] theorem size_put (h : Heap σ) (a p n x : ℕ) :
    (h.put a p n).size x = if x = a then n else h.size x := by
  by_cases e : x = a <;> simp [Heap.put, Heap.size, e]

def first : List Span → ℕ → ℕ
  | [], z => z
  | a::_, _ => a.start

def Links (h : Heap σ) : List Span → ℕ → Prop
  | [], _ => True
  | a::l, z => h.next a.start = first l z ∧ 8*h.size a.start = a.len ∧ Links h l z

theorem first_append (A B : List Span) (z : ℕ) : first (A++B) z = first A (first B z) := by
  cases A <;> rfl

theorem links_append {A B : List Span} :
    Links h (A++B) z ↔ Links h A (first B z) ∧ Links h B z := by
  induction A with
  | nil => simp [Links]
  | cons a A ih => simp only [List.cons_append, Links, ih, first_append, and_assoc]

theorem Links.congr (hl : Links h l z)
    (hn : ∀ a ∈ l, h'.next a.start = h.next a.start ∧ h'.size a.start = h.size a.start) :
    Links h' l z := by
  induction l with
  | nil => trivial
  | cons a l ih =>
    obtain ⟨h1,h2,h3⟩ := hl
    obtain ⟨n1,n2⟩ := hn a List.mem_cons_self
    exact ⟨n1.trans h1,by rw [n2, h2],ih h3 (fun b hb => hn b (List.mem_cons_of_mem a hb))⟩

theorem Links.sizes (hl : Links h l z) (ha : a ∈ l) : 8*h.size a.start = a.len := by
  obtain ⟨A,B,rfl⟩ := List.append_of_mem ha
  exact (links_append.mp hl).2.2.1

theorem exists_walk {L : List Span} (hr : Links h L (first L 0)) {s p : Span} (hs : s ∈ L)
    (hp : p ∈ L) : ∃ C, Links h C p.start ∧ first C p.start = s.start ∧ ∀ a ∈ C, a ∈ L ∧ a ≠ p := by
  obtain ⟨A,B,rfl⟩ := List.append_of_mem hs
  have hring : Links h (s::B++A) s.start := by
    rw [links_append] at hr
    refine links_append.mpr ⟨?_,hr.1⟩
    cases A with
    | nil => exact hr.2
    | cons a A => exact hr.2
  have hmem : ∀ a, a ∈ s::B++A ↔ a ∈ A++s::B := by
    intro a
    rw [List.mem_append, List.mem_append, or_comm]
  obtain ⟨C,D,he,hC⟩ := List.eq_append_cons_of_mem ((hmem p).mpr hp)
  have hfirst := congrArg (fun l => first l 0) he
  rw [he] at hring
  refine ⟨C,(links_append.mp hring).1,?_,fun a ha => ⟨(hmem a).mp ?_,fun e => hC (e ▸ ha)⟩⟩
  · simp only [first_append] at hfirst
    exact hfirst.symm
  · rw [he]
    exact List.mem_append_left _ ha

theorem freeLoop_walk {bp p : ℕ} {C : List Span} (hC : Links h C p)
    (hno : ∀ a ∈ C, stops h bp a.start = false) (hp : stops h bp p = true) {n : ℕ}
    (hn : C.length < n) : freeLoop h bp n (first C p) = some p := by
  induction C generalizing n with
  | nil =>
    obtain ⟨n,rfl⟩ : ∃ k, n = k+1 := ⟨n-1,by simp at hn; omega⟩
    rw [first, freeLoop, if_pos hp]
  | cons a C ih =>
    rw [List.length_cons] at hn
    obtain ⟨n,rfl⟩ : ∃ k, n = k+1 := ⟨n-1,by omega⟩
    rw [first, freeLoop, hno a List.mem_cons_self, if_neg (by decide), hC.1]
    exact ih hC.2.2 (fun b hb => hno b (List.mem_cons_of_mem a hb)) (by omega)

theorem link_frame (h : Heap σ) {a x : ℕ} (b : ℕ) (hx : x ≠ a) :
    (link h a b).next x = h.next x ∧ (link h a b).size x = h.size x := by
  rw [link]
  split_ifs <;> simp [hx]

theorem link_env (h : Heap σ) (a b : ℕ) : (link h a b).env = h.env := by
  rw [link]
  split_ifs <;> rfl

theorem links_link {B : List Span} (hB : Links h B z) (ha : 8*h.size a.start = a.len)
    (hlt : ∀ c ∈ B, a.start < c.start ∧ a.stop ≤ c.start ∧ 0 < c.len ∧ c.stop < 2^32)
    (hs : a.stop < 2^32) (hz : B = [] → a.stop ≠ z) :
    Links (link h a.start (first B z)) (merge a B) z := by
  have hend : h.behind a.start = a.stop := by
    rw [Heap.behind, ha]
    exact Nat.mod_eq_of_lt hs
  cases B with
  | nil =>
    have hne : ¬ h.behind a.start = first [] z := fun e => hz rfl (hend ▸ e)
    rw [link, if_neg hne]
    simp [merge, Links, ha]
  | cons c l =>
    obtain ⟨hc1,hc2,hc3,hc4⟩ := hlt c List.mem_cons_self
    have hframe : ∀ (p n : ℕ), ∀ b ∈ c::l, (h.put a.start p n).next b.start = h.next b.start ∧
        (h.put a.start p n).size b.start = h.size b.start := by
      intro p n b hb
      have hne : b.start ≠ a.start := Nat.ne_of_gt (hlt b hb).1
      simp [hne]
    rw [link, first, hend]
    split_ifs with e
    · rw [merge_join e hc3]
      refine ⟨?_,?_,hB.2.2.congr (fun b hb => hframe _ _ b (List.mem_cons_of_mem c hb))⟩
      · simp [hB.1]
      · have h2 := hB.2.1
        simp only [size_put, if_pos, Span.stop] at *
        omega
    · rw [merge_before (by omega)]
      exact ⟨by simp [first],by simp [ha],hB.congr (hframe _ _)⟩

end Links

end Yeet.Umalloc
