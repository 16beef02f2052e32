import YeetKernel.Kernel
import YeetKernel.MallocRuns

/-!
# Requests and the size of the process

`nbytes` is rounded to headers, multiplied by their size and read as a signed
number by the kernel. Here the kernel's side is its sizes: what `growproc` makes of the
size of the process, with or without free pages.
-/

namespace Yeet.Umalloc
open Kernel Spans

structure Process where
  sz : ℕ
  room : ℕ → Bool
  mem : ℕ → Bool

def allocSize (p : Process) (newsz : ℕ) : ℕ :=
  if KERNBASE ≤ newsz then 0
  else if newsz < p.sz then p.sz
  else if p.room newsz then newsz else 0

def deallocSize (p : Process) (newsz : ℕ) : ℕ := if p.sz ≤ newsz then p.sz else newsz

def Process.sized (p : Process) (n : ℕ) : Process :=
  {p with sz := n, mem := fun x => decide (x < n) && (p.mem x || decide (p.sz ≤ x))}

def growSize (n : ℕ) (p : Process) : Option Process :=
  let newsz := (p.sz+n)%2^32
  if n = 0 then some p
  else if n < 2^31 then
    if allocSize p newsz = 0 then none else some (p.sized (allocSize p newsz))
  else if deallocSize p newsz = 0 then none
  else some (p.sized (deallocSize p newsz))

def sysSbrk (n : ℕ) (p : Process) : Option ℕ × Process :=
  match growSize n p with
  | none => (none,p)
  | some p' => (some p.sz,p')

def process (base : ℕ) (hb : 0 < base) : Host Process where
  base := base
  base_pos := hb
  sbrk := sysSbrk
  mapped := fun p a => decide (a+8 ≤ (p.sz+4095)/4096*4096)
  mem := Process.mem

/-- The heap begins behind `base`, and the size has not been less than `lo`. -/
def Above (base lo : ℕ) (p : Process) : Prop :=
  base < p.sz ∧ p.sz < KERNBASE ∧ lo ≤ p.sz ∧ ∀ x, p.mem x = true → x < p.sz

theorem process_fresh (base lo : ℕ) (hb : 0 < base) : Fresh (process base hb) (Above base lo) := by
  intro p n hp h8 hn
  obtain ⟨h1,h2,h3,h4⟩ := hp
  have hk : KERNBASE = 2^31 := rfl
  have hnew : (p.sz+n)%2^32 = p.sz+n := Nat.mod_eq_of_lt (by omega)
  have hgrow : growSize n p = if KERNBASE ≤ p.sz+n ∨ p.room (p.sz+n) = false then none
      else some (p.sized (p.sz+n)) := by
    rw [growSize, if_neg (by omega), if_pos hn, hnew, allocSize, if_neg (show ¬ p.sz+n < p.sz by omega)]
    by_cases hc : KERNBASE ≤ p.sz+n
    · simp [hc]
    cases hr : p.room (p.sz+n) with
    | false => simp
    | true =>
      have hpos : ¬ p.sz+n = 0 := by omega
      simp [hc]
      omega
  have hsbrk : sysSbrk n p = if KERNBASE ≤ p.sz+n ∨ p.room (p.sz+n) = false then (none,p)
      else (some p.sz,p.sized (p.sz+n)) := by
    rw [sysSbrk, hgrow]
    split_ifs <;> rfl
  constructor
  · intro s' e
    simp only [process, hsbrk] at e
    split_ifs at e with hc
    · obtain ⟨-,rfl⟩ := Prod.mk.inj e
      exact ⟨⟨h1,h2,h3,h4⟩,rfl⟩
    · cases e
  intro a s' e
  simp only [process, hsbrk] at e
  split_ifs at e with hc
  · cases e
  obtain ⟨e1,rfl⟩ := Prod.mk.inj e
  obtain rfl := Option.some.inj e1
  rw [not_or, Nat.not_le] at hc
  refine ⟨⟨?_,hc.1,?_,?_⟩,?_,h1,by omega,h4,fun x => ?_⟩
  · show base < p.sz+n
    omega
  · show lo ≤ p.sz+n
    omega
  · intro x hx
    simp only [Process.sized, Bool.and_eq_true, decide_eq_true_eq] at hx
    exact hx.1
  · simp only [process, Process.sized, decide_eq_true_eq]
    omega
  simp only [process, Process.sized]
  cases hm : p.mem x with
  | true =>
    have := h4 x hm
    simp
    omega
  | false =>
    rw [Bool.eq_iff_iff, Bool.false_or, Bool.false_or, has_iff]
    simp
    omega

def Enough {base : ℕ} (hb : 0 < base) (nbytes : ℕ) (h : Heap Process) : Prop :=
  ∀ r h', Returns (fun n => malloc (process base hb) n h nbytes) (r,h') → r ≠ 0 →
    nbytes+8 ≤ 8*h'.size (r-8) ∧ (∀ x, r ≤ x → x < r+nbytes → h'.env.mem x = true) ∧
      h.env.sz ≤ h'.env.sz

theorem Enough.pair {base : ℕ} {hb : 0 < base} {nbytes : ℕ} {h : Heap Process}
    (he : Enough hb nbytes h) {x : ℕ × Heap Process}
    (hret : Returns (fun n => malloc (process base hb) n h nbytes) x) (hx : x.1 ≠ 0) :
    nbytes+8 ≤ 8*x.2.size (x.1-8) ∧ (∀ y, x.1 ≤ y → y < x.1+nbytes → x.2.env.mem y = true) ∧
      h.env.sz ≤ x.2.env.sz :=
  he x.1 x.2 hret hx

section Small

variable {base : ℕ} {hb : 0 < base} {nbytes : ℕ} {live : List Span} {h : Heap Process}

theorem enough_small (hn : rounded nbytes < 2^31)
    (hs : Sound (process base hb) (Above base 0) live h) : Enough hb nbytes h := by
  have hs' : Sound (process base hb) (Above base h.env.sz) live h := by
    rcases hs with ⟨h1,h2,h3,h4⟩ | ⟨l,inv⟩
    · exact Or.inl ⟨h1,h2,⟨h3.1,h3.2.1,Nat.le_refl _,h3.2.2.2⟩,h4⟩
    · exact Or.inr ⟨l,⟨inv.host.1,inv.host.2.1,Nat.le_refl _,inv.host.2.2.2⟩,inv.ring,inv.freep,
        inv.gapped,inv.sizes,inv.blocks,inv.cover⟩
  intro r h' hret hr
  obtain ⟨r',h₂,hret',hcases⟩ := hs'.malloc (process_fresh base _ hb) hn
  obtain ⟨rfl,rfl⟩ := Prod.mk.inj (hret.unique hret')
  rcases hcases with ⟨e,-⟩ | ⟨b,l',rfl,hlen,inv⟩
  · exact absurd e hr
  have hsize := inv.sizes b List.mem_cons_self
  rw [rounded] at hlen
  rw [Nat.add_sub_cancel, hsize]
  refine ⟨by omega,fun x h1 h2 => ?_,inv.host.2.2.1⟩
  have hx : b.has x = true := has_iff.mpr (by omega)
  have hcov := inv.cover x
  rw [cover_append, cover_cons, hx, Bool.toNat_true] at hcov
  cases hm : h'.env.mem x with
  | true => rfl
  | false =>
    have hz : ((process base hb).mem h'.env x).toNat = 0 := by
      show (h'.env.mem x).toNat = 0
      rw [hm]
      rfl
    omega

end Small

section First

variable {σ : Type} {H : Host σ} {h : Heap σ} {nbytes a : ℕ} {s : σ}

theorem malloc_first (nu : ℕ) (h0 : h.freep = 0)
    (hnu : nu = if units nbytes < 4096 then 4096 else units nbytes)
    (hs : H.sbrk (nu*8%2^32) h.env = (some a,s)) (hm : H.mapped s a = true) (ha : H.base < a)
    (hbase : H.base < 2^32) (hne : (a+8*nu)%2^32 ≠ H.base) :
    ∃ g : Heap σ, g.env = s ∧ g.size a = nu ∧
      Returns (fun n => malloc H n h nbytes) (take g (units nbytes) H.base a) := by
  obtain ⟨g₀,hg₀⟩ : ∃ g₀, g₀ = {start H h with env := s}.put a ((start H h).next a) nu := ⟨_,rfl⟩
  have hstart : (start H h).freep = H.base ∧ (start H h).next H.base = H.base ∧
      (start H h).size H.base = 0 ∧ (start H h).env = h.env := by
    rw [start, if_pos h0]
    simp [Heap.next, Heap.size, Heap.put]
  have hab : H.base ≠ a := Nat.ne_of_lt ha
  have hg : g₀.freep = H.base ∧ g₀.next H.base = H.base ∧ g₀.size H.base = 0 ∧ g₀.size a = nu ∧
      g₀.env = s := by
    rw [hg₀]
    simp only [next_put, size_put, if_neg hab, if_pos]
    exact ⟨hstart.1,hstart.2.1,hstart.2.2.1,trivial,rfl⟩
  have hlink : ∀ n, free (n+1) g₀ (a+8) =
      .ok {(g₀.put a H.base nu).put H.base a 0 with freep := H.base} := by
    intro n
    have hstop : stops g₀ a H.base = true := by simp [stops, hg.2.1, ha]
    have h1 : g₀.behind a ≠ H.base := by
      rw [Heap.behind, hg.2.2.2.1]
      exact hne
    have h2 : (g₀.put a H.base nu).behind H.base ≠ a := by
      rw [Heap.behind, size_put, if_neg hab, hg.2.2.1]
      omega
    simp only [free, Nat.add_sub_cancel, hg.1, freeLoop, hstop, if_pos, hg.2.1, link, if_neg h1,
      hg.2.2.2.1, if_neg h2, size_put, if_neg hab, hg.2.2.1]
  refine ⟨{(g₀.put a H.base nu).put H.base a 0 with freep := H.base},hg.2.2.2.2,?_,2,fun n hn => ?_⟩
  · simp [Heap.size, Heap.put, hab.symm]
  obtain ⟨n,rfl⟩ : ∃ k, n = k+2 := ⟨n-2,by omega⟩
  have hu : 0 < units nbytes := by simp [units]
  have hle : units nbytes ≤ nu := by
    rw [hnu]
    split_ifs <;> omega
  have hb := H.base_pos
  simp only [malloc, hstart.1, hstart.2.1]
  rw [mallocLoop, hstart.2.2.1, if_neg (by omega), if_pos hstart.1.symm]
  simp only [morecore, ← hnu, hstart.2.2.2, hs, hm, if_pos, ← hg₀, hlink]
  show (if H.base = 0 then _ else _) = _
  rw [if_neg (by omega)]
  have hn1 : Heap.next {(g₀.put a H.base nu).put H.base a 0 with freep := H.base} H.base = a := by
    simp [Heap.next, Heap.put]
  have hn2 : Heap.size {(g₀.put a H.base nu).put H.base a 0 with freep := H.base} a = nu := by
    simp [Heap.size, Heap.put, hab.symm]
  rw [hn1, mallocLoop, hn2, if_pos hle]

end First

def onePage : Heap Process :=
  ⟨fun _ => ⟨0,0⟩,0,⟨4084,fun _ => true,fun _ => false⟩⟩

theorem onePage_sound : Sound (process 8 (by decide)) (Above 8 0) [] onePage := by
  refine Or.inl ⟨rfl,rfl,⟨by decide,by decide,by decide,?_⟩,fun _ => rfl⟩
  intro x hx
  exact absurd hx (by simp [onePage])

theorem onePage_first (nbytes : ℕ) (h : 4096 = if units nbytes < 4096 then 4096 else units nbytes) :
    ∃ g : Heap Process, g.size 4084 = 4096 ∧
      Returns (fun n => malloc (process 8 (by decide)) n onePage nbytes)
        (take g (units nbytes) 8 4084) := by
  have hs : (process 8 (by decide)).sbrk (4096*8%2^32) onePage.env =
      (some 4084,onePage.env.sized 36852) := by
    simp [process, sysSbrk, growSize, allocSize, onePage, KERNBASE]
  obtain ⟨g,-,hsize,hret⟩ := malloc_first (H := process 8 (by decide)) (h := onePage) 4096 rfl
    h hs (by simp [process, Process.sized]) (by decide) (by decide) (by decide)
  exact ⟨g,hsize,hret⟩

def left (call : Except Stop (ℕ × Heap Process)) : Heap Process :=
  match call with
  | .ok x => x.2
  | .error _ => onePage

def oneBlock : Heap Process := left (malloc (process 8 (by decide)) 3 onePage 100)

def twoBlocks : Heap Process := left (malloc (process 8 (by decide)) 3 oneBlock 200)

theorem onePage_malloc : Returns (fun n => malloc (process 8 (by decide)) n onePage 100)
    (36748,oneBlock) := by
  refine ⟨3,fun n hn => ?_⟩
  obtain ⟨k,rfl⟩ := Nat.exists_eq_add_of_le' hn
  rfl

theorem oneBlock_malloc : Returns (fun n => malloc (process 8 (by decide)) n oneBlock 200)
    (36540,twoBlocks) := by
  refine ⟨3,fun n hn => ?_⟩
  obtain ⟨k,rfl⟩ := Nat.exists_eq_add_of_le' hn
  rfl

/-- Two blocks are taken and the first is freed. -/
theorem heap_runs_freed : ∃ h : Heap Process,
    Relation.ReflTransGen (Step (process 8 (by decide))) ⟨onePage,[]⟩ ⟨h,[⟨36532,208⟩]⟩ ∧
      Sound (process 8 (by decide)) (Above 8 0) [⟨36532,208⟩] h := by
  have hmem : ∀ x, onePage.env.mem x = true → x < onePage.env.sz := fun x hx => by cases hx
  have run₂ : Relation.ReflTransGen (Step (process 8 (by decide))) ⟨onePage,[]⟩
      ⟨twoBlocks,[⟨36532,208⟩,⟨36740,112⟩]⟩ := by
    have h₁ : rounded 100 < 2^31 := by decide
    have h₂ : rounded 200 < 2^31 := by decide
    have s₁ := Step.malloc (w := ⟨onePage,[]⟩) h₁ onePage_malloc
    have s₂ := Step.malloc (w := ⟨oneBlock,[⟨36740,112⟩]⟩) h₂ oneBlock_malloc
    exact (Relation.ReflTransGen.single s₁).tail s₂
  have hI : Above 8 0 onePage.env := ⟨by decide,by decide,by decide,hmem⟩
  obtain ⟨-,-,hfree⟩ := heap_runs (process_fresh 8 0 (by decide)) rfl hI (fun _ => rfl) run₂
  obtain ⟨h,ret⟩ := hfree ⟨36740,112⟩ (by decide)
  have run₃ := run₂.tail (Step.free (by decide) ret)
  exact ⟨h,run₃,(heap_runs (process_fresh 8 0 (by decide)) rfl hI (fun _ => rfl) run₃).1⟩

theorem onePage_grows {u : ℕ} (hlo : 2^28 ≤ u) (hhi : u ≤ 2^29) :
    ∃ p, sysSbrk (u*8%2^32) onePage.env = (some 4084,p) ∧ 4 ≤ p.sz ∧ p.sz ≤ 4084 ∧
      p.mem 4092 = false := by
  have hz : onePage.env.sz = 4084 := rfl
  by_cases h0 : u = 2^29
  · subst h0
    exact ⟨onePage.env,rfl,by decide,by decide,rfl⟩
  have harg : u*8%2^32 = 8*u := by omega
  obtain ⟨z,hzz⟩ : ∃ z, z = deallocSize onePage.env ((4084+8*u)%2^32) := ⟨_,rfl⟩
  have hzle : 4 ≤ z ∧ z ≤ 4084 := by
    rw [hzz, deallocSize, hz]
    split_ifs <;> omega
  refine ⟨onePage.env.sized z,?_,hzle.1,hzle.2,?_⟩
  · rw [harg, sysSbrk, growSize, if_neg (by omega), if_neg (by omega), hz, ← hzz,
      if_neg (by omega)]
  · simp only [Process.sized, Bool.and_eq_false_iff, decide_eq_false_iff_not]
    left
    omega

theorem not_enough_large {nbytes : ℕ} (hlo : 2^31-16 < nbytes) (hhi : nbytes < 2^32) :
    ¬ Enough (show 0 < 8 by decide) nbytes onePage := by
  intro henough
  by_cases hwrap : 2^32-7 ≤ nbytes
  · -- the rounding wraps: one header is enough
    have hu : units nbytes = 1 := by
      rw [units]
      omega
    have hnu : 4096 = if units nbytes < 4096 then 4096 else units nbytes := by
      simp [hu]
    obtain ⟨g,hsize,hret⟩ := onePage_first _ hnu
    rw [hu, take, if_neg (by rw [hsize]; decide)] at hret
    have h := (henough.pair hret (Nat.succ_ne_zero _)).1
    simp [Heap.size, Heap.put] at h
    omega
  have hu : 2^28 ≤ units nbytes ∧ units nbytes ≤ 2^29 := by
    rw [units]
    omega
  have hnu : units nbytes = if units nbytes < 4096 then 4096 else units nbytes := by
    rw [if_neg (by omega)]
  obtain ⟨p,hs,h4,hle,hmem⟩ := onePage_grows hu.1 hu.2
  obtain ⟨g,henv,hsize,hret⟩ := malloc_first (H := process 8 (by decide)) (h := onePage) (a := 4084)
    _ rfl hnu hs (by simp only [process, decide_eq_true_eq]; omega) (by decide) (by decide)
    (by show _ ≠ 8; omega)
  rw [take, if_pos hsize] at hret
  have h := (henough.pair hret (Nat.succ_ne_zero _)).2.1 4092
  simp [Heap.put, henv, hmem] at h
  omega

/-- `malloc` gives enough memory, of the process and without making it smaller, in every heap,
just if the rounded request is less than 2^31. -/
theorem malloc_enough_iff (nbytes : BitVec 32) :
    (∀ (base : ℕ) (hb : 0 < base) (live : List Span) (h : Heap Process),
      Sound (process base hb) (Above base 0) live h → Enough hb nbytes.toNat h) ↔
      nbytes.toNat ≤ 2^31-16 := by
  constructor
  · intro h
    by_contra hn
    exact not_enough_large (by omega) nbytes.isLt (h 8 (by decide) [] onePage onePage_sound)
  · intro hn base hb live h hs
    exact enough_small (by rw [rounded]; omega) hs

/-- A request for nearly all of the address space is met with one header. -/
theorem malloc_wraps : ¬ Enough (show 0 < 8 by decide) (2^32-1) onePage :=
  not_enough_large (by decide) (by decide)

end Yeet.Umalloc
