import YeetKernel.VmCalls
import YeetKernel.Ledger

/-!
# Where the physical pages are

Each process is given what its call holds: pages in its hands, its address
space and the one it is building or taking apart, the slot it is filling and
the zombie it is reaping. With that every managed page has at most one
place. The invariant relates the address spaces to the page tables in memory
and to the process table.
-/

namespace Yeet.Vm
open Yeet.Kernel Bytes Function
open StateLists (Slot)

/-- A directory and its tables; those below `low` are freed already. -/
structure Space where
  root : Page
  tab : ℕ → Option Page
  low : ℕ
  whole : Bool

/-- `bare` tells that the slot `kid` or `reap` has no kernel stack, `upto` how
much memory the processor that boots has given to the allocator. -/
structure Hold where
  hand : List Page
  own : Option Space
  new : Option Space
  kid : Option Slot
  reap : Option Slot
  bare : Bool
  upto : Option ℕ

def Hold.space (r : Hold) : Bool → Option Space
  | false => r.own
  | true => r.new

def Hold.setSpace (r : Hold) (sp : Option Space) : Bool → Hold
  | false => {r with own := sp}
  | true => {r with new := sp}

@[simp] theorem Hold.space_setSpace (r : Hold) (sp : Option Space) (b : Bool) :
    (r.setSpace sp b).space b = sp := by
  cases b <;> rfl

theorem Hold.space_setSpace_ne (r : Hold) (sp : Option Space) {b c : Bool} (h : c ≠ b) :
    (r.setSpace sp b).space c = r.space c := by
  cases b <;> cases c <;> first | rfl | exact absurd rfl h

@[simp] theorem Hold.hand_setSpace (r : Hold) (sp : Option Space) (b : Bool) :
    (r.setSpace sp b).hand = r.hand := by
  cases b <;> rfl

@[simp] theorem Hold.kid_setSpace (r : Hold) (sp : Option Space) (b : Bool) :
    (r.setSpace sp b).kid = r.kid := by
  cases b <;> rfl

@[simp] theorem Hold.reap_setSpace (r : Hold) (sp : Option Space) (b : Bool) :
    (r.setSpace sp b).reap = r.reap := by
  cases b <;> rfl

@[simp] theorem Hold.bare_setSpace (r : Hold) (sp : Option Space) (b : Bool) :
    (r.setSpace sp b).bare = r.bare := by
  cases b <;> rfl

@[simp] theorem Hold.upto_setSpace (r : Hold) (sp : Option Space) (b : Bool) :
    (r.setSpace sp b).upto = r.upto := by
  cases b <;> rfl

def Hold.drop (r : Hold) (g : Page) : Hold := {r with hand := r.hand.erase g}

@[simp] theorem Hold.space_drop (r : Hold) (g : Page) (b : Bool) : (r.drop g).space b = r.space b := by
  cases b <;> rfl

inductive Place where
  | free
  | stack (q : Slot)
  | dir (p : Owner) (b : Bool)
  | table (p : Owner) (b : Bool) (i : ℕ)
  | frame (p : Owner) (b : Bool) (i j : ℕ)
  | pipe
  deriving DecidableEq

def tabOf (o : Option Space) (i : ℕ) : Option Page := o.bind (fun sp => sp.tab i)

def State.stackOf (s : State) (q : Slot) : Option Page :=
  if s.stage q = .unused then none else s.kstack q

/-- The frame mapped by entry `j` of the table for the directory entry `i`, if
the address is below KERNBASE. -/
def State.frameOf (s : State) (t : Option Page) (i j : ℕ) : Option Page :=
  if i < NPDENTRIES/2 ∧ j < NPTENTRIES then t.bind (fun t => s.target t j) else none

def ledger (s : State) (ρ : Owner → Hold) : Place ⊕ Owner → List Page
  | .inl .free => s.freelist
  | .inl (.stack q) => (s.stackOf q).toList
  | .inl (.dir p b) => (((ρ p).space b).map Space.root).toList
  | .inl (.table p b i) => (tabOf ((ρ p).space b) i).toList
  | .inl (.frame p b i j) => (s.frameOf (tabOf ((ρ p).space b) i) i j).toList
  | .inl .pipe => s.pipes.map Pipe.page
  | .inr p => (ρ p).hand

def Space.Reads (s : State) (sp : Space) : Prop :=
  ∀ i, sp.tab i = if sp.low ≤ i ∧ i < NPDENTRIES then s.target sp.root i else none

def State.NoUser (s : State) (t : Page) : Prop :=
  ∀ j < NPTENTRIES, present (s.pte t j) = true → userBit (s.pte t j) = false

structure Spaces (s : State) (ρ : Owner → Hold) : Prop where
  reads : ∀ p b sp, (ρ p).space b = some sp → sp.Reads s
  whole : ∀ p b sp, (ρ p).space b = some sp →
    (b = false → sp.whole = true) ∧ (sp.whole = true → sp.low = 0)
  kernel : ∀ p b i t, tabOf ((ρ p).space b) i = some t → NPDENTRIES/2 ≤ i → s.NoUser t

/-- A holding without its pages: of an address space only the directory, and
whether it is whole if that is in question. -/
structure Shape where
  own : Option Page
  new : Option (Page × Bool)
  kid : Option Slot
  reap : Option Slot
  bare : Bool
  upto : Option ℕ

def Space.key (sp : Space) : Page × Bool := (sp.root,sp.whole)

def Hold.shape (r : Hold) : Shape := ⟨r.own.map Space.root,r.new.map Space.key,r.kid,r.reap,r.bare,r.upto⟩

def Shape.rest (f : Shape) : Prop := f.new = none ∧ f.kid = none ∧ f.reap = none

structure Slots (s : State) (σ : Owner → Shape) : Prop where
  building : ∀ p d, s.building p = some d → (σ p).new = some (d,true)
  kernel : s.kpgdir ≠ none → (σ none).own = s.kpgdir
  image : ∀ q, s.stage q = .alive → s.pgdir q ≠ none ∧ (σ (some q)).own = s.pgdir q
  corpse : ∀ q, s.stage q = .zombie → s.reaping ≠ some q →
    s.pgdir q ≠ none ∧ (σ (some q)).own = s.pgdir q
  small : ∀ q, s.stage q = .alive → s.sz q < KERNBASE
  idle : ∀ q, s.stage q ≠ .alive → (σ (some q)).rest
  bare : ∀ q, s.stage q = .unused → s.kstack q = none
  kid : ∀ p q, (σ p).kid = some q → s.stage q = .embryo ∧ ((σ p).bare = true → s.kstack q = none)
  kids : ∀ p p' q, (σ p).kid = some q → (σ p').kid = some q → p = p'
  reap : ∀ p q, (σ p).reap = some q →
    s.stage q = .zombie ∧ s.reaping = some q ∧ ((σ p).bare = true → s.kstack q = none)
  reaps : ∀ p p' q, (σ p).reap = some q → (σ p').reap = some q → p = p'
  reaping : ∀ z, s.reaping = some z → s.stage z = .zombie
  booted : ∀ t, (σ none).upto = some t → s.booted = true ∧ s.top = t
  unborn : s.booted = false → s.top = 0

def Image.within (im : Image) (top g : ℕ) : Prop := im.kend ≤ g ∧ g < top

structure Inv (im : Image) (s : State) (ρ : Owner → Hold) : Prop where
  top : s.top ≤ PHYSTOP/PGSIZE
  pages : Ledger.Sound (im.within s.top) (ledger s ρ)
  spaces : Spaces s ρ
  slots : Slots s (fun p => (ρ p).shape)

section Entries

variable {s : State}

@[simp] theorem pte_fill_ne {g t : Page} (h : t ≠ g) (b : PageData) (j : ℕ) :
    (s.fill g b).pte t j = s.pte t j := by
  simp only [State.pte, State.fill, update_of_ne h]

variable {t : Page} {j : ℕ}

theorem target_congr {s s' : State} (h : s'.pte t j = s.pte t j) :
    s'.target t j = s.target t j := by
  simp only [State.target, h]

theorem pte_setPte_ne {t t' : Page} {j j' : ℕ} (h : t' ≠ t ∨ j' ≠ j) (w : Uint) :
    (s.setPte t j w).pte t' j' = s.pte t' j' := by
  by_cases ht : t' = t
  · subst ht
    have hj : j' ≠ j := h.resolve_left (fun e => e rfl)
    simp only [State.pte, State.setPte, State.fill, update_self]
    exact getField_setField_ne _ (k := 4) w (by omega)
  · exact pte_fill_ne ht _ _

theorem pte_setPte (hj : j < NPTENTRIES) (w : Uint) : (s.setPte t j w).pte t j = w := by
  simp only [State.pte, State.setPte, State.fill, update_self]
  exact getField_setField _ (k := 4) w (by simp only [NPTENTRIES, PGSIZE] at *; omega)

theorem getField_zero {n : ℕ} (o k : ℕ) : getField (fun _ : Fin n => (0 : Byte)) o k = 0 := by
  refine getField_eq (fun i _ => ?_)
  simp [byteAt]

theorem pte_zeroed (s : State) (g : Page) (j : ℕ) : (s.fill g (fun _ => 0)).pte g j = 0 := by
  simp only [State.pte, State.fill, update_self]
  exact getField_zero (4*j) 4

theorem target_zeroed (s : State) (g : Page) (j : ℕ) :
    (s.fill g (fun _ => 0)).target g j = none := by
  simp only [State.target, pte_zeroed]
  rfl

variable {perm : Uint} {g : ℕ}

theorem flags_lt (hp : perm < 4096) : (perm ||| PTE_P).toNat < 2^12 := by
  rw [BitVec.toNat_or]
  exact Nat.or_lt_two_pow (BitVec.lt_def.mp hp) (by decide)

theorem toNat_mkPte (hg : g < 2^20) (hp : perm < 4096) :
    (mkPte g perm).toNat = g*4096+(perm ||| PTE_P).toNat := by
  have hlow := flags_lt hp
  rw [mkPte, BitVec.or_assoc, BitVec.toNat_or, BitVec.toNat_ofNat]
  have : g*PGSIZE%2^32 = 2^12*g := by
    simp only [PGSIZE]
    omega
  rw [this, ← Nat.two_pow_add_eq_or_of_lt hlow]
  omega

theorem pteAddr_mkPte (hg : g < 2^20) (hp : perm < 4096) : pteAddr (mkPte g perm) = g := by
  have hlow := flags_lt hp
  have hdiv : (g*4096+(perm ||| PTE_P).toNat)/2^12 = g := by omega
  rw [pteAddr, BitVec.toNat_ushiftRight, toNat_mkPte hg hp, Nat.shiftRight_eq_div_pow]
  exact hdiv

theorem pteFlags_lt (w : Uint) : pteFlags w < 4096 := by
  rw [BitVec.lt_def, pteFlags, BitVec.toNat_and]
  exact Nat.lt_of_le_of_lt Nat.and_le_right (by decide)

theorem present_mkPte (g : Page) (perm : Uint) : present (mkPte g perm) = true := by
  have : (mkPte g perm &&& PTE_P).getLsbD 0 = true := by
    simp [mkPte, PTE_P]
  simp only [present, bne_iff_ne]
  intro h
  rw [show (0 : Uint) = 0#32 from rfl] at h
  rw [h] at this
  simp at this

theorem userBit_eq (w : Uint) : userBit w = w.getLsbD 2 := by
  simp only [userBit, PTE_U]
  rw [show (0x004 : Uint) = BitVec.twoPow 32 2 from rfl, BitVec.and_twoPow]
  split
  · rename_i h
    rw [h]
    rfl
  · rename_i h
    simpa using h

theorem present_eq (w : Uint) : present w = w.getLsbD 0 := by
  simp only [present, PTE_P]
  rw [show (0x001 : Uint) = BitVec.twoPow 32 0 from rfl, BitVec.and_twoPow]
  split
  · rename_i h
    rw [h]
    rfl
  · rename_i h
    simpa using h

theorem userBit_mkPte (g : ℕ) : userBit (mkPte g perm) = userBit perm := by
  rw [userBit_eq, userBit_eq]
  have h2 : (BitVec.ofNat 32 (g*PGSIZE)).getLsbD 2 = false := by
    rw [BitVec.getLsbD_ofNat]
    rw [show g*PGSIZE = 2^12*g from Nat.mul_comm g (2^12), Nat.testBit_two_pow_mul]
    rfl
  rw [mkPte, BitVec.getLsbD_or, BitVec.getLsbD_or, h2, Bool.false_or, show PTE_P.getLsbD 2 = false from rfl,
    Bool.or_false]

end Entries

end Yeet.Vm
