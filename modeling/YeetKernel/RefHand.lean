import YeetKernel.FsMachine
import YeetKernel.Threads
import YeetKernel.Tally

/-!
# References in the hands of processes

Each process is given a hand: its descriptors and its current directory, the
references it holds besides them, the files it has allocated and not yet set
up, and the child it is making. The invariant says that every reference
count is the number of pointers plus the references in hand, which may be
negative where a count is dropped before its pointer is cleared.
-/

namespace Yeet.RefHand
open Kernel Fs Tally Function

structure Hand where
  ofile : Fd → Option Fileno
  cwd : Option Ino
  itok : Ino → ℤ
  ftok : Fileno → ℤ
  fresh : Fileno → Bool
  kid : Option (Procno × ℕ)

namespace Hand

def hold (h : Hand) (f : Fileno) : ℤ := count h.ofile f+h.ftok f

def ihold (h : Hand) (i : Ino) : ℤ := point h.cwd i+h.itok i

def addI (h : Hand) (i : Ino) (n : ℤ) : Hand := {h with itok := update h.itok i (h.itok i+n)}

def addF (h : Hand) (f : Fileno) (n : ℤ) : Hand := {h with ftok := update h.ftok f (h.ftok f+n)}

def setFresh (h : Hand) (f : Fileno) (b : Bool) : Hand := {h with fresh := update h.fresh f b}

def takeIp (h : Hand) (o : Option Ino) : Hand := {h with itok := fun i => h.itok i+point o i}

def giveIp (h : Hand) (o : Option Ino) : Hand := {h with itok := fun i => h.itok i-point o i}

def setSlot (h : Hand) (fd : Fd) (o : Option Fileno) : Hand :=
  {h with ofile := update h.ofile fd o, ftok := fun f => h.ftok f+point (h.ofile fd) f-point o f}

def setCwd (h : Hand) (o : Option Ino) : Hand :=
  {h with cwd := o, itok := fun i => h.itok i+point h.cwd i-point o i}

def setKid (h : Hand) (k : Option (Procno × ℕ)) : Hand := {h with kid := k}

structure AtRest (h : Hand) : Prop where
  itok : ∀ i, h.itok i = 0
  ftok : ∀ f, h.ftok f = 0
  fresh : ∀ f, h.fresh f = false
  kid : h.kid = none

def Empty (h : Hand) : Prop := (∀ fd, h.ofile fd = none) ∧ h.cwd = none

variable (h : Hand)

@[simp] theorem hold_setFresh (g : Fileno) (b : Bool) (f : Fileno) :
    (h.setFresh g b).hold f = h.hold f := rfl

@[simp] theorem hold_setKid (k : Option (Procno × ℕ)) (f : Fileno) :
    (h.setKid k).hold f = h.hold f := rfl

theorem hold_addF (g : Fileno) (n : ℤ) (f : Fileno) :
    (h.addF g n).hold f = h.hold f+if f = g then n else 0 := by
  simp only [hold, addF, update_apply]
  split
  · rename_i e
    subst e
    omega
  · omega

@[simp] theorem hold_setSlot (fd : Fd) (o : Option Fileno) (f : Fileno) :
    (h.setSlot fd o).hold f = h.hold f := by
  simp only [hold, setSlot, count_update]
  omega

@[simp] theorem ihold_addF (f : Fileno) (n : ℤ) (i : Ino) : (h.addF f n).ihold i = h.ihold i := rfl

@[simp] theorem ihold_setFresh (f : Fileno) (b : Bool) (i : Ino) :
    (h.setFresh f b).ihold i = h.ihold i := rfl

theorem ihold_addI (j : Ino) (n : ℤ) (i : Ino) :
    (h.addI j n).ihold i = h.ihold i+if i = j then n else 0 := by
  simp only [ihold, addI, update_apply]
  split
  · rename_i e
    subst e
    omega
  · omega

@[simp] theorem ihold_setCwd (o : Option Ino) (i : Ino) : (h.setCwd o).ihold i = h.ihold i := by
  simp only [ihold, setCwd]
  omega

theorem ihold_takeIp (o : Option Ino) (i : Ino) : (h.takeIp o).ihold i = h.ihold i+point o i := by
  simp only [ihold, takeIp]
  omega

theorem ihold_giveIp (o : Option Ino) (i : Ino) : (h.giveIp o).ihold i = h.ihold i-point o i := by
  simp only [ihold, giveIp]
  omega

@[simp] theorem hold_takeIp (o : Option Ino) (f : Fileno) : (h.takeIp o).hold f = h.hold f := rfl

@[simp] theorem takeIp_none : h.takeIp none = h := by
  simp [takeIp]

@[simp] theorem giveIp_none : h.giveIp none = h := by
  simp [giveIp]

theorem takeIp_some (i : Ino) : h.takeIp (some i) = h.addI i 1 := by
  simp only [takeIp, addI, Hand.mk.injEq, true_and, and_true]
  funext j
  rw [point_some, update_apply]
  split
  · rename_i e
    rw [e]
  · exact add_zero _

theorem giveIp_some (i : Ino) : h.giveIp (some i) = h.addI i (-1) := by
  simp only [giveIp, addI, Hand.mk.injEq, true_and, and_true]
  funext j
  rw [point_some, update_apply]
  split
  · rename_i e
    rw [e]
    rfl
  · exact sub_zero _

theorem addI_addI (i : Ino) (m n : ℤ) : (h.addI i m).addI i n = h.addI i (m+n) := by
  simp [addI, add_assoc]

theorem addI_comm {i j : Ino} (e : i ≠ j) (m n : ℤ) :
    (h.addI i m).addI j n = (h.addI j n).addI i m := by
  simp only [addI, update_of_ne e, update_of_ne e.symm, update_comm e]

@[simp] theorem addI_zero (i : Ino) : h.addI i 0 = h := by
  simp [addI]

@[simp] theorem put_back (i : Ino) : (h.addI i 1).addI i (-1) = h := by
  simp [addI_addI]

@[simp] theorem put_first (i j : Ino) : ((h.addI i 1).addI j 1).addI i (-1) = h.addI j 1 := by
  by_cases e : i = j
  · subst e
    simp [addI_addI]
  · rw [addI_comm h e, put_back]

theorem one_le_hold {fd : Fd} {f : Fileno} (e : h.ofile fd = some f) (hf : 0 ≤ h.ftok f) :
    1 ≤ h.hold f := by
  have h1 := count_pos e
  unfold hold
  omega

end Hand

def fileIp (x : File) : Option Ino :=
  match x.type with
  | .inode => x.ip
  | _ => none

def files (s : State) (i : Ino) : ℤ := count (fun f => fileIp (s.file f)) i

def Inodes (s : State) (ρ : Procno → Hand) : Prop := ∀ i, s.iref i = files s i+∑ p, (ρ p).ihold i

structure Files (s : State) (ρ : Procno → Hand) : Prop where
  ref : ∀ f, (s.file f).ref = ∑ p, (ρ p).hold f
  nonneg : ∀ p f, 0 ≤ (ρ p).hold f
  closed : ∀ f, (s.file f).ref = 0 → (s.file f).type = .none
  fresh : ∀ p f, (ρ p).fresh f = true →
    (s.file f).type = .none ∧ 1 ≤ (ρ p).hold f ∧ ∀ q, q ≠ p → (ρ q).hold f = 0

/-- The hands match the process table; a child that is being made has its
descriptors from the given number on still free. -/
structure Procs (s : State) (ρ : Procno → Hand) : Prop where
  ofile : ∀ p, (s.proc p).ofile = (ρ p).ofile
  cwd : ∀ p, (s.proc p).cwd = (ρ p).cwd
  idle : ∀ p, (s.proc p).status ≠ .live → (ρ p).AtRest
  empty : ∀ p, (s.proc p).status = .unused ∨ (s.proc p).status = .zombie → (ρ p).Empty
  kid : ∀ p q k, (ρ p).kid = some (q,k) → (s.proc q).status = .embryo ∧
    (∀ fd : Fd, k ≤ fd.val → (ρ q).ofile fd = none) ∧ (k ≤ NOFILE → (ρ q).cwd = none)
  single : ∀ p p' q k k', (ρ p).kid = some (q,k) → (ρ p').kid = some (q,k') → p = p'

structure Inv (s : State) (ρ : Procno → Hand) : Prop where
  inodes : Inodes s ρ
  files : Files s ρ
  procs : Procs s ρ

section Parts

variable {s s' : State} {ρ : Procno → Hand} {p : Procno} {h' : Hand}

theorem Inodes.own (hi : Inodes s ρ)
    (e : ∀ i, s'.iref i-files s' i-h'.ihold i = s.iref i-files s i-(ρ p).ihold i) :
    Inodes s' (update ρ p h') := by
  intro i
  have h1 := hi i
  have h2 := e i
  rw [sum_update ρ (fun h => h.ihold i)]
  omega

theorem Files.own (hi : Files s ρ)
    (href : ∀ f, (s'.file f).ref-h'.hold f = (s.file f).ref-(ρ p).hold f)
    (hpos : ∀ f, 0 ≤ h'.hold f) (hclosed : ∀ f, (s'.file f).ref = 0 → (s'.file f).type = .none)
    (hown : ∀ f, h'.fresh f = true →
      (s'.file f).type = .none ∧ 1 ≤ h'.hold f ∧ ∀ q, q ≠ p → (ρ q).hold f = 0)
    (hother : ∀ q f, q ≠ p → (ρ q).fresh f = true →
      (s'.file f).type = .none ∧ h'.hold f = 0) : Files s' (update ρ p h') where
  ref f := by
    have h1 := hi.ref f
    have h2 := href f
    rw [sum_update ρ (fun h => h.hold f)]
    omega
  nonneg q f := by
    by_cases e : q = p
    · subst e
      rw [update_self]
      exact hpos f
    · rw [update_of_ne e]
      exact hi.nonneg q f
  closed := hclosed
  fresh q f hf := by
    by_cases e : q = p
    · subst e
      rw [update_self] at hf ⊢
      obtain ⟨h1,h2,h3⟩ := hown f hf
      refine ⟨h1,h2,fun q' hq => ?_⟩
      rw [update_of_ne hq]
      exact h3 q' hq
    rw [update_of_ne e] at hf ⊢
    obtain ⟨h1,h2⟩ := hother q f e hf
    refine ⟨h1,(hi.fresh q f hf).2.1,fun q' hq => ?_⟩
    by_cases e' : q' = p
    · subst e'
      rw [update_self]
      exact h2
    · rw [update_of_ne e']
      exact (hi.fresh q f hf).2.2 q' hq

theorem Procs.own (hi : Procs s ρ) (hl : (s.proc p).status = .live)
    (hst : ∀ q, (s'.proc q).status = (s.proc q).status)
    (hq : ∀ q, q ≠ p → (s'.proc q).ofile = (s.proc q).ofile ∧ (s'.proc q).cwd = (s.proc q).cwd)
    (ho : (s'.proc p).ofile = h'.ofile) (hc : (s'.proc p).cwd = h'.cwd)
    (hk : h'.kid = (ρ p).kid) : Procs s' (update ρ p h') := by
  have hkid : ∀ q, (update ρ p h' q).kid = (ρ q).kid := by
    intro q
    by_cases e : q = p
    · subst e
      rw [update_self, hk]
    · rw [update_of_ne e]
  have hdead : ∀ q, (s'.proc q).status ≠ .live → update ρ p h' q = ρ q := by
    intro q hs
    refine update_of_ne (fun e => hs ?_) _ _
    rw [hst, e, hl]
  constructor
  · intro q
    by_cases e : q = p
    · subst e
      rw [update_self, ho]
    · rw [update_of_ne e, (hq q e).1, hi.ofile]
  · intro q
    by_cases e : q = p
    · subst e
      rw [update_self, hc]
    · rw [update_of_ne e, (hq q e).2, hi.cwd]
  · intro q hs
    rw [hdead q hs]
    exact hi.idle q (by rwa [← hst])
  · intro q hs
    rw [hdead q (by rcases hs with hs | hs <;> simp [hs])]
    exact hi.empty q (by rwa [← hst])
  · intro q r k hr
    rw [hkid] at hr
    obtain ⟨h1,h2⟩ := hi.kid q r k hr
    have h3 : (s'.proc r).status = .embryo := by rw [hst, h1]
    rw [hdead r (by simp [h3])]
    exact ⟨h3,h2⟩
  · intro q q' r k k' hr hr'
    rw [hkid] at hr hr'
    exact hi.single q q' r k k' hr hr'

end Parts

end Yeet.RefHand
