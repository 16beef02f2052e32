import Mathlib.Algebra.BigOperators.Group.Finset.Piecewise
import Mathlib.Algebra.Order.BigOperators.Group.Finset
import YeetKernel.SharedFile

/-!
# Whose turn it is to write

Processes write through one `struct file`. The invariant says what is in the file: the
writes done so far, one behind the other. While a process has the lock of the inode, it
alone knows what the state is, up to the number of transactions.
-/

namespace Yeet.SharedWrites
open Kernel Bytes FsDisk Fs Threads Function

structure Write where
  addr : ℕ → Byte
  n : Uint

def Write.bytes (w : Write) : List Byte := (List.range w.n.toInt.toNat).map w.addr

/-- What a process holds: while it has the lock, the state as it last left it and what was in
the file; the writes it has done and those still to do. -/
structure Turn where
  snap : Option (State × List Byte)
  done : List Write
  todo : List Write

def Tidy (loose : List Uint) (f : Fileno) (i : Ino) (c : List Byte) (s : State) : Prop :=
  ∃ V, Writable loose V f i s ∧ fileBytes s i = c ∧ (s.file f).off.toNat = c.length

structure Leads (f : Fileno) (i : Ino) (s : State) : Prop where
  type : (s.file f).type = .inode
  writable : (s.file f).writable = true
  ip : (s.file f).ip = some i
  ref : 1 ≤ s.iref i

section Lists

variable {P : Type} [DecidableEq P]

def joined (l : List (P × Write)) : List Byte := (l.map (fun x => x.2.bytes)).flatten

def own (l : List (P × Write)) (p : P) : List Write := (l.filter (fun x => x.1 = p)).map Prod.snd

omit [DecidableEq P] in
theorem joined_append (l : List (P × Write)) (p : P) (w : Write) :
    joined (l++[(p,w)]) = joined l++w.bytes := by
  simp [joined]

theorem own_append (l : List (P × Write)) (p q : P) (w : Write) :
    own (l++[(p,w)]) q = if q = p then own l q++[w] else own l q := by
  unfold own
  by_cases h : q = p
  · simp [h]
  · have h' : p ≠ q := fun e => h e.symm
    simp [h, h']

def size (l : List Write) : ℕ := (l.map (fun w => w.bytes.length)).sum

theorem size_append (l l' : List Write) : size (l++l') = size l+size l' := by
  simp [size]

theorem size_cons (w : Write) (l : List Write) : size (w::l) = w.bytes.length+size l := by
  simp [size]

theorem length_joined [Fintype P] (l : List (P × Write)) : (joined l).length = ∑ p, size (own l p) := by
  induction l with
  | nil => simp [joined, own, size]
  | cons x l ih =>
    have hown : ∀ p, size (own (x::l) p) = (if x.1 = p then x.2.bytes.length else 0)+size (own l p) := by
      intro p
      unfold own
      by_cases h : x.1 = p
      · simp [h, size_cons]
      · simp [h]
    have hj : (joined (x::l)).length = x.2.bytes.length+(joined l).length := by simp [joined]
    rw [hj, ih]
    simp only [hown, Finset.sum_add_distrib, Finset.sum_ite_eq, Finset.mem_univ, if_true]

end Lists

section System

variable {P : Type} [DecidableEq P]

inductive Stands (loose : List Uint) (f : Fileno) (i : Ino) (c : List Byte) (s : State)
    (ρ : P → Turn) : Prop
  | free (hn : ∀ p, (ρ p).snap = none) (hb : (s.inode i).busy = false) (ht : Tidy loose f i c s)
  | held (p : P) (s₁ : State) (k : ℤ) (hp : (ρ p).snap = some (s₁,c))
      (hq : ∀ q, q ≠ p → (ρ q).snap = none) (hs : s = s₁.ops k) (hb : (s₁.inode i).busy = true)
      (hl : Leads f i s₁)

structure Inv (W : P → List Write) (loose : List Uint) (f : Fileno) (i : Ino) (s : State)
    (ρ : P → Turn) : Prop where
  plan : ∀ p, (ρ p).done++(ρ p).todo = W p
  stands : ∃ l : List (P × Write), (∀ p, own l p = (ρ p).done) ∧ Stands loose f i (joined l) s ρ

def discipline (W : P → List Write) (loose : List Uint) (f : Fileno) (i : Ino) :
    Discipline State P Unit Turn where
  Inv := Inv W loose f i
  live _ _ := True
  rest r := r.snap = none ∧ r.todo = []
  during _ _ := True
  final _ r := r.snap = none ∧ r.todo = []

variable {W : P → List Write} {loose : List Uint} {f : Fileno} {i : Ino} {s s' : State}
  {ρ : P → Turn} {p : P} {c : List Byte} {D T : List Write} {w : Write} {l : List (P × Write)}
variable {r : Turn}

theorem Tidy.leads (h : Tidy loose f i c s) : Leads f i s := by
  obtain ⟨V,hw,-,-⟩ := h
  exact ⟨hw.type,hw.writable,hw.ip,hw.ref⟩

theorem Tidy.congr (h : Tidy loose f i c s) (hf : s'.file = s.file) (hr : s'.iref = s.iref)
    (hv : s'.vol = s.vol) (hn : s'.num i = s.num i) (hd : (s'.inode i).din = (s.inode i).din)
    (hc : (s'.inode i).valid = (s.inode i).valid) : Tidy loose f i c s' := by
  obtain ⟨V,hw,hb,ho⟩ := h
  refine ⟨V,hw.congr hf hr hv hn hd hc,?_,?_⟩
  · rw [← hb, fileBytes, fileBytes, hv, hn]
  · rw [hf]
    exact ho

theorem Inv.leads (h : Inv W loose f i s ρ) : Leads f i s := by
  obtain ⟨l,-,hs⟩ := h.stands
  cases hs with
  | free hn hb ht => exact ht.leads
  | held p s₁ k hp hq hs hb hl =>
    subst hs
    exact ⟨hl.type,hl.writable,hl.ip,hl.ref⟩

theorem Inv.ops (h : Inv W loose f i s ρ) (k : ℤ) : Inv W loose f i (s.ops k) ρ := by
  obtain ⟨l,ho,hs⟩ := h.stands
  refine ⟨h.plan,l,ho,?_⟩
  cases hs with
  | free hn hb ht => exact .free hn hb (ht.congr rfl rfl rfl rfl rfl rfl)
  | held p s₁ j hp hq hs hb hl =>
    subst hs
    exact .held p s₁ k hp hq rfl hb hl

theorem Inv.holding (h : Inv W loose f i s ρ) {s₁ : State} (hp : ρ p = ⟨some (s₁,c),D,T⟩) :
    ∃ l k, (∀ q, own l q = (ρ q).done) ∧ joined l = c ∧ (∀ q, q ≠ p → (ρ q).snap = none) ∧
      s = s₁.ops k ∧ (s₁.inode i).busy = true ∧ Leads f i s₁ := by
  obtain ⟨l,ho,hs⟩ := h.stands
  cases hs with
  | free hn hb ht =>
    have := hn p
    rw [hp] at this
    cases this
  | held q s₂ k hq hother hs hb hl =>
    have e : p = q := by
      by_contra hne
      have := hother p hne
      rw [hp] at this
      cases this
    subst e
    rw [hp] at hq
    cases hq
    exact ⟨l,k,ho,rfl,hother,hs,hb,hl⟩

theorem done_update (h : ∀ q, own l q = (ρ q).done)
    (hr : r.done = (ρ p).done) (q : P) : own l q = (update ρ p r q).done := by
  by_cases e : q = p
  · subst e
    rw [update_self, hr]
    exact h q
  · rw [update_of_ne e]
    exact h q

theorem done_append (h : ∀ q, own l q = (ρ q).done)
    (hr : r.done = (ρ p).done++[w]) (q : P) : own (l++[(p,w)]) q = (update ρ p r q).done := by
  rw [own_append]
  by_cases e : q = p
  · subst e
    rw [if_pos rfl, update_self, hr, h q]
  · rw [if_neg e, update_of_ne e]
    exact h q

theorem snap_update (h : ∀ q, q ≠ p → (ρ q).snap = none) (hr : r.snap = none) (q : P) :
    (update ρ p r q).snap = none := by
  by_cases e : q = p
  · subst e
    rw [update_self]
    exact hr
  · rw [update_of_ne e]
    exact h q e

theorem plan_update (h : ∀ q, (ρ q).done++(ρ q).todo = W q)
    (hr : r.done++r.todo = (ρ p).done++(ρ p).todo) (q : P) :
    (update ρ p r q).done++(update ρ p r q).todo = W q := by
  by_cases e : q = p
  · subst e
    rw [update_self, hr]
    exact h q
  · rw [update_of_ne e]
    exact h q

theorem owns (W : P → List Write) (loose : List Uint) (f : Fileno) (i : Ino) (p : P) (c : List Byte)
    (D T : List Write) : Owns (discipline W loose f i) () p (fun k s => s.ops k) (Holds f i)
      (fun s => ⟨some (s,c),D,T⟩) := by
  constructor
  case see =>
    intro s ρ s₁ hi hp
    obtain ⟨l,k,-,-,-,hs,-⟩ := hi.holding hp
    exact ⟨k,hs⟩
  case set =>
    intro k ρ s₁ s₂ hi hp hh
    obtain ⟨l,j,ho,hj,hother,-,hb,hl⟩ := hi.holding hp
    refine ⟨plan_update hi.plan (by rw [hp]),l,done_update ho (by rw [hp]),?_⟩
    · refine .held p s₂ k ?_ (fun q hq => ?_) rfl ?_ ?_
      · rw [update_self, hj]
      · rw [update_of_ne hq]
        exact hother q hq
      · rw [hh.busy]
        exact hb
      · exact ⟨hh.type.trans hl.type,hh.writable.trans hl.writable,hh.ip.trans hl.ip,
          by rw [hh.iref]; exact hl.ref⟩
  case live => exact fun _ _ _ _ _ h => h
  case during => exact fun _ => trivial

theorem room [Fintype P] (hmax : ∑ p, size (W p) ≤ MAXFILE*BSIZE)
    (hplan : ∀ q, (ρ q).done++(ρ q).todo = W q) (ho : ∀ q, own l q = (ρ q).done)
    (hp : (ρ p).todo = w::T) : (joined l).length+w.bytes.length ≤ MAXFILE*BSIZE := by
  have hle : ∀ q, size (own l q)+(if p = q then w.bytes.length else 0) ≤ size (W q) := by
    intro q
    rw [← hplan q, ho q, size_append]
    split
    · rename_i e
      rw [← e, hp, size_cons]
      omega
    · omega
  have hsum := Finset.sum_le_sum (fun q (_ : q ∈ (Finset.univ : Finset P)) => hle q)
  rw [Finset.sum_add_distrib, ← length_joined] at hsum
  simp only [Finset.sum_ite_eq, Finset.mem_univ, if_true] at hsum
  omega

end System

end Yeet.SharedWrites
