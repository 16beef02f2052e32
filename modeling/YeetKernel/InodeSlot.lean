import YeetKernel.InodeClient

/-!
# One slot of the inode cache

What a slot, the disk copy of its inode, the references to it and its lock
have to do with each other, and how this is kept when a reference is taken or
dropped, when the holder of the lock goes on, and when a free inode is claimed
on disk.
-/

namespace Yeet.Icache
open FsDisk Fs Tally Function

def Fit (named : Bool) (x : Inode) (d : Dinode) (n : ℤ) : Lock → Prop
  | .free => x.busy = false ∧ (x.valid = true → x.din = d ∧ d.type ≠ 0)
  | .loading => x.busy = true ∧ (x.valid = true → x.din = d ∧ d.type ≠ 0)
  | .clean => x.busy = true ∧ x.valid = true ∧ x.din = d ∧ d.type ≠ 0
  | .dirty => x.busy = true ∧ x.valid = true ∧ x.din.type = d.type ∧ d.type ≠ 0
  | .dying => x.busy = true ∧ x.valid = true ∧ x.din = d ∧ d.type ≠ 0 ∧ d.nlink = 0 ∧
      (named = true → n = 1)
  | .dead => x.busy = true

structure Slot (named : Bool) (N : ℕ) (n : ℤ) (x : Inode) (d : Dinode) (refs : Procno → ℤ)
    (lock : Procno → Lock) : Prop where
  count : n = ∑ p, refs p
  nonneg : ∀ p, 0 ≤ refs p
  backed : ∀ p, lock p ≠ .free → 1 ≤ refs p
  single : ∀ p q, lock p ≠ .free → lock q ≠ .free → p = q
  place : 0 < n → x.dev = ROOTDEV ∧ x.inum.toNat < N
  idle : 0 < n → (∀ p, lock p = .free) → Fit named x d n .free
  held : ∀ p, lock p ≠ .free → Fit named x d n (lock p)
  stale : named = true → 0 < n → d.type = 0 → n = 1 ∧ ∃ p, lock p = .dead

variable {named : Bool} {N : ℕ} {n : ℤ} {x x' : Inode} {d d' : Dinode} {refs : Procno → ℤ}
  {lock : Procno → Lock} {p q : Procno} {l : Lock}

theorem Fit.busy (h : Fit named x d n l) : x.busy = true ↔ l ≠ .free := by
  cases l with
  | free => simp [h.1]
  | dead => exact ⟨fun _ => by decide,fun _ => h⟩
  | _ => exact ⟨fun _ => by decide,fun _ => h.1⟩

theorem Fit.recount (h : Fit named x d n l) (hd : named = true → l ≠ .dying) (m : ℤ) :
    Fit named x d m l := by
  cases l with
  | dying =>
    obtain ⟨h1,h2,h3,h4,h5,_⟩ := h
    exact ⟨h1,h2,h3,h4,h5,fun hn => absurd rfl (hd hn)⟩
  | _ => exact h

theorem Fit.claim (h : Fit named x d n l) (hd : d.type = 0) : Fit named x d' n l := by
  cases l with
  | free | loading => exact ⟨h.1,fun hv => absurd hd (h.2 hv).2⟩
  | clean | dirty => exact absurd hd h.2.2.2
  | dying => exact absurd hd h.2.2.2.1
  | dead => exact h

section Slot

variable (h : Slot named N n x d refs lock)

include h

theorem Slot.le (p : Procno) : refs p ≤ n := by
  rw [h.count]
  exact le_sum h.nonneg p

theorem Slot.pos (hl : lock p ≠ .free) : 0 < n := by
  have h1 := h.backed p hl
  have h2 := h.le p
  omega

theorem Slot.busy_iff (hn : 0 < n) : x.busy = true ↔ ∃ p, lock p ≠ .free := by
  constructor
  · intro hb
    by_contra hno
    have hall : ∀ p, lock p = .free := fun p => by_contra (fun e => hno ⟨p,e⟩)
    exact (h.idle hn hall).busy.mp hb rfl
  · rintro ⟨p,hp⟩
    exact (h.held p hp).busy.mpr hp

theorem Slot.unlocked (hb : x.busy = false) (p : Procno) : lock p = .free := by
  by_contra hp
  have := (h.held p hp).busy.mpr hp
  rw [hb] at this
  cases this

theorem Slot.redisk (hd : 0 < n → d' = d) : Slot named N n x d' refs lock := by
  refine ⟨h.count,h.nonneg,h.backed,h.single,h.place,fun hn hl => ?_,fun p hp => ?_,
    fun hm hn => ?_⟩
  · rw [hd hn]
    exact h.idle hn hl
  · rw [hd (h.pos hp)]
    exact h.held p hp
  · rw [hd hn]
    exact h.stale hm hn

theorem Slot.claim (hd : d.type = 0) (hd' : d'.type ≠ 0) : Slot named N n x d' refs lock :=
  ⟨h.count,h.nonneg,h.backed,h.single,h.place,fun hn hl => (h.idle hn hl).claim hd,
    fun p hp => (h.held p hp).claim hd,fun _ _ e => absurd e hd'⟩

theorem Slot.others (hn : n = refs p) (hq : q ≠ p) : refs q = 0 := by
  have h1 : ∑ z, update refs p 0 z = ∑ z, refs z-refs p+0 := sum_update refs id p 0
  have h2 : ∀ z, 0 ≤ update refs p 0 z := by
    intro z
    rw [update_apply]
    split
    · exact Int.le_refl 0
    · exact h.nonneg z
  have h3 := le_sum h2 q
  have h4 := h.nonneg q
  have h5 := h.count
  rw [update_of_ne hq] at h3
  omega

theorem Slot.alive (hm : named = true) (hp : 1 ≤ refs p) (hl : lock p ≠ .dead) : d.type ≠ 0 := by
  intro hd
  have h1 := h.le p
  obtain ⟨h2,q,hq⟩ := h.stale hm (by omega) hd
  have h3 : q ≠ p := fun e => hl (e ▸ hq)
  have h4 := h.others (p := p) (by omega) h3
  have h5 := h.backed q (by rw [hq]; decide)
  omega

theorem Slot.not_dying (hm : named = true) (hp : 1 ≤ refs p) (hl : lock p ≠ .dying) (q : Procno) :
    lock q ≠ .dying := by
  intro hq
  have hqf : lock q ≠ .free := by
    rw [hq]
    decide
  have h1 := h.held q hqf
  rw [hq] at h1
  have h2 := h1.2.2.2.2.2 hm
  have h3 : p ≠ q := fun e => hl (e ▸ hq)
  have h4 := h.backed q hqf
  have h5 := h.le q
  have h6 := h.others (p := q) (by omega) h3
  omega

theorem Slot.addRef {k : ℤ} (hn : 0 < n) (h0 : 0 ≤ refs p+k) (hb : lock p ≠ .free → 1 ≤ refs p+k)
    (hd : named = true → (∀ q, lock q ≠ .dying) ∧ d.type ≠ 0) :
    Slot named N (n+k) x d (update refs p (refs p+k)) lock := by
  constructor
  · have := sum_update refs id p (refs p+k)
    simp only [id] at this
    rw [this, h.count]
    omega
  · intro q
    rw [update_apply]
    split
    · exact h0
    · exact h.nonneg q
  · intro q hq
    rw [update_apply]
    split
    · rename_i e
      exact hb (e ▸ hq)
    · exact h.backed q hq
  · exact h.single
  · intro _
    exact h.place hn
  · intro _ hl
    exact (h.idle hn hl).recount (fun _ => by decide) _
  · intro q hq
    exact (h.held q hq).recount (fun e => (hd e).1 q) _
  · intro hm _ e
    exact absurd e (hd hm).2

theorem Slot.setLock (hp : 1 ≤ refs p) (ho : ∀ q, q ≠ p → lock q = .free) (hdev : x'.dev = x.dev)
    (hinum : x'.inum = x.inum) (hf : Fit named x' d' n l)
    (hs : named = true → d'.type = 0 → n = 1 ∧ l = .dead) :
    Slot named N n x' d' refs (update lock p l) := by
  have hq : ∀ q, update lock p l q ≠ .free → q = p := by
    intro q h1
    by_contra h2
    rw [update_of_ne h2] at h1
    exact h1 (ho q h2)
  constructor
  · exact h.count
  · exact h.nonneg
  · intro q h1
    rw [hq q h1]
    exact hp
  · intro q q' h1 h2
    rw [hq q h1, hq q' h2]
  · rw [hdev, hinum]
    exact h.place
  · intro _ hl
    have := hl p
    rw [update_self] at this
    rwa [this] at hf
  · intro q h1
    obtain rfl := hq q h1
    rwa [update_self]
  · intro hm _ e
    obtain ⟨h1,h2⟩ := hs hm e
    exact ⟨h1,p,by rw [update_self, h2]⟩

theorem Slot.release (hl : lock p = .dead) (hb : x'.busy = false) (hv : x'.valid = false)
    (hdev : x'.dev = x.dev) (hinum : x'.inum = x.inum) :
    Slot named N (n-1) x' d (update refs p (refs p-1)) (update lock p .free) := by
  have hlf : lock p ≠ .free := by
    rw [hl]
    decide
  have hp := h.backed p hlf
  have hn := h.pos hlf
  have hfree : ∀ q, update lock p .free q = .free := by
    intro q
    rw [update_apply]
    split
    · rfl
    · rename_i e
      by_contra hq
      exact e (h.single q p hq hlf)
  constructor
  · have := sum_update refs id p (refs p-1)
    simp only [id] at this
    rw [this, h.count]
    omega
  · intro q
    rw [update_apply]
    split
    · omega
    · exact h.nonneg q
  · intro q hq
    exact absurd (hfree q) hq
  · intro q q' hq
    exact absurd (hfree q) hq
  · intro _
    rw [hdev, hinum]
    exact h.place hn
  · intro _ _
    refine ⟨hb,fun e => ?_⟩
    rw [hv] at e
    cases e
  · intro q hq
    exact absurd (hfree q) hq
  · intro hm h1 h2
    have := (h.stale hm hn h2).1
    omega

theorem Slot.fresh (hn : n = 0) (hdev : x'.dev = ROOTDEV) (hinum : x'.inum.toNat < N)
    (hf : Fit named x' d' 1 .free) (hd : named = true → d'.type ≠ 0) :
    Slot named N 1 x' d' (update refs p (refs p+1)) lock := by
  have h0 : ∀ q, refs q = 0 := by
    intro q
    have h1 := h.le q
    have h2 := h.nonneg q
    omega
  have hl : ∀ q, lock q = .free := by
    intro q
    by_contra hq
    have := h.backed q hq
    have := h0 q
    omega
  constructor
  · have := sum_update refs id p (refs p+1)
    simp only [id] at this
    rw [this, ← h.count]
    omega
  · intro q
    rw [update_apply, h0 p]
    split
    · decide
    · exact h.nonneg q
  · intro q hq
    exact absurd (hl q) hq
  · intro q q' hq
    exact absurd (hl q) hq
  · intro _
    exact ⟨hdev,hinum⟩
  · intro _ _
    exact hf
  · intro q hq
    exact absurd (hl q) hq
  · intro hm _ e
    exact absurd e (hd hm)

end Slot

end Yeet.Icache
