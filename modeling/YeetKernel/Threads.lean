import YeetKernel.Resumption

/-!
# Interleaved programs and their private resources

Processes run programs of atomic actions in any interleaving. A global
invariant relates the state to one resource for each process. A program is
sound if each of its actions, in every state that satisfies the invariant,
keeps it with a new resource of its own process and without a change to the
resources of others; only resources of processes that are not live may be
set, and only to a resource at rest.
-/

namespace Yeet.Threads
open Resumption (Prog Atom Machine atom choose fail)
open Function

variable {σ φ α β P C R : Type}

/-- The invariant; the processes that are live, and so may be in a call; when a
process has nothing in its hands; what a call keeps throughout, and what holds
at its end. -/
structure Discipline (σ P C R : Type) where
  Inv : σ → (P → R) → Prop
  live : σ → P → Prop
  rest : R → Prop
  during : C → R → Prop
  final : C → R → Prop

/-- The processes other than `p` stay live and keep their resources; of those
not live the resource is as it was or at rest. -/
def Discipline.Keeps (d : Discipline σ P C R) (p : P) (s s' : σ) (ρ ρ' : P → R) : Prop :=
  ∀ q, q ≠ p → (d.live s q → d.live s' q) ∧ (ρ' q = ρ q ∨ ¬ d.live s q ∧ d.rest (ρ' q))

/-- Started with the resource `r`, the program of `p` is sound and ends as `Q`
says. -/
def Discipline.Sound (d : Discipline σ P C R) (c : C) (p : P) :
    Prog σ φ α → R → (α → R → Prop) → Prop
  | .ret a, r, Q => Q a r
  | .act f k, r, Q => ∀ s ρ b s', d.Inv s ρ → d.live s p → ρ p = r →
      f s = some (.ok (b,s')) → ∃ ρ', d.Inv s' ρ' ∧ d.live s' p ∧ d.Keeps p s s' ρ ρ' ∧
        d.during c (ρ' p) ∧ d.Sound c p (k b) (ρ' p) Q
  | .pick k, r, Q => ∀ n, d.Sound c p (k n) r Q

variable {d : Discipline σ P C R} {c : C} {p : P} {x : Prog σ φ α} {r : R} {g : α → Prog σ φ β}
variable {Q : β → R → Prop} {f : Atom σ φ β}

theorem sound_mono {Q Q' : α → R → Prop} (h : d.Sound c p x r Q)
    (hQ : ∀ a r, Q a r → Q' a r) : d.Sound c p x r Q' := by
  induction x generalizing r with
  | ret a => exact hQ a r h
  | act f k ih =>
    intro s ρ b s' hi hl hr hf
    obtain ⟨ρ',h1,h2,h3,h4,h5⟩ := h s ρ b s' hi hl hr hf
    exact ⟨ρ',h1,h2,h3,h4,ih b h5⟩
  | pick k ih => exact fun n => ih n (h n)

theorem sound_bind
    (h : d.Sound c p x r (fun a r => d.Sound c p (g a) r Q)) : d.Sound c p (x >>= g) r Q := by
  induction x generalizing r with
  | ret a => exact h
  | act f k ih =>
    intro s ρ b s' hi hl hr hf
    obtain ⟨ρ',h1,h2,h3,h4,h5⟩ := h s ρ b s' hi hl hr hf
    exact ⟨ρ',h1,h2,h3,h4,ih b h5⟩
  | pick k ih => exact fun n => ih n (h n)

theorem sound_seq {Q : α → R → Prop} {Q' : β → R → Prop} (h : d.Sound c p x r Q)
    (hg : ∀ a r, Q a r → d.Sound c p (g a) r Q') : d.Sound c p (x >>= g) r Q' :=
  sound_bind (sound_mono h hg)

theorem sound_then {l : α → R}
    (h : d.Sound c p x r (fun a r' => r' = l a)) (hg : ∀ a, d.Sound c p (g a) (l a) Q) :
    d.Sound c p (x >>= g) r Q := by
  refine sound_seq h ?_
  rintro a _ rfl
  exact hg a

theorem sound_pure {a : α} {Q : α → R → Prop} (h : Q a r) :
    d.Sound c p (pure a : Prog σ φ α) r Q := h

theorem sound_choose {Q : ℕ → R → Prop} (h : ∀ n, Q n r) :
    d.Sound c p (choose : Prog σ φ ℕ) r Q := h

theorem choose_seq {g : ℕ → Prog σ φ β}
    (hg : ∀ n, d.Sound c p (g n) r Q) : d.Sound c p (choose >>= g) r Q :=
  sound_then (sound_choose (fun _ => rfl)) hg

theorem sound_fail {e : φ} {Q : α → R → Prop} : d.Sound c p (fail e : Prog σ φ α) r Q := by
  intro s ρ b s' _ _ _ hf
  cases hf

theorem sound_act (h : ∀ s ρ b s', d.Inv s ρ → d.live s p → ρ p = r → f s = some (.ok (b,s')) →
      ∃ ρ', d.Inv s' ρ' ∧ d.live s' p ∧ d.Keeps p s s' ρ ρ' ∧ d.during c (ρ' p) ∧ Q b (ρ' p)) :
    d.Sound c p (atom f) r Q := h

theorem sound_atom [DecidableEq P]
    (h : ∀ s ρ b s', d.Inv s ρ → d.live s p → ρ p = r → f s = some (.ok (b,s')) →
      (∀ q, d.live s q → d.live s' q) ∧ ∃ r', d.Inv s' (update ρ p r') ∧ d.during c r' ∧ Q b r') :
    d.Sound c p (atom f) r Q := by
  refine sound_act (fun s ρ b s' hi hl hr hf => ?_)
  obtain ⟨h0,r',h1,h2,h3⟩ := h s ρ b s' hi hl hr hf
  refine ⟨update ρ p r',h1,h0 p hl,fun q hq => ⟨h0 q,Or.inl (update_of_ne hq _ _)⟩,?_,?_⟩
  · rwa [update_self]
  · rwa [update_self]

theorem sound_does {R' : σ → σ → Prop} (h : x.Does R')
    (hR : ∀ s s' ρ, d.Inv s ρ → d.live s p → R' s s' →
      d.Inv s' ρ ∧ ∀ q, d.live s q → d.live s' q) (hd : d.during c r) :
    d.Sound c p x r (fun _ r' => r' = r) := by
  induction x with
  | ret a => rfl
  | act f k ih =>
    intro s ρ b s' hi hl hr hf
    obtain ⟨h1,h2⟩ := hR s s' ρ hi hl (h.1 s b s' hf)
    refine ⟨ρ,h1,h2 p hl,fun q _ => ⟨h2 q,Or.inl rfl⟩,hr ▸ hd,?_⟩
    rw [hr]
    exact ih b (h.2 b)
  | pick k ih => exact fun n => ih n (h n)

theorem keeps_give [DecidableEq P] {s s' : σ} {ρ : P → R} {q : P} {r₁ r' : R}
    (h0 : ∀ z, d.live s z → d.live s' z) (hnl : ¬ d.live s q) (hr : d.rest r₁) :
    d.Keeps p s s' ρ (update (update ρ q r₁) p r') := by
  intro z hz
  refine ⟨h0 z,?_⟩
  rw [update_of_ne hz]
  by_cases hzq : z = q
  · subst hzq
    exact Or.inr ⟨hnl,by rwa [update_self]⟩
  · exact Or.inl (update_of_ne hzq _ _)

structure Pool (σ φ P C α : Type) where
  state : σ
  thread : P → Option (C × Prog σ φ α)

inductive Move (P C : Type) where
  | call (p : P) (c : C)
  | step (p : P) (n : ℕ)

inductive Seen (P C α : Type) where
  | called (p : P) (c : C)
  | moved (p : P)
  | returned (p : P) (c : C) (a : α)

def exec [DecidableEq P] (m : Machine σ φ P C α) (x : Pool σ φ P C α) :
    Move P C → Option (Except φ (Pool σ φ P C α × Seen P C α))
  | .call p c =>
    match x.thread p with
    | none =>
      if m.enabled x.state p then
        some (.ok (⟨x.state,update x.thread p (some (c,m.code p c))⟩,.called p c))
      else none
    | some _ => none
  | .step p n =>
    match x.thread p with
    | none => none
    | some (c,.ret a) =>
      some (.ok (⟨m.leave p c x.state,update x.thread p none⟩,.returned p c a))
    | some (c,.pick k) => some (.ok (⟨x.state,update x.thread p (some (c,k n))⟩,.moved p))
    | some (c,.act f k) =>
      match f x.state with
      | none => none
      | some (.error e) => some (.error e)
      | some (.ok (b,s)) => some (.ok (⟨s,update x.thread p (some (c,k b))⟩,.moved p))

def Discipline.Fits (d : Discipline σ P C R) (s : σ) (p : P) (r : R) :
    Option (C × Prog σ φ α) → Prop
  | none => d.rest r
  | some (c,x) => d.live s p ∧ d.during c r ∧ d.Sound c p x r (fun _ r => d.final c r)

structure Follows (d : Discipline σ P C R) (m : Machine σ φ P C α) (allowed : C → Prop) : Prop where
  enabled : ∀ s p, m.enabled s p = true → d.live s p
  code : ∀ p c r, allowed c → d.rest r →
    d.during c r ∧ d.Sound c p (m.code p c) r (fun _ r => d.final c r)
  leave : ∀ p c s ρ, d.Inv s ρ → d.live s p → d.final c (ρ p) →
    ∃ ρ', d.Inv (m.leave p c s) ρ' ∧ d.rest (ρ' p) ∧ d.Keeps p s (m.leave p c s) ρ ρ'

section Run

variable [DecidableEq P] {m : Machine σ φ P C α} {allowed : C → Prop}

omit [DecidableEq P] in
theorem fits_others {s s' : σ} {ρ ρ' : P → R} {t : P → Option (C × Prog σ φ α)}
    (hfit : ∀ q, d.Fits s q (ρ q) (t q)) (hk : d.Keeps p s s' ρ ρ') (q : P) (hq : q ≠ p) :
    d.Fits s' q (ρ' q) (t q) := by
  have h := hfit q
  obtain ⟨hl,hr⟩ := hk q hq
  cases ht : t q with
  | none =>
    rw [ht] at h
    rcases hr with hr | hr
    · rw [hr]
      exact h
    · exact hr.2
  | some y =>
    rw [ht] at h
    obtain ⟨c,x⟩ := y
    obtain ⟨h1,h2,h3⟩ := h
    rcases hr with hr | hr
    · rw [hr]
      exact ⟨hl h1,h2,h3⟩
    · exact absurd h1 hr.1

theorem step_fits (hf : Follows d m allowed) {x x' : Pool σ φ P C α} {a : Move P C}
    {e : Seen P C α} {ρ : P → R} (hi : d.Inv x.state ρ)
    (hfit : ∀ p, d.Fits x.state p (ρ p) (x.thread p)) (ha : ∀ p c, a = .call p c → allowed c)
    (hx : exec m x a = some (.ok (x',e))) :
    ∃ ρ', d.Inv x'.state ρ' ∧ ∀ p, d.Fits x'.state p (ρ' p) (x'.thread p) := by
  have hset : ∀ s' ρ' p u, d.Keeps p x.state s' ρ ρ' → d.Fits s' p (ρ' p) u →
      ∀ q, d.Fits s' q (ρ' q) (update x.thread p u q) := by
    intro s' ρ' p u hk hu q
    by_cases hq : q = p
    · subst hq
      rwa [update_self]
    · rw [update_of_ne hq]
      exact fits_others hfit hk q hq
  have hsame : ∀ p, d.Keeps p x.state x.state ρ ρ := fun p q _ => ⟨id,Or.inl rfl⟩
  cases a with
  | call p c =>
    have hp := hfit p
    simp only [exec] at hx
    split at hx
    · rename_i ht
      split at hx
      · rename_i hen
        cases hx
        rw [ht] at hp
        obtain ⟨h1,h2⟩ := hf.code p c (ρ p) (ha p c rfl) hp
        exact ⟨ρ,hi,hset _ ρ p _ (hsame p) ⟨hf.enabled _ p hen,h1,h2⟩⟩
      · cases hx
    · cases hx
  | step p n =>
    have hp := hfit p
    simp only [exec] at hx
    split at hx
    · cases hx
    · rename_i c b ht
      cases hx
      rw [ht] at hp
      obtain ⟨h1,h2,h3⟩ := hp
      obtain ⟨ρ',h4,h5,h6⟩ := hf.leave p c _ ρ hi h1 h3
      exact ⟨ρ',h4,hset _ ρ' p _ h6 h5⟩
    · rename_i c k ht
      cases hx
      rw [ht] at hp
      exact ⟨ρ,hi,hset _ ρ p _ (hsame p) ⟨hp.1,hp.2.1,hp.2.2 n⟩⟩
    rename_i c β f k ht
    rw [ht] at hp
    obtain ⟨h1,h2,h3⟩ := hp
    split at hx
    · cases hx
    · cases hx
    rename_i b s' hfs
    cases hx
    obtain ⟨ρ',h4,h5,h6,h7,h8⟩ := h3 _ ρ b s' hi h1 rfl hfs
    exact ⟨ρ',h4,hset s' ρ' p _ h6 ⟨h5,h7,h8⟩⟩

theorem run_fits (hf : Follows d m allowed) {s₀ : σ} {ρ₀ : P → R} (hi : d.Inv s₀ ρ₀)
    (hrest : ∀ p, d.rest (ρ₀ p)) {h : List (Move P C × Seen P C α)} {x : Pool σ φ P C α}
    (hr : Lts.Run (exec m) (Pool.mk s₀ (fun _ => none)) h x)
    (hall : ∀ p c, Move.call p c ∈ h.map Prod.fst → allowed c) :
    ∃ ρ, d.Inv x.state ρ ∧ ∀ p, d.Fits x.state p (ρ p) (x.thread p) := by
  induction hr with
  | nil => exact ⟨ρ₀,hi,hrest⟩
  | snoc run step ih =>
    obtain ⟨ρ,h1,h2⟩ := ih (fun p c hm => hall p c (by simp_all))
    refine step_fits hf h1 h2 (fun p c hm => hall p c (by simp [hm])) step

end Run

-- from here on soundness is proved by the rules above only
attribute [irreducible] Discipline.Sound

end Yeet.Threads
