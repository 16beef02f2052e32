import YeetKernel.Resumption

/-!
# Outcomes of programs

A program that is left alone ends in a result and a state, in a failure, or
blocked. `Ends` says that all its outcomes are of a kind; it also speaks of being
blocked, so it can say that a program does return.
-/

namespace Yeet.Resumption

variable {σ τ φ α β : Type}

abbrev Outcome (σ φ α : Type) := Option (Except φ (α × σ))

/-- Every outcome of the program, started in the state, satisfies `Q`. -/
def Ends : Prog σ φ α → (Outcome σ φ α → Prop) → σ → Prop
  | .ret a, Q, s => Q (some (.ok (a,s)))
  | .act f k, Q, s =>
    match f s with
    | none => Q none
    | some (.error e) => Q (some (.error e))
    | some (.ok (b,s')) => Ends (k b) Q s'
  | .pick k, Q, s => ∀ n, Ends (k n) Q s

/-- What the rest of a program makes of the outcome of its first part. -/
def Then (g : α → Prog σ φ β) (Q : Outcome σ φ β → Prop) : Outcome σ φ α → Prop
  | none => Q none
  | some (.error e) => Q (some (.error e))
  | some (.ok (a,s)) => Ends (g a) Q s

/-- The program returns, with a result and a state as `P` says. -/
def Returns (x : Prog σ φ α) (P : α → σ → Prop) (s : σ) : Prop :=
  Ends x (fun o => ∃ a s', o = some (.ok (a,s')) ∧ P a s') s

section Rules

variable {Q Q' : Outcome σ φ α → Prop} {s : σ} {x : Prog σ φ α} {g : α → Prog σ φ β}

theorem ends_mono (h : Ends x Q s) (hQ : ∀ o, Q o → Q' o) : Ends x Q' s := by
  induction x generalizing s with
  | ret a => exact hQ _ h
  | act f k ih =>
    simp only [Ends] at h ⊢
    split at h
    · exact hQ _ h
    · exact hQ _ h
    · exact ih _ h
  | pick k ih => exact fun n => ih n (h n)

theorem ends_bind {Q : Outcome σ φ β → Prop} (h : Ends x (Then g Q) s) : Ends (x >>= g) Q s := by
  induction x generalizing s with
  | ret a => exact h
  | act f k ih =>
    change Ends (.act f (fun b => k b >>= g)) Q s
    simp only [Ends] at h ⊢
    split at h
    · exact h
    · exact h
    · exact ih _ h
  | pick k ih => exact fun n => ih n (h n)

theorem ends_bind_iff {Q : Outcome σ φ β → Prop} : Ends (x >>= g) Q s ↔ Ends x (Then g Q) s := by
  refine ⟨fun h => ?_,ends_bind⟩
  induction x generalizing s with
  | ret a => exact h
  | act f k ih =>
    change Ends (.act f (fun b => k b >>= g)) Q s at h
    simp only [Ends] at h ⊢
    split at h
    · exact h
    · exact h
    · exact ih _ h
  | pick k ih => exact fun n => ih n (h n)

theorem bind_assoc {γ : Type} (x : Prog σ φ α) (f : α → Prog σ φ β) (g : β → Prog σ φ γ) :
    x >>= f >>= g = x >>= fun a => f a >>= g := by
  induction x with
  | ret a => rfl
  | act f' k ih => exact congrArg (Prog.act f') (funext ih)
  | pick k ih => exact congrArg Prog.pick (funext ih)

theorem ends_and (h : Ends x Q s) (h' : Ends x Q' s) : Ends x (fun o => Q o ∧ Q' o) s := by
  induction x generalizing s with
  | ret a => exact ⟨h,h'⟩
  | act f k ih =>
    simp only [Ends] at h h' ⊢
    split at h
    · rename_i hf
      rw [hf] at h'
      exact ⟨h,h'⟩
    · rename_i e hf
      rw [hf] at h'
      exact ⟨h,h'⟩
    · rename_i b s' hf
      rw [hf] at h'
      exact ih b h h'
  | pick k ih => exact fun n => ih n (h n) (h' n)

theorem ends_pure {a : α} (h : Q (some (.ok (a,s)))) : Ends (pure a : Prog σ φ α) Q s := h

theorem ends_atom {f : Atom σ φ α} (h : Q (f s)) : Ends (atom f) Q s := by
  simp only [atom, Ends]
  split <;> (rename_i hf; rw [hf] at h; exact h)

theorem ends_some (h : Ends x Q s) : ∃ o, Q o := by
  induction x generalizing s with
  | ret a => exact ⟨_,h⟩
  | act f k ih =>
    simp only [Ends] at h
    split at h
    · exact ⟨_,h⟩
    · exact ⟨_,h⟩
    · exact ih _ h
  | pick k ih => exact ih 0 (h 0)

theorem ends_meet (h : Ends x Q s) (h' : Ends x Q' s) : ∃ o, Q o ∧ Q' o :=
  ends_some (ends_and h h')

theorem ends_iff {C : Prop} (h : Ends x (fun o => Q o ↔ C) s) : Ends x Q s ↔ C := by
  refine ⟨fun hq => ?_,fun hc => ends_mono h (fun _ ho => ho.mpr hc)⟩
  obtain ⟨o,ho,hq⟩ := ends_meet h hq
  exact ho.mp hq

theorem ends_of_does {R : σ → σ → Prop} (hr : ∀ s, R s s) (ht : ∀ s t u, R s t → R t u → R s u)
    (h : x.Does R) (s : σ) : Ends x (fun o => ∀ a s', o = some (.ok (a,s')) → R s s') s := by
  induction x generalizing s with
  | ret a =>
    intro b s' e
    cases e
    exact hr s
  | act f k ih =>
    simp only [Ends]
    split
    · intro b s' e
      cases e
    · intro b s' e
      cases e
    · rename_i b s' hf
      refine ends_mono (ih b (h.2 b) s') (fun o ho c t e => ?_)
      exact ht _ _ _ (h.1 _ _ _ hf) (ho c t e)
  | pick k ih => exact fun n => ih n (h n) s

end Rules

section Return

variable {P P' : α → σ → Prop} {s : σ} {x : Prog σ φ α} {g : α → Prog σ φ β} {a : α}

theorem returns_mono (h : Returns x P s) (hP : ∀ a s, P a s → P' a s) : Returns x P' s := by
  apply ends_mono h
  rintro o ⟨a,s',e,ha⟩
  exact ⟨a,s',e,hP a s' ha⟩

theorem returns_bind {P : β → σ → Prop}
    (h : Returns x (fun a s => Returns (g a) P s) s) : Returns (x >>= g) P s := by
  apply ends_bind
  apply ends_mono h
  rintro o ⟨a,s',rfl,ha⟩
  exact ha

theorem returns_bind_iff {P : β → σ → Prop} :
    Returns (x >>= g) P s ↔ Returns x (fun a s => Returns (g a) P s) s := by
  refine ⟨fun h => ends_mono (ends_bind_iff.mp h) ?_,returns_bind⟩
  intro o ho
  rcases o with _ | (e | ⟨a,s'⟩)
  · obtain ⟨_,_,e,_⟩ := ho
    cases e
  · obtain ⟨_,_,e,_⟩ := ho
    cases e
  · exact ⟨a,s',rfl,ho⟩

theorem returns_iff {C : Prop} (h : Returns x (fun a s => P a s ↔ C) s) : Returns x P s ↔ C := by
  refine ⟨fun hp => ?_,fun hc => returns_mono h (fun _ _ ha => ha.mpr hc)⟩
  obtain ⟨o,⟨a,s',rfl,ha⟩,⟨b,t,e,hb⟩⟩ := ends_meet h hp
  cases e
  exact ha.mp hb

theorem ends_after {Q : Outcome σ φ β → Prop}
    (h : Returns x (fun a s => Ends (g a) Q s) s) : Ends (x >>= g) Q s := by
  apply ends_bind
  apply ends_mono h
  rintro o ⟨a,s',rfl,ha⟩
  exact ha

/-- What holds whenever the program returns. -/
theorem ends_ok_bind {P : β → σ → Prop} (h : Ends x (fun o => ∀ a s', o = some (.ok (a,s')) →
      Ends (g a) (fun o => ∀ b t, o = some (.ok (b,t)) → P b t) s') s) :
    Ends (x >>= g) (fun o => ∀ b t, o = some (.ok (b,t)) → P b t) s := by
  apply ends_bind
  apply ends_mono h
  intro o ho
  rcases o with _ | (e | ⟨a,s'⟩)
  · exact fun b t hb => by cases hb
  · exact fun b t hb => by cases hb
  · exact ho a s' rfl

theorem returns_pure (h : P a s) : Returns (pure a : Prog σ φ α) P s := ⟨a,s,rfl,h⟩

theorem returns_pure_iff : Returns (pure a : Prog σ φ α) P s ↔ P a s :=
  returns_iff (returns_pure Iff.rfl)

theorem returns_assign {f : σ → σ} {P : Unit → σ → Prop} (h : P () (f s)) :
    Returns (assign f : Prog σ φ Unit) P s := ⟨(),f s,rfl,h⟩

theorem returns_fetch {f : σ → α} (h : P (f s) s) : Returns (fetch f : Prog σ φ α) P s :=
  ⟨f s,s,rfl,h⟩

theorem returns_atom {f : Atom σ φ α} {r : σ} (hf : f s = some (.ok (a,r)))
    (h : P a r) : Returns (atom f) P s := by
  simp only [Returns, atom, Ends, hf]
  exact ⟨a,r,rfl,h⟩

/-- The outcome in a larger state. -/
def Outcome.lift (set : τ → σ → τ) (t : τ) : Outcome σ φ α → Outcome τ φ α
  | none => none
  | some (.error e) => some (.error e)
  | some (.ok (a,s)) => some (.ok (a,set t s))

section Embed

variable {get : τ → σ} {set : τ → σ → τ} (hg : ∀ t s, get (set t s) = s)
  (hs : ∀ t s s', set (set t s) s' = set t s') (hi : ∀ t, set t (get t) = t) {t : τ}
include hg hs hi

theorem ends_embed {Q : Outcome τ φ α → Prop} (h : Ends x (fun o => Q (o.lift set t)) (get t)) :
    Ends (x.embed get set) Q t := by
  induction x generalizing t with
  | ret a =>
    have h' : Q (some (.ok (a,set t (get t)))) := h
    rwa [hi] at h'
  | act f k ih =>
    unfold Prog.embed
    simp only [Ends, Atom.embed] at h ⊢
    revert h
    rcases f (get t) with _ | (e | ⟨b,s'⟩)
    · exact id
    · exact id
    intro h
    refine ih b (t := set t s') (ends_mono (by rw [hg]; exact h) (fun o ho => ?_))
    rcases o with _ | (e | ⟨a,s''⟩)
    · exact ho
    · exact ho
    · change Q (some (.ok (a,set (set t s') s'')))
      rw [hs]
      exact ho
  | pick k ih =>
    intro n
    exact ih n (h n)

theorem returns_embed (h : Returns x P (get t)) :
    Returns (x.embed get set) (fun a t' => P a (get t') ∧ t' = set t (get t')) t := by
  refine ends_embed hg hs hi (ends_mono h ?_)
  rintro _ ⟨a,s',rfl,ha⟩
  refine ⟨a,set t s',rfl,?_⟩
  dsimp only
  rw [hg]
  exact ⟨ha,rfl⟩

end Embed

end Return

end Yeet.Resumption
