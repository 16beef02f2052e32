import YeetKernel.Threads
import YeetKernel.Outcome

/-!
# A process that owns the state

While one process holds a lock, the others change the state only in a way that its
program does not see. What the program does on its own it then does in every
interleaving: a statement about its outcomes carries over to the discipline of the
threads, with the state as the owner last left it for the resource of the owner.
-/

namespace Yeet.Resumption

variable {σ φ α β : Type}

def framed (g : σ → σ) : Outcome σ φ α → Outcome σ φ α
  | none => none
  | some (.error e) => some (.error e)
  | some (.ok (a,s)) => some (.ok (a,g s))

/-- No action of the program sees whether `g` has been applied to the state. -/
def Prog.Blindly (g : σ → σ) : Prog σ φ α → Prop
  | .ret _ => True
  | .act f k => (∀ s, f (g s) = framed g (f s)) ∧ ∀ b, (k b).Blindly g
  | .pick k => ∀ n, (k n).Blindly g

variable {g : σ → σ} {a : α}

theorem blindly_bind {x : Prog σ φ α} {k : α → Prog σ φ β} (h : x.Blindly g)
    (hk : ∀ a, (k a).Blindly g) : (x >>= k).Blindly g := by
  induction x with
  | ret a => exact hk a
  | act f k' ih => exact ⟨h.1,fun b => ih b (h.2 b)⟩
  | pick k' ih => exact fun n => ih n (h n)

theorem blindly_pure : (pure a : Prog σ φ α).Blindly g := trivial

theorem blindly_atom {f : Atom σ φ β} (h : ∀ s, f (g s) = framed g (f s)) : (atom f).Blindly g :=
  ⟨h,fun _ => trivial⟩

theorem blindly_fail {e : φ} : (fail e : Prog σ φ α).Blindly g := blindly_atom (fun _ => rfl)

theorem blindly_fetch {f : σ → β} (h : ∀ s, f (g s) = f s) : (fetch f : Prog σ φ β).Blindly g :=
  blindly_atom (fun s => by rw [h]; rfl)

theorem blindly_assign {f : σ → σ} (h : ∀ s, f (g s) = g (f s)) : (assign f : Prog σ φ Unit).Blindly g :=
  blindly_atom (fun s => by rw [h]; rfl)

theorem framed_eq_ok {o : Outcome σ φ α} {s : σ} (h : framed g o = some (.ok (a,s))) :
    ∃ s', o = some (.ok (a,s')) ∧ s = g s' := by
  rcases o with _ | (e | ⟨b,s'⟩)
  · cases h
  · cases h
  · cases h
    exact ⟨s',rfl,rfl⟩

end Yeet.Resumption

namespace Yeet.Threads
open Resumption Function

variable {σ φ α β P C R κ : Type} [DecidableEq P] {d : Discipline σ P C R} {c : C} {p : P}

/-- The resource `hold s` says that `p` owns the state and last left it as `s`; what the others
have done since is `frame k`, and what the owner may do is `K`. -/
structure Owns (d : Discipline σ P C R) (c : C) (p : P) (frame : κ → σ → σ) (K : σ → σ → Prop)
    (hold : σ → R) : Prop where
  see : ∀ s ρ s₁, d.Inv s ρ → ρ p = hold s₁ → ∃ k, s = frame k s₁
  set : ∀ k ρ s₁ s₂, d.Inv (frame k s₁) ρ → ρ p = hold s₁ → K s₁ s₂ →
    d.Inv (frame k s₂) (update ρ p (hold s₂))
  live : ∀ k s₁ s₂, K s₁ s₂ → ∀ q, d.live (frame k s₁) q → d.live (frame k s₂) q
  during : ∀ s, d.during c (hold s)

theorem sound_owning {frame : κ → σ → σ} {K : σ → σ → Prop} {hold : σ → R}
    (ho : Owns d c p frame K hold) {x : Prog σ φ α} (hb : ∀ k, x.Blindly (frame k)) (hk : x.Does K)
    {Q : α → σ → Prop} {s₁ : σ} (hE : Ends x (fun o => ∀ a s, o = some (.ok (a,s)) → Q a s) s₁) :
    d.Sound c p x (hold s₁) (fun a r => ∃ s, r = hold s ∧ Q a s) := by
  induction x generalizing s₁ with
  | ret a => exact sound_pure ⟨s₁,rfl,hE a s₁ rfl⟩
  | act f k ih =>
    show d.Sound c p (atom f >>= k) _ _
    apply sound_bind
    apply sound_atom
    intro s ρ b s' hi hl hr hf
    obtain ⟨j,rfl⟩ := ho.see s ρ s₁ hi hr
    rw [(hb j).1 s₁] at hf
    obtain ⟨s₂,hf₁,rfl⟩ := framed_eq_ok hf
    have hK := hk.1 s₁ b s₂ hf₁
    refine ⟨ho.live j s₁ s₂ hK,hold s₂,ho.set j ρ s₁ s₂ hi hr hK,ho.during s₂,?_⟩
    refine ih b (fun j => (hb j).2 b) (hk.2 b) ?_
    simp only [Ends] at hE
    rw [hf₁] at hE
    exact hE
  | pick k ih =>
    show d.Sound c p (choose >>= k) _ _
    apply sound_bind
    apply sound_choose
    exact fun n => ih n (fun j => hb j n) (hk n) (hE n)

end Yeet.Threads
