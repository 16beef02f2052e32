import YeetKernel.Outcome
import YeetKernel.Threads

/-!
# Requests that may be refused

A resource in the state can be used up by others at any time. `starve` makes
a program whose actions may each find the resource gone: the action runs on a
state in which it is hidden, and what was hidden is put back afterwards. A
program that never asks for the resource is not affected. `Can` gives single
outcomes, where `Ends` speaks of all of them.
-/

namespace Yeet.Resumption
open Function

variable {σ φ α β : Type}

def Can : Prog σ φ α → Outcome σ φ α → σ → Prop
  | .ret a, o, s => o = some (.ok (a,s))
  | .act f k, o, s =>
    match f s with
    | none => o = none
    | some (.error e) => o = some (.error e)
    | some (.ok (b,s')) => Can (k b) o s'
  | .pick k, o, s => ∃ n, Can (k n) o s

section Can

variable {s s' : σ} {o : Outcome σ φ α} {x : Prog σ φ α} {a : α}

theorem ends_can {Q : Outcome σ φ α → Prop} (h : Ends x Q s) (hc : Can x o s) : Q o := by
  induction x generalizing s with
  | ret a =>
    rw [show o = some (.ok (a,s)) from hc]
    exact h
  | act f k ih =>
    simp only [Ends] at h
    simp only [Can] at hc
    split at h <;> rename_i hf <;> rw [hf] at hc
    · rw [show o = none from hc]
      exact h
    · rw [show o = some (.error _) from hc]
      exact h
    · exact ih _ h hc
  | pick k ih =>
    obtain ⟨n,hc⟩ := hc
    exact ih n (h n) hc

theorem ends_self (x : Prog σ φ α) (s : σ) : Ends x (fun o => Can x o s) s := by
  induction x generalizing s with
  | ret a => rfl
  | act f k ih =>
    simp only [Ends, Can]
    cases hf : f s with
    | none => trivial
    | some r =>
      cases r with
      | error e => exact rfl
      | ok r => exact ih r.1 r.2
  | pick k ih => exact fun n => ends_mono (ih n s) (fun o ho => ⟨n,ho⟩)

theorem can_bind {x : Prog σ φ β} {g : β → Prog σ φ α} {b : β} (h : Can x (some (.ok (b,s'))) s)
    (hg : Can (g b) o s') : Can (x >>= g) o s := by
  induction x generalizing s with
  | ret a =>
    cases show some (Except.ok (b,s')) = some (.ok (a,s)) from h
    exact hg
  | act f k ih =>
    change Can (.act f (fun c => k c >>= g)) o s
    simp only [Can] at h ⊢
    split at h
    · cases h
    · cases h
    · exact ih _ h
  | pick k ih =>
    obtain ⟨n,h⟩ := h
    exact ⟨n,ih n h⟩

theorem can_pure (a : α) (s : σ) : Can (pure a : Prog σ φ α) (some (.ok (a,s))) s := rfl

theorem can_choose {g : ℕ → Prog σ φ α} (n : ℕ) (h : Can (g n) o s) : Can (choose >>= g) o s := ⟨n,h⟩

/-- A program that returns has an outcome. -/
theorem can_of_returns {P : α → σ → Prop} (h : Returns x P s) :
    ∃ a s', Can x (some (.ok (a,s'))) s ∧ P a s' := by
  induction x generalizing s with
  | ret a =>
    obtain ⟨b,s',e,hP⟩ := h
    cases e
    exact ⟨a,s,rfl,hP⟩
  | act f k ih =>
    unfold Returns Ends at h
    split at h
    · obtain ⟨_,_,e,_⟩ := h
      cases e
    · obtain ⟨_,_,e,_⟩ := h
      cases e
    rename_i b s' hf
    obtain ⟨a,s'',hc,hP⟩ := ih b h
    refine ⟨a,s'',?_,hP⟩
    unfold Can
    rw [hf]
    exact hc
  | pick k ih =>
    obtain ⟨a,s',hc,hP⟩ := ih 0 (h 0)
    exact ⟨a,s',⟨0,hc⟩,hP⟩

theorem can_embed {τ : Type} {get : τ → σ} {set : τ → σ → τ} (hg : ∀ t s, get (set t s) = s)
    (hs : ∀ t s s', set (set t s) s' = set t s') (hi : ∀ t, set t (get t) = t)
    {t : τ} (h : Can x (some (.ok (a,s'))) (get t)) :
    Can (x.embed get set) (some (.ok (a,set t s'))) t := by
  induction x generalizing t with
  | ret b =>
    cases show some (Except.ok (a,s')) = some (.ok (b,get t)) from h
    rw [hi]
    rfl
  | act f k ih =>
    simp only [Can] at h
    split at h
    · cases h
    · cases h
    rename_i b s hf
    simp only [Prog.embed, Atom.embed, Can, hf]
    rw [← hs t s]
    exact ih b (by rwa [hg])
  | pick k ih =>
    obtain ⟨n,h⟩ := h
    exact ⟨n,ih n h⟩

theorem can_atom {f : Atom σ φ α} (h : f s = some (.ok (a,s'))) :
    Can (atom f) (some (.ok (a,s'))) s := by
  simp only [atom, Can, h]

section Runs

variable {P C : Type} [DecidableEq P] (m : Machine σ φ P C α) {p : P} {c : C}

theorem can_runs {t : P → Option (C × Prog σ φ α)} (ht : t p = some (c,x))
    (h : Can x (some (.ok (a,s'))) s) :
    ∃ g, Lts.Run (Threads.exec m) ⟨s,t⟩ g ⟨m.leave p c s',update t p none⟩ ∧
      .returned p c a ∈ g.map Prod.snd := by
  induction x generalizing s t with
  | ret b =>
    cases show some (Except.ok (a,s')) = some (.ok (b,s)) from h
    exact ⟨_,Lts.Run.nil.snoc (a := .step p 0) (e := .returned p c a) (by simp only [Threads.exec, ht]),
      List.mem_singleton.mpr rfl⟩
  | act f k ih =>
    simp only [Can] at h
    split at h
    · cases h
    · cases h
    rename_i b u hf
    obtain ⟨g,hg,hm⟩ := ih b (t := update t p (some (c,k b))) (update_self ..) h
    rw [update_idem] at hg
    exact ⟨_,hg.cons (a := .step p 0) (e := .moved p) (by simp only [Threads.exec, ht, hf]),
      List.mem_cons_of_mem _ hm⟩
  | pick k ih =>
    obtain ⟨n,h⟩ := h
    obtain ⟨g,hg,hm⟩ := ih n (t := update t p (some (c,k n))) (update_self ..) h
    rw [update_idem] at hg
    exact ⟨_,hg.cons (a := .step p n) (e := .moved p) (by simp only [Threads.exec, ht]),
      List.mem_cons_of_mem _ hm⟩

/-- A call that can return does so in some run. -/
theorem call_runs {t : P → Option (C × Prog σ φ α)} (ht : t p = none) (he : m.enabled s p = true)
    (h : Can (m.code p c) (some (.ok (a,s'))) s) :
    ∃ g, Lts.Run (Threads.exec m) ⟨s,t⟩ g ⟨m.leave p c s',t⟩ ∧ .returned p c a ∈ g.map Prod.snd := by
  obtain ⟨g,hg,hm⟩ := can_runs m (t := update t p (some (c,m.code p c))) (update_self ..) h
  rw [update_idem, ← ht, update_eq_self] at hg
  exact ⟨_,hg.cons (a := .call p c) (e := .called p c) (by simp only [Threads.exec, ht, he, if_true]),
    List.mem_cons_of_mem _ hm⟩

end Runs

end Can

section Starve

variable (hide : σ → σ) (restore : σ → σ → σ)

def Atom.under (f : Atom σ φ β) : Atom σ φ β := fun s =>
  match f (hide s) with
  | none => none
  | some (.error e) => some (.error e)
  | some (.ok (b,s')) => some (.ok (b,restore s s'))

def Prog.starve : Prog σ φ α → Prog σ φ α
  | .ret a => .ret a
  | .act f k => .pick (fun n =>
      .act (if n = 0 then f.under hide restore else f) (fun b => (k b).starve))
  | .pick k => .pick (fun n => (k n).starve)

variable {hide restore}

theorem starve_bind (x : Prog σ φ β) (g : β → Prog σ φ α) :
    (x >>= g).starve hide restore = x.starve hide restore >>= fun b => (g b).starve hide restore := by
  induction x with
  | ret a => rfl
  | act f k ih =>
    exact congrArg Prog.pick (funext (fun _ => congrArg (Prog.act _) (funext ih)))
  | pick k ih => exact congrArg Prog.pick (funext ih)

variable {s : σ} {f : Atom σ φ α} {Q : Outcome σ φ α → Prop} {x : Prog σ φ α} {o : Outcome σ φ α}

theorem ends_starve_atom (h : Q (f s))
    (h' : Q (f.under hide restore s)) : Ends ((atom f).starve hide restore) Q s := by
  intro n
  change Ends (atom (if n = 0 then f.under hide restore else f)) Q s
  apply ends_atom
  split
  · exact h'
  · exact h

def Prog.Blind (hide : σ → σ) (restore : σ → σ → σ) : Prog σ φ α → Prop
  | .ret _ => True
  | .act f k => (∀ s, f.under hide restore s = f s) ∧ ∀ b, (k b).Blind hide restore
  | .pick k => ∀ n, (k n).Blind hide restore

theorem blind_bind {x : Prog σ φ β} {g : β → Prog σ φ α} (h : x.Blind hide restore)
    (hg : ∀ b, (g b).Blind hide restore) : (x >>= g).Blind hide restore := by
  induction x with
  | ret a => exact hg a
  | act f k ih => exact ⟨h.1,fun b => ih b (h.2 b)⟩
  | pick k ih => exact fun n => ih n (h n)

theorem blind_pure {a : α} : (pure a : Prog σ φ α).Blind hide restore := trivial

theorem blind_atom (h : ∀ s, f.under hide restore s = f s) :
    (atom f).Blind hide restore := ⟨h,fun _ => trivial⟩

theorem ends_starve_blind (hb : x.Blind hide restore)
    (h : Ends x Q s) : Ends (x.starve hide restore) Q s := by
  induction x generalizing s with
  | ret a => exact h
  | act f k ih =>
    intro n
    have hf : (if n = 0 then f.under hide restore else f) s = f s := by
      split
      · exact hb.1 s
      · rfl
    simp only [Ends] at h ⊢
    rw [hf]
    split at h
    · exact h
    · exact h
    · exact ih _ (hb.2 _) h
  | pick k ih => exact fun n => ih n (hb n) (h n)

theorem ends_of_starve (h : Ends (x.starve hide restore) Q s) : Ends x Q s := by
  induction x generalizing s with
  | ret a => exact h
  | act f k ih =>
    have h1 := h 1
    simp only [Ends] at h1 ⊢
    rw [if_neg (by decide)] at h1
    split at h1
    · exact h1
    · exact h1
    · exact ih _ h1
  | pick k ih => exact fun n => ih n (h n)

/-- The resource need not be gone. -/
theorem can_starve (h : Can x o s) : Can (x.starve hide restore) o s := by
  induction x generalizing s with
  | ret a => exact h
  | act f k ih =>
    refine ⟨1,?_⟩
    simp only [Can] at h ⊢
    rw [if_neg (by decide)]
    split at h
    · exact h
    · exact h
    · exact ih _ h
  | pick k ih =>
    obtain ⟨n,h⟩ := h
    exact ⟨n,ih n h⟩

theorem can_refused (h : f.under hide restore s = o) : Can ((atom f).starve hide restore) o s := by
  refine ⟨0,?_⟩
  simp only [Can, if_true]
  rw [h]
  split
  · rfl
  · rfl
  · rfl

end Starve

end Yeet.Resumption
