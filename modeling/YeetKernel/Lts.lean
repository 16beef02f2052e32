import Mathlib.Data.List.Basic

/-!
# Runs of a labelled transition function

`exec` says what an action does in a state: nothing is possible, it fails, or
it leads to a new state and shows an event. A run collects the actions and
events of successful steps.
-/

namespace Yeet.Lts

variable {σ α ε φ : Type*}

/-- A run and the actions and events it consists of, oldest first. -/
inductive Run (exec : σ → α → Option (Except φ (σ × ε))) (s : σ) : List (α × ε) → σ → Prop where
  | nil : Run exec s [] s
  | snoc {s' s'' : σ} {h : List (α × ε)} {a : α} {e : ε} (run : Run exec s h s')
      (step : exec s' a = some (.ok (s'',e))) : Run exec s (h++[(a,e)]) s''

variable {exec : σ → α → Option (Except φ (σ × ε))} {s s' : σ} {h : List (α × ε)}
variable {P : σ → α → Prop}

theorem done_inj {e e' : ε}
    (h : (some (.ok (s,e)) : Option (Except φ (σ × ε))) = some (.ok (s',e'))) : s = s' ∧ e = e' :=
  Prod.mk.inj (Except.ok.inj (Option.some.inj h))

theorem Run.cons {s s' s'' : σ} {a : α} {e : ε}
    (step : exec s a = some (.ok (s',e))) (run : Run exec s' h s'') :
    Run exec s ((a,e)::h) s'' := by
  induction run with
  | nil => exact Run.snoc Run.nil step
  | snoc _ step' ih => exact Run.snoc ih step'

theorem Run.append {s s' s'' : σ} {h h' : List (α × ε)} (run : Run exec s h s')
    (run' : Run exec s' h' s'') : Run exec s (h++h') s'' := by
  induction run' with
  | nil => rwa [List.append_nil]
  | snoc _ step ih =>
    rw [← List.append_assoc]
    exact Run.snoc ih step

theorem Run.invariant (run : Run exec s h s') (I : List (α × ε) → σ → Prop) (init : I [] s)
    (keep : ∀ h s a s' e, I h s → exec s a = some (.ok (s',e)) → I (h++[(a,e)]) s') : I h s' := by
  induction run with
  | nil => exact init
  | snoc _ step ih => exact keep _ _ _ _ _ ih step

theorem Run.last {x : α × ε} (run : Run exec s (h++[x]) s') :
    ∃ s₁, Run exec s h s₁ ∧ exec s₁ x.1 = some (.ok (s',x.2)) := by
  generalize hg : h++[x] = g at run
  cases run with
  | nil => simp at hg
  | snoc run step =>
    obtain ⟨rfl,hx⟩ := List.append_inj' hg rfl
    obtain rfl := List.cons.inj hx |>.1
    exact ⟨_,run,step⟩

theorem Run.unique {s s₁ s₂ : σ} (run₁ : Run exec s h s₁) (run₂ : Run exec s h s₂) : s₁ = s₂ := by
  induction run₁ generalizing s₂ with
  | nil =>
    generalize hg : ([] : List (α × ε)) = g at run₂
    cases run₂ with
    | nil => rfl
    | snoc _ _ => simp at hg
  | snoc _ step ih =>
    obtain ⟨s₃,run,step'⟩ := run₂.last
    obtain rfl := ih run
    simp only at step'
    rw [step] at step'
    exact (done_inj step').1

theorem Run.part {h h₁ : List (α × ε)} (run : Run exec s h s') (hp : h₁ <+: h) :
    ∃ s₁, Run exec s h₁ s₁ := by
  induction run with
  | nil =>
    rw [List.prefix_nil] at hp
    exact hp ▸ ⟨s,Run.nil⟩
  | snoc run step ih =>
    rcases List.prefix_concat_iff.mp hp with rfl | hp
    · exact ⟨_,Run.snoc run step⟩
    · exact ih hp

/-- Every action of the history is taken in a state that allows it. -/
def Meets (exec : σ → α → Option (Except φ (σ × ε))) (s : σ) (P : σ → α → Prop)
    (h : List (α × ε)) : Prop :=
  ∀ h₁ x s₁, h₁++[x] <+: h → Run exec s h₁ s₁ → P s₁ x.1

theorem Meets.part {s : σ} {h h₁ : List (α × ε)} (hm : Meets exec s P h)
    (hp : h₁ <+: h) : Meets exec s P h₁ :=
  fun h₂ x s₁ hx => hm h₂ x s₁ (hx.trans hp)

theorem Meets.invariant (hm : Meets exec s P h) (run : Run exec s h s') (I : σ → Prop) (init : I s)
    (keep : ∀ h s₁ a s₂ e, Run exec s h s₁ → I s₁ → P s₁ a →
      exec s₁ a = some (.ok (s₂,e)) → I s₂) : I s' := by
  induction run with
  | nil => exact init
  | snoc run step ih =>
    exact keep _ _ _ _ _ run (ih (hm.part (List.prefix_append _ _)))
      (hm _ _ _ (List.prefix_refl _) run) step

def replay (exec : σ → α → Option (Except φ (σ × ε))) : σ → List α → Option (List (α × ε) × σ)
  | s, [] => some ([],s)
  | s, a::as =>
    match exec s a with
    | some (.ok (s',e)) => (replay exec s' as).map (fun r => ((a,e)::r.1,r.2))
    | _ => none

theorem replay_spec {as : List α}
    (hr : replay exec s as = some (h,s')) : Run exec s h s' ∧ h.map Prod.fst = as := by
  induction as generalizing s h with
  | nil =>
    obtain ⟨rfl,rfl⟩ := Prod.mk.inj (Option.some.inj hr)
    exact ⟨Run.nil,rfl⟩
  | cons a as ih =>
    rw [replay] at hr
    split at hr
    · rename_i s₁ e hx
      obtain ⟨⟨h₁,s₂⟩,hr₁,heq⟩ := Option.map_eq_some_iff.mp hr
      obtain ⟨rfl,rfl⟩ := Prod.mk.inj heq
      obtain ⟨hrun,hacts⟩ := ih hr₁
      exact ⟨Run.cons hx hrun,by simp [hacts]⟩
    · cases hr

/-- A property of the run that a list of actions produces, found by evaluation. -/
theorem replay_reaches (exec : σ → α → Option (Except φ (σ × ε))) (s : σ) (as : List α)
    (C : List (α × ε) → σ → Prop) [∀ h s, Decidable (C h s)]
    (hc : ((replay exec s as).any (fun r => decide (C r.1 r.2))) = true) :
    ∃ h s', Run exec s h s' ∧ h.map Prod.fst = as ∧ C h s' := by
  cases hr : replay exec s as with
  | none =>
    rw [hr] at hc
    cases hc
  | some r =>
    rw [hr] at hc
    obtain ⟨hrun,hacts⟩ := replay_spec hr
    exact ⟨r.1,r.2,hrun,hacts,of_decide_eq_true hc⟩

def guarded (exec : σ → α → Option (Except φ (σ × ε))) (P : σ → α → Prop)
    [∀ s a, Decidable (P s a)] (s : σ) (a : α) : Option (Except φ (σ × ε)) :=
  if P s a then exec s a else none

theorem Run.meets [∀ s a, Decidable (P s a)]
    (run : Run (guarded exec P) s h s') : Run exec s h s' ∧ Meets exec s P h := by
  induction run with
  | nil =>
    refine ⟨Run.nil,fun h₁ x s₁ hp => ?_⟩
    simp at hp
  | snoc _ step ih =>
    rename_i a e _
    obtain ⟨run,hm⟩ := ih
    unfold guarded at step
    split at step
    · rename_i ha
      refine ⟨run.snoc step,fun h₁ x s₁ hp run₁ => ?_⟩
      rcases List.prefix_concat_iff.mp hp with heq | hp
      · obtain ⟨rfl,hx⟩ := List.append_inj' heq rfl
        obtain rfl := (List.cons.inj hx).1
        obtain rfl := run.unique run₁
        exact ha
      · exact hm h₁ x s₁ hp run₁
    · cases step

end Yeet.Lts
