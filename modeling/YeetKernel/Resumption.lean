import YeetKernel.Lts

/-!
# Programs of atomic actions

A program is a tree of atomic actions on a shared state. An action may be
blocked, may fail, or leads to a new state and a result; `pick` stands for a
value that comes from outside. A session runs one program at a time, each to
its end, and is observed after every action.
-/

namespace Yeet.Resumption

abbrev Atom (σ φ β : Type) := σ → Option (Except φ (β × σ))

inductive Prog (σ φ α : Type) : Type 1 where
  | ret (a : α)
  | act {β : Type} (f : Atom σ φ β) (k : β → Prog σ φ α)
  | pick (k : ℕ → Prog σ φ α)

variable {σ φ α β γ P C : Type}

def Prog.bind : Prog σ φ α → (α → Prog σ φ β) → Prog σ φ β
  | .ret a, g => g a
  | .act f k, g => .act f (fun b => (k b).bind g)
  | .pick k, g => .pick (fun n => (k n).bind g)

instance : Monad (Prog σ φ) where
  pure := .ret
  bind := Prog.bind

def atom (f : Atom σ φ β) : Prog σ φ β := .act f .ret

def choose : Prog σ φ ℕ := .pick .ret

def fail (e : φ) : Prog σ φ α := atom (fun _ => some (.error e))

def assign (f : σ → σ) : Prog σ φ Unit := atom (fun s => some (.ok ((),f s)))

def fetch (f : σ → β) : Prog σ φ β := atom (fun s => some (.ok (f s,s)))

/-- The action on a part of a larger state. -/
def Atom.embed {τ : Type} (get : τ → σ) (set : τ → σ → τ) (f : Atom σ φ β) : Atom τ φ β :=
  fun t => match f (get t) with
    | none => none
    | some (.error e) => some (.error e)
    | some (.ok (b,s)) => some (.ok (b,set t s))

def Prog.embed {τ : Type} (get : τ → σ) (set : τ → σ → τ) : Prog σ φ α → Prog τ φ α
  | .ret a => .ret a
  | .act f k => .act (f.embed get set) (fun b => (k b).embed get set)
  | .pick k => .pick (fun n => (k n).embed get set)

def Prog.guard (g : σ → Bool) : Prog σ φ α → Prog σ φ α
  | .act f k => .act (fun s => if g s then f s else none) k
  | x => x

theorem embed_bind {τ : Type} (get : τ → σ) (set : τ → σ → τ) (x : Prog σ φ α)
    (g : α → Prog σ φ β) :
    (x >>= g).embed get set = x.embed get set >>= fun a => (g a).embed get set := by
  induction x with
  | ret a => rfl
  | act f k ih | pick k ih => exact congrArg _ (funext ih)

theorem embed_eq_ok {τ : Type} {get : τ → σ} {set : τ → σ → τ} {f : Atom σ φ β} {t t' : τ}
    {b : β} (h : f.embed get set t = some (.ok (b,t'))) :
    ∃ s, f (get t) = some (.ok (b,s)) ∧ t' = set t s := by
  unfold Atom.embed at h
  split at h
  · cases h
  · cases h
  · rename_i c s hs
    cases h
    exact ⟨s,hs,rfl⟩

/-- All actions of the program are in the relation. -/
def Prog.Does (R : σ → σ → Prop) : Prog σ φ α → Prop
  | .ret _ => True
  | .act f k => (∀ s b s', f s = some (.ok (b,s')) → R s s') ∧ ∀ b, (k b).Does R
  | .pick k => ∀ n, (k n).Does R

section Does

variable {R : σ → σ → Prop} {x : Prog σ φ α}

theorem does_bind {g : α → Prog σ φ β} (h : x.Does R)
    (hg : ∀ a, (g a).Does R) : (x >>= g).Does R := by
  induction x with
  | ret a => exact hg a
  | act f k ih => exact ⟨h.1,fun b => ih b (h.2 b)⟩
  | pick k ih => exact fun n => ih n (h n)

theorem does_mono {R' : σ → σ → Prop} (h : x.Does R)
    (hR : ∀ s s', R s s' → R' s s') : x.Does R' := by
  induction x with
  | ret a => trivial
  | act f k ih => exact ⟨fun s b s' e => hR s s' (h.1 s b s' e),fun b => ih b (h.2 b)⟩
  | pick k ih => exact fun n => ih n (h n)

theorem does_pure {a : α} : (pure a : Prog σ φ α).Does R := trivial

theorem does_atom {f : Atom σ φ β} (h : ∀ s b s', f s = some (.ok (b,s')) → R s s') :
    (atom f).Does R := ⟨h,fun _ => trivial⟩

theorem does_choose : (choose : Prog σ φ ℕ).Does R := fun _ => trivial

theorem does_fail {e : φ} : (fail e : Prog σ φ α).Does R :=
  does_atom (fun _ _ _ h => by cases h)

theorem does_assign {f : σ → σ} (h : ∀ s, R s (f s)) : (assign f : Prog σ φ Unit).Does R := by
  apply does_atom
  intro s b s' hs
  cases hs
  exact h s

theorem does_fetch {f : σ → β} (h : ∀ s, R s s) : (fetch f : Prog σ φ β).Does R := by
  apply does_atom
  intro s b s' hs
  cases hs
  exact h s

theorem does_embed {τ : Type} {get : τ → σ} {set : τ → σ → τ} {R : τ → τ → Prop}
    (h : ∀ t s, R t (set t s)) (x : Prog σ φ α) : (x.embed get set).Does R := by
  induction x with
  | ret a => exact trivial
  | act f k ih =>
    refine ⟨fun t b t' ht => ?_,ih⟩
    obtain ⟨s,_,rfl⟩ := embed_eq_ok ht
    exact h t s
  | pick k ih => exact ih

end Does

/-- What processes do: which of them may start calls, the programs of the calls,
and what the end of a call does to the state. -/
structure Machine (σ φ P C α : Type) where
  enabled : σ → P → Bool
  code : P → C → Prog σ φ α
  leave : P → C → σ → σ

/-- The state and the call in progress. -/
structure Session (σ φ P C α : Type) where
  state : σ
  current : Option (P × C × Prog σ φ α)

inductive Move (P C : Type) where
  | call (p : P) (c : C)
  | step (n : ℕ)

inductive Seen (P C α : Type) where
  | called (p : P) (c : C)
  | moved
  | returned (p : P) (c : C) (a : α)

/-- A process starts a call when none is in progress; the call then takes its
actions one by one. -/
def exec (m : Machine σ φ P C α) (x : Session σ φ P C α) :
    Move P C → Option (Except φ (Session σ φ P C α × Seen P C α))
  | .call p c =>
    match x.current with
    | none =>
      if m.enabled x.state p then some (.ok (⟨x.state,some (p,c,m.code p c)⟩,.called p c))
      else none
    | some _ => none
  | .step n =>
    match x.current with
    | none => none
    | some (p,c,.ret a) => some (.ok (⟨m.leave p c x.state,none⟩,.returned p c a))
    | some (p,c,.pick k) => some (.ok (⟨x.state,some (p,c,k n)⟩,.moved))
    | some (p,c,.act f k) =>
      match f x.state with
      | none => none
      | some (.error e) => some (.error e)
      | some (.ok (b,s)) => some (.ok (⟨s,some (p,c,k b)⟩,.moved))

end Yeet.Resumption
