import Mathlib.Data.List.Basic

/-!
# Programs on a block store that can crash

A program reads blocks through a cache and writes blocks synchronously, one
after the other. A crash keeps a prefix of the writes and loses the pinned
blocks of the cache. `Safe` is the triple for such programs: `C` holds of the
disk at every crash point and `Q` holds at the end.
-/

namespace Yeet.BlockIo
open Function

/-- The disk and the cached blocks whose contents are newer than the disk. -/
structure Store (ι β : Type) where
  disk : ι → β
  pinned : ι → Option β

variable {ι β α γ : Type} [DecidableEq ι] {s : Store ι β} {k : ℕ}

omit [DecidableEq ι] in
def boot (d : ι → β) : Store ι β := ⟨d,fun _ => none⟩

def Store.read (s : Store ι β) (i : ι) : β := (s.pinned i).getD (s.disk i)

def Store.write (s : Store ι β) (w : ι × β) : Store ι β :=
  ⟨update s.disk w.1 w.2,update s.pinned w.1 none⟩

def Store.writes (s : Store ι β) (ws : List (ι × β)) : Store ι β := ws.foldl Store.write s

/-- A program returns a value and the writes it makes, in order. -/
def Io (ι β α : Type) := Store ι β → α × List (ι × β)

def Io.bind (x : Io ι β α) (f : α → Io ι β γ) : Io ι β γ := fun s =>
  let r := f (x s).1 (s.writes (x s).2)
  (r.1,(x s).2++r.2)

instance : Monad (Io ι β) where
  pure a := fun _ => (a,[])
  bind := Io.bind

def bread (i : ι) : Io ι β β := fun s => (s.read i,[])

def bwrite (i : ι) (b : β) : Io ι β Unit := fun _ => ((),[(i,b)])

def forEach : List γ → (γ → Io ι β Unit) → Io ι β Unit
  | [], _ => pure ()
  | c::cs, f => do
    f c
    forEach cs f

def final (x : Io ι β α) (s : Store ι β) : Store ι β := s.writes (x s).2

/-- The disk when the power fails after `k` writes of the program. -/
def crash (x : Io ι β α) (s : Store ι β) (k : ℕ) : ι → β := (s.writes ((x s).2.take k)).disk

theorem writes_append (s : Store ι β) (ws vs : List (ι × β)) :
    s.writes (ws++vs) = (s.writes ws).writes vs := List.foldl_append

theorem final_bind (x : Io ι β α) (f : α → Io ι β γ) (s : Store ι β) :
    final (x >>= f) s = final (f (x s).1) (final x s) := writes_append s _ _

variable {x : Io ι β α} {f : α → Io ι β γ}

theorem crash_bind_early (h : k ≤ (x s).2.length) : crash (x >>= f) s k = crash x s k := by
  show (s.writes (List.take k (_++_))).disk = _
  rw [List.take_append_of_le_length h]
  rfl

theorem crash_bind_late (h : (x s).2.length ≤ k) :
    crash (x >>= f) s k = crash (f (x s).1) (final x s) (k-(x s).2.length) := by
  show (s.writes (List.take k (_++_))).disk = _
  rw [List.take_append, List.take_of_length_le h, writes_append]
  rfl

def Safe (x : Io ι β α) (s : Store ι β) (C : (ι → β) → Prop) (Q : α → Store ι β → Prop) : Prop :=
  (∀ k, C (crash x s k)) ∧ Q (x s).1 (final x s)

section Rules

variable {x : Io ι β α} {f : α → Io ι β γ} {s : Store ι β} {C D : (ι → β) → Prop}
  {Q R : α → Store ι β → Prop} {T : γ → Store ι β → Prop} {i : ι}

theorem safe_pure {a : α} (hc : C s.disk) (hq : Q a s) : Safe (pure a : Io ι β α) s C Q :=
  ⟨fun k => by simpa [crash, pure, Store.writes] using hc,hq⟩

theorem safe_bwrite {b : β} {Q : Unit → Store ι β → Prop} (hc : C s.disk)
    (hw : C (s.write (i,b)).disk) (hq : Q () (s.write (i,b))) : Safe (bwrite i b) s C Q := by
  refine ⟨fun k => ?_,hq⟩
  cases k with
  | zero => exact hc
  | succ k => simpa [crash, bwrite, Store.writes] using hw

theorem safe_bind (hx : Safe x s C R) (hf : ∀ a s', R a s' → Safe (f a) s' C T) :
    Safe (x >>= f) s C T := by
  have hnext := hf _ _ hx.2
  refine ⟨fun k => ?_,?_⟩
  · rcases Nat.le_total k (x s).2.length with h | h
    · rw [crash_bind_early h]
      exact hx.1 k
    · rw [crash_bind_late h]
      exact hnext.1 _
  · rw [final_bind]
    exact hnext.2

theorem safe_bread {f : β → Io ι β γ} (h : Safe (f (s.read i)) s C T) :
    Safe (bread i >>= f) s C T := h

theorem safe_mono (h : Safe x s C Q) (hc : ∀ d, C d → D d) (hq : ∀ a s', Q a s' → R a s') :
    Safe x s D R :=
  ⟨fun k => hc _ (h.1 k),hq _ _ h.2⟩

/-- The loop rule: the invariant speaks about the part of the list done. -/
theorem safe_forEach {body : γ → Io ι β Unit} {I : List γ → Store ι β → Prop} (l done : List γ)
    (hstep : ∀ pre c post, done++l = pre++c::post → ∀ s, I pre s →
      Safe (body c) s C (fun _ s' => I (pre++[c]) s'))
    (hc : ∀ pre s, I pre s → C s.disk) (h : I done s) :
    Safe (forEach l body) s C (fun _ s' => I (done++l) s') := by
  induction l generalizing done s with
  | nil => exact safe_pure (hc _ _ h) (by simpa using h)
  | cons c cs ih =>
    refine safe_bind (hstep done c cs rfl s h) (fun _ s' hs' => ?_)
    have := ih (done++[c]) (s := s') (fun pre d post e => hstep pre d post (by simpa using e)) hs'
    simpa using this

end Rules

end Yeet.BlockIo
