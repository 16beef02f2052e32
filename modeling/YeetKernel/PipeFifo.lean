import YeetKernel.Pipes

/-!
# Pipes are queues
-/

namespace Yeet.Pipes
open Bytes RingBuffer Function

variable {P : Type} [DecidableEq P]

abbrev History (P : Type) := List (Action P × Event P)

def stored (h : History P) : List Byte :=
  h.filterMap (fun x => match x.2 with
    | .stored _ b => some b
    | _ => none)

def storedBy (p : P) (h : History P) : List Byte :=
  h.filterMap (fun x => match x.2 with
    | .stored q b => if q = p then some b else none
    | _ => none)

def delivered (h : History P) : List Byte :=
  h.flatMap (fun x => match x.2 with
    | .returned _ (.got buf) => buf
    | _ => [])

def copied : Ctl → List Byte
  | .inside (.copy _ buf) => buf
  | _ => []

def inHand (s : State P) : List Byte :=
  match s.lock with
  | none => []
  | some p => copied (s.ctl p)

def place : Ctl → Option Place
  | .idle => none
  | .entering k => some k
  | .inside k => some k

/-- Only the holder of the lock is inside, no reader enters in the middle of a
copy, and a writer has stored the bytes that it has counted. -/
structure Orderly (h : History P) (s : State P) : Prop where
  owner : ∀ p k, s.ctl p = .inside k → s.lock = some p
  outside : ∀ p n buf, s.ctl p ≠ .entering (.copy n buf)
  written : ∀ p addr n i, place (s.ctl p) = some (.write addr n i) →
    (List.range i).map addr <:+ storedBy p h

structure Fifo (h : History P) (s : State P) : Prop where
  bound : s.pipe.ring.count ≤ PIPESIZE
  flow : stored h = delivered h++inHand s++s.pipe.ring.contents

section Step

variable {h h' : History P} {s s' : State P} {a : Action P} {e : Event P} {p : P} {k : Ctl}

theorem full_iff (b : Pipe) : b.full = true ↔ b.ring.count = PIPESIZE := by
  rw [Pipe.full, decide_eq_true_iff, count_eq (by decide)]

theorem empty_iff (b : Pipe) : b.empty = true ↔ b.ring.count = 0 := by
  rw [Pipe.empty, decide_eq_true_iff, count_eq_zero]

theorem Orderly.move (hi : Orderly h s) (hctl : s'.ctl = update s.ctl p k)
    (hl : s'.lock = s.lock ∨ s.lock = none ∨ s.lock = some p)
    (hown : ∀ k', k = .inside k' → s'.lock = some p) (hout : ∀ n buf, k ≠ .entering (.copy n buf))
    (hst : ∀ q, q ≠ p → storedBy q h' = storedBy q h)
    (hw : ∀ addr n i, place k = some (.write addr n i) →
      (List.range i).map addr <:+ storedBy p h') : Orderly h' s' := by
  constructor
  · intro q k' hq
    rw [hctl] at hq
    by_cases e : q = p
    · subst e
      rw [update_self] at hq
      exact hown k' hq
    rw [update_of_ne e] at hq
    have ho := hi.owner q k' hq
    rcases hl with hl | hl | hl
    · rw [hl, ho]
    · rw [hl] at ho
      cases ho
    · rw [hl] at ho
      exact absurd (Option.some.inj ho).symm e
  · intro q n buf
    rw [hctl]
    by_cases e : q = p
    · rw [e, update_self]
      exact hout n buf
    · rw [update_of_ne e]
      exact hi.outside q n buf
  intro q addr n i hq
  rw [hctl] at hq
  by_cases e : q = p
  · subst e
    rw [update_self] at hq
    exact hw addr n i hq
  · rw [update_of_ne e] at hq
    rw [hst q e]
    exact hi.written q addr n i hq

theorem orderly_step (hi : Orderly h s) (he : Effect s a s' e) : Orderly (h++[(a,e)]) s' := by
  have hsame : ∀ {p : P}, (∀ q x, e ≠ .stored q x) → storedBy p (h++[(a,e)]) = storedBy p h := by
    intro p hne
    cases e <;> simp_all [storedBy]
  cases he with
  | call p c hc =>
    refine hi.move rfl (Or.inl rfl) (by simp) (by cases c <;> simp [start])
      (fun q _ => hsame (by simp)) (fun addr n i hw => ?_)
    cases c with
    | write addr' n' =>
      obtain ⟨-,-,rfl⟩ : addr' = addr ∧ n' = n ∧ 0 = i := by simpa [place, start] using hw
      exact List.nil_suffix
    | read n' | close w => simp [place, start] at hw
  | acquire p k hc hl ha =>
    refine hi.move rfl (Or.inr (Or.inl hl)) (by simp) (by simp) (fun q _ => hsame (by simp))
      (fun addr n i hw => ?_)
    rw [hsame (by simp)]
    exact hi.written p addr n i (by rw [hc]; exact hw)
  | full p addr n i hc hl hi' hf hk | wrote p addr n i hc hl hi' | readKilled p n hc hl
  | sleepEmpty p n hc hl he ho | got p n buf hc hl hn | closeWrite p hc hl | closeRead p hc hl =>
    exact hi.move rfl (Or.inr (Or.inr hl)) (by simp) (by simp) (fun q _ => hsame (by simp))
      (by simp [place])
  | sleepFull p addr n i hc hl hi' hf ho hk =>
    refine hi.move rfl (Or.inr (Or.inr hl)) (by simp) (by simp) (fun q _ => hsame (by simp))
      (fun addr n i hw => ?_)
    rw [hsame (by simp)]
    exact hi.written p addr n i (by rw [hc]; exact hw)
  | store p addr n i hc hi' hf =>
    have hown := hi.owner p _ hc
    refine hi.move rfl (Or.inl rfl) (fun _ _ => hown) (by simp) (fun q hq => ?_)
      (fun addr' n' i' hw => ?_)
    · simp [storedBy, hq.symm]
    obtain ⟨rfl,rfl,rfl⟩ : addr = addr' ∧ n = n' ∧ i+1 = i' := by simpa [place] using hw
    have hs := hi.written p addr n i (by rw [hc]; rfl)
    rw [List.range_succ, List.map_append]
    have hnew : storedBy p (h++[(.step p,.stored p (addr i))]) = storedBy p h++[addr i] := by
      simp [storedBy]
    rw [hnew]
    obtain ⟨l,hl⟩ := hs
    exact ⟨l,by simp [← hl]⟩
  | copy p n hc ho | take p n buf hc hn he =>
    have hown := hi.owner p _ hc
    exact hi.move rfl (Or.inl rfl) (fun _ _ => hown) (by simp) (fun q _ => hsame (by simp))
      (by simp [place])
  | kill p =>
    exact ⟨hi.owner,hi.outside,fun q addr n i hq => by
      rw [hsame (by simp)]
      exact hi.written q addr n i hq⟩

omit [DecidableEq P] in
theorem inHand_free (hl : s.lock = none) : inHand s = [] := by
  rw [inHand, hl]

omit [DecidableEq P] in
theorem inHand_held (hl : s.lock = some p) : inHand s = copied (s.ctl p) := by
  rw [inHand, hl]

theorem inHand_goto (b : Pipe) (k : Ctl) (hl : s.lock = some p) :
    inHand { s.goto p k with pipe := b } = copied k := by
  have h : inHand { s.goto p k with pipe := b } = copied (update s.ctl p k p) := by
    simp [inHand, State.goto, hl]
  rw [h, update_self]

theorem fifo_step (ho : Orderly h s) (hi : Fifo h s) (he : Effect s a s' e) :
    Fifo (h++[(a,e)]) s' := by
  -- nothing is stored or delivered and what is in the ring and in hand stays
  have hsame : (∀ q x, e ≠ .stored q x) → (∀ q buf, e ≠ .returned q (.got buf)) →
      s'.pipe.ring = s.pipe.ring → inHand s' = inHand s → Fifo (h++[(a,e)]) s' := by
    intro h1 h2 hring hhand
    have hs : stored (h++[(a,e)]) = stored h := by
      cases e <;> simp_all [stored]
    have hd : delivered (h++[(a,e)]) = delivered h := by
      cases e with
      | returned q r => cases r <;> simp_all [delivered]
      | _ => simp [delivered]
    exact ⟨by rw [hring]; exact hi.bound,by rw [hs, hd, hring, hhand]; exact hi.flow⟩
  have hrel : ∀ {p : P} {k : Place}, s.ctl p = .inside k → copied (.inside k) = [] →
      inHand s = [] := by
    intro p k hc hk
    rw [inHand_held (ho.owner p k hc), hc, hk]
  cases he with
  | call p c hc =>
    refine hsame (by simp) (by simp) rfl ?_
    unfold inHand
    simp only [State.goto]
    split
    · rfl
    rename_i q _
    by_cases e : q = p
    · simp [e, hc, copied]
    · rw [update_of_ne e]
  | acquire p k hc hl ha =>
    refine hsame (by simp) (by simp) rfl ?_
    rw [inHand_free hl, inHand_held (p := p) rfl]
    simp only [State.goto, update_self]
    cases k with
    | copy n buf => exact absurd hc (ho.outside p n buf)
    | _ => rfl
  | full p addr n i hc hl hi' hf hk | sleepFull p addr n i hc hl hi' hf ho' hk
  | wrote p addr n i hc hl hi' | readKilled p n hc hl | sleepEmpty p n hc hl he ho'
  | closeWrite p hc hl | closeRead p hc hl =>
    exact hsame (by simp) (by simp) rfl ((inHand_free rfl).trans (hrel hc rfl).symm)
  | store p addr n i hc hi' hf =>
    have hlt : s.pipe.ring.count < PIPESIZE := by
      refine lt_of_le_of_ne hi.bound (fun heq => ?_)
      rw [(full_iff s.pipe).mpr heq] at hf
      cases hf
    have hflow := hi.flow
    rw [hrel hc rfl] at hflow
    constructor
    · show (s.pipe.ring.store (addr i)).count ≤ PIPESIZE
      rw [count_store _ (lt_of_le_of_lt hlt (by decide))]
      exact hlt
    · rw [inHand_goto _ _ (ho.owner p _ hc)]
      simp only [contents_store (c := PIPESIZE) (w := 32) (by decide) (addr i) hlt (by decide)]
      simp_all [stored, delivered, copied]
  | copy p n hc ho' =>
    refine hsame (by simp) (by simp) rfl ?_
    rw [hrel hc rfl]
    exact inHand_goto s.pipe _ (ho.owner p _ hc)
  | take p n buf hc hn he =>
    have hpos : 0 < s.pipe.ring.count := by
      refine Nat.pos_of_ne_zero (fun heq => ?_)
      rw [(empty_iff s.pipe).mpr heq] at he
      cases he
    have hflow := hi.flow
    rw [inHand_held (ho.owner p _ hc), hc, contents_take hpos] at hflow
    constructor
    · show s.pipe.ring.take.count ≤ PIPESIZE
      have := count_take hpos
      have := hi.bound
      omega
    · rw [inHand_goto _ _ (ho.owner p _ hc)]
      simp_all [stored, delivered, copied]
  | got p n buf hc hl hn =>
    have hflow := hi.flow
    rw [inHand_held hl, hc] at hflow
    refine ⟨hi.bound,?_⟩
    rw [inHand_free rfl]
    simp_all [stored, delivered, State.goto, copied]
  | kill p => exact hsame (by simp) (by simp) rfl rfl

end Step

section Runs

variable {s₀ s : State P} {h : History P}

theorem run_orderly (h0 : Start s₀) (hr : Run s₀ h s) : Orderly h s := by
  obtain ⟨-,-,-,-,-,-,hidle⟩ := h0
  induction hr with
  | nil =>
    exact ⟨fun p k hk => by simp [hidle p] at hk,fun p n buf hk => by simp [hidle p] at hk,
      fun p addr n i hk => by simp [hidle p, place] at hk⟩
  | snoc run step ih => exact orderly_step ih (exec_effect step)

theorem run_fifo (h0 : Start s₀) (hr : Run s₀ h s) : Fifo h s := by
  induction hr with
  | nil =>
    obtain ⟨hr,hw,-,-,hl,-,-⟩ := h0
    have hcount : s₀.pipe.ring.count = 0 := (count_eq_zero _).mpr (by rw [hr, hw])
    have hnil : s₀.pipe.ring.contents = [] := (contents_eq_nil _).mpr (by rw [hr, hw])
    refine ⟨by omega,?_⟩
    rw [hnil, inHand_free hl]
    rfl
  | snoc run step ih => exact fifo_step (run_orderly h0 run) ih (exec_effect step)

/-- After every run of readers and writers the ring holds at most `PIPESIZE`
bytes; what was stored is what reads have returned, what the reader inside has
copied and what the ring holds, in this order; and a writer has stored exactly
the bytes of its request that it has counted. -/
theorem pipe_fifo (h0 : Start s₀) (hr : Run s₀ h s) :
    (s.pipe.ring.nwrite-s.pipe.ring.nread).toNat ≤ PIPESIZE ∧
    stored h = delivered h++inHand s++s.pipe.ring.contents ∧
    delivered h <+: stored h ∧
    ∀ p addr n i, place (s.ctl p) = some (.write addr n i) →
      (List.range i).map addr <:+ storedBy p h := by
  have hi := run_fifo h0 hr
  refine ⟨hi.bound,hi.flow,?_,(run_orderly h0 hr).written⟩
  rw [hi.flow, List.append_assoc]
  exact List.prefix_append _ _

end Runs

def fresh : State ℕ :=
  { pipe := ⟨⟨fun _ => 0,0,0⟩,true,true⟩
    lock := none
    asleep := []
    killed := fun _ => false
    ctl := fun _ => .idle }

theorem fresh_start : Start fresh := ⟨rfl,rfl,rfl,rfl,rfl,rfl,fun _ => rfl⟩

def threeAndTwo : List (Action ℕ) :=
  [.call 0 (.write (fun i => BitVec.ofNat 8 (7+i)) 3),.acquire 0,.step 0,.step 0,.step 0,.step 0,
    .call 1 (.read 2),.acquire 1,.step 1,.step 1,.step 1,.step 1]

theorem pipe_fifo_two_read : ∃ h s, Run fresh h s ∧ h.map Prod.fst = threeAndTwo ∧
    delivered h = [7,8] ∧ stored h = [7,8,9] ∧ delivered h <+: stored h := by
  obtain ⟨h,s,hr,hacts,hd,hs⟩ := Lts.replay_reaches exec fresh threeAndTwo
    (fun h _ => delivered h = [7,8] ∧ stored h = [7,8,9]) (by decide +kernel)
  exact ⟨h,s,hr,hacts,hd,hs,(pipe_fifo fresh_start hr).2.2.1⟩

end Yeet.Pipes
