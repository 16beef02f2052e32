import YeetKernel.ProcChange
import YeetKernel.Scheduler

/-!
# Round robin within a level

Ready lists grow at the tail, lose the dispatched process, and are moved up as
a whole by a promotion.
-/

namespace Yeet.RoundRobin
open Kernel StateLists ProcTable ProcSpec ProcExit ProcPrio ProcStep ProcControl ProcEffect
open ProcInvariant ProcShift Scheduler

def readySeq (t : Table) (i : Level) : List Slot :=
  match walkFrom t.lists (t.lists.head (.ready i)) with
  | .ok l => l
  | .error _ => []

def Before (t : Table) (p q : Slot) : Prop := ∃ i : Level, [p,q].Sublist (readySeq t i)

instance decidableBefore (t : Table) (p q : Slot) : Decidable (Before t p q) :=
  inferInstanceAs (Decidable (∃ i : Level, [p,q].Sublist (readySeq t i)))

inductive Queueing (L M : ListId → List Slot) : Event → Prop where
  | grows (e : Event) (h : Grows L M) : Queueing L M e
  | promoted (e : Event) (h : M = promoted L) : Queueing L M e
  | taken (p : Slot) (j : Level) (h : ∀ i, M (.ready i) = (L (.ready i)).erase p) :
      Queueing L M (.dispatched p j)

variable {L M : ListId → List Slot} {p q : Slot} {e : Event}

theorem readySeq_eq {leak : Prop} {t : Table} (h : Listed leak none t L) (i : Level) :
    readySeq t i = L (.ready i) := by
  rw [readySeq, h.walk]

theorem moveFront_grows (L : ListId → List Slot) (p : Slot) {a b : ListId}
    (ha : ∀ i, a ≠ .ready i) (hb : ∀ i, b ≠ .ready i) : Grows L (moveFront L p a b) := by
  intro i
  simp [moveFront, (ha i).symm, (hb i).symm]

theorem Queueing.ordered (h : Queueing L M e) {i : Level}
    (hpq : [p,q].Sublist (L (.ready i))) (hp : ∀ j, e ≠ .dispatched p j) (hq : ∀ j, e ≠ .dispatched q j) :
    ∃ j, [p,q].Sublist (M (.ready j)) := by
  cases h with
  | grows _ h => exact ⟨i,hpq.trans (h i).sublist⟩
  | promoted _ h =>
    obtain ⟨j,hj⟩ := promoted_infix L i
    exact ⟨j,h ▸ hpq.trans hj.sublist⟩
  | taken x j h =>
    refine ⟨i,?_⟩
    have hpx : p ≠ x := fun e => hp j (by rw [e])
    have hqx : q ≠ x := fun e => hq j (by rw [e])
    have he : [p,q].erase x = [p,q] := List.erase_of_not_mem (by simp [hpx.symm, hqx.symm])
    rw [h i, ← he]
    exact hpq.erase x

theorem effect_queueing {s s' : State} {a : Action} (hc : Consistent True s)
    (hL : Listed True none s.tab L) (he : Effect s a s' e) :
    ∃ M, Listed True none s'.tab M ∧ Queueing L M e := by
  obtain ⟨M,hM,hx⟩ := effect_shift hc hL he
  refine ⟨M,hM,?_⟩
  generalize s'.tab = u, s'.cpu = k at hx
  cases hx with
  | switch event keeps killed free queue state asleep boot =>
    rcases queue with h | h | ⟨x,j,rfl,h⟩
    · exact .grows _ h
    · exact .promoted _ h
    · exact .taken x j h
  | alloc hf hq act init | abort ha hcpu hd =>
    exact .grows _ (moveFront_grows L _ (by simp) (by simp))
  | stack hq boot | noStack hd => exact .grows _ (.refl L)
  | first hcpu | born hp hd | reaped hq hx boot => exact .grows _ (move_grows L _ (by simp))
  | dies hp hi hx free grows boot => exact .grows _ grows

section Runs

variable {s s' : State} {a : Action} {e : Event}

def Waiting (p q : Slot) (h : List (Action × Event)) : Prop :=
  ∀ x ∈ h, ∀ j, x.2 ≠ .dispatched p j ∧ x.2 ≠ .dispatched q j

theorem before_step (hc : Consistent True s) (hx : exec s a = some (.ok (s',e)))
    (hb : Before s.tab p q) (hw : ∀ j, e ≠ .dispatched p j ∧ e ≠ .dispatched q j) :
    Before s'.tab p q := by
  obtain ⟨L,hL⟩ := hc.placed
  obtain ⟨i,hi⟩ := hb
  rw [readySeq_eq hL] at hi
  obtain ⟨M,hM,hq⟩ := effect_queueing hc hL (exec_effect hx)
  obtain ⟨j,hj⟩ := hq.ordered hi (fun j => (hw j).1) (fun j => (hw j).2)
  exact ⟨j,by rwa [readySeq_eq hM]⟩

theorem not_second {j : Level} (hc : Consistent True s)
    (hx : exec s a = some (.ok (s',.dispatched q j))) : ¬ Before s.tab p q := by
  rintro ⟨i,hi⟩
  obtain ⟨L,hL⟩ := hc.placed
  rw [readySeq_eq hL] at hi
  obtain ⟨c,k,-,-,hh⟩ := dispatched_effect hx
  have hq : q ∈ L (.ready i) := hi.subset (by simp)
  obtain rfl := ListId.ready.inj (hL.unique hq (hL.mem_head hh))
  have hhead := (hL.rep.queue (.ready i)).head_eq
  have hn := (hL.rep.queue (.ready i)).nodup
  rw [hh] at hhead
  cases hl : L (.ready i) with
  | nil =>
    rw [hl] at hhead
    cases hhead
  | cons x l =>
    rw [hl] at hhead hi hn
    obtain rfl := Option.some.inj hhead
    -- `q` is the head of the list and also comes after `p`
    cases hi with
    | cons _ h | cons_cons _ h => exact (List.nodup_cons.mp hn).1 (h.subset (by simp))

/-- Two processes on one ready list, in any run from there on: either neither
has been dispatched and their order is the same, or the first dispatch of
either was that of the one in front. -/
theorem round_robin {s₀ : State} {h h' : List (Action × Event)} (h0 : Start s₀)
    (hr : Run s₀ h s) (hb : Before s.tab p q) (hr' : Run s h' s') :
    Waiting p q h' ∧ Before s'.tab p q ∨
      ∃ h₁ b j h₂, h' = h₁++(b,.dispatched p j)::h₂ ∧ Waiting p q h₁ := by
  have hc : Consistent True s := run_consistent (start_consistent h0 True) hr (allowed_true h)
  induction hr' with
  | nil => exact Or.inl ⟨by simp [Waiting],hb⟩
  | @snoc s₁ s₂ h' b e run step ih =>
    rcases ih with ⟨hw,hb₁⟩ | ⟨h₁,b',j,h₂,rfl,hw⟩
    · have hc₁ := run_consistent hc run (allowed_true h')
      by_cases hp : ∃ j, e = .dispatched p j
      · obtain ⟨j,rfl⟩ := hp
        exact Or.inr ⟨h',b,j,[],rfl,hw⟩
      have hq : ∀ j, e ≠ .dispatched q j := by
        rintro j rfl
        exact not_second hc₁ step hb₁
      have he : ∀ j, e ≠ .dispatched p j ∧ e ≠ .dispatched q j :=
        fun j => ⟨fun e => hp ⟨j,e⟩,hq j⟩
      refine Or.inl ⟨?_,before_step hc₁ step hb₁ he⟩
      intro x hx
      rcases List.mem_append.mp hx with hx | hx
      · exact hw x hx
      · rw [List.mem_singleton.mp hx]
        exact he
    · exact Or.inr ⟨h₁,b',j,h₂++[(b,e)],by simp,hw⟩

end Runs

def twoChildren : List Action :=
  bootAndFork++[.forkAlloc bootCpu,.forkStack bootCpu true,.forkDone bootCpu]

def nextPass : List Action :=
  [.yield bootCpu,.schedNext bootCpu,.schedBegin bootCpu,.schedNext bootCpu]

theorem round_robin_children : ∃ s₀ h s h' s' p q, Start s₀ ∧ Run s₀ h s ∧
    h.map Prod.fst = twoChildren ∧ Before s.tab p q ∧ Run s h' s' ∧ h'.map Prod.fst = nextPass ∧
    s'.tab.state p = .running ∧ s'.tab.state q = .runnable ∧
    ∃ h₁ b j h₂, h' = h₁++(b,.dispatched p j)::h₂ ∧ Waiting p q h₁ := by
  obtain ⟨s₀,h,s,h0,hrun,hacts,p,q,hb,hc⟩ := bootRun_reaches twoChildren
    (fun _ s => ∃ p q, Before s.tab p q ∧ ((Lts.replay exec s nextPass).any (fun r =>
      decide (r.2.tab.state p = .running ∧ r.2.tab.state q = .runnable))) = true)
    (by decide +kernel)
  obtain ⟨h',s',hrun',hacts',hp,hq⟩ := Lts.replay_reaches exec s nextPass
    (fun _ s' => s'.tab.state p = .running ∧ s'.tab.state q = .runnable) hc
  refine ⟨s₀,h,s,h',s',p,q,h0,hrun,hacts,hb,hrun',hacts',hp,hq,?_⟩
  rcases round_robin h0 hrun hb hrun' with ⟨-,i,hi⟩ | hfirst
  · obtain ⟨L,hL⟩ := (run_consistent (run_consistent (start_consistent h0 True) hrun
      (allowed_true h)) hrun' (allowed_true h')).placed
    rw [readySeq_eq hL] at hi
    have := (hL.fits _ p (hi.subset (by simp))).1
    rw [hp] at this
    cases this
  · exact hfirst

end Yeet.RoundRobin
