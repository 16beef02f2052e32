import YeetKernel.ProcEffect
import YeetKernel.ProcInvariant

/-!
# The order of dispatch

The dispatch loop looks at the ready lists from its index on and keeps the
index while the dispatched process runs. A dispatch therefore takes the head
of the first non-empty list from the index on.
-/

namespace Yeet.Scheduler
open Kernel StateLists ProcTable ProcSwitch ProcStep ProcControl ProcEffect ProcInvariant

variable {t : Table} {k : ℕ} {j : Level}

theorem nextReady_none : nextReady t k = none ↔
    ∀ i : Level, k ≤ i → t.lists.head (.ready i) = none := by
  simp [nextReady, List.find?_eq_none]

theorem nextReady_some (h : nextReady t k = some j) : k ≤ j ∧ t.lists.head (.ready j) ≠ none ∧
      ∀ i : Level, k ≤ i → i < j → t.lists.head (.ready i) = none := by
  obtain ⟨hj,n,hn,hnj,hlt⟩ := List.find?_eq_some_iff_getElem.mp h
  rw [List.getElem_finRange] at hnj
  obtain ⟨hk,hh⟩ := of_decide_eq_true hj
  refine ⟨hk,hh,fun i hi hij => ?_⟩
  have hin : i.val < n := by
    rw [← hnj] at hij
    exact hij
  have := hlt i.val hin
  simpa [List.getElem_finRange, hi] using this

def TopReady (t : Table) (p : Slot) (j : Level) : Prop :=
  t.lists.head (.ready j) = some p ∧ ∀ i < j, t.lists.head (.ready i) = none

theorem dispatched_effect {s s' : State} {a : Action} {p : Slot}
    (h : exec s a = some (.ok (s',.dispatched p j))) :
    ∃ c i, s.cpu c = .scanning i ∧ nextReady s.tab i = some j ∧
      s.tab.lists.head (.ready j) = some p := by
  generalize he : Event.dispatched p j = e at h
  cases exec_effect h with
  | dispatch c i j' p' t hc hn hh op =>
    obtain ⟨rfl,rfl⟩ := Event.dispatched.inj he
    exact ⟨c,i,hc,hn,hh⟩
  | _ => cases he

theorem schedNext_dispatches {leak : Prop} {s : State} {c : Cpu}
    (h : Consistent leak s) (hc : s.cpu c = .scanning k) (hn : nextReady s.tab k = some j) :
    ∃ p s', exec s (.schedNext c) = some (.ok (s',.dispatched p j)) := by
  obtain ⟨L,hL⟩ := h.placed
  obtain ⟨p,hp⟩ := Option.ne_none_iff_exists'.mp (nextReady_some hn).2.1
  obtain ⟨ls,hd,-⟩ := dispatch_spec hL (hL.fits _ p (hL.mem_head hp)).1
  exact ⟨p,_,by simp only [exec, scheduler, hc, hn, hp, hd, ok_bind]; rfl⟩

/-- In a reachable state every possible dispatch takes the head of the lowest
non-empty ready list, exactly if no scheduling CPU has work both behind its
loop index and from that index on. -/
theorem dispatch_strict_iff {s₀ s : State} {h : List (Action × Event)} (h0 : Start s₀)
    (hr : Run s₀ h s) :
    (∀ a s' p j, exec s a = some (.ok (s',.dispatched p j)) → TopReady s.tab p j) ↔
      ∀ c k, s.cpu c = .scanning k → (∀ i : Level, i < k → s.tab.lists.head (.ready i) = none) ∨
          ∀ i : Level, k ≤ i → s.tab.lists.head (.ready i) = none := by
  have hi : Consistent True s := run_consistent (start_consistent h0 True) hr (allowed_true h)
  constructor
  · intro hstrict c k hc
    by_contra hno
    obtain ⟨hbelow,habove⟩ := not_or.mp hno
    cases hn : nextReady s.tab k with
    | none => exact habove (nextReady_none.mp hn)
    | some j =>
      obtain ⟨p,s',hx⟩ := schedNext_dispatches hi hc hn
      refine hbelow (fun i hik => (hstrict _ s' p j hx).2 i ?_)
      exact Fin.lt_def.mpr (lt_of_lt_of_le hik (nextReady_some hn).1)
  intro hcond a s' p j hx
  obtain ⟨c,k,hc,hn,hh⟩ := dispatched_effect hx
  obtain ⟨hk,hj,hfirst⟩ := nextReady_some hn
  refine ⟨hh,fun i hij => ?_⟩
  rcases hcond c k hc with hbelow | habove
  · by_cases hik : i.val < k
    · exact hbelow i hik
    · exact hfirst i (not_lt.mp hik) hij
  · exact absurd (habove j hk) hj

def firstPass : List Action := bootAndFork.take 4

theorem dispatch_strict_first_pass : ∃ s₀ h s, Start s₀ ∧ Run s₀ h s ∧
    h.map Prod.fst = firstPass ∧ s.cpu bootCpu = .scanning 0 ∧
    ∀ a s' p j, exec s a = some (.ok (s',.dispatched p j)) → TopReady s.tab p j := by
  obtain ⟨s₀,h,s,h0,hrun,hacts,hcpu⟩ := bootRun_reaches firstPass
    (fun _ s => ∀ c, s.cpu c = if c = bootCpu then .scanning 0 else .idle) (by decide +kernel)
  refine ⟨s₀,h,s,h0,hrun,hacts,hcpu bootCpu,(dispatch_strict_iff h0 hrun).mpr ?_⟩
  intro c k hc
  rw [hcpu c] at hc
  split at hc
  · obtain rfl : 0 = k := CpuCtl.scanning.inj hc
    exact Or.inl (fun i hi => absurd hi (Nat.not_lt_zero _))
  · cases hc

/-- The first process gives itself priority 1 and yields: the pass goes on at
level 1 and dispatches it again, ahead of its child on level 0. -/
def skipLevel : List Action :=
  bootAndFork++[.setPriority bootCpu 1 1,.yield bootCpu]

def dispatchLevel : Option (Except Fault (State × Event)) → Option Level
  | some (.ok (_,.dispatched _ j)) => some j
  | _ => none

theorem dispatch_skips_level : ∃ s₀ h s s' p, Start s₀ ∧ Run s₀ h s ∧ h.map Prod.fst = skipLevel ∧
    exec s (.schedNext bootCpu) = some (.ok (s',.dispatched p 1)) ∧
    s.tab.lists.head (.ready 0) ≠ none ∧ ¬ TopReady s.tab p 1 := by
  obtain ⟨s₀,h,s,h0,hrun,hacts,hj,hne⟩ := bootRun_reaches skipLevel
    (fun _ s => dispatchLevel (exec s (.schedNext bootCpu)) = some 1 ∧
      s.tab.lists.head (.ready 0) ≠ none) (by decide +kernel)
  unfold dispatchLevel at hj
  split at hj
  · rename_i s' p j he
    obtain rfl : j = 1 := Option.some.inj hj
    exact ⟨s₀,h,s,s',p,h0,hrun,hacts,he,hne,fun ht => hne (ht.2 0 (by decide))⟩
  · cases hj

end Yeet.Scheduler
