import YeetKernel.ProcInvariant
import YeetKernel.WaitQueue

/-!
# The sleep list as a queue

`sleep` appends the caller to the sleep list, `wakeup1` takes the first
sleeper on the channel off it, and `kill` may take off the process that it
kills.
-/

namespace Yeet.SleepList
open Kernel StateLists ProcTable ProcSpec ProcSwitch ProcStep ProcInvariant WaitQueue Function

def sleepers (t : Table) : Queue Slot (Option Chan) :=
  match walkFrom t.lists (t.lists.head .sleep) with
  | .ok l => l.map (fun q => (q,t.chan q))
  | .error _ => []

section Table

variable {leak : Prop} {t : Table} {L : ListId → List Slot} {p : Slot}

theorem sleepers_eq (h : Listed leak none t L) :
    sleepers t = (L .sleep).map (fun q => (q,t.chan q)) := by
  rw [sleepers, h.walk .sleep]

theorem wake_map (f : Slot → Option Chan) (c : Option Chan) (l : List Slot) :
    wake c (l.map (fun q => (q,f q))) = (l.eraseP (fun q => f q = c)).map (fun q => (q,f q)) := by
  rw [wake, List.eraseP_map]
  rfl

theorem leave_map (f : Slot → Option Chan) (p : Slot) (l : List Slot) :
    WaitQueue.leave p (l.map (fun q => (q,f q))) = (l.erase p).map (fun q => (q,f q)) := by
  rw [WaitQueue.leave, List.eraseP_map, List.erase_eq_eraseP]
  congr 2
  funext q
  simp [Function.comp, eq_comm, beq_eq_decide]

theorem wakeup1_wakes (h : Listed leak none t L) (chan : Option Chan) :
    ∃ u, wakeup1 chan t = .ok u ∧ sleepers u = wake chan (sleepers t) := by
  cases hf : (L .sleep).find? (fun q => t.chan q = chan) with
  | none =>
    have hnone : ∀ q ∈ L .sleep, t.chan q ≠ chan := fun q hq => by
      simpa using List.find?_eq_none.mp hf q hq
    refine ⟨t,wakeup1_none h hnone,?_⟩
    rw [sleepers_eq h, wake_map, List.eraseP_of_forall_not (by simpa using hnone)]
  | some q =>
    obtain ⟨ls,hw,hM⟩ := wakeup1_some h hf
    refine ⟨_,hw,?_⟩
    obtain ⟨hq,a,b,hl,ha⟩ := List.find?_eq_some_iff_append.mp hf
    have hnd := (h.rep.queue .sleep).nodup
    rw [hl] at hnd
    have hqa : q ∉ a := fun hm => by
      have := List.disjoint_of_nodup_append hnd hm
      simp at this
    have herase : (a++q::b).eraseP (fun q => t.chan q = chan) = (a++q::b).erase q := by
      rw [List.eraseP_append_right _ (by simpa using ha), List.erase_append_right _ hqa]
      simp_all
    rw [sleepers_eq hM, sleepers_eq h, wake_map]
    simp [move, readyOf, hl, herase]

theorem sleep_joins (h : Listed leak none t L) (hs : t.state p = .running) (chan : Chan) :
    ∃ u, sleep p chan t = .ok u ∧ sleepers u = sleepers t++[(p,some chan)] := by
  obtain ⟨ls,hu,hM⟩ := sleep_spec h hs chan
  refine ⟨_,hu,?_⟩
  have hp : p ∉ L .sleep := fun hm => by
    have hsl : t.state p = .sleeping := h.fits .sleep p hm
    rw [hs] at hsl
    cases hsl
  have hsame : ∀ q ∈ L .sleep, update t.chan p (some chan) q = t.chan q := by
    intro q hq
    refine update_of_ne ?_ _ _
    rintro rfl
    exact hp hq
  rw [sleepers_eq hM, sleepers_eq h]
  simp only [accounted, charged_chan, move, ne_eq, reduceCtorEq, not_false_eq_true, update_of_ne,
    update_self, List.map_append, List.map_cons, List.map_nil]
  congr 1
  exact List.map_congr_left (fun q hq => by rw [hsame q hq])

theorem kill_leaves (h : Listed leak none t L) (pid : Uint) : ∃ r u, kill pid t = .ok (r,u) ∧
      (sleepers u = sleepers t ∨
        ∃ q, t.pid q = pid ∧ sleepers u = WaitQueue.leave q (sleepers t)) := by
  rw [kill]
  rcases findPid_spec h pid liveLists with hf | ⟨l,hml,q,hq,hpid,hf⟩
  · rw [hf, ok_bind]
    exact ⟨_,_,rfl,Or.inl rfl⟩
  rw [hf, ok_bind]
  have h0 : Listed leak none { t with killed := update t.killed q true } L :=
    h.congr rfl rfl rfl
  by_cases hl : l = .sleep
  · subst hl
    obtain ⟨ls,hlv,h1⟩ := leave_spec h0 "kill - remove from sleep failed\n" hq
      (h.fits .sleep q hq)
    obtain ⟨ls',hm,h2⟩ := makeReady_spec h1
    refine ⟨0,_,?_,Or.inr ⟨q,hpid,(sleepers_eq h2).trans ?_⟩⟩
    · simp only [if_true, hlv, ok_bind, hm]
      rfl
    · rw [sleepers_eq h, leave_map]
      simp [readyOf]
  · simp only [if_neg hl]
    exact ⟨_,_,rfl,Or.inl rfl⟩

end Table

/-- In every reachable state `wakeup1`, `sleep` and `kill` change the sleep list as
the operations on queues of sleepers do. -/
theorem sleep_list_queues {s₀ s : State} {h : List (Action × Event)} (h0 : Start s₀)
    (hr : Run s₀ h s) : (∀ c, ∃ u, wakeup1 c s.tab = .ok u ∧ sleepers u = wake c (sleepers s.tab)) ∧
    (∀ p c, s.tab.state p = .running →
      ∃ u, sleep p c s.tab = .ok u ∧ sleepers u = sleepers s.tab++[(p,some c)]) ∧
    ∀ pid, ∃ r u, kill pid s.tab = .ok (r,u) ∧ (sleepers u = sleepers s.tab ∨
      ∃ q, s.tab.pid q = pid ∧ sleepers u = WaitQueue.leave q (sleepers s.tab)) := by
  obtain ⟨L,hL⟩ := (run_consistent (start_consistent h0 True) hr (allowed_true h)).placed
  exact ⟨wakeup1_wakes hL,fun p c hp => sleep_joins hL hp c,kill_leaves hL⟩

theorem sleep_list_queues_forked : ∃ s₀ h s p, Start s₀ ∧ Run s₀ h s ∧
    h.map Prod.fst = bootAndFork ∧ s.tab.state p = .running ∧
    ∀ c, ∃ u, sleep p c s.tab = .ok u ∧ sleepers u = sleepers s.tab++[(p,some c)] := by
  obtain ⟨s₀,h,s,h0,hr,ha,p,hp⟩ := bootRun_reaches bootAndFork
    (fun _ s => ∃ p, s.tab.state p = .running) (by decide +kernel)
  exact ⟨s₀,h,s,p,h0,hr,ha,hp,fun c => (sleep_list_queues h0 hr).2.1 p c hp⟩

end Yeet.SleepList
