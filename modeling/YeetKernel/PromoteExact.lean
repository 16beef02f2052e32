import YeetKernel.ProcInvariant

/-!
# What a promotion leaves behind
-/

namespace Yeet.PromoteExact
open Kernel StateLists ProcTable ProcSpec ProcPrio ProcStep ProcInvariant Function

theorem promoted_first (L : ListId → List Slot) :
    promoted L (.ready 0) = L (.ready 0)++L (.ready 1) := by
  simp only [promoted, source, if_true, spliced]
  rw [update_of_ne (by decide), update_self]

theorem promoted_shift (L : ListId → List Slot) (i : Fin MAXPRIO) (hi : 0 < i.val) :
    promoted L (.ready i.castSucc) = L (.ready i.succ) := by
  have h0 : i.castSucc ≠ 0 := fun e => by
    have : i.val = 0 := congrArg Fin.val e
    omega
  have hs0 : ListId.ready i.succ ≠ .ready 0 := fun e =>
    Fin.succ_ne_zero i (ListId.ready.inj e)
  have hs1 : ListId.ready i.succ ≠ .ready 1 := fun e => by
    have : i.val+1 = 1 := congrArg Fin.val (ListId.ready.inj e)
    omega
  have hsrc : source (.ready i.castSucc) = some (.ready i.succ) := by
    rw [source, if_neg h0, dif_pos (show i.castSucc.val < MAXPRIO from i.isLt)]
    rfl
  rw [promoted, hsrc]
  simp only [spliced]
  rw [update_of_ne hs1, update_of_ne hs0]

theorem promoted_last (L : ListId → List Slot) : promoted L (.ready (Fin.last MAXPRIO)) = [] := rfl

/-- Once the deadline has passed, `promoteAll` joins the two highest ready
lists, moves every other one up by a level and empties the lowest; it raises
the sleeping and the running processes by one level and refills every budget. -/
theorem promoteAll_exact {t : Table} {L : ListId → List Slot} (h : Rep t.lists L)
    (hr : ∀ q, t.state q = .runnable → ∃ i, q ∈ L (.ready i))
    (hs : ∀ q, t.state q = .sleeping → q ∈ L .sleep)
    (hu : ∀ q, t.state q = .running → q ∈ L .running) (hb : t.promoteAtTime ≤ t.ticks) :
    ∃ u M, promoteAll t = .ok u ∧ Rep u.lists M ∧ u.state = t.state ∧
      M (.ready 0) = L (.ready 0)++L (.ready 1) ∧
      (∀ i : Fin MAXPRIO, 0 < i.val → M (.ready i.castSucc) = L (.ready i.succ)) ∧
      M (.ready (Fin.last MAXPRIO)) = [] ∧
      (∀ i, ∀ q ∈ M (.ready i), u.priority q = i) ∧
      (∀ q, t.state q = .sleeping ∨ t.state q = .running →
        (u.priority q : ℤ) = max 0 ((t.priority q : ℤ)-1)) ∧
      (∀ q, t.state q = .runnable ∨ t.state q = .sleeping ∨ t.state q = .running →
        u.budget q = MAXBUDG) ∧
      (∀ i, ∀ q ∈ M (.ready i), u.budget q = MAXBUDG) ∧
      ∀ l, l = .embryo ∨ l = .zombie ∨ l = .free → M l = L l := by
  obtain ⟨u,hu',hp⟩ := promoteAll_rep h (BitVec.not_lt.mpr hb)
  have hrep : Rep u.lists (promoted L) := by
    rw [hp.same]
    exact promoteLists_rep h
  have hwait : ∀ q, t.state q = .sleeping ∨ t.state q = .running →
      q ∈ L .sleep ∨ q ∈ L .running := fun q hq => hq.imp (hs q) (hu q)
  refine ⟨u,promoted L,hu',hrep,by rw [hp.same],promoted_first L,promoted_shift L,promoted_last L,
    fun i q hq => (hp.ready i q hq).1,fun q hq => ?_,fun q hq => ?_,
    fun i q hq => (hp.ready i q hq).2,fun l hl => ?_⟩
  · rw [(hp.waiting q (hwait q hq)).1]
    omega
  · rcases hq with hq | hq
    · obtain ⟨i,hi⟩ := hr q hq
      obtain ⟨j,hj⟩ := mem_promoted hi
      exact (hp.ready j q hj).2
    · exact (hp.waiting q (hwait q hq)).2
  · apply promoted_other
    rcases hl with rfl | rfl | rfl <;> simp

theorem promoteAll_exact_forked : ∃ (t : Table) (L : ListId → List Slot) (p q : Slot),
    t.state p = .runnable ∧ t.state q = .sleeping ∧ Rep t.lists L ∧ t.promoteAtTime ≤ t.ticks ∧
    ∃ u M, promoteAll t = .ok u ∧ Rep u.lists M ∧
      M (.ready 0) = L (.ready 0)++L (.ready 1) ∧ u.budget p = MAXBUDG ∧
      (u.priority q : ℤ) = max 0 ((t.priority q : ℤ)-1) := by
  obtain ⟨s₀,h,s,h0,hrun,-,p,q,hp,hq⟩ := bootRun_reaches (bootAndFork++[.sleep bootCpu 7])
    (fun _ s => ∃ p q, s.tab.state p = .runnable ∧ s.tab.state q = .sleeping) (by decide +kernel)
  obtain ⟨L,hL⟩ := (run_consistent (start_consistent h0 True) hrun (allowed_true h)).placed
  have hL' : Listed True none { s.tab with promoteAtTime := 0 } L := hL.congr rfl rfl rfl
  have hb : (0 : Uint) ≤ s.tab.ticks := by simp [BitVec.le_def]
  obtain ⟨u,M,hu,hM,-,h1,-,-,-,h2,h3,-⟩ := promoteAll_exact hL'.rep
    (fun q hq => ⟨_,hL'.mem_ready hq⟩) (fun q hq => hL'.mem_sleep hq)
    (fun q hq => hL'.mem_running hq) hb
  exact ⟨{ s.tab with promoteAtTime := 0 },L,p,q,hp,hq,hL'.rep,hb,u,M,hu,hM,h1,h3 p (Or.inl hp),
    h2 q (Or.inl hq)⟩

end Yeet.PromoteExact
