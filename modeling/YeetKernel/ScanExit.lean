import YeetKernel.ScanCalls

/-!
# Exit and wait with and without lists

Every loop of the list versions is related to a loop of the table scans: the
tables stay equal in all fields but the lists. This needs that a wakeup finds
at most one sleeper on the address of a process, and that the slots the list
loops leave out, those on the free list, have no parent.
-/

namespace Yeet.ScanExit
open Kernel StateLists ProcTable ProcSpec ProcExit ProcSwitch WakeAll ScanCalls ProcStep
open ProcInvariant Function

/-- At most one process sleeps on each `struct proc *`, the null pointer included. -/
def Alone (t : Table) : Prop := ∀ r : Option Slot, Single t (r.map .proc)

section Exit

variable {leak : Prop} {t u : Table} {L : ListId → List Slot} {p : Slot}

theorem Alone.wakeup1Scan (h : Alone t) (chan : Option Chan) : Alone (wakeup1Scan chan t) := by
  rw [wakeup1Scan_eq]
  intro r q q' hq hq'
  have hsl : ∀ q, (if t.state q = .sleeping ∧ t.chan q = chan then .runnable else t.state q) =
      ProcState.sleeping → t.state q = .sleeping := by
    intro q hq
    split at hq
    · cases hq
    · exact hq
  exact h r q q' (hsl q hq) (hsl q' hq')

theorem Alone.relist (h : Alone t) (ls : Lists) : Alone { t with lists := ls } := h

theorem abandonFrom_relist (qs : List Slot) (ls : Lists) :
    abandonFrom p qs { t with lists := ls } = { abandonFrom p qs t with lists := ls } := by
  rw [abandonFrom_eq, abandonFrom_eq]

theorem wakeup1_scan (h : Listed leak none t L) (hs : Alone t) (r : Option Slot) :
    ∃ ls M, wakeup1 (r.map .proc) t = .ok { WakeAll.wakeup1Scan (r.map .proc) t with lists := ls } ∧
      Listed leak none { WakeAll.wakeup1Scan (r.map .proc) t with lists := ls } M ∧ Still L M := by
  obtain ⟨u,M,hw,hM,hst,hwoken⟩ := wakeup1_woken h (hs r)
  have hsame := hwoken.same
  generalize u.lists = ls at hsame
  subst hsame
  exact ⟨ls,M,hw,hM,hst⟩

theorem reparentZombies_scan (h : Listed leak none t L) (hs : Alone t) (a b : List Slot) (n : ℕ)
    (hz : L .zombie = a++b) (hn : b.length ≤ n) :
    ∃ ls M, reparentZombies p n b.head? t = .ok { abandonFrom p b t with lists := ls } ∧
      Listed leak none { abandonFrom p b t with lists := ls } M := by
  induction b generalizing t L a n with
  | nil => exact ⟨t.lists,L,by cases n <;> rfl,h⟩
  | cons q b ih =>
    obtain _ | n := n
    · simp at hn
    have hn' : b.length ≤ n := by simpa using hn
    have hzq : t.state q = .zombie := h.fits .zombie q (by simp [hz])
    by_cases hq : t.parent q = some p
    · have h' : Listed leak none { t with parent := update t.parent q t.initproc } L :=
        h.congr rfl rfl rfl
      obtain ⟨ls,M,hw,hM,hst⟩ := wakeup1_scan h' hs t.initproc
      have hzM : M .zombie = (a++[q])++b := by simp [hst.2.2.1, hz]
      have hs' : Alone { t with parent := update t.parent q t.initproc } := hs
      obtain ⟨ls',N,hu,hN⟩ := ih hM ((hs'.wakeup1Scan (t.initproc.map .proc)).relist ls)
        (a++[q]) n hzM hn'
      have hnext : ls.next q = b.head? := next_eq hM (a := a) (by rw [hzM, List.append_assoc]; rfl)
      have hsame := abandonFrom_relist (p := p) (t := WakeAll.wakeup1Scan (t.initproc.map .proc)
        { t with parent := update t.parent q t.initproc }) b ls
      have hab : abandonFrom p (q::b) t = abandonFrom p b (WakeAll.wakeup1Scan
          (t.initproc.map .proc) { t with parent := update t.parent q t.initproc }) := by
        rw [abandonFrom, if_pos hq]
        simp only [hzq, if_true]
      rw [hsame, ← hab] at hu hN
      refine ⟨ls',N,?_,hN⟩
      rw [List.head?_cons, reparentZombies, if_pos hq, hw, ok_bind, ← hu, ← hnext]
    · obtain ⟨ls,N,hu,hN⟩ := ih h hs (a++[q]) n (by simp [hz]) hn'
      rw [List.head?_cons, reparentZombies, if_neg hq, next_eq h hz, abandonFrom, if_neg hq]
      exact ⟨ls,N,hu,hN⟩

theorem abandon_lists (h : Listed leak none t L) (hun : ∀ q ∈ L .free, t.parent q = none) :
    abandonFrom p (L .zombie) { t with
      parent := fun q => if t.parent q = some p ∧ q ∈ liveLists.flatMap L then t.initproc
        else t.parent q } = abandonFrom p (List.finRange NPROC) t := by
  have hdis : ∀ q ∈ L .zombie, q ∉ liveLists.flatMap L := fun q hq hm =>
    ((Listed.mem_live_iff h).mp hm).2 hq
  have hex : (∃ z ∈ L .zombie, t.state z = .zombie ∧
      (if t.parent z = some p ∧ z ∈ liveLists.flatMap L then t.initproc else t.parent z) = some p) ↔
      ∃ z ∈ List.finRange NPROC, t.state z = .zombie ∧ t.parent z = some p := by
    constructor
    · rintro ⟨z,hz,h1,h2⟩
      rw [if_neg (fun hh => hdis z hz hh.2)] at h2
      exact ⟨z,List.mem_finRange z,h1,h2⟩
    · rintro ⟨z,-,h1,h2⟩
      have hz := h.mem_zombie h1
      exact ⟨z,hz,h1,by rwa [if_neg (fun hh => hdis z hz hh.2)]⟩
  rw [abandonFrom_eq, abandonFrom_eq]
  simp only [hex, Table.mk.injEq, and_true, true_and]
  funext q
  by_cases hq : t.parent q = some p
  · have hfree : q ∉ L .free := fun hm => by
      rw [hun q hm] at hq
      cases hq
    by_cases hz : q ∈ L .zombie
    · simp [hq, hz, hdis q hz]
    · have hl : q ∈ liveLists.flatMap L := (Listed.mem_live_iff h).mpr ⟨hfree,hz⟩
      simp [hq, hz, hl]
  · simp [hq]

theorem abandonFrom_running {q : Slot} (qs : List Slot) (hq : t.state q = .running) :
    (abandonFrom p qs t).state q = .running := by
  rw [abandonFrom_eq]
  simp [hq]

theorem exit_scan (h : Listed leak none t L) (hp : t.state p = .running)
    (hi : t.initproc ≠ some p) (hun : ∀ q ∈ L .free, t.parent q = none) (hs : Alone t) :
    ∃ v ls, exit p t = .ok { v with lists := ls } ∧ exitScan p t = .ok v := by
  obtain ⟨ls1,L1,hw,h1,s1⟩ := wakeup1_scan h hs (t.parent p)
  have hscan : exitScan p t = sched p ((abandonFrom p (List.finRange NPROC)
      (WakeAll.wakeup1Scan ((t.parent p).map .proc) t)).setState p .zombie) := by
    rw [exitScan, if_neg hi]
  rw [exit, if_neg hi, hw, ok_bind, hscan]
  have hp1 : (WakeAll.wakeup1Scan ((t.parent p).map .proc) t).state p = .running := by
    rw [wakeup1Scan_eq]
    simp [hp]
  have hun1 : ∀ q ∈ L1 .free, (WakeAll.wakeup1Scan ((t.parent p).map .proc) t).parent q = none := by
    rw [wakeup1Scan_eq, s1.1]
    exact hun
  have hs1 := Alone.wakeup1Scan hs ((t.parent p).map .proc)
  generalize WakeAll.wakeup1Scan ((t.parent p).map .proc) t = w at h1 hp1 hun1 hs1 ⊢
  have h2 := h1.congr (u := { w with
    lists := ls1
    parent := fun q => if w.parent q = some p ∧ q ∈ liveLists.flatMap L1 then w.initproc
      else w.parent q }) rfl rfl rfl
  obtain ⟨ls3,L3,hz,h3⟩ := reparentZombies_scan (p := p) h2 (hs1.relist ls1) [] (L1 .zombie) NPROC rfl
    (h2.rep.length_le .zombie)
  rw [← (h2.rep.queue .zombie).head_eq] at hz
  have hab := (abandon_lists (p := p) h1 hun1).trans
    (abandonFrom_relist (p := p) (t := w) (List.finRange NPROC) ls1)
  rw [hab] at hz h3
  have hp3 := abandonFrom_running (p := p) (List.finRange NPROC) hp1
  generalize abandonFrom p (List.finRange NPROC) w = x at hz h3 hp3 ⊢
  obtain ⟨ls,hl,h4⟩ := leave_spec h3 "exit - remove from running failed\n" (h3.mem_running hp3) hp3
  obtain ⟨ls',he,-⟩ := enter_spec (l := .zombie) (h4.setState .zombie) .zombie
    (by simp [Table.setState]) (by simp [Fits, Table.setState])
  have hz3 : (x.setState p .zombie).state p ≠ .running := by simp [Table.setState]
  refine ⟨accounted p (x.setState p .zombie),ls',?_,sched_spec hz3⟩
  rw [reparentAll_spec h1 liveLists, ok_bind, hz, ok_bind, hl, ok_bind]
  exact (congrArg (· >>= sched p) he).trans
    (sched_spec (t := { x.setState p .zombie with lists := ls' }) hz3)

end Exit

section Wait

variable {leak : Prop} {t : Table} {L : ListId → List Slot} {p : Slot}

theorem child_listed (h : Listed leak none t L) (hun : ∀ q ∈ L .free, t.parent q = none)
    (hz : ∀ q, t.state q = .zombie → t.parent q ≠ some p) :
    (liveLists.flatMap L).any (fun q => t.parent q = some p) =
      (List.finRange NPROC).any (fun q => t.parent q = some p) := by
  rw [Bool.eq_iff_iff, List.any_eq_true, List.any_eq_true]
  constructor
  · rintro ⟨q,-,hq⟩
    exact ⟨q,List.mem_finRange q,hq⟩
  rintro ⟨q,-,hq⟩
  have hq' : t.parent q = some p := of_decide_eq_true hq
  refine ⟨q,(Listed.mem_live_iff h).mpr ⟨fun hm => ?_,fun hm => ?_⟩,hq⟩
  · rw [hun q hm] at hq'
    cases hq'
  · exact hz q (h.fits .zombie q hm) hq'

/-- How the turns of the two versions of `wait` by `p` may end together. -/
inductive SameTurn (p : Slot) (t : Table) : WaitResult × Table → WaitResult × Table → Prop where
  | reaped (q r : Slot) (ls : Lists) (hq : t.state q = .zombie) (hp : t.parent q = some p)
      (hr : t.state r = .zombie) (hpr : t.parent r = some p) :
      SameTurn p t (.reaped q (t.pid q),{ reapScan q t with lists := ls })
        (.reaped r (t.pid r),reapScan r t)
  | failed : SameTurn p t (.failed,t) (.failed,t)
  | slept (u v : Table) (hs : u.state = v.state) (hc : u.chan = v.chan) (hp : u.parent = v.parent) :
      SameTurn p t (.slept,u) (.slept,v)

theorem wait_scan (h : Listed leak none t L) (hp : t.state p = .running)
    (hun : ∀ q ∈ L .free, t.parent q = none) :
    ∃ x y, waitPass p t = .ok x ∧ waitScan p t = .ok y ∧ SameTurn p t x y := by
  rcases childFrom_spec (t := t) (p := p) (List.finRange NPROC) false with
    ⟨r,-,hr,hpr,hc⟩ | ⟨hz,hc⟩
  · -- a zombie child exists, so the zombie list has a first one
    obtain ⟨q,hq⟩ : ∃ q, (L .zombie).find? (fun q => t.parent q = some p) = some q :=
      Option.isSome_iff_exists.mp (List.find?_isSome.mpr ⟨r,h.mem_zombie hr,by simpa using hpr⟩)
    have hzq : t.state q = .zombie := h.fits .zombie q (List.mem_of_find?_eq_some hq)
    obtain ⟨ls,hreap,-⟩ := reap_spec h hzq
    refine ⟨_,_,?_,?_,SameTurn.reaped q r ls hzq (by simpa using List.find?_some hq) hr hpr⟩
    · rw [waitPass, h.walk .zombie, ok_bind]
      simp only [hq, hreap, ok_bind]
      rfl
    · rw [waitScan, hc]
  have hz' : ∀ q, t.state q = .zombie → t.parent q ≠ some p :=
    fun q => hz q (List.mem_finRange q)
  have hnone : (L .zombie).find? (fun q => t.parent q = some p) = none := by
    rw [List.find?_eq_none]
    intro q hq
    simpa using hz' q (h.fits .zombie q hq)
  have hpass : waitPass p t =
      if !((liveLists.flatMap L).any (fun q => t.parent q = some p)) || t.killed p then
        .ok (.failed,t)
      else sleep p (.proc p) t >>= fun t => .ok (.slept,t) := by
    rw [waitPass, h.walk .zombie, ok_bind]
    simp only [hnone, hasChild_spec h, ok_bind]
    rfl
  have hscan : waitScan p t =
      if !((List.finRange NPROC).any (fun q => t.parent q = some p)) || t.killed p then
        .ok (.failed,t)
      else sleepScan p (.proc p) t >>= fun t => .ok (.slept,t) := by
    rw [waitScan, hc]
    simp only [Bool.false_or]
    rfl
  rw [hpass, hscan, child_listed h hun hz']
  split
  · exact ⟨_,_,rfl,rfl,SameTurn.failed⟩
  obtain ⟨ls,hsl,-⟩ := sleep_spec h hp (.proc p)
  have hsc := sched_spec (p := p)
    (t := { t with chan := update t.chan p (some (.proc p)) }.setState p .sleeping)
    (by simp [Table.setState])
  rw [hsl, ok_bind, sleepScan, hsc, ok_bind]
  exact ⟨_,_,rfl,rfl,SameTurn.slept _ _ (by simp [accounted, Table.setState])
    (by simp [accounted, Table.setState]) (by simp [accounted, Table.setState])⟩

/-- On lists that divide the slots by state, `exit` and one turn of `wait` with
the lists do what the scans of the table do. -/
theorem lists_agree_with_scans (h : Listed False none t L) (hp : t.state p = .running)
    (hi : t.initproc ≠ some p) (hun : ∀ q, t.state q = .unused → t.parent q = none)
    (hs : Alone t) :
    (∃ u v, exit p t = .ok u ∧ exitScan p t = .ok v ∧ u.parent = v.parent ∧
      ∀ q, u.state q = .runnable ↔ v.state q = .runnable) ∧
    ∃ x y, waitPass p t = .ok x ∧ waitScan p t = .ok y ∧ SameTurn p t x y := by
  have hfree : ∀ q ∈ L .free, t.parent q = none := fun q hq => hun q (h.fits .free q hq)
  refine ⟨?_,wait_scan h hp hfree⟩
  obtain ⟨v,ls,hu,hv⟩ := exit_scan h hp hi hfree hs
  exact ⟨_,v,hu,hv,rfl,fun q => Iff.rfl⟩

end Wait

def threeGenerations : List Action :=
  bootAndFork++[.wait bootCpu,.schedNext bootCpu,.schedBegin bootCpu,.schedNext bootCpu,
    .resume bootCpu,.forkAlloc bootCpu,.forkStack bootCpu true,.forkDone bootCpu]

theorem lists_agree_three_generations : ∃ s₀ h s p q, Start s₀ ∧ Run s₀ h s ∧
    h.map Prod.fst = threeGenerations ∧ s.tab.state p = .running ∧
    s.tab.state q = .runnable ∧ s.tab.parent q = some p ∧
    ∃ u v, exit p s.tab = .ok u ∧ exitScan p s.tab = .ok v ∧ u.parent = v.parent ∧
      ∀ q, u.state q = .runnable ↔ v.state q = .runnable := by
  obtain ⟨s₀,h,s,h0,hrun,hacts,⟨p,q,hp,hq,hpq,hi⟩,hun,i,hone⟩ := bootRun_reaches threeGenerations
    (fun _ s => (∃ p q, s.tab.state p = .running ∧ s.tab.state q = .runnable ∧
        s.tab.parent q = some p ∧ s.tab.initproc ≠ some p) ∧
      (∀ q, s.tab.state q = .unused → s.tab.parent q = none) ∧
      ∃ i, ∀ q, s.tab.state q = .sleeping → q = i) (by decide +kernel)
  have hk : StacksAvailable h := by
    unfold StacksAvailable
    rw [hacts]
    decide
  obtain ⟨L,hL⟩ := (run_consistent (start_consistent h0 False) hrun (stacks_allowed hk)).placed
  have hs : Alone s.tab := fun r a b ha hb _ _ => (hone a ha).trans (hone b hb).symm
  exact ⟨s₀,h,s,p,q,h0,hrun,hacts,hp,hq,hpq,(lists_agree_with_scans hL hp hi hun hs).1⟩

end Yeet.ScanExit
