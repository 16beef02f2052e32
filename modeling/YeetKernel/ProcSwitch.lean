import YeetKernel.ProcExit

/-!
# Giving up the CPU, waiting and being dispatched

`sleep`, `yield`, one turn of `wait`, `kill` and the dispatch of a ready
process, each on a table whose processes are well placed.
-/

namespace Yeet.ProcSwitch
open Kernel StateLists ProcTable ProcSpec ProcExit Function

@[irreducible] def charged (p : Slot) (t : Table) : Table := demoteProc p (charge p t)

section Charged

variable (p : Slot) (t : Table)

theorem charged_same : charged p t = { t with
    priority := (charged p t).priority
    budget := (charged p t).budget } := by
  unfold charged demoteProc charge
  split <;> rfl

@[simp] theorem charged_lists : (charged p t).lists = t.lists := by rw [charged_same]
@[simp] theorem charged_state : (charged p t).state = t.state := by rw [charged_same]
@[simp] theorem charged_parent : (charged p t).parent = t.parent := by rw [charged_same]
@[simp] theorem charged_pid : (charged p t).pid = t.pid := by rw [charged_same]
@[simp] theorem charged_chan : (charged p t).chan = t.chan := by rw [charged_same]
@[simp] theorem charged_killed : (charged p t).killed = t.killed := by rw [charged_same]
@[simp] theorem charged_kstack : (charged p t).kstack = t.kstack := by rw [charged_same]
@[simp] theorem charged_nextpid : (charged p t).nextpid = t.nextpid := by rw [charged_same]
@[simp] theorem charged_initproc : (charged p t).initproc = t.initproc := by rw [charged_same]
@[simp] theorem charged_ticks : (charged p t).ticks = t.ticks := by rw [charged_same]
@[simp] theorem charged_cpuTicksIn : (charged p t).cpuTicksIn = t.cpuTicksIn := by rw [charged_same]
@[simp] theorem charged_promoteAtTime : (charged p t).promoteAtTime = t.promoteAtTime := by
  rw [charged_same]

theorem charged_priority_ne (q : Slot) (hq : q ≠ p) : (charged p t).priority q = t.priority q := by
  unfold charged demoteProc charge
  dsimp only
  split_ifs <;> simp [hq]

theorem charged_priority_le (hb : t.priority p ≤ MAXPRIO) : (charged p t).priority p ≤ MAXPRIO := by
  unfold charged demoteProc charge
  dsimp only
  split_ifs with _ h2
  · exact hb
  · simpa using Nat.succ_le_of_lt h2
  · exact hb

theorem charged_relist (ls : Lists) :
    charged p { t with lists := ls } = { charged p t with lists := ls } := by
  unfold charged demoteProc charge
  dsimp only
  split_ifs <;> rfl

end Charged

theorem charged_congr {p : Slot} {t u : Table} (hb : u.budget = t.budget)
    (hp : u.priority = t.priority) (ht : u.ticks = t.ticks) (hc : u.cpuTicksIn = t.cpuTicksIn) :
    (charged p u).budget = (demoteProc p (charge p t)).budget ∧
      (charged p u).priority = (demoteProc p (charge p t)).priority := by
  unfold charged demoteProc charge
  simp only [hb, hp, ht, hc]
  split
  · exact ⟨rfl,rfl⟩
  · exact ⟨rfl,rfl⟩

def accounted (p : Slot) (t : Table) : Table :=
  { t with cpuTicksTotal := update t.cpuTicksTotal p (t.cpuTicksTotal p+(t.ticks-t.cpuTicksIn p)) }

theorem sched_spec {p : Slot} {t : Table} (h : t.state p ≠ .running) :
    sched p t = .ok (accounted p t) := by
  rw [sched, if_neg h, accounted]

section Switch

variable {leak : Prop} {t : Table} {L : ListId → List Slot} {p : Slot}

section

variable (h : Listed leak none t L)
include h

theorem sleep_spec (hs : t.state p = .running) (chan : Chan) :
    ∃ ls, sleep p chan t = .ok (accounted p (charged p { t with
        lists := ls
        chan := update t.chan p (some chan)
        state := update t.state p .sleeping })) ∧
      Listed leak none (accounted p (charged p { t with
        lists := ls
        chan := update t.chan p (some chan)
        state := update t.state p .sleeping })) (move L p .running .sleep) := by
  obtain ⟨ls,hl,h1⟩ := leave_spec
    (h.congr (u := { t with chan := update t.chan p (some chan) }) rfl rfl rfl)
    "sleep - remove from running failed" (h.mem_running hs) hs
  obtain ⟨ls',he,h2⟩ := enter_spec (l := .sleep) (h1.setState .sleeping) .sleeping
    (by simp [Table.setState]) (by simp [Fits, Table.setState])
  have h3 := h2.setPriority (p := p) (u := charged p { t with
      lists := ls'
      chan := update t.chan p (some chan)
      state := update t.state p .sleeping }) (by simp [Table.setState])
    (by simp) (by simp [Table.setState]) (fun q hq => charged_priority_ne p _ q hq)
    (charged_priority_le p _ (h.prio p))
  refine ⟨ls',?_,h3.congr rfl rfl rfl⟩
  simp only [sleep, hl, ok_bind]
  refine (congrArg (· >>= fun t => sched p (demoteProc p (charge p t))) he).trans ?_
  refine (sched_spec (by rw [← charged]; simp [Table.setState])).trans ?_
  rw [← charged]
  rfl

theorem yield_spec (hs : t.state p = .running) :
    ∃ ls, yield p t = .ok (accounted p { charged p (t.setState p .runnable) with lists := ls }) ∧
      Listed leak none (accounted p { charged p (t.setState p .runnable) with lists := ls })
        (move L p .running (readyOf ((charged p (t.setState p .runnable)).priority p))) := by
  obtain ⟨ls,hl,h1⟩ := leave_spec h "yield - remove from running failed" (h.mem_running hs) hs
  have hb : (charged p ({ t with lists := ls }.setState p .runnable)).priority p ≤ MAXPRIO :=
    charged_priority_le p _ (h.prio p)
  have h2 := h1.transit (u := charged p ({ t with lists := ls }.setState p .runnable))
    (by simp [Table.setState]) (fun q hq => by simp [Table.setState, hq])
    (fun q hq => charged_priority_ne p _ q hq) hb
  obtain ⟨ls',he,h3⟩ := enter_spec h2 .runnable (by simp [Table.setState])
    ((fits_ready hb).mpr ⟨by simp [Table.setState],rfl⟩)
  have hc : charged p ({ t with lists := ls }.setState p .runnable) =
      { charged p (t.setState p .runnable) with lists := ls } :=
    charged_relist p (t.setState p .runnable) ls
  have hd : demoteProc p (charge p ({ t with lists := ls }.setState p .runnable)) =
      charged p ({ t with lists := ls }.setState p .runnable) := by rw [charged]
  rw [hc] at he h3 hb hd
  refine ⟨ls',?_,h3.congr rfl rfl rfl⟩
  simp only [yield, hl, ok_bind]
  rw [hd, readyList_eq hb, ok_bind, he, ok_bind]
  exact sched_spec (by simp [Table.setState])

theorem hasChild_spec (ids : List ListId) :
    hasChild p t ids = .ok ((ids.flatMap L).any (fun q => t.parent q = some p)) := by
  induction ids with
  | nil => rfl
  | cons l ids ih =>
    rw [hasChild, h.walk l, ok_bind, ih, ok_bind, List.flatMap_cons, List.any_append]
    rfl

theorem reap_spec {q : Slot} (hs : t.state q = .zombie) :
    ∃ ls, reap q t = .ok { t with
        lists := ls
        kstack := update t.kstack q false
        state := update t.state q .unused
        pid := update t.pid q 0
        parent := update t.parent q none
        killed := update t.killed q false } ∧
      Listed leak none { t with lists := ls, state := update t.state q .unused }
        (move L q .zombie .free) := by
  obtain ⟨ls,hl,h1⟩ := leave_spec
    (h.congr (u := { t with kstack := update t.kstack q false }) rfl rfl rfl)
    "wait - remove from zombie failed" (h.mem_zombie hs) hs
  obtain ⟨ls',he,h2⟩ := enter_spec (l := .free) (h1.setState .unused) .unused
    (by simp [Table.setState]) (by simp [Fits, Table.setState])
  refine ⟨ls',?_,h2.congr rfl rfl rfl⟩
  simp only [reap, hl, ok_bind]
  exact congrArg (· >>= fun t => Except.ok { t with
    pid := update t.pid q 0
    parent := update t.parent q none
    killed := update t.killed q false }) he

end

inductive Waited (p : Slot) (t : Table) (L : ListId → List Slot) :
    WaitResult → Table → (ListId → List Slot) → Prop where
  | reaped (q : Slot) (ls : Lists) (zombie : t.state q = .zombie) (child : t.parent q = some p) :
      Waited p t L (.reaped q (t.pid q)) { t with
        lists := ls
        kstack := update t.kstack q false
        state := update t.state q .unused
        pid := update t.pid q 0
        parent := update t.parent q none
        killed := update t.killed q false } (move L q .zombie .free)
  | failed (childless : ∀ q, t.state q = .zombie → t.parent q ≠ some p) : Waited p t L .failed t L
  | slept (ls : Lists) (childless : ∀ q, t.state q = .zombie → t.parent q ≠ some p) :
      Waited p t L .slept (accounted p (charged p { t with
        lists := ls
        chan := update t.chan p (some (.proc p))
        state := update t.state p .sleeping })) (move L p .running .sleep)

section

variable (h : Listed leak none t L)
include h

theorem waitPass_spec (hs : t.state p = .running) :
    ∃ r u M, waitPass p t = .ok (r,u) ∧ Listed leak none u M ∧ Waited p t L r u M := by
  rw [waitPass, h.walk .zombie, ok_bind]
  cases hf : (L .zombie).find? (fun q => t.parent q = some p) with
  | some q =>
    have hz : t.state q = .zombie := h.fits .zombie q (List.mem_of_find?_eq_some hf)
    obtain ⟨ls,hr,h1⟩ := reap_spec h hz
    have hw := Waited.reaped (p := p) (L := L) q ls hz (by simpa using List.find?_some hf)
    refine ⟨_,_,_,?_,?_,hw⟩
    · simp only [hr, ok_bind]
      rfl
    · exact h1.congr rfl rfl rfl
  | none =>
    have hc : ∀ q, t.state q = .zombie → t.parent q ≠ some p := by
      intro q hq
      have := List.find?_eq_none.mp hf q (h.mem_zombie hq)
      simpa using this
    simp only [hasChild_spec h, ok_bind]
    split
    · exact ⟨_,_,_,rfl,h,Waited.failed hc⟩
    obtain ⟨ls,hsl,h1⟩ := sleep_spec h hs (.proc p)
    refine ⟨_,_,_,?_,h1,Waited.slept ls hc⟩
    simp only [hsl, ok_bind]
    rfl

theorem findPid_spec (pid : Uint) (ids : List ListId) : findPid pid t ids = .ok none ∨
      ∃ l ∈ ids, ∃ q ∈ L l, t.pid q = pid ∧ findPid pid t ids = .ok (some (l,q)) := by
  induction ids with
  | nil => exact Or.inl rfl
  | cons l ids ih =>
    rw [findPid, h.walk l, ok_bind]
    cases hf : (L l).find? (fun q => t.pid q = pid) with
    | some q =>
      exact Or.inr ⟨l,by simp,q,List.mem_of_find?_eq_some hf,
        by simpa using List.find?_some hf,rfl⟩
    | none =>
      rcases ih with ih | ⟨m,hm,q,hq,hpid,ih⟩
      · exact Or.inl ih
      · exact Or.inr ⟨m,by simp [hm],q,hq,hpid,ih⟩

theorem kill_spec (pid : Uint) : ∃ r u M, kill pid t = .ok (r,u) ∧ Listed leak none u M ∧
      u = { t with lists := u.lists, state := u.state, killed := u.killed } ∧
      (∀ q, u.state q = t.state q ∨ t.state q = .sleeping ∧ u.state q = .runnable) ∧
      M .free = L .free ∧
      (u.killed = t.killed ∨ ∃ q, q ∉ L .free ∧ u.killed = update t.killed q true) ∧
      Grows L M := by
  rw [kill]
  rcases findPid_spec h pid liveLists with hf | ⟨l,hml,q,hq,_,hf⟩
  · rw [hf, ok_bind]
    exact ⟨_,_,_,rfl,h,rfl,fun _ => Or.inl rfl,rfl,Or.inl rfl,Grows.refl L⟩
  rw [hf, ok_bind]
  have h0 : Listed leak none { t with killed := update t.killed q true } L :=
    h.congr rfl rfl rfl
  have hfree : q ∉ L .free := by
    intro hqf
    obtain rfl := h.unique hq hqf
    simp [liveLists, readyLists] at hml
  by_cases hl : l = .sleep
  · subst hl
    have hqs : t.state q = .sleeping := h.fits .sleep q hq
    obtain ⟨ls,hlv,h1⟩ := leave_spec h0 "kill - remove from sleep failed\n" hq hqs
    obtain ⟨ls',hm,h2⟩ := makeReady_spec h1
    refine ⟨0,_,_,?_,h2,rfl,fun r => ?_,?_,Or.inr ⟨q,hfree,rfl⟩,move_grows L q (by simp)⟩
    · simp only [if_true, hlv, ok_bind, hm]
      rfl
    · by_cases hrq : r = q
      · exact Or.inr (by simp [hrq, hqs])
      · exact Or.inl (by simp [hrq])
    · simp [readyOf]
  · simp only [if_neg hl]
    exact ⟨_,_,_,rfl,h0,rfl,fun _ => Or.inl rfl,rfl,Or.inr ⟨q,hfree,rfl⟩,Grows.refl L⟩

theorem assertPriority_spec : assertPriority t = .ok () := by
  have key : ∀ is, assertPriorityOn t is = .ok () := by
    intro is
    induction is with
    | nil => rfl
    | cons i is ih =>
      have hall : (L (.ready i)).all (fun q => t.priority q = i) = true := by
        rw [List.all_eq_true]
        exact fun q hq => by simpa using (h.fits (.ready i) q hq).2
      rw [assertPriorityOn, h.walk, ok_bind, hall]
      exact ih
  exact key _

theorem dispatch_spec (hs : t.state p = .runnable) :
    ∃ ls, dispatch p t = .ok { t with
        lists := ls
        cpuTicksIn := update t.cpuTicksIn p t.ticks
        state := update t.state p .running } ∧
      Listed leak none { t with lists := ls, state := update t.state p .running }
        (moveFront L p (readyOf (t.priority p)) .running) := by
  have h0 : Listed leak none { t with cpuTicksIn := update t.cpuTicksIn p t.ticks } L :=
    h.congr rfl rfl rfl
  obtain ⟨ls,hl,h1⟩ := leave_spec h0 "scheduler - remove from ready failed" (h.mem_ready hs) hs
  obtain ⟨ls',he,h2⟩ := enterAtHead_spec (l := .running) (h1.setState .running) .running
    (by simp [Table.setState]) (by simp [Fits, Table.setState])
  refine ⟨ls',?_,h2.congr rfl rfl rfl⟩
  simp only [dispatch, assertPriority_spec h0, ok_bind, readyList_eq (h.prio p), hl]
  exact he

end

end Switch

end Yeet.ProcSwitch
