import YeetKernel.ProcChange

/-!
# The system with a clock that does not wrap

Beside the kernel state a true count of timer ticks is kept, with the time of
the last promotion or of `userinit`, the time of each dispatch and the ticks
charged to each process since its budget was last set. The kernel does not
read any of this. Of the effects of the actions only what they do to clock,
budgets and priorities is kept, as one of seven kinds of entry.
-/

namespace Yeet.Clocked
open Kernel StateLists ProcTable ProcSpec ProcExit ProcSwitch ProcPrio ProcStep ProcControl
open ProcEffect ProcInvariant Family ProcShift Function

structure Timed where
  sys : State
  now : ℕ
  last : Option ℕ
  since : Slot → ℕ
  charged : Slot → ℕ

/-- The deadline test at the head of `promoteAll` lets the promotion happen. -/
def Due (t : Table) : Prop := ¬ t.ticks < t.promoteAtTime

instance dueDecidable (t : Table) : Decidable (Due t) :=
  inferInstanceAs (Decidable (¬ t.ticks < t.promoteAtTime))

/-- After the charge for the current slice `demoteProc` demotes `p`. -/
def Demoted (p : Slot) (t : Table) : Prop := ¬ (charge p t).budget p ≤ MAXBUDG

instance demotedDecidable (p : Slot) (t : Table) : Decidable (Demoted p t) :=
  inferInstanceAs (Decidable (¬ (charge p t).budget p ≤ MAXBUDG))

def setTarget (pid : Uint) (priority : Int) (t : Table) : Option Slot :=
  match findPid pid t readyLists with
  | .ok (some (l,p)) => if level l = some (t.priority p) then none else some p
  | .ok none =>
    match findPid pid t [.running,.sleep] with
    | .ok (some (_,p)) => if 0 ≤ priority ∧ priority ≤ MAXPRIO then some p else none
    | _ => none
  | .error _ => none

/-- The process whose budget is set by creation or by `setPriority`. -/
def refreshed (s : State) : Action → Option Slot
  | .userinitStack _ => bootEmbryo (s.cpu bootCpu)
  | .forkStack c ok => if ok then (proc (s.cpu c)).bind (fun p => forkEmbryo (s.doing p)) else none
  | .forkDone c => (proc (s.cpu c)).bind (fun p => forkEmbryo (s.doing p))
  | .setPriority _ pid priority => setTarget pid priority s.tab
  | _ => none

def switched (s : State) (a : Action) (e : Event) : Option Slot :=
  match a, e with
  | .yield c, _ => proc (s.cpu c)
  | .sleep c _, _ => proc (s.cpu c)
  | _, .waited p .slept => some p
  | _, _ => none

def passes : Action → Bool
  | .schedBegin _ => true
  | _ => false

def lastAfter (x : Timed) (a : Action) : Option ℕ :=
  if a = .userinitReady ∨ passes a ∧ Due x.sys.tab then some x.now else x.last

def sinceAfter (x : Timed) : Event → Slot → ℕ
  | .dispatched p _ => update x.since p x.now
  | _ => x.since

/-- The ticks that `p` has used since its budget was set, with the current slice. -/
def used (x : Timed) (p : Slot) : ℕ := x.charged p+(x.now-x.since p)

def chargedAfter (x : Timed) (a : Action) (e : Event) : Slot → ℕ :=
  match switched x.sys a e with
  | some p => update x.charged p (if Demoted p x.sys.tab then 0 else used x p)
  | none =>
    if passes a ∧ Due x.sys.tab then fun q =>
      if x.sys.tab.state q = .sleeping ∨ x.sys.tab.state q = .runnable ∨
        x.sys.tab.state q = .running then 0 else x.charged q
    else
      match refreshed x.sys a with
      | some p => update x.charged p 0
      | none => x.charged

def note (x : Timed) (a : Action) (s : State) (e : Event) : Timed where
  sys := s
  now := if a = .tick then x.now+1 else x.now
  last := lastAfter x a
  since := sinceAfter x e
  charged := chargedAfter x a e

def exec (x : Timed) (a : Action) : Option (Except Fault (Timed × Event)) :=
  match ProcStep.exec x.sys a with
  | none => none
  | some (.error f) => some (.error f)
  | some (.ok (s,e)) => some (.ok (note x a s e,e))

def Start (x : Timed) : Prop :=
  ProcStep.Start x.sys ∧ x.now = x.sys.tab.ticks.toNat ∧ x.last = none

abbrev Run := Lts.Run exec

theorem exec_eq_ok {x y : Timed} {a : Action} {e : Event} (h : exec x a = some (.ok (y,e))) :
    ∃ s, ProcStep.exec x.sys a = some (.ok (s,e)) ∧ y = note x a s e := by
  unfold exec at h
  split at h
  · cases h
  · cases h
  · rename_i s e' hs
    obtain ⟨rfl,rfl⟩ := Lts.done_inj h
    exact ⟨s,hs,rfl⟩

theorem run_sys {x₀ x : Timed} {h : List (Action × Event)} (hr : Run x₀ h x) :
    ProcStep.Run x₀.sys h x.sys := by
  induction hr with
  | nil => exact .nil
  | snoc _ step ih =>
    obtain ⟨s,hs,rfl⟩ := exec_eq_ok step
    exact ih.snoc hs

theorem run_consistent_sys {x₀ x : Timed} {h : List (Action × Event)} (h0 : Start x₀)
    (hr : Run x₀ h x) : Consistent True x.sys :=
  run_consistent (start_consistent h0.1 True) (run_sys hr) (allowed_true h)

theorem run_now {x₀ x : Timed} {h : List (Action × Event)} (hr : Run x₀ h x) :
    x.now ≤ x₀.now+h.length := by
  induction hr with
  | nil => simp
  | snoc _ step ih =>
    obtain ⟨s,-,rfl⟩ := exec_eq_ok step
    simp only [note, List.length_append, List.length_singleton]
    split <;> omega

def Plain (s : State) (a : Action) (e : Event) : Prop :=
  a ≠ .tick ∧ a ≠ .userinitReady ∧ (passes a → ¬ Due s.tab) ∧ (∀ p l, e ≠ .dispatched p l) ∧
    switched s a e = none

structure Steady (t u : Table) : Prop where
  ticks : u.ticks = t.ticks
  deadline : u.promoteAtTime = t.promoteAtTime
  running : ∀ q, u.state q = .running → t.state q = .running ∧ u.cpuTicksIn q = t.cpuTicksIn q

inductive Entry (s : State) (a : Action) (e : Event) (t u : Table) : Prop where
  | tick (ha : a = .tick) (he : e = .silent) (hu : u = { t with ticks := t.ticks+1 })
  | first (p : Slot) (ha : a = .userinitReady) (he : e = .silent)
      (hc : s.cpu bootCpu = .booting (.ready p)) (ticks : u.ticks = t.ticks)
      (deadline : u.promoteAtTime = t.ticks+TICKS_TO_PROMOTE)
      (state : u.state = update t.state p .runnable) (budget : u.budget = t.budget)
      (since : u.cpuTicksIn = t.cpuTicksIn)
  | pass (c : Cpu) (L : ListId → List Slot) (ha : a = .schedBegin c) (he : e = .silent)
      (due : Due t) (placed : Listed True none t L) (hp : Promoted t u L)
  | dispatch (c : Cpu) (p : Slot) (l : Level) (ha : a = .schedNext c)
      (he : e = .dispatched p l) (hp : t.state p = .runnable) (ticks : u.ticks = t.ticks)
      (deadline : u.promoteAtTime = t.promoteAtTime)
      (state : u.state = update t.state p .running) (budget : u.budget = t.budget)
      (since : u.cpuTicksIn = update t.cpuTicksIn p t.ticks)
  | out (p : Slot) (hsw : switched s a e = some p) (hn : a ≠ .tick ∧ a ≠ .userinitReady ∧
        passes a = false ∧ ∀ q l, e ≠ .dispatched q l) (hp : t.state p = .running)
      (g : ProcState) (hst : g ≠ .running) (steady : Steady t u)
      (state : u.state = update t.state p g)
      (budget : u.budget = (demoteProc p (charge p t)).budget)
      (priority : u.priority = (demoteProc p (charge p t)).priority)
  | refresh (p : Slot) (plain : Plain s a e) (hr : refreshed s a = some p) (steady : Steady t u)
      (live : ∀ q, q ≠ p → Live (u.state q) → Live (t.state q))
      (budget : u.budget = update t.budget p MAXBUDG)
  | quiet (plain : Plain s a e) (hr : refreshed s a = none) (steady : Steady t u)
      (live : ∀ q, Live (u.state q) → Live (t.state q)) (budget : u.budget = t.budget)

section Entries

variable {s s' : State} {K : Kin} {p q : Slot} {a : Action} {e : Event} {t u : Table}

theorem Steady.refl (t : Table) : Steady t t := ⟨rfl,rfl,fun _ h => ⟨h,rfl⟩⟩

section

variable (h : u.state q = t.state q ∨ t.state q = .sleeping ∧ u.state q = .runnable)
include h

theorem live_of_waking (hl : Live (u.state q)) : Live (t.state q) := by
  rcases h with h | h
  · rwa [← h]
  · exact Or.inl h.1

theorem running_of_waking (hr : u.state q = .running) : t.state q = .running := by
  rcases h with h | h
  · rwa [← h]
  · rw [h.2] at hr
    cases hr

end

theorem live_of_dead {g : ProcState} (hs : u.state = update t.state p g) (hst : ¬ Live g)
    (hl : Live (u.state q)) : Live (t.state q) := by
  by_cases e : q = p
  · subst e
    rw [hs, update_self] at hl
    exact absurd hl hst
  · rwa [hs, update_of_ne e] at hl

theorem running_of_update {g : ProcState} (hs : u.state = update t.state p g)
    (hst : g ≠ .running) (hr : u.state q = .running) : q ≠ p ∧ t.state q = .running := by
  by_cases e : q = p
  · subst e
    rw [hs, update_self] at hr
    exact absurd hr hst
  · exact ⟨e,by rwa [hs, update_of_ne e] at hr⟩

theorem wait_entry {L : ListId → List Slot} {r : WaitResult} {x : Slot → Option Chan}
    (hL : Listed True none t L) (hp : t.state p = .running)
    (hn : a ≠ .tick ∧ a ≠ .userinitReady ∧ passes a = false) (hr : refreshed s a = none)
    (hsw : ∀ q, switched s a (.waited p r) = some q ↔ r = .slept ∧ q = p)
    (op : waitPass p { t with chan := x } = .ok (r,u)) : Entry s a (.waited p r) t u := by
  have hL' : Listed True none { t with chan := x } L := hL.congr rfl rfl rfl
  obtain ⟨r',u',M,hw,-,hres⟩ := waitPass_spec hL' hp
  obtain ⟨rfl,rfl⟩ := ok_pair_inj (hw.symm.trans op)
  have hplain : r' ≠ .slept → Plain s a (.waited p r') := fun hne =>
    ⟨hn.1,hn.2.1,by simp [hn.2.2],by simp,
      Option.eq_none_iff_forall_ne_some.mpr (fun q hq => hne ((hsw q).mp hq).1)⟩
  cases hres with
  | reaped q ls hz hq =>
    exact .quiet (hplain (by simp)) hr
      ⟨rfl,rfl,fun r hrun => ⟨(running_of_update (p := q) (g := .unused) rfl (by simp) hrun).2,rfl⟩⟩
      (fun r hl => live_of_dead (p := q) (g := .unused) rfl (by simp [Live]) hl) rfl
  | failed hz => exact .quiet (hplain (by simp)) hr ⟨rfl,rfl,fun r hrun => ⟨hrun,rfl⟩⟩ (fun _ h => h) rfl
  | slept ls hz =>
    obtain ⟨hb,hpr⟩ := charged_congr (p := p) (t := t) (u := { t with
      lists := ls
      chan := update x p (some (.proc p))
      state := update t.state p .sleeping }) rfl rfl rfl rfl
    exact .out p ((hsw p).mpr ⟨rfl,rfl⟩) ⟨hn.1,hn.2.1,hn.2.2,by simp⟩ hp .sleeping (by simp)
      ⟨by simp [accounted],by simp [accounted],fun q hq =>
        ⟨(running_of_update (p := p) (g := .sleeping) (by simp [accounted]) (by simp) hq).2,
          by simp [accounted]⟩⟩
      (by simp [accounted]) hb hpr

theorem plain_silent (h1 : a ≠ .tick) (h2 : a ≠ .userinitReady) (h3 : passes a = false)
    (h4 : switched s a .silent = none) : Plain s a .silent :=
  ⟨h1,h2,by simp [h3],by simp,h4⟩

theorem setPriority_entry {L : ListId → List Slot} {pid : Uint} {v r : Int} {b : Bool} {c : Cpu}
    (hL : Listed True none s.tab L) (op : setPriority pid v s.tab = .ok (r,b,u)) :
    Entry s (.setPriority c pid v) .silent s.tab u := by
  have hplain : Plain s (.setPriority c pid v) .silent :=
    plain_silent (by simp) (by simp) rfl rfl
  rw [setPriority] at op
  rcases findPid_spec hL pid readyLists with hf | ⟨l,hl,q,hq,_,hf⟩
  · rcases findPid_spec hL pid [.running,.sleep] with hg | ⟨l,hl,q,hq,_,hg⟩
    · simp only [hf, hg, ok_bind] at op
      obtain ⟨-,-,rfl⟩ := ok_pair_inj op |>.imp_right Prod.mk.inj
      exact .quiet hplain (by simp [refreshed, setTarget, hf, hg]) (Steady.refl _) (fun _ h => h) rfl
    simp only [hf, hg, ok_bind] at op
    split_ifs at op with hv
    · obtain ⟨-,-,rfl⟩ := ok_pair_inj op |>.imp_right Prod.mk.inj
      exact .refresh q hplain (by simp [refreshed, setTarget, hf, hg, hv])
        ⟨rfl,rfl,fun _ h => ⟨h,rfl⟩⟩ (fun _ _ h => h) rfl
    · obtain ⟨-,-,rfl⟩ := ok_pair_inj op |>.imp_right Prod.mk.inj
      exact .quiet hplain (by simp [refreshed, setTarget, hf, hg, hv]) (Steady.refl _)
        (fun _ h => h) rfl
  · obtain ⟨i,rfl⟩ : ∃ i, ListId.ready i = l := by simpa [readyLists] using hl
    have hi : s.tab.priority q = i := (hL.fits _ q hq).2
    simp only [hf, ok_bind, level, hi, if_true] at op
    obtain ⟨-,-,rfl⟩ := ok_pair_inj op |>.imp_right Prod.mk.inj
    exact .quiet hplain (by simp [refreshed, setTarget, hf, level, hi]) (Steady.refl _)
      (fun _ h => h) rfl

theorem Entry.dead {g : ProcState} (plain : Plain s a e) (hr : refreshed s a = none)
    (hs : u.state = update t.state p g) (hst : ¬ Live g) (ht : u.ticks = t.ticks)
    (hd : u.promoteAtTime = t.promoteAtTime) (hc : u.cpuTicksIn = t.cpuTicksIn)
    (hb : u.budget = t.budget) : Entry s a e t u := by
  have hne : g ≠ .running := fun h => hst (by simp [Live, h])
  exact .quiet plain hr ⟨ht,hd,fun q hq => ⟨(running_of_update hs hne hq).2,by rw [hc]⟩⟩
    (fun q hl => live_of_dead hs hst hl) hb

theorem Entry.waking (plain : Plain s a e) (hr : refreshed s a = none)
    (hs : ∀ q, u.state q = t.state q ∨ t.state q = .sleeping ∧ u.state q = .runnable)
    (ht : u.ticks = t.ticks) (hd : u.promoteAtTime = t.promoteAtTime)
    (hc : u.cpuTicksIn = t.cpuTicksIn) (hb : u.budget = t.budget) : Entry s a e t u :=
  .quiet plain hr ⟨ht,hd,fun q hq => ⟨running_of_waking (hs q) hq,by rw [hc]⟩⟩
    (fun q hl => live_of_waking (hs q) hl) hb

theorem Entry.stack (plain : Plain s a e) (hr : refreshed s a = some p)
    (hp : t.state p = .embryo) : Entry s a e t (allocprocStack p t) := by
  refine .refresh p plain hr ⟨rfl,rfl,fun q hq => ⟨hq,update_of_ne ?_ _ _⟩⟩ (fun _ _ h => h) rfl
  rintro rfl
  have hq' : t.state q = .running := hq
  rw [hp] at hq'
  cases hq'

theorem effect_entry (hc : Consistent True s) (he : Effect s a s' e) :
    Entry s a e s.tab s'.tab := by
  obtain ⟨L,hL⟩ := hc.placed
  cases he with
  | userinitAlloc p t hcpu hl op =>
    obtain ⟨-,ls,-,-,rfl,-⟩ := allocproc_listed hL op
    exact .dead (p := p) (g := .embryo) (plain_silent (by simp) (by simp) rfl rfl) rfl rfl
      (by simp [Live]) rfl rfl rfl rfl
  | userinitStack p hcpu =>
    exact .stack (plain_silent (by simp) (by simp) rfl rfl)
      (by simp [refreshed, hcpu, bootEmbryo]) (hc.bootSlot p (by rw [hcpu]; rfl)).1
  | userinitReady p t hcpu hl op =>
    have hb : bootEmbryo (s.cpu bootCpu) = some p := by rw [hcpu]; rfl
    obtain ⟨ls,hu,-⟩ := userinitReady_spec hL (hc.bootSlot p hb).1
    obtain rfl := Except.ok.inj (hu.symm.trans op)
    exact .first p rfl rfl hcpu rfl rfl rfl rfl rfl
  | tick => exact .tick rfl rfl rfl
  | wakeup c n t hl op =>
    obtain ⟨u,M,hu,-,hr,-⟩ := wakeup1_rouse hL (some (.addr n))
    obtain rfl := Except.ok.inj (hu.symm.trans op)
    exact .waking (plain_silent (by simp) (by simp) rfl rfl) rfl hr.state (by rw [hr.same])
      (by rw [hr.same]) (by rw [hr.same]) (by rw [hr.same])
  | schedBegin c t hcpu hl op =>
    by_cases hb : s.tab.ticks < s.tab.promoteAtTime
    · obtain rfl := Except.ok.inj ((promoteAll_early hb).symm.trans op)
      exact .quiet ⟨by simp,by simp,fun _ => not_not.mpr hb,by simp,rfl⟩ rfl (Steady.refl _)
        (fun _ h => h) rfl
    · obtain ⟨u,hu,hp⟩ := promoteAll_run hL hb
      obtain rfl := Except.ok.inj (hu.symm.trans op)
      exact .pass c L rfl rfl hb hL hp
  | schedIdle c i hcpu hn | resume c p i hcpu =>
    exact .quiet (plain_silent (by simp) (by simp) rfl rfl) rfl (Steady.refl _) (fun _ h => h) rfl
  | dispatch c i j p t hcpu hn hh op =>
    have hs : s.tab.state p = .runnable := (hL.fits _ p (hL.mem_head hh)).1
    obtain ⟨ls,hd,-⟩ := dispatch_spec hL hs
    obtain rfl := Except.ok.inj (hd.symm.trans op)
    exact .dispatch c p j rfl rfl hs rfl rfl rfl rfl rfl
  | resumeSleep c p i hcpu =>
    exact .quiet (plain_silent (by simp) (by simp) rfl rfl) rfl ⟨rfl,rfl,fun _ h => ⟨h,rfl⟩⟩
      (fun _ h => h) rfl
  | resumeWait c p i r t hcpu op =>
    rw [afterWait_tab]
    refine wait_entry hL (hc.onCpu c p (by rw [hcpu]; rfl)) ⟨by simp,by simp,rfl⟩ rfl
      (fun q => ?_) op
    cases r <;> simp [switched, eq_comm]
  | forkFull c p i t hcpu hl op =>
    obtain rfl := allocproc_none hL op
    exact .quiet (plain_silent (by simp) (by simp) rfl rfl) rfl (Steady.refl _) (fun _ h => h) rfl
  | forkAlloc c p np i t hcpu hl op =>
    obtain ⟨-,ls,-,-,rfl,-⟩ := allocproc_listed hL op
    exact .dead (p := np) (g := .embryo) (plain_silent (by simp) (by simp) rfl rfl) rfl rfl
      (by simp [Live]) rfl rfl rfl rfl
  | forkStack c p np i hcpu hd =>
    exact .stack (plain_silent (by simp) (by simp) rfl rfl)
      (by simp [refreshed, hcpu, proc, hd, forkEmbryo]) (hc.stacking hd)
  | forkNoStack c p np i hcpu hd =>
    exact .dead (p := np) (g := .unused) (plain_silent (by simp) (by simp) rfl rfl) rfl rfl
      (by simp [Live]) rfl rfl rfl rfl
  | forkAbort c p np i t hcpu hl hd op =>
    obtain ⟨ls,ha,-⟩ := forkAbort_spec hL (hc.copying hd)
    obtain rfl := Except.ok.inj (ha.symm.trans op)
    exact .dead (p := np) (g := .unused) (plain_silent (by simp) (by simp) rfl rfl) rfl rfl
      (by simp [Live]) rfl rfl rfl rfl
  | forkDone c p np i t hcpu hl hd op =>
    obtain ⟨ls,ha,-⟩ := forkDone_spec (p := p) hL (hc.copying hd)
    obtain rfl := Except.ok.inj (ha.symm.trans op)
    refine .refresh np ⟨by simp,by simp,by simp [passes],by simp,rfl⟩
      (by simp [refreshed, hcpu, proc, hd, forkEmbryo]) ⟨rfl,rfl,fun q hq => ?_⟩ (fun q hq hl => ?_)
      rfl
    · exact ⟨(running_of_update (t := s.tab) (p := np) (g := .runnable) rfl (by simp) hq).2,rfl⟩
    · simpa [hq] using hl
  | exit c p i t hcpu hl op =>
    have hne := exit_ne_initproc op
    obtain ⟨u,M,hu,-,-,hx,-⟩ := exit_spec hL (hc.running hcpu) hne
    obtain rfl := Except.ok.inj (hu.symm.trans op)
    have hst : ∀ q, u.state q = .running ∨ Live (u.state q) → q ≠ p := by
      rintro q hq rfl
      rw [hx.self] at hq
      simp [Live] at hq
    refine .quiet ⟨by simp,by simp,by simp [passes],by simp,rfl⟩ rfl
      ⟨by simp only [toScheduler]; rw [hx.same],by simp only [toScheduler]; rw [hx.same],
        fun q hq => ⟨running_of_waking (hx.state q (hst q (Or.inl hq))) hq,?_⟩⟩
      (fun q hl => live_of_waking (hx.state q (hst q (Or.inr hl))) hl) ?_
    all_goals
      simp only [toScheduler]
      rw [hx.same]
  | wait c p i r t hcpu hl op =>
    rw [afterWait_tab]
    refine wait_entry hL (hc.running hcpu) ⟨by simp,by simp,rfl⟩ rfl (fun q => ?_) op
    cases r <;> simp [switched, eq_comm]
  | kill c pid p i r t hcpu hl op =>
    obtain ⟨r',u,M,hu,-,hs,hst,-⟩ := kill_spec hL pid
    obtain ⟨rfl,rfl⟩ := ok_pair_inj (hu.symm.trans op)
    exact .waking (plain_silent (by simp) (by simp) rfl rfl) rfl hst (by rw [hs]) (by rw [hs])
      (by rw [hs]) (by rw [hs])
  | sleep c n p i t hcpu hl op =>
    obtain ⟨ls,hu,-⟩ := sleep_spec hL (hc.running hcpu) (.addr n)
    obtain rfl := Except.ok.inj (hu.symm.trans op)
    obtain ⟨hb,hpr⟩ := charged_congr (p := p) (t := s.tab) (u := { s.tab with
      lists := ls
      chan := update s.tab.chan p (some (.addr n))
      state := update s.tab.state p .sleeping }) rfl rfl rfl rfl
    exact .out p (by simp [switched, hcpu, proc]) ⟨by simp,by simp,rfl,by simp⟩ (hc.running hcpu)
      .sleeping (by simp) ⟨by simp [toScheduler, accounted],by simp [toScheduler, accounted],
        fun q hq => ⟨(running_of_update (p := p) (g := .sleeping)
          (by simp [toScheduler, accounted]) (by simp) hq).2,by simp [toScheduler, accounted]⟩⟩
      (by simp [toScheduler, accounted]) hb hpr
  | yield c p i t hcpu hl op =>
    obtain ⟨ls,hu,-⟩ := yield_spec hL (hc.running hcpu)
    obtain rfl := Except.ok.inj (hu.symm.trans op)
    obtain ⟨hb,hpr⟩ := charged_congr (p := p) (t := s.tab) (u := s.tab.setState p .runnable)
      rfl rfl rfl rfl
    exact .out p (by simp [switched, hcpu, proc]) ⟨by simp,by simp,rfl,by simp⟩ (hc.running hcpu)
      .runnable (by simp)
      ⟨by simp [toScheduler, accounted, Table.setState],
        by simp [toScheduler, accounted, Table.setState],
        fun q hq => ⟨(running_of_update (p := p) (g := .runnable)
          (by simp [toScheduler, accounted, Table.setState]) (by simp) hq).2,
          by simp [toScheduler, accounted, Table.setState]⟩⟩
      (by simp [toScheduler, accounted, Table.setState]) hb hpr
  | setPriority c pid v p i r b t hcpu op => exact setPriority_entry hL op

end Entries

end Yeet.Clocked
