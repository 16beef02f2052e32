import YeetKernel.ProcStep

/-!
# What one action can do

`exec` unfolds a lock test, a look at the control point and a critical
section. The relation below lists every way in which an action succeeds, with
the guards that held and the critical section that ran.
-/

namespace Yeet.ProcEffect
open Kernel StateLists ProcTable ProcStep Function

inductive Effect (s : State) : Action → State → Event → Prop where
  | userinitAlloc (p : Slot) (t : Table) (hc : s.cpu bootCpu = .booting .alloc)
      (hl : s.lock = none) (op : allocproc s.tab = .ok (some p,t)) :
      Effect s .userinitAlloc { s with
        tab := { t with initproc := some p }
        cpu := update s.cpu bootCpu (.booting (.stack p))
        doing := update s.doing p .nothing
        resume := update s.resume p .forkret } .silent
  | userinitStack (p : Slot) (hc : s.cpu bootCpu = .booting (.stack p)) :
      Effect s (.userinitStack true) { s with
        tab := allocprocStack p s.tab
        cpu := update s.cpu bootCpu (.booting (.ready p)) } .silent
  | userinitReady (p : Slot) (t : Table) (hc : s.cpu bootCpu = .booting (.ready p))
      (hl : s.lock = none) (op : userinitReady p s.tab = .ok t) :
      Effect s .userinitReady { s with tab := t, cpu := update s.cpu bootCpu .idle } .silent
  | tick : Effect s .tick { s with tab := { s.tab with ticks := s.tab.ticks+1 } } .silent
  | wakeup (c : Cpu) (a : ℕ) (t : Table) (hl : s.lock = none)
      (op : wakeup1 (some (.addr a)) s.tab = .ok t) :
      Effect s (.wakeup c a) { s with tab := t } .silent
  | schedBegin (c : Cpu) (t : Table) (hc : s.cpu c = .idle) (hl : s.lock = none)
      (op : promoteAll s.tab = .ok t) :
      Effect s (.schedBegin c)
        { s with tab := t, lock := some c, cpu := update s.cpu c (.scanning 0) } .silent
  | schedIdle (c : Cpu) (i : ℕ) (hc : s.cpu c = .scanning i) (hn : nextReady s.tab i = none) :
      Effect s (.schedNext c) { s with lock := none, cpu := update s.cpu c .idle } .silent
  | dispatch (c : Cpu) (i : ℕ) (j : Level) (p : Slot) (t : Table)
      (hc : s.cpu c = .scanning i) (hn : nextReady s.tab i = some j)
      (hh : s.tab.lists.head (.ready j) = some p) (op : dispatch p s.tab = .ok t) :
      Effect s (.schedNext c) { s with tab := t, cpu := update s.cpu c (.resuming p j) }
        (.dispatched p j)
  | resume (c : Cpu) (p : Slot) (i : ℕ) (hc : s.cpu c = .resuming p i) :
      Effect s (.resume c) { s with lock := none, cpu := update s.cpu c (.running p i) } .silent
  | resumeSleep (c : Cpu) (p : Slot) (i : ℕ) (hc : s.cpu c = .resuming p i) :
      Effect s (.resume c) { s with
        tab := { s.tab with chan := update s.tab.chan p none }
        lock := none
        cpu := update s.cpu c (.running p i) } .silent
  | resumeWait (c : Cpu) (p : Slot) (i : ℕ) (r : WaitResult) (t : Table)
      (hc : s.cpu c = .resuming p i)
      (op : waitPass p { s.tab with chan := update s.tab.chan p none } = .ok (r,t)) :
      Effect s (.resume c) (afterWait s c p i t r) (.waited p r)
  | forkFull (c : Cpu) (p : Slot) (i : ℕ) (t : Table) (hc : s.cpu c = .running p i)
      (hl : s.lock = none) (op : allocproc s.tab = .ok (none,t)) :
      Effect s (.forkAlloc c) { s with tab := t } .silent
  | forkAlloc (c : Cpu) (p np : Slot) (i : ℕ) (t : Table) (hc : s.cpu c = .running p i)
      (hl : s.lock = none) (op : allocproc s.tab = .ok (some np,t)) :
      Effect s (.forkAlloc c) { s with
        tab := t
        doing := update (update s.doing np .nothing) p (.forkStack np)
        resume := update s.resume np .forkret } .silent
  | forkStack (c : Cpu) (p np : Slot) (i : ℕ) (hc : s.cpu c = .running p i)
      (hd : s.doing p = .forkStack np) :
      Effect s (.forkStack c true) { s with
        tab := allocprocStack np s.tab
        doing := update s.doing p (.forkCopy np) } .silent
  | forkNoStack (c : Cpu) (p np : Slot) (i : ℕ) (hc : s.cpu c = .running p i)
      (hd : s.doing p = .forkStack np) :
      Effect s (.forkStack c false) { s with
        tab := allocprocNoStack np s.tab
        doing := update s.doing p .nothing } .silent
  | forkAbort (c : Cpu) (p np : Slot) (i : ℕ) (t : Table) (hc : s.cpu c = .running p i)
      (hl : s.lock = none) (hd : s.doing p = .forkCopy np) (op : forkAbort np s.tab = .ok t) :
      Effect s (.forkAbort c) { s with tab := t, doing := update s.doing p .nothing } .silent
  | forkDone (c : Cpu) (p np : Slot) (i : ℕ) (t : Table) (hc : s.cpu c = .running p i)
      (hl : s.lock = none) (hd : s.doing p = .forkCopy np) (op : forkDone p np s.tab = .ok t) :
      Effect s (.forkDone c) { s with tab := t, doing := update s.doing p .nothing }
        (.forked p np (s.tab.pid np))
  | exit (c : Cpu) (p : Slot) (i : ℕ) (t : Table) (hc : s.cpu c = .running p i)
      (hl : s.lock = none) (op : exit p s.tab = .ok t) :
      Effect s (.exit c) (toScheduler s c p i .yield t) (.exited p)
  | wait (c : Cpu) (p : Slot) (i : ℕ) (r : WaitResult) (t : Table) (hc : s.cpu c = .running p i)
      (hl : s.lock = none) (op : waitPass p s.tab = .ok (r,t)) :
      Effect s (.wait c) (afterWait s c p i t r) (.waited p r)
  | kill (c : Cpu) (pid : Uint) (p : Slot) (i : ℕ) (r : Int) (t : Table)
      (hc : s.cpu c = .running p i) (hl : s.lock = none) (op : kill pid s.tab = .ok (r,t)) :
      Effect s (.kill c pid) { s with tab := t } .silent
  | sleep (c : Cpu) (a : ℕ) (p : Slot) (i : ℕ) (t : Table) (hc : s.cpu c = .running p i)
      (hl : s.lock = none) (op : sleep p (.addr a) s.tab = .ok t) :
      Effect s (.sleep c a) (toScheduler s c p i .sleep t) .silent
  | yield (c : Cpu) (p : Slot) (i : ℕ) (t : Table) (hc : s.cpu c = .running p i)
      (hl : s.lock = none) (op : yield p s.tab = .ok t) :
      Effect s (.yield c) (toScheduler s c p i .yield t) .silent
  | setPriority (c : Cpu) (pid : Uint) (priority : Int) (p : Slot) (i : ℕ) (r : Int)
      (released : Bool) (t : Table) (hc : s.cpu c = .running p i)
      (op : setPriority pid priority s.tab = .ok (r,released,t)) :
      Effect s (.setPriority c pid priority) { s with
        tab := t
        lock := if s.lock = none ∧ released then none else some c } .silent

section Inversion

variable {s s' : State} {c : Cpu} {a : Action} {e : Event} {r : State × Event}

theorem acquire_eq_ok {body : Except Fault (State × Event)}
    (h : acquire c s body = some (.ok r)) : s.lock = none ∧ body = .ok r := by
  unfold acquire at h
  split at h
  · exact ⟨by assumption,Option.some.inj h⟩
  · split at h <;> cases h

theorem locked_eq_ok {α : Type} {x : Except Fault α} {k : α → Except Fault (State × Event)}
    (h : acquire c s (x >>= k) = some (.ok r)) : s.lock = none ∧ ∃ a, x = .ok a ∧ k a = .ok r :=
  (acquire_eq_ok h).imp_right bind_eq_ok.mp

theorem onCpu_eq_ok {body : Slot → ℕ → Outcome} (h : onCpu c s body = some (.ok r)) :
    ∃ p i, s.cpu c = .running p i ∧ body p i = some (.ok r) := by
  unfold onCpu at h
  split at h
  · exact ⟨_,_,by assumption,h⟩
  · cases h

theorem waitTurn_eq_ok {p : Slot} {i : ℕ} {t : Table} (h : waitTurn s c p i t = .ok (s',e)) :
    ∃ r u, waitPass p t = .ok (r,u) ∧ s' = afterWait s c p i u r ∧ e = .waited p r := by
  obtain ⟨⟨r,u⟩,hw,hr⟩ := bind_eq_ok.mp h
  cases hr
  exact ⟨r,u,hw,rfl,rfl⟩

theorem userinit_effect (h : userinit s a = some (.ok (s',e))) : Effect s a s' e := by
  unfold userinit at h
  split at h
  · split at h
    · rename_i hc
      obtain ⟨hl,⟨q,t⟩,op,hr⟩ := locked_eq_ok h
      cases q with
      | none => cases hr
      | some p =>
        cases hr
        exact .userinitAlloc p t hc hl op
    · cases h
  · split at h
    · rename_i ok _ p hc
      cases ok with
      | false => cases h
      | true =>
        cases h
        exact .userinitStack p hc
    · cases h
  · split at h
    · rename_i p hc
      obtain ⟨hl,t,op,hr⟩ := locked_eq_ok h
      cases hr
      exact .userinitReady p t hc hl op
    · cases h
  · cases h

theorem scheduler_effect (h : scheduler s a = some (.ok (s',e))) : Effect s a s' e := by
  unfold scheduler at h
  split at h
  · split at h
    · rename_i hc
      obtain ⟨hl,_,_,hb⟩ := locked_eq_ok h
      obtain ⟨t,op,hr⟩ := bind_eq_ok.mp hb
      cases hr
      exact .schedBegin _ t hc hl op
    · cases h
  · split at h
    · rename_i i hc
      split at h
      · rename_i hn
        cases h
        exact .schedIdle _ i hc hn
      rename_i j hn
      split at h
      · cases h
      rename_i p hh
      obtain ⟨t,op,hr⟩ := bind_eq_ok.mp (Option.some.inj h)
      cases hr
      exact .dispatch _ i j p t hc hn hh op
    · cases h
  · split at h
    · rename_i p i hc
      split at h
      · cases h
        exact .resume _ p i hc
      · cases h
        exact .resume _ p i hc
      · cases h
        exact .resumeSleep _ p i hc
      · obtain ⟨r,u,op,rfl,rfl⟩ := waitTurn_eq_ok (Option.some.inj h)
        exact .resumeWait _ p i r u hc op
    · cases h
  · cases h

theorem forkStep_effect (h : forkStep s a = some (.ok (s',e))) : Effect s a s' e := by
  unfold forkStep at h
  split at h
  · obtain ⟨p,i,hc,h⟩ := onCpu_eq_ok h
    split at h
    · obtain ⟨hl,⟨q,t⟩,op,hr⟩ := locked_eq_ok h
      cases q with
      | none =>
        cases hr
        exact .forkFull _ p i t hc hl op
      | some np =>
        cases hr
        exact .forkAlloc _ p np i t hc hl op
    · cases h
  · rename_i ok
    obtain ⟨p,i,hc,h⟩ := onCpu_eq_ok h
    split at h
    · rename_i np hd
      cases ok with
      | true =>
        cases h
        exact .forkStack _ p np i hc hd
      | false =>
        cases h
        exact .forkNoStack _ p np i hc hd
    · cases h
  · obtain ⟨p,i,hc,h⟩ := onCpu_eq_ok h
    split at h
    · rename_i np hd
      obtain ⟨hl,t,op,hr⟩ := locked_eq_ok h
      cases hr
      exact .forkAbort _ p np i t hc hl hd op
    · cases h
  · obtain ⟨p,i,hc,h⟩ := onCpu_eq_ok h
    split at h
    · rename_i np hd
      obtain ⟨hl,t,op,hr⟩ := locked_eq_ok h
      cases hr
      exact .forkDone _ p np i t hc hl hd op
    · cases h
  · cases h

theorem procCall_effect (h : procCall s a = some (.ok (s',e))) : Effect s a s' e := by
  unfold procCall at h
  split at h
  · obtain ⟨p,i,hc,h⟩ := onCpu_eq_ok h
    split at h
    · obtain ⟨hl,t,op,hr⟩ := locked_eq_ok h
      cases hr
      exact .exit _ p i t hc hl op
    · cases h
  · obtain ⟨p,i,hc,h⟩ := onCpu_eq_ok h
    split at h
    · obtain ⟨hl,hb⟩ := acquire_eq_ok h
      obtain ⟨r,u,op,rfl,rfl⟩ := waitTurn_eq_ok hb
      exact .wait _ p i r u hc hl op
    · cases h
  · obtain ⟨p,i,hc,h⟩ := onCpu_eq_ok h
    split at h
    · obtain ⟨hl,⟨r,t⟩,op,hr⟩ := locked_eq_ok h
      cases hr
      exact .kill _ _ p i r t hc hl op
    · cases h
  · obtain ⟨p,i,hc,h⟩ := onCpu_eq_ok h
    split at h
    · obtain ⟨hl,t,op,hr⟩ := locked_eq_ok h
      cases hr
      exact .sleep _ _ p i t hc hl op
    · cases h
  · obtain ⟨p,i,hc,h⟩ := onCpu_eq_ok h
    obtain ⟨hl,t,op,hr⟩ := locked_eq_ok h
    cases hr
    exact .yield _ p i t hc hl op
  · obtain ⟨p,i,hc,h⟩ := onCpu_eq_ok h
    split at h
    · obtain ⟨⟨r,b,t⟩,op,hr⟩ := bind_eq_ok.mp (Option.some.inj h)
      cases hr
      exact .setPriority _ _ _ p i r b t hc op
    · cases h
  · cases h

theorem wakeupStep_effect {n : ℕ} (h : wakeupStep s c n = some (.ok (s',e))) :
    Effect s (.wakeup c n) s' e := by
  unfold wakeupStep at h
  split at h
  · cases h
  · cases h
  · obtain ⟨hl,t,op,hr⟩ := locked_eq_ok h
    cases hr
    exact .wakeup _ _ t hl op

theorem exec_effect (h : exec s a = some (.ok (s',e))) : Effect s a s' e := by
  unfold exec at h
  split at h
  · exact userinit_effect h
  · exact userinit_effect h
  · exact userinit_effect h
  · cases h
    exact .tick
  · exact wakeupStep_effect h
  · exact scheduler_effect h
  · exact scheduler_effect h
  · exact scheduler_effect h
  · exact forkStep_effect h
  · exact forkStep_effect h
  · exact forkStep_effect h
  · exact forkStep_effect h
  · exact procCall_effect h

end Inversion

end Yeet.ProcEffect
