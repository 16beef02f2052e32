import YeetKernel.ProcControl
import YeetKernel.ProcPrio

/-!
# The process-list invariant over all interleavings

Every action keeps a consistent state consistent or stops with one of two
panics, none of them about the lists.
-/

namespace Yeet.ProcInvariant
open Kernel Chain StateLists ProcTable ProcSpec ProcExit ProcSwitch ProcPrio ProcStep ProcControl
open Function

/-- What an action may lead to: nothing, a good state, or one of two panics.
Only where kernel stacks run out can `userinit` follow a null pointer. -/
def Good (leak : Prop) : Outcome → Prop
  | none => True
  | some (.ok (s,_)) => Consistent leak s
  | some (.error e) => e = .panic "acquire" ∨ e = .panic "init exiting" ∨ leak ∧ e = .nullDeref

section Step

variable {leak : Prop} {s : State} {c : Cpu} {p : Slot} {i : ℕ}

theorem good_acquire (body : Except Fault (State × Event))
    (hb : s.lock = none → Good leak (some body)) : Good leak (acquire c s body) := by
  unfold acquire
  split
  · exact hb (by assumption)
  · split
    · exact Or.inl rfl
    · trivial

theorem good_onCpu (body : Slot → ℕ → Outcome)
    (hb : ∀ p i, s.cpu c = .running p i → Good leak (body p i)) : Good leak (onCpu c s body) := by
  unfold onCpu
  split
  · exact hb _ _ (by assumption)
  · trivial

section

variable (h : Consistent leak s) {ok : Bool}
include h

theorem forkAlloc_good : Good leak (exec s (.forkAlloc c)) := by
  refine good_onCpu _ (fun p i hc => ?_)
  split
  swap
  · trivial
  refine good_acquire _ (fun _ => ?_)
  obtain ⟨L,hL⟩ := h.placed
  have hp : s.tab.state p = .running := h.onCpu c p (by rw [hc]; rfl)
  cases hf : L .free with
  | nil =>
    rw [allocproc_empty hL hf]
    exact h
  | cons np r =>
    obtain ⟨ls,ha,h1⟩ := allocproc_spec hL hf
    rw [ha]
    have hnp : s.tab.state np = .unused := hL.fits .free np (by simp [hf])
    exact h.own hp hnp (u := { s.tab with
      lists := ls
      state := update s.tab.state np .embryo
      pid := update s.tab.pid np s.tab.nextpid
      nextpid := s.tab.nextpid+1 }) (h1.congr rfl rfl rfl) rfl _

theorem forkStack_good (hok : ok = true ∨ leak) : Good leak (exec s (.forkStack c ok)) := by
  refine good_onCpu _ (fun p i hc => ?_)
  obtain ⟨L,hL⟩ := h.placed
  split
  · rename_i np hd
    have hnp : s.tab.state np = .embryo := h.embryo p np (by rw [hd]; rfl)
    have he : (fun q => forkEmbryo (update s.doing p (.forkCopy np) q)) =
        fun q => forkEmbryo (s.doing q) := by
      funext q
      by_cases e : q = p
      · rw [e, update_self, hd]
        rfl
      · rw [update_of_ne e]
    have hq : ∀ q, forkEmbryo (update s.doing p (.forkCopy np) q) = forkEmbryo (s.doing q) :=
      congrFun he
    split
    · exact ⟨⟨L,allocprocStack_listed hL hnp⟩,h.onCpu,h.single,h.locked,
        fun q m hm => h.embryo q m (hq q ▸ hm),
        fun q r m hm hr => h.owner q r m (hq q ▸ hm) (hq r ▸ hr),h.bootCpuOnly,
        fun m hm => ⟨(h.bootSlot m hm).1,fun q hx => (h.bootSlot m hm).2 q (hq q ▸ hx)⟩,
        h.bootFree⟩
    · rename_i hf
      have hleak : leak := hok.resolve_left hf
      exact h.disown (p := p) (by rw [hd]; rfl) (allocprocNoStack_listed hL hnp hleak)
        (fun q hx => update_of_ne hx _ _)
  · trivial

theorem forkAbort_good : Good leak (exec s (.forkAbort c)) := by
  refine good_onCpu _ (fun p i hc => ?_)
  obtain ⟨L,hL⟩ := h.placed
  split
  · rename_i np hd
    have hnp : forkEmbryo (s.doing p) = some np := by rw [hd]; rfl
    refine good_acquire _ (fun _ => ?_)
    obtain ⟨ls,ha,h1⟩ := forkAbort_spec hL (h.embryo p np hnp)
    rw [ha]
    exact h.disown hnp (u := { s.tab with
      lists := ls
      kstack := update s.tab.kstack np false
      state := update s.tab.state np .unused }) (h1.congr rfl rfl rfl)
      (fun q hx => update_of_ne hx _ _)
  · trivial

theorem forkDone_good : Good leak (exec s (.forkDone c)) := by
  refine good_onCpu _ (fun p i hc => ?_)
  obtain ⟨L,hL⟩ := h.placed
  split
  · rename_i np hd
    have hnp : forkEmbryo (s.doing p) = some np := by rw [hd]; rfl
    refine good_acquire _ (fun _ => ?_)
    obtain ⟨ls,ha,h1⟩ := forkDone_spec (p := p) hL (h.embryo p np hnp)
    rw [ha]
    exact h.disown hnp h1 (fun q hx => update_of_ne hx _ _)
  · trivial

theorem waitTurn_good (hl : s.lock = none ∨ s.lock = some c)
    (hc : proc (s.cpu c) = some p) (hb : booting (s.cpu c) = false) {t : Table}
    {L : ListId → List Slot} (hL : Listed leak none t L) (ht : t.state = s.tab.state) :
    Good leak (some (waitTurn s c p i t)) := by
  have hp : t.state p = .running := by rw [ht, h.onCpu c p hc]
  obtain ⟨r,u,M,hw,hM,hr⟩ := waitPass_spec hL hp
  unfold waitTurn
  simp only [hw, ok_bind]
  cases hr with
  | reaped q ls hz hq =>
    refine h.toProcess hl hc hb hM (fun q' hq' => ?_)
    have hne : q' ≠ q := fun e => hq' (by rw [e, ← ht, hz])
    simp only [update_of_ne hne, ht]
  | failed hq => exact h.toProcess hl hc hb hM (fun q' _ => by rw [ht])
  | slept ls hq =>
    refine h.toScheduler hl hc hb .wait hM (fun q' hq' => Or.inl ?_)
    simp only [accounted, charged_state, update_of_ne hq', ht]

theorem resume_good : Good leak (exec s (.resume c)) := by
  obtain ⟨L,hL⟩ := h.placed
  cases hc : s.cpu c with
  | resuming p i =>
    have hp : proc (s.cpu c) = some p := by rw [hc]; rfl
    have hl : s.lock = some c := h.locked c (by rw [hc]; rfl)
    have hb : booting (s.cpu c) = false := by rw [hc]; rfl
    cases hr : s.resume p with
    | forkret | yield =>
      simp only [exec, scheduler, hc, hr]
      exact h.toProcess (Or.inr hl) hp hb hL (fun _ _ => rfl)
    | sleep =>
      simp only [exec, scheduler, hc, hr]
      exact h.toProcess (Or.inr hl) hp hb (u := { s.tab with chan := update s.tab.chan p none })
        (hL.congr rfl rfl rfl) (fun _ _ => rfl)
    | wait =>
      simp only [exec, scheduler, hc, hr]
      exact waitTurn_good h (Or.inr hl) hp hb
        (t := { s.tab with chan := update s.tab.chan p none }) (hL.congr rfl rfl rfl) rfl
  | _ => simp only [exec, scheduler, hc]; trivial

theorem schedBegin_good : Good leak (exec s (.schedBegin c)) := by
  obtain ⟨L,hL⟩ := h.placed
  simp only [exec, scheduler]
  split
  · rename_i hc
    refine good_acquire _ (fun hl => ?_)
    obtain ⟨u,M,hu,hM,-,hs,-⟩ := promoteAll_spec hL
    simp only [assertPriority_spec hL, hu, ok_bind]
    have hst : u.state = s.tab.state := by rw [hs]
    exact h.move (Or.inl hl) _ (by rw [hc]; rfl) rfl hM (fun _ => rfl)
      (fun q _ hq => by rw [hst, hq]) (fun q hq => by cases hq) (fun q hq => by rw [hst, hq])
      (fun hb q => by rw [hst, h.bootFree hb q])
  · trivial

theorem schedNext_good : Good leak (exec s (.schedNext c)) := by
  obtain ⟨L,hL⟩ := h.placed
  cases hc : s.cpu c with
  | scanning i =>
    have hl : s.lock = some c := h.locked c (by rw [hc]; rfl)
    have hb : booting (s.cpu c) = false := by rw [hc]; rfl
    cases hn : nextReady s.tab i with
    | none =>
      simp only [exec, scheduler, hc, hn]
      exact h.move (Or.inr hl) _ hb rfl hL (fun hx => by cases hx) (fun q _ hq => hq)
        (fun q hq => by cases hq) (fun q hq => hq) h.bootFree
    | some j =>
      cases hh : s.tab.lists.head (.ready j) with
      | none => simp only [exec, scheduler, hc, hn, hh]; trivial
      | some p =>
        have hs : s.tab.state p = .runnable := (hL.fits _ p (hL.mem_head hh)).1
        obtain ⟨ls,hd,h1⟩ := dispatch_spec hL hs
        simp only [exec, scheduler, hc, hn, hh, hd, ok_bind]
        refine h.move (Or.inr hl) _ hb rfl (u := { s.tab with
          lists := ls
          cpuTicksIn := update s.tab.cpuTicksIn p s.tab.ticks
          state := update s.tab.state p .running }) (h1.congr rfl rfl rfl) (fun _ => hl)
          (fun q _ hq => ?_) (fun q hq => ?_) (fun q hq => ?_) (fun hboot => ?_)
        · by_cases e : q = p
          · rw [e]
            exact update_self ..
          · exact (update_of_ne e _ _).trans hq
        · obtain rfl : p = q := Option.some.inj hq
          exact ⟨update_self ..,Or.inr (by simp [hs])⟩
        · have e : q ≠ p := fun e => by rw [e, hs] at hq; cases hq
          exact (update_of_ne e _ _).trans hq
        · have := h.bootFree hboot p
          simp [hs] at this
  | _ => simp only [exec, scheduler, hc]; trivial

theorem exit_good : Good leak (exec s (.exit c)) := by
  refine good_onCpu _ (fun p i hc => ?_)
  split
  swap
  · trivial
  refine good_acquire _ (fun hl => ?_)
  obtain ⟨L,hL⟩ := h.placed
  have hp : proc (s.cpu c) = some p := by rw [hc]; rfl
  by_cases hi : s.tab.initproc = some p
  · simp only [ProcTable.exit, if_pos hi, error_bind]
    exact Or.inr (Or.inl rfl)
  · obtain ⟨u,M,hu,hM,-,he,-⟩ := exit_spec hL (h.onCpu c p hp) hi
    simp only [hu, ok_bind]
    exact h.toScheduler (Or.inl hl) hp (by rw [hc]; rfl) .yield hM he.state

theorem wait_good : Good leak (exec s (.wait c)) := by
  refine good_onCpu _ (fun p i hc => ?_)
  split
  swap
  · trivial
  obtain ⟨L,hL⟩ := h.placed
  exact good_acquire _ (fun hl =>
    waitTurn_good h (Or.inl hl) (by rw [hc]; rfl) (by rw [hc]; rfl) hL rfl)

theorem kill_good (pid : Uint) : Good leak (exec s (.kill c pid)) := by
  refine good_onCpu _ (fun p i hc => ?_)
  split
  swap
  · trivial
  refine good_acquire _ (fun hl => ?_)
  obtain ⟨L,hL⟩ := h.placed
  obtain ⟨r,u,M,hu,hM,-,hst,-⟩ := kill_spec hL pid
  simp only [hu, ok_bind]
  exact h.retable hM hst s.lock h.locked

theorem sleep_good (a : ℕ) : Good leak (exec s (.sleep c a)) := by
  refine good_onCpu _ (fun p i hc => ?_)
  split
  swap
  · trivial
  refine good_acquire _ (fun hl => ?_)
  obtain ⟨L,hL⟩ := h.placed
  have hp : proc (s.cpu c) = some p := by rw [hc]; rfl
  obtain ⟨ls,hu,hM⟩ := sleep_spec hL (h.onCpu c p hp) (.addr a)
  simp only [hu, ok_bind]
  refine h.toScheduler (Or.inl hl) hp (by rw [hc]; rfl) .sleep hM (fun q hq => Or.inl ?_)
  simp only [accounted, charged_state, update_of_ne hq]

theorem yield_good : Good leak (exec s (.yield c)) := by
  refine good_onCpu _ (fun p i hc => ?_)
  refine good_acquire _ (fun hl => ?_)
  obtain ⟨L,hL⟩ := h.placed
  have hp : proc (s.cpu c) = some p := by rw [hc]; rfl
  obtain ⟨ls,hu,hM⟩ := yield_spec hL (h.onCpu c p hp)
  simp only [hu, ok_bind]
  refine h.toScheduler (Or.inl hl) hp (by rw [hc]; rfl) .yield hM (fun q hq => Or.inl ?_)
  simp only [accounted, charged_state, Table.setState, update_of_ne hq]

theorem setPriority_good (pid : Uint) (priority : Int) :
    Good leak (exec s (.setPriority c pid priority)) := by
  refine good_onCpu _ (fun p i hc => ?_)
  split
  swap
  · trivial
  rename_i hl
  obtain ⟨L,hL⟩ := h.placed
  obtain ⟨r,b,u,hu,hM,hs⟩ := setPriority_spec hL pid priority
  simp only [hu, ok_bind]
  refine h.retable hM (fun q => Or.inl (by rw [hs])) _ (fun d hd => ?_)
  have hdc : d ≠ c := fun e => by
    rw [e, hc] at hd
    cases hd
  rw [h.unheld hl.2 d hdc] at hd
  cases hd

theorem wakeup_good (a : ℕ) : Good leak (exec s (.wakeup c a)) := by
  have hw : Good leak (acquire c s (do
      let t ← wakeup1 (some (.addr a)) s.tab
      return ({ s with tab := t },.silent))) := by
    refine good_acquire _ (fun hl => ?_)
    obtain ⟨L,hL⟩ := h.placed
    obtain ⟨u,M,hu,hM,hr,-⟩ := wakeup1_rouse hL (some (.addr a))
    simp only [hu, ok_bind]
    exact h.retable hM hr.state s.lock h.locked
  simp only [exec, wakeupStep]
  split
  · trivial
  · trivial
  · exact hw

theorem userinitAlloc_good : Good leak (exec s .userinitAlloc) := by
  simp only [exec, userinit]
  split
  swap
  · trivial
  rename_i hc
  refine good_acquire _ (fun hl => ?_)
  obtain ⟨L,hL⟩ := h.placed
  have hfree := h.bootFree hc
  cases hf : L .free with
  | nil =>
    rw [allocproc_empty hL hf]
    refine Or.inr (Or.inr ⟨?_,rfl⟩)
    by_contra hleak
    have := hL.mem_free hleak (hfree ⟨0,by decide⟩)
    simp [hf] at this
  | cons p r =>
    obtain ⟨ls,ha,h1⟩ := allocproc_spec hL hf
    simp only [ha, ok_bind]
    refine h.boot (p := p) _ _ (u := { s.tab with
      lists := ls
      state := update s.tab.state p .embryo
      pid := update s.tab.pid p s.tab.nextpid
      nextpid := s.tab.nextpid+1
      initproc := some p }) (h1.congr rfl rfl rfl) ⟨rfl,rfl,by simp⟩
      (fun q hq => update_of_ne hq _ _) (fun q hq => ?_) (by simp [hfree p])
      (fun np hnp => ⟨(Option.some.inj hnp).symm,update_self ..⟩) (fun q np hq => ?_)
    · have := h.embryo q p hq
      simp [hfree p] at this
    by_cases e : q = p
    · rw [e, update_self] at hq
      cases hq
    · rwa [update_of_ne e] at hq

theorem userinitStack_good (hok : ok = true ∨ leak) : Good leak (exec s (.userinitStack ok)) := by
  simp only [exec, userinit]
  split
  · rename_i p hc
    obtain ⟨L,hL⟩ := h.placed
    obtain ⟨hp,hd⟩ := h.bootSlot p (by rw [hc]; rfl)
    split
    · exact h.boot (p := p) _ _ (allocprocStack_listed hL hp) ⟨rfl,rfl,by simp⟩ (fun _ _ => rfl) hd
        (by simp [hp]) (fun np hnp => ⟨(Option.some.inj hnp).symm,hp⟩) (fun _ _ hq => hq)
    · rename_i hf
      exact Or.inr (Or.inr ⟨hok.resolve_left hf,rfl⟩)
  · trivial

theorem userinitReady_good : Good leak (exec s .userinitReady) := by
  simp only [exec, userinit]
  split
  · rename_i p hc
    refine good_acquire _ (fun _ => ?_)
    obtain ⟨L,hL⟩ := h.placed
    obtain ⟨hp,hd⟩ := h.bootSlot p (by rw [hc]; rfl)
    obtain ⟨ls,hu,hM⟩ := userinitReady_spec hL hp
    simp only [hu, ok_bind]
    exact h.boot (p := p) _ _ hM ⟨rfl,rfl,by simp⟩ (fun q hq => update_of_ne hq _ _) hd
      (by simp [hp]) (fun np hnp => by cases hnp) (fun _ _ hq => hq)
  · trivial

end

def Allowed (leak : Prop) : Action → Prop
  | .userinitStack ok => ok = true ∨ leak
  | .forkStack _ ok => ok = true ∨ leak
  | _ => True

theorem exec_good (h : Consistent leak s) (a : Action) (ha : Allowed leak a) : Good leak (exec s a) := by
  cases a with
  | userinitAlloc => exact userinitAlloc_good h
  | userinitStack ok => exact userinitStack_good h ha
  | userinitReady => exact userinitReady_good h
  | tick =>
    obtain ⟨L,hL⟩ := h.placed
    exact h.retable (u := { s.tab with ticks := s.tab.ticks+1 }) (hL.congr rfl rfl rfl)
      (fun _ => Or.inl rfl) s.lock h.locked
  | wakeup c a => exact wakeup_good h a
  | schedBegin c => exact schedBegin_good h
  | schedNext c => exact schedNext_good h
  | resume c => exact resume_good h
  | forkAlloc c => exact forkAlloc_good h
  | forkStack c ok => exact forkStack_good h ha
  | forkAbort c => exact forkAbort_good h
  | forkDone c => exact forkDone_good h
  | exit c => exact exit_good h
  | wait c => exact wait_good h
  | kill c pid => exact kill_good h pid
  | sleep c a => exact sleep_good h a
  | yield c => exact yield_good h
  | setPriority c pid priority => exact setPriority_good h pid priority

end Step

variable {L : ListId → List Slot} {t : Table} {h : List (Action × Event)}

theorem initFreeListFrom_spec (ps : List Slot)
    (hn : ps.Nodup) (hrep : Rep t.lists L) (hnew : ∀ p ∈ ps, ∀ l, p ∉ L l)
    (hst : ∀ p, t.state p = .unused) : ∃ ls, initFreeListFrom ps t = .ok { t with lists := ls } ∧
      Rep ls (update L .free (L .free++ps)) := by
  induction ps generalizing t L with
  | nil => exact ⟨t.lists,rfl,by simpa using hrep⟩
  | cons p ps ih =>
    obtain ⟨hp,hps⟩ := List.nodup_cons.mp hn
    obtain ⟨ls,ha,h1⟩ := add_spec hrep .free p (hnew p (by simp))
    have hs : t.setState p .unused = t := by
      have : update t.state p .unused = t.state := by
        rw [← hst p, update_eq_self]
      rw [Table.setState, this]
    have hnew' : ∀ q ∈ ps, ∀ l, q ∉ update L .free (L .free++[p]) l := by
      intro q hq l
      by_cases e : l = .free
      · have hne : q ≠ p := fun e => hp (e ▸ hq)
        simp [e, hne, hnew q (by simp [hq])]
      · simpa [e] using hnew q (by simp [hq]) l
    obtain ⟨ls',hi,h2⟩ := ih (t := { t with lists := ls }) hps h1 hnew' hst
    refine ⟨ls',?_,by simpa using h2⟩
    rw [initFreeListFrom, hs, ha, ok_bind]
    exact hi

theorem initProcessLists_rep (ls : Lists) : Rep (initProcessLists ls) (fun _ => []) :=
  ⟨fun _ => queue_empty _,fun _ _ _ _ => by simp⟩

theorem userinitLists_spec (leak : Prop) (ticks pat : Uint) :
    ∃ ls L, userinitLists (bssTable ticks pat) = .ok { bssTable ticks pat with lists := ls } ∧
      Listed leak none { bssTable ticks pat with lists := ls } L := by
  obtain ⟨ls,hi,hrep⟩ := initFreeListFrom_spec (L := fun _ => [])
    (t := { bssTable ticks pat with lists := initProcessLists (bssTable ticks pat).lists })
    (List.finRange NPROC) (List.nodup_finRange NPROC) (initProcessLists_rep _) (by simp)
    (fun _ => rfl)
  refine ⟨ls,_,hi,hrep,fun p _ => ⟨.free,by simp⟩,by simp,fun l p hp => ?_,fun p => Nat.zero_le _⟩
  by_cases e : l = .free
  · subst e
    rfl
  · simp [e] at hp

theorem start_consistent {s : State} (h : Start s) (leak : Prop) : Consistent leak s := by
  obtain ⟨ticks,pat,ht⟩ := h
  obtain ⟨ls,L,hi,hL⟩ := userinitLists_spec leak ticks pat
  rw [boot, hi, ok_bind] at ht
  obtain rfl := Except.ok.inj ht
  have hcpu : ∀ c : Cpu, (if c = bootCpu then CpuCtl.booting .alloc else .idle) = .booting .alloc ∧
      c = bootCpu ∨ (if c = bootCpu then CpuCtl.booting .alloc else .idle) = .idle := by
    intro c
    by_cases e : c = bootCpu <;> simp [e]
  have hproc : ∀ c : Cpu, proc (if c = bootCpu then CpuCtl.booting .alloc else .idle) = none := by
    intro c
    rcases hcpu c with ⟨e,-⟩ | e <;> rw [e] <;> rfl
  refine ⟨⟨L,hL⟩,fun c p hp => ?_,fun c d p hp _ => ?_,fun c hc => ?_,
    fun p np hp => (by cases hp),fun p q np hp => (by cases hp),fun c hc => ?_,
    fun np hnp => (by cases hnp),fun _ _ => rfl⟩
  · rw [hproc] at hp
    cases hp
  · rw [hproc] at hp
    cases hp
  · rcases hcpu c with ⟨e,-⟩ | e <;> simp only [e] at hc <;> cases hc
  rcases hcpu c with ⟨-,e⟩ | e
  · exact e
  · simp only [e] at hc
    cases hc

theorem run_consistent {leak : Prop} {s₀ s : State} (h0 : Consistent leak s₀)
    (hr : Run s₀ h s) (ha : ∀ x ∈ h, Allowed leak x.1) : Consistent leak s := by
  induction hr with
  | nil => exact h0
  | @snoc s₁ s₂ h a e _ step ih =>
    have hs := exec_good (ih (fun x hx => ha x (by simp [hx]))) a (ha (a,e) (by simp))
    rw [step] at hs
    exact hs

theorem stacks_allowed (hk : StacksAvailable h) : ∀ x ∈ h, Allowed False x.1 := by
  intro x hx
  obtain ⟨h1,h2⟩ := hk x.1 (List.mem_map_of_mem hx)
  cases e : x.1 with
  | userinitStack ok | forkStack c ok => cases ok <;> simp_all [Allowed]
  | _ => trivial

theorem allowed_true (h : List (Action × Event)) : ∀ x ∈ h, Allowed True x.1 := by
  intro x _
  cases x.1 <;> simp [Allowed]

def home (t : Table) (p : Slot) : ListId :=
  match t.state p with
  | .unused => .free
  | .embryo => .embryo
  | .sleeping => .sleep
  | .runnable => readyOf (t.priority p)
  | .running => .running
  | .zombie => .zombie

structure Partition (t : Table) (L : ListId → List Slot) : Prop where
  chain : ∀ l, Queue t.lists.next (t.lists.head l) (t.lists.tail l) (L l)
  ends : ∀ l, t.lists.head l = none ↔ t.lists.tail l = none
  home : ∀ p l, p ∈ L l ↔ l = home t p
  level : ∀ i, ∀ p ∈ L (.ready i), t.priority p = i
  bound : ∀ p, t.priority p ≤ MAXPRIO

theorem listed_home (h : Listed False none t L) (p : Slot) : p ∈ L (home t p) := by
  unfold home
  cases hs : t.state p with
  | unused => exact h.mem_free (by simp) hs
  | embryo => exact h.mem_embryo hs
  | sleeping => exact h.mem_sleep hs
  | runnable => exact h.mem_ready hs
  | running => exact h.mem_running hs
  | zombie => exact h.mem_zombie hs

theorem listed_partition (h : Listed False none t L) : Partition t L where
  chain := h.rep.queue
  ends l := by rw [(h.rep.queue l).head_none_iff, (h.rep.queue l).tail_none_iff]
  home p l := by
    constructor
    · intro hp
      exact h.unique hp (listed_home h p)
    · rintro rfl
      exact listed_home h p
  level i p hp := (h.fits _ p hp).2
  bound := h.prio

/-- While kernel stacks last, every reachable state has its slots partitioned
among well-formed lists, and no check of the list code can fail. -/
theorem reachable_partition {s₀ s : State} {h : List (Action × Event)} (h0 : Start s₀)
    (hr : Run s₀ h s) (hk : StacksAvailable h) :
    (∃ L, Partition s.tab L) ∧ ∀ a e, Allowed False a → exec s a = some (.error e) →
        e = .panic "acquire" ∨ e = .panic "init exiting" := by
  have hi : Consistent False s := run_consistent (start_consistent h0 False) hr (stacks_allowed hk)
  constructor
  · obtain ⟨L,hL⟩ := hi.placed
    exact ⟨L,listed_partition hL⟩
  intro a e ha he
  have hg := exec_good hi a ha
  rw [he] at hg
  rcases hg with hg | hg | ⟨hg,-⟩
  · exact Or.inl hg
  · exact Or.inr hg
  · exact hg.elim

theorem reachable_partition_forked : ∃ s₀ h s, Start s₀ ∧ Run s₀ h s ∧ StacksAvailable h ∧
    h.map Prod.fst = bootAndFork ∧ ∃ L, Partition s.tab L := by
  obtain ⟨s₀,h,s,h0,hrun,hacts,-⟩ :=
    bootRun_reaches bootAndFork (fun _ _ => True) (by decide +kernel)
  have hk : StacksAvailable h := by
    unfold StacksAvailable
    rw [hacts]
    decide
  exact ⟨s₀,h,s,h0,hrun,hk,hacts,(reachable_partition h0 hrun hk).1⟩

end Yeet.ProcInvariant
