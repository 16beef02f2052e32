import YeetKernel.ProcStep
import YeetKernel.ProcSpec

/-!
# Control points and the process table

A state is consistent when the processes are well placed, a process being
executed is running on one CPU only, the scheduler owns `ptable.lock`, and
every embryo has one owner.
-/

namespace Yeet.ProcControl
open StateLists ProcTable ProcSpec ProcStep Function

def proc : CpuCtl → Option Slot
  | .resuming p _ => some p
  | .running p _ => some p
  | _ => none

def holds : CpuCtl → Bool
  | .scanning _ => true
  | .resuming _ _ => true
  | _ => false

def bootEmbryo : CpuCtl → Option Slot
  | .booting (.stack p) => some p
  | .booting (.ready p) => some p
  | _ => none

def booting : CpuCtl → Bool
  | .booting _ => true
  | _ => false

def forkEmbryo : Doing → Option Slot
  | .nothing => none
  | .forkStack np => some np
  | .forkCopy np => some np

structure Consistent (leak : Prop) (s : State) : Prop where
  placed : ∃ L, Listed leak none s.tab L
  onCpu : ∀ c p, proc (s.cpu c) = some p → s.tab.state p = .running
  single : ∀ c d p, proc (s.cpu c) = some p → proc (s.cpu d) = some p → c = d
  locked : ∀ c, holds (s.cpu c) → s.lock = some c
  embryo : ∀ p np, forkEmbryo (s.doing p) = some np → s.tab.state np = .embryo
  owner : ∀ p q np, forkEmbryo (s.doing p) = some np → forkEmbryo (s.doing q) = some np → p = q
  bootCpuOnly : ∀ c, booting (s.cpu c) → c = bootCpu
  bootSlot : ∀ np, bootEmbryo (s.cpu bootCpu) = some np →
    s.tab.state np = .embryo ∧ ∀ p, forkEmbryo (s.doing p) ≠ some np
  bootFree : s.cpu bootCpu = .booting .alloc → ∀ p, s.tab.state p = .unused

section Facts

variable {leak : Prop} {s : State} {c : Cpu} {p np : Slot} {i : ℕ}

theorem Consistent.running (hc : Consistent leak s) (h : s.cpu c = .running p i) :
    s.tab.state p = .running :=
  hc.onCpu c p (by rw [h]; rfl)

theorem Consistent.stacking (hc : Consistent leak s) (h : s.doing p = .forkStack np) :
    s.tab.state np = .embryo :=
  hc.embryo p np (by rw [h]; rfl)

theorem Consistent.copying (hc : Consistent leak s) (h : s.doing p = .forkCopy np) :
    s.tab.state np = .embryo :=
  hc.embryo p np (by rw [h]; rfl)

end Facts

section Step

variable {leak : Prop} {s : State} {c : Cpu} {p : Slot} {i : ℕ}

section

variable (h : Consistent leak s) {u : Table} {M : ListId → List Slot} {k : CpuCtl} {np : Slot}
include h

theorem Consistent.unheld (hl : s.lock = none ∨ s.lock = some c) (d : Cpu)
    (hd : d ≠ c) : holds (s.cpu d) = false := by
  by_contra hh
  have := h.locked d (by simpa using hh)
  rcases hl with hl | hl <;> rw [hl] at this
  · cases this
  · exact hd (Option.some.inj this).symm

theorem Consistent.move (hl : s.lock = none ∨ s.lock = some c) {l : Option Cpu} (r : Slot → Resume)
    (hc : booting (s.cpu c) = false) (hk : booting k = false) (hu : Listed leak none u M)
    (hlk : holds k → l = some c)
    (hrun : ∀ q, proc (s.cpu c) ≠ some q → s.tab.state q = .running → u.state q = .running)
    (hkp : ∀ q, proc k = some q → u.state q = .running ∧
      (proc (s.cpu c) = some q ∨ s.tab.state q ≠ .running))
    (hemb : ∀ q, s.tab.state q = .embryo → u.state q = .embryo)
    (hboot : s.cpu bootCpu = .booting .alloc → ∀ q, u.state q = .unused) :
    Consistent leak { tab := u, lock := l, cpu := update s.cpu c k, doing := s.doing, resume := r } := by
  have hcb : c ≠ bootCpu ∨ booting (s.cpu bootCpu) = false := by
    by_cases e : c = bootCpu
    · exact Or.inr (e ▸ hc)
    · exact Or.inl e
  have hoff : ∀ d q, d ≠ c → proc (s.cpu d) = some q → proc k ≠ some q := by
    intro d q hd hq hkq
    rcases (hkp q hkq).2 with hx | hx
    · exact hd (h.single d c q hq hx)
    · exact hx (h.onCpu d q hq)
  have hbk : ∀ x, (update s.cpu c k) bootCpu = .booting x → s.cpu bootCpu = .booting x := by
    intro x hx
    by_cases e : bootCpu = c
    · subst e
      rw [update_self] at hx
      simp [hx, booting] at hk
    · simpa [e] using hx
  refine ⟨⟨M,hu⟩,fun d q hq => ?_,fun d e q hd he => ?_,fun d hd => ?_,
    fun q np hq => hemb np (h.embryo q np hq),h.owner,fun d hd => ?_,fun np hnp => ?_,
    fun hb => hboot (hbk _ hb)⟩
  · by_cases hdc : d = c
    · subst hdc
      simp only [update_self] at hq
      exact (hkp q hq).1
    · simp only [update_of_ne hdc] at hq
      exact hrun q (fun hx => hdc (h.single d c q hq hx)) (h.onCpu d q hq)
  · by_cases hdc : d = c
    · by_cases hec : e = c
      · rw [hdc, hec]
      · simp only [hdc, update_self] at hd
        simp only [update_of_ne hec] at he
        exact absurd hd (hoff e q hec he)
    simp only [update_of_ne hdc] at hd
    by_cases hec : e = c
    · simp only [hec, update_self] at he
      exact absurd he (hoff d q hdc hd)
    · simp only [update_of_ne hec] at he
      exact h.single d e q hd he
  · by_cases hdc : d = c
    · subst hdc
      simp only [update_self] at hd
      exact hlk hd
    · simp only [update_of_ne hdc, h.unheld hl d hdc] at hd
      cases hd
  · by_cases hdc : d = c
    · subst hdc
      simp [hk] at hd
    · simp only [update_of_ne hdc] at hd
      exact h.bootCpuOnly d hd
  have hs : bootEmbryo (s.cpu bootCpu) = some np := by
    by_cases e : bootCpu = c
    · subst e
      simp only [update_self] at hnp
      cases k with
      | booting b => simp [booting] at hk
      | _ => simp [bootEmbryo] at hnp
    · simpa [e] using hnp
  obtain ⟨h1,h2⟩ := h.bootSlot np hs
  exact ⟨hemb np h1,h2⟩

theorem Consistent.retable (hu : Listed leak none u M) (hst : ∀ q, u.state q = s.tab.state q ∨
      s.tab.state q = .sleeping ∧ u.state q = .runnable) (l : Option Cpu)
    (hl : ∀ d, holds (s.cpu d) → l = some d) : Consistent leak { s with tab := u, lock := l } := by
  have hkeep : ∀ q st, st ≠ .sleeping → s.tab.state q = st → u.state q = st := by
    intro q st hne hq
    rcases hst q with e | e
    · exact e.trans hq
    · exact absurd (hq.symm.trans e.1) hne
  exact ⟨⟨M,hu⟩,fun d q hq => hkeep q _ (by simp) (h.onCpu d q hq),h.single,hl,
    fun q np hq => hkeep np _ (by simp) (h.embryo q np hq),h.owner,h.bootCpuOnly,
    fun np hnp => ⟨hkeep np _ (by simp) (h.bootSlot np hnp).1,(h.bootSlot np hnp).2⟩,
    fun hb q => hkeep q _ (by simp) (h.bootFree hb q)⟩

theorem Consistent.toScheduler (hl : s.lock = none ∨ s.lock = some c)
    (hc : proc (s.cpu c) = some p) (hb : booting (s.cpu c) = false) (r : Resume)
    (hu : Listed leak none u M) (hst : ∀ q, q ≠ p → u.state q = s.tab.state q ∨
      s.tab.state q = .sleeping ∧ u.state q = .runnable) :
    Consistent leak (toScheduler s c p i r u) := by
  have hp := h.onCpu c p hc
  have hkeep : ∀ q st, q ≠ p → st ≠ .sleeping → s.tab.state q = st → u.state q = st := by
    intro q st hq hne hs
    rcases hst q hq with e | e
    · exact e.trans hs
    · exact absurd (hs.symm.trans e.1) hne
  refine h.move hl _ hb rfl hu (fun _ => rfl) (fun q hq hs => ?_) (fun q hq => by cases hq)
    (fun q hs => ?_) (fun hboot => ?_)
  · exact hkeep q _ (fun e => hq (e ▸ hc)) (by simp) hs
  · exact hkeep q _ (fun e => by rw [e, hp] at hs; cases hs) (by simp) hs
  · have := h.bootFree hboot p
    simp [hp] at this

theorem Consistent.toProcess (hl : s.lock = none ∨ s.lock = some c)
    (hc : proc (s.cpu c) = some p) (hb : booting (s.cpu c) = false) (hu : Listed leak none u M)
    (hst : ∀ q, s.tab.state q ≠ .zombie → u.state q = s.tab.state q) :
    Consistent leak { s with tab := u, lock := none, cpu := update s.cpu c (.running p i) } := by
  have hp := h.onCpu c p hc
  refine h.move hl _ hb rfl hu (fun hx => by cases hx) (fun q _ hs => ?_) (fun q hq => ?_)
    (fun q hs => ?_) (fun hboot => ?_)
  · rw [hst q (by simp [hs]), hs]
  · obtain rfl : p = q := Option.some.inj hq
    exact ⟨by rw [hst p (by simp [hp]), hp],Or.inl hc⟩
  · rw [hst q (by simp [hs]), hs]
  · have := h.bootFree hboot p
    simp [hp] at this

theorem Consistent.disown (hd : forkEmbryo (s.doing p) = some np) (hu : Listed leak none u M)
    (hst : ∀ q, q ≠ np → u.state q = s.tab.state q) :
    Consistent leak { s with tab := u, doing := update s.doing p .nothing } := by
  have hnp : s.tab.state np = .embryo := h.embryo p np hd
  have hne : ∀ q, s.tab.state q ≠ .embryo → q ≠ np := fun q hq e => hq (e ▸ hnp)
  have hdo : ∀ q m, forkEmbryo (update s.doing p .nothing q) = some m →
      q ≠ p ∧ forkEmbryo (s.doing q) = some m := by
    intro q m hq
    by_cases e : q = p
    · subst e
      simp [forkEmbryo] at hq
    · exact ⟨e,by simpa [e] using hq⟩
  have hkeep : ∀ q m, q ≠ p → forkEmbryo (s.doing q) = some m → u.state m = .embryo := by
    intro q m hq hm
    rw [hst m (fun e => hq (h.owner q p np (e ▸ hm) hd))]
    exact h.embryo q m hm
  refine ⟨⟨M,hu⟩,fun c q hq => ?_,h.single,h.locked,
    fun q m hq => hkeep q m (hdo q m hq).1 (hdo q m hq).2,
    fun q r m hq hr => h.owner q r m (hdo q m hq).2 (hdo r m hr).2,h.bootCpuOnly,
    fun m hm => ?_,fun hb => ?_⟩
  · have hr := h.onCpu c q hq
    rw [hst q (hne q (by simp [hr]))]
    exact hr
  · obtain ⟨h1,h2⟩ := h.bootSlot m hm
    refine ⟨?_,fun q hq => h2 q (hdo q m hq).2⟩
    rw [hst m (fun e => h2 p (e ▸ hd))]
    exact h1
  · have := h.bootFree hb np
    simp [hnp] at this

theorem Consistent.own (hp : s.tab.state p = .running) (hnp : s.tab.state np = .unused)
    (hu : Listed leak none u M) (hst : u.state = update s.tab.state np .embryo)
    (r : Slot → Resume) :
    Consistent leak { s with
      tab := u
      doing := update (update s.doing np .nothing) p (.forkStack np)
      resume := r } := by
  have hne : ∀ q, s.tab.state q ≠ .unused → u.state q = s.tab.state q := by
    intro q hq
    have hx : q ≠ np := fun e => hq (e ▸ hnp)
    rw [hst, update_of_ne hx]
  have hfree : ∀ q, forkEmbryo (s.doing q) ≠ some np := by
    intro q hq
    have := h.embryo q np hq
    simp [hnp] at this
  have hdo : ∀ q m, forkEmbryo (update (update s.doing np .nothing) p (.forkStack np) q) = some m →
      q = p ∧ m = np ∨ forkEmbryo (s.doing q) = some m := by
    intro q m hq
    by_cases e : q = p
    · subst e
      simp only [update_self, forkEmbryo, Option.some.injEq] at hq
      exact Or.inl ⟨rfl,hq.symm⟩
    right
    by_cases e' : q = np
    · simp [e', forkEmbryo, show np ≠ p from e' ▸ e] at hq
    · simpa [e, e'] using hq
  refine ⟨⟨M,hu⟩,fun c q hq => ?_,h.single,h.locked,fun q m hq => ?_,fun q r m hq hr => ?_,
    h.bootCpuOnly,fun m hm => ?_,fun hb => ?_⟩
  · have hr := h.onCpu c q hq
    rw [hne q (by simp [hr])]
    exact hr
  · rcases hdo q m hq with ⟨-,e⟩ | hq
    · rw [e, hst, update_self]
    · have hm := h.embryo q m hq
      rw [hne m (by simp [hm])]
      exact hm
  · rcases hdo q m hq with ⟨e1,e2⟩ | hq <;> rcases hdo r m hr with ⟨e3,e4⟩ | hr
    · rw [e1, e3]
    · exact absurd (e2 ▸ hr) (hfree r)
    · exact absurd (e4 ▸ hq) (hfree q)
    · exact h.owner q r m hq hr
  · obtain ⟨h1,h2⟩ := h.bootSlot m hm
    refine ⟨(hne m (by simp [h1])).trans h1,fun q hq => ?_⟩
    rcases hdo q m hq with ⟨-,e⟩ | hq
    · rw [e, hnp] at h1
      cases h1
    · exact h2 q hq
  · have := h.bootFree hb p
    simp [hp] at this

theorem Consistent.boot (d : Slot → Doing) (r : Slot → Resume) (hu : Listed leak none u M)
    (hk : proc k = none ∧ holds k = false ∧ k ≠ .booting .alloc)
    (hst : ∀ q, q ≠ p → u.state q = s.tab.state q)
    (hp : ∀ q, forkEmbryo (s.doing q) ≠ some p) (hr : s.tab.state p ≠ .running)
    (he : ∀ np, bootEmbryo k = some np → np = p ∧ u.state p = .embryo)
    (hd : ∀ q np, forkEmbryo (d q) = some np → forkEmbryo (s.doing q) = some np) : Consistent leak
      { tab := u, lock := s.lock, cpu := update s.cpu bootCpu k, doing := d, resume := r } := by
  obtain ⟨hk1,hk2,hk3⟩ := hk
  have hcpu : ∀ c, c ≠ bootCpu → update s.cpu bootCpu k c = s.cpu c :=
    fun c hc => update_of_ne hc _ _
  have hproc : ∀ c q, proc (update s.cpu bootCpu k c) = some q → proc (s.cpu c) = some q := by
    intro c q hq
    by_cases e : c = bootCpu
    · rw [e, update_self, hk1] at hq
      cases hq
    · rwa [hcpu c e] at hq
  refine ⟨⟨M,hu⟩,fun c q hq => ?_,
    fun c e q hc he => h.single c e q (hproc c q hc) (hproc e q he),fun c hc => ?_,
    fun q np hq => ?_,fun q r np hq hr => h.owner q r np (hd q np hq) (hd r np hr),fun c hc => ?_,
    fun np hnp => ?_,fun hx => ?_⟩
  · have hq' := h.onCpu c q (hproc c q hq)
    rw [hst q (fun e => hr (e ▸ hq')), hq']
  · by_cases e : c = bootCpu
    · simp only [e, update_self, hk2] at hc
      cases hc
    · simp only [hcpu c e] at hc
      exact h.locked c hc
  · have hq' := hd q np hq
    rw [hst np (fun e => hp q (e ▸ hq')), h.embryo q np hq']
  · by_cases e : c = bootCpu
    · exact e
    · simp only [hcpu c e] at hc
      exact h.bootCpuOnly c hc
  · simp only [update_self] at hnp
    obtain ⟨e,hs⟩ := he np hnp
    exact ⟨by rw [e]; exact hs,fun q hq => hp q (e ▸ hd q np hq)⟩
  · simp only [update_self] at hx
    exact absurd hx hk3

end

end Step

end Yeet.ProcControl
