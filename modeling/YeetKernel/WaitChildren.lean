import YeetKernel.CleanSlots

/-!
# Waiting without children

`wait` returns -1 when its searches find no child. The first process is its
own parent, so it always finds one: itself, on the running list.
-/

namespace Yeet.WaitChildren
open Kernel StateLists ProcTable ProcSpec ProcExit ProcSwitch ProcStep ProcEffect
open ProcInvariant Family ExitWait ProcChange Parents SlotFiles Function

/-- Slots without a process have no parent, and the first process is its own. -/
structure Rooted (t : Table) : Prop where
  blank : ∀ q, ¬ Grown (t.state q) → t.parent q = none
  root : ∀ i, t.initproc = some i → Grown (t.state i) → t.parent i = some i

section Step

variable {s : State} {K : Kin} {a : Action} {e : Event} {t u : Table}

theorem root_kept {q : Slot} {st : ProcState} (h : Rooted t) (hst : ¬ Grown st)
    (hs : u.state = update t.state q st) (hp : ∀ r, r ≠ q → u.parent r = t.parent r)
    (hi : u.initproc = t.initproc) :
    ∀ i, u.initproc = some i → Grown (u.state i) → u.parent i = some i := by
  intro i hui hg
  have hne : i ≠ q := by
    rintro rfl
    rw [hs, update_self] at hg
    exact hst hg
  rw [hs, update_of_ne hne] at hg
  rw [hp i hne]
  exact h.root i (hi ▸ hui) hg

theorem root_switch (h : Rooted t) (hp : u.parent = t.parent) (hi : u.initproc = t.initproc)
    (hst : ∀ q, Switches t u q) :
    ∀ i, u.initproc = some i → Grown (u.state i) → u.parent i = some i := by
  intro i hui hg
  rw [hp]
  refine h.root i (hi ▸ hui) ?_
  rcases hst i with e | e
  · rwa [← e]
  · exact Grown.live e.1

theorem change_rooted (h : Rooted t) (hpar : Parented t)
    (hfree : ∀ q ∈ freeList t.lists, t.state q = .unused) (hc : Change s a t u e) : Rooted u := by
  refine ⟨fun q hq => change_parent hfree h.blank hc hq,?_⟩
  cases hc with
  | switch calm hm init free state | kill q hq calm hm init free state =>
    exact root_switch h (congrArg Prod.fst hm) init state
  | alloc q calm hm init free state =>
    have hp : u.parent = t.parent := congrArg Prod.fst hm
    rcases init with init | hall
    · exact root_kept h (q := q) (by simp [Grown]) state (fun r _ => by rw [hp]) init
    intro i _ hg
    rw [state] at hg
    by_cases e : i = q
    · simp [e, Grown] at hg
    · simp [e, Grown, hall i] at hg
  | stack q hq calm hm init free state =>
    exact root_switch h (congrArg Prod.fst hm) init (fun r => Or.inl (by rw [state]))
  | noStack q hq calm hm init free state | abort q hq ha calm hm init free state =>
    have hp : u.parent = t.parent := congrArg Prod.fst hm
    exact root_kept h (q := q) (by simp [Grown]) state (fun r _ => by rw [hp]) init
  | first q hq hi calm hm init free state =>
    intro i hui _
    obtain rfl : q = i := Option.some.inj (by rw [← hi, ← init, hui])
    rw [show u.parent = update t.parent q (some q) from congrArg Prod.fst hm, update_self]
  | born p q n hp hq he hm init free state =>
    intro i hui hg
    obtain ⟨j,hj,hlive⟩ := hpar.init p (by simp [Grown, hp])
    obtain rfl : j = i := Option.some.inj (by rw [← hj, ← init, hui])
    have hne : j ≠ q := by
      rintro rfl
      simp [Live, hq] at hlive
    rw [show u.parent = update t.parent q (some p) from congrArg Prod.fst hm, update_of_ne hne]
    exact h.root j hj (Grown.live hlive)
  | dies p hp hi he hm init free self state =>
    intro i hui hg
    rw [init] at hui
    have hne : i ≠ p := fun e => hi (e ▸ hui)
    have hgt : Grown (t.state i) := by
      rcases state i hne with e | e
      · rwa [← e]
      · exact Grown.live e.1
    have hroot := h.root i hui hgt
    have hpar' : u.parent = _ := congrArg Prod.fst hm
    simp [hpar', hroot, hne]
  | reaped q hq calm hm init free state =>
    have hp : u.parent = update t.parent q none := congrArg Prod.fst hm
    exact root_kept h (q := q) (by simp [Grown]) state (fun r hr => by rw [hp, update_of_ne hr]) init

end Step

theorem start_rooted {s : State} (h0 : ProcStep.Start s) : Rooted s.tab := by
  refine ⟨fun q _ => (start_marks h0 q).1,fun i _ hg => ?_⟩
  obtain ⟨r,hr,-⟩ := (start_parented h0).parent i hg
  rw [(start_marks h0 i).1] at hr
  cases hr

theorem run_rooted {s₀ s : State} {h : List (Action × Event)} (h0 : ProcStep.Start s₀)
    (hr : ProcStep.Run s₀ h s) : Rooted s.tab := by
  induction hr with
  | nil => exact start_rooted h0
  | snoc run step ih =>
    obtain ⟨hc,hk⟩ := run_kinship (start_consistent h0 True) (start_kinship h0) run
    exact change_rooted ih (run_parented h0 run) (free_unused hc)
      (effect_change hc hk (exec_effect step))

section Wait

variable {leak : Prop} {t : Table} {L : ListId → List Slot} {p : Slot}

def HasChild (t : Table) (p : Slot) : Prop :=
  ∃ q, q ≠ p ∧ t.state q ≠ .unused ∧ t.parent q = some p

theorem waitPass_failed_iff (h : Listed leak none t L) (hp : t.state p = .running)
    (hb : ∀ q ∈ L .free, t.parent q = none) :
    (∃ u, waitPass p t = .ok (.failed,u)) ↔ (∀ q, t.parent q ≠ some p) ∨
        (∀ q, t.state q = .zombie → t.parent q ≠ some p) ∧ t.killed p = true := by
  rw [waitPass, h.walk .zombie, ok_bind]
  cases hf : (L .zombie).find? (fun q => t.parent q = some p) with
  | some z =>
    have hz : t.state z = .zombie := h.fits .zombie z (List.mem_of_find?_eq_some hf)
    have hzp : t.parent z = some p := by simpa using List.find?_some hf
    obtain ⟨ls,hr,-⟩ := reap_spec h hz
    simp only [hr, ok_bind]
    constructor
    · rintro ⟨u,hu⟩
      cases (ok_pair_inj hu).1
    · rintro (hno | ⟨hno,-⟩)
      · exact absurd hzp (hno z)
      · exact absurd hzp (hno z hz)
  | none =>
    have hz : ∀ q, t.state q = .zombie → t.parent q ≠ some p := fun q hq => by
      simpa using List.find?_eq_none.mp hf q (h.mem_zombie hq)
    have hany : (liveLists.flatMap L).any (fun q => t.parent q = some p) = true ↔
        ∃ q, t.parent q = some p := by
      rw [List.any_eq_true]
      constructor
      · rintro ⟨q,-,hq⟩
        exact ⟨q,of_decide_eq_true hq⟩
      rintro ⟨q,hq⟩
      refine ⟨q,(Listed.mem_live_iff h).mpr ⟨fun hm => ?_,fun hm => ?_⟩,decide_eq_true hq⟩
      · rw [hb q hm] at hq
        cases hq
      · exact hz q (h.fits .zombie q hm) hq
    simp only [hasChild_spec h, ok_bind]
    by_cases hk : t.killed p = true
    · simp only [hk, Bool.or_true, if_true]
      exact ⟨fun _ => Or.inr ⟨hz,trivial⟩,fun _ => ⟨t,rfl⟩⟩
    by_cases hc : ∃ q, t.parent q = some p
    · obtain ⟨ls,hsl,-⟩ := sleep_spec h hp (.proc p)
      simp only [hany.mpr hc, hk, Bool.not_true, Bool.or_self, Bool.false_eq_true, if_false, hsl,
        ok_bind]
      constructor
      · rintro ⟨u,hu⟩
        cases (ok_pair_inj hu).1
      rintro (hno | ⟨-,hk'⟩)
      · obtain ⟨q,hq⟩ := hc
        exact absurd hq (hno q)
      · exact hk'.elim
    · have hno : ∀ q, t.parent q ≠ some p := fun q hq => hc ⟨q,hq⟩
      rw [Bool.eq_false_iff.mpr (mt hany.mp hc)]
      exact ⟨fun _ => Or.inl hno,fun _ => ⟨t,rfl⟩⟩

/-- What `wait` by `p` should do: return -1 without children, and not return -1
with a child unless the caller has been killed. -/
def WaitsForChildren (t : Table) (p : Slot) : Prop :=
  (¬ HasChild t p → ∃ u, waitPass p t = .ok (.failed,u)) ∧ (HasChild t p → t.killed p = false →
      ∃ r u, waitPass p t = .ok (r,u) ∧ r ≠ .failed)

/-- In a reachable table `wait` by a running process goes by whether it has
children, unless it is the first process, not killed and without children. -/
theorem wait_without_children_iff {s₀ s : State} {h : List (Action × Event)}
    (h0 : ProcStep.Start s₀) (hr : ProcStep.Run s₀ h s) {p : Slot}
    (hp : s.tab.state p = .running) :
    WaitsForChildren s.tab p ↔
      s.tab.initproc ≠ some p ∨ s.tab.killed p = true ∨ HasChild s.tab p := by
  obtain ⟨hc,hk⟩ := run_kinship (start_consistent h0 True) (start_kinship h0) hr
  obtain ⟨L,hL⟩ := hc.placed
  have hrooted := run_rooted h0 hr
  have hblank : ∀ q ∈ L .free, s.tab.parent q = none := fun q hq =>
    hrooted.blank q (fun hg => hg.1 (hL.fits .free q hq))
  have hfail := waitPass_failed_iff hL hp hblank
  have hunused : ∀ q, s.tab.parent q = some p → s.tab.state q ≠ .unused := by
    intro q hq hu
    rw [hrooted.blank q (fun hg => hg.1 hu)] at hq
    cases hq
  -- only the first process is its own parent
  have hself : s.tab.parent p = some p ↔ s.tab.initproc = some p := by
    constructor
    · intro hpp
      by_contra hne
      obtain ⟨c,hkc⟩ := hk.known hp hne
      exact hk.not_own_parent hne hkc hpp
    · intro hi
      exact hrooted.root p hi (by simp [Grown, hp])
  have hno : (∀ q, s.tab.parent q ≠ some p) ↔ s.tab.initproc ≠ some p ∧ ¬ HasChild s.tab p := by
    constructor
    · intro hall
      refine ⟨fun hi => hall p (hself.mpr hi),?_⟩
      rintro ⟨q,-,-,hq⟩
      exact hall q hq
    rintro ⟨hi,hch⟩ q hq
    by_cases e : q = p
    · exact hi (hself.mp (e ▸ hq))
    · exact hch ⟨q,e,hunused q hq,hq⟩
  constructor
  · rintro ⟨hchildless,-⟩
    by_contra hcon
    push Not at hcon
    obtain ⟨hi,hkill,hch⟩ := hcon
    rcases hfail.mp (hchildless hch) with hall | ⟨-,hk'⟩
    · exact (hno.mp hall).1 hi
    · exact hkill hk'
  intro hcond
  constructor
  · intro hch
    refine hfail.mpr ?_
    rcases hcond with hi | hkill | hc'
    · exact Or.inl (hno.mpr ⟨hi,hch⟩)
    · refine Or.inr ⟨fun q hq hqp => hch ⟨q,?_,by simp [hq],hqp⟩,hkill⟩
      rintro rfl
      rw [hp] at hq
      cases hq
    · exact absurd hc' hch
  · rintro ⟨q,-,-,hq⟩ hkill
    obtain ⟨r,u,M,hw,-,-⟩ := waitPass_spec hL hp
    refine ⟨r,u,hw,?_⟩
    rintro rfl
    rcases hfail.mp ⟨u,hw⟩ with hall | ⟨-,hk'⟩
    · exact hall q hq
    · rw [hkill] at hk'
      cases hk'

end Wait

theorem child_waits_without_children : ∃ s₀ h s p, ProcStep.Start s₀ ∧ ProcStep.Run s₀ h s ∧
    s.tab.state p = .running ∧ s.tab.initproc ≠ some p ∧ ¬ HasChild s.tab p ∧
    WaitsForChildren s.tab p := by
  obtain ⟨s₀,h,s,h0,hrun,-,p,hp,hi,hno⟩ := bootRun_reaches
    (bootAndFork++[.wait bootCpu,.schedNext bootCpu,.schedBegin bootCpu,.schedNext bootCpu,
      .resume bootCpu])
    (fun _ s => ∃ p, s.tab.state p = .running ∧ s.tab.initproc ≠ some p ∧
      ∀ q, s.tab.parent q ≠ some p) (by decide +kernel)
  exact ⟨s₀,h,s,p,h0,hrun,hp,hi,fun ⟨q,_,_,hq⟩ => hno q hq,
    (wait_without_children_iff h0 hrun hp).mpr (Or.inl hi)⟩

/-- The first process runs alone and calls `wait`: it goes to sleep. -/
theorem init_sleeps_without_children : ∃ s₀ h s p u, ProcStep.Start s₀ ∧ ProcStep.Run s₀ h s ∧
    s.tab.state p = .running ∧ s.tab.initproc = some p ∧ ¬ HasChild s.tab p ∧
    waitPass p s.tab = .ok (.slept,u) ∧ ¬ WaitsForChildren s.tab p := by
  obtain ⟨s₀,h,s,h0,hrun,-,p,hp,hi,hno,hw⟩ := bootRun_reaches
    [.userinitAlloc,.userinitStack true,.userinitReady,.schedBegin bootCpu,.schedNext bootCpu,
      .resume bootCpu]
    (fun _ s => ∃ p, s.tab.state p = .running ∧ s.tab.initproc = some p ∧
      (∀ q, q ≠ p → s.tab.parent q ≠ some p) ∧
      ((waitPass p s.tab).toOption.any (fun r => decide (r.1 = .slept))) = true)
    (by decide +kernel)
  cases hx : waitPass p s.tab with
  | error e => simp [hx, Except.toOption] at hw
  | ok r =>
    obtain ⟨r,u⟩ := r
    have hr : r = .slept := by simpa [hx, Except.toOption] using hw
    subst hr
    have hch : ¬ HasChild s.tab p := fun ⟨q,hq,_,hqp⟩ => hno q hq hqp
    refine ⟨s₀,h,s,p,u,h0,hrun,hp,hi,hch,hx,fun hwaits => ?_⟩
    obtain ⟨v,hv⟩ := hwaits.1 hch
    rw [hx] at hv
    cases (ok_pair_inj hv).1

end Yeet.WaitChildren
