import YeetKernel.PromotePeriod

/-!
# Budgets

The budget of a process is an unsigned number that may pass below zero when a
slice is charged; `demoteProc` takes any value above `MAXBUDG` for that.
-/

namespace Yeet.Clocked
open Kernel StateLists ProcTable ProcSpec ProcPrio ProcStep ProcControl ProcEffect ProcInvariant
open Family Function

def quota : ℕ := MAXBUDG.toNat

/-- No process has been running for 2^32 - `MAXBUDG` ticks. -/
def Short (x : Timed) : Prop :=
  ∀ p, x.sys.tab.state p = .running → x.now-x.since p < 2^32-quota

def remaining (n : ℕ) : Uint := BitVec.ofNat 32 (quota-n)

structure Ledger (x : Timed) : Prop where
  slice : ∀ p, x.sys.tab.state p = .running →
    x.since p ≤ x.now ∧ x.sys.tab.cpuTicksIn p = BitVec.ofNat 32 (x.since p)
  budget : ∀ p, Live (x.sys.tab.state p) →
    x.charged p ≤ quota ∧ x.sys.tab.budget p = remaining (x.charged p)
  boot : ∀ p, x.sys.cpu bootCpu = .booting (.ready p) →
    x.charged p = 0 ∧ x.sys.tab.budget p = MAXBUDG

section Arithmetic

theorem remaining_zero : remaining 0 = MAXBUDG := rfl

theorem toNat_remaining (n : ℕ) : (remaining n).toNat = quota-n := by
  have hq : quota = 200 := rfl
  rw [remaining, BitVec.toNat_ofNat, hq]
  omega

theorem slice_eq {m n : ℕ} (h : m ≤ n) :
    BitVec.ofNat 32 n-BitVec.ofNat 32 m = BitVec.ofNat 32 (n-m) := by
  apply BitVec.eq_of_toNat_eq
  simp only [BitVec.toNat_sub, BitVec.toNat_ofNat]
  omega

theorem charge_exceeds {n d : ℕ} (hn : n ≤ quota) (hd : d < 2^32-quota) :
    ¬ remaining n-BitVec.ofNat 32 d ≤ MAXBUDG ↔ quota < n+d := by
  have hq : quota = 200 := rfl
  have hm : MAXBUDG.toNat = 200 := rfl
  rw [BitVec.le_def, BitVec.toNat_sub, toNat_remaining, BitVec.toNat_ofNat, hm]
  omega

theorem charge_within {n d : ℕ} (hd : n+d ≤ quota) :
    remaining n-BitVec.ofNat 32 d = remaining (n+d) := by
  have hq : quota = 200 := rfl
  apply BitVec.eq_of_toNat_eq
  rw [BitVec.toNat_sub, toNat_remaining, toNat_remaining, BitVec.toNat_ofNat]
  omega

end Arithmetic

section Switch

variable {x : Timed} {p : Slot}

theorem charge_budget (t : Table) :
    (charge p t).budget p = t.budget p-(t.ticks-t.cpuTicksIn p) := by
  simp [charge]

theorem Ledger.charge_eq (h : Ledger x) (hc : Clock x) (hp : x.sys.tab.state p = .running) :
    (charge p x.sys.tab).budget p = remaining (x.charged p)-BitVec.ofNat 32 (x.now-x.since p) := by
  obtain ⟨hle,hin⟩ := h.slice p hp
  rw [charge_budget, (h.budget p (Or.inr (Or.inr hp))).2, hc.ticks, hin, slice_eq hle]

theorem Ledger.demoted_iff (h : Ledger x) (hc : Clock x) (hs : Short x)
    (hp : x.sys.tab.state p = .running) : Demoted p x.sys.tab ↔ quota < used x p := by
  rw [Demoted, h.charge_eq hc hp]
  exact charge_exceeds (h.budget p (Or.inr (Or.inr hp))).1 (hs p hp)

theorem Ledger.settled (h : Ledger x) (hc : Clock x) (hs : Short x)
    (hp : x.sys.tab.state p = .running) : (if Demoted p x.sys.tab then 0 else used x p) ≤ quota ∧
      (demoteProc p (charge p x.sys.tab)).budget p =
        remaining (if Demoted p x.sys.tab then 0 else used x p) := by
  have hiff := h.demoted_iff hc hs hp
  by_cases hd : Demoted p x.sys.tab
  · rw [if_pos hd, demoteProc, if_neg hd]
    exact ⟨Nat.zero_le _,update_self ..⟩
  · have hle : used x p ≤ quota := not_lt.mp (mt hiff.mpr hd)
    rw [if_neg hd, demoteProc, if_pos (not_not.mp hd), h.charge_eq hc hp]
    exact ⟨hle,charge_within hle⟩

theorem demoteProc_other (t : Table) {q : Slot} (hq : q ≠ p) :
    (demoteProc p (charge p t)).budget q = t.budget q := by
  unfold demoteProc charge
  split
  · simp [hq]
  · simp [hq]

theorem demoteProc_priority (t : Table) : (demoteProc p (charge p t)).priority p =
      if Demoted p t then (if t.priority p < MAXPRIO then t.priority p+1 else t.priority p)
      else t.priority p := by
  by_cases hd : Demoted p t
  · rw [if_pos hd, demoteProc, if_neg hd]
    have hpr : (charge p t).priority = t.priority := rfl
    by_cases hm : t.priority p < MAXPRIO
    · simp [hpr, hm]
    · simp [hpr, hm]
  · rw [if_neg hd, demoteProc, if_pos (not_not.mp hd)]
    rfl

end Switch

section Step

variable {x : Timed} {a : Action} {e : Event} {s : State} {p : Slot} {c : Cpu}

theorem Plain.charged (h : Plain x.sys a e) (hr : refreshed x.sys a = none) :
    (note x a s e).charged = x.charged := by
  have hp : ¬ (passes a ∧ Due x.sys.tab) := fun hp => h.2.2.1 hp.1 hp.2
  simp only [note, chargedAfter, h.2.2.2.2, if_neg hp, hr]

theorem Plain.charged_update (h : Plain x.sys a e) (hr : refreshed x.sys a = some p) :
    (note x a s e).charged = update x.charged p 0 := by
  have hp : ¬ (passes a ∧ Due x.sys.tab) := fun hp => h.2.2.1 hp.1 hp.2
  simp only [note, chargedAfter, h.2.2.2.2, if_neg hp, hr]

theorem note_since (he : ∀ p l, e ≠ .dispatched p l) : (note x a s e).since = x.since := by
  cases e with
  | dispatched p l => exact absurd rfl (he p l)
  | _ => rfl

theorem Ledger.slice_kept (h : Ledger x) (hst : Steady x.sys.tab s.tab)
    (he : ∀ p l, e ≠ .dispatched p l) (hn : (note x a s e).now = x.now) :
    ∀ p, s.tab.state p = .running → (note x a s e).since p ≤ (note x a s e).now ∧
      s.tab.cpuTicksIn p = BitVec.ofNat 32 ((note x a s e).since p) := by
  intro p hp
  obtain ⟨hrun,hin⟩ := hst.running p hp
  rw [note_since he, hn, hin]
  exact h.slice p hrun

theorem live_cases {st : ProcState} (h : Live st) :
    st = .sleeping ∨ st = .runnable ∨ st = .running := h

theorem Ledger.entry (h : Ledger x) (E : Slot → Prop)
    (hslice : ∀ q, s.tab.state q = .running → (note x a s e).since q ≤ (note x a s e).now ∧
      s.tab.cpuTicksIn q = BitVec.ofNat 32 ((note x a s e).since q))
    (hin : ∀ q, E q → (Live (s.tab.state q) → (note x a s e).charged q ≤ quota ∧
        s.tab.budget q = remaining ((note x a s e).charged q)) ∧
      (s.cpu bootCpu = .booting (.ready q) →
        (note x a s e).charged q = 0 ∧ s.tab.budget q = MAXBUDG))
    (hout : ∀ q, ¬ E q → (note x a s e).charged q = x.charged q ∧
      s.tab.budget q = x.sys.tab.budget q)
    (hlive : ∀ q, ¬ E q → Live (s.tab.state q) → Live (x.sys.tab.state q))
    (hboot : ∀ q, ¬ E q → s.cpu bootCpu = .booting (.ready q) →
      x.sys.cpu bootCpu = .booting (.ready q)) : Ledger (note x a s e) := by
  refine ⟨hslice,fun q hq => ?_,fun q hq => ?_⟩
  · by_cases hE : E q
    · exact (hin q hE).1 hq
    · show (note x a s e).charged q ≤ quota ∧ s.tab.budget q = remaining ((note x a s e).charged q)
      rw [(hout q hE).1, (hout q hE).2]
      exact h.budget q (hlive q hE hq)
  by_cases hE : E q
  · exact (hin q hE).2 hq
  · show (note x a s e).charged q = 0 ∧ s.tab.budget q = MAXBUDG
    rw [(hout q hE).1, (hout q hE).2]
    exact h.boot q (hboot q hE hq)

def BootKept (x : Timed) (a : Action) (s : State) (e : Event) : Prop :=
  ∀ p, s.cpu bootCpu = .booting (.ready p) → refreshed x.sys a = some p ∧ Plain x.sys a e ∨
      x.sys.cpu bootCpu = .booting (.ready p) ∧ x.sys.tab.state p = .embryo ∧ a ≠ .userinitReady

theorem BootKept.before (h : BootKept x a s e) (hr : refreshed x.sys a ≠ some p)
    (hp : s.cpu bootCpu = .booting (.ready p)) : x.sys.cpu bootCpu = .booting (.ready p) := by
  rcases h p hp with hb | hb
  · exact absurd hb.1 hr
  · exact hb.1

theorem ledger_tick (h : Ledger x) (hboot : BootKept x .tick s .silent)
    (hu : s.tab = {x.sys.tab with ticks := x.sys.tab.ticks+1}) : Ledger (note x .tick s .silent) := by
  refine h.entry (fun _ => False) (fun q hq => ?_) (fun _ hE => hE.elim) (fun q _ => ⟨rfl,by rw [hu]⟩)
    (fun q _ hq => by rwa [hu] at hq) (fun q _ hq => hboot.before (by simp [refreshed]) hq)
  rw [hu] at hq ⊢
  obtain ⟨h1,h2⟩ := h.slice q hq
  exact ⟨h1.trans (by simp [note]),h2⟩

theorem ledger_first (h : Ledger x) (hboot : BootKept x .userinitReady s .silent)
    (hcpu : x.sys.cpu bootCpu = .booting (.ready p))
    (state : s.tab.state = update x.sys.tab.state p .runnable)
    (budget : s.tab.budget = x.sys.tab.budget) (since : s.tab.cpuTicksIn = x.sys.tab.cpuTicksIn) :
    Ledger (note x .userinitReady s .silent) := by
  have hnone : ∀ q, s.cpu bootCpu ≠ .booting (.ready q) := by
    intro q hq
    rcases hboot q hq with ⟨hr,-⟩ | ⟨-,-,hr⟩
    · cases hr
    · exact hr rfl
  refine h.entry (fun q => q = p) (fun q hq => ?_) (fun q hE =>
    ⟨fun _ => ?_,fun hq => absurd hq (hnone q)⟩)
    (fun q _ => ⟨rfl,by rw [budget]⟩) (fun q hE hq => ?_) (fun q _ hq => absurd hq (hnone q))
  · have hq' := (running_of_update (t := x.sys.tab) state (by simp) hq).2
    rw [since]
    exact h.slice q hq'
  · obtain ⟨h1,h2⟩ := h.boot p hcpu
    subst hE
    rw [budget, h2, show (note x .userinitReady s .silent).charged q = 0 from h1]
    exact ⟨Nat.zero_le _,rfl⟩
  · rwa [state, update_of_ne hE] at hq

theorem ledger_pass {L : ListId → List Slot} (h : Ledger x)
    (hboot : BootKept x (.schedBegin c) s .silent) (due : Due x.sys.tab)
    (placed : Listed True none x.sys.tab L) (hp : Promoted x.sys.tab s.tab L) :
    Ledger (note x (.schedBegin c) s .silent) := by
  have hch : ∀ q, (note x (.schedBegin c) s .silent).charged q =
      if x.sys.tab.state q = .sleeping ∨ x.sys.tab.state q = .runnable ∨
        x.sys.tab.state q = .running then 0 else x.charged q := by
    intro q
    simp only [note, chargedAfter, switched, passes, due, and_self, if_true]
  have hst : s.tab.state = x.sys.tab.state := by rw [hp.same]
  refine h.entry (fun _ => True) (fun q hq => ?_) (fun q _ => ⟨fun hq => ?_,fun hq => ?_⟩)
    (fun _ hE => absurd trivial hE) (fun _ hE => absurd trivial hE) (fun _ hE => absurd trivial hE)
  · rw [hst] at hq
    rw [hp.same]
    exact h.slice q hq
  · rw [hst] at hq
    rw [hch, if_pos (live_cases hq), remaining_zero]
    refine ⟨Nat.zero_le _,?_⟩
    rcases hq with hq | hq | hq
    · exact (hp.waiting q (Or.inl (placed.mem_sleep hq))).2
    · obtain ⟨j,hj⟩ := mem_promoted (placed.mem_ready hq)
      exact (hp.ready j q hj).2
    · exact (hp.waiting q (Or.inr (placed.mem_running hq))).2
  · rcases hboot q hq with ⟨hr,-⟩ | ⟨hr,hemb,-⟩
    · cases hr
    · rw [hch, if_neg (by simp [hemb]), (hp.other q (Or.inr (Or.inl (placed.mem_embryo hemb)))).2]
      exact h.boot q hr

theorem ledger_dispatch {l : Level} (h : Ledger x) (hc : Clock x)
    (hboot : BootKept x (.schedNext c) s (.dispatched p l)) (hp : x.sys.tab.state p = .runnable)
    (state : s.tab.state = update x.sys.tab.state p .running)
    (budget : s.tab.budget = x.sys.tab.budget)
    (since : s.tab.cpuTicksIn = update x.sys.tab.cpuTicksIn p x.sys.tab.ticks) :
    Ledger (note x (.schedNext c) s (.dispatched p l)) := by
  refine h.entry (fun _ => False) (fun q hq => ?_) (fun _ hE => hE.elim) (fun q _ => ⟨rfl,by rw [budget]⟩)
    (fun q _ hq => ?_) (fun q _ hq => hboot.before (by simp [refreshed]) hq)
  · simp only [note, sinceAfter]
    rw [since]
    by_cases e : q = p
    · subst e
      simp [hc.ticks]
    · rw [state, update_of_ne e] at hq
      rw [update_of_ne e, update_of_ne e]
      exact h.slice q hq
  · by_cases e : q = p
    · subst e
      simp [Live, hp]
    · rwa [state, update_of_ne e] at hq

theorem entry_ledger (h : Ledger x) (hc : Clock x) (hs : Short x) (hboot : BootKept x a s e)
    (he : Entry x.sys a e x.sys.tab s.tab) : Ledger (note x a s e) := by
  cases he with
  | tick ha he hu =>
    subst ha he
    exact ledger_tick h hboot hu
  | first p ha he hcpu ticks deadline state budget since =>
    subst ha he
    exact ledger_first h hboot hcpu state budget since
  | pass c L ha he due placed hp =>
    subst ha he
    exact ledger_pass h hboot due placed hp
  | dispatch c p l ha he hp ticks deadline state budget since =>
    subst ha he
    exact ledger_dispatch h hc hboot hp state budget since
  | out p hsw hn hp st hst steady state budget priority =>
    have hch : (note x a s e).charged =
        update x.charged p (if Demoted p x.sys.tab then 0 else used x p) := by
      simp only [note, chargedAfter, hsw]
    have hready : ∀ q, s.cpu bootCpu = .booting (.ready q) →
        x.sys.cpu bootCpu = .booting (.ready q) ∧ q ≠ p := by
      intro q hq
      rcases hboot q hq with ⟨-,hpl⟩ | ⟨hr,hemb,-⟩
      · rw [hpl.2.2.2.2] at hsw
        cases hsw
      refine ⟨hr,?_⟩
      rintro rfl
      rw [hp] at hemb
      cases hemb
    refine h.entry (fun q => q = p) (h.slice_kept steady hn.2.2.2 (note_now hn.1))
      (fun q hE => ⟨fun _ => ?_,fun hq => absurd hE (hready q hq).2⟩) (fun q hE => ?_) (fun q hE hq => ?_)
      (fun q _ hq => (hready q hq).1)
    · rw [hE, hch, update_self, budget]
      exact h.settled hc hs hp
    · rw [hch, update_of_ne hE, budget, demoteProc_other _ hE]
      exact ⟨rfl,rfl⟩
    · rwa [state, update_of_ne hE] at hq
  | refresh p plain hr steady live budget =>
    have hch := plain.charged_update (s := s) hr
    refine h.entry (fun q => q = p) (h.slice_kept steady plain.2.2.2.1 plain.now) (fun q hE => ?_)
      (fun q hE => ?_) live (fun q hE hq => hboot.before (fun e => hE ?_) hq)
    · rw [hE, hch, budget, update_self, update_self]
      exact ⟨fun _ => ⟨Nat.zero_le _,rfl⟩,fun _ => ⟨rfl,rfl⟩⟩
    · rw [hch, budget, update_of_ne hE, update_of_ne hE]
      exact ⟨rfl,rfl⟩
    · exact Option.some.inj (e.symm.trans hr)
  | quiet plain hr steady live budget =>
    have hch := plain.charged (s := s) hr
    refine h.entry (fun _ => False) (h.slice_kept steady plain.2.2.2.1 plain.now) (fun _ hE => hE.elim)
      (fun q _ => ⟨by rw [hch],by rw [budget]⟩) (fun q _ => live q)
      (fun q _ hq => hboot.before (by rw [hr]; simp) hq)

end Step

section Boot

variable {s s' : State} {a : Action} {e : Event} {p : Slot}

theorem ready_of_update {c : Cpu} {k : CpuCtl} (hk : booting k = false)
    (h : update s.cpu c k bootCpu = .booting (.ready p)) : s.cpu bootCpu = .booting (.ready p) := by
  by_cases e : bootCpu = c
  · rw [← e, update_self] at h
    rw [h] at hk
    cases hk
  · rwa [update_of_ne e] at h

theorem boot_ready (hc : Consistent True s) (he : Effect s a s' e)
    (hp : s'.cpu bootCpu = .booting (.ready p)) : refreshed s a = some p ∧ Plain s a e ∨
      s.cpu bootCpu = .booting (.ready p) ∧ s.tab.state p = .embryo ∧ a ≠ .userinitReady := by
  have hkeep : a ≠ .userinitReady → s.cpu bootCpu = .booting (.ready p) →
      refreshed s a = some p ∧ Plain s a e ∨
        s.cpu bootCpu = .booting (.ready p) ∧ s.tab.state p = .embryo ∧ a ≠ .userinitReady :=
    fun ha h => Or.inr ⟨h,(hc.bootSlot p (by rw [h]; rfl)).1,ha⟩
  cases he with
  | userinitAlloc q t hcpu hl op => simp at hp
  | userinitStack q hcpu =>
    simp only [update_self, CpuCtl.booting.injEq, Boot.ready.injEq] at hp
    subst hp
    exact Or.inl ⟨by simp [refreshed, hcpu, bootEmbryo],plain_silent (by simp) (by simp) rfl rfl⟩
  | userinitReady q t hcpu hl op => simp at hp
  | resumeWait c q i r t hcpu op | wait c q i r t hcpu hl op =>
    refine hkeep (by simp) ?_
    cases r with
    | slept => exact ready_of_update (k := .scanning (i+1)) rfl hp
    | _ => exact ready_of_update (k := .running q i) rfl hp
  | schedBegin c t hcpu hl op => exact hkeep (by simp) (ready_of_update (k := .scanning 0) rfl hp)
  | schedIdle c i hcpu hn => exact hkeep (by simp) (ready_of_update (k := .idle) rfl hp)
  | dispatch c i j q t hcpu hn hh op =>
    exact hkeep (by simp) (ready_of_update (k := .resuming q j) rfl hp)
  | resume c q i hcpu | resumeSleep c q i hcpu =>
    exact hkeep (by simp) (ready_of_update (k := .running q i) rfl hp)
  | exit c q i t hcpu hl op | sleep c n q i t hcpu hl op | yield c q i t hcpu hl op =>
    exact hkeep (by simp) (ready_of_update (k := .scanning (i+1)) rfl hp)
  | _ => exact hkeep (by simp) hp

end Boot

section Runs

variable {x₀ x y : Timed} {h : List (Action × Event)} {a : Action} {e : Event} {p : Slot}

def ShortSlices (x₀ : Timed) (h : List (Action × Event)) : Prop :=
  ∀ h₁ x₁, h₁ <+: h → Run x₀ h₁ x₁ → Short x₁

theorem start_ledger (h0 : Start x₀) : Ledger x₀ := by
  obtain ⟨⟨ticks,pat,ht⟩,-,-⟩ := h0
  obtain ⟨ls,L,hi,-⟩ := userinitLists_spec True ticks pat
  rw [boot, hi, ok_bind] at ht
  have hx := Except.ok.inj ht
  refine ⟨fun p hp => ?_,fun p hp => ?_,fun p hp => ?_⟩
  · rw [← hx] at hp
    cases hp
  · rw [← hx] at hp
    simp [Live, bssTable] at hp
  · rw [← hx] at hp
    simp at hp

theorem run_ledger (h0 : Start x₀) (hr : Run x₀ h x) (hs : ShortSlices x₀ h) : Ledger x := by
  induction hr with
  | nil => exact start_ledger h0
  | snoc run step ih =>
    have hc := run_consistent_sys h0 run
    obtain ⟨s,hstep,rfl⟩ := exec_eq_ok step
    have he := exec_effect hstep
    refine entry_ledger (ih (fun h₁ x₁ hp => hs h₁ x₁ (hp.trans (List.prefix_append _ _))))
      (run_clock h0 run) (hs _ _ (List.prefix_append _ _) run) (fun p hp => boot_ready hc he hp)
      (effect_entry hc he)

/-- In a run without overlong slices the budget of every live process is what
is left of `MAXBUDG` after the ticks charged to it since it was set. A `yield`
or `sleep` demotes the caller exactly if the ticks charged then exceed
`MAXBUDG`; its priority goes one down unless it is at the bottom. -/
theorem demotion_accounting (h0 : Start x₀) (hr : Run x₀ h x) (hs : ShortSlices x₀ h) :
    (∀ q, Live (x.sys.tab.state q) → x.sys.tab.budget q ≤ MAXBUDG ∧
      (x.sys.tab.budget q).toNat = MAXBUDG.toNat-x.charged q ∧ x.charged q ≤ MAXBUDG.toNat) ∧
    ∀ a y e p, exec x a = some (.ok (y,e)) → switched x.sys a e = some p →
      (Demoted p x.sys.tab ↔ MAXBUDG.toNat < x.charged p+(x.now-x.since p)) ∧
      (Demoted p x.sys.tab → y.sys.tab.priority p = min (x.sys.tab.priority p+1) MAXPRIO ∧
        y.sys.tab.budget p = MAXBUDG ∧ y.charged p = 0) ∧
      (¬ Demoted p x.sys.tab → y.sys.tab.priority p = x.sys.tab.priority p ∧
        (y.sys.tab.budget p).toNat = MAXBUDG.toNat-y.charged p ∧
        y.charged p = x.charged p+(x.now-x.since p)) := by
  have hl := run_ledger h0 hr hs
  have hclock := run_clock h0 hr
  have hshort := hs h x (List.prefix_refl h) hr
  have hcons := run_consistent_sys h0 hr
  refine ⟨fun q hq => ?_,fun a y e p hx hsw => ?_⟩
  · obtain ⟨h1,h2⟩ := hl.budget q hq
    have h3 := toNat_remaining (x.charged q)
    rw [h2, BitVec.le_def, h3]
    exact ⟨Nat.sub_le _ _,rfl,h1⟩
  obtain ⟨s,rfl,he⟩ := step_entry hcons hx
  have hch : (note x a s e).charged p = if Demoted p x.sys.tab then 0 else used x p := by
    simp only [note, chargedAfter, hsw, update_self]
  cases he with
  | out q hq hn hp st hst steady state budget priority =>
    obtain rfl : p = q := Option.some.inj (hsw.symm.trans hq)
    obtain ⟨hle,hset⟩ := hl.settled hclock hshort hp
    have hb : (note x a s e).sys.tab.budget p =
        remaining (if Demoted p x.sys.tab then 0 else used x p) := by
      simp only [note]
      rw [budget, hset]
    have hpr : (note x a s e).sys.tab.priority p = if Demoted p x.sys.tab then
        (if x.sys.tab.priority p < MAXPRIO then x.sys.tab.priority p+1 else x.sys.tab.priority p)
        else x.sys.tab.priority p := by
      simp only [note]
      rw [priority, demoteProc_priority]
    obtain ⟨L,hL⟩ := hcons.placed
    have hmax := hL.prio p
    refine ⟨hl.demoted_iff hclock hshort hp,fun hd => ?_,fun hd => ?_⟩
    · rw [hpr, hb, hch, if_pos hd, if_pos hd]
      refine ⟨?_,rfl,rfl⟩
      split <;> omega
    · rw [hpr, hb, hch, if_neg hd, if_neg hd, toNat_remaining]
      exact ⟨rfl,rfl,rfl⟩
  | tick ha he hu | first q ha he | pass c L ha he | dispatch c q l ha he =>
    subst ha he
    cases hsw
  | refresh q plain | quiet plain =>
    rw [plain.2.2.2.2] at hsw
    cases hsw

theorem short_of_length (h0 : x₀.now = 0) (hlen : h.length < 2^32-quota) : ShortSlices x₀ h := by
  intro h₁ x₁ hp run p _
  have hn := run_now run
  have hl := hp.length_le
  omega

theorem demotion_accounting_yield : ∃ x₀ h x y e p, Start x₀ ∧ Run x₀ h x ∧
    ShortSlices x₀ h ∧ exec x (.yield bootCpu) = some (.ok (y,e)) ∧
    switched x.sys (.yield bootCpu) e = some p ∧ x.charged p+(x.now-x.since p) = 201 ∧
    Demoted p x.sys.tab ∧ y.sys.tab.priority p = min (x.sys.tab.priority p+1) MAXPRIO := by
  obtain ⟨x₀,h,x,h0,hz,hr,hlen,p,hsw,hused,hok⟩ := lateRun_reaches
    (firstBoot++[.schedBegin bootCpu,.schedNext bootCpu,.resume bootCpu]) 201 []
    (fun x => ∃ p, switched x.sys (.yield bootCpu) .silent = some p ∧
      x.charged p+(x.now-x.since p) = 201 ∧
      ((exec x (.yield bootCpu)).any (fun r => r.toOption.any (fun r => r.2 = .silent))) = true)
    (by decide +kernel)
  have hs : ShortSlices x₀ h := short_of_length hz (hlen.trans_lt (by decide))
  cases hx : exec x (.yield bootCpu) with
  | none => simp [hx] at hok
  | some r =>
    cases r with
    | error f => simp [hx, Except.toOption] at hok
    | ok r =>
      obtain ⟨y,e⟩ := r
      have he : e = .silent := by simpa [hx, Except.toOption] using hok
      subst he
      obtain ⟨h1,h2,-⟩ := (demotion_accounting h0 hr hs).2 _ y _ p hx hsw
      have hd := h1.mpr (by rw [hused]; decide)
      exact ⟨x₀,h,x,y,_,p,h0,hr,hs,hx,hsw,hused,hd,(h2 hd).1⟩

end Runs

end Yeet.Clocked
