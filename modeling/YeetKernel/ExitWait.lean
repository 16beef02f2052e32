import YeetKernel.ProcShift

/-!
# Exit and wait

Every action keeps the process table in agreement with the family recorded
from its events.
-/

namespace Yeet.ExitWait
open Kernel StateLists ProcTable ProcExit ProcSwitch ProcStep ProcControl ProcEffect ProcInvariant
open Family ProcShift Function

section Effects

variable {s s' : State} {K : Kin} {p q : Slot} {a : Action} {e : Event} {c : Cpu} {i : ℕ}

section

variable (hc : Consistent True s) {h : List (Action × Event)}
include hc

theorem not_init (h : Kinship s K)
    (hd : forkEmbryo (s.doing p) = some q) : s.tab.initproc ≠ some q := by
  intro hi
  have hb := h.initEmbryo q hi (hc.embryo p q hd)
  exact (hc.bootSlot q hb).2 p hd

theorem effect_kinship (h : Kinship s K) (he : Effect s a s' e) : Kinship s' (record K e) := by
  obtain ⟨L,hL⟩ := hc.placed
  obtain ⟨M,-,hx⟩ := effect_shift hc hL he
  obtain ⟨u,l,k,d,z⟩ := s'
  cases hx with
  | switch event keeps killed free queue state asleep boot =>
    obtain ⟨hpar,hpid,-,hi,-⟩ := keeps
    rw [event.1]
    exact h.shuffle hi hpid hpar state asleep boot
  | alloc hf hq act init =>
    rcases init with ⟨rfl,rfl⟩ | ⟨hfree,rfl,hb⟩
    · exact h.blank (Or.inl hq) (Or.inr (update_self _ _ s.tab.state))
        (fun hi => (h.init _ hi).2.1 hq) (fun r hr => update_of_ne hr _ _)
        (fun r hr => update_of_ne hr _ _) rfl rfl rfl rfl
    · exact h.first hfree rfl rfl hb
  | stack hq boot =>
    exact h.shuffle rfl rfl rfl (fun _ => Or.inl rfl) (fun q hq => Or.inl ⟨hq,rfl⟩) boot
  | noStack hd =>
    exact h.blank (Or.inr (hc.embryo _ _ hd)) (Or.inl (update_self _ _ s.tab.state))
      (not_init hc h hd) (fun r hr => update_of_ne hr _ _) (fun _ _ => rfl) rfl rfl rfl rfl
  | @abort c p q i ls ha hcpu hd =>
    have hd' : forkEmbryo (s.doing p) = some q := by rw [hd]; rfl
    exact h.blank (Or.inr (hc.copying hd)) (Or.inl (update_self _ _ s.tab.state))
      (not_init hc h hd') (fun r hr => update_of_ne hr _ _) (fun _ _ => rfl) rfl rfl rfl rfl
  | first hcpu =>
    exact h.booted hcpu (hc.bootSlot _ (by rw [hcpu]; rfl)).1 rfl rfl
      (fun r hr => update_of_ne hr _ _) rfl rfl (update_self bootCpu _ s.cpu)
  | @born p q ls hp hd =>
    have hd' : forkEmbryo (s.doing p) = some q := by rw [hd]; rfl
    refine h.born (not_init hc h hd') ?_ rfl rfl rfl rfl rfl rfl
    rintro rfl
    cases hp.symm.trans (hc.copying hd)
  | dies hp hi hx free grows boot => exact h.dies hp hi hL hx boot
  | reaped hq hx boot =>
    exact h.reaped hq rfl (fun r hr => update_of_ne hr _ _) (fun r hr => update_of_ne hr _ _) hx
      rfl boot

theorem reap_effect {n : Uint} (he : Effect s a s' (.waited p (.reaped q n))) :
    s.tab.state q = .zombie ∧ s.tab.pid q = n ∧ s.tab.parent q = some p ∧
      s'.tab.state q = .unused := by
  obtain ⟨L,hL⟩ := hc.placed
  have hw : ∀ {x : Slot → Option Chan} {u : Table}, s.tab.state p = .running →
      waitPass p { s.tab with chan := x } = .ok (.reaped q n,u) →
      s.tab.state q = .zombie ∧ s.tab.pid q = n ∧ s.tab.parent q = some p ∧
        u.state q = .unused := by
    intro x u hp op
    obtain ⟨r,u',M,hw,-,hr⟩ :=
      waitPass_spec (t := { s.tab with chan := x }) (hL.congr rfl rfl rfl) hp
    obtain ⟨rfl,rfl⟩ := ok_pair_inj (hw.symm.trans op)
    cases hr with
    | reaped _ ls hz hq => exact ⟨hz,rfl,hq,update_self q _ s.tab.state⟩
  cases he with
  | resumeWait c _ j _ t hcpu op | wait c _ j _ t hcpu hl op =>
    exact hw (hc.onCpu c p (by rw [hcpu]; rfl)) op

theorem exit_effect (he : Effect s a s' (.exited q)) :
    s'.tab.state q = .zombie ∧ s'.tab.pid q = s.tab.pid q := by
  obtain ⟨L,hL⟩ := hc.placed
  cases he with
  | exit c _ j t hcpu hl op =>
    have hne := exit_ne_initproc op
    obtain ⟨u,M,hu,-,-,hx,-⟩ := exit_spec hL (hc.running hcpu) hne
    obtain rfl := Except.ok.inj (hu.symm.trans op)
    exact ⟨hx.self,by rw [toScheduler, hx.same]⟩

theorem exited_recorded (h : Kinship s K) (he : Effect s a s' e)
    {k : Child} (hk : K q = some k) (hx : k.exited = true)
    (hno : ∀ p n, e ≠ .waited p (.reaped q n)) :
    ∃ k', record K e q = some k' ∧ k'.exited = true ∧ k'.pid = k.pid := by
  cases e with
  | forked p r n =>
    have hne : q ≠ r := by
      rintro rfl
      cases he with
      | forkDone c _ _ j t hcpu hl hd op =>
        exact (h.present q k hk).2 (hc.embryo p q (by rw [hd]; rfl))
    exact ⟨k,by rw [record, update_of_ne hne, hk],hx,rfl⟩
  | exited p => exact ⟨bury p q k,by simp [record, hk],by simp [bury, hx],rfl⟩
  | waited p r =>
    cases r with
    | reaped z n =>
      have hne : q ≠ z := by
        rintro rfl
        exact hno p n rfl
      exact ⟨k,by rw [record, update_of_ne hne, hk],hx,rfl⟩
    | failed | slept => exact ⟨k,hk,hx,rfl⟩
  | silent | dispatched p j => exact ⟨k,hk,hx,rfl⟩

theorem zombie_step (h : Kinship s K) (he : Effect s a s' e)
    (hz : s.tab.state q = .zombie) (hno : ∀ p n, e ≠ .waited p (.reaped q n)) :
    s'.tab.state q = .zombie ∧ s'.tab.pid q = s.tab.pid q := by
  obtain ⟨k,hk,hx⟩ := h.zombie hz
  obtain ⟨k',hk',hx',hpid⟩ := exited_recorded hc h he hk hx hno
  have h' := effect_kinship hc h he
  exact ⟨(h'.exited q k' hk').mpr hx',by rw [h'.pid q k' hk', h.pid q k hk, hpid]⟩

theorem step_consistent (hx : exec s a = some (.ok (s',e))) : Consistent True s' := by
  have hg := exec_good hc a (allowed_true [(a,e)] (a,e) (by simp))
  rw [hx] at hg
  exact hg

theorem run_kinship (hk : Kinship s K) (hr : Run s h s') :
    Consistent True s' ∧ Kinship s' (h.foldl (fun K x => record K x.2) K) := by
  induction hr with
  | nil => exact ⟨hc,hk⟩
  | snoc _ step ih =>
    obtain ⟨hc',hk'⟩ := ih
    refine ⟨step_consistent hc' step,?_⟩
    rw [List.foldl_append]
    exact effect_kinship hc' hk' (exec_effect step)

theorem zombie_run (hk : Kinship s K) (hr : Run s h s') (hz : s.tab.state q = .zombie)
    (hno : ∀ x ∈ h, ∀ p n, x.2 ≠ .waited p (.reaped q n)) :
    s'.tab.state q = .zombie ∧ s'.tab.pid q = s.tab.pid q := by
  induction hr with
  | nil => exact ⟨hz,rfl⟩
  | @snoc s₁ s₂ h a e run step ih =>
    obtain ⟨hz₁,hp₁⟩ := ih (fun x hx => hno x (by simp [hx]))
    obtain ⟨hc₁,hk₁⟩ := run_kinship hc hk run
    obtain ⟨hz₂,hp₂⟩ := zombie_step hc₁ hk₁ (exec_effect step) hz₁ (hno (a,e) (by simp))
    exact ⟨hz₂,hp₂.trans hp₁⟩

end

theorem start_kinship (h0 : Start s) : Kinship s (fun _ => none) := by
  obtain ⟨ticks,pat,ht⟩ := h0
  obtain ⟨ls,L,hi,-⟩ := userinitLists_spec True ticks pat
  rw [boot, hi, ok_bind] at ht
  obtain rfl := Except.ok.inj ht
  refine ⟨fun q r hq => (by cases hq),fun r z hr => (by cases hr),fun q _ => Or.inl rfl,
    fun q c hq => (by cases hq),fun q c hq => (by cases hq),fun q c hq => (by cases hq),
    fun q c hq => (by cases hq),fun q c hq => (by cases hq),fun i hx => (by cases hx),
    fun i hx => (by cases hx),fun q hq => ?_⟩
  simp [bootEmbryo] at hq

end Effects

structure Protocol (h : List (Action × Event)) (s : State) : Prop where
  heard : ∀ r z, s.tab.state r = .sleeping → s.tab.chan r = some (.proc r) →
    s.tab.state z = .zombie → s.tab.parent z ≠ some r
  zombie_iff : ∀ q, s.tab.state q = .zombie ↔ ∃ c, family h q = some c ∧ c.exited = true
  kept : ∀ q c, family h q = some c →
    s.tab.pid q = c.pid ∧ s.tab.parent q = guardian s.tab.initproc c
  exits : ∀ a s' q, exec s a = some (.ok (s',.exited q)) →
    s'.tab.state q = .zombie ∧ s'.tab.pid q = s.tab.pid q
  stays : ∀ h' s' q, Run s h' s' → s.tab.state q = .zombie →
    (∀ x ∈ h', ∀ p n, x.2 ≠ .waited p (.reaped q n)) →
    s'.tab.state q = .zombie ∧ s'.tab.pid q = s.tab.pid q
  reaps : ∀ a s' p q n, exec s a = some (.ok (s',.waited p (.reaped q n))) →
    s.tab.state q = .zombie ∧ s.tab.pid q = n ∧ s.tab.parent q = some p ∧ s'.tab.state q = .unused

/-- In every reachable state no parent sleeps past a zombie child, an exited
process stays a zombie with its pid until its guardian reaps it, and `wait`
returns exited children of the caller only, each once. -/
theorem exit_wait_protocol {s₀ s : State} {h : List (Action × Event)} (h0 : Start s₀)
    (hr : Run s₀ h s) : Protocol h s := by
  obtain ⟨hc,hk⟩ := run_kinship (start_consistent h0 True) (start_kinship h0) hr
  have hk : Kinship s (family h) := hk
  refine ⟨hk.heard,fun q => ⟨hk.zombie,?_⟩,fun q c hq => ⟨hk.pid q c hq,hk.parent q c hq⟩,
    fun a s' q hx => exit_effect hc (exec_effect hx),
    fun h' s' q hrun hz hno => zombie_run hc hk hrun hz hno,
    fun a s' p q n hx => reap_effect hc (exec_effect hx)⟩
  rintro ⟨c,hq,hx⟩
  exact (hk.exited q c hq).mpr hx

def childExits : List Action :=
  bootAndFork++[.wait bootCpu,.schedNext bootCpu,.schedBegin bootCpu,.schedNext bootCpu,
    .resume bootCpu,.exit bootCpu]

theorem exit_wait_protocol_zombie : ∃ s₀ h s q, Start s₀ ∧ Run s₀ h s ∧
    h.map Prod.fst = childExits ∧ s.tab.state q = .zombie ∧ Protocol h s := by
  obtain ⟨s₀,h,s,h0,hrun,hacts,q,hq⟩ := bootRun_reaches childExits
    (fun _ s => ∃ q, s.tab.state q = .zombie) (by decide +kernel)
  exact ⟨s₀,h,s,q,h0,hrun,hacts,hq,exit_wait_protocol h0 hrun⟩

end Yeet.ExitWait
