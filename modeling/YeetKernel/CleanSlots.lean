import YeetKernel.SlotFiles

/-!
# Recycled process slots

A slot comes back to the free list from `wait` and from a `fork` that gives
up its child. `wait` resets every field that a new process reads, but `fork`
does not reset `killed`, which `kill` may have set while the child was an
embryo.
-/

namespace Yeet.SlotFiles
open Kernel StateLists ProcStep ProcControl ProcEffect ProcInvariant Family ExitWait
open ProcChange Parents

section Step

variable {x x' : Full} {a : Act} {e : Event} {p q : Slot}

section

variable (hc : Consistent True x.sys) {K : Kin}
include hc

theorem step_tidy (hk : Kinship x.sys K) (ht : Tidy x)
    (hx : exec x a = some (.ok (x',e))) : Tidy x' := by
  rcases exec_cases hx with ⟨b,rfl,hb,hx'⟩ | ⟨-,-,c,p,i,hp,hs,hq⟩
  · have he := exec_effect hb
    have hch := effect_change hc hk he
    refine ⟨fun q hq => change_parent (free_unused hc) ht.parent hch hq,
      fun q hq => change_kstack (free_unused hc) ht.kstack hch hq,fun q hq => ?_⟩
    obtain ⟨hd,hf⟩ := change_dead (free_unused hc) hch hq
    rw [hx']
    refine settle_files (hd.imp_left (ht.files q)) hf ?_
    rintro rfl hboot
    exact hq (ready_live he hc hboot)
  · have hrun := hc.onCpu c p (by rw [hp]; rfl)
    refine ⟨by rw [hs]; exact ht.parent,by rw [hs]; exact ht.kstack,fun q hdead => ?_⟩
    rw [hs] at hdead
    have hne : q ≠ p := by
      rintro rfl
      simp [Live, hrun] at hdead
    rw [(hq q hne).1, (hq q hne).2]
    exact ht.files q hdead

theorem step_killed (hk : Kinship x.sys K)
    (ht : ∀ q ∈ freeList x.sys.tab.lists, x.sys.tab.killed q = false)
    (ha : ∀ q, aborting x a = some q → x.sys.tab.killed q = false)
    (hx : exec x a = some (.ok (x',e))) :
    ∀ q ∈ freeList x'.sys.tab.lists, x'.sys.tab.killed q = false := by
  rcases exec_cases hx with ⟨b,rfl,hb,-⟩ | ⟨-,-,-,-,-,-,hs,-⟩
  · exact change_killed ht (effect_change hc hk (exec_effect hb)) ha
  · rwa [hs]

theorem step_forked {n : Uint} (hk : Kinship x.sys K)
    (ht : Tidy x) (hx : exec x a = some (.ok (x',.forked p q n))) :
    x'.ofile q = x.ofile p ∧ x'.cwd q = x.cwd p := by
  rcases exec_cases hx with ⟨b,rfl,hb,hx'⟩ | ⟨-,he,-⟩
  · have hq : x.sys.tab.state q = .embryo := by
      cases effect_change hc hk (exec_effect hb) with
      | born p' q' n' hp hq he hm init free state =>
        obtain ⟨-,rfl,-⟩ := Event.forked.inj he
        exact hq
      | dies p' hp hi he hm init free self state => cases he
      | switch calm | kill _ _ calm | alloc _ calm | stack _ _ calm | noStack _ _ calm
      | abort _ _ _ calm | first _ _ _ calm | reaped _ _ calm => exact absurd rfl (calm.1 p q n)
    have hnone := (ht.files q (by simp [Live, hq])).1
    rw [hx']
    refine ⟨?_,by simp [settle]⟩
    funext fd
    simp [settle, hnone fd]
  · cases he

theorem step_taken (hk : Kinship x.sys K)
    (hq : q ∈ freeList x.sys.tab.lists) (hx : exec x a = some (.ok (x',e)))
    (hq' : q ∉ freeList x'.sys.tab.lists) :
    x'.sys.tab.state q = .embryo ∧ x'.sys.tab.killed q = x.sys.tab.killed q := by
  rcases exec_cases hx with ⟨b,rfl,hb,-⟩ | ⟨-,-,-,-,-,-,hs,-⟩
  · cases effect_change hc hk (exec_effect hb) with
    | alloc r calm hm init free state =>
      obtain rfl : q = r := by
        rw [free, List.mem_cons] at hq
        exact hq.resolve_right hq'
      rw [show x'.sys.tab.killed = x.sys.tab.killed from congrArg (·.2.1) hm, state]
      simp
    | abort r hr hab calm hm init free state => exact absurd (by simp [free, hq]) hq'
    | reaped r hr calm hm init free state => exact absurd (by simp [free, hq]) hq'
    | switch _ _ _ free | kill _ _ _ _ _ free | stack _ _ _ _ _ free | noStack _ _ _ _ _ free
    | first _ _ _ _ _ _ free | born _ _ _ _ _ _ _ _ free | dies _ _ _ _ _ _ free =>
      exact absurd (by rwa [free]) hq'
  · rw [hs] at hq'
    exact absurd hq hq'

end

end Step

section Runs

variable {x₀ x : Full} {h : List (Act × Event)}

theorem run_kin (h0 : Start x₀) (hr : Run x₀ h x) :
    Consistent True x.sys ∧ ∃ K, Kinship x.sys K := by
  obtain ⟨g,hg⟩ := run_sys hr
  obtain ⟨hc,hk⟩ := run_kinship (start_consistent h0.1 True) (start_kinship h0.1) hg
  exact ⟨hc,_,hk⟩

theorem start_marks {s : State} (h0 : ProcStep.Start s) (q : Slot) :
    s.tab.parent q = none ∧ s.tab.killed q = false ∧ s.tab.kstack q = false := by
  obtain ⟨ticks,pat,ht⟩ := h0
  obtain ⟨ls,L,hi,-⟩ := userinitLists_spec True ticks pat
  rw [boot, hi, ok_bind] at ht
  obtain rfl := Except.ok.inj ht
  exact ⟨rfl,rfl,rfl⟩

theorem run_tidy (h0 : Start x₀) (hr : Run x₀ h x) : Tidy x := by
  induction hr with
  | nil => exact ⟨fun q _ => (start_marks h0.1 q).1,fun q _ => (start_marks h0.1 q).2.2,
      fun q _ => ⟨h0.2.1 q,h0.2.2 q⟩⟩
  | snoc run step ih =>
    obtain ⟨hc,K,hk⟩ := run_kin h0 run
    exact step_tidy hc hk ih step

def Spares (x : Full) (a : Act) : Prop :=
  ∀ q, aborting x a = some q → x.sys.tab.killed q = false

theorem run_killed (h0 : Start x₀) (hr : Run x₀ h x) (hm : Lts.Meets exec x₀ Spares h) :
    ∀ q ∈ freeList x.sys.tab.lists, x.sys.tab.killed q = false := by
  refine hm.invariant hr (fun x => ∀ q ∈ freeList x.sys.tab.lists, x.sys.tab.killed q = false)
    (fun q _ => (start_marks h0.1 q).2.1) (fun g x₁ a x₂ e run ih ha step => ?_)
  obtain ⟨hc,K,hk⟩ := run_kin h0 run
  exact step_killed hc hk ih ha step

theorem clean_of_free (h0 : Start x₀) (hr : Run x₀ h x) {q : Slot}
    (hq : q ∈ freeList x.sys.tab.lists) (hk : x.sys.tab.killed q = false) : Clean x q := by
  have ht := run_tidy h0 hr
  have hu := free_unused (run_kin h0 hr).1 q hq
  obtain ⟨hf,hd⟩ := ht.files q (by simp [Live, hu])
  exact ⟨hk,ht.parent q (by simp [Grown, hu]),hd,ht.kstack q hu,hf⟩

/-- In every state of a run every slot on the free list is clean just when every
child that `fork` gave up had not been killed. A slot is then not killed when
it is taken for a child; in every run the child has the descriptors of its
parent only. -/
theorem recycled_slots (h0 : Start x₀) (hr : Run x₀ h x) :
    ((∀ h₁ x₁, h₁ <+: h → Run x₀ h₁ x₁ → ∀ q ∈ freeList x₁.sys.tab.lists, Clean x₁ q) ↔
      Lts.Meets exec x₀ Spares h) ∧
    (∀ h₁ y x₁ x₂, h₁++[y] <+: h → Run x₀ h₁ x₁ → Run x₀ (h₁++[y]) x₂ →
      (∀ q ∈ freeList x₁.sys.tab.lists, q ∉ freeList x₂.sys.tab.lists →
        x₂.sys.tab.state q = .embryo ∧ (∀ fd, x₂.ofile q fd = none) ∧ x₂.cwd q = none ∧
          (Lts.Meets exec x₀ Spares h → x₂.sys.tab.killed q = false)) ∧
      ∀ p q n, y.2 = .forked p q n → x₂.ofile q = x₁.ofile p ∧ x₂.cwd q = x₁.cwd p) := by
  refine ⟨⟨fun hclean h₁ y x₁ hp run₁ q hq => ?_,fun hm h₁ x₁ hp run₁ q hq => ?_⟩,?_⟩
  · obtain ⟨x₂,run₂⟩ := hr.part hp
    obtain ⟨x₁',run₁',step⟩ := run₂.last
    obtain rfl := run₁.unique run₁'
    rcases exec_cases step with ⟨b,hb,hstep,-⟩ | ⟨hno,-⟩
    · rw [hb] at hq
      obtain ⟨hk,hmem⟩ := aborted_listed (run_kin h0 run₁).1 (exec_effect hstep) hq
      rw [← hk]
      exact (hclean _ x₂ hp run₂ q hmem).killed
    · rw [hno] at hq
      cases hq
  · exact clean_of_free h0 run₁ hq (run_killed h0 run₁ (hm.part hp) q hq)
  intro h₁ y x₁ x₂ hp run₁ run₂
  obtain ⟨x₁',run₁',step⟩ := run₂.last
  obtain rfl := run₁.unique run₁'
  obtain ⟨hc,K,hk⟩ := run_kin h0 run₁
  refine ⟨fun q hq hq' => ?_,fun p q n hy => ?_⟩
  · obtain ⟨hs,hkill⟩ := step_taken hc hk hq step hq'
    obtain ⟨hf,hd⟩ := (run_tidy h0 run₂).files q (by simp [Live, hs])
    refine ⟨hs,hf,hd,fun hm => ?_⟩
    rw [hkill]
    exact run_killed h0 run₁ (hm.part ((List.prefix_append _ _).trans hp)) q hq
  · rw [hy] at step
    exact step_forked hc hk (run_tidy h0 run₁) step

end Runs

section Boot

instance sparesDecidable (x : Full) (a : Act) : Decidable (Spares x a) :=
  inferInstanceAs (Decidable (∀ q, aborting x a = some q → x.sys.tab.killed q = false))

def noFiles (s : State) : Full := ⟨s,fun _ _ => none,fun _ => none⟩

def fullRun (P : Full → Act → Prop) [∀ x a, Decidable (P x a)] (as : List Act) :
    Option (List (Act × Event) × Full) :=
  match boot 0 0 with
  | .ok s => Lts.replay (Lts.guarded exec P) (noFiles s) as
  | .error _ => none

theorem fullRun_reaches (P : Full → Act → Prop) [∀ x a, Decidable (P x a)] (as : List Act)
    (C : Full → Prop) [∀ x, Decidable (C x)]
    (hc : ((fullRun P as).any (fun r => decide (C r.2))) = true) :
    ∃ x₀ h x, Start x₀ ∧ Run x₀ h x ∧ Lts.Meets exec x₀ P h ∧ h.map Prod.fst = as ∧ C x := by
  unfold fullRun at hc
  split at hc
  · rename_i s hb
    obtain ⟨h,x,hrun,hacts,hx⟩ := Lts.replay_reaches (Lts.guarded exec P) (noFiles s) as
      (fun _ x => C x) hc
    obtain ⟨hrun,hm⟩ := hrun.meets
    exact ⟨noFiles s,h,x,⟨⟨0,0,hb⟩,fun _ _ => rfl,fun _ => rfl⟩,hrun,hm,hacts,hx⟩
  · cases hc

def otherCpu : Cpu := ⟨1,by decide⟩

/-- The first process runs on CPU 0, its child with pid 2 on CPU 1, and the
first process has the slot for a second child. -/
def bootAndDispatch : List Action :=
  bootAndFork++[.schedBegin otherCpu,.schedNext otherCpu,.resume otherCpu,.forkAlloc bootCpu,
    .forkStack bootCpu true]

def twoRunning : List Act := bootAndDispatch.map .proc

def giveUp : List Act := twoRunning++[.proc (.forkAbort bootCpu)]

theorem recycled_slots_given_up : ∃ x₀ h x, Start x₀ ∧ Run x₀ h x ∧ h.map Prod.fst = giveUp ∧
    freeList x.sys.tab.lists ≠ [] ∧ ∀ q ∈ freeList x.sys.tab.lists, Clean x q := by
  obtain ⟨x₀,h,x,h0,hr,hm,hacts,hne⟩ := fullRun_reaches Spares giveUp
    (fun x => freeList x.sys.tab.lists ≠ []) (by decide +kernel)
  exact ⟨x₀,h,x,h0,hr,hacts,hne, (recycled_slots h0 hr).1.mpr hm h x (List.prefix_refl h) hr⟩

/-- The child with pid 2 kills the second child, which has pid 3, before
`copyuvm` fails. -/
def killEmbryo : List Act :=
  twoRunning++[.proc (.kill otherCpu 3),.proc (.forkAbort bootCpu)]

theorem killed_slot_recycled : ∃ x₀ h x q, Start x₀ ∧ Run x₀ h x ∧
    h.map Prod.fst = killEmbryo ∧ q ∈ freeList x.sys.tab.lists ∧ x.sys.tab.killed q = true := by
  obtain ⟨x₀,h,x,h0,hr,-,hacts,hx⟩ := fullRun_reaches (fun _ _ => True) killEmbryo
    (fun x => (freeList x.sys.tab.lists).any x.sys.tab.killed = true) (by decide +kernel)
  obtain ⟨q,hq,hk⟩ := List.any_eq_true.mp hx
  exact ⟨x₀,h,x,q,h0,hr,hacts,hq,hk⟩

end Boot

end Yeet.SlotFiles
