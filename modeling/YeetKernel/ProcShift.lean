import YeetKernel.Family
import YeetKernel.ProcEffect
import YeetKernel.ProcInvariant

/-!
# What an action does to the table and its lists

Every critical section has a specification over the lists that the table
represents. Here the specifications take the place of the sections: an action
is one of nine kinds of steps from a table with its lists to the next one.
-/

namespace Yeet.ProcShift
open Kernel StateLists ProcTable ProcSpec ProcExit ProcSwitch ProcPrio ProcStep ProcControl
open ProcEffect Family Function

/-- Ready lists grow at the tail, are promoted as a whole or lose the
dispatched process. -/
def Queues (L M : ListId → List Slot) (e : Event) : Prop :=
  Grows L M ∨ M = promoted L ∨
    ∃ p j, e = .dispatched p j ∧ ∀ i, M (.ready i) = (L (.ready i)).erase p

def Keeps (t u : Table) : Prop :=
  u.parent = t.parent ∧ u.pid = t.pid ∧ u.nextpid = t.nextpid ∧ u.initproc = t.initproc ∧
    u.kstack = t.kstack

def Uneventful (e : Event) : Prop :=
  (∀ K, record K e = K) ∧ (∀ p q n, e ≠ .forked p q n) ∧ ∀ p, e ≠ .exited p

/-- The table, the CPUs, the lists and the event of a step from `s` with the lists `L`. -/
inductive Shift (s : State) (L : ListId → List Slot) (a : Action) :
    Table → (Cpu → CpuCtl) → (ListId → List Slot) → Event → Prop where
  | switch {u : Table} {k : Cpu → CpuCtl} {M : ListId → List Slot} {e : Event}
      (event : Uneventful e) (keeps : Keeps s.tab u)
      (killed : u.killed = s.tab.killed ∨ ∃ q, q ∉ L .free ∧ u.killed = update s.tab.killed q true)
      (free : M .free = L .free) (queue : Queues L M e)
      (state : ∀ q, u.state q = s.tab.state q ∨ Live (s.tab.state q) ∧ Live (u.state q))
      (asleep : ∀ q, u.state q = .sleeping →
        s.tab.state q = .sleeping ∧ u.chan q = s.tab.chan q ∨ (∃ n, u.chan q = some (.addr n)) ∨
        u.chan q = some (.proc q) ∧ ∀ z, s.tab.state z = .zombie → s.tab.parent z ≠ some q)
      (boot : bootEmbryo (k bootCpu) = bootEmbryo (s.cpu bootCpu)) : Shift s L a u k M e
  | alloc {q : Slot} {r : List Slot} {ls : Lists} {i : Option Slot} {k : Cpu → CpuCtl}
      (hf : L .free = q::r) (hq : s.tab.state q = .unused)
      (act : a = .userinitAlloc ∨ ∃ c, a = .forkAlloc c)
      (init : i = s.tab.initproc ∧ k = s.cpu ∨
        (∀ r, s.tab.state r = .unused) ∧ i = some q ∧ k bootCpu = .booting (.stack q)) :
      Shift s L a { s.tab with
        lists := ls
        state := update s.tab.state q .embryo
        pid := update s.tab.pid q s.tab.nextpid
        nextpid := s.tab.nextpid+1
        initproc := i } k (moveFront L q .free .embryo) .silent
  | stack {q : Slot} {k : Cpu → CpuCtl} (hq : s.tab.state q = .embryo)
      (boot : bootEmbryo (k bootCpu) = bootEmbryo (s.cpu bootCpu)) :
      Shift s L a (allocprocStack q s.tab) k L .silent
  | noStack {p q : Slot} (hd : forkEmbryo (s.doing p) = some q) :
      Shift s L a (allocprocNoStack q s.tab) s.cpu L .silent
  | abort {c : Cpu} {p q : Slot} {i : ℕ} {ls : Lists} (ha : a = .forkAbort c)
      (hc : s.cpu c = .running p i) (hd : s.doing p = .forkCopy q) :
      Shift s L a { s.tab with
        lists := ls
        kstack := update s.tab.kstack q false
        state := update s.tab.state q .unused } s.cpu (moveFront L q .embryo .free) .silent
  | first {q : Slot} {ls : Lists} (hc : s.cpu bootCpu = .booting (.ready q)) :
      Shift s L a { userinitFill q s.tab with
        lists := ls
        state := update s.tab.state q .runnable } (update s.cpu bootCpu .idle)
        (move L q .embryo (readyOf (s.tab.priority q))) .silent
  | born {p q : Slot} {ls : Lists} (hp : s.tab.state p = .running) (hd : s.doing p = .forkCopy q) :
      Shift s L a { forkFill p q s.tab with
        lists := ls
        state := update s.tab.state q .runnable } s.cpu (move L q .embryo (readyOf 0))
        (.forked p q (s.tab.pid q))
  | dies {p : Slot} {u : Table} {k : Cpu → CpuCtl} {M : ListId → List Slot}
      (hp : s.tab.state p = .running) (hi : s.tab.initproc ≠ some p) (hx : Exited p s.tab u L)
      (free : M .free = L .free) (grows : Grows L M)
      (boot : bootEmbryo (k bootCpu) = bootEmbryo (s.cpu bootCpu)) :
      Shift s L a u k M (.exited p)
  | reaped {p q : Slot} {ls : Lists} {x : Slot → Option Chan} {k : Cpu → CpuCtl}
      (hq : s.tab.state q = .zombie)
      (hx : ∀ r, s.tab.state r = .sleeping → x r = s.tab.chan r)
      (boot : bootEmbryo (k bootCpu) = bootEmbryo (s.cpu bootCpu)) :
      Shift s L a { s.tab with
        lists := ls
        chan := x
        kstack := update s.tab.kstack q false
        state := update s.tab.state q .unused
        pid := update s.tab.pid q 0
        parent := update s.tab.parent q none
        killed := update s.tab.killed q false } k (move L q .zombie .free)
        (.waited p (.reaped q (s.tab.pid q)))

theorem uneventful_silent : Uneventful .silent := ⟨fun _ => rfl,by simp⟩

theorem bootEmbryo_update {s : State} {c : Cpu} {k : CpuCtl} (hc : booting (s.cpu c) = false)
    (hk : bootEmbryo k = none) :
    bootEmbryo (update s.cpu c k bootCpu) = bootEmbryo (s.cpu bootCpu) := by
  by_cases e : bootCpu = c
  · subst e
    rw [update_self, hk]
    cases hb : s.cpu bootCpu with
    | booting b => simp [hb, booting] at hc
    | _ => rfl
  · rw [update_of_ne e]

section Effects

variable {s s' : State} {p q : Slot} {a : Action} {e : Event} {c : Cpu} {i : ℕ} {t u : Table}
variable {L M : ListId → List Slot} {k : Cpu → CpuCtl}

theorem allocproc_listed (hL : Listed True none t L) (op : allocproc t = .ok (some q,u)) :
    ∃ r ls, L .free = q::r ∧ t.state q = .unused ∧ u = { t with
      lists := ls
      state := update t.state q .embryo
      pid := update t.pid q t.nextpid
      nextpid := t.nextpid+1 } ∧ Listed True none u (moveFront L q .free .embryo) := by
  cases hf : L .free with
  | nil =>
    rw [allocproc_empty hL hf] at op
    cases op
  | cons p r =>
    obtain ⟨ls,ha,hM⟩ := allocproc_spec hL hf
    obtain ⟨hq,rfl⟩ := ok_pair_inj (ha.symm.trans op)
    obtain rfl := Option.some.inj hq
    exact ⟨r,ls,rfl,hL.fits .free p (by simp [hf]),rfl,hM.congr rfl rfl rfl⟩

theorem allocproc_none (hL : Listed True none t L) (op : allocproc t = .ok (none,u)) : u = t := by
  cases hf : L .free with
  | nil =>
    rw [allocproc_empty hL hf] at op
    exact (ok_pair_inj op).2.symm
  | cons p r =>
    obtain ⟨ls,ha,-⟩ := allocproc_spec hL hf
    rw [ha] at op
    cases op

theorem Shift.rouse (event : Uneventful e) (keeps : Keeps s.tab u)
    (hk : u.killed = s.tab.killed ∨ ∃ q, q ∉ L .free ∧ u.killed = update s.tab.killed q true)
    (hst : ∀ q, u.state q = s.tab.state q ∨ s.tab.state q = .sleeping ∧ u.state q = .runnable)
    (hch : ∀ q, s.tab.state q = .sleeping → u.chan q = s.tab.chan q) (free : M .free = L .free)
    (queue : Queues L M e) (boot : bootEmbryo (k bootCpu) = bootEmbryo (s.cpu bootCpu)) :
    Shift s L a u k M e := by
  refine .switch event keeps hk free queue (fun q => ?_) (fun q hq => ?_) boot
  · rcases hst q with e | ⟨h1,h2⟩
    · exact Or.inl e
    · exact Or.inr ⟨Or.inl h1,Or.inr (Or.inl h2)⟩
  rcases hst q with e | ⟨-,h2⟩
  · exact Or.inl ⟨e ▸ hq,hch q (e ▸ hq)⟩
  · rw [hq] at h2
    cases h2

theorem Shift.still (event : Uneventful e) (keeps : Keeps s.tab u)
    (hk : u.killed = s.tab.killed) (hst : u.state = s.tab.state)
    (hch : ∀ q, s.tab.state q = .sleeping → u.chan q = s.tab.chan q) (free : M .free = L .free)
    (queue : Queues L M e) (boot : bootEmbryo (k bootCpu) = bootEmbryo (s.cpu bootCpu)) :
    Shift s L a u k M e :=
  .rouse event keeps (Or.inl hk) (fun q => Or.inl (by rw [hst])) hch free queue boot

theorem Shift.same (keeps : Keeps s.tab u) (hk : u.killed = s.tab.killed)
    (hst : u.state = s.tab.state) (hch : u.chan = s.tab.chan)
    (boot : bootEmbryo (k bootCpu) = bootEmbryo (s.cpu bootCpu)) : Shift s L a u k L .silent :=
  .still uneventful_silent keeps hk hst (fun q _ => by rw [hch]) rfl (Or.inl (.refl L)) boot

theorem Shift.moves {g : ProcState} (event : Uneventful e) (hp : Live (s.tab.state p))
    (hg : Live g) (keeps : Keeps s.tab u) (hk : u.killed = s.tab.killed)
    (hst : u.state = update s.tab.state p g)
    (hch : ∀ q, q ≠ p → s.tab.state q = .sleeping → u.chan q = s.tab.chan q)
    (hsl : g = .sleeping → (∃ n, u.chan p = some (.addr n)) ∨
      u.chan p = some (.proc p) ∧ ∀ z, s.tab.state z = .zombie → s.tab.parent z ≠ some p)
    (free : M .free = L .free) (queue : Queues L M e)
    (boot : bootEmbryo (k bootCpu) = bootEmbryo (s.cpu bootCpu)) : Shift s L a u k M e := by
  refine .switch event keeps (Or.inl hk) free queue (fun q => ?_) (fun q hq => ?_) boot
  · by_cases e : q = p
    · exact Or.inr ⟨by rwa [e],by rwa [e, hst, update_self]⟩
    · exact Or.inl (by rw [hst, update_of_ne e])
  by_cases e : q = p
  · subst e
    rw [hst, update_self] at hq
    exact Or.inr (hsl hq)
  · rw [hst, update_of_ne e] at hq
    exact Or.inl ⟨hq,hch q e hq⟩

theorem wait_shift (hL : Listed True none s.tab L) (hp : s.tab.state p = .running)
    (hb : booting (s.cpu c) = false) {r : WaitResult} {x : Slot → Option Chan}
    (hx : ∀ q, q ≠ p → x q = s.tab.chan q) (op : waitPass p { s.tab with chan := x } = .ok (r,u)) :
    ∃ M, Listed True none u M ∧ Shift s L a u (afterWait s c p i u r).cpu M (.waited p r) := by
  have hL' : Listed True none { s.tab with chan := x } L := hL.congr rfl rfl rfl
  obtain ⟨r',u',M,hw,hM,hr⟩ := waitPass_spec hL' hp
  obtain ⟨rfl,rfl⟩ := ok_pair_inj (hw.symm.trans op)
  have hsleep : ∀ q, s.tab.state q = .sleeping → x q = s.tab.chan q := by
    intro q hq
    refine hx q ?_
    rintro rfl
    rw [hp] at hq
    cases hq
  refine ⟨M,hM,?_⟩
  cases hr with
  | reaped q ls hz hq => exact .reaped hz hsleep (bootEmbryo_update hb rfl)
  | failed hq =>
    exact .still ⟨fun _ => rfl,by simp⟩ ⟨rfl,rfl,rfl,rfl,rfl⟩ rfl rfl hsleep rfl
      (Or.inl (.refl L)) (bootEmbryo_update hb rfl)
  | slept ls hq =>
    exact .moves (p := p) (g := .sleeping) ⟨fun _ => rfl,by simp⟩ (by simp [Live, hp])
      (by simp [Live]) (by simp [Keeps, accounted]) (by simp [accounted]) (by simp [accounted])
      (fun q e _ => by simp [accounted, e, hx q e]) (fun _ => Or.inr ⟨by simp [accounted],hq⟩)
      (by simp [move]) (Or.inl (move_grows L p (by simp))) (bootEmbryo_update hb rfl)

theorem effect_shift (hc : Consistent True s) (hL : Listed True none s.tab L)
    (he : Effect s a s' e) : ∃ M, Listed True none s'.tab M ∧ Shift s L a s'.tab s'.cpu M e := by
  have hgrow : ∀ e, Queues L L e := fun _ => Or.inl (.refl L)
  cases he with
  | userinitAlloc p t hcpu hl op =>
    obtain ⟨r,ls,hf,hp,rfl,hM⟩ := allocproc_listed hL op
    exact ⟨_,hM.congr rfl rfl rfl,.alloc hf hp (Or.inl rfl)
      (Or.inr ⟨hc.bootFree hcpu,rfl,update_self bootCpu _ s.cpu⟩)⟩
  | userinitStack p hcpu =>
    have hp := (hc.bootSlot p (by rw [hcpu]; rfl)).1
    exact ⟨L,allocprocStack_listed hL hp,.stack hp (by simp [hcpu, bootEmbryo])⟩
  | userinitReady p t hcpu hl op =>
    obtain ⟨ls,hu,hM⟩ := userinitReady_spec hL (hc.bootSlot p (by rw [hcpu]; rfl)).1
    obtain rfl := Except.ok.inj (hu.symm.trans op)
    exact ⟨_,hM,.first hcpu⟩
  | tick => exact ⟨L,hL.congr rfl rfl rfl,.same ⟨rfl,rfl,rfl,rfl,rfl⟩ rfl rfl rfl rfl⟩
  | wakeup c n t hl op =>
    obtain ⟨u,M,hu,hM,hr,hst,hpar,-,hg⟩ := wakeup1_rouse hL (some (.addr n))
    obtain rfl := Except.ok.inj (hu.symm.trans op)
    have hs := hr.same
    rw [hpar] at hs
    exact ⟨M,hM,.rouse uneventful_silent (by rw [hs]; exact ⟨rfl,rfl,rfl,rfl,rfl⟩)
      (Or.inl (by rw [hs])) hr.state (fun q _ => by rw [hs]) hst.1 (Or.inl hg) rfl⟩
  | schedBegin c t hcpu hl op =>
    obtain ⟨u,M,hu,hM,hfree,hs,hg⟩ := promoteAll_spec hL
    obtain rfl := Except.ok.inj (hu.symm.trans op)
    refine ⟨M,hM,.still uneventful_silent (by rw [hs]; exact ⟨rfl,rfl,rfl,rfl,rfl⟩) (by rw [hs])
      (by rw [hs]) (fun q _ => by rw [hs]) hfree ?_ (bootEmbryo_update (by rw [hcpu]; rfl) rfl)⟩
    rcases hg with rfl | hg
    · exact hgrow _
    · exact Or.inr (Or.inl hg)
  | schedIdle c j hcpu hn | resume c p j hcpu =>
    exact ⟨L,hL,.same ⟨rfl,rfl,rfl,rfl,rfl⟩ rfl rfl rfl (bootEmbryo_update (by rw [hcpu]; rfl) rfl)⟩
  | dispatch c j l p t hcpu hn hh op =>
    have hs : s.tab.state p = .runnable := (hL.fits _ p (hL.mem_head hh)).1
    obtain ⟨ls,hd,hM⟩ := dispatch_spec hL hs
    obtain rfl := Except.ok.inj (hd.symm.trans op)
    refine ⟨_,hM.congr rfl rfl rfl,.moves (p := p) (g := .running) ⟨fun _ => rfl,by simp⟩
      (by simp [Live, hs]) (by simp [Live]) ⟨rfl,rfl,rfl,rfl,rfl⟩ rfl rfl (fun _ _ _ => rfl)
      (by simp) (by simp [moveFront, readyOf]) (Or.inr (Or.inr ⟨p,l,rfl,fun i => ?_⟩))
      (bootEmbryo_update (by rw [hcpu]; rfl) rfl)⟩
    by_cases hi : ListId.ready i = readyOf (s.tab.priority p)
    · rw [hi, moveFront, update_of_ne (by simp [readyOf]), update_self]
    · have hx : p ∉ L (.ready i) := fun hm => hi (hL.unique hm (hL.mem_ready hs))
      simp [moveFront, hi, List.erase_of_not_mem hx]
  | resumeSleep c p j hcpu =>
    have hp := hc.onCpu c p (by rw [hcpu]; rfl)
    refine ⟨L,hL.congr rfl rfl rfl,.still uneventful_silent ⟨rfl,rfl,rfl,rfl,rfl⟩ rfl rfl
      (fun q hq => update_of_ne ?_ _ _) rfl (hgrow _) (bootEmbryo_update (by rw [hcpu]; rfl) rfl)⟩
    rintro rfl
    rw [hq] at hp
    cases hp
  | resumeWait c p j r t hcpu op =>
    rw [afterWait_tab]
    exact wait_shift hL (hc.onCpu c p (by rw [hcpu]; rfl)) (by rw [hcpu]; rfl)
      (fun q hq => update_of_ne hq _ _) op
  | forkFull c p j t hcpu hl op =>
    obtain rfl := allocproc_none hL op
    exact ⟨L,hL,.same ⟨rfl,rfl,rfl,rfl,rfl⟩ rfl rfl rfl rfl⟩
  | forkAlloc c p np j t hcpu hl op =>
    obtain ⟨r,ls,hf,hnp,rfl,hM⟩ := allocproc_listed hL op
    exact ⟨_,hM,.alloc hf hnp (Or.inr ⟨c,rfl⟩) (Or.inl ⟨rfl,rfl⟩)⟩
  | forkStack c p np j hcpu hd =>
    exact ⟨L,allocprocStack_listed hL (hc.stacking hd),.stack (hc.stacking hd) rfl⟩
  | forkNoStack c p np j hcpu hd =>
    exact ⟨L,allocprocNoStack_listed hL (hc.stacking hd) trivial,.noStack (p := p) (by rw [hd]; rfl)⟩
  | forkAbort c p np j t hcpu hl hd op =>
    obtain ⟨ls,ha,hM⟩ := forkAbort_spec hL (hc.copying hd)
    obtain rfl := Except.ok.inj (ha.symm.trans op)
    exact ⟨_,hM.congr rfl rfl rfl,.abort rfl hcpu hd⟩
  | forkDone c p np j t hcpu hl hd op =>
    obtain ⟨ls,ha,hM⟩ := forkDone_spec (p := p) hL (hc.copying hd)
    obtain rfl := Except.ok.inj (ha.symm.trans op)
    exact ⟨_,hM,.born (hc.running hcpu) hd⟩
  | exit c p j t hcpu hl op =>
    have hne := exit_ne_initproc op
    obtain ⟨u,M,hu,hM,hfree,hx,hg⟩ := exit_spec hL (hc.running hcpu) hne
    obtain rfl := Except.ok.inj (hu.symm.trans op)
    exact ⟨M,hM,.dies (hc.running hcpu) hne hx hfree hg (bootEmbryo_update (by rw [hcpu]; rfl) rfl)⟩
  | wait c p j r t hcpu hl op =>
    rw [afterWait_tab]
    exact wait_shift hL (hc.running hcpu) (by rw [hcpu]; rfl) (fun _ _ => rfl) op
  | kill c pid p j r t hcpu hl op =>
    obtain ⟨r',u,M,hu,hM,hs,hst,hfree,hkill,hg⟩ := kill_spec hL pid
    obtain ⟨rfl,rfl⟩ := ok_pair_inj (hu.symm.trans op)
    exact ⟨M,hM,.rouse uneventful_silent (by rw [hs]; exact ⟨rfl,rfl,rfl,rfl,rfl⟩) hkill hst
      (fun q _ => by rw [hs]) hfree (Or.inl hg) rfl⟩
  | sleep c n p j t hcpu hl op =>
    obtain ⟨ls,hu,hM⟩ := sleep_spec hL (hc.running hcpu) (.addr n)
    obtain rfl := Except.ok.inj (hu.symm.trans op)
    exact ⟨_,hM,.moves (p := p) (g := .sleeping) uneventful_silent
      (by simp [Live, hc.running hcpu]) (by simp [Live]) (by simp [Keeps, toScheduler, accounted])
      (by simp [toScheduler, accounted]) (by simp [toScheduler, accounted])
      (fun q e _ => by simp [toScheduler, accounted, e])
      (fun _ => Or.inl ⟨n,by simp [toScheduler, accounted]⟩) (by simp [move])
      (Or.inl (move_grows L p (by simp))) (bootEmbryo_update (by rw [hcpu]; rfl) rfl)⟩
  | yield c p j t hcpu hl op =>
    obtain ⟨ls,hu,hM⟩ := yield_spec hL (hc.running hcpu)
    obtain rfl := Except.ok.inj (hu.symm.trans op)
    exact ⟨_,hM,.moves (p := p) (g := .runnable) uneventful_silent
      (by simp [Live, hc.running hcpu]) (by simp [Live])
      (by simp [Keeps, toScheduler, accounted, Table.setState])
      (by simp [toScheduler, accounted, Table.setState])
      (by simp [toScheduler, accounted, Table.setState])
      (fun q _ _ => by simp [toScheduler, accounted, Table.setState]) (by simp)
      (by simp [move, readyOf]) (Or.inl (move_grows L p (by simp)))
      (bootEmbryo_update (by rw [hcpu]; rfl) rfl)⟩
  | setPriority c pid pr p j r b t hcpu op =>
    obtain ⟨r',b',u,hu,hM,hs⟩ := setPriority_spec hL pid pr
    obtain ⟨rfl,hx⟩ := ok_pair_inj (hu.symm.trans op)
    obtain ⟨rfl,rfl⟩ := Prod.mk.inj hx
    exact ⟨L,hM,.same (by rw [hs]; exact ⟨rfl,rfl,rfl,rfl,rfl⟩) (by rw [hs]) (by rw [hs])
      (by rw [hs]) rfl⟩

end Effects

end Yeet.ProcShift
