import YeetKernel.RefCount

/-!
# Reference counts are exact

With `fork` and `wait` all calls follow the discipline. In a state of a run
where every process is outside its calls, or waits for a child, all hands are
empty and the counts are the numbers of pointers.
-/

namespace Yeet.RefHand
open Kernel FsDisk Fs Resumption Threads Tally Function

variable {c : Call} {p np : Procno} {r : Hand} {s : State} {ρ : Procno → Hand}

theorem live_setStatus {t : Status} (hn : (s.proc np).status ≠ .live) (q : Procno)
    (hq : (s.proc q).status = .live) : ((s.setStatus np t).proc q).status = .live := by
  have hne : q ≠ np := fun e => hn (e ▸ hq)
  simpa only [State.setStatus, State.setProc, update_of_ne hne] using hq

section Fork

variable (hc : Busy c)

include hc

theorem abandon_sound (hk : r.kid = some (np,0)) :
    discipline.Sound c p (assign (fun s => s.setStatus np .unused) : FsProg Unit) r
      (fun _ r' => r' = r.setKid none) := by
  apply sound_atom
  intro s ρ b s' hi hl hr hf
  cases hf
  subst hr
  have h1 := (hi.procs.kid p np 0 hk).1
  exact ⟨live_setStatus (by simp [h1]),_,hi.abandon hl hk,hc.during _,rfl⟩

theorem allocproc_sound (hr : r.kid = none) :
    discipline.Sound c p allocproc r (fun o r' => r' = r.setKid (o.map (fun np => (np,0)))) := by
  have hself : r = r.setKid none := by
    rw [Hand.setKid, ← hr]
  apply quiet_seq hc does_choose
  intro k
  apply sound_seq (Q := fun o r' => r' = r.setKid (o.map (fun np => (np,0))))
  · apply sound_atom
    intro s ρ o s' hi hl hρ hf
    subst hρ
    replace hf : s.allocproc k = (o,s') := Except.ok.inj (Option.some.inj hf)
    have hsame : Inv s (update ρ p ((ρ p).setKid none)) := by
      rw [← hself, update_eq_self]
      exact hi
    unfold State.allocproc at hf
    split at hf
    · split at hf
      · rename_i hu
        cases hf
        exact ⟨live_setStatus (by simp [hu]),_,hi.allocproc hl hu,hc.during _,rfl⟩
      · cases hf
        exact ⟨fun _ h => h,_,hsame,hc.during _,rfl⟩
    · cases hf
      exact ⟨fun _ h => h,_,hsame,hc.during _,rfl⟩
  · rintro o r' rfl
    cases o with
    | none => exact sound_pure rfl
    | some np =>
      apply quiet_seq hc does_choose
      intro kstack
      split
      · refine sound_then (abandon_sound hc rfl) (fun _ => ?_)
        exact sound_pure rfl
      · exact sound_pure rfl

theorem dupSlot_sound {k : ℕ} {fd : Fd} {f : Fileno} (hk : r.kid = some (np,k)) (hfd : fd.val = k)
    (hf : 1 ≤ r.hold f) (hfresh : r.fresh f = false) :
    discipline.Sound c p (perform (fun s => s.dupSlot np fd f)) r
      (fun _ r' => r' = r.setKid (some (np,k+1))) := by
  apply sound_act
  intro s ρ b s' hi hl hr h
  subst hr
  replace h : s.dupSlot np fd f = .ok (b,s') := Option.some.inj h
  obtain ⟨s₁,h1,h2⟩ := bind_eq_ok.mp h
  cases h2
  unfold State.filedup at h1
  split at h1
  · cases h1
  cases h1
  have hemb := (hi.procs.kid p np k hk).1
  have hpn := hi.kid_ne hl hk
  have hidle := hi.procs.idle np (by simp [hemb])
  have hst : ∀ q, (((s.setFile f {s.file f with ref := (s.file f).ref+1}).setSlot np fd
      (some f)).proc q).status = (s.proc q).status := by
    intro q
    simp only [State.setSlot, State.setProc, State.setFile, update_apply]
    split
    · rename_i e
      rw [e]
    · rfl
  refine ⟨_,hi.dupSlot hl hk hfd hf hfresh,(hst p).trans hl,
    keeps_give (fun q hq => (hst q).trans hq) ?_ ?_,hc.during _,update_self _ _ _⟩
  · show (s.proc np).status ≠ .live
    simp [hemb]
  · exact ⟨hidle.itok,hidle.ftok,hidle.fresh,hidle.kid⟩

theorem copyFiles_sound (l : List Fd) (k : ℕ) (hl : l = (List.finRange NOFILE).drop k)
    (hkn : k ≤ NOFILE) (hk : r.kid = some (np,k)) (hr : (r.setKid none).AtRest) :
    discipline.Sound c p (copyFiles p np l) r (fun _ r' => r' = r.setKid (some (np,NOFILE))) := by
  induction l generalizing r k with
  | nil =>
    have hlen := congrArg List.length hl
    simp only [List.length_nil, List.length_drop, List.length_finRange] at hlen
    have : k = NOFILE := by omega
    subst this
    apply sound_pure
    rw [Hand.setKid, ← hk]
  | cons fd l ih =>
    have hlt : k < NOFILE := by
      by_contra h
      rw [List.drop_eq_nil_of_le (by simpa using Nat.not_lt.mp h)] at hl
      cases hl
    rw [List.drop_eq_getElem_cons (by simpa using hlt)] at hl
    obtain ⟨hfd,hl'⟩ := List.cons.inj hl
    have hval : fd.val = k := by
      rw [hfd, List.getElem_finRange]
      rfl
    refine sound_seq (Q := fun o r' => (o = none → r' = r.setKid (some (np,k+1))) ∧
      ∀ f, o = some f → r' = r ∧ r.ofile fd = some f) ?_ ?_
    · apply sound_atom
      intro s ρ o s' hi hlive hρ hf
      cases hf
      subst hρ
      dsimp only
      cases ho : (s.proc p).ofile fd with
      | none =>
        exact ⟨fun _ h => h,_,hi.advance hlive hk (Nat.le_succ k) hlt,hc.during _,
          fun _ => rfl,fun f e => by cases e⟩
      | some f =>
        refine ⟨fun _ h => h,ρ p,?_,hc.during _,fun e => (by cases e),fun g e => ⟨rfl,?_⟩⟩
        · rw [update_eq_self]
          exact hi
        · rw [← hi.procs.ofile, ho, e]
    · intro o r₁ h
      cases o with
      | none =>
        obtain rfl := h.1 rfl
        exact ih (k+1) hl' hlt rfl hr
      | some f =>
        obtain ⟨rfl,ho⟩ := h.2 f rfl
        have hf := r₁.one_le_hold ho (hr.ftok f).ge
        refine sound_then (dupSlot_sound hc hk hval hf (hr.fresh f)) (fun _ => ?_)
        exact ih (k+1) hl' hlt rfl hr

theorem dupCwd_sound {i : Ino} (hk : r.kid = some (np,NOFILE)) :
    discipline.Sound c p (assign (fun s => s.dupCwd np i) : FsProg Unit) r
      (fun _ r' => r' = r.setKid (some (np,NOFILE+1))) := by
  apply sound_act
  intro s ρ b s' hi hl hr h
  cases h
  subst hr
  have hemb := (hi.procs.kid p np NOFILE hk).1
  have hidle := hi.procs.idle np (by simp [hemb])
  have hst : ∀ q, ((s.dupCwd np i).proc q).status = (s.proc q).status := by
    intro q
    simp only [State.dupCwd, State.setProc, State.setRef, update_apply]
    split
    · rename_i e
      rw [e]
    · rfl
  refine ⟨_,hi.dupCwd hl hk (Nat.le_refl _),(hst p).trans hl,
    keeps_give (fun q hq => (hst q).trans hq) ?_ ?_,hc.during _,update_self _ _ _⟩
  · show (s.proc np).status ≠ .live
    simp [hemb]
  · exact ⟨hidle.itok,hidle.ftok,hidle.fresh,hidle.kid⟩

theorem fork_sound (hr : r.AtRest) : discipline.Sound c p (fork p) r (fun _ r' => r' = r) := by
  have hself : ∀ k, (r.setKid k).setKid none = r := by
    intro k
    simp only [Hand.setKid, ← hr.kid]
  refine sound_then (allocproc_sound hc hr.kid) (fun o => ?_)
  cases o with
  | none => exact sound_pure (hself none)
  | some np =>
    apply quiet_seq hc does_choose
    intro pgdir
    split
    · refine sound_then (abandon_sound hc rfl) (fun _ => ?_)
      exact sound_pure (hself _)
    refine quiet_seq hc (does_assign (fun s => ?_)) (fun _ => ?_)
    · exact Quiet.setProc rfl rfl rfl
    refine sound_then (copyFiles_sound hc _ 0 rfl (Nat.zero_le _) rfl (by rwa [hself])) (fun _ => ?_)
    apply quiet_seq hc does_look
    intro cwd
    apply quiet_seq hc (does_deref cwd)
    intro i
    refine sound_then (dupCwd_sound hc rfl) (fun _ => ?_)
    refine quiet_seq hc (does_assign (fun s => ?_)) (fun _ => ?_)
    · exact Quiet.setProc rfl rfl rfl
    refine sound_seq (Q := fun _ r' => r' = r) ?_ (fun _ r' h => sound_pure h)
    apply sound_atom
    intro s ρ b s' hi hl hρ h
    cases h
    have hk : (ρ p).kid = some (np,NOFILE+1) := by rw [hρ]; rfl
    have hemb := (hi.procs.kid p np _ hk).1
    refine ⟨live_setStatus (by simp [hemb]),_,hi.release hl hk,hc.during _,?_⟩
    rw [hρ]
    exact hself _

end Fork

theorem wait_sound (hr : r.AtRest) : discipline.Sound c p (wait p) r (fun _ r' => r' = r) := by
  refine choose_seq (fun k => choose_seq (fun killed => ?_))
  apply sound_atom
  intro s ρ b s' hi hl hρ h
  have hsame : ∀ t, Inv t ρ → Inv t (update ρ p r) := by
    intro t ht
    rw [← hρ, update_eq_self]
    exact ht
  unfold State.wait at h
  dsimp only at h
  split at h
  · split at h
    · split at h
      · rename_i hk hz
        cases h
        have hproc : ∀ q, ((s.setProc ⟨k,hk⟩ {s.proc ⟨k,hk⟩ with
            status := .unused, parent := none}).proc q) = if q = ⟨k,hk⟩ then {s.proc ⟨k,hk⟩ with
              status := .unused, parent := none} else s.proc q := fun q => update_apply _ _ _ _
        refine ⟨fun q hq => ?_,r,hsame _ (hi.settle rfl rfl (fun q => ?_)),fun _ => hr,rfl⟩
        · show ((s.setProc _ _).proc q).status = .live
          rw [hproc, if_neg]
          · exact hq
          · rintro rfl
            exact absurd (hz.1.symm.trans hq) (by decide)
        rw [hproc]
        split
        · rename_i e
          refine ⟨by rw [e],by rw [e],Or.inr ?_⟩
          rw [e]
          exact ⟨hi.procs.idle _ (by simp [hz.1]),hi.procs.empty _ (Or.inr hz.1),by simp [hz.1]⟩
        · exact ⟨rfl,rfl,Or.inl rfl⟩
      · cases h
    · cases h
  · split at h
    · cases h
      exact ⟨fun _ h => h,r,hsame _ hi,fun _ => hr,rfl⟩
    · cases h

def Counted : Call → Prop
  | .chmod _ _ => False
  | .chown _ _ => False
  | .chgrp _ _ => False
  | _ => True

theorem code_sound (p : Procno) (c : Call) (hcount : Counted c) (hr : r.AtRest) :
    discipline.Sound c p (code p c) r (fun _ r' => discipline.final c r') := by
  have hsame : ∀ {x : FsProg ℤ}, c ≠ .exit → discipline.Sound c p x r (fun _ r' => r' = r) →
      discipline.Sound c p x r (fun _ r' => discipline.final c r') := by
    intro x hne h
    apply sound_mono h
    rintro _ r' rfl
    exact ⟨hr,fun e => absurd e hne⟩
  have hrest : ∀ {x : FsProg ℤ}, c ≠ .exit → discipline.Sound c p x r (fun _ r' => r'.AtRest) →
      discipline.Sound c p x r (fun _ r' => discipline.final c r') := by
    intro x hne h
    apply sound_mono h
    exact fun _ r' h' => ⟨h',fun e => absurd e hne⟩
  by_cases hw : c = .wait
  · subst hw
    exact hsame (by simp) (wait_sound hr)
  have hc : Busy c := hw
  have hset : ∀ f : Process → Process, (∀ x, (f x).status = x.status ∧ (f x).ofile = x.ofile ∧
      (f x).cwd = x.cwd) → ∀ n : ℤ, discipline.Sound c p (do
        assign (fun s => s.setProc p (f (s.proc p)))
        pure n : FsProg ℤ) r (fun _ r' => r' = r) := by
    intro f hf n
    refine quiet_seq hc (does_assign (fun s => ?_)) (fun _ => sound_pure rfl)
    obtain ⟨h1,h2,h3⟩ := hf (s.proc p)
    exact Quiet.setProc h1 h2 h3
  cases c with
  | fork => exact hsame (by simp) (fork_sound hc hr)
  | exit => exact sound_mono (exit_sound hc hr) (fun _ r' h => ⟨h.1,fun _ => h.2⟩)
  | wait => exact absurd rfl hw
  | exec path => exact hsame (by simp) (exec_sound hc path)
  | openPath path omode => exact hrest (by simp) (sysOpen_sound hc hr path omode)
  | close fd => exact hrest (by simp) (sysClose_sound hc hr fd)
  | dup fd => exact hrest (by simp) (sysDup_sound hc hr fd)
  | pipe => exact hrest (by simp) (sysPipe_sound hc hr)
  | read fd n => exact hrest (by simp) (sysRead_sound hc hr fd n)
  | write fd addr n => exact hrest (by simp) (sysWrite_sound hc hr fd addr n)
  | fstat fd => exact hrest (by simp) (sysFstat_sound hc hr fd)
  | link old new => exact hsame (by simp) (sysLink_sound hc old new)
  | unlink path => exact hsame (by simp) (sysUnlink_sound hc path)
  | mkdir path | mknod path major minor => exact hsame (by simp) (makeNode_sound hc path _ _ _)
  | chdir path => exact hrest (by simp) (sysChdir_sound hc hr path)
  | chmod path mode | chown path uid | chgrp path gid => exact hcount.elim
  | setuid n =>
    apply hsame (by simp)
    show discipline.Sound _ p (sysSetuid p n) r _
    unfold sysSetuid
    split
    · exact sound_pure rfl
    · exact hset (fun x => {x with uid := n}) (fun _ => ⟨rfl,rfl,rfl⟩) 0
  | setgid n =>
    apply hsame (by simp)
    show discipline.Sound _ p (sysSetgid p n) r _
    unfold sysSetgid
    split
    · exact sound_pure rfl
    · exact hset (fun x => {x with gid := n}) (fun _ => ⟨rfl,rfl,rfl⟩) 0
  | badArgument => exact hsame (by simp) (sound_pure rfl)

theorem Inv.zombie (hi : Inv s ρ)
    (hl : (s.proc p).status = .live) (hr : (ρ p).AtRest) (he : (ρ p).Empty) :
    Inv (s.zombie p) ρ ∧ ∀ q, q ≠ p → ((s.zombie p).proc q).status = (s.proc q).status := by
  have hproc : ∀ q, ((s.zombie p).proc q).ofile = (s.proc q).ofile ∧
      ((s.zombie p).proc q).cwd = (s.proc q).cwd ∧
      ((s.zombie p).proc q).status = if q = p then .zombie else (s.proc q).status := by
    intro q
    simp only [State.zombie, State.setStatus, State.setProc, update_apply]
    split
    · rename_i e
      subst e
      split <;> exact ⟨rfl,rfl,rfl⟩
    · split <;> exact ⟨rfl,rfl,rfl⟩
  refine ⟨hi.settle rfl rfl (fun q => ?_),fun q hq => ?_⟩
  · obtain ⟨h1,h2,h3⟩ := hproc q
    refine ⟨h1,h2,?_⟩
    rw [h3]
    split
    · rename_i e
      rw [e]
      exact Or.inr ⟨hr,he,by simp [hl]⟩
    · exact Or.inl rfl
  · rw [(hproc q).2.2, if_neg hq]

theorem machine_follows : Follows discipline machine Counted where
  enabled s p h := by
    show (s.proc p).status = .live
    simpa [machine] using h
  code p c r hcount hr := ⟨fun _ => hr,code_sound p c hcount hr⟩
  leave p c s ρ hi hl hf := by
    have hsame : ∃ ρ', Inv s ρ' ∧ (ρ' p).AtRest ∧ discipline.Keeps p s s ρ ρ' :=
      ⟨ρ,hi,hf.1,fun q _ => ⟨fun h => h,Or.inl rfl⟩⟩
    cases c with
    | exit =>
      obtain ⟨h1,h2⟩ := Inv.zombie hi hl hf.1 (hf.2 rfl)
      exact ⟨ρ,h1,hf.1,fun q hq => ⟨fun h => (h2 q hq).trans h,Or.inl rfl⟩⟩
    | _ => exact hsame

def Quiescent (x : Pool State Fault Procno Call ℤ) : Prop :=
  ∀ p, x.thread p = none ∨ ∃ k, x.thread p = some (.wait,k)

def descriptors (s : State) (f : Fileno) : ℕ :=
  (Finset.univ.filter (fun x : Procno × Fd => (s.proc x.1).ofile x.2 = some f)).card

def openFiles (s : State) (i : Ino) : ℕ :=
  (Finset.univ.filter (fun f => 0 < (s.file f).ref ∧ (s.file f).type = .inode ∧
    (s.file f).ip = some i)).card

def directories (s : State) (i : Ino) : ℕ :=
  (Finset.univ.filter (fun p => (s.proc p).cwd = some i)).card

theorem Inv.exact (hi : Inv s ρ) (hr : ∀ p, (ρ p).AtRest) :
    (∀ f, (s.file f).ref = descriptors s f) ∧ ∀ i, s.iref i = openFiles s i+directories s i := by
  constructor
  · intro f
    rw [hi.files.ref]
    have h1 : ∀ p, (ρ p).hold f = count (s.proc p).ofile f := by
      intro p
      rw [Hand.hold, (hr p).ftok, hi.procs.ofile]
      exact add_zero _
    simp only [h1, count, point, descriptors, Finset.card_filter, Fintype.sum_prod_type]
    push_cast
    rfl
  intro i
  rw [hi.inodes i]
  have h1 : ∀ p, (ρ p).ihold i = point (s.proc p).cwd i := by
    intro p
    rw [Hand.ihold, (hr p).itok, hi.procs.cwd]
    exact add_zero _
  have h2 : RefHand.files s i = openFiles s i := by
    rw [RefHand.files, count_card, openFiles]
    congr 2
    ext f
    simp only [Finset.mem_filter, Finset.mem_univ, true_and]
    unfold fileIp
    constructor
    · intro h
      split at h
      · rename_i ht
        refine ⟨?_,ht,h⟩
        by_contra h0
        have h3 : (s.file f).ref = 0 := by
          have := hi.files.ref f
          have h4 : 0 ≤ ∑ q, (ρ q).hold f :=
            Finset.sum_nonneg (fun q _ => hi.files.nonneg q f)
          omega
        rw [hi.files.closed f h3] at ht
        cases ht
      · cases h
    · rintro ⟨_,h3,h4⟩
      rw [h3]
      exact h4
  rw [h2]
  simp only [h1]
  rw [show ∑ p, point (s.proc p).cwd i = count (fun p => (s.proc p).cwd) i from rfl, count_card]
  rfl

def handOf (x : Process) : Hand := ⟨x.ofile,x.cwd,fun _ => 0,fun _ => 0,fun _ => false,none⟩

theorem boot_inv (d : Disk) : Inv (boot d) (fun p => handOf ((boot d).proc p)) := by
  have hfile : ∀ f, ((boot d).proc f).ofile = fun _ => none := by
    intro p
    simp only [boot, update_apply]
    split <;> rfl
  have hhold : ∀ p f, (handOf ((boot d).proc p)).hold f = 0 := by
    intro p f
    rw [Hand.hold, show (handOf ((boot d).proc p)).ofile = _ from hfile p, count_none]
    rfl
  refine ⟨fun i => ?_,⟨?_,?_,?_,?_⟩,⟨fun _ => rfl,fun _ => rfl,?_,?_,?_,?_⟩⟩
  · have h1 : RefHand.files (boot d) i = 0 := count_none i
    have h2 : ∀ p, (handOf ((boot d).proc p)).ihold i = point ((boot d).proc p).cwd i :=
      fun p => add_zero _
    have h3 := sum_update (fun _ : Procno => Process.free) (fun x => point x.cwd i) ⟨0,by decide⟩
      ⟨.live,some ⟨0,by decide⟩,fun _ => none,some ⟨0,by decide⟩,PROC_UID,PROC_GID⟩
    rw [h1]
    simp only [h2]
    refine Eq.trans ?_ (congrArg (fun n => 0+n) h3.symm)
    simp only [Process.free, point_none, Finset.sum_const_zero, point_some, boot, update_apply]
    split <;> rfl
  · intro f
    simp only [hhold, Finset.sum_const_zero]
    rfl
  · exact fun p f => (hhold p f).ge
  · exact fun _ _ => rfl
  · intro p f h
    cases h
  · exact fun p _ => ⟨fun _ => rfl,fun _ => rfl,fun _ => rfl,rfl⟩
  · intro p hs
    refine ⟨fun fd => ?_,?_⟩
    · rw [show (handOf ((boot d).proc p)).ofile = _ from hfile p]
    simp only [boot, handOf, update_apply] at hs ⊢
    split at hs
    · simp at hs
    · rename_i e
      rw [if_neg e]
      rfl
  · intro p q k h
    cases h
  · intro p p' q k k' h
    cases h

theorem reference_counts_exact (d : Disk)
    {h : List (Threads.Move Procno Call × Threads.Seen Procno Call ℤ)}
    {x : Pool State Fault Procno Call ℤ}
    (hr : Lts.Run (Threads.exec machine) (Pool.mk (boot d) (fun _ => none)) h x)
    (hall : ∀ p c, Threads.Move.call p c ∈ h.map Prod.fst → Counted c) (hq : Quiescent x) :
    (∀ f, (x.state.file f).ref = descriptors x.state f) ∧
      ∀ i, x.state.iref i = openFiles x.state i+directories x.state i := by
  obtain ⟨ρ,hi,hfit⟩ := run_fits machine_follows (boot_inv d)
    (fun _ => ⟨fun _ => rfl,fun _ => rfl,fun _ => rfl,rfl⟩) hr hall
  apply Inv.exact hi
  intro p
  have h1 := hfit p
  rcases hq p with h2 | ⟨k,h2⟩
  · rw [h2] at h1
    exact h1
  · rw [h2] at h1
    exact h1.2.1 rfl

def pipeAndFork : List (Threads.Move Procno Call) :=
  let p : Procno := ⟨0,nproc_pos⟩
  (.call p .pipe::List.replicate 7 (.step p 1))++(.call p .fork::List.replicate 28 (.step p 1))

theorem reference_counts_exact_forked : ∃ h x,
    Lts.Run (Threads.exec machine) (Pool.mk (boot (fun _ _ => 0)) (fun _ => none)) h x ∧
      h.map Prod.fst = pipeAndFork ∧ (x.state.file ⟨0,by decide⟩).ref = 2 ∧
      x.state.iref ⟨0,by decide⟩ = 2 ∧ Quiescent x ∧
      (∀ f, (x.state.file f).ref = descriptors x.state f) ∧
      ∀ i, x.state.iref i = openFiles x.state i+directories x.state i := by
  obtain ⟨h,x,hr,hacts,h1,h2,h3⟩ := Lts.replay_reaches (Threads.exec machine)
    (Pool.mk (boot (fun _ _ => 0)) (fun _ => none)) pipeAndFork
    (fun _ x => (x.state.file ⟨0,by decide⟩).ref = 2 ∧ x.state.iref ⟨0,by decide⟩ = 2 ∧
      ∀ p, (x.thread p).isNone)
    (by decide +kernel)
  have hq : Quiescent x := fun p => Or.inl (Option.isNone_iff_eq_none.mp (h3 p))
  refine ⟨h,x,hr,hacts,h1,h2,hq,reference_counts_exact _ hr (fun p c hm => ?_) hq⟩
  rw [hacts] at hm
  simp only [pipeAndFork, List.cons_append, List.mem_cons, List.mem_append, Threads.Move.call.injEq,
    List.mem_replicate, reduceCtorEq, and_false, false_or, or_false] at hm
  rcases hm with ⟨_,rfl⟩ | ⟨_,rfl⟩ <;> trivial

end Yeet.RefHand
