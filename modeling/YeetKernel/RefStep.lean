import YeetKernel.RefHand

/-!
# One action and one hand

What each kind of action does to the hand of its process so that the counts
stay exact.
-/

namespace Yeet.RefHand
open Fs Tally Function

structure Quiet (s s' : State) : Prop where
  iref : s'.iref = s.iref
  file : ∀ f, (s'.file f).ref = (s.file f).ref ∧ (s'.file f).type = (s.file f).type ∧
    (s'.file f).ip = (s.file f).ip
  proc : ∀ p, (s'.proc p).status = (s.proc p).status ∧ (s'.proc p).ofile = (s.proc p).ofile ∧
    (s'.proc p).cwd = (s.proc p).cwd

variable {s s' : State} {ρ : Procno → Hand} {p : Procno} {h' : Hand} {f : Fileno}

theorem Quiet.refl (s : State) : Quiet s s :=
  ⟨rfl,fun _ => ⟨rfl,rfl,rfl⟩,fun _ => ⟨rfl,rfl,rfl⟩⟩

theorem Quiet.files (hq : Quiet s s') (i : Ino) : files s' i = files s i := by
  have h1 : (fun f => fileIp (s'.file f)) = fun f => fileIp (s.file f) := by
    funext f
    obtain ⟨_,h2,h3⟩ := hq.file f
    simp only [fileIp, h2, h3]
  rw [RefHand.files, h1]
  rfl

theorem Inv.quiet (hi : Inv s ρ) (hq : Quiet s s') : Inv s' ρ := by
  obtain ⟨h1,h2,h3⟩ := hi
  refine ⟨fun i => ?_,⟨?_,h2.nonneg,?_,?_⟩,⟨?_,?_,?_,?_,?_,h3.single⟩⟩
  · rw [hq.iref, hq.files]
    exact h1 i
  · intro f
    rw [(hq.file f).1]
    exact h2.ref f
  · intro f hf
    rw [(hq.file f).1] at hf
    rw [(hq.file f).2.1]
    exact h2.closed f hf
  · intro q f hf
    rw [(hq.file f).2.1]
    exact h2.fresh q f hf
  · intro q
    rw [(hq.proc q).2.1]
    exact h3.ofile q
  · intro q
    rw [(hq.proc q).2.2]
    exact h3.cwd q
  · intro q hs
    rw [(hq.proc q).1] at hs
    exact h3.idle q hs
  · intro q hs
    rw [(hq.proc q).1] at hs
    exact h3.empty q hs
  · intro q r k hr
    rw [(hq.proc r).1]
    exact h3.kid q r k hr

theorem Inodes.setFile (hi : Inodes s ρ) (f : Fileno) (x : File)
    (e : ∀ i, point (fileIp x) i+h'.ihold i = point (fileIp (s.file f)) i+(ρ p).ihold i) :
    Inodes (s.setFile f x) (update ρ p h') := by
  refine hi.own (fun i => ?_)
  have h1 : files (s.setFile f x) i = files s i-point (fileIp (s.file f)) i+point (fileIp x) i :=
    sum_update s.file (fun x => point (fileIp x) i) f x
  have h2 := e i
  have h3 : (s.setFile f x).iref = s.iref := rfl
  rw [h1, h3]
  omega

theorem Files.setFile (hi : Files s ρ) (f : Fileno) (x : File)
    (hg : ∀ g, g ≠ f → h'.hold g = (ρ p).hold g ∧ h'.fresh g = (ρ p).fresh g)
    (href : x.ref-h'.hold f = (s.file f).ref-(ρ p).hold f) (hpos : 0 ≤ h'.hold f)
    (hclosed : x.ref = 0 → x.type = .none)
    (hown : h'.fresh f = true → x.type = .none ∧ 1 ≤ h'.hold f ∧ ∀ q, q ≠ p → (ρ q).hold f = 0)
    (hother : ∀ q, q ≠ p → (ρ q).fresh f = true → x.type = .none ∧ h'.hold f = 0) :
    Files (s.setFile f x) (update ρ p h') := by
  have hself : (s.setFile f x).file f = x := update_self _ _ _
  have hne : ∀ g, g ≠ f → (s.setFile f x).file g = s.file g := fun g e => update_of_ne e _ _
  apply hi.own
  · intro g
    by_cases e : g = f
    · subst e
      rw [hself]
      exact href
    · rw [hne g e, (hg g e).1]
  · intro g
    by_cases e : g = f
    · subst e
      exact hpos
    · rw [(hg g e).1]
      exact hi.nonneg p g
  · intro g h0
    by_cases e : g = f
    · subst e
      rw [hself] at h0 ⊢
      exact hclosed h0
    · rw [hne g e] at h0 ⊢
      exact hi.closed g h0
  · intro g h0
    by_cases e : g = f
    · subst e
      rw [hself]
      exact hown h0
    · rw [(hg g e).2] at h0
      rw [hne g e, (hg g e).1]
      exact hi.fresh p g h0
  intro q g hq h0
  by_cases e : g = f
  · subst e
    rw [hself]
    exact hother q hq h0
  · rw [hne g e, (hg g e).1]
    obtain ⟨h1,_,h2⟩ := hi.fresh q g h0
    exact ⟨h1,h2 p hq.symm⟩

theorem Files.not_fresh (hi : Files s ρ) (hf : 1 ≤ (ρ p).hold f) {q : Procno}
    (hq : q ≠ p) : (ρ q).fresh f ≠ true := by
  intro h
  have h1 := (hi.fresh q f h).2.2 p hq.symm
  omega

theorem Files.fresh_ref (hi : Files s ρ) (hf : (ρ p).fresh f = true) :
    (s.file f).ref = (ρ p).hold f := by
  have h1 : ∑ q, (ρ q).hold f = ∑ q, (0 : ℤ)-0+(ρ p).hold f :=
    sum_off (fun q hq => (hi.fresh p f hf).2.2 q hq)
  rw [hi.ref, h1, Finset.sum_const_zero]
  omega

theorem Files.hold_zero (hi : Files s ρ) (hf : (s.file f).ref = 0) (q : Procno) :
    (ρ q).hold f = 0 := by
  have h1 := le_sum (fun q => hi.nonneg q f) q
  have h2 := hi.nonneg q f
  have h3 := hi.ref f
  omega

theorem Files.same (hi : Files s ρ) (hs : s'.file = s.file) (hh : ∀ f, h'.hold f = (ρ p).hold f)
    (hf : ∀ f, h'.fresh f = (ρ p).fresh f) : Files s' (update ρ p h') := by
  apply hi.own
  · intro f
    rw [hs, hh]
  · intro f
    rw [hh]
    exact hi.nonneg p f
  · rw [hs]
    exact hi.closed
  · intro f h0
    rw [hf] at h0
    rw [hs, hh]
    exact hi.fresh p f h0
  · intro q f hq h0
    rw [hs, hh]
    exact ⟨(hi.fresh q f h0).1,(hi.fresh q f h0).2.2 p hq.symm⟩

theorem Procs.same (hi : Procs s ρ) (hl : (s.proc p).status = .live) (hs : s'.proc = s.proc)
    (ho : h'.ofile = (ρ p).ofile) (hc : h'.cwd = (ρ p).cwd) (hk : h'.kid = (ρ p).kid) :
    Procs s' (update ρ p h') := by
  refine hi.own hl (fun q => by rw [hs]) (fun q _ => by rw [hs]; exact ⟨rfl,rfl⟩) ?_ ?_ hk
  · rw [hs, ho, hi.ofile]
  · rw [hs, hc, hi.cwd]

section Actions

variable (hi : Inv s ρ) (hl : (s.proc p).status = .live) {f : Fileno}

include hi hl

theorem Inv.setRef (i : Ino) (n : ℤ) :
    Inv (s.setRef i (s.iref i+n)) (update ρ p ((ρ p).addI i n)) := by
  refine ⟨hi.inodes.own (fun j => ?_),hi.files.same rfl (fun _ => rfl) (fun _ => rfl),
    hi.procs.same hl rfl rfl rfl rfl⟩
  have h1 : RefHand.files (s.setRef i (s.iref i+n)) j = RefHand.files s j := rfl
  rw [h1, Hand.ihold_addI]
  simp only [State.setRef, update_apply]
  split
  · rename_i e
    subst e
    omega
  · omega

theorem Inv.filealloc (hf : (s.file f).ref = 0) :
    Inv (s.setFile f {s.file f with ref := 1}) (update ρ p (((ρ p).addF f 1).setFresh f true)) := by
  have h0 := hi.files.hold_zero hf
  have ht := hi.files.closed f hf
  have hh : (((ρ p).addF f 1).setFresh f true).hold f = 1 := by
    rw [Hand.hold_setFresh, Hand.hold_addF, h0, if_pos rfl]
    rfl
  refine ⟨hi.inodes.setFile f _ (fun i => rfl),hi.files.setFile f _ ?_ ?_ ?_ ?_ ?_ ?_,
    hi.procs.same hl rfl rfl rfl rfl⟩
  · intro g hg
    rw [Hand.hold_setFresh, Hand.hold_addF, if_neg hg, add_zero]
    exact ⟨rfl,update_of_ne hg _ _⟩
  · rw [hh, h0, hf]
    rfl
  · omega
  · intro h1
    cases h1
  · intro _
    exact ⟨ht,by omega,fun q _ => h0 q⟩
  intro q _ h1
  have h2 := (hi.files.fresh q f h1).2.1
  rw [h0] at h2
  omega

theorem Inv.setCount {n : ℤ} (hf : 1 ≤ (ρ p).hold f) (h0 : 0 < (s.file f).ref+n)
    (h1 : 0 ≤ (ρ p).hold f+n) :
    Inv (s.setFile f {s.file f with ref := (s.file f).ref+n}) (update ρ p ((ρ p).addF f n)) := by
  have hh : ((ρ p).addF f n).hold f = (ρ p).hold f+n := by
    rw [Hand.hold_addF, if_pos rfl]
  refine ⟨hi.inodes.setFile f _ (fun i => rfl),hi.files.setFile f _ ?_ ?_ ?_ ?_ ?_ ?_,
    hi.procs.same hl rfl rfl rfl rfl⟩
  · intro g hg
    rw [Hand.hold_addF, if_neg hg, add_zero]
    exact ⟨rfl,rfl⟩
  · rw [hh]
    show (s.file f).ref+n-_ = _
    omega
  · omega
  · intro h2
    exact absurd h2 (Int.ne_of_gt h0)
  · intro h2
    obtain ⟨h3,_,h4⟩ := hi.files.fresh p f h2
    have h5 := hi.files.fresh_ref h2
    exact ⟨h3,by omega,h4⟩
  · intro q hq h2
    exact absurd h2 (hi.files.not_fresh hf hq)

theorem Inv.dropLast (hf : 1 ≤ (ρ p).hold f) (h1 : (s.file f).ref = 1) :
    Inv (s.setFile f {s.file f with ref := 0, type := .none})
      (update ρ p ((((ρ p).addF f (-1)).takeIp (fileIp (s.file f))).setFresh f false)) := by
  have hh : ((((ρ p).addF f (-1)).takeIp (fileIp (s.file f))).setFresh f false).hold f =
      (ρ p).hold f-1 := by
    rw [Hand.hold_setFresh, Hand.hold_takeIp, Hand.hold_addF, if_pos rfl]
    rfl
  refine ⟨hi.inodes.setFile f _ (fun i => ?_),hi.files.setFile f _ ?_ ?_ ?_ ?_ ?_ ?_,
    hi.procs.same hl rfl rfl rfl rfl⟩
  · rw [Hand.ihold_setFresh, Hand.ihold_takeIp, Hand.ihold_addF]
    show point none i+_ = _
    rw [point_none]
    omega
  · intro g hg
    rw [Hand.hold_setFresh, Hand.hold_takeIp, Hand.hold_addF, if_neg hg, add_zero]
    exact ⟨rfl,update_of_ne hg _ _⟩
  · rw [hh, h1]
    show 0-((ρ p).hold f-1) = _
    omega
  · omega
  · exact fun _ => rfl
  · intro h2
    rw [show ((((ρ p).addF f (-1)).takeIp _).setFresh f false).fresh f = false from
      update_self _ _ _] at h2
    cases h2
  · intro q hq h2
    exact absurd h2 (hi.files.not_fresh hf hq)

theorem Inv.furnish {x : File} (hf : (ρ p).fresh f = true) (hx : x.ref = (s.file f).ref) :
    Inv (s.setFile f x) (update ρ p (((ρ p).giveIp (fileIp x)).setFresh f false)) := by
  obtain ⟨h1,h2,h3⟩ := hi.files.fresh p f hf
  refine ⟨hi.inodes.setFile f _ (fun i => ?_),hi.files.setFile f _ ?_ ?_ ?_ ?_ ?_ ?_,
    hi.procs.same hl rfl rfl rfl rfl⟩
  · have h4 : fileIp (s.file f) = none := by
      simp only [fileIp, h1]
    rw [Hand.ihold_setFresh, Hand.ihold_giveIp, h4, point_none]
    omega
  · intro g hg
    exact ⟨rfl,update_of_ne hg _ _⟩
  · rw [hx]
    rfl
  · exact hi.files.nonneg p f
  · intro h4
    have h5 := hi.files.ref f
    have h6 := le_sum (fun q => hi.files.nonneg q f) p
    omega
  · intro h4
    rw [show (((ρ p).giveIp _).setFresh f false).fresh f = false from update_self _ _ _] at h4
    cases h4
  · intro q hq h4
    exact absurd h4 (hi.files.not_fresh h2 hq)

theorem Inv.setSlot (fd : Fd) (o : Option Fileno) :
    Inv (s.setSlot p fd o) (update ρ p ((ρ p).setSlot fd o)) := by
  have hproc : (s.setSlot p fd o).proc p =
      {s.proc p with ofile := update (s.proc p).ofile fd o} := update_self _ _ _
  have hne : ∀ q, q ≠ p → (s.setSlot p fd o).proc q = s.proc q :=
    fun q hq => update_of_ne hq _ _
  refine ⟨hi.inodes.own (fun _ => rfl),hi.files.same rfl (fun f => Hand.hold_setSlot _ _ _ _)
    (fun _ => rfl),hi.procs.own hl ?_ ?_ ?_ ?_ rfl⟩
  · intro q
    by_cases e : q = p
    · rw [e, hproc]
    · rw [hne q e]
  · intro q e
    rw [hne q e]
    exact ⟨rfl,rfl⟩
  · rw [hproc, hi.procs.ofile]
    rfl
  · rw [hproc]
    exact hi.procs.cwd p

theorem Inv.setCwd (o : Option Ino) :
    Inv (s.setProc p {s.proc p with cwd := o}) (update ρ p ((ρ p).setCwd o)) := by
  have hproc : (s.setProc p {s.proc p with cwd := o}).proc p = {s.proc p with cwd := o} :=
    update_self _ _ _
  have hne : ∀ q, q ≠ p → (s.setProc p {s.proc p with cwd := o}).proc q = s.proc q :=
    fun q hq => update_of_ne hq _ _
  refine ⟨hi.inodes.own (fun i => ?_),hi.files.same rfl (fun f => rfl) (fun _ => rfl),
    hi.procs.own hl ?_ ?_ ?_ ?_ rfl⟩
  · rw [Hand.ihold_setCwd]
    rfl
  · intro q
    by_cases e : q = p
    · rw [e, hproc]
    · rw [hne q e]
  · intro q e
    rw [hne q e]
    exact ⟨rfl,rfl⟩
  · rw [hproc]
    exact hi.procs.ofile p
  · rw [hproc]
    rfl

end Actions

end Yeet.RefHand
