import YeetKernel.RefSound

/-!
# System calls balance their references

Opening and closing files, and the calls on paths. A call starts and ends with
nothing in the hand of its process besides its descriptors and its current
directory.
-/

namespace Yeet.RefHand
open Kernel Fs Resumption Threads Function

variable {c : Call} {p : Procno} {r : Hand}

theorem setProc_status {s : State} {x : Process} (h : x.status = (s.proc p).status) (q : Procno) :
    ((s.setProc p x).proc q).status = (s.proc q).status := by
  simp only [State.setProc, update_apply]
  split
  · rename_i e
    rw [e, h]
  · rfl

section Files

variable (hc : Busy c) {f : Fileno}

include hc

theorem filealloc_sound : discipline.Sound c p filealloc r (fun o r' => match o with
      | none => r' = r
      | some f => r' = (r.addF f 1).setFresh f true ∧ r.hold f = 0) := by
  apply sound_step hc
  intro s ρ o s' hi hl hr h
  subst hr
  replace h : s.filealloc = (o,s') := Except.ok.inj h
  unfold State.filealloc at h
  split at h
  · cases h
    refine ⟨fun _ => rfl,ρ p,?_,rfl⟩
    rw [update_eq_self]
    exact hi
  rename_i f hf
  cases h
  have h0 := List.find?_some hf
  rw [beq_iff_eq] at h0
  exact ⟨fun _ => rfl,_,hi.filealloc hl h0,rfl,hi.files.hold_zero h0 p⟩

theorem filedup_sound (hf : 1 ≤ r.hold f) :
    discipline.Sound c p (filedup f) r (fun _ r' => r' = r.addF f 1) := by
  apply sound_step hc
  intro s ρ b s' hi hl hr h
  subst hr
  obtain ⟨s₁,h1,h2⟩ := map_eq_ok.mp h
  cases h2
  unfold State.filedup at h1
  split at h1
  · cases h1
  · rename_i hlt
    cases h1
    exact ⟨fun _ => rfl,_,hi.setCount hl hf (by omega) (by omega),rfl⟩

theorem fileclose_sound (hf : 1 ≤ r.hold f) (hone : r.fresh f = true → r.hold f = 1) :
    discipline.Sound c p (fileclose f) r (fun _ r' => r' = (r.addF f (-1)).setFresh f false) := by
  apply sound_seq (Q := fun o r' =>
    r' = ((r.addF f (-1)).takeIp (o.bind fileIp)).setFresh f false)
  · apply sound_step hc
    intro s ρ o s' hi hl hr h
    subst hr
    unfold State.drop at h
    dsimp only at h
    split at h
    · cases h
    rename_i hlt
    split at h
    · rename_i hmore
      cases h
      refine ⟨fun _ => rfl,_,hi.setCount (n := -1) hl hf hmore (by omega),?_⟩
      have hold : (ρ p).fresh f = false := by
        by_contra hfr
        have h1 := hone (by simpa using hfr)
        have h2 := hi.files.fresh_ref (p := p) (f := f) (by simpa using hfr)
        omega
      rw [Option.bind_none, Hand.takeIp_none, Hand.setFresh, ← hold]
      show _ = {(ρ p).addF f (-1) with fresh := update (ρ p).fresh f ((ρ p).fresh f)}
      rw [update_eq_self]
      rfl
    · rename_i hone'
      cases h
      exact ⟨fun _ => rfl,_,hi.dropLast hl hf (by omega),rfl⟩
  rintro o r' rfl
  cases o with
  | none =>
    rw [Option.bind_none, Hand.takeIp_none]
    exact sound_pure rfl
  | some x =>
    rw [Option.bind_some]
    cases hx : x.type with
    | inode =>
      simp only [hx]
      apply quiet_seq hc does_beginOp
      intro _
      have hip : fileIp x = x.ip := by simp only [fileIp, hx]
      rw [hip]
      apply sound_seq (sound_deref (Q := fun ip r' => x.ip = some ip ∧
        r' = ((r.addF f (-1)).takeIp x.ip).setFresh f false) (fun ip e => ⟨e,rfl⟩))
      rintro ip r' ⟨e,rfl⟩
      refine sound_then (iput_sound hc ip) (fun _ => ?_)
      apply sound_mono (quiet_sound hc does_endOp)
      rintro _ r' rfl
      rw [e, Hand.takeIp_some]
      show ((((r.addF f (-1)).addI ip 1).addI ip (-1)).setFresh f false) = _
      rw [Hand.put_back]
    | none | pipe =>
      have hip : fileIp x = none := by simp only [fileIp, hx]
      simp only [hx, hip, Hand.takeIp_none]
      exact sound_pure rfl

theorem fdalloc_sound (f : Fileno) : discipline.Sound c p (fdalloc p f) r (fun o r' => match o with
      | none => r' = r
      | some fd => r' = r.setSlot fd (some f) ∧ r.ofile fd = none) := by
  apply sound_step hc
  intro s ρ o s' hi hl hr h
  subst hr
  replace h : s.fdalloc p f = (o,s') := Except.ok.inj h
  unfold State.fdalloc at h
  split at h
  · cases h
    refine ⟨fun _ => rfl,ρ p,?_,rfl⟩
    rw [update_eq_self]
    exact hi
  rename_i fd hfd
  cases h
  have hnone := List.find?_some hfd
  rw [Option.isNone_iff_eq_none, hi.procs.ofile] at hnone
  exact ⟨setProc_status rfl,_,hi.setSlot hl fd (some f),rfl,hnone⟩

theorem clearSlot_sound (fd : Fd) :
    discipline.Sound c p (assign (fun s => s.setSlot p fd none) : FsProg Unit) r
      (fun _ r' => r' = r.setSlot fd none) := by
  apply sound_set hc
  intro s ρ hi hl hr
  subst hr
  exact ⟨setProc_status rfl,_,hi.setSlot hl fd none,rfl⟩

theorem setCwd_sound (o : Option Ino) : discipline.Sound c p
      (assign (fun s => s.setProc p {s.proc p with cwd := o}) : FsProg Unit) r
      (fun _ r' => r' = r.setCwd o) := by
  apply sound_set hc
  intro s ρ hi hl hr
  subst hr
  exact ⟨setProc_status rfl,_,hi.setCwd hl o,rfl⟩

theorem argfd_sound (fd : Uint) : discipline.Sound c p (argfd p fd) r (fun o r' => r' = r ∧
      ∀ d f, o = some (d,f) → r.ofile d = some f) := by
  apply sound_look hc
  intro s ρ hi hl hr
  refine ⟨rfl,fun d f h => ?_⟩
  unfold State.argfd at h
  split at h
  · obtain ⟨g,hg,h⟩ := Option.map_eq_some_iff.mp h
    cases h
    rw [hi.procs.ofile, hr] at hg
    exact hg
  · cases h

theorem openFile_sound {ip : Ino} (omode : Uint) (hf : r.fresh f = true) :
    discipline.Sound c p (assign (fun s => s.openFile f ip omode) : FsProg Unit) r
      (fun _ r' => r' = (r.addI ip (-1)).setFresh f false) := by
  apply sound_set hc
  intro s ρ hi hl hr
  subst hr
  refine ⟨fun _ => rfl,_,hi.furnish hl hf rfl,?_⟩
  rw [← Hand.giveIp_some]
  rfl

theorem setPipe_sound {f g : Fileno} (hf : r.fresh f = true) (hg : r.fresh g = true) (hfg : g ≠ f) :
    discipline.Sound c p (assign (fun s =>
      let s := s.setFile f {s.file f with type := .pipe, readable := true, writable := false}
      s.setFile g {s.file g with type := .pipe, readable := false, writable := true}) :
        FsProg Unit) r
      (fun _ r' => r' = (r.setFresh f false).setFresh g false) := by
  apply sound_set hc
  intro s ρ hi hl hr
  subst hr
  refine ⟨fun _ => rfl,_,?_,rfl⟩
  have h1 := hi.furnish (x := {s.file f with type := .pipe, readable := true, writable := false})
    hl hf rfl
  rw [show fileIp {s.file f with type := .pipe, readable := true, writable := false} = none from rfl,
    Hand.giveIp_none] at h1
  have h2 : (update ρ p ((ρ p).setFresh f false) p).fresh g = true := by
    rw [update_self]
    exact (update_of_ne hfg _ _).trans hg
  have h3 := h1.furnish (f := g) (x := {(s.setFile f {s.file f with
    type := .pipe, readable := true, writable := false}).file g with
    type := .pipe, readable := false, writable := true}) hl h2 rfl
  simp only [update_idem, update_self, fileIp, Hand.giveIp_none] at h3
  exact h3

end Files

section Paths

variable (hc : Busy c)

include hc

theorem linkBad_sound (ip : Ino) :
    discipline.Sound c p (linkBad ip) (r.addI ip 1) (fun _ r' => r' = r) := by
  apply quiet_seq hc (does_ilock ip)
  intro _
  apply quiet_seq hc (does_store ip _)
  intro _
  exact put_seq (iunlockput_sound hc ip) (endOp_sound hc)

theorem linkNew_sound (ip : Ino) (new : Path) :
    discipline.Sound c p (linkNew p ip new) (r.addI ip 1) (fun _ r' => r' = r) := by
  apply found_seq (namex_sound hc new true)
  · exact linkBad_sound hc ip
  intro x
  apply quiet_seq hc (does_ilock x.1)
  intro _
  apply quiet_seq hc does_look
  intro y
  apply quiet_seq hc does_look
  intro dev
  split
  · exact put_seq (iunlockput_sound hc x.1) (linkBad_sound hc ip)
  refine sound_then (dirlink_sound hc x.1 x.2 _) (fun n => ?_)
  split
  · exact put_seq (iunlockput_sound hc x.1) (linkBad_sound hc ip)
  · apply put_seq (iunlockput_sound hc x.1)
    exact put_seq (iput_sound hc ip) (endOp_sound hc)

theorem sysLink_sound (old new : Path) :
    discipline.Sound c p (sysLink p old new) r (fun _ r' => r' = r) := by
  apply quiet_seq hc does_beginOp
  intro _
  apply got_seq (namei_sound hc old) (endOp_sound hc)
  intro ip
  apply quiet_seq hc (does_ilock ip)
  intro _
  apply quiet_seq hc does_look
  intro type
  split
  · exact put_seq (iunlockput_sound hc ip) (endOp_sound hc)
  apply quiet_seq hc (does_store ip _)
  intro _
  apply quiet_seq hc (does_iunlock ip)
  exact fun _ => linkNew_sound hc ip new

theorem unlinkBad_sound (dp : Ino) :
    discipline.Sound c p (unlinkBad dp) (r.addI dp 1) (fun _ r' => r' = r) :=
  put_seq (iunlockput_sound hc dp) (endOp_sound hc)

theorem unlinkEntry_sound (dp ip : Ino) (off : ℕ) (type : Ushort) :
    discipline.Sound c p (unlinkEntry dp ip off type) ((r.addI dp 1).addI ip 1)
      (fun _ r' => r' = r) := by
  apply quiet_seq hc (does_writei dp _ _)
  intro n
  split
  · exact sound_halt
  have hdrop : (dropParent dp type).Does Quiet := by
    unfold dropParent
    split
    · exact does_store dp _
    · exact does_pure
  apply quiet_seq hc hdrop
  intro _
  refine sound_then (iunlockput_sound hc dp) (fun _ => ?_)
  rw [r.put_first]
  apply quiet_seq hc (does_store ip _)
  intro _
  exact put_seq (iunlockput_sound hc ip) (endOp_sound hc)

theorem sysUnlink_sound (path : Path) :
    discipline.Sound c p (sysUnlink p path) r (fun _ r' => r' = r) := by
  apply quiet_seq hc does_beginOp
  intro _
  apply found_seq (namex_sound hc path true) (endOp_sound hc)
  intro x
  apply quiet_seq hc (does_ilock x.1)
  intro _
  split
  · exact unlinkBad_sound hc x.1
  apply found_seq (dirlookup_sound hc x.1 x.2) (unlinkBad_sound hc x.1)
  intro y
  apply quiet_seq hc (does_ilock y.1)
  intro _
  apply quiet_seq hc does_look
  intro d
  split
  · exact sound_halt
  split
  · apply quiet_seq hc (does_isdirempty y.1)
    intro empty
    split
    · exact unlinkEntry_sound hc x.1 y.1 _ _
    · exact put_seq (iunlockput_sound hc y.1) (unlinkBad_sound hc x.1)
  · exact unlinkEntry_sound hc x.1 y.1 _ _

theorem makeDots_sound (dp ip : Ino) (type : Ushort) :
    discipline.Sound c p (makeDots dp ip type) r (fun _ r' => r' = r) := by
  unfold makeDots
  split
  · apply quiet_seq hc (does_store dp _)
    intro _
    apply quiet_seq hc does_look
    intro self
    refine sound_then (dirlink_sound hc ip dot self) (fun n => ?_)
    split
    · exact sound_halt
    apply quiet_seq hc does_look
    intro up
    refine sound_then (dirlink_sound hc ip dotdot up) (fun n => ?_)
    split
    · exact sound_halt
    · exact sound_pure rfl
  · exact sound_pure rfl

theorem create_sound (path : Path) (type major minor : Ushort) :
    discipline.Sound c p (create p path type major minor) r (Got r) := by
  refine found_seq (namex_sound hc path true) (sound_pure rfl) ?_
  intro x
  apply quiet_seq hc (does_ilock x.1)
  intro _
  apply found_seq (dirlookup_sound hc x.1 x.2)
  · apply quiet_seq hc does_look
    intro dev
    refine sound_then (ialloc_sound hc dev type) (fun ip => ?_)
    apply quiet_seq hc (does_ilock ip)
    intro _
    apply quiet_seq hc (does_store ip _)
    intro _
    refine sound_then (makeDots_sound hc x.1 ip type) (fun _ => ?_)
    apply quiet_seq hc does_look
    intro inum
    refine sound_then (dirlink_sound hc x.1 x.2 inum) (fun n => ?_)
    split
    · exact sound_halt
    · refine sound_then (iunlockput_sound hc x.1) (fun _ => ?_)
      rw [r.put_first]
      exact sound_pure rfl
  · intro y
    refine sound_then (iunlockput_sound hc x.1) (fun _ => ?_)
    rw [r.put_first]
    apply quiet_seq hc (does_ilock y.1)
    intro _
    apply quiet_seq hc does_look
    intro t
    split
    · exact sound_pure rfl
    · exact put_seq (iunlockput_sound hc y.1) (sound_pure rfl)

theorem openInode_sound (path : Path) (omode : Uint) :
    discipline.Sound c p (openInode p path omode) r (Got r) := by
  unfold openInode
  split
  · exact create_sound hc path _ _ _
  refine got_seq (namei_sound hc path) (sound_pure rfl) ?_
  intro ip
  apply quiet_seq hc (does_ilock ip)
  intro _
  apply quiet_seq hc does_look
  intro type
  split
  · exact put_seq (iunlockput_sound hc ip) (sound_pure rfl)
  · exact sound_pure rfl

theorem makeNode_sound (path : Option Path) (type major minor : Ushort) :
    discipline.Sound c p (makeNode p path type major minor) r (fun _ r' => r' = r) := by
  apply quiet_seq hc does_beginOp
  intro _
  cases path with
  | none => exact endOp_sound hc
  | some path =>
    apply got_seq (create_sound hc path type major minor) (endOp_sound hc)
    exact fun ip => put_seq (iunlockput_sound hc ip) (endOp_sound hc)

theorem exec_sound (path : Path) :
    discipline.Sound c p (Fs.exec p path) r (fun _ r' => r' = r) := by
  apply quiet_seq hc does_beginOp
  intro _
  apply got_seq (namei_sound hc path) (endOp_sound hc)
  intro ip
  apply quiet_seq hc (does_ilock ip)
  intro _
  apply quiet_seq hc does_choose
  intro page
  split
  · exact sound_halt
  apply quiet_seq hc (does_execLoad p ip)
  intro loaded
  apply put_seq (iunlockput_sound hc ip)
  apply quiet_seq hc does_endOp
  intro _
  apply quiet_seq hc does_choose
  intro image
  split <;> exact sound_pure rfl

end Paths

end Yeet.RefHand
