import YeetKernel.RefCalls

/-!
# Reference counts are exact

The calls that move references between hands, descriptors, files and current
directories, and the counts in every state where no call is under way.
-/

namespace Yeet.RefHand
open Kernel Bytes Fs Resumption Threads Tally Function

variable {c : Call} {p : Procno} {r : Hand} {f g : Fileno}

theorem Hand.addF_back (h : Hand) (f : Fileno) (b : Bool) (hf : h.fresh f = false) :
    (((h.addF f 1).setFresh f b).addF f (-1)).setFresh f false = h := by
  simp only [Hand.addF, Hand.setFresh, update_idem, update_self, add_neg_cancel_right,
    update_eq_self, ← hf]

theorem Hand.furnished (h : Hand) (hf : h.fresh f = false) (hg : h.fresh g = false) :
    (((((h.addF f 1).setFresh f true).addF g 1).setFresh g true).setFresh f false).setFresh g false =
      (h.addF f 1).addF g 1 := by
  simp only [Hand.addF, Hand.setFresh, Hand.mk.injEq, true_and, and_true]
  funext k
  simp only [update_apply]
  split
  · simp_all
  · split
    · simp_all
    · rfl

theorem Hand.dropped (h : Hand) (hgf : g ≠ f) (hf : h.fresh f = false) (hg : h.fresh g = false) :
    (((((((h.addF f 1).setFresh f true).addF g 1).setFresh g true).addF f (-1)).setFresh f
      false).addF g (-1)).setFresh g false = h := by
  have e : ((((h.addF f 1).setFresh f true).addF g 1).setFresh g true).addF f (-1) =
      ((((h.addF f 1).setFresh f true).addF f (-1)).addF g 1).setFresh g true := by
    simp only [Hand.addF, Hand.setFresh, update_of_ne hgf, update_of_ne hgf.symm, update_comm hgf]
  have e' : (((((h.addF f 1).setFresh f true).addF f (-1)).addF g 1).setFresh g true).setFresh f
      false = (((((h.addF f 1).setFresh f true).addF f (-1)).setFresh f false).addF g 1).setFresh g
        true := by
    simp only [Hand.addF, Hand.setFresh, update_comm hgf]
  rw [e, e', Hand.addF_back h f true hf, Hand.addF_back h g true hg]

theorem Hand.slot_back (h : Hand) {fd : Fd} (f : Fileno) (hfd : h.ofile fd = none) :
    (h.setSlot fd (some f)).setSlot fd none = h := by
  have e1 : update h.ofile fd none = h.ofile := by
    rw [← hfd, update_eq_self]
  have e2 : (fun g => h.ftok g+point (h.ofile fd) g-point (some f) g+
      point (update h.ofile fd (some f) fd) g-point none g) = h.ftok := by
    funext g
    rw [hfd, update_self, point_none]
    omega
  simp only [Hand.setSlot, update_idem, e1, e2]

section Calls

variable (hc : Busy c) (hr : r.AtRest)

include hc hr

theorem sysDup_sound (fd : Uint) :
    discipline.Sound c p (sysDup p fd) r (fun _ r' => r'.AtRest) := by
  apply sound_seq (argfd_sound hc fd)
  rintro o r' ⟨rfl,ho⟩
  cases o with
  | none => exact sound_pure hr
  | some x =>
    obtain ⟨d,f⟩ := x
    have hf := r'.one_le_hold (ho d f rfl) (hr.ftok f).ge
    apply sound_seq (fdalloc_sound hc f)
    intro o r₁ h
    cases o with
    | none =>
      obtain rfl := h
      exact sound_pure hr
    | some e =>
      obtain ⟨rfl,hnone⟩ := h
      refine sound_then (filedup_sound hc (by rwa [Hand.hold_setSlot])) (fun _ => ?_)
      apply sound_pure
      refine ⟨hr.itok,fun g => ?_,hr.fresh,hr.kid⟩
      simp only [Hand.addF, Hand.setSlot, update_apply, hnone, point_none, hr.ftok, point_some]
      split <;> simp_all

theorem sysRead_sound (fd n : Uint) :
    discipline.Sound c p (sysRead p fd n) r (fun _ r' => r'.AtRest) := by
  apply sound_seq (argfd_sound hc fd)
  rintro o r' ⟨rfl,_⟩
  cases o with
  | none => exact sound_pure hr
  | some x => exact quiet_seq hc (does_fileread x.2 n) (fun _ => sound_pure hr)

theorem sysWrite_sound (fd : Uint) (addr : ℕ → Byte) (n : Uint) :
    discipline.Sound c p (sysWrite p fd addr n) r (fun _ r' => r'.AtRest) := by
  apply sound_seq (argfd_sound hc fd)
  rintro o r' ⟨rfl,_⟩
  cases o with
  | none => exact sound_pure hr
  | some x =>
    apply sound_mono (quiet_sound hc (does_filewrite x.2 addr n))
    rintro _ r' rfl
    exact hr

theorem sysFstat_sound (fd : Uint) :
    discipline.Sound c p (sysFstat p fd) r (fun _ r' => r'.AtRest) := by
  apply sound_seq (argfd_sound hc fd)
  rintro o r' ⟨rfl,_⟩
  cases o with
  | none => exact sound_pure hr
  | some x => exact quiet_seq hc (does_filestat x.2) (fun _ => sound_pure hr)

omit hc in
theorem Hand.AtRest.closed {d : Fd} {f : Fileno} (hd : r.ofile d = some f) :
    (((r.setSlot d none).addF f (-1)).setFresh f false).AtRest := by
  refine ⟨hr.itok,fun g => ?_,fun g => ?_,hr.kid⟩
  · simp only [Hand.setFresh, Hand.addF, Hand.setSlot, update_apply, hd, point_none, hr.ftok,
      point_some]
    split <;> simp_all
  simp only [Hand.setFresh, update_apply]
  split
  · rfl
  · exact hr.fresh g

theorem sysClose_sound (fd : Uint) :
    discipline.Sound c p (sysClose p fd) r (fun _ r' => r'.AtRest) := by
  apply sound_seq (argfd_sound hc fd)
  rintro o r' ⟨rfl,ho⟩
  cases o with
  | none => exact sound_pure hr
  | some x =>
    obtain ⟨d,f⟩ := x
    have hd := ho d f rfl
    have hf := r'.one_le_hold hd (hr.ftok f).ge
    refine sound_then (clearSlot_sound hc d) (fun _ => ?_)
    apply sound_seq (fileclose_sound hc (by rwa [Hand.hold_setSlot]) (fun h => ?_))
    · rintro _ r₂ rfl
      exact sound_pure (hr.closed hd)
    · rw [show (r'.setSlot d none).fresh f = r'.fresh f from rfl, hr.fresh f] at h
      cases h

theorem endOp_rest {a : ℤ} :
    discipline.Sound c p (endOp >>= fun _ => pure a) r (fun _ r' => r'.AtRest) :=
  quiet_seq hc does_endOp (fun _ => sound_pure hr)

theorem sysOpen_sound (path : Path) (omode : Uint) :
    discipline.Sound c p (sysOpen p path omode) r (fun _ r' => r'.AtRest) := by
  apply quiet_seq hc does_beginOp
  intro _
  apply got_seq (openInode_sound hc path omode) (endOp_rest hc hr)
  intro ip
  apply sound_seq (filealloc_sound hc)
  intro o r₂ h
  cases o with
  | none =>
    obtain rfl := h
    exact put_seq (iunlockput_sound hc ip) (endOp_rest hc hr)
  | some f =>
    obtain ⟨rfl,h0⟩ := h
    have hone : (((r.addI ip 1).addF f 1).setFresh f true).hold f = 1 := by
      rw [Hand.hold_setFresh, Hand.hold_addF, h0, if_pos rfl]
      rfl
    apply sound_seq (fdalloc_sound hc f)
    intro o r₃ h
    cases o with
    | none =>
      obtain rfl := h
      refine sound_then (fileclose_sound hc hone.ge (fun _ => hone)) (fun _ => ?_)
      rw [Hand.addF_back (r.addI ip 1) f true (hr.fresh f)]
      exact put_seq (iunlockput_sound hc ip) (endOp_rest hc hr)
    | some fd =>
      obtain ⟨rfl,hnone⟩ := h
      apply quiet_seq hc (does_iunlock ip)
      intro _
      apply quiet_seq hc does_endOp
      intro _
      refine sound_then (openFile_sound hc omode (update_self _ _ _)) (fun _ => ?_)
      apply sound_pure
      replace hnone : r.ofile fd = none := hnone
      refine ⟨fun i => ?_,fun g => ?_,fun g => ?_,hr.kid⟩
      · simp only [Hand.setFresh, Hand.addI, Hand.setSlot, Hand.addF, update_apply, hr.itok]
        split <;> simp
      · simp only [Hand.setFresh, Hand.addI, Hand.setSlot, Hand.addF, update_apply, hr.ftok,
          hnone, point_none, point_some]
        split <;> simp
      simp only [Hand.setFresh, Hand.addI, Hand.setSlot, Hand.addF, update_apply]
      split
      · rfl
      · exact hr.fresh g

theorem sysChdir_sound (path : Option Path) :
    discipline.Sound c p (sysChdir p path) r (fun _ r' => r'.AtRest) := by
  apply quiet_seq hc does_beginOp
  intro _
  cases path with
  | none => exact endOp_rest hc hr
  | some path =>
    apply got_seq (namei_sound hc path) (endOp_rest hc hr)
    intro ip
    apply quiet_seq hc (does_ilock ip)
    intro _
    apply quiet_seq hc does_look
    intro type
    split
    · exact put_seq (iunlockput_sound hc ip) (endOp_rest hc hr)
    apply quiet_seq hc (does_iunlock ip)
    intro _
    refine sound_seq (Q := fun o r' => r' = r.addI ip 1 ∧ o = r.cwd)
      (sound_look hc (fun s ρ hi _ hρ => ⟨rfl,?_⟩)) ?_
    · rw [hi.procs.cwd, hρ]
      rfl
    rintro o r₂ ⟨rfl,rfl⟩
    apply sound_seq (sound_deref (Q := fun old r' => r' = r.addI ip 1 ∧ r.cwd = some old)
      (fun old e => ⟨rfl,e⟩))
    rintro old r₂ ⟨rfl,hold⟩
    refine sound_then (iput_sound hc old) (fun _ => ?_)
    apply quiet_seq hc does_endOp
    intro _
    refine sound_then (setCwd_sound hc (some ip)) (fun _ => ?_)
    apply sound_pure
    refine ⟨fun i => ?_,hr.ftok,hr.fresh,hr.kid⟩
    simp only [Hand.setCwd, Hand.addI, update_apply, hr.itok, hold, point_some]
    split <;> split <;> simp_all

theorem pipealloc_sound : discipline.Sound c p pipealloc r (fun o r' => match o with
      | none => r' = r
      | some x => x.2 ≠ x.1 ∧ r' = (r.addF x.1 1).addF x.2 1) := by
  apply sound_seq (filealloc_sound hc)
  intro o r₁ h
  cases o with
  | none =>
    obtain rfl := h
    exact sound_pure rfl
  | some f =>
    obtain ⟨rfl,h0⟩ := h
    have h1 : ((r.addF f 1).setFresh f true).hold f = 1 := by
      rw [Hand.hold_setFresh, Hand.hold_addF, h0, if_pos rfl]
      rfl
    apply sound_seq (filealloc_sound hc)
    intro o r₂ h
    cases o with
    | none =>
      obtain rfl := h
      refine sound_then (fileclose_sound hc h1.ge (fun _ => h1)) (fun _ => ?_)
      exact sound_pure (Hand.addF_back r f true (hr.fresh f))
    | some g =>
      obtain ⟨rfl,h2⟩ := h
      have hgf : g ≠ f := by
        rintro rfl
        rw [h1] at h2
        cases h2
      have hg : ((((r.addF f 1).setFresh f true).addF g 1).setFresh g true).hold g = 1 := by
        rw [Hand.hold_setFresh, Hand.hold_addF, h2, if_pos rfl]
        rfl
      have hf : ((((r.addF f 1).setFresh f true).addF g 1).setFresh g true).hold f = 1 := by
        rw [Hand.hold_setFresh, Hand.hold_addF, h1, if_neg hgf.symm]
        rfl
      apply quiet_seq hc does_choose
      intro page
      split
      · refine sound_then (fileclose_sound hc hf.ge (fun _ => hf)) (fun _ => ?_)
        have hg' : ((((((r.addF f 1).setFresh f true).addF g 1).setFresh g true).addF f
            (-1)).setFresh f false).hold g = 1 := by
          rw [Hand.hold_setFresh, Hand.hold_addF, hg, if_neg hgf]
          rfl
        refine sound_then (fileclose_sound hc hg'.ge (fun _ => hg')) (fun _ => ?_)
        exact sound_pure (r.dropped hgf (hr.fresh f) (hr.fresh g))
      · apply sound_seq (setPipe_sound hc ?_ (update_self _ _ _) hgf)
        · rintro _ r₂ rfl
          exact sound_pure ⟨hgf,r.furnished (hr.fresh f) (hr.fresh g)⟩
        · exact (update_of_ne hgf.symm _ _).trans (update_self _ _ _)

theorem closePipe_sound {f g : Fileno} :
    discipline.Sound c p (do fileclose f; fileclose g; pure (-1 : ℤ)) ((r.addF f 1).addF g 1)
      (fun _ r' => r'.AtRest) := by
  have hpos : ∀ k, 0 ≤ r.hold k := by
    intro k
    have := count_nonneg r.ofile k
    rw [Hand.hold, hr.ftok]
    omega
  have hfresh : ∀ k, ((r.addF f 1).addF g 1).fresh k = false := hr.fresh
  have h1 : 1 ≤ ((r.addF f 1).addF g 1).hold f := by
    have := hpos f
    rw [Hand.hold_addF, Hand.hold_addF, if_pos rfl]
    split <;> omega
  refine sound_then (fileclose_sound hc h1 (fun h => by rw [hfresh] at h; cases h)) (fun _ => ?_)
  have hfresh' : ∀ k, ((((r.addF f 1).addF g 1).addF f (-1)).setFresh f false).fresh k = false := by
    intro k
    simp only [Hand.setFresh, update_apply]
    split
    · rfl
    · exact hfresh k
  have h2 : 1 ≤ ((((r.addF f 1).addF g 1).addF f (-1)).setFresh f false).hold g := by
    have := hpos g
    rw [Hand.hold_setFresh, Hand.hold_addF, Hand.hold_addF, Hand.hold_addF, if_pos rfl]
    split <;> omega
  refine sound_then (fileclose_sound hc h2 (fun h => by rw [hfresh'] at h; cases h)) (fun _ => ?_)
  apply sound_pure
  refine ⟨hr.itok,fun k => ?_,fun k => ?_,hr.kid⟩
  · simp only [Hand.setFresh, Hand.addF, update_apply, hr.ftok]
    split <;> split <;> simp_all
  simp only [Hand.setFresh, update_apply]
  split
  · rfl
  · exact hfresh' k

theorem sysPipe_sound : discipline.Sound c p (sysPipe p) r (fun _ r' => r'.AtRest) := by
  apply sound_seq (pipealloc_sound hc hr)
  intro o r₁ h
  cases o with
  | none =>
    obtain rfl := h
    exact sound_pure hr
  | some x =>
    obtain ⟨f,g⟩ := x
    obtain ⟨hgf,rfl⟩ := h
    apply sound_seq (fdalloc_sound hc f)
    intro o r₂ h
    cases o with
    | none =>
      obtain rfl := h
      exact closePipe_sound hc hr
    | some fd =>
      obtain ⟨rfl,hfd⟩ := h
      apply sound_seq (fdalloc_sound hc g)
      intro o r₃ h
      cases o with
      | none =>
        obtain rfl := h
        refine sound_then (clearSlot_sound hc fd) (fun _ => ?_)
        rw [Hand.slot_back _ f hfd]
        exact closePipe_sound hc hr
      | some fd' =>
        obtain ⟨rfl,hfd'⟩ := h
        apply sound_pure
        refine ⟨hr.itok,fun k => ?_,hr.fresh,hr.kid⟩
        replace hfd : r.ofile fd = none := hfd
        replace hfd' : update r.ofile fd (some f) fd' = none := hfd'
        simp only [Hand.setSlot, Hand.addF, hfd, hfd', update_apply, point_none, point_some,
          hr.ftok]
        split <;> split <;> simp_all

end Calls

theorem closeFiles_sound (hc : Busy c) (l : List Fd) (hr : r.AtRest) :
    discipline.Sound c p (closeFiles p l) r (fun _ r' => r'.AtRest ∧ r'.cwd = r.cwd ∧
      ∀ fd, fd ∈ l ∨ r.ofile fd = none → r'.ofile fd = none) := by
  induction l generalizing r with
  | nil => exact sound_pure ⟨hr,rfl,fun fd h => h.resolve_left (by simp)⟩
  | cons fd l ih =>
    refine sound_seq (Q := fun o r' => r' = r ∧ o = r.ofile fd)
      (sound_look hc (fun s ρ hi _ hρ => ⟨rfl,by rw [hi.procs.ofile, hρ]⟩)) ?_
    rintro o r₁ ⟨rfl,ho⟩
    cases o with
    | none =>
      apply sound_mono (ih hr)
      rintro _ r' ⟨h1,h2,h3⟩
      refine ⟨h1,h2,fun fd' h => h3 fd' ?_⟩
      rcases h with h | h
      · rcases List.mem_cons.mp h with rfl | h
        · exact Or.inr ho.symm
        · exact Or.inl h
      · exact Or.inr h
    | some f =>
      have hf := r₁.one_le_hold ho.symm (hr.ftok f).ge
      refine sound_then (fileclose_sound hc hf (fun h => by rw [hr.fresh f] at h; cases h)) (fun _ => ?_)
      refine sound_then (clearSlot_sound hc fd) (fun _ => ?_)
      have hrest : ((((r₁.addF f (-1)).setFresh f false).setSlot fd none)).AtRest := by
        refine ⟨hr.itok,fun g => ?_,fun g => ?_,hr.kid⟩
        · simp only [Hand.setSlot, Hand.setFresh, Hand.addF, ← ho, update_apply, hr.ftok, point_none,
            point_some]
          split <;> simp_all
        simp only [Hand.setSlot, Hand.setFresh, Hand.addF, update_apply]
        split
        · rfl
        · exact hr.fresh g
      apply sound_mono (ih hrest)
      rintro _ r' ⟨h1,h2,h3⟩
      refine ⟨h1,h2,fun fd' h => h3 fd' ?_⟩
      by_cases e : fd' = fd
      · exact Or.inr (e ▸ update_self _ _ _)
      · rcases h with h | h
        · exact Or.inl ((List.mem_cons.mp h).resolve_left e)
        · exact Or.inr ((update_of_ne e _ _).trans h)

theorem exit_sound (hc : Busy c) (hr : r.AtRest) :
    discipline.Sound c p (Fs.exit p) r (fun _ r' => r'.AtRest ∧ r'.Empty) := by
  apply quiet_seq hc does_look
  intro init
  split
  · exact sound_halt
  apply sound_seq (closeFiles_sound hc _ hr)
  rintro _ r₁ ⟨hr₁,_,hnone⟩
  apply quiet_seq hc does_beginOp
  intro _
  refine sound_seq (Q := fun o r' => r' = r₁ ∧ o = r₁.cwd)
    (sound_look hc (fun s ρ hi _ hρ => ⟨rfl,by rw [hi.procs.cwd, hρ]⟩)) ?_
  rintro o r₂ ⟨rfl,rfl⟩
  apply sound_seq (sound_deref (Q := fun i r' => r' = r₂ ∧ r₂.cwd = some i) (fun i e => ⟨rfl,e⟩))
  rintro i r₃ ⟨rfl,hcwd⟩
  refine sound_then (iput_sound hc i) (fun _ => ?_)
  apply quiet_seq hc does_endOp
  intro _
  refine sound_then (setCwd_sound hc none) (fun _ => ?_)
  apply sound_pure
  refine ⟨⟨fun j => ?_,hr₁.ftok,hr₁.fresh,hr₁.kid⟩,
    fun fd => hnone fd (Or.inl (List.mem_finRange fd)),rfl⟩
  simp only [Hand.setCwd, Hand.addI, update_apply, hr₁.itok, hcwd, point_none, point_some]
  split <;> simp_all

end Yeet.RefHand
