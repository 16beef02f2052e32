import YeetKernel.RefFork

/-!
# Paths and files balance their references

The routines below the system calls: each leaves in the hand of its process
the one reference it returns, and nothing else.
-/

namespace Yeet.RefHand
open Kernel Bytes Fs Resumption Threads Function

def discipline : Discipline State Procno Call Hand where
  Inv := Inv
  live s p := (s.proc p).status = .live
  rest := Hand.AtRest
  during c h := c = .wait → h.AtRest
  final c h := h.AtRest ∧ (c = .exit → h.Empty)

variable {c : Call} {p : Procno} {r : Hand} {α β : Type}

def Busy (c : Call) : Prop := c ≠ .wait

theorem Busy.during (hc : Busy c) (h : Hand) : discipline.during c h := fun e => absurd e hc

section Rules

variable (hc : Busy c) {Q : β → Hand → Prop}

include hc

theorem quiet_sound {x : FsProg α} (h : x.Does Quiet) :
    discipline.Sound c p x r (fun _ r' => r' = r) := by
  refine sound_does h (fun s s' ρ hi _ hq => ⟨hi.quiet hq,fun q hl => ?_⟩) (hc.during r)
  exact (hq.proc q).1.trans hl

theorem sound_step {f : State → Except Fault (β × State)}
    (h : ∀ s ρ b s', Inv s ρ → (s.proc p).status = .live → ρ p = r → f s = .ok (b,s') →
      (∀ q, (s'.proc q).status = (s.proc q).status) ∧
      ∃ r', Inv s' (update ρ p r') ∧ Q b r') : discipline.Sound c p (perform f) r Q := by
  apply sound_atom
  intro s ρ b s' hi hl hr hf
  obtain ⟨h1,r',h2,h3⟩ := h s ρ b s' hi hl hr (Option.some.inj hf)
  exact ⟨fun q hq => (h1 q).trans hq,r',h2,hc.during r',h3⟩

theorem sound_set {f : State → State} {Q : Hand → Prop}
    (h : ∀ s ρ, Inv s ρ → (s.proc p).status = .live → ρ p = r →
      (∀ q, ((f s).proc q).status = (s.proc q).status) ∧ ∃ r', Inv (f s) (update ρ p r') ∧ Q r') :
    discipline.Sound c p (assign f : FsProg Unit) r (fun _ => Q) := by
  apply sound_atom
  intro s ρ b s' hi hl hr hf
  cases hf
  obtain ⟨h1,r',h2,h3⟩ := h s ρ hi hl hr
  exact ⟨fun q hq => (h1 q).trans hq,r',h2,hc.during r',h3⟩

theorem sound_look {f : State → β}
    (h : ∀ s ρ, Inv s ρ → (s.proc p).status = .live → ρ p = r → Q (f s) r) :
    discipline.Sound c p (fetch f : FsProg β) r Q := by
  apply sound_atom
  intro s ρ b s' hi hl hr hf
  cases hf
  refine ⟨fun _ h => h,r,?_,hc.during r,h s ρ hi hl hr⟩
  rw [← hr, update_eq_self]
  exact hi

omit hc in
theorem sound_halt {msg : String} {Q : α → Hand → Prop} :
    discipline.Sound c p (halt msg : FsProg α) r Q := sound_fail

omit hc in
theorem sound_deref {o : Option α} {Q : α → Hand → Prop} (h : ∀ a, o = some a → Q a r) :
    discipline.Sound c p (deref o : FsProg α) r Q := by
  cases o with
  | none => exact sound_fail
  | some a => exact sound_pure (h a rfl)

end Rules

theorem quiet_seq (hc : Busy c) {x : FsProg α} {g : α → FsProg β} {Q : β → Hand → Prop}
    (h : x.Does Quiet) (hg : ∀ a, discipline.Sound c p (g a) r Q) :
    discipline.Sound c p (x >>= g) r Q := by
  refine sound_then (quiet_sound hc h) (fun a => ?_)
  exact hg a

section Inodes

variable (hc : Busy c)

include hc

theorem iget_sound (dev inum : Uint) :
    discipline.Sound c p (iget dev inum) r (fun i r' => r' = r.addI i 1) := by
  apply sound_step hc
  intro s ρ i s' hi hl hr h
  subst hr
  rcases iget_cases h with ⟨_,_,_,rfl⟩ | ⟨_,h0,rfl⟩
  · exact ⟨fun _ => rfl,_,hi.setRef hl i 1,rfl⟩
  have h1 : Quiet s (s.setInode i {s.inode i with
      dev := dev, inum := inum, busy := false, valid := false}) := Quiet.of rfl rfl rfl
  have h2 := (hi.quiet h1).setRef hl i 1
  rw [show (s.setInode i _).iref i = 0 from h0] at h2
  exact ⟨fun _ => rfl,_,h2,rfl⟩

theorem idup_sound (i : Ino) : discipline.Sound c p (idup i) r (fun _ r' => r' = r.addI i 1) := by
  apply sound_set hc
  intro s ρ hi hl hr
  subst hr
  exact ⟨fun _ => rfl,_,hi.setRef hl i 1,rfl⟩

theorem iput_sound (i : Ino) :
    discipline.Sound c p (iput i) r (fun _ r' => r' = r.addI i (-1)) := by
  apply sound_seq (Q := fun b r' => r' = if b then r else r.addI i (-1))
  · apply sound_step hc
    intro s ρ b s' hi hl hr h
    subst hr
    unfold State.put at h
    split at h
    · split at h
      · cases h
      cases h
      refine ⟨fun _ => rfl,ρ p,?_,rfl⟩
      rw [update_eq_self]
      exact hi.quiet (Quiet.of rfl rfl rfl)
    · cases h
      exact ⟨fun _ => rfl,_,hi.setRef hl i (-1),rfl⟩
  rintro b r' rfl
  cases b with
  | false => exact sound_pure rfl
  | true =>
    apply quiet_seq hc
    · apply does_perform
      intro s a s' h
      obtain ⟨v,_,h⟩ := bind_eq_ok.mp h
      cases h
      exact Quiet.of rfl rfl rfl
    intro _
    apply quiet_seq hc (does_store i _)
    intro _
    apply sound_set hc
    intro s ρ hi hl hr
    subst hr
    have h1 : Quiet s (s.setInode i {s.inode i with busy := false, valid := false}) :=
      Quiet.of rfl rfl rfl
    exact ⟨fun _ => rfl,_,(hi.quiet h1).setRef hl i (-1),rfl⟩

theorem iunlockput_sound (i : Ino) :
    discipline.Sound c p (iunlockput i) r (fun _ r' => r' = r.addI i (-1)) :=
  quiet_seq hc (does_iunlock i) (fun _ => iput_sound hc i)

omit hc in
theorem put_seq {x : FsProg Unit} {i : Ino} {g : Unit → FsProg β} {Q : β → Hand → Prop}
    (hx : discipline.Sound c p x (r.addI i 1) (fun _ r' => r' = (r.addI i 1).addI i (-1)))
    (hg : discipline.Sound c p (g ()) r Q) : discipline.Sound c p (x >>= g) (r.addI i 1) Q := by
  refine sound_then hx (fun _ => ?_)
  rwa [r.put_back]

theorem endOp_sound {a : α} :
    discipline.Sound c p (endOp >>= fun _ => pure a) r (fun _ r' => r' = r) :=
  quiet_seq hc does_endOp (fun _ => sound_pure rfl)

theorem iallocFrom_sound (dev : Uint) (t : Ushort) (l : List ℕ) :
    discipline.Sound c p (iallocFrom dev t l) r (fun i r' => r' = r.addI i 1) := by
  induction l with
  | nil => exact sound_halt
  | cons n l ih =>
    apply quiet_seq hc
    · apply does_perform
      intro s b s' h
      replace h := Except.ok.inj h
      unfold State.claim at h
      split at h
      · cases h
        exact Quiet.of rfl rfl rfl
      · cases h
        exact Quiet.refl s
    · intro free
      cases free with
      | false => exact ih
      | true => exact iget_sound hc _ _

theorem ialloc_sound (dev : Uint) (t : Ushort) :
    discipline.Sound c p (ialloc dev t) r (fun i r' => r' = r.addI i 1) :=
  quiet_seq hc does_look (fun _ => iallocFrom_sound hc dev t _)

def Got (r : Hand) (o : Option Ino) (r' : Hand) : Prop :=
  match o with
  | none => r' = r
  | some i => r' = r.addI i 1

omit hc in
theorem got_seq {x : FsProg (Option Ino)} {g : Option Ino → FsProg β} {Q : β → Hand → Prop}
    (hx : discipline.Sound c p x r (Got r)) (h0 : discipline.Sound c p (g none) r Q)
    (h1 : ∀ i, discipline.Sound c p (g (some i)) (r.addI i 1) Q) :
    discipline.Sound c p (x >>= g) r Q := by
  apply sound_seq hx
  intro o r' h
  cases o with
  | none => exact h ▸ h0
  | some i => exact h ▸ h1 i

omit hc in
theorem found_seq {x : FsProg (Option (Ino × α))} {g : Option (Ino × α) → FsProg β}
    {Q : β → Hand → Prop} (hx : discipline.Sound c p x r (fun o r' => Got r (o.map Prod.fst) r'))
    (h0 : discipline.Sound c p (g none) r Q)
    (h1 : ∀ a, discipline.Sound c p (g (some a)) (r.addI a.1 1) Q) :
    discipline.Sound c p (x >>= g) r Q := by
  apply sound_seq hx
  intro o r' h
  cases o with
  | none => exact h ▸ h0
  | some a => exact h ▸ h1 a

theorem dirlookup_sound (dp : Ino) (name : Name) :
    discipline.Sound c p (dirlookup dp name) r (fun o r' => Got r (o.map Prod.fst) r') := by
  apply quiet_seq hc does_look
  intro x
  split
  · exact sound_halt
  apply quiet_seq hc (does_scanAll dp _ _ _)
  intro o
  split
  · exact sound_pure rfl
  · refine sound_then (iget_sound hc _ _) (fun i => ?_)
    exact sound_pure rfl

theorem dirlink_sound (dp : Ino) (name : Name) (inum : Uint) :
    discipline.Sound c p (dirlink dp name inum) r (fun _ r' => r' = r) := by
  apply found_seq (dirlookup_sound hc dp name)
  · apply quiet_seq hc (does_scanAll dp _ _ _)
    intro o
    apply quiet_seq hc (does_writei dp _ _)
    intro n
    split
    · exact sound_halt
    · exact sound_pure rfl
  · intro x
    exact put_seq (iput_sound hc x.1) (sound_pure rfl)

theorem walk_sound (parent : Bool) (names : List Name) (ip : Ino) :
    discipline.Sound c p (walk parent names ip) (r.addI ip 1)
      (fun o r' => Got r (o.map Prod.fst) r') := by
  induction names generalizing ip with
  | nil =>
    unfold walk
    split
    · exact put_seq (iput_sound hc ip) (sound_pure rfl)
    · exact sound_pure rfl
  | cons name l ih =>
    apply quiet_seq hc (does_ilock ip)
    intro _
    apply quiet_seq hc does_look
    intro type
    split
    · exact put_seq (iunlockput_sound hc ip) (sound_pure rfl)
    split
    · apply quiet_seq hc (does_iunlock ip)
      intro _
      exact sound_pure rfl
    apply found_seq (dirlookup_sound hc ip name)
    · exact put_seq (iunlockput_sound hc ip) (sound_pure rfl)
    intro x
    refine sound_then (iunlockput_sound hc ip) (fun _ => ?_)
    rw [r.put_first]
    exact ih x.1

theorem namex_sound (path : List Byte) (parent : Bool) :
    discipline.Sound c p (namex p path parent) r (fun o r' => Got r (o.map Prod.fst) r') := by
  unfold namex
  dsimp only
  split
  · refine sound_then (iget_sound hc _ _) (fun ip => ?_)
    exact walk_sound hc parent _ ip
  apply quiet_seq hc does_look
  intro cwd
  apply quiet_seq hc (does_deref cwd)
  intro ip
  refine sound_then (idup_sound hc ip) (fun _ => ?_)
  exact walk_sound hc parent _ ip

theorem namei_sound (path : List Byte) : discipline.Sound c p (namei p path) r (Got r) := by
  apply sound_seq (namex_sound hc path false)
  intro o r' h
  exact sound_pure h

end Inodes

end Yeet.RefHand
