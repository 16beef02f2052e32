import YeetKernel.InodeProtocol

/-!
# The operations on the inode cache are sound

Each operation of the discipline, started with a hand that permits it, keeps
the invariant in any interleaving and leaves the hand it announces.
-/

namespace Yeet.Icache
open Kernel FsDisk Fs Resumption Threads Function

structure Hold.AtRest (r : Hold) : Prop where
  known : r.known = r.real
  claimed : r.claimed = none
  lock : ∀ i, r.real.lock i = .free ∨ r.real.lock i = .clean ∨ r.real.lock i = .dirty

theorem Hold.AtRest.outside {r : Hold} (hr : r.AtRest) (i : Ino) :
    r.real.lock i ≠ .dead ∧ r.real.lock i ≠ .dying ∧ r.real.lock i ≠ .loading := by
  rcases hr.lock i with h | h | h <;> rw [h] <;> decide

def discipline (named : Bool) (N : ℕ) : Discipline Client Procno Op Hold where
  Inv := Inv named N
  live _ _ := True
  rest := Hold.AtRest
  during _ _ := True
  final _ := Hold.AtRest

variable {named : Bool} {N : ℕ} {p : Procno} {c : Op} {i : Ino} {r : Hold} {β γ : Type}
variable {Q : β → Hold → Prop} {s : Client} {ρ : Procno → Hold} {f : Atom State Fault β}
variable {k : β → FsProg γ} {Q' : γ → Hold → Prop} {t : Ushort}

theorem sound_onFs (h : ∀ s ρ b fs, Inv named N s ρ → ρ p = r → f s.fs = some (.ok (b,fs)) →
      ∃ r', Inv named N (s.did p c fs) (update ρ p r') ∧ Q b r') :
    (discipline named N).Sound c p (onFs p c (atom f)) r Q := by
  apply sound_atom
  intro s ρ b s' hi _ hr hf
  obtain ⟨fs,hfs,rfl⟩ := embed_eq_ok hf
  obtain ⟨r',h1,h2⟩ := h s ρ b fs hi hr hfs
  exact ⟨fun _ h => h,r',h1,trivial,h2⟩

theorem sound_guarded (h : ∀ s ρ b fs, Inv named N s ρ → ρ p = r → s.permits named p c = true →
      f s.fs = some (.ok (b,fs)) → ∃ r', Inv named N (s.did p c fs) (update ρ p r') ∧ Q b r')
    (hk : ∀ b r', Q b r' → (discipline named N).Sound c p (onFs p c (k b)) r' Q') :
    (discipline named N).Sound c p
      ((onFs p c (atom f >>= k)).guard (fun s => s.permits named p c)) r Q' := by
  apply sound_seq (x := atom (fun s => if s.permits named p c then
    f.embed Client.fs (fun s fs => s.did p c fs) s else none)) (Q := Q) _ hk
  apply sound_atom
  intro s ρ b s' hi _ hr hf
  split at hf
  · rename_i hg
    obtain ⟨fs,hfs,rfl⟩ := embed_eq_ok hf
    obtain ⟨r',h1,h2⟩ := h s ρ b fs hi hr hg hfs
    exact ⟨fun _ h => h,r',h1,trivial,h2⟩
  · cases hf

theorem sound_onFs_seq {x : FsProg β} (h : (discipline named N).Sound c p (onFs p c x) r Q)
    (hk : ∀ b r', Q b r' → (discipline named N).Sound c p (onFs p c (k b)) r' Q') :
    (discipline named N).Sound c p (onFs p c (x >>= k)) r Q' := by
  rw [onFs, embed_bind]
  exact sound_seq h hk

def Leaves (c : Op) (r : Hold) (i : Ino) (r' : Hold) : Prop :=
  r' = {r with real := after c i r.real}

def Serves (named : Bool) (N : ℕ) (c : Op) (p : Procno) (r : Hold) : Prop :=
  (discipline named N).Sound c p ((onFs p c (body c)).guard (fun s => s.permits named p c)) r
    (Leaves c r)

theorem hold_eta (r : Hold) (hc : r.claimed = none) (i : Ino) (n : ℤ) :
    {r.add i n with claimed := none} = ({r with real := r.real.add i n} : Hold) := by
  rw [Hold.add, hc]

theorem get_sound (hr : r.AtRest) (n : Uint) (hc : c = .get n) : Serves named N c p r := by
  subst hc
  apply sound_guarded (f := fun s => some (s.iget ROOTDEV n)) (k := pure)
    (Q := Leaves (.get n) r) _ (fun b r' h => sound_pure h)
  intro s ρ i fs hi hρ hp h
  simp only [Client.permits, Bool.and_eq_true, decide_eq_true_eq, Bool.or_eq_true,
    Bool.not_eq_true', bne_iff_ne] at hp
  refine ⟨_,hi.iget (fun j => by simp) hp.1 (fun hm => ?_) (Option.some.inj h),?_⟩
  · rcases hp.2 with hn | hn
    · rw [hn] at hm
      cases hm
    · exact ⟨hn.1,Or.inl hn.2⟩
  · rw [hρ]
    exact hold_eta r hr.claimed i 1

theorem dup_sound (hr : r.AtRest) (hc : c = .dup i) : Serves named N c p r := by
  subst hc
  apply sound_guarded (f := fun s => some (.ok ((),s.setRef i (s.iref i+1)))) (k := fun _ => pure i)
    (Q := fun _ => Leaves (.dup i) r i) _ (fun b r' h => sound_pure h)
  intro s ρ b fs hi hρ hp h
  cases h
  subst hρ
  simp only [Client.permits, decide_eq_true_eq, hi.known, hr.known] at hp
  refine ⟨_,hi.addRef hp (hr.outside i).1 (hr.outside i).2.1 ?_ (fun _ => ?_),rfl⟩
  · omega
  · omega

theorem Inv.alone (hi : Inv named N s ρ)
    (hl : (ρ p).real.lock i ≠ .free) (q : Procno) (hq : q ≠ p) : (ρ q).real.lock i = .free := by
  by_contra h
  exact hq ((hi.slot i).single q p h hl)

theorem setInode_self (s : State) (i : Ino) : s = s.setInode i (s.inode i) := by
  simp only [State.setInode, update_eq_self]

theorem FreesDoomed.setInode {t fs : State} {h : Hand} {x : Inode} (hfs : fs = t.setInode i x)
    (hb : x.busy = (t.inode i).busy) : FreesDoomed named h c t fs := by
  subst hfs
  refine FreesDoomed.still rfl (fun j _ h => ?_)
  simp only [State.setInode, update_apply]
  split
  · rename_i e
    rw [hb, ← e, h]
  · exact h

theorem load_sound (hl : r.real.lock i = .loading) :
    (discipline named N).Sound c p (onFs p c (perform (fun s => s.load i))) r
      (fun _ r' => r' = r.setLock i .clean) := by
  apply sound_onFs
  intro s ρ b fs hi hρ h
  subst hρ
  have hlf : (ρ p).real.lock i ≠ .free := by
    rw [hl]
    decide
  have hld : (ρ p).real.lock i ≠ .dead := by
    rw [hl]
    decide
  have hfit := (hi.slot i).held p hlf
  have hal := hi.alone hlf
  have hb := (hi.slot i).backed p hlf
  simp only [hl] at hfit
  replace h : s.fs.load i = .ok (b,fs) := Option.some.inj h
  unfold State.load at h
  dsimp only at h
  split at h
  · rename_i hv
    cases h
    exact ⟨_,hi.relock (l := .clean) (setInode_self _ i) hb hld hal rfl rfl hi.laid rfl (fun _ _ _ => rfl)
      ⟨hfit.1,hv,hfit.2 hv⟩ (fun _ e => absurd e (hfit.2 hv).2)
      (FreesDoomed.still rfl (fun _ _ h => h)),rfl⟩
  split at h
  · cases h
  rename_i ht
  cases h
  exact ⟨_,hi.relock (v := s.fs.vol) (l := .clean) rfl hb hld hal rfl rfl hi.laid rfl
    (fun _ _ _ => rfl)
    ⟨hfit.1,rfl,rfl,ht⟩ (fun _ e => absurd e ht)
    (FreesDoomed.setInode rfl rfl),rfl⟩

theorem lock_sound (hr : r.AtRest) (hc : c = .lock i) : Serves named N c p r := by
  subst hc
  apply sound_guarded (f := fun s => s.acquire i)
    (k := fun _ => perform (fun s => s.load i) >>= fun _ => pure i)
    (Q := fun _ r' => r' = r.setLock i .loading)
  · intro s ρ b fs hi hρ hp h
    subst hρ
    simp only [Client.permits, decide_eq_true_eq, hi.known, hr.known] at hp
    unfold State.acquire at h
    split at h
    · cases h
    rename_i h1
    split at h
    · cases h
    rename_i h2
    cases h
    have hfree := (hi.slot i).unlocked (Bool.eq_false_iff.mpr h2)
    have hfit := (hi.slot i).idle (by omega) hfree
    exact ⟨_,hi.relock (v := s.fs.vol) (l := .loading) rfl hp (hr.outside i).1
      (fun q _ => hfree q) rfl rfl hi.laid rfl (fun _ _ _ => rfl) ⟨rfl,hfit.2⟩
      (fun hm e => absurd e ((hi.slot i).alive hm hp (hr.outside i).1))
      (FreesDoomed.still rfl (fun j e => by cases e)),rfl⟩
  · rintro _ r' rfl
    apply sound_onFs_seq (load_sound (update_self _ _ _))
    rintro _ r' rfl
    apply sound_pure
    simp only [Leaves, Hold.setLock, after, Hand.setLock, update_idem]

theorem Inv.locked (hi : Inv named N s ρ) (hr : (ρ p).AtRest)
    (hp : (ρ p).real.lock i ≠ .free) : (s.fs.inode i).busy = true ∧ (s.fs.inode i).valid = true ∧
      (s.fs.inode i).din.type = (s.fs.vol.dinode (s.fs.inode i).inum.toNat).type ∧
      (s.fs.vol.dinode (s.fs.inode i).inum.toNat).type ≠ 0 := by
  have hfit := (hi.slot i).held p hp
  rcases hr.lock i with h | h | h
  · exact absurd h hp
  · simp only [h] at hfit
    exact ⟨hfit.1,hfit.2.1,by rw [hfit.2.2.1],hfit.2.2.2⟩
  · simp only [h] at hfit
    exact hfit

theorem modify_sound (hr : r.AtRest) {f : Edit} (hc : c = .modify i f) : Serves named N c p r := by
  subst hc
  apply sound_guarded
    (f := fun s => some (.ok ((),s.setInode i {s.inode i with din := f.fn (s.inode i).din})))
    (k := fun _ => pure i) (Q := fun _ => Leaves (.modify i f) r i) _ (fun b r' h => sound_pure h)
  intro s ρ b fs hi hρ hp h
  cases h
  subst hρ
  simp only [Client.permits, bne_iff_ne, hi.known, hr.known] at hp
  obtain ⟨h1,h2,h3,h4⟩ := hi.locked hr hp
  exact ⟨_,hi.relock (v := s.fs.vol) (l := .dirty) rfl ((hi.slot i).backed p hp) (hr.outside i).1
    (hi.alone hp) rfl rfl hi.laid rfl (fun _ _ _ => rfl) ⟨h1,h2,(f.type _).trans h3,h4⟩
    (fun _ e => absurd e h4) (FreesDoomed.still rfl (fun j e => by cases e)),rfl⟩

theorem update_sound (hr : r.AtRest) (hc : c = .update i) : Serves named N c p r := by
  subst hc
  apply sound_guarded (f := fun s => some (.ok ((),s.iupdate i))) (k := fun _ => pure i)
    (Q := fun _ => Leaves (.update i) r i) _ (fun b r' h => sound_pure h)
  intro s ρ b fs hi hρ hp h
  cases h
  subst hρ
  simp only [Client.permits, bne_iff_ne, hi.known, hr.known] at hp
  obtain ⟨h1,h2,h3,h4⟩ := hi.locked hr hp
  have hb := (hi.slot i).backed p hp
  have hlt := ((hi.slot i).place ((hi.slot i).pos hp)).2
  have ht : (s.fs.inode i).din.type ≠ 0 := by rwa [h3]
  refine ⟨_,hi.relock (l := .clean) (iupdate_eq _ i) hb (hr.outside i).1 (hi.alone hp) rfl rfl
    (hi.laid.setDinode _) rfl (fun m _ hm => dinode_setDinode_ne _ hm) ?_ ?_ ?_,rfl⟩
  · rw [dinode_setDinode]
    exact ⟨h1,h2,rfl,ht⟩
  · rw [dinode_setDinode]
    exact fun _ e => absurd e ht
  · exact FreesDoomed.rewrite hi.laid hlt ht rfl (fun j e => by cases e)

theorem unlock_sound (hr : r.AtRest) (hc : c = .unlock i) : Serves named N c p r := by
  subst hc
  apply sound_guarded (f := fun s => some (s.unlock i)) (k := fun _ => pure i)
    (Q := fun _ => Leaves (.unlock i) r i) _ (fun b r' h => sound_pure h)
  intro s ρ b fs hi hρ hp h
  subst hρ
  simp only [Client.permits, beq_iff_eq, hi.known, hr.known] at hp
  replace h : s.fs.unlock i = .ok (b,fs) := Option.some.inj h
  unfold State.unlock at h
  split at h
  · cases h
  cases h
  have hlf : (ρ p).real.lock i ≠ .free := by
    rw [hp]
    decide
  have hfit := (hi.slot i).held p hlf
  simp only [hp] at hfit
  exact ⟨_,hi.relock (v := s.fs.vol) (l := .free) rfl ((hi.slot i).backed p hlf)
    (hr.outside i).1 (hi.alone hlf) rfl rfl hi.laid rfl (fun _ _ _ => rfl)
    ⟨rfl,fun _ => hfit.2.2⟩ (fun _ e => absurd e hfit.2.2.2)
    (FreesDoomed.still rfl (fun j e => by cases e)),rfl⟩

theorem Inv.doomed (hi : Inv named N s ρ) (hc : c = .put i)
    (hl : (ρ p).real.lock i = .dying) : Doomed named c s.fs i := by
  have hlf : (ρ p).real.lock i ≠ .free := by
    rw [hl]
    decide
  have hfit := (hi.slot i).held p hlf
  simp only [hl] at hfit
  obtain ⟨h1,h2,h3,_,h5,h6⟩ := hfit
  exact ⟨hc,(hi.slot i).pos hlf,h1,h2,h3,by rw [h3, h5],h6⟩

theorem itrunc_sound (hc : c = .put i) (hl : r.real.lock i = .dying) :
    (discipline named N).Sound c p (onFs p c (perform (fun s => s.itrunc i))) r
      (fun _ r' => r' = r.setLock i .dying) := by
  apply sound_onFs
  intro s ρ b fs hi hρ h
  subst hρ
  have hlf : (ρ p).real.lock i ≠ .free := by
    rw [hl]
    decide
  have hdoom := hi.doomed hc hl
  have hfit := (hi.slot i).held p hlf
  simp only [hl] at hfit
  replace h : s.fs.itrunc i = .ok (b,fs) := Option.some.inj h
  obtain ⟨v,hv,h⟩ := bind_eq_ok.mp h
  cases h
  have hf := itruncBlocks_front hi.laid hv
  have hlt := ((hi.slot i).place hdoom.ref).2
  have ht : (s.fs.inode i).din.type ≠ 0 := by
    rw [hdoom.synced]
    exact hfit.2.2.2.1
  have hdisk : ∀ m, m < s.fs.vol.sb.ninodes → m ≠ (s.fs.inode i).inum.toNat → ∀ d,
      (v.setDinode (s.fs.inode i).inum.toNat d).dinode m = s.fs.vol.dinode m := by
    intro m h1 h2 d
    rw [dinode_setDinode_ne _ h2]
    exact hf.dinode hi.laid h1
  refine ⟨_,hi.relock (l := .dying) (store_eq _ i _) ((hi.slot i).backed p hlf)
    (by rw [hl]; decide) (hi.alone hlf) rfl rfl ((hf.laid hi.laid).setDinode _) hf.sb
    (fun m h1 h2 => hdisk m h1 h2 _) ?_ ?_ ?_,rfl⟩
  · rw [dinode_setDinode]
    exact ⟨hdoom.busy,hdoom.valid,rfl,ht,hdoom.unlinked,hdoom.alone⟩
  · rw [dinode_setDinode]
    exact fun _ e => absurd e ht
  constructor
  · intro j e h1
    cases hc.symm.trans e
    rw [hdoom.busy] at h1
    cases h1
  · intro m hm h1 h2
    rw [store_eq] at h2
    replace h2 : ((v.setDinode (s.fs.inode i).inum.toNat _).dinode m).type = 0 := h2
    by_cases e : m = (s.fs.inode i).inum.toNat
    · rw [e, dinode_setDinode] at h2
      exact absurd h2 ht
    · rw [hdisk m hm e] at h2
      exact absurd h2 h1
  · exact fun b _ _ => ⟨i,hdoom⟩

theorem free_sound (hc : c = .put i) (hl : r.real.lock i = .dying) : (discipline named N).Sound c p
      (onFs p c (assign (fun s => s.store i (fun d => {d with type := 0})))) r
      (fun _ r' => r' = r.setLock i .dead) := by
  apply sound_onFs
  intro s ρ b fs hi hρ h
  subst hρ
  have hlf : (ρ p).real.lock i ≠ .free := by
    rw [hl]
    decide
  have hdoom := hi.doomed hc hl
  cases h
  have hlt := ((hi.slot i).place hdoom.ref).2
  refine ⟨_,hi.relock (l := .dead) (store_eq _ i _) ((hi.slot i).backed p hlf)
    (by rw [hl]; decide) (hi.alone hlf) rfl rfl (hi.laid.setDinode _) rfl
    (fun m _ hm => dinode_setDinode_ne _ hm) hdoom.busy (fun hm _ => ⟨hdoom.alone hm,rfl⟩) ?_,rfl⟩
  constructor
  · intro j e h1
    cases hc.symm.trans e
    rw [hdoom.busy] at h1
    cases h1
  · intro m _ h1 h2
    dsimp only at h2
    rw [store_eq] at h2
    replace h2 : ((s.fs.vol.setDinode (s.fs.inode i).inum.toNat _).dinode m).type = 0 := h2
    by_cases e : m = (s.fs.inode i).inum.toNat
    · exact ⟨i,hdoom,e.symm⟩
    · rw [dinode_setDinode_ne _ e] at h2
      exact absurd h2 h1
  · exact fun b _ _ => ⟨i,hdoom⟩

theorem release_sound (hl : r.real.lock i = .dead) : (discipline named N).Sound c p
      (onFs p c (assign (fun s => (s.setInode i
        {s.inode i with busy := false, valid := false}).setRef i (s.iref i-1)))) r
      (fun _ r' => r' = (r.setLock i .free).add i (-1)) := by
  apply sound_onFs
  intro s ρ b fs hi hρ h
  cases h
  subst hρ
  exact ⟨_,hi.release hl,rfl⟩

theorem put_decides (hi : Inv named N s ρ) (hr : (ρ p).AtRest)
    (hp : (if (ρ p).real.lock i = .free then 0 else 1) < (ρ p).real.refs i) {b : Bool} {fs : State}
    (h : s.fs.put i = .ok (b,fs)) : Inv named N (s.did p (.put i) fs)
      (update ρ p (if b then (ρ p).setLock i .dying else (ρ p).add i (-1))) ∧
    (b = true → (ρ p).real.lock i = .free) := by
  have h1 : 1 ≤ (ρ p).real.refs i := by
    split at hp <;> omega
  unfold State.put at h
  split at h
  · rename_i hlast
    obtain ⟨h2,h3,h4⟩ := hlast
    split at h
    · cases h
    rename_i hb
    cases h
    have hfree := (hi.slot i).unlocked (Bool.eq_false_iff.mpr hb)
    have hfit := (hi.slot i).idle (by omega) hfree
    obtain ⟨h5,h6⟩ := hfit.2 h3
    have h7 := (hi.slot i).le p
    refine ⟨?_,fun _ => hfree p⟩
    refine hi.relock (v := s.fs.vol) (l := .dying) rfl h1 (hr.outside i).1
      (fun q _ => hfree q) rfl rfl hi.laid rfl (fun _ _ _ => rfl)
      ⟨rfl,h3,h5,h6,?_,fun _ => h2⟩ (fun _ e => absurd e h6) ?_
    · rw [← h5]
      exact h4
    constructor
    · intro j e _ _
      cases e
      rw [hi.known, hr.known]
      exact ⟨h2,by omega,h3,h5,h4⟩
    · intro m _ h8 h9
      exact absurd h9 h8
    · intro k h8 h9
      exact absurd (h8.symm.trans h9) (by decide)
  · cases h
    refine ⟨?_,fun e => by cases e⟩
    refine hi.addRef (k := -1) h1 (hr.outside i).1 (hr.outside i).2.1 (by omega) (fun hl => ?_)
    rw [if_neg hl] at hp
    omega

theorem put_sound (hr : r.AtRest) (hc : c = .put i) : Serves named N c p r := by
  subst hc
  apply sound_guarded (f := fun s => some (s.put i)) (k := fun last => (if last then (do
      perform (fun s => s.itrunc i)
      assign (fun s => s.store i (fun d => {d with type := 0}))
      assign (fun s =>
        (s.setInode i {s.inode i with busy := false, valid := false}).setRef i (s.iref i-1)))
      else pure ()) >>= fun _ => pure i)
    (Q := fun b r' => r' = (if b then r.setLock i .dying else r.add i (-1)) ∧
      (b = true → r.real.lock i = .free))
  · intro s ρ b fs hi hρ hp h
    subst hρ
    simp only [Client.permits, decide_eq_true_eq, hi.known, hr.known] at hp
    obtain ⟨h1,h2⟩ := put_decides hi hr hp (Option.some.inj h)
    exact ⟨_,h1,rfl,h2⟩
  rintro b r' ⟨rfl,hfree⟩
  cases b with
  | false => exact sound_pure rfl
  | true =>
    apply sound_onFs_seq (Q := fun _ r' => r' = r.add i (-1)) _ (fun _ r' h => h ▸ sound_pure rfl)
    apply sound_onFs_seq (itrunc_sound rfl (update_self _ _ _))
    rintro _ r₁ rfl
    apply sound_onFs_seq (free_sound rfl (update_self _ _ _))
    rintro _ r₂ rfl
    apply sound_mono (release_sound (update_self _ _ _))
    rintro _ r₃ rfl
    have := hfree rfl
    simp only [Hold.setLock, Hold.add, Hand.setLock, Hand.add, update_idem, ← this,
      update_eq_self, if_true]

theorem Inv.looked (hi : Inv named N s ρ) : Inv named N (s.did p c s.fs) (update ρ p (ρ p)) := by
  rw [update_eq_self]
  refine ⟨hi.laid,hi.ninodes,hi.known,hi.slot,hi.unique,hi.claim,?_⟩
  intro q c' t h
  cases h
  exact FreesDoomed.still rfl (fun _ _ h => h)

theorem iallocFrom_sound (hc : ∀ j, c ≠ .put j) (hr : r.claimed = none) (ht : t ≠ 0)
    (l : List ℕ) (hl : ∀ n ∈ l, n < N) :
    (discipline named N).Sound c p (onFs p c (iallocFrom ROOTDEV t l)) r
      (fun i r' => r' = r.add i 1) := by
  induction l with
  | nil => exact sound_fail
  | cons n l ih =>
    have hn := hl n (List.mem_cons_self ..)
    apply sound_onFs_seq (Q := fun b r' => r' = if b then {r with claimed := some n} else r)
    · apply sound_onFs
      intro s ρ b fs hi hρ h
      subst hρ
      have hn' : n < s.fs.vol.sb.ninodes := by rwa [hi.ninodes]
      replace h : s.fs.claim n t = (b,fs) := Except.ok.inj (Option.some.inj h)
      unfold State.claim at h
      split at h
      · rename_i hfree
        cases h
        exact ⟨_,hi.claimed hn' ht hfree hr,rfl⟩
      · cases h
        exact ⟨_,hi.looked,rfl⟩
    rintro b r' rfl
    cases b with
    | false => exact ih (fun m hm => hl m (List.mem_cons_of_mem _ hm))
    | true =>
      apply sound_onFs
      intro s ρ i fs hi hρ h
      have hn32 : (BitVec.ofNat 32 n).toNat = n := by
        have := hi.laid.ninodes_lt
        rw [hi.ninodes] at this
        simp only [BitVec.toNat_ofNat]
        omega
      have hcl : (ρ p).claimed = some n := by rw [hρ, if_pos rfl]
      refine ⟨_,hi.iget hc (by rw [hn32, hi.ninodes]; exact hn) (fun hm => ?_)
        (Option.some.inj h),?_⟩
      · rw [hn32]
        exact ⟨(hi.claim hm p n hcl).type,Or.inr hcl⟩
      · rw [hρ]
        simp only [Hold.add, hr, if_true]

theorem alloc_sound (hr : r.AtRest) (hc : c = .alloc t) : Serves named N c p r := by
  subst hc
  apply sound_guarded (f := fun s => some (.ok (s.vol.sb.ninodes,s)))
    (k := fun n => iallocFrom ROOTDEV t (List.range' 1 (n-1)))
    (Q := fun n r' => r' = r ∧ n = N ∧ t ≠ 0)
  · intro s ρ n fs hi hρ hp h
    cases h
    subst hρ
    simp only [Client.permits, bne_iff_ne] at hp
    exact ⟨_,hi.looked,rfl,hi.ninodes,hp⟩
  rintro n r' ⟨rfl,rfl,ht⟩
  apply iallocFrom_sound (fun j => by simp) hr.claimed ht
  intro m hm
  rw [List.mem_range'_1] at hm
  omega

theorem Inv.note (hi : Inv named N s ρ) (h : Hand) :
    Inv named N (s.note p h) (update ρ p {ρ p with known := h}) := by
  have hreal : ∀ q, (update ρ p {ρ p with known := h} q).real = (ρ q).real ∧
      (update ρ p {ρ p with known := h} q).claimed = (ρ q).claimed := by
    intro q
    rw [update_apply]
    split
    · rename_i e
      rw [e]
      exact ⟨rfl,rfl⟩
    · exact ⟨rfl,rfl⟩
  constructor
  · exact hi.laid
  · exact hi.ninodes
  · intro q
    simp only [Client.note, update_apply]
    split
    · rfl
    · exact hi.known q
  · intro i
    simp only [hreal]
    exact hi.slot i
  · exact hi.unique
  · intro hm q n hq
    rw [(hreal q).2] at hq
    obtain ⟨h1,h2,h3,h4,h5⟩ := hi.claim hm q n hq
    refine ⟨h1,h2,h3,fun z hz => h4 z ((hreal z).2 ▸ hz),fun j hj hn => ?_⟩
    obtain ⟨h6,z,hz⟩ := h5 j hj hn
    exact ⟨h6,z,by rw [(hreal z).1, hz]⟩
  · intro q c t e
    cases e

theorem body_sound (hr : r.AtRest) : Serves named N c p r := by
  cases c with
  | get n => exact get_sound hr n rfl
  | alloc t => exact alloc_sound hr rfl
  | dup i => exact dup_sound hr rfl
  | lock i => exact lock_sound hr rfl
  | modify i f => exact modify_sound hr rfl
  | update i => exact update_sound hr rfl
  | unlock i => exact unlock_sound hr rfl
  | put i => exact put_sound hr rfl

theorem after_lock (h : Hand) (hl : ∀ i, h.lock i = .free ∨ h.lock i = .clean ∨ h.lock i = .dirty)
    (c : Op) (i j : Ino) : (after c i h).lock j = .free ∨ (after c i h).lock j = .clean ∨
      (after c i h).lock j = .dirty := by
  have hset : ∀ l, l = .free ∨ l = .clean ∨ l = .dirty → (h.setLock i l).lock j = .free ∨
      (h.setLock i l).lock j = .clean ∨ (h.setLock i l).lock j = .dirty := by
    intro l h1
    simp only [Hand.setLock, update_apply]
    split
    · exact h1
    · exact hl j
  cases c with
  | lock | modify | update | unlock => exact hset _ (by simp)
  | _ => exact hl j

theorem machine_follows (named : Bool) (N : ℕ) :
    Follows (discipline named N) (machine named) (fun _ => True) where
  enabled _ _ _ := trivial
  code p c r _ hr := by
    refine ⟨trivial,sound_seq (body_sound hr) ?_⟩
    rintro i r₁ rfl
    refine sound_seq (Q := fun _ r' => r'.AtRest) ?_ (fun _ r' h => sound_pure h)
    apply sound_atom
    intro s ρ b s' hi _ hρ hf
    cases hf
    refine ⟨fun _ h => h,_,hi.note _,trivial,?_⟩
    rw [hi.known, hρ]
    refine ⟨?_,hr.claimed,after_lock _ hr.lock c i⟩
    rw [hr.known]
  leave p c s ρ hi _ hr := ⟨ρ,hi,hr,fun _ _ => ⟨fun h => h,Or.inl rfl⟩⟩

end Yeet.Icache
