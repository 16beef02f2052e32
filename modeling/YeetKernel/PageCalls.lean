import YeetKernel.PageSpaceSound

/-!
# The calls follow the discipline

Processes are made, grown, replaced, ended and reaped; pipes are made and
closed; user code stores into its memory. Each of the calls ends with nothing
but pages in the hands of its process.
-/

namespace Yeet.Vm
open Yeet.Kernel Bytes Threads Function
open StateLists (Slot)

variable {im : Image} {c : Call} {p : Owner} {q : Slot} {r : Hold} {b : Bool} {d : Page}

theorem kernbase_pos : 0 < KERNBASE := Nat.zero_lt_succ _

theorem rest_iff (r : Hold) : r.shape.rest ↔ r.new = none ∧ r.kid = none ∧ r.reap = none := by
  simp [Shape.rest, Hold.shape]

theorem live_setStage {s s' : State} {z : Slot} {t : Stage} (hz : s.stage z ≠ .alive)
    (hs : s'.stage = update s.stage z t) (o : Owner) (ho : live s o = true) : live s' o = true := by
  cases o with
  | none => rfl
  | some o =>
    have hne : o ≠ z := by
      rintro rfl
      exact hz (by simpa [live] using ho)
    simpa [live, hs, update_of_ne hne] using ho

section Slots

theorem getPgdir_sound : (discipline im).Sound c (some q) (getPgdir q) r
    (fun d r' => r' = r ∧ HasSpace false d r) := by
  refine sound_atom (fun s ρ d s' hi hl hr hf => ?_)
  have hal : s.stage q = .alive := by simpa [discipline, live] using hl
  split at hf
  · cases hf
  rename_i d' hd
  cases hf
  refine ⟨fun _ h => h,r,hi.same hr,trivial,rfl,?_⟩
  have ho := (hi.slots.image q hal).2.trans hd
  rw [show (ρ (some q)).shape.own = (ρ (some q)).own.map Space.root from rfl, hr] at ho
  obtain ⟨sp,h1,h2⟩ := Option.map_eq_some_iff.mp ho
  exact ⟨sp,h1,h2,(hi.spaces.whole (some q) false sp (hr ▸ h1)).1 rfl⟩

theorem getSz_sound : (discipline im).Sound c (some q) (getSz q) r
    (fun z r' => r' = r ∧ z < KERNBASE) := by
  refine sound_fetch (fun s ρ hi hl hr => ⟨rfl,hi.slots.small q ?_⟩)
  simpa [live] using hl

theorem setSz_sound {z : ℕ} (hz : z < KERNBASE) :
    (discipline im).Sound c p (setSz q z) r (fun _ r' => r' = r) := by
  exact sound_assign (fun s ρ hi _ hr => ⟨rfl,r,(setSz_inv hi hz).same hr,rfl⟩)

theorem takeSlot_sound (hr : r.reap = none) (n : ℕ) :
    (discipline im).Sound c p (takeSlot n) r (fun o r' => match o with
      | none => r' = r
      | some z => r' = {r with kid := some z, bare := true}) := by
  refine sound_atom (fun s ρ o s' hi hl hρ hf => ?_)
  have hsame := hi.same hρ
  split at hf
  · rename_i hn
    split at hf
    · rename_i hu
      cases hf
      subst hρ
      exact ⟨live_setStage (by simp [hu]) rfl,_,takeSlot_inv hi hl hr hu,trivial,rfl⟩
    · cases hf
      exact ⟨fun _ h => h,r,hsame,trivial,rfl⟩
  · cases hf
    exact ⟨fun _ h => h,r,hsame,trivial,rfl⟩

theorem giveBack_sound (hk : r.kid = some q) (hb : r.bare = true) :
    (discipline im).Sound c p (setStage q .unused) r (fun _ r' => r' = {r with kid := none}) := by
  refine sound_atom (fun s ρ o s' hi hl hρ hf => ?_)
  cases hf
  subst hρ
  have hst := (hi.slots.kid p q hk).1
  exact ⟨live_setStage (by simp [hst]) rfl,_,giveBack_inv hi hk hb,trivial,rfl⟩

theorem setKstack_sound {g : Page} (hg : g ∈ r.hand) (hk : r.kid = some q) (hb : r.bare = true) :
    (discipline im).Sound c p (setKstack q g) r
      (fun _ r' => r' = {r.drop g with bare := false}) := by
  refine sound_assign (fun s ρ hi _ hr => ⟨rfl,_,?_,rfl⟩)
  subst hr
  exact setStack_inv hi hg hk hb

theorem allocproc_sound (hk : r.kid = none) (hr : r.reap = none) :
    (discipline im).Sound c p allocproc r (fun o r' => r'.kid = o ∧ r'.own = r.own ∧
      r'.new = r.new ∧ r'.reap = none ∧ r'.upto = r.upto) := by
  refine choose_seq (fun n => ?_)
  refine sound_seq (takeSlot_sound hr n) (fun o r₁ ho => ?_)
  cases o with
  | none =>
    obtain rfl := ho
    exact sound_pure ⟨hk,rfl,rfl,hr,rfl⟩
  | some z =>
    obtain rfl := ho
    refine kalloc_seq ?_ (fun g => ?_)
    · refine sound_then (giveBack_sound rfl rfl) (fun _ => ?_)
      exact sound_pure ⟨rfl,rfl,rfl,hr,rfl⟩
    · refine sound_then (setKstack_sound (by simp [Hold.take]) rfl rfl) (fun _ => ?_)
      exact sound_pure ⟨rfl,rfl,rfl,hr,rfl⟩

theorem freeStack_sound (hk : r.kid = some q ∧ r.reap = none ∨ r.reap = some q ∧ r.kid = none) :
    (discipline im).Sound c p (freeStack im q) r (fun _ r' => r' = {r with bare := true}) := by
  refine sound_atom (fun s ρ o s' hi hl hρ hf => ?_)
  subst hρ
  have hst : s.stage q ≠ .unused := by
    rcases hk with ⟨hk,_⟩ | ⟨hk,_⟩
    · simp [(hi.slots.kid p q hk).1]
    · simp [(hi.slots.reap p q hk).1]
  have hz : ∀ z, (ρ p).kid = some z ∨ (ρ p).reap = some z → z = q := by
    rintro z (h | h) <;> rcases hk with ⟨h1,h2⟩ | ⟨h1,h2⟩ <;> simp_all
  rw [Option.some.injEq, map_eq_ok] at hf
  obtain ⟨s₁,hs₁,hf⟩ := hf
  cases hf
  simp only [State.freeStack] at hs₁
  split at hs₁
  · cases hs₁
  rename_i g hg
  rw [map_eq_ok] at hs₁
  obtain ⟨s₂,hs₂,rfl⟩ := hs₁
  simp only [State.kfree] at hs₂
  split at hs₂
  · cases hs₂
    have h1 := takeStack_inv hi hg hst hz
    have h2 := kfree_inv (p := p) h1 (g := g) (by simp)
    rw [update_self, update_idem] at h2
    exact ⟨live_of_stage rfl,_,h2,trivial,by simp [Hold.drop]⟩
  · cases hs₂

theorem adopt_sound (hk : r.kid = some q) (hn : HasSpace true d r) {sz : ℕ} (hz : sz < KERNBASE)
    (parent : Slot) : (discipline im).Sound c p (adopt p q d sz parent) r
      (fun _ r' => r' = {r with new := none, kid := none}) := by
  refine sound_act (fun s ρ o s' hi hl hρ hf => ?_)
  cases hf
  subst hρ
  obtain ⟨sp,h1,rfl,h3⟩ := hn
  have hst := (hi.slots.kid p q hk).1
  refine ⟨_,adopt_inv hi hl hk h1 h3 hz _,?_,keeps_give ?_ ?_ ?_,trivial,by rw [update_self]⟩
  · exact live_setStage (t := .alive) (by simp [hst]) rfl p hl
  · exact live_setStage (t := .alive) (by simp [hst]) rfl
  · simp [discipline, live, hst]
  · exact hi.slots.idle q (by simp [hst])

end Slots

section Calls

theorem fork_sound (h : r.shape.rest) :
    (discipline im).Sound c (some q) (fork im q) r (fun _ r' => r'.shape.rest) := by
  obtain ⟨h1,h2,h3⟩ := (rest_iff r).mp h
  refine sound_seq (allocproc_sound h2 h3) ?_
  rintro o r₁ ⟨hk,ho,hn,hr,-⟩
  cases o with
  | none => exact sound_pure ((rest_iff r₁).mpr ⟨hn.trans h1,hk,hr⟩)
  | some np =>
    refine sound_seq getPgdir_sound ?_
    rintro pgdir r' ⟨rfl,hown⟩
    refine sound_seq getSz_sound ?_
    rintro sz r₂ ⟨rfl,hsz⟩
    refine sound_seq (copyuvm_sound hown (hn.trans h1) hsz) ?_
    rintro (_ | d) r₃ ⟨hnew,hag⟩
    · refine sound_then (freeStack_sound (Or.inl ⟨hag.kid.trans hk,hag.reap.trans hr⟩)) (fun _ => ?_)
      refine sound_then (giveBack_sound (q := np) (hag.kid.trans hk) rfl) (fun _ => ?_)
      exact sound_pure ((rest_iff _).mpr ⟨hnew,rfl,hag.reap.trans hr⟩)
    · refine sound_then (adopt_sound (hag.kid.trans hk) hnew hsz q) (fun _ => ?_)
      exact sound_pure ((rest_iff _).mpr ⟨rfl,rfl,hag.reap.trans hr⟩)

theorem rest_of_agree {r r' : Hold} (h : r.shape.rest) (ha : Agree false r r') : r'.shape.rest := by
  obtain ⟨h1,h2,h3⟩ := (rest_iff r).mp h
  exact (rest_iff r').mpr ⟨ha.other.trans h1,ha.kid.trans h2,ha.reap.trans h3⟩

theorem growproc_sound (h : r.shape.rest) (n : ℤ) :
    (discipline im).Sound c (some q) (growproc im q n) r (fun _ r' => r'.shape.rest) := by
  refine sound_seq getSz_sound ?_
  rintro sz r' ⟨rfl,hsz⟩
  refine sound_seq getPgdir_sound ?_
  rintro d r₁ ⟨rfl,hd⟩
  split
  · refine sound_seq (allocuvm_sound hd (fun _ => hsz)) ?_
    rintro z r₂ ⟨-,hag,hz⟩
    split
    · exact sound_pure (rest_of_agree h hag)
    · refine sound_then (setSz_sound hz) (fun _ => ?_)
      exact sound_pure (rest_of_agree h hag)
  split
  · refine sound_seq (deallocuvm_sound hd hsz.le) ?_
    rintro z r₂ ⟨rfl,hz⟩
    split
    · exact sound_pure h
    · refine sound_then (setSz_sound (by omega)) (fun _ => ?_)
      exact sound_pure h
  · refine sound_then (setSz_sound hsz) (fun _ => ?_)
    exact sound_pure h

theorem loadLoop_sound (phs : List Proghdr) : ∀ sz r, HasSpace b d r → sz < KERNBASE →
    (discipline im).Sound c p (loadLoop im d phs sz) r (fun o r' => HasSpace b d r' ∧ Agree b r r' ∧
      ∀ z, o = some z → z < KERNBASE) := by
  have hnone : ∀ z, (none : Option ℕ) = some z → z < KERNBASE := fun z e => by cases e
  induction phs with
  | nil =>
    refine fun sz r h hz => sound_pure ⟨h,Agree.refl b r,fun z e => ?_⟩
    cases e
    exact hz
  | cons ph phs ih =>
    intro sz r h hz
    refine choose_seq (fun n => ?_)
    split
    · exact sound_pure ⟨h,Agree.refl b _,hnone⟩
    split
    · exact ih sz r h hz
    split
    · exact sound_pure ⟨h,Agree.refl b _,hnone⟩
    refine sound_seq (allocuvm_sound h (fun _ => hz)) ?_
    rintro z r₁ ⟨h1,h2,h3⟩
    split
    · exact sound_pure ⟨h1,h2,hnone⟩
    refine choose_seq (fun m => ?_)
    split
    · exact sound_pure ⟨h1,h2,hnone⟩
    · refine sound_mono (ih z r₁ h1 h3) ?_
      rintro o r₃ ⟨h4,h5,h6⟩
      exact ⟨h4,h2.trans h5,h6⟩

theorem bad_sound (h : HasSpace true d r) (hk : r.kid = none) (hr : r.reap = none) :
    (discipline im).Sound c (some q) (bad im q d) r (fun _ r' => r'.shape.rest) := by
  refine sound_seq (freevm_sound h) ?_
  rintro _ r₁ ⟨h1,h2⟩
  exact sound_pure ((rest_iff r₁).mpr ⟨h1,h2.kid.trans hk,h2.reap.trans hr⟩)

theorem commit_sound (h : HasSpace true d r) {sz : ℕ} (hz : sz < KERNBASE) :
    (discipline im).Sound c (some q) (commit q d sz) r (fun d' r' => HasSpace true d' r' ∧
      r'.kid = r.kid ∧ r'.reap = r.reap) := by
  refine sound_atom (fun s ρ o s' hi hl hρ hf => ?_)
  subst hρ
  have hal : s.stage q = .alive := by simpa [discipline, live] using hl
  split at hf
  · cases hf
  rename_i d' hd
  cases hf
  obtain ⟨sp,h1,rfl,h3⟩ := h
  have ho := (hi.slots.image q hal).2.trans hd
  obtain ⟨sp',h4,h5⟩ := Option.map_eq_some_iff.mp ho
  exact ⟨live_of_stage rfl,_,commit_inv hi hal h1 h3 hd hz,trivial,
    ⟨sp',h4,h5,(hi.spaces.whole (some q) false sp' h4).1 rfl⟩,rfl,rfl⟩

theorem exec_sound (h : r.shape.rest) (phs : List Proghdr) :
    (discipline im).Sound c (some q) (exec im q phs) r (fun _ r' => r'.shape.rest) := by
  obtain ⟨h1,h2,h3⟩ := (rest_iff r).mp h
  refine choose_seq (fun n => ?_)
  split
  · exact sound_pure h
  refine sound_seq (setupkvm_sound h1) ?_
  rintro (_ | d) r₁ ⟨hn,hag⟩
  · exact sound_pure ((rest_iff r₁).mpr ⟨hn,hag.kid.trans h2,hag.reap.trans h3⟩)
  refine sound_seq (loadLoop_sound phs 0 r₁ hn kernbase_pos) (fun o r₂ hload => ?_)
  obtain ⟨hn2,hag2,hz2⟩ := hload
  cases o with
  | none =>
    have ha := hag.trans hag2
    exact bad_sound hn2 (ha.kid.trans h2) (ha.reap.trans h3)
  | some sz =>
    have hsz : sz < KERNBASE := hz2 sz rfl
    dsimp only
    refine sound_seq (allocuvm_sound hn2 ?_) ?_
    · simp only [pgroundup, PGSIZE, KERNBASE] at *
      omega
    rintro z r₃ ⟨hn3,hag3,hz3⟩
    have ha := (hag.trans hag2).trans hag3
    split
    · exact bad_sound hn3 (ha.kid.trans h2) (ha.reap.trans h3)
    refine sound_then (clearpteu_sound hn3 _) (fun _ => ?_)
    refine choose_seq (fun m => ?_)
    split
    · exact bad_sound hn3 (ha.kid.trans h2) (ha.reap.trans h3)
    refine sound_seq (commit_sound hn3 hz3) ?_
    rintro d' r₆ ⟨hn6,hk6,hr6⟩
    refine sound_seq (freevm_sound hn6) ?_
    rintro _ r₇ ⟨hn7,hag7⟩
    refine sound_pure ((rest_iff r₇).mpr ⟨hn7,?_,?_⟩)
    · rw [hag7.kid, hk6, ha.kid, h2]
    · rw [hag7.reap, hr6, ha.reap, h3]

theorem findZombie_sound (hk : r.kid = none) (n : ℕ) :
    (discipline im).Sound c (some q) (findZombie q n) r (fun o r' => match o with
      | none => r' = r
      | some x => r'.reap = some x.1 ∧ r'.kid = none ∧ ∀ d, x.2 = some d → HasSpace true d r') := by
  refine sound_act (fun s ρ o s' hi hl hρ hf => ?_)
  have hsame : ∃ ρ', Inv im s ρ' ∧ live s (some q) = true ∧
      (discipline im).Keeps (some q) s s ρ ρ' ∧ True ∧ ρ' (some q) = r :=
    ⟨ρ,hi,hl,fun z _ => ⟨id,Or.inl rfl⟩,trivial,hρ⟩
  split at hf
  · rename_i hfree
    split at hf
    · rename_i hn
      split at hf
      · rename_i hz
        cases hf
        subst hρ
        have hown := (hi.slots.corpse ⟨n,hn⟩ hz.1 (by simp [hfree])).2
        refine ⟨_,findZombie_inv hi hl hz.1 hfree,hl,keeps_give (fun _ h => h) ?_ ?_,trivial,?_⟩
        · simp [discipline, live, hz.1]
        · exact hi.slots.idle _ (by simp [hz.1])
        rw [update_self]
        refine ⟨rfl,hk,fun d hd => ?_⟩
        obtain ⟨sp,h3,h4⟩ := Option.map_eq_some_iff.mp (hown.trans hd)
        exact ⟨sp,h3,h4,(hi.spaces.whole _ false sp h3).1 rfl⟩
      · cases hf
        exact hsame
    · cases hf
      exact hsame
  · cases hf

theorem reaped_sound (hk : r.reap = some q) (hb : r.bare = true) :
    (discipline im).Sound c p (reaped q) r (fun _ r' => r' = {r with reap := none}) := by
  refine sound_atom (fun s ρ o s' hi hl hρ hf => ?_)
  cases hf
  subst hρ
  have hst := (hi.slots.reap p q hk).1
  exact ⟨live_setStage (t := .unused) (by simp [hst]) rfl,_,reaped_inv hi hk hb _,trivial,rfl⟩

theorem wait_sound (h : r.shape.rest) :
    (discipline im).Sound c (some q) (wait im q) r (fun _ r' => r'.shape.rest) := by
  obtain ⟨h1,h2,h3⟩ := (rest_iff r).mp h
  refine choose_seq (fun n => ?_)
  refine sound_seq (findZombie_sound h2 n) (fun o r₁ ho => ?_)
  cases o with
  | none =>
    obtain rfl := ho
    exact sound_pure h
  | some x =>
    obtain ⟨z,o⟩ := x
    obtain ⟨hr,hk,hd⟩ := ho
    cases o with
    | none => exact sound_seq (freeStack_sound (Or.inr ⟨hr,hk⟩)) (fun _ _ _ => sound_fail)
    | some d =>
      refine sound_then (freeStack_sound (Or.inr ⟨hr,hk⟩)) (fun _ => ?_)
      refine sound_seq (freevm_sound (hd d rfl)) ?_
      rintro _ r₃ ⟨h4,h5⟩
      refine sound_then (reaped_sound (h5.reap.trans hr) h5.bare) (fun _ => ?_)
      exact sound_pure ((rest_iff _).mpr ⟨h4,h5.kid.trans hk,rfl⟩)

theorem exit_sound (h : r.shape.rest) :
    (discipline im).Sound c (some q) (exit q) r (fun _ r' => r'.shape.rest) := by
  refine sound_atom (fun s ρ o s' hi hl hρ hf => ?_)
  split at hf
  · cases hf
  · cases hf
    exact ⟨fun _ hz => hz,r,hi.same hρ,trivial,h⟩

theorem pipe_sound (h : r.shape.rest) :
    (discipline im).Sound c p (pipe im) r (fun _ r' => r'.shape.rest) := by
  refine choose_seq (fun n => ?_)
  split
  · exact sound_pure h
  refine kalloc_seq (sound_pure h) (fun g => ?_)
  refine choose_seq (fun m => ?_)
  have hg : g ∈ (r.take g).hand := by simp [Hold.take]
  split
  · exact sound_then (kfree_sound hg) (fun _ => sound_pure h)
  refine sound_then (l := fun _ => (r.take g).drop g)
    (sound_assign (fun s ρ hi _ hρ => ⟨rfl,_,?_,rfl⟩)) (fun _ => sound_pure h)
  rw [← hρ] at hg ⊢
  exact addPipe_inv hi hg

theorem close_page (pi : Pipe) (w : Bool) : (pi.close w).page = pi.page := by
  cases w <;> rfl

theorem pipeclose_sound (h : r.shape.rest) (k : ℕ) (w : Bool) :
    (discipline im).Sound c p (pipeclose im k w) r (fun _ r' => r'.shape.rest) := by
  refine sound_atom (fun s ρ o s' hi hl hρ hf => ?_)
  split at hf
  · cases hf
  rename_i pi hp
  split at hf
  · cases hf
  split at hf
  · rw [Option.some.injEq, map_eq_ok] at hf
    obtain ⟨s₁,hs₁,hf⟩ := hf
    cases hf
    simp only [State.kfree] at hs₁
    split at hs₁
    · cases hs₁
      exact ⟨live_of_stage rfl,r,(closePipe_inv hi hp).same hρ,trivial,h⟩
    · cases hs₁
  · cases hf
    exact ⟨live_of_stage rfl,r,(setPipe_inv hi hp (close_page pi w)).same hρ,trivial,h⟩

theorem bit_of_mask {w mask : Uint} (h : w &&& mask = mask) {i : ℕ}
    (hi : mask.getLsbD i = true) : w.getLsbD i = true := by
  have := congrArg (fun v => v.getLsbD i) h
  simpa [hi] using this

variable {ρ : Owner → Hold}

theorem translate_frame {s : State} (hi : Inv im s ρ)
    (h : HasSpace false d (ρ p)) {mask : Uint} (h0 : mask.getLsbD 0 = true)
    (h2 : mask.getLsbD 2 = true) {va : ℕ} {g : Page} (ht : s.translate d va mask = some g) :
    pdx va < NPDENTRIES/2 ∧ ∃ t, tabOf ((ρ p).space false) (pdx va) = some t ∧
      s.target t (ptx va) = some g := by
  rw [State.translate] at ht
  split at ht
  · rename_i hpde
    split at ht
    · rename_i hpte
      obtain rfl := Option.some.inj ht
      have htab : tabOf ((ρ p).space false) (pdx va) = some (pteAddr (s.pte d (pdx va))) := by
        rw [h.reads hi (pdx_lt va), State.target, if_pos]
        rw [present_eq]
        exact bit_of_mask hpde h0
      have hpr : present (s.pte (pteAddr (s.pte d (pdx va))) (ptx va)) = true := by
        rw [present_eq]
        exact bit_of_mask hpte h0
      refine ⟨?_,_,htab,by rw [State.target, if_pos hpr]⟩
      by_contra hk
      have := hi.spaces.kernel p false (pdx va) _ htab (Nat.not_lt.mp hk) (ptx va) (ptx_lt va) hpr
      rw [userBit_eq, bit_of_mask hpte h2] at this
      cases this
    · cases ht
  · cases ht

theorem hasSpace_alive {s : State} (hi : Inv im s ρ) (hal : s.stage q = .alive)
    (hd : s.pgdir q = some d) : HasSpace false d (ρ (some q)) := by
  have ho := (hi.slots.image q hal).2.trans hd
  obtain ⟨sp,h1,h2⟩ := Option.map_eq_some_iff.mp ho
  exact ⟨sp,h1,h2,(hi.spaces.whole (some q) false sp h1).1 rfl⟩

theorem store_sound (h : r.shape.rest) (va : ℕ) (v : Byte) :
    (discipline im).Sound c (some q) (store q va v) r (fun _ r' => r'.shape.rest) := by
  refine sound_atom (fun s ρ o s' hi hl hρ hf => ?_)
  have hal : s.stage q = .alive := by simpa [discipline, live] using hl
  split at hf
  · cases hf
    exact ⟨fun _ hz => hz,r,hi.same hρ,trivial,h⟩
  rename_i g hg
  cases hf
  obtain ⟨d,hd,ht⟩ := Option.bind_eq_some_iff.mp hg
  obtain ⟨hlt,t,htab,htar⟩ := translate_frame hi (hasSpace_alive hi hal hd) (by decide) (by decide) ht
  have hmem : g ∈ ledger s ρ (.inl (.frame (some q) false (pdx va) (ptx va))) := by
    rw [ledger_entry htab hlt (ptx_lt va), htar]
    simp
  exact ⟨live_of_stage rfl,r,(fill_inv hi hmem trivial _).same hρ,trivial,h⟩

end Calls

end Yeet.Vm
