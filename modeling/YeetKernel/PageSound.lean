import YeetKernel.PageSlots

/-!
# Address spaces follow the discipline

The routines of `vm.c` are sound: whatever other processes do between their
actions, they keep the places of the pages, and they leave the holding of
their process as it was but for the pages in hand and the one address space
they work on.
-/

namespace Yeet.Vm
open Yeet.Kernel Bytes Resumption Threads Function
open StateLists (Slot)

def discipline (im : Image) : Discipline State Owner Call Hold where
  Inv := Inv im
  live := fun s p => live s p = true
  rest := fun r => r.shape.rest
  during := fun _ _ => True
  final := fun _ r => r.shape.rest

def HasSpace (b : Bool) (d : Page) (r : Hold) : Prop :=
  ∃ sp, r.space b = some sp ∧ sp.root = d ∧ sp.whole = true

structure Agree (b : Bool) (r r' : Hold) : Prop where
  other : r'.space (!b) = r.space (!b)
  kid : r'.kid = r.kid
  reap : r'.reap = r.reap
  bare : r'.bare = r.bare
  upto : r'.upto = r.upto

theorem Agree.refl (b : Bool) (r : Hold) : Agree b r r := ⟨rfl,rfl,rfl,rfl,rfl⟩

variable {b : Bool}

theorem Agree.trans {r r' r'' : Hold} (h : Agree b r r') (h' : Agree b r' r'') : Agree b r r'' :=
  ⟨h'.other.trans h.other,h'.kid.trans h.kid,h'.reap.trans h.reap,h'.bare.trans h.bare,
    h'.upto.trans h.upto⟩

theorem Agree.setSpace (b : Bool) (r : Hold) (o : Option Space) : Agree b r (r.setSpace o b) :=
  ⟨r.space_setSpace_ne o (by cases b <;> simp),by simp,by simp,by simp,by simp⟩

theorem Agree.ofHand {r r' : Hold} (h : ∀ c, r'.space c = r.space c)
    (hk : r'.kid = r.kid) (hr : r'.reap = r.reap) (hb : r'.bare = r.bare)
    (hu : r'.upto = r.upto) : Agree b r r' :=
  ⟨h _,hk,hr,hb,hu⟩

def Hold.take (r : Hold) (g : Page) : Hold := {r with hand := g::r.hand}

@[simp] theorem Hold.space_take (r : Hold) (g : Page) (b : Bool) : (r.take g).space b = r.space b := by
  cases b <;> rfl

theorem Agree.ofTake (r : Hold) (g : Page) : Agree b r (r.take g) :=
  Agree.ofHand (Hold.space_take r g) rfl rfl rfl rfl

variable {im : Image} {c : Call} {p : Owner} {r : Hold} {b : Bool} {d : Page}

section Actions

variable {β : Type} {s : State} {ρ : Owner → Hold} {Q : Unit → Hold → Prop} {g : Page} {i : ℕ}

theorem Inv.same (hi : Inv im s ρ) (hr : ρ p = r) : Inv im s (update ρ p r) := by
  rw [← hr, update_eq_self]
  exact hi

theorem live_of_stage {s s' : State} (h : s'.stage = s.stage) (q : Owner) (hq : live s q = true) :
    live s' q = true := by
  cases q with
  | none => rfl
  | some q => simpa [live, h] using hq

theorem sound_assign {f : State → State}
    (h : ∀ s ρ, Inv im s ρ → live s p = true → ρ p = r → (f s).stage = s.stage ∧
      ∃ r', Inv im (f s) (update ρ p r') ∧ Q () r') :
    (discipline im).Sound c p (assign f : VmProg Unit) r Q := by
  refine sound_atom (fun s ρ u s' hi hl hr hf => ?_)
  cases hf
  obtain ⟨h1,r',h2,h3⟩ := h s ρ hi hl hr
  exact ⟨live_of_stage h1,r',h2,trivial,h3⟩

theorem sound_fetch {f : State → β} {Q : β → Hold → Prop}
    (h : ∀ s ρ, Inv im s ρ → live s p = true → ρ p = r → Q (f s) r) :
    (discipline im).Sound c p (fetch f : VmProg β) r Q := by
  refine sound_atom (fun s ρ u s' hi hl hr hf => ?_)
  cases hf
  exact ⟨fun q hq => hq,r,hi.same hr,trivial,h s ρ hi hl hr⟩

theorem kalloc_sound : (discipline im).Sound c p kalloc r (fun o r' => match o with
    | none => r' = r
    | some g => r' = r.take g) := by
  refine sound_atom (fun s ρ o s' hi hl hr hf => ?_)
  rw [Option.some.injEq, Except.ok.injEq, State.kalloc] at hf
  split at hf
  · cases hf
    exact ⟨fun q hq => hq,r,hi.same hr,trivial,rfl⟩
  rename_i g l hfl
  cases hf
  subst hr
  exact ⟨fun q hq => hq,_,kalloc_inv hi hfl,trivial,rfl⟩

theorem kalloc_seq {g : Option Page → VmProg β} {Q : β → Hold → Prop}
    (h0 : (discipline im).Sound c p (g none) r Q)
    (h1 : ∀ a, (discipline im).Sound c p (g (some a)) (r.take a) Q) :
    (discipline im).Sound c p (kalloc >>= g) r Q := by
  refine sound_seq kalloc_sound (fun o r₁ ho => ?_)
  cases o with
  | none => exact ho ▸ h0
  | some a => exact ho ▸ h1 a

theorem memset_sound (hg : g ∈ r.hand) (v : Byte) :
    (discipline im).Sound c p (memset g v) r (fun _ r' => r' = r) := by
  refine sound_assign (fun s ρ hi _ hr => ⟨rfl,r,Inv.same ?_ hr,rfl⟩)
  subst hr
  exact fill_inv hi (x := .inr p) hg trivial _

theorem copyPage_sound {g pa : Page} (hg : g ∈ r.hand) :
    (discipline im).Sound c p (copyPage g pa) r (fun _ r' => r' = r) := by
  refine sound_assign (fun s ρ hi _ hr => ⟨rfl,r,Inv.same ?_ hr,rfl⟩)
  subst hr
  exact fill_inv hi (x := .inr p) hg trivial _

theorem kfreeAt_sound {f : State → Option Page} {after : State → State}
    (hnone : ∀ s ρ, Inv im s ρ → live s p = true → ρ p = r → f s = none →
      ∃ r', Inv im s (update ρ p r') ∧ Q () r')
    (hsome : ∀ s ρ g, Inv im s ρ → live s p = true → ρ p = r → f s = some g →
      im.managed g → ∃ s₁ r₁, Inv im s₁ (update ρ p r₁) ∧ g ∈ r₁.hand ∧ s₁.free g = after (s.free g) ∧
        s₁.stage = s.stage ∧ Q () (r₁.drop g)) :
    (discipline im).Sound c p (kfreeAt im f after) r Q := by
  refine sound_atom (fun s ρ u s' hi hl hr hf => ?_)
  split at hf
  · rename_i hn
    cases hf
    obtain ⟨r',h1,h2⟩ := hnone s ρ hi hl hr hn
    exact ⟨fun q hq => hq,r',h1,trivial,h2⟩
  rename_i g hg
  rw [Option.some.injEq, map_eq_ok] at hf
  obtain ⟨s₂,hs₂,hf⟩ := hf
  simp only [State.kfree] at hs₂
  split at hs₂
  · rename_i hm
    obtain ⟨s₁,r₁,h1,hmem,h2,h3,h4⟩ := hsome s ρ g hi hl hr hg hm
    cases hs₂
    cases hf
    have hfree := kfree_inv (p := p) h1 (g := g) (by rwa [update_self])
    rw [update_self, update_idem, h2] at hfree
    exact ⟨live_of_stage (by rw [← h2]; exact h3),_,hfree,trivial,h4⟩
  · cases hs₂

theorem kfree_sound (hg : g ∈ r.hand) :
    (discipline im).Sound c p (kfree im g) r (fun _ r' => r' = r.drop g) := by
  refine kfreeAt_sound (fun s ρ _ _ _ hf => by cases hf) (fun s ρ g' hi _ hr hf _ => ?_)
  cases hf
  exact ⟨s,r,hi.same hr,hg,rfl,rfl,rfl⟩

theorem readPte_sound {e : PteRef} {Q : Uint → Hold → Prop}
    (h : ∀ s ρ, Inv im s ρ → ρ p = r → Q (s.pte e.1 e.2) r) :
    (discipline im).Sound c p (readPte e) r Q :=
  sound_fetch (fun s ρ hi _ hr => h s ρ hi hr)

theorem HasSpace.reads (hi : Inv im s ρ) (h : HasSpace b d (ρ p)) (hi' : i < NPDENTRIES) :
    tabOf ((ρ p).space b) i = s.target d i := by
  obtain ⟨sp,h1,rfl,h3⟩ := h
  have hr := hi.spaces.reads p b sp h1 i
  have hlow := (hi.spaces.whole p b sp h1).2 h3
  rw [h1]
  exact hr.trans (if_pos ⟨by omega,hi'⟩)

theorem pdx_lt (va : ℕ) : pdx va < NPDENTRIES := Nat.mod_lt _ (by decide)

theorem ptx_lt (va : ℕ) : ptx va < NPTENTRIES := Nat.mod_lt _ (by decide)

theorem readPde_sound (h : HasSpace b d r) (va : ℕ) :
    (discipline im).Sound c p (readPte (d,pdx va)) r (fun w r' => r' = r ∧
      (present w = true → tabOf (r.space b) (pdx va) = some (pteAddr w))) := by
  refine readPte_sound (fun s ρ hi hr => ⟨rfl,fun hp => ?_⟩)
  subst hr
  rw [h.reads hi (pdx_lt va)]
  simp only [State.target]
  rw [if_pos hp]

theorem walk_sound (h : HasSpace b d r) (va : ℕ) :
    (discipline im).Sound c p (walkpgdir d va false) r (fun o r' => r' = r ∧
      ∀ t j, o = some (t,j) → tabOf (r.space b) (pdx va) = some t ∧ j = ptx va) := by
  refine sound_seq (readPde_sound h va) ?_
  rintro w r' ⟨rfl,hw⟩
  split
  · rename_i hp
    refine sound_pure ⟨rfl,fun t j e => ?_⟩
    cases e
    exact ⟨hw hp,rfl⟩
  · refine sound_pure ⟨rfl,fun t j e => ?_⟩
    cases e

theorem installTable_sound (h : HasSpace b d r) (hi : i < NPDENTRIES) {t : Page} (ht : t ∈ r.hand) :
    (discipline im).Sound c p (installTable d i t) r (fun _ r' => HasSpace b d r' ∧ Agree b r r' ∧
      r'.hand = r.hand.erase t ∧ tabOf (r'.space b) i = some t) := by
  refine sound_assign (fun s ρ hinv _ hr => ⟨rfl,?_⟩)
  subst hr
  obtain ⟨sp,h1,rfl,h3⟩ := h
  have hz := fill_inv hinv (x := .inr p) ht trivial (fun _ => 0)
  refine ⟨_,addTable_inv hz h1 h3 hi ht (fun j => pte_zeroed s t j),?_,?_,?_,?_⟩
  · exact ⟨_,Hold.space_setSpace _ _ b,rfl,h3⟩
  · exact Agree.trans (Agree.ofHand (Hold.space_drop _ t) rfl rfl rfl rfl) (Agree.setSpace b _ _)
  · simp [Hold.drop]
  · simp [tabOf, Space.setTab]

theorem HasSpace.ofAgree {r r' : Hold} (h : HasSpace b d r) (hr : ∀ c, r'.space c = r.space c) :
    HasSpace b d r' := by
  obtain ⟨sp,h1,h2⟩ := h
  exact ⟨sp,by rw [hr]; exact h1,h2⟩

theorem HasSpace.ofOther {r r' : Hold} (h : HasSpace false d r) (hr : Agree true r r') :
    HasSpace false d r' := by
  obtain ⟨sp,h1,h2⟩ := h
  exact ⟨sp,hr.other.trans h1,h2⟩

theorem walkpgdir_sound (h : HasSpace b d r) (va : ℕ) (alloc : Bool) :
    (discipline im).Sound c p (walkpgdir d va alloc) r (fun o r' => HasSpace b d r' ∧ Agree b r r' ∧
      r'.hand = r.hand ∧
      ∀ t j, o = some (t,j) → tabOf (r'.space b) (pdx va) = some t ∧ j = ptx va) := by
  have hnone : ∀ t j, (none : Option PteRef) = some (t,j) →
      tabOf (r.space b) (pdx va) = some t ∧ j = ptx va := fun t j e => by cases e
  refine sound_seq (readPde_sound h va) ?_
  rintro w r' ⟨rfl,hw⟩
  split
  · rename_i hp
    refine sound_pure ⟨h,Agree.refl b _,rfl,fun t j e => ?_⟩
    cases e
    exact ⟨hw hp,rfl⟩
  split
  · refine kalloc_seq (sound_pure ⟨h,Agree.refl b _,rfl,hnone⟩) (fun t => ?_)
    refine sound_seq (installTable_sound (h.ofAgree (Hold.space_take r' t)) (pdx_lt va)
      (by simp [Hold.take])) ?_
    rintro _ r₂ ⟨h1,h2,h3,h4⟩
    refine sound_pure ⟨h1,?_,?_,fun t' j e => ?_⟩
    · exact (Agree.ofTake r' t).trans h2
    · simpa [Hold.take] using h3
    · cases e
      exact ⟨h4,rfl⟩
  · exact sound_pure ⟨h,Agree.refl b _,rfl,hnone⟩

end Actions

section Mapping

variable {va : ℕ}

theorem pdx_user (h : va < KERNBASE) : pdx va < NPDENTRIES/2 := by
  simp only [pdx, KERNBASE, PGSIZE, NPTENTRIES, NPDENTRIES] at *
  omega

theorem pdx_kernel (h : KERNBASE ≤ va) (h' : va < 2^32) : NPDENTRIES/2 ≤ pdx va := by
  simp only [pdx, KERNBASE, PGSIZE, NPTENTRIES, NPDENTRIES] at *
  omega

variable {perm : Uint} {i j : ℕ} {g : Page}

theorem writeFrame_sound {t g : Page}
    (ht : tabOf (r.space b) i = some t) (hi : i < NPDENTRIES/2) (hj : j < NPTENTRIES)
    (hp : perm < 4096) (hg : g ∈ r.hand) :
    (discipline im).Sound c p (writePte (t,j) (mkPte g perm)) r (fun _ r' => r' = r.drop g) := by
  refine sound_assign (fun s ρ hinv _ hr => ⟨rfl,_,?_,rfl⟩)
  subst hr
  exact mapFrame_inv hinv ht hi hj hp hg

theorem writeKernel_sound {t : Page} {w : Uint} (ht : tabOf (r.space b) i = some t)
    (hi : NPDENTRIES/2 ≤ i) (hj : j < NPTENTRIES) (hw : userBit w = false) :
    (discipline im).Sound c p (writePte (t,j) w) r (fun _ r' => r' = r) := by
  refine sound_assign (fun s ρ hinv _ hr => ⟨rfl,r,?_,rfl⟩)
  subst hr
  rw [update_eq_self]
  exact mapKernel_inv hinv ht hi hj hw

theorem mapUser_sound (h : HasSpace b d r) (hva : va < KERNBASE)
    (hg : g ∈ r.hand) (hp : perm < 4096) : (discipline im).Sound c p (mapLoop d perm 1 va g) r
      (fun _ r' => HasSpace b d r' ∧ Agree b r r') := by
  refine sound_seq (walkpgdir_sound h va true) ?_
  rintro o r₁ ⟨h1,h2,h3,h4⟩
  cases o with
  | none => exact sound_pure ⟨h1,h2⟩
  | some e =>
    obtain ⟨t,j⟩ := e
    obtain ⟨ht,rfl⟩ := h4 t j rfl
    refine sound_seq (readPte_sound (Q := fun _ r' => r' = r₁) (fun _ _ _ _ => rfl)) ?_
    rintro w r' rfl
    split
    · exact sound_fail
    · refine sound_then (writeFrame_sound ht (pdx_user hva) (ptx_lt va) hp (h3 ▸ hg)) (fun _ => ?_)
      exact sound_pure ⟨h1.ofAgree (Hold.space_drop r' g),
        h2.trans (Agree.ofHand (Hold.space_drop r' g) rfl rfl rfl rfl)⟩

theorem mappages_page (d : Page) (h : va < KERNBASE) (ha : va%PGSIZE = 0) (g : Page)
    (perm : Uint) : mappages d va PGSIZE g perm = mapLoop d perm 1 va g := by
  have h1 : ((va+PGSIZE+2^32-1)%2^32/PGSIZE+2^20-va/PGSIZE)%2^20+1 = 1 := by
    simp only [KERNBASE, PGSIZE] at *
    omega
  have h2 : va/PGSIZE*PGSIZE = va := by
    simp only [PGSIZE] at *
    omega
  simp only [mappages, h1, h2]

theorem mapKernel_sound (hp : userBit perm = false) (n : ℕ) :
    ∀ (a : ℕ) (g : Page) (r : Hold), HasSpace b d r → KERNBASE ≤ a → a+n*PGSIZE ≤ 2^32 →
      (discipline im).Sound c p (mapLoop d perm n a g) r
        (fun _ r' => HasSpace b d r' ∧ Agree b r r') := by
  induction n with
  | zero => exact fun a g r h _ _ => sound_pure ⟨h,Agree.refl b r⟩
  | succ n ih =>
    intro a g r h ha hn
    have hlt : a < 2^32 := by
      simp only [PGSIZE] at hn
      omega
    refine sound_seq (walkpgdir_sound h a true) ?_
    rintro o r₁ ⟨h1,h2,-,h4⟩
    cases o with
    | none => exact sound_pure ⟨h1,h2⟩
    | some e =>
      obtain ⟨t,j⟩ := e
      obtain ⟨ht,rfl⟩ := h4 t j rfl
      refine sound_seq (readPte_sound (Q := fun _ r' => r' = r₁) (fun _ _ _ _ => rfl)) ?_
      rintro w r' rfl
      split
      · exact sound_fail
      refine sound_seq (writeKernel_sound ht (pdx_kernel ha hlt) (ptx_lt a)
        ((userBit_mkPte g).trans hp)) ?_
      rintro _ r₂ rfl
      cases n with
      | zero => exact sound_pure ⟨h1,h2⟩
      | succ n =>
        have hnext : (a+PGSIZE)%2^32 = a+PGSIZE := by
          simp only [PGSIZE] at *
          omega
        rw [hnext]
        refine sound_mono (ih (a+PGSIZE) (g+1) r₂ h1 (by omega) ?_) ?_
        · simp only [PGSIZE] at *
          omega
        · rintro _ r₃ ⟨h5,h6⟩
          exact ⟨h5,h2.trans h6⟩

theorem mappages_sound (h : HasSpace b d r) {va size : ℕ}
    (hva : KERNBASE ≤ va) (hs : 0 < size) (hsum : va+size ≤ 2^32) (hp : userBit perm = false) :
    (discipline im).Sound c p (mappages d va size g perm) r
      (fun _ r' => HasSpace b d r' ∧ Agree b r r') := by
  refine mapKernel_sound hp _ _ g r h ?_ ?_
  all_goals
    simp only [KERNBASE, PGSIZE] at *
    omega

def Kmap.size (k : Kmap) : ℕ := (k.phys_end+2^32-k.phys_start)%2^32

structure Kmap.Fits (k : Kmap) : Prop where
  base : KERNBASE ≤ k.virt
  pos : 0 < k.size
  top : k.virt+k.size ≤ 2^32
  perm : userBit k.perm = false

theorem kmap_fits (im : Image) : ∀ k ∈ kmap im, k.Fits := by
  have h1 : 256 < im.data := im.text
  have h2 := im.order
  have h3 : im.kend < 57344 := im.fits
  intro k hk
  simp only [kmap, List.mem_cons, List.not_mem_nil, or_false] at hk
  have hw : userBit PTE_W = false := by decide
  have h0 : userBit 0 = false := by decide
  rcases hk with rfl | rfl | rfl | rfl
  · refine ⟨?_,?_,?_,hw⟩ <;> simp only [Kmap.size, KERNBASE, EXTMEM] <;> omega
  · refine ⟨?_,?_,?_,h0⟩ <;> simp only [Kmap.size, KERNLINK, KERNBASE, EXTMEM, PGSIZE] <;> omega
  · refine ⟨?_,?_,?_,hw⟩ <;> simp only [Kmap.size, KERNBASE, PHYSTOP, PGSIZE] <;> omega
  · refine ⟨?_,?_,?_,hw⟩ <;> simp only [Kmap.size, KERNBASE, DEVSPACE] <;> omega

theorem newDir_sound {d : Page} (hd : d ∈ r.hand) : (discipline im).Sound c p (newDir p d) r
      (fun _ r' => HasSpace true d r' ∧ Agree true r r') := by
  refine sound_assign (fun s ρ hi hl hr => ⟨rfl,{r.drop d with new := some (freshSpace d)},?_,
    ⟨freshSpace d,rfl,rfl,rfl⟩,rfl,rfl,rfl,rfl,rfl⟩)
  subst hr
  have hz := fill_inv hi (x := .inr p) hd trivial (fun _ => 0)
  exact newDir_inv hz hd (fun i => target_zeroed s d i) hl

theorem abandon_sound : (discipline im).Sound c p (forget p) r
    (fun _ r' => r'.new = none ∧ Agree true r r') := by
  refine sound_assign (fun s ρ hi hl hr => ⟨rfl,{r with new := none},?_,rfl,rfl,rfl,rfl,rfl,rfl⟩)
  subst hr
  exact abandon_inv hi hl

def Made (r : Hold) : Option Page → Hold → Prop
  | none, r' => r'.new = none ∧ Agree true r r'
  | some d, r' => HasSpace true d r' ∧ Agree true r r'

theorem Made.trans {r r₁ r₂ : Hold} {o : Option Page} (h : Agree true r r₁) (hm : Made r₁ o r₂) :
    Made r o r₂ := by
  cases o with
  | none | some d => exact ⟨hm.1,h.trans hm.2⟩

theorem kmapLoop_sound (ks : List Kmap) (hks : ∀ k ∈ ks, k.Fits) :
    ∀ r, HasSpace true d r → (discipline im).Sound c p (kmapLoop p d ks) r (Made r) := by
  induction ks with
  | nil => exact fun r h => sound_pure ⟨h,Agree.refl true r⟩
  | cons k ks ih =>
    intro r h
    have hk := hks k (by simp)
    refine sound_seq (mappages_sound h hk.base hk.pos hk.top hk.perm) ?_
    rintro ok r₁ ⟨h1,h2⟩
    cases ok with
    | true =>
      exact sound_mono (ih (fun k hk => hks k (by simp [hk])) r₁ h1) (fun _ _ => Made.trans h2)
    | false =>
      refine sound_seq abandon_sound ?_
      rintro _ r₂ ⟨h3,h4⟩
      exact sound_pure ⟨h3,h2.trans h4⟩

theorem setupkvm_sound (hn : r.new = none) :
    (discipline im).Sound c p (setupkvm im p) r (Made r) := by
  refine kalloc_seq (sound_pure ⟨hn,Agree.refl true _⟩) (fun g => ?_)
  refine sound_seq (newDir_sound (by simp [Hold.take])) ?_
  rintro _ r₂ ⟨h1,h2⟩
  split
  · exact sound_fail
  · exact sound_mono (kmapLoop_sound (kmap im) (kmap_fits im) r₂ h1)
      (fun _ _ => Made.trans ((Agree.ofTake r g).trans h2))

end Mapping

end Yeet.Vm
