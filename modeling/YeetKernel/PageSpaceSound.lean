import YeetKernel.PageSound

/-!
# Growing, shrinking, copying and freeing an address space

`allocuvm`, `deallocuvm`, `freevm`, `clearpteu` and `copyuvm` follow the
discipline, on every way out of them.
-/

namespace Yeet.Vm
open Yeet.Kernel Threads Function
open StateLists (Slot)

variable {im : Image} {c : Call} {p : Owner} {r : Hold} {b : Bool} {d : Page} {oldsz newsz : ℕ}
variable {i : ℕ} {pgdir : Page}

theorem free_setPte {s : State} {t g : Page} (h : t ≠ g) (j : ℕ) (w : Uint) :
    (s.setPte t j w).free g = (s.free g).setPte t j w := by
  simp only [State.free, State.setPte, State.fill, update_of_ne h]
  rw [update_comm h]

theorem freePte_sound {i j : ℕ} {t : Page} (ht : tabOf (r.space b) i = some t)
    (hi : i < NPDENTRIES/2) (hj : j < NPTENTRIES) :
    (discipline im).Sound c p (freePte im (t,j)) r (fun _ r' => r' = r) := by
  refine kfreeAt_sound (fun s ρ hinv _ hr _ => ⟨r,hinv.same hr,rfl⟩) (fun s ρ g hinv _ hr hg _ => ?_)
  subst hr
  have hne : t ≠ g := by
    rintro rfl
    have hf : t ∈ ledger s ρ (.inl (.frame p b i j)) := by
      rw [ledger_entry ht hi hj, hg]
      simp
    have := hinv.pages.unique hf (ledger_table ht)
    simp at this
  exact ⟨_,_,unmap_inv hinv ht hi hj hg,by simp,free_setPte hne j 0,rfl,by simp [Hold.drop]⟩

theorem deallocLoop_sound (h : HasSpace b d r) {oldsz : ℕ} (ho : oldsz ≤ KERNBASE) (n : ℕ) :
    ∀ a, (discipline im).Sound c p (deallocLoop im d oldsz n a) r (fun _ r' => r' = r) := by
  induction n with
  | zero => exact fun a => sound_pure rfl
  | succ n ih =>
    intro a
    rw [deallocLoop]
    split
    · rename_i ha
      refine sound_seq (walk_sound h a) ?_
      rintro o r' ⟨rfl,hw⟩
      cases o with
      | none => exact ih _
      | some e =>
        obtain ⟨t,j⟩ := e
        obtain ⟨ht,rfl⟩ := hw t j rfl
        refine sound_then (freePte_sound ht (pdx_user (by omega)) (ptx_lt a)) (fun _ => ?_)
        exact ih _
    · exact sound_pure rfl

theorem deallocuvm_sound (h : HasSpace b d r) (ho : oldsz ≤ KERNBASE) :
    (discipline im).Sound c p (deallocuvm im d oldsz newsz) r (fun z r' => r' = r ∧ z ≤ oldsz) := by
  rw [deallocuvm]
  split
  · exact sound_pure ⟨rfl,le_refl _⟩
  · rename_i hlt
    refine sound_then (deallocLoop_sound h ho _ _) (fun _ => ?_)
    exact sound_pure ⟨rfl,by omega⟩

theorem allocLoop_sound (hn : newsz < KERNBASE) (n : ℕ) : ∀ a r, HasSpace b d r → a%PGSIZE = 0 →
      (discipline im).Sound c p (allocLoop im d oldsz newsz n a) r
        (fun z r' => HasSpace b d r' ∧ Agree b r r' ∧ z < KERNBASE) := by
  induction n with
  | zero => exact fun a r h _ => sound_pure ⟨h,Agree.refl b r,hn⟩
  | succ n ih =>
    intro a r h ha
    rw [allocLoop]
    split
    · rename_i hlt
      refine kalloc_seq ?_ (fun g => ?_)
      · refine sound_seq (deallocuvm_sound h hn.le) ?_
        rintro z r' ⟨rfl,-⟩
        exact sound_pure ⟨h,Agree.refl b _,by decide⟩
      have ht : HasSpace b d (r.take g) := h.ofAgree (Hold.space_take r g)
      have hg : g ∈ (r.take g).hand := by simp [Hold.take]
      refine sound_then (memset_sound hg 0) (fun _ => ?_)
      have ha' : a < KERNBASE := by omega
      rw [mappages_page d ha' ha]
      refine sound_seq (mapUser_sound ht ha' hg (by decide)) ?_
      rintro _ r₂ ⟨h1,h2⟩
      have hnext : (a+PGSIZE)%PGSIZE = 0 := by
        simp only [PGSIZE] at *
        omega
      refine sound_mono (ih (a+PGSIZE) r₂ h1 hnext) ?_
      rintro z r₃ ⟨h3,h4,h5⟩
      exact ⟨h3,((Agree.ofTake r g).trans h2).trans h4,h5⟩
    · exact sound_pure ⟨h,Agree.refl b r,hn⟩

theorem pgroundup_mod (sz : ℕ) : pgroundup sz%PGSIZE = 0 := Nat.mul_mod_left _ _

theorem allocuvm_sound (h : HasSpace b d r) (ho : newsz < oldsz → oldsz < KERNBASE) :
    (discipline im).Sound c p (allocuvm im d oldsz newsz) r
      (fun z r' => HasSpace b d r' ∧ Agree b r r' ∧ z < KERNBASE) := by
  rw [allocuvm]
  split
  · exact sound_pure ⟨h,Agree.refl b r,by decide⟩
  rename_i hn
  split
  · rename_i hlt
    exact sound_pure ⟨h,Agree.refl b r,ho hlt⟩
  · exact allocLoop_sound (Nat.lt_of_not_ge hn) _ _ r h (pgroundup_mod oldsz)

def Torn (d : Page) (i : ℕ) (r : Hold) : Prop :=
  ∃ sp, r.new = some sp ∧ sp.root = d ∧ sp.whole = false ∧ sp.low = i

theorem forget_sound (h : HasSpace true d r) :
    (discipline im).Sound c p (forget p) r (fun _ r' => Torn d 0 r' ∧ Agree true r r') := by
  obtain ⟨sp,h1,rfl,h3⟩ := h
  refine sound_assign (fun s ρ hi hl hr => ⟨rfl,{r with new := some {sp with whole := false}},?_,
    ⟨_,rfl,rfl,rfl,?_⟩,rfl,rfl,rfl,rfl,rfl⟩)
  · subst hr
    exact forget_inv hi h1 hl
  · subst hr
    exact (hi.spaces.whole p true sp h1).2 h3

theorem freeTable_sound (h : Torn d i r) (hi : i < NPDENTRIES) :
    (discipline im).Sound c p (kfreeAt im (fun s => s.target d i) id) r
      (fun _ r' => Torn d (i+1) r' ∧ Agree true r r') := by
  obtain ⟨sp,h1,rfl,h3,rfl⟩ := h
  have htab : ∀ s ρ, Inv im s ρ → ρ p = r → sp.tab sp.low = s.target sp.root sp.low := by
    intro s ρ hinv hr
    subst hr
    exact (hinv.spaces.reads p true sp h1 sp.low).trans (if_pos ⟨le_refl _,hi⟩)
  refine kfreeAt_sound (fun s ρ hinv _ hr hf => ?_) (fun s ρ g hinv _ hr hg _ => ?_)
  · refine ⟨{r with new := some sp.behead},?_,⟨sp.behead,rfl,rfl,h3,rfl⟩,rfl,rfl,rfl,rfl,rfl⟩
    have ht := (htab s ρ hinv hr).trans hf
    subst hr
    exact skipTable_inv hinv h1 h3 ht
  · have ht := (htab s ρ hinv hr).trans hg
    subst hr
    exact ⟨s,_,takeTable_inv hinv h1 h3 ht,by simp,rfl,rfl,⟨sp.behead,rfl,rfl,h3,rfl⟩,rfl,rfl,rfl,rfl,rfl⟩

theorem freeTables_sound (n : ℕ) : ∀ i r, Torn d i r → i+n = NPDENTRIES →
    (discipline im).Sound c p (freeTables im d n i) r
      (fun _ r' => Torn d NPDENTRIES r' ∧ Agree true r r') := by
  induction n with
  | zero =>
    intro i r h hi
    obtain rfl : i = NPDENTRIES := hi
    exact sound_pure ⟨h,Agree.refl true r⟩
  | succ n ih =>
    intro i r h hi
    refine sound_seq (freeTable_sound h (by omega)) ?_
    rintro _ r₁ ⟨h1,h2⟩
    refine sound_mono (ih (i+1) r₁ h1 (by omega)) ?_
    rintro _ r₂ ⟨h3,h4⟩
    exact ⟨h3,h2.trans h4⟩

theorem freeDir_sound (h : Torn d i r) :
    (discipline im).Sound c p (kfree im d) r (fun _ r' => r'.new = none ∧ Agree true r r') := by
  obtain ⟨sp,h1,rfl,h3,-⟩ := h
  refine kfreeAt_sound (fun s ρ _ _ _ hf => by cases hf) (fun s ρ g hinv hl hr hg _ => ?_)
  cases hg
  subst hr
  exact ⟨s,_,takeDir_inv hinv h1 h3 hl,by simp,rfl,rfl,rfl,rfl,rfl,rfl,rfl,rfl⟩

theorem freevm_sound (h : HasSpace true d r) :
    (discipline im).Sound c p (freevm im p d) r (fun _ r' => r'.new = none ∧ Agree true r r') := by
  refine sound_seq (deallocuvm_sound h (le_refl _)) ?_
  rintro _ r' ⟨rfl,-⟩
  refine sound_seq (forget_sound h) ?_
  rintro _ r₁ ⟨h1,h2⟩
  refine sound_seq (freeTables_sound NPDENTRIES 0 r₁ h1 rfl) ?_
  rintro _ r₂ ⟨h3,h4⟩
  refine sound_mono (freeDir_sound h3) ?_
  rintro _ r₃ ⟨h5,h6⟩
  exact ⟨h5,(h2.trans h4).trans h6⟩

section ClearUser

theorem present_clear (w : Uint) : present (w &&& ~~~PTE_U) = present w := by
  rw [present_eq, present_eq, BitVec.getLsbD_and]
  simp [PTE_U]

theorem userBit_clear (w : Uint) : userBit (w &&& ~~~PTE_U) = false := by
  rw [userBit_eq, BitVec.getLsbD_and]
  simp [PTE_U]

theorem pteAddr_clear (w : Uint) : pteAddr (w &&& ~~~PTE_U) = pteAddr w := by
  have hu : PTE_U = BitVec.twoPow 32 2 := rfl
  simp only [pteAddr]
  congr 1
  ext i hi
  simp only [BitVec.getElem_ushiftRight, BitVec.getLsbD_and, BitVec.getLsbD_not, hu,
    BitVec.getLsbD_twoPow]
  by_cases h : 12+i < 32
  · have hne : 2 ≠ 12+i := by omega
    simp [h, hne]
  · rw [BitVec.getLsbD_of_ge _ _ (by omega)]
    rfl

end ClearUser

theorem clearpteu_sound (h : HasSpace b d r) (va : ℕ) :
    (discipline im).Sound c p (clearpteu d va) r (fun _ r' => r' = r) := by
  refine sound_seq (walk_sound h va) ?_
  rintro o r' ⟨rfl,hw⟩
  cases o with
  | none => exact sound_fail
  | some e =>
    obtain ⟨t,j⟩ := e
    obtain ⟨ht,rfl⟩ := hw t j rfl
    refine sound_assign (fun s ρ hi _ hr => ⟨rfl,r',Inv.same ?_ hr,rfl⟩)
    subst hr
    exact restrict_inv hi ht (ptx_lt va) (present_clear _) (pteAddr_clear _) (userBit_clear _)

theorem copyLoop_sound (n : ℕ) : ∀ i r, HasSpace false pgdir r → HasSpace true d r →
    i%PGSIZE = 0 → i+n*PGSIZE ≤ KERNBASE →
      (discipline im).Sound c p (copyLoop im p pgdir d n i) r (Made r) := by
  induction n with
  | zero => exact fun i r _ h _ _ => sound_pure ⟨h,Agree.refl true r⟩
  | succ n ih =>
    intro i r hown hnew hi hn
    have hlt : i < KERNBASE := by
      simp only [PGSIZE, KERNBASE] at *
      omega
    refine sound_seq (walk_sound hown i) ?_
    rintro o r' ⟨rfl,-⟩
    cases o with
    | none => exact sound_fail
    | some e =>
      refine sound_seq (readPte_sound (Q := fun _ r₁ => r₁ = r') (fun _ _ _ _ => rfl)) ?_
      rintro w r₁ rfl
      split
      · exact sound_fail
      refine kalloc_seq ?_ (fun g => ?_)
      · refine sound_seq (freevm_sound hnew) ?_
        rintro _ r₃ h3
        exact sound_pure h3
      have hg : g ∈ (r₁.take g).hand := by simp [Hold.take]
      refine sound_then (copyPage_sound hg) (fun _ => ?_)
      rw [mappages_page d hlt hi]
      refine sound_seq (mapUser_sound (hnew.ofAgree (Hold.space_take r₁ g)) hlt hg
        (pteFlags_lt w)) ?_
      rintro ok r₄ ⟨h1,h2⟩
      have hag := (Agree.ofTake r₁ g).trans h2
      cases ok with
      | true =>
        refine sound_mono (ih (i+PGSIZE) r₄ (hown.ofOther hag) h1 ?_ ?_) ?_
        · simp only [PGSIZE] at *
          omega
        · simp only [PGSIZE] at *
          omega
        · exact fun _ _ => Made.trans hag
      | false =>
        refine sound_seq (freevm_sound h1) ?_
        rintro _ r₅ ⟨h3,h4⟩
        exact sound_pure ⟨h3,hag.trans h4⟩

theorem copyuvm_sound {sz : ℕ} (hown : HasSpace false pgdir r) (hn : r.new = none)
    (hz : sz < KERNBASE) : (discipline im).Sound c p (copyuvm im p pgdir sz) r (Made r) := by
  refine sound_seq (setupkvm_sound hn) ?_
  rintro (_ | d) r₁ ⟨h1,h2⟩
  · exact sound_pure ⟨h1,h2⟩
  refine sound_mono (copyLoop_sound _ 0 r₁ (hown.ofOther h2) h1 rfl ?_) ?_
  · simp only [PGSIZE, KERNBASE] at *
    omega
  · exact fun _ _ => Made.trans h2

end Yeet.Vm
