import YeetKernel.KernelMap

/-!
# What `freevm` frees and writes to

The pages that an address space holds are its directory, its tables and the
frames below KERNBASE. `freevm` frees them, each one once, and writes to no
other page. It fails if one of them is not the allocator's.
-/

namespace Yeet.Vm
open Yeet.Kernel Bytes Resumption Function

variable {im : Image} {d g t : Page} {s s₁ s₂ : State} {N M : Page → Prop}

theorem lookup_same (hd : s₁.mem d = s.mem d)
    (ht : ∀ i t, s.target d i = some t → s₁.mem t = s.mem t) : s₁.lookup d = s.lookup d := by
  have htar : s₁.target d = s.target d := by
    ext1 i
    rw [State.target, State.target, State.pte, State.pte, hd]
  ext1 v
  rw [State.lookup, State.lookup, htar]
  apply Option.map_congr
  intro t h
  rw [State.pte, State.pte, ht _ t h]

theorem UserSpace.held_free (h : UserSpace im d s) (hg : s.Held d g) : g ∉ s.freelist := by
  rcases hg with rfl | ⟨i,hi⟩ | ⟨v,hv,hf⟩
  · exact h.dir
  · exact (h.table i g hi).2
  · exact (h.frame v hv g hf).2.2.1

theorem UserSpace.other {s' : State} (h : UserSpace im d s)
    (hsame : ∀ g, s.Held d g → s'.mem g = s.mem g) (hn : s'.freelist.Nodup)
    (hsub : ∀ g ∈ s'.freelist, g ∈ s.freelist) :
    UserSpace im d s' ∧ ∀ g, s'.Held d g ↔ s.Held d g := by
  have hdir := hsame d (Or.inl rfl)
  have htar : s'.target d = s.target d := by
    ext1 i
    apply target_congr
    rw [State.pte, State.pte, hdir]
  have hfr := frame_eq_of_lookup (lookup_same hdir (fun i t ht => hsame t (Or.inr (Or.inl ⟨i,ht⟩))))
  have hnot : ∀ g, g ∉ s.freelist → g ∉ s'.freelist := fun g hg hm => hg (hsub g hm)
  constructor
  · unfold UserSpace
    rw [htar, hfr]
    refine ⟨hn,fun g hg => h.managed g (hsub g hg),hnot _ h.dir,fun i t ht => ?_,h.tables,
      fun w hw g hg => ?_,h.frames⟩
    · exact ⟨(h.table i t ht).1,hnot _ (h.table i t ht).2⟩
    · obtain ⟨h1,h2,h3,h4⟩ := h.frame w hw g hg
      exact ⟨h1,h2,hnot _ h3,h4⟩
  · intro g
    rw [State.Held, State.Held, htar, hfr]

/-- The pages `N` were freed. -/
structure Freed (N : Page → Prop) (s s' : State) : Prop where
  free : ∀ g, g ∈ s'.freelist ↔ g ∈ s.freelist ∨ N g
  mem : ∀ g, ¬ N g → s'.mem g = s.mem g
  rest : s' = {s with mem := s'.mem, freelist := s'.freelist}

/-- The pages `N` were freed, or one of them cannot be freed. -/
def Frees (im : Image) (N : Page → Prop) (s : State) (o : Outcome State Fault Unit) : Prop :=
  (∃ s', o = some (.ok ((),s')) ∧ Freed N s s') ∨
    (∃ g, N g ∧ ¬ im.managed g) ∧ o = some (.error (.panic "kfree"))

theorem frees_bind {x y : VmProg Unit} (hx : Ends x (Frees im N s) s)
    (hy : ∀ s₁, Freed N s s₁ → Ends y (Frees im M s₁) s₁) :
    Ends (do x; y) (Frees im (fun g => N g ∨ M g) s) s := by
  apply ends_bind
  apply ends_mono hx
  rintro _ (⟨s₁,rfl,h⟩ | ⟨⟨g,hg,hm⟩,rfl⟩)
  · apply ends_mono (hy s₁ h)
    rintro _ (⟨s₂,rfl,h'⟩ | ⟨⟨g,hg,hm⟩,rfl⟩)
    · refine Or.inl ⟨s₂,rfl,fun g => ?_,fun g hg => ?_,?_⟩
      · rw [h'.free, h.free, or_assoc]
      · rw [h'.mem g (fun hc => hg (Or.inr hc)), h.mem g (fun hc => hg (Or.inl hc))]
      · rw [h'.rest, h.rest]
    · exact Or.inr ⟨⟨g,Or.inr hg,hm⟩,rfl⟩
  · exact Or.inr ⟨⟨g,Or.inl hg,hm⟩,rfl⟩

theorem frees_mono {x : VmProg Unit} (h : Ends x (Frees im N s) s) (hN : ∀ g, N g ↔ M g) :
    Ends x (Frees im M s) s := by
  obtain rfl : N = M := funext (fun g => propext (hN g))
  exact h

theorem kfreeAt_frees {f : State → Option Page} :
    Ends (kfreeAt im f id) (Frees im (fun g => f s = some g) s) s := by
  apply ends_atom
  cases hf : f s with
  | none => exact Or.inl ⟨s,rfl,fun g => by simp,fun _ _ => rfl,rfl⟩
  | some t =>
    dsimp only
    rw [State.kfree]
    by_cases hman : im.managed t
    · rw [if_pos hman]
      refine Or.inl ⟨s.free t,rfl,fun g => ?_,fun g hg => ?_,rfl⟩
      · rw [Option.some.injEq, or_comm, eq_comm]
        exact List.mem_cons
      · simp only [State.free, State.fill]
        exact update_of_ne (fun e => hg (by rw [e])) _ _
    · rw [if_neg hman]
      exact Or.inr ⟨⟨t,rfl,hman⟩,rfl⟩

theorem freeTables_frees (n i : ℕ) (h : ∀ i t, s.target d i = some t → t ≠ d) :
    Ends (freeTables im d n i)
      (Frees im (fun g => ∃ j, i ≤ j ∧ j < i+n ∧ s.target d j = some g) s) s := by
  induction n generalizing s i with
  | zero =>
    refine ends_pure (Or.inl ⟨s,rfl,fun g => ?_,fun _ _ => rfl,rfl⟩)
    refine ⟨Or.inl,fun hg => hg.resolve_right ?_⟩
    rintro ⟨j,h1,h2,-⟩
    omega
  | succ n ih =>
    unfold freeTables
    refine frees_mono (frees_bind kfreeAt_frees
      (M := fun g => ∃ j, i+1 ≤ j ∧ j < i+1+n ∧ s.target d j = some g) (fun s₁ h₁ => ?_)) (fun g => ?_)
    · have hdir : s₁.mem d = s.mem d := h₁.mem d (fun hx => h i d hx rfl)
      have htar : s₁.target d = s.target d := by
        ext1 i
        apply target_congr
        rw [State.pte, State.pte, hdir]
      have := ih (s := s₁) (i+1) (by rw [htar]; exact h)
      rwa [htar] at this
    constructor
    · rintro (hg | ⟨j,h1,h2,hj⟩)
      · exact ⟨i,by omega,by omega,hg⟩
      · exact ⟨j,by omega,by omega,hj⟩
    rintro ⟨j,h1,h2,hj⟩
    by_cases e : j = i
    · exact Or.inl (e ▸ hj)
    · exact Or.inr ⟨j,by omega,by omega,hj⟩

theorem target_beyond {i : ℕ} (hi : NPDENTRIES ≤ i) : s.target d i = none := by
  have hz : s.pte d i = 0 := by
    rw [State.pte, ← getField_zero (n := PGSIZE) (4*i) 4]
    refine getField_congr (fun a h1 h2 => ?_)
    have ha : ¬ a < PGSIZE := by
      simp only [PGSIZE, NPDENTRIES] at *
      omega
    rw [byteAt, byteAt, dif_neg ha, dif_neg ha]
  rw [State.target, hz]
  rfl

theorem freevm_frees (h : UserSpace im d s) (p : Owner) :
    Ends (freevm im p d) (fun o =>
      (∃ s', o = some (.ok ((),s')) ∧ (∀ g, g ∈ s'.freelist ↔ g ∈ s.freelist ∨ s.Held d g) ∧
        (∀ g, ¬ s.Held d g → s'.mem g = s.mem g) ∧ s'.pgdir = s.pgdir ∧ s'.sz = s.sz) ∨
      (∃ g, s.Held d g ∧ ¬ im.managed g) ∧ o = some (.error (.panic "kfree"))) s := by
  unfold freevm
  apply ends_after
  apply returns_mono (deallocuvm_clears h (by decide) (Nat.le_refl _))
  rintro _ s₁ ⟨-,h1,hc⟩
  apply ends_after
  apply returns_assign
  have htar : ∀ g, (∃ j, 0 ≤ j ∧ j < 0+NPDENTRIES ∧ s₁.target d j = some g) ↔
      ∃ i, s.target d i = some g := by
    intro g
    rw [hc.target]
    constructor
    · rintro ⟨j,-,-,hj⟩
      exact ⟨j,hj⟩
    rintro ⟨i,hi⟩
    refine ⟨i,Nat.zero_le i,?_,hi⟩
    by_contra hn
    rw [target_beyond (by omega)] at hi
    cases hi
  have hrange : ∀ g, (∃ v, (Range 0 KERNBASE v ∧ Reached (s.target d) (pgroundup 0/PGSIZE) v) ∧
      s.frame d v = some g) ↔ ∃ v < UPAGES, s.frame d v = some g := by
    intro g
    refine exists_congr (fun v => and_congr_left (fun _ => ?_))
    simp only [Range, Reached, UPAGES, pgroundup, KERNBASE, PGSIZE, NPTENTRIES]
    omega
  obtain ⟨l,hl,-,hlm⟩ := hc.freed
  have htables := frees_bind (x := freeTables im d NPDENTRIES 0) (freeTables_frees
    (s := {s₁ with building := update s₁.building p none}) NPDENTRIES 0 (fun i t ht => (h1.table i t ht).1))
    (y := kfree im d) (M := fun g => g = d)
    (fun s₂ _ => frees_mono kfreeAt_frees (fun g => by rw [Option.some.injEq, eq_comm]))
  apply ends_mono (frees_mono htables (fun g => or_congr_left (htar g)))
  rintro o (⟨s',rfl,hf⟩ | ⟨⟨g,hg,hm⟩,rfl⟩)
  · refine Or.inl ⟨s',rfl,fun g => ?_,fun g hg => ?_,?_,?_⟩
    · have hfree : g ∈ s'.freelist ↔ g ∈ s₁.freelist ∨ ((∃ i, s.target d i = some g) ∨ g = d) :=
        hf.free g
      rw [hfree, hl, List.mem_append, hlm, hrange, State.Held]
      constructor
      · rintro ((hg | hg) | (hg | hg))
        · exact Or.inr (Or.inr (Or.inr hg))
        · exact Or.inl hg
        · exact Or.inr (Or.inr (Or.inl hg))
        · exact Or.inr (Or.inl hg)
      rintro (hg | hg | hg | hg)
      · exact Or.inl (Or.inr hg)
      · exact Or.inr (Or.inr hg)
      · exact Or.inr (Or.inl hg)
      · exact Or.inl (Or.inl hg)
    · have ht : ∀ i, s.target d i ≠ some g := fun i hi => hg (Or.inr (Or.inl ⟨i,hi⟩))
      rw [hf.mem g]
      · exact hc.mem g ht (fun v hv hx => hg (Or.inr (Or.inr ((hrange g).mp ⟨v,hv,hx⟩))))
      · rintro (⟨i,hi⟩ | rfl)
        · exact ht i hi
        · exact hg (Or.inl rfl)
    · have h1 := congrArg State.pgdir hc.rest
      have h2 := congrArg State.pgdir hf.rest
      exact h2.trans h1
    · have h1 := congrArg State.sz hc.rest
      have h2 := congrArg State.sz hf.rest
      exact h2.trans h1
  · refine Or.inr ⟨⟨g,?_,hm⟩,rfl⟩
    rcases hg with hg | rfl
    · exact Or.inr (Or.inl hg)
    · exact Or.inl rfl

end Yeet.Vm
