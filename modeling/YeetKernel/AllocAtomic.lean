import YeetKernel.GrowRounds

/-!
# `allocuvm` when memory is short

`allocuvm` undoes its work when it gets no frame, but it ignores the result of
`mappages`: where the table of a page cannot be had the frame is lost and the
page is missing from the range.
-/

namespace Yeet.Vm
open Yeet.Kernel Bytes Resumption Function

variable {im : Image} {d g t : Page} {s s₁ s₂ : State}

/-- The pages from `v₀` up to `u` are mapped to zeroed frames and no table was
missing. -/
structure Mapped (im : Image) (d : Page) (v₀ u : ℕ) (s s' : State) : Prop extends
    Grows im d (fun _ => zeroed) v₀ u s s' where
  target : s'.target d = s.target d

section Growing

variable {v₀ u oldsz newsz : ℕ} {l : List Page} {v n : ℕ}

theorem mapped_here (h : UserSpace im d s) (v₀ : ℕ) : Mapped im d v₀ v₀ s s :=
  ⟨grows_here h _ v₀,rfl⟩

theorem need_tabled {T : ℕ → Option Page} (h : ∀ v, v₀ ≤ v → v < v₀+n → T (v/NPTENTRIES) ≠ none) :
    need T v₀ n = n := by
  induction n with
  | zero => rfl
  | succ n ih =>
    rw [need, ih (fun v h1 h2 => h v h1 (by omega)), if_neg]
    exact fun hc => h (v₀+n) (by omega) (by omega) hc.1

theorem Mapped.length (h : Mapped im d v₀ u s s₁) (hu : v₀ ≤ u) :
    s₁.freelist.length+(u-v₀) = s.freelist.length := by
  have hc := h.count
  rw [need_tabled (fun v h1 h2 hn => ?_)] at hc
  · exact hc
  · have ht := h.table (v/NPTENTRIES)
    rw [h.target] at ht
    exact (ht.mp hn).2 v h1 (by omega) rfl

theorem Mapped.lookup (h : Mapped im d v₀ u s s₁) (hv : ¬ (v₀ ≤ v ∧ v < u)) :
    s₁.lookup d v = s.lookup d v := by
  rcases h.fixed v hv with e | ⟨e,e'⟩
  · exact e
  · rw [lookup_none, ← h.target] at e
    rw [lookup_none.mpr e] at e'
    cases e'

theorem Mapped.step (h : Mapped im d v₀ u s s₁) (hu : v₀ ≤ u) (hv : u < UPAGES)
    (hf : s₁.frame d u = none) (hl : s₁.freelist = g::l)
    (ht : s₁.target d (u/NPTENTRIES) = some t) :
    Mapped im d v₀ (u+1) s (s₁.mapNew t u g l zeroed) where
  toGrows := h.toGrows.trans (grows_map h.space hv (by decide) hf hl ht) hu (by omega) (by omega)
  target := (mapNew_space (c := zeroed) h.space hl ht (by decide)).2.1.trans h.target

theorem memset_short (g : Page) (c : Byte) (s : State) :
    Returns (short (memset g c)) (fun _ s' => s' = s.fill g (fun _ => c)) s :=
  ends_short (frugal_memset g c) (returns_assign rfl)

theorem mappages_maps (h : UserSpace im d s₁) (hv : u < UPAGES) (hl : s₁.freelist = g::l)
    (ht : s₁.target d (u/NPTENTRIES) = some t) (hf : s₁.frame d u = none) (c : Filling) :
    Returns (short (mappages d (u*PGSIZE) PGSIZE g c.1))
      (fun r s' => r = true ∧ s' = s₁.mapNew t u g l c) (State.fill {s₁ with freelist := l} g c.2) := by
  obtain ⟨h1,hg⟩ := h.kalloc hl
  obtain ⟨-,htar,hlook,-⟩ := h1.fills hg c.2
  apply returns_mono (mappages_short hv (t := t) ?_ ?_)
  · rintro r s' ⟨rfl,rfl⟩
    exact ⟨rfl,rfl⟩
  · rw [htar]
    exact ht
  · rw [frame_eq_of_lookup hlook]
    exact hf

/-- Every page of the range is present, user-writable, zeroed, and has a frame
of its own that was free before. -/
structure Grew (d : Page) (oldsz newsz : ℕ) (s s' : State) : Prop where
  page : ∀ v, Range oldsz newsz v → ∃ g ∈ s.freelist,
    s'.lookup d v = some (mkPte g (PTE_W ||| PTE_U)) ∧ s'.mem g = fun _ => 0
  own : ∀ v w, Range oldsz newsz v → Range oldsz newsz w → s'.frame d v = s'.frame d w → v = w

/-- The same pages are mapped as before, with the same entries, and the pages
that were free are free, apart from new page tables. -/
structure Undone (d : Page) (s s' : State) : Prop where
  entry : ∀ v < UPAGES, (s'.lookup d v).filter present = (s.lookup d v).filter present
  pages : ∀ g ∈ s.freelist, g ∈ s'.freelist ∨ ∃ i, s'.target d i = some g

def AllOrNothing (d : Page) (oldsz newsz : ℕ) (s : State) (o : Outcome State Fault ℕ) : Prop :=
  ∀ r s', o = some (.ok (r,s')) → (r = newsz → Grew d oldsz newsz s s') ∧ (r = 0 → Undone d s s')

section Mapped

variable (h : Mapped im d (pgroundup oldsz/PGSIZE) u s s₁)

include h

theorem Mapped.grew (hnew : newsz < KERNBASE) (hend : newsz ≤ u*PGSIZE) : Grew d oldsz newsz s s₁ := by
  have hpage : ∀ v, Range oldsz newsz v → ∃ g ∈ s.freelist,
      s₁.lookup d v = some (mkPte g (PTE_W ||| PTE_U)) ∧ s₁.frame d v = some g ∧
        s₁.mem g = fun _ => 0 := by
    intro v hv
    obtain ⟨h1,h2⟩ := range_pages.mp hv
    refine h.page v h1 ?_
    simp only [PGSIZE] at *
    omega
  constructor
  · intro v hv
    obtain ⟨g,hg,hp,-,hz⟩ := hpage v hv
    exact ⟨g,hg,hp,hz⟩
  · intro v w hv hw he
    obtain ⟨g,-,-,hf,-⟩ := hpage v hv
    exact h.space.frames v (range_lt hnew hv.2) w (range_lt hnew hw.2) g hf (he ▸ hf)

theorem Mapped.undone (h0 : UserSpace im d s) (hlt : u*PGSIZE < newsz)
    (hnone : ∀ v, Range oldsz newsz v → s.frame d v ≠ none →
      ¬ Reached (s.target d) (pgroundup oldsz/PGSIZE) v)
    (hc : Cleared d (fun v => Range oldsz newsz v ∧
      Reached (s₁.target d) (pgroundup oldsz/PGSIZE) v) s₁ s₂) : Undone d s s₂ := by
  rw [h.target] at hc
  -- where anything is mapped already the first page has a table
  have hreach : ∀ {v}, pgroundup oldsz/PGSIZE ≤ v → v < u → Range oldsz newsz v ∧
      Reached (s.target d) (pgroundup oldsz/PGSIZE) v := by
    intro v hv hvu
    refine ⟨range_pages.mpr ⟨hv,?_⟩,reached_all ?_ hv⟩
    · exact Nat.lt_of_le_of_lt (Nat.mul_le_mul_right _ (Nat.le_of_lt hvu)) hlt
    obtain ⟨x,-,-,hx,-⟩ := h.page _ (Nat.le_refl _) (Nat.lt_of_le_of_lt hv hvu)
    obtain ⟨t,ht⟩ := frame_table hx
    rw [← h.target, ht]
    simp
  constructor
  · intro v hv
    by_cases hin : pgroundup oldsz/PGSIZE ≤ v ∧ v < u
    · obtain ⟨hr,hreached⟩ := hreach hin.1 hin.2
      rw [frame_none.mp (hc.frame_gone ⟨hr,hreached⟩), frame_none.mp (h.vacant v hin.1 hin.2)]
    rw [hc.kept v, h.lookup hin]
    rintro ⟨⟨hr,hreached⟩,hf⟩
    apply hnone v hr ?_ hreached
    rw [State.frame, ← h.lookup hin]
    exact hf
  intro g hg
  left
  obtain ⟨l,hl,-,hmem⟩ := hc.freed
  rw [hl, List.mem_append]
  rcases h.given g hg with hg' | rfl | ⟨i,hi⟩ | ⟨v,hv,hf⟩
  · exact Or.inr hg'
  · exact absurd hg h0.dir
  · rw [h.target] at hi
    exact absurd hg (h0.table i g hi).2
  by_cases hin : pgroundup oldsz/PGSIZE ≤ v ∧ v < u
  · exact Or.inl ((hmem g).mpr ⟨v,hreach hin.1 hin.2,hf⟩)
  · rw [State.frame, h.lookup hin] at hf
    exact absurd hg (h0.frame v hv g hf).2.2.1

end Mapped

/-- The condition under which no failure of `kalloc` does harm: nothing that
`deallocuvm` comes to is mapped in the range, and the free pages do not reach
to a page without a table. -/
structure Secure (d : Page) (oldsz newsz : ℕ) (s : State) : Prop where
  vacant : ∀ v, Range oldsz newsz v → s.frame d v ≠ none →
    ¬ Reached (s.target d) (pgroundup oldsz/PGSIZE) v
  tables : ∀ v, Range oldsz newsz v → s.lookup d v = none →
    s.freelist.length ≤ v-pgroundup oldsz/PGSIZE

theorem allocLoop_secure (hsec : Secure d oldsz newsz s) (h0 : UserSpace im d s)
    (hnew : newsz < KERNBASE) (hold : oldsz < newsz) (n : ℕ)
    (h : Mapped im d (pgroundup oldsz/PGSIZE) u s s₁)
    (hu : pgroundup oldsz/PGSIZE ≤ u) (hn : newsz ≤ (u+n)*PGSIZE) :
    Ends (short (allocLoop im d oldsz newsz n (u*PGSIZE))) (AllOrNothing d oldsz newsz s) s₁ := by
  have hdone : ∀ {u s₁}, Mapped im d (pgroundup oldsz/PGSIZE) u s s₁ → newsz ≤ u*PGSIZE →
      AllOrNothing d oldsz newsz s (some (.ok (newsz,s₁))) := by
    intro u s₁ h hend r s' e
    cases e
    exact ⟨fun _ => h.grew hnew hend,fun e => absurd e (by omega)⟩
  induction n generalizing u s₁ with
  | zero => exact hdone h hn
  | succ n ih =>
    unfold allocLoop
    split
    swap
    · exact hdone h (by omega)
    rename_i hlt
    have hup := range_lt hnew hlt
    rw [short_bind]
    apply ends_bind
    apply ends_kalloc
    · intro g l hl
      have hlen := h.length hu
      rw [hl, List.length_cons] at hlen
      obtain ⟨t,ht⟩ : ∃ t, s₁.target d (u/NPTENTRIES) = some t := by
        apply Option.ne_none_iff_exists'.mp
        intro e
        rw [h.target] at e
        have := hsec.tables u (range_pages.mpr ⟨hu,hlt⟩) (lookup_none.mpr e)
        omega
      change Ends (short (memset g 0 >>= _)) _ _
      rw [short_bind]
      apply ends_after
      apply returns_mono (memset_short g 0 _)
      rintro _ s₂ rfl
      rw [short_bind]
      by_cases hf : s₁.frame d u = none
      · apply ends_after
        apply returns_mono (mappages_maps h.space hup hl ht hf zeroed)
        rintro _ s₂ ⟨-,rfl⟩
        rw [page_succ]
        exact ih (h.step hu hup hf hl ht) (by omega) (hn.trans (Nat.mul_le_mul_right _ (by omega)))
      apply ends_bind
      obtain ⟨hk,hg⟩ := h.space.kalloc hl
      apply ends_mono (mappages_remap hup (t := t) ?_ ?_)
      · rintro o rfl r s' e
        cases e
      · rw [target_fill hg.dir]
        exact ht
      · rw [frame_eq_of_lookup (lookup_fill hg.dir hg.table _)]
        exact hf
    · change Ends (short (deallocuvm im d newsz oldsz >>= _)) _ _
      rw [short_bind]
      apply ends_after
      apply ends_short (frugal_deallocuvm _ _ _)
      apply returns_mono (deallocuvm_clears h.space hold (Nat.le_of_lt hnew))
      rintro r s₂ ⟨-,-,hc⟩
      intro r' s' e
      cases e
      exact ⟨fun e => absurd e (by omega),fun _ => h.undone h0 hlt hsec.vacant hc⟩

theorem Mapped.more (h : Mapped im d v₀ u s s₁) (hu : v₀ ≤ u) (hlen : u-v₀ < s.freelist.length) :
    ∃ g l, s₁.freelist = g::l := by
  apply List.exists_cons_of_ne_nil
  intro e
  have := h.length hu
  rw [e, List.length_nil] at this
  omega

theorem can_reach {B : Outcome State Fault ℕ → Prop}
    (hnew : newsz < KERNBASE) {v n : ℕ} (hv : v*PGSIZE < newsz)
    (hfree : ∀ w, v₀ ≤ w → w < v → s.frame d w = none ∧ s.lookup d w ≠ none)
    (hlen : v-v₀ < s.freelist.length) (hrest : ∀ s', Mapped im d v₀ v s s' →
      ∃ o, Can (short (allocLoop im d oldsz newsz n (v*PGSIZE))) o s' ∧ B o)
    (m : ℕ) (h : Mapped im d v₀ u s s₁) (hu : v₀ ≤ u) (hm : u+m = v) :
    ∃ o, Can (short (allocLoop im d oldsz newsz (n+m) (u*PGSIZE))) o s₁ ∧ B o := by
  induction m generalizing u s₁ with
  | zero =>
    obtain rfl : u = v := hm
    exact hrest s₁ h
  | succ m ih =>
    have huv : u < v := by omega
    have hlt : u*PGSIZE < newsz :=
      Nat.lt_of_le_of_lt (Nat.mul_le_mul_right _ (Nat.le_of_lt huv)) hv
    have hup := range_lt hnew hlt
    obtain ⟨hfr,hlk⟩ := hfree u hu huv
    obtain ⟨t,ht⟩ : ∃ t, s₁.target d (u/NPTENTRIES) = some t := by
      apply Option.ne_none_iff_exists'.mp
      intro e
      rw [h.target] at e
      exact hlk (lookup_none.mpr e)
    have hfr₁ : s₁.frame d u = none := by
      rw [State.frame, h.lookup (by omega)]
      exact hfr
    obtain ⟨g,l,hl⟩ := h.more hu (by omega)
    obtain ⟨o,hc,ho⟩ := ih (h.step hu hup hfr₁ hl ht) (by omega) (by omega)
    refine ⟨o,?_,ho⟩
    obtain ⟨_,x,hx,rfl⟩ := can_of_returns (memset_short g 0 {s₁ with freelist := l})
    obtain ⟨_,y,hy,-,rfl⟩ := can_of_returns (mappages_maps h.space hup hl ht hfr₁ zeroed)
    rw [← Nat.add_assoc]
    unfold allocLoop
    rw [if_pos hlt, short_bind]
    refine can_bind (can_kalloc hl) ?_
    change Can (short (memset g 0 >>= _)) _ _
    rw [short_bind]
    refine can_bind hx ?_
    rw [short_bind]
    refine can_bind hy ?_
    rw [page_succ]
    exact hc

theorem can_lose (hnew : newsz < KERNBASE) {v n : ℕ} (hlt : v*PGSIZE < newsz)
    (h1 : UserSpace im d s₁) (hnull : s₁.target d (v/NPTENTRIES) = none)
    {l : List Page} (hl : s₁.freelist = g::l) {o : Outcome State Fault ℕ}
    (hrest : Can (short (allocLoop im d oldsz newsz n ((v+1)*PGSIZE))) o
      (State.fill {s₁ with freelist := l} g (fun _ => 0))) :
    Can (short (allocLoop im d oldsz newsz (n+1) (v*PGSIZE))) o s₁ := by
  obtain ⟨-,hg⟩ := h1.kalloc hl
  obtain ⟨_,x,hx,rfl⟩ := can_of_returns (memset_short g 0 {s₁ with freelist := l})
  unfold allocLoop
  rw [if_pos hlt, short_bind]
  refine can_bind (can_kalloc hl) ?_
  change Can (short (memset g 0 >>= _)) _ _
  rw [short_bind]
  refine can_bind hx ?_
  rw [short_bind]
  refine can_bind (can_mappages_none (range_lt hnew hlt) ?_) ?_
  · rw [target_fill hg.dir]
    exact hnull
  · rw [page_succ]
    exact hrest

theorem not_grew (hv : Range oldsz newsz v) {s' : State} (hl : s'.lookup d v = none) :
    ¬ AllOrNothing d oldsz newsz s (some (.ok (newsz,s'))) := by
  intro h
  obtain ⟨g,-,hg,-⟩ := ((h newsz s' rfl).1 rfl).page v hv
  rw [hl] at hg
  cases hg

theorem can_fail (h1 : UserSpace im d s₁) (hnew : newsz < KERNBASE) (hold : oldsz < newsz)
    (hlt : u*PGSIZE < newsz) :
    ∃ s', Can (short (allocLoop im d oldsz newsz (n+1) (u*PGSIZE))) (some (.ok (0,s'))) s₁ ∧
      Cleared d (fun v => Range oldsz newsz v ∧
        Reached (s₁.target d) (pgroundup oldsz/PGSIZE) v) s₁ s' := by
  obtain ⟨r,s',hc,-,-,hcl⟩ := can_of_returns (ends_short (frugal_deallocuvm d newsz oldsz)
    (deallocuvm_clears h1 hold (Nat.le_of_lt hnew)))
  refine ⟨s',?_,hcl⟩
  unfold allocLoop
  rw [if_pos hlt, short_bind]
  refine can_bind can_kalloc_none ?_
  change Can (short (deallocuvm im d newsz oldsz >>= _)) _ _
  rw [short_bind]
  exact can_bind hc (can_pure _ _)

theorem harm_at_missing (hnew : newsz < KERNBASE) (hold : oldsz < newsz)
    {v n : ℕ} (hv : Range oldsz newsz v) (hnull : s.lookup d v = none)
    (hlen : v-pgroundup oldsz/PGSIZE < s.freelist.length)
    (h : Mapped im d (pgroundup oldsz/PGSIZE) v s s₁) :
    ∃ o, Can (short (allocLoop im d oldsz newsz (n+1) (v*PGSIZE))) o s₁ ∧
      ¬ AllOrNothing d oldsz newsz s o := by
  have h1 := h.space
  obtain ⟨g,l,hl⟩ := h.more (range_pages.mp hv).1 hlen
  obtain ⟨h2,hg⟩ := h1.kalloc hl
  have hT : s₁.target d (v/NPTENTRIES) = none := by
    rw [h.target]
    exact lookup_none.mp hnull
  obtain ⟨-,htar,hlook,-⟩ := h2.fills hg (fun _ => 0)
  have hlv : (State.fill {s₁ with freelist := l} g (fun _ => 0)).lookup d v = none := by
    rw [hlook]
    exact (h.lookup (by omega)).trans hnull
  have hstay : ∀ {n : ℕ}, ¬ (v+1)*PGSIZE < newsz ∨ n = 0 →
      ∃ o, Can (short (allocLoop im d oldsz newsz (n+1) (v*PGSIZE))) o s₁ ∧
        ¬ AllOrNothing d oldsz newsz s o := by
    intro n hn
    refine ⟨_,can_lose hnew hv.2 h1 hT hl ?_,not_grew hv hlv⟩
    cases n with
    | zero => exact can_pure _ _
    | succ n =>
      unfold allocLoop
      rw [if_neg (hn.resolve_right (by omega))]
      exact can_pure _ _
  by_cases hnext : (v+1)*PGSIZE < newsz
  swap
  · exact hstay (Or.inl hnext)
  cases n with
  | zero => exact hstay (Or.inr rfl)
  | succ n =>
    -- the next frame cannot be had: what is returned to the free list does not include `g`
    have hfill := h2.fill hg.dir hg.table (fun _ => 0)
    obtain ⟨s',hc,hcl⟩ := can_fail hfill hnew hold (n := n) hnext
    refine ⟨_,can_lose hnew hv.2 h1 hT hl hc,fun hall => ?_⟩
    have hgs : g ∈ s.freelist := h.sub g (by rw [hl]; simp)
    rcases ((hall 0 s' rfl).2 rfl).pages g hgs with hfree | ⟨i,hi⟩
    · obtain ⟨l',hl',-,hmem⟩ := hcl.freed
      rw [hl', List.mem_append] at hfree
      rcases hfree with hfree | hfree
      · obtain ⟨w,hw,hgw⟩ := (hmem g).mp hfree
        rw [frame_eq_of_lookup hlook] at hgw
        exact hg.frame w (range_lt hnew hw.1.2) hgw
      · exact hg.free hfree
    · rw [hcl.target, htar] at hi
      exact hg.table i hi

theorem vacant_of_atomic (h : UserSpace im d s) (hn : newsz < KERNBASE) (hold : oldsz < newsz)
    (hall : Ends (short (allocLoop im d oldsz newsz (n+1) (pgroundup oldsz)))
      (AllOrNothing d oldsz newsz s) s) (hv : Range oldsz newsz v) (hf : s.frame d v ≠ none) :
    ¬ Reached (s.target d) (pgroundup oldsz/PGSIZE) v := by
  intro hr
  rw [pgroundup_page] at hall
  have hlt : pgroundup oldsz/PGSIZE*PGSIZE < newsz := by
    rw [← pgroundup_page]
    exact Nat.lt_of_le_of_lt hv.1 hv.2
  obtain ⟨s',hc,hcl⟩ := can_fail h hn hold hlt
  have he := ((ends_can hall hc 0 s' rfl).2 rfl).entry v (range_lt hn hv.2)
  rw [frame_none.mp (hcl.frame_gone ⟨hv,hr⟩)] at he
  exact hf (frame_none.mpr he.symm)

theorem first_missing (hv : Range oldsz newsz v) (hnull : s.lookup d v = none) :
    ∃ w ≤ v, Range oldsz newsz w ∧ s.lookup d w = none ∧
      ∀ x, pgroundup oldsz/PGSIZE ≤ x → x < w → Range oldsz newsz x ∧ s.lookup d x ≠ none := by
  classical
  have hex : ∃ w, Range oldsz newsz w ∧ s.lookup d w = none := ⟨v,hv,hnull⟩
  obtain ⟨hw,hwnull⟩ := Nat.find_spec hex
  refine ⟨Nat.find hex,Nat.find_min' hex ⟨hv,hnull⟩,hw,hwnull,fun x hx hxw => ?_⟩
  have hrange : Range oldsz newsz x := by
    refine range_pages.mpr ⟨hx,Nat.lt_of_le_of_lt ?_ hw.2⟩
    exact Nat.mul_le_mul_right _ (Nat.le_of_lt hxw)
  exact ⟨hrange,fun e => Nat.find_min hex hxw ⟨hrange,e⟩⟩

theorem tables_of_atomic (h : UserSpace im d s) (hn : newsz < KERNBASE) (hold : oldsz < newsz)
    (hall : Ends (short (allocLoop im d oldsz newsz (newsz/PGSIZE+1) (pgroundup oldsz)))
      (AllOrNothing d oldsz newsz s) s) (hv : Range oldsz newsz v)
    (hnull : s.lookup d v = none) : s.freelist.length ≤ v-pgroundup oldsz/PGSIZE := by
  by_contra hlen
  obtain ⟨w,hwv,hw,hwnull,hbefore⟩ := first_missing hv hnull
  obtain ⟨hw1,hw2⟩ := range_pages.mp hw
  have hfree : ∀ x, pgroundup oldsz/PGSIZE ≤ x → x < w →
      s.frame d x = none ∧ s.lookup d x ≠ none := by
    intro x hx hxw
    obtain ⟨hr,hl⟩ := hbefore x hx hxw
    refine ⟨by_contra (fun hf => ?_),hl⟩
    apply vacant_of_atomic h hn hold hall hr hf (reached_all ?_ hx)
    intro e
    exact (hbefore _ (Nat.le_refl _) (by omega)).2 (lookup_none.mpr e)
  have hfuel : newsz/PGSIZE+1 = newsz/PGSIZE-(w-pgroundup oldsz/PGSIZE)+1+
      (w-pgroundup oldsz/PGSIZE) := by
    simp only [PGSIZE] at *
    omega
  have hmore : w-pgroundup oldsz/PGSIZE < s.freelist.length := by omega
  obtain ⟨o,hc,hbad⟩ := can_reach hn hw2 hfree hmore
    (fun s' hm => harm_at_missing hn hold hw hwnull hmore hm)
    (w-pgroundup oldsz/PGSIZE) (mapped_here h _) (Nat.le_refl _) (Nat.add_sub_cancel' hw1)
  rw [← hfuel, ← pgroundup_page] at hc
  exact hbad (ends_can hall hc)

/-- For every address space and every pattern of failures of `kalloc`:
`allocuvm` maps the whole range or leaves everything as it was, if and only if
the range is secure. -/
theorem allocuvm_atomic_iff (h : UserSpace im d s) (ho : oldsz ≤ newsz) (hn : newsz < KERNBASE) :
    Ends (short (allocuvm im d oldsz newsz)) (AllOrNothing d oldsz newsz s) s ↔
      Secure d oldsz newsz s := by
  rw [allocuvm, if_neg (by omega), if_neg (by omega)]
  rcases Nat.eq_or_lt_of_le ho with rfl | hold
  · have hempty : ∀ v, ¬ Range oldsz oldsz v := by
      intro v hv
      simp only [Range, pgroundup, PGSIZE] at hv
      omega
    refine iff_of_true ?_ ⟨fun v hv => absurd hv (hempty v),fun v hv => absurd hv (hempty v)⟩
    unfold allocLoop
    rw [if_neg (by simp only [pgroundup, PGSIZE]; omega)]
    intro r s' e
    cases e
    exact ⟨fun _ => ⟨fun v hv => absurd hv (hempty v),fun v _ hv => absurd hv (hempty v)⟩,
      fun _ => ⟨fun _ _ => rfl,fun g hg => Or.inl hg⟩⟩
  constructor
  · intro hall
    exact ⟨fun v hv hf => vacant_of_atomic h hn hold hall hv hf,
      fun v hv hnull => tables_of_atomic h hn hold hall hv hnull⟩
  · intro hsec
    rw [pgroundup_page]
    exact allocLoop_secure hsec h hn hold _ (mapped_here h _) (Nat.le_refl _) (page_fuel _ _)

end Growing

section Example

theorem page_zero {v : ℕ} (hv : Range 0 0x1000 v) : v = 0 := by
  simp only [Range, pgroundup, PGSIZE] at hv
  omega

theorem allocuvm_atomic_table :
    UserSpace tightImage 2000 ((bareKernel [3001,3002]).install 2000 0 3000) ∧
      Ends (short (allocuvm tightImage 2000 0 0x1000))
        (AllOrNothing 2000 0 0x1000 ((bareKernel [3001,3002]).install 2000 0 3000))
        ((bareKernel [3001,3002]).install 2000 0 3000) := by
  have hb : UserSpace tightImage 2000 (bareKernel [3001,3002]) :=
    bareKernel_space (by decide) (by decide) (by decide)
  have hg : (bareKernel [3001,3002]).Spare tightImage 2000 3000 :=
    ⟨by decide,by decide,by decide,by simp [bareKernel_target],by simp [bareKernel_frame]⟩
  have hu := hb.install hg (bareKernel_target _ _ _) (by decide : 0 < NPDENTRIES)
  have hf := frame_install hb hg (bareKernel_target _ _ _) (by decide : 0 < NPDENTRIES)
  have hl := lookup_install hb hg (by decide : 0 < NPDENTRIES) 0
  have hkern : 0x1000 < KERNBASE := by
    simp only [KERNBASE]
    omega
  generalize (bareKernel [3001,3002]).install 2000 0 3000 = s at *
  refine ⟨hu,(allocuvm_atomic_iff hu (Nat.zero_le _) hkern).mpr ⟨fun v _ hv => ?_,fun v hv hnull => ?_⟩⟩
  · rw [hf] at hv
    exact absurd (bareKernel_frame _ _ _) hv
  · rw [page_zero hv, hl] at hnull
    cases hnull

/-- One free page and no table: the page is taken, the new size is returned and
nothing is mapped. -/
theorem allocuvm_loses_page : UserSpace tightImage 2000 (bareKernel [3000]) ∧
    ∃ s', Can (short (allocuvm tightImage 2000 0 0x1000)) (some (.ok (0x1000,s')))
        (bareKernel [3000]) ∧ s'.frame 2000 0 = none ∧ 3000 ∉ s'.freelist ∧
      ¬ AllOrNothing 2000 0 0x1000 (bareKernel [3000]) (some (.ok (0x1000,s'))) := by
  have hu : UserSpace tightImage 2000 (bareKernel [3000]) :=
    bareKernel_space (by decide) (by decide) (by decide)
  have hnull : (bareKernel [3000]).target 2000 (0/NPTENTRIES) = none := bareKernel_target _ _ _
  have hl : (bareKernel [3000]).freelist = [3000] := rfl
  have hkern : 0x1000 < KERNBASE := by
    simp only [KERNBASE]
    omega
  generalize bareKernel [3000] = s at *
  obtain ⟨-,hg⟩ := hu.kalloc hl
  have hlook := lookup_fill (s := {s with freelist := []}) hg.dir hg.table (fun _ => 0)
  have hnone : (State.fill {s with freelist := []} 3000 (fun _ => 0)).lookup 2000 0 = none := by
    rw [hlook]
    exact lookup_none.mpr hnull
  refine ⟨hu,State.fill {s with freelist := []} 3000 (fun _ => 0),?_,?_,by simp [State.fill],?_⟩
  · rw [allocuvm, if_neg (by omega), if_neg (by omega)]
    refine can_lose (v := 0) hkern (by simp only [PGSIZE]; omega) hu hnull hl ?_
    exact can_starve (can_pure _ _)
  · rw [State.frame, hnone]
    rfl
  · apply not_grew (v := 0) _ hnone
    simp only [Range, pgroundup, PGSIZE]
    omega

end Example

end Yeet.Vm
