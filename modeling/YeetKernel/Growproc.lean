import YeetKernel.AllocAtomic

/-!
# `growproc`

The size arithmetic of `growproc` is modulo 2^32, and 0 is both an error and a
size. Of a process whose pages below `sz` are mapped, and no others, the call
is exact and atomic apart from three cases: shrinking to nothing, shrinking
below zero, and memory that runs out just at the page table of the last page.
-/

namespace Yeet.Vm
open Yeet.Kernel Resumption Function
open StateLists (Slot)

variable {im : Image} {d g t : Page} {q : Slot} {s s₁ s₂ : State} {v₀ u oldsz newsz : ℕ} {K : PageData}

structure Process (im : Image) (q : Slot) (d : Page) (s : State) : Prop where
  space : UserSpace im d s
  dir : s.pgdir q = some d
  small : s.sz q < KERNBASE
  below : ∀ v, v*PGSIZE < s.sz q → s.frame d v ≠ none
  above : ∀ v < UPAGES, s.sz q ≤ v*PGSIZE → s.frame d v = none

structure Same (d : Page) (P : ℕ → Prop) (s s' : State) : Prop where
  entry : ∀ v, P v → (s'.lookup d v).filter present = (s.lookup d v).filter present
  content : ∀ v g, P v → s.frame d v = some g → s'.mem g = s.mem g

/-- Zero is returned for a change of the size by exactly `n`, with all pages of
the new size present and the pages that remain unchanged; and -1 if nothing
has changed. -/
structure Exact (q : Slot) (d : Page) (n : ℤ) (s : State) (r : ℤ) (s' : State) : Prop where
  result : r = 0 ∨ r = -1
  size : r = 0 → (s'.sz q : ℤ) = s.sz q+n
  pages : r = 0 → ∀ v, v*PGSIZE < s'.sz q → s'.frame d v ≠ none
  kept : r = 0 → Same d (fun v => v*PGSIZE < s.sz q ∧ v*PGSIZE < s'.sz q) s s'
  undone : r = -1 → s'.sz q = s.sz q ∧ Same d (· < UPAGES) s s'

def Strands (d : Page) (oldsz newsz : ℕ) (s : State) : Prop :=
  pgroundup oldsz/PGSIZE ≤ (newsz-1)/PGSIZE ∧
    Lacks (s.target d) (pgroundup oldsz/PGSIZE) ((newsz-1)/PGSIZE-pgroundup oldsz/PGSIZE) ∧
    s.freelist.length =
      need (s.target d) (pgroundup oldsz/PGSIZE) ((newsz-1)/PGSIZE-pgroundup oldsz/PGSIZE)+1

theorem same_refl (d : Page) (P : ℕ → Prop) (s : State) : Same d P s s :=
  ⟨fun _ _ => rfl,fun _ _ _ _ => rfl⟩

theorem Lay.content (h : Lay d (fun _ => zeroed) v₀ u s s₁) (h0 : UserSpace im d s) {v : ℕ}
    (hv : v < UPAGES) (hg : s.frame d v = some g) : s₁.mem g = s.mem g := by
  obtain ⟨-,hd,hl,ht⟩ := h0.frame v hv g hg
  exact h.mem g hl hd ht

theorem Lay.undone (h : Lay d (fun _ => zeroed) (pgroundup oldsz/PGSIZE) u s s₁) (h0 : UserSpace im d s)
    (hnew : newsz < KERNBASE) (hu : ∀ v, v < u → v*PGSIZE < newsz)
    (habove : ∀ v < UPAGES, oldsz ≤ v*PGSIZE → s.frame d v = none)
    (hc : Cleared d (fun v => Range oldsz newsz v ∧
      Reached (s₁.target d) (pgroundup oldsz/PGSIZE) v) s₁ s₂) : Same d (· < UPAGES) s s₂ := by
  have hrange : ∀ v, Range oldsz newsz v → s.frame d v = none := by
    intro v hv
    apply habove v (range_lt hnew hv.2)
    have := hv.1
    simp only [pgroundup, PGSIZE] at *
    omega
  have hnew' : ∀ v, Range oldsz newsz v → ∀ g, s₁.frame d v = some g → g ∈ s.freelist := by
    intro v hv g hg
    by_cases hvu : v < u
    · obtain ⟨x,hx,-,hxf,-⟩ := h.page v (range_pages.mp hv).1 hvu
      rw [hg] at hxf
      exact Option.some.inj hxf ▸ hx
    · rw [frame_of_filter (h.kept v (by omega)), hrange v hv] at hg
      cases hg
  constructor
  · intro v hv
    by_cases hin : pgroundup oldsz/PGSIZE ≤ v ∧ v < u
    · have hr : Range oldsz newsz v := range_pages.mpr ⟨hin.1,hu v hin.2⟩
      obtain ⟨x,-,-,hx,-⟩ := h.page _ (Nat.le_refl _) (Nat.lt_of_le_of_lt hin.1 hin.2)
      obtain ⟨t,ht⟩ := frame_table hx
      have hreach := reached_all (T := s₁.target d) (by rw [ht]; simp) hin.1
      rw [frame_none.mp (hc.frame_gone ⟨hr,hreach⟩), frame_none.mp (hrange v hr)]
    rw [hc.kept v, h.kept v hin]
    rintro ⟨⟨hr,-⟩,hf⟩
    apply hf
    rw [frame_of_filter (h.kept v hin)]
    exact hrange v hr
  · intro v g hv hg
    obtain ⟨-,-,hl,ht⟩ := h0.frame v hv g hg
    rw [hc.mem g (fun i hi => ?_) (fun w hw hgw => hl (hnew' w hw.1 g hgw))]
    · exact h.content h0 hv hg
    · rcases h.entered.owned i g hi with ho | ho
      · exact ht i ho
      · exact hl ho

inductive GrowEnd (im : Image) (d : Page) (oldsz newsz : ℕ) (s : State) (s' : State) : ℕ → Prop
  | whole (u : ℕ) (hend : newsz ≤ u*PGSIZE) (hns : ¬ Strands d oldsz newsz s)
      (hub : ∀ v < u, v*PGSIZE < newsz)
      (h : Grows im d (fun _ => zeroed) (pgroundup oldsz/PGSIZE) u s s') :
      GrowEnd im d oldsz newsz s s' newsz
  | undone (hns : ¬ Strands d oldsz newsz s) (hshort : s.freelist.length < need (s.target d)
        (pgroundup oldsz/PGSIZE) ((newsz-1)/PGSIZE+1-pgroundup oldsz/PGSIZE))
      (hk : Same d (· < UPAGES) s s') (hup : s'.graft d (s.mem d) = s')
      (hr : s' = {s with mem := s'.mem, freelist := s'.freelist}) (hu : UserSpace im d s')
      (hd : Entered d s s') :
      GrowEnd im d oldsz newsz s s' 0
  | stranded (hs : Strands d oldsz newsz s) (hf : s'.frame d ((newsz-1)/PGSIZE) = none)
      (hu : UserSpace im d s') (hl : s'.freelist = [])
      (ht : Tabled (s.target d) (s'.target d) (pgroundup oldsz/PGSIZE) ((newsz-1)/PGSIZE))
      (h : Lay d (fun _ => zeroed) (pgroundup oldsz/PGSIZE) ((newsz-1)/PGSIZE) s s') :
      GrowEnd im d oldsz newsz s s' newsz

theorem not_strands_short {w : ℕ} (hu : u ≤ (newsz-1)/PGSIZE)
    (hlen : s.freelist.length ≤ need (s.target d) (pgroundup oldsz/PGSIZE) w)
    (hw : w ≤ u-pgroundup oldsz/PGSIZE) : ¬ Strands d oldsz newsz s := by
  rintro ⟨-,-,he⟩
  have := need_mono (s.target d) (pgroundup oldsz/PGSIZE)
    (show w ≤ (newsz-1)/PGSIZE-pgroundup oldsz/PGSIZE by omega)
  omega

theorem Grows.not_strands (h : Grows im d (fun _ => zeroed) (pgroundup oldsz/PGSIZE) u s s₁)
    (hpos : 0 < newsz) (hend : newsz ≤ u*PGSIZE) : ¬ Strands d oldsz newsz s := by
  rintro ⟨hle,hl,he⟩
  have hc := h.count
  have hu : (newsz-1)/PGSIZE < u := by
    simp only [PGSIZE] at *
    omega
  have hm := need_mono (s.target d) (pgroundup oldsz/PGSIZE)
    (show (newsz-1)/PGSIZE-pgroundup oldsz/PGSIZE+1 ≤ u-pgroundup oldsz/PGSIZE by omega)
  rw [need, if_pos hl] at hm
  omega

theorem Grows.lost (h : Grows im d (fun _ => zeroed) v₀ u s s₁) (hv : u < UPAGES)
    (hl : s₁.freelist = [g]) : UserSpace im d (State.fill {s₁ with freelist := []} g (fun _ => 0)) ∧
      Lay d (fun _ => zeroed) v₀ u s (State.fill {s₁ with freelist := []} g (fun _ => 0)) ∧
      (State.fill {s₁ with freelist := []} g (fun _ => 0)).frame d = s₁.frame d ∧
      (State.fill {s₁ with freelist := []} g (fun _ => 0)).target d = s₁.target d ∧
      s.freelist.length = need (s.target d) v₀ (u-v₀)+1 := by
  obtain ⟨h1,hg⟩ := h.space.kalloc hl
  have htar := target_fill (s := {s₁ with freelist := []}) hg.dir (fun _ => 0)
  have hlook := lookup_fill (s := {s₁ with freelist := []}) hg.dir hg.table (fun _ => 0)
  have hgs : g ∈ s.freelist := h.sub g (by rw [hl]; simp)
  have hcount := h.count
  rw [hl, List.length_singleton] at hcount
  refine ⟨h1.fill hg.dir hg.table _,⟨?_,fun v h1 h2 => ?_,?_,fun x h1 h2 h3 => ?_,?_,?_⟩,
    frame_eq_of_lookup hlook,htar,by omega⟩
  · intro i t ht
    rw [pte_fill_ne hg.dir.symm]
    exact h.entered i t (htar ▸ ht)
  · obtain ⟨x,hx,hxl,hxf,hxm⟩ := h.page v h1 h2
    have hxg : x ≠ g := fun e => (h.space.frame v (by omega) x hxf).2.2.1 (by rw [hl, e]; simp)
    refine ⟨x,hx,?_,?_,?_⟩
    · rw [hlook]
      exact hxl
    · rw [frame_eq_of_lookup hlook]
      exact hxf
    · simp only [State.fill]
      rw [update_of_ne hxg]
      exact hxm
  · rw [hlook]
    exact h.fixed
  · have hxg : x ≠ g := fun e => h1 (e ▸ hgs)
    simp only [State.fill]
    rw [update_of_ne hxg]
    exact h.mem x h1 h2 h3
  · rw [← graft_fill hg.dir]
    exact congrArg (fun x => State.fill {x with freelist := []} g (fun _ => 0)) h.upper
  · simp only [State.fill]
    conv_lhs => rw [h.rest]

/-- The loop has left `s'` and returned `r`; the upper half of the directory is
`K`. -/
def Ended (im : Image) (d : Page) (K : PageData) (oldsz newsz : ℕ) (s : State) (r : ℕ) (s' : State) :
    Prop :=
  ∃ s₂, s' = s₂.graft d K ∧ GrowEnd im d oldsz newsz s s₂ r

section Loop

variable (h0 : UserSpace im d s) (hnew : newsz < KERNBASE) (hold : oldsz < newsz)
  (habove : ∀ v < UPAGES, oldsz ≤ v*PGSIZE → s.frame d v = none) {n : ℕ}

include h0 hnew hold habove

theorem allocLoop_out (h : Lay d (fun _ => zeroed) (pgroundup oldsz/PGSIZE) u s s₁)
    (h1 : UserSpace im d s₁) (hub : ∀ v, v < u → v*PGSIZE < newsz) {w : ℕ} (hlt : w*PGSIZE < newsz)
    (hl : s₁.freelist = []) (hns : ¬ Strands d oldsz newsz s)
    (hshort : s.freelist.length < need (s.target d) (pgroundup oldsz/PGSIZE)
      ((newsz-1)/PGSIZE+1-pgroundup oldsz/PGSIZE)) :
    Returns (allocLoop im d oldsz newsz (n+1) (w*PGSIZE)) (Ended im d K oldsz newsz s)
      (s₁.graft d K) := by
  unfold allocLoop
  rw [if_pos hlt]
  apply returns_bind
  apply returns_mono (kalloc_empty (s := s₁.graft d K) hl)
  rintro o s' ⟨rfl,rfl⟩
  change Returns (deallocuvm im d newsz oldsz >>= _) _ _
  apply returns_bind
  apply returns_mono (deallocuvm_grafted h1 hold (Nat.le_of_lt hnew))
  rintro r _ ⟨-,s₂,rfl,h2,hc⟩
  have hdir := hc.dir_same h1 (fun v hv => range_lt hnew hv.1.2)
  refine returns_pure ⟨s₂,rfl,.undone hns hshort (h.undone h0 hnew hub habove hc) ?_ ?_ h2 ?_⟩
  · refine upper_trans h.upper ?_
    rw [← hdir, graft_self]
  · rw [hc.rest, h.rest]
  intro i t ht
  have e : s₂.pte d i = s₁.pte d i := by rw [State.pte, State.pte, hdir]
  rw [e]
  exact h.entered i t (target_congr e ▸ ht)

theorem allocLoop_lost (h : Grows im d (fun _ => zeroed) (pgroundup oldsz/PGSIZE) u s s₁)
    (hu : pgroundup oldsz/PGSIZE ≤ u) (hub : ∀ v, v < u → v*PGSIZE < newsz)
    (hlt : u*PGSIZE < newsz) (hn : newsz ≤ (u+1+n)*PGSIZE)
    (hfu : s₁.frame d u = none) (hl : s₁.freelist = [g])
    (hlack : Lacks (s.target d) (pgroundup oldsz/PGSIZE) (u-pgroundup oldsz/PGSIZE)) :
    Returns (allocLoop im d oldsz newsz n ((u+1)*PGSIZE)) (Ended im d K oldsz newsz s)
      ((State.fill {s₁ with freelist := []} g (fun _ => 0)).graft d K) := by
  obtain ⟨hfill,hlay,hframe,htar,hlen⟩ := h.lost (range_lt hnew hlt) hl
  have hfree : (State.fill {s₁ with freelist := []} g (fun _ => 0)).freelist = [] := rfl
  generalize State.fill {s₁ with freelist := []} g (fun _ => 0) = sl at *
  have hneed : need (s.target d) (pgroundup oldsz/PGSIZE) (u+1-pgroundup oldsz/PGSIZE) =
      s.freelist.length+1 := by
    have e : u+1-pgroundup oldsz/PGSIZE = (u-pgroundup oldsz/PGSIZE)+1 := by omega
    rw [e, need, if_pos hlack]
    omega
  by_cases hmore : (u+1)*PGSIZE < newsz
  · have hlast : u+1 ≤ (newsz-1)/PGSIZE := by
      simp only [PGSIZE] at *
      omega
    have hns : ¬ Strands d oldsz newsz s :=
      not_strands_short hlast (by omega) (Nat.le_refl (u+1-pgroundup oldsz/PGSIZE))
    have hshort := need_mono (s.target d) (pgroundup oldsz/PGSIZE) (show u+1-pgroundup oldsz/PGSIZE ≤
      (newsz-1)/PGSIZE+1-pgroundup oldsz/PGSIZE by omega)
    cases n with
    | zero => exact absurd hmore (by rw [Nat.add_zero] at hn; omega)
    | succ n => exact allocLoop_out h0 hnew hold habove hlay hfill hub hmore hfree hns (by omega)
  obtain rfl : (newsz-1)/PGSIZE = u := by
    simp only [PGSIZE] at *
    omega
  have hend : GrowEnd im d oldsz newsz s sl newsz :=
    .stranded ⟨hu,hlack,hlen⟩ (by rw [hframe]; exact hfu) hfill hfree (by rw [htar]; exact h.table) hlay
  cases n with
  | zero => exact returns_pure ⟨sl,rfl,hend⟩
  | succ n =>
    unfold allocLoop
    rw [if_neg hmore]
    exact returns_pure ⟨sl,rfl,hend⟩

theorem allocLoop_grows (n : ℕ) (h : Grows im d (fun _ => zeroed) (pgroundup oldsz/PGSIZE) u s s₁)
    (hu : pgroundup oldsz/PGSIZE ≤ u) (hub : ∀ v, v < u → v*PGSIZE < newsz)
    (hn : newsz ≤ (u+n)*PGSIZE) : Returns (allocLoop im d oldsz newsz n (u*PGSIZE))
      (Ended im d K oldsz newsz s) (s₁.graft d K) := by
  induction n generalizing u s₁ with
  | zero => exact returns_pure ⟨s₁,rfl,.whole u hn (h.not_strands (by omega) hn) hub h⟩
  | succ n ih =>
    by_cases hlt : u*PGSIZE < newsz
    swap
    · unfold allocLoop
      rw [if_neg hlt]
      exact returns_pure ⟨s₁,rfl,.whole u (by omega) (h.not_strands (by omega) (by omega)) hub h⟩
    have hup := range_lt hnew hlt
    have hlast : u ≤ (newsz-1)/PGSIZE := by
      simp only [PGSIZE] at *
      omega
    have hfu : s₁.frame d u = none := by
      rw [frame_of_filter (h.kept u (by omega))]
      apply habove u hup
      simp only [pgroundup, PGSIZE] at *
      omega
    cases hl : s₁.freelist with
    | nil =>
      have hc := h.count
      rw [hl, List.length_nil] at hc
      have hmono := need_mono (s.target d) (pgroundup oldsz/PGSIZE)
        (show u-pgroundup oldsz/PGSIZE+1 ≤ (newsz-1)/PGSIZE+1-pgroundup oldsz/PGSIZE by omega)
      rw [need] at hmono
      exact allocLoop_out h0 hnew hold habove h.toLay h.space hub hlt hl
        (not_strands_short hlast (by omega) (Nat.le_refl _)) (by omega)
    | cons g l =>
      have hgd : g ≠ d := (h.space.kalloc hl).2.dir
      unfold allocLoop
      rw [if_pos hlt]
      apply returns_bind
      apply returns_mono (kalloc_returns (s := s₁.graft d K) hl)
      rintro o s' ⟨rfl,rfl⟩
      change Returns (memset g 0 >>= _) _ _
      apply returns_bind
      apply returns_assign
      have hround := round_grafted (c := fun _ => zeroed) h.space K hup hfu hl (by decide)
      rw [← graft_fill hgd] at hround
      apply returns_bind
      apply returns_mono hround
      rintro _ _ ⟨s₂,rfl,⟨-,hg⟩ | ⟨-,hnull,rfl,rfl⟩⟩
      · rw [page_succ]
        refine ih (h.trans hg hu (by omega) (by omega)) (by omega) (fun v hv => ?_)
          (hn.trans (Nat.mul_le_mul_right _ (by omega)))
        exact Nat.lt_of_le_of_lt (Nat.mul_le_mul_right _ (by omega)) hlt
      rw [page_succ]
      exact allocLoop_lost h0 hnew hold habove h hu hub hlt
        (hn.trans (Nat.mul_le_mul_right _ (by omega))) hfu hl
        ((h.table.lacks hu 0).mp ⟨hnull,Or.inl rfl⟩)

theorem allocuvm_grafted (K : PageData) :
    Returns (allocuvm im d oldsz newsz) (Ended im d K oldsz newsz s) (s.graft d K) := by
  rw [allocuvm, if_neg (by omega), if_neg (by omega), pgroundup_page]
  refine allocLoop_grows h0 hnew hold habove _ (grows_here h0 _ _) (Nat.le_refl _)
    (fun v hv => ?_) (page_fuel _ _)
  simp only [pgroundup, PGSIZE] at *
  omega

theorem allocuvm_grows :
    Returns (allocuvm im d oldsz newsz) (fun r s' => GrowEnd im d oldsz newsz s s' r) s := by
  have hg := allocuvm_grafted h0 hnew hold habove (s.mem d)
  rw [graft_self] at hg
  apply returns_mono hg
  rintro r _ ⟨s₂,rfl,hend⟩
  have hup : s₂.graft d (s.mem d) = s₂ := by
    cases hend with
    | whole _ _ _ _ h => exact h.upper
    | undone _ _ _ hup => exact hup
    | stranded _ _ _ _ _ h => exact h.upper
  rw [hup]
  exact hend

end Loop

section Call

variable (h : Process im q d s) {n : ℤ}

theorem setSz_frame (q : Slot) (n : ℕ) (s : State) (d : Page) :
    State.frame {s with sz := update s.sz q n} d = s.frame d := rfl

include h

theorem grow_exact (hn : 0 < n) {newsz : ℕ} (hnew : (newsz : ℤ) = s.sz q+n) {r : ℕ}
    {s₁ : State} (hr : GrowEnd im d (s.sz q) newsz s s₁ r) (hns : ¬ Strands d (s.sz q) newsz s) :
    (r = 0 → Exact q d n s (-1) s₁) ∧
      (r ≠ 0 → Exact q d n s 0 {s₁ with sz := update s₁.sz q r}) := by
  cases hr with
  | stranded hs => exact absurd hs hns
  | undone _ _ hk _ hrest =>
    refine ⟨fun _ => ⟨Or.inr rfl,fun e => absurd e (by decide),fun e => absurd e (by decide),
      fun e => absurd e (by decide),fun _ => ⟨?_,hk⟩⟩,fun e => absurd rfl e⟩
    rw [hrest]
  | whole u hend _ _ hg =>
    refine ⟨fun e => by omega,fun _ => ⟨Or.inl rfl,fun _ => ?_,fun _ v hv => ?_,fun _ => ⟨?_,?_⟩,
      fun e => absurd e (by decide)⟩⟩
    · simp only [update_self]
      exact hnew
    · simp only [update_self] at hv
      rw [setSz_frame]
      by_cases hold : v*PGSIZE < s.sz q
      · rw [frame_of_filter (hg.kept v _)]
        · exact h.below v hold
        · simp only [pgroundup, PGSIZE] at *
          omega
      obtain ⟨g,-,-,hg,-⟩ := hg.page v (by simp only [pgroundup, PGSIZE] at *; omega)
        (by simp only [PGSIZE] at *; omega)
      rw [hg]
      simp
    · rintro v ⟨hv,-⟩
      apply hg.kept v
      simp only [pgroundup, PGSIZE] at *
      omega
    · rintro v g ⟨hv,-⟩ hgv
      exact hg.content h.space (range_lt h.small hv) hgv

theorem shrink_exact {newsz : ℕ} (hlt : newsz < s.sz q) (hnew : (newsz : ℤ) = s.sz q+n)
    (hc : Cleared d (fun v => Range newsz (s.sz q) v ∧
      Reached (s.target d) (pgroundup newsz/PGSIZE) v) s s₁) :
    Exact q d n s 0 {s₁ with sz := update s₁.sz q newsz} := by
  have hkept : ∀ v, v*PGSIZE < newsz → s₁.lookup d v = s.lookup d v := by
    intro v hv
    apply hc.kept v
    rintro ⟨⟨hr,-⟩,-⟩
    have := hr.1
    simp only [pgroundup, PGSIZE] at *
    omega
  refine ⟨Or.inl rfl,fun _ => ?_,fun _ v hv => ?_,fun _ => ⟨?_,?_⟩,fun e => absurd e (by decide)⟩
  · simp only [update_self]
    exact hnew
  · simp only [update_self] at hv
    rw [setSz_frame, State.frame, hkept v hv]
    exact h.below v (by omega)
  · rintro v ⟨-,hv⟩
    simp only [update_self] at hv
    exact congrArg (Option.filter present) (hkept v hv)
  rintro v g ⟨hold,hv⟩ hg
  simp only [update_self] at hv
  obtain ⟨-,-,hl,ht⟩ := h.space.frame v (range_lt h.small hold) g hg
  refine hc.mem g ht (fun w hw hgw => ?_)
  have e := h.space.frames v (range_lt h.small hold) w (range_lt h.small hw.1.2) g hg hgw
  have := hw.1.1
  subst e
  simp only [pgroundup, PGSIZE] at *
  omega

theorem shrink_zero (hpos : 0 < s.sz q) (hc : Cleared d (fun v => Range 0 (s.sz q) v ∧
      Reached (s.target d) (pgroundup 0/PGSIZE) v) s s₁) : ¬ Exact q d n s (-1) s₁ := by
  intro he
  have hr : Range 0 (s.sz q) 0 := by
    simp only [Range, pgroundup, PGSIZE]
    omega
  have hf := hc.frame_gone (v := 0) ⟨hr,Or.inl (by decide)⟩
  have hentry := (he.undone rfl).2.entry 0 (by decide)
  rw [frame_of_filter hentry] at hf
  exact h.below 0 hr.2 hf

structure Proper (q : Slot) (d : Page) (n : ℤ) (s : State) : Prop where
  grow : 0 < n → (s.sz q : ℤ)+n < KERNBASE → ¬ Strands d (s.sz q) ((s.sz q : ℤ)+n).toNat s
  shrink : n < 0 → s.sz q = 0 ∨ 0 < (s.sz q : ℤ)+n

theorem allocuvm_ends (newsz : ℕ) (hlt : s.sz q < newsz) (hk : newsz < KERNBASE) :
    Returns (allocuvm im d (s.sz q) newsz) (fun r s' => GrowEnd im d (s.sz q) newsz s s' r) s :=
  allocuvm_grows h.space hk hlt h.above

theorem growproc_grows (hn : 0 < n) (hhi : n < 2^31) :
    Returns (growproc im q n) (fun r s' => Exact q d n s r s') s ↔
      ((s.sz q : ℤ)+n < KERNBASE → ¬ Strands d (s.sz q) ((s.sz q : ℤ)+n).toNat s) := by
  have hsz := h.small
  have hstart : ∀ {P : ℤ → State → Prop}, Returns (growproc im q n) P s ↔ Returns (do
        let sz' ← allocuvm im d (s.sz q) ((s.sz q : ℤ)+n).toNat
        if sz' = 0 then return -1
        else do
          setSz q sz'
          return 0) P s := by
    intro P
    have hmod : (((s.sz q : ℤ)+n)%2^32).toNat = ((s.sz q : ℤ)+n).toNat := by
      rw [Int.emod_eq_of_lt (by omega)]
      simp only [KERNBASE] at hsz
      omega
    simp only [growproc, getSz, fetch, getPgdir, atom, Bind.bind, Prog.bind, Returns, Ends, h.dir,
      if_pos hn, hmod]
  rw [hstart]
  by_cases hk : (s.sz q : ℤ)+n < KERNBASE
  · have hret := allocuvm_ends h ((s.sz q : ℤ)+n).toNat (by omega) (by omega)
    constructor
    · intro hex _ hs
      obtain ⟨r,s₁,hc,hend⟩ := can_of_returns hret
      cases hend with
      | whole _ _ hns | undone hns => exact hns hs
      | stranded _ hf =>
        have hcan : Can (do
            let sz' ← allocuvm im d (s.sz q) ((s.sz q : ℤ)+n).toNat
            if sz' = 0 then return -1
            else do
              setSz q sz'
              return (0 : ℤ)) (some (.ok (0,{s₁ with
                sz := update s₁.sz q ((s.sz q : ℤ)+n).toNat}))) s := by
          refine can_bind hc ?_
          rw [if_neg (by omega)]
          exact can_pure _ _
        obtain ⟨_,_,e,hexact⟩ := ends_can hex hcan
        cases e
        refine hexact.pages rfl ((((s.sz q : ℤ)+n).toNat-1)/PGSIZE) ?_ hf
        simp only [update_self, PGSIZE]
        omega
    · intro hns
      apply returns_bind
      apply returns_mono hret
      intro r s₁ hend
      obtain ⟨hfail,hok⟩ := grow_exact h hn (by omega) hend (hns hk)
      split
      · rename_i e
        exact returns_pure (hfail e)
      rename_i e
      apply returns_bind
      apply returns_assign
      exact returns_pure (hok e)
  · refine iff_of_true ?_ (fun e => absurd e hk)
    rw [allocuvm, if_pos (by omega)]
    exact returns_pure ⟨Or.inr rfl,fun e => absurd e (by decide),fun e => absurd e (by decide),
      fun e => absurd e (by decide),fun _ => ⟨rfl,same_refl d _ s⟩⟩

theorem growproc_shrinks (hn : n < 0) (hlo : -2^31 ≤ n) :
    Returns (growproc im q n) (fun r s' => Exact q d n s r s') s ↔
      (s.sz q = 0 ∨ 0 < (s.sz q : ℤ)+n) := by
  have hsz := h.small
  simp only [KERNBASE] at hsz
  have hstart : ∀ {P : ℤ → State → Prop}, Returns (growproc im q n) P s ↔ Returns (do
        let sz' ← deallocuvm im d (s.sz q) (((s.sz q : ℤ)+n)%2^32).toNat
        if sz' = 0 then return -1
        else do
          setSz q sz'
          return 0) P s := by
    intro P
    simp only [growproc, getSz, fetch, getPgdir, atom, Bind.bind, Prog.bind, Returns, Ends, h.dir,
      if_neg (show ¬ n > 0 by omega), if_pos hn]
  rw [hstart]
  by_cases hneg : (s.sz q : ℤ)+n < 0
  · -- the new size wraps around, and `deallocuvm` returns the old one
    have hwrap : s.sz q ≤ (((s.sz q : ℤ)+n)%2^32).toNat := by omega
    rw [deallocuvm, if_pos hwrap]
    by_cases h0 : s.sz q = 0
    · refine iff_of_true ?_ (Or.inl h0)
      apply returns_bind
      apply returns_pure
      rw [if_pos h0]
      exact returns_pure ⟨Or.inr rfl,fun e => absurd e (by decide),fun e => absurd e (by decide),
        fun e => absurd e (by decide),fun _ => ⟨rfl,same_refl d _ s⟩⟩
    refine iff_of_false (fun hex => ?_) (by omega)
    have hcan : Can (do
        let sz' ← (pure (s.sz q) : VmProg ℕ)
        if sz' = 0 then return -1
        else do
          setSz q sz'
          return (0 : ℤ)) (some (.ok (0,{s with sz := update s.sz q (s.sz q)}))) s := by
      refine can_bind (can_pure _ _) ?_
      rw [if_neg h0]
      exact can_pure _ _
    obtain ⟨_,_,e,hexact⟩ := ends_can hex hcan
    cases e
    have := hexact.size rfl
    simp only [update_self] at this
    omega
  · have hmod : ((((s.sz q : ℤ)+n)%2^32).toNat : ℤ) = (s.sz q : ℤ)+n := by omega
    generalize (((s.sz q : ℤ)+n)%2^32).toNat = newsz at *
    have hlt : newsz < s.sz q := by omega
    have hret := deallocuvm_clears h.space hlt (Nat.le_of_lt h.small)
    by_cases h0 : newsz = 0
    · subst h0
      refine iff_of_false (fun hex => ?_) (by omega)
      obtain ⟨r,s₁,hc,rfl,-,hcl⟩ := can_of_returns hret
      obtain ⟨_,_,e,hexact⟩ := ends_can hex (can_bind hc (by rw [if_pos rfl]; exact can_pure _ _))
      cases e
      exact shrink_zero h (by omega) hcl hexact
    refine iff_of_true ?_ (by omega)
    apply returns_bind
    apply returns_mono hret
    rintro r s₁ ⟨rfl,-,hcl⟩
    rw [if_neg h0]
    apply returns_bind
    apply returns_assign
    exact returns_pure (shrink_exact h hlt hmod hcl)

theorem growproc_exact_iff (n : Uint) :
    Returns (growproc im q n.toInt) (fun r s' => Exact q d n.toInt s r s') s ↔
      Proper q d n.toInt s := by
  have hlo : -2^31 ≤ n.toInt := n.le_toInt
  have hhi : n.toInt < 2^31 := n.toInt_lt
  generalize n.toInt = n at *
  rcases lt_trichotomy n 0 with hn | rfl | hn
  · rw [growproc_shrinks h hn hlo]
    exact ⟨fun hs => ⟨fun hp => by omega,fun _ => hs⟩,fun hp => hp.shrink hn⟩
  · refine iff_of_true ?_ ⟨fun hp => absurd hp (by decide),fun hp => absurd hp (by decide)⟩
    have hexact : Exact q d 0 s 0 {s with sz := update s.sz q (s.sz q)} := by
      have hsame : ({s with sz := update s.sz q (s.sz q)} : State) = s := by
        rw [update_eq_self]
      rw [hsame]
      exact ⟨Or.inl rfl,fun _ => by omega,fun _ => h.below,fun _ => same_refl d _ s,
        fun e => absurd e (by decide)⟩
    simp only [growproc, getSz, fetch, getPgdir, atom, Bind.bind, Prog.bind, Returns, Ends, h.dir]
    exact ⟨0,_,rfl,hexact⟩
  · rw [growproc_grows h hn hhi]
    exact ⟨fun hs => ⟨fun _ => hs,fun hp => by omega⟩,fun hp => hp.grow hn⟩

end Call

section Example

theorem nproc_positive : 0 < NPROC := by decide

def firstSlot : Slot := ⟨0,nproc_positive⟩

def sized (n : ℕ) (s : State) : State := {s with pgdir := fun _ => some 2000, sz := fun _ => n}

theorem onePage_process (q : Slot) : Process tightImage q 2000 (sized 4096 (onePage [3002] 0)) := by
  obtain ⟨hu,-,hf⟩ := onePage_maps (l := [3002]) (v := 0) (by decide) (by decide) (by decide)
    (by decide)
  have hf' : (sized 4096 (onePage [3002] 0)).frame 2000 = update (fun _ => none) 0 (some 3001) := hf
  have hsz : (sized 4096 (onePage [3002] 0)).sz q = 4096 := rfl
  refine ⟨hu,rfl,by rw [hsz]; decide,fun v hv => ?_,fun v _ hv => ?_⟩
  · rw [hsz] at hv
    have h0 : v = 0 := by
      simp only [PGSIZE] at hv
      omega
    rw [hf', h0, update_self]
    simp
  rw [hsz] at hv
  have h0 : v ≠ 0 := by
    rintro rfl
    simp only [PGSIZE] at hv
    omega
  rw [hf', update_of_ne h0]

theorem empty_process (q : Slot) : Process tightImage q 2000 (sized 0 (bareKernel [3000])) := by
  have hu : UserSpace tightImage 2000 (bareKernel [3000]) :=
    bareKernel_space (by decide) (by decide) (by decide)
  have hkern : 0 < KERNBASE := by decide
  exact ⟨hu,rfl,hkern,fun v hv => absurd hv (Nat.not_lt_zero _),
    fun v _ _ => bareKernel_frame [3000] 2000 v⟩

theorem growproc_exact_page : Process tightImage firstSlot 2000 (sized 4096 (onePage [3002] 0)) ∧
    Returns (growproc tightImage firstSlot (4096 : Uint).toInt)
      (fun r s' => Exact firstSlot 2000 (4096 : Uint).toInt (sized 4096 (onePage [3002] 0)) r s')
      (sized 4096 (onePage [3002] 0)) := by
  have h := onePage_process firstSlot
  have ht : (sized 4096 (onePage [3002] 0)).target 2000 0 = some 3000 := by
    have := (onePage_maps (l := [3002]) (v := 0) (by decide) (by decide) (by decide) (by decide)).2.1
    exact (congrFun this 0).trans (update_self ..)
  have hsz : (sized 4096 (onePage [3002] 0)).sz firstSlot = 4096 := rfl
  generalize sized 4096 (onePage [3002] 0) = s at *
  refine ⟨h,(growproc_exact_iff h 4096).mpr ⟨fun _ _ => ?_,fun hn => absurd hn (by decide)⟩⟩
  rintro ⟨-,⟨hlack,-⟩,-⟩
  rw [hsz] at hlack
  have hi : (pgroundup 4096/PGSIZE+(((((4096 : ℕ) : ℤ)+(4096 : Uint).toInt).toNat-1)/PGSIZE-
      pgroundup 4096/PGSIZE))/NPTENTRIES = 0 := by decide
  rw [hi, ht] at hlack
  cases hlack

/-- Shrinking a process of one page by one page and by two, and growing an
empty process by one page when one page is free. -/
theorem growproc_inexact : ¬ Returns (growproc tightImage firstSlot (-4096))
      (fun r s' => Exact firstSlot 2000 (-4096) (sized 4096 (onePage [3002] 0)) r s')
      (sized 4096 (onePage [3002] 0)) ∧
    ¬ Returns (growproc tightImage firstSlot (-8192))
      (fun r s' => Exact firstSlot 2000 (-8192) (sized 4096 (onePage [3002] 0)) r s')
      (sized 4096 (onePage [3002] 0)) ∧
    ¬ Returns (growproc tightImage firstSlot 4096)
      (fun r s' => Exact firstSlot 2000 4096 (sized 0 (bareKernel [3000])) r s')
      (sized 0 (bareKernel [3000])) := by
  have h := onePage_process firstSlot
  have h' := empty_process firstSlot
  have hsz : (sized 4096 (onePage [3002] 0)).sz firstSlot = 4096 := rfl
  have hsz' : (sized 0 (bareKernel [3000])).sz firstSlot = 0 := rfl
  have ht : (sized 0 (bareKernel [3000])).target 2000 0 = none := bareKernel_target [3000] 2000 0
  have hl : (sized 0 (bareKernel [3000])).freelist = [3000] := rfl
  generalize sized 4096 (onePage [3002] 0) = s at *
  generalize sized 0 (bareKernel [3000]) = s' at *
  refine ⟨fun hex => ?_,fun hex => ?_,fun hex => ?_⟩
  · have := (growproc_shrinks h (by decide) (by decide)).mp hex
    rw [hsz] at this
    omega
  · have := (growproc_shrinks h (by decide) (by decide)).mp hex
    rw [hsz] at this
    omega
  apply (growproc_grows h' (by decide) (by decide)).mp hex
  · rw [hsz']
    decide
  rw [hsz']
  refine ⟨by decide,⟨ht,Or.inl (by decide)⟩,?_⟩
  have hk : ((((0 : ℕ) : ℤ)+4096).toNat-1)/PGSIZE-pgroundup 0/PGSIZE = 0 := by decide
  rw [hl, hk]
  rfl

end Example

end Yeet.Vm
