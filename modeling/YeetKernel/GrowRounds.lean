import YeetKernel.ShortMemory

/-!
# The rounds of `allocuvm` and `copyuvm`

While nothing else runs `kalloc` fails only when the free list is used up. A
page takes one free page, or two if it is the first one in a table that is
missing. `Grows` says what a directory has gained with the pages of a range,
and `need` counts what they have taken; the ranges can be put together. One
round of either loop grows the directory by a page, whatever its upper half.
-/

namespace Yeet.Vm
open Yeet.Kernel Resumption NewSpace Function

abbrev Filling := Uint × PageData

def zeroed : Filling := (PTE_W ||| PTE_U,fun _ => 0)

variable {v₀ u w j k oldsz newsz v : ℕ}

section Pages

theorem range_lt (hnew : newsz < KERNBASE) (h : v*PGSIZE < newsz) : v < UPAGES :=
  upages_lt (Nat.le_of_lt hnew) h

theorem range_pages : Range oldsz newsz v ↔ pgroundup oldsz/PGSIZE ≤ v ∧ v*PGSIZE < newsz := by
  simp only [Range, pgroundup, PGSIZE]
  omega

theorem reached_all {T : ℕ → Option Page} (ht : T (v₀/NPTENTRIES) ≠ none) (h : v₀ ≤ v) :
    Reached T v₀ v := by
  simp only [Reached, NPTENTRIES] at *
  by_cases e : v/1024 = v₀/1024
  · left
    omega
  · exact Or.inr ⟨v₀/1024,Nat.le_refl _,by omega,ht⟩

theorem page_succ (u : ℕ) : u*PGSIZE+PGSIZE = (u+1)*PGSIZE := by
  simp only [PGSIZE]
  omega

theorem pgroundup_page (sz : ℕ) : pgroundup sz = pgroundup sz/PGSIZE*PGSIZE := by
  simp only [pgroundup, PGSIZE]
  omega

theorem page_fuel (v n : ℕ) : n ≤ (v+(n/PGSIZE+1))*PGSIZE := by
  simp only [PGSIZE]
  omega

end Pages

section Need

variable {T T₁ : ℕ → Option Page}

/-- The page `v₀+k` needs a table: it is missing, and no page before it in the
range is in the same table. -/
def Lacks (T : ℕ → Option Page) (v₀ k : ℕ) : Prop :=
  T ((v₀+k)/NPTENTRIES) = none ∧ (k = 0 ∨ (v₀+k)%NPTENTRIES = 0)

instance decidableLacks (T : ℕ → Option Page) (v₀ k : ℕ) : Decidable (Lacks T v₀ k) :=
  inferInstanceAs (Decidable (_ ∧ _))

def need (T : ℕ → Option Page) (v₀ : ℕ) : ℕ → ℕ
  | 0 => 0
  | k+1 => need T v₀ k+1+(if Lacks T v₀ k then 1 else 0)

theorem need_mono (T : ℕ → Option Page) (v₀ : ℕ) (h : j ≤ k) : need T v₀ j ≤ need T v₀ k := by
  induction k with
  | zero =>
    obtain rfl : j = 0 := by omega
    exact Nat.le_refl _
  | succ k ih =>
    rcases Nat.eq_or_lt_of_le h with rfl | hlt
    · exact Nat.le_refl _
    · have := ih (by omega)
      simp only [need]
      omega

theorem le_need (T : ℕ → Option Page) (v₀ k : ℕ) : k ≤ need T v₀ k := by
  induction k with
  | zero => exact Nat.le_refl _
  | succ k ih =>
    simp only [need]
    omega

/-- `T₁` are the tables `T` and those of the pages from `v₀` up to `u`. -/
def Tabled (T T₁ : ℕ → Option Page) (v₀ u : ℕ) : Prop :=
  ∀ i, T₁ i = none ↔ T i = none ∧ ∀ v, v₀ ≤ v → v < u → v/NPTENTRIES ≠ i

theorem Tabled.lacks (h : Tabled T T₁ v₀ u) (hu : v₀ ≤ u) (j : ℕ) :
    Lacks T₁ u j ↔ Lacks T v₀ (u-v₀+j) := by
  have e : v₀+(u-v₀+j) = u+j := by omega
  rw [Lacks, Lacks, e, h, and_assoc]
  refine and_congr_right (fun _ => ⟨fun hor => ?_,fun hor => ⟨fun v h1 h2 => ?_,by omega⟩⟩)
  · by_contra hc
    apply hor.1 (u-1) (by omega) (by omega)
    simp only [NPTENTRIES] at *
    omega
  · simp only [NPTENTRIES] at *
    omega

theorem Tabled.need (h : Tabled T T₁ v₀ u) (hu : v₀ ≤ u) (j : ℕ) :
    need T v₀ (u-v₀+j) = need T v₀ (u-v₀)+need T₁ u j := by
  induction j with
  | zero => rfl
  | succ j ih =>
    have hl := h.lacks hu j
    rw [← Nat.add_assoc, Vm.need, Vm.need, ih]
    simp only [hl]
    omega

theorem Tabled.trans {T₂ : ℕ → Option Page} (h : Tabled T T₁ v₀ u) (h' : Tabled T₁ T₂ u w)
    (hu : v₀ ≤ u) (hw : u ≤ w) : Tabled T T₂ v₀ w := by
  intro i
  rw [h' i, h i]
  constructor
  · rintro ⟨⟨h1,h2⟩,h3⟩
    refine ⟨h1,fun v hv hvw => ?_⟩
    by_cases e : v < u
    · exact h2 v hv e
    · exact h3 v (by omega) hvw
  · rintro ⟨h1,h2⟩
    exact ⟨⟨h1,fun v hv hvu => h2 v hv (by omega)⟩,fun v hv hvw => h2 v (by omega) hvw⟩

end Need

variable {im : Image} {d g t : Page} {s s₁ s₂ : State} {c : ℕ → Filling} {K : PageData}

/-- An entry is as before, or the table is new and the entry clear. -/
def Fixed (o o' : Option Uint) : Prop := o' = o ∨ o = none ∧ o' = some 0

/-- The entries of the directory are as before, but for new tables. -/
def Entered (d : Page) (s s' : State) : Prop := ∀ i t, s'.target d i = some t →
  s'.pte d i = s.pte d i ∨ t ∈ s.freelist ∧ s'.pte d i = mkPte t (PTE_W ||| PTE_U)

/-- The pages from `v₀` up to `u` are mapped to free pages of `s` and filled as
`c` says; the other mappings, the upper half of the directory and the pages in
use, tables apart, are as before. -/
structure Lay (d : Page) (c : ℕ → Filling) (v₀ u : ℕ) (s s' : State) : Prop where
  entered : Entered d s s'
  page : ∀ v, v₀ ≤ v → v < u → ∃ g ∈ s.freelist,
    s'.lookup d v = some (mkPte g (c v).1) ∧ s'.frame d v = some g ∧ s'.mem g = (c v).2
  fixed : ∀ v, ¬ (v₀ ≤ v ∧ v < u) → Fixed (s.lookup d v) (s'.lookup d v)
  mem : ∀ g, g ∉ s.freelist → g ≠ d → (∀ i, s.target d i ≠ some g) → s'.mem g = s.mem g
  upper : s'.graft d (s.mem d) = s'
  rest : s' = {s with mem := s'.mem, freelist := s'.freelist}

structure Grows (im : Image) (d : Page) (c : ℕ → Filling) (v₀ u : ℕ) (s s' : State) : Prop extends
    Lay d c v₀ u s s' where
  space : UserSpace im d s'
  table : Tabled (s.target d) (s'.target d) v₀ u
  stay : ∀ i t, s.target d i = some t → s'.target d i = some t
  vacant : ∀ v, v₀ ≤ v → v < u → s.frame d v = none
  count : s'.freelist.length+need (s.target d) v₀ (u-v₀) = s.freelist.length
  sub : ∀ g ∈ s'.freelist, g ∈ s.freelist
  given : ∀ g ∈ s.freelist, g ∈ s'.freelist ∨ s'.Held d g

theorem Entered.owned (h : Entered d s s₁) (i : ℕ) (t : Page) (ht : s₁.target d i = some t) :
    s.target d i = some t ∨ t ∈ s.freelist :=
  (h i t ht).imp (fun e => target_congr e ▸ ht) And.left

theorem Entered.trans (h : Entered d s s₁) (h' : Entered d s₁ s₂)
    (hsub : ∀ g ∈ s₁.freelist, g ∈ s.freelist) : Entered d s s₂ := by
  intro i t ht
  rcases h' i t ht with e | ⟨hl,e⟩
  · rw [e]
    exact h i t (target_congr e ▸ ht)
  · exact Or.inr ⟨hsub t hl,e⟩

theorem Fixed.filter {o o' : Option Uint} (h : Fixed o o') : o'.filter present = o.filter present := by
  rcases h with rfl | ⟨rfl,rfl⟩
  · rfl
  · rfl

theorem Fixed.some {o' : Option Uint} {x : Uint} (h : Fixed (some x) o') : o' = some x :=
  h.resolve_right (fun hc => nomatch hc.1)

theorem Fixed.trans {o o' o'' : Option Uint} (h : Fixed o o') (h' : Fixed o' o'') : Fixed o o'' := by
  rcases h with rfl | ⟨rfl,rfl⟩
  · exact h'
  · exact Or.inr ⟨rfl,h'.some⟩

theorem Lay.kept (h : Lay d c v₀ u s s₁) (v : ℕ) (hv : ¬ (v₀ ≤ v ∧ v < u)) :
    (s₁.lookup d v).filter present = (s.lookup d v).filter present := (h.fixed v hv).filter

theorem grows_here (h : UserSpace im d s) (c : ℕ → Filling) (v₀ : ℕ) : Grows im d c v₀ v₀ s s where
  space := h
  table i := ⟨fun h => ⟨h,fun v h1 h2 => absurd h2 (by omega)⟩,fun h => h.1⟩
  stay _ _ ht := ht
  vacant v h1 h2 := absurd h2 (by omega)
  entered i t _ := Or.inl rfl
  page v h1 h2 := absurd h2 (by omega)
  fixed _ _ := Or.inl rfl
  count := by rw [Nat.sub_self, need, Nat.add_zero]
  sub _ hg := hg
  given _ hg := Or.inl hg
  mem _ _ _ _ := rfl
  upper := graft_self s d
  rest := rfl

theorem Lay.congr {c' : ℕ → Filling} (h : Lay d c v₀ u s s₁)
    (hc : ∀ v, v₀ ≤ v → v < u → c v = c' v) : Lay d c' v₀ u s s₁ :=
  ⟨h.entered,fun v h1 h2 => hc v h1 h2 ▸ h.page v h1 h2,h.fixed,h.mem,h.upper,h.rest⟩

theorem upper_trans (h : s₁.graft d (s.mem d) = s₁) (h' : s₂.graft d (s₁.mem d) = s₂) :
    s₂.graft d (s.mem d) = s₂ := by
  rw [← h, graft_of_graft] at h'
  exact h'

theorem Lay.trans (h : Lay d c v₀ u s s₁) (h' : Lay d c u w s₁ s₂) (h1 : UserSpace im d s₁)
    (hsub : ∀ g ∈ s₁.freelist, g ∈ s.freelist) (hu : v₀ ≤ u) (hw : u ≤ w) (hlim : u ≤ UPAGES) :
    Lay d c v₀ w s s₂ := by
  refine ⟨h.entered.trans h'.entered hsub,fun v hv hvw => ?_,fun v hv => ?_,fun x h2 h3 h4 => ?_,?_,?_⟩
  · by_cases e : v < u
    · obtain ⟨x,hx,hxl,hxf,hxm⟩ := h.page v hv e
      have hfix := h'.fixed v (by omega)
      obtain ⟨-,hd,hl,ht⟩ := h1.frame v (by omega) x hxf
      refine ⟨x,hx,?_,?_,?_⟩
      · rw [hxl] at hfix
        exact hfix.some
      · rw [frame_of_filter hfix.filter]
        exact hxf
      · rw [h'.mem x hl hd ht]
        exact hxm
    · obtain ⟨x,hx,hxp⟩ := h'.page v (by omega) hvw
      exact ⟨x,hsub x hx,hxp⟩
  · exact (h.fixed v (by omega)).trans (h'.fixed v (by omega))
  · have ht : ∀ i, s₁.target d i ≠ some x := fun i hi =>
      (h.entered.owned i x hi).elim (h4 i) h2
    rw [h'.mem x (fun hm => h2 (hsub x hm)) h3 ht, h.mem x h2 h3 h4]
  · exact upper_trans h.upper h'.upper
  · rw [h'.rest, h.rest]

theorem Grows.trans (h : Grows im d c v₀ u s s₁) (h' : Grows im d c u w s₁ s₂) (hu : v₀ ≤ u)
    (hw : u ≤ w) (hlim : u ≤ UPAGES) : Grows im d c v₀ w s s₂ where
  toLay := h.toLay.trans h'.toLay h.space h.sub hu hw hlim
  space := h'.space
  table := h.table.trans h'.table hu hw
  stay i t ht := h'.stay i t (h.stay i t ht)
  vacant v hv hvw := by
    by_cases e : v < u
    · exact h.vacant v hv e
    · rw [← frame_of_filter (h.kept v (by omega))]
      exact h'.vacant v (by omega) hvw
  count := by
    have e : w-v₀ = u-v₀+(w-u) := by omega
    have h1 := h.count
    have h2 := h'.count
    rw [e, h.table.need hu]
    omega
  sub g hg := h.sub g (h'.sub g hg)
  given g hg := by
    rcases h.given g hg with hg | hg | ⟨i,hi⟩ | ⟨v,hv,hf⟩
    · exact h'.given g hg
    · exact Or.inr (Or.inl hg)
    · exact Or.inr (Or.inr (Or.inl ⟨i,h'.stay i g hi⟩))
    refine Or.inr (Or.inr (Or.inr ⟨v,hv,?_⟩))
    by_cases e : u ≤ v ∧ v < w
    · rw [h'.vacant v e.1 e.2] at hf
      cases hf
    · rw [frame_of_filter (h'.kept v e)]
      exact hf

section Rounds

variable {l : List Page}

def State.mapNew (s : State) (t : Page) (u : ℕ) (g : Page) (l : List Page) (c : Filling) : State :=
  (State.fill {s with freelist := l} g c.2).setPte t (u%NPTENTRIES) (mkPte g c.1)

theorem mapNew_space (h : UserSpace im d s₁) (hl : s₁.freelist = g::l)
    (ht : s₁.target d (u/NPTENTRIES) = some t) {c : Filling} (hp : c.1 < 4096) :
    UserSpace im d (s₁.mapNew t u g l c) ∧ (s₁.mapNew t u g l c).target d = s₁.target d ∧
      (s₁.mapNew t u g l c).lookup d = update (s₁.lookup d) u (some (mkPte g c.1)) := by
  obtain ⟨h1,hg⟩ := h.kalloc hl
  obtain ⟨h2,htar,hlook,hspare⟩ := h1.fills hg c.2
  have ht' := (congrFun htar _).trans ht
  refine ⟨h2.mapPte (hspare hg) ht' hp,?_,?_⟩
  · exact (target_setPte (h2.table _ t ht').1 _ _).trans htar
  · exact (lookup_setPte h2 ht' _).trans (by rw [hlook]; rfl)

section Space

variable (h : UserSpace im d s) (hv : u < UPAGES) (hp : (c u).1 < 4096)
include h hv hp

theorem grows_map (hf : s.frame d u = none) (hl : s.freelist = g::l)
    (ht : s.target d (u/NPTENTRIES) = some t) :
    Grows im d c u (u+1) s (s.mapNew t u g l (c u)) := by
  obtain ⟨h2,htar,hlook⟩ := mapNew_space h hl ht hp
  have hgl : g ∈ s.freelist := by rw [hl]; simp
  have htd := (h.table _ t ht).1
  have hgt : g ≠ t := fun e => (h.table _ t ht).2 (e ▸ hgl)
  have hgd : g ≠ d := fun e => h.dir (e ▸ hgl)
  have hmem : ∀ x, x ≠ t → x ≠ g → (s.mapNew t u g l (c u)).mem x = s.mem x := by
    intro x hxt hxg
    simp only [State.mapNew, State.setPte, State.fill]
    rw [update_of_ne hxt, update_of_ne hxg]
  have hframe : (s.mapNew t u g l (c u)).frame d u = some g := by
    rw [frame_update hlook, update_self]
    exact pteFrame_mkPte (h.managed g hgl) hp
  have hone : u+1-u = 1 := by omega
  have hlack : ¬ Lacks (s.target d) u 0 := fun hc => by
    have := hc.1
    rw [Nat.add_zero, ht] at this
    cases this
  refine ⟨⟨fun i x _ => Or.inl ?_,fun v h1 h2 => ?_,fun v hv => Or.inl ?_,
    fun x h1 _ h3 => hmem x (fun e => h3 _ (e ▸ ht)) (fun e => h1 (e ▸ hgl)),?_,rfl⟩,h2,
    fun i => ?_,fun i x hx => by rwa [htar],fun v h1 h2 => ?_,?_,fun x hx => ?_,fun x hx => ?_⟩
  · rw [State.pte, State.pte, hmem d htd.symm hgd.symm]
  · obtain rfl : v = u := by omega
    refine ⟨g,hgl,by rw [hlook, update_self],hframe,?_⟩
    simp only [State.mapNew, State.setPte, State.fill]
    rw [update_of_ne hgt, update_self]
  · rw [hlook, update_of_ne (by omega)]
  · rw [← hmem d htd.symm hgd.symm, graft_self]
  · rw [htar]
    refine ⟨fun hi => ⟨hi,fun v h1 h2 e => ?_⟩,fun hi => hi.1⟩
    obtain rfl : v = u := by omega
    rw [← e, ht] at hi
    cases hi
  · obtain rfl : v = u := by omega
    exact hf
  · rw [hone, need, need, if_neg hlack, hl]
    rfl
  · rw [hl]
    exact List.mem_cons_of_mem g hx
  rw [hl] at hx
  rcases List.mem_cons.mp hx with rfl | hx
  · exact Or.inr (Or.inr (Or.inr ⟨u,hv,hframe⟩))
  · exact Or.inl hx

def State.mapTable (s : State) (d : Page) (u : ℕ) (g t : Page) (l : List Page) (c : Filling) :
    State :=
  ((State.fill {s with freelist := l} g c.2).install d (u/NPTENTRIES) t).setPte t
    (u%NPTENTRIES) (mkPte g c.1)

theorem mapTable_space (hl : s.freelist = g::t::l) (hnull : s.target d (u/NPTENTRIES) = none) :
    UserSpace im d (s.mapTable d u g t l (c u)) ∧
      (s.mapTable d u g t l (c u)).target d = update (s.target d) (u/NPTENTRIES) (some t) ∧
      (s.mapTable d u g t l (c u)).frame d = update (s.frame d) u (some g) ∧
      (s.mapTable d u g t l (c u)).lookup d u = some (mkPte g (c u).1) ∧
      ∀ v, v ≠ u → (s.mapTable d u g t l (c u)).lookup d v =
        if v/NPTENTRIES = u/NPTENTRIES then some 0 else s.lookup d v := by
  obtain ⟨h1,hg⟩ := h.kalloc hl
  obtain ⟨h2,ht⟩ := h1.kalloc (l := l) rfl
  have hgt : g ≠ t := fun e => hg.free (by rw [e]; simp)
  have hg2 : State.Spare im d {s with freelist := l} g :=
    ⟨hg.managed,hg.dir,fun hm => hg.free (by simp [hm]),hg.table,hg.frame⟩
  have hi : u/NPTENTRIES < NPDENTRIES := Nat.lt_of_lt_of_le (dir_user hv) (by decide)
  -- the frame is filled
  obtain ⟨h3,htar,hlook,spare⟩ := h2.fills hg2 (c u).2
  have hfr := frame_eq_of_lookup hlook
  have hgf := spare hg2
  have htf := spare ht
  have hnull' : (State.fill {s with freelist := l} g (c u).2).target d (u/NPTENTRIES) = none := by
    rw [htar]
    exact hnull
  generalize hfill : State.fill {s with freelist := l} g (c u).2 = sf at *
  -- the table is entered
  have h4 := h3.install htf hnull' hi
  have htar' := target_install (s := sf) htf.managed htf.dir hi
  have hfr' := frame_install h3 htf hnull' hi
  have hlook' := lookup_install h3 htf hi
  have htab : (sf.install d (u/NPTENTRIES) t).target d (u/NPTENTRIES) = some t := by
    rw [htar', update_self]
  have hgi : (sf.install d (u/NPTENTRIES) t).Spare im d g := by
    refine ⟨hgf.managed,hgf.dir,hgf.free,fun i => ?_,fun v hv => ?_⟩
    · rw [htar']
      by_cases e : i = u/NPTENTRIES
      · rw [e, update_self]
        exact fun e => hgt (Option.some.inj e).symm
      · rw [update_of_ne e]
        exact hgf.table i
    · rw [hfr']
      exact hgf.frame v hv
  have hset := lookup_setPte h4 htab (mkPte g (c u).1)
  have hmt : s.mapTable d u g t l (c u) =
      (sf.install d (u/NPTENTRIES) t).setPte t (u%NPTENTRIES) (mkPte g (c u).1) := by
    rw [State.mapTable, hfill]
  rw [hmt]
  refine ⟨h4.mapPte hgi htab hp,?_,?_,?_,fun v hv => ?_⟩
  · rw [target_setPte (h4.table _ t htab).1, htar', htar]
    rfl
  · rw [frame_update hset, hfr', hfr, pteFrame_mkPte hg.managed hp]
    rfl
  · rw [hset, update_self]
  · rw [hset, update_of_ne hv, hlook', hlook]
    rfl

theorem grows_install (hf : s.frame d u = none) (hl : s.freelist = g::t::l)
    (hnull : s.target d (u/NPTENTRIES) = none) :
    Grows im d c u (u+1) s (s.mapTable d u g t l (c u)) := by
  obtain ⟨h2,htar,hfr,hentry,hlook⟩ := mapTable_space h hv hp hl hnull
  have hgl : g ∈ s.freelist := by rw [hl]; simp
  have htl : t ∈ s.freelist := by rw [hl]; simp
  have hgd : g ≠ d := fun e => h.dir (e ▸ hgl)
  have htd : t ≠ d := fun e => h.dir (e ▸ htl)
  have hgt : g ≠ t := by
    have := h.nodup
    rw [hl] at this
    rintro rfl
    simp at this
  have hmem : ∀ x, x ≠ d → x ≠ t → x ≠ g → (s.mapTable d u g t l (c u)).mem x = s.mem x := by
    intro x hxd hxt hxg
    simp only [State.mapTable, State.install, State.setPte, State.fill]
    rw [update_of_ne hxt, update_of_ne hxd, update_of_ne hxt, update_of_ne hxg]
  have hup : (s.mapTable d u g t l (c u)).graft d (s.mem d) = s.mapTable d u g t l (c u) := by
    rw [State.mapTable, ← graft_setPte htd, ← graft_install htd (dir_user hv), ← graft_fill hgd]
    have : State.graft {s with freelist := l} d (s.mem d) = {s with freelist := l} :=
      graft_self {s with freelist := l} d
    rw [this]
  have hone : u+1-u = 1 := by omega
  refine ⟨⟨fun i x hx => ?_,fun v h1 h2 => ?_,fun v hv => ?_,fun x h1 h2 h3 => ?_,hup,rfl⟩,h2,
    fun i => ?_,fun i x hx => ?_,fun v h1 h2 => ?_,?_,fun x hx => ?_,fun x hx => ?_⟩
  · rw [htar] at hx
    rw [State.mapTable, pte_setPte_ne (Or.inl htd.symm), State.install]
    by_cases e : i = u/NPTENTRIES
    · rw [e, update_self] at hx
      obtain rfl : t = x := Option.some.inj hx
      rw [e, pte_setPte (Nat.lt_of_lt_of_le (dir_user hv) (by decide))]
      exact Or.inr ⟨htl,rfl⟩
    · rw [pte_setPte_ne (Or.inr e), pte_fill_ne htd.symm, pte_fill_ne hgd.symm]
      exact Or.inl rfl
  · obtain rfl : v = u := by omega
    refine ⟨g,hgl,hentry,by rw [hfr, update_self],?_⟩
    simp only [State.mapTable, State.install, State.setPte, State.fill]
    rw [update_of_ne hgt, update_of_ne hgd, update_of_ne hgt, update_self]
  · rw [hlook v (by omega)]
    split
    · rename_i e
      exact Or.inr ⟨lookup_none.mpr (e ▸ hnull),rfl⟩
    · exact Or.inl rfl
  · exact hmem x h2 (fun e => h1 (e ▸ htl)) (fun e => h1 (e ▸ hgl))
  · rw [htar]
    by_cases e : i = u/NPTENTRIES
    · rw [e, update_self]
      exact ⟨by simp,fun hc => absurd rfl (hc.2 u (Nat.le_refl u) (by omega))⟩
    rw [update_of_ne e]
    refine ⟨fun hi => ⟨hi,fun v h1 h2 e' => e ?_⟩,fun hi => hi.1⟩
    obtain rfl : v = u := by omega
    exact e'.symm
  · have e : i ≠ u/NPTENTRIES := by
      rintro rfl
      rw [hnull] at hx
      cases hx
    rw [htar, update_of_ne e]
    exact hx
  · obtain rfl : v = u := by omega
    exact hf
  · rw [hone, need, need, if_pos ⟨by rw [Nat.add_zero]; exact hnull,Or.inl rfl⟩, hl]
    rfl
  · rw [hl]
    exact List.mem_cons_of_mem g (List.mem_cons_of_mem t hx)
  rw [hl] at hx
  rcases List.mem_cons.mp hx with rfl | hx
  · exact Or.inr (Or.inr (Or.inr ⟨u,hv,by rw [hfr, update_self]⟩))
  · rcases List.mem_cons.mp hx with rfl | hx
    · exact Or.inr (Or.inr (Or.inl ⟨u/NPTENTRIES,by rw [htar, update_self]⟩))
    · exact Or.inl hx

end Space

theorem kalloc_returns (hl : s.freelist = g::l) :
    Returns kalloc (fun o s' => o = some g ∧ s' = {s with freelist := l}) s := by
  refine returns_atom (a := some g) (r := {s with freelist := l}) ?_ ⟨rfl,rfl⟩
  simp only [State.kalloc, hl]

theorem kalloc_empty (hl : s.freelist = []) : Returns kalloc (fun o s' => o = none ∧ s' = s) s := by
  refine returns_atom (a := none) (r := s) ?_ ⟨rfl,rfl⟩
  simp only [State.kalloc, hl]

theorem target_none {i : ℕ} (h : s.target d i = none) : present (s.pte d i) = false := by
  rw [State.target] at h
  split at h
  · cases h
  · rename_i hp
    exact (Bool.not_eq_true _).mp hp

variable {perm : Uint}

theorem mappages_installs (hv : u < UPAGES) (hd : t ≠ d) (hnull : s.target d (u/NPTENTRIES) = none)
    (hl : s.freelist = t::l) : Returns (mappages d (u*PGSIZE) PGSIZE g perm)
      (fun r s' => r = true ∧ s' = (State.install {s with freelist := l} d (u/NPTENTRIES) t).setPte t
        (u%NPTENTRIES) (mkPte g perm)) s := by
  obtain ⟨-,hpd⟩ := dir_index hv
  rw [mappages_one hv]
  unfold mapLoop walkpgdir
  apply returns_bind
  apply returns_bind
  apply returns_fetch
  dsimp only
  rw [hpd, target_none hnull, if_neg Bool.false_ne_true, if_pos rfl, ptx_page]
  apply returns_bind
  apply returns_mono (kalloc_returns hl)
  rintro o s' ⟨rfl,rfl⟩
  apply returns_bind
  apply returns_assign
  apply returns_pure
  dsimp only
  apply returns_bind
  apply returns_fetch
  have hz : (State.install {s with freelist := l} d (u/NPTENTRIES) t).pte t (u%NPTENTRIES) = 0 := by
    rw [pte_install hd, if_pos rfl]
  change Returns (if present ((State.install {s with freelist := l} d (u/NPTENTRIES) t).pte t
    (u%NPTENTRIES)) = true then _ else _) _ _
  rw [hz, if_neg (by decide)]
  apply returns_bind
  apply returns_assign
  exact returns_pure ⟨rfl,rfl⟩

theorem mappages_empty (hv : u < UPAGES) (hnull : s.target d (u/NPTENTRIES) = none)
    (hl : s.freelist = []) :
    Returns (mappages d (u*PGSIZE) PGSIZE g perm) (fun r s' => r = false ∧ s' = s) s := by
  obtain ⟨-,hpd⟩ := dir_index hv
  rw [mappages_one hv]
  unfold mapLoop walkpgdir
  apply returns_bind
  apply returns_bind
  apply returns_fetch
  dsimp only
  rw [hpd, target_none hnull, if_neg Bool.false_ne_true, if_pos rfl]
  apply returns_bind
  apply returns_mono (kalloc_empty hl)
  rintro o s' ⟨rfl,rfl⟩
  exact returns_pure (returns_pure ⟨rfl,rfl⟩)

/-- What one round does once it has its frame: the page is mapped, or the
frame is lost because the last free page would have been needed for the table. -/
theorem round_grafted (h : UserSpace im d s) (K : PageData) (hv : u < UPAGES)
    (hf : s.frame d u = none) (hl : s.freelist = g::l) (hp : (c u).1 < 4096) :
    Returns (mappages d (u*PGSIZE) PGSIZE g (c u).1) (fun r s' => ∃ s₂, s' = s₂.graft d K ∧
        (r = true ∧ Grows im d c u (u+1) s s₂ ∨ r = false ∧ s.target d (u/NPTENTRIES) = none ∧
          l = [] ∧ s₂ = State.fill {s with freelist := []} g (c u).2))
      ((State.fill {s with freelist := l} g (c u).2).graft d K) := by
  obtain ⟨h1,hg⟩ := h.kalloc hl
  obtain ⟨h2,htar,hlook,spare⟩ := h1.fills hg (c u).2
  have htar' : ∀ o, s.target d (u/NPTENTRIES) = o →
      ((State.fill {s with freelist := l} g (c u).2).graft d K).target d (u/NPTENTRIES) = o := by
    rintro o rfl
    rw [graft_target (dir_user hv), htar]
    rfl
  cases ht : s.target d (u/NPTENTRIES) with
  | some t =>
    have hf' : ((State.fill {s with freelist := l} g (c u).2).graft d K).frame d u = none := by
      rw [graft_frame h2 hv, frame_eq_of_lookup hlook]
      exact hf
    apply returns_mono (ends_of_starve (mappages_short hv (htar' _ ht) hf'))
    rintro r s' ⟨rfl,rfl⟩
    refine ⟨_,?_,Or.inl ⟨rfl,grows_map h hv hp hf hl ht⟩⟩
    rw [graft_setPte (h.table _ t ht).1]
    rfl
  | none =>
    cases l with
    | nil =>
      apply returns_mono (mappages_empty hv (htar' _ ht) rfl)
      rintro r s' ⟨rfl,rfl⟩
      exact ⟨_,rfl,Or.inr ⟨rfl,rfl,rfl,rfl⟩⟩
    | cons t l =>
      obtain ⟨-,htp⟩ := h1.kalloc (l := l) rfl
      apply returns_mono (mappages_installs hv htp.dir (htar' _ ht) rfl)
      rintro r s' ⟨rfl,rfl⟩
      refine ⟨_,?_,Or.inl ⟨rfl,grows_install h hv hp hf hl ht⟩⟩
      rw [State.mapTable, ← graft_setPte htp.dir, ← graft_install htp.dir (dir_user hv)]
      rfl

theorem round_returns (h : UserSpace im d s) (hv : u < UPAGES) (hf : s.frame d u = none)
    (hl : s.freelist = g::l) (hp : (c u).1 < 4096) :
    Returns (mappages d (u*PGSIZE) PGSIZE g (c u).1)
      (fun r s' => r = true ∧ Grows im d c u (u+1) s s' ∨ r = false ∧
        s.target d (u/NPTENTRIES) = none ∧ l = [] ∧ s' = State.fill {s with freelist := []} g (c u).2)
      (State.fill {s with freelist := l} g (c u).2) := by
  have hgd : g ≠ d := (h.kalloc hl).2.dir
  have hmem : ∀ l', (State.fill {s with freelist := l'} g (c u).2).mem d = s.mem d := fun l' =>
    update_of_ne hgd.symm _ _
  have hr := round_grafted h (s.mem d) hv hf hl hp
  rw [← hmem l, graft_self] at hr
  apply returns_mono hr
  rintro r _ ⟨s₂,rfl,⟨rfl,hg⟩ | ⟨rfl,h1,h2,rfl⟩⟩
  · rw [hmem l, hg.upper]
    exact Or.inl ⟨rfl,hg⟩
  · rw [hmem l, ← hmem [], graft_self]
    exact Or.inr ⟨rfl,h1,h2,rfl⟩

end Rounds

end Yeet.Vm
