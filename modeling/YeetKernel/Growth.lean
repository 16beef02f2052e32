import YeetKernel.Growproc
import YeetKernel.Loader

/-!
# An address space under construction

`exec` grows a directory whose lower half was empty. `Room` computes how far
it has come, and `Loaded` says that the page tables in memory agree: the pages
up to `mapped` have frames that were free at the start, in as many tables as
are needed, and nothing is entered beyond. `allocuvm` succeeds when there are
enough free pages for frames and tables, and also when memory runs out at the
table of the last page.
-/

namespace Yeet.LoadSafe
open Kernel Resumption Vm Function
open Loader (pagesOf tablesOf Room)

variable {im : Image} {d g : Page} {s₀ s s₁ : State} {r : Room} {e v n k : ℕ} {K : PageData}

section Tables

variable {T T₁ : ℕ → Option Page} (hT : ∀ i < NPDENTRIES/2, T i = none ↔ tablesOf n ≤ i)
include hT

theorem lacks_iff (hk : n+k < UPAGES) : Lacks T n k ↔ (n+k)%NPTENTRIES = 0 := by
  rw [Lacks, hT _ (dir_user hk)]
  simp only [tablesOf, NPTENTRIES]
  omega

theorem need_eq (hk : n+k ≤ UPAGES) : need T n k+Loader.need n = Loader.need (n+k) := by
  induction k with
  | zero => exact Nat.zero_add _
  | succ k ih =>
    have := ih (by omega)
    simp only [need, lacks_iff hT (show n+k < UPAGES by omega)]
    split
    all_goals
      simp only [Loader.need, tablesOf, NPTENTRIES] at *
      omega

theorem tables_eq (h : Tabled T T₁ n k) (hk : n ≤ k) :
    ∀ i < NPDENTRIES/2, T₁ i = none ↔ tablesOf k ≤ i := by
  intro i hi
  rw [h i, hT i hi]
  constructor
  · rintro ⟨h1,h2⟩
    by_contra hc
    apply h2 (NPTENTRIES*i)
    all_goals
      simp only [tablesOf, NPTENTRIES] at *
      omega
  · intro h1
    simp only [tablesOf, NPTENTRIES] at *
    exact ⟨by omega,fun v _ h2 => by omega⟩

end Tables

/-- The tables below KERNBASE are entered for user code. -/
def UserTables (d : Page) (s : State) : Prop :=
  ∀ i < NPDENTRIES/2, ∀ t, s.target d i = some t → s.pte d i = mkPte t (PTE_W ||| PTE_U)

theorem UserTables.entered (h : UserTables d s) (he : Entered d s s₁) : UserTables d s₁ := by
  intro i hi t ht
  rcases he i t ht with e | ⟨-,e⟩
  · rw [e]
    exact h i hi t (target_congr e ▸ ht)
  · exact e

structure Loaded (im : Image) (d : Page) (r : Room) (s₀ s : State) : Prop where
  space : UserSpace im d s
  small : r.sz < KERNBASE
  free : s.freelist.length = r.free
  bare : r.bare = true → s.freelist = [] ∧ pagesOf r.sz%NPTENTRIES = 1
  table : ∀ i < NPDENTRIES/2, s.target d i = none ↔ tablesOf r.mapped ≤ i
  lay : ∃ b : ℕ → PageData, Lay d (fun v => (PTE_W ||| PTE_U,b v)) 0 r.mapped s₀ s
  user : UserTables d s
  clear : ∀ v < UPAGES, r.mapped ≤ v → ∀ w, s.lookup d v = some w → w = 0
  sub : ∀ g ∈ s.freelist, g ∈ s₀.freelist

theorem loaded_empty (h : UserSpace im d s) (hz : ∀ i < NPDENTRIES/2, s.target d i = none) :
    Loaded im d ⟨0,s.freelist.length,false⟩ s s := by
  have hm : Room.mapped ⟨0,s.freelist.length,false⟩ = 0 := by simp [Room.mapped, pagesOf, PGSIZE]
  refine ⟨h,Nat.two_pow_pos 31,rfl,fun hb => absurd hb Bool.false_ne_true,fun i hi => ?_,
    ⟨fun _ _ => 0,?_⟩,    fun i hi t ht => by simp [hz i hi] at ht,fun v hv _ w hw => ?_,fun _ hg => hg⟩
  · rw [hm]
    simp [hz i hi, tablesOf, NPTENTRIES]
  · rw [hm]
    exact (grows_here h _ 0).toLay
  · rw [lookup_none.mpr (hz _ (dir_user hv))] at hw
    cases hw

theorem mapped_le (r : Room) : r.mapped ≤ pagesOf r.sz := by
  unfold Room.mapped
  split <;> omega

namespace Loaded

section

variable (h : Loaded im d r s₀ s)
include h

theorem mapped_lt : r.mapped ≤ UPAGES := by
  have h1 := h.small
  have h2 := mapped_le r
  simp only [pagesOf, PGSIZE, KERNBASE, UPAGES] at *
  omega

theorem page (hv : v < r.mapped) : ∃ g ∈ s₀.freelist,
    s.lookup d v = some (mkPte g (PTE_W ||| PTE_U)) ∧ s.frame d v = some g := by
  obtain ⟨b,hl⟩ := h.lay
  obtain ⟨g,hg,h1,h2,-⟩ := hl.page v (Nat.zero_le v) hv
  exact ⟨g,hg,h1,h2⟩

theorem beyond (hv : v < UPAGES) (hm : r.mapped ≤ v) : s.frame d v = none := by
  rw [State.frame]
  cases hl : s.lookup d v with
  | none => rfl
  | some w =>
    rw [h.clear v hv hm w hl]
    rfl

theorem fill (hv : v < r.mapped) (hg : s.frame d v = some g) (b : PageData) :
    Loaded im d r s₀ (s.fill g b) := by
  have hlt := Nat.lt_of_lt_of_le hv h.mapped_lt
  obtain ⟨-,hgd,-,hgt⟩ := h.space.frame v hlt g hg
  have htar := target_fill (s := s) hgd b
  have hlook := lookup_fill hgd hgt b
  obtain ⟨x,hx,-,hxf⟩ := h.page hv
  obtain rfl : g = x := Option.some.inj (hg.symm.trans hxf)
  obtain ⟨c,hl⟩ := h.lay
  have hent : ∀ {x : State}, Entered d x s → Entered d x (s.fill g b) := by
    intro x he i t ht
    rw [pte_fill_ne hgd.symm]
    exact he i t (htar ▸ ht)
  refine ⟨h.space.fill hgd hgt b,h.small,h.free,h.bare,by rw [htar]; exact h.table,
    ⟨update c v b,hent hl.entered,fun w h1 h2 => ?_,?_,fun y h1 h2 h3 => ?_,?_,?_⟩,
    h.user.entered (hent (fun _ _ _ => Or.inl rfl)),by rw [hlook]; exact h.clear,h.sub⟩
  · obtain ⟨y,hy,hyl,hyf,hym⟩ := hl.page w h1 h2
    refine ⟨y,hy,by rw [hlook]; exact hyl,by rw [frame_eq_of_lookup hlook]; exact hyf,?_⟩
    by_cases e : w = v
    · subst e
      obtain rfl : g = y := Option.some.inj (hg.symm.trans hyf)
      simp [State.fill]
    have hyg : y ≠ g := by
      rintro rfl
      exact e (h.space.frames w (Nat.lt_of_lt_of_le h2 h.mapped_lt) v hlt y hyf hg)
    simp only [State.fill, update_of_ne e]
    rw [update_of_ne hyg]
    exact hym
  · rw [hlook]
    exact hl.fixed
  · have hyg : y ≠ g := fun e => h1 (e ▸ hx)
    simp only [State.fill]
    rw [update_of_ne hyg]
    exact hl.mem y h1 h2 h3
  · rw [← graft_fill hgd, hl.upper]
  · simp only [State.fill]
    conv_lhs => rw [hl.rest]

theorem same (he : e < KERNBASE) (hp : pagesOf e = pagesOf r.sz) :
    Loaded im d ⟨e,r.free,r.bare⟩ s₀ s := by
  have hm : Room.mapped ⟨e,r.free,r.bare⟩ = r.mapped := by rw [Room.mapped, Room.mapped, hp]
  refine ⟨h.space,he,h.free,fun hb => ?_,?_,?_,h.user,?_,h.sub⟩
  · rw [hp]
    exact h.bare hb
  all_goals rw [hm]
  · exact h.table
  · exact h.lay
  · exact h.clear

/-- The pages up to `u` have been added. -/
theorem grown {r' : Room} (hs : UserSpace im d s₁)
    (hl : Lay d (fun _ => zeroed) r.mapped r'.mapped s s₁)
    (ht : Tabled (s.target d) (s₁.target d) r.mapped r'.mapped)
    (hsub : ∀ g ∈ s₁.freelist, g ∈ s.freelist)
    (hle : r.mapped ≤ r'.mapped) (hsmall : r'.sz < KERNBASE) (hfree : s₁.freelist.length = r'.free)
    (hbare : r'.bare = true → s₁.freelist = [] ∧ pagesOf r'.sz%NPTENTRIES = 1) :
    Loaded im d r' s₀ s₁ := by
  obtain ⟨b,hl₀⟩ := h.lay
  refine ⟨hs,hsmall,hfree,hbare,tables_eq h.table ht hle,
    ⟨fun v => if v < r.mapped then b v else fun _ => 0,?_⟩,h.user.entered hl.entered,
    fun v hv hm w hw => ?_,fun g hg => h.sub g (hsub g hg)⟩
  · refine Lay.trans (hl₀.congr (fun v _ h2 => ?_)) (hl.congr (fun v h1 _ => ?_)) h.space h.sub
      (Nat.zero_le _) hle h.mapped_lt
    · simp only [if_pos h2]
    · simp only [if_neg (show ¬ v < r.mapped by omega)]
      rfl
  · rcases hl.fixed v (by omega) with e | ⟨-,e⟩
    · exact h.clear v hv (by omega) w (e ▸ hw)
    · rw [hw] at e
      exact Option.some.inj e

end

end Loaded

/-- Mappings below KERNBASE are still there. -/
def Holds (d : Page) (s s' : State) : Prop :=
  ∀ v < UPAGES, ∀ w, (s.lookup d v).filter present = some w → (s'.lookup d v).filter present = some w

def Allots (im : Image) (d : Page) (K : PageData) (r : Room) (s₀ s : State) (e x : ℕ) (s' : State) :
    Prop :=
  ∃ s₁, s' = s₁.graft d K ∧ Holds d s s₁ ∧
    ((r.grow e = none ∧ x = 0 ∧ UserSpace im d s₁ ∧ UserTables d s₁) ∨
    ∃ r', r.grow e = some r' ∧ x = r'.sz ∧ x ≠ 0 ∧ Loaded im d r' s₀ s₁)

theorem pagesOf_eq (sz : ℕ) : pgroundup sz/PGSIZE = pagesOf sz := by
  simp only [pgroundup, pagesOf, PGSIZE]
  omega

theorem grow_eq (he : e < KERNBASE) (hlt : pgroundup r.sz < e) : r.grow e =
    if Loader.need (pagesOf e)-Loader.need (pagesOf r.sz) ≤ r.free then
      some ⟨e,r.free-(Loader.need (pagesOf e)-Loader.need (pagesOf r.sz)),r.bare⟩
    else if Loader.need (pagesOf e)-Loader.need (pagesOf r.sz) = r.free+1 ∧ pagesOf e%NPTENTRIES = 1 then
      some ⟨e,0,true⟩
    else none := by
  have h1 : ¬ e < r.sz := by
    simp only [pgroundup, PGSIZE] at hlt
    omega
  rw [Room.grow, if_neg (by omega), if_neg h1, if_neg (by omega)]

namespace Loaded

variable (h : Loaded im d r s₀ s) (he : e < KERNBASE) (hlt : pgroundup r.sz < e)
include h he hlt

/-- There is no page left after a page without a table. -/
theorem bare_stays (hb : r.bare = true) : r.grow e = none := by
  obtain ⟨h1,h2⟩ := h.bare hb
  have h3 := h.free
  rw [h1, List.length_nil] at h3
  have h4 : pagesOf r.sz < pagesOf e := by
    simp only [pgroundup, pagesOf, PGSIZE] at *
    omega
  rw [grow_eq he hlt, if_neg, if_neg]
  all_goals
    simp only [Loader.need, tablesOf, NPTENTRIES] at *
    omega

theorem needs (hb : r.bare = false) : pagesOf r.sz ≤ (e-1)/PGSIZE ∧ pagesOf e = (e-1)/PGSIZE+1 ∧
    (Lacks (s.target d) (pagesOf r.sz) ((e-1)/PGSIZE-pagesOf r.sz) ↔ pagesOf e%NPTENTRIES = 1) ∧
    need (s.target d) (pagesOf r.sz) ((e-1)/PGSIZE-pagesOf r.sz)+1+
        (if pagesOf e%NPTENTRIES = 1 then 1 else 0) =
      Loader.need (pagesOf e)-Loader.need (pagesOf r.sz) := by
  have ht := h.table
  rw [Room.mapped, hb, if_neg Bool.false_ne_true] at ht
  have h1 : pagesOf r.sz ≤ (e-1)/PGSIZE ∧ pagesOf e = (e-1)/PGSIZE+1 ∧ (e-1)/PGSIZE < UPAGES := by
    simp only [pgroundup, pagesOf, PGSIZE, KERNBASE, UPAGES] at *
    omega
  obtain ⟨h1,h2,h3⟩ := h1
  have hsum : pagesOf r.sz+((e-1)/PGSIZE-pagesOf r.sz) = (e-1)/PGSIZE := by omega
  have hl := lacks_iff ht (k := (e-1)/PGSIZE-pagesOf r.sz) (by omega)
  have hn := need_eq ht (k := (e-1)/PGSIZE-pagesOf r.sz+1) (by omega)
  have hiff : (e-1)/PGSIZE%NPTENTRIES = 0 ↔ pagesOf e%NPTENTRIES = 1 := by
    rw [h2]
    simp only [NPTENTRIES]
    omega
  rw [hsum, hiff] at hl
  rw [← Nat.add_assoc, hsum, ← h2, need] at hn
  simp only [hl] at hn
  exact ⟨h1,h2,hl,by omega⟩

theorem grows {x : ℕ} (hend : GrowEnd im d r.sz e s s₁ x) : Holds d s s₁ ∧
    ((r.grow e = none ∧ x = 0 ∧ UserSpace im d s₁ ∧ UserTables d s₁) ∨
      ∃ r', r.grow e = some r' ∧ x = r'.sz ∧ x ≠ 0 ∧ Loaded im d r' s₀ s₁) := by
  have hpos : e ≠ 0 := by omega
  have hlow : pagesOf r.sz*PGSIZE < e := by
    simp only [pgroundup, pagesOf, PGSIZE] at *
    omega
  cases hend with
  | undone hns hshort hk hup hrest hu hd =>
    refine ⟨fun v hv w hw => by rw [hk.entry v hv]; exact hw,Or.inl ⟨?_,rfl,hu,h.user.entered hd⟩⟩
    by_cases hb : r.bare = true
    · exact h.bare_stays he hlt hb
    obtain ⟨h1,h2,hl,hn⟩ := h.needs he hlt ((Bool.not_eq_true _).mp hb)
    rw [Strands, pagesOf_eq, hl] at hns
    rw [pagesOf_eq, ← h2, h.free] at hshort
    have hf := h.free
    rw [show pagesOf e-pagesOf r.sz = (e-1)/PGSIZE-pagesOf r.sz+1 by omega, need] at hshort
    simp only [hl] at hshort
    rw [grow_eq he hlt, if_neg (by omega), if_neg]
    rintro ⟨h3,h4⟩
    rw [if_pos h4] at hn
    exact hns ⟨h1,h4,by omega⟩
  | whole u hend hns hub hg =>
    have hcount := hg.count
    rw [pagesOf_eq] at hg hcount
    have hle := le_need (s.target d) (pagesOf r.sz) (u-pagesOf r.sz)
    obtain rfl : u = pagesOf e := by
      have hlast := hub (u-1)
      simp only [pagesOf, PGSIZE] at *
      omega
    have hb : r.bare = false := by
      rw [← Bool.not_eq_true]
      intro hb
      rw [(h.bare hb).1, List.length_nil] at hcount
      simp only [pagesOf, PGSIZE] at *
      omega
    obtain ⟨h1,h2,hl,hn⟩ := h.needs he hlt hb
    have hf := h.free
    rw [show pagesOf e-pagesOf r.sz = (e-1)/PGSIZE-pagesOf r.sz+1 by omega, need] at hcount
    simp only [hl] at hcount
    have hm : r.mapped = pagesOf r.sz := by rw [Room.mapped, hb, if_neg Bool.false_ne_true]
    refine ⟨fun v hv w hw => ?_,Or.inr ⟨_,by rw [grow_eq he hlt, if_pos (by omega)],rfl,hpos,?_⟩⟩
    · by_cases hin : pagesOf r.sz ≤ v ∧ v < pagesOf e
      · rw [frame_none.mp (hg.vacant v hin.1 hin.2)] at hw
        cases hw
      · rw [hg.kept v hin]
        exact hw
    have hm' : ∀ n, Room.mapped ⟨e,n,r.bare⟩ = pagesOf e := fun n => by
      rw [Room.mapped, hb, if_neg Bool.false_ne_true]
    refine h.grown hg.space ?_ ?_ hg.sub (by rw [hm, hm']; omega) he (by dsimp only; omega)
      (fun hc => absurd (hb.symm.trans hc) Bool.false_ne_true)
    · rw [hm, hm']
      exact hg.toLay
    · rw [hm, hm']
      exact hg.table
  | stranded hs hf hu hl ht hlay =>
    rw [Strands, pagesOf_eq] at hs
    have hb : r.bare = false := by
      rw [← Bool.not_eq_true]
      intro hb
      have hlen := hs.2.2
      rw [(h.bare hb).1] at hlen
      exact absurd hlen (by simp)
    obtain ⟨h1,h2,hlack,hn⟩ := h.needs he hlt hb
    have hmod := hlack.mp hs.2.1
    rw [if_pos hmod, ← hs.2.2, h.free] at hn
    have hm : r.mapped = pagesOf r.sz := by rw [Room.mapped, hb, if_neg Bool.false_ne_true]
    have hm' : Room.mapped ⟨e,0,true⟩ = (e-1)/PGSIZE := by
      rw [Room.mapped, if_pos rfl, h2, Nat.add_sub_cancel]
    rw [pagesOf_eq] at ht hlay
    refine ⟨fun v hv w hw => ?_,Or.inr ⟨⟨e,0,true⟩,?_,rfl,hpos,?_⟩⟩
    · by_cases hin : pagesOf r.sz ≤ v ∧ v < (e-1)/PGSIZE
      · rw [frame_none.mp (h.beyond hv (by omega))] at hw
        cases hw
      · rw [hlay.kept v hin]
        exact hw
    · rw [grow_eq he hlt, if_neg (by omega), if_pos ⟨by omega,hmod⟩]
    refine h.grown hu ?_ ?_ (by simp [hl]) (by rw [hm, hm']; exact h1) he (by simp [hl])
      (fun _ => ⟨hl,hmod⟩)
    · rw [hm, hm']
      exact hlay
    · rw [hm, hm']
      exact ht

end Loaded

/-- `allocuvm` on a directory of which a part has been loaded, with any upper
half. -/
theorem Loaded.allocuvm (h : Loaded im d r s₀ s) (e : ℕ) (K : PageData) :
    Returns (allocuvm im d r.sz e) (Allots im d K r s₀ s e) (s.graft d K) := by
  have hrefl : Holds d s s := fun _ _ _ hw => hw
  by_cases h1 : KERNBASE ≤ e
  · rw [Vm.allocuvm, if_pos h1]
    exact returns_pure ⟨s,rfl,hrefl,Or.inl ⟨by rw [Room.grow, if_pos h1],rfl,h.space,h.user⟩⟩
  by_cases h2 : e < r.sz
  · rw [Vm.allocuvm, if_neg h1, if_pos h2]
    exact returns_pure ⟨s,rfl,hrefl,Or.inr ⟨r,by rw [Room.grow, if_neg h1, if_pos h2],rfl,by omega,h⟩⟩
  by_cases h3 : pgroundup r.sz < e
  · have hold : r.sz < e := by
      simp only [pgroundup, PGSIZE] at h3
      omega
    apply returns_mono (allocuvm_grafted h.space (Nat.lt_of_not_le h1) hold (fun v hv hle => ?_) K)
    · rintro x s' ⟨s₁,rfl,hend⟩
      exact ⟨s₁,rfl,h.grows (Nat.lt_of_not_le h1) h3 hend⟩
    have hm := mapped_le r
    refine h.beyond hv ?_
    simp only [pagesOf, PGSIZE] at *
    omega
  -- the size stays in the last page
  have hp : pagesOf e = pagesOf r.sz := by
    simp only [pgroundup, pagesOf, PGSIZE] at *
    omega
  have hloop : Vm.allocuvm im d r.sz e = pure e := by
    rw [Vm.allocuvm, if_neg h1, if_neg h2, allocLoop, if_neg h3]
  rw [hloop]
  refine returns_pure ⟨s,rfl,hrefl,?_⟩
  by_cases h4 : e = 0
  · exact Or.inl ⟨by rw [Room.grow, if_neg h1, if_neg h2, if_pos h4],h4,h.space,h.user⟩
  · refine Or.inr ⟨_,?_,rfl,h4,h.same (Nat.lt_of_not_le h1) hp⟩
    rw [Room.grow, if_neg h1, if_neg h2, if_neg h4, hp, Nat.sub_self, if_pos (Nat.zero_le _)]
    rfl

end Yeet.LoadSafe
