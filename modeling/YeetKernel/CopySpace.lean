import YeetKernel.Freevm
import YeetKernel.Growth

/-!
# The copy of an address space

`copyuvm` fills a new directory page by page from that of the parent. The
frames and tables it takes come from the free list, so the parent's pages stay
as they are and the copy shares none of them. Page UPAGES belongs to the
kernel already, so a size above KERNBASE ends in a panic.
-/

namespace Yeet.Vm
open Yeet.Kernel Resumption Function

def State.content (s : State) (pgdir : Page) (v : ℕ) : Filling :=
  (pteFlags ((s.lookup pgdir v).getD 0),s.mem (pteAddr ((s.lookup pgdir v).getD 0)))

structure PrivateCopy (im : Image) (pgdir : Page) (sz : ℕ) (s : State) (d : Page) (s' : State) :
    Prop where
  page : ∀ v, v*PGSIZE < sz → ∃ w w', s.lookup pgdir v = some w ∧ s'.lookup d v = some w' ∧
    present w' = true ∧ pteFlags w' = pteFlags w ∧ s'.mem (pteAddr w') = s.mem (pteAddr w) ∧
    pteAddr w' ∈ s.freelist ∧ pteAddr w' ∉ s'.freelist
  distinct : ∀ v u g, v*PGSIZE < sz → u*PGSIZE < sz → s'.frame d v = some g →
    s'.frame d u = some g → v = u
  unshared : ∀ v u g, v*PGSIZE < sz → u < UPAGES → s'.frame d v = some g → s.frame pgdir u ≠ some g
  kernel : ∀ v, UPAGES ≤ v → (s'.lookup d v).filter present = kernelEntry im v
  nothing : ∀ v < UPAGES, sz ≤ v*PGSIZE → s'.frame d v = none
  directory : s'.mem pgdir = s.mem pgdir
  entries : s'.lookup pgdir = s.lookup pgdir
  frames : ∀ v < UPAGES, ∀ g, s.frame pgdir v = some g → s'.mem g = s.mem g

theorem pteFlags_mkPte (g : ℕ) {w : Uint} (hw : present w = true) :
    pteFlags (mkPte g (pteFlags w)) = pteFlags w := by
  have hbit : w.getLsbD 0 = true := by
    by_contra hc
    have hz : w &&& PTE_P = 0 := by
      ext i hi
      by_cases e : i = 0
      · subst e
        simp [PTE_P] at hc ⊢
        exact hc
      · simp [PTE_P, e]
    rw [present, hz] at hw
    cases hw
  ext i hi
  by_cases h12 : i < 12
  · have hg : (BitVec.ofNat 32 (g*PGSIZE)).getLsbD i = false := by
      rw [BitVec.getLsbD_ofNat, show PGSIZE = 2^12 from rfl, Nat.testBit_mul_two_pow]
      simp [Nat.not_le.mpr h12]
    have hm : (0xFFF : Uint).getLsbD i = true := by
      have : ∀ j < 12, (0xFFF : Uint).getLsbD j = true := by decide
      exact this i h12
    have h1 : (w.getLsbD i || PTE_P.getLsbD i) = w.getLsbD i := by
      by_cases e : i = 0
      · rw [e, hbit]
        rfl
      · have : PTE_P.getLsbD i = false := by simp [PTE_P, e]
        rw [this, Bool.or_false]
    rw [← BitVec.getLsbD_eq_getElem, ← BitVec.getLsbD_eq_getElem]
    simp only [pteFlags, mkPte, BitVec.getLsbD_and, BitVec.getLsbD_or, hg, hm, Bool.and_true,
      Bool.false_or]
    exact h1
  · have hm : (0xFFF : Uint).getLsbD i = false := by
      have : ∀ j < 32, 12 ≤ j → (0xFFF : Uint).getLsbD j = false := by decide
      exact this i hi (by omega)
    rw [← BitVec.getLsbD_eq_getElem, ← BitVec.getLsbD_eq_getElem]
    simp only [pteFlags, BitVec.getLsbD_and, hm, Bool.and_false]

section Walk

variable {im : Image} {d g t : Page} {s : State} {v : ℕ}

theorem walk_finds (hlt : v < 2^20) (ht : s.target d (v/NPTENTRIES) = some t) (alloc : Bool) :
    Returns (walkpgdir d (v*PGSIZE) alloc) (fun r s' => r = some (t,v%NPTENTRIES) ∧ s' = s) s :=
  ends_of_starve (walk_short hlt ht alloc)

theorem mappages_taken (hlt : v < 2^20) {w : Uint} (hw : s.lookup d v = some w)
    (hp : present w = true) (perm : Uint) :
    Ends (mappages d (v*PGSIZE) PGSIZE g perm) (fun o => o = some (.error (.panic "remap"))) s := by
  have hone : mappages d (v*PGSIZE) PGSIZE g perm = mapLoop d perm 1 (v*PGSIZE) g := by
    rw [mappages_pages (by simp [PGSIZE]) (by decide) (by decide)
      (by simp only [PGSIZE]; omega), Nat.mul_div_cancel v (by decide), Nat.div_self (by decide)]
  rw [hone]
  obtain ⟨t,ht,rfl⟩ := Option.map_eq_some_iff.mp hw
  unfold mapLoop
  apply ends_after
  apply returns_mono (walk_finds hlt ht true)
  rintro r s' ⟨rfl,rfl⟩
  dsimp only
  apply ends_after
  apply returns_fetch
  rw [if_pos hp]
  rfl

end Walk

section Copy

variable {im : Image} {d pgdir : Page} {s s₀ s₁ : State} {l : List Page} {p : Owner} {u sz : ℕ}
variable {c : ℕ → Filling} {v : ℕ}

theorem used_same (hl : s.freelist = d::l) (hk : Kernel im d (kernelEntry im) (s.begin p d l) s₀)
    (hg : Grows im d c 0 u s₀ s₁) {g : Page} (h : g ∉ s.freelist) : s₁.mem g = s.mem g := by
  rw [hl, List.mem_cons, not_or] at h
  have hfree : (s.begin p d l).freelist = l := rfl
  have htab : ∀ i, s₀.target d i ≠ some g := fun i hi => h.2 (hk.tables i g hi).2
  have h0 : g ∉ s₀.freelist := fun hm => h.2 (hk.sub g hm)
  rw [hg.mem g h0 h.1 htab, hk.mem g (by rw [hfree]; exact h.2) h.1]
  simp only [State.begin, State.fill]
  exact update_of_ne h.1 _ _

theorem parent_same (h : UserSpace im pgdir s) (hl : s.freelist = d::l)
    (hk : Kernel im d (kernelEntry im) (s.begin p d l) s₀) (hg : Grows im d c 0 u s₀ s₁) :
    s₁.lookup pgdir = s.lookup pgdir := by
  apply lookup_same
  · exact used_same hl hk hg h.dir
  · intro i t ht
    exact used_same hl hk hg (h.table i t ht).2

theorem content_lt (s : State) (pgdir : Page) (v : ℕ) : (s.content pgdir v).1 < 4096 :=
  pteFlags_lt _

theorem kernelEntry_base (im : Image) : ∃ w, kernelEntry im UPAGES = some w := by
  refine ⟨mkPte 0 PTE_W,?_⟩
  have : (⟨KERNBASE,0,EXTMEM,PTE_W⟩ : Kmap).entry UPAGES = some (mkPte 0 PTE_W) := by
    decide
  simp only [kernelEntry, kmap, List.findSome?_cons, this]

/-- How `copyuvm` ends after `setupkvm` has left `s₀`, for `n` pages. Where it
stops, all that the new directory holds was freed; a frame whose table is
missing is not held. -/
inductive CopyEnd (im : Image) (pgdir d : Page) (s s₀ : State) (n : ℕ) :
    Outcome State Fault (Option Page) → Prop
  | done (s' : State) (hn : n ≤ UPAGES) (h : Grows im d (s.content pgdir) 0 n s₀ s') :
      CopyEnd im pgdir d s s₀ n (some (.ok (some d,s')))
  | stopped (u : ℕ) (s₁ s' : State) (hu : u < n) (hlim : u ≤ UPAGES)
      (h : Grows im d (s.content pgdir) 0 u s₀ s₁)
      (hl : s₁.freelist = [] ∨
        (∃ g, s₁.freelist = [g]) ∧ u < UPAGES ∧ s₁.target d (u/NPTENTRIES) = none)
      (hfree : ∀ g, g ∈ s'.freelist ↔ s₁.Held d g) : CopyEnd im pgdir d s s₀ n (some (.ok (none,s')))
  | clash (hn : UPAGES < n) : CopyEnd im pgdir d s s₀ n (some (.error (.panic "remap")))

theorem held_taken (hl : s.freelist = d::l) (hk : Kernel im d (kernelEntry im) (s.begin p d l) s₀)
    (hg : Grows im d c 0 u s₀ s₁) {g : Page} (h : s₁.Held d g) : g ∈ s.freelist := by
  have hfree : ∀ g ∈ s₀.freelist, g ∈ s.freelist := fun g hm => by
    rw [hl]
    exact List.mem_cons_of_mem d (hk.sub g hm)
  rcases h with rfl | ⟨i,hi⟩ | ⟨v,hv,hf⟩
  · rw [hl]
    simp
  · rcases hg.entered.owned i g hi with hi | hm
    · rw [hl]
      exact List.mem_cons_of_mem d (hk.tables i g hi).2
    · exact hfree g hm
  by_cases e : v < u
  · obtain ⟨x,hx,-,hxf,-⟩ := hg.page v (Nat.zero_le v) e
    rw [hf] at hxf
    exact hfree g (Option.some.inj hxf ▸ hx)
  · rw [frame_of_filter (hg.kept v (by omega)), State.frame,
      lookup_none.mpr (hk.user (dir_user hv))] at hf
    cases hf

theorem copy_stops {n : ℕ} (h : UserSpace im pgdir s) (hl : s.freelist = d::l)
    (hk : Kernel im d (kernelEntry im) (s.begin p d l) s₀)
    (hg : Grows im d (s.content pgdir) 0 u s₀ s₁) (hu : u < n) (hlim : u ≤ UPAGES)
    (hstop : s₁.freelist = [] ∨
      (∃ g, s₁.freelist = [g]) ∧ u < UPAGES ∧ s₁.target d (u/NPTENTRIES) = none) {s₂ : State}
    (h2 : UserSpace im d s₂) (hempty : s₂.freelist = []) (hheld : ∀ g, s₂.Held d g ↔ s₁.Held d g) :
    Ends (do freevm im p d; return none) (CopyEnd im pgdir d s s₀ n) s₂ := by
  apply ends_bind
  apply ends_mono (freevm_frees h2 p)
  rintro _ (⟨s',rfl,hfree,-⟩ | ⟨⟨g,hx,hm⟩,rfl⟩)
  · refine ends_pure (.stopped u s₁ s' hu hlim hg hstop (fun g => ?_))
    rw [hfree, hempty, hheld]
    simp
  · exact absurd (h.managed g (held_taken hl hk hg ((hheld g).mp hx))) hm

theorem copyLoop_ends (n : ℕ) (h : UserSpace im pgdir s) (hl : s.freelist = d::l)
    (hk : Kernel im d (kernelEntry im) (s.begin p d l) s₀)
    (hg : Grows im d (s.content pgdir) 0 u s₀ s₁) (hu : u ≤ UPAGES) (hend : u+n ≤ 2^20)
    (hpages : ∀ v < u+n, (s.lookup pgdir v).filter present ≠ none) :
    Ends (copyLoop im p pgdir d n (u*PGSIZE)) (CopyEnd im pgdir d s s₀ (u+n)) s₁ := by
  induction n generalizing u s₁ with
  | zero => exact ends_pure (.done s₁ hu hg)
  | succ n ih =>
    have hlt : u < 2^20 := by omega
    have hsame := parent_same h hl hk hg
    -- the parent's entry
    obtain ⟨w,hw⟩ := Option.ne_none_iff_exists'.mp (hpages u (by omega))
    rw [Option.filter_eq_some_iff] at hw
    obtain ⟨hw,hpw⟩ := hw
    have hw1 : s₁.lookup pgdir u = some w := by
      rw [hsame]
      exact hw
    have hcont : s.content pgdir u = (pteFlags w,s.mem (pteAddr w)) := by
      rw [State.content, hw]
      rfl
    obtain ⟨t,ht,hwt⟩ := Option.map_eq_some_iff.mp hw1
    unfold copyLoop
    apply ends_after
    apply returns_mono (walk_finds hlt ht false)
    rintro r s' ⟨rfl,rfl⟩
    dsimp only
    apply ends_after
    apply returns_fetch
    dsimp only
    rw [hwt, hpw, if_neg (by decide)]
    apply ends_after
    cases hfl : s'.freelist with
    | nil =>
      apply returns_mono (kalloc_empty hfl)
      rintro o s'' ⟨rfl,rfl⟩
      exact copy_stops h hl hk hg (by omega) hu (Or.inl hfl) hg.space hfl (fun _ => Iff.rfl)
    | cons g l' =>
      apply returns_mono (kalloc_returns hfl)
      rintro o s'' ⟨rfl,rfl⟩
      dsimp only
      apply ends_after
      apply returns_assign
      obtain ⟨h2,hsp⟩ := hg.space.kalloc hfl
      by_cases hv : u < UPAGES
      · have hused : s'.mem (pteAddr w) = s.mem (pteAddr w) := by
          have hf : s.frame pgdir u = some (pteAddr w) := by
            rw [State.frame, hw, Option.bind_some, pteFrame, if_pos hpw]
          exact used_same hl hk hg (h.frame u hv _ hf).2.2.1
        have hnone : s'.frame d u = none := by
          rw [frame_of_filter (hg.kept u (by omega)), State.frame,
            lookup_none.mpr (hk.user (dir_user hv))]
          rfl
        have hround := round_returns (c := s.content pgdir) hg.space hv hnone hfl (content_lt s pgdir u)
        rw [hcont] at hround
        dsimp only at hround ⊢
        rw [hused]
        apply ends_after
        apply returns_mono hround
        rintro r s'' (⟨rfl,hg'⟩ | ⟨rfl,hnull,rfl,rfl⟩)
        · rw [if_pos rfl, ← Nat.succ_mul]
          have hnext := ih (u := u+1) (hg.trans hg' (Nat.zero_le u) (by omega) hu) (by omega)
            (by omega) (fun v hv => hpages v (by omega))
          have e : u+1+n = u+(n+1) := by omega
          rw [e] at hnext
          exact hnext
        · rw [if_neg Bool.false_ne_true]
          obtain ⟨h3,htar,hlook,-⟩ := h2.fills hsp (s.mem (pteAddr w))
          refine copy_stops h hl hk hg (by omega) hu (Or.inr ⟨⟨g,hfl⟩,hv,hnull⟩) h3 rfl (fun x => ?_)
          rw [State.Held, State.Held, htar, frame_eq_of_lookup hlook]
          rfl
      · obtain rfl : u = UPAGES := by omega
        obtain ⟨k,hkern⟩ := kernelEntry_base im
        have hkept := hg.kept UPAGES (by omega)
        rw [hk.maps, hkern, Option.filter_eq_some_iff] at hkept
        have hlook := lookup_fill (s := {s' with freelist := l'}) hsp.dir hsp.table
          (s'.mem (pteAddr w))
        apply ends_bind
        apply ends_mono (mappages_taken hlt ((congrFun hlook _).trans hkept.1) hkept.2 (pteFlags w))
        rintro o rfl
        exact .clash (by omega)

theorem page_below (sz : ℕ) : v*PGSIZE < sz ↔ v < (sz+PGSIZE-1)/PGSIZE := by
  simp only [PGSIZE]
  omega

theorem private_copy (h : UserSpace im pgdir s) (hl : s.freelist = d::l)
    (hk : Kernel im d (kernelEntry im) (s.begin p d l) s₀)
    (hg : Grows im d (s.content pgdir) 0 u s₀ s₁) (hu : u ≤ UPAGES)
    (hpages : ∀ v < u, (s.lookup pgdir v).filter present ≠ none)
    (hsz : ∀ v, v*PGSIZE < sz ↔ v < u) : PrivateCopy im pgdir sz s d s₁ := by
  have hfree : ∀ g ∈ s₀.freelist, g ∈ s.freelist := fun g hm => by
    rw [hl]
    exact List.mem_cons_of_mem d (hk.sub g hm)
  have hpage : ∀ v < u, ∃ w w', s.lookup pgdir v = some w ∧ s₁.lookup d v = some w' ∧
      present w' = true ∧ pteFlags w' = pteFlags w ∧ s₁.mem (pteAddr w') = s.mem (pteAddr w) ∧
      pteAddr w' ∈ s.freelist ∧ s₁.frame d v = some (pteAddr w') := by
    intro v hv
    obtain ⟨w,hw⟩ := Option.ne_none_iff_exists'.mp (hpages v hv)
    rw [Option.filter_eq_some_iff] at hw
    obtain ⟨g,hgl,hent,hfr,hmem⟩ := hg.page v (Nat.zero_le v) hv
    have hcont : s.content pgdir v = (pteFlags w,s.mem (pteAddr w)) := by
      rw [State.content, hw.1]
      rfl
    have haddr : pteAddr (mkPte g (pteFlags w)) = g :=
      pteAddr_mkPte (managed_lt (h.managed g (hfree g hgl))) (pteFlags_lt w)
    rw [hcont] at hent hmem
    refine ⟨w,mkPte g (pteFlags w),hw.1,hent,present_mkPte _ _,pteFlags_mkPte g hw.2,?_⟩
    rw [haddr]
    exact ⟨hmem,hfree g hgl,hfr⟩
  refine ⟨fun v hv => ?_,fun v x g hv hx hfv hfx => ?_,fun v x g hv hx hfv hfx => ?_,fun v hv => ?_,
    fun v hv hge => ?_,used_same hl hk hg h.dir,parent_same h hl hk hg,fun v hv g hf => ?_⟩
  · have hv' := (hsz v).mp hv
    obtain ⟨w,w',h1,h2,h3,h4,h5,h6,h7⟩ := hpage v hv'
    exact ⟨w,w',h1,h2,h3,h4,h5,h6,(hg.space.frame v (by omega) _ h7).2.2.1⟩
  · rw [hsz] at hv hx
    exact hg.space.frames v (by omega) x (by omega) g hfv hfx
  · obtain ⟨w,w',-,-,-,-,-,h6,h7⟩ := hpage v ((hsz v).mp hv)
    obtain rfl : pteAddr w' = g := Option.some.inj (h7.symm.trans hfv)
    exact (h.frame x hx _ hfx).2.2.1 h6
  · rw [hg.kept v (by omega), hk.maps]
  · have hge' : ¬ v < u := fun hc => absurd ((hsz v).mpr hc) (by omega)
    rw [frame_of_filter (hg.kept v (by omega)), State.frame,
      lookup_none.mpr (hk.user (dir_user hv))]
    rfl
  · exact used_same hl hk hg (h.frame v hv g hf).2.2.1

/-- How `copyuvm` ends for `n` pages that are all present. -/
inductive CopySpaceEnd (im : Image) (p : Owner) (pgdir : Page) (n : ℕ) (s : State) :
    Outcome State Fault (Option Page) → Prop
  | failed (s' : State) (h : Setup im p s none s') : CopySpaceEnd im p pgdir n s (some (.ok (none,s')))
  | copied (d : Page) (l : List Page) (hl : s.freelist = d::l) (s₀ : State)
      (h : Kernel im d (kernelEntry im) (s.begin p d l) s₀) (o : Outcome State Fault (Option Page))
      (ho : CopyEnd im pgdir d s s₀ n o) : CopySpaceEnd im p pgdir n s o

theorem copyuvm_ends (h : UserSpace im pgdir s) (hsz : sz < 2^32)
    (hpages : ∀ v, v*PGSIZE < sz → (s.lookup pgdir v).filter present ≠ none) (p : Owner) :
    Ends (copyuvm im p pgdir sz) (CopySpaceEnd im p pgdir ((sz+PGSIZE-1)/PGSIZE) s) s := by
  unfold copyuvm
  apply ends_after
  apply returns_mono (setupkvm_returns h.nodup h.managed p)
  intro o s₀ hset
  cases o with
  | none => exact ends_pure (.failed s₀ hset)
  | some d =>
    cases hset with
    | done _ l hl _ hk =>
      have hend : 0+(sz+PGSIZE-1)/PGSIZE ≤ 2^20 := by
        simp only [PGSIZE]
        omega
      have hloop := copyLoop_ends ((sz+PGSIZE-1)/PGSIZE) h hl hk
        (grows_here hk.space (s.content pgdir) 0) (Nat.zero_le _) hend
        (fun v hv => hpages v ((page_below sz).mpr (by omega)))
      rw [Nat.zero_mul, Nat.zero_add] at hloop
      exact ends_mono hloop (fun o ho => .copied d l hl s₀ hk o ho)

theorem Setup.short {s' : State} (h : Setup im p s none s') : s.freelist.length < 65 := by
  cases h with
  | nothing hl => simp [hl]
  | stuck d l hl s₁ hs =>
    have hlen : l.length < 64 := hs.short
    rw [hl, List.length_cons]
    omega

/-- The pages that `n` pages and their tables need, with the kernel half. -/
theorem copy_count (hl : s.freelist = d::l) (hk : Kernel im d (kernelEntry im) (s.begin p d l) s₀)
    (hg : Grows im d c 0 u s₀ s₁) (hu : u ≤ UPAGES) :
    s₁.freelist.length+Loader.need u+65 = s.freelist.length := by
  have h1 : s₀.freelist.length+64 = l.length := hk.count_eq
  have h2 := hg.count
  have h3 : need (s₀.target d) 0 u+Loader.need 0 = Loader.need (0+u) :=
    LoadSafe.need_eq (fun i hi => by simp [hk.user hi, Loader.tablesOf, NPTENTRIES]) (by omega)
  rw [hl, List.length_cons]
  simp only [Nat.sub_zero, Nat.zero_add, show Loader.need 0 = 0 from rfl] at h2 h3
  omega

theorem table_missing (hg : Grows im d c 0 u s₀ s₁) (hn : s₁.target d (u/NPTENTRIES) = none) :
    u%NPTENTRIES = 0 := by
  have h := ((hg.table _).mp hn).2 (u-1) (Nat.zero_le _)
  simp only [NPTENTRIES] at *
  omega

theorem copyuvm_succeeds (h : UserSpace im pgdir s) (hsz : sz ≤ KERNBASE)
    (hpages : ∀ v, v*PGSIZE < sz → (s.lookup pgdir v).filter present ≠ none) (p : Owner)
    (hroom : Loader.need ((sz+PGSIZE-1)/PGSIZE)+65 ≤ s.freelist.length) :
    Returns (copyuvm im p pgdir sz) (fun o _ => o ≠ none) s := by
  apply ends_mono (copyuvm_ends h (by simp only [KERNBASE] at hsz; omega) hpages p)
  intro o ho
  cases ho with
  | failed s' hset =>
    have := hset.short
    omega
  | copied d l hl s₀ hk _ ho =>
    cases ho with
    | done s₁ hu hg => exact ⟨some d,s₁,rfl,Option.some_ne_none d⟩
    | stopped u s₁ s' hu hlim hg hstop hfree =>
      have hcount := copy_count hl hk hg hlim
      rcases hstop with e | ⟨⟨g,e⟩,-,hnull⟩
      · rw [e] at hcount
        simp only [Loader.need, Loader.tablesOf, NPTENTRIES, List.length_nil] at *
        omega
      have hmod := table_missing hg hnull
      rw [e] at hcount
      simp only [Loader.need, Loader.tablesOf, NPTENTRIES, List.length_singleton] at *
      omega
    | clash hn =>
      simp only [UPAGES, KERNBASE, PGSIZE] at *
      omega

theorem copyuvm_private (h : UserSpace im pgdir s) (hsz : sz < 2^32)
    (hpages : ∀ v, v*PGSIZE < sz → (s.lookup pgdir v).filter present ≠ none) (p : Owner) :
    Ends (copyuvm im p pgdir sz) (fun o => ∀ d s', o = some (.ok (some d,s')) →
      PrivateCopy im pgdir sz s d s') s := by
  apply ends_mono (copyuvm_ends h hsz hpages p)
  intro o ho d s' e
  cases ho with
  | failed => cases e
  | copied d' l hl s₀ hk _ ho =>
    cases ho with
    | done s₁ hu hg =>
      cases e
      exact private_copy h hl hk hg hu (fun v hv => hpages v ((page_below sz).mpr hv))
        (fun v => page_below sz)
    | stopped => cases e
    | clash => cases e

end Copy

section Example

theorem copyuvm_private_page : UserSpace tightImage 2000 (onePage (List.range' 3002 70) 0) ∧
    Returns (copyuvm tightImage none 2000 4096) (fun o s' => ∃ d, o = some d ∧
      PrivateCopy tightImage 2000 4096 (onePage (List.range' 3002 70) 0) d s')
      (onePage (List.range' 3002 70) 0) := by
  obtain ⟨hu,-,hf⟩ := onePage_maps (l := List.range' 3002 70) (v := 0) (List.nodup_range' ..)
    (by decide) (by decide) (by decide)
  have hlen : (onePage (List.range' 3002 70) 0).freelist.length = 70 := rfl
  generalize onePage (List.range' 3002 70) 0 = s at *
  have hpages : ∀ v, v*PGSIZE < 4096 → (s.lookup 2000 v).filter present ≠ none := by
    intro v hv
    have h0 : v = 0 := by
      simp only [PGSIZE] at hv
      omega
    rw [ne_eq, ← frame_none, hf, h0, update_self]
    exact Option.some_ne_none _
  have hsome := copyuvm_succeeds hu (by decide) hpages none (by rw [hlen]; decide)
  have hcopy := copyuvm_private hu (by decide) hpages none
  refine ⟨hu,ends_mono (ends_and hsome hcopy) ?_⟩
  rintro o ⟨⟨o',s',rfl,hne⟩,hc⟩
  obtain ⟨d,rfl⟩ := Option.ne_none_iff_exists'.mp hne
  exact ⟨some d,s',rfl,d,rfl,hc d s' rfl⟩

end Example

end Yeet.Vm
