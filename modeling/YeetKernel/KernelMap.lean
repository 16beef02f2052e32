import Mathlib.Order.Interval.Finset.Nat
import YeetKernel.Growproc

/-!
# The kernel half of a new address space

`setupkvm` maps the regions of `kmap` page by page and takes a page for each
table. `Kernel` follows it: what is mapped so far is a function from page
numbers to entries, each page taken has become a table, and no page that was
in use before is touched. The directory and its 64 tables are all it needs.
-/

namespace Yeet.Vm
open Yeet.Kernel Resumption NewSpace Function

def Kmap.pages (k : Kmap) : ℕ := (k.phys_end+2^32-k.phys_start)%2^32/PGSIZE

def Kmap.entry (k : Kmap) (v : ℕ) : Option Uint :=
  if k.virt/PGSIZE ≤ v ∧ v < k.virt/PGSIZE+k.pages then
    some (mkPte (k.phys_start/PGSIZE+(v-k.virt/PGSIZE)) k.perm)
  else none

def kernelEntry (im : Image) (v : ℕ) : Option Uint := (kmap im).findSome? (fun k => k.entry v)

/-- The entries of a directory above KERNBASE that `setupkvm` fills. -/
def kernelTables : Finset ℕ :=
  Finset.Ico (UPAGES/NPTENTRIES) ((KERNBASE+PHYSTOP)/PGSIZE/NPTENTRIES) ∪
    Finset.Ico (DEVSPACE/PGSIZE/NPTENTRIES) NPDENTRIES

variable {im : Image} {d g t : Page} {s s₀ s₁ : State} {M : ℕ → Option Uint} {v i : ℕ}
  {l : List Page} {p : Owner}

theorem kernelTables_eq : kernelTables = Finset.Ico 512 568 ∪ Finset.Ico 1016 1024 := rfl

theorem mem_kernelTables : i ∈ kernelTables ↔ 512 ≤ i ∧ i < 568 ∨ 1016 ≤ i ∧ i < 1024 := by
  rw [kernelTables_eq, Finset.mem_union, Finset.mem_Ico, Finset.mem_Ico]

theorem card_kernelTables : kernelTables.card = 64 := by
  rw [kernelTables_eq, Finset.card_union_of_disjoint, Nat.card_Ico, Nat.card_Ico]
  rw [Finset.disjoint_left]
  intro i h1 h2
  rw [Finset.mem_Ico] at h1 h2
  omega

theorem kernelTables_page (hv : v/NPTENTRIES ∈ kernelTables) : UPAGES ≤ v ∧ v < 2^20 := by
  rw [mem_kernelTables] at hv
  simp only [NPTENTRIES, UPAGES, KERNBASE, PGSIZE] at *
  omega

theorem UserSpace.setKernel (h : UserSpace im d s) (hv : UPAGES ≤ v)
    (ht : s.target d (v/NPTENTRIES) = some t) (w : Uint) :
    UserSpace im d (s.setPte t (v%NPTENTRIES) w) := by
  unfold UserSpace
  rw [target_setPte (h.table _ t ht).1, frame_update (lookup_setPte h ht _)]
  have hne : ∀ u < UPAGES, update (s.frame d) v (pteFrame w) u = s.frame d u := fun u hu =>
    update_of_ne (by omega) _ _
  refine ⟨h.nodup,h.managed,h.dir,h.table,h.tables,fun u hu g hg => ?_,
    fun u hu x hx g hg hg' => ?_⟩
  · rw [hne u hu] at hg
    exact h.frame u hu g hg
  · rw [hne u hu] at hg
    rw [hne x hx] at hg'
    exact h.frames u hu x hx g hg hg'

/-- Since `s₀` the directory `d` was given the mappings `M`, all of them above
KERNBASE. -/
structure Kernel (im : Image) (d : Page) (M : ℕ → Option Uint) (s₀ s : State) : Prop where
  space : UserSpace im d s
  maps : ∀ v, (s.lookup d v).filter present = M v
  tables : ∀ i t, s.target d i = some t → i ∈ kernelTables ∧ t ∈ s₀.freelist
  sub : ∀ g ∈ s.freelist, g ∈ s₀.freelist
  given : ∀ g ∈ s₀.freelist, g ∈ s.freelist ∨ ∃ i, s.target d i = some g
  count : s.freelist.length+(kernelTables.filter (s.target d · ≠ none)).card = s₀.freelist.length
  mem : ∀ g, g ∉ s₀.freelist → g ≠ d → s.mem g = s₀.mem g
  rest : s = {s₀ with mem := s.mem, freelist := s.freelist}

theorem Kernel.user (h : Kernel im d M s₀ s) (hi : i < NPDENTRIES/2) : s.target d i = none := by
  rw [Option.eq_none_iff_forall_ne_some]
  intro t ht
  have hk := mem_kernelTables.mp (h.tables i t ht).1
  simp only [NPDENTRIES] at hi
  omega

theorem Kernel.install (h : Kernel im d M s₀ s) (hv : v/NPTENTRIES ∈ kernelTables)
    (hnull : s.target d (v/NPTENTRIES) = none) (hl : s.freelist = t::l) :
    Kernel im d M s₀ (State.install {s with freelist := l} d (v/NPTENTRIES) t) ∧
      (State.install {s with freelist := l} d (v/NPTENTRIES) t).target d (v/NPTENTRIES) = some t := by
  obtain ⟨h1,ht⟩ := h.space.kalloc hl
  have hi := (dir_whole (kernelTables_page hv).2).1
  have htar := target_install (s := {s with freelist := l}) ht.managed ht.dir hi
  have hlook := lookup_install h1 ht hi
  have hts : t ∈ s₀.freelist := h.sub t (by rw [hl]; simp)
  refine ⟨⟨h1.install ht hnull hi,fun u => ?_,fun i x hx => ?_,fun x hx => ?_,fun x hx => ?_,?_,
    fun x h1 h2 => ?_,?_⟩,?_⟩
  · rw [hlook, ← h.maps]
    split
    · rename_i e
      have hn : s.lookup d u = none := lookup_none.mpr (e ▸ hnull)
      rw [hn]
      rfl
    · rfl
  · rw [htar] at hx
    by_cases e : i = v/NPTENTRIES
    · rw [e, update_self] at hx
      exact ⟨e ▸ hv,Option.some.inj hx ▸ hts⟩
    · rw [update_of_ne e] at hx
      exact h.tables i x hx
  · exact h.sub x (by rw [hl]; exact List.mem_cons_of_mem t hx)
  · rw [htar]
    rcases h.given x hx with hx | ⟨i,hi⟩
    · rw [hl] at hx
      rcases List.mem_cons.mp hx with rfl | hx
      · exact Or.inr ⟨_,update_self ..⟩
      · exact Or.inl hx
    · refine Or.inr ⟨i,?_⟩
      rw [update_of_ne (fun e => by rw [e, hnull] at hi; cases hi)]
      exact hi
  · -- one page less, one table more
    have hcount := h.count
    have hset : kernelTables.filter (update (s.target d) (v/NPTENTRIES) (some t) · ≠ none) =
        insert (v/NPTENTRIES) (kernelTables.filter (s.target d · ≠ none)) := by
      ext i
      by_cases e : i = v/NPTENTRIES
      · simp [e, hv]
      · simp [e]
    rw [htar]
    change l.length+(kernelTables.filter (update (s.target d) (v/NPTENTRIES) (some t) · ≠ none)).card = _
    rw [hset, Finset.card_insert_of_notMem (by simp [hnull])]
    rw [hl, List.length_cons] at hcount
    omega
  · have hxt : x ≠ t := fun e => h1 (e ▸ hts)
    simp only [State.install, State.setPte, State.fill]
    rw [update_of_ne h2, update_of_ne hxt]
    exact h.mem x h1 h2
  · simp only [State.install, State.setPte, State.fill]
    conv_lhs => rw [h.rest]
  · rw [htar, update_self]

theorem Kernel.set (h : Kernel im d M s₀ s) (hv : UPAGES ≤ v)
    (ht : s.target d (v/NPTENTRIES) = some t) {w : Uint} (hw : present w = true) :
    Kernel im d (update M v (some w)) s₀ (s.setPte t (v%NPTENTRIES) w) := by
  have htd := (h.space.table _ t ht).1
  have htar := target_setPte (s := s) htd (v%NPTENTRIES) w
  refine ⟨h.space.setKernel hv ht w,fun u => ?_,by rw [htar]; exact h.tables,h.sub,
    by rw [htar]; exact h.given,by rw [htar]; exact h.count,fun x h1 h2 => ?_,?_⟩
  · rw [lookup_setPte h.space ht]
    by_cases e : u = v
    · rw [e, update_self, update_self, Option.filter_some, if_pos hw]
    · rw [update_of_ne e, update_of_ne e]
      exact h.maps u
  · have hxt : x ≠ t := fun e => h1 (e ▸ (h.tables _ t ht).2)
    simp only [State.setPte, State.fill]
    rw [update_of_ne hxt]
    exact h.mem x h1 h2
  · simp only [State.setPte, State.fill]
    conv_lhs => rw [h.rest]

/-- Memory has run out while a table was missing. -/
structure Stuck (im : Image) (d : Page) (s₀ s : State) : Prop where
  kernel : ∃ M, Kernel im d M s₀ s
  empty : s.freelist = []
  missing : ∃ i ∈ kernelTables, s.target d i = none

theorem Stuck.short (h : Stuck im d s₀ s) : s₀.freelist.length < 64 := by
  obtain ⟨⟨M,hk⟩,hl,i,hi,hn⟩ := h
  have hcount := hk.count
  rw [hl, List.length_nil, Nat.zero_add] at hcount
  rw [← hcount, ← card_kernelTables]
  apply Finset.card_lt_card
  rw [Finset.filter_ssubset]
  exact ⟨i,hi,by simp [hn]⟩

theorem walk_alloc (hlt : v < 2^20) {Q : Outcome State Fault (Option PteRef) → Prop}
    (hsome : ∀ t, s.target d (v/NPTENTRIES) = some t → Q (some (.ok (some (t,v%NPTENTRIES),s))))
    (hnone : s.target d (v/NPTENTRIES) = none → s.freelist = [] → Q (some (.ok (none,s))))
    (hnew : ∀ t l, s.target d (v/NPTENTRIES) = none → s.freelist = t::l →
      Q (some (.ok (some (t,v%NPTENTRIES),State.install {s with freelist := l} d (v/NPTENTRIES) t)))) :
    Ends (walkpgdir d (v*PGSIZE) true) Q s := by
  unfold walkpgdir
  apply ends_after
  apply returns_fetch
  dsimp only
  rw [(dir_whole hlt).2, ptx_page]
  cases ht : s.target d (v/NPTENTRIES) with
  | some t =>
    have h1 := ht
    rw [State.target] at h1
    split at h1
    · rename_i hp
      rw [if_pos hp, Option.some.inj h1]
      exact hsome t ht
    · cases h1
  | none =>
    rw [target_none ht, if_neg Bool.false_ne_true, if_pos rfl]
    apply ends_after
    cases hl : s.freelist with
    | nil =>
      apply returns_mono (kalloc_empty hl)
      rintro o s' ⟨rfl,rfl⟩
      exact hnone ht hl
    | cons t l =>
      apply returns_mono (kalloc_returns hl)
      rintro o s' ⟨rfl,rfl⟩
      exact hnew t l ht hl

def overlay (M : ℕ → Option Uint) (v n : ℕ) (g : Page) (perm : Uint) (u : ℕ) : Option Uint :=
  if v ≤ u ∧ u < v+n then some (mkPte (g+(u-v)) perm) else M u

theorem overlay_succ (M : ℕ → Option Uint) (v n : ℕ) (g : ℕ) (perm : Uint) :
    overlay (update M v (some (mkPte g perm))) (v+1) n (g+1) perm = overlay M v (n+1) g perm := by
  ext1 u
  unfold overlay
  by_cases e : u = v
  · subst e
    rw [if_neg (by omega), if_pos (by omega), update_self, Nat.sub_self, Nat.add_zero]
  by_cases hin : v+1 ≤ u ∧ u < v+1+n
  · rw [if_pos hin, if_pos (by omega)]
    have : g+1+(u-(v+1)) = g+(u-v) := by omega
    rw [this]
  · rw [if_neg hin, if_neg (by omega), update_of_ne e]

theorem mapLoop_maps (perm : Uint) (n : ℕ) (g : ℕ) (h : Kernel im d M s₀ s)
    (hk : ∀ u, v ≤ u → u < v+n → u/NPTENTRIES ∈ kernelTables ∧ M u = none) :
    Returns (mapLoop d perm n (v*PGSIZE) g) (fun r s' =>
      r = true ∧ Kernel im d (overlay M v n g perm) s₀ s' ∨ r = false ∧ Stuck im d s₀ s') s := by
  induction n generalizing s M v g with
  | zero =>
    have : overlay M v 0 g perm = M := by
      ext1 u
      unfold overlay
      rw [if_neg (by omega)]
    exact returns_pure (Or.inl ⟨rfl,by rw [this]; exact h⟩)
  | succ n ih =>
    obtain ⟨hv,hM⟩ := hk v (Nat.le_refl v) (by omega)
    obtain ⟨hup,hlt⟩ := kernelTables_page hv
    have hwrite : ∀ {s : State} {t}, Kernel im d M s₀ s → s.target d (v/NPTENTRIES) = some t →
        Returns (do
          if present (← readPte (t,v%NPTENTRIES)) then fail (.panic "remap")
          else do
            writePte (t,v%NPTENTRIES) (mkPte g perm)
            mapLoop d perm n ((v*PGSIZE+PGSIZE)%2^32) (g+1)) (fun r s' =>
              r = true ∧ Kernel im d (overlay M v (n+1) g perm) s₀ s' ∨
                r = false ∧ Stuck im d s₀ s') s := by
      intro s t h ht
      have hp : present (s.pte t (v%NPTENTRIES)) = false := by
        have hm := h.maps v
        rw [hM, lookup_some ht, Option.filter_some] at hm
        split at hm
        · cases hm
        · rename_i hp
          exact (Bool.not_eq_true _).mp hp
      apply returns_bind
      apply returns_fetch
      dsimp only
      rw [hp, if_neg Bool.false_ne_true]
      apply returns_bind
      apply returns_assign
      rw [← overlay_succ]
      have hnext := ih (v := v+1) (g+1) (h.set hup ht (present_mkPte g perm)) (fun u h1 h2 => by
        rw [update_of_ne (by omega)]
        exact hk u (by omega) (by omega))
      cases n with
      | zero =>
        unfold mapLoop at hnext ⊢
        exact hnext
      | succ n =>
        have hlast := (kernelTables_page (hk (v+1) (by omega) (by omega)).1).2
        have hmod : (v*PGSIZE+PGSIZE)%2^32 = (v+1)*PGSIZE := by
          simp only [PGSIZE]
          omega
        rw [hmod]
        exact hnext
    unfold mapLoop
    apply ends_bind
    apply walk_alloc hlt
    · intro t ht
      exact hwrite h ht
    · intro hnull hl
      exact returns_pure (Or.inr ⟨rfl,⟨M,h⟩,hl,_,hv,hnull⟩)
    · intro t l hnull hl
      obtain ⟨h',ht⟩ := h.install hv hnull hl
      exact hwrite h' ht

theorem mappages_pages {va size : ℕ} (ha : va%PGSIZE = 0) (hs : size%PGSIZE = 0) (hpos : 0 < size)
    (hend : va+size ≤ 2^32) (g : Page) (perm : Uint) :
    mappages d va size g perm = mapLoop d perm (size/PGSIZE) (va/PGSIZE*PGSIZE) g := by
  have hcount : ((va+size+2^32-1)%2^32/PGSIZE+2^20-va/PGSIZE)%2^20+1 = size/PGSIZE := by
    simp only [PGSIZE] at *
    omega
  rw [mappages, hcount]

structure Kmap.Aligned (k : Kmap) : Prop where
  start : k.virt%PGSIZE = 0
  size : (k.phys_end+2^32-k.phys_start)%2^32%PGSIZE = 0
  some : 0 < (k.phys_end+2^32-k.phys_start)%2^32
  high : k.virt+(k.phys_end+2^32-k.phys_start)%2^32 ≤ 2^32
  tables : ∀ v, k.virt/PGSIZE ≤ v → v < k.virt/PGSIZE+k.pages → v/NPTENTRIES ∈ kernelTables

theorem kmap_aligned (im : Image) : ∀ k ∈ kmap im, k.Aligned := by
  have h1 : 256 < im.data := im.text
  have h2 := im.order
  have h3 : im.kend < 57344 := im.fits
  intro k hk
  simp only [kmap, List.mem_cons, List.not_mem_nil, or_false] at hk
  rcases hk with rfl | rfl | rfl | rfl <;> constructor <;>
    simp only [mem_kernelTables, Kmap.pages, KERNLINK, KERNBASE, EXTMEM, PHYSTOP, DEVSPACE, PGSIZE,
      NPTENTRIES] <;> omega

def layAll (M : ℕ → Option Uint) : List Kmap → ℕ → Option Uint
  | [] => M
  | k::ks => layAll (overlay M (k.virt/PGSIZE) k.pages (k.phys_start/PGSIZE) k.perm) ks

theorem overlay_eq (M : ℕ → Option Uint) (k : Kmap) (v : ℕ) :
    overlay M (k.virt/PGSIZE) k.pages (k.phys_start/PGSIZE) k.perm v = (k.entry v).or (M v) := by
  unfold overlay Kmap.entry
  split <;> rfl

def Separate (ks : List Kmap) : Prop :=
  ks.Pairwise (fun a b => ∀ v, a.entry v = none ∨ b.entry v = none)

theorem kmapLoop_maps (ks : List Kmap) (hks : ∀ k ∈ ks, k.Aligned) (hsep : Separate ks)
    (h : Kernel im d M s₀ s) (hM : ∀ k ∈ ks, ∀ v, k.entry v = none ∨ M v = none) :
    Returns (kmapLoop p d ks) (fun x s' => x = some d ∧ Kernel im d (layAll M ks) s₀ s' ∨
      x = none ∧ ∃ s₁, Stuck im d s₀ s₁ ∧ s' = {s₁ with building := update s₁.building p none}) s := by
  induction ks generalizing s M with
  | nil => exact returns_pure (Or.inl ⟨rfl,h⟩)
  | cons k ks ih =>
    have hk := hks k (by simp)
    obtain ⟨hsep₁,hsep₂⟩ := List.pairwise_cons.mp hsep
    unfold kmapLoop
    rw [mappages_pages hk.start hk.size hk.some hk.high]
    apply returns_bind
    apply returns_mono (mapLoop_maps k.perm k.pages (k.phys_start/PGSIZE) h (fun u h1 h2 => ?_))
    · rintro r s' (⟨rfl,h'⟩ | ⟨rfl,h'⟩)
      · refine ih (fun k hk => hks k (by simp [hk])) hsep₂ h' (fun k' hk' v => ?_)
        rw [overlay_eq]
        rcases hsep₁ k' hk' v with e | e
        · rw [e, Option.none_or]
          exact hM k' (by simp [hk']) v
        · exact Or.inl e
      · rw [if_neg Bool.false_ne_true]
        apply returns_bind
        apply returns_assign
        exact returns_pure (Or.inr ⟨rfl,s',h',rfl⟩)
    · refine ⟨hk.tables u h1 h2,(hM k (by simp) u).resolve_left ?_⟩
      rw [Kmap.entry, if_pos ⟨h1,h2⟩]
      exact Option.some_ne_none _

theorem layAll_eq {ks : List Kmap} (hks : Separate ks) (M : ℕ → Option Uint) (v : ℕ) :
    layAll M ks v = (ks.findSome? (fun k => k.entry v)).or (M v) := by
  induction ks generalizing M with
  | nil => rfl
  | cons k ks ih =>
    obtain ⟨hk,hks⟩ := List.pairwise_cons.mp hks
    rw [layAll, ih hks, overlay_eq, List.findSome?_cons]
    cases he : k.entry v with
    | none => rfl
    | some w =>
      have hnone : ks.findSome? (fun k => k.entry v) = none := by
        rw [List.findSome?_eq_none_iff]
        intro x hx
        exact (hk x hx v).resolve_left (by rw [he]; simp)
      rw [hnone]
      rfl

theorem entry_none (k : Kmap) (v : ℕ) :
    k.entry v = none ↔ ¬ (k.virt/PGSIZE ≤ v ∧ v < k.virt/PGSIZE+k.pages) := by
  unfold Kmap.entry
  split <;> simp [*]

theorem entry_apart {a b : Kmap} (h : a.virt/PGSIZE+a.pages ≤ b.virt/PGSIZE) (v : ℕ) :
    a.entry v = none ∨ b.entry v = none := by
  rw [entry_none, entry_none]
  omega

theorem kmap_apart (im : Image) : Separate (kmap im) := by
  have h1 : 256 < im.data := im.text
  have h2 := im.order
  have h3 : im.kend < 57344 := im.fits
  have hlt : (kmap im).Pairwise (fun a b => a.virt/PGSIZE+a.pages ≤ b.virt/PGSIZE) := by
    simp only [kmap, List.pairwise_cons, List.mem_cons, List.not_mem_nil, or_false, forall_eq_or_imp,
      forall_eq, Kmap.pages, KERNLINK, KERNBASE, EXTMEM, PHYSTOP, DEVSPACE, PGSIZE]
    refine ⟨⟨?_,?_,?_⟩,⟨?_,?_⟩,?_,?_,?_⟩
    all_goals first | omega | simp
  exact hlt.imp (fun h => entry_apart h)

theorem layAll_kmap (im : Image) : layAll (fun _ => none) (kmap im) = kernelEntry im := by
  ext1 v
  rw [layAll_eq (kmap_apart im), Option.or_none]
  rfl

def State.begin (s : State) (p : Owner) (d : Page) (l : List Page) : State :=
  {State.fill {s with freelist := l} d (fun _ => 0) with building := update s.building p (some d)}

theorem kernel_begin (hn : s.freelist.Nodup) (hm : ∀ g ∈ s.freelist, im.managed g)
    (hl : s.freelist = d::l) : Kernel im d (fun _ => none) (s.begin p d l) (s.begin p d l) := by
  have htar : ∀ i, (s.begin p d l).target d i = none := fun i =>
    target_zeroed {s with freelist := l} d i
  rw [hl] at hn hm
  have hfree : (s.begin p d l).freelist = l := rfl
  refine ⟨space_empty (List.nodup_cons.mp hn).2 (fun g hg => hm g (by simp [hfree ▸ hg]))
    (List.nodup_cons.mp hn).1 htar,fun v => ?_,by simp [htar],fun _ hg => hg,fun _ hg => Or.inl hg,
    by simp [htar],fun _ _ _ => rfl,rfl⟩
  rw [lookup_none.mpr (htar _)]
  rfl

/-- What `setupkvm` does with `l` free after its directory `d`. -/
inductive Setup (im : Image) (p : Owner) (s : State) : Option Page → State → Prop
  | nothing (hl : s.freelist = []) : Setup im p s none s
  | stuck (d : Page) (l : List Page) (hl : s.freelist = d::l) (s₁ : State)
      (h : Stuck im d (s.begin p d l) s₁) :
      Setup im p s none {s₁ with building := update s₁.building p none}
  | done (d : Page) (l : List Page) (hl : s.freelist = d::l) (s' : State)
      (h : Kernel im d (kernelEntry im) (s.begin p d l) s') : Setup im p s (some d) s'

theorem setupkvm_returns (hn : s.freelist.Nodup) (hm : ∀ g ∈ s.freelist, im.managed g) (p : Owner) :
    Returns (setupkvm im p) (Setup im p s) s := by
  unfold setupkvm
  apply returns_bind
  cases hl : s.freelist with
  | nil =>
    apply returns_mono (kalloc_empty hl)
    rintro o s' ⟨rfl,rfl⟩
    exact returns_pure (.nothing hl)
  | cons d l =>
    apply returns_mono (kalloc_returns hl)
    rintro o s' ⟨rfl,rfl⟩
    dsimp only
    apply returns_bind
    apply returns_assign
    rw [if_neg (by decide)]
    apply returns_mono (kmapLoop_maps (kmap im) (kmap_aligned im) (kmap_apart im)
      (kernel_begin hn hm (p := p) hl) (fun _ _ _ => Or.inr rfl))
    rintro x s' (⟨rfl,hk⟩ | ⟨rfl,s₁,hs,rfl⟩)
    · rw [layAll_kmap] at hk
      exact .done d l hl s' hk
    · exact .stuck d l hl s₁ hs

theorem kernelEntry_some (im : Image) (hi : i ∈ kernelTables) :
    kernelEntry im (i*NPTENTRIES) ≠ none := by
  have h1 : 256 < im.data := im.text
  have h2 := im.order
  have h3 : im.kend < 57344 := im.fits
  rw [mem_kernelTables] at hi
  simp only [kernelEntry, ne_eq, List.findSome?_eq_none_iff, kmap, List.mem_cons, List.not_mem_nil,
    or_false, forall_eq_or_imp, forall_eq, entry_none, Kmap.pages, KERNLINK, KERNBASE, EXTMEM, PHYSTOP,
    DEVSPACE, PGSIZE, NPTENTRIES]
  omega

theorem Kernel.filled (h : Kernel im d (kernelEntry im) s₀ s) (hi : i ∈ kernelTables) :
    s.target d i ≠ none := by
  intro hn
  apply kernelEntry_some im hi
  have hdiv : i*NPTENTRIES/NPTENTRIES = i := Nat.mul_div_cancel i (by decide)
  rw [← h.maps, lookup_none.mpr (by rw [hdiv]; exact hn)]
  rfl

theorem Kernel.count_eq (h : Kernel im d (kernelEntry im) s₀ s) :
    s.freelist.length+64 = s₀.freelist.length := by
  have hcount := h.count
  rw [Finset.filter_true_of_mem (fun i hi => h.filled hi), card_kernelTables] at hcount
  exact hcount

end Yeet.Vm
