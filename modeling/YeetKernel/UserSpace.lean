import YeetKernel.NewSpace

/-!
# Address spaces

What a directory maps, as a function from page numbers to entries. `Apart`
says in general terms when the directory, its tables, the frames below
KERNBASE and the free list share no page. A `UserSpace` is a directory in
memory of which this holds.
-/

namespace Yeet.Vm
open Yeet.Kernel Bytes Function NewSpace

def UPAGES : ℕ := KERNBASE/PGSIZE

def State.lookup (s : State) (d : Page) (v : ℕ) : Option Uint :=
  (s.target d (v/NPTENTRIES)).map (fun t => s.pte t (v%NPTENTRIES))

def pteFrame (w : Uint) : Option Page := if present w then some (pteAddr w) else none

def State.frame (s : State) (d : Page) (v : ℕ) : Option Page := (s.lookup d v).bind pteFrame

variable {im : Image} {d g t : Page} {T F : ℕ → Option Page} {l : List Page} {s : State}

/-- The directory `d` with tables `T`, the frames `F` below KERNBASE and the
free list have no page in common and no page twice. -/
structure Apart (im : Image) (d : Page) (T F : ℕ → Option Page) (l : List Page) : Prop where
  nodup : l.Nodup
  managed : ∀ g ∈ l, im.managed g
  dir : d ∉ l
  table : ∀ i t, T i = some t → t ≠ d ∧ t ∉ l
  tables : ∀ i j t, T i = some t → T j = some t → i = j
  frame : ∀ v < UPAGES, ∀ g, F v = some g → im.managed g ∧ g ≠ d ∧ g ∉ l ∧ ∀ i, T i ≠ some g
  frames : ∀ v < UPAGES, ∀ w < UPAGES, ∀ g, F v = some g → F w = some g → v = w

structure Spare (im : Image) (d : Page) (T F : ℕ → Option Page) (l : List Page) (g : Page) :
    Prop where
  managed : im.managed g
  dir : g ≠ d
  free : g ∉ l
  table : ∀ i, T i ≠ some g
  frame : ∀ v < UPAGES, F v ≠ some g

namespace Apart

theorem take (h : Apart im d T F (g::l)) : Apart im d T F l ∧ Spare im d T F l g := by
  have hg : g ∉ l := (List.nodup_cons.mp h.nodup).1
  constructor
  · refine ⟨(List.nodup_cons.mp h.nodup).2,fun x hx => h.managed x (by simp [hx]),
      fun hd => h.dir (by simp [hd]),fun i t ht => ?_,h.tables,fun v hv x hx => ?_,h.frames⟩
    · obtain ⟨h1,h2⟩ := h.table i t ht
      exact ⟨h1,fun hm => h2 (by simp [hm])⟩
    · obtain ⟨h1,h2,h3,h4⟩ := h.frame v hv x hx
      exact ⟨h1,h2,fun hm => h3 (by simp [hm]),h4⟩
  · refine ⟨h.managed g (by simp),fun e => h.dir (by simp [e]),hg,fun i ht => ?_,fun v hv hx => ?_⟩
    · exact (h.table i g ht).2 (by simp)
    · exact (h.frame v hv g hx).2.2.1 (by simp)

theorem map (h : Apart im d T F l) (hg : Spare im d T F l g) (v : ℕ) :
    Apart im d T (update F v (some g)) l := by
  refine ⟨h.nodup,h.managed,h.dir,h.table,h.tables,fun w hw x hx => ?_, fun w hw u hu x hx hy => ?_⟩
  · by_cases e : w = v
    · subst e
      obtain rfl : g = x := by simpa using hx
      exact ⟨hg.managed,hg.dir,hg.free,hg.table⟩
    · rw [update_of_ne e] at hx
      exact h.frame w hw x hx
  by_cases e : w = v <;> by_cases e' : u = v
  · rw [e, e']
  · subst e
    rw [update_self] at hx
    rw [update_of_ne e', ← hx] at hy
    exact absurd hy (hg.frame u hu)
  · subst e'
    rw [update_self] at hy
    rw [update_of_ne e, ← hy] at hx
    exact absurd hx (hg.frame w hw)
  · rw [update_of_ne e] at hx
    rw [update_of_ne e'] at hy
    exact h.frames w hw u hu x hx hy

theorem unmap (h : Apart im d T F l) {v : ℕ} (hv : v < UPAGES) (hg : F v = some g) :
    Apart im d T (update F v none) (g::l) := by
  obtain ⟨hm,hd,hl,ht⟩ := h.frame v hv g hg
  refine ⟨List.nodup_cons.mpr ⟨hl,h.nodup⟩,fun x hx => ?_,fun hx => ?_,fun i t hti => ?_,h.tables,
    fun w hw x hx => ?_,fun w hw u hu x hx hy => ?_⟩
  · rcases List.mem_cons.mp hx with rfl | hx
    · exact hm
    · exact h.managed x hx
  · rcases List.mem_cons.mp hx with e | hx
    · exact hd e.symm
    · exact h.dir hx
  · obtain ⟨h1,h2⟩ := h.table i t hti
    refine ⟨h1,fun hx => ?_⟩
    rcases List.mem_cons.mp hx with rfl | hx
    · exact ht i hti
    · exact h2 hx
  · by_cases e : w = v
    · subst e
      simp at hx
    rw [update_of_ne e] at hx
    obtain ⟨h1,h2,h3,h4⟩ := h.frame w hw x hx
    refine ⟨h1,h2,fun hmem => ?_,h4⟩
    rcases List.mem_cons.mp hmem with rfl | hmem
    · exact e (h.frames w hw v hv x hx hg)
    · exact h3 hmem
  by_cases e : w = v
  · subst e
    simp at hx
  by_cases e' : u = v
  · subst e'
    simp at hy
  · rw [update_of_ne e] at hx
    rw [update_of_ne e'] at hy
    exact h.frames w hw u hu x hx hy

theorem install (h : Apart im d T F l) (hg : Spare im d T F l g) (i : ℕ) :
    Apart im d (update T i (some g)) F l := by
  refine ⟨h.nodup,h.managed,h.dir,fun j t ht => ?_,fun j k t ht hk => ?_,fun v hv x hx => ?_,
    h.frames⟩
  · by_cases e : j = i
    · subst e
      obtain rfl : g = t := by simpa using ht
      exact ⟨hg.dir,hg.free⟩
    · rw [update_of_ne e] at ht
      exact h.table j t ht
  · by_cases e : j = i <;> by_cases e' : k = i
    · rw [e, e']
    · subst e
      rw [update_self] at ht
      rw [update_of_ne e', ← ht] at hk
      exact absurd hk (hg.table k)
    · subst e'
      rw [update_self] at hk
      rw [update_of_ne e, ← hk] at ht
      exact absurd ht (hg.table j)
    · rw [update_of_ne e] at ht
      rw [update_of_ne e'] at hk
      exact h.tables j k t ht hk
  · obtain ⟨h1,h2,h3,h4⟩ := h.frame v hv x hx
    refine ⟨h1,h2,h3,fun j hj => ?_⟩
    by_cases e : j = i
    · subst e
      rw [update_self] at hj
      exact hg.frame v hv (by rw [hx, hj])
    · rw [update_of_ne e] at hj
      exact h4 j hj

end Apart

def UserSpace (im : Image) (d : Page) (s : State) : Prop :=
  Apart im d (s.target d) (s.frame d) s.freelist

def State.Held (s : State) (d g : Page) : Prop :=
  g = d ∨ (∃ i, s.target d i = some g) ∨ ∃ v < UPAGES, s.frame d v = some g

def State.Spare (im : Image) (d : Page) (s : State) (g : Page) : Prop :=
  Vm.Spare im d (s.target d) (s.frame d) s.freelist g

theorem managed_lt {g : ℕ} (h : im.managed g) : g < 2^20 := by
  have h1 : g < 57344 := h.2
  omega

theorem pteFrame_mkPte {g : ℕ} {perm : Uint} (hg : im.managed g) (hp : perm < 4096) :
    pteFrame (mkPte g perm) = some g := by
  rw [pteFrame, present_mkPte, if_pos rfl, pteAddr_mkPte (managed_lt hg) hp]

section Entry

variable {v : ℕ} {s' : State}

theorem lookup_none : s.lookup d v = none ↔ s.target d (v/NPTENTRIES) = none := by
  rw [State.lookup, Option.map_eq_none_iff]

theorem lookup_some (ht : s.target d (v/NPTENTRIES) = some t) :
    s.lookup d v = some (s.pte t (v%NPTENTRIES)) := by
  rw [State.lookup, ht, Option.map_some]

theorem target_eq_frame (ht : s.target d (v/NPTENTRIES) = some t) :
    s.target t (v%NPTENTRIES) = s.frame d v := by
  rw [State.frame, lookup_some ht]
  rfl

theorem frame_table (h : s.frame d v = some g) : ∃ t, s.target d (v/NPTENTRIES) = some t := by
  rw [State.frame] at h
  cases ht : s.target d (v/NPTENTRIES) with
  | none =>
    rw [lookup_none.mpr ht] at h
    cases h
  | some t => exact ⟨t,rfl⟩

theorem frame_eq_filter (s : State) (d : Page) (v : ℕ) :
    s.frame d v = ((s.lookup d v).filter present).map pteAddr := by
  rw [State.frame]
  cases s.lookup d v with
  | none => rfl
  | some w =>
    rw [Option.bind_some, pteFrame, Option.filter_some]
    split <;> rfl

theorem frame_none : s.frame d v = none ↔ (s.lookup d v).filter present = none := by
  rw [frame_eq_filter, Option.map_eq_none_iff]

theorem frame_of_filter (h : (s'.lookup d v).filter present = (s.lookup d v).filter present) :
    s'.frame d v = s.frame d v := by
  rw [frame_eq_filter, frame_eq_filter, h]

theorem target_fill (hd : g ≠ d) (b : PageData) : (s.fill g b).target d = s.target d := by
  ext1 i
  exact target_congr (pte_fill_ne hd.symm b i)

theorem lookup_fill (hd : g ≠ d) (ht : ∀ i, s.target d i ≠ some g) (b : PageData) :
    (s.fill g b).lookup d = s.lookup d := by
  ext1 v
  rw [State.lookup, State.lookup, target_fill hd]
  apply Option.map_congr
  intro t h
  have htg : t ≠ g := fun e => ht _ (e ▸ h)
  exact pte_fill_ne htg b _

theorem frame_eq_of_lookup (h : s'.lookup d = s.lookup d) : s'.frame d = s.frame d := by
  ext1 v
  rw [State.frame, State.frame, h]

theorem target_setPte (ht : t ≠ d) (j : ℕ) (w : Uint) : (s.setPte t j w).target d = s.target d :=
  target_fill ht _

theorem lookup_setPte (h : UserSpace im d s) (ht : s.target d (v/NPTENTRIES) = some t) (w : Uint) :
    (s.setPte t (v%NPTENTRIES) w).lookup d = update (s.lookup d) v (some w) := by
  have htd : t ≠ d := (h.table _ t ht).1
  ext1 u
  rw [State.lookup, target_setPte htd]
  by_cases e : u = v
  · subst e
    rw [ht, update_self, Option.map_some, pte_setPte (Nat.mod_lt _ (by decide))]
  rw [update_of_ne e, State.lookup]
  apply Option.map_congr
  intro t' hu
  apply pte_setPte_ne
  by_contra hc
  obtain ⟨h1,h2⟩ := not_or.mp hc
  rw [not_not.mp h1] at hu
  have hdiv := h.tables _ _ t hu ht
  have hmod := not_not.mp h2
  apply e
  rw [← Nat.div_add_mod u NPTENTRIES, ← Nat.div_add_mod v NPTENTRIES, hdiv, hmod]

theorem frame_update {w : Uint} (h : s'.lookup d = update (s.lookup d) v (some w)) :
    s'.frame d = update (s.frame d) v (pteFrame w) := by
  ext1 u
  rw [State.frame, h]
  by_cases e : u = v
  · subst e
    rw [update_self, update_self]
    rfl
  · rw [update_of_ne e, update_of_ne e, State.frame]

end Entry

namespace UserSpace

theorem fill (h : UserSpace im d s) (hd : g ≠ d) (ht : ∀ i, s.target d i ≠ some g) (b : PageData) :
    UserSpace im d (s.fill g b) := by
  unfold UserSpace
  rw [target_fill hd, frame_eq_of_lookup (lookup_fill hd ht b)]
  exact h

theorem fills (h : UserSpace im d s) (hg : s.Spare im d g) (b : PageData) :
    UserSpace im d (s.fill g b) ∧ (s.fill g b).target d = s.target d ∧
      (s.fill g b).lookup d = s.lookup d ∧ ∀ {x}, s.Spare im d x → (s.fill g b).Spare im d x := by
  have htar := target_fill (s := s) hg.dir b
  have hlook := lookup_fill hg.dir hg.table b
  refine ⟨h.fill hg.dir hg.table b,htar,hlook,fun {x} hx => ?_⟩
  unfold State.Spare
  rwa [htar, frame_eq_of_lookup hlook]

theorem kalloc (h : UserSpace im d s) (hl : s.freelist = g::l) :
    UserSpace im d {s with freelist := l} ∧ State.Spare im d {s with freelist := l} g := by
  unfold UserSpace at h
  rw [hl] at h
  exact h.take

theorem mapPte (h : UserSpace im d s) (hg : s.Spare im d g) {v : ℕ}
    (ht : s.target d (v/NPTENTRIES) = some t) {perm : Uint} (hp : perm < 4096) :
    UserSpace im d (s.setPte t (v%NPTENTRIES) (mkPte g perm)) := by
  unfold UserSpace
  rw [target_setPte (h.table _ t ht).1, frame_update (lookup_setPte h ht _),
    pteFrame_mkPte hg.managed hp]
  exact h.map hg v

end UserSpace

def State.install (s : State) (d : Page) (i : ℕ) (t : Page) : State :=
  (s.fill t (fun _ => 0)).setPte d i (mkPte t (PTE_W ||| PTE_U))

section Install

variable {i : ℕ}

theorem target_install (hg : im.managed g) (hd : g ≠ d) (hi : i < NPDENTRIES) :
    (s.install d i g).target d = update (s.target d) i (some g) := by
  ext1 j
  by_cases e : j = i
  · subst e
    rw [update_self, State.install, State.target, pte_setPte hi]
    exact pteFrame_mkPte hg (by decide)
  · rw [update_of_ne e, State.install]
    rw [target_congr (pte_setPte_ne (Or.inr e) _), target_fill hd]

theorem pte_install (hd : t ≠ d) (j : ℕ) :
    (s.install d i g).pte t j = if t = g then 0 else s.pte t j := by
  rw [State.install, pte_setPte_ne (Or.inl hd)]
  split
  · rename_i e
    rw [e, pte_zeroed]
  · rename_i e
    rw [pte_fill_ne e]

theorem lookup_install (h : UserSpace im d s) (hg : s.Spare im d g) (hi : i < NPDENTRIES) (v : ℕ) :
    (s.install d i g).lookup d v = if v/NPTENTRIES = i then some 0 else s.lookup d v := by
  rw [State.lookup, target_install hg.managed hg.dir hi]
  split
  · rename_i e
    rw [e, update_self, Option.map_some, pte_install hg.dir, if_pos rfl]
  rename_i e
  rw [update_of_ne e, State.lookup]
  apply Option.map_congr
  intro t ht
  have htg : t ≠ g := fun e => hg.table _ (e ▸ ht)
  rw [pte_install (h.table _ t ht).1, if_neg htg]

theorem frame_install (h : UserSpace im d s) (hg : s.Spare im d g) (hi : s.target d i = none)
    (hlt : i < NPDENTRIES) : (s.install d i g).frame d = s.frame d := by
  ext1 v
  rw [State.frame, lookup_install h hg hlt, State.frame]
  split
  · rename_i e
    rw [lookup_none.mpr (e ▸ hi)]
    rfl
  · rfl

theorem UserSpace.install (h : UserSpace im d s) (hg : s.Spare im d g) (hi : s.target d i = none)
    (hlt : i < NPDENTRIES) : UserSpace im d (s.install d i g) := by
  unfold UserSpace
  rw [target_install hg.managed hg.dir hlt, frame_install h hg hi hlt]
  exact Apart.install h hg i

end Install

section Unmap

variable {v : ℕ}

theorem lookup_unmap (h : UserSpace im d s) (hv : v < UPAGES) (hg : s.frame d v = some g)
    (ht : s.target d (v/NPTENTRIES) = some t) :
    ((s.free g).setPte t (v%NPTENTRIES) 0).lookup d = update (s.lookup d) v (some 0) := by
  obtain ⟨-,hd,-,hgt⟩ := h.frame v hv g hg
  have hf : UserSpace im d (s.fill g (fun _ => 1)) := h.fill hd hgt _
  have ht' : (s.fill g (fun _ => 1)).target d (v/NPTENTRIES) = some t := by
    rw [target_fill hd]
    exact ht
  exact (lookup_setPte hf ht' 0).trans (by rw [lookup_fill hd hgt])

theorem target_unmap (h : UserSpace im d s) (hv : v < UPAGES) (hg : s.frame d v = some g)
    (ht : s.target d (v/NPTENTRIES) = some t) :
    ((s.free g).setPte t (v%NPTENTRIES) 0).target d = s.target d :=
  (target_setPte (s := s.free g) (h.table _ t ht).1 _ _).trans
    (target_fill (h.frame v hv g hg).2.1 _)

theorem UserSpace.unmap (h : UserSpace im d s) (hv : v < UPAGES) (hg : s.frame d v = some g)
    (ht : s.target d (v/NPTENTRIES) = some t) :
    UserSpace im d ((s.free g).setPte t (v%NPTENTRIES) 0) := by
  unfold UserSpace
  rw [target_unmap h hv hg ht, frame_update (lookup_unmap h hv hg ht)]
  exact Apart.unmap h hv hg

end Unmap

section Graft

variable {v i : ℕ} {K : PageData}

theorem dir_user (hv : v < UPAGES) : v/NPTENTRIES < NPDENTRIES/2 := (dir_index hv).1

theorem graft_lookup (h : UserSpace im d s) (hv : v < UPAGES) :
    (s.graft d K).lookup d v = s.lookup d v := by
  rw [State.lookup, graft_target (dir_user hv)]
  apply Option.map_congr
  intro t ht
  exact graft_pte_ne (h.table _ t ht).1

theorem graft_frame (h : UserSpace im d s) (hv : v < UPAGES) :
    (s.graft d K).frame d v = s.frame d v := by
  rw [State.frame, graft_lookup h hv, State.frame]

theorem graft_of_graft {s' : State} : s'.graft d ((s.graft d K).mem d) = s'.graft d K := by
  simp only [State.graft, State.fill, update_self]
  congr 2
  ext1 a
  split <;> rfl

theorem graft_install (ht : t ≠ d) (hi : i < NPDENTRIES/2) :
    (s.graft d K).install d i t = (s.install d i t).graft d K := by
  rw [State.install, graft_fill ht, graft_setDir hi, State.install]

theorem Fresh.target (h : Fresh im d s) (i : ℕ) : (s.graft d (fun _ => 0)).target d i = none := by
  have hz : (s.graft d (fun _ => 0)).pte d i = 0 := by
    by_cases hi : i < NPDENTRIES/2
    · rw [graft_pte hi, h.empty i hi]
    · rw [graft_upper (Nat.le_of_not_lt hi)]
      exact getField_zero (4*i) 4
  rw [State.target, hz]
  rfl

theorem space_empty (hn : s.freelist.Nodup) (hm : ∀ g ∈ s.freelist, im.managed g)
    (hd : d ∉ s.freelist) (ht : ∀ i, s.target d i = none) : UserSpace im d s := by
  have hf : ∀ v, s.frame d v = none := fun v => by
    rw [State.frame, lookup_none.mpr (ht _)]
    rfl
  exact ⟨hn,hm,hd,by simp [ht],by simp [ht],by simp [hf],by simp [hf]⟩

end Graft

def bareKernel (l : List Page) : State := {start (fun _ _ => 0) with freelist := l}

theorem bareKernel_target (l : List Page) (d : Page) (i : ℕ) : (bareKernel l).target d i = none := by
  have hz : (bareKernel l).pte d i = 0 := getField_zero (4*i) 4
  rw [State.target, hz]
  rfl

end Yeet.Vm
