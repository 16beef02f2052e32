import YeetKernel.UserSpace

/-!
# What `deallocuvm` releases

Where a page table is missing the loop of `deallocuvm` goes on 4 MB further,
from wherever it is. If it starts in the middle of a missing table it enters
the next table that is there in its middle too, and the entries before that
point are left. `Reached` says which pages the loop comes to.
-/

namespace Yeet.Vm
open Kernel Resumption NewSpace Function

variable {im : Image} {d g t : Page} {s s₁ s₂ : State} {S S' : ℕ → Prop} {v : ℕ}

/-- The frames of the pages in `S` were freed, each of them once, and their
entries cleared; no other entry has changed. -/
structure Cleared (d : Page) (S : ℕ → Prop) (s s' : State) : Prop where
  target : s'.target d = s.target d
  gone : ∀ v, S v → s.frame d v ≠ none → s'.lookup d v = some 0
  kept : ∀ v, ¬ (S v ∧ s.frame d v ≠ none) → s'.lookup d v = s.lookup d v
  freed : ∃ l, s'.freelist = l++s.freelist ∧ l.Nodup ∧ ∀ g, g ∈ l ↔ ∃ v, S v ∧ s.frame d v = some g
  mem : ∀ g, (∀ i, s.target d i ≠ some g) → (∀ v, S v → s.frame d v ≠ some g) → s'.mem g = s.mem g
  rest : s' = {s with mem := s'.mem, freelist := s'.freelist}

namespace Cleared

theorem nothing (h : ∀ v, S v → s.frame d v = none) : Cleared d S s s where
  target := rfl
  gone v hv hf := absurd (h v hv) hf
  kept _ _ := rfl
  freed := by
    refine ⟨[],rfl,List.nodup_nil,fun g => ?_⟩
    simp only [List.not_mem_nil, false_iff]
    rintro ⟨v,hv,hg⟩
    rw [h v hv] at hg
    cases hg
  mem _ _ _ := rfl
  rest := rfl

section

variable (h : Cleared d S s s₁) {v : ℕ}
include h

theorem frame_gone (hv : S v) : s₁.frame d v = none := by
  by_cases hf : s.frame d v = none
  · rw [State.frame, h.kept v (fun hc => hc.2 hf)]
    exact hf
  · rw [State.frame, h.gone v hv hf]
    rfl

theorem frame_kept (hv : ¬ S v) : s₁.frame d v = s.frame d v := by
  rw [State.frame, h.kept v (fun hc => hv hc.1), State.frame]

theorem frame_some (hg : s₁.frame d v = some g) : ¬ S v ∧ s.frame d v = some g := by
  have hv : ¬ S v := fun hv => by rw [h.frame_gone hv] at hg; cases hg
  exact ⟨hv,h.frame_kept hv ▸ hg⟩

theorem widen (hsub : ∀ v, S v → S' v)
    (hnone : ∀ v, S' v → ¬ S v → s.frame d v = none) : Cleared d S' s s₁ := by
  have hmem : ∀ v, S' v → s.frame d v ≠ none → S v := fun v hv hf =>
    by_contra (fun hc => hf (hnone v hv hc))
  refine ⟨h.target,fun v hv hf => h.gone v (hmem v hv hf) hf,fun v hv => ?_,?_,fun g ht hf => ?_,
    h.rest⟩
  · exact h.kept v (fun hc => hv ⟨hsub v hc.1,hc.2⟩)
  · obtain ⟨l,hl,hn,hg⟩ := h.freed
    refine ⟨l,hl,hn,fun g => (hg g).trans ⟨?_,?_⟩⟩
    · rintro ⟨v,hv,hf⟩
      exact ⟨v,hsub v hv,hf⟩
    · rintro ⟨v,hv,hf⟩
      exact ⟨v,hmem v hv (by rw [hf]; simp),hf⟩
  · exact h.mem g ht (fun v hv => hf v (hsub v hv))

theorem trans (h' : Cleared d S' s₁ s₂) (hs : UserSpace im d s)
    (hS : ∀ v, S v → v < UPAGES) (hS' : ∀ v, S' v → v < UPAGES) :
    Cleared d (fun v => S v ∨ S' v) s s₂ := by
  refine ⟨h'.target.trans h.target,fun v hv hf => ?_,fun v hv => ?_,?_,fun g ht hf => ?_,?_⟩
  · by_cases h1 : S v
    · rw [h'.kept v (fun hc => hc.2 (h.frame_gone h1)), h.gone v h1 hf]
    · exact h'.gone v (hv.resolve_left h1) (by rw [h.frame_kept h1]; exact hf)
  · by_cases hf : s.frame d v = none
    · have hk := h.kept v (fun hc => hc.2 hf)
      rw [h'.kept v (fun hc => hc.2 (by rw [State.frame, hk]; exact hf)), hk]
    · have h1 : ¬ S v := fun h1 => hv ⟨Or.inl h1,hf⟩
      have h2 : ¬ S' v := fun h2 => hv ⟨Or.inr h2,hf⟩
      rw [h'.kept v (fun hc => h2 hc.1), h.kept v (fun hc => h1 hc.1)]
  · obtain ⟨l,hl,hn,hg⟩ := h.freed
    obtain ⟨l',hl',hn',hg'⟩ := h'.freed
    refine ⟨l'++l,by rw [hl', hl, List.append_assoc],?_,fun g => ?_⟩
    · refine List.nodup_append.mpr ⟨hn',hn,?_⟩
      rintro x hx y hy rfl
      obtain ⟨v,hv,hfv⟩ := (hg' x).mp hx
      obtain ⟨w,hw,hfw⟩ := (hg x).mp hy
      obtain ⟨hnot,hfv⟩ := h.frame_some hfv
      have e := hs.frames v (hS' v hv) w (hS w hw) x hfv hfw
      exact hnot (e ▸ hw)
    rw [List.mem_append, hg, hg']
    constructor
    · rintro (⟨v,hv,hf⟩ | ⟨v,hv,hf⟩)
      · exact ⟨v,Or.inr hv,(h.frame_some hf).2⟩
      · exact ⟨v,Or.inl hv,hf⟩
    rintro ⟨v,hv,hf⟩
    by_cases h1 : S v
    · exact Or.inr ⟨v,h1,hf⟩
    · exact Or.inl ⟨v,hv.resolve_left h1,by rw [h.frame_kept h1]; exact hf⟩
  · have h1 : s₁.mem g = s.mem g := h.mem g ht (fun v hv => hf v (Or.inl hv))
    rw [← h1]
    refine h'.mem g (fun i => by rw [h.target]; exact ht i) (fun v hv hg => ?_)
    exact hf v (Or.inr hv) (h.frame_some hg).2
  · rw [h'.rest, h.rest]

end

end Cleared

theorem cleared_unmap (h : UserSpace im d s) (hv : v < UPAGES) (hg : s.frame d v = some g)
    (ht : s.target d (v/NPTENTRIES) = some t) :
    Cleared d (· = v) s ((s.free g).setPte t (v%NPTENTRIES) 0) where
  target := target_unmap h hv hg ht
  gone w hw _ := by
    subst hw
    rw [lookup_unmap h hv hg ht, update_self]
  kept w hw := by
    have hne : w ≠ v := by
      rintro rfl
      exact hw ⟨rfl,by rw [hg]; simp⟩
    rw [lookup_unmap h hv hg ht, update_of_ne hne]
  freed := by
    refine ⟨[g],rfl,List.nodup_singleton g,fun x => ?_⟩
    rw [List.mem_singleton]
    constructor
    · rintro rfl
      exact ⟨v,rfl,hg⟩
    · rintro ⟨w,rfl,hx⟩
      exact Option.some.inj (hx.symm.trans hg)
  mem x hx hf := by
    have h1 : x ≠ t := fun e => hx _ (e ▸ ht)
    have h2 : x ≠ g := fun e => hf v rfl (e ▸ hg)
    simp only [State.setPte, State.free, State.fill]
    rw [update_of_ne h1, update_of_ne h2]
  rest := rfl

variable {K : PageData}

theorem freePte_clears (h : UserSpace im d s) (K : PageData) (hv : v < UPAGES)
    (ht : s.target d (v/NPTENTRIES) = some t) : Returns (freePte im (t,v%NPTENTRIES))
      (fun _ s' => ∃ s₁, s' = s₁.graft d K ∧ Cleared d (· = v) s s₁ ∧ UserSpace im d s₁)
      (s.graft d K) := by
  have htd := (h.table _ t ht).1
  have htar := (graft_target_ne (K := K) htd).trans (target_eq_frame ht)
  cases hg : s.frame d v with
  | none =>
    refine returns_atom (a := ()) (r := s.graft d K) ?_ ⟨s,rfl,Cleared.nothing ?_,h⟩
    · simp only [htar, hg]
    · rintro w rfl
      exact hg
  | some g =>
    have hgd := (h.frame v hv g hg).2.1
    refine returns_atom (a := ()) (r := ((s.graft d K).free g).setPte t (v%NPTENTRIES) 0) ?_
      ⟨(s.free g).setPte t (v%NPTENTRIES) 0,?_,cleared_unmap h hv hg ht,h.unmap hv hg ht⟩
    · simp only [htar, hg, State.kfree, if_pos (h.frame v hv g hg).1]
      rfl
    · rw [graft_free hgd, graft_setPte htd]

/-- The loop that starts at the page `v₀` comes to the page `v`, if there is a
table for it. -/
def Reached (T : ℕ → Option Page) (v₀ v : ℕ) : Prop :=
  v₀%NPTENTRIES ≤ v%NPTENTRIES ∨ ∃ i, v₀/NPTENTRIES ≤ i ∧ i < v/NPTENTRIES ∧ T i ≠ none

/-- Where the loop can be: it has found no table yet, or the pages that follow
are reached. -/
def Midway (T : ℕ → Option Page) (v₀ u : ℕ) : Prop :=
  u%NPTENTRIES = v₀%NPTENTRIES ∧ (∀ i, v₀/NPTENTRIES ≤ i → i < u/NPTENTRIES → T i = none) ∨
    Reached T v₀ u ∧ (T (u/NPTENTRIES) ≠ none ∨ u%NPTENTRIES = 0)

section Stride

variable {T : ℕ → Option Page} {v₀ u v : ℕ}

theorem Midway.reached (h : Midway T v₀ u) : Reached T v₀ u := by
  rcases h with ⟨h,-⟩ | ⟨h,-⟩
  · exact Or.inl h.ge
  · exact h

theorem Midway.next (h : Midway T v₀ u) (hu : v₀ ≤ u) (ht : T (u/NPTENTRIES) ≠ none) :
    Midway T v₀ (u+1) := by
  have hr := h.reached
  simp only [Midway, Reached, NPTENTRIES] at *
  right
  by_cases hc : (u+1)/1024 = u/1024
  · refine ⟨?_,Or.inl (by rw [hc]; exact ht)⟩
    rcases hr with hr | ⟨i,h1,h2,h3⟩
    · left
      omega
    · exact Or.inr ⟨i,h1,by omega,h3⟩
  · exact ⟨Or.inr ⟨u/1024,by omega,by omega,ht⟩,Or.inr (by omega)⟩

theorem Midway.skip (h : Midway T v₀ u) (ht : T (u/NPTENTRIES) = none) :
    Midway T v₀ (u+NPTENTRIES) := by
  simp only [Midway, Reached, NPTENTRIES] at *
  rcases h with ⟨h1,h2⟩ | ⟨h1,h2⟩
  · refine Or.inl ⟨by omega,fun i hi hlt => ?_⟩
    by_cases e : i = u/1024
    · rw [e, ht]
    · exact h2 i hi (by omega)
  have h0 : u%1024 = 0 := h2.resolve_left (fun hc => hc ht)
  refine Or.inr ⟨?_,Or.inr (by omega)⟩
  rcases h1 with h1 | ⟨i,hi,hlt,hT⟩
  · left
    omega
  · exact Or.inr ⟨i,hi,by omega,hT⟩

theorem Midway.skipped (h : Midway T v₀ u) (ht : T (u/NPTENTRIES) = none) (h1 : u ≤ v)
    (h2 : v < u+NPTENTRIES) (hr : Reached T v₀ v) : T (v/NPTENTRIES) = none := by
  simp only [Midway, Reached, NPTENTRIES] at *
  by_cases e : v/1024 = u/1024
  · rw [e, ht]
  exfalso
  rcases h with ⟨h3,h4⟩ | ⟨-,h3⟩
  · rcases hr with hr | ⟨i,hi,hlt,hT⟩
    · omega
    · by_cases ei : i = u/1024
      · exact hT (ei ▸ ht)
      · exact hT (h4 i hi (by omega))
  · have h0 : u%1024 = 0 := h3.resolve_left (fun hc => hc ht)
    omega

end Stride

def Range (newsz oldsz v : ℕ) : Prop := pgroundup newsz ≤ v*PGSIZE ∧ v*PGSIZE < oldsz

theorem deallocLoop_clears {oldsz : ℕ} (ho : oldsz ≤ KERNBASE) (v₀ n u : ℕ) (h : UserSpace im d s)
    (hm : Midway (s.target d) v₀ u) (hu : v₀ ≤ u) (hn : oldsz ≤ (u+n)*PGSIZE) :
    Returns (deallocLoop im d oldsz n (u*PGSIZE)) (fun _ s' => ∃ s₁, s' = s₁.graft d K ∧
      UserSpace im d s₁ ∧ Cleared d (fun v => (u ≤ v ∧ v*PGSIZE < oldsz) ∧
        Reached (s.target d) v₀ v) s s₁) (s.graft d K) := by
  induction n generalizing s u with
  | zero =>
    refine returns_pure ⟨s,rfl,h,Cleared.nothing (fun v hv => ?_)⟩
    simp only [PGSIZE] at *
    omega
  | succ n ih =>
    unfold deallocLoop
    split
    swap
    · refine returns_pure ⟨s,rfl,h,Cleared.nothing (fun v hv => ?_)⟩
      simp only [PGSIZE] at *
      omega
    rename_i hlt
    have hup : ∀ {v}, v*PGSIZE < oldsz → v < KERNBASE/PGSIZE := by
      intro v hv
      simp only [KERNBASE, PGSIZE] at *
      omega
    apply returns_bind
    apply returns_mono (walk_returns d _)
    rintro r s' ⟨rfl,rfl⟩
    obtain ⟨hi,hpd⟩ := dir_index (hup hlt)
    rw [hpd, ptx_page, graft_target hi]
    cases ht : s.target d (u/NPTENTRIES) with
    | none =>
      have hstep : u*PGSIZE+(NPTENTRIES-1)*PGSIZE+PGSIZE = (u+NPTENTRIES)*PGSIZE := by
        simp only [NPTENTRIES, PGSIZE]
        omega
      simp only [Option.map_none, hstep]
      have hfar : u+(n+1) ≤ u+NPTENTRIES+n := by
        simp only [NPTENTRIES]
        omega
      apply returns_mono (ih (u+NPTENTRIES) h (hm.skip ht) (by omega)
        (hn.trans (Nat.mul_le_mul_right _ hfar)))
      rintro _ _ ⟨s₂,rfl,h',hc⟩
      refine ⟨s₂,rfl,h',hc.widen (fun v hv => ⟨⟨by omega,hv.1.2⟩,hv.2⟩) (fun v hv hnot => ?_)⟩
      have hT : s.target d (v/NPTENTRIES) = none := by
        refine hm.skipped ht hv.1.1 ?_ hv.2
        by_contra hge
        exact hnot ⟨⟨by omega,hv.1.2⟩,hv.2⟩
      rw [State.frame, lookup_none.mpr hT]
      rfl
    | some t =>
      simp only [Option.map_some]
      apply returns_bind
      apply returns_mono (freePte_clears h K (hup hlt) ht)
      rintro _ _ ⟨s₁,rfl,hc,h1⟩
      have hstep : u*PGSIZE+PGSIZE = (u+1)*PGSIZE := by
        simp only [PGSIZE]
        omega
      rw [hstep]
      have hm' : Midway (s₁.target d) v₀ (u+1) := by
        rw [hc.target]
        exact hm.next hu (by rw [ht]; simp)
      apply returns_mono (ih (u+1) h1 hm' (by omega)
        (hn.trans (Nat.mul_le_mul_right _ (by omega))))
      rintro _ _ ⟨s₂,rfl,h2,hc'⟩
      rw [hc.target] at hc'
      have hall := hc.trans hc' h (fun v hv => hv ▸ hup hlt) (fun v hv => hup hv.1.2)
      refine ⟨s₂,rfl,h2,hall.widen (fun v hv => ?_) (fun v hv hnot => ?_)⟩
      · rcases hv with rfl | hv
        · exact ⟨⟨Nat.le_refl _,hlt⟩,hm.reached⟩
        · exact ⟨⟨by omega,hv.1.2⟩,hv.2⟩
      exfalso
      apply hnot
      by_cases e : v = u
      · exact Or.inl e
      · exact Or.inr ⟨⟨by omega,hv.1.2⟩,hv.2⟩

theorem deallocuvm_grafted {oldsz newsz : ℕ} (h : UserSpace im d s) (hlt : newsz < oldsz)
    (ho : oldsz ≤ KERNBASE) :
    Returns (deallocuvm im d oldsz newsz) (fun r s' => r = newsz ∧ ∃ s₁, s' = s₁.graft d K ∧
      UserSpace im d s₁ ∧ Cleared d (fun v => Range newsz oldsz v ∧
        Reached (s.target d) (pgroundup newsz/PGSIZE) v) s s₁) (s.graft d K) := by
  have hpg : pgroundup newsz = pgroundup newsz/PGSIZE*PGSIZE := by
    simp only [pgroundup, PGSIZE]
    omega
  rw [deallocuvm, if_neg (by omega), hpg]
  apply returns_bind
  apply returns_mono (deallocLoop_clears ho (pgroundup newsz/PGSIZE) (oldsz/PGSIZE+1)
    (pgroundup newsz/PGSIZE) h (Or.inl ⟨rfl,fun i h1 h2 => absurd h2 (by omega)⟩) (Nat.le_refl _)
    (by simp only [PGSIZE]; omega))
  rintro _ _ ⟨s₁,rfl,h',hc⟩
  rw [← hpg]
  have hiff : ∀ v, (pgroundup newsz/PGSIZE ≤ v ∧ v*PGSIZE < oldsz) ↔ Range newsz oldsz v := by
    intro v
    simp only [Range, pgroundup, PGSIZE]
    omega
  refine returns_pure ⟨rfl,s₁,rfl,h',hc.widen (fun v hv => ⟨(hiff v).mp hv.1,hv.2⟩)
    (fun v hv hnot => ?_)⟩
  exact absurd ⟨(hiff v).mpr hv.1,hv.2⟩ hnot

theorem Cleared.dir_same (hc : Cleared d S s s₁) (h : UserSpace im d s) (hS : ∀ v, S v → v < UPAGES) :
    s₁.mem d = s.mem d :=
  hc.mem d (fun i hi => (h.table i d hi).1 rfl) (fun v hv hf => (h.frame v (hS v hv) d hf).2.1 rfl)

theorem upages_lt {newsz : ℕ} (hnew : newsz ≤ KERNBASE) (h : v*PGSIZE < newsz) : v < UPAGES := by
  simp only [UPAGES, KERNBASE, PGSIZE] at *
  omega

theorem deallocuvm_clears {oldsz newsz : ℕ} (h : UserSpace im d s) (hlt : newsz < oldsz)
    (ho : oldsz ≤ KERNBASE) :
    Returns (deallocuvm im d oldsz newsz) (fun r s' => r = newsz ∧ UserSpace im d s' ∧
      Cleared d (fun v => Range newsz oldsz v ∧
        Reached (s.target d) (pgroundup newsz/PGSIZE) v) s s') s := by
  have hg := deallocuvm_grafted (K := s.mem d) h hlt ho
  rw [graft_self] at hg
  apply returns_mono hg
  rintro r _ ⟨hr,s₁,rfl,h1,hc⟩
  rw [← hc.dir_same h (fun v hv => upages_lt ho hv.1.2), graft_self]
  exact ⟨hr,h1,hc⟩

/-- No page of the range is mapped any more, the frames that were mapped there
were freed once each, and no entry outside the range has changed. -/
structure Released (d : Page) (newsz oldsz : ℕ) (s s' : State) : Prop where
  gone : ∀ v, Range newsz oldsz v → s'.frame d v = none
  freed : ∃ l, s'.freelist = l++s.freelist ∧ l.Nodup ∧
    ∀ g, g ∈ l ↔ ∃ v, Range newsz oldsz v ∧ s.frame d v = some g
  kept : ∀ v, ¬ Range newsz oldsz v → s'.lookup d v = s.lookup d v

/-- `deallocuvm` releases exactly its range if and only if every page that is
mapped in it is not before the start in its table, or some table from that of
the start on is there before its own. -/
theorem deallocuvm_releases_iff {oldsz newsz : ℕ} (h : UserSpace im d s) (hlt : newsz < oldsz)
    (ho : oldsz ≤ KERNBASE) :
    Returns (deallocuvm im d oldsz newsz) (fun r s' => r = newsz ∧ Released d newsz oldsz s s') s ↔
      ∀ v, Range newsz oldsz v → s.frame d v ≠ none →
        Reached (s.target d) (pgroundup newsz/PGSIZE) v := by
  have hret := deallocuvm_clears h hlt ho
  constructor
  · intro hr v hv hf
    obtain ⟨_,⟨r,s',rfl,-,hrel⟩,r',s'',he,-,-,hc⟩ := ends_meet hr hret
    cases he
    by_contra hnot
    have hgone := hrel.gone v hv
    rw [hc.frame_kept (fun hc => hnot hc.2)] at hgone
    exact hf hgone
  · intro hcond
    apply returns_mono hret
    rintro r s' ⟨hr,-,hc⟩
    have hall : Cleared d (Range newsz oldsz) s s' :=
      hc.widen (fun v hv => hv.1) (fun v hv hnot => by_contra (fun hf => hnot ⟨hv,hcond v hv hf⟩))
    exact ⟨hr,fun v hv => hall.frame_gone hv,hall.freed,fun v hv => hall.kept v (fun hc => hv hc.1)⟩

section Example

def tightImage : Image := ⟨300,1023,by decide,by decide,by decide⟩

theorem bareKernel_frame (l : List Page) (d : Page) (v : ℕ) : (bareKernel l).frame d v = none := by
  rw [State.frame, lookup_none.mpr (bareKernel_target l d _)]
  rfl

theorem bareKernel_space {l : List Page} (hn : l.Nodup) (hm : ∀ g ∈ l, tightImage.managed g)
    (hd : d ∉ l) : UserSpace tightImage d (bareKernel l) :=
  space_empty hn hm hd (bareKernel_target l d)

def onePage (l : List Page) (v : ℕ) : State :=
  ((bareKernel l).install 2000 (v/NPTENTRIES) 3000).setPte 3000 (v%NPTENTRIES)
    (mkPte 3001 (PTE_W ||| PTE_U))

theorem onePage_maps {l : List Page} {v : ℕ} (hn : l.Nodup) (hm : ∀ g ∈ l, tightImage.managed g)
    (hl : 2000 ∉ l ∧ 3000 ∉ l ∧ 3001 ∉ l) (hv : v < UPAGES) :
    UserSpace tightImage 2000 (onePage l v) ∧
      (onePage l v).target 2000 = update (fun _ => none) (v/NPTENTRIES) (some 3000) ∧
      (onePage l v).frame 2000 = update (fun _ => none) v (some 3001) := by
  have hi : v/NPTENTRIES < NPDENTRIES := by
    simp only [UPAGES, KERNBASE, PGSIZE, NPTENTRIES, NPDENTRIES] at *
    omega
  have hb : UserSpace tightImage 2000 (bareKernel l) := bareKernel_space hn hm hl.1
  have hg : (bareKernel l).Spare tightImage 2000 3000 :=
    ⟨by decide,by decide,hl.2.1,by simp [bareKernel_target],by simp [bareKernel_frame]⟩
  have hu := hb.install hg (bareKernel_target _ _ _) hi
  have ht : ((bareKernel l).install 2000 (v/NPTENTRIES) 3000).target 2000 =
      update (fun _ => none) (v/NPTENTRIES) (some 3000) := by
    rw [target_install hg.managed hg.dir hi]
    congr 1
    ext1 i
    exact bareKernel_target l 2000 i
  have hf : ((bareKernel l).install 2000 (v/NPTENTRIES) 3000).frame 2000 = fun _ => none := by
    rw [frame_install hb hg (bareKernel_target _ _ _) hi]
    ext1 v
    exact bareKernel_frame l 2000 v
  have h1 : ((bareKernel l).install 2000 (v/NPTENTRIES) 3000).target 2000 (v/NPTENTRIES) =
      some 3000 := by
    rw [ht, update_self]
  have hg' : ((bareKernel l).install 2000 (v/NPTENTRIES) 3000).Spare tightImage 2000 3001 := by
    refine ⟨by decide,by decide,hl.2.2,fun i => ?_,by simp [hf]⟩
    rw [ht]
    by_cases e : i = v/NPTENTRIES <;> simp [e]
  refine ⟨hu.mapPte hg' h1 (by decide),?_,?_⟩
  · exact (target_setPte (by decide) _ _).trans ht
  · rw [onePage, frame_update (lookup_setPte hu h1 _), hf, pteFrame_mkPte hg'.managed (by decide)]

def gapSpace : State := onePage [] 1024

theorem gapSpace_maps : UserSpace tightImage 2000 gapSpace ∧
    gapSpace.target 2000 = update (fun _ => none) 1 (some 3000) ∧
    gapSpace.frame 2000 = update (fun _ => none) 1024 (some 3001) := by
  apply onePage_maps (by simp) (by simp) (by simp)
  simp only [UPAGES, KERNBASE, PGSIZE]
  omega

theorem below_kernel : 0x800000 ≤ KERNBASE := by
  simp only [KERNBASE]
  omega

theorem gap_aligned (s : State) (v : ℕ) :
    Reached (s.target 2000) (pgroundup 0x400000/PGSIZE) v := by
  left
  simp only [pgroundup, PGSIZE, NPTENTRIES]
  omega

theorem deallocuvm_releases_gap : UserSpace tightImage 2000 gapSpace ∧
    Returns (deallocuvm tightImage 2000 0x800000 0x400000)
      (fun r s' => r = 0x400000 ∧ Released 2000 0x400000 0x800000 gapSpace s') gapSpace := by
  have hu := gapSpace_maps.1
  have hlt : 0x400000 < 0x800000 := by omega
  generalize gapSpace = s at *
  exact ⟨hu,(deallocuvm_releases_iff hu hlt below_kernel).mpr (fun v _ _ => gap_aligned s v)⟩

theorem gap_passed : ¬ Reached (gapSpace.target 2000) (pgroundup 0x1000/PGSIZE) 1024 := by
  rw [gapSpace_maps.2.1]
  rintro (hle | ⟨i,-,hlt,hT⟩)
  · simp only [pgroundup, PGSIZE, NPTENTRIES] at hle
    omega
  have hne : i ≠ 1 := by
    simp only [NPTENTRIES] at hlt
    omega
  exact hT (update_of_ne hne _ _)

/-- From address 4096 on the loop goes from page 1 to page 1025: page 1024, at
4 MB, stays mapped and its frame is not freed. -/
theorem deallocuvm_passes_page : UserSpace tightImage 2000 gapSpace ∧
    Range 0x1000 0x800000 1024 ∧ gapSpace.frame 2000 1024 = some 3001 ∧
    Returns (deallocuvm tightImage 2000 0x800000 0x1000)
      (fun _ s' => s'.frame 2000 1024 = some 3001 ∧ 3001 ∉ s'.freelist ∧
        ¬ Released 2000 0x1000 0x800000 gapSpace s') gapSpace := by
  have hu := gapSpace_maps.1
  have hr : Range 0x1000 0x800000 1024 := by
    simp only [Range, pgroundup, PGSIZE]
    omega
  have h1024 : gapSpace.frame 2000 1024 = some 3001 := by
    rw [gapSpace_maps.2.2, update_self]
  have hlt : 0x1000 < 0x800000 := by omega
  have hin : 1024 < UPAGES := by
    simp only [UPAGES, KERNBASE, PGSIZE]
    omega
  have hpass := gap_passed
  generalize gapSpace = s at *
  refine ⟨hu,hr,h1024,?_⟩
  apply returns_mono (deallocuvm_clears hu hlt below_kernel)
  rintro r s' ⟨-,hu',hc⟩
  have hkept : s'.frame 2000 1024 = some 3001 := by
    rw [hc.frame_kept (fun hv => hpass hv.2), h1024]
  have hnot := hu'.frame 1024 hin 3001 hkept
  refine ⟨hkept,hnot.2.2.1,fun hrel => ?_⟩
  rw [hrel.gone 1024 hr] at hkept
  cases hkept

end Example

end Yeet.Vm
