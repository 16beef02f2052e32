import YeetKernel.PageHold

/-!
# Pages on the move

What an action does to the pages is seen from the spaces it does not touch,
which keep their tables, and from the one page that changes its place.
-/

namespace Yeet.Vm
open Function
open StateLists (Slot)

section Frame

def Untouched (s s' : State) (o : Option Space) : Prop :=
  (∀ sp, o = some sp → ∀ i, s'.pte sp.root i = s.pte sp.root i) ∧
    ∀ i t, tabOf o i = some t → ∀ j, s'.pte t j = s.pte t j

def Kept (s s' : State) (ρ ρ' : Owner → Hold) (E : Owner → Bool → Prop) : Prop :=
  ∀ q c, ¬ E q c → (ρ' q).space c = (ρ q).space c ∧ Untouched s s' ((ρ q).space c)

def Still (s s' : State) (ρ ρ' : Owner → Hold) (E : Owner → Bool → Prop) : Place ⊕ Owner → Prop
  | .inl .free => s'.freelist = s.freelist
  | .inl (.stack q) => s'.stackOf q = s.stackOf q
  | .inl (.dir q c) => ¬ E q c
  | .inl (.table q c _) => ¬ E q c
  | .inl (.frame q c _ _) => ¬ E q c
  | .inl .pipe => s'.pipes = s.pipes
  | .inr q => (ρ' q).hand = (ρ q).hand

def Beside (E : Owner → Bool → Prop) : Place ⊕ Owner → Prop
  | .inl (.dir q c) => E q c
  | .inl (.table q c _) => E q c
  | _ => True

variable {im : Image} {s s' : State} {ρ ρ' : Owner → Hold} {E : Owner → Bool → Prop} {p : Owner}
variable {r : Hold} {o : Option Page} {b : Bool} {sp : Space} {t : Page} {σ : Owner → Shape}

theorem frameOf_congr {i j : ℕ} (h : ∀ t, o = some t → s'.pte t j = s.pte t j) :
    s'.frameOf o i j = s.frameOf o i j := by
  cases o with
  | none => simp only [State.frameOf, Option.bind_none]
  | some t => simp only [State.frameOf, Option.bind_some, target_congr (h t rfl)]

theorem ledger_still (hk : Kept s s' ρ ρ' E) {x : Place ⊕ Owner} (hx : Still s s' ρ ρ' E x) :
    ledger s' ρ' x = ledger s ρ x := by
  rcases x with (_ | q | ⟨q,c⟩ | ⟨q,c,i⟩ | ⟨q,c,i,j⟩ | _) | q
  · exact hx
  · simp only [ledger, show s'.stackOf q = s.stackOf q from hx]
  · simp only [ledger, (hk q c hx).1]
  · simp only [ledger, (hk q c hx).1]
  · simp only [ledger, (hk q c hx).1]
    rw [frameOf_congr (fun t ht => (hk q c hx).2.2 i t ht j)]
  · simp only [ledger, show s'.pipes = s.pipes from hx]
  · exact hx

theorem ledger_dir (h : (ρ p).space b = some sp) : sp.root ∈ ledger s ρ (.inl (.dir p b)) := by
  simp [ledger, h]

theorem ledger_table {i : ℕ}
    (h : tabOf ((ρ p).space b) i = some t) : t ∈ ledger s ρ (.inl (.table p b i)) := by
  simp [ledger, h]

theorem Inv.kept (h : Inv im s ρ) (hs : ∀ q c, ¬ E q c → (ρ' q).space c = (ρ q).space c)
    (hw : ∀ t j, s'.pte t j ≠ s.pte t j → ∃ x, t ∈ ledger s ρ x ∧ Beside E x) :
    Kept s s' ρ ρ' E := by
  intro q c hE
  refine ⟨hs q c hE,fun sp hsp i => ?_,fun i t ht j => ?_⟩
  · by_contra hne
    obtain ⟨x,hx,hb⟩ := hw _ _ hne
    rw [h.pages.unique hx (ledger_dir hsp)] at hb
    exact hE hb
  by_contra hne
  obtain ⟨x,hx,hb⟩ := hw _ _ hne
  rw [h.pages.unique hx (ledger_table ht)] at hb
  exact hE hb

theorem Space.Reads.congr (h : sp.Reads s)
    (hd : ∀ i, s'.pte sp.root i = s.pte sp.root i) : sp.Reads s' := by
  intro i
  rw [h i, target_congr (hd i)]

theorem State.NoUser.congr (h : s.NoUser t) (ht : ∀ j, s'.pte t j = s.pte t j) : s'.NoUser t := by
  intro j hj
  rw [ht j]
  exact h j hj

theorem Spaces.kept (h : Spaces s ρ) (hk : Kept s s' ρ ρ' E)
    (hE : ∀ q c sp, E q c → (ρ' q).space c = some sp → sp.Reads s' ∧
      ((c = false → sp.whole = true) ∧ (sp.whole = true → sp.low = 0)) ∧
      ∀ i t, sp.tab i = some t → NPDENTRIES/2 ≤ i → s'.NoUser t) : Spaces s' ρ' := by
  refine ⟨fun q c sp hsp => ?_,fun q c sp hsp => ?_,fun q c i t ht hi => ?_⟩
  · by_cases he : E q c
    · exact (hE q c sp he hsp).1
    · rw [(hk q c he).1] at hsp
      exact (h.reads q c sp hsp).congr ((hk q c he).2.1 sp hsp)
  · by_cases he : E q c
    · exact (hE q c sp he hsp).2.1
    · rw [(hk q c he).1] at hsp
      exact h.whole q c sp hsp
  by_cases he : E q c
  · obtain ⟨sp,hsp,ht⟩ := Option.bind_eq_some_iff.mp ht
    exact (hE q c sp he hsp).2.2 i t ht hi
  · rw [(hk q c he).1] at ht
    exact (h.kernel q c i t ht hi).congr ((hk q c he).2.2 i t ht)

structure SameProcs (s s' : State) : Prop where
  stage : s'.stage = s.stage
  kstack : s'.kstack = s.kstack
  pgdir : s'.pgdir = s.pgdir
  sz : s'.sz = s.sz
  reaping : s'.reaping = s.reaping
  kpgdir : s'.kpgdir = s.kpgdir
  building : s'.building = s.building
  booted : s'.booted = s.booted
  top : s'.top = s.top

structure SameMemory (s s' : State) : Prop where
  mem : s'.mem = s.mem
  freelist : s'.freelist = s.freelist
  stackOf : ∀ q, s'.stackOf q = s.stackOf q
  pipes : s'.pipes = s.pipes
  top : s'.top = s.top

theorem pte_of_mem (h : s'.mem = s.mem) (t : Page) (j : ℕ) : s'.pte t j = s.pte t j := by
  rw [State.pte, h]
  rfl

theorem Slots.procs (h : Slots s σ) (hs : SameProcs s s') : Slots s' σ where
  building := by rw [hs.building]; exact h.building
  kernel := by rw [hs.kpgdir]; exact h.kernel
  image := by rw [hs.stage, hs.pgdir]; exact h.image
  corpse := by rw [hs.stage, hs.reaping, hs.pgdir]; exact h.corpse
  small := by rw [hs.stage, hs.sz]; exact h.small
  idle := by rw [hs.stage]; exact h.idle
  bare := by rw [hs.stage, hs.kstack]; exact h.bare
  kid := by rw [hs.stage, hs.kstack]; exact h.kid
  kids := h.kids
  reap := by rw [hs.stage, hs.kstack, hs.reaping]; exact h.reap
  reaps := h.reaps
  reaping := by rw [hs.stage, hs.reaping]; exact h.reaping
  booted := by rw [hs.booted, hs.top]; exact h.booted
  unborn := by rw [hs.booted, hs.top]; exact h.unborn

theorem shape_update (h : r.shape = (ρ p).shape) :
    (fun q => (update ρ p r q).shape) = fun q => (ρ q).shape := by
  funext q
  by_cases hq : q = p
  · subst hq
    rw [update_self, h]
  · rw [update_of_ne hq]

theorem Slots.hold (h : Slots s (fun q => (ρ q).shape))
    (hs : SameProcs s s') (hr : r.shape = (ρ p).shape) :
    Slots s' (fun q => (update ρ p r q).shape) := by
  rw [shape_update hr]
  exact h.procs hs

theorem shape_set :
    (fun q => (update ρ p r q).shape) = update (fun q => (ρ q).shape) p r.shape := by
  funext q
  by_cases hq : q = p
  · subst hq
    rw [update_self, update_self]
  · rw [update_of_ne hq, update_of_ne hq]

theorem Slots.setNew (h : Slots s σ) (hl : live s p = true) {k : Option (Page × Bool)}
    (hk : ∀ d, o = some d → k = some (d,true)) :
    Slots {s with building := update s.building p o} (update σ p {σ p with new := k}) := by
  have same : ∀ q, (update σ p {σ p with new := k} q).own = (σ q).own ∧
      (update σ p {σ p with new := k} q).kid = (σ q).kid ∧
      (update σ p {σ p with new := k} q).reap = (σ q).reap ∧
      (update σ p {σ p with new := k} q).bare = (σ q).bare ∧
      (update σ p {σ p with new := k} q).upto = (σ q).upto := by
    intro q
    by_cases hq : q = p
    · subst hq
      simp
    · simp [update_of_ne hq]
  refine ⟨?_,?_,?_,?_,h.small,?_,h.bare,?_,?_,?_,?_,h.reaping,?_,h.unborn⟩
  · intro q d hd
    replace hd : update s.building p o q = some d := hd
    by_cases hq : q = p
    · subst hq
      rw [update_self] at *
      exact hk d hd
    · rw [update_of_ne hq] at *
      exact h.building q d hd
  · rw [(same none).1]
    exact h.kernel
  · intro q hq
    rw [(same _).1]
    exact h.image q hq
  · intro q hq hz
    rw [(same _).1]
    exact h.corpse q hq hz
  · intro q hq
    have hne : some q ≠ p := by
      rintro rfl
      exact hq (by simpa [live] using hl)
    rw [update_of_ne hne]
    exact h.idle q hq
  · intro q
    rw [(same q).2.1, (same q).2.2.2.1]
    exact h.kid q
  · intro q q'
    rw [(same q).2.1, (same q').2.1]
    exact h.kids q q'
  · intro q
    rw [(same q).2.2.1, (same q).2.2.2.1]
    exact h.reap q
  · intro q q'
    rw [(same q).2.2.1, (same q').2.2.1]
    exact h.reaps q q'
  · rw [(same none).2.2.2.2]
    exact h.booted

end Frame

section Acts

variable {im : Image} {s : State} {ρ : Owner → Hold} {p : Owner} {r : Hold}

abbrev Nowhere : Owner → Bool → Prop := fun _ _ => False

abbrev Only (p : Owner) (b : Bool) : Owner → Bool → Prop := fun q c => q = p ∧ c = b

theorem space_update (h : ∀ b, r.space b = (ρ p).space b) (q : Owner) (c : Bool) :
    (update ρ p r q).space c = (ρ q).space c := by
  by_cases hq : q = p
  · subst hq
    rw [update_self, h]
  · rw [update_of_ne hq]

theorem hand_update_ne {q : Owner} (h : q ≠ p) : (update ρ p r q).hand = (ρ q).hand := by
  rw [update_of_ne h]

theorem pte_ne_fill {s : State} {g t : Page} {b : PageData} {j : ℕ}
    (h : (s.fill g b).pte t j ≠ s.pte t j) : t = g := by
  by_contra hne
  exact h (pte_fill_ne hne b j)

section

variable (h : Inv im s ρ) {g : Page} {k : ℕ}
include h

theorem Inv.moved {s' : State} {ρ' : Owner → Hold} {E : Owner → Bool → Prop}
    (hk : Kept s s' ρ ρ' E) {u v : Place ⊕ Owner} (hg : g ∈ ledger s ρ u)
    (hne : u ≠ v) (hs : (ledger s' ρ' u).Sublist ((ledger s ρ u).erase g))
    (hd : (ledger s' ρ' v).Sublist (g::ledger s ρ v))
    (ho : ∀ x, x ≠ u → x ≠ v → Still s s' ρ ρ' E x ∨ (ledger s' ρ' x).Sublist (ledger s ρ x)) :
    Ledger.Sound (im.within s.top) (ledger s' ρ') := by
  refine h.pages.move hg hne hs hd (fun x h1 h2 => ?_)
  rcases ho x h1 h2 with hx | hx
  · rw [ledger_still hk hx]
  · exact hx

theorem kalloc_inv {l : List Page} (hl : s.freelist = g::l) :
    Inv im {s with freelist := l} (update ρ p {ρ p with hand := g::(ρ p).hand}) := by
  have hk : Kept s {s with freelist := l} ρ (update ρ p {ρ p with hand := g::(ρ p).hand}) Nowhere :=
    h.kept (fun q c _ => space_update (fun b => by cases b <;> rfl) q c)
      (fun t j hne => absurd rfl hne)
  refine ⟨h.top,h.moved hk (u := .inl .free) (v := .inr p) (g := g) ?_ (by simp) ?_ ?_ ?_,
    h.spaces.kept hk (fun _ _ _ hE => hE.elim),
    h.slots.hold ⟨rfl,rfl,rfl,rfl,rfl,rfl,rfl,rfl,rfl⟩ rfl⟩
  · simp [ledger, hl]
  · simp [ledger, hl]
  · simp [ledger]
  intro x h1 h2
  left
  rcases x with (_ | q | q | q | q | _) | q
  · exact absurd rfl h1
  · rfl
  · exact id
  · exact id
  · exact id
  · rfl
  · exact hand_update_ne (fun e => h2 (e ▸ rfl))

theorem kfree_inv (hg : g ∈ (ρ p).hand) : Inv im (s.free g) (update ρ p ((ρ p).drop g)) := by
  have hk : Kept s (s.free g) ρ (update ρ p ((ρ p).drop g)) Nowhere := by
    refine h.kept (fun q c _ => space_update (fun b => Hold.space_drop _ _ b) q c)
      (fun t j hne => ⟨.inr p,?_,trivial⟩)
    rw [pte_ne_fill hne]
    exact hg
  refine ⟨h.top,h.moved hk (u := .inr p) (v := .inl .free) (g := g) hg (by simp) ?_ ?_ ?_,
    h.spaces.kept hk (fun _ _ _ hE => hE.elim),
    h.slots.hold ⟨rfl,rfl,rfl,rfl,rfl,rfl,rfl,rfl,rfl⟩ rfl⟩
  · simp [ledger, Hold.drop]
  · simp [ledger, State.free]
  intro x h1 h2
  left
  rcases x with (_ | q | q | q | q | _) | q
  · exact absurd rfl h2
  · rfl
  · exact id
  · exact id
  · exact id
  · rfl
  · exact hand_update_ne (fun e => h1 (e ▸ rfl))

theorem fill_inv {x : Place ⊕ Owner} (hg : g ∈ ledger s ρ x)
    (hx : Beside Nowhere x) (b : PageData) : Inv im (s.fill g b) ρ := by
  have hk : Kept s (s.fill g b) ρ ρ Nowhere := by
    refine h.kept (fun _ _ _ => rfl) (fun t j hne => ?_)
    rw [pte_ne_fill hne]
    exact ⟨x,hg,hx⟩
  refine ⟨h.top,h.pages.sub (fun y => ?_),h.spaces.kept hk (fun _ _ _ hE => hE.elim),
    h.slots.procs ⟨rfl,rfl,rfl,rfl,rfl,rfl,rfl,rfl,rfl⟩⟩
  rw [ledger_still hk (x := y)]
  rcases y with (_ | q | q | q | q | _) | q <;> first | rfl | exact id

theorem addPipe_inv (hg : g ∈ (ρ p).hand) :
    Inv im {s with pipes := ⟨g,true,true⟩::s.pipes} (update ρ p ((ρ p).drop g)) := by
  have hk : Kept s {s with pipes := ⟨g,true,true⟩::s.pipes} ρ (update ρ p ((ρ p).drop g)) Nowhere :=
    h.kept (fun q c _ => space_update (fun b => Hold.space_drop _ _ b) q c)
      (fun t j hne => absurd rfl hne)
  refine ⟨h.top,h.moved hk (u := .inr p) (v := .inl .pipe) (g := g) hg (by simp) ?_ ?_ ?_,
    h.spaces.kept hk (fun _ _ _ hE => hE.elim),
    h.slots.hold ⟨rfl,rfl,rfl,rfl,rfl,rfl,rfl,rfl,rfl⟩ rfl⟩
  · simp [ledger, Hold.drop]
  · simp [ledger]
  intro x h1 h2
  left
  rcases x with (_ | q | q | q | q | _) | q
  · rfl
  · rfl
  · exact id
  · exact id
  · exact id
  · exact absurd rfl h2
  · exact hand_update_ne (fun e => h1 (e ▸ rfl))

theorem closePipe_inv {pi : Pipe} (hp : s.pipes[k]? = some pi) :
    Inv im {s.free pi.page with pipes := s.pipes.eraseIdx k} ρ := by
  have hmem : pi.page ∈ ledger s ρ (.inl .pipe) :=
    List.mem_map_of_mem (List.mem_of_getElem? hp)
  have hk : Kept s {s.free pi.page with pipes := s.pipes.eraseIdx k} ρ ρ Nowhere := by
    refine h.kept (fun _ _ _ => rfl) (fun t j hne => ⟨.inl .pipe,?_,trivial⟩)
    rw [pte_ne_fill hne]
    exact hmem
  refine ⟨h.top,h.moved hk (u := .inl .pipe) (v := .inl .free) (g := pi.page) hmem (by simp) ?_ ?_ ?_,
    h.spaces.kept hk (fun _ _ _ hE => hE.elim),h.slots.procs ⟨rfl,rfl,rfl,rfl,rfl,rfl,rfl,rfl,rfl⟩⟩
  · obtain ⟨hlt,rfl⟩ := List.getElem?_eq_some_iff.mp hp
    have hn := h.pages.nodup (.inl .pipe)
    simp only [ledger] at hn ⊢
    rw [← List.eraseIdx_map, ← hn.erase_getElem (i := k) (h := by simpa using hlt), List.getElem_map]
  · simp [ledger, State.free]
  intro x h1 h2
  left
  rcases x with (_ | q | q | q | q | _) | q
  · exact absurd rfl h2
  · rfl
  · exact id
  · exact id
  · exact id
  · exact absurd rfl h1
  · rfl

theorem setPipe_inv {pi pi' : Pipe} (hp : s.pipes[k]? = some pi)
    (he : pi'.page = pi.page) : Inv im {s with pipes := s.pipes.set k pi'} ρ := by
  have hk : Kept s {s with pipes := s.pipes.set k pi'} ρ ρ Nowhere :=
    h.kept (fun _ _ _ => rfl) (fun t j hne => absurd rfl hne)
  refine ⟨h.top,h.pages.sub (fun x => ?_),h.spaces.kept hk (fun _ _ _ hE => hE.elim),
    h.slots.procs ⟨rfl,rfl,rfl,rfl,rfl,rfl,rfl,rfl,rfl⟩⟩
  rcases x with (_ | q | q | q | q | _) | q
  · rfl
  · rfl
  · rfl
  · rfl
  · rfl
  · obtain ⟨hlt,rfl⟩ := List.getElem?_eq_some_iff.mp hp
    simp only [ledger, List.map_set, he]
    rw [← List.getElem_map Pipe.page (h := by simpa using hlt), List.set_getElem_self]
  · rfl

end

end Acts

end Yeet.Vm
