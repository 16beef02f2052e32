import YeetKernel.PageSpace

/-!
# Slots of the process table and the spaces that go with them

Slots are taken, filled, emptied and given back; address spaces pass from one
holder to another without a change to their pages.
-/

namespace Yeet.Vm
open Kernel Function
open StateLists (Slot)

variable {im : Image} {s s' : State} {ρ ρ' : Owner → Hold} {σ : Owner → Shape} {p : Owner}
  {q : Slot}

section Slots

section

variable (h : Slots s σ) {sz : ℕ} {d : Page}
include h

theorem Slots.takeSlot (hl : live s p = true) (hr : (σ p).reap = none) (hq : s.stage q = .unused) :
    Slots {s with stage := update s.stage q .embryo}
      (update σ p {σ p with kid := some q, bare := true}) := by
  cases h
  constructor <;> grind [update_apply, live, Shape.rest]

theorem Slots.setStack (hk : (σ p).kid = some q) (g : Page) :
    Slots {s with kstack := update s.kstack q (some g)} (update σ p {σ p with bare := false}) := by
  cases h
  constructor <;> grind [update_apply, Shape.rest]

theorem Slots.giveBack (hk : (σ p).kid = some q) (hb : (σ p).bare = true) :
    Slots {s with stage := update s.stage q .unused} (update σ p {σ p with kid := none}) := by
  cases h
  constructor <;> grind [update_apply, Shape.rest]

theorem Slots.clearStack (q : Slot) : Slots {s with kstack := update s.kstack q none} σ := by
  cases h
  constructor <;> grind [update_apply]

theorem Slots.strip (hk : ∀ q, (σ p).kid = some q ∨ (σ p).reap = some q →
    s.kstack q = none) : Slots s (update σ p {σ p with bare := true}) := by
  cases h
  constructor <;> grind [update_apply, Shape.rest]

theorem Slots.adopt (hk : (σ p).kid = some q) (hz : sz < KERNBASE) (parent : Slot → Option Slot) :
    Slots {s with
        pgdir := update s.pgdir q (some d)
        sz := update s.sz q sz
        parent := parent
        stage := update s.stage q .alive
        building := update s.building p none}
      (update (update σ (some q) {σ (some q) with own := some d}) p
        {σ p with new := none, kid := none}) := by
  cases h
  constructor <;> grind [update_apply, Shape.rest]

theorem Slots.exited (hl : s.stage q = .alive) (hr : (σ (some q)).rest) : Slots (s.exited q) σ := by
  cases h
  unfold State.exited
  constructor <;> grind [update_apply, Shape.rest]

theorem Slots.findZombie (hl : live s p = true) (hz : s.stage q = .zombie) (hr : s.reaping = none) :
    Slots {s with reaping := some q, building := update s.building p (s.pgdir q)}
      (update (update σ (some q) {σ (some q) with own := none}) p
        {σ p with new := (σ (some q)).own.map (fun d => (d,true)), reap := some q, bare := false}) := by
  cases h
  constructor <;> grind [update_apply, Shape.rest, live]

theorem Slots.reaped (hk : (σ p).reap = some q) (hb : (σ p).bare = true)
    (parent : Slot → Option Slot) :
    Slots {s with stage := update s.stage q .unused, parent := parent, reaping := none}
      (update σ p {σ p with reap := none}) := by
  cases h
  constructor <;> grind [update_apply, Shape.rest]

theorem Slots.kvmalloc : Slots {s with kpgdir := some d, building := update s.building none none}
      (update σ none {σ none with own := some d, new := none}) := by
  cases h
  constructor <;> grind [update_apply, Shape.rest]

theorem Slots.commit (hl : s.stage q = .alive) {d e : Page} (hz : sz < KERNBASE) :
    Slots {s with
        pgdir := update s.pgdir q (some d)
        sz := update s.sz q sz
        building := update s.building (some q) (some e)}
      (update σ (some q) {σ (some q) with own := some d, new := some (e,true)}) := by
  cases h
  constructor <;> grind [update_apply, Shape.rest]

theorem Slots.setSz (hz : sz < KERNBASE) : Slots {s with sz := update s.sz q sz} σ := by
  cases h
  constructor <;> grind [update_apply]

theorem Slots.giveMemory (hb : s.booted = true) (t : ℕ) :
    Slots {s with top := t} (update σ none {σ none with upto := some t}) := by
  cases h
  constructor <;> grind [update_apply, Shape.rest]

theorem Slots.firstBoot (hb : s.booted = false) :
    Slots {s with booted := true} (update σ none {σ none with upto := some 0}) := by
  cases h
  constructor <;> grind [update_apply, Shape.rest]

end

end Slots

section Reown

def mapSpace (e : Owner × Bool ≃ Owner × Bool) : Place ⊕ Owner → Place ⊕ Owner
  | .inl (.dir p b) => .inl (.dir (e (p,b)).1 (e (p,b)).2)
  | .inl (.table p b i) => .inl (.table (e (p,b)).1 (e (p,b)).2 i)
  | .inl (.frame p b i j) => .inl (.frame (e (p,b)).1 (e (p,b)).2 i j)
  | x => x

theorem mapSpace_injective (e : Owner × Bool ≃ Owner × Bool) : Injective (mapSpace e) := by
  refine LeftInverse.injective (g := mapSpace e.symm) ?_
  rintro ((_ | q | ⟨q,c⟩ | ⟨q,c,i⟩ | ⟨q,c,i,j⟩ | _) | q) <;> simp [mapSpace]

theorem Inv.reown (h : Inv im s ρ) (e : Owner × Bool ≃ Owner × Bool) (hm : SameMemory s s')
    (hh : ∀ q, (ρ' q).hand = (ρ q).hand) (hsp : ∀ q c sp, (ρ' q).space c = some sp →
      (ρ (e (q,c)).1).space (e (q,c)).2 = some sp ∧ (c = false → sp.whole = true))
    (hslots : Slots s' (fun q => (ρ' q).shape)) : Inv im s' ρ' := by
  have hpte := pte_of_mem hm.mem
  have htab : ∀ q c i t, tabOf ((ρ' q).space c) i = some t →
      tabOf ((ρ (e (q,c)).1).space (e (q,c)).2) i = some t := by
    intro q c i t ht
    obtain ⟨sp,h1,h2⟩ := Option.bind_eq_some_iff.mp ht
    rw [(hsp q c sp h1).1]
    exact h2
  have hsub : ∀ {a b : Option Page}, (∀ g, a = some g → b = some g) →
      a.toList.Sublist b.toList := by
    intro a b hab
    cases a with
    | none => exact List.nil_sublist _
    | some g => rw [hab g rfl]
  refine ⟨hm.top ▸ h.top,hm.top ▸ h.pages.relabel (mapSpace e) (mapSpace_injective e)
    (fun x => ?_),?_,hslots⟩
  · rcases x with (_ | q | ⟨q,c⟩ | ⟨q,c,i⟩ | ⟨q,c,i,j⟩ | _) | q
    · simp only [ledger, mapSpace, hm.freelist]
      rfl
    · simp only [ledger, mapSpace, hm.stackOf]
      rfl
    · refine hsub (fun g hg => ?_)
      obtain ⟨sp,h1,rfl⟩ := Option.map_eq_some_iff.mp hg
      rw [(hsp q c sp h1).1]
      rfl
    · exact hsub (htab q c i)
    · refine hsub (fun g hg => ?_)
      cases ht : tabOf ((ρ' q).space c) i with
      | none => simp [ht, State.frameOf] at hg
      | some t =>
        rw [ht] at hg
        rw [htab q c i t ht, ← hg, frameOf_congr (fun t _ => hpte t j)]
    · simp only [ledger, mapSpace, hm.pipes]
      rfl
    · simp only [ledger, mapSpace, hh]
      rfl
  · refine ⟨fun q c sp hq => ?_,fun q c sp hq => ⟨(hsp q c sp hq).2,?_⟩,fun q c i t ht hi => ?_⟩
    · exact (h.spaces.reads _ _ sp (hsp q c sp hq).1).congr (hpte _)
    · exact (h.spaces.whole _ _ sp (hsp q c sp hq).1).2
    · exact (h.spaces.kernel _ _ i t (htab q c i t ht) hi).congr (hpte t)

theorem Inv.stay (h : Inv im s ρ) (hm : SameMemory s s')
    (hh : ∀ q, (ρ' q).hand = (ρ q).hand) (hsp : ∀ q c, (ρ' q).space c = (ρ q).space c)
    (hslots : Slots s' (fun q => (ρ' q).shape)) : Inv im s' ρ' := by
  refine h.reown (Equiv.refl _) hm hh (fun q c sp hq => ?_) hslots
  rw [hsp] at hq
  exact ⟨hq,(h.spaces.whole q c sp hq).1⟩

theorem ledger_setKstack {o : Option Page} {x : Place ⊕ Owner} (hx : x ≠ .inl (.stack q)) :
    ledger {s with kstack := update s.kstack q o} ρ x = ledger s ρ x := by
  rcases x with (_ | z | _ | _ | _ | _) | z
  · rfl
  · have hz : z ≠ q := fun e => hx (by rw [e])
    simp only [ledger, State.stackOf, update_of_ne hz]
  all_goals rfl

theorem stackOf_setStage {t : Stage} (h : s.stage q = .unused ∨ t = .unused → s.kstack q = none)
    (z : Slot) : State.stackOf {s with stage := update s.stage q t} z = s.stackOf z := by
  by_cases hz : z = q
  · subst hz
    simp only [State.stackOf, update_self]
    grind
  · simp only [State.stackOf, update_of_ne hz]

theorem hand_update {r : Hold} (hr : r.hand = (ρ p).hand) (z : Owner) :
    (update ρ p r z).hand = (ρ z).hand := by
  by_cases hz : z = p
  · subst hz
    rw [update_self, hr]
  · rw [update_of_ne hz]

section

variable (h : Inv im s ρ) {sz : ℕ} {sp : Space} {g : Page} {r : Hold}
include h

theorem takeStack_inv (hg : s.kstack q = some g)
    (hq : s.stage q ≠ .unused) (hk : ∀ z, (ρ p).kid = some z ∨ (ρ p).reap = some z → z = q) :
    Inv im {s with kstack := update s.kstack q none}
      (update ρ p {ρ p with hand := g::(ρ p).hand, bare := true}) := by
  set r' : Hold := {ρ p with hand := g::(ρ p).hand, bare := true} with hr'
  have hsame : ∀ c, r'.space c = (ρ p).space c := by
    intro c
    cases c <;> rfl
  refine ⟨h.top,h.pages.move (u := .inl (.stack q)) (v := .inr p) (g := g) ?_ (by simp) ?_ ?_ ?_,
    h.spaces.same rfl (space_update hsame),?_⟩
  · simp [ledger, State.stackOf, hq, hg]
  · simp [ledger, State.stackOf]
  · simp [ledger, hr']
  · intro x h1 h2
    rw [ledger_hold hsame h2, ledger_setKstack h1]
  rw [shape_set]
  refine (h.slots.clearStack q).strip (fun z hz => ?_)
  rw [hk z hz]
  exact update_self ..

theorem setStack_inv (hg : g ∈ (ρ p).hand) (hk : (ρ p).kid = some q) (hb : (ρ p).bare = true) :
    Inv im {s with kstack := update s.kstack q (some g)}
      (update ρ p {(ρ p).drop g with bare := false}) := by
  set r' : Hold := {(ρ p).drop g with bare := false} with hr'
  have hsame : ∀ c, r'.space c = (ρ p).space c := by
    intro c
    cases c <;> rfl
  have hold := (h.slots.kid p q hk).2 hb
  refine ⟨h.top,h.pages.move (u := .inr p) (v := .inl (.stack q)) (g := g) hg (by simp) ?_ ?_ ?_,
    h.spaces.same rfl (space_update hsame),?_⟩
  · simp [ledger, hr', Hold.drop]
  · simp [ledger, State.stackOf, (h.slots.kid p q hk).1]
  · intro x h1 h2
    rw [ledger_hold hsame h1, ledger_setKstack h2]
  · rw [shape_set]
    exact h.slots.setStack hk g

theorem takeSlot_inv (hl : live s p = true) (hr : (ρ p).reap = none) (hq : s.stage q = .unused) :
    Inv im {s with stage := update s.stage q .embryo}
      (update ρ p {ρ p with kid := some q, bare := true}) := by
  refine h.stay ⟨rfl,rfl,stackOf_setStage (fun _ => h.slots.bare q hq),rfl,rfl⟩ (hand_update rfl)
    (space_update (fun c => by cases c <;> rfl)) ?_
  rw [shape_set]
  exact h.slots.takeSlot hl hr hq

theorem giveBack_inv (hk : (ρ p).kid = some q) (hb : (ρ p).bare = true) :
    Inv im {s with stage := update s.stage q .unused} (update ρ p {ρ p with kid := none}) := by
  refine h.stay ⟨rfl,rfl,stackOf_setStage (fun _ => (h.slots.kid p q hk).2 hb),rfl,rfl⟩
    (hand_update rfl) (space_update (fun c => by cases c <;> rfl)) ?_
  rw [shape_set]
  exact h.slots.giveBack hk hb

theorem reaped_inv (hk : (ρ p).reap = some q) (hb : (ρ p).bare = true)
    (parent : Slot → Option Slot) :
    Inv im {s with stage := update s.stage q .unused, parent := parent, reaping := none}
      (update ρ p {ρ p with reap := none}) := by
  refine h.stay ⟨rfl,rfl,stackOf_setStage (fun _ => (h.slots.reap p q hk).2.2 hb),rfl,rfl⟩
    (hand_update rfl) (space_update (fun c => by cases c <;> rfl)) ?_
  rw [shape_set]
  exact h.slots.reaped hk hb parent

theorem exited_inv (hl : s.stage q = .alive)
    (hr : (ρ (some q)).shape.rest) : Inv im (s.exited q) ρ := by
  refine h.stay ⟨rfl,rfl,stackOf_setStage (fun e => ?_),rfl,rfl⟩ (fun _ => rfl) (fun _ _ => rfl)
    (h.slots.exited hl hr)
  rcases e with e | e
  · rw [hl] at e
    cases e
  · cases e

theorem abandon_inv (hl : live s p = true) :
    Inv im {s with building := update s.building p none} (update ρ p {ρ p with new := none}) := by
  refine h.reown (Equiv.refl _) ⟨rfl,rfl,fun _ => rfl,rfl,rfl⟩ (hand_update rfl)
    (fun z c sp hsp => ?_) ?_
  · by_cases hz : z = p
    · subst hz
      rw [update_self] at hsp
      cases c with
      | false => exact ⟨hsp,(h.spaces.whole z false sp hsp).1⟩
      | true => cases hsp
    · rw [update_of_ne hz] at hsp
      exact ⟨hsp,(h.spaces.whole z c sp hsp).1⟩
  · rw [shape_set]
    exact h.slots.setNew hl (fun d hd => by cases hd)

theorem setSz_inv (hz : sz < KERNBASE) : Inv im {s with sz := update s.sz q sz} ρ :=
  h.stay ⟨rfl,rfl,fun _ => rfl,rfl,rfl⟩ (fun _ => rfl) (fun _ _ => rfl) (h.slots.setSz hz)

theorem Inv.handOver (hne : some q ≠ p) {o : Option Space}
    (hh : r.hand = (ρ p).hand) (ho : r.own = (ρ p).own)
    (hown : ∀ sp, o = some sp → (ρ p).new = some sp ∧ sp.whole = true)
    (hnew : ∀ sp, r.new = some sp → (ρ (some q)).own = some sp) (hm : SameMemory s s')
    (hslots : Slots s' (fun z => (update (update ρ (some q) {ρ (some q) with own := o}) p r z).shape)) :
    Inv im s' (update (update ρ (some q) {ρ (some q) with own := o}) p r) := by
  refine h.reown (Equiv.swap (some q,false) (p,true)) hm (fun z => ?_) (fun z c sp hsp => ?_) hslots
  · refine (hand_update ?_ z).trans (hand_update ?_ z)
    · rw [update_of_ne hne.symm]
      exact hh
    · rfl
  by_cases h1 : z = p
  · subst h1
    rw [update_self] at hsp
    cases c with
    | false =>
      have hsp : (ρ z).own = some sp := ho.symm.trans hsp
      rw [Equiv.swap_apply_of_ne_of_ne (by simp [hne.symm]) (by simp)]
      exact ⟨hsp,fun _ => (h.spaces.whole z false sp hsp).1 rfl⟩
    | true =>
      rw [Equiv.swap_apply_right]
      exact ⟨hnew sp hsp,fun e => by cases e⟩
  rw [update_of_ne h1] at hsp
  by_cases h2 : z = some q
  · subst h2
    rw [update_self] at hsp
    cases c with
    | false =>
      rw [Equiv.swap_apply_left]
      exact ⟨(hown sp hsp).1,fun _ => (hown sp hsp).2⟩
    | true =>
      rw [Equiv.swap_apply_of_ne_of_ne (by simp) (by simp [h1])]
      exact ⟨hsp,fun e => by cases e⟩
  · rw [update_of_ne h2] at hsp
    rw [Equiv.swap_apply_of_ne_of_ne (by simp [h2]) (by simp [h1])]
    exact ⟨hsp,(h.spaces.whole z c sp hsp).1⟩

theorem adopt_inv (hl : live s p = true) (hk : (ρ p).kid = some q)
    (hn : (ρ p).new = some sp) (hw : sp.whole = true) (hz : sz < KERNBASE)
    (parent : Slot → Option Slot) :
    Inv im {s with
        pgdir := update s.pgdir q (some sp.root)
        sz := update s.sz q sz
        parent := parent
        stage := update s.stage q .alive
        building := update s.building p none}
      (update (update ρ (some q) {ρ (some q) with own := some sp}) p
        {ρ p with new := none, kid := none}) := by
  have hstage := (h.slots.kid p q hk).1
  have hne : some q ≠ p := by
    rintro rfl
    simp [live, hstage] at hl
  refine h.handOver hne rfl rfl (fun sp' e => ?_) (fun _ e => by cases e)
    ⟨rfl,rfl,stackOf_setStage (fun e => ?_),rfl,rfl⟩ ?_
  · obtain rfl := Option.some.inj e
    exact ⟨hn,hw⟩
  · rcases e with e | e
    · rw [hstage] at e
      cases e
    · cases e
  · have := h.slots.adopt hk (d := sp.root) hz parent
    rw [shape_set, shape_set]
    exact this

theorem Inv.own_key :
    (ρ p).own.map Space.key = ((ρ p).own.map Space.root).map (fun d => (d,true)) := by
  cases ho : (ρ p).own with
  | none => rfl
  | some sp => simp [Space.key, (h.spaces.whole p false sp ho).1 rfl]

theorem findZombie_inv (hl : live s p = true) (hz : s.stage q = .zombie) (hr : s.reaping = none) :
    Inv im {s with reaping := some q, building := update s.building p (s.pgdir q)}
      (update (update ρ (some q) {ρ (some q) with own := none}) p
        {ρ p with new := (ρ (some q)).own, reap := some q, bare := false}) := by
  have hne : some q ≠ p := by
    rintro rfl
    simp [live, hz] at hl
  refine h.handOver hne rfl rfl (fun _ e => by cases e) (fun _ e => e) ⟨rfl,rfl,fun _ => rfl,rfl,rfl⟩ ?_
  have hs := h.slots.findZombie hl hz hr
  have hkey := h.own_key (p := some q)
  rw [shape_set, shape_set]
  simp only [Hold.shape] at hs hkey ⊢
  rw [hkey]
  exact hs

theorem exchange_inv (hh : r.hand = (ρ p).hand)
    (ho : r.own = (ρ p).new) (hn : r.new = none ∨ r.new = (ρ p).own)
    (hw : ∀ sp, (ρ p).new = some sp → sp.whole = true) (hm : SameMemory s s')
    (hslots : Slots s' (fun q => (update ρ p r q).shape)) : Inv im s' (update ρ p r) := by
  refine h.reown (Equiv.swap (p,false) (p,true)) hm (hand_update hh) (fun z c sp hsp => ?_) hslots
  by_cases h1 : z = p
  · subst h1
    rw [update_self] at hsp
    cases c with
    | false =>
      rw [Equiv.swap_apply_left]
      have hsp' : (ρ z).new = some sp := ho ▸ hsp
      exact ⟨hsp',fun _ => hw sp hsp'⟩
    | true =>
      rw [Equiv.swap_apply_right]
      refine ⟨?_,fun e => by cases e⟩
      rcases hn with hn | hn
      · rw [Hold.space, hn] at hsp
        cases hsp
      · rw [Hold.space, hn] at hsp
        exact hsp
  · rw [update_of_ne h1] at hsp
    rw [Equiv.swap_apply_of_ne_of_ne (by simp [h1]) (by simp [h1])]
    exact ⟨hsp,(h.spaces.whole z c sp hsp).1⟩

theorem kvmalloc_inv (hn : (ρ none).new = some sp) (hw : sp.whole = true) :
    Inv im {s with kpgdir := some sp.root, building := update s.building none none}
      (update ρ none {ρ none with own := some sp, new := none}) := by
  refine exchange_inv h rfl hn.symm (Or.inl rfl) (fun sp' hsp' => ?_) ⟨rfl,rfl,fun _ => rfl,rfl,rfl⟩
    ?_
  · rwa [← Option.some.inj (hn.symm.trans hsp')]
  · rw [shape_set]
    exact h.slots.kvmalloc

theorem commit_inv (hl : s.stage q = .alive)
    (hn : (ρ (some q)).new = some sp) (hw : sp.whole = true) {d : Page}
    (hd : s.pgdir q = some d) (hz : sz < KERNBASE) :
    Inv im {s with
        pgdir := update s.pgdir q (some sp.root)
        sz := update s.sz q sz
        building := update s.building (some q) (some d)}
      (update ρ (some q) {ρ (some q) with own := some sp, new := (ρ (some q)).own}) := by
  refine exchange_inv h rfl hn.symm (Or.inr rfl) (fun sp' hsp' => ?_) ⟨rfl,rfl,fun _ => rfl,rfl,rfl⟩
    ?_
  · rwa [← Option.some.inj (hn.symm.trans hsp')]
  have hs := h.slots.commit hl (d := sp.root) (e := d) hz
  have ho := (h.slots.image q hl).2
  have hkey := h.own_key (p := some q)
  rw [show (ρ (some q)).own.map Space.root = some d from ho.trans hd] at hkey
  rw [shape_set]
  simp only [Hold.shape] at hs hkey ⊢
  rw [hkey]
  exact hs

theorem appear_inv {g t : ℕ} (hm : im.managed g) (ht : (ρ none).upto = some t) (hle : t ≤ g) :
    Inv im {s with top := g+1}
      (update ρ none {ρ none with hand := g::(ρ none).hand, upto := some (g+1)}) := by
  set r' : Hold := {ρ none with hand := g::(ρ none).hand, upto := some (g+1)} with hr'
  have htop := (h.slots.booted t ht).2
  have hsame : ∀ c, r'.space c = (ρ none).space c := by
    intro c
    cases c <;> rfl
  refine ⟨Nat.succ_le_of_lt hm.2,?_,h.spaces.same rfl (space_update hsame),?_⟩
  · have hmono : Ledger.Sound (im.within (g+1)) (ledger s ρ) :=
      h.pages.mono (fun k hk => ⟨hk.1,by have := hk.2; omega⟩)
    have hnew : ∀ x, g ∉ ledger s ρ x := by
      intro x hx
      have := (h.pages.each hx).2
      omega
    refine hmono.add (v := .inr none) hnew ⟨hm.1,Nat.lt_succ_self g⟩ ?_ (fun x hx => ?_)
    · simp [ledger, hr']
    · rw [ledger_hold hsame hx]
      exact List.Sublist.refl _
  · rw [shape_set]
    exact h.slots.giveMemory (h.slots.booted t ht).1 (g+1)

end

end Reown

end Yeet.Vm
