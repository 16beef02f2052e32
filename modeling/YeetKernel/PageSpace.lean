import YeetKernel.PageAct

/-!
# Address spaces as they grow and are taken apart

A page in hand becomes a directory, a table or a frame; frames, tables and at
last the directory go back to the free list.
-/

namespace Yeet.Vm
open Yeet.Kernel Function
open StateLists (Slot)

variable {im : Image} {s : State} {ρ : Owner → Hold} {p : Owner} {r : Hold} {s' : State}

theorem Inv.hand_lt (h : Inv im s ρ) {g : ℕ} (hg : g ∈ (ρ p).hand) : g < 2^20 := by
  have h1 := (h.pages.each (x := .inr p) hg).2
  have h2 : s.top ≤ 57344 := h.top
  omega

theorem space_update_only {b : Bool} (h : ∀ c, c ≠ b → r.space c = (ρ p).space c)
    (q : Owner) (c : Bool) (hE : ¬ Only p b q c) : (update ρ p r q).space c = (ρ q).space c := by
  by_cases hq : q = p
  · subst hq
    rw [update_self, h c (fun e => hE ⟨rfl,e⟩)]
  · rw [update_of_ne hq]

theorem new_kept (hm : ∀ t j, s'.pte t j = s.pte t j)
    (hr : r.own = (ρ p).own) : Kept s s' ρ (update ρ p r) (Only p true) := by
  intro q c hE
  refine ⟨space_update_only (fun c hc => ?_) q c hE,fun _ _ _ => hm _ _,fun _ _ _ _ => hm _ _⟩
  cases c
  · exact hr
  · exact absurd rfl hc

theorem ledger_hand {g : Page} (hg : g ∈ (ρ p).hand) : g ∈ ledger s ρ (.inr p) := hg

theorem still_or_in (b : Bool) (hf : s'.freelist = s.freelist)
    (hst : ∀ q, s'.stackOf q = s.stackOf q) (hpi : s'.pipes = s.pipes) (x : Place ⊕ Owner)
    (hx : x ≠ .inr p) : Still s s' ρ (update ρ p r) (Only p b) x ∨ x = .inl (.dir p b) ∨
      (∃ i, x = .inl (.table p b i)) ∨ ∃ i j, x = .inl (.frame p b i j) := by
  rcases x with (_ | q | ⟨q,c⟩ | ⟨q,c,i⟩ | ⟨q,c,i,j⟩ | _) | q
  · exact Or.inl hf
  · exact Or.inl (hst q)
  · by_cases hE : Only p b q c
    · exact Or.inr (Or.inl (by rw [hE.1, hE.2]))
    · exact Or.inl hE
  · by_cases hE : Only p b q c
    · exact Or.inr (Or.inr (Or.inl ⟨i,by rw [hE.1, hE.2]⟩))
    · exact Or.inl hE
  · by_cases hE : Only p b q c
    · exact Or.inr (Or.inr (Or.inr ⟨i,j,by rw [hE.1, hE.2]⟩))
    · exact Or.inl hE
  · exact Or.inl hpi
  · exact Or.inl (hand_update_ne (fun e => hx (e ▸ rfl)))

def freshSpace (d : Page) : Space := ⟨d,fun _ => none,0,true⟩

theorem newDir_inv (h : Inv im s ρ) {d : Page} (hd : d ∈ (ρ p).hand)
    (hz : ∀ i, s.target d i = none) (hl : live s p = true) :
    Inv im {s with building := update s.building p (some d)}
      (update ρ p {(ρ p).drop d with new := some (freshSpace d)}) := by
  set s' : State := {s with building := update s.building p (some d)} with hs'
  set r' : Hold := {(ρ p).drop d with new := some (freshSpace d)} with hr'
  have hk : Kept s s' ρ (update ρ p r') (Only p true) := new_kept (fun _ _ => rfl) rfl
  have hspace : (update ρ p r' p).space true = some (freshSpace d) := by rw [update_self]; rfl
  refine ⟨h.top,h.moved hk (u := .inr p) (v := .inl (.dir p true)) (g := d) hd (by simp) ?_ ?_ ?_,
    h.spaces.kept hk ?_,?_⟩
  · simp [ledger, hr', Hold.drop]
  · simp only [ledger, hspace]
    simp [freshSpace]
  · intro x h1 h2
    rcases still_or_in true rfl (fun _ => rfl) rfl x h1 with hx | hx | ⟨i,rfl⟩ | ⟨i,j,rfl⟩
    · exact Or.inl hx
    · exact absurd hx h2
    · right
      simp only [ledger, hspace]
      simp [freshSpace, tabOf]
    · right
      simp only [ledger, hspace]
      simp [freshSpace, tabOf, State.frameOf]
  · rintro q c sp ⟨rfl,rfl⟩ hsp
    obtain rfl := Option.some.inj (hspace.symm.trans hsp)
    refine ⟨fun i => ?_,⟨fun _ => rfl,fun _ => rfl⟩,fun i t ht => ?_⟩
    · simp [freshSpace, show s'.target d i = none from hz i]
    · simp [freshSpace] at ht
  · rw [shape_set]
    exact h.slots.setNew hl (fun e he => by rw [← Option.some.inj he]; rfl)

theorem ledger_hold (hr : ∀ b, r.space b = (ρ p).space b) {x : Place ⊕ Owner}
    (hx : x ≠ .inr p) : ledger s (update ρ p r) x = ledger s ρ x := by
  rcases x with (_ | q | ⟨q,c⟩ | ⟨q,c,i⟩ | ⟨q,c,i,j⟩ | _) | q
  · rfl
  · rfl
  · simp only [ledger, space_update hr]
  · simp only [ledger, space_update hr]
  · simp only [ledger, space_update hr]
  · rfl
  · exact hand_update_ne (fun e => hx (e ▸ rfl))

theorem Spaces.same {ρ' : Owner → Hold} (h : Spaces s ρ) (hm : s'.mem = s.mem)
    (hs : ∀ q c, (ρ' q).space c = (ρ q).space c) : Spaces s' ρ' := by
  have hpte := pte_of_mem hm
  exact h.kept (E := Nowhere) (fun q c _ => ⟨hs q c,fun _ _ _ => hpte _ _,fun _ _ _ _ => hpte _ _⟩)
    (fun _ _ _ hE => hE.elim)

section Entry

variable {b : Bool} {i j : ℕ} {t : Page} {w : Uint}

theorem ledger_entry (ht : tabOf ((ρ p).space b) i = some t) (hi : i < NPDENTRIES/2)
    (hj : j < NPTENTRIES) : ledger s ρ (.inl (.frame p b i j)) = (s.target t j).toList := by
  simp [ledger, State.frameOf, hi, hj, ht]

theorem ledger_entry_kernel (hi : NPDENTRIES/2 ≤ i) : ledger s ρ (.inl (.frame p b i j)) = [] := by
  simp [ledger, State.frameOf, Nat.not_lt.mpr hi]

variable (h : Inv im s ρ) (ht : tabOf ((ρ p).space b) i = some t) {g : Page}
include h ht

theorem Inv.table_ne {sp : Space} (hsp : (ρ p).space b = some sp) :
    sp.root ≠ t ∧ ∀ i' t', sp.tab i' = some t' → i' ≠ i → t' ≠ t := by
  refine ⟨fun e => ?_,fun i' t' ht' hne e => ?_⟩
  · have := h.pages.unique (ledger_dir (s := s) hsp) (e ▸ ledger_table ht)
    simp at this
  subst e
  have ht2 : tabOf ((ρ p).space b) i' = some t' := by rw [hsp]; exact ht'
  have := h.pages.unique (ledger_table (s := s) ht2) (ledger_table ht)
  simp only [Sum.inl.injEq, Place.table.injEq] at this
  exact hne this.2.2

theorem setPte_kept : Kept s (s.setPte t j w) ρ ρ (Only p b) := by
  refine h.kept (fun _ _ _ => rfl) (fun t' j' hne => ⟨.inl (.table p b i),?_,rfl,rfl⟩)
  rw [pte_ne_fill hne]
  exact ledger_table ht

theorem setPte_spaces (hj : j < NPTENTRIES)
    (hw : NPDENTRIES/2 ≤ i → present w = true → userBit w = false) : Spaces (s.setPte t j w) ρ := by
  refine h.spaces.kept (setPte_kept h ht) ?_
  rintro q c sp ⟨rfl,rfl⟩ hsp
  obtain ⟨hroot,htab⟩ := h.table_ne ht hsp
  have hti : sp.tab i = some t := by rwa [hsp] at ht
  refine ⟨(h.spaces.reads _ _ sp hsp).congr (fun _ => pte_setPte_ne (Or.inl hroot) w),
    h.spaces.whole _ _ sp hsp,fun i' t' ht' hi => ?_⟩
  have hold : s.NoUser t' := h.spaces.kernel q c i' t' (by rw [hsp]; exact ht') hi
  by_cases hne : i' = i
  · subst hne
    obtain rfl : t' = t := Option.some.inj (ht'.symm.trans hti)
    intro j' hj'
    by_cases hjj : j' = j
    · subst hjj
      rw [pte_setPte hj]
      exact hw hi
    · rw [pte_setPte_ne (Or.inr hjj)]
      exact hold j' hj'
  · exact hold.congr (fun _ => pte_setPte_ne (Or.inl (htab i' t' ht' hne)) w)

theorem setPte_ledger {x : Place ⊕ Owner} (hx : x ≠ .inl (.frame p b i j)) :
    ledger (s.setPte t j w) ρ x = ledger s ρ x := by
  rcases x with (_ | q | ⟨q,c⟩ | ⟨q,c,i'⟩ | ⟨q,c,i',j'⟩ | _) | q
  · rfl
  · rfl
  · rfl
  · rfl
  · simp only [ledger]
    rw [frameOf_congr (fun t' ht' => pte_setPte_ne ?_ w)]
    by_cases htt : t' = t
    · subst htt
      have := h.pages.unique (ledger_table (s := s) ht') (ledger_table ht)
      simp only [Sum.inl.injEq, Place.table.injEq] at this
      obtain ⟨rfl,rfl,rfl⟩ := this
      exact Or.inr (fun e => hx (by rw [e]))
    · exact Or.inl htt
  · rfl
  · rfl

theorem mapFrame_inv (hi : i < NPDENTRIES/2) (hj : j < NPTENTRIES) {perm : Uint} (hp : perm < 4096)
    (hg : g ∈ (ρ p).hand) : Inv im (s.setPte t j (mkPte g perm)) (update ρ p ((ρ p).drop g)) := by
  have hsame : ∀ c, ((ρ p).drop g).space c = (ρ p).space c := Hold.space_drop _ g
  have hother : ∀ x, x ≠ .inr p → x ≠ .inl (.frame p b i j) →
      ledger (s.setPte t j (mkPte g perm)) (update ρ p ((ρ p).drop g)) x = ledger s ρ x :=
    fun x h1 h2 => (ledger_hold hsame h1).trans (setPte_ledger h ht h2)
  refine ⟨h.top,h.pages.move (u := .inr p) (v := .inl (.frame p b i j)) (g := g) hg (by simp) ?_ ?_
    (fun x h1 h2 => by rw [hother x h1 h2]),
    (setPte_spaces h ht hj (fun hk => absurd hi (Nat.not_lt.mpr hk))).same rfl (space_update hsame),
    h.slots.hold ⟨rfl,rfl,rfl,rfl,rfl,rfl,rfl,rfl,rfl⟩ rfl⟩
  · simp [ledger, Hold.drop]
  · rw [ledger_hold hsame (by simp), ledger_entry ht hi hj, ledger_entry ht hi hj]
    simp [State.target, pte_setPte hj, present_mkPte, pteAddr_mkPte (h.hand_lt hg) hp]

theorem mapKernel_inv (hi : NPDENTRIES/2 ≤ i) (hj : j < NPTENTRIES) (hw : userBit w = false) :
    Inv im (s.setPte t j w) ρ := by
  refine ⟨h.top,h.pages.sub (fun x => ?_),setPte_spaces h ht hj (fun _ _ => hw),
    h.slots.procs ⟨rfl,rfl,rfl,rfl,rfl,rfl,rfl,rfl,rfl⟩⟩
  by_cases hx : x = .inl (.frame p b i j)
  · subst hx
    rw [ledger_entry_kernel hi]
    exact List.nil_sublist _
  · rw [setPte_ledger h ht hx]

theorem restrict_inv (hj : j < NPTENTRIES) (hpr : present w = present (s.pte t j))
    (ha : pteAddr w = pteAddr (s.pte t j)) (hu : userBit w = false) :
    Inv im (s.setPte t j w) ρ := by
  refine ⟨h.top,h.pages.sub (fun x => ?_),setPte_spaces h ht hj (fun _ _ => hu),
    h.slots.procs ⟨rfl,rfl,rfl,rfl,rfl,rfl,rfl,rfl,rfl⟩⟩
  by_cases hx : x = .inl (.frame p b i j)
  · subst hx
    simp only [ledger]
    simp [State.frameOf, ht, State.target, pte_setPte hj, hpr, ha]
  · rw [setPte_ledger h ht hx]

theorem unmap_inv (hi : i < NPDENTRIES/2) (hj : j < NPTENTRIES) (hg : s.target t j = some g) :
    Inv im (s.setPte t j 0) (update ρ p {ρ p with hand := g::(ρ p).hand}) := by
  have hsame : ∀ c, ({ρ p with hand := g::(ρ p).hand} : Hold).space c = (ρ p).space c := by
    intro c
    cases c <;> rfl
  refine ⟨h.top,h.pages.move (u := .inl (.frame p b i j)) (v := .inr p) (g := g) ?_ (by simp) ?_ ?_
    (fun x h1 h2 => by rw [ledger_hold hsame h2, setPte_ledger h ht h1]),
    (setPte_spaces h ht hj (fun _ h0 => absurd h0 (by decide))).same rfl (space_update hsame),
    h.slots.hold ⟨rfl,rfl,rfl,rfl,rfl,rfl,rfl,rfl,rfl⟩ rfl⟩
  · simp [ledger_entry ht hi hj, hg]
  · have h0 : (s.setPte t j 0).target t j = none := by
      simp only [State.target, pte_setPte hj]
      rfl
    rw [ledger_hold hsame (by simp), ledger_entry ht hi hj, h0]
    exact List.nil_sublist _
  · simp [ledger]

end Entry

section Tables

variable {b : Bool} {i : ℕ} {sp : Space}

def Space.setTab (sp : Space) (i : ℕ) (o : Option Page) : Space :=
  {sp with tab := update sp.tab i o}

theorem addTable_inv (h : Inv im s ρ) (hsp : (ρ p).space b = some sp) (hw : sp.whole = true)
    (hi : i < NPDENTRIES) {g : Page} (hg : g ∈ (ρ p).hand) (hz : ∀ j, s.pte g j = 0) :
    Inv im (s.setPte sp.root i (mkPte g (PTE_W ||| PTE_U)))
      (update ρ p (((ρ p).drop g).setSpace (some (sp.setTab i (some g))) b)) := by
  set s' := s.setPte sp.root i (mkPte g (PTE_W ||| PTE_U)) with hs'
  set r' := ((ρ p).drop g).setSpace (some (sp.setTab i (some g))) b with hr'
  have hroot : g ≠ sp.root := by
    intro e
    have := h.pages.unique (ledger_dir (s := s) hsp) (e ▸ ledger_hand hg)
    simp at this
  have htab : ∀ i' t, sp.tab i' = some t → t ≠ sp.root := fun i' t ht e =>
    (h.table_ne (show tabOf ((ρ p).space b) i' = some t by rw [hsp]; exact ht) hsp).1 e.symm
  have hk : Kept s s' ρ (update ρ p r') (Only p b) := by
    refine h.kept (space_update_only (fun c hc => ?_)) (fun t j hne => ?_)
    · rw [hr', Hold.space_setSpace_ne _ _ hc, Hold.space_drop]
    · exact ⟨.inl (.dir p b),pte_ne_fill hne ▸ ledger_dir hsp,rfl,rfl⟩
  have hspace : (update ρ p r' p).space b = some (sp.setTab i (some g)) := by
    rw [update_self, hr', Hold.space_setSpace]
  have hlow := (h.spaces.whole p b sp hsp).2 hw
  refine ⟨h.top,h.moved hk (u := .inr p) (v := .inl (.table p b i)) (g := g) hg (by simp) ?_ ?_ ?_,
    h.spaces.kept hk ?_,h.slots.hold ⟨rfl,rfl,rfl,rfl,rfl,rfl,rfl,rfl,rfl⟩ ?_⟩
  · simp [ledger, hr', Hold.drop]
  · simp only [ledger, hspace]
    simp [tabOf, Space.setTab]
  · intro x h1 h2
    rcases still_or_in b rfl (fun _ => rfl) rfl x h1 with hx | rfl | ⟨i',rfl⟩ | ⟨i',j',rfl⟩
    · exact Or.inl hx
    · right
      simp only [ledger, hspace, hsp]
      simp [Space.setTab]
    · right
      have hne : i' ≠ i := fun e => h2 (by rw [e])
      simp only [ledger, hspace, hsp]
      simp [tabOf, Space.setTab, update_of_ne hne]
    right
    by_cases hne : i' = i
    · subst hne
      have h0 : s'.target g j' = none := by
        rw [State.target, hs', pte_setPte_ne (Or.inl hroot), hz]
        rfl
      simp only [ledger, hspace]
      simp [tabOf, Space.setTab, State.frameOf, h0]
    · simp only [ledger, hspace, hsp, tabOf, Option.bind_some, Space.setTab, update_of_ne hne]
      rw [frameOf_congr (fun t ht => pte_setPte_ne (Or.inl (htab i' t ht)) _)]
  · rintro q c sp' ⟨rfl,rfl⟩ hsp'
    obtain rfl := Option.some.inj (hspace.symm.trans hsp')
    refine ⟨fun i' => ?_,⟨fun _ => hw,fun _ => hlow⟩,fun i' t ht hi' => ?_⟩
    · by_cases hne : i' = i
      · subst hne
        simp only [Space.setTab, update_self, hlow, Nat.zero_le, hi, and_self, if_true]
        rw [State.target, hs', pte_setPte hi, present_mkPte, if_pos rfl,
          pteAddr_mkPte (h.hand_lt hg) (by decide)]
      · simp only [Space.setTab, update_of_ne hne, h.spaces.reads q c sp hsp i',
          target_congr (pte_setPte_ne (s := s) (Or.inr hne) _), hs']
    by_cases hne : i' = i
    · subst hne
      simp only [Space.setTab, update_self, Option.some.injEq] at ht
      subst ht
      intro j _ hpr
      rw [hs', pte_setPte_ne (Or.inl hroot), hz] at hpr
      exact absurd hpr (by decide)
    · simp only [Space.setTab, update_of_ne hne] at ht
      refine (h.spaces.kernel q c i' t (by rw [hsp]; exact ht) hi').congr (fun j => ?_)
      exact pte_setPte_ne (Or.inl (htab i' t ht)) _
  · cases b <;> simp_all [Hold.shape, Hold.setSpace, Hold.drop, Hold.space, Space.setTab, Space.key]

def Space.behead (sp : Space) : Space :=
  {sp with tab := update sp.tab sp.low none, low := sp.low+1}

theorem Space.Reads.behead (h : sp.Reads s) : sp.behead.Reads s := by
  intro i
  have hlow : sp.behead.low = sp.low+1 := rfl
  by_cases hi : i = sp.low
  · subst hi
    rw [if_neg (by rw [hlow]; omega)]
    exact update_self ..
  have hiff : (sp.behead.low ≤ i ∧ i < NPDENTRIES) ↔ (sp.low ≤ i ∧ i < NPDENTRIES) := by
    rw [hlow]
    omega
  rw [show sp.behead.tab i = sp.tab i from update_of_ne hi _ _, h i]
  simp only [hiff]
  rfl

theorem takeTable_inv (h : Inv im s ρ) (hsp : (ρ p).new = some sp) (hw : sp.whole = false)
    {t : Page} (ht : sp.tab sp.low = some t) :
    Inv im s (update ρ p {ρ p with hand := t::(ρ p).hand, new := some sp.behead}) := by
  set r' : Hold := {ρ p with hand := t::(ρ p).hand, new := some sp.behead} with hr'
  have hk : Kept s s ρ (update ρ p r') (Only p true) := new_kept (fun _ _ => rfl) rfl
  have hspace : (update ρ p r' p).space true = some sp.behead := by rw [update_self]; rfl
  have hold : (ρ p).space true = some sp := hsp
  have htab : tabOf ((ρ p).space true) sp.low = some t := by rw [hold]; exact ht
  refine ⟨h.top,h.moved hk (u := .inl (.table p true sp.low)) (v := .inr p) (g := t)
    (ledger_table htab) (by simp) ?_ ?_ ?_,h.spaces.kept hk ?_,
    h.slots.hold ⟨rfl,rfl,rfl,rfl,rfl,rfl,rfl,rfl,rfl⟩ ?_⟩
  · simp only [ledger, hspace]
    simp [tabOf, Space.behead]
  · simp [ledger, hr']
  · intro x h1 h2
    rcases still_or_in true rfl (fun _ => rfl) rfl x h2 with hx | rfl | ⟨i',rfl⟩ | ⟨i',j',rfl⟩
    · exact Or.inl hx
    · right
      simp only [ledger, hspace, hold]
      simp [Space.behead]
    · right
      have hne : i' ≠ sp.low := fun e => h1 (by rw [e])
      simp only [ledger, hspace, hold]
      simp [tabOf, Space.behead, update_of_ne hne]
    right
    by_cases hne : i' = sp.low
    · subst hne
      simp only [ledger, hspace]
      simp [tabOf, Space.behead, State.frameOf]
    · simp only [ledger, hspace, hold]
      simp [tabOf, Space.behead, update_of_ne hne]
  · rintro q c sp' ⟨rfl,rfl⟩ hsp'
    obtain rfl := Option.some.inj (hspace.symm.trans hsp')
    refine ⟨(h.spaces.reads _ _ sp hold).behead,⟨fun e => (by cases e),fun hx => ?_⟩,
      fun i' t' ht' hi' => ?_⟩
    · rw [show sp.behead.whole = sp.whole from rfl, hw] at hx
      cases hx
    by_cases hne : i' = sp.low
    · subst hne
      simp [Space.behead] at ht'
    · simp only [Space.behead, update_of_ne hne] at ht'
      exact h.spaces.kernel q true i' t' (by rw [hold]; exact ht') hi'
  · simp [Hold.shape, hr', hsp, Space.key, Space.behead]

theorem renew_inv (h : Inv im s ρ) (hsp : (ρ p).new = some sp) {sp' : Space} {s' : State}
    (hroot : sp'.root = sp.root) (htab : sp'.tab = sp.tab) (hreads : sp'.Reads s')
    (hwhole : sp'.whole = true → sp'.low = 0) (hm : SameMemory s s')
    (hslots : Slots s' (fun q => (update ρ p {ρ p with new := some sp'} q).shape)) :
    Inv im s' (update ρ p {ρ p with new := some sp'}) := by
  have hk : Kept s s' ρ (update ρ p {ρ p with new := some sp'}) (Only p true) :=
    new_kept (pte_of_mem hm.mem) rfl
  have hspace : (update ρ p {ρ p with new := some sp'} p).space true = some sp' := by
    rw [update_self]
    rfl
  have hold : (ρ p).space true = some sp := hsp
  refine ⟨hm.top ▸ h.top,hm.top ▸ h.pages.sub (fun x => ?_),h.spaces.kept hk ?_,hslots⟩
  · by_cases hx : x = .inr p
    · subst hx
      simp [ledger]
    rcases still_or_in true hm.freelist hm.stackOf hm.pipes x hx with hx | rfl | ⟨i,rfl⟩ | ⟨i,j,rfl⟩
    · rw [ledger_still hk hx]
    · simp only [ledger, hspace, hold, Option.map_some, hroot]
      rfl
    · simp only [ledger, hspace, hold, tabOf, Option.bind_some, htab]
      rfl
    · simp only [ledger, hspace, hold, tabOf, Option.bind_some, htab]
      rw [frameOf_congr (fun t _ => pte_of_mem hm.mem t j)]
  · rintro q c sp₁ ⟨rfl,rfl⟩ hsp₁
    obtain rfl := Option.some.inj (hspace.symm.trans hsp₁)
    refine ⟨hreads,⟨fun e => (by cases e),hwhole⟩,fun i t ht hi => ?_⟩
    rw [htab] at ht
    exact (h.spaces.kernel q true i t (by rw [hold]; exact ht) hi).congr (pte_of_mem hm.mem t)

theorem skipTable_inv (h : Inv im s ρ) (hsp : (ρ p).new = some sp) (hw : sp.whole = false)
    (ht : sp.tab sp.low = none) : Inv im s (update ρ p {ρ p with new := some sp.behead}) := by
  refine renew_inv h hsp rfl ?_ (h.spaces.reads p true sp hsp).behead (fun hx => ?_)
    ⟨rfl,rfl,fun _ => rfl,rfl,rfl⟩ (h.slots.hold ⟨rfl,rfl,rfl,rfl,rfl,rfl,rfl,rfl,rfl⟩ ?_)
  · rw [Space.behead, ← ht, update_eq_self]
  · rw [show sp.behead.whole = sp.whole from rfl, hw] at hx
    cases hx
  · simp [Hold.shape, hsp, Space.key, Space.behead]

theorem forget_inv (h : Inv im s ρ) (hsp : (ρ p).new = some sp) (hl : live s p = true) :
    Inv im {s with building := update s.building p none}
      (update ρ p {ρ p with new := some {sp with whole := false}}) := by
  refine renew_inv h hsp rfl rfl (h.spaces.reads p true sp hsp) (fun hx => ?_)
    ⟨rfl,rfl,fun _ => rfl,rfl,rfl⟩ ?_
  · cases hx
  · rw [shape_set]
    exact h.slots.setNew hl (fun d hd => by cases hd)

theorem takeDir_inv (h : Inv im s ρ) (hsp : (ρ p).new = some sp) (hw : sp.whole = false)
    (hl : live s p = true) :
    Inv im s (update ρ p {ρ p with hand := sp.root::(ρ p).hand, new := none}) := by
  set r' : Hold := {ρ p with hand := sp.root::(ρ p).hand, new := none} with hr'
  have hk : Kept s s ρ (update ρ p r') (Only p true) := new_kept (fun _ _ => rfl) rfl
  have hspace : (update ρ p r' p).space true = none := by rw [update_self]; rfl
  have hold : (ρ p).space true = some sp := hsp
  refine ⟨h.top,h.moved hk (u := .inl (.dir p true)) (v := .inr p) (g := sp.root)
    (ledger_dir hold) (by simp) ?_ ?_ ?_,h.spaces.kept hk ?_,?_⟩
  · simp only [ledger, hspace]
    exact List.nil_sublist _
  · simp [ledger, hr']
  · intro x h1 h2
    rcases still_or_in true rfl (fun _ => rfl) rfl x h2 with hx | hx | ⟨i,rfl⟩ | ⟨i,j,rfl⟩
    · exact Or.inl hx
    · exact absurd hx h1
    · right
      simp only [ledger, hspace]
      exact List.nil_sublist _
    · right
      simp only [ledger, hspace]
      simp [tabOf, State.frameOf]
  · rintro q c sp' ⟨rfl,rfl⟩ hsp'
    rw [hspace] at hsp'
    cases hsp'
  rw [shape_set]
  have hb : s.building p = none := by
    cases hb : s.building p with
    | none => rfl
    | some d =>
      have := h.slots.building p d hb
      simp [Hold.shape, hsp, Space.key, hw] at this
  have := h.slots.setNew hl (o := s.building p) (k := none) (fun d hd => by rw [hb] at hd; cases hd)
  rwa [update_eq_self] at this

end Tables

end Yeet.Vm
