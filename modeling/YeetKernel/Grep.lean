import YeetKernel.Bytes

/-!
# grep

The matcher of grep against a meaning of patterns: a pattern is a list of items, each
of which says what it takes from the text.
-/

namespace Yeet.Grep
open Bytes

def fits (c t : Byte) : Bool := c == 46 || t == c

/-- `here` is `matchhere` with the rest of the pattern. -/
def matchstar (c : Byte) (here : List Byte → Bool) : List Byte → Bool
  | [] => here []
  | t::text => here (t::text) || (fits c t && matchstar c here text)

def matchhere : List Byte → List Byte → Bool
  | [], _ => true
  | [c], text =>
    if c = 36 then text.isEmpty
    else match text with
      | [] => false
      | t::_ => fits c t
  | c::d::re, text =>
    if d = 42 then matchstar c (matchhere re) text
    else match text with
      | [] => false
      | t::text => fits c t && matchhere (d::re) text

def matchFrom (re : List Byte) : List Byte → Bool
  | [] => matchhere re []
  | t::text => matchhere re (t::text) || matchFrom re text

def matchRe (re text : List Byte) : Bool :=
  match re with
  | 94::re => matchhere re text
  | re => matchFrom re text

inductive Item where
  | one (c : Byte)
  | star (c : Byte)
  | last

/-- A character before `*` is repeated, a `$` at the end is the end of the text, and any other
character is itself. -/
def items : List Byte → List Item
  | [] => []
  | [c] => [if c = 36 then .last else .one c]
  | c::d::re => if d = 42 then .star c::items re else .one c::items (d::re)

def Allows (c t : Byte) : Prop := c = 46 ∨ t = c

def Item.Takes : Item → List Byte → List Byte → Prop
  | .one c, u, _ => ∃ t, u = [t] ∧ Allows c t
  | .star c, u, _ => ∀ t ∈ u, Allows c t
  | .last, u, v => u = [] ∧ v = []

def Matches : List Item → List Byte → List Byte → Prop
  | [], u, _ => u = []
  | i::is, u, v => ∃ u₁ u₂, u = u₁++u₂ ∧ i.Takes u₁ (u₂++v) ∧ Matches is u₂ v

def Fronts (is : List Item) (text : List Byte) : Prop := ∃ u v, text = u++v ∧ Matches is u v

theorem fits_iff (c t : Byte) : fits c t = true ↔ Allows c t := by
  simp [fits, Allows]

theorem fronts_cons (i : Item) (is : List Item) (text : List Byte) :
    Fronts (i::is) text ↔ ∃ u v, text = u++v ∧ i.Takes u v ∧ Fronts is v := by
  constructor
  · rintro ⟨u,v,rfl,u₁,u₂,rfl,hi,hm⟩
    exact ⟨u₁,u₂++v,List.append_assoc .., hi,u₂,v,rfl,hm⟩
  · rintro ⟨u,v,rfl,hi,u₂,v₂,rfl,hm⟩
    exact ⟨u++u₂,v₂,(List.append_assoc ..).symm,u,u₂,rfl,hi,hm⟩

theorem fronts_one (c : Byte) (is : List Item) (text : List Byte) :
    Fronts (.one c::is) text ↔ ∃ t v, text = t::v ∧ Allows c t ∧ Fronts is v := by
  rw [fronts_cons]
  constructor
  · rintro ⟨u,v,rfl,⟨t,rfl,ht⟩,hm⟩
    exact ⟨t,v,rfl,ht,hm⟩
  · rintro ⟨t,v,rfl,ht,hm⟩
    exact ⟨[t],v,rfl,⟨t,rfl,ht⟩,hm⟩

theorem fronts_last (text : List Byte) : Fronts [.last] text ↔ text = [] := by
  rw [fronts_cons]
  constructor
  · rintro ⟨u,v,rfl,⟨rfl,rfl⟩,-⟩
    rfl
  · rintro rfl
    exact ⟨[],[],rfl,⟨rfl,rfl⟩,[],[],rfl,rfl⟩

theorem matchstar_iff (c : Byte) (here : List Byte → Bool) (text : List Byte) :
    matchstar c here text = true ↔ ∃ u v, text = u++v ∧ (∀ t ∈ u, Allows c t) ∧ here v = true := by
  induction text with
  | nil =>
    constructor
    · intro h
      exact ⟨[],[],rfl,by simp,h⟩
    · rintro ⟨u,v,he,-,h⟩
      obtain ⟨-,rfl⟩ := List.append_eq_nil_iff.mp he.symm
      exact h
  | cons t text ih =>
    rw [matchstar, Bool.or_eq_true, Bool.and_eq_true, fits_iff, ih]
    constructor
    · rintro (h | ⟨ht,u,v,rfl,hu,h⟩)
      · exact ⟨[],t::text,rfl,by simp,h⟩
      · exact ⟨t::u,v,rfl,by simpa using ⟨ht,hu⟩,h⟩
    rintro ⟨u,v,he,hu,h⟩
    cases u with
    | nil =>
      rw [he]
      exact Or.inl h
    | cons x u =>
      obtain ⟨rfl,rfl⟩ := List.cons.inj he
      exact Or.inr ⟨hu _ List.mem_cons_self,u,v,rfl,fun s hs => hu s (List.mem_cons_of_mem _ hs),h⟩

theorem matchhere_iff (re text : List Byte) : matchhere re text = true ↔ Fronts (items re) text := by
  induction re using List.twoStepInduction generalizing text with
  | nil =>
    rw [matchhere]
    exact ⟨fun _ => ⟨[],text,rfl,rfl⟩,fun _ => rfl⟩
  | singleton c =>
    by_cases hc : c = 36
    · simp [matchhere, items, hc, fronts_last]
    rw [items, if_neg hc, fronts_one]
    cases text with
    | nil =>
      rw [matchhere, if_neg hc]
      simp
    | cons t text =>
      rw [matchhere, if_neg hc, fits_iff]
      constructor
      · intro h
        exact ⟨t,text,rfl,h,[],text,rfl,rfl⟩
      · rintro ⟨t',v,he,h,-⟩
        rwa [(List.cons.inj he).1]
  | cons_cons c d re ih ih' =>
    by_cases hd : d = 42
    · rw [items, if_pos hd, fronts_cons]
      rw [show matchhere (c::d::re) text = matchstar c (matchhere re) text from if_pos hd, matchstar_iff]
      constructor
      · rintro ⟨u,v,he,hu,h⟩
        exact ⟨u,v,he,hu,(ih v).mp h⟩
      · rintro ⟨u,v,he,hu,h⟩
        exact ⟨u,v,he,hu,(ih v).mpr h⟩
    rw [items, if_neg hd, fronts_one]
    cases text with
    | nil =>
      rw [matchhere, if_neg hd]
      simp
    | cons t text =>
      rw [matchhere, if_neg hd, Bool.and_eq_true, fits_iff, ih' d]
      constructor
      · rintro ⟨ht,h⟩
        exact ⟨t,text,rfl,ht,h⟩
      · rintro ⟨t',v,he,ht,h⟩
        obtain ⟨rfl,rfl⟩ := List.cons.inj he
        exact ⟨ht,h⟩

theorem matchFrom_iff (re text : List Byte) :
    matchFrom re text = true ↔ ∃ w v, text = w++v ∧ Fronts (items re) v := by
  induction text with
  | nil =>
    rw [matchFrom, matchhere_iff]
    constructor
    · intro h
      exact ⟨[],[],rfl,h⟩
    · rintro ⟨w,v,he,h⟩
      obtain ⟨-,rfl⟩ := List.append_eq_nil_iff.mp he.symm
      exact h
  | cons t text ih =>
    rw [matchFrom, Bool.or_eq_true, matchhere_iff, ih]
    constructor
    · rintro (h | ⟨w,v,rfl,h⟩)
      · exact ⟨[],t::text,rfl,h⟩
      · exact ⟨t::w,v,rfl,h⟩
    rintro ⟨w,v,he,h⟩
    cases w with
    | nil =>
      rw [he]
      exact Or.inl h
    | cons x w => exact Or.inr ⟨w,v,(List.cons.inj he).2,h⟩

def anchored : List Byte → Bool × List Byte
  | 94::re => (true,re)
  | re => (false,re)

/-- `match` finds what the pattern means: a part of the text, at its front if anchored. -/
theorem match_iff (re text : List Byte) :
    matchRe re text = true ↔ ∃ w u v, text = w++u++v ∧ ((anchored re).1 = true → w = []) ∧
      Matches (items (anchored re).2) u v := by
  unfold matchRe anchored
  split
  · rw [matchhere_iff]
    constructor
    · rintro ⟨u,v,rfl,h⟩
      exact ⟨[],u,v,rfl,fun _ => rfl,h⟩
    · rintro ⟨w,u,v,rfl,hw,h⟩
      rw [hw rfl]
      exact ⟨u,v,rfl,h⟩
  · rw [matchFrom_iff]
    constructor
    · rintro ⟨w,-,rfl,u,v,rfl,h⟩
      exact ⟨w,u,v,(List.append_assoc ..).symm,by simp,h⟩
    · rintro ⟨w,u,v,rfl,-,h⟩
      exact ⟨w,u++v,List.append_assoc ..,u,v,rfl,h⟩

end Yeet.Grep
