import YeetKernel.Release

/-!
# Copying to user memory

`uva2ka` and `copyout` of `vm.c`. The first page that user code could not
write decides what happens: if its table is there `copyout` returns -1, and if
its table is missing `uva2ka` reads through the null pointer that `walkpgdir`
returned.
-/

namespace Yeet.Vm
open Yeet.Kernel Bytes Resumption NewSpace Function

/-- The frame of `uva2ka`'s result. The source does not check the result of
`walkpgdir`; `checked` stands for a version that does. `p2v` of the physical
address 2^31 is the null pointer. -/
def uva2ka (checked : Bool) (pgdir : Page) (uva : ℕ) : VmProg (Option Page) := do
  match ← walkpgdir pgdir uva false with
  | none => if checked then return none else fail .nullDeref
  | some r =>
    let pte ← readPte r
    if !present pte then return none
    else if !userBit pte then return none
    else if (pteAddr pte*PGSIZE+KERNBASE)%2^32 = 0 then return none
    else return some (pteAddr pte)

def memmove (g : Page) (o : ℕ) (l : List Byte) : VmProg Unit := assign (fun s =>
  s.fill g (putBytes (s.mem g) o l))

/-- The loop of `copyout`; the first argument bounds the number of rounds. -/
def copyoutLoop (checked : Bool) (pgdir : Page) : ℕ → ℕ → List Byte → VmProg ℤ
  | 0, _, _ => pure 0
  | fuel+1, va, buf =>
    if buf.length > 0 then do
      let va0 := va/PGSIZE*PGSIZE
      match ← uva2ka checked pgdir va0 with
      | none => return -1
      | some pa0 =>
        let n := min (PGSIZE-(va-va0)) buf.length
        memmove pa0 (va-va0) (buf.take n)
        copyoutLoop checked pgdir fuel ((va0+PGSIZE)%2^32) (buf.drop n)
    else return 0

def copyout (checked : Bool) (pgdir : Page) (va : Uint) (p : List Byte) : VmProg ℤ :=
  copyoutLoop checked pgdir p.length va.toNat p

def pageOf (a : ℕ) : ℕ := a%2^32/PGSIZE

def userFrame (w : Uint) : Option Page := if present w && userBit w then some (pteAddr w) else none

def State.user (s : State) (d : Page) (v : ℕ) : Option Page := (s.lookup d v).bind userFrame

variable {im : Image} {d g t : Page} {s s₁ s₂ : State} {l m buf : List Byte} {a b : ℕ}
  {checked : Bool} {va : ℕ} {p : List Byte}

/-- The frames that user code can write are memory of the allocator, mapped
once each, and neither the directory nor one of its tables. -/
structure UserPages (im : Image) (d : Page) (s : State) : Prop where
  managed : ∀ v g, s.user d v = some g → im.managed g
  dir : ∀ v g, s.user d v = some g → g ≠ d
  table : ∀ v g, s.user d v = some g → ∀ i, s.target d i ≠ some g
  frames : ∀ v w g, s.user d v = some g → s.user d w = some g → v = w

structure Wrote (d : Page) (a : ℕ) (l : List Byte) (s s' : State) : Prop where
  inside : ∀ (k : ℕ) x g, l[k]? = some x → s.user d (pageOf (a+k)) = some g →
    byteAt (s'.mem g) ((a+k)%PGSIZE) = x
  outside : ∀ g o, (∀ k < l.length, s.user d (pageOf (a+k)) = some g → (a+k)%PGSIZE ≠ o) →
    byteAt (s'.mem g) o = byteAt (s.mem g) o
  rest : s' = {s with mem := s'.mem}

theorem block_ext {n : ℕ} {x y : Block n} (h : ∀ o, byteAt x o = byteAt y o) : x = y := by
  ext1 i
  have hi := h i
  rw [byteAt, byteAt, dif_pos i.isLt, dif_pos i.isLt] at hi
  exact hi

theorem user_congr {s' : State} (h : s'.lookup d = s.lookup d) : s'.user d = s.user d := by
  ext1 v
  rw [State.user, State.user, h]

namespace Wrote

theorem nothing (d : Page) (a : ℕ) (s : State) : Wrote d a [] s s where
  inside k x g hx := by simp at hx
  outside _ _ _ := rfl
  rest := rfl

section

variable (h : Wrote d a l s s₁)
include h

theorem mem_eq (hg : ∀ k < l.length, s.user d (pageOf (a+k)) ≠ some g) : s₁.mem g = s.mem g :=
  block_ext (fun o => h.outside g o (fun k hk e => absurd e (hg k hk)))

theorem lookup_eq (hs : UserPages im d s) :
    s₁.target d = s.target d ∧ s₁.lookup d = s.lookup d := by
  have hd : s₁.mem d = s.mem d := h.mem_eq (fun k _ e => hs.dir _ d e rfl)
  have ht : s₁.target d = s.target d := by
    ext1 i
    apply target_congr
    rw [State.pte, State.pte, hd]
  refine ⟨ht,?_⟩
  ext1 v
  rw [State.lookup, State.lookup, ht]
  apply Option.map_congr
  intro t htv
  have hm : s₁.mem t = s.mem t := h.mem_eq (fun k _ e => hs.table _ t e _ htv)
  rw [State.pte, State.pte, hm]

theorem userPages (hs : UserPages im d s) : UserPages im d s₁ := by
  obtain ⟨ht,hl⟩ := h.lookup_eq hs
  have hu := user_congr hl
  refine ⟨fun v g => ?_,fun v g => ?_,fun v g => ?_,fun v w g => ?_⟩
  · rw [hu]
    exact hs.managed v g
  · rw [hu]
    exact hs.dir v g
  · rw [hu, ht]
    exact hs.table v g
  · rw [hu]
    exact hs.frames v w g

theorem congr (he : ∀ k, (a+k)%2^32 = (b+k)%2^32) : Wrote d b l s s₁ := by
  have hp : ∀ k, pageOf (b+k) = pageOf (a+k) := fun k => by rw [pageOf, pageOf, he]
  have ho : ∀ k, (b+k)%PGSIZE = (a+k)%PGSIZE := by
    intro k
    have := he k
    simp only [PGSIZE]
    omega
  refine ⟨fun k x g hx hg => ?_,fun g o hg => h.outside g o (fun k hk => ?_),h.rest⟩
  · rw [ho]
    rw [hp] at hg
    exact h.inside k x g hx hg
  · rw [← ho, ← hp]
    exact hg k hk

theorem append (h' : Wrote d (a+l.length) m s₁ s₂) (hs : UserPages im d s)
    (hlen : l.length+m.length < 2^32) : Wrote d a (l++m) s s₂ := by
  have hu := user_congr (h.lookup_eq hs).2
  have hadd : ∀ k, a+l.length+k = a+(l.length+k) := fun k => Nat.add_assoc _ _ _
  refine ⟨fun k x g hx hg => ?_,fun g o hg => ?_,?_⟩
  · by_cases hk : k < l.length
    · rw [List.getElem?_append_left hk] at hx
      rw [← h.inside k x g hx hg]
      refine h'.outside g _ (fun j hj hgj e => ?_)
      rw [hu] at hgj
      have hpage := hs.frames _ _ g hgj hg
      simp only [pageOf, PGSIZE] at hpage e
      omega
    · rw [List.getElem?_append_right (by omega)] at hx
      have hk' : l.length+(k-l.length) = k := by omega
      have hin := h'.inside (k-l.length) x g hx (by rw [hadd, hk', hu]; exact hg)
      rw [hadd, hk'] at hin
      exact hin
  · rw [h'.outside g o (fun k hk hgk => ?_), h.outside g o (fun k hk hgk => ?_)]
    · exact hg k (by rw [List.length_append]; omega) hgk
    · rw [hadd]
      rw [hadd, hu] at hgk
      exact hg (l.length+k) (by rw [List.length_append]; omega) hgk
  · rw [h'.rest, h.rest]

end

end Wrote

theorem wrote_chunk (ha : a < 2^32) (hg : s.user d (pageOf a) = some g)
    (hl : a%PGSIZE+l.length ≤ PGSIZE) :
    Wrote d a l s (s.fill g (putBytes (s.mem g) (a%PGSIZE) l)) := by
  have hpage : ∀ k < l.length, pageOf (a+k) = pageOf a ∧ (a+k)%PGSIZE = a%PGSIZE+k := by
    intro k hk
    simp only [pageOf, PGSIZE] at *
    omega
  refine ⟨fun k x y hx hy => ?_,fun y o hy => ?_,rfl⟩
  · obtain ⟨hk,hx⟩ := List.getElem?_eq_some_iff.mp hx
    obtain ⟨hp,ho⟩ := hpage k hk
    rw [hp, hg] at hy
    obtain rfl : g = y := Option.some.inj hy
    rw [ho, State.fill]
    dsimp only
    rw [update_self, byteAt_putBytes_in _ hl hk, List.getD_eq_getElem?_getD,
      List.getElem?_eq_getElem hk, hx]
    rfl
  rw [State.fill]
  dsimp only
  by_cases e : y = g
  · subst e
    rw [update_self]
    apply byteAt_putBytes_out
    by_contra hc
    have hk : o-a%PGSIZE < l.length := by omega
    obtain ⟨hp,ho⟩ := hpage _ hk
    exact hy _ hk (by rw [hp]; exact hg) (by rw [ho]; omega)
  · rw [update_of_ne e]

theorem p2v_ne_zero {x : ℕ} (h : im.managed x) : (x*PGSIZE+KERNBASE)%2^32 ≠ 0 := by
  have hlt : x < 57344 := h.2
  simp only [PGSIZE, KERNBASE]
  omega

theorem walk_page (h : va < 2^32) : pdx (va/PGSIZE*PGSIZE) = pageOf va/NPTENTRIES ∧
    ptx (va/PGSIZE*PGSIZE) = pageOf va%NPTENTRIES := by
  simp only [pdx, ptx, pageOf, PGSIZE, NPTENTRIES, NPDENTRIES]
  omega

theorem uva2ka_ends (hs : UserPages im d s) (hva : va < 2^32)
    {Q : Outcome State Fault (Option Page) → Prop}
    (hQ : Q (if s.lookup d (pageOf va) = none ∧ checked = false then some (.error .nullDeref)
      else some (.ok (s.user d (pageOf va),s)))) :
    Ends (uva2ka checked d (va/PGSIZE*PGSIZE)) Q s := by
  obtain ⟨hpd,hpt⟩ := walk_page hva
  unfold uva2ka
  apply ends_after
  apply returns_mono (walk_returns d _)
  rintro r s' ⟨rfl,rfl⟩
  rw [hpd, hpt]
  cases ht : s'.target d (pageOf va/NPTENTRIES) with
  | none =>
    have hlook := lookup_none.mpr ht
    rw [State.user, hlook] at hQ
    cases checked with
    | false => exact hQ
    | true => exact hQ
  | some t =>
    have hlook := lookup_some ht
    rw [hlook, if_neg (by simp)] at hQ
    have hman := hs.managed (pageOf va)
    simp only [Option.map_some]
    apply ends_after
    apply returns_fetch
    rw [State.user, hlook, Option.bind_some, userFrame] at hQ hman
    by_cases hp : present (s'.pte t (pageOf va%NPTENTRIES)) = true
    swap
    · simp only [Bool.not_eq_true] at hp
      simp only [hp, Bool.false_and, Bool.false_eq_true, if_false, Bool.not_false, if_true] at hQ ⊢
      exact hQ
    by_cases hu : userBit (s'.pte t (pageOf va%NPTENTRIES)) = true
    swap
    · simp only [Bool.not_eq_true] at hu
      simp only [hp, hu, Bool.and_false, Bool.false_eq_true, if_false, Bool.not_false, if_true,
        Bool.not_true] at hQ ⊢
      exact hQ
    simp only [hp, hu, Bool.and_true, if_true, Bool.not_true, Bool.false_eq_true, if_false]
      at hQ hman ⊢
    rw [if_neg (p2v_ne_zero (hman _ rfl))]
    exact hQ

theorem take_then_take {n k : ℕ} (h : n ≤ k) :
    buf.take n++(buf.drop n).take (k-n) = buf.take k := by
  have e : k = n+(k-n) := by omega
  conv_rhs => rw [e, List.take_add]

def Open (s : State) (d : Page) (a k : ℕ) : Prop := ∀ j < k, s.user d (pageOf (a+j)) ≠ none

theorem copyoutLoop_ends {Q : Outcome State Fault ℤ → Prop} {fuel va k : ℕ}
    (hs : UserPages im d s) (hva : va < 2^32) (hfuel : buf.length ≤ fuel) (hlen : buf.length < 2^32)
    (hk : k ≤ buf.length) (hopen : Open s d va k)
    (hend : k = buf.length → ∀ s', Wrote d va buf s s' → Q (some (.ok (0,s'))))
    (hstop : k < buf.length → s.user d (pageOf (va+k)) = none)
    (hquit : k < buf.length → ∀ s', Wrote d va (buf.take k) s s' →
      Q (if s.lookup d (pageOf (va+k)) = none ∧ checked = false then some (.error .nullDeref)
        else some (.ok (-1,s')))) :
    Ends (copyoutLoop checked d fuel va buf) Q s := by
  induction fuel generalizing va buf s k with
  | zero =>
    obtain rfl : buf = [] := List.length_eq_zero_iff.mp (by omega)
    exact hend (by simpa using hk) s (Wrote.nothing d va s)
  | succ fuel ih =>
    unfold copyoutLoop
    split
    swap
    · obtain rfl : buf = [] := List.length_eq_zero_iff.mp (by omega)
      exact hend (by simpa using hk) s (Wrote.nothing d va s)
    rename_i hpos
    apply ends_bind
    apply uva2ka_ends hs hva
    by_cases hk0 : k = 0
    · -- the page of `va` is the one that stops the loop
      subst hk0
      have hq := hquit hpos s (by simpa using Wrote.nothing d va s)
      have hu := hstop hpos
      rw [Nat.add_zero] at hq hu
      rw [hu]
      split
      · rename_i hc
        rw [if_pos hc] at hq
        exact hq
      · rename_i hc
        rw [if_neg hc] at hq
        exact hq
    obtain ⟨g,hg⟩ := Option.ne_none_iff_exists'.mp (hopen 0 (by omega))
    rw [Nat.add_zero] at hg
    have hlook : s.lookup d (pageOf va) ≠ none := by
      intro e
      rw [State.user, e] at hg
      cases hg
    rw [if_neg (fun hc => hlook hc.1), hg]
    have hoff : va-va/PGSIZE*PGSIZE = va%PGSIZE := by
      simp only [PGSIZE]
      omega
    simp only [Then, hoff]
    generalize hn : min (PGSIZE-va%PGSIZE) buf.length = n
    have hn0 : 0 < n ∧ n ≤ buf.length ∧ va%PGSIZE+n ≤ PGSIZE := by
      simp only [PGSIZE] at *
      omega
    have htake : (buf.take n).length = n := by
      rw [List.length_take]
      omega
    have hchunk := wrote_chunk (l := buf.take n) hva hg (by rw [htake]; exact hn0.2.2)
    have hs' := hchunk.userPages hs
    have hlk := (hchunk.lookup_eq hs).2
    have hus := user_congr hlk
    -- the loop stops at the end of a page
    have hnk : n ≤ k := by
      by_contra hlt
      apply hopen 0 (by omega)
      rw [← hstop (by omega)]
      congr 1
      simp only [pageOf, PGSIZE] at *
      omega
    apply ends_after
    apply returns_assign
    generalize s.fill g (putBytes (s.mem g) (va%PGSIZE) (buf.take n)) = s₁ at *
    by_cases hall : n = buf.length
    · have hnil : buf.drop n = [] := List.drop_eq_nil_of_le (by omega)
      rw [hnil]
      apply ih hs' (Nat.mod_lt _ (by decide)) (by simp) (by simp) (Nat.le_refl 0)
      · intro j hj
        omega
      · intro _ s' hw
        have hw' : Wrote d (va+(buf.take n).length) [] s₁ s' :=
          ⟨fun j x y hx => by simp at hx,fun y o _ => hw.outside y o (by simp),hw.rest⟩
        have := hchunk.append hw' hs (by simp; omega)
        rw [List.append_nil, List.take_of_length_le (by omega)] at this
        exact hend (by omega) s' this
      · simp
      · simp
    have hnext : ∀ j, ((va/PGSIZE*PGSIZE+PGSIZE)%2^32+j)%2^32 = (va+n+j)%2^32 := by
      intro j
      simp only [PGSIZE] at *
      omega
    have hpage : ∀ j, pageOf ((va/PGSIZE*PGSIZE+PGSIZE)%2^32+j) = pageOf (va+(n+j)) := by
      intro j
      rw [pageOf, pageOf, hnext, Nat.add_assoc]
    have hkn : n+(k-n) = k := by omega
    have hmore : ∀ x s', Wrote d ((va/PGSIZE*PGSIZE+PGSIZE)%2^32) x s₁ s' →
        x.length ≤ (buf.drop n).length → Wrote d va (buf.take n++x) s s' := by
      intro x s' hw hx
      rw [List.length_drop] at hx
      refine hchunk.append (hw.congr ?_) hs ?_
      · rw [htake]
        exact hnext
      · rw [htake]
        omega
    apply ih (k := k-n) hs' (Nat.mod_lt _ (by decide))
    · rw [List.length_drop]
      omega
    · rw [List.length_drop]
      omega
    · rw [List.length_drop]
      omega
    · intro j hj
      rw [hus, hpage]
      exact hopen (n+j) (by omega)
    · intro he s' hw
      rw [List.length_drop] at he
      have := hmore _ s' hw (Nat.le_refl _)
      rw [List.take_append_drop] at this
      exact hend (by omega) s' this
    · intro hlt
      rw [List.length_drop] at hlt
      rw [hus, hpage, hkn]
      exact hstop (by omega)
    intro hlt s' hw
    rw [List.length_drop] at hlt
    have := hmore _ s' hw (by rw [List.length_take]; omega)
    rw [take_then_take hnk] at this
    rw [hlk, hpage, hkn]
    exact hquit (by omega) s' this

theorem open_or_stop (s : State) (d : Page) (a n : ℕ) :
    Open s d a n ∨ ∃ k < n, Open s d a k ∧ s.user d (pageOf (a+k)) = none := by
  induction n with
  | zero =>
    left
    intro j hj
    omega
  | succ n ih =>
    rcases ih with h | ⟨k,hk,h⟩
    · by_cases hn : s.user d (pageOf (a+n)) = none
      · exact Or.inr ⟨n,by omega,h,hn⟩
      left
      intro j hj
      by_cases e : j = n
      · rw [e]
        exact hn
      · exact h j (by omega)
    · exact Or.inr ⟨k,by omega,h⟩

/-- What a call of `copyout` is to do: 0 is returned exactly if all pages can
be written, and then the bytes are there and nothing else has changed; else -1
is returned. Only pages of the range are written to, where user code can. -/
structure Copied (d : Page) (va : ℕ) (p : List Byte) (r : ℤ) (s s' : State) : Prop where
  zero : r = 0 ↔ Open s d va p.length
  error : r = 0 ∨ r = -1
  written : r = 0 → Wrote d va p s s'
  confined : ∀ g, (∀ k < p.length, s.user d (pageOf (va+k)) ≠ some g) → s'.mem g = s.mem g
  rest : s' = {s with mem := s'.mem}

theorem copied_all (hopen : Open s d va p.length) (hw : Wrote d va p s s₁) : Copied d va p 0 s s₁ :=
  ⟨iff_of_true rfl hopen,Or.inl rfl,fun _ => hw,fun _ hg => hw.mem_eq hg,hw.rest⟩

theorem copied_part {va k : ℕ} (hk : k < p.length)
    (hstop : s.user d (pageOf (va+k)) = none) (hw : Wrote d va (p.take k) s s₁) :
    Copied d va p (-1) s s₁ := by
  refine ⟨iff_of_false (by decide) (fun h => h k hk hstop),Or.inr rfl,
    fun h => absurd h (by decide),fun g hg => hw.mem_eq (fun j hj => hg j ?_),hw.rest⟩
  rw [List.length_take] at hj
  omega

theorem toNat_lt_word (va : Uint) : va.toNat < 2^32 := va.isLt

theorem copyout_exact {checked : Bool} (hs : UserPages im d s) (va : Uint) (hlen : p.length < 2^32)
    (hcond : ∀ k < p.length, Open s d va.toNat k →
      ¬ (s.lookup d (pageOf (va.toNat+k)) = none ∧ checked = false)) :
    Returns (copyout checked d va p) (fun r s' => Copied d va.toNat p r s s') s := by
  rcases open_or_stop s d va.toNat p.length with hopen | ⟨k,hk,hopen,hstop⟩
  · apply copyoutLoop_ends hs (toNat_lt_word va) (Nat.le_refl _) hlen (Nat.le_refl _) hopen
    · exact fun _ s' hw => ⟨_,_,rfl,copied_all hopen hw⟩
    all_goals exact fun h => absurd h (Nat.lt_irrefl _)
  apply copyoutLoop_ends hs (toNat_lt_word va) (Nat.le_refl _) hlen (Nat.le_of_lt hk) hopen
  · exact fun h => absurd h (Nat.ne_of_lt hk)
  · exact fun _ => hstop
  · intro _ s' hw
    rw [if_neg (hcond k hk hopen)]
    exact ⟨_,_,rfl,copied_part hk hstop hw⟩

theorem copyout_checked (hs : UserPages im d s) (va : Uint) (hlen : p.length < 2^32) :
    Returns (copyout true d va p) (fun r s' => Copied d va.toNat p r s s') s :=
  copyout_exact hs va hlen (fun _ _ _ hc => Bool.noConfusion hc.2)

theorem copyout_null (hs : UserPages im d s) (va : Uint) (hlen : p.length < 2^32)
    {k : ℕ} (hk : k < p.length) (hopen : Open s d va.toNat k)
    (hnull : s.lookup d (pageOf (va.toNat+k)) = none) :
    Ends (copyout false d va p) (fun o => o = some (.error .nullDeref)) s := by
  apply copyoutLoop_ends hs (toNat_lt_word va) (Nat.le_refl _) hlen (Nat.le_of_lt hk) hopen
  · exact fun h => absurd h (Nat.ne_of_lt hk)
  · intro _
    rw [State.user, hnull]
    rfl
  · intro _ s' _
    rw [if_pos ⟨hnull,rfl⟩]

/-- `copyout` is exact and never reads through a null pointer if and only if
every page of the range, up to the first that cannot be written, has a page
table. -/
theorem copyout_exact_iff (hs : UserPages im d s) (va : Uint) {p : List Byte}
    (hlen : p.length < 2^32) :
    Returns (copyout false d va p) (fun r s' => Copied d va.toNat p r s s') s ↔
      ∀ k < p.length, Open s d va.toNat k → s.lookup d (pageOf (va.toNat+k)) ≠ none := by
  constructor
  · intro hr k hk hopen hnull
    obtain ⟨_,⟨r,s',rfl,-⟩,he⟩ := ends_meet hr (copyout_null hs va hlen hk hopen hnull)
    cases he
  · intro hcond
    exact copyout_exact hs va hlen (fun k hk ho hc => hcond k hk ho hc.1)

section Example

theorem user_frame {v : ℕ} (h : s.user d v = some g) : s.frame d v = some g := by
  rw [State.user] at h
  obtain ⟨w,hw,hg⟩ := Option.bind_eq_some_iff.mp h
  rw [State.frame, hw, Option.bind_some, pteFrame]
  rw [userFrame] at hg
  split at hg
  · rename_i hc
    rw [Bool.and_eq_true] at hc
    rw [if_pos hc.1]
    exact hg
  · cases hg

theorem gapSpace_pages : UserPages tightImage 2000 gapSpace := by
  obtain ⟨-,ht,hf⟩ := gapSpace_maps
  have honly : ∀ v g, gapSpace.user 2000 v = some g → v = 1024 ∧ g = 3001 := by
    intro v g hg
    have hfr := user_frame hg
    rw [hf] at hfr
    by_cases e : v = 1024
    · rw [e, update_self] at hfr
      exact ⟨e,(Option.some.inj hfr).symm⟩
    · rw [update_of_ne e] at hfr
      cases hfr
  refine ⟨fun v g hg => ?_,fun v g hg => ?_,fun v g hg i hi => ?_,fun v w g hg hw => ?_⟩
  · rw [(honly v g hg).2]
    decide
  · rw [(honly v g hg).2]
    decide
  · rw [(honly v g hg).2, ht] at hi
    by_cases e : i = 1
    · rw [e, update_self] at hi
      exact absurd hi (by decide)
    · rw [update_of_ne e] at hi
      cases hi
  · rw [(honly v g hg).1, (honly w g hw).1]

theorem gapSpace_lookup : gapSpace.lookup 2000 1024 ≠ none ∧ gapSpace.lookup 2000 0 = none := by
  obtain ⟨-,ht,-⟩ := gapSpace_maps
  have h1 : gapSpace.target 2000 (1024/NPTENTRIES) ≠ none := by
    rw [ht]
    decide
  have h0 : gapSpace.target 2000 (0/NPTENTRIES) = none := by
    rw [ht]
    decide
  exact ⟨fun e => h1 (lookup_none.mp e),lookup_none.mpr h0⟩

theorem copyout_exact_gap : UserPages tightImage 2000 gapSpace ∧
    Returns (copyout false 2000 0x400000 [104,105,0])
      (fun r s' => Copied 2000 0x400000 [104,105,0] r gapSpace s') gapSpace := by
  have hs := gapSpace_pages
  have hlook := gapSpace_lookup.1
  generalize gapSpace = s at *
  refine ⟨hs,(copyout_exact_iff hs 0x400000 (by decide)).mpr (fun k hk _ => ?_)⟩
  have hk3 : k < 3 := hk
  have hpage : pageOf ((0x400000 : Uint).toNat+k) = 1024 := by
    have hto : (0x400000 : Uint).toNat = 0x400000 := rfl
    rw [hto]
    simp only [pageOf, PGSIZE]
    omega
  rw [hpage]
  exact hlook

/-- A copy to address 0, where there is no page table. -/
theorem copyout_reads_null : UserPages tightImage 2000 gapSpace ∧
    Ends (copyout false 2000 0 [104,105,0]) (fun o => o = some (.error .nullDeref)) gapSpace := by
  have hs := gapSpace_pages
  have hlook := gapSpace_lookup.2
  generalize gapSpace = s at *
  refine ⟨hs,copyout_null hs 0 (by decide) (k := 0) (by decide) (fun j hj => by omega) ?_⟩
  exact hlook

end Example

end Yeet.Vm
