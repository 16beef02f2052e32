import YeetKernel.PageCalls

/-!
# Every physical page has one place

In every run of the kernel, from before `main` on, each page is in at most
one place: on the free list, a kernel stack, a directory or a table of one
address space, a frame at one address of one address space, or a pipe. User
code reaches only the frames of its own process.
-/

namespace Yeet.Vm
open Yeet.Kernel Threads Function
open StateLists (Slot)

variable {im : Image} {c : Call} {p : Owner} {r : Hold} {b : Bool} {d : Page}

section Boot

theorem firstBoot_sound : (discipline im).Sound c none firstBoot r
    (fun _ r' => r' = {r with upto := some 0}) := by
  refine sound_atom (fun s ρ o s' hi hl hρ hf => ?_)
  split at hf
  · cases hf
  rename_i hb
  cases hf
  subst hρ
  refine ⟨fun z hz => ?_,_,?_,trivial,rfl⟩
  · cases z with
    | none => rfl
    | some z => exact hz
  refine hi.stay ⟨rfl,rfl,fun _ => rfl,rfl,rfl⟩ (hand_update rfl)
    (space_update (fun c => by cases c <;> rfl)) ?_
  rw [shape_set]
  exact hi.slots.firstBoot (by simpa using hb)

theorem freerange_sound {B : ℕ} (n : ℕ) : ∀ g t r, r.upto = some t → t ≤ g → t ≤ B →
    (0 < n → g+n ≤ B) → (discipline im).Sound c none (freerange im n g) r (fun _ r' =>
      r'.new = r.new ∧ r'.kid = r.kid ∧ r'.reap = r.reap ∧ ∃ t', r'.upto = some t' ∧ t' ≤ B) := by
  induction n with
  | zero => exact fun g t r ht _ hB _ => sound_pure ⟨rfl,rfl,rfl,t,ht,hB⟩
  | succ n ih =>
    intro g t r ht hg _ hn
    refine sound_seq (Q := fun _ r' => r' = {r with upto := some (g+1)}) (kfreeAt_sound
      (fun s ρ _ _ _ hf => by cases hf) (fun s ρ g' hi _ hr hf hm => ?_)) ?_
    · cases hf
      subst hr
      exact ⟨_,_,appear_inv hi hm ht hg,by simp,rfl,rfl,by simp [Hold.drop]⟩
    rintro _ r' rfl
    refine sound_mono (ih (g+1) (g+1) _ rfl (le_refl _) (by omega) (by omega)) ?_
    rintro _ r' ⟨h1,h2,h3,h4⟩
    exact ⟨h1,h2,h3,h4⟩

theorem kvmalloc_sound (hn : r.new = none) :
    (discipline im).Sound c none (kvmalloc im) r (fun _ r' => r'.new = none ∧ r'.kid = r.kid ∧
      r'.reap = r.reap ∧ r'.upto = r.upto) := by
  refine sound_seq (setupkvm_sound hn) ?_
  rintro (_ | d) r₁ ⟨h1,h2⟩
  · exact sound_fail
  obtain ⟨sp,h3,rfl,h5⟩ := h1
  refine sound_assign (fun s ρ hi _ hr => ⟨rfl,{r₁ with own := some sp, new := none},?_,
    rfl,h2.kid,h2.reap,h2.upto⟩)
  subst hr
  exact kvmalloc_inv hi h3 h5

theorem inituvm_sound (h : HasSpace b d r) :
    (discipline im).Sound c p (inituvm d) r (fun _ r' => HasSpace b d r' ∧ Agree b r r') := by
  refine sound_seq kalloc_sound (fun o r₁ ho => ?_)
  cases o with
  | none => exact sound_fail
  | some g =>
    obtain rfl := ho
    have hg : g ∈ (r.take g).hand := by simp [Hold.take]
    refine sound_then (memset_sound hg 0) (fun _ => ?_)
    rw [mappages_page d kernbase_pos rfl]
    refine sound_seq (mapUser_sound (h.ofAgree (Hold.space_take r g)) kernbase_pos hg (by decide)) ?_
    rintro _ r₃ ⟨h1,h2⟩
    exact sound_pure ⟨h1,(Agree.ofTake r g).trans h2⟩

theorem userinit_sound (h : r.shape.rest) :
    (discipline im).Sound c none (userinit im) r (fun _ r' => r'.shape.rest) := by
  obtain ⟨h1,h2,h3⟩ := (rest_iff r).mp h
  refine sound_seq (allocproc_sound h2 h3) ?_
  rintro o r₁ ⟨hk,-,hn,hr,-⟩
  cases o with
  | none => exact sound_fail
  | some q =>
    refine sound_seq (Q := fun _ r' => r' = r₁) (sound_assign (fun s ρ hi _ hρ => ⟨rfl,r₁,?_,rfl⟩)) ?_
    · rw [← hρ, update_eq_self]
      exact hi.stay ⟨rfl,rfl,fun _ => rfl,rfl,rfl⟩ (fun _ => rfl) (fun _ _ => rfl)
        (hi.slots.procs ⟨rfl,rfl,rfl,rfl,rfl,rfl,rfl,rfl,rfl⟩)
    rintro _ r' rfl
    refine sound_seq (setupkvm_sound (hn.trans h1)) ?_
    rintro (_ | d) r₂ ⟨h4,h5⟩
    · exact sound_fail
    refine sound_seq (inituvm_sound h4) ?_
    rintro _ r₃ ⟨h6,h7⟩
    have hag := h5.trans h7
    refine sound_mono (adopt_sound (hag.kid.trans hk) h6 (by decide) q) ?_
    rintro _ r₄ rfl
    exact (rest_iff _).mpr ⟨rfl,rfl,hag.reap.trans hr⟩

theorem boot_sound (h : r.shape.rest) :
    (discipline im).Sound c none (boot im) r (fun _ r' => r'.shape.rest) := by
  obtain ⟨h1,h2,h3⟩ := (rest_iff r).mp h
  refine sound_then firstBoot_sound (fun _ => ?_)
  refine sound_seq (freerange_sound (B := 1024) _ im.kend 0 _ rfl (Nat.zero_le _) (by decide) ?_) ?_
  · intro hpos
    simp only [PGSIZE] at *
    omega
  rintro _ r₂ ⟨hn2,hk2,hr2,t,ht,hB⟩
  refine sound_seq (kvmalloc_sound (hn2.trans h1)) ?_
  rintro _ r₃ ⟨hn3,hk3,hr3,hu3⟩
  refine sound_seq (freerange_sound (B := PHYSTOP/PGSIZE) _ _ t r₃ (hu3.trans ht) hB ?_ ?_) ?_
  · exact hB.trans (by decide)
  · exact fun _ => by decide
  rintro _ r₄ ⟨hn4,hk4,hr4,-⟩
  refine sound_seq (userinit_sound ((rest_iff r₄).mpr ⟨hn4.trans hn3,?_,?_⟩)) ?_
  · rw [hk4, hk3, hk2]
    exact h2
  · rw [hr4, hr3, hr2]
    exact h3
  · intro _ r₅ h5
    exact sound_pure h5

end Boot

theorem machine_follows (im : Image) : Follows (discipline im) (machine im) (fun _ => True) where
  enabled := fun _ _ h => h
  code := by
    intro p c r _ hr
    refine ⟨trivial,?_⟩
    have hidle : (discipline im).Sound c p (pure (-1) : VmProg ℤ) r (fun _ r' => r'.shape.rest) :=
      sound_pure hr
    cases p with
    | none =>
      cases c with
      | boot => exact boot_sound hr
      | _ => exact hidle
    | some q =>
      cases c with
      | boot => exact hidle
      | fork => exact fork_sound hr
      | exec phs => exact exec_sound hr phs
      | growproc n => exact growproc_sound hr n
      | exit => exact exit_sound hr
      | wait => exact wait_sound hr
      | pipe => exact pipe_sound hr
      | pipeclose k w => exact pipeclose_sound hr k w
      | store va v => exact store_sound hr va v
  leave := by
    intro p c s ρ hi hl hr
    have hsame : ∃ ρ', Inv im s ρ' ∧ (ρ' p).shape.rest ∧ (discipline im).Keeps p s s ρ ρ' :=
      ⟨ρ,hi,hr,fun z _ => ⟨id,Or.inl rfl⟩⟩
    cases p with
    | none =>
      cases c <;> exact hsame
    | some q =>
      cases c with
      | exit =>
        have hal : s.stage q = .alive := by simpa [discipline, live] using hl
        refine ⟨ρ,exited_inv hi hal hr,hr,fun z hz => ⟨fun hz' => ?_,Or.inl rfl⟩⟩
        cases z with
        | none => rfl
        | some z =>
          have hne : z ≠ q := fun e => hz (by rw [e])
          simpa [discipline, live, machine, leave, State.exited, update_of_ne hne] using hz'
      | _ => exact hsame

section Places

/-- The directory of an address space: the kernel's, that of a process or of a
zombie nobody is taking apart yet, or the one a call is building. -/
def State.root (s : State) : Owner → Bool → Option Page
  | p, true => s.building p
  | none, false => s.kpgdir
  | some q, false =>
    if s.stage q = .alive ∨ s.stage q = .zombie ∧ s.reaping ≠ some q then s.pgdir q else none

def State.pages (s : State) : Place → List Page
  | .free => s.freelist
  | .stack q => (s.stackOf q).toList
  | .dir p b => (s.root p b).toList
  | .table p b i =>
    if i < NPDENTRIES then ((s.root p b).bind (fun d => s.target d i)).toList else []
  | .frame p b i j => (s.frameOf ((s.root p b).bind (fun d => s.target d i)) i j).toList
  | .pipe => s.pipes.map Pipe.page

/-- User code may use the address `va` of the space with directory `d`. -/
def State.UserLeaf (s : State) (d : Page) (va : ℕ) : Prop :=
  ∃ t, s.target d (pdx va) = some t ∧ present (s.pte t (ptx va)) = true ∧
    userBit (s.pte t (ptx va)) = true

variable {s : State} {ρ : Owner → Hold}

theorem root_hasSpace (hi : Inv im s ρ) (h : s.root p b = some d) : HasSpace b d (ρ p) := by
  have hown : ∀ o, (ρ o).shape.own = some d → HasSpace false d (ρ o) := by
    intro o ho
    obtain ⟨sp,h1,h2⟩ := Option.map_eq_some_iff.mp ho
    exact ⟨sp,h1,h2,(hi.spaces.whole o false sp h1).1 rfl⟩
  cases b with
  | true =>
    have := hi.slots.building p d h
    obtain ⟨sp,h1,h2⟩ := Option.map_eq_some_iff.mp this
    exact ⟨sp,h1,congrArg Prod.fst h2,congrArg Prod.snd h2⟩
  | false =>
    cases p with
    | none =>
      have hk : s.kpgdir = some d := h
      exact hown none ((hi.slots.kernel (by simp [hk])).trans hk)
    | some q =>
      simp only [State.root] at h
      split at h
      · rename_i hst
        rcases hst with hst | ⟨hst,hr⟩
        · exact hown (some q) ((hi.slots.image q hst).2.trans h)
        · exact hown (some q) ((hi.slots.corpse q hst hr).2.trans h)
      · cases h

theorem pages_sublist (hi : Inv im s ρ) (x : Place) :
    (s.pages x).Sublist (ledger s ρ (.inl x)) := by
  have hsub : ∀ {a b : Option Page}, (∀ g, a = some g → b = some g) →
      a.toList.Sublist b.toList := by
    intro a b hab
    cases a with
    | none => exact List.nil_sublist _
    | some g => rw [hab g rfl]
  have htab : ∀ p b i t, i < NPDENTRIES → (s.root p b).bind (fun d => s.target d i) = some t →
      tabOf ((ρ p).space b) i = some t := by
    intro p b i t hlt ht
    obtain ⟨d,hd,ht⟩ := Option.bind_eq_some_iff.mp ht
    rw [(root_hasSpace hi hd).reads hi hlt]
    exact ht
  cases x with
  | free | stack q | pipe => exact List.Sublist.refl _
  | dir p b =>
    refine hsub (fun g hg => ?_)
    obtain ⟨sp,h1,h2,-⟩ := root_hasSpace hi hg
    rw [h1, ← h2]
    rfl
  | table p b i =>
    simp only [State.pages]
    split
    · rename_i hlt
      exact hsub (fun t ht => htab p b i t hlt ht)
    · exact List.nil_sublist _
  | frame p b i j =>
    refine hsub (fun g hg => ?_)
    simp only [State.frameOf] at hg ⊢
    split at hg
    · rename_i hlt
      obtain ⟨t,ht,hg⟩ := Option.bind_eq_some_iff.mp hg
      have hi' : i < NPDENTRIES := Nat.lt_of_lt_of_le hlt.1 (Nat.div_le_self _ _)
      rw [if_pos hlt, htab p b i t hi' ht]
      exact hg
    · cases hg

theorem pages_sound (hi : Inv im s ρ) : Ledger.Sound im.managed s.pages :=
  (hi.pages.mono (fun _ hg => ⟨hg.1,Nat.lt_of_lt_of_le hg.2 hi.top⟩)).relabel Sum.inl
    Sum.inl_injective (pages_sublist hi)

theorem userLeaf_below (hi : Inv im s ρ) (h : s.root p b = some d) {va : ℕ} (hva : va < 2^32)
    (hu : s.UserLeaf d va) : va < KERNBASE := by
  obtain ⟨t,ht,hpr,hus⟩ := hu
  by_contra hge
  have htab := (root_hasSpace hi h).reads hi (pdx_lt va)
  have := hi.spaces.kernel p b (pdx va) t (htab.trans ht) (pdx_kernel (Nat.not_lt.mp hge) hva)
    (ptx va) (ptx_lt va) hpr
  rw [hus] at this
  cases this

theorem kalloc_unused (hs : Ledger.Sound im.managed s.pages) {g : Page} {s' : State}
    (h : s.kalloc = (some g,s')) (x : Place) : g ∉ s'.pages x := by
  rw [State.kalloc] at h
  split at h
  · cases h
  rename_i g' l hl
  cases h
  have hfree : g ∈ s.pages .free := by simp [State.pages, hl]
  have hn := hs.nodup .free
  simp only [State.pages, hl, List.nodup_cons] at hn
  intro hx
  have hold : x ≠ .free → g ∈ s.pages x := by
    cases x <;> first | exact fun _ => hx | exact fun e => absurd rfl e
  by_cases hxf : x = .free
  · subst hxf
    exact hn.1 hx
  · exact hxf (hs.unique (hold hxf) hfree)

/-- Physical pages and user code, as every reachable state has them. -/
structure Isolated (im : Image) (s : State) : Prop where
  /-- Each page is in one place at most, once, and is managed by `kalloc`. -/
  places : Ledger.Sound im.managed s.pages
  /-- Mappings for user code lie below KERNBASE. -/
  below : ∀ p b d va, s.root p b = some d → va < 2^32 → s.UserLeaf d va → va < KERNBASE
  /-- `kalloc` never returns a page in use. -/
  fresh : ∀ g s', s.kalloc = (some g,s') → ∀ x, g ∉ s'.pages x
  /-- User code reaches frames of its own process, which are in no other place. -/
  confined : ∀ q d va g, s.stage q = .alive → s.pgdir q = some d →
    s.translate d va (PTE_P ||| PTE_U) = some g →
    g ∈ s.pages (.frame (some q) false (pdx va) (ptx va)) ∧
      ∀ x, g ∈ s.pages x → x = .frame (some q) false (pdx va) (ptx va)

theorem inv_isolated (hi : Inv im s ρ) : Isolated im s := by
  have hs := pages_sound hi
  refine ⟨hs,fun p b d va h hva hu => userLeaf_below hi h hva hu,
    fun g s' h x => kalloc_unused hs h x,fun q d va g hal hd ht => ?_⟩
  have hspace := hasSpace_alive hi hal hd
  obtain ⟨hlt,t,htab,htar⟩ := translate_frame hi hspace (by decide) (by decide) ht
  have hmem : g ∈ s.pages (.frame (some q) false (pdx va) (ptx va)) := by
    rw [hspace.reads hi (pdx_lt va)] at htab
    have hroot : s.root (some q) false = some d := by simp [State.root, hal, hd]
    simp [State.pages, hroot, State.frameOf, hlt, ptx_lt va, htab, htar]
  exact ⟨hmem,fun x hx => hs.unique hx hmem⟩

end Places

def idle : Hold := ⟨[],none,none,none,none,false,none⟩

theorem start_inv (im : Image) (mem : Page → PageData) : Inv im (start mem) (fun _ => idle) := by
  have hempty : ∀ x, ledger (start mem) (fun _ => idle) x = [] := by
    rintro ((_ | q | ⟨q,c⟩ | ⟨q,c,i⟩ | ⟨q,c,i,j⟩ | _) | q)
    · rfl
    · simp [ledger, State.stackOf, start]
    · cases c <;> rfl
    · cases c <;> rfl
    · cases c <;> simp [ledger, State.frameOf, tabOf, idle, Hold.space]
    · rfl
    · rfl
  have hspace : ∀ b, idle.space b = none := by
    intro b
    cases b <;> rfl
  refine ⟨Nat.zero_le _,⟨fun x => ?_,fun hx => ?_,fun hx => ?_⟩,⟨?_,?_,?_⟩,?_⟩
  · rw [hempty]
    exact List.nodup_nil
  · rw [hempty] at hx
    cases hx
  · rw [hempty] at hx
    cases hx
  · intro p b sp h
    rw [hspace] at h
    cases h
  · intro p b sp h
    rw [hspace] at h
    cases h
  · intro p b i t h
    rw [hspace] at h
    cases h
  · constructor <;> simp [start, idle, Hold.shape, Shape.rest]

end Yeet.Vm
