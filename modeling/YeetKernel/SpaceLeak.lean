import YeetKernel.CopySpace

/-!
# What a failed `setupkvm` or `copyuvm` leaves behind

Both stop at the first refused call of `kalloc`. What is lost depends on what
the call was for. `setupkvm` has no `freevm` on its way out, so the directory
and its tables are lost when a table of the kernel half cannot be had.
`copyuvm` frees the directory, but not a frame that it could not map. If the
directory itself or a frame is refused, everything is given back.
-/

namespace Yeet.Vm
open Yeet.Kernel Resumption Function

/-- The first `k` calls of `kalloc` are granted, as far as there are free
pages, and the others refused. -/
def granting {α : Type} (k : ℕ) (x : VmProg α) : VmProg α := do
  let kept ← fetch (fun s => s.freelist.drop k)
  assign (fun s => {s with freelist := s.freelist.take k})
  let r ← x
  assign (fun s => {s with freelist := s.freelist++kept})
  return r

inductive Request where
  | directory
  | kernelTable
  | frame
  | userTable
  deriving DecidableEq, Repr

/-- What the call of `kalloc` after `k` granted ones is for, if there is one, in
the copy of `n` pages: 65 pages for the kernel half, then frame after frame,
with a table after the first frame of each 1024. -/
def request (n k : ℕ) : Option Request :=
  if k = 0 then some .directory
  else if k < 65 then some .kernelTable
  else if Loader.need n ≤ k-65 then none
  else if (k-65)%(NPTENTRIES+1) = 1 then some .userTable
  else some .frame

def LeaksNothing (s : State) (o : Outcome State Fault (Option Page)) : Prop :=
  ∀ s', o = some (.ok (none,s')) → ∀ g, g ∈ s'.freelist ↔ g ∈ s.freelist

variable {im : Image} {d pgdir : Page} {s : State} {l : List Page} {p : Owner} {k sz : ℕ}

section Grant

variable {x : VmProg (Option Page)} {C : Prop}

/-- With the first `k` pages only. -/
def State.cut (s : State) (k : ℕ) : State := {s with freelist := s.freelist.take k}

theorem leaks_granting (hn : s.freelist.Nodup)
    (h : Ends x (fun o => (∀ s', o = some (.ok (none,s')) → ∀ g ∈ s'.freelist, g ∈ (s.cut k).freelist) ∧
      (LeaksNothing (s.cut k) o ↔ C)) (s.cut k)) : Ends (granting k x) (LeaksNothing s) s ↔ C := by
  apply ends_iff
  unfold granting
  apply ends_after
  apply returns_fetch
  apply ends_after
  apply returns_assign
  apply ends_bind
  apply ends_mono h
  rintro o ⟨hsub,hC⟩
  have hsplit : s.freelist = (s.cut k).freelist++s.freelist.drop k := (List.take_append_drop k _).symm
  have hmem : ∀ g, g ∈ s.freelist ↔ g ∈ (s.cut k).freelist ∨ g ∈ s.freelist.drop k := fun g => by
    rw [← List.mem_append, ← hsplit]
  rw [hsplit] at hn
  have hdis := (List.nodup_append.mp hn).2.2
  rw [← hC]
  rcases o with _ | (e | ⟨_ | d,s₁⟩)
  · simp [Then, LeaksNothing]
  · simp [Then, LeaksNothing]
  · refine ends_after (returns_assign (ends_pure ⟨fun hl s' e g => ?_,fun hl s' e g => ?_⟩))
    · cases e
      have := hl _ rfl g
      rw [hmem, List.mem_append] at this
      refine ⟨hsub _ rfl g,fun hg => (this.mpr (Or.inl hg)).resolve_right (fun hd => ?_)⟩
      exact hdis g hg g hd rfl
    · cases e
      rw [hmem, List.mem_append, hl s₁ rfl g]
  · refine ends_after (returns_assign (ends_pure ?_))
    simp [LeaksNothing]

theorem returns_granting {P : Option Page → Prop} (h : Returns x (fun o _ => P o) (s.cut k)) :
    Returns (granting k x) (fun o _ => P o) s := by
  unfold granting
  apply returns_bind
  apply returns_fetch
  apply returns_bind
  apply returns_assign
  apply returns_bind
  apply returns_mono h
  intro o s' ho
  exact returns_bind (returns_assign (returns_pure ho))

end Grant

/-- The calls whose refusal loses pages. -/
def Request.Loses (r : Option Request) : Prop := r = some .kernelTable ∨ r = some .userTable

theorem request_setup {n : ℕ} (hk : k < 65) : request n k = request 0 k := by
  unfold request
  split
  · rfl
  · rfl

theorem setup_leaks {o : Option Page} {s' : State} (h : Setup im p s o s') :
    (o = none ↔ request 0 s.freelist.length ≠ none) ∧
      (o = none → ∀ g ∈ s'.freelist, g ∈ s.freelist) ∧
      (LeaksNothing s (some (.ok (o,s'))) ↔ ¬ Request.Loses (request 0 s.freelist.length)) := by
  cases h with
  | nothing hl => simp [LeaksNothing, Request.Loses, request, hl]
  | stuck d l hl s₁ hs =>
    have hlen : l.length < 64 := hs.short
    have hreq : request 0 s.freelist.length = some .kernelTable := by
      rw [hl, List.length_cons, request, if_neg (by omega), if_pos (by omega)]
    have hnone : ∀ g, g ∉ s₁.freelist := fun g hg => by
      rw [hs.empty] at hg
      cases hg
    refine ⟨by simp [hreq],fun _ g hg => absurd hg (hnone g),
      ⟨fun h => ?_,fun h => absurd (Or.inl hreq) h⟩⟩
    exact absurd ((h _ rfl d).mpr (by rw [hl]; simp)) (hnone d)
  | done d l hl s' hk =>
    have hlen : s'.freelist.length+64 = l.length := hk.count_eq
    have hreq : request 0 s.freelist.length = none := by
      rw [hl, List.length_cons, request, if_neg (by omega), if_neg (by omega),
        if_pos (show Loader.need 0 ≤ _ from Nat.zero_le _)]
    simp [LeaksNothing, Request.Loses, hreq]

/-- When nothing is left, the directory holds all pages that were free. -/
theorem taken_held {s₀ s₁ : State} {c : ℕ → Filling} {u : ℕ} {g : Page} (hl : s.freelist = d::l)
    (hk : Kernel im d (kernelEntry im) (s.begin p d l) s₀) (hg : Grows im d c 0 u s₀ s₁)
    (he : s₁.freelist = []) (h : g ∈ s.freelist) : s₁.Held d g := by
  rw [hl] at h
  rcases List.mem_cons.mp h with rfl | h
  · exact Or.inl rfl
  rcases hk.given g h with h | ⟨i,hi⟩
  · refine (hg.given g h).resolve_left ?_
    rw [he]
    exact List.not_mem_nil
  · exact Or.inr (Or.inl ⟨i,hg.stay i g hi⟩)

theorem copy_leaks {n : ℕ} {o : Outcome State Fault (Option Page)} (hn : n ≤ UPAGES)
    (h : CopySpaceEnd im p pgdir n s o) :
    (∃ d s', o = some (.ok (d,s')) ∧ (d = none ↔ request n s.freelist.length ≠ none)) ∧
      (∀ s', o = some (.ok (none,s')) → ∀ g ∈ s'.freelist, g ∈ s.freelist) ∧
      (LeaksNothing s o ↔ ¬ Request.Loses (request n s.freelist.length)) := by
  cases h with
  | failed s' hset =>
    obtain ⟨h1,h2,h3⟩ := setup_leaks hset
    rw [request_setup hset.short]
    exact ⟨⟨none,s',rfl,h1⟩,fun s₁ e => by cases e; exact h2 rfl,h3⟩
  | copied d l hl s₀ hk _ ho =>
    cases ho with
    | done s₁ hu hg =>
      have hcount := copy_count hl hk hg hu
      have hreq : request n s.freelist.length = none := by
        rw [request, if_neg (by omega), if_neg (by omega), if_pos (by omega)]
      refine ⟨⟨some d,s₁,rfl,by simp [hreq]⟩,?_⟩
      simp [LeaksNothing, Request.Loses, hreq]
    | stopped u s₁ s' hu hlim hg hstop hfree =>
      have hcount := copy_count hl hk hg hlim
      have hneed : Loader.need u+1 ≤ Loader.need n := by
        simp only [Loader.need, Loader.tablesOf, NPTENTRIES]
        omega
      have hsub : ∀ g ∈ s'.freelist, g ∈ s.freelist := fun g hx => held_taken hl hk hg ((hfree g).mp hx)
      rcases hstop with e | ⟨⟨g,e⟩,hlt,hnull⟩
      · rw [e, List.length_nil] at hcount
        have hreq : request n s.freelist.length = some .frame := by
          rw [request, if_neg (by omega), if_neg (by omega), if_neg (by omega), if_neg]
          rw [← hcount]
          simp only [Loader.need, Loader.tablesOf, NPTENTRIES]
          omega
        refine ⟨⟨none,s',rfl,by simp [hreq]⟩,fun s₂ e => by cases e; exact hsub,
          fun _ => by simp [Request.Loses, hreq],fun _ s₂ e' g => ?_⟩
        cases e'
        rw [hfree]
        exact ⟨held_taken hl hk hg,taken_held hl hk hg e⟩
      have hmod := table_missing hg hnull
      rw [e, List.length_singleton] at hcount
      have hreq : request n s.freelist.length = some .userTable := by
        simp only [Loader.need, Loader.tablesOf, NPTENTRIES] at hcount hmod hneed
        rw [request, if_neg (by omega), if_neg (by omega), if_neg, if_pos]
        all_goals
          simp only [Loader.need, Loader.tablesOf, NPTENTRIES]
          omega
      refine ⟨⟨none,s',rfl,by simp [hreq]⟩,fun s₂ e => by cases e; exact hsub,fun h => ?_,
        fun h => absurd (Or.inr hreq) h⟩
      -- the frame that could not be mapped
      have hgs : g ∈ s.freelist := by
        rw [hl]
        exact List.mem_cons_of_mem d (hk.sub g (hg.sub g (by rw [e]; simp)))
      have hheld := (hfree g).mp ((h s' rfl g).mpr hgs)
      exact absurd (show g ∈ s₁.freelist by rw [e]; simp) (hg.space.held_free hheld)
    | clash hc => omega

theorem cut_space (h : UserSpace im pgdir s) (k : ℕ) : UserSpace im pgdir (s.cut k) :=
  (h.other (show ∀ g, s.Held pgdir g → (s.cut k).mem g = s.mem g from fun _ _ => rfl)
    (h.nodup.sublist (List.take_sublist ..)) (fun _ hg => List.mem_of_mem_take hg)).1

theorem cut_length (hk : k ≤ s.freelist.length) : (s.cut k).freelist.length = k := by
  rw [State.cut, List.length_take]
  omega

section Call

variable (h : UserSpace im pgdir s) (hk : k ≤ s.freelist.length) (p : Owner)
include h hk

theorem setupkvm_leaks :
    Returns (granting k (setupkvm im p)) (fun o _ => o = none ↔ request 0 k ≠ none) s ∧
    (Ends (granting k (setupkvm im p)) (LeaksNothing s) s ↔ ¬ Request.Loses (request 0 k)) := by
  have hcut := cut_space h k
  have hset := setupkvm_returns hcut.nodup hcut.managed p
  refine ⟨returns_granting (returns_mono hset (fun o s' ho => ?_)),
    leaks_granting h.nodup (ends_mono hset ?_)⟩
  · have := (setup_leaks ho).1
    rwa [cut_length hk] at this
  rintro _ ⟨o,s',rfl,ho⟩
  obtain ⟨-,h1,h2⟩ := setup_leaks ho
  rw [cut_length hk] at h2
  exact ⟨fun s₁ e => by cases e; exact h1 rfl,h2⟩

theorem copyuvm_leaks (hsz : sz ≤ KERNBASE) (hpages : ∀ v, v*PGSIZE < sz → s.frame pgdir v ≠ none) :
    Returns (granting k (copyuvm im p pgdir sz))
      (fun o _ => o = none ↔ request ((sz+PGSIZE-1)/PGSIZE) k ≠ none) s ∧
    (Ends (granting k (copyuvm im p pgdir sz)) (LeaksNothing s) s ↔
      ¬ Request.Loses (request ((sz+PGSIZE-1)/PGSIZE) k)) := by
  have hlt : sz < 2^32 ∧ (sz+PGSIZE-1)/PGSIZE ≤ UPAGES := by
    simp only [KERNBASE, UPAGES, PGSIZE] at *
    omega
  have hends := ends_mono (copyuvm_ends (cut_space h k) hlt.1
    (fun v hv hc => hpages v hv (frame_none.mpr hc)) p) (fun o => copy_leaks hlt.2)
  rw [cut_length hk] at hends
  exact ⟨returns_granting (ends_mono hends (fun o ho => ho.1)),
    leaks_granting h.nodup (ends_mono hends (fun o ho => ho.2))⟩

end Call

/-- Of `k` free pages that the calls of `kalloc` can have, `setupkvm` and
`copyuvm` return 0 if a call is refused, and lose no page exactly if it is not
one for a table. -/
theorem space_creation_leaks_iff (h : UserSpace im pgdir s) (hsz : sz ≤ KERNBASE)
    (hpages : ∀ v, v*PGSIZE < sz → s.frame pgdir v ≠ none) (p : Owner) (hk : k ≤ s.freelist.length) :
    (Returns (granting k (setupkvm im p)) (fun o _ => o = none ↔ request 0 k ≠ none) s ∧
      (Ends (granting k (setupkvm im p)) (LeaksNothing s) s ↔ ¬ Request.Loses (request 0 k))) ∧
    Returns (granting k (copyuvm im p pgdir sz))
      (fun o _ => o = none ↔ request ((sz+PGSIZE-1)/PGSIZE) k ≠ none) s ∧
    (Ends (granting k (copyuvm im p pgdir sz)) (LeaksNothing s) s ↔
      ¬ Request.Loses (request ((sz+PGSIZE-1)/PGSIZE) k)) :=
  ⟨setupkvm_leaks h hk p,copyuvm_leaks h hk p hsz hpages⟩

section Example

def oneCopied : State := onePage (List.range' 3002 70) 0

theorem oneCopied_space : UserSpace tightImage 2000 oneCopied ∧
    ∀ v, v*PGSIZE < 4096 → oneCopied.frame 2000 v ≠ none := by
  obtain ⟨hu,-,hf⟩ := onePage_maps (l := List.range' 3002 70) (v := 0) (List.nodup_range' ..)
    (by decide) (by decide) (by decide)
  refine ⟨hu,fun v hv => ?_⟩
  have h0 : v = 0 := by
    simp only [PGSIZE] at hv
    omega
  rw [oneCopied, hf, h0, update_self]
  exact Option.some_ne_none _

theorem oneCopied_length : oneCopied.freelist.length = 70 := rfl

/-- The kernel half takes 65 pages; refused the frame, `copyuvm` returns 0 and
gives them back. -/
theorem space_creation_without_frame :
    Returns (granting 65 (setupkvm tightImage none)) (fun o _ => o ≠ none) oneCopied ∧
    Returns (granting 65 (copyuvm tightImage none 2000 4096)) (fun o _ => o = none) oneCopied ∧
    Ends (granting 65 (copyuvm tightImage none 2000 4096)) (LeaksNothing oneCopied) oneCopied := by
  obtain ⟨hu,hpages⟩ := oneCopied_space
  have hlen : 65 ≤ oneCopied.freelist.length := by
    rw [oneCopied_length]
    decide
  generalize oneCopied = s at *
  obtain ⟨⟨h1,-⟩,h2,h3⟩ := space_creation_leaks_iff hu (by decide) hpages none hlen
  have hset : request 0 65 = none := by decide
  have hcopy : request ((4096+PGSIZE-1)/PGSIZE) 65 = some .frame := by decide
  rw [hcopy] at h2 h3
  refine ⟨returns_mono h1 (fun o _ ho hn => ho.mp hn hset),
    returns_mono h2 (fun o _ ho => ho.mpr (Option.some_ne_none _)),h3.mpr ?_⟩
  simp [Request.Loses]

/-- Refused its first table, `setupkvm` loses the directory. With a page more
than for the kernel half, `copyuvm` loses the frame that it cannot map. -/
theorem space_creation_loses_page :
    ¬ Ends (granting 1 (setupkvm tightImage none)) (LeaksNothing oneCopied) oneCopied ∧
    ¬ Ends (granting 66 (copyuvm tightImage none 2000 4096)) (LeaksNothing oneCopied) oneCopied := by
  obtain ⟨hu,hpages⟩ := oneCopied_space
  have hlen := oneCopied_length
  generalize oneCopied = s at *
  rw [(setupkvm_leaks hu (by omega) none).2, (copyuvm_leaks hu (by omega) none (by decide) hpages).2]
  unfold Request.Loses
  decide

end Example

end Yeet.Vm
