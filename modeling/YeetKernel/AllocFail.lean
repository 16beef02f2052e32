import YeetKernel.WakeAll

/-!
# A failed `allocproc`

`allocproc` moves a slot from the free list to the embryo list before it asks
`kalloc` for a kernel stack. The code that moves the slot back is compiled
only where `CS33_P3P4` is defined. The makefile defines `CS333_P3P4`, so the
failure path only resets the state and the slot is stranded on the embryo list.
-/

namespace Yeet.AllocFail
open Kernel StateLists ProcTable ProcSpec ProcStep WakeAll Function

/-- `allocproc` as one call; `page` says whether `kalloc` returns a page. -/
def allocprocCall (page : Bool) (t : Table) : Except Fault (Option Slot × Table) := do
  match ← allocproc t with
  | (none,t) => return (none,t)
  | (some p,t) =>
    if page then return (some p,allocprocStack p t)
    else return (none,allocprocNoStack p t)

def members (t : Table) (l : ListId) : Except Fault (List Slot) :=
  walkFrom t.lists (t.lists.head l)

structure Restored (t u : Table) : Prop where
  lists : ∀ l m n, members t l = .ok m → members u l = .ok n → ∀ p, p ∈ n ↔ p ∈ m
  state : u.state = t.state

/-- An UNUSED slot that is on the embryo list and not on the free list. -/
structure Stranded (t : Table) (p : Slot) : Prop where
  unused : t.state p = .unused
  embryo : ∃ m, members t .embryo = .ok m ∧ p ∈ m
  free : ∃ m, members t .free = .ok m ∧ p ∉ m

theorem members_eq {leak : Prop} {off : Option Slot} {t : Table} {L : ListId → List Slot}
    (h : Listed leak off t L) (l : ListId) : members t l = .ok (L l) := h.rep.walk l

section Call

variable {leak : Prop} {t : Table} {L : ListId → List Slot} {p : Slot} {r : List Slot}

theorem failed_of_taken {u : Table} (h : allocproc t = .ok (some p,u)) :
    allocprocCall false t = .ok (none,allocprocNoStack p u) := by
  rw [allocprocCall, h, ok_bind]
  rfl

theorem failed_lists (h : Listed leak none t L) (hf : L .free = p::r) :
    ∃ u, allocprocCall false t = .ok (none,u) ∧ u.state = t.state ∧
      ∀ l, members u l = .ok (moveFront L p .free .embryo l) := by
  obtain ⟨ls,ha,h1⟩ := allocproc_spec h hf
  refine ⟨_,failed_of_taken ha,?_,fun l => h1.rep.walk l⟩
  have hp : t.state p = .unused := h.fits .free p (by simp [hf])
  simp only [allocprocNoStack, update_idem]
  rw [← hp, update_eq_self]

theorem not_mem_moved (h : Listed leak none t L) (hf : L .free = p::r) :
    p ∉ moveFront L p .free .embryo .free := by
  have hn := (h.rep.queue .free).nodup
  rw [hf] at hn
  simpa [moveFront, hf] using (List.nodup_cons.mp hn).1

end Call

theorem failed_allocproc_strands {s₀ s : State} {h : List (Action × Event)} (h0 : Start s₀)
    (hr : Run s₀ h s) {p : Slot} (hp : s.tab.lists.head .free = some p) :
    ∃ t, allocprocCall false s.tab = .ok (none,t) ∧ ¬ Restored s.tab t ∧ Stranded t p := by
  obtain ⟨L,hL⟩ := reachable_listed h0 hr
  obtain ⟨r,hf⟩ : ∃ r, L .free = p::r := by
    rw [(hL.rep.queue .free).head_eq] at hp
    exact List.head?_eq_some_iff.mp hp
  obtain ⟨t,ht,hst,hm⟩ := failed_lists hL hf
  have hout := not_mem_moved hL hf
  refine ⟨t,ht,?_,?_,⟨_,hm .embryo,by simp [moveFront]⟩,⟨_,hm .free,hout⟩⟩
  · intro hres
    have hin := hres.lists .free _ _ (members_eq hL .free) (hm .free) p
    exact hout (hin.mpr (by simp [hf]))
  · rw [hst]
    exact hL.fits .free p (by simp [hf])

theorem failed_allocproc_strands_forked : ∃ s₀ h s p, Start s₀ ∧ Run s₀ h s ∧
    h.map Prod.fst = bootAndFork ∧ s.tab.lists.head .free = some p ∧
    ∃ t, allocprocCall false s.tab = .ok (none,t) ∧ ¬ Restored s.tab t ∧ Stranded t p := by
  obtain ⟨s₀,h,s,h0,hrun,hacts,p,hp⟩ := bootRun_reaches bootAndFork
    (fun _ s => ∃ p, s.tab.lists.head .free = some p) (by decide +kernel)
  exact ⟨s₀,h,s,p,h0,hrun,hacts,hp,failed_allocproc_strands h0 hrun hp⟩

def loses (t : Table) (p : Slot) : Bool :=
  match allocprocCall false t with
  | .ok (none,u) => (members t .free).toOption.any (p ∈ ·) && (members u .free).toOption.any (p ∉ ·)
  | _ => false

theorem any_ok {ε α : Type} {x : Except ε α} {f : α → Bool} (h : x.toOption.any f = true) :
    ∃ a, x = .ok a ∧ f a = true := by
  cases x with
  | error e => cases h
  | ok a => exact ⟨a,rfl,h⟩

/-- The first process forks while no page is left: a slot of the free list is
gone from it when `allocproc` has failed. -/
theorem fork_without_page_loses_slot : ∃ s₀ h s t p m n, Start s₀ ∧ Run s₀ h s ∧
    h.map Prod.fst = bootAndFork ∧ allocprocCall false s.tab = .ok (none,t) ∧
    members s.tab .free = .ok m ∧ p ∈ m ∧ members t .free = .ok n ∧ p ∉ n ∧
    ¬ Restored s.tab t := by
  obtain ⟨s₀,h,s,h0,hrun,hacts,p,hp⟩ := bootRun_reaches bootAndFork
    (fun _ s => ∃ p, loses s.tab p) (by decide +kernel)
  unfold loses at hp
  split at hp
  · rename_i t ht
    obtain ⟨hfree,hgone⟩ := Bool.and_eq_true_iff.mp hp
    obtain ⟨m,hm,hpm⟩ := any_ok hfree
    obtain ⟨n,hn,hpn⟩ := any_ok hgone
    have hpm := of_decide_eq_true hpm
    have hpn := of_decide_eq_true hpn
    exact ⟨s₀,h,s,t,p,m,n,h0,hrun,hacts,ht,hm,hpm,hn,hpn,
      fun hres => hpn ((hres.lists .free m n hm hn p).mpr hpm)⟩
  · cases hp

end Yeet.AllocFail
