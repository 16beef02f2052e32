import YeetKernel.CopySpace
import YeetKernel.PageOwnership

/-!
# Page ownership in all runs

The system starts before `boot`, with no page in the hands of the allocator.
Every run from there keeps the pages apart. In one of them the kernel boots,
and its first process makes a pipe.
-/

namespace Yeet.Vm
open Yeet.Kernel Resumption NewSpace Function
open StateLists (Slot slotOf)
open Threads (Pool run_fits)

variable {im : Image} {q : Slot} {d g : Page} {s : State} {l : List Page}

/-- The free list, with pages of the allocator below `b`. -/
structure Stocked (im : Image) (b : ℕ) (s : State) : Prop where
  nodup : s.freelist.Nodup
  managed : ∀ g ∈ s.freelist, im.managed g
  below : ∀ g ∈ s.freelist, g < b

theorem freerange_returns {n : ℕ} (h : Stocked im g s) (hg : im.kend ≤ g)
    (hend : g+n ≤ PHYSTOP/PGSIZE) : Returns (freerange im n g) (fun _ s' => Stocked im (g+n) s' ∧
      s'.freelist.length = s.freelist.length+n ∧ s'.stage = s.stage) s := by
  induction n generalizing g s with
  | zero => exact returns_pure ⟨h,rfl,rfl⟩
  | succ n ih =>
    have hm : im.managed g := ⟨hg,Nat.lt_of_lt_of_le (Nat.lt_add_of_pos_right n.succ_pos) hend⟩
    have hstep : Stocked im (g+1) {s.free g with top := g+1} := by
      refine ⟨List.nodup_cons.mpr ⟨fun hx => Nat.lt_irrefl g (h.below g hx),h.nodup⟩,
        List.forall_mem_cons.mpr ⟨hm,h.managed⟩,List.forall_mem_cons.mpr ⟨Nat.lt_succ_self g,?_⟩⟩
      exact fun x hx => Nat.lt_succ_of_lt (h.below x hx)
    unfold freerange
    apply returns_bind
    refine returns_atom (a := ()) (r := {s.free g with top := g+1}) ?_ ?_
    · simp only [State.kfree, if_pos hm]
      rfl
    have hnext := ih hstep (Nat.le_succ_of_le hg) (by rwa [Nat.succ_add_eq_add_succ])
    rw [Nat.succ_add_eq_add_succ] at hnext
    apply returns_mono hnext
    rintro _ s' ⟨h1,h2,h3⟩
    exact ⟨h1,h2.trans (Nat.succ_add_eq_add_succ _ n),h3⟩

/-- The directory and the 64 tables of `kmap` are there, so `setupkvm` does not fail. -/
theorem can_setupkvm {b : ℕ} (h : Stocked im b s) (hlen : 65 ≤ s.freelist.length) :
    ∃ d l s', s.freelist = d::l ∧ Can (setupkvm im none) (some (.ok (some d,s'))) s ∧
      Kernel im d (kernelEntry im) (s.begin none d l) s' := by
  obtain ⟨o,s',hc,hset⟩ := can_of_returns (setupkvm_returns h.nodup h.managed none)
  cases o with
  | none => exact absurd hset.short (Nat.not_lt.mpr hlen)
  | some d =>
    cases hset with
    | done _ l hl _ hk => exact ⟨d,l,s',hl,hc,hk⟩

theorem can_kalloc_next (hl : s.freelist = g::l) :
    Can kalloc (some (.ok (some g,{s with freelist := l}))) s :=
  can_atom (by simp only [State.kalloc, hl])

theorem can_inituvm {M : ℕ → Option Uint} {s₀ : State} (hk : Kernel im d M s₀ s)
    (hlen : 2 ≤ s.freelist.length) :
    ∃ s', Can (inituvm d) (some (.ok ((),s'))) s ∧ Grows im d (fun _ => zeroed) 0 1 s s' := by
  obtain ⟨g,l,hl⟩ := List.exists_cons_of_ne_nil (l := s.freelist) (fun e => by simp [e] at hlen)
  have hf : s.frame d 0 = none := by
    rw [State.frame, lookup_none.mpr (hk.user (by decide))]
    rfl
  obtain ⟨r,s',hc,hr⟩ := can_of_returns (round_returns (c := fun _ => zeroed) hk.space
    (show 0 < UPAGES by decide) hf hl (show zeroed.1 < 4096 by decide))
  rw [Nat.zero_mul] at hc
  rcases hr with ⟨-,hg⟩ | ⟨-,-,hnil,-⟩
  · exact ⟨s',can_bind (can_kalloc_next hl)
      (can_bind (can_atom rfl) (can_bind hc (can_pure _ _))),hg⟩
  · rw [hl, hnil] at hlen
    exact absurd hlen (Nat.lt_irrefl 1)

/-- `userinit` takes the kernel stack, the 65 pages of `setupkvm` and at most two
pages for the first page of code. -/
theorem can_userinit {b : ℕ} (h : Stocked im b s) (hlen : 69 ≤ s.freelist.length)
    (hq : s.stage q = .unused) : ∃ s' d, Can (userinit im) (some (.ok ((),s'))) s ∧
      s'.stage q = .alive ∧ Process im q d s' ∧ s'.freelist ≠ [] := by
  obtain ⟨g,l,hl⟩ := List.exists_cons_of_ne_nil (l := s.freelist) (fun e => by simp [e] at hlen)
  have htake : Can (takeSlot q.val) (some (.ok (some q,{s with
      stage := update s.stage q .embryo}))) s := by
    refine can_atom ?_
    rw [dif_pos q.isLt]
    exact if_pos hq
  obtain ⟨hn,hm,hb⟩ := h
  rw [hl] at hn hm hb
  rw [hl, List.length_cons] at hlen
  have hnext : Stocked im b {s with
      stage := update s.stage q .embryo
      freelist := l
      kstack := update s.kstack q (some g)
      initproc := some q} :=
    ⟨hn.of_cons,fun x hx => hm x (List.mem_cons_of_mem g hx),
      fun x hx => hb x (List.mem_cons_of_mem g hx)⟩
  obtain ⟨d,l',s₁,hl₁,hc₁,hk⟩ := can_setupkvm hnext (show 65 ≤ l.length by omega)
  have h1 : s₁.freelist.length+64 = l'.length := hk.count_eq
  have h2 : l.length = l'.length+1 := congrArg List.length hl₁
  obtain ⟨s₂,hc₂,hg⟩ := can_inituvm hk (by omega)
  have h3 := hg.count
  have hneed : need (s₁.target d) 0 (1-0) ≤ 2 := by
    simp only [need]
    split <;> omega
  have hadopt : Can (adopt none q d PGSIZE q) (some (.ok ((),{s₂ with
      pgdir := update s₂.pgdir q (some d)
      sz := update s₂.sz q PGSIZE
      parent := update s₂.parent q (some q)
      stage := update s₂.stage q .alive
      building := update s₂.building none none}))) s₂ := can_atom rfl
  have hsz : update s₂.sz q PGSIZE q = PGSIZE := update_self ..
  refine ⟨_,d,can_bind (can_choose q.val (can_bind htake (can_bind (can_kalloc_next hl)
    (can_bind (can_atom rfl) (can_pure _ _))))) (can_bind (can_atom rfl) (can_bind hc₁
      (can_bind hc₂ hadopt))),update_self ..,⟨hg.space,update_self ..,hsz.trans_lt (by decide),
        fun v hv => ?_,fun v hv hge => ?_⟩,fun e => ?_⟩
  -- page 0 is mapped, and nothing above it
  · replace hv : v*PGSIZE < PGSIZE := hv.trans_eq hsz
    have hv1 : v < 1 := Nat.lt_of_mul_lt_mul_right (by rwa [Nat.one_mul])
    obtain ⟨x,-,-,hf,-⟩ := hg.page v (Nat.zero_le v) hv1
    exact fun hn => Option.some_ne_none x (hf.symm.trans hn)
  · replace hge : PGSIZE ≤ v*PGSIZE := hsz.ge.trans hge
    have hv1 : ¬ v < 1 := fun h1 => by
      rw [Nat.lt_one_iff.mp h1] at hge
      exact absurd hge (by decide)
    have hnone : s₁.frame d v = none := by
      rw [State.frame, lookup_none.mpr (hk.user (dir_user hv))]
      rfl
    exact (frame_of_filter (hg.kept v (fun h => hv1 h.2))).trans hnone
  · have h4 : s₂.freelist.length = 0 := congrArg List.length e
    omega

/-- A kernel that ends 65 pages below 4 MB boots. -/
theorem can_boot (im : Image) (hend : im.kend+65 ≤ 1024) (mem : Page → PageData) (q : Slot) :
    ∃ s d, Can (boot im) (some (.ok (0,s))) (start mem) ∧ s.stage q = .alive ∧
      Process im q d s ∧ s.freelist ≠ [] := by
  have hempty : Stocked im im.kend {start mem with booted := true} :=
    ⟨List.nodup_nil,List.forall_mem_nil _,List.forall_mem_nil _⟩
  obtain ⟨_,s₁,hc₁,h₁,hlen₁,hst₁⟩ := can_of_returns (freerange_returns (n := 1024-im.kend) hempty
    (Nat.le_refl _) (by rw [Nat.add_sub_cancel' (by omega)]; decide))
  replace hlen₁ : s₁.freelist.length = 0+(1024-im.kend) := hlen₁
  obtain ⟨d,l,s₂,hl,hc₂,hk⟩ := can_setupkvm h₁ (by omega)
  have h₂ : Stocked im 1024 {s₂ with
      kpgdir := some d
      building := update s₂.building none none} := by
    refine ⟨hk.space.nodup,hk.space.managed,fun g hg => ?_⟩
    have := h₁.below g (by rw [hl]; exact List.mem_cons_of_mem d (hk.sub g hg))
    rwa [Nat.add_sub_cancel' (by omega)] at this
  -- `kinit2` frees the pages from 4 MB to PHYSTOP
  obtain ⟨_,s₃,hc₃,h₃,hlen₃,hst₃⟩ := can_of_returns (freerange_returns (n := 56320) h₂
    (by omega) (by decide))
  have hst : s₃.stage = fun _ => .unused :=
    hst₃.trans ((congrArg State.stage hk.rest).trans hst₁)
  obtain ⟨s₄,d',hc₄,hq⟩ := can_userinit (q := q) h₃ (by omega) (by rw [hst])
  exact ⟨s₄,d',can_bind (can_atom rfl) (can_bind hc₁ (can_bind (can_bind hc₂ (can_atom rfl))
    (can_bind hc₃ (can_bind hc₄ (can_pure _ _))))),hq⟩

theorem page_ownership (im : Image) (mem : Page → PageData)
    {h : List (Threads.Move Owner Call × Threads.Seen Owner Call ℤ)}
    {x : Pool State Fault Owner Call ℤ}
    (hr : Lts.Run (Threads.exec (machine im)) (Pool.mk (start mem) (fun _ => none)) h x) :
    Isolated im x.state := by
  obtain ⟨ρ,hi,-⟩ := run_fits (machine_follows im) (start_inv im mem)
    (fun _ => (rest_iff idle).mpr ⟨rfl,rfl,rfl⟩) hr (fun _ _ _ => trivial)
  exact inv_isolated hi

def bootImage : Image := ⟨320,400,by decide,by decide,by decide⟩

attribute [local irreducible] boot

theorem page_ownership_piped : ∃ h x d g,
    Lts.Run (Threads.exec (machine bootImage)) (Pool.mk (start (fun _ _ => 0)) (fun _ => none))
        h x ∧
      .returned none .boot 0 ∈ h.map Prod.snd ∧ x.state.stage (slotOf 0) = .alive ∧
      Process bootImage (slotOf 0) d x.state ∧ g ∈ x.state.pages .pipe ∧
      Isolated bootImage x.state := by
  obtain ⟨s,d,hc,hal,hp,hne⟩ := can_boot bootImage (by decide) (fun _ _ => 0) (slotOf 0)
  obtain ⟨g,l,hl⟩ := List.exists_cons_of_ne_nil hne
  have hpipe : Can (pipe bootImage) (some (.ok (0,{s with
      freelist := l
      pipes := ⟨g,true,true⟩::s.pipes}))) s :=
    can_choose 1 (can_bind (can_kalloc_next hl)
      (can_choose 1 (can_bind (can_atom rfl) (can_pure _ _))))
  obtain ⟨h,hrun,hm⟩ := call_runs (machine bootImage) (p := none) (c := .boot)
    (t := fun _ => none) rfl rfl hc
  obtain ⟨h',hrun',-⟩ := call_runs (machine bootImage) (p := some (slotOf 0)) (c := .pipe)
    (t := fun _ => none) rfl (decide_eq_true hal) hpipe
  refine ⟨h++h',_,d,g,hrun.append hrun',?_,hal,
    ⟨(hp.space.kalloc hl).1,hp.dir,hp.small,hp.below,hp.above⟩,
    List.mem_cons_self,page_ownership bootImage _ (hrun.append hrun')⟩
  rw [List.map_append]
  exact List.mem_append_left _ hm

end Yeet.Vm
