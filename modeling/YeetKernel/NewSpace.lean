import YeetKernel.PageHold
import YeetKernel.Outcome

/-!
# The user half of a directory

The routines of `vm.c` that work below KERNBASE read and write only the lower
half of a directory. `graft` replaces the upper half, and what such a routine
does to a page table or a frame is the same with any upper half. A `Fresh`
directory has an empty lower half.
-/

namespace Yeet.Vm
open Yeet.Kernel Bytes Function

/-- The state with the entries of `d` above KERNBASE as they are in `K`. -/
def State.graft (s : State) (d : Page) (K : PageData) : State :=
  s.fill d (fun a => if a.val < PGSIZE/2 then s.mem d a else K a)

section Graft

variable {s : State} {d t g : Page} {K L : PageData} {i j : ℕ}

@[simp] theorem graft_freelist (s : State) (d : Page) (K : PageData) :
    (s.graft d K).freelist = s.freelist := rfl

@[simp] theorem graft_self (s : State) (d : Page) : s.graft d (s.mem d) = s := by
  simp [State.graft, State.fill]

theorem graft_graft : (s.graft d K).graft d L = s.graft d L := by
  simp only [State.graft, State.fill, update_self, update_idem]
  congr 2
  ext1 a
  split <;> rfl

theorem graft_pte_ne (h : t ≠ d) : (s.graft d K).pte t j = s.pte t j := pte_fill_ne h _ _

theorem graft_target_ne (h : t ≠ d) : (s.graft d K).target t j = s.target t j :=
  target_congr (graft_pte_ne h)

theorem graft_pte (hi : i < NPDENTRIES/2) : (s.graft d K).pte d i = s.pte d i := by
  simp only [State.pte, State.graft, State.fill, update_self]
  refine getField_congr (fun a h1 h2 => ?_)
  have ha : a < PGSIZE/2 := by
    simp only [PGSIZE, NPDENTRIES] at *
    omega
  simp only [byteAt, ha, if_true]

theorem graft_upper (hi : NPDENTRIES/2 ≤ i) : (s.graft d K).pte d i = getField K (4*i) 4 := by
  simp only [State.pte, State.graft, State.fill, update_self]
  refine getField_congr (fun a h1 h2 => ?_)
  have ha : ¬ a < PGSIZE/2 := by
    simp only [PGSIZE, NPDENTRIES] at *
    omega
  simp only [byteAt, ha, if_false]

theorem graft_target (hi : i < NPDENTRIES/2) : (s.graft d K).target d i = s.target d i :=
  target_congr (graft_pte hi)

theorem graft_fill (h : g ≠ d) (b : PageData) :
    (s.graft d K).fill g b = (s.fill g b).graft d K := by
  simp only [State.graft, State.fill, update_of_ne h.symm, update_comm h]

theorem graft_setPte (h : t ≠ d) (w : Uint) :
    (s.graft d K).setPte t j w = (s.setPte t j w).graft d K := by
  rw [State.setPte, State.setPte, ← graft_fill h]
  simp only [State.graft, State.fill, update_of_ne h]

theorem graft_free (h : g ≠ d) : (s.graft d K).free g = (s.free g).graft d K := by
  have := graft_fill (s := s) (K := K) h (fun _ => 1)
  simp only [State.free, this]
  rfl

theorem graft_setDir (hi : i < NPDENTRIES/2) (w : Uint) :
    (s.graft d K).setPte d i w = (s.setPte d i w).graft d K := by
  simp only [State.setPte, State.graft, State.fill, update_self, update_idem]
  congr 2
  ext1 a
  have ha : 4*i ≤ a.val ∧ a.val < 4*i+4 → a.val < PGSIZE/2 := by
    simp only [PGSIZE, NPDENTRIES] at *
    omega
  simp only [setField]
  split
  · rename_i h
    rw [if_pos (ha h)]
  · rfl

end Graft

end Yeet.Vm

namespace Yeet.NewSpace
open Kernel Resumption Vm

structure Fresh (im : Image) (d : Page) (s : State) : Prop where
  nodup : s.freelist.Nodup
  managed : ∀ g ∈ s.freelist, im.managed g
  dir : d ∉ s.freelist
  empty : ∀ i < NPDENTRIES/2, s.pte d i = 0

variable {s : State} {d : Page} {v : ℕ}

theorem pdx_page (v : ℕ) : pdx (v*PGSIZE) = v/NPTENTRIES%NPDENTRIES := by
  simp only [pdx, PGSIZE, NPTENTRIES]
  congr 1
  omega

theorem ptx_page (v : ℕ) : ptx (v*PGSIZE) = v%NPTENTRIES := by
  simp only [ptx, PGSIZE, NPTENTRIES]
  congr 1
  omega

theorem walk_returns (x va : ℕ) : Returns (walkpgdir x va false)
    (fun r s' => s' = s ∧ r = (s.target x (pdx va)).map (fun t => (t,ptx va))) s := by
  unfold walkpgdir
  apply returns_bind
  apply returns_fetch
  rw [State.target]
  split
  · exact returns_pure ⟨rfl,rfl⟩
  · simp only [Bool.false_eq_true, ↓reduceIte]
    exact returns_pure ⟨rfl,rfl⟩

theorem dir_index (hv : v < KERNBASE/PGSIZE) :
    v/NPTENTRIES < NPDENTRIES/2 ∧ pdx (v*PGSIZE) = v/NPTENTRIES := by
  rw [pdx_page]
  simp only [KERNBASE, PGSIZE, NPTENTRIES, NPDENTRIES] at *
  omega

theorem mappages_one (hv : v < KERNBASE/PGSIZE) (g : Page) (perm : Uint) :
    mappages d (v*PGSIZE) PGSIZE g perm = mapLoop d perm 1 (v*PGSIZE) g := by
  unfold mappages
  have h1 : v*PGSIZE/PGSIZE = v := Nat.mul_div_cancel v (by decide)
  have h2 : (v*PGSIZE+PGSIZE+2^32-1)%2^32/PGSIZE = v := by
    simp only [KERNBASE, PGSIZE] at *
    omega
  simp only [h1, h2]
  congr 1
  omega

end Yeet.NewSpace
