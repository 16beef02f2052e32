import YeetKernel.Release
import YeetKernel.Shortage

/-!
# Calls under memory shortage

Another processor may take the last free page at any time, so every `kalloc`
may fail. `short` is a routine of `vm.c` under this condition; routines that
do not call `kalloc` are the same as before. The mapping of one page whose
table is there does not call it, and where the table is missing it may fail.
-/

namespace Yeet.Vm
open Yeet.Kernel Bytes Resumption NewSpace

def short {α : Type} (x : VmProg α) : VmProg α :=
  x.starve (fun s => {s with freelist := []}) (fun s s' => {s' with freelist := s'.freelist++s.freelist})

def Frugal {α : Type} (x : VmProg α) : Prop :=
  x.Blind (fun s => {s with freelist := []}) (fun s s' => {s' with freelist := s'.freelist++s.freelist})

variable {im : Image} {d g t : Page} {s s₁ s₂ : State}

section Frugal

theorem frugal_readPte (r : PteRef) : Frugal (readPte r) := blind_atom (fun _ => rfl)

theorem frugal_writePte (r : PteRef) (w : Uint) : Frugal (writePte r w) := blind_atom (fun _ => rfl)

theorem frugal_memset (g : Page) (c : Byte) : Frugal (memset g c) := blind_atom (fun _ => rfl)

theorem frugal_walk (d : Page) (va : ℕ) : Frugal (walkpgdir d va false) := by
  unfold walkpgdir
  refine blind_bind (frugal_readPte _) (fun w => ?_)
  split
  · exact blind_pure
  · exact blind_pure

theorem frugal_freePte (r : PteRef) : Frugal (freePte im r) := by
  refine blind_atom (fun s => ?_)
  simp only [Atom.under]
  have ht : ({s with freelist := []} : State).target r.1 r.2 = s.target r.1 r.2 := rfl
  rw [ht]
  cases s.target r.1 r.2 with
  | none => rfl
  | some g =>
    by_cases hm : im.managed g
    · simp only [State.kfree, if_pos hm]
      rfl
    · simp only [State.kfree, if_neg hm]
      rfl

theorem frugal_deallocLoop (d : Page) (oldsz n a : ℕ) : Frugal (deallocLoop im d oldsz n a) := by
  induction n generalizing a with
  | zero => exact blind_pure
  | succ n ih =>
    unfold deallocLoop
    split
    · refine blind_bind (frugal_walk d a) (fun r => ?_)
      cases r with
      | none => exact ih _
      | some r => exact blind_bind (frugal_freePte r) (fun _ => ih _)
    · exact blind_pure

theorem frugal_deallocuvm (d : Page) (oldsz newsz : ℕ) : Frugal (deallocuvm im d oldsz newsz) := by
  unfold deallocuvm
  split
  · exact blind_pure
  · exact blind_bind (frugal_deallocLoop _ _ _ _) (fun _ => blind_pure)

theorem ends_short {α : Type} {x : VmProg α} {Q : Outcome State Fault α → Prop} (hf : Frugal x)
    (h : Ends x Q s) : Ends (short x) Q s := ends_starve_blind hf h

theorem short_bind {α β : Type} (x : VmProg α) (k : α → VmProg β) :
    short (x >>= k) = short x >>= fun a => short (k a) := starve_bind x k

theorem ends_kalloc {Q : Outcome State Fault (Option Page) → Prop}
    (hsome : ∀ g l, s.freelist = g::l → Q (some (.ok (some g,{s with freelist := l}))))
    (hnone : Q (some (.ok (none,s)))) : Ends (short kalloc) Q s := by
  apply ends_starve_atom
  · unfold State.kalloc
    split
    · exact hnone
    · rename_i g l hl
      exact hsome g l hl
  · exact hnone

theorem can_kalloc {l : List Page} (hl : s.freelist = g::l) :
    Can (short kalloc) (some (.ok (some g,{s with freelist := l}))) s := by
  apply can_starve
  simp only [kalloc, atom, Can, State.kalloc, hl]

theorem can_kalloc_none : Can (short kalloc) (some (.ok (none,s))) s := can_refused rfl

end Frugal

section Map

variable {v : ℕ} {perm : Uint}

theorem dir_whole (hv : v < 2^20) : v/NPTENTRIES < NPDENTRIES ∧ pdx (v*PGSIZE) = v/NPTENTRIES := by
  rw [pdx_page]
  simp only [NPTENTRIES, NPDENTRIES]
  omega

theorem walk_short (hlt : v < 2^20) (ht : s.target d (v/NPTENTRIES) = some t) (alloc : Bool) :
    Returns (short (walkpgdir d (v*PGSIZE) alloc))
      (fun r s' => r = some (t,v%NPTENTRIES) ∧ s' = s) s := by
  unfold walkpgdir
  rw [short_bind]
  apply returns_bind
  apply ends_short (frugal_readPte _)
  apply returns_fetch
  dsimp only
  rw [(dir_whole hlt).2, ptx_page]
  rw [State.target] at ht
  split at ht
  · rename_i hp
    rw [if_pos hp, Option.some.inj ht]
    exact returns_pure ⟨rfl,rfl⟩
  · cases ht

theorem user_lt (hv : v < UPAGES) : v < 2^20 := by
  simp only [UPAGES, KERNBASE, PGSIZE] at hv
  omega

theorem mappages_short (hv : v < UPAGES) (ht : s.target d (v/NPTENTRIES) = some t)
    (hf : s.frame d v = none) : Returns (short (mappages d (v*PGSIZE) PGSIZE g perm))
      (fun r s' => r = true ∧ s' = s.setPte t (v%NPTENTRIES) (mkPte g perm)) s := by
  rw [mappages_one hv]
  unfold mapLoop
  rw [short_bind]
  apply returns_bind
  apply returns_mono (walk_short (user_lt hv) ht true)
  rintro r s' ⟨rfl,rfl⟩
  dsimp only
  rw [short_bind]
  apply returns_bind
  apply ends_short (frugal_readPte _)
  apply returns_fetch
  have hp : present (s'.pte t (v%NPTENTRIES)) = false := by
    rw [← target_eq_frame ht, State.target] at hf
    split at hf
    · cases hf
    · rename_i hp
      exact (Bool.not_eq_true _).mp hp
  dsimp only
  rw [hp, if_neg Bool.false_ne_true, short_bind]
  apply returns_bind
  apply ends_short (frugal_writePte _ _)
  apply returns_assign
  exact returns_pure ⟨rfl,rfl⟩

theorem mappages_remap (hv : v < UPAGES) (ht : s.target d (v/NPTENTRIES) = some t)
    (hf : s.frame d v ≠ none) :
    Ends (short (mappages d (v*PGSIZE) PGSIZE g perm)) (fun o => o = some (.error (.panic "remap"))) s := by
  rw [mappages_one hv]
  unfold mapLoop
  rw [short_bind]
  apply ends_after
  apply returns_mono (walk_short (user_lt hv) ht true)
  rintro r s' ⟨rfl,rfl⟩
  dsimp only
  rw [short_bind]
  apply ends_after
  apply ends_short (frugal_readPte _)
  apply returns_fetch
  have hp : present (s'.pte t (v%NPTENTRIES)) = true := by
    rw [← target_eq_frame ht, State.target] at hf
    split at hf
    · assumption
    · exact absurd rfl hf
  dsimp only
  rw [hp, if_pos rfl]
  exact ends_starve_atom rfl rfl

theorem can_mapLoop_none (hlt : v < 2^20) (ht : s.target d (v/NPTENTRIES) = none) (n : ℕ) :
    Can (short (mapLoop d perm (n+1) (v*PGSIZE) g)) (some (.ok (false,s))) s := by
  have hp : present (s.pte d (pdx (v*PGSIZE))) = false := by
    rw [(dir_whole hlt).2]
    rw [State.target] at ht
    split at ht
    · cases ht
    · rename_i hp
      exact (Bool.not_eq_true _).mp hp
  have hwalk : Can (short (walkpgdir d (v*PGSIZE) true)) (some (.ok (none,s))) s := by
    unfold walkpgdir
    rw [short_bind]
    have hread : Can (short (readPte (d,pdx (v*PGSIZE))))
        (some (.ok (s.pte d (pdx (v*PGSIZE)),s))) s := can_starve rfl
    refine can_bind hread ?_
    rw [hp, if_neg Bool.false_ne_true, if_pos rfl, short_bind]
    exact can_bind can_kalloc_none (can_pure _ _)
  unfold mapLoop
  rw [short_bind]
  exact can_bind hwalk (can_pure _ _)

theorem can_mappages_none (hv : v < UPAGES) (ht : s.target d (v/NPTENTRIES) = none) :
    Can (short (mappages d (v*PGSIZE) PGSIZE g perm)) (some (.ok (false,s))) s := by
  rw [mappages_one hv]
  exact can_mapLoop_none (user_lt hv) ht 0

end Map

end Yeet.Vm
