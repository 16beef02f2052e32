import Mathlib.Algebra.BigOperators.Ring.Finset
import Mathlib.Algebra.Order.BigOperators.Group.Finset
import Mathlib.Data.Fintype.BigOperators

/-!
# Counting pointers

The number of pointers of a table to an object, as an integer, and how sums
over a table change when one of its places does.
-/

namespace Yeet.Tally
open Function

variable {ι β γ : Type} [Fintype ι] {i : ι}

theorem sum_off [DecidableEq ι] {f g : ι → ℤ} (h : ∀ j, j ≠ i → f j = g j) :
    ∑ j, f j = ∑ j, g j-g i+f i := by
  have h1 : ∀ f : ι → ℤ, ∑ j, f j = f i+∑ j ∈ Finset.univ.erase i, f j :=
    fun f => (Finset.add_sum_erase _ _ (Finset.mem_univ i)).symm
  have h2 : ∑ j ∈ Finset.univ.erase i, f j = ∑ j ∈ Finset.univ.erase i, g j :=
    Finset.sum_congr rfl (fun j hj => h j (Finset.ne_of_mem_erase hj))
  rw [h1 f, h1 g, h2]
  omega

theorem sum_update [DecidableEq ι] (t : ι → γ) (g : γ → ℤ) (i : ι) (x : γ) :
    ∑ j, g (update t i x j) = ∑ j, g (t j)-g (t i)+g x := by
  have h : ∀ j, j ≠ i → g (update t i x j) = g (t j) := fun j hj => by rw [update_of_ne hj]
  rw [sum_off h, update_self]

theorem le_sum {g : ι → ℤ} (h : ∀ i, 0 ≤ g i) (i : ι) : g i ≤ ∑ j, g j :=
  Finset.single_le_sum (fun j _ => h j) (Finset.mem_univ i)

def point [DecidableEq β] (o : Option β) (b : β) : ℤ := if o = some b then 1 else 0

@[simp] theorem point_none [DecidableEq β] (b : β) : point none b = 0 := rfl

@[simp] theorem point_self [DecidableEq β] (b : β) : point (some b) b = 1 := if_pos rfl

theorem point_some [DecidableEq β] (a b : β) : point (some a) b = if b = a then 1 else 0 := by
  unfold point
  simp only [Option.some.injEq, eq_comm]

theorem point_nonneg [DecidableEq β] (o : Option β) (b : β) : 0 ≤ point o b := by
  unfold point
  split <;> omega

def count [DecidableEq β] (t : ι → Option β) (b : β) : ℤ := ∑ i, point (t i) b

theorem count_update [DecidableEq ι] [DecidableEq β] (t : ι → Option β) (i : ι) (o : Option β)
    (b : β) : count (update t i o) b = count t b-point (t i) b+point o b :=
  sum_update t (fun o => point o b) i o

theorem count_nonneg [DecidableEq β] (t : ι → Option β) (b : β) : 0 ≤ count t b :=
  Finset.sum_nonneg (fun i _ => point_nonneg (t i) b)

theorem count_pos [DecidableEq β] {t : ι → Option β} {b : β} (h : t i = some b) :
    1 ≤ count t b := by
  have h1 := le_sum (fun i => point_nonneg (t i) b) i
  rw [h, point_self] at h1
  exact h1

@[simp] theorem count_none [DecidableEq β] (b : β) : count (fun _ : ι => none) b = 0 :=
  Finset.sum_eq_zero (fun _ _ => rfl)

theorem count_card [DecidableEq β] (t : ι → Option β) (b : β) :
    count t b = (Finset.univ.filter (fun i => t i = some b)).card := by
  simp [count, point, Finset.sum_boole]

end Yeet.Tally
