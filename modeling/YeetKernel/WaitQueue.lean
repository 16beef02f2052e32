import Mathlib.Data.List.Basic

/-!
# A queue of sleepers with their channels

Sleepers stand in the order in which they went to sleep. A wakeup on a channel
reaches only the first sleeper on it.
-/

namespace Yeet.WaitQueue

variable {ι χ : Type} [DecidableEq χ]

abbrev Queue (ι χ : Type) := List (ι × χ)

def wake (c : χ) (l : Queue ι χ) : Queue ι χ := l.eraseP (fun x => x.2 = c)

def leave [DecidableEq ι] (p : ι) (l : Queue ι χ) : Queue ι χ := l.eraseP (fun x => x.1 = p)

def waiting (c : χ) (l : Queue ι χ) : List ι := (l.filter (fun x => x.2 = c)).map Prod.fst

@[simp] theorem waiting_nil (c : χ) : waiting c ([] : Queue ι χ) = [] := rfl

@[simp] theorem waiting_append (c : χ) (l m : Queue ι χ) :
    waiting c (l++m) = waiting c l++waiting c m := by
  simp [waiting]

theorem waiting_cons (c : χ) (x : ι × χ) (l : Queue ι χ) :
    waiting c (x::l) = if x.2 = c then x.1::waiting c l else waiting c l := by
  by_cases h : x.2 = c <;> simp [waiting, h]

@[simp] theorem mem_waiting {c : χ} {l : Queue ι χ} {p : ι} : p ∈ waiting c l ↔ (p,c) ∈ l := by
  simp [waiting]

@[simp] theorem waiting_wake_self (c : χ) (l : Queue ι χ) : waiting c (wake c l) = (waiting c l).tail := by
  induction l with
  | nil => rfl
  | cons x l ih =>
    by_cases h : x.2 = c
    · simp [wake, waiting_cons, h]
    · simpa [wake, waiting_cons, h] using ih

theorem waiting_wake_ne {c d : χ} (hd : d ≠ c) (l : Queue ι χ) : waiting d (wake c l) = waiting d l := by
  induction l with
  | nil => rfl
  | cons x l ih =>
    by_cases h : x.2 = c
    · have hx : x.2 ≠ d := by
        rw [h]
        exact hd.symm
      simp [wake, waiting_cons, h, hd.symm]
    · have hw : wake c (x::l) = x::wake c l := by simp [wake, h]
      rw [hw, waiting_cons, waiting_cons, ih]

theorem wake_subset (c : χ) (l : Queue ι χ) : wake c l ⊆ l := List.eraseP_subset

omit [DecidableEq χ] in
theorem leave_subset [DecidableEq ι] (p : ι) (l : Queue ι χ) : leave p l ⊆ l := List.eraseP_subset

theorem waiting_leave_sublist [DecidableEq ι] (c : χ) (p : ι) (l : Queue ι χ) :
    (waiting c (leave p l)).Sublist (waiting c l) :=
  (List.eraseP_sublist.filter _).map _

end Yeet.WaitQueue
