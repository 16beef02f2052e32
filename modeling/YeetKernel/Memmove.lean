import YeetKernel.Bytes

/-!
# The two versions of `memmove`

The kernel copies from the end when the destination begins inside the source. The
user library always copies from the start, so that such a call reads bytes it has
already written. Both ranges lie inside the address space: no pointer wraps.
-/

namespace Yeet.Memmove
open Bytes Function

abbrev Memory := ℕ → Byte

/-- `while(n-- > 0) *d++ = *s++;` -/
def copyUp (d s : ℕ) : ℕ → Memory → Memory
  | 0, m => m
  | n+1, m => copyUp (d+1) (s+1) n (update m d (m s))

/-- `while(n-- > 0) *--d = *--s;` with both pointers `n` beyond `d` and `s`. -/
def copyDown (d s : ℕ) : ℕ → Memory → Memory
  | 0, m => m
  | n+1, m => copyDown d s n (update m (d+n) (m (s+n)))

def kernelMemmove (dst src n : ℕ) (m : Memory) : Memory :=
  if src < dst ∧ dst < src+n then copyDown dst src n m else copyUp dst src n m

def userMemmove (dst src n : ℕ) (m : Memory) : Memory := copyUp dst src n m

def moved (dst src n : ℕ) (m : Memory) : Memory :=
  fun a => if dst ≤ a ∧ a < dst+n then m (src+(a-dst)) else m a

variable {d s : ℕ}

theorem copyDown_moved (h : s < d) (n : ℕ) (m : Memory) : copyDown d s n m = moved d s n m := by
  induction n generalizing m with
  | zero =>
    ext1 a
    rw [moved, if_neg (by omega)]
    rfl
  | succ n ih =>
    rw [copyDown, ih]
    ext1 a
    simp only [moved]
    by_cases ha : d ≤ a ∧ a < d+n
    · rw [if_pos ha, if_pos (by omega), update_of_ne (by omega)]
    rw [if_neg ha]
    by_cases e : a = d+n
    · rw [e, update_self, if_pos (by omega), Nat.add_sub_cancel_left]
    · rw [update_of_ne e, if_neg (by omega)]

variable {m : Memory}

theorem copyUp_outside {a : ℕ} (n : ℕ) (ha : ¬ (d ≤ a ∧ a < d+n)) : copyUp d s n m a = m a := by
  induction n generalizing d s m with
  | zero => rfl
  | succ n ih => rw [copyUp, ih (by omega), update_of_ne (by omega)]

theorem copyUp_reads (n : ℕ) (h : s < d) {i : ℕ} (hi : i < n) :
    copyUp d s n m (d+i) = copyUp d s n m (s+i) := by
  induction n generalizing d s m i with
  | zero => omega
  | succ n ih =>
    cases i with
    | zero =>
      rw [copyUp, copyUp_outside n (by omega), copyUp_outside n (by omega), Nat.add_zero,
        Nat.add_zero, update_self, update_of_ne (by omega)]
    | succ i =>
      have := ih (m := update m d (m s)) (show s+1 < d+1 by omega) (Nat.lt_of_succ_lt_succ hi)
      rwa [show d+1+i = d+(i+1) by omega, show s+1+i = s+(i+1) by omega] at this

theorem copyUp_moved (n : ℕ) (h : d ≤ s ∨ s+n ≤ d) : copyUp d s n m = moved d s n m := by
  induction n generalizing d s m with
  | zero =>
    ext1 a
    rw [moved, if_neg (by omega)]
    rfl
  | succ n ih =>
    rw [copyUp, ih (by omega)]
    ext1 a
    simp only [moved]
    by_cases ha : d+1 ≤ a ∧ a < d+1+n
    · rw [if_pos ha, if_pos (by omega), update_of_ne (by omega)]
      congr 1
      omega
    rw [if_neg ha]
    by_cases e : a = d
    · rw [e, update_self, if_pos (by omega), Nat.sub_self, Nat.add_zero]
    · rw [update_of_ne e, if_neg (by omega)]

theorem kernelMemmove_moved (dst src n : ℕ) (m : Memory) :
    kernelMemmove dst src n m = moved dst src n m := by
  unfold kernelMemmove
  split
  · rename_i h
    exact copyDown_moved h.1 n m
  · exact copyUp_moved n (by omega)

theorem userMemmove_moved_iff (dst src n : ℕ) (m : Memory) :
    userMemmove dst src n m = moved dst src n m ↔
      (src < dst → ∀ i, dst+i < src+n → m (dst+i) = m (src+i)) := by
  unfold userMemmove
  by_cases h : src < dst
  swap
  · exact iff_of_true (copyUp_moved n (by omega)) (fun hc => absurd hc h)
  have hread : ∀ {i}, i < n → copyUp dst src n m (dst+i) = copyUp dst src n m (src+i) :=
    fun hi => copyUp_reads n h hi
  constructor
  · intro he _ i hi
    have h1 := hread (show dst-src+i < n by omega)
    rw [show src+(dst-src+i) = dst+i by omega, he, moved, moved, if_pos (by omega),
      if_pos (by omega)] at h1
    rwa [show src+(dst+(dst-src+i)-dst) = dst+i by omega, Nat.add_sub_cancel_left] at h1
  intro hp
  have hall : ∀ i, i < n → copyUp dst src n m (dst+i) = m (src+i) := by
    intro i
    induction i using Nat.strong_induction_on with
    | h i ih =>
      intro hi
      rw [hread hi]
      by_cases hlow : src+i < dst
      · exact copyUp_outside n (by omega)
      -- the byte was written `dst-src` rounds before
      have h1 := ih (i-(dst-src)) (by omega) (by omega)
      have h2 := hp h (i-(dst-src)) (by omega)
      rw [show dst+(i-(dst-src)) = src+i by omega] at h1 h2
      rw [h1, h2]
  ext1 a
  by_cases ha : dst ≤ a ∧ a < dst+n
  · rw [moved, if_pos ha, ← hall (a-dst) (by omega), Nat.add_sub_cancel' ha.1]
  · rw [moved, if_neg ha, copyUp_outside n ha]

/-- The two versions leave the same memory, with the old bytes of the source at the
destination, if and only if the bytes of the source repeat from the destination on. -/
theorem memmove_agree_iff (dst src n : ℕ) (m : Memory) :
    (userMemmove dst src n m = kernelMemmove dst src n m ∧
      kernelMemmove dst src n m = moved dst src n m) ↔
    (src < dst → ∀ i, dst+i < src+n → m (dst+i) = m (src+i)) := by
  rw [kernelMemmove_moved, ← userMemmove_moved_iff]
  exact and_iff_left rfl

/-- Two bytes are moved up by one. -/
theorem memmove_overlap_differs : userMemmove 1 0 2 (fun a => BitVec.ofNat 8 a) 2 = 0 ∧
      kernelMemmove 1 0 2 (fun a => BitVec.ofNat 8 a) 2 = 1 := by
  decide

end Yeet.Memmove
