import Mathlib.Data.BitVec

/-!
# Ring buffers with counters that wrap

A ring of `c` cells is driven by two counters of `w` bits that are only ever
incremented; a counter modulo `c` is an index. If `c` divides `2^w`, the ring
is a bounded queue, however often the counters wrap.
-/

namespace Yeet.RingBuffer
open Function

structure Ring (w c : ℕ) (α : Type) where
  data : Fin c → α
  nread : BitVec w
  nwrite : BitVec w

variable {w c : ℕ} {α : Type} [NeZero c] {b : Ring w c α}

def slot (n : BitVec w) : Fin c := Fin.ofNat c n.toNat

def Ring.store (b : Ring w c α) (x : α) : Ring w c α :=
  { b with data := update b.data (slot b.nwrite) x, nwrite := b.nwrite+1 }

def Ring.front (b : Ring w c α) : α := b.data (slot b.nread)

def Ring.take (b : Ring w c α) : Ring w c α := { b with nread := b.nread+1 }

/-- Undoes a store, except that the cell keeps its value. -/
def Ring.unstore (b : Ring w c α) : Ring w c α := { b with nwrite := b.nwrite-1 }

def Ring.back (b : Ring w c α) : α := b.data (slot (b.nwrite-1))

def Ring.count (b : Ring w c α) : ℕ := (b.nwrite-b.nread).toNat

/-- The cells between the counters, oldest first. -/
def Ring.contents (b : Ring w c α) : List α :=
  (List.range b.count).map (fun k => b.data (slot (b.nread+BitVec.ofNat w k)))

omit [NeZero c] in
theorem count_eq {b : Ring w c α} {n : ℕ} (hn : n < 2^w) :
    b.count = n ↔ b.nwrite = b.nread+BitVec.ofNat w n := by
  have h : b.nwrite-b.nread = BitVec.ofNat w n ↔ b.nwrite = b.nread+BitVec.ofNat w n := by
    constructor
    · intro h
      rw [← h]
      exact (add_sub_cancel _ _).symm
    · intro h
      rw [h]
      exact add_sub_cancel_left _ _
  rw [← h, ← BitVec.toNat_inj, BitVec.toNat_ofNat, Nat.mod_eq_of_lt hn]
  rfl

omit [NeZero c] in
theorem nwrite_eq (b : Ring w c α) : b.nwrite = b.nread+BitVec.ofNat w b.count :=
  (count_eq (b.nwrite-b.nread).isLt).mp rfl

omit [NeZero c] in
theorem count_eq_zero (b : Ring w c α) : b.count = 0 ↔ b.nread = b.nwrite := by
  rw [count_eq (Nat.two_pow_pos w), BitVec.add_zero, eq_comm]

theorem length_contents (b : Ring w c α) : b.contents.length = b.count := by
  simp [Ring.contents]

theorem contents_eq_nil (b : Ring w c α) : b.contents = [] ↔ b.nread = b.nwrite := by
  rw [← List.length_eq_zero_iff, length_contents, count_eq_zero]

theorem count_store (x : α) (hb : b.count+1 < 2^w) : (b.store x).count = b.count+1 := by
  refine (count_eq hb).mpr ?_
  show b.nwrite+1 = b.nread+BitVec.ofNat w (b.count+1)
  rw [BitVec.ofNat_add, ← add_assoc, ← nwrite_eq]
  rfl

omit [NeZero c] in
theorem count_take {b : Ring w c α} (hb : 0 < b.count) : b.take.count+1 = b.count := by
  have hlt : b.count < 2^w := (b.nwrite-b.nread).isLt
  obtain ⟨n,hn⟩ : ∃ n, b.count = n+1 := ⟨b.count-1,by omega⟩
  have h : b.nwrite = b.nread+1+BitVec.ofNat w n := by
    rw [nwrite_eq b, hn, Nat.add_comm n 1, BitVec.ofNat_add, add_assoc]
    rfl
  have ht : b.take.count = n := (count_eq (by omega)).mpr h
  rw [ht, hn]

section Index

variable (hd : c ∣ 2^w)

include hd

theorem slot_add (n : BitVec w) (k : ℕ) :
    (slot (n+BitVec.ofNat w k) : Fin c).val = (n.toNat+k)%c := by
  simp only [slot, Fin.ofNat, BitVec.toNat_add, BitVec.toNat_ofNat]
  rw [Nat.add_mod_mod, Nat.mod_mod_of_dvd _ hd]

theorem slot_ne (n : BitVec w) {i k : ℕ} (hik : i < k) (hk : k < c) :
    (slot (n+BitVec.ofNat w i) : Fin c) ≠ slot (n+BitVec.ofNat w k) := by
  intro h
  have hv := congrArg Fin.val h
  rw [slot_add hd, slot_add hd] at hv
  have h1 : (n.toNat+k-(n.toNat+i))%c = 0 := Nat.sub_mod_eq_zero_of_mod_eq hv.symm
  have h2 : n.toNat+k-(n.toNat+i) = k-i := by omega
  rw [h2, Nat.mod_eq_of_lt (by omega)] at h1
  omega

theorem contents_store {b : Ring w c α} (x : α) (hb : b.count < c) (hc : c < 2^w) :
    (b.store x).contents = b.contents++[x] := by
  unfold Ring.contents
  rw [count_store x (by omega), List.range_succ, List.map_append, List.map_singleton]
  congr 1
  · refine List.map_congr_left (fun k hk => ?_)
    rw [List.mem_range] at hk
    have hne := slot_ne (c := c) hd b.nread hk hb
    rw [← nwrite_eq] at hne
    exact update_of_ne hne _ _
  · show [update b.data (slot b.nwrite) x (slot (b.nread+BitVec.ofNat w b.count))] = [x]
    rw [← nwrite_eq, update_self]

end Index

/-- A take removes the front of the contents. -/
theorem contents_take (hb : 0 < b.count) : b.contents = b.front::b.take.contents := by
  unfold Ring.contents
  rw [← count_take hb, List.range_succ_eq_map, List.map_cons, List.map_map]
  congr 1
  · simp [Ring.front]
  refine List.map_congr_left (fun k _ => ?_)
  simp only [Function.comp, Ring.take]
  rw [Nat.succ_eq_one_add, BitVec.ofNat_add, ← add_assoc]
  rfl

theorem contents_unstore (hb : 0 < b.count) : b.contents = b.unstore.contents++[b.back] := by
  obtain ⟨n,hn⟩ : ∃ n, b.count = n+1 := ⟨b.count-1,by omega⟩
  have hlt : b.count < 2^w := (b.nwrite-b.nread).isLt
  have hw : b.nwrite-1 = b.nread+BitVec.ofNat w n := by
    rw [nwrite_eq b, hn, BitVec.ofNat_add, ← add_assoc]
    exact add_sub_cancel_right _ _
  have hu : b.unstore.count = n := (count_eq (by omega)).mpr hw
  unfold Ring.contents
  rw [hu, hn, List.range_succ, List.map_append, List.map_singleton, Ring.back, hw]
  rfl

end Yeet.RingBuffer
