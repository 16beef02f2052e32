import YeetKernel.Kernel

/-!
# The MP configuration table

`mpinit` goes through the entries of a table that the firmware has left in memory.
The size of an entry follows from its type; an entry of a type that is not known
is reported and not passed over.
-/

namespace Yeet.MpTable
open Kernel Bytes Function

def MPPROC : Byte := 0

def MPBUS : Byte := 1

def MPIOAPIC : Byte := 2

def MPIOINTR : Byte := 3

def MPLINTR : Byte := 4

def MPBOOT : Byte := 2

def confSize : ℕ := 44

def procSize : ℕ := 20

/-- `sizeof(struct mpioapic)`, and the size of the other entries. -/
def entrySize : ℕ := 8

abbrev Memory := ℕ → Byte

def tableLength (m : Memory) (conf : ℕ) : ℕ := (m (conf+4)).toNat+256*(m (conf+5)).toNat

def sum (m : Memory) (addr len : ℕ) : ℕ := ((List.range len).map (fun i => (m (addr+i)).toNat)).sum%256

/-- The tests of `mpconfig` on the table at `conf`. -/
def mpconfig (m : Memory) (conf : ℕ) : Bool :=
  (List.range 4).map (fun i => m (conf+i)) = [0x50,0x43,0x4d,0x50] &&
    (m (conf+6) = 1 || m (conf+6) = 4) && sum m conf (tableLength m conf) = 0

/-- The variables that the loop changes; `cpus` has the field `id` of each entry. -/
structure Found where
  ismp : Bool
  ncpu : ℕ
  bcpu : ℕ
  ioapicid : Byte
  cpus : Fin NCPU → ℕ

/-- One round of the loop of `mpinit` with the pointer `p`. -/
def round (m : Memory) (p : ℕ) (s : Found) : Except Fault (ℕ × Found) :=
  if m p = MPPROC then
    if h : s.ncpu < NCPU then
      .ok (p+procSize,{ s with
        ismp := s.ismp && s.ncpu = (m (p+1)).toNat
        bcpu := if m (p+3) &&& MPBOOT ≠ 0 then s.ncpu else s.bcpu
        cpus := update s.cpus ⟨s.ncpu,h⟩ s.ncpu
        ncpu := s.ncpu+1 })
    else .error .outOfBounds
  else if m p = MPIOAPIC then .ok (p+entrySize,{ s with ioapicid := m (p+1) })
  else if m p = MPBUS ∨ m p = MPIOINTR ∨ m p = MPLINTR then .ok (p+entrySize,s)
  else .ok (p,{ s with ismp := false })

/-- The loop `for(p = ...; p < e; )`, for at most `n` rounds. -/
def scan (m : Memory) (e : ℕ) : ℕ → ℕ → Found → Option (Except Fault Found)
  | n, p, s =>
    if p < e then
      match n with
      | 0 => none
      | n+1 =>
        match round m p s with
        | .error f => some (.error f)
        | .ok (p,s) => scan m e n p s
    else some (.ok s)

def start : Found := ⟨true,0,0,0,fun _ => 0⟩

/-- The loop over the table at `conf` ends and has written no entry outside `cpus`. -/
def ScansSafely (m : Memory) (conf : ℕ) : Prop :=
  ∃ n s, scan m (conf+tableLength m conf) n (conf+confSize) start = some (.ok s)

/-- From `p` to `e` all entries are of known types, and `k` of them are processors. The last one
may be cut off. -/
inductive Entries (m : Memory) (e : ℕ) : ℕ → ℕ → Prop where
  | nil {p : ℕ} (h : e ≤ p) : Entries m e p 0
  | proc {p k : ℕ} (h : p < e) (ht : m p = MPPROC) (rest : Entries m e (p+procSize) k) :
      Entries m e p (k+1)
  | other {p k : ℕ} (h : p < e) (ht : m p = MPBUS ∨ m p = MPIOAPIC ∨ m p = MPIOINTR ∨ m p = MPLINTR)
      (rest : Entries m e (p+entrySize) k) : Entries m e p k

variable {m : Memory} {e p : ℕ}

theorem round_proc {s : Found} (ht : m p = MPPROC) (h : s.ncpu < NCPU) :
    ∃ s', round m p s = .ok (p+procSize,s') ∧ s'.ncpu = s.ncpu+1 := by
  rw [round, if_pos ht, dif_pos h]
  exact ⟨_,rfl,rfl⟩

theorem round_other (s : Found)
    (ht : m p = MPBUS ∨ m p = MPIOAPIC ∨ m p = MPIOINTR ∨ m p = MPLINTR) :
    ∃ s', round m p s = .ok (p+entrySize,s') ∧ s'.ncpu = s.ncpu := by
  rcases ht with ht | ht | ht | ht <;> rw [round, ht] <;> exact ⟨_,rfl,rfl⟩

theorem Entries.scans {p k : ℕ} (h : Entries m e p k) (s : Found) (hk : s.ncpu+k ≤ NCPU) :
    ∃ n s', scan m e n p s = some (.ok s') := by
  induction h generalizing s with
  | nil h => exact ⟨0,s,by rw [scan, if_neg (by omega)]⟩
  | proc h ht _ ih =>
    obtain ⟨s₁,hr,hn⟩ := round_proc (s := s) ht (by omega)
    obtain ⟨n,s',hs⟩ := ih s₁ (by omega)
    exact ⟨n+1,s',by rw [scan, if_pos h]; simp only [hr, hs]⟩
  | other h ht _ ih =>
    obtain ⟨s₁,hr,hn⟩ := round_other s ht
    obtain ⟨n,s',hs⟩ := ih s₁ (by omega)
    exact ⟨n+1,s',by rw [scan, if_pos h]; simp only [hr, hs]⟩

theorem scan_entries {n p : ℕ} {s s' : Found} (h : scan m e n p s = some (.ok s'))
    (hn : s.ncpu ≤ NCPU) : ∃ k, Entries m e p k ∧ s.ncpu+k ≤ NCPU := by
  induction n generalizing p s with
  | zero =>
    by_cases hp : p < e
    · rw [scan, if_pos hp] at h
      cases h
    · exact ⟨0,.nil (by omega),hn⟩
  | succ n ih =>
    by_cases hp : p < e
    swap
    · exact ⟨0,.nil (by omega),hn⟩
    rw [scan, if_pos hp] at h
    by_cases hproc : m p = MPPROC
    · by_cases hlt : s.ncpu < NCPU
      · obtain ⟨s₁,hr,h1⟩ := round_proc hproc hlt
        simp only [hr] at h
        obtain ⟨k,hk,hle⟩ := ih h (by omega)
        exact ⟨k+1,.proc hp hproc hk,by omega⟩
      · have hr : round m p s = .error .outOfBounds := by rw [round, if_pos hproc, dif_neg hlt]
        simp only [hr] at h
        cases h
    by_cases hother : m p = MPBUS ∨ m p = MPIOAPIC ∨ m p = MPIOINTR ∨ m p = MPLINTR
    · obtain ⟨s₁,hr,h1⟩ := round_other s hother
      simp only [hr] at h
      obtain ⟨k,hk,hle⟩ := ih h (by omega)
      exact ⟨k,.other hp hother hk,by omega⟩
    -- the pointer stays at the entry
    have hr : round m p s = .ok (p,{ s with ismp := false }) := by
      rw [round, if_neg hproc, if_neg (by tauto), if_neg (by tauto)]
    simp only [hr] at h
    obtain ⟨k,hk,hle⟩ := ih h hn
    exact ⟨k,hk,hle⟩

/-- For every table: the loop of `mpinit` ends and stays inside `cpus` if and only if all
entries are of known types and at most `NCPU` of them are processors. -/
theorem mpinit_scans_iff (m : Memory) (conf : ℕ) : ScansSafely m conf ↔
    ∃ k ≤ NCPU, Entries m (conf+tableLength m conf) (conf+confSize) k := by
  constructor
  · rintro ⟨n,s,h⟩
    obtain ⟨k,hk,hle⟩ := scan_entries h (Nat.zero_le _)
    exact ⟨k,by simpa [start] using hle,hk⟩
  · rintro ⟨k,hle,hk⟩
    exact hk.scans start (by simpa [start] using hle)

def unknownEntry : Memory := fun a =>
  ([0x50,0x43,0x4d,0x50,45,0,1,157] : List Byte).getD (a-0x800f0000)
    (if a = 0x800f0000+confSize then 5 else 0)

theorem unknownEntry_spins : mpconfig unknownEntry 0x800f0000 = true ∧
    ∀ n, scan unknownEntry (0x800f0000+tableLength unknownEntry 0x800f0000) n
      (0x800f0000+confSize) start = none := by
  refine ⟨by decide +kernel,fun n => ?_⟩
  have hend : 0x800f0000+confSize < 0x800f0000+tableLength unknownEntry 0x800f0000 := by
    decide +kernel
  have hround (s : Found) : round unknownEntry (0x800f0000+confSize) s =
      .ok (0x800f0000+confSize,{ s with ismp := false }) := rfl
  generalize start = s
  induction n generalizing s with
  | zero => rw [scan, if_pos hend]
  | succ n ih =>
    rw [scan, if_pos hend]
    simp only [hround]
    exact ih _

end Yeet.MpTable
