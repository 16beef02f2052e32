import YeetKernel.Kernel
import Mathlib.Data.List.TakeWhile

/-!
# The chmod command

`chmod` reads its mode twice: as a decimal number, which it compares with the
decimal number 1777, and as an octal number, which it passes to the system call.
Both readings skip blanks, take a sign and end at the first other character, and
both count modulo `2^32`.
-/

namespace Yeet.Chmod
open Kernel Bytes

abbrev CString := List Byte

def blank : Byte := 0x20

def plus : Byte := 0x2b

def minus : Byte := 0x2d

def digit (top c : Byte) : Bool := 0x30 ≤ c && c ≤ top

/-- The loop `n = n*base + *s++ - '0'` of `atoi` and `atoo`. -/
def numeral (base : ℕ) (top : Byte) : Uint → CString → Uint
  | n, [] => n
  | n, c::s =>
    if digit top c then numeral base top (n*BitVec.ofNat 32 base+BitVec.ofNat 32 c.toNat-0x30) s
    else n

def sign (s : CString) : ℤ := if s.head? = some minus then -1 else 1

def afterSign (s : CString) : CString :=
  if s.head? = some plus ∨ s.head? = some minus then s.tail else s

def ato (base : ℕ) (top : Byte) (s : CString) : Uint :=
  BitVec.ofInt 32 (sign (s.dropWhile (· = blank)))*
    numeral base top 0 (afterSign (s.dropWhile (· = blank)))

def atoi (s : CString) : Uint := ato 10 0x39 s

def atoo (s : CString) : Uint := ato 8 0x37 s

inductive Act where
  | printf (fd : ℕ) (text : String)
  | chmod (path : CString) (mode : Uint)
  deriving DecidableEq

/-- What the program does before it exits, with the results of the system call. -/
def main (rc : CString → Uint → ℤ) : List CString → List Act
  | [_,s,path] =>
    if 1777 < (atoi s).toInt ∨ (atoi s).toInt < 0 then
      [.printf 1 "chmod - mode should be inbetween 0000 and 1777\n"]
    else
      .chmod path (atoo s)::
        (if rc path (atoo s) < 0 then [.printf 1 "chmod - chmod failed\n"] else [])
  | _ => [.printf 1 "chmod - usage 'chmod mode path'\n"]

def value (base : ℕ) (l : CString) : ℕ := l.foldl (fun n c => n*base+(c.toNat-0x30)) 0

def reading (base : ℕ) (top : Byte) (s : CString) : ℤ :=
  sign (s.dropWhile (· = blank))*
    value base ((afterSign (s.dropWhile (· = blank))).takeWhile (digit top))

def OctalMode (s : CString) : Prop := s ≠ [] ∧ s.all (digit 0x37) = true ∧ value 8 s ≤ 0o1777

def ExactlyOctal (s : CString) : Prop :=
  ∀ rc name path p mode, .chmod p mode ∈ main rc [name,s,path] ↔
    p = path ∧ OctalMode s ∧ mode = BitVec.ofNat 32 (value 8 s)

variable {base : ℕ} {top c : Byte} {s : CString}

theorem digit_ge (h : digit top c = true) : 0x30 ≤ c.toNat := by
  simp only [digit, Bool.and_eq_true, decide_eq_true_eq] at h
  exact h.1

theorem numeral_eq (base : ℕ) (top : Byte) (n : ℕ) (s : CString) :
    numeral base top (BitVec.ofNat 32 n) s = BitVec.ofNat 32
      ((s.takeWhile (digit top)).foldl (fun n c => n*base+(c.toNat-0x30)) n) := by
  induction s generalizing n with
  | nil => rfl
  | cons c s ih =>
    rw [numeral]
    by_cases hc : digit top c = true
    · have hstep : BitVec.ofNat 32 n*BitVec.ofNat 32 base+BitVec.ofNat 32 c.toNat-0x30 =
          BitVec.ofNat 32 (n*base+(c.toNat-0x30)) := by
        obtain ⟨k,hk⟩ := Nat.exists_eq_add_of_le (digit_ge hc)
        rw [hk, Nat.add_sub_cancel_left, BitVec.ofNat_add, BitVec.ofNat_add, BitVec.ofNat_mul,
          add_left_comm]
        exact add_sub_cancel_left _ _
      rw [if_pos hc, hstep, ih, List.takeWhile_cons_of_pos hc, List.foldl_cons]
    · rw [if_neg hc, List.takeWhile_cons_of_neg hc]
      rfl

theorem ato_eq (base : ℕ) (top : Byte) (s : CString) :
    ato base top s = BitVec.ofInt 32 (reading base top s) := by
  have h := numeral_eq base top 0 (afterSign (s.dropWhile (· = blank)))
  rw [ato, reading, value, BitVec.ofInt_mul, BitVec.ofInt_natCast, ← h]
  rfl

theorem passes_iff : ¬ (1777 < (atoi s).toInt ∨ (atoi s).toInt < 0) ↔
    reading 10 0x39 s%2^32 ≤ 1777 := by
  have h : ((atoi s).toNat : ℤ) = reading 10 0x39 s%2^32 := by
    rw [atoi, ato_eq, BitVec.toNat_ofInt]
    omega
  have hlt := (atoi s).isLt
  rw [BitVec.toInt_eq_toNat_cond]
  split <;> omega

theorem value_ten {l : CString} (hl : ∀ c ∈ l, digit 0x37 c = true) (h : value 8 l < 4096) :
    value 10 l = value 8 l%8+10*(value 8 l/8%8)+100*(value 8 l/64%8)+1000*(value 8 l/512) := by
  induction l using List.reverseRecOn with
  | nil => rfl
  | append_singleton l c ih =>
    have hc := hl c (by simp)
    simp only [digit, Bool.and_eq_true, decide_eq_true_eq] at hc
    have h1 : 0x30 ≤ c.toNat := hc.1
    have h2 : c.toNat ≤ 0x37 := hc.2
    have hv : ∀ b, value b (l++[c]) = value b l*b+(c.toNat-0x30) := by simp [value]
    rw [hv] at h ⊢
    rw [hv, ih (fun c hc => hl c (by simp [hc])) (by omega)]
    omega

theorem OctalMode.reading (h : OctalMode s) (hb : 0x37 ≤ top) :
    Chmod.reading base top s = value base s := by
  obtain ⟨hne,hall,-⟩ := h
  cases s with
  | nil => exact absurd rfl hne
  | cons c s =>
    have hd : ∀ x ∈ c::s, digit top x = true := by
      intro x hx
      have := List.all_eq_true.mp hall x hx
      simp only [digit, Bool.and_eq_true, decide_eq_true_eq] at this ⊢
      exact ⟨this.1,BitVec.le_trans this.2 hb⟩
    have hc := digit_ge (hd c List.mem_cons_self)
    have hbl : c ≠ blank := fun e => by subst e; revert hc; decide
    have hpl : c ≠ plus := fun e => by subst e; revert hc; decide
    have hmi : c ≠ minus := fun e => by subst e; revert hc; decide
    rw [Chmod.reading, List.dropWhile_cons_of_neg (by simpa using hbl)]
    simp only [sign, afterSign, List.head?_cons, Option.some.injEq, hpl, hmi, or_self, if_false]
    rw [List.takeWhile_eq_self_iff.mpr hd, one_mul]

theorem OctalMode.small (h : OctalMode s) : value 10 s ≤ 1777 := by
  obtain ⟨-,hall,hv⟩ := h
  rw [value_ten (List.all_eq_true.mp hall) (by omega)]
  omega

/-- The command accepts exactly octal modes if and only if the string is one, or its
decimal reading is above 1777 modulo `2^32`. -/
theorem chmod_octal_iff (s : CString) :
    ExactlyOctal s ↔ OctalMode s ∨ 1777 < reading 10 0x39 s%2^32 := by
  constructor
  · intro h
    by_cases hp : reading 10 0x39 s%2^32 ≤ 1777
    · have hm : Act.chmod [] (atoo s) ∈ main (fun _ _ => 0) [[],s,[]] := by
        rw [main, if_neg (passes_iff.mpr hp)]
        exact List.mem_cons_self
      exact Or.inl ((h _ _ _ _ _).mp hm).2.1
    · exact Or.inr (by omega)
  intro h rc name path p mode
  rw [main]
  by_cases ho : OctalMode s
  · have hp : reading 10 0x39 s%2^32 ≤ 1777 := by
      have := ho.small
      rw [ho.reading (by decide)]
      omega
    rw [if_neg (passes_iff.mpr hp), atoo, ato_eq, ho.reading (by decide), BitVec.ofInt_natCast]
    split <;> simp [ho]
  · rw [if_pos (not_not.mp (mt passes_iff.mp (by have := h.resolve_left ho; omega)))]
    simp [ho]

/-- `chmod 8 f` sets the mode 0. -/
theorem chmod_takes_eight : ¬ OctalMode [0x38] ∧
    main (fun _ _ => 0) [[],[0x38],[0x66]] = [.chmod [0x66] 0] := by
  refine ⟨fun h => ?_,by decide⟩
  have := h.2.1
  revert this
  decide

end Yeet.Chmod
