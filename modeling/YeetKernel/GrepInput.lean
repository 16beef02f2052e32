import YeetKernel.Grep
import Mathlib.Data.List.Lemmas

/-!
# How the input of grep arrives

`grep` reads into a buffer and looks for whole lines in it. What is left of a line is
moved to the front for the next read, but not if the buffer had no whole line at all:
then everything is dropped.
-/

namespace Yeet.Grep
open Bytes

/-- `strchr(p, '\n')`: what is before and behind the newline. -/
def strchr : List Byte → Option (List Byte × List Byte)
  | [] => none
  | b::l =>
    if b = 0 then none
    else if b = 10 then some ([],l)
    else (strchr l).map (fun x => (b::x.1,x.2))

/-- The inner loop: what is written, and `p` at its end. -/
def grepLines (pattern : List Byte) : ℕ → List Byte → List Byte × List Byte
  | 0, p => ([],p)
  | n+1, p =>
    match strchr p with
    | none => ([],p)
    | some (line,rest) =>
      ((if matchRe pattern line then line++[10] else [])++(grepLines pattern n rest).1,
        (grepLines pattern n rest).2)

abbrev Read := {r : List Byte // r ≠ []}

/-- The outer loop; `m` is what is in the buffer. -/
def grepLoop (pattern : List Byte) : List Read → List Byte → List Byte
  | [], _ => []
  | r::reads, m =>
    let buf := m++r.1
    let p := (grepLines pattern buf.length buf).2
    (grepLines pattern buf.length buf).1++
      grepLoop pattern reads (if p.length = buf.length then [] else p)

def grep (pattern : List Byte) (reads : List Read) : List Byte := grepLoop pattern reads []

def input (reads : List Read) : List Byte := (reads.map Subtype.val).flatten

def cut : List Byte → List (List Byte) × List Byte
  | [] => ([],[])
  | b::l =>
    if b = 10 then ([]::(cut l).1,(cut l).2)
    else match (cut l).1 with
      | [] => ([],b::(cut l).2)
      | x::ls => ((b::x)::ls,(cut l).2)

def shown (pattern : List Byte) (ls : List (List Byte)) : List Byte :=
  (ls.filter (matchRe pattern)).flatMap (fun x => x++[10])

def matching (pattern l : List Byte) : List Byte := shown pattern (cut l).1

/-- No read without a newline comes before one with a newline. -/
def Whole : List Read → Prop
  | [] => True
  | r::reads => (10 ∈ r.1 ∨ 10 ∉ input reads) ∧ Whole reads

section Lines

theorem cut_none {l : List Byte} (h : 10 ∉ l) : cut l = ([],l) := by
  induction l with
  | nil => rfl
  | cons b l ih =>
    rw [List.mem_cons, not_or] at h
    rw [cut, if_neg (fun e => h.1 e.symm), ih h.2]

theorem cut_line {x : List Byte} (h : 10 ∉ x) (r : List Byte) :
    cut (x++10::r) = (x::(cut r).1,(cut r).2) := by
  induction x with
  | nil => rw [List.nil_append, cut, if_pos rfl]
  | cons b x ih =>
    rw [List.mem_cons, not_or] at h
    rw [List.cons_append, cut, if_neg (fun e => h.1 e.symm), ih h.2]

theorem cut_rule {P : List Byte → Prop} (h0 : ∀ l, 10 ∉ l → P l)
    (h1 : ∀ x r, 10 ∉ x → P r → P (x++10::r)) (l : List Byte) : P l := by
  induction hn : l.length using Nat.strong_induction_on generalizing l with
  | _ n ih =>
    by_cases h : 10 ∈ l
    · obtain ⟨x,r,rfl,hx⟩ := List.eq_append_cons_of_mem h
      refine h1 x r hx (ih r.length ?_ r rfl)
      rw [← hn, List.length_append, List.length_cons]
      omega
    · exact h0 l h

theorem cut_append (w v : List Byte) :
    cut (w++v) = ((cut w).1++(cut ((cut w).2++v)).1,(cut ((cut w).2++v)).2) := by
  induction w using cut_rule with
  | h0 l h => rw [cut_none h, List.nil_append]
  | h1 x r h ih =>
    rw [List.append_assoc, List.cons_append, cut_line h, cut_line h, ih]
    rfl

theorem cut_tail (l : List Byte) : 10 ∉ (cut l).2 := by
  induction l using cut_rule with
  | h0 l h =>
    rw [cut_none h]
    exact h
  | h1 x r h ih =>
    rw [cut_line h]
    exact ih

theorem cut_tail_le (l : List Byte) : (cut l).2.length ≤ l.length := by
  induction l using cut_rule with
  | h0 l h => rw [cut_none h]
  | h1 x r h ih =>
    rw [cut_line h, List.length_append, List.length_cons]
    simp only
    omega

theorem cut_length (l : List Byte) : (cut l).2.length = l.length ↔ 10 ∉ l := by
  induction l using cut_rule with
  | h0 l h =>
    rw [cut_none h]
    exact iff_of_true rfl h
  | h1 x r h ih =>
    have hle := cut_tail_le r
    have hmem : (10 : Byte) ∈ x++10::r := List.mem_append_right x List.mem_cons_self
    rw [cut_line h, List.length_append, List.length_cons]
    exact iff_of_false (by simp only; omega) (not_not_intro hmem)

theorem shown_append (pattern : List Byte) (ls ls' : List (List Byte)) :
    shown pattern (ls++ls') = shown pattern ls++shown pattern ls' := by
  simp [shown]

theorem strchr_none {l : List Byte} (h : 10 ∉ l) : strchr l = none := by
  induction l with
  | nil => rfl
  | cons b l ih =>
    rw [List.mem_cons, not_or] at h
    rw [strchr, if_neg (fun e : b = 10 => h.1 e.symm), ih h.2]
    simp

theorem strchr_line {x : List Byte} (h : 10 ∉ x) (h0 : 0 ∉ x) (r : List Byte) :
    strchr (x++10::r) = some (x,r) := by
  induction x with
  | nil => rw [List.nil_append, strchr, if_neg (by decide), if_pos rfl]
  | cons b x ih =>
    rw [List.mem_cons, not_or] at h h0
    rw [List.cons_append, strchr, if_neg (fun e => h0.1 e.symm), if_neg (fun e => h.1 e.symm),
      ih h.2 h0.2]
    rfl

theorem strchr_no_nul {p x r : List Byte} (h : strchr p = some (x,r)) : 0 ∉ x := by
  induction p generalizing x with
  | nil => cases h
  | cons b l ih =>
    rw [strchr] at h
    split at h
    · cases h
    rename_i hb
    split at h
    · cases h
      simp
    obtain ⟨y,hy,he⟩ := Option.map_eq_some_iff.mp h
    cases he
    rw [List.mem_cons, not_or]
    exact ⟨fun e => hb e.symm,ih hy⟩

end Lines

section Loop

variable (pattern : List Byte) {m : List Byte} {reads : List Read}

theorem grepLines_eq {p : List Byte} (h : ∀ x ∈ (cut p).1, 0 ∉ x) {n : ℕ} (hn : p.length ≤ n) :
    grepLines pattern n p = (shown pattern (cut p).1,(cut p).2) := by
  induction p using cut_rule generalizing n with
  | h0 l hl =>
    rw [cut_none hl]
    cases n with
    | zero => rfl
    | succ n => rw [grepLines, strchr_none hl]; rfl
  | h1 x r hx ih =>
    rw [cut_line hx] at h ⊢
    rw [List.length_append, List.length_cons] at hn
    obtain ⟨n,rfl⟩ : ∃ k, n = k+1 := ⟨n-1,by omega⟩
    rw [grepLines, strchr_line hx (h x List.mem_cons_self)]
    simp only
    rw [ih (fun y hy => h y (List.mem_cons_of_mem x hy)) (by omega)]
    by_cases hm : matchRe pattern x = true
    · simp [shown, hm]
    · simp [shown, hm]

theorem grepLines_no_nul (n : ℕ) (p : List Byte) : 0 ∉ (grepLines pattern n p).1 := by
  induction n generalizing p with
  | zero => simp [grepLines]
  | succ n ih =>
    rw [grepLines]
    split
    · simp
    rename_i x r hp
    have h0 := strchr_no_nul hp
    rw [List.mem_append, not_or]
    refine ⟨?_,ih r⟩
    split
    · rw [List.mem_append, not_or]
      exact ⟨h0,by decide⟩
    · simp

theorem grepLoop_no_nul (reads : List Read) (m : List Byte) : 0 ∉ grepLoop pattern reads m := by
  induction reads generalizing m with
  | nil => simp [grepLoop]
  | cons r reads ih =>
    rw [grepLoop, List.mem_append, not_or]
    exact ⟨grepLines_no_nul pattern _ _,ih _⟩

theorem input_cons (r : Read) (reads : List Read) : input (r::reads) = r.1++input reads := by
  simp [input]

theorem grepLoop_cons (reads : List Read) {r : Read} (h : ∀ x ∈ (cut (m++r.1)).1, 0 ∉ x) :
    grepLoop pattern (r::reads) m = shown pattern (cut (m++r.1)).1++
      grepLoop pattern reads (if 10 ∈ m++r.1 then (cut (m++r.1)).2 else []) := by
  have hlen := cut_length (m++r.1)
  rw [grepLoop, grepLines_eq pattern h (Nat.le_refl _)]
  by_cases hn : 10 ∈ m++r.1
  · rw [if_pos hn, if_neg (fun e => hlen.mp e hn)]
  · rw [if_neg hn, if_pos (hlen.mpr hn)]

theorem cut_buffer (m : List Byte) (r : Read) (reads : List Read) : (cut (m++input (r::reads))).1 =
      (cut (m++r.1)).1++(cut ((cut (m++r.1)).2++input reads)).1 := by
  rw [input_cons, ← List.append_assoc, cut_append]

theorem grepLoop_whole (hm : 10 ∉ m) (hw : Whole reads)
    (h : ∀ x ∈ (cut (m++input reads)).1, 0 ∉ x) :
    grepLoop pattern reads m = matching pattern (m++input reads) := by
  induction reads generalizing m with
  | nil => simp [grepLoop, matching, input, cut_none hm, shown]
  | cons r reads ih =>
    rw [cut_buffer] at h
    have hbuf := grepLoop_cons pattern reads (fun x hx => h x (List.mem_append_left _ hx))
    rw [hbuf, matching, cut_buffer, shown_append]
    congr 1
    rcases hw with ⟨hr | hr,hw⟩
    · rw [if_pos (List.mem_append_right m hr)]
      exact ih (cut_tail _) hw (fun x hx => h x (List.mem_append_right _ hx))
    -- nothing is lost: there is no line any more
    by_cases hn : 10 ∈ m++r.1
    · rw [if_pos hn]
      exact ih (cut_tail _) hw (fun x hx => h x (List.mem_append_right _ hx))
    have hnone : 10 ∉ m++r.1++input reads := by
      rw [List.mem_append, not_or]
      exact ⟨hn,hr⟩
    have hi := ih (m := []) (by simp) hw (by rw [List.nil_append, cut_none hr]; simp)
    rw [if_neg hn, hi, cut_none hn, cut_none hnone, matching, List.nil_append, cut_none hr]

theorem shown_all (ls : List (List Byte)) : shown [] ls = ls.flatMap (fun x => x++[10]) := by
  have hall : ∀ x, matchRe [] x = true := by
    intro x
    cases x <;> rfl
  rw [shown, List.filter_eq_self.mpr (fun x _ => hall x)]

theorem grepLoop_all (hm : 10 ∉ m) (h : ∀ x ∈ (cut (m++input reads)).1, 0 ∉ x) :
    (grepLoop [] reads m).length ≤ (matching [] (m++input reads)).length ∧
      ((grepLoop [] reads m).length = (matching [] (m++input reads)).length → Whole reads) := by
  induction reads generalizing m with
  | nil => exact ⟨Nat.zero_le _,fun _ => trivial⟩
  | cons r reads ih =>
    rw [cut_buffer] at h
    have hbuf := grepLoop_cons [] reads (fun x hx => h x (List.mem_append_left _ hx))
    have hlater : ∀ x ∈ (cut ((cut (m++r.1)).2++input reads)).1, 0 ∉ x :=
      fun x hx => h x (List.mem_append_right _ hx)
    rw [hbuf, matching, cut_buffer, shown_append, List.length_append, List.length_append]
    by_cases hr : 10 ∈ r.1
    · rw [if_pos (List.mem_append_right m hr)]
      obtain ⟨h1,h2⟩ := ih (cut_tail (m++r.1)) hlater
      unfold matching at h1 h2
      exact ⟨by omega,fun he => ⟨Or.inl hr,h2 (by omega)⟩⟩
    have hn : 10 ∉ m++r.1 := by
      rw [List.mem_append, not_or]
      exact ⟨hm,hr⟩
    rw [if_neg hn, cut_none hn] at *
    by_cases hF : 10 ∈ input reads
    · obtain ⟨x,s,hx,hxn⟩ := List.eq_append_cons_of_mem hF
      have hxn' : 10 ∉ m++r.1++x := by
        rw [List.mem_append, not_or]
        exact ⟨hn,hxn⟩
      have hpos := List.length_pos_iff.mpr r.2
      have hsplit : cut (m++r.1++input reads) = ((m++r.1++x)::(cut s).1,(cut s).2) := by
        rw [hx, ← List.append_assoc, cut_line hxn']
      have htail : cut (input reads) = (x::(cut s).1,(cut s).2) := by rw [hx, cut_line hxn]
      rw [hsplit] at hlater ⊢
      have hfree : ∀ y ∈ (cut ([]++input reads)).1, 0 ∉ y := by
        intro y hy
        rw [List.nil_append, htail] at hy
        rcases List.mem_cons.mp hy with rfl | hy
        · exact fun h0 => hlater _ List.mem_cons_self (List.mem_append_right _ h0)
        · exact hlater y (List.mem_cons_of_mem _ hy)
      obtain ⟨h1,-⟩ := ih (m := []) (by simp) hfree
      rw [List.nil_append, matching, htail, shown_all] at h1
      rw [shown_all, shown_all]
      simp only [List.flatMap_cons, List.flatMap_nil, List.length_nil, List.length_append]
        at h1 ⊢
      exact ⟨by omega,fun he => by omega⟩
    · have hnone : 10 ∉ m++r.1++input reads := by
        rw [List.mem_append, not_or]
        exact ⟨hn,hF⟩
      obtain ⟨h1,h2⟩ := ih (m := []) (by simp) (by rw [List.nil_append, cut_none hF]; simp)
      rw [List.nil_append, matching, cut_none hF] at h1 h2
      rw [cut_none hnone]
      simp only [shown_all, List.flatMap_nil, List.length_nil] at h1 h2 ⊢
      exact ⟨by omega,fun he => ⟨Or.inr hF,h2 (by omega)⟩⟩

end Loop

/-- What `grep` writes does not depend on the reads and is what matches, for every pattern, just if
no line has a NUL and no read without a newline comes before one with a newline. -/
theorem grep_writes_matching_iff (reads : List Read) :
    (∀ pattern, grep pattern reads = matching pattern (input reads)) ↔
      (∀ x ∈ (cut (input reads)).1, 0 ∉ x) ∧ Whole reads := by
  constructor
  · intro h
    have hall := h []
    have hfree : ∀ x ∈ (cut (input reads)).1, 0 ∉ x := by
      intro x hx h0
      apply grepLoop_no_nul [] reads []
      show 0 ∈ grep [] reads
      rw [hall, matching, shown_all]
      exact List.mem_flatMap.mpr ⟨x,hx,List.mem_append_left _ h0⟩
    refine ⟨hfree,(grepLoop_all (m := []) (by simp) hfree).2 ?_⟩
    exact congrArg List.length hall
  · rintro ⟨hfree,hw⟩ pattern
    exact grepLoop_whole pattern (m := []) (by simp) hw hfree

/-- The line `ab` in two reads. -/
theorem grep_loses_a_read : grep [97] [⟨[97],by simp⟩,⟨[98,10],by simp⟩] = [] ∧
    grep [97] [⟨[97,98,10],by simp⟩] = [97,98,10] ∧ matching [97] [97,98,10] = [97,98,10] := by
  decide

end Yeet.Grep
