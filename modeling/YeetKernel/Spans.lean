import Mathlib.Data.List.Basic

/-!
# Spans of addresses

Lists of spans that are in increasing order with a gap between any two, and
what it means to add a span that is joined with its neighbours. `cover` counts
the spans at an address.
-/

namespace Yeet.Spans

structure Span where
  start : ℕ
  len : ℕ
  deriving DecidableEq

def Span.stop (b : Span) : ℕ := b.start+b.len

def Span.has (b : Span) (x : ℕ) : Bool := decide (b.start ≤ x ∧ x < b.stop)

def cover (l : List Span) (x : ℕ) : ℕ := l.countP (fun b => b.has x)

def Apart (a b : Span) : Prop := a.stop ≤ b.start ∨ b.stop ≤ a.start

def Gapped (l : List Span) : Prop := l.Pairwise (fun a b => a.stop < b.start)

def merge (b : Span) : List Span → List Span
  | [] => [b]
  | a::l =>
    if a.stop < b.start then a::merge b l
    else if a.stop = b.start then merge ⟨a.start,a.len+b.len⟩ l
    else if b.stop = a.start then ⟨b.start,b.len+a.len⟩::l
    else b::a::l

theorem cover_cons (b : Span) (l : List Span) (x : ℕ) :
    cover (b::l) x = cover l x+(b.has x).toNat := by
  rw [cover, List.countP_cons, cover]
  cases b.has x <;> rfl

theorem cover_append (l l' : List Span) (x : ℕ) : cover (l++l') x = cover l x+cover l' x :=
  List.countP_append

variable {b : Span}

theorem has_iff {x : ℕ} : b.has x = true ↔ b.start ≤ x ∧ x < b.start+b.len :=
  decide_eq_true_iff

theorem has_toNat (b : Span) (x : ℕ) :
    (b.has x).toNat = if b.start ≤ x ∧ x < b.start+b.len then 1 else 0 := by
  split_ifs with h
  · rw [has_iff.mpr h, Bool.toNat_true]
  · rw [Bool.eq_false_iff.mpr (fun e => h (has_iff.mp e)), Bool.toNat_false]

theorem has_join {a b : Span} (h : a.stop = b.start) (x : ℕ) :
    (Span.has ⟨a.start,a.len+b.len⟩ x).toNat = (a.has x).toNat+(b.has x).toNat := by
  rw [Span.stop] at h
  simp only [has_toNat]
  split_ifs <;> omega

theorem cover_merge (b : Span) (l : List Span) (x : ℕ) : cover (merge b l) x = cover (b::l) x := by
  induction l generalizing b with
  | nil => rfl
  | cons a l ih =>
    rw [merge]
    split_ifs with h1 h2 h3
    · rw [cover_cons, ih]
      simp only [cover_cons]
      omega
    · rw [ih, cover_cons, has_join h2]
      simp only [cover_cons]
      omega
    · rw [cover_cons, has_join h3]
      simp only [cover_cons]
      omega
    · rfl

variable {l : List Span} {a c : Span}

theorem apart_of_cover (h : ∀ x, cover l x ≤ 1) (hpos : ∀ b ∈ l, 0 < b.len) : l.Pairwise Apart := by
  induction l with
  | nil => exact List.Pairwise.nil
  | cons a l ih =>
    refine List.pairwise_cons.mpr ⟨?_,ih (fun x => ?_) (fun b hb => hpos b (List.mem_cons_of_mem a hb))⟩
    · intro b hb
      by_contra hab
      have ha := hpos a List.mem_cons_self
      have hb' := hpos b (List.mem_cons_of_mem a hb)
      have hx := h (max a.start b.start)
      have hin : a.has (max a.start b.start) = true ∧ b.has (max a.start b.start) = true := by
        simp only [Apart, Span.stop] at hab
        simp only [has_iff]
        omega
      have h1 : 0 < cover l (max a.start b.start) := List.countP_pos_iff.mpr ⟨b,hb,hin.2⟩
      rw [cover_cons, hin.1, Bool.toNat_true] at hx
      omega
    · have := h x
      rw [cover_cons] at this
      omega

theorem merge_forall {P : Span → Prop} (hb : P b) (hl : ∀ a ∈ l, P a)
    (join : ∀ a b, P a → P b → a.stop = b.start → P ⟨a.start,a.len+b.len⟩) :
    ∀ c ∈ merge b l, P c := by
  induction l generalizing b with
  | nil => simpa [merge] using hb
  | cons a l ih =>
    obtain ⟨ha,hl'⟩ := List.forall_mem_cons.mp hl
    rw [merge]
    split_ifs with h1 h2 h3
    · exact List.forall_mem_cons.mpr ⟨ha,ih hb hl'⟩
    · exact ih (join a b ha hb h2) hl'
    · exact List.forall_mem_cons.mpr ⟨join b a hb ha h3,hl'⟩
    · exact List.forall_mem_cons.mpr ⟨hb,hl⟩

theorem mem_merge {b c : Span} (h : c ∈ merge b l) :
    c.start = b.start ∨ ∃ a ∈ l, c.start = a.start :=
  merge_forall (P := fun c => c.start = b.start ∨ ∃ a ∈ l, c.start = a.start) (Or.inl rfl)
    (fun a ha => Or.inr ⟨a,ha,rfl⟩) (fun _ _ ha _ _ => ha) c h

theorem gapped_merge (hg : Gapped l) (hb : ∀ a ∈ l, Apart a b) : Gapped (merge b l) := by
  induction l generalizing b with
  | nil => exact List.pairwise_singleton _ b
  | cons a l ih =>
    obtain ⟨ha,hl⟩ := List.pairwise_cons.mp hg
    have hab := hb a List.mem_cons_self
    have hbl : ∀ c ∈ l, Apart c b := fun c hc => hb c (List.mem_cons_of_mem a hc)
    rw [merge]
    split_ifs with h1 h2 h3
    · refine List.pairwise_cons.mpr ⟨fun c hc => ?_,ih hl hbl⟩
      rcases mem_merge hc with e | ⟨d,hd,e⟩
      · rw [e]
        exact h1
      · rw [e]
        exact ha d hd
    · refine ih hl (fun c hc => ?_)
      have h := ha c hc
      have h' := hbl c hc
      simp only [Apart, Span.stop] at *
      omega
    · refine List.pairwise_cons.mpr ⟨fun c hc => ?_,hl⟩
      have h := ha c hc
      simp only [Span.stop] at *
      omega
    refine List.pairwise_cons.mpr ⟨fun c hc => ?_,hg⟩
    have hlt : b.stop < a.start := by
      simp only [Apart, Span.stop] at *
      omega
    rcases List.mem_cons.mp hc with rfl | hc
    · exact hlt
    · have h := ha c hc
      simp only [Span.stop] at *
      omega

theorem merge_append {A : List Span} (h : ∀ a ∈ A, a.stop < b.start) (l : List Span) :
    merge b (A++l) = A++merge b l := by
  induction A with
  | nil => rfl
  | cons a A ih =>
    rw [List.cons_append, merge, if_pos (h a List.mem_cons_self),
      ih (fun c hc => h c (List.mem_cons_of_mem a hc))]
    rfl

/-- A span that ends where the list begins. -/
theorem merge_join (h : a.stop = c.start) (hc : 0 < c.len) (l : List Span) :
    merge a (c::l) = ⟨a.start,a.len+c.len⟩::l := by
  have hne : ¬ c.stop < a.start ∧ ¬ c.stop = a.start := by
    simp only [Span.stop] at *
    omega
  rw [merge, if_neg hne.1, if_neg hne.2, if_pos h]

theorem merge_before (h : a.stop < c.start) (l : List Span) : merge a (c::l) = a::c::l := by
  have hne : ¬ c.stop < a.start ∧ ¬ c.stop = a.start := by
    simp only [Span.stop] at *
    omega
  rw [merge, if_neg hne.1, if_neg hne.2, if_neg (Nat.ne_of_lt h)]

theorem merge_head {a : Span} (h : ∀ c ∈ l, a.stop ≤ c.start ∧ 0 < c.len) :
    ∃ n l', merge a l = ⟨a.start,n⟩::l' := by
  cases l with
  | nil => exact ⟨a.len,[],rfl⟩
  | cons c l =>
    obtain ⟨hc,hpos⟩ := h c List.mem_cons_self
    rcases Nat.lt_or_eq_of_le hc with hlt | e
    · exact ⟨a.len,c::l,merge_before hlt l⟩
    · exact ⟨_,l,merge_join e hpos l⟩

theorem merge_cons {p b : Span} (hp : p.stop ≤ b.start) (hb : 0 < b.len)
    (h : ∀ c ∈ l, b.stop ≤ c.start ∧ 0 < c.len) : merge b (p::l) = merge p (merge b l) := by
  rcases Nat.lt_or_eq_of_le hp with hlt | e
  · rw [merge, if_pos hlt]
    cases l with
    | nil => exact (merge_before hlt []).symm
    | cons c l =>
      obtain ⟨hc,hpos⟩ := h c List.mem_cons_self
      rcases Nat.lt_or_eq_of_le hc with hbc | hbc
      · rw [merge_before hbc, merge_before hlt]
      · rw [merge_join hbc hpos, merge_before (c := ⟨b.start,b.len+c.len⟩) hlt]
  have hs : Span.stop ⟨p.start,p.len+b.len⟩ = b.stop := by
    simp only [Span.stop] at *
    omega
  rw [merge, if_neg (by omega), if_pos e]
  cases l with
  | nil => exact (merge_join e hb []).symm
  | cons c l =>
    obtain ⟨hc,hpos⟩ := h c List.mem_cons_self
    rcases Nat.lt_or_eq_of_le hc with hbc | hbc
    · rw [merge_before hbc, merge_join e hb, merge_before (by rwa [hs])]
    · rw [merge_join hbc hpos, merge_join (c := ⟨b.start,b.len+c.len⟩) e (Nat.add_pos_left hb _),
        merge_join (hs.trans hbc) hpos]
      simp only [Nat.add_assoc]

theorem merge_large (b : Span) (l : List Span) : ∃ c ∈ merge b l, b.len ≤ c.len := by
  induction l generalizing b with
  | nil => exact ⟨b,List.mem_singleton_self b,Nat.le_refl _⟩
  | cons a l ih =>
    rw [merge]
    split_ifs
    · obtain ⟨c,hc,hle⟩ := ih b
      exact ⟨c,List.mem_cons_of_mem a hc,hle⟩
    · obtain ⟨c,hc,hle⟩ := ih ⟨a.start,a.len+b.len⟩
      exact ⟨c,hc,by simp only at hle; omega⟩
    · exact ⟨_,List.mem_cons_self,Nat.le_add_right _ _⟩
    · exact ⟨b,List.mem_cons_self,Nat.le_refl _⟩

theorem exists_place {b a : Span} (hg : Gapped (a::l))
    (hl : ∀ c ∈ l, Apart c b) (ha : a.stop ≤ b.start) :
    ∃ A p B, a::l = A++p::B ∧ (∀ c ∈ A, c.stop < p.start) ∧ p.stop ≤ b.start ∧
      ∀ c ∈ B, b.stop ≤ c.start := by
  induction l generalizing a with
  | nil => exact ⟨[],a,[],rfl,by simp,ha,by simp⟩
  | cons c l ih =>
    obtain ⟨hac,hg'⟩ := List.pairwise_cons.mp hg
    rcases hl c List.mem_cons_self with h | h
    · obtain ⟨A,p,B,he,hA,hp,hB⟩ := ih hg' (fun d hd => hl d (List.mem_cons_of_mem c hd)) h
      refine ⟨a::A,p,B,by rw [he]; rfl,?_,hp,hB⟩
      intro d hd
      rcases List.mem_cons.mp hd with rfl | hd
      · exact hac p (by rw [he]; simp)
      · exact hA d hd
    refine ⟨[],a,c::l,rfl,by simp,ha,?_⟩
    intro d hd
    rcases List.mem_cons.mp hd with rfl | hd
    · exact h
    · have h1 := (List.pairwise_cons.mp hg').1 d hd
      simp only [Span.stop] at *
      omega

end Yeet.Spans
