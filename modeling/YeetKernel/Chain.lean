import Mathlib.Data.Fintype.Card

/-!
# Singly linked chains with a head and a tail pointer

A chain lives in one shared successor function. Several chains use the same
function, so every operation on one of them carries a frame condition for the
nodes it does not visit.
-/

namespace Yeet.Chain
open Function

variable {α : Type*}

def Seg (next : α → Option α) : Option α → List α → Option α → Prop
  | start, [], stop => start = stop
  | start, a::l, stop => start = some a ∧ Seg next (next a) l stop

theorem seg_append (next : α → Option α) (start stop : Option α) (l m : List α) :
    Seg next start (l++m) stop ↔ ∃ mid, Seg next start l mid ∧ Seg next mid m stop := by
  induction l generalizing start with
  | nil => simp [Seg]
  | cons a l ih => simp [Seg, ih, and_assoc]

theorem seg_frame [DecidableEq α] (next : α → Option α) (a : α) (v : Option α) (start stop : Option α)
    (l : List α) (ha : a ∉ l) : Seg (update next a v) start l stop ↔ Seg next start l stop := by
  induction l generalizing start with
  | nil => rfl
  | cons b l ih =>
    obtain ⟨hab,hal⟩ := not_or.mp (mt List.mem_cons.mpr ha)
    simp [Seg, ih _ hal, update_of_ne (Ne.symm hab)]

theorem seg_redirect [DecidableEq α] (next : α → Option α) (start : Option α) (l : List α) (t : α)
    (stop v : Option α) (ht : t ∉ l) (h : Seg next start (l++[t]) stop) :
    Seg (update next t v) start (l++[t]) v := by
  obtain ⟨mid,hl,hm⟩ := (seg_append next start stop l [t]).mp h
  refine (seg_append _ _ _ _ _).mpr ⟨mid,(seg_frame next t v _ _ l ht).mpr hl,hm.1,?_⟩
  simp [Seg]

/-- A head and a tail pointer describe the duplicate-free sequence `l`. -/
structure Queue (next : α → Option α) (head tail : Option α) (l : List α) : Prop where
  seg : Seg next head l none
  last : tail = l.getLast?
  nodup : l.Nodup

section Queue

variable {next : α → Option α} {head tail : Option α} {l m : List α} {q p : α}

theorem queue_empty (next : α → Option α) : Queue next none none [] :=
  ⟨rfl,rfl,List.nodup_nil⟩

theorem Queue.head_eq (h : Queue next head tail l) : head = l.head? := by
  cases l with
  | nil => exact h.seg
  | cons a l => exact h.seg.1

theorem Queue.head_none_iff (h : Queue next head tail l) : head = none ↔ l = [] := by
  rw [h.head_eq]
  exact List.head?_eq_none_iff

theorem Queue.tail_none_iff (h : Queue next head tail l) : tail = none ↔ l = [] := by
  rw [h.last]
  exact List.getLast?_eq_none_iff

theorem Queue.next_last {p : α} (h : Queue next head tail (l++[p])) : next p = none := by
  obtain ⟨mid,_,_,hs⟩ := (seg_append _ _ _ _ _).mp h.seg
  exact hs

theorem Queue.congr {next' : α → Option α} (h : Queue next head tail l)
    (hn : ∀ a ∈ l, next' a = next a) : Queue next' head tail l := by
  obtain ⟨hs,hl,hd⟩ := h
  refine ⟨?_,hl,hd⟩
  clear hl hd
  induction l generalizing head with
  | nil => exact hs
  | cons a l ih =>
    refine ⟨hs.1,ih (fun b hb => hn b (List.mem_cons_of_mem a hb)) ?_⟩
    rw [hn a List.mem_cons_self]
    exact hs.2

variable [DecidableEq α]

theorem Queue.frame (h : Queue next head tail l) (a : α) (v : Option α) (ha : a ∉ l) :
    Queue (update next a v) head tail l :=
  ⟨(seg_frame next a v head none l ha).mpr h.seg,h.last,h.nodup⟩

theorem queue_singleton (next : α → Option α) (p : α) :
    Queue (update next p none) (some p) (some p) [p] :=
  ⟨⟨rfl,by simp [Seg]⟩,rfl,List.nodup_singleton p⟩

theorem Queue.append (h : Queue next head tail l) (p t : α) (hp : p ∉ l) (ht : tail = some t) :
    Queue (update (update next t (some p)) p none) head (some p) (l++[p]) := by
  obtain ⟨m,rfl⟩ : ∃ m, l = m++[t] := by
    rw [h.last] at ht
    exact List.getLast?_eq_some_iff.mp ht
  have hm : t ∉ m := by
    have := h.nodup
    simp only [List.nodup_append, List.mem_singleton] at this
    exact fun hmem => this.2.2 t hmem t rfl rfl
  refine ⟨(seg_append _ _ _ _ _).mpr ⟨some p,?_,by simp [Seg]⟩,by simp,?_⟩
  · exact (seg_frame _ p none _ _ _ hp).mpr (seg_redirect next head m t none (some p) hm h.seg)
  · rw [List.nodup_append]
    exact ⟨h.nodup,List.nodup_singleton p,by rintro a ha b hb rfl; simp at hb; exact hp (hb ▸ ha)⟩

theorem Queue.push (h : Queue next head tail l) (p : α) (hp : p ∉ l) (hl : l ≠ []) :
    Queue (update next p head) (some p) tail (p::l) := by
  refine ⟨⟨rfl,?_⟩,?_,List.nodup_cons.mpr ⟨hp,h.nodup⟩⟩
  · simpa using (seg_frame next p head head none l hp).mpr h.seg
  · rw [h.last, List.getLast?_cons_of_ne_nil hl]

omit [DecidableEq α] in
theorem Queue.pop {p : α} (h : Queue next head tail (p::l)) (hl : l ≠ []) :
    Queue next (next p) tail l :=
  ⟨h.seg.2,by rw [h.last, List.getLast?_cons_of_ne_nil hl],(List.nodup_cons.mp h.nodup).2⟩

theorem Queue.dropLast (h : Queue next head tail (m++[q,p])) :
    Queue (update next q none) head (some q) (m++[q]) := by
  have hn := h.nodup
  rw [show m++[q,p] = (m++[q])++[p] by simp] at hn
  have hmq := (List.nodup_append.mp hn).1
  have hq : q ∉ m := fun hm => (List.nodup_append.mp hmq).2.2 q hm q (by simp) rfl
  have hs := h.seg
  rw [show m++[q,p] = (m++[q])++[p] by simp] at hs
  obtain ⟨mid,hs,_⟩ := (seg_append _ _ _ _ _).mp hs
  exact ⟨seg_redirect next head m q mid none hq hs,by simp,hmq⟩

theorem Queue.unlink {m r : List α} (h : Queue next head tail (m++q::p::r))
    (hr : r ≠ []) : Queue (update next q (next p)) head tail (m++q::r) := by
  have hn := h.nodup
  rw [show m++q::p::r = (m++[q])++(p::r) by simp] at hn
  obtain ⟨hmq,hpr,hd⟩ := List.nodup_append.mp hn
  have hq : q ∉ m := fun hm => (List.nodup_append.mp hmq).2.2 q hm q (by simp) rfl
  have hqr : q ∉ r := fun hm => hd q (by simp) q (by simp [hm]) rfl
  have hs := h.seg
  rw [show m++q::p::r = (m++[q])++(p::r) by simp] at hs
  obtain ⟨mid,hs,_,hs'⟩ := (seg_append _ _ _ _ _).mp hs
  have hnod : (m++q::r).Nodup := h.nodup.sublist (by simp)
  refine ⟨?_,?_,hnod⟩
  · rw [show m++q::r = (m++[q])++r by simp]
    exact (seg_append _ _ _ _ _).mpr ⟨next p,seg_redirect next head m q mid _ hq hs,
      (seg_frame next q _ _ _ r hqr).mpr hs'⟩
  · rw [h.last]
    obtain ⟨r',b,rfl⟩ := List.eq_nil_or_concat r |>.resolve_left hr
    simp [List.getLast?_append, List.getLast?_cons]

theorem Queue.splice {head' tail' : Option α} {t : α}
    (h : Queue next head tail l) (h' : Queue next head' tail' m)
    (ht : tail = some t) (hd : ∀ a ∈ l, a ∉ m) :
    Queue (update next t head') head (tail'.or tail) (l++m) := by
  obtain ⟨k,rfl⟩ : ∃ k, l = k++[t] := by
    have := h.last
    rw [ht] at this
    exact List.getLast?_eq_some_iff.mp this.symm
  have htk : t ∉ k := fun hm => (List.nodup_append.mp h.nodup).2.2 t hm t (by simp) rfl
  refine ⟨(seg_append _ _ _ _ _).mpr ⟨head',seg_redirect next head k t none _ htk h.seg,
    (seg_frame next t _ _ _ m (hd t (by simp))).mpr h'.seg⟩,?_,?_⟩
  · rw [h.last, h'.last]
    exact List.getLast?_append.symm
  · exact List.nodup_append.mpr ⟨h.nodup,h'.nodup,fun a ha b hb hab => hd a ha (hab ▸ hb)⟩

end Queue

/-- The nodes that `for (p = start; p; p = next p)` visits, if it stops within the bound. -/
def walk (next : α → Option α) : ℕ → Option α → Option (List α)
  | _, none => some []
  | 0, some _ => none
  | n+1, some a => (walk next n (next a)).map (a::·)

theorem walk_seg (next : α → Option α) (n : ℕ) (start : Option α) (l : List α)
    (h : Seg next start l none) (hn : l.length ≤ n) : walk next n start = some l := by
  induction l generalizing n start with
  | nil => rw [show start = none from h]; cases n <;> rfl
  | cons a l ih =>
    obtain ⟨rfl,h⟩ := h
    obtain _ | n := n
    · simp at hn
    · simp only [walk, ih n _ h (by simpa using hn), Option.map_some]

end Yeet.Chain
