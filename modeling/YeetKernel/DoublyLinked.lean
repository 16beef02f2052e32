import Mathlib.Data.List.Nodup
import Mathlib.Data.List.Induction
import Mathlib.Data.Option.Basic

/-!
# Circular doubly linked lists with a sentinel

The sentinel is `none`. A path follows the next links from one node to another
and the prev links back; a ring is a path from the sentinel to itself through
distinct nodes.
-/

namespace Yeet.DoublyLinked
open Function

variable {α : Type} {l : List α} {x y : Option α}

structure Links (α : Type) where
  next : Option α → Option α
  prev : Option α → Option α

/-- The links lead from `x` through the nodes of `l` to `y`, and back. -/
def Path (r : Links α) : Option α → List α → Option α → Prop
  | x, [], y => r.next x = y ∧ r.prev y = x
  | x, a::l, y => (r.next x = some a ∧ r.prev (some a) = x) ∧ Path r (some a) l y

structure Ring (r : Links α) (l : List α) : Prop where
  path : Path r none l none
  nodup : l.Nodup

theorem path_append (r : Links α) (x y : Option α) (l m : List α) (a : α) :
    Path r x (l++a::m) y ↔ Path r x l (some a) ∧ Path r (some a) m y := by
  induction l generalizing x with
  | nil => rfl
  | cons b l ih => simp only [List.cons_append, Path, ih, and_assoc]

theorem path_congr {r r' : Links α} (h : Path r x l y)
    (hn : ∀ z ∈ x::l.map some, r'.next z = r.next z)
    (hp : ∀ z ∈ l.map some++[y], r'.prev z = r.prev z) : Path r' x l y := by
  induction l generalizing x with
  | nil => exact ⟨(hn x (by simp)).trans h.1,(hp y (by simp)).trans h.2⟩
  | cons a l ih =>
    refine ⟨⟨(hn x (by simp)).trans h.1.1,(hp (some a) (by simp)).trans h.1.2⟩,?_⟩
    exact ih h.2 (fun z hz => hn z (List.mem_cons_of_mem x hz))
      (fun z hz => hp z (List.mem_cons_of_mem _ hz))

variable {r : Links α}

theorem Path.last_mem (h : Path r x l y) : r.prev y ∈ x::l.map some := by
  induction l generalizing x with
  | nil => simp [h.2]
  | cons a l ih => exact List.mem_cons_of_mem x (ih h.2)

def empty : Links α := ⟨fun _ => none,fun _ => none⟩

theorem empty_ring : Ring (empty : Links α) [] := ⟨⟨rfl,rfl⟩,List.nodup_nil⟩

variable [DecidableEq α] {b : α}

def Links.pushFront (r : Links α) (b : α) : Links α :=
  let r := { r with next := update r.next (some b) (r.next none) }
  let r := { r with prev := update r.prev (some b) none }
  let r := { r with prev := update r.prev (r.next none) (some b) }
  { r with next := update r.next none (some b) }

def Links.unlink (r : Links α) (b : α) : Links α :=
  let r := { r with prev := update r.prev (r.next (some b)) (r.prev (some b)) }
  { r with next := update r.next (r.prev (some b)) (r.next (some b)) }

theorem Ring.pushFront (h : Ring r l) (hb : b ∉ l) : Ring (r.pushFront b) (b::l) := by
  refine ⟨?_,List.nodup_cons.mpr ⟨hb,h.nodup⟩⟩
  have hp := h.path
  cases l with
  | nil =>
    obtain ⟨hn,hp⟩ := hp
    simp [Path, Links.pushFront, hn]
  | cons a l =>
    obtain ⟨⟨hn,hq⟩,hp⟩ := hp
    obtain ⟨hab,hbl⟩ := not_or.mp (mt List.mem_cons.mpr hb)
    have hal := (List.nodup_cons.mp h.nodup).1
    refine ⟨?_,?_,path_congr hp (fun z hz => ?_) (fun z hz => ?_)⟩
    · simp [Links.pushFront, hn, hab]
    · simp [Links.pushFront, hn]
    · have hz' : z ≠ none ∧ z ≠ some b := by
        simp only [List.mem_cons, List.mem_map] at hz
        grind
      simp [Links.pushFront, hz'.1, hz'.2]
    have hz' : z ≠ some a ∧ z ≠ some b := by
      simp only [List.mem_append, List.mem_map, List.mem_singleton] at hz
      grind
    simp [Links.pushFront, hn, hz'.1, hz'.2]

theorem Path.redirect {x y z : Option α} (h : Path r x l z)
    (hn : (x::l.map some).Nodup) (hy : y ∉ l.map some) :
    Path ⟨update r.next (r.prev z) y,update r.prev y (r.prev z)⟩ x l y := by
  induction l generalizing x with
  | nil =>
    rw [h.2]
    exact ⟨update_self ..,update_self ..⟩
  | cons a l ih =>
    obtain ⟨⟨hx,ha⟩,h⟩ := h
    obtain ⟨hxl,hn⟩ := List.nodup_cons.mp hn
    refine ⟨⟨?_,?_⟩,ih h hn (fun hm => hy (List.mem_cons_of_mem _ hm))⟩
    · have hne : x ≠ r.prev z := fun e => hxl (e ▸ h.last_mem)
      exact (update_of_ne hne _ _).trans hx
    · have hne : some a ≠ y := fun e => hy (e ▸ by simp)
      exact (update_of_ne hne _ _).trans ha

theorem Ring.unlink {l m : List α} (h : Ring r (l++b::m)) : Ring (r.unlink b) (l++m) := by
  have hnod := h.nodup
  obtain ⟨hl,hbm,hd⟩ := List.nodup_append.mp hnod
  obtain ⟨hb,hm⟩ := List.nodup_cons.mp hbm
  refine ⟨?_,hnod.sublist (by simp)⟩
  obtain ⟨h1,h2⟩ := (path_append r none none l m b).mp h.path
  have hln : (none::l.map some).Nodup := by simp [hl.map (Option.some_injective α)]
  have hpb : r.prev (some b) ≠ some b := by
    have := h1.last_mem
    intro e
    rw [e] at this
    exact hd b (by simpa using this) b (by simp) rfl
  have hnb : r.next (some b) ≠ some b := by
    cases m with
    | nil => simp [h2.1]
    | cons c m =>
      rw [h2.1.1]
      exact fun e => hb (by simp [Option.some.inj e])
  have hu : r.unlink b = ⟨update r.next (r.prev (some b)) (r.next (some b)),
      update r.prev (r.next (some b)) (r.prev (some b))⟩ := by
    simp [Links.unlink, update_of_ne hnb.symm]
  cases m with
  | nil =>
    rw [hu, h2.1, List.append_nil]
    exact h1.redirect hln (by simp)
  | cons c m =>
    have hcl : c ∉ l := fun hc => hd c hc c (by simp) rfl
    rw [hu, h2.1.1]
    refine (path_append _ _ _ l m c).mpr ⟨h1.redirect hln (by simpa using hcl),?_⟩
    refine path_congr h2.2 (fun z hz => update_of_ne ?_ _ _) (fun z hz => update_of_ne ?_ _ _)
    · rintro rfl
      have := h1.last_mem
      grind
    · grind

/-- The search `for (b = step head; b != head; b = step b)` for a node that passes
the test, within a bound on the steps. -/
def search (step : Option α → Option α) (test : α → Bool) : ℕ → Option α → Option (Option α)
  | _, none => some none
  | 0, some _ => none
  | n+1, some a => if test a then some (some a) else search step test n (step (some a))

omit [DecidableEq α] in
theorem search_next {r : Links α} (test : α → Bool) {x : Option α} {l : List α} {n : ℕ}
    (h : Path r x l none) (hn : l.length ≤ n) :
    search r.next test n (r.next x) = some (l.find? test) := by
  induction l generalizing x n with
  | nil => rw [h.1]; cases n <;> rfl
  | cons a l ih =>
    obtain _ | n := n
    · simp at hn
    · rw [h.1.1, search, ih h.2 (by simpa using hn), List.find?_cons]
      split <;> simp_all

omit [DecidableEq α] in
theorem search_prev {r : Links α} (test : α → Bool) {y : Option α} {l : List α} {n : ℕ}
    (h : Path r none l y) (hn : l.length ≤ n) :
    search r.prev test n (r.prev y) = some (l.reverse.find? test) := by
  induction l using List.reverseRecOn generalizing y n with
  | nil => rw [h.2]; cases n <;> rfl
  | append_singleton l a ih =>
    obtain ⟨h1,h2⟩ := (path_append r none y l [] a).mp h
    obtain _ | n := n
    · simp at hn
    · rw [h2.2, search, ih h1 (by simpa using hn), List.reverse_append, List.reverse_singleton,
        List.singleton_append, List.find?_cons]
      split <;> simp_all

end Yeet.DoublyLinked
