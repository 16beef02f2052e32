import Mathlib.Tactic.FinCases
import YeetKernel.ProcSwitch

/-!
# Promotion and explicit priorities

`promoteAll` splices the second ready list onto the first and moves every
other one up by a level; then the priorities of the listed processes are
rewritten to match. `setPriority` on a ready process always takes the early
return, because such a process already has the priority of its list.
-/

namespace Yeet.ProcPrio
open Kernel Chain StateLists ProcTable ProcSpec ProcSwitch Function

def source : ListId → Option ListId
  | .ready i => if i = 0 then some (.ready 0)
      else if h : i.val < MAXPRIO then some (.ready ⟨i.val+1,Nat.succ_lt_succ h⟩) else none
  | l => some l

def spliced (L : ListId → List Slot) : ListId → List Slot :=
  update (update L (.ready 0) (L (.ready 0)++L (.ready 1))) (.ready 1) []

def promoted (L : ListId → List Slot) (l : ListId) : List Slot :=
  match source l with
  | some k => spliced L k
  | none => []

theorem source_injective {l m k : ListId} (hl : source l = some k) (hm : source m = some k) :
    l = m := by
  cases l <;> cases m <;> simp only [source] at hl hm <;> (try split_ifs at hl) <;>
    (try split_ifs at hm) <;> grind

theorem promoteLists_head (ls : Lists) (l : ListId) :
    (promoteLists ls).head l = (source l).bind (promoteFirst ls).head := by
  cases l with
  | ready i => fin_cases i <;> rfl
  | _ => rfl

theorem promoteLists_tail (ls : Lists) (l : ListId) :
    (promoteLists ls).tail l = (source l).bind (promoteFirst ls).tail := by
  cases l with
  | ready i => fin_cases i <;> rfl
  | _ => rfl

theorem promoteLists_next (ls : Lists) : (promoteLists ls).next = (promoteFirst ls).next := rfl

variable {L : ListId → List Slot} {ls : Lists}

theorem promoteFirst_empty (h : Rep ls L)
    (h0 : L (.ready 0) = []) : Rep (promoteFirst ls) (spliced L) := by
  have hh : ls.head (.ready 0) = none := (h.queue (.ready 0)).head_none_iff.mpr h0
  have hr := h.replace (.ready 1) ls.next none none [] (queue_empty _) (fun k _ => h.queue k)
    (by simp)
  have hr' := hr.replace (.ready 0) ls.next (ls.head (.ready 1)) (ls.tail (.ready 1))
    (L (.ready 1)) (h.queue (.ready 1)) (fun k _ => hr.queue k) (fun k hk q hq => by
      by_cases hk1 : k = .ready 1
      · simp [hk1]
      · simpa [hk1] using h.disjoint (.ready 1) k (Ne.symm hk1) q hq)
  have hne : (ListId.ready 0 : ListId) ≠ .ready 1 := by decide
  rw [update_comm hne.symm, update_comm hne.symm, update_comm hne.symm] at hr'
  simpa [promoteFirst, hh, spliced, h0] using hr'

theorem promoteFirst_splice (h : Rep ls L)
    (h0 : L (.ready 0) ≠ []) : Rep (promoteFirst ls) (spliced L) := by
  have hq := h.queue (.ready 0)
  obtain ⟨a,ha⟩ := Option.ne_none_iff_exists'.mp (mt hq.head_none_iff.mp h0)
  obtain ⟨t,ht⟩ := Option.ne_none_iff_exists'.mp (mt hq.tail_none_iff.mp h0)
  have htm : t ∈ L (.ready 0) := List.mem_of_getLast? (hq.last ▸ ht)
  have hne : (ListId.ready 0 : ListId) ≠ .ready 1 := by decide
  have hd := h.disjoint (.ready 0) (.ready 1) hne
  have hs := hq.splice (h.queue (.ready 1)) ht hd
  have hr := h.replace (.ready 1) ls.next none none [] (queue_empty _) (fun k _ => h.queue k)
    (by simp)
  have hr' := hr.replace (.ready 0) _ (ls.head (.ready 0))
    ((ls.tail (.ready 1)).or (ls.tail (.ready 0))) _ hs
    (fun k hk => (hr.queue k).frame t _ (by
      by_cases hk1 : k = .ready 1
      · simp [hk1]
      · simpa [hk1] using h.disjoint (.ready 0) k (Ne.symm hk) t htm))
    (fun k hk q hq => by
      by_cases hk1 : k = .ready 1
      · simp [hk1]
      rw [update_of_ne hk1]
      rcases List.mem_append.mp hq with hq | hq
      · exact h.disjoint (.ready 0) k (Ne.symm hk) q hq
      · exact h.disjoint (.ready 1) k (Ne.symm hk1) q hq)
  rw [update_comm hne.symm, update_comm hne.symm, update_comm hne.symm, update_eq_self] at hr'
  cases h1 : ls.tail (.ready 1) with
  | none =>
    rw [h1, Option.none_or, update_eq_self] at hr'
    simpa [promoteFirst, ha, ht, h1, spliced] using hr'
  | some u => simpa [promoteFirst, ha, ht, h1, spliced] using hr'

theorem promoteLists_rep (h : Rep ls L) : Rep (promoteLists ls) (promoted L) := by
  have hs : Rep (promoteFirst ls) (spliced L) := by
    by_cases h0 : L (.ready 0) = []
    · exact promoteFirst_empty h h0
    · exact promoteFirst_splice h h0
  constructor
  · intro l
    rw [promoteLists_next, promoteLists_head, promoteLists_tail, promoted]
    cases source l with
    | none => exact queue_empty _
    | some k => exact hs.queue k
  intro l m hlm p hp
  simp only [promoted] at hp ⊢
  cases hl : source l with
  | none => simp [hl] at hp
  | some k =>
    cases hm : source m with
    | none => simp
    | some k' =>
      simp only [hl] at hp
      exact hs.disjoint k k' (fun e => hlm (source_injective hl (e ▸ hm))) p hp

section Reset

variable {t : Table} {L : ListId → List Slot}

theorem reset_foldl (i : ℕ) (qs : List Slot) (t : Table) : qs.foldl (fun t q =>
      { t with budget := update t.budget q MAXBUDG, priority := update t.priority q i }) t =
      { t with
        budget := fun q => if q ∈ qs then MAXBUDG else t.budget q
        priority := fun q => if q ∈ qs then i else t.priority q } := by
  induction qs generalizing t with
  | nil => simp
  | cons a qs ih =>
    rw [List.foldl_cons, ih]
    simp only [Table.mk.injEq, and_true, true_and]
    constructor
    all_goals
      funext q
      by_cases hq : q = a <;> simp [hq]

theorem resetReady_spec (h : Rep t.lists L) (is : List Level) : ∃ u, resetReady is t = .ok u ∧
      u = { t with budget := u.budget, priority := u.priority } ∧
      (∀ i ∈ is, ∀ q ∈ L (.ready i), u.priority q = i ∧ u.budget q = MAXBUDG) ∧
      ∀ q, (∀ i ∈ is, q ∉ L (.ready i)) → u.priority q = t.priority q ∧ u.budget q = t.budget q := by
  induction is generalizing t with
  | nil => exact ⟨t,rfl,rfl,by simp,fun q _ => ⟨rfl,rfl⟩⟩
  | cons i is ih =>
    rw [resetReady, h.walk, ok_bind, reset_foldl]
    obtain ⟨u,hu,hsame,hin,hout⟩ := ih (t := { t with
      budget := fun q => if q ∈ L (.ready i) then MAXBUDG else t.budget q
      priority := fun q => if q ∈ L (.ready i) then (i : ℕ) else t.priority q }) h
    refine ⟨u,hu,by rw [hsame],fun j hj q hq => ?_,fun q hq => ?_⟩
    · by_cases hji : j ∈ is
      · exact hin j hji q hq
      obtain rfl : j = i := by simpa [hji] using hj
      have := hout q (fun k hk hqk => h.disjoint (.ready k) (.ready j)
        (fun e => hji (by cases e; exact hk)) q hqk hq)
      simpa [hq] using this
    · have hqi : q ∉ L (.ready i) := hq i (by simp)
      simpa [hqi] using hout q (fun j hj => hq j (by simp [hj]))

theorem raise_foldl (qs : List Slot) (hn : qs.Nodup) (t : Table) : qs.foldl (fun t q =>
      { t with
        priority := if 0 < t.priority q then update t.priority q (t.priority q-1) else t.priority
        budget := update t.budget q MAXBUDG }) t =
      { t with
        priority := fun q => if q ∈ qs then t.priority q-1 else t.priority q
        budget := fun q => if q ∈ qs then MAXBUDG else t.budget q } := by
  induction qs generalizing t with
  | nil => simp
  | cons a qs ih =>
    obtain ⟨ha,hn⟩ := List.nodup_cons.mp hn
    rw [List.foldl_cons, ih hn]
    simp only [Table.mk.injEq, and_true, true_and]
    constructor
    · funext q
      by_cases hq : q = a
      · subst hq
        by_cases h0 : 0 < t.priority q
        · simp [h0, ha]
        · simp [ha, show t.priority q = 0 by omega]
      · by_cases h0 : 0 < t.priority a <;> simp [h0, hq]
    · funext q
      by_cases hq : q = a <;> simp [hq]

theorem raise_spec (h : Rep t.lists L) (l : ListId) :
    raise l t = .ok { t with
      priority := fun q => if q ∈ L l then t.priority q-1 else t.priority q
      budget := fun q => if q ∈ L l then MAXBUDG else t.budget q } := by
  rw [raise, h.walk, ok_bind, raise_foldl _ (h.queue l).nodup]
  rfl

end Reset

structure Promoted (t u : Table) (L : ListId → List Slot) : Prop where
  same : u = { t with
    lists := promoteLists t.lists
    priority := u.priority
    budget := u.budget
    promoteAtTime := t.ticks+TICKS_TO_PROMOTE }
  ready : ∀ i, ∀ q ∈ promoted L (.ready i), u.priority q = i ∧ u.budget q = MAXBUDG
  waiting : ∀ q, q ∈ L .sleep ∨ q ∈ L .running →
    u.priority q = t.priority q-1 ∧ u.budget q = MAXBUDG
  other : ∀ q, q ∈ L .free ∨ q ∈ L .embryo ∨ q ∈ L .zombie →
    u.priority q = t.priority q ∧ u.budget q = t.budget q

section Promote

variable {leak : Prop} {t : Table} {L : ListId → List Slot} {p : Slot} {i : Level}

theorem promoted_other (l : ListId) (h : ∀ i, l ≠ .ready i) : promoted L l = L l := by
  cases l with
  | ready i => exact absurd rfl (h i)
  | _ => simp [promoted, source, spliced]

theorem mem_promoted_ready (hp : p ∈ promoted L (.ready i)) : ∃ j, p ∈ L (.ready j) := by
  simp only [promoted, source] at hp
  split_ifs at hp with h0 h1
  · simp only [spliced] at hp
    rw [update_of_ne (by decide), update_self] at hp
    rcases List.mem_append.mp hp with hp | hp
    · exact ⟨0,hp⟩
    · exact ⟨1,hp⟩
  · have hi : ListId.ready ⟨i.val+1,Nat.succ_lt_succ h1⟩ ≠ .ready 0 := fun e =>
      Nat.succ_ne_zero _ (congrArg Fin.val (ListId.ready.inj e))
    have hi' : ListId.ready ⟨i.val+1,Nat.succ_lt_succ h1⟩ ≠ .ready 1 := fun e =>
      h0 (Fin.ext (Nat.succ.inj (congrArg Fin.val (ListId.ready.inj e))))
    simp only [spliced] at hp
    rw [update_of_ne hi', update_of_ne hi] at hp
    exact ⟨_,hp⟩
  · simp at hp

theorem promoted_infix (L : ListId → List Slot) (i : Level) :
    ∃ j, L (.ready i) <:+: promoted L (.ready j) := by
  by_cases hi : i.val ≤ 1
  · refine ⟨0,?_⟩
    simp only [promoted, source, if_true, spliced]
    rw [update_of_ne (by decide), update_self]
    obtain h0 | h1 : i = 0 ∨ i = 1 := by
      rcases i with ⟨_ | _ | n,hn⟩
      · exact Or.inl rfl
      · exact Or.inr rfl
      · simp at hi
    · exact h0 ▸ (List.prefix_append _ _).isInfix
    · exact h1 ▸ (List.suffix_append _ _).isInfix
  have hb := i.isLt
  refine ⟨⟨i.val-1,by omega⟩,?_⟩
  have h0 : (⟨i.val-1,by omega⟩ : Level) ≠ 0 := fun e => by
    have : i.val-1 = 0 := congrArg Fin.val e
    omega
  have h1 : i.val-1 < MAXPRIO := by simp only [levels] at hb; omega
  have he : (⟨i.val-1+1,Nat.succ_lt_succ h1⟩ : Level) = i := by
    apply Fin.ext
    simp only
    omega
  have hi0 : i ≠ 0 := fun e => hi (by simp [e])
  have hi1 : i ≠ 1 := fun e => hi (by rw [e]; decide)
  simp only [promoted, source, if_neg h0, dif_pos h1, he, spliced]
  rw [update_of_ne (by simpa using hi1), update_of_ne (by simpa using hi0)]

theorem mem_promoted (hp : p ∈ L (.ready i)) : ∃ j, p ∈ promoted L (.ready j) := by
  obtain ⟨j,hj⟩ := promoted_infix L i
  exact ⟨j,hj.subset hp⟩

theorem promoteAll_early (hb : t.ticks < t.promoteAtTime) : promoteAll t = .ok t := by
  rw [promoteAll, if_pos hb]

theorem mem_promoted_iff {l : ListId} (h : ∀ i, l ≠ .ready i) : p ∈ promoted L l ↔ p ∈ L l := by
  rw [promoted_other l h]

theorem promoteAll_rep (h : Rep t.lists L) (hb : ¬ t.ticks < t.promoteAtTime) :
    ∃ u, promoteAll t = .ok u ∧ Promoted t u L := by
  have hr : Rep (promoteLists t.lists) (promoted L) := promoteLists_rep h
  obtain ⟨u,hu,hsame,hin,hout⟩ := resetReady_spec (t := { t with lists := promoteLists t.lists })
    hr ((List.finRange MAXPRIO).map Fin.castSucc)
  have hul : Rep u.lists (promoted L) := by rw [hsame]; exact hr
  have hs := raise_spec hul .sleep
  have hrun := raise_spec (t := { u with
    priority := fun q => if q ∈ promoted L .sleep then u.priority q-1 else u.priority q
    budget := fun q => if q ∈ promoted L .sleep then MAXBUDG else u.budget q }) hul .running
  have hlast : promoted L (.ready (Fin.last MAXPRIO)) = [] := rfl
  have hmem : ∀ i, ∀ q ∈ promoted L (.ready i), u.priority q = i ∧ u.budget q = MAXBUDG := by
    intro i q hq
    by_cases hi : i = Fin.last MAXPRIO
    · rw [hi, hlast] at hq
      cases hq
    · exact hin i (List.mem_map.mpr ⟨i.castPred hi,List.mem_finRange _,by simp⟩) q hq
  have hoff : ∀ q, (∀ i, q ∉ promoted L (.ready i)) →
      u.priority q = t.priority q ∧ u.budget q = t.budget q := fun q hq =>
    hout q (fun i _ => hq i)
  have hdis : ∀ l, (∀ i, l ≠ .ready i) → ∀ q ∈ L l, ∀ i, q ∉ promoted L (.ready i) := by
    intro l hl q hq i
    exact hr.disjoint l (.ready i) (hl i) q ((mem_promoted_iff hl).mpr hq)
  refine ⟨_,by simp only [promoteAll, if_neg hb, hu, ok_bind, hs, hrun]; rfl,?_⟩
  have hsl : promoted L .sleep = L .sleep := promoted_other _ (by simp)
  have hrl : promoted L .running = L .running := promoted_other _ (by simp)
  simp only [hsl, hrl]
  refine ⟨by rw [hsame],fun i q hq => ?_,fun q hq => ?_,fun q hq => ?_⟩
  · have h1 : q ∉ L .sleep := fun hm => hdis .sleep (by simp) q hm i hq
    have h2 : q ∉ L .running := fun hm => hdis .running (by simp) q hm i hq
    simpa [h1, h2] using hmem i q hq
  · have hne : q ∈ L .sleep → q ∉ L .running := h.disjoint .sleep .running (by simp) q
    rcases hq with hq | hq
    · have := hoff q (hdis .sleep (by simp) q hq)
      simp [hq, hne hq, this.1]
    · have := hoff q (hdis .running (by simp) q hq)
      have hns : q ∉ L .sleep := fun hm => hne hm hq
      simp [hq, hns, this.1]
  have hx : ∀ l, l ≠ .sleep → l ≠ .running → (∀ i, l ≠ .ready i) → q ∈ L l →
      (q ∉ L .sleep ∧ q ∉ L .running) ∧ u.priority q = t.priority q ∧ u.budget q = t.budget q :=
    fun l h1 h2 h3 hm => ⟨⟨h.disjoint l .sleep h1 q hm,h.disjoint l .running h2 q hm⟩,
      hoff q (hdis l h3 q hm)⟩
  obtain ⟨⟨h1,h2⟩,h3,h4⟩ : (q ∉ L .sleep ∧ q ∉ L .running) ∧
      u.priority q = t.priority q ∧ u.budget q = t.budget q := by
    rcases hq with hq | hq | hq
    · exact hx .free (by simp) (by simp) (by simp) hq
    · exact hx .embryo (by simp) (by simp) (by simp) hq
    · exact hx .zombie (by simp) (by simp) (by simp) hq
  simp [h1, h2, h3, h4]

section

variable (h : Listed leak none t L)
include h

theorem promoteAll_run (hb : ¬ t.ticks < t.promoteAtTime) :
    ∃ u, promoteAll t = .ok u ∧ Promoted t u L :=
  promoteAll_rep h.rep hb

theorem Promoted.listed {u : Table} (hp : Promoted t u L) : Listed leak none u (promoted L) := by
  have hst : u.state = t.state := by rw [hp.same]
  have hrep : Rep u.lists (promoted L) := by rw [hp.same]; exact promoteLists_rep h.rep
  have hcase : ∀ l, ∀ q ∈ promoted L l, Fits leak u q l := by
    intro l q hq
    cases l with
    | ready i =>
      obtain ⟨j,hj⟩ := mem_promoted_ready hq
      exact ⟨by rw [hst]; exact (h.fits _ q hj).1,(hp.ready i q hq).1⟩
    | _ =>
      rw [promoted_other _ (by simp)] at hq
      have := h.fits _ q hq
      simpa [Fits, hst] using this
  have htot : ∀ q, ∃ l, q ∈ promoted L l := by
    intro q
    obtain ⟨l,hl⟩ := h.total q (by simp)
    cases l with
    | ready i =>
      obtain ⟨j,hj⟩ := mem_promoted hl
      exact ⟨_,hj⟩
    | _ =>
      refine ⟨_,(mem_promoted_iff ?_).mpr hl⟩
      simp
  refine ⟨hrep,fun q _ => htot q,by simp,hcase,fun q => ?_⟩
  have hb := h.prio q
  obtain ⟨l,hl⟩ := h.total q (by simp)
  cases l with
  | ready i =>
    obtain ⟨j,hj⟩ := mem_promoted hl
    rw [(hp.ready j q hj).1]
    exact Nat.le_of_lt_succ j.isLt
  | free => exact (hp.other q (Or.inl hl)).1 ▸ hb
  | embryo => exact (hp.other q (Or.inr (Or.inl hl))).1 ▸ hb
  | zombie => exact (hp.other q (Or.inr (Or.inr hl))).1 ▸ hb
  | sleep => exact (hp.waiting q (Or.inl hl)).1 ▸ (Nat.sub_le _ _).trans hb
  | running => exact (hp.waiting q (Or.inr hl)).1 ▸ (Nat.sub_le _ _).trans hb

theorem promoteAll_spec : ∃ u M, promoteAll t = .ok u ∧ Listed leak none u M ∧ M .free = L .free ∧
      u = { t with
        lists := u.lists
        priority := u.priority
        budget := u.budget
        promoteAtTime := u.promoteAtTime } ∧ (M = L ∨ M = promoted L) := by
  by_cases hb : t.ticks < t.promoteAtTime
  · exact ⟨t,L,promoteAll_early hb,h,rfl,rfl,Or.inl rfl⟩
  · obtain ⟨u,hu,hp⟩ := promoteAll_run h hb
    exact ⟨u,_,hu,hp.listed h,promoted_other .free (by simp),by rw [hp.same],Or.inr rfl⟩

theorem setPriority_spec (pid : Uint) (priority : Int) :
    ∃ r b u, setPriority pid priority t = .ok (r,b,u) ∧ Listed leak none u L ∧
      u = { t with priority := u.priority, budget := u.budget } := by
  rw [setPriority]
  rcases findPid_spec h pid readyLists with hf | ⟨l,hl,q,hq,_,hf⟩
  · rw [hf, ok_bind]
    rcases findPid_spec h pid [.running,.sleep] with hg | ⟨l,hl,q,hq,_,hg⟩
    · simp only [hg, ok_bind]
      exact ⟨_,_,_,rfl,h,rfl⟩
    simp only [hg, ok_bind]
    have hs : t.state q ≠ .runnable := by
      simp only [List.mem_cons, List.not_mem_nil, or_false] at hl
      rcases hl with rfl | rfl
      · simp [show t.state q = .running from h.fits _ q hq]
      · simp [show t.state q = .sleeping from h.fits _ q hq]
    split_ifs with hr
    · refine ⟨_,_,_,rfl,h.setPriority (p := q) hs rfl rfl (fun r hr => by simp [hr]) ?_,rfl⟩
      have := hr.2
      simp only [update_self]
      omega
    · exact ⟨_,_,_,rfl,h,rfl⟩
  · rw [hf, ok_bind]
    obtain ⟨i,rfl⟩ : ∃ i, ListId.ready i = l := by simpa [readyLists] using hl
    have hi : t.priority q = i := (h.fits _ q hq).2
    simp only [level, hi, if_true]
    exact ⟨_,_,_,rfl,h,rfl⟩

end

end Promote

end Yeet.ProcPrio
