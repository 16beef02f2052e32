import YeetKernel.Chain
import YeetKernel.Kernel

/-!
# The process state lists

All twelve lists of `struct state_lists` run through the one `next` field of
the process table. The three primitives are translated statement by statement.
-/

namespace Yeet.StateLists
open Kernel Chain

abbrev Slot := Fin NPROC

inductive ListId where
  | free
  | embryo
  | sleep
  | zombie
  | running
  | ready (i : Level)
  deriving DecidableEq, Repr

structure Lists where
  next : Slot → Option Slot
  head : ListId → Option Slot
  tail : ListId → Option Slot

def stateListAdd (l : ListId) (p : Slot) (ls : Lists) : Except Fault Lists :=
  match ls.head l with
  | none => .ok
      { next := Function.update ls.next p none
        head := Function.update ls.head l (some p)
        tail := Function.update ls.tail l (some p) }
  | some _ =>
    match ls.tail l with
    | none => .error .nullDeref
    | some t => .ok
        { next := Function.update (Function.update ls.next t (some p)) p none
          head := ls.head
          tail := Function.update ls.tail l (some p) }

def stateListAddAtHead (l : ListId) (p : Slot) (ls : Lists) : Lists :=
  match ls.head l with
  | none =>
      { next := Function.update ls.next p none
        head := Function.update ls.head l (some p)
        tail := Function.update ls.tail l (some p) }
  | some h =>
      { next := Function.update ls.next p (some h)
        head := Function.update ls.head l (some p)
        tail := ls.tail }

/-- The search loop of `stateListRemove`: the last `previous` and `current`. -/
def findNode (next : Slot → Option Slot) (p : Slot) :
    ℕ → Option Slot → Option Slot → Except Fault (Option Slot × Option Slot)
  | _, previous, none => .ok (previous,none)
  | 0, _, some _ => .error .spin
  | n+1, previous, some c =>
    if c = p then .ok (previous,some c) else findNode next p n (some c) (next c)

/-- With an empty list the diagnostic of the source reads `(*head)->pid`. -/
def stateListRemove (l : ListId) (p : Slot) (ls : Lists) : Except Fault (Int × Lists) :=
  match ls.head l, ls.tail l with
  | none, _ => .error .nullDeref
  | some _, none => .ok (-1,ls)
  | some h, some t =>
    if h = p then
      .ok (0,{ ls with
        head := Function.update ls.head l (ls.next h)
        tail := if t = p then Function.update ls.tail l none else ls.tail })
    else do
      let (previous,current) ← findNode ls.next p NPROC none (some h)
      match current, previous with
      | none, _ => .ok (-1,ls)
      | some _, none => .error .nullDeref
      | some c, some q =>
        if c = t then
          .ok (0,{ ls with
            next := Function.update (Function.update ls.next q none) p none
            tail := Function.update ls.tail l (some q) })
        else
          .ok (0,{ ls with
            next := Function.update (Function.update ls.next q (ls.next c)) p none })

def initProcessLists (ls : Lists) : Lists :=
  { ls with head := fun _ => none, tail := fun _ => none }

def walkFrom (ls : Lists) (start : Option Slot) : Except Fault (List Slot) :=
  match walk ls.next NPROC start with
  | some l => .ok l
  | none => .error .spin

/-- Every list is well formed for its sequence and no process is on two lists. -/
structure Rep (ls : Lists) (L : ListId → List Slot) : Prop where
  queue : ∀ l, Queue ls.next (ls.head l) (ls.tail l) (L l)
  disjoint : ∀ l m, l ≠ m → ∀ p ∈ L l, p ∉ L m

variable {ls : Lists} {L : ListId → List Slot} {l : ListId} {p : Slot}

theorem Rep.length_le (h : Rep ls L) (l : ListId) : (L l).length ≤ NPROC := by
  simpa using (h.queue l).nodup.length_le_card

theorem Rep.walk (h : Rep ls L) (l : ListId) : walkFrom ls (ls.head l) = .ok (L l) := by
  rw [walkFrom, walk_seg ls.next NPROC _ _ (h.queue l).seg (h.length_le l)]

theorem Rep.replace (h : Rep ls L) (l : ListId)
    (next : Slot → Option Slot) (head tail : Option Slot) (m : List Slot)
    (hq : Queue next head tail m) (hf : ∀ k, k ≠ l → Queue next (ls.head k) (ls.tail k) (L k))
    (hd : ∀ k, k ≠ l → ∀ p ∈ m, p ∉ L k) :
    Rep ⟨next,Function.update ls.head l head,Function.update ls.tail l tail⟩
      (Function.update L l m) := by
  constructor
  · intro k
    by_cases hk : k = l
    · subst hk; simpa using hq
    · simpa [hk] using hf k hk
  intro j k hjk p hp
  by_cases hj : j = l
  · subst hj
    simp only [Function.update_self] at hp
    simpa [Ne.symm hjk] using hd k (Ne.symm hjk) p hp
  rw [Function.update_of_ne hj] at hp
  by_cases hk : k = l
  · subst hk
    simp only [Function.update_self]
    exact fun hm => hd j hj p hm hp
  · simpa [hk] using h.disjoint j k hjk p hp

/-- The pair of `l` stands for `M` instead of `K`. No other pair changes, and `next` only
of `p` and of processes in `K`. -/
structure Relinked (ls ls' : Lists) (l : ListId) (p : Slot) (K M : List Slot) : Prop where
  queue : Queue ls'.next (ls'.head l) (ls'.tail l) M
  next : ∀ q, q ∉ K → q ≠ p → ls'.next q = ls.next q
  head : ls'.head = Function.update ls.head l (ls'.head l)
  tail : ls'.tail = Function.update ls.tail l (ls'.tail l)

theorem Rep.relinked {ls' : Lists} {M : List Slot} (h : Rep ls L)
    (hr : Relinked ls ls' l p (L l) M) (hp : ∀ k, k ≠ l → p ∉ L k)
    (hM : ∀ q ∈ M, q ∈ L l ∨ q = p) : Rep ls' (Function.update L l M) := by
  have hd : ∀ k, k ≠ l → ∀ q ∈ M, q ∉ L k := by
    intro k hk q hq
    rcases hM q hq with hq | rfl
    · exact h.disjoint l k (Ne.symm hk) q hq
    · exact hp k hk
  have hf : ∀ k, k ≠ l → Queue ls'.next (ls.head k) (ls.tail k) (L k) := by
    intro k hk
    refine (h.queue k).congr (fun q hq => hr.next q (h.disjoint k l hk q hq) ?_)
    rintro rfl
    exact hp k hk hq
  have := h.replace l ls'.next (ls'.head l) (ls'.tail l) M hr.queue hf hd
  rwa [← hr.head, ← hr.tail] at this

section Single

variable {l : ListId} {p : Slot} {K : List Slot} (hq : Queue ls.next (ls.head l) (ls.tail l) K)
include hq

theorem add_relinks (hp : p ∉ K) :
    ∃ ls', stateListAdd l p ls = .ok ls' ∧ Relinked ls ls' l p K (K++[p]) := by
  cases hh : ls.head l with
  | none =>
    obtain rfl := hq.head_none_iff.mp hh
    simp only [stateListAdd, hh]
    refine ⟨_,rfl,?_,fun q _ hne => Function.update_of_ne hne _ _,?_,?_⟩
    · simpa using queue_singleton ls.next p
    · simp
    · simp
  | some a =>
    cases ht : ls.tail l with
    | none =>
      rw [hq.head_none_iff.mpr (hq.tail_none_iff.mp ht)] at hh
      cases hh
    | some t =>
      have htK : t ∈ K := List.mem_of_getLast? (hq.last ▸ ht)
      simp only [stateListAdd, hh, ht]
      refine ⟨_,rfl,?_,fun q hqK hne => ?_,?_,?_⟩
      · simpa using hq.append p t hp ht
      · have hqt : q ≠ t := fun e => hqK (e ▸ htK)
        simp [hne, hqt]
      · simp
      · simp

theorem addAtHead_relinks (hp : p ∉ K) : Relinked ls (stateListAddAtHead l p ls) l p K (p::K) := by
  cases hh : ls.head l with
  | none =>
    obtain rfl := hq.head_none_iff.mp hh
    simp only [stateListAddAtHead, hh]
    refine ⟨?_,fun q _ hne => Function.update_of_ne hne _ _,?_,?_⟩
    · simpa using queue_singleton ls.next p
    · simp
    · simp
  | some a =>
    have hK : K ≠ [] := fun he => by
      rw [hq.head_none_iff.mpr he] at hh
      cases hh
    simp only [stateListAddAtHead, hh]
    refine ⟨?_,fun q _ hne => Function.update_of_ne hne _ _,?_,?_⟩
    · simpa [hh] using hq.push p hp hK
    · simp
    · simp

end Single

theorem add_spec (h : Rep ls L) (l : ListId) (p : Slot)
    (hp : ∀ k, p ∉ L k) : ∃ ls', stateListAdd l p ls = .ok ls' ∧
      Rep ls' (Function.update L l (L l++[p])) := by
  obtain ⟨ls',ha,hr⟩ := add_relinks (h.queue l) (hp l)
  exact ⟨ls',ha,h.relinked hr (fun k _ => hp k) (by simp)⟩

theorem addAtHead_spec (h : Rep ls L) (l : ListId) (p : Slot) (hp : ∀ k, p ∉ L k) :
    Rep (stateListAddAtHead l p ls) (Function.update L l (p::L l)) :=
  h.relinked (addAtHead_relinks (h.queue l) (hp l)) (fun k _ => hp k) (by simp [or_comm])

theorem findNode_seg (next : Slot → Option Slot) (p : Slot) (m r : List Slot) (q : Slot)
    (n : ℕ) (prev start : Option Slot) (hs : Seg next start (m++q::p::r) none)
    (hp : p ∉ m++[q]) (hn : (m++q::p::r).length ≤ n) :
    findNode next p n prev start = .ok (some q,some p) := by
  induction m generalizing n prev start with
  | nil =>
    obtain ⟨rfl,hq,hs⟩ := hs
    obtain _ | _ | n := n
    · simp at hn
    · simp at hn
    · have hqp : q ≠ p := fun e => hp (by simp [e])
      simp [findNode, hqp, hq]
  | cons a m ih =>
    obtain ⟨rfl,hs⟩ := hs
    obtain _ | n := n
    · simp at hn
    · have hap : a ≠ p := fun e => hp (by simp [e])
      simp only [findNode, if_neg hap]
      exact ih n _ _ hs (fun hm => hp (by simp at hm ⊢; tauto)) (by simpa using hn)

theorem mem_split {l : List Slot} (hd : l.Nodup) (hp : p ∈ l)
    (hn : l.head? ≠ some p) : ∃ m q r, l = m++q::p::r ∧ p ∉ m++[q] ∧ p ∉ r := by
  obtain ⟨m,r,rfl⟩ := List.append_of_mem hp
  obtain ⟨_,hr,hm⟩ := List.nodup_append.mp hd
  obtain rfl | ⟨m,q,rfl⟩ := List.eq_nil_or_concat m
  · simp at hn
  · refine ⟨m,q,r,by simp,fun h => ?_,(List.nodup_cons.mp hr).1⟩
    exact hm p (by simpa using h) p (by simp) rfl

theorem findNode_absent {next : Slot → Option Slot} {m : List Slot} {n : ℕ}
    {start : Option Slot} (prev : Option Slot) (hs : Seg next start m none) (hp : p ∉ m)
    (hn : m.length ≤ n) : ∃ prev', findNode next p n prev start = .ok (prev',none) := by
  induction m generalizing n prev start with
  | nil =>
    obtain rfl : start = none := hs
    exact ⟨prev,by unfold findNode; rfl⟩
  | cons a m ih =>
    obtain ⟨rfl,hs⟩ := hs
    obtain ⟨hap,hpm⟩ := not_or.mp (mt List.mem_cons.mpr hp)
    obtain _ | n := n
    · simp at hn
    · simp only [findNode, if_neg (Ne.symm hap)]
      exact ih _ hs hpm (by simpa using hn)

section Remove

variable {l : ListId} {p : Slot} {K : List Slot} (hq : Queue ls.next (ls.head l) (ls.tail l) K)
include hq

theorem remove_head (hh : ls.head l = some p) :
    ∃ ls', stateListRemove l p ls = .ok (0,ls') ∧ Relinked ls ls' l p K (K.erase p) := by
  obtain ⟨r,rfl⟩ : ∃ r, K = p::r := by
    have := hq.head_eq
    rw [hh] at this
    exact ⟨_,List.eq_cons_of_mem_head? this.symm⟩
  have ht := hq.last
  rw [List.erase_cons_head]
  by_cases hr0 : r = []
  · subst hr0
    have hn : ls.next p = none := hq.seg.2
    have hrun : stateListRemove l p ls = .ok (0,{ ls with
        head := Function.update ls.head l none, tail := Function.update ls.tail l none }) := by
      simp [stateListRemove, hh, ht, hn]
    refine ⟨_,hrun,?_,fun _ _ _ => rfl,?_,?_⟩
    · simpa using queue_empty _
    · simp
    · simp
  rw [List.getLast?_cons_of_ne_nil hr0] at ht
  obtain ⟨t,hrt⟩ := Option.ne_none_iff_exists'.mp (mt List.getLast?_eq_none_iff.mp hr0)
  have htp : t ≠ p := by
    rintro rfl
    exact (List.nodup_cons.mp hq.nodup).1 (List.mem_of_getLast? hrt)
  have hrun : stateListRemove l p ls = .ok (0,{ ls with
      head := Function.update ls.head l (ls.next p) }) := by
    simp [stateListRemove, hh, ht.trans hrt, htp]
  refine ⟨_,hrun,?_,fun _ _ _ => rfl,?_,?_⟩
  · simpa using hq.pop hr0
  · simp
  · simp

theorem remove_inner {a : Slot} (hh : ls.head l = some a) (hap : a ≠ p)
    {m r : List Slot} {q : Slot} (hl : K = m++q::p::r) (hpm : p ∉ m++[q]) (hpr : p ∉ r) :
    ∃ ls', stateListRemove l p ls = .ok (0,ls') ∧ Relinked ls ls' l p K (K.erase p) := by
  subst hl
  have hlen := hq.nodup.length_le_card
  rw [Fintype.card_fin] at hlen
  have hfind := findNode_seg ls.next p m r q NPROC none (some a) (hh ▸ hq.seg) hpm hlen
  have he : (m++q::p::r).erase p = m++q::r := by
    rw [show m++q::p::r = (m++[q])++p::r by simp, List.erase_append_right _ hpm]
    simp
  have hpe : p ∉ m++q::r := by simp at hpm ⊢; tauto
  have hnext : ∀ v z, z ∉ m++q::p::r → z ≠ p →
      Function.update (Function.update ls.next q v) p none z = ls.next z := by
    intro v z hz hzp
    have hzq : z ≠ q := by
      rintro rfl
      exact hz (by simp)
    simp [hzp, hzq]
  have ht := hq.last
  rw [he]
  by_cases hr0 : r = []
  · subst hr0
    have htp : ls.tail l = some p := by simpa using ht
    have hrun : stateListRemove l p ls = .ok (0,{ ls with
        next := Function.update (Function.update ls.next q none) p none
        tail := Function.update ls.tail l (some q) }) := by
      simp [stateListRemove, hh, htp, hap, hfind]
    refine ⟨_,hrun,?_,hnext none,?_,?_⟩
    · simpa using hq.dropLast.frame p none hpe
    · simp
    · simp
  obtain ⟨t,hrt⟩ := Option.ne_none_iff_exists'.mp (mt List.getLast?_eq_none_iff.mp hr0)
  have htt : ls.tail l = some t := by
    rw [ht, show m++q::p::r = (m++[q,p])++r by simp, List.getLast?_append_of_ne_nil _ hr0, hrt]
  have hpt : p ≠ t := fun e => hpr (e ▸ List.mem_of_getLast? hrt)
  have hrun : stateListRemove l p ls = .ok (0,{ ls with
      next := Function.update (Function.update ls.next q (ls.next p)) p none }) := by
    simp [stateListRemove, hh, htt, hap, hfind, hpt]
  refine ⟨_,hrun,?_,hnext _,?_,?_⟩
  · exact (hq.unlink hr0).frame p none hpe
  · simp
  · simp

theorem remove_relinks (hp : p ∈ K) :
    ∃ ls', stateListRemove l p ls = .ok (0,ls') ∧ Relinked ls ls' l p K (K.erase p) := by
  obtain ⟨a,ha⟩ := Option.ne_none_iff_exists'.mp (mt hq.head_none_iff.mp (List.ne_nil_of_mem hp))
  by_cases hap : a = p
  · exact remove_head hq (hap ▸ ha)
  · obtain ⟨m,q,r,hl,hpm,hpr⟩ := mem_split hq.nodup hp (by rw [← hq.head_eq, ha]; simpa using hap)
    exact remove_inner hq ha hap hl hpm hpr

theorem remove_absent (hp : p ∉ K) (hK : K ≠ []) : stateListRemove l p ls = .ok (-1,ls) := by
  obtain ⟨a,ha⟩ := Option.ne_none_iff_exists'.mp (mt hq.head_none_iff.mp hK)
  obtain ⟨t,ht⟩ := Option.ne_none_iff_exists'.mp (mt hq.tail_none_iff.mp hK)
  have hap : a ≠ p := by
    rintro rfl
    have := hq.head_eq
    rw [ha] at this
    exact hp (List.mem_of_head? this.symm)
  have hlen := hq.nodup.length_le_card
  rw [Fintype.card_fin] at hlen
  obtain ⟨prev,hf⟩ := findNode_absent none hq.seg hp hlen
  rw [ha] at hf
  simp [stateListRemove, ha, ht, hap, hf]

end Remove

theorem remove_spec (h : Rep ls L) (hp : p ∈ L l) : ∃ ls', stateListRemove l p ls = .ok (0,ls') ∧
      Rep ls' (Function.update L l ((L l).erase p)) := by
  obtain ⟨ls',ha,hr⟩ := remove_relinks (h.queue l) hp
  exact ⟨ls',ha,h.relinked hr (fun k hk => h.disjoint l k (Ne.symm hk) p hp)
    (fun q hq => Or.inl (List.mem_of_mem_erase hq))⟩

/-- The primitives on one list, whatever the others are: they append, push and erase, and
the search for a process that is not there changes nothing. -/
theorem stateList_refines {l : ListId} {K : List Slot}
    (hq : Queue ls.next (ls.head l) (ls.tail l) K) (p : Slot) :
    (p ∉ K → (∃ ls', stateListAdd l p ls = .ok ls' ∧ Relinked ls ls' l p K (K++[p])) ∧
      Relinked ls (stateListAddAtHead l p ls) l p K (p::K)) ∧
    (p ∈ K → ∃ ls', stateListRemove l p ls = .ok (0,ls') ∧ Relinked ls ls' l p K (K.erase p)) ∧
    (p ∉ K → K ≠ [] → ∃ ls', stateListRemove l p ls = .ok (-1,ls') ∧ Relinked ls ls' l p K K) := by
  refine ⟨fun hp => ⟨add_relinks hq hp,addAtHead_relinks hq hp⟩,remove_relinks hq,fun hp hK => ?_⟩
  exact ⟨ls,remove_absent hq hp hK,hq,fun _ _ _ => rfl,by simp,by simp⟩

/-- Slot `n` of a process table of 64. -/
def slotOf (n : ℕ) : Slot := ⟨n%NPROC,Nat.mod_lt n (by decide)⟩

/-- A free list of three slots. -/
def threeFree : Lists where
  next q := if q = slotOf 5 then some (slotOf 6) else if q = slotOf 6 then some (slotOf 7) else none
  head l := if l = .free then some (slotOf 5) else none
  tail l := if l = .free then some (slotOf 7) else none

theorem stateList_refines_middle :
    (∃ ls', stateListRemove .free (slotOf 6) threeFree = .ok (0,ls') ∧
      Relinked threeFree ls' .free (slotOf 6) [slotOf 5,slotOf 6,slotOf 7] [slotOf 5,slotOf 7]) ∧
    (∃ ls', stateListRemove .free (slotOf 9) threeFree = .ok (-1,ls') ∧
      Relinked threeFree ls' .free (slotOf 9) [slotOf 5,slotOf 6,slotOf 7]
        [slotOf 5,slotOf 6,slotOf 7]) ∧
    Relinked threeFree (stateListAddAtHead .free (slotOf 9) threeFree) .free (slotOf 9)
      [slotOf 5,slotOf 6,slotOf 7] [slotOf 9,slotOf 5,slotOf 6,slotOf 7] := by
  have hq : Queue threeFree.next (threeFree.head .free) (threeFree.tail .free)
      [slotOf 5,slotOf 6,slotOf 7] := ⟨by repeat constructor,rfl,by decide⟩
  have hin := stateList_refines hq (slotOf 6)
  have hout := stateList_refines hq (slotOf 9)
  exact ⟨hin.2.1 (by decide),hout.2.2 (by decide) (by decide),(hout.1 (by decide)).2⟩

end Yeet.StateLists
