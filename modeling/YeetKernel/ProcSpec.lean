import YeetKernel.ProcTable

/-!
# What each critical section does to well-placed processes

`Listed` states that the lists describe sequences, that every process except
possibly one in transit is on a list, and that the list agrees with its state
and priority.
-/

namespace Yeet.ProcSpec
open Kernel Chain StateLists ProcTable Function

/-- A process on list `l` has the state and priority the list stands for. If
kernel stacks may run out (`leak`), an unused slot can be left on `embryo`. -/
def Fits (leak : Prop) (t : Table) (p : Slot) : ListId → Prop
  | .free => t.state p = .unused
  | .embryo => t.state p = .embryo ∨ leak ∧ t.state p = .unused
  | .sleep => t.state p = .sleeping
  | .zombie => t.state p = .zombie
  | .running => t.state p = .running
  | .ready i => t.state p = .runnable ∧ t.priority p = i

structure Listed (leak : Prop) (off : Option Slot) (t : Table) (L : ListId → List Slot) : Prop where
  rep : Rep t.lists L
  total : ∀ p, off ≠ some p → ∃ l, p ∈ L l
  absent : ∀ p, off = some p → ∀ l, p ∉ L l
  fits : ∀ l, ∀ p ∈ L l, Fits leak t p l
  prio : ∀ p, t.priority p ≤ MAXPRIO

section Basic

variable {leak : Prop} {off : Option Slot} {t u : Table} {L : ListId → List Slot} {p : Slot}
variable {n : ℕ}

theorem Listed.congr (h : Listed leak off t L) (hl : u.lists = t.lists)
    (hs : u.state = t.state) (hp : u.priority = t.priority) : Listed leak off u L := by
  refine ⟨hl ▸ h.rep,h.total,h.absent,fun l q hq => ?_,hp ▸ h.prio⟩
  have := h.fits l q hq
  cases l <;> simpa [Fits, hs, hp] using this

theorem Listed.transit (h : Listed leak (some p) t L) (hl : u.lists = t.lists)
    (hs : ∀ q, q ≠ p → u.state q = t.state q)
    (hp : ∀ q, q ≠ p → u.priority q = t.priority q) (hb : u.priority p ≤ MAXPRIO) :
    Listed leak (some p) u L := by
  refine ⟨hl ▸ h.rep,h.total,h.absent,fun l q hq => ?_,fun q => ?_⟩
  · have hqp : q ≠ p := fun e => h.absent p rfl l (e ▸ hq)
    have := h.fits l q hq
    cases l <;> simpa [Fits, hs q hqp, hp q hqp] using this
  · by_cases hqp : q = p
    · exact hqp ▸ hb
    · exact hp q hqp ▸ h.prio q

theorem Listed.setState (h : Listed leak (some p) t L) (st : ProcState) :
    Listed leak (some p) (t.setState p st) L :=
  h.transit rfl (fun q hq => by simp [Table.setState, hq]) (fun _ _ => rfl) (h.prio p)

theorem Listed.unique (h : Listed leak off t L) {l m : ListId} (hl : p ∈ L l) (hm : p ∈ L m) :
    l = m := by
  by_contra hne
  exact h.rep.disjoint l m hne p hl hm

section

variable (h : Listed leak none t L)
include h

theorem Listed.mem_of_fits {l : ListId} (hl : ∀ m, Fits leak t p m → m = l) : p ∈ L l := by
  obtain ⟨m,hm⟩ := h.total p (by simp)
  exact hl m (h.fits m p hm) ▸ hm

theorem Listed.mem_running (hs : t.state p = .running) : p ∈ L .running :=
  h.mem_of_fits (fun m hm => by cases m <;> simp_all [Fits])

theorem Listed.mem_embryo (hs : t.state p = .embryo) : p ∈ L .embryo :=
  h.mem_of_fits (fun m hm => by cases m <;> simp_all [Fits])

theorem Listed.mem_sleep (hs : t.state p = .sleeping) : p ∈ L .sleep :=
  h.mem_of_fits (fun m hm => by cases m <;> simp_all [Fits])

theorem Listed.mem_zombie (hs : t.state p = .zombie) : p ∈ L .zombie :=
  h.mem_of_fits (fun m hm => by cases m <;> simp_all [Fits])

theorem Listed.mem_free (hleak : ¬ leak) (hs : t.state p = .unused) : p ∈ L .free :=
  h.mem_of_fits (fun m hm => by cases m <;> simp_all [Fits])

end

theorem Listed.mem_head (h : Listed leak off t L) {l : ListId}
    (hh : t.lists.head l = some p) : p ∈ L l := by
  have he := (h.rep.queue l).head_eq
  rw [hh] at he
  exact List.mem_of_mem_head? he.symm

theorem Listed.walk (h : Listed leak off t L) (l : ListId) :
    walkFrom t.lists (t.lists.head l) = .ok (L l) :=
  h.rep.walk l

def readyOf (n : ℕ) : ListId := .ready (Fin.ofNat levels n)

theorem readyList_eq (h : n ≤ MAXPRIO) : readyList n = .ok (readyOf n) := by
  have hn : n < MAXPRIO+1 := Nat.lt_succ_of_le h
  simp [readyList, readyOf, hn, Fin.ext_iff, Nat.mod_eq_of_lt hn]

theorem fits_ready (h : n ≤ MAXPRIO) :
    Fits leak t p (readyOf n) ↔ t.state p = .runnable ∧ t.priority p = n := by
  simp [Fits, readyOf, Nat.mod_eq_of_lt (Nat.lt_succ_of_le h)]

theorem Listed.mem_ready (h : Listed leak none t L) (hs : t.state p = .runnable) :
    p ∈ L (readyOf (t.priority p)) := by
  have hp := h.prio p
  refine h.mem_of_fits (fun m hm => ?_)
  cases m <;> simp_all [Fits, readyOf]

end Basic

section Moves

variable {leak : Prop} {t : Table} {L : ListId → List Slot} {p : Slot} {l : ListId}

theorem mem_erased {m : ListId} {q : Slot} (hn : (L l).Nodup) (hqp : q ≠ p) :
    q ∈ update L l ((L l).erase p) m ↔ q ∈ L m := by
  by_cases hm : m = l
  · subst hm
    simp [List.Nodup.mem_erase_iff hn, hqp]
  · simp [hm]

theorem leave_spec {st : ProcState} (h : Listed leak none t L) (msg : String) (hp : p ∈ L l)
    (hs : t.state p = st) : ∃ ls, leave l msg p st t = .ok { t with lists := ls } ∧
      Listed leak (some p) { t with lists := ls } (update L l ((L l).erase p)) := by
  obtain ⟨ls,hr,hrep⟩ := remove_spec h.rep hp
  have hn := (h.rep.queue l).nodup
  refine ⟨ls,by simp [leave, hr, assertState, hs],hrep,?_,?_,?_,h.prio⟩
  · intro q hq
    have hqp : q ≠ p := fun e => hq (e ▸ rfl)
    obtain ⟨m,hm⟩ := h.total q (by simp)
    exact ⟨m,(mem_erased hn hqp).mpr hm⟩
  · rintro q ⟨rfl⟩ m hm
    by_cases hml : m = l
    · subst hml
      simp [List.Nodup.mem_erase_iff hn] at hm
    · rw [update_of_ne hml] at hm
      exact hml (h.unique hm hp)
  intro m q hq
  by_cases hml : m = l
  · subst hml
    rw [update_self] at hq
    exact h.fits m q (List.mem_of_mem_erase hq)
  · rw [update_of_ne hml] at hq
    exact h.fits m q hq

theorem Listed.arrive (h : Listed leak (some p) t L) {ls : Lists} {m : List Slot}
    (hm : ∀ q, q ∈ m ↔ q = p ∨ q ∈ L l) (hrep : Rep ls (update L l m))
    (hf : Fits leak t p l) : Listed leak none { t with lists := ls } (update L l m) := by
  refine ⟨hrep,?_,by simp,?_,h.prio⟩
  · intro q _
    by_cases hqp : q = p
    · exact ⟨l,by simp [hm, hqp]⟩
    obtain ⟨k,hk⟩ := h.total q (by simpa using Ne.symm hqp)
    refine ⟨k,?_⟩
    by_cases hkl : k = l
    · subst hkl; simp [hm, hk]
    · simpa [hkl] using hk
  intro k q hq
  by_cases hkl : k = l
  · subst hkl
    rw [update_self, hm] at hq
    rcases hq with rfl | hq
    · exact hf
    · exact h.fits k q hq
  · rw [update_of_ne hkl] at hq
    exact h.fits k q hq

theorem enter_spec (h : Listed leak (some p) t L) (st : ProcState) (hs : t.state p = st)
    (hf : Fits leak t p l) : ∃ ls, enter l p st t = .ok { t with lists := ls } ∧
      Listed leak none { t with lists := ls } (update L l (L l++[p])) := by
  obtain ⟨ls,ha,hrep⟩ := add_spec h.rep l p (h.absent p rfl)
  refine ⟨ls,by simp [enter, ha, assertState, hs],h.arrive ?_ hrep hf⟩
  intro q
  simp [or_comm]

theorem enterAtHead_spec (h : Listed leak (some p) t L) (st : ProcState) (hs : t.state p = st)
    (hf : Fits leak t p l) : ∃ ls, enterAtHead l p st t = .ok { t with lists := ls } ∧
      Listed leak none { t with lists := ls } (update L l (p::L l)) := by
  refine ⟨_,by simp [enterAtHead, assertState, hs],
    h.arrive ?_ (addAtHead_spec h.rep l p (h.absent p rfl)) hf⟩
  intro q
  simp

end Moves

def move (L : ListId → List Slot) (p : Slot) (a b : ListId) : ListId → List Slot :=
  let M := update L a ((L a).erase p)
  update M b (M b++[p])

def moveFront (L : ListId → List Slot) (p : Slot) (a b : ListId) : ListId → List Slot :=
  let M := update L a ((L a).erase p)
  update M b (p::M b)

section Calls

variable {leak : Prop} {t : Table} {L : ListId → List Slot} {p np : Slot}

section

variable (h : Listed leak none t L)
include h

theorem allocproc_empty (hf : L .free = []) : allocproc t = .ok (none,t) := by
  simp [allocproc, (h.rep.queue .free).head_eq, hf]

theorem allocproc_spec {r : List Slot} (hf : L .free = p::r) :
    ∃ ls, allocproc t = .ok (some p,{ t with
        lists := ls
        state := update t.state p .embryo
        pid := update t.pid p t.nextpid
        nextpid := t.nextpid+1 }) ∧
      Listed leak none { t with lists := ls, state := update t.state p .embryo }
        (moveFront L p .free .embryo) := by
  have hp : p ∈ L .free := by simp [hf]
  obtain ⟨ls,hl,h1⟩ := leave_spec h "alloc - remove from free failed" hp (h.fits .free p hp)
  obtain ⟨ls',he,h2⟩ := enterAtHead_spec (l := .embryo) (h1.setState .embryo)
    .embryo (by simp [Table.setState]) (by simp [Fits, Table.setState])
  refine ⟨ls',?_,h2⟩
  have hh : t.lists.head .free = some p := by simp [(h.rep.queue .free).head_eq, hf]
  simp only [allocproc, hh, hl, ok_bind, he]
  rfl

theorem Listed.setPriority (hs : t.state p ≠ .runnable) {u : Table}
    (hl : u.lists = t.lists) (hst : u.state = t.state)
    (hq : ∀ q, q ≠ p → u.priority q = t.priority q) (hb : u.priority p ≤ MAXPRIO) :
    Listed leak none u L := by
  refine ⟨hl ▸ h.rep,h.total,h.absent,fun l q hql => ?_,fun q => ?_⟩
  · have := h.fits l q hql
    by_cases hqp : q = p
    · subst hqp
      cases l <;> simp_all [Fits]
    · cases l <;> simp_all [Fits]
  · by_cases hqp : q = p
    · exact hqp ▸ hb
    · exact hq q hqp ▸ h.prio q

theorem allocprocStack_listed (hs : t.state p = .embryo) :
    Listed leak none (allocprocStack p t) L :=
  h.setPriority (p := p) (by simp [hs]) rfl rfl
    (fun q hq => by simp [allocprocStack, hq]) (by simp [allocprocStack])

theorem allocprocNoStack_listed (hs : t.state p = .embryo)
    (hleak : leak) : Listed leak none (allocprocNoStack p t) L := by
  have hp := h.mem_embryo hs
  refine ⟨h.rep,h.total,h.absent,fun l q hq => ?_,h.prio⟩
  by_cases hqp : q = p
  · subst hqp
    obtain rfl := h.unique hq hp
    exact Or.inr ⟨hleak,by simp [allocprocNoStack]⟩
  · have := h.fits l q hq
    cases l <;> simpa [Fits, allocprocNoStack, hqp] using this

end

theorem makeReady_spec (h : Listed leak (some p) t L) :
    ∃ ls, makeReady p t = .ok { t with lists := ls, state := update t.state p .runnable } ∧
      Listed leak none { t with lists := ls, state := update t.state p .runnable }
        (update L (readyOf (t.priority p)) (L (readyOf (t.priority p))++[p])) := by
  have hb := h.prio p
  obtain ⟨ls,he,h1⟩ := enter_spec (l := readyOf (t.priority p)) (h.setState .runnable)
    .runnable (by simp [Table.setState]) ((fits_ready hb).mpr (by simp [Table.setState]))
  refine ⟨ls,?_,h1⟩
  rw [makeReady, show (t.setState p .runnable).priority p = t.priority p from rfl,
    readyList_eq hb, ok_bind]
  exact he

section

variable (h : Listed leak none t L)
include h

theorem userinitReady_spec (hs : t.state p = .embryo) :
    ∃ ls, userinitReady p t = .ok { userinitFill p t with
        lists := ls
        state := update t.state p .runnable } ∧
      Listed leak none { userinitFill p t with lists := ls, state := update t.state p .runnable }
        (move L p .embryo (readyOf (t.priority p))) := by
  obtain ⟨ls,hl,h1⟩ := leave_spec (h.congr (u := userinitFill p t) rfl rfl rfl)
    "userinit - remove from embryo failed" (h.mem_embryo hs) hs
  obtain ⟨ls',he,h2⟩ := makeReady_spec h1
  exact ⟨ls',by rw [userinitReady, hl, ok_bind]; exact he,h2⟩

theorem forkAbort_spec (hs : t.state np = .embryo) :
    ∃ ls, forkAbort np t = .ok { t with
        lists := ls
        kstack := update t.kstack np false
        state := update t.state np .unused } ∧
      Listed leak none { t with lists := ls, state := update t.state np .unused }
        (moveFront L np .embryo .free) := by
  obtain ⟨ls,hl,h1⟩ := leave_spec
    (h.congr (u := { t with kstack := update t.kstack np false }) rfl rfl rfl)
    "fork - remove from embryo failed" (h.mem_embryo hs) hs
  obtain ⟨ls',he,h2⟩ := enterAtHead_spec (l := .free) (h1.setState .unused)
    .unused (by simp [Table.setState]) (by simp [Fits, Table.setState])
  exact ⟨ls',by simp only [forkAbort, hl, ok_bind]; exact he,h2.congr rfl rfl rfl⟩

theorem forkDone_spec (hs : t.state np = .embryo) :
    ∃ ls, forkDone p np t = .ok { forkFill p np t with
        lists := ls
        state := update t.state np .runnable } ∧
      Listed leak none { forkFill p np t with lists := ls, state := update t.state np .runnable }
        (move L np .embryo (readyOf 0)) := by
  have h0 : Listed leak none (forkFill p np t) L := h.setPriority (p := np) (by simp [hs]) rfl rfl
    (fun q hq => by simp [forkFill, hq]) (by simp [forkFill])
  obtain ⟨ls,hl,h1⟩ := leave_spec h0 "fork - remove from embryo failed" (h.mem_embryo hs) hs
  obtain ⟨ls',he,h2⟩ := makeReady_spec h1
  rw [show ({ forkFill p np t with lists := ls } : Table).priority np = 0 from
    update_self ..] at h2
  exact ⟨ls',by rw [forkDone, hl, ok_bind]; exact he,h2⟩

theorem wakeOne_spec (hs : t.state p = .sleeping) :
    ∃ ls, wakeOne p t = .ok { t with lists := ls, state := update t.state p .runnable } ∧
      Listed leak none { t with lists := ls, state := update t.state p .runnable }
        (move L p .sleep (readyOf (t.priority p))) := by
  obtain ⟨ls,hl,h1⟩ := leave_spec h "wakeup1 - remove from sleep failed" (h.mem_sleep hs) hs
  obtain ⟨ls',he,h2⟩ := makeReady_spec h1
  exact ⟨ls',by rw [wakeOne, hl, ok_bind]; exact he,h2⟩

end

end Calls

section Wakeup

variable {leak : Prop} {t : Table} {L : ListId → List Slot} {p : Slot} {chan : Option Chan}

theorem wakeupFrom_miss (b : List Slot) (n : ℕ) (start : Option Slot)
    (hs : Seg t.lists.next start b none) (hb : ∀ q ∈ b, t.chan q ≠ chan) (hn : b.length ≤ n) :
    wakeupFrom chan n start t = .ok t := by
  induction b generalizing n start with
  | nil => rw [show start = none from hs]; cases n <;> rfl
  | cons a b ih =>
    obtain ⟨rfl,hs⟩ := hs
    obtain _ | n := n
    · simp at hn
    · rw [wakeupFrom, if_neg (hb a (by simp))]
      exact ih n _ hs (fun q hq => hb q (by simp [hq])) (by simpa using hn)

theorem wakeupFrom_hit (h : Listed leak none t L) (hp : t.state p = .sleeping)
    (hc : t.chan p = chan) (a b : List Slot) (n : ℕ) (start : Option Slot)
    (hs : Seg t.lists.next start (a++p::b) none) (ha : ∀ q ∈ a, t.chan q ≠ chan)
    (hn : (a++p::b).length ≤ n) : ∃ ls, wakeupFrom chan n start t =
        .ok { t with lists := ls, state := update t.state p .runnable } ∧
      Listed leak none { t with lists := ls, state := update t.state p .runnable }
        (move L p .sleep (readyOf (t.priority p))) := by
  induction a generalizing n start with
  | nil =>
    obtain ⟨rfl,_⟩ := hs
    obtain _ | n := n
    · simp at hn
    obtain ⟨ls,hw,h1⟩ := wakeOne_spec h hp
    refine ⟨ls,?_,h1⟩
    have hq := h1.rep.queue (readyOf (t.priority p))
    rw [move, update_self] at hq
    have hnext : ls.next p = none := hq.next_last
    rw [wakeupFrom, if_pos hc, hw, ok_bind]
    simp only [hnext]
    cases n <;> rfl
  | cons q a ih =>
    obtain ⟨rfl,hs⟩ := hs
    obtain _ | n := n
    · simp at hn
    · rw [wakeupFrom, if_neg (ha q (by simp))]
      exact ih n _ hs (fun r hr => ha r (by simp [hr])) (by simpa using hn)

theorem wakeup1_none (h : Listed leak none t L) (hc : ∀ q ∈ L .sleep, t.chan q ≠ chan) :
    wakeup1 chan t = .ok t :=
  wakeupFrom_miss (L .sleep) NPROC _ (h.rep.queue .sleep).seg hc (h.rep.length_le .sleep)

theorem wakeup1_some (h : Listed leak none t L)
    (hf : (L .sleep).find? (fun q => t.chan q = chan) = some p) :
    ∃ ls, wakeup1 chan t = .ok { t with lists := ls, state := update t.state p .runnable } ∧
      Listed leak none { t with lists := ls, state := update t.state p .runnable }
        (move L p .sleep (readyOf (t.priority p))) := by
  obtain ⟨hc,a,b,hl,ha⟩ := List.find?_eq_some_iff_append.mp hf
  have hseg := (h.rep.queue .sleep).seg
  have hlen := h.rep.length_le .sleep
  rw [hl] at hseg hlen
  exact wakeupFrom_hit h (h.fits .sleep p (by simp [hl])) (by simpa using hc) a b NPROC _ hseg
    (fun q hq => by simpa using ha q hq) hlen

end Wakeup

end Yeet.ProcSpec
