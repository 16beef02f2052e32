import YeetKernel.ProcInvariant
import YeetKernel.Family

/-!
# Setting and reading priorities

`setPriority` looks for the pid on the ready lists, then on the running list
and on the sleep list; each search has its own returns. `getPriority` searches
in the same order but goes one ready list too far.
-/

namespace Yeet.Priority
open Kernel StateLists ProcTable ProcSpec ProcStep ProcInvariant Family

/-- The search of `getPriority` over `ready[i]` for the given indices. -/
def findReady (pid : Uint) (t : Table) : List ℕ → Except Fault (Option Slot)
  | [] => .ok none
  | i::is => do
    let l ← readyList i
    let qs ← walkFrom t.lists (t.lists.head l)
    match qs.find? (fun q => t.pid q = pid) with
    | some q => return some q
    | none => findReady pid t is

/-- The first loop of `getPriority` runs while `i <= MAXPRIO+1`. -/
def getPriority (pid : Uint) (t : Table) : Except Fault Int := do
  match ← findReady pid t (List.range (levels+1)) with
  | some p => return t.priority p
  | none =>
    match ← findPid pid t [.running,.sleep] with
    | some (_,p) => return t.priority p
    | none => return -1

def sysGetPriority (pid : Int) (t : Table) : Except Fault Int :=
  if pid < 0 ∨ 32767 < pid then .ok (-1) else getPriority (BitVec.ofInt 32 pid) t

/-- The call on CPU `c`; `none` while another CPU holds `ptable.lock`. -/
def sysSetPriority (c : Cpu) (pid nprio : Int) (s : State) :
    Option (Except Fault (Int × State)) :=
  if pid < 0 ∨ 32767 < pid then some (.ok (-1,s))
  else if nprio < 0 ∨ 32767 < nprio then some (.ok (-1,s))
  else if s.lock = none ∨ s.lock = some c then some (do
    let (r,released,t) ← setPriority (BitVec.ofInt 32 pid) nprio s.tab
    return (r,{ s with
      tab := t
      lock := if s.lock = none ∧ released then none else some c }))
  else none

def Law (c : Cpu) (s : State) (pid v : Int) : Prop :=
  ∃ r s', sysSetPriority c pid v s = some (.ok (r,s')) ∧ s'.lock = s.lock ∧
    if 0 ≤ v ∧ v ≤ MAXPRIO then 0 ≤ r ∧ sysGetPriority pid s'.tab = .ok v
    else r = -1 ∧ s' = s

def ReadyPid (t : Table) (pid : Uint) (p : Slot) : Prop := t.state p = .runnable ∧ t.pid p = pid

def Lowest (t : Table) (pid : Uint) (v : Int) : Prop :=
  (∃ p, ReadyPid t pid p ∧ t.priority p = v) ∧ ∀ p, ReadyPid t pid p → v ≤ t.priority p

section Search

variable {leak : Prop} {t : Table} {L : ListId → List Slot} {pid : Uint}

theorem findPid_first (h : Listed leak none t L) (pid : Uint) (ids : List ListId) :
    (findPid pid t ids = .ok none ∧ ∀ m ∈ ids, ∀ q ∈ L m, t.pid q ≠ pid) ∨
      ∃ a l b q, ids = a++l::b ∧ q ∈ L l ∧ t.pid q = pid ∧
        findPid pid t ids = .ok (some (l,q)) ∧ ∀ m ∈ a, ∀ q ∈ L m, t.pid q ≠ pid := by
  induction ids with
  | nil => exact Or.inl ⟨rfl,by simp⟩
  | cons l ids ih =>
    rw [findPid, h.walk l, ok_bind]
    cases hf : (L l).find? (fun q => t.pid q = pid) with
    | some q =>
      exact Or.inr ⟨[],l,ids,q,rfl,List.mem_of_find?_eq_some hf,by simpa using List.find?_some hf,
        rfl,by simp⟩
    | none =>
      have hl : ∀ q ∈ L l, t.pid q ≠ pid := by simpa using hf
      rcases ih with ⟨ih,hn⟩ | ⟨a,m,b,q,e,hq,hpid,ih,hn⟩
      · refine Or.inl ⟨ih,?_⟩
        intro m hm
        rcases List.mem_cons.mp hm with rfl | hm
        · exact hl
        · exact hn m hm
      refine Or.inr ⟨l::a,m,b,q,by rw [e]; rfl,hq,hpid,ih,?_⟩
      intro k hk
      rcases List.mem_cons.mp hk with rfl | hk
      · exact hl
      · exact hn k hk

theorem findReady_append (is : List Level) (rest : List ℕ) :
    findReady pid t (is.map Fin.val++rest) = (do
      match ← findPid pid t (is.map .ready) with
      | some (_,q) => return some q
      | none => findReady pid t rest) := by
  induction is with
  | nil => rfl
  | cons i is ih =>
    have hi : readyList i.val = .ok (.ready i) := by
      rw [readyList, dif_pos i.isLt]
    simp only [List.map_cons, List.cons_append, findReady, findPid, hi, ok_bind]
    cases hw : walkFrom t.lists (t.lists.head (.ready i)) with
    | error e => rfl
    | ok qs =>
      simp only [ok_bind]
      cases hf : qs.find? (fun q => t.pid q = pid) with
      | some q => rfl
      | none => exact ih

theorem findReady_eq : findReady pid t (List.range (levels+1)) = (do
      match ← findPid pid t readyLists with
      | some (_,q) => return some q
      | none => .error .outOfBounds) := by
  have hr : List.range (levels+1) =
      (List.finRange levels).map Fin.val++[levels] := by decide
  have hend : findReady pid t [levels] = .error .outOfBounds := by
    simp [findReady, readyList]
  rw [hr, findReady_append, hend]
  rfl

theorem ready_of_mem (h : Listed leak none t L) {i : Level} {q : Slot} (hq : q ∈ L (.ready i))
    (hpid : t.pid q = pid) : ReadyPid t pid q ∧ t.priority q = i := by
  obtain ⟨h1,h2⟩ := h.fits _ q hq
  exact ⟨⟨h1,hpid⟩,h2⟩

theorem findPid_ready (h : Listed leak none t L) (pid : Uint) :
    (findPid pid t readyLists = .ok none ∧ ∀ p, ¬ ReadyPid t pid p) ∨
      ∃ i q, findPid pid t readyLists = .ok (some (.ready i,q)) ∧ t.priority q = i ∧
        Lowest t pid (t.priority q) := by
  have hmem : ∀ p, ReadyPid t pid p → p ∈ L (readyOf (t.priority p)) ∧
      readyOf (t.priority p) ∈ readyLists :=
    fun p hp => ⟨h.mem_ready hp.1,by simp [readyLists, readyOf]⟩
  rcases findPid_first h pid readyLists with ⟨hf,hn⟩ | ⟨a,l,b,q,e,hq,hpid,hf,hn⟩
  · refine Or.inl ⟨hf,fun p hp => ?_⟩
    exact hn _ (hmem p hp).2 p (hmem p hp).1 hp.2
  have hl : l ∈ readyLists := by simp [e]
  obtain ⟨i,-,rfl⟩ := List.mem_map.mp hl
  obtain ⟨hr,hi⟩ := ready_of_mem h hq hpid
  refine Or.inr ⟨i,q,hf,hi,⟨q,hr,rfl⟩,fun p hp => ?_⟩
  obtain ⟨h1,h2⟩ := hmem p hp
  rw [e] at h2
  -- the lists before `ready[i]` do not hold the pid, those after it have higher levels
  have hsorted : (a++ListId.ready i::b).Pairwise (fun l m => ∀ x y : Level,
      l = .ready x → m = .ready y → x < y) := by
    rw [← e, readyLists, List.pairwise_map]
    exact (List.pairwise_lt_finRange _).imp (fun {x y} hxy u w hu hw => by
      cases hu
      cases hw
      exact hxy)
  rcases List.mem_append.mp h2 with h2 | h2
  · exact absurd hp.2 (hn _ h2 p h1)
  rcases List.mem_cons.mp h2 with h2 | h2
  · rw [h2] at h1
    rw [hi, (ready_of_mem h h1 hp.2).2]
  have hlt := (List.pairwise_cons.mp (List.pairwise_append.mp hsorted).2.1).1 _ h2 i _ rfl rfl
  rw [hi, Int.ofNat_le]
  have hb := Nat.lt_succ_of_le (h.prio p)
  have hv : i.val < t.priority p % levels := hlt
  rw [Nat.mod_eq_of_lt hb] at hv
  exact hv.le

end Search

section Law

variable {leak : Prop} {s : State} {L : ListId → List Slot} {c : Cpu} {pid : Uint} {v : Int}
variable {t : Table} {i : Level} {q p : Slot}

theorem setPriority_ready
    (hf : findPid pid t readyLists = .ok (some (.ready i,q))) (hi : t.priority q = i) :
    setPriority pid v t = .ok (t.priority q,false,t) := by
  simp only [setPriority, hf, ok_bind, level, hi, if_true]
  rfl

theorem getPriority_ready (hf : findPid pid t readyLists = .ok (some (.ready i,q))) :
    getPriority pid t = .ok (t.priority q) := by
  rw [getPriority, findReady_eq, hf]
  rfl

theorem getPriority_other (hf : findPid pid t readyLists = .ok none) :
    getPriority pid t = .error .outOfBounds := by
  rw [getPriority, findReady_eq, hf]
  rfl

theorem findPid_congr {t u : Table} (hl : u.lists = t.lists) (hp : u.pid = t.pid)
    (ids : List ListId) : findPid pid u ids = findPid pid t ids := by
  induction ids with
  | nil => rfl
  | cons l ids ih => simp only [findPid, hl, hp, ih]

theorem setPriority_other (h : Listed leak none s.tab L) (hp : Live (s.tab.state p))
    (hpid : s.tab.pid p = pid) (hf : findPid pid s.tab readyLists = .ok none)
    (hn : ∀ p, ¬ ReadyPid s.tab pid p) :
    ∃ t, t.lists = s.tab.lists ∧ t.pid = s.tab.pid ∧ setPriority pid v s.tab =
        if 0 ≤ v ∧ v ≤ MAXPRIO then .ok (v,true,t) else .ok (-1,false,s.tab) := by
  have hmem : p ∈ L .running ∨ p ∈ L .sleep := by
    rcases hp with hp | hp | hp
    · exact Or.inr (h.mem_sleep hp)
    · exact absurd ⟨hp,hpid⟩ (hn p)
    · exact Or.inl (h.mem_running hp)
  rcases findPid_first h pid [.running,.sleep] with ⟨_,hno⟩ | ⟨a,l,b,q,_,_,_,hg,_⟩
  · rcases hmem with hm | hm
    · exact absurd hpid (hno .running (by simp) p hm)
    · exact absurd hpid (hno .sleep (by simp) p hm)
  refine ⟨{ s.tab with
    priority := Function.update s.tab.priority q v.toNat
    budget := Function.update s.tab.budget q MAXBUDG },rfl,rfl,?_⟩
  simp only [setPriority, hf, hg, ok_bind]
  rfl

def Passed (n : Int) : Prop := 0 ≤ n ∧ n ≤ 32767

/-- When the calls keep their promise. In the range of priorities the process
found first is ready and has the value already; out of this range the call is
either turned away or finds no ready process. In both cases the CPU must own
the lock when it enters `setPriority`. -/
def Kept (c : Cpu) (s : State) (pid : Uint) (v : Int) : Prop :=
  if 0 ≤ v ∧ v ≤ MAXPRIO then Passed pid.toInt ∧ s.lock = some c ∧ Lowest s.tab pid v
  else Passed pid.toInt → Passed v → s.lock = some c ∧ ∀ p, ¬ ReadyPid s.tab pid p

theorem sysSetPriority_passed (hpid : Passed pid.toInt) (hv : Passed v)
    (hl : s.lock = none ∨ s.lock = some c) :
    sysSetPriority c pid.toInt v s = some (do
      let (r,released,t) ← setPriority pid v s.tab
      return (r,{ s with
        tab := t
        lock := if s.lock = none ∧ released then none else some c })) := by
  obtain ⟨h1,h2⟩ := hpid
  obtain ⟨h3,h4⟩ := hv
  rw [sysSetPriority, if_neg (by omega), if_neg (by omega), if_pos hl, BitVec.ofInt_toInt]

theorem sysGetPriority_passed (hpid : Passed pid.toInt) :
    sysGetPriority pid.toInt t = getPriority pid t := by
  obtain ⟨h1,h2⟩ := hpid
  rw [sysGetPriority, if_neg (by omega), BitVec.ofInt_toInt]

theorem sysSetPriority_turned (h : ¬ (Passed pid.toInt ∧ Passed v)) :
    sysSetPriority c pid.toInt v s = some (.ok (-1,s)) := by
  unfold sysSetPriority Passed at *
  split
  · rfl
  · rw [if_pos (by omega)]

theorem law_of_eq {n r : Int} {s' : State} (h : sysSetPriority c n v s = some (.ok (r,s'))) :
    Law c s n v ↔ s'.lock = s.lock ∧
      if 0 ≤ v ∧ v ≤ MAXPRIO then 0 ≤ r ∧ sysGetPriority n s'.tab = .ok v
      else r = -1 ∧ s' = s := by
  constructor
  · rintro ⟨r₁,s₁,h1,h2⟩
    obtain ⟨rfl,rfl⟩ := Lts.done_inj (h.symm.trans h1)
    exact h2
  · intro h2
    exact ⟨r,s',h,h2⟩

theorem Lowest.unique {a b : Int} (ha : Lowest t pid a) (hb : Lowest t pid b) : a = b := by
  obtain ⟨⟨p,hp,ep⟩,hpmin⟩ := ha
  obtain ⟨⟨q,hq,eq⟩,hqmin⟩ := hb
  have h1 := hpmin q hq
  have h2 := hqmin p hp
  omega

theorem law_ready (hpid : Passed pid.toInt) (hv : Passed v) (hl : s.lock = none ∨ s.lock = some c)
    (hf : findPid pid s.tab readyLists = .ok (some (.ready i,q))) (hi : s.tab.priority q = i)
    (hlow : Lowest s.tab pid (s.tab.priority q)) : Law c s pid.toInt v ↔ Kept c s pid v := by
  have hset : sysSetPriority c pid.toInt v s =
      some (.ok ((s.tab.priority q : Int),{ s with lock := some c })) := by
    rw [sysSetPriority_passed hpid hv hl, setPriority_ready hf hi]
    simp
  rw [law_of_eq hset, Kept]
  by_cases hr : 0 ≤ v ∧ v ≤ MAXPRIO
  · rw [if_pos hr, if_pos hr, sysGetPriority_passed hpid]
    constructor
    · rintro ⟨hl,_,hg⟩
      refine ⟨hpid,hl.symm,?_⟩
      have he := Except.ok.inj ((getPriority_ready hf).symm.trans hg)
      exact he ▸ hlow
    rintro ⟨_,hl,hv⟩
    refine ⟨hl.symm,Int.natCast_nonneg _,?_⟩
    rw [hv.unique hlow]
    exact getPriority_ready hf
  · rw [if_neg hr, if_neg hr]
    constructor
    · rintro ⟨_,hneg,_⟩
      omega
    · intro hk
      obtain ⟨p,hp,_⟩ := hlow.1
      exact absurd hp ((hk hpid hv).2 p)

theorem law_other (hpid : Passed pid.toInt) (hv : Passed v)
    (hl : s.lock = none ∨ s.lock = some c) (h : Listed leak none s.tab L)
    (hp : Live (s.tab.state p)) (he : s.tab.pid p = pid)
    (hf : findPid pid s.tab readyLists = .ok none) (hn : ∀ p, ¬ ReadyPid s.tab pid p) :
    Law c s pid.toInt v ↔ Kept c s pid v := by
  obtain ⟨t,hlists,hpids,hset⟩ := setPriority_other h hp he hf hn (v := v)
  have hsys := sysSetPriority_passed hpid hv hl
  rw [Kept]
  by_cases hr : 0 ≤ v ∧ v ≤ MAXPRIO
  · rw [hset, if_pos hr, ok_bind] at hsys
    rw [law_of_eq hsys, if_pos hr, if_pos hr, sysGetPriority_passed hpid]
    constructor
    · rintro ⟨_,_,hg⟩
      rw [getPriority_other ((findPid_congr hlists hpids readyLists).trans hf)] at hg
      cases hg
    · rintro ⟨_,_,⟨q,hq,_⟩,_⟩
      exact absurd hq (hn q)
  rw [hset, if_neg hr, ok_bind] at hsys
  rw [law_of_eq hsys, if_neg hr, if_neg hr]
  constructor
  · rintro ⟨hl,_⟩ _ _
    simp at hl
    exact ⟨hl.symm,hn⟩
  intro hk
  have hl := (hk hpid hv).1
  refine ⟨by simp [hl],rfl,?_⟩
  simp [← hl]

theorem law_turned (h : ¬ (Passed pid.toInt ∧ Passed v)) :
    Law c s pid.toInt v ↔ Kept c s pid v := by
  rw [law_of_eq (sysSetPriority_turned h), Kept]
  by_cases hr : 0 ≤ v ∧ v ≤ MAXPRIO
  · have hle : v ≤ 6 := hr.2
    have hv : Passed v := ⟨hr.1,by omega⟩
    rw [if_pos hr, if_pos hr]
    constructor
    · rintro ⟨_,hneg,_⟩
      omega
    · rintro ⟨hpid,_⟩
      exact absurd ⟨hpid,hv⟩ h
  · rw [if_neg hr, if_neg hr]
    constructor
    · intro _ h1 h2
      exact absurd ⟨h1,h2⟩ h
    · intro _
      exact ⟨rfl,rfl,rfl⟩

end Law

/-- In every reachable state and for every live process, the calls of a CPU
that can enter `setPriority` keep their promise exactly in the cases of `Kept`. -/
theorem priority_law_iff {s₀ s : State} {h : List (Action × Event)} {c : Cpu} {p : Slot}
    (h0 : Start s₀) (hr : Run s₀ h s) (hl : s.lock = none ∨ s.lock = some c)
    (hp : Live (s.tab.state p)) (v : Int) :
    Law c s (s.tab.pid p).toInt v ↔ Kept c s (s.tab.pid p) v := by
  obtain ⟨L,hL⟩ := (run_consistent (start_consistent h0 True) hr (allowed_true h)).placed
  by_cases hpass : Passed (s.tab.pid p).toInt ∧ Passed v
  · obtain ⟨h1,h2⟩ := hpass
    rcases findPid_ready hL (s.tab.pid p) with ⟨hf,hn⟩ | ⟨i,q,hf,hi,hlow⟩
    · exact law_other h1 h2 hl hL hp rfl hf hn
    · exact law_ready h1 h2 hl hf hi hlow
  · exact law_turned hpass

/-- The first process calls `setPriority` for its ready child, so that its CPU
enters the next call with the lock. -/
def lockKept : List Action := bootAndFork++[.setPriority bootCpu 2 0]

theorem priority_law_repeated : ∃ s₀ h s p, Start s₀ ∧ Run s₀ h s ∧ h.map Prod.fst = lockKept ∧
    s.tab.state p = .runnable ∧ s.tab.pid p = 2 ∧ Law bootCpu s 2 0 := by
  obtain ⟨s₀,h,s,h0,hrun,hacts,hl,p,hp,hpid,hprio⟩ := bootRun_reaches lockKept
    (fun _ s => s.lock = some bootCpu ∧
      ∃ p, s.tab.state p = .runnable ∧ s.tab.pid p = 2 ∧ s.tab.priority p = 0)
    (by decide +kernel)
  refine ⟨s₀,h,s,p,h0,hrun,hacts,hp,hpid,?_⟩
  have hiff := priority_law_iff (c := bootCpu) h0 hrun (Or.inr hl) (Or.inr (Or.inl hp)) 0
  rw [hpid] at hiff
  refine hiff.mpr ⟨⟨by decide,by decide⟩,hl,⟨p,⟨hp,hpid⟩,by rw [hprio]; rfl⟩,
    fun q _ => Int.natCast_nonneg _⟩

def left (r : Int) : Option (Except Fault (Int × State)) → Option State
  | some (.ok x) => if x.1 = r then some x.2 else none
  | _ => none

theorem left_eq_some {r : Int} {o : Option (Except Fault (Int × State))} {s : State}
    (h : left r o = some s) : o = some (.ok (r,s)) := by
  unfold left at h
  split at h
  · rename_i x
    split at h
    · rename_i hr
      rw [← Option.some.inj h, ← hr]
    · cases h
  · cases h

/-- For a ready process nothing is set and the lock is not given back; for a
running process the value is set but cannot be read. -/
theorem priority_law_broken : ∃ s₀ h s p q s₁ s₂, Start s₀ ∧ Run s₀ h s ∧
    h.map Prod.fst = bootAndFork ∧ s.lock = none ∧
    (s.tab.state p = .runnable ∧ s.tab.pid p = 2) ∧ (s.tab.state q = .running ∧ s.tab.pid q = 1) ∧
    (sysSetPriority bootCpu 2 3 s = some (.ok (0,s₁)) ∧ s₁.lock = some bootCpu ∧
      sysGetPriority 2 s₁.tab = .ok 0 ∧ ¬ Law bootCpu s 2 3) ∧
    sysSetPriority bootCpu 1 3 s = some (.ok (3,s₂)) ∧
      sysGetPriority 1 s₂.tab = .error .outOfBounds ∧ ¬ Law bootCpu s 1 3 := by
  obtain ⟨s₀,h,s,h0,hrun,hacts,hl,⟨p,hp⟩,⟨q,hq⟩,h1,h2⟩ := bootRun_reaches bootAndFork
    (fun _ s => s.lock = none ∧ (∃ p, s.tab.state p = .runnable ∧ s.tab.pid p = 2) ∧
      (∃ q, s.tab.state q = .running ∧ s.tab.pid q = 1) ∧
      (∃ s₁ ∈ left 0 (sysSetPriority bootCpu 2 3 s),
        s₁.lock = some bootCpu ∧ sysGetPriority 2 s₁.tab = .ok 0) ∧
      ∃ s₂ ∈ left 3 (sysSetPriority bootCpu 1 3 s), sysGetPriority 1 s₂.tab = .error .outOfBounds)
    (by decide +kernel)
  obtain ⟨s₁,hs,hlock,hget⟩ := h1
  obtain ⟨s₂,hs',hget'⟩ := h2
  have e₁ := left_eq_some hs
  have e₂ := left_eq_some hs'
  refine ⟨s₀,h,s,p,q,s₁,s₂,h0,hrun,hacts,hl,hp,hq,⟨e₁,hlock,hget,fun hlaw => ?_⟩,e₂,hget',
    fun hlaw => ?_⟩
  · have := ((law_of_eq e₁).mp hlaw).1
    rw [hlock, hl] at this
    cases this
  have hlaw := ((law_of_eq e₂).mp hlaw).2
  rw [if_pos (by decide)] at hlaw
  rw [hlaw.2] at hget'
  cases hget'

end Yeet.Priority
