import YeetKernel.Parents

/-!
# Process slots with their files

The process actions are run together with the descriptors and the current
directory of each slot.
-/

namespace Yeet.SlotFiles
open Kernel StateLists ProcTable ProcSpec ProcStep ProcControl ProcEffect Family ProcChange
open Parents Function

abbrev Pointer := ℕ

structure Full where
  sys : State
  ofile : Slot → Fin NOFILE → Option Pointer
  cwd : Slot → Option Pointer

inductive Act where
  | proc (a : Action)
  | setFile (c : Cpu) (fd : Fin NOFILE) (f : Option Pointer)
  | chdir (c : Cpu) (d : Pointer)
  deriving DecidableEq

def root : Pointer := 0

/-- The descriptors after an action of the process code: `fork` copies the open
ones of the parent, `exit` has closed all before it takes the lock, `userinit`
has set the current directory. -/
def settle (x : Full) (a : Action) (s : State) : Event → Full
  | .forked p q _ =>
    { sys := s
      ofile := update x.ofile q (fun fd => (x.ofile p fd).or (x.ofile q fd))
      cwd := update x.cwd q (x.cwd p) }
  | .exited p =>
    { sys := s
      ofile := update x.ofile p (fun _ => none)
      cwd := update x.cwd p none }
  | _ =>
    match a,x.sys.cpu bootCpu with
    | .userinitReady,.booting (.ready p) => { x with sys := s, cwd := update x.cwd p (some root) }
    | _,_ => { x with sys := s }

def exec (x : Full) : Act → Option (Except Fault (Full × Event))
  | .proc a =>
    match ProcStep.exec x.sys a with
    | none => none
    | some (.error f) => some (.error f)
    | some (.ok (s,e)) => some (.ok (settle x a s e,e))
  | .setFile c fd f =>
    match x.sys.cpu c with
    | .running p _ =>
      if x.sys.doing p = .nothing then
        some (.ok ({ x with ofile := update x.ofile p (update (x.ofile p) fd f) },.silent))
      else none
    | _ => none
  | .chdir c d =>
    match x.sys.cpu c with
    | .running p _ =>
      if x.sys.doing p = .nothing then
        some (.ok ({ x with cwd := update x.cwd p (some d) },.silent))
      else none
    | _ => none

abbrev Run := Lts.Run exec

def Start (x : Full) : Prop :=
  ProcStep.Start x.sys ∧ (∀ q fd, x.ofile q fd = none) ∧ ∀ q, x.cwd q = none

structure Clean (x : Full) (q : Slot) : Prop where
  killed : x.sys.tab.killed q = false
  parent : x.sys.tab.parent q = none
  cwd : x.cwd q = none
  kstack : x.sys.tab.kstack q = false
  ofile : ∀ fd, x.ofile q fd = none

def aborting (x : Full) : Act → Option Slot
  | .proc a => aborted x.sys a
  | _ => none

section Step

variable {x x' : Full} {a : Act} {b : Action} {e : Event} {p q : Slot} {s : State} {t u : Table}

theorem exec_cases (hx : exec x a = some (.ok (x',e))) :
    (∃ b, a = .proc b ∧ ProcStep.exec x.sys b = some (.ok (x'.sys,e)) ∧ x' = settle x b x'.sys e) ∨
    aborting x a = none ∧ e = .silent ∧ ∃ c p i, x.sys.cpu c = .running p i ∧ x'.sys = x.sys ∧
      ∀ q, q ≠ p → x'.ofile q = x.ofile q ∧ x'.cwd q = x.cwd q := by
  cases a with
  | proc b =>
    simp only [exec] at hx
    split at hx
    · cases hx
    · cases hx
    rename_i s e' hs
    obtain ⟨rfl,rfl⟩ := Lts.done_inj hx
    have hsys : (settle x b s e').sys = s := by
      unfold settle
      split
      · rfl
      · rfl
      · split <;> rfl
    exact Or.inl ⟨b,rfl,by rw [hsys, hs],by rw [hsys]⟩
  | setFile c fd f =>
    simp only [exec] at hx
    split at hx
    · rename_i p i hc
      split at hx
      · obtain ⟨rfl,rfl⟩ := Lts.done_inj hx
        exact Or.inr ⟨rfl,rfl,c,p,i,hc,rfl,fun q hq => ⟨update_of_ne hq _ _,rfl⟩⟩
      · cases hx
    · cases hx
  | chdir c d =>
    simp only [exec] at hx
    split at hx
    · rename_i p i hc
      split at hx
      · obtain ⟨rfl,rfl⟩ := Lts.done_inj hx
        exact Or.inr ⟨rfl,rfl,c,p,i,hc,rfl,fun q hq => ⟨rfl,update_of_ne hq _ _⟩⟩
      · cases hx
    · cases hx

theorem run_sys {x₀ x : Full} {h : List (Act × Event)} (hr : Run x₀ h x) :
    ∃ g, ProcStep.Run x₀.sys g x.sys := by
  induction hr with
  | nil => exact ⟨[],Lts.Run.nil⟩
  | snoc _ step ih =>
    obtain ⟨g,hg⟩ := ih
    rcases exec_cases step with ⟨b,-,hb,-⟩ | ⟨-,-,-,-,-,-,hs,-⟩
    · exact ⟨_,hg.snoc hb⟩
    · exact ⟨g,by rw [hs]; exact hg⟩

structure Tidy (x : Full) : Prop where
  parent : ∀ q, ¬ Grown (x.sys.tab.state q) → x.sys.tab.parent q = none
  kstack : ∀ q, x.sys.tab.state q = .unused → x.sys.tab.kstack q = false
  files : ∀ q, ¬ Live (x.sys.tab.state q) → (∀ fd, x.ofile q fd = none) ∧ x.cwd q = none

theorem settle_files (hq : (∀ fd, x.ofile q fd = none) ∧ x.cwd q = none ∨ e = .exited q)
    (hf : ∀ p n, e ≠ .forked p q n)
    (hb : b = .userinitReady → x.sys.cpu bootCpu ≠ .booting (.ready q)) :
    (∀ fd, (settle x b s e).ofile q fd = none) ∧ (settle x b s e).cwd q = none := by
  unfold settle
  split
  · rename_i p r n
    have hr : q ≠ r := by
      rintro rfl
      exact hf p n rfl
    simpa [hr] using hq
  · rename_i p
    by_cases hr : q = p
    · simp [hr]
    · have hp : Event.exited p ≠ .exited q := fun h => hr (Event.exited.inj h).symm
      simpa [hr, hp] using hq
  rename_i hex
  replace hq := hq.resolve_right (hex q)
  split
  · rename_i p hc
    have hr : q ≠ p := by
      rintro rfl
      exact hb rfl hc
    simpa [hr] using hq
  · exact hq

theorem ready_live {s s' : State} (he : Effect s .userinitReady s' e) (hc : Consistent True s)
    (hq : s.cpu bootCpu = .booting (.ready q)) : Live (s'.tab.state q) := by
  obtain ⟨L,hL⟩ := hc.placed
  cases he with
  | userinitReady p t hcpu hl op =>
    rw [hq] at hcpu
    obtain rfl : q = p := by simpa using hcpu
    obtain ⟨ls,hu,-⟩ := userinitReady_spec hL (hc.bootSlot q (by rw [hq]; rfl)).1
    obtain rfl := Except.ok.inj (hu.symm.trans op)
    simp [Live]

inductive Fate (t u : Table) (e : Event) (q : Slot) : Prop where
  | stays (h : Switches t u q) (parent : t.parent q = none → u.parent q = none)
      (kstack : u.state q = .unused → u.kstack q = t.kstack q) (he : ∀ p n, e ≠ .forked p q n)
  | taken (h : t.state q = .unused) (h' : u.state q = .embryo) (parent : u.parent q = t.parent q)
      (he : ∀ p n, e ≠ .forked p q n)
  | freed (h : t.state q = .embryo ∧ u.parent q = t.parent q ∨
        t.state q = .zombie ∧ u.parent q = none)
      (h' : u.state q = .unused) (kstack : u.kstack q = false) (he : ∀ p n, e ≠ .forked p q n)
  | born (h : t.state q = .embryo) (h' : u.state q = .runnable)
  | dies (h' : u.state q = .zombie) (he : e = .exited q)

theorem change_fate (hfree : ∀ q ∈ freeList t.lists, t.state q = .unused)
    (hc : Change s b t u e) (q : Slot) : Fate t u e q := by
  -- a slot that the change is not about
  have other : ∀ {r : Slot} {st}, u.state = update t.state r st → q ≠ r →
      (t.parent q = none → u.parent q = none) → u.kstack q = t.kstack q →
      (∀ p n, e ≠ .forked p q n) → Fate t u e q :=
    fun hs hne hp hk he => .stays (Or.inl (by rw [hs, update_of_ne hne])) hp (fun _ => hk) he
  cases hc with
  | switch calm hm init free state | kill r hr calm hm init free state =>
    have hp : u.parent = t.parent := congrArg Prod.fst hm
    have hk : u.kstack = t.kstack := congrArg (·.2.2) hm
    exact .stays (state q) (by rw [hp]; exact id) (fun _ => by rw [hk]) (fun p n => calm.1 p q n)
  | alloc r calm hm init free state =>
    have hp : u.parent = t.parent := congrArg Prod.fst hm
    have hk : u.kstack = t.kstack := congrArg (·.2.2) hm
    by_cases hqr : q = r
    · subst hqr
      exact .taken (hfree q (by rw [free]; simp)) (by rw [state, update_self]) (by rw [hp])
        (fun p n => calm.1 p q n)
    · exact other state hqr (by rw [hp]; exact id) (by rw [hk]) (fun p n => calm.1 p q n)
  | stack r hr calm hm init free state =>
    have hp : u.parent = t.parent := congrArg Prod.fst hm
    have hk : u.kstack = update t.kstack r true := congrArg (·.2.2) hm
    refine .stays (Or.inl (by rw [state])) (by rw [hp]; exact id) (fun hq => ?_)
      (fun p n => calm.1 p q n)
    rw [hk, update_of_ne]
    rintro rfl
    rw [state, hr] at hq
    cases hq
  | noStack r hr calm hm init free state | abort r hr ha calm hm init free state =>
    have hp : u.parent = t.parent := congrArg Prod.fst hm
    have hk : u.kstack = update t.kstack r false := congrArg (·.2.2) hm
    by_cases hqr : q = r
    · subst hqr
      exact .freed (Or.inl ⟨hr,by rw [hp]⟩) (by rw [state, update_self]) (by rw [hk, update_self])
        (fun p n => calm.1 p q n)
    · exact other state hqr (by rw [hp]; exact id) (by rw [hk, update_of_ne hqr])
        (fun p n => calm.1 p q n)
  | first r hr hi calm hm init free state =>
    have hp : u.parent = update t.parent r (some r) := congrArg Prod.fst hm
    have hk : u.kstack = t.kstack := congrArg (·.2.2) hm
    by_cases hqr : q = r
    · subst hqr
      exact .born hr (by rw [state, update_self])
    · exact other state hqr (by rw [hp, update_of_ne hqr]; exact id) (by rw [hk])
        (fun p n => calm.1 p q n)
  | born p r n hp' hr he hm init free state =>
    have hp : u.parent = update t.parent r (some p) := congrArg Prod.fst hm
    have hk : u.kstack = t.kstack := congrArg (·.2.2) hm
    by_cases hqr : q = r
    · subst hqr
      exact .born hr (by rw [state, update_self])
    · refine other state hqr (by rw [hp, update_of_ne hqr]; exact id) (by rw [hk]) (fun p' n' h => ?_)
      exact hqr (Event.forked.inj (he.symm.trans h)).2.1.symm
  | dies p hp' hi he hm init free self state =>
    have hp : u.parent = _ := congrArg Prod.fst hm
    have hk : u.kstack = t.kstack := congrArg (·.2.2) hm
    by_cases hqp : q = p
    · subst hqp
      exact .dies self he
    · exact .stays (state q hqp) (fun h => by simp [hp, h]) (fun _ => by rw [hk]) (by simp [he])
  | reaped r hr calm hm init free state =>
    have hp : u.parent = update t.parent r none := congrArg Prod.fst hm
    have hk : u.kstack = update t.kstack r false := congrArg (·.2.2) hm
    by_cases hqr : q = r
    · subst hqr
      exact .freed (Or.inr ⟨hr,by rw [hp, update_self]⟩) (by rw [state, update_self])
        (by rw [hk, update_self]) (fun p n => calm.1 p q n)
    · exact other state hqr (by rw [hp, update_of_ne hqr]; exact id) (by rw [hk, update_of_ne hqr])
        (fun p n => calm.1 p q n)

theorem change_dead (hfree : ∀ q ∈ freeList t.lists, t.state q = .unused)
    (hc : Change s b t u e) (hq : ¬ Live (u.state q)) :
    (¬ Live (t.state q) ∨ e = .exited q) ∧ ∀ p n, e ≠ .forked p q n := by
  cases change_fate hfree hc q with
  | stays h _ _ he =>
    refine ⟨Or.inl ?_,he⟩
    rcases h with h | h
    · rwa [← h]
    · exact absurd h.2 hq
  | taken h _ _ he => exact ⟨Or.inl (by simp [Live, h]),he⟩
  | freed h _ _ he => exact ⟨Or.inl (by rcases h with h | h <;> simp [Live, h.1]),he⟩
  | born _ h' => simp [Live, h'] at hq
  | dies _ he => exact ⟨Or.inr he,by simp [he]⟩

theorem grown_of_switches (h : Switches t u q) (hq : ¬ Grown (u.state q)) :
    u.state q = t.state q := by
  rcases h with h | h
  · exact h
  · exact absurd (Grown.live h.2) hq

theorem change_parent (hfree : ∀ q ∈ freeList t.lists, t.state q = .unused)
    (ht : ∀ q, ¬ Grown (t.state q) → t.parent q = none) (hc : Change s b t u e)
    (hq : ¬ Grown (u.state q)) : u.parent q = none := by
  cases change_fate hfree hc q with
  | stays h parent => exact parent (ht q (by rwa [← grown_of_switches h hq]))
  | taken h _ parent => exact parent.trans (ht q (by simp [Grown, h]))
  | freed h =>
    rcases h with ⟨h,hp⟩ | ⟨-,hp⟩
    · exact hp.trans (ht q (by simp [Grown, h]))
    · exact hp
  | born _ h' | dies h' => simp [Grown, h'] at hq

theorem change_kstack (hfree : ∀ q ∈ freeList t.lists, t.state q = .unused)
    (ht : ∀ q, t.state q = .unused → t.kstack q = false) (hc : Change s b t u e)
    (hq : u.state q = .unused) : u.kstack q = false := by
  cases change_fate hfree hc q with
  | stays h _ kstack =>
    exact (kstack hq).trans (ht q (by rw [← grown_of_switches h (by simp [Grown, hq]), hq]))
  | freed _ _ kstack => exact kstack
  | taken _ h' | born _ h' | dies h' =>
    rw [h'] at hq
    cases hq

theorem change_killed (ht : ∀ q ∈ freeList t.lists, t.killed q = false) (hc : Change s b t u e)
    (ha : ∀ q, aborted s b = some q → t.killed q = false) :
    ∀ q ∈ freeList u.lists, u.killed q = false := by
  have hsame : freeList u.lists = freeList t.lists → u.killed = t.killed →
      ∀ q ∈ freeList u.lists, u.killed q = false := by
    intro hf hk q hq
    rw [hk]
    exact ht q (by rwa [← hf])
  cases hc with
  | switch calm hm init free state | stack r hr calm hm init free state
  | noStack r hr calm hm init free state | first r hr hi calm hm init free state
  | born p r n hp hr he hm init free state | dies p hp hi he hm init free self state =>
    exact hsame free (congrArg (·.2.1) hm)
  | kill r hr calm hm init free state =>
    intro q hq
    rw [free] at hq
    have hqr : q ≠ r := by
      rintro rfl
      exact hr hq
    rw [show u.killed = update t.killed r true from congrArg (·.2.1) hm, update_of_ne hqr]
    exact ht q hq
  | alloc r calm hm init free state =>
    intro q hq
    rw [show u.killed = t.killed from congrArg (·.2.1) hm]
    exact ht q (by rw [free]; exact List.mem_cons_of_mem r hq)
  | abort r hr hab calm hm init free state =>
    intro q hq
    rw [show u.killed = t.killed from congrArg (·.2.1) hm]
    rw [free, List.mem_cons] at hq
    rcases hq with rfl | hq
    · exact ha q hab
    · exact ht q hq
  | reaped r hr calm hm init free state =>
    intro q hq
    rw [show u.killed = update t.killed r false from congrArg (·.2.1) hm]
    by_cases hqr : q = r
    · rw [hqr, update_self]
    · rw [update_of_ne hqr]
      exact ht q (by simpa [free, hqr] using hq)

theorem aborted_listed {s s' : State} (hc : Consistent True s) (he : Effect s b s' e)
    (ha : aborted s b = some q) : s'.tab.killed = s.tab.killed ∧ q ∈ freeList s'.tab.lists := by
  obtain ⟨L,hL⟩ := hc.placed
  unfold aborted at ha
  split at ha
  · rename_i c
    cases he with
    | forkAbort _ p np j t hcpu hl hd op =>
      obtain ⟨ls,hf,hM⟩ := forkAbort_spec hL (hc.embryo p np (by rw [hd]; rfl))
      obtain rfl := Except.ok.inj (hf.symm.trans op)
      obtain rfl : np = q := by simpa [hcpu, hd] using ha
      refine ⟨rfl,?_⟩
      have hfree := freeList_eq hM
      show np ∈ freeList ls
      rw [show freeList ls = _ from hfree]
      simp [moveFront]
  · cases ha

end Step

end Yeet.SlotFiles
