import YeetKernel.ProcChange
import YeetKernel.Outcome

/-!
# Parents are alive

The parent pointer of a process leads to the process that forked it, or to the
first process once that one has exited. `getprocs` and `sys_getppid` follow it
without a test and without `ptable.lock`, a field at a time, while the other
processors go on.
-/

namespace Yeet.Parents
open Kernel Bytes Resumption StateLists ProcTable ProcStep ProcControl ProcEffect ProcInvariant Family
open ExitWait ProcChange Function

def STRMAX : ℕ := 32

def stateName : ProcState → String
  | .unused => "unused"
  | .embryo => "embryo"
  | .sleeping => "sleep "
  | .runnable => "runble"
  | .running => "run   "
  | .zombie => "zombie"

/-- The fields that `getprocs` copies and no other modelled code reads. -/
structure Facts where
  uid : Uint
  gid : Uint
  startTicks : Uint
  sz : Uint
  name : List Byte

structure Uproc where
  pid : Uint
  uid : Uint
  gid : Uint
  ppid : Uint
  prio : ℤ
  elapsedTicks : Uint
  cpuTotalTicks : Uint
  state : String
  size : Uint
  name : List Byte

/-- What a reader sees of the process table, one field at a time. -/
structure View where
  tab : Table
  facts : Slot → Facts

abbrev Reader (α : Type) := Prog View Fault α

/-- `p->parent->pid`. -/
def parentPid (p : Slot) : Reader Uint := do
  match ← fetch (fun v => v.tab.parent p) with
  | none => fail .nullDeref
  | some r => fetch (fun v => v.tab.pid r)

/-- The body of the loop of `getprocs`. Nobody holds `ptable.lock`. -/
def readEntry (p : Slot) : Reader (Option Uproc) := do
  if (← fetch (fun v => v.tab.state p)) = .embryo then return none
  else if (← fetch (fun v => v.tab.state p)) = .unused then return none
  else do
    let pid ← fetch (fun v => v.tab.pid p)
    let uid ← fetch (fun v => (v.facts p).uid)
    let gid ← fetch (fun v => (v.facts p).gid)
    let ppid ← parentPid p
    let priority ← fetch (fun v => v.tab.priority p)
    let ticks ← fetch (fun v => v.tab.ticks)
    let startTicks ← fetch (fun v => (v.facts p).startTicks)
    let cpuTotalTicks ← fetch (fun v => v.tab.cpuTicksTotal p)
    let size ← fetch (fun v => (v.facts p).sz)
    let state ← fetch (fun v => v.tab.state p)
    let name ← fetch (fun v => (v.facts p).name)
    return some ⟨pid,uid,gid,ppid,Int.ofNat MAXPRIO-priority,ticks-startTicks,cpuTotalTicks,
      stateName state,size,name.take (STRMAX-1)⟩

/-- A call that reads while the other processors go on: what is read now, what is
still to be read, and what was written, up to `max` entries. -/
structure Watch (α : Type) where
  kernel : State
  facts : Slot → Facts
  max : ℤ
  now : Reader (Option α)
  left : List (Reader (Option α))
  out : List α

def getprocs (max : ℤ) (s : State) (x : Slot → Facts) : Watch Uproc :=
  ⟨s,x,max,pure none,(List.finRange NPROC).map readEntry,[]⟩

/-- The call of process `p`. -/
def sysGetppid (p : Slot) (s : State) (x : Slot → Facts) : Watch Uint :=
  ⟨s,x,1,some <$> parentPid p,[],[]⟩

variable {α : Type}

def Watch.view (w : Watch α) : View := ⟨w.kernel.tab,w.facts⟩

def Watch.reading (w : Watch α) : Bool :=
  match w.now with
  | .ret _ => false
  | _ => true

/-- No entry is allocated, no process exits and none is reaped. -/
def Settled (t u : Table) : Prop := ∀ q, (t.state q = .unused → u.state q = .unused) ∧
  (Live (t.state q) → Live (u.state q)) ∧ (t.state q = .zombie → u.state q = .zombie)

instance (st : ProcState) : Decidable (Live st) := by
  unfold Live
  infer_instance

instance (t u : Table) : Decidable (Settled t u) := by
  unfold Settled
  infer_instance

/-- Another processor acts, and the other fields become `facts`; or the call reads. -/
inductive Act where
  | kernel (a : Action) (facts : Slot → Facts)
  | read

def Watch.next (w : Watch α) (r : Option α) : Watch α :=
  let out := w.out++r.toList
  match (if w.max ≤ out.length then [] else w.left) with
  | [] => {w with now := pure none, left := [], out}
  | x::left => {w with now := x, left, out}

/-- The event says whether the table stirs while a process is read. -/
def exec (w : Watch α) : Act → Option (Except Fault (Watch α × Bool))
  | .kernel a facts => (ProcStep.exec w.kernel a).map (fun r => r.map (fun y =>
      ({w with kernel := y.1, facts},w.reading && !decide (Settled w.kernel.tab y.1.tab))))
  | .read =>
    match w.now with
    | .ret r => some (.ok (w.next r,false))
    | .act f k => (f w.view).map (fun r => r.map (fun y => ({w with now := k y.1},false)))
    | .pick k => some (.ok ({w with now := k 0},false))

def Grown (st : ProcState) : Prop := st ≠ .unused ∧ st ≠ .embryo

theorem Grown.live {st : ProcState} (h : Live st) : Grown st := by
  rcases h with h | h | h <;> simp [Grown, h]

structure Parented (t : Table) : Prop where
  parent : ∀ q, Grown (t.state q) → ∃ r, t.parent q = some r ∧ Live (t.state r)
  init : ∀ q, Grown (t.state q) → ∃ i, t.initproc = some i ∧ Live (t.state i)

section Step

variable {t u : Table} {q : Slot}

section

variable (h : Parented t)
include h

theorem Parented.keep (hp : ∀ q, Grown (u.state q) → u.parent q = t.parent q)
    (hi : u.initproc = t.initproc) (hg : ∀ q, Grown (u.state q) → Grown (t.state q))
    (hl : ∀ q, Live (t.state q) → Live (u.state q)) : Parented u := by
  constructor
  · intro q hq
    obtain ⟨r,h1,h2⟩ := h.parent q (hg q hq)
    exact ⟨r,by rw [hp q hq, h1],hl r h2⟩
  · intro q hq
    obtain ⟨i,h1,h2⟩ := h.init q (hg q hq)
    exact ⟨i,by rw [hi, h1],hl i h2⟩

theorem Parented.shuffle (hp : u.parent = t.parent) (hi : u.initproc = t.initproc)
    (hst : ∀ q, u.state q = t.state q ∨ Live (t.state q) ∧ Live (u.state q)) : Parented u := by
  refine h.keep (fun q _ => by rw [hp]) hi (fun q hq => ?_) (fun q hq => ?_)
  · rcases hst q with e | e
    · rwa [← e]
    · exact Grown.live e.1
  · rcases hst q with e | e
    · rwa [e]
    · exact e.2

theorem Parented.shrink {st : ProcState} (hq : ¬ Live (t.state q))
    (hst : ¬ Grown st) (hs : u.state = update t.state q st)
    (hp : ∀ r, r ≠ q → u.parent r = t.parent r) (hi : u.initproc = t.initproc) : Parented u := by
  have hne : ∀ r, Grown (u.state r) → r ≠ q := by
    rintro r hr rfl
    rw [hs, update_self] at hr
    exact hst hr
  refine h.keep (fun r hr => hp r (hne r hr)) hi (fun r hr => ?_) (fun r hr => ?_)
  · have e := hne r hr
    rwa [hs, update_of_ne e] at hr
  have e : r ≠ q := by
    rintro rfl
    exact hq hr
  rwa [hs, update_of_ne e]

theorem Parented.grow {r : Slot} (hq : t.state q = .embryo)
    (hs : u.state = update t.state q .runnable) (hp : u.parent = update t.parent q (some r))
    (hr : Live (u.state r)) (hi : ∃ i, u.initproc = some i ∧ Live (u.state i)) : Parented u := by
  refine ⟨fun p hp' => ?_,fun _ _ => hi⟩
  by_cases e : p = q
  · subst e
    exact ⟨r,by rw [hp, update_self],hr⟩
  rw [hs, update_of_ne e] at hp'
  obtain ⟨r',h1,h2⟩ := h.parent p hp'
  have e' : r' ≠ q := by
    rintro rfl
    simp [Live, hq] at h2
  exact ⟨r',by rw [hp, update_of_ne e, h1],by rwa [hs, update_of_ne e']⟩

theorem Parented.orphan {p : Slot} (hp : t.state p = .running)
    (hi : t.initproc ≠ some p) (hin : u.initproc = t.initproc) (hself : u.state p = .zombie)
    (hst : ∀ q, q ≠ p → u.state q = t.state q ∨ Live (t.state q) ∧ Live (u.state q))
    (hpar : ∀ q, Grown (t.state q) →
      u.parent q = if t.parent q = some p then t.initproc else t.parent q) : Parented u := by
  have hlive : ∀ q, q ≠ p → Live (t.state q) → Live (u.state q) := by
    intro q hq hl
    rcases hst q hq with e | e
    · rwa [e]
    · exact e.2
  have hgrown : ∀ q, Grown (u.state q) → Grown (t.state q) := by
    intro q hq
    by_cases e : q = p
    · rw [e, hp]
      simp [Grown]
    · rcases hst q e with e' | e'
      · rwa [← e']
      · exact Grown.live e'.1
  obtain ⟨i,hi1,hi2⟩ := h.init p (by simp [Grown, hp])
  have hip : i ≠ p := by
    rintro rfl
    exact hi hi1
  constructor
  · intro q hq
    rw [hpar q (hgrown q hq)]
    obtain ⟨r,h1,h2⟩ := h.parent q (hgrown q hq)
    by_cases e : t.parent q = some p
    · rw [if_pos e]
      exact ⟨i,hi1,hlive i hip hi2⟩
    rw [if_neg e]
    refine ⟨r,h1,hlive r ?_ h2⟩
    rintro rfl
    exact e h1
  · intro _ _
    exact ⟨i,by rw [hin, hi1],hlive i hip hi2⟩

theorem change_parented {s : State} {a : Action} {e : Event}
    (hfree : ∀ q ∈ freeList t.lists, t.state q = .unused) (hc : Change s a t u e) : Parented u := by
  cases hc with
  | switch calm hm init free state | kill q hq calm hm init free state =>
    exact h.shuffle (congrArg Prod.fst hm) init state
  | alloc q calm hm init free state =>
    have hq : t.state q = .unused := hfree q (by rw [free]; simp)
    have hp : u.parent = t.parent := congrArg Prod.fst hm
    rcases init with init | hall
    · exact h.shrink (q := q) (by simp [Live, hq]) (by simp [Grown]) state
        (fun r _ => by rw [hp]) init
    have hno : ∀ r, ¬ Grown (u.state r) := by
      intro r
      rw [state]
      by_cases e : r = q
      · simp [e, Grown]
      · simp [e, Grown, hall r]
    exact ⟨fun r hr => absurd hr (hno r),fun r hr => absurd hr (hno r)⟩
  | stack q hq calm hm init free state =>
    exact h.shuffle (congrArg Prod.fst hm) init (fun r => Or.inl (by rw [state]))
  | noStack q hq calm hm init free state | abort q hq ha calm hm init free state =>
    have hp : u.parent = t.parent := congrArg Prod.fst hm
    exact h.shrink (q := q) (by simp [Live, hq]) (by simp [Grown]) state (fun r _ => by rw [hp]) init
  | first q hq hi calm hm init free state =>
    have hl : Live (u.state q) := by simp [state, Live]
    exact h.grow hq state (congrArg Prod.fst hm) hl ⟨q,by rw [init, hi],hl⟩
  | born p q n hp hq he hm init free state =>
    have hlive : ∀ r, Live (t.state r) → Live (u.state r) := by
      intro r hr
      have e : r ≠ q := by
        rintro rfl
        simp [Live, hq] at hr
      rwa [state, update_of_ne e]
    obtain ⟨i,h1,h2⟩ := h.init p (by simp [Grown, hp])
    exact h.grow hq state (congrArg Prod.fst hm) (hlive p (by simp [Live, hp]))
      ⟨i,by rw [init, h1],hlive i h2⟩
  | dies p hp hi he hm init free self state =>
    refine h.orphan hp hi init self state (fun q hq => ?_)
    have hqf : q ∉ freeList t.lists := fun hm => hq.1 (hfree q hm)
    have hpar : u.parent = _ := congrArg Prod.fst hm
    simp [hpar, hqf]
  | reaped q hq calm hm init free state =>
    have hp : u.parent = update t.parent q none := congrArg Prod.fst hm
    exact h.shrink (q := q) (by simp [Live, hq]) (by simp [Grown]) state
      (fun r hr => by rw [hp, update_of_ne hr]) init

end

end Step

theorem free_unused {s : State} (hc : Consistent True s) :
    ∀ q ∈ freeList s.tab.lists, s.tab.state q = .unused := by
  obtain ⟨L,hL⟩ := hc.placed
  intro q hq
  rw [freeList_eq hL] at hq
  exact hL.fits .free q hq

theorem start_parented {s : State} (h0 : Start s) : Parented s.tab := by
  have hno : ∀ q, ¬ Grown (s.tab.state q) := by
    obtain ⟨ticks,pat,ht⟩ := h0
    obtain ⟨ls,L,hi,-⟩ := userinitLists_spec True ticks pat
    rw [boot, hi, ok_bind] at ht
    obtain rfl := Except.ok.inj ht
    intro q hq
    exact hq.1 rfl
  exact ⟨fun q hq => absurd hq (hno q),fun q hq => absurd hq (hno q)⟩

theorem run_parented {s₀ s : State} {h : List (Action × Event)} (h0 : Start s₀)
    (hr : Run s₀ h s) : Parented s.tab := by
  induction hr with
  | nil => exact start_parented h0
  | snoc run step ih =>
    obtain ⟨hc,hk⟩ := run_kinship (start_consistent h0 True) (start_kinship h0) run
    exact change_parented ih (free_unused hc) (effect_change hc hk (exec_effect step))

/-- The reads of a program succeed and end with `Q`, if between them the table is
settled and only states in `S` occur. -/
def Rely (S : View → Prop) (Q : α → Prop) : Reader α → View → Prop
  | .ret a, _ => Q a
  | .act f k, v => ∀ v', Settled v.tab v'.tab → S v' →
      ∃ b, f v' = some (.ok (b,v')) ∧ Rely S Q (k b) v'
  | .pick k, v => ∀ n, Rely S Q (k n) v

section Reads

variable {S : View → Prop} {v : View} {p : Slot}

theorem Settled.trans {t u w : Table} (h : Settled t u) (h' : Settled u w) : Settled t w := fun q =>
  ⟨fun e => (h' q).1 ((h q).1 e),fun e => (h' q).2.1 ((h q).2.1 e),fun e => (h' q).2.2 ((h q).2.2 e)⟩

theorem Settled.grown {t u : Table} (h : Settled t u) (hq : Grown (t.state p)) : Grown (u.state p) := by
  cases hs : t.state p with
  | unused => exact absurd hs hq.1
  | embryo => exact absurd hs hq.2
  | zombie => simp [Grown, (h p).2.2 hs]
  | _ => exact Grown.live ((h p).2.1 (by simp [Live, hs]))

theorem Rely.settled {Q : α → Prop} {x : Reader α} (h : Rely S Q x v) {v' : View}
    (hv : Settled v.tab v'.tab) : Rely S Q x v' := by
  induction x with
  | ret a => exact h
  | act f k ih => exact fun v'' h' => h v'' (hv.trans h')
  | pick k ih => exact fun n => ih n (h n)

theorem rely_fetch {β : Type} {Q : α → Prop} {f : View → β} {k : β → Reader α}
    (h : ∀ v', Settled v.tab v'.tab → S v' → Rely S Q (k (f v')) v') : Rely S Q (fetch f >>= k) v :=
  fun v' hv hs => ⟨f v',rfl,h v' hv hs⟩

theorem rely_bind {β : Type} {Q : β → Prop} {Q' : α → Prop} {x : Reader β} {k : β → Reader α}
    (h : Rely S Q x v) (hk : ∀ b v', Q b → Rely S Q' (k b) v') : Rely S Q' (x >>= k) v := by
  induction x generalizing v with
  | ret a => exact hk a v h
  | act f g ih =>
    intro v' hv hs
    obtain ⟨b,h1,h2⟩ := h v' hv hs
    exact ⟨b,h1,ih b h2⟩
  | pick g ih => exact fun n => ih n (h n)

/-- The number is the pid of a live process in one of the states. -/
def Lives (S : View → Prop) (n : Uint) : Prop :=
  ∃ v r, S v ∧ Live (v.tab.state r) ∧ n = v.tab.pid r

theorem parentPid_rely (hS : ∀ v, S v → Parented v.tab) (hp : Grown (v.tab.state p)) :
    Rely S (Lives S) (parentPid p) v := by
  refine rely_fetch (fun v₁ h1 hs1 => ?_)
  obtain ⟨r,hr,hlive⟩ := (hS v₁ hs1).parent p (h1.grown hp)
  rw [hr]
  exact fun v₂ h2 hs2 => ⟨_,rfl,v₂,r,hs2,(h2 r).2.1 hlive,rfl⟩

theorem readEntry_rely (hS : ∀ v, S v → Parented v.tab) (p : Slot) :
    Rely S (fun o => ∀ e ∈ o, Lives S e.ppid) (readEntry p) v := by
  have hnone : ∀ {v'}, Rely S (fun o => ∀ e ∈ o, Lives S (Uproc.ppid e)) (pure none) v' :=
    fun e he => nomatch he
  refine rely_fetch (fun v₁ _ _ => ?_)
  split
  · exact hnone
  rename_i he
  refine rely_fetch (fun v₂ h2 _ => ?_)
  split
  · exact hnone
  rename_i hn
  -- an entry that was unused in the first test would still be so in the second
  have hg : Grown (v₂.tab.state p) := h2.grown ⟨fun e => hn ((h2 p).1 e),he⟩
  refine rely_fetch (fun v₃ h3 _ => rely_fetch (fun v₄ h4 _ => rely_fetch (fun v₅ h5 _ => ?_)))
  refine rely_bind (parentPid_rely hS (h5.grown (h4.grown (h3.grown hg)))) (fun ppid v₆ hn => ?_)
  iterate 7 refine rely_fetch (fun _ _ _ => ?_)
  intro e he
  cases he
  exact hn

end Reads

section Runs

variable {w₀ w : Watch α} {h : List (Act × Bool)}

/-- The table is settled while a process is read. -/
def Undisturbed (h : List (Act × Bool)) : Prop := ∀ x ∈ h, x.2 = false

/-- The states that the call sees. -/
def Sees (w₀ : Watch α) (h : List (Act × Bool)) (v : View) : Prop :=
  ∃ h₁ w, h₁ <+: h ∧ Lts.Run exec w₀ h₁ w ∧ v = w.view

structure Reads (S : View → Prop) (Q : α → Prop) (w : Watch α) : Prop where
  out : ∀ e ∈ w.out, Q e
  now : Rely S (fun o => ∀ e ∈ o, Q e) w.now w.view
  left : ∀ x ∈ w.left, ∀ v, Rely S (fun o => ∀ e ∈ o, Q e) x v

theorem Reads.next {S : View → Prop} {Q : α → Prop} (hw : Reads S Q w) {r : Option α}
    (hr : ∀ e ∈ r, Q e) : Reads S Q (w.next r) := by
  have hout : ∀ e ∈ w.out++r.toList, Q e := by
    intro e he
    rcases List.mem_append.mp he with he | he
    · exact hw.out e he
    · exact hr e (Option.mem_toList.mp he)
  have hnone : ∀ v, Rely S (fun o => ∀ e ∈ o, Q e) (pure none) v := fun _ e he => nomatch he
  unfold Watch.next
  dsimp only
  split
  · exact ⟨hout,hnone _,fun x hx => absurd hx List.not_mem_nil⟩
  rename_i x left he
  have hsub : x::left ⊆ w.left := by
    rw [← he]
    split
    · exact List.nil_subset _
    · exact List.Subset.refl _
  exact ⟨hout,hw.left x (hsub List.mem_cons_self) _,
    fun y hy => hw.left y (hsub (List.mem_cons_of_mem x hy))⟩

inductive Stepped (w : Watch α) : Act → Watch α → Bool → Prop
  | kernel {a : Action} {x : Slot → Facts} {s : State} {e : Event}
      (hs : ProcStep.exec w.kernel a = some (.ok (s,e))) : Stepped w (.kernel a x)
        {w with kernel := s, facts := x} (w.reading && !decide (Settled w.kernel.tab s.tab))
  | next {r : Option α} (hp : w.now = .ret r) : Stepped w .read (w.next r) false
  | read {β : Type} {f : Atom View Fault β} {k : β → Reader (Option α)} {b : β} {v : View}
      (hp : w.now = .act f k) (hf : f w.view = some (.ok (b,v))) :
      Stepped w .read {w with now := k b} false
  | pick {k : ℕ → Reader (Option α)} (hp : w.now = .pick k) : Stepped w .read {w with now := k 0} false

theorem exec_stepped {w' : Watch α} {a : Act} {e : Bool} (hs : exec w a = some (.ok (w',e))) :
    Stepped w a w' e := by
  have hmap : ∀ {β : Type} {o : Option (Except Fault β)} {g : β → Watch α × Bool},
      o.map (fun r => r.map g) = some (.ok (w',e)) → ∃ y, o = some (.ok y) ∧ g y = (w',e) := by
    intro β o g ho
    obtain ⟨r,rfl,hr⟩ := Option.map_eq_some_iff.mp ho
    cases r with
    | error f => cases hr
    | ok y => exact ⟨y,rfl,Except.ok.inj hr⟩
  cases a with
  | kernel a x =>
    obtain ⟨⟨s,ev⟩,h1,h2⟩ := hmap hs
    cases h2
    exact .kernel h1
  | read =>
    rw [exec] at hs
    split at hs
    · rename_i hp
      cases hs
      exact .next hp
    · rename_i hp
      obtain ⟨⟨b,v⟩,h1,h2⟩ := hmap hs
      cases h2
      exact .read hp h1
    · rename_i hp
      cases hs
      exact .pick hp

theorem Reads.step {S : View → Prop} {Q : α → Prop} (hw : Reads S Q w) (hv : S w.view) {a : Act}
    {w' : Watch α} {e : Bool} (hs : Stepped w a w' e) (he : e = false) : Reads S Q w' := by
  have hnow := hw.now
  cases hs with
  | kernel hs =>
    refine ⟨hw.out,?_,hw.left⟩
    rw [Watch.reading] at he
    split at he
    · rename_i hp
      rw [hp] at hnow
      exact hp ▸ hnow
    · exact hnow.settled (by simpa [Watch.view] using he)
  | next hp => exact hw.next (by rwa [hp] at hnow)
  | read hp hf =>
    rw [hp] at hnow
    obtain ⟨b,h1,h2⟩ := hnow w.view (fun _ => ⟨id,id,id⟩) hv
    cases hf.symm.trans h1
    exact ⟨hw.out,h2,hw.left⟩
  | pick hp =>
    rw [hp] at hnow
    exact ⟨hw.out,hnow 0,hw.left⟩

theorem run_reads {Q : α → Prop} {H : List (Act × Bool)} (hw : Reads (Sees w₀ H) Q w₀)
    (hu : Undisturbed H) (hr : Lts.Run exec w₀ h w) (hp : h <+: H) : Reads (Sees w₀ H) Q w := by
  induction hr with
  | nil => exact hw
  | @snoc w w' h a e run step ih =>
    have hp' : h <+: H := (List.prefix_append h _).trans hp
    obtain rfl : e = false := hu (a,e) (hp.subset List.mem_concat_self)
    exact (ih hp').step ⟨h,w,hp',run,rfl⟩ (exec_stepped step) rfl

theorem Reads.safe {S : View → Prop} {Q : α → Prop} (hw : Reads S Q w) (hv : S w.view) (f : Fault) :
    exec w .read ≠ some (.error f) := by
  intro he
  have hnow := hw.now
  rw [exec] at he
  split at he
  · cases he
  · rename_i hp
    rw [hp] at hnow
    obtain ⟨b,h1,-⟩ := hnow w.view (fun _ => ⟨id,id,id⟩) hv
    rw [h1] at he
    cases he
  · cases he

theorem run_kernel (hr : Lts.Run exec w₀ h w) : ∃ k, Run w₀.kernel k w.kernel := by
  induction hr with
  | nil => exact ⟨[],.nil⟩
  | snoc run step ih =>
    obtain ⟨k,hk⟩ := ih
    cases exec_stepped step with
    | kernel hs => exact ⟨_,hk.snoc hs⟩
    | next hp =>
      refine ⟨k,?_⟩
      unfold Watch.next
      dsimp only
      split <;> exact hk
    | read hp hf => exact ⟨k,hk⟩
    | pick hp => exact ⟨k,hk⟩

/-- The call follows no null pointer, and each number that it reports is the pid of
a process that was live in a state during the call. -/
def Reports (w₀ : Watch α) (h : List (Act × Bool)) (w : Watch α) (ppid : α → Uint) : Prop :=
  (∀ f, exec w .read ≠ some (.error f)) ∧ ∀ e ∈ w.out, Lives (Sees w₀ h) (ppid e)

theorem reports {s₀ : State} {k : List (Action × Event)} (h0 : Start s₀)
    (hk : Run s₀ k w₀.kernel) {ppid : α → Uint} (hr : Lts.Run exec w₀ h w) (hu : Undisturbed h)
    (hw : (∀ v, Sees w₀ h v → Parented v.tab) →
      Reads (Sees w₀ h) (fun e => Lives (Sees w₀ h) (ppid e)) w₀) :
    Reports w₀ h w ppid := by
  have hS : ∀ v, Sees w₀ h v → Parented v.tab := by
    rintro v ⟨h₁,w₁,-,hr₁,rfl⟩
    obtain ⟨k',hk'⟩ := run_kernel hr₁
    exact run_parented h0 (hk.append hk')
  have hread := run_reads (hw hS) hu hr (List.prefix_refl h)
  exact ⟨hread.safe ⟨h,w,List.prefix_refl h,hr,rfl⟩,hread.out⟩

end Runs

/-- In every reachable state a process that is neither unused nor an embryo has
a parent that is runnable, running or sleeping. `getprocs` and `sys_getppid`,
which take no lock, follow no null pointer and report pids of live processes, if
no entry is allocated, no process exits and none is reaped while a process is read. -/
theorem parents_alive {s₀ s : State} {h : List (Action × Event)} (h0 : Start s₀) (hr : Run s₀ h s) :
    (∀ q, s.tab.state q ≠ .unused → s.tab.state q ≠ .embryo →
      ∃ r, s.tab.parent q = some r ∧ Live (s.tab.state r)) ∧
    (∀ max x k w, Lts.Run exec (getprocs max s x) k w → Undisturbed k →
      Reports (getprocs max s x) k w Uproc.ppid) ∧
    ∀ c p i x k w, s.cpu c = .running p i → Lts.Run exec (sysGetppid p s x) k w → Undisturbed k →
      Reports (sysGetppid p s x) k w id := by
  refine ⟨fun q h1 h2 => (run_parented h0 hr).parent q ⟨h1,h2⟩,fun max x k w hw hu => ?_,
    fun c p i x k w hcpu hw hu => ?_⟩
  · refine reports h0 hr hw hu (fun hS => ⟨fun e he => absurd he List.not_mem_nil,?_,fun y hy v => ?_⟩)
    · exact fun e he => nomatch he
    obtain ⟨q,-,rfl⟩ := List.mem_map.mp hy
    exact readEntry_rely hS q
  obtain ⟨hc,-⟩ := run_kinship (start_consistent h0 True) (start_kinship h0) hr
  have hrun : s.tab.state p = .running := hc.onCpu c p (by rw [hcpu]; rfl)
  refine reports h0 hr hw hu (fun hS => ⟨fun e he => absurd he List.not_mem_nil,?_,
    fun y hy => absurd hy List.not_mem_nil⟩)
  refine rely_bind (parentPid_rely hS (by simp [Grown, sysGetppid, Watch.view, hrun]))
    (fun n v hn e he => ?_)
  cases he
  exact hn

def otherCpu : Cpu := Fin.last 7

/-- The first process waits, its child has a child of its own, and both run. -/
def threeGenerations : List Action :=
  bootAndFork++[.wait bootCpu,.schedNext bootCpu,.schedBegin bootCpu,.schedNext bootCpu,
    .resume bootCpu,.forkAlloc bootCpu,.forkStack bootCpu true,.forkDone bootCpu,
    .schedBegin otherCpu,.schedNext otherCpu,.resume otherCpu]

/-- The first process has two children; one has exited, the other runs. -/
def oneExited : List Action :=
  bootAndFork++[.forkAlloc bootCpu,.forkStack bootCpu true,.forkDone bootCpu,.schedBegin otherCpu,
    .schedNext otherCpu,.resume otherCpu,.exit otherCpu,.schedNext otherCpu,.schedBegin otherCpu,
    .schedNext otherCpu,.resume otherCpu]

def noFacts : Slot → Facts := fun _ => ⟨0,0,0,0,[]⟩

def grandchild : Slot := slotOf 2

def others (l : List Action) : List Act := l.map (fun a => .kernel a noFacts)

/-- The next read follows a null pointer. -/
def stuck (w : Watch α) : Bool :=
  match exec w .read with
  | some (.error .nullDeref) => true
  | _ => false

theorem parents_alive_adopted : ∃ s₀ h s k w, Start s₀ ∧ Run s₀ h s ∧
    h.map Prod.fst = threeGenerations++[.exit bootCpu] ∧ s.cpu otherCpu = .running grandchild 0 ∧
    Lts.Run exec (sysGetppid grandchild s noFacts) k w ∧ w.out = [1] ∧
    Reports (sysGetppid grandchild s noFacts) k w id := by
  obtain ⟨s₀,h,s,h0,hrun,hacts,hi,hw⟩ := bootRun_reaches (threeGenerations++[.exit bootCpu])
    (fun _ s => s.cpu otherCpu = .running grandchild 0 ∧
      ((Lts.replay exec (sysGetppid grandchild s noFacts) [.read,.kernel .tick noFacts,.read,.read]).any
        (fun r => decide (r.2.out = [1] ∧ ∀ x ∈ r.1, x.2 = false))) = true) (by decide +kernel)
  obtain ⟨k,w,hk,-,hout,hu⟩ := Lts.replay_reaches exec (sysGetppid grandchild s noFacts) _
    (fun k w => w.out = [1] ∧ ∀ x ∈ k, x.2 = false) hw
  exact ⟨s₀,h,s,k,w,h0,hrun,hacts,hi,hk,hout,(parents_alive h0 hrun).2.2 _ _ 0 _ k w hi hk hu⟩

/-- A child is reaped between the tests of its state and the read of its parent; and
a parent is reaped between the two reads of `sys_getppid`. -/
theorem parents_unlocked :
    (∃ s₀ h s k w, Start s₀ ∧ Run s₀ h s ∧ h.map Prod.fst = oneExited ∧
      Lts.Run exec (getprocs 64 s noFacts) k w ∧ exec w .read = some (.error .nullDeref)) ∧
    ∃ s₀ h s k w, Start s₀ ∧ Run s₀ h s ∧ h.map Prod.fst = threeGenerations ∧
      s.cpu otherCpu = .running grandchild 0 ∧
      Lts.Run exec (sysGetppid grandchild s noFacts) k w ∧ w.out = [0] ∧
      ∀ r, Live (w.kernel.tab.state r) → w.kernel.tab.pid r ≠ 0 := by
  constructor
  · obtain ⟨s₀,h,s,h0,hrun,hacts,hw⟩ := bootRun_reaches oneExited
      (fun _ s => ((Lts.replay exec (getprocs 64 s noFacts) (List.replicate 18 .read++
        others [.wait bootCpu]++List.replicate 4 .read)).any
        (fun r => decide (stuck r.2 = true))) = true) (by decide +kernel)
    obtain ⟨k,w,hk,-,hw⟩ := Lts.replay_reaches exec (getprocs 64 s noFacts) _
      (fun _ w => stuck w = true) hw
    refine ⟨s₀,h,s,k,w,h0,hrun,hacts,hk,?_⟩
    unfold stuck at hw
    split at hw
    · assumption
    · cases hw
  obtain ⟨s₀,h,s,h0,hrun,hacts,hi,hw⟩ := bootRun_reaches threeGenerations
    (fun _ s => s.cpu otherCpu = .running grandchild 0 ∧
      ((Lts.replay exec (sysGetppid grandchild s noFacts) ([.read]++others [.exit bootCpu,
        .schedNext bootCpu,.schedBegin bootCpu,.schedNext bootCpu,.resume bootCpu]++[.read,.read])).any
        (fun r => decide (r.2.out = [0] ∧
          ∀ q, Live (r.2.kernel.tab.state q) → r.2.kernel.tab.pid q ≠ 0))) = true)
    (by decide +kernel)
  obtain ⟨k,w,hk,-,hout,hpid⟩ := Lts.replay_reaches exec (sysGetppid grandchild s noFacts) _
    (fun _ w => w.out = [0] ∧ ∀ q, Live (w.kernel.tab.state q) → w.kernel.tab.pid q ≠ 0) hw
  exact ⟨s₀,h,s,k,w,h0,hrun,hacts,hi,hk,hout,hpid⟩

end Yeet.Parents
