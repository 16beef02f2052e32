import YeetKernel.Kernel
import YeetKernel.Lts

/-!
# Spin locks and the interrupt flag

Processors run `acquire`, `release` and `sched` in any interleaving; an action
is an access to a field of a lock, or work on the processor's own counter while
it cannot be interrupted. What a handler returns to may have been left by
another processor, since `sched` moves processes between them.
-/

namespace Yeet.Spin
open Kernel Function

structure Spinlock (C : Type) where
  locked : Bool
  cpu : Option C

/-- The place in a routine; `code` is the code between the calls. -/
inductive Pc (L : Type) where
  | code
  | cli (lk : L) (eflags : Bool)
  | holding (lk : L)
  | holdingCpu (lk : L)
  | xchg (lk : L)
  | record (lk : L)
  | held (lk : L)
  | heldCpu (lk : L)
  | forget (lk : L)
  | unlock (lk : L)
  | popcli (lk : L)
  | sched (lk : L) (intena : Bool)
  deriving DecidableEq

structure Cli where
  ncli : ℤ
  intena : Bool
  flag : Bool

/-- `running` is whether `proc->state` is `RUNNING`; `locks` are the critical
sections the processor is in. -/
structure Cpu (L : Type) extends Cli where
  pc : Pc L
  running : Bool
  locks : List L

/-- `pushcli` from `cli` on, with the flag that was read before. -/
def pushcli (eflags : Bool) (x : Cli) : Cli :=
  ⟨x.ncli+1,if x.ncli = 0 then eflags else x.intena,false⟩

def popcli (x : Cli) : Except Fault Cli :=
  if x.flag then .error (.panic "popcli - interruptible")
  else if x.ncli-1 < 0 then .error (.panic "popcli")
  else .ok ⟨x.ncli-1,x.intena,x.ncli-1 = 0 && x.intena⟩

variable {L C : Type} [DecidableEq L] [DecidableEq C]

/-- The next action of processor `c` on the lock of the routine it is in. `sched`
leaves the flag of the process that the processor goes on with, which the
scheduler has made `RUNNING`. -/
def access (c : C) (x : Cpu L) (y : Spinlock C) : Except Fault (Cpu L × Spinlock C) :=
  match x.pc with
  | .code => .ok (x,y)
  | .cli lk eflags => .ok (⟨pushcli eflags x.toCli,.holding lk,x.running,x.locks⟩,y)
  | .holding lk => .ok ({x with pc := if y.locked then .holdingCpu lk else .xchg lk},y)
  | .holdingCpu lk => if y.cpu = some c then .error (.panic "acquire")
    else .ok ({x with pc := .xchg lk},y)
  | .xchg lk => if y.locked then .ok (x,y)
    else .ok ({x with pc := .record lk},{y with locked := true})
  | .record lk => .ok ({x with pc := .code, locks := lk::x.locks},{y with cpu := some c})
  | .held lk => if y.locked then .ok ({x with pc := .heldCpu lk},y)
    else .error (.panic "release")
  | .heldCpu lk => if y.cpu = some c then .ok ({x with pc := .forget lk},y)
    else .error (.panic "release")
  | .forget lk => .ok ({x with pc := .unlock lk},{y with cpu := none})
  | .unlock lk => .ok ({x with pc := .popcli lk, locks := x.locks.erase lk},{y with locked := false})
  | .popcli _ => (popcli x.toCli).map (fun z => (⟨z,.code,x.running,x.locks⟩,y))
  | .sched _ intena =>
    if ¬ (y.locked ∧ y.cpu = some c) then .error (.panic "sched ptable.lock")
    else if x.ncli ≠ 1 then .error (.panic "sched locks")
    else if x.running then .error (.panic "sched running")
    else if x.flag then .error (.panic "sched interruptible")
    else .ok ({x with pc := .code, intena := intena, running := true},y)

def Pc.lock : Pc L → Option L
  | .code => none
  | .cli lk _ | .holding lk | .holdingCpu lk | .xchg lk | .record lk | .held lk | .heldCpu lk
  | .forget lk | .unlock lk | .popcli lk | .sched lk _ => some lk

inductive Act (L : Type) where
  | next
  | acquire (lk : L)
  | release (lk : L)
  | setState (running : Bool)
  | sched (lk : L) (intena : Bool)
  | interrupt
  | resume (within : Option L)

/-- Code takes locks that it has not, gives back locks that it has, writes
`proc->state` under a lock, and calls `sched` with one lock and when the state
is no longer `RUNNING`. A return from a handler, like `sti` in the scheduler, is
made without locks; it leads to code or into a `pushcli` that has read the flag. -/
def enter (x : Cpu L) : Act L → Option (Cpu L)
  | .next => none
  | .acquire lk =>
    if x.pc = .code ∧ lk ∉ x.locks then some {x with pc := .cli lk x.flag} else none
  | .release lk => if x.pc = .code ∧ lk ∈ x.locks then some {x with pc := .held lk} else none
  | .setState running =>
    if x.pc = .code ∧ x.locks ≠ [] then some {x with running} else none
  | .sched lk intena =>
    if x.pc = .code ∧ x.locks = [lk] ∧ x.running = false then some {x with pc := .sched lk intena} else none
  | .interrupt => if x.flag then some {x with pc := .code, flag := false} else none
  | .resume within => if x.pc = .code ∧ x.locks = [] then
      some {x with pc := within.elim .code (fun lk => .cli lk true), flag := true} else none

structure State (L C : Type) where
  lock : L → Spinlock C
  cpu : C → Cpu L

def exec (s : State L C) : C × Act L → Option (Except Fault (State L C × Unit))
  | (c,.next) => (s.cpu c).pc.lock.map (fun lk => (access c (s.cpu c) (s.lock lk)).map (fun r =>
      (⟨update s.lock lk r.2,update s.cpu c r.1⟩,())))
  | (c,a) => (enter (s.cpu c) a).map (fun x => .ok ({s with cpu := update s.cpu c x},()))

def boot (flag : C → Bool) : State L C :=
  ⟨fun _ => ⟨false,none⟩,fun c => ⟨⟨0,false,flag c⟩,.code,false,[]⟩⟩

/-- The lock is taken from the `xchg` of `acquire` to that of `release`. -/
@[grind] def Cpu.Has (x : Cpu L) (lk : L) : Prop := lk ∈ x.locks ∨ x.pc = .record lk

@[grind] def Cpu.Marks (x : Cpu L) (lk : L) : Prop := lk ∈ x.locks ∧ x.pc ≠ .unlock lk

@[grind] def Pc.takes : Pc L → Option L
  | .cli lk _ | .holding lk | .holdingCpu lk | .xchg lk | .record lk => some lk
  | _ => none

@[grind] def Pc.drops : Pc L → Option L
  | .held lk | .heldCpu lk | .forget lk | .unlock lk | .sched lk _ => some lk
  | _ => none

@[grind] def Pc.depth : Pc L → ℕ
  | .holding _ | .holdingCpu _ | .xchg _ | .record _ | .popcli _ => 1
  | _ => 0

@[mk_iff] structure Fine (x : Cpu L) : Prop where
  nodup : x.locks.Nodup
  ncli : x.ncli = x.locks.length+x.pc.depth
  flag : x.flag = true → x.ncli = 0
  takes : ∀ lk, x.pc.takes = some lk → lk ∉ x.locks
  drops : ∀ lk, x.pc.drops = some lk → lk ∈ x.locks
  sched : ∀ lk b, x.pc = .sched lk b → x.locks = [lk] ∧ x.running = false

@[mk_iff] structure Agree (c : C) (x : Cpu L) (lk : L) (y : Spinlock C) (w : Option C) : Prop where
  locked : y.locked = w.isSome
  owner : w = some c ↔ x.Has lk
  cpu : y.cpu = some c ↔ x.Marks lk
  mark : ∀ c', y.cpu = some c' → w = some c'

structure Inv (s : State L C) (owner : L → Option C) : Prop where
  fine : ∀ c, Fine (s.cpu c)
  agree : ∀ c lk, Agree c (s.cpu c) lk (s.lock lk) (owner lk)

variable {c : C} {x x' : Cpu L} {y : Spinlock C} {lk : L} {w : Option C} {a : Act L}
variable {s : State L C} {o : L → Option C}

def Alike (x x' : Cpu L) (l : L) : Prop := (x'.Has l ↔ x.Has l) ∧ (x'.Marks l ↔ x.Marks l)

theorem Fine.enter (h : Fine x) (he : enter x a = some x') : Fine x' ∧ ∀ l, Alike x x' l := by
  obtain ⟨h1,h2,h3,h4,h5,h6⟩ := h
  cases a with
  | next => cases he
  | resume within =>
    simp only [Spin.enter, Option.ite_none_right_eq_some, Option.some.injEq] at he
    obtain ⟨he,rfl⟩ := he
    cases within <;> exact ⟨by constructor <;> grind -linarith,fun l => by grind -linarith [Alike]⟩
  | _ =>
    simp only [Spin.enter, Option.ite_none_right_eq_some, Option.some.injEq] at he
    obtain ⟨he,rfl⟩ := he
    exact ⟨by constructor <;> grind -linarith,fun l => by grind -linarith [Alike]⟩

@[mk_iff] structure Accessed (c : C) (x : Cpu L) (lk : L) (y : Spinlock C) (w : Option C)
    (r : Cpu L × Spinlock C) (w' : Option C) : Prop where
  fine : Fine r.1
  agree : Agree c r.1 lk r.2 w'
  alike : ∀ l, l ≠ lk → Alike x r.1 l
  other : ∀ c', c' ≠ c → (w' = some c' ↔ w = some c') ∧ (r.2.cpu = some c' ↔ y.cpu = some c')

theorem Fine.access (h : Fine x) (ha : Agree c x lk y w) (hl : x.pc.lock = some lk) :
    ∃ r w', access c x y = .ok r ∧ Accessed c x lk y w r w' := by
  rw [fine_iff] at h
  rw [agree_iff] at ha
  simp only [Spin.access, accessed_iff, fine_iff, agree_iff, Alike]
  cases hp : x.pc with simp only [hp, Pc.lock, Option.some.injEq, reduceCtorEq] at hl ⊢
  | cli l e => exact ⟨_,w,rfl,by grind -linarith [pushcli]⟩
  | holding l =>
    refine ⟨_,w,rfl,?_⟩
    split <;> grind -linarith
  | holdingCpu l =>
    rw [if_neg (by grind)]
    exact ⟨_,w,rfl,by grind -linarith⟩
  | xchg l =>
    cases hy : y.locked with
    | true => exact ⟨_,w,rfl,by grind -linarith⟩
    | false => exact ⟨_,some c,rfl,by grind -linarith⟩
  | record l | forget l => exact ⟨_,w,rfl,by grind -linarith⟩
  | held l | heldCpu l =>
    rw [if_pos (by grind)]
    exact ⟨_,w,rfl,by grind -linarith⟩
  | unlock l => exact ⟨_,none,rfl,by grind -linarith⟩
  | popcli l =>
    have hf : x.flag = false := by grind
    rw [popcli, hf, if_neg (by simp), if_neg (by grind)]
    exact ⟨_,w,rfl,by grind -linarith⟩
  | sched l b =>
    rw [if_neg (by grind), if_neg (by grind), if_neg (by grind), if_neg (by grind)]
    exact ⟨_,w,rfl,by grind -linarith⟩

theorem Inv.exec (h : Inv s o) {b : C × Act L} {r : Except Fault (State L C × Unit)}
    (hr : exec s b = some r) : ∃ s' o', r = .ok (s',()) ∧ Inv s' o' := by
  obtain ⟨c,a⟩ := b
  cases a with
  | next =>
    obtain ⟨lk,hl,rfl⟩ := Option.map_eq_some_iff.mp hr
    obtain ⟨⟨x,y⟩,w,he,⟨h1,h2,h3,h4⟩⟩ := (h.fine c).access (h.agree c lk) hl
    refine ⟨_,update o lk w,by rw [he]; rfl,fun c' => ?_,fun c' l => ?_⟩
    · have hf := h.fine c'
      grind [update_apply]
    · have ha := h.agree c' l
      simp only [agree_iff, Alike, update_apply] at *
      grind
  | _ =>
    obtain ⟨x,he,rfl⟩ := Option.map_eq_some_iff.mp hr
    obtain ⟨h1,h2⟩ := (h.fine c).enter he
    refine ⟨_,o,rfl,fun c' => ?_,fun c' l => ?_⟩
    · have hf := h.fine c'
      grind [update_apply]
    · have ha := h.agree c' l
      simp only [agree_iff, Alike, update_apply] at *
      grind

/-- In every run no check of `acquire`, `release`, `popcli` and `sched` fails, a
lock is held by one processor at most, a processor that can be interrupted holds
none, and whoever waits for a lock waits for another processor. -/
theorem spinlocks_exclude {flag : C → Bool} {h : List ((C × Act L) × Unit)}
    (run : Lts.Run exec (boot flag) h s) : (∀ b f, exec s b ≠ some (.error f)) ∧
    (∀ lk c c', lk ∈ (s.cpu c).locks → lk ∈ (s.cpu c').locks → c = c') ∧
    (∀ c, (s.cpu c).flag = true → (s.cpu c).locks = []) ∧
    ∀ c lk, (s.cpu c).pc = .xchg lk → (s.lock lk).locked = true →
      ∃ c', c' ≠ c ∧ (s.cpu c').Has lk := by
  obtain ⟨o,hi⟩ : ∃ o, Inv s o := by
    refine run.invariant (fun _ s => ∃ o, Inv s o) ⟨fun _ => none,fun c => ?_,fun c lk => ?_⟩ ?_
    · constructor <;> simp [boot, Pc.takes, Pc.drops, Pc.depth]
    · constructor <;> simp [boot, Cpu.Has, Cpu.Marks]
    rintro _ s a s' e ⟨o,hi⟩ hs
    obtain ⟨s₁,o',he,hi'⟩ := hi.exec hs
    obtain ⟨rfl,-⟩ := Prod.mk.inj (Except.ok.inj he)
    exact ⟨o',hi'⟩
  refine ⟨fun b f hf => ?_,fun lk c c' h1 h2 => ?_,fun c hc => ?_,fun c lk hp hl => ?_⟩
  · obtain ⟨_,_,he,-⟩ := hi.exec hf
    cases he
  · have hc := (hi.agree c lk).owner.mpr (Or.inl h1)
    rw [(hi.agree c' lk).owner.mpr (Or.inl h2)] at hc
    exact (Option.some.inj hc).symm
  · have hn := (hi.fine c).ncli
    rw [(hi.fine c).flag hc] at hn
    exact List.eq_nil_of_length_eq_zero (by omega)
  rw [(hi.agree c lk).locked, Option.isSome_iff_exists] at hl
  obtain ⟨c',hc⟩ := hl
  have hh := (hi.agree c' lk).owner.mp hc
  refine ⟨c',?_,hh⟩
  rintro rfl
  rcases hh with hm | hr
  · exact (hi.fine c').takes lk (by rw [hp, Pc.takes]) hm
  · rw [hp] at hr
    cases hr

theorem spinlocks_exclude_handler : ∃ h s, Lts.Run exec (boot (fun c => c)) h s ∧
    (s.cpu true).locks = [()] ∧ (s.cpu false).pc = .xchg () ∧
    ∃ c', c' ≠ false ∧ (s.cpu c').Has () := by
  obtain ⟨h,s,hr,-,h1,h2,h3⟩ := Lts.replay_reaches exec (boot (fun c : Bool => c)) [(true,.acquire ()),
    (true,.interrupt),(true,.acquire ()),(true,.next),(true,.next),(true,.next),(true,.next),
    (true,.setState false),(true,.sched () true),(true,.next),
    (false,.acquire ()),(false,.next),(false,.next),(false,.next)]
    (fun _ s => (s.cpu true).locks = [()] ∧ (s.cpu false).pc = .xchg () ∧ (s.lock ()).locked = true)
    (by decide)
  exact ⟨h,s,hr,h1,h2,(spinlocks_exclude hr).2.2.2 false () h2 h3⟩

end Yeet.Spin
