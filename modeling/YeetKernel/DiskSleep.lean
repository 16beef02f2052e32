import YeetKernel.BufArray
import YeetKernel.WaitQueue

/-!
# Sleepers on buffers

The buffer cache and the disk driver are run with the queue of processes that
sleep on buffers. `bget` sleeps on a busy buffer until it is released, `iderw`
on the buffer it has queued until the disk is done with it; both wait on the
same channel, and a wakeup reaches only the first sleeper. The disk raises one
interrupt for each command it was given.
-/

namespace Yeet.DiskWaiters
open Kernel DoublyLinked BufCache BufEffect WaitQueue Function

variable {P D : Type} [DecidableEq P]

/-- `active` is the buffer of the command that the disk is busy with. -/
structure System (P D : Type) where
  core : State P D
  active : Option Bufno
  asleep : Queue P Bufno

inductive Act (P D : Type) where
  | core (a : Action P D)
  | kill (p : P)

abbrev Seen (P D : Type) := Option (Event P D)

def actor : Action P D → Option P
  | .bread p _ _ => some p
  | .bget p => some p
  | .test p => some p
  | .iderw p => some p
  | .ideintr => none
  | .wake p => some p
  | .modify p _ _ => some p
  | .bwrite p _ => some p
  | .logWrite p _ => some p
  | .brelse p _ => some p

def enabled (x : System P D) (a : Action P D) : Bool :=
  match actor a with
  | some p => !x.asleep.any (fun y => y.1 = p)
  | none => x.active.isSome

def sleepsOn (s : State P D) (p : P) : Option Bufno :=
  match s.ctl p with
  | .getting dev blockno =>
    (search s.links.next (fun b => (s.buf b).dev == dev && (s.buf b).blockno == blockno) NBUF
      (s.links.next none)).join
  | .waiting _ b => some b
  | _ => none

/-- The commands and the sleepers after an action of the cache has led to `s`. -/
def settle (x : System P D) (s : State P D) : Event P D → System P D
  | .slept p =>
    { x with core := s, asleep := x.asleep++(sleepsOn x.core p).toList.map (fun b => (p,b)) }
  | .queued p b =>
    { core := s
      active := if s.idequeue.head? = some b then some b else x.active
      asleep := x.asleep++[(p,b)] }
  | .done b => { core := s, active := s.idequeue.head?, asleep := WaitQueue.wake b x.asleep }
  | .released _ b => { x with core := s, asleep := WaitQueue.wake b x.asleep }
  | _ => { x with core := s }

def exec (x : System P D) : Act P D → Option (Except Fault (System P D × Seen P D))
  | .kill p => some (.ok ({ x with asleep := leave p x.asleep },none))
  | .core a =>
    if enabled x a then
      match BufCache.exec x.core a with
      | none => none
      | some (.error f) => some (.error f)
      | some (.ok (s,e)) => some (.ok (settle x s e,some e))
    else none

abbrev Run := Lts.Run (exec (P := P) (D := D))

abbrev History (P D : Type) := List (Act P D × Seen P D)

def start (P : Type) {D : Type} (havedisk1 : Bool) (disk : Uint → Uint → D) (zero : D) :
    System P D :=
  ⟨initial P havedisk1 disk zero,none,[]⟩

def queued (h : History P D) : List Bufno :=
  h.filterMap (fun y => match y.2 with
    | some (.queued _ b) => some b
    | _ => none)

def completed (h : History P D) : List Bufno :=
  h.filterMap (fun y => match y.2 with
    | some (.done b) => some b
    | _ => none)

section Step

variable {x x' : System P D} {a : Act P D} {o : Seen P D} {s s' : State P D} {e : Event P D} {p : P}

theorem exec_cases (hx : exec x a = some (.ok (x',o))) :
    (∃ b e, a = .core b ∧ o = some e ∧ enabled x b = true ∧
      BufCache.exec x.core b = some (.ok (x'.core,e)) ∧ x' = settle x x'.core e) ∨
    ∃ p, a = .kill p ∧ o = none ∧ x' = { x with asleep := leave p x.asleep } := by
  cases a with
  | kill p =>
    cases hx
    exact Or.inr ⟨p,rfl,rfl,rfl⟩
  | core b =>
    simp only [exec] at hx
    split at hx
    · rename_i hen
      split at hx
      · cases hx
      · cases hx
      rename_i s e hs
      cases hx
      have hcore : (settle x s e).core = s := by cases e <;> rfl
      exact Or.inl ⟨b,e,rfl,rfl,hen,by rw [hcore, hs],by rw [hcore]⟩
    · cases hx

theorem run_core {havedisk1 : Bool} {disk : Uint → Uint → D} {zero : D} {h : History P D}
    {x : System P D} (hr : Run (start P havedisk1 disk zero) h x) :
    ∃ g, BufCache.Run (initial P havedisk1 disk zero) g x.core := by
  induction hr with
  | nil => exact ⟨[],Lts.Run.nil⟩
  | snoc _ step ih =>
    obtain ⟨g,hg⟩ := ih
    rcases exec_cases step with ⟨b,e,-,-,-,hb,-⟩ | ⟨p,-,-,hx⟩
    · exact ⟨_,hg.snoc hb⟩
    · exact ⟨g,by rw [hx]; exact hg⟩

def subject : Event P D → Option P
  | .asked p _ _ => some p
  | .slept p => some p
  | .found p _ => some p
  | .recycled p _ => some p
  | .missed p _ => some p
  | .returned p _ _ _ _ => some p
  | .queued p _ => some p
  | .spurious => none
  | .done _ => none
  | .written p _ => some p
  | .modified p _ _ _ => some p
  | .marked p _ => some p
  | .released p _ => some p

/-- `p` goes to sleep in `bget`, or again in `iderw` before its request is done. -/
def Retires (s : State P D) (p : P) : Prop :=
  (∃ dev blockno, s.ctl p = .getting dev blockno) ∨
    ∃ j b, s.ctl p = .waiting j b ∧ ¬ ((s.buf b).valid = true ∧ (s.buf b).dirty = false)

theorem exec_subject {b : Action P D} (hx : BufCache.exec s b = some (.ok (s',e))) :
    subject e = actor b ∧ ∀ p, e = .slept p → Retires s p := by
  cases b with
  | bread p dev blockno =>
    simp only [BufCache.exec, bread] at hx
    split at hx <;> cases hx
    exact ⟨rfl,by simp⟩
  | bget p =>
    simp only [BufCache.exec, bget] at hx
    split at hx
    · rename_i dev blockno hc
      split at hx
      · cases hx
      · split at hx <;> cases hx
        · refine ⟨rfl,fun q hq => ?_⟩
          obtain rfl := Event.slept.inj hq
          exact Or.inl ⟨dev,blockno,hc⟩
        · exact ⟨rfl,by simp⟩
      · split at hx <;> cases hx
        exact ⟨rfl,by simp⟩
    · cases hx
  | test p =>
    simp only [BufCache.exec, test] at hx
    split at hx
    · split at hx <;> cases hx <;> exact ⟨rfl,by simp⟩
    · cases hx
  | iderw p =>
    simp only [BufCache.exec, iderw] at hx
    split at hx
    · split at hx
      · cases hx
      split at hx
      · cases hx
      split at hx
      · cases hx
      split at hx
      · obtain ⟨t,-,ht⟩ := map_eq_ok.mp (Option.some.inj hx)
        cases ht
        exact ⟨rfl,by simp⟩
      · cases hx
        exact ⟨rfl,by simp⟩
    · cases hx
  | ideintr =>
    simp only [BufCache.exec, ideintr] at hx
    split at hx
    · cases hx
      exact ⟨rfl,by simp⟩
    split at hx
    · cases hx
      exact ⟨rfl,by simp⟩
    · obtain ⟨t,-,ht⟩ := map_eq_ok.mp (Option.some.inj hx)
      cases ht
      exact ⟨rfl,by simp⟩
  | wake p =>
    simp only [BufCache.exec, BufCache.wake] at hx
    split at hx
    · rename_i j c hc
      split at hx
      · split at hx <;> cases hx <;> exact ⟨rfl,by simp⟩
      rename_i hv
      cases hx
      refine ⟨rfl,fun q hq => ?_⟩
      obtain rfl := Event.slept.inj hq
      exact Or.inr ⟨j,c,hc,by simpa using hv⟩
    · cases hx
  | modify p b y =>
    simp only [BufCache.exec, modifyData] at hx
    split at hx <;> cases hx
    exact ⟨rfl,by simp⟩
  | bwrite p b =>
    simp only [BufCache.exec, bwrite] at hx
    split at hx
    · split at hx <;> cases hx
      exact ⟨rfl,by simp⟩
    · cases hx
  | logWrite p b =>
    simp only [BufCache.exec, logWrite] at hx
    split at hx <;> cases hx
    exact ⟨rfl,by simp⟩
  | brelse p b =>
    simp only [BufCache.exec, brelse] at hx
    split at hx
    · split at hx <;> cases hx
      exact ⟨rfl,by simp⟩
    · cases hx

def Moves (s s' : State P D) : Event P D → Prop
  | .queued _ b => s'.idequeue = s.idequeue++[b]
  | .done b => s.idequeue = b::s'.idequeue
  | _ => s'.idequeue = s.idequeue

theorem effect_moves (he : Effect s s' e) : Moves s s' e := by
  cases he with
  | started p j b hc hq => simp [Moves, hq]
  | last b hq | next b c rest hq => simp [Moves, hq, serve]
  | _ => rfl

theorem effect_ctl {q : P} (he : Effect s s' e) (hq : subject e ≠ some q) : s'.ctl q = s.ctl q := by
  cases he with
  | slept p | spurious | last b | next b c rest | modified p b y | logged p b | released p b => rfl
  | asked p | found p | recycled p | hit p | missed p | started p | queued p | read p | written p
  | bwrite p =>
    have hne : q ≠ p := fun h => hq (by rw [h]; rfl)
    exact update_of_ne hne _ _

end Step

end Yeet.DiskWaiters
