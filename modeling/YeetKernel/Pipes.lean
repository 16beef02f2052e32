import YeetKernel.Kernel
import YeetKernel.Lts
import YeetKernel.RingBuffer
import YeetKernel.WaitQueue

/-!
# Pipes

Any number of processes call `pipewrite`, `piperead` and `pipeclose` on one
pipe. An action takes the pipe's lock, runs one pass of a loop inside it, or
ends a critical section; the last `wakeup` of a section and the release of the
lock, or the `sleep`, are one action. A process that sleeps or spins on the
lock waits to enter the section again. When both ends are closed the page of
the pipe is freed and nothing more happens.
-/

namespace Yeet.Pipes
open Kernel Bytes RingBuffer WaitQueue Function

def PIPESIZE : ℕ := 512

instance pipesizeNeZero : NeZero PIPESIZE := ⟨by decide⟩

structure Pipe where
  ring : Ring 32 PIPESIZE Byte
  readopen : Bool
  writeopen : Bool

inductive Chan where
  | nread
  | nwrite
  deriving DecidableEq, Repr

inductive Call where
  | write (addr : ℕ → Byte) (n : ℤ)
  | read (n : ℤ)
  | close (writable : Bool)

/-- Where a process is in a call: at the head of the loop of `pipewrite` with
`i` bytes stored, at the head of one of the two loops of `piperead`, or at the
start of `pipeclose`. -/
inductive Place where
  | write (addr : ℕ → Byte) (n : ℤ) (i : ℕ)
  | read (n : ℤ)
  | copy (n : ℤ) (buf : List Byte)
  | close (writable : Bool)

inductive Ctl where
  | idle
  | entering (k : Place)
  | inside (k : Place)

structure State (P : Type) where
  pipe : Pipe
  lock : Option P
  asleep : Queue P Chan
  killed : P → Bool
  ctl : P → Ctl

inductive Action (P : Type) where
  | call (p : P) (c : Call)
  | acquire (p : P)
  | step (p : P)
  | kill (p : P)

inductive Result where
  | failed
  | wrote (n : ℤ)
  | got (buf : List Byte)
  | closed
  deriving DecidableEq, Repr

inductive Event (P : Type) where
  | silent
  | stored (p : P) (x : Byte)
  | took (p : P) (x : Byte)
  | slept (p : P) (c : Chan)
  | returned (p : P) (r : Result)

abbrev Outcome (P : Type) := Except Fault (State P × Event P)

def Pipe.empty (b : Pipe) : Bool := b.ring.nread = b.ring.nwrite

def Pipe.full (b : Pipe) : Bool := b.ring.nwrite = b.ring.nread+BitVec.ofNat 32 PIPESIZE

variable {P : Type} [DecidableEq P]

def release (p : P) (s : State P) : Except Fault (State P) :=
  if s.lock = some p then .ok { s with lock := none } else .error (.panic "release")

def wakeup (c : Chan) (s : State P) : State P := { s with asleep := wake c s.asleep }

def State.goto (s : State P) (p : P) (k : Ctl) : State P := { s with ctl := update s.ctl p k }

def sleep (p : P) (c : Chan) (k : Place) (s : State P) : Except Fault (State P × Event P) := do
  let s ← release p s
  return ({ s.goto p (.entering k) with asleep := s.asleep++[(p,c)] },.slept p c)

def finish (p : P) (r : Result) (s : State P) : Except Fault (State P × Event P) := do
  let s ← release p s
  return (s.goto p .idle,.returned p r)

def pipewrite (p : P) (addr : ℕ → Byte) (n : ℤ) (i : ℕ) (s : State P) : Outcome P :=
  if (i : ℤ) < n then
    if s.pipe.full then
      if s.pipe.readopen = false ∨ s.killed p = true then finish p .failed s
      else sleep p .nwrite (.write addr n i) (wakeup .nread s)
    else
      .ok ({ s.goto p (.inside (.write addr n (i+1))) with
        pipe := { s.pipe with ring := s.pipe.ring.store (addr i) } },.stored p (addr i))
  else finish p (.wrote n) (wakeup .nread s)

def piperead (p : P) (n : ℤ) (s : State P) : Outcome P :=
  if s.pipe.empty ∧ s.pipe.writeopen = true then
    if s.killed p then finish p .failed s else sleep p .nread (.read n) s
  else .ok (s.goto p (.inside (.copy n [])),.silent)

def pipecopy (p : P) (n : ℤ) (buf : List Byte) (s : State P) : Outcome P :=
  if (buf.length : ℤ) < n ∧ s.pipe.empty = false then
    .ok ({ s.goto p (.inside (.copy n (buf++[s.pipe.ring.front]))) with
      pipe := { s.pipe with ring := s.pipe.ring.take } },.took p s.pipe.ring.front)
  else finish p (.got buf) (wakeup .nwrite s)

def pipeclose (p : P) (writable : Bool) (s : State P) : Outcome P :=
  if writable then
    finish p .closed (wakeup .nread { s with pipe := { s.pipe with writeopen := false } })
  else finish p .closed (wakeup .nwrite { s with pipe := { s.pipe with readopen := false } })

def start : Call → Place
  | .write addr n => .write addr n 0
  | .read n => .read n
  | .close writable => .close writable

def inside (p : P) (s : State P) : Place → Outcome P
  | .write addr n i => pipewrite p addr n i s
  | .read n => piperead p n s
  | .copy n buf => pipecopy p n buf s
  | .close writable => pipeclose p writable s

def acquire (p : P) (k : Place) (s : State P) : Option (Outcome P) :=
  if s.asleep.any (fun x => x.1 = p) then none
  else
    match s.lock with
    | none => some (.ok ({ s.goto p (.inside k) with lock := some p },.silent))
    | some q => if q = p then some (.error (.panic "acquire")) else none

def freed (s : State P) : Prop := s.pipe.readopen = false ∧ s.pipe.writeopen = false

instance freedDecidable (s : State P) : Decidable (freed s) :=
  inferInstanceAs (Decidable (_ ∧ _))

def perform (s : State P) : Action P → Option (Outcome P)
  | .call p c =>
    match s.ctl p with
    | .idle => some (.ok (s.goto p (.entering (start c)),.silent))
    | _ => none
  | .acquire p =>
    match s.ctl p with
    | .entering k => acquire p k s
    | _ => none
  | .step p =>
    match s.ctl p with
    | .inside k => some (inside p s k)
    | _ => none
  | .kill p =>
    some (.ok ({ s with killed := update s.killed p true, asleep := leave p s.asleep },.silent))

def exec (s : State P) (a : Action P) : Option (Outcome P) :=
  if freed s then none else perform s a

def Start (s : State P) : Prop :=
  s.pipe.ring.nread = 0 ∧ s.pipe.ring.nwrite = 0 ∧ s.pipe.readopen = true ∧
    s.pipe.writeopen = true ∧ s.lock = none ∧ s.asleep = [] ∧ ∀ p, s.ctl p = .idle

abbrev Run := Lts.Run (exec (P := P))

inductive Effect (s : State P) : Action P → State P → Event P → Prop where
  | call (p : P) (c : Call) (hc : s.ctl p = .idle) :
      Effect s (.call p c) (s.goto p (.entering (start c))) .silent
  | acquire (p : P) (k : Place) (hc : s.ctl p = .entering k) (hl : s.lock = none)
      (ha : ∀ c, (p,c) ∉ s.asleep) :
      Effect s (.acquire p) { s.goto p (.inside k) with lock := some p } .silent
  | full (p : P) (addr : ℕ → Byte) (n : ℤ) (i : ℕ) (hc : s.ctl p = .inside (.write addr n i))
      (hl : s.lock = some p) (hi : (i : ℤ) < n) (hf : s.pipe.full = true)
      (hk : s.pipe.readopen = false ∨ s.killed p = true) :
      Effect s (.step p) { s.goto p .idle with lock := none } (.returned p .failed)
  | sleepFull (p : P) (addr : ℕ → Byte) (n : ℤ) (i : ℕ)
      (hc : s.ctl p = .inside (.write addr n i)) (hl : s.lock = some p) (hi : (i : ℤ) < n)
      (hf : s.pipe.full = true) (ho : s.pipe.readopen = true) (hk : s.killed p = false) :
      Effect s (.step p) { s.goto p (.entering (.write addr n i)) with
        lock := none
        asleep := wake .nread s.asleep++[(p,.nwrite)] } (.slept p .nwrite)
  | store (p : P) (addr : ℕ → Byte) (n : ℤ) (i : ℕ) (hc : s.ctl p = .inside (.write addr n i))
      (hi : (i : ℤ) < n) (hf : s.pipe.full = false) :
      Effect s (.step p) { s.goto p (.inside (.write addr n (i+1))) with
        pipe := { s.pipe with ring := s.pipe.ring.store (addr i) } } (.stored p (addr i))
  | wrote (p : P) (addr : ℕ → Byte) (n : ℤ) (i : ℕ) (hc : s.ctl p = .inside (.write addr n i))
      (hl : s.lock = some p) (hi : ¬ (i : ℤ) < n) :
      Effect s (.step p) { s.goto p .idle with lock := none, asleep := wake .nread s.asleep }
        (.returned p (.wrote n))
  | readKilled (p : P) (n : ℤ) (hc : s.ctl p = .inside (.read n)) (hl : s.lock = some p) :
      Effect s (.step p) { s.goto p .idle with lock := none } (.returned p .failed)
  | sleepEmpty (p : P) (n : ℤ) (hc : s.ctl p = .inside (.read n)) (hl : s.lock = some p)
      (he : s.pipe.empty = true) (ho : s.pipe.writeopen = true) :
      Effect s (.step p) { s.goto p (.entering (.read n)) with
        lock := none
        asleep := s.asleep++[(p,.nread)] } (.slept p .nread)
  | copy (p : P) (n : ℤ) (hc : s.ctl p = .inside (.read n))
      (ho : s.pipe.empty = false ∨ s.pipe.writeopen = false) :
      Effect s (.step p) (s.goto p (.inside (.copy n []))) .silent
  | take (p : P) (n : ℤ) (buf : List Byte) (hc : s.ctl p = .inside (.copy n buf))
      (hn : (buf.length : ℤ) < n) (he : s.pipe.empty = false) :
      Effect s (.step p) { s.goto p (.inside (.copy n (buf++[s.pipe.ring.front]))) with
        pipe := { s.pipe with ring := s.pipe.ring.take } } (.took p s.pipe.ring.front)
  | got (p : P) (n : ℤ) (buf : List Byte) (hc : s.ctl p = .inside (.copy n buf))
      (hl : s.lock = some p) (hn : ¬ ((buf.length : ℤ) < n ∧ s.pipe.empty = false)) :
      Effect s (.step p) { s.goto p .idle with lock := none, asleep := wake .nwrite s.asleep }
        (.returned p (.got buf))
  | closeWrite (p : P) (hc : s.ctl p = .inside (.close true)) (hl : s.lock = some p) :
      Effect s (.step p) { s.goto p .idle with
        lock := none
        asleep := wake .nread s.asleep
        pipe := { s.pipe with writeopen := false } } (.returned p .closed)
  | closeRead (p : P) (hc : s.ctl p = .inside (.close false)) (hl : s.lock = some p) :
      Effect s (.step p) { s.goto p .idle with
        lock := none
        asleep := wake .nwrite s.asleep
        pipe := { s.pipe with readopen := false } } (.returned p .closed)
  | kill (p : P) :
      Effect s (.kill p) { s with killed := update s.killed p true, asleep := leave p s.asleep } .silent

section Step

variable {s s' : State P} {p : P} {e : Event P} {n : ℤ}

theorem release_eq_ok (h : release p s = .ok s') :
    s.lock = some p ∧ s' = { s with lock := none } := by
  unfold release at h
  split at h
  · rename_i hl
    exact ⟨hl,(Except.ok.inj h).symm⟩
  · cases h

theorem sleep_eq_ok {c : Chan} {k : Place} (h : sleep p c k s = .ok (s',e)) :
    s.lock = some p ∧ e = .slept p c ∧ s' = { s.goto p (.entering k) with
      lock := none
      asleep := s.asleep++[(p,c)] } := by
  obtain ⟨t,ht,h⟩ := bind_eq_ok.mp h
  obtain ⟨hl,rfl⟩ := release_eq_ok ht
  cases h
  exact ⟨hl,rfl,rfl⟩

theorem finish_eq_ok {r : Result} (h : finish p r s = .ok (s',e)) :
    s.lock = some p ∧ e = .returned p r ∧ s' = { s.goto p .idle with lock := none } := by
  obtain ⟨t,ht,h⟩ := bind_eq_ok.mp h
  obtain ⟨hl,rfl⟩ := release_eq_ok ht
  cases h
  exact ⟨hl,rfl,rfl⟩

theorem pipewrite_effect {addr : ℕ → Byte} {i : ℕ}
    (hc : s.ctl p = .inside (.write addr n i)) (h : pipewrite p addr n i s = .ok (s',e)) :
    Effect s (.step p) s' e := by
  unfold pipewrite at h
  split at h
  · rename_i hi
    split at h
    · rename_i hf
      split at h
      · rename_i hk
        obtain ⟨hl,rfl,rfl⟩ := finish_eq_ok h
        exact .full p addr n i hc hl hi hf hk
      rename_i hk
      obtain ⟨ho,hk⟩ := not_or.mp hk
      obtain ⟨hl,rfl,rfl⟩ := sleep_eq_ok h
      exact .sleepFull p addr n i hc hl hi hf (by simpa using ho) (by simpa using hk)
    · rename_i hf
      cases h
      exact .store p addr n i hc hi (by simpa using hf)
  · rename_i hi
    obtain ⟨hl,rfl,rfl⟩ := finish_eq_ok h
    exact .wrote p addr n i hc hl hi

theorem piperead_effect (hc : s.ctl p = .inside (.read n))
    (h : piperead p n s = .ok (s',e)) : Effect s (.step p) s' e := by
  unfold piperead at h
  split at h
  · rename_i he
    split at h
    · obtain ⟨hl,rfl,rfl⟩ := finish_eq_ok h
      exact .readKilled p n hc hl
    · obtain ⟨hl,rfl,rfl⟩ := sleep_eq_ok h
      exact .sleepEmpty p n hc hl he.1 he.2
  rename_i he
  cases h
  refine .copy p n hc ?_
  rcases not_and_or.mp he with he | he
  · exact Or.inl (by simpa using he)
  · exact Or.inr (by simpa using he)

theorem pipecopy_effect {buf : List Byte} (hc : s.ctl p = .inside (.copy n buf))
    (h : pipecopy p n buf s = .ok (s',e)) : Effect s (.step p) s' e := by
  unfold pipecopy at h
  split at h
  · rename_i he
    cases h
    exact .take p n buf hc he.1 he.2
  · rename_i he
    obtain ⟨hl,rfl,rfl⟩ := finish_eq_ok h
    exact .got p n buf hc hl he

theorem pipeclose_effect {w : Bool} (hc : s.ctl p = .inside (.close w))
    (h : pipeclose p w s = .ok (s',e)) : Effect s (.step p) s' e := by
  unfold pipeclose at h
  cases w with
  | true =>
    rw [if_pos rfl] at h
    obtain ⟨hl,rfl,rfl⟩ := finish_eq_ok h
    exact .closeWrite p hc hl
  | false =>
    rw [if_neg (by decide)] at h
    obtain ⟨hl,rfl,rfl⟩ := finish_eq_ok h
    exact .closeRead p hc hl

theorem exec_effect {a : Action P} (h : exec s a = some (.ok (s',e))) : Effect s a s' e := by
  unfold exec at h
  split at h
  · cases h
  cases a with
  | call p c =>
    simp only [perform] at h
    split at h
    · rename_i hc
      cases h
      exact .call p c hc
    · cases h
  | acquire p =>
    simp only [perform] at h
    split at h
    · rename_i k hc
      unfold acquire at h
      split at h
      · cases h
      rename_i ha
      split at h
      · rename_i hl
        cases h
        refine .acquire p k hc hl (fun c hm => ha ?_)
        exact List.any_eq_true.mpr ⟨(p,c),hm,by simp⟩
      · split at h <;> cases h
    · cases h
  | step p =>
    simp only [perform] at h
    split at h
    · rename_i k hc
      have h := Option.some.inj h
      cases k with
      | write addr n i => exact pipewrite_effect hc h
      | read n => exact piperead_effect hc h
      | copy n buf => exact pipecopy_effect hc h
      | close w => exact pipeclose_effect hc h
    · cases h
  | kill p =>
    cases h
    exact .kill p

end Step

end Yeet.Pipes
