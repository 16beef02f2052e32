import YeetKernel.Kernel
import YeetKernel.Lts
import YeetKernel.RingBuffer

/-!
# The console line discipline

`consoleintr` puts the keys that were typed into a ring of bytes, where the current
line can be edited until it is committed; `consoleread` takes committed bytes. Both
hold `cons.lock` except while a reader sleeps, so that an action is what happens from
one `acquire` or wakeup to the next `release` or `sleep`.
-/

namespace Yeet.Console
open Kernel Bytes RingBuffer Function

def INPUT_BUF : ℕ := 128

instance : NeZero INPUT_BUF := ⟨by decide⟩

def ctrl (x : Char) : Byte := BitVec.ofNat 8 (x.toNat-64)

def newline : Byte := 10

def carriageReturn : Byte := 13

def delete : Byte := 0x7f

/-- `input`: the ring has `buf`, `r` and `e`. -/
structure Input where
  ring : Ring 32 INPUT_BUF Byte
  w : Uint

def Input.erase (s : Input) : Input := { s with ring := s.ring.unstore }

def Input.last (s : Input) : Byte := s.ring.back

/-- The loop of the key `C('U')`. With `n` the distance from `w` to `e`, it ends before `n` is
used up or with `e = w`. -/
def killLine : ℕ → Input → Input
  | 0, s => s
  | n+1, s => if s.ring.nwrite ≠ s.w ∧ s.last ≠ newline then killLine n s.erase else s

def Input.commit (s : Input) : Input := { s with w := s.ring.nwrite }

def Input.enter (s : Input) (c : Byte) : Input :=
  let t := { s with ring := s.ring.store c }
  if c = newline ∨ c = ctrl 'D' ∨ t.ring.nwrite = t.ring.nread+BitVec.ofNat 32 INPUT_BUF then t.commit
  else t

/-- The cases of `consoleintr` for a key. -/
def key (s : Input) (c : Byte) : Input :=
  if c = ctrl 'P' ∨ c = ctrl 'F' ∨ c = ctrl 'S' ∨ c = ctrl 'R' ∨ c = ctrl 'Z' then s
  else if c = ctrl 'U' then killLine (s.ring.nwrite-s.w).toNat s
  else if c = ctrl 'H' ∨ c = delete then if s.ring.nwrite ≠ s.w then s.erase else s
  else if c ≠ 0 ∧ (s.ring.nwrite-s.ring.nread).toNat < INPUT_BUF then
    s.enter (if c = carriageReturn then newline else c)
  else s

def consoleintr (cs : List Byte) (s : Input) : Input := cs.foldl key s

inductive Reply where
  | asleep
  | failed
  | returned
  deriving DecidableEq

/-- What `consoleread` has done when it sleeps or ends: `buf` are the bytes from `dst` on. -/
structure Served where
  input : Input
  buf : List Byte
  reply : Reply

/-- The loop of `consoleread`, where `n` bytes are still to be read and `got` are at `dst`. -/
def readLoop (killed : Bool) (target : ℕ) : ℕ → Input → List Byte → Served
  | 0, s, got => ⟨s,got,.returned⟩
  | n+1, s, got =>
    if s.ring.nread = s.w then ⟨s,got,if killed then .failed else .asleep⟩
    else
      let c := s.ring.front
      let t : Input := { s with ring := s.ring.take }
      if c = ctrl 'D' then
        ⟨if n+1 < target then { t with ring := { t.ring with nread := t.ring.nread-1 } } else t,
          got,.returned⟩
      else if c = newline then ⟨t,got++[c],.returned⟩
      else readLoop killed target n t (got++[c])

/-- `reading` has the size of the request and the bytes at `dst` of each process that sleeps. -/
structure State (P : Type) where
  input : Input
  reading : P → Option (ℕ × List Byte)

/-- Keys arrive, a process calls `consoleread`, or it goes on after `sleep`. -/
inductive Action (P : Type) where
  | intr (cs : List Byte)
  | read (p : P) (n : ℕ) (killed : Bool)
  | resume (p : P) (killed : Bool)

/-- The bytes that a reader took and what it has at `dst` since its call. -/
inductive Event (P : Type) where
  | typed
  | served (p : P) (took buf : List Byte) (reply : Reply)

def Input.pending (s : Input) : List Byte := s.ring.contents.take (s.w-s.ring.nread).toNat

def Input.line (s : Input) : List Byte := s.ring.contents.drop (s.w-s.ring.nread).toNat

section Runs

variable {P : Type} [DecidableEq P]

def State.serve (s : State P) (p : P) (killed : Bool) (target : ℕ) (got : List Byte) :
    State P × Event P :=
  let r := readLoop killed target (target-got.length) s.input got
  (⟨r.input,update s.reading p (if r.reply = .asleep then some (target,r.buf) else none)⟩,
    .served p (r.buf.drop got.length) r.buf r.reply)

def exec (s : State P) : Action P → Option (Except Fault (State P × Event P))
  | .intr cs => some (.ok ({ s with input := consoleintr cs s.input },.typed))
  | .read p n killed => if s.reading p = none then some (.ok (s.serve p killed n [])) else none
  | .resume p killed => (s.reading p).map (fun r => .ok (s.serve p killed r.1 r.2))

end Runs

abbrev History (P : Type) := List (Action P × Event P)

variable {P : Type}

def eof (buf : List Byte) (reply : Reply) : List Byte :=
  if reply = .returned ∧ buf = [] then [ctrl 'D'] else []

/-- The bytes that a call took, and an end of file where it returned no bytes. -/
def Event.took : Event P → List Byte
  | .typed => []
  | .served _ took buf reply => took++eof buf reply

def delivered (h : History P) : List Byte := h.flatMap (fun x => x.2.took)

/-- What was typed, without a ring: the committed bytes, the line that can be edited,
and how many of the bytes the readers have taken. -/
structure Desk where
  committed : List Byte
  line : List Byte
  taken : ℕ

def Desk.pending (t : Desk) : List Byte := t.committed.drop t.taken

def Desk.enter (t : Desk) (c : Byte) : Desk :=
  if c = newline ∨ c = ctrl 'D' ∨ t.pending.length+t.line.length+1 = INPUT_BUF then
    { t with committed := t.committed++(t.line++[c]), line := [] }
  else { t with line := t.line++[c] }

/-- A key extends the line, shortens or empties it, or commits it. A byte for which
there is no room is dropped, and the byte that takes the last room commits. -/
def Desk.key (t : Desk) (c : Byte) : Desk :=
  if c = ctrl 'P' ∨ c = ctrl 'F' ∨ c = ctrl 'S' ∨ c = ctrl 'R' ∨ c = ctrl 'Z' then t
  else if c = ctrl 'U' then { t with line := [] }
  else if c = ctrl 'H' ∨ c = delete then { t with line := t.line.dropLast }
  else if c ≠ 0 ∧ t.pending.length+t.line.length < INPUT_BUF then
    t.enter (if c = carriageReturn then newline else c)
  else t

def Desk.step (t : Desk) (x : Action P × Event P) : Desk :=
  match x.1 with
  | .intr cs => cs.foldl Desk.key t
  | _ => { t with taken := t.taken+x.2.took.length }

def desk (h : History P) : Desk := h.foldl Desk.step ⟨[],[],0⟩

theorem delivered_snoc (h : History P) (a : Action P) (e : Event P) :
    delivered (h++[(a,e)]) = delivered h++e.took := by
  simp [delivered]

theorem desk_snoc (h : History P) (a : Action P) (e : Event P) :
    desk (h++[(a,e)]) = (desk h).step (a,e) :=
  List.foldl_concat ..

structure Holds (s : Input) (l u : List Byte) : Prop where
  contents : s.ring.contents = l++u
  w : s.w = s.ring.nread+BitVec.ofNat 32 l.length
  bound : (l++u).length ≤ INPUT_BUF

variable {s : Input} {l u : List Byte} {target : ℕ} {got : List Byte}

namespace Holds

variable (h : Holds s l u)

include h

theorem count : s.ring.count = (l++u).length := by rw [← length_contents, h.contents]

theorem ready : (s.w-s.ring.nread).toNat = l.length := by
  have hb := h.bound
  rw [List.length_append, INPUT_BUF] at hb
  rw [h.w, add_sub_cancel_left, BitVec.toNat_ofNat, Nat.mod_eq_of_lt (by omega)]

theorem pending_eq : s.pending = l := by
  rw [Input.pending, h.ready, h.contents, List.take_left]

theorem line_eq : s.line = u := by
  rw [Input.line, h.ready, h.contents, List.drop_left]

theorem r_eq_w : s.ring.nread = s.w ↔ l = [] := by
  have h0 := count_eq_zero ({ s.ring with nwrite := s.w } : Ring 32 INPUT_BUF Byte)
  rw [← List.length_eq_zero_iff, ← h.ready]
  exact h0.symm

theorem e_eq_w : s.ring.nwrite = s.w ↔ u = [] := by
  have hb := h.bound
  rw [List.length_append, INPUT_BUF] at hb
  rw [h.w, ← count_eq (by omega), h.count, List.length_append, ← List.length_eq_zero_iff]
  omega

theorem store (c : Byte) (hc : s.ring.count < INPUT_BUF) :
    Holds { s with ring := s.ring.store c } l (u++[c]) where
  contents := by rw [contents_store (by decide) c hc (by decide), h.contents, List.append_assoc]
  w := h.w
  bound := by
    rw [h.count] at hc
    rw [← List.append_assoc, List.length_append]
    exact hc

theorem commit : Holds s.commit (l++u) [] where
  contents := by rw [List.append_nil]; exact h.contents
  w := by rw [← h.count]; exact nwrite_eq _
  bound := by rw [List.append_nil]; exact h.bound

omit h in
theorem unstore {c : Byte} (h : Holds s l (u++[c])) : Holds s.erase l u ∧ s.last = c := by
  have hpos : 0 < s.ring.count := by
    rw [h.count, List.length_append, List.length_append]
    exact Nat.add_pos_right _ (Nat.succ_pos _)
  have hc := contents_unstore hpos
  rw [h.contents, ← List.append_assoc, List.append_singleton_inj] at hc
  have hb := h.bound
  rw [← List.append_assoc, List.length_append] at hb
  exact ⟨⟨hc.1.symm,h.w,Nat.le_of_succ_le hb⟩,hc.2.symm⟩

theorem edited : (s.ring.nwrite-s.w).toNat = u.length := by
  have hb := h.bound
  rw [List.length_append, INPUT_BUF] at hb
  have hn := nwrite_eq s.ring
  rw [h.count, List.length_append, BitVec.ofNat_add, ← add_assoc, ← h.w] at hn
  rw [hn, add_sub_cancel_left, BitVec.toNat_ofNat, Nat.mod_eq_of_lt (by omega)]

omit h in
theorem killLine (h : Holds s l u) (hu : newline ∉ u) : Holds (killLine u.length s) l [] := by
  induction u using List.reverseRecOn generalizing s with
  | nil => exact h
  | append_singleton u c ih =>
    obtain ⟨he,hlast⟩ := h.unstore
    have hne : s.ring.nwrite ≠ s.w := fun e =>
      List.append_ne_nil_of_right_ne_nil u (List.cons_ne_nil c []) (h.e_eq_w.mp e)
    rw [List.length_append, List.length_singleton, Console.killLine,
      if_pos ⟨hne,fun e => hu (by rw [← e, hlast]; exact List.mem_concat_self)⟩]
    exact ih he (fun hm => hu (List.mem_append_left _ hm))

theorem backspace : Holds (if s.ring.nwrite ≠ s.w then s.erase else s) l u.dropLast := by
  rcases List.eq_nil_or_concat u with rfl | ⟨u,c,rfl⟩
  · rwa [if_neg (not_not.mpr (h.e_eq_w.mpr rfl))]
  rw [List.concat_eq_append] at h ⊢
  rw [if_pos (fun e => List.append_ne_nil_of_right_ne_nil u (List.cons_ne_nil c [])
    (h.e_eq_w.mp e)), List.dropLast_concat]
  exact h.unstore.1

theorem take (hr : s.ring.nread ≠ s.w) :
    ∃ l', l = s.ring.front::l' ∧ Holds { s with ring := s.ring.take } l' u := by
  obtain ⟨c,l',rfl⟩ := List.exists_cons_of_ne_nil (fun e => hr (h.r_eq_w.mpr e))
  have hpos : 0 < s.ring.count := by rw [h.count]; exact Nat.succ_pos _
  have hc := h.contents
  rw [contents_take hpos, List.cons_append, List.cons.injEq] at hc
  refine ⟨l',by rw [hc.1],hc.2,?_,Nat.le_of_succ_le h.bound⟩
  rw [h.w, List.length_cons, Nat.add_comm, BitVec.ofNat_add, ← add_assoc]
  rfl

end Holds

/-- The ring has what was typed and not taken; the line has no end of line. -/
structure Shows (t : Desk) (s : Input) : Prop where
  holds : Holds s t.pending t.line
  taken : t.taken ≤ t.committed.length
  line : newline ∉ t.line

namespace Shows

variable {t : Desk} (h : Shows t s)

include h

theorem room : (s.ring.nwrite-s.ring.nread).toNat = t.pending.length+t.line.length := by
  rw [← List.length_append]
  exact h.holds.count

theorem enter (c : Byte) (hc : t.pending.length+t.line.length < INPUT_BUF) :
    Shows (t.enter c) (s.enter c) := by
  have hs := h.holds.store c (h.room.trans_lt hc)
  have hfull : (s.ring.store c).nwrite = (s.ring.store c).nread+BitVec.ofNat 32 INPUT_BUF ↔
      t.pending.length+t.line.length+1 = INPUT_BUF := by
    rw [← count_eq (by decide), hs.count, List.length_append, List.length_append,
      List.length_singleton, ← Nat.add_assoc]
  simp only [Desk.enter, Input.enter, hfull]
  split
  case isTrue =>
    refine ⟨?_,?_,List.not_mem_nil⟩
    · rw [Desk.pending, List.drop_append_of_le_length h.taken]
      exact hs.commit
    · rw [List.length_append]
      exact Nat.le_add_right_of_le h.taken
  case isFalse hn =>
    rw [not_or] at hn
    exact ⟨hs,h.taken,by simpa using ⟨h.line,Ne.symm hn.1⟩⟩

theorem key (c : Byte) : Shows (t.key c) (key s c) := by
  unfold Desk.key Console.key
  rw [h.room]
  split
  · exact h
  split
  · refine ⟨?_,h.taken,List.not_mem_nil⟩
    rw [h.holds.edited]
    exact h.holds.killLine h.line
  split
  · exact ⟨h.holds.backspace,h.taken,fun hm => h.line (List.mem_of_mem_dropLast hm)⟩
  split
  case isTrue hc => exact h.enter _ hc.2
  case isFalse => exact h

theorem consoleintr (cs : List Byte) : Shows (cs.foldl Desk.key t) (consoleintr cs s) := by
  induction cs generalizing s t with
  | nil => exact h
  | cons c cs ih => exact ih (h.key c)

end Shows

theorem Desk.key_grows (t : Desk) (c : Byte) :
    t.committed <+: (t.key c).committed ∧ (t.key c).taken = t.taken := by
  unfold Desk.key Desk.enter
  split_ifs <;> exact ⟨by simp,rfl⟩

theorem Desk.keys_grow (t : Desk) (cs : List Byte) : t.committed <+: (cs.foldl Desk.key t).committed ∧
    (cs.foldl Desk.key t).taken = t.taken := by
  induction cs generalizing t with
  | nil => exact ⟨List.prefix_rfl,rfl⟩
  | cons c cs ih =>
    obtain ⟨h1,h2⟩ := ih (t.key c)
    exact ⟨(t.key_grows c).1.trans h1,h2.trans (t.key_grows c).2⟩

/-- The editing keys leave what is committed. -/
theorem Desk.key_edits (t : Desk) {c : Byte} (hc : c = ctrl 'U' ∨ c = ctrl 'H' ∨ c = delete) :
    (t.key c).pending = t.pending ∧ (t.key c).line <+: t.line := by
  rcases hc with rfl | rfl | rfl
  · exact ⟨rfl,List.nil_prefix⟩
  · exact ⟨rfl,List.dropLast_prefix t.line⟩
  · exact ⟨rfl,List.dropLast_prefix t.line⟩

structure Serves (l u got : List Byte) (target : ℕ) (r : Served) (took : List Byte) : Prop where
  buf : r.buf = got++took
  rest : ∃ l', l = took++eof r.buf r.reply++l' ∧ Holds r.input l' u
  noEof : ctrl 'D' ∉ took
  waits : r.reply = .asleep → r.buf.length < target ∧ newline ∉ r.buf
  lines : newline ∉ r.buf.dropLast

theorem Serves.stay {r : Reply} (h : Holds s l u)
    (hg : newline ∉ got) (hr : r = .returned → got ≠ []) (hw : r = .asleep → got.length < target) :
    Serves l u got target ⟨s,got,r⟩ [] where
  buf := (List.append_nil got).symm
  rest := ⟨l,by rw [eof, if_neg (fun hc => hr hc.1 hc.2)]; rfl,h⟩
  noEof := List.not_mem_nil
  waits e := ⟨hw e,hg⟩
  lines hm := hg (List.mem_of_mem_dropLast hm)

theorem Serves.cons {got took : List Byte} {c : Byte} {r : Served}
    (h : Serves l u (got++[c]) target r took) (hc : c ≠ ctrl 'D') :
    Serves (c::l) u got target r (c::took) where
  buf := by rw [h.buf, List.append_assoc]; rfl
  rest := by
    obtain ⟨l',hl,hh⟩ := h.rest
    exact ⟨l',by rw [hl]; rfl,hh⟩
  noEof hm := (List.mem_cons.mp hm).elim (fun e => hc e.symm) h.noEof
  waits := h.waits
  lines := h.lines

theorem readLoop_serves (killed : Bool) {target n : ℕ} (h : Holds s l u)
    (hn : got.length+n = target) (h0 : 0 < target) (hg : newline ∉ got) :
    ∃ took, Serves l u got target (readLoop killed target n s got) took := by
  induction n generalizing s l got with
  | zero =>
    refine ⟨[],Serves.stay h hg (fun _ hc => ?_) (by simp)⟩
    rw [hc] at hn
    exact h0.ne hn
  | succ n ih =>
    rw [readLoop]
    by_cases hr : s.ring.nread = s.w
    · rw [if_pos hr]
      exact ⟨[],Serves.stay h hg (by cases killed <;> simp) (fun _ => by omega)⟩
    rw [if_neg hr]
    obtain ⟨l',rfl,ht⟩ := h.take hr
    by_cases hd : s.ring.front = ctrl 'D'
    · simp only [if_pos hd]
      by_cases hlt : n+1 < target
      · -- the end of file stays for the next read
        have hback : s.ring.nread+1-1 = s.ring.nread := add_sub_cancel_right _ _
        rw [if_pos hlt]
        simp only [Ring.take, hback]
        refine ⟨[],Serves.stay h hg (fun _ hc => ?_) (by simp)⟩
        rw [hc, List.length_nil] at hn
        omega
      · have hgot : got = [] := List.length_eq_zero_iff.mp (by omega)
        rw [if_neg hlt, hgot, hd]
        exact ⟨[],rfl,⟨l',rfl,ht⟩,List.not_mem_nil,by simp,List.not_mem_nil⟩
    simp only [if_neg hd]
    by_cases hc : s.ring.front = newline
    · rw [if_pos hc]
      exact ⟨[s.ring.front],rfl,⟨l',by simp [eof],ht⟩,by simpa using Ne.symm hd,by simp,
        by simpa using hg⟩
    rw [if_neg hc]
    have hg' : newline ∉ got++[s.ring.front] := by
      simpa using ⟨hg,Ne.symm hc⟩
    obtain ⟨took,hs⟩ := ih ht (by rw [List.length_append, List.length_singleton]; omega) hg'
    exact ⟨_,hs.cons hd⟩

section Discipline

variable {s₀ s : State P} {h : History P}

/-- Every buffer of a sleeping reader is short of its request and has no end of line. -/
structure Inv (h : History P) (s : State P) : Prop where
  input : Shows (desk h) s.input
  flow : delivered h = (desk h).committed.take (desk h).taken
  reading : ∀ p target got, s.reading p = some (target,got) → got.length < target ∧ newline ∉ got
  lines : ∀ x ∈ h, ∀ p took buf reply, x.2 = .served p took buf reply →
    newline ∉ buf.dropLast ∧ ctrl 'D' ∉ took

theorem Inv.serve [DecidableEq P] (hi : Inv h s) {a : Action P} (ha : ∀ cs, a ≠ .intr cs) (p : P)
    (killed : Bool) {target : ℕ} {got : List Byte} (hlt : got.length < target) (hg : newline ∉ got) :
    Inv (h++[(a,(s.serve p killed target got).2)]) (s.serve p killed target got).1 := by
  obtain ⟨took,hs⟩ := readLoop_serves killed hi.input.holds (Nat.add_sub_of_le hlt.le)
    (Nat.zero_lt_of_lt hlt) hg
  have hstep : ∀ e, (desk h).step (a,e) = { desk h with taken := (desk h).taken+e.took.length } := by
    intro e
    cases a with
    | intr cs => exact absurd rfl (ha cs)
    | _ => rfl
  unfold State.serve
  generalize readLoop killed target (target-got.length) s.input got = r at hs
  obtain ⟨l',hl,hh'⟩ := hs.rest
  simp only [hs.buf, List.drop_left]
  rw [hs.buf] at hl
  have htook : (Event.served p took (got++took) r.reply).took = took++eof (got++took) r.reply := rfl
  have hlen := congrArg List.length hl
  rw [Desk.pending, List.length_drop, List.length_append] at hlen
  have htaken := hi.input.taken
  refine ⟨?_,?_,fun q t b hq => ?_,fun x hx q t b r he => ?_⟩
  · rw [desk_snoc, hstep, htook]
    refine ⟨?_,by dsimp only; omega,hi.input.line⟩
    rw [Desk.pending, ← List.drop_drop, ← Desk.pending, hl, List.drop_left]
    exact hh'
  · rw [delivered_snoc, desk_snoc, hstep, htook, hi.flow, List.take_add, ← Desk.pending, hl,
      List.take_left]
  · by_cases hqp : q = p
    · simp only [hqp, update_self] at hq
      split at hq
      case isTrue hr =>
        cases hq
        rw [← hs.buf]
        exact hs.waits hr
      case isFalse => cases hq
    · simp only [update_of_ne hqp] at hq
      exact hi.reading q t b hq
  · rcases List.mem_append.mp hx with hx | hx
    · exact hi.lines x hx q t b r he
    · rw [List.mem_singleton.mp hx] at he
      cases he
      exact ⟨hs.buf ▸ hs.lines,hs.noEof⟩

theorem Inv.intr (hi : Inv h s) (cs : List Byte) :
    Inv (h++[(.intr cs,.typed)]) { s with input := consoleintr cs s.input } := by
  obtain ⟨h1,h2⟩ := (desk h).keys_grow cs
  refine ⟨?_,?_,hi.reading,fun x hx q t b r he => ?_⟩
  · rw [desk_snoc]
    exact hi.input.consoleintr cs
  · rw [delivered_snoc, desk_snoc]
    refine (List.append_nil _).trans (hi.flow.trans ?_)
    obtain ⟨d,hd⟩ := h1
    show _ = (cs.foldl Desk.key (desk h)).committed.take (cs.foldl Desk.key (desk h)).taken
    rw [h2, ← hd, List.take_append_of_le_length hi.input.taken]
  · rcases List.mem_append.mp hx with hx | hx
    · exact hi.lines x hx q t b r he
    · rw [List.mem_singleton.mp hx] at he
      cases he

def Asks (h : History P) : Prop := ∀ x ∈ h, ∀ p n killed, x.1 = .read p n killed → 0 < n

def Start (s : State P) : Prop :=
  s.input.ring.nread = s.input.w ∧ s.input.ring.nwrite = s.input.w ∧ ∀ p, s.reading p = none

theorem run_inv [DecidableEq P] (h0 : Start s₀) (hr : Lts.Run exec s₀ h s) (hn : Asks h) : Inv h s := by
  induction hr with
  | nil =>
    obtain ⟨hr,he,hidle⟩ := h0
    have hnil : s₀.input.ring.contents = [] := (contents_eq_nil _).mpr (by rw [hr, he])
    refine ⟨⟨⟨hnil,?_,Nat.zero_le _⟩,Nat.le_refl _,List.not_mem_nil⟩,rfl,fun p t b hp => ?_,
      fun x hx => by cases hx⟩
    · rw [hr]
      exact (BitVec.add_zero _).symm
    · rw [hidle p] at hp
      cases hp
  | @snoc s s' h a e run step ih =>
    have hi := ih (fun x hx => hn x (List.mem_append_left _ hx))
    cases a with
    | intr cs =>
      obtain ⟨rfl,rfl⟩ := Lts.done_inj step
      exact hi.intr cs
    | read p n killed =>
      rw [exec] at step
      split at step
      case isTrue =>
        obtain ⟨rfl,rfl⟩ := Lts.done_inj step
        exact hi.serve (fun _ e => by cases e) p killed (hn _ (List.mem_concat_self) p n killed rfl)
          List.not_mem_nil
      case isFalse => cases step
    | resume p killed =>
      obtain ⟨⟨target,got⟩,hp,hstep⟩ := Option.map_eq_some_iff.mp step
      cases Except.ok.inj hstep
      obtain ⟨hlt,hg⟩ := hi.reading p target got hp
      exact hi.serve (fun _ e => by cases e) p killed hlt hg

/-- After every run of keys and reads of at least one byte: `r ≤ w ≤ e ≤ r+INPUT_BUF`, however
often the counters have wrapped; what reads took, with an end of file for every read of no
bytes, and what is pending are the bytes that the keys committed, in order, and the rest of the
ring is the line that they left; keys leave what is pending, and the editing keys only shorten
the line; no read returns a byte after the first end of line. -/
theorem console_discipline [DecidableEq P] (h0 : Start s₀) (hr : Lts.Run exec s₀ h s)
    (hn : Asks h) :
    (s.input.w-s.input.ring.nread).toNat ≤ (s.input.ring.nwrite-s.input.ring.nread).toNat ∧
    (s.input.ring.nwrite-s.input.ring.nread).toNat ≤ INPUT_BUF ∧
    delivered h++s.input.pending = (desk h).committed ∧ s.input.line = (desk h).line ∧
    (∀ cs, s.input.pending <+: (consoleintr cs s.input).pending) ∧
    (∀ c, c = ctrl 'U' ∨ c = ctrl 'H' ∨ c = delete →
      (key s.input c).pending = s.input.pending ∧ (key s.input c).line <+: s.input.line) ∧
    ∀ x ∈ h, ∀ p took buf reply, x.2 = .served p took buf reply →
      newline ∉ buf.dropLast ∧ ctrl 'D' ∉ took := by
  have hi := run_inv h0 hr hn
  have hin := hi.input
  rw [hin.holds.ready, hin.room, hin.holds.pending_eq, hin.holds.line_eq]
  refine ⟨Nat.le_add_right _ _,?_,?_,rfl,fun cs => ?_,fun c hc => ?_,hi.lines⟩
  · rw [← List.length_append]
    exact hin.holds.bound
  · rw [hi.flow]
    exact List.take_append_drop _ _
  · obtain ⟨h1,h2⟩ := (desk h).keys_grow cs
    rw [(hin.consoleintr cs).holds.pending_eq, Desk.pending, Desk.pending, h2]
    exact h1.drop _
  · rw [(hin.key c).holds.pending_eq, (hin.key c).holds.line_eq]
    exact (desk h).key_edits hc

end Discipline

def idle : State ℕ := ⟨⟨⟨fun _ => 0,-1,-1⟩,-1⟩,fun _ => none⟩

/-- A reader sleeps until a line and an end of file come; the end of file is left for the next
read. -/
def lineAndEof : List (Action ℕ) :=
  [.read 0 9 false,.intr [97,98,8,99,ctrl 'D'],.resume 0 false,.read 1 9 false]

theorem console_discipline_eof : ∃ h s, Start idle ∧ Lts.Run exec idle h s ∧ Asks h ∧
    delivered h = [97,99,ctrl 'D'] ∧ delivered h++s.input.pending = (desk h).committed := by
  have hstart : Start idle := ⟨rfl,rfl,fun _ => rfl⟩
  obtain ⟨h,s,hr,hacts,hd⟩ := Lts.replay_reaches exec idle lineAndEof
    (fun h _ => delivered h = [97,99,ctrl 'D']) (by decide +kernel)
  have hn : Asks h := by
    intro x hx p n killed he
    have hm : x.1 ∈ lineAndEof := by
      rw [← hacts]
      exact List.mem_map_of_mem hx
    simp [lineAndEof] at hm
    rw [he] at hm
    simp at hm
    omega
  exact ⟨h,s,hstart,hr,hn,hd,(console_discipline hstart hr hn).2.2.1⟩

end Yeet.Console
