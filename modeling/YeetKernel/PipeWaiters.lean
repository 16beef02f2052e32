import YeetKernel.PipeFifo

/-!
# Sleepers on a pipe

A process may sleep on `nread` while the pipe is empty and open for writing,
and on `nwrite` while it is full and open for reading. A wakeup reaches only
the first sleeper on its channel, so a change is heard by all whom it concerns
only if at most one process sleeps there; and a writer that gives up on a full
pipe wakes no reader.
-/

namespace Yeet.Pipes
open WaitQueue Function

variable {P : Type}

def Waits (b : Pipe) : Chan → Prop
  | .nread => b.empty = true ∧ b.writeopen = true
  | .nwrite => b.full = true ∧ b.readopen = true

instance waitsDecidable (b : Pipe) (c : Chan) : Decidable (Waits b c) :=
  match c with
  | .nread => inferInstanceAs (Decidable (_ ∧ _))
  | .nwrite => inferInstanceAs (Decidable (_ ∧ _))

def Stranded (s : State P) : Prop := ∃ c p, (p,c) ∈ s.asleep ∧ ¬ Waits s.pipe c

/-- The channel whose sleepers have no reason to sleep once the step is done,
and how many of them the step wakes. -/
def due (s : State P) : Action P → Option (Chan × ℕ)
  | .step p =>
    match s.ctl p with
    | .inside (.write _ n i) =>
      if (i : ℤ) < n then
        if s.pipe.full then
          if s.pipe.readopen = false ∨ s.killed p = true then some (.nread,0)
          else some (.nread,1)
        else none
      else if Waits s.pipe .nread then none
      else some (.nread,1)
    | .inside (.copy n buf) =>
      if (buf.length : ℤ) < n ∧ s.pipe.empty = false then none
      else if Waits s.pipe .nwrite then none
      else some (.nwrite,1)
    | .inside (.close true) => some (.nread,1)
    | .inside (.close false) => some (.nwrite,1)
    | _ => none
  | _ => none

def Heard (s : State P) (a : Action P) : Prop :=
  ∀ c n, due s a = some (c,n) → (waiting c s.asleep).length ≤ n

/-- Sleepers have a reason to sleep, or the process inside will wake the first
of them. -/
structure Justified (s : State P) : Prop where
  nread : waiting .nread s.asleep ≠ [] → Waits s.pipe .nread ∨
    ∃ p addr n i, s.lock = some p ∧ s.ctl p = .inside (.write addr n i)
  nwrite : waiting .nwrite s.asleep ≠ [] → Waits s.pipe .nwrite ∨
    ∃ p n buf, s.lock = some p ∧ s.ctl p = .inside (.copy n buf)

section Step

variable {s s' : State P} {a : Action P} {e : Event P} {p : P}

theorem stranded_of {c : Chan} (hc : waiting c s.asleep ≠ []) (hw : ¬ Waits s.pipe c) :
    Stranded s := by
  obtain ⟨p,hp⟩ := List.exists_mem_of_ne_nil _ hc
  exact ⟨c,p,mem_waiting.mp hp,hw⟩

theorem Justified.free (h : Justified s) (hl : s.lock = none) : ¬ Stranded s := by
  rintro ⟨c,p,hp,hc⟩
  have hne : waiting c s.asleep ≠ [] := List.ne_nil_of_mem (mem_waiting.mpr hp)
  cases c with
  | nread =>
    rcases h.nread hne with hw | ⟨q,_,_,_,hq,-⟩
    · exact hc hw
    · rw [hl] at hq
      cases hq
  | nwrite =>
    rcases h.nwrite hne with hw | ⟨q,_,_,hq,-⟩
    · exact hc hw
    · rw [hl] at hq
      cases hq

theorem Justified.reader {k : Ctl} (h : Justified s) (hl : s.lock = some p) (hc : s.ctl p = k)
    (hk : ∀ addr n i, k ≠ .inside (.write addr n i)) (hne : waiting .nread s.asleep ≠ []) :
    Waits s.pipe .nread := by
  rcases h.nread hne with hw | ⟨q,addr,n,i,hq,hcq⟩
  · exact hw
  · obtain rfl := Option.some.inj (hl.symm.trans hq)
    exact absurd (hc.symm.trans hcq) (hk addr n i)

theorem Justified.writer {k : Ctl} (h : Justified s) (hl : s.lock = some p) (hc : s.ctl p = k)
    (hk : ∀ n buf, k ≠ .inside (.copy n buf)) (hne : waiting .nwrite s.asleep ≠ []) :
    Waits s.pipe .nwrite := by
  rcases h.nwrite hne with hw | ⟨q,n,buf,hq,hcq⟩
  · exact hw
  · obtain rfl := Option.some.inj (hl.symm.trans hq)
    exact absurd (hc.symm.trans hcq) (hk n buf)

theorem not_waits_full {b : Pipe} (h : b.full = true) : ¬ Waits b .nread := by
  rintro ⟨he,-⟩
  rw [full_iff] at h
  rw [empty_iff, h] at he
  exact absurd he (by decide)

theorem tail_eq_nil {l : List P} (h : l.length ≤ 1) : l.tail = [] := by
  rw [← List.length_eq_zero_iff, List.length_tail]
  omega

variable [DecidableEq P]

theorem justified_step {h : History P} (ho : Orderly h s) (hj : Justified s) (hh : Heard s a)
    (he : Effect s a s' e) : Justified s' := by
  cases he with
  | call p c hc =>
    constructor
    · intro hne
      refine (hj.nread hne).imp_right ?_
      rintro ⟨q,addr,n,i,hq,hcq⟩
      have hqp : q ≠ p := by
        rintro rfl
        rw [hc] at hcq
        cases hcq
      exact ⟨q,addr,n,i,hq,(update_of_ne hqp _ _).trans hcq⟩
    intro hne
    refine (hj.nwrite hne).imp_right ?_
    rintro ⟨q,n,buf,hq,hcq⟩
    have hqp : q ≠ p := by
      rintro rfl
      rw [hc] at hcq
      cases hcq
    exact ⟨q,n,buf,hq,(update_of_ne hqp _ _).trans hcq⟩
  | acquire p k hc hl ha =>
    have hnone := hj.free hl
    constructor
    all_goals
      intro hne
      by_contra hw
      exact hnone (stranded_of hne (fun h => hw (Or.inl h)))
  | full p addr n i hc hl hi hf hk =>
    have hnil := hh .nread 0 (by simp only [due, hc, if_pos hi, if_pos hf, if_pos hk])
    refine ⟨fun hne => ?_,fun hne => Or.inl (hj.writer hl hc (by simp) hne)⟩
    exact absurd (List.length_eq_zero_iff.mp (Nat.le_zero.mp hnil)) hne
  | sleepFull p addr n i hc hl hi hf hopen hk =>
    have hone := hh .nread 1 (by simp [due, hc, hi, hf, hopen, hk])
    refine ⟨fun hne => ?_,fun _ => Or.inl ⟨hf,hopen⟩⟩
    simp [waiting_cons, tail_eq_nil hone] at hne
  | store p addr n i hc hi hf =>
    have hl := ho.owner p _ hc
    refine ⟨fun _ => Or.inr ⟨p,addr,n,i+1,hl,update_self ..⟩,fun hne => ?_⟩
    have hfull := (hj.writer hl hc (by simp) hne).1
    rw [hf] at hfull
    cases hfull
  | wrote p addr n i hc hl hi =>
    refine ⟨fun hne => Or.inl ?_,fun hne => Or.inl ?_⟩
    · by_contra hw
      have hone := hh .nread 1 (by simp only [due, hc, if_neg hi]; exact if_neg hw)
      simp [tail_eq_nil hone] at hne
    · simp only [waiting_wake_ne (show Chan.nwrite ≠ .nread by decide)] at hne
      exact hj.writer hl hc (by simp) hne
  | readKilled p n hc hl =>
    exact ⟨fun hne => Or.inl (hj.reader hl hc (by simp) hne),
      fun hne => Or.inl (hj.writer hl hc (by simp) hne)⟩
  | sleepEmpty p n hc hl he hopen =>
    refine ⟨fun _ => Or.inl ⟨he,hopen⟩,fun hne => Or.inl ?_⟩
    simp [waiting_cons] at hne
    exact hj.writer hl hc (by simp) hne
  | copy p n hc hopen =>
    have hl := ho.owner p _ hc
    exact ⟨fun hne => Or.inl (hj.reader hl hc (by simp) hne),
      fun hne => Or.inl (hj.writer hl hc (by simp) hne)⟩
  | take p n buf hc hn he =>
    have hl := ho.owner p _ hc
    refine ⟨fun hne => ?_,fun _ => Or.inr ⟨p,n,_,hl,update_self ..⟩⟩
    have hempty := (hj.reader hl hc (by simp) hne).1
    rw [he] at hempty
    cases hempty
  | got p n buf hc hl hn =>
    refine ⟨fun hne => Or.inl ?_,fun hne => Or.inl ?_⟩
    · simp only [waiting_wake_ne (show Chan.nread ≠ .nwrite by decide)] at hne
      exact hj.reader hl hc (by simp) hne
    · by_contra hw
      have hone := hh .nwrite 1 (by simp only [due, hc, if_neg hn]; exact if_neg hw)
      simp [tail_eq_nil hone] at hne
  | closeWrite p hc hl =>
    have hone := hh .nread 1 (by simp [due, hc])
    refine ⟨fun hne => ?_,fun hne => Or.inl ?_⟩
    · simp [tail_eq_nil hone] at hne
    · simp only [waiting_wake_ne (show Chan.nwrite ≠ .nread by decide)] at hne
      exact hj.writer hl hc (by simp) hne
  | closeRead p hc hl =>
    have hone := hh .nwrite 1 (by simp [due, hc])
    refine ⟨fun hne => Or.inl ?_,fun hne => ?_⟩
    · simp only [waiting_wake_ne (show Chan.nread ≠ .nwrite by decide)] at hne
      exact hj.reader hl hc (by simp) hne
    · simp [tail_eq_nil hone] at hne
  | kill p =>
    have hsub : ∀ c, waiting c (leave p s.asleep) ≠ [] → waiting c s.asleep ≠ [] := by
      intro c hne hnil
      have hs := waiting_leave_sublist c p s.asleep
      rw [hnil, List.sublist_nil] at hs
      exact hne hs
    exact ⟨fun hne => hj.nread (hsub .nread hne),fun hne => hj.nwrite (hsub .nwrite hne)⟩

theorem unheard_stranded {c : Chan} {n : ℕ} (he : Effect s a s' e) (hd : due s a = some (c,n))
    (hn : n < (waiting c s.asleep).length) : s'.lock = none ∧ Stranded s' := by
  have htail : ∀ {l : List P}, 1 < l.length → l.tail ≠ [] := by
    intro l hl hnil
    have := congrArg List.length hnil
    rw [List.length_tail] at this
    simp at this
    omega
  cases he with
  | call p c' hc | acquire p k hc hl ha | kill p => simp [due] at hd
  | full p addr m i hc hl hi hf hk =>
    simp only [due, hc, if_pos hi, if_pos hf, if_pos hk, Option.some.injEq, Prod.mk.injEq] at hd
    obtain ⟨rfl,rfl⟩ := hd
    exact ⟨rfl,stranded_of (c := .nread) (List.ne_nil_of_length_pos hn) (not_waits_full hf)⟩
  | sleepFull p addr m i hc hl hi hf hopen hk =>
    simp [due, hc, hi, hf, hopen, hk] at hd
    obtain ⟨rfl,rfl⟩ := hd
    refine ⟨rfl,stranded_of (c := .nread) ?_ (not_waits_full hf)⟩
    simp [waiting_cons, htail hn]
  | store p addr m i hc hi hf => simp [due, hc, hi, hf] at hd
  | wrote p addr m i hc hl hi =>
    simp only [due, hc, if_neg hi] at hd
    split at hd
    · cases hd
    · rename_i hw
      obtain ⟨rfl,rfl⟩ := Prod.mk.inj (Option.some.inj hd)
      exact ⟨rfl,stranded_of (c := .nread) (by simpa using htail hn) hw⟩
  | readKilled p m hc hl | sleepEmpty p m hc hl he hopen | copy p m hc hopen => simp [due, hc] at hd
  | take p m buf hc hm he => simp [due, hc, hm, he] at hd
  | got p m buf hc hl hm =>
    simp only [due, hc, if_neg hm] at hd
    split at hd
    · cases hd
    · rename_i hw
      obtain ⟨rfl,rfl⟩ := Prod.mk.inj (Option.some.inj hd)
      exact ⟨rfl,stranded_of (c := .nwrite) (by simpa using htail hn) hw⟩
  | closeWrite p hc hl =>
    simp only [due, hc, Option.some.injEq, Prod.mk.injEq] at hd
    obtain ⟨rfl,rfl⟩ := hd
    refine ⟨rfl,stranded_of (c := .nread) (by simpa using htail hn) (fun hw => ?_)⟩
    cases hw.2
  | closeRead p hc hl =>
    simp only [due, hc, Option.some.injEq, Prod.mk.injEq] at hd
    obtain ⟨rfl,rfl⟩ := hd
    refine ⟨rfl,stranded_of (c := .nwrite) (by simpa using htail hn) (fun hw => ?_)⟩
    cases hw.2

end Step

section Runs

variable [DecidableEq P] {s₀ s : State P} {h : History P}

omit [DecidableEq P] in
theorem start_justified (h0 : Start s₀) : Justified s₀ := by
  obtain ⟨-,-,-,-,-,hnil,-⟩ := h0
  constructor <;> simp [hnil]

/-- In every state of a run in which the lock is free no process sleeps without
a reason just when every step of the run wakes all whom it concerns. -/
theorem no_stranded_iff (h0 : Start s₀) (hr : Run s₀ h s) :
    (∀ h₁ s₁, h₁ <+: h → Run s₀ h₁ s₁ → s₁.lock = none → ¬ Stranded s₁) ↔
      Lts.Meets exec s₀ Heard h := by
  constructor
  · intro hfree h₁ x s₁ hp run₁ c n hd
    obtain ⟨s₂,run₂⟩ := hr.part hp
    obtain ⟨s₁',run₁',step⟩ := run₂.last
    obtain rfl := run₁.unique run₁'
    by_contra hn
    obtain ⟨hl,hs⟩ := unheard_stranded (exec_effect step) hd (not_le.mp hn)
    exact hfree _ s₂ hp run₂ hl hs
  · intro hm h₁ s₁ hp run₁ hl
    have hj := (hm.part hp).invariant run₁ Justified (start_justified h0)
      (fun g s₂ a s₃ e run ih hh step => justified_step (run_orderly h0 run) ih hh (exec_effect step))
    exact hj.free hl

end Runs

instance heardDecidable (s : State P) (a : Action P) : Decidable (Heard s a) :=
  match hd : due s a with
  | none => isTrue (fun c n h => by rw [hd] at h; cases h)
  | some (c,n) =>
    if hn : (waiting c s.asleep).length ≤ n then
      isTrue (fun c' n' h => by
        rw [hd] at h
        obtain ⟨rfl,rfl⟩ := Prod.mk.inj (Option.some.inj h)
        exact hn)
    else isFalse (fun h => hn (h c n hd))

def oneReader : List (Action ℕ) :=
  [.call 1 (.read 1),.acquire 1,.step 1,.call 0 (.write (fun _ => 0) 1),.acquire 0,.step 0,.step 0]

theorem no_stranded_one_reader : ∃ h s, Run fresh h s ∧ h.map Prod.fst = oneReader ∧
    s.lock = none ∧ s.pipe.empty = false ∧ ¬ Stranded s := by
  obtain ⟨h,s,hr,hacts,hl,he⟩ := Lts.replay_reaches (Lts.guarded exec Heard) fresh oneReader
    (fun _ s => s.lock = none ∧ s.pipe.empty = false) (by decide +kernel)
  obtain ⟨hr,hm⟩ := hr.meets
  exact ⟨h,s,hr,hacts,hl,he,(no_stranded_iff fresh_start hr).mpr hm h s (List.prefix_refl h) hr hl⟩

def twoReaders : List (Action ℕ) :=
  [.call 1 (.read 1),.acquire 1,.step 1,.call 2 (.read 1),.acquire 2,.step 2,
    .call 0 (.write (fun _ => 0) 1),.acquire 0,.step 0,.step 0]

theorem second_reader_stranded : ∃ h s, Run fresh h s ∧ h.map Prod.fst = twoReaders ∧
    s.lock = none ∧ (2,.nread) ∈ s.asleep ∧ s.pipe.empty = false ∧ Stranded s := by
  obtain ⟨h,s,hr,hacts,hl,hm,he⟩ := Lts.replay_reaches exec fresh twoReaders
    (fun _ s => s.lock = none ∧ s.asleep = [(2,.nread)] ∧ s.pipe.empty = false)
    (by decide +kernel)
  have hmem : (2,.nread) ∈ s.asleep := by simp [hm]
  refine ⟨h,s,hr,hacts,hl,hmem,he,.nread,2,hmem,fun hw => ?_⟩
  rw [Waits, he] at hw
  cases hw.1

end Yeet.Pipes
