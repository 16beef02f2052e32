import YeetKernel.DiskSleep

/-!
# Waiting for the disk

A process that sleeps in `iderw` is woken when its request is done only if it
is the first sleeper on its buffer. It is not if another process went to sleep
on the buffer in `bget` before it.
-/

namespace Yeet.DiskWaiters
open Kernel BufCache BufEffect BufInvariant BufArray WaitQueue Function

variable {P D : Type} [DecidableEq P]

def awaits : Ctl → Option Bufno
  | .waiting _ b => some b
  | _ => none

def Stranded (x : System P D) : Prop :=
  ∃ p b, awaits (x.core.ctl p) = some b ∧ (p,b) ∈ x.asleep ∧ (x.core.buf b).valid = true ∧
    (x.core.buf b).dirty = false ∧ b ∉ x.core.idequeue

/-- When the disk is done with a buffer, a process that sleeps in `iderw` on it
is the first of the sleepers on it. -/
def FirstInLine (x : System P D) : Act P D → Prop
  | .core .ideintr => ∀ b p, x.active = some b → awaits (x.core.ctl p) = some b →
      (p,b) ∈ x.asleep → (waiting b x.asleep).head? = some p
  | _ => True

theorem awaits_eq_some {k : Ctl} {b : Bufno} : awaits k = some b ↔ ∃ j, k = .waiting j b := by
  cases k <;> simp [awaits]

section Step

variable {x x' : System P D} {a : Act P D} {o : Seen P D} {s s' : State P D} {e : Event P D} {p : P}
variable {A : Uint → Uint → D} {h : History P D} {b : Action P D}

/-- A process that waits in `iderw` has its request in the queue or done. -/
def Finished (s : State P D) : Prop :=
  ∀ p j b, s.ctl p = .waiting j b →
    b ∈ s.idequeue ∨ (s.buf b).valid = true ∧ (s.buf b).dirty = false

theorem waiting_of_update {f : P → Ctl} {k : Ctl} {q : P} {j : Job} {b : Bufno}
    (hk : ∀ j c, k ≠ .waiting j c) (h : update f p k q = .waiting j b) : f q = .waiting j b := by
  by_cases e : q = p
  · rw [e, update_self] at h
    exact absurd h (hk j b)
  · rwa [update_of_ne e] at h

theorem finished_step (hs : Sound A s) (hf : Finished s) (he : Effect s s' e) : Finished s' := by
  have hwait : ∀ {q j b}, s.ctl q = .waiting j b → s.held q b = true :=
    fun {q _ _} h => hs.mine (p := q) (by rw [h]; rfl)
  have hfree : ∀ {b}, (s.buf b).busy = false → ∀ q j, s.ctl q ≠ .waiting j b := by
    intro b hb q j h
    rw [(hs.busy b).mpr ⟨q,hwait h⟩] at hb
    cases hb
  have hmine : ∀ {p b}, s.ctl p = .idle → s.held p b = true → ∀ q j, s.ctl q ≠ .waiting j b := by
    intro p b hc hh q j h
    obtain rfl := hs.single p q b hh (hwait h)
    rw [hc] at h
    cases h
  -- one buffer is touched, and no process waits for it
  have keep : ∀ b, (∀ q j, s.ctl q ≠ .waiting j b) → (∀ c, c ≠ b → s'.buf c = s.buf c) →
      (∀ q j c, s'.ctl q = .waiting j c → s.ctl q = .waiting j c) →
      s'.idequeue = s.idequeue → Finished s' := by
    intro b hno hbuf hctl hq q j c h
    have h := hctl q j c h
    have hcb : c ≠ b := by
      rintro rfl
      exact hno q j h
    rw [hq, hbuf c hcb]
    exact hf q j c h
  have goto : ∀ {p : P} {k : Ctl}, (∀ j c, k ≠ .waiting j c) → Finished (s.goto p k) :=
    fun hk q j c h => hf q j c (waiting_of_update hk h)
  have serve : ∀ {b rest}, s.idequeue = b::rest → Finished (BufEffect.serve s b rest) := by
    intro b rest hq q j c h
    by_cases e : c = b
    · refine Or.inr ?_
      simp [BufEffect.serve, served, e]
    rcases hf q j c h with hm | hv
    · rw [hq, List.mem_cons] at hm
      exact Or.inl (hm.resolve_left e)
    · refine Or.inr ?_
      simp only [BufEffect.serve, update_of_ne e]
      exact hv
  cases he with
  | asked p dev blockno hc hreal | hit p dev blockno b hc hv | missed p dev blockno b hc hv
  | read p dev blockno b hc hv hd | written p b hc hv hd => exact goto (by simp)
  | slept p | spurious => exact hf
  | found p b hc hb | recycled p dev blockno b hc hnone hb hd =>
    exact keep b (hfree hb) (fun c h => update_of_ne h _ _)
      (fun q j c => waiting_of_update (by simp)) rfl
  | started p j b hc hq =>
    intro q i c h
    by_cases e : q = p
    · subst e
      have h := (update_self ..).symm.trans h
      obtain ⟨-,rfl⟩ := Ctl.waiting.inj h
      exact Or.inl (by simp)
    have h := (update_of_ne e _ _).symm.trans h
    rcases hf q i c h with hm | hv
    · simp [hq] at hm
    · exact Or.inr hv
  | queued p j b hc hq =>
    intro q i c h
    by_cases e : q = p
    · subst e
      have h := (update_self ..).symm.trans h
      obtain ⟨-,rfl⟩ := Ctl.waiting.inj h
      exact Or.inl (by simp)
    · have h := (update_of_ne e _ _).symm.trans h
      exact (hf q i c h).imp_left (fun hm => by simp [hm])
  | last b hq | next b c rest hq => exact serve hq
  | modified p b y hc hh | logged p b hc hh | released p b hc hh hu =>
    exact keep b (hmine hc hh) (fun c h => update_of_ne h _ _) (fun _ _ _ h => h) rfl
  | bwrite p b hc hh =>
    exact keep b (hmine hc hh) (fun c h => update_of_ne h _ _)
      (fun q j c => waiting_of_update (by simp)) rfl

/-- A process sleeps once, the disk is busy with the head of the queue, and the
requests are completed in the order of the queue. -/
structure Line (h : History P D) (x : System P D) : Prop where
  once : (x.asleep.map Prod.fst).Nodup
  active : x.active = x.core.idequeue.head?
  order : queued h = completed h++x.core.idequeue

theorem awake (hen : enabled x b = true) (hb : actor b = some p) (c : Bufno) :
    (p,c) ∉ x.asleep := by
  intro hm
  have hany : x.asleep.any (fun y => y.1 = p) = true :=
    List.any_eq_true.mpr ⟨(p,c),hm,by simp⟩
  simp [enabled, hb, hany] at hen

omit [DecidableEq P] in
theorem once_join {l : Queue P Bufno} (hl : (l.map Prod.fst).Nodup) {m : List Bufno}
    (hp : ∀ c, (p,c) ∉ l) (hm : m.length ≤ 1) :
    ((l++m.map (fun b => (p,b))).map Prod.fst).Nodup := by
  rw [List.map_append]
  refine hl.append ?_ ?_
  · rcases m with _ | ⟨b,_ | ⟨c,m⟩⟩
    · simp
    · simp
    · simp at hm
  intro q hq hq'
  obtain ⟨⟨q',c⟩,hqc,rfl⟩ := List.mem_map.mp hq
  obtain rfl : q' = p := by
    simp only [List.map_map, List.mem_map] at hq'
    obtain ⟨b,-,hb⟩ := hq'
    exact hb.symm
  exact hp c hqc

theorem line_step (hs : Sound A x.core) (hl : Line h x)
    (hx : exec x a = some (.ok (x',o))) : Line (h++[(a,o)]) x' := by
  rcases exec_cases hx with ⟨b,e,rfl,rfl,hen,hb,hx'⟩ | ⟨p,rfl,rfl,rfl⟩
  · have hmoves := effect_moves (sound_effect hs hb)
    have hsub := (exec_subject hb).1
    obtain ⟨s,act,slp⟩ := x'
    simp only at hmoves hb hx'
    have hother : (∀ q c, e ≠ .queued q c) → (∀ c, e ≠ .done c) →
        queued (h++[(.core b,some e)]) = completed (h++[(.core b,some e)])++s.idequeue ∧
          s.idequeue = x.core.idequeue := by
      intro h1 h2
      have hq : s.idequeue = x.core.idequeue := by cases e <;> simp_all [Moves]
      refine ⟨?_,hq⟩
      have horder := hl.order
      rw [hq]
      cases e <;> simp_all [queued, completed]
    cases e with
    | slept p =>
      cases hx'
      obtain ⟨h1,h2⟩ := hother (by simp) (by simp)
      refine ⟨once_join hl.once (awake hen hsub.symm) ?_,by rw [h2]; exact hl.active,h1⟩
      cases sleepsOn x.core p <;> simp
    | queued p c =>
      cases hx'
      have hmoves : s.idequeue = x.core.idequeue++[c] := hmoves
      refine ⟨once_join (m := [c]) hl.once (awake hen hsub.symm) (by simp),?_,?_⟩
      · simp only
        cases hq : x.core.idequeue with
        | nil => simp [hmoves, hq]
        | cons d rest =>
          have hact := hl.active
          simp only [hmoves, hq, hact, List.cons_append, List.head?_cons, Option.some.injEq]
          split
          · rename_i hdc
            rw [hdc]
          · rfl
      · have horder := hl.order
        simp only [hmoves]
        simp_all [queued, completed]
    | done c =>
      cases hx'
      refine ⟨hl.once.sublist (List.eraseP_sublist.map _),rfl,?_⟩
      have hmoves : x.core.idequeue = c::s.idequeue := hmoves
      have horder := hl.order
      rw [hmoves] at horder
      simp_all [queued, completed]
    | released p c =>
      cases hx'
      obtain ⟨h1,h2⟩ := hother (by simp) (by simp)
      exact ⟨hl.once.sublist (List.eraseP_sublist.map _),by rw [h2]; exact hl.active,h1⟩
    | asked | found | recycled | missed | returned | spurious | written | modified | marked =>
      cases hx'
      obtain ⟨h1,h2⟩ := hother (by simp) (by simp)
      exact ⟨hl.once,by rw [h2]; exact hl.active,h1⟩
  · refine ⟨hl.once.sublist (List.eraseP_sublist.map _),hl.active,?_⟩
    simpa [queued, completed] using hl.order

def Patient (x : System P D) : Prop :=
  ∀ p j b, x.core.ctl p = .waiting j b → (p,b) ∈ x.asleep → b ∈ x.core.idequeue

omit [DecidableEq P] in
theorem Patient.not_stranded (h : Patient x) : ¬ Stranded x := by
  rintro ⟨p,b,hc,hp,-,-,hb⟩
  obtain ⟨j,hc⟩ := awaits_eq_some.mp hc
  exact hb (h p j b hc hp)

omit [DecidableEq P] in
theorem mem_settle {q : P} {c : Bufno} (h : (q,c) ∈ (settle x s e).asleep) :
    (q,c) ∈ x.asleep ∨ e = .slept q ∧ sleepsOn x.core q = some c ∨ e = .queued q c := by
  cases e with
  | slept p =>
    rcases List.mem_append.mp h with h | h
    · exact Or.inl h
    · obtain ⟨b,hb,heq⟩ := List.mem_map.mp h
      obtain ⟨rfl,rfl⟩ := Prod.mk.inj heq
      exact Or.inr (Or.inl ⟨rfl,by simpa using hb⟩)
  | queued p b =>
    rcases List.mem_append.mp h with h | h
    · exact Or.inl h
    · obtain ⟨rfl,rfl⟩ := Prod.mk.inj (List.mem_singleton.mp h)
      exact Or.inr (Or.inr rfl)
  | done b | released p b => exact Or.inl (wake_subset b x.asleep h)
  | asked | found | recycled | missed | returned | spurious | written | modified | marked =>
    exact Or.inl h

theorem ideintr_of_done {c : Bufno}
    (hx : BufCache.exec s b = some (.ok (s',.done c))) : b = .ideintr := by
  have hb := (exec_subject hx).1
  cases b with
  | ideintr => rfl
  | _ => cases hb

omit [DecidableEq P] in
theorem waiting_nodup {l : Queue P Bufno} (hl : (l.map Prod.fst).Nodup) (b : Bufno) :
    (waiting b l).Nodup := hl.sublist (List.filter_sublist.map _)

theorem patient_step (hs : Sound A x.core)
    (hf : Finished x.core) (hl : Line h x) (hp : Patient x) (hfirst : FirstInLine x a)
    (hx : exec x a = some (.ok (x',o))) : Patient x' := by
  rcases exec_cases hx with ⟨b,e,rfl,rfl,hen,hb,hx'⟩ | ⟨p,rfl,rfl,rfl⟩
  · have he := sound_effect hs hb
    have hmoves := effect_moves he
    obtain ⟨hsub,hret⟩ := exec_subject hb
    obtain ⟨s,act,slp⟩ := x'
    simp only at hmoves hb hx' he
    intro q j c hc hm
    have hm' : (q,c) ∈ (settle x s e).asleep := by rw [← hx']; exact hm
    rcases mem_settle hm' with hold | ⟨rfl,hon⟩ | rfl
    · have hne : subject e ≠ some q := fun hq => awake hen (hsub.symm.trans hq) c hold
      have hcq : x.core.ctl q = .waiting j c := (effect_ctl he hne).symm.trans hc
      have hin := hp q j c hcq hold
      show c ∈ s.idequeue
      cases e with
      | queued p d =>
        rw [show s.idequeue = _ from hmoves]
        exact List.mem_append_left _ hin
      | done d =>
        have hmoves : x.core.idequeue = d::s.idequeue := hmoves
        rw [hmoves, List.mem_cons] at hin
        rcases hin with rfl | hin
        · obtain rfl := ideintr_of_done hb
          have hhead := hfirst c q (by rw [hl.active, hmoves]; rfl)
            (awaits_eq_some.mpr ⟨j,hcq⟩) hold
          have htail : q ∈ (waiting c x.asleep).tail := by
            rw [← waiting_wake_self]
            exact mem_waiting.mpr hm'
          obtain ⟨rest,hw⟩ := List.head?_eq_some_iff.mp hhead
          have hnd := waiting_nodup hl.once c
          rw [hw] at hnd htail
          exact absurd htail (List.nodup_cons.mp hnd).1
        · exact hin
      | asked | slept | found | recycled | missed | returned | spurious | written | modified
      | marked | released =>
        rw [show s.idequeue = _ from hmoves]
        exact hin
    · cases he with
      | slept =>
        show c ∈ x.core.idequeue
        rcases hret q rfl with ⟨dev,blockno,hg⟩ | ⟨i,d,hw,hno⟩
        · exact absurd (hg.symm.trans hc) (by simp)
        · obtain ⟨-,rfl⟩ := Ctl.waiting.inj (hw.symm.trans hc)
          exact (hf q i d hw).resolve_right hno
    · show c ∈ s.idequeue
      rw [show s.idequeue = _ from hmoves]
      simp
  · intro q j c hc hm
    exact hp q j c hc (leave_subset p x.asleep hm)

theorem ideintr_serves {b : Bufno} {rest : List Bufno} (hq : s.idequeue = b::rest)
    (hx : BufCache.exec s .ideintr = some (.ok (s',e))) :
    e = .done b ∧ s'.idequeue = rest ∧ (s'.buf b).valid = true ∧ (s'.buf b).dirty = false := by
  simp only [BufCache.exec, ideintr, hq] at hx
  cases rest with
  | nil =>
    cases hx
    simp
  | cons c rest =>
    obtain ⟨t,ht,heq⟩ := map_eq_ok.mp (Option.some.inj hx)
    cases heq
    rw [idestart_eq_ok ht]
    simp

theorem overtaken_stranded (hs : Sound A x.core)
    (hl : Line h x) (hx : exec x a = some (.ok (x',o))) (hno : ¬ FirstInLine x a) :
    Stranded x' := by
  rcases exec_cases hx with ⟨b,e,rfl,rfl,hen,hb,hx'⟩ | ⟨p,rfl,-,-⟩
  · cases b with
    | ideintr =>
      simp only [FirstInLine, not_forall] at hno
      obtain ⟨b,p,hact,hc,hm,hne⟩ := hno
      have he := sound_effect hs hb
      have hmoves := effect_moves he
      have hctl : x'.core.ctl p = x.core.ctl p :=
        effect_ctl he (by rw [(exec_subject hb).1]; simp [actor])
      have hhead : x.core.idequeue.head? = some b := by rw [← hl.active, hact]
      obtain ⟨rest,hq⟩ := List.head?_eq_some_iff.mp hhead
      obtain ⟨rfl,hrest,hv,hd⟩ := ideintr_serves hq hb
      refine ⟨p,b,by rw [hctl, hc],?_,hv,hd,?_⟩
      · rw [hx']
        show (p,b) ∈ WaitQueue.wake b x.asleep
        rw [← mem_waiting, waiting_wake_self]
        have hin : p ∈ waiting b x.asleep := mem_waiting.mpr hm
        cases hw : waiting b x.asleep with
        | nil => simp [hw] at hin
        | cons q l =>
          rw [hw] at hin hne
          rcases List.mem_cons.mp hin with rfl | hin
          · exact absurd rfl hne
          · exact hin
      · rw [hrest]
        have hnd := hs.nodup
        rw [hq] at hnd
        exact (List.nodup_cons.mp hnd).1
    | _ => exact absurd trivial hno
  · exact absurd trivial hno

end Step

section Runs

variable {havedisk1 : Bool} {disk : Uint → Uint → D} {zero : D} {h : History P D} {x : System P D}

theorem run_system (hr : Run (start P havedisk1 disk zero) h x) :
    (∃ A, Sound A x.core) ∧ Finished x.core ∧ Line h x := by
  induction hr with
  | nil =>
    refine ⟨⟨_,initial_sound havedisk1 disk zero⟩,fun p j b hc => ?_,⟨by simp [start],rfl,rfl⟩⟩
    cases hc
  | snoc run step ih =>
    obtain ⟨⟨A,hs⟩,hf,hl⟩ := ih
    refine ⟨?_,?_,line_step hs hl step⟩
    · obtain ⟨g,hg⟩ := run_core (run.snoc step)
      exact ⟨_,run_sound hg⟩
    rcases exec_cases step with ⟨b,e,-,-,-,hb,-⟩ | ⟨p,-,-,hx⟩
    · exact finished_step hs hf (sound_effect hs hb)
    · rw [hx]
      exact hf

/-- In every run the queue holds distinct busy buffers, the disk is busy with
its head, and the requests are completed once each in the order of the queue.
No state of the run leaves a process asleep in `iderw` after its request is
done just when, at every completion, the process that sleeps in `iderw` is the
first sleeper on the buffer. -/
theorem disk_waiters (hr : Run (start P havedisk1 disk zero) h x) :
    (x.core.idequeue.Nodup ∧ (∀ b ∈ x.core.idequeue, (x.core.buf b).busy = true) ∧
      x.active = x.core.idequeue.head? ∧ queued h = completed h++x.core.idequeue) ∧
    ((∀ h₁ x₁, h₁ <+: h → Run (start P havedisk1 disk zero) h₁ x₁ → ¬ Stranded x₁) ↔
      Lts.Meets exec (start P havedisk1 disk zero) FirstInLine h) := by
  obtain ⟨⟨A,hs⟩,-,hl⟩ := run_system hr
  refine ⟨⟨hs.nodup,fun b hb => ?_,hl.active,hl.order⟩,fun hno h₁ y x₁ hp run₁ => ?_,
    fun hm h₁ x₁ hp run₁ => ?_⟩
  · obtain ⟨p,j,hc⟩ := hs.queued b hb
    exact (hs.busy b).mpr ⟨p,hs.mine (by rw [hc]; rfl)⟩
  · obtain ⟨x₂,run₂⟩ := hr.part hp
    obtain ⟨x₁',run₁',step⟩ := run₂.last
    obtain rfl := run₁.unique run₁'
    obtain ⟨⟨A,hs⟩,-,hl⟩ := run_system run₁
    by_contra hfirst
    exact hno _ x₂ hp run₂ (overtaken_stranded hs hl step hfirst)
  · have hpat := (hm.part hp).invariant run₁ Patient (fun p j b hc => by cases hc)
      (fun g x₂ a x₃ o run ih hfirst step => by
        obtain ⟨⟨A,hs⟩,hf,hl⟩ := run_system run
        exact patient_step hs hf hl ih hfirst step)
    exact hpat.not_stranded

end Runs

section Boot

instance firstInLineDecidable (x : System P D) (a : Act P D) : Decidable (FirstInLine x a) :=
  match a with
  | .core .ideintr => decidable_of_iff (∀ y ∈ x.asleep, x.active = some y.2 →
      awaits (x.core.ctl y.1) = some y.2 → (waiting y.2 x.asleep).head? = some y.1)
      ⟨fun h b p hb hp hm => h (p,b) hm hb hp,fun h y hm hb hp => h y.2 y.1 hb hp hm⟩
  | .core (.bread ..) | .core (.bget _) | .core (.test _) | .core (.iderw _) | .core (.wake _)
  | .core (.modify ..) | .core (.bwrite ..) | .core (.logWrite ..) | .core (.brelse ..)
  | .kill _ => isTrue trivial

def idleDisk : System ℕ ℕ := start ℕ true (fun _ _ => 0) 0

/-- Process 0 reads block 5; while it does so, process 1 asks for the same block. -/
def readWhileAsked : List (Act ℕ ℕ) :=
  [.core (.bread 0 1 5),.core (.bget 0),.core (.test 0),.core (.iderw 0),.core (.bread 1 1 5),
    .core (.bget 1),.core .ideintr,.core (.wake 0)]

theorem disk_waiters_read : ∃ h x, Run idleDisk h x ∧ h.map Prod.fst = readWhileAsked ∧
    x.asleep = [(1,lastBuf)] ∧ queued h = completed h++x.core.idequeue ∧ ¬ Stranded x := by
  obtain ⟨h,x,hr,hacts,hsleep⟩ := Lts.replay_reaches (Lts.guarded exec FirstInLine) idleDisk
    readWhileAsked (fun _ x => x.asleep = [(1,lastBuf)]) (by decide +kernel)
  obtain ⟨hr,hm⟩ := hr.meets
  have hw := disk_waiters hr
  exact ⟨h,x,hr,hacts,hsleep,hw.1.2.2.2,hw.2.mpr hm h x (List.prefix_refl h) hr⟩

/-- Processes 1 and 2 sleep in `bget` on the buffer that process 0 holds. Process
1 gets it and writes it, and sleeps in `iderw` behind process 2. -/
def overtaken : List (Act ℕ ℕ) :=
  readWhileAsked++[.core (.bread 2 1 5),.core (.bget 2),.core (.brelse 0 lastBuf),.core (.bget 1),
    .core (.test 1),.core (.bwrite 1 lastBuf),.core (.iderw 1),.core .ideintr]

theorem writer_stranded : ∃ h x, Run idleDisk h x ∧ h.map Prod.fst = overtaken ∧
    x.core.ctl 1 = .waiting .write lastBuf ∧ x.asleep = [(1,lastBuf)] ∧ Stranded x := by
  obtain ⟨h,x,hr,hacts,hc,hsleep,hv,hd,hq⟩ := Lts.replay_reaches exec idleDisk overtaken
    (fun _ x => x.core.ctl 1 = .waiting .write lastBuf ∧ x.asleep = [(1,lastBuf)] ∧
      (x.core.buf lastBuf).valid = true ∧ (x.core.buf lastBuf).dirty = false ∧
      x.core.idequeue = []) (by decide +kernel)
  exact ⟨h,x,hr,hacts,hc,hsleep,1,lastBuf,by rw [hc]; rfl,by simp [hsleep],hv,hd,by simp [hq]⟩

end Boot

end Yeet.DiskWaiters
