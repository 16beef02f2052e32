import YeetKernel.ExitWait

/-!
# Process identifiers

`allocproc` numbers the processes with a counter that is never compared with
the pids in use.
-/

namespace Yeet.Pids
open Kernel StateLists ProcTable ProcSpec ProcStep ProcControl ProcEffect ProcInvariant
open Family ProcShift Function

def Allocates : Action → Prop
  | .userinitAlloc | .forkAlloc _ => True
  | _ => False

inductive Numbering (a : Action) (t u : Table) : Prop where
  | same (pid : u.pid = t.pid) (next : u.nextpid = t.nextpid)
      (state : ∀ q, u.state q ≠ .unused → t.state q ≠ .unused)
  | alloc (q : Slot) (act : Allocates a) (free : t.state q = .unused)
      (pid : u.pid = update t.pid q t.nextpid) (next : u.nextpid = t.nextpid+1)
        (state : u.state = update t.state q .embryo)
  | reaped (q : Slot) (pid : u.pid = update t.pid q 0) (next : u.nextpid = t.nextpid)
      (state : u.state = update t.state q .unused)

theorem used_of_rouse {x y : ProcState} (h : y = x ∨ x = .sleeping ∧ y = .runnable)
    (hy : y ≠ .unused) : x ≠ .unused := by
  rcases h with rfl | ⟨rfl,-⟩
  · exact hy
  · simp

theorem used_of_update {t u : Table} {p : Slot} {k : ProcState} (hu : u.state = update t.state p k)
    (hp : t.state p ≠ .unused) (q : Slot) (hq : u.state q ≠ .unused) : t.state q ≠ .unused := by
  by_cases e : q = p
  · rwa [e]
  · rwa [hu, update_of_ne e] at hq

section Effects

variable {s s' : State} {a : Action} {e : Event} {p : Slot}

theorem effect_numbering (hc : Consistent True s) (he : Effect s a s' e) :
    Numbering a s.tab s'.tab := by
  obtain ⟨L,hL⟩ := hc.placed
  obtain ⟨M,-,hx⟩ := effect_shift hc hL he
  generalize s'.tab = u, s'.cpu = k at hx ⊢
  cases hx with
  | switch event keeps killed free queue state asleep boot =>
    refine .same keeps.2.1 keeps.2.2.1 (fun q hq => ?_)
    rcases state q with e | ⟨hlive,-⟩
    · exact e ▸ hq
    · intro e
      simp [Live, e] at hlive
  | alloc hf hq act init =>
    refine .alloc _ ?_ hq rfl rfl rfl
    rcases act with rfl | ⟨c,rfl⟩ <;> trivial
  | stack hq boot => exact .same rfl rfl (fun _ => id)
  | noStack hd => exact .same rfl rfl (used_of_update rfl (by simp [hc.embryo _ _ hd]))
  | abort ha hcpu hd | born hp hd =>
    exact .same rfl rfl (used_of_update rfl (by simp [hc.copying hd]))
  | first hcpu =>
    have hq := (hc.bootSlot _ (by rw [hcpu]; rfl)).1
    exact .same rfl rfl (used_of_update rfl (by simp [hq]))
  | @dies p _ _ _ hp hi hx free grows boot =>
    refine .same (by rw [hx.same]) (by rw [hx.same]) (fun q hq => ?_)
    by_cases e : q = p
    · simp [e, hp]
    · exact used_of_rouse (hx.state q e) hq
  | reaped hq hx boot => exact .reaped _ rfl rfl rfl

end Effects

/-- The processes have different pids below the counter, which is a positive `int`
or has just left that range. -/
structure Numbered (t : Table) : Prop where
  counter : 0 < t.nextpid.toNat ∧ t.nextpid.toNat ≤ 2^31
  below : ∀ q, t.state q ≠ .unused → 0 < (t.pid q).toNat ∧ (t.pid q).toNat < t.nextpid.toNat
  distinct : ∀ p q, t.state p ≠ .unused → t.state q ≠ .unused → t.pid p = t.pid q → p = q

def InRange (s : State) (a : Action) : Prop := Allocates a → 0 < s.tab.nextpid.toInt

instance decidableAllocates : (a : Action) → Decidable (Allocates a)
  | .userinitAlloc | .forkAlloc _ => .isTrue trivial
  | .userinitStack _ | .userinitReady | .tick | .wakeup _ _ | .schedBegin _ | .schedNext _
  | .resume _ | .forkStack _ _ | .forkAbort _ | .forkDone _ | .exit _ | .wait _ | .kill _ _
  | .sleep _ _ | .yield _ | .setPriority _ _ _ => .isFalse id

instance decidableInRange (s : State) (a : Action) : Decidable (InRange s a) :=
  inferInstanceAs (Decidable (_ → _))

theorem toInt_pos_iff (x : Uint) : 0 < x.toInt ↔ 0 < x.toNat ∧ x.toNat < 2^31 := by
  rw [BitVec.toInt_eq_toNat_cond]
  split <;> omega

section Runs

variable {s s' : State} {a : Action} {e : Event}

theorem numbered_step {t u : Table} (h : Numbered t) (hn : Numbering a t u)
    (hr : Allocates a → 0 < t.nextpid.toInt) : Numbered u := by
  cases hn with
  | same pid next state =>
    refine ⟨next ▸ h.counter,fun q hq => ?_,fun p q hp hq he => ?_⟩
    · rw [pid, next]
      exact h.below q (state q hq)
    · rw [pid] at he
      exact h.distinct p q (state p hp) (state q hq) he
  | reaped x pid next state =>
    have hne : ∀ q, u.state q ≠ .unused → q ≠ x ∧ t.state q ≠ .unused := by
      intro q hq
      have e : q ≠ x := by
        rintro rfl
        exact hq (by rw [state, update_self])
      rw [state, update_of_ne e] at hq
      exact ⟨e,hq⟩
    refine ⟨next ▸ h.counter,fun q hq => ?_,fun p q hp hq he => ?_⟩
    · rw [pid, next, update_of_ne (hne q hq).1]
      exact h.below q (hne q hq).2
    · rw [pid, update_of_ne (hne p hp).1, update_of_ne (hne q hq).1] at he
      exact h.distinct p q (hne p hp).2 (hne q hq).2 he
  | alloc x act free pid next state =>
    have hpos := (toInt_pos_iff _).mp (hr act)
    have hnext : u.nextpid.toNat = t.nextpid.toNat+1 := by
      rw [next, BitVec.toNat_add]
      exact Nat.mod_eq_of_lt (by simp; omega)
    have hold : ∀ q, q ≠ x → u.state q ≠ .unused → t.state q ≠ .unused := by
      intro q e hq
      rwa [state, update_of_ne e] at hq
    -- the new pid is above all others
    have hnew : ∀ q, q ≠ x → u.state q ≠ .unused → u.pid q ≠ u.pid x := by
      intro q e hq hqx
      have hb := (h.below q (hold q e hq)).2
      rw [pid, update_of_ne e, update_self] at hqx
      rw [hqx] at hb
      omega
    refine ⟨by omega,fun q hq => ?_,fun p q hp hq he => ?_⟩
    · by_cases e : q = x
      · rw [e, pid, update_self]
        omega
      · have hb := h.below q (hold q e hq)
        rw [pid, update_of_ne e]
        omega
    by_cases ep : p = x
    · by_cases eq : q = x
      · rw [ep, eq]
      · exact absurd (ep ▸ he).symm (hnew q eq hq)
    by_cases eq : q = x
    · exact absurd (eq ▸ he) (hnew p ep hp)
    · rw [pid, update_of_ne ep, update_of_ne eq] at he
      exact h.distinct p q (hold p ep hp) (hold q eq hq) he

theorem start_numbered (h0 : Start s) : Numbered s.tab := by
  obtain ⟨ticks,pat,hb⟩ := h0
  obtain ⟨ls,L,hi,-⟩ := userinitLists_spec True ticks pat
  rw [boot, hi, ok_bind] at hb
  obtain rfl := Except.ok.inj hb
  exact ⟨by simp [bssTable],fun q hq => absurd rfl hq,fun p q hp _ _ => absurd rfl hp⟩

theorem forked_effect {p q : Slot} {n : Uint} (he : Effect s a s' (.forked p q n)) :
    n = s.tab.pid q ∧ s.doing p = .forkCopy q := by
  cases he with
  | forkDone c p np j t hcpu hl hd op => exact ⟨rfl,hd⟩

/-- In every run whose allocations find the counter positive, the pids of the
processes in the table differ and `fork` returns positive values. -/
theorem pids_identify {s₀ : State} {h : List (Action × Event)} (h0 : Start s₀) (hr : Run s₀ h s)
    (hm : Lts.Meets exec s₀ InRange h) :
    (∀ p q, s.tab.state p ≠ .unused → s.tab.state q ≠ .unused → s.tab.pid p = s.tab.pid q →
      p = q) ∧ ∀ x ∈ h, ∀ p q n, x.2 = .forked p q n → 0 < n.toInt := by
  suffices hs : Numbered s.tab ∧ ∀ x ∈ h, ∀ p q n, x.2 = .forked p q n → 0 < n.toInt from
    ⟨hs.1.distinct,hs.2⟩
  induction hr with
  | nil => exact ⟨start_numbered h0,by simp⟩
  | @snoc s₁ s₂ h a e run step ih =>
    obtain ⟨hn,hf⟩ := ih (hm.part (List.prefix_append _ _))
    have hc : Consistent True s₁ :=
      run_consistent (start_consistent h0 True) run (allowed_true h)
    have he := exec_effect step
    refine ⟨numbered_step hn (effect_numbering hc he) (hm _ _ _ (List.prefix_refl _) run),?_⟩
    intro x hx p q n hx2
    rcases List.mem_append.mp hx with hx | hx
    · exact hf x hx p q n hx2
    obtain rfl := List.mem_singleton.mp hx
    obtain rfl : e = .forked p q n := hx2
    obtain ⟨rfl,hd⟩ := forked_effect he
    have hemb : s₁.tab.state q = .embryo := hc.embryo p q (by rw [hd]; rfl)
    have hb := hn.below q (by simp [hemb])
    have hcount := hn.counter
    rw [toInt_pos_iff]
    omega

end Runs

def rangeRun (as : List Action) : Option (List (Action × Event) × State) :=
  match boot 0 0 with
  | .ok s => Lts.replay (Lts.guarded exec InRange) s as
  | .error _ => none

theorem pids_identify_forked : ∃ s₀ h s, Start s₀ ∧ Run s₀ h s ∧ h.map Prod.fst = bootAndFork ∧
    (∃ x ∈ h, ∃ p q n, x.2 = .forked p q n ∧ 0 < n.toInt) ∧
    ∀ p q, s.tab.state p ≠ .unused → s.tab.state q ≠ .unused → s.tab.pid p = s.tab.pid q →
      p = q := by
  have hc : ((rangeRun bootAndFork).any (fun r => decide (∃ x ∈ r.1, ∃ p q,
      x.2 = .forked p q 2))) = true := by decide +kernel
  unfold rangeRun at hc
  split at hc
  · rename_i s₀ hb
    obtain ⟨h,s,hrun,hacts,x,hx,p,q,he⟩ := Lts.replay_reaches (Lts.guarded exec InRange) s₀
      bootAndFork (fun h _ => ∃ x ∈ h, ∃ p q, x.2 = .forked p q 2) hc
    obtain ⟨hrun,hm⟩ := hrun.meets
    obtain ⟨h1,h2⟩ := pids_identify ⟨0,0,hb⟩ hrun hm
    exact ⟨s₀,h,s,⟨0,0,hb⟩,hrun,hacts,⟨x,hx,p,q,2,he,h2 x hx p q 2 he⟩,h1⟩
  · cases hc

section Wrap

variable {s : State} {p : Slot} {n : Uint} {q : Slot}

/-- Process `p` with pid 1 runs outside of system calls, a slot is free, and the
next process gets the number `n`. -/
structure Forker (p : Slot) (n : Uint) (s : State) : Prop where
  placed : ∃ L, Listed True none s.tab L ∧ L .free ≠ []
  runs : s.cpu bootCpu = .running p 0
  state : s.tab.state p = .running
  lock : s.lock = none
  idle : s.doing p = .nothing
  pid : s.tab.pid p = 1
  next : s.tab.nextpid = n

structure Forking (p q : Slot) (n : Uint) (s : State) : Prop where
  placed : ∃ L, Listed True none s.tab L
  runs : s.cpu bootCpu = .running p 0
  state : s.tab.state p = .running
  lock : s.lock = none
  copies : s.doing p = .forkCopy q
  pid : s.tab.pid p = 1
  child : s.tab.state q = .embryo ∧ s.tab.pid q = n
  next : s.tab.nextpid = n+1

theorem fork_begins (h : Forker p n s) : ∃ h' s' q, Run s h' s' ∧ Forking p q n s' := by
  obtain ⟨L,hL,hne⟩ := h.placed
  obtain ⟨q,r,hf⟩ := List.exists_cons_of_ne_nil hne
  have hq : s.tab.state q = .unused := hL.fits .free q (by simp [hf])
  have hpq : p ≠ q := by
    rintro rfl
    rw [h.state] at hq
    cases hq
  obtain ⟨ls,ha,hM⟩ := allocproc_spec hL hf
  have h1 : exec s (.forkAlloc bootCpu) = some (.ok ({ s with
      tab := { s.tab with
        lists := ls
        state := update s.tab.state q .embryo
        pid := update s.tab.pid q s.tab.nextpid
        nextpid := s.tab.nextpid+1 }
      doing := update (update s.doing q .nothing) p (.forkStack q)
      resume := update s.resume q .forkret },.silent)) := by
    simp only [exec, forkStep, onCpu, h.runs, h.idle, if_true, acquire, h.lock, ha, ok_bind]
    rfl
  refine ⟨_,{ s with
      tab := allocprocStack q { s.tab with
        lists := ls
        state := update s.tab.state q .embryo
        pid := update s.tab.pid q s.tab.nextpid
        nextpid := s.tab.nextpid+1 }
      doing := update (update (update s.doing q .nothing) p (.forkStack q)) p (.forkCopy q)
      resume := update s.resume q .forkret },q,Lts.Run.cons h1 (Lts.Run.snoc .nil
    (a := .forkStack bootCpu true) (e := .silent) ?_),?_⟩
  · simp [exec, forkStep, onCpu, h.runs]
  refine ⟨⟨_,allocprocStack_listed (p := q) (hM.congr rfl rfl rfl) (by simp)⟩,h.runs,?_,h.lock,?_,?_,
    ⟨?_,?_⟩,?_⟩
  · simp [allocprocStack, hpq, h.state]
  · simp
  · simp [allocprocStack, hpq, h.pid]
  · simp [allocprocStack]
  all_goals simp [allocprocStack, h.next]

theorem fork_gives_up (h : Forking p q n s) : ∃ h' s', Run s h' s' ∧ Forker p (n+1) s' := by
  obtain ⟨L,hL⟩ := h.placed
  have hpq : p ≠ q := by
    rintro rfl
    have := h.child.1
    rw [h.state] at this
    cases this
  obtain ⟨ls,ha,hM⟩ := forkAbort_spec hL h.child.1
  have h1 : exec s (.forkAbort bootCpu) = some (.ok ({ s with
      tab := { s.tab with
        lists := ls
        kstack := update s.tab.kstack q false
        state := update s.tab.state q .unused }
      doing := update s.doing p .nothing },.silent)) := by
    simp only [exec, forkStep, onCpu, h.runs, h.copies, acquire, h.lock, ha, ok_bind]
    rfl
  refine ⟨_,_,Lts.Run.snoc .nil h1,⟨_,hM.congr rfl rfl rfl,?_⟩,h.runs,?_,h.lock,?_,h.pid,h.next⟩
  · simp [moveFront]
  · simp [hpq, h.state]
  · simp

theorem fork_returns (h : Forking p q n s) :
    ∃ s', exec s (.forkDone bootCpu) = some (.ok (s',.forked p q n)) := by
  obtain ⟨L,hL⟩ := h.placed
  obtain ⟨ls,ha,-⟩ := forkDone_spec (p := p) hL h.child.1
  refine ⟨{ s with
    tab := { forkFill p q s.tab with lists := ls, state := update s.tab.state q .runnable }
    doing := update s.doing p .nothing },?_⟩
  simp only [exec, forkStep, onCpu, h.runs, h.copies, acquire, h.lock, ha, ok_bind, h.child.2]
  rfl

theorem counter_reaches (k : ℕ) (h : Forker p n s) :
    ∃ h' s', Run s h' s' ∧ Forker p (n+BitVec.ofNat 32 k) s' := by
  induction k with
  | zero => exact ⟨[],s,.nil,by simpa using h⟩
  | succ k ih =>
    obtain ⟨h₁,s₁,run₁,hf₁⟩ := ih
    obtain ⟨h₂,s₂,q,run₂,hf₂⟩ := fork_begins hf₁
    obtain ⟨h₃,s₃,run₃,hf₃⟩ := fork_gives_up hf₂
    refine ⟨_,s₃,(run₁.append run₂).append run₃,?_⟩
    rwa [BitVec.ofNat_add, ← BitVec.add_assoc]

end Wrap

def bootFirst : List Action := bootAndFork.take 6

theorem forker_reached : ∃ s₀ h s p, Start s₀ ∧ Run s₀ h s ∧ Forker p 2 s := by
  obtain ⟨s₀,h,s,h0,hrun,-,p,⟨h1,h2,h3,h4,h5⟩,h6,h7⟩ := bootRun_reaches bootFirst
    (fun _ s => ∃ p, (s.cpu bootCpu = .running p 0 ∧ s.tab.state p = .running ∧ s.lock = none ∧
      s.doing p = .nothing ∧ s.tab.pid p = 1) ∧ s.tab.nextpid = 2 ∧ s.tab.lists.head .free ≠ none)
    (by decide +kernel)
  obtain ⟨L,hL⟩ := (run_consistent (start_consistent h0 True) hrun (allowed_true h)).placed
  refine ⟨s₀,h,s,p,h0,hrun,⟨⟨L,hL,fun hn => h7 ?_⟩,h1,h2,h3,h4,h5,h6⟩⟩
  rw [(hL.rep.queue .free).head_eq, hn]
  rfl

/-- After 2^32-1 failing forks a new process gets the pid of the running init,
and after 2^31-2 of them a fork that succeeds returns a negative value. -/
theorem pids_wrap : (∃ s₀ h s p q, Start s₀ ∧ Run s₀ h s ∧ p ≠ q ∧ s.tab.state p = .running ∧
      s.tab.state q = .embryo ∧ s.tab.pid p = s.tab.pid q) ∧
    ∃ s₀ h s x p q n, Start s₀ ∧ Run s₀ h s ∧ x ∈ h ∧ x.2 = .forked p q n ∧ n.toInt < 0 := by
  obtain ⟨s₀,h,s,p,h0,hrun,hf⟩ := forker_reached
  constructor
  · obtain ⟨h₁,s₁,run₁,hf₁⟩ := counter_reaches (2^32-1) hf
    obtain ⟨h₂,s₂,q,run₂,hf₂⟩ := fork_begins hf₁
    refine ⟨s₀,_,s₂,p,q,h0,(hrun.append run₁).append run₂,?_,hf₂.state,hf₂.child.1,?_⟩
    · rintro rfl
      have := hf₂.child.1
      rw [hf₂.state] at this
      cases this
    · rw [hf₂.pid, hf₂.child.2]
      decide
  · obtain ⟨h₁,s₁,run₁,hf₁⟩ := counter_reaches (2^31-2) hf
    obtain ⟨h₂,s₂,q,run₂,hf₂⟩ := fork_begins hf₁
    obtain ⟨s₃,step⟩ := fork_returns hf₂
    refine ⟨s₀,_,s₃,(.forkDone bootCpu,.forked p q (2+BitVec.ofNat 32 (2^31-2))),p,q,_,h0,
      ((hrun.append run₁).append run₂).snoc step,?_,rfl,by decide⟩
    exact List.mem_append_right _ (List.mem_singleton.mpr rfl)

end Yeet.Pids
