import YeetKernel.Clocked

/-!
# The period of the promotions

`promoteAtTime` is the 32-bit sum of the clock and the period, and it is
compared with the 32-bit clock. The comparison tells the true order as long
as deadline and clock are in the same round of the counter. A deadline in
the next round has passed at once.
-/

namespace Yeet.Clocked
open Kernel ProcSpec ProcPrio ProcStep ProcControl ProcEffect ProcInvariant

/-- The counter and the deadline are the true ones modulo 2^32. -/
structure Clock (x : Timed) : Prop where
  ticks : x.sys.tab.ticks = BitVec.ofNat 32 x.now
  past : ∀ T, x.last = some T → T ≤ x.now
  deadline : ∀ T, x.last = some T → x.sys.tab.promoteAtTime = BitVec.ofNat 32 T+TICKS_TO_PROMOTE

section Step

variable {x : Timed} {a : Action} {e : Event} {s : State}

theorem note_now (ha : a ≠ .tick) : (note x a s e).now = x.now := if_neg ha

theorem note_last (h₁ : a ≠ .userinitReady) (h₂ : passes a → ¬ Due x.sys.tab) :
    (note x a s e).last = x.last :=
  if_neg (fun hc => hc.elim h₁ (fun hp => h₂ hp.1 hp.2))

theorem note_restart (h : a = .userinitReady ∨ passes a ∧ Due x.sys.tab) :
    (note x a s e).last = some x.now := if_pos h

theorem Plain.now (h : Plain x.sys a e) : (note x a s e).now = x.now := note_now h.1

theorem Plain.last (h : Plain x.sys a e) : (note x a s e).last = x.last :=
  note_last h.2.1 h.2.2.1

theorem Clock.steady (h : Clock x) (hst : Steady x.sys.tab s.tab)
    (hn : (note x a s e).now = x.now) (hl : (note x a s e).last = x.last) :
    Clock (note x a s e) := by
  refine ⟨?_,?_,?_⟩
  · rw [hn]
    exact hst.ticks.trans h.ticks
  · rw [hn, hl]
    exact h.past
  · rw [hl]
    exact fun T hT => hst.deadline.trans (h.deadline T hT)

theorem Clock.restart (h : Clock x) (ht : s.tab.ticks = x.sys.tab.ticks)
    (hd : s.tab.promoteAtTime = x.sys.tab.ticks+TICKS_TO_PROMOTE)
    (hn : (note x a s e).now = x.now) (hl : (note x a s e).last = some x.now) :
    Clock (note x a s e) := by
  refine ⟨?_,?_,?_⟩
  · rw [hn]
    exact ht.trans h.ticks
  · rw [hn, hl]
    rintro T ⟨rfl⟩
    exact le_rfl
  · rw [hl]
    rintro T ⟨rfl⟩
    exact hd.trans (by rw [h.ticks])

theorem entry_clock (h : Clock x) (he : Entry x.sys a e x.sys.tab s.tab) :
    Clock (note x a s e) := by
  cases he with
  | tick ha he hu =>
    subst ha
    have hl : (note x .tick s e).last = x.last := note_last (by simp) (by simp [passes])
    have ht : s.tab.ticks = x.sys.tab.ticks+1 := by rw [hu]
    have hd : s.tab.promoteAtTime = x.sys.tab.promoteAtTime := by rw [hu]
    refine ⟨?_,fun T hT => ?_,fun T hT => ?_⟩
    · simp only [note, if_true]
      rw [ht, h.ticks, BitVec.ofNat_add]
      rfl
    · rw [hl] at hT
      exact (h.past T hT).trans (by simp [note])
    · rw [hl] at hT
      exact hd.trans (h.deadline T hT)
  | first p ha he hc ticks deadline state budget since =>
    subst ha
    exact h.restart ticks deadline (note_now (by simp)) (note_restart (Or.inl rfl))
  | pass c L ha he due placed hp =>
    subst ha
    exact h.restart (by rw [hp.same]) (by rw [hp.same]) (note_now (by simp))
      (note_restart (Or.inr ⟨rfl,due⟩))
  | dispatch c p l ha he hp ticks deadline state budget since =>
    subst ha
    have hl : (note x (.schedNext c) s e).last = x.last := note_last (by simp) (by simp [passes])
    have hn : (note x (.schedNext c) s e).now = x.now := note_now (by simp)
    exact ⟨by rw [hn]; exact ticks.trans h.ticks,by rw [hn, hl]; exact h.past,
      by rw [hl]; exact fun T hT => deadline.trans (h.deadline T hT)⟩
  | out p hsw hn hp st hst steady state budget priority =>
    exact h.steady steady (note_now hn.1) (note_last hn.2.1 (by simp [hn.2.2.1]))
  | refresh p plain hr steady live budget | quiet plain hr steady live budget =>
    exact h.steady steady plain.now plain.last

end Step

section Runs

variable {x₀ x y : Timed} {h : List (Action × Event)} {a : Action} {e : Event} {c : Cpu}

theorem step_entry (hc : Consistent True x.sys) (hx : exec x a = some (.ok (y,e))) :
    ∃ s, y = note x a s e ∧ Entry x.sys a e x.sys.tab s.tab := by
  obtain ⟨s,hs,rfl⟩ := exec_eq_ok hx
  exact ⟨s,rfl,effect_entry hc (exec_effect hs)⟩

theorem run_clock (h0 : Start x₀) (hr : Run x₀ h x) : Clock x := by
  induction hr with
  | nil =>
    refine ⟨?_,?_,?_⟩
    · rw [h0.2.1, BitVec.ofNat_toNat, BitVec.setWidth_eq]
    · simp [h0.2.2]
    · simp [h0.2.2]
  | snoc run step ih =>
    obtain ⟨s,rfl,he⟩ := step_entry (run_consistent_sys h0 run) step
    exact entry_clock ih he

def period : ℕ := TICKS_TO_PROMOTE.toNat

/-- The deadline that follows time `T` and the time `n` are in the same round
of the counter, or `n` is in a later one and not below the deadline in it. -/
def InStep (T n : ℕ) : Prop :=
  (T+period)/2^32 = n/2^32 ∨ (T+period)/2^32 < n/2^32 ∧ (T+period)%2^32 ≤ n%2^32

theorem due_iff (hx : Clock x) {T : ℕ} (hT : x.last = some T) :
    Due x.sys.tab ↔ (T+period)%2^32 ≤ x.now%2^32 := by
  have hd : x.sys.tab.promoteAtTime.toNat = (T+period)%2^32 := by
    rw [hx.deadline T hT, BitVec.toNat_add, BitVec.toNat_ofNat, Nat.mod_add_mod]
    rfl
  rw [Due, BitVec.not_lt, BitVec.le_def, hd, hx.ticks, BitVec.toNat_ofNat]

theorem test_exact_iff {T n : ℕ} (h : T ≤ n) :
    (((T+period)%2^32 ≤ n%2^32) ↔ T+period ≤ n) ↔ InStep T n := by
  have hp : period = 4000 := by decide
  rw [InStep, hp]
  omega

/-- A scheduler pass at time `x.now`, where the last promotion or `userinit` was
at time `T`, promotes exactly if the period has gone by, exactly if deadline
and clock are in step. What a pass does is a promotion or nothing. -/
theorem promotion_period_iff (h0 : Start x₀) (hr : Run x₀ h x)
    (hx : exec x (.schedBegin c) = some (.ok (y,e))) {T : ℕ} (hT : x.last = some T) :
    (Due x.sys.tab → y.last = some x.now ∧
      ∃ L, Listed True none x.sys.tab L ∧ Promoted x.sys.tab y.sys.tab L) ∧
    (¬ Due x.sys.tab → y.last = some T ∧ y.sys.tab = x.sys.tab) ∧
    ((Due x.sys.tab ↔ period ≤ x.now-T) ↔ InStep T x.now) := by
  have hclock := run_clock h0 hr
  have hpast := hclock.past T hT
  have hcons := run_consistent_sys h0 hr
  refine ⟨fun hdue => ?_,fun hdue => ?_,?_⟩
  · obtain ⟨s,rfl,he⟩ := step_entry hcons hx
    refine ⟨note_restart (Or.inr ⟨rfl,hdue⟩),?_⟩
    cases he with
    | pass c' L ha he due placed hp => exact ⟨L,placed,hp⟩
    | tick ha | first p ha | dispatch c p l ha => cases ha
    | out p hsw hn => exact absurd hn.2.2.1 (by simp [passes])
    | refresh p plain | quiet plain => exact absurd hdue (plain.2.2.1 rfl)
  · obtain ⟨s,hs,rfl⟩ := exec_eq_ok hx
    refine ⟨(note_last (by simp) (fun _ => hdue)).trans hT,?_⟩
    cases exec_effect hs with
    | schedBegin _ t hc hl op =>
      exact (Except.ok.inj ((promoteAll_early (not_not.mp hdue)).symm.trans op)).symm
  · rw [due_iff hclock hT, ← test_exact_iff hpast]
    have hsub : period ≤ x.now-T ↔ T+period ≤ x.now := by omega
    rw [hsub]

end Runs

section Boot

def Timed.later (x : Timed) (n : ℕ) : Timed :=
  { x with
    sys := { x.sys with tab := { x.sys.tab with ticks := x.sys.tab.ticks+BitVec.ofNat 32 n } }
    now := x.now+n }

theorem later_run (x : Timed) (n : ℕ) : Run x (List.replicate n (.tick,.silent)) (x.later n) := by
  induction n with
  | zero =>
    have h0 : x.later 0 = x := by simp [Timed.later]
    rw [h0]
    exact .nil
  | succ n ih =>
    rw [List.replicate_succ']
    refine ih.snoc ?_
    have hadd : x.sys.tab.ticks+BitVec.ofNat 32 n+1 = x.sys.tab.ticks+BitVec.ofNat 32 (n+1) := by
      rw [BitVec.ofNat_add, BitVec.add_assoc]
      rfl
    simp only [exec, ProcStep.exec, Timed.later, note, if_true, lastAfter, sinceAfter,
      chargedAfter, switched, refreshed, passes, hadd]
    simp [Nat.add_assoc]

def timed (s : State) : Timed := ⟨s,s.tab.ticks.toNat,none,fun _ => 0,fun _ => 0⟩

def lateRun (as : List Action) (n : ℕ) (bs : List Action) : Option Timed :=
  match boot 0 0 with
  | .ok s =>
    match Lts.replay exec (timed s) as with
    | some r => (Lts.replay exec (r.2.later n) bs).map Prod.snd
    | none => none
  | .error _ => none

theorem lateRun_reaches (as : List Action) (n : ℕ) (bs : List Action) (C : Timed → Prop)
    [∀ x, Decidable (C x)] (hc : ((lateRun as n bs).any (fun x => decide (C x))) = true) :
    ∃ x₀ h x, Start x₀ ∧ x₀.now = 0 ∧ Run x₀ h x ∧ h.length ≤ as.length+n+bs.length ∧ C x := by
  unfold lateRun at hc
  split at hc
  · rename_i s hs
    split at hc
    · rename_i r hr
      obtain ⟨run₁,hacts⟩ := Lts.replay_spec hr
      obtain ⟨h₂,x,run₂,hacts₂,hx⟩ := Lts.replay_reaches exec (r.2.later n) bs (fun _ x => C x) (by
        cases hx : Lts.replay exec (r.2.later n) bs with
        | none => simp [hx] at hc
        | some q => simpa [hx] using hc)
      have ht : s.tab.ticks = 0 := by
        obtain ⟨ls,L,hi,-⟩ := userinitLists_spec True 0 0
        rw [boot, hi, ok_bind] at hs
        obtain rfl := Except.ok.inj hs
        rfl
      refine ⟨timed s,_,x,⟨⟨0,0,hs⟩,rfl,rfl⟩,by simp [timed, ht],
        (run₁.append (later_run r.2 n)).append run₂,?_,hx⟩
      have h1 := congrArg List.length hacts
      have h2 := congrArg List.length hacts₂
      simp only [List.length_map, List.length_append, List.length_replicate] at h1 h2 ⊢
      omega
    · cases hc
  · cases hc

def firstBoot : List Action := [.userinitAlloc,.userinitStack true,.userinitReady]

def nextCpu : Cpu := Fin.ofNat 8 1

theorem promotion_period_early : ∃ x₀ h x y e T, Start x₀ ∧ Run x₀ h x ∧
    exec x (.schedBegin nextCpu) = some (.ok (y,e)) ∧ x.last = some T ∧ x.now = 5000 ∧ T = 5000 ∧
    InStep T x.now ∧ (Due x.sys.tab ↔ period ≤ x.now-T) := by
  obtain ⟨x₀,h,x,h0,-,hr,-,hlast,hnow,hok⟩ := lateRun_reaches firstBoot 5000
    [.schedBegin bootCpu,.schedNext bootCpu,.resume bootCpu]
    (fun x => x.last = some 5000 ∧ x.now = 5000 ∧
      ((exec x (.schedBegin nextCpu)).any (fun r => r.toOption.isSome)) = true) (by decide +kernel)
  cases hx : exec x (.schedBegin nextCpu) with
  | none => simp [hx] at hok
  | some r =>
    cases r with
    | error f => simp [hx, Except.toOption] at hok
    | ok r =>
      have hs : InStep 5000 x.now := by
        rw [hnow]
        exact Or.inl (by decide)
      exact ⟨x₀,h,x,r.1,r.2,5000,h0,hr,hx,hlast,hnow,rfl,hs,
        (promotion_period_iff h0 hr hx hlast).2.2.mpr hs⟩

/-- At time 2^32 - 4000 a pass promotes; the deadline wraps to zero and the next
pass promotes again, no tick later. -/
theorem promotion_repeated : ∃ x₀ h x y e T, Start x₀ ∧ x₀.now = 0 ∧ Run x₀ h x ∧
    exec x (.schedBegin nextCpu) = some (.ok (y,e)) ∧ x.last = some T ∧ x.now = T ∧
    Due x.sys.tab ∧ ¬ (Due x.sys.tab ↔ period ≤ x.now-T) := by
  obtain ⟨x₀,h,x,h0,hz,hr,-,hlast,hnow,hdue,hok⟩ := lateRun_reaches firstBoot (2^32-4000)
    [.schedBegin bootCpu,.schedNext bootCpu,.resume bootCpu]
    (fun x => x.last = some (2^32-4000) ∧ x.now = 2^32-4000 ∧ Due x.sys.tab ∧
      ((exec x (.schedBegin nextCpu)).any (fun r => r.toOption.isSome)) = true) (by decide +kernel)
  cases hx : exec x (.schedBegin nextCpu) with
  | none => simp [hx] at hok
  | some r =>
    cases r with
    | error f => simp [hx, Except.toOption] at hok
    | ok r =>
      refine ⟨x₀,h,x,r.1,r.2,2^32-4000,h0,hz,hr,hx,hlast,hnow,hdue,fun hiff => ?_⟩
      have := hiff.mp hdue
      rw [hnow, Nat.sub_self] at this
      exact absurd this (by decide)

end Boot

end Yeet.Clocked
