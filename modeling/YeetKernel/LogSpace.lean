import YeetKernel.LogGroup

/-!
# Admission control and the size of the log

`begin_op` admits three operations of ten blocks each to a log of thirty
blocks, but the log that `mkfs` lays out has room for twenty-nine beside its
header, and `log_write` tests for room before it looks for the block.
-/

namespace Yeet.LogSpace
open Kernel LogOps LogGroup Function

variable {P : Type} [DecidableEq P] {h : List (Action P × Event P)} {s : State P} {n : ℕ}

def Modest (m : ℕ) (h : List (Action P × Event P)) : Prop :=
  ∀ h₁ ∈ h.inits, ∀ p, ((ledger h₁).mine p).length ≤ m

instance [Fintype P] (m : ℕ) (h : List (Action P × Event P)) : Decidable (Modest m h) :=
  inferInstanceAs (Decidable (∀ h₁ ∈ h.inits, ∀ p, ((ledger h₁).mine p).length ≤ m))

theorem Modest.snoc {m : ℕ} {x : Action P × Event P}
    (hm : Modest m (h++[x])) : Modest m h ∧ ∀ p, ((ledger (h++[x])).mine p).length ≤ m := by
  constructor
  · intro h₁ hh
    have hp : h₁ <+: h := (List.mem_inits h₁ h).mp hh
    exact hm h₁ ((List.mem_inits _ _).mpr (hp.trans (List.prefix_append h [x])))
  · exact hm _ ((List.mem_inits _ _).mpr (List.prefix_refl _))

/-- What `p` may still add to the log, if operations keep to `m` blocks. -/
def allowance (m : ℤ) (l : Ledger P) (s : State P) (p : P) : ℤ :=
  if inside (s.ctl p) then m-(l.mine p).length else 0

section Step

variable [Fintype P] {l : Ledger P} {s s' : State P} {e : Event P} {k : Ctl} {p : P}
variable {l' : Ledger P}

/-- The blocks of open operations are in the log, and the log with all that
they may still add stays below the limit of `log_write`. -/
structure Roomy (l : Ledger P) (s : State P) : Prop where
  mine : ∀ p, inside (s.ctl p) = true → ∀ b ∈ l.mine p, b ∈ s.lh
  room : (s.lh.length : ℤ)+∑ p, allowance 9 l s p ≤ 28

theorem allowance_move (hs : s'.ctl = update s.ctl p k) (hl : ∀ q, q ≠ p → l'.mine q = l.mine q) :
    ∑ q, allowance 9 l' s' q = ∑ q, allowance 9 l s q-allowance 9 l s p+allowance 9 l' s' p := by
  refine Tally.sum_off (fun q hq => ?_)
  rw [allowance, allowance, hs, update_of_ne hq, hl q hq]

omit [DecidableEq P] in
theorem sum_allowance_le (l : Ledger P) (s : State P) :
    ∑ p, allowance 9 l s p ≤ 9*inProgress s := by
  rw [inProgress, Finset.mul_sum]
  refine Finset.sum_le_sum (fun p _ => ?_)
  unfold allowance weight
  split <;> omega

theorem Roomy.leave (h : Roomy l s) (hl : l'.mine = l.mine)
    (hs : s'.ctl = update s.ctl p k) (hk : inside k = true → inside (s.ctl p) = true)
    (hm : (l.mine p).length ≤ 9) (hlh : s'.lh = s.lh) : Roomy l' s' := by
  have hin : ∀ q, inside (s'.ctl q) = true → inside (s.ctl q) = true := by
    intro q hq
    rw [hs] at hq
    by_cases e : q = p
    · rw [e, update_self] at hq
      exact e ▸ hk hq
    · rwa [update_of_ne e] at hq
  refine ⟨fun q hq => hlh ▸ hl ▸ h.mine q (hin q hq),?_⟩
  have hle : allowance 9 l' s' p ≤ allowance 9 l s p := by
    have := hin p
    unfold allowance
    rw [hl]
    split
    · rw [if_pos (this ‹_›)]
    · split <;> omega
  have hroom := h.room
  rw [allowance_move (l := l) (s := s) hs (fun q _ => by rw [hl]), hlh]
  omega

theorem Roomy.logs (h : Roomy l s) {b : Uint} {r : List Uint}
    (hin : inside (s.ctl p) = true) (hr : ∀ c, c ∈ s.lh ∨ c = b → c ∈ r)
    (hlen : r.length+(l.mine p).length ≤ s.lh.length+((l.mine p).insert b).length) :
    Roomy (note l (.logged p b)) { s.goto p .inOp with lh := r } := by
  refine ⟨fun q hq c hcm => ?_,?_⟩
  · by_cases e : q = p
    · subst e
      simp only [note, update_self] at hcm
      exact hr c ((List.mem_insert_iff.mp hcm).symm.imp_left (h.mine q hin c))
    · simp only [note, update_of_ne e] at hcm
      simp only [goto_ctl, update_of_ne e] at hq
      exact hr c (Or.inl (h.mine q hq c hcm))
  rw [allowance_move (l := l) (s := s) (p := p) (k := .inOp) rfl (fun q hq => by simp [note, hq])]
  have h1 : allowance 9 l s p = 9-(l.mine p).length := by simp [allowance, hin]
  have h2 : allowance 9 (note l (.logged p b)) { s.goto p .inOp with lh := r } p =
      9-((l.mine p).insert b).length := by simp [allowance, note, inside]
  have h4 := h.room
  rw [h1, h2]
  dsimp only
  omega

theorem effect_roomy (hg : Grouped l s) (h : Roomy l s) (he : Effect s s' e)
    (hm : ∀ p, (l.mine p).length ≤ 9) (hm' : ∀ p, ((note l e).mine p).length ≤ 9) :
    Roomy (note l e) s' := by
  cases he with
  | slept p => exact h
  | began p hc hcm room =>
    refine ⟨fun q hq b hb => ?_,?_⟩
    · by_cases e : q = p
      · simp [e, note] at hb
      · simp only [note, update_of_ne e] at hb
        simp only [goto_ctl, update_of_ne e] at hq
        exact h.mine q hq b hb
    rw [allowance_move (l := l) (s := s) (p := p) (k := .inOp) rfl
      (fun q hq => by simp [note, hq])]
    have h1 := sum_allowance_le l s
    have h2 := hg.count
    have h3 : allowance 9 l s p = 0 := by simp [allowance, hc, inside]
    have h4 : allowance 9 (note l (.began p))
        { s.goto p .inOp with outstanding := s.outstanding+1 } p = 9 := by
      simp [allowance, note, inside]
    have hroom : (s.lh.length : ℤ)+(s.outstanding+1)*10 ≤ 30 := room
    rw [h3, h4]
    by_cases h0 : s.outstanding = 0
    · have := hg.clean h0 hcm
      simp only [goto_lh, this, List.length_nil]
      omega
    · have h5 : 0 ≤ inProgress s := Finset.sum_nonneg (fun q _ => weight_nonneg _)
      simp only [goto_lh]
      omega
  | passed p b hc => exact h.leave (p := p) rfl rfl (by simp [hc, inside]) (hm p) rfl
  | absorbed p b hc hb =>
    refine h.logs (by rw [hc]; rfl) (fun c hx => ?_) ?_
    · rcases hx with hx | rfl
      · exact hx
      · exact hb
    · have h3 : (l.mine p).length ≤ ((l.mine p).insert b).length := List.length_le_length_insert
      omega
  | appended p b hc hb =>
    have hin : inside (s.ctl p) = true := by rw [hc]; rfl
    have hnew : b ∉ l.mine p := fun hx => hb (h.mine p hin b hx)
    refine h.logs hin (fun c => by simp) ?_
    rw [List.length_insert_of_not_mem hnew, List.length_append, List.length_singleton]
    omega
  | closed p hc hcm last | ended p hc hcm more | committed p hc =>
    exact h.leave (p := p) rfl rfl (by simp [inside]) (hm p) rfl
  | moved p c c' _ hc hlater hempty hnote =>
    rw [hnote]
    exact h.leave (p := p) rfl rfl (by simp [inside]) (hm p) rfl
  | emptied p hc =>
    have hq : Roomy l (s.goto p (.committing .clearHead)) :=
      h.leave (p := p) rfl rfl (by simp [inside]) (hm p) rfl
    refine ⟨fun q hin => ?_,?_⟩
    · have hcm := hg.quiet (hg.flag p _ hc) q
      by_cases e : q = p
      · simp [e, inside] at hin
      · simp only [goto_ctl, update_of_ne e, hcm] at hin
        cases hin
    · show ((0 : ℕ) : ℤ)+∑ q, allowance 9 l (s.goto p (.committing .clearHead)) q ≤ 28
      have := hq.room
      omega

end Step

omit [DecidableEq P] in
theorem initial_roomy [Fintype P] (n : ℕ) : Roomy emptyLedger (initial P n) := by
  refine ⟨fun p hp => (by cases hp),?_⟩
  simp [initial, allowance, inside]

theorem run_roomy [Fintype P]
    (hr : Run (initial P n) h s) (hm : Modest 9 h) : Roomy (ledger h) s := by
  induction hr with
  | nil => exact initial_roomy n
  | snoc run step ih =>
    obtain ⟨hm₁,hm₂⟩ := hm.snoc
    have hm₀ := hm₁ _ ((List.mem_inits _ _).mpr (List.prefix_refl _))
    rw [ledger_snoc] at hm₂ ⊢
    exact effect_roomy (run_grouped run) (ih hm₁) (exec_effect step) hm₀ hm₂

theorem exec_size {s s' : State P} {a : Action P} {e : Event P}
    (h : exec s a = some (.ok (s',e))) : s'.size = s.size := by
  cases exec_effect h <;> rfl

theorem run_size (hr : Run (initial P n) h s) : s.size = n :=
  hr.invariant (fun _ s => s.size = n) rfl (fun _ _ _ _ _ hi hx => (exec_size hx).trans hi)

def logged (h : List (Action P × Event P)) : List Uint := ((ledger h).blocks.map Prod.snd).dedup

omit [DecidableEq P] in
theorem length_lh [Fintype P] {l : Ledger P} {s : State P} (hg : Grouped l s) {p : P}
    (hp : inside (s.ctl p) = true) : s.lh.length = (l.blocks.map Prod.snd).dedup.length := by
  have hb := hg.blocks (hg.no_emptied (hg.not_committing hp))
  refine ((List.perm_ext_iff_of_nodup hg.nodup (List.nodup_dedup _)).mpr (fun b => ?_)).length_eq
  rw [hb b, List.mem_dedup]
  simp

theorem logWrite_panic_iff {p : P} (b : Uint) (hsize : s.size = 30)
    (hc : s.ctl p = .inOp) : exec s (.logWrite p b) =
      some (.error (.panic "too big a transaction")) ↔ 29 ≤ s.lh.length := by
  simp only [exec, logWrite, hc, hsize]
  by_cases hn : 29 ≤ s.lh.length
  · rw [if_pos (Or.inr (by omega))]
    simp [hn]
  · rw [if_neg (by unfold LOGSIZE MAXOPBLOCKS; omega)]
    simp only [hn, iff_false]
    split <;> simp

/-- `log_write` panics exactly at the twenty-ninth distinct block of the
transaction, which operations of at most nine distinct blocks never reach. -/
theorem log_overflow_iff [Fintype P] {h : List (Action P × Event P)} {s : State P}
    (hr : Run (initial P nlog) h s) :
    (∀ p b, s.ctl p = .inOp → (exec s (.logWrite p b) =
      some (.error (.panic "too big a transaction")) ↔ 29 ≤ (logged h).length)) ∧
    (Modest (MAXOPBLOCKS-1) h → ∀ p b, exec s (.logWrite p b) ≠
      some (.error (.panic "too big a transaction"))) := by
  have hsize : s.size = 30 := run_size hr
  refine ⟨fun p b hc => ?_,fun hm p b hx => ?_⟩
  · rw [logWrite_panic_iff b hsize hc, length_lh (run_grouped hr) (p := p) (by rw [hc]; rfl),
      logged]
  have hc : s.ctl p = .inOp := by
    simp only [exec, logWrite] at hx
    split at hx
    · assumption
    · cases hx
  have hroom := (run_roomy hr hm).room
  have hnonneg : 0 ≤ ∑ q, allowance 9 (ledger h) s q := by
    refine Finset.sum_nonneg (fun q _ => ?_)
    have : _ ≤ 9 := hm h ((List.mem_inits _ _).mpr (List.prefix_refl _)) q
    unfold allowance
    split <;> omega
  have := (logWrite_panic_iff b hsize hc).mp hx
  omega

/-- Three operations that log `total` blocks, `each` of them up to its share. -/
def fill (each total : ℕ) : List (Action (Fin 3)) :=
  [.beginOp 0,.beginOp 1,.beginOp 2]++((List.range total).map (fun k =>
    [.logWrite (Fin.ofNat 3 (k/each)) (60+BitVec.ofNat 32 k),
      .absorb (Fin.ofNat 3 (k/each))])).flatten

theorem log_overflow_iff_fill : ∃ h s, Run (initial (Fin 3) nlog) h s ∧
    h.map Prod.fst = fill 9 27 ∧ Modest (MAXOPBLOCKS-1) h ∧ s.ctl 2 = .inOp ∧
    (logged h).length = 27 ∧
    ∀ p b, exec s (.logWrite p b) ≠ some (.error (.panic "too big a transaction")) := by
  obtain ⟨h,s,hrun,hacts,hm,hc,hlen⟩ := Lts.replay_reaches exec (initial (Fin 3) nlog)
    (fill 9 27) (fun h s => Modest (MAXOPBLOCKS-1) h ∧ s.ctl 2 = .inOp ∧ (logged h).length = 27)
    (by decide +kernel)
  exact ⟨h,s,hrun,hacts,hm,hc,hlen,(log_overflow_iff hrun).2 hm⟩

/-- Two operations fill their reservations and the third logs nine blocks:
its tenth block is one too many for `log_write`. -/
theorem log_overflows : ∃ h s, Run (initial (Fin 3) nlog) h s ∧
    h.map Prod.fst = fill 10 29 ∧ Modest MAXOPBLOCKS h ∧
    (((ledger h).mine 2).insert 89).length ≤ MAXOPBLOCKS ∧
    exec s (.logWrite 2 89) = some (.error (.panic "too big a transaction")) := by
  obtain ⟨h,s,hrun,hacts,hm,hmine,hc,hlen⟩ :=
    Lts.replay_reaches exec (initial (Fin 3) nlog) (fill 10 29)
      (fun h s => Modest MAXOPBLOCKS h ∧ (((ledger h).mine 2).insert 89).length ≤ MAXOPBLOCKS ∧
        s.ctl 2 = .inOp ∧ 29 ≤ s.lh.length) (by decide +kernel)
  exact ⟨h,s,hrun,hacts,hm,hmine,(logWrite_panic_iff 89 (run_size hrun) hc).mpr hlen⟩

end Yeet.LogSpace
