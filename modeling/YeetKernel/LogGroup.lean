import YeetKernel.LogOps
import YeetKernel.Tally

/-!
# Group commit

The step lemma lists the ways in which an action succeeds; the invariant
relates the log to the ledger of the events.
-/

namespace Yeet.LogGroup
open Kernel LogOps Function

variable {P : Type} [DecidableEq P] {s s' : State P} {e : Event P}

def inside : Ctl → Bool
  | .inOp => true
  | .writing _ => true
  | _ => false

def emptied : Ctl → Bool
  | .committing .clearHead => true
  | .committing .leave => true
  | _ => false

inductive Effect (s : State P) : State P → Event P → Prop where
  | slept (p : P) : Effect s s (.slept p)
  | began (p : P) (hc : s.ctl p = .outside) (hcm : s.committing = false)
      (room : (s.lh.length : ℤ)+(s.outstanding+1)*MAXOPBLOCKS ≤ LOGSIZE) :
      Effect s { s.goto p .inOp with outstanding := s.outstanding+1 } (.began p)
  | passed (p : P) (b : Uint) (hc : s.ctl p = .inOp) :
      Effect s (s.goto p (.writing b)) (.passed p b)
  | absorbed (p : P) (b : Uint) (hc : s.ctl p = .writing b) (hb : b ∈ s.lh) :
      Effect s (s.goto p .inOp) (.logged p b)
  | appended (p : P) (b : Uint) (hc : s.ctl p = .writing b) (hb : b ∉ s.lh) :
      Effect s { s.goto p .inOp with lh := s.lh++[b] } (.logged p b)
  | closed (p : P) (hc : s.ctl p = .inOp) (hcm : s.committing = false)
      (last : s.outstanding-1 = 0) :
      Effect s { s.goto p (.committing .enter) with outstanding := 0, committing := true } (.ended p)
  | ended (p : P) (hc : s.ctl p = .inOp) (hcm : s.committing = false) (more : s.outstanding-1 ≠ 0) :
      Effect s { s.goto p .outside with outstanding := s.outstanding-1 } (.ended p)
  | moved (p : P) (c c' : Commit) (e : Event P) (hc : s.ctl p = .committing c)
      (hlater : emptied (.committing c) → emptied (.committing c'))
      (hempty : emptied (.committing c') → emptied (.committing c) ∨ s.lh = [])
      (hnote : ∀ l : Ledger P, note l e = l) : Effect s (s.goto p (.committing c')) e
  | emptied (p : P) (hc : s.ctl p = .committing .empty) :
      Effect s { s.goto p (.committing .clearHead) with lh := [] } (.advanced p)
  | committed (p : P) (hc : s.ctl p = .committing .leave) :
      Effect s { s.goto p .outside with committing := false } (.committed p)

theorem commit_effect {p : P} (h : commit s p = some (.ok (s',e))) : Effect s s' e := by
  unfold commit at h
  split at h
  · rename_i hc
    cases h
    refine .moved p .enter _ _ hc (by simp [emptied]) (fun he => Or.inr ?_) (fun _ => rfl)
    by_contra hne
    rw [if_pos (List.length_pos_iff.mpr hne)] at he
    cases he
  · rename_i tail hc
    split at h
    all_goals
      cases h
      exact .moved p (.writeLog tail) _ _ hc (by simp [emptied]) (by simp [emptied]) (fun _ => rfl)
  · rename_i hc
    cases h
    exact .moved p .writeHead _ _ hc (by simp [emptied]) (by simp [emptied]) (fun _ => rfl)
  · rename_i tail hc
    split at h
    all_goals
      cases h
      exact .moved p (.installTrans tail) _ _ hc (by simp [emptied]) (by simp [emptied])
        (fun _ => rfl)
  · rename_i hc
    cases h
    exact .emptied p hc
  · rename_i hc
    cases h
    exact .moved p .clearHead _ _ hc (by simp [emptied]) (by simp [emptied]) (fun _ => rfl)
  · rename_i hc
    cases h
    exact .committed p hc
  · cases h

theorem exec_effect {a : Action P} (h : exec s a = some (.ok (s',e))) : Effect s s' e := by
  cases a with
  | beginOp p =>
    simp only [exec, beginOp] at h
    split at h
    · rename_i hc
      split at h
      · cases h
        exact .slept p
      rename_i hcm
      split at h
      · cases h
        exact .slept p
      · rename_i hroom
        cases h
        exact .began p hc (by simpa using hcm) (by omega)
    · cases h
  | logWrite p b =>
    simp only [exec, logWrite] at h
    split at h
    · rename_i hc
      split at h
      · cases h
      split at h
      · cases h
      · cases h
        exact .passed p b hc
    · cases h
  | absorb p =>
    simp only [exec, absorb] at h
    split at h
    · rename_i b hc
      split at h
      · rename_i hb
        cases h
        exact .absorbed p b hc (by simpa using hb)
      rename_i hb
      split at h
      · cases h
        exact .appended p b hc (by simpa using hb)
      · cases h
    · cases h
  | endOp p =>
    simp only [exec, endOp] at h
    split at h
    · rename_i hc
      split at h
      · cases h
      rename_i hcm
      split at h
      · rename_i hlast
        cases h
        exact .closed p hc (by simpa using hcm) hlast
      · rename_i hmore
        cases h
        exact .ended p hc (by simpa using hcm) hmore
    · cases h
  | commit p => exact commit_effect h

section Count

variable [Fintype P]

def weight (k : Ctl) : ℤ := if inside k then 1 else 0

def inProgress (s : State P) : ℤ := ∑ p, weight (s.ctl p)

theorem inProgress_goto (s : State P) (p : P) (k : Ctl) :
    inProgress (s.goto p k) = inProgress s-weight (s.ctl p)+weight k := by
  have h : ∀ q, q ≠ p → weight ((s.goto p k).ctl q) = weight (s.ctl q) := by
    intro q hq
    rw [goto_ctl, update_of_ne hq]
  rw [inProgress, Tally.sum_off h, goto_ctl, update_self]
  rfl

theorem weight_nonneg (k : Ctl) : 0 ≤ weight k := by
  unfold weight
  split <;> omega

omit [DecidableEq P] in
theorem inProgress_pos {s : State P} {p : P} (h : inside (s.ctl p) = true) : 1 ≤ inProgress s := by
  have h1 : weight (s.ctl p) = 1 := by simp [weight, h]
  have h2 := Finset.single_le_sum (fun q _ => weight_nonneg (s.ctl q)) (Finset.mem_univ p)
  rw [h1] at h2
  exact h2

end Count

structure Grouped [Fintype P] (l : Ledger P) (s : State P) : Prop where
  count : s.outstanding = inProgress s
  flag : ∀ p c, s.ctl p = .committing c → s.committing = true
  single : ∀ p q c d, s.ctl p = .committing c → s.ctl q = .committing d → p = q
  quiet : s.committing = true → ∀ p, inside (s.ctl p) = false
  owner : s.committing = true → ∃ p c, s.ctl p = .committing c
  nodup : s.lh.Nodup
  opened : ∀ p, l.opened p = inside (s.ctl p)
  blocks : (∀ p, emptied (s.ctl p) = false) → ∀ b, b ∈ s.lh ↔ ∃ q, (q,b) ∈ l.blocks
  empty : ∀ p, emptied (s.ctl p) = true → s.lh = []
  clean : s.outstanding = 0 → s.committing = false → s.lh = []

theorem committing_of_goto {p q : P} {k : Ctl} {c : Commit} (hk : ∀ c, k ≠ .committing c)
    (hq : (s.goto p k).ctl q = .committing c) : q ≠ p ∧ s.ctl q = .committing c := by
  by_cases e : q = p
  · subst e
    rw [goto_ctl, update_self] at hq
    exact absurd hq (hk c)
  · rw [goto_ctl, update_of_ne e] at hq
    exact ⟨e,hq⟩

section Step

variable [Fintype P] {l : Ledger P} {s s' : State P} {e : Event P} {p : P} {k : Ctl}
variable {r : List Uint}

omit [DecidableEq P] in
theorem Grouped.not_committing (h : Grouped l s) {p : P} (hp : inside (s.ctl p) = true) :
    s.committing = false := by
  cases hc : s.committing with
  | false => rfl
  | true =>
    rw [h.quiet hc p] at hp
    cases hp

theorem Grouped.move (h : Grouped l s) {l' : Ledger P} {n : ℤ}
    (hcm : s.committing = false) (hk : ∀ c, k ≠ .committing c)
    (hn : n = s.outstanding-weight (s.ctl p)+weight k) (hnd : r.Nodup)
    (hop : l'.opened = update l.opened p (inside k))
    (hbl : ∀ b, b ∈ r ↔ ∃ q, (q,b) ∈ l'.blocks) (hcl : n = 0 → r = []) :
    Grouped l' { s.goto p k with outstanding := n, lh := r } := by
  have hno : ∀ q c, (s.goto p k).ctl q ≠ .committing c := by
    intro q c hq
    have := h.flag q c (committing_of_goto hk hq).2
    rw [hcm] at this
    cases this
  refine ⟨?_,fun q c hq => absurd hq (hno q c),fun q _ c d hq => absurd hq (hno q c),
    fun hc => ?_,fun hc => ?_,hnd,fun q => ?_,fun _ => hbl,fun q hq => ?_,fun h0 _ => hcl h0⟩
  · show n = inProgress (s.goto p k)
    rw [inProgress_goto, ← h.count, hn]
  · rw [show s.committing = true from hc] at hcm
    cases hcm
  · rw [show s.committing = true from hc] at hcm
    cases hcm
  · rw [hop]
    by_cases hqp : q = p
    · subst hqp
      simp
    · simp [hqp, h.opened q]
  have : ∃ c, (s.goto p k).ctl q = .committing c := by
    cases hx : (s.goto p k).ctl q with
    | committing c => exact ⟨c,rfl⟩
    | _ =>
      rw [show ({ s.goto p k with outstanding := n, lh := r } : State P).ctl q = _ from hx] at hq
      cases hq
  obtain ⟨c,hx⟩ := this
  exact absurd hx (hno q c)

theorem Grouped.commit_move (h : Grouped l s) {c c' : Commit} {bs : List Uint}
    (hc : s.ctl p = .committing c) (hnd : bs.Nodup)
    (hbl : emptied (.committing c') = false → ∀ b, b ∈ bs ↔ ∃ q, (q,b) ∈ l.blocks)
    (hempty : emptied (.committing c') = true → bs = []) :
    Grouped l { s.goto p (.committing c') with lh := bs } := by
  have hcm := h.flag p c hc
  have hown : ∀ q d, (s.goto p (.committing c')).ctl q = .committing d → q = p := by
    intro q d hq
    by_cases e : q = p
    · exact e
    · rw [goto_ctl, update_of_ne e] at hq
      exact h.single q p d c hq hc
  have hother : ∀ q, q ≠ p → (s.goto p (.committing c')).ctl q = s.ctl q :=
    fun q hq => update_of_ne hq _ _
  have hself : (s.goto p (.committing c')).ctl p = .committing c' := update_self ..
  refine ⟨?_,fun _ _ _ => hcm,fun q r d f hq hr => (hown q d hq).trans (hown r f hr).symm,
    fun _ q => ?_,fun _ => ⟨p,c',hself⟩,hnd,fun q => ?_,fun hne => hbl (hself ▸ hne p),
    fun q hq => ?_,fun _ hf => ?_⟩
  · show s.outstanding = inProgress (s.goto p (.committing c'))
    rw [inProgress_goto, ← h.count, hc]
    simp [weight, inside]
  · by_cases e : q = p
    · rw [e]
      exact (congrArg inside hself).trans rfl
    · exact (congrArg inside (hother q e)).trans (h.quiet hcm q)
  · by_cases e : q = p
    · rw [e, h.opened p, hc]
      exact (congrArg inside hself).symm
    · rw [h.opened q]
      exact (congrArg inside (hother q e)).symm
  · by_cases e : q = p
    · subst e
      exact hempty ((congrArg emptied hself).symm.trans hq)
    have hq' : emptied (s.ctl q) = true := (congrArg emptied (hother q e)).symm.trans hq
    cases hx : s.ctl q with
    | committing d => exact absurd (h.single q p d c hx hc) e
    | _ =>
      rw [hx] at hq'
      cases hq'
  · rw [show s.committing = false from hf] at hcm
    cases hcm

omit [DecidableEq P] in
theorem Grouped.no_emptied (h : Grouped l s) (hcm : s.committing = false) :
    ∀ p, emptied (s.ctl p) = false := by
  intro p
  cases hx : s.ctl p with
  | committing c =>
    have := h.flag p c hx
    rw [hcm] at this
    cases this
  | _ => rfl

theorem Grouped.within (h : Grouped l s) {bs : List (P × Uint)}
    {f : P → List Uint} (hp : inside (s.ctl p) = true) (hk : inside k = true) (hnd : r.Nodup)
    (hbl : ∀ b, b ∈ r ↔ ∃ q, (q,b) ∈ bs) :
    Grouped { l with blocks := bs, mine := f } { s.goto p k with lh := r } := by
  have hpos := inProgress_pos hp
  have hct := h.count
  refine h.move (h.not_committing hp) (fun c e => ?_) (by simp [weight, hp, hk]) hnd ?_ hbl
    (fun (h0 : s.outstanding = 0) => by omega)
  · rw [e] at hk
    cases hk
  · rw [hk, ← hp, ← h.opened p]
    exact (update_eq_self p l.opened).symm

theorem Grouped.logs (h : Grouped l s) {b : Uint}
    (hp : inside (s.ctl p) = true) (hnd : r.Nodup) (hr : ∀ c, c ∈ r ↔ c ∈ s.lh ∨ c = b) :
    Grouped (note l (.logged p b)) { s.goto p .inOp with lh := r } := by
  refine h.within hp rfl hnd (fun c => ?_)
  rw [hr, h.blocks (h.no_emptied (h.not_committing hp)) c]
  simp [exists_or]

theorem effect_grouped (h : Grouped l s) (he : Effect s s' e) : Grouped (note l e) s' := by
  cases he with
  | slept p => exact h
  | began p hc hcm room =>
    refine h.move (k := .inOp) (r := s.lh) hcm (by simp) (by simp [hc, weight, inside]) h.nodup
      rfl (h.blocks (h.no_emptied hcm)) (fun h0 => ?_)
    have h1 : 0 ≤ inProgress s := Finset.sum_nonneg (fun q _ => weight_nonneg _)
    have h2 := h.count
    omega
  | passed p b hc =>
    have hp : inside (s.ctl p) = true := by rw [hc]; rfl
    exact h.within hp rfl h.nodup (h.blocks (h.no_emptied (h.not_committing hp)))
  | absorbed p b hc hb =>
    refine h.logs (by rw [hc]; rfl) h.nodup (fun c => ⟨Or.inl,fun hx => ?_⟩)
    rcases hx with hx | rfl
    · exact hx
    · exact hb
  | appended p b hc hb =>
    refine h.logs (by rw [hc]; rfl) ?_ (fun c => by simp)
    refine List.nodup_append.mpr ⟨h.nodup,List.nodup_singleton b,fun x hx y hy hxy => ?_⟩
    rw [List.mem_singleton.mp hy] at hxy
    exact hb (hxy ▸ hx)
  | ended p hc hcm more =>
    refine h.move (k := .outside) (r := s.lh) hcm (by simp) (by simp [hc, weight, inside])
      h.nodup rfl (h.blocks (h.no_emptied hcm)) (fun h0 => absurd h0 more)
  | closed p hc hcm last =>
    have hzero : inProgress (s.goto p (.committing .enter)) = 0 := by
      rw [inProgress_goto, ← h.count, hc]
      simp only [weight, inside]
      simpa using last
    have hout : ∀ q, inside ((s.goto p (.committing .enter)).ctl q) = false := by
      intro q
      by_contra hq
      have := inProgress_pos (s := s.goto p (.committing .enter)) (p := q) (by simpa using hq)
      omega
    have hno : ∀ q c, s.ctl q ≠ .committing c := by
      intro q c hq
      have := h.flag q c hq
      rw [hcm] at this
      cases this
    have hown : ∀ q d, (s.goto p (.committing .enter)).ctl q = .committing d → q = p := by
      intro q d hq
      by_contra e
      rw [goto_ctl, update_of_ne e] at hq
      exact hno q d hq
    have hemp : ∀ q, emptied ((s.goto p (.committing .enter)).ctl q) = false := by
      intro q
      by_cases e : q = p
      · simp [e, emptied]
      · rw [goto_ctl, update_of_ne e]
        exact h.no_emptied hcm q
    refine ⟨hzero.symm,fun _ _ _ => rfl,fun q r c d hq hr => (hown q c hq).trans (hown r d hr).symm,
      fun _ => hout,fun _ => ⟨p,.enter,update_self ..⟩,h.nodup,fun q => ?_,
      fun _ => h.blocks (h.no_emptied hcm),fun q hq => ?_,fun _ hf => (by cases hf)⟩
    · by_cases e : q = p
      · simp [e, note, inside]
      · simp [e, note, h.opened q]
    · exact absurd ((hemp q).symm.trans hq) (by simp)
  | moved p c c' _ hc hlater hempty hnote =>
    rw [hnote]
    refine h.commit_move hc h.nodup (fun hf => h.blocks (fun q => ?_)) (fun ht => ?_)
    · cases hx : s.ctl q with
      | committing d =>
        have hqp := h.single q p d c hx hc
        rw [hqp, hc] at hx
        rw [← hx]
        by_contra hne
        rw [hlater (by simpa using hne)] at hf
        cases hf
      | _ => rfl
    · rcases hempty ht with h1 | h1
      · exact h.empty p (by rw [hc]; exact h1)
      · exact h1
  | emptied p hc => exact h.commit_move hc List.nodup_nil (by simp [emptied]) (fun _ => rfl)
  | committed p hc =>
    have hcm := h.flag p _ hc
    have hlh := h.empty p (by rw [hc]; rfl)
    have hno : ∀ q c, (s.goto p .outside).ctl q ≠ .committing c := by
      intro q c hq
      obtain ⟨hqp,hq⟩ := committing_of_goto (by simp) hq
      exact hqp (h.single q p c _ hq hc)
    refine ⟨?_,fun q c hq => absurd hq (hno q c),fun q r c d hq => absurd hq (hno q c),
      fun hf => (by cases hf),fun hf => (by cases hf),h.nodup,fun q => ?_,fun _ b => ?_,
      fun _ _ => hlh,fun _ _ => hlh⟩
    · show s.outstanding = inProgress (s.goto p .outside)
      rw [inProgress_goto, ← h.count, hc]
      simp [weight, inside]
    · by_cases e : q = p
      · simp [e, note, h.opened p, hc, inside]
      · simp [e, note, h.opened q]
    · simp [note, hlh]

omit [DecidableEq P] in
theorem Grouped.idle (h : Grouped l s) (hcm : s.committing = true) : s.outstanding = 0 := by
  rw [h.count]
  refine Finset.sum_eq_zero (fun p _ => ?_)
  simp [weight, h.quiet hcm p]

end Step

omit [DecidableEq P] in
theorem initial_grouped [Fintype P] (n : ℕ) : Grouped emptyLedger (initial P n) := by
  refine ⟨?_,fun p c hp => (by cases hp),fun p q c d hp => (by cases hp),fun hf => (by cases hf),
    fun hf => (by cases hf),List.nodup_nil,fun _ => rfl,fun _ b => ?_,fun _ _ => rfl,fun _ _ => rfl⟩
  · simp [initial, inProgress, weight, inside]
  · simp [initial, emptyLedger]

theorem run_grouped [Fintype P] {n : ℕ} {h : List (Action P × Event P)} {s : State P}
    (hr : Run (initial P n) h s) : Grouped (ledger h) s :=
  hr.invariant (fun h s => Grouped (ledger h) s) (initial_grouped n)
    (fun h _ a _ e hi hx => ledger_snoc h a e ▸ effect_grouped hi (exec_effect hx))

structure Isolated (h : List (Action P × Event P)) (s : State P) : Prop where
  idle : s.committing = true → s.outstanding = 0
  single : ∀ p q c d, s.ctl p = .committing c → s.ctl q = .committing d → p = q
  noWriter : ∀ p c, s.ctl p = .committing c → ∀ q, s.ctl q ≠ .inOp ∧ ∀ b, s.ctl q ≠ .writing b
  nodup : s.lh.Nodup
  written : ∀ p s' bs, s.ctl p = .committing .writeHead →
    exec s (.commit p) = some (.ok (s',.headWritten p bs)) →
    (∀ b, b ∈ bs ↔ ∃ q, (q,b) ∈ (ledger h).blocks) ∧ ∀ q, (ledger h).opened q = false
  copied : ∀ p s' b, exec s (.commit p) = some (.ok (s',.copied p b)) ∨
    exec s (.commit p) = some (.ok (s',.installed p b)) → ∃ q, (q,b) ∈ (ledger h).blocks
  panics : ∀ a e, exec s a = some (.error e) → e = .panic "too big a transaction" ∨ e = .outOfBounds

section Panics

variable [Fintype P] {l : Ledger P} {s s' : State P} {p : P} {b : Uint}

theorem Grouped.panics (h : Grouped l s) {a : Action P} {e : Fault}
    (hx : exec s a = some (.error e)) : e = .panic "too big a transaction" ∨ e = .outOfBounds := by
  cases a with
  | beginOp p =>
    simp only [exec, beginOp] at hx
    split at hx
    · split at hx
      · cases hx
      · split at hx <;> cases hx
    · cases hx
  | logWrite p b =>
    simp only [exec, logWrite] at hx
    split at hx
    · rename_i hc
      split at hx
      · cases hx
        exact Or.inl rfl
      split at hx
      · rename_i hlt
        have := inProgress_pos (s := s) (p := p) (by rw [hc]; rfl)
        have hct := h.count
        omega
      · cases hx
    · cases hx
  | absorb p =>
    simp only [exec, absorb] at hx
    split at hx
    · split at hx
      · cases hx
      split at hx
      · cases hx
      · cases hx
        exact Or.inr rfl
    · cases hx
  | endOp p =>
    simp only [exec, endOp] at hx
    split at hx
    · rename_i hc
      split at hx
      · rename_i hcm
        have := h.quiet hcm p
        rw [hc] at this
        cases this
      · split at hx <;> cases hx
    · cases hx
  | commit p =>
    simp only [exec, commit] at hx
    split at hx
    all_goals first
      | cases hx
      | (split at hx <;> cases hx)

omit [DecidableEq P] in
theorem Grouped.committing_blocks (h : Grouped l s) {c : Commit} (hc : s.ctl p = .committing c)
    (hne : emptied (.committing c) = false) (b : Uint) : b ∈ s.lh ↔ ∃ q, (q,b) ∈ l.blocks := by
  refine h.blocks (fun q => ?_) b
  cases hx : s.ctl q with
  | committing d =>
    have hqp := h.single q p d c hx hc
    rw [hqp, hc] at hx
    rw [← hx, hne]
  | _ => rfl

omit [Fintype P] in
theorem copied_effect (hx : exec s (.commit p) = some (.ok (s',.copied p b)) ∨
    exec s (.commit p) = some (.ok (s',.installed p b))) :
    b ∈ s.lh ∧ ∃ c, s.ctl p = .committing c ∧ emptied (.committing c) = false := by
  simp only [exec, commit] at hx
  split at hx
  · rcases hx with hx | hx <;> cases hx
  · rename_i tail hc
    split at hx
    · rename_i b' hb
      rcases hx with hx | hx <;> cases hx
      exact ⟨List.mem_of_getElem? hb,_,hc,rfl⟩
    · rcases hx with hx | hx <;> cases hx
  · rcases hx with hx | hx <;> cases hx
  · rename_i tail hc
    split at hx
    · rename_i b' hb
      rcases hx with hx | hx <;> cases hx
      exact ⟨List.mem_of_getElem? hb,_,hc,rfl⟩
    · rcases hx with hx | hx <;> cases hx
  all_goals rcases hx with hx | hx <;> cases hx

end Panics

/-- In every reachable state a commit is alone, runs on the distinct blocks
logged since the previous commit by operations that have all ended, and
neither the `log.committing` nor the `outside of trans` panic is possible. -/
theorem group_commit_isolated [Fintype P] {n : ℕ} {h : List (Action P × Event P)} {s : State P}
    (hr : Run (initial P n) h s) : Isolated h s := by
  have hg := run_grouped hr
  refine ⟨hg.idle,hg.single,fun p c hc q => ?_,hg.nodup,fun p s' bs hc hx => ?_,
    fun p s' b hx => ?_,fun a e => hg.panics⟩
  · have hq := hg.quiet (hg.flag p c hc) q
    constructor
    · intro e
      rw [e] at hq
      cases hq
    · intro b e
      rw [e] at hq
      cases hq
  · simp only [exec, commit, hc] at hx
    cases hx
    refine ⟨hg.committing_blocks hc rfl,fun q => ?_⟩
    rw [hg.opened q]
    exact hg.quiet (hg.flag p _ hc) q
  · obtain ⟨hb,c,hc,hne⟩ := copied_effect hx
    exact (hg.committing_blocks hc hne b).mp hb

def shareBlock {P : Type} (p q : P) : List (Action P) :=
  [.beginOp p,.beginOp q,.logWrite p 60,.absorb p,.endOp p,.logWrite q 60,.absorb q,.endOp q,
    .commit q,.commit q,.commit q]

theorem group_commit_isolated_shared : ∃ h s, Run (initial (Fin 2) nlog) h s ∧
    h.map Prod.fst = shareBlock 0 1 ∧ s.ctl 1 = .committing .writeHead ∧ s.lh = [60] ∧
    Isolated h s := by
  obtain ⟨h,s,hrun,hacts,hc,hb⟩ := Lts.replay_reaches exec (initial (Fin 2) nlog)
    (shareBlock 0 1) (fun _ s => s.ctl 1 = .committing .writeHead ∧ s.lh = [60]) (by decide +kernel)
  exact ⟨h,s,hrun,hacts,hc,hb,group_commit_isolated hrun⟩

end Yeet.LogGroup
