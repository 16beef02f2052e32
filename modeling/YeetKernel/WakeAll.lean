import YeetKernel.ProcInvariant

/-!
# Who is woken

Without the process lists `wakeup1` scans the table and makes every sleeper
on the channel runnable. With the lists it follows `next` pointers while it
moves processes between lists. The two agree exactly when at most one process
sleeps on the channel: the woken process ends its ready list, where the loop
ends too.
-/

namespace Yeet.WakeAll
open Kernel StateLists ProcTable ProcSpec ProcExit ProcStep ProcInvariant Function

/-- The loop of `wakeup1` in the build without lists. -/
def scanFrom (chan : Option Chan) : List Slot → Table → Table
  | [], t => t
  | p::ps, t =>
    scanFrom chan ps (if t.state p = .sleeping ∧ t.chan p = chan then t.setState p .runnable else t)

def wakeup1Scan (chan : Option Chan) (t : Table) : Table := scanFrom chan (List.finRange NPROC) t

def awaken (chan : Option Chan) (t : Table) (L : ListId → List Slot) : ListId → List Slot
  | .sleep => (L .sleep).filter (fun q => t.chan q ≠ chan)
  | .ready i => L (.ready i)++(L .sleep).filter (fun q => t.chan q = chan ∧ t.priority q = i)
  | l => L l

structure Woken (chan : Option Chan) (t : Table) (L : ListId → List Slot) (u : Table) : Prop where
  same : u = { wakeup1Scan chan t with lists := u.lists }
  lists : Rep u.lists (awaken chan t L)

variable {leak : Prop} {t u : Table} {L : ListId → List Slot} {p : Slot} {chan : Option Chan}

theorem scanFrom_eq (ps : List Slot) (t : Table) :
    scanFrom chan ps t = { t with
      state := fun q =>
        if q ∈ ps ∧ t.state q = .sleeping ∧ t.chan q = chan then .runnable else t.state q } := by
  induction ps generalizing t with
  | nil => simp [scanFrom]
  | cons p ps ih =>
    rw [scanFrom, ih]
    by_cases hp : t.state p = .sleeping ∧ t.chan p = chan
    · rw [if_pos hp]
      simp only [Table.setState, Table.mk.injEq, and_true]
      funext q
      by_cases e : q = p
      · subst e
        simp [hp]
      · simp [e]
    rw [if_neg hp]
    simp only [Table.mk.injEq, and_true]
    funext q
    by_cases e : q = p
    · subst e
      simp [hp]
    · simp [e]

theorem wakeup1Scan_eq (chan : Option Chan) (t : Table) :
    wakeup1Scan chan t = { t with
      state := fun q =>
        if t.state q = .sleeping ∧ t.chan q = chan then .runnable else t.state q } := by
  simp [wakeup1Scan, scanFrom_eq]

theorem Woken.state (h : Woken chan t L u) (hs : t.state p = .sleeping) (hc : t.chan p = chan) :
    u.state p = .runnable := by
  rw [h.same, wakeup1Scan_eq]
  simp [hs, hc]

theorem filter_single {l : List Slot} {P : Slot → Prop} [DecidablePred P] (hn : l.Nodup)
    (hp : p ∈ l) (h : ∀ q ∈ l, P q ↔ q = p) : l.filter (fun q => P q) = [p] := by
  have he : l.filter (fun q => P q) = l.filter (fun q => q == p) :=
    List.filter_congr (fun q hq => by simp [h q hq, beq_eq_decide])
  rw [he, List.filter_beq, List.count_eq_one_of_mem hn hp]
  rfl

theorem awaken_none (hn : ∀ q ∈ L .sleep, t.chan q ≠ chan) : awaken chan t L = L := by
  funext l
  cases l with
  | sleep => exact List.filter_eq_self.mpr (fun q hq => by simpa using hn q hq)
  | ready i =>
    rw [awaken, List.filter_eq_nil_iff.mpr (fun q hq => by simp [hn q hq]), List.append_nil]
  | _ => rfl

section

variable (h : Listed leak none t L)
include h

theorem awaken_single (hp : p ∈ L .sleep) (hc : t.chan p = chan)
    (hs : ∀ q ∈ L .sleep, t.chan q = chan → q = p) :
    awaken chan t L = move L p .sleep (readyOf (t.priority p)) := by
  have hn := (h.rep.queue .sleep).nodup
  have hiff : ∀ q ∈ L .sleep, t.chan q = chan ↔ q = p :=
    fun q hq => ⟨hs q hq,fun e => e ▸ hc⟩
  funext l
  cases l with
  | sleep =>
    rw [move, update_of_ne (by simp [readyOf]), update_self, hn.erase_eq_filter]
    exact List.filter_congr (fun q hq => by simp [hiff q hq, bne, beq_eq_decide])
  | ready i =>
    by_cases e : t.priority p = i
    · have hr : readyOf (t.priority p) = .ready i := by
        rw [readyOf, e]
        simp
      rw [hr, move, update_self, update_of_ne (by simp), awaken, filter_single hn hp]
      intro q hq
      rw [hiff q hq]
      exact ⟨fun hq => hq.1,fun hq => ⟨hq,hq ▸ e⟩⟩
    have hr : ListId.ready i ≠ readyOf (t.priority p) := by
      intro he
      have hlt := Nat.lt_succ_of_le (h.prio p)
      have := congrArg Fin.val (ListId.ready.inj he)
      exact e (by rw [this]; exact (Nat.mod_eq_of_lt hlt).symm)
    rw [move, update_of_ne hr, update_of_ne (by simp), awaken]
    rw [List.filter_eq_nil_iff.mpr, List.append_nil]
    intro q hq hh
    obtain ⟨h1,h2⟩ := of_decide_eq_true hh
    exact e ((hiff q hq).mp h1 ▸ h2)
  | _ => simp [awaken, move, readyOf]

theorem woken_none (hn : ∀ q ∈ L .sleep, t.chan q ≠ chan) : Woken chan t L t := by
  have hstate : (fun q => if t.state q = .sleeping ∧ t.chan q = chan then .runnable
      else t.state q) = t.state := by
    funext q
    exact if_neg (fun hc => hn q (h.mem_sleep hc.1) hc.2)
  refine ⟨?_,?_⟩
  · rw [wakeup1Scan_eq, hstate]
  · rw [awaken_none hn]
    exact h.rep

theorem woken_single {ls : Lists} (hp : p ∈ L .sleep) (hc : t.chan p = chan) (hs : Single t chan)
    (hr : Rep ls (move L p .sleep (readyOf (t.priority p)))) :
    Woken chan t L { t with lists := ls, state := update t.state p .runnable } := by
  have hp' := h.fits .sleep p hp
  refine ⟨?_,?_⟩
  · rw [wakeup1Scan_eq]
    simp only [Table.mk.injEq, and_true]
    funext q
    by_cases e : q = p
    · subst e
      simp [hc, show t.state q = .sleeping from hp']
    · rw [update_of_ne e, if_neg (fun hh => e (hs q p hh.1 hp' hh.2 hc))]
  · rw [awaken_single h hp hc (fun q hq hcq => hs q p (h.fits .sleep q hq) hp' hcq hc)]
    exact hr

theorem wakeup1_woken (hs : Single t chan) :
    ∃ u M, wakeup1 chan t = .ok u ∧ Listed leak none u M ∧ Still L M ∧ Woken chan t L u := by
  cases hf : (L .sleep).find? (fun q => t.chan q = chan) with
  | none =>
    have hn : ∀ q ∈ L .sleep, t.chan q ≠ chan := by simpa using hf
    exact ⟨t,L,wakeup1_none h hn,h,⟨rfl,rfl,rfl,rfl⟩,woken_none h hn⟩
  | some p =>
    obtain ⟨ls,hw,hM⟩ := wakeup1_some h hf
    exact ⟨_,_,hw,hM,move_still L p _,woken_single h (List.mem_of_find?_eq_some hf)
      (by simpa using List.find?_some hf) hs hM.rep⟩

end

theorem wakeup1_wakes_all_iff (h : Listed leak none t L) (chan : Option Chan) :
    (∃ u, wakeup1 chan t = .ok u ∧ Woken chan t L u) ↔ Single t chan := by
  constructor
  · rintro ⟨u,hu,hwoken⟩ q r hs hs' hc hc'
    cases hf : (L .sleep).find? (fun q => t.chan q = chan) with
    | none => exact absurd hc (by simpa using List.find?_eq_none.mp hf q (h.mem_sleep hs))
    | some p =>
      obtain ⟨ls,hw,-⟩ := wakeup1_some h hf
      -- every other sleeper is still asleep
      have hself : ∀ q, t.state q = .sleeping → t.chan q = chan → q = p := by
        intro q hs hcq
        by_contra hne
        have hr := hwoken.state hs hcq
        rw [← Except.ok.inj (hw.symm.trans hu)] at hr
        simp [hne, hs] at hr
      rw [hself q hs hc, hself r hs' hc']
  · intro hs
    obtain ⟨u,-,hu,-,-,hw⟩ := wakeup1_woken h hs
    exact ⟨u,hu,hw⟩

def oneSleeper : List Action := bootAndFork++[.sleep bootCpu 7,.schedNext bootCpu]

def twoSleepers : List Action :=
  oneSleeper++[.schedBegin bootCpu,.schedNext bootCpu,.resume bootCpu,.sleep bootCpu 7]

theorem reachable_listed {s₀ s : State} {h : List (Action × Event)} (h0 : Start s₀)
    (hr : Run s₀ h s) : ∃ L, Listed True none s.tab L :=
  (run_consistent (start_consistent h0 True) hr (allowed_true h)).placed

theorem wakeup1_wakes_only_sleeper : ∃ s₀ h s L p, Start s₀ ∧ Run s₀ h s ∧
    h.map Prod.fst = oneSleeper ∧ Listed True none s.tab L ∧ s.tab.state p = .sleeping ∧
    ∃ u, wakeup1 (some (.addr 7)) s.tab = .ok u ∧ Woken (some (.addr 7)) s.tab L u := by
  obtain ⟨s₀,h,s,h0,hrun,hacts,p,hp,hs⟩ := bootRun_reaches oneSleeper
    (fun _ s => ∃ p, s.tab.state p = .sleeping ∧ ∀ q, s.tab.state q = .sleeping → q = p)
    (by decide +kernel)
  obtain ⟨L,hL⟩ := reachable_listed h0 hrun
  refine ⟨s₀,h,s,L,p,h0,hrun,hacts,hL,hp,(wakeup1_wakes_all_iff hL _).mpr ?_⟩
  intro q r hq hr _ _
  rw [hs q hq, hs r hr]

/-- Of two sleepers on the channel the second sleeps on. -/
theorem wakeup1_leaves_sleeper : ∃ s₀ h s L u p, Start s₀ ∧ Run s₀ h s ∧
    h.map Prod.fst = twoSleepers ∧ Listed True none s.tab L ∧
    wakeup1 (some (.addr 7)) s.tab = .ok u ∧ u.state p = .sleeping ∧
    u.chan p = some (.addr 7) ∧ ¬ Woken (some (.addr 7)) s.tab L u := by
  obtain ⟨s₀,h,s,h0,hrun,hacts,p,hp,hc,hu⟩ := bootRun_reaches twoSleepers
    (fun _ s => ∃ p, s.tab.state p = .sleeping ∧ s.tab.chan p = some (.addr 7) ∧
      ((wakeup1 (some (.addr 7)) s.tab).toOption.any (fun u =>
        decide (u.state p = .sleeping ∧ u.chan p = some (.addr 7)))) = true)
    (by decide +kernel)
  obtain ⟨L,hL⟩ := reachable_listed h0 hrun
  cases hw : wakeup1 (some (.addr 7)) s.tab with
  | error e => simp [hw, Except.toOption] at hu
  | ok u =>
    simp only [hw, Except.toOption, Option.any_some, decide_eq_true_eq] at hu
    refine ⟨s₀,h,s,L,u,p,h0,hrun,hacts,hL,hw,hu.1,hu.2,fun hwoken => ?_⟩
    rw [hwoken.state hp hc] at hu
    cases hu.1

end Yeet.WakeAll
