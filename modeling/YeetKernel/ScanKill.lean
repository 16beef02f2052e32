import YeetKernel.ScanCalls

/-!
# Kill with and without lists

The scan of the table stops at the first slot with the pid, whatever its
state. The list version searches the embryo, ready, running and sleep lists
only, so that a zombie is not found.
-/

namespace Yeet.ScanKill
open Kernel StateLists ProcTable ProcSpec ProcExit ProcSwitch ScanCalls ProcStep ProcInvariant
open Function

variable {leak : Prop} {t : Table} {L : ListId → List Slot} {p q : Slot} {pid : Uint} {l : ListId}

theorem findPid_none (h : Listed leak none t L) (ids : List ListId) :
    findPid pid t ids = .ok none ↔ ∀ l ∈ ids, ∀ q ∈ L l, t.pid q ≠ pid := by
  induction ids with
  | nil => simp [findPid]
  | cons l ids ih =>
    rw [findPid, h.walk l, ok_bind]
    cases hf : (L l).find? (fun q => t.pid q = pid) with
    | none =>
      have hn : ∀ q ∈ L l, t.pid q ≠ pid := by simpa using hf
      simp only [ih, List.mem_cons, forall_eq_or_imp]
      exact ⟨fun hr => ⟨hn,hr⟩,fun hr => hr.2⟩
    | some q =>
      constructor
      · intro hc
        cases Except.ok.inj hc
      · intro hall
        exact absurd (by simpa using List.find?_some hf)
          (hall l (by simp) q (List.mem_of_find?_eq_some hf))

def marked (p : Slot) (t : Table) : Table :=
  { t with
    killed := update t.killed p true
    state := if t.state p = .sleeping then update t.state p .runnable else t.state }

theorem killScan_marked (hq : holder pid t = some q) : killScan pid t = (0,marked q t) :=
  killScan_some hq

theorem kill_hit (h : Listed leak none t L)
    (hf : findPid pid t liveLists = .ok (some (l,p))) (hp : p ∈ L l) :
    ∃ ls M, kill pid t = .ok (0,{ marked p t with lists := ls }) ∧ Rep ls M ∧
      (t.state p = .sleeping →
        M (readyOf (t.priority p)) = L (readyOf (t.priority p))++[p]) := by
  rw [kill, hf, ok_bind]
  have h0 : Listed leak none { t with killed := update t.killed p true } L := h.congr rfl rfl rfl
  by_cases hl : l = .sleep
  · subst hl
    have hs : t.state p = .sleeping := h.fits .sleep p hp
    obtain ⟨ls,hlv,h1⟩ := leave_spec h0 "kill - remove from sleep failed\n" hp hs
    obtain ⟨ls',hm,h2⟩ := makeReady_spec h1
    refine ⟨ls',_,?_,h2.rep,fun _ => by simp [readyOf]⟩
    simp only [if_true, hlv, ok_bind, hm, marked, hs]
    rfl
  · have hs : t.state p ≠ .sleeping := fun hs => hl (h.unique hp (h.mem_sleep hs))
    refine ⟨t.lists,L,?_,h.rep,fun hc => absurd hc hs⟩
    simp only [if_neg hl, marked, if_neg hs]
    rfl

/-- The two versions return the same value and leave the same flags and
states; a sleeping target arrives at the tail of its ready list. -/
def Agrees (pid : Uint) (t : Table) (L : ListId → List Slot) : Prop :=
  ∃ r u, kill pid t = .ok (r,u) ∧ r = (killScan pid t).1 ∧ u.killed = (killScan pid t).2.killed ∧
    u.state = (killScan pid t).2.state ∧
    ∀ q, holder pid t = some q → t.state q = .sleeping → u.state q = .runnable ∧
      ∃ M, Rep u.lists M ∧ M (readyOf (t.priority q)) = L (readyOf (t.priority q))++[q]

theorem marked_eq_iff (hne : p ≠ q) :
    (marked p t).killed = (marked q t).killed ∧ (marked p t).state = (marked q t).state ↔
      t.killed p = true ∧ t.killed q = true ∧ t.state p ≠ .sleeping ∧ t.state q ≠ .sleeping := by
  constructor
  · rintro ⟨hk,hs⟩
    have kp := congrFun hk p
    have kq := congrFun hk q
    have sp := congrFun hs p
    have sq := congrFun hs q
    simp only [marked, update_self, update_of_ne hne, update_of_ne hne.symm] at kp kq sp sq
    refine ⟨kp.symm,kq,fun e => ?_,fun e => ?_⟩
    · rw [if_pos e, update_self] at sp
      split at sp
      · rw [update_of_ne hne, e] at sp
        cases sp
      · rw [e] at sp
        cases sp
    rw [if_pos e, update_self] at sq
    split at sq
    · rw [update_of_ne hne.symm, e] at sq
      cases sq
    · rw [e] at sq
      cases sq
  · rintro ⟨kp,kq,sp,sq⟩
    simp only [marked, if_neg sp, if_neg sq, and_true]
    rw [update_eq_iff.mpr ⟨kp.symm,fun _ _ => rfl⟩, update_eq_iff.mpr ⟨kq.symm,fun _ _ => rfl⟩]

theorem holder_exists (hq : t.pid q = pid) : ∃ r, holder pid t = some r ∧ t.pid r = pid := by
  obtain ⟨r,hr⟩ := Option.isSome_iff_exists.mp
    (List.find?_isSome (p := fun q => decide (t.pid q = pid)).mpr
    ⟨q,List.mem_finRange q,by simpa using hq⟩)
  exact ⟨r,hr,by simpa using List.find?_some hr⟩

theorem agrees_found (h : Listed leak none t L)
    (hf : findPid pid t liveLists = .ok (some (l,p))) (hp : p ∈ L l) (hq : holder pid t = some q) :
    Agrees pid t L ↔ p = q ∨
      t.killed p = true ∧ t.killed q = true ∧ t.state p ≠ .sleeping ∧ t.state q ≠ .sleeping := by
  obtain ⟨ls,M,hk,hM,htail⟩ := kill_hit h hf hp
  by_cases e : p = q
  · subst e
    refine ⟨fun _ => Or.inl rfl,fun _ => ⟨0,_,hk,?_,?_,?_,?_⟩⟩
    · rw [killScan_marked hq]
    · rw [killScan_marked hq]
    · rw [killScan_marked hq]
    · rintro r hr hs
      obtain rfl := Option.some.inj (hq.symm.trans hr)
      exact ⟨by simp [marked, hs],M,hM,htail hs⟩
  rw [or_iff_right e, ← marked_eq_iff e]
  constructor
  · rintro ⟨r,u,hu,-,h1,h2,-⟩
    obtain ⟨-,rfl⟩ := ok_pair_inj (hk.symm.trans hu)
    rw [killScan_marked hq] at h1 h2
    exact ⟨h1,h2⟩
  intro hm
  refine ⟨0,_,hk,?_,?_,?_,?_⟩
  · rw [killScan_marked hq]
  · rw [killScan_marked hq]
    exact hm.1
  · rw [killScan_marked hq]
    exact hm.2
  · rintro r hr hs
    obtain rfl := Option.some.inj (hq.symm.trans hr)
    exact absurd hs ((marked_eq_iff e).mp hm).2.2.2

theorem agrees_missed (hf : findPid pid t liveLists = .ok none)
    (hq : holder pid t = some q) : ¬ Agrees pid t L := by
  rintro ⟨r,u,hu,hr,-⟩
  rw [kill, hf, ok_bind] at hu
  obtain ⟨rfl,-⟩ := ok_pair_inj hu
  rw [killScan_marked hq] at hr
  cases hr

/-- The list version of `kill` agrees with the scan exactly if its search finds
the first slot of the table with the pid, or another one where neither has
anything left to change. Where pids are distinct this says that the process is
not a zombie. For a pid that no slot holds both return -1 and change nothing. -/
theorem kill_agrees_iff (h : Listed leak none t L) (pid : Uint) :
    ((∃ p, t.state p ≠ .unused ∧ t.pid p = pid) →
      (Agrees pid t L ↔ ∃ l p q, findPid pid t liveLists = .ok (some (l,p)) ∧
        holder pid t = some q ∧ (p = q ∨
          t.killed p = true ∧ t.killed q = true ∧ t.state p ≠ .sleeping ∧ t.state q ≠ .sleeping))) ∧
    (∀ p, t.state p ≠ .unused → t.pid p = pid → (∀ q, t.pid q = pid → q = p) →
      (Agrees pid t L ↔ t.state p ≠ .zombie)) ∧
    ((∀ p, t.pid p ≠ pid) → kill pid t = .ok (-1,t) ∧ killScan pid t = (-1,t)) := by
  refine ⟨?_,fun p hp hpid huniq => ?_,fun hno => ⟨?_,?_⟩⟩
  · rintro ⟨p,-,hpid⟩
    obtain ⟨q,hq,-⟩ := holder_exists hpid
    rcases findPid_spec h pid liveLists with hf | ⟨l,-,r,hr,-,hf⟩
    · refine ⟨fun ha => absurd ha (agrees_missed hf hq),?_⟩
      rintro ⟨l,r,q',hf',-⟩
      rw [hf] at hf'
      cases Except.ok.inj hf'
    rw [agrees_found h hf hr hq]
    constructor
    · intro hc
      exact ⟨l,r,q,hf,hq,hc⟩
    rintro ⟨l',r',q',hf',hq',hc⟩
    obtain ⟨-,rfl⟩ := Prod.mk.inj (Option.some.inj (Except.ok.inj (hf.symm.trans hf')))
    obtain rfl := Option.some.inj (hq.symm.trans hq')
    exact hc
  · obtain ⟨q,hq,hqpid⟩ := holder_exists hpid
    obtain rfl := huniq q hqpid
    rcases findPid_spec h pid liveLists with hf | ⟨l,hl,r,hr,hrpid,hf⟩
    · refine ⟨fun ha => absurd ha (agrees_missed hf hq),fun hz => ?_⟩
      have hlive : q ∈ liveLists.flatMap L := (Listed.mem_live_iff h).mpr
        ⟨fun hm => hp (h.fits .free q hm),fun hm => hz (h.fits .zombie q hm)⟩
      obtain ⟨l,hl,hql⟩ := List.mem_flatMap.mp hlive
      exact absurd hqpid ((findPid_none h liveLists).mp hf l hl q hql)
    obtain rfl := huniq r hrpid
    rw [agrees_found h hf hr hq]
    refine ⟨fun _ hz => ?_,fun _ => Or.inl rfl⟩
    have := h.unique hr (h.mem_zombie hz)
    subst this
    simp [liveLists, readyLists] at hl
  · rw [kill, (findPid_none h liveLists).mpr (fun _ _ q _ => hno q), ok_bind]
    rfl
  · exact killScan_none (List.find?_eq_none.mpr (fun q _ => by simpa using hno q))

def parentWaits : List Action :=
  bootAndFork++[.wait bootCpu,.schedNext bootCpu,.schedBegin bootCpu,.schedNext bootCpu,
    .resume bootCpu]

theorem kill_agrees_on_sleeper : ∃ s₀ h s L p, Start s₀ ∧ Run s₀ h s ∧
    h.map Prod.fst = parentWaits ∧ Listed True none s.tab L ∧ s.tab.state p = .sleeping ∧
    s.tab.pid p = 1 ∧ Agrees 1 s.tab L := by
  obtain ⟨s₀,h,s,h0,hrun,hacts,p,hp,hpid,huniq⟩ := bootRun_reaches parentWaits
    (fun _ s => ∃ p, s.tab.state p = .sleeping ∧ s.tab.pid p = 1 ∧
      ∀ q, s.tab.pid q = 1 → q = p) (by decide +kernel)
  obtain ⟨L,hL⟩ := (run_consistent (start_consistent h0 True) hrun (allowed_true h)).placed
  exact ⟨s₀,h,s,L,p,h0,hrun,hacts,hL,hp,hpid,
    ((kill_agrees_iff hL 1).2.1 p (by simp [hp]) hpid huniq).mpr (by simp [hp])⟩

/-- The child, whose pid is 2, has exited: the list version does not find it. -/
theorem kill_misses_zombie : ∃ s₀ h s L p u, Start s₀ ∧ Run s₀ h s ∧
    h.map Prod.fst = parentWaits++[.exit bootCpu] ∧ Listed True none s.tab L ∧
    s.tab.state p = .zombie ∧ s.tab.pid p = 2 ∧ kill 2 s.tab = .ok (-1,s.tab) ∧
    killScan 2 s.tab = (0,u) ∧ u.killed p = true ∧ s.tab.killed p = false := by
  obtain ⟨s₀,h,s,h0,hrun,hacts,p,hp,hpid,hk,hall,hh⟩ := bootRun_reaches
    (parentWaits++[.exit bootCpu])
    (fun _ s => ∃ p, s.tab.state p = .zombie ∧ s.tab.pid p = 2 ∧ s.tab.killed p = false ∧
      (∀ q, s.tab.pid q = 2 → q = p) ∧ holder 2 s.tab = some p) (by decide +kernel)
  obtain ⟨L,hL⟩ := (run_consistent (start_consistent h0 True) hrun (allowed_true h)).placed
  refine ⟨s₀,h,s,L,p,_,h0,hrun,hacts,hL,hp,hpid,?_,killScan_marked hh,by simp [marked],hk⟩
  have hnone : findPid 2 s.tab liveLists = .ok none := by
    refine (findPid_none hL liveLists).mpr (fun l hl q hq hq2 => ?_)
    obtain rfl := hall q hq2
    obtain rfl := hL.unique hq (hL.mem_zombie hp)
    simp [liveLists, readyLists] at hl
  rw [kill, hnone, ok_bind]
  rfl

end Yeet.ScanKill
