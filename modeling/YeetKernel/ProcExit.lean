import YeetKernel.ProcSpec

/-!
# Exit: waking, reparenting and leaving the running list

Waking only turns sleepers into runnable processes. The loops of `exit` pass
every child that is not on the free list to init, and init is woken when one
of the adopted children is a zombie.
-/

namespace Yeet.ProcExit
open Kernel Chain StateLists ProcTable ProcSpec Function

def Quiet (t : Table) (chan : Option Chan) : Prop :=
  ∀ q, t.state q = .sleeping → t.chan q ≠ chan

def Single (t : Table) (chan : Option Chan) : Prop :=
  ∀ q r, t.state q = .sleeping → t.state r = .sleeping → t.chan q = chan → t.chan r = chan → q = r

structure Rouse (t u : Table) : Prop where
  same : u = { t with lists := u.lists, state := u.state, parent := u.parent }
  state : ∀ q, u.state q = t.state q ∨ t.state q = .sleeping ∧ u.state q = .runnable

section Rouse

variable {t u v : Table} {chan : Option Chan}

theorem Rouse.refl (t : Table) : Rouse t t := ⟨rfl,fun _ => Or.inl rfl⟩

section

variable (h : Rouse t u) {q : Slot}
include h

theorem Rouse.trans (k : Rouse u v) : Rouse t v := by
  refine ⟨by rw [k.same, h.same],fun q => ?_⟩
  have hq := h.state q
  have kq := k.state q
  grind

theorem Rouse.chan_eq : u.chan = t.chan := by rw [h.same]

theorem Rouse.initproc_eq : u.initproc = t.initproc := by rw [h.same]

theorem Rouse.sleeping (hq : u.state q = .sleeping) : t.state q = .sleeping := by
  rcases h.state q with e | e
  · exact e ▸ hq
  · exact e.1

theorem Rouse.quiet (hc : Quiet t chan) : Quiet u chan := by
  intro q hq
  rw [h.chan_eq]
  exact hc q (h.sleeping hq)

theorem Rouse.single (hc : Single t chan) : Single u chan := by
  intro q r hq hr
  rw [h.chan_eq]
  exact hc q r (h.sleeping hq) (h.sleeping hr)

theorem Rouse.state_eq (hq : t.state q ≠ .sleeping) : u.state q = t.state q := by
  rcases h.state q with e | e
  · exact e
  · exact absurd e.1 hq

end

end Rouse

def Still (L M : ListId → List Slot) : Prop :=
  M .free = L .free ∧ M .embryo = L .embryo ∧ M .zombie = L .zombie ∧ M .running = L .running

theorem move_still (L : ListId → List Slot) (p : Slot) (n : ℕ) :
    Still L (move L p .sleep (readyOf n)) := by
  simp [Still, move, readyOf]

def Grows (L M : ListId → List Slot) : Prop := ∀ i, L (.ready i) <+: M (.ready i)

theorem Grows.refl (L : ListId → List Slot) : Grows L L := fun _ => List.prefix_rfl

theorem Grows.trans {L M N : ListId → List Slot} (h : Grows L M) (k : Grows M N) : Grows L N :=
  fun i => (h i).trans (k i)

theorem move_grows (L : ListId → List Slot) (p : Slot) {a b : ListId} (ha : ∀ i, a ≠ .ready i) :
    Grows L (move L p a b) := by
  intro i
  by_cases hb : ListId.ready i = b
  · subst hb
    simp [move, (ha i).symm]
  · simp [move, hb, (ha i).symm]

section Loops

variable {leak : Prop} {t : Table} {L : ListId → List Slot} {p : Slot} {chan : Option Chan}

theorem wakeup1_rouse (h : Listed leak none t L) (chan : Option Chan) :
    ∃ u M, wakeup1 chan t = .ok u ∧ Listed leak none u M ∧ Rouse t u ∧ Still L M ∧
      u.parent = t.parent ∧ (Single t chan → Quiet u chan) ∧ Grows L M := by
  cases hf : (L .sleep).find? (fun q => t.chan q = chan) with
  | none =>
    have hc : ∀ q ∈ L .sleep, t.chan q ≠ chan := by simpa using hf
    exact ⟨t,L,wakeup1_none h hc,h,Rouse.refl t,⟨rfl,rfl,rfl,rfl⟩,rfl,
      fun _ q hq => hc q (h.mem_sleep hq),Grows.refl L⟩
  | some p =>
    obtain ⟨ls,hw,h1⟩ := wakeup1_some h hf
    have hps : t.state p = .sleeping := h.fits .sleep p (List.mem_of_find?_eq_some hf)
    have hpc : t.chan p = chan := by simpa using List.find?_some hf
    refine ⟨_,_,hw,h1,⟨rfl,fun q => ?_⟩,move_still L p _,rfl,fun hu q hq hqc => ?_,
      move_grows L p (by simp)⟩
    · by_cases hqp : q = p
      · exact Or.inr (by simp [hqp, hps])
      · exact Or.inl (by simp [hqp])
    by_cases hqp : q = p
    · simp [hqp] at hq
    · simp only [update_of_ne hqp] at hq
      exact hqp (hu q p hq hps hqc hpc)

theorem adopt_foldl (qs : List Slot) (t : Table) :
    qs.foldl (fun t q => adopt p q t) t = { t with
      parent := fun q => if t.parent q = some p ∧ q ∈ qs then t.initproc else t.parent q } := by
  induction qs generalizing t with
  | nil => simp
  | cons a qs ih =>
    rw [List.foldl_cons, ih]
    by_cases ha : t.parent a = some p
    · simp only [adopt, ha, if_true, Table.mk.injEq, and_true, true_and]
      funext q
      by_cases hqa : q = a
      · subst hqa; simp [ha]
      · simp [hqa]
    simp only [adopt, ha, if_false, Table.mk.injEq, and_true, true_and]
    funext q
    by_cases hqa : q = a
    · subst hqa; simp [ha]
    · simp [hqa]

theorem reparentAll_spec (h : Listed leak none t L) (ids : List ListId) :
    reparentAll p ids t = .ok { t with
      parent := fun q => if t.parent q = some p ∧ q ∈ ids.flatMap L then t.initproc
        else t.parent q } := by
  induction ids generalizing t with
  | nil => simp [reparentAll]
  | cons l ids ih =>
    have hr : reparent p l t = .ok ((L l).foldl (fun t q => adopt p q t) t) := by
      rw [reparent, h.walk l]
      rfl
    have h' : Listed leak none { t with
        parent := fun q => if t.parent q = some p ∧ q ∈ L l then t.initproc else t.parent q } L :=
      h.congr rfl rfl rfl
    rw [reparentAll, hr, ok_bind, adopt_foldl, ih h']
    simp only [Except.ok.injEq, Table.mk.injEq, and_true, true_and]
    funext q
    by_cases hq : t.parent q = some p
    · by_cases hl : q ∈ L l
      · simp [hq, hl]
      · simp [hq, hl]
    · simp [hq]

theorem next_eq (h : Listed leak none t L) {l : ListId} {a b : List Slot} {q : Slot}
    (hl : L l = a++q::b) : t.lists.next q = b.head? := by
  have hs := (h.rep.queue l).seg
  rw [hl] at hs
  obtain ⟨mid,_,_,hs⟩ := (seg_append _ _ _ _ _).mp hs
  cases b with
  | nil => exact hs
  | cons c b => exact hs.1

theorem reparentZombies_spec (h : Listed leak none t L) (a b : List Slot) (n : ℕ)
    (hz : L .zombie = a++b) (hn : b.length ≤ n) :
    ∃ u M, reparentZombies p n b.head? t = .ok u ∧ Listed leak none u M ∧ Rouse t u ∧ Still L M ∧
      (u.parent = fun q => if t.parent q = some p ∧ q ∈ b then t.initproc else t.parent q) ∧
      (Single t (t.initproc.map .proc) → (∃ q ∈ b, t.parent q = some p) →
        Quiet u (t.initproc.map .proc)) ∧ Grows L M := by
  induction b generalizing t L a n with
  | nil =>
    exact ⟨t,L,by cases n <;> rfl,h,Rouse.refl t,⟨rfl,rfl,rfl,rfl⟩,by simp,by simp,Grows.refl L⟩
  | cons q b ih =>
    obtain _ | n := n
    · simp at hn
    have hqb : q ∉ b := by
      have := (h.rep.queue .zombie).nodup
      rw [hz] at this
      exact (List.nodup_cons.mp (List.nodup_append.mp this).2.1).1
    by_cases hq : t.parent q = some p
    · obtain ⟨u,M,hw,hu,hru,hst,hpar,hquiet,hgrow⟩ := wakeup1_rouse
        (h.congr (u := { t with parent := update t.parent q t.initproc }) rfl rfl rfl)
        (t.initproc.map .proc)
      have hzM : M .zombie = L .zombie := hst.2.2.1
      obtain ⟨v,N,hv,hN,hrv,hst',hpar',_,hgrow'⟩ := ih hu (a++[q]) n (by rw [hzM, hz]; simp)
        (by simpa using hn)
      have hrt : Rouse t u := ⟨by rw [hru.same],hru.state⟩
      refine ⟨v,N,?_,hN,hrt.trans hrv,?_,?_,?_,hgrow.trans hgrow'⟩
      · rw [List.head?_cons, reparentZombies, if_pos hq, hw, ok_bind, next_eq hu (hzM.trans hz)]
        exact hv
      · exact ⟨hst'.1.trans hst.1,hst'.2.1.trans hst.2.1,hst'.2.2.1.trans hst.2.2.1,
          hst'.2.2.2.trans hst.2.2.2⟩
      · rw [hpar', hpar, hru.initproc_eq]
        funext r
        by_cases hr : r = q
        · subst hr; simp [hq, hqb]
        · simp [hr]
      · exact fun hs _ => hrv.quiet (hquiet hs)
    · obtain ⟨v,N,hv,hN,hrv,hst',hpar',hquiet,hgrow⟩ := ih h (a++[q]) n (by rw [hz]; simp)
        (by simpa using hn)
      refine ⟨v,N,?_,hN,hrv,hst',?_,?_,hgrow⟩
      · rw [List.head?_cons, reparentZombies, if_neg hq, next_eq h hz]
        exact hv
      · rw [hpar']
        funext r
        by_cases hr : r = q
        · subst hr; simp [hq]
        · simp [hr]
      · rintro hs ⟨r,hr,hrp⟩
        have hrq : r ≠ q := fun e => hq (e ▸ hrp)
        exact hquiet hs ⟨r,by simpa [hrq] using hr,hrp⟩

end Loops

variable {L : ListId → List Slot}

theorem Listed.mem_live_iff {leak : Prop} {t : Table} {q : Slot} (h : Listed leak none t L) :
    q ∈ liveLists.flatMap L ↔ q ∉ L .free ∧ q ∉ L .zombie := by
  have hl : ∀ l, l ∈ liveLists ↔ l ≠ .free ∧ l ≠ .zombie := by
    intro l
    cases l <;> simp [liveLists, readyLists]
  obtain ⟨m,hm⟩ := h.total q (by simp)
  rw [List.mem_flatMap]
  constructor
  · rintro ⟨l,hml,hql⟩
    obtain ⟨h1,h2⟩ := (hl l).mp hml
    exact ⟨fun hf => h1 (h.unique hql hf),fun hz => h2 (h.unique hql hz)⟩
  · rintro ⟨h1,h2⟩
    exact ⟨m,(hl m).mpr ⟨fun e => h1 (e ▸ hm),fun e => h2 (e ▸ hm)⟩,hm⟩

structure Exited (p : Slot) (t u : Table) (L : ListId → List Slot) : Prop where
  same : u = { t with
    lists := u.lists
    state := u.state
    parent := u.parent
    cpuTicksTotal := u.cpuTicksTotal }
  self : u.state p = .zombie
  state : ∀ q, q ≠ p → u.state q = t.state q ∨ t.state q = .sleeping ∧ u.state q = .runnable
  parent : ∀ q, u.parent q =
    if t.parent q = some p ∧ q ∉ L .free then t.initproc else t.parent q
  wakesParent : ∀ r, t.parent p = some r → Single t (some (.proc r)) → Quiet u (some (.proc r))
  wakesInit : (∃ q, t.state q = .zombie ∧ t.parent q = some p) →
    Single t (t.initproc.map .proc) → Quiet u (t.initproc.map .proc)

theorem exit_ne_initproc {t u : Table} {p : Slot} (h : ProcTable.exit p t = .ok u) :
    t.initproc ≠ some p := by
  intro hi
  rw [ProcTable.exit, if_pos hi] at h
  cases h

theorem exit_spec {leak : Prop} {t : Table} {p : Slot}
    (h : Listed leak none t L) (hs : t.state p = .running) (hi : t.initproc ≠ some p) :
    ∃ u M, exit p t = .ok u ∧ Listed leak none u M ∧ M .free = L .free ∧ Exited p t u L ∧
      Grows L M := by
  obtain ⟨t1,L1,hw,h1,r1,s1,p1,q1,g1⟩ := wakeup1_rouse h ((t.parent p).map .proc)
  have hall := reparentAll_spec (p := p) h1 liveLists
  set t2 : Table := { t1 with
    parent := fun q => if t1.parent q = some p ∧ q ∈ liveLists.flatMap L1 then t1.initproc
      else t1.parent q } with ht2
  have h2 : Listed leak none t2 L1 := h1.congr rfl rfl rfl
  have r2 : Rouse t t2 := ⟨by rw [ht2, r1.same],r1.state⟩
  obtain ⟨t3,L3,hz,h3,r3,s3,p3,q3,g3⟩ := reparentZombies_spec (p := p) h2 [] (L1 .zombie) NPROC rfl
    (h2.rep.length_le .zombie)
  rw [← (h2.rep.queue .zombie).head_eq] at hz
  have r13 : Rouse t t3 := r2.trans r3
  have hp3 : t3.state p = .running := by rw [r13.state_eq (by simp [hs]), hs]
  obtain ⟨ls,hl,h4⟩ := leave_spec h3 "exit - remove from running failed\n" (h3.mem_running hp3) hp3
  obtain ⟨ls',he,h5⟩ := enter_spec (l := .zombie) (h4.setState .zombie) .zombie
    (by simp [Table.setState]) (by simp [Fits, Table.setState])
  refine ⟨_,_,?_,h5.congr (u := { t3 with
      lists := ls', state := update t3.state p .zombie,
      cpuTicksTotal := update t3.cpuTicksTotal p
        (t3.cpuTicksTotal p+(t3.ticks-t3.cpuTicksIn p)) }) rfl rfl rfl,?_,?_,
    (g1.trans g3).trans (move_grows L3 p (by simp))⟩
  · rw [exit, if_neg hi, hw, ok_bind, hall, ok_bind, hz, ok_bind, hl, ok_bind]
    refine (congrArg (· >>= sched p) he).trans ?_
    simp [sched, Table.setState]
  · simp [s3.1, s1.1]
  have hquiet : ∀ c, Quiet t3 c → Quiet { t3 with
      lists := ls', state := update t3.state p .zombie,
      cpuTicksTotal := update t3.cpuTicksTotal p
        (t3.cpuTicksTotal p+(t3.ticks-t3.cpuTicksIn p)) } c := by
    intro c hc q hq
    by_cases hqp : q = p
    · simp [hqp] at hq
    · exact hc q (by simpa [hqp] using hq)
  refine ⟨by rw [r13.same],by simp,fun q hq => by simpa [hq] using r13.state q,fun q => ?_,
    fun r hr hsing => hquiet _ (r3.quiet ?_),fun hex hsing => hquiet _ ?_⟩
  · have hfree : q ∉ L .free ↔ q ∈ liveLists.flatMap L1 ∨ q ∈ L1 .zombie := by
      rw [Listed.mem_live_iff h1, s1.1]
      have : q ∈ L1 .zombie → q ∉ L .free := fun hz hf => by
        have := h1.unique hz (s1.1 ▸ hf)
        cases this
      tauto
    have hi1 : t1.initproc = t.initproc := r1.initproc_eq
    simp only [p3, ht2, p1, hi1, hfree]
    grind
  · have := q1 (by rw [hr]; exact hsing)
    rw [hr] at this
    exact this
  obtain ⟨z,hz,hzp⟩ := hex
  have hz1 : t1.state z = .zombie := by rw [r1.state_eq (by simp [hz]), hz]
  have hzl : z ∈ L1 .zombie := h1.mem_zombie hz1
  have hi2 : t2.initproc = t.initproc := r2.initproc_eq
  rw [← hi2]
  refine q3 (by rw [hi2]; exact r2.single hsing) ⟨z,hzl,?_⟩
  have hzn : z ∉ liveLists.flatMap L1 := fun hm => ((Listed.mem_live_iff h1).mp hm).2 hzl
  simp only [ht2, hzn, and_false, if_false, p1]
  exact hzp

end Yeet.ProcExit
