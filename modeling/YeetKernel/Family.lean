import YeetKernel.ProcControl
import YeetKernel.ProcExit

/-!
# The family of processes

The events of a run say who forked whom, who exited and who was reaped. Their
summary, the family, is computed from the events alone. A table agrees with a
family when its zombies are the recorded children that have exited, when every
parent field names the creator or, for an orphan, the first process, and when
no parent sleeps in `wait` while it has a zombie child.
-/

namespace Yeet.Family
open Kernel StateLists ProcTable ProcSpec ProcExit ProcStep ProcControl Function

structure Child where
  creator : Slot
  pid : Uint
  orphan : Bool
  exited : Bool
  deriving DecidableEq, Repr

abbrev Kin := Slot → Option Child

def bury (p q : Slot) (c : Child) : Child :=
  { c with exited := c.exited || decide (q = p), orphan := c.orphan || decide (c.creator = p) }

def record (K : Kin) : Event → Kin
  | .forked p q pid => update K q (some ⟨p,pid,false,false⟩)
  | .exited p => fun q => (K q).map (bury p q)
  | .waited _ (.reaped q _) => update K q none
  | _ => K

def family (h : List (Action × Event)) : Kin :=
  h.foldl (fun K x => record K x.2) (fun _ => none)

/-- Who may reap `c`: its creator, or the first process for an orphan. -/
def guardian (init : Option Slot) (c : Child) : Option Slot :=
  if c.orphan then init else some c.creator

structure Kinship (s : State) (K : Kin) : Prop where
  ownChan : ∀ q r, s.tab.state q = .sleeping → s.tab.chan q = some (.proc r) → q = r
  heard : ∀ r z, s.tab.state r = .sleeping → s.tab.chan r = some (.proc r) →
    s.tab.state z = .zombie → s.tab.parent z ≠ some r
  absent : ∀ q, K q = none →
    s.tab.state q = .unused ∨ s.tab.state q = .embryo ∨ s.tab.initproc = some q
  present : ∀ q c, K q = some c → s.tab.state q ≠ .unused ∧ s.tab.state q ≠ .embryo
  exited : ∀ q c, K q = some c → (s.tab.state q = .zombie ↔ c.exited = true)
  pid : ∀ q c, K q = some c → s.tab.pid q = c.pid
  parent : ∀ q c, K q = some c → s.tab.parent q = guardian s.tab.initproc c
  creator : ∀ q c, K q = some c → c.creator ≠ q
  init : ∀ i, s.tab.initproc = some i →
    K i = none ∧ s.tab.state i ≠ .unused ∧ s.tab.state i ≠ .zombie
  initEmbryo : ∀ i, s.tab.initproc = some i → s.tab.state i = .embryo →
    bootEmbryo (s.cpu bootCpu) = some i
  bootInit : ∀ q, bootEmbryo (s.cpu bootCpu) = some q → s.tab.initproc = some q

def Live (st : ProcState) : Prop := st = .sleeping ∨ st = .runnable ∨ st = .running

section Step

variable {s s' u : State} {K : Kin} {p q : Slot} {a : Action} {e : Event}

section

variable (h : Kinship s K)
include h

theorem Kinship.zombie (hz : s.tab.state q = .zombie) : ∃ c, K q = some c ∧ c.exited = true := by
  cases hq : K q with
  | none =>
    rcases h.absent q hq with e | e | e
    · rw [hz] at e
      cases e
    · rw [hz] at e
      cases e
    · exact absurd hz (h.init q e).2.2
  | some c => exact ⟨c,rfl,(h.exited q c hq).mp hz⟩

theorem Kinship.shuffle (hi : u.tab.initproc = s.tab.initproc)
    (hpid : u.tab.pid = s.tab.pid) (hpar : u.tab.parent = s.tab.parent)
    (hst : ∀ q, u.tab.state q = s.tab.state q ∨ Live (s.tab.state q) ∧ Live (u.tab.state q))
    (hsl : ∀ q, u.tab.state q = .sleeping →
      s.tab.state q = .sleeping ∧ u.tab.chan q = s.tab.chan q ∨
      (∃ n, u.tab.chan q = some (.addr n)) ∨
      u.tab.chan q = some (.proc q) ∧ ∀ z, s.tab.state z = .zombie → s.tab.parent z ≠ some q)
    (hb : bootEmbryo (u.cpu bootCpu) = bootEmbryo (s.cpu bootCpu)) : Kinship u K := by
  have hiff : ∀ q st, ¬ Live st → (u.tab.state q = st ↔ s.tab.state q = st) := by
    intro q st hl
    rcases hst q with e | ⟨h1,h2⟩
    · rw [e]
    constructor
    · intro e
      exact absurd (e ▸ h2) hl
    · intro e
      exact absurd (e ▸ h1) hl
  have hz := fun q => hiff q .zombie (by simp [Live])
  have hu := fun q => hiff q .unused (by simp [Live])
  have he := fun q => hiff q .embryo (by simp [Live])
  refine ⟨fun q r hq hc => ?_,fun r z hr hc hzz => ?_,fun q hq => ?_,fun q c hq => ?_,
    fun q c hq => ?_,fun q c hq => ?_,fun q c hq => ?_,h.creator,fun i hx => ?_,
    fun i hx hemb => ?_,fun q hq => ?_⟩
  · rcases hsl q hq with ⟨h1,h2⟩ | ⟨n,h1⟩ | ⟨h1,-⟩
    · exact h.ownChan q r h1 (h2 ▸ hc)
    · rw [h1] at hc
      cases hc
    · rw [h1] at hc
      cases hc
      rfl
  · rw [hpar]
    rcases hsl r hr with ⟨h1,h2⟩ | ⟨n,h1⟩ | ⟨-,h2⟩
    · exact h.heard r z h1 (h2 ▸ hc) ((hz z).mp hzz)
    · rw [h1] at hc
      cases hc
    · exact h2 z ((hz z).mp hzz)
  · rw [hu, he, hi]
    exact h.absent q hq
  · rw [ne_eq, ne_eq, hu, he]
    exact h.present q c hq
  · rw [hz]
    exact h.exited q c hq
  · rw [hpid]
    exact h.pid q c hq
  · rw [hpar, hi]
    exact h.parent q c hq
  · rw [hi] at hx
    rw [ne_eq, ne_eq, hu, hz]
    exact h.init i hx
  · rw [hb]
    exact h.initEmbryo i (hi ▸ hx) ((he i).mp hemb)
  · rw [hi]
    exact h.bootInit q (hb ▸ hq)

theorem Kinship.change {K' : Kin} (hK : ∀ r, r ≠ q → K' r = K r)
    (hst : ∀ r, r ≠ q → s'.tab.state r = s.tab.state r)
    (hpid : ∀ r, r ≠ q → s'.tab.pid r = s.tab.pid r)
    (hpar : ∀ r, r ≠ q → s'.tab.parent r = s.tab.parent r)
    (hch : ∀ r, s.tab.state r = .sleeping → s'.tab.chan r = s.tab.chan r)
    (hi : s'.tab.initproc = s.tab.initproc)
    (hq : s'.tab.state q ≠ .sleeping ∧ s'.tab.state q ≠ .zombie) (hnone : K' q = none →
      s'.tab.state q = .unused ∨ s'.tab.state q = .embryo ∨ s.tab.initproc = some q)
    (hsome : ∀ c, K' q = some c → s'.tab.state q ≠ .unused ∧ s'.tab.state q ≠ .embryo ∧
      c.exited = false ∧ s'.tab.pid q = c.pid ∧ s'.tab.parent q = guardian s.tab.initproc c ∧
      c.creator ≠ q) (hinit : s.tab.initproc = some q → K' q = none ∧ s'.tab.state q ≠ .unused)
    (hemb : ∀ i, s.tab.initproc = some i → s'.tab.state i = .embryo →
      bootEmbryo (s'.cpu bootCpu) = some i)
    (hboot : ∀ r, bootEmbryo (s'.cpu bootCpu) = some r → s.tab.initproc = some r) :
    Kinship s' K' := by
  have hback : ∀ r st, s'.tab.state q ≠ st → s'.tab.state r = st → r ≠ q ∧ s.tab.state r = st := by
    intro r st h1 hr
    have e : r ≠ q := fun e => h1 (e ▸ hr)
    exact ⟨e,(hst r e).symm.trans hr⟩
  refine ⟨fun r z hr hc => ?_,fun r z hr hc hz => ?_,fun r hr => ?_,fun r c hr => ?_,
    fun r c hr => ?_,fun r c hr => ?_,fun r c hr => ?_,fun r c hr => ?_,fun i hx => ?_,
    fun i hx he => hemb i (hi ▸ hx) he,fun r hr => hi ▸ hboot r hr⟩
  · obtain ⟨-,hr⟩ := hback r _ hq.1 hr
    exact h.ownChan r z hr (hch r hr ▸ hc)
  · obtain ⟨-,hr⟩ := hback r _ hq.1 hr
    obtain ⟨e,hz⟩ := hback z _ hq.2 hz
    rw [hpar z e]
    exact h.heard r z hr (hch r hr ▸ hc) hz
  · rw [hi]
    by_cases e : r = q
    · subst e
      exact hnone hr
    · rw [hst r e]
      exact h.absent r (hK r e ▸ hr)
  · by_cases e : r = q
    · subst e
      exact ⟨(hsome c hr).1,(hsome c hr).2.1⟩
    · rw [hst r e]
      exact h.present r c (hK r e ▸ hr)
  · by_cases e : r = q
    · subst e
      simp [hq.2, (hsome c hr).2.2.1]
    · rw [hst r e]
      exact h.exited r c (hK r e ▸ hr)
  · by_cases e : r = q
    · subst e
      exact (hsome c hr).2.2.2.1
    · rw [hpid r e]
      exact h.pid r c (hK r e ▸ hr)
  · by_cases e : r = q
    · subst e
      rw [hi]
      exact (hsome c hr).2.2.2.2.1
    · rw [hpar r e, hi]
      exact h.parent r c (hK r e ▸ hr)
  · by_cases e : r = q
    · subst e
      exact (hsome c hr).2.2.2.2.2
    · exact h.creator r c (hK r e ▸ hr)
  rw [hi] at hx
  by_cases e : i = q
  · subst e
    exact ⟨(hinit hx).1,(hinit hx).2,hq.2⟩
  · rw [hK i e, hst i e]
    exact h.init i hx

theorem Kinship.blank (hq : s.tab.state q = .unused ∨ s.tab.state q = .embryo)
    (hq' : s'.tab.state q = .unused ∨ s'.tab.state q = .embryo)
    (hne : s.tab.initproc ≠ some q) (hst : ∀ r, r ≠ q → s'.tab.state r = s.tab.state r)
    (hpid : ∀ r, r ≠ q → s'.tab.pid r = s.tab.pid r) (hpar : s'.tab.parent = s.tab.parent)
    (hch : s'.tab.chan = s.tab.chan) (hi : s'.tab.initproc = s.tab.initproc)
    (hb : s'.cpu bootCpu = s.cpu bootCpu) : Kinship s' K := by
  refine h.change (q := q) (fun _ _ => rfl) hst hpid (fun r _ => by rw [hpar]) (fun r _ => by rw [hch])
    hi ?_ (fun _ => hq'.imp_right Or.inl) (fun c hc => ?_) (fun e => absurd e hne)
    (fun i hx he => ?_) (fun r hr => h.bootInit r (hb ▸ hr))
  · rcases hq' with e | e <;> simp [e]
  · obtain ⟨h1,h2⟩ := h.present q c hc
    exact absurd hq (not_or.mpr ⟨h1,h2⟩)
  · rw [hb]
    exact h.initEmbryo i hx ((hst i (fun e => hne (e ▸ hx))).symm.trans he)

theorem Kinship.born (hne : s.tab.initproc ≠ some q) (hpq : p ≠ q)
    (hst : s'.tab.state = update s.tab.state q .runnable) (hpid : s'.tab.pid = s.tab.pid)
    (hpar : s'.tab.parent = update s.tab.parent q (some p))
    (hch : s'.tab.chan = s.tab.chan) (hi : s'.tab.initproc = s.tab.initproc)
    (hb : s'.cpu bootCpu = s.cpu bootCpu) : Kinship s' (record K (.forked p q (s.tab.pid q))) := by
  have hK : record K (.forked p q (s.tab.pid q)) q = some ⟨p,s.tab.pid q,false,false⟩ :=
    update_self _ _ _
  refine h.change (q := q) (fun r e => update_of_ne e _ _) (fun r e => by rw [hst, update_of_ne e])
    (fun r _ => by rw [hpid]) (fun r e => by rw [hpar, update_of_ne e]) (fun r _ => by rw [hch]) hi
    (by simp [hst]) (fun e => ?_) (fun c hc => ?_) (fun e => absurd e hne) (fun i hx he => ?_)
    (fun r hr => h.bootInit r (hb ▸ hr))
  · rw [hK] at e
    cases e
  · obtain rfl := Option.some.inj (hK.symm.trans hc)
    simp [hst, hpid, hpar, guardian, hpq]
  · rw [hst, update_of_ne (fun e : i = q => hne (e ▸ hx))] at he
    rw [hb]
    exact h.initEmbryo i hx he

theorem Kinship.reaped (hq : s.tab.state q = .zombie) {n : Uint}
    (hst : u.tab.state = update s.tab.state q .unused)
    (hpid : ∀ r, r ≠ q → u.tab.pid r = s.tab.pid r)
    (hpar : ∀ r, r ≠ q → u.tab.parent r = s.tab.parent r)
    (hch : ∀ r, s.tab.state r = .sleeping → u.tab.chan r = s.tab.chan r)
    (hi : u.tab.initproc = s.tab.initproc)
    (hb : bootEmbryo (u.cpu bootCpu) = bootEmbryo (s.cpu bootCpu)) :
    Kinship u (record K (.waited p (.reaped q n))) := by
  have hne : s.tab.initproc ≠ some q := fun e => (h.init q e).2.2 hq
  refine h.change (q := q) (fun r e => update_of_ne e _ _) (fun r e => by rw [hst, update_of_ne e])
    hpid hpar hch hi (by simp [hst]) (fun _ => Or.inl (by rw [hst, update_self])) (fun c hc => ?_)
    (fun e => absurd e hne) (fun i hx he => ?_) (fun r hr => h.bootInit r (hb ▸ hr))
  · rw [record, update_self] at hc
    cases hc
  · rw [hst, update_of_ne (fun e : i = q => hne (e ▸ hx))] at he
    rw [hb]
    exact h.initEmbryo i hx he

theorem Kinship.single (r : Slot) : Single s.tab (some (.proc r)) := by
  intro q q' hq hq' hc hc'
  rw [h.ownChan q r hq hc, h.ownChan q' r hq' hc']

theorem Kinship.known (hp : s.tab.state p = .running)
    (hne : s.tab.initproc ≠ some p) : ∃ c, K p = some c := by
  cases hk : K p with
  | some c => exact ⟨c,rfl⟩
  | none =>
    rcases h.absent p hk with e | e | e
    · rw [hp] at e
      cases e
    · rw [hp] at e
      cases e
    · exact absurd e hne

theorem Kinship.not_own_parent (hne : s.tab.initproc ≠ some p) {c : Child}
    (hk : K p = some c) : s.tab.parent p ≠ some p := by
  rw [h.parent p c hk, guardian]
  split
  · exact hne
  · exact fun e => h.creator p c hk (Option.some.inj e)

theorem Kinship.dies (hp : s.tab.state p = .running)
    (hne : s.tab.initproc ≠ some p) {L : ListId → List Slot} {leak : Prop}
    (hL : Listed leak none s.tab L) (he : Exited p s.tab s'.tab L)
    (hb : bootEmbryo (s'.cpu bootCpu) = bootEmbryo (s.cpu bootCpu)) :
    Kinship s' (record K (.exited p)) := by
  obtain ⟨cp,hcp⟩ := h.known hp hne
  have hpid : s'.tab.pid = s.tab.pid := by rw [he.same]
  have hch : s'.tab.chan = s.tab.chan := by rw [he.same]
  have hi : s'.tab.initproc = s.tab.initproc := by rw [he.same]
  have hkid : ∀ r c', record K (.exited p) r = some c' → ∃ c, K r = some c ∧ bury p r c = c' :=
    fun r c' hr => Option.map_eq_some_iff.mp hr
  have hback : ∀ r st, st ≠ .zombie → st ≠ .runnable → s'.tab.state r = st →
      r ≠ p ∧ s.tab.state r = st := by
    intro r st h1 h2 hr
    have e : r ≠ p := by
      rintro rfl
      exact h1 (hr.symm.trans he.self)
    rcases he.state r e with hx | ⟨-,hx⟩
    · exact ⟨e,hx ▸ hr⟩
    · exact absurd (hr.symm.trans hx) h2
  have hforth : ∀ r st, r ≠ p → st ≠ .sleeping → s.tab.state r = st → s'.tab.state r = st := by
    intro r st e h1 hr
    rcases he.state r e with hx | ⟨hx,-⟩
    · rw [hx, hr]
    · exact absurd (hr.symm.trans hx) h1
  have hzom : ∀ z, z ≠ p → s'.tab.state z = .zombie → s.tab.state z = .zombie := by
    intro z e hz
    rcases he.state z e with hx | ⟨-,hx⟩
    · rw [← hx, hz]
    · rw [hz] at hx
      cases hx
  have hfree : ∀ r, s.tab.state r ≠ .unused → r ∉ L .free :=
    fun r hr hm => hr (hL.fits .free r hm)
  refine ⟨fun r z hr hc => ?_,fun r z hr hc hz hpz => ?_,fun r hr => ?_,fun r c' hr => ?_,
    fun r c' hr => ?_,fun r c' hr => ?_,fun r c' hr => ?_,fun r c' hr => ?_,fun i hx => ?_,
    fun i hx hemb => ?_,fun r hr => ?_⟩
  · exact h.ownChan r z (hback r _ (by simp) (by simp) hr).2 (hch ▸ hc)
  · have hr' := (hback r _ (by simp) (by simp) hr).2
    have hc' : s.tab.chan r = some (.proc r) := hch ▸ hc
    rw [he.parent z] at hpz
    by_cases e : z = p
    · subst e
      rw [if_neg (fun hx => h.not_own_parent hne hcp hx.1)] at hpz
      exact he.wakesParent r hpz (h.single r) r hr hc
    have hz' := hzom z e hz
    split at hpz
    · rename_i hx
      have hq := he.wakesInit ⟨z,hz',hx.1⟩
      rw [hpz] at hq
      exact hq (h.single r) r hr hc
    · exact h.heard r z hr' hc' hz' hpz
  · have hr' : K r = none := Option.map_eq_none_iff.mp hr
    have e : r ≠ p := by
      rintro rfl
      rw [hcp] at hr'
      cases hr'
    rw [hi]
    rcases h.absent r hr' with hx | hx | hx
    · exact Or.inl (hforth r _ e (by simp) hx)
    · exact Or.inr (Or.inl (hforth r _ e (by simp) hx))
    · exact Or.inr (Or.inr hx)
  · obtain ⟨c,hr,-⟩ := hkid r c' hr
    obtain ⟨h1,h2⟩ := h.present r c hr
    constructor
    · exact fun hx => h1 (hback r _ (by simp) (by simp) hx).2
    · exact fun hx => h2 (hback r _ (by simp) (by simp) hx).2
  · obtain ⟨c,hk,rfl⟩ := hkid r c' hr
    by_cases e : r = p
    · subst e
      simp [bury, he.self]
    have hx := h.exited r c hk
    simp only [bury, e, decide_false, Bool.or_false]
    rw [← hx]
    exact ⟨hzom r e,hforth r _ e (by simp)⟩
  · obtain ⟨c,hk,rfl⟩ := hkid r c' hr
    rw [hpid]
    exact h.pid r c hk
  · obtain ⟨c,hk,rfl⟩ := hkid r c' hr
    rw [he.parent r, hi, h.parent r c hk]
    have hf := hfree r (h.present r c hk).1
    cases ho : c.orphan with
    | true => simp [guardian, bury, ho, hne]
    | false =>
      by_cases hcr : c.creator = p
      · simp [guardian, bury, ho, hcr, hf]
      · simp [guardian, bury, ho, hcr]
  · obtain ⟨c,hk,rfl⟩ := hkid r c' hr
    exact h.creator r c hk
  · rw [hi] at hx
    have e : i ≠ p := fun e => hne (e ▸ hx)
    obtain ⟨h1,h2,h3⟩ := h.init i hx
    refine ⟨?_,fun hu => h2 (hback i _ (by simp) (by simp) hu).2,fun hz => h3 (hzom i e hz)⟩
    simp [record, h1]
  · rw [hb]
    exact h.initEmbryo i (hi ▸ hx) (hback i _ (by simp) (by simp) hemb).2
  · rw [hi]
    exact h.bootInit r (hb ▸ hr)

theorem Kinship.first (hfree : ∀ r, s.tab.state r = .unused)
    (hst : s'.tab.state = update s.tab.state q .embryo) (hi : s'.tab.initproc = some q)
    (hb : s'.cpu bootCpu = .booting (.stack q)) : Kinship s' K := by
  have hnone : ∀ r, K r = none := by
    intro r
    cases hr : K r with
    | none => rfl
    | some c => exact absurd (hfree r) (h.present r c hr).1
  have hstate : ∀ r, s'.tab.state r = .embryo ∧ r = q ∨ s'.tab.state r = .unused := by
    intro r
    by_cases e : r = q
    · exact Or.inl ⟨by rw [hst, e, update_self],e⟩
    · exact Or.inr (by rw [hst, update_of_ne e, hfree r])
  refine ⟨fun r z hr => ?_,fun r z hr => ?_,fun r _ => ?_,fun r c hr => ?_,fun r c hr => ?_,
    fun r c hr => ?_,fun r c hr => ?_,fun r c hr => ?_,fun i hx => ?_,fun i hx _ => ?_,
    fun r hr => ?_⟩
  · rcases hstate r with ⟨e,-⟩ | e <;> rw [e] at hr <;> cases hr
  · rcases hstate r with ⟨e,-⟩ | e <;> rw [e] at hr <;> cases hr
  · rcases hstate r with ⟨e,-⟩ | e
    · exact Or.inr (Or.inl e)
    · exact Or.inl e
  iterate 5
    rw [hnone] at hr
    cases hr
  · obtain rfl : q = i := Option.some.inj (hi.symm.trans hx)
    exact ⟨hnone q,by simp [hst],by simp [hst]⟩
  · obtain rfl : q = i := Option.some.inj (hi.symm.trans hx)
    rw [hb]
    rfl
  · rw [hb] at hr
    exact hi.trans hr

theorem Kinship.booted (hq : s.cpu bootCpu = .booting (.ready q)) (hemb : s.tab.state q = .embryo)
    (hst : s'.tab.state = update s.tab.state q .runnable) (hpid : s'.tab.pid = s.tab.pid)
    (hpar : ∀ r, r ≠ q → s'.tab.parent r = s.tab.parent r)
    (hch : s'.tab.chan = s.tab.chan) (hi : s'.tab.initproc = s.tab.initproc)
    (hb : s'.cpu bootCpu = .idle) : Kinship s' K := by
  have hiq : s.tab.initproc = some q := h.bootInit q (by rw [hq]; rfl)
  refine h.change (q := q) (fun _ _ => rfl) (fun r e => by rw [hst, update_of_ne e])
    (fun r _ => by rw [hpid]) hpar (fun r _ => by rw [hch]) hi (by simp [hst])
    (fun _ => Or.inr (Or.inr hiq)) (fun c hc => absurd hemb (h.present q c hc).2)
    (fun _ => ⟨(h.init q hiq).1,by simp [hst]⟩) (fun i hx he => ?_) (fun r hr => ?_)
  · obtain rfl := Option.some.inj (hiq.symm.trans hx)
    simp [hst] at he
  · rw [hb] at hr
    cases hr

end

end Step

end Yeet.Family
