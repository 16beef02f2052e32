import YeetKernel.ExitWait

/-!
# Ten kinds of change to the process table

Of the effects of the actions only what they do to states, parents, the
`killed` and `kstack` fields and the free list is kept. There are ten kinds of
change.
-/

namespace Yeet.ProcChange
open Kernel StateLists ProcTable ProcSpec ProcStep ProcControl ProcEffect Family
open ProcShift Function

def freeList (ls : Lists) : List Slot :=
  match walkFrom ls (ls.head .free) with
  | .ok l => l
  | .error _ => []

theorem freeList_eq {leak : Prop} {t : Table} {L : ListId → List Slot}
    (h : Listed leak none t L) : freeList t.lists = L .free := by
  rw [freeList, h.walk .free]

def marks (t : Table) : (Slot → Option Slot) × (Slot → Bool) × (Slot → Bool) :=
  (t.parent,t.killed,t.kstack)

def aborted (s : State) : Action → Option Slot
  | .forkAbort c =>
    match s.cpu c with
    | .running p _ =>
      match s.doing p with
      | .forkCopy np => some np
      | _ => none
    | _ => none
  | _ => none

def Calm (e : Event) : Prop := (∀ p q n, e ≠ .forked p q n) ∧ ∀ p, e ≠ .exited p

def Switches (t u : Table) (q : Slot) : Prop :=
  u.state q = t.state q ∨ Live (t.state q) ∧ Live (u.state q)

/-- What an action with an event does to the table `t`, which becomes `u`. -/
inductive Change (s : State) (a : Action) (t u : Table) (e : Event) : Prop where
  | switch (calm : Calm e) (hm : marks u = marks t) (init : u.initproc = t.initproc)
      (free : freeList u.lists = freeList t.lists) (state : ∀ q, Switches t u q)
  | kill (q : Slot) (hq : q ∉ freeList t.lists) (calm : Calm e)
      (hm : marks u = (t.parent,update t.killed q true,t.kstack))
      (init : u.initproc = t.initproc) (free : freeList u.lists = freeList t.lists)
      (state : ∀ q, Switches t u q)
  | alloc (q : Slot) (calm : Calm e) (hm : marks u = marks t)
      (init : u.initproc = t.initproc ∨ ∀ r, t.state r = .unused)
      (free : freeList t.lists = q::freeList u.lists) (state : u.state = update t.state q .embryo)
  | stack (q : Slot) (hq : t.state q = .embryo) (calm : Calm e)
      (hm : marks u = (t.parent,t.killed,update t.kstack q true))
      (init : u.initproc = t.initproc) (free : freeList u.lists = freeList t.lists)
      (state : u.state = t.state)
  | noStack (q : Slot) (hq : t.state q = .embryo) (calm : Calm e)
      (hm : marks u = (t.parent,t.killed,update t.kstack q false))
      (init : u.initproc = t.initproc) (free : freeList u.lists = freeList t.lists)
      (state : u.state = update t.state q .unused)
  | abort (q : Slot) (hq : t.state q = .embryo) (ha : aborted s a = some q) (calm : Calm e)
      (hm : marks u = (t.parent,t.killed,update t.kstack q false))
      (init : u.initproc = t.initproc) (free : freeList u.lists = q::freeList t.lists)
      (state : u.state = update t.state q .unused)
  | first (q : Slot) (hq : t.state q = .embryo) (hi : t.initproc = some q) (calm : Calm e)
      (hm : marks u = (update t.parent q (some q),t.killed,t.kstack))
      (init : u.initproc = t.initproc) (free : freeList u.lists = freeList t.lists)
      (state : u.state = update t.state q .runnable)
  | born (p q : Slot) (n : Uint) (hp : t.state p = .running) (hq : t.state q = .embryo)
      (he : e = .forked p q n) (hm : marks u = (update t.parent q (some p),t.killed,t.kstack))
      (init : u.initproc = t.initproc) (free : freeList u.lists = freeList t.lists)
      (state : u.state = update t.state q .runnable)
  | dies (p : Slot) (hp : t.state p = .running) (hi : t.initproc ≠ some p) (he : e = .exited p)
      (hm : marks u = (fun q =>
        if t.parent q = some p ∧ q ∉ freeList t.lists then t.initproc else t.parent q,
        t.killed,t.kstack))
      (init : u.initproc = t.initproc) (free : freeList u.lists = freeList t.lists)
      (self : u.state p = .zombie) (state : ∀ q, q ≠ p → Switches t u q)
  | reaped (q : Slot) (hq : t.state q = .zombie) (calm : Calm e) (hm : marks u =
        (update t.parent q none,update t.killed q false,update t.kstack q false))
      (init : u.initproc = t.initproc) (free : freeList u.lists = freeList t.lists++[q])
      (state : u.state = update t.state q .unused)

theorem calm_silent : Calm .silent := by
  simp [Calm]

theorem live_of_rouse {t u : Table} {q : Slot}
    (h : u.state q = t.state q ∨ t.state q = .sleeping ∧ u.state q = .runnable) :
    Switches t u q := by
  rcases h with h | ⟨h1,h2⟩
  · exact Or.inl h
  · exact Or.inr ⟨by simp [Live, h1],by simp [Live, h2]⟩

section Effects

variable {s s' : State} {K : Kin} {p : Slot} {a : Action} {e : Event}

theorem effect_change (hc : Consistent True s) (hk : Kinship s K) (he : Effect s a s' e) :
    Change s a s.tab s'.tab e := by
  obtain ⟨L,hL⟩ := hc.placed
  obtain ⟨M,hM,hx⟩ := effect_shift hc hL he
  generalize s'.tab = u, s'.cpu = k at hx hM ⊢
  have hL' := freeList_eq hL
  have hM' : freeList u.lists = M .free := freeList_eq hM
  cases hx with
  | switch event keeps killed free queue state asleep boot =>
    obtain ⟨hpar,-,-,hi,hks⟩ := keeps
    have hf : freeList u.lists = freeList s.tab.lists := by rw [hM', hL', free]
    rcases killed with hkill | ⟨q,hq,hkill⟩
    · exact .switch event.2 (Prod.ext hpar (Prod.ext hkill hks)) hi hf state
    · exact .kill q (by rwa [hL']) event.2 (Prod.ext hpar (Prod.ext hkill hks)) hi hf state
  | alloc hf hq act init =>
    refine .alloc _ calm_silent rfl (init.imp And.left And.left) ?_ rfl
    rw [hM', hL']
    simp [moveFront, hf]
  | stack hq boot => exact .stack _ hq calm_silent rfl rfl rfl rfl
  | noStack hd => exact .noStack _ (hc.embryo _ _ hd) calm_silent rfl rfl rfl rfl
  | abort ha hcpu hd =>
    subst ha
    refine .abort _ (hc.copying hd) (by simp [aborted, hcpu, hd]) calm_silent rfl rfl ?_ rfl
    rw [hM', hL']
    simp [moveFront]
  | @first q ls hcpu =>
    have hb : bootEmbryo (s.cpu bootCpu) = some q := by rw [hcpu]; rfl
    refine .first q (hc.bootSlot q hb).1 (hk.bootInit q hb) calm_silent rfl rfl ?_ rfl
    rw [hM', hL']
    simp [move, readyOf]
  | born hp hd =>
    refine .born _ _ _ hp (hc.copying hd) rfl rfl rfl ?_ rfl
    rw [hM', hL']
    simp [move, readyOf]
  | @dies p _ _ _ hp hi hx free grows boot =>
    have hpar : u.parent = fun q =>
        if s.tab.parent q = some p ∧ q ∉ freeList s.tab.lists then s.tab.initproc
        else s.tab.parent q := by
      funext q
      rw [hx.parent q, hL']
    refine .dies p hp hi rfl ?_ (by rw [hx.same]) (by rw [hM', hL', free]) hx.self
      (fun q hq => live_of_rouse (hx.state q hq))
    rw [marks, hpar]
    rw [hx.same]
  | reaped hq hx boot =>
    refine .reaped _ hq (by simp [Calm]) rfl rfl ?_ rfl
    rw [hM', hL']
    simp [move]

end Effects

end Yeet.ProcChange
