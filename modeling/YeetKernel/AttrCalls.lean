import Mathlib.Algebra.Group.Pi.Lemmas
import Mathlib.Tactic.Abel
import YeetKernel.RefQuiet
import YeetKernel.Outcome

/-!
# `chmod`, `chown` and `chgrp`

The three calls look a path up, change one attribute of the inode, and return
zero whatever the lookup gave. The reference that `namei` returns is not put
back. So a call that finds the inode leaves one reference more in the cache
than before, and a call that does not find it reports success.
-/

namespace Yeet.AttrCalls
open Kernel FsDisk Fs Resumption RefHand

variable {α β : Type} {k : α → Ino → ℤ} {x : FsProg α}

/-- The references that a program adds, slot by slot. -/
def Adds (x : FsProg α) (k : α → Ino → ℤ) : Prop :=
  ∀ s, Ends x (fun o => ∀ a s', o = some (.ok (a,s')) → s'.iref = s.iref+k a) s

def one (i : Ino) : Ino → ℤ := Pi.single i 1

def found (o : Option Ino) : Ino → ℤ := o.elim 0 one

theorem adds_bind {g : α → FsProg β} {m : β → Ino → ℤ} (hx : Adds x k)
    (hg : ∀ a, Adds (g a) (fun b => m b-k a)) : Adds (x >>= g) m := by
  intro s
  apply ends_bind
  apply ends_mono (hx s)
  intro o ho
  match o with
  | none =>
    intro b s' e
    cases e
  | some (.error _) =>
    intro b s' e
    cases e
  | some (.ok (a,t)) =>
    apply ends_mono (hg a t)
    intro o' ho' b s' e
    rw [ho' b s' e, ho a t rfl, add_add_sub_cancel]

theorem adds_congr {m : α → Ino → ℤ} (h : Adds x k) (hk : ∀ a, k a = m a) : Adds x m :=
  funext hk ▸ h

theorem adds_pure (a : α) (hk : k a = 0) : Adds (pure a) k := by
  intro s
  apply ends_pure
  intro b s' e
  cases e
  rw [hk, add_zero]

theorem adds_quiet (h : x.Does Quiet) : Adds x (fun _ => 0) := by
  intro s
  apply ends_mono (ends_of_does Quiet.refl (fun _ _ _ h1 h2 => h1.trans h2) h s)
  intro o ho a s' e
  rw [(ho a s' e).iref, add_zero]

theorem adds_halt {msg : String} : Adds (halt msg : FsProg α) k := by
  intro s
  apply ends_atom
  intro a s' e
  cases e

theorem update_eq {r : Ino → ℤ} {i : Ino} {m n : ℤ} (h : m = r i+n) :
    Function.update r i m = r+Pi.single i n := by
  ext1 j
  rcases eq_or_ne j i with rfl | hj
  · simp [h]
  · simp [hj]

theorem iget_adds (dev inum : Uint) : Adds (iget dev inum) one := by
  intro s
  apply ends_atom
  intro i s' e
  rcases iget_cases (Option.some.inj e) with ⟨_,_,_,rfl⟩ | ⟨_,h0,rfl⟩
  · exact update_eq rfl
  · exact update_eq (by simp [State.setInode, h0])

theorem idup_adds (i : Ino) : Adds (idup i) (fun _ => one i) := by
  intro s
  apply ends_atom
  intro a s' e
  cases e
  exact update_eq rfl

theorem iput_adds (i : Ino) : Adds (iput i) (fun _ => -one i) := by
  have hone : -one i = Pi.single i (-1) := (Pi.single_neg i 1).symm
  unfold iput
  apply adds_bind (k := fun last => if last then 0 else -one i)
  · intro s
    apply ends_atom
    intro last s' e
    replace e : s.put i = .ok (last,s') := Option.some.inj e
    unfold State.put at e
    split at e
    · split at e
      · cases e
      · cases e
        simp [State.setInode]
    · cases e
      simp only [Bool.false_eq_true, if_false, hone]
      exact update_eq (sub_eq_add_neg _ _)
  intro last
  cases last with
  | false => exact adds_pure _ (by simp)
  | true =>
    simp only [if_true]
    apply adds_bind (k := fun _ => 0)
    · apply adds_quiet
      apply does_perform
      intro s a s' e
      obtain ⟨v,_,e⟩ := bind_eq_ok.mp e
      cases e
      exact Quiet.of rfl rfl rfl
    intro _
    apply adds_bind (adds_quiet (does_store i _))
    intro _ s
    apply ends_atom
    intro a s' e
    cases e
    rw [sub_zero, sub_zero, sub_zero, hone]
    exact update_eq (sub_eq_add_neg _ _)

theorem iunlockput_adds (i : Ino) : Adds (iunlockput i) (fun _ => -one i) := by
  apply adds_bind (adds_quiet (does_iunlock i))
  intro _
  exact adds_congr (iput_adds i) (fun _ => (sub_zero _).symm)

theorem dirlookup_adds (dp : Ino) (name : Name) :
    Adds (dirlookup dp name) (fun r => found (r.map Prod.fst)) := by
  unfold dirlookup
  apply adds_bind (adds_quiet does_look)
  intro x
  split
  · exact adds_halt
  apply adds_bind (adds_quiet (does_scanAll _ _ _ _))
  intro r
  cases r.2 with
  | none => exact adds_pure _ (by simp [found])
  | some de =>
    apply adds_bind (iget_adds _ _)
    intro i
    exact adds_pure _ (by simp [found])

theorem walk_adds (parent : Bool) (l : List Name) (ip : Ino) :
    Adds (walk parent l ip) (fun r => found (r.map Prod.fst)-one ip) := by
  induction l generalizing ip with
  | nil =>
    unfold walk
    split
    · apply adds_bind (iput_adds ip)
      intro _
      exact adds_pure _ (by simp [found])
    · exact adds_pure _ (by simp [found])
  | cons name l ih =>
    unfold walk
    apply adds_bind (adds_quiet (does_ilock ip))
    intro _
    apply adds_bind (adds_quiet does_look)
    intro type
    split
    · apply adds_bind (iunlockput_adds ip)
      intro _
      exact adds_pure _ (by simp [found])
    split
    · apply adds_bind (adds_quiet (does_iunlock ip))
      intro _
      exact adds_pure _ (by simp [found])
    apply adds_bind (dirlookup_adds ip name)
    intro next
    cases next with
    | none =>
      apply adds_bind (iunlockput_adds ip)
      intro _
      exact adds_pure _ (by simp [found])
    | some x =>
      apply adds_bind (iunlockput_adds ip)
      intro _
      apply adds_congr (ih x.1)
      intro r
      simp only [Option.map_some, found, Option.elim_some]
      abel

theorem namex_adds (p : Procno) (path : Path) (parent : Bool) :
    Adds (namex p path parent) (fun r => found (r.map Prod.fst)) := by
  have h := walk_adds parent (elements path.length path)
  unfold namex
  dsimp only
  split
  · exact adds_bind (iget_adds _ _) h
  apply adds_bind (adds_quiet does_look)
  intro cwd
  apply adds_bind (adds_quiet (does_deref cwd))
  intro ip
  apply adds_bind (idup_adds ip)
  intro _
  exact adds_congr (h ip) (fun r => by rw [sub_zero, sub_zero])

theorem namei_adds (p : Procno) (path : Path) : Adds (namei p path) found := by
  apply adds_bind (namex_adds p path false)
  intro r
  apply adds_pure
  cases r <;> simp [found]

def lookup (p : Procno) (path : Path) : FsProg (Option Ino) := do
  beginOp
  namei p path

theorem lookup_adds (p : Procno) (path : Path) : Adds (lookup p path) found := by
  apply adds_bind (adds_quiet does_beginOp)
  intro _
  exact adds_congr (namei_adds p path) (fun r => (sub_zero _).symm)

def ResolvesTo (p : Procno) (path : Path) (s : State) (n : ℕ) : Prop :=
  Ends (lookup p path) (fun o => ∃ i t, o = some (.ok (some i,t)) ∧ (t.inode i).inum.toNat = n) s

structure Applied (f : Dinode → Dinode) (s s' : State) (n : ℕ) : Prop where
  disk : ∀ m, s'.vol.dinode m = if m = n then f (s.vol.dinode m) else s.vol.dinode m
  cache : ∀ i, 0 < s.iref i → (s.inode i).valid = true →
    (s'.inode i).din = if (s.inode i).inum.toNat = n then f (s.inode i).din else (s.inode i).din
  refs : ∀ i, s'.iref i = s.iref i
  files : s'.file = s.file
  procs : s'.proc = s.proc

/-- What is expected of a call that sets an attribute: zero and the change if
the path resolves, -1 and no change if it does not. -/
def AttrLaw (f : Dinode → Dinode) (p : Procno) (path : Path) (s : State)
    (o : Outcome State Fault ℤ) : Prop :=
  ∃ r s', o = some (.ok (r,s')) ∧ (∀ n, ResolvesTo p path s n → r = 0 ∧ Applied f s s' n) ∧
    ((∀ n, ¬ ResolvesTo p path s n) → r = -1 ∧ s' = s)

def change (f : Dinode → Dinode) : Option Ino → FsProg ℤ
  | none => do
    endOp
    pure (-1)
  | some ip => do
    ilock ip
    assign (fun s => s.store ip f)
    iunlock ip
    endOp
    pure 0

theorem setAttr_eq (p : Procno) (path : Path) (f : Dinode → Dinode) :
    setAttr p path f = lookup p path >>= change f := by
  unfold setAttr lookup
  rw [bind_assoc]
  rfl

theorem change_quiet (f : Dinode → Dinode) (r : Option Ino) : (change f r).Does Quiet := by
  cases r with
  | none => exact does_bind does_endOp (fun _ => does_pure)
  | some ip =>
    apply does_bind (does_ilock ip)
    intro _
    apply does_bind (does_store ip f)
    intro _
    apply does_bind (does_iunlock ip)
    intro _
    exact does_bind does_endOp (fun _ => does_pure)

def answer (x : FsProg ℤ) : FsProg ℤ := do
  let _ ← x
  pure 0

theorem answer_zero (x : FsProg ℤ) (s : State) :
    Ends (answer x) (fun o => ∀ r s', o = some (.ok (r,s')) → r = 0) s := by
  apply ends_bind
  induction x generalizing s with
  | ret a =>
    intro r s' e
    cases e
    rfl
  | act f k ih =>
    simp only [Ends]
    split
    · intro r s' e
      cases e
    · intro r s' e
      cases e
    · exact ih _ _
  | pick k ih => exact fun n => ih n s

theorem answer_fails (f : Dinode → Dinode) (p : Procno) (path : Path) (s : State) :
    ¬ Ends (answer (setAttr p path f)) (AttrLaw f p path s) s := by
  intro h
  by_cases hres : ∃ n, ResolvesTo p path s n
  · obtain ⟨n,hn⟩ := hres
    unfold answer at h
    rw [setAttr_eq, bind_assoc] at h
    have h1 := ends_bind_iff.mp h
    obtain ⟨o,⟨hrest,hadds⟩,⟨i,t,rfl,_⟩⟩ :=
      ends_meet (ends_and h1 (lookup_adds p path s)) hn
    have hq : Adds (change f (some i) >>= fun _ => pure (0 : ℤ)) (fun _ => 0) :=
      adds_quiet (does_bind (change_quiet f (some i)) (fun _ => does_pure))
    obtain ⟨o',⟨r,s',rfl,hlaw,_⟩,hsum⟩ := ends_meet hrest (hq t)
    have hrefs := (hlaw n hn).2.refs i
    rw [hsum r s' rfl, hadds (some i) t rfl] at hrefs
    simp [found, one] at hrefs
  · obtain ⟨o,⟨r,s',rfl,_,hlaw⟩,hz⟩ := ends_meet h (answer_zero _ s)
    have h0 := hz r s' rfl
    have h1 := (hlaw (fun n hn => hres ⟨n,hn⟩)).1
    omega

/-- The calls never do what is expected of them: in no state, for no path and no
value that `sys_chmod` accepts. -/
theorem attr_calls_fail (p : Procno) (path : Path) (v : Uint) (s : State) :
    (0 ≤ v.toInt ∧ v.toInt ≤ modeMax →
      ¬ Ends (sysChmod p path v) (AttrLaw (fun d => {d with mode := v}) p path s) s) ∧
    ¬ Ends (sysChown p path v) (AttrLaw (fun d => {d with uid := v.setWidth 16}) p path s) s ∧
    ¬ Ends (sysChgrp p path v) (AttrLaw (fun d => {d with gid := v.setWidth 16}) p path s) s := by
  refine ⟨fun hv => ?_,answer_fails _ p path s,answer_fails _ p path s⟩
  have hr : ¬ (v.toInt > modeMax ∨ v.toInt < 0) := by omega
  unfold sysChmod
  rw [if_neg hr]
  exact answer_fails _ p path s

theorem attr_calls_fail_root : (0 ≤ (493 : Uint).toInt ∧ (493 : Uint).toInt ≤ modeMax) ∧
    ¬ Ends (sysChmod first [slash] 493)
      (AttrLaw (fun d => {d with mode := 493}) first [slash] (boot smallDisk)) (boot smallDisk) :=
  ⟨by decide,(attr_calls_fail first [slash] 493 (boot smallDisk)).1 (by decide)⟩

/-- `chmod("/", 0755)` leaves the root directory with two references, and
`chmod("/x", 0755)` returns zero though there is no such file. -/
theorem attr_calls_leak : (∃ h x, Lts.Run (exec machine) (Session.mk (boot smallDisk) none) h x ∧
      h.map Prod.fst = calls [(.chmod [slash] 493,8)] ∧ lastResult h = some 0 ∧
      (boot smallDisk).iref ⟨0,ninode_pos⟩ = 1 ∧ x.state.iref ⟨0,ninode_pos⟩ = 2) ∧
    (∃ h x, Lts.Run (exec machine) (Session.mk (boot smallDisk) none) h x ∧
      h.map Prod.fst = calls [(.chmod [slash,120] 493,20)] ∧ lastResult h = some 0) ∧
    ¬ Ends (sysChmod first [slash] 493)
      (AttrLaw (fun d => {d with mode := 493}) first [slash] (boot smallDisk)) (boot smallDisk) := by
  refine ⟨?_,?_,answer_fails _ _ _ _⟩
  · exact Lts.replay_reaches (exec machine) (Session.mk (boot smallDisk) none)
      (calls [(.chmod [slash] 493,8)]) (fun h x => lastResult h = some 0 ∧
        (boot smallDisk).iref ⟨0,ninode_pos⟩ = 1 ∧ x.state.iref ⟨0,ninode_pos⟩ = 2)
      (by decide +kernel)
  · exact Lts.replay_reaches (exec machine) (Session.mk (boot smallDisk) none)
      (calls [(.chmod [slash,120] 493,20)]) (fun h _ => lastResult h = some 0) (by decide +kernel)

end Yeet.AttrCalls
