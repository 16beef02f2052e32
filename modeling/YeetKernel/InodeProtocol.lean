import YeetKernel.InodeSlot

/-!
# The slots of the inode cache together

The invariant over all slots and processes, and what each kind of action on
the cache needs to keep it.
-/

namespace Yeet.Icache
open Kernel FsDisk Fs Function

/-- The hand as the process knows it, the hand as it is within an operation, and
the number `ialloc` has claimed and not looked up yet. -/
structure Hold where
  known : Hand
  real : Hand
  claimed : Option ℕ

def Hold.add (r : Hold) (i : Ino) (n : ℤ) : Hold := {r with real := r.real.add i n}

def Hold.setLock (r : Hold) (i : Ino) (l : Lock) : Hold := {r with real := r.real.setLock i l}

/-- A claimed number belongs to one process; its inode has no links, and a slot
for it is about to be given up. -/
structure Claim (s : State) (ρ : Procno → Hold) (p : Procno) (n : ℕ) : Prop where
  lt : n < s.vol.sb.ninodes
  type : (s.vol.dinode n).type ≠ 0
  unlinked : (s.vol.dinode n).nlink = 0
  single : ∀ q, (ρ q).claimed = some n → q = p
  stale : ∀ i, 0 < s.iref i → (s.inode i).inum.toNat = n →
    s.iref i = 1 ∧ ∃ q, (ρ q).real.lock i = .dead

structure Inv (named : Bool) (N : ℕ) (s : Client) (ρ : Procno → Hold) : Prop where
  laid : s.fs.vol.Laid
  ninodes : s.fs.vol.sb.ninodes = N
  known : ∀ p, s.hand p = (ρ p).known
  slot : ∀ i, Slot named s.fs.vol.sb.ninodes (s.fs.iref i) (s.fs.inode i)
    (s.fs.vol.dinode (s.fs.inode i).inum.toNat) (fun p => (ρ p).real.refs i)
    (fun p => (ρ p).real.lock i)
  unique : ∀ i j, 0 < s.fs.iref i → 0 < s.fs.iref j →
    (s.fs.inode i).inum = (s.fs.inode j).inum → i = j
  claim : named = true → ∀ p n, (ρ p).claimed = some n → Claim s.fs ρ p n
  last : ∀ p c t, s.last = some (p,c,t) → FreesDoomed named (s.hand p) c t s.fs

variable {named : Bool} {N : ℕ} {s : Client} {ρ : Procno → Hold} {p q : Procno} {c : Op} {i j : Ino}
  {fs : State} {r r' : Hold} {n : ℕ} {t : State} {h : Hand}

/-- The action concerns the slot `i` only, and of the disk nothing that belongs to
another slot. -/
structure Touch (s fs : State) (i : Ino) (r r' : Hold) : Prop where
  laid : fs.vol.Laid
  sb : fs.vol.sb = s.vol.sb
  iref : ∀ j, j ≠ i → fs.iref j = s.iref j
  inode : ∀ j, j ≠ i → fs.inode j = s.inode j
  disk : ∀ j, j ≠ i → 0 < s.iref j →
    fs.vol.dinode (s.inode j).inum.toNat = s.vol.dinode (s.inode j).inum.toNat
  known : r'.known = r.known
  refs : ∀ j, j ≠ i → r'.real.refs j = r.real.refs j
  lock : ∀ j, j ≠ i → r'.real.lock j = r.real.lock j

theorem Touch.real (ht : Touch s.fs fs i (ρ p) r') (hj : j ≠ i) (q : Procno) :
    (update ρ p r' q).real.refs j = (ρ q).real.refs j ∧
      (update ρ p r' q).real.lock j = (ρ q).real.lock j := by
  by_cases e : q = p
  · subst e
    rw [update_self]
    exact ⟨ht.refs j hj,ht.lock j hj⟩
  · rw [update_of_ne e]
    exact ⟨rfl,rfl⟩

theorem Inv.touch (hi : Inv named N s ρ) (ht : Touch s.fs fs i (ρ p) r')
    (hslot : Slot named s.fs.vol.sb.ninodes (fs.iref i) (fs.inode i)
      (fs.vol.dinode (fs.inode i).inum.toNat) (fun q => (update ρ p r' q).real.refs i)
      (fun q => (update ρ p r' q).real.lock i))
    (huniq : 0 < fs.iref i → ∀ j, j ≠ i → 0 < s.fs.iref j → (s.fs.inode j).inum ≠ (fs.inode i).inum)
    (hclaim : named = true → ∀ q n, (update ρ p r' q).claimed = some n →
      Claim fs (update ρ p r') q n) (hlast : FreesDoomed named (s.hand p) c s.fs fs) :
    Inv named N (s.did p c fs) (update ρ p r') := by
  constructor
  · exact ht.laid
  · exact (congrArg Superblock.ninodes ht.sb).trans hi.ninodes
  · intro q
    show s.hand q = _
    by_cases e : q = p
    · subst e
      rw [update_self, ht.known, hi.known]
    · rw [update_of_ne e, hi.known]
  · intro j
    show Slot named fs.vol.sb.ninodes (fs.iref j) (fs.inode j)
      (fs.vol.dinode (fs.inode j).inum.toNat) _ _
    rw [ht.sb]
    by_cases e : j = i
    · subst e
      exact hslot
    · simp only [ht.real e]
      rw [ht.iref j e, ht.inode j e]
      exact (hi.slot j).redisk (ht.disk j e)
  · show ∀ j k, 0 < fs.iref j → 0 < fs.iref k → (fs.inode j).inum = (fs.inode k).inum → j = k
    intro j k hj hk he
    by_cases ej : j = i
    · subst ej
      by_contra ek
      have ek : k ≠ j := fun e => ek e.symm
      rw [ht.iref k ek] at hk
      rw [ht.inode k ek] at he
      exact huniq hj k ek hk he.symm
    rw [ht.iref j ej] at hj
    rw [ht.inode j ej] at he
    by_cases ek : k = i
    · subst ek
      exact absurd he (huniq hk j ej hj)
    · rw [ht.iref k ek] at hk
      rw [ht.inode k ek] at he
      exact hi.unique j k hj hk he
  · exact hclaim
  · intro q c' t h
    cases h
    exact hlast

theorem Inv.claims (hi : Inv named N s ρ) (ht : Touch s.fs fs i (ρ p) r')
    (hc : ∀ m, r'.claimed = some m → (ρ p).claimed = some m)
    (hoff : named = true → ∀ q m, (update ρ p r' q).claimed = some m → (ρ q).claimed = some m →
      fs.vol.dinode m = s.fs.vol.dinode m ∧ (0 < fs.iref i → (fs.inode i).inum.toNat ≠ m)) :
    named = true → ∀ q m, (update ρ p r' q).claimed = some m → Claim fs (update ρ p r') q m := by
  intro hm q m hq
  have hold : ∀ z, (update ρ p r' z).claimed = some m → (ρ z).claimed = some m := by
    intro z hz
    by_cases e : z = p
    · subst e
      rw [update_self] at hz
      exact hc m hz
    · rwa [update_of_ne e] at hz
  obtain ⟨h1,h2,h3,h4,h5⟩ := hi.claim hm q m (hold q hq)
  obtain ⟨hd,hne⟩ := hoff hm q m hq (hold q hq)
  constructor
  · rwa [ht.sb]
  · rwa [hd]
  · rwa [hd]
  · exact fun z hz => h4 z (hold z hz)
  intro j hj he
  by_cases e : j = i
  · subst e
    exact absurd he (hne hj)
  rw [ht.iref j e] at hj ⊢
  rw [ht.inode j e] at he
  obtain ⟨h6,z,hz⟩ := h5 j hj he
  exact ⟨h6,z,by rw [(ht.real e z).2, hz]⟩

theorem Inv.off_claim (hi : Inv named N s ρ) (hm : named = true) (hp : 1 ≤ (ρ p).real.refs i)
    (hl : (ρ p).real.lock i ≠ .dead) {m : ℕ} (hq : (ρ q).claimed = some m) :
    (s.fs.inode i).inum.toNat ≠ m := by
  intro e
  have h1 := (hi.slot i).le p
  obtain ⟨h2,z,hz⟩ := (hi.claim hm q m hq).stale i (by omega) e
  have h3 : z ≠ p := fun e => hl (e ▸ hz)
  have h4 : (ρ z).real.refs i = 0 := (hi.slot i).others (p := p) (by omega) h3
  have h5 := (hi.slot i).backed z (by rw [hz]; decide)
  omega

theorem FreesDoomed.still (hv : fs.vol = t.vol)
    (hb : ∀ i, c = .put i → (t.inode i).busy = false → (fs.inode i).busy = false) :
    FreesDoomed named h c t fs := by
  constructor
  · intro i hc h1 h2
    rw [hb i hc h1] at h2
    cases h2
  · intro n _ h1 h2
    rw [hv] at h2
    exact absurd h2 h1
  · intro b h1 h2
    rw [hv, h1] at h2
    cases h2

theorem FreesDoomed.rewrite {d : Dinode} (hl : t.vol.Laid)
    (hn : n < t.vol.sb.ninodes) (hd : d.type ≠ 0) (hv : fs.vol = t.vol.setDinode n d)
    (hb : ∀ i, c = .put i → (t.inode i).busy = false → (fs.inode i).busy = false) :
    FreesDoomed named h c t fs := by
  constructor
  · intro i hc h1 h2
    rw [hb i hc h1] at h2
    cases h2
  · intro m _ h1 h2
    rw [hv] at h2
    by_cases e : m = n
    · rw [e, dinode_setDinode] at h2
      exact absurd h2 hd
    · rw [dinode_setDinode_ne _ e] at h2
      exact absurd h2 h1
  · intro b h1 h2
    rw [hv, inUse_setDinode hl hn, h1] at h2
    cases h2

theorem refs_update (i : Ino) : (fun q => (update ρ p r' q).real.refs i) =
    update (fun q => (ρ q).real.refs i) p (r'.real.refs i) := by
  funext q
  simp only [update_apply]
  split <;> rfl

theorem lock_update (i : Ino) : (fun q => (update ρ p r' q).real.lock i) =
    update (fun q => (ρ q).real.lock i) p (r'.real.lock i) := by
  funext q
  simp only [update_apply]
  split <;> rfl

section Actions

variable (hi : Inv named N s ρ) {k : ℤ}

include hi

theorem Inv.number_ne (hj : j ≠ i) (hij : 0 < s.fs.iref i) (hjj : 0 < s.fs.iref j) :
    (s.fs.inode j).inum ≠ (s.fs.inode i).inum :=
  fun e => hj (hi.unique j i hjj hij e)

theorem Inv.count (hr : r'.real = (ρ p).real.add i k) (hk : r'.known = (ρ p).known)
    (hpos : 0 < s.fs.iref i) (h0 : 0 ≤ (ρ p).real.refs i+k)
    (hb : (ρ p).real.lock i ≠ .free → 1 ≤ (ρ p).real.refs i+k)
    (hlive : named = true → (∀ q, (ρ q).real.lock i ≠ .dying) ∧
      (s.fs.vol.dinode (s.fs.inode i).inum.toNat).type ≠ 0)
    (hc : ∀ m, r'.claimed = some m → (ρ p).claimed = some m)
    (hoff : named = true → ∀ q m, (update ρ p r' q).claimed = some m → (ρ q).claimed = some m →
      (s.fs.inode i).inum.toNat ≠ m) :
    Inv named N (s.did p c (s.fs.setRef i (s.fs.iref i+k))) (update ρ p r') := by
  have hir : ∀ j, (s.fs.setRef i (s.fs.iref i+k)).iref j =
      if j = i then s.fs.iref i+k else s.fs.iref j := fun j => update_apply _ _ _ _
  have ht : Touch s.fs (s.fs.setRef i (s.fs.iref i+k)) i (ρ p) r' := by
    constructor
    · exact hi.laid
    · rfl
    · intro j hj
      rw [hir, if_neg hj]
    · exact fun _ _ => rfl
    · exact fun _ _ _ => rfl
    · exact hk
    · intro j hj
      rw [hr]
      exact update_of_ne hj _ _
    · intro j hj
      rw [hr]
      rfl
  apply hi.touch ht
  · rw [refs_update, lock_update, hir, if_pos rfl, hr,
      show ((ρ p).real.add i k).refs i = (ρ p).real.refs i+k from update_self _ _ _,
      show ((ρ p).real.add i k).lock i = (ρ p).real.lock i from rfl, update_eq_self]
    exact (hi.slot i).addRef hpos h0 hb hlive
  · intro _ j hj hjj
    exact hi.number_ne hj hpos hjj
  · exact hi.claims ht hc (fun hm q m h1 h2 => ⟨rfl,fun _ => hoff hm q m h1 h2⟩)
  · exact FreesDoomed.still rfl (fun _ _ h => h)

theorem Inv.addRef (hp : 1 ≤ (ρ p).real.refs i) (hdead : (ρ p).real.lock i ≠ .dead)
    (hdying : (ρ p).real.lock i ≠ .dying) (h0 : 0 ≤ (ρ p).real.refs i+k)
    (hb : (ρ p).real.lock i ≠ .free → 1 ≤ (ρ p).real.refs i+k) :
    Inv named N (s.did p c (s.fs.setRef i (s.fs.iref i+k))) (update ρ p ((ρ p).add i k)) := by
  have hpos := (hi.slot i).le p
  refine hi.count rfl rfl (by omega) h0 hb (fun hm => ?_) (fun _ h => h) (fun hm q m _ hq => ?_)
  · exact ⟨(hi.slot i).not_dying hm hp hdying,(hi.slot i).alive hm hp hdead⟩
  · exact hi.off_claim hm hp hdead hq

theorem Inv.relock {x : Inode} {v : Volume} {l : Lock}
    (hfs : fs = {s.fs with vol := v}.setInode i x) (hp : 1 ≤ (ρ p).real.refs i)
    (hdead : (ρ p).real.lock i ≠ .dead) (ho : ∀ q, q ≠ p → (ρ q).real.lock i = .free)
    (hdev : x.dev = (s.fs.inode i).dev) (hinum : x.inum = (s.fs.inode i).inum)
    (hlaid : v.Laid) (hsb : v.sb = s.fs.vol.sb)
    (hdisk : ∀ m, m < s.fs.vol.sb.ninodes → m ≠ x.inum.toNat → v.dinode m = s.fs.vol.dinode m)
    (hf : Fit named x (v.dinode x.inum.toNat) (s.fs.iref i) l)
    (hs : named = true → (v.dinode x.inum.toNat).type = 0 → s.fs.iref i = 1 ∧ l = .dead)
    (hlast : FreesDoomed named (s.hand p) c s.fs fs) :
    Inv named N (s.did p c fs) (update ρ p ((ρ p).setLock i l)) := by
  subst hfs
  have hpos : 0 < s.fs.iref i := by
    have := (hi.slot i).le p
    omega
  have hin : ∀ j, ({s.fs with vol := v}.setInode i x).inode j =
      if j = i then x else s.fs.inode j := fun j => update_apply _ _ _ _
  have ht : Touch s.fs ({s.fs with vol := v}.setInode i x) i (ρ p) ((ρ p).setLock i l) := by
    constructor
    · exact hlaid
    · exact hsb
    · exact fun _ _ => rfl
    · intro j hj
      rw [hin, if_neg hj]
    · intro j hj hjj
      apply hdisk _ ((hi.slot j).place hjj).2
      rw [hinum]
      exact fun e => hi.number_ne hj hpos hjj (BitVec.eq_of_toNat_eq e)
    · rfl
    · exact fun _ _ => rfl
    · intro j hj
      exact update_of_ne hj _ _
  apply hi.touch ht
  · rw [refs_update, lock_update, hin, if_pos rfl,
      show ((ρ p).setLock i l).real.lock i = l from update_self _ _ _,
      show ((ρ p).setLock i l).real.refs i = (ρ p).real.refs i from rfl, update_eq_self]
    exact (hi.slot i).setLock hp ho hdev hinum hf hs
  · intro _ j hj hjj
    rw [hin, if_pos rfl, hinum]
    exact hi.number_ne hj hpos hjj
  · apply hi.claims ht
    · exact fun _ h => h
    intro hm q m _ hq
    have hoff := hi.off_claim hm hp hdead hq
    rw [← hinum] at hoff
    rw [hin, if_pos rfl]
    exact ⟨hdisk m (hi.claim hm q m hq).lt hoff.symm,fun _ => hoff⟩
  · exact hlast

theorem Inv.release (hl : (ρ p).real.lock i = .dead) : Inv named N (s.did p c ((s.fs.setInode i
        {s.fs.inode i with busy := false, valid := false}).setRef i (s.fs.iref i-1)))
      (update ρ p (((ρ p).setLock i .free).add i (-1))) := by
  have hlf : (ρ p).real.lock i ≠ .free := by
    rw [hl]
    decide
  have hpos := (hi.slot i).pos hlf
  generalize hfs : (s.fs.setInode i {s.fs.inode i with busy := false, valid := false}).setRef i
    (s.fs.iref i-1) = fs
  have hir : ∀ j, fs.iref j = if j = i then s.fs.iref i-1 else s.fs.iref j := by
    rw [← hfs]
    exact fun j => update_apply _ _ _ _
  have hin : ∀ j, fs.inode j = if j = i then
      {s.fs.inode i with busy := false, valid := false} else s.fs.inode j := by
    rw [← hfs]
    exact fun j => update_apply _ _ _ _
  have hvol : fs.vol = s.fs.vol := by
    rw [← hfs]
    rfl
  have ht : Touch s.fs fs i (ρ p) (((ρ p).setLock i .free).add i (-1)) := by
    constructor
    · rw [hvol]
      exact hi.laid
    · rw [hvol]
    · intro j hj
      rw [hir, if_neg hj]
    · intro j hj
      rw [hin, if_neg hj]
    · intro j hj hjj
      rw [hvol]
    · rfl
    all_goals
      intro j hj
      exact update_of_ne hj _ _
  apply hi.touch ht
  · rw [refs_update, lock_update, hin, hir, if_pos rfl, if_pos rfl, hvol,
      show (((ρ p).setLock i .free).add i (-1)).real.refs i = (ρ p).real.refs i-1 from
        update_self _ _ _,
      show (((ρ p).setLock i .free).add i (-1)).real.lock i = .free from update_self _ _ _]
    exact (hi.slot i).release hl rfl rfl rfl rfl
  · intro _ j hj hjj
    rw [hin, if_pos rfl]
    exact hi.number_ne hj hpos hjj
  · apply hi.claims ht
    · exact fun _ h => h
    intro hm q m _ hq
    refine ⟨by rw [hvol],fun h1 h2 => ?_⟩
    rw [hin, if_pos rfl] at h2
    have := ((hi.claim hm q m hq).stale i hpos h2).1
    rw [hir, if_pos rfl] at h1
    omega
  · apply FreesDoomed.still hvol
    intro j _ h
    rw [hin]
    split
    · rfl
    · exact h

theorem Inv.iget {n : Uint} {fs : State} (hc : ∀ j, c ≠ .put j) (hn : n.toNat < s.fs.vol.sb.ninodes)
    (hok : named = true → (s.fs.vol.dinode n.toNat).type ≠ 0 ∧
      ((s.fs.vol.dinode n.toNat).nlink ≠ 0 ∨ (ρ p).claimed = some n.toNat))
    (h : s.fs.iget ROOTDEV n = .ok (i,fs)) :
    Inv named N (s.did p c fs) (update ρ p {(ρ p).add i 1 with claimed := none}) := by
  have hcl : named = true → ∀ q m, (update ρ p {(ρ p).add i 1 with claimed := none} q).claimed =
      some m → (ρ q).claimed = some m → m ≠ n.toNat := by
    intro hm q m h1 h2 e
    obtain ⟨h3,h4⟩ := hok hm
    rcases h4 with h4 | h4
    · exact h4 (e ▸ (hi.claim hm q m h2).unlinked)
    · have := (hi.claim hm p n.toNat h4).single q (e ▸ h2)
      rw [this, update_self] at h1
      cases h1
  have hdying : named = true → ∀ j, (s.fs.inode j).inum = n → ∀ q, (ρ q).real.lock j ≠ .dying := by
    intro hm j hj q hq
    have hqf : (ρ q).real.lock j ≠ .free := by
      rw [hq]
      decide
    have hfit := (hi.slot j).held q hqf
    simp only [hq, hj] at hfit
    rcases (hok hm).2 with h4 | h4
    · exact h4 hfit.2.2.2.2.1
    obtain ⟨-,z,hz⟩ := (hi.claim hm p _ h4).stale j ((hi.slot j).pos hqf) (by rw [hj])
    have := (hi.slot j).single q z hqf (by rw [hz]; decide)
    rw [this, hz] at hq
    cases hq
  rcases iget_cases h with ⟨hpos,hdev,hinum,rfl⟩ | ⟨hnew,h0,rfl⟩
  · have h1 := (hi.slot i).nonneg p
    refine hi.count rfl rfl hpos (by omega) (fun _ => by omega) (fun hm => ?_) (fun m hm => ?_)
      (fun hm q m h1 h2 => ?_)
    · rw [hinum]
      exact ⟨hdying hm i hinum,(hok hm).1⟩
    · cases hm
    · rw [hinum]
      exact (hcl hm q m h1 h2).symm
  generalize hx : ({s.fs.inode i with
    dev := ROOTDEV, inum := n, busy := false, valid := false} : Inode) = x
  have hir : ∀ j, ((s.fs.setInode i x).setRef i 1).iref j =
      if j = i then 1 else s.fs.iref j := fun j => update_apply _ _ _ _
  have hin : ∀ j, ((s.fs.setInode i x).setRef i 1).inode j =
      if j = i then x else s.fs.inode j := fun j => update_apply _ _ _ _
  have hinum : x.inum = n := by rw [← hx]
  have ht : Touch s.fs ((s.fs.setInode i x).setRef i 1) i (ρ p)
      {(ρ p).add i 1 with claimed := none} := by
    constructor
    · exact hi.laid
    · rfl
    · intro j hj
      rw [hir, if_neg hj]
    · intro j hj
      rw [hin, if_neg hj]
    · exact fun _ _ _ => rfl
    · rfl
    · intro j hj
      exact update_of_ne hj _ _
    · exact fun _ _ => rfl
  apply hi.touch ht
  · rw [refs_update, lock_update, hir, hin, if_pos rfl, if_pos rfl, hinum,
      show ((ρ p).add i 1).real.refs i = (ρ p).real.refs i+1 from update_self _ _ _,
      show ((ρ p).add i 1).real.lock i = (ρ p).real.lock i from rfl, update_eq_self]
    apply (hi.slot i).fresh h0
    · rw [← hx]
    · rwa [hinum]
    · rw [← hx]
      exact ⟨rfl,fun e => by cases e⟩
    · exact fun hm => (hok hm).1
  · intro _ j hj hjj
    rw [hin, if_pos rfl, hinum]
    exact hnew j hjj ((hi.slot j).place hjj).1
  · apply hi.claims ht
    · intro m hm
      cases hm
    intro hm q m h1 h2
    refine ⟨rfl,fun _ => ?_⟩
    rw [hin, if_pos rfl, hinum]
    exact (hcl hm q m h1 h2).symm
  · exact FreesDoomed.still rfl (fun j e => absurd e (hc j))

theorem Inv.claimed {n : ℕ} {t : Ushort} (hn : n < s.fs.vol.sb.ninodes) (ht : t ≠ 0)
    (hfree : (s.fs.vol.dinode n).type = 0) (hp : (ρ p).claimed = none) :
    Inv named N (s.did p c {s.fs with vol := s.fs.vol.setDinode n {Dinode.zero with type := t}})
      (update ρ p {ρ p with claimed := some n}) := by
  have hreal : ∀ q, (update ρ p {ρ p with claimed := some n} q).real = (ρ q).real := by
    intro q
    rw [update_apply]
    split
    · rename_i e
      rw [e]
    · rfl
  have hdisk : ∀ m, (s.fs.vol.setDinode n {Dinode.zero with type := t}).dinode m =
      if m = n then {Dinode.zero with type := t} else s.fs.vol.dinode m := by
    intro m
    split
    · rename_i e
      rw [e, dinode_setDinode]
    · rename_i e
      exact dinode_setDinode_ne _ e
  constructor
  · exact hi.laid.setDinode _
  · exact hi.ninodes
  · intro q
    show s.hand q = _
    rw [update_apply]
    split
    · rename_i e
      rw [e, hi.known]
    · exact hi.known q
  · intro j
    simp only [hreal]
    show Slot named s.fs.vol.sb.ninodes (s.fs.iref j) (s.fs.inode j)
      ((s.fs.vol.setDinode n {Dinode.zero with type := t}).dinode (s.fs.inode j).inum.toNat) _ _
    rw [hdisk]
    split
    · rename_i e
      exact (hi.slot j).claim (e ▸ hfree) ht
    · exact hi.slot j
  · exact hi.unique
  · intro hm q m hq
    have hother : ∀ z k, z ≠ p → (ρ z).claimed = some k → k ≠ n := by
      intro z k _ hz e
      exact (hi.claim hm z k hz).type (e ▸ hfree)
    by_cases e : q = p
    · subst e
      rw [update_self] at hq
      cases hq
      constructor
      · exact hn
      · show ((s.fs.vol.setDinode n _).dinode n).type ≠ 0
        rwa [hdisk, if_pos rfl]
      · show ((s.fs.vol.setDinode n _).dinode n).nlink = 0
        rw [hdisk, if_pos rfl]
        rfl
      · intro z hz
        by_contra hne
        rw [update_of_ne hne] at hz
        exact hother z n hne hz rfl
      intro j hj hjn
      obtain ⟨h1,z,hz⟩ := (hi.slot j).stale hm hj (by
        show (s.fs.vol.dinode (s.fs.inode j).inum.toNat).type = 0
        rwa [show (s.fs.inode j).inum.toNat = n from hjn])
      exact ⟨h1,z,by rw [hreal, hz]⟩
    rw [update_of_ne e] at hq
    obtain ⟨h1,h2,h3,h4,h5⟩ := hi.claim hm q m hq
    have hne := hother q m e hq
    constructor
    · exact h1
    · show ((s.fs.vol.setDinode n _).dinode m).type ≠ 0
      rwa [hdisk, if_neg hne]
    · show ((s.fs.vol.setDinode n _).dinode m).nlink = 0
      rwa [hdisk, if_neg hne]
    · intro z hz
      by_cases hz' : z = p
      · subst hz'
        rw [update_self] at hz
        cases hz
        exact absurd rfl hne
      · rw [update_of_ne hz'] at hz
        exact h4 z hz
    · intro j hj hjn
      obtain ⟨h6,z,hz⟩ := h5 j hj hjn
      exact ⟨h6,z,by rw [hreal, hz]⟩
  · intro q c' t' h
    cases h
    exact FreesDoomed.rewrite hi.laid hn ht rfl (fun _ _ h => h)

end Actions

end Yeet.Icache
