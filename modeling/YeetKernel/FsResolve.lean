import Mathlib.Data.List.TakeWhile
import YeetKernel.FsReads

/-!
# Path names and what they stand for

The specification of path resolution splits the path at its slashes and looks the
pieces up one after another. The kernel's walk does the same through the inode
cache, where at any time it holds one inode more than before the call, and two
between a lookup and the release of the directory. So it needs up to two free slots
of the cache; without them `iget` ends the kernel.
-/

namespace Yeet.Fs
open Kernel Bytes FsDisk Resumption Function

section Spec

def components (path : List Byte) : List Name :=
  ((path.splitOn slash).filter (fun l => l ≠ [])).map (fun l => l.take DIRSIZ)

def hits (name : Name) (de : List Byte) : Bool :=
  direntInum de != 0 && namecmp name (direntName de)

def entryInum (v : Volume) (d : Dinode) (e : ℕ) : Uint := (direntInum (entry v d e)).setWidth 32

def child (v : Volume) (n : Uint) (name : Name) : Option Uint :=
  let d := v.dinode n.toNat
  if d.type = T_DIR then (locate v d (hits name)).map (entryInum v d) else none

def resolve (v : Volume) (n : Uint) (names : List Name) : Option Uint := names.foldlM (child v) n

def resolveParent (v : Volume) (n : Uint) (names : List Name) : Option (Uint × Name) := do
  let name ← names.getLast?
  let d ← resolve v n names.dropLast
  if (v.dinode d.toNat).type = T_DIR then some (d,name) else none

/-- Where the walk begins, for a process whose current directory is in slot `c`. -/
def start (s : State) (c : Ino) (path : List Byte) : Uint :=
  if path.head? = some slash then ROOTINO else (s.inode c).inum

end Spec

section Components

theorem components_slash (path : List Byte) : components (slash::path) = components path := by
  simp [components, List.splitOn_cons_eq_if_modifyHead]

theorem components_dropWhile (path : List Byte) :
    components (path.dropWhile (fun c => c == slash)) = components path := by
  induction path with
  | nil => rfl
  | cons c l ih =>
    by_cases h : c = slash
    · subst h
      rw [List.dropWhile_cons_of_pos (by simp), ih, components_slash]
    · rw [List.dropWhile_cons_of_neg (by simpa using h)]

theorem components_single {w : Name} (h0 : w ≠ []) (hw : ∀ c ∈ w, c ≠ slash) :
    components w = [w.take DIRSIZ] := by
  have h : w.splitOn slash = [w] := List.splitOn_eq_singleton (fun hc => hw slash hc rfl)
  simp [components, h, h0]

theorem components_append {w : Name} (h0 : w ≠ []) (hw : ∀ c ∈ w, c ≠ slash) (l : List Byte) :
    components (w++slash::l) = w.take DIRSIZ::components l := by
  have h : (w++slash::l).splitOn slash = w::l.splitOn slash :=
    List.splitOnP_append_cons_of_forall_mem (fun c hc => by simpa using hw c hc) slash (by simp) l
  simp [components, h, h0]

theorem elements_eq (fuel : ℕ) (path : List Byte) (h : path.length ≤ fuel) :
    elements fuel path = components path := by
  induction fuel generalizing path with
  | zero =>
    obtain rfl := List.length_eq_zero_iff.mp (Nat.le_zero.mp h)
    rfl
  | succ fuel ih =>
    rw [elements, skipelem, ← components_dropWhile path]
    have hlen := (List.dropWhile_sublist (fun c => c == slash) (l := path)).length_le
    have hhead := List.head?_dropWhile_not (fun c => c == slash) path
    cases hp : path.dropWhile (fun c => c == slash) with
    | nil => rfl
    | cons c l =>
      rw [hp] at hlen hhead
      have hc : c ≠ slash := by simpa using hhead
      have happ := List.takeWhile_append_dropWhile (p := fun c => c != slash) (l := c::l)
      have hw : ∀ x ∈ (c::l).takeWhile (fun c => c != slash), x ≠ slash := fun x hx => by
        simpa using List.mem_takeWhile_imp hx
      have h0 : (c::l).takeWhile (fun c => c != slash) ≠ [] := by
        rw [List.takeWhile_cons_of_pos (by simpa using hc)]
        exact List.cons_ne_nil _ _
      have hrest := List.head?_dropWhile_not (fun c => c != slash) (c::l)
      simp only
      generalize (c::l).takeWhile (fun c => c != slash) = w at *
      cases hr : (c::l).dropWhile (fun c => c != slash) with
      | nil =>
        rw [hr, List.append_nil] at happ
        rw [← happ, components_single h0 hw, List.dropWhile_nil, ih [] (Nat.zero_le _)]
        rfl
      | cons b r =>
        rw [hr] at happ hrest
        have hb : b = slash := by simpa using hrest
        subst hb
        have hl := congrArg List.length happ
        have hpos := List.length_pos_iff.mpr h0
        simp only [List.length_append, List.length_cons] at hl hlen
        rw [← happ, components_append h0 hw, List.dropWhile_cons_of_pos (by simp),
          ih _ (by have := (List.dropWhile_sublist (fun c => c == slash) (l := r)).length_le; omega),
          components_dropWhile]

end Components
variable {s t t' : State} {v : Volume} {d : Dinode} {lock : Option Ino} {i j : Ino} {n m : Uint}

section Cache

def Cached (s : State) (n : Uint) : Prop :=
  ∃ i, 0 < s.iref i ∧ (s.inode i).dev = ROOTDEV ∧ (s.inode i).inum = n

theorem iget_ok_iff : (∃ i t, s.iget ROOTDEV n = .ok (i,t)) ↔ Cached s n ∨ ∃ j, s.iref j = 0 := by
  constructor
  · rintro ⟨i,t,h⟩
    rcases iget_cases h with ⟨h1,h2,h3,-⟩ | ⟨-,h1,-⟩
    · exact Or.inl ⟨i,h1,h2,h3⟩
    · exact Or.inr ⟨i,h1⟩
  intro h
  unfold State.iget
  split
  · exact ⟨_,_,rfl⟩
  rename_i hf
  split
  · rename_i hg
    rcases h with ⟨j,h1,h2,h3⟩ | ⟨j,hj⟩
    · have := List.find?_eq_none.mp hf j (List.mem_finRange j)
      simp [h1, h2, h3] at this
    · have := List.find?_eq_none.mp hg j (List.mem_finRange j)
      simp [hj] at this
  · exact ⟨_,_,rfl⟩

/-- Compared with state `s` there is one more reference, to inode `n` in slot `i`. -/
structure Held (s t : State) (v : Volume) (lock : Option Ino) (i : Ino) (n : Uint) : Prop where
  idle : Idle t v lock 0
  ref : t.iref = update s.iref i (s.iref i+1)
  dev : (t.inode i).dev = ROOTDEV
  inum : (t.inode i).inum = n
  keep : ∀ j, 0 < s.iref j → (t.inode j).dev = (s.inode j).dev ∧ (t.inode j).inum = (s.inode j).inum
  sole : Cached s n → 0 < s.iref i

theorem Idle.dup (h : Idle s v lock 0) (hr : 0 < s.iref i) (hd : (s.inode i).dev = ROOTDEV) :
    Held s (s.setRef i (s.iref i+1)) v lock i (s.inode i).inum := by
  refine ⟨h.change (i := i) h.vol (fun j hj => ⟨rfl,?_,Iff.rfl⟩) ?_ (h.busy i hr) (h.same i hr)
    (fun e => ⟨?_,(h.locked i e).2⟩),rfl,hd,rfl,fun j _ => ⟨rfl,rfl⟩,fun _ => hr⟩
  · simp only [State.setRef, update_of_ne hj]
  all_goals
    simp only [State.setRef, update_self]
    omega

theorem Idle.iget (h : Idle s v lock 0) (hok : s.iget ROOTDEV n = .ok (i,t)) :
    Held s t v lock i n := by
  rcases iget_cases hok with ⟨h1,h2,rfl,rfl⟩ | ⟨hno,h0,rfl⟩
  · exact h.dup h1 h2
  have hne : ∀ j, 0 < s.iref j → j ≠ i := by
    rintro j hj rfl
    omega
  have hl : lock ≠ some i := fun e => hne i (h.locked i e).1 rfl
  refine ⟨h.change (i := i) h.vol (fun j hj => ⟨?_,?_,Iff.rfl⟩) ?_ (fun _ => ?_) (fun hv => ?_)
    (fun e => absurd e hl),?_,?_,?_,fun j hj => ?_,fun ⟨j,h1,h2,h3⟩ => absurd h3 (hno j h1 h2)⟩
  · simp only [State.setRef, State.setInode, update_of_ne hj]
  · simp only [State.setRef, State.setInode, update_of_ne hj]
  · simp only [State.setRef, update_self]
    decide
  · simp only [State.setRef, State.setInode, update_self]
  · simp only [State.setRef, State.setInode, update_self, Bool.false_eq_true] at hv
  · simp only [State.setRef, State.setInode, h0, Int.zero_add]
  · simp only [State.setRef, State.setInode, update_self]
  · simp only [State.setRef, State.setInode, update_self]
  · simp only [State.setRef, State.setInode, update_of_ne (hne j hj)]
    exact ⟨trivial,trivial⟩

def Fits (s : State) (n m : Uint) : Prop :=
  m = n ∨ Cached s m ∨ ∃ j, s.iref j = 0 ∧ (Cached s n ∨ ∃ j', j' ≠ j ∧ s.iref j' = 0)

namespace Held

section

variable (h : Held s t v lock i n)

include h

theorem ref_self : t.iref i = s.iref i+1 := by rw [h.ref, update_self]

theorem ref_of_ne (hj : j ≠ i) : t.iref j = s.iref j := by rw [h.ref, update_of_ne hj]

theorem ref_le : s.iref j ≤ t.iref j := by
  by_cases hj : j = i
  · rw [hj, h.ref_self]
    omega
  · exact Int.le_of_eq (h.ref_of_ne hj).symm

theorem cached (hm : Cached s m) : Cached t m := by
  obtain ⟨j,h1,h2,h3⟩ := hm
  obtain ⟨k1,k2⟩ := h.keep j h1
  exact ⟨j,Int.lt_of_lt_of_le h1 h.ref_le,k1.trans h2,k2.trans h3⟩

theorem cached_self (hr : 0 < s.iref i) : Cached s n := by
  obtain ⟨h1,h2⟩ := h.keep i hr
  exact ⟨i,hr,h1.symm.trans h.dev,h2.symm.trans h.inum⟩

variable (hs : ∀ j, 0 ≤ s.iref j)

include hs

theorem slot : Slot t i n := by
  have := hs i
  exact ⟨by rw [h.ref_self]; omega,h.inum⟩

theorem fits_iff : (Cached t m ∨ ∃ j, t.iref j = 0) ↔ Fits s n m := by
  have hpos := (h.slot hs).ref
  constructor
  · rintro (⟨j,h1,h2,h3⟩ | ⟨j,hj⟩)
    · by_cases he : j = i
      · subst he
        exact Or.inl (h3.symm.trans h.inum)
      · rw [h.ref_of_ne he] at h1
        obtain ⟨k1,k2⟩ := h.keep j h1
        exact Or.inr (Or.inl ⟨j,h1,k1.symm.trans h2,k2.symm.trans h3⟩)
    have he : j ≠ i := by
      rintro rfl
      omega
    rw [h.ref_of_ne he] at hj
    refine Or.inr (Or.inr ⟨j,hj,?_⟩)
    rcases Int.lt_or_eq_of_le (hs i) with hi | hi
    · exact Or.inl (h.cached_self hi)
    · exact Or.inr ⟨i,fun e => he e.symm,hi.symm⟩
  · rintro (rfl | hm | ⟨j,hj,hor⟩)
    · exact Or.inl ⟨i,hpos,h.dev,h.inum⟩
    · exact Or.inl (h.cached hm)
    by_cases he : j = i
    · subst he
      rcases hor with hn | ⟨k,hk,h0⟩
      · have := h.sole hn
        omega
      · exact Or.inr ⟨k,by rw [h.ref_of_ne hk]; exact h0⟩
    · exact Or.inr ⟨j,by rw [h.ref_of_ne he]; exact hj⟩

end

end Held

end Cache

section Steps

/-- Allocated, and not freed when a reference to it is dropped. -/
structure Alive (s : State) (v : Volume) (n : Uint) : Prop where
  type : (v.dinode n.toNat).type ≠ 0
  used : (v.dinode n.toNat).nlink ≠ 0 ∨ Cached s n

/-- What a call leaves: the references are as before but for one on the inode it
returns, the disk is the same and no inode is locked. -/
structure Resolved (s : State) (v : Volume) (want : Option Uint) (r : Option Ino) (t : State) :
    Prop where
  idle : Idle t v none 0
  result : r.map (fun i => (t.inode i).inum) = want
  refs : t.iref = r.elim s.iref (fun i => update s.iref i (s.iref i+1))
  keep : ∀ j, 0 < s.iref j → (t.inode j).inum = (s.inode j).inum

namespace Held

theorem resolved (h : Held s t v none i n) : Resolved s v (some n) (some i) t :=
  ⟨h.idle,congrArg some h.inum,h.ref,fun j hj => (h.keep j hj).2⟩

variable {P : Unit → State → Prop}

theorem iunlock (h : Held s t v (some j) i n)
    (hP : ∀ u, Held s u v none i n → P () u) : Returns (iunlock j) P t := by
  have hk : ∀ k, ((t.setInode j {t.inode j with busy := false}).inode k).dev = (t.inode k).dev ∧
      ((t.setInode j {t.inode j with busy := false}).inode k).inum = (t.inode k).inum := by
    intro k
    by_cases he : k = j
    · subst he
      simp only [State.setInode, update_self]
      exact ⟨trivial,trivial⟩
    · simp only [State.setInode, update_of_ne he]
      exact ⟨trivial,trivial⟩
  exact h.idle.iunlock (fun h1 => hP _ ⟨h1,h.ref,(hk i).1.trans h.dev,(hk i).2.trans h.inum,
    fun k hr => ⟨(hk k).1.trans (h.keep k hr).1,(hk k).2.trans (h.keep k hr).2⟩,h.sole⟩)

variable (hs : ∀ j, 0 ≤ s.iref j)

include hs

theorem ilock (h : Held s t v none i n) (ht : (v.dinode n.toNat).type ≠ 0)
    (hP : ∀ u, Held s u v (some i) i n → (u.inode i).din = v.dinode n.toNat → P () u) :
    Returns (ilock i) P t :=
  h.idle.ilock (h.slot hs) ht (fun u h1 h2 h3 h4 => hP u ⟨h1,h3.trans h.ref,(h4 i).1.trans h.dev,
    (h4 i).2.trans h.inum,fun j hj => ⟨(h4 j).1.trans (h.keep j hj).1,
      (h4 j).2.trans (h.keep j hj).2⟩,h.sole⟩ h2)

theorem iput (h : Held s t v none i n) (ha : Alive s v n)
    (hP : ∀ u, Resolved s v none none u → P () u) : Returns (iput i) P t := by
  have hu : (v.dinode n.toNat).nlink ≠ 0 ∨ 1 < t.iref i := by
    refine ha.used.imp_right (fun hc => ?_)
    have := h.sole hc
    rw [h.ref_self]
    omega
  refine h.idle.iput (h.slot hs) hu (fun h1 => hP _ ⟨h1,rfl,?_,fun j hj => (h.keep j hj).2⟩)
  show update t.iref i (t.iref i-1) = s.iref
  rw [h.ref_self, h.ref, update_idem, Int.add_sub_cancel, update_eq_self]

theorem next (h : Held s t v lock i n) (h' : Held t t' v none j m) (ha : Alive s v n)
    (hP : ∀ u, Held s u v none j m → P () u) : Returns (Fs.iput i) P t' := by
  have hpos := (h.slot hs).ref
  have hle := h'.ref_le (j := i)
  have hself := h.ref_self
  have hin : (t'.inode i).inum = n := (h'.keep i hpos).2.trans h.inum
  have hu : (v.dinode n.toNat).nlink ≠ 0 ∨ 1 < t'.iref i := by
    refine ha.used.imp_right (fun hc => ?_)
    have := h.sole hc
    omega
  refine h'.idle.iput ⟨by omega,hin⟩ hu (fun h1 => hP _ ⟨h1,?_,h'.dev,h'.inum,fun k hk => ?_,
    fun hc => ?_⟩)
  · show update t'.iref i (t'.iref i-1) = update s.iref j (s.iref j+1)
    rw [h'.ref, h.ref]
    funext k
    by_cases hi : k = i <;> by_cases hj : k = j <;> by_cases hij : i = j <;>
      simp_all [update_apply]
  · have h2 := h'.keep k (Int.lt_of_lt_of_le hk h.ref_le)
    exact ⟨h2.1.trans (h.keep k hk).1,h2.2.trans (h.keep k hk).2⟩
  by_cases he : j = i
  · subst he
    exact h.sole (by rwa [← hin, h'.inum])
  · rw [← h.ref_of_ne he]
    exact h'.sole (h.cached hc)

end Held

theorem dirlookup_iff {name : Name} {l : List Byte} {a : ℕ} {P : Option (Ino × ℕ) → State → Prop}
    (h : Held s t v (some i) i n) (hd : (t.inode i).din = v.dinode n.toNat)
    (ht : (v.dinode n.toNat).type = T_DIR)
    (hr : Scanned v (v.dinode n.toNat) (hits name) l a) :
    Returns (dirlookup i name) P t ↔ match child v n name with
      | none => P none t
      | some m => ∃ j u, t.iget ROOTDEV m = .ok (j,u) ∧ P (some (j,direntSize*a)) u := by
  unfold dirlookup
  rw [returns_bind_iff]
  refine returns_iff (returns_fetch ?_)
  rw [if_neg (by rw [hd, ht]; simp), returns_bind_iff]
  have hr' : Scanned t.vol (t.inode i).din (hits name) l a := by
    rw [hd, h.idle.vol]
    exact hr
  refine returns_iff (returns_scanAll hr' ?_ _ ?_)
  · rw [hd, ht]
    decide
  simp only [hd, h.idle.vol, h.dev, child, if_pos ht]
  cases locate v (v.dinode n.toNat) (hits name) with
  | none => exact returns_pure_iff
  | some e =>
    simp only [Option.map_some]
    rw [returns_bind_iff, Fs.iget, returns_perform_iff]
    simp only [returns_pure_iff]
    exact Iff.rfl

end Steps

section Walk

def Fitting (s : State) (v : Volume) : Uint → List Name → Prop
  | _,[] => True
  | n,name::l => ∀ m, child v n name = some m → Fits s n m ∧ Fitting s v m l

def Room (s : State) (v : Volume) (n : Uint) (names : List Name) : Prop :=
  (Cached s n ∨ ∃ j, s.iref j = 0) ∧ Fitting s v n names

def Clear (s : State) (v : Volume) : Uint → List Name → Prop
  | _,[] => True
  | n,name::l => Alive s v n ∧
      ((v.dinode n.toNat).type = T_DIR → ∃ b a, Scanned v (v.dinode n.toNat) (hits name) b a) ∧
      ∀ m, child v n name = some m → Clear s v m l

def goal (v : Volume) (parent : Bool) (n : Uint) (names : List Name) : Option (Uint × Name) :=
  if parent then resolveParent v n names else (resolve v n names).map (fun m => (m,[]))

def sought (parent : Bool) (names : List Name) : List Name :=
  if parent then names.dropLast else names

def Ended (s : State) (v : Volume) (want : Option (Uint × Name)) (r : Option (Ino × Name))
    (t : State) : Prop :=
  Resolved s v (want.map Prod.fst) (r.map Prod.fst) t ∧ r.map Prod.snd = want.map Prod.snd

variable {parent : Bool} {name : Name} {l : List Name}

theorem goal_step (h : ¬ (parent && l.isEmpty) = true) :
    goal v parent n (name::l) = (child v n name).bind (fun m => goal v parent m l) := by
  cases parent with
  | false =>
    simp only [goal, Bool.false_eq_true, if_false, resolve, List.foldlM_cons]
    cases child v n name <;> rfl
  | true =>
    cases l with
    | nil => exact absurd rfl h
    | cons b l =>
      simp only [goal, if_true, resolveParent, List.getLast?_cons_cons, List.dropLast_cons_cons, resolve,
        List.foldlM_cons]
      cases child v n name with
      | none => cases (b::l).getLast? <;> rfl
      | some m => rfl

theorem sought_step (h : ¬ (parent && l.isEmpty) = true) :
    sought parent (name::l) = name::sought parent l := by
  cases parent with
  | false => rfl
  | true =>
    cases l with
    | nil => exact absurd rfl h
    | cons b l => rfl

theorem walk_iff (hs : ∀ j, 0 ≤ s.iref j) {P : Option (Ino × Name) → State → Prop}
    (names : List Name) (h : Held s t v none i n) (hc : Clear s v n names)
    (ha : parent = true → names = [] → Alive s v n)
    (hP : ∀ r u, Ended s v (goal v parent n names) r u → P r u) :
    Returns (walk parent names i) P t ↔ Fitting s v n (sought parent names) := by
  induction names generalizing t i n with
  | nil =>
    unfold walk
    cases parent with
    | false => exact iff_of_true (returns_pure (hP _ _ ⟨h.resolved,rfl⟩)) trivial
    | true =>
      simp only [if_true]
      rw [returns_bind_iff]
      exact returns_iff (h.iput hs (ha rfl rfl) (fun u hu =>
        iff_of_true (returns_pure (hP none u ⟨hu,rfl⟩)) trivial))
  | cons name l ih =>
    obtain ⟨hal,hscan,hnext⟩ := hc
    unfold walk
    rw [returns_bind_iff]
    refine returns_iff (h.ilock hs hal.type (fun t1 h1 hd1 => ?_))
    rw [returns_bind_iff]
    refine returns_iff (returns_fetch ?_)
    simp only [hd1]
    -- a failed lookup gives the inode back
    have hfail : ∀ {u}, Held s u v (some i) i n → goal v parent n (name::l) = none →
        Returns (do iunlockput i; pure none) P u := by
      intro u hu hg
      unfold iunlockput
      rw [Resumption.bind_assoc]
      refine returns_bind (hu.iunlock (fun u1 hu1 => ?_))
      refine returns_bind (hu1.iput hs hal (fun u2 hu2 => returns_pure (hP none u2 ?_)))
      rw [hg]
      exact ⟨hu2,rfl⟩
    by_cases hstop : (parent && l.isEmpty) = true
    · obtain ⟨rfl,hl⟩ := Bool.and_eq_true_iff.mp hstop
      obtain rfl := List.isEmpty_iff.mp hl
      by_cases ht : (v.dinode n.toNat).type = T_DIR
      · rw [if_neg (not_not.mpr ht), if_pos hstop, returns_bind_iff]
        refine returns_iff (h1.iunlock (fun u hu =>
          iff_of_true (returns_pure (hP _ u ?_)) trivial))
        have hg : goal v true n [name] = some (n,name) := if_pos ht
        rw [hg]
        exact ⟨hu.resolved,rfl⟩
      · rw [if_pos ht]
        exact iff_of_true (hfail h1 (if_neg ht)) trivial
    rw [sought_step hstop]
    have hstep : goal v parent n (name::l) = _ := goal_step hstop
    by_cases ht : (v.dinode n.toNat).type = T_DIR
    · obtain ⟨b,a,hr⟩ := hscan ht
      rw [if_neg (not_not.mpr ht), if_neg hstop, returns_bind_iff, dirlookup_iff h1 hd1 ht hr]
      cases hm : child v n name with
      | none =>
        rw [hm] at hstep
        refine iff_of_true (hfail h1 hstep) (fun m e => ?_)
        rw [hm] at e
        cases e
      | some m =>
        rw [hm] at hstep
        have hfit := h1.fits_iff hs (m := m)
        -- after the lookup the directory is given back and the walk goes on
        have hgo : ∀ {j u}, t1.iget ROOTDEV m = .ok (j,u) →
            (Returns (do iunlockput i; walk parent l j) P u ↔
              Fitting s v m (sought parent l)) := by
          intro j u hget
          have h2 := h1.idle.iget hget
          unfold iunlockput
          rw [Resumption.bind_assoc, returns_bind_iff]
          refine returns_iff (h2.iunlock (fun u1 hu1 => ?_))
          rw [returns_bind_iff]
          refine returns_iff (h1.next hs hu1 hal (fun u2 hu2 => ?_))
          refine ih hu2 (hnext m hm) (fun hp hl => ?_) (fun r u hru => hP r u ?_)
          · subst hp hl
            exact absurd rfl hstop
          · rwa [hstep]
        constructor
        · rintro ⟨j,u,hget,hret⟩ m' e
          obtain rfl := Option.some.inj (hm.symm.trans e)
          exact ⟨hfit.mp (iget_ok_iff.mp ⟨j,u,hget⟩),(hgo hget).mp hret⟩
        intro hF
        obtain ⟨hf,hrest⟩ := hF m hm
        obtain ⟨j,u,hget⟩ := iget_ok_iff.mpr (hfit.mpr hf)
        exact ⟨j,u,hget,(hgo hget).mpr hrest⟩
    · have hm : child v n name = none := if_neg ht
      rw [hm] at hstep
      rw [if_pos ht]
      refine iff_of_true (hfail h1 hstep) (fun m e => ?_)
      rw [hm] at e
      cases e

end Walk

section Paths

variable {p : Procno} {c : Ino} {parent : Bool} {P : Option (Ino × Name) → State → Prop}

structure Whole (v : Volume) (d : Dinode) : Prop where
  size : d.size.toNat%direntSize = 0
  small : d.size.toNat ≤ MAXFILE*BSIZE
  block : ∀ o < d.size.toNat, v.addr d (o/BSIZE) ≠ 0

theorem Whole.scanned (h : Whole v d) (test : List Byte → Bool) : ∃ l a, Scanned v d test l a := by
  have hst : Stored v d ((List.range d.size.toNat).map (v.byte d)) := by
    refine ⟨?_,?_,fun o ho => ?_,fun o ho => ?_⟩
    · simp
    · simpa using h.small
    · exact h.block o (by simpa using ho)
    · have ho : o < d.size.toNat := by simpa using ho
      rw [List.getD_eq_getElem _ _ (by simpa using ho)]
      simp
  have hlen : ((List.range d.size.toNat).map (v.byte d)).length = d.size.toNat := by simp
  have hdiv : direntSize*(d.size.toNat/direntSize) = d.size.toNat := by
    have := Nat.div_add_mod d.size.toNat direntSize
    rw [h.size] at this
    exact this
  have hin : ∀ e < d.size.toNat/direntSize, direntSize*e+direntSize ≤ d.size.toNat := by
    intro e he
    rw [← hdiv]
    exact Nat.mul_le_mul_left direntSize he
  cases hf : locate v d test with
  | none =>
    refine ⟨_,d.size.toNat/direntSize,hst,fun e he => ?_,Or.inr ⟨hdiv.trans hlen.symm,hlen.symm⟩⟩
    rw [hst.entry_eq (by rw [hlen]; exact hin e he)]
    simpa using List.find?_range_eq_none.mp hf e he
  | some a =>
    obtain ⟨h1,h2,h3⟩ := List.find?_range_eq_some.mp hf
    have ha := List.mem_range.mp h2
    have hle := hin a ha
    refine ⟨_,a,hst,fun e he => ?_,Or.inl ⟨by rw [hlen]; exact hle,?_⟩⟩
    · rw [hst.entry_eq (by rw [hlen]; exact hin e (by omega))]
      simpa using h3 e he
    · rw [hst.entry_eq (by rw [hlen]; exact hle)]
      exact h1

/-- A file system without dangling entries, on which nobody works: the root, the
current directory and the inode of every entry are allocated, and are linked or in
use. -/
structure Tree (s : State) (v : Volume) (p : Procno) (c : Ino) : Prop where
  idle : Idle s v none 0
  cwd : (s.proc p).cwd = some c
  ref : 0 < s.iref c
  dev : (s.inode c).dev = ROOTDEV
  here : (v.dinode (s.inode c).inum.toNat).type ≠ 0
  root : Alive s v ROOTINO
  whole : ∀ n, Alive s v n → (v.dinode n.toNat).type = T_DIR → Whole v (v.dinode n.toNat)
  entry : ∀ n, Alive s v n → (v.dinode n.toNat).type = T_DIR →
    ∀ e < (v.dinode n.toNat).size.toNat/direntSize, entryInum v (v.dinode n.toNat) e ≠ 0 →
      Alive s v (entryInum v (v.dinode n.toNat) e)

namespace Tree

theorem child_alive (h : Tree s v p c) {name : Name} (hn : Alive s v n)
    (hm : child v n name = some m) : Alive s v m := by
  simp only [child] at hm
  split at hm
  · rename_i ht
    obtain ⟨e,he,rfl⟩ := Option.map_eq_some_iff.mp hm
    obtain ⟨h1,h2,-⟩ := List.find?_range_eq_some.mp he
    refine h.entry n hn ht e (List.mem_range.mp h2) (fun h0 => ?_)
    have hne : direntInum (Fs.entry v (v.dinode n.toNat) e) ≠ 0 := by
      simpa using (Bool.and_eq_true_iff.mp h1).1
    apply hne
    have := congrArg BitVec.toNat h0
    have hlt := (direntInum (Fs.entry v (v.dinode n.toNat) e)).isLt
    rw [entryInum, BitVec.toNat_setWidth, Nat.mod_eq_of_lt (by omega)] at this
    exact BitVec.eq_of_toNat_eq this
  · cases hm

theorem clear (h : Tree s v p c) (names : List Name) (hn : Alive s v n) : Clear s v n names := by
  induction names generalizing n with
  | nil => trivial
  | cons name l ih =>
    exact ⟨hn,fun ht => (h.whole n hn ht).scanned _,fun m hm => ih (h.child_alive hn hm)⟩

theorem start_alive (h : Tree s v p c) (path : List Byte) : Alive s v (start s c path) := by
  unfold start
  split
  · exact h.root
  · exact ⟨h.here,Or.inr ⟨c,h.ref,h.dev,rfl⟩⟩

end Tree

theorem namex_root_iff (h : Idle s v none 0) {path : List Byte} (hp : path.head? = some slash)
    (hal : Alive s v ROOTINO) (hc : Clear s v ROOTINO (components path))
    (hP : ∀ r u, Ended s v (goal v parent ROOTINO (components path)) r u → P r u) :
    Returns (namex p path parent) P s ↔ Room s v ROOTINO (sought parent (components path)) := by
  have hw : ∀ {i t}, s.iget ROOTDEV ROOTINO = .ok (i,t) →
      (Returns (walk parent (components path) i) P t ↔
        Fitting s v ROOTINO (sought parent (components path))) :=
    fun hget => walk_iff h.nonneg _ (h.iget hget) hc (fun _ _ => hal) hP
  unfold namex
  rw [elements_eq _ _ (Nat.le_refl _)]
  dsimp only
  rw [if_pos hp, returns_bind_iff, iget, returns_perform_iff, Room, ← iget_ok_iff]
  constructor
  · rintro ⟨i,t,hget,hret⟩
    exact ⟨⟨i,t,hget⟩,(hw hget).mp hret⟩
  · rintro ⟨⟨i,t,hget⟩,hf⟩
    exact ⟨i,t,hget,(hw hget).mpr hf⟩

theorem namex_iff (h : Tree s v p c) (path : List Byte)
    (hP : ∀ r u, Ended s v (goal v parent (start s c path) (components path)) r u → P r u) :
    Returns (namex p path parent) P s ↔
      Room s v (start s c path) (sought parent (components path)) := by
  have hal := h.start_alive path
  have hc := h.clear (components path) hal
  by_cases hp : path.head? = some slash
  · simp only [start, if_pos hp] at hP hal hc ⊢
    exact namex_root_iff h.idle hp hal hc hP
  simp only [start, if_neg hp] at hP hal hc ⊢
  have hcached : Cached s (s.inode c).inum := ⟨c,h.ref,h.dev,rfl⟩
  unfold namex
  rw [elements_eq _ _ (Nat.le_refl _)]
  dsimp only
  rw [if_neg hp, returns_bind_iff, Room, and_iff_right (Or.inl hcached)]
  refine returns_iff (returns_fetch ?_)
  rw [h.cwd, returns_bind_iff]
  refine returns_iff (returns_pure ?_)
  rw [returns_bind_iff]
  refine returns_iff (returns_assign ?_)
  exact walk_iff h.idle.nonneg _ (h.idle.dup h.ref h.dev) hc (fun _ _ => hal) hP

/-- Two free slots are enough for every walk. -/
theorem room_of_spare {a b : Ino} (hab : a ≠ b) (ha : s.iref a = 0) (hb : s.iref b = 0) (n : Uint)
    (names : List Name) : Room s v n names := by
  refine ⟨Or.inr ⟨a,ha⟩,?_⟩
  induction names generalizing n with
  | nil => trivial
  | cons name l ih =>
    exact fun m _ => ⟨Or.inr (Or.inr ⟨a,ha,Or.inr ⟨b,hab.symm,hb⟩⟩),ih m⟩

theorem Ended.fst {want : Option Uint} {r : Option (Ino × Name)}
    (h : Ended s v (want.map (fun m => (m,[]))) r t) : Resolved s v want (r.map Prod.fst) t := by
  have h1 := h.1
  rwa [Option.map_map, show Prod.fst ∘ (fun m : Uint => (m,([] : Name))) = id from rfl,
    Option.map_id] at h1

theorem namei_iff (h : Tree s v p c) (path : List Byte) :
    Returns (namei p path) (Resolved s v (resolve v (start s c path) (components path))) s ↔
      Room s v (start s c path) (components path) := by
  unfold namei
  rw [returns_bind_iff]
  exact namex_iff h path (fun r u hr => returns_pure hr.fst)

/-- `namei` and `nameiparent` are their specification, with one reference on the
inode they return, exactly if the inode cache has room for the walk. -/
theorem path_resolution_iff (h : Tree s v p c) (path : List Byte) : (Returns (namei p path)
      (Resolved s v (resolve v (start s c path) (components path))) s ↔
        Room s v (start s c path) (components path)) ∧
    (Returns (nameiparent p path) (fun r t =>
      Resolved s v ((resolveParent v (start s c path) (components path)).map Prod.fst)
        (r.map Prod.fst) t ∧
      r.map Prod.snd = (resolveParent v (start s c path) (components path)).map Prod.snd) s ↔
        Room s v (start s c path) (components path).dropLast) :=
  ⟨namei_iff h path,namex_iff h path (fun _ _ hr => hr)⟩

/-- The first `k` slots of the cache are in use; the first is the current directory. -/
def parked (k : ℕ) (v : Volume) : State where
  vol := v
  inode := fun i => ⟨ROOTDEV,BitVec.ofNat 32 (i.val+2),false,false,Dinode.zero⟩
  iref := fun i => if i.val < k then 1 else 0
  file := fun _ => ⟨.none,0,false,false,none,0⟩
  proc := fun _ => ⟨.live,none,fun _ => none,some ⟨0,ninode_pos⟩,0,0⟩
  initproc := ⟨0,nproc_pos⟩
  outstanding := 0

def Linked (v : Volume) (n : ℕ) : Prop := (v.dinode n).type ≠ 0 ∧ (v.dinode n).nlink ≠ 0

theorem parked_tree {k : ℕ} (hk : 0 < k) (hone : Linked v 1) (htwo : Linked v 2)
    (hwhole : ∀ n, (v.dinode n).type = T_DIR → Whole v (v.dinode n))
    (hentry : ∀ n, (v.dinode n).type = T_DIR → ∀ e < (v.dinode n).size.toNat/direntSize,
      entryInum v (v.dinode n) e ≠ 0 → Linked v (entryInum v (v.dinode n) e).toNat) :
    Tree (parked k v) v ⟨0,nproc_pos⟩ ⟨0,ninode_pos⟩ := by
  have href : (parked k v).iref ⟨0,ninode_pos⟩ = 1 := if_pos hk
  refine ⟨⟨rfl,fun i => ?_,fun _ _ _ => rfl,fun _ _ hv => (nomatch hv),fun _ e => (nomatch e),
    Nat.zero_le _⟩,rfl,?_,rfl,htwo.1,⟨hone.1,Or.inl hone.2⟩,fun n _ ht => hwhole _ ht,
    fun n _ ht e he h0 => ?_⟩
  · simp only [parked]
    split <;> decide
  · rw [href]
    decide
  · obtain ⟨h1,h2⟩ := hentry n.toNat ht e he h0
    exact ⟨h1,Or.inl h2⟩

/-- The root with a directory `a`, and in it a file `b`; the inodes are in block 5. -/
def town : Volume where
  sb := ⟨0,0,0,0,0,5,0⟩
  disk := fun b =>
    if b = 3 then putBytes (fun _ => 0) 0 (mkDirent 1 [46]++mkDirent 1 [46,46]++mkDirent 2 [97])
    else if b = 4 then putBytes (fun _ => 0) 0 (mkDirent 2 [46]++mkDirent 1 [46,46]++mkDirent 3 [98])
    else if b = 5 then putDinode (putDinode (putDinode (fun _ => 0) 1 (dir 3)) 2 (dir 4)) 3
      {Dinode.zero with type := T_FILE, nlink := 1}
    else fun _ => 0
where
  dir (b : Uint) : Dinode :=
    {Dinode.zero with type := T_DIR, nlink := 1, size := 48, addrs := fun k => if k = 0 then b else 0}

theorem town_dir (n : ℕ) (h : (town.dinode n).type = T_DIR) : n = 1 ∨ n = 2 := by
  have hin : ∀ m < IPB, (town.dinode m).type = T_DIR → m = 1 ∨ m = 2 := by decide +kernel
  have hout : ∀ m < IPB, (getDinode (fun _ => 0) m).type ≠ T_DIR := by decide +kernel
  rcases Nat.lt_or_ge n IPB with hn | hn
  · exact hin n hn h
  have hb : 1 ≤ n/IPB := (Nat.one_le_div_iff (by decide)).mpr hn
  have hz : town.disk (n/IPB+5) = fun _ => 0 := by
    simp only [town]
    rw [if_neg (by omega), if_neg (by omega), if_neg (by omega)]
  refine absurd ?_ (hout (n%IPB) (Nat.mod_lt n (by decide)))
  rwa [← hz]

theorem town_tree : Tree (parked 1 town) town ⟨0,nproc_pos⟩ ⟨0,ninode_pos⟩ := by
  have hd : ∀ n ∈ [1,2], Linked town n ∧ (town.dinode n).size = 48 ∧ town.addr (town.dinode n) 0 ≠ 0 ∧
      ∀ e < 3, Linked town (entryInum town (town.dinode n) e).toNat := by
    unfold Linked
    decide +kernel
  have hdir : ∀ n, (town.dinode n).type = T_DIR → n ∈ [1,2] := fun n h => by simpa using town_dir n h
  refine parked_tree (by decide) (hd 1 (by decide)).1 (hd 2 (by decide)).1 (fun n h => ?_)
    (fun n h e he _ => ?_)
  · obtain ⟨-,h1,h2,-⟩ := hd n (hdir n h)
    have h48 : (town.dinode n).size.toNat = 48 := by rw [h1]; rfl
    refine ⟨by rw [h48]; rfl,by rw [h48]; decide,fun o ho => ?_⟩
    rw [h48] at ho
    have h0 : o/BSIZE = 0 := Nat.div_eq_of_lt (Nat.lt_trans ho (by decide))
    rwa [h0]
  · obtain ⟨-,h1,-,h2⟩ := hd n (hdir n h)
    rw [h1] at he
    exact h2 e he

theorem path_resolution_file : Tree (parked 1 town) town ⟨0,nproc_pos⟩ ⟨0,ninode_pos⟩ ∧
    Returns (namei ⟨0,nproc_pos⟩ [slash,97,slash,slash,98])
      (Resolved (parked 1 town) town (some 3)) (parked 1 town) ∧
    Returns (nameiparent ⟨0,nproc_pos⟩ [98]) (fun r t =>
      Resolved (parked 1 town) town (some 2) (r.map Prod.fst) t ∧ r.map Prod.snd = some [98])
      (parked 1 town) := by
  have hroom : ∀ n names, Room (parked 1 town) town n names :=
    fun n names => room_of_spare (a := ⟨1,by decide⟩) (b := ⟨2,by decide⟩) (by decide) rfl rfl n names
  have h := path_resolution_iff town_tree
  have h1 := (h [slash,97,slash,slash,98]).1.mpr (hroom _ _)
  have h2 := (h [98]).2.mpr (hroom _ _)
  rw [show resolve town _ _ = some 3 by decide +kernel] at h1
  rw [show resolveParent town _ _ = some (2,[98]) by decide +kernel] at h2
  exact ⟨town_tree,h1,h2⟩

/-- A volume of empty directories. -/
def bareDirs : Volume :=
  ⟨⟨0,0,0,0,0,0,0⟩,fun _ j => if j.val%64 = 0 ∨ j.val%64 = 6 then 1 else 0⟩

theorem bareDirs_dinode (n : ℕ) : (bareDirs.dinode n).type = T_DIR ∧ (bareDirs.dinode n).nlink = 1 ∧
    (bareDirs.dinode n).size = 0 := by
  have h : ∀ m < IPB, let d := getDinode (fun j => if j.val%64 = 0 ∨ j.val%64 = 6 then 1 else 0) m
      d.type = T_DIR ∧ d.nlink = 1 ∧ d.size = 0 := by decide +kernel
  exact h (n%IPB) (Nat.mod_lt n (by decide))

/-- With all slots in use, none of them by the root, not even the root is found. -/
theorem namei_no_inodes : Tree (parked NINODE bareDirs) bareDirs ⟨0,nproc_pos⟩ ⟨0,ninode_pos⟩ ∧
    ¬ Returns (namei ⟨0,nproc_pos⟩ [slash]) (Resolved (parked NINODE bareDirs) bareDirs
      (resolve bareDirs (start (parked NINODE bareDirs) ⟨0,ninode_pos⟩ [slash])
        (components [slash]))) (parked NINODE bareDirs) := by
  have hd := bareDirs_dinode
  have hzero : ∀ n, (bareDirs.dinode n).size.toNat = 0 := fun n => by rw [(hd n).2.2]; rfl
  have hlinked : ∀ n, Linked bareDirs n := fun n => by
    rw [Linked, (hd n).1, (hd n).2.1]
    decide
  have ht := parked_tree (k := NINODE) (by decide) (hlinked 1) (hlinked 2)
    (fun n _ => ⟨by rw [hzero]; rfl,by rw [hzero]; exact Nat.zero_le _,
      fun o ho => absurd ho (by rw [hzero]; omega)⟩) (fun n _ e _ _ => hlinked _)
  refine ⟨ht,fun h => ?_⟩
  rcases ((namei_iff ht [slash]).mp h).1 with ⟨i,-,-,hi⟩ | ⟨j,hj⟩
  · have hlt := i.isLt
    have := congrArg BitVec.toNat hi
    simp only [parked, BitVec.toNat_ofNat, start, List.head?_cons, if_true] at this
    rw [Nat.mod_eq_of_lt (by simp only [NINODE] at hlt; omega)] at this
    have h1 : ROOTINO.toNat = 1 := rfl
    omega
  · have h1 : (parked NINODE bareDirs).iref j = 1 := if_pos j.isLt
    omega

end Paths

end Yeet.Fs
