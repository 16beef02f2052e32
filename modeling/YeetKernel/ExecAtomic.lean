import YeetKernel.AttrCalls
import YeetKernel.ExecCredentials
import YeetKernel.FsResolve
import YeetKernel.Shortage
import YeetKernel.Vm

/-!
# A failed exec

`exec` should leave the caller alone when it returns -1. But it reads the
attributes of the file with `stati(ip, st)`, where `st` is null: as soon as
the file is found, they are stored at address 0 in the memory of the caller,
and none of the exits undoes that.
-/

namespace Yeet.ExecAtomic
open Kernel Bytes FsDisk Fs Resumption RefHand AttrCalls

/-- The calling process: its name, address space, trap frame and user memory. -/
structure Caller where
  name : List Byte
  pgdir : ℕ
  sz : Uint
  eip : Uint
  esp : Uint
  mem : Block KERNBASE

def stati (x : Inode) (b : Block KERNBASE) : Block KERNBASE :=
  let b := setField b 4 4 x.dev
  let b := setField b 8 4 x.inum
  let b := setField b 0 2 x.din.type
  let b := setField b 12 2 x.din.nlink
  let b := setField b 24 4 x.din.size
  let b := setField b 20 2 x.din.uid
  let b := setField b 22 2 x.din.gid
  setField b 16 4 x.din.mode

structure World where
  fs : State
  caller : Caller

/-- `stati(ip, 0)` in the address space of the caller. -/
def World.stat (w : World) (ip : Ino) : World :=
  {w with caller := {w.caller with mem := stati (w.fs.inode ip) w.caller.mem}}

variable {α : Type}

def onFs (x : FsProg α) : Prog World Fault α := x.embed World.fs (fun w s => {w with fs := s})

/-- `exec` with the memory of the caller; `new` is what it commits to. -/
def execCall (p : Procno) (path : List Byte) (new : Caller) : Prog World Fault ℤ := do
  let r ← onFs (execFind p path)
  match r with
  | none => do
    onFs endOp
    pure (-1)
  | some ip => do
    let page ← choose
    if page = 0 then fail (.panic "trap")
    else do
      assign (fun w => w.stat ip)
      let r ← onFs (execFile p ip)
      if r = 0 then do
        assign (fun w => {w with caller := new})
        pure 0
      else pure r

/-- Where -1 is returned, the caller is as before, and so are the references of
every slot of the inode cache. -/
def AllOrNothing (p : Procno) (w : World) (o : Outcome World Fault ℤ) : Prop :=
  ∀ w', o = some (.ok (-1,w')) →
    w'.caller = w.caller ∧ SameIds p w.fs w'.fs ∧ ∀ i, w'.fs.iref i = w.fs.iref i

/-- The lookup of the path can end with an inode. -/
def Names (p : Procno) (path : List Byte) (s : State) : Prop :=
  ∃ ip t, Can (lookup p path) (some (.ok (some ip,t))) s

/-- The inode can be read: the volume is consistent, and it is locked, linked and
no device. -/
structure Readable (ip : Ino) (s : State) : Prop where
  consistent : ∃ loose, Consistent loose ip s
  type : (s.inode ip).din.type ≠ T_DEV
  busy : (s.inode ip).busy = true
  ref : 0 < s.iref ip
  nlink : (s.inode ip).din.nlink ≠ 0

section Exec

variable {p : Procno} {path : List Byte} {s : State} {c new : Caller} {x : FsProg α} {w : World}

def lockFound : Option Ino → FsProg (Option Ino)
  | none => pure none
  | some ip => do
    ilock ip
    pure (some ip)

theorem execFind_eq (p : Procno) (path : List Byte) :
    execFind p path = lookup p path >>= lockFound := by
  unfold execFind lookup
  rw [bind_assoc]
  rfl

theorem names_iff {P : Option Ino → State → Prop} (hf : Returns (execFind p path) P s) :
    Names p path s ↔ ∃ ip t, Can (execFind p path) (some (.ok (some ip,t))) s := by
  rw [execFind_eq] at hf ⊢
  constructor
  · rintro ⟨ip,t,hcan⟩
    have hlock := ends_can (ends_bind_iff.mp hf) hcan
    obtain ⟨_,u,h1,-⟩ := can_of_returns (returns_bind_iff.mp hlock)
    exact ⟨ip,u,can_bind hcan (can_bind h1 (can_pure (some ip) u))⟩
  rintro ⟨ip,t,hcan⟩
  by_contra hno
  refine ends_can (Q := fun o => o ≠ some (.ok (some ip,t))) (ends_bind ?_) hcan rfl
  apply ends_mono (ends_and (ends_bind_iff.mp hf) (ends_self (lookup p path) s))
  rintro (_ | _ | ⟨_ | jp,u⟩) ⟨h1,h2⟩
  · exact fun e => nomatch e
  · exact fun e => nomatch e
  · exact fun e => nomatch e
  · exact absurd ⟨jp,u,h2⟩ hno

theorem execFind_adds (p : Procno) (path : List Byte) : Adds (execFind p path) found := by
  rw [execFind_eq]
  apply adds_bind (lookup_adds p path)
  intro a
  cases a with
  | none => exact adds_pure _ (sub_self _)
  | some ip =>
    apply adds_bind (adds_quiet (does_ilock ip))
    intro _
    exact adds_pure _ (by simp)

theorem onFs_returns {P : α → State → Prop} (h : Returns x P w.fs) :
    Returns (onFs x) (fun a w' => P a w'.fs ∧ w' = {w with fs := w'.fs}) w := by
  unfold onFs
  apply returns_embed _ _ _ h
  all_goals
    intros
    rfl

theorem onFs_can {a : α} {t : State}
    (h : Can x (some (.ok (a,t))) w.fs) : Can (onFs x) (some (.ok (a,{w with fs := t}))) w := by
  unfold onFs
  refine can_embed ?_ ?_ ?_ h
  all_goals
    intros
    rfl

theorem execCall_missing (hf : Returns (execFind p path) (fun a _ => a = none) s) :
    Ends (execCall p path new) (AllOrNothing p ⟨s,c⟩) ⟨s,c⟩ := by
  have hsame : Returns (execFind p path)
      (fun a t => a = none ∧ t.proc = s.proc ∧ t.iref = s.iref) s := by
    apply ends_mono (ends_and hf (ends_and (ends_of_does (R := SameProc) (fun _ => rfl)
      (fun _ _ _ h1 h2 => h2.trans h1) (execFind_proc p path) s) (execFind_adds p path s)))
    rintro _ ⟨⟨a,t,rfl,rfl⟩,hproc,hadds⟩
    exact ⟨none,t,rfl,rfl,hproc none t rfl,(hadds none t rfl).trans (add_zero _)⟩
  apply ends_after
  apply returns_mono (onFs_returns (w := ⟨s,c⟩) hsame)
  rintro a w ⟨⟨rfl,hp,hr⟩,hw⟩
  rw [hw]
  apply ends_after
  refine returns_atom (a := ()) rfl (ends_pure (fun w' e => ?_))
  cases e
  exact ⟨rfl,⟨congrArg _ (congrFun hp p),congrArg _ (congrFun hp p)⟩,fun i => congrFun hr i⟩

theorem execCall_stores (c new : Caller) {ip : Ino} {t : State}
    (hf : Can (execFind p path) (some (.ok (some ip,t))) s) (h : Readable ip t) :
    ∃ w, Can (execCall p path new) (some (.ok (-1,w))) ⟨s,c⟩ ∧
      w.caller.mem = stati (t.inode ip) c.mem := by
  obtain ⟨loose,hc⟩ := h.consistent
  obtain ⟨s',hcan,-⟩ := execFile_fails hc h.type h.busy h.ref h.nlink (p := p)
  have hstat : Can (assign (fun w => w.stat ip) : Prog World Fault Unit)
      (some (.ok ((),World.stat ⟨t,c⟩ ip))) ⟨t,c⟩ := rfl
  exact ⟨_,can_bind (onFs_can (w := ⟨s,c⟩) hf) (can_choose 1 (can_bind hstat
    (can_bind (onFs_can (w := World.stat ⟨t,c⟩ ip) hcan) (can_pure (-1) _)))),rfl⟩

theorem stati_zero (x : Inode) (b : Block KERNBASE) :
    byteAt (stati x b) 0 = x.din.type.extractLsb' 0 8 := by
  simp only [stati]
  rw [byteAt_setField_out, byteAt_setField_out, byteAt_setField_out, byteAt_setField_out,
    byteAt_setField_out]
  · exact byteAt_setField_in (o := 0) (k := 2) (i := 0) _ _ (by decide) (by decide)
  all_goals decide

/-- `exec` is all or nothing, whatever the caller has in memory, if and only if the path
leads to no inode. -/
theorem exec_atomic_iff
    (hf : Returns (execFind p path) (fun r t => ∀ ip, r = some ip → Readable ip t) s) :
    (∀ c, Ends (execCall p path new) (AllOrNothing p ⟨s,c⟩) ⟨s,c⟩) ↔ ¬ Names p path s := by
  rw [names_iff hf]
  constructor
  · rintro h ⟨ip,t,hfind⟩
    obtain ⟨_,_,e,hread⟩ := ends_can hf hfind
    cases e
    -- a memory that does not hold the type of the file at address 0
    let c : Caller := {new with mem := fun _ => (t.inode ip).din.type.extractLsb' 0 8+1}
    obtain ⟨w,hcan,hmem⟩ := execCall_stores c new hfind (hread ip rfl)
    have hsame := (ends_can (h c) hcan w rfl).1
    have h0 := stati_zero (t.inode ip) c.mem
    rw [← hmem, hsame] at h0
    revert h0
    show (t.inode ip).din.type.extractLsb' 0 8+1 ≠ _
    bv_omega
  · intro hno c
    apply execCall_missing
    apply ends_mono (ends_and hf (ends_self (execFind p path) s))
    rintro _ ⟨⟨r,t,rfl,-⟩,hcan⟩
    cases r with
    | none => exact ⟨none,t,rfl,rfl⟩
    | some ip => exact absurd ⟨ip,t,hcan⟩ hno

end Exec

def blankCaller : Caller := ⟨[],0,0,0,0,fun _ => 0⟩

theorem root_readable : Readable firstSlot (rootFound plainRoot) :=
  ⟨⟨_,root_consistent (by decide) rfl (fun _ => rfl)⟩,by decide,rfl,by decide,by decide⟩

theorem tree_op {s : State} {v : Volume} {p : Procno} {i : Ino} (h : Tree s v p i) (n : ℤ) :
    Tree {s with outstanding := n} v p i := by
  have ha : ∀ {m}, Alive {s with outstanding := n} v m → Alive s v m := fun h => ⟨h.type,h.used⟩
  obtain ⟨⟨a1,a2,a3,a4,a5,a6⟩,h2,h3,h4,h5,⟨h6,h6'⟩,h7,h8⟩ := h
  refine ⟨⟨a1,a2,a3,a4,a5,a6⟩,h2,h3,h4,h5,⟨h6,h6'⟩,fun m hm => h7 m (ha hm),fun m hm ht e he h0 => ?_⟩
  obtain ⟨h1,h2⟩ := h8 m (ha hm) ht e he h0
  exact ⟨h1,h2⟩

def missingPath : List Byte := [slash,97,slash,99]

theorem lookup_missing :
    Returns (lookup ⟨0,nproc_pos⟩ missingPath) (fun r _ => r = none) (parked 1 town) := by
  have ht := tree_op town_tree 1
  have hnone : resolve town ROOTINO (components missingPath) = none := by decide +kernel
  refine returns_bind (returns_assign ?_)
  refine returns_mono ((namei_iff ht missingPath).mpr (room_of_spare (a := ⟨1,by decide⟩)
    (b := ⟨2,by decide⟩) (by decide) rfl rfl _ _)) (fun r t hr => ?_)
  exact Option.map_eq_none_iff.mp (hr.result.trans hnone)

/-- A path that leads nowhere leaves the caller alone, `/` does not. -/
theorem exec_atomic_missing :
    (∀ c, Ends (execCall ⟨0,nproc_pos⟩ missingPath blankCaller)
      (AllOrNothing ⟨0,nproc_pos⟩ ⟨parked 1 town,c⟩) ⟨parked 1 town,c⟩) ∧
    ¬ ∀ c, Ends (execCall firstProc rootPath blankCaller)
      (AllOrNothing firstProc ⟨boot (scratchDisk plainRoot),c⟩) ⟨boot (scratchDisk plainRoot),c⟩ := by
  have hroot := root_found (d := plainRoot) (by decide)
  constructor
  · refine (exec_atomic_iff ?_).mpr ?_
    · rw [execFind_eq]
      refine returns_bind (returns_mono lookup_missing (fun r t hr => ?_))
      subst hr
      exact returns_pure (fun ip e => nomatch e)
    rintro ⟨ip,t,hcan⟩
    obtain ⟨_,_,e,hr⟩ := ends_can lookup_missing hcan
    subst hr
    cases e
  · rw [exec_atomic_iff (returns_mono hroot ?_), not_not, names_iff hroot]
    · obtain ⟨_,_,hcan,rfl,rfl⟩ := can_of_returns hroot
      exact ⟨_,_,hcan⟩
    · rintro _ _ ⟨rfl,rfl⟩ ip e
      cases e
      exact root_readable

/-- `exec("/")` can fail and yet write the type of the root, a directory, to address 0. -/
theorem exec_stores_type : ∃ w, Can (execCall firstProc rootPath blankCaller) (some (.ok (-1,w)))
      ⟨boot (scratchDisk plainRoot),blankCaller⟩ ∧ byteAt w.caller.mem 0 = 1 ∧
      byteAt blankCaller.mem 0 = 0 := by
  obtain ⟨_,_,hcan,rfl,rfl⟩ := can_of_returns (root_found (d := plainRoot) (by decide))
  obtain ⟨w,hcan,hmem⟩ := execCall_stores blankCaller blankCaller hcan root_readable
  refine ⟨w,hcan,?_,rfl⟩
  rw [hmem, stati_zero]
  decide

end Yeet.ExecAtomic
