import YeetKernel.FsBelow
import YeetKernel.Shortage
import YeetKernel.FileArrays

/-!
# The credentials of exec

`exec` lets a process run a file if any of the three classes allows it, where the
rule of UNIX asks only the first class that applies. And it takes the owner of a
setuid file for the user of the process right after that check, before anything that
can still fail.
-/

namespace Yeet.Fs
open Kernel Bytes FsDisk Resumption Function

/-- The class rule, as `canRun` of p5-test has it. -/
def canRun (x : Process) (d : Dinode) : Bool :=
  if x.uid == d.uid.setWidth 32 then d.mode.getLsbD 6
  else if x.gid == d.gid.setWidth 32 then d.mode.getLsbD 3
  else d.mode.getLsbD 0

def execEnd (ip : Ino) (loaded : Bool) : FsProg ℤ := do
  iunlockput ip
  endOp
  let image ← choose
  if loaded && image != 0 then pure 0 else pure (-1)

def execFile (p : Procno) (ip : Ino) : FsProg ℤ := execLoad p ip >>= execEnd ip

def execFind (p : Procno) (path : List Byte) : FsProg (Option Ino) := do
  beginOp
  let r ← namei p path
  match r with
  | none => pure none
  | some ip => do
    ilock ip
    pure (some ip)

def execRest (p : Procno) : Option Ino → FsProg ℤ
  | none => do
    endOp
    pure (-1)
  | some ip => do
    let page ← choose
    if page = 0 then halt "trap" else execFile p ip

theorem exec_eq (p : Procno) (path : List Byte) : exec p path = execFind p path >>= execRest p := by
  unfold exec execFind
  rw [bind_assoc]
  apply congrArg (beginOp >>= ·)
  funext _
  rw [bind_assoc]
  apply congrArg (namei p path >>= ·)
  funext r
  cases r with
  | none => rfl
  | some ip =>
    rw [bind_assoc]
    rfl

def UidOnSuccess (p : Procno) (d : Dinode) (s : State) (r : ℤ) (s' : State) : Prop :=
  (s'.proc p).gid = (s.proc p).gid ∧ ((s'.proc p).uid ≠ (s.proc p).uid →
      r = 0 ∧ d.mode.getLsbD 9 = true ∧ (s'.proc p).uid = d.uid.setWidth 32)

/-- The check follows the class rule, and whenever `exec` returns the credentials are as they
should be. -/
def Credentials (p : Procno) (path : List Byte) (d : Dinode) (s : State) : Prop :=
  mayExec (s.proc p) d = canRun (s.proc p) d ∧
    Ends (exec p path) (fun o => ∀ r s', o = some (.ok (r,s')) → UidOnSuccess p d s r s') s

/-- No class but the one that applies allows what it does not, and there is no other user to
become. -/
def Undisputed (x : Process) (d : Dinode) : Prop :=
  ¬ (x.uid = d.uid.setWidth 32 ∧ d.mode.getLsbD 6 = false ∧
    (x.gid = d.gid.setWidth 32 ∧ d.mode.getLsbD 3 = true ∨ d.mode.getLsbD 0 = true)) ∧
  ¬ (x.uid ≠ d.uid.setWidth 32 ∧ x.gid = d.gid.setWidth 32 ∧ d.mode.getLsbD 3 = false ∧
    d.mode.getLsbD 0 = true) ∧
  ¬ (mayExec x d = true ∧ d.mode.getLsbD 9 = true ∧ x.uid ≠ d.uid.setWidth 32)

theorem mayExec_eq_canRun_iff (x : Process) (d : Dinode) : mayExec x d = canRun x d ↔
      ¬ (x.uid = d.uid.setWidth 32 ∧ d.mode.getLsbD 6 = false ∧
        (x.gid = d.gid.setWidth 32 ∧ d.mode.getLsbD 3 = true ∨ d.mode.getLsbD 0 = true)) ∧
      ¬ (x.uid ≠ d.uid.setWidth 32 ∧ x.gid = d.gid.setWidth 32 ∧ d.mode.getLsbD 3 = false ∧
        d.mode.getLsbD 0 = true) := by
  unfold mayExec canRun
  by_cases hu : x.uid = d.uid.setWidth 32
  · by_cases hg : x.gid = d.gid.setWidth 32
    · cases h6 : d.mode.getLsbD 6 <;> cases h3 : d.mode.getLsbD 3 <;> simp [hu, hg]
    · cases h6 : d.mode.getLsbD 6 <;> simp [hu, hg]
  · by_cases hg : x.gid = d.gid.setWidth 32
    · cases h3 : d.mode.getLsbD 3 <;> simp [hu, hg]
    · simp [hu, hg]

section Proc

def SameProc (s s' : State) : Prop := s'.proc = s.proc

theorem does_proc {α : Type} {x : FsProg α} (h : x.Does Below) : x.Does SameProc :=
  does_mono h (fun _ _ h => h.proc)

theorem does_perform_proc {α : Type} {f : State → Except Fault (α × State)}
    (h : ∀ s a s', f s = .ok (a,s') → SameProc s s') : (perform f).Does SameProc :=
  does_atom (fun s a s' e => h s a s' (Option.some.inj e))

theorem iget_proc (dev inum : Uint) : (iget dev inum).Does SameProc := by
  apply does_perform_proc
  intro s a s' h
  unfold State.iget at h
  split at h
  · cases h
    rfl
  split at h
  · cases h
  · cases h
    rfl

theorem iput_proc (i : Ino) : (iput i).Does SameProc := by
  apply does_bind
  · apply does_perform_proc
    intro s a s' h
    unfold State.put at h
    split at h
    · split at h
      · cases h
      · cases h
        rfl
    · cases h
      rfl
  intro last
  cases last with
  | false => exact does_pure
  | true =>
    apply does_bind
    · apply does_perform_proc
      intro s a s' h
      obtain ⟨v,_,h⟩ := bind_eq_ok.mp h
      cases h
      rfl
    · intro _
      exact does_bind (does_assign (fun _ => rfl)) (fun _ => does_assign (fun _ => rfl))

theorem iunlockput_proc (i : Ino) : (iunlockput i).Does SameProc :=
  does_bind (does_proc (below_iunlock i)) (fun _ => iput_proc i)

theorem dirlookup_proc (dp : Ino) (name : Name) : (dirlookup dp name).Does SameProc := by
  unfold dirlookup
  apply does_bind (does_proc below_look)
  intro x
  split
  · exact does_proc below_halt
  apply does_bind (does_proc (below_scanAll dp _ _ _))
  intro r
  split
  · exact does_pure
  · exact does_bind (iget_proc _ _) (fun _ => does_pure)

theorem walk_proc (parent : Bool) (l : List Name) (ip : Ino) : (walk parent l ip).Does SameProc := by
  induction l generalizing ip with
  | nil =>
    unfold walk
    split
    · exact does_bind (iput_proc ip) (fun _ => does_pure)
    · exact does_pure
  | cons name l ih =>
    unfold walk
    apply does_bind (does_proc (below_ilock ip))
    intro _
    apply does_bind (does_proc below_look)
    intro type
    split
    · exact does_bind (iunlockput_proc ip) (fun _ => does_pure)
    split
    · exact does_bind (does_proc (below_iunlock ip)) (fun _ => does_pure)
    apply does_bind (dirlookup_proc ip name)
    intro next
    split
    · exact does_bind (iunlockput_proc ip) (fun _ => does_pure)
    · exact does_bind (iunlockput_proc ip) (fun _ => ih _)

theorem namei_proc (p : Procno) (path : List Byte) : (namei p path).Does SameProc := by
  unfold namei namex
  refine does_bind ?_ (fun _ => does_pure)
  dsimp only
  split
  · exact does_bind (iget_proc _ _) (fun ip => walk_proc _ _ ip)
  apply does_bind (does_proc below_look)
  intro cwd
  apply does_bind (does_proc (below_deref cwd))
  intro ip
  exact does_bind (does_assign (fun _ => rfl)) (fun _ => walk_proc _ _ ip)

theorem execFind_proc (p : Procno) (path : List Byte) : (execFind p path).Does SameProc := by
  unfold execFind
  apply does_bind (does_proc below_beginOp)
  intro _
  apply does_bind (namei_proc p path)
  intro r
  split
  · exact does_pure
  · exact does_bind (does_proc (below_ilock _)) (fun _ => does_pure)

def execHeaders (ip : Ino) : FsProg Bool := do
  let r ← readi ip 0 (BitVec.ofNat 32 elfSize)
  if (BitVec.ofInt 32 r.1).toNat < elfSize then pure false
  else do
    let m ← choose
    let elf := if r.1 < 0 then outside elfSize m else r.2
    if wordOf elf 0 ≠ ELF_MAGIC then pure false
    else do
      let pgdir ← choose
      if pgdir = 0 then pure false
      else loadSegments ip ((wordOf elf 44).setWidth 16).toNat (wordOf elf 28)

theorem execHeaders_below (ip : Ino) : (execHeaders ip).Does Below := by
  unfold execHeaders
  apply does_bind (below_readi ip _ _)
  intro r
  split
  · exact does_pure
  apply does_bind does_choose
  intro m
  generalize (if r.1 < 0 then outside elfSize m else r.2) = elf
  dsimp only
  split
  · exact does_pure
  apply does_bind does_choose
  intro pgdir
  split
  · exact does_pure
  · exact below_loadSegments ip _ _

theorem execEnd_proc (ip : Ino) (loaded : Bool) : (execEnd ip loaded).Does SameProc := by
  unfold execEnd
  apply does_bind (iunlockput_proc ip)
  intro _
  apply does_bind (does_proc below_endOp)
  intro _
  apply does_bind does_choose
  intro image
  split <;> exact does_pure

end Proc

variable {p : Procno} {ip : Ino} {path : List Byte} {s s₁ : State} {loose : List Uint}

def SameIds (p : Procno) (s s' : State) : Prop :=
  (s'.proc p).uid = (s.proc p).uid ∧ (s'.proc p).gid = (s.proc p).gid

theorem execFile_sameIds (h : Undisputed (s.proc p) (s.inode ip).din) :
    Ends (execFile p ip) (fun o => ∀ r s', o = some (.ok (r,s')) → SameIds p s s') s := by
  have hsame : ∀ {α : Type} {x : FsProg α} (t : State), x.Does SameProc →
      Ends x (fun o => ∀ a s', o = some (.ok (a,s')) → s'.proc = t.proc) t := fun t hx =>
    ends_of_does (R := SameProc) (fun _ => rfl) (fun _ _ _ h1 h2 => h2.trans h1) hx t
  have hload : Ends (execLoad p ip) (fun o => ∀ b s', o = some (.ok (b,s')) → SameIds p s s') s := by
    show Ends (if mayExec (s.proc p) (s.inode ip).din then
      assign (fun s' => s'.setuidFrom p (s.inode ip).din) >>= fun _ => execHeaders ip
      else pure false) _ s
    split
    · rename_i hmay
      have hset : SameIds p s (s.setuidFrom p (s.inode ip).din) := by
        unfold State.setuidFrom
        split
        · rename_i hbit
          have huid : (s.proc p).uid = (s.inode ip).din.uid.setWidth 32 := by
            by_contra hne
            exact h.2.2 ⟨hmay,hbit,hne⟩
          constructor
          · simp only [State.setProc, update_self, huid]
          · simp only [State.setProc, update_self]
        · exact ⟨rfl,rfl⟩
      apply ends_bind
      apply ends_atom
      refine ends_mono (hsame _ (does_proc (execHeaders_below ip))) (fun o ho b s' hb => ?_)
      have hp := ho b s' hb
      unfold SameIds at hset ⊢
      rw [hp]
      exact hset
    · apply ends_pure
      intro b s' hb
      cases hb
      exact ⟨rfl,rfl⟩
  apply ends_ok_bind
  refine ends_mono hload (fun o ho loaded s' hb => ?_)
  have hids := ho loaded s' hb
  refine ends_mono (hsame s' (execEnd_proc ip loaded)) (fun o ho r s₂ hr => ?_)
  have hp := ho r s₂ hr
  unfold SameIds at hids ⊢
  rw [hp]
  exact hids

section Failure

/-- The process after the check, and after `setuid` if the file has it. -/
def checked (x : Process) (d : Dinode) : Process :=
  if mayExec x d && d.mode.getLsbD 9 then {x with uid := d.uid.setWidth 32} else x

variable (hc : Consistent loose ip s) (hd : (s.inode ip).din.type ≠ T_DEV)

include hc hd

theorem execHeaders_fails : Can (execHeaders ip) (some (.ok (false,s))) s := by
  obtain ⟨r,s',hr,rfl⟩ := can_of_returns (returns_readi_all hc hd 0 (BitVec.ofNat 32 elfSize)
    (P := fun _ s' => s' = s) (fun _ => rfl) (fun _ _ => rfl))
  unfold execHeaders
  apply can_bind hr
  split
  · exact can_pure false s'
  apply can_choose 0
  generalize (if r.1 < 0 then outside elfSize 0 else r.2) = elf
  dsimp only
  split
  · exact can_pure false s'
  · exact can_choose 0 (can_pure false s')

theorem execLoad_fails :
    Can (execLoad p ip) (some (.ok (false,s.setProc p (checked (s.proc p) (s.inode ip).din)))) s := by
  show Can (if mayExec (s.proc p) (s.inode ip).din then
    assign (fun s' => s'.setuidFrom p (s.inode ip).din) >>= fun _ => execHeaders ip
    else pure false) _ s
  unfold checked
  cases mayExec (s.proc p) (s.inode ip).din with
  | false =>
    simp only [Bool.false_and, Bool.false_eq_true, ↓reduceIte, State.setProc, update_eq_self]
    exact can_pure false s
  | true =>
    have hset : ∀ d, s.setuidFrom p d =
        s.setProc p (if d.mode.getLsbD 9 then {s.proc p with uid := d.uid.setWidth 32} else s.proc p) := by
      intro d
      unfold State.setuidFrom
      split
      · rfl
      · rw [State.setProc, update_eq_self]
    rw [Bool.true_and, ← hset]
    show Can (execHeaders ip) _ (s.setuidFrom p (s.inode ip).din)
    rw [hset]
    exact execHeaders_fails ⟨hc.owned,hc.filled,hc.lt,hc.din,hc.type⟩ hd

theorem execFile_fails (hb : (s.inode ip).busy = true) (hr : 0 < s.iref ip)
    (hl : (s.inode ip).din.nlink ≠ 0) : ∃ s', Can (execFile p ip) (some (.ok (-1,s'))) s ∧
      s'.proc p = checked (s.proc p) (s.inode ip).din := by
  have hput : ∀ x, Returns (iunlockput ip) (fun _ s' => s'.proc p = x) (s.setProc p x) := by
    intro x
    refine returns_bind (returns_iunlock (s := s.setProc p x) hb hr (returns_iput (fun _ => Or.inl ?_) ?_))
    · simpa only [State.setInode, State.setProc, update_self] using hl
    · simp only [State.setRef, State.setInode, State.setProc, update_self]
  obtain ⟨_,s₂,hcan₂,hs₂⟩ := can_of_returns (hput _)
  have hend : Can endOp (some (.ok ((),{s₂ with outstanding := s₂.outstanding-1}))) s₂ := rfl
  exact ⟨_,can_bind (execLoad_fails hc hd) (can_bind hcan₂ (can_bind hend ⟨0,can_pure (-1) _⟩)),hs₂⟩

end Failure

def Finds (p : Procno) (path : List Byte) (s : State) (ip : Ino) (s₁ : State) : Prop :=
  Returns (execFind p path) (fun r s' => r = some ip ∧ s' = s₁) s

theorem Finds.proc (h : Finds p path s ip s₁) : s₁.proc = s.proc := by
  obtain ⟨o,h1,h2⟩ := ends_meet h (ends_of_does (R := SameProc) (fun _ => rfl)
    (fun _ _ _ h1 h2 => h2.trans h1) (execFind_proc p path) s)
  obtain ⟨r,s',rfl,-,rfl⟩ := h1
  exact h2 r s' rfl

theorem Credentials.undisputed (h : Credentials p path (s₁.inode ip).din s)
    (hf : Finds p path s ip s₁) (hc : Consistent loose ip s₁) (hd : (s₁.inode ip).din.type ≠ T_DEV)
    (hb : (s₁.inode ip).busy = true) (hr : 0 < s₁.iref ip) (hl : (s₁.inode ip).din.nlink ≠ 0) :
    Undisputed (s.proc p) (s₁.inode ip).din := by
  have hproc := hf.proc
  obtain ⟨hclass,hends⟩ := h
  have hrule := (mayExec_eq_canRun_iff _ _).mp hclass
  refine ⟨hrule.1,hrule.2,?_⟩
  rintro ⟨hmay,hbit,hne⟩
  rw [← hproc] at hmay hne
  obtain ⟨s',hcan,huid⟩ := execFile_fails hc hd hb hr hl (p := p)
  rw [checked, hmay, hbit, Bool.and_self, if_pos rfl] at huid
  rw [exec_eq] at hends
  obtain ⟨r,s₂,hfind,rfl,rfl⟩ := can_of_returns hf
  have hall : Can (execFind p path >>= execRest p) (some (.ok (-1,s'))) s :=
    can_bind hfind (can_choose 1 hcan)
  have hq := ends_can hends hall (-1) s' rfl
  have huid' : (s'.proc p).uid ≠ (s.proc p).uid := by
    rw [huid, ← hproc]
    exact fun e => hne e.symm
  have h0 := (hq.2 huid').1
  omega

theorem Finds.credentials (hf : Finds p path s ip s₁)
    (h : Undisputed (s.proc p) (s₁.inode ip).din) : Credentials p path (s₁.inode ip).din s := by
  have hproc := hf.proc
  refine ⟨(mayExec_eq_canRun_iff _ _).mpr ⟨h.1,h.2.1⟩,?_⟩
  rw [exec_eq]
  apply ends_after
  refine returns_mono hf (fun r s' hr => ?_)
  obtain ⟨rfl,rfl⟩ := hr
  intro page
  show Ends (if page = 0 then halt "trap" else execFile p ip) _ s'
  split
  · exact fun r s₂ hr => by cases hr
  rw [← hproc] at h
  refine ends_mono (execFile_sameIds h) (fun o ho r s₂ hr => ?_)
  have hids := ho r s₂ hr
  unfold SameIds at hids
  rw [hproc] at hids
  exact ⟨hids.2,fun hne => absurd hids.1 hne⟩

theorem exec_credentials_iff (hf : Finds p path s ip s₁) (hc : Consistent loose ip s₁)
    (hd : (s₁.inode ip).din.type ≠ T_DEV) (hb : (s₁.inode ip).busy = true) (hr : 0 < s₁.iref ip)
    (hl : (s₁.inode ip).din.nlink ≠ 0) :
    Credentials p path (s₁.inode ip).din s ↔ Undisputed (s.proc p) (s₁.inode ip).din :=
  ⟨fun h => h.undisputed hf hc hd hb hr hl,hf.credentials⟩

section Root

def rootPath : List Byte := [slash]

def firstProc : Procno := Fin.ofNat 64 0

def rootFound (d : Dinode) : State :=
  {boot (scratchDisk d) with
    inode := update (fun _ => Inode.free) firstSlot ⟨ROOTDEV,ROOTINO,true,true,d⟩
    iref := update (fun _ => 0) firstSlot 2
    outstanding := 1}

theorem boot_finds {d : Disk} (ht : ((boot d).vol.dinode 1).type ≠ 0) :
    Finds firstProc rootPath (boot d) firstSlot {boot d with
      inode := update (fun _ => Inode.free) firstSlot
        ⟨ROOTDEV,ROOTINO,true,true,(boot d).vol.dinode 1⟩
      iref := update (fun _ => 0) firstSlot 2
      outstanding := 1} := by
  have hget : State.iget {boot d with outstanding := 1} ROOTDEV ROOTINO =
      .ok (firstSlot,State.setRef {boot d with outstanding := 1} firstSlot 2) := rfl
  unfold Finds execFind
  refine returns_bind (returns_assign ?_)
  refine returns_bind (returns_bind (returns_bind (returns_perform hget ?_)))
  have hnames : elements rootPath.length rootPath = [] := rfl
  have hwalk : walk false [] firstSlot = pure (some (firstSlot,[])) := rfl
  rw [hnames, hwalk]
  refine returns_pure (returns_pure ?_)
  show Returns (ilock firstSlot >>= fun _ => pure (some firstSlot)) _ _
  refine returns_bind (returns_bind (returns_atom (a := ())
    (r := (State.setRef {boot d with outstanding := 1} firstSlot 2).setInode firstSlot
      ⟨ROOTDEV,ROOTINO,true,false,Dinode.zero⟩) rfl
    (returns_perform (a := ()) ?_ (returns_pure ⟨rfl,rfl⟩))))
  have hnum : ((boot d).vol.dinode ROOTINO.toNat).type ≠ 0 := ht
  have hslot : (⟨0,by decide⟩ : Ino) = firstSlot := rfl
  unfold State.load
  rw [if_neg (by simp [State.setInode])]
  simp only [State.setInode, State.setRef, update_self, if_neg hnum]
  simp only [boot, hslot, update_idem]
  rfl

theorem root_found {d : Dinode} (ht : d.type ≠ 0) :
    Finds firstProc rootPath (boot (scratchDisk d)) firstSlot (rootFound d) := by
  have hdin : (boot (scratchDisk d)).vol.dinode 1 = d := scratch_dinode d
  have h := boot_finds (d := scratchDisk d) (by rwa [hdin])
  rwa [hdin] at h

theorem root_consistent {d : Dinode} (ht : d.type ≠ 0) (hs : d.size = 0) (ha : ∀ k, d.addrs k = 0) :
    Consistent [] firstSlot (rootFound d) := by
  have hc := scratch_consistent ht hs ha
  exact ⟨hc.owned,hc.filled,hc.lt,hc.din,hc.type⟩

def ownerDenied : Dinode := {emptyFile with type := T_DIR, mode := 1}

def setuidRoot : Dinode := {emptyFile with type := T_DIR, mode := 513, uid := 7}

def plainRoot : Dinode := {emptyFile with type := T_DIR, mode := 73}

theorem exec_credentials_plain : Credentials firstProc rootPath plainRoot
    (boot (scratchDisk plainRoot)) := by
  refine (exec_credentials_iff (root_found (d := plainRoot) (by decide))
    (root_consistent (by decide) rfl (fun _ => rfl)) (by decide) rfl (by decide) (by decide)).mpr ?_
  refine ⟨?_,?_,?_⟩
  · exact fun h => absurd h.2.1 (by decide)
  · exact fun h => absurd h.2.2.1 (by decide)
  · exact fun h => absurd h.2.1 (by decide)

/-- The owner gets past the check all the same; and an `exec` that fails leaves the process
with the other user. -/
theorem exec_credentials_disputed :
    ¬ Credentials firstProc rootPath ownerDenied (boot (scratchDisk ownerDenied)) ∧
    ¬ Credentials firstProc rootPath setuidRoot (boot (scratchDisk setuidRoot)) := by
  constructor
  · intro h
    exact absurd h.1 (by decide)
  intro h
  have hfound : Finds firstProc rootPath (boot (scratchDisk setuidRoot)) firstSlot
      (rootFound setuidRoot) := root_found (by decide)
  have hu := Credentials.undisputed h hfound (root_consistent (by decide) rfl (fun _ => rfl))
    (by decide) rfl (by decide) (by decide)
  exact hu.2.2 ⟨by decide,by decide,by decide⟩

end Root

end Yeet.Fs
