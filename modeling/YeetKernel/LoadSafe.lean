import YeetKernel.LoadPages

/-!
# What loading a file does to memory

Started with a fresh directory, the loop of `exec` over the program headers
returns and has filled only frames of the new address space exactly if
`Room.sane` says so. Otherwise it panics or stores bytes elsewhere: a segment
is not aligned, or its end is beyond 2^32 so that `allocuvm` is asked for less
than `loaduvm` fills, or memory ran out at the table of its last page.
-/

namespace Yeet.LoadSafe
open Kernel Bytes Resumption Vm Loader NewSpace
open Fs (wordOf phSize ELF_PROG_LOAD)

section Load

variable {F : Type} {im : Image} {s₀ s : State} {d : Page} {K : PageData} {r : Room}
  {readi : Uint → Uint → Prog F Fault (ℤ × List Byte)} {content : List Byte} {f : F}
  {w : Loading F}

/-- Of a sane file the loop ends with the size of what has been loaded, or gives
up. -/
def Settled (im : Image) (d : Page) (K : PageData) (f : F) (s₀ : State) (l : Option Room) :
    Bool → Outcome (Loading F) Fault (Option ℕ) → Prop
  | true, o => ∃ w, o = some (.ok (l.map Room.sz,w)) ∧ Safe s₀ d w ∧
      ∀ r, l = some r → ∃ s, At im d K r f s₀ s w
  | false, o => Wild s₀ o

theorem settled_none (hs : Safe s₀ d w) :
    Settled im d K f s₀ none true (some (.ok (none,w))) :=
  ⟨w,rfl,hs,fun _ e => nomatch e⟩

variable (hman : ∀ g ∈ s₀.freelist, im.managed g)
include hman

theorem alloc_returns (h : At im d K r f s₀ s w) (e : ℕ) :
    Returns (onVm (allocuvm im d r.sz e)) (fun x w' => (r.grow e = none ∧ x = 0 ∧ Safe s₀ d w') ∨
      ∃ r' s', r.grow e = some r' ∧ x = r'.sz ∧ x ≠ 0 ∧ At im d K r' f s₀ s' w') w := by
  have ha := h.loaded.allocuvm e K
  rw [← h.vm] at ha
  apply returns_mono (onVm_returns ha)
  rintro x w' ⟨⟨s',hvm,hold,hx⟩,hw⟩
  have hland : ∀ b ∈ w'.written, Landed d s₀ s' b := by
    intro b hb
    rw [hw] at hb
    obtain ⟨h1,h2,h3,h4,h5⟩ := h.landed b hb
    refine ⟨h1,h2,h3,hold _ ?_ _ h4,h5⟩
    simp only [PGSIZE, UPAGES, KERNBASE] at *
    omega
  rcases hx with ⟨hg,hx,hu,ht⟩ | ⟨r',hg,hx,hne,hload⟩
  · exact Or.inl ⟨hg,hx,safe_of_landed hu ht hman hvm hland⟩
  · refine Or.inr ⟨r',s',hg,hx,hne,hvm,hload,?_,hland⟩
    rw [hw]
    exact h.files

theorem loadSegments_ends (hr : Reads readi content f) (h : At im d K r f s₀ s w) (k : ℕ) (off : Uint) :
    Ends (loadSegments im readi d k off r.sz)
      (Settled im d K f s₀ (r.load content (tablesIn K) k off) (r.sane content (tablesIn K) k off)) w := by
  induction k generalizing w r s off with
  | zero => exact ends_pure ⟨w,rfl,h.safe hman,fun _ e => ⟨s,Option.some.inj e ▸ h⟩⟩
  | succ k ih =>
    unfold loadSegments Room.sane Room.load
    apply ends_after
    apply returns_mono (readi_returns hr h.files _ _)
    rintro x w' ⟨rfl,rfl⟩
    dsimp only
    split
    · exact ends_pure (settled_none (h.safe hman))
    split
    · exact ih h _
    split
    · exact ends_pure (settled_none (h.safe hman))
    apply ends_after
    apply returns_mono (alloc_returns hman h _)
    rintro sz' w' (⟨hg,rfl,hsafe⟩ | ⟨r',s',hg,rfl,hne,h'⟩)
    · rw [hg, if_pos rfl]
      exact ends_pure (settled_none hsafe)
    rw [hg, if_neg hne]
    dsimp only
    unfold loaduvm
    split
    · exact ends_bind (ends_atom (fun a w e => by cases e))
    rename_i h4
    have hpages := fun o z n => loadPages_ends hman hr h' (not_not.mp h4) o z n (Nat.zero_mod _)
    apply ends_bind
    apply ends_mono (hpages _ _ _)
    intro o ho
    generalize Room.fill .. = verdict at ho ⊢
    cases verdict with
    | wild =>
      refine wild_then ho (fun done => ?_)
      split
      · exact loadSegments_records _ _ _
      · exact does_pure
    | fails =>
      obtain ⟨s'',w'',rfl,h''⟩ := ho
      exact ends_pure (settled_none (h''.safe hman))
    | fits =>
      obtain ⟨s'',w'',rfl,h''⟩ := ho
      exact ih h'' _

end Load

section Start

variable {im : Image} {s : State} {d : Page} (h : Fresh im d s)
include h

theorem start_at (content : List Byte) : At im d (s.mem d) ⟨0,s.freelist.length,false⟩ content
    (s.graft d (fun _ => 0)) (s.graft d (fun _ => 0)) (⟨s,content,[]⟩ : Loading (List Byte)) := by
  have ht := Fresh.target h
  have hu : UserSpace im d (s.graft d (fun _ => 0)) := by
    apply space_empty _ _ _ ht
    all_goals rw [graft_freelist]
    · exact h.nodup
    · exact h.managed
    · exact h.dir
  have hl := loaded_empty hu (fun i _ => ht i)
  rw [graft_freelist] at hl
  refine ⟨?_,hl,rfl,fun _ hb => absurd hb List.not_mem_nil⟩
  rw [graft_graft, graft_self]

theorem load_ends (content : List Byte) (phnum : ℕ) (phoff : Uint) :
    Ends (loadSegments im readContent d phnum phoff 0)
      (Settled im d (s.mem d) content (s.graft d (fun _ => 0))
        ((Room.mk 0 s.freelist.length false).load content (fun i => present (s.pte d i)) phnum phoff)
        ((Room.mk 0 s.freelist.length false).sane content (fun i => present (s.pte d i)) phnum phoff))
      ⟨s,content,[]⟩ := by
  have hs := start_at h content
  refine loadSegments_ends ?_ (readContent_reads content) hs phnum phoff
  rw [graft_freelist]
  exact h.managed

theorem unsafe_of_insane {content : List Byte} {phnum : ℕ} {phoff : Uint}
    (hs : (Room.mk 0 s.freelist.length false).sane content (fun i => present (s.pte d i)) phnum phoff =
      false) : ¬ Returns (loadSegments im readContent d phnum phoff 0) (fun _ w => Safe s d w)
      ⟨s,content,[]⟩ := by
  intro hret
  have hends := load_ends h content phnum phoff
  rw [hs] at hends
  obtain ⟨o,⟨a,w,rfl,hsafe⟩,hwild⟩ := ends_meet hret hends
  obtain ⟨b,hb,hlen,hbad⟩ := hwild a w rfl
  obtain ⟨h1,h2,_,_⟩ := hsafe b hb 0 hlen
  rcases hbad with hbad | hbad
  · omega
  · exact hbad h2

end Start

theorem loadSegments_safe_iff {im : Image} {s : State} {d : Page} (h : Fresh im d s)
    (content : List Byte) (phnum : ℕ) (phoff : Uint) :
    Returns (loadSegments im readContent d phnum phoff 0) (fun _ w => Safe s d w) ⟨s,content,[]⟩ ↔
      (Room.mk 0 s.freelist.length false).sane content (fun i => present (s.pte d i)) phnum phoff =
        true := by
  constructor
  · intro hret
    by_contra hs
    exact unsafe_of_insane h ((Bool.not_eq_true _).mp hs) hret
  intro hs
  have hends := load_ends h content phnum phoff
  rw [hs] at hends
  exact ends_mono hends (fun o ⟨w,e,hw,_⟩ => ⟨_,w,e,hw⟩)

theorem bareKernel_fresh {l : List Page} (hn : l.Nodup) (hm : ∀ g ∈ l, tightImage.managed g)
    (hd : 2000 ∉ l) : Fresh tightImage 2000 (bareKernel l) :=
  ⟨hn,hm,hd,fun i _ => getField_zero (4*i) 4⟩

def bytesOf (x : Uint) : List Byte :=
  [x.setWidth 8,(x >>> 8).setWidth 8,(x >>> 16).setWidth 8,(x >>> 24).setWidth 8]

def loadFile (vaddr filesz memsz : Uint) : List Byte :=
  bytesOf ELF_PROG_LOAD++bytesOf 32++bytesOf vaddr++bytesOf 0++bytesOf filesz++bytesOf memsz++
    bytesOf 7++bytesOf 0x1000++[0x90,0x90,0x90,0xf4]

theorem loadSegments_safe_first : Fresh tightImage 2000 (bareKernel [3000,3001,3002]) ∧
    Returns (loadSegments tightImage readContent 2000 1 0 0)
      (fun _ w => Safe (bareKernel [3000,3001,3002]) 2000 w)
      ⟨bareKernel [3000,3001,3002],loadFile 0 4 8,[]⟩ := by
  have h : Fresh tightImage 2000 (bareKernel [3000,3001,3002]) :=
    bareKernel_fresh (by decide) (by decide) (by decide)
  exact ⟨h,(loadSegments_safe_iff h (loadFile 0 4 8) 1 0).mpr (by decide +kernel)⟩

/-- A segment at address 1; one that ends at 2^32+0x1000 and starts above
KERNBASE; and one that would fit if there were a page for its table. -/
theorem loadSegments_unsafe : ¬ Returns (loadSegments tightImage readContent 2000 1 0 0)
      (fun _ w => Safe (bareKernel [3000,3001,3002]) 2000 w)
      ⟨bareKernel [3000,3001,3002],loadFile 1 4 8,[]⟩ ∧
    ¬ Returns (loadSegments tightImage readContent 2000 1 0 0)
      (fun _ w => Safe (bareKernel [3000,3001,3002]) 2000 w)
      ⟨bareKernel [3000,3001,3002],loadFile 0x80000000 4 0x80001000,[]⟩ ∧
    ¬ Returns (loadSegments tightImage readContent 2000 1 0 0)
      (fun _ w => Safe (bareKernel [3000]) 2000 w)
      ⟨bareKernel [3000],loadFile 0 4 8,[]⟩ := by
  have h : Fresh tightImage 2000 (bareKernel [3000,3001,3002]) :=
    bareKernel_fresh (by decide) (by decide) (by decide)
  have h' : Fresh tightImage 2000 (bareKernel [3000]) :=
    bareKernel_fresh (by decide) (by decide) (by decide)
  exact ⟨unsafe_of_insane h (by decide +kernel),unsafe_of_insane h (by decide +kernel),
    unsafe_of_insane h' (by decide +kernel)⟩

end Yeet.LoadSafe
