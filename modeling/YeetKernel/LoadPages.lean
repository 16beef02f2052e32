import YeetKernel.Growth

/-!
# Loading a segment

`loaduvm` fills frames of the new address space as long as the pages it comes
to are mapped. At the first page that is not, it panics, finds the end of the
file, or stores bytes in a page that is no frame of the new space.
-/

namespace Yeet.LoadSafe
open Kernel Bytes Resumption Vm Loader NewSpace
open Fs (wordOf phSize ELF_PROG_LOAD)

variable {F α β : Type} {w : Loading F}

/-- Every byte went to a page that was free at the start and is now mapped for
user code below KERNBASE, at the address it was stored for. -/
def Safe (s₀ : State) (d : Page) (w : Loading F) : Prop :=
  ∀ b ∈ w.written, ∀ j < b.len, b.va+j < KERNBASE ∧ b.page ∈ s₀.freelist ∧
    w.vm.translate d (b.va+j) (PTE_P ||| PTE_W ||| PTE_U) = some b.page ∧ (b.va+j)%PGSIZE = j

def Reads (readi : Uint → Uint → Prog F Fault (ℤ × List Byte)) (content : List Byte) (f : F) : Prop :=
  ∀ off n, Returns (readi off n) (fun r f' => r = readFile content off n ∧ f' = f) f

theorem readContent_reads (content : List Byte) : Reads readContent content content :=
  fun _ _ => returns_fetch ⟨rfl,rfl⟩

theorem onVm_returns {x : VmProg α} {P : α → State → Prop} (h : Returns x P w.vm) :
    Returns (onVm x) (fun a w' => P a w'.vm ∧ w' = {w with vm := w'.vm}) w := by
  unfold onVm
  refine returns_embed ?_ ?_ ?_ h
  all_goals
    intros
    rfl

theorem onFiles_returns {x : Prog F Fault α} {P : α → F → Prop} (h : Returns x P w.files) :
    Returns (onFiles x) (fun a w' => P a w'.files ∧ w' = {w with files := w'.files}) w := by
  unfold onFiles
  refine returns_embed ?_ ?_ ?_ h
  all_goals
    intros
    rfl

def Records (w w' : Loading F) : Prop := ∀ b ∈ w.written, b ∈ w'.written

section Record

variable {im : Image} {readi : Uint → Uint → Prog F Fault (ℤ × List Byte)} {d : Page}

theorem onVm_records (x : VmProg α) : (onVm x : Prog (Loading F) Fault α).Does Records :=
  does_embed (fun _ _ _ hb => hb) x

theorem onFiles_records (x : Prog F Fault α) : (onFiles x).Does Records :=
  does_embed (fun _ _ _ hb => hb) x

theorem deliver_records (va : ℕ) (g : Page) (l : List Byte) :
    (deliver im va g l : Prog (Loading F) Fault Unit).Does Records := by
  apply does_atom
  intro w _ w' h b hb
  split at h
  · cases h
    exact hb
  split at h
  · cases h
    exact List.mem_cons_of_mem _ hb
  · cases h

theorem loadPages_records (addr offset sz : Uint) (fuel i : ℕ) :
    (loadPages im readi d addr offset sz fuel i).Does Records := by
  induction fuel generalizing i with
  | zero => exact does_pure
  | succ fuel ih =>
    unfold loadPages
    split
    · apply does_bind (onVm_records _)
      intro r
      cases r with
      | none => exact does_fail
      | some r =>
        apply does_bind (onVm_records _)
        intro pte
        apply does_bind (onFiles_records _)
        intro k
        apply does_bind (deliver_records _ _ _)
        intro _
        split
        · exact does_pure
        · exact ih _
    · exact does_pure

theorem loaduvm_records (addr offset sz : Uint) :
    (loaduvm im readi d addr offset sz).Does Records := by
  unfold loaduvm
  split
  · exact does_fail
  · exact loadPages_records _ _ _ _ _

theorem loadSegments_records (k : ℕ) (off : Uint) (sz : ℕ) :
    (loadSegments im readi d k off sz).Does Records := by
  induction k generalizing off sz with
  | zero => exact does_pure
  | succ k ih =>
    unfold loadSegments
    apply does_bind (onFiles_records _)
    intro r
    split
    · exact does_pure
    split
    · exact ih _ _
    split
    · exact does_pure
    apply does_bind (onVm_records _)
    intro sz'
    split
    · exact does_pure
    apply does_bind (loaduvm_records _ _ _)
    intro done
    split
    · exact ih _ _
    · exact does_pure

end Record

def Wild (s₀ : State) (o : Outcome (Loading F) Fault α) : Prop :=
  ∀ a w, o = some (.ok (a,w)) →
    ∃ b ∈ w.written, 0 < b.len ∧ (KERNBASE ≤ b.va ∨ b.page ∉ s₀.freelist)

theorem wild_then {s₀ : State} {g : α → Prog (Loading F) Fault β} {o : Outcome (Loading F) Fault α}
    (ho : Wild s₀ o) (hg : ∀ a, (g a).Does Records) : Then g (Wild s₀) o := by
  match o with
  | none =>
    intro a w' e
    cases e
  | some (.error e) =>
    intro a w' e
    cases e
  | some (.ok (a,w')) =>
    obtain ⟨b,hb,hlen,hbad⟩ := ho a w' rfl
    apply ends_mono (ends_of_does (fun _ _ hb => hb) (fun _ _ _ h1 h2 b hb => h2 b (h1 b hb)) (hg a) w')
    intro o hrec c w'' e
    exact ⟨b,hrec c w'' e b hb,hlen,hbad⟩

structure Landed (d : Page) (s₀ s : State) (b : Write) : Prop where
  aligned : b.va%PGSIZE = 0
  small : b.va < KERNBASE
  free : b.page ∈ s₀.freelist
  entry : (s.lookup d (b.va/PGSIZE)).filter present = some (mkPte b.page (PTE_W ||| PTE_U))
  len : b.len ≤ PGSIZE

/-- The upper half of the directory is `K`, the lower half as in `s`. -/
structure At (im : Image) (d : Page) (K : PageData) (r : Room) (f : F) (s₀ s : State)
    (w : Loading F) : Prop where
  vm : w.vm = s.graft d K
  loaded : Loaded im d r s₀ s
  files : w.files = f
  landed : ∀ b ∈ w.written, Landed d s₀ s b

section Pages

variable {im : Image} {s₀ s : State} {d : Page} {K : PageData} {r : Room} {v : ℕ}

theorem user_allows (g : Page) : mkPte g (PTE_W ||| PTE_U) &&& (PTE_P ||| PTE_W ||| PTE_U) =
    PTE_P ||| PTE_W ||| PTE_U := by
  have h : mkPte g (PTE_W ||| PTE_U) = BitVec.ofNat 32 (g*PGSIZE) ||| (PTE_P ||| PTE_W ||| PTE_U) := by
    rw [mkPte, BitVec.or_assoc]
    rfl
  rw [h]
  generalize PTE_P ||| PTE_W ||| PTE_U = m
  ext i hi
  simp only [BitVec.getElem_and, BitVec.getElem_or]
  cases m[i] <;> simp

theorem pdx_of (hv : v < 2^20) : pdx (v*PGSIZE) = v/NPTENTRIES := by
  rw [pdx_page]
  simp only [NPTENTRIES, NPDENTRIES]
  omega

def tablesIn (K : PageData) (i : ℕ) : Bool := present (getField K (4*i) 4)

theorem hasTable_iff (h : Loaded im d r s₀ s) (hv : v < 2^20) :
    ((s.graft d K).target d (v/NPTENTRIES)).isSome = r.hasTable (tablesIn K) v := by
  unfold Room.hasTable
  split
  · rename_i hlt
    have hi := dir_user hlt
    have ht := h.table _ hi
    have hiff : tablesOf r.mapped ≤ v/NPTENTRIES ↔ ¬ v < NPTENTRIES*tablesOf r.mapped := by
      simp only [NPTENTRIES]
      omega
    rw [graft_target hi, Bool.eq_iff_iff, decide_eq_true_iff, ← not_iff_not, ← hiff, ← ht]
    simp
  rename_i hge
  have hi : NPDENTRIES/2 ≤ v/NPTENTRIES := by
    simp only [NPTENTRIES, NPDENTRIES, KERNBASE, PGSIZE] at *
    omega
  rw [State.target, graft_upper hi, tablesIn]
  split
  · rename_i hp
    rw [hp, Option.isSome_some]
  · rename_i hp
    rw [(Bool.not_eq_true _).mp hp, Option.isSome_none]

theorem safe_of_landed {w : Loading F} (hu : UserSpace im d s) (ht : UserTables d s)
    (hm : ∀ g ∈ s₀.freelist, im.managed g) (hw : w.vm = s.graft d K)
    (hb : ∀ b ∈ w.written, Landed d s₀ s b) : Safe s₀ d w := by
  intro b hbw j hj
  obtain ⟨ha,hs,hfree,hentry,hlen⟩ := hb b hbw
  have hlt : b.va/PGSIZE < UPAGES := by
    simp only [PGSIZE, UPAGES, KERNBASE] at *
    omega
  have hv : (b.va+j)/PGSIZE = b.va/PGSIZE := by
    simp only [PGSIZE] at *
    omega
  have hpdx : pdx (b.va+j) = b.va/PGSIZE/NPTENTRIES := by
    simp only [pdx, PGSIZE, NPTENTRIES, NPDENTRIES, KERNBASE] at *
    omega
  have hptx : ptx (b.va+j) = b.va/PGSIZE%NPTENTRIES := by
    simp only [ptx, hv]
  have hlook := (Option.filter_eq_some_iff.mp hentry).1
  obtain ⟨t,htar,hpte⟩ := Option.map_eq_some_iff.mp hlook
  have hdir := ht _ (dir_user hlt) t htar
  have hpa : pteAddr (mkPte t (PTE_W ||| PTE_U)) = t := by
    rw [State.target, hdir, present_mkPte, if_pos rfl] at htar
    exact Option.some.inj htar
  refine ⟨?_,hfree,?_,?_⟩
  · simp only [PGSIZE, KERNBASE] at *
    omega
  · have h1 : (s.graft d K).pte d (b.va/PGSIZE/NPTENTRIES) = mkPte t (PTE_W ||| PTE_U) := by
      rw [graft_pte (dir_user hlt), hdir]
    have h2 : (s.graft d K).pte t (b.va/PGSIZE%NPTENTRIES) = mkPte b.page (PTE_W ||| PTE_U) := by
      rw [graft_pte_ne (hu.table _ t htar).1, hpte]
    simp only [State.translate, hw, hpdx, hptx, h1, hpa, h2, user_allows, if_true]
    exact congrArg some (pteAddr_mkPte (managed_lt (hm _ hfree)) (by decide))
  · simp only [PGSIZE] at *
    omega

theorem At.safe {w : Loading F} {f : F} (h : At im d K r f s₀ s w)
    (hm : ∀ g ∈ s₀.freelist, im.managed g) : Safe s₀ d w :=
  safe_of_landed h.loaded.space h.loaded.user hm h.vm h.landed

end Pages

section Load

variable {im : Image} {s₀ s : State} {d : Page} {K : PageData} {r : Room}
  {readi : Uint → Uint → Prog F Fault (ℤ × List Byte)} {content : List Byte} {f : F}
  {w : Loading F} {off n : Uint} {v : ℕ} {addr : Uint} {i : ℕ}
  (hman : ∀ g ∈ s₀.freelist, im.managed g)

theorem readFile_length (content : List Byte) (off n : Uint) :
    (readFile content off n).2.length ≤ n.toNat := by
  unfold readFile
  split
  · exact Nat.zero_le _
  · simp only [List.length_take]
    exact Nat.min_le_left _ _

theorem readFile_short (h : (readFile content off n).2 = []) (hn : 0 < n.toNat) :
    (readFile content off n).1 ≠ n.toNat := by
  unfold readFile at *
  split at h
  · rename_i hc
    rw [if_pos hc]
    dsimp only
    omega
  rename_i hc
  rw [if_neg hc]
  dsimp only at h ⊢
  rw [h]
  simp only [List.length_nil, ne_eq, Nat.cast_inj]
  omega

theorem readi_returns (hr : Reads readi content f) (hf : w.files = f) (off n : Uint) :
    Returns (onFiles (readi off n)) (fun k w' => k = readFile content off n ∧ w' = w) w := by
  subst hf
  apply returns_mono (onFiles_returns (hr off n))
  rintro k w' ⟨⟨hk,hw⟩,he⟩
  refine ⟨hk,?_⟩
  rw [he, hw]

theorem walk_onVm (va : ℕ) : Returns (onVm (walkpgdir d va false)) (fun x w' => w' = w ∧
      x = (w.vm.target d (pdx va)).map (fun t => (t,ptx va))) w := by
  apply returns_mono (onVm_returns (walk_returns d va))
  rintro x w' ⟨⟨hs,hx⟩,he⟩
  exact ⟨by rw [he, hs],hx⟩

theorem readPte_onVm (x : PteRef) :
    Returns (onVm (readPte x)) (fun p w' => w' = w ∧ p = w.vm.pte x.1 x.2) w := by
  have h : Returns (readPte x) (fun p s' => p = w.vm.pte x.1 x.2 ∧ s' = w.vm) w.vm :=
    returns_fetch ⟨rfl,rfl⟩
  apply returns_mono (onVm_returns h)
  rintro p w' ⟨⟨hp,hs⟩,he⟩
  exact ⟨by rw [he, hs],hp⟩

include hman in
theorem deliver_lands (h : At im d K r f s₀ s w) {g : Page} {l : List Byte} (hv : v < r.mapped)
    (hg : s.frame d v = some g) (hl : l.length ≤ PGSIZE) :
    Returns (deliver im (v*PGSIZE) g l) (fun _ w' => ∃ s', At im d K r f s₀ s' w') w := by
  obtain ⟨x,hx,hxl,hxf⟩ := h.loaded.page hv
  obtain rfl : g = x := Option.some.inj (hg.symm.trans hxf)
  have hk : kernelWrites im g = true := by
    obtain ⟨h1,h2⟩ := hman g hx
    have h3 := im.order
    simp only [kernelWrites, Bool.or_eq_true, Bool.and_eq_true, decide_eq_true_eq]
    exact Or.inr ⟨Nat.le_trans (Nat.le_of_lt h3) h1,h2⟩
  by_cases he : l = []
  · exact returns_atom (a := ()) (r := w) (by rw [if_pos he]) ⟨s,h⟩
  have hlt := Nat.lt_of_lt_of_le hv h.loaded.mapped_lt
  obtain ⟨-,hgd,-,hgt⟩ := h.loaded.space.frame v hlt g hg
  refine returns_atom (a := ()) (by rw [if_neg he, if_pos hk]) ?_
  refine ⟨s.fill g (putBytes (w.vm.mem g) 0 l),?_,h.loaded.fill hv hg _,h.files,fun b hb => ?_⟩
  · dsimp only
    rw [h.vm, graft_fill hgd]
  have hlook := lookup_fill hgd hgt (putBytes (w.vm.mem g) 0 l)
  rcases List.mem_cons.mp hb with rfl | hb
  · refine ⟨Nat.mul_mod_left v PGSIZE,?_,hx,?_,hl⟩
    · simp only [PGSIZE, UPAGES, KERNBASE] at *
      omega
    · dsimp only
      rw [Nat.mul_div_cancel v (by decide), hlook, hxl, Option.filter_some, present_mkPte, if_pos rfl]
  · obtain ⟨h1,h2,h3,h4,h5⟩ := h.landed b hb
    exact ⟨h1,h2,h3,by rw [hlook]; exact h4,h5⟩

theorem page_of (ha : addr.toNat%PGSIZE = 0) (hi : i%PGSIZE = 0) :
    ∃ v < 2^20, (addr+BitVec.ofNat 32 i).toNat = v*PGSIZE ∧
      (addr+BitVec.ofNat 32 i).toNat/PGSIZE = v := by
  refine ⟨(addr+BitVec.ofNat 32 i).toNat/PGSIZE,?_,?_,rfl⟩
  · have := (addr+BitVec.ofNat 32 i).isLt
    simp only [PGSIZE]
    omega
  · rw [BitVec.toNat_add, BitVec.toNat_ofNat]
    simp only [PGSIZE] at *
    omega

theorem bytes_of (sz : Uint) (i : ℕ) :
    (BitVec.ofNat 32 (min (sz.toNat-i) PGSIZE)).toNat = min (sz.toNat-i) PGSIZE := by
  rw [BitVec.toNat_ofNat]
  simp only [PGSIZE]
  omega

include hman in
theorem round_wild (hr : Reads readi content f) (h : At im d K r f s₀ s w) (hlt : v < 2^20)
    (hm : ¬ v < r.mapped)
    (hc : ¬ ((readFile content off n).2 = [] ∧ r.hasTable (tablesIn K) v = true))
    {g : ℤ × List Byte → Prog (Loading F) Fault α} (hg : ∀ k, (g k).Does Records) :
    Ends (do
        let x ← onVm (walkpgdir d (v*PGSIZE) false)
        match x with
        | none => fail (.panic "loaduvm: address should exist")
        | some x => do
          let pte ← onVm (readPte x)
          let k ← onFiles (readi off n)
          deliver im (v*PGSIZE) (pteAddr pte) k.2
          g k) (Wild s₀) w := by
  apply ends_after
  apply returns_mono (walk_onVm _)
  rintro x w' ⟨rfl,rfl⟩
  have htab := hasTable_iff (K := K) h.loaded hlt
  rw [pdx_of hlt, ptx_page, h.vm]
  cases ht : (s.graft d K).target d (v/NPTENTRIES) with
  | none =>
    intro a w' e
    cases e
  | some t =>
    rw [ht, Option.isSome_some] at htab
    have hne : (readFile content off n).2 ≠ [] := fun e => hc ⟨e,htab.symm⟩
    apply ends_after
    apply returns_mono (readPte_onVm _)
    rintro p w' ⟨rfl,rfl⟩
    apply ends_after
    apply returns_mono (readi_returns hr h.files _ _)
    rintro k w' ⟨rfl,rfl⟩
    refine ends_bind (ends_mono (ends_atom ?_) (fun o ho => wild_then ho (fun _ => hg _)))
    intro a w' e
    simp only [if_neg hne] at e
    split at e
    · cases e
      refine ⟨_,List.mem_cons_self,List.length_pos_iff.mpr hne,?_⟩
      by_cases hk : KERNBASE/PGSIZE ≤ v
      · left
        simp only [KERNBASE, PGSIZE] at *
        omega
      right
      have hvu : v < UPAGES := Nat.lt_of_not_le hk
      rw [graft_target (dir_user hvu)] at ht
      have hz := h.loaded.clear v hvu (Nat.not_lt.mp hm) _ (lookup_some ht)
      rw [h.vm, graft_pte_ne (h.loaded.space.table _ t ht).1, hz]
      intro hz
      have h1 := (hman _ hz).1
      have h2 := im.order
      exact absurd (Nat.lt_of_lt_of_le h2 h1) (Nat.not_lt_zero _)
    · cases e

def Judged (im : Image) (d : Page) (K : PageData) (r : Room) (f : F) (s₀ : State) :
    Verdict → Outcome (Loading F) Fault Bool → Prop
  | .wild, o => Wild s₀ o
  | .fails, o => ∃ s w, o = some (.ok (false,w)) ∧ At im d K r f s₀ s w
  | .fits, o => ∃ s w, o = some (.ok (true,w)) ∧ At im d K r f s₀ s w

include hman in
theorem loadPages_ends (hr : Reads readi content f) (h : At im d K r f s₀ s w)
    (ha : addr.toNat%PGSIZE = 0) (offset sz : Uint) (fuel : ℕ) (hi : i%PGSIZE = 0) :
    Ends (loadPages im readi d addr offset sz fuel i) (Judged im d K r f s₀
      (r.fill content (tablesIn K) addr offset sz fuel i)) w := by
  induction fuel generalizing w i s with
  | zero => exact ends_pure ⟨s,w,rfl,h⟩
  | succ fuel ih =>
    obtain ⟨v,hlt,hva,hdiv⟩ := page_of ha hi
    unfold loadPages Room.fill
    by_cases his : i < sz.toNat
    · simp only [if_pos his, hva, Nat.mul_div_cancel v (show 0 < PGSIZE by decide)]
      have hn : 0 < min (sz.toNat-i) PGSIZE := by
        simp only [PGSIZE]
        omega
      by_cases hm : v < r.mapped
      · rw [if_pos hm]
        apply ends_after
        apply returns_mono (walk_onVm _)
        rintro x w' ⟨rfl,rfl⟩
        obtain ⟨g,hg,hgl,hgf⟩ := h.loaded.page hm
        obtain ⟨t,ht,hpte⟩ := Option.map_eq_some_iff.mp hgl
        have hvu := Nat.lt_of_lt_of_le hm h.loaded.mapped_lt
        rw [pdx_of hlt, ptx_page, h.vm, graft_target (dir_user hvu), ht]
        apply ends_after
        apply returns_mono (readPte_onVm _)
        rintro p w' ⟨rfl,rfl⟩
        apply ends_after
        apply returns_mono (readi_returns hr h.files _ _)
        rintro k w' ⟨rfl,rfl⟩
        apply ends_after
        have hpa : pteAddr (w'.vm.pte t (v%NPTENTRIES)) = g := by
          rw [h.vm, graft_pte_ne (h.loaded.space.table _ t ht).1, hpte]
          exact pteAddr_mkPte (managed_lt (hman g hg)) (by decide)
        rw [hpa]
        have hle := readFile_length content (offset+BitVec.ofNat 32 i)
          (BitVec.ofNat 32 (min (sz.toNat-i) PGSIZE))
        rw [bytes_of] at hle
        apply returns_mono (deliver_lands hman h hm hgf (hle.trans (Nat.min_le_right _ _)))
        rintro _ w' ⟨s',hw'⟩
        split
        · exact ends_pure ⟨s',w',rfl,hw'⟩
        · exact ih hw' (by rw [Nat.add_mod, hi]; simp)
      rw [if_neg hm]
      by_cases hc : (readFile content (offset+BitVec.ofNat 32 i)
          (BitVec.ofNat 32 (min (sz.toNat-i) PGSIZE))).2 = [] ∧
          r.hasTable (tablesIn K) v = true
      · -- the file ends before the page: nothing is stored
        rw [if_pos hc]
        apply ends_after
        apply returns_mono (walk_onVm _)
        rintro x w' ⟨rfl,rfl⟩
        obtain ⟨t,ht⟩ := Option.isSome_iff_exists.mp ((hasTable_iff (K := K) h.loaded hlt).trans hc.2)
        rw [pdx_of hlt, ptx_page, h.vm, ht]
        apply ends_after
        apply returns_mono (readPte_onVm _)
        rintro p w' ⟨rfl,rfl⟩
        apply ends_after
        apply returns_mono (readi_returns hr h.files _ _)
        rintro k w' ⟨rfl,rfl⟩
        apply ends_after
        refine returns_atom (a := ()) (r := w') (by rw [if_pos hc.1]) ?_
        have hshort := readFile_short hc.1 (by rw [bytes_of]; exact hn)
        rw [bytes_of] at hshort
        rw [if_pos hshort]
        exact ends_pure ⟨s,w',rfl,h⟩
      · rw [if_neg hc]
        refine round_wild hman hr h hlt hm hc (fun k => ?_)
        split
        · exact does_pure
        · exact loadPages_records _ _ _ _ _
    · simp only [if_neg his]
      exact ends_pure ⟨s,w,rfl,h⟩

end Load

end Yeet.LoadSafe
