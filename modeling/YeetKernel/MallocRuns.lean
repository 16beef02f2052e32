import YeetKernel.HeapInvariant

/-!
# Runs of the allocator

The search of `malloc` goes round the ring once before it asks for memory, and
at most once afterwards: what it gets is then in the ring.
-/

namespace Yeet.Umalloc
open Spans

variable {σ : Type} {H : Host σ} {I : σ → Prop} {l live : List Span} {h : Heap σ} {nunits : ℕ}

theorem gapped_shrink {A B : List Span} {y y' : Span} (hg : Gapped (A++y::B))
    (hs : y'.start = y.start) (hle : y'.stop ≤ y.stop) : Gapped (A++y'::B) := by
  obtain ⟨hA,hB,hAB⟩ := List.pairwise_append.mp hg
  obtain ⟨hy,hB'⟩ := List.pairwise_cons.mp hB
  refine List.pairwise_append.mpr ⟨hA,List.pairwise_cons.mpr ⟨?_,hB'⟩,?_⟩
  · intro c hc
    exact Nat.lt_of_le_of_lt hle (hy c hc)
  intro a ha c hc
  rcases List.mem_cons.mp hc with rfl | hc
  · rw [hs]
    exact hAB a ha y List.mem_cons_self
  · exact hAB a ha c (List.mem_cons_of_mem y hc)

theorem exists_before {r s y : Span} {X B : List Span} (he : r::l = X++s::y::B) :
    ∃ P, l = P++y::B ∧ ∀ Z, X++s::Z = r::(P++Z) := by
  cases X with
  | nil =>
    obtain ⟨rfl,rfl⟩ := List.cons.inj he
    exact ⟨[],rfl,fun Z => rfl⟩
  | cons x X =>
    obtain ⟨rfl,rfl⟩ := List.cons.inj he
    exact ⟨X++[s],by simp,fun Z => by simp⟩

section Take

variable {X B : List Span} {s y : Span} {g : Heap σ}

theorem Inv.places (inv : Inv H I l live h) (he : root H::l = X++s::y::B) :
    (∀ a ∈ X, a.start < s.start) ∧ s.start < y.start ∧ (∀ c ∈ B, y.stop < c.start) ∧
      ∀ c ∈ live, c.start ≠ s.start ∧ Apart y c ∧ 0 < c.len := by
  obtain ⟨P,hl,-⟩ := exists_before he
  have hgap := inv.gapped
  have hs : s ∈ root H::l := by
    rw [he]
    simp
  rw [he] at hgap
  obtain ⟨-,hgs,hgX⟩ := List.pairwise_append.mp hgap
  obtain ⟨hsy,hgy⟩ := List.pairwise_cons.mp hgs
  obtain ⟨-,-,hapart⟩ := List.pairwise_append.mp inv.apart
  refine ⟨fun a ha => ?_,?_,(List.pairwise_cons.mp hgy).1,fun c hc => ⟨?_,?_,?_⟩⟩
  · exact Nat.lt_of_le_of_lt (Nat.le_add_right _ _) (hgX a ha s List.mem_cons_self)
  · exact Nat.lt_of_le_of_lt (Nat.le_add_right _ _) (hsy y List.mem_cons_self)
  · have hcb := inv.blocks c (List.mem_append_right l hc)
    rcases List.mem_cons.mp hs with rfl | hs
    · exact Nat.ne_of_gt hcb.2.1
    have h1 := hapart s hs c hc
    have h2 := (inv.blocks s (List.mem_append_left _ hs)).1
    simp only [Apart, Span.stop] at h1
    omega
  · exact hapart y (by rw [hl]; simp) c hc
  · exact (inv.blocks c (List.mem_append_right l hc)).1

theorem Inv.take_whole (inv : Inv H I l live h) (he : root H::l = X++s::y::B)
    (henv : g.env = h.env) (hf : g.freep = s.start) (hptr : g.next s.start = h.next y.start)
    (hsize : ∀ x, g.size x = h.size x) (hnext : ∀ x ≠ s.start, g.next x = h.next x) :
    ∃ l', Inv H I l' (y::live) g := by
  obtain ⟨hX,hsy,hB,hlive⟩ := inv.places he
  obtain ⟨P,rfl,hP⟩ := exists_before he
  have hring := inv.ring
  have hgap := inv.gapped
  rw [he] at hring hgap
  obtain ⟨hlX,-,hss,hny,hsy',hlB⟩ := links_append.mp hring
  refine ⟨P++B,henv ▸ inv.host,?_,?_,?_,?_,?_,fun x => ?_⟩
  · rw [← hP]
    refine links_append.mpr ⟨hlX.congr (fun a ha => ?_),by rw [hptr, hny],by rw [hsize, hss],
      hlB.congr (fun c hc => ?_)⟩
    · exact ⟨hnext _ (Nat.ne_of_lt (hX a ha)),hsize _⟩
    · have := hB c hc
      simp only [Span.stop] at this
      exact ⟨hnext _ (by omega),hsize _⟩
  · rw [hf, ← hP]
    exact ⟨s,by simp,rfl⟩
  · rw [← hP]
    exact hgap.sublist (((List.sublist_cons_self y B).cons_cons s).append_left X)
  · refine List.forall_mem_cons.mpr ⟨by rw [hsize, hsy'],fun c hc => ?_⟩
    rw [hsize]
    exact inv.sizes c hc
  · intro c hc
    apply inv.blocks c
    simp only [List.mem_append, List.mem_cons] at hc ⊢
    tauto
  have hx := inv.cover x
  simp only [cover_append, cover_cons] at hx ⊢
  rw [henv]
  omega

theorem Inv.take_end (inv : Inv H I l live h) (he : root H::l = X++s::y::B) {b : Span}
    (henv : g.env = h.env) (hf : g.freep = s.start) (hb : 0 < b.len) (hyb : y.start < b.start)
    (hstop : b.stop = y.stop) (hny : g.next y.start = h.next y.start)
    (hsy : 8*g.size y.start = y.len-b.len) (hsb : 8*g.size b.start = b.len)
    (hframe : ∀ x, x ≠ y.start → x ≠ b.start → g.next x = h.next x ∧ g.size x = h.size x) :
    ∃ l', Inv H I l' (b::live) g := by
  obtain ⟨hX,hlt,hB,hlive⟩ := inv.places he
  obtain ⟨P,rfl,hP⟩ := exists_before he
  have hring := inv.ring
  have hgap := inv.gapped
  have hy := inv.blocks y (by simp)
  rw [he] at hring hgap
  obtain ⟨hlX,hns,hss,hny',-,hlB⟩ := links_append.mp hring
  simp only [Span.stop] at hstop hB hy
  have hs := hframe s.start (by omega) (by omega)
  refine ⟨P++⟨y.start,y.len-b.len⟩::B,henv ▸ inv.host,?_,?_,?_,?_,?_,fun x => ?_⟩
  · rw [← hP]
    refine links_append.mpr ⟨hlX.congr (fun a ha => ?_),hs.1.trans hns,by rw [hs.2, hss],
      hny.trans hny',hsy,hlB.congr (fun c hc => ?_)⟩
    · have := hX a ha
      exact hframe _ (by omega) (by omega)
    · have := hB c hc
      exact hframe _ (by omega) (by omega)
  · rw [hf, ← hP]
    exact ⟨s,by simp,rfl⟩
  · rw [← hP]
    have hsplit : ∀ z, X++s::z::B = (X++[s])++z::B := fun z => by simp
    rw [hsplit] at hgap ⊢
    exact gapped_shrink hgap rfl (by simp only [Span.stop]; omega)
  · refine List.forall_mem_cons.mpr ⟨hsb,fun c hc => ?_⟩
    obtain ⟨-,h2,h3⟩ := hlive c hc
    simp only [Apart, Span.stop] at h2
    rw [(hframe c.start (by omega) (by omega)).2]
    exact inv.sizes c hc
  · intro c hc
    simp only [List.mem_append, List.mem_cons] at hc
    simp only [Span.stop]
    rcases hc with (hc | rfl | hc) | rfl | hc
    · exact inv.blocks c (by simp [hc])
    · simp only
      omega
    · exact inv.blocks c (by simp [hc])
    · omega
    · exact inv.blocks c (by simp [hc])
  · have hx := inv.cover x
    have hj := has_join (a := ⟨y.start,y.len-b.len⟩) (b := b) (by simp only [Span.stop]; omega) x
    have hjoin : (⟨y.start,y.len-b.len+b.len⟩ : Span) = y := by
      rw [Nat.sub_add_cancel (by omega)]
    simp only [hjoin] at hj
    simp only [cover_append, cover_cons] at hx ⊢
    rw [henv]
    omega

theorem Inv.take (inv : Inv H I l live h) (hs : s ∈ root H::l) (hpos : 0 < nunits)
    (hfit : nunits ≤ h.size (h.next s.start)) :
    ∃ b l', (take h nunits s.start (h.next s.start)).1 = b.start+8 ∧ b.len = 8*nunits ∧
      Inv H I l' (b::live) (take h nunits s.start (h.next s.start)).2 := by
  obtain ⟨X,Y,he⟩ := List.append_of_mem hs
  have hring := inv.ring
  rw [he] at hring
  obtain ⟨-,hns,-,hY⟩ := links_append.mp hring
  cases Y with
  | nil =>
    -- behind the last block is base, of size 0
    have h0 := inv.ring.2.1
    simp only [root] at h0
    rw [hns, first] at hfit
    omega
  | cons y B =>
    have hsy := (inv.places he).2.1
    have hy := inv.blocks y (by obtain ⟨P,rfl,-⟩ := exists_before he; simp)
    have hlen := hY.2.1
    rw [first] at hns
    rw [hns] at hfit ⊢
    rw [Umalloc.take]
    split_ifs with e
    · obtain ⟨l',hl'⟩ := inv.take_whole he (g := {h.put s.start (h.next y.start) (h.size s.start)
        with freep := s.start}) rfl rfl (by simp [Heap.next, Heap.put])
        (fun x => by by_cases hx : x = s.start <;> simp [Heap.size, Heap.put, hx])
        (fun x hx => by simp [Heap.next, Heap.put, hx])
      exact ⟨y,l',rfl,by omega,hl'⟩
    obtain ⟨q,hq⟩ : ∃ q, (h.put y.start (h.next y.start) (h.size y.start-nunits)).behind y.start =
        q ∧ q = y.start+(y.len-8*nunits) := by
      refine ⟨_,?_,rfl⟩
      simp only [Heap.behind, size_put, if_pos, Span.stop] at *
      omega
    have hne : y.start ≠ q := by omega
    dsimp only
    rw [hq.1]
    obtain ⟨l',hl'⟩ := inv.take_end he (b := ⟨q,8*nunits⟩)
      (g := {(h.put y.start (h.next y.start) (h.size y.start-nunits)).put q
        ((h.put y.start (h.next y.start) (h.size y.start-nunits)).next q) nunits with
        freep := s.start}) rfl rfl (by simp only; omega) (by simp only; omega)
      (by simp only [Span.stop]; omega) (by simp [Heap.next, Heap.put, hne])
      (by simp [Heap.size, Heap.put, hne] at hlen ⊢; omega) (by simp [Heap.size, Heap.put])
      (fun x h1 h2 => by simp only at h2; simp [Heap.next, Heap.size, Heap.put, h1, h2])
    exact ⟨_,l',rfl,rfl,hl'⟩

end Take

theorem tour {C : List Span} {f prev : ℕ} (hC : Links h C f) (hne : ∀ a ∈ C, a.start ≠ h.freep)
    (hf : f = h.freep) (hprev : h.next prev = first C f) :
    (∃ q, (q = prev ∨ ∃ a ∈ C, q = a.start) ∧ nunits ≤ h.size (h.next q) ∧
      ∀ n > C.length, mallocLoop H nunits n h prev (first C f) = .ok (take h nunits q (h.next q))) ∨
    (h.size f < nunits ∧ (∀ a ∈ C, h.size a.start < nunits) ∧
      ∀ n, mallocLoop H nunits (n+C.length+1) h prev (first C f) = do
        let (q,h) ← morecore H n h nunits
        if q = 0 then pure (0,h) else mallocLoop H nunits n h q (h.next q)) := by
  induction C generalizing prev with
  | nil =>
    rw [first] at hprev ⊢
    by_cases hfit : nunits ≤ h.size f
    · refine Or.inl ⟨prev,Or.inl rfl,by rwa [hprev],fun n hn => ?_⟩
      obtain ⟨n,rfl⟩ : ∃ k, n = k+1 := ⟨n-1,by simp at hn; omega⟩
      rw [mallocLoop, if_pos hfit, hprev]
    · refine Or.inr ⟨by omega,by simp,fun n => ?_⟩
      rw [mallocLoop, if_neg hfit, if_pos hf]
      rfl
  | cons a C ih =>
    rw [first] at hprev ⊢
    obtain ⟨hna,hneC⟩ := List.forall_mem_cons.mp hne
    by_cases hfit : nunits ≤ h.size a.start
    · refine Or.inl ⟨prev,Or.inl rfl,by rwa [hprev],fun n hn => ?_⟩
      obtain ⟨n,rfl⟩ : ∃ k, n = k+1 := ⟨n-1,by simp at hn; omega⟩
      rw [mallocLoop, if_pos hfit, hprev]
    have hstep : ∀ n, mallocLoop H nunits (n+1) h prev a.start =
        mallocLoop H nunits n h a.start (first C f) := by
      intro n
      rw [mallocLoop, if_neg hfit, if_neg hna, hC.1]
    rcases ih hC.2.2 hneC hC.1 with ⟨q,hq,hsize,hrun⟩ | ⟨h1,h2,hrun⟩
    · refine Or.inl ⟨q,Or.inr ?_,hsize,fun n hn => ?_⟩
      · rcases hq with rfl | ⟨c,hc,rfl⟩
        · exact ⟨a,List.mem_cons_self,rfl⟩
        · exact ⟨c,List.mem_cons_of_mem a hc,rfl⟩
      · rw [List.length_cons] at hn
        obtain ⟨n,rfl⟩ : ∃ k, n = k+1 := ⟨n-1,by omega⟩
        rw [hstep, hrun n (by omega)]
    · refine Or.inr ⟨h1,List.forall_mem_cons.mpr ⟨by omega,h2⟩,fun n => ?_⟩
      rw [List.length_cons, hstep]
      exact hrun n

theorem Inv.round (inv : Inv H I l live h) :
    ∃ C, Links h C h.freep ∧ h.next h.freep = first C h.freep ∧ (∀ a ∈ C, a.start ≠ h.freep) ∧
      (∀ a ∈ C, a ∈ root H::l) ∧ (∃ s ∈ root H::l, h.freep = s.start) ∧
      ∀ a ∈ root H::l, a.start = h.freep ∨ a ∈ C := by
  obtain ⟨s,hs,hf⟩ := inv.freep
  obtain ⟨A,B,he⟩ := List.append_of_mem hs
  have hring := inv.ring
  have hgap := inv.gapped
  have hbase : first (A++s::B) 0 = H.base := by
    rw [← he]
    rfl
  rw [he] at hring hgap
  obtain ⟨hA,hn,-,hB⟩ := links_append.mp hring
  obtain ⟨-,hsB,hAs⟩ := List.pairwise_append.mp hgap
  have hfirst : first A s.start = H.base := by
    rw [← hbase, first_append]
    cases A <;> rfl
  rw [hf]
  refine ⟨B++A,links_append.mpr ⟨by rwa [hfirst],hA⟩,?_,?_,?_,⟨s,hs,rfl⟩,?_⟩
  · rw [hn, first_append, hfirst]
  · intro a ha
    rcases List.mem_append.mp ha with ha | ha
    · have := (List.pairwise_cons.mp hsB).1 a ha
      simp only [Span.stop] at this
      omega
    · have := hAs a ha s List.mem_cons_self
      simp only [Span.stop] at this
      omega
  · intro a ha
    rw [he]
    simp only [List.mem_append, List.mem_cons] at ha ⊢
    tauto
  intro a ha
  rw [he] at ha
  simp only [List.mem_append, List.mem_cons] at ha ⊢
  rcases ha with ha | rfl | ha
  · exact Or.inr (Or.inr ha)
  · exact Or.inl rfl
  · exact Or.inr (Or.inl ha)

theorem Inv.search (inv : Inv H I l live h) (hpos : 0 < nunits) :
    (∃ b l' h', Returns (fun n => mallocLoop H nunits n h h.freep (h.next h.freep)) (b.start+8,h') ∧
      b.len = 8*nunits ∧ Inv H I l' (b::live) h') ∨
    ((∀ a ∈ l, a.len < 8*nunits) ∧ ∃ k, ∀ n,
      mallocLoop H nunits (n+k) h h.freep (h.next h.freep) = do
        let (q,h) ← morecore H n h nunits
        if q = 0 then pure (0,h) else mallocLoop H nunits n h q (h.next q)) := by
  obtain ⟨C,hC,hnext,hne,hin,⟨s,hs,hfs⟩,hall⟩ := inv.round
  rw [hnext]
  rcases tour (H := H) hC hne rfl hnext with ⟨q,hq,hfit,hrun⟩ | ⟨h1,h2,hrun⟩
  · obtain ⟨u,hu,rfl⟩ : ∃ u ∈ root H::l, q = u.start := by
      rcases hq with rfl | ⟨a,ha,rfl⟩
      · exact ⟨s,hs,hfs⟩
      · exact ⟨a,hin a ha,rfl⟩
    obtain ⟨b,l',hr,hlen,hinv⟩ := inv.take hu hpos hfit
    refine Or.inl ⟨b,l',_,⟨C.length+1,fun n hn => ?_⟩,hlen,hinv⟩
    rw [← hr]
    exact hrun n hn
  · refine Or.inr ⟨fun a ha => ?_,C.length+1,hrun⟩
    have hsize := inv.ring.sizes (List.mem_cons_of_mem _ ha)
    rcases hall a (List.mem_cons_of_mem _ ha) with e | e
    · rw [e] at hsize
      omega
    · have := h2 a e
      omega

theorem Inv.grow (inv : Inv H I l live h) {a n : ℕ} {s : σ} (hs : I s) (hpos : 0 < n)
    (hbase : H.base < a) (hend : a+8*n < 2^32) (hnew : ∀ x, H.mem h.env x = true → x < a)
    (hmem : ∀ x, H.mem s x = (H.mem h.env x || Span.has ⟨a,8*n⟩ x)) :
    Inv H I l (⟨a,8*n⟩::live) ({h with env := s}.put a (h.next a) n) := by
  have hlt : ∀ b ∈ l++live, b.start < a := by
    intro b hb
    have hin : b.has b.start = true := has_iff.mpr ⟨Nat.le_refl _,by have := inv.blocks b hb; omega⟩
    have hcov : 0 < Spans.cover (l++live) b.start := List.countP_pos_iff.mpr ⟨b,hb,hin⟩
    rw [inv.cover] at hcov
    apply hnew
    cases hm : H.mem h.env b.start with
    | true => rfl
    | false =>
      rw [hm] at hcov
      exact absurd hcov (by decide)
  have hframe : ∀ x < a, ({h with env := s}.put a (h.next a) n).next x = h.next x ∧
      ({h with env := s}.put a (h.next a) n).size x = h.size x := by
    intro x hx
    have hne : x ≠ a := Nat.ne_of_lt hx
    simp only [next_put, size_put, if_neg hne]
    exact ⟨rfl,rfl⟩
  refine ⟨hs,inv.ring.congr ?_,inv.freep,inv.gapped,?_,?_,fun x => ?_⟩
  · refine List.forall_mem_cons.mpr ⟨hframe _ hbase,fun b hb => hframe _ (hlt b (by simp [hb]))⟩
  · refine List.forall_mem_cons.mpr ⟨by simp,fun b hb => ?_⟩
    rw [(hframe b.start (hlt b (by simp [hb]))).2]
    exact inv.sizes b hb
  · intro b hb
    simp only [List.mem_append, List.mem_cons] at hb
    rcases hb with hb | rfl | hb
    · exact inv.blocks b (by simp [hb])
    · simp only [Span.stop]
      omega
    · exact inv.blocks b (by simp [hb])
  have hx := inv.cover x
  simp only [cover_append, cover_cons] at hx ⊢
  show _ = (H.mem s x).toNat
  rw [hmem]
  cases hm : H.mem h.env x with
  | false =>
    rw [hm] at hx
    simp only [Bool.toNat_false] at hx
    rw [Bool.false_or]
    omega
  | true =>
    have hno : Span.has ⟨a,8*n⟩ x = false := by
      rw [Bool.eq_false_iff]
      intro e
      have h1 := hnew x hm
      have h2 := (has_iff.mp e).1
      simp only at h2
      omega
    rw [hm] at hx
    rw [hno, Bool.true_or, Bool.toNat_false]
    omega

theorem Inv.mallocLoop (fresh : Fresh H I) (inv : Inv H I l live h) (hpos : 0 < nunits)
    (hmax : 8*nunits < 2^31) :
    ∃ r h', Returns (fun n => mallocLoop H nunits n h h.freep (h.next h.freep)) (r,h') ∧
      ((r = 0 ∧ ∃ l', Inv H I l' live h') ∨
        ∃ b l', r = b.start+8 ∧ b.len = 8*nunits ∧ Inv H I l' (b::live) h') := by
  rcases inv.search hpos with ⟨b,l',h',hret,hlen,hinv⟩ | ⟨-,k,hrun⟩
  · exact ⟨_,h',hret,Or.inr ⟨b,l',rfl,hlen,hinv⟩⟩
  obtain ⟨nu,hnu⟩ : ∃ nu, nu = if nunits < 4096 then 4096 else nunits := ⟨_,rfl⟩
  have hnu' : nunits ≤ nu ∧ 4096 ≤ nu ∧ 8*nu < 2^31 := by
    rw [hnu]
    split_ifs <;> omega
  have harg : nu*8%2^32 = 8*nu := by omega
  obtain ⟨hnone,hsome⟩ := fresh h.env (8*nu) inv.host (by omega) (by omega)
  cases hsb : H.sbrk (8*nu) h.env with
  | mk res s =>
    cases res with
    | none =>
      obtain ⟨hI,hm⟩ := hnone s hsb
      refine ⟨0,{h with env := s},⟨k,fun n hn => ?_⟩,Or.inl ⟨rfl,l,?_⟩⟩
      · obtain ⟨m,rfl⟩ := Nat.exists_eq_add_of_le' hn
        simp only [hrun, morecore, ← hnu, harg, hsb]
        rfl
      · exact ⟨hI,inv.ring.congr (fun _ _ => ⟨rfl,rfl⟩),inv.freep,inv.gapped,inv.sizes,inv.blocks,
          fun x => by rw [inv.cover, hm]⟩
    | some a =>
      obtain ⟨hI,hmap,hbase,hend,hnew,hmem⟩ := hsome a s hsb
      obtain ⟨h₂,⟨N,hN⟩,l₂,inv₂,c,hc,hlarge⟩ :=
        (inv.grow hI (by omega) hbase hend hnew hmem).free
      rcases inv₂.search hpos with ⟨b,l',h',⟨M,hM⟩,hlen,hinv⟩ | ⟨hsmall,-⟩
      · refine ⟨_,h',⟨max N M+k,fun n hn => ?_⟩,Or.inr ⟨b,l',rfl,hlen,hinv⟩⟩
        obtain ⟨m,rfl⟩ : ∃ m, n = m+k := ⟨n-k,by omega⟩
        have hfree := hN m (by omega)
        have hfound := hM m (by omega)
        have hne : h₂.freep ≠ 0 := by
          obtain ⟨s,hs,e⟩ := inv₂.freep
          have hb := H.base_pos
          rcases List.mem_cons.mp hs with rfl | hs
          · rw [e]
            exact Nat.ne_of_gt hb
          · have := inv₂.blocks s (List.mem_append_left _ hs)
            omega
        simp only at hfree hfound
        simp only [hrun, morecore, ← hnu, harg, hsb, hmap, if_pos]
        rw [hfree]
        show (if h₂.freep = 0 then _ else _) = _
        rw [if_neg hne]
        exact hfound
      · have := hsmall c hc
        simp only at hlarge
        omega

variable (H I) in
def Sound (live : List Span) (h : Heap σ) : Prop :=
  (h.freep = 0 ∧ live = [] ∧ I h.env ∧ ∀ x, H.mem h.env x = false) ∨ ∃ l, Inv H I l live h

def rounded (nbytes : ℕ) : ℕ := 8*((nbytes+7)/8+1)

theorem Sound.malloc (fresh : Fresh H I) (hs : Sound H I live h) {nbytes : ℕ}
    (hn : rounded nbytes < 2^31) :
    ∃ r h', Returns (fun n => malloc H n h nbytes) (r,h') ∧ ((r = 0 ∧ ∃ l', Inv H I l' live h') ∨
        ∃ b l', r = b.start+8 ∧ b.len = rounded nbytes ∧ Inv H I l' (b::live) h') := by
  have hu : 8*units nbytes = rounded nbytes := by
    simp only [rounded, units] at *
    omega
  have hinv : ∃ l, Inv H I l live (start H h) := by
    rcases hs with ⟨h0,rfl,hI,hm⟩ | ⟨l,inv⟩
    · rw [start, if_pos h0]
      refine ⟨[],hI,⟨?_,?_,trivial⟩,⟨root H,by simp,rfl⟩,List.pairwise_singleton _ _,by simp,by simp,
        fun x => ?_⟩
      · simp [Heap.next, Heap.put, root, first]
      · simp [Heap.size, Heap.put, root]
      · show 0 = (H.mem h.env x).toNat
        rw [hm]
        rfl
    have hne : h.freep ≠ 0 := by
      obtain ⟨s,hs,e⟩ := inv.freep
      have hb := H.base_pos
      rcases List.mem_cons.mp hs with rfl | hs
      · rw [e]
        exact Nat.ne_of_gt hb
      · have := inv.blocks s (List.mem_append_left _ hs)
        omega
    rw [start, if_neg hne]
    exact ⟨l,inv⟩
  obtain ⟨l,inv⟩ := hinv
  have := inv.mallocLoop fresh (show 0 < units nbytes by simp [units]) (by omega)
  rwa [hu] at this

structure World (σ : Type) where
  heap : Heap σ
  live : List Span

inductive Step (H : Host σ) : World σ → World σ → Prop where
  | malloc {w : World σ} {nbytes r : ℕ} {h' : Heap σ} (hn : rounded nbytes < 2^31)
      (ret : Returns (fun n => malloc H n w.heap nbytes) (r,h')) :
      Step H w ⟨h',if r = 0 then w.live else ⟨r-8,8*h'.size (r-8)⟩::w.live⟩
  | free {w : World σ} {b : Span} {h' : Heap σ} (hb : b ∈ w.live)
      (ret : Returns (fun n => free n w.heap (b.start+8)) h') : Step H w ⟨h',w.live.erase b⟩

theorem Sound.free {b : Span} (hs : Sound H I live h) (hb : b ∈ live) :
    ∃ h', Returns (fun n => Umalloc.free n h (b.start+8)) h' ∧
      ∃ l', Inv H I l' (live.erase b) h' := by
  rcases hs with ⟨-,rfl,-⟩ | ⟨l,inv⟩
  · simp at hb
  · obtain ⟨h',hret,l',hinv,-⟩ := (inv.perm (List.perm_cons_erase hb)).free
    exact ⟨h',hret,l',hinv⟩

theorem Sound.step (fresh : Fresh H I) {w w' : World σ} (hs : Sound H I w.live w.heap)
    (st : Step H w w') : Sound H I w'.live w'.heap := by
  cases st with
  | malloc hn ret =>
    obtain ⟨r,h',hret,hcases⟩ := hs.malloc fresh hn
    obtain ⟨rfl,rfl⟩ := Prod.mk.inj (ret.unique hret)
    rcases hcases with ⟨rfl,l',inv⟩ | ⟨b,l',rfl,-,inv⟩
    · exact Or.inr ⟨l',inv⟩
    · have hb := inv.sizes b List.mem_cons_self
      rw [if_neg (by omega), Nat.add_sub_cancel, hb]
      exact Or.inr ⟨l',inv⟩
  | free hb ret =>
    obtain ⟨h',hret,hinv⟩ := hs.free hb
    obtain rfl := ret.unique hret
    exact Or.inr hinv

/-- In every run the free list is a ring in address order with gaps, every byte from `sbrk` is in
one block, `malloc` ends with a large enough block apart from the others or without memory, and
`free` ends. -/
theorem heap_runs (fresh : Fresh H I) (h0 : h.freep = 0) (hI : I h.env)
    (hm : ∀ x, H.mem h.env x = false) {w : World σ}
    (run : Relation.ReflTransGen (Step H) ⟨h,[]⟩ w) :
    Sound H I w.live w.heap ∧
      (∀ nbytes, rounded nbytes < 2^31 → ∃ r h', Returns (fun n => malloc H n w.heap nbytes) (r,h') ∧
        (r ≠ 0 → ∃ b : Span, r = b.start+8 ∧ b.len = 8*h'.size b.start ∧ nbytes+8 ≤ b.len ∧
          ∀ c ∈ w.live, Apart b c)) ∧
      ∀ b ∈ w.live, ∃ h', Returns (fun n => free n w.heap (b.start+8)) h' := by
  have hs : Sound H I w.live w.heap := by
    induction run with
    | refl => exact Or.inl ⟨h0,rfl,hI,hm⟩
    | tail _ st ih => exact ih.step fresh st
  refine ⟨hs,fun nbytes hn => ?_,fun b hb => ?_⟩
  · obtain ⟨r,h',hret,hcases⟩ := hs.malloc fresh hn
    refine ⟨r,h',hret,fun hr => ?_⟩
    rcases hcases with ⟨e,-⟩ | ⟨b,l',e,hlen,inv⟩
    · exact absurd e hr
    refine ⟨b,e,(inv.sizes b List.mem_cons_self).symm,?_,?_⟩
    · rw [hlen, rounded]
      omega
    · exact (List.pairwise_cons.mp (List.pairwise_append.mp inv.apart).2.1).1
  · obtain ⟨h',hret,-⟩ := hs.free hb
    exact ⟨h',hret⟩

end Yeet.Umalloc
