import YeetKernel.Umalloc

/-!
# The invariant of the heap

The free blocks are a ring in address order with a gap between any two, and
every byte that came from `sbrk` is in one block, free or given out.
-/

namespace Yeet.Umalloc
open Spans

variable {σ : Type} (H : Host σ) (I : σ → Prop)

def root : Span := ⟨H.base,0⟩

structure Inv (l live : List Span) (h : Heap σ) : Prop where
  host : I h.env
  ring : Links h (root H::l) H.base
  freep : ∃ s ∈ root H::l, h.freep = s.start
  gapped : Gapped (root H::l)
  sizes : ∀ b ∈ live, 8*h.size b.start = b.len
  blocks : ∀ b ∈ l++live, 0 < b.len ∧ H.base < b.start ∧ b.stop < 2^32
  cover : ∀ x, cover (l++live) x = (H.mem h.env x).toNat

def Fresh : Prop :=
  ∀ s n, I s → 8 ≤ n → n < 2^31 → (∀ s', H.sbrk n s = (none,s') → I s' ∧ H.mem s' = H.mem s) ∧
    ∀ a s', H.sbrk n s = (some a,s') → I s' ∧ H.mapped s' a = true ∧ H.base < a ∧ a+n < 2^32 ∧
      (∀ x, H.mem s x = true → x < a) ∧ ∀ x, H.mem s' x = (H.mem s x || Span.has ⟨a,n⟩ x)

variable {H I} {l live : List Span} {h : Heap σ}

theorem Inv.apart (inv : Inv H I l live h) : (l++live).Pairwise Apart := by
  refine apart_of_cover (fun x => ?_) (fun b hb => (inv.blocks b hb).1)
  rw [inv.cover]
  exact Bool.toNat_le _

theorem Inv.perm (inv : Inv H I l live h) {live' : List Span} (hp : live.Perm live') :
    Inv H I l live' h := by
  refine ⟨inv.host,inv.ring,inv.freep,inv.gapped,fun b hb => inv.sizes b (hp.mem_iff.mpr hb),?_,?_⟩
  · intro b hb
    exact inv.blocks b ((hp.append_left l).mem_iff.mpr hb)
  · intro x
    rw [← inv.cover]
    exact ((hp.append_left l).countP_eq _).symm

section Free

variable {b p : Span} {A B : List Span}

theorem stops_iff (hr : Links h (A++p::B) H.base) (hg : Gapped (A++p::B))
    (hbase : ∀ a ∈ A++p::B, H.base ≤ a.start) (hp : p.start < b.start)
    (hB : ∀ c ∈ B, b.start < c.start) (hb : H.base < b.start) :
    stops h b.start p.start = true ∧ ∀ a ∈ A++p::B, a ≠ p → stops h b.start a.start = false := by
  obtain ⟨hA',hpB⟩ := links_append.mp hr
  have hg' := List.pairwise_append.mp hg
  have hgB := List.pairwise_cons.mp hg'.2.1
  refine ⟨?_,fun a ha hne => ?_⟩
  · have h1 := hpB.1
    have h2 := hbase p (by simp)
    cases B with
    | nil =>
      simp only [first] at h1
      simp [stops, h1, h2, hp]
    | cons c B =>
      have h3 := hB c List.mem_cons_self
      simp only [first] at h1
      simp [stops, h1, h3, hp]
  rcases List.mem_append.mp ha with ha | ha
  · obtain ⟨A₁,A₂,rfl⟩ := List.append_of_mem ha
    have h1 := (links_append.mp hA').2.1
    have hap := hg'.2.2 a ha p List.mem_cons_self
    have hnext : a.start < h.next a.start ∧ h.next a.start ≤ p.start := by
      cases A₂ with
      | nil =>
        simp only [first, Span.stop] at *
        omega
      | cons y A₂ =>
        have hay := (List.pairwise_cons.mp (List.pairwise_append.mp hg'.1).2.1).1 y List.mem_cons_self
        have hyp := hg'.2.2 y (by simp) p List.mem_cons_self
        simp only [first, Span.stop] at *
        omega
    simp only [stops, Bool.or_eq_false_iff, Bool.and_eq_false_iff, decide_eq_false_iff_not]
    omega
  · have ha' : a ∈ B := (List.mem_cons.mp ha).resolve_left hne
    have hab := hB a ha'
    obtain ⟨B₁,B₂,rfl⟩ := List.append_of_mem ha'
    have h1 := (links_append.mp hpB.2.2).2.1
    have hnext : a.start < h.next a.start ∨ h.next a.start = H.base := by
      cases B₂ with
      | nil => exact Or.inr h1
      | cons y B₂ =>
        have hay := (List.pairwise_cons.mp (List.pairwise_append.mp hgB.2).2.1).1 y List.mem_cons_self
        simp only [first, Span.stop] at *
        omega
    simp only [stops, Bool.or_eq_false_iff, Bool.and_eq_false_iff, decide_eq_false_iff_not]
    omega

theorem links_free (hr : Links h (A++p::B) H.base) (hA : ∀ a ∈ A, a.stop < p.start)
    (hpb : p.start < b.start ∧ p.stop ≤ b.start) (hb : 0 < b.len ∧ H.base < b.start ∧ b.stop < 2^32)
    (hB : ∀ c ∈ B, b.stop ≤ c.start ∧ 0 < c.len ∧ c.stop < 2^32) (hs : 8*h.size b.start = b.len) :
    Links (link (link h b.start (h.next p.start)) p.start b.start) (merge b (A++p::B)) H.base ∧
      ∃ s ∈ merge b (A++p::B), p.start = s.start := by
  obtain ⟨hlA,hnp,hsp,hlB⟩ := links_append.mp hr
  have hB' : ∀ c ∈ B, b.stop ≤ c.start ∧ 0 < c.len := fun c hc => ⟨(hB c hc).1,(hB c hc).2.1⟩
  have hmerge : merge b (A++p::B) = A++merge p (merge b B) := by
    rw [merge_append (fun a ha => by have := hA a ha; omega), merge_cons hpb.2 hb.1 hB']
  have h1 : Links (link h b.start (h.next p.start)) (merge b B) H.base := by
    rw [hnp]
    refine links_link hlB hs (fun c hc => ?_) hb.2.2 (fun _ => ?_)
    · have := hB c hc
      simp only [Span.stop] at *
      omega
    · simp only [Span.stop]
      omega
  obtain ⟨n,l',hhead⟩ := merge_head hB'
  have hin : ∀ c ∈ merge b B, p.start < c.start ∧ p.stop ≤ c.start ∧ 0 < c.len ∧ c.stop < 2^32 := by
    apply merge_forall
    · exact ⟨hpb.1,hpb.2,hb.1,hb.2.2⟩
    · intro c hc
      have := hB c hc
      simp only [Span.stop] at *
      omega
    · intro a c ha hc e
      simp only [Span.stop] at *
      omega
  have h2 : Links (link (link h b.start (h.next p.start)) p.start b.start) (merge p (merge b B))
      H.base := by
    have hl := links_link h1 (a := p) (by rw [(link_frame h _ (Nat.ne_of_lt hpb.1)).2, hsp]) hin
      (by simp only [Span.stop] at *; omega) (fun e => absurd e (by rw [hhead]; simp))
    rwa [hhead, first, ← hhead] at hl
  obtain ⟨m,l₂,hhead₂⟩ := merge_head (a := p) (fun c hc => ⟨(hin c hc).2.1,(hin c hc).2.2.1⟩)
  rw [hmerge]
  refine ⟨links_append.mpr ⟨?_,h2⟩,⟨p.start,m⟩,by rw [hhead₂]; simp,rfl⟩
  rw [hhead₂, first]
  refine hlA.congr (fun a ha => ?_)
  have := hA a ha
  simp only [Span.stop] at *
  have ha1 : a.start ≠ p.start := by omega
  have ha2 : a.start ≠ b.start := by omega
  rw [(link_frame _ _ ha1).1, (link_frame _ _ ha1).2, (link_frame _ _ ha2).1,
    (link_frame _ _ ha2).2]
  exact ⟨rfl,rfl⟩

theorem Inv.free (inv : Inv H I l (b::live) h) : ∃ h', Returns (fun n => free n h (b.start+8)) h' ∧
      ∃ l', Inv H I l' live h' ∧ ∃ c ∈ l', b.len ≤ c.len := by
  have hb := inv.blocks b (by simp)
  obtain ⟨-,hlive,hapart⟩ := List.pairwise_append.mp inv.apart
  have hlb : ∀ a ∈ l, Apart a b := fun a ha => hapart a ha b List.mem_cons_self
  have hroot : (root H).stop < b.start := by
    simp only [root, Span.stop]
    omega
  obtain ⟨A,p,B,he,hA,hp,hB⟩ := exists_place inv.gapped hlb (Nat.le_of_lt hroot)
  have hin : ∀ a ∈ A++p::B, a = root H ∨ a ∈ l := by
    intro a ha
    rw [← he] at ha
    exact List.mem_cons.mp ha
  have hbase : ∀ a ∈ A++p::B, H.base ≤ a.start ∧ (a.start = H.base ∨ 0 < a.len) := by
    intro a ha
    rcases hin a ha with rfl | ha
    · exact ⟨Nat.le_refl _,Or.inl rfl⟩
    · have := inv.blocks a (List.mem_append_left _ ha)
      exact ⟨by omega,Or.inr this.1⟩
  have hpb : p.start < b.start := by
    have := (hbase p (by simp)).2
    simp only [Span.stop] at hp
    omega
  have hB' : ∀ c ∈ B, c ∈ l := by
    intro c hc
    have := hB c hc
    refine (hin c (by simp [hc])).resolve_left (fun e => ?_)
    rw [e] at this
    simp only [root, Span.stop] at this
    omega
  have hring := inv.ring
  have hgap := inv.gapped
  obtain ⟨s,hs,hfreep⟩ := inv.freep
  have hfirst : first (A++p::B) 0 = H.base := by
    rw [← he]
    rfl
  rw [he] at hring hgap hs
  obtain ⟨hyes,hno⟩ := stops_iff hring hgap (fun a ha => (hbase a ha).1) hpb
    (fun c hc => by have := hB c hc; simp only [Span.stop] at this; omega) hb.2.1
  obtain ⟨C,hC,hCs,hCin⟩ := exists_walk (by rwa [hfirst]) hs (p := p) (by simp)
  obtain ⟨hlinks,hfree⟩ := links_free hring hA ⟨hpb,hp⟩ hb
    (fun c hc => ⟨hB c hc,(inv.blocks c (List.mem_append_left _ (hB' c hc))).1,
      (inv.blocks c (List.mem_append_left _ (hB' c hc))).2.2⟩) (inv.sizes b List.mem_cons_self)
  have hmerge : merge b (A++p::B) = root H::merge b l := by rw [← he, merge, if_pos hroot]
  rw [hmerge] at hlinks hfree
  refine ⟨{link (link h b.start (h.next p.start)) p.start b.start with freep := p.start},?_,
    merge b l,?_,merge_large b l⟩
  · refine ⟨C.length+1,fun n hn => ?_⟩
    have hloop := freeLoop_walk hC (fun a ha => hno a (hCin a ha).1 (hCin a ha).2) hyes
      (n := n) (by omega)
    rw [hCs, ← hfreep] at hloop
    simp only [Umalloc.free, Nat.add_sub_cancel, hloop]
  refine ⟨?_,hlinks.congr (fun _ _ => ⟨rfl,rfl⟩),hfree,?_,?_,?_,?_⟩
  · rw [link_env, link_env]
    exact inv.host
  · have hall : ∀ a ∈ root H::l, Apart a b :=
      List.forall_mem_cons.mpr ⟨Or.inl (Nat.le_of_lt hroot),hlb⟩
    have hg := gapped_merge inv.gapped hall
    rwa [merge, if_pos hroot] at hg
  · intro c hc
    have hcb := (List.pairwise_cons.mp hlive).1 c hc
    have hcpos := inv.blocks c (by simp [hc])
    have hcp : c.start ≠ p.start := by
      rcases hin p (by simp) with e | e
      · rw [e]
        simp only [root]
        omega
      have h1 := hapart p e c (List.mem_cons_of_mem b hc)
      have h2 := inv.blocks p (List.mem_append_left _ e)
      simp only [Apart, Span.stop] at *
      omega
    have hcb' : c.start ≠ b.start := by
      simp only [Apart, Span.stop] at *
      omega
    show 8*(link (link h b.start (h.next p.start)) p.start b.start).size c.start = c.len
    rw [(link_frame _ _ hcp).2, (link_frame _ _ hcb').2]
    exact inv.sizes c (List.mem_cons_of_mem b hc)
  · intro c hc
    rcases List.mem_append.mp hc with hc | hc
    · refine merge_forall (P := fun c => 0 < c.len ∧ H.base < c.start ∧ c.stop < 2^32) hb
        (fun a ha => inv.blocks a (List.mem_append_left _ ha)) (fun a d ha hd e => ?_) c hc
      simp only [Span.stop] at *
      omega
    · exact inv.blocks c (by simp [hc])
  · intro x
    have hx := inv.cover x
    rw [cover_append, cover_cons] at hx
    rw [cover_append, cover_merge, cover_cons, link_env, link_env]
    omega

end Free

end Yeet.Umalloc
