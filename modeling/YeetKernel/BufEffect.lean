import YeetKernel.BufCache

/-!
# The effects of the buffer cache's actions

The step lemma lists what an action can do to a cache whose links form a ring
through all buffers.
-/

namespace Yeet.BufEffect
open Kernel DoublyLinked BufCache Function

variable {P D : Type} [DecidableEq P]

def started (s : State P D) (b : Bufno) : Uint → Uint → D :=
  if (s.buf b).dirty then
    update s.disk ((s.buf b).dev &&& 1)
      (update (s.disk ((s.buf b).dev &&& 1)) (s.buf b).blockno (s.buf b).data)
  else s.disk

def served (s : State P D) (b : Bufno) : Buf D :=
  { s.buf b with
    data := if (s.buf b).dirty then (s.buf b).data
      else s.disk ((s.buf b).dev &&& 1) (s.buf b).blockno
    valid := true
    dirty := false }

def serve (s : State P D) (b : Bufno) (rest : List Bufno) : State P D :=
  { s with idequeue := rest, buf := update s.buf b (served s b) }

inductive Effect (s : State P D) : State P D → Event P D → Prop where
  | asked (p : P) (dev blockno : Uint) (hc : s.ctl p = .idle) (hreal : Real dev) :
      Effect s (s.goto p (.getting dev blockno)) (.asked p dev blockno)
  | slept (p : P) : Effect s s (.slept p)
  | spurious : Effect s s .spurious
  | found (p : P) (b : Bufno) (hc : s.ctl p = .getting (s.buf b).dev (s.buf b).blockno)
      (hb : (s.buf b).busy = false) :
      Effect s (s.give p (s.buf b).dev (s.buf b).blockno b { s.buf b with busy := true })
        (.found p b)
  | recycled (p : P) (dev blockno : Uint) (b : Bufno) (hc : s.ctl p = .getting dev blockno)
      (hnone : ∀ c, (s.buf c).dev = dev → (s.buf c).blockno ≠ blockno)
      (hb : (s.buf b).busy = false) (hd : (s.buf b).dirty = false) :
      Effect s (s.give p dev blockno b { s.buf b with
        dev := dev
        blockno := blockno
        busy := true
        valid := false
        dirty := false }) (.recycled p b)
  | hit (p : P) (dev blockno : Uint) (b : Bufno) (hc : s.ctl p = .testing dev blockno b)
      (hv : (s.buf b).valid = true) :
      Effect s (s.goto p .idle) (.returned p b dev blockno (s.buf b).data)
  | missed (p : P) (dev blockno : Uint) (b : Bufno) (hc : s.ctl p = .testing dev blockno b)
      (hv : (s.buf b).valid = false) :
      Effect s (s.goto p (.syncing (.read dev blockno) b)) (.missed p b)
  | started (p : P) (j : Job) (b : Bufno) (hc : s.ctl p = .syncing j b) (hq : s.idequeue = []) :
      Effect s { s.goto p (.waiting j b) with idequeue := [b], disk := started s b } (.queued p b)
  | queued (p : P) (j : Job) (b : Bufno) (hc : s.ctl p = .syncing j b) (hq : s.idequeue ≠ []) :
      Effect s { s.goto p (.waiting j b) with idequeue := s.idequeue++[b] } (.queued p b)
  | last (b : Bufno) (hq : s.idequeue = [b]) : Effect s (serve s b []) (.done b)
  | next (b c : Bufno) (rest : List Bufno) (hq : s.idequeue = b::c::rest) :
      Effect s { serve s b (c::rest) with disk := BufEffect.started (serve s b (c::rest)) c }
        (.done b)
  | read (p : P) (dev blockno : Uint) (b : Bufno) (hc : s.ctl p = .waiting (.read dev blockno) b)
      (hv : (s.buf b).valid = true) (hd : (s.buf b).dirty = false) :
      Effect s (s.goto p .idle) (.returned p b dev blockno (s.buf b).data)
  | written (p : P) (b : Bufno) (hc : s.ctl p = .waiting .write b)
      (hv : (s.buf b).valid = true) (hd : (s.buf b).dirty = false) :
      Effect s (s.goto p .idle) (.written p b)
  | modified (p : P) (b : Bufno) (x : D) (hc : s.ctl p = .idle) (hh : s.held p b = true) :
      Effect s { s.setBuf b { s.buf b with data := x } with unsaved := update s.unsaved b true }
        (.modified p (s.buf b).dev (s.buf b).blockno x)
  | bwrite (p : P) (b : Bufno) (hc : s.ctl p = .idle) (hh : s.held p b = true) :
      Effect s { (s.setBuf b { s.buf b with dirty := true }).goto p (.syncing .write b) with
        unsaved := update s.unsaved b false } (.marked p b)
  | logged (p : P) (b : Bufno) (hc : s.ctl p = .idle) (hh : s.held p b = true) :
      Effect s { s.setBuf b { s.buf b with dirty := true } with
        unsaved := update s.unsaved b false } (.marked p b)
  | released (p : P) (b : Bufno) (hc : s.ctl p = .idle) (hh : s.held p b = true)
      (hu : s.unsaved b = false) :
      Effect s { s.setBuf b { s.buf b with busy := false } with
        links := (s.links.unlink b).pushFront b
        held := update s.held p (update (s.held p) b false) } (.released p b)

variable {s s' : State P D} {e : Event P D} {p : P} {l : List Bufno}

omit [DecidableEq P] in
theorem idestart_eq_ok {b : Bufno} (h : idestart s b = .ok s') :
    s' = { s with disk := started s b } := by
  unfold idestart at h
  unfold started
  split at h
  · cases h
  split at h
  · rename_i hd
    rw [if_pos hd]
    exact (Except.ok.inj h).symm
  · rename_i hd
    rw [if_neg hd]
    exact (Except.ok.inj h).symm

theorem bget_effect (hl : Ring s.links l) (hall : ∀ b, b ∈ l)
    (h : bget s p = some (.ok (s',e))) : Effect s s' e := by
  have hlen : l.length ≤ NBUF := by simpa using hl.nodup.length_le_card
  unfold bget at h
  split at h
  · rename_i dev blockno hc
    simp only [search_next _ hl.path hlen, search_prev _ hl.path hlen] at h
    split at h
    · cases h
    · rename_i b hb
      have ht := List.find?_some (Option.some.inj hb)
      simp only [Bool.and_eq_true, beq_iff_eq] at ht
      obtain ⟨rfl,rfl⟩ := ht
      split at h
      · cases h
        exact .slept p
      · rename_i hbusy
        cases h
        exact .found p b hc (by simpa using hbusy)
    rename_i hnone
    split at h
    · cases h
    · cases h
    rename_i b hb
    have ht := List.find?_some (Option.some.inj hb)
    simp only [Bool.and_eq_true, Bool.not_eq_true'] at ht
    cases h
    refine .recycled p dev blockno b hc (fun c hd hn => ?_) ht.1 ht.2
    have := List.find?_eq_none.mp (Option.some.inj hnone) c (hall c)
    simp [hd, hn] at this
  · cases h

theorem iderw_effect (hfree : ∀ j b, s.ctl p = .syncing j b → b ∉ s.idequeue)
    (h : iderw s p = some (.ok (s',e))) : Effect s s' e := by
  unfold iderw at h
  split at h
  · rename_i j b hc
    have hb := hfree j b hc
    split at h
    · cases h
    split at h
    · cases h
    split at h
    · cases h
    cases hq : s.idequeue with
    | nil =>
      simp only [hq, List.nil_append, List.head?_cons, if_true] at h
      obtain ⟨u,hu,heq⟩ := map_eq_ok.mp (Option.some.inj h)
      obtain ⟨rfl,rfl⟩ := Prod.mk.inj heq
      rw [idestart_eq_ok hu]
      exact .started p j b hc hq
    | cons c rest =>
      have hcb : c ≠ b := fun e => hb (by simp [hq, e])
      have hq' : s.idequeue ≠ [] := by simp [hq]
      simp only [hq, List.cons_append, List.head?_cons, Option.some.injEq, hcb, if_false] at h
      obtain ⟨rfl,rfl⟩ := ok_pair_inj h
      have := Effect.queued p j b hc hq'
      rwa [hq] at this
  · cases h

omit [DecidableEq P] in
theorem serve_eq (s : State P D) (b : Bufno) (rest : List Bufno) :
    { s with
      idequeue := rest
      buf := update s.buf b { (if (s.buf b).dirty then s.buf b
        else { s.buf b with data := s.disk ((s.buf b).dev &&& 1) (s.buf b).blockno }) with
          valid := true, dirty := false } } = serve s b rest := by
  unfold serve served
  split <;> simp_all

theorem ideintr_effect (h : ideintr s = some (.ok (s',e))) : Effect s s' e := by
  unfold ideintr at h
  split at h
  · cases h
    exact .spurious
  rename_i b rest hq
  simp only [serve_eq] at h
  split at h
  · cases h
    exact .last b hq
  rename_i c rest
  obtain ⟨u,hu,heq⟩ := map_eq_ok.mp (Option.some.inj h)
  obtain ⟨rfl,rfl⟩ := Prod.mk.inj heq
  rw [idestart_eq_ok hu]
  exact .next b c rest hq

theorem wake_effect (h : wake s p = some (.ok (s',e))) : Effect s s' e := by
  unfold wake at h
  split at h
  · rename_i j b hc
    split at h
    · rename_i ht
      simp only [Bool.and_eq_true, Bool.not_eq_true'] at ht
      cases j with
      | read dev blockno =>
        cases h
        exact .read p dev blockno b hc ht.1 ht.2
      | write =>
        cases h
        exact .written p b hc ht.1 ht.2
    · cases h
      exact .slept p
  · cases h

theorem test_effect (h : test s p = some (.ok (s',e))) : Effect s s' e := by
  unfold test at h
  split at h
  · rename_i dev blockno b hc
    split at h
    · rename_i hv
      cases h
      exact .hit p dev blockno b hc hv
    · rename_i hv
      cases h
      exact .missed p dev blockno b hc (by simpa using hv)
  · cases h

theorem exec_effect (hl : Ring s.links l) (hall : ∀ b, b ∈ l)
    (hfree : ∀ p j b, s.ctl p = .syncing j b → b ∉ s.idequeue) {a : Action P D}
    (h : exec s a = some (.ok (s',e))) : Effect s s' e := by
  cases a with
  | bread p dev blockno =>
    simp only [exec, bread] at h
    split at h
    · rename_i hc
      cases h
      exact .asked p dev blockno hc.1 hc.2
    · cases h
  | bget p => exact bget_effect hl hall h
  | test p => exact test_effect h
  | iderw p => exact iderw_effect (hfree p) h
  | ideintr => exact ideintr_effect h
  | wake p => exact wake_effect h
  | modify p b x =>
    simp only [exec, modifyData] at h
    split at h
    · rename_i hc
      cases h
      exact .modified p b x hc.1 hc.2
    · cases h
  | bwrite p b =>
    simp only [exec, bwrite] at h
    split at h
    · rename_i hc
      split at h
      · cases h
      · cases h
        exact .bwrite p b hc.1 hc.2
    · cases h
  | logWrite p b =>
    simp only [exec, logWrite] at h
    split at h
    · rename_i hc
      cases h
      exact .logged p b hc.1 hc.2
    · cases h
  | brelse p b =>
    simp only [exec, brelse] at h
    split at h
    · rename_i hc
      split at h
      · cases h
      · cases h
        exact .released p b hc.1 hc.2.1 hc.2.2
    · cases h

end Yeet.BufEffect
