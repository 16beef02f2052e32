import YeetKernel.RefQuiet

/-!
# Hands of children

`fork` fills the hand of a child that is not live yet; a process that exits
leaves an empty hand, and its slot is freed by `wait`.
-/

namespace Yeet.RefHand
open Kernel Fs Tally Function

variable {s s' : State} {ρ : Procno → Hand} {p np : Procno} {hn : Hand} {k' : Option (Procno × ℕ)}

theorem Procs.child (hi : Procs s ρ) (hpn : p ≠ np) (hl : (s.proc p).status = .live) {x : Process}
    (hs : s'.proc = update s.proc np x) (ho : x.ofile = hn.ofile) (hc : x.cwd = hn.cwd)
    (hrest : hn.AtRest) (hempty : x.status = .unused ∨ x.status = .zombie → hn.Empty)
    (hk' : ∀ q k, k' = some (q,k) → q = np ∧ x.status = .embryo ∧
      (∀ fd : Fd, k ≤ fd.val → hn.ofile fd = none) ∧ (k ≤ NOFILE → hn.cwd = none))
    (hk : ∀ z k, z ≠ p → (ρ z).kid ≠ some (np,k)) :
    Procs s' (update (update ρ np hn) p ((ρ p).setKid k')) := by
  have hx : s'.proc np = x := by rw [hs, update_self]
  -- the hands of `np`, of `p` and of all others
  have h1 : update (update ρ np hn) p ((ρ p).setKid k') np = hn := by
    rw [update_of_ne hpn.symm, update_self]
  have h2 : update (update ρ np hn) p ((ρ p).setKid k') p = (ρ p).setKid k' := update_self _ _ _
  have h3 : ∀ q, q ≠ np → s'.proc q = s.proc q ∧
      (q = p ∨ update (update ρ np hn) p ((ρ p).setKid k') q = ρ q) := by
    intro q e1
    refine ⟨by rw [hs, update_of_ne e1],or_iff_not_imp_left.mpr (fun e2 => ?_)⟩
    rw [update_of_ne e2, update_of_ne e1]
  have hkid : ∀ z q k, (update (update ρ np hn) p ((ρ p).setKid k') z).kid = some (q,k) →
      z = p ∧ k' = some (q,k) ∨ q ≠ np ∧ (ρ z).kid = some (q,k) := by
    intro z q k hz
    by_cases e' : z = np
    · rw [e', h1, hrest.kid] at hz
      cases hz
    by_cases e : z = p
    · rw [e, h2] at hz
      exact Or.inl ⟨e,hz⟩
    · rw [(h3 z e').2.resolve_left e] at hz
      exact Or.inr ⟨fun e'' => hk z k e (e'' ▸ hz),hz⟩
  constructor
  · intro q
    by_cases e : q = np
    · rw [e, h1, hx, ho]
    obtain ⟨hq,rfl | e'⟩ := h3 q e
    · rw [hq, h2]
      exact hi.ofile q
    · rw [hq, e', hi.ofile]
  · intro q
    by_cases e : q = np
    · rw [e, h1, hx, hc]
    obtain ⟨hq,rfl | e'⟩ := h3 q e
    · rw [hq, h2]
      exact hi.cwd q
    · rw [hq, e', hi.cwd]
  · intro q hs
    by_cases e : q = np
    · rw [e, h1]
      exact hrest
    obtain ⟨hq,rfl | e'⟩ := h3 q e
    · exact absurd hl (hq ▸ hs)
    · rw [e']
      exact hi.idle q (hq ▸ hs)
  · intro q hs
    by_cases e : q = np
    · rw [e, hx] at hs
      rw [e, h1]
      exact hempty hs
    obtain ⟨hq,rfl | e'⟩ := h3 q e
    · rw [hq, hl] at hs
      simp at hs
    · rw [e']
      exact hi.empty q (hq ▸ hs)
  · intro z q k hz
    rcases hkid z q k hz with ⟨_,h4⟩ | ⟨e,h4⟩
    · obtain ⟨rfl,h5⟩ := hk' q k h4
      rw [h1, hx]
      exact h5
    obtain ⟨h5,h6⟩ := hi.kid z q k h4
    obtain ⟨hq,rfl | e'⟩ := h3 q e
    · rw [hl] at h5
      cases h5
    · rw [hq, e']
      exact ⟨h5,h6⟩
  · intro z z' q k k₁ hz hz'
    rcases hkid z q k hz with ⟨e1,h4⟩ | ⟨hqn,h4⟩
    · rcases hkid z' q k₁ hz' with ⟨e2,_⟩ | ⟨hqn,_⟩
      · rw [e1, e2]
      · exact absurd (hk' q k h4).1 hqn
    · rcases hkid z' q k₁ hz' with ⟨_,h5⟩ | ⟨_,h5⟩
      · exact absurd (hk' q k₁ h5).1 hqn
      · exact hi.single z z' q k k₁ h4 h5

section Child

variable (hi : Inv s ρ) (hl : (s.proc p).status = .live) {k : ℕ}

include hi hl

theorem Inv.restage {t : Status} {x : Process} (hpn : p ≠ np) (hx : x = {s.proc np with status := t})
    (hrest : (ρ np).AtRest) (hempty : t = .unused ∨ t = .zombie → (ρ np).Empty)
    (hk' : ∀ q k, k' = some (q,k) → q = np ∧ t = .embryo ∧
      (∀ fd : Fd, k ≤ fd.val → (ρ np).ofile fd = none) ∧ (k ≤ NOFILE → (ρ np).cwd = none))
    (hk : ∀ z k, z ≠ p → (ρ z).kid ≠ some (np,k)) :
    Inv (s.setProc np x) (update ρ p ((ρ p).setKid k')) := by
  subst hx
  refine ⟨hi.inodes.own (fun _ => rfl),hi.files.same rfl (fun _ => rfl) (fun _ => rfl),?_⟩
  suffices h : Procs (s.setProc np {s.proc np with status := t})
      (update (update ρ np (ρ np)) p ((ρ p).setKid k')) by
    rwa [update_eq_self] at h
  exact hi.procs.child hpn hl rfl (hi.procs.ofile np) (hi.procs.cwd np) hrest hempty hk' hk

omit hl in
theorem Inv.kid_only (hk : (ρ p).kid = some (np,k)) (z : Procno) (m : ℕ) (hz : z ≠ p) :
    (ρ z).kid ≠ some (np,m) :=
  fun h => hz (hi.procs.single z p np m k h hk)

theorem Inv.kid_ne (hk : (ρ p).kid = some (np,k)) : p ≠ np := by
  rintro rfl
  have h1 := (hi.procs.kid p p k hk).1
  rw [hl] at h1
  cases h1

theorem Inv.allocproc (hu : (s.proc np).status = .unused) :
    Inv (s.setStatus np .embryo) (update ρ p ((ρ p).setKid (some (np,0)))) := by
  have hpn : p ≠ np := by
    rintro rfl
    rw [hl] at hu
    cases hu
  have he := hi.procs.empty np (Or.inl hu)
  refine hi.restage hl hpn rfl (hi.procs.idle np (by simp [hu])) (by simp) ?_ ?_
  · intro q k e
    cases e
    exact ⟨rfl,rfl,fun fd _ => he.1 fd,fun _ => he.2⟩
  intro z k _ h
  have := (hi.procs.kid z np k h).1
  rw [hu] at this
  cases this

theorem Inv.abandon (hk : (ρ p).kid = some (np,0)) :
    Inv (s.setStatus np .unused) (update ρ p ((ρ p).setKid none)) := by
  obtain ⟨h1,h2,h3⟩ := hi.procs.kid p np 0 hk
  refine hi.restage hl (hi.kid_ne hl hk) rfl (hi.procs.idle np (by simp [h1])) ?_ (by simp)
    (hi.kid_only hk)
  exact fun _ => ⟨fun fd => h2 fd (Nat.zero_le _),h3 (Nat.zero_le _)⟩

theorem Inv.release (hk : (ρ p).kid = some (np,k)) :
    Inv (s.setStatus np .live) (update ρ p ((ρ p).setKid none)) := by
  obtain ⟨h1,_,_⟩ := hi.procs.kid p np k hk
  exact hi.restage hl (hi.kid_ne hl hk) rfl (hi.procs.idle np (by simp [h1])) (by simp) (by simp)
    (hi.kid_only hk)

theorem Inv.advance {k m : ℕ} (hk : (ρ p).kid = some (np,k)) (hkm : k ≤ m) (hm : m ≤ NOFILE) :
    Inv s (update ρ p ((ρ p).setKid (some (np,m)))) := by
  obtain ⟨h1,h2,h3⟩ := hi.procs.kid p np k hk
  suffices h : Inv (s.setProc np {s.proc np with status := .embryo})
      (update ρ p ((ρ p).setKid (some (np,m)))) by
    rwa [← h1, State.setProc, update_eq_self] at h
  refine hi.restage hl (hi.kid_ne hl hk) rfl (hi.procs.idle np (by simp [h1])) (by simp) ?_
    (hi.kid_only hk)
  · intro q k e
    cases e
    exact ⟨rfl,rfl,fun fd hfd => h2 fd (by omega),fun _ => h3 (by omega)⟩

theorem Inv.dupSlot {f : Fileno} {fd : Fd} (hk : (ρ p).kid = some (np,k)) (hfd : fd.val = k)
    (hf : 1 ≤ (ρ p).hold f) (hff : (ρ p).fresh f = false) :
    Inv ((s.setFile f {s.file f with ref := (s.file f).ref+1}).setSlot np fd (some f))
      (update (update ρ np {ρ np with ofile := update (ρ np).ofile fd (some f)}) p
        ((ρ p).setKid (some (np,k+1)))) := by
  obtain ⟨h1,h2,h3⟩ := hi.procs.kid p np k hk
  have hpn := hi.kid_ne hl hk
  have hnone : (ρ np).ofile fd = none := h2 fd (by omega)
  have hnp := hi.procs.idle np (by simp [h1])
  generalize he : ({ρ np with ofile := update (ρ np).ofile fd (some f)} : Hand) = hn
  have hhold : ∀ g, hn.hold g = (ρ np).hold g+if g = f then 1 else 0 := by
    intro g
    rw [← he]
    simp only [Hand.hold, count_update, hnone, point_none, point_some]
    omega
  have hkeep : (update ρ np hn) p = ρ p := update_of_ne hpn _ _
  refine ⟨?_,?_,?_⟩
  · have h4 : Inodes (s.setFile f {s.file f with ref := (s.file f).ref+1}) (update ρ np hn) := by
      refine hi.inodes.setFile f _ (fun i => ?_)
      rw [← he]
      rfl
    intro i
    exact Inodes.own h4 (fun i => by rw [hkeep]; rfl) i
  · have h4 : Files (s.setFile f {s.file f with ref := (s.file f).ref+1}) (update ρ np hn) := by
      refine hi.files.setFile f _ ?_ ?_ ?_ ?_ ?_ ?_
      · intro g hg
        rw [hhold, if_neg hg, add_zero, ← he]
        exact ⟨rfl,rfl⟩
      · rw [hhold, if_pos rfl]
        show (s.file f).ref+1-_ = _
        omega
      · have := hi.files.nonneg np f
        rw [hhold, if_pos rfl]
        omega
      · intro h5
        have h6 := le_sum (fun q => hi.files.nonneg q f) p
        have h7 := hi.files.ref f
        have h8 : (s.file f).ref+1 = 0 := h5
        omega
      · intro h5
        rw [← he] at h5
        rw [hnp.fresh f] at h5
        cases h5
      intro q hq h5
      by_cases e : q = p
      · rw [e, hff] at h5
        cases h5
      · exact absurd h5 (hi.files.not_fresh hf e)
    exact h4.same rfl (fun g => by rw [hkeep, Hand.hold_setKid]) (fun g => by rw [hkeep]; rfl)
  · refine hi.procs.child hpn hl rfl ?_ ?_ ?_ ?_ (fun q m e => ?_) (hi.kid_only hk)
    · rw [← he, ← hi.procs.ofile]
      rfl
    · rw [← he]
      exact hi.procs.cwd np
    · rw [← he]
      exact ⟨hnp.itok,hnp.ftok,hnp.fresh,hnp.kid⟩
    · simp [State.setFile, h1]
    cases e
    rw [← he]
    refine ⟨rfl,h1,fun fd' hfd' => ?_,fun hm => h3 (by omega)⟩
    have hne' : fd' ≠ fd := by
      rintro rfl
      omega
    show update (ρ np).ofile fd (some f) fd' = none
    rw [update_of_ne hne']
    exact h2 fd' (by omega)

theorem Inv.dupCwd {i : Ino} (hk : (ρ p).kid = some (np,k)) (hm : k ≤ NOFILE) : Inv (s.dupCwd np i)
      (update (update ρ np {ρ np with cwd := some i}) p ((ρ p).setKid (some (np,NOFILE+1)))) := by
  obtain ⟨h1,h2,h3⟩ := hi.procs.kid p np k hk
  have hpn := hi.kid_ne hl hk
  have hnone := h3 hm
  have hnp := hi.procs.idle np (by simp [h1])
  have hkeep : ∀ h : Hand, (update ρ np h) p = ρ p := fun _ => update_of_ne hpn _ _
  refine ⟨?_,?_,?_⟩
  · have h4 : Inodes (s.dupCwd np i) (update ρ np {ρ np with cwd := some i}) := by
      refine hi.inodes.own (fun j => ?_)
      have h5 : RefHand.files (s.dupCwd np i) j = RefHand.files s j := rfl
      have h6 : (s.dupCwd np i).iref j = s.iref j+if j = i then 1 else 0 := by
        simp only [State.dupCwd, State.setProc, State.setRef, update_apply]
        split
        · rename_i e
          rw [e]
        · exact (add_zero _).symm
      rw [h5, h6]
      simp only [Hand.ihold, hnone, point_none, point_some]
      omega
    exact h4.own (p := p) (fun j => by rw [hkeep]; rfl)
  · have h4 : Files (s.dupCwd np i) (update ρ np {ρ np with cwd := some i}) :=
      hi.files.same rfl (fun _ => rfl) (fun _ => rfl)
    exact h4.same rfl (fun g => by rw [hkeep]; rfl) (fun g => by rw [hkeep]; rfl)
  refine hi.procs.child hpn hl rfl (hi.procs.ofile np) rfl
    ⟨hnp.itok,hnp.ftok,hnp.fresh,hnp.kid⟩ (by simp [h1]) (fun q m e => ?_) (hi.kid_only hk)
  cases e
  exact ⟨rfl,h1,fun fd hfd => absurd hfd (by omega),fun h => absurd h (by omega)⟩

end Child

theorem Inv.settle (hi : Inv s ρ) (h1 : s'.iref = s.iref) (h2 : s'.file = s.file)
    (hq : ∀ q, (s'.proc q).ofile = (s.proc q).ofile ∧ (s'.proc q).cwd = (s.proc q).cwd ∧
      ((s'.proc q).status = (s.proc q).status ∨
        (ρ q).AtRest ∧ (ρ q).Empty ∧ (s.proc q).status ≠ .embryo)) : Inv s' ρ := by
  refine ⟨?_,⟨?_,hi.files.nonneg,?_,?_⟩,⟨?_,?_,?_,?_,?_,hi.procs.single⟩⟩
  · intro i
    have h3 : RefHand.files s' i = RefHand.files s i := by
      unfold RefHand.files
      rw [h2]
    rw [h1, h3]
    exact hi.inodes i
  · rw [h2]
    exact hi.files.ref
  · rw [h2]
    exact hi.files.closed
  · rw [h2]
    exact hi.files.fresh
  · intro q
    rw [(hq q).1]
    exact hi.procs.ofile q
  · intro q
    rw [(hq q).2.1]
    exact hi.procs.cwd q
  · intro q hs
    rcases (hq q).2.2 with e | ⟨e,_⟩
    · rw [e] at hs
      exact hi.procs.idle q hs
    · exact e
  · intro q hs
    rcases (hq q).2.2 with e | ⟨_,e,_⟩
    · rw [e] at hs
      exact hi.procs.empty q hs
    · exact e
  intro z q k hz
  obtain ⟨h3,h4⟩ := hi.procs.kid z q k hz
  rcases (hq q).2.2 with e | ⟨_,_,e⟩
  · rw [e]
    exact ⟨h3,h4⟩
  · exact absurd h3 e

end Yeet.RefHand
