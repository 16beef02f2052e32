import Mathlib.Data.List.Sublists

/-!
# Things and the places they are in

A ledger lists for each place the things that are there. It is sound if no
thing is listed twice, neither in one place nor in two, and every thing has a
given property. A thing may be moved to another place, things may be dropped,
and places may be renamed.
-/

namespace Yeet.Ledger

variable {ι κ π : Type}

structure Sound (good : π → Prop) (L : ι → List π) : Prop where
  nodup : ∀ x, (L x).Nodup
  unique : ∀ {x y g}, g ∈ L x → g ∈ L y → x = y
  each : ∀ {x g}, g ∈ L x → good g

variable {good : π → Prop} {L L' : ι → List π} {g : π}

theorem Sound.relabel (h : Sound good L) {L' : κ → List π} (f : κ → ι)
    (hf : Function.Injective f) (hl : ∀ x, (L' x).Sublist (L (f x))) : Sound good L' where
  nodup := fun x => (hl x).nodup (h.nodup (f x))
  unique := fun hx hy => hf (h.unique ((hl _).subset hx) ((hl _).subset hy))
  each := fun hx => h.each ((hl _).subset hx)

theorem Sound.sub (h : Sound good L) (hl : ∀ x, (L' x).Sublist (L x)) : Sound good L' :=
  h.relabel id Function.injective_id hl

theorem Sound.mono {good' : π → Prop} (h : Sound good L) (hg : ∀ g, good g → good' g) :
    Sound good' L :=
  ⟨h.nodup,h.unique,fun hx => hg _ (h.each hx)⟩

/-- A new thing comes to a place. -/
theorem Sound.add (h : Sound good L) {v : ι} (hnew : ∀ x, g ∉ L x)
    (hg : good g) (hd : (L' v).Sublist (g::L v))
    (ho : ∀ x, x ≠ v → (L' x).Sublist (L x)) : Sound good L' := by
  have key : ∀ {x k}, k ∈ L' x → x = v ∧ k = g ∨ k ∈ L x := by
    intro x k hk
    by_cases hx : x = v
    · subst hx
      exact (List.mem_cons.mp (hd.subset hk)).imp (fun e => ⟨rfl,e⟩) id
    · exact Or.inr ((ho x hx).subset hk)
  refine ⟨fun x => ?_,fun {x y k} hx hy => ?_,fun {x k} hx => ?_⟩
  · by_cases hx : x = v
    · subst hx
      exact hd.nodup (List.nodup_cons.mpr ⟨hnew x,h.nodup x⟩)
    · exact (ho x hx).nodup (h.nodup x)
  · rcases key hx with ⟨rfl,rfl⟩ | hx
    · rcases key hy with ⟨rfl,-⟩ | hy
      · rfl
      · exact absurd hy (hnew y)
    · rcases key hy with ⟨rfl,rfl⟩ | hy
      · exact absurd hx (hnew x)
      · exact h.unique hx hy
  · rcases key hx with ⟨rfl,rfl⟩ | hx
    · exact hg
    · exact h.each hx

/-- One thing goes from one place to another. -/
theorem Sound.move [DecidableEq π] (h : Sound good L) {u v : ι}
    (hg : g ∈ L u) (hne : u ≠ v) (hs : (L' u).Sublist ((L u).erase g))
    (hd : (L' v).Sublist (g::L v))
    (ho : ∀ x, x ≠ u → x ≠ v → (L' x).Sublist (L x)) : Sound good L' := by
  -- where something is afterwards it was before, or it is the thing that moved
  have key : ∀ {x k}, k ∈ L' x → x = v ∧ k = g ∨ k ∈ L x ∧ ¬ (x = u ∧ k = g) := by
    intro x k hk
    by_cases h1 : x = v
    · subst h1
      rcases List.mem_cons.mp (hd.subset hk) with rfl | hk
      · exact Or.inl ⟨rfl,rfl⟩
      · exact Or.inr ⟨hk,fun e => hne e.1.symm⟩
    by_cases h2 : x = u
    · subst h2
      obtain ⟨h3,h4⟩ := ((h.nodup x).mem_erase_iff).mp (hs.subset hk)
      exact Or.inr ⟨h4,fun e => h3 e.2⟩
    · exact Or.inr ⟨(ho x h2 h1).subset hk,fun e => h2 e.1⟩
  refine ⟨fun x => ?_,fun hx hy => ?_,fun hx => ?_⟩
  · by_cases h1 : x = v
    · subst h1
      refine hd.nodup (List.nodup_cons.mpr ⟨fun hm => hne (h.unique hg hm),h.nodup x⟩)
    by_cases h2 : x = u
    · subst h2
      exact hs.nodup ((h.nodup x).erase g)
    · exact (ho x h2 h1).nodup (h.nodup x)
  · rcases key hx with ⟨rfl,rfl⟩ | ⟨h1,h2⟩
    · rcases key hy with ⟨rfl,_⟩ | ⟨h3,h4⟩
      · rfl
      · exact absurd ⟨h.unique h3 hg,rfl⟩ h4
    · rcases key hy with ⟨rfl,rfl⟩ | ⟨h3,_⟩
      · exact absurd ⟨h.unique h1 hg,rfl⟩ h2
      · exact h.unique h1 h3
  · rcases key hx with ⟨_,rfl⟩ | ⟨h1,_⟩
    · exact h.each hg
    · exact h.each h1

end Yeet.Ledger
