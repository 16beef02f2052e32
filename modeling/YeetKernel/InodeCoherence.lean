import YeetKernel.InodeSound

/-!
# The inode cache protocol

In every run of clients that follow the discipline there is one slot for an
inode and one holder for a lock, an unlocked valid slot is the same as the disk
copy, and only unlinked inodes without other references are freed.
-/

namespace Yeet.Icache
open Kernel Bytes FsDisk Fs Threads Function

structure Protocol (named : Bool) (x : Pool Client Fault Procno Op Ino) : Prop where
  unique : ∀ i j, 0 < x.state.fs.iref i → 0 < x.state.fs.iref j →
    (x.state.fs.inode i).dev = (x.state.fs.inode j).dev →
    (x.state.fs.inode i).inum = (x.state.fs.inode j).inum → i = j
  /-- Each `I_BUSY` has one holder; between operations a process holds what it has locked. -/
  held : ∃ held : Ino → Option Procno,
    (∀ i, 0 < x.state.fs.iref i → ((x.state.fs.inode i).busy = true ↔ (held i).isSome)) ∧
    ∀ p, x.thread p = none → ∀ i, held i = some p ↔ (x.state.hand p).lock i ≠ .free
  synced : ∀ i, 0 < x.state.fs.iref i → (x.state.fs.inode i).valid = true →
    (x.state.fs.inode i).busy = false →
    (x.state.fs.inode i).din = x.state.fs.vol.dinode (x.state.fs.inode i).inum.toNat
  freed : ∀ p c t, x.state.last = some (p,c,t) → FreesDoomed named (x.state.hand p) c t x.state.fs

variable {named : Bool} {N : ℕ} {s : Client} {ρ : Procno → Hold}

theorem Inv.synced (hi : Inv named N s ρ) (i : Ino) (h0 : 0 < s.fs.iref i)
    (hv : (s.fs.inode i).valid = true) (hb : (s.fs.inode i).busy = false) :
    (s.fs.inode i).din = s.fs.vol.dinode (s.fs.inode i).inum.toNat :=
  (((hi.slot i).idle h0 ((hi.slot i).unlocked hb)).2 hv).1

theorem Inv.holders (hi : Inv named N s ρ) : ∃ held : Ino → Option Procno,
    (∀ i, 0 < s.fs.iref i → ((s.fs.inode i).busy = true ↔ (held i).isSome)) ∧
    ∀ p i, held i = some p ↔ (ρ p).real.lock i ≠ .free := by
  classical
  let held : Ino → Option Procno := fun i =>
    if h : ∃ p, (ρ p).real.lock i ≠ .free then some h.choose else none
  have hsome : ∀ p i, held i = some p ↔ (ρ p).real.lock i ≠ .free := by
    intro p i
    by_cases h : ∃ q, (ρ q).real.lock i ≠ .free
    · have hi' : held i = some h.choose := dif_pos h
      rw [hi', Option.some.injEq]
      constructor
      · intro e
        rw [← e]
        exact h.choose_spec
      · exact fun hp => (hi.slot i).single _ _ h.choose_spec hp
    · have hi' : held i = none := dif_neg h
      rw [hi']
      exact iff_of_false (fun e => by cases e) (fun hp => h ⟨p,hp⟩)
  refine ⟨held,fun i h0 => ?_,hsome⟩
  rw [(hi.slot i).busy_iff h0, Option.isSome_iff_exists]
  exact exists_congr (fun p => (hsome p i).symm)

theorem start_inv (named : Bool) {v : Volume} (hv : v.Laid) :
    Inv named v.sb.ninodes (start v) (fun _ => ⟨Hand.empty,Hand.empty,none⟩) := by
  have h0 : ∀ i, (start v).fs.iref i = 0 := fun _ => rfl
  constructor
  · exact hv
  · rfl
  · exact fun _ => rfl
  · intro i
    constructor
    · exact Finset.sum_const_zero.symm
    · exact fun _ => Int.le_refl 0
    · exact fun _ h => absurd rfl h
    · exact fun _ _ h => absurd rfl h
    · exact fun h => absurd h (Int.lt_irrefl 0)
    · exact fun h => absurd h (Int.lt_irrefl 0)
    · exact fun _ h => absurd rfl h
    · exact fun _ h => absurd h (Int.lt_irrefl 0)
  · exact fun _ _ h => absurd h (Int.lt_irrefl 0)
  all_goals exact fun _ _ _ h => by cases h

theorem inode_cache_protocol (named : Bool) {v : Volume} (hv : v.Laid)
    {h : List (Threads.Move Procno Op × Threads.Seen Procno Op Ino)}
    {x : Pool Client Fault Procno Op Ino}
    (hr : Lts.Run (Threads.exec (machine named)) (Pool.mk (start v) (fun _ => none)) h x) :
    Protocol named x := by
  obtain ⟨ρ,hi,hfit⟩ := run_fits (machine_follows named v.sb.ninodes) (start_inv named hv)
    (fun _ => ⟨rfl,rfl,fun _ => Or.inl rfl⟩) hr (fun _ _ _ => trivial)
  obtain ⟨held,hbusy,hsome⟩ := hi.holders
  refine ⟨fun i j hi' hj _ he => hi.unique i j hi' hj he,⟨held,hbusy,?_⟩,
    fun i => hi.synced i,hi.last⟩
  intro p hp i
  have hrest := hfit p
  rw [hp] at hrest
  rw [hsome, hi.known, Hold.AtRest.known hrest]

def emptyDisk : Disk :=
  update (fun _ _ => 0) 1 (setField (setField (setField (setField (setField (setField
    (fun _ => 0) 0 4 20#32) 8 4 8#32) 12 4 2#32) 16 4 2#32) 20 4 4#32) 24 4 6#32)

def emptyVolume : Volume := ⟨readsb emptyDisk,emptyDisk⟩

theorem emptyVolume_laid : emptyVolume.Laid where
  super := rfl
  log := by decide +kernel
  inodes := by decide +kernel
  bitmap := by decide +kernel

/-- An inode is allocated, locked, unlocked and put by one process, up to the
point where it is free again. -/
def shortLife : List (Threads.Move Procno Op) :=
  let p : Procno := ⟨0,nproc_pos⟩
  let i : Ino := ⟨0,ninode_pos⟩
  [.call p (.alloc T_FILE),.step p 0,.step p 0,.step p 0,.step p 0,.step p 0,
    .call p (.lock i),.step p 0,.step p 0,.step p 0,.step p 0,
    .call p (.unlock i),.step p 0,.step p 0,.step p 0,
    .call p (.put i),.step p 0,.step p 0,.step p 0]

theorem inode_cache_protocol_freed : ∃ h x,
    Lts.Run (Threads.exec (machine true)) (Pool.mk (start emptyVolume) (fun _ => none)) h x ∧
      h.map Prod.fst = shortLife ∧ (x.state.fs.vol.dinode 1).type = 0 ∧
      x.state.last.map (fun l => (l.2.2.vol.dinode 1).type) = some T_FILE ∧ Protocol true x := by
  obtain ⟨h,x,hr,hacts,hd,ht⟩ := Lts.replay_reaches (Threads.exec (machine true))
    (Pool.mk (start emptyVolume) (fun _ => none)) shortLife
    (fun _ x => (x.state.fs.vol.dinode 1).type = 0 ∧
      x.state.last.map (fun l => (l.2.2.vol.dinode 1).type) = some T_FILE)
    (by decide +kernel)
  exact ⟨h,x,hr,hacts,hd,ht,inode_cache_protocol true emptyVolume_laid hr⟩

end Yeet.Icache
