import YeetKernel.WakeAll

/-!
# The build without process lists

The original `exit`, `wait` and `kill` know no lists: they scan the process
table in the order of its slots. Each is translated here beside the list
version, on the same table, whose lists it neither reads nor writes.
-/

namespace Yeet.ScanCalls
open Kernel StateLists ProcTable WakeAll Function

/-- The loop of `exit` that passes the children of `p` to init. -/
def abandonFrom (p : Slot) : List Slot → Table → Table
  | [], t => t
  | q::qs, t =>
    abandonFrom p qs (if t.parent q = some p then
        let u := { t with parent := update t.parent q t.initproc }
        if u.state q = .zombie then wakeup1Scan (u.initproc.map .proc) u else u
      else t)

def exitScan (p : Slot) (t : Table) : Except Fault Table :=
  if t.initproc = some p then .error (.panic "init exiting") else
    let t := wakeup1Scan ((t.parent p).map .proc) t
    let t := abandonFrom p (List.finRange NPROC) t
    sched p (t.setState p .zombie)

/-- The loop of `wait`: the first zombie child, and whether a child was seen. -/
def childFrom (p : Slot) (t : Table) : List Slot → Bool → Option Slot × Bool
  | [], havekids => (none,havekids)
  | q::qs, havekids =>
    if t.parent q ≠ some p then childFrom p t qs havekids
    else if t.state q = .zombie then (some q,true)
    else childFrom p t qs true

def reapScan (q : Slot) (t : Table) : Table :=
  { t with
    kstack := update t.kstack q false
    state := update t.state q .unused
    pid := update t.pid q 0
    parent := update t.parent q none
    killed := update t.killed q false }

def sleepScan (p : Slot) (chan : Chan) (t : Table) : Except Fault Table :=
  sched p ({ t with chan := update t.chan p (some chan) }.setState p .sleeping)

def waitScan (p : Slot) (t : Table) : Except Fault (WaitResult × Table) :=
  match childFrom p t (List.finRange NPROC) false with
  | (some q,_) => .ok (.reaped q (t.pid q),reapScan q t)
  | (none,havekids) =>
    if !havekids || t.killed p then .ok (.failed,t) else do
      let t ← sleepScan p (.proc p) t
      return (.slept,t)

def killFrom (pid : Uint) : List Slot → Table → Int × Table
  | [], t => (-1,t)
  | p::ps, t =>
    if t.pid p = pid then
      let t := { t with killed := update t.killed p true }
      (0,if t.state p = .sleeping then t.setState p .runnable else t)
    else killFrom pid ps t

def killScan (pid : Uint) (t : Table) : Int × Table := killFrom pid (List.finRange NPROC) t

def holder (pid : Uint) (t : Table) : Option Slot :=
  (List.finRange NPROC).find? (fun q => t.pid q = pid)

section Formulas

variable {t : Table} {p : Slot} {pid : Uint}

theorem abandonFrom_eq (qs : List Slot) (t : Table) :
    abandonFrom p qs t = { t with
      parent := fun q => if q ∈ qs ∧ t.parent q = some p then t.initproc else t.parent q
      state := fun q =>
        if (∃ z ∈ qs, t.state z = .zombie ∧ t.parent z = some p) ∧ t.state q = .sleeping ∧
          t.chan q = t.initproc.map .proc then .runnable else t.state q } := by
  induction qs generalizing t with
  | nil => simp [abandonFrom]
  | cons a qs ih =>
    rw [abandonFrom, ih]
    clear ih
    by_cases ha : t.parent a = some p
    · simp only [ha, if_true]
      have hpar : ∀ q, (if q ∈ qs ∧ update t.parent a t.initproc q = some p then t.initproc
          else update t.parent a t.initproc q) =
          if q ∈ a::qs ∧ t.parent q = some p then t.initproc else t.parent q := by
        intro q
        by_cases e : q = a
        · subst e
          simp [ha]
        · simp [e]
      by_cases hz : t.state a = .zombie
      · simp only [hz, if_true, wakeup1Scan_eq, Table.mk.injEq, and_true, true_and]
        refine ⟨?_,funext hpar⟩
        have hex : ∃ z ∈ a::qs, t.state z = .zombie ∧ t.parent z = some p :=
          ⟨a,by simp,hz,ha⟩
        funext q
        simp only [hex, true_and]
        by_cases hq : t.state q = .sleeping ∧ t.chan q = t.initproc.map .proc
        · simp [hq]
        · simp only [if_neg hq]
          exact if_neg (fun hh => hq hh.2)
      simp only [hz, if_false, Table.mk.injEq, and_true, true_and]
      refine ⟨?_,funext hpar⟩
      have hex : (∃ z ∈ qs, t.state z = .zombie ∧ update t.parent a t.initproc z = some p) ↔
          ∃ z ∈ a::qs, t.state z = .zombie ∧ t.parent z = some p := by
        constructor
        · rintro ⟨z,h1,h2,h3⟩
          have e : z ≠ a := fun e => hz (e ▸ h2)
          exact ⟨z,by simp [h1],h2,by simpa [e] using h3⟩
        · rintro ⟨z,h1,h2,h3⟩
          have e : z ≠ a := fun e => hz (e ▸ h2)
          exact ⟨z,by simpa [e] using h1,h2,by simpa [e] using h3⟩
      funext q
      simp only [hex]
    · simp only [ha, if_false, Table.mk.injEq, and_true, true_and]
      have hne : ∀ q, t.parent q = some p → q ≠ a := fun q hq e => ha (e ▸ hq)
      constructor
      · funext q
        have hex : (∃ z ∈ a::qs, t.state z = .zombie ∧ t.parent z = some p) ↔
            ∃ z ∈ qs, t.state z = .zombie ∧ t.parent z = some p := by
          simp [ha]
        simp only [hex]
      · funext q
        by_cases hq : t.parent q = some p
        · simp [hq, hne q hq]
        · simp [hq]

theorem childFrom_spec (qs : List Slot) (k : Bool) :
    (∃ q ∈ qs, t.state q = .zombie ∧ t.parent q = some p ∧ childFrom p t qs k = (some q,true)) ∨
    (∀ q ∈ qs, t.state q = .zombie → t.parent q ≠ some p) ∧
      childFrom p t qs k = (none,k || qs.any (fun q => t.parent q = some p)) := by
  induction qs generalizing k with
  | nil => simp [childFrom]
  | cons a qs ih =>
    by_cases ha : t.parent a = some p
    · by_cases hz : t.state a = .zombie
      · exact Or.inl ⟨a,by simp,hz,ha,by simp [childFrom, ha, hz]⟩
      rcases ih true with ⟨q,hq,h1,h2,h3⟩ | ⟨h1,h2⟩
      · exact Or.inl ⟨q,by simp [hq],h1,h2,by simp [childFrom, ha, hz, h3]⟩
      refine Or.inr ⟨fun q hq hs => ?_,by simp [childFrom, ha, hz, h2]⟩
      rcases List.mem_cons.mp hq with rfl | hq
      · exact absurd hs hz
      · exact h1 q hq hs
    · rcases ih k with ⟨q,hq,h1,h2,h3⟩ | ⟨h1,h2⟩
      · exact Or.inl ⟨q,by simp [hq],h1,h2,by simp [childFrom, ha, h3]⟩
      refine Or.inr ⟨fun q hq hs => ?_,by simp [childFrom, ha, h2]⟩
      rcases List.mem_cons.mp hq with rfl | hq
      · exact ha
      · exact h1 q hq hs

theorem killFrom_eq (pid : Uint) (ps : List Slot) :
    killFrom pid ps t = match ps.find? (fun q => t.pid q = pid) with
      | none => (-1,t)
      | some p => (0,{ t with
          killed := update t.killed p true
          state := if t.state p = .sleeping then update t.state p .runnable else t.state }) := by
  induction ps with
  | nil => rfl
  | cons a ps ih =>
    rw [killFrom]
    by_cases ha : t.pid a = pid
    · by_cases hs : t.state a = .sleeping
      · simp [ha, hs, Table.setState]
      · simp [ha, hs]
    · simp [ha, ih]

theorem killScan_none (h : holder pid t = none) : killScan pid t = (-1,t) := by
  rw [killScan, killFrom_eq, ← holder, h]

theorem killScan_some (h : holder pid t = some p) :
    killScan pid t = (0,{ t with
      killed := update t.killed p true
      state := if t.state p = .sleeping then update t.state p .runnable else t.state }) := by
  rw [killScan, killFrom_eq, ← holder, h]

end Formulas

end Yeet.ScanCalls
