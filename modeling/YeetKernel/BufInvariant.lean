import YeetKernel.BufEffect

/-!
# The invariant of the buffer cache

Over an array `A` of block contents: a valid buffer has the contents of its
block, and the disk has them unless a valid buffer that is dirty or not yet
saved is in front of it.
-/

namespace Yeet.BufInvariant
open Kernel DoublyLinked BufCache Function

variable {P D : Type}

def target : Ctl → Option Bufno
  | .testing _ _ b => some b
  | .syncing _ b => some b
  | .waiting _ b => some b
  | _ => none

def Requested (x : Buf D) : Job → Prop
  | .read dev blockno => x.dev = dev ∧ x.blockno = blockno
  | .write => True

def Pending (s : State P D) (b : Bufno) : Job → Prop
  | .read _ _ => (s.buf b).valid = false
  | .write => (s.buf b).dirty = true ∧ s.unsaved b = false

def Fine (s : State P D) (p : P) : Ctl → Prop
  | .idle => True
  | .getting dev _ => Real dev
  | .testing dev blockno b =>
    s.held p b = true ∧ (s.buf b).dev = dev ∧ (s.buf b).blockno = blockno
  | .syncing j b => s.held p b = true ∧ Requested (s.buf b) j ∧ Pending s b j
  | .waiting j b =>
    s.held p b = true ∧ Requested (s.buf b) j ∧ (b ∈ s.idequeue → Pending s b j)

structure Sound (A : Uint → Uint → D) (s : State P D) : Prop where
  ring : ∃ l, Ring s.links l ∧ ∀ b, b ∈ l
  busy : ∀ b, (s.buf b).busy = true ↔ ∃ p, s.held p b = true
  single : ∀ p q b, s.held p b = true → s.held q b = true → p = q
  ctl : ∀ p, Fine s p (s.ctl p)
  unique : ∀ b c, Real (s.buf b).dev → (s.buf b).dev = (s.buf c).dev →
    (s.buf b).blockno = (s.buf c).blockno → b = c
  live : ∀ b, (s.buf b).busy = true ∨ (s.buf b).valid = true → Real (s.buf b).dev
  ready : ∀ p b, s.held p b = true → target (s.ctl p) ≠ some b → (s.buf b).valid = true
  pinned : ∀ b, (s.buf b).dirty = true → (s.buf b).valid = true
  unsaved : ∀ b, s.unsaved b = true → (s.buf b).busy = true
  queued : ∀ b ∈ s.idequeue, ∃ p j, s.ctl p = .waiting j b
  nodup : s.idequeue.Nodup
  active : ∀ b, s.idequeue.head? = some b → (s.buf b).dirty = true →
    s.disk (s.buf b).dev (s.buf b).blockno = (s.buf b).data
  data : ∀ b, (s.buf b).valid = true → (s.buf b).data = A (s.buf b).dev (s.buf b).blockno
  disk : ∀ d n, Real d → (∀ b, (s.buf b).dev = d → (s.buf b).blockno = n →
    (s.buf b).valid = true → (s.buf b).dirty = false ∧ s.unsaved b = false) → s.disk d n = A d n

section Facts

variable {A : Uint → Uint → D} {s s' : State P D} {p q : P} {b : Bufno} {k : Ctl}

theorem Fine.held (h : Fine s p k) (hb : target k = some b) : s.held p b = true := by
  cases k <;> simp only [target, Option.some.injEq, reduceCtorEq] at hb
  all_goals
    subst hb
    exact h.1

theorem Fine.frame (h : Fine s q k) (hheld : s'.held q = s.held q)
    (hbuf : ∀ c, target k = some c → s'.buf c = s.buf c ∧ s'.unsaved c = s.unsaved c)
    (hqueue : ∀ c, target k = some c → c ∈ s'.idequeue → c ∈ s.idequeue) : Fine s' q k := by
  cases k with
  | idle => trivial
  | getting d n => exact h
  | testing d n c =>
    obtain ⟨h1,-⟩ := hbuf c rfl
    simpa only [Fine, hheld, h1] using h
  | syncing j c =>
    obtain ⟨h1,h2⟩ := hbuf c rfl
    cases j <;> simpa only [Fine, Pending, hheld, h1, h2] using h
  | waiting j c =>
    obtain ⟨h1,h2⟩ := hbuf c rfl
    obtain ⟨h3,h4,h5⟩ := h
    refine ⟨by rw [hheld, h3],by rw [h1]; exact h4,fun hc => ?_⟩
    have := h5 (hqueue c rfl hc)
    cases j <;> simpa only [Pending, h1, h2] using this

theorem Sound.mine (h : Sound A s) (hb : target (s.ctl p) = some b) : s.held p b = true :=
  (h.ctl p).held hb

theorem Sound.queue_owner (h : Sound A s) (hb : b ∈ s.idequeue) (hp : s.held p b = true) :
    ∃ j, s.ctl p = .waiting j b := by
  obtain ⟨q,j,hq⟩ := h.queued b hb
  have hqb : s.held q b = true := h.mine (by rw [hq]; rfl)
  obtain rfl := h.single p q b hp hqb
  exact ⟨j,hq⟩

theorem Sound.real_of_held (h : Sound A s) (hp : s.held p b = true) : Real (s.buf b).dev :=
  h.live b (Or.inl ((h.busy b).mpr ⟨p,hp⟩))

theorem Sound.all_valid (h : Sound A s) (ht : target (s.ctl p) = some b)
    (hv : (s.buf b).valid = true) {c : Bufno} (hc : s.held p c = true) :
    (s.buf c).valid = true := by
  by_cases e : c = b
  · rw [e, hv]
  · exact h.ready p c hc (fun hx => e (Option.some.inj (hx.symm.trans ht)))

end Facts

section Moves

variable [DecidableEq P] {A : Uint → Uint → D} {s s' : State P D} {p : P} {b : Bufno} {k : Ctl}

theorem Sound.goto (h : Sound A s) (hk : Fine s p k)
    (hready : ∀ c, s.held p c = true → target k ≠ some c → (s.buf c).valid = true)
    (hq : ∀ c j, s.ctl p = .waiting j c → c ∉ s.idequeue) : Sound A (s.goto p k) := by
  refine { h with ctl := ?_, ready := ?_, queued := ?_ }
  · intro q
    by_cases e : q = p
    · subst e
      simp only [State.goto, update_self]
      exact hk.frame rfl (fun _ _ => ⟨rfl,rfl⟩) (fun _ _ hc => hc)
    · simp only [State.goto, update_of_ne e]
      exact (h.ctl q).frame rfl (fun _ _ => ⟨rfl,rfl⟩) (fun _ _ hc => hc)
  · intro q c hc ht
    by_cases e : q = p
    · subst e
      simp only [State.goto, update_self] at ht
      exact hready c hc ht
    · simp only [State.goto, update_of_ne e] at ht
      exact h.ready q c hc ht
  · intro c hc
    obtain ⟨q,j,hj⟩ := h.queued c hc
    have e : q ≠ p := fun e => hq c j (e ▸ hj) hc
    exact ⟨q,j,by simp only [State.goto, update_of_ne e, hj]⟩

omit [DecidableEq P] in
theorem setBuf_field {γ : Type} (f : Buf D → γ) {y : Buf D} (hf : f y = f (s.buf b)) (c : Bufno) :
    f ((s.setBuf b y).buf c) = f (s.buf c) := by
  show f (update s.buf b y c) = f (s.buf c)
  by_cases e : c = b
  · rw [e, update_self, hf]
  · rw [update_of_ne e]

omit [DecidableEq P] in
theorem Sound.not_held (h : Sound A s) (hb : (s.buf b).busy = false) (q : P) :
    s.held q b = false := by
  by_contra hq
  have := (h.busy b).mpr ⟨q,by simpa using hq⟩
  rw [hb] at this
  cases this

theorem Sound.give (h : Sound A s) {x : Buf D} {dev blockno : Uint}
    (hc : s.ctl p = .getting dev blockno) (hb : (s.buf b).busy = false) (hx : x.busy = true)
    (hdev : x.dev = dev) (hbno : x.blockno = blockno) (hpin : x.dirty = true → x.valid = true)
    (hother : ∀ c, c ≠ b → (s.buf c).dev = dev → (s.buf c).blockno ≠ blockno)
    (hdata : x.valid = true → x.data = A dev blockno)
    (hdisk : ∀ d n, Real d → (∀ c, (update s.buf b x c).dev = d →
      (update s.buf b x c).blockno = n → (update s.buf b x c).valid = true →
      (update s.buf b x c).dirty = false ∧ s.unsaved c = false) → s.disk d n = A d n) :
    Sound A (s.give p dev blockno b x) := by
  have hfree := h.not_held hb
  have hreal : Real dev := by
    have := h.ctl p
    rwa [hc] at this
  have htarget : ∀ q, target (s.ctl q) ≠ some b := by
    intro q hq
    have := h.mine hq
    rw [hfree q] at this
    cases this
  have hout : b ∉ s.idequeue := by
    intro hm
    obtain ⟨q,j,hq⟩ := h.queued b hm
    exact htarget q (by rw [hq]; rfl)
  have hheld : ∀ q c, (s.give p dev blockno b x).held q c = true ↔
      s.held q c = true ∨ q = p ∧ c = b := by
    intro q c
    by_cases e : q = p
    · subst e
      by_cases ec : c = b <;> simp [State.give, ec]
    · simp [State.give, e]
  refine { h with
    busy := ?_, single := ?_, ctl := ?_, unique := ?_, live := ?_, ready := ?_, pinned := ?_
    unsaved := ?_, queued := ?_, active := ?_, data := ?_, disk := hdisk }
  · intro c
    simp only [hheld]
    by_cases e : c = b
    · simp [State.give, e, hx]
    · simp [State.give, e, h.busy c]
  · intro q r c hq hr
    rw [hheld] at hq hr
    rcases hq with hq | ⟨rfl,hq⟩ <;> rcases hr with hr | ⟨rfl,hr⟩
    · exact h.single q r c hq hr
    · rw [hr, hfree q] at hq
      cases hq
    · rw [hq, hfree r] at hr
      cases hr
    · rfl
  · intro q
    by_cases e : q = p
    · subst e
      simp [State.give, Fine, hdev, hbno]
    have : (s.give p dev blockno b x).ctl q = s.ctl q := by simp [State.give, e]
    rw [this]
    refine (h.ctl q).frame (by simp [State.give, e]) (fun c hq => ⟨?_,rfl⟩) (fun _ _ hq => hq)
    have ec : c ≠ b := fun ec => htarget q (ec ▸ hq)
    simp [State.give, ec]
  · intro c c' hr hd hn
    by_cases e : c = b <;> by_cases e' : c' = b
    · rw [e, e']
    · simp only [State.give, e, update_self, update_of_ne e', hdev, hbno] at hd hn
      exact absurd hn.symm (hother c' e' hd.symm)
    · simp only [State.give, e', update_self, update_of_ne e, hdev, hbno] at hd hn
      exact absurd hn (hother c e hd)
    · simp only [State.give, update_of_ne e, update_of_ne e'] at hr hd hn
      exact h.unique c c' hr hd hn
  · intro c hl
    by_cases e : c = b
    · simpa [State.give, e, hdev] using hreal
    · simp only [State.give, update_of_ne e] at hl ⊢
      exact h.live c hl
  · intro q c hq ht
    rw [hheld] at hq
    have ec : c ≠ b := by
      rintro rfl
      rcases hq with hq | ⟨rfl,-⟩
      · rw [hfree q] at hq
        cases hq
      · simp [State.give, target] at ht
    have hq : s.held q c = true := hq.resolve_right (fun hr => ec hr.2)
    simp only [State.give, update_of_ne ec]
    refine h.ready q c hq ?_
    by_cases e : q = p
    · rw [e, hc]
      simp [target]
    · simpa [State.give, e] using ht
  · intro c hd
    by_cases e : c = b
    · simp only [State.give, e, update_self] at hd ⊢
      exact hpin hd
    · simp only [State.give, update_of_ne e] at hd ⊢
      exact h.pinned c hd
  · intro c hu
    by_cases e : c = b
    · simp [State.give, e, hx]
    · simp only [State.give, update_of_ne e]
      exact h.unsaved c hu
  · intro c hq
    obtain ⟨q,j,hj⟩ := h.queued c hq
    have e : q ≠ p := by
      rintro rfl
      rw [hc] at hj
      cases hj
    exact ⟨q,j,by simp [State.give, e, hj]⟩
  · intro c hq hd
    have e : c ≠ b := fun e => hout (e ▸ List.mem_of_head? hq)
    simp only [State.give, update_of_ne e] at hd ⊢
    exact h.active c hq hd
  intro c hv
  by_cases e : c = b
  · simp only [State.give, e, update_self, hdev, hbno] at hv ⊢
    exact hdata hv
  · simp only [State.give, update_of_ne e] at hv ⊢
    exact h.data c hv

omit [DecidableEq P] in
theorem Sound.rewrite (h : Sound A s) {B : Uint → Uint → D} (hbuf : ∀ c, c ≠ b → s'.buf c = s.buf c)
    (hdev : ∀ c, (s'.buf c).dev = (s.buf c).dev)
    (hbno : ∀ c, (s'.buf c).blockno = (s.buf c).blockno) (hreal : Real (s.buf b).dev)
    (hv : (s'.buf b).valid = true) (hdata : (s'.buf b).data = B (s.buf b).dev (s.buf b).blockno)
    (hA : ∀ c, c ≠ b → (s.buf c).valid = true →
      B (s.buf c).dev (s.buf c).blockno = A (s.buf c).dev (s.buf c).blockno)
    (hctl : s'.ctl = s.ctl) (hheld : ∀ q c, s'.held q c = true → s.held q c = true)
    (ring : ∃ l, Ring s'.links l ∧ ∀ b, b ∈ l)
    (busy : ∀ c, (s'.buf c).busy = true ↔ ∃ q, s'.held q c = true)
    (ctl : ∀ q, Fine s' q (s.ctl q)) (unsaved : ∀ c, s'.unsaved c = true → (s'.buf c).busy = true)
    (queued : ∀ c ∈ s'.idequeue, c ∈ s.idequeue) (nodup : s'.idequeue.Nodup)
    (active : ∀ c, s'.idequeue.head? = some c → (s'.buf c).dirty = true →
      s'.disk (s'.buf c).dev (s'.buf c).blockno = (s'.buf c).data)
    (disk : ∀ d n, Real d → (∀ c, (s.buf c).dev = d → (s.buf c).blockno = n →
      (s'.buf c).valid = true → (s'.buf c).dirty = false ∧ s'.unsaved c = false) →
      s'.disk d n = B d n) : Sound B s' := by
  refine ⟨ring,busy,fun q r c hq hr => h.single q r c (hheld q c hq) (hheld r c hr),?_,?_,?_,?_,?_,
    unsaved,fun c hc => ?_,nodup,active,?_,?_⟩
  · rw [hctl]
    exact ctl
  · intro c c' hr h1 h2
    simp only [hdev, hbno] at hr h1 h2
    exact h.unique c c' hr h1 h2
  · intro c hl
    rw [hdev]
    by_cases e : c = b
    · rw [e]
      exact hreal
    · rw [hbuf c e] at hl
      exact h.live c hl
  · intro q c hq ht
    by_cases e : c = b
    · rw [e, hv]
    · rw [hbuf c e]
      exact h.ready q c (hheld q c hq) (by rwa [hctl] at ht)
  · intro c hdirty
    by_cases e : c = b
    · rw [e, hv]
    · rw [hbuf c e] at hdirty ⊢
      exact h.pinned c hdirty
  · rw [hctl]
    exact h.queued c (queued c hc)
  · intro c hvc
    rw [hdev, hbno]
    by_cases e : c = b
    · rw [e, hdata]
    · rw [hbuf c e] at hvc ⊢
      rw [h.data c hvc, hA c e hvc]
  · intro d n hr hclean
    simp only [hdev, hbno] at hclean
    exact disk d n hr hclean

omit [DecidableEq P] in
theorem Sound.touch (h : Sound A s) {B : Uint → Uint → D} {y : Buf D} {u : Bool}
    (hc : s.ctl p = .idle) (hh : s.held p b = true) (hbusy : y.busy = (s.buf b).busy)
    (hvalid : y.valid = (s.buf b).valid) (hdev : y.dev = (s.buf b).dev)
    (hbno : y.blockno = (s.buf b).blockno) (hset : y.dirty = true ∨ u = true)
    (hA : ∀ d n, ¬ (d = (s.buf b).dev ∧ n = (s.buf b).blockno) → B d n = A d n)
    (hdata : y.data = B (s.buf b).dev (s.buf b).blockno) :
    Sound B { s.setBuf b y with unsaved := update s.unsaved b u } := by
  have hnone : target (s.ctl p) ≠ some b := by
    rw [hc]
    simp [target]
  have hv : (s.buf b).valid = true := h.ready p b hh hnone
  have htarget : ∀ q, target (s.ctl q) ≠ some b := by
    intro q hq
    obtain rfl := h.single p q b hh (h.mine hq)
    exact hnone hq
  have hout : b ∉ s.idequeue := by
    intro hm
    obtain ⟨q,j,hq⟩ := h.queued b hm
    exact htarget q (by rw [hq]; rfl)
  have hbuf : ∀ c, c ≠ b → (s.setBuf b y).buf c = s.buf c := fun c e => update_of_ne e _ _
  have hself : (s.setBuf b y).buf b = y := update_self ..
  have hb := setBuf_field (s := s) Buf.busy hbusy
  refine h.rewrite (b := b) hbuf (setBuf_field Buf.dev hdev) (setBuf_field Buf.blockno hbno)
    (h.real_of_held hh) ?_ ?_ (fun c e hc => hA _ _ (fun hx => ?_)) rfl (fun _ _ hq => hq) h.ring
    (fun c => (iff_of_eq (congrArg (· = true) (hb c))).trans (h.busy c)) (fun q => ?_) (fun c hu => ?_)
    (fun _ hc => hc) h.nodup (fun c hq hdirty => ?_) (fun d n hr hclean => ?_)
  · simp only [hself, hvalid, hv]
  · simp only [hself, hdata]
  · exact e (h.unique c b (h.live c (Or.inr hc)) hx.1 hx.2)
  · refine (h.ctl q).frame rfl (fun c hq => ?_) (fun _ _ hq => hq)
    have e : c ≠ b := fun e => htarget q (e ▸ hq)
    exact ⟨hbuf c e,update_of_ne e _ _⟩
  · simp only [hb]
    by_cases e : c = b
    · rw [e]
      exact (h.busy b).mpr ⟨p,hh⟩
    · simp only [update_of_ne e] at hu
      exact h.unsaved c hu
  · have e : c ≠ b := fun e => hout (e ▸ List.mem_of_head? hq)
    simp only [hbuf c e] at hdirty ⊢
    exact h.active c hq hdirty
  by_cases hx : d = (s.buf b).dev ∧ n = (s.buf b).blockno
  · have := hclean b hx.1.symm hx.2.symm (by simp only [hself, hvalid, hv])
    simp only [hself, update_self] at this
    rcases hset with hs | hs
    · rw [hs] at this
      cases this.1
    · rw [hs] at this
      cases this.2
  · rw [hA d n hx]
    refine h.disk d n hr (fun c h1 h2 h3 => ?_)
    have e : c ≠ b := by
      rintro rfl
      exact hx ⟨h1.symm,h2.symm⟩
    simpa only [hbuf c e, update_of_ne e] using hclean c h1 h2 (by simpa only [hbuf c e] using h3)

theorem Sound.release (h : Sound A s) (hc : s.ctl p = .idle) (hh : s.held p b = true)
    (hu : s.unsaved b = false) :
    Sound A { s.setBuf b { s.buf b with busy := false } with
      links := (s.links.unlink b).pushFront b
      held := update s.held p (update (s.held p) b false) } := by
  have hfield : ∀ {γ : Type} (f : Buf D → γ), f { s.buf b with busy := false } = f (s.buf b) →
      ∀ c, f ((s.setBuf b { s.buf b with busy := false }).buf c) = f (s.buf c) :=
    fun f hf => setBuf_field f hf
  have hd := hfield Buf.dev rfl
  have hn := hfield Buf.blockno rfl
  have hv := hfield Buf.valid rfl
  have hdy := hfield Buf.dirty rfl
  have hda := hfield Buf.data rfl
  have hbuf : ∀ c, c ≠ b → (s.setBuf b { s.buf b with busy := false }).buf c = s.buf c :=
    fun c e => update_of_ne e _ _
  have hheld : ∀ q c, update s.held p (update (s.held p) b false) q c = true ↔
      s.held q c = true ∧ c ≠ b := by
    intro q c
    by_cases e : q = p
    · subst e
      by_cases ec : c = b <;> simp [ec]
    by_cases ec : c = b
    · simp only [update_of_ne e, ec, ne_eq, not_true_eq_false, and_false, iff_false]
      intro hq
      exact e (h.single q p b hq hh)
    · simp [e, ec]
  have htarget : ∀ q, target (s.ctl q) ≠ some b := by
    intro q hq
    obtain rfl := h.single p q b hh (h.mine hq)
    rw [hc] at hq
    cases hq
  have hvb := h.ready p b hh (htarget p)
  refine h.rewrite (b := b) hbuf hd hn (h.real_of_held hh) ((hv b).trans hvb)
    ((hda b).trans (h.data b hvb)) (fun _ _ _ => rfl) rfl (fun q c hq => ((hheld q c).mp hq).1) ?_
    (fun c => ?_) (fun q => ?_) (fun c huc => ?_) (fun _ hc => hc) h.nodup
    (fun c hq hdirty => ?_) (fun d n hr hclean => ?_)
  · obtain ⟨l,hl,hall⟩ := h.ring
    obtain ⟨m,r,rfl⟩ := List.append_of_mem (hall b)
    have hbm : b ∉ m++r := (List.nodup_middle.mp hl.nodup).notMem
    refine ⟨b::(m++r),hl.unlink.pushFront hbm,fun c => ?_⟩
    have := hall c
    simp only [List.mem_append, List.mem_cons] at this ⊢
    tauto
  · simp only [hheld]
    by_cases e : c = b
    · simp [State.setBuf, e]
    · simp [hbuf c e, h.busy c, e]
  · by_cases e : q = p
    · subst e
      rw [hc]
      trivial
    · refine (h.ctl q).frame (update_of_ne e _ _) (fun c hq => ⟨hbuf c ?_,rfl⟩) (fun _ _ hq => hq)
      exact fun ec => htarget q (ec ▸ hq)
  · have e : c ≠ b := by
      rintro rfl
      rw [show s.unsaved c = true from huc] at hu
      cases hu
    simp only [hbuf c e]
    exact h.unsaved c huc
  · simp only [hd, hn, hdy, hda] at hdirty ⊢
    exact h.active c hq hdirty
  · simp only [hv, hdy] at hclean
    exact h.disk d n hr hclean

end Moves

end Yeet.BufInvariant
