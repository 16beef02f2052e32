import YeetKernel.BufInvariant

/-!
# The buffer cache is a block array

The driver brings buffers and disk together, and with that every action keeps
the invariant, with the array changed where data are modified.
-/

namespace Yeet.BufArray
open Kernel DoublyLinked BufCache BufEffect BufInvariant Function

variable {P D : Type} [DecidableEq P]

section Disk

variable {A d : Uint → Uint → D} {s : State P D} {p : P} {b : Bufno}

/-- The disk differs from the one in `s` only where it now has the contents of
the array. -/
def Refreshed (A : Uint → Uint → D) (s : State P D) (d : Uint → Uint → D) : Prop :=
  ∀ dev n, Real dev → d dev n = s.disk dev n ∨ d dev n = A dev n

omit [DecidableEq P] in
theorem started_refreshed (h : Sound A s) : Refreshed A s (started s b) := by
  intro dev n hr
  unfold started
  split
  · rename_i hd
    have hv := h.pinned b hd
    rw [show (s.buf b).dev &&& 1 = (s.buf b).dev from h.live b (Or.inr hv), h.data b hv]
    by_cases e : dev = (s.buf b).dev
    · by_cases en : n = (s.buf b).blockno
      · exact Or.inr (by simp [e, en])
      · exact Or.inl (by simp [e, en])
    · exact Or.inl (by simp [e])
  · exact Or.inl rfl

omit [DecidableEq P] in
theorem started_active (h : Sound A s) (hd : (s.buf b).dirty = true) :
    started s b (s.buf b).dev (s.buf b).blockno = (s.buf b).data := by
  have hr : (s.buf b).dev &&& 1 = (s.buf b).dev := h.live b (Or.inr (h.pinned b hd))
  rw [started, if_pos hd, hr, update_self, update_self]

theorem enqueue_sound (h : Sound A s) {j : Job} (hc : s.ctl p = .syncing j b) (hd : Refreshed A s d)
    (hact : ∀ c, (s.idequeue++[b]).head? = some c → (s.buf c).dirty = true →
      d (s.buf c).dev (s.buf c).blockno = (s.buf c).data) :
    Sound A { s.goto p (.waiting j b) with idequeue := s.idequeue++[b], disk := d } := by
  have hb : b ∉ s.idequeue := by
    intro hm
    obtain ⟨i,hi⟩ := h.queue_owner hm (h.mine (p := p) (by rw [hc]; rfl))
    rw [hc] at hi
    cases hi
  have hf := h.ctl p
  rw [hc] at hf
  refine { h with
    ctl := ?_, ready := ?_, queued := ?_, nodup := ?_, active := hact, disk := ?_ }
  · intro q
    by_cases e : q = p
    · subst e
      simp only [State.goto, update_self]
      refine ⟨hf.1,hf.2.1,fun _ => ?_⟩
      have := hf.2.2
      cases j <;> exact this
    simp only [State.goto, update_of_ne e]
    refine (h.ctl q).frame rfl (fun _ _ => ⟨rfl,rfl⟩) (fun c hq hm => ?_)
    rcases List.mem_append.mp hm with hm | hm
    · exact hm
    · rw [List.mem_singleton.mp hm] at hq
      exact absurd (h.single q p b (h.mine hq) hf.1) e
  · intro q c hq ht
    by_cases e : q = p
    · subst e
      refine h.ready q c hq ?_
      simpa [State.goto, hc, target] using ht
    · simp only [State.goto, update_of_ne e] at ht
      exact h.ready q c hq ht
  · intro c hm
    rcases List.mem_append.mp hm with hm | hm
    · obtain ⟨q,i,hq⟩ := h.queued c hm
      have e : q ≠ p := by
        rintro rfl
        rw [hc] at hq
        cases hq
      exact ⟨q,i,by simp [State.goto, e, hq]⟩
    · exact ⟨p,j,by simp [State.goto, List.mem_singleton.mp hm]⟩
  · rw [List.nodup_append]
    exact ⟨h.nodup,List.nodup_singleton b,fun c hm c' hm' e =>
      hb (List.mem_singleton.mp hm' ▸ e ▸ hm)⟩
  intro dev n hr hclean
  rcases hd dev n hr with e | e
  · exact e.trans (h.disk dev n hr hclean)
  · exact e

theorem serve_sound (h : Sound A s) {rest : List Bufno} (hq : s.idequeue = b::rest)
    (hd : Refreshed A s d) (hact : ∀ c, rest.head? = some c → (s.buf c).dirty = true →
      d (s.buf c).dev (s.buf c).blockno = (s.buf c).data) :
    Sound A { serve s b rest with disk := d } := by
  have hmem : b ∈ s.idequeue := by simp [hq]
  have hnod := h.nodup
  rw [hq] at hnod
  obtain ⟨hbr,hrest⟩ := List.nodup_cons.mp hnod
  obtain ⟨p,j,hp⟩ := h.queued b hmem
  have hf := h.ctl p
  rw [hp] at hf
  have hreal := h.real_of_held hf.1
  have hbuf : ∀ c, c ≠ b → (serve s b rest).buf c = s.buf c :=
    fun c e => update_of_ne e _ _
  have hself : (serve s b rest).buf b = served s b := update_self ..
  have hdisk : s.disk (s.buf b).dev (s.buf b).blockno = A (s.buf b).dev (s.buf b).blockno := by
    cases hdirty : (s.buf b).dirty with
    | true => rw [h.active b (by simp [hq]) hdirty, h.data b (h.pinned b hdirty)]
    | false =>
      refine h.disk _ _ hreal (fun c h1 h2 hv => ?_)
      obtain rfl := h.unique b c hreal h1.symm h2.symm
      have := hf.2.2 hmem
      cases j with
      | read dev blockno =>
        rw [show (s.buf b).valid = false from this] at hv
        cases hv
      | write =>
        rw [this.1] at hdirty
        cases hdirty
  have hdata : (served s b).data = A (s.buf b).dev (s.buf b).blockno := by
    unfold served
    split
    · rename_i hdirty
      exact h.data b (h.pinned b hdirty)
    · rw [show (s.buf b).dev &&& 1 = (s.buf b).dev from hreal, hdisk]
  have hdev : ∀ c, ((serve s b rest).buf c).dev = (s.buf c).dev :=
    setBuf_field (s := s) Buf.dev rfl
  have hbno : ∀ c, ((serve s b rest).buf c).blockno = (s.buf c).blockno :=
    setBuf_field (s := s) Buf.blockno rfl
  have hbusy : ∀ c, ((serve s b rest).buf c).busy = (s.buf c).busy :=
    setBuf_field (s := s) Buf.busy rfl
  refine h.rewrite (b := b) hbuf hdev hbno hreal ?_ ?_ (fun _ _ _ => rfl) rfl (fun _ _ hc => hc) h.ring
    (fun c => (iff_of_eq (congrArg (· = true) (hbusy c))).trans (h.busy c)) (fun q => ?_)
    (fun c hu => (hbusy c).trans (h.unsaved c hu))
    (fun c hm => by rw [hq]; exact List.mem_cons_of_mem b hm) hrest (fun c hc hdirty => ?_)
    (fun dev n hr hclean => ?_)
  · simp only [hself, served]
  · simp only [hself, hdata]
  · by_cases e : q = p
    · subst e
      rw [hp]
      refine ⟨hf.1,?_,fun hm => absurd hm hbr⟩
      cases j with
      | read dev blockno => exact ⟨(hdev b).trans hf.2.1.1,(hbno b).trans hf.2.1.2⟩
      | write => trivial
    · refine (h.ctl q).frame rfl (fun c hc => ⟨hbuf c ?_,rfl⟩) (fun c _ hm => ?_)
      · rintro rfl
        exact e (h.single q p c (h.mine hc) hf.1)
      · rw [hq]
        exact List.mem_cons_of_mem b hm
  · have e : c ≠ b := fun e => hbr (e ▸ List.mem_of_head? hc)
    simp only [hbuf c e] at hdirty ⊢
    exact hact c hc hdirty
  rcases hd dev n hr with e | e
  · refine e.trans ?_
    by_cases hx : (s.buf b).dev = dev ∧ (s.buf b).blockno = n
    · rw [← hx.1, ← hx.2, hdisk]
    refine h.disk dev n hr (fun c h1 h2 hv => ?_)
    have ec : c ≠ b := fun ec => hx (ec ▸ ⟨h1,h2⟩)
    rw [← hbuf c ec] at hv ⊢
    exact hclean c h1 h2 hv
  · exact e

end Disk

section Step

variable {A : Uint → Uint → D} {s s' : State P D} {e : Event P D}

theorem effect_sound (h : Sound A s) (he : Effect s s' e) : Sound (note A e) s' := by
  cases he with
  | asked p dev blockno hc hreal =>
    refine h.goto hreal (fun c hh _ => h.ready p c hh ?_) (fun c j hj => ?_)
    · rw [hc]
      simp [target]
    · rw [hc] at hj
      cases hj
  | slept p => exact h
  | spurious => exact h
  | found p b hc hb =>
    have hreal : Real (s.buf b).dev := by
      have := h.ctl p
      rwa [hc] at this
    refine h.give hc hb rfl rfl rfl (h.pinned b) (fun c hcb hd hn => ?_) (h.data b)
      (fun d n hr hclean => h.disk d n hr (fun c h1 h2 h3 => ?_))
    · exact hcb (h.unique b c hreal hd.symm hn.symm).symm
    by_cases e : c = b
    · subst e
      simpa using hclean c (by simpa using h1) (by simpa using h2) (by simpa using h3)
    · simpa [e] using hclean c (by simpa [e] using h1) (by simpa [e] using h2)
        (by simpa [e] using h3)
  | recycled p dev blockno b hc hnone hb hd =>
    refine h.give hc hb rfl rfl rfl (by simp) (fun c _ => hnone c) (by simp)
      (fun d n hr hclean => h.disk d n hr (fun c h1 h2 h3 => ?_))
    by_cases e : c = b
    · subst e
      refine ⟨hd,?_⟩
      by_contra hu
      have := h.unsaved c (by simpa using hu)
      rw [hb] at this
      cases this
    · simpa [e] using hclean c (by simpa [e] using h1) (by simpa [e] using h2)
        (by simpa [e] using h3)
  | hit p dev blockno b hc hv =>
    refine h.goto trivial (fun c hh _ => h.all_valid (by rw [hc]; rfl) hv hh) (fun c j hj => ?_)
    rw [hc] at hj
    cases hj
  | missed p dev blockno b hc hv =>
    have hf := h.ctl p
    rw [hc] at hf
    refine h.goto ⟨hf.1,hf.2,hv⟩ (fun c hh ht => h.ready p c hh ?_) (fun c j hj => ?_)
    · simpa [hc, target] using ht
    · rw [hc] at hj
      cases hj
  | started p j b hc hq =>
    have := enqueue_sound h hc (started_refreshed (b := b) h) (fun c hh hdirty => ?_)
    · rwa [hq] at this
    · obtain rfl : b = c := by simpa [hq] using hh
      exact started_active h hdirty
  | queued p j b hc hq =>
    refine enqueue_sound h hc (fun _ _ _ => Or.inl rfl) (fun c hh hdirty => h.active c ?_ hdirty)
    rwa [List.head?_append_of_ne_nil _ hq] at hh
  | last b hq => exact serve_sound h hq (fun _ _ _ => Or.inl rfl) (fun c hc => by cases hc)
  | next b c rest hq =>
    have hcb : c ≠ b := by
      have := h.nodup
      rw [hq] at this
      exact fun e => (List.nodup_cons.mp this).1 (by simp [e])
    have hst : started (serve s b (c::rest)) c = started s c := by
      simp [started, serve, hcb]
    rw [hst]
    refine serve_sound h hq (started_refreshed h) (fun c' hc' hdirty => ?_)
    obtain rfl : c = c' := by simpa using hc'
    exact started_active h hdirty
  | read p dev blockno b hc hv hd =>
    refine h.goto trivial (fun c hh _ => h.all_valid (by rw [hc]; rfl) hv hh) (fun c j hj hm => ?_)
    have hf := h.ctl p
    rw [hc] at hf hj
    cases hj
    have := hf.2.2 hm
    rw [show (s.buf b).valid = false from this] at hv
    cases hv
  | written p b hc hv hd =>
    refine h.goto trivial (fun c hh _ => h.all_valid (by rw [hc]; rfl) hv hh) (fun c j hj hm => ?_)
    have hf := h.ctl p
    rw [hc] at hf hj
    cases hj
    have := hf.2.2 hm
    rw [this.1] at hd
    cases hd
  | modified p b x hc hh =>
    refine h.touch hc hh rfl rfl rfl rfl (Or.inr rfl) (fun d n hx => ?_) ?_
    · simp only [note]
      by_cases e : d = (s.buf b).dev
      · have en : n ≠ (s.buf b).blockno := fun en => hx ⟨e,en⟩
        simp [e, en]
      · simp [e]
    · simp [note]
  | bwrite p b hc hh =>
    have hv : (s.buf b).valid = true := h.ready p b hh (by simp [hc, target])
    have h' := h.touch (B := A) (y := { s.buf b with dirty := true }) (u := false) hc hh rfl rfl
      rfl rfl (Or.inl rfl) (fun _ _ _ => rfl) (h.data b hv)
    refine h'.goto (p := p) (k := .syncing .write b) ⟨hh,trivial,?_⟩ (fun c hh' _ => ?_)
      (fun c j hj => ?_)
    · simp [Pending, State.setBuf]
    · exact h'.ready p c hh' (by simp [State.setBuf, hc, target])
    · simp [State.setBuf, hc] at hj
  | logged p b hc hh =>
    have hv : (s.buf b).valid = true := h.ready p b hh (by simp [hc, target])
    exact h.touch hc hh rfl rfl rfl rfl (Or.inl rfl) (fun _ _ _ => rfl) (h.data b hv)
  | released p b hc hh hu => exact h.release hc hh hu

end Step

theorem binit_ring (bs : List Bufno) (r : Links Bufno) (l : List Bufno) (hr : Ring r l)
    (hn : bs.Nodup) (hd : ∀ b ∈ bs, b ∉ l) : Ring (bs.foldl Links.pushFront r) (bs.reverse++l) := by
  induction bs generalizing r l with
  | nil => exact hr
  | cons b bs ih =>
    obtain ⟨hb,hn⟩ := List.nodup_cons.mp hn
    have := ih (r.pushFront b) (b::l) (hr.pushFront (hd b (by simp))) hn (fun c hc hm => ?_)
    · simpa using this
    · rcases List.mem_cons.mp hm with rfl | hm
      · exact hb hc
      · exact hd c (List.mem_cons_of_mem b hc) hm

omit [DecidableEq P] in
theorem initial_sound (havedisk1 : Bool) (disk : Uint → Uint → D) (zero : D) :
    Sound disk (initial P havedisk1 disk zero) := by
  have hreal : ¬ Real (-1) := by decide
  refine ⟨⟨_,binit_ring _ _ _ empty_ring (List.nodup_finRange NBUF) (by simp),by simp⟩,?_,?_,?_,
    fun b c hr => absurd hr hreal,?_,?_,?_,?_,?_,?_,?_,?_,?_⟩ <;> simp [initial, Fine]

theorem sound_effect {A : Uint → Uint → D} {s s' : State P D} {a : Action P D} {e : Event P D}
    (h : Sound A s) (hx : exec s a = some (.ok (s',e))) : Effect s s' e := by
  obtain ⟨l,hl,hall⟩ := h.ring
  refine exec_effect hl hall (fun p j b hc hm => ?_) hx
  obtain ⟨i,hi⟩ := h.queue_owner hm (h.mine (p := p) (by rw [hc]; rfl))
  rw [hc] at hi
  cases hi

theorem run_sound {havedisk1 : Bool} {disk : Uint → Uint → D} {zero : D}
    {h : List (Action P D × Event P D)} {s : State P D}
    (hr : Run (initial P havedisk1 disk zero) h s) : Sound (array disk h) s := by
  refine hr.invariant (fun h s => Sound (array disk h) s) (initial_sound havedisk1 disk zero) ?_
  intro h s a s' e hs hx
  rw [array_snoc]
  exact effect_sound hs (sound_effect hs hx)

structure BlockArray (disk : Uint → Uint → D) (h : List (Action P D × Event P D))
    (s : State P D) : Prop where
  latest : ∀ a s' p b dev blockno x, exec s a = some (.ok (s',.returned p b dev blockno x)) →
    x = array disk h dev blockno ∧ s'.held p b = true ∧ (s'.buf b).data = x ∧
      (s'.buf b).dev = dev ∧ (s'.buf b).blockno = blockno
  unique : ∀ b c, Real (s.buf b).dev → (s.buf b).dev = (s.buf c).dev →
    (s.buf b).blockno = (s.buf c).blockno → b = c
  single : ∀ p q b, s.held p b = true → s.held q b = true → p = q
  busy : ∀ b, (s.buf b).busy = true ↔ ∃ p, s.held p b = true
  pinned : ∀ a s' e b, exec s a = some (.ok (s',e)) → (s.buf b).dirty = true →
    (s'.buf b).dev = (s.buf b).dev ∧ (s'.buf b).blockno = (s.buf b).blockno ∧
      (s'.buf b).valid = true
  ring : ∃ l, Ring s.links l ∧ ∀ b, b ∈ l

section Array

variable {A : Uint → Uint → D} {s s' : State P D} {e : Event P D} {b : Bufno}

theorem returned_effect {p : P} {dev blockno : Uint} {x : D} (h : Sound A s)
    (he : Effect s s' (.returned p b dev blockno x)) :
    x = A dev blockno ∧ s'.held p b = true ∧ (s'.buf b).data = x ∧
      (s'.buf b).dev = dev ∧ (s'.buf b).blockno = blockno := by
  cases he with
  | hit _ _ _ _ hc hv =>
    have hf := h.ctl p
    rw [hc] at hf
    obtain ⟨hh,rfl,rfl⟩ := hf
    exact ⟨h.data b hv,hh,rfl,rfl,rfl⟩
  | read _ _ _ _ hc hv hd =>
    have hf := h.ctl p
    rw [hc] at hf
    obtain ⟨hh,⟨rfl,rfl⟩,-⟩ := hf
    exact ⟨h.data b hv,hh,rfl,rfl,rfl⟩

omit [DecidableEq P] in
theorem served_pinned (h : Sound A s) {b c : Bufno} (hd : (s.buf b).dirty = true) :
    let x := update s.buf c (served s c) b
    x.dev = (s.buf b).dev ∧ x.blockno = (s.buf b).blockno ∧ x.valid = true := by
  by_cases e : b = c
  · simp [e, served]
  · simp [e, h.pinned b hd]

theorem dirty_effect (h : Sound A s) (he : Effect s s' e) (hd : (s.buf b).dirty = true) :
    (s'.buf b).dev = (s.buf b).dev ∧ (s'.buf b).blockno = (s.buf b).blockno ∧
      (s'.buf b).valid = true := by
  have hv := h.pinned b hd
  have hset : ∀ c y, y.dev = (s.buf c).dev → y.blockno = (s.buf c).blockno →
      y.valid = (s.buf c).valid → (update s.buf c y b).dev = (s.buf b).dev ∧
      (update s.buf c y b).blockno = (s.buf b).blockno ∧ (update s.buf c y b).valid = true := by
    intro c y h1 h2 h3
    by_cases e : b = c
    · subst e
      simp [h1, h2, h3, hv]
    · simp [e, hv]
  cases he with
  | found p c hc hb | modified p c x hc hh | bwrite p c hc hh | logged p c hc hh
  | released p c hc hh hu => exact hset c _ rfl rfl rfl
  | recycled p dev blockno c hc hnone hb hclean =>
    have e : b ≠ c := by
      rintro rfl
      rw [hd] at hclean
      cases hclean
    simp [State.give, e, hv]
  | last c hq | next c c' rest hq => exact served_pinned h hd
  | _ => exact ⟨rfl,rfl,hv⟩

end Array

/-- In every run `bread` returns what the latest modification of the block
left, no block is cached twice, no buffer is held twice, dirty buffers are not
recycled, and the links form one ring through all buffers. -/
theorem cache_refines_array {havedisk1 : Bool} {disk : Uint → Uint → D} {zero : D}
    {h : List (Action P D × Event P D)} {s : State P D}
    (hr : Run (initial P havedisk1 disk zero) h s) : BlockArray disk h s := by
  have hs := run_sound hr
  exact ⟨fun a s' p b dev blockno x hx => returned_effect hs (sound_effect hs hx),hs.unique,
    hs.single,hs.busy,fun a s' e b hx hd => dirty_effect hs (sound_effect hs hx) hd,hs.ring⟩

def lastBuf : Bufno := ⟨0,by decide⟩

def changeThenRead : List (BufCache.Action (Fin 2) ℕ) :=
  [.bread 0 1 5,.bget 0,.test 0,.iderw 0,.ideintr,.wake 0,.modify 0 lastBuf 8,
    .logWrite 0 lastBuf,.brelse 0 lastBuf,.bread 1 1 5,.bget 1]

def returned : Outcome (Fin 2) ℕ → Option (Fin 2 × Bufno × Uint × Uint × ℕ)
  | some (.ok (_,.returned p b dev blockno x)) => some (p,b,dev,blockno,x)
  | _ => none

theorem cache_refines_array_read : ∃ h s s',
    Run (initial (Fin 2) true (fun _ _ => 0) 0) h s ∧ h.map Prod.fst = changeThenRead ∧
    exec s (.test 1) = some (.ok (s',.returned 1 lastBuf 1 5 8)) ∧
    8 = array (fun _ _ => 0) h 1 5 := by
  obtain ⟨h,s,hrun,hacts,hx⟩ := Lts.replay_reaches exec
    (initial (Fin 2) true (fun _ _ => 0) 0) changeThenRead
    (fun _ s => returned (exec s (.test 1)) = some (1,lastBuf,1,5,8)) (by decide +kernel)
  unfold returned at hx
  split at hx
  · rename_i s' p b dev blockno x he
    cases hx
    exact ⟨h,s,s',hrun,hacts,he,((cache_refines_array hrun).latest _ _ _ _ _ _ _ he).1⟩
  · cases hx

section Recency

def touch (l : List Bufno) : Event P D → List Bufno
  | .released _ b => b::l.erase b
  | _ => l

/-- The buffers by their last release, the latest first. -/
def recency (h : List (Action P D × Event P D)) : List Bufno :=
  h.foldl (fun l x => touch l x.2) (List.finRange NBUF).reverse

variable {s s' : State P D} {e : Event P D} {p : P} {b : Bufno} {l : List Bufno}

theorem touch_ring (hl : Ring s.links l) (hall : ∀ c, c ∈ l) (he : Effect s s' e) :
    Ring s'.links (touch l e) ∧ ∀ c, c ∈ touch l e := by
  cases he with
  | released p b =>
    obtain ⟨m,r,rfl⟩ := List.append_of_mem (hall b)
    have hb := (List.nodup_middle.mp hl.nodup).notMem
    have he : (m++b::r).erase b = m++r := by simp_all [List.erase_append_right]
    rw [touch, he]
    exact ⟨hl.unlink.pushFront hb,by grind⟩
  | _ => exact ⟨hl,hall⟩

theorem bget_recycles (hl : Ring s.links l) (h : bget s p = some (.ok (s',.recycled p b))) :
    l.reverse.find? (fun c => !(s.buf c).busy && !(s.buf c).dirty) = some b := by
  have hlen : l.length ≤ NBUF := by simpa using hl.nodup.length_le_card
  unfold bget at h
  split at h
  · simp only [search_next _ hl.path hlen, search_prev _ hl.path hlen] at h
    split at h
    · cases h
    · split at h <;> cases h
    split at h
    · cases h
    · cases h
    · rename_i hc
      cases h
      exact Option.some.inj hc
  · cases h

/-- In every run the links list the buffers by their last release, and `bget`
recycles the one released longest ago among those neither busy nor dirty. -/
theorem bget_recycles_oldest {havedisk1 : Bool} {disk : Uint → Uint → D} {zero : D}
    {h : List (Action P D × Event P D)} (hr : Run (initial P havedisk1 disk zero) h s) :
    Ring s.links (recency h) ∧ ∀ p s' b, exec s (.bget p) = some (.ok (s',.recycled p b)) →
      (recency h).reverse.find? (fun c => !(s.buf c).busy && !(s.buf c).dirty) = some b := by
  have hi : Sound (array disk h) s ∧ Ring s.links (recency h) ∧ ∀ c, c ∈ recency h := by
    refine hr.invariant (fun h s => Sound (array disk h) s ∧ Ring s.links (recency h) ∧
      ∀ c, c ∈ recency h) ⟨initial_sound _ _ _,?_,by simp [recency]⟩ ?_
    · simpa [recency, initial, binit] using
        binit_ring _ _ _ empty_ring (List.nodup_finRange NBUF) (by simp)
    rintro h s a s' e ⟨hs,hl,hall⟩ hx
    have he := sound_effect hs hx
    rw [array_snoc, recency, List.foldl_append]
    exact ⟨effect_sound hs he,touch_ring hl hall he⟩
  exact ⟨hi.2.1,fun p s' b hb => bget_recycles hi.2.1 hb⟩

theorem bget_recycles_oldest_read : ∃ h s,
    Run (initial (Fin 2) true (fun _ _ => 0) 0) h s ∧ h.map Prod.fst = changeThenRead ∧
    Ring s.links (recency h) ∧ (recency h).head? = some lastBuf := by
  obtain ⟨h,s,hr,ha,hh⟩ := Lts.replay_reaches exec (initial (Fin 2) true (fun _ _ => 0) 0)
    changeThenRead (fun h _ => (recency h).head? = some lastBuf) (by decide +kernel)
  exact ⟨h,s,hr,ha,(bget_recycles_oldest hr).1,hh⟩

end Recency

end Yeet.BufArray
