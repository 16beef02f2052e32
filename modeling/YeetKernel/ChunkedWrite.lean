import YeetKernel.FileChunks
import YeetKernel.FileArrays

/-!
# filewrite in pieces and at once

The pieces of `filewrite` add up to one `writei` as long as each of them is accepted.
A write that runs past the largest file is refused as a whole by `writei`, but
`filewrite` only finds out at the piece that does not fit, and the pieces before it
stay written. And no bytes at all are nothing to refuse for `filewrite`.
-/

namespace Yeet.Fs
open Kernel Bytes FsDisk Resumption Function

def filewriteOnce (f : Fileno) (ip : Ino) (addr : ℕ → Byte) (n : Uint) : FsProg ℤ :=
  transaction f ip ((List.range n.toNat).map addr)

def SameWrite (f : Fileno) (i : Ino) : Outcome State Fault ℤ → Outcome State Fault ℤ → Prop
  | some (.ok (r,s)), some (.ok (r',s')) =>
    r = r' ∧ fileBytes s i = fileBytes s' i ∧ (s.file f).off = (s'.file f).off
  | some (.error e), some (.error e') => e = e'
  | _, _ => False

def AgreesWithOne (f : Fileno) (i : Ino) (addr : ℕ → Byte) (n : Uint) (s : State) : Prop :=
  Ends (filewrite f addr n) (fun o => Ends (filewriteOnce f i addr n) (SameWrite f i o) s) s

variable {loose : List Uint} {V : View} {f : Fileno} {i : Ino} {s s' : State}

section Calls

variable {addr : ℕ → Byte} {n : Uint} {Q : Outcome State Fault ℤ → Prop}

theorem sameBytes_of_vol (hn : s'.num i = s.num i) (hv : s'.vol = s.vol) :
    fileBytes s' i = fileBytes s i := by
  unfold fileBytes
  rw [hn, hv]

theorem once_refused (h : Writable loose V f i s) (hb : (s.inode i).busy = false)
    (hno : Refused (V.size (s.num i)) (s.file f).off.toNat n.toNat)
    (hQ : ∀ s', s'.num i = s.num i → s'.vol = s.vol → (s'.file f).off = (s.file f).off →
      Q (some (.ok (-1,s')))) : Ends (filewriteOnce f i addr n) Q s := by
  have hlen : ((List.range n.toNat).map addr).length = n.toNat := by
    rw [List.length_map, List.length_range]
  exact ends_transaction h hb (by rw [hlen]; exact n.isLt)
    ⟨fun _ s' hw ho hv hoff => hQ s' hw.num hv hoff,
      fun hc => absurd (by rw [hlen]; exact hno) hc,fun hc => absurd (by rw [hlen]; exact hno) hc⟩

theorem once_fits (h : Writable loose V f i s) (hb : (s.inode i).busy = false)
    (hok : ¬ Refused (V.size (s.num i)) (s.file f).off.toNat n.toNat)
    (hq : Fills loose V f i addr n.toNat (n.toNat : ℤ) Q s) :
    Ends (filewriteOnce f i addr n) Q s := by
  have hlen : ((List.range n.toNat).map addr).length = n.toNat := by
    rw [List.length_map, List.length_range]
  refine ends_transaction h hb (by rw [hlen]; exact n.isLt)
    ⟨fun hc => absurd (by rw [hlen] at hc; exact hc) hok,fun _ s' hw ho hoff hspan => ?_,
      fun _ hlack => hq.full (by rw [hlen] at hlack; exact hlack)⟩
  have hfree := hspan.free
  rw [hlen] at hoff hfree ⊢
  exact hq.done (by omega) s' hw.num ho hoff

theorem toInt_cases (n : Uint) : (0 ≤ n.toInt ∧ n.toInt = n.toNat) ∨ (n.toInt < 0 ∧ 2^31 ≤ n.toNat) := by
  have h := BitVec.toInt_eq_toNat_cond n
  split at h <;> omega

section

variable (h : Writable loose V f i s)
include h

section

variable (hb : (s.inode i).busy = false)
include hb

theorem agrees_fits (hn : 0 ≤ n.toInt)
    (hok : ¬ Refused (V.size (s.num i)) (s.file f).off.toNat n.toNat) : AgreesWithOne f i addr n s := by
  have hto : n.toInt = n.toNat := by
    rcases toInt_cases n with hc | hc
    · exact hc.2
    · omega
  have hnat : n.toInt.toNat = n.toNat := by omega
  refine filewrite_fits h hb hn (by rw [hnat]; exact hok) ⟨fun hroom s₁ h1 h2 h3 => ?_,fun hlack => ?_⟩
  · rw [hnat] at hroom h2 h3
    refine once_fits h hb hok ⟨fun _ s₂ h4 h5 h6 => ⟨hto,?_,?_⟩,fun hlack => ?_⟩
    · rw [h2.fileBytes, h5.fileBytes, h1, h4]
    · apply BitVec.eq_of_toNat_eq
      rw [h3, h6]
    · omega
  · rw [hnat] at hlack
    exact once_fits h hb hok ⟨fun hroom => (by omega),fun _ => rfl⟩

theorem agrees_refused (hn : 0 < n.toInt)
    (hno : Refused (V.size (s.num i)) (s.file f).off.toNat (min n.toInt.toNat chunkMax)) :
    AgreesWithOne f i addr n s := by
  have hall : Refused (V.size (s.num i)) (s.file f).off.toNat n.toNat := by
    have hto := toInt_cases n
    unfold Refused at hno ⊢
    omega
  refine filewrite_refused h hb hn hno (fun s₁ h1 h2 h3 => ?_)
  refine once_refused h hb hall (fun s₂ h4 h5 h6 => ⟨rfl,?_,?_⟩)
  · rw [sameBytes_of_vol h1 h2, sameBytes_of_vol h4 h5]
  · rw [h3, h6]

theorem agrees_negative (hn : n.toInt < 0) : AgreesWithOne f i addr n s := by
  have hall : Refused (V.size (s.num i)) (s.file f).off.toNat n.toNat := by
    have hto := toInt_cases n
    have hbig : MAXFILE*BSIZE < 2^31 := by decide
    unfold Refused
    omega
  refine filewrite_nothing h (by omega) ?_
  rw [if_neg (by omega)]
  refine once_refused h hb hall (fun s₂ h4 h5 h6 => ⟨rfl,?_,h6.symm⟩)
  rw [sameBytes_of_vol h4 h5]

theorem disagrees_nothing (hn : n.toInt = 0) (hoff : V.size (s.num i) < (s.file f).off.toNat) :
    ¬ AgreesWithOne f i addr n s := by
  intro ha
  have hpieces : Ends (filewrite f addr n) (fun o => ∃ s', o = some (.ok (0,s'))) s :=
    filewrite_nothing h (by omega) (by rw [if_pos hn]; exact ⟨s,rfl⟩)
  have honce : Ends (filewriteOnce f i addr n) (fun o => ∃ s', o = some (.ok (-1,s'))) s :=
    once_refused h hb (Or.inl hoff) (fun s' _ _ _ => ⟨s',rfl⟩)
  obtain ⟨o,h1,h2⟩ := ends_meet ha hpieces
  obtain ⟨s₁,rfl⟩ := h2
  obtain ⟨o',h3,h4⟩ := ends_meet h1 honce
  obtain ⟨s₂,rfl⟩ := h4
  have h5 : (0 : ℤ) = -1 := h3.1
  omega

theorem disagrees_split (hn : 0 < n.toInt)
    (hok : ¬ Refused (V.size (s.num i)) (s.file f).off.toNat (min n.toInt.toNat chunkMax))
    (hno : Refused (V.size (s.num i)) (s.file f).off.toNat n.toNat) : ¬ AgreesWithOne f i addr n s := by
  intro ha
  have honce : Ends (filewriteOnce f i addr n)
      (fun o => ∃ s', o = some (.ok (-1,s')) ∧ (s'.file f).off = (s.file f).off) s :=
    once_refused h hb hno (fun s' _ _ h6 => ⟨s',rfl,h6⟩)
  obtain ⟨o,h1,h2⟩ := ends_meet ha (filewrite_moves h hb hn hok)
  obtain ⟨o',h3,h4⟩ := ends_meet h1 honce
  obtain ⟨s₂,rfl,hoff⟩ := h4
  rcases o with _ | (e | ⟨r,s₁⟩)
  · exact h3
  · exact h3
  · have h5 := h2 r s₁ rfl
    rw [h3.2.2, hoff] at h5
    exact Nat.lt_irrefl _ h5

end

end

end Calls

/-- The pieces add up to the single call unless the bytes are none and the offset is beyond
the end, or the first piece is within the largest file and the last one is not. -/
theorem filewrite_agrees_iff (h : Writable loose V f i s) (hb : (s.inode i).busy = false)
    (addr : ℕ → Byte) (n : Uint) :
    AgreesWithOne f i addr n s ↔ ¬ (n = 0 ∧ V.size (s.num i) < (s.file f).off.toNat) ∧
      ¬ ((chunkMax : ℤ) < n.toInt ∧ (s.file f).off.toNat ≤ V.size (s.num i) ∧
        (s.file f).off.toNat+chunkMax ≤ MAXFILE*BSIZE ∧
        (MAXFILE*BSIZE : ℤ) < (s.file f).off.toNat+n.toInt) := by
  have hbig : MAXFILE*BSIZE < 2^31 := by decide
  have hsize := h.size_le
  have hto := toInt_cases n
  have hzero : n = 0 ↔ n.toInt = 0 := by
    constructor
    · rintro rfl
      rfl
    intro h0
    apply BitVec.eq_of_toInt_eq
    rw [h0]
    rfl
  rw [hzero]
  rcases Int.lt_trichotomy n.toInt 0 with hn | hn | hn
  · refine iff_of_true (agrees_negative h hb hn) ?_
    omega
  · by_cases hoff : V.size (s.num i) < (s.file f).off.toNat
    · refine iff_of_false (disagrees_nothing h hb hn hoff) ?_
      exact fun hc => hc.1 ⟨hn,hoff⟩
    refine iff_of_true (agrees_fits h hb (by omega) ?_) ?_
    · unfold Refused
      omega
    · have : (0 : ℤ) ≤ (chunkMax : ℤ) := Int.natCast_nonneg _
      omega
  by_cases hfirst : Refused (V.size (s.num i)) (s.file f).off.toNat (min n.toInt.toNat chunkMax)
  · refine iff_of_true (agrees_refused h hb hn hfirst) ?_
    unfold Refused at hfirst
    omega
  by_cases hall : Refused (V.size (s.num i)) (s.file f).off.toNat n.toNat
  · refine iff_of_false (disagrees_split h hb hn hfirst hall) ?_
    unfold Refused at hfirst hall
    omega
  · refine iff_of_true (agrees_fits h hb (by omega) hall) ?_
    unfold Refused at hall
    omega

section Scratch

def firstFile : Fileno := Fin.ofNat 100 0

def scratchFile (d : Dinode) (off : Uint) : State :=
  {scratch d with
    inode := update (fun _ => Inode.free) firstSlot ⟨ROOTDEV,1,false,true,d⟩
    file := update (fun _ => File.free) firstFile ⟨.inode,1,true,true,some firstSlot,off⟩}

theorem scratchFile_writable {d : Dinode} (ht : d.type ≠ 0) (hd : d.type ≠ T_DEV) (hs : d.size = 0)
    (ha : ∀ k, d.addrs k = 0) (off : Uint) :
    Writable [] (viewOf (scratch d).vol) firstFile firstSlot (scratchFile d off) := by
  have hc := (scratch_consistent ht hs ha).sound
  have hdin := scratch_dinode d
  have hnode : (viewOf (scratch d).vol).node 1 = bare d := congrArg bare hdin
  constructor
  case type => rfl
  case writable => rfl
  case ip => rfl
  case ref => exact Int.le_refl 1
  case backed => exact hc.backed
  case lt => exact hc.lt
  case cached => exact fun _ => hdin.symm
  case alloc =>
    show ((viewOf (scratch d).vol).node 1).type ≠ 0
    rw [hnode]
    exact ht
  case regular =>
    show ((viewOf (scratch d).vol).node 1).type ≠ T_DEV
    rw [hnode]
    exact hd

theorem filewrite_agrees_scratch :
    AgreesWithOne firstFile firstSlot (fun _ => 7) 10 (scratchFile emptyFile 0) := by
  refine (filewrite_agrees_iff (scratchFile_writable (d := emptyFile) (by decide) (by decide) rfl
    (fun _ => rfl) 0) rfl (fun _ => 7) 10).mpr ⟨?_,?_⟩
  all_goals exact fun hc => absurd hc.1 (by decide)

/-- One byte more than a file can have. -/
theorem filewrite_keeps_pieces :
    ¬ AgreesWithOne firstFile firstSlot (fun _ => 7) 70657 (scratchFile emptyFile 0) := by
  have hsize : (viewOf (scratch emptyFile).vol).size ((scratchFile emptyFile 0).num firstSlot) = 0 :=
    congrArg (fun d => (bare d).size.toNat) (scratch_dinode emptyFile)
  apply disagrees_split (scratchFile_writable (d := emptyFile) (by decide) (by decide) rfl
    (fun _ => rfl) 0) rfl
  · decide
  all_goals
    rw [hsize]
    unfold Refused
    decide

end Scratch

end Yeet.Fs
