import YeetKernel.FsBlocks

/-!
# The bytes of a file

The byte at an offset, zero where no block is allocated. Blocks come from
`balloc` zeroed, so allocation changes no byte. A file without holes has a
block for each byte below its size.
-/

namespace Yeet.FsDisk
open Kernel Bytes

def Volume.byte (v : Volume) (d : Dinode) (o : ℕ) : Byte :=
  if v.addr d (o/BSIZE) = 0 then 0 else byteAt (v.disk (v.addr d (o/BSIZE)).toNat) (o%BSIZE)

structure Filled (v : Volume) (d : Dinode) : Prop where
  small : d.size.toNat ≤ MAXFILE*BSIZE
  block : ∀ k, k*BSIZE < d.size.toNat → v.addr d k ≠ 0

variable {v w : Volume} {D : ℕ → Dinode} {loose : List Uint} {n : ℕ} {b : Uint} {d : Dinode}

theorem Filled.byteBlock (h : Filled v d) {o : ℕ} (ho : o < d.size.toNat) :
    v.addr d (o/BSIZE) ≠ 0 := by
  apply h.block
  have := Nat.div_mul_le_self o BSIZE
  omega

theorem offset_in_block {o i : ℕ} (h : o%BSIZE+i < BSIZE) :
    (o+i)/BSIZE = o/BSIZE ∧ (o+i)%BSIZE = o%BSIZE+i := by
  have hsum : o+i = BSIZE*(o/BSIZE)+(o%BSIZE+i) := by
    have := Nat.div_add_mod o BSIZE
    omega
  rw [hsum]
  constructor
  · rw [Nat.mul_add_div (by decide), Nat.div_eq_of_lt h, Nat.add_zero]
  · rw [Nat.mul_add_mod, Nat.mod_eq_of_lt h]

theorem byte_congr {d e : Dinode} (ha : ∀ k, w.addr e k = v.addr d k)
    (hd : ∀ k, v.addr d k ≠ 0 → w.disk (v.addr d k).toNat = v.disk (v.addr d k).toNat) (o : ℕ) :
    w.byte e o = v.byte d o := by
  unfold Volume.byte
  rw [ha]
  split
  · rfl
  · rename_i h
    rw [hd _ h]

theorem Filled.congr {d e : Dinode} (h : Filled v d) (hs : e.size = d.size)
    (ha : ∀ k, v.addr d k ≠ 0 → w.addr e k ≠ 0) : Filled w e := by
  refine ⟨by rw [hs]; exact h.small,fun k hk => ?_⟩
  rw [hs] at hk
  exact ha k (h.block k hk)

theorem ref_addr (hn : n < v.sb.ninodes) (ht : (D n).type ≠ 0) {k : ℕ}
    (ha : v.addr (D n) k ≠ 0) : Ref v D n (some k) (v.addr (D n) k) :=
  ⟨hn,ht,rfl,ha⟩

theorem Owned.balloc_byte (h : Owned v D loose) (ha : Allocated v w b) (hn : n < v.sb.ninodes)
    (ht : (D n).type ≠ 0) (o : ℕ) : w.byte (D n) o = v.byte (D n) o := by
  have hb := (h.balloc ha).2 n hn ht
  refine byte_congr (fun k => hb (some k)) (fun k hk => ?_) o
  have hr := ref_addr hn ht hk
  have hd := h.range _ _ _ hr
  refine ha.others _ hd.1 (fun e => ?_)
  have he : v.addr (D n) k = b := BitVec.eq_of_toNat_eq e
  have hfree := ha.free
  rw [← he, (h.used _ hd).mpr (Or.inl ⟨n,some k,hr⟩)] at hfree
  cases hfree

theorem byte_setAddr {k : Fin (NDIRECT+1)} (h0 : d.addrs k = 0)
    (hz : v.disk b.toNat = fun _ => 0) (o : ℕ) : v.byte (d.setAddr k b) o = v.byte d o := by
  have ha := blockAt_setAddr h0 hz (some (o/BSIZE))
  unfold Volume.byte
  simp only [Volume.blockAt] at ha
  rw [ha]
  split
  · rename_i he
    have hz0 : v.addr d (o/BSIZE) = 0 := by
      have := blockAt_placeOf v d k
      rw [← he, h0] at this
      exact this
    rw [hz0, hz]
    simp [byteAt]
  · rfl

theorem byte_setEntry (hi : d.indirect ≠ 0) {j : ℕ} (hj : j < NINDIRECT)
    (h0 : v.addr d (NDIRECT+j) = 0) (hz : v.disk b.toNat = fun _ => 0) (hb : b ≠ d.indirect)
    (hne : ∀ k, v.addr d k ≠ 0 → v.addr d k ≠ d.indirect) (o : ℕ) :
    (v.write d.indirect.toNat (setWord (v.disk d.indirect.toNat) j b)).byte d o = v.byte d o := by
  have hdisk : ∀ a : Uint, a ≠ d.indirect → (v.write d.indirect.toNat
      (setWord (v.disk d.indirect.toNat) j b)).disk a.toNat = v.disk a.toNat :=
    fun a ha => disk_write_ne _ (fun e => ha (BitVec.eq_of_toNat_eq e))
  have ha := blockAt_setEntry (v := v) (b := b) hi hj (some (o/BSIZE))
  simp only [Volume.blockAt, Option.some.injEq] at ha
  unfold Volume.byte
  rw [ha]
  by_cases he : o/BSIZE = NDIRECT+j
  · rw [if_pos he, hdisk b hb, hz, he, h0]
    simp [byteAt]
  rw [if_neg he]
  split
  · rfl
  · rename_i hk
    rw [hdisk _ (hne _ hk)]

theorem Owned.write_byte (h : Owned v D loose) {m k : ℕ} (hm : m < v.sb.ninodes)
    (hmt : (D m).type ≠ 0) (hk : v.addr (D m) k ≠ 0) (x : DiskBlock) :
    Owned (v.write (v.addr (D m) k).toNat x) D loose ∧
    (∀ n, n < v.sb.ninodes → (D n).type ≠ 0 → ∀ j,
      (v.write (v.addr (D m) k).toNat x).addr (D n) j = v.addr (D n) j) ∧
    ∀ n, n < v.sb.ninodes → (D n).type ≠ 0 → ∀ o, (v.write (v.addr (D m) k).toNat x).byte (D n) o =
        if n = m ∧ o/BSIZE = k then byteAt x (o%BSIZE) else v.byte (D n) o := by
  have hr := ref_addr hm hmt hk
  have hd := h.range _ _ _ hr
  have hi : ∀ n, n < v.sb.ninodes → (D n).type ≠ 0 → (D n).indirect ≠ v.addr (D m) k := by
    intro n hn ht e
    have hn0 : Ref v D n none (v.addr (D m) k) := ⟨hn,ht,e,hk⟩
    cases (h.unique n none m (some k) _ hn0 hr).2
  obtain ⟨h1,h2⟩ := h.write hd hi x
  refine ⟨h1,fun n hn ht j => h2 n hn ht (some j),fun n hn ht o => ?_⟩
  have hadd : (v.write (v.addr (D m) k).toNat x).addr (D n) (o/BSIZE) = v.addr (D n) (o/BSIZE) :=
    h2 n hn ht (some (o/BSIZE))
  unfold Volume.byte
  rw [hadd]
  split
  · rename_i h0
    split
    · rename_i e
      rw [e.1, e.2] at h0
      exact absurd h0 hk
    · rfl
  rename_i h0
  split
  · rename_i e
    rw [e.1, e.2, disk_write]
  rename_i e
  rw [disk_write_ne]
  intro heq
  have heq : v.addr (D n) (o/BSIZE) = v.addr (D m) k := BitVec.eq_of_toNat_eq heq
  have hn0 : Ref v D n (some (o/BSIZE)) (v.addr (D m) k) := ⟨hn,ht,heq,hk⟩
  have := h.unique n (some (o/BSIZE)) m (some k) _ hn0 hr
  exact e ⟨this.1,Option.some.inj this.2⟩

end Yeet.FsDisk
