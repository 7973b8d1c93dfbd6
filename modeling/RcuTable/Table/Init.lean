import RcuTable.Table.ResizeEffect
import Mathlib.Algebra.Group.Int.Defs

/-!
# Table.Init — the table right after `rTableCoreInitDetailed`

`upperBoundPowerOf2` smears the highest bit of `v - 1` downwards; `Smeared k x y` says that bit `i` of `y` is
the disjunction of the `k` bits of `x` from `i` on, and each line of the code doubles `k`.
-/

namespace RcuTable

open Atomic Atomic.Prog Chain

/-- Bit `i` of `y` is set when one of the bits `i, …, i + k - 1` of `x` is. -/
def Smeared (k : ℕ) (x y : BitVec 32) : Prop :=
  ∀ i, y.getLsbD i = true ↔ ∃ d < k, x.getLsbD (i + d) = true

theorem smeared_one (x : BitVec 32) : Smeared 1 x x := by
  intro i
  constructor
  · exact fun hi => ⟨0, Nat.one_pos, hi⟩
  · rintro ⟨d, hd, hi⟩
    obtain rfl : d = 0 := by omega
    exact hi

/-- One line of the code. -/
theorem Smeared.double {k : ℕ} {x y : BitVec 32} (hs : Smeared k x y) :
    Smeared (2 * k) x (y ||| y >>> k) := by
  intro i
  rw [BitVec.getLsbD_or, BitVec.getLsbD_ushiftRight, Bool.or_eq_true, hs i, hs (k + i)]
  constructor
  · rintro (⟨d, hd, hi⟩ | ⟨d, hd, hi⟩)
    · exact ⟨d, by omega, hi⟩
    · exact ⟨k + d, by omega, by rwa [show i + (k + d) = k + i + d by omega]⟩
  · rintro ⟨d, hd, hi⟩
    by_cases hdk : d < k
    · exact Or.inl ⟨d, hdk, hi⟩
    · exact Or.inr ⟨d - k, by omega, by rwa [show k + i + (d - k) = i + d by omega]⟩

/-- A word smeared over its whole width is all ones up to its highest bit. -/
theorem Smeared.toNat_eq {x y : BitVec 32} (hs : Smeared 32 x y) (hx : x.toNat ≠ 0) :
    y.toNat = 2 ^ (x.toNat.log2 + 1) - 1 := by
  refine Nat.eq_of_testBit_eq fun i => ?_
  rw [Nat.testBit_two_pow_sub_one]
  have hbit : x.getLsbD x.toNat.log2 = true := Nat.testBit_log2 hx
  have hlt : x.toNat.log2 < 32 := BitVec.lt_of_getLsbD hbit
  by_cases hi : i < x.toNat.log2 + 1
  · rw [decide_eq_true hi]
    refine (hs i).mpr ⟨x.toNat.log2 - i, by omega, ?_⟩
    rwa [Nat.add_sub_cancel' (by omega)]
  · rw [decide_eq_false hi, Bool.eq_false_iff]
    intro hc
    obtain ⟨d, -, hd⟩ := (hs i).mp hc
    have h1 : x.toNat.testBit (i + d) = true := hd
    rw [Nat.testBit_lt_two_pow] at h1
    · cases h1
    · exact lt_of_lt_of_le Nat.lt_log2_self (Nat.pow_le_pow_right (by omega) (by omega))

theorem toNat_sub_one {v : BitVec 32} (h0 : 0 < v.toNat) : (v - 1).toNat = v.toNat - 1 := by
  have hlit : (1 : BitVec 32).toNat = 1 := rfl
  rw [BitVec.toNat_sub, hlit]
  omega

/-- The code, from `2` on. -/
theorem upperBoundPowerOf2_toNat {v : BitVec 32} (h1 : 1 < v.toNat) :
    (upperBoundPowerOf2 v).toNat = 2 ^ ((v - 1).toNat.log2 + 1) % 2 ^ 32 := by
  have hne : v ≠ 0 := by
    rintro rfl
    simp at h1
  have hlit : (1 : BitVec 32).toNat = 1 := rfl
  have hs := (((((smeared_one (v - 1)).double).double).double).double).double
  have hsm := hs.toNat_eq (by rw [toNat_sub_one (by omega)]; omega)
  have hpos : 0 < 2 ^ ((v - 1).toNat.log2 + 1) := Nat.two_pow_pos _
  have hdef : upperBoundPowerOf2 v = _ + 1 := if_neg hne
  simp only [Nat.reduceMul] at hsm
  rw [hdef, BitVec.toNat_add, hlit, hsm, Nat.sub_add_cancel hpos]

/-- The least power of two that is not below `v`, for every `v` that has one in 32 bits. -/
theorem upperBoundPowerOf2_spec {v : BitVec 32} (h1 : v.toNat ≤ 2 ^ 31) :
    ∃ m, (upperBoundPowerOf2 v).toNat = 2 ^ m ∧ max 1 v.toNat ≤ 2 ^ m ∧
      ∀ k, max 1 v.toNat ≤ 2 ^ k → m ≤ k := by
  by_cases hsmall : v.toNat ≤ 1
  · have hv : v = 0 ∨ v = 1 := by
      rcases Nat.le_one_iff_eq_zero_or_eq_one.mp hsmall with h0 | h0
      · exact Or.inl (BitVec.eq_of_toNat_eq h0)
      · exact Or.inr (BitVec.eq_of_toNat_eq h0)
    rcases hv with rfl | rfl <;> exact ⟨0, rfl, by decide, fun k _ => Nat.zero_le k⟩
  · have hx : (v - 1).toNat = v.toNat - 1 := toNat_sub_one (by omega)
    have hlog : (v - 1).toNat.log2 < 31 := by
      rw [hx, Nat.log2_lt (by omega)]
      omega
    have hpow : 2 ^ ((v - 1).toNat.log2 + 1) ≤ 2 ^ 31 := Nat.pow_le_pow_right (by omega) (by omega)
    have hpos : 0 < 2 ^ ((v - 1).toNat.log2 + 1) := Nat.two_pow_pos _
    refine ⟨(v - 1).toNat.log2 + 1, ?_, ?_, ?_⟩
    · rw [upperBoundPowerOf2_toNat (by omega)]
      omega
    · have := Nat.lt_log2_self (n := (v - 1).toNat)
      omega
    · intro k hk
      have h2 : (v - 1).toNat.log2 < k := by
        rw [Nat.log2_lt (by omega)]
        omega
      omega

/-- Above the greatest power of two in 32 bits the last increment wraps. -/
theorem upperBoundPowerOf2_wraps {v : BitVec 32} (h1 : 2 ^ 31 < v.toNat) :
    (upperBoundPowerOf2 v).toNat = 0 := by
  have hx : (v - 1).toNat = v.toNat - 1 := toNat_sub_one (by omega)
  have hlog : (v - 1).toNat.log2 = 31 := by
    refine (Nat.log2_eq_iff (by omega)).mpr ⟨by omega, ?_⟩
    have := v.isLt
    omega
  rw [upperBoundPowerOf2_toNat (by omega), hlog, Nat.mod_self]

/-- Memory with a default-initialized `RTableCore` in it. -/
structure Blank {K φ : Type} (h : Heap K φ) : Prop where
  null : h.live 0 = false
  fresh : ∀ b, h.live b = true → b < h.fresh
  pos : 0 < h.fresh
  size : h.size = 0

/-- The bucket count that a configuration asks for. -/
def RTableCoreConfig.nrBucketsPowerOf2 {φ : Type} (conf : RTableCoreConfig φ) : ℕ :=
  (upperBoundPowerOf2 (BitVec.ofInt 32 conf.nrBuckets)).toNat

/-- An empty table, as configured. -/
structure Fresh {K φ : Type} (conf : RTableCoreConfig φ) (h : Heap K φ) : Prop where
  chains : Chains h conf.nrBucketsPowerOf2 fun _ => []
  size : h.size = 0
  expandFactor : h.expandFactor = conf.expandFactor
  shrinkFactor : h.shrinkFactor = conf.shrinkFactor

variable {K φ : Type} {h : Heap K φ} {conf : RTableCoreConfig φ}

theorem chains_withArray (hb : Blank h) {n m : ℕ} (hn : n = 2 ^ m) {e s : φ} :
    Chains { h.withArray n with expandFactor := e, shrinkFactor := s, pBucketsInfo := h.fresh }
      n fun _ => [] where
  live := h.withArray_live n
  nr := h.withArray_nr n
  pow := ⟨m, hn⟩
  null := (Function.update_of_ne hb.pos.ne _ _).trans hb.null
  fresh b hlive := by
    show b < h.fresh + 1
    by_cases hbf : b = h.fresh
    · omega
    · have h1 : h.live b = true := (Function.update_of_ne hbf _ _).symm.trans hlive
      exact Nat.lt_succ_of_lt (hb.fresh b h1)
  path j hj := by simp [Heap.withArray, Heap.clearHeads, hj]
  node _ _ p hp := absurd hp List.not_mem_nil
  home _ _ p hp := absurd hp List.not_mem_nil

theorem nrBucketsPowerOf2_cases (conf : RTableCoreConfig φ) :
    conf.nrBucketsPowerOf2 = 0 ∨ ∃ m, conf.nrBucketsPowerOf2 = 2 ^ m := by
  by_cases h1 : (BitVec.ofInt 32 conf.nrBuckets).toNat ≤ 2 ^ 31
  · obtain ⟨m, hm, -⟩ := upperBoundPowerOf2_spec h1
    exact Or.inr ⟨m, hm⟩
  · exact Or.inl (upperBoundPowerOf2_wraps (by omega))

theorem nrBucketsPowerOf2_ne_zero (h0 : 0 ≤ conf.nrBuckets) (h1 : conf.nrBuckets < 2 ^ 31) :
    conf.nrBucketsPowerOf2 ≠ 0 := by
  obtain ⟨m, hm, -⟩ := upperBoundPowerOf2_spec (v := BitVec.ofInt 32 conf.nrBuckets)
    (by rw [BitVec.toNat_ofInt]; omega)
  rw [RTableCoreConfig.nrBucketsPowerOf2, hm]
  exact (Nat.two_pow_pos m).ne'

/-- **Initialization**, with a bucket count: an empty table. -/
theorem rTableCoreInitDetailed_total (hb : Blank h) (h0 : conf.nrBucketsPowerOf2 ≠ 0) :
    (rTableCoreInitDetailed conf).Total exec h fun _ h' =>
      Fresh conf h' ∧ h'.hash = h.hash ∧ h'.key = h.key := by
  obtain ⟨m, hm⟩ := (nrBucketsPowerOf2_cases conf).resolve_left h0
  refine Runs.total ?_
  unfold rTableCoreInitDetailed
  simp only [Prog.lift, bind_def, act_bind, ret_bind]
  refine Sim.bind ?_
  show Sim _ _ _ (allocateAndInitBuckets conf.nrBucketsPowerOf2) _ _
  refine allocateAndInitBuckets_sim (I := fun _ _ => True) (by rw [hm]; exact Nat.two_pow_pos m)
    trivial trivial (fun _ _ _ => ⟨trivial, trivial⟩) ?_
  intro _
  exact Runs.act rfl (Runs.act rfl (.ret ⟨⟨chains_withArray hb hm, hb.size, rfl, rfl⟩, rfl, rfl⟩))

/-- Without one, the assertion of `allocateAndInitBuckets` stops the program. -/
theorem rTableCoreInitDetailed_stops (h0 : conf.nrBucketsPowerOf2 = 0) {h' : Heap K φ} :
    ¬ (rTableCoreInitDetailed conf).Returns exec h () h' := by
  rintro ⟨n, hn⟩
  have h1 : ∃ k, rTableCoreInitDetailed (K := K) conf = .act .fail k := by
    unfold rTableCoreInitDetailed allocateAndInitBuckets
    show ∃ k, ((assert (decide (conf.nrBucketsPowerOf2 > 0))).bind _).bind _ = _
    rw [h0]
    exact ⟨_, rfl⟩
  obtain ⟨k, hk⟩ := h1
  rw [hk] at hn
  cases n with
  | zero => simp [run] at hn
  | succ n => simp [run, exec] at hn

/-- A table that has been set up is empty. -/
theorem fresh_of_returns (hb : Blank h) {h' : Heap K φ}
    (hret : (rTableCoreInitDetailed conf).Returns exec h () h') : Fresh conf h' := by
  by_cases h0 : conf.nrBucketsPowerOf2 = 0
  · exact absurd hret (rTableCoreInitDetailed_stops h0)
  · exact ((rTableCoreInitDetailed_total hb h0).2 _ _ hret).1

end RcuTable
