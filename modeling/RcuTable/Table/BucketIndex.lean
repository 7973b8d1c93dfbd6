import RcuTable.Table.Machine

/-!
# Table.BucketIndex — bucket counts are powers of two, so a masked hash is an index

A call that completes has made no access outside the allocated buckets: the machine stops at one.  A negative
count wraps in `upperBoundPowerOf2`, and `allocateAndInitBuckets` cannot count to `2 ^ 31`; `bucketIndex_iff`
says from which configurations and through which calls the code has a table at all.
-/

namespace RcuTable

open Atomic Chain

variable {K φ : Type} {fl : FloatOps φ} {conf : RTableCoreConfig φ} {h : Heap K φ} {g : View}

/-- The least power of two that is at least `x`. -/
def LeastPower (x : ℤ) (n : ℕ) : Prop := (∃ k, n = 2 ^ k) ∧ x ≤ n ∧ ∀ k : ℕ, x ≤ (2 : ℤ) ^ k → n ≤ 2 ^ k

/-- Every hash selects an allocated bucket, and one of two twins after the buckets have been doubled. -/
structure IndexOk (h : Heap K φ) : Prop where
  pow : ∃ k, h.nrBuckets = 2 ^ k
  live : h.live h.pBucketsInfo = true
  lt : ∀ hash, hash &&& (h.nrBuckets - 1) < h.nrBuckets
  twin : ∀ hash, hash &&& (2 * h.nrBuckets - 1) = hash &&& (h.nrBuckets - 1) ∨
    hash &&& (2 * h.nrBuckets - 1) = (hash &&& (h.nrBuckets - 1)) + h.nrBuckets

theorem Rep.indexOk (hr : Rep h g) : IndexOk h := by
  obtain ⟨k, hk⟩ := hr.pow
  have hn : h.nrBuckets = 2 ^ k := by rw [hr.nrBuckets, hk]
  have hpos := Nat.two_pow_pos k
  refine ⟨⟨k, hn⟩, hr.info ▸ hr.live_info, ?_, ?_⟩
  · intro hash
    rw [hn, Nat.and_two_pow_sub_one_eq_mod]
    exact Nat.mod_lt _ hpos
  · intro hash
    rw [hn, ← pow_succ', Nat.and_two_pow_sub_one_eq_mod, Nat.and_two_pow_sub_one_eq_mod, pow_succ,
      Nat.mod_mul]
    rcases Nat.mod_two_eq_zero_or_one (hash / 2 ^ k) with h0 | h0
    · rw [h0]
      exact Or.inl rfl
    · rw [h0]
      exact Or.inr (by rw [Nat.mul_one])

theorem nrBucketsPowerOf2_least (h0 : 0 ≤ conf.nrBuckets) (h1 : conf.nrBuckets < 2 ^ 31) :
    LeastPower (max 1 conf.nrBuckets) conf.nrBucketsPowerOf2 := by
  have hv : ((BitVec.ofInt 32 conf.nrBuckets).toNat : ℤ) = conf.nrBuckets := by
    rw [BitVec.toNat_ofInt]
    omega
  obtain ⟨m, hm, hle, hleast⟩ := upperBoundPowerOf2_spec (v := BitVec.ofInt 32 conf.nrBuckets) (by omega)
  have hm' : conf.nrBucketsPowerOf2 = 2 ^ m := hm
  refine ⟨⟨m, hm'⟩, ?_, ?_⟩
  · rw [hm', ← hv]
    have hone := (le_max_left _ _).trans hle
    have hbig := (le_max_right _ _).trans hle
    exact max_le (by exact_mod_cast hone) (by exact_mod_cast hbig)
  · intro k hk
    rw [hm']
    rw [← hv] at hk
    have hone := (le_max_left _ _).trans hk
    have hbig := (le_max_right _ _).trans hk
    exact Nat.pow_le_pow_right (by omega)
      (hleast k (max_le (by exact_mod_cast hone) (by exact_mod_cast hbig)))

/-- Of the counts that an `int` can hold, those that a table can be set up with. -/
theorem nrBucketsPowerOf2_lt_iff (h0 : -2 ^ 31 ≤ conf.nrBuckets) (h1 : conf.nrBuckets < 2 ^ 31)
    (hne : conf.nrBucketsPowerOf2 ≠ 0) :
    conf.nrBucketsPowerOf2 < 2 ^ 31 ↔ 0 ≤ conf.nrBuckets ∧ conf.nrBuckets ≤ 2 ^ 30 := by
  by_cases hneg : 0 ≤ conf.nrBuckets
  · obtain ⟨⟨m, hm⟩, hle, hleast⟩ := nrBucketsPowerOf2_least hneg h1
    have hle' : conf.nrBuckets ≤ conf.nrBucketsPowerOf2 := le_of_max_le_right hle
    rw [and_iff_right hneg, hm] at *
    constructor
    · intro hlt
      have hm30 : m ≤ 30 := Nat.le_of_lt_succ ((Nat.pow_lt_pow_iff_right (by omega)).mp hlt)
      have hpow : 2 ^ m ≤ 2 ^ 30 := Nat.pow_le_pow_right (by omega) hm30
      omega
    · intro hle30
      have := hleast 30 (max_le (by omega) (by exact_mod_cast hle30))
      omega
  · have hv : (BitVec.ofInt 32 conf.nrBuckets).toNat = conf.nrBuckets + 2 ^ 32 := by
      rw [BitVec.toNat_ofInt]
      omega
    refine iff_of_false ?_ fun hc => hneg hc.1
    by_cases hmin : (BitVec.ofInt 32 conf.nrBuckets).toNat ≤ 2 ^ 31
    · obtain ⟨m, hm, hle, -⟩ := upperBoundPowerOf2_spec hmin
      have hm' : conf.nrBucketsPowerOf2 = 2 ^ m := hm
      have := le_of_max_le_right hle
      omega
    · exact absurd (upperBoundPowerOf2_wraps (by omega)) hne

/-- **Bucket indices**: the table has the least power of two buckets exactly when the count asked for is
neither negative nor above `2 ^ 30`; from there every call returns and every index stays in range exactly when
no call doubles `2 ^ 30` buckets. -/
theorem bucketIndex_iff (fl : FloatOps φ) (conf : RTableCoreConfig φ) (h0 : -2 ^ 31 ≤ conf.nrBuckets)
    (h1 : conf.nrBuckets < 2 ^ 31) :
    (∀ h : Heap K φ, Blank h → ((rTableCoreInitDetailed conf).Total exec32 h (fun _ h' =>
      LeastPower (max 1 conf.nrBuckets) h'.nrBuckets) ↔ 0 ≤ conf.nrBuckets ∧ conf.nrBuckets ≤ 2 ^ 30)) ∧
    ∀ S : Session (K := K) fl conf, (S.Fits ∧ ∀ i ≤ S.len, IndexOk (S.heap i)) ↔
      (0 ≤ conf.nrBuckets ∧ conf.nrBuckets ≤ 2 ^ 30) ∧ S.Bounded := by
  constructor
  · intro h hb
    constructor
    · rintro ⟨⟨⟨⟩, h', hret⟩, -⟩
      have hret' := exec32_restricts.returns hret
      have hne : conf.nrBucketsPowerOf2 ≠ 0 := fun hz => rTableCoreInitDetailed_stops hz hret'
      exact (nrBucketsPowerOf2_lt_iff h0 h1 hne).mp ((rTableCoreInitDetailed_returns32_iff hret').mp hret)
    · intro hc
      have hne := nrBucketsPowerOf2_ne_zero hc.1 h1
      obtain ⟨⟨⟨⟩, h', hret⟩, hall⟩ := rTableCoreInitDetailed_total hb hne
      have hn : h'.nrBuckets = conf.nrBucketsPowerOf2 := (hall _ _ hret).1.chains.nr
      refine .of_returns exec32 ((rTableCoreInitDetailed_returns32_iff hret).mpr
        ((nrBucketsPowerOf2_lt_iff h0 h1 hne).mpr hc)) ?_
      rw [hn]
      exact nrBucketsPowerOf2_least hc.1 h1
  · intro S
    have hne : conf.nrBucketsPowerOf2 ≠ 0 := by
      obtain ⟨h, -, hret⟩ := S.start
      exact fun hz => rTableCoreInitDetailed_stops hz hret
    rw [S.fits_iff, nrBucketsPowerOf2_lt_iff h0 h1 hne, and_iff_left]
    intro i hi
    obtain ⟨g, hf⟩ := S.flat i hi
    exact hf.toRep.indexOk

/-- With -1 buckets the assertion in `allocateAndInitBuckets` stops the initialization. -/
theorem negative_nrBuckets : ¬ ∀ conf : RTableCoreConfig ℚ, -2 ^ 31 ≤ conf.nrBuckets →
    conf.nrBuckets < 2 ^ 31 → ∀ h : Heap Unit ℚ, Blank h → (rTableCoreInitDetailed conf).Total exec32 h
      fun _ h' => LeastPower (max 1 conf.nrBuckets) h'.nrBuckets := by
  intro hall
  obtain ⟨⟨⟨⟩, h', hret⟩, -⟩ :=
    hall ⟨-1, 1, 1⟩ (by decide) (by decide) (noTable fun _ => ()) (noTable_blank _)
  exact rTableCoreInitDetailed_stops (by decide) (exec32_restricts.returns hret)

/-- The buckets of `twoInserts` are doubled once, far below the bound. -/
theorem twoInserts_bucketIndex : twoInserts.Fits ∧ ∀ i ≤ twoInserts.len, IndexOk (twoInserts.heap i) := by
  refine ((bucketIndex_iff ratOps oneBucket (by decide) (by decide)).2 twoInserts).mpr
    ⟨⟨by decide, by decide⟩, ?_⟩
  intro i hi op r _ _
  have hsmall : ∀ i < 2, (twoInserts.heap i).nrBuckets ≠ 2 ^ 30 := by decide +kernel
  exact hsmall i hi

end RcuTable
