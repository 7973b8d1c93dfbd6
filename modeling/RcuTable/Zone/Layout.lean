import Mathlib.Algebra.Order.Ring.Int
import RcuTable.Table.Init
import RcuTable.Zone.Model

/-!
# Zone.Layout — the reader counters that `rcuInitZoneWithBucketCounts` lays out

`int` is a ℤ, `uint32_t` and `size_t` are words, and every conversion of the code is written out.  A request
that rounds to `2 ^ 31` becomes a negative bucket count, and `new[]` refuses the array; one above `2 ^ 31`
rounds to `0`, and the zone is left without buckets for unregistered threads.
-/

namespace RcuTable

namespace Zone

/-- RCU.cpp has its own copy. -/
def upperBoundPowerOf2 (v : BitVec 32) : BitVec 32 :=
  let v := if v = 0 then v + 1 else v
  let v := v - 1
  let v := v ||| v >>> 1
  let v := v ||| v >>> 2
  let v := v ||| v >>> 4
  let v := v ||| v >>> 8
  let v := v ||| v >>> 16
  v + 1

theorem upperBoundPowerOf2_eq (v : BitVec 32) : upperBoundPowerOf2 v = RcuTable.upperBoundPowerOf2 v := by
  unfold upperBoundPowerOf2 RcuTable.upperBoundPowerOf2
  by_cases hv : v = 0
  · rw [if_pos hv, if_pos hv, hv]
    rfl
  · rw [if_neg hv, if_neg hv]

/-- A zone after its initialization.  A pointer to a counter is an offset from `pStart`; `nrRefCounts` is the
length of the array there. -/
structure RCUZone where
  nrHashThreadBuckets : ℤ
  nrRefCounts : ℕ
  count : ℤ → ℤ
  pBuckets : ℕ → ℕ
  epochLatest : ℕ
  epochOldest : ℕ

/-- `sizeof(RCUReaderRefCountBucket)`. -/
def c_refCountBucketSize : ℕ := 64

/-- Whether `new RCUReaderRefCountBucket[n]` returns: an array of more bytes than a `size_t` counts is
refused, any other is up to the allocator. -/
def newRefCounts (alloc : ℕ → Bool) (n : BitVec 64) : Bool :=
  decide (n.toNat * c_refCountBucketSize < 2 ^ 64) && alloc n.toNat

def rcuInitZoneWithBucketCounts (alloc : ℕ → Bool) (nrNonOverlappingBucketCount : ℤ)
    (nrHashThreadBuckets : BitVec 32) : Option RCUZone :=
  let nrHashThreadBuckets := if nrHashThreadBuckets < 1 then 1 else nrHashThreadBuckets
  let n : ℤ := (upperBoundPowerOf2 nrHashThreadBuckets).toInt
  let nrBucketsOneEpoch := BitVec.ofInt 64 (n + nrNonOverlappingBucketCount)
  let nrTotalRefCounts := nrBucketsOneEpoch * BitVec.ofNat 64 c_maxEpoches
  if newRefCounts alloc nrTotalRefCounts then
    some {
      nrHashThreadBuckets := n
      nrRefCounts := nrTotalRefCounts.toNat
      count := fun _ => 0
      pBuckets := fun iEpoch => (BitVec.ofNat 64 iEpoch * nrBucketsOneEpoch).toNat
      epochLatest := 0
      epochOldest := 0 }
  else none

namespace RCUZone

variable (zone : RCUZone) (nrNonOverlappingBucketCount : ℤ)

def nrBucketsPerEpoch : ℤ := zone.nrHashThreadBuckets + nrNonOverlappingBucketCount

def fetchThreadBucketId (tlsReaderBucketId : ℤ) (hash : BitVec 64) : ℤ :=
  if tlsReaderBucketId ≠ -1 then tlsReaderBucketId
  else nrNonOverlappingBucketCount +
    ((hash &&& BitVec.ofInt 64 (zone.nrHashThreadBuckets - 1)).setWidth 32).toInt

/-- `&zone.epochsRing[epochRowId].pBuckets[threadBucketId].count`. -/
def counter (row : ℕ) (bucket : ℤ) : ℤ := zone.pBuckets row + bucket

/-- The counters that `rcuSynchronize` waits for, with `epochOldest` at `e`. -/
def scanned (e : ℕ) : List ℤ :=
  (List.range (zone.nrBucketsPerEpoch nrNonOverlappingBucketCount).toNat).map fun iBucket : ℕ =>
    zone.counter (epochRowId e) iBucket

end RCUZone

/-- A thread that has not registered, or holds an id that registration gave it. -/
def ValidTls (nrNonOverlappingBucketCount tlsReaderBucketId : ℤ) : Prop :=
  tlsReaderBucketId = -1 ∨ 0 ≤ tlsReaderBucketId ∧ tlsReaderBucketId < nrNonOverlappingBucketCount

/-- What the layout is to be, for `N` registered threads. -/
structure Layout (N : ℤ) (request : BitVec 32) (zone : RCUZone) : Prop where
  pow : ∃ m : ℕ, zone.nrHashThreadBuckets = 2 ^ m
  enough : (request.toNat : ℤ) ≤ zone.nrHashThreadBuckets
  index : ∀ tls hash, ValidTls N tls → 0 ≤ zone.fetchThreadBucketId N tls hash ∧
    zone.fetchThreadBucketId N tls hash < zone.nrBucketsPerEpoch N
  inside : ∀ row < c_maxEpoches, ∀ b, 0 ≤ b → b < zone.nrBucketsPerEpoch N →
    0 ≤ zone.counter row b ∧ zone.counter row b < zone.nrRefCounts
  distinct : ∀ row < c_maxEpoches, ∀ row' < c_maxEpoches, ∀ b b', 0 ≤ b → b < zone.nrBucketsPerEpoch N →
    0 ≤ b' → b' < zone.nrBucketsPerEpoch N → zone.counter row b = zone.counter row' b' →
    row = row' ∧ b = b'
  scanned : ∀ e b, 0 ≤ b → b < zone.nrBucketsPerEpoch N → zone.counter (epochRowId e) b ∈ zone.scanned N e
  covered : ∀ c : ℤ, 0 ≤ c → c < zone.nrRefCounts → ∃ e < c_maxEpoches, c ∈ zone.scanned N e

/-- `zone.nrHashThreadBuckets`, as the code computes it. -/
def roundedRequest (request : BitVec 32) : ℤ :=
  (upperBoundPowerOf2 (if request < 1 then 1 else request)).toInt

theorem toNat_atLeastOne (request : BitVec 32) :
    (if request < 1 then 1 else request).toNat = max 1 request.toNat := by
  have hlit : (1 : BitVec 32).toNat = 1 := rfl
  by_cases h : request < 1
  · rw [if_pos h]
    rw [BitVec.lt_def] at h
    omega
  · rw [if_neg h]
    rw [BitVec.lt_def] at h
    omega

/-- Where the rounding and the narrowing to `int` take a request. -/
theorem roundedRequest_cases (request : BitVec 32) :
    (request.toNat ≤ 2 ^ 30 ∧ ∃ m ≤ 30, roundedRequest request = 2 ^ m ∧ request.toNat ≤ 2 ^ m) ∨
    (2 ^ 30 < request.toNat ∧ request.toNat ≤ 2 ^ 31 ∧ roundedRequest request = -2 ^ 31) ∨
    (2 ^ 31 < request.toNat ∧ roundedRequest request = 0) := by
  have hone := toNat_atLeastOne request
  unfold roundedRequest
  rw [upperBoundPowerOf2_eq]
  generalize (if request < 1 then 1 else request) = v at hone ⊢
  by_cases h31 : request.toNat ≤ 2 ^ 31
  · obtain ⟨m, hm, hge, hleast⟩ := upperBoundPowerOf2_spec (v := v) (by omega)
    by_cases h30 : request.toNat ≤ 2 ^ 30
    · have hm30 : m ≤ 30 := hleast 30 (by omega)
      have hpow : 2 ^ m ≤ 2 ^ 30 := Nat.pow_le_pow_right (by omega) hm30
      refine Or.inl ⟨h30, m, hm30, ?_, by omega⟩
      rw [BitVec.toInt_eq_toNat_of_lt (by omega), hm]
      push_cast
      rfl
    · -- the rounded request is the one power of two that is no `int`
      have hm31 : m = 31 := by
        refine le_antisymm (hleast 31 (by omega)) ?_
        by_contra hlt
        have : 2 ^ m ≤ 2 ^ 30 := Nat.pow_le_pow_right (by omega) (by omega)
        omega
      refine Or.inr (Or.inl ⟨by omega, h31, ?_⟩)
      rw [BitVec.toInt_eq_toNat_cond, hm, hm31]
      rfl
  · refine Or.inr (Or.inr ⟨by omega, ?_⟩)
    have h0 := upperBoundPowerOf2_wraps (v := v) (by omega)
    rw [BitVec.toInt_eq_toNat_of_lt (by omega), h0]
    rfl

variable {alloc : ℕ → Bool} {N : ℤ} {request : BitVec 32} {zone : RCUZone}

/-- What an initialization that completes leaves. -/
theorem rcuInit_some (hlo : -2 ^ 31 ≤ roundedRequest request + N) (hhi : roundedRequest request + N < 2 ^ 31)
    (h : rcuInitZoneWithBucketCounts alloc N request = some zone) :
    0 ≤ roundedRequest request + N ∧ zone.nrHashThreadBuckets = roundedRequest request ∧
      (zone.nrRefCounts : ℤ) = 2 * (roundedRequest request + N) ∧
      ∀ row < c_maxEpoches, (zone.pBuckets row : ℤ) = row * (roundedRequest request + N) := by
  unfold rcuInitZoneWithBucketCounts newRefCounts at h
  dsimp only at h
  rw [← roundedRequest] at h
  split_ifs at h with hnew
  obtain rfl := Option.some.inj h
  rw [Bool.and_eq_true, decide_eq_true_eq] at hnew
  have hbytes := hnew.1
  generalize roundedRequest request + N = L at *
  have hmod : (BitVec.ofInt 64 L).toNat = (L % 2 ^ 64).toNat := BitVec.toNat_ofInt L
  have htwo : (BitVec.ofNat 64 c_maxEpoches).toNat = 2 := rfl
  rw [BitVec.toNat_mul, htwo, hmod, c_refCountBucketSize] at hbytes
  have hpos : 0 ≤ L := by omega
  refine ⟨hpos, rfl, ?_, ?_⟩ <;> dsimp only
  · rw [BitVec.toNat_mul, htwo, hmod]
    omega
  · intro row hrow
    have hr : row = 0 ∨ row = 1 := by
      rw [c_maxEpoches] at hrow
      omega
    rcases hr with rfl | rfl
    · simp
    · rw [BitVec.toNat_mul, hmod, BitVec.toNat_ofNat]
      omega

/-- The mask and the casts take the low bits of the thread-id hash. -/
theorem masked_hash {n : ℤ} (h0 : 0 < n) (h1 : n ≤ 2 ^ 30) (hash : BitVec 64) :
    ((hash &&& BitVec.ofInt 64 (n - 1)).setWidth 32).toInt = (hash.toNat &&& (n.toNat - 1) : ℕ) := by
  have hmask : (BitVec.ofInt 64 (n - 1)).toNat = n.toNat - 1 := by
    rw [BitVec.toNat_ofInt]
    omega
  have hand : (hash &&& BitVec.ofInt 64 (n - 1)).toNat = hash.toNat &&& (n.toNat - 1) := by
    rw [BitVec.toNat_and, hmask]
  have hle : hash.toNat &&& (n.toNat - 1) ≤ n.toNat - 1 := Nat.and_le_right
  have hw : ((hash &&& BitVec.ofInt 64 (n - 1)).setWidth 32).toNat = hash.toNat &&& (n.toNat - 1) := by
    rw [BitVec.toNat_setWidth, hand]
    omega
  rw [BitVec.toInt_eq_toNat_of_lt (by omega), hw]

theorem epochRowId_lt (e : ℕ) : epochRowId e < c_maxEpoches := by
  rw [epochRowId_eq]
  exact Nat.mod_lt e Nat.two_pos

/-- Two rows of counters, one after the other. -/
theorem layout_of_rows {m : ℕ} (hm : m ≤ 30) (hN : 0 < N) (hn : zone.nrHashThreadBuckets = 2 ^ m)
    (hreq : request.toNat ≤ 2 ^ m) (hnr : (zone.nrRefCounts : ℤ) = 2 * (zone.nrHashThreadBuckets + N))
    (hrow : ∀ row < c_maxEpoches, (zone.pBuckets row : ℤ) = row * (zone.nrHashThreadBuckets + N)) :
    Layout N request zone := by
  have hpos : (0 : ℤ) < 2 ^ m := pow_pos (by omega) m
  have hmax : (2 : ℤ) ^ m ≤ 2 ^ 30 := pow_le_pow_right₀ (by omega) hm
  have hlen : zone.nrBucketsPerEpoch N = zone.nrHashThreadBuckets + N := rfl
  have hmem : ∀ (e : ℕ) (b : ℤ), 0 ≤ b → b < zone.nrBucketsPerEpoch N →
      zone.counter (epochRowId e) b ∈ zone.scanned N e := by
    intro e b h0 hb
    have hlt : b.toNat < (zone.nrBucketsPerEpoch N).toNat := by omega
    refine List.mem_map.mpr ⟨b.toNat, List.mem_range.mpr hlt, ?_⟩
    rw [Int.toNat_of_nonneg h0]
  have hat : ∀ row < c_maxEpoches, row = 0 ∧ (zone.pBuckets row : ℤ) = 0 ∨
      row = 1 ∧ (zone.pBuckets row : ℤ) = zone.nrHashThreadBuckets + N := by
    intro row hr
    rw [hrow row hr]
    have hr' : row = 0 ∨ row = 1 := by
      rw [c_maxEpoches] at hr
      omega
    rcases hr' with rfl | rfl
    · exact Or.inl ⟨rfl, by simp⟩
    · exact Or.inr ⟨rfl, by simp⟩
  refine ⟨⟨m, hn⟩, ?_, ?_, ?_,
    ?_, hmem, ?_⟩
  · rw [hn]
    exact_mod_cast hreq
  · intro tls hash htls
    unfold RCUZone.fetchThreadBucketId
    by_cases h1 : tls ≠ -1
    · rw [if_pos h1]
      rcases htls with h2 | h2 <;> omega
    · have hle : hash.toNat &&& (zone.nrHashThreadBuckets.toNat - 1) ≤ zone.nrHashThreadBuckets.toNat - 1 :=
        Nat.and_le_right
      rw [if_neg h1, masked_hash (by omega) (by omega)]
      omega
  · intro row hr b h0 hb
    unfold RCUZone.counter
    rcases hat row hr with ⟨-, h1⟩ | ⟨-, h1⟩ <;> omega
  · intro row hr row' hr' b b' h0 hb h0' hb' he
    unfold RCUZone.counter at he
    rcases hat row hr with ⟨h1, h2⟩ | ⟨h1, h2⟩ <;> rcases hat row' hr' with ⟨h3, h4⟩ | ⟨h3, h4⟩ <;> omega
  · intro c h0 hc
    by_cases hfirst : c < zone.nrBucketsPerEpoch N
    · refine ⟨0, by decide, ?_⟩
      have h1 := hmem 0 c h0 hfirst
      have h2 := hrow 0 (by decide)
      rw [RCUZone.counter, show epochRowId 0 = 0 from rfl] at h1
      simpa [h2] using h1
    · refine ⟨1, by decide, ?_⟩
      have h1 := hmem 1 (c - zone.nrBucketsPerEpoch N) (by omega) (by omega)
      have h2 := hrow 1 (by decide)
      rw [RCUZone.counter, show epochRowId 1 = 1 from rfl, h2, hlen] at h1
      simpa using h1

/-- A request that 32 bits can round up gets the right layout, if any. -/
theorem layout_of_request (hN : 0 < N) (hint : N < 2 ^ 31)
    (hlo : -2 ^ 31 ≤ roundedRequest request + N) (hhi : roundedRequest request + N < 2 ^ 31)
    (hle : request.toNat ≤ 2 ^ 31) (hz : rcuInitZoneWithBucketCounts alloc N request = some zone) :
    Layout N request zone := by
  obtain ⟨hpos, hn, hnr, hrow⟩ := rcuInit_some hlo hhi hz
  rcases roundedRequest_cases request with ⟨h1, m, hm, hr, hreq⟩ | ⟨h1, h2, hr⟩ | ⟨h1, hr⟩
  · exact layout_of_rows hm hN (hn.trans hr) hreq (by rw [hnr, hn]) fun row hlt => by rw [hrow row hlt, hn]
  · -- a row of negative length is a huge `size_t`, and the array is refused
    omega
  · omega

/-- The layout is right, whenever there is one, exactly for the requests that 32 bits can round up. -/
theorem layout_iff (hN : 0 < N) (hint : N < 2 ^ 31)
    (hlo : -2 ^ 31 ≤ roundedRequest request + N) (hhi : roundedRequest request + N < 2 ^ 31) :
    (∀ alloc zone, rcuInitZoneWithBucketCounts alloc N request = some zone → Layout N request zone) ↔
      request.toNat ≤ 2 ^ 31 := by
  by_cases hle : request.toNat ≤ 2 ^ 31
  · exact iff_of_true (fun alloc zone hz => layout_of_request hN hint hlo hhi hle hz) hle
  · refine iff_of_false ?_ hle
    intro hall
    have hr : roundedRequest request = 0 := by
      rcases roundedRequest_cases request with ⟨h1, m, hm, hr, hreq⟩ | ⟨h1, h2, hr⟩ | ⟨h1, hr⟩
      · omega
      · omega
      · exact hr
    have hsome : ∃ zone, rcuInitZoneWithBucketCounts (fun _ => true) N request = some zone := by
      unfold rcuInitZoneWithBucketCounts newRefCounts
      dsimp only
      rw [← roundedRequest, hr]
      refine ⟨_, if_pos ?_⟩
      have htwo : (BitVec.ofNat 64 c_maxEpoches).toNat = 2 := rfl
      rw [Bool.and_true, decide_eq_true_eq, BitVec.toNat_mul, htwo, BitVec.toNat_ofInt, c_refCountBucketSize]
      omega
    obtain ⟨zone, hz⟩ := hsome
    obtain ⟨-, hn, -⟩ := rcuInit_some hlo hhi hz
    obtain ⟨m, hm⟩ := (hall _ zone hz).pow
    have : (0 : ℤ) < 2 ^ m := pow_pos (by omega) m
    omega

theorem five_layout : ∃ zone, rcuInitZoneWithBucketCounts (fun _ => true) 4 5 = some zone ∧ Layout 4 5 zone :=
  ⟨_, rfl, (layout_iff (by decide) (by decide) (by decide) (by decide)).mpr (by decide) (fun _ => true) _ rfl⟩

/-- `nrRcuBucketsForUnregisteredThreads = -1` arrives as the greatest request. -/
theorem negative_request_no_layout : ¬ ∀ alloc zone,
    rcuInitZoneWithBucketCounts alloc 1 (BitVec.ofInt 32 (-1)) = some zone →
      Layout 1 (BitVec.ofInt 32 (-1)) zone := by
  intro hall
  obtain ⟨m, hm⟩ := (hall (fun _ => true) _ rfl).pow
  have h0 : (upperBoundPowerOf2 (BitVec.ofInt 32 (-1))).toInt = 0 := by decide
  have : (0 : ℤ) < 2 ^ m := pow_pos (by omega) m
  exact absurd (hm.symm.trans h0) (by omega)

/-- The configuration under which `Zone.step` runs on an initialized zone. -/
def RCUZone.cfg (zone : RCUZone) (N : ℕ) (h : 0 < zone.nrHashThreadBuckets) : ZoneCfg :=
  ⟨zone.nrHashThreadBuckets.toNat, N, by omega⟩

/-- The step model bumps, and scans, the counters of the layout. -/
theorem cfg_of_init {N : ℕ} (hN : 0 < N) (hint : N < 2 ^ 31)
    (hlo : -2 ^ 31 ≤ roundedRequest request + N) (hhi : roundedRequest request + N < 2 ^ 31)
    (hreq : request.toNat ≤ 2 ^ 31) (hz : rcuInitZoneWithBucketCounts alloc N request = some zone) :
    ∃ h0 : 0 < zone.nrHashThreadBuckets,
      (∀ e b, slot (zone.cfg N h0) e b = zone.counter (epochRowId e) b) ∧
      (∀ e, zone.scanned N e = (List.range (nrBucketsPerEpoch (zone.cfg N h0))).map
        fun i : ℕ => slot (zone.cfg N h0) e i) ∧
      ∀ {T W : Type} (z : Zone T W) (hash : T → BitVec 64) (t : T),
        fetchThreadBucketId (zone.cfg N h0) (fun t => (hash t).toNat) z t =
          zone.fetchThreadBucketId N (z.tlsReaderBucketId t) (hash t) := by
  obtain ⟨m, hm⟩ := (layout_of_request (by omega) (by omega) hlo hhi hreq hz).pow
  obtain ⟨-, hn, -, hrow⟩ := rcuInit_some hlo hhi hz
  have h0 : 0 < zone.nrHashThreadBuckets := hm ▸ pow_pos (by omega) m
  have hlen : (nrBucketsPerEpoch (zone.cfg N h0) : ℤ) = zone.nrBucketsPerEpoch N := by
    show ((zone.nrHashThreadBuckets.toNat + N : ℕ) : ℤ) = zone.nrHashThreadBuckets + N
    omega
  have hslot : ∀ e b, slot (zone.cfg N h0) e b = zone.counter (epochRowId e) b := by
    intro e b
    rw [slot, RCUZone.counter, hrow _ (epochRowId_lt e), hlen, ← hn]
    rfl
  refine ⟨h0, hslot, fun e => ?_, fun z hash t => ?_⟩
  · unfold RCUZone.scanned
    rw [← hlen, Int.toNat_natCast]
    exact List.map_congr_left fun i _ => (hslot e i).symm
  · have h30 : zone.nrHashThreadBuckets ≤ 2 ^ 30 := by
      rcases roundedRequest_cases request with ⟨-, k, hk, hr, -⟩ | ⟨-, -, hr⟩ | ⟨hbig, -⟩
      · rw [hn, hr]
        exact pow_le_pow_right₀ (by omega) hk
      · omega
      · omega
    unfold fetchThreadBucketId RCUZone.fetchThreadBucketId
    rw [masked_hash h0 h30]
    rfl

end Zone

end RcuTable
