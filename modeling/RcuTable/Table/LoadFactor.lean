import RcuTable.Table.Counting
import Mathlib.Tactic.IntervalCases
import Mathlib.Tactic.Linarith

/-!
# Table.LoadFactor — the resize decisions, with exact arithmetic

The automatic resizes keep the linked nodes within `expandFactor` for each bucket.  They do not keep the
buckets within the population: the decision to expand rests on a counter that only grows.
-/

namespace RcuTable

open Atomic Chain

variable {K φ : Type} {fl : FloatOps φ} {conf : RTableCoreConfig φ}

variable {hq : Heap K ℚ}

theorem expands_ratOps {m n : ℕ} :
    expands ratOps hq m n = true ↔ hq.expandFactor * n < m := by
  simp [expands, ratOps]

theorem shrinks_ratOps {m n : ℕ} :
    shrinks ratOps hq m n = true ↔ (m < hq.shrinkFactor * n ∧ 128 < m) ∧ n ≠ 1 := by
  simp [shrinks, ratOps]

theorem Session.factors (S : Session (K := K) fl conf) : ∀ i ≤ S.len,
    (S.heap i).expandFactor = conf.expandFactor ∧ (S.heap i).shrinkFactor = conf.shrinkFactor := by
  refine S.invariant ⟨S.fresh.expandFactor, S.fresh.shrinkFactor⟩ ?_
  rintro i hi - - ⟨h1, h2⟩
  rcases S.counted hi with ⟨op, r, -, -, -, hc⟩ | ⟨op, r, -, -, -, hc⟩ | ⟨-, m, hc, -⟩ <;>
    exact ⟨hc.expandFactor.trans h1, hc.shrinkFactor.trans h2⟩

/-- The calls that resize by themselves. -/
def Op.Automatic : Op K φ → Prop
  | .tryInsert .. | .tryDetachAutoShrink .. | .tryDetachAndSynchronize .. => True
  | _ => False

/-- Inserts that may expand, detaches that wait for the readers. -/
def Op.Churn : Op K φ → Prop
  | .tryInsert .. | .tryDetachAndSynchronize .. => True
  | _ => False

theorem Op.Churn.automatic {op : Op K φ} (hk : op.Churn) : op.Automatic := by
  cases op with
  | tryInsert | tryDetachAndSynchronize => trivial
  | _ => exact hk.elim

theorem Session.Calls.mono {S : Session (K := K) fl conf} {kind kind' : Op K φ → Prop}
    (hc : S.Calls kind) (hk : ∀ op, kind op → kind' op) : S.Calls kind' :=
  fun i hi op r he => hk op (hc i hi op r he)

/-- A session of automatic calls leaves the bucket count alone where it adds and removes nothing. -/
theorem Session.buckets_kept (S : Session (K := K) fl conf) (hcalls : S.Calls Op.Automatic) {i m : ℕ}
    (hi : i < S.len) (hm : m = (S.heap i).nrBuckets ∨ ∃ op r, S.event i = .call op r ∧
      (op = .expandBuckets2x ∨ op = .shrinkBuckets2x)) : m = (S.heap i).nrBuckets := by
  rcases hm with hm | ⟨op, r, he, rfl | rfl⟩
  · exact hm
  · exact (hcalls i hi _ r he).elim
  · exact (hcalls i hi _ r he).elim

section Load

variable {conf : RTableCoreConfig ℚ}

/-- The counter is never behind, and within the load factor. -/
structure Loaded (conf : RTableCoreConfig ℚ) (h : Heap K ℚ) : Prop where
  linked : h.nrLinked ≤ h.size
  size : (h.size : ℚ) ≤ conf.expandFactor * h.nrBuckets
  one : 1 ≤ conf.expandFactor * h.nrBuckets

theorem Loaded.step {h h' : Heap K ℚ} {op : Op K ℚ} (hl : Loaded conf h)
    (he : h.expandFactor = conf.expandFactor) (hc : Counted h h' 1 0 (op.resize ratOps h h.nrBuckets))
    (hop : op.Automatic) (ha : op.Adds h) : Loaded conf h' := by
  have h1 := hl.size
  have h2 := hl.one
  have h3 := hl.linked
  have h4 := hc.linked
  have h5 := hc.size
  have hb := hc.buckets
  cases op with
  | tryInsert n x f =>
    simp only [Op.resize] at hb
    by_cases hexp : expands ratOps h (h.size + 1) h.nrBuckets = true
    · rw [if_pos hexp] at hb
      refine ⟨by omega, ?_, ?_⟩
      · rw [hb, h5]
        push_cast
        linarith
      · rw [hb]
        push_cast
        linarith
    · rw [if_neg hexp] at hb
      rw [expands_ratOps, he, not_lt] at hexp
      refine ⟨by omega, ?_, ?_⟩
      · rw [hb, h5]
        exact hexp
      · rwa [hb]
  | tryDetachAutoShrink | tryDetachAndSynchronize => exact ha.elim
  | _ => exact hop.elim

theorem Rep.two_mul_half {h : Heap K φ} {g : View} (hr : Rep h g) (h1 : h.nrBuckets ≠ 1) :
    h.nrBuckets = 2 * (h.nrBuckets / 2) := by
  obtain ⟨k, hk⟩ := hr.pow
  rw [hr.nrBuckets, hk] at h1 ⊢
  cases k with
  | zero => exact absurd rfl h1
  | succ k => omega

theorem Loaded.shrunk {h h' : Heap K ℚ} {g : View} (hf : Flat h g) (hl : Loaded conf h)
    (hs : 2 * conf.shrinkFactor ≤ conf.expandFactor) (he : h.shrinkFactor = conf.shrinkFactor) {op : Op K ℚ}
    (hc : Counted h h' 0 1 (op.resize ratOps h h.nrBuckets)) (hop : op.Automatic)
    (hr : op.Removes h) : Loaded conf h' := by
  have h1 := hl.size
  have h2 := hl.one
  have h3 := hl.linked
  have h4 := hc.linked
  have h5 := hc.size
  have hb : h'.nrBuckets =
      if shrinks ratOps h h.size h.nrBuckets then h.nrBuckets / 2 else h.nrBuckets := by
    cases op with
    | tryDetachAutoShrink | tryDetachAndSynchronize => exact hc.buckets
    | tryInsert => exact hr.elim
    | _ => exact hop.elim
  by_cases hsh : shrinks ratOps h h.size h.nrBuckets = true
  · rw [if_pos hsh] at hb
    obtain ⟨⟨hlt, h128⟩, hne⟩ := shrinks_ratOps.mp hsh
    rw [he] at hlt
    -- half of the buckets still carry the count: `size < s * n` and `2 * s ≤ f`
    have heven : (h.nrBuckets : ℚ) = 2 * h'.nrBuckets := by
      rw [hb]
      exact_mod_cast hf.toRep.two_mul_half hne
    have hn : (0 : ℚ) ≤ h.nrBuckets := Nat.cast_nonneg _
    have hhalf : conf.shrinkFactor * h.nrBuckets ≤ conf.expandFactor * h'.nrBuckets := by
      have hmul := mul_le_mul_of_nonneg_right hs hn
      rw [heven] at hmul ⊢
      linarith
    have hbig : (128 : ℚ) < h.size := by exact_mod_cast h128
    refine ⟨by omega, ?_, by linarith⟩
    rw [h5]
    push_cast
    linarith
  · rw [if_neg hsh] at hb
    refine ⟨by omega, ?_, by rwa [hb]⟩
    rw [hb, h5]
    exact h1

/-- **The load factor bound.** -/
theorem load_factor_bound (S : Session (K := K) ratOps conf) (hcalls : S.Calls Op.Automatic)
    (hf : 1 ≤ conf.expandFactor * conf.nrBucketsPowerOf2)
    (hs : 2 * conf.shrinkFactor ≤ conf.expandFactor) :
    ∀ i ≤ S.len, ((S.heap i).nrLinked : ℚ) ≤ conf.expandFactor * (S.heap i).nrBuckets := by
  have hinv : ∀ i ≤ S.len, Loaded conf (S.heap i) := by
    refine S.invariant ?_ ?_
    · have hn : (S.heap 0).nrBuckets = conf.nrBucketsPowerOf2 := S.fresh.chains.nr
      refine ⟨by rw [S.nrLinked_zero]; omega, ?_, by rwa [hn]⟩
      rw [S.fresh.size, hn]
      push_cast
      linarith
    · intro i hi g hf hl
      obtain ⟨he, hsh⟩ := S.factors i (by omega)
      rcases S.counted hi with ⟨op, r, hev, ha, -, hc⟩ | ⟨op, r, hev, hr, -, hc⟩ | ⟨-, m, hc, hm⟩
      · exact hl.step he hc (hcalls i hi op r hev) ha
      · exact hl.shrunk hf hs hsh hc (hcalls i hi op r hev) hr
      · have hb := hc.buckets
        rw [S.buckets_kept hcalls hi hm] at hb
        have h1 := hl.linked
        have h2 := hc.linked
        have h3 := hc.size
        exact ⟨by omega, by rw [h3, hb]; exact hl.size, by rw [hb]; exact hl.one⟩
  intro i hi
  have hl := hinv i hi
  exact le_trans (by exact_mod_cast hl.linked) hl.size

/-- The buckets stay within twice the greatest population, as long as every insert that doubles them does so
for the nodes that are there. -/
theorem buckets_proportional (S : Session (K := K) ratOps conf) (hcalls : S.Calls Op.Churn) {L : ℕ}
    (hL : ∀ i ≤ S.len, (S.heap i).nrLinked ≤ L)
    (hf : 1 ≤ conf.expandFactor * conf.nrBucketsPowerOf2)
    (hcount : ∀ i < S.len, ∀ n x f r, S.event i = .call (.tryInsert n x f) r →
      Op.Adds (S.heap i) (.tryInsert n x f) →
      conf.expandFactor * (S.heap i).nrBuckets < (S.heap i).size + 1 →
      conf.expandFactor * (S.heap i).nrBuckets < (S.heap i).nrLinked + 1) :
    ∀ i ≤ S.len, ((S.heap i).nrBuckets : ℚ) ≤
      max (conf.nrBucketsPowerOf2 : ℚ) (2 * L / conf.expandFactor) := by
  have hpos : 0 < conf.expandFactor := by
    by_contra hc
    have h1 : (0 : ℚ) ≤ conf.nrBucketsPowerOf2 := Nat.cast_nonneg _
    have h2 := mul_nonpos_of_nonpos_of_nonneg (not_lt.mp hc) h1
    linarith
  refine S.invariant ?_ ?_
  · have hn : (S.heap 0).nrBuckets = conf.nrBucketsPowerOf2 := S.fresh.chains.nr
    rw [hn]
    exact le_max_left _ _
  · intro i hi g hf' hle
    obtain ⟨he, hsh⟩ := S.factors i (by omega)
    have hmax := hL (i + 1) hi
    have hauto : S.Calls Op.Automatic := hcalls.mono fun _ => Op.Churn.automatic
    rcases S.counted hi with ⟨op, r, hev, ha, -, hc⟩ | ⟨op, r, hev, hr, -, hc⟩ | ⟨-, m, hc, hm⟩
    · have hb := hc.buckets
      have hl := hc.linked
      have hop := hcalls i hi op r hev
      cases op with
      | tryInsert n x f =>
        simp only [Op.resize] at hb
        by_cases hexp : expands ratOps (S.heap i) ((S.heap i).size + 1) (S.heap i).nrBuckets = true
        · rw [if_pos hexp] at hb
          rw [expands_ratOps, he] at hexp
          have hlt := hcount i hi n x f r hev ha (by exact_mod_cast hexp)
          have hpop : ((S.heap i).nrLinked : ℚ) + 1 ≤ L := by
            have h1 : (S.heap i).nrLinked + 1 ≤ L := by omega
            exact_mod_cast h1
          refine le_max_of_le_right ?_
          rw [le_div_iff₀ hpos, hb]
          push_cast
          linarith
        · rw [if_neg hexp] at hb
          rwa [hb]
      | tryDetachAndSynchronize => exact ha.elim
      | _ => exact hop.elim
    · have hle' : (S.heap (i + 1)).nrBuckets ≤ (S.heap i).nrBuckets := by
        rw [hc.buckets]
        have hop := hcalls i hi op r hev
        cases op with
        | tryInsert => exact hr.elim
        | tryDetachAndSynchronize =>
          simp only [Op.resize]
          split
          · exact Nat.div_le_self _ _
          · exact le_rfl
        | _ => exact hop.elim
      exact le_trans (by exact_mod_cast hle') hle
    · have hb := hc.buckets
      rw [S.buckets_kept hauto hi hm] at hb
      rwa [hb]

/-- A session of inserts and detaches of one node at a time. -/
structure Single (S : Session (K := Unit) ratOps oneBucket) : Prop where
  calls : S.Calls Op.Churn
  one : ∀ i ≤ S.len, (S.heap i).nrLinked ≤ 1

theorem churn0_single : Single churn0 where
  calls i hi := absurd hi (Nat.not_lt_zero i)
  one i hi := by
    rw [Nat.le_zero.mp hi, churn0.nrLinked_zero]
    exact Nat.zero_le 1

theorem Single.call {S : Session (K := Unit) ratOps oneBucket} (hS : Single S) {op : Op Unit ℚ}
    {hfree : ∀ p, op.own p → ¬ S.last.Linked p}
    {hret : ((op.code ratOps).run exec 200 S.last).isSome} (hop : op.Churn)
    (hfew : ((S.call 200 op hfree hret).last.nodes 4).any (fun l => decide (l.toFinset.card ≤ 1)) = true) :
    Single (S.call 200 op hfree hret) where
  calls := hS.calls.call hop
  one := by
    obtain ⟨l, hl, hle⟩ := Option.any_eq_true .. |>.mp hfew
    have hlast : (S.call 200 op hfree hret).last.nrLinked ≤ 1 := by
      rw [Heap.nrLinked_of_nodes hl]
      exact of_decide_eq_true hle
    have hval : (S.call 200 op hfree hret).last = (Option.get _ hret).2 := Function.update_self _ _ _
    rw [hval] at hlast
    exact Session.forall_snoc (P := fun h => h.nrLinked ≤ 1) hS.one hlast

theorem Single.insertZero {S : Session (K := Unit) ratOps oneBucket} (hS : Single S) {hn hret}
    (hfew : ((S.insertZero hn hret).last.nodes 4).any (fun l => decide (l.toFinset.card ≤ 1)) = true) :
    Single (S.insertZero hn hret) := hS.call trivial hfew

theorem Single.detachZero {S : Session (K := Unit) ratOps oneBucket} (hS : Single S) {hret}
    (hfew : ((S.detachZero hret).last.nodes 4).any (fun l => decide (l.toFinset.card ≤ 1)) = true) :
    Single (S.detachZero hret) := hS.call trivial hfew

/-- The two inserts, with the counter right all along. -/
theorem twoInserts_counts : twoInserts.Calls Op.Churn ∧ (∀ i ≤ twoInserts.len,
    (twoInserts.heap i).nrLinked ≤ 2 ∧ (twoInserts.heap i).size = (twoInserts.heap i).nrLinked) := by
  have h1 : Single churn1 := churn0_single.insertZero (by decide +kernel)
  have hone : (churn1.last).nrLinked = 1 :=
    Heap.nrLinked_eq (show (churn1.last.nodes 4).map _ = some 1 by decide +kernel)
  have htwo : (twoInserts.last).nrLinked = 2 :=
    Heap.nrLinked_eq (show (twoInserts.last.nodes 4).map _ = some 2 by decide +kernel)
  refine ⟨h1.calls.call trivial, ?_⟩
  · intro i hi
    have hi2 : i ≤ 2 := hi
    interval_cases i
    · show churn0.last.nrLinked ≤ 2 ∧ churn0.last.size = churn0.last.nrLinked
      have hzero : churn0.last.nrLinked = 0 := churn0.nrLinked_zero
      rw [hzero]
      exact ⟨by omega, by decide +kernel⟩
    · show churn1.last.nrLinked ≤ 2 ∧ churn1.last.size = churn1.last.nrLinked
      rw [hone]
      exact ⟨by omega, by decide +kernel⟩
    · show twoInserts.last.nrLinked ≤ 2 ∧ twoInserts.last.size = twoInserts.last.nrLinked
      rw [htwo]
      exact ⟨by omega, by decide +kernel⟩

theorem churn5_single : Single churn5 := by
  have h1 : Single churn1 := churn0_single.insertZero (by decide +kernel)
  have h2 : Single churn2 := h1.detachZero (by decide +kernel)
  have h3 : Single churn3 := h2.insertZero (by decide +kernel)
  have h4 : Single churn4 := h3.detachZero (by decide +kernel)
  exact h4.insertZero (by decide +kernel)

/-- A node that comes and goes leaves four buckets behind. -/
theorem churn5_buckets : ¬ ∀ (S : Session (K := Unit) ratOps oneBucket) (L : ℕ), S.Calls Op.Churn →
    (∀ i ≤ S.len, (S.heap i).nrLinked ≤ L) →
    1 ≤ oneBucket.expandFactor * oneBucket.nrBucketsPowerOf2 →
    ∀ i ≤ S.len, ((S.heap i).nrBuckets : ℚ) ≤
      max (oneBucket.nrBucketsPowerOf2 : ℚ) (2 * L / oneBucket.expandFactor) := by
  intro hall
  have h4 := hall churn5 1 churn5_single.calls churn5_single.one (by decide +kernel) 5 le_rfl
  exact absurd h4 (by decide +kernel)

theorem twoInserts_proportional : (twoInserts.last.nrBuckets : ℚ) ≤
    max (oneBucket.nrBucketsPowerOf2 : ℚ) (2 * (2 : ℕ) / oneBucket.expandFactor) := by
  obtain ⟨hcalls, hcounts⟩ := twoInserts_counts
  refine buckets_proportional twoInserts hcalls (fun i hi => (hcounts i hi).1) (by decide +kernel) ?_ 2 le_rfl
  intro i hi n x f r he ha hlt
  rw [← (hcounts i (Nat.le_of_lt hi)).2]
  exact hlt

theorem twoInserts_load : (twoInserts.last.nrLinked : ℚ) ≤
    oneBucket.expandFactor * twoInserts.last.nrBuckets :=
  load_factor_bound twoInserts (twoInserts_counts.1.mono fun _ => Op.Churn.automatic) (by decide +kernel)
    (by decide +kernel) 2 le_rfl

end Load

end RcuTable
