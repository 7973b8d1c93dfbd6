import RcuTable.Table.Session
import Mathlib.Algebra.Order.Field.Rat

/-!
# Table.Counting — the element counter

`Session.counted` gives the size, the number of linked nodes and of buckets after every step of a session.
`table.size` counts the inserts; no detach takes anything off it.
-/

namespace RcuTable

open Atomic Chain

variable {K φ : Type} {fl : FloatOps φ} {h h' : Heap K φ} {g g' : View} {conf : RTableCoreConfig φ}

/-- The call is a detach that finds a node to detach. -/
def Op.Removes (h : Heap K φ) : Op K φ → Prop
  | .tryDetachNoShrink x f | .tryDetachAutoShrink x f | .tryDetachAndSynchronize x f =>
    ∃ p, h.InBucket x p ∧ f h p = true
  | _ => False

/-- The call is an insert that nothing in the bucket refuses. -/
def Op.Adds (h : Heap K φ) : Op K φ → Prop
  | .tryInsert n x f | .tryInsertNoExpand n x f =>
    ∀ p, h.InBucket x p → f (h.setHash (.node n) x) p (.node n) = false
  | .insertNoExpand _ => True
  | _ => False

/-- The buckets after an insert or a detach that succeeds, before which there are `n`. -/
def Op.resize (fl : FloatOps φ) (h : Heap K φ) (n : ℕ) : Op K φ → ℕ
  | .tryInsert .. => if expands fl h (h.size + 1) n then 2 * n else n
  | .tryDetachAutoShrink .. | .tryDetachAndSynchronize .. => if shrinks fl h h.size n then n / 2 else n
  | _ => n

/-- A step that adds and removes so many nodes and ends with `m` buckets. -/
structure Counted (h h' : Heap K φ) (added removed m : ℕ) : Prop where
  size : h'.size = h.size + added
  linked : h'.nrLinked + removed = h.nrLinked + added
  buckets : h'.nrBuckets = m
  expandFactor : h'.expandFactor = h.expandFactor
  shrinkFactor : h'.shrinkFactor = h.shrinkFactor

theorem Counted.refl (h : Heap K φ) : Counted h h 0 0 h.nrBuckets := ⟨rfl, rfl, rfl, rfl, rfl⟩

/-- A settled table with the same nodes. -/
theorem Settled.counted_same {D : Ptr → Prop} {m : ℕ} (hf : Flat h g)
    (hs : Settled h g.Linked m h.size D h' g') : Counted h h' 0 0 m where
  size := hs.size
  linked := hf.toRep.nrLinked_congr fun p => hs.flat.linked_heap.trans (hs.linked p)
  buckets := hs.flat.nrBuckets.trans hs.n
  expandFactor := hs.expandFactor
  shrinkFactor := hs.shrinkFactor

/-- A settled table with the node `q` added; `h1` is the table with the hash of `q` written. -/
theorem Settled.counted_add {h1 : Heap K φ} {D : Ptr → Prop} {m : ℕ} {q : Ptr}
    (hs : Settled h1 (fun p => g.Linked p ∨ p = q) m (h.size + 1) D h' g') (hf : Flat h g)
    (hq : ¬ g.Linked q) (he : h1.expandFactor = h.expandFactor)
    (hsh : h1.shrinkFactor = h.shrinkFactor) : Counted h h' 1 0 m where
  size := hs.size
  linked := hf.toRep.nrLinked_insert hq fun p => hs.flat.linked_heap.trans (hs.linked p)
  buckets := hs.flat.nrBuckets.trans hs.n
  expandFactor := hs.expandFactor.trans he
  shrinkFactor := hs.shrinkFactor.trans hsh

theorem Settled.counted_remove {D : Ptr → Prop} {m : ℕ} {q : Ptr} (hf : Flat h g) (hq : g.Linked q)
    (hs : Settled h (fun p => g.Linked p ∧ p ≠ q) m h.size D h' g') : Counted h h' 0 1 m where
  size := hs.size
  linked := hf.toRep.nrLinked_remove hq fun p => hs.flat.linked_heap.trans (hs.linked p)
  buckets := hs.flat.nrBuckets.trans hs.n
  expandFactor := hs.expandFactor
  shrinkFactor := hs.shrinkFactor

/-- The counts after an insert. -/
theorem InsertPost.counted {n x m : ℕ} {f : Heap K φ → Ptr → Ptr → Bool} {b : Bool} (hf : Flat h g)
    (hn : ¬ g.Linked (.node n)) (hp : InsertPost h g n x f m b h' g') :
    (Counted h h' 0 0 h.nrBuckets ∧
      ∃ p, h.InBucket x p ∧ f (h.setHash (.node n) x) p (.node n) = true) ∨
    (Counted h h' 1 0 m ∧ ∀ p, h.InBucket x p → f (h.setHash (.node n) x) p (.node n) = false) := by
  rcases hp with ⟨-, ⟨q, hq, hm⟩, rfl, rfl, hf'⟩ | ⟨-, hno, hs⟩
  · refine Or.inl ⟨⟨rfl, ?_, rfl, rfl, rfl⟩, q, hf.inBucket_iff.mpr hq, hm⟩
    exact hf.toRep.nrLinked_congr fun p => hf'.linked_heap
  · exact Or.inr ⟨hs.counted_add hf hn rfl rfl, fun p hp => hno p (hf.inBucket_iff.mp hp)⟩

theorem DetachPost.counted {x m : ℕ} {f : Heap K φ → Ptr → Bool} {D : Ptr → Ptr → Prop}
    {p : Option Ptr} (hf : Flat h g) (hp : DetachPost h g x f m D p h' g') :
    (p = none ∧ Counted h h' 0 0 h.nrBuckets ∧ ∀ q, h.InBucket x q → f h q = false) ∨
    (p ≠ none ∧ Counted h h' 0 1 m ∧ ∃ q, h.InBucket x q ∧ f h q = true) := by
  obtain ⟨hfind, ⟨rfl, rfl, rfl⟩ | ⟨q, rfl, hs⟩⟩ := hp
  · refine Or.inl ⟨rfl, .refl _, ?_⟩
    intro q hq
    have := List.find?_eq_none.mp hfind.symm q (hf.inBucket_iff.mp hq)
    simpa using this
  · have hmem := List.mem_of_find?_eq_some hfind.symm
    refine Or.inr ⟨by simp, hs.counted_remove hf ⟨_, hf.slot_lt x, hmem⟩, q, hf.inBucket_iff.mpr hmem, ?_⟩
    exact List.find?_some hfind.symm

/-- **The counts after a call.** -/
theorem Op.Post.counted {op : Op K φ} {r : Res} (hf : Flat h g)
    (hfree : ∀ p, op.own p → ¬ h.Linked p) (hp : op.Post fl h g r h' g') :
    (op.Adds h ∧ ¬ op.Removes h ∧ Counted h h' 1 0 (op.resize fl h h.nrBuckets)) ∨
    (op.Removes h ∧ ¬ op.Adds h ∧ Counted h h' 0 1 (op.resize fl h h.nrBuckets)) ∨
    (¬ op.Adds h ∧ ¬ op.Removes h ∧ ∃ m, Counted h h' 0 0 m ∧
      (m = h.nrBuckets ∨ op = .expandBuckets2x ∨ op = .shrinkBuckets2x)) := by
  have hn := hf.nrBuckets
  have hown : ∀ n, op.own (.node n) → ¬ g.Linked (.node n) := fun n hn hl =>
    hfree _ hn (hf.linked_heap.mpr hl)
  rw [hn]
  -- an insert that is refused, or a detach that finds nothing
  have hkept : ∀ {P Q : Prop}, Counted h h' 0 0 h.nrBuckets → ¬ P → ¬ Q → ¬ P ∧ ¬ Q ∧
      ∃ m, Counted h h' 0 0 m ∧ (m = g.n ∨ op = .expandBuckets2x ∨ op = .shrinkBuckets2x) :=
    fun hc hP hQ => ⟨hP, hQ, _, hc, Or.inl hn⟩
  cases op with
  | tryInsert n x f =>
    obtain ⟨b, -, hp⟩ := hp
    rcases hp.counted hf (hown n rfl) with ⟨hc, q, hq, hm⟩ | ⟨hc, hno⟩
    · exact Or.inr (Or.inr (hkept hc (fun ha => by simp [ha q hq] at hm) id))
    · exact Or.inl ⟨hno, id, hc⟩
  | tryInsertNoExpand n x f =>
    obtain ⟨b, -, hp⟩ := hp
    rcases hp.counted hf (hown n rfl) with ⟨hc, q, hq, hm⟩ | ⟨hc, hno⟩
    · exact Or.inr (Or.inr (hkept hc (fun ha => by simp [ha q hq] at hm) id))
    · exact Or.inl ⟨hno, id, hc⟩
  | insertNoExpand n => exact Or.inl ⟨trivial, id, hp.2.counted_add hf (hown n rfl) rfl rfl⟩
  | tryDetachNoShrink x f =>
    obtain ⟨p, -, hp⟩ := hp
    rcases hp.counted hf with ⟨-, hc, hno⟩ | ⟨-, hc, hq⟩
    · exact Or.inr (Or.inr (hkept hc id fun ⟨q, hq, hm⟩ => by simp [hno q hq] at hm))
    · exact Or.inr (Or.inl ⟨hq, id, hc⟩)
  | tryDetachAutoShrink x f =>
    obtain ⟨p, b, -, -, hb, hp⟩ := hp
    rcases hp.counted hf with ⟨-, hc, hno⟩ | ⟨hne, hc, hq⟩
    · exact Or.inr (Or.inr (hkept hc id fun ⟨q, hq, hm⟩ => by simp [hno q hq] at hm))
    · rw [hb hne] at hc
      exact Or.inr (Or.inl ⟨hq, id, hc⟩)
  | tryDetachAndSynchronize x f =>
    obtain ⟨p, -, hp⟩ := hp
    rcases hp.counted hf with ⟨-, hc, hno⟩ | ⟨-, hc, hq⟩
    · exact Or.inr (Or.inr (hkept hc id fun ⟨q, hq, hm⟩ => by simp [hno q hq] at hm))
    · exact Or.inr (Or.inl ⟨hq, id, hc⟩)
  | expandBuckets2x => exact Or.inr (Or.inr ⟨id, id, _, hp.2.counted_same hf, Or.inr (Or.inl rfl)⟩)
  | shrinkBuckets2x =>
    rcases hp with ⟨-, -, rfl, rfl⟩ | ⟨-, -, hs⟩
    · exact Or.inr (Or.inr (hkept (.refl _) id id))
    · exact Or.inr (Or.inr ⟨id, id, _, hs.counted_same hf, Or.inr (Or.inr rfl)⟩)
  | find =>
    obtain ⟨-, rfl, rfl⟩ := hp
    exact Or.inr (Or.inr (hkept (.refl _) id id))
  | synchronize =>
    obtain ⟨-, rfl, rfl⟩ := hp
    exact Or.inr (Or.inr (hkept (.refl _) id id))

theorem Flat.counted_prepare (hf : Flat h g) {n x : ℕ} {k : K} (hfree : ¬ h.Linked (.node n)) :
    Counted h (h.prepare n x k) 0 0 h.nrBuckets := by
  refine ⟨rfl, ?_, rfl, rfl, rfl⟩
  exact hf.toRep.nrLinked_congr fun p => (hf.prepare hfree).linked_heap

/-- **The counts after a step** of a session. -/
theorem Session.counted (S : Session (K := K) fl conf) {i : ℕ} (hi : i < S.len) :
    (∃ op r, S.event i = .call op r ∧ op.Adds (S.heap i) ∧ ¬ op.Removes (S.heap i) ∧
      Counted (S.heap i) (S.heap (i + 1)) 1 0 (op.resize fl (S.heap i) (S.heap i).nrBuckets)) ∨
    (∃ op r, S.event i = .call op r ∧ op.Removes (S.heap i) ∧ ¬ op.Adds (S.heap i) ∧
      Counted (S.heap i) (S.heap (i + 1)) 0 1 (op.resize fl (S.heap i) (S.heap i).nrBuckets)) ∨
    ((∀ op r, S.event i = .call op r → ¬ op.Adds (S.heap i) ∧ ¬ op.Removes (S.heap i)) ∧
      ∃ m, Counted (S.heap i) (S.heap (i + 1)) 0 0 m ∧ (m = (S.heap i).nrBuckets ∨
        ∃ op r, S.event i = .call op r ∧ (op = .expandBuckets2x ∨ op = .shrinkBuckets2x))) := by
  obtain ⟨g, hf⟩ := S.flat i (by omega)
  rcases S.step_cases hi hf with ⟨op, r, g', he, hfree, hp⟩ | ⟨n, x, k, he, hfree, hh⟩
  · rcases hp.counted hf hfree with ⟨ha, hr, hc⟩ | ⟨hr, ha, hc⟩ | ⟨ha, hr, m, hc, hm⟩
    · exact Or.inl ⟨op, r, he, ha, hr, hc⟩
    · exact Or.inr (Or.inl ⟨op, r, he, hr, ha, hc⟩)
    · refine Or.inr (Or.inr ⟨?_, m, hc, hm.imp_right fun hm => ⟨op, r, he, hm⟩⟩)
      intro op' r' he'
      obtain ⟨rfl, -⟩ := Event.call.inj (he.symm.trans he')
      exact ⟨ha, hr⟩
  · rw [hh]
    refine Or.inr (Or.inr ⟨?_, _, hf.counted_prepare hfree, Or.inl rfl⟩)
    intro op r he'
    rw [he] at he'
    cases he'

theorem Session.nrLinked_zero (S : Session (K := K) fl conf) : (S.heap 0).nrLinked = 0 := by
  have hf := S.fresh.chains.flat
  rw [Heap.nrLinked, Set.ncard_eq_zero hf.linked_finite]
  ext p
  simp [hf.linked_heap, View.Linked, View.atRest]

/-- The decisions with exact arithmetic. -/
def ratOps : FloatOps ℚ where
  ofSize n := n
  mul a b := a * b
  lt a b := decide (a < b)

/-! ### One node that comes and goes -/

/-- Memory without a table. -/
def noTable (key : Ptr → K) : Heap K ℚ where
  next _ := none
  hash _ := 0
  key := key
  pBucketsInfo := 0
  size := 0
  expandFactor := 0
  shrinkFactor := 0
  nrBucketsPowerOf2 _ := 0
  live _ := false
  fresh := 1

theorem noTable_blank (key : Ptr → K) : Blank (noTable key) :=
  ⟨rfl, by simp [noTable], Nat.one_pos, rfl⟩

/-- One bucket, and one node for each bucket. -/
def oneBucket : RTableCoreConfig ℚ := ⟨1, 1, 1 / 2⟩

/-- The insert of node 0, with hash 0. -/
def Session.insertZero (S : Session (K := Unit) ratOps oneBucket)
    (hn : (S.last.nodes 4).any (fun l => !l.contains (.node 0)) = true)
    (hret : ((Op.code ratOps (.tryInsert 0 0 fun _ _ _ => true)).run exec 200 S.last).isSome) :
    Session (K := Unit) ratOps oneBucket :=
  S.call 200 (.tryInsert 0 0 fun _ _ _ => true) (fun p hp => Heap.free_of_nodes hn p hp) hret

/-- The detach of the first node with hash 0. -/
def Session.detachZero (S : Session (K := Unit) ratOps oneBucket)
    (hret : ((Op.code ratOps (.tryDetachAndSynchronize 0 fun _ _ => true)).run exec 200 S.last).isSome) :
    Session (K := Unit) ratOps oneBucket :=
  S.call 200 (.tryDetachAndSynchronize 0 fun _ _ => true) (fun _ hp => hp.elim) hret

def churn0 : Session (K := Unit) ratOps oneBucket :=
  .init ratOps oneBucket (noTable fun _ => ()) (noTable_blank _) 100 (by decide +kernel)
    (.prepare 0 0 ())

def churn1 := churn0.insertZero (by decide +kernel) (by decide +kernel)
def churn2 := churn1.detachZero (by decide +kernel)
def churn3 := churn2.insertZero (by decide +kernel) (by decide +kernel)
def churn4 := churn3.detachZero (by decide +kernel)
def churn5 := churn4.insertZero (by decide +kernel) (by decide +kernel)

theorem churn1_free : ∀ p, p = .node 1 → ¬ churn1.last.Linked p :=
  Heap.free_of_nodes (by decide +kernel : (churn1.last.nodes 4).any (fun l => !l.contains (.node 1)) = true)

/-- Two nodes, for which the table has doubled its bucket. -/
def twoInserts : Session (K := Unit) ratOps oneBucket :=
  churn1.call 200 (.tryInsert 1 1 fun _ _ _ => false) churn1_free (by decide +kernel)

/-! ### `size` and the number of linked nodes -/

/-- `table.size` is right throughout a session exactly when no detach finds its node. -/
theorem size_eq_nrLinked_iff (S : Session (K := K) fl conf) :
    (∀ i ≤ S.len, (S.heap i).size = (S.heap i).nrLinked) ↔
      ∀ i < S.len, ∀ op r, S.event i = .call op r → ¬ op.Removes (S.heap i) := by
  constructor
  · intro hall i hi op r he hrem
    have h1 := hall i (by omega)
    have h2 := hall (i + 1) hi
    rcases S.counted hi with ⟨op', r', he', -, hno, -⟩ | ⟨op', r', -, -, -, hc⟩ | ⟨hno, -⟩
    · obtain ⟨rfl, -⟩ := Event.call.inj (he.symm.trans he')
      exact hno hrem
    · have h3 := hc.size
      have h4 := hc.linked
      omega
    · exact (hno op r he).2 hrem
  · intro hno
    refine S.invariant ?_ ?_
    · rw [S.fresh.size, S.nrLinked_zero]
    · intro i hi _ _ heq
      rcases S.counted hi with ⟨op, r, -, -, -, hc⟩ | ⟨op, r, he, hrem, -, -⟩ | ⟨-, m, hc, -⟩
      · have h3 := hc.size
        have h4 := hc.linked
        omega
      · exact absurd hrem (hno i hi op r he)
      · have h3 := hc.size
        have h4 := hc.linked
        omega

theorem Heap.nrLinked_eq {h : Heap K φ} {fuel m : ℕ}
    (hm : (h.nodes fuel).map (fun l => l.toFinset.card) = some m) : h.nrLinked = m := by
  obtain ⟨l, hl, rfl⟩ := Option.map_eq_some_iff.mp hm
  exact Heap.nrLinked_of_nodes hl

/-- An insert and a detach leave an empty table of size 1. -/
theorem churn2_size : ¬ ∀ (S : Session (K := Unit) ratOps oneBucket), ∀ i ≤ S.len,
    (S.heap i).size = (S.heap i).nrLinked := by
  intro hall
  have h1 := hall churn2 2 le_rfl
  rw [Heap.nrLinked_eq (show ((churn2.heap 2).nodes 4).map _ = some 0 by decide +kernel)] at h1
  exact absurd h1 (by decide +kernel)

end RcuTable
