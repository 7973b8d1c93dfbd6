import RcuTable.Table.Init
import RcuTable.Table.Ops
import Mathlib.Data.Set.Card

/-!
# Table.Session — runs of completed calls on one table

A `Session` is what one thread does with a table, from `rTableCoreInitDetailed` on: calls that run to
completion, each inserting only a node that is not linked, and between them the caller's own writes to nodes
that are not linked.  Every table of a session is flat (`Session.flat`), and every call does what `Op.Post`
says (`Session.step_cases`).
-/

namespace RcuTable

open Atomic Chain

variable {K φ : Type}

namespace Heap

variable (h : Heap K φ)

/-- The size of the published array. -/
def nrBuckets : ℕ := h.nrBucketsPowerOf2 h.pBucketsInfo

/-- The list head that `find`, `insert` and `detach` start from. -/
def bucket (hashVal : ℕ) : Ptr := .head h.pBucketsInfo (hashVal &&& (h.nrBuckets - 1))

/-- The node is in the bucket of the hash value. -/
def InBucket (hashVal : ℕ) (p : Ptr) : Prop := Visits h.next (h.next (h.bucket hashVal)) p

/-- The node is linked in one of the bucket chains. -/
def Linked (p : Ptr) : Prop :=
  ∃ j < h.nrBuckets, Visits h.next (h.next (.head h.pBucketsInfo j)) p

/-- The number of nodes linked in the bucket chains. -/
noncomputable def nrLinked : ℕ := {p | h.Linked p}.ncard

/-- The nodes of the first `m` buckets, if each chain ends within `fuel` steps. -/
def nodesBelow (fuel : ℕ) : ℕ → Option (List Ptr)
  | 0 => some []
  | j + 1 => do
    let l ← nodesBelow fuel j
    let l' ← walk h.next fuel (h.next (.head h.pBucketsInfo j))
    return l ++ l'

/-- The linked nodes, by computation. -/
def nodes (fuel : ℕ) : Option (List Ptr) := h.nodesBelow fuel h.nrBuckets

variable {h}

theorem mem_nodesBelow {fuel : ℕ} : ∀ {m : ℕ} {l : List Ptr}, h.nodesBelow fuel m = some l →
    ∀ p, p ∈ l ↔ ∃ j < m, Visits h.next (h.next (.head h.pBucketsInfo j)) p
  | 0, l, hl, p => by
    obtain rfl : [] = l := Option.some.inj hl
    simp
  | m + 1, l, hl, p => by
    simp only [nodesBelow, Option.bind_eq_bind, Option.bind_eq_some_iff, Option.pure_def,
      Option.some.injEq] at hl
    obtain ⟨l1, h1, l2, h2, rfl⟩ := hl
    rw [List.mem_append, mem_nodesBelow h1 p, ← (path_of_walk h2).visits_iff]
    constructor
    · rintro (⟨j, hj, hp⟩ | hp)
      · exact ⟨j, by omega, hp⟩
      · exact ⟨m, by omega, hp⟩
    · rintro ⟨j, hj, hp⟩
      by_cases hjm : j = m
      · exact Or.inr (hjm ▸ hp)
      · exact Or.inl ⟨j, by omega, hp⟩

theorem linked_iff_of_nodes {fuel : ℕ} {l : List Ptr} (hl : h.nodes fuel = some l) {p : Ptr} :
    h.Linked p ↔ p ∈ l := (mem_nodesBelow hl p).symm

theorem free_of_nodes {fuel n : ℕ} (hn : (h.nodes fuel).any (fun l => !l.contains (.node n)) = true) :
    ∀ p, p = .node n → ¬ h.Linked p := by
  rintro p rfl hl
  obtain ⟨l, h1, h2⟩ := Option.any_eq_true .. |>.mp hn
  rw [linked_iff_of_nodes h1] at hl
  simp [hl] at h2

theorem nrLinked_of_nodes {fuel : ℕ} {l : List Ptr} (hl : h.nodes fuel = some l) :
    h.nrLinked = l.toFinset.card := by
  have hset : {p | h.Linked p} = (l.toFinset : Set Ptr) := by
    ext p
    simp [linked_iff_of_nodes hl]
  rw [nrLinked, hset, Set.ncard_coe_finset]

end Heap

/-! ### The table of a heap and of its view -/

section View

variable {h h' : Heap K φ} {g g' : View}

theorem Rep.nrBuckets (hr : Rep h g) : h.nrBuckets = g.n := by
  rw [Heap.nrBuckets, hr.info, hr.nr]

theorem Rep.bucket (hr : Rep h g) (x : ℕ) : h.bucket x = .head g.info (g.slot x) := by
  rw [Heap.bucket, hr.nrBuckets, hr.info]
  rfl

theorem Rep.inBucket_iff (hr : Rep h g) {x : ℕ} {p : Ptr} :
    h.InBucket x p ↔ p ∈ g.chain (g.slot x) := by
  rw [Heap.InBucket, hr.bucket]
  exact (hr.path _ (hr.slot_lt x)).2.visits_iff

theorem Rep.linked_heap (hr : Rep h g) {p : Ptr} : h.Linked p ↔ g.Linked p := by
  unfold Heap.Linked View.Linked
  rw [hr.nrBuckets, hr.info]
  exact exists_congr fun j => and_congr_right fun hj => (hr.path j hj).2.visits_iff

theorem Rep.linked_finite (hr : Rep h g) : {p | h.Linked p}.Finite := by
  refine Set.Finite.subset ((Finset.range g.n).biUnion fun j => (g.chain j).toFinset).finite_toSet ?_
  intro p hp
  obtain ⟨j, hj, hp⟩ := hr.linked_heap.mp hp
  simp only [Finset.coe_biUnion, Set.mem_iUnion]
  exact ⟨j, by simpa using hj, by simpa using hp⟩

/-- One node more. -/
theorem Rep.nrLinked_insert (hr : Rep h g) {q : Ptr} (hq : ¬ g.Linked q)
    (hl : ∀ p, h'.Linked p ↔ g.Linked p ∨ p = q) : h'.nrLinked = h.nrLinked + 1 := by
  have hset : {p | h'.Linked p} = insert q {p | h.Linked p} := by
    ext p
    simp [hl, hr.linked_heap, or_comm]
  have hmem : q ∉ {p | h.Linked p} := fun hc => hq (hr.linked_heap.mp hc)
  rw [Heap.nrLinked, hset, Set.ncard_insert_of_notMem hmem hr.linked_finite, Heap.nrLinked]

/-- One node less. -/
theorem Rep.nrLinked_remove (hr : Rep h g) {q : Ptr} (hq : g.Linked q)
    (hl : ∀ p, h'.Linked p ↔ g.Linked p ∧ p ≠ q) : h'.nrLinked + 1 = h.nrLinked := by
  have hset : {p | h'.Linked p} = {p | h.Linked p} \ {q} := by
    ext p
    simp [hl, hr.linked_heap]
  have hmem : q ∈ {p | h.Linked p} := hr.linked_heap.mpr hq
  rw [Heap.nrLinked, hset, Set.ncard_sdiff_singleton_add_one hmem hr.linked_finite, Heap.nrLinked]

theorem Rep.nrLinked_congr (hr : Rep h g) (hl : ∀ p, h'.Linked p ↔ g.Linked p) :
    h'.nrLinked = h.nrLinked := by
  have hset : {p | h'.Linked p} = {p | h.Linked p} := by
    ext p
    simp [hl, hr.linked_heap]
  rw [Heap.nrLinked, hset, Heap.nrLinked]

end View

/-! ### Sessions -/

/-- A call with its result, or the caller's writes to a node. -/
inductive Event (K φ : Type) where
  | call (op : Op K φ) (r : Res)
  | prepare (n hashVal : ℕ) (key : K)

/-- The caller gives a node its hash and its data. -/
def Heap.prepare (h : Heap K φ) (n hashVal : ℕ) (key : K) : Heap K φ :=
  { h.setHash (.node n) hashVal with key := Function.update h.key (.node n) key }

inductive SessionStep (fl : FloatOps φ) (h : Heap K φ) : Event K φ → Heap K φ → Prop
  | call {op : Op K φ} {r : Res} {h' : Heap K φ} (hfree : ∀ p, op.own p → ¬ h.Linked p)
      (hret : (op.code fl).Returns exec h r h') : SessionStep fl h (.call op r) h'
  | prepare {n x : ℕ} {k : K} (hfree : ¬ h.Linked (.node n)) :
      SessionStep fl h (.prepare n x k) (h.prepare n x k)

/-- A run of completed calls on a table that starts with `conf`. -/
structure Session (fl : FloatOps φ) (conf : RTableCoreConfig φ) where
  len : ℕ
  heap : ℕ → Heap K φ
  event : ℕ → Event K φ
  start : ∃ h, Blank h ∧ (rTableCoreInitDetailed conf).Returns exec h () (heap 0)
  next : ∀ i < len, SessionStep fl (heap i) (event i) (heap (i + 1))

/-! ### What a call does in a session -/

section Steps

variable {fl : FloatOps φ} {h h' : Heap K φ} {g g' : View} {op : Op K φ} {r : Res}

theorem DetachPost.flat {x m : ℕ} {f : Heap K φ → Ptr → Bool} {D : Ptr → Ptr → Prop} {p : Option Ptr}
    (hf : Flat h g) (hp : DetachPost h g x f m D p h' g') : Flat h' g' := by
  obtain ⟨-, ⟨-, rfl, rfl⟩ | ⟨p, -, hs⟩⟩ := hp
  · exact hf
  · exact hs.flat

theorem InsertPost.flat {n x m : ℕ} {f : Heap K φ → Ptr → Ptr → Bool} {b : Bool}
    (hp : InsertPost h g n x f m b h' g') : Flat h' g' := by
  rcases hp with ⟨-, -, -, -, hf⟩ | ⟨-, -, hs⟩
  · exact hf
  · exact hs.flat

/-- A completed call leaves a flat table. -/
theorem Op.Post.flat (hf : Flat h g) (hp : op.Post fl h g r h' g') : Flat h' g' := by
  cases op with
  | tryInsert | tryInsertNoExpand =>
    obtain ⟨b, -, hp⟩ := hp
    exact hp.flat
  | insertNoExpand => exact hp.2.flat
  | tryDetachNoShrink | tryDetachAndSynchronize =>
    obtain ⟨p, -, hp⟩ := hp
    exact hp.flat hf
  | tryDetachAutoShrink =>
    obtain ⟨p, b, -, -, -, hp⟩ := hp
    exact hp.flat hf
  | expandBuckets2x => exact hp.2.flat
  | shrinkBuckets2x =>
    rcases hp with ⟨-, -, rfl, rfl⟩ | ⟨-, -, hs⟩
    · exact hf
    · exact hs.flat
  | find =>
    obtain ⟨-, rfl, rfl⟩ := hp
    exact hf
  | synchronize =>
    obtain ⟨-, rfl, rfl⟩ := hp
    exact hf.synced

theorem Op.pre_of_free (hr : Rep h g) (hfree : ∀ p, op.own p → ¬ h.Linked p) :
    op.Pre (fun _ _ _ => True) h g := by
  have hnot : ∀ n, op.own (.node n) → ¬ g.Linked (.node n) := fun n hn hl =>
    hfree _ hn (hr.linked_heap.mpr hl)
  cases op with
  | tryInsert n | tryInsertNoExpand n => exact ⟨hnot n rfl, fun _ _ _ _ => trivial⟩
  | insertNoExpand n => exact ⟨hnot n rfl, fun _ _ _ => trivial⟩
  | _ => trivial

/-- A call on a flat table completes, and does what `Op.Post` says. -/
theorem Op.total (fl : FloatOps φ) (hf : Flat h g) (hfree : ∀ p, op.own p → ¬ h.Linked p) :
    (op.code fl).Total exec h fun r h' => ∃ g', op.Post fl h g r h' g' :=
  (Op.guarded fl hf (Op.pre_of_free hf.toRep hfree)).total

theorem Flat.prepare (hf : Flat h g) {n x : ℕ} {k : K} (hfree : ¬ h.Linked (.node n)) :
    Flat (h.prepare n x k) g := by
  have hh : ∀ p, g.Linked p → (h.prepare n x k).hash p = h.hash p := fun p hp =>
    Function.update_of_ne (by rintro rfl; exact hfree (hf.linked_heap.mpr hp)) _ _
  exact hf.hashed (hf.toRep.congr rfl (fun _ _ => ⟨rfl, rfl⟩) hf.null hf.fresh (fun _ _ _ _ => rfl) hh) hh

theorem SessionStep.flat {e : Event K φ} (hf : Flat h g) (hs : SessionStep fl h e h') :
    ∃ g', Flat h' g' := by
  cases hs with
  | @call op r _ hfree hret =>
    obtain ⟨g', hp⟩ := (Op.total fl hf hfree).2 _ _ hret
    exact ⟨g', hp.flat hf⟩
  | prepare hfree => exact ⟨g, hf.prepare hfree⟩

end Steps

namespace Session

variable {fl : FloatOps φ} {conf : RTableCoreConfig φ} (S : Session (K := K) fl conf)

theorem fresh : Fresh conf (S.heap 0) := by
  obtain ⟨h, hb, hret⟩ := S.start
  exact fresh_of_returns hb hret

/-- Every table of a session is flat. -/
theorem flat : ∀ i ≤ S.len, ∃ g, Flat (S.heap i) g
  | 0, _ => ⟨_, S.fresh.chains.flat⟩
  | i + 1, hi => by
    obtain ⟨g, hf⟩ := flat i (by omega)
    exact (S.next i hi).flat hf

/-- What holds of the fresh table and is kept by every step on a flat table holds in every state. -/
theorem invariant {P : ℕ → Prop} (h0 : P 0)
    (hs : ∀ i < S.len, ∀ g, Flat (S.heap i) g → P i → P (i + 1)) : ∀ i ≤ S.len, P i
  | 0, _ => h0
  | i + 1, hi => by
    obtain ⟨g, hf⟩ := S.flat i (by omega)
    exact hs i hi g hf (invariant h0 hs i (by omega))

/-- A step of a session: a call that does what `Op.Post` says, or a write to a node that is not linked. -/
theorem step_cases {i : ℕ} (hi : i < S.len) {g : View} (hf : Flat (S.heap i) g) :
    (∃ op r g', S.event i = .call op r ∧ (∀ p, op.own p → ¬ (S.heap i).Linked p) ∧
      op.Post fl (S.heap i) g r (S.heap (i + 1)) g') ∨
    ∃ n x k, S.event i = .prepare n x k ∧ ¬ (S.heap i).Linked (.node n) ∧
      S.heap (i + 1) = (S.heap i).prepare n x k := by
  have hstep := S.next i hi
  generalize S.heap (i + 1) = h' at hstep ⊢
  generalize S.event i = e at hstep ⊢
  cases hstep with
  | @call op r _ hfree hret =>
    obtain ⟨g', hp⟩ := (Op.total fl hf hfree).2 _ _ hret
    exact Or.inl ⟨op, r, g', rfl, hfree, hp⟩
  | @prepare n x k hfree => exact Or.inr ⟨n, x, k, rfl, hfree, rfl⟩

/-- The table in the end. -/
def last : Heap K φ := S.heap S.len

/-- The session makes only calls of one kind. -/
def Calls (kind : Op K φ → Prop) : Prop :=
  ∀ i < S.len, ∀ op r, S.event i = .call op r → kind op

/-! ### Building a session -/

/-- The session with one step more. -/
def snoc (e : Event K φ) (h' : Heap K φ) (hs : SessionStep fl S.last e h') : Session (K := K) fl conf where
  len := S.len + 1
  heap := Function.update S.heap (S.len + 1) h'
  event := Function.update S.event S.len e
  start := by
    rw [Function.update_of_ne (Nat.succ_ne_zero _).symm]
    exact S.start
  next i hi := by
    by_cases hlast : i = S.len
    · subst hlast
      rw [Function.update_self, Function.update_self, Function.update_of_ne (by omega)]
      exact hs
    · rw [Function.update_of_ne (show i + 1 ≠ S.len + 1 by omega),
        Function.update_of_ne (show i ≠ S.len + 1 by omega), Function.update_of_ne hlast]
      exact S.next i (by omega)

/-- The session with one call more, that completes within `fuel` steps. -/
def call (fuel : ℕ) (op : Op K φ) (hfree : ∀ p, op.own p → ¬ S.last.Linked p)
    (hret : ((op.code fl).run exec fuel S.last).isSome) : Session (K := K) fl conf :=
  S.snoc (.call op (Option.get _ hret).1) (Option.get _ hret).2
    (.call hfree ⟨fuel, (Option.some_get hret).symm⟩)

/-- The session without a call. -/
def init (fl : FloatOps φ) (conf : RTableCoreConfig φ) (h : Heap K φ) (hb : Blank h) (fuel : ℕ)
    (hret : ((rTableCoreInitDetailed conf).run exec fuel h).isSome) (dummy : Event K φ) :
    Session (K := K) fl conf where
  len := 0
  heap _ := (Option.get _ hret).2
  event _ := dummy
  start := ⟨h, hb, fuel, (Option.some_get hret).symm⟩
  next i hi := absurd hi (Nat.not_lt_zero i)

section Snoc

variable {S} {e : Event K φ} {h' : Heap K φ} {hs : SessionStep fl S.last e h'}

theorem forall_snoc {P : Heap K φ → Prop} (hS : ∀ i ≤ S.len, P (S.heap i)) (hP : P h') :
    ∀ i ≤ (S.snoc e h' hs).len, P ((S.snoc e h' hs).heap i) := by
  intro i hi
  show P (Function.update S.heap (S.len + 1) h' i)
  by_cases hlast : i = S.len + 1
  · rwa [hlast, Function.update_self]
  · rw [Function.update_of_ne hlast]
    exact hS i (Nat.le_of_lt_succ (lt_of_le_of_ne hi hlast))

theorem Calls.snoc {kind : Op K φ → Prop} (hS : S.Calls kind) (he : ∀ op r, e = .call op r → kind op) :
    (S.snoc e h' hs).Calls kind := by
  intro i hi op r hev
  have hev' : Function.update S.event S.len e i = .call op r := hev
  by_cases hlast : i = S.len
  · rw [hlast, Function.update_self] at hev'
    exact he op r hev'
  · rw [Function.update_of_ne hlast] at hev'
    exact hS i (Nat.lt_of_le_of_ne (Nat.le_of_lt_succ hi) hlast) op r hev'

theorem Calls.call {kind : Op K φ → Prop} {fuel : ℕ} {op : Op K φ}
    {hfree : ∀ p, op.own p → ¬ S.last.Linked p} {hret : ((op.code fl).run exec fuel S.last).isSome}
    (hS : S.Calls kind) (hop : kind op) : (S.call fuel op hfree hret).Calls kind := by
  refine hS.snoc ?_
  intro op' r he
  obtain ⟨rfl, -⟩ := Event.call.inj he
  exact hop

end Snoc

end Session

end RcuTable
