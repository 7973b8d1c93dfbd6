import RcuTable.Table.Shrink
import RcuTable.Table.Cursors

/-!
# Table.ResizeEffect — the exact effect of a resize on a table at rest

`Chains h n chain` describes a well-formed heap without any reader in view: `n` buckets, a power of two, and
the chain behind each, every node in the bucket that its hash selects.  An expand and a shrink take it to the
chains one expects, and each of them undoes the other up to the order inside a bucket.
-/

namespace RcuTable

open Atomic Atomic.Prog Chain

variable {K φ : Type}

/-- The heap holds a table of `n` buckets with these chains. -/
structure Chains (h : Heap K φ) (n : ℕ) (chain : ℕ → List Ptr) : Prop where
  live : h.live h.pBucketsInfo = true
  nr : h.nrBucketsPowerOf2 h.pBucketsInfo = n
  pow : ∃ k, n = 2 ^ k
  null : h.live 0 = false
  fresh : ∀ b, h.live b = true → b < h.fresh
  path : ∀ j < n, Path h.next (h.next (.head h.pBucketsInfo j)) (chain j)
  node : ∀ j < n, ∀ p ∈ chain j, ∃ k, p = .node k
  home : ∀ j < n, ∀ p ∈ chain j, h.hash p &&& (n - 1) = j

/-- The view of a table at rest that nobody reads. -/
def View.atRest (h : Heap K φ) (n : ℕ) (chain : ℕ → List Ptr) : View where
  info := h.pBucketsInfo
  n := n
  chain := chain
  clean _ := True
  dirty _ := False
  arrs b := b = h.pBucketsInfo
  mixed _ := False

/-- The permission to resize and to unlink. -/
def Perm.none : Perm K φ where
  own _ := False
  allow _ _ _ := False

variable {h h' : Heap K φ} {n : ℕ} {chain : ℕ → List Ptr} {g : View}

theorem Chains.flat (ht : Chains h n chain) : Flat h (View.atRest h n chain) where
  info := rfl
  nr := ht.nr
  pow := ht.pow
  arr := rfl
  live b hb := by
    obtain rfl : b = h.pBucketsInfo := hb
    obtain ⟨k, hk⟩ := ht.pow
    rw [ht.nr, hk]
    exact ⟨ht.live, Nat.two_pow_pos k⟩
  null := ht.null
  fresh := ht.fresh
  path j hj := ⟨rfl, ht.path j hj⟩
  node := ht.node
  home j hj p hp := by
    show p ∈ chain (h.hash p &&& (n - 1))
    rw [ht.home j hj p hp]
    exact hp
  flat := ht.home
  pure _ := id

theorem Flat.chains (hf : Flat h g) : Chains h g.n g.chain where
  live := hf.info ▸ hf.live_info
  nr := hf.info ▸ hf.nr
  pow := hf.pow
  null := hf.null
  fresh := hf.fresh
  path j hj := hf.info ▸ (hf.path j hj).2
  node := hf.node
  home := hf.flat

theorem Chains.congr (ht : Chains h n chain) {m : ℕ} {chain' : ℕ → List Ptr} (hm : m = n)
    (hc : ∀ j < n, chain' j = chain j) : Chains h m chain' := by
  subst hm
  refine ⟨ht.live, ht.nr, ht.pow, ht.null, ht.fresh, ?_, ?_, ?_⟩
  · intro j hj
    rw [hc j hj]
    exact ht.path j hj
  · intro j hj
    rw [hc j hj]
    exact ht.node j hj
  · intro j hj
    rw [hc j hj]
    exact ht.home j hj

/-- What belongs to bucket `j` of a table of `n` buckets, of a chain. -/
def inBucket (h : Heap K φ) (n j : ℕ) (l : List Ptr) : List Ptr :=
  l.filter fun p => h.hash p &&& (n - 1) = j

theorem Chains.mod (ht : Chains h n chain) {i : ℕ} (hi : i < n) {p : Ptr} (hp : p ∈ chain i) :
    h.hash p % n = i := ht.flat.mod hi hp

/-- A bucket holds all of its chain, and nothing of another one's. -/
theorem Chains.inBucket_eq (ht : Chains h n chain) {i j : ℕ} (hi : i < n) :
    inBucket h n j (chain i) = if i = j then chain i else [] := by
  unfold inBucket
  split_ifs with hij
  · subst hij
    exact List.filter_eq_self.mpr fun p hp => by simpa using ht.home i hi p hp
  · exact List.filter_eq_nil_iff.mpr fun p hp => by simpa [ht.home i hi p hp] using hij

/-! ### The effect of each -/

/-- What a resize leaves in place of the chains `chain`. -/
structure Resized (h h' : Heap K φ) (n : ℕ) (chain : ℕ → List Ptr) : Prop where
  chains : Chains h' n chain
  frame : Frame h h'

theorem Expanded.resized {h' : Heap K φ} {g' : View} (he : Expanded h g h' g') :
    Resized h h' (2 * g.n) fun j => inBucket h (2 * g.n) j (g.chain (j % g.n)) := by
  refine ⟨he.flat.chains.congr (by rw [he.n, Nat.mul_comm]) ?_, he.frame⟩
  intro j hj
  rw [he.chain j hj, Nat.mul_comm]
  rfl

theorem Shrunk.resized {h' : Heap K φ} {g' : View} (hs : Shrunk h g h' g') :
    Resized h h' (g.n / 2) fun i => g.chain i ++ g.chain (i + g.n / 2) := by
  have hn : g.n / 2 = g'.n := by
    have := hs.n
    omega
  refine ⟨hs.flat.chains.congr hn ?_, hs.frame⟩
  intro i hi
  rw [hs.chain i hi, hn]

theorem expand_total (ht : Chains h n chain) :
    rTableCoreExpandBuckets2x.Total exec h fun _ h' =>
      Resized h h' (2 * n) fun j => inBucket h (2 * n) j (chain (j % n)) := by
  have hsim : Guarded Perm.none _ _ h _ := rTableCoreExpandBuckets2x_guarded ht.flat
  refine hsim.total.mono exec ?_
  rintro _ h' ⟨g', he⟩
  exact he.resized

theorem shrink_total (ht : Chains h n chain) (hn : 2 ≤ n) :
    rTableCoreShrinkBuckets2x.Total exec h fun r h' =>
      r = true ∧ Resized h h' (n / 2) fun i => chain i ++ chain (i + n / 2) := by
  have hsim : Guarded Perm.none _ _ h _ := rTableCoreShrinkBuckets2x_guarded ht.flat
  refine hsim.total.mono exec ?_
  rintro r h' ⟨g', ⟨h1, -⟩ | ⟨rfl, hs⟩⟩
  · have h1 : n = 1 := h1
    omega
  · exact ⟨rfl, hs.resized⟩

/-! ### One after the other -/

theorem Resized.trans {h1 h2 : Heap K φ} {m : ℕ} {chain1 chain2 chain' : ℕ → List Ptr} {m' : ℕ}
    (h1' : Resized h h1 m chain1) (h2' : Resized h1 h2 m' chain2) (hm : n = m')
    (hc : ∀ j < m', chain' j = chain2 j) : Resized h h2 n chain' :=
  ⟨h2'.chains.congr hm hc, h1'.frame.trans h2'.frame⟩

theorem inBucket_frame {h1 : Heap K φ} (hf : Frame h h1) (m j : ℕ) (l : List Ptr) :
    inBucket h1 m j l = inBucket h m j l := by
  unfold inBucket
  rw [hf.hash]

theorem inBucket_append (h : Heap K φ) (m j : ℕ) (l l' : List Ptr) :
    inBucket h m j (l ++ l') = inBucket h m j l ++ inBucket h m j l' := List.filter_append _ _

/-- **Exact effect of a resize**: an expand divides every chain, in order, between two buckets; a shrink
appends the chains of two buckets; a shrink and an expand restore every chain, an expand and a shrink leave
its stable partition.  Hashes and size stay. -/
theorem resize_exact (ht : Chains h n chain) :
    (rTableCoreExpandBuckets2x.Total exec h fun _ h' =>
      Resized h h' (2 * n) fun j => inBucket h (2 * n) j (chain (j % n))) ∧
    (2 ≤ n → rTableCoreShrinkBuckets2x.Total exec h fun r h' =>
      r = true ∧ Resized h h' (n / 2) fun i => chain i ++ chain (i + n / 2)) ∧
    (2 ≤ n → rTableCoreShrinkBuckets2x.Total exec h fun _ h1 =>
      rTableCoreExpandBuckets2x.Total exec h1 fun _ h2 => Resized h h2 n chain) ∧
    (rTableCoreExpandBuckets2x.Total exec h fun _ h1 =>
      rTableCoreShrinkBuckets2x.Total exec h1 fun r h2 => r = true ∧ Resized h h2 n fun i =>
        inBucket h (2 * n) i (chain i) ++ inBucket h (2 * n) (i + n) (chain i)) := by
  obtain ⟨k, hk⟩ := ht.pow
  have hpos : 0 < n := hk ▸ Nat.two_pow_pos k
  refine ⟨expand_total ht, shrink_total ht, ?_, ?_⟩
  · intro hn
    have heven : n = 2 * (n / 2) := by
      cases k with
      | zero => omega
      | succ k => rw [pow_succ] at hk; omega
    refine (shrink_total ht hn).mono exec ?_
    rintro _ h1 ⟨-, h1'⟩
    refine (expand_total h1'.chains).mono exec fun _ h2 h2' => h1'.trans h2' heven fun j hj => ?_
    rw [← heven] at hj
    have hmod : j % (n / 2) + n / 2 < n := by
      have := Nat.mod_lt j (show 0 < n / 2 by omega)
      omega
    rw [inBucket_frame h1'.frame, inBucket_append, ← heven, ht.inBucket_eq (by omega),
      ht.inBucket_eq hmod]
    -- one of the two halves is the chain, the other has nothing of it
    by_cases hlt : j < n / 2
    · rw [Nat.mod_eq_of_lt hlt, if_pos rfl, if_neg (by omega), List.append_nil]
    · have h1 : j % (n / 2) = j - n / 2 := by
        rw [Nat.mod_eq_sub_mod (by omega), Nat.mod_eq_of_lt (by omega)]
      rw [h1, if_neg (by omega), if_pos (by omega), List.nil_append, Nat.sub_add_cancel (by omega)]
  · refine (expand_total ht).mono exec ?_
    intro _ h1 h1'
    refine (shrink_total h1'.chains (by omega)).mono exec ?_
    rintro r h2 ⟨rfl, h2'⟩
    have hhalf : 2 * n / 2 = n := by omega
    refine ⟨rfl, h1'.trans h2' hhalf.symm ?_⟩
    intro i hi
    rw [hhalf] at hi ⊢
    rw [Nat.add_mod_right, Nat.mod_eq_of_lt hi]

/-- Two buckets, with the hashes 0 and 2 in bucket 0 and the hash 3 in bucket 1. -/
def twoBuckets : Heap Unit Unit where
  next
    | .head 1 0 => some (.node 0)
    | .head 1 1 => some (.node 2)
    | .node 0 => some (.node 1)
    | _ => none
  hash
    | .node 1 => 2
    | .node 2 => 3
    | _ => 0
  key _ := ()
  pBucketsInfo := 1
  size := 3
  expandFactor := ()
  shrinkFactor := ()
  nrBucketsPowerOf2 _ := 2
  live b := b == 1
  fresh := 2

theorem twoBuckets_chains :
    Chains twoBuckets 2 fun j => if j = 0 then [.node 0, .node 1] else [.node 2] where
  live := rfl
  nr := rfl
  pow := ⟨1, rfl⟩
  null := rfl
  fresh b hb := by
    obtain rfl : b = 1 := by simpa [twoBuckets] using hb
    decide
  path j hj := by
    obtain rfl | rfl : j = 0 ∨ j = 1 := by omega
    · exact ⟨rfl, rfl, rfl⟩
    · exact ⟨rfl, rfl⟩
  node j hj p hp := by
    obtain rfl | rfl : j = 0 ∨ j = 1 := by omega
    · rcases List.mem_pair.mp hp with rfl | rfl <;> exact ⟨_, rfl⟩
    · exact ⟨2, List.mem_singleton.mp hp⟩
  home j hj p hp := by
    obtain rfl | rfl : j = 0 ∨ j = 1 := by omega
    · rcases List.mem_pair.mp hp with rfl | rfl <;> rfl
    · obtain rfl := List.mem_singleton.mp hp
      rfl

theorem twoBuckets_resize :
    rTableCoreShrinkBuckets2x.Total exec twoBuckets fun _ h1 =>
      rTableCoreExpandBuckets2x.Total exec h1 fun _ h2 => Resized twoBuckets h2 2
        fun j => if j = 0 then [.node 0, .node 1] else [.node 2] :=
  (resize_exact twoBuckets_chains).2.2.1 (by decide)

end RcuTable
