import RcuTable.Table.Rules
import Mathlib.Algebra.Order.Group.Nat

/-!
# Table.Resize — what expand and shrink have in common

Both build a new `BucketsInfo` in private, publish it, and wait.  `allocateAndInitBuckets` is specified for
any guarantee (`allocateAndInitBuckets_sim`), because the table's initialization runs it before there is a
view to keep.  `Frame` is what no resize touches.
-/

namespace RcuTable

open Atomic Chain

variable {K φ : Type}

namespace Heap

/-- The heap with the first `k` list heads of the array `b` null. -/
def clearHeads (h : Heap K φ) (b k : ℕ) : Heap K φ :=
  { h with next := fun p => match p with
    | .head b' i => if b' = b ∧ i < k then none else h.next (.head b' i)
    | .node n => h.next (.node n) }

/-- The heap with a new array of `n` empty buckets. -/
def withArray (h : Heap K φ) (n : ℕ) : Heap K φ := (h.malloc n).clearHeads h.fresh n

@[simp] theorem clearHeads_zero (h : Heap K φ) (b : ℕ) : h.clearHeads b 0 = h := by
  have hn : (h.clearHeads b 0).next = h.next := by
    funext p
    cases p <;> simp [clearHeads]
  show { h with next := (h.clearHeads b 0).next } = h
  rw [hn]

theorem clearHeads_succ (h : Heap K φ) (b k : ℕ) :
    (h.clearHeads b k).setNext (.head b k) none = h.clearHeads b (k + 1) := by
  have hn : ((h.clearHeads b k).setNext (.head b k) none).next = (h.clearHeads b (k + 1)).next := by
    funext p
    cases p with
    | node n => simp [clearHeads]
    | head b' i =>
      by_cases hp : Ptr.head b' i = .head b k
      · injection hp with h1 h2
        subst h1 h2
        simp [clearHeads]
      · have h1 : (b' = b ∧ i < k + 1) ↔ (b' = b ∧ i < k) := by
          constructor
          · rintro ⟨rfl, hi⟩
            refine ⟨rfl, ?_⟩
            rcases Nat.lt_succ_iff_lt_or_eq.mp hi with hi | rfl
            · exact hi
            · exact absurd rfl hp
          · rintro ⟨rfl, hi⟩
            exact ⟨rfl, by omega⟩
        show Function.update (h.clearHeads b k).next (.head b k) none (.head b' i) =
          if b' = b ∧ i < k + 1 then none else h.next (.head b' i)
        rw [Function.update_of_ne hp, if_congr h1 rfl rfl]
        rfl
  show { h with next := ((h.clearHeads b k).setNext (.head b k) none).next } = h.clearHeads b (k + 1)
  rw [hn]
  rfl

@[simp] theorem withArray_live (h : Heap K φ) (n : ℕ) : (h.withArray n).live h.fresh = true :=
  Function.update_self _ _ _

@[simp] theorem withArray_nr (h : Heap K φ) (n : ℕ) :
    (h.withArray n).nrBucketsPowerOf2 h.fresh = n := Function.update_self _ _ _

theorem accessible_withArray (h : Heap K φ) {n i : ℕ} (hi : i < n) :
    (h.withArray n).accessible (.head h.fresh i) = true := by
  simp [accessible, hi]

end Heap

/-- The fields that a resize leaves alone. -/
structure Frame (h h' : Heap K φ) : Prop where
  hash : h'.hash = h.hash
  key : h'.key = h.key
  size : h'.size = h.size
  expandFactor : h'.expandFactor = h.expandFactor
  shrinkFactor : h'.shrinkFactor = h.shrinkFactor

theorem Frame.refl (h : Heap K φ) : Frame h h := ⟨rfl, rfl, rfl, rfl, rfl⟩

theorem Frame.trans {h h' h'' : Heap K φ} (h1 : Frame h h') (h2 : Frame h' h'') : Frame h h'' :=
  ⟨h2.hash.trans h1.hash, h2.key.trans h1.key, h2.size.trans h1.size,
    h2.expandFactor.trans h1.expandFactor, h2.shrinkFactor.trans h1.shrinkFactor⟩

/-- The two heaps differ in `next` pointers only. -/
structure OnlyNext (h h' : Heap K φ) : Prop extends Frame h h' where
  pBucketsInfo : h'.pBucketsInfo = h.pBucketsInfo
  live : h'.live = h.live
  nr : h'.nrBucketsPowerOf2 = h.nrBucketsPowerOf2

theorem OnlyNext.refl (h : Heap K φ) : OnlyNext h h := ⟨.refl h, rfl, rfl, rfl⟩

theorem OnlyNext.trans {h h' h'' : Heap K φ} (h1 : OnlyNext h h') (h2 : OnlyNext h' h'') :
    OnlyNext h h'' :=
  ⟨h1.toFrame.trans h2.toFrame, h2.pBucketsInfo.trans h1.pBucketsInfo, h2.live.trans h1.live,
    h2.nr.trans h1.nr⟩

theorem OnlyNext.setNext {h h' : Heap K φ} (hn : OnlyNext h h') (p : Ptr) (v : Option Ptr) :
    OnlyNext h (h'.setNext p v) :=
  ⟨⟨hn.hash, hn.key, hn.size, hn.expandFactor, hn.shrinkFactor⟩, hn.pBucketsInfo, hn.live, hn.nr⟩

theorem OnlyNext.accessible {h h' : Heap K φ} (hn : OnlyNext h h') (p : Ptr) :
    h'.accessible p = h.accessible p := by
  cases p with
  | node n => rfl
  | head b i => simp only [Heap.accessible, hn.live, hn.nr]

theorem Frame.withArray (h : Heap K φ) (n : ℕ) : Frame h (h.withArray n) := ⟨rfl, rfl, rfl, rfl, rfl⟩

/-- The two views show the same array. -/
structure SameArray (g g' : View) : Prop where
  info : g'.info = g.info
  n : g'.n = g.n
  arrs : g'.arrs = g.arrs

theorem SameArray.refl (g : View) : SameArray g g := ⟨rfl, rfl, rfl⟩

theorem SameArray.trans {g g' g'' : View} (h1 : SameArray g g') (h2 : SameArray g' g'') :
    SameArray g g'' := ⟨h2.info.trans h1.info, h2.n.trans h1.n, h2.arrs.trans h1.arrs⟩

/-- With a power of two buckets, masking is the remainder. -/
theorem Rep.slot_eq {h : Heap K φ} {g : View} (hr : Rep h g) (x : ℕ) : g.slot x = x % g.n := by
  obtain ⟨k, hk⟩ := hr.pow
  rw [View.slot, hk, Nat.and_two_pow_sub_one_eq_mod]

theorem Flat.mod {h : Heap K φ} {g : View} (hf : Flat h g) {i : ℕ} (hi : i < g.n) {p : Ptr}
    (hp : p ∈ g.chain i) : h.hash p % g.n = i := by
  rw [← hf.slot_eq]
  exact hf.flat i hi p hp

/-! ### The new array -/

theorem allocateAndInitBuckets_sim {G : Type}
    {R : ∀ {β : Type}, Act K φ β → Heap K φ → G → Heap K φ → G → Prop} {I : Heap K φ → G → Prop}
    {Q : ℕ → Heap K φ → G → Prop} {h : Heap K φ} {g : G} {n : ℕ} (hn : 0 < n)
    (hm : R (.malloc n) h g (h.malloc n) g) (h0 : I (h.malloc n) g)
    (hs : ∀ h' i, I h' g →
      R (.storeNext (.head h.fresh i) none) h' g (h'.setNext (.head h.fresh i) none) g ∧
        I (h'.setNext (.head h.fresh i) none) g)
    (hQ : I (h.withArray n) g → Q h.fresh (h.withArray n) g) :
    Sim exec R Q (allocateAndInitBuckets n) h g := by
  unfold allocateAndInitBuckets
  simp only [assert, store, Prog.lift, Prog.bind_def, Prog.pure_def, Prog.act_bind, Prog.ret_bind, hn,
    decide_true, if_true]
  refine .act rfl hm (Sim.bind ?_)
  refine Sim.forRange (fun k _ h' g' => g' = g ∧ h' = (h.malloc n).clearHeads h.fresh k ∧ I h' g)
    ⟨rfl, (Heap.clearHeads_zero _ _).symm, h0⟩ ?_ ?_
  · rintro i hi _ h' g' ⟨rfl, rfl, hI⟩
    have hacc : ((h.malloc n).clearHeads h.fresh i).accessible (.head h.fresh i) = true := by
      simp [Heap.accessible, Heap.clearHeads, Heap.malloc, hi]
    refine .act (v := ()) (by simp [exec, hacc]) (hs _ i hI).1 (.ret ⟨rfl, ?_, (hs _ i hI).2⟩)
    exact Heap.clearHeads_succ _ _ _
  · rintro _ h' g' ⟨rfl, rfl, hI⟩
    exact .ret (hQ hI)

variable {pm : Perm K φ} {h : Heap K φ} {g : View}

theorem allocateAndInitBuckets_guarded {n : ℕ} (hr : Rep h g) (hn : 0 < n) :
    Guarded pm (fun b h' g' => b = h.fresh ∧ h' = h.withArray n ∧ g' = g ∧ Rep h' g)
      (allocateAndInitBuckets n) h g := by
  have hne := hr.fresh_not_arrs
  have hquiet := hr.malloc pm n
  refine allocateAndInitBuckets_sim (I := Rep) hn (.quiet hquiet) hquiet.rep
    ?_ fun hr' => ⟨rfl, rfl, rfl, hr'⟩
  intro h' i hr'
  have hq : Quiet pm h' g (h'.setNext (.head h.fresh i) none) := .setHead hr' hne
  exact ⟨.quiet hq, hq.rep⟩

end RcuTable
