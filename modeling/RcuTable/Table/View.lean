import RcuTable.Lib.Chain
import RcuTable.Table.Model
import Mathlib.Algebra.Group.Nat.Defs

/-!
# Table.View — what the readers of the table can see, and what the writer may do to it

A `View` describes the table as its readers see it: the published `BucketsInfo`, the chain behind each of
its list heads, and what is known about the readers under way (`clean`, `dirty`, `arrs`, `mixed`).  `Rep h g` says
that the heap holds this view.  `Guar` lists the changes that the writer makes to it, one atomic store at
a time: a store nobody can see, the link of a new node, a pointer swung to another tail (an unlink, the
splice of a shrink, the unzip of an expand), and the publication of new buckets.  Between two of its stores
the writer may call `rcuSynchronize`, which clears what older readers could see.
-/

namespace RcuTable

open Chain

variable {K φ : Type}

/-- The table as its readers see it.  `chain j` are the nodes behind bucket `j` of the published array.
`clean j`: every reader under way for a hash of bucket `j` stands on that chain.  `dirty`: nodes unlinked
since the last grace period.  `arrs`: the arrays that a reader under way may hold.  `mixed`: nodes that
were in two buckets at once since the last grace period. -/
structure View where
  info : ℕ
  n : ℕ
  chain : ℕ → List Ptr
  clean : ℕ → Prop
  dirty : Ptr → Prop
  arrs : ℕ → Prop
  mixed : Ptr → Prop

namespace View

variable (g : View)

/-- The list head of bucket `j`, then its chain. -/
def full (j : ℕ) : List Ptr := .head g.info j :: g.chain j

/-- The bucket of a hash value. -/
def slot (hashVal : ℕ) : ℕ := hashVal &&& (g.n - 1)

/-- The node is in the table. -/
def Linked (p : Ptr) : Prop := ∃ j < g.n, p ∈ g.chain j

/-- A reader under way may stand on this cell. -/
def Seen : Ptr → Prop
  | .head b _ => g.arrs b
  | .node k => g.Linked (.node k) ∨ g.dirty (.node k)

/-- The node is or was in two buckets at once, so that a reader for either hash may have passed it. -/
def Mixed (p : Ptr) : Prop :=
  g.mixed p ∨ ∃ i < g.n, ∃ k < g.n, i ≠ k ∧ p ∈ g.chain i ∧ p ∈ g.chain k

/-- The view after a grace period: only readers younger than its start are under way. -/
def synced : View :=
  { g with
    clean := fun _ => True
    dirty := fun _ => False
    arrs := fun b => b = g.info
    mixed := fun _ => False }

@[simp] theorem synced_info : g.synced.info = g.info := rfl
@[simp] theorem synced_n : g.synced.n = g.n := rfl
@[simp] theorem synced_chain : g.synced.chain = g.chain := rfl
@[simp] theorem synced_clean (j : ℕ) : g.synced.clean j := trivial
@[simp] theorem synced_dirty (p : Ptr) : ¬ g.synced.dirty p := id
@[simp] theorem synced_arrs (b : ℕ) : g.synced.arrs b ↔ b = g.info := Iff.rfl
@[simp] theorem synced_mixed (p : Ptr) : ¬ g.synced.mixed p := id
@[simp] theorem synced_full (j : ℕ) : g.synced.full j = g.full j := rfl
@[simp] theorem synced_linked (p : Ptr) : g.synced.Linked p ↔ g.Linked p := Iff.rfl
@[simp] theorem synced_slot (x : ℕ) : g.synced.slot x = g.slot x := rfl

theorem mem_full {j : ℕ} {p : Ptr} : p ∈ g.full j ↔ p = .head g.info j ∨ p ∈ g.chain j :=
  List.mem_cons

end View

/-- The heap holds the view. -/
structure Rep (h : Heap K φ) (g : View) : Prop where
  info : h.pBucketsInfo = g.info
  nr : h.nrBucketsPowerOf2 g.info = g.n
  pow : ∃ k, g.n = 2 ^ k
  arr : g.arrs g.info
  live : ∀ b, g.arrs b → h.live b = true ∧ 0 < h.nrBucketsPowerOf2 b
  null : h.live 0 = false
  fresh : ∀ b, h.live b = true → b < h.fresh
  path : ∀ j < g.n, Path h.next (some (.head g.info j)) (g.full j)
  node : ∀ j < g.n, ∀ p ∈ g.chain j, ∃ k, p = .node k
  home : ∀ j < g.n, ∀ p ∈ g.chain j, p ∈ g.chain (g.slot (h.hash p))

/-- The heap of a table between two operations: every node is in the bucket that its hash selects. -/
structure Flat (h : Heap K φ) (g : View) : Prop extends Rep h g where
  flat : ∀ j < g.n, ∀ p ∈ g.chain j, g.slot (h.hash p) = j
  pure : ∀ p, ¬ g.mixed p

namespace Rep

variable {h h' : Heap K φ} {g : View}

theorem pos (hr : Rep h g) : 0 < g.n := by
  obtain ⟨k, hk⟩ := hr.pow
  rw [hk]
  exact Nat.two_pow_pos k

theorem slot_lt (hr : Rep h g) (x : ℕ) : g.slot x < g.n := by
  have h1 := hr.pos
  have h2 : g.slot x ≤ g.n - 1 := Nat.and_le_right
  omega

theorem live_info (hr : Rep h g) : h.live g.info = true := (hr.live _ hr.arr).1

theorem linked_node (hr : Rep h g) {p : Ptr} (hp : g.Linked p) : ∃ k, p = .node k := by
  obtain ⟨j, hj, hp⟩ := hp
  exact hr.node j hj p hp

theorem linked_home (hr : Rep h g) {p : Ptr} (hp : g.Linked p) :
    p ∈ g.chain (g.slot (h.hash p)) := by
  obtain ⟨j, hj, hp⟩ := hp
  exact hr.home j hj p hp

theorem head_notMem (hr : Rep h g) {j b i : ℕ} (hj : j < g.n) : Ptr.head b i ∉ g.chain j := by
  intro hp
  obtain ⟨k, hk⟩ := hr.node j hj _ hp
  cases hk

/-- A list head is in the full chain of its own bucket only. -/
theorem head_mem_full (hr : Rep h g) {b i j : ℕ} (hj : j < g.n) (hp : Ptr.head b i ∈ g.full j) :
    b = g.info ∧ i = j := by
  rcases g.mem_full.mp hp with he | hm
  · injection he with h1 h2
    exact ⟨h1, h2⟩
  · exact absurd hm (hr.head_notMem hj)

theorem seen_of_mem_full (hr : Rep h g) {j : ℕ} (hj : j < g.n) {p : Ptr} (hp : p ∈ g.full j) :
    g.Seen p := by
  rcases g.mem_full.mp hp with rfl | hm
  · exact hr.arr
  · obtain ⟨k, rfl⟩ := hr.node j hj p hm
    exact Or.inl ⟨j, hj, hm⟩

theorem chain_nodup (hr : Rep h g) {j : ℕ} (hj : j < g.n) : (g.chain j).Nodup :=
  (List.nodup_cons.mp (hr.path j hj).nodup).2

/-- The pointer in the list head. -/
theorem next_head (hr : Rep h g) {j : ℕ} (hj : j < g.n) :
    h.next (.head g.info j) = (g.chain j).head? := (hr.path j hj).2.head

theorem chain_path (hr : Rep h g) {j : ℕ} (hj : j < g.n) :
    Path h.next (g.chain j).head? (g.chain j) := hr.next_head hj ▸ (hr.path j hj).2

theorem accessible_head (hr : Rep h g) {j : ℕ} (hj : j < g.n) :
    h.accessible (.head g.info j) = true := by
  simp [Heap.accessible, hr.live_info, hr.nr, hj]

theorem accessible_of_mem (hr : Rep h g) {j : ℕ} (hj : j < g.n) {p : Ptr} (hp : p ∈ g.chain j) :
    h.accessible p = true := by
  obtain ⟨k, rfl⟩ := hr.node j hj p hp
  rfl

theorem accessible_of_mem_full (hr : Rep h g) {j : ℕ} (hj : j < g.n) {p : Ptr}
    (hp : p ∈ g.full j) : h.accessible p = true := by
  rcases g.mem_full.mp hp with rfl | hm
  · exact hr.accessible_head hj
  · exact hr.accessible_of_mem hj hm

/-- The heap holds the view after a grace period, too. -/
theorem synced (hr : Rep h g) : Rep h g.synced where
  info := hr.info
  nr := hr.nr
  pow := hr.pow
  arr := rfl
  live b hb := by
    obtain rfl : b = g.info := hb
    exact hr.live _ hr.arr
  null := hr.null
  fresh := hr.fresh
  path := hr.path
  node := hr.node
  home := hr.home

/-- A heap that agrees on everything the view mentions holds it as well. -/
theorem congr (hr : Rep h g) (hi : h'.pBucketsInfo = h.pBucketsInfo)
    (hlive : ∀ b, g.arrs b → h'.live b = h.live b ∧
      h'.nrBucketsPowerOf2 b = h.nrBucketsPowerOf2 b) (hnull : h'.live 0 = false)
    (hfresh : ∀ b, h'.live b = true → b < h'.fresh)
    (hnext : ∀ j < g.n, ∀ p ∈ g.full j, h'.next p = h.next p)
    (hhash : ∀ p, g.Linked p → h'.hash p = h.hash p) : Rep h' g where
  info := hi.trans hr.info
  nr := by rw [(hlive _ hr.arr).2, hr.nr]
  pow := hr.pow
  arr := hr.arr
  live b hb := by
    rw [(hlive b hb).1, (hlive b hb).2]
    exact hr.live b hb
  null := hnull
  fresh := hfresh
  path j hj := (hr.path j hj).congr (hnext j hj)
  node := hr.node
  home j hj p hp := by
    rw [hhash p ⟨j, hj, hp⟩]
    exact hr.home j hj p hp

end Rep

theorem Flat.synced {h : Heap K φ} {g : View} (hf : Flat h g) : Flat h g.synced :=
  ⟨hf.toRep.synced, hf.flat, fun _ => id⟩

/-- A heap with the same view, and with the same hashes in the linked nodes, is flat as well. -/
theorem Flat.hashed {h h' : Heap K φ} {g : View} (hf : Flat h g) (hr : Rep h' g)
    (hh : ∀ p, g.Linked p → h'.hash p = h.hash p) : Flat h' g := by
  refine ⟨hr, ?_, hf.pure⟩
  intro j hj p hp
  rw [hh p ⟨j, hj, hp⟩]
  exact hf.flat j hj p hp

/-- Two buckets of a flat table share no node. -/
theorem Flat.disjoint {h : Heap K φ} {g : View} (hf : Flat h g) {i j : ℕ} (hi : i < g.n)
    (hj : j < g.n) {p : Ptr} (h1 : p ∈ g.chain i) (h2 : p ∈ g.chain j) : i = j :=
  (hf.flat i hi p h1).symm.trans (hf.flat j hj p h2)

theorem Flat.not_mixed {h : Heap K φ} {g : View} (hf : Flat h g) (p : Ptr) : ¬ g.Mixed p := by
  rintro (hm | ⟨i, hi, k, hk, hne, hpi, hpk⟩)
  · exact hf.pure p hm
  · exact hne (hf.disjoint hi hk hpi hpk)

/-! ### What the writer may do -/

namespace View

variable (g : View)

/-- The new node `p` at the front of bucket `j`. -/
def link (j : ℕ) (p : Ptr) : View :=
  { g with chain := Function.update g.chain j (p :: g.chain j) }

/-- Bucket `j` gets the chain `l`; what is in no bucket any more is dirty. -/
def swing (j : ℕ) (l : List Ptr) : View :=
  { g with
    chain := Function.update g.chain j l
    clean := fun i => g.clean i ∧ i ≠ j
    dirty := fun p => g.dirty p ∨
      g.Linked p ∧ ¬ ∃ i < g.n, p ∈ Function.update g.chain j l i
    mixed := g.Mixed }

variable (j : ℕ) (p : Ptr) (l : List Ptr)

@[simp] theorem link_info : (g.link j p).info = g.info := rfl
@[simp] theorem link_n : (g.link j p).n = g.n := rfl
@[simp] theorem link_arrs : (g.link j p).arrs = g.arrs := rfl
@[simp] theorem link_clean : (g.link j p).clean = g.clean := rfl
@[simp] theorem link_dirty : (g.link j p).dirty = g.dirty := rfl
@[simp] theorem link_mixed : (g.link j p).mixed = g.mixed := rfl
@[simp] theorem link_slot (x : ℕ) : (g.link j p).slot x = g.slot x := rfl
@[simp] theorem link_chain :
    (g.link j p).chain = Function.update g.chain j (p :: g.chain j) := rfl

@[simp] theorem swing_info : (g.swing j l).info = g.info := rfl
@[simp] theorem swing_n : (g.swing j l).n = g.n := rfl
@[simp] theorem swing_arrs : (g.swing j l).arrs = g.arrs := rfl
@[simp] theorem swing_slot (x : ℕ) : (g.swing j l).slot x = g.slot x := rfl
@[simp] theorem swing_chain : (g.swing j l).chain = Function.update g.chain j l := rfl
@[simp] theorem swing_clean (i : ℕ) : (g.swing j l).clean i ↔ g.clean i ∧ i ≠ j := Iff.rfl
@[simp] theorem swing_mixed : (g.swing j l).mixed = g.Mixed := rfl
@[simp] theorem swing_dirty (q : Ptr) :
    (g.swing j l).dirty q ↔ g.dirty q ∨ g.Linked q ∧ ¬ (g.swing j l).Linked q := Iff.rfl

variable {g j p l}

theorem mem_link {i : ℕ} {q : Ptr} :
    q ∈ (g.link j p).chain i ↔ q ∈ g.chain i ∨ i = j ∧ q = p := by
  by_cases hi : i = j
  · subst hi
    simp [or_comm]
  · simp [hi]

theorem link_linked (hj : j < g.n) {q : Ptr} : (g.link j p).Linked q ↔ g.Linked q ∨ q = p := by
  constructor
  · rintro ⟨i, hi, hq⟩
    rcases mem_link.mp hq with hq | ⟨-, rfl⟩
    · exact Or.inl ⟨i, hi, hq⟩
    · exact Or.inr rfl
  · rintro (⟨i, hi, hq⟩ | rfl)
    · exact ⟨i, hi, mem_link.mpr (Or.inl hq)⟩
    · exact ⟨j, hj, mem_link.mpr (Or.inr ⟨rfl, rfl⟩)⟩

/-- Nodes stay linked when the new chain has them, or another bucket. -/
theorem linked_swing (hj : j < g.n)
    (hl : ∀ q ∈ g.chain j, q ∈ l ∨ ∃ i < g.n, i ≠ j ∧ q ∈ g.chain i) {q : Ptr} (hq : g.Linked q) :
    (g.swing j l).Linked q := by
  have hoff : ∀ i < g.n, i ≠ j → q ∈ g.chain i → (g.swing j l).Linked q := fun i hi hij hqi =>
    ⟨i, hi, by rwa [swing_chain, Function.update_of_ne hij]⟩
  obtain ⟨i, hi, hqi⟩ := hq
  by_cases hij : i = j
  · subst hij
    rcases hl q hqi with hql | ⟨k, hk, hki, hqk⟩
    · exact ⟨i, hi, by rwa [swing_chain, Function.update_self]⟩
    · exact hoff k hk hki hqk
  · exact hoff i hi hij hqi

theorem full_of_ne {i : ℕ} (hi : i ≠ j) : (g.swing j l).full i = g.full i := by
  simp [full, hi]

end View

/-- What an operation is allowed beyond moving linked nodes: the nodes that are its own until it links
them, and the condition on which it may link one. -/
structure Perm (K φ : Type) where
  own : Ptr → Prop
  allow : Heap K φ → View → Ptr → Prop

/-- A step that no reader can see. -/
structure Quiet (pm : Perm K φ) (h : Heap K φ) (g : View) (h' : Heap K φ) : Prop where
  rep : Rep h' g
  next : ∀ p, g.Seen p → (pm.own p → g.Linked p) → h'.next p = h.next p
  hash : ∀ p, g.Linked p → h'.hash p = h.hash p
  nr : ∀ b, g.arrs b → h'.nrBucketsPowerOf2 b = h.nrBucketsPowerOf2 b
  key : h'.key = h.key

/-- The store into cell `c` of bucket `j`, behind the cells `s`, that exchanges the tail `old` for the
tail `new`. -/
structure Swing (pm : Perm K φ) (h : Heap K φ) (g : View) (j : ℕ) (s : List Ptr) (c : Ptr)
    (old new : List Ptr) : Prop where
  lt : j < g.n
  full : g.full j = s ++ c :: old
  only : ∀ i < g.n, c ∈ g.full i → i = j
  newPath : Path h.next new.head? new
  notMem : c ∉ new
  linked : ∀ p ∈ new, g.Linked p
  /-- a node that is dropped from the bucket but stays linked belongs to another one -/
  lost : ∀ p ∈ old, p ∉ new → (g.swing j (s ++ c :: new).tail).Linked p →
    g.slot (h.hash p) ≠ j ∧ g.clean (g.slot (h.hash p))
  /-- so does a node that is new on the path, which no reader can have passed on its way to the cell -/
  apart : ∀ p ∈ new, p ∉ old → g.slot (h.hash p) ≠ j ∧ ¬ g.Mixed p ∧ ¬ g.Mixed c ∧ ∃ k, c = .node k
  keep : ∀ p, pm.own p → g.Linked p → (g.swing j (s ++ c :: new).tail).Linked p

/-- The publication of the array `b`, as the view `g'`. -/
structure Publish (h : Heap K φ) (g : View) (b : ℕ) (g' : View) : Prop where
  rep : Rep { h with pBucketsInfo := b } g'
  linked : ∀ p, g'.Linked p ↔ g.Linked p
  arrs : ∀ b', g'.arrs b' ↔ g.arrs b' ∨ b' = b
  new : ¬ g.arrs b
  clean : ∀ j, ¬ g'.clean j
  dirty : g'.dirty = g.dirty
  mixed : ∀ p, g'.mixed p

/-- The steps of the writer, as changes of the heap and the view. -/
inductive Guar (pm : Perm K φ) (h : Heap K φ) (g : View) : Heap K φ → View → Prop
  | quiet {h' : Heap K φ} (hq : Quiet pm h g h') : Guar pm h g h' g
  | link {j n : ℕ} (hown : pm.own (.node n)) (hadm : pm.allow h g (.node n))
      (hnot : ¬ g.Linked (.node n)) (hj : g.slot (h.hash (.node n)) = j)
      (hnext : h.next (.node n) = (g.chain j).head?) :
      Guar pm h g (h.setNext (.head g.info j) (some (.node n))) (g.link j (.node n))
  | swing {j : ℕ} {s : List Ptr} {c : Ptr} {old new : List Ptr}
      (hs : Swing pm h g j s c old new) :
      Guar pm h g (h.setNext c new.head?) (g.swing j (s ++ c :: new).tail)
  | publish {b : ℕ} {g' : View} (hp : Publish h g b g') :
      Guar pm h g { h with pBucketsInfo := b } g'

/-- The guarantee of the writer's programs, action by action. -/
def Writes (pm : Perm K φ) : {β : Type} → Act K φ β → Heap K φ → View → Heap K φ → View → Prop
  | _, .rcuSynchronize, h, g, h', g' => h' = h ∧ g' = g.synced
  | _, _, h, g, h', g' => Guar pm h g h' g'

/-! ### The view after a step -/

section Step

variable {pm : Perm K φ} {h : Heap K φ} {g : View}

@[simp] theorem Heap.setNext_next (p : Ptr) (v : Option Ptr) :
    (h.setNext p v).next = Function.update h.next p v := rfl
@[simp] theorem Heap.setNext_hash (p : Ptr) (v : Option Ptr) : (h.setNext p v).hash = h.hash := rfl
@[simp] theorem Heap.setNext_key (p : Ptr) (v : Option Ptr) : (h.setNext p v).key = h.key := rfl
@[simp] theorem Heap.setNext_size (p : Ptr) (v : Option Ptr) : (h.setNext p v).size = h.size := rfl
@[simp] theorem Heap.setNext_live (p : Ptr) (v : Option Ptr) : (h.setNext p v).live = h.live := rfl
@[simp] theorem Heap.setNext_nr (p : Ptr) (v : Option Ptr) :
    (h.setNext p v).nrBucketsPowerOf2 = h.nrBucketsPowerOf2 := rfl

/-- The head of a bucket is the first cell in front of every other one. -/
theorem Swing.full_new {j : ℕ} {s : List Ptr} {c : Ptr} {old new : List Ptr}
    (hs : Swing pm h g j s c old new) :
    (g.swing j (s ++ c :: new).tail).full j = s ++ c :: new := by
  have hf := hs.full
  cases s with
  | nil =>
    simp only [View.full, List.nil_append, List.cons.injEq] at hf
    obtain ⟨rfl, -⟩ := hf
    simp [View.full]
  | cons x s =>
    simp only [View.full, List.cons_append, List.cons.injEq] at hf
    obtain ⟨rfl, -⟩ := hf
    simp [View.full]

theorem Swing.mem_chain_new {j : ℕ} {s : List Ptr} {c : Ptr} {old new : List Ptr}
    (hs : Swing pm h g j s c old new) {p : Ptr} (hp : p ∈ (s ++ c :: new).tail) :
    p ∈ g.chain j ∨ p ∈ new := by
  have hf := hs.full
  cases s with
  | nil => exact Or.inr hp
  | cons x s =>
    simp only [View.full, List.cons_append, List.cons.injEq] at hf
    obtain ⟨-, hf⟩ := hf
    simp only [List.cons_append, List.tail_cons, List.mem_append, List.mem_cons] at hp
    rw [hf]
    simp only [List.mem_append, List.mem_cons]
    tauto

/-- What a swing leaves linked was linked. -/
theorem Swing.linked_of {j : ℕ} {s : List Ptr} {c : Ptr} {old new : List Ptr}
    (hs : Swing pm h g j s c old new) {p : Ptr}
    (hp : (g.swing j (s ++ c :: new).tail).Linked p) : g.Linked p := by
  obtain ⟨i, hi, hp⟩ := hp
  by_cases hij : i = j
  · subst hij
    rw [View.swing_chain, Function.update_self] at hp
    rcases hs.mem_chain_new hp with h1 | h1
    · exact ⟨i, hi, h1⟩
    · exact hs.linked p h1
  · rw [View.swing_chain, Function.update_of_ne hij] at hp
    exact ⟨i, hi, hp⟩

/-- A node in front of the cell, or on the new tail, is in the bucket afterwards. -/
theorem Swing.mem_new {j : ℕ} {s : List Ptr} {c : Ptr} {old new : List Ptr}
    (hs : Swing pm h g j s c old new) {p : Ptr} (hp : p ∈ g.chain j) (hold : p ∈ old → p ∈ new) :
    p ∈ (s ++ c :: new).tail := by
  have hf := hs.full
  cases s with
  | nil =>
    simp only [View.full, List.nil_append, List.cons.injEq] at hf
    exact hold (hf.2 ▸ hp)
  | cons x s =>
    simp only [View.full, List.cons_append, List.cons.injEq] at hf
    rw [hf.2, List.mem_append, List.mem_cons] at hp
    simp only [List.cons_append, List.tail_cons, List.mem_append, List.mem_cons]
    tauto

theorem Swing.rep {j : ℕ} {s : List Ptr} {c : Ptr} {old new : List Ptr} (hr : Rep h g)
    (hs : Swing pm h g j s c old new) :
    Rep (h.setNext c new.head?) (g.swing j (s ++ c :: new).tail) where
  info := hr.info
  nr := hr.nr
  pow := hr.pow
  arr := hr.arr
  live := hr.live
  null := hr.null
  fresh := hr.fresh
  path i hi := by
    have hp := hr.path i hi
    by_cases hij : i = j
    · subst hij
      rw [hs.full] at hp
      rw [hs.full_new]
      exact hp.redirect hs.newPath hs.notMem
    · rw [View.full_of_ne hij]
      exact hp.update_of_notMem fun hc => hij (hs.only i hi hc)
  node i hi p hp := by
    obtain ⟨i', hi', hp'⟩ := hs.linked_of ⟨i, hi, hp⟩
    exact hr.node i' hi' p hp'
  home i hi p hp := by
    have hl := hr.linked_home (hs.linked_of ⟨i, hi, hp⟩)
    rw [View.swing_slot, View.swing_chain, Heap.setNext_hash]
    by_cases hij : g.slot (h.hash p) = j
    · rw [hij] at hl ⊢
      rw [Function.update_self]
      refine hs.mem_new hl ?_
      intro ho
      by_contra hn
      exact (hs.lost p ho hn ⟨i, hi, hp⟩).1 hij
    · rwa [Function.update_of_ne hij]

theorem Rep.link (hr : Rep h g) {j n : ℕ}
    (hj : g.slot (h.hash (.node n)) = j) (hnext : h.next (.node n) = (g.chain j).head?) :
    Rep (h.setNext (.head g.info j) (some (.node n))) (g.link j (.node n)) where
  info := hr.info
  nr := hr.nr
  pow := hr.pow
  arr := hr.arr
  live := hr.live
  null := hr.null
  fresh := hr.fresh
  path i hi := by
    have hp := hr.path i hi
    by_cases hij : i = j
    · subst hij
      have h1 : Path h.next (some (.node n)) (.node n :: g.chain i) := by
        refine ⟨rfl, ?_⟩
        rw [hnext, ← hr.next_head hi]
        exact hp.2
      have h2 : Ptr.head g.info i ∉ Ptr.node n :: g.chain i := by
        simpa using hr.head_notMem hi
      simpa [View.full] using hp.redirect (s := []) h1 h2
    · have h1 : (g.link j (.node n)).full i = g.full i := by simp [View.full, hij]
      rw [h1]
      exact hp.update_of_notMem fun hc => hij (hr.head_mem_full hi hc).2.symm
  node i hi p hp := by
    rcases View.mem_link.mp hp with hp | ⟨-, rfl⟩
    · exact hr.node i hi p hp
    · exact ⟨n, rfl⟩
  home i hi p hp := by
    rw [View.mem_link] at hp ⊢
    rcases hp with hp | ⟨-, rfl⟩
    · exact Or.inl (hr.home i hi p hp)
    · exact Or.inr ⟨hj, rfl⟩

theorem Guar.rep {h' : Heap K φ} {g' : View} (hr : Rep h g) (hg : Guar pm h g h' g') :
    Rep h' g' := by
  cases hg with
  | quiet hq => exact hq.rep
  | link _ _ _ hj hnext => exact hr.link hj hnext
  | swing hs => exact hs.rep hr
  | publish hp => exact hp.rep

end Step

end RcuTable
