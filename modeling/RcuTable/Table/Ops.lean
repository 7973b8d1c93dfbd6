import RcuTable.Table.Shrink
import RcuTable.Table.Slist
import RcuTable.Table.Cursors

/-!
# Table.Ops — the operations of the table and what each of them leaves

`Op` lists the calls of RCUHashTableCoreApi.h, with the entry by its node number.  `Op.Post` says what a
completed call has done to a flat table: which nodes are linked now, in how many buckets, what was returned
and which nodes an earlier reader may still hold.  `Op.guarded` is the one proof about the code of all calls.
-/

namespace RcuTable

open Atomic Chain

variable {K φ : Type}

inductive Op (K φ : Type) where
  | tryInsert (n hashVal : ℕ) (matchOp : Heap K φ → Ptr → Ptr → Bool)
  | tryInsertNoExpand (n hashVal : ℕ) (binaryPredict : Heap K φ → Ptr → Ptr → Bool)
  | insertNoExpand (n : ℕ)
  | tryDetachNoShrink (hashVal : ℕ) (predict : Heap K φ → Ptr → Bool)
  | tryDetachAutoShrink (hashVal : ℕ) (matchOp : Heap K φ → Ptr → Bool)
  | tryDetachAndSynchronize (hashVal : ℕ) (matchOp : Heap K φ → Ptr → Bool)
  | expandBuckets2x
  | shrinkBuckets2x
  | find (hashVal : ℕ) (predict : Heap K φ → Ptr → Bool)
  | synchronize

/-- What a call returns; `detached p b` is the pair of a node and `*outIfAlreadyRcuSynrhonized`. -/
inductive Res where
  | unit
  | bool (b : Bool)
  | node (p : Option Ptr)
  | detached (p : Option Ptr) (synced : Bool)
  deriving DecidableEq

/-- The program of a call. -/
def Op.code (fl : FloatOps φ) : Op K φ → Code K φ Res
  | .tryInsert n hashVal m => do return .bool (← rTableCoreTryInsert fl (.node n) hashVal m)
  | .tryInsertNoExpand n hashVal m => do
    return .bool (← rTableCoreTryInsertNoExpand (.node n) hashVal m)
  | .insertNoExpand n => do
    rTableCoreInsertNoExpand (.node n)
    return .unit
  | .tryDetachNoShrink hashVal f => do return .node (← rTableCoreTryDetachNoShrink hashVal f)
  | .tryDetachAutoShrink hashVal f => do
    let (p, b) ← rTableCoreTryDetachAutoShrink fl hashVal f
    return .detached p b
  | .tryDetachAndSynchronize hashVal f => do
    return .node (← rTableCoreTryDetachAndSynchronize fl hashVal f)
  | .expandBuckets2x => do
    rTableCoreExpandBuckets2x
    return .unit
  | .shrinkBuckets2x => do return .bool (← rTableCoreShrinkBuckets2x)
  | .find hashVal f => do return .node (← rTableCoreFind hashVal f)
  | .synchronize => do
    rcuSynchronize
    return .unit

def Heap.setHash (h : Heap K φ) (p : Ptr) (x : ℕ) : Heap K φ :=
  { h with hash := Function.update h.hash p x }

/-- The decision of `expandBucketsByFac2IfNecessary`. -/
def expands (fl : FloatOps φ) (h : Heap K φ) (nrElements nrBuckets : ℕ) : Bool :=
  fl.lt (fl.mul h.expandFactor (fl.ofSize nrBuckets)) (fl.ofSize nrElements)

/-- The decision of `shrinkBucketsByFac2IfNecessary`, with the refusal to shrink a single bucket. -/
def shrinks (fl : FloatOps φ) (h : Heap K φ) (nrElements nrBuckets : ℕ) : Bool :=
  fl.lt (fl.ofSize nrElements) (fl.mul h.shrinkFactor (fl.ofSize nrBuckets)) &&
    decide (nrElements > 128) && decide (nrBuckets ≠ 1)

/-- A flat table with the nodes `S` in `m` buckets, of which the readers under way may stand on `D` beside
the linked ones; hashes, keys and factors are those of `h`. -/
structure Settled (h : Heap K φ) (S : Ptr → Prop) (m size : ℕ) (D : Ptr → Prop) (h' : Heap K φ)
    (g' : View) : Prop where
  flat : Flat h' g'
  n : g'.n = m
  linked : ∀ p, g'.Linked p ↔ S p
  dirty : ∀ p, g'.dirty p → D p
  hash : h'.hash = h.hash
  key : h'.key = h.key
  size : h'.size = size
  expandFactor : h'.expandFactor = h.expandFactor
  shrinkFactor : h'.shrinkFactor = h.shrinkFactor

/-- After an insert of `n` that ends with `m` buckets. -/
def InsertPost (h : Heap K φ) (g : View) (n hashVal : ℕ) (f : Heap K φ → Ptr → Ptr → Bool) (m : ℕ)
    (r : Bool) (h' : Heap K φ) (g' : View) : Prop :=
  (r = false ∧ (∃ q ∈ g.chain (g.slot hashVal), f (h.setHash (.node n) hashVal) q (.node n) = true) ∧
    h' = h.setHash (.node n) hashVal ∧ g' = g ∧ Flat h' g') ∨
  (r = true ∧ (∀ q ∈ g.chain (g.slot hashVal), f (h.setHash (.node n) hashVal) q (.node n) = false) ∧
    Settled (h.setHash (.node n) hashVal) (fun p => g.Linked p ∨ p = .node n) m (h.size + 1) g.dirty
      h' g')

/-- After a detach that ends with `m` buckets and lets readers stand on `D` beside the linked nodes. -/
def DetachPost (h : Heap K φ) (g : View) (hashVal : ℕ) (f : Heap K φ → Ptr → Bool) (m : ℕ)
    (D : Ptr → Ptr → Prop) (r : Option Ptr) (h' : Heap K φ) (g' : View) : Prop :=
  r = (g.chain (g.slot hashVal)).find? (f h) ∧
    ((r = none ∧ h' = h ∧ g' = g) ∨
      ∃ p, r = some p ∧ Settled h (fun q => g.Linked q ∧ q ≠ p) m h.size (D p) h' g')

/-- **What a completed call has done.** -/
def Op.Post (fl : FloatOps φ) (h : Heap K φ) (g : View) : Op K φ → Res → Heap K φ → View → Prop
  | .tryInsert n x f, r, h', g' => ∃ b, r = .bool b ∧
      InsertPost h g n x f (if expands fl h (h.size + 1) g.n then 2 * g.n else g.n) b h' g'
  | .tryInsertNoExpand n x f, r, h', g' => ∃ b, r = .bool b ∧ InsertPost h g n x f g.n b h' g'
  | .insertNoExpand n, r, h', g' => r = .unit ∧
      Settled h (fun p => g.Linked p ∨ p = .node n) g.n (h.size + 1) g.dirty h' g'
  | .tryDetachNoShrink x f, r, h', g' => ∃ p, r = .node p ∧
      DetachPost h g x f g.n (fun p q => g.dirty q ∨ q = p) p h' g'
  | .tryDetachAutoShrink x f, r, h', g' => ∃ p b, r = .detached p b ∧
      (p = none → b = false) ∧ (p ≠ none → b = shrinks fl h h.size g.n) ∧
      DetachPost h g x f (if b then g.n / 2 else g.n)
        (fun p q => b = false ∧ (g.dirty q ∨ q = p)) p h' g'
  | .tryDetachAndSynchronize x f, r, h', g' => ∃ p, r = .node p ∧
      DetachPost h g x f (if shrinks fl h h.size g.n then g.n / 2 else g.n) (fun _ _ => False) p h' g'
  | .expandBuckets2x, r, h', g' => r = .unit ∧
      Settled h g.Linked (2 * g.n) h.size (fun _ => False) h' g'
  | .shrinkBuckets2x, r, h', g' =>
      (g.n = 1 ∧ r = .bool false ∧ h' = h ∧ g' = g) ∨
      (g.n ≠ 1 ∧ r = .bool true ∧ Settled h g.Linked (g.n / 2) h.size (fun _ => False) h' g')
  | .find x f, r, h', g' => r = .node ((g.chain (g.slot x)).find? (f h)) ∧ h' = h ∧ g' = g
  | .synchronize, r, h', g' => r = .unit ∧ h' = h ∧ g' = g.synced

/-- What a call asks for: the node to insert is not linked, and the writer may link it. -/
def Op.Pre (allow : Heap K φ → View → Ptr → Prop) (h : Heap K φ) (g : View) : Op K φ → Prop
  | .tryInsert n x f | .tryInsertNoExpand n x f => ¬ g.Linked (.node n) ∧
      ∀ h' : Heap K φ, h'.key = h.key → h'.hash = (h.setHash (.node n) x).hash →
        (∀ q ∈ g.chain (g.slot x), f (h.setHash (.node n) x) q (.node n) = false) →
        allow h' g (.node n)
  | .insertNoExpand n => ¬ g.Linked (.node n) ∧
      ∀ h' : Heap K φ, h'.key = h.key → h'.hash = h.hash → allow h' g (.node n)
  | _ => True

/-- The node that a call brings along. -/
def Op.own : Op K φ → Ptr → Prop
  | .tryInsert n _ _, p | .tryInsertNoExpand n _ _, p | .insertNoExpand n, p => p = .node n
  | _, _ => False

def Op.perm (allow : Heap K φ → View → Ptr → Prop) (op : Op K φ) : Perm K φ := ⟨op.own, allow⟩

variable {fl : FloatOps φ} {pm : Perm K φ} {h h' : Heap K φ} {g g' : View}

/-! ### Inserts -/

theorem Flat.link (hf : Flat h g) {j n : ℕ} (hj : g.slot (h.hash (.node n)) = j)
    (hr : Rep h' (g.link j (.node n))) (hhash : h'.hash = h.hash) : Flat h' (g.link j (.node n)) := by
  refine ⟨hr, fun i hi p hp => ?_, hf.pure⟩
  rw [hhash, View.link_slot]
  rcases View.mem_link.mp hp with hp | ⟨rfl, rfl⟩
  · exact hf.flat i hi p hp
  · exact hj

/-- The heap after the two stores of an insert and the increment of `size`. -/
theorem Flat.settled_link (hf : Flat h g) {j n : ℕ} {v : Option Ptr}
    (hj : g.slot (h.hash (.node n)) = j)
    (hr : Rep { (h.setNext (.node n) v).setNext (.head g.info j) (some (.node n)) with
      size := h.size + 1 } (g.link j (.node n))) :
    Settled h (fun p => g.Linked p ∨ p = .node n) g.n (h.size + 1) g.dirty
      { (h.setNext (.node n) v).setNext (.head g.info j) (some (.node n)) with size := h.size + 1 }
      (g.link j (.node n)) :=
  ⟨hf.link hj hr rfl, rfl, fun _ => View.link_linked (hj ▸ hf.slot_lt _), fun _ => id, rfl, rfl, rfl, rfl,
    rfl⟩

theorem rTableCoreInsertNoExpand_guarded (hf : Flat h g) {n : ℕ} (hown : pm.own (.node n))
    (hnot : ¬ g.Linked (.node n))
    (hallow : ∀ h' : Heap K φ, h'.key = h.key → h'.hash = h.hash → pm.allow h' g (.node n)) :
    Guarded pm (fun _ => Settled h (fun p => g.Linked p ∨ p = .node n) g.n (h.size + 1) g.dirty)
      (rTableCoreInsertNoExpand (.node n)) h g := by
  have hr := hf.toRep
  unfold rTableCoreInsertNoExpand
  simp only [load, store, Prog.lift, Prog.bind_def, Prog.act_bind, Prog.ret_bind]
  refine guarded_loadInfo hr (guarded_nrInfo hr (guarded_loadHash hr ?_))
  show Guarded _ _ (Prog.act (.loadNext (.head g.info (g.slot (h.hash (.node n))))) _) _ _
  refine guarded_load hr (hr.accessible_head (hr.slot_lt _)) ?_
  rw [hr.next_head (hr.slot_lt _)]
  refine guarded_prepend hr hown hnot rfl (hallow _ rfl rfl) ?_
  intro hr1
  refine guarded_fetchAddSize hr1 fun hr2 => .ret ?_
  exact hf.settled_link rfl hr2

theorem rTableCoreTryInsertNoExpand_guarded (hf : Flat h g) {n x : ℕ}
    {f : Heap K φ → Ptr → Ptr → Bool} (hown : pm.own (.node n)) (hnot : ¬ g.Linked (.node n))
    (hallow : ∀ h' : Heap K φ, h'.key = h.key → h'.hash = (h.setHash (.node n) x).hash →
      (∀ q ∈ g.chain (g.slot x), f (h.setHash (.node n) x) q (.node n) = false) →
      pm.allow h' g (.node n)) :
    Guarded pm (InsertPost h g n x f g.n) (rTableCoreTryInsertNoExpand (.node n) x f) h g := by
  unfold rTableCoreTryInsertNoExpand
  simp only [Prog.lift, Prog.bind_def, Prog.pure_def, Prog.act_bind, Prog.ret_bind]
  refine guarded_storeHash hf.toRep hnot fun hr => ?_
  have hf1 : Flat (h.setHash (.node n) x) g := hf.hashed hr fun p hp =>
    Function.update_of_ne (by rintro rfl; exact hnot hp) _ _
  have hhash : (h.setHash (.node n) x).hash (.node n) = x := Function.update_self _ _ _
  refine guarded_loadInfo hr (guarded_nrInfo hr (guarded_loadHash hr ?_))
  show Guarded _ _ ((rcuSlistPrependIfNoMatch
    (.head g.info (g.slot ((h.setHash (.node n) x).hash (.node n)))) (.node n) f).bind _)
    (h.setHash (.node n) x) g
  rw [hhash]
  refine Sim.bind ((rcuSlistPrependIfNoMatch_guarded hr hown hnot (congrArg g.slot hhash)
    (hallow _ rfl rfl)).mono ?_)
  rintro b h' g' (⟨rfl, rfl, rfl, hq⟩ | ⟨rfl, hno, rfl, rfl, hr'⟩)
  · exact .ret (Or.inl ⟨rfl, hq, rfl, rfl, hf1⟩)
  · refine guarded_fetchAddSize hr' fun hr2 => .ret (Or.inr ⟨rfl, hno, ?_⟩)
    exact hf1.settled_link (by rw [hhash]) hr2

/-! ### Resizes in other operations -/

theorem Expanded.linked {h0 : Heap K φ} (hf : Flat h0 g) (he : Expanded h0 g h' g') {p : Ptr} :
    g'.Linked p ↔ g.Linked p := by
  constructor
  · rintro ⟨j, hj, hp⟩
    rw [he.chain j hj] at hp
    exact ⟨_, Nat.mod_lt _ hf.pos, (List.mem_filter.mp hp).1⟩
  · rintro ⟨i, hi, hp⟩
    have hlt := expandedId_lt hf.toRep p
    refine ⟨expandedId h0 g p, he.n ▸ hlt, ?_⟩
    rw [he.chain _ (he.n ▸ hlt), hf.expandedId_mod hi hp]
    exact List.mem_filter.mpr ⟨hp, by simp⟩

theorem Shrunk.linked {h0 : Heap K φ} (hs : Shrunk h0 g h' g') {p : Ptr} :
    g'.Linked p ↔ g.Linked p := by
  have hn := hs.n
  constructor
  · rintro ⟨i, hi, hp⟩
    rw [hs.chain i hi] at hp
    rcases List.mem_append.mp hp with hp | hp
    · exact ⟨i, by omega, hp⟩
    · exact ⟨i + g'.n, by omega, hp⟩
  · rintro ⟨i, hi, hp⟩
    by_cases hlt : i < g'.n
    · exact ⟨i, hlt, by rw [hs.chain i hlt]; exact List.mem_append_left _ hp⟩
    · refine ⟨i - g'.n, by omega, ?_⟩
      rw [hs.chain _ (by omega), Nat.sub_add_cancel (by omega)]
      exact List.mem_append_right _ hp

/-- An expand of a settled table. -/
theorem Settled.expanded {S D D' : Ptr → Prop} {m size : ℕ} {h'' : Heap K φ} {g'' : View}
    (hs : Settled h S m size D h' g') (he : Expanded h' g' h'' g'') :
    Settled h S (2 * m) size D' h'' g'' where
  flat := he.flat
  n := by rw [he.n, hs.n, Nat.mul_comm]
  linked p := (he.linked hs.flat).trans (hs.linked p)
  dirty p hp := absurd hp (he.dirty p)
  hash := he.frame.hash.trans hs.hash
  key := he.frame.key.trans hs.key
  size := he.frame.size.trans hs.size
  expandFactor := he.frame.expandFactor.trans hs.expandFactor
  shrinkFactor := he.frame.shrinkFactor.trans hs.shrinkFactor

theorem Settled.shrunk {S D D' : Ptr → Prop} {m size : ℕ} {h'' : Heap K φ} {g'' : View}
    (hs : Settled h S m size D h' g') (he : Shrunk h' g' h'' g'') :
    Settled h S (m / 2) size D' h'' g'' where
  flat := he.flat
  n := by
    have h1 := he.n
    have h2 := hs.n
    omega
  linked p := he.linked.trans (hs.linked p)
  dirty p hp := absurd hp (he.dirty p)
  hash := he.frame.hash.trans hs.hash
  key := he.frame.key.trans hs.key
  size := he.frame.size.trans hs.size
  expandFactor := he.frame.expandFactor.trans hs.expandFactor
  shrinkFactor := he.frame.shrinkFactor.trans hs.shrinkFactor

theorem Flat.settled (hf : Flat h g) : Settled h g.Linked g.n h.size g.dirty h g :=
  ⟨hf, rfl, fun _ => Iff.rfl, fun _ => id, rfl, rfl, rfl, rfl, rfl⟩

theorem Settled.synced {S D D' : Ptr → Prop} {m size : ℕ} (hs : Settled h S m size D h' g') :
    Settled h S m size D' h' g'.synced :=
  ⟨hs.flat.synced, hs.n, hs.linked, fun _ hp => absurd hp id, hs.hash, hs.key, hs.size,
    hs.expandFactor, hs.shrinkFactor⟩

theorem Settled.dirty_mono {S D D' : Ptr → Prop} {m size : ℕ} (hs : Settled h S m size D h' g')
    (hD : ∀ p, D p → D' p) : Settled h S m size D' h' g' :=
  { hs with dirty := fun p hp => hD p (hs.dirty p hp) }

theorem expandBucketsByFac2IfNecessary_guarded {S D : Ptr → Prop} {m size : ℕ}
    (hs : Settled h S m size D h' g') :
    Guarded pm (fun _ => Settled h S (if expands fl h size m then 2 * m else m) size D)
      (expandBucketsByFac2IfNecessary fl size m) h' g' := by
  unfold expandBucketsByFac2IfNecessary
  simp only [Prog.lift, Prog.bind_def, Prog.pure_def, Prog.act_bind, Prog.ret_bind]
  refine guarded_expandFactor hs.flat.toRep ?_
  rw [hs.expandFactor]
  show Guarded pm _ (if expands fl h size m = true then _ else _) h' g'
  by_cases hlt : expands fl h size m = true
  · rw [if_pos hlt, if_pos hlt]
    exact (rTableCoreExpandBuckets2x_guarded hs.flat).mono fun _ _ _ he => hs.expanded he
  · rw [if_neg hlt, if_neg hlt]
    exact .ret hs

theorem shrinkBucketsByFac2IfNecessary_guarded {S D : Ptr → Prop} {m size : ℕ}
    (hs : Settled h S m size D h' g') :
    Guarded pm (fun b h'' g'' => b = shrinks fl h size m ∧
        Settled h S (if b then m / 2 else m) size (fun p => b = false ∧ D p) h'' g'')
      (shrinkBucketsByFac2IfNecessary fl size m) h' g' := by
  unfold shrinkBucketsByFac2IfNecessary
  simp only [Prog.lift, Prog.bind_def, Prog.pure_def, Prog.act_bind, Prog.ret_bind]
  refine guarded_shrinkFactor hs.flat.toRep ?_
  rw [hs.shrinkFactor]
  have hkeep : Settled h S m size (fun p => false = false ∧ D p) h' g' :=
    hs.dirty_mono fun _ hp => ⟨rfl, hp⟩
  by_cases hlt : fl.lt (fl.ofSize size) (fl.mul h.shrinkFactor (fl.ofSize m)) = true ∧ size > 128
  · rw [if_pos hlt]
    refine (rTableCoreShrinkBuckets2x_guarded hs.flat).mono ?_
    rintro b h'' g'' (⟨h1, rfl, rfl, rfl⟩ | ⟨rfl, hsh⟩)
    · have hm : m = 1 := hs.n ▸ h1
      exact ⟨by simp [shrinks, hm], hkeep⟩
    · have hm : m ≠ 1 := by
        have h1 := hsh.n
        have h2 := hs.n
        omega
      exact ⟨by simp [shrinks, hlt, hm], hs.shrunk hsh⟩
  · rw [if_neg hlt]
    refine .ret ⟨?_, hkeep⟩
    cases hd : shrinks fl h size m with
    | false => rfl
    | true =>
      simp only [shrinks, Bool.and_eq_true, decide_eq_true_eq] at hd
      exact absurd hd.1 hlt

/-! ### Detaches -/

/-- The flat table without the node `p`. -/
theorem Flat.settled_unlink (hf : Flat h g) {j : ℕ} (hj : j < g.n) {s t : List Ptr} {p c : Ptr}
    (hchain : g.chain j = s ++ p :: t) (hr : Rep (h.setNext c t.head?) (g.swing j (s ++ t))) :
    Settled h (fun q => g.Linked q ∧ q ≠ p) g.n h.size (fun q => g.dirty q ∨ q = p)
      (h.setNext c t.head?) (g.swing j (s ++ t)) := by
  have hsub : ∀ q ∈ s ++ t, q ∈ g.chain j := by
    intro q hq
    rw [hchain]
    simp only [List.mem_append, List.mem_cons] at hq ⊢
    tauto
  have hp : p ∉ s ++ t := by
    have h1 := hf.chain_nodup hj
    rw [hchain] at h1
    exact (List.nodup_cons.mp (List.nodup_middle.mp h1)).1
  have hpj : p ∈ g.chain j := by rw [hchain]; simp
  have hlinked : ∀ q, (g.swing j (s ++ t)).Linked q ↔ g.Linked q ∧ q ≠ p := by
    intro q
    constructor
    · rintro ⟨i, hi, hq⟩
      by_cases hij : i = j
      · subst hij
        rw [View.swing_chain, Function.update_self] at hq
        exact ⟨⟨i, hi, hsub q hq⟩, by rintro rfl; exact hp hq⟩
      · rw [View.swing_chain, Function.update_of_ne hij] at hq
        exact ⟨⟨i, hi, hq⟩, by rintro rfl; exact hij (hf.disjoint hi hj hq hpj)⟩
    · rintro ⟨⟨i, hi, hq⟩, hne⟩
      refine ⟨i, hi, ?_⟩
      by_cases hij : i = j
      · subst hij
        rw [hchain] at hq
        rw [View.swing_chain, Function.update_self]
        simp only [List.mem_append, List.mem_cons] at hq ⊢
        tauto
      · rwa [View.swing_chain, Function.update_of_ne hij]
  refine ⟨⟨hr, ?_, hf.not_mixed⟩, rfl, hlinked, ?_, rfl, rfl, rfl, rfl, rfl⟩
  · intro i hi q hq
    by_cases hij : i = j
    · subst hij
      rw [View.swing_chain, Function.update_self] at hq
      exact hf.flat i hi q (hsub q hq)
    · rw [View.swing_chain, Function.update_of_ne hij] at hq
      exact hf.flat i hi q hq
  · intro q hq
    rcases hq with hq | ⟨hq, hno⟩
    · exact Or.inl hq
    · by_contra hc
      exact hno ((hlinked q).mpr ⟨hq, fun he => hc (Or.inr he)⟩)

theorem rTableCoreTryDetachNoShrink_guarded (hf : Flat h g) (hown : ∀ p, ¬ pm.own p) (x : ℕ)
    (f : Heap K φ → Ptr → Bool) :
    Guarded pm (DetachPost h g x f g.n fun p q => g.dirty q ∨ q = p)
      (rTableCoreTryDetachNoShrink x f) h g := by
  have hr := hf.toRep
  unfold rTableCoreTryDetachNoShrink
  simp only [Prog.lift, Prog.bind_def, Prog.act_bind, Prog.ret_bind]
  refine guarded_loadInfo hr (guarded_nrInfo hr ?_)
  refine (rcuSlistRemoveIf_guarded hf (hr.slot_lt x) hown f).mono ?_
  rintro r h' g' hrem
  cases hrem with
  | none hno => exact ⟨(List.find?_eq_none.mpr fun q hq => by simp [hno q hq]).symm, Or.inl ⟨rfl, rfl, rfl⟩⟩
  | @some s t p c hchain hno hp hrep =>
    refine ⟨?_, Or.inr ⟨p, rfl, hf.settled_unlink (hr.slot_lt x) hchain hrep⟩⟩
    rw [hchain, List.find?_append, List.find?_eq_none.mpr fun q hq => by simp [hno q hq]]
    simp [hp]

theorem rTableCoreTryDetachAutoShrink_guarded (hf : Flat h g) (hown : ∀ p, ¬ pm.own p) (x : ℕ)
    (f : Heap K φ → Ptr → Bool) :
    Guarded pm (fun r h' g' => (r.1 = none → r.2 = false) ∧
        (r.1 ≠ none → r.2 = shrinks fl h h.size g.n) ∧
        DetachPost h g x f (if r.2 then g.n / 2 else g.n)
          (fun p q => r.2 = false ∧ (g.dirty q ∨ q = p)) r.1 h' g')
      (rTableCoreTryDetachAutoShrink fl x f) h g := by
  unfold rTableCoreTryDetachAutoShrink
  simp only [Prog.lift, Prog.bind_def, Prog.pure_def, Prog.act_bind, Prog.ret_bind]
  refine Sim.bind ((rTableCoreTryDetachNoShrink_guarded hf hown x f).mono ?_)
  rintro r h1 g1 ⟨hfind, ⟨rfl, rfl, rfl⟩ | ⟨p, rfl, hs⟩⟩
  · exact .ret ⟨fun _ => rfl, fun hne => absurd rfl hne, hfind, Or.inl ⟨rfl, rfl, rfl⟩⟩
  · have hr1 := hs.flat.toRep
    refine guarded_loadSize hr1 (guarded_loadInfo hr1 (guarded_nrInfo hr1 ?_))
    rw [hs.size, hs.n]
    refine Sim.bind ((shrinkBucketsByFac2IfNecessary_guarded hs).mono ?_)
    rintro b h2 g2 ⟨hb, hs2⟩
    exact .ret ⟨by simp, fun _ => hb, hfind, Or.inr ⟨p, rfl, hs2⟩⟩

theorem rTableCoreTryDetachAndSynchronize_guarded (hf : Flat h g) (hown : ∀ p, ¬ pm.own p) (x : ℕ)
    (f : Heap K φ → Ptr → Bool) :
    Guarded pm (DetachPost h g x f (if shrinks fl h h.size g.n then g.n / 2 else g.n)
        fun _ _ => False)
      (rTableCoreTryDetachAndSynchronize fl x f) h g := by
  unfold rTableCoreTryDetachAndSynchronize
  simp only [rcuSynchronize, Prog.lift, Prog.bind_def, Prog.pure_def, Prog.act_bind, Prog.ret_bind]
  refine Sim.bind ((rTableCoreTryDetachAutoShrink_guarded hf hown x f).mono ?_)
  rintro ⟨r, b⟩ h1 g1 ⟨-, hb, hfind, hcase⟩
  dsimp only at hb hfind hcase ⊢
  rcases hcase with ⟨rfl, rfl, rfl⟩ | ⟨p, rfl, hs⟩
  · rw [if_pos rfl]
    exact .ret ⟨hfind, Or.inl ⟨rfl, rfl, rfl⟩⟩
  · rw [← hb (by simp)]
    simp only [reduceCtorEq, if_false]
    cases b with
    | true => exact .ret ⟨hfind, Or.inr ⟨p, rfl, hs.dirty_mono fun q hq => by cases hq.1⟩⟩
    | false => exact guarded_synchronize hs.flat.toRep fun _ => .ret ⟨hfind, Or.inr ⟨p, rfl, hs.synced⟩⟩

/-! ### All calls -/

theorem rTableCoreTryInsert_guarded (hf : Flat h g) {n x : ℕ} {f : Heap K φ → Ptr → Ptr → Bool}
    (hown : pm.own (.node n)) (hnot : ¬ g.Linked (.node n))
    (hallow : ∀ h' : Heap K φ, h'.key = h.key → h'.hash = (h.setHash (.node n) x).hash →
      (∀ q ∈ g.chain (g.slot x), f (h.setHash (.node n) x) q (.node n) = false) →
      pm.allow h' g (.node n)) :
    Guarded pm (InsertPost h g n x f (if expands fl h (h.size + 1) g.n then 2 * g.n else g.n))
      (rTableCoreTryInsert fl (.node n) x f) h g := by
  unfold rTableCoreTryInsert
  simp only [Prog.lift, Prog.bind_def, Prog.pure_def, Prog.act_bind, Prog.ret_bind]
  refine Sim.bind ((rTableCoreTryInsertNoExpand_guarded hf hown hnot hallow).mono ?_)
  rintro b h1 g1 (⟨rfl, hq, h2, h3, h4⟩ | ⟨rfl, hno, hs⟩)
  · exact .ret (Or.inl ⟨rfl, hq, h2, h3, h4⟩)
  · have hr1 := hs.flat.toRep
    refine guarded_loadSize hr1 (guarded_loadInfo hr1 (guarded_nrInfo hr1 ?_))
    rw [hs.size, hs.n]
    refine Sim.bind ((expandBucketsByFac2IfNecessary_guarded hs).mono ?_)
    exact fun _ h2 g2 hs2 => .ret (Or.inr ⟨rfl, hno, hs2⟩)

theorem rTableCoreFind_guarded (hf : Flat h g) (x : ℕ) (f : Heap K φ → Ptr → Bool) :
    Guarded pm (fun r h' g' => h' = h ∧ g' = g ∧ r = (g.chain (g.slot x)).find? (f h))
      (rTableCoreFind x f) h g := by
  have hr := hf.toRep
  unfold rTableCoreFind
  simp only [Prog.lift, Prog.bind_def, Prog.act_bind, Prog.ret_bind]
  refine guarded_loadInfo hr (guarded_nrInfo hr ?_)
  exact rcuSlistFindIf_guarded hr (hr.slot_lt x) f

/-- **The code of every call** keeps to the guarantee, returns, and does what `Op.Post` says. -/
theorem Op.guarded (fl : FloatOps φ) {allow : Heap K φ → View → Ptr → Prop} (hf : Flat h g)
    {op : Op K φ} (hpre : op.Pre allow h g) :
    Guarded (op.perm allow) (op.Post fl h g) (op.code fl) h g := by
  cases op with
  | tryInsert n x f =>
    refine Sim.bind ((rTableCoreTryInsert_guarded hf rfl hpre.1 hpre.2).mono ?_)
    exact fun b _ _ hb => .ret ⟨b, rfl, hb⟩
  | tryInsertNoExpand n x f =>
    refine Sim.bind ((rTableCoreTryInsertNoExpand_guarded hf rfl hpre.1 hpre.2).mono ?_)
    exact fun b _ _ hb => .ret ⟨b, rfl, hb⟩
  | insertNoExpand n =>
    refine Sim.bind ((rTableCoreInsertNoExpand_guarded hf rfl hpre.1 hpre.2).mono ?_)
    exact fun _ _ _ hs => .ret ⟨rfl, hs⟩
  | tryDetachNoShrink x f =>
    refine Sim.bind ((rTableCoreTryDetachNoShrink_guarded hf (fun _ => id) x f).mono ?_)
    exact fun p _ _ hp => .ret ⟨p, rfl, hp⟩
  | tryDetachAutoShrink x f =>
    refine Sim.bind ((rTableCoreTryDetachAutoShrink_guarded hf (fun _ => id) x f).mono ?_)
    exact fun r _ _ hr => .ret ⟨r.1, r.2, rfl, hr⟩
  | tryDetachAndSynchronize x f =>
    refine Sim.bind ((rTableCoreTryDetachAndSynchronize_guarded hf (fun _ => id) x f).mono ?_)
    exact fun p _ _ hp => .ret ⟨p, rfl, hp⟩
  | expandBuckets2x =>
    refine Sim.bind ((rTableCoreExpandBuckets2x_guarded hf).mono ?_)
    exact fun _ _ _ he => .ret ⟨rfl, hf.settled.expanded he⟩
  | shrinkBuckets2x =>
    refine Sim.bind ((rTableCoreShrinkBuckets2x_guarded hf).mono ?_)
    rintro b h' g' (⟨h1, rfl, rfl, rfl⟩ | ⟨rfl, hs⟩)
    · exact .ret (Or.inl ⟨h1, rfl, rfl, rfl⟩)
    · have hn := hs.n
      exact .ret (Or.inr ⟨by omega, rfl, hf.settled.shrunk hs⟩)
  | find x f =>
    refine Sim.bind ((rTableCoreFind_guarded hf x f).mono ?_)
    rintro r h' g' ⟨rfl, rfl, rfl⟩
    exact .ret ⟨rfl, rfl, rfl⟩
  | synchronize => exact guarded_synchronize hf.toRep fun _ => .ret ⟨rfl, rfl, rfl⟩

end RcuTable
