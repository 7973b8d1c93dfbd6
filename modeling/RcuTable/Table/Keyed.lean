import RcuTable.Table.Counting
import Mathlib.Tactic.IntervalCases

/-!
# Table.Keyed — the table as a finite set of nodes with different keys

Callers compare nodes by a key: one equivalence, that implies equal hashes, stands behind all predicates.
`RefStep` is the reference, a finite set without buckets, chains or hashes; `refines_set` says that a session
of such calls answers as the reference does and holds its set.
-/

namespace RcuTable

open Atomic Chain

/-- The equivalence of keys, and the hash that callers compute from a key. -/
structure KeySpec (K : Type) where
  same : K → K → Bool
  equivalence : Equivalence fun a b => same a b = true
  hashOf : K → ℕ
  hash_eq : ∀ a b, same a b = true → hashOf a = hashOf b

/-- The calls, by key. -/
inductive KeyOp (K : Type) where
  | tryInsert (n : ℕ)
  | tryInsertNoExpand (n : ℕ)
  | insertNoExpand (n : ℕ)
  | tryDetachNoShrink (k : K)
  | tryDetachAutoShrink (k : K)
  | tryDetachAndSynchronize (k : K)
  | expandBuckets2x
  | shrinkBuckets2x
  | find (k : K)

variable {K φ : Type} (ks : KeySpec K)

/-- The predicate that looks for a key. -/
def KeySpec.finds (k : K) (h : Heap K φ) (p : Ptr) : Bool := ks.same (h.key p) k

/-- The predicate that compares two nodes. -/
def KeySpec.matches (h : Heap K φ) (p q : Ptr) : Bool := ks.same (h.key p) (h.key q)

/-- The call that a caller makes of the table `h`. -/
def KeyOp.op (h : Heap K φ) : KeyOp K → Op K φ
  | .tryInsert n => .tryInsert n (ks.hashOf (h.key (.node n))) ks.matches
  | .tryInsertNoExpand n => .tryInsertNoExpand n (ks.hashOf (h.key (.node n))) ks.matches
  | .insertNoExpand n => .insertNoExpand n
  | .tryDetachNoShrink k => .tryDetachNoShrink (ks.hashOf k) (ks.finds k)
  | .tryDetachAutoShrink k => .tryDetachAutoShrink (ks.hashOf k) (ks.finds k)
  | .tryDetachAndSynchronize k => .tryDetachAndSynchronize (ks.hashOf k) (ks.finds k)
  | .expandBuckets2x => .expandBuckets2x
  | .shrinkBuckets2x => .shrinkBuckets2x
  | .find k => .find (ks.hashOf k) (ks.finds k)

/-- What `rTableCoreInsertNoExpand` asks of its caller: the hash is in the node, and no equivalent node is in
the table. -/
def KeyOp.Allowed (h : Heap K φ) : KeyOp K → Prop
  | .insertNoExpand n => h.hash (.node n) = ks.hashOf (h.key (.node n)) ∧
      ∀ q, h.Linked q → ks.matches h q (.node n) = false
  | _ => True

/-! ### The reference -/

section Reference

variable (key : Ptr → K) (R : Finset Ptr)

/-- A lookup in the set: the one node with the key, or nothing. -/
def Lookup (k : K) : Option Ptr → Prop
  | some p => R.filter (fun q => ks.same (key q) k = true) = {p}
  | none => R.filter (fun q => ks.same (key q) k = true) = ∅

/-- The insert that refuses a second node with the same key. -/
def RefInsert (n : ℕ) (b : Bool) (R' : Finset Ptr) : Prop :=
  (b = false ∧ (∃ q ∈ R, ks.same (key q) (key (.node n)) = true) ∧ R' = R) ∨
  (b = true ∧ (∀ q ∈ R, ks.same (key q) (key (.node n)) = false) ∧ R' = insert (.node n) R)

def RefDetach (k : K) (p : Option Ptr) (R' : Finset Ptr) : Prop :=
  Lookup ks key R k p ∧ R' = R \ p.toFinset

/-- A step of the reference set; what a shrink returns is no matter of the set. -/
def RefStep : KeyOp K → Res → Finset Ptr → Prop
  | .tryInsert n, r, R' | .tryInsertNoExpand n, r, R' => ∃ b, r = .bool b ∧ RefInsert ks key R n b R'
  | .insertNoExpand n, r, R' => r = .unit ∧ R' = insert (.node n) R
  | .tryDetachNoShrink k, r, R' | .tryDetachAndSynchronize k, r, R' =>
    ∃ p, r = .node p ∧ RefDetach ks key R k p R'
  | .tryDetachAutoShrink k, r, R' => ∃ p b, r = .detached p b ∧ RefDetach ks key R k p R'
  | .expandBuckets2x, r, R' => r = .unit ∧ R' = R
  | .shrinkBuckets2x, r, R' => (∃ b, r = .bool b) ∧ R' = R
  | .find k, r, R' => ∃ p, r = .node p ∧ Lookup ks key R k p ∧ R' = R

end Reference

/-- The heap holds the set: null-terminated chains in which each of its nodes occurs once, in the bucket
that its hash selects, and no other node occurs. -/
def Holds (h : Heap K φ) (R : Finset Ptr) : Prop :=
  ∃ chain, Chains h h.nrBuckets chain ∧ ∀ j < h.nrBuckets, ∀ p,
    (chain j).count p = if p ∈ R ∧ h.hash p &&& (h.nrBuckets - 1) = j then 1 else 0

/-! ### The invariant -/

/-- The linked nodes carry the hashes of their keys, and have different keys. -/
structure KeysOk (h : Heap K φ) (g : View) : Prop where
  hash : ∀ p, g.Linked p → h.hash p = ks.hashOf (h.key p)
  inj : ∀ p q, g.Linked p → g.Linked q → ks.same (h.key p) (h.key q) = true → p = q

variable {ks} {h h' : Heap K φ} {g g' : View} {R R' : Finset Ptr}

theorem Flat.holds (hf : Flat h g) (hR : ∀ p, p ∈ R ↔ g.Linked p) : Holds h R := by
  refine ⟨g.chain, hf.nrBuckets ▸ hf.chains, fun j hj p => ?_⟩
  rw [hf.nrBuckets] at hj ⊢
  by_cases hp : p ∈ g.chain j
  · have hflat : h.hash p &&& (g.n - 1) = j := hf.flat j hj p hp
    rw [if_pos ⟨(hR p).mpr ⟨j, hj, hp⟩, hflat⟩]
    exact List.count_eq_one_of_mem (hf.chain_nodup hj) hp
  · rw [if_neg, List.count_eq_zero_of_not_mem hp]
    rintro ⟨hpR, hflat⟩
    have hhome := hf.linked_home ((hR p).mp hpR)
    rw [show g.slot (h.hash p) = j from hflat] at hhome
    exact hp hhome

/-- A linked node with a key is in the bucket where the key is looked for. -/
theorem KeysOk.mem_slot (hf : Flat h g) (hk : KeysOk ks h g) {k : K} {q : Ptr} (hq : g.Linked q)
    (hqk : ks.same (h.key q) k = true) : q ∈ g.chain (g.slot (ks.hashOf k)) := by
  have hhome := hf.linked_home hq
  rwa [hk.hash q hq, ks.hash_eq _ _ hqk] at hhome

/-- A search finds the only candidate. -/
theorem KeysOk.lookup (hf : Flat h g) (hk : KeysOk ks h g) (hR : ∀ p, p ∈ R ↔ g.Linked p) (k : K) :
    Lookup ks h.key R k ((g.chain (g.slot (ks.hashOf k))).find? (ks.finds k h)) := by
  cases hfind : (g.chain (g.slot (ks.hashOf k))).find? (ks.finds k h) with
  | none =>
    refine Finset.filter_eq_empty_iff.mpr ?_
    intro q hq hqk
    exact List.find?_eq_none.mp hfind q (hk.mem_slot hf ((hR q).mp hq) hqk) hqk
  | some p =>
    have hpk : ks.finds k h p = true := List.find?_some hfind
    have hp : g.Linked p := ⟨_, hf.slot_lt _, List.mem_of_find?_eq_some hfind⟩
    ext q
    rw [Finset.mem_filter, Finset.mem_singleton, hR]
    constructor
    · rintro ⟨hq, hqk⟩
      exact hk.inj q p hq hp (ks.equivalence.trans hqk (ks.equivalence.symm hpk))
    · rintro rfl
      exact ⟨hp, hpk⟩

/-! ### Steps -/

theorem Settled.keysOk {S D : Ptr → Prop} {m size : ℕ} (hs : Settled h S m size D h' g')
    (hhash : ∀ p, S p → h.hash p = ks.hashOf (h.key p))
    (hinj : ∀ p q, S p → S q → ks.same (h.key p) (h.key q) = true → p = q) : KeysOk ks h' g' where
  hash p hp := by
    rw [hs.hash, hs.key]
    exact hhash p ((hs.linked p).mp hp)
  inj p q hp hq := by
    rw [hs.key]
    exact hinj p q ((hs.linked p).mp hp) ((hs.linked q).mp hq)

/-- A new key keeps the keys different. -/
theorem KeysOk.inj_insert (hk : KeysOk ks h g) {n : ℕ}
    (hno : ∀ q, g.Linked q → ks.same (h.key q) (h.key (.node n)) = false) (p q : Ptr)
    (hp : g.Linked p ∨ p = .node n) (hq : g.Linked q ∨ q = .node n)
    (hpq : ks.same (h.key p) (h.key q) = true) : p = q := by
  rcases hp with hp | rfl <;> rcases hq with hq | rfl
  · exact hk.inj p q hp hq hpq
  · rw [hno p hp] at hpq
    cases hpq
  · have h1 := ks.equivalence.symm hpq
    rw [hno q hq] at h1
    cases h1
  · rfl

theorem KeysOk.insert (hf : Flat h g) (hk : KeysOk ks h g) {n m : ℕ} (hn : ¬ g.Linked (.node n))
    {b : Bool} (hp : InsertPost h g n (ks.hashOf (h.key (.node n))) ks.matches m b h' g')
    (hR : ∀ p, p ∈ R ↔ g.Linked p) (hR' : ∀ p, p ∈ R' ↔ g'.Linked p) :
    KeysOk ks h' g' ∧ RefInsert ks h.key R n b R' := by
  have hother : ∀ p, g.Linked p →
      (h.setHash (.node n) (ks.hashOf (h.key (.node n)))).hash p = h.hash p := fun p hp =>
    Function.update_of_ne (by rintro rfl; exact hn hp) _ _
  rcases hp with ⟨rfl, ⟨q, hq, hqn⟩, rfl, hg, hf'⟩ | ⟨rfl, hno, hs⟩
  · rw [hg] at hR' hf' ⊢
    refine ⟨⟨fun p hp => (hother p hp).trans (hk.hash p hp), hk.inj⟩, Or.inl ⟨rfl, ?_, ?_⟩⟩
    · exact ⟨q, (hR q).mpr ⟨_, hf.slot_lt _, hq⟩, hqn⟩
    · ext p
      rw [hR, hR']
  · have hnone : ∀ q, g.Linked q → ks.same (h.key q) (h.key (.node n)) = false := by
      intro q hq
      by_contra hc
      exact hc (hno q (hk.mem_slot hf hq (by simpa using hc)))
    refine ⟨hs.keysOk ?_ (hk.inj_insert hnone), Or.inr ⟨rfl, ?_, ?_⟩⟩
    · rintro p (hp | rfl)
      · exact (hother p hp).trans (hk.hash p hp)
      · exact Function.update_self _ _ _
    · exact fun q hq => hnone q ((hR q).mp hq)
    · ext p
      rw [hR', hs.linked, Finset.mem_insert, hR, or_comm]

theorem KeysOk.detach (hf : Flat h g) (hk : KeysOk ks h g) {k : K} {m : ℕ} {D : Ptr → Ptr → Prop}
    {p : Option Ptr} (hp : DetachPost h g (ks.hashOf k) (ks.finds k) m D p h' g')
    (hR : ∀ p, p ∈ R ↔ g.Linked p) (hR' : ∀ p, p ∈ R' ↔ g'.Linked p) :
    KeysOk ks h' g' ∧ RefDetach ks h.key R k p R' := by
  have hlook := hk.lookup hf hR k
  obtain ⟨hfind, hcase⟩ := hp
  rw [← hfind] at hlook
  rcases hcase with ⟨rfl, rfl, hg⟩ | ⟨q, rfl, hs⟩
  · rw [hg] at hR' ⊢
    refine ⟨hk, hlook, ?_⟩
    ext p
    simp [hR, hR']
  · refine ⟨hs.keysOk (fun p hp => hk.hash p hp.1) fun p q hp hq => hk.inj p q hp.1 hq.1, hlook, ?_⟩
    ext p
    simp [hR, hR', hs.linked]

/-- **One call**: the table answers as the set does. -/
theorem KeyOp.refines {fl : FloatOps φ} (hf : Flat h g) (hk : KeysOk ks h g) {c : KeyOp K}
    (hfree : ∀ p, (c.op ks h).own p → ¬ h.Linked p) (hallow : c.Allowed ks h) {r : Res}
    (hp : (c.op ks h).Post fl h g r h' g') (hR : ∀ p, p ∈ R ↔ g.Linked p)
    (hR' : ∀ p, p ∈ R' ↔ g'.Linked p) : KeysOk ks h' g' ∧ RefStep ks h.key R c r R' := by
  have hown : ∀ n, (c.op ks h).own (.node n) → ¬ g.Linked (.node n) := fun n hn hl =>
    hfree _ hn (hf.linked_heap.mpr hl)
  have hsame : ∀ {m size : ℕ} {D : Ptr → Prop}, Settled h g.Linked m size D h' g' →
      KeysOk ks h' g' ∧ R' = R := by
    intro m size D hs
    refine ⟨hs.keysOk hk.hash hk.inj, ?_⟩
    ext p
    rw [hR', hs.linked, hR]
  have hkept : h' = h → g' = g → KeysOk ks h' g' ∧ R' = R := by
    rintro rfl hg
    rw [hg] at hR' ⊢
    exact ⟨hk, Finset.ext fun p => by rw [hR', hR]⟩
  cases c with
  | tryInsert n | tryInsertNoExpand n =>
    obtain ⟨b, hr, hp⟩ := hp
    obtain ⟨h1, h2⟩ := hk.insert hf (hown n rfl) hp hR hR'
    exact ⟨h1, b, hr, h2⟩
  | insertNoExpand n =>
    obtain ⟨hr, hs⟩ := hp
    have hno : ∀ q, g.Linked q → ks.same (h.key q) (h.key (.node n)) = false := fun q hq =>
      hallow.2 q (hf.linked_heap.mpr hq)
    refine ⟨hs.keysOk ?_ (hk.inj_insert hno), hr, ?_⟩
    · rintro p (hp | rfl)
      · exact hk.hash p hp
      · exact hallow.1
    · ext p
      rw [hR', hs.linked, Finset.mem_insert, hR, or_comm]
  | tryDetachNoShrink k | tryDetachAndSynchronize k =>
    obtain ⟨p, hr, hp⟩ := hp
    obtain ⟨h1, h2⟩ := hk.detach hf hp hR hR'
    exact ⟨h1, p, hr, h2⟩
  | tryDetachAutoShrink k =>
    obtain ⟨p, b, hr, -, -, hp⟩ := hp
    obtain ⟨h1, h2⟩ := hk.detach hf hp hR hR'
    exact ⟨h1, p, b, hr, h2⟩
  | expandBuckets2x =>
    obtain ⟨h1, h2⟩ := hsame hp.2
    exact ⟨h1, hp.1, h2⟩
  | shrinkBuckets2x =>
    rcases hp with ⟨-, hr, hh, hg⟩ | ⟨-, hr, hs⟩
    · obtain ⟨h1, h2⟩ := hkept hh hg
      exact ⟨h1, ⟨_, hr⟩, h2⟩
    · obtain ⟨h1, h2⟩ := hsame hs
      exact ⟨h1, ⟨_, hr⟩, h2⟩
  | find k =>
    obtain ⟨hr, hh, hg⟩ := hp
    obtain ⟨h1, h2⟩ := hkept hh hg
    exact ⟨h1, _, hr, hk.lookup hf hR k, h2⟩

theorem KeysOk.prepare (hf : Flat h g) (hk : KeysOk ks h g) {n x : ℕ} {k : K}
    (hfree : ¬ h.Linked (.node n)) : KeysOk ks (h.prepare n x k) g := by
  have hne : ∀ p, g.Linked p → p ≠ .node n := by
    rintro p hp rfl
    exact hfree (hf.linked_heap.mpr hp)
  have hkey : ∀ p, g.Linked p → (h.prepare n x k).key p = h.key p := fun p hp =>
    Function.update_of_ne (hne p hp) _ _
  refine ⟨?_, fun p q hp hq hpq => hk.inj p q hp hq ?_⟩
  · intro p hp
    rw [hkey p hp]
    exact (Function.update_of_ne (hne p hp) _ _).trans (hk.hash p hp)
  · rwa [hkey p hp, hkey q hq] at hpq

/-! ### Sessions -/

variable {fl : FloatOps φ} {conf : RTableCoreConfig φ}

/-- The calls of a session are the calls by key `c`. -/
def Session.Keyed (ks : KeySpec K) (S : Session (K := K) fl conf) (c : ℕ → KeyOp K) : Prop :=
  ∀ i < S.len, ∀ op r, S.event i = .call op r →
    op = (c i).op ks (S.heap i) ∧ (c i).Allowed ks (S.heap i)

theorem Session.keysOk (S : Session (K := K) fl conf) {c : ℕ → KeyOp K} (hc : S.Keyed ks c) :
    ∀ i ≤ S.len, ∃ g, Flat (S.heap i) g ∧ KeysOk ks (S.heap i) g := by
  refine S.invariant ?_ ?_
  · refine ⟨_, S.fresh.chains.flat, ?_, ?_⟩
    · intro p hp
      obtain ⟨j, -, hp⟩ := hp
      exact absurd hp List.not_mem_nil
    · intro p q hp
      obtain ⟨j, -, hp⟩ := hp
      exact absurd hp List.not_mem_nil
  · rintro i hi - - ⟨g, hf, hk⟩
    rcases S.step_cases hi hf with ⟨op, r, g', he, hfree, hp⟩ | ⟨n, x, k, he, hfree, hh⟩
    · obtain ⟨rfl, hallow⟩ := hc i hi op r he
      have hf' := hp.flat hf
      obtain ⟨R, hR⟩ := (hf.toRep.linked_finite).exists_finset
      obtain ⟨R', hR'⟩ := (hf'.toRep.linked_finite).exists_finset
      exact ⟨g', hf', (KeyOp.refines hf hk hfree hallow hp (fun p => (hR p).trans hf.linked_heap)
        fun p => (hR' p).trans hf'.linked_heap).1⟩
    · rw [hh]
      exact ⟨g, hf.prepare hfree, hk.prepare hf hfree⟩

/-- **Refinement to a set**: initialization completes, every call completes and answers as the reference
does, and after every step the table holds the reference set. -/
theorem refines_set (ks : KeySpec K) (S : Session (K := K) fl conf) (c : ℕ → KeyOp K) (hc : S.Keyed ks c) :
    (0 < conf.nrBuckets → conf.nrBuckets < 2 ^ 31 → ∀ h : Heap K φ, Blank h →
      (rTableCoreInitDetailed conf).Total exec h fun _ h' => Holds h' ∅) ∧
    ∃ R : ℕ → Finset Ptr, R 0 = ∅ ∧
      (∀ i < S.len, ∀ op r, S.event i = .call op r →
        RefStep ks (S.heap i).key (R i) (c i) r (R (i + 1))) ∧
      (∀ i < S.len, ∀ n x k, S.event i = .prepare n x k → R (i + 1) = R i) ∧
      (∀ i ≤ S.len, Holds (S.heap i) (R i)) ∧
      ∀ i ≤ S.len, ∀ op : KeyOp K, op.Allowed ks (S.heap i) →
        (∀ p, (op.op ks (S.heap i)).own p → ¬ (S.heap i).Linked p) →
        ((op.op ks (S.heap i)).code fl).Total exec (S.heap i) fun r h' =>
          ∃ R', RefStep ks (S.heap i).key (R i) op r R' ∧ Holds h' R' := by
  have hex : ∀ i, ∃ R : Finset Ptr, i ≤ S.len → ∀ p, p ∈ R ↔ (S.heap i).Linked p := by
    intro i
    by_cases hi : i ≤ S.len
    · obtain ⟨g, hf⟩ := S.flat i hi
      obtain ⟨R, hR⟩ := hf.toRep.linked_finite.exists_finset
      exact ⟨R, fun _ => hR⟩
    · exact ⟨∅, fun hle => absurd hle hi⟩
  choose R hR using hex
  have hview : ∀ i ≤ S.len, ∀ g, Flat (S.heap i) g → ∀ p, p ∈ R i ↔ g.Linked p := fun i hi g hf p =>
    (hR i hi p).trans hf.linked_heap
  refine ⟨?_, R, ?_, ?_, ?_,
    ?_, ?_⟩
  · intro h0 h1 h hb
    refine (rTableCoreInitDetailed_total hb (nrBucketsPowerOf2_ne_zero h0.le h1)).mono exec ?_
    rintro _ h' ⟨hfresh, -⟩
    refine hfresh.chains.flat.holds fun p => ⟨fun hp => absurd hp (Finset.notMem_empty p), ?_⟩
    rintro ⟨j, -, hp⟩
    exact absurd hp List.not_mem_nil
  · have hf := S.fresh.chains.flat
    refine Finset.eq_empty_of_forall_notMem ?_
    intro p hp
    obtain ⟨j, -, hp⟩ := (hview 0 (Nat.zero_le _) _ hf p).mp hp
    exact absurd hp List.not_mem_nil
  · intro i hi op r he
    obtain ⟨g, hf, hk⟩ := S.keysOk hc i (by omega)
    obtain ⟨rfl, hallow⟩ := hc i hi op r he
    rcases S.step_cases hi hf with ⟨op, r', g', he', hfree, hp⟩ | ⟨n, x, k, he', -, -⟩
    · obtain ⟨rfl, rfl⟩ := Event.call.inj (he.symm.trans he')
      exact (KeyOp.refines hf hk hfree hallow hp (hview i (by omega) g hf)
        (hview (i + 1) hi g' (hp.flat hf))).2
    · rw [he] at he'
      cases he'
  · intro i hi n x k he
    obtain ⟨g, hf⟩ := S.flat i (by omega)
    rcases S.step_cases hi hf with ⟨op, r', g', he', -, -⟩ | ⟨n, x, k, he', hfree, hh⟩
    · rw [he] at he'
      cases he'
    · have hf' := hf.prepare (x := x) (k := k) hfree
      rw [← hh] at hf'
      ext p
      rw [hview (i + 1) hi g hf', hview i (by omega) g hf]
  · intro i hi
    obtain ⟨g, hf⟩ := S.flat i hi
    exact hf.holds (hview i hi g hf)
  · intro i hi op hallow hfree
    obtain ⟨g, hf, hk⟩ := S.keysOk hc i hi
    refine (Op.total fl hf hfree).mono exec ?_
    rintro r h' ⟨g', hp⟩
    have hf' := hp.flat hf
    obtain ⟨R', hR'⟩ := hf'.toRep.linked_finite.exists_finset
    have hview' : ∀ p, p ∈ R' ↔ g'.Linked p := fun p => (hR' p).trans hf'.linked_heap
    exact ⟨R', (KeyOp.refines hf hk hfree hallow hp (hview i hi g hf) hview').2, hf'.holds hview'⟩

/-- Keys and hashes are numbers. -/
def natKeys : KeySpec ℕ where
  same a b := decide (a = b)
  equivalence := ⟨by simp, by simp, by simp⟩
  hashOf a := a
  hash_eq a b hab := by simpa using hab

/-- Nodes 0 and 2 have key 0, node 1 has key 1. -/
def parity : Ptr → ℕ
  | .node n => n % 2
  | .head _ _ => 0

def keyed0 : Session (K := ℕ) ratOps oneBucket :=
  .init ratOps oneBucket (noTable parity) (noTable_blank parity) 100 (by decide +kernel) (.prepare 0 0 0)

/-- One insert by key. -/
def Session.insertKey (S : Session (K := ℕ) ratOps oneBucket) (n : ℕ)
    (hn : (S.last.nodes 4).any (fun l => !l.contains (.node n)) = true)
    (hret : ((((KeyOp.tryInsert n).op natKeys S.last).code ratOps).run exec 200 S.last).isSome) :
    Session (K := ℕ) ratOps oneBucket :=
  S.call 200 ((KeyOp.tryInsert n).op natKeys S.last) (fun p hp => Heap.free_of_nodes hn p hp) hret

def keyed1 := keyed0.insertKey 0 (by decide +kernel) (by decide +kernel)
def keyed2 := keyed1.insertKey 1 (by decide +kernel) (by decide +kernel)
def keyed3 := keyed2.insertKey 2 (by decide +kernel) (by decide +kernel)

/-- The third insert is refused: node 0 has the key of node 2. -/
theorem keyed3_refines : ∃ R : ℕ → Finset Ptr, R 0 = ∅ ∧ Holds keyed3.last (R 3) ∧
    RefStep natKeys keyed2.last.key (R 2) (.tryInsert 2) (.bool false) (R 3) := by
  have hc : keyed3.Keyed natKeys fun i => .tryInsert i := by
    intro i hi op r he
    have hi3 : i < 3 := hi
    interval_cases i <;>
    · obtain ⟨rfl, -⟩ := Event.call.inj he
      exact ⟨rfl, trivial⟩
  obtain ⟨-, R, h0, hstep, -, hholds, -⟩ := refines_set natKeys keyed3 _ hc
  refine ⟨R, h0, hholds 3 le_rfl, ?_⟩
  have hret : ((((KeyOp.tryInsert 2).op natKeys keyed2.last).code ratOps).run exec 200
      keyed2.last).map Prod.fst = some (.bool false) := by decide +kernel
  have hev : keyed3.event 2 = .call ((KeyOp.tryInsert 2).op natKeys keyed2.last) (.bool false) := by
    obtain ⟨x, hx, hfst⟩ := Option.map_eq_some_iff.mp hret
    refine congrArg (Event.call _) (Eq.trans ?_ hfst)
    exact congrArg Prod.fst (Option.get_of_eq_some _ hx)
  exact hstep 2 (by decide +kernel) _ _ hev

end RcuTable
