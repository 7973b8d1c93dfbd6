import RcuTable.Table.Lookup
import RcuTable.Table.Refusal

/-!
# Client.SingleThread — `RCUTableTestSingleThreadTest` of RCUTableTests.cpp

Element `i` of `values` is node `i`, with `v` for its data; `hashVal` is `std::hash<size_t>`.  Each element is
inserted, and inserted once more while it is in the table; then all are detached.  A `throw` of the test stops
the program: `never_throws` says that it comes to its end.
-/

namespace RcuTable

open Atomic Atomic.Prog Chain

namespace SingleThreadTest

variable {φ : Type}

/-- The predicate of the inserts. -/
def equal (h : Heap ℕ φ) (p0 p1 : Ptr) : Bool := h.key p0 == h.key p1

/-- The predicate of the lookups and detaches. -/
def isValue (v : ℕ) (h : Heap ℕ φ) (p : Ptr) : Bool := h.key p == v

section Code

variable (fl : FloatOps φ) (hashVal : ℕ → ℕ)

def insertTwice (i : ℕ) : Code ℕ φ Unit := do
  let inserted ← rTableCoreTryInsert fl (.node i) (hashVal i) equal
  if !inserted then abort
  let insertedSecondTime ← rTableCoreTryInsert fl (.node i) (hashVal i) equal
  if insertedSecondTime then abort

def findNotIn (v : ℕ) : Code ℕ φ Unit := do
  let foundNotInElement ← rTableCoreFind (hashVal v) (isValue v)
  if foundNotInElement.isSome then abort

def detach (i : ℕ) : Code ℕ φ Unit := do
  let (detached, _) ← rTableCoreTryDetachAutoShrink fl (hashVal i) (isValue i)
  if detached.isNone then abort

def RCUTableTestSingleThreadTest (conf : RTableCoreConfig φ) (nrValues : ℕ) : Code ℕ φ Unit := do
  rTableCoreInitDetailed conf
  Prog.forRange nrValues () fun i _ => insertTwice fl hashVal i
  findNotIn hashVal nrValues
  Prog.forRange nrValues () fun i _ => detach fl hashVal i
  Prog.forRange nrValues () fun _ _ => findNotIn hashVal nrValues

end Code

/-! ### The table between two calls -/

/-- The table holds the elements of `S`, after `size` inserts. -/
structure Holding (key : Ptr → ℕ) (hashVal : ℕ → ℕ) (S : ℕ → Prop) (size : ℕ) (h : Heap ℕ φ) : Prop where
  flat : ∃ g, Flat h g
  linked : ∀ q, h.Linked q ↔ ∃ k, S k ∧ q = .node k
  hash : ∀ k, S k → h.hash (.node k) = hashVal k
  key : h.key = key
  size : h.size = size

variable {fl : FloatOps φ} {hashVal : ℕ → ℕ} {key : Ptr → ℕ} {S S' : ℕ → Prop} {N i size : ℕ} {h : Heap ℕ φ}

theorem Holding.congr (hh : Holding key hashVal S size h) (hS : ∀ k, S' k ↔ S k) : Holding key hashVal S' size h where
  flat := hh.flat
  linked q := by simp only [hh.linked, hS]
  hash k hk := hh.hash k ((hS k).mp hk)
  key := hh.key
  size := hh.size

/-- The element `i` is in the bucket of its hash. -/
theorem Holding.mem {g : View} (hh : Holding key hashVal S size h) (hf : Flat h g) (hi : S i) :
    Ptr.node i ∈ g.chain (g.slot (hashVal i)) := by
  rw [← hh.hash i hi]
  exact hf.linked_home (hf.linked_heap.mp ((hh.linked _).mpr ⟨i, hi, rfl⟩))

/-- What is in a bucket is an element of the table. -/
theorem Holding.of_mem {g : View} (hh : Holding key hashVal S size h) (hf : Flat h g)
    (hkey : ∀ k, S k → key (.node k) = k) {x : ℕ} {q : Ptr} (hq : q ∈ g.chain (g.slot x)) :
    ∃ k, S k ∧ q = .node k ∧ h.key q = k := by
  obtain ⟨k, hk, rfl⟩ := (hh.linked q).mp (hf.linked_heap.mpr ⟨_, hf.slot_lt x, hq⟩)
  exact ⟨k, hk, rfl, by rw [hh.key, hkey k hk]⟩

/-- The first insert. -/
theorem Holding.insert (hh : Holding key hashVal (· < i) size h) (hkey : ∀ k ≤ i, key (.node k) = k) :
    Runs exec (fun b h' => b = true ∧ Holding key hashVal (· < i + 1) (size + 1) h')
      (rTableCoreTryInsert fl (.node i) (hashVal i) equal) h := by
  obtain ⟨g, hf⟩ := hh.flat
  have hnot : ¬ g.Linked (.node i) := by
    intro hl
    obtain ⟨k, hk, hik⟩ := (hh.linked _).mp (hf.linked_heap.mpr hl)
    injection hik with hik
    omega
  have hsim : Guarded ⟨(· = .node i), fun _ _ _ => True⟩ _ (rTableCoreTryInsert fl (.node i) (hashVal i) equal) h g :=
    rTableCoreTryInsert_guarded hf rfl hnot fun _ _ _ _ => trivial
  refine hsim.runs.mono ?_
  rintro b h' - ⟨g', ⟨-, ⟨q, hq, hmatch⟩, -⟩ | ⟨rfl, -, hs⟩⟩
  · -- no element of the table has the value of the new one
    obtain ⟨k, hk, rfl, hv⟩ := hh.of_mem hf (fun k hk => hkey k (Nat.le_of_lt hk)) hq
    have hsame : h.key (.node k) = h.key (.node i) := beq_iff_eq.mp hmatch
    rw [hv, hh.key, hkey i le_rfl] at hsame
    exact absurd hsame (Nat.ne_of_lt hk)
  · refine ⟨rfl, ⟨g', hs.flat⟩, fun q => ?_, fun k hk => ?_, hs.key.trans hh.key, hs.size.trans ?_⟩
    · rw [hs.flat.linked_heap, hs.linked, ← hf.linked_heap, hh.linked]
      constructor
      · rintro (⟨k, hk, rfl⟩ | rfl)
        · exact ⟨k, Nat.lt_succ_of_lt hk, rfl⟩
        · exact ⟨i, Nat.lt_succ_self i, rfl⟩
      · rintro ⟨k, hk, rfl⟩
        rcases Nat.lt_succ_iff_lt_or_eq.mp hk with hk | rfl
        · exact .inl ⟨k, hk, rfl⟩
        · exact .inr rfl
    · rw [hs.hash]
      rcases Nat.lt_succ_iff_lt_or_eq.mp hk with hk | rfl
      · refine (Function.update_of_ne ?_ ..).trans (hh.hash k hk)
        intro he
        injection he with he
        omega
      · exact Function.update_self ..
    · rw [hh.size]

/-- An element that is in the table is refused, and nothing changes: it matches itself, and the hash that the
call stores is the one that is there. -/
theorem Holding.insert_again (hh : Holding key hashVal S size h) (hi : S i) :
    Runs exec (fun b h' => b = false ∧ h' = h) (rTableCoreTryInsert fl (.node i) (hashVal i) equal) h := by
  obtain ⟨g, hf⟩ := hh.flat
  have hsame : h.setHash (.node i) (hashVal i) = h := by
    show { h with hash := Function.update h.hash (.node i) (hashVal i) } = h
    rw [← hh.hash i hi, Function.update_eq_self]
  have hrefuses : Refuses h i (hashVal i) equal :=
    ⟨.node i, hf.inBucket_iff.mpr (hh.mem hf hi), beq_self_eq_true _⟩
  have hret : (rTableCoreTryInsertNoExpand (.node i) (hashVal i) equal).Returns exec h false h :=
    (rTableCoreTryInsertNoExpand_refused hf).mpr ⟨hrefuses, hsame.symm⟩
  exact Runs.of_returns (rTableCoreTryInsert_refused.mpr hret) ⟨rfl, rfl⟩

theorem Holding.insertTwice (hh : Holding key hashVal (· < i) size h) (hkey : ∀ k ≤ i, key (.node k) = k) :
    Runs exec (fun _ => Holding key hashVal (· < i + 1) (size + 1)) (insertTwice fl hashVal i) h := by
  refine Runs.bind ((hh.insert hkey).mono ?_)
  rintro _ h1 - ⟨rfl, hh1⟩
  refine Runs.bind ((hh1.insert_again (Nat.lt_succ_self i)).mono ?_)
  rintro _ _ - ⟨rfl, rfl⟩
  exact .ret hh1

/-- No element of the table has the value `v`. -/
theorem Holding.findNotIn {v : ℕ} (hh : Holding key hashVal S size h) (hkey : ∀ k, S k → key (.node k) = k)
    (hv : ¬ S v) : Runs exec (fun _ => Holding key hashVal S size) (findNotIn hashVal v) h := by
  obtain ⟨g, hf⟩ := hh.flat
  have hnone : (g.chain (g.slot (hashVal v))).find? (isValue v h) = none := by
    refine List.find?_eq_none.mpr fun q hq hmatch => hv ?_
    obtain ⟨k, hk, rfl, hkv⟩ := hh.of_mem hf hkey hq
    have hkv' : k = v := hkv.symm.trans (beq_iff_eq.mp hmatch)
    exact hkv' ▸ hk
  have hsim : Guarded Perm.none _ (rTableCoreFind (hashVal v) (isValue v)) h g := rTableCoreFind_guarded hf _ _
  refine Runs.bind (hsim.runs.mono ?_)
  rintro r h' - ⟨g', rfl, rfl, rfl⟩
  rw [hnone]
  exact .ret hh

/-- The detach of an element of the table. -/
theorem Holding.detach (hh : Holding key hashVal S size h) (hkey : ∀ k, S k → key (.node k) = k) (hi : S i) :
    Runs exec (fun _ => Holding key hashVal (fun k => S k ∧ k ≠ i) size) (detach fl hashVal i) h := by
  obtain ⟨g, hf⟩ := hh.flat
  have hsim : Guarded Perm.none _ (rTableCoreTryDetachAutoShrink fl (hashVal i) (isValue i)) h g :=
    rTableCoreTryDetachAutoShrink_guarded hf (fun _ => id) _ _
  refine Runs.bind (hsim.runs.mono ?_)
  rintro ⟨r, b⟩ h' - ⟨g', -, -, hfind, ⟨hnone, -⟩ | ⟨q, hq, hs⟩⟩
  · -- the element is in its bucket and matches
    rw [hnone] at hfind
    have hmatch : isValue i h (.node i) = true := by
      show (h.key (.node i) == i) = true
      rw [hh.key, hkey i hi]
      exact beq_self_eq_true i
    exact absurd hmatch (List.find?_eq_none.mp hfind.symm _ (hh.mem hf hi))
  · obtain rfl : r = some q := hq
    obtain ⟨k, -, rfl, hk⟩ := hh.of_mem hf hkey (List.mem_of_find?_eq_some hfind.symm)
    have hmatch : isValue i h (.node k) = true := List.find?_some hfind.symm
    obtain rfl : k = i := hk.symm.trans (beq_iff_eq.mp hmatch)
    refine .ret ⟨⟨g', hs.flat⟩, fun q => ?_, fun m hm => ?_, hs.key.trans hh.key, hs.size.trans hh.size⟩
    · rw [hs.flat.linked_heap, hs.linked, ← hf.linked_heap, hh.linked]
      constructor
      · rintro ⟨⟨m, hm, rfl⟩, hne⟩
        exact ⟨m, ⟨hm, fun hmk => hne (by rw [hmk])⟩, rfl⟩
      · rintro ⟨m, ⟨hm, hne⟩, rfl⟩
        exact ⟨⟨m, hm, rfl⟩, fun he => hne (by injection he)⟩
    · rw [hs.hash]
      exact hh.hash m hm.1

/-! ### The test -/

/-- The test up to its first insert of the element `i`. -/
def upToFirstInsert (fl : FloatOps φ) (hashVal : ℕ → ℕ) (conf : RTableCoreConfig φ) (i : ℕ) : Code ℕ φ Bool := do
  rTableCoreInitDetailed conf
  Prog.forRange i () fun k _ => insertTwice fl hashVal k
  rTableCoreTryInsert fl (.node i) (hashVal i) equal

section Test

variable {conf : RTableCoreConfig φ}

/-- The table has filled up to `i`. -/
theorem runs_of_filled {α : Type} {p : Code ℕ φ α} {Q : α → Heap ℕ φ → Prop} (hb : Blank h)
    (h0 : conf.nrBucketsPowerOf2 ≠ 0) (hkey : ∀ k < i, h.key (.node k) = k)
    (hp : ∀ h1, Holding h.key hashVal (· < i) i h1 → Runs exec Q p h1) :
    Runs exec Q (do
      rTableCoreInitDetailed conf
      Prog.forRange i () fun k _ => insertTwice fl hashVal k
      p) h := by
  obtain ⟨⟨_, h1, hret⟩, hpost⟩ := rTableCoreInitDetailed_total hb h0
  obtain ⟨hfresh, -, hkey1⟩ := hpost _ _ hret
  have hstart : Holding h.key hashVal (· < 0) 0 h1 := by
    refine ⟨⟨_, hfresh.chains.flat⟩, fun q => ?_, fun k hk => absurd hk (Nat.not_lt_zero k), hkey1, hfresh.size⟩
    rw [hfresh.chains.flat.linked_heap]
    constructor
    · rintro ⟨j, -, hq⟩
      exact absurd hq List.not_mem_nil
    · rintro ⟨k, hk, -⟩
      exact absurd hk (Nat.not_lt_zero k)
  refine Runs.bind (Runs.of_returns hret (Runs.bind ?_))
  refine (Sim.forRange (fun k _ h' _ => Holding h.key hashVal (· < k) k h') hstart ?_ fun _ _ _ hh => hh).mono ?_
  · exact fun k hk _ h' _ hh => hh.insertTwice fun m hm => hkey m (Nat.lt_of_le_of_lt hm hk)
  · exact fun _ h2 _ hh2 => hp h2 hh2

/-- The second insert of an element finds the table that the first has left, and leaves it. -/
theorem second_insert_refused (hb : Blank h) (h0 : conf.nrBucketsPowerOf2 ≠ 0) (hi : i < N)
    (hkey : ∀ k < N, h.key (.node k) = k) :
    (upToFirstInsert fl hashVal conf i).Total exec h fun inserted h1 => inserted = true ∧
      (rTableCoreTryInsert fl (.node i) (hashVal i) equal).Returns exec h1 false h1 := by
  refine Runs.total (runs_of_filled hb h0 (fun k hk => hkey k (hk.trans hi)) fun h1 hh1 => ?_)
  refine (hh1.insert fun k hk => hkey k (Nat.lt_of_le_of_lt hk hi)).mono ?_
  rintro inserted h2 - ⟨rfl, hh2⟩
  have hagain : Runs exec _ (rTableCoreTryInsert fl (.node i) (hashVal i) equal) h2 :=
    hh2.insert_again (Nat.lt_succ_self i)
  obtain ⟨⟨b, h3, hret⟩, hpost⟩ := hagain.total
  obtain ⟨rfl, rfl⟩ := hpost _ _ hret
  exact ⟨rfl, hret⟩

/-- The whole test comes to its end. -/
theorem test_total (hb : Blank h) (h0 : conf.nrBucketsPowerOf2 ≠ 0) (hkey : ∀ k < N, h.key (.node k) = k) :
    (RCUTableTestSingleThreadTest fl hashVal conf N).Total exec h fun _ h' =>
      (∀ q, ¬ h'.Linked q) ∧ h'.size = N ∧ h'.key = h.key := by
  refine Runs.total (runs_of_filled hb h0 hkey fun h2 hh2 => ?_)
  refine Runs.bind ((hh2.findNotIn hkey (Nat.lt_irrefl N)).mono ?_)
  intro _ h3 _ hh3
  have hfull : Holding h.key hashVal (fun k => 0 ≤ k ∧ k < N) N h3 := hh3.congr fun k => by simp
  -- the table empties
  refine Runs.bind ((Sim.forRange (fun i _ h' _ => Holding h.key hashVal (fun k => i ≤ k ∧ k < N) N h') hfull ?_
    fun _ _ _ hh => hh).mono ?_)
  · intro i hi _ h' _ hh
    refine (hh.detach (fun k hk => hkey k hk.2) ⟨le_rfl, hi⟩).mono fun _ h4 _ hh4 => ?_
    exact hh4.congr fun k => by omega
  intro _ h4 _ hh4
  refine (Sim.forRange (fun _ _ h' _ => Holding h.key hashVal (fun k => N ≤ k ∧ k < N) N h') hh4 ?_
    fun _ _ _ hh => hh).mono ?_
  · exact fun i hi _ h' _ hh => hh.findNotIn (fun k hk => hkey k hk.2) fun hN => Nat.lt_irrefl N hN.2
  intro _ h5 _ hh5
  refine ⟨fun q hq => ?_, hh5.size, hh5.key⟩
  obtain ⟨k, hk, -⟩ := (hh5.linked q).mp hq
  omega

/-- **The test never throws**, for any number of values, any hash function and any configuration with a bucket:
it comes to its end, with an empty table that still counts all inserts, and the data as they were; and each
second insert on the way is refused and leaves all as it is. -/
theorem never_throws (hb : Blank h) (h0 : conf.nrBucketsPowerOf2 ≠ 0) (hkey : ∀ k < N, h.key (.node k) = k) :
    ((RCUTableTestSingleThreadTest fl hashVal conf N).Total exec h fun _ h' =>
      (∀ q, ¬ h'.Linked q) ∧ h'.size = N ∧ h'.key = h.key) ∧
    ∀ i < N, (upToFirstInsert fl hashVal conf i).Total exec h fun inserted h1 => inserted = true ∧
      (rTableCoreTryInsert fl (.node i) (hashVal i) equal).Returns exec h1 false h1 :=
  ⟨test_total hb h0 hkey, fun _ hi => second_insert_refused hb h0 hi hkey⟩

end Test

/-- Three values in one bucket at the start; every hash is 0. -/
def nodeValue : Ptr → ℕ
  | .node n => n
  | .head _ _ => 0

theorem threeValues_never_throws :
    ((RCUTableTestSingleThreadTest ratOps (fun _ => 0) oneBucket 3).Total exec (noTable nodeValue) fun _ h' =>
      (∀ q, ¬ h'.Linked q) ∧ h'.size = 3 ∧ h'.key = nodeValue) ∧
    ∀ i < 3, (upToFirstInsert ratOps (fun _ => 0) oneBucket i).Total exec (noTable nodeValue) fun inserted h1 =>
      inserted = true ∧ (rTableCoreTryInsert ratOps (.node i) 0 equal).Returns exec h1 false h1 :=
  never_throws (noTable_blank _) (by decide) fun _ _ => rfl

end SingleThreadTest

end RcuTable
