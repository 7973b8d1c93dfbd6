import RcuTable.Client.Calls

/-!
# Client.QuickExample — `rcuHashTableQuickExample` of main.cpp

The main thread fills in and inserts `N` elements, then starts the readers and erases every element whose index
is no multiple of 8; each reader looks up all the elements, one critical section for each.  A step of
`QuickExample` is a step of the table, and there is none where an `assert` of the example would fail.
`quickExample_asserts`: in no schedule does one fail.
-/

namespace RcuTable

open Atomic Trans

/-- What `MyElement` keeps beside its `entry`. -/
structure MyElement where
  value : ℕ
  valid : Bool

/-- Elements are compared by value; `hashVal` is `std::hash<int>`. -/
def valueKeys (hashVal : ℕ → ℕ) : KeySpec MyElement where
  same a b := a.value == b.value
  equivalence := ⟨fun _ => beq_self_eq_true _, fun h => beq_iff_eq.mpr (beq_iff_eq.mp h).symm,
    fun h1 h2 => beq_iff_eq.mpr ((beq_iff_eq.mp h1).trans (beq_iff_eq.mp h2))⟩
  hashOf a := hashVal a.value
  hash_eq a b h := by rw [beq_iff_eq.mp h]

/-- Where the main thread stands; `inserting` and `detaching` are the calls under way. -/
inductive MainPc where
  | fill (item : ℕ)
  | insert (item : ℕ)
  | inserting (item : ℕ)
  | erase (i : ℕ)
  | detaching (i : ℕ)
  | invalidate (i : ℕ) (pEntry : Ptr)
  deriving DecidableEq

/-- Where a reader stands in the round `i` of its loop. -/
inductive LookPc where
  | lock (i : ℕ)
  | finding (i : ℕ)
  | unlock (i : ℕ)
  deriving DecidableEq

structure QuickExample (T φ : Type) where
  rTable : TableSys T MyElement φ
  main : MainPc
  reader : T → LookPc

inductive ExampleAct (T : Type) where
  | lock (t : T)
  | enter (t : T)
  | begin (t : T)
  | read (t : T)
  | finish (t : T)
  | unlock (t : T)
  | main
  | write
  | return
  deriving DecidableEq

instance {T : Type} : Inhabited (ExampleAct T) := ⟨.write⟩

/-- The readers have been started. -/
def MainPc.started : MainPc → Bool
  | .fill _ | .insert _ | .inserting _ => false
  | .erase _ | .detaching _ | .invalidate _ _ => true

/-- How many elements have been filled in. -/
def MainPc.filled (N : ℕ) : MainPc → ℕ
  | .fill item => item
  | .insert item | .inserting item => item + 1
  | .erase _ | .detaching _ | .invalidate _ _ => N

/-- The `continue` of the erasing loop. -/
def skip (i : ℕ) : ℕ := if i % 8 = 0 then i + 1 else i

/-- The head of the inserting loop. -/
def nextItem (N item : ℕ) : MainPc := if item < N then .fill item else .erase (skip 0)

def LookPc.index : LookPc → ℕ
  | .lock i | .finding i | .unlock i => i

namespace QuickExample

section Code

variable {T φ : Type} (N : ℕ) (hashVal : ℕ → ℕ)

/-- The asserts of a reader about what it has found. -/
def readerAsserts (h : Heap MyElement φ) (i : ℕ) (pEntry : Option Ptr) : Bool :=
  i % 8 != 0 || match pEntry with
    | some p => decide (p = .node i) && (h.key p).valid
    | none => false

/-- The step of the table that a step of the example is; `none` where a thread is not at such a step, or where
an assert fails. -/
def tableAct (s : QuickExample T φ) : ExampleAct T → Option (TableAct T MyElement φ)
  | .lock t => match s.main.started && decide ((s.reader t).index < N), s.reader t with
    | true, .lock _ => some (.lock t)
    | _, _ => none
  | .enter t => match s.main.started && decide ((s.reader t).index < N), s.reader t with
    | true, .lock _ => some (.enter t)
    | _, _ => none
  | .begin t => match s.main.started && decide ((s.reader t).index < N), s.reader t with
    | true, .lock i =>
      some (.begin t (hashVal (s.rTable.heap.key (.node i)).value) fun h p => (h.key p).value == i)
    | _, _ => none
  | .read t => match s.reader t with
    | .finding _ => some (.read t)
    | _ => none
  | .finish t => match s.reader t, (s.rTable.reader t).find with
    | .finding i, some (.ret pEntry) =>
      if readerAsserts s.rTable.heap i pEntry then some (.finish t) else none
    | _, _ => none
  | .unlock t => match s.reader t with
    | .unlock _ => some (.unlock t)
    | _ => none
  | .main => match s.main with
    | .fill item => some (.prepare item (s.rTable.heap.hash (.node item)) ⟨item, true⟩)
    | .insert item => some (.call (.tryInsert item (hashVal item) (valueKeys hashVal).matches))
    | .erase i =>
      if i < N then
        let val := (s.rTable.heap.key (.node i)).value
        some (.call (.tryDetachAndSynchronize (hashVal val) fun h p => (h.key p).value == val))
      else none
    | .invalidate _ (.node n) => some (.prepare n (s.rTable.heap.hash (.node n))
        { s.rTable.heap.key (.node n) with valid := false })
    | _ => none
  | .write => some .write
  | .return => match s.main, s.rTable.writer with
    | .inserting _, some (_, .ret (.bool inserted)) => if inserted then some .return else none
    | .detaching _, some (_, .ret (.node pEntry)) => if pEntry.isSome then some .return else none
    | _, _ => none

/-- The main thread after its step. -/
def nextMain (s : QuickExample T φ) : ExampleAct T → MainPc
  | .main => match s.main with
    | .fill item => .insert item
    | .insert item => .inserting item
    | .erase i => .detaching i
    | .invalidate i _ => .erase (skip (i + 1))
    | pc => pc
  | .return => match s.main, s.rTable.writer with
    | .inserting item, _ => nextItem N (item + 1)
    | .detaching i, some (_, .ret (.node (some pEntry))) => .invalidate i pEntry
    | pc, _ => pc
  | _ => s.main

/-- The readers after a step. -/
def nextReader [DecidableEq T] (s : QuickExample T φ) : ExampleAct T → T → LookPc
  | .begin t => Function.update s.reader t (.finding (s.reader t).index)
  | .finish t => Function.update s.reader t (.unlock (s.reader t).index)
  | .unlock t => Function.update s.reader t (.lock ((s.reader t).index + 1))
  | _ => s.reader

variable [DecidableEq T] (cfg : ZoneCfg) (hash : T → ℕ) (fl : FloatOps φ)

def step (s : QuickExample T φ) (a : ExampleAct T) : Option (QuickExample T φ) :=
  (s.tableAct N hashVal a).bind fun b => (s.rTable.step cfg hash fl b).map fun rTable =>
    { rTable := rTable, main := s.nextMain N a, reader := s.nextReader a }

/-- After `rTableInit`. -/
structure Init (s : QuickExample T φ) : Prop where
  rTable : s.rTable.Init cfg
  main : s.main = nextItem N 0
  reader : ∀ t, s.reader t = .lock 0

end Code

/-! ### What a step can be -/

section Cases

variable {T φ : Type} (N : ℕ) (hashVal : ℕ → ℕ)

/-- `QuickExample.tableAct` as a relation, where each element has its index for its value. -/
inductive Acts (s : QuickExample T φ) : ExampleAct T → TableAct T MyElement φ → Prop
  | lock {t : T} : Acts s (.lock t) (.lock t)
  | enter {t : T} : Acts s (.enter t) (.enter t)
  | begin {t : T} {i : ℕ} (hs : s.main.started = true) (hi : i < N) (hr : s.reader t = .lock i) :
      Acts s (.begin t) (.begin t (hashVal i) ((valueKeys hashVal).finds ⟨i, true⟩))
  | read {t : T} : Acts s (.read t) (.read t)
  | finish {t : T} : Acts s (.finish t) (.finish t)
  | unlock {t : T} : Acts s (.unlock t) (.unlock t)
  | fill {item : ℕ} (hm : s.main = .fill item) :
      Acts s .main (.prepare item (s.rTable.heap.hash (.node item)) ⟨item, true⟩)
  | insert {item : ℕ} (hm : s.main = .insert item) :
      Acts s .main (.call (.tryInsert item (hashVal item) (valueKeys hashVal).matches))
  | erase {i : ℕ} (hm : s.main = .erase i) (hi : i < N) :
      Acts s .main (.call (.tryDetachAndSynchronize (hashVal i) ((valueKeys hashVal).finds ⟨i, true⟩)))
  | invalidate {i n : ℕ} (hm : s.main = .invalidate i (.node n)) :
      Acts s .main (.prepare n (s.rTable.heap.hash (.node n))
        { s.rTable.heap.key (.node n) with valid := false })
  | write : Acts s .write .write
  | inserted {item : ℕ} {op : Op MyElement φ} (hm : s.main = .inserting item)
      (hw : s.rTable.writer = some (op, .ret (.bool true))) : Acts s .return .return
  | detached {i : ℕ} {op : Op MyElement φ} {p : Ptr} (hm : s.main = .detaching i)
      (hw : s.rTable.writer = some (op, .ret (.node (some p)))) : Acts s .return .return

variable {N hashVal} {s : QuickExample T φ} {a : ExampleAct T} {b : TableAct T MyElement φ}

theorem MainPc.filled_of_started {pc : MainPc} (h : pc.started = true) : pc.filled N = N := by
  cases pc with
  | fill | insert | inserting => cases h
  | erase | detaching | invalidate => rfl

theorem acts_of_tableAct (hv : ∀ k < s.main.filled N, (s.rTable.heap.key (.node k)).value = k)
    (h : s.tableAct N hashVal a = some b) : Acts N hashVal s a b := by
  cases a with
  | lock t =>
    simp only [tableAct] at h
    split at h
    · obtain rfl := Option.some.inj h
      exact .lock
    · cases h
  | enter t =>
    simp only [tableAct] at h
    split at h
    · obtain rfl := Option.some.inj h
      exact .enter
    · cases h
  | begin t =>
    simp only [tableAct] at h
    split at h
    case h_1 i hguard hr =>
      rw [hr, Bool.and_eq_true, decide_eq_true_iff] at hguard
      rw [hv i (by rw [MainPc.filled_of_started hguard.1]; exact hguard.2)] at h
      obtain rfl := Option.some.inj h
      exact .begin hguard.1 hguard.2 hr
    case h_2 => cases h
  | read t =>
    simp only [tableAct] at h
    split at h
    · obtain rfl := Option.some.inj h
      exact .read
    · cases h
  | finish t =>
    simp only [tableAct] at h
    split at h
    · split at h
      · obtain rfl := Option.some.inj h
        exact .finish
      · cases h
    · cases h
  | unlock t =>
    simp only [tableAct] at h
    split at h
    · obtain rfl := Option.some.inj h
      exact .unlock
    · cases h
  | main =>
    simp only [tableAct] at h
    split at h
    case h_1 hm => obtain rfl := Option.some.inj h; exact .fill hm
    case h_2 hm => obtain rfl := Option.some.inj h; exact .insert hm
    case h_3 i hm =>
      split at h
      case isTrue hi =>
        rw [hv i (by rw [hm]; exact hi)] at h
        obtain rfl := Option.some.inj h
        exact .erase hm hi
      case isFalse => cases h
    case h_4 hm => obtain rfl := Option.some.inj h; exact .invalidate hm
    case h_5 => cases h
  | write =>
    obtain rfl := Option.some.inj h
    exact .write
  | «return» =>
    simp only [tableAct] at h
    split at h
    case h_1 hm hw =>
      split at h
      case isTrue hi =>
        obtain rfl := Option.some.inj h
        exact .inserted hm (hi ▸ hw)
      case isFalse => cases h
    case h_2 pEntry hm hw =>
      cases pEntry with
      | none => cases h
      | some p =>
        obtain rfl := Option.some.inj h
        exact .detached hm hw
    case h_3 => cases h

end Cases

/-! ### The table that the example has built -/

section Table

variable {T φ : Type} {h h' : Heap MyElement φ} {S S' : ℕ → Prop}

/-- The table holds the elements of `S`, each as it was filled in. -/
structure Elements (h : Heap MyElement φ) (S : ℕ → Prop) : Prop where
  linked : ∀ q, h.Linked q ↔ ∃ k, S k ∧ q = .node k
  key : ∀ k, S k → h.key (.node k) = ⟨k, true⟩

/-- The elements that are left when the erasing loop has come to `i`. -/
def Left (N i k : ℕ) : Prop := k < N ∧ (k % 8 = 0 ∨ i ≤ k)

/-- A call returns `res` and leaves the elements of `S`. -/
def Leaves (res : Res) (S : ℕ → Prop) (r : Res) (h' : Heap MyElement φ) : Prop := r = res ∧ Elements h' S

/-- What the table is when the main thread is at a point of its program. -/
def MainOk (N : ℕ) (hashVal : ℕ → ℕ) (s : TableSys T MyElement φ) : MainPc → Prop
  | .fill a => a < N ∧ s.writer = none ∧ Elements s.heap (· < a)
  | .insert a => a < N ∧ s.writer = none ∧ Elements s.heap (· < a) ∧ s.heap.key (.node a) = ⟨a, true⟩
  | .inserting a => a < N ∧
      Pending s (.tryInsert a (hashVal a) (valueKeys hashVal).matches) (Leaves (.bool true) (· < a + 1))
  | .erase i => (i < N → i % 8 ≠ 0) ∧ s.writer = none ∧ Elements s.heap (Left N i)
  | .detaching i => i % 8 ≠ 0 ∧
      Pending s (.tryDetachAndSynchronize (hashVal i) ((valueKeys hashVal).finds ⟨i, true⟩))
        (Leaves (.node (some (.node i))) (Left N (i + 1)))
  | .invalidate i p => i % 8 ≠ 0 ∧ p = .node i ∧ s.writer = none ∧ Elements s.heap (Left N (i + 1))

theorem Elements.congr (he : Elements h S) (hS : ∀ k, S k ↔ S' k) : Elements h S' where
  linked q := by rw [he.linked q]; simp only [hS]
  key k hk := he.key k ((hS k).mpr hk)

theorem left_skip {N i k : ℕ} : Left N i k ↔ Left N (skip i) k := by
  unfold Left skip
  split
  · constructor
    · rintro ⟨h1, h2⟩
      exact ⟨h1, by omega⟩
    · rintro ⟨h1, h2⟩
      exact ⟨h1, by omega⟩
  · exact Iff.rfl

theorem skip_ne (i : ℕ) : skip i % 8 ≠ 0 := by
  unfold skip
  split <;> omega

end Table

/-! ### The calls of the main thread -/

section Calls

variable {φ : Type} {N : ℕ} {hashVal : ℕ → ℕ} {fl : FloatOps φ} {h : Heap MyElement φ} {g : View} {i : ℕ}

theorem Elements.linked_view {S : ℕ → Prop} (he : Elements h S) (hr : Rep h g) {q : Ptr} (hq : g.Linked q) :
    ∃ k, S k ∧ q = .node k ∧ (h.key q).value = k := by
  obtain ⟨k, hk, rfl⟩ := (he.linked q).mp (hr.linked_heap.mpr hq)
  exact ⟨k, hk, rfl, by rw [he.key k hk]⟩

/-- The insert of a new element returns `true`. -/
theorem Elements.tryInsert (he : Elements h (· < i)) (hf : Flat h g) (hi : h.key (.node i) = ⟨i, true⟩) :
    ∃ h', ((Op.tryInsert i (hashVal i) (valueKeys hashVal).matches).code fl).Returns exec h (.bool true) h' ∧
      h'.key = h.key ∧ Elements h' (· < i + 1) := by
  have hfree : ∀ p, (Op.tryInsert (φ := φ) i (hashVal i) (valueKeys hashVal).matches).own p → ¬ h.Linked p := by
    rintro p rfl hp
    obtain ⟨k, hk, hik⟩ := (he.linked _).mp hp
    injection hik with hik
    omega
  obtain ⟨⟨res, h', hret⟩, hpost⟩ := Op.total fl hf hfree
  obtain ⟨g', b, rfl, ⟨-, ⟨q, hq, hmatch⟩, -⟩ | ⟨rfl, -, hs⟩⟩ := hpost _ _ hret
  · -- an element of the same value would be in the table already
    obtain ⟨k, hk, rfl, hv⟩ := he.linked_view hf.toRep ⟨_, hf.slot_lt _, hq⟩
    have hsame : (h.key (.node k)).value = (h.key (.node i)).value := beq_iff_eq.mp hmatch
    rw [hv, hi] at hsame
    exact absurd hsame (Nat.ne_of_lt hk)
  · have hkey : h'.key = h.key := hs.key
    refine ⟨h', hret, hkey, fun q => ?_, fun k hk => ?_⟩
    · rw [hs.flat.linked_heap, hs.linked, ← hf.linked_heap, he.linked]
      constructor
      · rintro (⟨k, hk, rfl⟩ | rfl)
        · exact ⟨k, by omega, rfl⟩
        · exact ⟨i, by omega, rfl⟩
      · rintro ⟨k, hk, rfl⟩
        rcases Nat.lt_succ_iff_lt_or_eq.mp hk with hk | rfl
        · exact .inl ⟨k, hk, rfl⟩
        · exact .inr rfl
    · rw [hkey]
      rcases Nat.lt_succ_iff_lt_or_eq.mp hk with hk | rfl
      · exact he.key k hk
      · exact hi

/-- The detach of an element that is left returns it. -/
theorem Elements.tryDetach (he : Elements h (Left N i)) (hf : Flat h g) (hk : KeysOk (valueKeys hashVal) h g)
    (hi : i < N) (h8 : i % 8 ≠ 0) :
    ∃ h', ((Op.tryDetachAndSynchronize (hashVal i) ((valueKeys hashVal).finds ⟨i, true⟩)).code fl).Returns exec h
      (.node (some (.node i))) h' ∧ h'.key = h.key ∧ Elements h' (Left N (i + 1)) := by
  have hleft : Left N i i := ⟨hi, .inr le_rfl⟩
  have hlinked : g.Linked (.node i) := hf.linked_heap.mp ((he.linked _).mpr ⟨i, hleft, rfl⟩)
  have hfinds : (valueKeys hashVal).finds ⟨i, true⟩ h (.node i) = true := by
    show (h.key (.node i)).value == i
    rw [he.key i hleft]
    simp
  have hmem := hk.mem_slot hf hlinked hfinds
  have hfree : ∀ p, (Op.tryDetachAndSynchronize (φ := φ) (hashVal i) ((valueKeys hashVal).finds ⟨i, true⟩)).own p →
      ¬ h.Linked p := fun p hp => absurd hp id
  obtain ⟨⟨res, h', hret⟩, hpost⟩ := Op.total fl hf hfree
  obtain ⟨g', p, rfl, hfind, ⟨hnone, -⟩ | ⟨q, rfl, hs⟩⟩ := hpost _ _ hret
  · rw [hnone] at hfind
    exact absurd hfinds (List.find?_eq_none.mp hfind.symm _ hmem)
  · obtain ⟨k, -, rfl, hv⟩ := he.linked_view hf.toRep ⟨_, hf.slot_lt _, List.mem_of_find?_eq_some hfind.symm⟩
    have hmatch : (valueKeys hashVal).finds ⟨i, true⟩ h (.node k) = true := List.find?_some hfind.symm
    have hvalue : (h.key (.node k)).value = i := beq_iff_eq.mp hmatch
    obtain rfl : k = i := hv.symm.trans hvalue
    have hkey : h'.key = h.key := hs.key
    have hiff : ∀ m, Left N (k + 1) m ↔ Left N k m ∧ m ≠ k := by
      unfold Left
      intro m
      omega
    refine ⟨h', hret, hkey, fun q => ?_, fun m hm => ?_⟩
    · rw [hs.flat.linked_heap, hs.linked, ← hf.linked_heap, he.linked]
      simp only [hiff]
      constructor
      · rintro ⟨⟨m, hm, rfl⟩, hne⟩
        exact ⟨m, ⟨hm, fun hmk => hne (by rw [hmk])⟩, rfl⟩
      · rintro ⟨m, ⟨hm, hne⟩, rfl⟩
        exact ⟨⟨m, hm, rfl⟩, fun h => hne (by injection h)⟩
    · rw [hkey]
      exact he.key m ((hiff m).mp hm).1

end Calls

/-! ### The invariant -/

section Invariant

variable {T φ : Type} [DecidableEq T] [Fintype T] {N : ℕ} {hashVal : ℕ → ℕ} {cfg : ZoneCfg} {hash : T → ℕ}
  {fl : FloatOps φ}

structure Inv (N : ℕ) (hashVal : ℕ → ℕ) (cfg : ZoneCfg) (hash : T → ℕ) (fl : FloatOps φ)
    (s : QuickExample T φ) : Prop where
  table : ∃ g, RcuTable.Inv cfg hash fl (valueKeys hashVal).allow s.rTable g ∧
    KeysOk (valueKeys hashVal) s.rTable.heap g
  main : MainOk N hashVal s.rTable s.main
  values : ∀ k < s.main.filled N, (s.rTable.heap.key (.node k)).value = k
  waiting : s.rTable.waiting = []
  finding : ∀ t, (s.rTable.reader t).find ≠ none → ∃ i, s.reader t = .finding i

variable {s s' : QuickExample T φ} {a : ExampleAct T} {b : TableAct T MyElement φ}

omit [DecidableEq T] [Fintype T] in
theorem mainOk_nextItem {r : TableSys T MyElement φ} {item : ℕ} (hle : item ≤ N) (hw : r.writer = none)
    (he : Elements r.heap (· < item)) : MainOk N hashVal r (nextItem N item) := by
  unfold nextItem
  split
  · exact ⟨by assumption, hw, he⟩
  · refine ⟨fun _ => skip_ne 0, hw, he.congr fun k => ?_⟩
    unfold Left skip
    simp
    omega

omit [DecidableEq T] [Fintype T] in
/-- An element that is not in the table is free. -/
theorem Elements.free {r : TableSys T MyElement φ} {S : ℕ → Prop} (he : Elements r.heap S) (hw : r.waiting = [])
    {i : ℕ} (hi : ¬ S i) : r.Free (.node i) := by
  refine ⟨fun hl => ?_, by rw [hw]; exact List.not_mem_nil⟩
  obtain ⟨k, hk, hik⟩ := (he.linked _).mp hl
  injection hik with hik
  exact hi (hik ▸ hk)

/-- What the main thread asks of the table. -/
theorem Inv.call (hi : Inv N hashVal cfg hash fl s) (hb : Acts N hashVal s a b) :
    s.rTable.Contract b ∧ ∀ op, b = .call op → ∃ c : KeyOp MyElement, op = c.op (valueKeys hashVal) s.rTable.heap ∧
      c.Allowed (valueKeys hashVal) s.rTable.heap := by
  have hmain := hi.main
  cases hb with
  | fill hm =>
    rw [hm] at hmain
    exact ⟨hmain.2.2.free hi.waiting (Nat.lt_irrefl _), fun op h => by cases h⟩
  | @insert item hm =>
    rw [hm] at hmain
    obtain ⟨-, -, he, hkey⟩ := hmain
    refine ⟨?_, ?_⟩
    · rintro p rfl
      exact he.free hi.waiting (Nat.lt_irrefl _)
    · rintro op h
      obtain rfl := TableAct.call.inj h
      refine ⟨.tryInsert item, ?_, trivial⟩
      show _ = Op.tryInsert item (hashVal (s.rTable.heap.key (.node item)).value) _
      rw [hkey]
  | @erase i hm hlt =>
    refine ⟨fun p hp => absurd hp id, fun op h => ?_⟩
    obtain rfl := TableAct.call.inj h
    exact ⟨.tryDetachAndSynchronize ⟨i, true⟩, rfl, trivial⟩
  | @invalidate i n hm =>
    rw [hm] at hmain
    obtain ⟨h8, hn, -, he⟩ := hmain
    injection hn with hn
    subst hn
    refine ⟨he.free hi.waiting ?_, fun op h => by cases h⟩
    unfold Left
    omega
  | _ => exact ⟨trivial, fun op h => by cases h⟩

omit [Fintype T] in
/-- The main thread stays where it is while others step, or its call does. -/
theorem MainOk.other {r r' : TableSys T MyElement φ} {pc : MainPc} (hm : MainOk N hashVal r pc)
    (hpt : ∀ t, (r.reader t).Pointed) (hs : r.step cfg hash fl b = some r') (hcall : ∀ op, b ≠ .call op)
    (hprep : ∀ n x k, b ≠ .prepare n x k) (hret : b ≠ .return) : MainOk N hashVal r' pc := by
  have hrest : r.writer = none → r'.writer = none ∧ r'.heap = r.heap := fun hw =>
    rest_of_step hpt hw hs hcall hprep
  cases pc with
  | fill item =>
    obtain ⟨h1, hw, he⟩ := hm
    obtain ⟨hw', hh⟩ := hrest hw
    exact ⟨h1, hw', by rwa [hh]⟩
  | insert item =>
    obtain ⟨h1, hw, he⟩ := hm
    obtain ⟨hw', hh⟩ := hrest hw
    exact ⟨h1, hw', by rwa [hh]⟩
  | inserting item => exact ⟨hm.1, hm.2.step hpt hs hret⟩
  | erase i =>
    obtain ⟨h1, hw, he⟩ := hm
    obtain ⟨hw', hh⟩ := hrest hw
    exact ⟨h1, hw', by rwa [hh]⟩
  | detaching i => exact ⟨hm.1, hm.2.step hpt hs hret⟩
  | invalidate i p =>
    obtain ⟨h1, h2, hw, he⟩ := hm
    obtain ⟨hw', hh⟩ := hrest hw
    exact ⟨h1, h2, hw', by rwa [hh]⟩

omit [Fintype T] in
/-- Writing to an element that is not in the table. -/
theorem Elements.prepare {r r' : TableSys T MyElement φ} {S : ℕ → Prop} {n x : ℕ} {k : MyElement}
    (he : Elements r.heap S) (hn : ¬ S n) (hs : r.step cfg hash fl (.prepare n x k) = some r')
    (hlinked : ∀ q, r'.heap.Linked q ↔ r.heap.Linked q) :
    r'.writer = none ∧ Elements r'.heap S ∧ r'.heap.key (.node n) = k := by
  obtain ⟨hw, rfl⟩ := prepare_of_step hs
  refine ⟨hw, ⟨fun q => (hlinked q).trans (he.linked q), fun m hm => ?_⟩, Function.update_self ..⟩
  refine (Function.update_of_ne ?_ ..).trans (he.key m hm)
  intro h
  injection h with h
  exact hn (h ▸ hm)

/-! ### The steps -/

theorem inv_start (hs : s.Init N cfg) : Inv N hashVal cfg hash fl s := by
  have htable : ∃ g, RcuTable.Inv cfg hash fl (valueKeys hashVal).allow s.rTable g ∧ ∀ p, ¬ g.Linked p :=
    inv_init hs.rTable
  obtain ⟨g, hinv, hempty⟩ := htable
  refine ⟨⟨g, hinv, keysOk_stable.empty _ _ hempty⟩, ?_, ?_, hs.rTable.waiting, ?_⟩
  · rw [hs.main]
    refine mainOk_nextItem (Nat.zero_le N) hs.rTable.writer ⟨fun q => ?_, fun k hk => absurd hk (Nat.not_lt_zero k)⟩
    rw [hinv.rep.linked_heap]
    exact ⟨fun hq => absurd hq (hempty q), fun ⟨k, hk, _⟩ => absurd hk (Nat.not_lt_zero k)⟩
  · rw [hs.main]
    unfold nextItem
    split
    case isTrue => exact fun k hk => absurd hk (Nat.not_lt_zero k)
    case isFalse hN =>
      intro k hk
      have hlt : k < N := hk
      omega
  · intro t hf
    rw [hs.rTable.reader t] at hf
    exact absurd rfl hf

/-- The table's own invariant. -/
theorem Inv.table_step (hi : Inv N hashVal cfg hash fl s) (hb : Acts N hashVal s a b) {r' : TableSys T MyElement φ}
    (hs : s.rTable.step cfg hash fl b = some r') :
    ∃ g, RcuTable.Inv cfg hash fl (valueKeys hashVal).allow r' g ∧ KeysOk (valueKeys hashVal) r'.heap g := by
  obtain ⟨g, hinv, hok⟩ := hi.table
  obtain ⟨hc, hkeyed⟩ := hi.call hb
  have hpre : ∀ op, b = .call op → Flat s.rTable.heap g → op.Pre (valueKeys hashVal).allow s.rTable.heap g := by
    rintro op rfl hf
    obtain ⟨c, rfl, hallow⟩ := hkeyed op rfl
    exact c.pre hf hok (fun p hp => (hc p hp).1) hallow
  obtain ⟨g', hinv', hm⟩ := hinv.step hc hpre hs
  exact ⟨g', hinv', hm.stable keysOk_stable hinv hok⟩

theorem Inv.flat (hi : Inv N hashVal cfg hash fl s) (hw : s.rTable.writer = none) :
    ∃ g, Flat s.rTable.heap g ∧ KeysOk (valueKeys hashVal) s.rTable.heap g := by
  obtain ⟨g, hinv, hok⟩ := hi.table
  have hrest := hinv.writer
  rw [hw] at hrest
  exact ⟨g, hrest.flat, hok⟩

theorem Inv.main_step (hi : Inv N hashVal cfg hash fl s) (hb : Acts N hashVal s a b) {r' : TableSys T MyElement φ}
    (hs : s.rTable.step cfg hash fl b = some r') : MainOk N hashVal r' (s.nextMain N a) := by
  obtain ⟨g, hinv, -⟩ := hi.table
  have hpt := hinv.pointed
  have hmain := hi.main
  have hlinked := fun hw => hinv.rest_linked (hi.call hb).1 hw hs
  cases hb with
  | fill hm =>
    simp only [nextMain, hm]
    rw [hm] at hmain
    obtain ⟨hlt, hw, he⟩ := hmain
    obtain ⟨hw', he', hkey⟩ := he.prepare (Nat.lt_irrefl _) hs (hlinked hw)
    exact ⟨hlt, hw', he', hkey⟩
  | insert hm =>
    simp only [nextMain, hm]
    rw [hm] at hmain
    obtain ⟨hlt, hw, he, hkey⟩ := hmain
    obtain ⟨g', hf, -⟩ := hi.flat hw
    obtain ⟨h', hret, hkey', he'⟩ := he.tryInsert hf hkey
    exact ⟨hlt, pending_call hs hret hkey' ⟨rfl, he'⟩⟩
  | erase hm hlt =>
    simp only [nextMain, hm]
    rw [hm] at hmain
    obtain ⟨h8, hw, he⟩ := hmain
    obtain ⟨g', hf, hok⟩ := hi.flat hw
    obtain ⟨h', hret, hkey', he'⟩ := he.tryDetach hf hok hlt (h8 hlt)
    exact ⟨h8 hlt, pending_call hs hret hkey' ⟨rfl, he'⟩⟩
  | @invalidate i n hm =>
    simp only [nextMain, hm]
    rw [hm] at hmain
    obtain ⟨h8, hn, hw, he⟩ := hmain
    injection hn with hn
    subst hn
    have hout : ¬ Left N (n + 1) n := by
      unfold Left
      omega
    obtain ⟨hw', he', -⟩ := he.prepare hout hs (hlinked hw)
    exact ⟨fun _ => skip_ne _, hw', he'.congr fun k => left_skip⟩
  | inserted hm hw =>
    simp only [nextMain, hm]
    rw [hm] at hmain
    obtain ⟨hlt, hp⟩ := hmain
    obtain ⟨⟨-, he⟩, hw'⟩ := hp.returned hw hs
    exact mainOk_nextItem hlt hw' he
  | detached hm hw =>
    simp only [nextMain, hm, hw]
    rw [hm] at hmain
    obtain ⟨h8, hp⟩ := hmain
    obtain ⟨⟨hres, he⟩, hw'⟩ := hp.returned hw hs
    injection hres with hres
    exact ⟨h8, Option.some.inj hres, hw', he⟩
  | lock | enter | begin | read | finish | unlock | write =>
    exact hmain.other hpt hs (fun op h => by cases h) (fun n x k h => by cases h) fun h => by cases h

/-- An element keeps its value. -/
theorem Inv.values_step (hi : Inv N hashVal cfg hash fl s) (hb : Acts N hashVal s a b)
    {r' : TableSys T MyElement φ} (hs : s.rTable.step cfg hash fl b = some r') :
    ∀ k < (s.nextMain N a).filled N, (r'.heap.key (.node k)).value = k := by
  have hvalues := hi.values
  have hmain := hi.main
  have hkeep : (∀ n x k, b ≠ .prepare n x k) → (s.nextMain N a).filled N = s.main.filled N →
      ∀ k < (s.nextMain N a).filled N, (r'.heap.key (.node k)).value = k := by
    intro hprep hfilled
    rw [key_of_step hs hprep, hfilled]
    exact hvalues
  have hwrite : ∀ {n x : ℕ} {e : MyElement} {k : ℕ}, b = .prepare n x e → (k = n → e.value = n) →
      (k ≠ n → (s.rTable.heap.key (.node k)).value = k) → (r'.heap.key (.node k)).value = k := by
    rintro n x e k rfl he hk
    obtain ⟨-, rfl⟩ := prepare_of_step hs
    show (Function.update s.rTable.heap.key (.node n) e (.node k)).value = k
    by_cases hkn : k = n
    · rw [hkn, Function.update_self]
      exact he hkn
    · rw [Function.update_of_ne (by simpa using hkn)]
      exact hk hkn
  cases hb with
  | fill hm =>
    simp only [nextMain, hm]
    rw [hm] at hvalues
    intro k hk
    refine hwrite rfl (fun _ => rfl) fun hne => hvalues k ?_
    have hk' : k < _ + 1 := hk
    exact Nat.lt_of_le_of_ne (Nat.le_of_lt_succ hk') hne
  | @invalidate i n hm =>
    simp only [nextMain, hm]
    rw [hm] at hvalues
    intro k hk
    exact hwrite rfl (fun hkn => by rw [← hkn]; exact hvalues k hk) fun _ => hvalues k hk
  | insert hm => exact hkeep (fun n x k h => by cases h) (by simp only [nextMain, hm]; rfl)
  | erase hm => exact hkeep (fun n x k h => by cases h) (by simp only [nextMain, hm]; rfl)
  | detached hm hw => exact hkeep (fun n x k h => by cases h) (by simp only [nextMain, hm, hw]; rfl)
  | @inserted item _ hm hw =>
    refine hkeep (fun n x k h => by cases h) ?_
    simp only [nextMain, hm]
    rw [hm] at hmain
    have hlt : item < N := hmain.1
    unfold nextItem
    split
    · rfl
    · show N = item + 1
      omega
  | lock | enter | begin | read | finish | unlock | write => exact hkeep (fun n x k h => by cases h) rfl

/-- A lookup that is under way after a step was so before, or begins with it. -/
theorem Inv.finding_step (hi : Inv N hashVal cfg hash fl s) (hb : Acts N hashVal s a b)
    {r' : TableSys T MyElement φ} (hs : s.rTable.step cfg hash fl b = some r') {t : T}
    (hf : (r'.reader t).find ≠ none) : ∃ i, s.nextReader a t = .finding i ∧
      (s.reader t = .finding i ∧ (s.rTable.reader t).find ≠ none ∧ b ≠ .finish t ∨
        b = .begin t (hashVal i) ((valueKeys hashVal).finds ⟨i, true⟩) ∧ i < N ∧ s.main.started = true) := by
  have hother : ∀ {t' : T} {pc : LookPc}, t ≠ t' → Function.update s.reader t' pc t = s.reader t := fun hne =>
    Function.update_of_ne hne ..
  rcases find_of_step hs hf with ⟨hf', hfinish, hunlock⟩ | ⟨x, f, rfl⟩
  · obtain ⟨i, hr⟩ := hi.finding t hf'
    have hsame : s.nextReader a t = s.reader t := by
      cases hb with
      | begin _ _ hr' =>
        refine hother ?_
        rintro rfl
        cases hr.symm.trans hr'
      | finish => exact hother fun ht => hfinish (by rw [ht])
      | unlock => exact hother fun ht => hunlock (by rw [ht])
      | _ => rfl
    exact ⟨i, hsame.trans hr, .inl ⟨hr, hf', hfinish⟩⟩
  · cases hb with
    | @begin _ i hstart hlt hr =>
      refine ⟨i, ?_, .inr ⟨rfl, hlt, hstart⟩⟩
      rw [nextReader, Function.update_self, hr]
      rfl

theorem Inv.waiting_step (hi : Inv N hashVal cfg hash fl s) (hb : Acts N hashVal s a b)
    {r' : TableSys T MyElement φ} (hs : s.rTable.step cfg hash fl b = some r') : r'.waiting = [] := by
  refine waiting_of_step hs hi.waiting ?_
  rintro op res rfl hw
  have hmain := hi.main
  cases hb with
  | inserted hm =>
    rw [hm] at hmain
    obtain ⟨rfl, -⟩ := hmain.2.result hw
    rfl
  | detached hm =>
    rw [hm] at hmain
    obtain ⟨rfl, -⟩ := hmain.2.result hw
    rfl

theorem Inv.acts (hi : Inv N hashVal cfg hash fl s) (hs : s.step N hashVal cfg hash fl a = some s') :
    ∃ b, s.tableAct N hashVal a = some b ∧ Acts N hashVal s a b ∧
      s.rTable.step cfg hash fl b = some s'.rTable ∧ s'.main = s.nextMain N a ∧ s'.reader = s.nextReader a := by
  obtain ⟨b, hb, hstep⟩ := Option.bind_eq_some_iff.mp hs
  obtain ⟨r', hr, rfl⟩ := Option.map_eq_some_iff.mp hstep
  exact ⟨b, hb, acts_of_tableAct hi.values hb, hr, rfl, rfl⟩

/-- **One step** of the example keeps its invariant. -/
theorem Inv.next (hi : Inv N hashVal cfg hash fl s) (hs : s.step N hashVal cfg hash fl a = some s') :
    Inv N hashVal cfg hash fl s' := by
  obtain ⟨b, -, hb, hr, hmain, hreader⟩ := hi.acts hs
  refine ⟨hi.table_step hb hr, ?_, ?_, hi.waiting_step hb hr, ?_⟩
  · rw [hmain]
    exact hi.main_step hb hr
  · rw [hmain]
    exact hi.values_step hb hr
  · intro t hf
    obtain ⟨i, hi', -⟩ := hi.finding_step hb hr hf
    exact ⟨i, by rw [hreader]; exact hi'⟩

end Invariant

/-! ### Runs -/

section Runs

variable {T φ : Type} [DecidableEq T] [Fintype T] {N : ℕ} {hashVal : ℕ → ℕ} {cfg : ZoneCfg} {hash : T → ℕ}
  {fl : FloatOps φ}

/-- A schedule of the example. -/
abbrev ExampleRun (T : Type) [DecidableEq T] {φ : Type} (N : ℕ) (hashVal : ℕ → ℕ) (cfg : ZoneCfg) (hash : T → ℕ)
    (fl : FloatOps φ) : Type 1 :=
  Run (S := QuickExample T φ) (step N hashVal cfg hash fl) (Init N cfg)

variable (R : ExampleRun T N hashVal cfg hash fl)

theorem inv_of_run : ∀ m ≤ R.len, Inv N hashVal cfg hash fl (R.state m) :=
  R.invariant (fun _ hs => inv_start hs) fun m hm hi => hi.next (R.next m hm)

/-- The run of the table in a run of the example. -/
def tableRun : TableRun MyElement cfg hash fl where
  len := R.len
  state m := (R.state m).rTable
  act m := ((R.state m).tableAct N hashVal (R.act m)).getD .write
  start := R.start.rTable
  next m hm := by
    obtain ⟨b, hb, -, hs, -⟩ := (inv_of_run R m hm.le).acts (R.next m hm)
    rw [hb]
    exact hs

theorem acts_tableRun {m : ℕ} (hm : m < R.len) : Acts N hashVal (R.state m) (R.act m) ((tableRun R).act m) := by
  obtain ⟨b, hb, hacts, -⟩ := (inv_of_run R m hm.le).acts (R.next m hm)
  have hact : (tableRun R).act m = b := by
    show ((R.state m).tableAct N hashVal (R.act m)).getD .write = b
    rw [hb]
    rfl
  rw [hact]
  exact hacts

theorem lawful_tableRun : Lawful (tableRun R) (valueKeys hashVal).allow (KeysOk (valueKeys hashVal)) := by
  refine lawful_of_keyed (fun m hm => ((inv_of_run R m (Nat.le_of_lt hm)).call (acts_tableRun R hm)).1) ?_
  exact fun m hm op hop => .inr (((inv_of_run R m (Nat.le_of_lt hm)).call (acts_tableRun R hm)).2 op hop)

omit [DecidableEq T] [Fintype T] in
theorem started_next {s : QuickExample T φ} {a : ExampleAct T} (h : s.main.started = true) :
    (s.nextMain N a).started = true := by
  cases a with
  | main =>
    cases hm : s.main with
    | fill | insert | inserting =>
      rw [hm] at h
      cases h
    | erase | detaching | invalidate =>
      simp only [nextMain, hm]
      rfl
  | «return» =>
    cases hm : s.main with
    | fill | insert | inserting =>
      rw [hm] at h
      cases h
    | detaching =>
      simp only [nextMain, hm]
      split
      case h_1 hpc => cases hpc
      all_goals rfl
    | erase | invalidate =>
      simp only [nextMain, hm]
      rfl
  | _ => exact h

theorem started_mono {i j : ℕ} (hij : i ≤ j) (hj : j ≤ R.len) (h : (R.state i).main.started = true) :
    (R.state j).main.started = true := by
  induction j, hij using Nat.le_induction with
  | base => exact h
  | succ j hij ih =>
    obtain ⟨-, -, -, -, hmain, -⟩ := (inv_of_run R j (Nat.le_of_lt hj)).acts (R.next j hj)
    rw [hmain]
    exact started_next (ih (Nat.le_of_lt hj))

/-- While the readers run, every multiple of 8 is in the table and valid. -/
theorem Inv.kept {s : QuickExample T φ} (hi : Inv N hashVal cfg hash fl s) (hs : s.main.started = true) {k : ℕ}
    (hk : k < N) (h8 : k % 8 = 0) : s.rTable.heap.Linked (.node k) ∧ s.rTable.heap.key (.node k) = ⟨k, true⟩ := by
  have hleft : ∀ i, Left N i k := fun i => ⟨hk, .inl h8⟩
  have hmain := hi.main
  cases hm : s.main with
  | fill | insert | inserting =>
    rw [hm] at hs
    cases hs
  | erase i =>
    rw [hm] at hmain
    exact ⟨(hmain.2.2.linked _).mpr ⟨k, hleft i, rfl⟩, hmain.2.2.key k (hleft i)⟩
  | invalidate i =>
    rw [hm] at hmain
    exact ⟨(hmain.2.2.2.linked _).mpr ⟨k, hleft _, rfl⟩, hmain.2.2.2.key k (hleft _)⟩
  | detaching i =>
    -- the call leaves the element in the table, and only the call could link it
    rw [hm] at hmain
    obtain ⟨g, hinv, -⟩ := hi.table
    refine ⟨(hmain.2.linked hinv fun _ _ hq => (hq.2.linked _).mpr ⟨k, hleft _, rfl⟩).elim id False.elim, ?_⟩
    obtain ⟨-, p, res, h', -, -, hkey, -, he⟩ := hmain
    exact hkey ▸ he.key k (hleft _)

/-- A lookup that a reader has under way. -/
theorem looking {m : ℕ} (hm : m ≤ R.len) {t : T} {k : ℕ} (hr : (R.state m).reader t = .finding k)
    (hf : ((R.state m).rTable.reader t).find ≠ none) : ∃ i,
    Looking (tableRun R) t (hashVal k) ((valueKeys hashVal).finds ⟨k, true⟩) i m ∧ k < N ∧
      (R.state i).main.started = true := by
  induction m with
  | zero =>
    rw [R.start.rTable.reader t] at hf
    exact absurd rfl hf
  | succ m ih =>
    have hinv := inv_of_run R m (Nat.le_of_lt hm)
    obtain ⟨-, -, -, -, -, hreader⟩ := hinv.acts (R.next m hm)
    obtain ⟨k', hk', hcase⟩ := hinv.finding_step (acts_tableRun R hm) ((tableRun R).next m hm) hf
    rw [← hreader, hr] at hk'
    injection hk' with hkk
    subst hkk
    rcases hcase with ⟨hr', hf', hfinish⟩ | ⟨hbegin, hlt, hstarted⟩
    · obtain ⟨i, hl, hlt, hstarted⟩ := ih (Nat.le_of_lt hm) hr' hf'
      refine ⟨i, ⟨hl.begins, Nat.le_succ_of_le hl.le, hm, fun j h1 h2 => ?_⟩, hlt, hstarted⟩
      rcases Nat.lt_succ_iff_lt_or_eq.mp h2 with h2 | rfl
      · exact hl.on j h1 h2
      · exact hfinish
    · refine ⟨m + 1, ⟨⟨m, Nat.lt_succ_self m, hbegin, fun j h1 h2 => by omega⟩, le_rfl, hm, fun j h1 h2 => by omega⟩,
        hlt, started_mono R (Nat.le_succ m) hm hstarted⟩

/-- **What a reader finds**: a multiple of 8 is found where it was put. -/
theorem found {m : ℕ} (hm : m ≤ R.len) {t : T} {k : ℕ} (hr : (R.state m).reader t = .finding k) (h8 : k % 8 = 0)
    {pEntry : Option Ptr} (hret : ((R.state m).rTable.reader t).find = some (.ret pEntry)) :
    pEntry = some (.node k) ∧ (R.state m).rTable.heap.key (.node k) = ⟨k, true⟩ := by
  obtain ⟨i, hl, hlt, hstarted⟩ := looking R hm hr (by rw [hret]; simp)
  have hkept : ∀ j, i ≤ j → j ≤ m → (R.state j).rTable.heap.Linked (.node k) ∧
      (R.state j).rTable.heap.key (.node k) = ⟨k, true⟩ := fun j h1 h2 =>
    (inv_of_run R j (h2.trans hm)).kept (started_mono R h1 (h2.trans hm) hstarted) hlt h8
  have hfinds : ∀ j, i ≤ j → j ≤ m → ((tableRun R).state j).heap.Linked (.node k) ∧
      (valueKeys hashVal).finds ⟨k, true⟩ ((tableRun R).state j).heap (.node k) = true := by
    intro j h1 h2
    obtain ⟨hlinked, hkey⟩ := hkept j h1 h2
    refine ⟨hlinked, ?_⟩
    show ((R.state j).rTable.heap.key (.node k)).value == k
    rw [hkey]
    exact beq_self_eq_true k
  obtain ⟨hsome, hnone⟩ := Looking.returned (k := ⟨k, true⟩) (lawful_tableRun R) hl hret (· = .node k) fun q hq => hq ▸ hfinds
  refine ⟨?_, (hkept m hl.le le_rfl).2⟩
  cases pEntry with
  | none => exact absurd rfl (hnone rfl _)
  | some q =>
    -- an element of this value was in the table at some instant, and there is one such element only
    obtain ⟨⟨j, h1, h2, hlinked, hkey⟩, j', -, -, hmatch, hkey'⟩ := hsome q rfl
    obtain ⟨g, hinv, hok⟩ := (inv_of_run R j (h2.trans hm)).table
    have hq : (valueKeys hashVal).finds ⟨k, true⟩ (R.state j).rTable.heap q = true := by
      show (valueKeys hashVal).same ((R.state j).rTable.heap.key q) _ = true
      rw [show (R.state j).rTable.heap.key q = _ from hkey.trans hkey'.symm]
      exact hmatch
    rw [hok.inj q (.node k) (hinv.rep.linked_heap.mp hlinked) (hinv.rep.linked_heap.mp (hfinds j h1 h2).1)
      ((valueKeys hashVal).equivalence.trans hq ((valueKeys hashVal).equivalence.symm (hfinds j h1 h2).2))]

/-- The asserts that the threads have come to. -/
structure Asserts (s : QuickExample T φ) : Prop where
  inserted : ∀ item op res, s.main = .inserting item → s.rTable.writer = some (op, .ret res) → res = .bool true
  detached : ∀ i op res, s.main = .detaching i → s.rTable.writer = some (op, .ret res) →
    res = .node (some (.node i))
  found : ∀ t i pEntry, s.reader t = .finding i → (s.rTable.reader t).find = some (.ret pEntry) →
    readerAsserts s.rTable.heap i pEntry = true

theorem asserts_of_run {m : ℕ} (hm : m ≤ R.len) : (R.state m).Asserts where
  inserted item op res hmain hw := by
    have hok := (inv_of_run R m hm).main
    rw [hmain] at hok
    exact (hok.2.result hw).2.1
  detached i op res hmain hw := by
    have hok := (inv_of_run R m hm).main
    rw [hmain] at hok
    exact (hok.2.result hw).2.1
  found t i pEntry hr hf := by
    unfold readerAsserts
    by_cases h8 : i % 8 = 0
    · obtain ⟨rfl, hkey⟩ := found R hm hr h8 hf
      simp [hkey]
    · simp [h8]

/-- **In no schedule does an assert of the example fail**; `valid` is written while no reader has the element in
its hands; and when the erasing loop is done the table holds the multiples of 8. -/
theorem quickExample_asserts : ∀ m ≤ R.len, (R.state m).Asserts ∧
    (∀ i p, (R.state m).main = .invalidate i p → ∀ t, p ∉ ((R.state m).rTable.reader t).held) ∧
    ∀ i, (R.state m).main = .erase i → N ≤ i →
      ∀ q, (R.state m).rTable.heap.Linked q ↔ ∃ k < N, 8 ∣ k ∧ q = .node k := by
  intro m hm
  have hi := inv_of_run R m hm
  have hok := hi.main
  refine ⟨asserts_of_run R hm, fun i p hmain t hheld => ?_, fun i hmain hlast q => ?_⟩
  · rw [hmain] at hok
    obtain ⟨h8, rfl, hw, he⟩ := hok
    obtain ⟨g, hinv, -⟩ := hi.table
    have hrest := hinv.writer
    rw [hw] at hrest
    have hout : ¬ Left N (i + 1) i := by
      unfold Left
      omega
    exact hrest.not_seen (he.free hi.waiting hout) ((hinv.within t).held _ hheld).1
  · rw [hmain] at hok
    rw [hok.2.2.linked]
    unfold Left
    constructor
    · rintro ⟨k, ⟨hk, h8⟩, rfl⟩
      exact ⟨k, hk, by omega, rfl⟩
    · rintro ⟨k, hk, h8, rfl⟩
      exact ⟨k, ⟨hk, .inl (by omega)⟩, rfl⟩

end Runs

/-! ### Two elements and one reader -/

def emptyTable : Session (K := MyElement) ratOps oneBucket :=
  .init ratOps oneBucket (noTable fun _ => ⟨0, false⟩) (noTable_blank _) 100 (by decide +kernel)
    (.prepare 0 0 ⟨0, false⟩)

/-- The reader finds element 0 while the main thread, which has detached element 1, waits for it; then element 1
is made invalid, and the loop is done. -/
def twoElements : ExampleRun Unit 2 id Zone.tinyCfg (fun _ => 0) ratOps :=
  .ofActs ⟨.setUp Unit (emptyTable.heap 0), nextItem 2 0, fun _ => .lock 0⟩ (List.flatten [
    [.main, .main], .replicate 13 .write, [.return, .main, .main], .replicate 70 .write,
    [.return, .lock (), .enter (), .enter (), .enter (), .begin (), .read (), .read (), .main],
    .replicate 12 .write, .replicate 3 (.read ()), [.finish (), .write, .unlock ()], .replicate 6 .write,
    [.return, .main]])
    ⟨TableSys.setUp_init, rfl, fun _ => rfl⟩ (by decide +kernel)

theorem twoElements_asserts : readerAsserts (twoElements.state 112).rTable.heap 0 (some (.node 0)) = true ∧
    (∀ t, Ptr.node 1 ∉ ((twoElements.state 122).rTable.reader t).held) ∧
    ∀ q, (twoElements.state 123).rTable.heap.Linked q ↔ q = .node 0 := by
  obtain ⟨hasserts, -⟩ := quickExample_asserts twoElements 112 (by decide +kernel)
  obtain ⟨-, hheld, -⟩ := quickExample_asserts twoElements 122 (by decide +kernel)
  obtain ⟨-, -, hlast⟩ := quickExample_asserts twoElements 123 (by decide +kernel)
  have hdone : ((twoElements.state 112).rTable.reader ()).find.bind Prog.result = some (some (.node 0)) := by
    decide +kernel
  obtain ⟨p, hp, hret⟩ := Option.bind_eq_some_iff.mp hdone
  rw [Prog.eq_ret_of_result hret] at hp
  refine ⟨hasserts.found () 0 _ (by decide +kernel) hp, hheld 1 _ (by decide +kernel), fun q => ?_⟩
  rw [hlast 2 (by decide +kernel) le_rfl]
  constructor
  · rintro ⟨k, hk, h8, rfl⟩
    rw [Nat.eq_zero_of_dvd_of_lt h8 (by omega)]
  · rintro rfl
    exact ⟨0, by decide, by decide, rfl⟩

end QuickExample

end RcuTable
