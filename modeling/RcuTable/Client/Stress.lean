import RcuTable.Client.Calls

/-!
# Client.Stress — the stress tests of RCUTableTests.cpp

`RCUTableNormalUsageStress` and `RCUTableManualStressExpandShrink` have a main thread that fills a table, starts
the readers, goes through its rounds and joins the readers; each reader looks up the first elements in a loop
until `finished` is set.  The statements of a main thread are a list of `Cmd`, with a rule for each: what it
asks for when the thread is alone (`Cmd.Pre`), and what it leaves (`Cmd.post`).  By these rules the two tests are
right as sequential programs (`normalUsage_right`, `manualExpandShrink_right`), and each call does alone what its
rule says (`Meets.call`).
-/

namespace RcuTable

open Atomic Trans

/-- `Val`, beside its `entry`; the second test has no `valid`, and neither writes nor reads it. -/
structure Val where
  v : ℕ
  valid : Bool

namespace Stress

/-- The predicate of the inserts. -/
def equal {φ : Type} (h : Heap Val φ) (p1 p2 : Ptr) : Bool := (h.key p1).v == (h.key p2).v

/-- The predicate of the lookups and detaches. -/
def hasValue {φ : Type} (i : ℕ) (h : Heap Val φ) (p : Ptr) : Bool := (h.key p).v == i

/-- A statement of the main thread; element `i` of `arr` is node `i`. -/
inductive Cmd where
  | setV (i : ℕ)
  | setValid (i : ℕ)
  | tryInsert (i : ℕ)
  | tryInsertNoExpand (i : ℕ)
  | tryDetachAndSynchronize (i : ℕ)
  | invalidate
  | find (i : ℕ)
  | synchronize
  | expandBuckets2x
  | shrinkBuckets2x
  | start
  | finish
  | join
  deriving DecidableEq

/-- Where a reader stands; `broken`: it has thrown. -/
inductive ReaderPc where
  | loop
  | lock (i : ℕ)
  | finding (i : ℕ)
  | unlock (i : ℕ) (found : Bool)
  | done
  | broken
  deriving DecidableEq

/-- What the tests differ in: the statements of the main thread, the number of elements that the readers look up,
and what a reader checks before and after its `rTableReadUnlock`. -/
structure Test where
  script : List Cmd
  nrKept : ℕ
  inside : Bool → Bool → Bool
  outside : Bool → Bool

/-- `todo` begins with the statement that the main thread is at, and `calling` says that its call is under way;
`broken`: it has thrown, or followed a null pointer. -/
structure State (T φ : Type) where
  rTable : TableSys T Val φ
  todo : List Cmd
  calling : Bool
  pEntry : Option Ptr
  started : Bool
  finished : Bool
  broken : Bool
  reader : T → ReaderPc

inductive StressAct (T : Type) where
  | loop (t : T)
  | lock (t : T)
  | enter (t : T)
  | begin (t : T)
  | read (t : T)
  | finish (t : T)
  | unlock (t : T)
  | main
  | write
  | return
  deriving DecidableEq

instance {T : Type} : Inhabited (StressAct T) := ⟨.write⟩

section Code

variable {T φ : Type} (test : Test) (myHash : ℕ → ℕ)

/-- The call of a statement. -/
def Cmd.op : Cmd → Option (Op Val φ)
  | .tryInsert i => some (.tryInsert i (myHash i) equal)
  | .tryInsertNoExpand i => some (.tryInsertNoExpand i (myHash i) equal)
  | .tryDetachAndSynchronize i => some (.tryDetachAndSynchronize (myHash i) (hasValue i))
  | .find i => some (.find (myHash i) (hasValue i))
  | .synchronize => some .synchronize
  | .expandBuckets2x => some .expandBuckets2x
  | .shrinkBuckets2x => some .shrinkBuckets2x
  | _ => none

/-- The element that a statement writes, and what it then is. -/
def Cmd.assigns (h : Heap Val φ) (pEntry : Option Ptr) : Cmd → Option (ℕ × Val)
  | .setV i => some (i, { h.key (.node i) with v := i })
  | .setValid i => some (i, { h.key (.node i) with valid := true })
  | .invalidate => match pEntry with
    | some (.node n) => some (n, { h.key (.node n) with valid := false })
    | _ => none
  | _ => none

/-- The `if` behind a call that does not throw. -/
def Cmd.accepts : Cmd → Res → Bool
  | .tryInsert _, .bool inserted | .tryInsertNoExpand _, .bool inserted => inserted
  | .find _, .node p => p.isSome
  | _, _ => true

/-- `pEntry` after a call. -/
def Cmd.entry (pEntry : Option Ptr) : Cmd → Res → Option Ptr
  | .tryDetachAndSynchronize _, .node p => p
  | _, _ => pEntry

namespace State

/-- The head of a reader's inner loop. -/
def nextLook (i : ℕ) : ReaderPc := if i < test.nrKept then .lock i else .loop

/-- The readers after a step of the table. -/
def nextReader [DecidableEq T] (s : State T φ) : StressAct T → T → ReaderPc
  | .begin t => Function.update s.reader t <| match s.reader t with
    | .lock i => .finding i
    | pc => pc
  | .finish t => Function.update s.reader t <| match s.reader t, (s.rTable.reader t).find with
    | .finding i, some (.ret p) =>
      if test.inside p.isSome (s.rTable.heap.key (.node i)).valid then .unlock i p.isSome else .broken
    | pc, _ => pc
  | .unlock t => Function.update s.reader t <| match s.reader t with
    | .unlock i found => if test.outside found then nextLook test (i + 1) else .broken
    | pc => pc
  | _ => s.reader

/-- The step of the table that a step is, if it is one. -/
def tableAct (s : State T φ) : StressAct T → Option (TableAct T Val φ)
  | .loop _ => none
  | .lock t => match s.reader t with
    | .lock _ => some (.lock t)
    | _ => none
  | .enter t => match s.reader t with
    | .lock _ => some (.enter t)
    | _ => none
  | .begin t => match s.reader t with
    | .lock i => some (.begin t (myHash i) (hasValue i))
    | _ => none
  | .read t => match s.reader t with
    | .finding _ => some (.read t)
    | _ => none
  | .finish t => match s.reader t with
    | .finding _ => some (.finish t)
    | _ => none
  | .unlock t => match s.reader t with
    | .unlock _ _ => some (.unlock t)
    | _ => none
  | .main => match s.calling, s.todo with
    | false, c :: _ => match c.op myHash with
      | some op => some (.call op)
      | none => (c.assigns s.rTable.heap s.pEntry).map fun e =>
          .prepare e.1 (s.rTable.heap.hash (.node e.1)) e.2
    | _, _ => none
  | .write => if s.calling then some .write else none
  | .return => if s.calling then some .return else none

variable [DecidableEq T]

/-- The threads after a step of the table. -/
def after (s : State T φ) (a : StressAct T) (rTable : TableSys T Val φ) : State T φ :=
  let s' := { s with rTable := rTable, reader := s.nextReader test a }
  match a, s.todo with
  | .main, c :: cs => if (c.op (φ := φ) myHash).isSome then { s' with calling := true } else { s' with todo := cs }
  | .return, c :: cs => match s.rTable.writer with
    | some (_, .ret res) =>
      if c.accepts res then { s' with todo := cs, calling := false, pEntry := c.entry s.pEntry res }
      else { s' with todo := [], calling := false, broken := true }
    | _ => s'
  | _, _ => s'

/-- The steps beside the table. -/
def control [Fintype T] (s : State T φ) : StressAct T → Option (State T φ)
  | .loop t => match s.started, s.reader t with
    | true, .loop =>
      some { s with reader := Function.update s.reader t (if s.finished then .done else nextLook test 0) }
    | _, _ => none
  | .main => match s.calling, s.todo with
    | false, .start :: cs => some { s with todo := cs, started := true }
    | false, .finish :: cs => some { s with todo := cs, finished := true }
    | false, .join :: cs => if ∀ t, s.reader t = .done then some { s with todo := cs } else none
    | false, .invalidate :: _ => match s.pEntry with
      | none => some { s with todo := [], broken := true }
      | some _ => none
    | _, _ => none
  | _ => none

variable [Fintype T] (cfg : ZoneCfg) (hash : T → ℕ) (fl : FloatOps φ)

def step (s : State T φ) (a : StressAct T) : Option (State T φ) :=
  match s.tableAct myHash a with
  | some b => (s.rTable.step cfg hash fl b).map (s.after test myHash a)
  | none => s.control test a

/-- After `rTableInitDetailed`. -/
structure Init (s : State T φ) : Prop where
  rTable : s.rTable.Init cfg
  todo : s.todo = test.script
  calling : s.calling = false
  started : s.started = false
  finished : s.finished = false
  broken : s.broken = false
  reader : ∀ t, s.reader t = .loop

end State

end Code

/-! ### The tests -/

/-- One turn of an inserting loop, and of the erasing one. -/
def insertElement (i : ℕ) : List Cmd := [.setV i, .setValid i, .tryInsert i]
def eraseElement (i : ℕ) : List Cmd := [.tryDetachAndSynchronize i, .invalidate]

/-- `RCUTableNormalUsageStress::run`. -/
def normalUsage (nrRounds sizePersist sizeTotal : ℕ) : Test where
  script :=
    let rest := List.range' sizePersist (sizeTotal - sizePersist)
    (List.range' 0 sizePersist).flatMap insertElement ++ [.start, .synchronize] ++ rest.flatMap insertElement ++
      (List.replicate nrRounds (rest.flatMap eraseElement ++ rest.flatMap insertElement)).flatten ++
      [.finish, .join] ++ (List.range' 0 sizePersist).flatMap fun i => [.find i]
  nrKept := sizePersist
  inside found valid := !(found && !valid)
  outside found := found

/-- A round of the second test. -/
def expandShrink : List Cmd :=
  [.expandBuckets2x, .expandBuckets2x, .expandBuckets2x, .shrinkBuckets2x, .shrinkBuckets2x, .shrinkBuckets2x]

/-- `RCUTableManualStressExpandShrink::run` with one of its tables; `myHash` takes the seed. -/
def manualExpandShrink (nrRounds sizeTotal : ℕ) : Test where
  script :=
    (List.range' 0 sizeTotal).flatMap (fun i => [.setV i, .tryInsertNoExpand i]) ++ [.start] ++
      (List.replicate nrRounds expandShrink).flatten ++ [.finish, .join]
  nrKept := sizeTotal
  inside found _ := found
  outside _ := true

/-! ### The tests as sequential programs -/

/-- What the main thread knows when it is alone: the elements in the table, its own data, the number of buckets
when no call has been at liberty to change it, and whether the readers run. -/
structure Plan where
  linked : ℕ → Prop
  arr : ℕ → Val
  pEntry : Option ℕ
  started : Bool
  nrBuckets : Option ℕ

/-- An element is written. -/
def Plan.assign (e : Plan) (i : ℕ) (v : Val) : Plan := { e with arr := Function.update e.arr i v }

/-- What a statement asks for. -/
def Cmd.Pre (test : Test) (e : Plan) : Cmd → Prop
  | .setV i | .setValid i => ¬ e.linked i
  | .tryInsert i | .tryInsertNoExpand i => ¬ e.linked i ∧ (e.arr i).v = i
  | .tryDetachAndSynchronize i => e.linked i ∧ (e.started = true → test.nrKept ≤ i)
  | .invalidate => ∃ i, e.pEntry = some i ∧ ¬ e.linked i
  | .find i => e.linked i
  | .start => ∀ i < test.nrKept, e.linked i ∧ test.inside true (e.arr i).valid = true
  | _ => True

/-- What a statement leaves. -/
def Cmd.post (e : Plan) : Cmd → Plan
  | .setV i => e.assign i { e.arr i with v := i }
  | .setValid i => e.assign i { e.arr i with valid := true }
  | .tryInsert i => { e with linked := fun k => e.linked k ∨ k = i, nrBuckets := none }
  | .tryInsertNoExpand i => { e with linked := fun k => e.linked k ∨ k = i }
  | .tryDetachAndSynchronize i =>
    { e with linked := fun k => e.linked k ∧ k ≠ i, pEntry := some i, nrBuckets := none }
  | .invalidate => match e.pEntry with
    | some i => e.assign i { e.arr i with valid := false }
    | none => e
  | .expandBuckets2x => { e with nrBuckets := e.nrBuckets.map (2 * ·) }
  | .shrinkBuckets2x => { e with nrBuckets := e.nrBuckets.map fun n => if n = 1 then 1 else n / 2 }
  | .start => { e with started := true }
  | .find _ | .synchronize | .finish | .join => e

/-- Each statement finds what it asks for, and `Q` holds at the end. -/
def Goes (test : Test) : List Cmd → (Plan → Prop) → Plan → Prop
  | [], Q, e => Q e
  | c :: cs, Q, e => c.Pre test e ∧ Goes test cs Q (c.post e)

section Rules

variable {test : Test} {Q Q' : Plan → Prop} {cs ds : List Cmd} {e : Plan}

theorem goes_append : Goes test (cs ++ ds) Q e ↔ Goes test cs (Goes test ds Q) e := by
  induction cs generalizing e with
  | nil => exact Iff.rfl
  | cons c cs ih => exact and_congr_right fun _ => ih

theorem Goes.mono (hg : Goes test cs Q e) (hQ : ∀ e, Q e → Q' e) : Goes test cs Q' e := by
  induction cs generalizing e with
  | nil => exact hQ e hg
  | cons c cs ih => exact ⟨hg.1, ih hg.2⟩

theorem Goes.append (hg : Goes test cs Q e) (hQ : ∀ e, Q e → Goes test ds Q' e) : Goes test (cs ++ ds) Q' e :=
  goes_append.mpr (hg.mono hQ)

/-- A loop over elements, with an invariant for its head. -/
theorem goes_range {I : ℕ → Plan → Prop} {body : ℕ → List Cmd} : ∀ {n lo : ℕ} {e : Plan}, I lo e →
    (∀ i e, lo ≤ i → i < lo + n → I i e → Goes test (body i) (I (i + 1)) e) →
    Goes test ((List.range' lo n).flatMap body) (I (lo + n)) e := by
  intro n
  induction n with
  | zero => exact fun hI _ => hI
  | succ n ih =>
    intro lo e hI hbody
    rw [List.range'_succ, List.flatMap_cons]
    refine (hbody lo e le_rfl (by omega) hI).append fun e' hI' => ?_
    have hrest := ih hI' fun i e h1 h2 => hbody i e (by omega) (by omega)
    rwa [Nat.add_right_comm] at hrest

/-- A loop of rounds. -/
theorem goes_rounds {I : Plan → Prop} {n : ℕ} (hI : I e) (hround : ∀ e, I e → Goes test cs I e) :
    Goes test (List.replicate n cs).flatten I e := by
  induction n generalizing e with
  | zero => exact hI
  | succ n ih =>
    rw [List.replicate_succ, List.flatten_cons]
    exact (hround e hI).append fun e' hI' => ih hI'

end Rules

/-! ### The tests are right -/

/-- The test is right as a sequential program. -/
structure Test.Right (test : Test) (Q : Plan → Plan → Prop) : Prop where
  script : ∀ e : Plan, (∀ k, ¬ e.linked k) → e.started = false → Goes test test.script (Q e) e
  outside : test.outside true = true

section Tests

variable {test : Test} {S : ℕ → Prop} {b : Bool} {Q : Plan → Prop} {e : Plan} {i n k : ℕ} {v : Val}

theorem Plan.assign_arr_self : (e.assign n v).arr n = v := Function.update_self ..

theorem Plan.assign_arr_of_ne (hne : k ≠ n) : (e.assign n v).arr k = e.arr k := Function.update_of_ne hne ..

theorem Plan.assign_arr_of_linked (hn : ¬ e.linked n) (hk : e.linked k) : (e.assign n v).arr k = e.arr k :=
  assign_arr_of_ne fun hkn => hn (hkn ▸ hk)

/-- The elements of `S` are in the table, each `valid`. -/
structure Holds (S : ℕ → Prop) (started : Bool) (e : Plan) : Prop where
  linked : ∀ k, e.linked k ↔ S k
  valid : ∀ k, S k → (e.arr k).valid = true
  started : e.started = started

theorem Holds.congr {S' : ℕ → Prop} (h : Holds S b e) (hS : ∀ k, S' k ↔ S k) : Holds S' b e where
  linked k := by rw [hS, h.linked]
  valid k hk := h.valid k ((hS k).mp hk)
  started := h.started

theorem Holds.assign (h : Holds S b e) {n : ℕ} (hn : ¬ S n) (v : Val) : Holds S b (e.assign n v) where
  linked := h.linked
  valid k hk := by
    rw [Plan.assign_arr_of_linked (fun hl => hn ((h.linked n).mp hl)) ((h.linked k).mpr hk)]
    exact h.valid k hk
  started := h.started

theorem goes_insertElement (h : Holds S b e) (hi : ¬ S i)
    (hQ : ∀ e', Holds (fun k => S k ∨ k = i) b e' → Q e') : Goes test (insertElement i) Q e := by
  have hnot : ¬ e.linked i := fun hl => hi ((h.linked i).mp hl)
  refine ⟨hnot, hnot, ⟨hnot, ?_⟩, hQ _ ⟨fun k => ?_, fun k hk => ?_, h.started⟩⟩
  · simp [Cmd.post, Plan.assign]
  · exact or_congr_left (h.linked k)
  · rcases hk with hk | rfl
    · exact ((h.assign hi _).assign hi _).valid k hk
    · simp [Cmd.post, Plan.assign]

theorem goes_eraseElement (h : Holds S b e) (hi : S i) (hkept : test.nrKept ≤ i)
    (hQ : ∀ e', Holds (fun k => S k ∧ k ≠ i) b e' → Q e') : Goes test (eraseElement i) Q e := by
  have hrest : Holds (fun k => S k ∧ k ≠ i) b (Cmd.post e (.tryDetachAndSynchronize i)) :=
    ⟨fun k => and_congr_left fun _ => h.linked k, fun k hk => h.valid k hk.1, h.started⟩
  refine ⟨⟨(h.linked i).mpr hi, fun _ => hkept⟩, ⟨i, rfl, fun hl => hl.2 rfl⟩, hQ _ ?_⟩
  exact hrest.assign (fun hs => hs.2 rfl) _

/-- An inserting loop. -/
theorem goes_insertElements {lo n : ℕ} (h : Holds (· < lo) b e) :
    Goes test ((List.range' lo n).flatMap insertElement) (Holds (· < lo + n) b) e :=
  goes_range (I := fun i => Holds (· < i) b) h fun i _ _ _ hi =>
    goes_insertElement hi (Nat.lt_irrefl i) fun _ h' => h'.congr fun _ => Nat.lt_succ_iff_lt_or_eq

/-- The erasing loop. -/
theorem goes_eraseElements {lo n : ℕ} (h : Holds (· < lo + n) b e) (hkept : test.nrKept ≤ lo) :
    Goes test ((List.range' lo n).flatMap eraseElement) (Holds (· < lo) b) e := by
  have hstart : Holds (fun k => k < lo ∨ lo ≤ k ∧ k < lo + n) b e := h.congr fun k => by omega
  have hend : Goes test ((List.range' lo n).flatMap eraseElement)
      (Holds (fun k => k < lo ∨ lo + n ≤ k ∧ k < lo + n) b) e := by
    refine goes_range (I := fun i => Holds (fun k => k < lo ∨ i ≤ k ∧ k < lo + n) b) hstart fun i e h1 h2 hi => ?_
    exact goes_eraseElement hi (by omega) (by omega) fun e' h' => h'.congr fun k => by omega
  exact hend.mono fun e he => he.congr fun k => by omega

/-- The first test: while it runs the elements in front of `sizePersist` stay, and at its end all are there. -/
theorem normalUsage_right {nrRounds sizePersist sizeTotal : ℕ} (hsize : sizePersist ≤ sizeTotal) :
    (normalUsage nrRounds sizePersist sizeTotal).Right fun _ e => ∀ k, e.linked k ↔ k < sizeTotal := by
  refine ⟨fun e hempty hstarted => ?_, rfl⟩
  obtain ⟨n, rfl⟩ := Nat.exists_eq_add_of_le hsize
  have hfirst : Holds (· < 0) false e :=
    ⟨fun k => iff_of_false (hempty k) (Nat.not_lt_zero k), fun k hk => absurd hk (Nat.not_lt_zero k), hstarted⟩
  dsimp only [normalUsage]
  rw [Nat.add_sub_cancel_left]
  -- from the last loop to the first
  refine Goes.append (Q := Holds (· < sizePersist + n) true) ?_ fun e he => ?_
  swap
  · refine (goes_range (I := fun _ => Holds (· < sizePersist + n) true) he fun i e _ hi he => ?_).mono
      fun e he => he.linked
    exact ⟨(he.linked i).mpr (by omega), he⟩
  refine Goes.append (Q := Holds (· < sizePersist + n) true) ?_ fun e he => ⟨trivial, trivial, he⟩
  refine Goes.append (Q := Holds (· < sizePersist + n) true) ?_ fun e he => goes_rounds he fun e he =>
    (goes_eraseElements he le_rfl).append fun e he => goes_insertElements he
  refine Goes.append (Q := Holds (· < sizePersist) true) ?_ fun e he => goes_insertElements he
  refine Goes.append (goes_insertElements hfirst) fun e he => ?_
  rw [Nat.zero_add] at he
  exact ⟨fun i hi => ⟨(he.linked i).mpr hi, by simp [he.valid i hi]⟩, trivial, he.linked, he.valid, rfl⟩

/-- The second test: its resizes leave the number of buckets that the table began with. -/
theorem manualExpandShrink_right {nrRounds sizeTotal : ℕ} : (manualExpandShrink nrRounds sizeTotal).Right
    fun e0 e => (∀ k, e.linked k ↔ k < sizeTotal) ∧ e.nrBuckets = e0.nrBuckets := by
  refine ⟨fun e0 hempty hstarted => ?_, rfl⟩
  have hhalf : ∀ n, (if 2 * n = 1 then 1 else 2 * n / 2) = n := by
    intro n
    rw [if_neg (by omega)]
    omega
  have hround : ∀ o : Option ℕ, ((o.map (2 * ·)).map fun n => if n = 1 then 1 else n / 2) = o := by
    intro o
    cases o with
    | none => rfl
    | some n => exact congrArg some (hhalf n)
  have hfirst : (∀ k, e0.linked k ↔ k < 0) ∧ e0.nrBuckets = e0.nrBuckets :=
    ⟨fun k => iff_of_false (hempty k) (Nat.not_lt_zero k), rfl⟩
  dsimp only [manualExpandShrink]
  let I : ℕ → Plan → Prop := fun i e => (∀ k, e.linked k ↔ k < i) ∧ e.nrBuckets = e0.nrBuckets
  refine Goes.append (Q := I sizeTotal) ?_ fun e he => ⟨trivial, trivial, he⟩
  refine Goes.append (Q := I sizeTotal) ?_ fun e he => goes_rounds he fun e he => ?_
  · refine Goes.append (Q := I sizeTotal) ?_ fun e he => ⟨fun i hi => ⟨(he.1 i).mpr hi, rfl⟩, he⟩
    refine (goes_range (I := I) hfirst fun i e _ _ he => ?_).mono fun e he => by rwa [Nat.zero_add] at he
    have hnot : ¬ e.linked i := fun hl => Nat.lt_irrefl i ((he.1 i).mp hl)
    refine ⟨hnot, ⟨hnot, ?_⟩, fun k => ?_, he.2⟩
    · simp [Cmd.post, Plan.assign]
    · exact (or_congr_left (he.1 k)).trans Nat.lt_succ_iff_lt_or_eq.symm
  · refine ⟨trivial, trivial, trivial, trivial, trivial, trivial, he.1, ?_⟩
    simp only [Cmd.post, hround]
    exact he.2

end Tests

/-! ### The calls of the main thread -/

/-- Elements are compared by `v`. -/
def valKeys (myHash : ℕ → ℕ) : KeySpec Val where
  same a b := a.v == b.v
  equivalence := ⟨fun _ => beq_self_eq_true _, fun h => beq_iff_eq.mpr (beq_iff_eq.mp h).symm,
    fun h1 h2 => beq_iff_eq.mpr ((beq_iff_eq.mp h1).trans (beq_iff_eq.mp h2))⟩
  hashOf a := myHash a.v
  hash_eq a b h := by rw [beq_iff_eq.mp h]

/-- What a call is to return. -/
def Cmd.Gives : Cmd → Res → Prop
  | .tryInsert _, res | .tryInsertNoExpand _, res => res = .bool true
  | .tryDetachAndSynchronize i, res | .find i, res => res = .node (some (.node i))
  | _, _ => True

theorem Cmd.Gives.accepts {c : Cmd} {res : Res} (hg : c.Gives res) : c.accepts res = true := by
  cases c with
  | tryInsert | tryInsertNoExpand | find =>
    obtain rfl := hg
    rfl
  | _ => rfl

section Calls

variable {φ : Type} {test : Test} {myHash : ℕ → ℕ} {fl : FloatOps φ} {h h' : Heap Val φ} {g g' : View} {e : Plan}
  {i m : ℕ}

/-- The table and the data are as the main thread knows them. -/
structure Meets (h : Heap Val φ) (e : Plan) : Prop where
  linked : ∀ q, h.Linked q ↔ ∃ k, e.linked k ∧ q = .node k
  arr : ∀ k, h.key (.node k) = e.arr k
  value : ∀ k, e.linked k → (e.arr k).v = k
  nrBuckets : ∀ n, e.nrBuckets = some n → h.nrBuckets = n

theorem Meets.of_linked (he : Meets h e) (hr : Rep h g) {q : Ptr} (hq : g.Linked q) :
    ∃ k, e.linked k ∧ q = .node k ∧ (h.key q).v = k := by
  obtain ⟨k, hk, rfl⟩ := (he.linked q).mp (hr.linked_heap.mpr hq)
  exact ⟨k, hk, rfl, by rw [he.arr, he.value k hk]⟩

theorem Meets.not_linked (he : Meets h e) (hi : ¬ e.linked i) : ¬ h.Linked (.node i) := by
  intro hl
  obtain ⟨k, hk, hik⟩ := (he.linked _).mp hl
  injection hik with hik
  exact hi (hik ▸ hk)

/-- The search for an element of the table finds it. -/
theorem Meets.find (he : Meets h e) (hf : Flat h g) (hk : KeysOk (valKeys myHash) h g) (hi : e.linked i) :
    (g.chain (g.slot (myHash i))).find? (hasValue i h) = some (.node i) := by
  have hlinked : g.Linked (.node i) := hf.linked_heap.mp ((he.linked _).mpr ⟨i, hi, rfl⟩)
  have hvalue : hasValue i h (.node i) = true := by
    show ((h.key (.node i)).v == i) = true
    rw [he.arr, he.value i hi]
    exact beq_self_eq_true i
  have hmem : Ptr.node i ∈ g.chain (g.slot ((valKeys myHash).hashOf ⟨i, true⟩)) := hk.mem_slot hf hlinked hvalue
  cases hfind : (g.chain (g.slot (myHash i))).find? (hasValue i h) with
  | none => exact absurd hvalue (List.find?_eq_none.mp hfind _ hmem)
  | some q =>
    obtain ⟨k, -, rfl, hv⟩ := he.of_linked hf.toRep ⟨_, hf.slot_lt _, List.mem_of_find?_eq_some hfind⟩
    have hmatch : hasValue i h (.node k) = true := List.find?_some hfind
    rw [hv.symm.trans (beq_iff_eq.mp hmatch)]

/-- The insert of an element whose value is not in the table. -/
theorem Meets.insert (he : Meets h e) (hf : Flat h g) (hi : ¬ e.linked i) (hv : (e.arr i).v = i) {b : Bool}
    (hp : InsertPost h g i (myHash i) equal m b h' g') {o : Option ℕ} (hn : ∀ n, o = some n → m = n) :
    b = true ∧ h'.key = h.key ∧ Meets h' { e with linked := fun k => e.linked k ∨ k = i, nrBuckets := o } := by
  rcases hp with ⟨-, ⟨q, hq, hmatch⟩, -⟩ | ⟨rfl, -, hs⟩
  · obtain ⟨k, hk, rfl, hkv⟩ := he.of_linked hf.toRep ⟨_, hf.slot_lt _, hq⟩
    have hsame : (h.key (.node k)).v = (h.key (.node i)).v := beq_iff_eq.mp hmatch
    rw [hkv, he.arr, hv] at hsame
    exact absurd hk (hsame ▸ hi)
  · have hkey : h'.key = h.key := hs.key
    refine ⟨rfl, hkey, fun q => ?_, fun k => hkey ▸ he.arr k, ?_, fun n hno => ?_⟩
    · rw [hs.flat.linked_heap, hs.linked, ← hf.linked_heap, he.linked]
      constructor
      · rintro (⟨k, hk, rfl⟩ | rfl)
        · exact ⟨k, .inl hk, rfl⟩
        · exact ⟨i, .inr rfl, rfl⟩
      · rintro ⟨k, hk | rfl, rfl⟩
        · exact .inl ⟨k, hk, rfl⟩
        · exact .inr rfl
    · rintro k (hk | rfl)
      · exact he.value k hk
      · exact hv
    · rw [hs.flat.nrBuckets, hs.n]
      exact hn n hno

/-- A call that leaves the nodes of the table. -/
theorem Meets.settled (he : Meets h e) (hf : Flat h g) {size : ℕ} {D : Ptr → Prop}
    (hs : Settled h g.Linked m size D h' g') {o : Option ℕ} (hn : ∀ n, o = some n → m = n) :
    h'.key = h.key ∧ Meets h' { e with nrBuckets := o } := by
  refine ⟨hs.key, fun q => ?_, fun k => hs.key ▸ he.arr k, he.value, fun n hno => ?_⟩
  · rw [hs.flat.linked_heap, hs.linked, ← hf.linked_heap, he.linked]
  · rw [hs.flat.nrBuckets, hs.n]
    exact hn n hno

theorem Meets.detach (he : Meets h e) (hf : Flat h g) (hk : KeysOk (valKeys myHash) h g) (hi : e.linked i)
    {D : Ptr → Ptr → Prop} {p : Option Ptr} (hp : DetachPost h g (myHash i) (hasValue i) m D p h' g') :
    p = some (.node i) ∧ h'.key = h.key ∧
      Meets h' { e with linked := fun k => e.linked k ∧ k ≠ i, pEntry := some i, nrBuckets := none } := by
  obtain ⟨hfind, ⟨hnone, -⟩ | ⟨q, hq, hs⟩⟩ := hp
  · rw [hnone, he.find hf hk hi] at hfind
    cases hfind
  · rw [he.find hf hk hi] at hfind
    obtain rfl : q = .node i := Option.some.inj (hq.symm.trans hfind)
    refine ⟨hfind, hs.key, fun q => ?_, fun k => hs.key ▸ he.arr k, fun k hk => he.value k hk.1,
      fun n hno => by cases hno⟩
    rw [hs.flat.linked_heap, hs.linked, ← hf.linked_heap, he.linked]
    constructor
    · rintro ⟨⟨k, hk, rfl⟩, hne⟩
      exact ⟨k, ⟨hk, fun hki => hne (by rw [hki])⟩, rfl⟩
    · rintro ⟨k, ⟨hk, hne⟩, rfl⟩
      exact ⟨⟨k, hk, rfl⟩, fun hki => hne (by injection hki)⟩

/-- The node that a call brings in is not in the table. -/
theorem Cmd.own_free {c : Cmd} {op : Op Val φ} (hop : c.op myHash = some op) (hpre : c.Pre test e) {p : Ptr}
    (hp : op.own p) : ∃ i, ¬ e.linked i ∧ p = .node i := by
  cases c with
  | tryInsert i | tryInsertNoExpand i =>
    obtain rfl := Option.some.inj hop
    exact ⟨i, hpre.1, hp⟩
  | tryDetachAndSynchronize | find | synchronize | expandBuckets2x | shrinkBuckets2x =>
    obtain rfl := Option.some.inj hop
    exact hp.elim
  | _ => cases hop

/-- Every call goes by key. -/
theorem Meets.keyed (he : Meets h e) {c : Cmd} {op : Op Val φ} (hop : c.op myHash = some op)
    (hpre : c.Pre test e) : op = .synchronize ∨
      ∃ k : KeyOp Val, op = k.op (valKeys myHash) h ∧ k.Allowed (valKeys myHash) h := by
  have hkey : ∀ i, (e.arr i).v = i → myHash i = (valKeys myHash).hashOf (h.key (.node i)) := by
    intro i hv
    show myHash i = myHash (h.key (.node i)).v
    rw [he.arr, hv]
  cases c with
  | tryInsert i =>
    obtain rfl := Option.some.inj hop
    exact .inr ⟨.tryInsert i, congrArg (Op.tryInsert i · _) (hkey i hpre.2), trivial⟩
  | tryInsertNoExpand i =>
    obtain rfl := Option.some.inj hop
    exact .inr ⟨.tryInsertNoExpand i, congrArg (Op.tryInsertNoExpand i · _) (hkey i hpre.2), trivial⟩
  | tryDetachAndSynchronize i =>
    obtain rfl := Option.some.inj hop
    exact .inr ⟨.tryDetachAndSynchronize ⟨i, true⟩, rfl, trivial⟩
  | find i =>
    obtain rfl := Option.some.inj hop
    exact .inr ⟨.find ⟨i, true⟩, rfl, trivial⟩
  | synchronize =>
    obtain rfl := Option.some.inj hop
    exact .inl rfl
  | expandBuckets2x =>
    obtain rfl := Option.some.inj hop
    exact .inr ⟨.expandBuckets2x, rfl, trivial⟩
  | shrinkBuckets2x =>
    obtain rfl := Option.some.inj hop
    exact .inr ⟨.shrinkBuckets2x, rfl, trivial⟩
  | _ => cases hop

/-- **A call of the main thread**, alone: it returns what it is to return, and leaves what it is to leave. -/
theorem Meets.call (he : Meets h e) (hf : Flat h g) (hk : KeysOk (valKeys myHash) h g) {c : Cmd} {op : Op Val φ}
    (hop : c.op myHash = some op) (hpre : c.Pre test e) :
    ∃ res h', (op.code fl).Returns exec h res h' ∧ h'.key = h.key ∧ c.Gives res ∧ Meets h' (c.post e) := by
  have hfree : ∀ p, op.own p → ¬ h.Linked p := by
    intro p hp
    obtain ⟨i, hi, rfl⟩ := Cmd.own_free hop hpre hp
    exact he.not_linked hi
  obtain ⟨⟨res, h', hret⟩, hpost⟩ := Op.total fl hf hfree
  obtain ⟨g', hp⟩ := hpost _ _ hret
  refine ⟨res, h', hret, ?_⟩
  have hn : ∀ n, e.nrBuckets = some n → g.n = n := fun n hn => hf.nrBuckets ▸ he.nrBuckets n hn
  cases c with
  | tryInsert i =>
    obtain rfl := Option.some.inj hop
    obtain ⟨b, rfl, hp⟩ := hp
    obtain ⟨rfl, hkey, he'⟩ := he.insert hf hpre.1 hpre.2 hp (o := none) fun n hno => by cases hno
    exact ⟨hkey, rfl, he'⟩
  | tryInsertNoExpand i =>
    obtain rfl := Option.some.inj hop
    obtain ⟨b, rfl, hp⟩ := hp
    obtain ⟨rfl, hkey, he'⟩ := he.insert hf hpre.1 hpre.2 hp hn
    exact ⟨hkey, rfl, he'⟩
  | tryDetachAndSynchronize i =>
    obtain rfl := Option.some.inj hop
    obtain ⟨p, rfl, hp⟩ := hp
    obtain ⟨rfl, hkey, he'⟩ := he.detach hf hk hpre.1 hp
    exact ⟨hkey, rfl, he'⟩
  | find i =>
    obtain rfl := Option.some.inj hop
    obtain ⟨rfl, rfl, -⟩ := hp
    exact ⟨rfl, congrArg Res.node (he.find hf hk hpre), he⟩
  | synchronize =>
    obtain rfl := Option.some.inj hop
    obtain ⟨-, rfl, -⟩ := hp
    exact ⟨rfl, trivial, he⟩
  | expandBuckets2x =>
    obtain rfl := Option.some.inj hop
    obtain ⟨-, hs⟩ := hp
    obtain ⟨hkey, he'⟩ := he.settled hf hs (o := e.nrBuckets.map (2 * ·)) fun n hno => by
      obtain ⟨n0, hn0, rfl⟩ := Option.map_eq_some_iff.mp hno
      rw [hn n0 hn0]
    exact ⟨hkey, trivial, he'⟩
  | shrinkBuckets2x =>
    obtain rfl := Option.some.inj hop
    have hhalf : ∀ n, (e.nrBuckets.map fun n => if n = 1 then 1 else n / 2) = some n →
        (if g.n = 1 then 1 else g.n / 2) = n := by
      intro n hno
      obtain ⟨n0, hn0, rfl⟩ := Option.map_eq_some_iff.mp hno
      rw [hn n0 hn0]
    rcases hp with ⟨h1, -, rfl, -⟩ | ⟨h1, -, hs⟩
    · refine ⟨rfl, trivial, he.linked, he.arr, he.value, fun n hno => ?_⟩
      rw [hf.nrBuckets, h1, ← hhalf n hno, if_pos h1]
    · obtain ⟨hkey, he'⟩ := he.settled hf hs fun n hno => by
        rw [← hhalf n hno, if_neg h1]
      exact ⟨hkey, trivial, he'⟩
  | _ => cases hop

end Calls

end Stress

end RcuTable
