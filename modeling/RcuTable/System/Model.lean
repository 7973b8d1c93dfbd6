import RcuTable.Table.Session
import RcuTable.Zone.Accounting
import RcuTable.Zone.Grace

/-!
# System.Model — one writer, any number of readers, and the zone between them

`TableSys.step` takes one atomic operation of one thread: of a reader in `rcuReadLock`, `rcuReadUnlock` or
`rTableCoreFind`, or of the writer in a call of RCUHashTableCoreApi.h.  Where the writer's program stands at
`rcuSynchronize`, its next step is the next one of that function in the zone, and the program goes on when the
function returns.
-/

namespace RcuTable

open Atomic Chain Trans

/-- What a reader has done in its critical section: the rest of its lookup, the nodes it has asked in this
lookup, and the nodes and arrays that it has loaded the address of. -/
structure Reading (K φ : Type) where
  find : Option (Code K φ (Option Ptr))
  asked : List Ptr
  held : List Ptr
  arrays : List ℕ

/-- `waiting`: detached nodes that no `rcuSynchronize` has waited for since. -/
structure TableSys (T K φ : Type) where
  zone : Zone T Unit
  heap : Heap K φ
  writer : Option (Op K φ × Code K φ Res)
  waiting : List Ptr
  reader : T → Reading K φ

inductive TableAct (T K φ : Type) where
  | lock (t : T)
  | enter (t : T)
  | unlock (t : T)
  | begin (t : T) (hashVal : ℕ) (predict : Heap K φ → Ptr → Bool)
  | read (t : T)
  | finish (t : T)
  | call (op : Op K φ)
  | write
  | return
  | prepare (n hashVal : ℕ) (key : K)

instance {T K φ : Type} : Inhabited (TableAct T K φ) := ⟨.write⟩

variable {T K φ α : Type}

/-- The node that the writer's caller hands over to the table, or writes to. -/
def TableAct.brings : TableAct T K φ → Option ℕ
  | .call (.tryInsert n _ _) | .call (.tryInsertNoExpand n _ _) | .call (.insertNoExpand n) => some n
  | .prepare n _ _ => some n
  | _ => none

/-- What is left after the `rcuSynchronize` at which the program stands. -/
def afterSynchronize : Code K φ α → Option (Code K φ α)
  | .act .rcuSynchronize k => some (k ())
  | _ => none

/-- The node that the next operation asks. -/
def asks : Code K φ α → List Ptr
  | .act (.ask q _) _ => [q]
  | _ => []

/-- The node whose address the next operation loads. -/
def loads (h : Heap K φ) : Code K φ α → List Ptr
  | .act (.loadNext p) _ => (h.next p).toList
  | _ => []

/-- The array whose address the next operation loads. -/
def loadsInfo (h : Heap K φ) : Code K φ α → List ℕ
  | .act .loadInfo _ => [h.pBucketsInfo]
  | _ => []

/-- The detached node that its caller has yet to wait for. -/
def Op.retires : Op K φ → Res → List Ptr
  | .tryDetachNoShrink _ _, .node p => p.toList
  | .tryDetachAutoShrink _ _, .detached p false => p.toList
  | _, _ => []

namespace Reading

/-- Outside a critical section. -/
def outside : Reading K φ := ⟨none, [], [], []⟩

/-- The lookup begins. -/
def start (l : Reading K φ) (hashVal : ℕ) (predict : Heap K φ → Ptr → Bool) : Reading K φ :=
  { l with find := some (rTableCoreFind hashVal predict), asked := [] }

/-- One operation, which leaves the program `p'` of `p`. -/
def after (l : Reading K φ) (h : Heap K φ) (p p' : Code K φ (Option Ptr)) : Reading K φ where
  find := some p'
  asked := l.asked ++ asks p
  held := l.held ++ loads h p
  arrays := l.arrays ++ loadsInfo h p

end Reading

namespace TableSys

section Code

variable [DecidableEq T] (cfg : ZoneCfg) (hash : T → ℕ) (fl : FloatOps φ)

def setReader (s : TableSys T K φ) (t : T) (l : Reading K φ) : TableSys T K φ :=
  { s with reader := Function.update s.reader t l }

def setZone (s : TableSys T K φ) (z : Zone T Unit) : TableSys T K φ := { s with zone := z }

/-- One atomic step of the writer inside a call. -/
def write (s : TableSys T K φ) (op : Op K φ) (p : Code K φ Res) : Option (TableSys T K φ) :=
  match afterSynchronize p with
  | some p' =>
    let z := Zone.rcuSynchronize cfg s.zone ()
    match z.sync () with
    | .idle => some { s with zone := z, writer := some (op, p'), waiting := [] }
    | _ => some (s.setZone z)
  | none => (p.step exec s.heap).map fun r => { s with heap := r.2, writer := some (op, r.1) }

def step (s : TableSys T K φ) : TableAct T K φ → Option (TableSys T K φ)
  | .lock t => (Zone.step cfg hash s.zone (.lock t)).map s.setZone
  | .enter t => (Zone.step cfg hash s.zone (.read t)).map s.setZone
  | .unlock t =>
    match (s.reader t).find with
    | none => (Zone.step cfg hash s.zone (.unlock t)).map fun z => (s.setZone z).setReader t .outside
    | some _ => none
  | .begin t x f =>
    match s.zone.reader t, (s.reader t).find with
    | .inside _ _, none => some (s.setReader t ((s.reader t).start x f))
    | _, _ => none
  | .read t =>
    match (s.reader t).find with
    | some p => (p.step exec s.heap).map fun r =>
        { s with heap := r.2 }.setReader t ((s.reader t).after s.heap p r.1)
    | none => none
  | .finish t =>
    match (s.reader t).find with
    | some (.ret _) => some (s.setReader t { s.reader t with find := none })
    | _ => none
  | .call op =>
    match s.writer with
    | none => some { s with writer := some (op, op.code fl) }
    | some _ => none
  | .write =>
    match s.writer with
    | some (op, p) => s.write cfg op p
    | none => none
  | .return =>
    match s.writer with
    | some (op, .ret r) => some { s with writer := none, waiting := op.retires r ++ s.waiting }
    | _ => none
  | .prepare n x k =>
    match s.writer with
    | none => some { s with heap := s.heap.prepare n x k }
    | some _ => none

/-- A node that the caller may use for an insert: not linked, and not waiting for a grace period. -/
def Free (s : TableSys T K φ) (p : Ptr) : Prop := ¬ s.heap.Linked p ∧ p ∉ s.waiting

/-- What the writer's caller promises: nodes that are inserted, or written to, are free. -/
def Contract (s : TableSys T K φ) : TableAct T K φ → Prop
  | .call op => ∀ p, op.own p → s.Free p
  | .prepare n _ _ => s.Free (.node n)
  | _ => True

/-- A table that has just been set up, and nobody at work; threads may have registered as readers. -/
structure Init (s : TableSys T K φ) : Prop where
  zone : Zone.Init cfg s.zone
  table : ∃ (conf : RTableCoreConfig φ) (h : Heap K φ), Blank h ∧
    (rTableCoreInitDetailed conf).Returns exec h () s.heap
  writer : s.writer = none
  waiting : s.waiting = []
  reader : ∀ t, s.reader t = .outside

end Code

/-- A table right after its setup, with no thread registered. -/
def setUp (T : Type) (h : Heap K φ) : TableSys T K φ := ⟨.freshZone T Unit, h, none, [], fun _ => .outside⟩

theorem setUp_init [DecidableEq T] {cfg : ZoneCfg} {fl : FloatOps φ} {conf : RTableCoreConfig φ}
    {S : Session (K := K) fl conf} : Init cfg (setUp T (S.heap 0)) :=
  ⟨Zone.freshZone_init, ⟨conf, S.start⟩, rfl, rfl, fun _ => rfl⟩

theorem contract_of_brings {s : TableSys T K φ} {a : TableAct T K φ}
    (ha : ∀ n, a.brings = some n → s.Free (.node n)) : s.Contract a := by
  cases a with
  | call op =>
    intro p hp
    cases op with
    | tryInsert n | tryInsertNoExpand n | insertNoExpand n =>
      obtain rfl : p = .node n := hp
      exact ha n rfl
    | _ => exact absurd hp id
  | prepare n => exact ha n rfl
  | _ => trivial

theorem Contract.free {s : TableSys T K φ} {a : TableAct T K φ} {n : ℕ} (hc : s.Contract a)
    (hn : a.brings = some n) : s.Free (.node n) := by
  cases a with
  | call op =>
    cases op with
    | tryInsert | tryInsertNoExpand | insertNoExpand =>
      obtain rfl := Option.some.inj hn
      exact hc _ rfl
    | _ => cases hn
  | prepare =>
    obtain rfl := Option.some.inj hn
    exact hc
  | _ => cases hn

theorem free_of_nodes {s : TableSys T K φ} {fuel n : ℕ}
    (hn : (s.heap.nodes fuel).any (fun l => !l.contains (.node n)) = true)
    (hw : s.waiting.contains (.node n) = false) : s.Free (.node n) := by
  refine ⟨Heap.free_of_nodes hn _ rfl, ?_⟩
  intro hmem
  rw [List.contains_iff_mem.mpr hmem] at hw
  cases hw

section Fields

variable [DecidableEq T] (s : TableSys T K φ) {t t' : T} {l : Reading K φ} {z : Zone T Unit}

@[simp] theorem setReader_reader : (s.setReader t l).reader = Function.update s.reader t l := rfl

end Fields

/-! ### What a step can do -/

section Cases

variable [DecidableEq T] (cfg : ZoneCfg) (hash : T → ℕ) (fl : FloatOps φ)

/-- `TableSys.step` as a relation: one case for each thing that a step can do. -/
inductive Takes (s : TableSys T K φ) : TableAct T K φ → TableSys T K φ → Prop
  | lock {t : T} {z : Zone T Unit} (hz : Zone.step cfg hash s.zone (.lock t) = some z) :
      Takes s (.lock t) (s.setZone z)
  | enter {t : T} {z : Zone T Unit} (hz : Zone.step cfg hash s.zone (.read t) = some z) :
      Takes s (.enter t) (s.setZone z)
  | unlock {t : T} {z : Zone T Unit} (hf : (s.reader t).find = none)
      (hz : Zone.step cfg hash s.zone (.unlock t) = some z) :
      Takes s (.unlock t) ((s.setZone z).setReader t .outside)
  | begin {t : T} {x : ℕ} {f : Heap K φ → Ptr → Bool} (hin : (s.zone.reader t).Inside)
      (hf : (s.reader t).find = none) : Takes s (.begin t x f) (s.setReader t ((s.reader t).start x f))
  | read {t : T} {p p' : Code K φ (Option Ptr)} {h' : Heap K φ} (hf : (s.reader t).find = some p)
      (hp : p.step exec s.heap = some (p', h')) :
      Takes s (.read t) ({ s with heap := h' }.setReader t ((s.reader t).after s.heap p p'))
  | finish {t : T} {r : Option Ptr} (hf : (s.reader t).find = some (.ret r)) :
      Takes s (.finish t) (s.setReader t { s.reader t with find := none })
  | call {op : Op K φ} (hw : s.writer = none) : Takes s (.call op) { s with writer := some (op, op.code fl) }
  | wait {op : Op K φ} {p p' : Code K φ Res} (hw : s.writer = some (op, p))
      (hp : afterSynchronize p = some p') (hz : (Zone.rcuSynchronize cfg s.zone ()).sync () ≠ .idle) :
      Takes s .write (s.setZone (Zone.rcuSynchronize cfg s.zone ()))
  | synchronized {op : Op K φ} {p p' : Code K φ Res} (hw : s.writer = some (op, p))
      (hp : afterSynchronize p = some p') (hz : (Zone.rcuSynchronize cfg s.zone ()).sync () = .idle) :
      Takes s .write
        { s with zone := Zone.rcuSynchronize cfg s.zone (), writer := some (op, p'), waiting := [] }
  | store {op : Op K φ} {p p' : Code K φ Res} {h' : Heap K φ} (hw : s.writer = some (op, p))
      (hp : afterSynchronize p = none) (hs : p.step exec s.heap = some (p', h')) :
      Takes s .write { s with heap := h', writer := some (op, p') }
  | return {op : Op K φ} {r : Res} (hw : s.writer = some (op, .ret r)) :
      Takes s .return { s with writer := none, waiting := op.retires r ++ s.waiting }
  | prepare {n x : ℕ} {k : K} (hw : s.writer = none) :
      Takes s (.prepare n x k) { s with heap := s.heap.prepare n x k }

variable {cfg hash fl} {s s' : TableSys T K φ} {a : TableAct T K φ}

theorem write_cases {op : Op K φ} {p : Code K φ Res} (hw : s.writer = some (op, p))
    (hs : s.write cfg op p = some s') : Takes cfg hash fl s .write s' := by
  unfold write at hs
  split at hs
  case h_1 p' hp =>
    dsimp only at hs
    split at hs
    case h_1 hidle =>
      obtain rfl := Option.some.inj hs
      exact .synchronized hw hp hidle
    case h_2 hne =>
      obtain rfl := Option.some.inj hs
      exact .wait hw hp hne
  case h_2 hp =>
    obtain ⟨⟨p', h'⟩, hstep, rfl⟩ := Option.map_eq_some_iff.mp hs
    exact .store hw hp hstep

theorem step_cases (hs : s.step cfg hash fl a = some s') : Takes cfg hash fl s a s' := by
  cases a with
  | lock t =>
    obtain ⟨z, hz, rfl⟩ := Option.map_eq_some_iff.mp hs
    exact .lock hz
  | enter t =>
    obtain ⟨z, hz, rfl⟩ := Option.map_eq_some_iff.mp hs
    exact .enter hz
  | unlock t =>
    simp only [step] at hs
    split at hs
    case h_2 => cases hs
    case h_1 hf =>
      obtain ⟨z, hz, rfl⟩ := Option.map_eq_some_iff.mp hs
      exact .unlock hf hz
  | begin t x f =>
    simp only [step] at hs
    split at hs
    case h_2 => cases hs
    case h_1 b e hb hf =>
      obtain rfl := Option.some.inj hs
      exact .begin ⟨b, e, hb⟩ hf
  | read t =>
    simp only [step] at hs
    split at hs
    case h_2 => cases hs
    case h_1 p hf =>
      obtain ⟨⟨p', h'⟩, hp, rfl⟩ := Option.map_eq_some_iff.mp hs
      exact .read hf hp
  | finish t =>
    simp only [step] at hs
    split at hs
    case h_2 => cases hs
    case h_1 r hf =>
      obtain rfl := Option.some.inj hs
      exact .finish hf
  | call op =>
    simp only [step] at hs
    split at hs
    case h_2 => cases hs
    case h_1 hw =>
      obtain rfl := Option.some.inj hs
      exact .call hw
  | write =>
    simp only [step] at hs
    split at hs
    case h_2 => cases hs
    case h_1 hw => exact write_cases hw hs
  | «return» =>
    simp only [step] at hs
    split at hs
    case h_2 => cases hs
    case h_1 hw =>
      obtain rfl := Option.some.inj hs
      exact .return hw
  | prepare n x k =>
    simp only [step] at hs
    split at hs
    case h_2 => cases hs
    case h_1 hw =>
      obtain rfl := Option.some.inj hs
      exact .prepare hw

/-- A writer whose program has a next operation has a next step. -/
theorem write_isSome {op : Op K φ} {p : Code K φ Res} (hw : s.writer = some (op, p))
    (hp : (p.step exec s.heap).isSome) : (s.step cfg hash fl .write).isSome := by
  simp only [step, hw, write]
  cases hafter : afterSynchronize p with
  | none => simpa using hp
  | some p' =>
    dsimp only
    split <;> rfl

end Cases

end TableSys

/-- The schedules of a table in use, from its setup on. -/
abbrev TableRun (K : Type) [DecidableEq T] (cfg : ZoneCfg) (hash : T → ℕ) (fl : FloatOps φ) : Type 1 :=
  Run (S := TableSys T K φ) (TableSys.step cfg hash fl) (TableSys.Init cfg)

end RcuTable
