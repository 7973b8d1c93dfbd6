import RcuTable.Dlist.Sequence
import RcuTable.Lib.Trans

/-!
# Dlist.Concurrent — one writer and any number of readers

`Sys.step` takes one load or store of one thread.  `pins` records, for a reader in a traversal, the elements
whose removal overlaps it.
-/

namespace RcuTable

namespace Dlist

open Atomic Atomic.Prog Chain Trans

/-- The memory, the writer's operation with what is left of it, the readers' traversals with what is left of
them, and the reference list of the operations that have returned. -/
structure Sys (A R : Type) where
  heap : Heap A
  ref : List A
  writer : Option (Op A × Code A Unit)
  reader : R → Option (Field × Code A (List A))
  pins : R → List A

inductive SysAct (A R : Type) where
  | call (op : Op A)
  | write
  | return
  | begin (r : R) (f : Field)
  | read (r : R)
  | finish (r : R)
  | reuse (x : A) (f : Field) (v : A)
  deriving DecidableEq

instance {A R : Type} : Inhabited (SysAct A R) := ⟨.write⟩

namespace Sys

section Code

variable {A R : Type} [DecidableEq A] [DecidableEq R] (list : A)

/-- The element whose removal is under way. -/
def removing (s : Sys A R) : Option A := s.writer.bind fun w => w.1.removes

def setReader (s : Sys A R) (r : R) (o : Option (Field × Code A (List A))) (l : List A) : Sys A R :=
  { s with reader := Function.update s.reader r o, pins := Function.update s.pins r l }

def step (s : Sys A R) : SysAct A R → Option (Sys A R)
  | .call op =>
    match s.writer with
    | none => some { s with
        writer := some (op, op.code list)
        pins := fun r => if (s.reader r).isSome then op.removes.toList ++ s.pins r else s.pins r }
    | some _ => none
  | .write =>
    match s.writer with
    | some (op, p) => (p.step exec s.heap).map fun r => { s with heap := r.2, writer := some (op, r.1) }
    | none => none
  | .return =>
    match s.writer with
    | some (op, .ret ()) => some { s with writer := none, ref := op.apply list s.ref }
    | _ => none
  | .begin r f =>
    match s.reader r with
    | none => some (s.setReader r (some (f, forEach f list)) s.removing.toList)
    | some _ => none
  | .read r =>
    match s.reader r with
    | some (f, p) => (p.step exec s.heap).map fun a =>
        { s with heap := a.2 }.setReader r (some (f, a.1)) (s.pins r)
    | none => none
  | .finish r =>
    match s.reader r with
    | some (_, .ret _) => some (s.setReader r none [])
    | _ => none
  | .reuse x f v => some { s with heap := s.heap.set x f v }

/-- What the caller promises: operations at linked positions, and no element brought in, or its memory used
for anything else, that a traversal under way may still stand on. -/
def Contract (s : Sys A R) : SysAct A R → Prop
  | .call op => op.Allowed list s.ref ∧
      ∀ x ∈ op.inserts, ∀ r, (s.reader r).isSome = true → x ∉ s.pins r
  | .reuse x _ _ => s.writer = none ∧ x ∉ list :: s.ref ∧ ∀ r, (s.reader r).isSome = true → x ∉ s.pins r
  | _ => True

instance [Fintype R] (s : Sys A R) (a : SysAct A R) : Decidable (s.Contract list a) := by
  cases a <;> unfold Contract <;> infer_instance

/-- A well-formed list, and nobody at work. -/
structure Init (s : Sys A R) : Prop where
  ring : Ring list s.heap s.ref
  writer : s.writer = none
  reader : ∀ r, s.reader r = none

/-- `Sys.step` as a relation: one case for each thing that a step can do. -/
inductive Takes (s : Sys A R) : SysAct A R → Sys A R → Prop
  | call {op : Op A} (hw : s.writer = none) : Takes s (.call op) { s with
      writer := some (op, op.code list)
      pins := fun r => if (s.reader r).isSome then op.removes.toList ++ s.pins r else s.pins r }
  | write {op : Op A} {p p' : Code A Unit} {h' : Heap A} (hw : s.writer = some (op, p))
      (hp : p.step exec s.heap = some (p', h')) :
      Takes s .write { s with heap := h', writer := some (op, p') }
  | return {op : Op A} (hw : s.writer = some (op, .ret ())) :
      Takes s .return { s with writer := none, ref := op.apply list s.ref }
  | begin {r : R} {f : Field} (hr : s.reader r = none) :
      Takes s (.begin r f) (s.setReader r (some (f, forEach f list)) s.removing.toList)
  | read {r : R} {f : Field} {p p' : Code A (List A)} {h' : Heap A} (hr : s.reader r = some (f, p))
      (hp : p.step exec s.heap = some (p', h')) :
      Takes s (.read r) ({ s with heap := h' }.setReader r (some (f, p')) (s.pins r))
  | finish {r : R} {f : Field} {visited : List A} (hr : s.reader r = some (f, .ret visited)) :
      Takes s (.finish r) (s.setReader r none [])
  | reuse {x : A} {f : Field} {v : A} : Takes s (.reuse x f v) { s with heap := s.heap.set x f v }

variable {list} {s s' : Sys A R} {a : SysAct A R}

theorem step_cases (hs : s.step list a = some s') : Takes list s a s' := by
  cases a with
  | call op =>
    simp only [step] at hs
    split at hs
    case h_2 => cases hs
    case h_1 hw =>
      obtain rfl := Option.some.inj hs
      exact .call hw
  | write =>
    simp only [step] at hs
    split at hs
    case h_2 => cases hs
    case h_1 op p hw =>
      obtain ⟨⟨p', h'⟩, hp, rfl⟩ := Option.map_eq_some_iff.mp hs
      exact .write hw hp
  | «return» =>
    simp only [step] at hs
    split at hs
    case h_2 => cases hs
    case h_1 op hw =>
      obtain rfl := Option.some.inj hs
      exact .return hw
  | begin r f =>
    simp only [step] at hs
    split at hs
    case h_2 => cases hs
    case h_1 hr =>
      obtain rfl := Option.some.inj hs
      exact .begin hr
  | read r =>
    simp only [step] at hs
    split at hs
    case h_2 => cases hs
    case h_1 f p hr =>
      obtain ⟨⟨p', h'⟩, hp, rfl⟩ := Option.map_eq_some_iff.mp hs
      exact .read hr hp
  | finish r =>
    simp only [step] at hs
    split at hs
    case h_2 => cases hs
    case h_1 f visited hr =>
      obtain rfl := Option.some.inj hs
      exact .finish hr
  | reuse x f v =>
    obtain rfl := Option.some.inj hs
    exact .reuse

end Code

section Fields

variable {A R : Type} [DecidableEq R] (s : Sys A R) {r r' : R} {o : Option (Field × Code A (List A))}
  {l : List A}

theorem setReader_self : (s.setReader r o l).reader r = o ∧ (s.setReader r o l).pins r = l :=
  ⟨Function.update_self _ _ _, Function.update_self _ _ _⟩

theorem setReader_of_ne (hne : r' ≠ r) :
    (s.setReader r o l).reader r' = s.reader r' ∧ (s.setReader r o l).pins r' = s.pins r' :=
  ⟨Function.update_of_ne hne _ _, Function.update_of_ne hne _ _⟩

end Fields

end Sys

/-! ### A chain under the stores of the writer -/

variable {A : Type} [DecidableEq A] {list : A} {h h' : Heap A} {g g' : View A} {f : Field}
  {ins rem : Option A}

/-- The chain of a direction changes by the element at work, which keeps the order of all others. -/
theorem Guar.order (hr : Rep list h g) (hg : Guar list ins rem h g h' g') (f : Field) {l : List A}
    (h1 : ∀ x ∈ l, x ∈ g f) (h2 : ∀ x ∈ l, x ∈ g' f) : l.Sublist (g f) ↔ l.Sublist (g' f) := by
  have hcons : ∀ {l' : List A}, (∀ x ∈ l, x ∈ l') → ∀ x ∈ list :: l, x ∈ list :: l' := fun hl x hx =>
    List.mem_cons.mpr ((List.mem_cons.mp hx).imp_right (hl x))
  rw [← List.cons_sublist_cons (a := list), (hg.store hr f).order (hr f) (hcons h1) (hcons h2),
    List.cons_sublist_cons]

end Dlist

end RcuTable
