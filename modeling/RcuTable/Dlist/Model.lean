import RcuTable.Lib.Prog
import Mathlib.Logic.Function.Basic

/-!
# Dlist.Model — RcuDoublyLinkedListApi.h as programs over single pointer loads and stores

An address is an element of `A`; `list` stands for `&list->head`.  The iterators of the two directions differ
in the field they follow only, so each is one definition in that field, and the functions of the source are its
two cases.
-/

namespace RcuTable

namespace Dlist

open Atomic

/-- The fields of a `RcuDlistHead`. -/
inductive Field where
  | next
  | prev
  deriving DecidableEq

/-- The memory: what each field of each `RcuDlistHead` points to. -/
abbrev Heap (A : Type) := Field → A → A

/-- The atomic operations. -/
inductive Act (A : Type) : Type → Type
  | load (p : A) (f : Field) : Act A A
  | store (p : A) (f : Field) (v : A) : Act A Unit

abbrev Code (A α : Type) := Prog (Act A) α

section Code

variable {A : Type} [DecidableEq A]

def Heap.set (h : Heap A) (p : A) (f : Field) (v : A) : Heap A :=
  Function.update h f (Function.update (h f) p v)

def exec : {β : Type} → Act A β → Heap A → Option (β × Heap A)
  | _, .load p f, h => some (h f p, h)
  | _, .store p f v, h => some ((), h.set p f v)

def load (p : A) (f : Field) : Code A A := Prog.lift (.load p f)
def store (p : A) (f : Field) (v : A) : Code A Unit := Prog.lift (.store p f v)

def rcuDlistInit (list : A) : Code A Unit := do
  store list .prev list
  store list .next list

def rcuDlistRest (list : A) : Code A Unit := do
  store list .prev list
  store list .next list

def rcuDlistEmpty (list : A) : Code A Bool := do
  return decide ((← load list .next) = list)

def rcuDlistAddBetween (prev next newElem : A) : Code A Unit := do
  store newElem .next next
  store newElem .prev prev
  store prev .next newElem
  store next .prev newElem

def rcuDlistRemoveBetween (prev next : A) : Code A Unit := do
  store prev .next next
  store next .prev prev

def rcuDlistInsertAfter (pos newElem : A) : Code A Unit := do
  rcuDlistAddBetween pos (← load pos .next) newElem

def rcuDlistInsertBefore (pos newElem : A) : Code A Unit := do
  rcuDlistAddBetween (← load pos .prev) pos newElem

def rcuDlistAppend (list newElem : A) : Code A Unit := rcuDlistInsertBefore list newElem

def rcuDlistPrepend (list newElem : A) : Code A Unit := rcuDlistInsertAfter list newElem

def rcuDlistRemove (elem : A) : Code A Unit := do
  rcuDlistRemoveBetween (← load elem .prev) (← load elem .next)

/-! ### The iterators -/

/-- `RcuDlistIter` and `RcuDlistRIter`. -/
structure Iter (A : Type) where
  pos : A
  deriving DecidableEq

def iterBegin (f : Field) (list : A) : Code A (Iter A) := do return ⟨← load list f⟩
def iterIsEnd (it : Iter A) (list : A) : Bool := decide (it.pos = list)
def iterAdvance (f : Field) (it : Iter A) : Code A (Iter A) := do return ⟨← load it.pos f⟩

def rcuDlistBegin (list : A) : Code A (Iter A) := iterBegin .next list
def rcuDlistIsEnd (it : Iter A) (list : A) : Bool := iterIsEnd it list
def rcuDlistAdvance (it : Iter A) : Code A (Iter A) := iterAdvance .next it

def rcuDlistRBegin (list : A) : Code A (Iter A) := iterBegin .prev list
def rcuDlistIsREnd (it : Iter A) (list : A) : Bool := iterIsEnd it list
def rcuDlistRAdvance (it : Iter A) : Code A (Iter A) := iterAdvance .prev it

/-- `RcuDlistSafeIter` and `RcuDlistSafeRIter`; `ahead` is the field `next` of the one and `prev` of the
other. -/
structure SafeIter (A : Type) where
  pos : A
  ahead : A

def safeBegin (f : Field) (list : A) : Code A (SafeIter A) := do
  let pos ← load list f
  return ⟨pos, ← load pos f⟩

def safeIsEnd (it : SafeIter A) (list : A) : Bool := decide (it.pos = list)

def safeAdvance (f : Field) (it : SafeIter A) : Code A (SafeIter A) := do
  return ⟨it.ahead, ← load it.ahead f⟩

def safeRemoveIt (it : SafeIter A) : Code A Unit := rcuDlistRemove it.pos

def rcuDlistSafeBegin (list : A) : Code A (SafeIter A) := safeBegin .next list
def rcuDlistSafeIsEnd (it : SafeIter A) (list : A) : Bool := safeIsEnd it list
def rcuDlistSafeAdvance (it : SafeIter A) : Code A (SafeIter A) := safeAdvance .next it
def rcuDlistSafeRemoveIt (it : SafeIter A) : Code A Unit := safeRemoveIt it

def rcuDlistSafeRBegin (list : A) : Code A (SafeIter A) := safeBegin .prev list
def rcuDlistSafeRIsEnd (it : SafeIter A) (list : A) : Bool := safeIsEnd it list
def rcuDlistSafeRAdvance (it : SafeIter A) : Code A (SafeIter A) := safeAdvance .prev it
def rcuDlistSafeRRemoveIt (it : SafeIter A) : Code A Unit := safeRemoveIt it

/-! ### The loops that callers write -/

/-- `for (it = Begin; !IsEnd(it); Advance(it))`, with the list of the positions it has been at. -/
def forEach (f : Field) (list : A) : Code A (List A) := do
  let it ← iterBegin f list
  Prog.loop (fun (it, visited) =>
    if iterIsEnd it list then pure (.inr visited)
    else do
      let it' ← iterAdvance f it
      pure (.inl (it', visited ++ [it.pos]))) (it, [])

/-- The same over a safe iterator, with the removal of the elements that `choose` picks. -/
def forEachErase (f : Field) (choose : A → Bool) (list : A) : Code A (List A) := do
  let it ← safeBegin f list
  Prog.loop (fun (it, visited) =>
    if safeIsEnd it list then pure (.inr visited)
    else do
      (if choose it.pos then safeRemoveIt it else pure ())
      let it' ← safeAdvance f it
      pure (.inl (it', visited ++ [it.pos]))) (it, [])

end Code

/-! ### The writer's operations and the list they stand for -/

/-- A call of a write operation. -/
inductive Op (A : Type) where
  | append (newElem : A)
  | prepend (newElem : A)
  | insertAfter (pos newElem : A)
  | insertBefore (pos newElem : A)
  | remove (elem : A)
  deriving DecidableEq

section Op

variable {A : Type} [DecidableEq A] (list : A)

def Op.code : Op A → Code A Unit
  | .append x => rcuDlistAppend list x
  | .prepend x => rcuDlistPrepend list x
  | .insertAfter pos x => rcuDlistInsertAfter pos x
  | .insertBefore pos x => rcuDlistInsertBefore pos x
  | .remove x => rcuDlistRemove x

/-- The element that an operation brings in. -/
def Op.inserts : Op A → Option A
  | .append x | .prepend x | .insertAfter _ x | .insertBefore _ x => some x
  | .remove _ => none

/-- The element that an operation takes out. -/
def Op.removes : Op A → Option A
  | .remove x => some x
  | _ => none

/-- `x` right behind `pos`. -/
def insertAfter (pos x : A) : List A → List A
  | [] => []
  | p :: l => if p = pos then p :: x :: l else p :: insertAfter pos x l

/-- `x` right in front of `pos`. -/
def insertBefore (pos x : A) : List A → List A
  | [] => []
  | p :: l => if p = pos then x :: p :: l else p :: insertBefore pos x l

/-- The operation on the reference list.  Behind the list head is the front, before it the back. -/
def Op.apply : Op A → List A → List A
  | .append x, l => l ++ [x]
  | .prepend x, l => x :: l
  | .insertAfter pos x, l => if pos = list then x :: l else Dlist.insertAfter pos x l
  | .insertBefore pos x, l => if pos = list then l ++ [x] else Dlist.insertBefore pos x l
  | .remove x, l => l.erase x

/-- What the caller of an operation promises. -/
def Op.Allowed : Op A → List A → Prop
  | .append x, l | .prepend x, l => x ∉ list :: l
  | .insertAfter pos x, l | .insertBefore pos x, l => pos ∈ list :: l ∧ x ∉ list :: l
  | .remove x, l => x ∈ l

instance (op : Op A) (l : List A) : Decidable (op.Allowed list l) := by
  cases op <;> unfold Op.Allowed <;> infer_instance

end Op

end Dlist

end RcuTable
