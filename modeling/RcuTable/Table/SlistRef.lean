import Mathlib.Data.List.Basic
import Mathlib.Data.List.Nodup

/-!
# Table.SlistRef — the reference of the singly linked lists

A list of elements of any type, with a head in front that is not an element of it, and the operations of
RcuSinglyLinkedListApi.h on it.  There are no links: an operation answers and leaves a list.
-/

namespace RcuTable

variable {α : Type} [DecidableEq α]

/-- The list with `new` right behind the element `pos`. -/
def insertAfter (pos new : α) : List α → List α
  | [] => []
  | p :: l => if p = pos then p :: new :: l else p :: insertAfter pos new l

/-- The operations; a position is the head or an element. -/
inductive ListOp (α : Type) where
  | insertAfter (pos newElem : α)
  | appendToTail (pos newElem : α)
  | prependIfNoMatch (newElem : α) (isMatch : α → Bool)
  | removeIf (predict : α → Bool)
  | remove (a : α)
  | findIf (predict : α → Bool)

/-- The answers. -/
inductive ListRes (α : Type) where
  | unit
  | bool (b : Bool)
  | node (a : Option α)
  deriving DecidableEq

/-- The answer of an operation and the list it leaves. -/
def ListOp.run (head : α) (l : List α) : ListOp α → ListRes α × List α
  | .insertAfter pos newElem =>
    (.unit, if pos = head then newElem :: l else RcuTable.insertAfter pos newElem l)
  | .appendToTail _ newElem => (.unit, l ++ [newElem])
  | .prependIfNoMatch newElem isMatch =>
    if l.any isMatch then (.bool false, l) else (.bool true, newElem :: l)
  | .removeIf predict => (.node (l.find? predict), l.eraseP predict)
  | .remove a => (.node (if a ∈ l then some a else none), l.erase a)
  | .findIf predict => (.node (l.find? predict), l)

variable {pos new head : α} {l s t : List α}

theorem insertAfter_append (hp : pos ∉ s) :
    insertAfter pos new (s ++ pos :: t) = s ++ pos :: new :: t := by
  induction s with
  | nil => exact if_pos rfl
  | cons p s ih =>
    obtain ⟨hne, hs⟩ := not_or.mp (List.mem_cons.not.mp hp)
    rw [List.cons_append, insertAfter, if_neg (Ne.symm hne), ih hs]
    rfl

/-- In front of the first element stands the head. -/
theorem insertAfter_head (hnd : (head :: l).Nodup) (hl : head :: l = s ++ pos :: t) :
    (if pos = head then new :: l else insertAfter pos new l) = (s ++ pos :: new :: t).tail := by
  rw [hl] at hnd
  have hp : pos ∉ s := fun hp => (List.nodup_append.mp hnd).2.2 pos hp pos List.mem_cons_self rfl
  cases s with
  | nil =>
    obtain ⟨rfl, rfl⟩ := List.cons.inj hl
    exact if_pos rfl
  | cons p s =>
    obtain ⟨rfl, rfl⟩ := List.cons.inj hl
    obtain ⟨hne, hs⟩ := not_or.mp (List.mem_cons.not.mp hp)
    rw [if_neg hne]
    exact insertAfter_append hs

theorem sublist_insertAfter (pos new : α) (l : List α) : l.Sublist (insertAfter pos new l) := by
  induction l with
  | nil => exact .slnil
  | cons p l ih =>
    unfold insertAfter
    split
    · exact (List.sublist_cons_self new l).cons_cons p
    · exact ih.cons_cons p

/-- An operation inserts or removes, and keeps the other elements in order. -/
theorem ListOp.run_sublist (head : α) (l : List α) (op : ListOp α) :
    l.Sublist (op.run head l).2 ∨ (op.run head l).2.Sublist l := by
  cases op with
  | insertAfter pos newElem =>
    left
    show l.Sublist (if pos = head then newElem :: l else RcuTable.insertAfter pos newElem l)
    split
    · exact List.sublist_cons_self _ _
    · exact sublist_insertAfter _ _ _
  | appendToTail pos newElem => exact Or.inl (List.sublist_append_left _ _)
  | prependIfNoMatch newElem isMatch =>
    left
    show l.Sublist (if l.any isMatch then (ListRes.bool false, l) else (.bool true, newElem :: l)).2
    split
    · exact .refl _
    · exact List.sublist_cons_self _ _
  | removeIf predict => exact Or.inr List.eraseP_sublist
  | remove a => exact Or.inr List.erase_sublist
  | findIf predict => exact Or.inl (.refl _)

end RcuTable
