import RcuTable.Dlist.Model
import RcuTable.Lib.Itinerary

/-!
# Dlist.Ring — the chains of the two directions, and what each store of the writer does to them

Seen from its head, the circle of a direction is a null-terminated chain: `succ` takes a pointer to the list
head for null.  `Rep h g` says that direction `f` runs through `g f`.  The chains of the two directions change
one store at a time, so in the middle of an operation they are not each other's reverse; `Guar` lists the
stores, and `Ring` is the state between two operations.
-/

namespace RcuTable

namespace Dlist

open Atomic Chain

section Lists

variable {A : Type}

/-- The order in which direction `f` visits a list. -/
def Field.order : Field → List A → List A
  | .next, l => l
  | .prev, l => l.reverse

theorem mem_order {f : Field} {x : A} {l : List A} : x ∈ f.order l ↔ x ∈ l := by
  cases f
  · exact Iff.rfl
  · exact List.mem_reverse

/-- The cell behind which something is stored: the last one of `s`, or else the list head. -/
theorem cons_eq_concat (a : A) (s : List A) : ∃ s', a :: s = s' ++ [s.getLastD a] := by
  rcases List.eq_nil_or_concat' s with rfl | ⟨s', b, rfl⟩
  · exact ⟨[], rfl⟩
  · refine ⟨a :: s', ?_⟩
    rw [List.getLastD_concat]
    rfl

theorem reverse_headD (a : A) (t : List A) : t.reverse.headD a = t.getLastD a := by
  rcases List.eq_nil_or_concat' t with rfl | ⟨t', b, rfl⟩
  · rfl
  · rw [List.reverse_append, List.getLastD_concat]
    rfl

theorem reverse_getLastD (a : A) (t : List A) : t.reverse.getLastD a = t.headD a := by
  rw [← reverse_headD, List.reverse_reverse]

end Lists

variable {A : Type} [DecidableEq A] (list : A)

/-- The pointer `v`, with the list head for null. -/
def ptr (v : A) : Option A := if v = list then none else some v

/-- The field `f`, with the list head for null. -/
def succ (h : Heap A) (f : Field) (p : A) : Option A := ptr list (h f p)

/-- What the chains of the two directions visit. -/
abbrev View (A : Type) := Field → List A

/-- Direction `f` starts at the list head and runs through `g f`. -/
def Rep (h : Heap A) (g : View A) : Prop := ∀ f, Path (succ list h f) (some list) (list :: g f)

/-- A well-formed list of the elements `l`. -/
def Ring (h : Heap A) (l : List A) : Prop := Rep list h fun f => f.order l

variable {list} {h : Heap A} {g : View A} {f f' : Field} {p v x : A} {l s t : List A}

@[simp] theorem ptr_self : ptr list list = none := if_pos rfl

theorem ptr_of_ne (hv : v ≠ list) : ptr list v = some v := if_neg hv

theorem succ_set_self : succ list (h.set p f v) f = Function.update (succ list h f) p (ptr list v) := by
  funext q
  by_cases hq : q = p
  · subst hq
    simp [succ, Heap.set]
  · simp [succ, Heap.set, hq]

theorem succ_set_of_ne (hf : f' ≠ f) : succ list (h.set p f v) f' = succ list h f' := by
  funext q
  simp [succ, Heap.set, hf]

theorem ptr_headD (hl : list ∉ t) : ptr list (t.headD list) = t.head? := by
  cases t with
  | nil => exact ptr_self
  | cons p t => exact ptr_of_ne fun he => hl (he ▸ List.mem_cons_self)

namespace Rep

theorem notMem (hr : Rep list h g) (f : Field) : list ∉ g f := (List.nodup_cons.mp (hr f).nodup).1

theorem nodup (hr : Rep list h g) (f : Field) : (g f).Nodup := (List.nodup_cons.mp (hr f).nodup).2

/-- Behind the cells `s` comes the first cell of what is left. -/
theorem succ_eq (hr : Rep list h g) (hg : g f = s ++ t) : succ list h f (s.getLastD list) = t.head? := by
  obtain ⟨s', hs'⟩ := cons_eq_concat list s
  have hpath := hr f
  rw [hg, ← List.cons_append, hs', List.append_assoc] at hpath
  exact hpath.next_eq

theorem field_eq (hr : Rep list h g) (hg : g f = s ++ t) : h f (s.getLastD list) = t.headD list := by
  have hs := hr.succ_eq hg
  unfold succ ptr at hs
  split at hs
  case isTrue hv =>
    rw [hv]
    cases t with
    | nil => rfl
    | cons p t => cases hs
  case isFalse hv =>
    cases t with
    | nil => cases hs
    | cons p t => exact Option.some.inj hs

end Rep

/-- What one store may do, when `ins` is the element coming in and `rem` the one going out. -/
inductive Guar (list : A) (ins rem : Option A) (h : Heap A) (g : View A) : Heap A → View A → Prop
  | quiet : Guar list ins rem h g h g
  | own {x : A} {f : Field} {v : A} : ins = some x → (∀ f, x ∉ list :: g f) →
      Guar list ins rem h g (h.set x f v) g
  | link {f : Field} {s t : List A} {x : A} : ins = some x → g f = s ++ t → x ∉ list :: g f →
      succ list h f x = t.head? →
      Guar list ins rem h g (h.set (s.getLastD list) f x) (Function.update g f (s ++ x :: t))
  | unlink {f : Field} {s t : List A} {x : A} : rem = some x → g f = s ++ x :: t →
      Guar list ins rem h g (h.set (s.getLastD list) f (h f x)) (Function.update g f (s ++ t))

/-- The guarantee of the writer in `op`, as a relation on actions. -/
def Writes (list : A) (op : Op A) {β : Type} (_ : Act A β) (h : Heap A) (g : View A) (h' : Heap A)
    (g' : View A) : Prop :=
  Rep list h g ∧ Guar list op.inserts op.removes h g h' g'

/-- In each direction it is a store to a chain. -/
theorem Guar.store {ins rem : Option A} {h' : Heap A} {g' : View A} (hg : Guar list ins rem h g h' g')
    (hr : Rep list h g) (f : Field) :
    Store list (fun x => ins = some x) (succ list h f) (g f) (succ list h' f) (g' f) := by
  have hsplit : ∀ s : List A, ∃ s', ∀ u, list :: (s ++ u) = s' ++ s.getLastD list :: u := by
    intro s
    obtain ⟨s', hs'⟩ := cons_eq_concat list s
    refine ⟨s', fun u => ?_⟩
    rw [← List.cons_append, hs', List.append_assoc]
    rfl
  cases hg with
  | quiet => exact .quiet
  | @own x f' w hins hx =>
    by_cases hf : f = f'
    · subst hf
      rw [succ_set_self]
      exact .own hins (hx f)
    · rw [succ_set_of_ne hf]
      exact .quiet
  | @link f' s t x hins hs hx hnx =>
    by_cases hf : f = f'
    · subst hf
      obtain ⟨s', hs'⟩ := hsplit s
      have hne : x ≠ list := fun he => hx (he ▸ List.mem_cons_self)
      have hcut : list :: g f = s' ++ s.getLastD list :: t := by rw [hs, hs']
      have hl : Store list (fun x => ins = some x) (succ list h f) (g f) _ _ := .link hins hcut hx hnx
      rw [← hs', List.tail_cons] at hl
      rw [succ_set_self, ptr_of_ne hne, Function.update_self]
      exact hl
    · rw [succ_set_of_ne hf, Function.update_of_ne hf]
      exact .quiet
  | @unlink f' s t x _ hs =>
    by_cases hf : f = f'
    · subst hf
      obtain ⟨s', hs'⟩ := hsplit s
      have hnx : succ list h f x = t.head? := by
        have hend := hr.succ_eq (s := s ++ [x]) (t := t) (by rw [hs, List.append_assoc]; rfl)
        rwa [List.getLastD_concat] at hend
      have hcut : list :: g f = s' ++ s.getLastD list :: ([x] ++ t) := by rw [hs, List.singleton_append, hs']
      have hl : Store list (fun x => ins = some x) (succ list h f) (g f) _ _ := .skip hcut
      rw [← hs', List.tail_cons] at hl
      rw [succ_set_self, ← succ, hnx, Function.update_self]
      exact hl
    · rw [succ_set_of_ne hf, Function.update_of_ne hf]
      exact .quiet

theorem Guar.rep {ins rem : Option A} {h' : Heap A} {g' : View A} (hg : Guar list ins rem h g h' g')
    (hr : Rep list h g) : Rep list h' g' := fun f => (hg.store hr f).path (hr f)

namespace Rep

/-- A store into a cell that is not linked. -/
theorem set_own (hr : Rep list h g) (hx : ∀ f, x ∉ list :: g f) : Rep list (h.set x f v) g := by
  have hg : Guar list (some x) none h g (h.set x f v) g := .own rfl hx
  exact hg.rep hr

/-- The store that links `x` in behind `s`. -/
theorem set_link (hr : Rep list h g) (hg : g f = s ++ t) (hx : x ∉ list :: g f)
    (hnx : succ list h f x = t.head?) :
    Rep list (h.set (s.getLastD list) f x) (Function.update g f (s ++ x :: t)) := by
  have hg' : Guar list (some x) none h g _ _ := .link rfl hg hx hnx
  exact hg'.rep hr

/-- The store that takes `x`, behind `s`, out. -/
theorem set_unlink (hr : Rep list h g) (hg : g f = s ++ x :: t) :
    Rep list (h.set (s.getLastD list) f (h f x)) (Function.update g f (s ++ t)) := by
  have hg' : Guar list none (some x) h g _ _ := .unlink rfl hg
  exact hg'.rep hr

end Rep

end Dlist

end RcuTable
