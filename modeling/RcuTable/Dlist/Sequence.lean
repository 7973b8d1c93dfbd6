import RcuTable.Dlist.Ops

/-!
# Dlist.Sequence — sequences of write operations against the reference list

After any sequence of allowed calls the two walks visit the reference list and its reverse, and the fields of
neighbours point at each other.
-/

namespace RcuTable

namespace Dlist

open Atomic Atomic.Prog Chain

section Code

variable {A : Type} [DecidableEq A] (list : A)

/-- The calls of a writer, one after the other. -/
def calls : List (Op A) → Code A Unit
  | [] => pure ()
  | op :: ops => do
    op.code list
    calls ops

/-- The reference list after the calls. -/
def applyAll (l : List A) (ops : List (Op A)) : List A := ops.foldl (fun l op => op.apply list l) l

/-- Every call is allowed where it is made. -/
def AllAllowed : List A → List (Op A) → Prop
  | _, [] => True
  | l, op :: ops => op.Allowed list l ∧ AllAllowed (op.apply list l) ops

/-- The heap holds the reference list, as a caller sees it. -/
structure Refines (h : Heap A) (l : List A) : Prop where
  forward : (forEach .next list).Total exec h fun visited h' => visited = l ∧ h' = h
  backward : (forEach .prev list).Total exec h fun visited h' => visited = l.reverse ∧ h' = h
  next_prev : ∀ x ∈ list :: l, h .prev (h .next x) = x
  prev_next : ∀ x ∈ list :: l, h .next (h .prev x) = x
  empty : (rcuDlistEmpty list).Total exec h fun b h' => (b = true ↔ l = []) ∧ h' = h

end Code

variable {A : Type} [DecidableEq A] {list : A} {h : Heap A} {g : View A} {op : Op A} {f : Field} {p x : A}
  {l s t : List A}

theorem ptr_eq_some {pos : A} : ptr list pos = some p ↔ pos = p ∧ pos ≠ list := by
  unfold ptr
  split
  case isTrue hp => exact ⟨fun he => (by cases he), fun ⟨_, hne⟩ => absurd hp hne⟩
  case isFalse hp => exact ⟨fun he => ⟨Option.some.inj he, hp⟩, fun ⟨he, _⟩ => congrArg some he⟩

theorem ptr_eq_none {pos : A} : ptr list pos = none ↔ pos = list := by
  unfold ptr
  split
  case isTrue hp => exact ⟨fun _ => hp, fun _ => rfl⟩
  case isFalse hp => exact ⟨fun he => (by cases he), fun he => absurd he hp⟩

/-- From a position on, the loop visits the rest of the chain. -/
theorem forEach_loop : ∀ {l : List A} {pos : A} {d : List A},
    Path (succ list h f) (ptr list pos) l →
    Runs exec (fun v h' => v = d ++ l ∧ h' = h)
      (.iter (fun (it, visited) =>
        if iterIsEnd it list then .ret (.inr visited)
        else (iterAdvance f it).bind fun it' => .ret (.inl (it', visited ++ [it.pos])))
        ((⟨pos⟩ : Iter A), d) .ret) h
  | [], pos, d, hpath => by
    have hend : iterIsEnd ⟨pos⟩ list = true := decide_eq_true (ptr_eq_none.mp hpath)
    refine Runs.unroll ?_
    show Runs _ _ (if iterIsEnd ⟨pos⟩ list then _ else _) _
    rw [if_pos hend]
    exact .ret (.ret ⟨(List.append_nil _).symm, rfl⟩)
  | p :: l, pos, d, hpath => by
    obtain ⟨rfl, hne⟩ := ptr_eq_some.mp hpath.1
    have hend : ¬ iterIsEnd ⟨pos⟩ list = true := fun he => hne (of_decide_eq_true he)
    refine Runs.unroll ?_
    show Runs _ _ (if iterIsEnd ⟨pos⟩ list then _ else _) _
    rw [if_neg hend]
    show Runs _ _ (.act (Act.load pos f) fun v => .ret (Sum.inl ((⟨v⟩ : Iter A), d ++ [pos]))) _
    refine Runs.act rfl (.ret ?_)
    rw [List.append_cons]
    exact forEach_loop hpath.2

/-- A walk visits its direction's chain. -/
theorem forEach_total (hr : Rep list h g) :
    (forEach f list).Total exec h fun visited h' => visited = g f ∧ h' = h :=
  Runs.total (Runs.act rfl (forEach_loop (d := []) (hr f).2))

theorem Op.total (hr : Ring list h l) (hop : op.Allowed list l) :
    (op.code list).Total exec h fun _ h' => Ring list h' (op.apply list l) := by
  refine (Op.sim hr hop).total.mono exec ?_
  rintro _ h' ⟨g', hr', rfl⟩
  exact hr'

theorem rcuDlistInit_total (h : Heap A) : (rcuDlistInit list).Total exec h fun _ h' => Ring list h' [] := by
  refine Runs.total (Runs.act rfl (Runs.act rfl (.ret fun f => ⟨rfl, ?_⟩)))
  cases f with
  | next => exact path_nil.mpr (ptr_eq_none.mpr set_self)
  | prev => exact path_nil.mpr (ptr_eq_none.mpr ((set_of_field_ne (by decide)).trans set_self))

/-- `rcuDlistRest` drops whatever the list holds. -/
theorem rcuDlistRest_total (h : Heap A) : (rcuDlistRest list).Total exec h fun _ h' => Ring list h' [] :=
  rcuDlistInit_total h

theorem calls_total {ops : List (Op A)} (hr : Ring list h l) (hops : AllAllowed list l ops) :
    (calls list ops).Total exec h fun _ h' => Ring list h' (applyAll list l ops) := by
  induction ops generalizing h l with
  | nil => exact .of_returns exec ⟨1, rfl⟩ hr
  | cons op ops ih => exact (Op.total hr hops.1).bind exec fun _ h' hr' => ih hr' hops.2

theorem Ring.refines (hr : Ring list h l) : Refines list h l where
  forward := forEach_total hr
  backward := forEach_total hr
  next_prev x hx := by
    obtain ⟨s, t, rfl, rfl, -⟩ := split_after hr.nodup hx x
    rw [hr.next_eq, hr.prev_eq]
  prev_next x hx := by
    obtain ⟨s, t, rfl, rfl, -⟩ := split_before hr.nodup hx x
    rw [hr.prev_eq, hr.next_eq]
  empty := by
    have hfirst : h .next list = l.headD list := Ring.next_eq (s := []) hr
    refine Runs.total (Runs.act rfl (.ret ⟨?_, rfl⟩))
    rw [hfirst, decide_eq_true_eq]
    cases l with
    | nil => exact ⟨fun _ => rfl, fun _ => rfl⟩
    | cons p l =>
      have hne : p ≠ list := fun he => (List.nodup_cons.mp hr.nodup).1 (he ▸ List.mem_cons_self)
      exact ⟨fun he => absurd he hne, fun he => by cases he⟩

/-- **Refinement**: any sequence of allowed calls, from `rcuDlistInit` on, ends with the reference list. -/
theorem dlist_refines (h : Heap A) {ops : List (Op A)} (hops : AllAllowed list [] ops) :
    (do rcuDlistInit list; calls list ops).Total exec h fun _ h' => Refines list h' (applyAll list [] ops) :=
  (rcuDlistInit_total h).bind exec fun _ _ hr =>
    (calls_total hr hops).mono exec fun _ _ hr' => hr'.refines

/-- `0` is the list head. -/
theorem fiveCalls_refine :
    (do rcuDlistInit 0; calls 0 [.append 1, .prepend 2, .insertAfter 2 3, .remove 2, .insertBefore 0 2]
      : Code ℕ Unit).Total exec (fun _ _ => 7) fun _ h' => Refines 0 h' [3, 1, 2] :=
  dlist_refines _ ⟨by decide, by decide, by decide, by decide, by decide, trivial⟩

end Dlist

end RcuTable
