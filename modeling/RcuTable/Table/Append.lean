import RcuTable.Table.SlistOps

/-!
# Table.Append — `rcuSlistAppendIfNoMatch`

The loop of the append has the trailing cell `p` in hand, the last one or the list head, and calls the
predicate on it: so it asks about the list head, and never about the last element.
-/

namespace RcuTable

open Atomic Atomic.Prog Chain

variable {K φ : Type} {h : Heap K φ} {list new : Ptr} {l : List Ptr}
  {f : Heap K φ → Ptr → Ptr → Bool}

/-- A list with the elements `l`, and a new element. -/
structure Listed (h : Heap K φ) (list : Ptr) (l : List Ptr) (new : Ptr) : Prop where
  path : Path h.next (h.next list) l
  head : list ∉ l
  accessible : ∀ p ∈ list :: l, h.accessible p = true
  newAccessible : h.accessible new = true
  new : new ∉ list :: l

theorem Listed.slist (hl : Listed h list l new) : SlistRep h list l := ⟨⟨rfl, hl.path⟩, hl.accessible⟩

/-- The loop, from the trailing cell `p` on. -/
theorem sim_appendLoop {α : Type} {Q : α → Heap K φ → List Ptr → Prop} {k : Option Ptr → Code K φ α} :
    ∀ {l : List Ptr} {p : Ptr} {v : Option Ptr} {es : List Ptr}, Path h.next v l →
    (∀ q ∈ l, h.accessible q = true) →
    Sim exec (fun a _ es _ es' => es' = es ++ a.asks) Q
      (k (if (p :: l).dropLast.any (fun q => f h q new) then none else some (lastCell p l))) h
      (es ++ asked (fun q => f h q new) (p :: l).dropLast) →
    Sim exec (fun a _ es _ es' => es' = es ++ a.asks) Q
      (.iter (fun x => match x with
        | (p, pNext) => match pNext with
          | none => .ret (.inr (some p))
          | some q => .act (.ask p fun h p => f h p new) fun b =>
            if b = true then .ret (.inr none)
            else .act (.loadNext q) fun pNext => .ret (.inl (q, pNext))) (p, v) k) h es
  | [], p, v, es, hpath, _, hk => by
    obtain rfl := hpath
    refine Sim.unroll (.ret ?_)
    simpa [asked, lastCell] using hk
  | q :: l, p, v, es, hpath, hacc, hk => by
    obtain ⟨rfl, hpath⟩ := hpath
    refine Sim.unroll (.act rfl rfl ?_)
    rw [List.dropLast_cons_cons, List.any_cons] at hk
    unfold asked at hk
    show Sim _ _ _ (if f h p new = true then _ else _) _ (es ++ [p])
    cases hp : f h p new with
    | true =>
      rw [hp, Bool.true_or, if_pos rfl, if_pos rfl] at hk
      exact .ret hk
    | false =>
      have hlast : lastCell p (q :: l) = lastCell q l := List.getLast_cons _
      rw [hp, Bool.false_or, if_neg Bool.false_ne_true, List.append_cons, hlast] at hk
      have hload : exec (.loadNext q) h = some (h.next q, h) := by
        simp [exec, hacc q List.mem_cons_self]
      refine .act hload (List.append_nil _).symm (.ret ?_)
      exact sim_appendLoop hpath (fun x hx => hacc x (List.mem_cons_of_mem _ hx)) hk

/-- **What the append does**: it asks about the list head and all elements but the last, and on none of them
matching hangs the new element behind the last one. -/
theorem rcuSlistAppendIfNoMatch_total (hl : Listed h list l new) :
    (rcuSlistAppendIfNoMatch list new f).Total (logged exec Act.asks) (h, []) fun r s =>
      s.2 = asked (fun q => f h q new) (list :: l).dropLast ∧
      (r = false ∧ (list :: l).dropLast.any (fun q => f h q new) ∧ s.1 = h ∨
        r = true ∧ ¬ (list :: l).dropLast.any (fun q => f h q new) ∧
          s.1 = (h.setNext new none).setNext (lastCell list l) (some new)) := by
  suffices hsim : Sim exec (fun a _ es _ es' => es' = es ++ Act.asks a) (fun r h' es =>
      es = asked (fun q => f h q new) (list :: l).dropLast ∧
      (r = false ∧ (list :: l).dropLast.any (fun q => f h q new) ∧ h' = h ∨
        r = true ∧ ¬ (list :: l).dropLast.any (fun q => f h q new) ∧
          h' = (h.setNext new none).setNext (lastCell list l) (some new)))
      (rcuSlistAppendIfNoMatch list new f) h [] from hsim.logged fun _ _ _ _ _ he => he
  unfold rcuSlistAppendIfNoMatch
  simp only [load, store, ask, bind_def, pure_def, lift_bind, Prog.loop, iter_bind, ret_bind]
  have hload : exec (.loadNext list) h = some (h.next list, h) :=
    if_pos (hl.accessible list List.mem_cons_self)
  refine .act hload rfl ?_
  refine sim_appendLoop hl.path (fun p hp => hl.accessible p (List.mem_cons_of_mem _ hp)) ?_
  by_cases hany : (list :: l).dropLast.any (fun q => f h q new) = true
  · rw [if_pos hany]
    exact .ret ⟨by simp [Act.asks], Or.inl ⟨rfl, hany, rfl⟩⟩
  · rw [if_neg hany]
    have hnew : exec (.storeNext new none) h = some ((), h.setNext new none) := if_pos hl.newAccessible
    have hlast : exec (.storeNext (lastCell list l) (some new)) (h.setNext new none) =
        some ((), (h.setNext new none).setNext (lastCell list l) (some new)) := by
      refine if_pos ?_
      rw [accessible_setNext]
      exact hl.accessible _ (List.getLast_mem _)
    refine .act hnew rfl (.act hlast rfl (.ret ⟨by simp [Act.asks], Or.inr ⟨rfl, hany, rfl⟩⟩))

/-- The contract of a conditional append, as the prepend has it. -/
def AppendsUnlessMatch (h : Heap K φ) (list : Ptr) (l : List Ptr) (new : Ptr)
    (f : Heap K φ → Ptr → Ptr → Bool) : Prop :=
  ((rcuSlistAppendIfNoMatch list new f).Total (logged exec Act.asks) (h, []) fun r s =>
    (∀ p ∈ s.2, p ∈ l) ∧
    ((∃ p ∈ l, f h p new = true) → r = false ∧ s.1 = h) ∧
    ((∀ p ∈ l, f h p new = false) → r = true ∧ Path s.1.next (s.1.next list) (l ++ [new]))) ∧
  ∀ r r' h1 h2, (rcuSlistAppendIfNoMatch list new f).Returns exec h r h1 →
    (rcuSlistPrependIfNoMatch list new f).Returns exec h r' h2 → r = r'

/-- `rcuSlistAppendIfNoMatch` meets its contract on the empty list only. -/
theorem append_contract_iff (hl : Listed h list l new) : AppendsUnlessMatch h list l new f ↔ l = [] := by
  constructor
  · rintro ⟨⟨⟨r, s, hret⟩, hall⟩, -⟩
    by_contra hne
    obtain ⟨q, l', rfl⟩ := List.exists_cons_of_ne_nil hne
    have hasked := ((rcuSlistAppendIfNoMatch_total (f := f) hl).2 r s hret).1
    refine hl.head ((hall r s hret).1 list ?_)
    -- the list head is the first cell that the loop asks about
    rw [hasked, List.dropLast_cons_cons]
    unfold asked
    split <;> exact List.mem_cons_self
  · rintro rfl
    have hnext : h.next list = none := hl.path
    refine ⟨(rcuSlistAppendIfNoMatch_total hl).mono _ ?_, ?_⟩
    · rintro r ⟨h', es⟩ ⟨rfl, ⟨-, hc, -⟩ | ⟨rfl, -, rfl⟩⟩
      · simp at hc
      · have hne : new ≠ list := by
          rintro rfl
          exact hl.new List.mem_cons_self
        refine ⟨by simp [asked], by simp, fun _ => ⟨rfl, ?_⟩⟩
        simp [lastCell, hne]
    · intro r r' h1 h2 hr hr'
      obtain ⟨⟨a, s, hret⟩, hall⟩ := rcuSlistAppendIfNoMatch_total (f := f) hl
      obtain ⟨rfl, -⟩ := hr.det exec hret.of_logged
      obtain ⟨-, ⟨-, hc, -⟩ | ⟨rfl, -⟩⟩ := hall _ _ hret
      · simp at hc
      · rcases (rcuSlistPrependIfNoMatch_total hl.slist hl.new hl.newAccessible).2 _ _ hr' with
          ⟨hc, -⟩ | ⟨-, rfl, -⟩
        · simp at hc
        · rfl

/-- The list of node 1, behind the head of bucket 0 of array 1. -/
def oneElement : Heap Unit Unit where
  next p := if p = .head 1 0 then some (.node 1) else none
  hash _ := 0
  key _ := ()
  pBucketsInfo := 1
  size := 1
  expandFactor := ()
  shrinkFactor := ()
  nrBucketsPowerOf2 _ := 1
  live b := b == 1
  fresh := 2

theorem oneElement_listed : Listed oneElement (.head 1 0) [.node 1] (.node 2) where
  path := by simp [oneElement]
  head := by simp
  accessible := by decide
  newAccessible := rfl
  new := by decide

theorem emptyBucket_listed : Listed { oneElement with next := fun _ => none } (.head 1 0) [] (.node 2) where
  path := by simp
  head := by simp
  accessible := by decide
  newAccessible := rfl
  new := by decide

theorem emptyBucket_append :
    AppendsUnlessMatch { oneElement with next := fun _ => none } (.head 1 0) [] (.node 2) fun _ _ _ => true :=
  (append_contract_iff emptyBucket_listed).mpr rfl

/-- A list of one element that matches: the append asks about the list head and accepts. -/
theorem oneElement_append : ¬ ∀ (h : Heap Unit Unit) (list : Ptr) (l : List Ptr) (new : Ptr)
    (f : Heap Unit Unit → Ptr → Ptr → Bool), Listed h list l new → AppendsUnlessMatch h list l new f := by
  intro hall
  obtain ⟨⟨-, htotal⟩, -⟩ := hall oneElement _ _ _ (fun _ p _ => decide (p = .node 1)) oneElement_listed
  have hrun : ((rcuSlistAppendIfNoMatch (.head 1 0) (.node 2) fun (_ : Heap Unit Unit) p _ =>
      decide (p = .node 1)).run (logged exec Act.asks) 20 (oneElement, [])).map
      (fun r => (r.1, r.2.2)) = some (true, [.head 1 0]) := by decide +kernel
  obtain ⟨⟨r, s⟩, hret, hr⟩ := Option.map_eq_some_iff.mp hrun
  obtain ⟨rfl, hs⟩ := Prod.mk.inj hr
  have hmem := (htotal _ _ ⟨20, hret⟩).1 (.head 1 0) (by rw [show s.2 = _ from hs]; simp)
  simp at hmem

end RcuTable
