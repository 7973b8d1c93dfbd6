import RcuTable.Table.Search
import RcuTable.Table.SlistRef

/-!
# Table.SlistOps — the operations of RcuSinglyLinkedListApi.h, each on any list

`SlistRep h list l`: in the heap `h` the chain from the head `list` visits the elements `l`.  Every insertion
is a link behind some cell of that chain (`SlistRep.link`) and every removal an unlink (`SlistRep.unlink`);
`SlistOp.total` says that an operation completes, answers as the reference does and leaves its list.
-/

namespace RcuTable

open Atomic Atomic.Prog Chain

variable {K φ : Type} {h : Heap K φ} {list new pos : Ptr} {l s t : List Ptr}

theorem accessible_setNext {p q : Ptr} {v : Option Ptr} :
    (h.setNext q v).accessible p = h.accessible p := by cases p <;> rfl

/-- The head and the elements, as one chain. -/
structure SlistRep (h : Heap K φ) (list : Ptr) (l : List Ptr) : Prop where
  path : Path h.next (some list) (list :: l)
  accessible : ∀ p ∈ list :: l, h.accessible p = true

namespace SlistRep

theorem elements (hs : SlistRep h list l) : Path h.next (h.next list) l := hs.path.2

theorem nodup (hs : SlistRep h list l) : (list :: l).Nodup := hs.path.nodup

theorem load_head (hs : SlistRep h list l) : exec (.loadNext list) h = some (h.next list, h) :=
  if_pos (hs.accessible list List.mem_cons_self)

theorem init (ha : h.accessible list = true) : SlistRep (h.setNext list none) list [] where
  path := ⟨rfl, Function.update_self _ _ _⟩
  accessible p hp := by
    rw [List.mem_singleton.mp hp, accessible_setNext]
    exact ha

/-- A new element is hung behind `pos`; its own link is stored first. -/
theorem link (hs : SlistRep h list l) (hl : list :: l = s ++ pos :: t) (hnew : new ∉ list :: l)
    (ha : h.accessible new = true) :
    SlistRep ((h.setNext new t.head?).setNext pos (some new)) list (s ++ pos :: new :: t).tail := by
  have htail : list :: (s ++ pos :: new :: t).tail = s ++ pos :: new :: t := by
    cases s with
    | nil => rw [(List.cons.inj hl).1]; rfl
    | cons p s => rw [(List.cons.inj hl).1]; rfl
  have hpath : Path (h.setNext new t.head?).next (some list) (list :: l) :=
    hs.path.update_of_notMem hnew
  rw [hl] at hpath hnew
  refine ⟨?_, ?_⟩
  · rw [htail]
    exact hpath.link hnew (Function.update_self _ _ _)
  · rw [htail]
    intro p hp
    rw [accessible_setNext, accessible_setNext]
    by_cases hpn : p = new
    · rw [hpn]
      exact ha
    · refine hs.accessible p ?_
      rw [hl]
      simp only [List.mem_append, List.mem_cons] at hp ⊢
      tauto

/-- The element behind the cells `s` is taken out. -/
theorem unlink {q : Ptr} (hs : SlistRep h list (s ++ q :: t)) :
    SlistRep (h.setNext (lastCell list s) t.head?) list (s ++ t) := by
  obtain ⟨s', hs'⟩ := exists_lastCell list s
  have hl : list :: (s ++ q :: t) = s' ++ lastCell list s :: q :: t := by
    rw [← List.cons_append, hs', List.append_assoc]
    rfl
  have hl' : list :: (s ++ t) = s' ++ lastCell list s :: t := by
    rw [← List.cons_append, hs', List.append_assoc]
    rfl
  have hpath := hs.path
  rw [hl] at hpath
  have hq : h.next q = t.head? := hpath.tail.2.head
  refine ⟨?_, ?_⟩
  · rw [hl', ← hq]
    exact hpath.unlink
  · intro p hp
    rw [accessible_setNext]
    refine hs.accessible p ?_
    simp only [List.mem_cons, List.mem_append] at hp ⊢
    tauto

end SlistRep

/-! ### The operations -/

/-- An operation, with the predicates as the code takes them: functions of the memory. -/
inductive SlistOp (K φ : Type) where
  | insertAfter (pos newElem : Ptr)
  | appendToTail (pos newElem : Ptr)
  | prependIfNoMatch (newElem : Ptr) (binaryPredict : Heap K φ → Ptr → Ptr → Bool)
  | removeIf (predict : Heap K φ → Ptr → Bool)
  | remove (head : Ptr)
  | findIf (predict : Heap K φ → Ptr → Bool)

namespace SlistOp

def code (list : Ptr) : SlistOp K φ → Code K φ (ListRes Ptr)
  | .insertAfter pos newElem => do
    rcuSlistInsertAfter pos newElem
    return .unit
  | .appendToTail pos newElem => do
    rcuSlistAppendToTail pos newElem
    return .unit
  | .prependIfNoMatch newElem binaryPredict => do
    return .bool (← rcuSlistPrependIfNoMatch list newElem binaryPredict)
  | .removeIf predict => do return .node (← rcuSlistRemoveIf list predict)
  | .remove head => do return .node (← rcuSlistRemove list head)
  | .findIf predict => do return .node (← rcuSlistFindIf list predict)

/-- The operation of the reference, for the memory `h` in which it is called. -/
def ref (h : Heap K φ) : SlistOp K φ → ListOp Ptr
  | .insertAfter pos newElem => .insertAfter pos newElem
  | .appendToTail pos newElem => .appendToTail pos newElem
  | .prependIfNoMatch newElem binaryPredict =>
    .prependIfNoMatch newElem fun q => binaryPredict h q newElem
  | .removeIf predict => .removeIf (predict h)
  | .remove head => .remove head
  | .findIf predict => .findIf (predict h)

/-- The cell is the head or a linked element. -/
def Linked (list : Ptr) (h : Heap K φ) (p : Ptr) : Prop := Visits h.next (some list) p

/-- A position is linked, a new element is not. -/
def Allowed (list : Ptr) (h : Heap K φ) : SlistOp K φ → Prop
  | .insertAfter pos newElem | .appendToTail pos newElem =>
    Linked list h pos ∧ ¬ Linked list h newElem ∧ h.accessible newElem = true
  | .prependIfNoMatch newElem _ => ¬ Linked list h newElem ∧ h.accessible newElem = true
  | .removeIf _ | .remove _ | .findIf _ => True

end SlistOp

theorem SlistRep.linked_iff (hs : SlistRep h list l) {p : Ptr} :
    SlistOp.Linked list h p ↔ p ∈ list :: l := hs.path.visits_iff

/-! ### Each of them -/

/-- The two stores of an insertion. -/
theorem runs_link {α : Type} {Q : α → Heap K φ → Prop} {k : Unit → Code K φ α} {v : Option Ptr}
    (hs : SlistRep h list l) (hl : list :: l = s ++ pos :: t) (hnew : new ∉ list :: l)
    (ha : h.accessible new = true) (hv : v = t.head?)
    (hk : SlistRep ((h.setNext new t.head?).setNext pos (some new)) list (s ++ pos :: new :: t).tail →
      Runs exec Q (k ()) ((h.setNext new t.head?).setNext pos (some new))) :
    Runs exec Q (.act (.storeNext new v) fun _ => .act (.storeNext pos (some new)) k) h := by
  subst hv
  have hpos : (h.setNext new t.head?).accessible pos = true := by
    rw [accessible_setNext]
    exact hs.accessible pos (by rw [hl]; simp)
  exact Runs.act (if_pos ha) (Runs.act (if_pos hpos) (hk (hs.link hl hnew ha)))

theorem rcuSlistInsertAfter_total (hs : SlistRep h list l) (hl : list :: l = s ++ pos :: t)
    (hnew : new ∉ list :: l) (ha : h.accessible new = true) :
    (rcuSlistInsertAfter pos new).Total exec h fun _ h' =>
      SlistRep h' list (s ++ pos :: new :: t).tail := by
  have hpath := hs.path
  rw [hl] at hpath
  have hacc : h.accessible pos = true := hs.accessible pos (by rw [hl]; simp)
  refine Runs.total ?_
  unfold rcuSlistInsertAfter
  simp only [load, store, bind_def, Prog.lift]
  refine Runs.act (if_pos hacc) (runs_link hs hl hnew ha hpath.next_eq ?_)
  exact fun hs' => .ret hs'

/-- The loop of `rcuSlistAppendToTail`. -/
theorem runs_tailLoop {α : Type} {Q : α → Heap K φ → Prop} {k : Ptr → Code K φ α} :
    ∀ {t : List Ptr} {p : Ptr} {v : Option Ptr}, Path h.next v t →
    (∀ q ∈ t, h.accessible q = true) → Runs exec Q (k (lastCell p t)) h →
    Runs exec Q (.iter (fun x => match x with
      | (p, pNext) => match pNext with
        | none => .ret (.inr p)
        | some q => .act (.loadNext q) fun pNext => .ret (.inl (q, pNext))) (p, v) k) h := by
  intro t
  induction t with
  | nil =>
    rintro p v rfl - hk
    exact Runs.unroll (.ret hk)
  | cons q t ih =>
    rintro p v ⟨rfl, hpath⟩ hacc hk
    rw [lastCell_cons] at hk
    refine Runs.unroll (Runs.act (if_pos (hacc q List.mem_cons_self)) (.ret ?_))
    exact ih hpath (fun x hx => hacc x (List.mem_cons_of_mem _ hx)) hk

theorem rcuSlistAppendToTail_total (hs : SlistRep h list l) (hpos : pos ∈ list :: l)
    (hnew : new ∉ list :: l) (ha : h.accessible new = true) :
    (rcuSlistAppendToTail pos new).Total exec h fun _ h' => SlistRep h' list (l ++ [new]) := by
  obtain ⟨s, t, hl⟩ := List.append_of_mem hpos
  obtain ⟨s', hs'⟩ := exists_lastCell pos t
  have hend : list :: l = (s ++ s') ++ lastCell pos t :: [] := by
    rw [hl, hs', List.append_assoc]
  have htail : ((s ++ s') ++ lastCell pos t :: new :: []).tail = l ++ [new] := by
    have h1 : (s ++ s') ++ lastCell pos t :: new :: [] = (list :: l) ++ [new] := by rw [hend]; simp
    rw [h1]
    rfl
  have hpath := hs.path
  rw [hl] at hpath
  refine Runs.total ?_
  unfold rcuSlistAppendToTail
  simp only [load, store, bind_def, pure_def, Prog.lift, Prog.loop, iter_bind, ret_bind]
  refine Runs.act (if_pos (hs.accessible pos hpos)) ?_
  refine runs_tailLoop hpath.tail (fun q hq => hs.accessible q (by rw [hl]; simp [hq])) ?_
  refine runs_link hs hend hnew ha rfl ?_
  rw [htail]
  exact fun hs' => .ret hs'

theorem rcuSlistPrependIfNoMatch_total {f : Heap K φ → Ptr → Ptr → Bool} (hs : SlistRep h list l)
    (hnew : new ∉ list :: l) (ha : h.accessible new = true) :
    (rcuSlistPrependIfNoMatch list new f).Total exec h fun r h' =>
      (l.any fun q => f h q new) = true ∧ r = false ∧ h' = h ∨
        (l.any fun q => f h q new) = false ∧ r = true ∧ SlistRep h' list (new :: l) := by
  refine Runs.total ?_
  unfold rcuSlistPrependIfNoMatch
  simp only [load, store, ask, bind_def, pure_def, lift_bind, Prog.loop, iter_bind, ret_bind]
  refine Runs.act hs.load_head ?_
  refine sim_matchLoop (passive_true h) (fun h q => f h q new) hs.elements
    (fun p hp => hs.accessible p (List.mem_cons_of_mem _ hp)) trivial ?_
  cases hany : l.any fun q => f h q new with
  | true => exact .ret (Or.inl ⟨rfl, rfl, rfl⟩)
  | false => exact runs_link hs (s := []) rfl hnew ha hs.elements.head fun hs' => .ret (Or.inr ⟨rfl, rfl, hs'⟩)

theorem rcuSlistFindIf_total (hs : SlistRep h list l) (predict : Heap K φ → Ptr → Bool) :
    (rcuSlistFindIf list predict).Total exec h fun r h' => r = l.find? (predict h) ∧ h' = h := by
  refine Runs.total ?_
  unfold rcuSlistFindIf
  simp only [load, ask, bind_def, pure_def, lift_bind, Prog.loop]
  refine Runs.act hs.load_head ?_
  exact sim_findLoop (passive_true h) predict hs.elements
    (fun p hp => hs.accessible p (List.mem_cons_of_mem _ hp)) trivial (.ret ⟨rfl, rfl⟩)

/-- The search and the removal of `rcuSlistRemoveIf` and `rcuSlistRemove`. -/
theorem removeLoop_total {test : Ptr → Code K φ Bool} {f : Ptr → Bool} (hs : SlistRep h list l)
    (ht : Tests (fun _ _ _ _ _ => True) h (fun (_ : Unit) => True) test f) :
    ((load list).bind fun p => Prog.loop (removeLoop test) (list, p)).Total exec h fun r h' =>
      r = l.find? f ∧ SlistRep h' list (l.eraseP f) ∧ (l.eraseP f = l → h' = h) := by
  refine Runs.total (Runs.act hs.load_head ?_)
  refine sim_removeLoop (passive_true h) ht hs.elements
    (fun p hp => hs.accessible p (List.mem_cons_of_mem _ hp)) trivial ?_ ?_
  · intro hno _ _
    have hno' : ∀ p ∈ l, ¬ f p = true := fun p hp => by simp [hno p hp]
    refine .ret ⟨(List.find?_eq_none.mpr hno').symm, ?_, fun _ => rfl⟩
    rw [List.eraseP_of_forall_not hno']
    exact hs
  · rintro s q t rfl hno hq _ -
    have hno' : ∀ p ∈ s, ¬ f p = true := fun p hp => by simp [hno p hp]
    have herase : (s ++ q :: t).eraseP f = s ++ t := by
      rw [List.eraseP_append_right _ hno', List.eraseP_cons_of_pos hq]
    have hfind : (s ++ q :: t).find? f = some q := by
      rw [List.find?_append, List.find?_eq_none.mpr hno', List.find?_cons_of_pos hq]
      rfl
    have hlast : h.accessible (lastCell list s) = true := by
      refine hs.accessible _ ?_
      have h1 : lastCell list s ∈ list :: s := List.getLast_mem _
      simp only [List.mem_cons, List.mem_append] at h1 ⊢
      tauto
    refine Runs.act (if_pos hlast) (.ret ⟨hfind.symm, ?_, ?_⟩)
    · rw [herase]
      exact hs.unlink
    · intro hsame
      rw [herase] at hsame
      have hlen := congrArg List.length hsame
      simp at hlen

theorem rcuSlistRemoveIf_total (hs : SlistRep h list l) (predict : Heap K φ → Ptr → Bool) :
    (rcuSlistRemoveIf list predict).Total exec h fun r h' => r = l.find? (predict h) ∧
      SlistRep h' list (l.eraseP (predict h)) ∧ (l.eraseP (predict h) = l → h' = h) :=
  removeLoop_total hs ((passive_true h).tests predict)

theorem rcuSlistRemove_total (hs : SlistRep h list l) (head : Ptr) :
    (rcuSlistRemove list head).Total exec h fun r h' => r = (if head ∈ l then some head else none) ∧
      SlistRep h' list (l.erase head) ∧ (l.erase head = l → h' = h) := by
  have herase : l.eraseP (fun q => decide (q = head)) = l.erase head := by
    rw [List.erase_eq_eraseP]
    congr 1
    funext q
    exact decide_eq_decide.mpr eq_comm
  have hfind : l.find? (fun q => decide (q = head)) = if head ∈ l then some head else none := by
    cases hq : l.find? fun q => decide (q = head) with
    | none =>
      have hno := List.find?_eq_none.mp hq
      rw [if_neg fun hm => hno head hm (by simp)]
    | some q =>
      obtain rfl : q = head := by simpa using List.find?_some hq
      rw [if_pos (List.mem_of_find?_eq_some hq)]
  rw [rcuSlistRemove_eq, ← herase, ← hfind]
  exact removeLoop_total hs (tests_ret fun q => decide (q = head))

/-- **An operation against the reference**: it completes, answers as the reference does and leaves the list of
the reference; when that list is the same, the memory is too. -/
theorem SlistOp.total (hs : SlistRep h list l) {op : SlistOp K φ} (ha : op.Allowed list h) :
    (op.code list).Total exec h fun r h' => ∃ l', (op.ref h).run list l = (r, l') ∧ SlistRep h' list l' ∧
      (l' = l → h' = h) := by
  cases op with
  | insertAfter pos newElem =>
    obtain ⟨hpos, hnew, hacc⟩ := ha
    rw [hs.linked_iff] at hpos hnew
    obtain ⟨s, t, hl⟩ := List.append_of_mem hpos
    refine (rcuSlistInsertAfter_total hs hl hnew hacc).bind exec ?_
    rintro _ h' hs'
    refine .of_returns exec ((returns_ret exec).mpr ⟨rfl, rfl⟩) ⟨_, rfl, ?_, ?_⟩
    · rw [insertAfter_head hs.nodup hl]
      exact hs'
    · rw [insertAfter_head hs.nodup hl]
      intro hsame
      have hlen := congrArg List.length hl
      rw [← hsame] at hlen
      simp only [List.length_cons, List.length_append, List.length_tail] at hlen
      omega
  | appendToTail pos newElem =>
    obtain ⟨hpos, hnew, hacc⟩ := ha
    rw [hs.linked_iff] at hpos hnew
    refine (rcuSlistAppendToTail_total hs hpos hnew hacc).bind exec ?_
    rintro _ h' hs'
    refine .of_returns exec ((returns_ret exec).mpr ⟨rfl, rfl⟩) ⟨_, rfl, hs', ?_⟩
    intro hsame
    have hlen := congrArg List.length hsame
    simp at hlen
  | prependIfNoMatch newElem binaryPredict =>
    obtain ⟨hnew, hacc⟩ := ha
    rw [hs.linked_iff] at hnew
    refine (rcuSlistPrependIfNoMatch_total hs hnew hacc).bind exec ?_
    rintro r h' (⟨hany, rfl, rfl⟩ | ⟨hany, rfl, hs'⟩)
    · exact .of_returns exec ((returns_ret exec).mpr ⟨rfl, rfl⟩) ⟨l, if_pos hany, hs, fun _ => rfl⟩
    · have hno : ¬ (l.any fun q => binaryPredict h q newElem) = true := by simp [hany]
      refine .of_returns exec ((returns_ret exec).mpr ⟨rfl, rfl⟩) ⟨_, if_neg hno, hs', ?_⟩
      intro hsame
      have hlen := congrArg List.length hsame
      simp at hlen
  | removeIf predict =>
    refine (rcuSlistRemoveIf_total hs predict).bind exec ?_
    rintro r h' ⟨rfl, hs', hsame⟩
    exact .of_returns exec ((returns_ret exec).mpr ⟨rfl, rfl⟩) ⟨_, rfl, hs', hsame⟩
  | remove head =>
    refine (rcuSlistRemove_total hs head).bind exec ?_
    rintro r h' ⟨rfl, hs', hsame⟩
    exact .of_returns exec ((returns_ret exec).mpr ⟨rfl, rfl⟩) ⟨_, rfl, hs', hsame⟩
  | findIf predict =>
    refine (rcuSlistFindIf_total hs predict).bind exec ?_
    rintro r h' ⟨rfl, rfl⟩
    exact .of_returns exec ((returns_ret exec).mpr ⟨rfl, rfl⟩) ⟨_, rfl, hs, fun _ => rfl⟩

end RcuTable
