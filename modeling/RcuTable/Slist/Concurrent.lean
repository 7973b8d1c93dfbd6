import RcuTable.Lib.Itinerary
import RcuTable.Lib.Trans
import RcuTable.Table.Append
import RcuTable.Table.Session

/-!
# Slist.Concurrent — one writer and any number of searches on a singly linked list

`Sys.step` takes one atomic operation of one thread: of the writer in a call of RcuSinglyLinkedListApi.h, or of
a reader in `rcuSlistFindIf`.  Every call keeps the list a chain, store by store, and only links the element
that it was given (`Call.sim`).
-/

namespace RcuTable

open Atomic Atomic.Prog Chain Trans

def rcuSlistReset {K φ : Type} (list : Ptr) : Code K φ Unit := store list none

namespace Slist

/-! ### The system -/

/-- A call of the writer. -/
inductive Call (K φ : Type) where
  | plain (op : SlistOp K φ)
  | appendIfNoMatch (newElem : Ptr) (binaryPredict : Heap K φ → Ptr → Ptr → Bool)
  | reset

/-- `asked` records the elements that a reader's predicate has been called on in the search under way. -/
structure Sys (K φ R : Type) where
  heap : Heap K φ
  writer : Option (Call K φ × Code K φ (ListRes Ptr))
  reader : R → Option (Code K φ (Option Ptr))
  asked : R → List Ptr

/-- `prepare` and `reuse`: between two calls, the writer's thread writes the data of a node, or a `next` field. -/
inductive SysAct (K φ R : Type) where
  | call (c : Call K φ)
  | write
  | return
  | begin (r : R) (predict : Heap K φ → Ptr → Bool)
  | read (r : R)
  | finish (r : R)
  | prepare (n hashVal : ℕ) (key : K)
  | reuse (x : Ptr) (v : Option Ptr)

instance {K φ R : Type} : Inhabited (SysAct K φ R) := ⟨.write⟩

variable {K φ R α : Type}

def Call.code (list : Ptr) : Call K φ → Code K φ (ListRes Ptr)
  | .plain op => op.code list
  | .appendIfNoMatch newElem binaryPredict => do
    return .bool (← rcuSlistAppendIfNoMatch list newElem binaryPredict)
  | .reset => do
    rcuSlistReset list
    return .unit

/-- The element that may be linked. -/
def Call.brings : Call K φ → Option Ptr
  | .plain (.insertAfter _ x) | .plain (.appendToTail _ x) | .plain (.prependIfNoMatch x _)
  | .appendIfNoMatch x _ => some x
  | _ => none

def Call.Allowed (list : Ptr) (h : Heap K φ) : Call K φ → Prop
  | .plain op => op.Allowed list h
  | .appendIfNoMatch newElem _ => ¬ SlistOp.Linked list h newElem ∧ h.accessible newElem = true
  | .reset => True

/-- The elements that the next operation asks. -/
def asking : Code K φ α → List Ptr
  | .act a _ => a.asks
  | _ => []

namespace Sys

section Code

variable [DecidableEq R] (list : Ptr)

def setReader (s : Sys K φ R) (r : R) (o : Option (Code K φ (Option Ptr))) (l : List Ptr) : Sys K φ R :=
  { s with reader := Function.update s.reader r o, asked := Function.update s.asked r l }

def step (s : Sys K φ R) : SysAct K φ R → Option (Sys K φ R)
  | .call c =>
    match s.writer with
    | none => some { s with writer := some (c, c.code list) }
    | some _ => none
  | .write =>
    match s.writer with
    | some (c, p) => (p.step exec s.heap).map fun a => { s with heap := a.2, writer := some (c, a.1) }
    | none => none
  | .return =>
    match s.writer with
    | some (_, .ret _) => some { s with writer := none }
    | _ => none
  | .begin r predict =>
    match s.reader r with
    | none => some (s.setReader r (some (rcuSlistFindIf list predict)) [])
    | some _ => none
  | .read r =>
    match s.reader r with
    | some p => (p.step exec s.heap).map fun a =>
        { s with heap := a.2 }.setReader r (some a.1) (s.asked r ++ asking p)
    | none => none
  | .finish r =>
    match s.reader r with
    | some (.ret _) => some (s.setReader r none [])
    | _ => none
  | .prepare n x k =>
    match s.writer with
    | none => some { s with heap := s.heap.prepare n x k }
    | some _ => none
  | .reuse x v =>
    match s.writer with
    | none => some { s with heap := s.heap.setNext x v }
    | some _ => none

/-- A list, and nobody at work. -/
structure Init (s : Sys K φ R) : Prop where
  list : ∃ l, SlistRep s.heap list l
  writer : s.writer = none
  reader : ∀ r, s.reader r = none

/-- `Sys.step` as a relation: one case for each thing that a step can do. -/
inductive Takes (s : Sys K φ R) : SysAct K φ R → Sys K φ R → Prop
  | call {c : Call K φ} (hw : s.writer = none) : Takes s (.call c) { s with writer := some (c, c.code list) }
  | write {c : Call K φ} {p p' : Code K φ (ListRes Ptr)} {h' : Heap K φ} (hw : s.writer = some (c, p))
      (hp : p.step exec s.heap = some (p', h')) : Takes s .write { s with heap := h', writer := some (c, p') }
  | return {c : Call K φ} {res : ListRes Ptr} (hw : s.writer = some (c, .ret res)) :
      Takes s .return { s with writer := none }
  | begin {r : R} {f : Heap K φ → Ptr → Bool} (hr : s.reader r = none) :
      Takes s (.begin r f) (s.setReader r (some (rcuSlistFindIf list f)) [])
  | read {r : R} {p p' : Code K φ (Option Ptr)} {h' : Heap K φ} (hr : s.reader r = some p)
      (hp : p.step exec s.heap = some (p', h')) :
      Takes s (.read r) ({ s with heap := h' }.setReader r (some p') (s.asked r ++ asking p))
  | finish {r : R} {res : Option Ptr} (hr : s.reader r = some (.ret res)) :
      Takes s (.finish r) (s.setReader r none [])
  | prepare {n x : ℕ} {k : K} (hw : s.writer = none) :
      Takes s (.prepare n x k) { s with heap := s.heap.prepare n x k }
  | reuse {x : Ptr} {v : Option Ptr} (hw : s.writer = none) :
      Takes s (.reuse x v) { s with heap := s.heap.setNext x v }

variable {list} {s s' : Sys K φ R} {a : SysAct K φ R}

theorem step_cases (hs : s.step list a = some s') : Takes list s a s' := by
  cases a with
  | call c =>
    simp only [step] at hs
    split at hs
    case h_2 => cases hs
    case h_1 hw =>
      obtain rfl := Option.some.inj hs
      exact .call hw
  | write =>
    simp only [step] at hs
    split at hs
    case h_2 => cases hs
    case h_1 c p hw =>
      obtain ⟨⟨p', h'⟩, hp, rfl⟩ := Option.map_eq_some_iff.mp hs
      exact .write hw hp
  | «return» =>
    simp only [step] at hs
    split at hs
    case h_2 => cases hs
    case h_1 c res hw =>
      obtain rfl := Option.some.inj hs
      exact .return hw
  | begin r f =>
    simp only [step] at hs
    split at hs
    case h_2 => cases hs
    case h_1 hr =>
      obtain rfl := Option.some.inj hs
      exact .begin hr
  | read r =>
    simp only [step] at hs
    split at hs
    case h_2 => cases hs
    case h_1 p hr =>
      obtain ⟨⟨p', h'⟩, hp, rfl⟩ := Option.map_eq_some_iff.mp hs
      exact .read hr hp
  | finish r =>
    simp only [step] at hs
    split at hs
    case h_2 => cases hs
    case h_1 res hr =>
      obtain rfl := Option.some.inj hs
      exact .finish hr
  | prepare n x k =>
    simp only [step] at hs
    split at hs
    case h_2 => cases hs
    case h_1 hw =>
      obtain rfl := Option.some.inj hs
      exact .prepare hw
  | reuse x v =>
    simp only [step] at hs
    split at hs
    case h_2 => cases hs
    case h_1 hw =>
      obtain rfl := Option.some.inj hs
      exact .reuse hw

variable {r r' : R} {o : Option (Code K φ (Option Ptr))} {l : List Ptr}

theorem setReader_self : (s.setReader r o l).reader r = o ∧ (s.setReader r o l).asked r = l :=
  ⟨Function.update_self _ _ _, Function.update_self _ _ _⟩

theorem setReader_of_ne (hne : r' ≠ r) :
    (s.setReader r o l).reader r' = s.reader r' ∧ (s.setReader r o l).asked r' = s.asked r' :=
  ⟨Function.update_of_ne hne _ _, Function.update_of_ne hne _ _⟩

end Code

end Sys

/-! ### What the writer does to the list -/

/-- One operation of a call that may link the elements of `new`. -/
structure Writes (list : Ptr) (new : Option Ptr) {β : Type} (_ : Act K φ β) (h : Heap K φ) (l : List Ptr)
    (h' : Heap K φ) (l' : List Ptr) : Prop where
  before : SlistRep h list l
  after : SlistRep h' list l'
  store : Store list (· ∈ new) h.next l h'.next l'
  stays : ∀ x ∈ new, x ∈ l → x ∈ l'
  accessible : h'.accessible = h.accessible

variable {h : Heap K φ} {list x pos : Ptr} {new : Option Ptr} {l s t : List Ptr}

theorem SlistRep.writes_quiet (hs : SlistRep h list l) {β : Type} {a : Act K φ β} : Writes list new a h l h l :=
  ⟨hs, hs, .quiet, fun _ _ hx => hx, rfl⟩

/-- A call is done when the list is one. -/
abbrev Done (list : Ptr) {α : Type} (_ : α) (h : Heap K φ) (l : List Ptr) : Prop := SlistRep h list l

theorem passive (hs : SlistRep h list l) : Passive (Writes list new) h (fun l' => l' = l) fun _ l' => l' where
  loadNext p l' hl := by
    subst hl
    exact SlistRep.writes_quiet hs
  ask p f l' hl := by
    subst hl
    exact ⟨SlistRep.writes_quiet hs, rfl⟩

/-- The two stores of an insertion. -/
theorem sim_link {k : Unit → Code K φ α} {v : Option Ptr} (hs : SlistRep h list l) (hl : list :: l = s ++ pos :: t)
    (hx : x ∉ list :: l) (ha : h.accessible x = true) (hv : v = t.head?)
    (hk : ∀ h' l', SlistRep h' list l' → Sim exec (Writes list (some x)) (Done list) (k ()) h' l') :
    Sim exec (Writes list (some x)) (Done list)
      (.act (.storeNext x v) fun _ => .act (.storeNext pos (some x)) k) h l := by
  subst hv
  have hown : SlistRep (h.setNext x t.head?) list l :=
    ⟨hs.path.update_of_notMem hx, fun p hp => accessible_setNext.trans (hs.accessible p hp)⟩
  have hlink := hs.link hl hx ha
  have hpos : (h.setNext x t.head?).accessible pos = true := hown.accessible pos (by rw [hl]; simp)
  have hacc : ∀ {h : Heap K φ} {p : Ptr} {v : Option Ptr}, (h.setNext p v).accessible = h.accessible :=
    funext fun _ => accessible_setNext
  refine .act (if_pos ha) ⟨hs, hown, .own rfl hx, fun _ _ hm => hm, hacc⟩ ?_
  refine .act (if_pos hpos) ⟨hown, hlink, ?_, ?_, hacc⟩ (hk _ _ hlink)
  · exact .link rfl hl hx (Function.update_self _ _ _)
  · intro y hy hm
    rw [← Option.some.inj hy] at hm
    exact absurd (List.mem_cons_of_mem _ hm) hx

section Calls

variable (hs : SlistRep h list l)

include hs

theorem rcuSlistInsertAfter_sim (hpos : pos ∈ list :: l) (hx : x ∉ list :: l) (ha : h.accessible x = true) :
    Sim exec (Writes list (some x)) (Done list) (rcuSlistInsertAfter pos x) h l := by
  obtain ⟨s, t, hl⟩ := List.append_of_mem hpos
  have hpath := hs.path
  rw [hl] at hpath
  unfold rcuSlistInsertAfter
  simp only [load, store, bind_def, Prog.lift]
  refine .act (if_pos (hs.accessible pos hpos)) (SlistRep.writes_quiet hs) ?_
  exact sim_link hs hl hx ha hpath.next_eq fun _ _ hs' => .ret hs'

/-- The loop of `rcuSlistAppendToTail`. -/
theorem sim_tailLoop {Q : α → Heap K φ → List Ptr → Prop} {k : Ptr → Code K φ α} :
    ∀ {t : List Ptr} {p : Ptr} {v : Option Ptr}, Path h.next v t → (∀ q ∈ t, h.accessible q = true) →
    Sim exec (Writes list new) Q (k (lastCell p t)) h l →
    Sim exec (Writes list new) Q (.iter (fun x => match x with
      | (p, pNext) => match pNext with
        | none => .ret (.inr p)
        | some q => .act (.loadNext q) fun pNext => .ret (.inl (q, pNext))) (p, v) k) h l := by
  intro t
  induction t with
  | nil =>
    rintro p v rfl - hk
    exact Sim.unroll (.ret hk)
  | cons q t ih =>
    rintro p v ⟨rfl, hpath⟩ hacc hk
    rw [lastCell_cons] at hk
    refine Sim.unroll (.act (if_pos (hacc q List.mem_cons_self)) (SlistRep.writes_quiet hs) (.ret ?_))
    exact ih hpath (fun x hx => hacc x (List.mem_cons_of_mem _ hx)) hk

theorem rcuSlistAppendToTail_sim (hpos : pos ∈ list :: l) (hx : x ∉ list :: l) (ha : h.accessible x = true) :
    Sim exec (Writes list (some x)) (Done list) (rcuSlistAppendToTail pos x) h l := by
  obtain ⟨s, t, hl⟩ := List.append_of_mem hpos
  obtain ⟨s', hs'⟩ := exists_lastCell pos t
  have hend : list :: l = (s ++ s') ++ lastCell pos t :: [] := by rw [hl, hs', List.append_assoc]
  have hpath := hs.path
  rw [hl] at hpath
  unfold rcuSlistAppendToTail
  simp only [load, store, bind_def, pure_def, Prog.lift, Prog.loop, iter_bind, ret_bind]
  refine .act (if_pos (hs.accessible pos hpos)) (SlistRep.writes_quiet hs) ?_
  refine sim_tailLoop hs hpath.tail (fun q hq => hs.accessible q (by rw [hl]; simp [hq])) ?_
  exact sim_link hs hend hx ha rfl fun _ _ hs' => .ret hs'

theorem rcuSlistPrependIfNoMatch_sim {f : Heap K φ → Ptr → Ptr → Bool} (hx : x ∉ list :: l)
    (ha : h.accessible x = true) :
    Sim exec (Writes list (some x)) (Done list) (rcuSlistPrependIfNoMatch list x f) h l := by
  unfold rcuSlistPrependIfNoMatch
  simp only [load, store, ask, bind_def, pure_def, lift_bind, Prog.loop, iter_bind, ret_bind]
  refine .act hs.load_head (SlistRep.writes_quiet hs) ?_
  refine sim_matchLoop (passive hs) (fun h q => f h q x) hs.elements
    (fun p hp => hs.accessible p (List.mem_cons_of_mem _ hp)) rfl ?_
  rw [List.foldl_fixed]
  cases l.any fun q => f h q x with
  | true => exact .ret hs
  | false => exact sim_link hs (s := []) rfl hx ha hs.elements.head fun _ _ hs' => .ret hs'

/-- The loop of `rcuSlistAppendIfNoMatch`. -/
theorem sim_appendIfLoop {f : Heap K φ → Ptr → Ptr → Bool} {Q : α → Heap K φ → List Ptr → Prop}
    {k : Option Ptr → Code K φ α} : ∀ {t : List Ptr} {p : Ptr} {v : Option Ptr}, Path h.next v t →
    (∀ q ∈ t, h.accessible q = true) →
    Sim exec (Writes list new) Q (k none) h l → Sim exec (Writes list new) Q (k (some (lastCell p t))) h l →
    Sim exec (Writes list new) Q (.iter (fun y => match y with
      | (p, pNext) => match pNext with
        | none => .ret (.inr (some p))
        | some q => .act (.ask p fun h p => f h p x) fun b =>
          if b = true then .ret (.inr none)
          else .act (.loadNext q) fun pNext => .ret (.inl (q, pNext))) (p, v) k) h l := by
  intro t
  induction t with
  | nil =>
    rintro p v rfl - - hlast
    exact Sim.unroll (.ret hlast)
  | cons q t ih =>
    rintro p v ⟨rfl, hpath⟩ hacc hmatch hlast
    refine Sim.unroll (.act rfl (SlistRep.writes_quiet hs) ?_)
    show Sim _ _ _ (if f h p x = true then _ else _) _ _
    split
    · exact .ret hmatch
    · refine .act (if_pos (hacc q List.mem_cons_self)) (SlistRep.writes_quiet hs) (.ret ?_)
      rw [lastCell_cons] at hlast
      exact ih hpath (fun x hx => hacc x (List.mem_cons_of_mem _ hx)) hmatch hlast

theorem rcuSlistAppendIfNoMatch_sim {f : Heap K φ → Ptr → Ptr → Bool} (hx : x ∉ list :: l)
    (ha : h.accessible x = true) :
    Sim exec (Writes list (some x)) (Done list) (rcuSlistAppendIfNoMatch list x f) h l := by
  obtain ⟨s, hs'⟩ := exists_lastCell list l
  unfold rcuSlistAppendIfNoMatch
  simp only [load, store, ask, bind_def, pure_def, lift_bind, Prog.loop, iter_bind, ret_bind]
  refine .act hs.load_head (SlistRep.writes_quiet hs) ?_
  refine sim_appendIfLoop hs hs.elements (fun p hp => hs.accessible p (List.mem_cons_of_mem _ hp)) (.ret hs) ?_
  exact sim_link hs hs' hx ha rfl fun _ _ hs' => .ret hs'

/-- The search and the removal of `rcuSlistRemoveIf` and `rcuSlistRemove`. -/
theorem removeLoop_sim {test : Ptr → Code K φ Bool} {f : Ptr → Bool}
    (ht : Tests (Writes list none) h (fun l' => l' = l) test f) :
    Sim exec (Writes list none) (Done list) ((load list).bind fun p => Prog.loop (removeLoop test) (list, p)) h l := by
  refine .act hs.load_head (SlistRep.writes_quiet hs) ?_
  refine sim_removeLoop (passive hs) ht hs.elements (fun p hp => hs.accessible p (List.mem_cons_of_mem _ hp)) rfl ?_ ?_
  · rintro - _ rfl
    exact .ret hs
  · rintro s q t rfl - - _ rfl
    obtain ⟨s', hs'⟩ := exists_lastCell list s
    have hl : list :: (s ++ q :: t) = s' ++ lastCell list s :: ([q] ++ t) := by
      rw [← List.cons_append, hs', List.append_assoc]
      rfl
    have hrest : s ++ t = (s' ++ lastCell list s :: t).tail := by
      rw [List.append_cons s', ← hs']
      rfl
    have hlast : h.accessible (lastCell list s) = true := hs.accessible _ (by rw [hl]; simp)
    have hunlink := hs.unlink
    refine .act (if_pos hlast) ⟨hs, hunlink, ?_, fun _ hx => by simp at hx, funext fun _ => accessible_setNext⟩
      (.ret hunlink)
    rw [hrest]
    exact .skip hl

theorem rcuSlistReset_sim : Sim exec (Writes list none) (Done list) (rcuSlistReset list) h l := by
  have ha : h.accessible list = true := hs.accessible list List.mem_cons_self
  have hinit : SlistRep (h.setNext list none) list [] := .init ha
  refine .act (if_pos ha) ⟨hs, hinit, ?_, fun _ hx => by simp at hx, funext fun _ => accessible_setNext⟩ (.ret hinit)
  exact .skip (s := []) (t := l) (u := []) (c := list) (by simp)

/-- **A call, store by store**: it keeps the list and links only what it was given. -/
theorem Call.sim {c : Call K φ} (ha : c.Allowed list h) :
    Sim exec (Writes list c.brings) (Done list) (c.code list) h l := by
  have hret : ∀ {new : Option Ptr} {β : Type} {p : Code K φ β} {f : β → ListRes Ptr},
      Sim exec (Writes list new) (Done list) p h l →
      Sim exec (Writes list new) (Done list) (p.bind fun b => .ret (f b)) h l :=
    fun hp => Sim.bind (hp.mono fun _ _ _ hd => .ret hd)
  cases c with
  | plain op =>
    cases op with
    | insertAfter pos x =>
      obtain ⟨hpos, hx, hacc⟩ := ha
      rw [hs.linked_iff] at hpos hx
      exact hret (rcuSlistInsertAfter_sim hs hpos hx hacc)
    | appendToTail pos x =>
      obtain ⟨hpos, hx, hacc⟩ := ha
      rw [hs.linked_iff] at hpos hx
      exact hret (rcuSlistAppendToTail_sim hs hpos hx hacc)
    | prependIfNoMatch x f =>
      obtain ⟨hx, hacc⟩ := ha
      rw [hs.linked_iff] at hx
      exact hret (rcuSlistPrependIfNoMatch_sim hs hx hacc)
    | removeIf f =>
      refine hret ?_
      rw [rcuSlistRemoveIf_eq]
      exact removeLoop_sim hs ((passive hs).tests f)
    | remove head =>
      refine hret ?_
      rw [rcuSlistRemove_eq]
      exact removeLoop_sim hs (tests_ret fun q => decide (q = head))
    | findIf f =>
      refine hret ?_
      unfold rcuSlistFindIf
      simp only [load, ask, bind_def, pure_def, lift_bind, Prog.loop]
      refine .act hs.load_head (SlistRep.writes_quiet hs) ?_
      refine sim_findLoop (passive hs) f hs.elements (fun p hp => hs.accessible p (List.mem_cons_of_mem _ hp)) rfl ?_
      rw [List.foldl_fixed]
      exact .ret hs
  | appendIfNoMatch x f =>
    obtain ⟨hx, hacc⟩ := ha
    rw [hs.linked_iff] at hx
    exact hret (rcuSlistAppendIfNoMatch_sim hs hx hacc)
  | reset => exact hret (rcuSlistReset_sim hs)

end Calls

end Slist

end RcuTable
