import RcuTable.Slist.Concurrent

/-!
# Slist.Search — what `rcuSlistFindIf` asks and answers while the writer works

The caller waits, as the comment on `rcuSlistRemoveIf` asks for: an element comes in, or its `next` is written,
only when no search under way has been so since an instant at which the element was linked (`Contract`).  Then
the itinerary of a search stays a chain without repetition (`Searching.next`), and what it answers is right of
the elements that stay linked (`findIf_answers`).
-/

namespace RcuTable

namespace Slist

open Atomic Atomic.Prog Chain Trans

variable {K φ R : Type} {list : Ptr}

/-! ### The points of a search -/

/-- The points of a search; `d` are the elements passed, all of them rejected. -/
inductive Point where
  | start
  | test (v : Option Ptr) (d : List Ptr)
  | ask (q : Ptr) (d : List Ptr)
  | load (q : Ptr) (d : List Ptr)
  | missed (d : List Ptr)
  | found (q : Ptr) (d : List Ptr)

namespace Point

section Code

variable (list : Ptr) (f : Heap K φ → Ptr → Bool)

/-- The search in front of its loop's test. -/
def searching (v : Option Ptr) : Code K φ (Option Ptr) :=
  .iter (fun p => match p with
    | none => .ret (.inr none)
    | some q => .act (.ask q f) fun b =>
      if b then .ret (.inr (some q)) else .act (.loadNext q) fun p => .ret (.inl p)) v .ret

/-- The program from a point on. -/
def code : Point → Code K φ (Option Ptr)
  | .start => rcuSlistFindIf list f
  | .test v _ => searching f v
  | .ask q _ => .act (.ask q f) fun b => if b then .ret (some q) else .act (.loadNext q) fun v => searching f v
  | .load q _ => .act (.loadNext q) fun v => searching f v
  | .missed _ => .ret none
  | .found q _ => .ret (some q)

/-- The cells passed, with the list head. -/
def passed : Point → List Ptr
  | .start => []
  | .test _ d | .ask _ d | .load _ d | .missed d | .found _ d => list :: d

/-- The pointer to be followed. -/
def ahead : Point → Option Ptr
  | .start => some list
  | .test v _ => v
  | .ask q _ | .load q _ | .found q _ => some q
  | .missed _ => none

def asked : Point → List Ptr
  | .start => []
  | .test _ d | .ask _ d | .missed d => d
  | .load q d | .found q d => d ++ [q]

/-- How many steps have led here. -/
def steps : Point → ℕ
  | .start => 0
  | .test _ d => 3 * d.length + 1
  | .ask _ d | .missed d => 3 * d.length + 2
  | .load _ d | .found _ d => 3 * d.length + 3

/-- What a step does, point by point. -/
inductive Moves (h : Heap K φ) : Point → Point → Prop
  | start (ha : h.accessible list = true) : Moves h .start (.test (h.next list) [])
  | last (d : List Ptr) : Moves h (.test none d) (.missed d)
  | test (q : Ptr) (d : List Ptr) : Moves h (.test (some q) d) (.ask q d)
  | hit {q : Ptr} {d : List Ptr} (hq : f h q = true) : Moves h (.ask q d) (.found q d)
  | miss {q : Ptr} {d : List Ptr} (hq : f h q = false) : Moves h (.ask q d) (.load q d)
  | load {q : Ptr} {d : List Ptr} (ha : h.accessible q = true) : Moves h (.load q d) (.test (h.next q) (d ++ [q]))

end Code

variable {h h' : Heap K φ} {f : Heap K φ → Ptr → Bool} {p' : Code K φ (Option Ptr)} {P P' : Point} {ρ : List Ptr}

theorem moves_of_step (hs : (P.code list f).step exec h = some (p', h')) :
    h' = h ∧ ∃ P' : Point, p' = P'.code list f ∧ Moves list f h P P' := by
  have hload : ∀ {q : Ptr} {k : Option Ptr → Code K φ (Option Ptr)},
      (Prog.act (Act.loadNext q) k).step exec h = some (p', h') →
      h' = h ∧ p' = k (h.next q) ∧ h.accessible q = true := by
    intro q k hs
    obtain ⟨⟨w, h1⟩, he, heq⟩ := Option.map_eq_some_iff.mp hs
    obtain ⟨ha, he⟩ := Option.ite_none_right_eq_some.mp he
    obtain ⟨rfl, rfl⟩ := Prod.mk.inj (Option.some.inj he)
    obtain ⟨rfl, rfl⟩ := Prod.mk.inj heq
    exact ⟨rfl, rfl, ha⟩
  cases P with
  | start =>
    obtain ⟨rfl, rfl, ha⟩ := hload hs
    exact ⟨rfl, .test (h'.next list) [], rfl, .start ha⟩
  | test v d =>
    cases v with
    | none =>
      obtain ⟨rfl, rfl⟩ := Prod.mk.inj (Option.some.inj hs)
      exact ⟨rfl, .missed d, rfl, .last d⟩
    | some q =>
      have hun : (searching f (some q)).step exec h = some ((Point.ask q d).code list f, h) := by
        refine congrArg (fun k : Bool → Code K φ (Option Ptr) => some (Prog.act (Act.ask q f) k, h)) (funext ?_)
        intro b
        cases b <;> rfl
      obtain ⟨rfl, rfl⟩ := Prod.mk.inj (Option.some.inj (hun.symm.trans hs))
      exact ⟨rfl, .ask q d, rfl, .test q d⟩
  | ask q d =>
    have hun : ((Point.ask q d).code list f).step exec h =
        some (if f h q then .ret (some q) else .act (.loadNext q) fun v => searching f v, h) := rfl
    obtain ⟨rfl, rfl⟩ := Prod.mk.inj (Option.some.inj (hun.symm.trans hs))
    cases hq : f h q with
    | true => exact ⟨rfl, .found q d, by simp [code], .hit hq⟩
    | false => exact ⟨rfl, .load q d, by simp [code], .miss hq⟩
  | load q d =>
    obtain ⟨rfl, rfl, ha⟩ := hload hs
    exact ⟨rfl, .test (h'.next q) (d ++ [q]), rfl, .load ha⟩
  | missed d => cases hs
  | found q d => cases hs

theorem steps_le (P : Point) : P.steps ≤ 3 * P.asked.length + 2 := by
  cases P <;> simp only [steps, asked, List.length_append, List.length_nil, List.length_singleton] <;> omega

/-- Until it has returned, a search that can load its way has a step to take. -/
theorem progress (hρ : Path h.next (P.ahead list) ρ) (hacc : ∀ x ∈ ρ, h.accessible x = true) :
    (∃ res, P.code list f = .ret res) ∨ ((P.code list f).step exec h).isSome = true := by
  have hload : ∀ {q : Ptr} {k : Option Ptr → Code K φ (Option Ptr)}, P.ahead list = some q →
      ((Prog.act (Act.loadNext q) k).step exec h).isSome = true := by
    intro q k hq
    rw [hq] at hρ
    cases ρ with
    | nil => cases hρ
    | cons q' ρ =>
      obtain rfl := Option.some.inj hρ.1
      have ha : exec (.loadNext q) h = some (h.next q, h) := if_pos (hacc q List.mem_cons_self)
      simp [Prog.step, ha]
  cases P with
  | start => exact Or.inr (hload rfl)
  | test => exact Or.inr rfl
  | ask => exact Or.inr rfl
  | load => exact Or.inr (hload rfl)
  | missed => exact Or.inl ⟨_, rfl⟩
  | found => exact Or.inl ⟨_, rfl⟩

namespace Moves

variable (hm : Moves list f h P P')

include hm

theorem steps : P'.steps = P.steps + 1 := by
  cases hm with
  | load =>
    simp only [Point.steps, List.length_append, List.length_singleton]
    omega
  | _ => rfl

theorem asked : P'.asked = P.asked ++ asking (P.code list f) := by
  cases hm with
  | hit | miss => rfl
  | _ => exact (List.append_nil _).symm

/-- A search moves along its itinerary. -/
theorem itinerary (hρ : Path h.next (P.ahead list) ρ) :
    ∃ ρ', Path h.next (P'.ahead list) ρ' ∧ P.passed list ++ ρ = P'.passed list ++ ρ' := by
  have hcell : ∀ {q : Ptr} {d : List Ptr}, Path h.next (some q) ρ →
      ∃ ρ', Path h.next (h.next q) ρ' ∧ d ++ ρ = (d ++ [q]) ++ ρ' := by
    intro q d hρ
    cases ρ with
    | nil => cases hρ
    | cons q' ρ =>
      obtain ⟨hq, hρ⟩ := hρ
      obtain rfl := Option.some.inj hq
      exact ⟨ρ, hρ, List.append_cons _ _ _⟩
  cases hm with
  | start => exact hcell (d := []) hρ
  | load => exact hcell hρ
  | last | test | hit | miss => exact ⟨ρ, hρ, rfl⟩

/-- What has been asked in the step has been rejected, or it has been found. -/
theorem rejected {x : Ptr} (hx : x ∈ asking (P.code list f)) (hne : ∀ d, P' ≠ .found x d) : f h x = false := by
  cases hm with
  | hit =>
    obtain rfl := List.mem_singleton.mp hx
    exact absurd rfl (hne _)
  | miss hq =>
    obtain rfl := List.mem_singleton.mp hx
    exact hq
  | _ => cases hx

theorem accepted {x : Ptr} {d : List Ptr} (hP : P' = .found x d) : f h x = true := by
  cases hm with
  | hit hq =>
    obtain ⟨rfl, -⟩ := Point.found.inj hP
    exact hq
  | _ => cases hP

end Moves

end Point

/-! ### The invariant of the system -/

section System

variable [DecidableEq R] {s s' : Sys K φ R} {a : SysAct K φ R} {l l' : List Ptr}

/-- What the caller promises of the list. -/
def Sys.Contract (list : Ptr) (s : Sys K φ R) : SysAct K φ R → Prop
  | .call c => c.Allowed list s.heap
  | .reuse x _ => ¬ SlistOp.Linked list s.heap x
  | _ => True

/-- The list runs through `l`, the writer is in a call, and the readers are in their searches. -/
structure SysInv (list : Ptr) (s : Sys K φ R) (l : List Ptr) : Prop where
  rep : SlistRep s.heap list l
  writer : ∀ c p, s.writer = some (c, p) → Sim exec (Writes list c.brings) (Done list) p s.heap l
  reader : ∀ r p, s.reader r = some p → ∃ (f : Heap K φ → Ptr → Bool) (P : Point), p = P.code list f

/-- The element that a step may write to although it is not linked. -/
inductive Owns (s : Sys K φ R) : SysAct K φ R → Ptr → Prop
  | write {c : Call K φ} {p : Code K φ (ListRes Ptr)} {x : Ptr} (hw : s.writer = some (c, p)) (hx : x ∈ c.brings) :
      Owns s .write x
  | reuse {x : Ptr} {v : Option Ptr} : Owns s (.reuse x v) x

/-- What a step does to the list, and to the call under way. -/
structure Change (list : Ptr) (s : Sys K φ R) (a : SysAct K φ R) (s' : Sys K φ R) (l l' : List Ptr) : Prop where
  store : Store list (Owns s a) s.heap.next l s'.heap.next l'
  accessible : s'.heap.accessible = s.heap.accessible
  writer : ∀ c p, s'.writer = some (c, p) →
    a = .call c ∨ (∃ p, s.writer = some (c, p)) ∧ ∀ x ∈ c.brings, x ∈ l → x ∈ l'

/-- A search after a step: it has not moved, it begins, or it has taken the step. -/
theorem reader_step (hs : s.step list a = some s') {r : R} {p' : Code K φ (Option Ptr)}
    (hr : s'.reader r = some p') :
    (s.reader r = some p' ∧ s'.asked r = s.asked r ∧ a ≠ .read r) ∨
      (∃ f, a = .begin r f ∧ p' = rcuSlistFindIf list f ∧ s'.asked r = []) ∨
      ∃ p, a = .read r ∧ s.reader r = some p ∧ p.step exec s.heap = some (p', s'.heap) ∧
        s'.asked r = s.asked r ++ asking p := by
  cases Sys.step_cases hs with
  | @begin r1 f hr1 =>
    by_cases he : r = r1
    · subst he
      obtain ⟨h1, h2⟩ := Sys.setReader_self (s := s) (r := r) (o := some (rcuSlistFindIf list f)) (l := [])
      exact .inr (.inl ⟨f, rfl, (Option.some.inj (h1.symm.trans hr)).symm, h2⟩)
    · obtain ⟨h1, h2⟩ := Sys.setReader_of_ne (s := s) (o := some (rcuSlistFindIf list f)) (l := []) he
      exact .inl ⟨h1.symm.trans hr, h2, fun ha => by cases ha⟩
  | @read r1 p p1 h1 hr1 hp1 =>
    by_cases he : r = r1
    · subst he
      obtain ⟨h2, h3⟩ := Sys.setReader_self (s := { s with heap := h1 }) (r := r) (o := some p1)
        (l := s.asked r ++ asking p)
      obtain rfl := Option.some.inj (h2.symm.trans hr)
      exact .inr (.inr ⟨p, rfl, hr1, hp1, h3⟩)
    · obtain ⟨h2, h3⟩ := Sys.setReader_of_ne (s := { s with heap := h1 }) (o := some p1)
        (l := s.asked r1 ++ asking p) he
      refine .inl ⟨h2.symm.trans hr, h3, fun ha => ?_⟩
      injection ha with ha
      exact he ha.symm
  | @finish r1 res hr1 =>
    have he : r ≠ r1 := by
      rintro rfl
      cases Sys.setReader_self.1.symm.trans hr
    obtain ⟨h1, h2⟩ := Sys.setReader_of_ne (s := s) (o := none) (l := []) he
    exact .inl ⟨h1.symm.trans hr, h2, fun ha => by cases ha⟩
  | _ => exact .inl ⟨hr, rfl, fun ha => by cases ha⟩

theorem SysInv.reader_next (hi : SysInv list s l) (hs : s.step list a = some s') :
    ∀ r p, s'.reader r = some p → ∃ (f : Heap K φ → Ptr → Bool) (P : Point), p = P.code list f := by
  intro r p' hr
  rcases reader_step hs hr with ⟨hr', -⟩ | ⟨f, -, rfl, -⟩ | ⟨p, -, hr', hp, -⟩
  · exact hi.reader r p' hr'
  · exact ⟨f, .start, rfl⟩
  · obtain ⟨f, P, rfl⟩ := hi.reader r p hr'
    obtain ⟨-, P', rfl, -⟩ := Point.moves_of_step hp
    exact ⟨f, P', rfl⟩

/-- A step that leaves the list and the writer alone. -/
theorem SysInv.same (hi : SysInv list s l) (hs : s.step list a = some s') (hn : s'.heap.next = s.heap.next)
    (ha : s'.heap.accessible = s.heap.accessible)
    (hw : ∀ c p, s'.writer = some (c, p) → s'.heap = s.heap ∧ s.writer = some (c, p)) :
    SysInv list s' l ∧ Change list s a s' l l := by
  refine ⟨⟨⟨hn ▸ hi.rep.path, fun p hp => ha ▸ hi.rep.accessible p hp⟩, fun c p hc => ?_, hi.reader_next hs⟩,
    hn ▸ .quiet, ha, fun c p hc => .inr ⟨⟨p, (hw c p hc).2⟩, fun x _ hx => hx⟩⟩
  obtain ⟨hheap, hc⟩ := hw c p hc
  exact hheap ▸ hi.writer c p hc

/-- **One step** under the contract. -/
theorem SysInv.step (hi : SysInv list s l) (hc : s.Contract list a) (hs : s.step list a = some s') :
    ∃ l', SysInv list s' l' ∧ Change list s a s' l l' := by
  have hreader := hi.reader_next hs
  cases Sys.step_cases hs with
  | @call c hw =>
    refine ⟨l, ⟨hi.rep, fun c' p hc' => ?_, hreader⟩, .quiet, rfl, fun c' p hc' => ?_⟩
    · obtain ⟨rfl, rfl⟩ := Prod.mk.inj (Option.some.inj hc')
      exact Call.sim hi.rep hc
    · obtain ⟨rfl, -⟩ := Prod.mk.inj (Option.some.inj hc')
      exact .inl rfl
  | @write c p p' h' hw hp =>
    rcases Sim.step (hi.writer c p hw) hp with ⟨rfl, hp'⟩ | ⟨_, _, _, _, l', -, -, -, hwr, hp'⟩
    · refine ⟨l, ⟨hi.rep, fun c' q hc' => ?_, hreader⟩, .quiet, rfl, fun c' q hc' => ?_⟩
      · obtain ⟨rfl, rfl⟩ := Prod.mk.inj (Option.some.inj hc')
        exact hp'
      · obtain ⟨rfl, -⟩ := Prod.mk.inj (Option.some.inj hc')
        exact .inr ⟨⟨p, hw⟩, fun x _ hx => hx⟩
    · refine ⟨l', ⟨hwr.after, fun c' q hc' => ?_, hreader⟩, hwr.store.mono fun x hx => .write hw hx,
        hwr.accessible, fun c' q hc' => ?_⟩
      · obtain ⟨rfl, rfl⟩ := Prod.mk.inj (Option.some.inj hc')
        exact hp'
      · obtain ⟨rfl, -⟩ := Prod.mk.inj (Option.some.inj hc')
        exact .inr ⟨⟨p, hw⟩, hwr.stays⟩
  | «return» => exact ⟨l, hi.same hs rfl rfl fun c p hc => by cases hc⟩
  | begin | finish => exact ⟨l, hi.same hs rfl rfl fun c p hc => ⟨rfl, hc⟩⟩
  | @read r p p' h' hr hp =>
    obtain ⟨f, P, rfl⟩ := hi.reader r p hr
    obtain ⟨rfl, -⟩ := Point.moves_of_step hp
    exact ⟨l, hi.same hs rfl rfl fun c p hc => ⟨rfl, hc⟩⟩
  | @prepare n x k hw =>
    refine ⟨l, hi.same hs rfl rfl fun c p hc => ?_⟩
    cases hw.symm.trans hc
  | @reuse x v hw =>
    have hx : x ∉ list :: l := fun hm => hc (hi.rep.linked_iff.mpr hm)
    have hacc : (s.heap.setNext x v).accessible = s.heap.accessible := funext fun _ => accessible_setNext
    refine ⟨l, ⟨⟨hi.rep.path.update_of_notMem hx, fun p hp => hacc ▸ hi.rep.accessible p hp⟩, fun c p hc' => ?_,
      hreader⟩, .own .reuse hx, hacc, fun c p hc' => ?_⟩
    · cases hw.symm.trans hc'
    · cases hw.symm.trans hc'

omit [DecidableEq R] in
theorem sysInv_init (hs : s.Init list) : ∃ l, SysInv list s l := by
  obtain ⟨l, hl⟩ := hs.list
  refine ⟨l, hl, fun c p hw => ?_, fun r p hr => ?_⟩
  · cases hs.writer.symm.trans hw
  · cases (hs.reader r).symm.trans hr

end System

end Slist

end RcuTable
