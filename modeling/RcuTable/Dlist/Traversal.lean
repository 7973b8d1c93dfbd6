import RcuTable.Dlist.Concurrent

/-!
# Dlist.Traversal — what a traversal sees while the writer works

`Point` lists the points of a traversal: the cells it has passed (the list head first) and the pointer it
follows next.  What it has passed and what lies ahead of it together form its itinerary.  A step of the reader
moves a cell from ahead to behind; a store of the writer puts an element into the itinerary that was not on it,
or takes out one that is no longer linked.
-/

namespace RcuTable

namespace Dlist

open Atomic Atomic.Prog Chain Trans

section Points

variable {A : Type} [DecidableEq A] (list : A) (f : Field)

/-- The traversal in front of its loop's test. -/
def looping (pos : A) (visited : List A) : Code A (List A) :=
  .iter (fun (it, visited) =>
    if iterIsEnd it list then .ret (.inr visited)
    else (iterAdvance f it).bind fun it' => .ret (.inl (it', visited ++ [it.pos])))
    ((⟨pos⟩ : Iter A), visited) .ret

/-- The points of a traversal, with the cells passed and the pointer to be followed. -/
inductive Point : Code A (List A) → List A → Option A → Prop
  | start : Point (forEach f list) [] (some list)
  | test (pos : A) (visited : List A) : Point (looping list f pos visited) (list :: visited) (ptr list pos)
  | advance {pos : A} (visited : List A) : pos ≠ list →
      Point (.act (.load pos f) fun v => looping list f v (visited ++ [pos])) (list :: visited) (some pos)
  | done (visited : List A) : Point (.ret visited) (list :: visited) none

end Points

variable {A : Type} [DecidableEq A] {list : A} {h h' : Heap A} {f : Field} {p p' : Code A (List A)}
  {d : List A} {v : Option A}

/-- A step of a traversal moves along its itinerary. -/
theorem Point.step (hp : Point list f p d v) (hs : p.step exec h = some (p', h')) :
    h' = h ∧ ∃ d' v', Point list f p' d' v' ∧ ∀ ρ, Path (succ list h f) v ρ →
      ∃ ρ', Path (succ list h f) v' ρ' ∧ d ++ ρ = d' ++ ρ' := by
  cases hp with
  | start =>
    obtain ⟨rfl, rfl⟩ := Prod.mk.inj (Option.some.inj hs)
    refine ⟨rfl, _, _, .test (h f list) [], ?_⟩
    intro ρ hρ
    cases ρ with
    | nil => cases hρ
    | cons q ρ =>
      obtain rfl := Option.some.inj hρ.1
      exact ⟨ρ, hρ.2, rfl⟩
  | test pos visited =>
    by_cases hpos : pos = list
    · have hend : iterIsEnd ⟨pos⟩ list = true := decide_eq_true hpos
      have hun : (looping list f pos visited).step exec h = some (.ret visited, h) := by
        show some ((if iterIsEnd ⟨pos⟩ list then _ else _ : Code A _).bind _, h) = _
        rw [if_pos hend]
        rfl
      rw [hun] at hs
      obtain ⟨rfl, rfl⟩ := Prod.mk.inj (Option.some.inj hs)
      refine ⟨rfl, _, _, .done visited, fun ρ hρ => ⟨ρ, ?_, rfl⟩⟩
      rwa [hpos, ptr_self] at hρ
    · have hend : ¬ iterIsEnd ⟨pos⟩ list = true := fun he => hpos (of_decide_eq_true he)
      have hun : (looping list f pos visited).step exec h =
          some (.act (.load pos f) fun v => looping list f v (visited ++ [pos]), h) := by
        show some ((if iterIsEnd ⟨pos⟩ list then _ else _ : Code A _).bind _, h) = _
        rw [if_neg hend]
        rfl
      rw [hun] at hs
      obtain ⟨rfl, rfl⟩ := Prod.mk.inj (Option.some.inj hs)
      refine ⟨rfl, _, _, .advance visited hpos, fun ρ hρ => ⟨ρ, ?_, rfl⟩⟩
      rwa [ptr_of_ne hpos] at hρ
  | @advance pos visited hpos =>
    obtain ⟨rfl, rfl⟩ := Prod.mk.inj (Option.some.inj hs)
    refine ⟨rfl, _, _, .test (h f pos) (visited ++ [pos]), ?_⟩
    intro ρ hρ
    cases ρ with
    | nil => cases hρ
    | cons q ρ =>
      obtain rfl := Option.some.inj hρ.1
      exact ⟨ρ, hρ.2, by simp⟩
  | done visited => cases hs

/-- Left alone, a traversal returns its itinerary. -/
theorem Point.total (hp : Point list f p d v) {ρ : List A} (hρ : Path (succ list h f) v ρ) :
    p.Total exec h fun visited h' => list :: visited = d ++ ρ ∧ h' = h := by
  cases hp with
  | start =>
    cases ρ with
    | nil => cases hρ
    | cons q ρ =>
      obtain rfl := Option.some.inj hρ.1
      refine (Runs.total (Runs.act rfl (forEach_loop (d := []) hρ.2))).mono exec ?_
      rintro _ _ ⟨rfl, rfl⟩
      exact ⟨rfl, rfl⟩
  | test pos visited =>
    refine (Runs.total (forEach_loop hρ)).mono exec ?_
    rintro _ _ ⟨rfl, rfl⟩
    exact ⟨rfl, rfl⟩
  | @advance pos visited hpos =>
    cases ρ with
    | nil => cases hρ
    | cons q ρ =>
      obtain rfl := Option.some.inj hρ.1
      refine (Runs.total (Runs.act rfl (forEach_loop hρ.2))).mono exec ?_
      rintro _ _ ⟨rfl, rfl⟩
      exact ⟨by simp, rfl⟩
  | done visited =>
    obtain rfl : ρ = [] := path_none.mp hρ
    exact .of_returns exec ⟨1, rfl⟩ ⟨by simp, rfl⟩

/-! ### The invariant of the system -/

section Invariant

variable {R : Type} (list)

/-- Where the writer is, in a heap whose chains are `g`. -/
def WriterAt (ref : List A) (h : Heap A) (g : View A) : Option (Op A × Code A Unit) → Prop
  | none => g = fun f => f.order ref
  | some (op, p) => Sim exec (Writes list op) (Post list (op.apply list ref)) p h g

structure SysInv (s : Sys A R) : Prop where
  writer : ∃ g, Rep list s.heap g ∧ WriterAt list s.ref s.heap g s.writer
  reader : ∀ r f p, s.reader r = some (f, p) → ∃ d v, Point list f p d v
  removing : ∀ x ∈ s.removing, ∀ r, (s.reader r).isSome = true → x ∈ s.pins r
  inserting : ∀ op p, s.writer = some (op, p) → ∀ x ∈ op.inserts, x ≠ list ∧
    ∀ r, (s.reader r).isSome = true → x ∉ s.pins r

/-- What a step of the system does to the memory: an element comes in that no reader may have met, or goes out
that they all have pinned. -/
def Change (s s' : Sys A R) : Prop :=
  ∃ ins rem g g', Rep list s.heap g ∧ Guar list ins rem s.heap g s'.heap g' ∧
    (∀ x ∈ ins, x ≠ list ∧ ∀ r, (s.reader r).isSome = true → x ∉ s.pins r) ∧
    ∀ x ∈ rem, ∀ r, (s.reader r).isSome = true → x ∈ s.pins r

end Invariant

theorem Op.removes_of_inserts {A : Type} {op : Op A} {x : A} (hx : x ∈ op.inserts) : op.removes = none := by
  cases op with
  | remove y => cases hx
  | _ => rfl

section

variable {R : Type} {s s' : Sys A R}

theorem Change.of_eq (hi : SysInv list s) (hh : s'.heap = s.heap) : Change list s s' := by
  obtain ⟨g, hr, -⟩ := hi.writer
  exact ⟨none, none, g, g, hr, hh ▸ .quiet, fun _ hx => by simp at hx, fun _ hx => by simp at hx⟩

theorem sysInv_init (hs : Sys.Init list s) : SysInv list s where
  writer := ⟨_, hs.ring, by rw [hs.writer]; rfl⟩
  reader r f p hr := by rw [hs.reader] at hr; cases hr
  removing x hx := by simp [Sys.removing, hs.writer] at hx
  inserting op p hw := by rw [hs.writer] at hw; cases hw

end

variable {R : Type} [DecidableEq R] {s s' : Sys A R} {r : R} {a : SysAct A R}

/-- One reader moves. -/
theorem SysInv.setReader (hi : SysInv list s) {o : Option (Field × Code A (List A))} {l : List A}
    (hp : ∀ f p, o = some (f, p) → ∃ d v, Point list f p d v)
    (hrem : ∀ x ∈ s.removing, o.isSome = true → x ∈ l)
    (hins : ∀ op p, s.writer = some (op, p) → ∀ x ∈ op.inserts, o.isSome = true → x ∉ l) :
    SysInv list (s.setReader r o l) := by
  have hself := s.setReader_self (r := r) (o := o) (l := l)
  have hother : ∀ r', r' ≠ r → _ := fun r' hne => s.setReader_of_ne (o := o) (l := l) hne
  refine ⟨hi.writer, fun r' f p hr => ?_, fun x hx r' hr => ?_, fun op p hw x hx =>
    ⟨(hi.inserting op p hw x hx).1, fun r' hr => ?_⟩⟩
  all_goals by_cases he : r' = r
  · exact hp f p (hself.1 ▸ he ▸ hr)
  · exact hi.reader r' f p ((hother r' he).1 ▸ hr)
  · subst he
    rw [hself.1] at hr
    rw [hself.2]
    exact hrem x hx hr
  · rw [(hother r' he).1] at hr
    rw [(hother r' he).2]
    exact hi.removing x hx r' hr
  · subst he
    rw [hself.1] at hr
    rw [hself.2]
    exact hins op p hw x hx hr
  · rw [(hother r' he).1] at hr
    rw [(hother r' he).2]
    exact (hi.inserting op p hw x hx).2 r' hr

theorem SysInv.call {op : Op A} (hi : SysInv list s) (hc : s.Contract list (.call op))
    (hs : s.step list (.call op) = some s') : SysInv list s' ∧ Change list s s' := by
  obtain ⟨hop, hins⟩ := hc
  cases Sys.step_cases hs with
  | call hw =>
    refine ⟨⟨?_, hi.reader, ?_, ?_⟩, .of_eq hi rfl⟩
    · obtain ⟨g, hr, hg⟩ := hi.writer
      rw [hw] at hg
      obtain rfl : g = fun f => f.order s.ref := hg
      exact ⟨_, hr, Op.sim hr hop⟩
    · intro x hx r hr
      have hx' : x ∈ op.removes := hx
      show x ∈ if (s.reader r).isSome then _ else _
      rw [if_pos hr]
      exact List.mem_append_left _ (Option.mem_toList.mpr hx')
    · intro op' p hw' x hx
      obtain ⟨rfl, -⟩ := Prod.mk.inj (Option.some.inj hw')
      have hne : x ≠ list := by
        rintro rfl
        cases op <;> simp_all [Op.Allowed, Op.inserts]
      refine ⟨hne, ?_⟩
      intro r hr
      show x ∉ if (s.reader r).isSome then _ else _
      rw [if_pos hr, Op.removes_of_inserts hx]
      exact hins x hx r hr

theorem SysInv.write (hi : SysInv list s) (hs : s.step list .write = some s') :
    SysInv list s' ∧ Change list s s' := by
  cases Sys.step_cases hs with
  | @write op p p' h' hw hp =>
    obtain ⟨g, hr, hg⟩ := hi.writer
    rw [hw] at hg
    have hrem : ∀ x ∈ op.removes, ∀ r, (s.reader r).isSome = true → x ∈ s.pins r := by
      intro x hx
      exact hi.removing x (by simpa [Sys.removing, hw] using hx)
    have hrest : ∀ g', Rep list h' g' → Sim exec (Writes list op) (Post list (op.apply list s.ref)) p' h' g' →
        SysInv list { s with heap := h', writer := some (op, p') } := by
      intro g' hr' hg'
      refine ⟨⟨g', hr', hg'⟩, hi.reader, fun x hx => hrem x hx, ?_⟩
      intro op' p'' hw'
      obtain ⟨rfl, -⟩ := Prod.mk.inj (Option.some.inj hw')
      exact hi.inserting op p hw
    rcases Sim.step hg hp with ⟨rfl, hg'⟩ | ⟨_, _, _, _, g', -, -, -, hw', hg'⟩
    · exact ⟨hrest g hr hg', .of_eq hi rfl⟩
    · exact ⟨hrest g' (hw'.2.rep hr) hg', op.inserts, op.removes, g, g', hr, hw'.2,
        hi.inserting op p hw, hrem⟩

omit [DecidableEq R] in
theorem SysInv.reuse {x : A} (hi : SysInv list s) (f : Field) (v : A) (hc : s.Contract list (.reuse x f v)) :
    SysInv list { s with heap := s.heap.set x f v } ∧ Change list s { s with heap := s.heap.set x f v } := by
  obtain ⟨hw, hx, hpins⟩ := hc
  obtain ⟨g, hr, hg⟩ := hi.writer
  rw [hw] at hg
  obtain rfl : g = fun f => f.order s.ref := hg
  have hown : ∀ f : Field, x ∉ list :: f.order s.ref := fun f hm =>
    hx (List.mem_cons.mpr ((List.mem_cons.mp hm).imp_right mem_order.mp))
  refine ⟨⟨⟨_, hr.set_own hown, ?_⟩, hi.reader, hi.removing, hi.inserting⟩,
    some x, none, _, _, hr, .own rfl hown, ?_, fun y hy => by cases hy⟩
  · show WriterAt list s.ref _ _ s.writer
    rw [hw]
    rfl
  · intro y hy
    obtain rfl := Option.some.inj hy
    exact ⟨fun he => hx (he ▸ List.mem_cons_self), hpins⟩

theorem SysInv.step (hi : SysInv list s) (hc : s.Contract list a) (hs : s.step list a = some s') :
    SysInv list s' ∧ Change list s s' := by
  cases Sys.step_cases hs with
  | @call op hw => exact hi.call hc hs
  | write hw hp => exact hi.write hs
  | @«return» op hw =>
    refine ⟨⟨?_, hi.reader, fun x hx => by simp [Sys.removing] at hx, fun op' p hw' => by cases hw'⟩,
      .of_eq hi rfl⟩
    obtain ⟨g, -, hg⟩ := hi.writer
    rw [hw] at hg
    cases hg with
    | ret hpost => exact ⟨g, hpost⟩
  | @begin r f hr =>
    refine ⟨hi.setReader ?_ (fun x hx _ => Option.mem_toList.mpr hx) ?_, .of_eq hi rfl⟩
    · intro f' p' he
      obtain ⟨rfl, rfl⟩ := Prod.mk.inj (Option.some.inj he)
      exact ⟨_, _, .start⟩
    · intro op p hw x hx _
      have hnone : s.removing = none := by simp [Sys.removing, hw, Op.removes_of_inserts hx]
      rw [hnone]
      exact List.not_mem_nil
  | @read r f p p' h' hr hp =>
    obtain ⟨d, v, hpt⟩ := hi.reader r f p hr
    obtain ⟨rfl, d', v', hpt', -⟩ := hpt.step hp
    have hsome : (s.reader r).isSome = true := by rw [hr]; rfl
    refine ⟨hi.setReader ?_ (fun x hx _ => hi.removing x hx r hsome)
      fun op p hw x hx _ => (hi.inserting op p hw x hx).2 r hsome, .of_eq hi rfl⟩
    intro f' p'' he
    obtain ⟨rfl, rfl⟩ := Prod.mk.inj (Option.some.inj he)
    exact ⟨d', v', hpt'⟩
  | finish hr =>
    exact ⟨hi.setReader (fun f p he => by cases he) (fun x _ he => by cases he)
      fun op p _ x _ he => (by cases he), .of_eq hi rfl⟩
  | @reuse x f v => exact hi.reuse f v hc

/-- A reader that stays in its traversal takes a step of it, or none; and no pin is lost. -/
theorem reader_step {f : Field} {p : Code A (List A)} (hs : s.step list a = some s')
    (hr : s.reader r = some (f, p)) (hr' : (s'.reader r).isSome = true) :
    (s'.reader r = some (f, p) ∨
      ∃ p', s'.reader r = some (f, p') ∧ p.step exec s.heap = some (p', s'.heap)) ∧
    ∀ x ∈ s.pins r, x ∈ s'.pins r := by
  cases Sys.step_cases hs with
  | @call op _ =>
    refine ⟨Or.inl hr, ?_⟩
    intro x hx
    show x ∈ if (s.reader r).isSome then _ else _
    rw [if_pos (by rw [hr]; rfl)]
    exact List.mem_append_right _ hx
  | @begin r1 f1 hr1 =>
    have hne : r ≠ r1 := by
      rintro rfl
      rw [hr] at hr1
      cases hr1
    have hother := s.setReader_of_ne (o := some (f1, forEach f1 list)) (l := s.removing.toList) hne
    exact ⟨Or.inl (hother.1.trans hr), fun x hx => hother.2 ▸ hx⟩
  | @read r1 f1 p1 p' h' hr1 hp =>
    by_cases he : r = r1
    · subst he
      obtain ⟨rfl, rfl⟩ := Prod.mk.inj (Option.some.inj (hr.symm.trans hr1))
      have hself := { s with heap := h' }.setReader_self (r := r) (o := some (f, p')) (l := s.pins r)
      refine ⟨Or.inr ⟨p', hself.1, hp⟩, ?_⟩
      intro x hx
      show x ∈ ({ s with heap := h' }.setReader r (some (f, p')) (s.pins r)).pins r
      rwa [hself.2]
    · have hother := { s with heap := h' }.setReader_of_ne (o := some (f1, p')) (l := s.pins r1) he
      exact ⟨Or.inl (hother.1.trans hr), fun x hx => hother.2 ▸ hx⟩
  | @finish r1 _ _ _ =>
    have hne : r ≠ r1 := by
      rintro rfl
      rw [s.setReader_self.1] at hr'
      cases hr'
    have hother := s.setReader_of_ne (o := none) (l := []) hne
    exact ⟨Or.inl (hother.1.trans hr), fun x hx => hother.2 ▸ hx⟩
  | write | «return» | reuse => exact ⟨Or.inl hr, fun x hx => hx⟩

/-! ### Traversals -/

section Claim

variable (list)

/-- Direction `f` of the list runs through `l`. -/
def RunsThrough (h : Heap A) (f : Field) (l : List A) : Prop := Path (succ list h f) (some list) (list :: l)

/-- `x` is linked in direction `f`. -/
def Linked (h : Heap A) (f : Field) (x : A) : Prop := ∃ l, RunsThrough list h f l ∧ x ∈ l

variable {list} (run : Run (Sys.step (R := R) list) (Sys.Init list))

/-- Reader `r` begins a traversal in step `i` and is in it up to state `j`. -/
structure Traversal (r : R) (f : Field) (i j : ℕ) : Prop where
  lt : i < j
  le : j ≤ run.len
  began : run.act i = .begin r f
  running : ∀ k ≤ j, i < k → ((run.state k).reader r).isSome = true

/-- What the elements visited are to be, seen in state `j` of a traversal that began in step `i`. -/
structure Faithful (f : Field) (i j : ℕ) (visited : List A) : Prop where
  once : visited.Nodup
  linked : ∀ x ∈ visited, ∃ k, i < k ∧ k ≤ j ∧ Linked list (run.state k).heap f x
  complete : ∀ k, i < k → k ≤ j → ∃ l, RunsThrough list (run.state k).heap f l ∧
    ((run.state k).writer = none → l = f.order (run.state k).ref) ∧
    ∀ s : List A, s.Sublist l → (∀ x ∈ s, ∀ m, i < m → m ≤ j → Linked list (run.state m).heap f x) →
      s.Sublist visited

end Claim

theorem Rep.linked {g : View A} {x : A} (hr : Rep list h g) : Linked list h f x ↔ x ∈ g f := by
  constructor
  · rintro ⟨l, hl, hx⟩
    rwa [(List.cons.inj ((hr f).det hl)).2]
  · exact fun hx => ⟨g f, hr f, hx⟩

theorem Guar.mem {ins rem : Option A} {g g' : View A} (hg : Guar list ins rem h g h' g') {x : A}
    (hx : x ∈ g f) : x ∈ g' f ∨ rem = some x := by
  cases hg with
  | quiet => exact Or.inl hx
  | own _ _ => exact Or.inl hx
  | @link f' s t y _ hs _ _ =>
    refine Or.inl ?_
    by_cases hf : f = f'
    · subst hf
      rw [Function.update_self]
      rw [hs] at hx
      simp only [List.mem_append, List.mem_cons] at hx ⊢
      tauto
    · rwa [Function.update_of_ne hf]
  | @unlink f' s t y hrem hs =>
    by_cases hf : f = f'
    · subst hf
      rw [Function.update_self]
      rw [hs] at hx
      simp only [List.mem_append, List.mem_cons] at hx ⊢
      rcases hx with hx | rfl | hx
      · exact Or.inl (Or.inl hx)
      · exact Or.inr hrem
      · exact Or.inl (Or.inr hx)
    · rw [Function.update_of_ne hf]
      exact Or.inl hx

section Walk

variable {run : Run (Sys.step (R := R) list) (Sys.Init list)}

/-- A reader in state `k` of a traversal that began in step `i`, with its itinerary `d ++ ρ`. -/
structure Walk (run : Run (Sys.step (R := R) list) (Sys.Init list)) (r : R) (f : Field) (i k : ℕ)
    (p : Code A (List A)) (d ρ : List A) (v : Option A) : Prop where
  reader : (run.state k).reader r = some (f, p)
  point : Point list f p d v
  path : Path (succ list (run.state k).heap f) v ρ
  head : (d ++ ρ).head? = some list
  nodup : (d ++ ρ).Nodup
  ever : ∀ x ∈ d ++ ρ, x ≠ list → ∃ m, i < m ∧ m ≤ k ∧ Linked list (run.state m).heap f x
  pinned : ∀ m, i < m → m ≤ k → ∀ x, Linked list (run.state m).heap f x →
    Linked list (run.state k).heap f x ∨ x ∈ (run.state k).pins r
  stay : ∀ m, i < m → m ≤ k → ∀ l, RunsThrough list (run.state m).heap f l → ∀ s : List A, s.Sublist l →
    (∀ x ∈ s, ∀ n, i < n → n ≤ k → Linked list (run.state n).heap f x) → (list :: s).Sublist (d ++ ρ)

/-- The traversal begins. -/
theorem Walk.begin {i : ℕ} (hi : i < run.len) (hb : run.act i = .begin r f)
    (hinv : SysInv list (run.state (i + 1))) :
    ∃ p d ρ v, Walk run r f i (i + 1) p d ρ v := by
  have hstep := run.next i hi
  rw [hb] at hstep
  have hread : (run.state (i + 1)).reader r = some (f, forEach f list) := by
    generalize run.state (i + 1) = s' at hstep
    cases Sys.step_cases hstep with
    | begin _ => exact Sys.setReader_self _ |>.1
  obtain ⟨g, hrep, -⟩ := hinv.writer
  have honly : ∀ m, i < m → m ≤ i + 1 → m = i + 1 := fun m h1 h2 => by omega
  refine ⟨_, [], list :: g f, _, hread, .start, hrep f, rfl, (hrep f).nodup, ?_,
    ?_, ?_⟩
  · intro x hx hne
    exact ⟨i + 1, by omega, le_rfl, hrep.linked.mpr ((List.mem_cons.mp hx).resolve_left hne)⟩
  · intro m h1 h2 x hx
    exact Or.inl (honly m h1 h2 ▸ hx)
  · intro m h1 h2 l hl s hs _
    obtain rfl := honly m h1 h2
    rw [(List.cons.inj ((hrep f).det hl)).2]
    exact hs.cons_cons list

/-- The traversal goes on. -/
theorem Walk.next {i k : ℕ} {p : Code A (List A)} {d ρ : List A} {v : Option A}
    (hw : Walk run r f i k p d ρ v) (hik : i < k) (hk : k < run.len) (hc : Change list (run.state k) (run.state (k + 1)))
    (hrun : ((run.state (k + 1)).reader r).isSome = true) :
    ∃ p d ρ v, Walk run r f i (k + 1) p d ρ v := by
  obtain ⟨ins, rem, g, g', hrep, hg, hins, hrem⟩ := hc
  have hrep' := hg.rep hrep
  have hsome : ((run.state k).reader r).isSome = true := by rw [hw.reader]; rfl
  obtain ⟨hreader, hpins⟩ := reader_step (run.next k hk) hw.reader hrun
  -- an element that comes in has not been met
  have hfresh : ∀ x, ins = some x → x ∉ g f → x ∉ d ++ ρ := by
    intro x hx hxg hm
    obtain ⟨hne, hnp⟩ := hins x hx
    obtain ⟨m, h1, h2, hl⟩ := hw.ever x hm hne
    rcases hw.pinned m h1 h2 x hl with hl | hp
    · exact hxg (hrep.linked.mp hl)
    · exact hnp r hsome hp
  obtain ⟨ρ', hpath', hnd', hmem', hsub', -⟩ := (hg.store hrep f).itinerary (hrep f) hw.path hw.nodup
    fun x hx hxg => hfresh x hx fun hm => hxg (List.mem_cons_of_mem list hm)
  have hpinned : ∀ m, i < m → m ≤ k + 1 → ∀ x, Linked list (run.state m).heap f x →
      Linked list (run.state (k + 1)).heap f x ∨ x ∈ (run.state (k + 1)).pins r := by
    intro m h1 h2 x hx
    rcases Nat.le_succ_iff.mp h2 with h2 | rfl
    · rcases hw.pinned m h1 h2 x hx with hl | hp
      · rcases hg.mem (hrep.linked.mp hl) with hx' | hx'
        · exact Or.inl (hrep'.linked.mpr hx')
        · exact Or.inr (hpins x (hrem x hx' r hsome))
      · exact Or.inr (hpins x hp)
    · exact Or.inl hx
  have hever : ∀ x ∈ d ++ ρ', x ≠ list → ∃ m, i < m ∧ m ≤ k + 1 ∧ Linked list (run.state m).heap f x := by
    intro x hx hne
    have hx' : x ∈ d ++ ρ ∨ x ∈ g' f := by
      rcases List.mem_append.mp hx with hx | hx
      · exact Or.inl (List.mem_append_left ρ hx)
      · exact (hmem' x hx).imp_left (List.mem_append_right d)
    rcases hx' with hx' | hx'
    · obtain ⟨m, h1, h2, hl⟩ := hw.ever x hx' hne
      exact ⟨m, h1, by omega, hl⟩
    · exact ⟨k + 1, by omega, le_rfl, hrep'.linked.mpr hx'⟩
  have hstay : ∀ m, i < m → m ≤ k + 1 → ∀ l, RunsThrough list (run.state m).heap f l →
      ∀ s : List A, s.Sublist l →
      (∀ x ∈ s, ∀ n, i < n → n ≤ k + 1 → Linked list (run.state n).heap f x) →
      (list :: s).Sublist (d ++ ρ') := by
    intro m h1 h2 l hl s hs hlinked
    have hsg : ∀ x ∈ s, x ∈ g f := fun x hx => hrep.linked.mp (hlinked x hx k hik (by omega))
    have hsg' : ∀ x ∈ s, x ∈ g' f := fun x hx => hrep'.linked.mp (hlinked x hx (k + 1) (by omega) le_rfl)
    have hbefore : ∀ x ∈ s, ∀ n, i < n → n ≤ k → Linked list (run.state n).heap f x :=
      fun x hx n h3 h4 => hlinked x hx n h3 (by omega)
    refine hsub' _ ?_ fun y hy => List.mem_cons.mpr ((List.mem_cons.mp hy).imp_right (hsg' y))
    rcases Nat.le_succ_iff.mp h2 with h2 | rfl
    · exact hw.stay m h1 h2 l hl s hs hbefore
    · -- the order of what stays was the same one step before
      obtain rfl := (List.cons.inj ((hrep' f).det hl)).2
      exact hw.stay k hik le_rfl _ (hrep f) s ((hg.order hrep f hsg hsg').mpr hs) hbefore
  have hhead : (d ++ ρ').head? = some list := by
    rw [← hw.head]
    cases d with
    | nil => exact hpath'.head.symm.trans hw.path.head
    | cons y d => rfl
  rcases hreader with hsame | ⟨p', hmoved, hp⟩
  · exact ⟨p, d, ρ', v, hsame, hw.point, hpath', hhead, hnd', hever, hpinned, hstay⟩
  · obtain ⟨hheap, d', v', hpoint, hmove⟩ := hw.point.step hp
    rw [hheap] at hpath'
    obtain ⟨ρ'', hpath'', heq⟩ := hmove ρ' hpath'
    rw [heq] at hhead hnd' hever hstay
    exact ⟨p', d', ρ'', v', hmoved, hpoint, hheap ▸ hpath'', hhead, hnd', hever, hpinned, hstay⟩

end Walk

/-- The invariant holds along every run under the contract. -/
theorem sysInv_of_run {run : Run (Sys.step (R := R) list) (Sys.Init list)}
    (hc : ∀ i < run.len, (run.state i).Contract list (run.act i)) : ∀ i ≤ run.len, SysInv list (run.state i) :=
  run.invariant (fun _ hs => sysInv_init hs) fun i hi hinv => (hinv.step (hc i hi) (run.next i hi)).1

/-- **Concurrent traversals**: wherever a traversal stands, it ends if it is left alone, and what it has then
visited is faithful. -/
theorem traversal_faithful (run : Run (Sys.step (R := R) list) (Sys.Init list))
    (hc : ∀ i < run.len, (run.state i).Contract list (run.act i)) {i j : ℕ}
    (ht : Traversal run r f i j) :
    ∃ p, (run.state j).reader r = some (f, p) ∧
      p.Total exec (run.state j).heap fun visited _ => Faithful run f i j visited := by
  have hinv := sysInv_of_run hc
  have hle := ht.le
  have hlt := ht.lt
  have hwalk : ∃ p d ρ v, Walk run r f i j p d ρ v := by
    refine run.window (show i + 1 ≤ j from hlt) hle (P := fun k => ∃ p d ρ v, Walk run r f i k p d ρ v)
      (Walk.begin (by omega) ht.began (hinv (i + 1) (by omega))) ?_
    rintro k hik hkj hstep ⟨p, d, ρ, v, hw⟩
    exact hw.next hik (by omega) ((hinv k (by omega)).step (hc k (by omega)) hstep).2 (ht.running (k + 1) hkj (by omega))
  obtain ⟨p, d, ρ, v, hw⟩ := hwalk
  refine ⟨p, hw.reader, (hw.point.total hw.path).mono exec ?_⟩
  rintro visited _ ⟨hvis, -⟩
  have hnd := hw.nodup
  rw [← hvis] at hnd
  refine ⟨(List.nodup_cons.mp hnd).2, ?_, ?_⟩
  · intro x hx
    refine hw.ever x (hvis ▸ List.mem_cons_of_mem _ hx) ?_
    intro he
    exact (List.nodup_cons.mp hnd).1 (he ▸ hx)
  · intro k h1 h2
    obtain ⟨g, hrep, hg⟩ := (hinv k (by omega)).writer
    refine ⟨g f, hrep f, ?_, ?_⟩
    · intro hnone
      rw [hnone] at hg
      have hg' : g = fun f => f.order (run.state k).ref := hg
      rw [hg']
    · intro s hs hlinked
      have hsub := hw.stay k h1 h2 (g f) (hrep f) s hs hlinked
      rw [← hvis] at hsub
      exact hsub.of_cons_cons

/-- The list `1, 2` with its head at `0`, and a reader. -/
def twoElements : Sys ℕ Unit where
  heap
    | .next, p => (p + 1) % 3
    | .prev, p => (p + 2) % 3
  ref := [1, 2]
  writer := none
  reader _ := none
  pins _ := []

theorem twoElements_init : Sys.Init 0 twoElements where
  ring
    | .next => ⟨rfl, rfl, rfl, rfl⟩
    | .prev => ⟨rfl, rfl, rfl, rfl⟩
  writer := rfl
  reader _ := rfl

/-- A reader stands on `1` while the writer removes it and appends `3`. -/
def removeAndAppend : Run (Sys.step (R := Unit) 0) (Sys.Init 0) :=
  Run.ofActs twoElements
    ([.begin () .next, .read (), .read (), .call (.remove 1), .write, .write, .write, .write, .return,
      .call (.append 3), .write, .write, .write, .write, .write, .return] ++ List.replicate 6 (.read ()))
    twoElements_init (by decide +kernel)

theorem removeAndAppend_faithful : ∃ p, (removeAndAppend.state 22).reader () = some (.next, p) ∧
    p.Total exec (removeAndAppend.state 22).heap fun visited _ =>
      Faithful removeAndAppend .next 0 22 visited :=
  traversal_faithful removeAndAppend (by decide +kernel)
    ⟨by decide, by decide +kernel, rfl, by decide +kernel⟩

end Dlist

end RcuTable
