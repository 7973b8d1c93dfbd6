import RcuTable.Table.Rules

/-!
# Table.Search — the search loops of the singly linked lists

`rcuSlistFindIf` and the search of `rcuSlistPrependIfNoMatch` only read: their specifications hold under any
guarantee that allows loads and questions, and say which nodes the caller's predicate is asked about.
-/

namespace RcuTable

open Atomic Chain

variable {K φ α G : Type}

/-- The nodes of a list that a search asks about: up to the first match. -/
def asked (f : Ptr → Bool) : List Ptr → List Ptr
  | [] => []
  | p :: l => if f p then [p] else p :: asked f l

/-- The answer of a search is among the nodes it asks about. -/
theorem mem_asked_of_find {f : Ptr → Bool} : ∀ {l : List Ptr} {p : Ptr}, l.find? f = some p →
    p ∈ asked f l
  | [], _, hp => by simp at hp
  | q :: l, p, hp => by
    unfold asked
    cases hq : f q with
    | true =>
      rw [List.find?_cons_of_pos hq] at hp
      simpa using (Option.some.inj hp).symm
    | false =>
      rw [List.find?_cons_of_neg (by simp [hq])] at hp
      simpa using Or.inr (mem_asked_of_find hp)

/-- A condition that all nodes asked about meet makes no difference to the answer. -/
theorem find_congr_asked {f c : Ptr → Bool} : ∀ {l : List Ptr}, (∀ p ∈ asked f l, c p = true) →
    l.find? f = l.find? fun p => c p && f p
  | [], _ => rfl
  | q :: l, hc => by
    unfold asked at hc
    cases hq : f q with
    | true =>
      rw [if_pos hq] at hc
      rw [List.find?_cons_of_pos hq, List.find?_cons_of_pos (by simp [hq, hc q List.mem_cons_self])]
    | false =>
      rw [if_neg (by simp [hq])] at hc
      rw [List.find?_cons_of_neg (by simp [hq]), List.find?_cons_of_neg (by simp [hq])]
      exact find_congr_asked fun p hp => hc p (List.mem_cons_of_mem _ hp)

/-- A guarantee that allows loads and questions in the heap `h`; `u` is what a question does to the ghost
state, of which `I` holds. -/
structure Passive (R : ∀ {β : Type}, Act K φ β → Heap K φ → G → Heap K φ → G → Prop) (h : Heap K φ)
    (I : G → Prop) (u : Ptr → G → G) : Prop where
  loadNext : ∀ p g, I g → R (.loadNext p) h g h g
  ask : ∀ p f g, I g → R (.ask p f) h g h (u p g) ∧ I (u p g)

section Loops

variable {R : ∀ {β : Type}, Act K φ β → Heap K φ → G → Heap K φ → G → Prop} {h : Heap K φ}
  {I : G → Prop} {u : Ptr → G → G} {Q : α → Heap K φ → G → Prop}

/-- The loop of `rcuSlistFindIf`. -/
theorem sim_findLoop (hR : Passive R h I u) (predict : Heap K φ → Ptr → Bool)
    {k : Option Ptr → Code K φ α} : ∀ {l : List Ptr} {v : Option Ptr} {g : G}, Path h.next v l →
    (∀ p ∈ l, h.accessible p = true) → I g →
    Sim exec R Q (k (l.find? (predict h))) h ((asked (predict h) l).foldl (fun g p => u p g) g) →
    Sim exec R Q (.iter (fun p => match p with
      | none => .ret (.inr none)
      | some q => .act (.ask q predict) fun b =>
        if b = true then .ret (.inr (some q)) else .act (.loadNext q) fun p => .ret (.inl p)) v k) h g
  | [], v, g, hpath, _, _, hk => by
    obtain rfl := hpath
    exact Sim.unroll (.ret hk)
  | q :: l, v, g, hpath, hacc, hI, hk => by
    obtain ⟨rfl, hpath⟩ := hpath
    obtain ⟨hask, hI'⟩ := hR.ask q predict g hI
    refine Sim.unroll (.act rfl hask ?_)
    unfold asked at hk
    cases hq : predict h q with
    | true =>
      rw [List.find?_cons_of_pos hq, if_pos hq] at hk
      exact .ret hk
    | false =>
      rw [List.find?_cons_of_neg (by simp [hq]), if_neg (by simp [hq])] at hk
      have hload : exec (.loadNext q) h = some (h.next q, h) := by
        simp [exec, hacc q List.mem_cons_self]
      refine .act hload (hR.loadNext q _ hI') (.ret ?_)
      exact sim_findLoop hR predict hpath (fun p hp => hacc p (List.mem_cons_of_mem _ hp)) hI' hk

/-- The loop of `rcuSlistPrependIfNoMatch`. -/
theorem sim_matchLoop (hR : Passive R h I u) (predict : Heap K φ → Ptr → Bool)
    {k : Bool → Code K φ α} : ∀ {l : List Ptr} {v : Option Ptr} {g : G}, Path h.next v l →
    (∀ p ∈ l, h.accessible p = true) → I g →
    Sim exec R Q (k (l.any (predict h))) h ((asked (predict h) l).foldl (fun g p => u p g) g) →
    Sim exec R Q (.iter (fun p => match p with
      | none => .ret (.inr false)
      | some q => .act (.ask q predict) fun b =>
        if b = true then .ret (.inr true) else .act (.loadNext q) fun p => .ret (.inl p)) v k) h g
  | [], v, g, hpath, _, _, hk => by
    obtain rfl := hpath
    exact Sim.unroll (.ret hk)
  | q :: l, v, g, hpath, hacc, hI, hk => by
    obtain ⟨rfl, hpath⟩ := hpath
    obtain ⟨hask, hI'⟩ := hR.ask q predict g hI
    refine Sim.unroll (.act rfl hask ?_)
    unfold asked at hk
    cases hq : predict h q with
    | true =>
      rw [List.any_cons, hq, Bool.true_or, if_pos rfl] at hk
      exact .ret hk
    | false =>
      rw [List.any_cons, hq, Bool.false_or, if_neg (by simp)] at hk
      have hload : exec (.loadNext q) h = some (h.next q, h) := by
        simp [exec, hacc q List.mem_cons_self]
      refine .act hload (hR.loadNext q _ hI') (.ret ?_)
      exact sim_matchLoop hR predict hpath (fun p hp => hacc p (List.mem_cons_of_mem _ hp)) hI' hk

end Loops

/-! ### The search that remembers the cell in front -/

/-- The last of the cells `c` and `s`. -/
def lastCell (c : Ptr) (s : List Ptr) : Ptr := (c :: s).getLast (List.cons_ne_nil _ _)

theorem lastCell_cons (c q : Ptr) (s : List Ptr) : lastCell c (q :: s) = lastCell q s :=
  List.getLast_cons _

/-- `lastCell c s` ends the cells in front of what follows `s`. -/
theorem exists_lastCell (c : Ptr) (s : List Ptr) : ∃ s', c :: s = s' ++ [lastCell c s] :=
  ⟨(c :: s).dropLast, (List.dropLast_concat_getLast _).symm⟩

/-- The loop of `rcuSlistRemoveIf` and `rcuSlistRemove`, by the test of an element. -/
def removeLoop (test : Ptr → Code K φ Bool) : Ptr × Option Ptr →
    Code K φ ((Ptr × Option Ptr) ⊕ Option Ptr) := fun (pLast, p) => match p with
  | none => pure (.inr none)
  | some q => do
    if ← test q then
      let pNext ← load q
      store pLast pNext
      pure (.inr (some q))
    else
      let p ← load q
      pure (.inl (q, p))

theorem rcuSlistRemoveIf_eq (list : Ptr) (predict : Heap K φ → Ptr → Bool) :
    rcuSlistRemoveIf list predict =
      (load list).bind fun p => Prog.loop (removeLoop fun q => RcuTable.ask q predict) (list, p) := rfl

theorem rcuSlistRemove_eq (list head : Ptr) :
    (rcuSlistRemove list head : Code K φ (Option Ptr)) =
      (load list).bind fun p => Prog.loop (removeLoop fun q => .ret (decide (q = head))) (list, p) := by
  have hbody : (fun x : Ptr × Option Ptr => match x with
      | (pLast, p) => match p with
        | none => pure (.inr none)
        | some q => do
          if q = head then
            let pNext ← load q
            store pLast pNext
            pure (.inr (some q))
          else
            let p ← load q
            pure (.inl (q, p))) =
      (removeLoop fun q => .ret (decide (q = head)) :
        Ptr × Option Ptr → Code K φ ((Ptr × Option Ptr) ⊕ Option Ptr)) := by
    funext ⟨pLast, p⟩
    cases p with
    | none => rfl
    | some q =>
      by_cases hq : q = head <;> simp [removeLoop, Prog.bind_def, hq]
  exact congrArg (fun body => (load list).bind fun p => Prog.loop body (list, p)) hbody

/-- Within a guarantee, `test q` answers `f q` and changes nothing but the ghost state. -/
structure Tests (R : ∀ {β : Type}, Act K φ β → Heap K φ → G → Heap K φ → G → Prop) (h : Heap K φ)
    (I : G → Prop) (test : Ptr → Code K φ Bool) (f : Ptr → Bool) : Prop where
  bind : ∀ {α : Type} {Q : α → Heap K φ → G → Prop} {k : Bool → Code K φ α} {q : Ptr} {g : G}, I g →
    (∀ g, I g → Sim exec R Q (k (f q)) h g) → Sim exec R Q ((test q).bind k) h g

section Removal

variable {R : ∀ {β : Type}, Act K φ β → Heap K φ → G → Heap K φ → G → Prop} {h : Heap K φ}
  {I : G → Prop} {u : Ptr → G → G} {Q : α → Heap K φ → G → Prop}

theorem Passive.tests (hR : Passive R h I u) (predict : Heap K φ → Ptr → Bool) :
    Tests R h I (fun q => RcuTable.ask q predict) (predict h) := by
  refine ⟨?_⟩
  intro α Q k q g hI hk
  obtain ⟨hask, hI'⟩ := hR.ask q predict g hI
  exact .act rfl hask (hk _ hI')

theorem tests_ret (f : Ptr → Bool) : Tests R h I (fun q => .ret (f q)) f := ⟨fun hI hk => hk _ hI⟩

/-- The loop from the cell `c` on: the store of the match stays to be done. -/
theorem sim_removeLoop (hR : Passive R h I u) {test : Ptr → Code K φ Bool} {f : Ptr → Bool}
    (ht : Tests R h I test f) {k : Option Ptr → Code K φ α} :
    ∀ {l : List Ptr} {c : Ptr} {v : Option Ptr} {g : G}, Path h.next v l →
    (∀ p ∈ l, h.accessible p = true) → I g →
    ((∀ p ∈ l, f p = false) → ∀ g, I g → Sim exec R Q (k none) h g) →
    (∀ s q t, l = s ++ q :: t → (∀ p ∈ s, f p = false) → f q = true → ∀ g, I g →
      Sim exec R Q (.act (.storeNext (lastCell c s) t.head?) fun _ => k (some q)) h g) →
    Sim exec R Q (.iter (removeLoop test) (c, v) k) h g := by
  intro l
  induction l with
  | nil =>
    rintro c v g rfl - hI hnone -
    exact Sim.unroll (.ret (hnone (by simp) g hI))
  | cons q l ih =>
    rintro c v g ⟨rfl, hpath⟩ hacc hI hnone hsome
    have hload : exec (.loadNext q) h = some (h.next q, h) := by
      simp [exec, hacc q List.mem_cons_self]
    refine Sim.unroll (ht.bind hI ?_)
    intro g hI
    cases hq : f q with
    | true =>
      have hstore := hsome [] q l rfl (by simp) hq g hI
      refine .act hload (hR.loadNext q g hI) ?_
      rw [hpath.head]
      cases hstore with
      | act he hr hk => exact .act he hr (.ret hk)
    | false =>
      refine .act hload (hR.loadNext q g hI) (.ret ?_)
      refine ih hpath (fun p hp => hacc p (List.mem_cons_of_mem _ hp)) hI ?_ ?_
      · intro hno
        exact hnone fun p hp => (List.mem_cons.mp hp).elim (fun he => he ▸ hq) (hno p)
      · intro s p t hl hno hp
        rw [← lastCell_cons c q s]
        refine hsome (q :: s) p t (by rw [hl]; rfl) ?_ hp
        exact fun x hx => (List.mem_cons.mp hx).elim (fun he => he ▸ hq) (hno x)

end Removal

/-! ### Three guarantees -/

/-- The writer's, in a heap that holds the view. -/
theorem Rep.passive {pm : Perm K φ} {h : Heap K φ} {g : View} (hr : Rep h g) :
    Passive (Writes pm) h (fun g' => g' = g) fun _ g' => g' where
  loadNext p g' hg := by
    subst hg
    exact Guar.quiet (.refl hr)
  ask p f g' hg := by
    subst hg
    exact ⟨Guar.quiet (.refl hr), rfl⟩

/-- None at all. -/
theorem passive_true (h : Heap K φ) :
    Passive (G := Unit) (fun _ _ _ _ _ => True) h (fun _ => True) fun _ g => g :=
  ⟨fun _ _ _ => trivial, fun _ _ _ _ => ⟨trivial, trivial⟩⟩

/-- The nodes that an action asks about. -/
def Act.asks : {β : Type} → Act K φ β → List Ptr
  | _, .ask p _ => [p]
  | _, _ => []

/-- The record of what the predicate is asked. -/
theorem passive_asks (h : Heap K φ) :
    Passive (fun a _ es _ es' => es' = es ++ a.asks) h (fun _ => True) fun p es => es ++ [p] :=
  ⟨fun _ _ _ => by simp [Act.asks], fun _ _ _ _ => ⟨rfl, trivial⟩⟩

theorem foldl_record : ∀ (l es : List Ptr), l.foldl (fun es p => es ++ [p]) es = es ++ l
  | [], es => (List.append_nil es).symm
  | p :: l, es => by
    rw [List.foldl_cons, foldl_record l, List.append_assoc]
    rfl

end RcuTable
