import RcuTable.Lib.Chain

/-!
# Itinerary — a walk along a chain that somebody else changes

The chain hangs off a head `a`; `Store` lists the stores that keep it one, each with the cells of the chain
before and after.  What a walker has passed and what lies ahead of it is its itinerary, and
`Store.itinerary` says what a store makes of it.
-/

namespace Chain

section Lists

variable {P : Type*} {m s t u : List P}

/-- A sublist does without what it has nothing of. -/
theorem sublist_of_forall_notMem (hm : m.Sublist (s ++ (t ++ u))) (ht : ∀ x ∈ m, x ∉ t) : m.Sublist (s ++ u) := by
  obtain ⟨m1, m2, rfl, h1, h2⟩ := List.sublist_append_iff.mp hm
  obtain ⟨m3, m4, rfl, h3, h4⟩ := List.sublist_append_iff.mp h2
  have hnil : m3 = [] := List.eq_nil_iff_forall_not_mem.mpr fun x hx => ht x (by simp [hx]) (h3.subset hx)
  rw [hnil, List.nil_append]
  exact h1.append h4

/-- What stands in front of `p`. -/
theorem sublist_front {p : P} (hm : (m ++ [p]).Sublist (s ++ p :: t)) (hnd : (s ++ p :: t).Nodup) : m.Sublist s := by
  obtain ⟨-, h2, h3⟩ := List.nodup_append.mp hnd
  have hpt : p ∉ t := (List.nodup_cons.mp h2).1
  obtain ⟨m1, m2, he, h4, h5⟩ := List.sublist_append_iff.mp hm
  rcases List.eq_nil_or_concat' m2 with rfl | ⟨m3, q, rfl⟩
  · rw [List.append_nil] at he
    exact absurd rfl (h3 p (h4.subset (by rw [← he]; simp)) p List.mem_cons_self)
  · rw [← List.append_assoc] at he
    obtain ⟨rfl, hq⟩ := List.append_inj' he rfl
    obtain rfl := (List.cons.inj hq).1
    cases m3 with
    | nil => rwa [List.append_nil]
    | cons b m3 =>
      -- a `p` behind another cell would be in `t`
      cases h5 with
      | cons _ h5 => exact absurd (h5.subset (by simp)) hpt
      | cons_cons _ h5 => exact absurd (h5.subset (by simp)) hpt

theorem cons_tail_append {a c : P} {l : List P} (hl : a :: l = s ++ c :: t) (u : List P) :
    a :: (s ++ c :: u).tail = s ++ c :: u := by
  cases s with
  | nil => rw [(List.cons.inj hl).1]; rfl
  | cons b s => rw [(List.cons.inj hl).1]; rfl

theorem mem_tail_append {c x : P} (s : List P) : x ∈ (s ++ c :: x :: t).tail := by
  cases s <;> simp

/-- A cell taken out is none of those that stay. -/
theorem notMem_of_cut {c y : P} (hnd : (s ++ c :: (t ++ u)).Nodup) (hy : y ∈ t) : y ∉ s ++ c :: u := by
  obtain ⟨-, h1, h2⟩ := List.nodup_append.mp hnd
  obtain ⟨hc, h3⟩ := List.nodup_cons.mp h1
  intro hm
  rcases List.mem_append.mp hm with hm | hm
  · exact h2 y hm y (by simp [hy]) rfl
  · rcases List.mem_cons.mp hm with rfl | hm
    · exact hc (List.mem_append_left u hy)
    · exact (List.nodup_append.mp h3).2.2 y hy y hm rfl

end Lists

variable {P : Type*} [DecidableEq P]

/-- A store while the chain from `a` runs through `l`: to a cell that is not on it, the one that links such a
cell, or the one that takes the cells `t` out. -/
inductive Store (a : P) (new : P → Prop) (next : P → Option P) (l : List P) : (P → Option P) → List P → Prop
  | quiet : Store a new next l next l
  | own {x : P} {v : Option P} (hn : new x) (hx : x ∉ a :: l) : Store a new next l (Function.update next x v) l
  | link {s t : List P} {c x : P} (hn : new x) (hl : a :: l = s ++ c :: t) (hx : x ∉ a :: l)
      (hnx : next x = t.head?) :
      Store a new next l (Function.update next c (some x)) (s ++ c :: x :: t).tail
  | skip {s t u : List P} {c : P} (hl : a :: l = s ++ c :: (t ++ u)) :
      Store a new next l (Function.update next c u.head?) (s ++ c :: u).tail

namespace Store

variable {a : P} {new : P → Prop} {next next' : P → Option P} {l l' m : List P}

theorem mono {new' : P → Prop} (hs : Store a new next l next' l') (hn : ∀ x, new x → new' x) :
    Store a new' next l next' l' := by
  cases hs with
  | quiet => exact .quiet
  | own hx hm => exact .own (hn _ hx) hm
  | link hx hl hm hnx => exact .link (hn _ hx) hl hm hnx
  | skip hl => exact .skip hl

theorem path (hs : Store a new next l next' l') (hl : Path next (some a) (a :: l)) :
    Path next' (some a) (a :: l') := by
  cases hs with
  | quiet => exact hl
  | own _ hx => exact hl.update_of_notMem hx
  | @link s t c x _ he hx hnx =>
    rw [cons_tail_append he]
    rw [he] at hl hx
    exact hl.link hx hnx
  | @skip s t u c he =>
    rw [cons_tail_append he]
    rw [he] at hl
    have hc : c ∉ u := fun hu =>
      (List.nodup_cons.mp (List.nodup_append.mp hl.nodup).2.1).1 (List.mem_append_right t hu)
    exact hl.redirect hl.tail.drop hc

/-- Cells that are on the chain before and after keep their order. -/
theorem order (hs : Store a new next l next' l') (hl : Path next (some a) (a :: l))
    (h1 : ∀ x ∈ m, x ∈ a :: l) (h2 : ∀ x ∈ m, x ∈ a :: l') : m.Sublist (a :: l) ↔ m.Sublist (a :: l') := by
  cases hs with
  | quiet => exact Iff.rfl
  | own => exact Iff.rfl
  | @link s t c x _ he hx _ =>
    rw [cons_tail_append he, he, List.append_cons s c t, List.append_cons s c (x :: t)]
    refine ⟨fun hm => hm.trans ((List.sublist_cons_self x t).append_left _), fun hm => ?_⟩
    refine sublist_of_forall_notMem (t := [x]) hm fun y hy hyx => hx ?_
    rw [← List.mem_singleton.mp hyx]
    exact h1 y hy
  | @skip s t u c he =>
    have hnd := hl.nodup
    rw [cons_tail_append he] at h2 ⊢
    rw [he] at hnd ⊢
    have hcut : ∀ y ∈ m, y ∉ t := fun y hy hyt => notMem_of_cut hnd hyt (h2 y hy)
    rw [List.append_cons s c (t ++ u), List.append_cons s c u]
    exact ⟨fun hm => sublist_of_forall_notMem hm hcut,
      fun hm => hm.trans ((List.sublist_append_right t u).append_left _)⟩

/-- A store that links nothing shortens the chain. -/
theorem sublist (hs : Store a new next l next' l') (hno : ∀ x ∈ l', x ∈ l) : l'.Sublist l := by
  cases hs with
  | quiet => exact List.Sublist.refl _
  | own => exact List.Sublist.refl _
  | @link s t c x _ he hx _ => exact absurd (List.mem_cons_of_mem a (hno x (mem_tail_append s))) hx
  | @skip s t u c he =>
    show List.Sublist _ (a :: l).tail
    rw [he]
    exact (((List.sublist_append_right t u).cons_cons c).append_left s).tail

/-- What one store makes of a walk from the cells `ρ` to the cells `ρ'`, behind the cells `d`. -/
structure Left (a : P) (next' : P → Option P) (l l' : List P) (v : Option P) (d ρ ρ' : List P) : Prop where
  path : Path next' v ρ'
  nodup : (d ++ ρ').Nodup
  mem : ∀ y ∈ ρ', y ∈ ρ ∨ y ∈ l'
  keeps : ∀ m : List P, m.Sublist (d ++ ρ) → (∀ y ∈ m, y ∈ a :: l') → m.Sublist (d ++ ρ')
  shrinks : (∀ x ∈ l', x ∈ l) → ρ'.Sublist ρ

/-- **What is left of a walk**, behind the cells `d`, when no cell that comes in is on the itinerary: under a
store it stays a walk that visits nothing twice, and nothing that it was not to visit and that is not linked; of
what it was to visit it loses nothing that stays linked, nor the order; and it gains nothing that was not linked
before. -/
theorem itinerary (hs : Store a new next l next' l') (hl : Path next (some a) (a :: l)) {v : Option P} {d ρ : List P}
    (hpath : Path next v ρ) (hnd : (d ++ ρ).Nodup) (hnew : ∀ x, new x → x ∉ a :: l → x ∉ d ++ ρ) :
    ∃ ρ', Left a next' l l' v d ρ ρ' := by
  have hsame : Path next' v ρ → ∃ ρ', Left a next' l l' v d ρ ρ' := fun hp =>
    ⟨ρ, hp, hnd, fun y hy => Or.inl hy, fun m hm _ => hm, fun _ => List.Sublist.refl ρ⟩
  cases hs with
  | quiet => exact hsame hpath
  | own hn hx => exact hsame (hpath.update_of_notMem fun hm => hnew _ hn hx (List.mem_append_right d hm))
  | @link s t c x hn he hx hnx =>
    by_cases hc : c ∈ ρ
    · obtain ⟨α, β, rfl⟩ := List.append_of_mem hc
      have hxρ := hnew x hn hx
      -- behind `c` the walk has the rest of the chain before it
      obtain rfl : β = t := hpath.tail_unique (he ▸ hl)
      have hsplit : ∀ u : List P, d ++ (α ++ c :: u) = (d ++ α ++ [c]) ++ u := fun u => by simp
      refine ⟨α ++ c :: x :: β, hpath.link (fun hm => hxρ (List.mem_append_right d hm)) hnx, ?_, ?_, ?_, ?_⟩
      · rw [hsplit] at hnd hxρ ⊢
        exact List.nodup_middle.mpr (List.nodup_cons.mpr ⟨hxρ, hnd⟩)
      · intro y hy
        by_cases hyx : y = x
        · exact Or.inr (hyx ▸ mem_tail_append s)
        · simp only [List.mem_append, List.mem_cons, hyx, false_or] at hy ⊢
          exact Or.inl hy
      · intro m hm _
        rw [hsplit] at hm ⊢
        exact hm.trans ((List.sublist_cons_self x β).append_left _)
      · exact fun hno => absurd (List.mem_cons_of_mem a (hno x (mem_tail_append s))) hx
    · exact hsame (hpath.update_of_notMem hc)
  | @skip s t u c he =>
    by_cases hc : c ∈ ρ
    · obtain ⟨α, β, rfl⟩ := List.append_of_mem hc
      obtain rfl : β = t ++ u := hpath.tail_unique (he ▸ hl)
      have hlnd := hl.nodup
      rw [he] at hlnd
      have hsplit : ∀ w : List P, d ++ (α ++ c :: w) = (d ++ α ++ [c]) ++ w := fun w => by simp
      have hsub : (α ++ c :: u).Sublist (α ++ c :: (t ++ u)) :=
        ((List.sublist_append_right t u).cons_cons c).append_left α
      refine ⟨α ++ c :: u, ?_, (hsub.append_left d).nodup hnd, fun y hy => Or.inl (hsub.subset hy),
        fun m hm hmem => ?_, fun _ => hsub⟩
      · refine hpath.redirect hpath.tail.drop fun hu => ?_
        exact (List.nodup_cons.mp (List.nodup_append.mp hpath.nodup).2.1).1 (List.mem_append_right t hu)
      · rw [hsplit] at hm ⊢
        refine sublist_of_forall_notMem hm fun y hy hyt => notMem_of_cut hlnd hyt ?_
        rw [← cons_tail_append he]
        exact hmem y hy
    · exact hsame (hpath.update_of_notMem hc)

end Store

end Chain
