import RcuTable.Dlist.Sequence

/-!
# Dlist.Erase — erasing while iterating

The safe iterators have read the pointer behind the current element before it is removed.  In the loop, `rest`
is what is still to come in the direction walked: the list is `kept ++ rest`, the position is the head of
`rest`, and `ahead` is the cell behind it.  To the traversals beside it the loop is a writer that removes
(`forEachErase_sim`).
-/

namespace RcuTable

namespace Dlist

open Atomic Atomic.Prog Chain

section Lists

variable {A : Type} {f : Field} {p : A} {l s t : List A}

@[simp] theorem order_order : f.order (f.order l) = l := by
  cases f
  · rfl
  · exact List.reverse_reverse l

theorem order_filter {c : A → Bool} : f.order (l.filter c) = (f.order l).filter c := by
  cases f
  · rfl
  · exact List.filter_reverse.symm

/-- A place in the order of a direction is a place in the list. -/
theorem order_split (f : Field) (s : List A) (p : A) (t : List A) :
    ∃ s' t', f.order (s ++ p :: t) = s' ++ p :: t' ∧ f.order (s ++ t) = s' ++ t' := by
  cases f with
  | next => exact ⟨s, t, rfl, rfl⟩
  | prev => exact ⟨t.reverse, s.reverse, by simp [Field.order], by simp [Field.order]⟩

end Lists

variable {A : Type} [DecidableEq A] {list : A} {h : Heap A} {f : Field} {choose : A → Bool} {l : List A}

/-- What the field of the direction walked holds, along the list. -/
theorem Ring.ahead_eq {s t : List A} {p : A} (hr : Ring list h (f.order (s ++ p :: t))) :
    h f p = t.headD list := by
  have hg : f.order (f.order (s ++ p :: t)) = (s ++ [p]) ++ t := by simp
  have hf := Rep.field_eq hr hg
  rwa [List.getLastD_concat] at hf

theorem Ring.nodup_order (hr : Ring list h l) (f : Field) : (f.order l).Nodup := Rep.nodup hr f

/-- What one action of the loop may do. -/
def Erases (list : A) (choose : A → Bool) {β : Type} (_ : Act A β) (h : Heap A) (g : View A) (h' : Heap A)
    (g' : View A) : Prop :=
  Rep list h g ∧ ∃ rem : Option A, (∀ x ∈ rem, choose x = true) ∧ Guar list none rem h g h' g'

theorem Ring.erases_quiet (hr : Ring list h l) {β : Type} {a : Act A β} :
    Erases list choose a h (fun f => f.order l) h fun f => f.order l :=
  ⟨hr, none, fun _ hx => by simp at hx, .quiet⟩

theorem safeRemoveIt_sim {kept rest : List A} {p ahead : A} (hp : choose p = true)
    (hr : Ring list h (f.order (kept ++ p :: rest))) :
    Sim exec (Erases list choose) (Post list (f.order (kept ++ rest))) (safeRemoveIt ⟨p, ahead⟩) h
      fun f' => f'.order (f.order (kept ++ p :: rest)) := by
  obtain ⟨s, t, hs, ht⟩ := order_split f kept p rest
  rw [hs] at hr ⊢
  rw [ht]
  refine (rcuDlistRemove_sim (show (Op.remove p).removes = some p from rfl) hr).weaken ?_
  rintro β a h1 g1 h2 g2 ⟨hr1, hg⟩
  exact ⟨hr1, some p, fun x hx => by rw [← Option.some.inj hx]; exact hp, hg⟩

/-- The loop, with `rest` still to come. -/
theorem forEachErase_sim_loop : ∀ {rest kept d : List A} {pos ahead : A} {h : Heap A},
    Ring list h (f.order (kept ++ rest)) → ptr list pos = rest.head? →
    (rest ≠ [] → ahead = rest.tail.headD list) →
    Sim exec (Erases list choose) (fun v h' g' => v = d ++ rest ∧
        Post list (f.order (kept ++ rest.filter fun p => !choose p)) () h' g')
      (.iter (fun (it, visited) =>
        if safeIsEnd it list then .ret (.inr visited)
        else (if choose it.pos then safeRemoveIt it else .ret ()).bind fun _ =>
          (safeAdvance f it).bind fun it' => .ret (.inl (it', visited ++ [it.pos])))
        ((⟨pos, ahead⟩ : SafeIter A), d) .ret) h fun f' => f'.order (f.order (kept ++ rest))
  | [], kept, d, pos, ahead, h, hr, hpos, _ => by
    have hend : safeIsEnd ⟨pos, ahead⟩ list = true := decide_eq_true (ptr_eq_none.mp hpos)
    refine Sim.unroll ?_
    show Sim _ _ _ (if safeIsEnd ⟨pos, ahead⟩ list then _ else _) _ _
    rw [if_pos hend]
    exact .ret (.ret ⟨(List.append_nil _).symm, hr, rfl⟩)
  | p :: rest, kept, d, pos, ahead, h, hr, hpos, hahead => by
    obtain ⟨rfl, hne⟩ := ptr_eq_some.mp hpos
    obtain rfl := hahead (List.cons_ne_nil _ _)
    have hend : ¬ safeIsEnd ⟨pos, rest.headD list⟩ list = true := fun he => hne (of_decide_eq_true he)
    -- the position moves to what was read ahead
    have hmove : ∀ {kept' : List A} {h1 : Heap A}, Ring list h1 (f.order (kept' ++ rest)) →
        ptr list (rest.headD list) = rest.head? ∧
          (rest ≠ [] → h1 f (rest.headD list) = rest.tail.headD list) := by
      intro kept' h1 hr1
      have hlist : list ∉ kept' ++ rest := fun hm => (List.nodup_cons.mp hr1.nodup).1 (mem_order.mpr hm)
      refine ⟨ptr_headD fun hm => hlist (List.mem_append_right kept' hm), ?_⟩
      intro hrest
      cases rest with
      | nil => exact absurd rfl hrest
      | cons q rest => exact hr1.ahead_eq
    refine Sim.unroll ?_
    show Sim _ _ _ (if safeIsEnd ⟨pos, rest.headD list⟩ list then _ else _) _ _
    rw [if_neg hend]
    refine Sim.bind ?_
    show Sim _ _ _ (if choose pos then safeRemoveIt _ else _) _ _
    by_cases hc : choose pos = true
    · rw [if_pos hc, List.filter_cons_of_neg (by simp [hc])]
      refine (safeRemoveIt_sim hc hr).mono ?_
      rintro _ h1 g1 ⟨hr1, rfl⟩
      obtain ⟨hpos1, hahead1⟩ := hmove hr1
      show Sim _ _ _ (.act (Act.load (rest.headD list) f) _) _ _
      refine .act rfl (Ring.erases_quiet hr1) (.ret ?_)
      rw [List.append_cons d pos rest]
      exact forEachErase_sim_loop hr1 hpos1 hahead1
    · have hr1 : Ring list h (f.order ((kept ++ [pos]) ++ rest)) := by rwa [List.append_assoc]
      obtain ⟨hpos1, hahead1⟩ := hmove hr1
      rw [if_neg hc, List.filter_cons_of_pos (by simp [hc]), List.append_cons kept pos rest,
        List.append_cons kept pos (List.filter _ _)]
      refine .ret ?_
      show Sim _ _ _ (.act (Act.load (rest.headD list) f) _) _ _
      refine .act rfl (Ring.erases_quiet hr1) (.ret ?_)
      rw [List.append_cons d pos rest]
      exact forEachErase_sim_loop hr1 hpos1 hahead1

theorem forEachErase_sim (f : Field) (choose : A → Bool) (hr : Ring list h l) :
    Sim exec (Erases list choose) (fun visited h' g' => visited = f.order l ∧
        Post list (l.filter fun p => !choose p) () h' g') (forEachErase f choose list) h fun f' => f'.order l := by
  have hr' : Ring list h (f.order ([] ++ f.order l)) := by rwa [List.nil_append, order_order]
  have hlist : list ∉ f.order l := hr.notMem f
  have hfirst : h f list = (f.order l).headD list := hr.field_eq (f := f) (s := []) rfl
  have hpos : ptr list (h f list) = (f.order l).head? := by rw [hfirst, ptr_headD hlist]
  have hahead : f.order l ≠ [] → h f (h f list) = (f.order l).tail.headD list := by
    intro hne
    rw [hfirst]
    cases hl : f.order l with
    | nil => exact absurd hl hne
    | cons p t =>
      rw [hl] at hr'
      exact hr'.ahead_eq
  have hloop := @forEachErase_sim_loop A _ list f choose (f.order l) [] [] _ _ h hr' hpos hahead
  simp only [List.nil_append, ← order_filter, order_order] at hloop
  exact .act rfl (Ring.erases_quiet hr) (.act rfl (Ring.erases_quiet hr) hloop)

/-- **Erasing while iterating**, in either direction: the loop ends, has been at every element once, in order,
and leaves the elements that were not chosen. -/
theorem forEachErase_total (f : Field) (choose : A → Bool) (hr : Ring list h l) :
    (forEachErase f choose list).Total exec h fun visited h' =>
      visited = f.order l ∧ visited.Nodup ∧ Ring list h' (l.filter fun p => !choose p) ∧
        ((∀ p ∈ l, choose p = true) → (rcuDlistEmpty list).Total exec h' fun b _ => b = true) := by
  refine (forEachErase_sim f choose hr).total.mono exec ?_
  rintro visited h' ⟨_, rfl, hrep, rfl⟩
  have hr1 : Ring list h' (l.filter fun p => !choose p) := hrep
  refine ⟨rfl, hr.nodup_order f, hr1, ?_⟩
  intro hall
  have hnone : (l.filter fun p => !choose p) = [] :=
    List.filter_eq_nil_iff.mpr fun p hp => by simp [hall p hp]
  exact hr1.refines.empty.mono exec fun b _ hb => hb.1.mpr hnone

/-- The list `1, 2, 3` with its head at `0`. -/
def threeHeap : Heap ℕ
  | .next, p => (p + 1) % 4
  | .prev, p => (p + 3) % 4

theorem threeHeap_ring : Ring 0 threeHeap [1, 2, 3]
  | .next => ⟨rfl, rfl, rfl, rfl, rfl⟩
  | .prev => ⟨rfl, rfl, rfl, rfl, rfl⟩

theorem threeHeap_erase : (forEachErase .prev (fun p => decide (p ≠ 2)) 0).Total exec threeHeap
    fun visited h' => visited = [3, 2, 1] ∧ visited.Nodup ∧ Ring 0 h' [2] ∧
      ((∀ p ∈ [1, 2, 3], decide (p ≠ 2) = true) → (rcuDlistEmpty 0).Total exec h' fun b _ => b = true) :=
  forEachErase_total .prev (fun p => decide (p ≠ 2)) threeHeap_ring

end Dlist

end RcuTable
