import RcuTable.Dlist.Ring

/-!
# Dlist.Ops — the write operations

Each operation takes the ring of `l` to the ring of `op.apply list l`, by stores that `Guar` lists.  An element
goes in between `s` and `t`, whichever of them are empty.
-/

namespace RcuTable

namespace Dlist

open Atomic Chain

section Lists

variable {A : Type} [DecidableEq A] {list pos x : A} {l s t : List A}

theorem insertAfter_append (hs : pos ∉ s) : insertAfter pos x (s ++ pos :: t) = s ++ pos :: x :: t := by
  induction s with
  | nil => exact if_pos rfl
  | cons p s ih =>
    have hp : p ≠ pos := fun he => hs (he ▸ List.mem_cons_self)
    show (if p = pos then _ else p :: insertAfter pos x (s ++ pos :: t)) = _
    rw [if_neg hp, ih fun hm => hs (List.mem_cons_of_mem p hm)]
    rfl

theorem insertBefore_append (hs : pos ∉ s) : insertBefore pos x (s ++ pos :: t) = s ++ x :: pos :: t := by
  induction s with
  | nil => exact if_pos rfl
  | cons p s ih =>
    have hp : p ≠ pos := fun he => hs (he ▸ List.mem_cons_self)
    show (if p = pos then _ else p :: insertBefore pos x (s ++ pos :: t)) = _
    rw [if_neg hp, ih fun hm => hs (List.mem_cons_of_mem p hm)]
    rfl

/-- The place behind the list head or a linked element. -/
theorem split_after (hnd : (list :: l).Nodup) (hpos : pos ∈ list :: l) (x : A) :
    ∃ s t, l = s ++ t ∧ s.getLastD list = pos ∧ (Op.insertAfter pos x).apply list l = s ++ x :: t := by
  rcases List.mem_cons.mp hpos with rfl | hmem
  · exact ⟨[], l, rfl, rfl, if_pos rfl⟩
  · obtain ⟨s, t, rfl⟩ := List.append_of_mem hmem
    have hne : pos ≠ list := fun he => (List.nodup_cons.mp hnd).1 (he ▸ hmem)
    have hs : pos ∉ s := fun hm =>
      (List.nodup_append.mp (List.nodup_cons.mp hnd).2).2.2 pos hm pos List.mem_cons_self rfl
    refine ⟨s ++ [pos], t, by simp, List.getLastD_concat, ?_⟩
    show (if pos = list then _ else _) = _
    rw [if_neg hne, insertAfter_append hs, List.append_assoc]
    rfl

/-- The place in front of the list head or a linked element. -/
theorem split_before (hnd : (list :: l).Nodup) (hpos : pos ∈ list :: l) (x : A) :
    ∃ s t, l = s ++ t ∧ t.headD list = pos ∧ (Op.insertBefore pos x).apply list l = s ++ x :: t := by
  rcases List.mem_cons.mp hpos with rfl | hmem
  · exact ⟨l, [], (List.append_nil l).symm, rfl, if_pos rfl⟩
  · obtain ⟨s, t, rfl⟩ := List.append_of_mem hmem
    have hne : pos ≠ list := fun he => (List.nodup_cons.mp hnd).1 (he ▸ hmem)
    have hs : pos ∉ s := fun hm =>
      (List.nodup_append.mp (List.nodup_cons.mp hnd).2).2.2 pos hm pos List.mem_cons_self rfl
    refine ⟨s, pos :: t, rfl, rfl, ?_⟩
    show (if pos = list then _ else _) = _
    rw [if_neg hne, insertBefore_append hs]

end Lists

variable {A : Type} [DecidableEq A] {list : A} {h : Heap A} {op : Op A} {p q v x : A} {f f' : Field}
  {l s t : List A}

@[simp] theorem set_self : (h.set p f v) f p = v := by simp [Heap.set]

theorem set_of_field_ne (hf : f' ≠ f) : (h.set p f v) f' q = h f' q := by simp [Heap.set, hf]

/-- What an operation leaves when it ends with the elements `l`. -/
def Post (list : A) (l : List A) (_ : Unit) (h : Heap A) (g : View A) : Prop :=
  Rep list h g ∧ g = fun f => f.order l

theorem Ring.nodup (hr : Ring list h l) : (list :: l).Nodup := (hr .next).nodup

theorem Ring.next_eq (hr : Ring list h (s ++ t)) : h .next (s.getLastD list) = t.headD list :=
  hr.field_eq rfl

theorem Ring.prev_eq (hr : Ring list h (s ++ t)) : h .prev (t.headD list) = s.getLastD list := by
  have hsplit : Field.prev.order (s ++ t) = t.reverse ++ s.reverse := List.reverse_append
  have hf := Rep.field_eq hr hsplit
  rwa [reverse_getLastD, reverse_headD] at hf

/-- An element comes in between `s` and `t`. -/
theorem rcuDlistAddBetween_sim (hop : op.inserts = some x) (hr : Ring list h (s ++ t))
    (hx : x ∉ list :: (s ++ t)) :
    Sim exec (Writes list op) (Post list (s ++ x :: t))
      (rcuDlistAddBetween (s.getLastD list) (t.headD list) x) h fun f => f.order (s ++ t) := by
  have hlist : list ∉ s ++ t := (List.nodup_cons.mp hr.nodup).1
  have hsplit : Field.prev.order (s ++ t) = t.reverse ++ s.reverse := List.reverse_append
  have hown : ∀ f : Field, x ∉ list :: f.order (s ++ t) := fun f hm =>
    hx (List.mem_cons.mpr ((List.mem_cons.mp hm).imp_right mem_order.mp))
  have hr1 : Rep list (h.set x .next (t.headD list)) fun f => f.order (s ++ t) := hr.set_own hown
  have hr2 : Rep list ((h.set x .next (t.headD list)).set x .prev (s.getLastD list))
      fun f => f.order (s ++ t) := hr1.set_own hown
  have hnext : succ list ((h.set x .next (t.headD list)).set x .prev (s.getLastD list)) .next x =
      t.head? := by
    rw [succ, set_of_field_ne (by decide), set_self]
    exact ptr_headD fun hm => hlist (List.mem_append_right s hm)
  have hr3 := hr2.set_link (f := .next) (s := s) (t := t) rfl (hown _) hnext
  -- the chain of the other direction is still the old one
  have hg3 : Function.update (fun f : Field => f.order (s ++ t)) .next (s ++ x :: t) .prev =
      t.reverse ++ s.reverse := (Function.update_of_ne (by decide) _ _).trans hsplit
  have hx3 : x ∉ list :: Function.update (fun f : Field => f.order (s ++ t)) .next (s ++ x :: t) .prev := by
    rw [Function.update_of_ne (by decide)]
    exact hown .prev
  have hprev : succ list (((h.set x .next (t.headD list)).set x .prev (s.getLastD list)).set
      (s.getLastD list) .next x) .prev x = s.reverse.head? := by
    rw [succ, set_of_field_ne (by decide), set_self, ← reverse_headD]
    exact ptr_headD fun hm => hlist (List.mem_append_left t (List.mem_reverse.mp hm))
  have hr4 := hr3.set_link hg3 hx3 hprev
  have hlink4 : Guar list op.inserts op.removes _ _ _ _ := .link hop hg3 hx3 hprev
  rw [reverse_getLastD] at hr4 hlink4
  refine .act rfl ⟨hr, .own hop hown⟩ (.act rfl ⟨hr1, .own hop hown⟩
    (.act rfl ⟨hr2, .link hop rfl (hown _) hnext⟩ (.act rfl ⟨hr3, hlink4⟩ (.ret ⟨hr4, ?_⟩))))
  funext f
  cases f with
  | next => rw [Function.update_of_ne (by decide), Function.update_self]; rfl
  | prev => simp [Field.order]

/-- The element between `s` and `t` goes. -/
theorem rcuDlistRemove_sim (hop : op.removes = some x) (hr : Ring list h (s ++ x :: t)) :
    Sim exec (Writes list op) (Post list (s ++ t)) (rcuDlistRemove x) h
      fun f => f.order (s ++ x :: t) := by
  have hsplit : Field.prev.order (s ++ x :: t) = t.reverse ++ x :: s.reverse := by simp [Field.order]
  have hprev : h .prev x = s.getLastD list := hr.prev_eq
  have hnext : h .next x = t.headD list := by
    have hr' : Ring list h (s ++ [x] ++ t) := by simpa using hr
    simpa using hr'.next_eq
  have hr1 := hr.set_unlink (f := .next) (s := s) (x := x) (t := t) rfl
  have hg1 : Function.update (fun f : Field => f.order (s ++ x :: t)) .next (s ++ t) .prev =
      t.reverse ++ x :: s.reverse := (Function.update_of_ne (by decide) _ _).trans hsplit
  have hprev1 : (h.set (s.getLastD list) .next (h .next x)) .prev x = s.getLastD list :=
    (set_of_field_ne (by decide)).trans hprev
  have hr2 := hr1.set_unlink hg1
  have hun : Guar list op.inserts op.removes _ _ _ _ := .unlink (h := h.set (s.getLastD list) .next (h .next x)) hop hg1
  rw [hprev1, reverse_getLastD] at hr2 hun
  rw [hnext] at hr1 hr2 hun
  have hfirst : Guar list op.inserts op.removes h (fun f => f.order (s ++ x :: t)) _ _ := .unlink (f := .next) hop rfl
  refine .act rfl ⟨hr, .quiet⟩ (.act rfl ⟨hr, .quiet⟩ ?_)
  rw [hprev, hnext]
  rw [hnext] at hfirst
  refine .act rfl ⟨hr, hfirst⟩ (.act rfl ⟨hr1, hun⟩ (.ret ⟨hr2, ?_⟩))
  funext f
  cases f with
  | next => rw [Function.update_of_ne (by decide), Function.update_self]; rfl
  | prev => simp [Field.order]

/-- **The write operations**: from the ring of `l` to the ring of the reference list. -/
theorem Op.sim (hr : Ring list h l) (hop : op.Allowed list l) :
    Sim exec (Writes list op) (Post list (op.apply list l)) (op.code list) h fun f => f.order l := by
  cases op with
  | append x =>
    have hr' : Ring list h (l ++ []) := by rwa [List.append_nil]
    have hadd := rcuDlistAddBetween_sim (show (Op.append x).inserts = some x from rfl) hr' (by rwa [List.append_nil])
    have hlast : h .prev list = l.getLastD list := hr'.prev_eq
    rw [List.append_nil] at hadd
    refine .act rfl ⟨hr, .quiet⟩ ?_
    rw [hlast]
    exact hadd
  | prepend x =>
    have hadd := rcuDlistAddBetween_sim (s := []) (show (Op.prepend x).inserts = some x from rfl) hr hop
    have hfirst : h .next list = l.headD list := Ring.next_eq (s := []) hr
    refine .act rfl ⟨hr, .quiet⟩ ?_
    rw [hfirst]
    exact hadd
  | insertAfter pos x =>
    obtain ⟨hpos, hx⟩ := hop
    obtain ⟨s, t, rfl, rfl, hl⟩ := split_after hr.nodup hpos x
    rw [hl]
    refine .act rfl ⟨hr, .quiet⟩ ?_
    rw [hr.next_eq]
    exact rcuDlistAddBetween_sim rfl hr hx
  | insertBefore pos x =>
    obtain ⟨hpos, hx⟩ := hop
    obtain ⟨s, t, rfl, rfl, hl⟩ := split_before hr.nodup hpos x
    rw [hl]
    refine .act rfl ⟨hr, .quiet⟩ ?_
    rw [hr.prev_eq]
    exact rcuDlistAddBetween_sim rfl hr hx
  | remove x =>
    obtain ⟨s, t, rfl⟩ := List.append_of_mem (show x ∈ l from hop)
    have hnd := (List.nodup_cons.mp hr.nodup).2
    have hs : x ∉ s := fun hm => (List.nodup_append.mp hnd).2.2 x hm x List.mem_cons_self rfl
    have hl : (Op.remove x).apply list (s ++ x :: t) = s ++ t := by
      show (s ++ x :: t).erase x = _
      rw [List.erase_append_right _ hs, List.erase_cons_head]
    rw [hl]
    exact rcuDlistRemove_sim rfl hr

end Dlist

end RcuTable
