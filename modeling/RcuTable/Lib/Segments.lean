import Mathlib.Data.List.TakeWhile
import Mathlib.Tactic.Common

/-!
# Segments — lists cut into maximal runs of one class

`segments cls l` counts the maximal runs of equal class in `l`.  `exists_run` cuts off the first of them,
and `segments_run` says that this takes one away from the count.  The `dropWhile` lemmas are about the part
of a list from the first element of a class on.

Two lists are zipped (`Zipped`) when they share a tail that has elements of both classes, behind a pure
part of their own each.  Cutting the first segment of the tail out of the list it does not belong to opens
the zip by one segment (`Zipped.cut`).
-/

namespace Segments

variable {P : Type*} {C : Type*} [DecidableEq C] (cls : P → C)

/-- The number of maximal runs of one class. -/
def segments : List P → ℕ
  | [] => 0
  | [_] => 1
  | p :: q :: l => segments (q :: l) + if cls p = cls q then 0 else 1

variable {cls} {l r t : List P} {p q : P} {c : C}

theorem segments_pos (hl : l ≠ []) : 0 < segments cls l := by
  induction l with
  | nil => exact absurd rfl hl
  | cons p l ih =>
    cases l with
    | nil => exact Nat.one_pos
    | cons q l => exact Nat.add_pos_left (ih (List.cons_ne_nil q l)) _

/-- A run in front of a list that does not continue it is one more segment. -/
theorem segments_run (hne : r ≠ []) (hr : ∀ p ∈ r, cls p = c)
    (ht : ∀ q, t.head? = some q → cls q ≠ c) : segments cls (r ++ t) = segments cls t + 1 := by
  induction r with
  | nil => exact absurd rfl hne
  | cons p r ih =>
    have hp : cls p = c := hr p List.mem_cons_self
    cases r with
    | nil =>
      cases t with
      | nil => rfl
      | cons q t =>
        have hq : cls p ≠ cls q := by
          rw [hp]
          exact (ht q rfl).symm
        simp [segments, hq]
    | cons q r =>
      have hq : cls p = cls q := by rw [hp, hr q (by simp)]
      have h1 := ih (by simp) fun x hx => hr x (List.mem_cons_of_mem _ hx)
      simp only [List.cons_append] at h1 ⊢
      simp [segments, hq, h1]

/-- The first segment of a list, and the rest. -/
theorem exists_run (cls : P → C) (hl : l.head? = some q) : ∃ r t, l = r ++ t ∧ r ≠ [] ∧
    (∀ p ∈ r, cls p = cls q) ∧ ∀ p, t.head? = some p → cls p ≠ cls q := by
  refine ⟨l.takeWhile fun p => cls p = cls q, l.dropWhile fun p => cls p = cls q,
    List.takeWhile_append_dropWhile.symm, ?_, ?_, ?_⟩
  · cases l with
    | nil => cases hl
    | cons p l =>
      obtain rfl : p = q := Option.some.inj hl
      simp
  · intro p hp
    simpa using List.mem_takeWhile_imp hp
  · intro p hp
    have h1 := List.head?_dropWhile_not (fun p => decide (cls p = cls q)) l
    rw [hp] at h1
    simpa using h1

/-- Everything of a class is behind the first element of it. -/
theorem mem_dropWhile (hp : p ∈ l) (hc : cls p = c) :
    p ∈ l.dropWhile fun p => cls p ≠ c := by
  induction l with
  | nil => cases hp
  | cons q l ih =>
    by_cases hq : cls q = c
    · simpa [hq] using hp
    · have hpq : p ≠ q := by rintro rfl; exact hq hc
      have hp' : p ∈ l := (List.mem_cons.mp hp).resolve_left hpq
      simpa [hq] using ih hp'

theorem filter_dropWhile (l : List P) (c : C) :
    (l.dropWhile fun p => cls p ≠ c).filter (fun p => cls p = c) = l.filter fun p => cls p = c := by
  induction l with
  | nil => rfl
  | cons q l ih =>
    by_cases hq : cls q = c
    · simp [hq]
    · simpa [hq] using ih

theorem head?_dropWhile (l : List P) (c : C) :
    (l.dropWhile fun p => cls p ≠ c).head? = l.find? fun p => cls p = c := by
  induction l with
  | nil => rfl
  | cons q l ih =>
    by_cases hq : cls q = c
    · simp [hq]
    · simpa [hq] using ih

/-- A run of another class in front is dropped. -/
theorem dropWhile_append_run (hr : ∀ p ∈ r, cls p ≠ c) :
    ((r ++ t).dropWhile fun p => cls p ≠ c) = t.dropWhile fun p => cls p ≠ c := by
  induction r with
  | nil => rfl
  | cons q r ih =>
    have hq : cls q ≠ c := hr q List.mem_cons_self
    simpa [hq] using ih fun x hx => hr x (List.mem_cons_of_mem _ hx)

theorem dropWhile_of_head (ht : ∀ q, t.head? = some q → cls q = c) :
    (t.dropWhile fun p => cls p ≠ c) = t := by
  cases t with
  | nil => rfl
  | cons q t => simp [ht q rfl]

/-- Nothing is dropped in front of a run of the class. -/
theorem dropWhile_run (hne : r ≠ []) (hr : ∀ p ∈ r, cls p = c) :
    ((r ++ t).dropWhile fun p => cls p ≠ c) = r ++ t := by
  refine dropWhile_of_head ?_
  intro q hq
  cases r with
  | nil => exact absurd rfl hne
  | cons p r =>
    obtain rfl : p = q := Option.some.inj hq
    exact hr p List.mem_cons_self

/-! ### Zipped lists -/

section Zip

variable (cls)

/-- The cursor at the end of the run `r`, in front of `t`; none when nothing follows. -/
def cut (r t : List P) : Option P := if t = [] then none else r.getLast?

/-- `l` is pure of class `c` up to `x`, `l'` is pure of class `c'` up to the tail that they share; the tail
begins with class `c'` and has at most `n` segments. -/
structure Tail (c c' : C) (n : ℕ) (x : P) (u v w : List P) : Prop where
  left : ∀ p ∈ u ++ [x], cls p = c
  right : ∀ p ∈ v, cls p = c'
  ahead : ∃ y, w.head? = some y ∧ cls y = c'
  le : segments cls w ≤ n

def Zipped (c c' : C) (n : ℕ) (x : P) (l l' : List P) : Prop :=
  ∃ u v w, l = u ++ x :: w ∧ l' = v ++ w ∧ Tail cls c c' n x u v w

/-- How far `l` and `l'` are unzipped, by the cursor: completely, or up to a node of either. -/
inductive Zip (c c' : C) (n : ℕ) (l l' : List P) : Option P → Prop
  | pure (hl : ∀ p ∈ l, cls p = c) (hl' : ∀ p ∈ l', cls p = c') : Zip c c' n l l' none
  | left {x : P} (hz : Zipped cls c c' n x l l') : Zip c c' n l l' (some x)
  | right {x : P} (hz : Zipped cls c' c n x l' l) : Zip c c' n l l' (some x)

variable {cls} {c' : C} {n m : ℕ} {l' : List P} {x : P} {v : Option P}

@[simp] theorem cut_nil (r : List P) : cut r [] = none := rfl

theorem cut_cons (r t : List P) (p q : P) : cut (p :: q :: r) t = cut (q :: r) t := by
  unfold cut
  rw [List.getLast?_cons_cons]

theorem cut_append (r : List P) (x : P) (ht : t ≠ []) : cut (r ++ [x]) t = some x := by
  simp [cut, ht]

theorem Zip.symm (hz : Zip cls c c' n l l' v) : Zip cls c' c n l' l v := by
  cases hz with
  | pure hl hl' => exact .pure hl' hl
  | left hz => exact .right hz
  | right hz => exact .left hz

theorem Tail.pos {u v w : List P} (ht : Tail cls c c' n x u v w) : 0 < n := by
  obtain ⟨y, hy, -⟩ := ht.ahead
  refine Nat.lt_of_lt_of_le (segments_pos ?_) ht.le
  rintro rfl
  cases hy

/-- With no segment left there is no cursor. -/
theorem Zip.of_zero (hz : Zip cls c c' 0 l l' v) : v = none := by
  cases hz with
  | pure _ _ => rfl
  | left hz =>
    obtain ⟨_, _, _, -, -, ht⟩ := hz
    exact absurd ht.pos (Nat.lt_irrefl 0)
  | right hz =>
    obtain ⟨_, _, _, -, -, ht⟩ := hz
    exact absurd ht.pos (Nat.lt_irrefl 0)

/-- From the cursor at the end of the run `r` on, the list has one segment more than `t`. -/
theorem segments_cut (hne : r ≠ []) (hr : ∀ p ∈ r, cls p = c)
    (ht : ∀ q, t.head? = some q → cls q ≠ c) :
    ∃ s, s <:+ r ++ t ∧ s.head? = cut r t ∧ segments cls s - 1 = segments cls t := by
  by_cases hnil : t = []
  · subst hnil
    exact ⟨[], List.nil_suffix, rfl, rfl⟩
  · obtain ⟨r, z, rfl⟩ : ∃ r' z, r = r' ++ [z] :=
      ⟨r.dropLast, r.getLast hne, (List.dropLast_concat_getLast hne).symm⟩
    have hz : segments cls ([z] ++ t) = segments cls t + 1 :=
      segments_run (by simp) (fun p hp => hr p (List.mem_append_right r hp)) ht
    refine ⟨z :: t, ⟨r, by simp⟩, (cut_append r z hnil).symm, ?_⟩
    rw [← List.singleton_append, hz, Nat.add_sub_cancel]

/-- A list that begins with the run `r` of class `c` is zipped with what follows the run. -/
theorem zip_first (hne : r ≠ []) (hr : ∀ p ∈ r, cls p = c)
    (ht : ∀ q, t.head? = some q → cls q = c') :
    Zip cls c c' (segments cls t) (r ++ t) t (cut r t) := by
  by_cases hnil : t = []
  · subst hnil
    rw [cut_nil, List.append_nil]
    exact .pure hr (by simp)
  · obtain ⟨u, x, rfl⟩ : ∃ u x, r = u ++ [x] :=
      ⟨r.dropLast, r.getLast hne, (List.dropLast_concat_getLast hne).symm⟩
    obtain ⟨y, hy⟩ : ∃ y, t.head? = some y := by
      cases t with
      | nil => exact absurd rfl hnil
      | cons y t => exact ⟨y, rfl⟩
    rw [cut_append u x hnil]
    exact .left ⟨u, [], t, by simp, rfl, hr, by simp, ⟨y, hy, ht y hy⟩, le_rfl⟩

/-- The same for the two sublists that begin with the first element of either class. -/
theorem zip_dropWhile (hcc : c ≠ c') (hne : r ≠ []) (hr : ∀ p ∈ r, cls p = c)
    (ht : ∀ q, t.head? = some q → cls q = c') :
    Zip cls c c' (segments cls t) ((r ++ t).dropWhile fun p => cls p ≠ c)
      ((r ++ t).dropWhile fun p => cls p ≠ c') (cut r t) := by
  have h2 : ((r ++ t).dropWhile fun p => cls p ≠ c') = t := by
    rw [dropWhile_append_run fun p hp => by rw [hr p hp]; exact hcc]
    exact dropWhile_of_head ht
  rw [dropWhile_run hne hr, h2]
  exact zip_first hne hr ht

/-- **Opening a zip by one segment**: `r` is the segment cut out of `l`, and the cursor moves over it. -/
theorem Zipped.cut (hz : Zipped cls c c' n x l l') (hcc : c ≠ c') (hnd : l.Nodup)
    (hcls : ∀ p ∈ l, cls p = c ∨ cls p = c') :
    ∃ m u r t, n = m + 1 ∧ l = u ++ x :: (r ++ t) ∧ r ≠ [] ∧ cls x = c ∧ (∀ p ∈ r, cls p = c') ∧
      (∀ q, t.head? = some q → cls q = c) ∧ x ∉ l' ∧ r ++ t <:+ l' ∧
      Zip cls c c' m (u ++ x :: t) l' (cut r t) := by
  obtain ⟨u, v, w, rfl, rfl, htail⟩ := hz
  obtain ⟨y, hy, hyc⟩ := htail.ahead
  obtain ⟨r, t, rfl, hr0, hr, ht⟩ := exists_run cls hy
  rw [hyc] at hr ht
  have hxc : cls x = c := htail.left x (by simp)
  have ht' : ∀ q, t.head? = some q → cls q = c := by
    intro q hq
    have hqt : q ∈ t := List.mem_of_mem_head? hq
    exact (hcls q (by simp [hqt])).resolve_right (ht q hq)
  have hle := htail.le
  rw [segments_run hr0 hr ht] at hle
  obtain ⟨m, rfl⟩ : ∃ m, n = m + 1 := ⟨n - 1, by omega⟩
  have hxw : x ∉ r ++ t := (List.nodup_cons.mp (List.nodup_append.mp hnd).2.1).1
  have hxv : x ∉ v := fun hx => hcc (hxc.symm.trans (htail.right x hx))
  refine ⟨m, u, r, t, rfl, rfl, hr0, hxc, hr, ht', by simp [hxv, List.mem_append] at hxw ⊢; tauto,
    List.suffix_append v _, ?_⟩
  by_cases hnil : t = []
  · -- the tail is used up: both lists are pure
    subst hnil
    refine .pure htail.left fun p hp => ?_
    rcases List.mem_append.mp hp with hp | hp
    · exact htail.right p hp
    · exact hr p (by simpa using hp)
  · obtain ⟨r, z, rfl⟩ : ∃ r' z, r = r' ++ [z] :=
      ⟨r.dropLast, r.getLast hr0, (List.dropLast_concat_getLast hr0).symm⟩
    rw [cut_append r z hnil]
    refine .right ⟨v ++ r, u ++ [x], t, by simp, by simp, ?_, htail.left, ?_, by omega⟩
    · intro p hp
      rw [List.append_assoc] at hp
      exact (List.mem_append.mp hp).elim (htail.right p) (hr p)
    · cases t with
      | nil => exact absurd rfl hnil
      | cons q t => exact ⟨q, rfl, ht' q rfl⟩

end Zip

end Segments
