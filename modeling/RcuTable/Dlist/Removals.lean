import Mathlib.Tactic.IntervalCases
import RcuTable.Dlist.Traversal
import RcuTable.Dlist.Erase

/-!
# Dlist.Removals — traversals that only removals overlap

As long as nothing comes in, the itinerary of a traversal loses elements and gains none: what it visits lies
between the list at its end and the list at its begin, in their order (`traversal_between`).
-/

namespace RcuTable

namespace Dlist

open Atomic Atomic.Prog Chain Trans

section Between

variable {A : Type} [DecidableEq A] {list : A} {R : Type} [DecidableEq R] {r : R} {f : Field}
  {s s' : Sys A R} {a : SysAct A R} {first : List A}

/-- A traversal that began when the list was `first`, and that only removals have overlapped. -/
structure Between (list : A) (r : R) (f : Field) (first : List A) (s : Sys A R) (p : Code A (List A))
    (d ρ : List A) (v : Option A) : Prop where
  reader : s.reader r = some (f, p)
  point : Point list f p d v
  path : Path (succ list s.heap f) v ρ
  nodup : (d ++ ρ).Nodup
  held : ∀ x ∈ d ++ ρ, x = list ∨ Linked list s.heap f x ∨ x ∈ s.pins r
  upper : (d ++ ρ).Sublist (list :: first)
  lower : ∀ l, RunsThrough list s.heap f l → (list :: l).Sublist (d ++ ρ)

theorem Between.next {p : Code A (List A)} {d ρ : List A} {v : Option A} (hb : Between list r f first s p d ρ v)
    (hs : s.step list a = some s') (hc : Change list s s') (hrun : (s'.reader r).isSome = true)
    (hno : ∀ x, Linked list s'.heap f x → Linked list s.heap f x) :
    ∃ p d ρ v, Between list r f first s' p d ρ v := by
  obtain ⟨ins, rem, g, g', hr, hg, hins, hrem⟩ := hc
  have hr' := hg.rep hr
  have hsome : (s.reader r).isSome = true := by rw [hb.reader]; rfl
  have hfresh : ∀ x, ins = some x → x ∉ list :: g f → x ∉ d ++ ρ := by
    intro x hx hxg hm
    obtain ⟨hne, hpin⟩ := hins x hx
    rcases hb.held x hm with he | hl | hp
    · exact hne he
    · exact hxg (List.mem_cons_of_mem list (hr.linked.mp hl))
    · exact hpin r hsome hp
  have hno' : ∀ x ∈ g' f, x ∈ g f := fun x hx => hr.linked.mp (hno x (hr'.linked.mpr hx))
  have hless := (hg.store hr f).sublist hno'
  obtain ⟨ρ', hpath', hnd', -, hkeep, hshort⟩ := (hg.store hr f).itinerary (hr f) hb.path hb.nodup hfresh
  have hsub := hshort hno'
  obtain ⟨hreader, hpins⟩ := reader_step hs hb.reader hrun
  have hheld : ∀ x ∈ d ++ ρ', x = list ∨ Linked list s'.heap f x ∨ x ∈ s'.pins r := by
    intro x hx
    rcases hb.held x ((hsub.append_left d).subset hx) with he | hl | hp
    · exact .inl he
    · rcases hg.mem (hr.linked.mp hl) with hx' | hx'
      · exact .inr (.inl (hr'.linked.mpr hx'))
      · exact .inr (.inr (hpins x (hrem x hx' r hsome)))
    · exact .inr (.inr (hpins x hp))
  have hupper : (d ++ ρ').Sublist (list :: first) := (hsub.append_left d).trans hb.upper
  have hlower : ∀ l, RunsThrough list s'.heap f l → (list :: l).Sublist (d ++ ρ') := by
    intro l hl
    obtain rfl := (List.cons.inj ((hr' f).det hl)).2
    exact hkeep _ ((hless.cons_cons list).trans (hb.lower _ (hr f))) fun x hx => hx
  rcases hreader with hsame | ⟨p', hmoved, hp⟩
  · exact ⟨p, d, ρ', v, hsame, hb.point, hpath', hnd', hheld, hupper, hlower⟩
  · obtain ⟨hheap, d', v', hpoint, hmove⟩ := hb.point.step hp
    rw [hheap] at hpath'
    obtain ⟨ρ'', hpath'', heq⟩ := hmove ρ' hpath'
    rw [heq] at hnd' hheld hupper hlower
    exact ⟨p', d', ρ'', v', hmoved, hpoint, hheap ▸ hpath'', hnd', hheld, hupper, hlower⟩

variable {run : Run (Sys.step (R := R) list) (Sys.Init list)} {i j : ℕ}

/-- **Between the list at its begin and the list at its end**: a traversal during which nothing is linked in its
direction visits a sublist of the list that it began on, and leaves out none of the elements that are in the list
when it ends. -/
theorem traversal_between (hc : ∀ k < run.len, (run.state k).Contract list (run.act k))
    (ht : Traversal run r f i j)
    (hno : ∀ k, i < k → k < j → ∀ x, Linked list (run.state (k + 1)).heap f x → Linked list (run.state k).heap f x) :
    ∃ p first last, (run.state j).reader r = some (f, p) ∧ RunsThrough list (run.state (i + 1)).heap f first ∧
      RunsThrough list (run.state j).heap f last ∧
      p.Total exec (run.state j).heap fun visited _ => last.Sublist visited ∧ visited.Sublist first := by
  have hinv := sysInv_of_run hc
  have hle := ht.le
  have hlt := ht.lt
  obtain ⟨g, hr, -⟩ := (hinv (i + 1) (by omega)).writer
  have hbegin : (run.state (i + 1)).reader r = some (f, forEach f list) := by
    have hstep := run.next i (by omega)
    rw [ht.began] at hstep
    generalize run.state (i + 1) = s' at hstep
    cases Sys.step_cases hstep with
    | begin _ => exact Sys.setReader_self _ |>.1
  have hwalk : ∃ p d ρ v, Between list r f (g f) (run.state j) p d ρ v := by
    refine run.window (show i + 1 ≤ j from hlt) hle (P := fun k => ∃ p d ρ v, Between list r f (g f) (run.state k) p d ρ v)
      ?_ ?_
    · refine ⟨_, [], list :: g f, _, hbegin, .start, hr f, (hr f).nodup, fun x hx => ?_, List.Sublist.refl _, fun l hl => ?_⟩
      · exact (List.mem_cons.mp hx).imp_right fun hx => .inl (hr.linked.mpr hx)
      · rw [(List.cons.inj ((hr f).det hl)).2]
        exact List.Sublist.refl _
    · rintro k hik hkj hstep ⟨p, d, ρ, v, hb⟩
      exact hb.next hstep ((hinv k (by omega)).step (hc k (by omega)) hstep).2 (ht.running (k + 1) hkj (by omega))
        (hno k hik hkj)
  obtain ⟨p, d, ρ, v, hb⟩ := hwalk
  obtain ⟨g', hr', -⟩ := (hinv j hle).writer
  refine ⟨p, g f, g' f, hb.reader, hr f, hr' f, (hb.point.total hb.path).mono exec ?_⟩
  rintro visited _ ⟨hvis, -⟩
  have hlower := hb.lower _ (hr' f)
  have hupper := hb.upper
  rw [← hvis] at hlower hupper
  exact ⟨hlower.of_cons_cons, hupper.of_cons_cons⟩

end Between

/-- The reader of `removeAndAppend` while `1` is being removed, and nothing is appended yet. -/
theorem removeAndAppend_between : ∃ p, (removeAndAppend.state 9).reader () = some (.next, p) ∧
    p.Total exec (removeAndAppend.state 9).heap fun visited _ => [2].Sublist visited ∧ visited.Sublist [1, 2] := by
  have hchain : ∀ k, 0 < k → k < 10 →
      RunsThrough 0 (removeAndAppend.state k).heap .next (if k < 7 then [1, 2] else [2]) := by
    intro k h1 h2
    interval_cases k <;> first | exact ⟨rfl, rfl, rfl, rfl⟩ | exact ⟨rfl, rfl, rfl⟩
  have hmem : ∀ k, 0 < k → k < 10 → ∀ x, Linked 0 (removeAndAppend.state k).heap .next x ↔
      x ∈ if k < 7 then [1, 2] else [2] := by
    intro k h1 h2 x
    constructor
    · rintro ⟨l, hl, hx⟩
      rwa [(List.cons.inj (hl.det (hchain k h1 h2))).2] at hx
    · exact fun hx => ⟨_, hchain k h1 h2, hx⟩
  have hno : ∀ k, 0 < k → k < 9 → ∀ x, Linked 0 (removeAndAppend.state (k + 1)).heap .next x →
      Linked 0 (removeAndAppend.state k).heap .next x := by
    intro k h1 h2 x hx
    rw [hmem (k + 1) (by omega) (by omega)] at hx
    rw [hmem k h1 (by omega)]
    by_cases hk : k < 7
    · rw [if_pos hk]
      split at hx
      · exact hx
      · exact List.mem_cons_of_mem 1 hx
    · rw [if_neg (by omega)] at hx
      rwa [if_neg hk]
  have hruns : ∀ k < removeAndAppend.len, (removeAndAppend.state k).Contract 0 (removeAndAppend.act k) := by
    decide +kernel
  obtain ⟨p, first, last, hp, hfirst, hlast, htotal⟩ := traversal_between (r := ()) (f := .next) (i := 0) (j := 9) hruns
    ⟨by decide, by decide +kernel, rfl, by decide +kernel⟩ hno
  rw [(List.cons.inj (hfirst.det (hchain 1 (by omega) (by omega)))).2,
    (List.cons.inj (hlast.det (hchain 9 (by omega) (by omega)))).2] at htotal
  exact ⟨p, hp, htotal⟩

end Dlist

end RcuTable
