import Mathlib.Data.SetLike.Basic
import Mathlib.Order.Nat
import Mathlib.Tactic.Common

/-!
# Switch — sequences of sets that change once

A sequence of sets between the indices `i` and `j`.  The elements of `own` only come in, the others only go, and
the first and the last set differ in one element at most.  Then the sequence switches once, from the first set to
the last (`exists_switchAt`).
-/

namespace Trans

/-- The sequence is `R i` up to the index `m`, and `R j` from there on. -/
structure SwitchAt {β : Type*} (R : ℕ → β) (i m j : ℕ) : Prop where
  ge : i ≤ m
  le : m ≤ j
  before : ∀ k, i ≤ k → k < m → R k = R i
  after : ∀ k, m ≤ k → k ≤ j → R k = R j

/-- A property that is never lost holds from one index on, or never. -/
theorem switch_of_keep {S : ℕ → Prop} {i j : ℕ} (hij : i ≤ j)
    (hkeep : ∀ k, i ≤ k → k < j → S k → S (k + 1)) :
    ∃ m, i ≤ m ∧ m ≤ j ∧ (∀ k, i ≤ k → k < m → (S k ↔ S i)) ∧ ∀ k, m ≤ k → k ≤ j → (S k ↔ S j) := by
  have hle : ∀ k, i ≤ k → ∀ l, k ≤ l → l ≤ j → S k → S l := by
    intro k hk l hkl
    induction l, hkl using Nat.le_induction with
    | base => exact fun _ => id
    | succ l hkl ih => exact fun hl hS => hkeep l (hk.trans hkl) hl (ih (by omega) hS)
  classical
  by_cases hj : S j
  · have hex : ∃ m, i ≤ m ∧ S m := ⟨j, hij, hj⟩
    obtain ⟨hge, hfirst⟩ := Nat.find_spec hex
    have hmin : ∀ k, i ≤ k → k < Nat.find hex → ¬ S k := fun k hik hk hS => Nat.find_min hex hk ⟨hik, hS⟩
    refine ⟨Nat.find hex, hge, Nat.find_min' hex ⟨hij, hj⟩, ?_, ?_⟩
    · exact fun k hik hk => iff_of_false (hmin k hik hk) (hmin i le_rfl (hik.trans_lt hk))
    · exact fun k hk hkj => iff_of_true (hle _ hge k hk hkj hfirst) hj
  · have hno : ∀ k, i ≤ k → k ≤ j → ¬ S k := fun k hik hkj hS => hj (hle k hik j hkj le_rfl hS)
    exact ⟨j, hij, le_rfl, fun k hik hk => iff_of_false (hno k hik hk.le) (hno i le_rfl hij),
      fun k hk hkj => iff_of_false (hno k (hij.trans hk) hkj) hj⟩

/-- **One switch.**  The elements of `own` only come in, the others only go, and the ends differ in `q` at most. -/
theorem exists_switchAt {α β : Type*} [SetLike β α] {R : ℕ → β} {own : α → Prop} {i j : ℕ} (hij : i ≤ j)
    (hin : ∀ k, i ≤ k → k < j → ∀ x, own x → x ∈ R k → x ∈ R (k + 1))
    (hout : ∀ k, i ≤ k → k < j → ∀ x, x ∈ R (k + 1) → x ∈ R k ∨ own x)
    {q : α} (hq : ∀ x, x ≠ q → (x ∈ R i ↔ x ∈ R j)) : ∃ m, SwitchAt R i m j := by
  -- every element changes sides once
  have hx : ∀ x, ∃ m, i ≤ m ∧ m ≤ j ∧ (∀ k, i ≤ k → k < m → (x ∈ R k ↔ x ∈ R i)) ∧
      ∀ k, m ≤ k → k ≤ j → (x ∈ R k ↔ x ∈ R j) := by
    intro x
    by_cases ho : own x
    · exact switch_of_keep hij fun k hik hkj => hin k hik hkj x ho
    · obtain ⟨m, h1, h2, h3, h4⟩ := switch_of_keep (S := fun k => x ∉ R k) hij fun k hik hkj hk hk' =>
        (hout k hik hkj x hk').elim hk ho
      exact ⟨m, h1, h2, fun k hik hk => not_iff_not.mp (h3 k hik hk), fun k hk hkj => not_iff_not.mp (h4 k hk hkj)⟩
  have hother : ∀ x, x ≠ q → ∀ k, i ≤ k → k ≤ j → (x ∈ R k ↔ x ∈ R i) := by
    intro x hne k hik hkj
    obtain ⟨m, -, -, h3, h4⟩ := hx x
    rcases Nat.lt_or_ge k m with hk | hk
    · exact h3 k hik hk
    · exact (h4 k hk hkj).trans (hq x hne).symm
  obtain ⟨m, h1, h2, h3, h4⟩ := hx q
  refine ⟨m, h1, h2, fun k hik hk => SetLike.ext fun x => ?_, fun k hk hkj => SetLike.ext fun x => ?_⟩
  · by_cases hxq : x = q
    · exact hxq ▸ h3 k hik hk
    · exact hother x hxq k hik (by omega)
  · by_cases hxq : x = q
    · exact hxq ▸ h4 k hk hkj
    · exact (hother x hxq k (by omega) hkj).trans (hq x hxq)

end Trans
