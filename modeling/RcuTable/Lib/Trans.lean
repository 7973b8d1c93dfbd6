import Mathlib.Algebra.Order.BigOperators.Group.Finset
import Mathlib.Data.List.GetD
import Mathlib.Order.Interval.Finset.Nat
import Mathlib.Tactic.Ring

/-!
# Trans — finite runs of a step function

A system is a step function `step : S → A → Option S`: `step s a` is the state after action `a`, and
`none` when `a` is not enabled.  A `Run` lists the states and actions of one schedule.  The rules here
carry an invariant along a run (`Run.invariant`), along a window of it (`Run.window`), build a run from a
list of actions (`Run.ofActs`), and count the steps of a window (`among`) and the threads of a system
(`tally`).
-/

namespace Trans

variable {S A : Type*} {step : S → A → Option S} {init : S → Prop}

/-- A finite run from a state of `init`: `state 0 … state len`, with `act i` taken in `state i`. -/
structure Run (step : S → A → Option S) (init : S → Prop) where
  len : ℕ
  state : ℕ → S
  act : ℕ → A
  start : init (state 0)
  next : ∀ i < len, step (state i) (act i) = some (state (i + 1))

namespace Run

variable (r : Run step init)

/-- An invariant of the initial states that every step of the run keeps holds in all its states. -/
theorem invariant {P : S → Prop} (h0 : ∀ s, init s → P s)
    (hs : ∀ i < r.len, P (r.state i) → P (r.state (i + 1))) : ∀ i ≤ r.len, P (r.state i) := by
  intro i
  induction i with
  | zero => exact fun _ => h0 _ r.start
  | succ i ih => exact fun hi => hs i hi (ih (by omega))

/-- A property of the index that holds at `i` and that every step inside the window keeps. -/
theorem window {P : ℕ → Prop} {i j : ℕ} (hij : i ≤ j) (hj : j ≤ r.len) (h0 : P i)
    (hs : ∀ k, i ≤ k → k < j → step (r.state k) (r.act k) = some (r.state (k + 1)) → P k →
      P (k + 1)) : P j := by
  induction j, hij using Nat.le_induction with
  | base => exact h0
  | succ j hij ih =>
    exact hs j hij (by omega) (r.next j (by omega))
      (ih (by omega) fun k hk hkj => hs k hk (by omega))

end Run

/-! ### Runs from a list of actions -/

/-- The state after the actions `as`, if each of them is enabled. -/
def exec (step : S → A → Option S) : S → List A → Option S
  | s, [] => some s
  | s, a :: as => (step s a).bind fun s' => exec step s' as

@[simp] theorem exec_nil (s : S) : exec step s [] = some s := rfl

theorem exec_append (s : S) (as bs : List A) :
    exec step s (as ++ bs) = (exec step s as).bind fun s' => exec step s' bs := by
  induction as generalizing s with
  | nil => rfl
  | cons a as ih =>
    simp only [List.cons_append, exec]
    cases step s a with
    | none => rfl
    | some s' => exact ih s'

/-- The prefix of length `i + 1` runs the prefix of length `i`, then the action at `i`. -/
theorem exec_take_succ {s : S} {as : List A} {i : ℕ} (hi : i < as.length) :
    exec step s (as.take (i + 1)) =
      (exec step s (as.take i)).bind fun s' => step s' as[i] := by
  rw [List.take_succ_eq_append_getElem hi, exec_append]
  congr 1
  funext s'
  simp only [exec]
  cases step s' as[i] <;> rfl

theorem exec_take_isSome {s : S} {as : List A} (h : (exec step s as).isSome) (i : ℕ) :
    (exec step s (as.take i)).isSome := by
  rw [← List.take_append_drop i as, exec_append] at h
  cases h1 : exec step s (as.take i) with
  | none => rw [h1] at h; exact absurd h (by simp)
  | some s' => rfl

/-- The run of a list of enabled actions. -/
def Run.ofActs [Inhabited A] (s : S) (as : List A) (h0 : init s) (h : (exec step s as).isSome) :
    Run step init where
  len := as.length
  state i := (exec step s (as.take i)).getD s
  act i := as.getD i default
  start := by simpa using h0
  next i hi := by
    obtain ⟨s1, h1⟩ := Option.isSome_iff_exists.mp (exec_take_isSome h i)
    obtain ⟨s2, h2⟩ := Option.isSome_iff_exists.mp (exec_take_isSome h (i + 1))
    have h3 : exec step s (as.take (i + 1)) = _ := exec_take_succ hi
    rw [h1, h2, Option.bind_some] at h3
    rw [h1, h2, List.getD_eq_getElem _ _ hi]
    exact h3.symm

theorem Run.ofActs_act_mem [Inhabited A] {s : S} {as : List A} {h0 : init s} {h : (exec step s as).isSome}
    {i : ℕ} (hi : i < as.length) : (Run.ofActs s as h0 h).act i ∈ as := by
  show as.getD i default ∈ as
  rw [List.getD_eq_getElem _ _ hi]
  exact List.getElem_mem hi

/-! ### Counting the steps of a window -/

section Among

variable (p : ℕ → Prop) [DecidablePred p] (i : ℕ)

/-- How many of the steps `i, …, j - 1` satisfy `p`. -/
def among (j : ℕ) : ℕ := ((Finset.Ico i j).filter p).card

theorem among_one : among p i (i + 1) = if p i then 1 else 0 := by
  unfold among
  rw [Nat.Ico_succ_singleton, Finset.filter_singleton]
  split <;> rfl

theorem among_succ {j : ℕ} (h : i ≤ j) :
    among p i (j + 1) = among p i j + if p j then 1 else 0 := by
  unfold among
  rw [Nat.Ico_succ_right_eq_insert_Ico h, Finset.filter_insert]
  split
  · rw [Finset.card_insert_of_notMem (by simp)]
  · rfl

variable {p i}

theorem among_succ_of_not {j : ℕ} (h : i ≤ j) (hp : ¬ p j) : among p i (j + 1) = among p i j := by
  rw [among_succ p i h, if_neg hp, Nat.add_zero]

end Among

/-! ### Counting over the threads of a system -/

section Count

variable {T P : Type*} [Fintype T]

/-- How many threads are at a program point satisfying `p`. -/
def tally (f : T → P) (p : P → Prop) [DecidablePred p] : ℤ :=
  ∑ t, if p (f t) then 1 else 0

variable {p : P → Prop} [DecidablePred p]

/-- Moving one thread changes the tally by that thread's own contribution. -/
theorem tally_update [DecidableEq T] (f : T → P) (t : T) (v : P) :
    tally (Function.update f t v) p =
      tally f p - (if p (f t) then 1 else 0) + (if p v then 1 else 0) := by
  have h1 := Finset.add_sum_erase _ (fun x => if p (f x) then (1 : ℤ) else 0) (Finset.mem_univ t)
  have h2 := Finset.add_sum_erase _ (fun x => if p (Function.update f t v x) then (1 : ℤ) else 0)
    (Finset.mem_univ t)
  have h3 : ∑ x ∈ Finset.univ.erase t, (if p (Function.update f t v x) then (1 : ℤ) else 0) =
      ∑ x ∈ Finset.univ.erase t, if p (f x) then 1 else 0 :=
    Finset.sum_congr rfl fun x hx => by rw [Function.update_of_ne (Finset.ne_of_mem_erase hx)]
  rw [h3, Function.update_self] at h2
  unfold tally
  omega

theorem tally_nonneg (f : T → P) : 0 ≤ tally f p :=
  Finset.sum_nonneg fun t _ => by split <;> simp

/-- A thread at `p` makes the tally positive. -/
theorem tally_pos {f : T → P} {t : T} (h : p (f t)) : 0 < tally f p := by
  have h1 : (if p (f t) then (1 : ℤ) else 0) ≤ tally f p :=
    Finset.single_le_sum (f := fun t => if p (f t) then (1 : ℤ) else 0)
      (fun x _ => by split <;> simp) (Finset.mem_univ t)
  rw [if_pos h] at h1
  omega

theorem tally_eq_zero {f : T → P} (h : ∀ t, ¬ p (f t)) : tally f p = 0 :=
  Finset.sum_eq_zero fun t _ => if_neg (h t)

end Count

end Trans
