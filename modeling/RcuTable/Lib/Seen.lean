import RcuTable.Lib.Trans

/-!
# Seen — what is seen of a run through a map of its states

A system whose state holds that of another one takes steps of that one, and steps that leave it as it is.  A run
of the first is then one of the second, with fewer steps (`Run.exists_seen`); `nrSeen` says which of them are
which.
-/

namespace Trans

section Seen

variable {S A S' B : Type*} {step : S → A → Option S} {init : S → Prop} {step' : S' → B → Option S'}
  {init' : S' → Prop} {see : ℕ → Option B} {i j k n : ℕ} {a b : B}

/-- How many of the first `i` steps are seen, when `see` says what is seen of each. -/
def nrSeen (see : ℕ → Option B) (i : ℕ) : ℕ := among (fun k => (see k).isSome = true) 0 i

theorem nrSeen_none (h : see i = none) : nrSeen see (i + 1) = nrSeen see i :=
  among_succ_of_not (Nat.zero_le i) (by simp [h])

theorem nrSeen_some (h : see i = some b) : nrSeen see (i + 1) = nrSeen see i + 1 := by
  unfold nrSeen
  rw [among_succ _ 0 (Nat.zero_le i), if_pos (by simp [h])]

theorem nrSeen_mono (hij : i ≤ j) : nrSeen see i ≤ nrSeen see j := by
  induction j, hij using Nat.le_induction with
  | base => exact le_rfl
  | succ j _ ih =>
    cases h : see j with
    | none => exact ih.trans (nrSeen_none h).ge
    | some b => exact ih.trans ((Nat.le_succ _).trans (nrSeen_some h).ge)

/-- No number is left out. -/
theorem exists_nrSeen (hij : i ≤ j) (h1 : nrSeen see i ≤ k) (h2 : k ≤ nrSeen see j) :
    ∃ m, i ≤ m ∧ m ≤ j ∧ nrSeen see m = k := by
  induction j, hij using Nat.le_induction with
  | base => exact ⟨i, le_rfl, le_rfl, Nat.le_antisymm h1 h2⟩
  | succ j hij ih =>
    by_cases h : k ≤ nrSeen see j
    · obtain ⟨m, h3, h4, h5⟩ := ih h
      exact ⟨m, h3, Nat.le_succ_of_le h4, h5⟩
    · refine ⟨j + 1, Nat.le_succ_of_le hij, le_rfl, ?_⟩
      cases hs : see j with
      | none => exact absurd (nrSeen_none hs ▸ h2) h
      | some b =>
        have := nrSeen_some hs
        omega

theorem exists_seen_step (h : k < nrSeen see n) : ∃ i < n, ∃ b, see i = some b ∧ nrSeen see i = k := by
  induction n with
  | zero =>
    have hzero : nrSeen see 0 = 0 := rfl
    omega
  | succ n ih =>
    by_cases hk : k < nrSeen see n
    · obtain ⟨i, hi, hb⟩ := ih hk
      exact ⟨i, Nat.lt_succ_of_lt hi, hb⟩
    · cases hs : see n with
      | none => exact absurd (nrSeen_none hs ▸ h) hk
      | some b =>
        have := nrSeen_some hs
        exact ⟨n, Nat.lt_succ_self n, b, hs, by omega⟩

/-- `r'` is what is seen through `π` of the first `n` steps of the run `r`. -/
structure Seen (r : Run step init) (π : S → S') (see : ℕ → Option B) (n : ℕ) (r' : Run step' init') : Prop where
  len : r'.len = nrSeen see n
  state : ∀ i ≤ n, r'.state (nrSeen see i) = π (r.state i)
  act : ∀ i < n, ∀ b, see i = some b → r'.act (nrSeen see i) = b

/-- One step more. -/
def Run.snoc (r : Run step init) (a : A) (s : S) (hs : step (r.state r.len) a = some s) : Run step init where
  len := r.len + 1
  state i := if i ≤ r.len then r.state i else s
  act i := if i < r.len then r.act i else a
  start := by simpa using r.start
  next i hi := by
    rcases Nat.lt_succ_iff_lt_or_eq.mp hi with hi | rfl
    · rw [if_pos hi.le, if_pos hi, if_pos (Nat.succ_le_of_lt hi)]
      exact r.next i hi
    · rw [if_pos le_rfl, if_neg (Nat.lt_irrefl _), if_neg (Nat.not_succ_le_self _)]
      exact hs

namespace Seen

variable {r : Run step init} {π : S → S'} {r' : Run step' init'}

theorem hidden (hr : Seen r π see n r') (hn : see n = none) (hsame : π (r.state (n + 1)) = π (r.state n)) :
    Seen r π see (n + 1) r' where
  len := hr.len.trans (nrSeen_none hn).symm
  state i hi := by
    rcases Nat.le_succ_iff.mp hi with hi | rfl
    · exact hr.state i hi
    · rw [nrSeen_none hn, hsame]
      exact hr.state n le_rfl
  act i hi b hb := by
    rcases Nat.lt_succ_iff_lt_or_eq.mp hi with hi | rfl
    · exact hr.act i hi b hb
    · cases hn.symm.trans hb

theorem shown (hr : Seen r π see n r') (hn : see n = some b)
    (hs : step' (π (r.state n)) b = some (π (r.state (n + 1)))) :
    ∃ r'' : Run step' init', Seen r π see (n + 1) r'' := by
  have hnow : step' (r'.state r'.len) b = some (π (r.state (n + 1))) := by
    rw [hr.len, hr.state n le_rfl]
    exact hs
  refine ⟨r'.snoc b _ hnow, ?_, fun i hi => ?_, fun i hi b' hb => ?_⟩
  · show r'.len + 1 = _
    rw [hr.len, nrSeen_some hn]
  · show (if nrSeen see i ≤ r'.len then r'.state (nrSeen see i) else π (r.state (n + 1))) = _
    rw [hr.len]
    rcases Nat.le_succ_iff.mp hi with hi | rfl
    · rw [if_pos (nrSeen_mono hi)]
      exact hr.state i hi
    · rw [if_neg]
      rw [nrSeen_some hn]
      exact Nat.not_succ_le_self _
  · show (if nrSeen see i < r'.len then r'.act (nrSeen see i) else b) = _
    rw [hr.len]
    rcases Nat.lt_succ_iff_lt_or_eq.mp hi with hi | rfl
    · rw [if_pos]
      · exact hr.act i hi b' hb
      · have hlt := nrSeen_some hb
        have hle : nrSeen see (i + 1) ≤ nrSeen see n := nrSeen_mono hi
        omega
    · rw [if_neg (Nat.lt_irrefl _)]
      exact Option.some.inj (hn.symm.trans hb)

/-- The step of `r` that a step of `r'` is. -/
theorem at_step (hr : Seen r π see n r') (hk : k < r'.len) :
    ∃ i < n, ∃ b, see i = some b ∧ r'.state k = π (r.state i) ∧ r'.act k = b := by
  obtain ⟨i, hi, b, hb, rfl⟩ := exists_seen_step (hr.len ▸ hk)
  exact ⟨i, hi, b, hb, hr.state i hi.le, hr.act i hi b hb⟩

/-- What is seen between two states is seen of a state between them. -/
theorem at_state (hr : Seen r π see n r') (hij : i ≤ j) (hj : j ≤ n) (h1 : nrSeen see i ≤ k)
    (h2 : k ≤ nrSeen see j) : ∃ m, i ≤ m ∧ m ≤ j ∧ r'.state k = π (r.state m) := by
  obtain ⟨m, h3, h4, rfl⟩ := exists_nrSeen hij h1 h2
  exact ⟨m, h3, h4, hr.state m (h4.trans hj)⟩

end Seen

/-- **What is seen of a run is a run**, when each step is one of what is seen, or leaves that as it is. -/
theorem Run.exists_seen [Inhabited B] (r : Run step init) {π : S → S'} (h0 : init' (π (r.state 0)))
    (hnone : ∀ i < r.len, see i = none → π (r.state (i + 1)) = π (r.state i))
    (hsome : ∀ i < r.len, ∀ b, see i = some b → step' (π (r.state i)) b = some (π (r.state (i + 1)))) :
    ∀ n ≤ r.len, ∃ r' : Run step' init', Seen r π see n r' := by
  intro n
  induction n with
  | zero =>
    intro _
    refine ⟨⟨0, fun _ => π (r.state 0), fun _ => default, h0, fun i hi => absurd hi (Nat.not_lt_zero i)⟩, rfl, ?_, ?_⟩
    · intro i hi
      rw [Nat.le_zero.mp hi]
    · exact fun i hi => absurd hi (Nat.not_lt_zero i)
  | succ n ih =>
    intro hn
    obtain ⟨r', hr'⟩ := ih (Nat.le_of_lt hn)
    cases hsee : see n with
    | none => exact ⟨r', hr'.hidden hsee (hnone n hn hsee)⟩
    | some b => exact hr'.shown hsee (hsome n hn b hsee)

end Seen

end Trans
