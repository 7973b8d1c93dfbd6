import RcuTable.Lib.Prog

/-!
# Loops — the passes of a loop, one by one

`Passes` and `Rounds` are runs of a counted loop and of a loop, cut into their passes: each pass is a run of
the body, of which a condition on the states before and after it holds.  Programs are deterministic, so the
run of a loop is cut in one way only; what is said of every pass of some `Rounds` is said of every pass that
the loop makes.  `Rounds` counts the passes that go on; the last one, which leaves, has a condition of its
own.

`Records ev p es`: the program leaves `es` in the record, on every path.  On the machine with a record it then
returns what it returns without one.
-/

namespace Atomic

namespace Prog

variable {A : Type → Type} {H α β σ : Type} (exec : ∀ {β : Type}, A β → H → Option (β × H))

/-- The passes `i`, …, `i + m - 1` of a counted loop, each in `C`. -/
inductive Passes (body : ℕ → σ → Prog A σ) (C : ℕ → σ → H → σ → H → Prop) :
    ℕ → ℕ → σ → H → σ → H → Prop
  | nil {i : ℕ} {s : σ} {h : H} : Passes body C 0 i s h s h
  | cons {m i : ℕ} {s s1 s' : σ} {h h1 h' : H} : Returns exec (body i s) h s1 h1 → C i s h s1 h1 →
      Passes body C m (i + 1) s1 h1 s' h' → Passes body C (m + 1) i s h s' h'

/-- The passes of a loop: `m` that go on, each in `C`, and one in `E` that leaves. -/
inductive Rounds (body : σ → Prog A (σ ⊕ β)) (C : σ → H → σ → H → Prop) (E : σ → H → β → H → Prop) :
    ℕ → σ → H → β → H → Prop
  | last {s : σ} {h h' : H} {b : β} : Returns exec (body s) h (.inr b) h' → E s h b h' →
      Rounds body C E 0 s h b h'
  | round {m : ℕ} {s s1 : σ} {h h1 h' : H} {b : β} : Returns exec (body s) h (.inl s1) h1 →
      C s h s1 h1 → Rounds body C E m s1 h1 b h' → Rounds body C E (m + 1) s h b h'

variable {exec}

/-! ### The passes make up the loop -/

theorem Passes.returns {body : ℕ → σ → Prog A σ} {C : ℕ → σ → H → σ → H → Prop} {m i : ℕ} {s s' : σ}
    {h h' : H} (hp : Passes exec body C m i s h s' h') : Returns exec (forFrom body m i s) h s' h' := by
  induction hp with
  | nil => exact (returns_ret exec).mpr ⟨rfl, rfl⟩
  | cons hb _ _ ih => exact (returns_bind exec).mpr ⟨_, _, hb, ih⟩

theorem Returns.iter {body : σ → Prog A (σ ⊕ β)} {s : σ} {k : β → Prog A α} {h h' : H} {a : α}
    (hr : Returns exec (unroll body k s) h a h') : Returns exec (.iter body s k) h a h' := by
  obtain ⟨n, hn⟩ := hr
  exact ⟨n + 1, hn⟩

theorem Rounds.returns {body : σ → Prog A (σ ⊕ β)} {C : σ → H → σ → H → Prop}
    {E : σ → H → β → H → Prop} {m : ℕ} {s : σ} {h h' : H} {b : β}
    (hr : Rounds exec body C E m s h b h') : Returns exec (loop body s) h b h' := by
  induction hr with
  | last hb _ => exact .iter ((returns_bind exec).mpr ⟨_, _, hb, (returns_ret exec).mpr ⟨rfl, rfl⟩⟩)
  | round hb _ _ ih => exact .iter ((returns_bind exec).mpr ⟨_, _, hb, ih⟩)

/-! ### Cutting a loop by an invariant -/

/-- A counted loop whose invariant is indexed by the counter. -/
theorem Passes.of_invariant {body : ℕ → σ → Prog A σ} {C : ℕ → σ → H → σ → H → Prop}
    (I : ℕ → σ → H → Prop) {n : ℕ}
    (hstep : ∀ i < n, ∀ s h, I i s h →
      ∃ s' h', Returns exec (body i s) h s' h' ∧ C i s h s' h' ∧ I (i + 1) s' h') :
    ∀ (m i : ℕ) (s : σ) (h : H), i + m = n → I i s h →
      ∃ s' h', Passes exec body C m i s h s' h' ∧ I n s' h' := by
  intro m
  induction m with
  | zero =>
    intro i s h hi hI
    obtain rfl : i = n := hi
    exact ⟨s, h, .nil, hI⟩
  | succ m ih =>
    intro i s h hi hI
    obtain ⟨s1, h1, hb, hC, hI1⟩ := hstep i (by omega) s h hI
    obtain ⟨s', h', hp, hI'⟩ := ih (i + 1) s1 h1 (by omega) hI1
    exact ⟨s', h', .cons hb hC hp, hI'⟩

/-- A loop whose invariant is indexed by the rounds that are left. -/
theorem Rounds.of_invariant {body : σ → Prog A (σ ⊕ β)} {C : σ → H → σ → H → Prop}
    {E : σ → H → β → H → Prop} (I : ℕ → σ → H → Prop)
    (hlast : ∀ s h, I 0 s h → ∃ b h', Returns exec (body s) h (.inr b) h' ∧ E s h b h')
    (hround : ∀ m s h, I (m + 1) s h →
      ∃ s' h', Returns exec (body s) h (.inl s') h' ∧ C s h s' h' ∧ I m s' h') :
    ∀ (m : ℕ) (s : σ) (h : H), I m s h → ∃ b h', Rounds exec body C E m s h b h' := by
  intro m
  induction m with
  | zero =>
    intro s h hI
    obtain ⟨b, h', hb, hE⟩ := hlast s h hI
    exact ⟨b, h', .last hb hE⟩
  | succ m ih =>
    intro s h hI
    obtain ⟨s1, h1, hb, hC, hI1⟩ := hround m s h hI
    obtain ⟨b, h', hr⟩ := ih s1 h1 hI1
    exact ⟨b, h', .round hb hC hr⟩

/-! ### Programs that record the same on every path -/

section Records

variable {E : Type} (ev : ∀ {β : Type}, A β → List E)

/-- Whatever the answers to its actions, the program records `es`; its loops record nothing. -/
def Records : {α : Type} → Prog A α → List E → Prop
  | _, .ret _, es => es = []
  | _, .act a k, es => ∃ es', es = ev a ++ es' ∧ ∀ v, Records (k v) es'
  | _, .iter body _ k, es => (∀ s, Records (body s) []) ∧ ∀ v, Records (k v) es

variable {ev} {es es' : List E}

theorem Records.lift {a : A α} (ha : ev a = es) : Records ev (lift a : Prog A α) es :=
  ⟨[], by simpa using ha.symm, fun _ => rfl⟩

theorem Records.loop {body : σ → Prog A (σ ⊕ β)} (hb : ∀ s, Records ev (body s) []) (s : σ) :
    Records ev (loop body s) [] := ⟨hb, fun _ => rfl⟩

theorem Records.bind {p : Prog A α} (hp : Records ev p es) {f : α → Prog A β}
    (hf : ∀ a, Records ev (f a) es') : Records ev (p.bind f) (es ++ es') := by
  induction p generalizing es with
  | ret a =>
    obtain rfl := hp
    exact hf a
  | act a k ih =>
    obtain ⟨es1, rfl, hk⟩ := hp
    exact ⟨es1 ++ es', List.append_assoc _ _ _, fun v => ih v (hk v) hf⟩
  | iter body s k _ ih => exact ⟨hp.1, fun v => ih v (hp.2 v) hf⟩

/-- What follows a part that records nothing. -/
theorem Records.seq {p : Prog A α} (hp : Records ev p []) {f : α → Prog A β}
    (hf : ∀ a, Records ev (f a) es) : Records ev (p.bind f) es := hp.bind hf

theorem Records.forFrom {body : ℕ → σ → Prog A σ} (hb : ∀ i s, Records ev (body i s) []) :
    ∀ (m i : ℕ) (s : σ), Records ev (forFrom body m i s) [] := by
  intro m
  induction m with
  | zero => exact fun _ _ => rfl
  | succ m ih => exact fun i s => (hb i s).seq fun s' => ih (i + 1) s'

theorem Records.unroll {body : σ → Prog A (σ ⊕ β)} {s : σ} {k : β → Prog A α}
    (hp : Records ev (.iter body s k) es) : Records ev (Prog.unroll body k s) es := by
  refine (hp.1 s).seq ?_
  intro x
  cases x with
  | inl s' => exact hp
  | inr b => exact hp.2 b

/-- On the machine with a record the program returns the same, and leaves `es` in the record. -/
theorem Records.returns {p : Prog A α} {h h' : H} {a : α} (es0 : List E) (hp : Records ev p es)
    (hr : Returns exec p h a h') : Returns (logged exec ev) p (h, es0) a (h', es0 ++ es) := by
  obtain ⟨n, hn⟩ := hr
  induction n generalizing p h es0 es with
  | zero => simp [run] at hn
  | succ n ih =>
    cases p with
    | ret b =>
      obtain ⟨rfl, rfl⟩ := Prod.mk.inj (Option.some.inj hn)
      obtain rfl : es = [] := hp
      rw [List.append_nil]
      exact ⟨1, rfl⟩
    | act b k =>
      obtain ⟨⟨v, h1⟩, he, hk⟩ := Option.bind_eq_some_iff.mp hn
      obtain ⟨es1, rfl, hp⟩ := hp
      obtain ⟨m, hm⟩ := ih (es0 ++ ev b) (hp v) hk
      refine ⟨m + 1, ?_⟩
      rw [← List.append_assoc]
      simpa [run, logged, he] using hm
    | iter body s k => exact .iter (ih es0 hp.unroll hn)

theorem Records.returns_nil {p : Prog A α} {h h' : H} {a : α} (es0 : List E) (hp : Records ev p [])
    (hr : Returns exec p h a h') : Returns (logged exec ev) p (h, es0) a (h', es0) := by
  have h1 := hp.returns es0 hr
  rwa [List.append_nil] at h1

end Records

end Prog

end Atomic
