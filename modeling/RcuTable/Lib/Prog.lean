import Mathlib.Data.Option.Basic
import Mathlib.Tactic.Common

/-!
# Prog — programs over atomic actions

A `Prog A α` performs actions `a : A β`, one at a time, each answering a `β`, and returns an `α`; `iter`
is a loop whose body answers whether to go on.  A program is executed by a machine `exec` that answers one
action in one heap (`none`: the action fails).  The same program has two readings.  `Prog.step` takes a
single action, for interleavings with other threads.  `Prog.run` runs to completion with fuel.

`Sim` is the proof rule for both: every action of the program is matched by a step of a ghost state that a
guarantee `R` allows, and the program ends in `Q`.  It is inductive, so it also says that the program
terminates.  `Sim.run` transfers it to `Prog.run`, and its inversion to `Prog.step`.
-/

namespace Atomic

/-- Programs over the actions `A`. -/
inductive Prog (A : Type → Type) : Type → Type 1
  | ret {α : Type} (a : α) : Prog A α
  | act {α β : Type} (a : A β) (k : β → Prog A α) : Prog A α
  | iter {α σ β : Type} (body : σ → Prog A (σ ⊕ β)) (s : σ) (k : β → Prog A α) : Prog A α

namespace Prog

variable {A : Type → Type} {α β γ σ : Type}

/-- The result of a program that has returned. -/
def result : {α : Type} → Prog A α → Option α
  | _, .ret a => some a
  | _, _ => none

theorem eq_ret_of_result {p : Prog A α} {a : α} (hp : p.result = some a) : p = .ret a := by
  cases p with
  | ret b => rw [Option.some.inj hp]
  | act | iter => cases hp

def bind : {α : Type} → Prog A α → (α → Prog A β) → Prog A β
  | _, .ret a, f => f a
  | _, .act a k, f => .act a fun v => (k v).bind f
  | _, .iter body s k, f => .iter body s fun v => (k v).bind f

instance : Monad (Prog A) where
  pure := .ret
  bind := bind

/-- One action as a program. -/
def lift (a : A β) : Prog A β := .act a .ret

/-- A loop as a program: `body` answers `inl` to go on, `inr` to leave. -/
def loop (body : σ → Prog A (σ ⊕ β)) (s : σ) : Prog A β := .iter body s .ret

/-- The body of a loop, then the rest of the loop or what follows it. -/
def unroll (body : σ → Prog A (σ ⊕ β)) (k : β → Prog A α) (s : σ) : Prog A α :=
  (body s).bind fun x => match x with
    | .inl s' => .iter body s' k
    | .inr b => k b

/-- `for (i = 0; i < n; ++i) s = body(i, s)`. -/
def forFrom (body : ℕ → σ → Prog A σ) : ℕ → ℕ → σ → Prog A σ
  | 0, _, s => .ret s
  | m + 1, i, s => (body i s).bind fun s' => forFrom body m (i + 1) s'

def forRange (n : ℕ) (s : σ) (body : ℕ → σ → Prog A σ) : Prog A σ := forFrom body n 0 s

theorem bind_def (p : Prog A α) (f : α → Prog A β) : p >>= f = p.bind f := rfl
theorem pure_def (a : α) : (pure a : Prog A α) = .ret a := rfl

@[simp] theorem ret_bind (a : α) (f : α → Prog A β) : (Prog.ret a).bind f = f a := rfl

@[simp] theorem lift_bind (a : A β) (f : β → Prog A γ) : (lift a).bind f = .act a f := rfl

@[simp] theorem loop_bind (body : σ → Prog A (σ ⊕ β)) (s : σ) (f : β → Prog A γ) :
    (loop body s).bind f = .iter body s f := rfl

@[simp] theorem act_bind (a : A σ) (k : σ → Prog A β) (f : β → Prog A γ) :
    (Prog.act a k).bind f = .act a fun v => (k v).bind f := rfl

@[simp] theorem iter_bind (body : σ → Prog A (σ ⊕ β)) (s : σ) (k : β → Prog A α)
    (f : α → Prog A γ) : (Prog.iter body s k).bind f = .iter body s fun v => (k v).bind f := rfl

theorem bind_assoc : ∀ {α : Type} (p : Prog A α) (f : α → Prog A β) (g : β → Prog A γ),
    (p.bind f).bind g = p.bind fun a => (f a).bind g
  | _, .ret _, _, _ => rfl
  | _, .act a k, f, g => by
    simp only [bind, Prog.act.injEq, heq_eq_eq, true_and]
    exact funext fun v => bind_assoc (k v) f g
  | _, .iter body s k, f, g => by
    simp only [bind, Prog.iter.injEq, heq_eq_eq, true_and]
    exact funext fun v => bind_assoc (k v) f g

theorem unroll_bind (body : σ → Prog A (σ ⊕ β)) (k : β → Prog A α) (s : σ) (f : α → Prog A γ) :
    (unroll body k s).bind f = unroll body (fun v => (k v).bind f) s := by
  unfold unroll
  rw [bind_assoc]
  congr 1
  funext x
  cases x <;> rfl

/-! ### Execution -/

section Exec

variable {H : Type} (exec : ∀ {β : Type}, A β → H → Option (β × H))

/-- One step of a program; `none` when it has returned or its action fails. -/
def step : Prog A α → H → Option (Prog A α × H)
  | .ret _, _ => none
  | .act a k, h => (exec a h).map fun r => (k r.1, r.2)
  | .iter body s k, h => some (unroll body k s, h)

/-- The whole program, with fuel. -/
def run : ℕ → Prog A α → H → Option (α × H)
  | 0, _, _ => none
  | _ + 1, .ret a, h => some (a, h)
  | n + 1, .act a k, h => (exec a h).bind fun r => run n (k r.1) r.2
  | n + 1, .iter body s k, h => run n (unroll body k s) h

/-- More fuel does not change the result. -/
theorem run_mono {α : Type} : ∀ {n : ℕ} {p : Prog A α} {h : H} {r : α × H},
    p.run exec n h = some r → p.run exec (n + 1) h = some r
  | 0, _, _, _, hr => by simp [run] at hr
  | n + 1, .ret a, h, r, hr => hr
  | n + 1, .act a k, h, r, hr => by
    simp only [run] at hr ⊢
    cases he : exec a h with
    | none => simp [he] at hr
    | some v =>
      rw [he] at hr
      exact run_mono (n := n) hr
  | n + 1, .iter body s k, h, r, hr => by
    simp only [run] at hr ⊢
    exact run_mono (n := n) hr

theorem run_le {n m : ℕ} (hnm : n ≤ m) {p : Prog A α} {h : H} {r : α × H}
    (hr : p.run exec n h = some r) : p.run exec m h = some r := by
  obtain ⟨k, rfl⟩ := Nat.exists_eq_add_of_le hnm
  induction k with
  | zero => exact hr
  | succ k ih => exact run_mono exec (ih (Nat.le_add_right n k))

/-- The program, started in `h`, returns `a` in `h'`. -/
def Returns (p : Prog A α) (h : H) (a : α) (h' : H) : Prop := ∃ n, p.run exec n h = some (a, h')

theorem Returns.det {p : Prog A α} {h h1 h2 : H} {a b : α} (h1' : Returns exec p h a h1)
    (h2' : Returns exec p h b h2) : a = b ∧ h1 = h2 := by
  obtain ⟨n, hn⟩ := h1'
  obtain ⟨m, hm⟩ := h2'
  have h3 := run_le exec (Nat.le_max_left n m) hn
  have h4 := run_le exec (Nat.le_max_right n m) hm
  rw [h3] at h4
  injection h4 with h5
  injection h5 with h6 h7
  exact ⟨h6, h7⟩

theorem returns_ret {a b : α} {h h' : H} : Returns exec (.ret a) h b h' ↔ b = a ∧ h' = h := by
  constructor
  · rintro ⟨n, hn⟩
    cases n with
    | zero => simp [run] at hn
    | succ n =>
      obtain ⟨rfl, rfl⟩ := Prod.mk.inj (Option.some.inj hn)
      exact ⟨rfl, rfl⟩
  · rintro ⟨rfl, rfl⟩
    exact ⟨1, rfl⟩

theorem Returns.of_act {a : A β} {k : β → Prog A α} {h h' : H} {b : α}
    (hr : Returns exec (.act a k) h b h') :
    ∃ v h1, exec a h = some (v, h1) ∧ Returns exec (k v) h1 b h' := by
  obtain ⟨n, hn⟩ := hr
  cases n with
  | zero => simp [run] at hn
  | succ n =>
    obtain ⟨⟨v, h1⟩, he, hk⟩ := Option.bind_eq_some_iff.mp hn
    exact ⟨v, h1, he, n, hk⟩

/-- A program that is going to return has returned, or has a next step. -/
theorem Returns.progress {p : Prog A α} {h h' : H} {a : α} (hr : Returns exec p h a h') :
    (∃ a, p = .ret a) ∨ (p.step exec h).isSome := by
  cases p with
  | ret a => exact .inl ⟨a, rfl⟩
  | act b k =>
    obtain ⟨v, h1, he, -⟩ := hr.of_act
    exact .inr (by simp [Prog.step, he])
  | iter => exact .inr rfl

/-- A step changes nothing in what the program returns. -/
theorem returns_of_step {p p' : Prog A α} {h h1 h' : H} {a : α} (hs : p.step exec h = some (p', h1)) :
    Returns exec p h a h' ↔ Returns exec p' h1 a h' := by
  cases p with
  | ret b => cases hs
  | act b k =>
    obtain ⟨⟨v, h2⟩, he, heq⟩ := Option.map_eq_some_iff.mp hs
    obtain ⟨rfl, rfl⟩ := Prod.mk.inj heq
    constructor
    · intro hr
      obtain ⟨v', h3, he', hk⟩ := hr.of_act
      obtain ⟨rfl, rfl⟩ := Prod.mk.inj (Option.some.inj (he.symm.trans he'))
      exact hk
    · rintro ⟨n, hn⟩
      exact ⟨n + 1, by simp [run, he, hn]⟩
  | iter body s k =>
    obtain ⟨rfl, rfl⟩ := Prod.mk.inj (Option.some.inj hs)
    constructor
    · rintro ⟨n, hn⟩
      cases n with
      | zero => simp [run] at hn
      | succ n => exact ⟨n, hn⟩
    · rintro ⟨n, hn⟩
      exact ⟨n + 1, hn⟩

/-- A program in two parts returns through both. -/
theorem returns_bind {p : Prog A β} {f : β → Prog A α} {h h' : H} {a : α} :
    Returns exec (p.bind f) h a h' ↔
      ∃ b h1, Returns exec p h b h1 ∧ Returns exec (f b) h1 a h' := by
  constructor
  · rintro ⟨n, hn⟩
    induction n generalizing p h with
    | zero => simp [run] at hn
    | succ n ih =>
      cases p with
      | ret b => exact ⟨b, h, ⟨1, rfl⟩, n + 1, hn⟩
      | act a k =>
        obtain ⟨⟨v, h1⟩, he, hk⟩ := Option.bind_eq_some_iff.mp hn
        obtain ⟨b, h2, ⟨m, hm⟩, h3⟩ := ih hk
        exact ⟨b, h2, ⟨m + 1, by simp [run, he, hm]⟩, h3⟩
      | iter body s k =>
        have hu : (unroll body (fun v => (k v).bind f) s).run exec n h = some (a, h') := hn
        rw [← unroll_bind] at hu
        obtain ⟨b, h2, ⟨m, hm⟩, h3⟩ := ih hu
        exact ⟨b, h2, ⟨m + 1, hm⟩, h3⟩
  · rintro ⟨b, h1, ⟨n, hn⟩, hf⟩
    induction n generalizing p h with
    | zero => simp [run] at hn
    | succ n ih =>
      cases p with
      | ret c =>
        obtain ⟨rfl, rfl⟩ := Prod.mk.inj (Option.some.inj hn)
        exact hf
      | act c k =>
        obtain ⟨⟨v, h2⟩, he, hk⟩ := Option.bind_eq_some_iff.mp hn
        obtain ⟨m, hm⟩ := ih hk
        exact ⟨m + 1, by simp [run, he, hm]⟩
      | iter body s k =>
        obtain ⟨m, hm⟩ := ih hn
        rw [unroll_bind] at hm
        exact ⟨m + 1, hm⟩

/-- Total correctness: the program returns, and only with what `Q` allows. -/
def Total (p : Prog A α) (h : H) (Q : α → H → Prop) : Prop :=
  (∃ a h', Returns exec p h a h') ∧ ∀ a h', Returns exec p h a h' → Q a h'

theorem Total.of_returns {p : Prog A α} {h h' : H} {a : α} {Q : α → H → Prop}
    (hr : Returns exec p h a h') (hq : Q a h') : Total exec p h Q := by
  refine ⟨⟨a, h', hr⟩, ?_⟩
  intro b h'' hb
  obtain ⟨rfl, rfl⟩ := hr.det exec hb
  exact hq

theorem Total.mono {p : Prog A α} {h : H} {Q Q' : α → H → Prop} (ht : Total exec p h Q)
    (hQ : ∀ a h', Q a h' → Q' a h') : Total exec p h Q' :=
  ⟨ht.1, fun a h' hr => hQ a h' (ht.2 a h' hr)⟩

theorem Total.bind {p : Prog A β} {f : β → Prog A α} {h : H} {P : β → H → Prop} {Q : α → H → Prop}
    (hp : Total exec p h P) (hf : ∀ b h', P b h' → Total exec (f b) h' Q) : Total exec (p.bind f) h Q := by
  obtain ⟨⟨b, h1, hb⟩, hP⟩ := hp
  obtain ⟨⟨a, h2, ha⟩, hQ⟩ := hf b h1 (hP b h1 hb)
  exact .of_returns exec ((returns_bind exec).mpr ⟨b, h1, hb, ha⟩) (hQ a h2 ha)

section Log

variable {E : Type} (ev : ∀ {β : Type}, A β → List E)

/-- The machine with a record of what the program does. -/
def logged {β : Type} (a : A β) (s : H × List E) : Option (β × H × List E) :=
  (exec a s.1).map fun r => (r.1, r.2, s.2 ++ ev a)

/-- The record changes nothing in the run. -/
theorem Returns.of_logged {p : Prog A α} {s s' : H × List E} {a : α}
    (hr : Returns (logged exec ev) p s a s') : Returns exec p s.1 a s'.1 := by
  obtain ⟨n, hn⟩ := hr
  induction n generalizing p s with
  | zero => simp [run] at hn
  | succ n ih =>
    cases p with
    | ret b =>
      obtain ⟨rfl, rfl⟩ := Prod.mk.inj (Option.some.inj hn)
      exact ⟨1, rfl⟩
    | act b k =>
      obtain ⟨⟨v, s1⟩, he, hk⟩ := Option.bind_eq_some_iff.mp hn
      obtain ⟨⟨v', h1⟩, he', hv⟩ := Option.map_eq_some_iff.mp he
      obtain ⟨rfl, rfl⟩ := Prod.mk.inj hv
      obtain ⟨m, hm⟩ := ih hk
      exact ⟨m + 1, by simpa [run, he'] using hm⟩
    | iter body s k =>
      obtain ⟨m, hm⟩ := ih hn
      exact ⟨m + 1, hm⟩

end Log

end Exec

end Prog

/-! ### Simulation by ghost steps -/

section Sim

variable {A : Type → Type} {H G : Type} (exec : ∀ {β : Type}, A β → H → Option (β × H))
  (R : ∀ {β : Type}, A β → H → G → H → G → Prop)

/-- From heap `h` and ghost `g` every action of the program is matched by a ghost step in `R`, and the
program ends in `Q`. -/
inductive Sim {α : Type} (Q : α → H → G → Prop) : Prog A α → H → G → Prop
  | ret {a : α} {h : H} {g : G} : Q a h g → Sim Q (.ret a) h g
  | act {β : Type} {a : A β} {k : β → Prog A α} {h : H} {g : G} {v : β} {h' : H} {g' : G} :
      exec a h = some (v, h') → R a h g h' g' → Sim Q (k v) h' g' → Sim Q (.act a k) h g
  | iter {σ β : Type} {body : σ → Prog A (σ ⊕ β)} {s : σ} {k : β → Prog A α} {h : H} {g : G} :
      Sim Q (Prog.unroll body k s) h g → Sim Q (.iter body s k) h g

variable {exec R} {α β σ : Type} {Q Q' : α → H → G → Prop}

theorem Sim.mono {p : Prog A α} {h : H} {g : G} (hp : Sim exec R Q p h g)
    (hQ : ∀ a h g, Q a h g → Q' a h g) : Sim exec R Q' p h g := by
  induction hp with
  | ret h => exact .ret (hQ _ _ _ h)
  | act he hr _ ih => exact .act he hr ih
  | iter _ ih => exact .iter ih

theorem Sim.weaken {R' : ∀ {β : Type}, A β → H → G → H → G → Prop}
    {p : Prog A α} {h : H} {g : G} (hp : Sim exec R Q p h g)
    (hR : ∀ {β : Type} (a : A β) h g h' g', R a h g h' g' → R' a h g h' g') : Sim exec R' Q p h g := by
  induction hp with
  | ret h => exact .ret h
  | act he hr _ ih => exact .act he (hR _ _ _ _ _ hr) ih
  | iter _ ih => exact .iter ih

/-- Sequencing. -/
theorem Sim.bind {p : Prog A β} {f : β → Prog A α} {h : H} {g : G}
    (hp : Sim exec R (fun b h g => Sim exec R Q (f b) h g) p h g) :
    Sim exec R Q (p.bind f) h g := by
  induction hp with
  | ret h => exact h
  | act he hr _ ih => exact .act he hr ih
  | iter _ ih =>
    refine .iter ?_
    rw [← Prog.unroll_bind]
    exact ih

/-- One round of a loop. -/
theorem Sim.unroll {body : σ → Prog A (σ ⊕ β)} {s : σ} {k : β → Prog A α} {h : H} {g : G}
    (hb : Sim exec R (fun x h g => match x with
      | .inl s' => Sim exec R Q (.iter body s' k) h g
      | .inr b => Sim exec R Q (k b) h g) (body s) h g) :
    Sim exec R Q (.iter body s k) h g := by
  refine .iter (Sim.bind (hb.mono ?_))
  rintro (s' | b) h g hx <;> exact hx

/-- Counted loops: an invariant indexed by the counter. -/
theorem Sim.forFrom {body : ℕ → σ → Prog A σ} (I : ℕ → σ → H → G → Prop)
    {Q : σ → H → G → Prop} {n : ℕ}
    (hstep : ∀ i < n, ∀ s h g, I i s h g → Sim exec R (fun s' => I (i + 1) s') (body i s) h g)
    (hexit : ∀ s h g, I n s h g → Q s h g) : ∀ (m i : ℕ) (s : σ) (h : H) (g : G), i + m = n →
      I i s h g → Sim exec R Q (Prog.forFrom body m i s) h g
  | 0, i, s, h, g, hi, hI => .ret (hexit s h g (by rw [← hi]; exact hI))
  | m + 1, i, s, h, g, hi, hI =>
    Sim.bind ((hstep i (by omega) s h g hI).mono fun s' h' g' hI' =>
      Sim.forFrom I hstep hexit m (i + 1) s' h' g' (by omega) hI')

theorem Sim.forRange {body : ℕ → σ → Prog A σ} (I : ℕ → σ → H → G → Prop)
    {Q : σ → H → G → Prop} {n : ℕ} {s : σ} {h : H} {g : G} (h0 : I 0 s h g)
    (hstep : ∀ i < n, ∀ s h g, I i s h g → Sim exec R (fun s' => I (i + 1) s') (body i s) h g)
    (hexit : ∀ s h g, I n s h g → Q s h g) : Sim exec R Q (Prog.forRange n s body) h g :=
  Sim.forFrom I hstep hexit n 0 s h g (by omega) h0

/-- A simulated program runs to completion, with enough fuel. -/
theorem Sim.run {p : Prog A α} {h : H} {g : G} (hp : Sim exec R Q p h g) :
    ∃ n a h' g', p.run exec n h = some (a, h') ∧ Q a h' g' := by
  induction hp with
  | ret h => exact ⟨1, _, _, _, rfl, h⟩
  | act he _ _ ih =>
    obtain ⟨n, a, h', g', h1, h2⟩ := ih
    exact ⟨n + 1, a, h', g', by simp [Prog.run, he, h1], h2⟩
  | iter _ ih =>
    obtain ⟨n, a, h', g', h1, h2⟩ := ih
    exact ⟨n + 1, a, h', g', h1, h2⟩

/-- A simulated program is totally correct. -/
theorem Sim.total {p : Prog A α} {h : H} {g : G} (hp : Sim exec R Q p h g) :
    p.Total exec h fun a h' => ∃ g', Q a h' g' := by
  obtain ⟨n, a, h', g', h1, h2⟩ := hp.run
  exact .of_returns exec ⟨n, h1⟩ ⟨g', h2⟩

/-- A simulation without guarantee and ghost: total correctness, action by action. -/
abbrev Runs (exec : ∀ {β : Type}, A β → H → Option (β × H)) (Q : α → H → Prop) (p : Prog A α) (h : H) :
    Prop :=
  Sim exec (fun _ _ _ _ _ => True) (fun a h (_ : Unit) => Q a h) p h ()

theorem Runs.act {a : A β} {k : β → Prog A α} {Q : α → H → Prop} {h h' : H} {v : β}
    (he : exec a h = some (v, h')) (hk : Runs exec Q (k v) h') : Runs exec Q (.act a k) h :=
  Sim.act he trivial hk

theorem Runs.bind {p : Prog A β} {f : β → Prog A α} {Q : α → H → Prop} {h : H}
    (hp : Runs exec (fun b h => Runs exec Q (f b) h) p h) : Runs exec Q (p.bind f) h :=
  Sim.bind hp

theorem Runs.unroll {body : σ → Prog A (σ ⊕ β)} {s : σ} {k : β → Prog A α} {Q : α → H → Prop} {h : H}
    (hb : Runs exec (fun x h => match x with
      | .inl s' => Runs exec Q (.iter body s' k) h
      | .inr b => Runs exec Q (k b) h) (body s) h) : Runs exec Q (.iter body s k) h := by
  refine Sim.unroll (hb.mono ?_)
  rintro (s' | b) h g hx <;> exact hx

theorem Runs.total {p : Prog A α} {Q : α → H → Prop} {h : H} (hp : Runs exec Q p h) :
    p.Total exec h Q :=
  (Sim.total hp).mono exec fun _ _ ⟨_, hq⟩ => hq

theorem Runs.of_returns {p : Prog A α} {Q : α → H → Prop} {h h' : H} {a : α} (hr : p.Returns exec h a h')
    (hq : Q a h') : Runs exec Q p h := by
  obtain ⟨n, hn⟩ := hr
  induction n generalizing p h with
  | zero => simp [Prog.run] at hn
  | succ n ih =>
    cases p with
    | ret b =>
      obtain ⟨rfl, rfl⟩ := Prod.mk.inj (Option.some.inj hn)
      exact .ret hq
    | act b k =>
      obtain ⟨⟨v, h1⟩, he, hk⟩ := Option.bind_eq_some_iff.mp hn
      exact Runs.act he (ih hk)
    | iter body s k => exact .iter (ih hn)

/-- Any simulation is one. -/
theorem Sim.runs {p : Prog A α} {h : H} {g : G} (hp : Sim exec R Q p h g) :
    Runs exec (fun a h => ∃ g, Q a h g) p h := by
  induction hp with
  | ret hq => exact .ret ⟨_, hq⟩
  | act he _ _ ih => exact Runs.act he ih
  | iter _ ih => exact .iter ih

/-- A simulation whose ghost records the actions. -/
theorem Sim.logged {E : Type} {ev : ∀ {β : Type}, A β → List E}
    {L : ∀ {β : Type}, A β → H → List E → H → List E → Prop} {Q : α → H → List E → Prop}
    {p : Prog A α} {h : H} {es : List E} (hp : Sim exec L Q p h es)
    (hL : ∀ {β : Type} (a : A β) h es h' es', L a h es h' es' → es' = es ++ ev a) :
    p.Total (Prog.logged exec ev) (h, es) fun a s => Q a s.1 s.2 := by
  have hsim : Sim (Prog.logged exec ev) (fun _ _ _ _ _ => True) (fun a s (_ : Unit) => Q a s.1 s.2)
      p (h, es) () := by
    induction hp with
    | ret hq => exact .ret hq
    | @act _ a k h es v h' es' he hl _ ih =>
      obtain rfl := hL _ _ _ _ _ hl
      refine .act (?_ : Prog.logged exec ev a (h, es) = some (v, h', es ++ ev a)) trivial ih
      simp [Prog.logged, he]
    | iter _ ih => exact .iter ih
  exact hsim.total.mono _ fun _ _ ⟨_, hq⟩ => hq

/-- One step of a simulated program, with its ghost step (`none` for the silent step of a loop). -/
theorem Sim.step {p p' : Prog A α} {h h' : H} {g : G} (hp : Sim exec R Q p h g)
    (hs : p.step exec h = some (p', h')) :
    (h' = h ∧ Sim exec R Q p' h' g) ∨
      ∃ (β : Type) (a : A β) (k : β → Prog A α) (v : β) (g' : G), p = .act a k ∧
        exec a h = some (v, h') ∧ p' = k v ∧ R a h g h' g' ∧ Sim exec R Q p' h' g' := by
  cases hp with
  | ret _ => simp [Prog.step] at hs
  | act he hr hk =>
    simp only [Prog.step, he, Option.map_some, Option.some.injEq, Prod.mk.injEq] at hs
    obtain ⟨rfl, rfl⟩ := hs
    exact Or.inr ⟨_, _, _, _, _, rfl, he, rfl, hr, hk⟩
  | iter hk =>
    simp only [Prog.step, Option.some.injEq, Prod.mk.injEq] at hs
    obtain ⟨rfl, rfl⟩ := hs
    exact Or.inl ⟨rfl, hk⟩

theorem Runs.step {p p' : Prog A α} {Q : α → H → Prop} {h h' : H} (hp : Runs exec Q p h)
    (hs : p.step exec h = some (p', h')) : Runs exec Q p' h' := by
  rcases Sim.step hp hs with ⟨-, hp'⟩ | ⟨_, _, _, _, _, _, _, _, _, hp'⟩
  · exact hp'
  · exact hp'

/-- A simulated program that has not returned can take a step. -/
theorem Sim.progress {p : Prog A α} {h : H} {g : G} (hp : Sim exec R Q p h g) :
    (∃ a, p = .ret a ∧ Q a h g) ∨ (p.step exec h).isSome := by
  cases hp with
  | ret h => exact Or.inl ⟨_, rfl, h⟩
  | act he _ _ => exact Or.inr (by simp [Prog.step, he])
  | iter _ => exact Or.inr rfl

end Sim

end Atomic
