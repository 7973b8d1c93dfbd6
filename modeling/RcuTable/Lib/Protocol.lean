import RcuTable.Lib.Prog

/-!
# Protocol — programs that keep to a protocol

A `Protocol` has states; a state allows some actions, and an action leads with its answer to other states.
`Obeys P p F q`: from the state `q` the program `p` performs only actions that are allowed when their turn comes,
and ends in `F`; a loop comes back to the state it started in.  `Obeys` says nothing about a heap.  When each
action of a machine moves the protocol along an abstraction of the heap (`Protocol.Abstracts`), a program that
obeys keeps the abstraction at every step.

`Only N p`: the program performs no action outside `N`.  Actions that leave every state where it is make a program
that obeys in every state (`Only.obeys`).
-/

namespace Atomic

/-- What the states of a protocol allow, and where an action with its answer leads. -/
structure Protocol (A : Type → Type) (Q : Type) where
  allows {β : Type} : Q → A β → Prop
  step {β : Type} : Q → A β → β → Q → Prop

namespace Prog

variable {A : Type → Type} {Q H α β σ : Type}

/-- Every action of the program is one of `N`. -/
def Only (N : ∀ {β : Type}, A β → Prop) : {α : Type} → Prog A α → Prop
  | _, .ret _ => True
  | _, .act a k => N a ∧ ∀ v, Only N (k v)
  | _, .iter body _ k => (∀ s, Only N (body s)) ∧ ∀ v, Only N (k v)

/-- The program performs only what the protocol allows, from `q` on, and ends in `F`. -/
def Obeys (P : Protocol A Q) : {α : Type} → Prog A α → (α → Q → Prop) → Q → Prop
  | _, .ret a, F, q => F a q
  | _, .act a k, F, q => P.allows q a ∧ ∀ v q', P.step q a v q' → Obeys P (k v) F q'
  | _, .iter body _ k, F, q => (∀ s, Obeys P (body s) (fun _ q' => q' = q) q) ∧ ∀ v, Obeys P (k v) F q

/-! ### Programs over some actions -/

section Only

variable {N : ∀ {β : Type}, A β → Prop}

theorem Only.mono {N' : ∀ {β : Type}, A β → Prop} {p : Prog A α} (hp : Only N p)
    (hN : ∀ {β : Type} (a : A β), N a → N' a) : Only N' p := by
  induction p with
  | ret a => trivial
  | act a k ih => exact ⟨hN a hp.1, fun v => ih v (hp.2 v)⟩
  | iter body s k ihb ih => exact ⟨fun s' => ihb s' (hp.1 s'), fun v => ih v (hp.2 v)⟩

theorem Only.lift {a : A α} (ha : N a) : Only N (lift a : Prog A α) := ⟨ha, fun _ => trivial⟩

theorem Only.bind {p : Prog A α} (hp : Only N p) {f : α → Prog A β} (hf : ∀ a, Only N (f a)) :
    Only N (p.bind f) := by
  induction p with
  | ret a => exact hf a
  | act a k ih => exact ⟨hp.1, fun v => ih v (hp.2 v) hf⟩
  | iter body s k _ ih => exact ⟨hp.1, fun v => ih v (hp.2 v) hf⟩

theorem Only.loop {body : σ → Prog A (σ ⊕ β)} (hb : ∀ s, Only N (body s)) (s : σ) : Only N (loop body s) :=
  ⟨hb, fun _ => trivial⟩

theorem Only.forFrom {body : ℕ → σ → Prog A σ} (hb : ∀ i s, Only N (body i s)) :
    ∀ (m i : ℕ) (s : σ), Only N (forFrom body m i s) := by
  intro m
  induction m with
  | zero => exact fun _ _ => trivial
  | succ m ih => exact fun i s => (hb i s).bind fun s' => ih (i + 1) s'

theorem Only.unroll {body : σ → Prog A (σ ⊕ β)} {s : σ} {k : β → Prog A α} (hp : Only N (.iter body s k)) :
    Only N (Prog.unroll body k s) := by
  refine (hp.1 s).bind ?_
  rintro (s' | b)
  · exact hp
  · exact hp.2 b

end Only

/-! ### Rules -/

section Obeys

variable {P : Protocol A Q} {F G : α → Q → Prop} {q : Q}

theorem Obeys.mono {p : Prog A α} (hp : Obeys P p F q) (hF : ∀ a q, F a q → G a q) : Obeys P p G q := by
  induction p generalizing q with
  | ret a => exact hF a q hp
  | act a k ih => exact ⟨hp.1, fun v q' hq => ih v (hp.2 v q' hq) hF⟩
  | iter body s k _ ih => exact ⟨hp.1, fun v => ih v (hp.2 v) hF⟩

theorem Obeys.bind {p : Prog A β} {f : β → Prog A α} (hp : Obeys P p (fun b q => Obeys P (f b) F q) q) :
    Obeys P (p.bind f) F q := by
  induction p generalizing q with
  | ret a => exact hp
  | act a k ih => exact ⟨hp.1, fun v q' hq => ih v (hp.2 v q' hq)⟩
  | iter body s k _ ih => exact ⟨hp.1, fun v => ih v (hp.2 v)⟩

/-- A round of a loop comes back to where the loop is. -/
theorem Obeys.unroll {body : σ → Prog A (σ ⊕ β)} {s : σ} {k : β → Prog A α}
    (hp : Obeys P (.iter body s k) F q) : Obeys P (Prog.unroll body k s) F q := by
  refine Obeys.bind ((hp.1 s).mono ?_)
  rintro (s' | b) q' rfl
  · exact hp
  · exact hp.2 b

theorem Obeys.loop {body : σ → Prog A (σ ⊕ α)} (hb : ∀ s, Obeys P (body s) (fun _ q' => q' = q) q)
    (hF : ∀ a, F a q) (s : σ) : Obeys P (loop body s) F q := ⟨hb, hF⟩

/-- Actions that leave the state where it is. -/
theorem Only.obeys {N : ∀ {β : Type}, A β → Prop}
    (hN : ∀ {β : Type} (a : A β), N a → P.allows q a ∧ ∀ v q', P.step q a v q' → q' = q)
    {p : Prog A α} (hp : Only N p) (hF : ∀ a, F a q) : Obeys P p F q := by
  induction p with
  | ret a => exact hF a
  | act a k ih =>
    obtain ⟨hallow, hsame⟩ := hN a hp.1
    refine ⟨hallow, ?_⟩
    intro v q' hq
    obtain rfl := hsame v q' hq
    exact ih v (hp.2 v) hF
  | iter body s k ihb ih => exact ⟨fun s' => ihb s' (hp.1 s') fun _ => rfl, fun v => ih v (hp.2 v) hF⟩

end Obeys

/-! ### On a machine -/

section Machine

variable (exec : ∀ {β : Type}, A β → H → Option (β × H))

/-- The states of the protocol say something about the heap, and an allowed action moves both. -/
def Abstracts (P : Protocol A Q) (Abs : Q → H → Prop) : Prop :=
  ∀ {β : Type} (a : A β) (q : Q) (h h' : H) (v : β), Abs q h → P.allows q a → exec a h = some (v, h') →
    ∃ q', P.step q a v q' ∧ Abs q' h'

variable {exec} {P : Protocol A Q} {Abs : Q → H → Prop} {F : α → Q → Prop} {q : Q}

/-- **One step** of a program that obeys. -/
theorem Obeys.step {p p' : Prog A α} {h h' : H} (hP : Abstracts exec P Abs) (hp : Obeys P p F q) (hq : Abs q h)
    (hs : p.step exec h = some (p', h')) : ∃ q', Obeys P p' F q' ∧ Abs q' h' := by
  cases p with
  | ret a => cases hs
  | act a k =>
    obtain ⟨⟨v, h1⟩, he, heq⟩ := Option.map_eq_some_iff.mp hs
    obtain ⟨rfl, rfl⟩ := Prod.mk.inj heq
    obtain ⟨q', hstep, hq'⟩ := hP a q h h1 v hq hp.1 he
    exact ⟨q', hp.2 v q' hstep, hq'⟩
  | iter body s k =>
    obtain ⟨rfl, rfl⟩ := Prod.mk.inj (Option.some.inj hs)
    exact ⟨q, hp.unroll, hq⟩

/-- One step of a program whose actions leave the state where it is. -/
theorem Only.step {N : ∀ {β : Type}, A β → Prop} {p p' : Prog A α} {h h' : H} (hP : Abstracts exec P Abs)
    (hN : ∀ {β : Type} (a : A β), N a → P.allows q a ∧ ∀ v q', P.step q a v q' → q' = q)
    (hp : Only N p) (hq : Abs q h) (hs : p.step exec h = some (p', h')) : Only N p' ∧ Abs q h' := by
  cases p with
  | ret a => cases hs
  | act a k =>
    obtain ⟨⟨v, h1⟩, he, heq⟩ := Option.map_eq_some_iff.mp hs
    obtain ⟨rfl, rfl⟩ := Prod.mk.inj heq
    obtain ⟨hallow, hsame⟩ := hN a hp.1
    obtain ⟨q', hstep, hq'⟩ := hP a q h h1 v hq hallow he
    obtain rfl := hsame v q' hstep
    exact ⟨hp.2 v, hq'⟩
  | iter body s k =>
    obtain ⟨rfl, rfl⟩ := Prod.mk.inj (Option.some.inj hs)
    exact ⟨hp.unroll, hq⟩

/-- A program that obeys and returns has brought the protocol to `F`. -/
theorem Obeys.returned {p : Prog A α} {h h' : H} {a : α} (hP : Abstracts exec P Abs) (hp : Obeys P p F q)
    (hq : Abs q h) (hr : Returns exec p h a h') : ∃ q', F a q' ∧ Abs q' h' := by
  obtain ⟨n, hn⟩ := hr
  induction n generalizing p h q with
  | zero => simp [run] at hn
  | succ n ih =>
    cases p with
    | ret b =>
      obtain ⟨rfl, rfl⟩ := Prod.mk.inj (Option.some.inj hn)
      exact ⟨q, hp, hq⟩
    | act b k =>
      obtain ⟨⟨v, h1⟩, he, hk⟩ := Option.bind_eq_some_iff.mp hn
      obtain ⟨q', hstep, hq'⟩ := hP b q h h1 v hq hp.1 he
      exact ih (hp.2 v q' hstep) hq' hk
    | iter body s k => exact ih hp.unroll hq hn

end Machine

end Prog

end Atomic
