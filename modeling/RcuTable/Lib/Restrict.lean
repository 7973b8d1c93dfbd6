import RcuTable.Lib.Protocol

/-!
# Restrict — machines that refuse some actions

A machine restricts another if whatever it answers, the other answers as well.  A program that returns on
the restriction returns the same on the other machine (`Restricts.returns`); where a program returns on the
other machine, its two parts decide whether it does on the restriction (`Restricts.returns_bind_iff`).
Machines that agree on some actions run a program over them alike (`Only.returns_iff`).
-/

namespace Atomic

namespace Prog

variable {A : Type → Type} {H α β σ : Type}

theorem returns_act (exec : ∀ {β : Type}, A β → H → Option (β × H)) {a : A β} {k : β → Prog A α} {h h' : H}
    {b : α} : Returns exec (.act a k) h b h' ↔
      ∃ v h1, exec a h = some (v, h1) ∧ Returns exec (k v) h1 b h' := by
  refine ⟨fun hr => hr.of_act, ?_⟩
  rintro ⟨v, h1, he, hk⟩
  exact (returns_of_step exec (by simp [step, he])).mpr hk

theorem returns_iter (exec : ∀ {β : Type}, A β → H → Option (β × H)) {body : σ → Prog A (σ ⊕ β)} {s : σ}
    {k : β → Prog A α} {h h' : H} {b : α} :
    Returns exec (.iter body s k) h b h' ↔ Returns exec (unroll body k s) h b h' := returns_of_step exec rfl

section Restricts

variable (exec' exec : ∀ {β : Type}, A β → H → Option (β × H))

/-- What `exec'` answers, `exec` answers. -/
def Restricts : Prop := ∀ {β : Type} (a : A β) (h : H) (r : β × H), exec' a h = some r → exec a h = some r

variable {exec' exec}

theorem Restricts.returns (hx : Restricts exec' exec) {p : Prog A α} {h h' : H} {a : α}
    (hr : p.Returns exec' h a h') : p.Returns exec h a h' := by
  obtain ⟨n, hn⟩ := hr
  induction n generalizing p h with
  | zero => simp [run] at hn
  | succ n ih =>
    cases p with
    | ret b => exact ⟨1, hn⟩
    | act b k =>
      obtain ⟨⟨v, h1⟩, he, hk⟩ := Option.bind_eq_some_iff.mp hn
      obtain ⟨m, hm⟩ := ih hk
      exact ⟨m + 1, by simp [run, hx b h _ he, hm]⟩
    | iter body s k =>
      obtain ⟨m, hm⟩ := ih hn
      exact ⟨m + 1, hm⟩

/-- Two parts that return on the other machine return on the restriction one by one. -/
theorem Restricts.returns_bind_iff (hx : Restricts exec' exec) {p : Prog A β} {f : β → Prog A α}
    {h h1 h' : H} {b : β} {a : α} (hp : p.Returns exec h b h1) :
    (p.bind f).Returns exec' h a h' ↔ p.Returns exec' h b h1 ∧ (f b).Returns exec' h1 a h' := by
  constructor
  · intro hr
    obtain ⟨b', h1', hp', hf⟩ := (returns_bind exec').mp hr
    obtain ⟨rfl, rfl⟩ := hp.det exec (hx.returns hp')
    exact ⟨hp', hf⟩
  · rintro ⟨hp', hf⟩
    exact (returns_bind exec').mpr ⟨b, h1, hp', hf⟩

end Restricts

/-- Machines that agree on some actions run a program over them alike. -/
theorem Only.run_eq {exec exec' : ∀ {β : Type}, A β → H → Option (β × H)} {N : ∀ {β : Type}, A β → Prop}
    (hx : ∀ {β : Type} (a : A β) (h : H), N a → exec' a h = exec a h) {p : Prog A α} (hp : Only N p)
    (n : ℕ) (h : H) : p.run exec' n h = p.run exec n h := by
  induction n generalizing p h with
  | zero => rfl
  | succ n ih =>
    cases p with
    | ret b => rfl
    | act a k =>
      show (exec' a h).bind _ = (exec a h).bind _
      rw [hx a h hp.1]
      exact congrArg _ (funext fun r => ih (hp.2 r.1) r.2)
    | iter body s k => exact ih hp.unroll h

theorem Only.returns_iff {exec exec' : ∀ {β : Type}, A β → H → Option (β × H)}
    {N : ∀ {β : Type}, A β → Prop} (hx : ∀ {β : Type} (a : A β) (h : H), N a → exec' a h = exec a h)
    {p : Prog A α} (hp : Only N p) {h h' : H} {a : α} :
    p.Returns exec' h a h' ↔ p.Returns exec h a h' :=
  exists_congr fun n => by rw [hp.run_eq hx]

end Prog

end Atomic
