import RcuTable.Lib.Prog

/-!
# Cost — what a program spends until it returns

`weight` charges an action by `w` and a turn of a loop with one.  `Costs` adds up what the steps of a whole
run are charged; a simulated program has a cost (`Sim.costs`), and each of its steps takes its own share off
(`Costs.step`).
-/

namespace Atomic

namespace Prog

variable {A : Type → Type} {α H : Type} (exec : ∀ {β : Type}, A β → H → Option (β × H))
  (w : ∀ {β : Type}, A β → ℕ)

/-- What the next step is charged. -/
def weight : Prog A α → ℕ
  | .ret _ => 0
  | .act a _ => w a
  | .iter .. => 1

/-- What the whole program is charged, with fuel for its steps. -/
def cost : ℕ → Prog A α → H → Option ℕ
  | 0, _, _ => none
  | _ + 1, .ret _, _ => some 0
  | n + 1, p, h => (p.step exec h).bind fun r => (cost n r.1 r.2).map (p.weight w + ·)

def Costs (p : Prog A α) (h : H) (c : ℕ) : Prop := ∃ n, p.cost exec w n h = some c

variable {exec w} {p p' : Prog A α} {h h' : H} {c : ℕ}

theorem costs_ret {a : α} : (Prog.ret a).Costs exec w h c ↔ c = 0 := by
  constructor
  · rintro ⟨n, hn⟩
    cases n with
    | zero => cases hn
    | succ n => exact (Option.some.inj hn).symm
  · rintro rfl
    exact ⟨1, rfl⟩

theorem cost_of_step (hs : p.step exec h = some (p', h')) (n : ℕ) :
    p.cost exec w (n + 1) h = (p'.cost exec w n h').map (p.weight w + ·) := by
  cases p with
  | ret a => cases hs
  | act | iter => simp only [cost, hs, Option.bind_some]

/-- A step takes its charge off. -/
theorem Costs.step (hc : p.Costs exec w h c) (hs : p.step exec h = some (p', h')) :
    ∃ c', p'.Costs exec w h' c' ∧ c = p.weight w + c' := by
  obtain ⟨n, hn⟩ := hc
  cases n with
  | zero => cases hn
  | succ n =>
    rw [cost_of_step hs] at hn
    obtain ⟨c', hc', rfl⟩ := Option.map_eq_some_iff.mp hn
    exact ⟨c', ⟨n, hc'⟩, rfl⟩

theorem Costs.of_step (hs : p.step exec h = some (p', h')) (hc : p'.Costs exec w h' c) :
    p.Costs exec w h (p.weight w + c) := by
  obtain ⟨n, hn⟩ := hc
  exact ⟨n + 1, by rw [cost_of_step hs, hn]; rfl⟩

end Prog

/-- A simulated program has a cost. -/
theorem Sim.costs {A : Type → Type} {α H G : Type} {exec : ∀ {β : Type}, A β → H → Option (β × H)}
    {R : ∀ {β : Type}, A β → H → G → H → G → Prop} {Q : α → H → G → Prop} {p : Prog A α} {h : H} {g : G}
    (w : ∀ {β : Type}, A β → ℕ) (hp : Sim exec R Q p h g) : ∃ c, p.Costs exec w h c := by
  induction hp with
  | ret => exact ⟨0, Prog.costs_ret.mpr rfl⟩
  | @act _ a k h _ v h' _ he _ _ ih =>
    obtain ⟨c, hc⟩ := ih
    have hs : (Prog.act a k).step exec h = some (k v, h') := by simp [Prog.step, he]
    exact ⟨_, .of_step hs hc⟩
  | @iter _ _ body s k h _ _ ih =>
    obtain ⟨c, hc⟩ := ih
    have hs : (Prog.iter body s k).step exec h = some (Prog.unroll body k s, h) := rfl
    exact ⟨_, .of_step hs hc⟩

end Atomic
