import RcuTable.System.Lookup
import Mathlib.Logic.Relation

/-!
# System.Reclaim — what readers can still reach when memory is given back

A detach that has waited hands its node back to the caller, and a resize frees the array that it has replaced.
In every schedule both are out of reach of the readers (`reclamation_safe`).
-/

namespace RcuTable

open Atomic Chain Trans

variable {T K φ : Type}

/-- The cells that a reader loads its next pointer from: nodes that it holds, and list heads of an array that it
holds or that it will be given next. -/
def Reading.Root (l : Reading K φ) (h : Heap K φ) (c : Ptr) : Prop :=
  c ∈ l.held ∨ ∃ b i, (b ∈ l.arrays ∨ b = h.pBucketsInfo) ∧ c = .head b i ∧ h.accessible c = true

namespace TableSys

/-- The reader holds the node, or gets there by following next pointers. -/
def CanReach (s : TableSys T K φ) (t : T) (p : Ptr) : Prop :=
  ∃ c, (s.reader t).Root s.heap c ∧ Relation.ReflTransGen (fun a b => s.heap.next a = some b) c p

/-- The node that the writer's call returns, and says that its caller need not wait for. -/
def reclaims (s : TableSys T K φ) : Option Ptr :=
  match s.writer with
  | some (.tryDetachAndSynchronize _ _, .ret (.node p)) => p
  | some (.tryDetachAutoShrink _ _, .ret (.detached p true)) => p
  | _ => none

/-- The array that the writer is about to free. -/
def frees (s : TableSys T K φ) : Option ℕ :=
  match s.writer with
  | some (_, .act (.free b) _) => some b
  | _ => none

theorem reclaims_cases {s : TableSys T K φ} {p : Ptr} (hp : s.reclaims = some p) :
    ∃ x f, s.writer = some (.tryDetachAndSynchronize x f, .ret (.node (some p))) ∨
      s.writer = some (.tryDetachAutoShrink x f, .ret (.detached (some p) true)) := by
  unfold reclaims at hp
  split at hp
  case h_1 x f q hw =>
    rw [hp] at hw
    exact ⟨x, f, Or.inl hw⟩
  case h_2 x f q hw =>
    rw [hp] at hw
    exact ⟨x, f, Or.inr hw⟩
  case h_3 => cases hp

theorem frees_cases {s : TableSys T K φ} {b : ℕ} (hb : s.frees = some b) :
    ∃ op k, s.writer = some (op, .act (.free b) k) := by
  unfold frees at hb
  split at hb
  case h_1 op b' k hw =>
    obtain rfl := Option.some.inj hb
    exact ⟨op, k, hw⟩
  case h_2 => cases hb

end TableSys

section Code

variable [DecidableEq T] {cfg : ZoneCfg} {hash : T → ℕ} {fl : FloatOps φ}

/-- An insert of `p` is called after state `i`, and links it until state `j`. -/
def InsertedSince (r : TableRun K cfg hash fl) (p : Ptr) (i j : ℕ) : Prop :=
  ∃ m m', i ≤ m ∧ m < m' ∧ m' ≤ j ∧ (∃ op, r.act m = .call op ∧ op.own p) ∧ (r.state m').heap.Linked p

end Code

/-! ### What is in reach -/

section Reach

variable {h h' : Heap K φ} {g g' : View} {c p : Ptr}

/-- What is in reach is in sight. -/
theorem Closed.seen_of_reach (hcl : Closed h g)
    (hreach : Relation.ReflTransGen (fun a b => h.next a = some b) c p) (hc : g.Seen c)
    (ha : h.accessible c = true) : g.Seen p := by
  have hboth : g.Seen p ∧ h.accessible p = true := by
    induction hreach with
    | refl => exact ⟨hc, ha⟩
    | tail _ hstep ih =>
      obtain ⟨hseen, n, rfl⟩ := hcl _ ih.1 ih.2 _ hstep
      exact ⟨hseen, rfl⟩
  exact hboth.1

theorem Reading.Within.root {l : Reading K φ} (hl : l.Within g) (hr : Rep h g) (hc : l.Root h c) :
    g.Seen c ∧ h.accessible c = true := by
  rcases hc with hc | ⟨b, i, hb, rfl, ha⟩
  · obtain ⟨hseen, n, rfl⟩ := hl.held c hc
    exact ⟨hseen, rfl⟩
  · refine ⟨?_, ha⟩
    show g.arrs b
    rcases hb with hb | rfl
    · exact hl.arrays b hb
    · exact hr.info ▸ hr.arr

variable [Fintype T] [DecidableEq T] {cfg : ZoneCfg} {hash : T → ℕ} {fl : FloatOps φ}
  {allow : Heap K φ → View → Ptr → Prop} {s s' : TableSys T K φ}

theorem Inv.seen_of_canReach (hi : Inv cfg hash fl allow s g) {t : T} (hp : s.CanReach t p) : g.Seen p := by
  obtain ⟨c, hroot, hreach⟩ := hp
  obtain ⟨hseen, ha⟩ := (hi.within t).root hi.rep hroot
  exact hi.closed.seen_of_reach hreach hseen ha

/-- A node that comes in sight has been linked by the writer's call. -/
theorem Move.seen_node (hi : Inv cfg hash fl allow s g) (hm : Move allow s g s' g') {n : ℕ}
    (hp : g'.Seen (.node n)) : g.Seen (.node n) ∨
      g'.Linked (.node n) ∧ ∃ op c, s.writer = some (op, c) ∧ op.own (.node n) := by
  cases hm with
  | stay => exact Or.inl hp
  | synced => exact Or.inl (View.synced_seen hi.rep hp)
  | change hc _ hnew =>
    rcases hp with hl | hd
    · rcases hnew _ hl with hl' | hw
      · exact Or.inl (Or.inl hl')
      · exact Or.inr ⟨hl, hw⟩
    · generalize s'.heap = h' at hc
      cases hc with
      | prepare => exact Or.inl (Or.inr hd)
      | guar hg =>
        rcases (hg.accounts hi.rep).2 _ hd with hd' | ⟨hl, -, -⟩
        · exact Or.inl (Or.inr hd')
        · exact Or.inl (Or.inl hl)

omit [Fintype T] in
/-- The call under way is the one that was under way, or begins. -/
theorem TableSys.writer_step {a : TableAct T K φ} {op : Op K φ} {c : Code K φ Res}
    (hs : s.step cfg hash fl a = some s') (hw : s'.writer = some (op, c)) :
    (∃ c', s.writer = some (op, c')) ∨ a = .call op := by
  cases TableSys.step_cases hs with
  | lock | enter | unlock | begin | read | finish | wait => exact Or.inl ⟨c, hw⟩
  | call =>
    obtain ⟨rfl, -⟩ := Prod.mk.inj (Option.some.inj hw)
    exact Or.inr rfl
  | synchronized hw' | store hw' =>
    obtain ⟨rfl, -⟩ := Prod.mk.inj (Option.some.inj hw)
    exact Or.inl ⟨_, hw'⟩
  | «return» => cases hw
  | prepare hnone =>
    rw [hnone] at hw
    cases hw

end Reach

/-! ### What is given back -/

section GivenBack

variable {h h' : Heap K φ} {g g' : View} {p : Ptr}

theorem DetachPost.not_seen {x m : ℕ} {f : Heap K φ → Ptr → Bool} {D : Ptr → Ptr → Prop}
    (hp : DetachPost h g x f m D (some p) h' g') (hr : Rep h g) (hD : ¬ D p p) :
    (∃ n, p = .node n) ∧ ¬ g'.Seen p := by
  obtain ⟨hfind, ⟨hnone, -⟩ | ⟨q, hq, hs⟩⟩ := hp
  · cases hnone
  · obtain rfl : p = q := Option.some.inj hq
    have hlinked : g.Linked p := ⟨_, hr.slot_lt x, List.mem_of_find?_eq_some hfind.symm⟩
    obtain ⟨n, rfl⟩ := hr.linked_node hlinked
    refine ⟨⟨n, rfl⟩, ?_⟩
    rintro (hl | hd)
    · exact ((hs.linked _).mp hl).2 rfl
    · exact hD (hs.dirty _ hd)

variable [Fintype T] [DecidableEq T] {cfg : ZoneCfg} {hash : T → ℕ} {fl : FloatOps φ}
  {allow : Heap K φ → View → Ptr → Prop} {s : TableSys T K φ}

theorem Inv.reclaims (hi : Inv cfg hash fl allow s g) (hp : s.reclaims = some p) :
    (∃ n, p = .node n) ∧ ¬ g.Seen p ∧ ∀ op c, s.writer = some (op, c) → ¬ op.own p := by
  have hcall := hi.writer
  obtain ⟨x, f, hw | hw⟩ := TableSys.reclaims_cases hp
  all_goals
    rw [hw] at hcall
    obtain ⟨-, h0, g0, hf, hpost, -⟩ := hcall.returned
  · obtain ⟨q, hq, hpost⟩ := hpost
    obtain rfl := Res.node.inj hq
    obtain ⟨hnode, hseen⟩ := hpost.not_seen hf.toRep id
    refine ⟨hnode, hseen, ?_⟩
    intro op c hop
    obtain ⟨rfl, -⟩ := Prod.mk.inj (Option.some.inj (hw.symm.trans hop))
    exact id
  · obtain ⟨q, b, hq, -, -, hpost⟩ := hpost
    obtain ⟨rfl, rfl⟩ := Res.detached.inj hq
    obtain ⟨hnode, hseen⟩ := hpost.not_seen hf.toRep (by simp)
    refine ⟨hnode, hseen, ?_⟩
    intro op c hop
    obtain ⟨rfl, -⟩ := Prod.mk.inj (Option.some.inj (hw.symm.trans hop))
    exact id

/-- The freed array is no array that a reader can be given. -/
theorem Inv.frees (hi : Inv cfg hash fl allow s g) {b : ℕ} (hb : s.frees = some b) : ¬ g.arrs b := by
  intro harr
  obtain ⟨op, k, hw⟩ := TableSys.frees_cases hb
  have hcall := hi.writer
  rw [hw] at hcall
  obtain ⟨h0, g0, -, hsim, -⟩ := hcall.sim
  cases hsim with
  | @act _ _ _ _ _ v h' g' he hwr _ =>
    have hguar := Writes.guar (show afterSynchronize (.act (.free b) k) = none from rfl) hwr
    -- an array in sight stays allocated
    have hlive : h'.live b = true := ((hguar.rep hi.rep).live b (hguar.arrs harr)).1
    simp only [exec] at he
    split at he
    · obtain ⟨-, rfl⟩ := Prod.mk.inj (Option.some.inj he)
      simp at hlive
    · cases he

end GivenBack

/-! ### Runs -/

section Runs

variable [Fintype T] [DecidableEq T] {cfg : ZoneCfg} {hash : T → ℕ} {fl : FloatOps φ}
  {r : TableRun K cfg hash fl} {p : Ptr} {i j k : ℕ}

omit [Fintype T] in
theorem InsertedSince.succ (hs : InsertedSince r p i k) : InsertedSince r p i (k + 1) := by
  obtain ⟨m, m', h1, h2, h3, h4⟩ := hs
  exact ⟨m, m', h1, h2, by omega, h4⟩

/-- A node that is out of sight, and no call's own, comes in sight by an insert of it only. -/
theorem Lawful.inserted_since {allow : Heap K φ → View → Ptr → Prop} {P : Heap K φ → View → Prop}
    (hl : Lawful r allow P) (hij : i ≤ j) (hj : j ≤ r.len) {g : View} {n : ℕ}
    (hinv : Inv cfg hash fl allow (r.state i) g) (hp : P (r.state i).heap g) (hseen : ¬ g.Seen (.node n))
    (hown : ∀ op c, (r.state i).writer = some (op, c) → ¬ op.own (.node n)) :
    ∃ g', Inv cfg hash fl allow (r.state j) g' ∧ (g'.Seen (.node n) → InsertedSince r (.node n) i j) := by
  have hall : ∃ g', Inv cfg hash fl allow (r.state j) g' ∧ P (r.state j).heap g' ∧
      (g'.Seen (.node n) → InsertedSince r (.node n) i j) ∧
      ∀ op c, (r.state j).writer = some (op, c) → op.own (.node n) →
        ∃ m, i ≤ m ∧ m < j ∧ ∃ op, r.act m = .call op ∧ op.own (.node n) := by
    refine r.window (P := fun k => ∃ g', Inv cfg hash fl allow (r.state k) g' ∧ P (r.state k).heap g' ∧
      (g'.Seen (.node n) → InsertedSince r (.node n) i k) ∧
      ∀ op c, (r.state k).writer = some (op, c) → op.own (.node n) →
        ∃ m, i ≤ m ∧ m < k ∧ ∃ op, r.act m = .call op ∧ op.own (.node n)) hij hj
      ⟨g, hinv, hp, fun h => absurd h hseen, fun op c hw ho => absurd ho (hown op c hw)⟩ ?_
    rintro k hik hkj hstep ⟨g', hinv', hp', hsince, hcalled⟩
    obtain ⟨g'', hinv'', hp'', hm⟩ := hl.step (by omega) hinv' hp'
    refine ⟨g'', hinv'', hp'', ?_, ?_⟩
    · intro hs
      rcases hm.seen_node hinv' hs with hs' | ⟨hlinked, op, c, hw, ho⟩
      · exact (hsince hs').succ
      · obtain ⟨m, h1, h2, h3⟩ := hcalled op c hw ho
        exact ⟨m, k + 1, h1, by omega, le_rfl, h3, hinv''.rep.linked_heap.mpr hlinked⟩
    · intro op c hw ho
      rcases TableSys.writer_step hstep hw with ⟨c', hw'⟩ | hact
      · obtain ⟨m, h1, h2, h3⟩ := hcalled op c' hw' ho
        exact ⟨m, h1, by omega, h3⟩
      · exact ⟨k, hik, by omega, op, hact, ho⟩
  obtain ⟨g', hinv', -, hsince, -⟩ := hall
  exact ⟨g', hinv', hsince⟩

/-- **Reclamation is safe.**  (a) When a detach returns a node as waited for, no reader can reach it, nor later, until
an insert of it links it again; (b) an array that the writer frees is neither published nor held by a reader. -/
theorem reclamation_safe (r : TableRun K cfg hash fl) (hc : ∀ i < r.len, (r.state i).Contract (r.act i)) :
    (∀ i p, i ≤ r.len → (r.state i).reclaims = some p → (∀ t, ¬ (r.state i).CanReach t p) ∧
      ∀ j, i ≤ j → j ≤ r.len → ∀ t, (r.state j).CanReach t p → InsertedSince r p i j) ∧
    ∀ i b, i ≤ r.len → (r.state i).frees = some b → (r.state i).heap.pBucketsInfo ≠ b ∧
      ∀ t, b ∉ ((r.state i).reader t).arrays ∧ ∀ k, .head b k ∉ ((r.state i).reader t).held := by
  have hl := lawful_of_contract hc
  refine ⟨?_, ?_⟩
  · intro i p hi hrec
    obtain ⟨g, hinv, hp⟩ := hl.exists_inv i hi
    obtain ⟨⟨n, rfl⟩, hseen, hown⟩ := hinv.reclaims hrec
    refine ⟨fun t hreach => hseen (hinv.seen_of_canReach hreach), ?_⟩
    intro j hij hj t hreach
    obtain ⟨g', hinv', hsince⟩ := hl.inserted_since hij hj hinv hp hseen hown
    exact hsince (hinv'.seen_of_canReach hreach)
  · intro i b hi hfree
    obtain ⟨g, hinv, -⟩ := hl.exists_inv i hi
    have hno := hinv.frees hfree
    refine ⟨?_, fun t => ⟨fun hb => hno ((hinv.within t).arrays b hb), ?_⟩⟩
    · rintro rfl
      exact hno (hinv.rep.info ▸ hinv.rep.arr)
    · intro k hk
      exact hno ((hinv.within t).held _ hk).1

end Runs

/-! ### A schedule with both -/

/-- The reader of `midExpand` leaves, so the expand goes on.  Before it frees the old array, the reader is back
with the new one, and stands on node 0 when a detach unlinks it; the detach waits until the reader has left. -/
def expandThenDetach : List (TableAct Unit ℕ ℚ) := List.flatten [
  midExpand, [.finish (), .unlock ()], .replicate 34 .write,
  [.lock (), .enter (), .enter (), .enter (), .begin () 0 (natKeys.finds 0), .read (), .read (), .read ()],
  .replicate 4 .write, [.return, .call (.tryDetachAndSynchronize 0 (natKeys.finds 0))],
  .replicate 12 .write, [.read (), .read (), .finish (), .unlock ()], .replicate 7 .write]

def bothGivenBack : TableRun (T := Unit) ℕ Zone.tinyCfg (fun _ => 0) ratOps :=
  .ofActs (.setUp Unit (keyed0.heap 0)) expandThenDetach TableSys.setUp_init (by decide +kernel)

theorem expandThenDetach_brings : ∀ i < 134, (expandThenDetach.getD i default).brings = none ∨
    (i = 0 ∧ (expandThenDetach.getD i default).brings = some 0) ∨
    (i = 22 ∧ (expandThenDetach.getD i default).brings = some 1) := by decide +kernel

theorem bothGivenBack_contract :
    ∀ i < bothGivenBack.len, (bothGivenBack.state i).Contract (bothGivenBack.act i) := by
  intro i hi
  refine TableSys.contract_of_brings ?_
  intro n hn
  rcases expandThenDetach_brings i hi with h | ⟨rfl, h⟩ | ⟨rfl, h⟩ <;> cases h.symm.trans hn
  · have hn : ((bothGivenBack.state 0).heap.nodes 4).any (fun l => !l.contains (.node 0)) = true := by
      decide +kernel
    exact TableSys.free_of_nodes hn (by decide +kernel)
  · have hn : ((bothGivenBack.state 22).heap.nodes 4).any (fun l => !l.contains (.node 1)) = true := by
      decide +kernel
    exact TableSys.free_of_nodes hn (by decide +kernel)

/-- The reader holds array 2 when array 1 is freed, and cannot reach node 0 when the detach returns it. -/
theorem bothGivenBack_safe :
    (bothGivenBack.state 108).frees = some 1 ∧ ((bothGivenBack.state 108).reader ()).arrays = [2] ∧
      (bothGivenBack.state 108).heap.pBucketsInfo ≠ 1 ∧ (bothGivenBack.state 134).reclaims = some (.node 0) ∧
      ¬ (bothGivenBack.state 134).CanReach () (.node 0) := by
  obtain ⟨hreclaim, hfree⟩ := reclamation_safe bothGivenBack bothGivenBack_contract
  have hfrees : (bothGivenBack.state 108).frees = some 1 := by decide +kernel
  have hreclaims : (bothGivenBack.state 134).reclaims = some (.node 0) := by decide +kernel
  refine ⟨hfrees, by decide +kernel, (hfree 108 1 (by decide +kernel) hfrees).1, hreclaims, ?_⟩
  exact (hreclaim 134 (.node 0) (by decide +kernel) hreclaims).1 ()

end RcuTable
