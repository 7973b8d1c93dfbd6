import RcuTable.System.Linearize

/-!
# System.Batch — what a grace period gives back

A caller may detach several nodes and wait once for all of them.  When a call returns that has waited
(`Op.waited`), readers can reach linked nodes only: every other node is out of reach, and stays so until it is
inserted again (`waited_out_of_reach`).
-/

namespace RcuTable

open Atomic Chain Trans

variable {T K φ : Type}

/-- The call has returned behind an `rcuSynchronize` that began after the last node was unlinked. -/
def Op.waited : Op K φ → Res → Bool
  | .synchronize, _ | .expandBuckets2x, _ => true
  | .shrinkBuckets2x, .bool b => b
  | .tryDetachAutoShrink _ _, .detached _ b => b
  | .tryDetachAndSynchronize _ _, .node p => p.isSome
  | _, _ => false

section Post

variable {h0 h : Heap K φ} {g0 g : View}

theorem DetachPost.dirty_of_some {x m : ℕ} {f : Heap K φ → Ptr → Bool} {D : Ptr → Ptr → Prop} {p : Option Ptr}
    (hp : DetachPost h0 g0 x f m D p h g) (hsome : p.isSome = true) {q : Ptr} (hq : g.dirty q) :
    ∃ p', p = some p' ∧ D p' q := by
  obtain ⟨-, ⟨rfl, -⟩ | ⟨p', rfl, hs⟩⟩ := hp
  · cases hsome
  · exact ⟨p', rfl, hs.dirty q hq⟩

/-- No reader stands on an unlinked node when such a call returns. -/
theorem Op.Post.clean {fl : FloatOps φ} {op : Op K φ} {res : Res} (hp : op.Post fl h0 g0 res h g)
    (hw : op.waited res = true) (q : Ptr) : ¬ g.dirty q := by
  intro hq
  cases op with
  | tryInsert | tryInsertNoExpand | insertNoExpand | tryDetachNoShrink | find => cases hw
  | tryDetachAutoShrink =>
    obtain ⟨p, b, rfl, hnone, -, hp⟩ := hp
    obtain rfl : b = true := hw
    have hsome : p.isSome = true := by
      cases p with
      | none => cases hnone rfl
      | some p => rfl
    obtain ⟨-, -, hb, -⟩ := hp.dirty_of_some hsome hq
    cases hb
  | tryDetachAndSynchronize =>
    obtain ⟨p, rfl, hp⟩ := hp
    obtain ⟨-, -, hD⟩ := hp.dirty_of_some hw hq
    exact hD
  | expandBuckets2x => exact hp.2.dirty q hq
  | shrinkBuckets2x =>
    rcases hp with ⟨-, rfl, -⟩ | ⟨-, -, hs⟩
    · cases hw
    · exact hs.dirty q hq
  | synchronize =>
    obtain ⟨-, -, rfl⟩ := hp
    exact hq

end Post

variable [Fintype T] [DecidableEq T] {cfg : ZoneCfg} {hash : T → ℕ} {fl : FloatOps φ}

/-- **A batch of detaches, one grace period.**  In every schedule, when a call returns that has waited, a node
that is not linked, whichever call has unlinked it, is out of reach of all readers, and stays so until an insert
of it links it again. -/
theorem waited_out_of_reach (r : TableRun K cfg hash fl) (hc : ∀ i < r.len, (r.state i).Contract (r.act i)) :
    ∀ i op res n, i ≤ r.len → (r.state i).writer = some (op, .ret res) → op.waited res = true →
      ¬ (r.state i).heap.Linked (.node n) → (∀ t, ¬ (r.state i).CanReach t (.node n)) ∧
        ∀ j, i ≤ j → j ≤ r.len → ∀ t, (r.state j).CanReach t (.node n) → InsertedSince r (.node n) i j := by
  intro i op res n hi hw hwaited hfree
  have hl := lawful_of_contract hc
  obtain ⟨g, hinv, hp⟩ := hl.exists_inv i hi
  have hcall := hinv.writer
  rw [hw] at hcall
  obtain ⟨-, h0, g0, -, hpost, -⟩ := hcall.returned
  have hseen : ¬ g.Seen (.node n) := fun hs =>
    hs.elim (fun hlinked => hfree (hinv.rep.linked_heap.mpr hlinked)) (hpost.clean hwaited _)
  have hown : ∀ op' c, (r.state i).writer = some (op', c) → ¬ op'.own (.node n) := by
    intro op' c hw' ho
    obtain ⟨rfl, -⟩ := Prod.mk.inj (Option.some.inj (hw.symm.trans hw'))
    cases op with
    | tryInsert | tryInsertNoExpand | insertNoExpand => cases hwaited
    | _ => exact ho
  refine ⟨fun t hreach => hseen (hinv.seen_of_canReach hreach), ?_⟩
  intro j hij hj t hreach
  obtain ⟨g', hinv', hsince⟩ := hl.inserted_since hij hj hinv hp hseen hown
  exact hsince (hinv'.seen_of_canReach hreach)

/-! ### Two detaches and one `rcuSynchronize` -/

/-- Nodes 0 and 1 are inserted, and a reader stands on node 1, with node 0 ahead.  Both are detached, and the
reader goes on to node 0 while the writer waits for it. -/
def detachTwice : List (TableAct Unit ℕ ℚ) := List.flatten [
  [insertAct 0], .replicate 13 .write, [.return, .prepare 1 1 1, .call (.insertNoExpand 1)], .replicate 7 .write,
  [.return, .lock (), .enter (), .enter (), .enter (), .begin () 0 (natKeys.finds 0)], .replicate 5 (.read ()),
  [.call (.tryDetachNoShrink 1 (natKeys.finds 1))], .replicate 7 .write,
  [.return, .call (.tryDetachNoShrink 0 (natKeys.finds 0))], .replicate 7 .write,
  [.return, .call .synchronize], .replicate 5 .write,
  [.read (), .read (), .read (), .finish (), .unlock ()], .replicate 4 .write]

def bothDetached : TableRun (T := Unit) ℕ Zone.tinyCfg (fun _ => 0) ratOps :=
  .ofActs (.setUp Unit (keyed0.heap 0)) detachTwice TableSys.setUp_init (by decide +kernel)

theorem detachTwice_brings : ∀ i < 68, (detachTwice.getD i default).brings = none ∨
    (i = 0 ∧ (detachTwice.getD i default).brings = some 0) ∨
    ((i = 15 ∨ i = 16) ∧ (detachTwice.getD i default).brings = some 1) := by decide +kernel

theorem bothDetached_contract :
    ∀ i < bothDetached.len, (bothDetached.state i).Contract (bothDetached.act i) := by
  intro i hi
  refine TableSys.contract_of_brings ?_
  intro n hn
  rcases detachTwice_brings i hi with h | ⟨rfl, h⟩ | ⟨rfl | rfl, h⟩ <;> cases h.symm.trans hn
  · have hn : ((bothDetached.state 0).heap.nodes 4).any (fun l => !l.contains (.node 0)) = true := by
      decide +kernel
    exact TableSys.free_of_nodes hn (by decide +kernel)
  · have hn : ((bothDetached.state 15).heap.nodes 4).any (fun l => !l.contains (.node 1)) = true := by
      decide +kernel
    exact TableSys.free_of_nodes hn (by decide +kernel)
  · have hn : ((bothDetached.state 16).heap.nodes 4).any (fun l => !l.contains (.node 1)) = true := by
      decide +kernel
    exact TableSys.free_of_nodes hn (by decide +kernel)

/-- The reader has held both nodes in the grace period; behind it both are out of its reach. -/
theorem bothDetached_out_of_reach :
    ((bothDetached.state 62).reader ()).held = [.node 1, .node 0] ∧
      ¬ (bothDetached.state 68).CanReach () (.node 0) ∧ ¬ (bothDetached.state 68).CanReach () (.node 1) := by
  have hdone : ((bothDetached.state 68).writer.any fun w => w.2.result.any w.1.waited) = true := by
    decide +kernel
  obtain ⟨⟨op, p⟩, hw, hp⟩ := Option.any_eq_true .. |>.mp hdone
  obtain ⟨res, hres, hwaited⟩ := Option.any_eq_true .. |>.mp hp
  obtain rfl := Prog.eq_ret_of_result hres
  have hempty : ((bothDetached.state 68).heap.nodes 4).any
      (fun l => !l.contains (.node 0) && !l.contains (.node 1)) = true := by decide +kernel
  obtain ⟨l, hl, hno⟩ := Option.any_eq_true .. |>.mp hempty
  have hfree : ∀ n, n = 0 ∨ n = 1 → ¬ (bothDetached.state 68).heap.Linked (.node n) := by
    intro n hn hlinked
    rw [Heap.linked_iff_of_nodes hl] at hlinked
    rcases hn with rfl | rfl <;> simp [hlinked] at hno
  have hout : ∀ n, n = 0 ∨ n = 1 → ¬ (bothDetached.state 68).CanReach () (.node n) := fun n hn =>
    (waited_out_of_reach bothDetached bothDetached_contract 68 _ _ n le_rfl hw hwaited (hfree n hn)).1 ()
  exact ⟨by decide +kernel, hout 0 (Or.inl rfl), hout 1 (Or.inr rfl)⟩

end RcuTable
