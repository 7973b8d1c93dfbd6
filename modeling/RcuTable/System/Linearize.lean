import RcuTable.Lib.Switch
import RcuTable.System.History

/-!
# System.Linearize — every call takes effect at one instant

The abstract table is a set `R m` of nodes for every state `m` of a schedule, the nodes that are linked then.  A
call of the writer by key switches it once, between its begin and its return, as `RefStep` says; nothing else
changes it; and what a lookup returns is the answer of the set at some instant of the lookup
(`table_linearizable`).
-/

namespace RcuTable

open Atomic Chain Trans

variable {T K φ : Type}

/-- A call of the writer that begins in state `i` and returns in state `j`. -/
structure Completed [DecidableEq T] {cfg : ZoneCfg} {hash : T → ℕ} {fl : FloatOps φ}
    (r : TableRun K cfg hash fl) (i j : ℕ) (op : Op K φ) (res : Res) : Prop where
  begins : r.act i = .call op
  lt : i < j
  len : j < r.len
  on : ∀ k, i < k → k < j → r.act k ≠ .return
  ends : r.act j = .return
  result : ((r.state j).writer.bind fun w => w.2.result) = some res

/-! ### What a step does to the set -/

section Steps

variable {allow : Heap K φ → View → Ptr → Prop} {pm : Perm K φ} {h h' : Heap K φ} {g g' : View}

/-- The node that a call brings along stays, once it is linked. -/
theorem Guar.keeps_own (hr : Rep h g) (hg : Guar pm h g h' g') {q : Ptr} (ho : pm.own q) (hq : g.Linked q) :
    g'.Linked q := by
  cases hg with
  | quiet => exact hq
  | link _ _ _ hj => exact (View.link_linked (hj ▸ hr.slot_lt _)).mpr (Or.inl hq)
  | swing hs => exact hs.keep q ho hq
  | publish hp => exact (hp.linked q).mpr hq

/-- One step links nodes or unlinks nodes, not both. -/
theorem Change.one_way (hr : Rep h g) (hc : Change allow h g h' g') :
    (∀ p, g.Linked p → g'.Linked p) ∨ ∀ p, g'.Linked p → g.Linked p := by
  cases hc with
  | guar hg =>
    cases hg with
    | quiet => exact Or.inl fun _ => id
    | link _ _ _ hj => exact Or.inl fun p hp => (View.link_linked (hj ▸ hr.slot_lt _)).mpr (Or.inl hp)
    | swing hs => exact Or.inr fun _ => hs.linked_of
    | publish hp => exact Or.inl fun p => (hp.linked p).mpr
  | prepare => exact Or.inl fun _ => id

variable [Fintype T] [DecidableEq T] {cfg : ZoneCfg} {hash : T → ℕ} {fl : FloatOps φ}
  {s s' : TableSys T K φ} {a : TableAct T K φ}

theorem Move.one_way (hi : Inv cfg hash fl allow s g) (hm : Move allow s g s' g') :
    (∀ p, g.Linked p → g'.Linked p) ∨ ∀ p, g'.Linked p → g.Linked p := by
  cases hm with
  | stay | synced => exact Or.inl fun _ => id
  | change hc => exact hc.one_way hi.rep

/-- During a call only its own node comes in, and stays. -/
theorem Inv.call_linked (hi : Inv cfg hash fl allow s g) {op : Op K φ} {p : Code K φ Res}
    (hw : s.writer = some (op, p)) (hs : s.step cfg hash fl a = some s') :
    (∀ q, s'.heap.Linked q → s.heap.Linked q ∨ op.own q) ∧
      ∀ q, op.own q → s.heap.Linked q → s'.heap.Linked q := by
  have hsame : s'.heap = s.heap → (∀ q, s'.heap.Linked q → s.heap.Linked q ∨ op.own q) ∧
      ∀ q, op.own q → s.heap.Linked q → s'.heap.Linked q := by
    intro hh
    rw [hh]
    exact ⟨fun q => Or.inl, fun q _ => id⟩
  cases TableSys.step_cases hs with
  | lock | enter | unlock | begin | finish | wait | synchronized | «return» => exact hsame rfl
  | @read t _ _ _ hf hstep => exact hsame ((hi.pointed t).step_heap hf hstep)
  | call hnone | prepare hnone => cases hnone.symm.trans hw
  | store hw' hafter hstep =>
    obtain ⟨rfl, rfl⟩ := Prod.mk.inj (Option.some.inj (hw.symm.trans hw'))
    have hcall := hi.writer
    rw [hw] at hcall
    obtain ⟨h0, g0, -, hsim, -⟩ := hcall.sim
    rcases Sim.step hsim hstep with ⟨rfl, -⟩ | ⟨β, b, k, v, g', rfl, he, rfl, hwr, -⟩
    · exact hsame rfl
    · have hguar := hwr.guar hafter
      have hr' := hguar.rep hi.rep
      refine ⟨fun q hq => ?_, fun q ho hq => ?_⟩
      · exact ((hguar.accounts hi.rep).1 q (hr'.linked_heap.mp hq)).imp_left hi.rep.linked_heap.mpr
      · exact hr'.linked_heap.mpr (hguar.keeps_own hi.rep ho (hi.rep.linked_heap.mp hq))

/-- Between two calls the set stays. -/
theorem Inv.rest_linked (hi : Inv cfg hash fl allow s g) (hc : s.Contract a) (hw : s.writer = none)
    (hs : s.step cfg hash fl a = some s') (q : Ptr) : s'.heap.Linked q ↔ s.heap.Linked q := by
  rcases TableSys.rest_step hi.pointed hw hs with ⟨hheap, -⟩ | ⟨n, x, k, rfl, hheap, -⟩
  · rw [hheap]
  · have hrest := hi.writer
    rw [hw] at hrest
    have hr' : Rep (s.heap.prepare n x k) g := (hrest.flat.prepare hc.1).toRep
    rw [hheap, hr'.linked_heap, hi.rep.linked_heap]

end Steps

/-! ### Completed calls -/

section Calls

variable [Fintype T] [DecidableEq T] {cfg : ZoneCfg} {hash : T → ℕ} {fl : FloatOps φ}
  {r : TableRun K cfg hash fl} {allow : Heap K φ → View → Ptr → Prop} {P : Heap K φ → View → Prop}
  {i j : ℕ} {op : Op K φ} {res : Res}

/-- The call under way, and what it is going to return. -/
theorem Completed.during (hl : Lawful r allow P) (hd : Completed r i j op res) :
    ∀ k, i < k → k ≤ j → ∃ p, (r.state k).writer = some (op, p) ∧
      ∀ res h', (op.code fl).Returns exec (r.state i).heap res h' ↔ p.Returns exec (r.state k).heap res h' := by
  intro k hik
  induction k, hik using Nat.le_induction with
  | base =>
    intro hkj
    have hstep := r.next i (hd.lt.trans hd.len)
    rw [hd.begins] at hstep
    obtain ⟨-, hw, hheap⟩ := TableSys.call_begins hstep
    exact ⟨_, hw, fun _ _ => by rw [hheap]⟩
  | succ k hik ih =>
    intro hkj
    have hlt := hd.len
    obtain ⟨p, hw, hiff⟩ := ih (by omega)
    obtain ⟨g, hinv, -⟩ := hl.exists_inv k (by omega)
    obtain ⟨p', hw', hiff'⟩ := TableSys.call_step hinv.pointed hw (hd.on k hik hkj) (r.next k (by omega))
    exact ⟨p', hw', fun res h' => (hiff res h').trans (hiff' res h')⟩

/-- A call returns what it returns on the table on which it began. -/
theorem Completed.returns (hl : Lawful r allow P) (hd : Completed r i j op res) :
    (op.code fl).Returns exec (r.state i).heap res (r.state j).heap := by
  obtain ⟨p, hw, hiff⟩ := hd.during hl j hd.lt le_rfl
  have hres := hd.result
  rw [hw, Option.bind_some] at hres
  obtain rfl := Prog.eq_ret_of_result hres
  exact (hiff _ _).mpr ((Prog.returns_ret exec).mpr ⟨rfl, rfl⟩)

omit [Fintype T] in
theorem Completed.resting (hd : Completed r i j op res) : (r.state i).writer = none := by
  have hstep := r.next i (hd.lt.trans hd.len)
  rw [hd.begins] at hstep
  exact (TableSys.call_begins hstep).1

/-- What a completed call has done, from the flat table on which it began. -/
theorem Completed.post (hl : Lawful r allow P) (hd : Completed r i j op res) :
    ∃ g g', Flat (r.state i).heap g ∧ P (r.state i).heap g ∧ op.Post fl (r.state i).heap g res (r.state j).heap g' ∧
      ∀ q, op.own q → ¬ (r.state i).heap.Linked q := by
  have hlen : i < r.len := hd.lt.trans hd.len
  obtain ⟨g, hinv, hp⟩ := hl.exists_inv i hlen.le
  have hrest := hinv.writer
  rw [hd.resting] at hrest
  have hc := hl.contract i hlen
  rw [hd.begins] at hc
  have hfree : ∀ q, op.own q → ¬ (r.state i).heap.Linked q := fun q hq => (hc q hq).1
  obtain ⟨g', hpost⟩ := (Op.total fl hrest.flat hfree).2 _ _ (hd.returns hl)
  exact ⟨g, g', hrest.flat, hp, hpost, hfree⟩

/-- A step of the reference set changes it in one node at most. -/
theorem RefStep.differs {ks : KeySpec K} {key : Ptr → K} {R R' : Finset Ptr} {c : KeyOp K}
    (hs : RefStep ks key R c res R') : ∃ q, ∀ p, p ≠ q → (p ∈ R ↔ p ∈ R') := by
  have hinsert : ∀ n : ℕ, R' = insert (.node n) R → ∃ q, ∀ p, p ≠ q → (p ∈ R ↔ p ∈ R') := by
    rintro n rfl
    exact ⟨.node n, fun p hp => by simp [hp]⟩
  have hdetach : ∀ (k : K) (p : Option Ptr), RefDetach ks key R k p R' →
      ∃ q, ∀ p, p ≠ q → (p ∈ R ↔ p ∈ R') := by
    rintro k p ⟨-, rfl⟩
    refine ⟨p.getD (.node 0), fun q hq => ?_⟩
    cases p with
    | none => simp
    | some p => simp [show q ≠ p from hq]
  have hsame : R' = R → ∃ q, ∀ p, p ≠ q → (p ∈ R ↔ p ∈ R') := by
    rintro rfl
    exact ⟨.node 0, fun _ _ => Iff.rfl⟩
  cases c with
  | tryInsert n | tryInsertNoExpand n =>
    obtain ⟨b, -, ⟨-, -, hR⟩ | ⟨-, -, hR⟩⟩ := hs
    · exact hsame hR
    · exact hinsert n hR
  | insertNoExpand n => exact hinsert n hs.2
  | tryDetachNoShrink k | tryDetachAndSynchronize k =>
    obtain ⟨p, -, hR⟩ := hs
    exact hdetach k p hR
  | tryDetachAutoShrink k =>
    obtain ⟨p, b, -, hR⟩ := hs
    exact hdetach k p hR
  | expandBuckets2x => exact hsame hs.2
  | shrinkBuckets2x => exact hsame hs.2
  | find k =>
    obtain ⟨p, -, -, hR⟩ := hs
    exact hsame hR

variable {R : ℕ → Finset Ptr}

/-- **A call switches the set once.** -/
theorem Completed.switch (hl : Lawful r allow P) (hd : Completed r i j op res)
    (hR : ∀ m ≤ r.len, ∀ p, p ∈ R m ↔ (r.state m).heap.Linked p) {q : Ptr}
    (hq : ∀ p, p ≠ q → (p ∈ R i ↔ p ∈ R j)) : ∃ m, SwitchAt R i m j := by
  have hlt := hd.len
  -- the first step only begins the call
  have hstep : ∀ k, i ≤ k → k < j → (∀ p, p ∈ R (k + 1) → p ∈ R k ∨ op.own p) ∧
      ∀ p, op.own p → p ∈ R k → p ∈ R (k + 1) := by
    intro k hik hkj
    obtain ⟨g, hinv, -⟩ := hl.exists_inv k (by omega)
    simp only [hR k (by omega), hR (k + 1) (by omega)]
    rcases Nat.eq_or_lt_of_le hik with rfl | hik
    · have hsame := hinv.rest_linked (hl.contract i (by omega)) hd.resting (r.next i (by omega))
      exact ⟨fun p hp => Or.inl ((hsame p).mp hp), fun p _ hp => (hsame p).mpr hp⟩
    · obtain ⟨p, hw, -⟩ := hd.during hl k hik hkj.le
      exact hinv.call_linked hw (r.next k (by omega))
  exact exists_switchAt hd.lt.le (fun k hik hkj => (hstep k hik hkj).2) (fun k hik hkj => (hstep k hik hkj).1) hq

end Calls

/-! ### Lookups -/

section Lookups

variable [Fintype T] [DecidableEq T] {cfg : ZoneCfg} {hash : T → ℕ} {fl : FloatOps φ}
  {r : TableRun K cfg hash fl} {ks : KeySpec K} {t : T} {k : K} {i j : ℕ} {res : Option Ptr}

/-- What a lookup by key returns it has met and accepted; with nothing returned there was no target. -/
theorem Looking.returned (hl : Lawful r ks.allow (KeysOk ks))
    (hk : Looking r t (ks.hashOf k) (ks.finds k) i j)
    (hret : ((r.state j).reader t).find = some (.ret res)) (Tgt : Ptr → Prop)
    (hT : ∀ q, Tgt q → ∀ m, i ≤ m → m ≤ j →
      (r.state m).heap.Linked q ∧ ks.finds k (r.state m).heap q = true) :
    (∀ q, res = some q → Met r i j q ∧ Accepted r (ks.finds k) i j q) ∧ (res = none → ∀ q, ¬ Tgt q) := by
  have hfollows : ∃ g pos, Follows r ks.allow (KeysOk ks) Tgt t (ks.hashOf k) (ks.finds k) i j g pos := by
    refine hk.follows hl ?_
    intro m h1 h2 g hr hkeys q hq
    obtain ⟨hlinked, hfinds⟩ := hT q hq m h1 h2
    have hqg := hr.linked_heap.mp hlinked
    exact ⟨hqg, (hkeys.hash q hqg).trans (ks.hash_eq _ _ hfinds), hfinds⟩
  obtain ⟨g, pos, hf⟩ := hfollows
  obtain rfl : pos = .done res := Pos.eq_done (Option.some.inj (hf.find.symm.trans hret))
  exact hf.searching.returns

/-- If a node with the key is linked at every instant, it is the same node at all of them. -/
theorem Lawful.key_stays (hl : Lawful r ks.allow (KeysOk ks)) (hij : i ≤ j) (hj : j ≤ r.len)
    (hall : ∀ m, i ≤ m → m ≤ j → ∃ q, (r.state m).heap.Linked q ∧ ks.finds k (r.state m).heap q = true) :
    ∃ q, ∀ m, i ≤ m → m ≤ j → (r.state m).heap.Linked q ∧ ks.finds k (r.state m).heap q = true := by
  obtain ⟨q, hq⟩ := hall i le_rfl hij
  refine ⟨q, fun m him => ?_⟩
  induction m, him using Nat.le_induction with
  | base => exact fun _ => hq
  | succ m him ih =>
    intro hmj
    obtain ⟨hlinked, hfinds⟩ := ih (by omega)
    obtain ⟨g, hinv, hok⟩ := hl.exists_inv m (by omega)
    obtain ⟨g', hinv', -, hmove⟩ := hl.step (by omega) hinv hok
    have hkey : ∀ p, g.Linked p → (r.state (m + 1)).heap.key p = (r.state m).heap.key p := fun p hp =>
      hmove.key (hinv.rep.seen_of_linked hp)
    have hq' := hinv.rep.linked_heap.mp hlinked
    have hfinds' : ks.finds k (r.state (m + 1)).heap q = true := by
      rw [KeySpec.finds, hkey q hq']
      exact hfinds
    rcases hmove.one_way hinv with hup | hdown
    · exact ⟨hinv'.rep.linked_heap.mpr (hup q hq'), hfinds'⟩
    · -- the node that has the key afterwards had it before, with `q`
      obtain ⟨p, hp, hpk⟩ := hall (m + 1) (by omega) hmj
      have hp' := hdown p (hinv'.rep.linked_heap.mp hp)
      rw [KeySpec.finds, hkey p hp'] at hpk
      obtain rfl := hok.inj p q hp' hq' (ks.equivalence.trans hpk (ks.equivalence.symm hfinds))
      exact ⟨hp, hfinds'⟩

/-- **A lookup answers as the set does**, at some instant of it. -/
theorem Looking.answer (hl : Lawful r ks.allow (KeysOk ks)) {R : ℕ → Finset Ptr}
    (hR : ∀ m ≤ r.len, ∀ p, p ∈ R m ↔ (r.state m).heap.Linked p)
    (hk : Looking r t (ks.hashOf k) (ks.finds k) i j)
    (hret : ((r.state j).reader t).find = some (.ret res)) :
    ∃ m, i ≤ m ∧ m ≤ j ∧ Lookup ks (r.state m).heap.key (R m) k res := by
  have hlen := hk.len
  cases res with
  | some p =>
    obtain ⟨hmet, -⟩ := hk.returned hl hret (fun _ => False) fun q hq => absurd hq id
    obtain ⟨⟨m, h1, h2, hlinked, hkey⟩, m', -, -, hfinds, hkey'⟩ := hmet p rfl
    obtain ⟨g, hinv, hok⟩ := hl.exists_inv m (by omega)
    have hpk : ks.same ((r.state m).heap.key p) k = true := by
      rw [hkey, ← hkey']
      exact hfinds
    refine ⟨m, h1, h2, ?_⟩
    ext q
    rw [Finset.mem_filter, Finset.mem_singleton, hR m (by omega)]
    constructor
    · rintro ⟨hq, hqk⟩
      exact hok.inj q p (hinv.rep.linked_heap.mp hq) (hinv.rep.linked_heap.mp hlinked)
        (ks.equivalence.trans hqk (ks.equivalence.symm hpk))
    · rintro rfl
      exact ⟨hlinked, hpk⟩
  | none =>
    by_contra hno
    -- at every instant a node has the key, so one node has it throughout, and the lookup cannot miss that one
    have hall : ∀ m, i ≤ m → m ≤ j →
        ∃ q, (r.state m).heap.Linked q ∧ ks.finds k (r.state m).heap q = true := by
      intro m h1 h2
      by_contra hnone
      refine hno ⟨m, h1, h2, Finset.filter_eq_empty_iff.mpr ?_⟩
      exact fun q hq hqk => hnone ⟨q, (hR m (by omega) q).mp hq, hqk⟩
    obtain ⟨q, hq⟩ := hl.key_stays hk.le hlen hall
    obtain ⟨-, hmiss⟩ := hk.returned hl hret (· = q) fun p hp => hp ▸ hq
    exact hmiss rfl q rfl

end Lookups

variable [Fintype T] [DecidableEq T] {cfg : ZoneCfg} {hash : T → ℕ} {fl : FloatOps φ}

/-- **The table is linearizable.**  In every schedule of readers and one writer whose calls go by key the linked
nodes are a set `R m` in every state, such that (a) a completed call of the writer switches the set at one
instant, with the answer of the reference; (b) between two calls the set stays; (c) a lookup returns the answer
of the set at some instant of the lookup, also when it finds nothing. -/
theorem table_linearizable (ks : KeySpec K) (r : TableRun K cfg hash fl)
    (hc : ∀ i < r.len, (r.state i).Contract (r.act i)) (hkeys : KeyedCalls ks r) :
    ∃ R : ℕ → Finset Ptr, R 0 = ∅ ∧
      (∀ m ≤ r.len, ∀ p, p ∈ R m ↔ (r.state m).heap.Linked p) ∧
      (∀ i j op res, Completed r i j op res → (∃ m, SwitchAt R i m j) ∧
        (op = .synchronize ∧ R j = R i ∨ ∃ c : KeyOp K, op = c.op ks (r.state i).heap ∧
          RefStep ks (r.state i).heap.key (R i) c res (R j))) ∧
      (∀ m < r.len, (r.state m).writer = none → R (m + 1) = R m) ∧
      ∀ t k i j res, Looking r t (ks.hashOf k) (ks.finds k) i j →
        ((r.state j).reader t).find = some (.ret res) →
        ∃ m, i ≤ m ∧ m ≤ j ∧ Lookup ks (r.state m).heap.key (R m) k res := by
  have hl := lawful_of_keyed hc hkeys
  have hex : ∀ m, ∃ R : Finset Ptr, m ≤ r.len → ∀ p, p ∈ R ↔ (r.state m).heap.Linked p := by
    intro m
    by_cases hm : m ≤ r.len
    · obtain ⟨g, hinv, -⟩ := hl.exists_inv m hm
      obtain ⟨R, hR⟩ := hinv.rep.linked_finite.exists_finset
      exact ⟨R, fun _ => hR⟩
    · exact ⟨∅, fun hle => absurd hle hm⟩
  choose R hR using hex
  refine ⟨R, ?_, hR, ?_, ?_, fun t k i j res hk hret => hk.answer hl hR hret⟩
  · have hinit : ∃ g, Inv cfg hash fl ks.allow (r.state 0) g ∧ ∀ p, ¬ g.Linked p := inv_init r.start
    obtain ⟨g, hinv, hempty⟩ := hinit
    refine Finset.eq_empty_of_forall_notMem ?_
    exact fun p hp => hempty p (hinv.rep.linked_heap.mp ((hR 0 (Nat.zero_le _) p).mp hp))
  · intro i j op res hd
    have hlen := hd.len
    have hij := hd.lt
    obtain ⟨g, g', hf, hok, hpost, hfree⟩ := hd.post hl
    have hview : ∀ p, p ∈ R i ↔ g.Linked p := fun p => (hR i (by omega) p).trans hf.linked_heap
    have hview' : ∀ p, p ∈ R j ↔ g'.Linked p := fun p =>
      (hR j hlen.le p).trans (hpost.flat hf).linked_heap
    rcases hkeys i (by omega) op hd.begins with rfl | ⟨c, rfl, hallow⟩
    · obtain ⟨-, -, rfl⟩ := hpost
      have hsame : R j = R i := Finset.ext fun p => by rw [hview, hview']; rfl
      exact ⟨hd.switch hl hR (q := .node 0) fun p _ => by rw [hsame], Or.inl ⟨rfl, hsame⟩⟩
    · obtain ⟨-, hstep⟩ := KeyOp.refines hf hok hfree hallow hpost hview hview'
      obtain ⟨q, hq⟩ := hstep.differs
      exact ⟨hd.switch hl hR hq, Or.inr ⟨c, rfl, hstep⟩⟩
  · intro m hm hw
    obtain ⟨g, hinv, -⟩ := hl.exists_inv m hm.le
    ext p
    rw [hR m hm.le, hR (m + 1) hm]
    exact hinv.rest_linked (hc m hm) hw (r.next m hm) p

def TableAct.isReturn : TableAct T K φ → Bool
  | .return => true
  | _ => false

/-- The insert of node 0 by the writer of `readerInExpand`. -/
theorem readerInExpand_completed :
    Completed readerInExpand 0 14 (.tryInsert 0 0 natKeys.matches) (.bool true) where
  begins := rfl
  lt := by decide
  len := by decide +kernel
  on k h1 h2 hact := by
    have hreturn : ∀ k < 14, (readerInExpand.act k).isReturn = false := by decide +kernel
    have hk := hreturn k h2
    rw [hact] at hk
    cases hk
  ends := rfl
  result := by decide +kernel

/-- The lookup of key 0 in the half expanded table answers as the set does at one of its instants. -/
theorem readerInExpand_linearized : ∃ R : ℕ → Finset Ptr, R 0 = ∅ ∧ (∃ m, SwitchAt R 0 m 14) ∧
    ∃ m, 20 ≤ m ∧ m ≤ 61 ∧ Lookup natKeys (readerInExpand.state m).heap.key (R m) 0 (some (.node 0)) := by
  obtain ⟨R, hempty, -, hcalls, -, hlookups⟩ :=
    table_linearizable natKeys readerInExpand readerInExpand_contract readerInExpand_keyed
  have hdone : ((readerInExpand.state 61).reader ()).find.bind Prog.result = some (some (.node 0)) := by
    decide +kernel
  obtain ⟨p, hp, hret⟩ := Option.bind_eq_some_iff.mp hdone
  rw [Prog.eq_ret_of_result hret] at hp
  exact ⟨R, hempty, (hcalls _ _ _ _ readerInExpand_completed).1,
    hlookups _ _ _ _ _ readerInExpand_looking hp⟩

end RcuTable
