import RcuTable.System.Run
import RcuTable.Table.Keyed
import Mathlib.Data.Set.Finite.Lattice

/-!
# System.Lookup — what a lookup meets and what it returns, while the writer works

Whatever the writer does meanwhile, a lookup asks no node twice, and only nodes that were linked at some instant
of it (`find_asks_once`).  When the predicates come from one equivalence of keys, it returns the node that it is
after if that one stays linked, and never one that was not linked meanwhile (`find_linearizable`).
-/

namespace RcuTable

open Atomic Chain Trans

variable {T K φ : Type} [Fintype T] [DecidableEq T] {cfg : ZoneCfg} {hash : T → ℕ} {fl : FloatOps φ}
  {r : TableRun K cfg hash fl} {t : T} {x : ℕ} {f : Heap K φ → Ptr → Bool} {i j : ℕ}

/-- The nodes that were linked at some instant between two states. -/
def linkedDuring (r : TableRun K cfg hash fl) (i j : ℕ) : Set Ptr :=
  {p | ∃ m, i ≤ m ∧ m ≤ j ∧ (r.state m).heap.Linked p}

theorem linkedDuring_finite (hc : ∀ i < r.len, (r.state i).Contract (r.act i)) (hj : j ≤ r.len) :
    (linkedDuring r i j).Finite := by
  have hfin : ∀ m ∈ Finset.range (j + 1), {p | (r.state m).heap.Linked p}.Finite := by
    intro m hm
    have hmj := Finset.mem_range.mp hm
    obtain ⟨g, hinv, -⟩ := (lawful_of_contract hc).exists_inv m (by omega)
    exact hinv.rep.linked_finite
  refine ((Finset.range (j + 1)).finite_toSet.biUnion hfin).subset ?_
  rintro p ⟨m, -, hm, hp⟩
  exact Set.mem_biUnion (Finset.mem_range.mpr (Nat.lt_succ_of_le hm)) hp

/-! ### A lookup in the middle of an expand -/

/-- The insert of node `n`, by key. -/
def insertAct (n : ℕ) : TableAct Unit ℕ ℚ := .call (.tryInsert n n natKeys.matches)

/-- Node 0 is inserted, and a lookup of it begins.  When it has loaded the old array, the insert of node 1
doubles the one bucket and waits in its first `rcuSynchronize`, and the lookup walks the chain of both. -/
def midExpand : List (TableAct Unit ℕ ℚ) := List.flatten [
  [insertAct 0], .replicate 13 .write,
  [.return, .lock (), .enter (), .enter (), .enter (), .begin () 0 (natKeys.finds 0), .read (), .read ()],
  [insertAct 1], .replicate 32 .write, .replicate 6 (.read ())]

def readerInExpand : TableRun (T := Unit) ℕ Zone.tinyCfg (fun _ => 0) ratOps :=
  .ofActs (.setUp Unit (keyed0.heap 0)) midExpand TableSys.setUp_init (by decide +kernel)

theorem midExpand_brings : ∀ i < 61, (midExpand.getD i default).brings = none ∨
    (i = 0 ∧ (midExpand.getD i default).brings = some 0) ∨
    (i = 22 ∧ (midExpand.getD i default).brings = some 1) := by decide +kernel

theorem readerInExpand_contract :
    ∀ i < readerInExpand.len, (readerInExpand.state i).Contract (readerInExpand.act i) := by
  intro i hi
  refine TableSys.contract_of_brings ?_
  intro n hn
  rcases midExpand_brings i hi with h | ⟨rfl, h⟩ | ⟨rfl, h⟩ <;> cases h.symm.trans hn
  · have hn : ((readerInExpand.state 0).heap.nodes 4).any (fun l => !l.contains (.node 0)) = true := by
      decide +kernel
    exact TableSys.free_of_nodes hn (by decide +kernel)
  · have hn : ((readerInExpand.state 22).heap.nodes 4).any (fun l => !l.contains (.node 1)) = true := by
      decide +kernel
    exact TableSys.free_of_nodes hn (by decide +kernel)

theorem readerInExpand_looking : Looking readerInExpand () 0 (natKeys.finds 0) 20 61 where
  begins := ⟨19, by decide, rfl, fun k h1 h2 => by omega⟩
  le := by decide
  len := le_rfl
  on k _ hk hact := by
    have hmem : readerInExpand.act k ∈ midExpand := Run.ofActs_act_mem hk
    rw [hact] at hmem
    simp [midExpand, insertAct] at hmem

/-- **A lookup cannot loop.**  In every schedule of readers and one writer it asks no node twice and only nodes
that were linked at some instant of it, so it has taken at most three steps for each of these and four more; and
until it has returned its next step is there to be taken. -/
theorem find_asks_once (r : TableRun K cfg hash fl) (hc : ∀ i < r.len, (r.state i).Contract (r.act i))
    (hk : Looking r t x f i j) :
    ((r.state j).reader t).asked.Nodup ∧
      (∀ p ∈ ((r.state j).reader t).asked, p ∈ linkedDuring r i j) ∧
      (linkedDuring r i j).Finite ∧
      ((r.state j).reader t).asked.length ≤ (linkedDuring r i j).ncard ∧
      nrReads r t i j ≤ 3 * ((r.state j).reader t).asked.length + 4 ∧
      ((∃ p, ((r.state j).reader t).find = some (.ret p)) ∨
        ((r.state j).step cfg hash fl (.read t)).isSome) := by
  obtain ⟨g, pos, hf⟩ : ∃ g pos, Follows r _ _ (fun _ => False) t x f i j g pos :=
    hk.follows (lawful_of_contract hc) fun _ _ _ _ _ _ _ hq => absurd hq id
  obtain ⟨hnd, hmet⟩ := hf.searching.asks_once
  have hsub : ∀ p ∈ ((r.state j).reader t).asked, p ∈ linkedDuring r i j := by
    intro p hp
    obtain ⟨m, h1, h2, h3, -⟩ := hmet p hp
    exact ⟨m, h1, h2, h3⟩
  have hfin := linkedDuring_finite (i := i) hc hk.len
  refine ⟨hnd, hsub, hfin, ?_, ?_, ?_⟩
  · rw [← List.toFinset_card_of_nodup hnd, ← Set.ncard_coe_finset]
    exact Set.ncard_le_ncard (fun p hp => hsub p (by simpa using hp)) hfin
  · refine hf.reads.trans (Nat.add_le_add_left ?_ _)
    cases pos <;> simp [Pos.steps]
  · rcases hf.searching.progress (f := f) hf.inv.rep with ⟨p, rfl⟩ | hnext
    · exact Or.inl ⟨p, hf.find⟩
    · refine Or.inr ?_
      simp only [TableSys.step, hf.find, Pos.step, Option.isSome_map]
      exact hnext

/-- The lookup asks node 1, then node 0. -/
theorem readerInExpand_asks_once :
    ((readerInExpand.state 61).reader ()).asked = [.node 1, .node 0] ∧
      2 ≤ (linkedDuring readerInExpand 20 61).ncard ∧ nrReads readerInExpand () 20 61 ≤ 10 := by
  have hasked : ((readerInExpand.state 61).reader ()).asked = [.node 1, .node 0] := by decide +kernel
  obtain ⟨-, -, -, hcard, hreads, -⟩ :=
    find_asks_once readerInExpand readerInExpand_contract readerInExpand_looking
  rw [hasked] at hcard hreads
  exact ⟨hasked, hcard, hreads⟩

/-! ### Lookups by key -/

/-- What a keyed insert may link: a node with the hash of its key, and a key that no linked node has. -/
def KeySpec.allow (ks : KeySpec K) (h : Heap K φ) (g : View) (p : Ptr) : Prop :=
  h.hash p = ks.hashOf (h.key p) ∧ ∀ q, g.Linked q → ks.same (h.key q) (h.key p) = false

/-- Every call of the writer goes by key, or is a bare `rcuSynchronize`. -/
def KeyedCalls (ks : KeySpec K) (r : TableRun K cfg hash fl) : Prop :=
  ∀ i < r.len, ∀ op, r.act i = .call op → op = .synchronize ∨
    ∃ c : KeyOp K, op = c.op ks (r.state i).heap ∧ c.Allowed ks (r.state i).heap

variable {ks : KeySpec K} {h h' : Heap K φ} {g g' : View}

theorem KeysOk.link (hk : KeysOk ks h g) {n j : ℕ} (hj : j < g.n)
    (hallow : ks.allow h g (.node n)) :
    KeysOk ks (h.setNext (.head g.info j) (some (.node n))) (g.link j (.node n)) where
  hash p hp := by
    rcases (View.link_linked hj).mp hp with hp | rfl
    · exact hk.hash p hp
    · exact hallow.1
  inj p q hp hq hpq :=
    hk.inj_insert hallow.2 p q ((View.link_linked hj).mp hp) ((View.link_linked hj).mp hq) hpq

/-- Keys stay different, and hashes right, for nodes that were linked before. -/
theorem KeysOk.mono (hk : KeysOk ks h g) (hl : ∀ p, g'.Linked p → g.Linked p)
    (hhash : ∀ p, g.Linked p → h'.hash p = h.hash p) (hkey : ∀ p, g.Linked p → h'.key p = h.key p) :
    KeysOk ks h' g' where
  hash p hp := by
    rw [hhash p (hl p hp), hkey p (hl p hp)]
    exact hk.hash p (hl p hp)
  inj p q hp hq := by
    rw [hkey p (hl p hp), hkey q (hl q hq)]
    exact hk.inj p q (hl p hp) (hl q hq)

theorem keysOk_stable : Stable (K := K) (φ := φ) ks.allow (KeysOk ks) where
  empty h g hno := ⟨fun p hp => absurd hp (hno p), fun p q hp => absurd hp (hno p)⟩
  synced h g hk := ⟨hk.hash, hk.inj⟩
  change h g h' g' hr hc hk := by
    have hhash : ∀ p, g.Linked p → h'.hash p = h.hash p := fun p hp => hc.hash hp hr
    have hkey : ∀ p, g.Linked p → h'.key p = h.key p := fun p hp => hc.key (hr.seen_of_linked hp)
    cases hc with
    | guar hg =>
      cases hg with
      | quiet => exact hk.mono (fun _ => id) hhash hkey
      | link _ hallow _ hj => exact hk.link (hj ▸ hr.slot_lt _) hallow
      | swing hs => exact hk.mono (fun _ => hs.linked_of) hhash hkey
      | publish hp => exact hk.mono (fun p => (hp.linked p).mp) hhash hkey
    | prepare => exact hk.mono (fun _ => id) hhash hkey

/-- A keyed call asks for no more than it may. -/
theorem KeyOp.pre (hf : Flat h g) (hk : KeysOk ks h g) {c : KeyOp K}
    (hfree : ∀ p, (c.op ks h).own p → ¬ h.Linked p) (hallow : c.Allowed ks h) :
    (c.op ks h).Pre ks.allow h g := by
  have hown : ∀ n, (c.op ks h).own (.node n) → ¬ g.Linked (.node n) := fun n hn hl =>
    hfree _ hn (hf.linked_heap.mpr hl)
  cases c with
  | tryInsert n | tryInsertNoExpand n =>
    refine ⟨hown n rfl, fun h' hkey hhash hno => ⟨?_, ?_⟩⟩
    · rw [hhash, hkey]
      exact Function.update_self _ _ _
    · intro q hq
      rw [hkey]
      by_contra hc
      have hqn : ks.same (h.key q) (h.key (.node n)) = true := by simpa using hc
      exact hc (hno q (hk.mem_slot hf hq hqn))
  | insertNoExpand n =>
    refine ⟨hown n rfl, fun h' hkey hhash => ⟨?_, ?_⟩⟩
    · rw [hhash, hkey]
      exact hallow.1
    · intro q hq
      rw [hkey]
      exact hallow.2 q (hf.linked_heap.mpr hq)
  | _ => trivial

omit [Fintype T] in
theorem lawful_of_keyed (hc : ∀ i < r.len, (r.state i).Contract (r.act i)) (hkeys : KeyedCalls ks r) :
    Lawful r ks.allow (KeysOk ks) where
  contract := hc
  kept := keysOk_stable
  pre i hi op hop g hf hk := by
    obtain rfl | ⟨c, rfl, hallow⟩ := hkeys i hi op hop
    · trivial
    have hfree := hc i hi
    rw [hop] at hfree
    exact c.pre hf hk (fun p hp => (hfree p hp).1) hallow

/-- **Linearizable lookup.**  In every schedule of readers and one writer whose calls go by key: (a) a node with
the key of a lookup that stays linked from the lookup's first step to its last is what it returns; (b) what it
returns was linked at some instant of it. -/
theorem find_linearizable (ks : KeySpec K) (r : TableRun K cfg hash fl)
    (hc : ∀ i < r.len, (r.state i).Contract (r.act i)) (hkeys : KeyedCalls ks r) {k : K} {res : Option Ptr}
    (hk : Looking r t (ks.hashOf k) (ks.finds k) i j)
    (hret : ((r.state j).reader t).find = some (.ret res)) :
    (∀ p, (∀ m, i ≤ m → m ≤ j → (r.state m).heap.Linked p ∧ ks.finds k (r.state m).heap p = true) →
        res = some p) ∧
      ∀ p, res = some p → ∃ m, i ≤ m ∧ m ≤ j ∧ (r.state m).heap.Linked p := by
  have hl := lawful_of_keyed hc hkeys
  -- what the lookup returns, it has met and accepted
  have hreturn : ∀ {Tgt : Ptr → Prop}, (∃ g pos, Follows r ks.allow (KeysOk ks) Tgt t (ks.hashOf k)
      (ks.finds k) i j g pos) →
      (∀ q, res = some q → Met r i j q ∧ Accepted r (ks.finds k) i j q) ∧ (res = none → ∀ q, ¬ Tgt q) := by
    rintro Tgt ⟨g, pos, hf⟩
    obtain rfl : pos = .done res := Pos.eq_done (Option.some.inj (hf.find.symm.trans hret))
    obtain ⟨hr, hnone⟩ := hf.searching.returns
    exact ⟨hr, hnone⟩
  refine ⟨?_, ?_⟩
  · intro p hp
    have hfollows : ∃ g pos, Follows r ks.allow (KeysOk ks) (· = p) t (ks.hashOf k) (ks.finds k) i j g pos := by
      refine hk.follows hl ?_
      intro m h1 h2 g hr hkeys
      rintro q rfl
      obtain ⟨hlinked, hfinds⟩ := hp m h1 h2
      have hq := hr.linked_heap.mp hlinked
      exact ⟨hq, (hkeys.hash q hq).trans (ks.hash_eq _ _ hfinds), hfinds⟩
    obtain ⟨hmet, hnone⟩ := hreturn hfollows
    cases hres : res with
    | none => exact absurd rfl (hnone hres p)
    | some q =>
      -- both nodes were linked at one instant, with one key
      obtain ⟨⟨m, h1, h2, hlinked, hkey⟩, m', -, -, hfinds, hkey'⟩ := hmet q hres
      obtain ⟨g, hinv, hok⟩ := hl.exists_inv m (h2.trans hk.len)
      obtain ⟨hlinkedp, hfindsp⟩ := hp m h1 h2
      have hsame : ks.same ((r.state m).heap.key q) ((r.state m).heap.key p) = true := by
        rw [hkey, ← hkey']
        exact ks.equivalence.trans hfinds (ks.equivalence.symm hfindsp)
      rw [hok.inj q p (hinv.rep.linked_heap.mp hlinked) (hinv.rep.linked_heap.mp hlinkedp) hsame]
  · intro p hres
    have hfollows : ∃ g pos, Follows r ks.allow (KeysOk ks) (fun _ => False) t (ks.hashOf k) (ks.finds k) i j
        g pos := hk.follows hl fun _ _ _ _ _ _ _ hq => absurd hq id
    obtain ⟨hmet, -⟩ := hreturn hfollows
    obtain ⟨⟨m, h1, h2, h3, -⟩, -⟩ := hmet p hres
    exact ⟨m, h1, h2, h3⟩

def TableAct.isCall : TableAct T K φ → Bool
  | .call _ => true
  | _ => false

theorem midExpand_calls : ∀ i < 61, (midExpand.getD i default).isCall = true → i = 0 ∨ i = 22 := by
  decide +kernel

theorem readerInExpand_keyed : KeyedCalls natKeys readerInExpand := by
  intro i hi op hop
  have hwhen : i = 0 ∨ i = 22 := by
    refine midExpand_calls i hi ?_
    rw [show midExpand.getD i default = .call op from hop]
    rfl
  rcases hwhen with rfl | rfl
  · have hkey : natKeys.hashOf ((readerInExpand.state 0).heap.key (.node 0)) = 0 := by decide +kernel
    obtain rfl : Op.tryInsert 0 0 natKeys.matches = op := TableAct.call.inj hop
    exact Or.inr ⟨.tryInsert 0, by rw [KeyOp.op, hkey], trivial⟩
  · have hkey : natKeys.hashOf ((readerInExpand.state 22).heap.key (.node 1)) = 1 := by decide +kernel
    obtain rfl : Op.tryInsert 1 1 natKeys.matches = op := TableAct.call.inj hop
    exact Or.inr ⟨.tryInsert 1, by rw [KeyOp.op, hkey], trivial⟩

/-- Node 0 stays linked through the half expand. -/
theorem readerInExpand_stays : ∀ m < 62, 20 ≤ m →
    ((readerInExpand.state m).heap.nodes 4).any (fun l => l.contains (.node 0)) = true ∧
      natKeys.finds 0 (readerInExpand.state m).heap (.node 0) = true := by
  decide +kernel

/-- The lookup of key 0 returns node 0. -/
theorem readerInExpand_linearizable :
    ∃ res, ((readerInExpand.state 61).reader ()).find = some (.ret res) ∧ res = some (.node 0) ∧
      ∃ m, 20 ≤ m ∧ m ≤ 61 ∧ (readerInExpand.state m).heap.Linked (.node 0) := by
  have hdone : (((readerInExpand.state 61).reader ()).find.bind Prog.result).isSome = true := by
    decide +kernel
  obtain ⟨res, hres⟩ := Option.isSome_iff_exists.mp hdone
  obtain ⟨p, hp, hret⟩ := Option.bind_eq_some_iff.mp hres
  rw [Prog.eq_ret_of_result hret] at hp
  obtain ⟨hstays, hlinked⟩ := find_linearizable natKeys readerInExpand readerInExpand_contract
    readerInExpand_keyed readerInExpand_looking hp
  have hnode : res = some (.node 0) := by
    refine hstays (.node 0) ?_
    intro m h1 h2
    obtain ⟨hnodes, hfinds⟩ := readerInExpand_stays m (by omega) h1
    obtain ⟨l, hl, hmem⟩ := Option.any_eq_true .. |>.mp hnodes
    exact ⟨(Heap.linked_iff_of_nodes hl).mpr (List.contains_iff_mem.mp hmem), hfinds⟩
  exact ⟨res, hp, hnode, hlinked _ hnode⟩

end RcuTable
