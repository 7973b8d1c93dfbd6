import RcuTable.System.Reclaim

/-!
# System.History — the writer's calls in a schedule, as a session

`history` lists the calls of the writer that have returned, and the caller's writes between them.  Readers
leave the heap alone, and what a call returns does not depend on when its steps are taken: in every schedule
the history is that of a session, in which one thread has the table for itself (`run_is_session`).
-/

namespace RcuTable

open Atomic Trans

variable {T K φ : Type}

/-- What the action adds to the history: the return of a call, or the caller's writes to a node. -/
def TableSys.event (s : TableSys T K φ) : TableAct T K φ → Option (Event K φ)
  | .return => match s.writer with
    | some (op, .ret res) => some (.call op res)
    | _ => none
  | .prepare n x k => some (.prepare n x k)
  | _ => none

/-- What has happened on the writer's side before state `i`. -/
def history [DecidableEq T] {cfg : ZoneCfg} {hash : T → ℕ} {fl : FloatOps φ} (r : TableRun K cfg hash fl) :
    ℕ → List (Event K φ)
  | 0 => []
  | i + 1 => history r i ++ ((r.state i).event (r.act i)).toList

namespace Session

variable {fl : FloatOps φ} {conf : RTableCoreConfig φ}

/-- The events of a session, in order. -/
def events (S : Session (K := K) fl conf) : List (Event K φ) := (List.range S.len).map S.event

/-- The session has come to the heap `h`; or else it has come to where a call of nodes that were not linked
began, and what is left of the call returns from `h` what the whole call returns from there. -/
def Reaches (S : Session (K := K) fl conf) (h : Heap K φ) : Option (Op K φ × Code K φ Res) → Prop
  | none => S.last = h
  | some (op, p) => (∀ q, op.own q → ¬ S.last.Linked q) ∧
    ∃ res h', (op.code fl).Returns exec S.last res h' ∧ p.Returns exec h res h'

variable {S : Session (K := K) fl conf}

theorem events_snoc {e : Event K φ} {h' : Heap K φ} {hs : SessionStep fl S.last e h'} :
    (S.snoc e h' hs).events = S.events ++ [e] := by
  have hevent : (S.snoc e h' hs).event = Function.update S.event S.len e := rfl
  have hlen : (S.snoc e h' hs).len = S.len + 1 := rfl
  rw [events, events, hlen, hevent, List.range_succ, List.map_append, List.map_singleton,
    Function.update_self]
  congr 1
  refine List.map_congr_left ?_
  intro i hi
  exact Function.update_of_ne (List.mem_range.mp hi).ne _ _

theorem last_snoc {e : Event K φ} {h' : Heap K φ} {hs : SessionStep fl S.last e h'} :
    (S.snoc e h' hs).last = h' := Function.update_self _ _ _

end Session

/-! ### Steps -/

section Steps

variable {α : Type} {p p' : Code K φ α} {h : Heap K φ}

/-- `rcuSynchronize` changes nothing in the table. -/
theorem step_of_afterSynchronize (hp : afterSynchronize p = some p') : p.step exec h = some (p', h) := by
  cases p with
  | ret | iter => cases hp
  | act a k =>
    cases a with
    | rcuSynchronize =>
      obtain rfl := Option.some.inj hp
      rfl
    | _ => cases hp

/-- A lookup changes nothing in the table. -/
theorem Reading.Pointed.step_heap {l : Reading K φ} {c c' : Code K φ (Option Ptr)} {h' : Heap K φ}
    (hl : l.Pointed) (hc : l.find = some c) (hs : c.step exec h = some (c', h')) : h' = h := by
  obtain ⟨x, f, pos, rfl, -⟩ := hl c hc
  rw [Pos.step] at hs
  obtain ⟨pos', -, heq⟩ := Option.map_eq_some_iff.mp hs
  exact (Prod.mk.inj heq).2.symm

variable [DecidableEq T] {cfg : ZoneCfg} {hash : T → ℕ} {fl : FloatOps φ} {conf : RTableCoreConfig φ}
  {S : Session (K := K) fl conf} {s s' : TableSys T K φ} {a : TableAct T K φ}

theorem TableSys.call_begins {op : Op K φ} (hs : s.step cfg hash fl (.call op) = some s') :
    s.writer = none ∧ s'.writer = some (op, op.code fl) ∧ s'.heap = s.heap := by
  cases TableSys.step_cases hs with
  | call hw => exact ⟨hw, rfl, rfl⟩

/-- A call that does not return in this step goes on to return the same. -/
theorem TableSys.call_step {op : Op K φ} {p : Code K φ Res} (hp : ∀ t, (s.reader t).Pointed)
    (hw : s.writer = some (op, p)) (ha : a ≠ .return) (hs : s.step cfg hash fl a = some s') :
    ∃ p', s'.writer = some (op, p') ∧
      ∀ res h', p.Returns exec s.heap res h' ↔ p'.Returns exec s'.heap res h' := by
  cases TableSys.step_cases hs with
  | lock | enter | unlock | begin | finish | wait => exact ⟨p, hw, fun _ _ => Iff.rfl⟩
  | @read t _ _ _ hf hstep =>
    refine ⟨p, hw, fun _ _ => ?_⟩
    rw [(hp t).step_heap hf hstep]
    exact Iff.rfl
  | call hnone | prepare hnone => cases hnone.symm.trans hw
  | @synchronized _ _ p' hw' hafter =>
    obtain ⟨rfl, rfl⟩ := Prod.mk.inj (Option.some.inj (hw.symm.trans hw'))
    exact ⟨p', rfl, fun _ _ => Prog.returns_of_step exec (step_of_afterSynchronize hafter)⟩
  | @store _ _ p' _ hw' _ hstep =>
    obtain ⟨rfl, rfl⟩ := Prod.mk.inj (Option.some.inj (hw.symm.trans hw'))
    exact ⟨p', rfl, fun _ _ => Prog.returns_of_step exec hstep⟩
  | «return» => exact absurd rfl ha

/-- Between two calls the heap changes by the caller's writes only. -/
theorem TableSys.rest_step (hp : ∀ t, (s.reader t).Pointed) (hw : s.writer = none)
    (hs : s.step cfg hash fl a = some s') : s'.heap = s.heap ∧ (s.event a).toList = [] ∧
      (s'.writer = none ∨ ∃ op, a = .call op ∧ s'.writer = some (op, op.code fl)) ∨
    ∃ n x k, a = .prepare n x k ∧ s'.heap = s.heap.prepare n x k ∧ s'.writer = none := by
  cases TableSys.step_cases hs with
  | lock | enter | unlock | begin | finish => exact Or.inl ⟨rfl, rfl, Or.inl hw⟩
  | @read t _ _ _ hf hstep => exact Or.inl ⟨(hp t).step_heap hf hstep, rfl, Or.inl hw⟩
  | @call op => exact Or.inl ⟨rfl, rfl, Or.inr ⟨op, rfl, rfl⟩⟩
  | wait hw' | synchronized hw' | store hw' | «return» hw' => cases hw.symm.trans hw'
  | @prepare n x k => exact Or.inr ⟨n, x, k, rfl, rfl, hw⟩

/-- **One action**: the session goes on by what the action adds to the history. -/
theorem Session.Reaches.step (hS : S.Reaches s.heap s.writer) (hp : ∀ t, (s.reader t).Pointed)
    (hc : s.Contract a) (hs : s.step cfg hash fl a = some s') :
    ∃ S' : Session (K := K) fl conf, S'.events = S.events ++ (s.event a).toList ∧
      S'.Reaches s'.heap s'.writer := by
  cases hw : s.writer with
  | none =>
    rw [hw] at hS
    have hlast : S.last = s.heap := hS
    rcases TableSys.rest_step hp hw hs with ⟨hheap, hevent, hw' | ⟨op, rfl, hw'⟩⟩ | ⟨n, x, k, rfl, hheap, hw'⟩
    · refine ⟨S, by rw [hevent, List.append_nil], ?_⟩
      rw [hw', hheap]
      exact hlast
    · obtain ⟨g, hf⟩ := S.flat S.len le_rfl
      have hfree : ∀ q, op.own q → ¬ S.last.Linked q := fun q hq => hlast ▸ (hc q hq).1
      obtain ⟨⟨res, h', hret⟩, -⟩ := Op.total fl hf hfree
      refine ⟨S, by rw [hevent, List.append_nil], ?_⟩
      rw [hw', hheap, ← hlast]
      exact ⟨hfree, res, h', hret, hret⟩
    · have hfree : ¬ S.last.Linked (.node n) := hlast ▸ hc.1
      refine ⟨S.snoc _ _ (.prepare (x := x) (k := k) hfree), Session.events_snoc, ?_⟩
      rw [hw', hheap, ← hlast]
      exact Session.last_snoc
  | some w =>
    obtain ⟨op, p⟩ := w
    rw [hw] at hS
    obtain ⟨hown, res, h', hcall, hleft⟩ := hS
    by_cases ha : a = .return
    · subst ha
      cases TableSys.step_cases hs with
      | «return» hw' =>
        obtain ⟨rfl, rfl⟩ := Prod.mk.inj (Option.some.inj (hw.symm.trans hw'))
        obtain ⟨rfl, rfl⟩ := (Prog.returns_ret exec).mp hleft
        refine ⟨S.snoc _ _ (.call hown hcall), ?_, Session.last_snoc⟩
        rw [Session.events_snoc]
        simp [TableSys.event, hw]
    · obtain ⟨p', hw', hiff⟩ := TableSys.call_step hp hw ha hs
      refine ⟨S, ?_, ?_⟩
      · cases a with
        | «return» => exact absurd rfl ha
        | prepare n x k =>
          cases TableSys.step_cases hs with
          | prepare hnone => cases hnone.symm.trans hw
        | _ => exact (List.append_nil _).symm
      · rw [hw']
        exact ⟨hown, res, h', hcall, (hiff res h').mp hleft⟩

end Steps

/-! ### Runs -/

variable [Fintype T] [DecidableEq T] {cfg : ZoneCfg} {hash : T → ℕ} {fl : FloatOps φ}

/-- The session of a run, up to state `i`. -/
theorem session_of_run (r : TableRun K cfg hash fl) (hc : ∀ i < r.len, (r.state i).Contract (r.act i)) :
    ∃ conf : RTableCoreConfig φ, ∀ i ≤ r.len, ∃ S : Session (K := K) fl conf,
      S.events = history r i ∧ S.Reaches (r.state i).heap (r.state i).writer := by
  obtain ⟨conf, h, hb, hret⟩ := r.start.table
  refine ⟨conf, ?_⟩
  intro i
  induction i with
  | zero =>
    intro _
    refine ⟨⟨0, fun _ => (r.state 0).heap, fun _ => .prepare 0 0 (h.key (.node 0)), ⟨h, hb, hret⟩,
      fun i hi => absurd hi (Nat.not_lt_zero i)⟩, rfl, ?_⟩
    rw [r.start.writer]
    rfl
  | succ i ih =>
    intro hi
    obtain ⟨S, hevents, hS⟩ := ih (by omega)
    obtain ⟨g, hinv, -⟩ := (lawful_of_contract hc).exists_inv i (by omega)
    obtain ⟨S', hevents', hS'⟩ := hS.step hinv.pointed (hc i hi) (r.next i hi)
    exact ⟨S', by rw [hevents', hevents]; rfl, hS'⟩

/-- **Readers are invisible to the writer.**  In every schedule of readers and one writer the calls that have
returned, with their results, and the caller's writes between them are those of a session: while the writer
rests, the table is the one of the session, and a call under way is going to return what it returns when the
writer has the table for itself. -/
theorem run_is_session (r : TableRun K cfg hash fl) (hc : ∀ i < r.len, (r.state i).Contract (r.act i)) :
    ∃ conf : RTableCoreConfig φ, ∀ i ≤ r.len, ∃ S : Session (K := K) fl conf, S.events = history r i ∧
      ((r.state i).writer = none → S.last = (r.state i).heap) ∧
      ∀ op p, (r.state i).writer = some (op, p) → ∃ res h', (op.code fl).Returns exec S.last res h' ∧
        p.Returns exec (r.state i).heap res h' := by
  obtain ⟨conf, hrun⟩ := session_of_run r hc
  refine ⟨conf, ?_⟩
  intro i hi
  obtain ⟨S, hevents, hS⟩ := hrun i hi
  refine ⟨S, hevents, ?_, ?_⟩
  · intro hw
    rw [hw] at hS
    exact hS
  · intro op p hw
    rw [hw] at hS
    exact hS.2

/-- The expand of `bothGivenBack` has let a reader in and out; the detach after it returns node 0, as it does on
the table of the session. -/
theorem bothGivenBack_session : ∃ (conf : RTableCoreConfig ℚ) (S : Session (K := ℕ) ratOps conf), S.len = 2 ∧
    ∃ (op : Op ℕ ℚ) (h' : Heap ℕ ℚ), (op.code ratOps).Returns exec S.last (.node (some (.node 0))) h' := by
  obtain ⟨conf, hrun⟩ := run_is_session bothGivenBack bothGivenBack_contract
  obtain ⟨S, hevents, -, hcall⟩ := hrun 134 (by decide +kernel)
  have hlen : (history bothGivenBack 134).length = 2 := by decide +kernel
  have hdone : ((bothGivenBack.state 134).writer.bind fun w => w.2.result) = some (.node (some (.node 0))) := by
    decide +kernel
  obtain ⟨⟨op, p⟩, hw, hp⟩ := Option.bind_eq_some_iff.mp hdone
  obtain rfl := Prog.eq_ret_of_result hp
  obtain ⟨res, h', hret, hleft⟩ := hcall op _ hw
  obtain ⟨rfl, -⟩ := (Prog.returns_ret exec).mp hleft
  refine ⟨conf, S, ?_, op, h', hret⟩
  rw [← hevents] at hlen
  simpa [Session.events] using hlen

end RcuTable
