import RcuTable.Client.StressInvariant
import RcuTable.Lib.Seen

/-!
# Client.StressRun — the stress tests in every schedule

A schedule of a test is a schedule of the table with steps of the threads beside it, so what a reader finds
follows from what the table does for its readers (`found`).  `run_ok`: of a test that is right as a sequential
program no thread throws or is stuck in any schedule.
-/

namespace RcuTable

open Atomic Trans

namespace Stress

/-! ### Runs -/

section Runs

variable {T φ : Type} [DecidableEq T] [Fintype T] {test : Test} {Q : Plan → Plan → Prop} {myHash : ℕ → ℕ}
  {cfg : ZoneCfg} {hash : T → ℕ} {fl : FloatOps φ} {s s' : State T φ} {a : StressAct T} {b : TableAct T Val φ}

/-- A step of the table. -/
theorem step_shown (hs : s.step test myHash cfg hash fl a = some s') (hb : s.tableAct myHash a = some b) :
    s.rTable.step cfg hash fl b = some s'.rTable ∧ s'.reader = s.nextReader test a ∧ s'.started = s.started := by
  rcases step_cases hs with ⟨b', rTable, hb', hstep, rfl⟩ | ⟨hnone, -⟩
  · obtain rfl := Option.some.inj (hb.symm.trans hb')
    exact ⟨by rw [after_rTable]; exact hstep, after_reader, after_started⟩
  · cases hb.symm.trans hnone

/-- A step beside the table. -/
theorem step_hidden (hs : s.step test myHash cfg hash fl a = some s') (hb : s.tableAct myHash a = none) :
    s'.rTable = s.rTable ∧ (s.started = true → s'.started = true) ∧
      ∀ t, s'.reader t = s.reader t ∨ s'.reader t = .done ∨ s'.reader t = State.nextLook test 0 := by
  rcases step_cases hs with ⟨b', rTable, hb', -, -⟩ | ⟨-, hbeside⟩
  · cases hb.symm.trans hb'
  cases hbeside with
  | @loop t hrun hr =>
    refine ⟨rfl, id, fun t' => ?_⟩
    by_cases ht : t' = t
    · subst ht
      dsimp only
      rw [Function.update_self]
      split
      · exact .inr (.inl rfl)
      · exact .inr (.inr rfl)
    · exact .inl (Function.update_of_ne ht ..)
  | start => exact ⟨rfl, fun _ => rfl, fun _ => .inl rfl⟩
  | finish | join | null => exact ⟨rfl, id, fun _ => .inl rfl⟩

/-- A schedule of a test. -/
abbrev StressRun (T : Type) [DecidableEq T] [Fintype T] {φ : Type} (test : Test) (myHash : ℕ → ℕ) (cfg : ZoneCfg)
    (hash : T → ℕ) (fl : FloatOps φ) : Type 1 :=
  Run (S := State T φ) (State.step test myHash cfg hash fl) (State.Init test cfg)

variable (R : StressRun T test myHash cfg hash fl)

theorem inv_of_run (hr : test.Right Q) :
    ∀ m ≤ R.len, Inv test (Q (R.state 0).plan) myHash cfg hash fl (R.state m) := by
  have hstart : Inv test (Q (R.state 0).plan) myHash cfg hash fl (R.state 0) :=
    inv_start R.start (hr.script _ (fun _ => id) rfl)
  intro m
  induction m with
  | zero => exact fun _ => hstart
  | succ m ih => exact fun hm => (ih (Nat.le_of_lt hm)).next (R.next m hm)

/-- What is seen of the table. -/
def seen (m : ℕ) : Option (TableAct T Val φ) := (R.state m).tableAct myHash (R.act m)

/-- The run of the table in a run of a test. -/
theorem exists_tableRun : ∃ r : TableRun Val cfg hash fl, Seen R State.rTable (seen R) R.len r :=
  R.exists_seen R.start.rTable (fun m hm hn => (step_hidden (R.next m hm) hn).1)
    (fun m hm _ hb => (step_shown (R.next m hm) hb).1) R.len le_rfl

variable {R} {r : TableRun Val cfg hash fl}

theorem lawful_of_seen (hr : test.Right Q) (hseen : Seen R State.rTable (seen R) R.len r) :
    Lawful r (valKeys myHash).allow (KeysOk (valKeys myHash)) := by
  have hasks : ∀ k < r.len, (r.state k).Contract (r.act k) ∧ ∀ op, r.act k = .call op → op = .synchronize ∨
      ∃ c : KeyOp Val, op = c.op (valKeys myHash) (r.state k).heap ∧ c.Allowed (valKeys myHash) (r.state k).heap := by
    intro k hk
    obtain ⟨i, hi, b, hb, hstate, hact⟩ := hseen.at_step hk
    rw [hstate, hact]
    exact (inv_of_run R hr i hi.le).asks (acts_of_tableAct hb)
  exact lawful_of_keyed (fun k hk => (hasks k hk).1) fun k hk op hop => (hasks k hk).2 op hop

theorem started_mono {i j : ℕ} (hij : i ≤ j) (hj : j ≤ R.len) (h : (R.state i).started = true) :
    (R.state j).started = true := by
  induction j, hij using Nat.le_induction with
  | base => exact h
  | succ j hij ih =>
    have hstep := R.next j hj
    cases hb : (R.state j).tableAct myHash (R.act j) with
    | none => exact (step_hidden hstep hb).2.1 (ih (Nat.le_of_lt hj))
    | some => exact (step_shown hstep hb).2.2.trans (ih (Nat.le_of_lt hj))

/-- A lookup that a reader has under way. -/
theorem looking (hr : test.Right Q) (hseen : Seen R State.rTable (seen R) R.len r) {m : ℕ} (hm : m ≤ R.len) {t : T}
    {k : ℕ} (hk : (R.state m).reader t = .finding k) :
    ∃ i ≤ m, Looking r t (myHash k) ((valKeys myHash).finds ⟨k, true⟩) (nrSeen (seen R) i) (nrSeen (seen R) m) ∧
      (R.state i).started = true := by
  induction m with
  | zero => cases (R.start.reader t).symm.trans hk
  | succ m ih =>
    have hlen : nrSeen (seen R) (m + 1) ≤ r.len := hseen.len ▸ nrSeen_mono hm
    have hstep := R.next m hm
    cases hb : (R.state m).tableAct myHash (R.act m) with
    | none =>
      obtain ⟨-, -, hreader⟩ := step_hidden hstep hb
      have hk' : (R.state m).reader t = .finding k := by
        rcases hreader t with h | h | h
        · exact h.symm.trans hk
        · cases h.symm.trans hk
        · have hcases : State.nextLook test 0 = .finding k := h.symm.trans hk
          unfold State.nextLook at hcases
          split at hcases <;> cases hcases
      obtain ⟨i, hi, hl, hstarted⟩ := ih (Nat.le_of_lt hm) hk'
      have hsame : nrSeen (seen R) (m + 1) = nrSeen (seen R) m := nrSeen_none hb
      exact ⟨i, Nat.le_succ_of_le hi, hsame ▸ hl, hstarted⟩
    | some b =>
      have hinv := inv_of_run R hr m (Nat.le_of_lt hm)
      obtain ⟨htable, hreader, hsame⟩ := step_shown hstep hb
      have hsucc : nrSeen (seen R) (m + 1) = nrSeen (seen R) m + 1 := nrSeen_some hb
      have hact : r.act (nrSeen (seen R) m) = b := hseen.act m hm b hb
      rw [hreader] at hk
      rcases finding_step (acts_of_tableAct hb) htable hk with ⟨hk', hfinish⟩ | ⟨hlock, hbegin⟩
      · obtain ⟨i, hi, hl, hstarted⟩ := ih (Nat.le_of_lt hm) hk'
        have hle : nrSeen (seen R) i ≤ nrSeen (seen R) (m + 1) := hl.le.trans (nrSeen_mono (Nat.le_succ m))
        refine ⟨i, Nat.le_succ_of_le hi, ⟨hl.begins, hle, hlen, fun j h1 h2 => ?_⟩, hstarted⟩
        rcases Nat.lt_succ_iff_lt_or_eq.mp (hsucc ▸ h2) with h2 | rfl
        · exact hl.on j h1 h2
        · rwa [hact]
      · refine ⟨m + 1, le_rfl, ⟨⟨nrSeen (seen R) m, by omega, hact.trans hbegin, fun j h1 h2 => by omega⟩, le_rfl, hlen,
          fun j h1 h2 => by omega⟩, hsame.trans (hinv.running t k (by rw [hlock]; rfl)).2⟩

/-- **What a reader finds** is the element that it looks up. -/
theorem found (hr : test.Right Q) {m : ℕ} (hm : m ≤ R.len) {t : T} {k : ℕ} (hk : (R.state m).reader t = .finding k)
    {pEntry : Option Ptr} (hret : ((R.state m).rTable.reader t).find = some (.ret pEntry)) :
    pEntry = some (.node k) := by
  obtain ⟨r, hseen⟩ := exists_tableRun R
  obtain ⟨i, hi, hl, hstarted⟩ := looking hr hseen hm hk
  have hlt : k < test.nrKept := ((inv_of_run R hr m hm).running t k (by rw [hk]; rfl)).1
  have hfinds : ∀ j, nrSeen (seen R) i ≤ j → j ≤ nrSeen (seen R) m → (r.state j).heap.Linked (.node k) ∧
      (valKeys myHash).finds ⟨k, true⟩ (r.state j).heap (.node k) = true := by
    intro j h1 h2
    obtain ⟨l, h3, h4, hstate⟩ := hseen.at_state hi hm h1 h2
    rw [hstate]
    obtain ⟨hlinked, hv, -⟩ := (inv_of_run R hr l (h4.trans hm)).kept (started_mono h3 (h4.trans hm) hstarted) hlt
    exact ⟨hlinked, beq_iff_eq.mpr hv⟩
  have hret' : ((r.state (nrSeen (seen R) m)).reader t).find = some (.ret pEntry) := by
    rw [hseen.state m hm]
    exact hret
  obtain ⟨hsome, hnone⟩ := Looking.returned (k := ⟨k, true⟩) (lawful_of_seen hr hseen) hl hret' (· = .node k)
    fun q hq => hq ▸ hfinds
  cases pEntry with
  | none => exact absurd rfl (hnone rfl _)
  | some q =>
    -- an element of this value was in the table at some instant, and there is one such element only
    obtain ⟨⟨j, h1, h2, hlinked, hkey⟩, j', -, -, hmatch, hkey'⟩ := hsome q rfl
    obtain ⟨g, hinv, hok⟩ := (lawful_of_seen hr hseen).exists_inv j (h2.trans hl.len)
    have hq : (valKeys myHash).finds ⟨k, true⟩ (r.state j).heap q = true := by
      show (valKeys myHash).same ((r.state j).heap.key q) _ = true
      rw [show (r.state j).heap.key q = _ from hkey.trans hkey'.symm]
      exact hmatch
    rw [hok.inj q (.node k) (hinv.rep.linked_heap.mp hlinked) (hinv.rep.linked_heap.mp (hfinds j h1 h2).1)
      ((valKeys myHash).equivalence.trans hq ((valKeys myHash).equivalence.symm (hfinds j h1 h2).2))]

/-- A reader has not thrown, and has found what it looked up. -/
def ReaderPc.Ok : ReaderPc → Prop
  | .unlock _ found => found = true
  | .broken => False
  | _ => True

theorem ok_nextLook (i : ℕ) : (State.nextLook test i).Ok := by
  unfold State.nextLook
  split <;> trivial

theorem readers_ok (hr : test.Right Q) {m : ℕ} (hm : m ≤ R.len) (t : T) : ((R.state m).reader t).Ok := by
  induction m with
  | zero =>
    rw [R.start.reader t]
    trivial
  | succ m ih =>
    have hbefore := ih (Nat.le_of_lt hm)
    have hinv := inv_of_run R hr m (Nat.le_of_lt hm)
    have hstep := R.next m hm
    cases hb : (R.state m).tableAct myHash (R.act m) with
    | none =>
      rcases (step_hidden hstep hb).2.2 t with h | h | h
      · rwa [h]
      · rw [h]
        trivial
      · rw [h]
        exact ok_nextLook 0
    | some b =>
      obtain ⟨htable, hreader, -⟩ := step_shown hstep hb
      rw [hreader]
      generalize hpc : (R.state m).nextReader test (R.act m) t = pc
      have hmoves : Moves test (R.state m) t (R.act m) pc := hpc ▸ reader_cases (acts_of_tableAct hb) htable
      generalize R.act m = a at hmoves
      cases hmoves with
      | stays => exact hbefore
      | begins => trivial
      | @finishes k p hk hf =>
        obtain rfl := found hr (Nat.le_of_lt hm) hk hf
        obtain ⟨hlt, hstarted⟩ := hinv.running t k (by rw [hk]; rfl)
        rw [Option.isSome_some, if_pos (hinv.kept hstarted hlt).2.2]
        rfl
      | @unlocks k f hk =>
        rw [hk] at hbefore
        obtain rfl : f = true := hbefore
        rw [if_pos hr.outside]
        exact ok_nextLook _

/-- The thread whose step it is; none is the main thread. -/
def StressAct.thread : StressAct T → Option T
  | .loop t | .lock t | .enter t | .begin t | .read t | .finish t | .unlock t => some t
  | .main | .write | .return => none

theorem step_isSome (hb : s.tableAct myHash a = some b) (hs : (s.rTable.step cfg hash fl b).isSome) :
    (s.step test myHash cfg hash fl a).isSome := by
  unfold State.step
  rw [hb]
  simpa using hs

/-- The lookup of a reader has its next step to take, or has come to its end. -/
theorem lookup_moves (hr : test.Right Q) {m : ℕ} (hm : m ≤ R.len) {t : T} {k : ℕ}
    (hk : (R.state m).reader t = .finding k) : (∃ p, ((R.state m).rTable.reader t).find = some (.ret p)) ∨
      ((R.state m).rTable.step cfg hash fl (.read t)).isSome := by
  obtain ⟨r, hseen⟩ := exists_tableRun R
  obtain ⟨i, -, hl, -⟩ := looking hr hseen hm hk
  obtain ⟨g, pos, hf⟩ : ∃ g pos, Follows r _ _ (fun _ => False) t _ _ _ (nrSeen (seen R) m) g pos :=
    hl.follows (lawful_of_seen hr hseen) fun _ _ _ _ _ _ _ hq => hq.elim
  rw [← hseen.state m hm]
  rcases hf.searching.progress (f := _) hf.inv.rep with ⟨p, rfl⟩ | hnext
  · exact .inl ⟨p, hf.find⟩
  · refine .inr ?_
    simp only [TableSys.step, hf.find, Pos.step, Option.isSome_map]
    exact hnext

/-- A reader that runs has its next step to take. -/
theorem reader_moves (hr : test.Right Q) {m : ℕ} (hm : m ≤ R.len) (hstarted : (R.state m).started = true) {t : T}
    (hdone : (R.state m).reader t ≠ .done) :
    ∃ a : StressAct T, a.thread = some t ∧ ((R.state m).step test myHash cfg hash fl a).isSome := by
  have hi := inv_of_run R hr m hm
  have hreads := hi.reads t
  cases hk : (R.state m).reader t with
  | loop =>
    refine ⟨.loop t, rfl, ?_⟩
    simp only [State.step, State.tableAct, State.control, hstarted, hk]
    rfl
  | lock k =>
    rw [hk] at hreads
    have hnone : ((R.state m).rTable.reader t).find = none := hreads
    have henter : (Zone.rcuReadLock cfg (R.state m).rTable.zone t).isSome →
        ((R.state m).step test myHash cfg hash fl (.enter t)).isSome := fun hz =>
      step_isSome (b := .enter t) (by simp only [State.tableAct, hk]) (by simpa [TableSys.step, Zone.step] using hz)
    cases hz : (R.state m).rTable.zone.reader t with
    | idle =>
      refine ⟨.lock t, rfl, step_isSome (b := .lock t) (by simp only [State.tableAct, hk]) ?_⟩
      simp [TableSys.step, Zone.step, hz]
    | inside =>
      refine ⟨.begin t, rfl, step_isSome (b := .begin t (myHash k) (hasValue k))
        (by simp only [State.tableAct, hk]) ?_⟩
      simp [TableSys.step, hz, hnone]
    | check =>
      refine ⟨.enter t, rfl, henter ?_⟩
      unfold Zone.rcuReadLock
      rw [hz]
      dsimp only
      split <;> rfl
    | load | bump | undo =>
      refine ⟨.enter t, rfl, henter ?_⟩
      simp [Zone.rcuReadLock, hz]
  | finding k =>
    rcases lookup_moves hr hm hk with ⟨p, hp⟩ | hread
    · refine ⟨.finish t, rfl, step_isSome (b := .finish t) (by simp only [State.tableAct, hk]) ?_⟩
      simp [TableSys.step, hp]
    · exact ⟨.read t, rfl, step_isSome (by simp only [State.tableAct, hk]) hread⟩
  | unlock k found =>
    rw [hk] at hreads
    obtain ⟨⟨b, e, hz⟩, hnone⟩ := hreads
    refine ⟨.unlock t, rfl, step_isSome (b := .unlock t) (by simp only [State.tableAct, hk]) ?_⟩
    simp [TableSys.step, Zone.step, hnone, hz]
  | done => exact absurd hk hdone
  | broken =>
    have hok := readers_ok hr hm t
    rw [hk] at hok
    exact hok.elim

/-- The main thread has its next step to take, unless it waits for the readers, or is done. -/
theorem main_moves (hr : test.Right Q) {m : ℕ} (hm : m ≤ R.len) (htodo : (R.state m).todo ≠ [])
    (hjoin : ∀ cs, (R.state m).todo = .join :: cs → ∀ t, (R.state m).reader t = .done) :
    ∃ a : StressAct T, a.thread = none ∧ ((R.state m).step test myHash cfg hash fl a).isSome := by
  obtain ⟨e, hok⟩ := (inv_of_run R hr m hm).main
  cases hc : (R.state m).calling with
  | true =>
    obtain ⟨c, cs, op, -, -, hp⟩ := hok.call hc
    have hnext : ((R.state m).rTable.step cfg hash fl .write).isSome ∨
        ((R.state m).rTable.step cfg hash fl .return).isSome := hp.progress
    rcases hnext with h | h
    · exact ⟨.write, rfl, step_isSome (b := .write) (by simp [State.tableAct, hc]) h⟩
    · exact ⟨.return, rfl, step_isSome (b := .return) (by simp [State.tableAct, hc]) h⟩
  | false =>
    obtain ⟨hw, he⟩ := hok.rest hc
    cases ht : (R.state m).todo with
    | nil => exact absurd ht htodo
    | cons c cs =>
      refine ⟨.main, rfl, ?_⟩
      obtain ⟨hpre, -⟩ := hok.pre ht
      have hassign : ∀ n v, c.op (φ := φ) myHash = none →
          c.assigns (R.state m).rTable.heap (R.state m).pEntry = some (n, v) →
          ((R.state m).step test myHash cfg hash fl .main).isSome := fun n v hop ha =>
        step_isSome (b := .prepare n _ v) (by simp only [State.tableAct, hc, ht, hop, ha]; rfl)
          (by simp [TableSys.step, hw])
      have hcall : ∀ op, c.op myHash = some op → ((R.state m).step test myHash cfg hash fl .main).isSome :=
        fun op hop => step_isSome (b := .call op) (by simp only [State.tableAct, hc, ht, hop])
          (by simp [TableSys.step, hw])
      cases c with
      | setV | setValid => exact hassign _ _ rfl rfl
      | invalidate =>
        obtain ⟨i, hentry, -⟩ := hpre
        exact hassign i { (R.state m).rTable.heap.key (.node i) with valid := false } rfl
          (by simp only [Cmd.assigns, hok.entry i hentry])
      | start | finish =>
        simp only [State.step, State.tableAct, State.control, hc, ht]
        rfl
      | join =>
        have hall := hjoin cs ht
        simp only [State.step, State.tableAct, State.control, hc, ht, Cmd.op, Cmd.assigns, Option.map_none, if_pos hall]
        rfl
      | _ => exact hcall _ rfl

/-- No thread has thrown; the element that the main thread is about to write, or to insert, is in no reader's hands;
and no thread is stuck, except for the main thread while it waits for the readers. -/
structure State.Fine (test : Test) (myHash : ℕ → ℕ) (cfg : ZoneCfg) (hash : T → ℕ) (fl : FloatOps φ)
    (s : State T φ) : Prop where
  main : s.broken = false
  reader : ∀ t, s.reader t ≠ .broken
  brought : ∀ b n, s.tableAct myHash .main = some b → b.brings = some n → ∀ t, .node n ∉ (s.rTable.reader t).held
  mainMoves : s.todo ≠ [] → (∀ cs, s.todo = .join :: cs → ∀ t, s.reader t = .done) →
    ∃ a : StressAct T, a.thread = none ∧ (s.step test myHash cfg hash fl a).isSome
  readerMoves : ∀ t, s.started = true → s.reader t ≠ .done →
    ∃ a : StressAct T, a.thread = some t ∧ (s.step test myHash cfg hash fl a).isSome

/-- **In every schedule** of a test that is right as a sequential program, no thread throws or is stuck, and a main
thread that has come to its end has reached what it reaches when it is alone. -/
theorem run_ok (hr : test.Right Q) {m : ℕ} (hm : m ≤ R.len) : (R.state m).Fine test myHash cfg hash fl ∧
    ((R.state m).todo = [] → ∃ e, Q (R.state 0).plan e ∧ Meets (R.state m).rTable.heap e) := by
  have hi := inv_of_run R hr m hm
  obtain ⟨e, hok⟩ := hi.main
  refine ⟨⟨hok.sound, fun t h => ?_, fun b n hb hn t hheld => ?_, main_moves hr hm,
    fun t hs => reader_moves hr hm hs⟩, fun hend => ?_⟩
  · have hreader := readers_ok hr hm t
    rw [h] at hreader
    exact hreader
  · have hacts := acts_of_tableAct hb
    have hfree := (hi.asks hacts).1.free hn
    have hc : (R.state m).calling = false := by
      cases hacts with
      | call hc | assign hc => exact hc
    obtain ⟨g, hinv, -⟩ := hi.table
    have hrest := hinv.writer
    rw [(hok.rest hc).1] at hrest
    exact hrest.not_seen hfree ((hinv.within t).held _ hheld).1
  · have hgoes := hok.goes
    rw [hend] at hgoes
    refine ⟨e, hgoes, (hok.rest ?_).2⟩
    cases hc : (R.state m).calling with
    | false => rfl
    | true =>
      obtain ⟨c, cs, op, ht, -⟩ := hok.call hc
      cases hend.symm.trans ht

end Runs

/-! ### The tests in every schedule -/

variable {T φ : Type} [DecidableEq T] [Fintype T] {nrRounds sizePersist sizeTotal : ℕ} {myHash : ℕ → ℕ}
  {cfg : ZoneCfg} {hash : T → ℕ} {fl : FloatOps φ}

/-- **`RCUTableNormalUsageStress`** never throws and is never stuck, and at its end all elements are in the table. -/
theorem normalUsage_never_throws (hsize : sizePersist ≤ sizeTotal)
    (R : StressRun T (normalUsage nrRounds sizePersist sizeTotal) myHash cfg hash fl) : ∀ m ≤ R.len,
      (R.state m).Fine (normalUsage nrRounds sizePersist sizeTotal) myHash cfg hash fl ∧
        ((R.state m).todo = [] → ∀ q, (R.state m).rTable.heap.Linked q ↔ ∃ k < sizeTotal, q = .node k) := by
  intro m hm
  obtain ⟨hfine, hend⟩ := run_ok (normalUsage_right hsize) hm
  refine ⟨hfine, fun hdone q => ?_⟩
  obtain ⟨e, hlinked, he⟩ := hend hdone
  simp only [he.linked q, hlinked]

def emptyTable : Session (K := Val) ratOps oneBucket :=
  .init ratOps oneBucket (noTable fun _ => ⟨0, false⟩) (noTable_blank _) 100 (by decide +kernel)
    (.prepare 0 0 ⟨0, false⟩)

/-- One round: the reader finds element 0 while the main thread, which has detached element 1, waits for it. -/
def oneRound : StressRun Unit (normalUsage 1 1 2) id Zone.tinyCfg (fun _ => 0) ratOps :=
  .ofActs ⟨.setUp Unit (emptyTable.heap 0), (normalUsage 1 1 2).script, false, none, false, false, false,
      fun _ => .loop⟩ (List.flatten [
    .replicate 3 .main, .replicate 13 .write, [.return, .main, .main], .replicate 8 .write,
    [.return, .main, .main, .main], .replicate 70 .write, [.return, .main, .loop (), .lock ()],
    .replicate 3 (.enter ()), [.begin (), .read (), .read ()], .replicate 14 .write, .replicate 3 (.read ()),
    [.finish (), .write, .unlock ()], .replicate 4 .write, [.return, .main, .main, .main, .main],
    .replicate 57 .write, [.return, .main, .loop (), .main, .main], .replicate 5 .write, [.return]])
    ⟨TableSys.setUp_init, rfl, rfl, rfl, rfl, rfl, fun _ => rfl⟩ (by decide +kernel)

/-- The reader has found element 0; element 1 is made invalid while the reader does not have it; and both are there
at the end. -/
theorem oneRound_never_throws : (oneRound.state 129).reader () = .unlock 0 true ∧
    (∀ t, Ptr.node 1 ∉ ((oneRound.state 136).rTable.reader t).held) ∧ (oneRound.state 208).broken = false ∧
    ∀ q, (oneRound.state 208).rTable.heap.Linked q ↔ q = .node 0 ∨ q = .node 1 := by
  have hsize : 1 ≤ 2 := by decide
  obtain ⟨hwrites, -⟩ := normalUsage_never_throws hsize oneRound 136 (by decide +kernel)
  obtain ⟨hfine, hend⟩ := normalUsage_never_throws hsize oneRound 208 (by decide +kernel)
  have hinvalidate : ((oneRound.state 136).tableAct id .main).bind TableAct.brings = some 1 := by decide +kernel
  obtain ⟨b, hb, hbrings⟩ := Option.bind_eq_some_iff.mp hinvalidate
  refine ⟨by decide +kernel, hwrites.brought b 1 hb hbrings, hfine.main, fun q => ?_⟩
  rw [hend (by decide +kernel)]
  constructor
  · rintro ⟨k, hk, rfl⟩
    rcases Nat.lt_succ_iff_lt_or_eq.mp hk with hk | rfl
    · exact .inl (by rw [Nat.lt_one_iff.mp hk])
    · exact .inr rfl
  · rintro (rfl | rfl)
    · exact ⟨0, by decide, rfl⟩
    · exact ⟨1, by decide, rfl⟩

/-- **`RCUTableManualStressExpandShrink`** never throws and is never stuck, and at its end all elements are in the
table, which has as many buckets as at the beginning. -/
theorem manualExpandShrink_never_throws
    (R : StressRun T (manualExpandShrink nrRounds sizeTotal) myHash cfg hash fl) : ∀ m ≤ R.len,
      (R.state m).Fine (manualExpandShrink nrRounds sizeTotal) myHash cfg hash fl ∧
        ((R.state m).todo = [] → (∀ q, (R.state m).rTable.heap.Linked q ↔ ∃ k < sizeTotal, q = .node k) ∧
          (R.state m).rTable.heap.nrBuckets = (R.state 0).rTable.heap.nrBuckets) := by
  intro m hm
  obtain ⟨hfine, hend⟩ := run_ok manualExpandShrink_right hm
  refine ⟨hfine, fun hdone => ?_⟩
  obtain ⟨e, ⟨hlinked, hbuckets⟩, he⟩ := hend hdone
  exact ⟨fun q => by simp only [he.linked q, hlinked], he.nrBuckets _ hbuckets⟩

/-- One round: the reader has begun its first lookup when the table is expanded, and finishes it, and has its
second one, before the old array is freed. -/
def expandUnderReader : StressRun Unit (manualExpandShrink 1 2) id Zone.tinyCfg (fun _ => 0) ratOps :=
  .ofActs ⟨.setUp Unit (emptyTable.heap 0), (manualExpandShrink 1 2).script, false, none, false, false, false,
      fun _ => .loop⟩ (List.flatten [
    .replicate 2 .main, .replicate 9 .write, [.return, .main, .main], .replicate 12 .write,
    [.return, .main, .loop (), .lock ()], .replicate 3 (.enter ()), [.begin (), .read (), .main],
    .replicate 20 .write, .replicate 7 (.read ()), [.finish (), .unlock (), .lock ()], .replicate 3 (.enter ()),
    [.begin ()], .replicate 5 (.read ()), [.finish (), .unlock ()], .replicate 36 .write, [.return, .main],
    .replicate 44 .write, [.return, .main], .replicate 58 .write, [.return, .main], .replicate 29 .write,
    [.return, .main], .replicate 21 .write, [.return, .main], .replicate 20 .write,
    [.return, .main, .loop (), .main]])
    ⟨TableSys.setUp_init, rfl, rfl, rfl, rfl, rfl, fun _ => rfl⟩ (by decide +kernel)

/-- The reader has found element 0 on the array that the table had before; at the end the table has one bucket again,
with both elements in it. -/
theorem expandUnderReader_never_throws : (expandUnderReader.state 64).reader () = .unlock 0 true ∧
    (expandUnderReader.state 64).rTable.heap.nrBuckets = 2 ∧ (expandUnderReader.state 299).broken = false ∧
    (∀ q, (expandUnderReader.state 299).rTable.heap.Linked q ↔ ∃ k < 2, q = .node k) ∧
    (expandUnderReader.state 299).rTable.heap.nrBuckets = 1 := by
  obtain ⟨hfine, hend⟩ := manualExpandShrink_never_throws expandUnderReader 299 (by decide +kernel)
  obtain ⟨hlinked, hbuckets⟩ := hend (by decide +kernel)
  exact ⟨by decide +kernel, by decide +kernel, hfine.main, hlinked, hbuckets.trans (by decide +kernel)⟩

end Stress

end RcuTable
