import RcuTable.Client.Stress

/-!
# Client.StressInvariant — one step of a stress test

What the main thread knows of its data and of the table when it is alone holds also while the readers run: the
statements that are left go through from the plan that it has come to, and a call under way is going to leave the
next plan (`MainOk`).  `Inv.next`: each step keeps this, and what the table knows of the readers.
-/

namespace RcuTable

open Atomic Trans

namespace Stress

/-! ### What a step can be -/

section Cases

variable {T φ : Type} (test : Test) (myHash : ℕ → ℕ)

/-- `State.tableAct` as a relation. -/
inductive Acts (s : State T φ) : StressAct T → TableAct T Val φ → Prop
  | lock {t : T} {i : ℕ} (hr : s.reader t = .lock i) : Acts s (.lock t) (.lock t)
  | enter {t : T} {i : ℕ} (hr : s.reader t = .lock i) : Acts s (.enter t) (.enter t)
  | begin {t : T} {i : ℕ} (hr : s.reader t = .lock i) :
      Acts s (.begin t) (.begin t (myHash i) ((valKeys myHash).finds ⟨i, true⟩))
  | read {t : T} {i : ℕ} (hr : s.reader t = .finding i) : Acts s (.read t) (.read t)
  | finish {t : T} {i : ℕ} (hr : s.reader t = .finding i) : Acts s (.finish t) (.finish t)
  | unlock {t : T} {i : ℕ} {found : Bool} (hr : s.reader t = .unlock i found) : Acts s (.unlock t) (.unlock t)
  | call {c : Cmd} {cs : List Cmd} {op : Op Val φ} (hc : s.calling = false) (ht : s.todo = c :: cs)
      (hop : c.op myHash = some op) : Acts s .main (.call op)
  | assign {c : Cmd} {cs : List Cmd} {n : ℕ} {v : Val} (hc : s.calling = false) (ht : s.todo = c :: cs)
      (hop : c.op (φ := φ) myHash = none) (ha : c.assigns s.rTable.heap s.pEntry = some (n, v)) :
      Acts s .main (.prepare n (s.rTable.heap.hash (.node n)) v)
  | write (hc : s.calling = true) : Acts s .write .write
  | return (hc : s.calling = true) : Acts s .return .return

variable {myHash} {s s' : State T φ} {a : StressAct T} {b : TableAct T Val φ}

theorem acts_of_tableAct (h : s.tableAct myHash a = some b) : Acts myHash s a b := by
  cases a with
  | loop t => cases h
  | lock t =>
    simp only [State.tableAct] at h
    split at h
    case h_1 hr => obtain rfl := Option.some.inj h; exact .lock hr
    case h_2 => cases h
  | enter t =>
    simp only [State.tableAct] at h
    split at h
    case h_1 hr => obtain rfl := Option.some.inj h; exact .enter hr
    case h_2 => cases h
  | begin t =>
    simp only [State.tableAct] at h
    split at h
    case h_1 hr => obtain rfl := Option.some.inj h; exact .begin hr
    case h_2 => cases h
  | read t =>
    simp only [State.tableAct] at h
    split at h
    case h_1 hr => obtain rfl := Option.some.inj h; exact .read hr
    case h_2 => cases h
  | finish t =>
    simp only [State.tableAct] at h
    split at h
    case h_1 hr => obtain rfl := Option.some.inj h; exact .finish hr
    case h_2 => cases h
  | unlock t =>
    simp only [State.tableAct] at h
    split at h
    case h_1 hr => obtain rfl := Option.some.inj h; exact .unlock hr
    case h_2 => cases h
  | main =>
    simp only [State.tableAct] at h
    split at h
    case h_1 c cs hc ht =>
      split at h
      case h_1 op hop => obtain rfl := Option.some.inj h; exact .call hc ht hop
      case h_2 hop =>
        obtain ⟨⟨n, v⟩, ha, rfl⟩ := Option.map_eq_some_iff.mp h
        exact .assign hc ht hop ha
    case h_2 => cases h
  | write =>
    simp only [State.tableAct] at h
    split at h
    case isTrue hc => obtain rfl := Option.some.inj h; exact .write hc
    case isFalse => cases h
  | «return» =>
    simp only [State.tableAct] at h
    split at h
    case isTrue hc => obtain rfl := Option.some.inj h; exact .return hc
    case isFalse => cases h

variable [DecidableEq T] [Fintype T] {cfg : ZoneCfg} {hash : T → ℕ} {fl : FloatOps φ}

/-- `State.control` as a relation. -/
inductive Beside (s : State T φ) : StressAct T → State T φ → Prop
  | loop {t : T} (hrun : s.started = true) (hr : s.reader t = .loop) : Beside s (.loop t)
      { s with reader := Function.update s.reader t (if s.finished then .done else State.nextLook test 0) }
  | start {cs : List Cmd} (hc : s.calling = false) (ht : s.todo = .start :: cs) :
      Beside s .main { s with todo := cs, started := true }
  | finish {cs : List Cmd} (hc : s.calling = false) (ht : s.todo = .finish :: cs) :
      Beside s .main { s with todo := cs, finished := true }
  | join {cs : List Cmd} (hc : s.calling = false) (ht : s.todo = .join :: cs) (hj : ∀ t, s.reader t = .done) :
      Beside s .main { s with todo := cs }
  | null {cs : List Cmd} (hc : s.calling = false) (ht : s.todo = .invalidate :: cs) (hn : s.pEntry = none) :
      Beside s .main { s with todo := [], broken := true }

variable {test}

theorem beside_of_control (h : s.control test a = some s') : Beside test s a s' := by
  cases a with
  | loop t =>
    simp only [State.control] at h
    split at h
    case h_1 hrun hr => obtain rfl := Option.some.inj h; exact .loop hrun hr
    case h_2 => cases h
  | main =>
    simp only [State.control] at h
    split at h
    case h_1 hc ht => obtain rfl := Option.some.inj h; exact .start hc ht
    case h_2 hc ht => obtain rfl := Option.some.inj h; exact .finish hc ht
    case h_3 hc ht =>
      split at h
      case isTrue hj => obtain rfl := Option.some.inj h; exact .join hc ht hj
      case isFalse => cases h
    case h_4 hc ht =>
      split at h
      case h_1 hn => obtain rfl := Option.some.inj h; exact .null hc ht hn
      case h_2 => cases h
    case h_5 => cases h
  | _ => cases h

/-- A step is one of the table, or one beside it. -/
theorem step_cases (h : s.step test myHash cfg hash fl a = some s') :
    (∃ b rTable, s.tableAct myHash a = some b ∧ s.rTable.step cfg hash fl b = some rTable ∧
      s' = s.after test myHash a rTable) ∨ (s.tableAct myHash a = none ∧ Beside test s a s') := by
  unfold State.step at h
  cases hb : s.tableAct myHash a with
  | some b =>
    rw [hb] at h
    obtain ⟨rTable, hs, rfl⟩ := Option.map_eq_some_iff.mp h
    exact .inl ⟨b, rTable, rfl, hs, rfl⟩
  | none =>
    rw [hb] at h
    exact .inr ⟨rfl, beside_of_control h⟩

end Cases

/-! ### The threads after a step of the table -/

section After

variable {T φ : Type} [DecidableEq T] {test : Test} {myHash : ℕ → ℕ} {s : State T φ} {a : StressAct T}
  {rTable : TableSys T Val φ} {c : Cmd} {cs : List Cmd} {op : Op Val φ} {res : Res}

theorem after_same : (s.after test myHash a rTable).rTable = rTable ∧
    (s.after test myHash a rTable).reader = s.nextReader test a ∧
    (s.after test myHash a rTable).started = s.started := by
  unfold State.after
  dsimp only
  split
  · split <;> exact ⟨rfl, rfl, rfl⟩
  · split
    · split <;> exact ⟨rfl, rfl, rfl⟩
    · exact ⟨rfl, rfl, rfl⟩
  · exact ⟨rfl, rfl, rfl⟩

@[simp] theorem after_rTable : (s.after test myHash a rTable).rTable = rTable := after_same.1

@[simp] theorem after_reader : (s.after test myHash a rTable).reader = s.nextReader test a := after_same.2.1

@[simp] theorem after_started : (s.after test myHash a rTable).started = s.started := after_same.2.2

theorem after_call (ht : s.todo = c :: cs) (hop : c.op myHash = some op) :
    s.after test myHash .main rTable = { s with rTable := rTable, calling := true } := by
  simp only [State.after, ht, hop, Option.isSome_some, if_true]
  rfl

theorem after_assign (ht : s.todo = c :: cs) (hop : c.op (φ := φ) myHash = none) :
    s.after test myHash .main rTable = { s with rTable := rTable, todo := cs } := by
  simp only [State.after, ht, hop, Option.isSome_none, Bool.false_eq_true, if_false]
  rfl

theorem after_return (ht : s.todo = c :: cs) (hw : s.rTable.writer = some (op, .ret res))
    (hacc : c.accepts res = true) : s.after test myHash .return rTable =
      { s with rTable := rTable, todo := cs, calling := false, pEntry := c.entry s.pEntry res } := by
  simp only [State.after, ht, hw, hacc, if_true]
  rfl

end After

/-! ### The readers -/

/-- What a step of the table makes of the reader `t`: it stays where it is, or this is its own step. -/
inductive Moves {T φ : Type} (test : Test) (s : State T φ) (t : T) : StressAct T → ReaderPc → Prop
  | stays {a : StressAct T} (h1 : a ≠ .begin t) (h2 : a ≠ .finish t) (h3 : a ≠ .unlock t) :
      Moves test s t a (s.reader t)
  | begins {i : ℕ} (hr : s.reader t = .lock i) : Moves test s t (.begin t) (.finding i)
  | finishes {i : ℕ} {p : Option Ptr} (hr : s.reader t = .finding i)
      (hf : (s.rTable.reader t).find = some (.ret p)) : Moves test s t (.finish t)
        (if test.inside p.isSome (s.rTable.heap.key (.node i)).valid then .unlock i p.isSome else .broken)
  | unlocks {i : ℕ} {found : Bool} (hr : s.reader t = .unlock i found) : Moves test s t (.unlock t)
      (if test.outside found then State.nextLook test (i + 1) else .broken)

/-- What the zone and the table know of a reader. -/
def ReadsAt {φ : Type} (z : RcuTable.ReaderPc) (l : Reading Val φ) : ReaderPc → Prop
  | .finding _ => z.Inside ∧ l.find ≠ none
  | .unlock _ _ => z.Inside ∧ l.find = none
  | _ => l.find = none

section Readers

variable {T φ : Type} [DecidableEq T] {test : Test} {myHash : ℕ → ℕ} {cfg : ZoneCfg} {hash : T → ℕ}
  {fl : FloatOps φ} {s : State T φ} {a : StressAct T} {b : TableAct T Val φ} {rTable : TableSys T Val φ} {t : T}

theorem reader_cases (hb : Acts myHash s a b) (hs : s.rTable.step cfg hash fl b = some rTable) :
    Moves test s t a (s.nextReader test a t) := by
  cases hb with
  | @begin t' i hr =>
    by_cases ht : t = t'
    · subst ht
      simp only [State.nextReader, hr, Function.update_self]
      exact .begins hr
    · rw [State.nextReader, Function.update_of_ne ht]
      exact .stays (by simpa using Ne.symm ht) (by simp) (by simp)
  | @finish t' i hr =>
    by_cases ht : t = t'
    · subst ht
      cases TableSys.step_cases hs with
      | finish hf =>
        simp only [State.nextReader, hr, hf, Function.update_self]
        exact .finishes hr hf
    · rw [State.nextReader, Function.update_of_ne ht]
      exact .stays (by simp) (by simpa using Ne.symm ht) (by simp)
  | @unlock t' i found hr =>
    by_cases ht : t = t'
    · subst ht
      simp only [State.nextReader, hr, Function.update_self]
      exact .unlocks hr
    · rw [State.nextReader, Function.update_of_ne ht]
      exact .stays (by simp) (by simp) (by simpa using Ne.symm ht)
  | _ => exact .stays (by simp) (by simp) (by simp)

theorem readsAt_nextLook {z : RcuTable.ReaderPc} {l : Reading Val φ} (hl : l.find = none) (i : ℕ) :
    ReadsAt z l (State.nextLook test i) := by
  unfold State.nextLook
  split <;> exact hl

/-- A reader that stays where it is keeps its critical section and its lookup. -/
theorem ReadsAt.stays {pc : ReaderPc} (h : ReadsAt (s.rTable.zone.reader t) (s.rTable.reader t) pc)
    (hs : s.rTable.step cfg hash fl b = some rTable) (hbegin : ∀ x f, b ≠ .begin t x f) (hfinish : b ≠ .finish t)
    (hunlock : b ≠ .unlock t) : ReadsAt (rTable.zone.reader t) (rTable.reader t) pc := by
  have hnone : (s.rTable.reader t).find = none → (rTable.reader t).find = none := by
    intro hf
    by_contra hf'
    rcases find_of_step hs hf' with ⟨h, -⟩ | ⟨x, f, h⟩
    · exact h hf
    · exact hbegin x f h
  cases pc with
  | finding => exact ⟨inside_stays hs h.1 hunlock, find_stays hs h.2 hfinish⟩
  | unlock => exact ⟨inside_stays hs h.1 hunlock, hnone h.2⟩
  | _ => exact hnone h

/-- A reader moves in its critical section and its lookup as it moves in its program. -/
theorem readsAt_step (h : ReadsAt (s.rTable.zone.reader t) (s.rTable.reader t) (s.reader t))
    (hb : Acts myHash s a b) (hs : s.rTable.step cfg hash fl b = some rTable) :
    ReadsAt (rTable.zone.reader t) (rTable.reader t) (s.nextReader test a t) := by
  generalize hpc : s.nextReader test a t = pc
  have hmoves : Moves test s t a pc := hpc ▸ reader_cases hb hs
  have hself : ∀ {l : Reading Val φ} {r : TableSys T Val φ}, (r.setReader t l).reader t = l :=
    Function.update_self ..
  cases hmoves with
  | stays h1 h2 h3 =>
    refine h.stays hs ?_ ?_ ?_
    · rintro x f rfl
      cases hb with
      | begin => exact h1 rfl
    · rintro rfl
      cases hb with
      | finish => exact h2 rfl
    · rintro rfl
      cases hb with
      | unlock => exact h3 rfl
  | begins =>
    cases hb with
    | begin =>
      cases TableSys.step_cases hs with
      | begin hin =>
        refine ⟨hin, ?_⟩
        rw [hself]
        exact Option.some_ne_none _
  | finishes hr =>
    rw [hr] at h
    cases hb with
    | finish =>
      cases TableSys.step_cases hs with
      | finish =>
        split
        · refine ⟨h.1, ?_⟩
          rw [hself]
        · show (TableSys.reader _ t).find = none
          rw [hself]
  | unlocks =>
    cases hb with
    | unlock =>
      cases TableSys.step_cases hs with
      | @unlock _ z =>
        have hout : (((s.rTable.setZone z).setReader t .outside).reader t).find = none :=
          congrArg Reading.find hself
        split
        · exact readsAt_nextLook hout _
        · exact hout

end Readers

/-! ### The main thread -/

/-- While the readers run, what they look up is in the table, and as they expect it. -/
def Kept (test : Test) (e : Plan) : Prop :=
  e.started = true → ∀ i < test.nrKept, e.linked i ∧ test.inside true (e.arr i).valid = true

section Kept

variable {test : Test} {e : Plan} {n k : ℕ} {v : Val}

theorem Kept.assign (hk : Kept test e) (hn : ¬ e.linked n) (v : Val) : Kept test (e.assign n v) := by
  intro hstarted i hi
  obtain ⟨h1, h2⟩ := hk hstarted i hi
  refine ⟨h1, ?_⟩
  rwa [Plan.assign_arr_of_linked hn h1]

theorem Kept.post {c : Cmd} (hk : Kept test e) (hpre : c.Pre test e) : Kept test (c.post e) := by
  cases c with
  | setV | setValid => exact hk.assign hpre _
  | invalidate =>
    obtain ⟨i, hi, hnot⟩ := hpre
    simp only [Cmd.post, hi]
    exact hk.assign hnot _
  | tryInsert | tryInsertNoExpand => exact fun hs i hi => ⟨.inl (hk hs i hi).1, (hk hs i hi).2⟩
  | tryDetachAndSynchronize k =>
    intro hs i hi
    have hlt : test.nrKept ≤ k := hpre.2 hs
    exact ⟨⟨(hk hs i hi).1, by omega⟩, (hk hs i hi).2⟩
  | start => exact fun _ => hpre
  | _ => exact hk

end Kept

section Main

variable {T φ : Type} {test : Test} {Q : Plan → Prop} {myHash : ℕ → ℕ} {s : State T φ} {e : Plan} {c : Cmd}
  {cs : List Cmd} {h h' : Heap Val φ}

/-- The main thread has come to the plan `e`. -/
structure MainOk (test : Test) (Q : Plan → Prop) (myHash : ℕ → ℕ) (s : State T φ) (e : Plan) : Prop where
  goes : Goes test s.todo Q e
  kept : Kept test e
  started : e.started = s.started
  entry : ∀ i, e.pEntry = some i → s.pEntry = some (.node i)
  sound : s.broken = false
  rest : s.calling = false → s.rTable.writer = none ∧ Meets s.rTable.heap e
  call : s.calling = true → ∃ c cs op, s.todo = c :: cs ∧ c.op myHash = some op ∧
    Pending s.rTable op fun res h' => c.Gives res ∧ Meets h' (c.post e)

/-- What an assignment writes, and what it leaves. -/
theorem assigns_spec {pEntry : Option Ptr} {n : ℕ} {v : Val} (he : Meets h e) (hpre : c.Pre test e)
    (hentry : ∀ i, e.pEntry = some i → pEntry = some (.node i)) (ha : c.assigns h pEntry = some (n, v)) :
    ¬ e.linked n ∧ c.post e = e.assign n v := by
  cases c with
  | setV i | setValid i =>
    obtain ⟨rfl, rfl⟩ := Prod.mk.inj (Option.some.inj ha)
    exact ⟨hpre, by rw [he.arr]; rfl⟩
  | invalidate =>
    obtain ⟨i, hi, hnot⟩ := hpre
    rw [hentry i hi] at ha
    obtain ⟨rfl, rfl⟩ := Prod.mk.inj (Option.some.inj ha)
    refine ⟨hnot, ?_⟩
    simp only [Cmd.post, hi]
    rw [he.arr]
  | _ => cases ha

/-- Writing to an element that is not in the table. -/
theorem Meets.assign (he : Meets h e) {n x : ℕ} (hn : ¬ e.linked n) (v : Val)
    (hlinked : ∀ q, (h.prepare n x v).Linked q ↔ h.Linked q) : Meets (h.prepare n x v) (e.assign n v) where
  linked q := (hlinked q).trans (he.linked q)
  arr k := by
    by_cases hkn : k = n
    · rw [hkn, Plan.assign_arr_self]
      exact Function.update_self ..
    · rw [Plan.assign_arr_of_ne hkn, ← he.arr]
      exact Function.update_of_ne (by simpa using hkn) ..
  value k hk := by
    rw [Plan.assign_arr_of_linked hn hk]
    exact he.value k hk
  nrBuckets m hm := he.nrBuckets m hm

theorem post_started {op : Op Val φ} (hop : c.op myHash = some op) : (c.post e).started = e.started := by
  cases c with
  | tryInsert | tryInsertNoExpand | tryDetachAndSynchronize | find | synchronize | expandBuckets2x
  | shrinkBuckets2x => rfl
  | _ => cases hop

/-- What a call leaves in `pEntry`. -/
theorem post_entry {op : Op Val φ} {res : Res} (hop : c.op myHash = some op) (hg : c.Gives res)
    (hentry : ∀ i, e.pEntry = some i → s.pEntry = some (.node i)) {i : ℕ} (hi : (c.post e).pEntry = some i) :
    c.entry s.pEntry res = some (.node i) := by
  cases c with
  | tryDetachAndSynchronize k =>
    obtain rfl := hg
    exact congrArg (fun i => some (Ptr.node i)) (Option.some.inj hi)
  | tryInsert | tryInsertNoExpand | find | synchronize | expandBuckets2x | shrinkBuckets2x => exact hentry i hi
  | _ => cases hop

end Main

/-! ### The invariant -/

/-- The element that a reader looks up. -/
def ReaderPc.index : ReaderPc → Option ℕ
  | .lock i | .finding i | .unlock i _ => some i
  | _ => none

theorem index_nextLook {test : Test} {i k : ℕ} (h : (State.nextLook test i).index = some k) : k < test.nrKept := by
  unfold State.nextLook at h
  split at h
  case isTrue hlt =>
    obtain rfl := Option.some.inj h
    exact hlt
  case isFalse => cases h

section Invariant

variable {T φ : Type} [DecidableEq T] [Fintype T] {test : Test} {Q : Plan → Prop} {myHash : ℕ → ℕ} {cfg : ZoneCfg}
  {hash : T → ℕ} {fl : FloatOps φ}

structure Inv (test : Test) (Q : Plan → Prop) (myHash : ℕ → ℕ) (cfg : ZoneCfg) (hash : T → ℕ) (fl : FloatOps φ)
    (s : State T φ) : Prop where
  table : ∃ g, RcuTable.Inv cfg hash fl (valKeys myHash).allow s.rTable g ∧ KeysOk (valKeys myHash) s.rTable.heap g
  main : ∃ e, MainOk test Q myHash s e
  waiting : s.rTable.waiting = []
  reads : ∀ t, ReadsAt (s.rTable.zone.reader t) (s.rTable.reader t) (s.reader t)
  running : ∀ t i, (s.reader t).index = some i → i < test.nrKept ∧ s.started = true

variable {s s' : State T φ} {e : Plan} {a : StressAct T} {b : TableAct T Val φ} {rTable : TableSys T Val φ}

omit [DecidableEq T] [Fintype T] in
/-- An element that is not in the table is free. -/
theorem Meets.free {r : TableSys T Val φ} (he : Meets r.heap e) (hw : r.waiting = []) {i : ℕ} (hi : ¬ e.linked i) :
    r.Free (.node i) :=
  ⟨he.not_linked hi, by rw [hw]; exact List.not_mem_nil⟩

omit [DecidableEq T] [Fintype T] in
theorem MainOk.pre (hm : MainOk test Q myHash s e) {c : Cmd} {cs : List Cmd} (ht : s.todo = c :: cs) :
    c.Pre test e ∧ Goes test cs Q (c.post e) := by
  have hgoes := hm.goes
  rwa [ht] at hgoes

/-- What the main thread asks of the table. -/
theorem Inv.asks (hi : Inv test Q myHash cfg hash fl s) (hb : Acts myHash s a b) :
    s.rTable.Contract b ∧ ∀ op, b = .call op → op = .synchronize ∨
      ∃ k : KeyOp Val, op = k.op (valKeys myHash) s.rTable.heap ∧ k.Allowed (valKeys myHash) s.rTable.heap := by
  obtain ⟨e, hm⟩ := hi.main
  cases hb with
  | @call c cs op hc ht hop =>
    obtain ⟨-, he⟩ := hm.rest hc
    obtain ⟨hpre, -⟩ := hm.pre ht
    refine ⟨fun p hp => ?_, ?_⟩
    · obtain ⟨i, hnot, rfl⟩ := Cmd.own_free hop hpre hp
      exact he.free hi.waiting hnot
    · rintro op' h
      obtain rfl := TableAct.call.inj h
      exact he.keyed hop hpre
  | @assign c cs n v hc ht hop ha =>
    obtain ⟨-, he⟩ := hm.rest hc
    obtain ⟨hpre, -⟩ := hm.pre ht
    exact ⟨he.free hi.waiting (assigns_spec he hpre hm.entry ha).1, fun op h => by cases h⟩
  | _ => exact ⟨trivial, fun op h => by cases h⟩

/-- The table's own invariant. -/
theorem Inv.table_step (hi : Inv test Q myHash cfg hash fl s) (hb : Acts myHash s a b)
    (hs : s.rTable.step cfg hash fl b = some rTable) :
    ∃ g, RcuTable.Inv cfg hash fl (valKeys myHash).allow rTable g ∧ KeysOk (valKeys myHash) rTable.heap g := by
  obtain ⟨g, hinv, hok⟩ := hi.table
  obtain ⟨hc, hkeyed⟩ := hi.asks hb
  have hpre : ∀ op, b = .call op → Flat s.rTable.heap g → op.Pre (valKeys myHash).allow s.rTable.heap g := by
    rintro op rfl hf
    obtain rfl | ⟨k, rfl, hallow⟩ := hkeyed op rfl
    · trivial
    · exact k.pre hf hok (fun p hp => (hc p hp).1) hallow
  obtain ⟨g', hinv', hm⟩ := hinv.step hc hpre hs
  exact ⟨g', hinv', hm.stable keysOk_stable hinv hok⟩

theorem Inv.flat (hi : Inv test Q myHash cfg hash fl s) (hw : s.rTable.writer = none) :
    ∃ g, Flat s.rTable.heap g ∧ KeysOk (valKeys myHash) s.rTable.heap g := by
  obtain ⟨g, hinv, hok⟩ := hi.table
  have hrest := hinv.writer
  rw [hw] at hrest
  exact ⟨g, hrest.flat, hok⟩

omit [Fintype T] in
/-- The main thread stays where it is while others step, or its call does. -/
theorem MainOk.other (hm : MainOk test Q myHash s e) (hpt : ∀ t, (s.rTable.reader t).Pointed)
    (hs : s.rTable.step cfg hash fl b = some rTable) (hcall : ∀ op, b ≠ .call op)
    (hprep : ∀ n x k, b ≠ .prepare n x k) (hret : b ≠ .return) (reader : T → ReaderPc) :
    MainOk test Q myHash { s with rTable := rTable, reader := reader } e where
  goes := hm.goes
  kept := hm.kept
  started := hm.started
  entry := hm.entry
  sound := hm.sound
  rest hc := by
    obtain ⟨hw, he⟩ := hm.rest hc
    obtain ⟨hw', hheap⟩ := rest_of_step hpt hw hs hcall hprep
    exact ⟨hw', by rwa [hheap]⟩
  call hc := by
    obtain ⟨c, cs, op, ht, hop, hp⟩ := hm.call hc
    exact ⟨c, cs, op, ht, hop, hp.step hpt hs hret⟩

/-- **The main thread** at a step of the table. -/
theorem Inv.main_step (hi : Inv test Q myHash cfg hash fl s) (hb : Acts myHash s a b)
    (hs : s.rTable.step cfg hash fl b = some rTable) :
    ∃ e, MainOk test Q myHash (s.after test myHash a rTable) e := by
  obtain ⟨e, hm⟩ := hi.main
  obtain ⟨g, hinv, -⟩ := hi.table
  have hpt := hinv.pointed
  have hcontract := (hi.asks hb).1
  cases hb with
  | @call c cs op hc ht hop =>
    obtain ⟨hw, he⟩ := hm.rest hc
    obtain ⟨hpre, -⟩ := hm.pre ht
    obtain ⟨g', hf, hk⟩ := hi.flat hw
    obtain ⟨res, h', hret, hkey, hres⟩ := he.call hf hk hop hpre
    rw [after_call ht hop]
    exact ⟨e, hm.goes, hm.kept, hm.started, hm.entry, hm.sound, fun h => (by cases h),
      fun _ => ⟨c, cs, op, ht, hop, pending_call hs hret hkey hres⟩⟩
  | @assign c cs n v hc ht hop ha =>
    obtain ⟨hw, he⟩ := hm.rest hc
    obtain ⟨hpre, hgoes⟩ := hm.pre ht
    obtain ⟨hn, hpost⟩ := assigns_spec he hpre hm.entry ha
    have hlinked := hinv.rest_linked hcontract hw hs
    obtain ⟨-, rfl⟩ := prepare_of_step hs
    rw [after_assign ht hop]
    refine ⟨c.post e, hgoes, hm.kept.post hpre, ?_, ?_, hm.sound, fun _ => ⟨hw, ?_⟩, fun h => ?_⟩
    · rw [hpost]
      exact hm.started
    · rw [hpost]
      exact hm.entry
    · rw [hpost]
      exact he.assign hn v hlinked
    · cases hc.symm.trans h
  | «return» hc =>
    obtain ⟨c, cs, op, ht, hop, hp⟩ := hm.call hc
    obtain ⟨hpre, hgoes⟩ := hm.pre ht
    have hback : ∃ op' res, s.rTable.writer = some (op', .ret res) := by
      cases TableSys.step_cases hs with
      | «return» hw => exact ⟨_, _, hw⟩
    obtain ⟨op', res, hw⟩ := hback
    obtain ⟨-, hgives, -⟩ := hp.result hw
    obtain ⟨⟨-, he⟩, hw'⟩ := hp.returned hw hs
    rw [after_return ht hw hgives.accepts]
    exact ⟨c.post e, hgoes, hm.kept.post hpre, (post_started hop).trans hm.started,
      fun i => post_entry hop hgives hm.entry, hm.sound, fun _ => ⟨hw', he⟩, fun h => (by cases h)⟩
  | lock | enter | begin | read | finish | unlock | write =>
    exact ⟨e, hm.other hpt hs (fun op h => by cases h) (fun n x k h => by cases h) (fun h => by cases h) _⟩

omit [Fintype T] in
/-- A lookup that is under way after a step was so before, or begins with it. -/
theorem finding_step (hb : Acts myHash s a b) (hs : s.rTable.step cfg hash fl b = some rTable) {t : T} {i : ℕ}
    (hk : s.nextReader test a t = .finding i) : s.reader t = .finding i ∧ b ≠ .finish t ∨
      s.reader t = .lock i ∧ b = .begin t (myHash i) ((valKeys myHash).finds ⟨i, true⟩) := by
  generalize hpc : s.nextReader test a t = pc at hk
  have hmoves : Moves test s t a pc := hpc ▸ reader_cases hb hs
  cases hmoves with
  | stays h1 h2 h3 =>
    refine .inl ⟨hk, ?_⟩
    rintro rfl
    cases hb with
    | finish => exact h2 rfl
  | begins hr =>
    injection hk with hk
    subst hk
    cases hb with
    | begin hr' =>
      rw [hr] at hr'
      injection hr' with hr'
      subst hr'
      exact .inr ⟨hr, rfl⟩
  | finishes => split at hk <;> cases hk
  | unlocks =>
    split at hk
    · unfold State.nextLook at hk
      split at hk <;> cases hk
    · cases hk

/-- The readers look up the first elements only. -/
theorem Inv.running_step (hi : Inv test Q myHash cfg hash fl s) (hb : Acts myHash s a b)
    (hs : s.rTable.step cfg hash fl b = some rTable) {t : T} {i : ℕ} (hk : (s.nextReader test a t).index = some i) :
    i < test.nrKept ∧ s.started = true := by
  generalize hpc : s.nextReader test a t = pc at hk
  have hmoves : Moves test s t a pc := hpc ▸ reader_cases hb hs
  cases hmoves with
  | stays => exact hi.running t i hk
  | begins hr => exact hi.running t i (by rw [hr]; exact hk)
  | finishes hr =>
    refine hi.running t i ?_
    rw [hr]
    split at hk
    · exact hk
    · cases hk
  | @unlocks k found hr =>
    have hstarted := (hi.running t k (by rw [hr]; rfl)).2
    split at hk
    · exact ⟨index_nextLook hk, hstarted⟩
    · cases hk

theorem Inv.waiting_step (hi : Inv test Q myHash cfg hash fl s) (hb : Acts myHash s a b)
    (hs : s.rTable.step cfg hash fl b = some rTable) : rTable.waiting = [] := by
  obtain ⟨e, hm⟩ := hi.main
  refine waiting_of_step hs hi.waiting ?_
  rintro op res rfl hw
  cases hb with
  | «return» hc =>
    obtain ⟨c, cs, op', -, hop, hp⟩ := hm.call hc
    obtain ⟨rfl, -⟩ := hp.result hw
    cases c with
    | tryInsert | tryInsertNoExpand | tryDetachAndSynchronize | find | synchronize | expandBuckets2x
    | shrinkBuckets2x =>
      obtain rfl := Option.some.inj hop
      rfl
    | _ => cases hop

/-- A step beside the table keeps the invariant. -/
theorem Inv.beside (hi : Inv test Q myHash cfg hash fl s) (hb : Beside test s a s') :
    Inv test Q myHash cfg hash fl s' := by
  obtain ⟨e, hm⟩ := hi.main
  cases hb with
  | @loop t hrun hr =>
    refine ⟨hi.table, ⟨e, hm.goes, hm.kept, hm.started, hm.entry, hm.sound, hm.rest, hm.call⟩, hi.waiting,
      fun t' => ?_, fun t' i h => ?_⟩
    · by_cases ht : t' = t
      · subst ht
        have hnone := hi.reads t'
        rw [hr] at hnone
        dsimp only
        rw [Function.update_self]
        split
        · exact hnone
        · exact readsAt_nextLook hnone 0
      · dsimp only
        rw [Function.update_of_ne ht]
        exact hi.reads t'
    · by_cases ht : t' = t
      · subst ht
        have h' : (if s.finished then ReaderPc.done else State.nextLook test 0).index = some i := by
          simpa using h
        split at h'
        · cases h'
        · exact ⟨index_nextLook h', hrun⟩
      · exact hi.running t' i ((congrArg ReaderPc.index (Function.update_of_ne ht ..)).symm.trans h)
  | start hc ht =>
    obtain ⟨hpre, hgoes⟩ := hm.pre ht
    obtain ⟨hw, he⟩ := hm.rest hc
    refine ⟨hi.table, ⟨_, hgoes, hm.kept.post hpre, rfl, hm.entry, hm.sound, fun _ => ⟨hw, he.1, he.2, he.3, he.4⟩,
      fun h => ?_⟩, hi.waiting, hi.reads, fun t i h => ⟨(hi.running t i h).1, rfl⟩⟩
    cases hc.symm.trans h
  | finish hc ht | join hc ht =>
    obtain ⟨-, hgoes⟩ := hm.pre ht
    exact ⟨hi.table, ⟨_, hgoes, hm.kept, hm.started, hm.entry, hm.sound, hm.rest, fun h => by cases hc.symm.trans h⟩,
      hi.waiting, hi.reads, hi.running⟩
  | null hc ht hn =>
    -- the plan has an element there
    obtain ⟨⟨i, hentry, -⟩, -⟩ := hm.pre ht
    cases hn.symm.trans (hm.entry i hentry)

/-- **One step** keeps the invariant. -/
theorem Inv.next (hi : Inv test Q myHash cfg hash fl s) (hs : s.step test myHash cfg hash fl a = some s') :
    Inv test Q myHash cfg hash fl s' := by
  rcases step_cases hs with ⟨b, rTable, hb, hstep, rfl⟩ | ⟨-, hbeside⟩
  · have hacts := acts_of_tableAct hb
    refine ⟨?_, hi.main_step hacts hstep, ?_, fun t => ?_, fun t i h => ?_⟩
    · rw [after_rTable]
      exact hi.table_step hacts hstep
    · rw [after_rTable]
      exact hi.waiting_step hacts hstep
    · rw [after_rTable, after_reader]
      exact readsAt_step (hi.reads t) hacts hstep
    · rw [after_reader] at h
      rw [after_started]
      exact hi.running_step hacts hstep h
  · exact hi.beside hbeside

/-- What the main thread knows of a table that has just been set up. -/
def State.plan (s : State T φ) : Plan :=
  ⟨fun _ => False, fun k => s.rTable.heap.key (.node k), none, false, some s.rTable.heap.nrBuckets⟩

theorem inv_start (hs : s.Init test cfg) (hg : Goes test test.script Q s.plan) :
    Inv test Q myHash cfg hash fl s := by
  have htable : ∃ g, RcuTable.Inv cfg hash fl (valKeys myHash).allow s.rTable g ∧ ∀ p, ¬ g.Linked p :=
    inv_init hs.rTable
  obtain ⟨g, hinv, hempty⟩ := htable
  have hmeets : Meets s.rTable.heap s.plan := by
    refine ⟨fun q => ?_, fun _ => rfl, fun k hk => hk.elim, fun n hn => Option.some.inj hn⟩
    rw [hinv.rep.linked_heap]
    exact ⟨fun hq => absurd hq (hempty q), fun ⟨k, hk, _⟩ => hk.elim⟩
  refine ⟨⟨g, hinv, keysOk_stable.empty _ _ hempty⟩, ⟨s.plan, ?_, fun h => (by cases h), hs.started.symm,
    fun i h => (by cases h), hs.broken, fun _ => ⟨hs.rTable.writer, hmeets⟩, fun h => ?_⟩, hs.rTable.waiting,
    fun t => ?_, fun t i h => ?_⟩
  · rw [hs.todo]
    exact hg
  · cases hs.calling.symm.trans h
  · rw [hs.rTable.reader t, hs.reader t]
    rfl
  · rw [hs.reader t] at h
    cases h

/-- While the readers run, what they look up is there. -/
theorem Inv.kept (hi : Inv test Q myHash cfg hash fl s) (hs : s.started = true) {k : ℕ} (hk : k < test.nrKept) :
    s.rTable.heap.Linked (.node k) ∧ (s.rTable.heap.key (.node k)).v = k ∧
      test.inside true (s.rTable.heap.key (.node k)).valid = true := by
  obtain ⟨e, hm⟩ := hi.main
  obtain ⟨hl, hvalid⟩ := hm.kept (hm.started.trans hs) k hk
  cases hc : s.calling with
  | false =>
    obtain ⟨-, he⟩ := hm.rest hc
    rw [he.arr]
    exact ⟨(he.linked _).mpr ⟨k, hl, rfl⟩, he.value k hl, hvalid⟩
  | true =>
    -- the call leaves the element in the table, and it is not the one that the call brings in
    obtain ⟨c, cs, op, ht, hop, hp⟩ := hm.call hc
    obtain ⟨hpre, -⟩ := hm.pre ht
    obtain ⟨hl', hvalid'⟩ := hm.kept.post hpre ((post_started hop).trans (hm.started.trans hs)) k hk
    obtain ⟨g, hinv, -⟩ := hi.table
    have hlinked : s.rTable.heap.Linked (.node k) ∨ op.own (.node k) :=
      hp.linked hinv fun _ _ hq => (hq.2.linked _).mpr ⟨k, hl', rfl⟩
    refine ⟨hlinked.resolve_right fun hown => ?_, ?_⟩
    · obtain ⟨i, hnot, hik⟩ := Cmd.own_free hop hpre hown
      injection hik with hik
      exact hnot (hik ▸ hl)
    · obtain ⟨-, res, h', -, -, hkey, -, he⟩ := hp
      rw [← hkey, he.arr]
      exact ⟨he.value k hl', hvalid'⟩

end Invariant

end Stress

end RcuTable
