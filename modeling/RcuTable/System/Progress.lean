import RcuTable.Lib.Cost
import RcuTable.Zone.Progress
import RcuTable.System.Linearize

/-!
# System.Progress — the writer's calls come to their end

A call of the writer is never stuck: until it returns, its next operation is there to be taken, whatever the
readers do.  It takes as many steps as it would take alone, apart from the spinning in its `rcuSynchronize`s
(`writer_bounded`), and it spins only for a thread that was in `rcuReadLock` or in its critical section when
that `rcuSynchronize` began.
-/

namespace RcuTable

open Atomic Trans

variable {T K φ : Type}

/-- What an operation of the writer counts for: `rcuSynchronize` for its steps other than spinning. -/
def Act.steps (cfg : ZoneCfg) : {β : Type} → Act K φ β → ℕ
  | _, .rcuSynchronize => Zone.nrBucketsPerEpoch cfg + 6
  | _, _ => 1

/-- A step of the writer that does not spin. -/
def TableAct.Works (cfg : ZoneCfg) (s : TableSys T K φ) : TableAct T K φ → Prop
  | .write => Zone.Works cfg s.zone () (.sync ())
  | _ => False

instance [DecidableEq T] (cfg : ZoneCfg) (s : TableSys T K φ) : DecidablePred (TableAct.Works cfg s)
  | .write => inferInstanceAs (Decidable (Zone.Works cfg s.zone () (.sync ())))
  | .lock _ | .enter _ | .unlock _ | .begin _ _ _ | .read _ | .finish _ | .call _ | .return | .prepare _ _ _ =>
    isFalse fun h => h

/-- The number of the writer's steps in the window from `i` to `j` other than spinning. -/
def writeSteps [DecidableEq T] {cfg : ZoneCfg} {hash : T → ℕ} {fl : FloatOps φ} (r : TableRun K cfg hash fl)
    (i j : ℕ) : ℕ :=
  among (fun k => (r.act k).Works cfg (r.state k)) i j

/-- How far the zone is in a call of `rcuSynchronize`, if any. -/
def Waited (cfg : ZoneCfg) (z : Zone T Unit) (d : ℕ) : Prop :=
  z.sync () = .idle ∧ d = 0 ∨ z.sync () ≠ .idle ∧ Zone.SyncDone cfg z d (z.sync ())

/-- The writer's call of `op` has taken `n` of the `total` steps that it takes. -/
def Spent (cfg : ZoneCfg) (s : TableSys T K φ) (op : Op K φ) (n total : ℕ) : Prop :=
  ∃ p c d, s.writer = some (op, p) ∧ p.Costs exec (Act.steps cfg) s.heap c ∧ Waited cfg s.zone d ∧
    n + c = total + d

section Steps

variable [DecidableEq T] {cfg : ZoneCfg} {hash : T → ℕ} {fl : FloatOps φ} {s s' : TableSys T K φ}
  {a : TableAct T K φ} {z z' : Zone T Unit} {d : ℕ}

omit [DecidableEq T] in
theorem Waited.congr (h : Waited cfg z d) (hsync : z'.sync = z.sync) (ho : z'.epochOldest = z.epochOldest) :
    Waited cfg z' d := by
  unfold Waited at h ⊢
  rw [hsync]
  exact h.imp_right fun h => ⟨h.1, h.2.congr ho⟩

omit [DecidableEq T] in
theorem works_of_idle (h : z.sync () = .idle) : Zone.Works cfg z () (.sync ()) :=
  Zone.works_of_scanned (by simp [Zone.scanned, h])

theorem nrWorks_write : (if TableAct.Works cfg s .write then 1 else 0) =
    if Zone.Works cfg s.zone () (.sync ()) then 1 else 0 := rfl

/-- One step of `rcuSynchronize`. -/
theorem Waited.sync (h : Waited cfg z d) (hs : Zone.Serial z) :
    ∃ d', d' = d + (if Zone.Works cfg z () (.sync ()) then 1 else 0) ∧
      Zone.SyncDone cfg (Zone.rcuSynchronize cfg z ()) d' ((Zone.rcuSynchronize cfg z ()).sync ()) := by
  refine ⟨_, rfl, ?_⟩
  rcases h with ⟨hidle, rfl⟩ | ⟨hne, hd⟩
  · have hquiet := hs.quiet fun _ => hidle
    rw [if_pos (works_of_idle hidle)]
    simp [Zone.rcuSynchronize, hidle, Zone.SyncDone, hquiet]
  · exact Zone.SyncDone.sync (hs.pc ()) hne hd

/-- The zone moves as its readers and its synchronizer do. -/
theorem TableSys.zone_step (hs : s.step cfg hash fl a = some s') :
    s'.zone = s.zone ∨ ∃ b, Zone.Effect cfg hash s.zone b s'.zone := by
  cases TableSys.step_cases hs with
  | lock hz | enter hz | unlock _ hz => exact .inr ⟨_, Zone.effect_of_step hz⟩
  | wait | synchronized => exact .inr ⟨_, Zone.effect_of_sync _ _⟩
  | begin | read | finish | call | store | «return» | prepare => exact .inl rfl

variable [Fintype T] {allow : Heap K φ → View → Ptr → Prop} {g : View} {op : Op K φ} {n total : ℕ}

/-- What the program does next counts for a whole `rcuSynchronize`, or for one step. -/
theorem weight_of_afterSynchronize {p p' : Code K φ Res} (hp : afterSynchronize p = some p') :
    p.weight (Act.steps cfg) = Zone.nrBucketsPerEpoch cfg + 6 := by
  cases p with
  | ret | iter => cases hp
  | act a k =>
    cases a with
    | rcuSynchronize => rfl
    | _ => cases hp

theorem weight_of_step {p p' : Code K φ Res} {h h' : Heap K φ} (hp : afterSynchronize p = none)
    (hs : p.step exec h = some (p', h')) : p.weight (Act.steps cfg) = 1 := by
  cases p with
  | ret => cases hs
  | iter => rfl
  | act a k =>
    cases a with
    | rcuSynchronize => cases hp
    | _ => rfl

omit [DecidableEq T] [Fintype T] in
/-- The zone is quiet while the program is not at an `rcuSynchronize`. -/
theorem Calling.idle {h : Heap K φ} {W : List Ptr} {pc : SyncPc} {p : Code K φ Res}
    (hc : Calling allow fl h g W pc op p) (hp : afterSynchronize p = none) : pc = .idle := by
  by_contra hne
  have := hc.sync hne
  rw [hp] at this
  cases this

theorem Inv.calling (hi : Inv cfg hash fl allow s g) {p : Code K φ Res} (hw : s.writer = some (op, p)) :
    Calling allow fl s.heap g s.waiting (s.zone.sync ()) op p := by
  have h1 := hi.writer
  rwa [hw] at h1

theorem Spent.begins (hi : Inv cfg hash fl allow s g) (hs : s.step cfg hash fl (.call op) = some s')
    (hc : (op.code fl).Costs exec (Act.steps cfg) s.heap total) : Spent cfg s' op 0 total := by
  cases TableSys.step_cases hs with
  | call hw =>
    have hrest : Resting s.heap g s.waiting (s.zone.sync ()) := by
      have h1 := hi.writer
      rwa [hw] at h1
    exact ⟨_, total, 0, rfl, hc, .inl ⟨hrest.sync, rfl⟩, by omega⟩

/-- **The step of a call**: it has one step more behind it, if the action is one of the writer's that works. -/
theorem Spent.step (h : Spent cfg s op n total) (hi : Inv cfg hash fl allow s g) (ha : a ≠ .return)
    (hs : s.step cfg hash fl a = some s') :
    Spent cfg s' op (n + if a.Works cfg s then 1 else 0) total := by
  obtain ⟨p, c, d, hw, hc, hd, hn⟩ := h
  -- the readers' steps
  have hreader : s'.writer = s.writer → s'.heap = s.heap → Waited cfg s'.zone d → ¬ a.Works cfg s →
      Spent cfg s' op (n + if a.Works cfg s then 1 else 0) total := by
    intro h1 h2 h3 h4
    rw [if_neg h4]
    exact ⟨p, c, d, by rw [h1, hw], by rwa [h2], h3, hn⟩
  have hcall := hi.calling hw
  have hserial := hi.zone.serial
  cases TableSys.step_cases hs with
  | lock hz | enter hz | unlock _ hz =>
    have he := (Zone.effect_of_step hz).readers (by simp)
    exact hreader rfl rfl (hd.congr he.1 he.2) id
  | begin | finish => exact hreader rfl rfl hd id
  | @read t _ _ _ hf hstep => exact hreader rfl ((hi.pointed t).step_heap hf hstep) hd id
  | call hnone | prepare hnone => cases hnone.symm.trans hw
  | wait _ _ hz =>
    obtain ⟨d', hd', hdone⟩ := hd.sync hserial
    exact ⟨p, c, d', hw, hc, .inr ⟨hz, hdone⟩, by rw [hd', nrWorks_write]; omega⟩
  | @synchronized _ _ p' hw' hafter hz =>
    obtain ⟨rfl, rfl⟩ := Prod.mk.inj (Option.some.inj (hw.symm.trans hw'))
    obtain ⟨d', hd', hdone⟩ := hd.sync hserial
    rw [hz] at hdone
    have hwhole : d' = Zone.nrBucketsPerEpoch cfg + 6 := hdone
    obtain ⟨c', hc', hcc⟩ := hc.step (step_of_afterSynchronize hafter)
    rw [weight_of_afterSynchronize hafter] at hcc
    exact ⟨p', c', 0, rfl, hc', .inl ⟨hz, rfl⟩, by rw [nrWorks_write]; omega⟩
  | @store _ _ p' _ hw' hafter hstep =>
    obtain ⟨rfl, rfl⟩ := Prod.mk.inj (Option.some.inj (hw.symm.trans hw'))
    have hidle := hcall.idle hafter
    obtain ⟨-, rfl⟩ := hd.resolve_right fun h => h.1 hidle
    obtain ⟨c', hc', hcc⟩ := hc.step hstep
    rw [weight_of_step hafter hstep] at hcc
    have hworks : TableAct.Works cfg s .write := works_of_idle hidle
    rw [if_pos hworks]
    exact ⟨p', c', 0, rfl, hc', .inl ⟨hidle, rfl⟩, by omega⟩
  | «return» => exact absurd rfl ha

/-- What is left of a call: nothing, or a step that is there to be taken. -/
theorem Spent.progress (h : Spent cfg s op n total) (hi : Inv cfg hash fl allow s g) :
    ∃ p, s.writer = some (op, p) ∧ ((∃ res, p = .ret res) ∧ n = total ∨
      n < total ∧ (s.step cfg hash fl .write).isSome) := by
  obtain ⟨p, c, d, hw, hc, hd, hn⟩ := h
  have hcall := hi.calling hw
  refine ⟨p, hw, ?_⟩
  obtain ⟨h0, g0, -, hsim, -⟩ := hcall.sim
  rcases hsim.progress with ⟨res, rfl, -⟩ | hstep
  · obtain ⟨-, rfl⟩ := hd.resolve_right fun h => h.1 (hcall.idle rfl)
    obtain rfl := Prog.costs_ret.mp hc
    exact .inl ⟨⟨res, rfl⟩, by omega⟩
  · refine .inr ⟨?_, TableSys.write_isSome hw hstep⟩
    obtain ⟨⟨p', h'⟩, hstep⟩ := Option.isSome_iff_exists.mp hstep
    obtain ⟨c', -, hcc⟩ := hc.step hstep
    cases hafter : afterSynchronize p with
    | none =>
      obtain ⟨-, rfl⟩ := hd.resolve_right fun h => h.1 (hcall.idle hafter)
      rw [weight_of_step hafter hstep] at hcc
      omega
    | some p' =>
      rw [weight_of_afterSynchronize hafter] at hcc
      have hlt : d < Zone.nrBucketsPerEpoch cfg + 6 := by
        rcases hd with ⟨-, rfl⟩ | ⟨hne, hdone⟩
        · omega
        · exact hdone.lt hne
      omega

end Steps

/-! ### Runs -/

section Runs

variable [Fintype T] [DecidableEq T] {cfg : ZoneCfg} {hash : T → ℕ} {fl : FloatOps φ}

omit [Fintype T] in
theorem epochsRead_of_run (r : TableRun K cfg hash fl) : ∀ i ≤ r.len, Zone.EpochsRead (r.state i).zone := by
  refine r.invariant (P := fun s => Zone.EpochsRead s.zone) ?_ ?_
  · intro s hs t e he
    simp [hs.zone.reader t, Zone.epochRead] at he
  · intro i hi h
    rcases TableSys.zone_step (r.next i hi) with hsame | ⟨b, he⟩
    · rwa [hsame]
    · exact h.step he

/-- **The writer is bounded by the old readers.**  In every schedule a call that has not returned either is at
its return, having taken the `n` steps that it takes alone, or has taken fewer and its next one is there to
be taken; the steps that spin are not counted, and each of them finds a thread that holds the counter and read
`epochLatest` before this `rcuSynchronize` began. -/
theorem writer_bounded (r : TableRun K cfg hash fl) (hc : ∀ i < r.len, (r.state i).Contract (r.act i)) {i : ℕ}
    (hi : i < r.len) {op : Op K φ} (hact : r.act i = .call op) :
    ∃ n, (op.code fl).Costs exec (Act.steps cfg) (r.state i).heap n ∧
      ∀ j, i < j → j ≤ r.len → (∀ k < j, i < k → r.act k ≠ .return) →
        (∃ p, (r.state j).writer = some (op, p) ∧ ((∃ res, p = .ret res) ∧ writeSteps r i j = n ∨
          writeSteps r i j < n ∧ ((r.state j).step cfg hash fl .write).isSome)) ∧
        ∀ c ∈ Zone.scanned cfg (r.state j).zone (), 0 < (r.state j).zone.count c →
          ∃ t, Zone.Holds cfg c ((r.state j).zone.reader t) ∧
            Zone.Old (r.state j).zone.epochOldest ((r.state j).zone.reader t) := by
  have hl := lawful_of_contract hc
  have hbegin := r.next i hi
  rw [hact] at hbegin
  obtain ⟨-, hw, hheap⟩ := TableSys.call_begins hbegin
  obtain ⟨g0, hinv0, -⟩ := hl.exists_inv i hi.le
  obtain ⟨g1, hinv1, -⟩ := hl.exists_inv (i + 1) hi
  obtain ⟨h0, g0', -, hsim, -⟩ := (hinv1.calling hw).sim
  obtain ⟨n, hn⟩ := hsim.costs (Act.steps cfg)
  rw [hheap] at hn
  refine ⟨n, hn, ?_⟩
  intro j hij hj hret
  have hspent : Spent cfg (r.state j) op (writeSteps r i j) n := by
    refine r.window (P := fun j => Spent cfg (r.state j) op (writeSteps r i j) n) (i := i + 1) hij hj ?_ ?_
    · have hzero : writeSteps r i (i + 1) = 0 := by
        unfold writeSteps
        rw [among_one, hact]
        exact if_neg id
      rw [hzero]
      exact .begins hinv0 hbegin hn
    · intro k hk hkj hstep ih
      obtain ⟨g, hinv, -⟩ := hl.exists_inv k (by omega)
      unfold writeSteps at ih ⊢
      rw [among_succ _ _ (by omega)]
      exact ih.step hinv (hret k hkj hk) hstep
  obtain ⟨g, hinv, -⟩ := hl.exists_inv j hj
  refine ⟨hspent.progress hinv, fun c hscan hpos => ?_⟩
  exact (Zone.holder_of_scanned hinv.zone.grace hinv.zone.serial (epochsRead_of_run r j hj) hscan hpos).2

end Runs

/-- The insert of `bothGivenBack` that expands the table takes its 70 steps beside a reader. -/
theorem bothGivenBack_bounded :
    (bothGivenBack.state 22).writer = none ∧ writeSteps bothGivenBack 22 109 = 70 ∧
      ((Op.tryInsert 1 1 natKeys.matches).code ratOps).Costs exec (Act.steps Zone.tinyCfg)
        (bothGivenBack.state 22).heap 70 := by
  have hsteps : writeSteps bothGivenBack 22 109 = 70 := by decide +kernel
  have hnone : (bothGivenBack.state 22).writer.isNone = true := by decide +kernel
  obtain ⟨n, hn, h⟩ := writer_bounded bothGivenBack bothGivenBack_contract (i := 22) (by decide +kernel) rfl
  have hret : ∀ k < 109, 22 < k → bothGivenBack.act k ≠ .return := by
    intro k h1 h2 hact
    have hreturn : ∀ k < 109, 22 < k → (bothGivenBack.act k).isReturn = false := by decide +kernel
    have hk := hreturn k h1 h2
    rw [hact] at hk
    cases hk
  obtain ⟨⟨p, -, ⟨-, hall⟩ | ⟨-, hstep⟩⟩, -⟩ := h 109 (by decide) (by decide +kernel) hret
  · rw [hsteps] at hall
    subst hall
    exact ⟨Option.isNone_iff_eq_none.mp hnone, hsteps, hn⟩
  · -- the call stands at its return
    have hno : ((bothGivenBack.state 109).step Zone.tinyCfg (fun _ => 0) ratOps .write).isSome = false := by
      decide +kernel
    rw [hno] at hstep
    cases hstep

end RcuTable
