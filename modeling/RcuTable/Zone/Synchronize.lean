import RcuTable.Zone.Grace
import RcuTable.Zone.Accounting

/-!
# Zone.Synchronize — what a return of `rcuSynchronize` promises

With serialized calls: the grace period, and the two live epochs in two different rows of the ring.  With
calls that overlap (a zone shared by several tables, each with its own writer): the grace period holds as
long as every increment of `epochOldest` retires the epoch its caller has scanned, and two calls that scan
the same epoch and both increment `epochOldest` skip the next epoch.
-/

namespace RcuTable

open Trans

namespace Zone

variable {T W : Type} [DecidableEq T] [DecidableEq W] [Fintype T] {cfg : ZoneCfg} {hash : T → ℕ}

/-- **RCU grace period**: when the `rcuSynchronize` calls are serialized and no thread registers inside a
lock, each call waits for every earlier reader; the epochs are at most one apart, every reader in a
critical section holds one of the two, and different live epochs use different rows of the ring. -/
theorem rcuSynchronize_grace (r : Run (step cfg hash) (Init (W := W) cfg))
    (hreg : ∀ i < r.len, RegistersApart (r.state i) (r.act i))
    (hser : ∀ i < r.len, SyncsApart (r.state i) (r.act i)) :
    GracePeriods r ∧ ∀ i ≤ r.len,
      ((r.state i).epochOldest ≤ (r.state i).epochLatest ∧
        (r.state i).epochLatest ≤ (r.state i).epochOldest + 1) ∧
      (∀ t b e, (r.state i).reader t = .inside b e →
        e = (r.state i).epochOldest ∨ e = (r.state i).epochLatest) ∧
      ∀ t t' b b' e e', (r.state i).reader t = .inside b e →
        (r.state i).reader t' = .inside b' e' → e ≠ e' → epochRowId e ≠ epochRowId e' := by
  have hs := serial_of_run hser
  have hsafe : ∀ i < r.len, SafeStep (r.state i) (r.act i) := fun i hi =>
    ⟨hreg i hi, (hs i hi.le).retiresScanned _⟩
  have hinv := graceInv_of_run hsafe
  refine ⟨gracePeriods_of_safe hsafe, fun i hi => ?_⟩
  have h1 := (hs i hi).le_add_one
  have hlive := (hinv i hi).live
  refine ⟨⟨(hinv i hi).le, h1⟩, ?_, ?_⟩
  · intro t b e ht
    have := hlive t b e ht
    omega
  · intro t t' b b' e e' ht ht' hne
    have h2 := hlive t b e ht
    have h3 := hlive t' b' e' ht'
    rw [epochRowId_eq, epochRowId_eq]
    omega

/-- A reader locks in epoch 0, a synchronizer begins and spins on its counter, the reader unlocks, and the
synchronizer returns. -/
def loneSynchronize : Run (step tinyCfg fun _ : Unit => 0) (Init (W := Unit) tinyCfg) :=
  Run.ofActs (freshZone Unit Unit)
    [.lock (), .read (), .read (), .read (), .sync (), .sync (), .sync (), .sync (), .sync (),
      .unlock (), .sync (), .sync (), .sync (), .sync ()] freshZone_init (by decide)

theorem loneSynchronize_grace :
    SyncCall loneSynchronize () 4 14 ∧ ((loneSynchronize.state 4).reader ()).Inside ∧
      GracePeriods loneSynchronize :=
  ⟨⟨by decide, by decide, rfl, by decide, by decide, by decide⟩, ⟨1, 0, by decide⟩,
    (rcuSynchronize_grace loneSynchronize (by decide) (by decide)).1⟩

/-! ### A zone shared by several writers -/

/-- **Shared zone**: calls of several synchronizers may overlap; each still waits for every reader that was
in a critical section when it began, in every run whose increments of `epochOldest` all retire the epoch
that the incrementing call has scanned, one that is not younger than the call's `lastEpoch`. -/
theorem sharedZone_grace (r : Run (step cfg hash) (Init (W := W) cfg))
    (hreg : ∀ i < r.len, RegistersApart (r.state i) (r.act i))
    (hret : ∀ i < r.len, RetiresScanned (r.state i) (r.act i)) : GracePeriods r :=
  gracePeriods_of_safe fun i hi => ⟨hreg i hi, hret i hi⟩

/-- A reader holds epoch 0 while two synchronizers begin.  `false` spins on its counter until the reader
unlocks, and retires epoch 0; `true` comes to read `epochOldest` after that, scans epoch 1 and retires it. -/
def overlapInTurn : Run (step tinyCfg fun _ : Unit => 0) (Init (W := Bool) tinyCfg) :=
  Run.ofActs (freshZone Unit Bool)
    [.lock (), .read (), .read (), .read (), .sync false, .sync true, .sync false, .sync false,
      .sync true, .sync false, .sync false, .unlock (), .sync false, .sync false, .sync false,
      .sync true, .sync false, .sync true, .sync true, .sync true, .sync true, .sync true]
    freshZone_init (by decide)

theorem overlapInTurn_grace :
    SyncCall overlapInTurn true 5 22 ∧ ((overlapInTurn.state 5).reader ()).Inside ∧
      (overlapInTurn.state 11).sync false = .scan 0 0 1 ∧ overlapInTurn.act 11 = .unlock () ∧
      GracePeriods overlapInTurn :=
  ⟨⟨by decide, by decide, rfl, by decide, by decide, by decide⟩, ⟨1, 0, by decide⟩, by decide, rfl,
    sharedZone_grace overlapInTurn (by decide) (by decide)⟩

/-- A reader locks between the `fetch_add`s of two synchronizers; both scan epoch 0, both increment
`epochOldest`, and epoch 1, which the reader holds, is never scanned. -/
def overlapScans : Run (step tinyCfg fun _ : Unit => 0) (Init (W := Bool) tinyCfg) :=
  Run.ofActs (freshZone Unit Bool)
    [.sync false, .lock (), .read (), .read (), .read (), .sync true,
      .sync false, .sync true, .sync false, .sync true,
      .sync false, .sync false, .sync false, .sync true, .sync true, .sync true,
      .sync false, .sync true, .sync true] freshZone_init (by decide)

/-- The second call of `overlapScans` returns while the reader is still in its critical section. -/
theorem overlapScans_no_grace :
    (∀ i < overlapScans.len, ∀ t, overlapScans.act i ≠ .register t) ∧
      SyncCall overlapScans true 5 19 ∧ ((overlapScans.state 5).reader ()).Inside ∧
      ((overlapScans.state 19).reader ()).Inside ∧ ¬ GracePeriods overlapScans := by
  have hcall : SyncCall overlapScans true 5 19 :=
    ⟨by decide, by decide, rfl, by decide, by decide, by decide⟩
  have hin : ((overlapScans.state 5).reader ()).Inside := ⟨1, 1, by decide⟩
  refine ⟨by decide, hcall, hin, ⟨1, 1, by decide⟩, ?_⟩
  intro h
  obtain ⟨k, -, hk, hact⟩ := h true 5 19 hcall () hin
  have hno : ∀ k < 19, overlapScans.act k ≠ .unlock () := by decide
  exact hno k hk hact

end Zone

end RcuTable
