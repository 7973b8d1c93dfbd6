import RcuTable.Zone.Effect

/-!
# Zone.Accounting — registration and the reader counters

`rcuReadLock` and `rcuReadUnlock` each fetch the bucket of the calling thread anew.  A registration that
takes effect between the two changes that bucket, so the unlock decrements another counter than the lock
incremented; and a registration after `nextBucketId` has wrapped gives the thread a bucket in front of the
row.  `countersExact_iff`: the books of a run are exact if and only if no unlock and no lock of the run
comes after such a registration.
-/

namespace RcuTable

open Trans

namespace Zone

variable {T W : Type} [DecidableEq T] {cfg : ZoneCfg} {hash : T → ℕ}

/-- A call of `rcuRegisterReaderThread` by `t` would leave its bucket as it is: the thread is registered,
no bucket is left, or the id counter has wrapped around to the not-registered marker. -/
def RegistersNothing (cfg : ZoneCfg) (z : Zone T W) (t : T) : Prop :=
  z.tlsReaderBucketId t ≠ -1 ∨ (cfg.nrNonOverlappingBucketCount : ℤ) ≤ z.nextBucketId ∨
    z.nextBucketId = -1

theorem register_tls_self {z : Zone T W} {t : T} (h : RegistersNothing cfg z t) :
    (rcuRegisterReaderThread cfg z t).2.tlsReaderBucketId t = z.tlsReaderBucketId t := by
  unfold rcuRegisterReaderThread
  dsimp only
  split_ifs with h1 h2
  · rfl
  · rfl
  · rcases h with h | h | h
    · exact absurd h h1
    · exact absurd h h2
    · simp [h, not_not.mp h1]

theorem register_tls_new {z : Zone T W} {t : T} (h : ¬ RegistersNothing cfg z t) :
    (rcuRegisterReaderThread cfg z t).2.tlsReaderBucketId t = z.nextBucketId := by
  unfold RegistersNothing at h
  push Not at h
  unfold rcuRegisterReaderThread
  dsimp only
  rw [if_neg (by simp [h.1]), if_neg (by omega)]
  simp

/-! ### Runs -/

section Runs

variable [DecidableEq W] {init : Zone T W → Prop} (r : Run (step cfg hash) init)

/-- A registration has taken effect on `t` during the lock that it holds before step `i`. -/
def RegisteredInside (t : T) (i : ℕ) : Prop :=
  ∃ j < i, r.act j = .register t ∧ ¬ RegistersNothing cfg (r.state j) t ∧
    ∀ k, j ≤ k → k ≤ i → ((r.state k).reader t).Inside

/-- No unlock ends a lock during which its thread has been registered, and no thread locks with a negative
bucket id other than the not-registered marker. -/
structure RegisteredInTime : Prop where
  unlock : ∀ i < r.len, ∀ t, r.act i = .unlock t → ¬ RegisteredInside r t i
  lock : ∀ i < r.len, ∀ t, r.act i = .lock t → -1 ≤ (r.state i).tlsReaderBucketId t

/-- Exact reader counters: what the locks and unlocks of the zone promise about them. -/
structure CountersExact [Fintype T] : Prop where
  /-- each `rcuReadUnlock` decrements the counter that its `rcuReadLock` incremented -/
  unlock : ∀ i < r.len, ∀ t b e, r.act i = .unlock t → (r.state i).reader t = .inside b e →
    slot cfg e (fetchThreadBucketId cfg hash (r.state i) t) = slot cfg e b
  /-- every lock is attempted through a counter of the row -/
  inRow : ∀ i ≤ r.len, ∀ t b, ((r.state i).reader t).bucket = some b → 0 ≤ b ∧ b < nrBucketsPerEpoch cfg
  /-- each counter equals the number of threads that hold or attempt a lock through it -/
  accounted : ∀ i ≤ r.len, Accounted cfg (r.state i)
  nonneg : ∀ i ≤ r.len, ∀ c, 0 ≤ (r.state i).count c
  zero : ∀ i ≤ r.len, (∀ t, (r.state i).reader t = .idle) → ∀ c, (r.state i).count c = 0

end Runs

/-! ### The registry along a run -/

section Registry

variable [DecidableEq W] {z z' : Zone T W} {a : ZoneAct T W} {t : T}

omit [DecidableEq T] [DecidableEq W] in
theorem fetch_inRow (h0 : -1 ≤ z.tlsReaderBucketId t)
    (h1 : z.tlsReaderBucketId t < cfg.nrNonOverlappingBucketCount) :
    0 ≤ fetchThreadBucketId cfg hash z t ∧ fetchThreadBucketId cfg hash z t < nrBucketsPerEpoch cfg := by
  have hh := hashBucket_lt cfg (hash t)
  unfold fetchThreadBucketId nrBucketsPerEpoch
  split_ifs with hreg <;> omega

/-- No thread has a bucket behind those of the registered threads. -/
theorem Effect.tls_lt (h : Effect cfg hash z a z')
    (hz : ∀ t, z.tlsReaderBucketId t < cfg.nrNonOverlappingBucketCount) (t : T) :
    z'.tlsReaderBucketId t < cfg.nrNonOverlappingBucketCount := by
  by_cases hat : a = .register t
  · subst hat
    cases h with
    | register _ _ =>
      by_cases hno : RegistersNothing cfg z t
      · rw [register_tls_self hno]
        exact hz t
      · rw [register_tls_new hno]
        unfold RegistersNothing at hno
        push Not at hno
        exact hno.2.1
  · rw [h.tls t hat]
    exact hz t

/-- A registered thread stays registered, with its bucket. -/
theorem Effect.tls_kept (h : Effect cfg hash z a z') (ht : z.tlsReaderBucketId t ≠ -1) :
    z'.tlsReaderBucketId t = z.tlsReaderBucketId t := by
  by_cases hat : a = .register t
  · subst hat
    cases h with
    | register _ _ => exact register_tls_self (Or.inl ht)
  · exact h.tls t hat

/-- An unregistered thread is in a lock through the bucket of its hash. -/
theorem Effect.hashed (h : Effect cfg hash z a z')
    (hz : ∀ b, (z.reader t).bucket = some b → z.tlsReaderBucketId t = -1 →
      fetchThreadBucketId cfg hash z t = b) {b : ℤ} (hb : (z'.reader t).bucket = some b)
    (ht : z'.tlsReaderBucketId t = -1) : fetchThreadBucketId cfg hash z' t = b := by
  have ht0 : z.tlsReaderBucketId t = -1 := by
    by_contra hne
    exact hne ((h.tls_kept hne).symm.trans ht)
  rw [fetchThreadBucketId_congr cfg (ht.trans ht0.symm)]
  rcases h.bucket hb with hold | ⟨-, hnew⟩
  · exact hz b hold ht0
  · exact hnew

end Registry

section Points

variable [DecidableEq W] {z z' : Zone T W} {a : ZoneAct T W} {t : T}

theorem Effect.tls_register (h : Effect cfg hash z a z') (ha : a = .register t)
    (hno : RegistersNothing cfg z t) : z'.tlsReaderBucketId t = z.tlsReaderBucketId t := by
  subst ha
  cases h with
  | register _ _ => exact register_tls_self hno

/-- A thread that registers between its lock and its unlock stays there. -/
theorem Effect.register_inside (h : Effect cfg hash z a z') (ha : a = .register t)
    (hb : (z.reader t).bucket ≠ none) : z'.reader t = z.reader t ∧ (z.reader t).Inside := by
  subst ha
  cases h with
  | register _ hpc =>
    refine ⟨by simp, hpc.resolve_left fun hidle => hb ?_⟩
    rw [hidle]
    rfl

theorem Effect.unlocked (h : Effect cfg hash z a z') (ha : a = .unlock t) : z'.reader t = .idle := by
  subst ha
  cases h with
  | unlock _ b e _ => simp

theorem Effect.locked (h : Effect cfg hash z a z') (ha : a = .lock t) :
    (z'.reader t).bucket = some (fetchThreadBucketId cfg hash z t) := by
  subst ha
  cases h with
  | lock _ _ => simp [ReaderPc.bucket]

end Points

section Runs

variable [DecidableEq W] {r : Run (step cfg hash) (Init (W := W) cfg)} {t : T} {i j : ℕ}

theorem tls_lt_of_run (r : Run (step cfg hash) (Init (W := W) cfg)) : ∀ i ≤ r.len, ∀ t,
    (r.state i).tlsReaderBucketId t < cfg.nrNonOverlappingBucketCount := by
  refine r.invariant (P := fun z => ∀ t, z.tlsReaderBucketId t < cfg.nrNonOverlappingBucketCount) ?_ ?_
  · intro z hz t
    rcases hz.tls t with ht | ht <;> omega
  · exact fun i hi hz => (effect_of_step (r.next i hi)).tls_lt hz

theorem hashed_of_run (r : Run (step cfg hash) (Init (W := W) cfg)) : ∀ i ≤ r.len, ∀ t b,
    ((r.state i).reader t).bucket = some b → (r.state i).tlsReaderBucketId t = -1 →
      fetchThreadBucketId cfg hash (r.state i) t = b := by
  refine r.invariant (P := fun z => ∀ t b, (z.reader t).bucket = some b → z.tlsReaderBucketId t = -1 →
    fetchThreadBucketId cfg hash z t = b) ?_ ?_
  · intro z hz t b hb
    rw [hz.reader t] at hb
    cases hb
  · exact fun i hi hz t b => (effect_of_step (r.next i hi)).hashed (hz t)

theorem RegisteredInside.inside (h : RegisteredInside r t i) :
    ((r.state i).reader t).Inside := by
  obtain ⟨j, hji, -, -, hin⟩ := h
  exact hin i hji.le le_rfl

/-- An unlock behind a registration inside its lock goes through another bucket. -/
theorem RegisteredInside.fetch_ne (h : RegisteredInside r t i) (hi : i ≤ r.len) {b : ℤ} {e : ℕ}
    (ht : (r.state i).reader t = .inside b e) : fetchThreadBucketId cfg hash (r.state i) t ≠ b := by
  obtain ⟨j, hji, hact, hno, hin⟩ := h
  -- the lock has not changed since the registration
  obtain ⟨b', e', hj⟩ := hin j le_rfl hji.le
  have hsame : ∀ k, j ≤ k → k ≤ i → (r.state k).reader t = .inside b' e' := by
    intro k hjk hki
    refine r.window hjk (hki.trans hi) (P := fun k => (r.state k).reader t = .inside b' e') hj ?_
    intro m hjm hmk hstep hm
    refine (effect_of_step hstep).stays_inside hm fun hun => ?_
    obtain ⟨b2, e2, hnext⟩ := hin (m + 1) (by omega) (by omega)
    rw [hun] at hstep
    simp only [Zone.step, hm, Option.some.injEq] at hstep
    rw [← hstep] at hnext
    simp at hnext
  obtain ⟨rfl, rfl⟩ := ReaderPc.inside.inj ((hsame i hji.le le_rfl).symm.trans ht)
  -- nor has the bucket that the registration gave
  have hstep := effect_of_step (r.next j (by omega))
  have hnew : (r.state (j + 1)).tlsReaderBucketId t = (r.state j).nextBucketId := by
    rw [hact] at hstep
    generalize r.state (j + 1) = z' at hstep ⊢
    cases hstep with
    | register _ _ => exact register_tls_new hno
  unfold RegistersNothing at hno
  push Not at hno
  have hkept : (r.state i).tlsReaderBucketId t = (r.state j).nextBucketId := by
    refine r.window (show j + 1 ≤ i from hji) hi
      (P := fun k => (r.state k).tlsReaderBucketId t = (r.state j).nextBucketId) hnew ?_
    intro k _ _ hk hm
    rw [(effect_of_step hk).tls_kept (by rw [hm]; exact hno.2.2), hm]
  have hold := hashed_of_run r j (by omega) t b' (by rw [hj]; rfl) hno.1
  rw [fetchThreadBucketId, if_neg (by simp [hno.1])] at hold
  rw [fetchThreadBucketId, hkept, if_pos hno.2.2]
  omega

/-- Within a lock the bucket changes by a registration only. -/
theorem bucket_of_run (r : Run (step cfg hash) (Init (W := W) cfg)) : ∀ i ≤ r.len, ∀ t b,
    ((r.state i).reader t).bucket = some b →
      fetchThreadBucketId cfg hash (r.state i) t = b ∨ RegisteredInside r t i
  | 0, _, t, b, hb => by
    rw [r.start.reader t] at hb
    cases hb
  | i + 1, hi, t, b, hb => by
    have he := effect_of_step (r.next i hi)
    have hkeep : (r.state (i + 1)).tlsReaderBucketId t = (r.state i).tlsReaderBucketId t →
        fetchThreadBucketId cfg hash (r.state i) t = b →
        fetchThreadBucketId cfg hash (r.state (i + 1)) t = b ∨ RegisteredInside r t (i + 1) :=
      fun htls hf => Or.inl ((fetchThreadBucketId_congr cfg htls).trans hf)
    rcases he.bucket hb with hold | ⟨hl, hnew⟩
    · rcases bucket_of_run r i (by omega) t b hold with hf | ⟨j, hj, hact, hno, hin⟩
      · by_cases hat : r.act i = .register t
        · by_cases hno : RegistersNothing cfg (r.state i) t
          · exact hkeep (he.tls_register hat hno) hf
          · obtain ⟨hsame, hin⟩ := he.register_inside hat (by rw [hold]; simp)
            refine Or.inr ⟨i, Nat.lt_succ_self i, hat, hno, fun k hik hki => ?_⟩
            obtain rfl | rfl : k = i ∨ k = i + 1 := by omega
            · exact hin
            · rwa [hsame]
        · exact hkeep (he.tls t hat) hf
      · obtain ⟨b', e', ht⟩ := hin i hj.le le_rfl
        have hun : r.act i ≠ .unlock t := fun hun => by rw [he.unlocked hun] at hb; cases hb
        refine Or.inr ⟨j, by omega, hact, hno, fun k hjk hki => ?_⟩
        obtain hki | rfl : k ≤ i ∨ k = i + 1 := by omega
        · exact hin k hjk hki
        · exact ⟨b', e', he.stays_inside ht hun⟩
    · exact hkeep (he.tls t (by rw [hl]; simp)) hnew

variable [Fintype T]

theorem RegisteredInTime.accounted (hr : RegisteredInTime r) : ∀ i ≤ r.len, Accounted cfg (r.state i)
  | 0, _ => by
    intro c
    rw [r.start.count c]
    exact (tally_eq_zero fun t => by rw [r.start.reader t]; simp [Holds]).symm
  | i + 1, hi => by
    refine (hr.accounted i (by omega)).step (effect_of_step (r.next i hi)) fun t b e hact ht => ?_
    exact (bucket_of_run r i (by omega) t b (by rw [ht]; rfl)).resolve_right (hr.unlock i hi t hact)

omit [Fintype T] in
theorem RegisteredInTime.inRow (hr : RegisteredInTime r) : ∀ i ≤ r.len, ∀ t b,
    ((r.state i).reader t).bucket = some b → 0 ≤ b ∧ b < nrBucketsPerEpoch cfg
  | 0, _, t, b, hb => by
    rw [r.start.reader t] at hb
    cases hb
  | i + 1, hi, t, b, hb => by
    rcases (effect_of_step (r.next i hi)).bucket hb with hold | ⟨hl, rfl⟩
    · exact hr.inRow i (by omega) t b hold
    · exact fetch_inRow (hr.lock i hi t hl) (tls_lt_of_run r i (by omega) t)

/-- **Reader counters**: the counters of a run are exact if and only if no registration takes effect during
a lock that is unlocked later, and no thread locks with a bucket id from a counter that had wrapped. -/
theorem countersExact_iff (r : Run (step cfg hash) (Init (W := W) cfg)) :
    CountersExact r ↔ RegisteredInTime r := by
  constructor
  · intro h
    refine ⟨fun i hi t hact hin => ?_, fun i hi t hact => ?_⟩
    · obtain ⟨b, e, ht⟩ := hin.inside
      exact hin.fetch_ne hi.le ht (slot_inj cfg (h.unlock i hi t b e hact ht))
    · by_contra hneg
      have hlocked := (effect_of_step (r.next i hi)).locked hact
      have hrow := h.inRow (i + 1) hi t _ hlocked
      rw [fetchThreadBucketId, if_pos (by omega)] at hrow
      omega
  · intro hr
    have hacc := hr.accounted
    refine ⟨fun i hi t b e hact ht => ?_, hr.inRow, hacc, fun i hi c => ?_, fun i hi hidle c => ?_⟩
    · rw [(bucket_of_run r i hi.le t b (by rw [ht]; rfl)).resolve_right (hr.unlock i hi t hact)]
    · rw [hacc i hi c]
      exact tally_nonneg _
    · rw [hacc i hi c]
      exact tally_eq_zero fun t => by rw [hidle t]; simp [Holds]

end Runs

/-! ### A registration inside a critical section -/

/-- One hash bucket and one bucket for registered threads. -/
def tinyCfg : ZoneCfg := ⟨1, 1, by decide⟩

/-- A zone right after initialization, with no thread registered. -/
def freshZone (T W : Type) : Zone T W where
  tlsReaderBucketId _ := -1
  nextBucketId := 0
  count _ := 0
  epochLatest := 0
  epochOldest := 0
  reader _ := .idle
  sync _ := .idle

omit [DecidableEq T] in
theorem freshZone_init : Init cfg (freshZone T W) :=
  ⟨fun _ => Or.inl rfl, le_rfl, fun _ => rfl, rfl, rfl, fun _ => rfl, fun _ => rfl⟩

/-- A thread locks, registers while it holds the lock, and unlocks. -/
def lateRegistration : Run (step tinyCfg fun _ : Unit => 0) (Init (W := Unit) tinyCfg) :=
  Run.ofActs (freshZone Unit Unit)
    [.lock (), .read (), .read (), .read (), .register (), .unlock ()] freshZone_init (by decide)

/-- After `lateRegistration` no thread holds a lock, one counter is positive and another negative. -/
theorem lateRegistration_breaks_counters : ¬ CountersExact lateRegistration := by
  intro h
  have h1 := h.nonneg 6 (by decide) 0
  revert h1
  decide

end Zone

end RcuTable
