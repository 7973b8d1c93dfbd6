import RcuTable.Zone.Accounting

/-!
# Zone.Grace — grace periods

`GraceInv` is the invariant behind `rcuSynchronize`: every reader in a critical section holds an epoch in
`[epochOldest, epochLatest]`, and a synchronizer scanning the row of an epoch it may retire has seen every
bucket below its index free of readers of that epoch.  A transient increment (a reader that will fail its
revalidation) only ever makes a counter larger, so it delays the scan and never falsifies it.  What the
invariant needs of a step is `SafeStep`: no thread changes its bucket inside a lock, and `epochOldest`
moves only past the epoch just scanned.  Serialized calls are safe (`Serial.retiresScanned`); calls that
overlap need not be.
-/

namespace RcuTable

open Trans

namespace Zone

variable {T W : Type} [DecidableEq T] [DecidableEq W] {cfg : ZoneCfg} {hash : T → ℕ}

/-- No unregistered thread registers between its own lock and unlock, and none overflows `nextBucketId`. -/
def RegistersApart (z : Zone T W) : ZoneAct T W → Prop
  | .register t => z.tlsReaderBucketId t = -1 → z.reader t = .idle ∧ z.nextBucketId ≠ 2 ^ 31 - 1
  | _ => True

/-- No `rcuSynchronize` begins while another one is running. -/
def SyncsApart (z : Zone T W) : ZoneAct T W → Prop
  | .sync w => z.sync w = .idle → ∀ w', z.sync w' = .idle
  | _ => True

/-- A synchronizer about to increment `epochOldest` finds in it the epoch `e` whose row it has just
scanned, an epoch not younger than its `lastEpoch`. -/
def RetiresPc (z : Zone T W) : SyncPc → Prop
  | .advance last e => z.epochOldest = e ∧ e ≤ last
  | _ => True

/-- Every increment of `epochOldest` moves it past the epoch its caller has scanned. -/
def RetiresScanned (z : Zone T W) : ZoneAct T W → Prop
  | .sync w => RetiresPc z (z.sync w)
  | _ => True

instance (z : Zone T W) : DecidablePred (RegistersApart z) := fun a => by
  cases a <;> unfold RegistersApart <;> infer_instance

instance [Fintype W] (z : Zone T W) : DecidablePred (SyncsApart z) := fun a => by
  cases a <;> unfold SyncsApart <;> infer_instance

instance (z : Zone T W) : DecidablePred (RetiresPc z) := fun pc => by
  cases pc <;> unfold RetiresPc <;> infer_instance

instance (z : Zone T W) : DecidablePred (RetiresScanned z) := fun a => by
  cases a <;> unfold RetiresScanned <;> infer_instance

/-! ### The registry -/

/-- Every bucket id of the registry is one of the registered threads' buckets. -/
structure RegistryOk (cfg : ZoneCfg) (z : Zone T W) : Prop where
  tls : ∀ t, z.tlsReaderBucketId t = -1 ∨
    0 ≤ z.tlsReaderBucketId t ∧ z.tlsReaderBucketId t < cfg.nrNonOverlappingBucketCount
  next : 0 ≤ z.nextBucketId

omit [DecidableEq T] [DecidableEq W] in
theorem RegistryOk.fetch_range {z : Zone T W} (h : RegistryOk cfg z) (hash : T → ℕ) (t : T) :
    0 ≤ fetchThreadBucketId cfg hash z t ∧
      fetchThreadBucketId cfg hash z t < nrBucketsPerEpoch cfg := by
  have ht := h.tls t
  exact fetch_inRow (by omega) (by omega)

theorem RegistryOk.step {z z' : Zone T W} {a : ZoneAct T W} (h : RegistryOk cfg z)
    (he : Effect cfg hash z a z') (ha : RegistersApart z a) : RegistryOk cfg z' := by
  cases he with
  | register t _ =>
    have h0 := h.next
    unfold rcuRegisterReaderThread
    dsimp only
    split_ifs with h1 h2
    · exact h
    · have hn := (ha (not_not.mp h1)).2
      exact ⟨h.tls, by simp only [incrInt32, if_neg hn]; omega⟩
    · have hn := (ha (not_not.mp h1)).2
      refine ⟨fun t' => ?_, by simp only [incrInt32, if_neg hn]; omega⟩
      by_cases htt : t' = t
      · subst htt
        exact Or.inr (by simp only [Function.update_self]; omega)
      · simp only [Function.update_of_ne htt]
        exact h.tls t'
  | _ => exact ⟨h.tls, h.next⟩

/-! ### The grace-period invariant -/

/-- What a synchronizer knows at its program point. -/
def SyncOk (z : Zone T W) : SyncPc → Prop
  | .idle => True
  | .test last | .row last => last < z.epochLatest
  | .scan last e i =>
    last < z.epochLatest ∧ (e ≤ last → ∀ t b, z.reader t = .inside b e → (i : ℤ) ≤ b)
  | .advance last e => last < z.epochLatest ∧ (e ≤ last → ∀ t b, z.reader t ≠ .inside b e)

structure GraceInv [Fintype T] (cfg : ZoneCfg) (hash : T → ℕ) (z : Zone T W) : Prop where
  registry : RegistryOk cfg z
  bucket : BucketKept cfg hash z
  accounted : Accounted cfg z
  le : z.epochOldest ≤ z.epochLatest
  live : ∀ t b e, z.reader t = .inside b e → z.epochOldest ≤ e ∧ e ≤ z.epochLatest
  sync : ∀ w, SyncOk z (z.sync w)

/-- What a step has to respect for the grace periods to hold. -/
def SafeStep (z : Zone T W) (a : ZoneAct T W) : Prop := RegistersApart z a ∧ RetiresScanned z a

omit [DecidableEq T] [DecidableEq W] in
/-- A synchronizer keeps what it knows when readers of old epochs only leave. -/
theorem SyncOk.mono {z z' : Zone T W} {pc : SyncPc} (h : SyncOk z pc)
    (hl : z.epochLatest ≤ z'.epochLatest)
    (hr : ∀ t b e, e < z.epochLatest → z'.reader t = .inside b e → z.reader t = .inside b e) :
    SyncOk z' pc := by
  cases pc with
  | idle => trivial
  | test last => exact lt_of_lt_of_le h hl
  | row last => exact lt_of_lt_of_le h hl
  | scan last e i =>
    obtain ⟨h1, h2⟩ := h
    exact ⟨lt_of_lt_of_le h1 hl, fun he t b ht => h2 he t b (hr t b e (by omega) ht)⟩
  | advance last e =>
    obtain ⟨h1, h2⟩ := h
    exact ⟨lt_of_lt_of_le h1 hl, fun he t b ht => h2 he t b (hr t b e (by omega) ht)⟩

omit [DecidableEq T] in
/-- Moving one synchronizer to a program point it is entitled to keeps `SyncOk` of all of them. -/
theorem syncOk_setSync {z : Zone T W} {w : W} {pc : SyncPc} (h : ∀ w', SyncOk z (z.sync w'))
    (hpc : SyncOk z pc) : ∀ w', SyncOk (z.setSync w pc) ((z.setSync w pc).sync w') := by
  intro w'
  have key : SyncOk z ((z.setSync w pc).sync w') := by
    by_cases hw : w' = w
    · subst hw; simpa using hpc
    · simpa [hw] using h w'
  exact key.mono le_rfl fun _ _ _ _ ht => ht

variable [Fintype T]

omit [DecidableEq T] [DecidableEq W] in
theorem graceInv_init {z : Zone T W} (h : Init cfg z) : GraceInv cfg hash z where
  registry := ⟨h.tls, h.next⟩
  bucket t b ht := by rw [h.reader t] at ht; simp [ReaderPc.bucket] at ht
  accounted c := by
    rw [h.count c]
    exact (tally_eq_zero fun t => by rw [h.reader t]; simp [Holds]).symm
  le := by rw [h.latest, h.oldest]
  live t b e ht := by rw [h.reader t] at ht; cases ht
  sync w := by rw [h.sync w]; trivial

omit [DecidableEq T] [DecidableEq W] in
/-- A reader inside a critical section shows in its counter. -/
theorem GraceInv.count_pos {z : Zone T W} (h : GraceInv cfg hash z) {t : T} {b : ℤ} {e : ℕ}
    (ht : z.reader t = .inside b e) : 0 < z.count (slot cfg e b) := by
  rw [h.accounted]
  exact tally_pos (t := t) (by rw [ht]; simp [Holds])

omit [DecidableEq T] [DecidableEq W] in
theorem GraceInv.bucket_range {z : Zone T W} (h : GraceInv cfg hash z) {t : T} {b : ℤ} {e : ℕ}
    (ht : z.reader t = .inside b e) : 0 ≤ b ∧ b < nrBucketsPerEpoch cfg := by
  have hb := h.registry.fetch_range hash t
  rwa [h.bucket t b (by rw [ht]; rfl)] at hb

/-! What a synchronizer learns from the row that it scans, counter by counter. -/

omit [DecidableEq T] [DecidableEq W] in
theorem GraceInv.scan_zero {z : Zone T W} (h : GraceInv cfg hash z) {last : ℕ} (e : ℕ)
    (hok : SyncOk z (.row last)) : SyncOk z (.scan last e 0) := by
  refine ⟨hok, ?_⟩
  intro _ t b ht
  exact (h.bucket_range ht).1

omit [DecidableEq T] [DecidableEq W] in
theorem GraceInv.scan_succ {z : Zone T W} (h : GraceInv cfg hash z) {last e i : ℕ}
    (hok : SyncOk z (.scan last e i)) (hz : z.count (slot cfg e i) ≤ 0) :
    SyncOk z (.scan last e (i + 1)) := by
  refine ⟨hok.1, ?_⟩
  intro hel t b ht
  have h1 : (i : ℤ) ≤ b := hok.2 hel t b ht
  have h2 : b ≠ i := by
    rintro rfl
    have := h.count_pos ht
    omega
  push_cast
  omega

omit [DecidableEq T] [DecidableEq W] in
theorem GraceInv.scan_end {z : Zone T W} (h : GraceInv cfg hash z) {last e i : ℕ}
    (hok : SyncOk z (.scan last e i)) (hi : nrBucketsPerEpoch cfg ≤ i) :
    SyncOk z (.advance last e) := by
  refine ⟨hok.1, ?_⟩
  intro hel t b ht
  have h1 : (i : ℤ) ≤ b := hok.2 hel t b ht
  have hb := h.bucket_range ht
  omega

omit [Fintype T] in
/-- A reader step into a critical section takes the latest epoch; every other reader step leaves the
readers of critical sections where they are, or lets one out. -/
theorem Effect.reader_inside {z z' : Zone T W} {a : ZoneAct T W} (h : Effect cfg hash z a z')
    {t : T} {b : ℤ} {e : ℕ} (ht : z'.reader t = .inside b e) :
    z.reader t = .inside b e ∨ e = z.epochLatest := by
  cases h with
  | register t' _ => exact Or.inl (by simpa using ht)
  | start | go | done | row | spin | pass | scanned | advance => exact Or.inl ht
  | valid t' b' h =>
    by_cases htt : t = t'
    · subst htt
      rw [setReader_reader, Function.update_self, ReaderPc.inside.injEq] at ht
      exact Or.inr ht.2.symm
    · exact Or.inl (by simpa [htt] using ht)
  | _ t' =>
    by_cases htt : t = t'
    · subst htt
      simp at ht
    · exact Or.inl (by simpa [htt] using ht)

/-- **Grace-period step**: a safe step keeps the invariant. -/
theorem GraceInv.step {z z' : Zone T W} {a : ZoneAct T W} (h : GraceInv cfg hash z)
    (he : Effect cfg hash z a z') (ha : SafeStep z a) : GraceInv cfg hash z' := by
  have hreg : RegistryOk cfg z' := h.registry.step he ha.1
  have hbuc : BucketKept cfg hash z' := by
    refine h.bucket.step he ?_
    rintro t rfl hne
    cases he with
    | register _ _ => exact register_tls_self (Or.inl fun hu => hne (ha.1 hu).1)
  have hacc : Accounted cfg z' := h.accounted.step he fun t b e _ ht => h.bucket t b (by rw [ht]; rfl)
  -- the readers' steps leave the epochs and the synchronizers alone
  have hread : z'.epochLatest = z.epochLatest → z'.epochOldest = z.epochOldest →
      z'.sync = z.sync → GraceInv cfg hash z' := by
    intro h1 h2 h3
    have hle := h.le
    refine ⟨hreg, hbuc, hacc, by omega, ?_, ?_⟩
    · intro t b e ht
      rcases he.reader_inside ht with h4 | rfl
      · rw [h1, h2]; exact h.live t b e h4
      · omega
    · intro w
      rw [h3]
      refine (h.sync w).mono h1.ge fun t b e hlt ht => ?_
      rcases he.reader_inside ht with h4 | rfl
      · exact h4
      · omega
  -- a synchronizer that moves its program point only
  have hmove : ∀ w pc, z' = z.setSync w pc → SyncOk z pc → GraceInv cfg hash z' := by
    rintro w pc rfl hpc
    exact ⟨hreg, hbuc, hacc, h.le, h.live, syncOk_setSync h.sync hpc⟩
  have hsync : ∀ w pc, z.sync w = pc → SyncOk z pc := by
    rintro w _ rfl
    exact h.sync w
  cases he with
  | register t _ => exact hread (by simp) (by simp) (by simp)
  | start w hw =>
    refine ⟨hreg, hbuc, hacc, Nat.le_succ_of_le h.le, ?_, ?_⟩
    · intro t b e ht
      have := h.live t b e ht
      exact ⟨this.1, Nat.le_succ_of_le this.2⟩
    · refine syncOk_setSync ?_ (Nat.lt_succ_self _)
      intro w'
      exact (h.sync w').mono (Nat.le_succ _) fun _ _ _ _ ht => ht
  | go w last hw hle =>
    have hlt : last < z.epochLatest := hsync w _ hw
    exact hmove w (.row last) rfl hlt
  | done w last hw hlt => exact hmove w _ rfl trivial
  | row w last hw => exact hmove w _ rfl (h.scan_zero z.epochOldest (hsync w _ hw))
  | spin w last e i hw => exact h
  | pass w last e i hw hz => exact hmove w _ rfl (h.scan_succ (hsync w _ hw) hz)
  | scanned w last e i hw hi => exact hmove w _ rfl (h.scan_end (hsync w _ hw) hi)
  | advance w last e hw =>
    have hw' := hsync w _ hw
    have hret := ha.2
    simp only [RetiresScanned, RetiresPc, hw] at hret
    obtain ⟨rfl, hel⟩ := hret
    refine ⟨hreg, hbuc, hacc, ?_, ?_, ?_⟩
    · have := hw'.1
      simp only [setSync_latest, setSync_oldest]
      omega
    · intro t b e ht
      -- no reader of the retired epoch is left
      have h1 := h.live t b e ht
      have h2 : e ≠ z.epochOldest := by
        rintro rfl
        exact hw'.2 hel t b ht
      simp only [setSync_latest, setSync_oldest]
      omega
    · refine syncOk_setSync ?_ hw'.1
      intro w'
      exact (h.sync w').mono le_rfl fun _ _ _ _ ht => ht
  | _ => exact hread rfl rfl rfl

/-! ### Runs -/

/-- The `rcuSynchronize` call of `w` that does its `fetch_add` as step `i` returns in state `j`. -/
structure SyncCall {init : Zone T W → Prop} (r : Run (step cfg hash) init) (w : W) (i j : ℕ) : Prop where
  lt : i < j
  le : j ≤ r.len
  act : r.act i = .sync w
  begins : (r.state i).sync w = .idle
  busy : ∀ k < j, i < k → (r.state k).sync w ≠ .idle
  returns : (r.state j).sync w = .idle

/-- Every `rcuSynchronize` call of the run returns only after each reader that was in a critical section
at its `fetch_add` has done its `rcuReadUnlock`. -/
def GracePeriods {init : Zone T W → Prop} (r : Run (step cfg hash) init) : Prop :=
  ∀ w i j, SyncCall r w i j → ∀ t, ((r.state i).reader t).Inside →
    ∃ k, i < k ∧ k < j ∧ r.act k = .unlock t

theorem graceInv_of_run {r : Run (step cfg hash) (Init (W := W) cfg)}
    (hs : ∀ i < r.len, SafeStep (r.state i) (r.act i)) :
    ∀ i ≤ r.len, GraceInv cfg hash (r.state i) :=
  r.invariant (fun _ => graceInv_init) fun i hi h =>
    h.step (effect_of_step (r.next i hi)) (hs i hi)

/-- The `lastEpoch` of a running call. -/
def lastEpoch : SyncPc → Option ℕ
  | .idle => none
  | .test last | .row last | .scan last _ _ | .advance last _ => some last

omit [Fintype T] in
/-- A call that began with `lastEpoch = last` runs on with it, or has seen `epochOldest` pass it. -/
theorem Effect.call {z z' : Zone T W} {a : ZoneAct T W} (h : Effect cfg hash z a z') {w : W}
    {last : ℕ} (hw : lastEpoch (z.sync w) = some last ∨ last < z.epochOldest) :
    lastEpoch (z'.sync w) = some last ∨ last < z'.epochOldest := by
  have hmove : ∀ w' pc, (w' = w → lastEpoch (z.sync w) = some last →
      lastEpoch pc = some last ∨ last < z.epochOldest) →
      lastEpoch ((z.setSync w' pc).sync w) = some last ∨ last < z.epochOldest := by
    intro w' pc hpc
    rcases hw with hw | hw
    · by_cases hww : w = w'
      · subst hww
        simpa using hpc rfl hw
      · exact Or.inl (by simpa [hww] using hw)
    · exact Or.inr hw
  cases h with
  | register t _ => simpa using hw
  | start w' h' => exact hmove w' _ fun e hl => by subst e; simp [h', lastEpoch] at hl
  | go w' l h' hle => exact hmove w' _ fun e hl => by subst e; simpa [h', lastEpoch] using Or.inl hl
  | done w' l h' hlt =>
    refine hmove w' _ ?_
    intro e hl
    subst e
    rw [h'] at hl
    injection hl with hl
    exact Or.inr (hl ▸ hlt)
  | row w' l h' => exact hmove w' _ fun e hl => by subst e; simpa [h', lastEpoch] using Or.inl hl
  | spin w' l e i h' => exact hw
  | pass w' l e i h' => exact hmove w' _ fun e hl => by subst e; simpa [h', lastEpoch] using Or.inl hl
  | scanned w' l e i h' => exact hmove w' _ fun e hl => by subst e; simpa [h', lastEpoch] using Or.inl hl
  | advance w' l e h' =>
    have h1 := hmove w' (.test l) fun e hl => by subst e; simpa [h', lastEpoch] using Or.inl hl
    exact h1.imp id fun h2 => Nat.lt_succ_of_lt h2
  | _ => exact hw

/-- **Grace periods**: in a run of safe steps every `rcuSynchronize` waits for all earlier readers. -/
theorem gracePeriods_of_safe {r : Run (step cfg hash) (Init (W := W) cfg)}
    (hs : ∀ i < r.len, SafeStep (r.state i) (r.act i)) : GracePeriods r := by
  intro w i j hc t ht
  obtain ⟨b, e, ht⟩ := ht
  by_contra hno
  have hi : i < r.len := lt_of_lt_of_le hc.lt hc.le
  -- without an unlock the reader stays in its critical section
  have hin : (r.state j).reader t = .inside b e := by
    refine r.window (P := fun k => (r.state k).reader t = .inside b e) hc.lt.le hc.le ht ?_
    intro k hk hkj hstep hkin
    refine (effect_of_step hstep).stays_inside hkin fun hact => ?_
    rcases Nat.eq_or_lt_of_le hk with rfl | hik
    · rw [hc.act] at hact; cases hact
    · exact hno ⟨k, hik, hkj, hact⟩
  -- and the call leaves only when `epochOldest` has passed its `lastEpoch`
  have hlast : lastEpoch ((r.state j).sync w) = some (r.state i).epochLatest ∨
      (r.state i).epochLatest < (r.state j).epochOldest := by
    refine r.window (P := fun k => lastEpoch ((r.state k).sync w) = some (r.state i).epochLatest ∨
      (r.state i).epochLatest < (r.state k).epochOldest) (i := i + 1) hc.lt hc.le (Or.inl ?_)
      fun k _ _ hstep h => (effect_of_step hstep).call h
    have h1 := r.next i hi
    rw [hc.act] at h1
    simp only [Zone.step, rcuSynchronize, hc.begins, Option.some.injEq] at h1
    rw [← h1]
    simp [lastEpoch]
  have hinv := graceInv_of_run hs
  have h1 := (hinv i hi.le).live t b e ht
  have h2 := (hinv j hc.le).live t b e hin
  rw [hc.returns] at hlast
  rcases hlast with h3 | h3
  · simp [lastEpoch] at h3
  · omega

/-! ### Serialized calls -/

/-- The epochs as a lone synchronizer sees them at its program point. -/
def SerialPc (z : Zone T W) : SyncPc → Prop
  | .idle => True
  | .test last => z.epochLatest = last + 1 ∧ (z.epochOldest = last ∨ z.epochOldest = last + 1)
  | .row last => z.epochLatest = last + 1 ∧ z.epochOldest = last
  | .scan last e _ | .advance last e => z.epochLatest = last + 1 ∧ z.epochOldest = last ∧ e = last

/-- At most one call runs, and the two epochs are one apart exactly while it waits. -/
structure Serial (z : Zone T W) : Prop where
  one : ∀ w w', z.sync w ≠ .idle → z.sync w' ≠ .idle → w = w'
  quiet : (∀ w, z.sync w = .idle) → z.epochLatest = z.epochOldest
  pc : ∀ w, SerialPc z (z.sync w)

omit [DecidableEq T] [DecidableEq W] [Fintype T] in
theorem serial_init {z : Zone T W} (h : Init cfg z) : Serial z where
  one w _ hw _ := absurd (h.sync w) hw
  quiet _ := by rw [h.latest, h.oldest]
  pc w := by rw [h.sync w]; trivial

omit [DecidableEq T] [DecidableEq W] [Fintype T] in
theorem Serial.le_add_one {z : Zone T W} (h : Serial z) : z.epochLatest ≤ z.epochOldest + 1 := by
  by_cases hq : ∀ w, z.sync w = .idle
  · have := h.quiet hq
    omega
  · obtain ⟨w, hw⟩ := not_forall.mp hq
    have hp := h.pc w
    cases hs : z.sync w with
    | idle => exact absurd hs hw
    | _ => simp only [hs, SerialPc] at hp; omega

omit [DecidableEq T] [Fintype T] in
/-- A step of the one running synchronizer to a program point that fits the epochs. -/
theorem serial_setSync {z : Zone T W} {w : W} {pc : SyncPc}
    (hone : ∀ w', w' ≠ w → z.sync w' = .idle) (hq : pc = .idle → z.epochLatest = z.epochOldest)
    (hpc : SerialPc z pc) : Serial (z.setSync w pc) where
  one w1 w2 h1 h2 := by
    have h3 : ∀ w', (z.setSync w pc).sync w' ≠ .idle → w' = w := by
      intro w' hw'
      by_contra hne
      exact hw' (by simpa [hne] using hone w' hne)
    rw [h3 w1 h1, h3 w2 h2]
  quiet h := hq (by simpa using h w)
  pc w' := by
    by_cases hw : w' = w
    · subst hw
      simp only [setSync_sync, Function.update_self]
      cases pc <;> exact hpc
    · simp only [setSync_sync, Function.update_of_ne hw, hone w' hw]
      trivial

omit [Fintype T] in
theorem Serial.step {z z' : Zone T W} {a : ZoneAct T W} (h : Serial z)
    (he : Effect cfg hash z a z') (ha : SyncsApart z a) : Serial z' := by
  -- the other synchronizers are idle when this one is not
  have hothers : ∀ {w}, z.sync w ≠ .idle → ∀ w', w' ≠ w → z.sync w' = .idle := by
    intro w hw w' hne
    by_contra hc
    exact hne (h.one w' w hc hw)
  have hpc := h.pc
  cases he with
  | register t _ =>
    refine ⟨by simpa using h.one, by simpa using h.quiet, ?_⟩
    intro w
    have h1 := hpc w
    simp only [register_sync]
    cases hs : z.sync w <;> simp_all [SerialPc]
  | start w hw =>
    have hall := ha hw
    have hq := h.quiet hall
    exact serial_setSync (fun w' _ => hall w') (fun h => by cases h) ⟨rfl, Or.inl hq.symm⟩
  | go w last hw hle =>
    have h1 := hpc w
    simp only [hw, SerialPc] at h1
    exact serial_setSync (hothers (by simp [hw])) (fun h => by cases h) ⟨h1.1, by omega⟩
  | done w last hw hlt =>
    have h1 := hpc w
    simp only [hw, SerialPc] at h1
    exact serial_setSync (hothers (by simp [hw])) (fun _ => by omega) trivial
  | row w last hw =>
    have h1 := hpc w
    simp only [hw, SerialPc] at h1
    exact serial_setSync (hothers (by simp [hw])) (fun h => by cases h) ⟨h1.1, h1.2, h1.2⟩
  | spin w last e i hw => exact h
  | pass w last e i hw hz =>
    have h1 := hpc w
    rw [hw] at h1
    exact serial_setSync (hothers (by simp [hw])) (fun h => by cases h) h1
  | scanned w last e i hw hi =>
    have h1 := hpc w
    rw [hw] at h1
    exact serial_setSync (hothers (by simp [hw])) (fun h => by cases h) h1
  | advance w last e hw =>
    have h1 := hpc w
    simp only [hw, SerialPc] at h1
    exact serial_setSync (hothers (by simp [hw])) (fun h => by cases h)
      ⟨h1.1, Or.inr (by simp only; omega)⟩
  | _ =>
    refine ⟨h.one, h.quiet, ?_⟩
    intro w
    have h1 := hpc w
    simp only [setReader_sync, fetchAdd_sync]
    cases hs : z.sync w <;> rw [hs] at h1 <;> exact h1

omit [DecidableEq T] [DecidableEq W] [Fintype T] in
/-- Serialized calls retire only what they have scanned. -/
theorem Serial.retiresScanned {z : Zone T W} (h : Serial z) (a : ZoneAct T W) :
    RetiresScanned z a := by
  cases a with
  | sync w =>
    have h1 := h.pc w
    change RetiresPc z (z.sync w)
    cases hw : z.sync w with
    | advance last e =>
      simp only [hw, SerialPc] at h1
      exact ⟨by omega, by omega⟩
    | _ => trivial
  | _ => trivial

omit [Fintype T] in
theorem serial_of_run {r : Run (Zone.step cfg hash) (Init (W := W) cfg)}
    (hs : ∀ i < r.len, SyncsApart (r.state i) (r.act i)) : ∀ i ≤ r.len, Serial (r.state i) :=
  r.invariant (fun _ => serial_init) fun i hi h => h.step (effect_of_step (r.next i hi)) (hs i hi)

end Zone

end RcuTable
