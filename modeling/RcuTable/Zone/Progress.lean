import RcuTable.Zone.Grace
import RcuTable.Zone.Accounting

/-!
# Zone.Progress — how long `rcuReadLock` and `rcuSynchronize` can be kept waiting

`rcuReadLock` starts its loop over only when an `rcuSynchronize` has begun since it read `epochLatest`, so
the number of its steps is bounded by the number of calls that begin meanwhile (`rcuReadLock_bounded`).
`rcuSynchronize` takes a fixed number of steps besides its spinning, and it spins on a counter only for a
thread that was already in its lock or in its critical section at the `fetch_add`: a thread that locks
later never holds it up (`rcuSynchronize_bounded`).
-/

namespace RcuTable

open Trans

namespace Zone

variable {T W : Type} [DecidableEq T] [DecidableEq W] {cfg : ZoneCfg} {hash : T → ℕ}
  {init : Zone T W → Prop} {z z' : Zone T W} {a : ZoneAct T W} {t : T} {w : W}

/-! ### The loop of `rcuReadLock` -/

/-- The reader is in the loop of `rcuReadLock`. -/
def Locking : ReaderPc → Prop
  | .load _ | .bump _ _ | .check _ _ | .undo _ _ => True
  | .idle | .inside _ _ => False

/-- `rcuReadLock` of `t` finds that the epoch has changed, and starts over. -/
def Retries (z : Zone T W) (t : T) (a : ZoneAct T W) : Prop :=
  a = .read t ∧ match z.reader t with
    | .check _ e => z.epochLatest ≠ e
    | _ => False

/-- The step is the `fetch_add` of an `rcuSynchronize` call. -/
def Begins (z : Zone T W) : ZoneAct T W → Prop
  | .sync w => z.sync w = .idle
  | _ => False

instance : DecidablePred Locking
  | .load _ | .bump _ _ | .check _ _ | .undo _ _ => isTrue trivial
  | .idle | .inside _ _ => isFalse fun h => h

instance (z : Zone T W) (t : T) (a : ZoneAct T W) : Decidable (Retries z t a) := by
  unfold Retries
  cases z.reader t <;> infer_instance

instance (z : Zone T W) : DecidablePred (Begins z)
  | .sync w => inferInstanceAs (Decidable (z.sync w = .idle))
  | .register _ | .lock _ | .read _ | .unlock _ => isFalse fun h => h

/-- The number of steps that `t` has taken in `rcuReadLock` in the window from `i` to `j`. -/
def lockSteps (r : Run (step cfg hash) init) (t : T) (i j : ℕ) : ℕ := among (fun k => r.act k = .read t) i j

/-- The number of passes of the loop that end in a failed revalidation. -/
def failedPasses (r : Run (step cfg hash) init) (t : T) (i j : ℕ) : ℕ :=
  among (fun k => Retries (r.state k) t (r.act k)) i j

/-- The number of `rcuSynchronize` calls that begin in the window from `i` to `j`. -/
def begun (r : Run (step cfg hash) init) (i j : ℕ) : ℕ := among (fun k => Begins (r.state k) (r.act k)) i j

/-- The call of `rcuReadLock` that `t` makes as step `i` runs at least until state `j`. -/
structure LockCall (r : Run (step cfg hash) init) (t : T) (i j : ℕ) : Prop where
  lt : i < j
  le : j ≤ r.len
  act : r.act i = .lock t
  busy : ∀ k < j, i < k → Locking ((r.state k).reader t)

/-- `epochLatest` moves exactly when a call begins. -/
theorem Effect.latest (h : Effect cfg hash z a z') :
    z'.epochLatest = z.epochLatest + if Begins z a then 1 else 0 := by
  cases h with
  | start w hw => simp [Begins, hw]
  | register t _ => simp [Begins]
  | go w last hw | done w last hw | row w last hw | spin w last e i hw | pass w last e i hw
  | scanned w last e i hw | advance w last e hw => simp [Begins, hw]
  | _ => simp [Begins]

/-- A reader in the loop moves only by its own steps. -/
theorem Effect.locking (h : Effect cfg hash z a z') (hl : Locking (z.reader t)) (ha : a ≠ .read t) :
    z'.reader t = z.reader t := by
  cases h with
  | register t' _ => exact congrFun (register_reader ..) t
  | start | go | done | row | spin | pass | scanned | advance => rfl
  | lock t' h | unlock t' b e h =>
    have hne : t ≠ t' := by
      rintro rfl
      rw [h] at hl
      exact hl
    simp [hne]
  | load t' | bump t' | valid t' | stale t' | undo t' =>
    have hne : t ≠ t' := fun he => ha (he ▸ rfl)
    simp [hne]

theorem latest_of_begun (r : Run (step cfg hash) init) {i j : ℕ} (hij : i ≤ j) (hj : j ≤ r.len) :
    (r.state j).epochLatest = (r.state i).epochLatest + begun r i j := by
  refine r.window (P := fun j => (r.state j).epochLatest = (r.state i).epochLatest + begun r i j) hij hj
    (by simp [begun, among]) ?_
  intro k hk _ hstep ih
  have h1 := (effect_of_step hstep).latest
  unfold begun at ih ⊢
  rw [h1, ih, among_succ _ _ hk]
  omega

/-- What `rcuReadLock` has done at its program point after `n` steps and `m` failed revalidations, when
`epochLatest` was `l` at the call. -/
def LockPc (z : Zone T W) (l n m : ℕ) : ReaderPc → Prop
  | .idle => False
  | .load _ => n = 4 * m ∧ l + m ≤ z.epochLatest
  | .bump _ e => n = 4 * m + 1 ∧ l + m ≤ e ∧ e ≤ z.epochLatest
  | .check _ e => n = 4 * m + 2 ∧ l + m ≤ e ∧ e ≤ z.epochLatest
  | .undo _ _ => n + 1 = 4 * m ∧ l + m ≤ z.epochLatest
  | .inside _ _ => n = 4 * m + 3 ∧ l + m ≤ z.epochLatest

/-- **Lock step**: one step of the system, counted when it is one of `rcuReadLock`. -/
theorem LockPc.step {l n m : ℕ} (hpc : LockPc z l n m (z.reader t)) (hl : Locking (z.reader t))
    (h : Effect cfg hash z a z') :
    LockPc z' l (n + if a = .read t then 1 else 0) (m + if Retries z t a then 1 else 0) (z'.reader t) := by
  by_cases ha : a = .read t
  · subst ha
    cases h with
    | load t b h | bump t b e h | undo t b e h =>
      rw [h] at hpc
      simp only [Retries, h, LockPc] at hpc ⊢
      simp
      omega
    | valid t b h =>
      rw [h] at hpc
      simp only [Retries, h, LockPc] at hpc ⊢
      simp
      omega
    | stale t b e h hne =>
      -- the epoch read by this pass is not the latest any more
      rw [h] at hpc
      simp only [Retries, h, LockPc] at hpc ⊢
      simp [hne]
      omega
  · rw [if_neg ha, if_neg fun hr => ha hr.1, h.locking hl ha]
    have hle : z.epochLatest ≤ z'.epochLatest := by
      have := h.latest
      omega
    cases hr : z.reader t <;> simp only [hr, LockPc] at hpc ⊢ <;> omega

theorem lockPc_begin (h : Effect cfg hash z (.lock t) z') :
    LockPc z' z.epochLatest 0 0 (z'.reader t) := by
  cases h with
  | lock t h => simp [LockPc]

/-- **Lock run**: how far a call of `rcuReadLock` has come. -/
theorem LockCall.pc {r : Run (step cfg hash) init} {i j : ℕ} (hc : LockCall r t i j) :
    LockPc (r.state j) (r.state i).epochLatest (lockSteps r t i j) (failedPasses r t i j)
      ((r.state j).reader t) := by
  refine r.window (P := fun j => LockPc (r.state j) (r.state i).epochLatest (lockSteps r t i j)
    (failedPasses r t i j) ((r.state j).reader t)) (i := i + 1) hc.lt hc.le ?_ ?_
  · have hi := r.next i (lt_of_lt_of_le hc.lt hc.le)
    rw [hc.act] at hi
    have h0 : lockSteps r t i (i + 1) = 0 ∧ failedPasses r t i (i + 1) = 0 := by
      unfold lockSteps failedPasses
      rw [among_one, among_one, hc.act]
      simp [Retries]
    rw [h0.1, h0.2]
    exact lockPc_begin (effect_of_step hi)
  · intro k hk hkj hstep ih
    unfold lockSteps failedPasses at ih ⊢
    rw [among_succ _ _ (by omega), among_succ _ _ (by omega)]
    exact ih.step (hc.busy k hkj hk) (effect_of_step hstep)

/-- **`rcuReadLock` is bounded by the writers**: a pass of the loop is repeated only when an
`rcuSynchronize` has begun during the call.  A call that has not returned has taken at most four steps for
each of these and two more; one that has returned took three steps and four for each failed pass. -/
theorem rcuReadLock_bounded (r : Run (step cfg hash) init) {i j : ℕ} (hc : LockCall r t i j) :
    failedPasses r t i j ≤ begun r i j ∧
      (lockSteps r t i j ≤ 4 * begun r i j + 2 ∨
        ((r.state j).reader t).Inside ∧ lockSteps r t i j = 4 * failedPasses r t i j + 3) := by
  have hpc := hc.pc
  have hlatest := latest_of_begun r hc.lt.le hc.le
  cases hr : (r.state j).reader t with
  | idle => rw [hr] at hpc; exact hpc.elim
  | inside b e =>
    rw [hr] at hpc
    exact ⟨by have := hpc.2; omega, .inr ⟨⟨b, e, rfl⟩, hpc.1⟩⟩
  | _ =>
    simp only [hr, LockPc] at hpc
    exact ⟨by omega, .inl (by omega)⟩

/-- A synchronizer begins between a reader's load of `epochLatest` and its revalidation; the reader starts
over once. -/
def retriedLock : Run (step tinyCfg fun _ : Unit => 0) (Init (W := Unit) tinyCfg) :=
  Run.ofActs (freshZone Unit Unit)
    [.lock (), .read (), .sync (), .read (), .read (), .read (), .read (), .read (), .read ()]
    freshZone_init (by decide)

theorem retriedLock_bounded :
    LockCall retriedLock () 0 9 ∧ failedPasses retriedLock () 0 9 = 1 ∧ begun retriedLock 0 9 = 1 ∧
      (lockSteps retriedLock () 0 9 ≤ 4 * begun retriedLock 0 9 + 2 ∨
        ((retriedLock.state 9).reader ()).Inside ∧
          lockSteps retriedLock () 0 9 = 4 * failedPasses retriedLock () 0 9 + 3) := by
  have hc : LockCall retriedLock () 0 9 := ⟨by decide, by decide, rfl, by decide⟩
  exact ⟨hc, by decide, by decide, (rcuReadLock_bounded retriedLock hc).2⟩

/-! ### The wait of `rcuSynchronize` -/

/-- The call of `rcuSynchronize` that `w` makes as step `i` runs at least until state `j`. -/
structure SyncRuns (r : Run (step cfg hash) init) (w : W) (i j : ℕ) : Prop where
  lt : i < j
  le : j ≤ r.len
  act : r.act i = .sync w
  begins : (r.state i).sync w = .idle
  busy : ∀ k < j, i < k → (r.state k).sync w ≠ .idle

/-- The counter that the scan of `w` looks at next. -/
def scanned (cfg : ZoneCfg) (z : Zone T W) (w : W) : Option ℤ :=
  match z.sync w with
  | .scan _ e i => if i < nrBucketsPerEpoch cfg then some (slot cfg e i) else none
  | _ => none

/-- A step of `w` that does not spin. -/
def Works (cfg : ZoneCfg) (z : Zone T W) (w : W) (a : ZoneAct T W) : Prop :=
  a = .sync w ∧ ∀ c ∈ scanned cfg z w, z.count c ≤ 0

instance (z : Zone T W) (w : W) (a : ZoneAct T W) : Decidable (Works cfg z w a) := by
  unfold Works
  infer_instance

/-- The number of steps of `w` in the window from `i` to `j` other than spinning. -/
def syncSteps (r : Run (step cfg hash) init) (w : W) (i j : ℕ) : ℕ :=
  among (fun k => Works cfg (r.state k) w (r.act k)) i j

/-- How many steps other than spinning a lone call of `rcuSynchronize` has done at its program point. -/
def SyncDone (cfg : ZoneCfg) (z : Zone T W) (n : ℕ) : SyncPc → Prop
  | .test last => n = 1 ∧ z.epochOldest = last ∨ n = nrBucketsPerEpoch cfg + 5 ∧ last < z.epochOldest
  | .row _ => n = 2
  | .scan _ _ i => n = 3 + i ∧ i ≤ nrBucketsPerEpoch cfg
  | .advance _ _ => n = nrBucketsPerEpoch cfg + 4
  | .idle => n = nrBucketsPerEpoch cfg + 6

/-- The epoch that the reader has read for its lock. -/
def epochRead : ReaderPc → Option ℕ
  | .bump _ e | .check _ e | .undo _ e | .inside _ e => some e
  | .idle | .load _ => none

/-- The reader read `epochLatest` before it moved past `last`. -/
def Old (last : ℕ) (pc : ReaderPc) : Prop := ∃ e, epochRead pc = some e ∧ e ≤ last

/-- The steps of `rcuReadLock` that an old reader can have done since the epoch changed. -/
def oldSteps : ReaderPc → ℕ
  | .check _ _ => 1
  | .undo _ _ => 2
  | _ => 0

/-! The steps of the call. -/

omit [DecidableEq T] [DecidableEq W] in
theorem works_of_scanned (h : scanned cfg z w = none) : Works cfg z w (.sync w) := by
  simp [Works, h]

/-- A step of a lone call counts for one, unless it spins. -/
theorem SyncDone.sync {n : ℕ} (hs : SerialPc z (z.sync w)) (hb : z.sync w ≠ .idle)
    (hd : SyncDone cfg z n (z.sync w)) :
    SyncDone cfg (rcuSynchronize cfg z w) (n + if Works cfg z w (.sync w) then 1 else 0)
      ((rcuSynchronize cfg z w).sync w) := by
  cases hw : z.sync w with
  | idle => exact absurd hw hb
  | test last =>
    simp only [hw, SyncDone, SerialPc] at hd hs
    rw [if_pos (works_of_scanned (by simp [scanned, hw]))]
    by_cases hle : z.epochOldest ≤ last
    · simp [rcuSynchronize, hw, hle, SyncDone]
      omega
    · simp [rcuSynchronize, hw, hle, SyncDone]
      omega
  | row last =>
    simp only [hw, SyncDone] at hd
    rw [if_pos (works_of_scanned (by simp [scanned, hw]))]
    simp [rcuSynchronize, hw, SyncDone, hd]
  | scan last e i =>
    simp only [hw, SyncDone] at hd
    by_cases hi : i < nrBucketsPerEpoch cfg
    · have hscan : scanned cfg z w = some (slot cfg e i) := by simp [scanned, hw, hi]
      by_cases hz : 0 < z.count (slot cfg e i)
      · rw [if_neg (by simp [Works, hscan, hz])]
        simpa [rcuSynchronize, hw, hi, hz, SyncDone] using hd
      · rw [if_pos (by simpa [Works, hscan] using hz)]
        simp [rcuSynchronize, hw, hi, hz, SyncDone]
        omega
    · rw [if_pos (works_of_scanned (by simp [scanned, hw, hi]))]
      simp [rcuSynchronize, hw, hi, SyncDone]
      omega
  | advance last e =>
    simp only [hw, SyncDone, SerialPc] at hd hs
    rw [if_pos (works_of_scanned (by simp [scanned, hw]))]
    simp [rcuSynchronize, hw, SyncDone]
    omega

/-- While a call runs alone, the other threads move neither the epochs nor the call. -/
theorem Effect.beside (h : Effect cfg hash z a z') (hs : Serial z) (ha : SyncsApart z a)
    (hb : z.sync w ≠ .idle) (hne : a ≠ .sync w) :
    z'.sync w = z.sync w ∧ z'.epochOldest = z.epochOldest ∧ z'.epochLatest = z.epochLatest := by
  have hlone : ∀ w', a = .sync w' → z.sync w' = .idle := by
    rintro w' rfl
    by_contra hw'
    exact hne (by rw [hs.one w' w hw' hb])
  cases h with
  | register t _ => exact ⟨congrFun (register_sync ..) w, register_oldest .., register_latest ..⟩
  | start w' hw' => exact absurd (ha hw' w) hb
  | go w' _ h | done w' _ h | row w' _ h | spin w' _ _ _ h | pass w' _ _ _ h | scanned w' _ _ _ h
  | advance w' _ _ h =>
    have := hlone w' rfl
    rw [h] at this
    cases this
  | _ => exact ⟨rfl, rfl, rfl⟩

/-- The readers leave the synchronizers alone. -/
theorem Effect.readers (h : Effect cfg hash z a z') (ha : ∀ w, a ≠ .sync w) :
    z'.sync = z.sync ∧ z'.epochOldest = z.epochOldest := by
  cases h with
  | start w | go w | done w | row w | spin w | pass w | scanned w | advance w => exact absurd rfl (ha w)
  | register => exact ⟨register_sync .., register_oldest ..⟩
  | _ => exact ⟨rfl, rfl⟩

omit [DecidableEq T] [DecidableEq W] in
theorem SyncDone.congr {n : ℕ} {pc : SyncPc} (h : SyncDone cfg z n pc)
    (ho : z'.epochOldest = z.epochOldest) : SyncDone cfg z' n pc := by
  cases pc <;> simpa only [SyncDone, ho] using h

theorem syncDone_of_runs {r : Run (step cfg hash) init} {i j : ℕ} (hc : SyncRuns r w i j)
    (hs : ∀ k ≤ r.len, Serial (r.state k)) (ha : ∀ k < r.len, SyncsApart (r.state k) (r.act k)) :
    SyncDone cfg (r.state j) (syncSteps r w i j) ((r.state j).sync w) := by
  have hlen : i < r.len := lt_of_lt_of_le hc.lt hc.le
  refine r.window (P := fun j => SyncDone cfg (r.state j) (syncSteps r w i j) ((r.state j).sync w))
    (i := i + 1) hc.lt hc.le ?_ ?_
  · have hi := r.next i hlen
    have hwork : syncSteps r w i (i + 1) = 1 := by
      unfold syncSteps
      rw [among_one, if_pos]
      exact ⟨hc.act, by simp [scanned, hc.begins]⟩
    have hall := ha i hlen
    rw [hc.act] at hi hall
    have hquiet := (hs i hlen.le).quiet (hall hc.begins)
    simp only [Zone.step, rcuSynchronize, hc.begins, Option.some.injEq] at hi
    rw [hwork, ← hi]
    simp [SyncDone, hquiet]
  · intro k hk hkj hstep ih
    unfold syncSteps at ih ⊢
    rw [among_succ _ _ (by omega)]
    have hb := hc.busy k hkj hk
    have hkr : k < r.len := lt_of_lt_of_le hkj hc.le
    have hsk := hs k hkr.le
    by_cases hact : r.act k = .sync w
    · rw [hact] at hstep ⊢
      simp only [Zone.step, Option.some.injEq] at hstep
      rw [← hstep]
      exact SyncDone.sync (hsk.pc w) hb ih
    · have he := (effect_of_step hstep).beside hsk (ha k hkr) hb hact
      rw [if_neg fun h => hact h.1, he.1]
      exact ih.congr he.2.1

/-! The threads it spins for. -/

/-- A reader stays where it is, or the step is its own. -/
theorem Effect.reader_move (h : Effect cfg hash z a z') (t : T) :
    a ≠ .read t ∧ z'.reader t = z.reader t ∨ a = .lock t ∨ a = .read t ∨ a = .unlock t := by
  cases h with
  | register t' _ => exact .inl ⟨by simp, congrFun (register_reader ..) t⟩
  | start | go | done | row | spin | pass | scanned | advance => exact .inl ⟨by simp, rfl⟩
  | lock t' | load t' | bump t' | valid t' | stale t' | undo t' | unlock t' =>
    by_cases htt : t = t'
    · subst htt
      simp
    · exact .inl ⟨by simp [Ne.symm htt], by simp [htt]⟩

/-- The epoch that a reader has read is the one it had, or the latest. -/
theorem Effect.epochRead {e : ℕ} (h : Effect cfg hash z a z') (ht : epochRead (z'.reader t) = some e) :
    epochRead (z.reader t) = some e ∨ e = z.epochLatest := by
  rcases h.reader_move t with ⟨-, hsame⟩ | rfl | rfl | rfl
  · exact .inl (hsame ▸ ht)
  · cases h with
    | lock t h => simp [Zone.epochRead] at ht
  · cases h with
    | load t b h => exact .inr (by simpa [Zone.epochRead, eq_comm] using ht)
    | bump t b e h => exact .inl (by simpa [Zone.epochRead, h] using ht)
    | valid t b h => exact .inl (by simpa [Zone.epochRead, h] using ht)
    | stale t b e h hne => exact .inl (by simpa [Zone.epochRead, h] using ht)
    | undo t b e h => simp [Zone.epochRead] at ht
  · cases h with
    | unlock t b e h => simp [Zone.epochRead] at ht

/-- After the `fetch_add` no thread becomes old. -/
theorem Effect.old {last : ℕ} (h : Effect cfg hash z a z') (hl : last < z.epochLatest)
    (ho : Old last (z'.reader t)) : Old last (z.reader t) := by
  obtain ⟨e, he, hle⟩ := ho
  rcases h.epochRead he with h1 | rfl
  · exact ⟨e, h1, hle⟩
  · omega

/-- An old thread takes two steps of its lock at most. -/
theorem Effect.oldSteps {last : ℕ} (h : Effect cfg hash z a z') (hl : last < z.epochLatest)
    (ho : Old last (z'.reader t)) :
    oldSteps (z.reader t) + (if a = .read t then 1 else 0) ≤ oldSteps (z'.reader t) := by
  obtain ⟨e, he, hle⟩ := h.old hl ho
  rcases h.reader_move t with ⟨hne, hsame⟩ | rfl | rfl | rfl
  · rw [hsame, if_neg hne]
    exact le_rfl
  · cases h with
    | lock t h => simp [Zone.oldSteps, h]
  · cases h with
    | load t b h => simp [Zone.epochRead, h] at he
    | bump t b e h => simp [Zone.oldSteps, h]
    | valid t b h =>
      simp only [h, Zone.epochRead, Option.some.injEq] at he
      omega
    | stale t b e h hne => simp [Zone.oldSteps, h]
    | undo t b e h =>
      obtain ⟨e', he', -⟩ := ho
      simp [Zone.epochRead] at he'
  · cases h with
    | unlock t b e h => simp [Zone.oldSteps, h]

theorem SyncRuns.begun_one {r : Run (step cfg hash) init} {i j : ℕ} (hc : SyncRuns r w i j) :
    begun r i (i + 1) = 1 := by
  unfold begun
  rw [among_one, hc.act]
  exact if_pos hc.begins

/-- A lone call is the only one that begins while it runs. -/
theorem SyncRuns.latest {r : Run (step cfg hash) init} {i j k : ℕ} (hc : SyncRuns r w i j)
    (ha : ∀ k < r.len, SyncsApart (r.state k) (r.act k)) (hik : i < k) (hkj : k ≤ j) :
    (r.state k).epochLatest = (r.state i).epochLatest + 1 := by
  have hkr : k ≤ r.len := hkj.trans hc.le
  have hone : begun r i k = 1 := by
    refine r.window (P := fun k => begun r i k = 1) (i := i + 1) hik hkr hc.begun_one ?_
    intro m hm hmk _ ih
    have hno : ¬ Begins (r.state m) (r.act m) := by
      intro hb
      have hapart := ha m (by omega)
      cases hact : r.act m with
      | sync w' =>
        rw [hact] at hb hapart
        exact hc.busy m (by omega) hm (hapart hb w)
      | _ => rw [hact] at hb; exact hb
    unfold begun at ih ⊢
    rw [among_succ_of_not (by omega) hno, ih]
  rw [latest_of_begun r hik.le hkr, hone]

/-- The threads for which a call that began as step `i` can spin at state `k`. -/
theorem SyncRuns.old {r : Run (step cfg hash) init} {i j : ℕ} (hc : SyncRuns r w i j) {k : ℕ}
    (hik : i < k) (hkj : k ≤ j) :
    ∀ t, Old (r.state i).epochLatest ((r.state k).reader t) →
      lockSteps r t i k ≤ oldSteps ((r.state k).reader t) ∧
        ∀ m, i < m → m ≤ k → Old (r.state i).epochLatest ((r.state m).reader t) := by
  have hlen : i < r.len := lt_of_lt_of_le hc.lt hc.le
  refine r.window (P := fun k => ∀ t, Old (r.state i).epochLatest ((r.state k).reader t) →
      lockSteps r t i k ≤ oldSteps ((r.state k).reader t) ∧
        ∀ m, i < m → m ≤ k → Old (r.state i).epochLatest ((r.state m).reader t))
    (i := i + 1) hik (by have := hc.le; omega) ?_ ?_
  · intro t ho
    constructor
    · unfold lockSteps
      rw [among_one, if_neg (by rw [hc.act]; simp)]
      omega
    · intro m hm1 hm2
      obtain rfl : m = i + 1 := by omega
      exact ho
  · intro k hk hkj' hstep ih t ho
    have hlatest : (r.state i).epochLatest < (r.state k).epochLatest := by
      have h1 := latest_of_begun r (show i ≤ i + 1 by omega) hlen
      have h2 := latest_of_begun r hk (by have := hc.le; omega)
      rw [hc.begun_one] at h1
      omega
    have he := effect_of_step hstep
    have h2 := he.oldSteps hlatest ho
    obtain ⟨h3, h4⟩ := ih t (he.old hlatest ho)
    constructor
    · unfold lockSteps at h3 ⊢
      rw [among_succ _ _ (by omega)]
      omega
    · intro m hm1 hm2
      rcases Nat.eq_or_lt_of_le hm2 with rfl | hlt
      · exact ho
      · exact h4 m hm1 (by omega)

/-- The epochs that the threads have read are not from the future. -/
def EpochsRead (z : Zone T W) : Prop := ∀ t e, epochRead (z.reader t) = some e → e ≤ z.epochLatest

theorem EpochsRead.step (hr : EpochsRead z) (h : Effect cfg hash z a z') : EpochsRead z' := by
  intro t e he
  have hl := h.latest
  rcases h.epochRead he with h1 | rfl
  · have := hr t e h1
    omega
  · omega

/-- Two epochs that follow each other use different counters. -/
theorem slot_succ_ne {last i : ℕ} {b : ℤ} (hi : i < nrBucketsPerEpoch cfg) (h0 : 0 ≤ b)
    (hb : b < nrBucketsPerEpoch cfg) : slot cfg (last + 1) b ≠ slot cfg last i := by
  intro h
  simp only [slot, epochRowId_eq] at h
  rcases Nat.mod_two_eq_zero_or_one last with h1 | h1
  · rw [h1, show (last + 1) % 2 = 1 by omega] at h
    push_cast at h
    omega
  · rw [h1, show (last + 1) % 2 = 0 by omega] at h
    push_cast at h
    omega

omit [DecidableEq T] [DecidableEq W] in
theorem Holds.reads {c : ℤ} {pc : ReaderPc} (h : Holds cfg c pc) :
    ∃ b e, pc.bucket = some b ∧ epochRead pc = some e ∧ slot cfg e b = c := by
  cases pc with
  | check b e | undo b e | inside b e => exact ⟨b, e, rfl, rfl, h⟩
  | _ => exact h.elim

omit [DecidableEq T] [DecidableEq W] in
/-- A counter of the retired row that stands above zero is held by an old thread. -/
theorem holder_of_count [Fintype T] (hg : GraceInv cfg hash z) (hr : EpochsRead z) {last i : ℕ}
    (hl : z.epochLatest = last + 1) (hi : i < nrBucketsPerEpoch cfg) (hc : 0 < z.count (slot cfg last i)) :
    ∃ t, Holds cfg (slot cfg last i) (z.reader t) ∧ Old last (z.reader t) := by
  have hex : ∃ t, Holds cfg (slot cfg last i) (z.reader t) := by
    by_contra hno
    have hzero : holders cfg z (slot cfg last i) = 0 := tally_eq_zero (not_exists.mp hno)
    rw [hg.accounted, hzero] at hc
    omega
  obtain ⟨t, ht⟩ := hex
  obtain ⟨b, e, hb, he, hslot⟩ := ht.reads
  have hrange := hg.registry.fetch_range hash t
  rw [hg.bucket t b hb] at hrange
  refine ⟨t, ht, e, he, ?_⟩
  have hle := hr t e he
  have hne : e ≠ last + 1 := by
    rintro rfl
    exact slot_succ_ne hi hrange.1 hrange.2 hslot
  omega

omit [DecidableEq T] [DecidableEq W] in
/-- A lone call spins on a counter only for a thread that read the epoch which is being retired. -/
theorem holder_of_scanned [Fintype T] (hg : GraceInv cfg hash z) (hs : Serial z) (hr : EpochsRead z) {c : ℤ}
    (hscan : c ∈ scanned cfg z w) (hpos : 0 < z.count c) :
    z.epochLatest = z.epochOldest + 1 ∧
      ∃ t, Holds cfg c (z.reader t) ∧ Old z.epochOldest (z.reader t) := by
  have hpc := hs.pc w
  unfold scanned at hscan
  cases hw : z.sync w with
  | scan last e i =>
    simp only [hw, SerialPc] at hscan hpc
    obtain ⟨hlatest, holdest, rfl⟩ := hpc
    by_cases hi : i < nrBucketsPerEpoch cfg
    · rw [if_pos hi] at hscan
      obtain rfl : slot cfg e i = c := by simpa using hscan
      rw [holdest]
      exact ⟨hlatest, holder_of_count hg hr hlatest hi hpos⟩
    · simp [hi] at hscan
  | _ => simp [hw] at hscan

omit [DecidableEq T] [DecidableEq W] in
theorem SyncDone.le {n : ℕ} {pc : SyncPc} (h : SyncDone cfg z n pc) : n ≤ nrBucketsPerEpoch cfg + 6 := by
  cases pc <;> simp only [SyncDone] at h <;> omega

omit [DecidableEq T] [DecidableEq W] in
theorem SyncDone.lt {n : ℕ} {pc : SyncPc} (h : SyncDone cfg z n pc) (hpc : pc ≠ .idle) :
    n < nrBucketsPerEpoch cfg + 6 := by
  cases pc with
  | idle => exact absurd rfl hpc
  | _ => simp only [SyncDone] at h; omega

/-- **`rcuSynchronize` is bounded by the old readers**: besides its spinning, a call of serialized
synchronizers takes as many steps as an epoch has buckets, and six more.  It spins only for a thread that
holds the scanned counter, that has been in the same lock or critical section ever since the `fetch_add`,
and that has taken at most two steps of its lock since then. -/
theorem rcuSynchronize_bounded [Fintype T] (r : Run (step cfg hash) (Init (W := W) cfg))
    (hreg : ∀ i < r.len, RegistersApart (r.state i) (r.act i))
    (hser : ∀ i < r.len, SyncsApart (r.state i) (r.act i)) {i j : ℕ} (hc : SyncRuns r w i j) :
    syncSteps r w i j ≤ nrBucketsPerEpoch cfg + 6 ∧
      ((r.state j).sync w = .idle → syncSteps r w i j = nrBucketsPerEpoch cfg + 6) ∧
      ∀ k, i < k → k < j → ∀ c ∈ scanned cfg (r.state k) w, 0 < (r.state k).count c →
        ∃ t, Holds cfg c ((r.state k).reader t) ∧ lockSteps r t i k ≤ 2 ∧
          ∀ m, i < m → m ≤ k → Old (r.state i).epochLatest ((r.state m).reader t) := by
  have hs := serial_of_run hser
  have hinv : ∀ k ≤ r.len, GraceInv cfg hash (r.state k) := graceInv_of_run fun k hk =>
    ⟨hreg k hk, (hs k hk.le).retiresScanned _⟩
  have hread : ∀ k ≤ r.len, EpochsRead (r.state k) := by
    refine r.invariant ?_ fun k hk h => h.step (effect_of_step (r.next k hk))
    intro z hz t e he
    simp [hz.reader t, epochRead] at he
  have hdone := syncDone_of_runs hc hs hser
  refine ⟨hdone.le, fun hidle => ?_, ?_⟩
  · rw [hidle] at hdone
    exact hdone
  · intro k hik hkj c hscan hpos
    have hkr : k ≤ r.len := hkj.le.trans hc.le
    obtain ⟨hnext, t, ht, hold⟩ :=
      holder_of_scanned (hinv k hkr) (hs k hkr) (hread k hkr) hscan hpos
    have hlatest := hc.latest hser hik hkj.le
    rw [show (r.state k).epochOldest = (r.state i).epochLatest by omega] at hold
    obtain ⟨h1, h2⟩ := hc.old hik hkj.le t hold
    refine ⟨t, ht, h1.trans ?_, h2⟩
    cases (r.state k).reader t <;> simp [oldSteps]

/-- Two readers hold or attempt a lock in epoch 0 when the synchronizer begins; it spins on the counter
that they share, a third reader locks and unlocks meanwhile, and the call returns. -/
def spunSynchronize : Run (step tinyCfg fun _ : Fin 3 => 0) (Init (W := Unit) tinyCfg) :=
  Run.ofActs (freshZone (Fin 3) Unit)
    [.lock 0, .read 0, .read 0, .read 0, .lock 1, .read 1,
      .sync (), .sync (), .sync (), .sync (), .read 1, .sync (), .lock 2, .read 2, .read 2, .read 2,
      .unlock 0, .sync (), .unlock 2, .read 1, .read 1, .sync (), .sync (), .sync (), .sync ()]
    freshZone_init (by decide)

theorem spunSynchronize_bounded :
    SyncRuns spunSynchronize () 6 25 ∧ syncSteps spunSynchronize () 6 25 = nrBucketsPerEpoch tinyCfg + 6 ∧
      ∃ t, Holds tinyCfg 1 ((spunSynchronize.state 17).reader t) ∧ lockSteps spunSynchronize t 6 17 ≤ 2 := by
  have hc : SyncRuns spunSynchronize () 6 25 := ⟨by decide, by decide, rfl, by decide, by decide⟩
  have h := rcuSynchronize_bounded spunSynchronize (by decide) (by decide) hc
  obtain ⟨t, ht, hsteps, -⟩ := h.2.2 17 (by decide) (by decide) 1 (by decide) (by decide)
  exact ⟨hc, h.2.1 (by decide), t, ht, hsteps⟩

end Zone

end RcuTable
