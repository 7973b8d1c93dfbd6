import RcuTable.Zone.Model

/-!
# Zone.Effect — what one step of a zone can do, and the reader counters

`Effect` lists the atomic steps of the zone, one constructor a program point; `effect_of_step` inverts
`Zone.step` once, and every invariant is proved by cases on it.  `Accounted` is the bookkeeping of the
counters: each equals the number of threads that hold it.
-/

namespace RcuTable

open Trans

namespace Zone

variable {T W : Type} [DecidableEq T] {cfg : ZoneCfg} {hash : T → ℕ}

section Effects

variable [DecidableEq W]

/-- The effect of one enabled action, with the program point it is taken at. -/
inductive Effect (cfg : ZoneCfg) (hash : T → ℕ) (z : Zone T W) : ZoneAct T W → Zone T W → Prop
  | register (t : T) (h : z.reader t = .idle ∨ (z.reader t).Inside) :
      Effect cfg hash z (.register t) (rcuRegisterReaderThread cfg z t).2
  | lock (t : T) (h : z.reader t = .idle) :
      Effect cfg hash z (.lock t) (z.setReader t (.load (fetchThreadBucketId cfg hash z t)))
  | load (t : T) (b : ℤ) (h : z.reader t = .load b) :
      Effect cfg hash z (.read t) (z.setReader t (.bump b z.epochLatest))
  | bump (t : T) (b : ℤ) (e : ℕ) (h : z.reader t = .bump b e) :
      Effect cfg hash z (.read t) ((z.fetchAdd (slot cfg e b) 1).setReader t (.check b e))
  | valid (t : T) (b : ℤ) (h : z.reader t = .check b z.epochLatest) :
      Effect cfg hash z (.read t) (z.setReader t (.inside b z.epochLatest))
  | stale (t : T) (b : ℤ) (e : ℕ) (h : z.reader t = .check b e) (hne : z.epochLatest ≠ e) :
      Effect cfg hash z (.read t) (z.setReader t (.undo b e))
  | undo (t : T) (b : ℤ) (e : ℕ) (h : z.reader t = .undo b e) :
      Effect cfg hash z (.read t) ((z.fetchAdd (slot cfg e b) (-1)).setReader t (.load b))
  | unlock (t : T) (b : ℤ) (e : ℕ) (h : z.reader t = .inside b e) :
      Effect cfg hash z (.unlock t)
        ((z.fetchAdd (slot cfg e (fetchThreadBucketId cfg hash z t)) (-1)).setReader t .idle)
  | start (w : W) (h : z.sync w = .idle) :
      Effect cfg hash z (.sync w)
        ({ z with epochLatest := z.epochLatest + 1 }.setSync w (.test z.epochLatest))
  | go (w : W) (last : ℕ) (h : z.sync w = .test last) (hle : z.epochOldest ≤ last) :
      Effect cfg hash z (.sync w) (z.setSync w (.row last))
  | done (w : W) (last : ℕ) (h : z.sync w = .test last) (hlt : last < z.epochOldest) :
      Effect cfg hash z (.sync w) (z.setSync w .idle)
  | row (w : W) (last : ℕ) (h : z.sync w = .row last) :
      Effect cfg hash z (.sync w) (z.setSync w (.scan last z.epochOldest 0))
  | spin (w : W) (last e i : ℕ) (h : z.sync w = .scan last e i) :
      Effect cfg hash z (.sync w) z
  | pass (w : W) (last e i : ℕ) (h : z.sync w = .scan last e i)
      (hz : z.count (slot cfg e i) ≤ 0) :
      Effect cfg hash z (.sync w) (z.setSync w (.scan last e (i + 1)))
  | scanned (w : W) (last e i : ℕ) (h : z.sync w = .scan last e i)
      (hi : nrBucketsPerEpoch cfg ≤ i) :
      Effect cfg hash z (.sync w) (z.setSync w (.advance last e))
  | advance (w : W) (last e : ℕ) (h : z.sync w = .advance last e) :
      Effect cfg hash z (.sync w)
        ({ z with epochOldest := z.epochOldest + 1 }.setSync w (.test last))

theorem effect_of_sync (z : Zone T W) (w : W) :
    Effect cfg hash z (.sync w) (rcuSynchronize cfg z w) := by
  unfold rcuSynchronize
  cases h : z.sync w with
  | idle => exact .start w h
  | test last =>
    by_cases hle : z.epochOldest ≤ last
    · simpa [hle] using Effect.go w last h hle
    · simpa [hle] using Effect.done w last h (by omega)
  | row last => exact .row w last h
  | scan last e i =>
    by_cases hi : i < nrBucketsPerEpoch cfg
    · by_cases hz : z.count (slot cfg e i) > 0
      · simpa [hi, hz] using Effect.spin w last e i h
      · simpa [hi, hz] using Effect.pass w last e i h (by omega)
    · simpa [hi] using Effect.scanned w last e i h (by omega)
  | advance last e => exact .advance w last e h

theorem effect_of_read {z z' : Zone T W} {t : T} (h : rcuReadLock cfg z t = some z') :
    Effect cfg hash z (.read t) z' := by
  unfold rcuReadLock at h
  cases hr : z.reader t with
  | load b => simp only [hr, Option.some.injEq] at h; subst h; exact .load t b hr
  | bump b e => simp only [hr, Option.some.injEq] at h; subst h; exact .bump t b e hr
  | check b e =>
    by_cases he : z.epochLatest = e
    · subst he
      simp only [hr, if_pos, Option.some.injEq] at h
      subst h
      exact .valid t b hr
    · simp only [hr, if_neg he, Option.some.injEq] at h
      subst h
      exact .stale t b e hr he
  | undo b e => simp only [hr, Option.some.injEq] at h; subst h; exact .undo t b e hr
  | _ => simp [hr] at h

theorem effect_of_step {z z' : Zone T W} {a : ZoneAct T W} (h : step cfg hash z a = some z') :
    Effect cfg hash z a z' := by
  cases a with
  | register t =>
    cases hr : z.reader t with
    | idle => simp only [step, hr, Option.some.injEq] at h; subst h; exact .register t (.inl hr)
    | inside b e =>
      simp only [step, hr, Option.some.injEq] at h
      subst h
      exact .register t (.inr ⟨b, e, hr⟩)
    | _ => simp [step, hr] at h
  | lock t =>
    cases hr : z.reader t with
    | idle => simp only [step, hr, Option.some.injEq] at h; subst h; exact .lock t hr
    | _ => simp [step, hr] at h
  | read t => exact effect_of_read h
  | unlock t =>
    cases hr : z.reader t with
    | inside b e => simp only [step, hr, Option.some.injEq] at h; subst h; exact .unlock t b e hr
    | _ => simp [step, hr] at h
  | sync w => simp only [step, Option.some.injEq] at h; subst h; exact effect_of_sync z w

/-- Only a registration writes the registry. -/
theorem Effect.tls {z z' : Zone T W} {a : ZoneAct T W} (h : Effect cfg hash z a z') (t : T)
    (ha : a ≠ .register t) : z'.tlsReaderBucketId t = z.tlsReaderBucketId t := by
  cases h with
  | register t' => exact register_tls_of_ne cfg z t' fun h => ha (h ▸ rfl)
  | _ => rfl

/-- A reader leaves its critical section only by its own unlock. -/
theorem Effect.stays_inside {z z' : Zone T W} {a : ZoneAct T W} (h : Effect cfg hash z a z') {t : T}
    {b : ℤ} {e : ℕ} (ht : z.reader t = .inside b e) (ha : a ≠ .unlock t) :
    z'.reader t = .inside b e := by
  cases h with
  | register t' _ => simpa using ht
  | start | go | done | row | spin | pass | scanned | advance => exact ht
  | _ t' =>
    by_cases htt : t = t'
    · subst htt
      simp_all
    · simpa [htt] using ht

/-- A reader fetches its bucket when it begins to lock, and keeps it. -/
theorem Effect.bucket {z z' : Zone T W} {a : ZoneAct T W} (h : Effect cfg hash z a z') {t : T} {b : ℤ}
    (ht : (z'.reader t).bucket = some b) :
    (z.reader t).bucket = some b ∨ a = .lock t ∧ fetchThreadBucketId cfg hash z t = b := by
  cases h with
  | register t' _ => exact Or.inl (by simpa using ht)
  | start | go | done | row | spin | pass | scanned | advance => exact Or.inl ht
  | lock t' _ =>
    by_cases htt : t = t'
    · subst htt
      rw [setReader_reader, Function.update_self] at ht
      exact Or.inr ⟨rfl, Option.some.inj ht⟩
    · exact Or.inl (by simpa [htt] using ht)
  | _ t' =>
    by_cases htt : t = t'
    · subst htt
      simp_all [ReaderPc.bucket]
    · exact Or.inl (by simpa [htt] using ht)

end Effects

/-! ### The reader counters -/

/-- The reader is at a program point where its increment of the counter at offset `c` stands. -/
def Holds (cfg : ZoneCfg) (c : ℤ) : ReaderPc → Prop
  | .check b e | .undo b e | .inside b e => slot cfg e b = c
  | _ => False

instance (c : ℤ) : DecidablePred (Holds cfg c) := fun pc => by
  cases pc <;> unfold Holds <;> infer_instance

variable [Fintype T]

/-- The number of threads that hold or are attempting a lock through the counter at offset `c`. -/
def holders (cfg : ZoneCfg) (z : Zone T W) (c : ℤ) : ℤ := tally z.reader (Holds cfg c)

/-- Every counter equals the number of its holders. -/
def Accounted (cfg : ZoneCfg) (z : Zone T W) : Prop := ∀ c, z.count c = holders cfg z c

/-- Every reader uses the bucket that `fetchThreadBucketId` would give it now. -/
def BucketKept (cfg : ZoneCfg) (hash : T → ℕ) (z : Zone T W) : Prop :=
  ∀ t b, (z.reader t).bucket = some b → fetchThreadBucketId cfg hash z t = b

theorem holders_setReader (z : Zone T W) (t : T) (pc : ReaderPc) (c : ℤ) :
    holders cfg (z.setReader t pc) c = holders cfg z c -
      (if Holds cfg c (z.reader t) then 1 else 0) + (if Holds cfg c pc then 1 else 0) :=
  tally_update _ _ _

omit [DecidableEq T] in
theorem holders_fetchAdd (z : Zone T W) (c d c' : ℤ) :
    holders cfg (z.fetchAdd c d) c' = holders cfg z c' := rfl

/-- A thread that moves between program points of the same standing changes no counter. -/
theorem Accounted.move {z : Zone T W} (hz : Accounted cfg z) {t : T} {pc : ReaderPc}
    (h : ∀ c, Holds cfg c pc ↔ Holds cfg c (z.reader t)) : Accounted cfg (z.setReader t pc) := by
  intro c
  have h1 := hz c
  rw [holders_setReader, setReader_count, h1]
  by_cases hc : Holds cfg c (z.reader t)
  · simp [hc, (h c).mpr hc]
  · simp [hc, (h c).not.mpr hc]

/-- A thread that adds `d` to one counter and gains `d` in standing there keeps the books. -/
theorem Accounted.add {z : Zone T W} (hz : Accounted cfg z) {t : T} {pc : ReaderPc} {c d : ℤ}
    (h : ∀ c', (if Holds cfg c' pc then (1 : ℤ) else 0) =
      (if Holds cfg c' (z.reader t) then 1 else 0) + if c' = c then d else 0) :
    Accounted cfg ((z.fetchAdd c d).setReader t pc) := by
  intro c'
  have h1 := hz c'
  rw [holders_setReader, h c', setReader_count, holders_fetchAdd, fetchAdd_reader]
  unfold fetchAdd
  by_cases hc : c' = c
  · subst hc
    simp only [Function.update_self, if_true]
    omega
  · simp only [Function.update_of_ne hc, if_neg hc]
    omega

variable [DecidableEq W]

/-- **Accounting step**: while an unlock uses the bucket of its lock, every step keeps the books. -/
theorem Accounted.step {z z' : Zone T W} {a : ZoneAct T W} (hz : Accounted cfg z)
    (h : Effect cfg hash z a z') (hb : ∀ t b e, a = .unlock t → z.reader t = .inside b e →
      fetchThreadBucketId cfg hash z t = b) : Accounted cfg z' := by
  cases h with
  | register t h => intro c; simpa [holders] using hz c
  | lock t h => exact hz.move fun c => by simp [Holds, h]
  | load t b h => exact hz.move fun c => by simp [Holds, h]
  | bump t b e h => exact hz.add fun c => by simp [Holds, h, eq_comm]
  | valid t b h => exact hz.move fun c => by simp [Holds, h]
  | stale t b e h hne => exact hz.move fun c => by simp [Holds, h]
  | undo t b e h => exact hz.add fun c => by by_cases hc : c = slot cfg e b <;> simp [Holds, h, hc, eq_comm]
  | unlock t b e h =>
    -- the bucket fetched again by `rcuReadUnlock` is the one the lock used
    rw [hb t b e rfl h]
    exact hz.add fun c => by by_cases hc : c = slot cfg e b <;> simp [Holds, h, hc, eq_comm]
  | _ => exact hz

omit [Fintype T] in
/-- **Bucket step**: a registration that leaves every reader in a lock its bucket keeps all buckets. -/
theorem BucketKept.step {z z' : Zone T W} {a : ZoneAct T W} (hb : BucketKept cfg hash z)
    (h : Effect cfg hash z a z') (ha : ∀ t, a = .register t → z.reader t ≠ .idle →
      z'.tlsReaderBucketId t = z.tlsReaderBucketId t) : BucketKept cfg hash z' := by
  intro t b ht
  have htls : z'.tlsReaderBucketId t = z.tlsReaderBucketId t := by
    by_cases hat : a = .register t
    · refine ha t hat fun hidle => ?_
      rcases h.bucket ht with hold | ⟨hl, -⟩
      · rw [hidle] at hold
        cases hold
      · rw [hat] at hl
        cases hl
    · exact h.tls t hat
  rw [fetchThreadBucketId_congr cfg htls]
  rcases h.bucket ht with hold | ⟨-, hnew⟩
  · exact hb t b hold
  · exact hnew

end Zone

end RcuTable
