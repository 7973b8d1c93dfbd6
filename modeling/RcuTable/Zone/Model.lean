import RcuTable.Lib.Trans

/-!
# Zone.Model — the RCU zone at the granularity of single atomic operations (RCU.cpp)

Reader threads `T` run `rcuRegisterReaderThread`, `rcuReadLock` and `rcuReadUnlock`; synchronizers `W`
run `rcuSynchronize`.  `Zone.step` takes one atomic load, store or read-modify-write of one thread, so
the runs of `Zone.step` are the sequentially consistent interleavings.  Thread-local work (reading
`tlsReaderBucketId`, hashing the thread id) rides on the atomic step that follows it.
-/

namespace RcuTable

def c_maxEpoches : ℕ := 2
def c_epochMask : ℕ := c_maxEpoches - 1

/-- What `rcuInitZoneWithBucketCounts` and the static initializers fix for good. -/
structure ZoneCfg where
  nrHashThreadBuckets : ℕ
  nrNonOverlappingBucketCount : ℕ
  hash_pos : 0 < nrHashThreadBuckets

/-- Where a reader thread stands.  `inside b e`: `rcuReadLock` has returned `e`; the code keeps only the
epoch, `b` records the bucket whose counter it bumped. -/
inductive ReaderPc where
  | idle
  | load (b : ℤ)
  | bump (b : ℤ) (e : ℕ)
  | check (b : ℤ) (e : ℕ)
  | undo (b : ℤ) (e : ℕ)
  | inside (b : ℤ) (e : ℕ)
  deriving DecidableEq

/-- Where a synchronizer stands in `rcuSynchronize`; `last` is its `lastEpoch`, `e` the value of
`epochOldest` from which it computed `epochRowId`, `i` its `iBucket`. -/
inductive SyncPc where
  | idle
  | test (last : ℕ)
  | row (last : ℕ)
  | scan (last e i : ℕ)
  | advance (last e : ℕ)
  deriving DecidableEq

/-- The shared state: the thread registry, the zone, and the program point of every thread.  `count` is
indexed by the offset of a counter from `epochsRing[0].pBuckets`, for any bucket id: the code has counters
only for those from 0 to `nrBucketsPerEpoch - 1`. -/
structure Zone (T W : Type) where
  tlsReaderBucketId : T → ℤ
  nextBucketId : ℤ
  count : ℤ → ℤ
  epochLatest : ℕ
  epochOldest : ℕ
  reader : T → ReaderPc
  sync : W → SyncPc

inductive ZoneAct (T W : Type) where
  | register (t : T)
  | lock (t : T)
  | read (t : T)
  | unlock (t : T)
  | sync (w : W)
  deriving Inhabited, DecidableEq

/-- The bucket a reader fetched for the lock it is in. -/
def ReaderPc.bucket : ReaderPc → Option ℤ
  | .idle => none
  | .load b | .bump b _ | .check b _ | .undo b _ | .inside b _ => some b

/-- The reader is between the return of its `rcuReadLock` and its `rcuReadUnlock`. -/
def ReaderPc.Inside (pc : ReaderPc) : Prop := ∃ b e, pc = .inside b e

@[simp] theorem ReaderPc.inside_inside (b : ℤ) (e : ℕ) : (ReaderPc.inside b e).Inside := ⟨b, e, rfl⟩

namespace Zone

variable (cfg : ZoneCfg)

section Code

variable {T W : Type} [DecidableEq T] [DecidableEq W] (hash : T → ℕ)

def nrBucketsPerEpoch : ℕ := cfg.nrHashThreadBuckets + cfg.nrNonOverlappingBucketCount

/-- `epoch & c_epochMask`. -/
def epochRowId (e : ℕ) : ℕ := e &&& c_epochMask

/-- `&zone.epochsRing[epochRowId].pBuckets[threadBucketId].count`, as an offset. -/
def slot (e : ℕ) (b : ℤ) : ℤ := (epochRowId e : ℤ) * (nrBucketsPerEpoch cfg : ℤ) + b

/-- `int ++`, which wraps at the top of the 32-bit range. -/
def incrInt32 (x : ℤ) : ℤ := if x = 2 ^ 31 - 1 then -2 ^ 31 else x + 1

def fetchThreadBucketId (z : Zone T W) (t : T) : ℤ :=
  if z.tlsReaderBucketId t ≠ -1 then z.tlsReaderBucketId t
  else (cfg.nrNonOverlappingBucketCount : ℤ) + ((hash t &&& (cfg.nrHashThreadBuckets - 1) : ℕ) : ℤ)

def rcuRegisterReaderThread (z : Zone T W) (t : T) : Bool × Zone T W :=
  if z.tlsReaderBucketId t ≠ -1 then (false, z)
  else
    let bucketId := z.nextBucketId
    let z := { z with nextBucketId := incrInt32 bucketId }
    if bucketId ≥ cfg.nrNonOverlappingBucketCount then (false, z)
    else (true, { z with tlsReaderBucketId := Function.update z.tlsReaderBucketId t bucketId })

/-- `count.fetch_add(d)` on one counter. -/
def fetchAdd (z : Zone T W) (c d : ℤ) : Zone T W :=
  { z with count := Function.update z.count c (z.count c + d) }

def setReader (z : Zone T W) (t : T) (pc : ReaderPc) : Zone T W :=
  { z with reader := Function.update z.reader t pc }

def setSync (z : Zone T W) (w : W) (pc : SyncPc) : Zone T W :=
  { z with sync := Function.update z.sync w pc }

/-- One atomic operation inside `rcuReadLock`. -/
def rcuReadLock (z : Zone T W) (t : T) : Option (Zone T W) :=
  match z.reader t with
  | .load b => some (z.setReader t (.bump b z.epochLatest))
  | .bump b e => some ((z.fetchAdd (slot cfg e b) 1).setReader t (.check b e))
  | .check b e =>
    -- the revalidation: on a changed epoch the increment is taken back and the loop starts over
    if z.epochLatest = e then some (z.setReader t (.inside b e)) else some (z.setReader t (.undo b e))
  | .undo b e => some ((z.fetchAdd (slot cfg e b) (-1)).setReader t (.load b))
  | _ => none

/-- One atomic operation inside `rcuSynchronize`. -/
def rcuSynchronize (z : Zone T W) (w : W) : Zone T W :=
  match z.sync w with
  | .idle => { z with epochLatest := z.epochLatest + 1 }.setSync w (.test z.epochLatest)
  | .test last => z.setSync w (if z.epochOldest ≤ last then .row last else .idle)
  | .row last => z.setSync w (.scan last z.epochOldest 0)
  | .scan last e i =>
    if i < nrBucketsPerEpoch cfg then
      -- the spin: a positive counter leaves the synchronizer where it is
      if z.count (slot cfg e i) > 0 then z else z.setSync w (.scan last e (i + 1))
    else z.setSync w (.advance last e)
  | .advance last _ => { z with epochOldest := z.epochOldest + 1 }.setSync w (.test last)

/-- One atomic step of one thread; `none` when the thread is not at such a step. -/
def step (z : Zone T W) : ZoneAct T W → Option (Zone T W)
  | .register t =>
    match z.reader t with
    | .idle => some (rcuRegisterReaderThread cfg z t).2
    | .inside _ _ => some (rcuRegisterReaderThread cfg z t).2
    | _ => none
  | .lock t =>
    match z.reader t with
    | .idle => some (z.setReader t (.load (fetchThreadBucketId cfg hash z t)))
    | _ => none
  | .read t => rcuReadLock cfg z t
  | .unlock t =>
    match z.reader t with
    | .inside _ e =>
      some ((z.fetchAdd (slot cfg e (fetchThreadBucketId cfg hash z t)) (-1)).setReader t .idle)
    | _ => none
  | .sync w => some (rcuSynchronize cfg z w)

/-- A zone right after its initialization; any threads may have registered before. -/
structure Init (z : Zone T W) : Prop where
  tls : ∀ t, z.tlsReaderBucketId t = -1 ∨
    0 ≤ z.tlsReaderBucketId t ∧ z.tlsReaderBucketId t < cfg.nrNonOverlappingBucketCount
  next : 0 ≤ z.nextBucketId
  count : ∀ c, z.count c = 0
  latest : z.epochLatest = 0
  oldest : z.epochOldest = 0
  reader : ∀ t, z.reader t = .idle
  sync : ∀ w, z.sync w = .idle

end Code

/-! ### Field lemmas -/

section Fields

variable {T W : Type} (z : Zone T W) (t : T) (w : W) (pc : ReaderPc) (sc : SyncPc) (c d : ℤ)

section
variable [DecidableEq T]

@[simp] theorem setReader_tls : (z.setReader t pc).tlsReaderBucketId = z.tlsReaderBucketId := rfl
@[simp] theorem setReader_next : (z.setReader t pc).nextBucketId = z.nextBucketId := rfl
@[simp] theorem setReader_count : (z.setReader t pc).count = z.count := rfl
@[simp] theorem setReader_latest : (z.setReader t pc).epochLatest = z.epochLatest := rfl
@[simp] theorem setReader_oldest : (z.setReader t pc).epochOldest = z.epochOldest := rfl
@[simp] theorem setReader_sync : (z.setReader t pc).sync = z.sync := rfl
@[simp] theorem setReader_reader :
    (z.setReader t pc).reader = Function.update z.reader t pc := rfl

end

section
variable [DecidableEq W]

@[simp] theorem setSync_tls : (z.setSync w sc).tlsReaderBucketId = z.tlsReaderBucketId := rfl
@[simp] theorem setSync_next : (z.setSync w sc).nextBucketId = z.nextBucketId := rfl
@[simp] theorem setSync_count : (z.setSync w sc).count = z.count := rfl
@[simp] theorem setSync_latest : (z.setSync w sc).epochLatest = z.epochLatest := rfl
@[simp] theorem setSync_oldest : (z.setSync w sc).epochOldest = z.epochOldest := rfl
@[simp] theorem setSync_reader : (z.setSync w sc).reader = z.reader := rfl
@[simp] theorem setSync_sync : (z.setSync w sc).sync = Function.update z.sync w sc := rfl

end

@[simp] theorem fetchAdd_tls : (z.fetchAdd c d).tlsReaderBucketId = z.tlsReaderBucketId := rfl
@[simp] theorem fetchAdd_next : (z.fetchAdd c d).nextBucketId = z.nextBucketId := rfl
@[simp] theorem fetchAdd_latest : (z.fetchAdd c d).epochLatest = z.epochLatest := rfl
@[simp] theorem fetchAdd_oldest : (z.fetchAdd c d).epochOldest = z.epochOldest := rfl
@[simp] theorem fetchAdd_reader : (z.fetchAdd c d).reader = z.reader := rfl
@[simp] theorem fetchAdd_sync : (z.fetchAdd c d).sync = z.sync := rfl

end Fields

/-! ### What a registration leaves alone -/

section Register

variable {T W : Type} [DecidableEq T] (z : Zone T W) (t : T)

@[simp] theorem register_reader : (rcuRegisterReaderThread cfg z t).2.reader = z.reader := by
  unfold rcuRegisterReaderThread; dsimp only; split_ifs <;> rfl

@[simp] theorem register_sync : (rcuRegisterReaderThread cfg z t).2.sync = z.sync := by
  unfold rcuRegisterReaderThread; dsimp only; split_ifs <;> rfl

@[simp] theorem register_count : (rcuRegisterReaderThread cfg z t).2.count = z.count := by
  unfold rcuRegisterReaderThread; dsimp only; split_ifs <;> rfl

@[simp] theorem register_latest :
    (rcuRegisterReaderThread cfg z t).2.epochLatest = z.epochLatest := by
  unfold rcuRegisterReaderThread; dsimp only; split_ifs <;> rfl

@[simp] theorem register_oldest :
    (rcuRegisterReaderThread cfg z t).2.epochOldest = z.epochOldest := by
  unfold rcuRegisterReaderThread; dsimp only; split_ifs <;> rfl

theorem register_tls_of_ne {t' : T} (h : t' ≠ t) :
    (rcuRegisterReaderThread cfg z t).2.tlsReaderBucketId t' = z.tlsReaderBucketId t' := by
  unfold rcuRegisterReaderThread; dsimp only; split_ifs <;> simp [h]

end Register

theorem epochRowId_eq (e : ℕ) : epochRowId e = e % 2 := Nat.and_one_is_mod e

theorem slot_inj {e : ℕ} {b b' : ℤ} (h : slot cfg e b = slot cfg e b') : b = b' := by
  unfold slot at h
  omega

/-- A thread hash always lands behind the registered threads' buckets. -/
theorem hashBucket_lt (n : ℕ) : n &&& (cfg.nrHashThreadBuckets - 1) < cfg.nrHashThreadBuckets := by
  have := cfg.hash_pos
  have h := Nat.and_le_right (n := n) (m := cfg.nrHashThreadBuckets - 1)
  omega

/-- The bucket depends on the registry only. -/
theorem fetchThreadBucketId_congr {T W : Type} {hash : T → ℕ} {z z' : Zone T W} {t : T}
    (h : z'.tlsReaderBucketId t = z.tlsReaderBucketId t) :
    fetchThreadBucketId cfg hash z' t = fetchThreadBucketId cfg hash z t := by
  unfold fetchThreadBucketId
  rw [h]

end Zone

end RcuTable
