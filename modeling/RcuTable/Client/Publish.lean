import RcuTable.Zone.Young
import RcuTable.Zone.Accounting

/-!
# Client.Publish — one object behind an RCU protected pointer (`fRCU`, `fRCURegister` of RCUTests.cpp)

The writer allocates a new object, publishes it in `pCurrent`, calls `rcuSynchronize` and deletes the old one;
each reader loads `pCurrent` and reads the object inside a critical section.  `RCUBenchmark.step` takes one
atomic operation of one thread, and has no step for the use or the deletion of an object that is not there.
`fRCU_safe`: no such step is ever wanted, a reader finds the object as it was when it was loaded, and nothing is
lost.
-/

namespace RcuTable

open Trans

/-- Where the writer stands in a round of its loop. -/
inductive ModifyPc (P : Type) where
  | load
  | new (pOld : P)
  | store (pOld p : P)
  | synchronize (pOld : P)
  | delete (pOld : P)

/-- Where a reader stands: it has loaded no pointer, is about to use the one it has, or has used it. -/
inductive UsePc (P : Type) where
  | before
  | use (p : P)
  | after

/-- The members that `fRCU` uses; `object` is what is allocated at an address. -/
structure RCUBenchmark (T P V : Type) where
  zone : Zone T Unit
  pCurrent : P
  object : P → Option V
  writer : ModifyPc P
  reader : T → UsePc P

inductive BenchmarkAct (T P V : Type) where
  | register (t : T)
  | lock (t : T)
  | enter (t : T)
  | load (t : T)
  | use (t : T)
  | unlock (t : T)
  | loadOld
  | new (p : P) (v : V)
  | store
  | wait
  | delete
  deriving DecidableEq

variable {T P V : Type}

instance : Inhabited (BenchmarkAct T P V) := ⟨.wait⟩

namespace RCUBenchmark

section Code

variable [DecidableEq T] [DecidableEq P] (cfg : ZoneCfg) (hash : T → ℕ)

def setReader (s : RCUBenchmark T P V) (t : T) (pc : UsePc P) : RCUBenchmark T P V :=
  { s with reader := Function.update s.reader t pc }

def step (s : RCUBenchmark T P V) : BenchmarkAct T P V → Option (RCUBenchmark T P V)
  | .register t =>
    match s.zone.reader t with
    | .idle => (Zone.step cfg hash s.zone (.register t)).map fun z => { s with zone := z }
    | _ => none
  | .lock t => (Zone.step cfg hash s.zone (.lock t)).map fun z => { s with zone := z }
  | .enter t => (Zone.step cfg hash s.zone (.read t)).map fun z => { s with zone := z }
  | .load t =>
    match s.zone.reader t, s.reader t with
    | .inside _ _, .before => some (s.setReader t (.use s.pCurrent))
    | _, _ => none
  | .use t =>
    match s.reader t with
    | .use p => (s.object p).map fun _ => s.setReader t .after
    | _ => none
  | .unlock t =>
    match s.reader t with
    | .after => (Zone.step cfg hash s.zone (.unlock t)).map fun z => { s with zone := z }.setReader t .before
    | _ => none
  | .loadOld =>
    match s.writer with
    | .load => some { s with writer := .new s.pCurrent }
    | _ => none
  | .new p v =>
    -- the allocator hands out any address at which nothing lives
    match s.writer, s.object p with
    | .new pOld, none => some { s with object := Function.update s.object p (some v), writer := .store pOld p }
    | _, _ => none
  | .store =>
    match s.writer with
    | .store pOld p => some { s with pCurrent := p, writer := .synchronize pOld }
    | _ => none
  | .wait =>
    match s.writer with
    | .synchronize pOld =>
      let z := Zone.rcuSynchronize cfg s.zone ()
      match z.sync () with
      | .idle => some { s with zone := z, writer := .delete pOld }
      | _ => some { s with zone := z }
    | _ => none
  | .delete =>
    match s.writer with
    | .delete pOld =>
      (s.object pOld).map fun _ => { s with object := Function.update s.object pOld none, writer := .load }
    | _ => none

/-- After `rcuInitZone`, with the first object in `pCurrent`. -/
structure Init (s : RCUBenchmark T P V) : Prop where
  zone : Zone.Init cfg s.zone
  current : ∀ q, s.object q ≠ none ↔ q = s.pCurrent
  writer : s.writer = .load
  reader : ∀ t, s.reader t = .before

omit [DecidableEq P] in
@[simp] theorem setReader_self (s : RCUBenchmark T P V) (t : T) (pc : UsePc P) :
    (s.setReader t pc).reader t = pc := Function.update_self ..

omit [DecidableEq P] in
theorem setReader_of_ne (s : RCUBenchmark T P V) {t t' : T} (pc : UsePc P) (h : t' ≠ t) :
    (s.setReader t pc).reader t' = s.reader t' := Function.update_of_ne h ..

/-! ### What a step can do -/

/-- The step in the zone that a reader takes outside its critical section. -/
def zoneAct : BenchmarkAct T P V → Option (ZoneAct T Unit)
  | .register t => some (.register t)
  | .lock t => some (.lock t)
  | .enter t => some (.read t)
  | _ => none

/-- `RCUBenchmark.step` as a relation. -/
inductive Takes (s : RCUBenchmark T P V) : BenchmarkAct T P V → RCUBenchmark T P V → Prop
  | zone {a : BenchmarkAct T P V} {b : ZoneAct T Unit} {z : Zone T Unit} (hb : zoneAct a = some b)
      (hr : ∀ t, a = .register t → s.zone.reader t = .idle) (hz : Zone.step cfg hash s.zone b = some z) :
      Takes s a { s with zone := z }
  | load {t : T} (hin : (s.zone.reader t).Inside) (hr : s.reader t = .before) :
      Takes s (.load t) (s.setReader t (.use s.pCurrent))
  | use {t : T} {p : P} {v : V} (hr : s.reader t = .use p) (hp : s.object p = some v) :
      Takes s (.use t) (s.setReader t .after)
  | unlock {t : T} {z : Zone T Unit} (hr : s.reader t = .after)
      (hz : Zone.step cfg hash s.zone (.unlock t) = some z) :
      Takes s (.unlock t) ({ s with zone := z }.setReader t .before)
  | loadOld (hw : s.writer = .load) : Takes s .loadOld { s with writer := .new s.pCurrent }
  | new {pOld p : P} {v : V} (hw : s.writer = .new pOld) (hp : s.object p = none) :
      Takes s (.new p v) { s with object := Function.update s.object p (some v), writer := .store pOld p }
  | store {pOld p : P} (hw : s.writer = .store pOld p) :
      Takes s .store { s with pCurrent := p, writer := .synchronize pOld }
  | wait {pOld : P} (hw : s.writer = .synchronize pOld)
      (hz : (Zone.rcuSynchronize cfg s.zone ()).sync () ≠ .idle) :
      Takes s .wait { s with zone := Zone.rcuSynchronize cfg s.zone () }
  | synchronized {pOld : P} (hw : s.writer = .synchronize pOld)
      (hz : (Zone.rcuSynchronize cfg s.zone ()).sync () = .idle) :
      Takes s .wait { s with zone := Zone.rcuSynchronize cfg s.zone (), writer := .delete pOld }
  | delete {pOld : P} {v : V} (hw : s.writer = .delete pOld) (hp : s.object pOld = some v) :
      Takes s .delete { s with object := Function.update s.object pOld none, writer := .load }

variable {cfg hash} {s s' : RCUBenchmark T P V} {a : BenchmarkAct T P V}

theorem step_cases (hs : s.step cfg hash a = some s') : Takes cfg hash s a s' := by
  cases a with
  | register t =>
    simp only [step] at hs
    split at hs
    case h_2 => cases hs
    case h_1 hidle =>
      obtain ⟨z, hz, rfl⟩ := Option.map_eq_some_iff.mp hs
      exact .zone rfl (fun t' ht => by injection ht with ht; exact ht ▸ hidle) hz
  | lock t =>
    obtain ⟨z, hz, rfl⟩ := Option.map_eq_some_iff.mp hs
    exact .zone rfl (by simp) hz
  | enter t =>
    obtain ⟨z, hz, rfl⟩ := Option.map_eq_some_iff.mp hs
    exact .zone rfl (by simp) hz
  | load t =>
    simp only [step] at hs
    split at hs
    case h_2 => cases hs
    case h_1 b e hin hr =>
      obtain rfl := Option.some.inj hs
      exact .load ⟨b, e, hin⟩ hr
  | use t =>
    simp only [step] at hs
    split at hs
    case h_2 => cases hs
    case h_1 hr =>
      obtain ⟨v, hv, rfl⟩ := Option.map_eq_some_iff.mp hs
      exact .use hr hv
  | unlock t =>
    simp only [step] at hs
    split at hs
    case h_2 => cases hs
    case h_1 hr =>
      obtain ⟨z, hz, rfl⟩ := Option.map_eq_some_iff.mp hs
      exact .unlock hr hz
  | loadOld =>
    simp only [step] at hs
    split at hs
    case h_2 => cases hs
    case h_1 hw =>
      obtain rfl := Option.some.inj hs
      exact .loadOld hw
  | new p v =>
    simp only [step] at hs
    split at hs
    case h_2 => cases hs
    case h_1 hw hp =>
      obtain rfl := Option.some.inj hs
      exact .new hw hp
  | store =>
    simp only [step] at hs
    split at hs
    case h_2 => cases hs
    case h_1 hw =>
      obtain rfl := Option.some.inj hs
      exact .store hw
  | wait =>
    simp only [step] at hs
    split at hs
    case h_2 => cases hs
    case h_1 hw =>
      split at hs
      case h_1 hidle =>
        obtain rfl := Option.some.inj hs
        exact .synchronized hw hidle
      case h_2 hne =>
        obtain rfl := Option.some.inj hs
        exact .wait hw hne
  | delete =>
    simp only [step] at hs
    split at hs
    case h_2 => cases hs
    case h_1 hw =>
      obtain ⟨v, hv, rfl⟩ := Option.map_eq_some_iff.mp hs
      exact .delete hw hv

end Code

/-! ### The invariant -/

/-- The object beside the current one: the new one that is not published yet, or the old one. -/
def other : ModifyPc P → Option P
  | .store _ p => some p
  | .synchronize pOld | .delete pOld => some pOld
  | .load | .new _ => none

/-- What the writer has loaded is the current object until it publishes the new one. -/
def Loaded (pCurrent : P) : ModifyPc P → Prop
  | .new pOld | .store pOld _ => pOld = pCurrent
  | _ => True

structure Inv [Fintype T] (cfg : ZoneCfg) (hash : T → ℕ) (s : RCUBenchmark T P V) : Prop where
  zone : Zone.Sound cfg hash s.zone
  outside : ∀ t, ¬ (s.zone.reader t).Inside → s.reader t = .before
  sync : s.zone.sync () ≠ .idle → ∃ pOld, s.writer = .synchronize pOld
  live : ∀ q, s.object q ≠ none ↔ q = s.pCurrent ∨ other s.writer = some q
  loaded : Loaded s.pCurrent s.writer
  fresh : other s.writer ≠ some s.pCurrent
  /-- a reader uses the current object, or the old one that the writer is waiting to delete -/
  held : ∀ t p, s.reader t = .use p → p = s.pCurrent ∨ s.writer = .synchronize p ∧ ¬ s.zone.Young t

section Steps

variable [DecidableEq T] [Fintype T] {cfg : ZoneCfg} {hash : T → ℕ} {s s' : RCUBenchmark T P V}
  {a : BenchmarkAct T P V} {t : T} {p : P}

omit [DecidableEq T] in
theorem inv_init (h : Init cfg s) : Inv cfg hash s := by
  refine ⟨h.zone.sound, fun t _ => h.reader t, fun hne => absurd (h.zone.sync ()) hne, ?_, ?_, ?_, ?_⟩
  · intro q
    rw [h.current q, h.writer]
    simp [other]
  · rw [h.writer]
    trivial
  · rw [h.writer]
    simp [other]
  · intro t p hp
    rw [h.reader t] at hp
    cases hp

omit [DecidableEq T] in
theorem Inv.inside (hi : Inv cfg hash s) (hp : s.reader t ≠ .before) : (s.zone.reader t).Inside := by
  by_contra hout
  exact hp (hi.outside t hout)

omit [DecidableEq T] in
/-- What a reader is about to use is there. -/
theorem Inv.object_use (hi : Inv cfg hash s) (hp : s.reader t = .use p) : s.object p ≠ none := by
  rw [hi.live p]
  rcases hi.held t p hp with rfl | ⟨hw, -⟩
  · exact .inl rfl
  · exact .inr (by rw [hw]; rfl)

/-- One reader moves to a point where it has nothing in use. -/
theorem Inv.setReader (hi : Inv cfg hash s) {pc : UsePc P} (hout : ¬ (s.zone.reader t).Inside → pc = .before)
    (hpc : ∀ p, pc = .use p → p = s.pCurrent) : Inv cfg hash (s.setReader t pc) := by
  refine ⟨hi.zone, fun t' hn => ?_, hi.sync, hi.live, hi.loaded, hi.fresh, fun t' p hp => ?_⟩
  · by_cases ht : t' = t
    · subst ht
      exact (setReader_self ..).trans (hout hn)
    · exact (setReader_of_ne _ _ ht).trans (hi.outside t' hn)
  · by_cases ht : t' = t
    · subst ht
      rw [setReader_self] at hp
      exact .inl (hpc p hp)
    · rw [setReader_of_ne _ _ ht] at hp
      exact hi.held t' p hp

/-- A reader steps in the zone. -/
theorem Inv.setZone (hi : Inv cfg hash s) {b : ZoneAct T Unit} {z : Zone T Unit}
    (he : Zone.Effect cfg hash s.zone b z) (hb : ∀ w, b ≠ .sync w) (hreg : Zone.RegistersApart s.zone b)
    (hout : ∀ t, b = .unlock t → s.reader t = .before) : Inv cfg hash { s with zone := z } := by
  have hstay : ∀ t, s.reader t ≠ .before → (s.zone.reader t).Inside ∧ z.reader t = s.zone.reader t := by
    intro t ht
    obtain ⟨b', e, hin⟩ := hi.inside ht
    refine ⟨⟨b', e, hin⟩, (he.stays_inside hin ?_).trans hin.symm⟩
    exact fun hact => ht (hout t hact)
  refine ⟨hi.zone.step he hreg, fun t hn => ?_, ?_, hi.live, hi.loaded, hi.fresh, fun t p hp => ?_⟩
  · by_contra ht
    obtain ⟨hin, hsame⟩ := hstay t ht
    exact hn (show (z.reader t).Inside by rwa [hsame])
  · rw [show ({ s with zone := z } : RCUBenchmark T P V).zone.sync = s.zone.sync from (he.same hb).1]
    exact hi.sync
  · obtain ⟨hin, -⟩ := hstay t (by rw [show s.reader t = .use p from hp]; simp)
    exact (hi.held t p hp).imp_right fun ⟨hw, hy⟩ => ⟨hw, fun hyoung => hy (he.young hb hin hyoung)⟩

theorem Inv.zone_synchronize (hi : Inv cfg hash s) : Zone.Sound cfg hash (Zone.rcuSynchronize cfg s.zone ()) ∧
    ∀ t, ¬ ((Zone.rcuSynchronize cfg s.zone ()).reader t).Inside → s.reader t = .before := by
  refine ⟨hi.zone.step (Zone.effect_of_sync s.zone ()) trivial, fun t hn => ?_⟩
  rw [Zone.synchronize_reader] at hn
  exact hi.outside t hn

variable [DecidableEq P]

/-- **One step** keeps the invariant. -/
theorem Inv.step (hi : Inv cfg hash s) (hn : ∀ t, a = .register t → s.zone.nextBucketId ≠ 2 ^ 31 - 1)
    (hs : s.step cfg hash a = some s') : Inv cfg hash s' := by
  have hidle : (∀ pOld, s.writer ≠ .synchronize pOld) → s.zone.sync () = .idle := by
    intro hne
    by_contra hz
    obtain ⟨pOld, hw⟩ := hi.sync hz
    exact hne pOld hw
  -- outside its `rcuSynchronize` the writer's readers use the current object only
  have hcurrent : (∀ pOld, s.writer ≠ .synchronize pOld) → ∀ t p, s.reader t = .use p → p = s.pCurrent :=
    fun hne t p hp => (hi.held t p hp).resolve_right fun h => hne p h.1
  cases step_cases hs with
  | @zone _ b z hb hr hz =>
    have he := Zone.effect_of_step hz
    cases a with
    | register t =>
      obtain rfl := Option.some.inj hb
      exact hi.setZone he (by simp) (fun _ => ⟨hr t rfl, hn t rfl⟩) (by simp)
    | lock t | enter t =>
      obtain rfl := Option.some.inj hb
      exact hi.setZone he (by simp) trivial (by simp)
    | _ => cases hb
  | load hin _ => exact hi.setReader (fun hout => absurd hin hout) fun p hp => by injection hp with hp; exact hp.symm
  | use hr _ => exact hi.setReader (fun hout => absurd (hi.inside (by rw [hr]; simp)) hout) fun p hp => by cases hp
  | @unlock t z hr hz =>
    have hbefore : Inv cfg hash (s.setReader t .before) := hi.setReader (fun _ => rfl) fun p hp => by cases hp
    refine hbefore.setZone (Zone.effect_of_step hz) (by simp) trivial fun t' ht' => ?_
    injection ht' with ht'
    subst ht'
    exact setReader_self ..
  | loadOld hw =>
    have hne : ∀ pOld, s.writer ≠ .synchronize pOld := by simp [hw]
    refine ⟨hi.zone, hi.outside, fun hz => absurd (hidle hne) hz, ?_, rfl, by simp [other],
      fun t p hp => .inl (hcurrent hne t p hp)⟩
    intro q
    rw [hi.live q, hw]
    simp [other]
  | @new pOld p v hw hp =>
    have hne : ∀ pOld, s.writer ≠ .synchronize pOld := by simp [hw]
    have hlive : s.object s.pCurrent ≠ none := (hi.live _).mpr (.inl rfl)
    have hpc : p ≠ s.pCurrent := by
      rintro rfl
      exact hlive hp
    have hloaded := hi.loaded
    rw [hw] at hloaded
    refine ⟨hi.zone, hi.outside, fun hz => absurd (hidle hne) hz, ?_, hloaded, by simpa [other] using hpc,
      fun t p hp => .inl (hcurrent hne t p hp)⟩
    intro q
    show Function.update s.object p (some v) q ≠ none ↔ q = s.pCurrent ∨ some p = some q
    by_cases hq : q = p
    · subst hq
      simp
    · rw [Function.update_of_ne hq, hi.live q, hw]
      simp [other, Ne.symm hq]
  | @store pOld p hw =>
    have hne : ∀ pOld, s.writer ≠ .synchronize pOld := by simp [hw]
    have hloaded := hi.loaded
    have hfresh := hi.fresh
    rw [hw] at hloaded hfresh
    obtain rfl : pOld = s.pCurrent := hloaded
    refine ⟨hi.zone, hi.outside, fun _ => ⟨_, rfl⟩, ?_, trivial, ?_, fun t q hq => ?_⟩
    · intro q
      rw [hi.live q, hw]
      simp [other, or_comm, eq_comm]
    · simpa [other, eq_comm] using hfresh
    · rw [hcurrent hne t q hq]
      exact .inr ⟨rfl, fun hy => hy.1 (hidle hne)⟩
  | wait hw hz =>
    obtain ⟨hzone, hout⟩ := hi.zone_synchronize
    exact ⟨hzone, hout, fun _ => ⟨_, hw⟩, hi.live, hi.loaded, hi.fresh,
      fun t p hp => (hi.held t p hp).imp_right fun ⟨h1, h2⟩ => ⟨h1, fun hy => h2 (hi.zone.young_sync hy)⟩⟩
  | synchronized hw hz =>
    obtain ⟨hzone, hout⟩ := hi.zone_synchronize
    have hfresh := hi.fresh
    rw [hw] at hfresh
    refine ⟨hzone, hout, fun h => absurd hz h, fun q => by rw [hi.live q, hw]; rfl, trivial, hfresh, ?_⟩
    intro t p hp
    refine .inl ((hi.held t p hp).resolve_right fun ⟨_, hno⟩ => hno ?_)
    -- whoever is left has loaded the new object
    exact hi.zone.young_of_return hz (hi.inside (by rw [show s.reader t = .use p from hp]; simp))
  | @delete pOld v hw hp =>
    have hne : ∀ pOld, s.writer ≠ .synchronize pOld := by simp [hw]
    have hfresh := hi.fresh
    rw [hw] at hfresh
    have hpc : pOld ≠ s.pCurrent := by simpa [other] using hfresh
    refine ⟨hi.zone, hi.outside, fun hz => absurd (hidle hne) hz, ?_, trivial, by simp [other],
      fun t p hp => .inl (hcurrent hne t p hp)⟩
    intro q
    show Function.update s.object pOld none q ≠ none ↔ q = s.pCurrent ∨ none = some q
    by_cases hq : q = pOld
    · subst hq
      simp [hpc]
    · rw [Function.update_of_ne hq, hi.live q, hw]
      simp [other, Ne.symm hq]

/-- An object in use stays as it is. -/
theorem Inv.object_step (hi : Inv cfg hash s) (hs : s.step cfg hash a = some s') (hp : s.reader t = .use p) :
    s'.object p = s.object p := by
  have hlive := hi.object_use hp
  cases step_cases hs with
  | @new pOld q v hw hq =>
    refine Function.update_of_ne ?_ ..
    rintro rfl
    exact hlive hq
  | @delete pOld v hw hq =>
    refine Function.update_of_ne ?_ ..
    rintro rfl
    -- the grace period has gone by, so nobody has the old object
    rcases hi.held t p hp with rfl | ⟨hw', -⟩
    · exact hi.fresh (by rw [hw]; rfl)
    · rw [hw] at hw'
      cases hw'
  | _ => rfl

omit [Fintype T] in
/-- A reader keeps its pointer until it has used it. -/
theorem reader_step (hs : s.step cfg hash a = some s') (hp : s.reader t = .use p) (ha : a ≠ .use t) :
    s'.reader t = .use p := by
  have hother : ∀ {t' : T} {pc : UsePc P} {s1 : RCUBenchmark T P V}, t ≠ t' → s1.reader = s.reader →
      (s1.setReader t' pc).reader t = .use p := by
    intro t' pc s1 hne h1
    rw [setReader_of_ne _ _ hne, h1, hp]
  cases step_cases hs with
  | load _ hr | unlock hr =>
    refine hother ?_ rfl
    rintro rfl
    rw [hp] at hr
    cases hr
  | use => exact hother (fun h => ha (h ▸ rfl)) rfl
  | _ => exact hp

omit [Fintype T] in
theorem load_step (hs : s.step cfg hash (.load t) = some s') :
    s'.reader t = .use s.pCurrent ∧ s'.object = s.object := by
  cases step_cases hs with
  | zone hb => cases hb
  | load => exact ⟨setReader_self .., rfl⟩

end Steps

/-! ### Runs -/

section Runs

variable [DecidableEq T] [Fintype T] [DecidableEq P] {cfg : ZoneCfg} {hash : T → ℕ}

theorem inv_of_run (r : Run (step (V := V) cfg hash) (Init (P := P) cfg))
    (hn : ∀ i < r.len, ∀ t, r.act i = .register t → (r.state i).zone.nextBucketId ≠ 2 ^ 31 - 1) :
    ∀ i ≤ r.len, Inv cfg hash (r.state i) :=
  r.invariant (fun _ => inv_init) fun i hi h => h.step (hn i hi) (r.next i hi)

/-- **`fRCU` is safe.**  In every schedule of any number of readers and the writer: (a) from the load of `pCurrent`
to its use a reader has the object that was the current one at the load, as it was then; (b) what the writer is
about to delete is there, is not the current object, and no reader has it; (c) an object that is there is the
current one, or the one that the writer has in hand. -/
theorem fRCU_safe (r : Run (step (V := V) cfg hash) (Init (P := P) cfg))
    (hn : ∀ i < r.len, ∀ t, r.act i = .register t → (r.state i).zone.nextBucketId ≠ 2 ^ 31 - 1) :
    (∀ i j t, i < j → j ≤ r.len → r.act i = .load t → (∀ k < j, i < k → r.act k ≠ .use t) →
      (r.state j).reader t = .use (r.state i).pCurrent ∧
        ∃ v, (r.state i).object (r.state i).pCurrent = some v ∧ (r.state j).object (r.state i).pCurrent = some v) ∧
      ∀ i ≤ r.len, (∀ pOld, (r.state i).writer = .delete pOld → (r.state i).object pOld ≠ none ∧
          pOld ≠ (r.state i).pCurrent ∧ ∀ t, (r.state i).reader t ≠ .use pOld) ∧
        ∀ q, (r.state i).object q ≠ none ↔ q = (r.state i).pCurrent ∨ other (r.state i).writer = some q := by
  have hinv := inv_of_run r hn
  refine ⟨?_, fun i hi => ⟨?_, (hinv i hi).live⟩⟩
  · intro i j t hij hj hact huse
    have hlen : i < r.len := lt_of_lt_of_le hij hj
    obtain ⟨v, hv⟩ := Option.ne_none_iff_exists'.mp (((hinv i hlen.le).live _).mpr (.inl rfl))
    have hload := r.next i hlen
    rw [hact] at hload
    have hwindow : (r.state j).reader t = .use (r.state i).pCurrent ∧
        (r.state j).object (r.state i).pCurrent = some v := by
      refine r.window (P := fun j => (r.state j).reader t = .use (r.state i).pCurrent ∧
        (r.state j).object (r.state i).pCurrent = some v) (i := i + 1) hij hj ?_ ?_
      · obtain ⟨h1, h2⟩ := load_step hload
        exact ⟨h1, by rw [h2, hv]⟩
      · rintro k hk hkj hstep ⟨hr, ho⟩
        refine ⟨reader_step hstep hr (huse k hkj hk), ?_⟩
        rw [(hinv k (by omega)).object_step hstep hr, ho]
    exact ⟨hwindow.1, v, hv, hwindow.2⟩
  · intro pOld hw
    have hi' := hinv i hi
    have hfresh := hi'.fresh
    rw [hw] at hfresh
    have hne : pOld ≠ (r.state i).pCurrent := by simpa [other] using hfresh
    refine ⟨(hi'.live _).mpr (.inr (by rw [hw]; rfl)), hne, fun t ht => ?_⟩
    rcases hi'.held t pOld ht with h | ⟨h, -⟩
    · exact hne h
    · rw [hw] at h
      cases h

end Runs

/-- A reader loads the object at 0; the writer publishes one at 1 and waits; the reader uses its object and
leaves; the writer deletes it, and gets its address for the next one. -/
def oldInUse : Run (step (V := ℕ) Zone.tinyCfg fun _ : Unit => 0) (Init (P := ℕ) Zone.tinyCfg) :=
  Run.ofActs ⟨.freshZone Unit Unit, 0, fun p => if p = 0 then some 5 else none, .load, fun _ => .before⟩
    [.lock (), .enter (), .enter (), .enter (), .load (), .loadOld, .new 1 7, .store, .wait, .wait, .wait,
      .wait, .wait, .use (), .unlock (), .wait, .wait, .wait, .wait, .delete, .loadOld, .new 0 9]
    ⟨Zone.freshZone_init, fun q => by simp, rfl, fun _ => rfl⟩ (by decide)

theorem oldInUse_safe : (oldInUse.state 13).object 0 ≠ none ∧ (oldInUse.state 19).object 0 ≠ none ∧
    ∀ t, (oldInUse.state 19).reader t ≠ .use 0 := by
  have hn : ∀ i < oldInUse.len, ∀ t, oldInUse.act i = .register t →
      (oldInUse.state i).zone.nextBucketId ≠ 2 ^ 31 - 1 := by
    intro i hi t hact
    have hno : ∀ i < oldInUse.len, oldInUse.act i ≠ .register () := by decide
    exact absurd hact (hno i hi)
  obtain ⟨huse, hdelete⟩ := fRCU_safe oldInUse hn
  obtain ⟨-, v, -, hv⟩ := huse 4 13 () (by decide) (by decide) rfl (by decide)
  obtain ⟨hobj, -, hfree⟩ := (hdelete 19 (by decide)).1 0 rfl
  exact ⟨by rw [show (oldInUse.state 13).object 0 = some v from hv]; simp, hobj, hfree⟩

end RCUBenchmark

end RcuTable
