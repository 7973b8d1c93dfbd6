import RcuTable.Zone.Accounting

/-!
# Zone.Registry — bucket ids over any sequence of registrations

`nextBucketId` is advanced by failed calls, too, and never reset.  As long as it has not wrapped, the ids
handed out are distinct and in range; the first call of an unregistered thread after the wrap succeeds with a
negative id.
-/

namespace RcuTable

open Trans

namespace Zone

variable {T W : Type} [DecidableEq T] {cfg : ZoneCfg}

/-- The registry when the program starts. -/
structure NoneRegistered (z : Zone T W) : Prop where
  tls : ∀ t, z.tlsReaderBucketId t = -1
  next : z.nextBucketId = 0

/-- A sequence of calls of `rcuRegisterReaderThread`, each by some thread. -/
abbrev Registrations (T W : Type) [DecidableEq T] (cfg : ZoneCfg) :=
  Run (fun (z : Zone T W) (t : T) => some (rcuRegisterReaderThread cfg z t).2) NoneRegistered

namespace Registrations

variable (r : Registrations T W cfg)

/-- What call `i` returns. -/
def result (i : ℕ) : Bool := (rcuRegisterReaderThread cfg (r.state i) (r.act i)).1

/-- The bucket id of a thread after `i` calls. -/
def id (i : ℕ) (t : T) : ℤ := (r.state i).tlsReaderBucketId t

/-- What registration is to give. -/
structure Sound : Prop where
  range : ∀ i < r.len, r.result i = true → 0 ≤ r.id (i + 1) (r.act i) ∧
    r.id (i + 1) (r.act i) < cfg.nrNonOverlappingBucketCount
  own : ∀ i < r.len, r.result i = true → ∀ j ≤ r.len, ∀ t, t ≠ r.act i →
    r.id j t ≠ r.id (i + 1) (r.act i)
  kept : ∀ i j, i ≤ j → j ≤ r.len → ∀ t, r.id i t ≠ -1 → r.id j t = r.id i t
  few : ((Finset.range r.len).filter fun i => r.result i = true).card ≤ cfg.nrNonOverlappingBucketCount

/-- No call of an unregistered thread meets a counter that has wrapped. -/
def Unwrapped : Prop := ∀ i < r.len, r.id i (r.act i) = -1 → 0 ≤ (r.state i).nextBucketId

end Registrations

/-- The three ways a call can go. -/
theorem register_cases (cfg : ZoneCfg) (z : Zone T W) (t : T) :
    (z.tlsReaderBucketId t ≠ -1 ∧ rcuRegisterReaderThread cfg z t = (false, z)) ∨
    (z.tlsReaderBucketId t = -1 ∧ (cfg.nrNonOverlappingBucketCount : ℤ) ≤ z.nextBucketId ∧
      rcuRegisterReaderThread cfg z t = (false, { z with nextBucketId := incrInt32 z.nextBucketId })) ∨
    (z.tlsReaderBucketId t = -1 ∧ z.nextBucketId < cfg.nrNonOverlappingBucketCount ∧
      rcuRegisterReaderThread cfg z t = (true, { z with
        nextBucketId := incrInt32 z.nextBucketId
        tlsReaderBucketId := Function.update z.tlsReaderBucketId t z.nextBucketId })) := by
  unfold rcuRegisterReaderThread
  by_cases h1 : z.tlsReaderBucketId t ≠ -1
  · exact Or.inl ⟨h1, if_pos h1⟩
  · refine Or.inr ?_
    rw [if_neg h1]
    dsimp only
    by_cases h2 : z.nextBucketId ≥ cfg.nrNonOverlappingBucketCount
    · exact Or.inl ⟨not_not.mp h1, h2, if_pos h2⟩
    · exact Or.inr ⟨not_not.mp h1, not_le.mp h2, if_neg h2⟩

/-- The ids handed out are distinct and in range, and below the counter until it wraps. -/
structure Handed (cfg : ZoneCfg) (z : Zone T W) : Prop where
  range : ∀ t, z.tlsReaderBucketId t ≠ -1 →
    0 ≤ z.tlsReaderBucketId t ∧ z.tlsReaderBucketId t < cfg.nrNonOverlappingBucketCount
  inj : ∀ t t', z.tlsReaderBucketId t ≠ -1 → z.tlsReaderBucketId t = z.tlsReaderBucketId t' → t = t'
  below : 0 ≤ z.nextBucketId → ∀ t, z.tlsReaderBucketId t < z.nextBucketId

theorem Handed.step {z : Zone T W} {t : T} (hz : Handed cfg z)
    (hnext : z.tlsReaderBucketId t = -1 → 0 ≤ z.nextBucketId) :
    Handed cfg (rcuRegisterReaderThread cfg z t).2 := by
  have hincr : 0 ≤ incrInt32 z.nextBucketId → z.nextBucketId < incrInt32 z.nextBucketId := by
    unfold incrInt32
    split_ifs <;> omega
  rcases register_cases cfg z t with ⟨-, he⟩ | ⟨h1, -, he⟩ | ⟨h1, h2, he⟩ <;> rw [he]
  · exact hz
  · exact ⟨hz.range, hz.inj, fun h0 t' => lt_trans (hz.below (hnext h1) t') (hincr h0)⟩
  · have h0 := hnext h1
    have hnew : ∀ t', z.tlsReaderBucketId t' ≠ z.nextBucketId := fun t' => (hz.below h0 t').ne
    have hself : Function.update z.tlsReaderBucketId t z.nextBucketId t = z.nextBucketId :=
      Function.update_self _ _ _
    have hother : ∀ t', t' ≠ t → Function.update z.tlsReaderBucketId t z.nextBucketId t' =
        z.tlsReaderBucketId t' := fun t' ht => Function.update_of_ne ht _ _
    refine ⟨?_, ?_, ?_⟩ <;> dsimp only
    · intro t'
      by_cases ht : t' = t
      · rw [ht, hself]
        exact fun _ => ⟨h0, h2⟩
      · rw [hother t' ht]
        exact hz.range t'
    · intro t1 t2
      by_cases ht1 : t1 = t <;> by_cases ht2 : t2 = t
      · exact fun _ _ => ht1.trans ht2.symm
      · rw [ht1, hself, hother t2 ht2]
        exact fun _ he => absurd he.symm (hnew t2)
      · rw [ht2, hself, hother t1 ht1]
        exact fun _ he => absurd he (hnew t1)
      · rw [hother t1 ht1, hother t2 ht2]
        exact hz.inj t1 t2
    · intro hpos t'
      by_cases ht : t' = t
      · rw [ht, hself]
        exact hincr hpos
      · rw [hother t' ht]
        exact lt_trans (hz.below h0 t') (hincr hpos)

namespace Registrations

variable (r : Registrations T W cfg)

theorem state_succ {i : ℕ} (hi : i < r.len) :
    r.state (i + 1) = (rcuRegisterReaderThread cfg (r.state i) (r.act i)).2 :=
  (Option.some.inj (r.next i hi)).symm

/-- A thread that has an id keeps it. -/
theorem id_kept {i j : ℕ} (hij : i ≤ j) (hj : j ≤ r.len) {t : T} (ht : r.id i t ≠ -1) :
    r.id j t = r.id i t := by
  refine r.window hij hj (P := fun k => r.id k t = r.id i t) rfl ?_
  intro k _ hkj _ hk
  have hkept : (rcuRegisterReaderThread cfg (r.state k) (r.act k)).2.tlsReaderBucketId t =
      (r.state k).tlsReaderBucketId t := by
    by_cases hta : t = r.act k
    · subst hta
      exact register_tls_self (Or.inl (show r.id k (r.act k) ≠ -1 from hk ▸ ht))
    · exact register_tls_of_ne cfg _ _ hta
  rw [← hk, id, r.state_succ (by omega)]
  exact hkept

/-- A call that returns `true` gives its thread, that had none, the value of the counter. -/
theorem result_true {i : ℕ} (hi : i < r.len) (hr : r.result i = true) :
    r.id i (r.act i) = -1 ∧ r.id (i + 1) (r.act i) = (r.state i).nextBucketId := by
  unfold result at hr
  rw [id, id, r.state_succ hi]
  rcases register_cases cfg (r.state i) (r.act i) with ⟨-, he⟩ | ⟨-, -, he⟩ | ⟨h1, -, he⟩ <;>
    rw [he] at hr ⊢
  · cases hr
  · cases hr
  · exact ⟨h1, Function.update_self _ _ _⟩

theorem handed (hu : r.Unwrapped) : ∀ i ≤ r.len, Handed cfg (r.state i) := by
  refine r.invariant ?_ ?_
  · intro z hz
    refine ⟨fun t ht => absurd (hz.tls t) ht, fun t t' ht => absurd (hz.tls t) ht, ?_⟩
    intro h0 t
    rw [hz.tls t]
    omega
  · intro i hi hz
    rw [r.state_succ hi]
    exact hz.step (hu i hi)

/-- The id that a successful call hands out. -/
theorem got (hu : r.Unwrapped) {i : ℕ} (hi : i < r.len) (hr : r.result i = true) :
    r.id (i + 1) (r.act i) ≠ -1 := by
  obtain ⟨h1, h2⟩ := r.result_true hi hr
  have := hu i hi h1
  omega

theorem got_range (hu : r.Unwrapped) {i : ℕ} (hi : i < r.len) (hr : r.result i = true) :
    0 ≤ r.id (i + 1) (r.act i) ∧ r.id (i + 1) (r.act i) < cfg.nrNonOverlappingBucketCount :=
  (r.handed hu (i + 1) hi).range _ (r.got hu hi hr)

theorem owned (hu : r.Unwrapped) {i : ℕ} (hi : i < r.len) (hr : r.result i = true) {j : ℕ}
    (hj : j ≤ r.len) {t : T} (ht : t ≠ r.act i) : r.id j t ≠ r.id (i + 1) (r.act i) := by
  intro he
  have h1 := r.got hu hi hr
  -- both ids are there in the later one of the two states
  have hl : r.id (max j (i + 1)) t = r.id j t :=
    r.id_kept (le_max_left _ _) (by omega) (by rw [he]; exact h1)
  have hl' : r.id (max j (i + 1)) (r.act i) = r.id (i + 1) (r.act i) :=
    r.id_kept (le_max_right _ _) (by omega) h1
  exact ht ((r.handed hu (max j (i + 1)) (by omega)).inj t _ (by rw [← id, hl, he]; exact h1)
    (hl.trans (he.trans hl'.symm)))

/-- One thread cannot succeed twice: after the first time it has an id. -/
theorem act_ne (hu : r.Unwrapped) {i j : ℕ} (hij : i < j) (hj : j < r.len) (hri : r.result i = true)
    (hrj : r.result j = true) : r.act j ≠ r.act i := by
  intro hact
  have hgot := r.got hu (by omega) hri
  have hkept := r.id_kept (show i + 1 ≤ j by omega) (by omega) hgot
  have hnone := (r.result_true hj hrj).1
  rw [hact, hkept] at hnone
  exact hgot hnone

/-- Successful calls hand out distinct ids. -/
theorem got_inj (hu : r.Unwrapped) {i j : ℕ} (hi : i < r.len) (hri : r.result i = true) (hj : j < r.len)
    (hrj : r.result j = true) (hid : r.id (i + 1) (r.act i) = r.id (j + 1) (r.act j)) : i = j := by
  have hact : r.act j = r.act i := by
    by_contra hne
    exact r.owned hu hi hri hj hne hid.symm
  rcases lt_trichotomy i j with hlt | heq | hgt
  · exact absurd hact (r.act_ne hu hlt hj hri hrj)
  · exact heq
  · exact absurd hact.symm (r.act_ne hu hgt hi hrj hri)

theorem card_le (hu : r.Unwrapped) :
    ((Finset.range r.len).filter fun i => r.result i = true).card ≤ cfg.nrNonOverlappingBucketCount := by
  have hmem : ∀ {i}, i ∈ (Finset.range r.len).filter (fun i => r.result i = true) →
      i < r.len ∧ r.result i = true := fun hi => by simpa using hi
  have hcard : ((Finset.range r.len).filter fun i => r.result i = true).card ≤
      (Finset.range cfg.nrNonOverlappingBucketCount).card := by
    refine Finset.card_le_card_of_injOn (fun i => (r.id (i + 1) (r.act i)).toNat) ?_ ?_
    · intro i hi
      obtain ⟨hi, hr⟩ := hmem hi
      obtain ⟨h0, h1⟩ := r.got_range hu hi hr
      refine Finset.mem_coe.mpr (Finset.mem_range.mpr ?_)
      show (r.id (i + 1) (r.act i)).toNat < _
      omega
    · intro i hi j hj he
      obtain ⟨hi, hri⟩ := hmem hi
      obtain ⟨hj, hrj⟩ := hmem hj
      have h0 := (r.got_range hu hi hri).1
      have h1 := (r.got_range hu hj hrj).1
      have he' : (r.id (i + 1) (r.act i)).toNat = (r.id (j + 1) (r.act j)).toNat := he
      exact r.got_inj hu hi hri hj hrj (by omega)
  rwa [Finset.card_range] at hcard

/-- A call that meets a wrapped counter succeeds, with a negative id. -/
theorem wrapped_result {i : ℕ} (hid : r.id i (r.act i) = -1) (hneg : (r.state i).nextBucketId < 0) :
    r.result i = true := by
  unfold result
  rcases register_cases cfg (r.state i) (r.act i) with ⟨h1, -⟩ | ⟨-, h2, -⟩ | ⟨-, -, he⟩
  · exact absurd hid h1
  · omega
  · rw [he]

end Registrations

/-- Registration is sound exactly while no unregistered thread meets a wrapped counter. -/
theorem registrations_sound_iff (r : Registrations T W cfg) : r.Sound ↔ r.Unwrapped := by
  constructor
  · intro hs i hi hid
    by_contra hneg
    have hres : r.result i = true := r.wrapped_result hid (not_le.mp hneg)
    have hrange := (hs.range i hi hres).1
    rw [(r.result_true hi hres).2] at hrange
    exact hneg hrange
  · intro hu
    refine ⟨?_, ?_, ?_, r.card_le hu⟩
    · intro i hi hr
      exact r.got_range hu hi hr
    · intro i hi hr j hj t ht
      exact r.owned hu hi hr hj ht
    · intro i j hij hj t ht
      exact r.id_kept hij hj ht

/-! ### A thread that retries until the counter wraps -/

/-- The calls of the threads `act 0`, `act 1`, … -/
def Registrations.calls (z : Zone T W) (hz : NoneRegistered z) (len : ℕ) (act : ℕ → T) :
    Registrations T W cfg where
  len := len
  state i := i.rec z fun j zj => (rcuRegisterReaderThread cfg zj (act j)).2
  act := act
  start := hz
  next _ _ := rfl

/-- Thread `true` registers, then `false` tries `2 ^ 31` times. -/
def retries : Registrations Bool Unit tinyCfg :=
  .calls (freshZone Bool Unit) ⟨fun _ => rfl, rfl⟩ (2 ^ 31 + 1) fun i => decide (i = 0)

theorem retry_fails {z : Zone Bool Unit} (ht : z.tlsReaderBucketId false = -1) (hn : 1 ≤ z.nextBucketId) :
    (rcuRegisterReaderThread tinyCfg z false).2 = { z with nextBucketId := incrInt32 z.nextBucketId } := by
  have hfull : z.nextBucketId ≥ (tinyCfg.nrNonOverlappingBucketCount : ℤ) := hn
  unfold rcuRegisterReaderThread
  rw [if_neg (not_not.mpr ht)]
  dsimp only
  rw [if_pos hfull]

/-- Every retry advances the counter. -/
theorem retries_state (i : ℕ) (hi : i < 2 ^ 31 - 1) :
    (retries.state (i + 1)).tlsReaderBucketId false = -1 ∧ (retries.state (i + 1)).nextBucketId = i + 1 := by
  induction i with
  | zero => exact ⟨rfl, rfl⟩
  | succ i ih =>
    obtain ⟨ht, hn⟩ := ih (by omega)
    have hstep : retries.state (i + 1 + 1) =
        { retries.state (i + 1) with nextBucketId := incrInt32 (retries.state (i + 1)).nextBucketId } :=
      retry_fails (z := retries.state (i + 1)) ht (by omega)
    rw [hstep]
    refine ⟨ht, ?_⟩
    show incrInt32 (retries.state (i + 1)).nextBucketId = _
    rw [hn, incrInt32, if_neg (by omega)]
    push_cast
    rfl

/-- The counter wraps, and the retry after that gets a negative id. -/
theorem retries_unsound : ¬ retries.Sound := by
  intro hs
  obtain ⟨k, hk⟩ : ∃ k : ℕ, k = 2 ^ 31 - 2 := ⟨_, rfl⟩
  obtain ⟨ht, hn⟩ := retries_state k (by omega)
  have hstep : retries.state (k + 1 + 1) =
      { retries.state (k + 1) with nextBucketId := incrInt32 (retries.state (k + 1)).nextBucketId } :=
    retry_fails (z := retries.state (k + 1)) ht (by omega)
  have hwrap : (retries.state (k + 2)).nextBucketId = -2 ^ 31 := by
    rw [hstep]
    show incrInt32 (retries.state (k + 1)).nextBucketId = _
    rw [hn, incrInt32, if_pos (by omega)]
  have hnone : (retries.state (k + 2)).tlsReaderBucketId false = -1 := by
    rw [hstep]
    exact ht
  have hlen : k + 2 < retries.len := by
    show k + 2 < 2 ^ 31 + 1
    omega
  have hact : retries.act (k + 2) = false := rfl
  have hres : retries.result (k + 2) = true := by
    unfold Registrations.result
    rw [hact]
    rcases register_cases tinyCfg (retries.state (k + 2)) false with ⟨h1, -⟩ | ⟨-, h2, -⟩ | ⟨-, -, he⟩
    · exact absurd hnone h1
    · omega
    · rw [he]
  have hrange := (hs.range (k + 2) hlen hres).1
  rw [(retries.result_true hlen hres).2, hwrap] at hrange
  omega

end Zone

end RcuTable
