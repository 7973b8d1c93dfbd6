import RcuTable.Zone.Grace

/-!
# Zone.Young — the readers that a running `rcuSynchronize` does not wait for

With one synchronizer, the readers inside a critical section when its call returns are those that have locked
since the call began: they hold the latest epoch.
-/

namespace RcuTable

namespace Zone

variable {T : Type} [DecidableEq T] [Fintype T] {cfg : ZoneCfg} {hash : T → ℕ} {z z' : Zone T Unit}
  {a : ZoneAct T Unit} {t : T}

/-- The zone of one synchronizer, in a reachable state. -/
structure Sound (cfg : ZoneCfg) (hash : T → ℕ) (z : Zone T Unit) : Prop where
  grace : GraceInv cfg hash z
  serial : Serial z

omit [DecidableEq T] in
theorem Init.sound (h : Init cfg z) : Sound cfg hash z := ⟨graceInv_init h, serial_init h⟩

theorem Sound.step (hs : Sound cfg hash z) (he : Effect cfg hash z a z') (ha : RegistersApart z a) :
    Sound cfg hash z' := by
  refine ⟨hs.grace.step he ⟨ha, hs.serial.retiresScanned a⟩, hs.serial.step he ?_⟩
  cases a with
  | sync w => exact fun hw _ => hw
  | _ => trivial

omit [DecidableEq T] [Fintype T] in
/-- A call is running, and the reader has locked since it began. -/
def Young (z : Zone T Unit) (t : T) : Prop :=
  z.sync () ≠ .idle ∧ ∃ b, z.reader t = .inside b z.epochLatest

omit [Fintype T] in
/-- The steps of the readers leave the synchronizer and the epoch alone. -/
theorem Effect.same (he : Effect cfg hash z a z') (ha : ∀ w, a ≠ .sync w) :
    z'.sync = z.sync ∧ z'.epochLatest = z.epochLatest := by
  cases he with
  | start w | go w | done w | row w | spin w | pass w | scanned w | advance w => exact absurd rfl (ha w)
  | register => exact ⟨register_sync .., register_latest ..⟩
  | _ => exact ⟨rfl, rfl⟩

omit [Fintype T] in
/-- A reader that was inside, and has not left, is as young as it was. -/
theorem Effect.young (he : Effect cfg hash z a z') (ha : ∀ w, a ≠ .sync w) (hin : (z.reader t).Inside)
    (hy : z'.Young t) : z.Young t := by
  obtain ⟨b, e, ht⟩ := hin
  obtain ⟨hsync, b', ht'⟩ := hy
  have hstay : a ≠ .unlock t → z'.reader t = .inside b e := he.stays_inside ht
  have hsame := he.same ha
  have hact : a ≠ .unlock t := by
    rintro rfl
    cases he with
    | unlock t b e h => simp at ht'
  rw [hstay hact, hsame.2] at ht'
  injection ht' with h1 h2
  exact ⟨hsame.1 ▸ hsync, b, h2 ▸ ht⟩

/-- A step of the call makes no reader younger. -/
theorem Sound.young_sync (hs : Sound cfg hash z) (hy : (rcuSynchronize cfg z ()).Young t) : z.Young t := by
  obtain ⟨hsync, b, ht⟩ := hy
  have hlive := hs.grace.live t b
  have he : Effect cfg hash z (.sync ()) (rcuSynchronize cfg z ()) := effect_of_sync z ()
  generalize rcuSynchronize cfg z () = z' at hsync ht he
  have hkeep : z.sync () ≠ .idle → z.reader t = .inside b z.epochLatest → z.Young t := fun h1 h2 => ⟨h1, b, h2⟩
  cases he with
  | start w h =>
    -- the reader would hold an epoch that the call has just begun
    have := (hlive _ ht).2
    simp only [setSync_latest] at this
    omega
  | go w last h | row w last h | spin w last e i h | pass w last e i h | scanned w last e i h
  | advance w last e h => exact hkeep (by rw [h]; simp) ht
  | done w last h => simp at hsync

omit [Fintype T] in
theorem synchronize_reader : (rcuSynchronize cfg z ()).reader = z.reader := by
  have he : Effect cfg (fun _ => 0) z (.sync ()) (rcuSynchronize cfg z ()) := effect_of_sync z ()
  generalize rcuSynchronize cfg z () = z' at he
  cases he <;> rfl

/-- When the call returns, only young readers are left. -/
theorem Sound.young_of_return (hs : Sound cfg hash z) (hret : (rcuSynchronize cfg z ()).sync () = .idle)
    (hin : (z.reader t).Inside) : z.Young t := by
  obtain ⟨b, e, ht⟩ := hin
  have hlive := hs.grace.live t b e ht
  have hpc := hs.serial.pc ()
  have he : Effect cfg hash z (.sync ()) (rcuSynchronize cfg z ()) := effect_of_sync z ()
  generalize rcuSynchronize cfg z () = z' at hret he
  cases he with
  | done w last h hlt =>
    rw [h] at hpc
    obtain ⟨hpc, -⟩ := hpc
    obtain rfl : e = z.epochLatest := by omega
    exact ⟨by rw [h]; simp, b, ht⟩
  | spin w last e i h =>
    rw [h] at hret
    cases hret
  | _ => simp at hret

end Zone

end RcuTable
