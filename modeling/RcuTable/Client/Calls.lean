import RcuTable.System.Linearize

/-!
# Client.Calls — what a program that uses the table relies on

Only the program itself writes the data of its nodes, and a call that it has made and that has not returned is
going to do what it would do alone (`Pending`), whatever the readers do.
-/

namespace RcuTable

open Atomic Trans

/-! ### What the steps of the table keep -/

section Steps

variable {K φ α : Type} {p p' : Code K φ α} {h h' : Heap K φ}

theorem exec_key {β : Type} {a : Act K φ β} {v : β} (he : exec a h = some (v, h')) : h'.key = h.key := by
  cases a with
  | loadNext | storeNext | nrBuckets | free =>
    simp only [exec] at he
    split at he
    · obtain ⟨-, rfl⟩ := Prod.mk.inj (Option.some.inj he)
      rfl
    · cases he
  | fail => cases he
  | _ =>
    obtain ⟨-, rfl⟩ := Prod.mk.inj (Option.some.inj he)
    rfl

/-- The table's code leaves the callers' data alone. -/
theorem step_key (hs : p.step exec h = some (p', h')) : h'.key = h.key := by
  cases p with
  | ret => cases hs
  | iter =>
    obtain ⟨-, rfl⟩ := Prod.mk.inj (Option.some.inj hs)
    rfl
  | act a k =>
    obtain ⟨⟨v, h1⟩, he, heq⟩ := Option.map_eq_some_iff.mp hs
    obtain ⟨-, rfl⟩ := Prod.mk.inj heq
    exact exec_key he

/-- While a program runs, only its own nodes come in: what is linked at its end is linked already. -/
theorem linked_of_returns {pm : Perm K φ} {Q : α → Heap K φ → View → Prop} {g : View}
    (hs : Guarded pm Q p h g) (hr : Rep h g) {res : α} (hret : p.Returns exec h res h') {q : Ptr}
    (hq : h'.Linked q) : h.Linked q ∨ pm.own q := by
  induction hs with
  | ret =>
    obtain ⟨-, rfl⟩ := (Prog.returns_ret exec).mp hret
    exact .inl hq
  | @act β a k h g v h1 g1 he hw _ ih =>
    obtain ⟨v', h2, he', hk⟩ := hret.of_act
    obtain ⟨rfl, rfl⟩ := Prod.mk.inj (Option.some.inj (he.symm.trans he'))
    by_cases ha : afterSynchronize (.act a k) = none
    · have hguar := hw.guar ha
      refine (ih (hguar.rep hr) hk).elim (fun hl => ?_) .inr
      exact ((hguar.accounts hr).1 q ((hguar.rep hr).linked_heap.mp hl)).imp_left hr.linked_heap.mpr
    · cases a with
      | rcuSynchronize =>
        obtain ⟨rfl, rfl⟩ := hw
        exact ih hr.synced hk
      | _ => exact absurd rfl ha
  | @iter σ β body s k h g _ ih => exact ih hr ((Prog.returns_of_step exec rfl).mp hret)

variable {T : Type} [DecidableEq T] {cfg : ZoneCfg} {hash : T → ℕ} {fl : FloatOps φ} {s s' : TableSys T K φ}
  {a : TableAct T K φ}

/-- Only the caller writes its data. -/
theorem key_of_step (hs : s.step cfg hash fl a = some s') (ha : ∀ n x k, a ≠ .prepare n x k) :
    s'.heap.key = s.heap.key := by
  cases TableSys.step_cases hs with
  | read _ hstep | store _ _ hstep => exact step_key hstep
  | @prepare n x k => exact absurd rfl (ha n x k)
  | _ => rfl

/-- A lookup is under way after a step if it was before, and has not ended, or if it begins. -/
theorem find_of_step (hs : s.step cfg hash fl a = some s') {t : T} (hf : (s'.reader t).find ≠ none) :
    (s.reader t).find ≠ none ∧ a ≠ .finish t ∧ a ≠ .unlock t ∨ ∃ x f, a = .begin t x f := by
  have hother : ∀ {t' : T} {l : Reading K φ} {s1 : TableSys T K φ}, t ≠ t' →
      (s1.setReader t' l).reader t = s1.reader t := fun hne => Function.update_of_ne hne ..
  have hself : ∀ {l : Reading K φ} {s1 : TableSys T K φ}, (s1.setReader t l).reader t = l :=
    Function.update_self ..
  cases TableSys.step_cases hs with
  | @unlock t' z _ hz =>
    by_cases ht : t = t'
    · subst ht
      rw [hself] at hf
      exact absurd rfl hf
    · rw [hother ht] at hf
      exact .inl ⟨hf, by simp, by simpa using Ne.symm ht⟩
  | @begin t' x f _ _ =>
    by_cases ht : t = t'
    · exact .inr ⟨x, f, by rw [ht]⟩
    · rw [hother ht] at hf
      exact .inl ⟨hf, by simp, by simp⟩
  | @read t' p _ _ hp _ =>
    by_cases ht : t = t'
    · subst ht
      exact .inl ⟨by rw [hp]; simp, by simp, by simp⟩
    · rw [hother ht] at hf
      exact .inl ⟨hf, by simp, by simp⟩
  | @finish t' =>
    by_cases ht : t = t'
    · subst ht
      rw [hself] at hf
      exact absurd rfl hf
    · rw [hother ht] at hf
      exact .inl ⟨hf, by simpa using Ne.symm ht, by simp⟩
  | _ => exact .inl ⟨hf, by simp, by simp⟩

/-- A lookup ends by its own step. -/
theorem find_stays (hs : s.step cfg hash fl a = some s') {t : T} (hf : (s.reader t).find ≠ none)
    (ha : a ≠ .finish t) : (s'.reader t).find ≠ none := by
  have hother : ∀ {t' : T} {l : Reading K φ} {s1 : TableSys T K φ}, t ≠ t' → s1.reader t = s.reader t →
      ((s1.setReader t' l).reader t).find ≠ none := by
    intro t' l s1 hne hsame
    rw [show (s1.setReader t' l).reader t = s1.reader t from Function.update_of_ne hne .., hsame]
    exact hf
  cases TableSys.step_cases hs with
  | unlock hnone => exact hother (fun ht => hf (ht ▸ hnone)) rfl
  | begin _ hnone => exact hother (fun ht => hf (ht ▸ hnone)) rfl
  | @read t' p p' h' =>
    by_cases ht : t = t'
    · subst ht
      rw [show (TableSys.setReader { s with heap := h' } t _).reader t = _ from Function.update_self ..]
      exact Option.some_ne_none p'
    · exact hother ht rfl
  | finish => exact hother (fun ht => ha (by rw [ht])) rfl
  | _ => exact hf

/-- A reader leaves its critical section by its own step. -/
theorem inside_stays (hs : s.step cfg hash fl a = some s') {t : T} (hin : (s.zone.reader t).Inside)
    (ha : a ≠ .unlock t) : (s'.zone.reader t).Inside := by
  obtain ⟨b, e, ht⟩ := hin
  cases TableSys.step_cases hs with
  | lock hz | enter hz => exact ⟨b, e, (Zone.effect_of_step hz).stays_inside ht (by simp)⟩
  | unlock _ hz =>
    refine ⟨b, e, (Zone.effect_of_step hz).stays_inside ht fun h => ha ?_⟩
    injection h with h
    rw [h]
  | wait | synchronized => exact ⟨b, e, (congrFun Zone.synchronize_reader t).trans ht⟩
  | _ => exact ⟨b, e, ht⟩

/-- No node waits for a grace period that its call has not waited for. -/
theorem waiting_of_step (hs : s.step cfg hash fl a = some s') (hw : s.waiting = [])
    (ha : ∀ op r, a = .return → s.writer = some (op, .ret r) → op.retires r = []) : s'.waiting = [] := by
  cases TableSys.step_cases hs with
  | @«return» op r hr =>
    show op.retires r ++ s.waiting = []
    rw [ha op r rfl hr, hw]
    rfl
  | synchronized => rfl
  | _ => exact hw

end Steps

/-! ### The writer between two calls and in one -/

section Writer

variable {K φ T : Type} [DecidableEq T] {cfg : ZoneCfg} {hash : T → ℕ} {fl : FloatOps φ} {s s' : TableSys T K φ}
  {a : TableAct T K φ}

/-- The call `op` is under way; `Q` is what it is going to return, and to leave. -/
def Pending (s : TableSys T K φ) (op : Op K φ) (Q : Res → Heap K φ → Prop) : Prop :=
  ∃ p res h', s.writer = some (op, p) ∧ p.Returns exec s.heap res h' ∧ h'.key = s.heap.key ∧ Q res h'

variable {op op' : Op K φ} {Q : Res → Heap K φ → Prop} {res : Res} {h' : Heap K φ}

theorem pending_call (hs : s.step cfg hash fl (.call op) = some s') (hret : (op.code fl).Returns exec s.heap res h')
    (hkey : h'.key = s.heap.key) (hQ : Q res h') : Pending s' op Q := by
  obtain ⟨-, hw, hheap⟩ := TableSys.call_begins hs
  exact ⟨_, res, h', hw, by rwa [hheap], by rw [hkey, hheap], hQ⟩

/-- A call that does not return in this step goes on to return the same. -/
theorem Pending.step (hp : Pending s op Q) (hpt : ∀ t, (s.reader t).Pointed) (hs : s.step cfg hash fl a = some s')
    (ha : a ≠ .return) : Pending s' op Q := by
  obtain ⟨p, res, h', hw, hret, hkey, hQ⟩ := hp
  obtain ⟨p', hw', hiff⟩ := TableSys.call_step hpt hw ha hs
  refine ⟨p', res, h', hw', (hiff res h').mp hret, ?_, hQ⟩
  rw [hkey, key_of_step hs]
  rintro n x k rfl
  cases TableSys.step_cases hs with
  | prepare hnone => cases hnone.symm.trans hw

omit [DecidableEq T] in
/-- A call that has come to its end has done what it was going to do. -/
theorem Pending.result (hp : Pending s op Q) (hw : s.writer = some (op', .ret res)) : op' = op ∧ Q res s.heap := by
  obtain ⟨p, res', h', hw', hret, -, hQ⟩ := hp
  obtain ⟨rfl, rfl⟩ := Prod.mk.inj (Option.some.inj (hw.symm.trans hw'))
  obtain ⟨rfl, rfl⟩ := (Prog.returns_ret exec).mp hret
  exact ⟨rfl, hQ⟩

/-- Until it has returned the call's next step is there to be taken. -/
theorem Pending.progress (hp : Pending s op Q) :
    (s.step cfg hash fl .write).isSome ∨ (s.step cfg hash fl .return).isSome := by
  obtain ⟨p, res, h', hw, hret, -⟩ := hp
  rcases hret.progress with ⟨res, rfl⟩ | hstep
  · exact .inr (by simp [TableSys.step, hw])
  · exact .inl (TableSys.write_isSome hw hstep)

theorem Pending.returned (hp : Pending s op Q) (hw : s.writer = some (op', .ret res))
    (hs : s.step cfg hash fl .return = some s') : Q res s'.heap ∧ s'.writer = none := by
  cases TableSys.step_cases hs with
  | «return» => exact ⟨(hp.result hw).2, rfl⟩

/-- What a call leaves in the table, other than its own node, is there while it is under way. -/
theorem Pending.linked [Fintype T] {allow : Heap K φ → View → Ptr → Prop} {g : View} {q : Ptr}
    (hp : Pending s op Q) (hi : Inv cfg hash fl allow s g) (hq : ∀ res h', Q res h' → h'.Linked q) :
    s.heap.Linked q ∨ op.own q := by
  obtain ⟨p, res, h', hw, hret, -, hQ⟩ := hp
  have hcall := hi.writer
  rw [hw] at hcall
  obtain ⟨h0, g0, -, hsim, -⟩ := hcall.sim
  exact linked_of_returns hsim hi.rep hret (hq res h' hQ)

/-- Between two calls the others leave the table alone. -/
theorem rest_of_step (hpt : ∀ t, (s.reader t).Pointed) (hw : s.writer = none)
    (hs : s.step cfg hash fl a = some s') (hcall : ∀ op, a ≠ .call op) (hprep : ∀ n x k, a ≠ .prepare n x k) :
    s'.writer = none ∧ s'.heap = s.heap := by
  rcases TableSys.rest_step hpt hw hs with ⟨hh, -, hw' | ⟨op, rfl, -⟩⟩ | ⟨n, x, k, rfl, -⟩
  · exact ⟨hw', hh⟩
  · exact absurd rfl (hcall op)
  · exact absurd rfl (hprep n x k)

theorem prepare_of_step {n x : ℕ} {k : K} (hs : s.step cfg hash fl (.prepare n x k) = some s') :
    s.writer = none ∧ s' = { s with heap := s.heap.prepare n x k } := by
  cases TableSys.step_cases hs with
  | prepare hw => exact ⟨hw, rfl⟩

end Writer

end RcuTable
