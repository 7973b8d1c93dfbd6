import RcuTable.System.History
import RcuTable.Table.Arrays

/-!
# System.Ownership — no array is lost and none is freed twice

Whatever the readers do meanwhile, and whatever nodes the callers hand over, the arrays that are allocated are
those of the table: the published one, during a resize one more, and nothing else (`arrays_owned`).
-/

namespace RcuTable

open Atomic Trans

variable {T K φ : Type}

/-- The owned arrays in a state of the system: one between two calls, and a call is going to end with one. -/
structure Owned (base : ℕ → Prop) (q : Arrays) (s : TableSys T K φ) : Prop where
  owns : Owns base q s.heap ∧ q.info ≠ none
  rest : s.writer = none → ∃ b, q = .only b
  call : ∀ op p, s.writer = some (op, p) → Prog.Obeys arrayUse p (fun _ q => ∃ b, q = .only b) q
  reader : ∀ t p, (s.reader t).find = some p → Plain p

section Steps

variable [DecidableEq T] {cfg : ZoneCfg} {hash : T → ℕ} {fl : FloatOps φ} {base : ℕ → Prop} {q : Arrays}
  {s s' : TableSys T K φ} {a : TableAct T K φ}

theorem Owned.setReader (ho : Owned base q s) {t : T} {l : Reading K φ} {z : Zone T Unit} {h' : Heap K φ}
    (hh : Owns base q h' ∧ q.info ≠ none) (hl : ∀ p, l.find = some p → Plain p) :
    Owned base q ({ s with zone := z, heap := h' }.setReader t l) := by
  refine ⟨hh, ho.rest, ho.call, ?_⟩
  intro t' p hp
  rw [TableSys.setReader_reader] at hp
  by_cases ht : t' = t
  · subst ht
    rw [Function.update_self] at hp
    exact hl p hp
  · rw [Function.update_of_ne ht] at hp
    exact ho.reader t' p hp

omit [DecidableEq T] in
/-- A step of the call under way. -/
theorem Owned.write (ho : Owned base q s) {op : Op K φ} {p p' : Code K φ Res} {h' : Heap K φ}
    (hw : s.writer = some (op, p)) (hstep : p.step exec s.heap = some (p', h')) :
    ∃ q', (Owns base q' h' ∧ q'.info ≠ none) ∧ Prog.Obeys arrayUse p' (fun _ q => ∃ b, q = .only b) q' := by
  obtain ⟨q', hp', howns⟩ := (ho.call op p hw).step (arrayUse_published base) ho.owns hstep
  exact ⟨q', howns, hp'⟩

theorem Owned.step (ho : Owned base q s) (hs : s.step cfg hash fl a = some s') : ∃ q', Owned base q' s' := by
  have hcall : ∀ {w : Option (Op K φ × Code K φ Res)} {op : Op K φ} {p : Code K φ Res} {q' : Arrays},
      w = some (op, p) → Prog.Obeys arrayUse p (fun _ q => ∃ b, q = .only b) q' →
      (w = none → ∃ b, q' = .only b) ∧
        ∀ op p, w = some (op, p) → Prog.Obeys arrayUse p (fun _ q => ∃ b, q = .only b) q' := by
    rintro w op p q' rfl hp
    refine ⟨fun hnone => (by cases hnone), ?_⟩
    intro op' p' hw
    obtain ⟨-, rfl⟩ := Prod.mk.inj (Option.some.inj hw)
    exact hp
  cases TableSys.step_cases hs with
  | lock | enter | wait => exact ⟨q, ho.owns, ho.rest, ho.call, ho.reader⟩
  | unlock | finish => exact ⟨q, ho.setReader ho.owns fun p hp => by cases hp⟩
  | @begin t x f =>
    refine ⟨q, ho.setReader ho.owns fun p hp => ?_⟩
    obtain rfl := Option.some.inj hp
    exact plain_rTableCoreFind x f
  | @read t p p' h' hf hstep =>
    obtain ⟨hp', hq⟩ := Prog.Only.step (arrayUse_published base) (fun _ ha => ha.step q) (ho.reader t p hf)
      ho.owns hstep
    refine ⟨q, ho.setReader hq fun p hp => ?_⟩
    obtain rfl := Option.some.inj hp
    exact hp'
  | @call op hw =>
    obtain ⟨b, rfl⟩ := ho.rest hw
    obtain ⟨h1, h2⟩ := hcall rfl (op.obeys fl b)
    exact ⟨.only b, ho.owns, h1, h2, ho.reader⟩
  | synchronized hw hafter =>
    obtain ⟨q', howns, hp'⟩ := ho.write hw (step_of_afterSynchronize hafter)
    obtain ⟨h1, h2⟩ := hcall rfl hp'
    exact ⟨q', howns, h1, h2, ho.reader⟩
  | store hw _ hstep =>
    obtain ⟨q', howns, hp'⟩ := ho.write hw hstep
    obtain ⟨h1, h2⟩ := hcall rfl hp'
    exact ⟨q', howns, h1, h2, ho.reader⟩
  | «return» hw => exact ⟨q, ho.owns, fun _ => ho.call _ _ hw, fun op p hnone => (by cases hnone), ho.reader⟩
  | prepare hw =>
    obtain ⟨hq, hinfo⟩ := ho.owns
    exact ⟨q, ⟨⟨hq.info, hq.spare, hq.live, hq.fresh, hq.null, hq.pos⟩, hinfo⟩, ho.rest, ho.call, ho.reader⟩

end Steps

/-! ### Runs -/

section Runs

variable [DecidableEq T] {cfg : ZoneCfg} {hash : T → ℕ} {fl : FloatOps φ}

/-- **No array is lost, none is freed twice.**  Let `h` be the memory before the setup.  In every state of every
schedule the arrays that are allocated beside those of `h` are the published one and at most one more; between
two calls there is no other, and the destructor then leaves those of `h`.  What the writer frees is the other
one. -/
theorem arrays_owned (r : TableRun K cfg hash fl) :
    ∃ (conf : RTableCoreConfig φ) (h : Heap K φ),
      (rTableCoreInitDetailed conf).Returns exec h () (r.state 0).heap ∧
      ∀ i ≤ r.len, ∃ spare : Option ℕ,
        (∀ b, (r.state i).heap.live b = true ↔
          h.live b = true ∨ b = (r.state i).heap.pBucketsInfo ∨ spare = some b) ∧
        h.live (r.state i).heap.pBucketsInfo = false ∧
        (∀ b, spare = some b → h.live b = false ∧ b ≠ (r.state i).heap.pBucketsInfo) ∧
        (∀ b, (r.state i).frees = some b → spare = some b) ∧
        ((r.state i).writer = none → spare = none ∧
          (destroyRTableCore : Code K φ Unit).Total exec (r.state i).heap fun _ h' => h'.live = h.live) := by
  obtain ⟨conf, h, hb, hret⟩ := r.start.table
  refine ⟨conf, h, hret, ?_⟩
  have hall : ∀ i ≤ r.len, ∃ q, Owned (fun b => h.live b = true) q (r.state i) := by
    intro i
    induction i with
    | zero =>
      intro _
      obtain ⟨q, ⟨b, rfl⟩, hq⟩ := (rTableCoreInitDetailed_obeys conf).returned (arrayUse_abstracts _) hb.owns hret
      refine ⟨.only b, ⟨hq, Option.some_ne_none b⟩, fun _ => ⟨b, rfl⟩, ?_, ?_⟩
      · intro op p hw
        rw [r.start.writer] at hw
        cases hw
      · intro t p hp
        rw [r.start.reader t] at hp
        cases hp
    | succ i ih =>
      intro hi
      obtain ⟨q, hq⟩ := ih (by omega)
      exact hq.step (r.next i hi)
  intro i hi
  obtain ⟨⟨info, spare⟩, ho⟩ := hall i hi
  obtain ⟨hq, hne⟩ := ho.owns
  obtain ⟨b, rfl⟩ := Option.ne_none_iff_exists'.mp hne
  obtain ⟨rfl, hbase, hspare⟩ := hq.info b rfl
  refine ⟨spare, ?_, Bool.eq_false_iff.mpr hbase, ?_, ?_, ?_⟩
  · intro b
    rw [hq.live, Option.some_inj, eq_comm (a := (r.state i).heap.pBucketsInfo)]
  · intro b hb
    refine ⟨Bool.eq_false_iff.mpr (hq.spare b hb), ?_⟩
    rintro rfl
    exact hspare hb
  · intro b hb
    obtain ⟨op, k, hw⟩ := TableSys.frees_cases hb
    exact (ho.call _ _ hw).1
  · intro hw
    obtain ⟨b, honly⟩ := ho.rest hw
    obtain ⟨hinfo, rfl⟩ := Arrays.mk.inj honly
    obtain rfl := Option.some.inj hinfo
    refine ⟨rfl, (destroyRTableCore_total hq).mono exec ?_⟩
    intro _ h' hlive
    funext b
    exact Bool.eq_iff_iff.mpr (hlive b)

end Runs

end RcuTable
