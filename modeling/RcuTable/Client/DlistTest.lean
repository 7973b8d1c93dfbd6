import RcuTable.Dlist.Removals

/-!
# Client.DlistTest — `RcuDlistTest` of RCUTableTests.cpp

Four rounds: the list is filled, the readers are started and walk it again and again, the main thread erases the
elements that are 0 or 1 modulo 8 under a safe iterator, waits for the readers, and clears the list.  Rounds 0
and 1 append and walk forward, rounds 2 and 3 prepend and walk in reverse.  A step of `RcuDlistTest` is one load
or store, and there is none where the test would throw.
-/

namespace RcuTable

open Atomic Atomic.Prog Chain Trans Dlist

/-- `none` is the list head, `some i` the `entry` of `myData[i]`. -/
abbrev Entry := Option ℕ

namespace RcuDlistTest

def value (pEntry : Entry) : ℕ := pEntry.getD 0

def myData (n : ℕ) : List Entry := (List.range n).map some

/-- `none` where it throws. -/
def verifyElement (pEntry : Entry) (expected : ℕ) : Option ℕ :=
  let expected := if expected % 8 = 0 then if value pEntry ≠ expected then expected + 1 else expected else expected
  let expected := if expected % 8 = 1 then if value pEntry ≠ expected then expected + 1 else expected else expected
  if value pEntry ≠ expected then none else some (expected + 1)

def erased (pEntry : Entry) : Bool := value pEntry % 8 == 0 || value pEntry % 8 == 1

/-- The way in which the readers and the erasing loop of a round walk. -/
def direction (round : ℕ) : Field := if round < 2 then .next else .prev

def fillList (n round : ℕ) : Code Entry Unit :=
  calls none ((myData n).map (if round < 2 then .append else .prepend))

def eraseSome (round : ℕ) : Code Entry (List Entry) := forEachErase (direction round) erased none

/-- `clearAndVerify` up to its check. -/
def clear (reversely : Bool) : Code Entry (List Entry) :=
  forEachErase (if reversely then .prev else .next) (fun _ => true) none

/-- Where the main thread stands in a round. -/
inductive MainPc where
  | fill (round : ℕ) (p : Code Entry Unit)
  | erase (round : ℕ) (p : Code Entry (List Entry))
  | join (round : ℕ)
  | clear (round : ℕ) (p : Code Entry (List Entry))
  | empty (round : ℕ) (p : Code Entry Bool)
  | done

/-- Where a reader stands: in front of its `while`, in front of `rcuDlistBegin`, or in its loop. -/
inductive ReadPc where
  | idle
  | begin
  | loop (pos : Entry) (expected : ℕ)
  deriving DecidableEq

def MainPc.round : MainPc → ℕ
  | .fill round _ | .erase round _ | .join round | .clear round _ | .empty round _ => round
  | .done => 4

end RcuDlistTest

structure RcuDlistTest (R : Type) where
  dlist : Heap Entry
  main : RcuDlistTest.MainPc
  reader : R → RcuDlistTest.ReadPc

inductive TestAct (R : Type) where
  | main
  | start (r : R)
  | read (r : R)
  deriving DecidableEq

instance {R : Type} : Inhabited (TestAct R) := ⟨.main⟩

namespace RcuDlistTest

section Code

variable {R : Type} (n : ℕ)

def nextRound (round : ℕ) : MainPc := if round < 4 then .fill round (fillList n round) else .done

variable [Fintype R] [DecidableEq R]

def step (s : RcuDlistTest R) : TestAct R → Option (RcuDlistTest R)
  | .main =>
    match s.main with
    | .fill round (.ret _) => some { s with main := .erase round (eraseSome round) }
    | .fill round p => (p.step exec s.dlist).map fun a => { s with dlist := a.2, main := .fill round a.1 }
    -- `finished` is set
    | .erase round (.ret _) => some { s with main := .join round }
    | .erase round p => (p.step exec s.dlist).map fun a => { s with dlist := a.2, main := .erase round a.1 }
    | .join round =>
      if ∀ r, s.reader r = .idle then some { s with main := .clear round (clear (round % 2 == 0)) } else none
    | .clear round (.ret _) => some { s with main := .empty round (rcuDlistEmpty none) }
    | .clear round p => (p.step exec s.dlist).map fun a => { s with dlist := a.2, main := .clear round a.1 }
    | .empty round (.ret isEmpty) => if isEmpty then some { s with main := nextRound n (round + 1) } else none
    | .empty round p => (p.step exec s.dlist).map fun a => { s with dlist := a.2, main := .empty round a.1 }
    | .done => none
  | .start r =>
    match s.main, s.reader r with
    | .erase _ _, .idle => some { s with reader := Function.update s.reader r .begin }
    | _, _ => none
  | .read r =>
    match s.reader r with
    | .idle => none
    | .begin => some { s with
        reader := Function.update s.reader r (.loop (s.dlist (direction s.main.round) none) 0) }
    | .loop none _ => some { s with reader := Function.update s.reader r .idle }
    | .loop pos expected => (verifyElement pos expected).map fun expected => { s with
        reader := Function.update s.reader r (.loop (s.dlist (direction s.main.round) pos) expected) }

/-- After `rcuDlistInit`. -/
structure Init (s : RcuDlistTest R) : Prop where
  dlist : Ring none s.dlist []
  main : s.main = nextRound n 0
  reader : ∀ r, s.reader r = .idle

end Code

/-! ### What lies ahead of a reader -/

section Ahead

variable {n e : ℕ} {p : Entry} {ρ ρ' : List Entry}

/-- The elements `ρ` are left of a walk that expects `e` next: none is before it, and of what is behind only
elements that are erased are missing. -/
structure Ahead (n e : ℕ) (ρ : List Entry) : Prop where
  sub : ρ.Sublist (myData n)
  ge : ∀ q ∈ ρ, e ≤ value q
  all : ∀ q ∈ myData n, e ≤ value q → erased q = false → q ∈ ρ

theorem mem_myData : p ∈ myData n ↔ ∃ v < n, p = some v := by
  unfold myData
  rw [List.mem_map]
  constructor
  · rintro ⟨v, hv, rfl⟩
    exact ⟨v, List.mem_range.mp hv, rfl⟩
  · rintro ⟨v, hv, rfl⟩
    exact ⟨v, List.mem_range.mpr hv, rfl⟩

theorem myData_pairwise : (myData n).Pairwise fun p q => value p < value q :=
  List.pairwise_map.mpr List.pairwise_lt_range

theorem myData_nodup : (none :: myData n).Nodup := by
  refine List.nodup_cons.mpr ⟨fun hm => ?_, myData_pairwise.imp fun hlt heq => by rw [heq] at hlt; exact absurd hlt (Nat.lt_irrefl _)⟩
  obtain ⟨v, -, hv⟩ := mem_myData.mp hm
  cases hv

/-- The element at hand is no more than two behind the one that is expected. -/
theorem verifyElement_eq {v : ℕ} (hev : e ≤ v) (hgap : ∀ k, e ≤ k → k < v → k % 8 = 0 ∨ k % 8 = 1) :
    verifyElement (some v) e = some (v + 1) := by
  have h0 := hgap e le_rfl
  have h1 := hgap (e + 1) (Nat.le_succ e)
  have h2 := hgap (e + 2) (by omega)
  unfold verifyElement value
  simp only [Option.getD_some]
  split_ifs <;> congr 1 <;> omega

/-- **The test of an element passes**, and what is behind it is ahead of the walk. -/
theorem Ahead.verify (ha : Ahead n e (p :: ρ)) :
    ∃ v, p = some v ∧ verifyElement p e = some (v + 1) ∧ Ahead n (v + 1) ρ := by
  obtain ⟨v, hv, rfl⟩ := mem_myData.mp (ha.sub.subset List.mem_cons_self)
  have hlt : ∀ q ∈ ρ, v < value q := (List.pairwise_cons.mp (myData_pairwise.sublist ha.sub)).1
  have hmiss : ∀ q ∈ myData n, e ≤ value q → erased q = false → q = some v ∨ v < value q := fun q hq hle hk =>
    (List.mem_cons.mp (ha.all q hq hle hk)).imp_right (hlt q)
  refine ⟨v, rfl, verifyElement_eq (ha.ge _ List.mem_cons_self) ?_, (List.sublist_cons_self _ _).trans ha.sub, hlt, ?_⟩
  · intro k hek hkv
    by_contra hk
    have hkept : erased (some k) = false := by
      unfold erased value
      simpa using hk
    rcases hmiss (some k) (mem_myData.mpr ⟨k, by omega, rfl⟩) hek hkept with heq | hlt'
    · rw [Option.some.inj heq] at hkv
      exact Nat.lt_irrefl _ hkv
    · exact absurd hlt' (Nat.not_lt.mpr hkv.le)
  · intro q hq hle hk
    have hev : e ≤ v := ha.ge _ List.mem_cons_self
    refine (List.mem_cons.mp (ha.all q hq (by omega) hk)).resolve_left ?_
    rintro rfl
    exact absurd hle (Nat.not_succ_le_self v)

/-- Erasing takes elements away from a reader that it does not wait for. -/
theorem Ahead.shrink (ha : Ahead n e ρ) (hsub : ρ'.Sublist ρ)
    (hkeep : ∀ q ∈ myData n, erased q = false → q ∈ ρ → q ∈ ρ') : Ahead n e ρ' where
  sub := hsub.trans ha.sub
  ge q hq := ha.ge q (hsub.subset hq)
  all q hq hle hk := hkeep q hq hk (ha.all q hq hle hk)

end Ahead

/-! ### The loops of the main thread -/

section Loops

variable {A : Type} [DecidableEq A] {list : A} {h h' : Heap A} {l xs : List A}

theorem calls_runs {ops : List (Op A)} (hr : Ring list h l) (hops : AllAllowed list l ops) :
    Runs exec (fun _ h' => Ring list h' (applyAll list l ops)) (calls list ops) h := by
  induction ops generalizing h l with
  | nil => exact .ret hr
  | cons op ops ih =>
    refine Runs.bind ((Op.sim hr hops.1).runs.mono ?_)
    rintro _ h1 _ ⟨g1, hr1, rfl⟩
    exact ih hr1 hops.2

theorem applyAll_append : applyAll list l (xs.map .append) = l ++ xs := by
  induction xs generalizing l with
  | nil => exact (List.append_nil l).symm
  | cons x xs ih => exact ih.trans (List.append_assoc l [x] xs)

theorem applyAll_prepend : applyAll list l (xs.map .prepend) = xs.reverse ++ l := by
  induction xs generalizing l with
  | nil => rfl
  | cons x xs ih =>
    rw [List.reverse_cons, List.append_assoc]
    exact ih

theorem allAllowed_append (hnd : (list :: (l ++ xs)).Nodup) : AllAllowed list l (xs.map .append) := by
  induction xs generalizing l with
  | nil => trivial
  | cons x xs ih =>
    refine ⟨fun hx => ?_, ih (by rwa [show (Op.append x).apply list l ++ xs = l ++ x :: xs from List.append_assoc l [x] xs])⟩
    rw [← List.cons_append] at hnd
    exact (List.nodup_append.mp hnd).2.2 x hx x List.mem_cons_self rfl

theorem allAllowed_prepend (hnd : (list :: (l ++ xs)).Nodup) : AllAllowed list l (xs.map .prepend) := by
  induction xs generalizing l with
  | nil => trivial
  | cons x xs ih =>
    refine ⟨fun hx => ?_, ih ?_⟩
    · rw [← List.cons_append] at hnd
      exact (List.nodup_append.mp hnd).2.2 x hx x List.mem_cons_self rfl
    · show (list :: (x :: l ++ xs)).Nodup
      refine (List.Perm.nodup_iff (List.Perm.cons list ?_)).mp hnd
      exact List.perm_middle

theorem rcuDlistEmpty_runs (hr : Ring list h []) :
    Runs exec (fun b h' => b = true ∧ Ring list h' []) (rcuDlistEmpty list) h := by
  have hfirst : h .next list = list := Ring.next_eq (s := []) (t := []) hr
  refine Runs.act rfl (.ret ⟨?_, hr⟩)
  rw [hfirst]
  exact decide_eq_true rfl

variable {n : ℕ} {d : Heap Entry}

/-- The elements of a round, in the order of its list. -/
def filled (n round : ℕ) : List Entry := (direction round).order (myData n)

theorem fillList_runs {round : ℕ} (hr : Ring none d []) :
    Runs exec (fun _ d' => Ring none d' (filled n round)) (fillList n round) d := by
  unfold fillList filled direction
  by_cases hround : round < 2
  · rw [if_pos hround, if_pos hround]
    refine (calls_runs hr (allAllowed_append (by simpa using myData_nodup))).mono fun _ d' _ hr' => ?_
    rwa [applyAll_append, List.nil_append] at hr'
  · rw [if_neg hround, if_neg hround]
    refine (calls_runs hr (allAllowed_prepend (by simpa using myData_nodup))).mono fun _ d' _ hr' => ?_
    rwa [applyAll_prepend, List.append_nil] at hr'

theorem clear_runs {l : List Entry} {reversely : Bool} (hr : Ring none d l) :
    Runs exec (fun _ d' => Ring none d' []) (clear reversely) d := by
  refine (forEachErase_sim _ (fun _ => true) hr).runs.mono ?_
  rintro visited d' _ ⟨g, -, hr', rfl⟩
  have hnone : l.filter (fun _ => !true) = [] := List.filter_eq_nil_iff.mpr fun _ _ => by simp
  rwa [hnone] at hr'

end Loops

/-! ### What a step can be -/

section Cases

variable {R : Type} [Fintype R] [DecidableEq R] (n : ℕ)

/-- `RcuDlistTest.step` as a relation. -/
inductive Takes (s : RcuDlistTest R) : TestAct R → RcuDlistTest R → Prop
  | filled {round : ℕ} (hm : s.main = .fill round (.ret ())) :
      Takes s .main { s with main := .erase round (eraseSome round) }
  | fill {round : ℕ} {p p' : Code Entry Unit} {d : Heap Entry} (hm : s.main = .fill round p)
      (hp : p.step exec s.dlist = some (p', d)) : Takes s .main { s with dlist := d, main := .fill round p' }
  | erased {round : ℕ} {visited : List Entry} (hm : s.main = .erase round (.ret visited)) :
      Takes s .main { s with main := .join round }
  | erase {round : ℕ} {p p' : Code Entry (List Entry)} {d : Heap Entry} (hm : s.main = .erase round p)
      (hp : p.step exec s.dlist = some (p', d)) : Takes s .main { s with dlist := d, main := .erase round p' }
  | joined {round : ℕ} (hm : s.main = .join round) (hr : ∀ r, s.reader r = .idle) :
      Takes s .main { s with main := .clear round (RcuDlistTest.clear (round % 2 == 0)) }
  | cleared {round : ℕ} {visited : List Entry} (hm : s.main = .clear round (.ret visited)) :
      Takes s .main { s with main := .empty round (rcuDlistEmpty none) }
  | clear {round : ℕ} {p p' : Code Entry (List Entry)} {d : Heap Entry} (hm : s.main = .clear round p)
      (hp : p.step exec s.dlist = some (p', d)) : Takes s .main { s with dlist := d, main := .clear round p' }
  | emptied {round : ℕ} (hm : s.main = .empty round (.ret true)) :
      Takes s .main { s with main := nextRound n (round + 1) }
  | empty {round : ℕ} {p p' : Code Entry Bool} {d : Heap Entry} (hm : s.main = .empty round p)
      (hp : p.step exec s.dlist = some (p', d)) : Takes s .main { s with dlist := d, main := .empty round p' }
  | start {r : R} {round : ℕ} {p : Code Entry (List Entry)} (hm : s.main = .erase round p)
      (hr : s.reader r = .idle) : Takes s (.start r) { s with reader := Function.update s.reader r .begin }
  | begin {r : R} (hr : s.reader r = .begin) : Takes s (.read r) { s with
      reader := Function.update s.reader r (.loop (s.dlist (direction s.main.round) none) 0) }
  | finish {r : R} {expected : ℕ} (hr : s.reader r = .loop none expected) :
      Takes s (.read r) { s with reader := Function.update s.reader r .idle }
  | visit {r : R} {v expected expected' : ℕ} (hr : s.reader r = .loop (some v) expected)
      (hv : verifyElement (some v) expected = some expected') : Takes s (.read r) { s with
        reader := Function.update s.reader r (.loop (s.dlist (direction s.main.round) (some v)) expected') }

variable {n} {s s' : RcuDlistTest R} {a : TestAct R}

theorem step_cases (hs : s.step n a = some s') : Takes n s a s' := by
  cases a with
  | main =>
    simp only [step] at hs
    split at hs
    case h_1 hm => obtain rfl := Option.some.inj hs; exact .filled hm
    case h_2 hm => obtain ⟨a, ha, rfl⟩ := Option.map_eq_some_iff.mp hs; exact .fill hm ha
    case h_3 hm => obtain rfl := Option.some.inj hs; exact .erased hm
    case h_4 hm => obtain ⟨a, ha, rfl⟩ := Option.map_eq_some_iff.mp hs; exact .erase hm ha
    case h_5 hm =>
      split at hs
      case isTrue hr => obtain rfl := Option.some.inj hs; exact .joined hm hr
      case isFalse => cases hs
    case h_6 hm => obtain rfl := Option.some.inj hs; exact .cleared hm
    case h_7 hm => obtain ⟨a, ha, rfl⟩ := Option.map_eq_some_iff.mp hs; exact .clear hm ha
    case h_8 hm =>
      split at hs
      case isTrue hb => obtain rfl := Option.some.inj hs; exact .emptied (hb ▸ hm)
      case isFalse => cases hs
    case h_9 hm => obtain ⟨a, ha, rfl⟩ := Option.map_eq_some_iff.mp hs; exact .empty hm ha
    case h_10 => cases hs
  | start r =>
    simp only [step] at hs
    split at hs
    case h_1 hm hr => obtain rfl := Option.some.inj hs; exact .start hm hr
    case h_2 => cases hs
  | read r =>
    simp only [step] at hs
    split at hs
    case h_1 => cases hs
    case h_2 hr => obtain rfl := Option.some.inj hs; exact .begin hr
    case h_3 hr => obtain rfl := Option.some.inj hs; exact .finish hr
    case h_4 pos expected hpos hr =>
      obtain ⟨expected', hv, rfl⟩ := Option.map_eq_some_iff.mp hs
      cases pos with
      | none => exact absurd rfl hpos
      | some v => exact .visit hr hv

end Cases

/-! ### The invariant -/

section Invariant

variable {R : Type} [Fintype R] [DecidableEq R] {n : ℕ}

/-- Readers may be running. -/
def MainPc.shared : MainPc → Bool
  | .erase _ _ | .join _ => true
  | _ => false

/-- What the erasing loop of a round leaves. -/
def left (n round : ℕ) : List Entry := (filled n round).filter fun p => !erased p

def MainOk (n : ℕ) (d : Heap Entry) : MainPc → Prop
  | .fill round p => Runs exec (fun _ d' => Ring none d' (filled n round)) p d
  | .erase round p => ∃ g, Rep none d g ∧ Ahead n 0 (g (direction round)) ∧
      Sim exec (Erases none erased) (fun _ d' g' => Post none (left n round) () d' g') p d g
  | .join round => Ring none d (left n round)
  | .clear _ p => Runs exec (fun _ d' => Ring none d' []) p d
  | .empty _ p => Runs exec (fun isEmpty d' => isEmpty = true ∧ Ring none d' []) p d
  | .done => Ring none d []

def ReaderOk (n : ℕ) (d : Heap Entry) (f : Field) : ReadPc → Prop
  | .idle | .begin => True
  | .loop pos expected => ∃ ρ, Path (succ none d f) (ptr none pos) ρ ∧ Ahead n expected ρ

structure Inv (n : ℕ) (s : RcuDlistTest R) : Prop where
  main : MainOk n s.dlist s.main
  reader : ∀ r, ReaderOk n s.dlist (direction s.main.round) (s.reader r)
  quiet : s.main.shared = false → ∀ r, s.reader r = .idle

theorem ahead_myData : Ahead n 0 (myData n) := ⟨List.Sublist.refl _, fun _ _ => Nat.zero_le _, fun _ hq _ _ => hq⟩

theorem ahead_left {round : ℕ} : Ahead n 0 ((direction round).order (left n round)) := by
  rw [left, order_filter, filled, order_order]
  refine ahead_myData.shrink List.filter_sublist fun q hq hk _ => List.mem_filter.mpr ⟨hq, by rw [hk]; rfl⟩

/-- What a reader sees that begins now. -/
theorem MainOk.view {d : Heap Entry} {pc : MainPc} (hm : MainOk n d pc) (hs : pc.shared = true) :
    ∃ g, Rep none d g ∧ Ahead n 0 (g (direction pc.round)) := by
  cases pc with
  | erase round p =>
    obtain ⟨g, hr, ha, -⟩ := hm
    exact ⟨g, hr, ha⟩
  | join round => exact ⟨_, hm, ahead_left⟩
  | _ => cases hs

theorem erases_ahead {d d' : Heap Entry} {g g' : View Entry} {f : Field} {rem : Option Entry} (hr : Rep none d g)
    (hg : Guar none none rem d g d' g') (hrem : ∀ x ∈ rem, erased x = true) (ha : Ahead n 0 (g f))
    {v : Option Entry} {ρ : List Entry} {e : ℕ} (hpath : Path (succ none d f) v ρ) (haρ : Ahead n e ρ) :
    Ahead n 0 (g' f) ∧ ∃ ρ', Path (succ none d' f) v ρ' ∧ Ahead n e ρ' := by
  have hmem : ∀ x ∈ g' f, x ∈ g f := by
    intro x hx
    cases hg with
    | quiet => exact hx
    | own hins | link hins => cases hins
    | @unlink f' s t y _ hs =>
      by_cases hf : f = f'
      · subst hf
        rw [Function.update_self] at hx
        rw [hs]
        exact ((List.sublist_cons_self y t).append_left s).subset hx
      · rwa [Function.update_of_ne hf] at hx
  have hless := (hg.store hr f).sublist hmem
  obtain ⟨ρ', hpath', -, -, hkeep, hshort⟩ :=
    (hg.store hr f).itinerary (d := []) (hr f) hpath hpath.nodup fun x hx => by cases hx
  have hsub := hshort hmem
  -- what is not erased stays in the list, so also on the way
  have hstay : ∀ q ∈ myData n, erased q = false → q ∈ g' f := by
    intro q hq hk
    refine (hg.mem (ha.all q hq (Nat.zero_le _) hk)).resolve_right ?_
    rintro rfl
    rw [hrem q rfl] at hk
    cases hk
  refine ⟨ha.shrink hless fun q hq hk _ => hstay q hq hk, ρ', hpath', haρ.shrink hsub fun q hq hk hqρ => ?_⟩
  have hone : [q].Sublist ([] ++ ρ') := hkeep [q] (by simpa using hqρ) (by simpa using Or.inr (hstay q hq hk))
  simpa using hone

variable {s s' : RcuDlistTest R} {a : TestAct R}

omit [Fintype R] [DecidableEq R] in
theorem inv_of_quiet (hm : MainOk n s.dlist s.main) (hr : ∀ r, s.reader r = .idle) : Inv n s :=
  ⟨hm, fun r => by rw [hr r]; trivial, fun _ => hr⟩

omit [Fintype R] [DecidableEq R] in
theorem mainOk_nextRound {d : Heap Entry} {round : ℕ} (hr : Ring none d []) : MainOk n d (nextRound n round) := by
  unfold nextRound
  split
  · exact fillList_runs hr
  · exact hr

omit [Fintype R] [DecidableEq R] in
theorem inv_init (hs : Init n s) : Inv n s :=
  inv_of_quiet (by rw [hs.main]; exact mainOk_nextRound hs.dlist) hs.reader

omit [Fintype R] in
/-- A reader steps. -/
theorem Inv.setReader (hi : Inv n s) {r : R} {pc : ReadPc} (hs : s.main.shared = true)
    (hpc : ReaderOk n s.dlist (direction s.main.round) pc) :
    Inv n { s with reader := Function.update s.reader r pc } := by
  refine ⟨hi.main, fun r' => ?_, fun h => absurd hs (by rw [h]; simp)⟩
  show ReaderOk n s.dlist (direction s.main.round) (Function.update s.reader r pc r')
  by_cases hrr : r' = r
  · rw [hrr, Function.update_self]
    exact hpc
  · rw [Function.update_of_ne hrr]
    exact hi.reader r'

omit [Fintype R] [DecidableEq R] in
theorem Inv.shared (hi : Inv n s) {r : R} (hr : s.reader r ≠ .idle) : s.main.shared = true := by
  by_contra h
  exact hr (hi.quiet (by simpa using h) r)

theorem Inv.step (hi : Inv n s) (hs : s.step n a = some s') : Inv n s' := by
  have hmain := hi.main
  have hquiet := hi.quiet
  cases step_cases hs with
  | @filled round hm =>
    rw [hm] at hmain hquiet
    have hr : Ring none s.dlist (filled n round) := by cases hmain with | ret hr => exact hr
    refine inv_of_quiet ⟨_, hr, ?_, forEachErase_sim (direction round) erased hr |>.mono fun _ _ _ hp => hp.2⟩
      (hquiet rfl)
    show Ahead n 0 ((direction round).order (filled n round))
    rw [filled, order_order]
    exact ahead_myData
  | fill hm hp =>
    rw [hm] at hmain hquiet
    exact inv_of_quiet (Runs.step hmain hp) (hquiet rfl)
  | @erased round visited hm =>
    have hreader := hi.reader
    rw [hm] at hmain hreader
    obtain ⟨g, hr, -, hsim⟩ := hmain
    have hpost : Post none (left n round) () s.dlist g := by cases hsim with | ret hp => exact hp
    obtain ⟨hr', rfl⟩ := hpost
    exact ⟨hr', hreader, fun h => by cases h⟩
  | @erase round p p' d hm hp =>
    have hreader := hi.reader
    rw [hm] at hmain hreader
    obtain ⟨g, hr, ha, hsim⟩ := hmain
    rcases Sim.step hsim hp with ⟨rfl, hsim'⟩ | ⟨β, b, k, v, g', rfl, -, rfl, ⟨-, rem, hrem, hg⟩, hsim'⟩
    · exact ⟨⟨g, hr, ha, hsim'⟩, hreader, fun h => by cases h⟩
    · have ha' := (erases_ahead hr hg hrem ha (hr (direction round)).2 ha).1
      refine ⟨⟨g', hg.rep hr, ha', hsim'⟩, fun r => ?_, fun h => by cases h⟩
      have hr1 := hreader r
      show ReaderOk n d (direction round) (s.reader r)
      cases hpc : s.reader r with
      | idle | begin => trivial
      | loop pos expected =>
        rw [hpc] at hr1
        obtain ⟨ρ, hpath, haρ⟩ := hr1
        exact (erases_ahead hr hg hrem ha hpath haρ).2
  | joined hm hr =>
    rw [hm] at hmain
    exact inv_of_quiet (clear_runs hmain) hr
  | cleared hm =>
    rw [hm] at hmain hquiet
    have hr : Ring none s.dlist [] := by cases hmain with | ret hr => exact hr
    exact inv_of_quiet (rcuDlistEmpty_runs hr) (hquiet rfl)
  | clear hm hp =>
    rw [hm] at hmain hquiet
    exact inv_of_quiet (Runs.step hmain hp) (hquiet rfl)
  | emptied hm =>
    rw [hm] at hmain hquiet
    have hr : Ring none s.dlist [] := by cases hmain with | ret hr => exact hr.2
    exact inv_of_quiet (mainOk_nextRound hr) (hquiet rfl)
  | empty hm hp =>
    rw [hm] at hmain hquiet
    exact inv_of_quiet (Runs.step hmain hp) (hquiet rfl)
  | start hm hr => exact hi.setReader (by rw [hm]; rfl) trivial
  | @begin r hr =>
    have hshared := hi.shared (by rw [hr]; simp)
    obtain ⟨g, hrep, ha⟩ := hmain.view hshared
    exact hi.setReader hshared ⟨g (direction s.main.round), (hrep _).2, ha⟩
  | finish hr => exact hi.setReader (hi.shared (by rw [hr]; simp)) trivial
  | @visit r v expected expected' hr hv =>
    have hok := hi.reader r
    rw [hr] at hok
    obtain ⟨ρ, hpath, ha⟩ := hok
    rw [ptr_of_ne (by simp)] at hpath
    cases ρ with
    | nil => cases hpath
    | cons q ρ =>
      obtain rfl := Option.some.inj hpath.1
      obtain ⟨w, hw, hverify, ha'⟩ := ha.verify
      obtain rfl := Option.some.inj hw
      obtain rfl := Option.some.inj (hv.symm.trans hverify)
      exact hi.setReader (hi.shared (by rw [hr]; simp)) ⟨ρ, hpath.2, ha'⟩

/-- The next action of a program that has not returned is there to be taken. -/
theorem code_goes {α : Type} {G : Type} {W : ∀ {β : Type}, Act Entry β → Heap Entry → G → Heap Entry → G → Prop}
    {Q : α → Heap Entry → G → Prop} {p : Code Entry α} {d : Heap Entry} {g : G} (hp : Sim exec W Q p d g) :
    (∃ x, p = .ret x ∧ Q x d g) ∨ (∀ x, p ≠ .ret x) ∧ (p.step exec d).isSome := by
  rcases hp.progress with hret | hstep
  · exact .inl hret
  · refine .inr ⟨?_, hstep⟩
    rintro x rfl
    cases hstep

theorem Inv.main_goes (hi : Inv n s) (hd : s.main ≠ .done)
    (hj : ∀ round, s.main = .join round → ∀ r, s.reader r = .idle) : (s.step n .main).isSome := by
  have hmain := hi.main
  cases hm : s.main with
  | done => exact absurd hm hd
  | join round => simp only [RcuDlistTest.step, hm, if_pos (hj round hm), Option.isSome_some]
  | fill round p =>
    rw [hm] at hmain
    rcases code_goes hmain with ⟨x, rfl, -⟩ | ⟨hne, hstep⟩
    · simp only [RcuDlistTest.step, hm, Option.isSome_some]
    · cases p with
      | ret x => exact absurd rfl (hne x)
      | act | iter => simpa only [RcuDlistTest.step, hm, Option.isSome_map] using hstep
  | erase round p =>
    rw [hm] at hmain
    obtain ⟨g, -, -, hsim⟩ := hmain
    rcases code_goes hsim with ⟨x, rfl, -⟩ | ⟨hne, hstep⟩
    · simp only [RcuDlistTest.step, hm, Option.isSome_some]
    · cases p with
      | ret x => exact absurd rfl (hne x)
      | act | iter => simpa only [RcuDlistTest.step, hm, Option.isSome_map] using hstep
  | clear round p =>
    rw [hm] at hmain
    rcases code_goes hmain with ⟨x, rfl, -⟩ | ⟨hne, hstep⟩
    · simp only [RcuDlistTest.step, hm, Option.isSome_some]
    · cases p with
      | ret x => exact absurd rfl (hne x)
      | act | iter => simpa only [RcuDlistTest.step, hm, Option.isSome_map] using hstep
  | empty round p =>
    rw [hm] at hmain
    rcases code_goes hmain with ⟨x, rfl, rfl, -⟩ | ⟨hne, hstep⟩
    · simp only [RcuDlistTest.step, hm, if_pos, Option.isSome_some]
    · cases p with
      | ret x => exact absurd rfl (hne x)
      | act | iter => simpa only [RcuDlistTest.step, hm, Option.isSome_map] using hstep

theorem Inv.reader_goes (hi : Inv n s) {r : R} (hr : s.reader r ≠ .idle) : (s.step n (.read r)).isSome := by
  have hok := hi.reader r
  cases hpc : s.reader r with
  | idle => exact absurd hpc hr
  | begin => simp only [RcuDlistTest.step, hpc, Option.isSome_some]
  | loop pos expected =>
    cases pos with
    | none => simp only [RcuDlistTest.step, hpc, Option.isSome_some]
    | some v =>
      rw [hpc] at hok
      obtain ⟨ρ, hpath, ha⟩ := hok
      rw [ptr_of_ne (by simp)] at hpath
      cases ρ with
      | nil => cases hpath
      | cons q ρ =>
        obtain rfl := Option.some.inj hpath.1
        obtain ⟨w, -, hverify, -⟩ := ha.verify
        simp only [RcuDlistTest.step, hpc, hverify, Option.map_some, Option.isSome_some]

/-- **`RcuDlistTest` never throws.**  In every schedule of the main thread and the readers (a) a reader that is in a
traversal has its next step to take, so it never meets an element other than the one that it expects; (b) so has
the main thread until it is done, except while it waits for the readers, so it never finds the list not empty;
(c) when it is done the list is empty and the readers are at rest. -/
theorem run_never_throws (run : Run (RcuDlistTest.step (R := R) n) (Init n)) : ∀ m ≤ run.len,
    (∀ r, (run.state m).reader r ≠ .idle → ((run.state m).step n (.read r)).isSome) ∧
    ((run.state m).main ≠ .done → (∀ round, (run.state m).main = .join round → ∀ r, (run.state m).reader r = .idle) →
      ((run.state m).step n .main).isSome) ∧
    ((run.state m).main = .done → Ring none (run.state m).dlist [] ∧ ∀ r, (run.state m).reader r = .idle) := by
  intro m hm
  have hi : Inv n (run.state m) := run.invariant (fun _ hs => inv_init hs) (fun i hi h => h.step (run.next i hi)) m hm
  refine ⟨fun r hr => hi.reader_goes hr, fun hd hj => hi.main_goes hd hj, fun hd => ⟨?_, hi.quiet (by rw [hd]; rfl)⟩⟩
  have hmain := hi.main
  rw [hd] at hmain
  exact hmain

end Invariant

def MainPc.isDone : MainPc → Bool
  | .done => true
  | _ => false

theorem MainPc.eq_done {pc : MainPc} (h : pc.isDone = true) : pc = .done := by
  cases pc with
  | done => rfl
  | _ => cases h

/-- Three elements and a reader, which stands on element 0 while 0 and 1 are erased, and goes on over 1 to 2. -/
def threeElements : Run (RcuDlistTest.step (R := Unit) 3) (Init 3) :=
  .ofActs ⟨fun _ _ => none, nextRound 3 0, fun _ => .idle⟩ (List.flatten [.replicate 17 .main, [.start (), .read ()],
    .replicate 14 .main, .replicate 4 (.read ()), .replicate 157 .main])
    ⟨fun f => by cases f <;> exact ⟨rfl, rfl⟩, rfl, fun _ => rfl⟩ (by decide +kernel)

theorem threeElements_never_throws : ((threeElements.state 33).step 3 (.read ())).isSome ∧
    Ring none (threeElements.state 194).dlist [] := by
  obtain ⟨hread, -, -⟩ := run_never_throws threeElements 33 (by decide +kernel)
  obtain ⟨-, -, hdone⟩ := run_never_throws threeElements 194 (by decide +kernel)
  exact ⟨hread () (by decide +kernel), (hdone (MainPc.eq_done (by decide +kernel))).1⟩

end RcuDlistTest

end RcuTable
