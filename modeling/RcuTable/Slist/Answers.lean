import RcuTable.Slist.Search

/-!
# Slist.Answers — the searches of a run

`Searching` follows a search from its first step on: what it has passed and what lies ahead of it visits nothing
twice and only what was linked meanwhile, and holds what stays linked, in order.  A store of the writer exchanges
a part of what lies ahead (`Chain.Store.itinerary`), and a step of the search moves along it.
-/

namespace RcuTable

namespace Slist

open Atomic Atomic.Prog Chain Trans

section Runs

variable {K φ R : Type} [DecidableEq R] {list : Ptr}

/-- The schedules of one writer and the readers. -/
abbrev Schedule (K φ R : Type) [DecidableEq R] (list : Ptr) : Type 1 :=
  Run (S := Sys K φ R) (A := SysAct K φ R) (Sys.step list) (Sys.Init list)

/-- The element that the caller hands over, or writes to. -/
def SysAct.hands : SysAct K φ R → Option Ptr
  | .call c => c.brings
  | .reuse x _ => some x
  | _ => none

def SysAct.Reads (r : R) : SysAct K φ R → Prop
  | .read r' => r' = r
  | _ => False

instance (r : R) : DecidablePred fun a : SysAct K φ R => a.Reads r := fun a => by
  cases a <;> unfold SysAct.Reads <;> infer_instance

omit [DecidableEq R] in
theorem SysAct.reads_iff {r : R} {a : SysAct K φ R} : a.Reads r ↔ a = .read r := by
  cases a with
  | read r' => exact ⟨fun hr => congrArg SysAct.read hr, fun hr => by injection hr⟩
  | _ => exact ⟨fun hr => absurd hr id, fun hr => by cases hr⟩

variable (run : Schedule K φ R list)

/-- No search that is under way in state `i` has been so since an instant at which `x` was linked. -/
def Waited (i : ℕ) (x : Ptr) : Prop :=
  ∀ r, ∀ m ≤ i, (∀ k, m ≤ k → k ≤ i → ((run.state k).reader r).isSome = true) →
    ¬ SlistOp.Linked list (run.state m).heap x

/-- What the writer's caller promises. -/
def Contract : Prop := ∀ i < run.len, (run.state i).Contract list (run.act i) ∧
  ∀ x ∈ (run.act i).hands, Waited run i x

/-- Reader `r` begins a search in step `i` and is in it up to state `j`. -/
structure Searches (r : R) (f : Heap K φ → Ptr → Bool) (i j : ℕ) : Prop where
  lt : i < j
  le : j ≤ run.len
  began : run.act i = .begin r f
  running : ∀ k ≤ j, i < k → ((run.state k).reader r).isSome = true

/-- The steps of reader `r`. -/
def nrReads (r : R) (i j : ℕ) : ℕ := among (fun k => (run.act k).Reads r) i j

/-- What an answer says of the list between step `i` and state `j`: the element found, or else all, have been
asked about, each once, while the list was such. -/
structure Answer (f : Heap K φ → Ptr → Bool) (i j : ℕ) (asked : List Ptr) (res : Option Ptr) : Prop where
  rejected : ∀ x ∈ asked, res ≠ some x → ∃ k, i < k ∧ k ≤ j ∧ f (run.state k).heap x = false
  found : ∀ x, res = some x → asked.getLast? = some x ∧ ∃ k, i < k ∧ k ≤ j ∧ f (run.state k).heap x = true
  complete : ∀ k, i < k → k ≤ j → ∀ l, Path (run.state k).heap.next (some list) (list :: l) →
    ∀ s : List Ptr, (s ++ res.toList).Sublist l →
      (∀ x ∈ s ++ res.toList, ∀ m, i < m → m ≤ j → SlistOp.Linked list (run.state m).heap x) → s.Sublist asked

variable {run} {r : R} {f : Heap K φ → Ptr → Bool} {i j k : ℕ} {x : Ptr} {l : List Ptr}

theorem Waited.succ (hw : Waited run i x) (hx : ¬ SlistOp.Linked list (run.state (i + 1)).heap x) :
    Waited run (i + 1) x := by
  intro r m hm hon
  rcases Nat.le_succ_iff.mp hm with hm | rfl
  · exact hw r m hm fun k h1 h2 => hon k h1 (Nat.le_succ_of_le h2)
  · exact hx

theorem inv_of_run (hc : Contract run) : ∀ i ≤ run.len, ∃ l, SysInv list (run.state i) l :=
  run.invariant (fun _ hs => sysInv_init hs) fun i hi ⟨_, hl⟩ =>
    let ⟨l', hl', _⟩ := hl.step (hc i hi).1 (run.next i hi)
    ⟨l', hl'⟩

/-- What the writer is about to link, no search under way has met. -/
theorem waited_writer (hc : Contract run) : ∀ i ≤ run.len, ∀ c p, (run.state i).writer = some (c, p) →
    ∀ x ∈ c.brings, ¬ SlistOp.Linked list (run.state i).heap x → Waited run i x := by
  intro i
  induction i with
  | zero =>
    intro _ c p hw
    cases run.start.writer.symm.trans hw
  | succ i ih =>
    intro hi c p hw x hx hnot
    obtain ⟨l, hl⟩ := inv_of_run hc i (Nat.le_of_lt hi)
    obtain ⟨l', hl', hch⟩ := hl.step (hc i hi).1 (run.next i hi)
    rcases hch.writer c p hw with hcall | ⟨⟨p0, hw0⟩, hstays⟩
    · refine ((hc i hi).2 x ?_).succ hnot
      rw [hcall]
      exact hx
    · refine (ih (Nat.le_of_lt hi) c p0 hw0 x hx fun hlinked => hnot ?_).succ hnot
      rw [hl'.rep.linked_iff]
      rw [hl.rep.linked_iff] at hlinked
      exact List.mem_cons.mpr ((List.mem_cons.mp hlinked).imp_right (hstays x hx))

theorem waited_owned (hc : Contract run) (hi : i < run.len) (ho : Owns (run.state i) (run.act i) x)
    (hx : ¬ SlistOp.Linked list (run.state i).heap x) : Waited run i x := by
  have hhands := (hc i hi).2 x
  generalize run.act i = a at ho hhands
  cases ho with
  | write hw hb => exact waited_writer hc i (Nat.le_of_lt hi) _ _ hw x hb hx
  | reuse => exact hhands rfl

theorem accessible_of_run (hc : Contract run) : ∀ k ≤ run.len, ∀ m ≤ k,
    (run.state k).heap.accessible = (run.state m).heap.accessible := by
  intro k
  induction k with
  | zero =>
    intro _ m hm
    rw [Nat.le_zero.mp hm]
  | succ k ih =>
    intro hk m hm
    rcases Nat.le_succ_iff.mp hm with hm | rfl
    · obtain ⟨l, hl⟩ := inv_of_run hc k (Nat.le_of_lt hk)
      obtain ⟨l', -, hch⟩ := hl.step (hc k hk).1 (run.next k hk)
      exact hch.accessible.trans (ih (Nat.le_of_lt hk) m hm)
    · rfl

theorem nrReads_succ (hij : i ≤ j) :
    nrReads run r i (j + 1) = nrReads run r i j + if (run.act j).Reads r then 1 else 0 :=
  among_succ (fun k => (run.act k).Reads r) i hij

/-- What a search that has begun in step `i` is to visit in all, as it stands in state `k`: nothing twice, only
what was linked meanwhile, and all that stays linked, in the order of the list. -/
structure Covers (run : Schedule K φ R list) (i k : ℕ) (σ : List Ptr) : Prop where
  head : σ.head? = some list
  nodup : σ.Nodup
  ever : ∀ x ∈ σ, ∃ m, i < m ∧ m ≤ k ∧ SlistOp.Linked list (run.state m).heap x
  stay : ∀ m, i < m → m ≤ k → ∀ l, Path (run.state m).heap.next (some list) (list :: l) →
    ∀ s : List Ptr, s.Sublist l → (∀ x ∈ s, ∀ n, i < n → n ≤ k → SlistOp.Linked list (run.state n).heap x) →
      (list :: s).Sublist σ

/-- **One store** leaves behind the cells `d` a walk such that the whole still covers the list. -/
theorem Covers.store (hc : Contract run) (hik : i < k) (hk : k < run.len) {d ρ : List Ptr} {v : Option Ptr}
    (hv : Covers run i k (d ++ ρ)) (hpath : Path (run.state k).heap.next v ρ)
    (hon : ∀ m, i < m → m ≤ k → ((run.state m).reader r).isSome = true) :
    ∃ ρ', Path (run.state (k + 1)).heap.next v ρ' ∧ Covers run i (k + 1) (d ++ ρ') := by
  obtain ⟨l, hl⟩ := inv_of_run hc k (Nat.le_of_lt hk)
  obtain ⟨l', hl', hch⟩ := hl.step (hc k hk).1 (run.next k hk)
  -- an element that comes in has not been met
  have hnew : ∀ x, Owns (run.state k) (run.act k) x → x ∉ list :: l → x ∉ d ++ ρ := by
    intro x ho hx hm
    obtain ⟨m, h1, h2, hlinked⟩ := hv.ever x hm
    have hwaited := waited_owned hc hk ho fun hlk => hx (hl.rep.linked_iff.mp hlk)
    exact hwaited r m h2 (fun n h3 h4 => hon n (by omega) h4) hlinked
  obtain ⟨ρ', hpath', hnd', hmem', hsub', -⟩ := hch.store.itinerary hl.rep.path hpath hv.nodup hnew
  refine ⟨ρ', hpath', ?_, hnd', ?_, ?_⟩
  · rw [← hv.head]
    cases d with
    | nil => exact hpath'.head.symm.trans hpath.head
    | cons y d => rfl
  · intro x hx
    have hx' : x ∈ d ++ ρ ∨ x ∈ list :: l' := by
      rcases List.mem_append.mp hx with hx | hx
      · exact .inl (List.mem_append_left ρ hx)
      · exact (hmem' x hx).imp (List.mem_append_right d) (List.mem_cons_of_mem list)
    rcases hx' with hx' | hx'
    · obtain ⟨m, h1, h2, hlinked⟩ := hv.ever x hx'
      exact ⟨m, h1, Nat.le_succ_of_le h2, hlinked⟩
    · exact ⟨k + 1, Nat.lt_succ_of_lt hik, le_rfl, hl'.rep.linked_iff.mpr hx'⟩
  · intro m h1 h2 l0 hl0 s hs hlinked
    have hnow : ∀ x ∈ list :: s, x ∈ list :: l := by
      intro x hx
      rcases List.mem_cons.mp hx with rfl | hx
      · exact List.mem_cons_self
      · exact hl.rep.linked_iff.mp (hlinked x hx k hik (Nat.le_succ k))
    have hthen : ∀ x ∈ list :: s, x ∈ list :: l' := by
      intro x hx
      rcases List.mem_cons.mp hx with rfl | hx
      · exact List.mem_cons_self
      · exact hl'.rep.linked_iff.mp (hlinked x hx (k + 1) (Nat.lt_succ_of_lt hik) le_rfl)
    have hbefore : ∀ x ∈ s, ∀ n, i < n → n ≤ k → SlistOp.Linked list (run.state n).heap x :=
      fun x hx n h3 h4 => hlinked x hx n h3 (Nat.le_succ_of_le h4)
    refine hsub' _ ?_ hthen
    rcases Nat.le_succ_iff.mp h2 with h2 | rfl
    · exact hv.stay m h1 h2 l0 hl0 s hs hbefore
    · -- the order of what stays was the same one step before
      obtain rfl := (List.cons.inj (hl'.rep.path.det hl0)).2
      have hs' := (hch.store.order hl.rep.path hnow hthen).mpr (hs.cons_cons list)
      exact hv.stay k hik le_rfl l hl.rep.path s hs'.of_cons_cons hbefore

/-- A search at the point `P` in state `k`, begun in step `i`, with the cells `ρ` ahead of it. -/
structure Searching (run : Schedule K φ R list) (r : R) (f : Heap K φ → Ptr → Bool) (i k : ℕ) (P : Point)
    (ρ : List Ptr) : Prop where
  reader : (run.state k).reader r = some (P.code list f)
  asked : (run.state k).asked r = P.asked
  reads : nrReads run r i k = P.steps
  path : Path (run.state k).heap.next (P.ahead list) ρ
  covers : Covers run i k (P.passed list ++ ρ)
  rejected : ∀ x ∈ P.asked, (∀ d, P ≠ .found x d) → ∃ m, i < m ∧ m ≤ k ∧ f (run.state m).heap x = false
  accepted : ∀ x d, P = .found x d → ∃ m, i < m ∧ m ≤ k ∧ f (run.state m).heap x = true

theorem Searching.begin (hi : i < run.len) (hb : run.act i = .begin r f) (hl : SysInv list (run.state (i + 1)) l) :
    Searching run r f i (i + 1) .start (list :: l) := by
  have hbegin : (run.state (i + 1)).reader r = some (rcuSlistFindIf list f) ∧ (run.state (i + 1)).asked r = [] := by
    have hstep := run.next i hi
    rw [hb] at hstep
    generalize run.state (i + 1) = s' at hstep
    cases Sys.step_cases hstep with
    | begin _ => exact Sys.setReader_self
  have honly : ∀ m, i < m → m ≤ i + 1 → m = i + 1 := fun m h1 h2 => by omega
  refine ⟨hbegin.1, hbegin.2, ?_, hl.rep.path, ⟨rfl, hl.rep.nodup, ?_, ?_⟩, ?_, ?_⟩
  · show among _ i (i + 1) = 0
    rw [among_one, if_neg]
    rw [hb]
    exact id
  · exact fun x hx => ⟨i + 1, by omega, le_rfl, hl.rep.linked_iff.mpr hx⟩
  · intro m h1 h2 l' hl' s hs _
    obtain rfl := honly m h1 h2
    rw [(List.cons.inj (hl.rep.path.det hl')).2]
    exact hs.cons_cons list
  · exact fun x hx => absurd hx List.not_mem_nil
  · exact fun x d hd => by cases hd

/-- **One step** of the system leaves a search one. -/
theorem Searching.next (hc : Contract run) {P : Point} {ρ : List Ptr} (hw : Searching run r f i k P ρ) (hik : i < k)
    (hk : k < run.len) (hrun : ((run.state (k + 1)).reader r).isSome = true)
    (hon : ∀ m, i < m → m ≤ k → ((run.state m).reader r).isSome = true) :
    ∃ P ρ, Searching run r f i (k + 1) P ρ := by
  obtain ⟨ρ', hpath', hcovers⟩ := hw.covers.store hc hik hk hw.path hon
  have hlater : ∀ {x : Ptr} {b : Bool}, (∃ m, i < m ∧ m ≤ k ∧ f (run.state m).heap x = b) →
      ∃ m, i < m ∧ m ≤ k + 1 ∧ f (run.state m).heap x = b :=
    fun ⟨m, h1, h2, h3⟩ => ⟨m, h1, Nat.le_succ_of_le h2, h3⟩
  obtain ⟨p', hp'⟩ := Option.isSome_iff_exists.mp hrun
  have hreads : nrReads run r i (k + 1) = nrReads run r i k + if (run.act k).Reads r then 1 else 0 :=
    nrReads_succ (Nat.le_of_lt hik)
  rcases reader_step (run.next k hk) hp' with ⟨hsame, hasked, hne⟩ | ⟨f', hact, -⟩ | ⟨p, hact, hr, hp, hasked⟩
  · refine ⟨P, ρ', ?_, hasked.trans hw.asked, ?_, hpath', hcovers,
      fun x hx hne => hlater (hw.rejected x hx hne), fun x d hd => hlater (hw.accepted x d hd)⟩
    · rw [hp', ← hsame, hw.reader]
    · rw [hreads, hw.reads, if_neg fun hread => hne (SysAct.reads_iff.mp hread)]
      rfl
  · -- a search cannot begin in the middle of one
    have hbegin := run.next k hk
    rw [hact] at hbegin
    simp only [Sys.step, hw.reader] at hbegin
    cases hbegin
  · obtain rfl := Option.some.inj (hw.reader.symm.trans hr)
    obtain ⟨hheap, P', rfl, hmoves⟩ := Point.moves_of_step hp
    rw [hheap] at hpath'
    obtain ⟨ρ'', hpath'', heq⟩ := hmoves.itinerary hpath'
    rw [heq] at hcovers
    refine ⟨P', ρ'', hp', ?_, ?_, hheap ▸ hpath'', hcovers, fun x hx hne => ?_, fun x d hd => ?_⟩
    · rw [hasked, hw.asked, hmoves.asked]
    · rw [hreads, hw.reads, hact, hmoves.steps]
      exact congrArg (P.steps + ·) (if_pos rfl)
    · rw [hmoves.asked] at hx
      rcases List.mem_append.mp hx with hx | hx
      · refine hlater (hw.rejected x hx fun d hd => ?_)
        rw [hd] at hp
        cases hp
      · exact ⟨k, hik, Nat.le_succ k, hmoves.rejected hx hne⟩
    · exact ⟨k, hik, Nat.le_succ k, hmoves.accepted hd⟩

/-- The elements asked are the first of the itinerary. -/
theorem Searching.asked_first {P : Point} {ρ : List Ptr} (hw : Searching run r f i j P ρ) :
    (list :: P.asked) <+: P.passed list ++ ρ := by
  have hcell : ∀ {q : Ptr}, P.ahead list = some q → ∃ ρ', ρ = q :: ρ' := by
    intro q hq
    have hpath := hw.path
    rw [hq] at hpath
    cases ρ with
    | nil => cases hpath
    | cons q' ρ => exact ⟨ρ, by rw [Option.some.inj hpath.1]⟩
  cases P with
  | start =>
    obtain ⟨ρ', rfl⟩ := hcell rfl
    exact ⟨ρ', rfl⟩
  | test | ask | missed => exact List.prefix_append _ _
  | load q d | found q d =>
    obtain ⟨ρ', rfl⟩ := hcell rfl
    exact ⟨ρ', (List.append_cons (list :: d) q ρ').symm⟩

/-- What a search has found out when it returns. -/
theorem Searching.answer {P : Point} {ρ : List Ptr} (hw : Searching run r f i j P ρ) {res : Option Ptr}
    (hres : P.code list f = .ret res) : Answer run f i j P.asked res := by
  cases P with
  | missed d =>
    obtain rfl : none = res := by injection hres
    have hpath := hw.path
    obtain rfl : ρ = [] := path_none.mp hpath
    refine ⟨fun x hx _ => hw.rejected x hx fun d hd => (by cases hd), fun x hx => (by cases hx), ?_⟩
    intro k h1 h2 l hl s hs hlinked
    rw [Option.toList_none, List.append_nil] at hs hlinked
    have hsub := hw.covers.stay k h1 h2 l hl s hs hlinked
    rw [List.append_nil] at hsub
    exact hsub.of_cons_cons
  | found q d =>
    obtain rfl : some q = res := by injection hres
    refine ⟨fun x hx hne => hw.rejected x hx fun d' hd => hne ?_, fun x hx => ?_, ?_⟩
    · rw [(Point.found.inj hd).1]
    · obtain rfl := Option.some.inj hx
      exact ⟨List.getLast?_concat, hw.accepted q d rfl⟩
    · intro k h1 h2 l hl s hs hlinked
      have hsub := hw.covers.stay k h1 h2 l hl _ hs hlinked
      have hnd := hw.covers.nodup
      cases ρ with
      | nil => cases hw.path
      | cons q' ρ =>
        obtain rfl := Option.some.inj hw.path.1
        have hfront : (list :: s).Sublist (list :: d) := sublist_front hsub hnd
        exact hfront.of_cons_cons.trans (List.sublist_append_left d [q])
  | _ => cases hres

/-- **A search while the writer works**: it asks no element twice and none that was not linked meanwhile, in at
most three steps for each of them and two more, until it returns its next step is there to be taken; and when it
returns, an element that stays linked all the while has been asked and rejected, unless it stands behind the one
that is returned. -/
theorem findIf_answers (hc : Contract run) (hs : Searches run r f i j) :
    (list :: (run.state j).asked r).Nodup ∧
      (∀ x ∈ (run.state j).asked r, ∃ k, i < k ∧ k ≤ j ∧ SlistOp.Linked list (run.state k).heap x) ∧
      nrReads run r i j ≤ 3 * ((run.state j).asked r).length + 2 ∧
      ((∃ res, (run.state j).reader r = some (.ret res)) ∨ ((run.state j).step list (.read r)).isSome = true) ∧
      ∀ res, (run.state j).reader r = some (.ret res) → Answer run f i j ((run.state j).asked r) res := by
  have hlt := hs.lt
  have hle := hs.le
  have hsearching : ∃ P ρ, Searching run r f i j P ρ := by
    refine run.window (show i + 1 ≤ j from hlt) hle (P := fun k => ∃ P ρ, Searching run r f i k P ρ) ?_ ?_
    · obtain ⟨l, hl⟩ := inv_of_run hc (i + 1) (by omega)
      exact ⟨_, _, .begin (by omega) hs.began hl⟩
    · rintro k hik hkj - ⟨P, ρ, hw⟩
      exact hw.next hc hik (by omega) (hs.running (k + 1) hkj (by omega)) fun m h1 h2 => hs.running m (by omega) h1
  obtain ⟨P, ρ, hw⟩ := hsearching
  have hfirst := hw.asked_first
  rw [hw.asked]
  refine ⟨hfirst.sublist.nodup hw.covers.nodup, ?_, ?_, ?_, ?_⟩
  · exact fun x hx => hw.covers.ever x (hfirst.subset (List.mem_cons_of_mem _ hx))
  · exact hw.reads ▸ P.steps_le
  · have hacc : ∀ x ∈ ρ, (run.state j).heap.accessible x = true := by
      intro x hx
      obtain ⟨m, h1, h2, hlinked⟩ := hw.covers.ever x (List.mem_append_right _ hx)
      obtain ⟨l, hl⟩ := inv_of_run hc m (by omega)
      rw [accessible_of_run hc j hle m h2]
      exact hl.rep.accessible x (hl.rep.linked_iff.mp hlinked)
    rcases P.progress (f := f) hw.path hacc with ⟨res, hres⟩ | hnext
    · exact .inl ⟨res, hres ▸ hw.reader⟩
    · refine .inr ?_
      simp only [Sys.step, hw.reader, Option.isSome_map]
      exact hnext
  · intro res hres
    exact hw.answer (Option.some.inj (hw.reader.symm.trans hres))

end Runs

/-! ### A removal and an append in the middle of a search -/

section Check

variable {K φ R : Type} {h : Heap K φ} {list x : Ptr} {n : ℕ}

theorem linked_of_walk (hw : (walk h.next n (some list)).any (fun l => l.contains x) = true) :
    SlistOp.Linked list h x := by
  obtain ⟨l, hl, hx⟩ := (Option.any_eq_true _ _).mp hw
  exact ⟨l, path_of_walk hl, List.contains_iff_mem.mp hx⟩

theorem not_linked_of_walk (hw : (walk h.next n (some list)).any (fun l => !l.contains x) = true) :
    ¬ SlistOp.Linked list h x := by
  obtain ⟨l, hl, hx⟩ := (Option.any_eq_true _ _).mp hw
  rintro ⟨l', hl', hx'⟩
  rw [(path_of_walk hl).det hl', List.contains_iff_mem.mpr hx'] at hx
  cases hx

/-- A step that hands nothing over needs no promise. -/
theorem contract_of_hands {s : Sys K φ R} {a : SysAct K φ R} (ha : a.hands = none) : s.Contract list a := by
  cases a with
  | call c =>
    cases c with
    | plain op =>
      cases op with
      | removeIf | remove | findIf => trivial
      | _ => cases ha
    | appendIfNoMatch => cases ha
    | reset => trivial
  | reuse => cases ha
  | _ => trivial

end Check

/-- The list of the nodes 1 and 2. -/
def twoNodes : Heap Unit Unit := oneElement.setNext (.node 1) (some (.node 2))

/-- A reader looks for node 3.  It has just rejected node 1 when the writer removes that one and appends node 3. -/
def midSearch : List (SysAct Unit Unit Unit) := List.flatten [
  [.begin () fun _ p => decide (p = .node 3)], .replicate 3 (.read ()),
  [.call (.plain (.remove (.node 1)))], .replicate 4 .write,
  [.return, .call (.plain (.appendToTail (.head 1 0) (.node 3)))], .replicate 6 .write,
  [.return], .replicate 6 (.read ())]

def removeThenAppend : Schedule Unit Unit Unit (.head 1 0) :=
  .ofActs ⟨twoNodes, none, fun _ => none, fun _ => []⟩ midSearch
    ⟨⟨[.node 1, .node 2], path_of_walk (show walk _ 5 _ = _ by decide +kernel), by decide +kernel⟩, rfl, fun _ => rfl⟩
    (by decide +kernel)

theorem removeThenAppend_contract : Contract removeThenAppend := by
  have hhands : ∀ i < 24, i ≠ 10 → (midSearch.getD i default).hands = none := by decide +kernel
  have hfree : ∀ m < 11, (walk (removeThenAppend.state m).heap.next 5 (some (.head 1 0))).any
      (fun l => !l.contains (.node 3)) = true := by decide +kernel
  intro i hi
  by_cases h10 : i = 10
  · subst h10
    refine ⟨⟨linked_of_walk (n := 5) (by decide +kernel), not_linked_of_walk (hfree 10 (by decide)), rfl⟩, ?_⟩
    intro x hx r m hm _
    rw [← Option.some.inj hx]
    exact not_linked_of_walk (hfree m (by omega))
  · have hnone : (removeThenAppend.act i).hands = none := hhands i hi h10
    refine ⟨contract_of_hands hnone, fun x hx => ?_⟩
    rw [hnone] at hx
    cases hx

/-- The search asks the nodes 1, 2 and 3, and returns node 3. -/
theorem removeThenAppend_answers : (removeThenAppend.state 24).asked () = [.node 1, .node 2, .node 3] ∧
    nrReads removeThenAppend () 0 24 ≤ 11 ∧
    Answer removeThenAppend (fun _ p => decide (p = .node 3)) 0 24 [.node 1, .node 2, .node 3]
      (some (.node 3)) := by
  have hasked : (removeThenAppend.state 24).asked () = [.node 1, .node 2, .node 3] := by decide +kernel
  have hdone : ((removeThenAppend.state 24).reader ()).bind Prog.result = some (some (.node 3)) := by decide +kernel
  obtain ⟨p, hp, hret⟩ := Option.bind_eq_some_iff.mp hdone
  rw [Prog.eq_ret_of_result hret] at hp
  obtain ⟨-, -, hreads, -, hanswer⟩ := findIf_answers (r := ()) (i := 0) (j := 24) removeThenAppend_contract
    ⟨by decide, by decide +kernel, rfl, by decide +kernel⟩
  rw [hasked] at hreads hanswer
  exact ⟨hasked, hreads, hanswer _ hp⟩

end Slist

end RcuTable
