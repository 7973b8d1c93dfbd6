import RcuTable.Table.Append

/-!
# Table.SlistRun — a singly linked list over any sequence of operations

A `SlistRun` starts with `rcuSlistInit` and goes on with operations that are allowed in the memory they are
called in: positions are linked, new elements are not.  `slist_refines` follows the reference along it.
-/

namespace RcuTable

open Atomic Atomic.Prog Chain

variable {K φ : Type} {list : Ptr}

/-- A sequence of completed operations on the list behind `list`. -/
structure SlistRun (K φ : Type) (list : Ptr) where
  len : ℕ
  heap : ℕ → Heap K φ
  op : ℕ → SlistOp K φ
  res : ℕ → ListRes Ptr
  start : ∃ h, h.accessible list = true ∧ (rcuSlistInit list).Returns exec h () (heap 0)
  allowed : ∀ i < len, (op i).Allowed list (heap i)
  next : ∀ i < len, ((op i).code list).Returns exec (heap i) (res i) (heap (i + 1))

theorem SlistRep.det {h : Heap K φ} {l l' : List Ptr} (hs : SlistRep h list l) (hs' : SlistRep h list l') :
    l = l' := hs.elements.det hs'.elements

theorem rcuSlistInit_total {h : Heap K φ} (ha : h.accessible list = true) :
    (rcuSlistInit list).Total exec h fun _ h' => SlistRep h' list [] := by
  refine Runs.total ?_
  exact Runs.act (if_pos ha) (.ret (.init ha))

namespace SlistRun

variable (S : SlistRun K φ list)

theorem rep_zero : SlistRep (S.heap 0) list [] := by
  obtain ⟨h, ha, hret⟩ := S.start
  exact (rcuSlistInit_total ha).2 _ _ hret

/-- One step of the run is one step of the reference. -/
theorem rep_step {i : ℕ} (hi : i < S.len) {l : List Ptr} (hs : SlistRep (S.heap i) list l) :
    ∃ l', ((S.op i).ref (S.heap i)).run list l = (S.res i, l') ∧ SlistRep (S.heap (i + 1)) list l' ∧
      (l' = l → S.heap (i + 1) = S.heap i) :=
  (SlistOp.total hs (S.allowed i hi)).2 _ _ (S.next i hi)

theorem exists_rep : ∀ i ≤ S.len, ∃ l, SlistRep (S.heap i) list l
  | 0, _ => ⟨[], S.rep_zero⟩
  | i + 1, hi => by
    obtain ⟨l, hs⟩ := exists_rep i (by omega)
    obtain ⟨l', -, hs', -⟩ := S.rep_step hi hs
    exact ⟨l', hs'⟩

end SlistRun

/-- **Refinement to a list**: the initialization leaves the empty list; every operation of a run answers as
the reference does and takes its list to the list of the reference, with nothing changed when that list is the
same and the other elements in order; the chain from the head is the list of the reference, without a cycle;
and whatever operation is allowed next completes with the answer of the reference. -/
theorem slist_refines (S : SlistRun K φ list) :
    (∀ h : Heap K φ, h.accessible list = true →
      (rcuSlistInit list).Total exec h fun _ h' => h'.next list = none) ∧
    ∃ L : ℕ → List Ptr, L 0 = [] ∧
      (∀ i < S.len, ((S.op i).ref (S.heap i)).run list (L i) = (S.res i, L (i + 1)) ∧
        (L (i + 1) = L i → S.heap (i + 1) = S.heap i) ∧
        ((L i).Sublist (L (i + 1)) ∨ (L (i + 1)).Sublist (L i))) ∧
      (∀ i ≤ S.len, Path (S.heap i).next ((S.heap i).next list) (L i) ∧ (list :: L i).Nodup) ∧
      ∀ i ≤ S.len, ∀ op : SlistOp K φ, op.Allowed list (S.heap i) →
        (op.code list).Total exec (S.heap i) fun r h' =>
          r = ((op.ref (S.heap i)).run list (L i)).1 ∧
            Path h'.next (h'.next list) ((op.ref (S.heap i)).run list (L i)).2 := by
  have hex : ∀ i, ∃ l, i ≤ S.len → SlistRep (S.heap i) list l := by
    intro i
    by_cases hi : i ≤ S.len
    · obtain ⟨l, hs⟩ := S.exists_rep i hi
      exact ⟨l, fun _ => hs⟩
    · exact ⟨[], fun hle => absurd hle hi⟩
  choose L hL using hex
  refine ⟨?_, L, (hL 0 (Nat.zero_le _)).det S.rep_zero, ?_, ?_, ?_⟩
  · intro h ha
    exact (rcuSlistInit_total ha).mono exec fun _ h' hs => hs.elements
  · intro i hi
    obtain ⟨l', hrun, hs', hsame⟩ := S.rep_step hi (hL i (by omega))
    obtain rfl : l' = L (i + 1) := hs'.det (hL (i + 1) hi)
    have horder := ((S.op i).ref (S.heap i)).run_sublist list (L i)
    rw [hrun] at horder
    exact ⟨hrun, hsame, horder⟩
  · intro i hi
    exact ⟨(hL i hi).elements, (hL i hi).nodup⟩
  · intro i hi op ha
    refine (SlistOp.total (hL i hi) ha).mono exec ?_
    rintro r h' ⟨l', hrun, hs', -⟩
    rw [hrun]
    exact ⟨rfl, hs'.elements⟩

/-- Node 1 is prepended, node 2 inserted behind it, node 1 removed, and node 3 refused. -/
def fourOps : SlistRun Unit Unit (.head 1 0) where
  len := 4
  heap
    | 0 => oneElement.setNext (.head 1 0) none
    | 1 => ((oneElement.setNext (.head 1 0) none).setNext (.node 1) none).setNext (.head 1 0) (some (.node 1))
    | 2 => ((((oneElement.setNext (.head 1 0) none).setNext (.node 1) none).setNext (.head 1 0)
        (some (.node 1))).setNext (.node 2) none).setNext (.node 1) (some (.node 2))
    | _ => (((((oneElement.setNext (.head 1 0) none).setNext (.node 1) none).setNext (.head 1 0)
        (some (.node 1))).setNext (.node 2) none).setNext (.node 1) (some (.node 2))).setNext (.head 1 0)
        (some (.node 2))
  op
    | 0 => .prependIfNoMatch (.node 1) fun _ _ _ => true
    | 1 => .insertAfter (.node 1) (.node 2)
    | 2 => .removeIf fun _ p => decide (p = .node 1)
    | _ => .prependIfNoMatch (.node 3) fun _ p _ => decide (p = .node 2)
  res
    | 0 => .bool true
    | 1 => .unit
    | 2 => .node (some (.node 1))
    | _ => .bool false
  start := ⟨oneElement, rfl, 2, rfl⟩
  allowed i hi := by
    have hlinked : ∀ (h : Heap Unit Unit) (l : List Ptr) (p : Ptr), walk h.next 5 (some (.head 1 0)) = some l →
        (SlistOp.Linked (.head 1 0) h p ↔ p ∈ l) := fun h l p hw => (path_of_walk hw).visits_iff
    obtain rfl | rfl | rfl | rfl : i = 0 ∨ i = 1 ∨ i = 2 ∨ i = 3 := by omega
    · exact ⟨by rw [hlinked _ [.head 1 0] _ rfl]; decide, rfl⟩
    · refine ⟨?_, ?_, rfl⟩
      · rw [hlinked _ [.head 1 0, .node 1] _ rfl]
        decide
      · rw [hlinked _ [.head 1 0, .node 1] _ rfl]
        decide
    · trivial
    · exact ⟨by rw [hlinked _ [.head 1 0, .node 2] _ rfl]; decide, rfl⟩
  next i hi := by
    obtain rfl | rfl | rfl | rfl : i = 0 ∨ i = 1 ∨ i = 2 ∨ i = 3 := by omega
    · exact ⟨20, rfl⟩
    · exact ⟨20, rfl⟩
    · exact ⟨20, rfl⟩
    · exact ⟨20, rfl⟩

theorem fourOps_refines : ∃ L : ℕ → List Ptr, L 0 = [] ∧ L 1 = [.node 1] ∧ L 2 = [.node 1, .node 2] ∧
    L 3 = [.node 2] ∧ L 4 = [.node 2] ∧ Path (fourOps.heap 4).next (some (.node 2)) (L 4) := by
  obtain ⟨-, L, h0, hstep, hpath, -⟩ := slist_refines fourOps
  have hrun : ∀ i < 4, ∀ l, L i = l →
      L (i + 1) = (((fourOps.op i).ref (fourOps.heap i)).run (.head 1 0) l).2 := by
    rintro i hi l rfl
    rw [(hstep i hi).1]
  have h1 : L 1 = [.node 1] := hrun 0 (by decide) _ h0
  have h2 : L 2 = [.node 1, .node 2] := hrun 1 (by decide) _ h1
  have h3 : L 3 = [.node 2] := hrun 2 (by decide) _ h2
  have h4 : L 4 = [.node 2] := hrun 3 (by decide) _ h3
  exact ⟨L, h0, h1, h2, h3, h4, (hpath 4 (Nat.le_refl 4)).1⟩

end RcuTable
