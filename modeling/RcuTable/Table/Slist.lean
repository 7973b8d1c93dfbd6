import RcuTable.Table.Search

/-!
# Table.Slist — the singly linked lists of the buckets (RcuSinglyLinkedListApi.h)

The searches are those of Table.Search.  In a bucket, a prepend links a node and the store of
`rcuSlistRemoveIf` into the cell in front of the match is a swing.
-/

namespace RcuTable

open Atomic Chain

variable {K φ : Type} {pm : Perm K φ} {h : Heap K φ} {g : View} {j : ℕ}

theorem rcuSlistFindIf_guarded (hr : Rep h g) (hj : j < g.n) (predict : Heap K φ → Ptr → Bool) :
    Guarded pm (fun r h' g' => h' = h ∧ g' = g ∧ r = (g.chain j).find? (predict h))
      (rcuSlistFindIf (.head g.info j) predict) h g := by
  unfold rcuSlistFindIf
  simp only [load, ask, Prog.bind_def, Prog.pure_def, Prog.lift_bind, Prog.loop]
  refine guarded_load hr (hr.accessible_head hj) ?_
  refine sim_findLoop hr.passive predict (hr.path j hj).2 (fun p hp => hr.accessible_of_mem hj hp) rfl
    (.ret ⟨rfl, ?_, rfl⟩)
  exact List.foldl_fixed _

/-- The two stores that put a new node in front of its bucket: the node first, so that a reader that finds
it finds the old chain behind it. -/
theorem guarded_prepend {α : Type} {Q : α → Heap K φ → View → Prop} {n : ℕ} {k : Unit → Code K φ α}
    (hr : Rep h g) (hown : pm.own (.node n)) (hnot : ¬ g.Linked (.node n))
    (hj : g.slot (h.hash (.node n)) = j)
    (hadm : pm.allow (h.setNext (.node n) (g.chain j).head?) g (.node n))
    (hk : Rep ((h.setNext (.node n) (g.chain j).head?).setNext (.head g.info j)
        (some (.node n))) (g.link j (.node n)) →
      Guarded pm Q (k ()) ((h.setNext (.node n) (g.chain j).head?).setNext (.head g.info j)
        (some (.node n))) (g.link j (.node n))) :
    Guarded pm Q (.act (.storeNext (.node n) (g.chain j).head?) fun _ =>
      .act (.storeNext (.head g.info j) (some (.node n))) k) h g := by
  have hoff : ∀ i < g.n, Ptr.node n ∉ g.full i := by
    intro i hi hp
    rcases g.mem_full.mp hp with he | hm
    · cases he
    · exact hnot ⟨i, hi, hm⟩
  refine guarded_store hr rfl hoff (fun _ => hown) ?_
  intro hr'
  exact guarded_link hr' hown hadm hnot hj (Function.update_self _ _ _) hk

theorem rcuSlistPrependIfNoMatch_guarded {n : ℕ} {binaryPredict : Heap K φ → Ptr → Ptr → Bool}
    (hr : Rep h g) (hown : pm.own (.node n)) (hnot : ¬ g.Linked (.node n))
    (hj : g.slot (h.hash (.node n)) = j)
    (hadm : (∀ q ∈ g.chain j, binaryPredict h q (.node n) = false) →
      pm.allow (h.setNext (.node n) (g.chain j).head?) g (.node n)) :
    Guarded pm (fun r h' g' =>
        r = false ∧ h' = h ∧ g' = g ∧ (∃ q ∈ g.chain j, binaryPredict h q (.node n) = true) ∨
        r = true ∧ (∀ q ∈ g.chain j, binaryPredict h q (.node n) = false) ∧
          h' = (h.setNext (.node n) (g.chain j).head?).setNext (.head g.info j)
            (some (.node n)) ∧ g' = g.link j (.node n) ∧ Rep h' g')
      (rcuSlistPrependIfNoMatch (.head g.info j) (.node n) binaryPredict) h g := by
  have hlt : j < g.n := hj ▸ hr.slot_lt _
  unfold rcuSlistPrependIfNoMatch
  simp only [load, store, ask, Prog.bind_def, Prog.pure_def, Prog.lift_bind, Prog.loop_bind]
  refine guarded_load hr (hr.accessible_head hlt) ?_
  rw [hr.next_head hlt]
  have hpath := (hr.path j hlt).2
  rw [hr.next_head hlt] at hpath
  refine sim_matchLoop hr.passive (fun h q => binaryPredict h q (.node n)) hpath
    (fun p hp => hr.accessible_of_mem hlt hp) rfl ?_
  rw [List.foldl_fixed]
  cases hany : (g.chain j).any fun q => binaryPredict h q (.node n) with
  | true =>
    obtain ⟨q, hq, hb⟩ := List.any_eq_true.mp hany
    exact .ret (Or.inl ⟨rfl, rfl, rfl, q, hq, hb⟩)
  | false =>
    have hno : ∀ q ∈ g.chain j, binaryPredict h q (.node n) = false := fun q hq => by
      simpa using List.any_eq_false.mp hany q hq
    exact guarded_prepend hr hown hnot hj (hadm hno) fun hr' => .ret (Or.inr ⟨rfl, hno, rfl, rfl, hr'⟩)

/-- In a flat table the unlink of a node is a swing at the cell in front of it. -/
theorem Flat.unlink (pm : Perm K φ) (hf : Flat h g) (hj : j < g.n) (hown : ∀ p, ¬ pm.own p) {s s' t : List Ptr}
    {p c : Ptr} (hchain : g.chain j = s ++ p :: t) (hs' : Ptr.head g.info j :: s = s' ++ [c]) :
    Swing pm h g j s' c (p :: t) t ∧ (s' ++ c :: t).tail = s ++ t := by
  have hr := hf.toRep
  have hfull : g.full j = s' ++ c :: p :: t := by
    rw [View.full, hchain, ← List.cons_append, hs']
    simp
  have htail : (s' ++ c :: t).tail = s ++ t := by
    have h1 : s' ++ c :: t = (Ptr.head g.info j :: s) ++ t := by rw [hs']; simp
    rw [h1]
    rfl
  have hpath := hr.path j hj
  rw [hfull] at hpath
  have hnd : c ∉ p :: t := (List.nodup_cons.mp (List.nodup_append.mp hpath.nodup).2.1).1
  have hpj : p ∈ g.chain j := by rw [hchain]; simp
  -- the node is in no other bucket, and only once in this one
  have hgone : ¬ (g.swing j (s ++ t)).Linked p := by
    rintro ⟨i, hi, hpi⟩
    by_cases hij : i = j
    · subst hij
      rw [View.swing_chain, Function.update_self] at hpi
      have h1 := hr.chain_nodup hi
      rw [hchain] at h1
      exact (List.nodup_cons.mp (List.nodup_middle.mp h1)).1 hpi
    · rw [View.swing_chain, Function.update_of_ne hij] at hpi
      exact hij (hf.disjoint hi hj hpi hpj)
  refine ⟨⟨hj, hfull, ?_, hpath.tail.drop (s := [p]), ?_, ?_,
    ?_, ?_, fun q hq => absurd hq (hown q)⟩, htail⟩
  · intro i hi hc
    have hcj : c ∈ g.full j := by rw [hfull]; simp
    rcases g.mem_full.mp hcj with rfl | hcj
    · exact (hr.head_mem_full hi hc).2.symm
    · rcases g.mem_full.mp hc with rfl | hci
      · exact absurd hcj (hr.head_notMem hj)
      · exact hf.disjoint hi hj hci hcj
  · exact fun hc => hnd (List.mem_cons_of_mem _ hc)
  · intro q hq
    exact ⟨j, hj, by rw [hchain]; simp [hq]⟩
  · intro q hq hnq hl
    rw [htail] at hl
    rcases List.mem_cons.mp hq with rfl | hq
    · exact absurd hl hgone
    · exact absurd hq hnq
  · intro q hq hnq
    exact absurd (List.mem_cons_of_mem _ hq) hnq

/-- What `rcuSlistRemoveIf` does to bucket `j`: the first match, if any, is taken out of the chain. -/
inductive Removed (predict : Heap K φ → Ptr → Bool) (h : Heap K φ) (g : View) (j : ℕ) :
    Option Ptr → Heap K φ → View → Prop
  | none (hno : ∀ q ∈ g.chain j, predict h q = false) : Removed predict h g j none h g
  | some {s t : List Ptr} {p c : Ptr} (hchain : g.chain j = s ++ p :: t)
      (hno : ∀ q ∈ s, predict h q = false) (hp : predict h p = true)
      (hrep : Rep (h.setNext c t.head?) (g.swing j (s ++ t))) :
      Removed predict h g j (some p) (h.setNext c t.head?) (g.swing j (s ++ t))

theorem rcuSlistRemoveIf_guarded (hf : Flat h g) (hj : j < g.n) (hown : ∀ p, ¬ pm.own p)
    (predict : Heap K φ → Ptr → Bool) :
    Guarded pm (Removed predict h g j) (rcuSlistRemoveIf (.head g.info j) predict) h g := by
  have hr := hf.toRep
  rw [rcuSlistRemoveIf_eq]
  refine guarded_load hr (hr.accessible_head hj) ?_
  refine sim_removeLoop hr.passive (hr.passive.tests predict) (hr.path j hj).2
    (fun p hp => hr.accessible_of_mem hj hp) rfl ?_ ?_
  · rintro hno _ rfl
    exact .ret (.none hno)
  · rintro s q t hchain hno hq g' rfl
    obtain ⟨s', hs'⟩ := exists_lastCell (.head g'.info j) s
    obtain ⟨hswing, htail⟩ := hf.unlink pm hj hown hchain hs'
    refine guarded_swing hr hswing rfl fun hrep => .ret ?_
    rw [htail] at hrep ⊢
    exact .some hchain hno hq hrep

end RcuTable
