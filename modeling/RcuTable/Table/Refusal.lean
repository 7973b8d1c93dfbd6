import RcuTable.Table.Counting

/-!
# Table.Refusal — inserts that are refused

`rTableCoreTryInsertNoExpand` writes the hash of its entry before it looks for a match.  For an entry that is
linked already this write is visible: the specification here is for any entry, linked or not.
-/

namespace RcuTable

open Atomic Atomic.Prog Chain

variable {K φ : Type} {fl : FloatOps φ} {h h' : Heap K φ} {g : View}

/-- Some node of the bucket matches, so the insert is to be refused. -/
def Refuses (h : Heap K φ) (n x : ℕ) (f : Heap K φ → Ptr → Ptr → Bool) : Prop :=
  ∃ p, h.InBucket x p ∧ f (h.setHash (.node n) x) p (.node n) = true

/-- The insert of any entry into a flat table: refused with the hash written, or accepted. -/
theorem rTableCoreTryInsertNoExpand_total (hf : Flat h g) (n x : ℕ) (f : Heap K φ → Ptr → Ptr → Bool) :
    (rTableCoreTryInsertNoExpand (.node n) x f).Total exec h fun r h' =>
      (r = false ∧ Refuses h n x f ∧ h' = h.setHash (.node n) x) ∨ (r = true ∧ ¬ Refuses h n x f) := by
  have hr := hf.toRep
  have hlive : (h.setHash (.node n) x).live h.pBucketsInfo = true := by
    rw [hr.info]
    exact hr.live_info
  have hacc : ∀ p ∈ g.full (g.slot x), h.accessible p = true := fun p hp =>
    hr.accessible_of_mem_full (hr.slot_lt x) hp
  refine Runs.total ?_
  unfold rTableCoreTryInsertNoExpand rcuSlistPrependIfNoMatch
  simp only [load, store, ask, Prog.lift, bind_def, pure_def, act_bind, ret_bind, Prog.loop, iter_bind]
  refine Runs.act (show exec _ h = some ((), h.setHash (.node n) x) from rfl) (Runs.act rfl ?_)
  have hnr : exec (.nrBuckets h.pBucketsInfo) (h.setHash (.node n) x) =
      some (h.nrBuckets, h.setHash (.node n) x) := if_pos hlive
  refine Runs.act hnr (Runs.act rfl ?_)
  have hhash : (h.setHash (.node n) x).hash (.node n) = x := Function.update_self _ _ _
  have hbucket : Ptr.head (h.setHash (.node n) x).pBucketsInfo (x &&& h.nrBuckets - 1) = .head g.info (g.slot x) :=
    hr.bucket x
  have hpath := (hr.path _ (hr.slot_lt x)).2
  have hload : exec (.loadNext (.head g.info (g.slot x))) (h.setHash (.node n) x) =
      some (h.next (.head g.info (g.slot x)), h.setHash (.node n) x) :=
    if_pos (hacc _ List.mem_cons_self)
  have hrefuses : Refuses h n x f ↔ ∃ p ∈ g.chain (g.slot x), f (h.setHash (.node n) x) p (.node n) = true :=
    exists_congr fun p => and_congr_left fun _ => hr.inBucket_iff
  rw [hhash, hbucket]
  refine Runs.act hload ?_
  refine sim_matchLoop (passive_true _) (fun h q => f h q (.node n)) hpath
    (fun p hp => hacc p (List.mem_cons_of_mem _ hp)) trivial ?_
  cases hany : (g.chain (g.slot x)).any fun q => f (h.setHash (.node n) x) q (.node n) with
  | true => exact .ret (Or.inl ⟨rfl, hrefuses.mpr (List.any_eq_true.mp hany), rfl⟩)
  | false =>
    -- the stores into the entry and the list head always succeed
    refine Runs.act rfl (Runs.act (if_pos ?_) (Runs.act rfl (.ret (Or.inr ⟨rfl, ?_⟩))))
    · exact hacc _ List.mem_cons_self
    · intro hc
      obtain ⟨p, hp, hm⟩ := hrefuses.mp hc
      rw [List.any_eq_false.mp hany p hp |> Bool.eq_false_iff.mpr] at hm
      cases hm

/-- What the caller of a refused insert expects: nothing has changed that the table or a lookup uses, and the
table can still be resized. -/
structure Kept (h h' : Heap K φ) : Prop where
  next : h'.next = h.next
  hash : ∀ p, h.Linked p → h'.hash p = h.hash p
  size : h'.size = h.size
  array : h'.pBucketsInfo = h.pBucketsInfo ∧ h'.nrBucketsPowerOf2 = h.nrBucketsPowerOf2 ∧ h'.live = h.live
  home : ∀ p, h.Linked p → h'.InBucket (h'.hash p) p
  expand : rTableCoreExpandBuckets2x.Total exec h' fun _ h2 => ∀ p, h2.Linked p ↔ h.Linked p
  shrink : rTableCoreShrinkBuckets2x.Total exec h' fun _ h2 => ∀ p, h2.Linked p ↔ h.Linked p

/-- A write of the hash that is there already, or of an entry that is not linked. -/
theorem Flat.kept (hf : Flat h g) {n x : ℕ} (hx : h.Linked (.node n) → h.hash (.node n) = x) :
    Kept h (h.setHash (.node n) x) := by
  have hh : ∀ p, h.Linked p → (h.setHash (.node n) x).hash p = h.hash p := by
    intro p hp
    by_cases hpn : p = .node n
    · subst hpn
      exact (Function.update_self _ _ _).trans (hx hp).symm
    · exact Function.update_of_ne hpn _ _
  have hf' : Flat (h.setHash (.node n) x) g := by
    have hh' : ∀ p, g.Linked p → (h.setHash (.node n) x).hash p = h.hash p := fun p hp =>
      hh p (hf.linked_heap.mpr hp)
    exact hf.hashed (hf.toRep.congr rfl (fun _ _ => ⟨rfl, rfl⟩) hf.null hf.fresh (fun _ _ _ _ => rfl) hh') hh'
  have hlinked : ∀ {h2 : Heap K φ} {g2 : View}, Flat h2 g2 → (∀ p, g2.Linked p ↔ g.Linked p) →
      ∀ p, h2.Linked p ↔ h.Linked p := fun hf2 hl p =>
    hf2.linked_heap.trans ((hl p).trans hf.linked_heap.symm)
  have hexpand : Guarded Perm.none _ _ _ _ := rTableCoreExpandBuckets2x_guarded hf'
  have hshrink : Guarded Perm.none _ _ _ _ := rTableCoreShrinkBuckets2x_guarded hf'
  refine ⟨rfl, hh, rfl, ⟨rfl, rfl, rfl⟩, ?_, hexpand.total.mono exec ?_,
    hshrink.total.mono exec ?_⟩
  · intro p hp
    exact hf'.inBucket_iff.mpr (hf'.linked_home (hf.linked_heap.mp hp))
  · rintro _ h2 ⟨g2, he⟩
    exact hlinked he.flat fun p => he.linked hf'
  · rintro r h2 ⟨g2, ⟨-, -, rfl, rfl⟩ | ⟨-, hs⟩⟩
    · exact hlinked hf' fun p => Iff.rfl
    · exact hlinked hs.flat fun p => hs.linked

section Refused

variable {n x : ℕ} {f : Heap K φ → Ptr → Ptr → Bool}

theorem rTableCoreTryInsertNoExpand_refused (hf : Flat h g) :
    (rTableCoreTryInsertNoExpand (.node n) x f).Returns exec h false h' ↔
      Refuses h n x f ∧ h' = h.setHash (.node n) x := by
  obtain ⟨⟨r, h1, hret⟩, hall⟩ := rTableCoreTryInsertNoExpand_total hf n x f
  constructor
  · intro hfalse
    rcases hall _ _ hfalse with ⟨-, hq⟩ | ⟨hr, -⟩
    · exact hq
    · cases hr
  · rintro ⟨hq, rfl⟩
    rcases hall _ _ hret with ⟨rfl, -, rfl⟩ | ⟨-, hno⟩
    · exact hret
    · exact absurd hq hno

/-- The insert that may expand refuses what the insert that does not refuses. -/
theorem rTableCoreTryInsert_refused :
    (rTableCoreTryInsert fl (.node n) x f).Returns exec h false h' ↔
      (rTableCoreTryInsertNoExpand (.node n) x f).Returns exec h false h' := by
  constructor
  · intro hret
    obtain ⟨b, h1, hb, hrest⟩ := (returns_bind exec).mp hret
    cases b with
    | false =>
      obtain ⟨-, rfl⟩ := (returns_ret exec).mp hrest
      exact hb
    | true =>
      -- an accepted entry is reported as such, whatever the expand does
      simp only [Prog.lift, bind_def, pure_def, act_bind, ret_bind] at hrest
      obtain ⟨currentSize, _, _, hrest⟩ := hrest.of_act
      obtain ⟨pBucketsInfo, _, _, hrest⟩ := hrest.of_act
      obtain ⟨nrBuckets, _, _, hrest⟩ := hrest.of_act
      obtain ⟨_, _, _, hrest⟩ := (returns_bind exec).mp hrest
      obtain ⟨he, -⟩ := (returns_ret exec).mp hrest
      cases he
  · exact fun hret => (returns_bind exec).mpr ⟨false, h', hret, 1, rfl⟩

/-- A refusal of either insert. -/
theorem Op.refused_iff {op : Op K φ} (hf : Flat h g)
    (hop : op = .tryInsert n x f ∨ op = .tryInsertNoExpand n x f) :
    (op.code fl).Returns exec h (.bool false) h' ↔ Refuses h n x f ∧ h' = h.setHash (.node n) x := by
  have hwrap : ∀ {p : Code K φ Bool}, (p.bind fun b => .ret (Res.bool b)).Returns exec h (.bool false) h' ↔
      p.Returns exec h false h' := by
    intro p
    constructor
    · intro hret
      obtain ⟨b, h1, hb, hr⟩ := (returns_bind exec).mp hret
      obtain ⟨he, rfl⟩ := (returns_ret exec).mp hr
      rwa [Res.bool.inj he]
    · exact fun hret => (returns_bind exec).mpr ⟨false, h', hret, 1, rfl⟩
  rw [← rTableCoreTryInsertNoExpand_refused hf]
  rcases hop with rfl | rfl
  · exact hwrap.trans rTableCoreTryInsert_refused
  · exact hwrap

end Refused

/-- A refused insert leaves the table as it was exactly when the entry is not linked, or linked with the hash
that the call passes. -/
theorem refused_insert_kept_iff {conf : RTableCoreConfig φ} (S : Session (K := K) fl conf) (n x : ℕ)
    (f : Heap K φ → Ptr → Ptr → Bool) :
    (∀ op : Op K φ, op = .tryInsert n x f ∨ op = .tryInsertNoExpand n x f → ∀ h' : Heap K φ,
      (op.code fl).Returns exec S.last (.bool false) h' → Kept S.last h') ↔
    (Refuses S.last n x f → S.last.Linked (.node n) → S.last.hash (.node n) = x) := by
  obtain ⟨g, hf⟩ := S.flat S.len le_rfl
  have hf : Flat S.last g := hf
  constructor
  · intro hkept href hl
    have hret : ((Op.tryInsert n x f).code fl).Returns exec S.last (.bool false)
        (S.last.setHash (.node n) x) := (Op.refused_iff hf (Or.inl rfl)).mpr ⟨href, rfl⟩
    have hhash := (hkept _ (Or.inl rfl) _ hret).hash _ hl
    rw [← hhash]
    exact Function.update_self _ _ _
  · intro hcond op hop h' hret
    obtain ⟨href, rfl⟩ := (Op.refused_iff hf hop).mp hret
    exact hf.kept fun hl => hcond href hl

/-- Nodes 0 and 1 are linked in two buckets; node 0 is inserted again, with the hash of node 1. -/
theorem twoInserts_refused : ¬ ∀ (S : Session (K := Unit) ratOps oneBucket) (n x : ℕ)
    (f : Heap Unit ℚ → Ptr → Ptr → Bool) (op : Op Unit ℚ),
    op = .tryInsert n x f ∨ op = .tryInsertNoExpand n x f → ∀ h' : Heap Unit ℚ,
    (op.code ratOps).Returns exec S.last (.bool false) h' → Kept S.last h' := by
  intro hall
  have hrun : (((Op.tryInsert 0 1 fun _ _ _ => true).code ratOps).run exec 100 twoInserts.last).map
      (fun r => (r.1, r.2.hash (.node 0))) = some (.bool false, 1) := by decide +kernel
  obtain ⟨⟨r, h'⟩, hret, hr⟩ := Option.map_eq_some_iff.mp hrun
  obtain ⟨rfl, hhash⟩ := Prod.mk.inj hr
  have hkept := hall twoInserts 0 1 _ _ (Or.inl rfl) h' ⟨100, hret⟩
  have hnodes : twoInserts.last.nodes 4 = some [.node 0, .node 1] := by decide +kernel
  have h0 := hkept.hash (.node 0) ((Heap.linked_iff_of_nodes hnodes).mpr (by simp))
  rw [show h'.hash (.node 0) = 1 from hhash] at h0
  exact absurd h0 (by decide +kernel)

end RcuTable
