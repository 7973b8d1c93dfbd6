import RcuTable.Lib.Restrict
import RcuTable.Table.Arrays
import RcuTable.Table.Counting

/-!
# Table.Machine — the bucket counts that the loop counter of `allocateAndInitBuckets` can reach

The loop of `allocateAndInitBuckets` counts with an `int` and compares it with a `size_t`: for a count from
`2 ^ 31` on its last increment overflows.  `allocateAndInitBuckets32` is the function with that counter, and
`exec32` the machine that stops at such a count; on it a table never has more than `2 ^ 30` buckets, so that
the doubled count and the size passed to `malloc` stay far below the bounds of `size_t`.  `malloc` itself is
taken to find the memory it is asked for.
-/

namespace RcuTable

open Atomic Atomic.Prog

variable {K φ α β : Type}

/-- `allocateAndInitBuckets` with `int iBucket`, whose increment past `2 ^ 31 - 1` is undefined. -/
def allocateAndInitBuckets32 (nrBucketsPowerOf2 : ℕ) : Code K φ ℕ := do
  assert (nrBucketsPowerOf2 > 0)
  let p ← Prog.lift (.malloc nrBucketsPowerOf2)
  Prog.loop (fun iBucket =>
    if iBucket < nrBucketsPowerOf2 then do
      store (.head p iBucket) none
      if iBucket + 1 < 2 ^ 31 then pure (.inl (iBucket + 1)) else abort
    else pure (.inr ())) 0
  return p

/-- The machine with an `int` for the buckets. -/
def exec32 : {β : Type} → Act K φ β → Heap K φ → Option (β × Heap K φ)
  | _, .malloc n, h => if n < 2 ^ 31 then exec (.malloc n) h else none
  | _, a, h => exec a h

theorem exec32_restricts : Restricts (exec32 (K := K) (φ := φ)) exec := by
  intro β a h r hr
  cases a with
  | malloc n =>
    by_cases hn : n < 2 ^ 31
    · exact (if_pos hn).symm.trans hr
    · exact absurd ((if_neg hn).symm.trans hr) (by simp)
  | _ => exact hr

def Act.NoMalloc : {β : Type} → Act K φ β → Prop
  | _, .malloc _ => False
  | _, _ => True

/-- The program allocates nothing. -/
abbrev NoMalloc (p : Code K φ α) : Prop := Only Act.NoMalloc p

theorem Plain.noMalloc {p : Code K φ α} (hp : Plain p) : NoMalloc p := by
  refine hp.mono fun a ha => ?_
  cases a with
  | malloc => exact ha.elim
  | _ => trivial

theorem NoMalloc.returns32_iff {p : Code K φ α} (hp : NoMalloc p) {h h' : Heap K φ} {a : α} :
    p.Returns exec32 h a h' ↔ p.Returns exec h a h' := by
  refine Only.returns_iff (fun a h ha => ?_) hp
  cases a with
  | malloc => exact ha.elim
  | _ => rfl

variable {h h' : Heap K φ}

/-- A part that allocates nothing, and what follows it. -/
theorem NoMalloc.returns32_bind {p : Code K φ β} (hp : NoMalloc p) {f : β → Code K φ α} {r : α}
    (hr : (p.bind f).Returns exec h r h') : ∃ v h1, p.Returns exec h v h1 ∧ (f v).Returns exec h1 r h' ∧
      ((p.bind f).Returns exec32 h r h' ↔ (f v).Returns exec32 h1 r h') := by
  obtain ⟨v, h1, hv, hk⟩ := (returns_bind exec).mp hr
  refine ⟨v, h1, hv, hk, ?_⟩
  rw [exec32_restricts.returns_bind_iff hv, hp.returns32_iff, and_iff_right hv]

/-- A part, and behind it one that allocates nothing. -/
theorem returns32_bind_iff {p : Code K φ β} {f : β → Code K φ α} {r : α} {P : Prop}
    (hr : (p.bind f).Returns exec h r h') (hf : ∀ v, NoMalloc (f v))
    (hp : ∀ v h1, p.Returns exec h v h1 → (p.Returns exec32 h v h1 ↔ P)) :
    (p.bind f).Returns exec32 h r h' ↔ P := by
  obtain ⟨v, h1, hv, hk⟩ := (returns_bind exec).mp hr
  rw [exec32_restricts.returns_bind_iff hv, (hf v).returns32_iff, and_iff_left hk]
  exact hp v h1 hv

theorem returns32_bind {p : Code K φ β} {f : β → Code K φ α} {r : α} (hr : (p.bind f).Returns exec h r h')
    (hf : ∀ v, NoMalloc (f v)) (hp : ∀ v h1, p.Returns exec h v h1 → p.Returns exec32 h v h1) :
    (p.bind f).Returns exec32 h r h' :=
  (returns32_bind_iff hr hf fun v h1 hv => iff_true_intro (hp v h1 hv)).mpr trivial

theorem returns32_pure {a r : α} (hr : (pure a : Code K φ α).Returns exec h r h') :
    (pure a : Code K φ α).Returns exec32 h r h' :=
  (returns_ret exec32).mpr ((returns_ret exec).mp hr)

theorem not_returns_abort_bind {f : β → Code K φ α} {r : α} :
    ¬ ((abort : Code K φ β).bind f).Returns exec h r h' := by
  intro hr
  obtain ⟨v, -, -, -⟩ := (returns_act exec).mp hr
  exact v.elim

/-! ### The loop with an `int` counter -/

section Allocate

variable {n p b : ℕ}

/-- The rest of the loop, from `iBucket` on. -/
abbrev initLoop32 (n p iBucket : ℕ) : Code K φ ℕ :=
  .iter (fun iBucket => if iBucket < n then do
      store (.head p iBucket) none
      if iBucket + 1 < 2 ^ 31 then pure (.inl (iBucket + 1)) else abort
    else pure (.inr ())) iBucket fun _ => .ret p

/-- Below `2 ^ 31` the loop is the counted one. -/
theorem initLoop32_returns_iff (hn : n < 2 ^ 31) : ∀ {m i : ℕ} {h : Heap K φ}, i + m = n →
    ((initLoop32 n p i).Returns exec h b h' ↔
      ((forFrom (fun iBucket _ => store (.head p iBucket) none) m i ()).bind fun _ =>
        (.ret p : Code K φ ℕ)).Returns exec h b h')
  | 0, i, h, hi => by
    rw [returns_iter, Prog.unroll, if_neg (by omega)]
    rfl
  | m + 1, i, h, hi => by
    rw [returns_iter, Prog.unroll, if_pos (by omega), if_pos (by omega)]
    show Prog.Returns exec (.act (.storeNext (.head p i) none) fun _ => initLoop32 n p (i + 1)) h b h' ↔
      Prog.Returns exec (.act (.storeNext (.head p i) none) fun _ => (forFrom _ m (i + 1) ()).bind _) h b h'
    rw [returns_act, returns_act]
    exact exists_congr fun v => exists_congr fun h1 => and_congr_right fun _ =>
      initLoop32_returns_iff hn (by omega)

/-- From `2 ^ 31` on it does not end: the counter overflows. -/
theorem initLoop32_stops (hn : 2 ^ 31 ≤ n) : ∀ {m i : ℕ} {h : Heap K φ}, i + m + 1 = 2 ^ 31 →
    ¬ (initLoop32 n p i).Returns exec h b h'
  | m, i, h, hi => by
    rw [returns_iter, Prog.unroll, if_pos (by omega)]
    intro hr
    obtain ⟨v, h1, he, hk⟩ := ((returns_act exec).mp hr)
    cases m with
    | zero =>
      rw [if_neg (by omega)] at hk
      exact not_returns_abort_bind hk
    | succ m =>
      rw [if_pos (by omega)] at hk
      exact initLoop32_stops hn (m := m) (by omega) hk

theorem allocateAndInitBuckets_eq (h0 : 0 < n) : (allocateAndInitBuckets n : Code K φ ℕ) =
    .act (.malloc n) fun p =>
      (forFrom (fun iBucket _ => store (.head p iBucket) none) n 0 ()).bind fun _ => .ret p := by
  unfold allocateAndInitBuckets
  rw [decide_eq_true h0]
  rfl

theorem noMalloc_clear (n p : ℕ) : NoMalloc
    ((forFrom (fun iBucket _ => store (.head p iBucket) none) n 0 ()).bind fun _ => (.ret p : Code K φ ℕ)) :=
  Plain.noMalloc ((Only.forFrom (fun _ _ => plain_store _ _) n 0 ()).bind fun _ => trivial)

theorem not_returns_assert (h0 : ¬ 0 < n) {f : Unit → Code K φ α} {r : α} :
    ¬ ((assert (decide (n > 0))).bind f).Returns exec h r h' := by
  intro hr
  rw [decide_eq_false h0] at hr
  exact not_returns_abort_bind hr

/-- **The loop counter**: on the machine `exec32` the allocation is the one with an `int` counter. -/
theorem allocateAndInitBuckets32_returns_iff :
    (allocateAndInitBuckets32 n).Returns exec h b h' ↔ (allocateAndInitBuckets n).Returns exec32 h b h' := by
  by_cases h0 : 0 < n
  · have h1 : (allocateAndInitBuckets32 n : Code K φ ℕ) = .act (.malloc n) fun p => initLoop32 n p 0 := by
      unfold allocateAndInitBuckets32
      rw [decide_eq_true h0]
      rfl
    rw [h1, allocateAndInitBuckets_eq h0, returns_act, returns_act]
    refine exists_congr fun p => exists_congr fun hm => ?_
    by_cases hn : n < 2 ^ 31
    · rw [(noMalloc_clear n p).returns32_iff, initLoop32_returns_iff hn (Nat.zero_add n)]
      exact and_congr_left fun _ => by rw [exec32, if_pos hn]
    · rw [exec32, if_neg hn]
      refine ⟨fun hr => absurd hr.2 (initLoop32_stops (by omega) (m := 2 ^ 31 - 1) (by omega)), ?_⟩
      rintro ⟨hr, -⟩
      cases hr
  · exact iff_of_false (not_returns_assert h0) fun hr => not_returns_assert h0 (exec32_restricts.returns hr)

theorem allocateAndInitBuckets_returns32_iff (hr : (allocateAndInitBuckets n).Returns exec h b h') :
    (allocateAndInitBuckets n).Returns exec32 h b h' ↔ n < 2 ^ 31 := by
  by_cases h0 : 0 < n
  · rw [allocateAndInitBuckets_eq h0] at hr ⊢
    obtain ⟨p, hm, he, hk⟩ := (returns_act exec).mp hr
    rw [returns_act]
    constructor
    · rintro ⟨p', hm', he', -⟩
      by_contra hn
      rw [exec32, if_neg hn] at he'
      cases he'
    · exact fun hn => ⟨p, hm, (if_pos hn).trans he, (noMalloc_clear n p).returns32_iff.mpr hk⟩
  · exact absurd hr (not_returns_assert h0)

end Allocate

/-! ### Resizes -/

theorem nrBuckets_of_returns {b n : ℕ} {h1 : Heap K φ}
    (hr : (Prog.lift (.nrBuckets b) : Code K φ ℕ).Returns exec h n h1) :
    n = h.nrBucketsPowerOf2 b ∧ h1 = h := by
  obtain ⟨v, h2, he, hk⟩ := (returns_act exec).mp hr
  obtain ⟨rfl, rfl⟩ := (returns_ret exec).mp hk
  simp only [exec] at he
  split at he
  · obtain ⟨rfl, rfl⟩ := Prod.mk.inj (Option.some.inj he)
    exact ⟨rfl, rfl⟩
  · cases he

theorem loadInfo_of_returns {b : ℕ} {h1 : Heap K φ}
    (hr : (Prog.lift .loadInfo : Code K φ ℕ).Returns exec h b h1) : b = h.pBucketsInfo ∧ h1 = h := by
  obtain ⟨v, h2, he, hk⟩ := (returns_act exec).mp hr
  obtain ⟨rfl, rfl⟩ := (returns_ret exec).mp hk
  obtain ⟨rfl, rfl⟩ := Prod.mk.inj (Option.some.inj he)
  exact ⟨rfl, rfl⟩

/-- The bucket count that a call reads, and what follows. -/
theorem returns32_nrBuckets {f : ℕ → ℕ → Code K φ α} {r : α}
    (hr : ((Prog.lift .loadInfo : Code K φ ℕ).bind fun b =>
      (Prog.lift (.nrBuckets b) : Code K φ ℕ).bind (f b)).Returns exec h r h') :
    (f h.pBucketsInfo h.nrBuckets).Returns exec h r h' ∧
      (((Prog.lift .loadInfo : Code K φ ℕ).bind fun b =>
        (Prog.lift (.nrBuckets b) : Code K φ ℕ).bind (f b)).Returns exec32 h r h' ↔
          (f h.pBucketsInfo h.nrBuckets).Returns exec32 h r h') := by
  obtain ⟨b, h1, hb, hr, hiff⟩ := plain_loadInfo.noMalloc.returns32_bind hr
  obtain ⟨rfl, rfl⟩ := loadInfo_of_returns hb
  obtain ⟨n, h2, hn, hr, hiff'⟩ := (plain_nrBuckets _).noMalloc.returns32_bind hr
  obtain ⟨rfl, rfl⟩ := nrBuckets_of_returns hn
  exact ⟨hr, hiff.trans hiff'⟩

theorem expandBucketsByFac2ReturnOld_returns32_iff {b : ℕ}
    (hr : expandBucketsByFac2ReturnOld.Returns exec h b h') :
    expandBucketsByFac2ReturnOld.Returns exec32 h b h' ↔ h.nrBuckets * 2 < 2 ^ 31 := by
  obtain ⟨hr, hiff⟩ := returns32_nrBuckets hr
  refine hiff.trans (returns32_bind_iff hr (fun bucketsInfo => ?_) fun _ _ =>
    allocateAndInitBuckets_returns32_iff)
  refine Only.bind (Plain.noMalloc (Only.forFrom (fun _ _ => plain_initTwinDstBuckets _ _ _ _ _ _) _ 0 ())) ?_
  refine fun _ => ⟨trivial, fun _ => Plain.noMalloc (plain_rcuSynchronize.bind fun _ => ?_)⟩
  refine (plain_findFirstUnzipStarts _ _).bind fun noNeedToUnzip => ?_
  split
  · trivial
  · exact (plain_unzip _ _).bind fun _ => trivial

theorem shrinkBucketsByFac2ReturnOld_returns32 {b : Option ℕ} (hn : h.nrBuckets < 2 ^ 31)
    (hr : shrinkBucketsByFac2ReturnOld.Returns exec h b h') :
    shrinkBucketsByFac2ReturnOld.Returns exec32 h b h' := by
  obtain ⟨hr, hiff⟩ := returns32_nrBuckets hr
  refine hiff.mpr ?_
  dsimp only at hr ⊢
  split_ifs at hr ⊢ with h0
  · exact returns32_pure hr
  · refine returns32_bind hr (fun bucketsInfo => ?_) fun _ _ hp =>
      (allocateAndInitBuckets_returns32_iff hp).mpr (by omega)
    refine Only.bind (Plain.noMalloc (Only.forFrom (fun _ _ => plain_shrinkTwoBucketsToOne _ _ _) _ 0 ())) ?_
    exact fun _ => ⟨trivial, fun _ => Plain.noMalloc (plain_rcuSynchronize.bind fun _ => trivial)⟩

theorem noMalloc_destroyAndFreeBuckets (b : ℕ) : NoMalloc (destroyAndFreeBuckets b : Code K φ Unit) :=
  .lift trivial

theorem rTableCoreExpandBuckets2x_returns32_iff (hr : rTableCoreExpandBuckets2x.Returns exec h () h') :
    rTableCoreExpandBuckets2x.Returns exec32 h () h' ↔ h.nrBuckets * 2 < 2 ^ 31 :=
  returns32_bind_iff hr noMalloc_destroyAndFreeBuckets fun _ _ => expandBucketsByFac2ReturnOld_returns32_iff

theorem rTableCoreShrinkBuckets2x_returns32 {b : Bool} (hn : h.nrBuckets < 2 ^ 31)
    (hr : rTableCoreShrinkBuckets2x.Returns exec h b h') :
    rTableCoreShrinkBuckets2x.Returns exec32 h b h' := by
  refine returns32_bind hr (fun v => ?_) fun _ _ => shrinkBucketsByFac2ReturnOld_returns32 hn
  cases v with
  | none => trivial
  | some old => exact (noMalloc_destroyAndFreeBuckets old).bind fun _ => trivial

theorem rTableCoreInitDetailed_returns32_iff {conf : RTableCoreConfig φ}
    (hr : (rTableCoreInitDetailed conf).Returns exec h () h') :
    (rTableCoreInitDetailed conf).Returns exec32 h () h' ↔ conf.nrBucketsPowerOf2 < 2 ^ 31 :=
  returns32_bind_iff hr (fun _ => (plain_storeFactors _ _).noMalloc.bind fun _ => .lift trivial) fun _ _ =>
    allocateAndInitBuckets_returns32_iff

/-! ### Calls -/

section Calls

variable {fl : FloatOps φ} {g g' : View}

theorem loadSize_of_returns {m : ℕ} {h1 : Heap K φ}
    (hr : (Prog.lift .loadSize : Code K φ ℕ).Returns exec h m h1) : m = h.size ∧ h1 = h := by
  obtain ⟨v, h2, he, hk⟩ := (returns_act exec).mp hr
  obtain ⟨rfl, rfl⟩ := (returns_ret exec).mp hk
  obtain ⟨rfl, rfl⟩ := Prod.mk.inj (Option.some.inj he)
  exact ⟨rfl, rfl⟩

theorem expandBucketsByFac2IfNecessary_returns32_iff {m n : ℕ}
    (hr : (expandBucketsByFac2IfNecessary fl m n).Returns exec h () h') :
    (expandBucketsByFac2IfNecessary fl m n).Returns exec32 h () h' ↔
      (expands fl h m n = true → h.nrBuckets * 2 < 2 ^ 31) := by
  obtain ⟨e, h1, he, hr, hiff⟩ := plain_expandFactor.noMalloc.returns32_bind hr
  obtain ⟨v, h2, he, hk⟩ := (returns_act exec).mp he
  obtain ⟨rfl, rfl⟩ := (returns_ret exec).mp hk
  obtain ⟨rfl, rfl⟩ := Prod.mk.inj (Option.some.inj he)
  refine hiff.trans ?_
  by_cases hx : expands fl h m n = true
  · have hx' : fl.lt (fl.mul h.expandFactor (fl.ofSize n)) (fl.ofSize m) = true := hx
    rw [if_pos hx'] at hr ⊢
    exact (rTableCoreExpandBuckets2x_returns32_iff hr).trans (by simp [hx])
  · have hx' : ¬ fl.lt (fl.mul h.expandFactor (fl.ofSize n)) (fl.ofSize m) = true := hx
    rw [if_neg hx'] at hr ⊢
    exact iff_of_true (returns32_pure hr)
      fun hx'' => absurd hx'' hx

theorem shrinkBucketsByFac2IfNecessary_returns32 {m n : ℕ} {b : Bool} (hn : h.nrBuckets < 2 ^ 31)
    (hr : (shrinkBucketsByFac2IfNecessary fl m n).Returns exec h b h') :
    (shrinkBucketsByFac2IfNecessary fl m n).Returns exec32 h b h' := by
  obtain ⟨e, h1, he, hr, hiff⟩ := plain_shrinkFactor.noMalloc.returns32_bind hr
  obtain ⟨v, h2, he, hk⟩ := (returns_act exec).mp he
  obtain ⟨rfl, rfl⟩ := (returns_ret exec).mp hk
  obtain ⟨rfl, rfl⟩ := Prod.mk.inj (Option.some.inj he)
  refine hiff.mpr ?_
  split_ifs at hr ⊢
  · exact rTableCoreShrinkBuckets2x_returns32 hn hr
  · exact returns32_pure hr

/-- The table that an insert without a resize leaves. -/
theorem tryInsertNoExpand_of_returns (hf : Flat h g) {n x : ℕ} (hfree : ¬ h.Linked (.node n))
    {f : Heap K φ → Ptr → Ptr → Bool} {b : Bool} {h1 : Heap K φ}
    (hr : (rTableCoreTryInsertNoExpand (.node n) x f).Returns exec h b h1) :
    (b = false ∧ ¬ (Op.tryInsert n x f).Adds h) ∨
    (b = true ∧ (Op.tryInsert n x f).Adds h ∧ Counted h h1 1 0 h.nrBuckets) := by
  have hnot : ¬ g.Linked (.node n) := fun hl => hfree (hf.linked_heap.mpr hl)
  have hsim : Guarded ⟨fun p => p = .node n, fun _ _ _ => True⟩ _ (rTableCoreTryInsertNoExpand _ x f) h g :=
    rTableCoreTryInsertNoExpand_guarded hf rfl hnot fun _ _ _ _ => trivial
  obtain ⟨g1, hp⟩ := hsim.total.2 _ _ hr
  rcases hp with ⟨rfl, ⟨q, hq, hm⟩, -⟩ | ⟨rfl, hno, hs⟩
  · refine Or.inl ⟨rfl, fun ha => ?_⟩
    have hm' := ha q (hf.inBucket_iff.mpr hq)
    rw [hm] at hm'
    cases hm'
  · refine Or.inr ⟨rfl, fun q hq => hno q (hf.inBucket_iff.mp hq), ?_⟩
    rw [hf.nrBuckets]
    exact hs.counted_add hf hnot rfl rfl

theorem tryDetachNoShrink_of_returns (hf : Flat h g) {x : ℕ} {f : Heap K φ → Ptr → Bool} {p : Option Ptr}
    {h1 : Heap K φ} (hr : (rTableCoreTryDetachNoShrink x f).Returns exec h p h1) :
    h1.nrBuckets = h.nrBuckets := by
  have hsim : Guarded Perm.none _ _ h g := rTableCoreTryDetachNoShrink_guarded hf (fun _ => id) x f
  obtain ⟨g1, hp⟩ := hsim.total.2 _ _ hr
  rcases hp.counted hf with ⟨-, hc, -⟩ | ⟨-, hc, -⟩
  · exact hc.buckets
  · exact hc.buckets.trans hf.nrBuckets.symm

/-- The call doubles the buckets. -/
def Op.Doubles (fl : FloatOps φ) (h : Heap K φ) : Op K φ → Prop
  | .expandBuckets2x => True
  | .tryInsert n x f => (Op.tryInsert n x f).Adds h ∧ expands fl h (h.size + 1) h.nrBuckets = true
  | _ => False

theorem rTableCoreTryInsert_returns32_iff (hf : Flat h g) {n x : ℕ} (hfree : ¬ h.Linked (.node n))
    {f : Heap K φ → Ptr → Ptr → Bool} {b : Bool}
    (hr : (rTableCoreTryInsert fl (.node n) x f).Returns exec h b h') :
    (rTableCoreTryInsert fl (.node n) x f).Returns exec32 h b h' ↔
      ((Op.tryInsert n x f).Doubles fl h → h.nrBuckets * 2 < 2 ^ 31) := by
  obtain ⟨inserted, h1, hins, hr, hiff⟩ :=
    (plain_rTableCoreTryInsertNoExpand _ x f).noMalloc.returns32_bind hr
  refine hiff.trans ?_
  rcases tryInsertNoExpand_of_returns hf hfree hins with ⟨rfl, hno⟩ | ⟨rfl, hadds, hc⟩
  · exact iff_of_true (returns32_pure hr)
      fun hd => absurd hd.1 hno
  · obtain ⟨m, h2, hm, hr, hiff⟩ := plain_loadSize.noMalloc.returns32_bind hr
    obtain ⟨rfl, rfl⟩ := loadSize_of_returns hm
    obtain ⟨hr, hiff'⟩ := returns32_nrBuckets hr
    refine hiff.trans (hiff'.trans ((returns32_bind_iff hr (fun _ => trivial) fun _ _ =>
      expandBucketsByFac2IfNecessary_returns32_iff).trans ?_))
    rw [hc.size, hc.buckets, expands, hc.expandFactor]
    exact ⟨fun hx hd => hx hd.2, fun hx he => hx ⟨hadds, he⟩⟩

theorem rTableCoreTryDetachAutoShrink_returns32 (hf : Flat h g) (hn : h.nrBuckets < 2 ^ 31) {x : ℕ}
    {f : Heap K φ → Ptr → Bool} {r : Option Ptr × Bool}
    (hr : (rTableCoreTryDetachAutoShrink fl x f).Returns exec h r h') :
    (rTableCoreTryDetachAutoShrink fl x f).Returns exec32 h r h' := by
  obtain ⟨p, h1, hdet, hr, hiff⟩ := (plain_rTableCoreTryDetachNoShrink x f).noMalloc.returns32_bind hr
  refine hiff.mpr ?_
  have hn1 := tryDetachNoShrink_of_returns hf hdet
  cases p with
  | none => exact returns32_pure hr
  | some p =>
    obtain ⟨m, h2, hm, hr, hiff⟩ := plain_loadSize.noMalloc.returns32_bind hr
    obtain ⟨rfl, rfl⟩ := loadSize_of_returns hm
    obtain ⟨hr, hiff'⟩ := returns32_nrBuckets hr
    exact hiff.mpr (hiff'.mpr (returns32_bind hr (fun _ => trivial) fun _ _ =>
      shrinkBucketsByFac2IfNecessary_returns32 (by omega)))

/-- **Calls on the machine**: a call that returns returns there, too, unless it doubles `2 ^ 30` buckets. -/
theorem Op.returns32_iff {op : Op K φ} {r : Res} (hf : Flat h g) (hn : h.nrBuckets < 2 ^ 31)
    (hfree : ∀ p, op.own p → ¬ h.Linked p) (hr : (op.code fl).Returns exec h r h') :
    (op.code fl).Returns exec32 h r h' ↔ (op.Doubles fl h → h.nrBuckets * 2 < 2 ^ 31) := by
  have hquiet : NoMalloc (op.code fl) → ¬ op.Doubles fl h → ((op.code fl).Returns exec32 h r h' ↔
      (op.Doubles fl h → h.nrBuckets * 2 < 2 ^ 31)) := fun hp hno =>
    iff_of_true (hp.returns32_iff.mpr hr) fun hd => absurd hd hno
  cases op with
  | tryInsert n x f =>
    exact returns32_bind_iff hr (fun _ => trivial) fun _ _ =>
      rTableCoreTryInsert_returns32_iff hf (hfree _ rfl)
  | tryInsertNoExpand n x f =>
    exact hquiet ((plain_rTableCoreTryInsertNoExpand _ x f).noMalloc.bind fun _ => trivial) id
  | insertNoExpand n => exact hquiet ((plain_rTableCoreInsertNoExpand _).noMalloc.bind fun _ => trivial) id
  | tryDetachNoShrink x f =>
    exact hquiet ((plain_rTableCoreTryDetachNoShrink x f).noMalloc.bind fun _ => trivial) id
  | tryDetachAutoShrink x f =>
    refine iff_of_true ?_ fun hd => hd.elim
    exact returns32_bind hr (fun _ => trivial) fun _ _ => rTableCoreTryDetachAutoShrink_returns32 hf hn
  | tryDetachAndSynchronize x f =>
    refine iff_of_true ?_ fun hd => hd.elim
    refine returns32_bind hr (fun _ => trivial) fun _ _ hs => returns32_bind hs (fun r => ?_) fun _ _ =>
      rTableCoreTryDetachAutoShrink_returns32 hf hn
    obtain ⟨p, b⟩ := r
    cases p with
    | none => trivial
    | some p =>
      cases b with
      | true => trivial
      | false => exact plain_rcuSynchronize.noMalloc.bind fun _ => trivial
  | expandBuckets2x =>
    exact (returns32_bind_iff hr (fun _ => trivial) fun _ _ => rTableCoreExpandBuckets2x_returns32_iff).trans
      ⟨fun hx _ => hx, fun hx => hx trivial⟩
  | shrinkBuckets2x =>
    refine iff_of_true ?_ fun hd => hd.elim
    exact returns32_bind hr (fun _ => trivial) fun _ _ => rTableCoreShrinkBuckets2x_returns32 hn
  | find x f => exact hquiet ((plain_rTableCoreFind x f).noMalloc.bind fun _ => trivial) id
  | synchronize => exact hquiet (plain_rcuSynchronize.noMalloc.bind fun _ => trivial) id

/-- Only a call that doubles the buckets leaves more of them. -/
theorem Op.Post.nrBuckets_cases {op : Op K φ} {r : Res} (hf : Flat h g)
    (hfree : ∀ p, op.own p → ¬ h.Linked p) (hp : op.Post fl h g r h' g') :
    (op.Doubles fl h ∧ h'.nrBuckets = 2 * h.nrBuckets) ∨
      (¬ op.Doubles fl h ∧ h'.nrBuckets ≤ h.nrBuckets) := by
  by_cases hx : op = .expandBuckets2x
  · subst hx
    refine Or.inl ⟨trivial, ?_⟩
    rw [hp.2.flat.nrBuckets, hp.2.n, hf.nrBuckets]
  by_cases hs : op = .shrinkBuckets2x
  · subst hs
    refine Or.inr ⟨id, ?_⟩
    rcases hp with ⟨-, -, rfl, rfl⟩ | ⟨-, -, hs⟩
    · exact le_rfl
    · rw [hs.flat.nrBuckets, hs.n, hf.nrBuckets]
      exact Nat.div_le_self _ _
  rcases hp.counted hf hfree with ⟨ha, -, hc⟩ | ⟨hr, -, hc⟩ | ⟨ha, -, m, hc, hm⟩
  · cases op with
    | tryInsert n x f =>
      have hb : h'.nrBuckets = if expands fl h (h.size + 1) h.nrBuckets then 2 * h.nrBuckets
        else h.nrBuckets := hc.buckets
      by_cases he : expands fl h (h.size + 1) h.nrBuckets = true
      · exact Or.inl ⟨⟨ha, he⟩, hb.trans (if_pos he)⟩
      · exact Or.inr ⟨fun hd => he hd.2, (hb.trans (if_neg he)).le⟩
    | tryInsertNoExpand | insertNoExpand => exact Or.inr ⟨id, hc.buckets.le⟩
    | _ => exact ha.elim
  · cases op with
    | tryDetachNoShrink => exact Or.inr ⟨id, hc.buckets.le⟩
    | tryDetachAutoShrink | tryDetachAndSynchronize =>
      have hb : h'.nrBuckets = if shrinks fl h h.size h.nrBuckets then h.nrBuckets / 2
        else h.nrBuckets := hc.buckets
      refine Or.inr ⟨id, ?_⟩
      rw [hb]
      split_ifs
      · exact Nat.div_le_self _ _
      · exact le_rfl
    | _ => exact hr.elim
  · obtain rfl : m = h.nrBuckets := hm.resolve_right (by simp [hx, hs])
    refine Or.inr ⟨fun hd => ?_, hc.buckets.le⟩
    cases op with
    | tryInsert => exact ha hd.1
    | expandBuckets2x => exact hx rfl
    | _ => exact hd.elim

end Calls

/-! ### Sessions on the machine -/

section Sessions

variable {fl : FloatOps φ} {conf : RTableCoreConfig φ}

/-- The machine goes through the whole session: the setup and every call return on it. -/
structure Session.Fits (S : Session (K := K) fl conf) : Prop where
  start : ∃ h, Blank h ∧ (rTableCoreInitDetailed conf).Returns exec32 h () (S.heap 0)
  call : ∀ i < S.len, ∀ op r, S.event i = .call op r → (op.code fl).Returns exec32 (S.heap i) r (S.heap (i + 1))

/-- No call of the session doubles `2 ^ 30` buckets. -/
def Session.Bounded (S : Session (K := K) fl conf) : Prop :=
  ∀ i < S.len, ∀ op r, S.event i = .call op r → op.Doubles fl (S.heap i) → (S.heap i).nrBuckets ≠ 2 ^ 30

theorem Flat.nrBuckets_le {g : View} (hf : Flat h g) (hn : h.nrBuckets < 2 ^ 31) : h.nrBuckets ≤ 2 ^ 30 := by
  obtain ⟨k, hk⟩ := hf.pow
  rw [hf.nrBuckets, hk] at hn ⊢
  exact Nat.pow_le_pow_right (by omega) (Nat.le_of_lt_succ ((Nat.pow_lt_pow_iff_right (by omega)).mp hn))

section Steps

variable (S : Session (K := K) fl conf) {i : ℕ}

theorem Session.call_returns (hi : i < S.len) {op : Op K φ} {r : Res} (he : S.event i = .call op r) :
    (∀ p, op.own p → ¬ (S.heap i).Linked p) ∧ (op.code fl).Returns exec (S.heap i) r (S.heap (i + 1)) := by
  have hs := S.next i hi
  rw [he] at hs
  generalize S.heap (i + 1) = h' at hs ⊢
  cases hs with
  | call hfree hret => exact ⟨hfree, hret⟩

theorem Session.call_returns32_iff (hi : i < S.len) (hn : (S.heap i).nrBuckets < 2 ^ 31) {op : Op K φ}
    {r : Res} (he : S.event i = .call op r) :
    (op.code fl).Returns exec32 (S.heap i) r (S.heap (i + 1)) ↔
      (op.Doubles fl (S.heap i) → (S.heap i).nrBuckets ≠ 2 ^ 30) := by
  obtain ⟨g, hf⟩ := S.flat i hi.le
  obtain ⟨hfree, hret⟩ := S.call_returns hi he
  have hle := hf.nrBuckets_le hn
  rw [Op.returns32_iff hf hn hfree hret]
  exact imp_congr_right fun _ => by omega

theorem Session.nrBuckets_step (hi : i < S.len) (hn : (S.heap i).nrBuckets < 2 ^ 31)
    (hb : ∀ op r, S.event i = .call op r → op.Doubles fl (S.heap i) → (S.heap i).nrBuckets ≠ 2 ^ 30) :
    (S.heap (i + 1)).nrBuckets < 2 ^ 31 := by
  obtain ⟨g, hf⟩ := S.flat i hi.le
  have hle := hf.nrBuckets_le hn
  rcases S.step_cases hi hf with ⟨op, r, g', he, hfree, hp⟩ | ⟨n, x, k, -, -, hh⟩
  · rcases hp.nrBuckets_cases hf hfree with ⟨hd, hn'⟩ | ⟨-, hn'⟩
    · have := hb op r he hd
      omega
    · omega
  · rw [hh]
    exact hn

end Steps

theorem Session.Bounded.nrBuckets_lt {S : Session (K := K) fl conf} (hb : S.Bounded)
    (h0 : conf.nrBucketsPowerOf2 < 2 ^ 31) : ∀ i ≤ S.len, (S.heap i).nrBuckets < 2 ^ 31 := by
  have hn0 : (S.heap 0).nrBuckets = conf.nrBucketsPowerOf2 := S.fresh.chains.nr
  exact S.invariant (hn0 ▸ h0) fun i hi _ _ hn => S.nrBuckets_step hi hn (hb i hi)

/-- **Sessions on the machine**: the machine goes through a session exactly when the configured count fits
and no call doubles `2 ^ 30` buckets. -/
theorem Session.fits_iff (S : Session (K := K) fl conf) :
    S.Fits ↔ conf.nrBucketsPowerOf2 < 2 ^ 31 ∧ S.Bounded := by
  constructor
  · intro hS
    obtain ⟨h, -, hret⟩ := hS.start
    have h0 := (rTableCoreInitDetailed_returns32_iff (exec32_restricts.returns hret)).mp hret
    have hn0 : (S.heap 0).nrBuckets = conf.nrBucketsPowerOf2 := S.fresh.chains.nr
    have hn := S.invariant (P := fun i => (S.heap i).nrBuckets < 2 ^ 31) (hn0 ▸ h0) fun i hi _ _ hn =>
      S.nrBuckets_step hi hn fun op r he => (S.call_returns32_iff hi hn he).mp (hS.call i hi op r he)
    exact ⟨h0, fun i hi op r he => (S.call_returns32_iff hi (hn i hi.le) he).mp (hS.call i hi op r he)⟩
  · rintro ⟨h0, hb⟩
    have hn := hb.nrBuckets_lt h0
    obtain ⟨h, hblank, hret⟩ := S.start
    exact ⟨⟨h, hblank, (rTableCoreInitDetailed_returns32_iff hret).mpr h0⟩, fun i hi op r he =>
      (S.call_returns32_iff hi (hn i hi.le) he).mpr (hb i hi op r he)⟩

/-- On the machine a table has at most `2 ^ 30` buckets. -/
theorem Session.Fits.nrBuckets_le {S : Session (K := K) fl conf} (hS : S.Fits) :
    ∀ i ≤ S.len, (S.heap i).nrBuckets ≤ 2 ^ 30 := by
  intro i hi
  obtain ⟨h0, hb⟩ := S.fits_iff.mp hS
  obtain ⟨g, hf⟩ := S.flat i hi
  exact hf.nrBuckets_le (hb.nrBuckets_lt h0 i hi)

end Sessions

end RcuTable
