import RcuTable.Lib.Loops
import RcuTable.Table.ResizeEffect

/-!
# Table.Rounds — how often an unzip goes round, and what its calls find

The zip of a bucket is measured on the heap: `StillZipped h n c m` says that `m` segments follow the one that
the cursor in `c` ends.  A pass over a bucket with a cursor is a call of `unzipOneSegment` (`SegmentCall`) and
takes one off that number, so a round takes one off the longest zip and the rounds can be counted
(`unzip_rounds`).  The calls of `rcuSynchronize` are counted in the record of the logged machine, where
everything else of an expand leaves nothing.
-/

namespace RcuTable

open Atomic Atomic.Prog Chain Segments

variable {K φ : Type}

/-! ### What the code of an expand records -/

/-- The record of the calls of `rcuSynchronize`. -/
def Act.syncs : {β : Type} → Act K φ β → List Unit
  | _, .rcuSynchronize => [()]
  | _, _ => []

section Records

variable {α : Type}

theorem records_load (p : Ptr) : Records Act.syncs (load p : Code K φ (Option Ptr)) [] := .lift rfl

theorem records_store (p : Ptr) (v : Option Ptr) : Records Act.syncs (store p v : Code K φ Unit) [] :=
  .lift rfl

theorem records_bucketId (p : Ptr) (mask : ℕ) :
    Records Act.syncs (computeHashBucketId p mask : Code K φ ℕ) [] :=
  Records.seq (.lift rfl) fun _ => rfl

theorem records_nrBuckets (b : ℕ) :
    Records Act.syncs (Prog.lift (.nrBuckets b) : Code K φ ℕ) [] := .lift rfl

theorem records_abort (es : List Unit) : Records Act.syncs (abort : Code K φ α) es :=
  ⟨es, rfl, fun v => v.elim⟩

theorem records_deref (v : Option Ptr) : Records Act.syncs (deref v : Code K φ Ptr) [] := by
  cases v with
  | none => exact records_abort []
  | some p => rfl

theorem records_assert (b : Bool) : Records Act.syncs (assert b : Code K φ Unit) [] := by
  cases b with
  | false => exact records_abort []
  | true => rfl

theorem records_unzipOneSegment (p : Ptr) (mask : ℕ) :
    Records Act.syncs (unzipOneSegment p mask : Code K φ Unit) [] := by
  refine (records_load p).seq fun _ => (records_deref _).seq fun x => (records_load x).seq fun _ =>
    (records_assert _).seq fun _ => (records_bucketId x mask).seq fun c => (records_load x).seq fun _ =>
    (records_deref _).seq fun y => (records_bucketId y mask).seq fun _ => (records_assert _).seq fun _ =>
    Records.seq (.loop (fun s => (records_load s).seq ?_) y) fun r =>
    (records_store p r.1).seq fun _ => records_store x r.2
  rintro (- | q)
  · rfl
  · refine (records_bucketId q mask).seq fun v => ?_
    split <;> rfl

theorem records_unzipBucket (old mask i : ℕ) (b : Bool) :
    Records Act.syncs (unzipBucket old mask i b : Code K φ Bool) [] := by
  refine (records_load _).seq fun v => ?_
  split
  · exact (records_unzipOneSegment _ mask).seq fun _ => rfl
  · rfl

theorem records_findFirstUnzipPoint (p : Ptr) (mask : ℕ) :
    Records Act.syncs (findFirstUnzipPoint p mask : Code K φ Bool) [] := by
  refine (records_load p).seq fun _ => (records_deref _).seq fun x => (records_bucketId x mask).seq fun c =>
    Records.seq (.loop (fun s => (records_load s).seq ?_) x) fun r => (records_store p r).seq fun _ => rfl
  rintro (- | q)
  · rfl
  · refine (records_bucketId q mask).seq fun v => ?_
    split <;> rfl

theorem records_findFirstUnzipStarts (old mask : ℕ) :
    Records Act.syncs (findFirstUnzipStarts old mask : Code K φ Bool) [] := by
  refine (records_nrBuckets old).seq fun nr => Records.seq (Records.forFrom ?_ nr 0 true) ?_
  · intro i s
    refine (records_load _).seq fun v => ?_
    split
    · refine (records_findFirstUnzipPoint _ mask).seq fun needUnzip => ?_
      split <;> rfl
    · rfl
  · intro allFinished
    split <;> rfl

theorem records_initTwinDstBuckets (pSrc pDst0 pDst1 : Ptr) (d0 d1 mask : ℕ) :
    Records Act.syncs (initTwinDstBuckets pSrc pDst0 pDst1 d0 d1 mask : Code K φ Unit) [] := by
  refine (records_load pSrc).seq fun v => Records.seq (.loop ?_ _) fun r =>
    (records_store pDst0 r.1).seq fun _ => records_store pDst1 r.2
  rintro ⟨- | q, s⟩
  · rfl
  · have hrest : ∀ a b : Option Ptr, Records Act.syncs (if a ≠ none ∧ b ≠ none then pure (.inr (a, b)) else do
        let p ← load q
        pure (.inl (p, a, b)) :
          Code K φ ((Option Ptr × Option Ptr × Option Ptr) ⊕ (Option Ptr × Option Ptr))) [] := by
      intro a b
      split
      · rfl
      · exact (records_load q).seq fun _ => rfl
    refine (records_bucketId q mask).seq fun d => (records_assert _).seq fun _ => ?_
    dsimp only
    split
    · exact hrest _ _
    · exact hrest _ _

theorem records_allocateAndInitBuckets (n : ℕ) :
    Records Act.syncs (allocateAndInitBuckets n : Code K φ ℕ) [] := by
  refine (records_assert _).seq fun _ => Records.seq (.lift rfl) fun b => ?_
  exact Records.seq (Records.forFrom (fun i _ => records_store _ _) n 0 ()) fun _ => rfl

/-- One grace period, for the publication. -/
theorem records_expandPublish : Records Act.syncs (expandPublish : Code K φ (ℕ × ℕ)) [()] := by
  refine Records.seq (.lift rfl) fun old => (records_nrBuckets old).seq fun n =>
    (records_allocateAndInitBuckets _).seq fun b => Records.seq (Records.forFrom ?_ n 0 ()) fun _ => ?_
  · exact fun i _ => records_initTwinDstBuckets _ _ _ _ _ _
  · refine Records.seq (.lift rfl) fun _ => ?_
    have hsync : Records Act.syncs (rcuSynchronize : Code K φ Unit) [()] := .lift rfl
    exact hsync.bind fun _ => rfl

end Records

/-! ### What is still zipped -/

/-- The bucket of a node in the table of twice as many buckets. -/
def expandedBucket (h : Heap K φ) (n : ℕ) (p : Ptr) : ℕ := h.hash p &&& (n * 2 - 1)

/-- `m` segments are still zipped behind the cursor in `c`: from it the chain goes on with `m + 1`, or there is
no cursor and `m` is zero. -/
def StillZipped (h : Heap K φ) (n : ℕ) (c : Ptr) (m : ℕ) : Prop :=
  ∃ l, Path h.next (h.next c) l ∧ segments (expandedBucket h n) l - 1 = m

theorem StillZipped.det {h : Heap K φ} {n : ℕ} {c : Ptr} {m m' : ℕ} (hm : StillZipped h n c m)
    (hm' : StillZipped h n c m') : m = m' := by
  obtain ⟨l, hl, rfl⟩ := hm
  obtain ⟨l', hl', rfl⟩ := hm'
  rw [hl.det hl']

/-- The most segments behind the first one, over all buckets. -/
def longestZip (h : Heap K φ) (n : ℕ) (chain : ℕ → List Ptr) : ℕ :=
  (Finset.range n).sup fun i => segments (expandedBucket h n) (chain i) - 1

section Calls

variable (n old : ℕ)

/-- A call of `unzipOneSegment` for the old bucket `i`: its assertions hold and it takes one segment off. -/
structure SegmentCall (i : ℕ) (h h' : Heap K φ) : Prop where
  cursor : ∃ x y, h.next (.head old i) = some x ∧ h.next x = some y ∧
    (expandedBucket h n x = i ∧ expandedBucket h n y = i + n ∨
      expandedBucket h n x = i + n ∧ expandedBucket h n y = i)
  returns : (unzipOneSegment (.head old i) (n * 2 - 1)).Returns exec h () h'
  shorter : ∃ m, StillZipped h n (.head old i) (m + 1) ∧ StillZipped h' n (.head old i) m

/-- A pass of the loop over the buckets: nothing without a cursor, a call with one. -/
def BucketPass (i : ℕ) (b : Bool) (h : Heap K φ) (b' : Bool) (h' : Heap K φ) : Prop :=
  h.next (.head old i) = none ∧ b' = b ∧ h' = h ∨ b' = false ∧ SegmentCall n old i h h'

/-- A round with a call in it, and one grace period at its end. -/
def WorkingRound (_ : Unit) (s : Heap K φ × List Unit) (_ : Unit) (s' : Heap K φ × List Unit) : Prop :=
  Passes exec (unzipBucket old (n * 2 - 1)) (BucketPass n old) n 0 true s.1 false s'.1 ∧
    s'.2 = s.2 ++ [()]

/-- The round that finds no cursor. -/
def LastRound (_ : Unit) (s : Heap K φ × List Unit) (_ : Unit) (s' : Heap K φ × List Unit) : Prop :=
  s' = s ∧ ∀ i < n, s.1.next (.head old i) = none

variable {n old}

theorem rounds_length {m : ℕ} {u u' : Unit} {s s' : Heap K φ × List Unit}
    (hr : Rounds (logged exec Act.syncs) (fun _ => unzipRound old (n * 2 - 1)) (WorkingRound n old)
      (LastRound n old) m u s u' s') : s'.2.length = s.2.length + m := by
  induction hr with
  | last _ hl => rw [hl.1]; rfl
  | round _ hw _ ih =>
    rw [ih, hw.2, List.length_append, List.length_singleton]
    omega

/-- The run of a round, from that of its passes. -/
theorem unzipRound_returns {h h' : Heap K φ} {mask : ℕ} {C : ℕ → Bool → Heap K φ → Bool → Heap K φ → Prop}
    {b : Bool} (hlive : h.live old = true) (hnr : h.nrBucketsPowerOf2 old = n)
    (hp : Passes exec (unzipBucket old mask) C n 0 true h b h') (es : List Unit) :
    (unzipRound old mask).Returns (logged exec Act.syncs) (h, es) (if b = true then .inr () else .inl ())
      (h', if b = true then es else es ++ [()]) := by
  have hnr' : Returns exec (Prog.lift (.nrBuckets old)) h n h := ⟨2, by simp [Prog.lift, run, exec, hlive, hnr]⟩
  have hpass : Records Act.syncs (forFrom (unzipBucket old mask) n 0 true : Code K φ Bool) [] :=
    .forFrom (fun i s => records_unzipBucket old mask i s) n 0 true
  refine (returns_bind _).mpr ⟨n, (h, es), (records_nrBuckets old).returns_nil es hnr', ?_⟩
  refine (returns_bind _).mpr ⟨b, (h', es), hpass.returns_nil es hp.returns, ?_⟩
  cases b with
  | true => exact (returns_ret _).mpr ⟨rfl, rfl⟩
  | false =>
    have hsync : Records Act.syncs (rcuSynchronize : Code K φ Unit) [()] := .lift rfl
    refine (returns_bind _).mpr ⟨(), (h', es ++ [()]), hsync.returns es ⟨2, rfl⟩, ?_⟩
    exact (returns_ret _).mpr ⟨rfl, rfl⟩

theorem unzipBucket_call {h h' : Heap K φ} {mask i : ℕ} {b b' : Bool} {x : Ptr}
    (hcur : h.next (.head old i) = some x) (hr : (unzipBucket old mask i b).Returns exec h b' h') :
    (unzipOneSegment (.head old i) mask).Returns exec h () h' := by
  obtain ⟨v, h1, hv, hrest⟩ := (returns_bind exec).mp hr
  obtain ⟨v', h2, he, hv'⟩ := hv.of_act
  obtain ⟨rfl, rfl⟩ := (returns_ret exec).mp hv'
  have h3 : v = some x ∧ h1 = h := by
    simp only [exec] at he
    split at he
    · obtain ⟨rfl, rfl⟩ := Prod.mk.inj (Option.some.inj he)
      exact ⟨hcur, rfl⟩
    · cases he
  obtain ⟨rfl, rfl⟩ := h3
  obtain ⟨⟨⟩, h4, hcall, hret⟩ := (returns_bind exec).mp hrest
  obtain ⟨-, rfl⟩ := (returns_ret exec).mp hret
  exact hcall

end Calls

/-! ### One pass and one round -/

section Rounds

variable {h0 h hs : Heap K φ} {g0 g gs : View} {N : ℕ → ℕ} {k i m : ℕ} {b : Bool}

theorem Unzipping.expandedBucket_eq (hu : Unzipping h0 g0 h g) :
    expandedBucket h g0.n = expandedId h0 g0 := by
  funext p
  rw [expandedBucket, hu.frame.hash]
  rfl

theorem Behind.stillZipped (hu : Unzipping h0 g0 h g) (hi : i < g0.n) (hb : Behind h0 g0 h g i m) :
    StillZipped h g0.n (.head g0.info i) m := by
  obtain ⟨s, hs, hseg⟩ := hb.path hu hi
  exact ⟨s, hs, by rw [hu.expandedBucket_eq, hseg]⟩

/-- What the call of a pass opens. -/
theorem Opened.segmentCall {h' : Heap K φ} {g' : View} {b b' : Bool} (ho : Opened h0 g0 i h g h' g')
    (hu : Unzipping h0 g0 h g) (hu' : Unzipping h0 g0 h' g') (hi : i < g0.n)
    (hr : (unzipBucket g0.info (g0.n * 2 - 1) i b).Returns exec h b' h') :
    SegmentCall g0.n g0.info i h h' := by
  obtain ⟨x, y, hcur, hxy⟩ := ho.cursor
  obtain ⟨m, hm, hm'⟩ := ho.behind
  rw [← hu.expandedBucket_eq] at hxy
  exact ⟨⟨x, y, hcur, hxy⟩, unzipBucket_call hcur hr, m, hm.stillZipped hu hi, hm'.stillZipped hu' hi⟩

/-- The run of a pass. -/
theorem Passing.exists_pass (hf : Flat h0 g0) (hp : Passing h0 g0 N hs gs k b h g) (hk : k < g0.n) :
    ∃ b' h' g', (unzipBucket g0.info (g0.n * 2 - 1) k b).Returns exec h b' h' ∧
      BucketPass g0.n g0.info k b h b' h' ∧ Passing h0 g0 N hs gs (k + 1) b' h' g' := by
  have hsim : Guarded Perm.none _ _ h g := hp.pass hf hk
  obtain ⟨⟨b', h', hr⟩, hq⟩ := hsim.total
  obtain ⟨g', hp', hcase⟩ := hq b' h' hr
  refine ⟨b', h', g', hr, hcase.imp id ?_, hp'⟩
  rintro ⟨hb, hopen⟩
  exact ⟨hb, hopen.segmentCall hp.unzipping hp'.unzipping hk hr⟩

/-- The passes of a round. -/
theorem Passing.exists_passes (hf : Flat h0 g0) (hp : Passing h0 g0 N h g 0 true h g) :
    ∃ b h' g', Passes exec (unzipBucket g0.info (g0.n * 2 - 1)) (BucketPass g0.n g0.info) g0.n 0 true h b h' ∧
      Passing h0 g0 N h g g0.n b h' g' := by
  have hstep : ∀ k < g0.n, ∀ b h1, (∃ g1, Passing h0 g0 N h g k b h1 g1) → ∃ b' h2,
      (unzipBucket g0.info (g0.n * 2 - 1) k b).Returns exec h1 b' h2 ∧
      BucketPass g0.n g0.info k b h1 b' h2 ∧ ∃ g2, Passing h0 g0 N h g (k + 1) b' h2 g2 := by
    rintro k hk b h1 ⟨g1, hp1⟩
    obtain ⟨b', h2, g2, hr, hpass, hp2⟩ := hp1.exists_pass hf hk
    exact ⟨b', h2, hr, hpass, g2, hp2⟩
  obtain ⟨b, h', hpasses, g', hp'⟩ := Passes.of_invariant (fun k b h' => ∃ g', Passing h0 g0 N h g k b h' g')
    hstep g0.n 0 true h (Nat.zero_add _) ⟨g, hp⟩
  exact ⟨b, h', g', hpasses, hp'⟩

theorem Passing.working (hf : Flat h0 g0) (hp : Passing h0 g0 N h g 0 true h g)
    (hm : (Finset.range g0.n).sup N = m + 1) (es : List Unit) :
    ∃ h' g', (unzipRound g0.info (g0.n * 2 - 1)).Returns (logged exec Act.syncs) (h, es) (.inl ())
        (h', es ++ [()]) ∧
      WorkingRound g0.n g0.info () (h, es) () (h', es ++ [()]) ∧
      Passing h0 g0 (fun i => N i - 1) h' g' 0 true h' g' := by
  obtain ⟨b, h', g', hpasses, hp'⟩ := hp.exists_passes hf
  have hb : b = false := by
    rw [← Bool.not_eq_true, hp'.finished_iff]
    omega
  subst hb
  exact ⟨h', g'.synced, unzipRound_returns hp.unzipping.live hp.unzipping.nr hpasses es, ⟨hpasses, rfl⟩,
    hp'.synced⟩

theorem Passing.last (hf : Flat h0 g0) (hp : Passing h0 g0 N h g 0 true h g)
    (hm : (Finset.range g0.n).sup N = 0) (es : List Unit) :
    (unzipRound g0.info (g0.n * 2 - 1)).Returns (logged exec Act.syncs) (h, es) (.inr ()) (h, es) ∧
      LastRound g0.n g0.info () (h, es) () (h, es) := by
  obtain ⟨b, h', g', hpasses, hp'⟩ := hp.exists_passes hf
  obtain rfl : b = true := hp'.finished_iff.mpr hm
  obtain ⟨rfl, -⟩ := hp'.still rfl
  refine ⟨unzipRound_returns hp.unzipping.live hp.unzipping.nr hpasses es, rfl, ?_⟩
  intro i hi
  obtain ⟨hz, hb, -⟩ := hp.ahead i hi (Nat.zero_le i)
  exact (cursor_eq_none hz hb).mpr (hp'.finished.mp rfl i hi)

/-- `unzip` makes as many working rounds as the longest zip has segments left. -/
theorem Passing.rounds (hf : Flat h0 g0) (hp : Passing h0 g0 N h g 0 true h g) (es : List Unit) :
    ∃ s', Rounds (logged exec Act.syncs) (fun _ => unzipRound g0.info (g0.n * 2 - 1))
      (WorkingRound g0.n g0.info) (LastRound g0.n g0.info) ((Finset.range g0.n).sup N) () (h, es) () s' := by
  have hlast : ∀ (u : Unit) (s : Heap K φ × List Unit),
      (∃ N g, Passing h0 g0 N s.1 g 0 true s.1 g ∧ (Finset.range g0.n).sup N = 0) →
      ∃ v s', (unzipRound g0.info (g0.n * 2 - 1)).Returns (logged exec Act.syncs) s (.inr v) s' ∧
        LastRound g0.n g0.info u s v s' := by
    rintro ⟨⟩ ⟨h1, es1⟩ ⟨N1, g1, hp1, hm⟩
    obtain ⟨hr, hl⟩ := hp1.last hf hm es1
    exact ⟨(), (h1, es1), hr, hl⟩
  have hround : ∀ (m : ℕ) (u : Unit) (s : Heap K φ × List Unit),
      (∃ N g, Passing h0 g0 N s.1 g 0 true s.1 g ∧ (Finset.range g0.n).sup N = m + 1) →
      ∃ u' s', (unzipRound g0.info (g0.n * 2 - 1)).Returns (logged exec Act.syncs) s (.inl u') s' ∧
        WorkingRound g0.n g0.info u s u' s' ∧
        ∃ N g, Passing h0 g0 N s'.1 g 0 true s'.1 g ∧ (Finset.range g0.n).sup N = m := by
    rintro m ⟨⟩ ⟨h1, es1⟩ ⟨N1, g1, hp1, hm⟩
    obtain ⟨h2, g2, hr, hw, hp2⟩ := hp1.working hf hm es1
    refine ⟨(), (h2, es1 ++ [()]), hr, hw, _, g2, hp2, ?_⟩
    rw [sup_pred, hm, Nat.add_sub_cancel]
  obtain ⟨⟨⟩, s', hr⟩ := Rounds.of_invariant
    (fun m _ s => ∃ N g, Passing h0 g0 N s.1 g 0 true s.1 g ∧ (Finset.range g0.n).sup N = m)
    hlast hround _ () (h, es) ⟨N, g, hp, rfl⟩
  exact ⟨s', hr⟩

/-- `findFirstUnzipStarts` says whether there is nothing to unzip. -/
theorem Starts.finished_iff {a : ℕ} (hs : Starts h0 g0 a g0.n b h) :
    b = true ↔ (Finset.range g0.n).sup (zippedSegments h0 g0) = 0 := by
  rw [hs.finished, Finset.sup_eq_zero]
  simp only [Finset.mem_range]
  exact forall₂_congr fun i hi => cursor_eq_none (hs.zip i hi) (hs.behind i hi)

end Rounds

/-- **An unzip in rounds**: the nodes of an old bucket belong to one of its twins.  After the publication
`findFirstUnzipStarts` puts a cursor in front of what is zipped and says whether there is nothing.  If there
is, `unzip` makes as many working rounds as the longest zip has segments; in each of them every bucket with a
cursor gets one call of `unzipOneSegment`, which finds its assertions met and takes one segment off, and a
grace period follows.  A failed assertion would have no result. -/
theorem unzip_rounds {h : Heap K φ} {n : ℕ} {chain : ℕ → List Ptr} (ht : Chains h n chain) :
    (∀ i < n, ∀ p ∈ chain i, expandedBucket h n p = i ∨ expandedBucket h n p = i + n) ∧
    ∃ h1 h2 s3 noNeedToUnzip,
      expandPublish.Returns (logged exec Act.syncs) (h, []) (h.pBucketsInfo, n * 2 - 1) (h1, [()]) ∧
      (findFirstUnzipStarts h.pBucketsInfo (n * 2 - 1)).Returns (logged exec Act.syncs) (h1, [()])
        noNeedToUnzip (h2, [()]) ∧
      (noNeedToUnzip = true ↔ longestZip h n chain = 0) ∧
      (∀ i < n, StillZipped h2 n (.head h.pBucketsInfo i)
        (segments (expandedBucket h n) (chain i) - 1)) ∧
      (noNeedToUnzip = true → s3 = (h2, [()])) ∧
      (noNeedToUnzip = false → Rounds (logged exec Act.syncs)
        (fun _ => unzipRound h.pBucketsInfo (n * 2 - 1))
        (WorkingRound n h.pBucketsInfo) (LastRound n h.pBucketsInfo)
        (longestZip h n chain) () (h2, [()]) () s3) ∧
      expandBucketsByFac2ReturnOld.Returns (logged exec Act.syncs) (h, []) h.pBucketsInfo s3 ∧
      s3.2.length = longestZip h n chain + 1 := by
  have hf := ht.flat
  refine ⟨fun i hi p hp => hf.expandedId_cases hi hp, ?_⟩
  have hsim1 : Guarded Perm.none _ _ h _ := expandPublish_guarded hf
  obtain ⟨⟨r, h1, hr1⟩, hq1⟩ := hsim1.total
  obtain ⟨g1, rfl, rfl, hz⟩ := hq1 r h1 hr1
  have hsim2 : Guarded Perm.none _ _ h1 _ := findFirstUnzipStarts_guarded hf hz
  obtain ⟨⟨done, h2, hr2⟩, hq2⟩ := hsim2.total
  obtain ⟨g2, rfl, hs⟩ := hq2 done h2 hr2
  have hr1' := records_expandPublish.returns [] hr1
  have hr2' := (records_findFirstUnzipStarts _ _).returns_nil [()] hr2
  have hall : ∀ s3, (expandUnzip h.pBucketsInfo (n * 2 - 1)).Returns (logged exec Act.syncs) (h1, [()])
      h.pBucketsInfo s3 →
      expandBucketsByFac2ReturnOld.Returns (logged exec Act.syncs) (h, []) h.pBucketsInfo s3 := by
    intro s3 hr
    rw [expandBucketsByFac2ReturnOld_eq]
    exact (returns_bind _).mpr ⟨_, _, hr1', hr⟩
  have hbehind : ∀ i < n, StillZipped h2 n (.head h.pBucketsInfo i)
      (segments (expandedBucket h n) (chain i) - 1) := fun i hi =>
    (hs.behind i hi).stillZipped hs.unzipping hi
  have hdone : done = true ↔ longestZip h n chain = 0 := hs.finished_iff
  cases done with
  | true =>
    refine ⟨h1, h2, (h2, [()]), true, hr1', hr2', hdone, hbehind, fun _ => rfl, fun hd => (by cases hd), ?_, ?_⟩
    · exact hall _ ((returns_bind _).mpr ⟨_, _, hr2', (returns_ret _).mpr ⟨rfl, rfl⟩⟩)
    · rw [hdone.mp rfl]
      rfl
  | false =>
    obtain ⟨s3, hrounds⟩ := hs.passing.rounds hf [()]
    have hrounds' : Rounds (logged exec Act.syncs) (fun _ => unzipRound h.pBucketsInfo (n * 2 - 1))
        (WorkingRound n h.pBucketsInfo) (LastRound n h.pBucketsInfo)
        (longestZip h n chain) () (h2, [()]) () s3 := hrounds
    refine ⟨h1, h2, s3, false, hr1', hr2', hdone, hbehind, fun hd => (by cases hd), fun _ => hrounds', ?_, ?_⟩
    · refine hall _ ((returns_bind _).mpr ⟨_, _, hr2', ?_⟩)
      exact (returns_bind _).mpr ⟨_, _, hrounds'.returns, (returns_ret _).mpr ⟨rfl, rfl⟩⟩
    · rw [rounds_length hrounds']
      exact Nat.add_comm _ _

theorem twoBuckets_unzip : longestZip twoBuckets 2 (fun j => if j = 0 then [.node 0, .node 1] else [.node 2]) = 1 ∧
    ∃ s3, expandBucketsByFac2ReturnOld.Returns (logged exec Act.syncs) (twoBuckets, []) 1 s3 ∧
      s3.2.length = 2 := by
  obtain ⟨-, _, _, s3, _, -, -, -, -, -, -, hr, hlen⟩ := unzip_rounds twoBuckets_chains
  exact ⟨by decide, s3, hr, hlen⟩

end RcuTable
