import RcuTable.Table.Unzip

/-!
# Table.Cursors — the first cursors of an unzip, and the whole expand

After the publication the heads of the old array still head the old chains.  `findFirstUnzipStarts` turns each
into a cursor: the last node of the first segment, or null when there is no other segment (`Starts`).  From
there the rounds of `unzip` go on until every twin is pure, which is the table that an expand should leave
(`Expanded`).
-/

namespace RcuTable

open Atomic Chain Segments

variable {K φ : Type} {pm : Perm K φ} {h : Heap K φ} {g : View}

/-! ### Finding the first cursors -/

/-- The segments of the old bucket `i` behind the first one. -/
def zippedSegments (h0 : Heap K φ) (g0 : View) (i : ℕ) : ℕ :=
  segments (expandedId h0 g0) (g0.chain i) - 1

/-- The twins of a bucket right after the publication, with the cursor that `findFirstUnzipPoint` finds. -/
theorem Flat.exists_first {h0 : Heap K φ} {g0 : View} (hf : Flat h0 g0) (b : ℕ) {i : ℕ} (hi : i < g0.n)
    (hne : g0.chain i ≠ []) :
    ∃ r t c, g0.chain i = r ++ t ∧ r ≠ [] ∧ (∀ p ∈ r, expandedId h0 g0 p = c) ∧
      (∀ q, t.head? = some q → expandedId h0 g0 q ≠ c) ∧
      Zip (expandedId h0 g0) i (i + g0.n) (zippedSegments h0 g0 i)
        ((View.expand h0 g0 b).chain i) ((View.expand h0 g0 b).chain (i + g0.n)) (cut r t) ∧
      (r ++ t = (View.expand h0 g0 b).chain i ∨ r ++ t = (View.expand h0 g0 b).chain (i + g0.n)) := by
  have hpos := hf.pos
  obtain ⟨y, hy⟩ : ∃ y, (g0.chain i).head? = some y := by
    cases hl : g0.chain i with
    | nil => exact absurd hl hne
    | cons y l => exact ⟨y, rfl⟩
  obtain ⟨r, t, hrt, hr0, hr, ht⟩ := exists_run (expandedId h0 g0) hy
  have hcls : ∀ p ∈ r ++ t, expandedId h0 g0 p = i ∨ expandedId h0 g0 p = i + g0.n := fun p hp =>
    hf.expandedId_cases hi (hrt ▸ hp)
  have hhead : ∀ q, t.head? = some q → q ∈ r ++ t := fun q hq =>
    List.mem_append_right _ (List.mem_of_mem_head? hq)
  have hymem : y ∈ r ++ t := hrt ▸ List.mem_of_mem_head? hy
  have hseg : zippedSegments h0 g0 i = segments (expandedId h0 g0) t := by
    rw [zippedSegments, hrt, segments_run hr0 hr ht, Nat.add_sub_cancel]
  have htwin0 : (View.expand h0 g0 b).chain i =
      (r ++ t).dropWhile fun p => expandedId h0 g0 p ≠ i := by
    show (g0.chain (i % g0.n)).dropWhile _ = _
    rw [Nat.mod_eq_of_lt hi, hrt]
  have htwin1 : (View.expand h0 g0 b).chain (i + g0.n) =
      (r ++ t).dropWhile fun p => expandedId h0 g0 p ≠ i + g0.n := by
    show (g0.chain ((i + g0.n) % g0.n)).dropWhile _ = _
    rw [Nat.add_mod_right, Nat.mod_eq_of_lt hi, hrt]
  refine ⟨r, t, _, hrt, hr0, hr, ht, ?_⟩
  rw [hseg, htwin0, htwin1]
  rcases hcls y hymem with hyc | hyc
  · rw [hyc] at hr ht
    refine ⟨zip_dropWhile (by omega) hr0 hr fun q hq => ?_, Or.inl (dropWhile_run hr0 hr).symm⟩
    exact (hcls q (hhead q hq)).resolve_left (ht q hq)
  · rw [hyc] at hr ht
    refine ⟨(zip_dropWhile (by omega) hr0 hr fun q hq => ?_).symm, Or.inr (dropWhile_run hr0 hr).symm⟩
    exact (hcls q (hhead q hq)).resolve_right (ht q hq)

theorem Unzipping.setOld {h0 : Heap K φ} {g0 : View} (hu : Unzipping h0 g0 h g) {p : Ptr}
    {v : Option Ptr} (hr : Rep (h.setNext p v) g) : Unzipping h0 g0 (h.setNext p v) g :=
  ⟨hr, ⟨hu.frame.hash, hu.frame.key, hu.frame.size, hu.frame.expandFactor, hu.frame.shrinkFactor⟩,
    hu.n, hu.arrs, hu.live, hu.nr, hu.old, hu.sub, hu.part⟩

/-- The table right after the publication of an expand and its grace period: the old array still heads the
old chains. -/
structure Zipped0 (h0 : Heap K φ) (g0 : View) (b : ℕ) (h : Heap K φ) : Prop where
  unzipping : Unzipping h0 g0 h (View.expand h0 g0 b).synced
  path : ∀ a < g0.n, Path h.next (g0.chain a).head? (g0.chain a)
  heads : ∀ a < g0.n, h.next (.head g0.info a) = (g0.chain a).head?

/-- The same, when the cursors of the buckets below `k` have been found; `s` is the flag `allFinished`. -/
structure Starts (h0 : Heap K φ) (g0 : View) (b k : ℕ) (s : Bool) (h : Heap K φ) : Prop where
  unzipping : Unzipping h0 g0 h (View.expand h0 g0 b).synced
  path : ∀ a < g0.n, Path h.next (g0.chain a).head? (g0.chain a)
  heads : ∀ a < g0.n, k ≤ a → h.next (.head g0.info a) = (g0.chain a).head?
  zip : ∀ a < k, ZipAt h0 g0 h (View.expand h0 g0 b).synced a (zippedSegments h0 g0 a)
  behind : ∀ a < k, Behind h0 g0 h (View.expand h0 g0 b).synced a (zippedSegments h0 g0 a)
  finished : s = true ↔ ∀ a < k, h.next (.head g0.info a) = none

namespace Starts

variable {h0 : Heap K φ} {g0 : View} {b k : ℕ} {s s' : Bool}

theorem of_zipped0 (hz : Zipped0 h0 g0 b h) : Starts h0 g0 b 0 true h :=
  ⟨hz.unzipping, hz.path, fun a ha _ => hz.heads a ha, by simp, by simp, by simp⟩

/-- The next bucket, in a heap that differs at its cursor only. -/
theorem next {h' : Heap K φ} (hs : Starts h0 g0 b k s h)
    (hu : Unzipping h0 g0 h' (View.expand h0 g0 b).synced)
    (hpath : ∀ a < g0.n, Path h'.next (g0.chain a).head? (g0.chain a))
    (hoff : ∀ a, a ≠ k → h'.next (.head g0.info a) = h.next (.head g0.info a))
    (hzip : ZipAt h0 g0 h' (View.expand h0 g0 b).synced k (zippedSegments h0 g0 k))
    (hbehind : Behind h0 g0 h' (View.expand h0 g0 b).synced k (zippedSegments h0 g0 k))
    (hs' : s' = true ↔ s = true ∧ h'.next (.head g0.info k) = none) :
    Starts h0 g0 b (k + 1) s' h' where
  unzipping := hu
  path := hpath
  heads a ha hka := by
    rw [hoff a (by omega)]
    exact hs.heads a ha (by omega)
  zip a ha := by
    rcases Nat.lt_succ_iff_lt_or_eq.mp ha with ha | rfl
    · unfold ZipAt
      rw [hoff a (by omega)]
      exact hs.zip a ha
    · exact hzip
  behind a ha := by
    rcases Nat.lt_succ_iff_lt_or_eq.mp ha with ha | rfl
    · unfold Behind
      rw [hoff a (by omega)]
      exact hs.behind a ha
    · exact hbehind
  finished := by
    rw [hs', hs.finished]
    constructor
    · rintro ⟨h1, h2⟩ a ha
      rcases Nat.lt_succ_iff_lt_or_eq.mp ha with ha | rfl
      · exact (hoff a (by omega)).trans (h1 a ha)
      · exact h2
    · intro h1
      refine ⟨fun a ha => ?_, h1 k (Nat.lt_succ_self k)⟩
      rw [← hoff a (by omega)]
      exact h1 a (by omega)

/-- An empty bucket has empty twins. -/
theorem empty (hs : Starts h0 g0 b k s h) (hk : k < g0.n) (hnil : g0.chain k = []) :
    Starts h0 g0 b (k + 1) s h := by
  have hcur : h.next (.head g0.info k) = none := by rw [hs.heads k hk le_rfl, hnil]; rfl
  have hseg : zippedSegments h0 g0 k = 0 := by rw [zippedSegments, hnil]; rfl
  have htwin : ∀ j, j % g0.n = k → (View.expand h0 g0 b).synced.chain j = [] := by
    intro j hj
    show (g0.chain (j % g0.n)).dropWhile _ = []
    rw [hj, hnil]
    rfl
  have hmod0 := Nat.mod_eq_of_lt hk
  have hmod1 : (k + g0.n) % g0.n = k := by rw [Nat.add_mod_right, hmod0]
  refine hs.next hs.unzipping hs.path (fun _ _ => rfl) ?_ ?_ (by simp [hcur])
  · unfold ZipAt
    rw [hcur, htwin k hmod0, htwin _ hmod1]
    exact .pure (by simp) (by simp)
  · rw [hseg]
    exact ⟨[], Or.inl List.nil_suffix, hcur.symm, rfl⟩

/-- The pass over bucket `k`. -/
theorem pass (hf : Flat h0 g0) (hs : Starts h0 g0 b k s h) (hk : k < g0.n) (hne : g0.chain k ≠ []) :
    Guarded pm (fun needUnzip h' g' => g' = (View.expand h0 g0 b).synced ∧
        Starts h0 g0 b (k + 1) (if needUnzip = true then false else s) h')
      (findFirstUnzipPoint (.head g0.info k) (g0.n * 2 - 1)) h (View.expand h0 g0 b).synced := by
  have hu := hs.unzipping
  obtain ⟨r, t, c, hrt, hr0, hr, ht, hzip, htwin⟩ := hf.exists_first b hk hne
  have hcls : ∀ q, h.hash q &&& (g0.n * 2 - 1) = expandedId h0 g0 q := fun q => by
    rw [hu.frame.hash]
    rfl
  have hpath : Path h.next (h.next (.head g0.info k)) (r ++ t) := by
    rw [hs.heads k hk le_rfl, ← hrt]
    exact hs.path k hk
  have hacc : ∀ q ∈ r, h.accessible q = true := fun q hq => by
    obtain ⟨m, rfl⟩ := hf.node k hk q (by rw [hrt]; exact List.mem_append_left _ hq)
    rfl
  refine (findFirstUnzipPoint_guarded hu.rep hpath hr0 hacc (fun q hq => by rw [hcls, hr q hq])
    (fun q hq => by rw [hcls]; exact ht q hq) hu.old_not_arrs (hu.accessible_old hk)).mono ?_
  rintro d h' g' ⟨rfl, hr', rfl, rfl⟩
  have hcur : (h.setNext (.head g0.info k) (cut r t)).next (.head g0.info k) = cut r t :=
    Function.update_self _ _ _
  refine ⟨rfl, hs.next (hu.setOld hr') ?_ ?_ ?_ ?_ ?_⟩
  · intro a ha
    exact (hs.path a ha).update_of_notMem (hf.head_notMem ha)
  · intro a ha
    exact Function.update_of_ne (by simpa using ha) _ _
  · unfold ZipAt
    rw [hcur]
    exact hzip
  · obtain ⟨l, hl, hhead, hseg⟩ := segments_cut hr0 hr ht
    refine ⟨l, ?_, hhead.trans hcur.symm, ?_⟩
    · rcases htwin with htwin | htwin
      · exact Or.inl (htwin ▸ hl)
      · exact Or.inr (htwin ▸ hl)
    · rw [hseg, zippedSegments, hrt, segments_run hr0 hr ht, Nat.add_sub_cancel]
  · rw [hcur]
    cases cut r t <;> simp

/-- The first round can start. -/
theorem passing (hs : Starts h0 g0 b g0.n s h) :
    Passing h0 g0 (zippedSegments h0 g0) h (View.expand h0 g0 b).synced 0 true h
      (View.expand h0 g0 b).synced :=
  .start hs.unzipping hs.zip hs.behind fun _ => trivial

end Starts

theorem findFirstUnzipStarts_guarded {h0 : Heap K φ} {g0 : View} (hf : Flat h0 g0) {b : ℕ}
    (hz : Zipped0 h0 g0 b h) :
    Guarded pm (fun done h' g' => g' = (View.expand h0 g0 b).synced ∧ Starts h0 g0 b g0.n done h')
      (findFirstUnzipStarts g0.info (g0.n * 2 - 1)) h (View.expand h0 g0 b).synced := by
  have hu := hz.unzipping
  unfold findFirstUnzipStarts
  simp only [load, Prog.lift, Prog.bind_def, Prog.pure_def, Prog.act_bind, Prog.ret_bind]
  refine guarded_nrBuckets hu.rep hu.live ?_
  rw [hu.nr]
  refine Sim.bind (Sim.forRange (fun k s h' g' => g' = (View.expand h0 g0 b).synced ∧
    Starts h0 g0 b k s h') ⟨rfl, .of_zipped0 hz⟩ ?_ ?_)
  · rintro k hk s h' g' ⟨rfl, hs⟩
    have hu' := hs.unzipping
    refine guarded_load hu'.rep (hu'.accessible_old hk) ?_
    rw [hs.heads k hk le_rfl]
    by_cases hnil : g0.chain k = []
    · rw [if_neg (by simp [hnil])]
      exact .ret ⟨rfl, hs.empty hk hnil⟩
    · rw [if_pos (by simpa using hnil)]
      refine Sim.bind ((hs.pass hf hk hnil).mono ?_)
      rintro d h'' g'' ⟨rfl, hs'⟩
      cases d with
      | true => exact .ret ⟨rfl, hs'⟩
      | false => exact .ret ⟨rfl, hs'⟩
  · rintro s h' g' ⟨rfl, hs⟩
    cases s with
    | true =>
      -- the pointer of the old array is not null
      have hold : g0.info ≠ 0 := by
        intro h1
        have hlive := hs.unzipping.live
        rw [h1, hs.unzipping.rep.null] at hlive
        cases hlive
      rw [if_pos rfl, decide_eq_true hold]
      exact .ret ⟨rfl, hs⟩
    | false => exact .ret ⟨rfl, hs⟩

/-! ### The whole expand -/

/-- **Effect of an expand**: bucket `j` holds what belongs to it of the old bucket `j % n`, in order. -/
structure Expanded (h : Heap K φ) (g : View) (h' : Heap K φ) (g' : View) : Prop where
  flat : Flat h' g'
  n : g'.n = g.n * 2
  chain : ∀ j < g'.n, g'.chain j = (g.chain (j % g.n)).filter fun p => expandedId h g p = j
  frame : Frame h h'
  dirty : ∀ p, ¬ g'.dirty p

theorem Unzipping.expanded {h0 : Heap K φ} {g0 : View} (hu : Unzipping h0 g0 h g)
    (hdirty : ∀ p, ¬ g.dirty p ∧ ¬ g.mixed p)
    (hz : ∀ i < g0.n, h.next (.head g0.info i) = none ∧ ZipAt h0 g0 h g i 0) :
    Expanded h0 g0 h g := by
  have hpure : ∀ j < g.n, ∀ p ∈ g.chain j, expandedId h0 g0 p = j := by
    intro j hj p hp
    rw [hu.n] at hj
    by_cases hlt : j < g0.n
    · obtain ⟨h1, h2⟩ := hz j hlt
      unfold ZipAt at h2
      rw [h1] at h2
      cases h2 with
      | pure hl _ => exact hl p hp
    · obtain ⟨i, rfl⟩ : ∃ i, j = i + g0.n := ⟨j - g0.n, by omega⟩
      obtain ⟨h1, h2⟩ := hz i (by omega)
      unfold ZipAt at h2
      rw [h1] at h2
      cases h2 with
      | pure _ hl => exact hl p hp
  refine ⟨⟨hu.rep, ?_, fun p => (hdirty p).2⟩, hu.n, ?_, hu.frame,
    fun p => (hdirty p).1⟩
  · intro j hj p hp
    rw [hu.slot]
    exact hpure j hj p hp
  · intro j hj
    rw [← hu.part j hj]
    exact (List.filter_eq_self.mpr fun p hp => by simpa using hpure j hj p hp).symm

/-- What the publication and its grace period leave. -/
theorem TwinsReady.zipped0 {h0 h' : Heap K φ} {g0 : View} (hf : Flat h0 g0)
    (ht : TwinsReady h0 g0 g0.n h') :
    Zipped0 h0 g0 h0.fresh { h' with pBucketsInfo := h0.fresh } where
  unzipping := by
    have hframe := (Frame.withArray h0 (g0.n * 2)).trans ht.onlyNext.toFrame
    have hne : h0.fresh ≠ g0.info := fun he => hf.fresh_not_arrs (he ▸ hf.arr)
    refine ⟨(ht.publish hf).rep.synced, ⟨hframe.hash, hframe.key, hframe.size, hframe.expandFactor,
      hframe.shrinkFactor⟩, rfl, fun _ => Iff.rfl, (ht.rep.live _ hf.arr).1, ht.rep.nr, hne,
      fun j _ p hp => View.mem_expand (b := h0.fresh) hp, fun j _ => filter_dropWhile _ _⟩
  path a ha := ht.rep.chain_path ha
  heads a ha := ht.rep.next_head ha

/-- The code of an expand up to the grace period behind the publication, with `bucketsInfoOld` and
`bucketMaskNew`. -/
def expandPublish : Code K φ (ℕ × ℕ) := do
  let bucketsInfoOld ← Prog.lift .loadInfo
  let nrBucketsOld ← Prog.lift (.nrBuckets bucketsInfoOld)
  let nrBucketsNew := nrBucketsOld * 2
  let bucketMaskNew := nrBucketsNew - 1
  let bucketsInfo ← allocateAndInitBuckets nrBucketsNew
  Prog.forRange nrBucketsOld () fun iHalf _ =>
    let iSecondHalf := iHalf + nrBucketsOld
    initTwinDstBuckets (.head bucketsInfoOld iHalf) (.head bucketsInfo iHalf)
      (.head bucketsInfo iSecondHalf) iHalf iSecondHalf bucketMaskNew
  Prog.lift (.storeInfo bucketsInfo)
  rcuSynchronize
  return (bucketsInfoOld, bucketMaskNew)

/-- What follows it. -/
def expandUnzip (bucketsInfoOld bucketMaskNew : ℕ) : Code K φ ℕ := do
  let noNeedToUnzip ← findFirstUnzipStarts bucketsInfoOld bucketMaskNew
  if noNeedToUnzip then return bucketsInfoOld
  unzip bucketsInfoOld bucketMaskNew
  return bucketsInfoOld

theorem expandBucketsByFac2ReturnOld_eq :
    (expandBucketsByFac2ReturnOld : Code K φ ℕ) = expandPublish.bind fun r => expandUnzip r.1 r.2 := by
  unfold expandBucketsByFac2ReturnOld expandPublish expandUnzip
  simp only [rcuSynchronize, Prog.bind_def, Prog.pure_def, Prog.lift_bind, Prog.act_bind, Prog.ret_bind,
    Prog.bind_assoc]

theorem expandPublish_guarded (hf : Flat h g) :
    Guarded pm (fun r h' g' => r = (g.info, g.n * 2 - 1) ∧ g' = (View.expand h g h.fresh).synced ∧
        Zipped0 h g h.fresh h')
      expandPublish h g := by
  have hr := hf.toRep
  have hpos := hr.pos
  unfold expandPublish
  simp only [rcuSynchronize, Prog.bind_def, Prog.pure_def, Prog.lift_bind]
  refine guarded_loadInfo hr (guarded_nrInfo hr ?_)
  refine Sim.bind ((allocateAndInitBuckets_guarded hr (by omega)).mono ?_)
  rintro _ _ g1 ⟨rfl, rfl, hg, hr1⟩
  rw [hg]
  refine Sim.bind (guarded_initAll hf hr1 ?_)
  intro h' ht
  refine guarded_publish _ (ht.publish hf) fun hr2 => guarded_synchronize hr2 fun _ => ?_
  exact .ret ⟨rfl, rfl, ht.zipped0 hf⟩

theorem expandBucketsByFac2ReturnOld_guarded (hf : Flat h g) :
    Guarded pm (fun old h' g' =>
        old = g.info ∧ Expanded h g h' g' ∧ h'.live g.info = true ∧ ¬ g'.arrs g.info)
      expandBucketsByFac2ReturnOld h g := by
  rw [expandBucketsByFac2ReturnOld_eq]
  refine Sim.bind ((expandPublish_guarded hf).mono ?_)
  rintro _ h' g' ⟨rfl, rfl, hz⟩
  unfold expandUnzip
  simp only [Prog.bind_def, Prog.pure_def]
  refine Sim.bind ((findFirstUnzipStarts_guarded hf hz).mono ?_)
  rintro done h'' g'' ⟨rfl, hs⟩
  have hu := hs.unzipping
  cases done with
  | true =>
    refine .ret ⟨rfl, hu.expanded (fun _ => ⟨id, id⟩) fun i hi => ?_, hu.live, hu.old_not_arrs⟩
    have hnone := hs.finished.mp rfl i hi
    have hzip := hs.zip i hi
    rw [(cursor_eq_none hzip (hs.behind i hi)).mp hnone] at hzip
    exact ⟨hnone, hzip⟩
  | false =>
    refine Sim.bind (unzip_guarded hf ?_ _ _ h'' _ rfl hs.passing fun _ => ⟨id, id⟩)
    intro h3 g3 hu3 hd3 hz3
    exact .ret ⟨rfl, hu3.expanded hd3 hz3, hu3.live, hu3.old_not_arrs⟩

theorem Expanded.free {h' : Heap K φ} {g' : View} {b : ℕ} (he : Expanded h g h' g')
    (hr : Rep { h' with live := Function.update h'.live b false } g') :
    Expanded h g { h' with live := Function.update h'.live b false } g' :=
  ⟨⟨hr, he.flat.flat, he.flat.pure⟩, he.n, he.chain,
    ⟨he.frame.hash, he.frame.key, he.frame.size, he.frame.expandFactor, he.frame.shrinkFactor⟩, he.dirty⟩

theorem rTableCoreExpandBuckets2x_guarded (hf : Flat h g) :
    Guarded pm (fun _ => Expanded h g) rTableCoreExpandBuckets2x h g := by
  unfold rTableCoreExpandBuckets2x
  simp only [destroyAndFreeBuckets, Prog.bind_def]
  refine Sim.bind ((expandBucketsByFac2ReturnOld_guarded hf).mono ?_)
  rintro _ h' g' ⟨rfl, he, hlive, harr⟩
  exact guarded_free he.flat.toRep hlive harr fun hr => .ret (he.free hr)

end RcuTable
