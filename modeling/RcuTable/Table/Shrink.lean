import RcuTable.Table.Resize

/-!
# Table.Shrink — halving the number of buckets

The last node of bucket `i` is linked to the first one of bucket `i + n/2`, so that readers of bucket `i` of
the old array walk on through nodes of the other bucket, and the new head of bucket `i` is set up in private.
Then the new array is published, and the old one is free once its readers have gone.
-/

namespace RcuTable

open Atomic Chain

variable {K φ : Type} {pm : Perm K φ} {h : Heap K φ} {g : View}

/-- Walking to the last node of a chain. -/
theorem guarded_walkToLast {α : Type} {Q : α → Heap K φ → View → Prop} {k : Ptr → Code K φ α}
    (hr : Rep h g) {c : Ptr} : ∀ {s : List Ptr} {p : Ptr}, Path h.next (some p) (p :: s) →
      (∀ q ∈ p :: s, h.accessible q = true) → (∃ t, p :: s = t ++ [c]) →
      Guarded pm Q (k c) h g →
      Guarded pm Q (.iter (fun pSrc0Last => .act (.loadNext pSrc0Last) fun pNext =>
        match pNext with
        | none => .ret (.inr pSrc0Last)
        | some pNext => .ret (.inl pNext)) p k) h g := by
  intro s
  induction s with
  | nil =>
    rintro p ⟨-, hp⟩ hacc ⟨t, ht⟩ hk
    obtain ⟨rfl, rfl⟩ : t = [] ∧ p = c := by
      cases t with
      | nil => simpa using ht
      | cons x t => simp at ht
    refine Sim.unroll (guarded_load hr (hacc _ List.mem_cons_self) ?_)
    rw [hp]
    exact .ret hk
  | cons q s ih =>
    rintro p ⟨-, hp⟩ hacc ⟨t, ht⟩ hk
    have hq : ∃ t, q :: s = t ++ [c] := by
      cases t with
      | nil => simp at ht
      | cons x t => exact ⟨t, (List.cons.inj ht).2⟩
    refine Sim.unroll (guarded_load hr (hacc _ List.mem_cons_self) ?_)
    rw [hp.1]
    exact .ret (ih ⟨rfl, hp.2⟩ (fun x hx => hacc x (List.mem_cons_of_mem _ hx)) hq hk)

/-- What `shrinkTwoBucketsToOne` does to bucket `i`, for the new head `dst`. -/
structure Spliced (h : Heap K φ) (g : View) (i i' b k : ℕ) (h' : Heap K φ) (g' : View) : Prop where
  rep : Rep h' g'
  onlyNext : OnlyNext h h'
  same : SameArray g g'
  chain : g'.chain = Function.update g.chain i
    (if g.chain i = [] then [] else g.chain i ++ g.chain i')
  mixed : ∀ p, g'.mixed p → g.Mixed p
  dst : h'.next (.head b k) = (g.chain i ++ g.chain i').head?
  heads : ∀ a, a ≠ k → h'.next (.head b a) = h.next (.head b a)

/-- Linking the last node of one bucket to the first one of another. -/
theorem Rep.splice (pm : Perm K φ) (hr : Rep h g) {i i' : ℕ} (hi : i < g.n) (hi' : i' < g.n)
    (honly : ∀ p ∈ g.chain i, ∀ a < g.n, p ∈ g.chain a → a = i)
    (hslot : ∀ p ∈ g.chain i', g.slot (h.hash p) ≠ i)
    (hmixed : ∀ p ∈ g.chain i ++ g.chain i', ¬ g.Mixed p) {t : List Ptr} {c : Ptr}
    (hlast : g.chain i = t ++ [c]) : Swing pm h g i (.head g.info i :: t) c [] (g.chain i') := by
  have hcmem : c ∈ g.chain i := by rw [hlast]; simp
  have hnotMem : c ∉ g.chain i' := fun hc =>
    hslot c hc (honly c hcmem _ (hr.slot_lt _) (hr.home i' hi' c hc))
  have htail : ((Ptr.head g.info i :: t) ++ c :: g.chain i').tail = g.chain i ++ g.chain i' := by
    rw [hlast]
    simp
  refine ⟨hi, ?_, ?_, hr.chain_path hi', hnotMem, ?_, ?_, ?_, ?_⟩
  · rw [View.full, hlast]
    rfl
  · intro a ha hc
    rcases g.mem_full.mp hc with rfl | hc
    · exact absurd hcmem (hr.head_notMem hi)
    · exact honly c hcmem a ha hc
  · intro q hq
    exact ⟨i', hi', hq⟩
  · intro q hq
    cases hq
  · intro q hq _
    exact ⟨hslot q hq, hmixed q (List.mem_append_right _ hq), hmixed c (List.mem_append_left _ hcmem),
      hr.node i hi c hcmem⟩
  · intro q _ hq
    refine View.linked_swing hi ?_ hq
    intro p hp
    rw [htail]
    exact Or.inl (List.mem_append_left _ hp)

theorem shrinkTwoBucketsToOne_guarded (hr : Rep h g) {i i' b k : ℕ} (hi : i < g.n) (hi' : i' < g.n)
    (honly : ∀ p ∈ g.chain i, ∀ a < g.n, p ∈ g.chain a → a = i)
    (hslot : ∀ p ∈ g.chain i', g.slot (h.hash p) ≠ i)
    (hmixed : ∀ p ∈ g.chain i ++ g.chain i', ¬ g.Mixed p) (hb : ¬ g.arrs b)
    (ha : h.accessible (.head b k) = true) :
    Guarded pm (fun _ => Spliced h g i i' b k)
      (shrinkTwoBucketsToOne (.head g.info i) (.head g.info i') (.head b k)) h g := by
  have hne : ∀ {a}, a ≠ k → Ptr.head b a ≠ .head b k := by
    rintro a hak he
    injection he
    contradiction
  -- the branches that only set up the new head
  have hstore : ∀ v, v = (g.chain i ++ g.chain i').head? → (g.chain i = [] ∨ g.chain i' = []) →
      Guarded pm (fun _ => Spliced h g i i' b k)
        (.act (.storeNext (.head b k) v) fun _ => .ret ()) h g := by
    rintro v rfl hnil
    refine guarded_storeHead hr hb ha fun hr' => .ret ?_
    refine ⟨hr', (OnlyNext.refl h).setNext _ _, .refl g, ?_, fun _ => Or.inl, Function.update_self _ _ _,
      fun a hak => Function.update_of_ne (hne hak) _ _⟩
    rcases hnil with hnil | hnil
    · rw [if_pos hnil, ← hnil, Function.update_eq_self]
    · rw [hnil, List.append_nil, ite_eq_right_iff.mpr (fun h => h.symm), Function.update_eq_self]
  unfold shrinkTwoBucketsToOne
  simp only [load, store, Prog.lift, Prog.bind_def, Prog.pure_def, Prog.act_bind, Prog.ret_bind,
    Prog.loop_bind]
  refine guarded_load hr (hr.accessible_head hi) (guarded_load hr (hr.accessible_head hi') ?_)
  rw [hr.next_head hi, hr.next_head hi']
  have hpath := hr.chain_path hi
  by_cases hnil' : g.chain i' = []
  · simp only [hnil', List.head?_nil, if_true]
    exact hstore _ (by simp [hnil']) (Or.inr hnil')
  rw [if_neg (by simpa using hnil')]
  cases hchain : g.chain i with
  | nil => exact hstore _ (by simp [hchain]) (Or.inl hchain)
  | cons p s =>
    rw [hchain] at hpath
    obtain ⟨t, c, hlast⟩ : ∃ t c, p :: s = t ++ [c] :=
      ⟨(p :: s).dropLast, (p :: s).getLast (by simp), (List.dropLast_append_getLast (by simp)).symm⟩
    have hcmem : c ∈ g.chain i := by rw [hchain, hlast]; simp
    have htail : ((Ptr.head g.info i :: t) ++ c :: g.chain i').tail = g.chain i ++ g.chain i' := by
      rw [hchain, hlast]
      simp
    have hswing := hr.splice pm hi hi' honly hslot hmixed (hchain.trans hlast)
    refine guarded_walkToLast hr hpath (fun q hq => hr.accessible_of_mem hi (hchain ▸ hq))
      ⟨t, hlast⟩ ?_
    refine guarded_swing hr hswing rfl fun hrep => ?_
    rw [htail] at hrep ⊢
    refine guarded_storeHead hrep hb ha fun hr' => .ret ?_
    refine ⟨hr', ?_, ⟨rfl, rfl, rfl⟩, ?_, fun _ => id, ?_, ?_⟩
    · exact ((OnlyNext.refl h).setNext _ _).setNext _ _
    · rw [if_neg (by simp [hchain])]
      rfl
    · rw [hchain]
      exact Function.update_self _ _ _
    · intro a hak
      rw [Heap.setNext_next, Function.update_of_ne (hne hak), Heap.setNext_next,
        Function.update_of_ne]
      rintro rfl
      exact hr.head_notMem hi hcmem

/-- The chains after the first `k` splices of a shrink to `m` buckets. -/
def spliced (g : View) (m k a : ℕ) : List Ptr :=
  if a < k ∧ g.chain a ≠ [] then g.chain a ++ g.chain (a + m) else g.chain a

theorem spliced_succ (g : View) {m k : ℕ} :
    Function.update (spliced g m k) k (if g.chain k = [] then [] else g.chain k ++ g.chain (k + m)) =
      spliced g m (k + 1) := by
  funext a
  by_cases hak : a = k
  · subst hak
    by_cases hnil : g.chain a = []
    · simp [spliced, hnil]
    · simp [spliced, hnil]
  · have h1 : a < k + 1 ↔ a < k := by omega
    simp [spliced, hak, h1]

theorem mem_spliced {g : View} {m k a : ℕ} {p : Ptr} (hp : p ∈ spliced g m k a) :
    p ∈ g.chain a ∨ a < k ∧ p ∈ g.chain (a + m) := by
  unfold spliced at hp
  split_ifs at hp with h1
  · exact (List.mem_append.mp hp).imp id fun h2 => ⟨h1.1, h2⟩
  · exact Or.inl hp

/-- Of a flat table only the spliced nodes are in two buckets. -/
theorem Flat.mem_two_spliced (hf : Flat h g) {m k a a' : ℕ} (ha : a < g.n) (ha' : a' < g.n) (hne : a ≠ a')
    {p : Ptr} (hp : p ∈ spliced g m k a) (hp' : p ∈ spliced g m k a') : ∃ i < k, p ∈ g.chain (i + m) := by
  rcases mem_spliced hp with hp | ⟨hak, hp⟩
  · rcases mem_spliced hp' with hp' | ⟨hak', hp'⟩
    · exact absurd (hf.disjoint ha ha' hp hp') hne
    · exact ⟨a', hak', hp'⟩
  · exact ⟨a, hak, hp⟩

/-- **Effect of a shrink**: bucket `i` holds its own chain, then that of bucket `i + n/2`. -/
structure Shrunk (h : Heap K φ) (g : View) (h' : Heap K φ) (g' : View) : Prop where
  flat : Flat h' g'
  n : g.n = 2 * g'.n
  chain : ∀ i < g'.n, g'.chain i = g.chain i ++ g.chain (i + g'.n)
  frame : Frame h h'
  dirty : ∀ p, ¬ g'.dirty p

/-- The state in front of the publication of a shrink. -/
structure AllSpliced (h : Heap K φ) (g : View) (m b : ℕ) (h' : Heap K φ) (g' : View) : Prop where
  rep : Rep h' g'
  onlyNext : OnlyNext h h'
  same : SameArray g g'
  chain : g'.chain = spliced g m m
  heads : ∀ a < m, h'.next (.head b a) = (g.chain a ++ g.chain (a + m)).head?

/-- The view that a shrink to `m` buckets publishes as array `b`. -/
def View.shrink (g g' : View) (m b : ℕ) : View where
  info := b
  n := m
  chain a := g.chain a ++ g.chain (a + m)
  clean _ := False
  dirty := g'.dirty
  arrs b' := g.arrs b' ∨ b' = b
  mixed _ := True

theorem View.shrink_slot (hr : Rep h g) (g' : View) {m b : ℕ} (hm : g.n = 2 * m) (x : ℕ) :
    (g.shrink g' m b).slot x = x % m := by
  obtain ⟨k, hk⟩ := hr.pow
  have h1 : m = 2 ^ (k - 1) := by
    cases k with
    | zero => omega
    | succ k => rw [pow_succ] at hk; simp only [Nat.add_sub_cancel]; omega
  show x &&& (m - 1) = x % m
  rw [h1, Nat.and_two_pow_sub_one_eq_mod]

theorem View.shrink_linked {g' : View} {m b : ℕ} (hm : g.n = 2 * m) {p : Ptr} :
    (g.shrink g' m b).Linked p ↔ g.Linked p := by
  constructor
  · rintro ⟨a, ha, hp⟩
    have ha : a < m := ha
    rcases List.mem_append.mp hp with hp | hp
    · exact ⟨a, by omega, hp⟩
    · exact ⟨a + m, by omega, hp⟩
  · rintro ⟨a, ha, hp⟩
    by_cases ham : a < m
    · exact ⟨a, ham, List.mem_append_left _ hp⟩
    · refine ⟨a - m, by show a - m < m; omega, List.mem_append_right _ ?_⟩
      rwa [Nat.sub_add_cancel (by omega)]

theorem AllSpliced.linked {m b : ℕ} {h0 h' : Heap K φ} {g' : View}
    (hs : AllSpliced h0 g m b h' g') (hm : g.n = 2 * m) {p : Ptr} : g'.Linked p ↔ g.Linked p := by
  rw [View.Linked, hs.chain, hs.same.n]
  constructor
  · rintro ⟨a, ha, hp⟩
    rcases mem_spliced hp with hp | ⟨ham, hp⟩
    · exact ⟨a, ha, hp⟩
    · exact ⟨a + m, by omega, hp⟩
  · rintro ⟨a, ha, hp⟩
    refine ⟨a, ha, ?_⟩
    unfold spliced
    split_ifs
    · exact List.mem_append_left _ hp
    · exact hp

/-- In the new array every node is in the bucket of its hash. -/
theorem View.shrink_flat (hf : Flat h g) {g' : View} {m b : ℕ} (hm : g.n = 2 * m) {a : ℕ} (ha : a < m)
    {p : Ptr} (hp : p ∈ (g.shrink g' m b).chain a) : (g.shrink g' m b).slot (h.hash p) = a := by
  rw [View.shrink_slot hf.toRep g' hm]
  have key : ∀ c < g.n, p ∈ g.chain c → h.hash p % m = c % m := by
    intro c hc hpc
    rw [← hf.mod hc hpc, hm, Nat.mod_mul_left_mod]
  rcases List.mem_append.mp hp with hp | hp
  · rw [key a (by omega) hp, Nat.mod_eq_of_lt ha]
  · rw [key (a + m) (by omega) hp, Nat.add_mod_right, Nat.mod_eq_of_lt ha]

theorem AllSpliced.publish {m b : ℕ} {h0 h' : Heap K φ} {g' : View} (hf : Flat h g)
    (hs : AllSpliced h0 g m b h' g') (hm : g.n = 2 * m) (hb : h0.live b = true)
    (hnr : h0.nrBucketsPowerOf2 b = m) (hhash : h0.hash = h.hash) (hnew : ¬ g.arrs b) :
    Publish h' g' b (g.shrink g' m b) where
  rep := by
    have hr := hs.rep
    have hpos := hf.pos
    refine ⟨rfl, ?_, ?_, Or.inr rfl, ?_, hr.null, hr.fresh, ?_,
      ?_, ?_⟩
    · show h'.nrBucketsPowerOf2 b = m
      rw [hs.onlyNext.nr, hnr]
    · obtain ⟨k, hk⟩ := hf.pow
      refine ⟨k - 1, ?_⟩
      cases k with
      | zero => omega
      | succ k =>
        show m = 2 ^ k
        rw [pow_succ] at hk
        omega
    · intro b' hb'
      rcases hb' with hb' | rfl
      · exact hr.live b' (by rw [hs.same.arrs]; exact hb')
      · show h'.live b' = true ∧ 0 < h'.nrBucketsPowerOf2 b'
        rw [hs.onlyNext.live, hs.onlyNext.nr, hb, hnr]
        exact ⟨rfl, by omega⟩
    · intro a ha
      have ha : a < m := ha
      refine ⟨rfl, ?_⟩
      show Path h'.next (h'.next (.head b a)) (g.chain a ++ g.chain (a + m))
      rw [hs.heads a ha]
      -- an empty first half leaves the second chain alone, otherwise the two are spliced
      by_cases hnil : g.chain a = []
      · have h1 := hr.chain_path (j := a + m) (by rw [hs.same.n]; omega)
        rw [hs.chain] at h1
        simpa [spliced, hnil] using h1
      · have h1 := hr.chain_path (j := a) (by rw [hs.same.n]; omega)
        rw [hs.chain] at h1
        simpa [spliced, hnil, ha] using h1
    · intro a ha p hp
      obtain ⟨c, hc, hpc⟩ := (View.shrink_linked hm).mp ⟨a, ha, hp⟩
      exact hf.node c hc p hpc
    · intro a ha p hp
      show p ∈ (g.shrink g' m b).chain ((g.shrink g' m b).slot (h'.hash p))
      rw [hs.onlyNext.hash, hhash, View.shrink_flat hf hm ha hp]
      exact hp
  linked p := by rw [View.shrink_linked hm, hs.linked hm]
  arrs b' := by rw [hs.same.arrs]; rfl
  new := by rwa [hs.same.arrs]
  clean _ := id
  dirty := rfl
  mixed _ := trivial

/-- The loop over the twin buckets. -/
theorem guarded_spliceAll (hf : Flat h g) {m : ℕ} (hm : g.n = 2 * m)
    (hr : Rep (h.withArray m) g) {Q : Unit → Heap K φ → View → Prop}
    (hQ : ∀ h' g', AllSpliced (h.withArray m) g m h.fresh h' g' → Q () h' g') :
    Guarded pm Q (Prog.forRange m () fun iHalf _ =>
      shrinkTwoBucketsToOne (.head g.info iHalf) (.head g.info (iHalf + m)) (.head h.fresh iHalf))
      (h.withArray m) g := by
  refine Sim.forRange (fun k _ h' g' => Rep h' g' ∧ OnlyNext (h.withArray m) h' ∧ SameArray g g' ∧
    g'.chain = spliced g m k ∧ (∀ p, g'.mixed p → ∃ a < k, p ∈ g.chain (a + m)) ∧
    ∀ a < k, h'.next (.head h.fresh a) = (g.chain a ++ g.chain (a + m)).head?)
    ⟨hr, .refl _, .refl g, funext fun a => by simp [spliced], fun p hp => absurd hp (hf.pure p), by simp⟩
    ?_ ?_
  · rintro i hi _ h' g' ⟨hr', hon, hsame, hchain, hmix, hheads⟩
    have hi1 : g'.chain i = g.chain i := by simp [hchain, spliced]
    have hi2 : g'.chain (i + m) = g.chain (i + m) := by simp [hchain, spliced, show ¬ i + m < i by omega]
    have honly : ∀ p ∈ g'.chain i, ∀ a < g'.n, p ∈ g'.chain a → a = i := by
      intro p hp a ha hpa
      rw [hi1] at hp
      rw [hsame.n] at ha
      rw [hchain] at hpa
      rcases mem_spliced hpa with hpa | ⟨hai, hpa⟩
      · exact hf.disjoint ha (by omega) hpa hp
      · have := hf.disjoint (by omega) (by omega) hpa hp
        omega
    have hslot : ∀ p ∈ g'.chain (i + m), g'.slot (h'.hash p) ≠ i := by
      intro p hp
      rw [hi2] at hp
      rw [View.slot, hsame.n, hon.hash]
      show g.slot (h.hash p) ≠ i
      rw [hf.flat (i + m) (by omega) p hp]
      omega
    -- what is in two buckets belongs to twins that are spliced already
    have hMixed : ∀ p, g'.Mixed p → ∃ a < i, p ∈ g.chain (a + m) := by
      rintro p (hp | ⟨a, ha, a', ha', hne, hp, hp'⟩)
      · exact hmix p hp
      · rw [hsame.n] at ha ha'
        rw [hchain] at hp hp'
        exact hf.mem_two_spliced ha ha' hne hp hp'
    have hpure : ∀ p ∈ g'.chain i ++ g'.chain (i + m), ¬ g'.Mixed p := by
      intro p hp hmp
      obtain ⟨a, ha, hpa⟩ := hMixed p hmp
      rw [hi1, hi2] at hp
      rcases List.mem_append.mp hp with hp | hp
      · have := hf.disjoint (by omega) (by omega) hpa hp
        omega
      · have := hf.disjoint (by omega) (by omega) hpa hp
        omega
    have hb : ¬ g'.arrs h.fresh := by
      rw [hsame.arrs]
      exact hf.fresh_not_arrs
    have hacc : h'.accessible (.head h.fresh i) = true := by
      rw [hon.accessible]
      exact h.accessible_withArray hi
    rw [← hsame.info]
    refine (shrinkTwoBucketsToOne_guarded hr' (by rw [hsame.n]; omega) (by rw [hsame.n]; omega)
      honly hslot hpure hb hacc).mono fun _ h'' g'' hsp => ?_
    refine ⟨hsp.rep, hon.trans hsp.onlyNext, hsame.trans hsp.same, ?_, ?_, ?_⟩
    · rw [hsp.chain, hi1, hi2, hchain, spliced_succ]
    · intro p hp
      obtain ⟨a, ha, hpa⟩ := hMixed p (hsp.mixed p hp)
      exact ⟨a, by omega, hpa⟩
    · intro a ha
      rcases Nat.lt_succ_iff_lt_or_eq.mp ha with ha | rfl
      · rw [hsp.heads a (by omega)]
        exact hheads a ha
      · rw [hsp.dst, hi1, hi2]
  · rintro _ h' g' ⟨hr', hon, hsame, hchain, -, hheads⟩
    exact hQ h' g' ⟨hr', hon, hsame, hchain, hheads⟩

theorem shrinkBucketsByFac2ReturnOld_guarded (hf : Flat h g) :
    Guarded pm (fun r h' g' =>
        g.n = 1 ∧ r = none ∧ h' = h ∧ g' = g ∨
        r = some g.info ∧ Shrunk h g h' g' ∧ h'.live g.info = true ∧ ¬ g'.arrs g.info)
      shrinkBucketsByFac2ReturnOld h g := by
  have hr := hf.toRep
  have hpos := hr.pos
  unfold shrinkBucketsByFac2ReturnOld
  simp only [rcuSynchronize, Prog.bind_def, Prog.pure_def, Prog.lift_bind]
  refine guarded_loadInfo hr (guarded_nrInfo hr ?_)
  by_cases hm0 : g.n / 2 = 0
  · rw [if_pos hm0]
    exact .ret (Or.inl ⟨by omega, rfl, rfl, rfl⟩)
  rw [if_neg hm0]
  have hm : g.n = 2 * (g.n / 2) := by
    obtain ⟨k, hk⟩ := hr.pow
    cases k with
    | zero => omega
    | succ k => rw [pow_succ] at hk; omega
  generalize g.n / 2 = m at hm hm0
  refine Sim.bind ((allocateAndInitBuckets_guarded hr (by omega)).mono ?_)
  rintro _ _ g1 ⟨rfl, rfl, hg, hr1⟩
  rw [hg]
  refine Sim.bind (guarded_spliceAll hf hm hr1 fun h' g' hs => ?_)
  have hpub := hs.publish hf hm (h.withArray_live m) (h.withArray_nr m) rfl hf.fresh_not_arrs
  refine guarded_publish _ hpub fun hr2 => guarded_synchronize hr2 fun hr3 => .ret (Or.inr ?_)
  refine ⟨rfl, ⟨⟨hr3, ?_, fun p => id⟩, hm, fun i _ => rfl, ?_, fun p => id⟩, ?_, ?_⟩
  · intro a ha p hp
    have h1 : h'.hash = h.hash := hs.onlyNext.hash
    show (g.shrink g' m h.fresh).slot (h'.hash p) = a
    rw [h1]
    exact View.shrink_flat hf hm ha hp
  · have h1 := (Frame.withArray h m).trans hs.onlyNext.toFrame
    exact ⟨h1.hash, h1.key, h1.size, h1.expandFactor, h1.shrinkFactor⟩
  · exact (hs.rep.live g.info (hs.same.arrs ▸ hr.arr)).1
  · intro he
    have he : g.info = h.fresh := he
    exact hr.fresh_not_arrs (he ▸ hr.arr)

theorem Shrunk.free {h' : Heap K φ} {g' : View} {b : ℕ} (hs : Shrunk h g h' g')
    (hr : Rep { h' with live := Function.update h'.live b false } g') :
    Shrunk h g { h' with live := Function.update h'.live b false } g' :=
  ⟨⟨hr, hs.flat.flat, hs.flat.pure⟩, hs.n, hs.chain,
    ⟨hs.frame.hash, hs.frame.key, hs.frame.size, hs.frame.expandFactor, hs.frame.shrinkFactor⟩, hs.dirty⟩

theorem rTableCoreShrinkBuckets2x_guarded (hf : Flat h g) :
    Guarded pm (fun r h' g' =>
        g.n = 1 ∧ r = false ∧ h' = h ∧ g' = g ∨ r = true ∧ Shrunk h g h' g')
      rTableCoreShrinkBuckets2x h g := by
  unfold rTableCoreShrinkBuckets2x
  simp only [destroyAndFreeBuckets, Prog.bind_def, Prog.pure_def]
  refine Sim.bind ((shrinkBucketsByFac2ReturnOld_guarded hf).mono ?_)
  rintro _ h' g' (⟨h1, rfl, rfl, rfl⟩ | ⟨rfl, hs, hlive, harr⟩)
  · exact .ret (Or.inl ⟨h1, rfl, rfl, rfl⟩)
  · refine guarded_free hs.flat.toRep hlive harr fun hr => .ret (Or.inr ⟨rfl, hs.free hr⟩)

end RcuTable
