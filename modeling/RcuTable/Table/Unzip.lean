import RcuTable.Table.Expand
import Mathlib.Data.Finset.Lattice.Fold
import Mathlib.Data.Finset.Range
import Mathlib.Order.Lattice.Nat

/-!
# Table.Unzip — opening the zip between the twin buckets of an expand

`Zip` says how far the twins `i` and `i + n` are unzipped: the cursor is null and both are pure, or it
stands on the last node of the pure part of one twin, behind which the two share a tail `w`.  A round of
`unzip` moves each cursor over one segment of `w` and cuts that segment out of the cursor's own chain.
-/

namespace RcuTable

open Atomic Chain Segments

variable {K φ : Type} {pm : Perm K φ} {h : Heap K φ} {g : View} {α : Type}
  {Q : α → Heap K φ → View → Prop}

/-- The loop of `findFirstUnzipPoint`. -/
theorem guarded_findCut (hr : Rep h g) {c mask : ℕ} {t : List Ptr} {k : Option Ptr → Code K φ α}
    (ht : ∀ q, t.head? = some q → h.hash q &&& mask ≠ c) : ∀ {r : List Ptr} {p : Ptr},
      Path h.next (some p) (p :: (r ++ t)) → (∀ q ∈ p :: r, h.accessible q = true) →
      (∀ q ∈ r, h.hash q &&& mask = c) → Guarded pm Q (k (cut (p :: r) t)) h g →
      Guarded pm Q (.iter (fun p => .act (.loadNext p) fun pNext => match pNext with
        | none => .ret (.inr none)
        | some q => .act (.loadHash q) fun v =>
          if v &&& mask ≠ c then .ret (.inr (some p)) else .ret (.inl q)) p k) h g := by
  intro r
  induction r with
  | nil =>
    rintro p ⟨-, hp⟩ hacc - hk
    refine Sim.unroll (guarded_load hr (hacc p List.mem_cons_self) ?_)
    cases t with
    | nil =>
      rw [hp.head]
      exact .ret hk
    | cons q t =>
      rw [hp.1]
      refine guarded_loadHash hr ?_
      rw [if_pos (ht q rfl)]
      exact .ret hk
  | cons q r ih =>
    rintro p ⟨-, hp⟩ hacc hcls hk
    refine Sim.unroll (guarded_load hr (hacc p List.mem_cons_self) ?_)
    rw [hp.1]
    refine guarded_loadHash hr ?_
    rw [if_neg (not_not.mpr (hcls q List.mem_cons_self))]
    rw [cut_cons] at hk
    exact .ret (ih ⟨rfl, hp.2⟩ (fun x hx => hacc x (List.mem_cons_of_mem _ hx))
      (fun x hx => hcls x (List.mem_cons_of_mem _ hx)) hk)

/-- `findFirstUnzipPoint` on a chain that begins with the run `r` and goes on with `t`. -/
theorem findFirstUnzipPoint_guarded (hr : Rep h g) {old i c mask : ℕ} {r t : List Ptr}
    (hpath : Path h.next (h.next (.head old i)) (r ++ t)) (hne : r ≠ [])
    (hacc : ∀ q ∈ r, h.accessible q = true) (hcls : ∀ q ∈ r, h.hash q &&& mask = c)
    (ht : ∀ q, t.head? = some q → h.hash q &&& mask ≠ c)
    (hold : ¬ g.arrs old) (ha : h.accessible (.head old i) = true) :
    Guarded pm (fun b h' g' => g' = g ∧ Rep h' g ∧ h' = h.setNext (.head old i) (cut r t) ∧
        b = (cut r t).isSome)
      (findFirstUnzipPoint (.head old i) mask) h g := by
  unfold findFirstUnzipPoint
  simp only [load, store, deref, computeHashBucketId, Prog.lift, Prog.bind_def, Prog.pure_def,
    Prog.act_bind, Prog.ret_bind, Prog.loop_bind]
  refine guarded_load hr ha ?_
  cases r with
  | nil => exact absurd rfl hne
  | cons p r =>
    obtain ⟨hp, hpath⟩ := hpath
    rw [hp]
    simp only [Prog.ret_bind]
    refine guarded_loadHash hr ?_
    rw [hcls p List.mem_cons_self]
    refine guarded_findCut hr ht ⟨rfl, hpath⟩ hacc (fun q hq => hcls q (List.mem_cons_of_mem _ hq)) ?_
    refine guarded_storeHead hr hold ha fun hr' => .ret ⟨rfl, hr', rfl, rfl⟩

/-- The loop of `unzipOneSegment`. -/
theorem guarded_skipSegment (hr : Rep h g) {c mask : ℕ} {t : List Ptr}
    {k : Option Ptr × Option Ptr → Code K φ α} (ht : ∀ q, t.head? = some q → h.hash q &&& mask = c) :
    ∀ {r : List Ptr} {p : Ptr}, Path h.next (some p) (p :: (r ++ t)) →
      (∀ q ∈ p :: r, h.accessible q = true) → (∀ q ∈ r, h.hash q &&& mask ≠ c) →
      Guarded pm Q (k (cut (p :: r) t, t.head?)) h g →
      Guarded pm Q (.iter (fun pNextJumpStart => .act (.loadNext pNextJumpStart) fun pNext =>
        match pNext with
        | none => .ret (.inr (none, none))
        | some q => .act (.loadHash q) fun v =>
          if v &&& mask = c then .ret (.inr (some pNextJumpStart, some q)) else .ret (.inl q)) p k)
        h g := by
  intro r
  induction r with
  | nil =>
    rintro p ⟨-, hp⟩ hacc - hk
    refine Sim.unroll (guarded_load hr (hacc p List.mem_cons_self) ?_)
    cases t with
    | nil =>
      rw [hp.head]
      exact .ret hk
    | cons q t =>
      rw [hp.1]
      refine guarded_loadHash hr ?_
      rw [if_pos (ht q rfl)]
      exact .ret hk
  | cons q r ih =>
    rintro p ⟨-, hp⟩ hacc hcls hk
    refine Sim.unroll (guarded_load hr (hacc p List.mem_cons_self) ?_)
    rw [hp.1]
    refine guarded_loadHash hr ?_
    rw [if_neg (hcls q List.mem_cons_self)]
    rw [cut_cons] at hk
    exact .ret (ih ⟨rfl, hp.2⟩ (fun x hx => hacc x (List.mem_cons_of_mem _ hx))
      (fun x hx => hcls x (List.mem_cons_of_mem _ hx)) hk)

/-- Cutting the segment `r` out of chain `c`, behind its node `x`, is a swing: the nodes of `r` belong to
the twin `c'`, and the readers of `c'` are not on chain `c`. -/
theorem Rep.swing_segment (pm : Perm K φ) (hr : Rep h g) {c c' : ℕ} {x : Ptr} {u r t : List Ptr} (hc : c < g.n)
    (hne : c ≠ c') (hchain : g.chain c = u ++ x :: (r ++ t))
    (hcls : ∀ q ∈ r, g.slot (h.hash q) = c') (honly : ∀ k < g.n, x ∈ g.chain k → k = c)
    (hclean : g.clean c') : Swing pm h g c (.head g.info c :: u) x (r ++ t) t := by
  have hxmem : x ∈ g.chain c := by rw [hchain]; simp
  have hnd := hr.chain_nodup hc
  rw [hchain] at hnd
  have hx : x ∉ r ++ t := (List.nodup_cons.mp (List.nodup_append.mp hnd).2.1).1
  refine ⟨hc, by rw [View.full, hchain]; rfl, ?_, ?_, ?_, ?_,
    ?_, ?_, fun q _ hq => View.linked_swing hc ?_ hq⟩
  · intro k hk hxk
    rcases g.mem_full.mp hxk with rfl | hxk
    · exact absurd hxmem (hr.head_notMem hc)
    · exact honly k hk hxk
  · have h1 := hr.chain_path hc
    rw [hchain] at h1
    exact (h1.tail).drop
  · intro hxt
    exact hx (List.mem_append_right _ hxt)
  · intro p hp
    exact ⟨c, hc, by rw [hchain]; simp [hp]⟩
  · intro p hp hpt _
    have h1 := hcls p ((List.mem_append.mp hp).resolve_right hpt)
    rw [h1]
    exact ⟨hne.symm, hclean⟩
  · intro p hp hpo
    exact absurd (List.mem_append_right _ hp) hpo
  · intro p hp
    by_cases hpr : p ∈ r
    · -- a node of the segment is in the bucket of its own class
      have h1 := hr.home c hc p hp
      have h2 := hr.slot_lt (h.hash p)
      rw [hcls p hpr] at h1 h2
      exact Or.inr ⟨c', h2, hne.symm, h1⟩
    · left
      rw [hchain] at hp
      simp only [List.cons_append, List.tail_cons, List.mem_append, List.mem_cons] at hp ⊢
      tauto

theorem unzipOneSegment_guarded (hr : Rep h g) {old i c c' : ℕ} {x : Ptr} {u r t : List Ptr}
    (hc : c < g.n) (hne : c ≠ c')
    (hchain : g.chain c = u ++ x :: (r ++ t)) (hx : g.slot (h.hash x) = c) (hr0 : r ≠ [])
    (hcls : ∀ q ∈ r, g.slot (h.hash q) = c')
    (ht : ∀ q, t.head? = some q → g.slot (h.hash q) = c)
    (honly : ∀ k < g.n, x ∈ g.chain k → k = c) (hclean : g.clean c') (hold : ¬ g.arrs old)
    (ha : h.accessible (.head old i) = true) (hcur : h.next (.head old i) = some x) :
    Guarded pm (fun _ h' g' => Rep h' g' ∧ g' = g.swing c (u ++ x :: t) ∧
        h' = (h.setNext (.head old i) (cut r t)).setNext x t.head?)
      (unzipOneSegment (.head old i) (g.n - 1)) h g := by
  have hxmem : x ∈ g.chain c := by rw [hchain]; simp
  have hmem : ∀ q ∈ r, q ∈ g.chain c := fun q hq => by rw [hchain]; simp [hq]
  have hxacc := hr.accessible_of_mem hc hxmem
  have hpath := hr.chain_path hc
  rw [hchain] at hpath
  have hpath := hpath.tail
  unfold unzipOneSegment
  simp only [load, store, deref, assert, computeHashBucketId, Prog.lift, Prog.bind_def,
    Prog.pure_def, Prog.act_bind, Prog.ret_bind, Prog.loop_bind]
  refine guarded_load hr ha ?_
  rw [hcur]
  simp only [Prog.ret_bind]
  refine guarded_load hr hxacc ?_
  cases r with
  | nil => exact absurd rfl hr0
  | cons y r =>
    obtain ⟨hy, hpath⟩ := hpath
    rw [hy]
    simp only [Option.isSome_some, if_true, Prog.ret_bind]
    refine guarded_loadHash hr (guarded_load hr hxacc ?_)
    rw [hy]
    simp only [Prog.ret_bind]
    refine guarded_loadHash hr ?_
    have hxc : h.hash x &&& (g.n - 1) = c := hx
    have hyc : h.hash y &&& (g.n - 1) = c' := hcls y List.mem_cons_self
    rw [hxc, hyc, if_pos (by simpa using hne.symm)]
    simp only [Prog.ret_bind]
    refine guarded_skipSegment hr ht ⟨rfl, hpath⟩
      (fun q hq => hr.accessible_of_mem hc (hmem q hq)) ?_ ?_
    · intro q hq
      show g.slot (h.hash q) ≠ c
      rw [hcls q (List.mem_cons_of_mem _ hq)]
      exact hne.symm
    · refine guarded_storeHead hr hold ha ?_
      intro hr1
      have hswing := hr1.swing_segment pm hc hne hchain hcls honly hclean
      refine guarded_swing hr1 hswing rfl ?_
      intro hr2
      exact .ret ⟨hr2, rfl, rfl⟩

/-! ### The table while it is unzipped -/

/-- The table between the publication of an expand and its end; `h0` and `g0` are the flat table before. -/
structure Unzipping (h0 : Heap K φ) (g0 : View) (h : Heap K φ) (g : View) : Prop where
  rep : Rep h g
  frame : Frame h0 h
  n : g.n = g0.n * 2
  arrs : ∀ b, g.arrs b ↔ b = g.info
  live : h.live g0.info = true
  nr : h.nrBucketsPowerOf2 g0.info = g0.n
  old : g.info ≠ g0.info
  sub : ∀ j < g.n, ∀ p ∈ g.chain j, p ∈ g0.chain (j % g0.n)
  part : ∀ j < g.n, (g.chain j).filter (fun p => expandedId h0 g0 p = j) =
    (g0.chain (j % g0.n)).filter fun p => expandedId h0 g0 p = j

/-- The twins of the old bucket `i`, by its cursor. -/
def ZipAt (h0 : Heap K φ) (g0 : View) (h : Heap K φ) (g : View) (i N : ℕ) : Prop :=
  Zip (expandedId h0 g0) i (i + g0.n) N (g.chain i) (g.chain (i + g0.n)) (h.next (.head g0.info i))

/-- `m` segments are behind the cursor of the old bucket `i`: the twin that it is on goes on from it with
`m + 1`. -/
def Behind (h0 : Heap K φ) (g0 : View) (h : Heap K φ) (g : View) (i m : ℕ) : Prop :=
  ∃ s, (s <:+ g.chain i ∨ s <:+ g.chain (i + g0.n)) ∧ s.head? = h.next (.head g0.info i) ∧
    segments (expandedId h0 g0) s - 1 = m

namespace Unzipping

variable {h0 : Heap K φ} {g0 : View}

theorem slot (hu : Unzipping h0 g0 h g) (p : Ptr) : g.slot (h.hash p) = expandedId h0 g0 p := by
  rw [View.slot, hu.n, hu.frame.hash]
  rfl

theorem old_not_arrs (hu : Unzipping h0 g0 h g) : ¬ g.arrs g0.info := fun ha =>
  hu.old ((hu.arrs _).mp ha).symm

theorem accessible_old (hu : Unzipping h0 g0 h g) {i : ℕ} (hi : i < g0.n) :
    h.accessible (.head g0.info i) = true := by
  simp [Heap.accessible, hu.live, hu.nr, hi]

theorem synced (hu : Unzipping h0 g0 h g) : Unzipping h0 g0 h g.synced :=
  ⟨hu.rep.synced, hu.frame, hu.n, fun _ => Iff.rfl, hu.live, hu.nr, hu.old, hu.sub, hu.part⟩

end Unzipping

/-- What a round leaves alone at the other buckets. -/
structure OffBucket (g0 : View) (i : ℕ) (h : Heap K φ) (g : View) (h' : Heap K φ) (g' : View) :
    Prop where
  next : ∀ a, a ≠ i → h'.next (.head g0.info a) = h.next (.head g0.info a)
  chain : ∀ a < g0.n, a ≠ i → g'.chain a = g.chain a ∧ g'.chain (a + g0.n) = g.chain (a + g0.n)
  clean : ∀ a < g0.n, a ≠ i → (g.clean a → g'.clean a) ∧ (g.clean (a + g0.n) → g'.clean (a + g0.n))

theorem OffBucket.behind {h0 h' : Heap K φ} {g0 g' : View} {i a m : ℕ} (ho : OffBucket g0 i h g h' g')
    (ha : a < g0.n) (hne : a ≠ i) (hb : Behind h0 g0 h g a m) : Behind h0 g0 h' g' a m := by
  unfold Behind
  rw [ho.next a hne, (ho.chain a ha hne).1, (ho.chain a ha hne).2]
  exact hb

theorem OffBucket.zipAt {h0 h' : Heap K φ} {g0 g' : View} {i a N : ℕ}
    (ho : OffBucket g0 i h g h' g') (ha : a < g0.n) (hne : a ≠ i) (hz : ZipAt h0 g0 h g a N) :
    ZipAt h0 g0 h' g' a N := by
  unfold ZipAt
  rw [ho.next a hne, (ho.chain a ha hne).1, (ho.chain a ha hne).2]
  exact hz

/-- What a call of `unzipOneSegment` finds at bucket `i`, and that it takes one segment off. -/
structure Opened (h0 : Heap K φ) (g0 : View) (i : ℕ) (h : Heap K φ) (g : View) (h' : Heap K φ)
    (g' : View) : Prop where
  cursor : ∃ x y, h.next (.head g0.info i) = some x ∧ h.next x = some y ∧
    (expandedId h0 g0 x = i ∧ expandedId h0 g0 y = i + g0.n ∨
      expandedId h0 g0 x = i + g0.n ∧ expandedId h0 g0 y = i)
  behind : ∃ m, Behind h0 g0 h g i (m + 1) ∧ Behind h0 g0 h' g' i m

/-! ### One segment -/

section Segment

variable {h0 : Heap K φ} {g0 : View} {i c c' : ℕ} {x p : Ptr} {u r t l : List Ptr} {v w : Option Ptr}

/-- What is cut out of chain `c` is of another class. -/
theorem Unzipping.cutSegment (hu : Unzipping h0 g0 h g) (hc : c < g.n)
    (hchain : g.chain c = u ++ x :: (r ++ t)) (hrc : ∀ q ∈ r, expandedId h0 g0 q ≠ c)
    (hr : Rep ((h.setNext p v).setNext x w) (g.swing c (u ++ x :: t))) :
    Unzipping h0 g0 ((h.setNext p v).setNext x w) (g.swing c (u ++ x :: t)) where
  rep := hr
  frame := ⟨hu.frame.hash, hu.frame.key, hu.frame.size, hu.frame.expandFactor, hu.frame.shrinkFactor⟩
  n := hu.n
  arrs := hu.arrs
  live := hu.live
  nr := hu.nr
  old := hu.old
  sub j hj q hq := by
    by_cases hjc : j = c
    · subst hjc
      rw [View.swing_chain, Function.update_self] at hq
      refine hu.sub j hc q ?_
      rw [hchain]
      simp only [List.mem_append, List.mem_cons] at hq ⊢
      tauto
    · rw [View.swing_chain, Function.update_of_ne hjc] at hq
      exact hu.sub j hj q hq
  part j hj := by
    by_cases hjc : j = c
    · subst hjc
      rw [← hu.part j hc, View.swing_chain, Function.update_self, hchain]
      have hnil : r.filter (fun q => expandedId h0 g0 q = j) = [] := by
        rw [List.filter_eq_nil_iff]
        intro q hq
        simp [hrc q hq]
      simp [List.filter_append, List.filter_cons, hnil]
    · rw [View.swing_chain, Function.update_of_ne hjc]
      exact hu.part j hj

theorem OffBucket.cutSegment (hi : i < g0.n) (hc : c = i ∨ c = i + g0.n) (hx : ∀ b a, x ≠ .head b a) :
    OffBucket g0 i h g ((h.setNext (.head g0.info i) v).setNext x w) (g.swing c l) where
  next a ha := by
    rw [Heap.setNext_next, Function.update_of_ne (hx _ _).symm, Heap.setNext_next,
      Function.update_of_ne]
    simpa using ha
  chain a ha hai := by
    simp only [View.swing_chain]
    exact ⟨Function.update_of_ne (by omega) _ _, Function.update_of_ne (by omega) _ _⟩
  clean a ha hai := ⟨fun h1 => ⟨h1, by omega⟩, fun h1 => ⟨h1, by omega⟩⟩

/-- The cursor moves from `x` to the end of the segment `r`. -/
theorem Opened.cutSegment (hu : Unzipping h0 g0 h g) (hc : c < g.n)
    (hcc : c = i ∧ c' = i + g0.n ∨ c = i + g0.n ∧ c' = i) (hne : c ≠ c')
    (hcur : h.next (.head g0.info i) = some x) (hx : ∀ b a, x ≠ .head b a)
    (hchain : g.chain c = u ++ x :: (r ++ t)) (hr0 : r ≠ []) (hxc : expandedId h0 g0 x = c)
    (hrc : ∀ q ∈ r, expandedId h0 g0 q = c')
    (ht : ∀ q, t.head? = some q → expandedId h0 g0 q = c) (hsuf : r ++ t <:+ g.chain c') :
    Opened h0 g0 i h g ((h.setNext (.head g0.info i) (cut r t)).setNext x t.head?)
      (g.swing c (u ++ x :: t)) := by
  have ht' : ∀ q, t.head? = some q → expandedId h0 g0 q ≠ c' := by
    intro q hq
    rw [ht q hq]
    exact hne
  have hpath := hu.rep.chain_path hc
  rw [hchain] at hpath
  obtain ⟨y, hy⟩ : ∃ y, (r ++ t).head? = some y ∧ expandedId h0 g0 y = c' := by
    cases r with
    | nil => exact absurd rfl hr0
    | cons y r => exact ⟨y, rfl, hrc y List.mem_cons_self⟩
  have hnew : ((h.setNext (.head g0.info i) (cut r t)).setNext x t.head?).next (.head g0.info i) =
      cut r t := by
    rw [Heap.setNext_next, Function.update_of_ne (hx _ _).symm, Heap.setNext_next, Function.update_self]
  refine ⟨⟨x, y, hcur, hpath.next_eq.trans hy.1, ?_⟩, segments (expandedId h0 g0) t,
    ⟨x :: (r ++ t), ?_, hcur.symm, ?_⟩, ?_⟩
  · rw [hxc, hy.2]
    exact hcc
  · have hxs : x :: (r ++ t) <:+ g.chain c := ⟨u, hchain.symm⟩
    rcases hcc with ⟨rfl, -⟩ | ⟨rfl, -⟩
    · exact Or.inl hxs
    · exact Or.inr hxs
  · have h1 : segments (expandedId h0 g0) ([x] ++ (r ++ t)) = segments (expandedId h0 g0) (r ++ t) + 1 := by
      refine segments_run (by simp) (fun q hq => List.mem_singleton.mp hq ▸ hxc) ?_
      intro q hq
      rw [Option.some.inj (hq.symm.trans hy.1), hy.2]
      exact hne.symm
    rw [← List.singleton_append, h1, segments_run hr0 hrc ht', Nat.add_sub_cancel]
  · obtain ⟨s, hs, hhead, hseg⟩ := segments_cut hr0 hrc ht'
    refine ⟨s, ?_, hhead.trans hnew.symm, hseg⟩
    have hsc : s <:+ (g.swing c (u ++ x :: t)).chain c' := by
      rw [View.swing_chain, Function.update_of_ne hne.symm]
      exact hs.trans hsuf
    rcases hcc with ⟨-, rfl⟩ | ⟨-, rfl⟩
    · exact Or.inr hsc
    · exact Or.inl hsc

end Segment

/-- One segment of the twins `c` and `c'` of bucket `i`, cut out of chain `c`. -/
theorem unzipOneSegment_zipped {h0 : Heap K φ} {g0 : View} (hf : Flat h0 g0)
    (hu : Unzipping h0 g0 h g) {i c c' N : ℕ} {x : Ptr} (hi : i < g0.n)
    (hcc : c = i ∧ c' = i + g0.n ∨ c = i + g0.n ∧ c' = i)
    (hcur : h.next (.head g0.info i) = some x) (hclean : g.clean c')
    (hz : Zipped (expandedId h0 g0) c c' N x (g.chain c) (g.chain c')) :
    Guarded pm (fun _ h' g' => Unzipping h0 g0 h' g' ∧ OffBucket g0 i h g h' g' ∧
        Opened h0 g0 i h g h' g' ∧ ∃ m, N = m + 1 ∧ Zip (expandedId h0 g0) c c' m (g'.chain c)
          (g'.chain c') (h'.next (.head g0.info i)))
      (unzipOneSegment (.head g0.info i) (g0.n * 2 - 1)) h g := by
  have hr := hu.rep
  have hn := hu.n
  have hc : c < g.n := by omega
  have hc' : c' < g.n := by omega
  have hne : c ≠ c' := by omega
  have hmod : c % g0.n = i := by
    rcases hcc with ⟨rfl, -⟩ | ⟨rfl, -⟩
    · exact Nat.mod_eq_of_lt hi
    · rw [Nat.add_mod_right, Nat.mod_eq_of_lt hi]
  have hcls : ∀ p ∈ g.chain c, expandedId h0 g0 p = c ∨ expandedId h0 g0 p = c' := by
    intro p hp
    have h1 := hf.expandedId_cases hi (hmod ▸ hu.sub c hc p hp)
    omega
  obtain ⟨m, u, r, t, rfl, hchain, hr0, hxc, hrc, htc, hx', hsuf, hzip⟩ :=
    hz.cut hne (hr.chain_nodup hc) hcls
  have hxmem : x ∈ g.chain c := by rw [hchain]; simp
  have honly : ∀ k < g.n, x ∈ g.chain k → k = c := by
    intro k hk hxk
    have h1 := hf.disjoint (Nat.mod_lt _ hf.pos) hi (hu.sub k hk x hxk) (hmod ▸ hu.sub c hc x hxmem)
    have h2 : k = i ∨ k = i + g0.n := by
      by_cases hlt : k < g0.n
      · rw [Nat.mod_eq_of_lt hlt] at h1
        exact Or.inl h1
      · rw [Nat.mod_eq_sub_mod (by omega), Nat.mod_eq_of_lt (by omega)] at h1
        omega
    by_contra hkc
    have h3 : k = c' := by omega
    exact hx' (h3 ▸ hxk)
  have hxnode : ∀ b a, x ≠ .head b a := by
    rintro b a rfl
    exact hr.head_notMem hc hxmem
  rw [← hn]
  refine (unzipOneSegment_guarded hr hc hne hchain (by rw [hu.slot, hxc]) hr0
    (fun q hq => by rw [hu.slot, hrc q hq]) (fun q hq => by rw [hu.slot, htc q hq]) honly hclean
    hu.old_not_arrs (hu.accessible_old hi) hcur).mono ?_
  rintro _ h' g' ⟨hr', rfl, rfl⟩
  refine ⟨hu.cutSegment hc hchain (fun q hq => hrc q hq ▸ hne.symm) hr',
    .cutSegment hi (hcc.imp And.left And.left) hxnode,
    .cutSegment hu hc hcc hne hcur hxnode hchain hr0 hxc hrc htc hsuf, m, rfl, ?_⟩
  rw [View.swing_chain, Function.update_self, Function.update_of_ne hne.symm, Heap.setNext_next,
    Function.update_of_ne (hxnode _ _).symm, Heap.setNext_next, Function.update_self]
  exact hzip

/-- One segment of bucket `i`. -/
theorem unzipOneSegment_zipAt {h0 : Heap K φ} {g0 : View} (hf : Flat h0 g0)
    (hu : Unzipping h0 g0 h g) {i N : ℕ} (hi : i < g0.n)
    (hz : ZipAt h0 g0 h g i N) (hcur : h.next (.head g0.info i) ≠ none) (hclean : g.clean i)
    (hclean' : g.clean (i + g0.n)) :
    Guarded pm (fun _ h' g' => Unzipping h0 g0 h' g' ∧ OffBucket g0 i h g h' g' ∧
        Opened h0 g0 i h g h' g' ∧ ∃ m, N = m + 1 ∧ ZipAt h0 g0 h' g' i m)
      (unzipOneSegment (.head g0.info i) (g0.n * 2 - 1)) h g := by
  obtain ⟨x, hx⟩ := Option.ne_none_iff_exists'.mp hcur
  unfold ZipAt at hz
  rw [hx] at hz
  cases hz with
  | left hz => exact unzipOneSegment_zipped hf hu hi (Or.inl ⟨rfl, rfl⟩) hx hclean' hz
  | right hz =>
    refine (unzipOneSegment_zipped hf hu hi (Or.inr ⟨rfl, rfl⟩) hx hclean hz).mono ?_
    rintro _ h' g' ⟨h1, h2, h3, m, h4, h5⟩
    exact ⟨h1, h2, h3, m, h4, h5.symm⟩

/-! ### The loop over the buckets and the loop of `unzip` -/

/-- One pass of the loop over the buckets. -/
def unzipBucket (bucketsInfoOld bucketMaskNew iHalf : ℕ) (allFinished : Bool) : Code K φ Bool := do
  if (← load (.head bucketsInfoOld iHalf)) ≠ none then
    unzipOneSegment (.head bucketsInfoOld iHalf) bucketMaskNew
    return false
  return allFinished

/-- One round of `unzip`. -/
def unzipRound (bucketsInfoOld bucketMaskNew : ℕ) : Code K φ (Unit ⊕ Unit) := do
  let nr ← Prog.lift (.nrBuckets bucketsInfoOld)
  let allFinished ← Prog.forRange nr true (unzipBucket bucketsInfoOld bucketMaskNew)
  if allFinished then pure (.inr ())
  else
    rcuSynchronize
    pure (.inl ())

theorem unzip_eq (bucketsInfoOld bucketMaskNew : ℕ) :
    (unzip bucketsInfoOld bucketMaskNew : Code K φ Unit) =
      Prog.loop (fun _ => unzipRound bucketsInfoOld bucketMaskNew) () := rfl

theorem OffBucket.refl (g0 : View) (i : ℕ) (h : Heap K φ) (g : View) : OffBucket g0 i h g h g :=
  ⟨fun _ _ => rfl, fun _ _ _ => ⟨rfl, rfl⟩, fun _ _ _ => ⟨id, id⟩⟩

theorem unzipBucket_guarded {h0 : Heap K φ} {g0 : View} (hf : Flat h0 g0) (hu : Unzipping h0 g0 h g)
    {i N : ℕ} {b : Bool} (hi : i < g0.n) (hz : ZipAt h0 g0 h g i N) (hclean : g.clean i)
    (hclean' : g.clean (i + g0.n)) :
    Guarded pm (fun b' h' g' => Unzipping h0 g0 h' g' ∧ OffBucket g0 i h g h' g' ∧
        (h.next (.head g0.info i) = none ∧ b' = b ∧ h' = h ∧ g' = g ∨
          b' = false ∧ Opened h0 g0 i h g h' g' ∧ ∃ m, N = m + 1 ∧ ZipAt h0 g0 h' g' i m))
      (unzipBucket g0.info (g0.n * 2 - 1) i b) h g := by
  unfold unzipBucket
  simp only [load, Prog.lift, Prog.bind_def, Prog.pure_def, Prog.act_bind, Prog.ret_bind]
  refine guarded_load hu.rep (hu.accessible_old hi) ?_
  by_cases hcur : h.next (.head g0.info i) = none
  · rw [if_neg (not_not.mpr hcur)]
    exact .ret ⟨hu, .refl g0 i h g, Or.inl ⟨hcur, rfl, rfl, rfl⟩⟩
  · rw [if_pos hcur]
    refine Sim.bind ((unzipOneSegment_zipAt hf hu hi hz hcur hclean hclean').mono ?_)
    rintro _ h' g' ⟨hu', hoff, hopen⟩
    exact .ret ⟨hu', hoff, Or.inr ⟨rfl, hopen⟩⟩

section Rounds

variable {h0 hs : Heap K φ} {g0 gs : View} {N : ℕ → ℕ} {k i m m' : ℕ} {b : Bool}

theorem Behind.path (hu : Unzipping h0 g0 h g) (hi : i < g0.n) (hb : Behind h0 g0 h g i m) :
    ∃ s, Path h.next (h.next (.head g0.info i)) s ∧ segments (expandedId h0 g0) s - 1 = m := by
  have hn := hu.n
  obtain ⟨s, hsuf, hhead, hseg⟩ := hb
  refine ⟨s, ?_, hseg⟩
  rw [← hhead]
  rcases hsuf with hsuf | hsuf
  · exact (hu.rep.chain_path (by omega)).of_suffix hsuf
  · exact (hu.rep.chain_path (by omega)).of_suffix hsuf

theorem Behind.det (hu : Unzipping h0 g0 h g) (hi : i < g0.n) (hb : Behind h0 g0 h g i m)
    (hb' : Behind h0 g0 h g i m') : m = m' := by
  obtain ⟨s, hs, rfl⟩ := hb.path hu hi
  obtain ⟨s', hs', rfl⟩ := hb'.path hu hi
  rw [hs.det hs']

/-- There is a cursor as long as something is zipped behind it. -/
theorem cursor_eq_none (hz : ZipAt h0 g0 h g i m) (hb : Behind h0 g0 h g i m) :
    h.next (.head g0.info i) = none ↔ m = 0 := by
  constructor
  · intro hnone
    obtain ⟨s, -, hhead, rfl⟩ := hb
    rw [hnone, List.head?_eq_none_iff] at hhead
    rw [hhead]
    rfl
  · rintro rfl
    exact Zip.of_zero hz

/-- The table in a round that has come to bucket `k`: at the start, in the heap `hs`, `N i` segments were
zipped behind the cursor of bucket `i`. -/
structure Passing (h0 : Heap K φ) (g0 : View) (N : ℕ → ℕ) (hs : Heap K φ) (gs : View) (k : ℕ) (b : Bool)
    (h : Heap K φ) (g : View) : Prop where
  unzipping : Unzipping h0 g0 h g
  ahead : ∀ i < g0.n, k ≤ i → ZipAt h0 g0 h g i (N i) ∧ Behind h0 g0 h g i (N i) ∧ g.clean i ∧
    g.clean (i + g0.n)
  passed : ∀ i < k, ZipAt h0 g0 h g i (N i - 1) ∧ Behind h0 g0 h g i (N i - 1)
  finished : b = true ↔ ∀ i < k, N i = 0
  still : b = true → h = hs ∧ g = gs

/-- The start of a round. -/
theorem Passing.start (hu : Unzipping h0 g0 h g) (hz : ∀ i < g0.n, ZipAt h0 g0 h g i (N i))
    (hb : ∀ i < g0.n, Behind h0 g0 h g i (N i)) (hclean : ∀ j, g.clean j) :
    Passing h0 g0 N h g 0 true h g where
  unzipping := hu
  ahead i hi _ := ⟨hz i hi, hb i hi, hclean i, hclean (i + g0.n)⟩
  passed := by simp
  finished := by simp
  still _ := ⟨rfl, rfl⟩

/-- The grace period at the end of a round is the start of the next one. -/
theorem Passing.synced (hp : Passing h0 g0 N hs gs g0.n b h g) :
    Passing h0 g0 (fun i => N i - 1) h g.synced 0 true h g.synced :=
  .start hp.unzipping.synced (fun i hi => (hp.passed i hi).1) (fun i hi => (hp.passed i hi).2) fun _ => trivial

/-- One pass: nothing is zipped any more, or a call opens the zip by one segment. -/
theorem Passing.pass (hf : Flat h0 g0) (hp : Passing h0 g0 N hs gs k b h g) (hk : k < g0.n) :
    Guarded pm (fun b' h' g' => Passing h0 g0 N hs gs (k + 1) b' h' g' ∧
        (h.next (.head g0.info k) = none ∧ b' = b ∧ h' = h ∨ b' = false ∧ Opened h0 g0 k h g h' g'))
      (unzipBucket g0.info (g0.n * 2 - 1) k b) h g := by
  have hu := hp.unzipping
  obtain ⟨hz, hb, hc, hc'⟩ := hp.ahead k hk le_rfl
  refine (unzipBucket_guarded hf hu hk hz hc hc').mono ?_
  rintro b' h' g' ⟨hu', hoff, hcase⟩
  have hahead : ∀ i < g0.n, k + 1 ≤ i → ZipAt h0 g0 h' g' i (N i) ∧ Behind h0 g0 h' g' i (N i) ∧
      g'.clean i ∧ g'.clean (i + g0.n) := by
    intro i hi hki
    obtain ⟨h1, h2, h3, h4⟩ := hp.ahead i hi (by omega)
    have h5 := hoff.clean i hi (by omega)
    exact ⟨hoff.zipAt hi (by omega) h1, hoff.behind hi (by omega) h2, h5.1 h3, h5.2 h4⟩
  have hpassed : ZipAt h0 g0 h' g' k (N k - 1) ∧ Behind h0 g0 h' g' k (N k - 1) →
      ∀ i < k + 1, ZipAt h0 g0 h' g' i (N i - 1) ∧ Behind h0 g0 h' g' i (N i - 1) := by
    intro hlast i hi
    rcases Nat.lt_succ_iff_lt_or_eq.mp hi with hi | rfl
    · obtain ⟨h1, h2⟩ := hp.passed i hi
      exact ⟨hoff.zipAt (by omega) (by omega) h1, hoff.behind (by omega) (by omega) h2⟩
    · exact hlast
  obtain ⟨hnone, rfl, rfl, rfl⟩ | ⟨rfl, hopen, m, hm, hz'⟩ := hcase
  · have hzero : N k = 0 := (cursor_eq_none hz hb).mp hnone
    refine ⟨⟨hu, hahead, hpassed ?_, ?_, hp.still⟩, Or.inl ⟨hnone, rfl, rfl⟩⟩
    · rw [hzero] at hz hb ⊢
      exact ⟨hz, hb⟩
    · rw [hp.finished, Nat.forall_lt_succ_right, hzero]
      simp
  · obtain ⟨m', hb1, hb2⟩ := hopen.behind
    have hm' : N k = m' + 1 := hb.det hu hk hb1
    obtain rfl : m = m' := by omega
    have hne : ¬ ∀ i < k + 1, N i = 0 := by
      intro h1
      have := h1 k (Nat.lt_succ_self k)
      omega
    refine ⟨⟨hu', hahead, hpassed ?_, iff_of_false Bool.false_ne_true hne,
      fun h1 => absurd h1 Bool.false_ne_true⟩, Or.inr ⟨rfl, hopen⟩⟩
    rw [hm, Nat.add_sub_cancel]
    exact ⟨hz', hb2⟩

/-- One round over all buckets. -/
theorem Passing.guarded_round (hf : Flat h0 g0) (hp : Passing h0 g0 N h g 0 true h g) :
    Guarded pm (fun b h' g' => Passing h0 g0 N h g g0.n b h' g')
      (Prog.forRange g0.n true (unzipBucket g0.info (g0.n * 2 - 1))) h g := by
  refine Sim.forRange (fun k b h' g' => Passing h0 g0 N h g k b h' g') hp ?_ ?_
  · intro k hk b h' g' hp'
    exact (hp'.pass hf hk).mono fun _ _ _ hp'' => hp''.1
  · exact fun _ _ _ hp' => hp'

/-- The longest zip gets shorter by one. -/
theorem sup_pred (n : ℕ) (N : ℕ → ℕ) :
    (Finset.range n).sup (fun i => N i - 1) = (Finset.range n).sup N - 1 :=
  (Finset.apply_sup_eq_sup_comp_of_linearOrder (fun x => x - 1) (fun _ _ hab => Nat.sub_le_sub_right hab 1)
    rfl).symm

/-- A round makes no call when nothing is zipped. -/
theorem Passing.finished_iff (hp : Passing h0 g0 N hs gs g0.n b h g) :
    b = true ↔ (Finset.range g0.n).sup N = 0 := by
  rw [hp.finished, Finset.sup_eq_zero]
  simp only [Finset.mem_range]

/-- `unzip` ends, after as many rounds as the longest zip has segments, with all twins pure. -/
theorem unzip_guarded (hf : Flat h0 g0) {Q : Unit → Heap K φ → View → Prop}
    (hQ : ∀ h g, Unzipping h0 g0 h g → (∀ p, ¬ g.dirty p ∧ ¬ g.mixed p) →
      (∀ i < g0.n, h.next (.head g0.info i) = none ∧ ZipAt h0 g0 h g i 0) → Q () h g) :
    ∀ (M : ℕ) (N : ℕ → ℕ) (h : Heap K φ) (g : View), (Finset.range g0.n).sup N = M →
      Passing h0 g0 N h g 0 true h g → (∀ p, ¬ g.dirty p ∧ ¬ g.mixed p) →
      Guarded pm Q (unzip g0.info (g0.n * 2 - 1)) h g := by
  intro M
  simp only [unzip_eq, unzipRound, rcuSynchronize, Prog.lift, Prog.bind_def, Prog.pure_def,
    Prog.act_bind, Prog.ret_bind, Prog.loop]
  induction M with
  | zero =>
    intro N h g hM hp hdirty
    refine Sim.unroll (guarded_nrBuckets hp.unzipping.rep hp.unzipping.live ?_)
    rw [hp.unzipping.nr]
    refine Sim.bind ((hp.guarded_round hf).mono ?_)
    intro b h' g' hp'
    obtain rfl := hp'.finished_iff.mpr hM
    obtain ⟨rfl, rfl⟩ := hp'.still rfl
    refine .ret (.ret (hQ h' g' hp.unzipping hdirty ?_))
    intro i hi
    obtain ⟨hz, hb⟩ := hp'.passed i hi
    rw [hp'.finished.mp rfl i hi] at hz hb
    exact ⟨(cursor_eq_none hz hb).mpr rfl, hz⟩
  | succ M ih =>
    intro N h g hM hp hdirty
    refine Sim.unroll (guarded_nrBuckets hp.unzipping.rep hp.unzipping.live ?_)
    rw [hp.unzipping.nr]
    refine Sim.bind ((hp.guarded_round hf).mono ?_)
    intro b h' g' hp'
    have hb : b = false := by
      rw [← Bool.not_eq_true, hp'.finished_iff]
      omega
    subst hb
    refine guarded_synchronize hp'.unzipping.rep fun _ => .ret ?_
    refine ih _ h' g'.synced ?_ hp'.synced fun _ => ⟨id, id⟩
    rw [sup_pred, hM, Nat.add_sub_cancel]

end Rounds

end RcuTable
