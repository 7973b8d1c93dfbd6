import RcuTable.Lib.Segments
import RcuTable.Table.Resize

/-!
# Table.Expand — doubling the number of buckets

The new array is published first: its buckets `i` and `i + n` start in the middle of the old chain `i`, at
the first node of their class, so both chains are supersets of what they should be, zipped into one another.
Then the zip is opened segment by segment, a grace period between two rounds.  The heads of the old array
serve as cursors: the cursor of bucket `i` is the last node of the segment whose end is cut next.
-/

namespace RcuTable

open Atomic Chain Segments

variable {K φ : Type} {pm : Perm K φ} {h : Heap K φ} {g : View}

/-- The first elements of the classes `d0` and `d1`, when one more element is looked at. -/
theorem twin_candidates (cls : Ptr → ℕ) {d0 d1 : ℕ} (hne : d0 ≠ d1) (s : List Ptr) {q : Ptr}
    (hq : cls q = d0 ∨ cls q = d1) :
    (if s.find? (fun p => cls p = d0) = none ∧ cls q = d0 then (some q, s.find? fun p => cls p = d1)
      else if s.find? (fun p => cls p = d1) = none ∧ cls q = d1 then (s.find? fun p => cls p = d0, some q)
      else (s.find? fun p => cls p = d0, s.find? fun p => cls p = d1)) =
      ((s ++ [q]).find? fun p => cls p = d0, (s ++ [q]).find? fun p => cls p = d1) := by
  simp only [List.find?_append, List.find?_cons, List.find?_nil]
  rcases hq with hq | hq
  · cases h0 : s.find? (fun p => cls p = d0) <;> simp [hq, hne]
  · cases h1 : s.find? (fun p => cls p = d1) <;> simp [hq, hne.symm]

theorem initTwinDstBuckets_guarded (hr : Rep h g) {i b d0 d1 mask : ℕ} (hi : i < g.n) (hne : d0 ≠ d1)
    (hcls : ∀ p ∈ g.chain i, h.hash p &&& mask = d0 ∨ h.hash p &&& mask = d1) (hb : ¬ g.arrs b)
    (ha0 : h.accessible (.head b d0) = true) (ha1 : h.accessible (.head b d1) = true) :
    Guarded pm (fun _ h' g' => g' = g ∧ Rep h' g ∧
        h' = (h.setNext (.head b d0) ((g.chain i).find? fun p => h.hash p &&& mask = d0)).setNext
          (.head b d1) ((g.chain i).find? fun p => h.hash p &&& mask = d1))
      (initTwinDstBuckets (.head g.info i) (.head b d0) (.head b d1) d0 d1 mask) h g := by
  unfold initTwinDstBuckets
  simp only [load, store, computeHashBucketId, assert, Prog.lift, Prog.bind_def, Prog.pure_def,
    Prog.act_bind, Prog.ret_bind, Prog.loop_bind]
  refine guarded_load hr (hr.accessible_head hi) ?_
  rw [hr.next_head hi]
  -- the two candidates are the first nodes of either class in the part `s` of the chain passed so far
  obtain ⟨s, l, hs, hl⟩ : ∃ s l, s = [] ∧ l = g.chain i := ⟨_, _, rfl, rfl⟩
  have hsplit : g.chain i = s ++ l := by simp [hs, hl]
  have hpath : Path h.next l.head? l := hl ▸ hr.chain_path hi
  have hst : ((g.chain i).head?, (none : Option Ptr), (none : Option Ptr)) =
      (l.head?, s.find? (fun p => h.hash p &&& mask = d0),
        s.find? fun p => h.hash p &&& mask = d1) := by simp [hs, hl]
  rw [hst]
  clear hst hs hl
  induction l generalizing s with
  | nil =>
    rw [List.append_nil] at hsplit
    refine Sim.unroll (.ret ?_)
    rw [← hsplit]
    refine guarded_storeHead hr hb ha0 fun hr1 => guarded_storeHead hr1 hb ha1 ?_
    intro hr2
    exact .ret ⟨rfl, hr2, rfl⟩
  | cons q l ih =>
    obtain ⟨-, hpath⟩ := hpath
    have hqmem : q ∈ g.chain i := by rw [hsplit]; simp
    have hqc := hcls q hqmem
    have hl : h.next q = l.head? := hpath.head
    refine Sim.unroll ?_
    simp only [List.head?_cons]
    refine guarded_loadHash hr ?_
    rw [if_pos (by simpa using hqc)]
    simp only [Prog.ret_bind]
    have hstep := twin_candidates (fun p => h.hash p &&& mask) hne s hqc
    have hsplit' : g.chain i = (s ++ [q]) ++ l := by simp [hsplit]
    rw [hstep]
    by_cases hboth : (s ++ [q]).find? (fun p => h.hash p &&& mask = d0) ≠ none ∧
        (s ++ [q]).find? (fun p => h.hash p &&& mask = d1) ≠ none
    · rw [if_pos hboth]
      obtain ⟨x, hx⟩ := Option.ne_none_iff_exists'.mp hboth.1
      obtain ⟨y, hy⟩ := Option.ne_none_iff_exists'.mp hboth.2
      have hx' : (g.chain i).find? (fun p => h.hash p &&& mask = d0) = some x := by
        rw [hsplit', List.find?_append, hx, Option.some_or]
      have hy' : (g.chain i).find? (fun p => h.hash p &&& mask = d1) = some y := by
        rw [hsplit', List.find?_append, hy, Option.some_or]
      rw [hx, hy, hx', hy']
      refine .ret (guarded_storeHead hr hb ha0 fun hr1 => guarded_storeHead hr1 hb ha1 ?_)
      intro hr2
      exact .ret ⟨rfl, hr2, rfl⟩
    · rw [if_neg hboth]
      refine guarded_load hr (hr.accessible_of_mem hi hqmem) (.ret ?_)
      rw [hl]
      exact ih (s ++ [q]) hsplit' (hl ▸ hpath)

/-! ### The published array -/

/-- The bucket of a node in the doubled table. -/
def expandedId (h : Heap K φ) (g : View) (p : Ptr) : ℕ := h.hash p &&& (g.n * 2 - 1)

theorem expandedId_eq (hr : Rep h g) (p : Ptr) : expandedId h g p = h.hash p % (g.n * 2) := by
  obtain ⟨k, hk⟩ := hr.pow
  rw [expandedId, hk, ← pow_succ, Nat.and_two_pow_sub_one_eq_mod]

theorem expandedId_lt (hr : Rep h g) (p : Ptr) : expandedId h g p < g.n * 2 := by
  have := hr.pos
  rw [expandedId_eq hr]
  exact Nat.mod_lt _ (by omega)

/-- Bucket `i` is divided between the buckets `i` and `i + n`. -/
theorem Flat.expandedId_mod (hf : Flat h g) {i : ℕ} (hi : i < g.n) {p : Ptr} (hp : p ∈ g.chain i) :
    expandedId h g p % g.n = i := by
  rw [expandedId_eq hf.toRep, Nat.mod_mul_right_mod]
  exact hf.mod hi hp

theorem Flat.expandedId_cases (hf : Flat h g) {i : ℕ} (hi : i < g.n) {p : Ptr} (hp : p ∈ g.chain i) :
    expandedId h g p = i ∨ expandedId h g p = i + g.n := by
  have h1 := hf.expandedId_mod hi hp
  have h2 := expandedId_lt hf.toRep p
  by_cases hlt : expandedId h g p < g.n
  · rw [Nat.mod_eq_of_lt hlt] at h1
    exact Or.inl h1
  · rw [Nat.mod_eq_sub_mod (by omega), Nat.mod_eq_of_lt (by omega)] at h1
    omega

/-- The view that an expand publishes as array `b`: bucket `j` starts in the middle of an old chain. -/
def View.expand (h : Heap K φ) (g : View) (b : ℕ) : View where
  info := b
  n := g.n * 2
  chain j := (g.chain (j % g.n)).dropWhile fun p => expandedId h g p ≠ j
  clean _ := False
  dirty := g.dirty
  arrs b' := g.arrs b' ∨ b' = b
  mixed _ := True

/-- The state in front of the publication of an expand. -/
structure TwinsReady (h : Heap K φ) (g : View) (k : ℕ) (h' : Heap K φ) : Prop where
  rep : Rep h' g
  onlyNext : OnlyNext (h.withArray (g.n * 2)) h'
  heads : ∀ a < k, h'.next (.head h.fresh a) = (g.chain a).find? (fun p => expandedId h g p = a) ∧
    h'.next (.head h.fresh (a + g.n)) = (g.chain a).find? fun p => expandedId h g p = a + g.n

theorem guarded_initAll (hf : Flat h g) (hr : Rep (h.withArray (g.n * 2)) g)
    {Q : Unit → Heap K φ → View → Prop} (hQ : ∀ h', TwinsReady h g g.n h' → Q () h' g) :
    Guarded pm Q (Prog.forRange g.n () fun iHalf _ =>
      initTwinDstBuckets (.head g.info iHalf) (.head h.fresh iHalf) (.head h.fresh (iHalf + g.n)) iHalf
        (iHalf + g.n) (g.n * 2 - 1)) (h.withArray (g.n * 2)) g := by
  have hpos := hf.pos
  refine Sim.forRange (fun k _ h' g' => g' = g ∧ TwinsReady h g k h')
    ⟨rfl, hr, .refl _, by simp⟩ ?_ ?_
  · rintro i hi _ h' g' ⟨hg, ht⟩
    rw [hg]
    have hhash : h'.hash = h.hash := ht.onlyNext.hash
    have hacc : ∀ a < g.n * 2, h'.accessible (.head h.fresh a) = true := fun a ha => by
      rw [ht.onlyNext.accessible]
      exact h.accessible_withArray ha
    refine (initTwinDstBuckets_guarded ht.rep hi (by omega) ?_ hf.fresh_not_arrs
      (hacc i (by omega)) (hacc (i + g.n) (by omega))).mono ?_
    · intro p hp
      rw [hhash]
      exact hf.expandedId_cases hi hp
    · rintro _ h'' g'' ⟨rfl, hr', rfl⟩
      refine ⟨rfl, hr', (ht.onlyNext.setNext _ _).setNext _ _, fun a ha => ?_⟩
      rw [hhash]
      rcases Nat.lt_succ_iff_lt_or_eq.mp ha with ha | rfl
      · have h1 : a ≠ i := by omega
        have h2 : a ≠ i + g''.n := by omega
        have h3 : a + g''.n ≠ i := by omega
        simpa [h1, h2, h3] using ht.heads a ha
      · have h1 : Ptr.head h.fresh a ≠ .head h.fresh (a + g''.n) := by
          simp only [ne_eq, Ptr.head.injEq, not_and]
          omega
        refine ⟨?_, Function.update_self _ _ _⟩
        rw [Heap.setNext_next, Function.update_of_ne h1]
        exact Function.update_self _ _ _
  · rintro _ h' g' ⟨rfl, ht⟩
    exact hQ h' ht

theorem View.expand_slot {h' : Heap K φ} {b : ℕ} (hhash : h'.hash = h.hash) (p : Ptr) :
    (View.expand h g b).slot (h'.hash p) = expandedId h g p := by
  rw [hhash]
  rfl

theorem View.mem_expand {b j : ℕ} {p : Ptr} (hp : p ∈ (View.expand h g b).chain j) :
    p ∈ g.chain (j % g.n) := (List.dropWhile_suffix _).subset hp

/-- A node is in the bucket of its hash, wherever else it is. -/
theorem Flat.mem_expand_home (hf : Flat h g) {i b : ℕ} (hi : i < g.n) {p : Ptr} (hp : p ∈ g.chain i) :
    p ∈ (View.expand h g b).chain (expandedId h g p) := by
  show p ∈ (g.chain (expandedId h g p % g.n)).dropWhile fun q => expandedId h g q ≠ expandedId h g p
  rw [hf.expandedId_mod hi hp]
  exact mem_dropWhile hp rfl

theorem Flat.expand_linked (hf : Flat h g) {b : ℕ} {p : Ptr} :
    (View.expand h g b).Linked p ↔ g.Linked p := by
  constructor
  · rintro ⟨j, hj, hp⟩
    exact ⟨j % g.n, Nat.mod_lt _ hf.pos, View.mem_expand hp⟩
  · rintro ⟨i, hi, hp⟩
    exact ⟨_, expandedId_lt hf.toRep p, hf.mem_expand_home hi hp⟩

theorem TwinsReady.publish (hf : Flat h g) {h' : Heap K φ} (ht : TwinsReady h g g.n h') :
    Publish h' g h.fresh (View.expand h g h.fresh) where
  rep := by
    have hr := ht.rep
    have hpos := hf.pos
    have hhash : h'.hash = h.hash := ht.onlyNext.hash
    refine ⟨rfl, ?_, ?_, Or.inr rfl, ?_, hr.null, hr.fresh, ?_,
      ?_, ?_⟩
    · show h'.nrBucketsPowerOf2 h.fresh = g.n * 2
      rw [ht.onlyNext.nr, h.withArray_nr]
    · obtain ⟨k, hk⟩ := hf.pow
      exact ⟨k + 1, by show g.n * 2 = 2 ^ (k + 1); rw [hk, pow_succ]⟩
    · intro b' hb'
      rcases hb' with hb' | rfl
      · exact hr.live b' hb'
      · show h'.live h.fresh = true ∧ 0 < h'.nrBucketsPowerOf2 h.fresh
        rw [ht.onlyNext.live, ht.onlyNext.nr, h.withArray_nr]
        exact ⟨h.withArray_live _, by omega⟩
    · intro j hj
      have hj : j < g.n * 2 := hj
      refine ⟨rfl, ?_⟩
      show Path h'.next (h'.next (.head h.fresh j))
        ((g.chain (j % g.n)).dropWhile fun p => expandedId h g p ≠ j)
      have hhead : h'.next (.head h.fresh j) =
          ((g.chain (j % g.n)).dropWhile fun p => expandedId h g p ≠ j).head? := by
        rw [head?_dropWhile]
        by_cases hlt : j < g.n
        · rw [Nat.mod_eq_of_lt hlt]
          exact (ht.heads j hlt).1
        · have h1 := (ht.heads (j - g.n) (by omega)).2
          rw [Nat.sub_add_cancel (by omega)] at h1
          rw [Nat.mod_eq_sub_mod (by omega), Nat.mod_eq_of_lt (by omega)]
          exact h1
      rw [hhead]
      exact (hr.chain_path (Nat.mod_lt _ hpos)).of_suffix (List.dropWhile_suffix _)
    · intro j hj p hp
      exact hf.node _ (Nat.mod_lt _ hpos) p (View.mem_expand hp)
    · intro j hj p hp
      show p ∈ (View.expand h g h.fresh).chain ((View.expand h g h.fresh).slot (h'.hash p))
      rw [View.expand_slot hhash]
      exact hf.mem_expand_home (Nat.mod_lt _ hpos) (View.mem_expand hp)
  linked _ := hf.expand_linked
  arrs _ := Iff.rfl
  new := hf.fresh_not_arrs
  clean _ := id
  dirty := rfl
  mixed _ := trivial

end RcuTable
