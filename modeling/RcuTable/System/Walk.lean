import RcuTable.Table.Session

/-!
# System.Walk — what lies ahead of a reader, and what the writer does to it

`Change` is a step of the writer's side as the readers meet it: a step of `Guar`, or the caller's writes to a
node that no reader can see.  What readers can see is closed under following pointers (`Closed`), and the
itinerary of a lookup, the cells ahead of it and the nodes it has passed, keeps the form `Walk`.
-/

namespace RcuTable

open Chain

variable {K φ : Type}

/-- A step of the writer, or of the caller between two calls; what it links is allowed. -/
inductive Change (allow : Heap K φ → View → Ptr → Prop) (h : Heap K φ) (g : View) :
    Heap K φ → View → Prop
  | guar {own : Ptr → Prop} {h' : Heap K φ} {g' : View} (hg : Guar ⟨own, allow⟩ h g h' g')
      (hown : ∀ p, own p → (∃ n, p = .node n) ∧ ¬ g.dirty p) : Change allow h g h' g'
  | prepare {n x : ℕ} {k : K} (hn : ¬ g.Seen (.node n)) : Change allow h g (h.prepare n x k) g

/-- Following a pointer from what readers can see leads to a node that they can see. -/
def Closed (h : Heap K φ) (g : View) : Prop :=
  ∀ p, g.Seen p → h.accessible p = true → ∀ q, h.next p = some q → g.Seen q ∧ ∃ n, q = .node n

variable {allow : Heap K φ → View → Ptr → Prop} {h h' : Heap K φ} {g g' : View} {x : ℕ} {p q : Ptr}

theorem Rep.seen_of_linked (hr : Rep h g) (hp : g.Linked p) : g.Seen p := by
  obtain ⟨n, rfl⟩ := hr.linked_node hp
  exact Or.inl hp

/-- The first node of a bucket, or behind a linked node. -/
theorem Rep.linked_next (hr : Rep h g) {j : ℕ} (hj : j < g.n) (hp : p ∈ g.full j)
    (hq : h.next p = some q) : g.Linked q := by
  obtain ⟨s, t, hst⟩ := List.append_of_mem hp
  have hpath := hr.path j hj
  rw [hst] at hpath
  have hqt : t.head? = some q := hpath.next_eq.symm.trans hq
  have hqmem : q ∈ t := List.mem_of_mem_head? hqt
  refine ⟨j, hj, ?_⟩
  have hfull : Ptr.head g.info j :: g.chain j = s ++ p :: t := hst
  cases s with
  | nil => exact (List.cons.inj hfull).2 ▸ hqmem
  | cons y s => exact (List.cons.inj hfull).2 ▸ List.mem_append_right _ (List.mem_cons_of_mem _ hqmem)

theorem Rep.closed_synced (hr : Rep h g) : Closed h g.synced := by
  intro p hp hacc q hq
  have hlinked : g.Linked q := by
    cases p with
    | head b i =>
      obtain rfl : b = g.info := hp
      have hi : i < g.n := by
        simp only [Heap.accessible, Bool.and_eq_true, decide_eq_true_eq, hr.nr] at hacc
        exact hacc.2
      exact hr.linked_next hi List.mem_cons_self hq
    | node n =>
      rcases hp with ⟨j, hj, hp⟩ | hp
      · exact hr.linked_next hj (g.mem_full.mpr (Or.inr hp)) hq
      · exact absurd hp id
  obtain ⟨n, rfl⟩ := hr.linked_node hlinked
  exact ⟨Or.inl hlinked, n, rfl⟩

/-! ### What a change keeps -/

/-- No change is one. -/
theorem Change.refl (hr : Rep h g) : Change allow h g h g :=
  .guar (.quiet (.refl hr)) fun _ ho => absurd ho id

theorem Guar.arrs {pm : Perm K φ} (hg : Guar pm h g h' g') {b : ℕ} (hb : g.arrs b) : g'.arrs b := by
  cases hg with
  | publish hp => exact (hp.arrs b).mpr (Or.inl hb)
  | _ => exact hb

theorem Guar.seen_node {pm : Perm K φ} (hr : Rep h g) (hg : Guar pm h g h' g') {n : ℕ}
    (hp : g.Seen (.node n)) : g'.Seen (.node n) := by
  cases hg with
  | quiet => exact hp
  | link _ _ _ hj => exact hp.imp_left fun hl => (View.link_linked (hj ▸ hr.slot_lt _)).mpr (Or.inl hl)
  | @swing j s c old new =>
    by_cases hl : (g.swing j (s ++ c :: new).tail).Linked (.node n)
    · exact Or.inl hl
    · exact Or.inr (hp.symm.imp_right fun hg => ⟨hg, hl⟩)
  | publish hp' =>
    refine hp.imp (hp'.linked _).mpr ?_
    intro hd
    rw [hp'.dirty]
    exact hd

/-- Readers never lose sight of a cell without a grace period. -/
theorem Change.seen (hr : Rep h g) (hc : Change allow h g h' g') (hp : g.Seen p) : g'.Seen p := by
  cases hc with
  | guar hg =>
    cases p with
    | head b i => exact hg.arrs hp
    | node n => exact hg.seen_node hr hp
  | prepare => exact hp

theorem Change.rep (hr : Rep h g) (hc : Change allow h g h' g') : Rep h' g' := by
  cases hc with
  | guar hg => exact hg.rep hr
  | @prepare n x k hn =>
    refine hr.congr rfl (fun _ _ => ⟨rfl, rfl⟩) hr.null hr.fresh (fun _ _ _ _ => rfl) ?_
    intro p hp
    exact Function.update_of_ne (by rintro rfl; exact hn (Or.inl hp)) _ _

/-- A new array apart, the arrays in sight are the old ones, with their sizes. -/
theorem Change.nr (hc : Change allow h g h' g') {b : ℕ} (hb : g.arrs b) :
    h'.nrBucketsPowerOf2 b = h.nrBucketsPowerOf2 b := by
  cases hc with
  | guar hg =>
    cases hg with
    | quiet hq => exact hq.nr b hb
    | _ => rfl
  | prepare => rfl

theorem Change.accessible (hr : Rep h g) (hc : Change allow h g h' g') (hp : g.Seen p) :
    h'.accessible p = h.accessible p := by
  cases p with
  | node n => rfl
  | head b i =>
    have h1 := ((hc.rep hr).live b (hc.seen hr hp)).1
    have h2 := (hr.live b hp).1
    simp only [Heap.accessible, h1, h2, hc.nr hp]

/-- The data around a node in sight stays. -/
theorem Change.key (hc : Change allow h g h' g') (hp : g.Seen p) : h'.key p = h.key p := by
  cases hc with
  | guar hg =>
    cases hg with
    | quiet hq => rw [hq.key]
    | _ => rfl
  | prepare hn => exact Function.update_of_ne (by rintro rfl; exact hn hp) _ _

/-- So does the hash in a linked one. -/
theorem Change.hash (hc : Change allow h g h' g') (hp : g.Linked p) (hr : Rep h g) : h'.hash p = h.hash p := by
  cases hc with
  | guar hg =>
    cases hg with
    | quiet hq => exact hq.hash p hp
    | _ => rfl
  | prepare hn => exact Function.update_of_ne (by rintro rfl; exact hn (hr.seen_of_linked hp)) _ _

/-- A quiet step changes no pointer in sight. -/
theorem Quiet.next_seen {pm : Perm K φ} (hq : Quiet pm h g h')
    (hown : ∀ p, pm.own p → (∃ n, p = .node n) ∧ ¬ g.dirty p) (hp : g.Seen p) : h'.next p = h.next p := by
  refine hq.next p hp ?_
  intro ho
  obtain ⟨⟨n, rfl⟩, hd⟩ := hown p ho
  exact hp.resolve_right hd

theorem Closed.change (hr : Rep h g) (hcl : Closed h g) (hc : Change allow h g h' g') : Closed h' g' := by
  intro p hp hacc q hq
  have hr' := hc.rep hr
  -- a pointer that was there before leads to what was in sight before
  have hold : g.Seen p → h'.next p = h.next p → g'.Seen q ∧ ∃ n, q = .node n := by
    intro hs hn
    rw [hc.accessible hr hs] at hacc
    rw [hn] at hq
    exact (hcl p hs hacc q hq).imp_left (hc.seen hr)
  have hnew : ∀ j < g'.n, p ∈ g'.full j → g'.Seen q ∧ ∃ n, q = .node n := by
    intro j hj hpj
    have hl := hr'.linked_next hj hpj hq
    exact ⟨hr'.seen_of_linked hl, hr'.linked_node hl⟩
  have hlinked : g'.Linked p → g'.Seen q ∧ ∃ n, q = .node n := by
    rintro ⟨j, hj, hpj⟩
    exact hnew j hj (g'.mem_full.mpr (Or.inr hpj))
  cases hc with
  | guar hg hown =>
    cases hg with
    | quiet hq' => exact hold hp (hq'.next_seen hown hp)
    | @link j n hown' _ hnot hj hnext =>
      have hjn : j < g.n := hj ▸ hr.slot_lt _
      by_cases hpj : p = .head g.info j
      · subst hpj
        exact hnew j hjn List.mem_cons_self
      · by_cases hpn : p = .node n
        · subst hpn
          exact hlinked ((View.link_linked hjn).mpr (Or.inr rfl))
        · refine hold ?_ (Function.update_of_ne hpj _ _)
          cases p with
          | head b i => exact hp
          | node m =>
            exact hp.imp_left fun hl => ((View.link_linked hjn).mp hl).resolve_right hpn
    | @swing j s c old new hs =>
      by_cases hpc : p = c
      · subst hpc
        exact hnew j hs.lt (by rw [hs.full_new]; simp)
      · refine hold ?_ (Function.update_of_ne hpc _ _)
        cases p with
        | head b i => exact hp
        | node m =>
          rcases hp with hl | hd | ⟨hl, -⟩
          · exact Or.inl (hs.linked_of hl)
          · exact Or.inr hd
          · exact Or.inl hl
    | @publish b _ hpub =>
      cases p with
      | node m =>
        refine hold ?_ rfl
        rcases hp with hl | hd
        · exact Or.inl ((hpub.linked _).mp hl)
        · rw [hpub.dirty] at hd
          exact Or.inr hd
      | head b' i =>
        rcases (hpub.arrs b').mp hp with hb | rfl
        · exact hold hb rfl
        · have hinfo : b' = g'.info := hpub.rep.info
          have hi : i < g'.n := by
            simp only [Heap.accessible, Bool.and_eq_true, decide_eq_true_eq] at hacc
            rw [← hr'.nr, ← hinfo]
            exact hacc.2
          exact hnew i hi (by rw [hinfo]; exact List.mem_cons_self)
  | prepare hn => exact hold hp rfl

/-! ### The itinerary of a lookup -/

/-- A lookup for the hash value `x` is at the pointer `v` and has passed the nodes `d`; the cells `l` lie
ahead.  `E` holds of the nodes that it may meet. -/
structure Walk (h : Heap K φ) (g : View) (x : ℕ) (E : Ptr → Prop) (v : Option Ptr) (l d : List Ptr) :
    Prop where
  path : Path h.next v l
  acc : ∀ p ∈ l, h.accessible p = true
  seen : ∀ p ∈ d ++ l, g.Seen p
  clean : g.clean (g.slot x) → l <:+ g.full (g.slot x)
  head : ∀ k, .head g.info k ∈ l → k = g.slot x
  /-- only a node that was in two buckets can be met on the way to another one -/
  home : ∀ p ∈ d ++ l, g.Linked p → g.slot (h.hash p) = g.slot x ∨ g.Mixed p
  nodup : (d ++ l).Nodup
  ever : ∀ p ∈ d ++ l, (∃ n, p = .node n) → E p

section Itinerary

variable {E E' : Ptr → Prop} {v : Option Ptr} {l l' d : List Ptr} {pm : Perm K φ}

/-- A node that no reader could see is not on the itinerary. -/
theorem Walk.notMem (hw : Walk h g x E v l d) (hp : ¬ g.Seen p) : p ∉ d ++ l := fun hm => hp (hw.seen p hm)

/-- The itinerary is kept by a change that leaves its pointers alone. -/
theorem Walk.keep (hr : Rep h g) (hw : Walk h g x E v l d) (hc : Change allow h g h' g')
    (hnext : ∀ p ∈ l, h'.next p = h.next p)
    (hclean : g'.clean (g'.slot x) → l <:+ g'.full (g'.slot x))
    (hhead : ∀ k, .head g'.info k ∈ l → k = g'.slot x)
    (hhome : ∀ p ∈ d ++ l, g'.Linked p → g'.slot (h'.hash p) = g'.slot x ∨ g'.Mixed p)
    (hE : ∀ p, g.Seen p → E p → E' p) : Walk h' g' x E' v l d where
  path := hw.path.congr hnext
  acc p hp := by
    rw [hc.accessible hr (hw.seen p (List.mem_append_right _ hp))]
    exact hw.acc p hp
  seen p hp := hc.seen hr (hw.seen p hp)
  clean := hclean
  head := hhead
  home := hhome
  nodup := hw.nodup
  ever p hp hn := hE p (hw.seen p hp) (hw.ever p hp hn)

theorem View.Mixed.link {j n : ℕ} (hm : g.Mixed p) : (g.link j (.node n)).Mixed p := by
  rcases hm with hm | ⟨i, hi, k, hk, hne, hpi, hpk⟩
  · exact Or.inl hm
  · exact Or.inr ⟨i, hi, k, hk, hne, View.mem_link.mpr (Or.inl hpi), View.mem_link.mpr (Or.inl hpk)⟩

/-- Behind a cell of a bucket chain the itinerary follows that chain. -/
theorem Walk.tail_eq (hr : Rep h g) (hw : Walk h g x E v l d) {j : ℕ} (hj : j < g.n) {s t s' t' : List Ptr}
    {c : Ptr} (hfull : g.full j = s ++ c :: t) (hl : l = s' ++ c :: t') : t' = t := by
  have h1 := hw.path
  have h2 := hr.path j hj
  rw [hl] at h1
  rw [hfull] at h2
  exact h1.tail_unique h2

/-- A store into a cell of the itinerary exchanges what lies behind it. -/
theorem Walk.reroute (hr : Rep h g) {s old new : List Ptr} {c : Ptr} {w : Option Ptr}
    (hw : Walk h g x E v (s ++ c :: old) d) (hc : Change allow h g (h.setNext c w) g')
    (hnew : Path h.next w new) (hcn : c ∉ new) (hinfo : g'.info = g.info) (hslot : g'.slot x = g.slot x)
    (hin : ∀ p ∈ new, p ∉ old → g'.Linked p ∧ p ∉ d ∧ E' p ∧
      (g'.slot (h.hash p) = g'.slot x ∨ g'.Mixed p))
    (hclean : g'.clean (g'.slot x) → s ++ c :: new <:+ g'.full (g'.slot x))
    (hhome : ∀ p ∈ d ++ (s ++ c :: old), g'.Linked p → g'.slot (h.hash p) = g'.slot x ∨ g'.Mixed p)
    (hE : ∀ p, g.Seen p → E p → E' p) : Walk (h.setNext c w) g' x E' v (s ++ c :: new) d := by
  have hr' := hc.rep hr
  have hpath := hw.path.redirect hnew hcn
  have hcases : ∀ p ∈ s ++ c :: new, p ∈ s ++ c :: old ∨ p ∈ new ∧ p ∉ old := by
    intro p hp
    simp only [List.mem_append, List.mem_cons] at hp ⊢
    tauto
  have hcases' : ∀ p ∈ d ++ (s ++ c :: new), p ∈ d ++ (s ++ c :: old) ∨ p ∈ new ∧ p ∉ old := by
    intro p hp
    rcases List.mem_append.mp hp with hp | hp
    · exact Or.inl (List.mem_append_left _ hp)
    · exact (hcases p hp).imp_left (List.mem_append_right _)
  refine ⟨hpath, ?_, ?_, hclean, ?_, ?_, ?_,
    ?_⟩
  · intro p hp
    rcases hcases p hp with hp | ⟨hp, hpo⟩
    · rw [hc.accessible hr (hw.seen p (List.mem_append_right _ hp))]
      exact hw.acc p hp
    · obtain ⟨n, rfl⟩ := hr'.linked_node (hin p hp hpo).1
      rfl
  · intro p hp
    rcases hcases' p hp with hp | ⟨hp, hpo⟩
    · exact hc.seen hr (hw.seen p hp)
    · exact hr'.seen_of_linked (hin p hp hpo).1
  · intro k hk
    rw [hinfo] at hk
    rw [hslot]
    rcases hcases _ hk with hk | ⟨hk, hko⟩
    · exact hw.head k hk
    · obtain ⟨n, hn⟩ := hr'.linked_node (hin _ hk hko).1
      cases hn
  · intro p hp hl
    rcases hcases' p hp with hp | ⟨hp, hpo⟩
    · exact hhome p hp hl
    · exact (hin p hp hpo).2.2.2
  · have hnd := List.nodup_append.mp hw.nodup
    refine List.nodup_append.mpr ⟨hnd.1, hpath.nodup, fun p hpd q hq => ?_⟩
    rintro rfl
    rcases hcases p hq with hq | ⟨hq, hqo⟩
    · exact hnd.2.2 p hpd p hq rfl
    · exact (hin p hq hqo).2.1 hpd
  · intro p hp hn
    rcases hcases' p hp with hp | ⟨hp, hpo⟩
    · exact hE p (hw.seen p hp) (hw.ever p hp hn)
    · exact (hin p hp hpo).2.2.1

/-- A link puts the new node behind the head of its bucket. -/
theorem Walk.link (hr : Rep h g) (hw : Walk h g x E v l d) {j n : ℕ} (hseen : ¬ g.Seen (.node n))
    (hj : g.slot (h.hash (.node n)) = j) (hnext : h.next (.node n) = (g.chain j).head?)
    (hc : Change allow h g (h.setNext (.head g.info j) (some (.node n))) (g.link j (.node n)))
    (hE : ∀ p, g.Seen p → E p → E' p) (hE' : E' (.node n)) :
    ∃ l', Walk (h.setNext (.head g.info j) (some (.node n))) (g.link j (.node n)) x E' v l' d ∧
      ∀ t ∈ l, t ∈ l' := by
  have hjn : j < g.n := hj ▸ hr.slot_lt _
  have hn := hw.notMem hseen
  have hhome : ∀ p ∈ d ++ l, (g.link j (.node n)).Linked p →
      g.slot (h.hash p) = g.slot x ∨ (g.link j (.node n)).Mixed p := by
    intro p hp hl
    rcases (View.link_linked hjn).mp hl with hl | rfl
    · exact (hw.home p hp hl).imp_right View.Mixed.link
    · exact absurd hp hn
  by_cases hcl : Ptr.head g.info j ∈ l
  · -- the head is on the itinerary, so the lookup is for this bucket and the node comes in behind it
    obtain rfl : j = g.slot x := hw.head j hcl
    obtain ⟨s, t, rfl⟩ := List.append_of_mem hcl
    obtain rfl : t = g.chain (g.slot x) := hw.tail_eq hr hjn (s := []) rfl rfl
    have hpn : Path h.next (some (.node n)) (.node n :: g.chain (g.slot x)) :=
      ⟨rfl, hnext ▸ hr.chain_path hjn⟩
    refine ⟨_, hw.reroute hr hc hpn ?_ rfl rfl ?_ ?_ hhome hE,
      ?_⟩
    · intro hm
      rcases List.mem_cons.mp hm with he | hm
      · cases he
      · exact hr.head_notMem hjn hm
    · intro p hp hpo
      obtain rfl := (List.mem_cons.mp hp).resolve_right hpo
      exact ⟨(View.link_linked hjn).mpr (Or.inr rfl), fun hd => hn (List.mem_append_left _ hd), hE',
        Or.inl hj⟩
    · intro hcle
      -- a suffix of the full chain that has the head in it is the full chain
      have hlen := (hw.clean hcle).length_le
      have hs : s = [] := by
        simp only [View.full, List.length_append, List.length_cons] at hlen
        exact List.eq_nil_of_length_eq_zero (by omega)
      rw [hs]
      simp [View.full]
    · intro t ht
      simp only [List.mem_append, List.mem_cons] at ht ⊢
      tauto
  · refine ⟨l, hw.keep hr hc (fun p hp => Function.update_of_ne (by rintro rfl; exact hcl hp) _ _)
      (fun hcle => ?_) hw.head hhome hE, fun _ => id⟩
    have hsuf := hw.clean hcle
    rw [View.link_slot]
    by_cases hjx : g.slot x = j
    · rw [hjx] at hsuf ⊢
      rcases List.suffix_cons_iff.mp hsuf with rfl | hsuf
      · exact absurd List.mem_cons_self hcl
      · refine hsuf.trans ?_
        simp only [View.full, View.link_info, View.link_chain, Function.update_self]
        exact ⟨[.head g.info j, .node n], rfl⟩
    · have hfull : (g.link j (.node n)).full (g.slot x) = g.full (g.slot x) := by
        simp [View.full, hjx]
      rw [hfull]
      exact hsuf

/-- A swing exchanges the tail behind its cell; a node that the lookup is after stays ahead. -/
theorem Walk.swing (hr : Rep h g) (hw : Walk h g x E v l d) {j : ℕ} {s old new : List Ptr} {c : Ptr}
    (hs : Swing pm h g j s c old new)
    (hc : Change allow h g (h.setNext c new.head?) (g.swing j (s ++ c :: new).tail))
    (hE : ∀ p, g.Seen p → E p → E' p) (hE' : ∀ p, (g.swing j (s ++ c :: new).tail).Linked p → E' p) :
    ∃ l', Walk (h.setNext c new.head?) (g.swing j (s ++ c :: new).tail) x E' v l' d ∧
      ∀ t ∈ l, h.hash t = x → (g.swing j (s ++ c :: new).tail).Linked t → t ∈ l' := by
  have hr' := hc.rep hr
  have hhome : ∀ p ∈ d ++ l, (g.swing j (s ++ c :: new).tail).Linked p →
      g.slot (h.hash p) = g.slot x ∨ (g.swing j (s ++ c :: new).tail).Mixed p := fun p hp hl =>
    (hw.home p hp (hs.linked_of hl)).imp_right Or.inl
  have hcfull : c ∈ g.full j := by rw [hs.full]; simp
  by_cases hcl : c ∈ l
  · -- a lookup of a clean bucket that meets the cell is for the cell's bucket
    have hslot : g.clean (g.slot x) → g.slot x = j := fun hcle =>
      hs.only _ (hr.slot_lt x) ((hw.clean hcle).subset hcl)
    obtain ⟨s', old', rfl⟩ := List.append_of_mem hcl
    obtain rfl : old' = old := hw.tail_eq hr hs.lt hs.full rfl
    have hnewj : ∀ p ∈ new, p ∈ (g.swing j (s ++ c :: new).tail).chain j := by
      intro p hp
      rw [View.swing_chain, Function.update_self]
      cases s with
      | nil => exact hp
      | cons y s => exact List.mem_append_right _ (List.mem_cons_of_mem _ hp)
    refine ⟨_, hw.reroute hr hc hs.newPath hs.notMem rfl rfl ?_ ?_ hhome hE,
      ?_⟩
    · intro p hp hpo
      obtain ⟨hpj, hpm, hcm, m, rfl⟩ := hs.apart p hp hpo
      have hl : (g.swing j (s ++ .node m :: new).tail).Linked p := ⟨j, hs.lt, hnewj p hp⟩
      refine ⟨hl, ?_, hE' p hl, Or.inr (Or.inr ?_)⟩
      · intro hpd
        -- neither the cell nor the node is mixed, so the lookup would be for the bucket of both
        have hcj : Ptr.node m ∈ g.chain j := by
          rcases g.mem_full.mp hcfull with he | hm
          · cases he
          · exact hm
        have hcx : g.slot (h.hash (.node m)) = g.slot x :=
          (hw.home _ (List.mem_append_right _ hcl) ⟨j, hs.lt, hcj⟩).resolve_right hcm
        have hch := hs.only _ (hr.slot_lt _) (g.mem_full.mpr (Or.inr (hr.home j hs.lt _ hcj)))
        have hpx : g.slot (h.hash p) = g.slot x :=
          (hw.home p (List.mem_append_left _ hpd) (hs.linked p hp)).resolve_right hpm
        exact hpj (hpx.trans (hcx.symm.trans hch))
      · have hp' := hr'.linked_home hl
        exact ⟨_, hr'.slot_lt _, j, hs.lt, hpj, hp', hnewj p hp⟩
    · intro hcle
      obtain ⟨hcle, hne⟩ := hcle
      exact absurd (hslot hcle) hne
    · intro t ht hx hl
      by_contra ht'
      have htold : t ∈ old' ∧ t ∉ new := by
        simp only [List.mem_append, List.mem_cons] at ht ht'
        tauto
      obtain ⟨hne, hcle⟩ := hs.lost t htold.1 htold.2 hl
      rw [hx] at hne hcle
      exact hne (hslot hcle)
  · refine ⟨l, hw.keep hr hc (fun p hp => Function.update_of_ne (by rintro rfl; exact hcl hp) _ _)
      ?_ hw.head hhome hE, fun t ht _ _ => ht⟩
    intro hcle
    obtain ⟨hcle, hne⟩ := hcle
    rw [View.full_of_ne hne]
    exact hw.clean hcle

/-- **The step of the itinerary**: it stays one under every change, and a node that the lookup is after and
that stays linked stays on it. -/
theorem Walk.change (hr : Rep h g) (hw : Walk h g x E v l d) (hc : Change allow h g h' g')
    (hE : ∀ p, g.Seen p → E p → E' p) (hE' : ∀ p, g'.Linked p → E' p) :
    ∃ l', Walk h' g' x E' v l' d ∧ ∀ t ∈ l, h.hash t = x → g'.Linked t → t ∈ l' := by
  have hsame : ∀ {h2 : Heap K φ}, Change allow h g h2 g → ∀ p ∈ d ++ l, g.Linked p →
      g.slot (h2.hash p) = g.slot x ∨ g.Mixed p := by
    intro h2 hc2 p hp hl
    rw [hc2.hash hl hr]
    exact hw.home p hp hl
  have hc0 := hc
  cases hc with
  | guar hg hown =>
    cases hg with
    | quiet hq =>
      have hnext : ∀ p ∈ l, h'.next p = h.next p := fun p hp =>
        hq.next_seen hown (hw.seen p (List.mem_append_right _ hp))
      exact ⟨l, hw.keep hr hc0 hnext hw.clean hw.head (hsame hc0) hE, fun t ht _ _ => ht⟩
    | @link j n hown' _ hnot hj hnext =>
      have hjn : j < g.n := hj ▸ hr.slot_lt _
      have hseen : ¬ g.Seen (.node n) := fun hs => hs.elim hnot (hown _ hown').2
      obtain ⟨l', hw', hl'⟩ := hw.link hr hseen hj hnext hc0 hE
        (hE' _ ((View.link_linked hjn).mpr (Or.inr rfl)))
      exact ⟨l', hw', fun t ht _ _ => hl' t ht⟩
    | swing hs => exact hw.swing hr hs hc0 hE hE'
    | @publish b _ hp =>
      have hinfo : b = g'.info := hp.rep.info
      refine ⟨l, hw.keep hr hc0 (fun _ _ => rfl) (fun hcle => absurd hcle (hp.clean _)) ?_
        (fun p _ _ => Or.inr (Or.inl (hp.mixed p))) hE, fun t ht _ _ => ht⟩
      intro k hk
      exact absurd (hinfo ▸ hw.seen _ (List.mem_append_right _ hk)) hp.new
  | prepare hn =>
    exact ⟨l, hw.keep hr hc0 (fun _ _ => rfl) hw.clean hw.head (hsame hc0) hE, fun t ht _ _ => ht⟩

end Itinerary

end RcuTable
