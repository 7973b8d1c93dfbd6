import RcuTable.System.Walk

/-!
# System.Find — a lookup, step by step

`Pos` lists the points of `rTableCoreFind`, `Pos.code` the rest of the program at each, and `Pos.next` the
point that its next atomic operation leads to (`Pos.step`).  `Searching` is what is known of a lookup under
way: its itinerary, the nodes it has asked, and that the nodes it is after (`Tgt`) are still ahead.
-/

namespace RcuTable

open Atomic Atomic.Prog Chain

variable {K φ : Type}

/-- The points of a lookup. -/
inductive Pos where
  | start
  | info (b : ℕ)
  | head (b i : ℕ)
  | loop (v : Option Ptr)
  | ask (q : Ptr)
  | load (q : Ptr)
  | done (r : Option Ptr)

namespace Pos

variable (x : ℕ) (f : Heap K φ → Ptr → Bool)

/-- The lookup in front of its loop's test. -/
def looping (v : Option Ptr) : Code K φ (Option Ptr) :=
  .iter (fun p => match p with
    | none => .ret (.inr none)
    | some q => .act (.ask q f) fun b =>
      if b then .ret (.inr (some q)) else .act (.loadNext q) fun p => .ret (.inl p)) v .ret

/-- The program from a point on. -/
def code : Pos → Code K φ (Option Ptr)
  | .start => rTableCoreFind x f
  | .info b => .act (.nrBuckets b) fun n => rcuSlistFindIf (.head b (x &&& (n - 1))) f
  | .head b i => rcuSlistFindIf (.head b i) f
  | .loop v => looping f v
  | .ask q => .act (.ask q f) fun b => if b then .ret (some q) else .act (.loadNext q) fun v => looping f v
  | .load q => .act (.loadNext q) fun v => looping f v
  | .done r => .ret r

/-- The next point. -/
def next (h : Heap K φ) : Pos → Option Pos
  | .start => some (.info h.pBucketsInfo)
  | .info b => if h.live b then some (.head b (x &&& (h.nrBucketsPowerOf2 b - 1))) else none
  | .head b i => if h.accessible (.head b i) then some (.loop (h.next (.head b i))) else none
  | .loop none => some (.done none)
  | .loop (some q) => some (.ask q)
  | .ask q => some (if f h q then .done (some q) else .load q)
  | .load q => if h.accessible q then some (.loop (h.next q)) else none
  | .done _ => none

/-- The node that the next step asks. -/
def asks : Pos → List Ptr
  | .ask q => [q]
  | _ => []

variable {x f} {h : Heap K φ}

theorem step (pos : Pos) :
    (pos.code x f).step exec h = (pos.next x f h).map fun pos' => (pos'.code x f, h) := by
  cases pos with
  | start => rfl
  | info b =>
    by_cases hb : h.live b = true <;> simp [code, next, Prog.step, exec, hb]
  | head b i =>
    by_cases ha : h.accessible (.head b i) = true
    · simp only [next, ha, if_true]
      show (exec (.loadNext (.head b i)) h).map _ = _
      simp only [exec, ha, if_true]
      rfl
    · simp only [next, ha]
      show (exec (.loadNext (.head b i)) h).map _ = _
      simp only [exec, ha]
      rfl
  | loop v =>
    cases v with
    | none => rfl
    | some q =>
      refine congrArg (fun k : Bool → Code K φ (Option Ptr) => some (Prog.act (Act.ask q f) k, h))
        (funext ?_)
      intro b
      cases b <;> rfl
  | ask q =>
    show some (if f h q then Prog.ret (some q) else .act (.loadNext q) fun v => looping f v, h) = _
    by_cases hq : f h q = true <;> simp [next, code, hq]
  | load q =>
    by_cases ha : h.accessible q = true <;> simp [next, code, Prog.step, exec, ha]
  | done r => rfl

/-- Only at its end has the program returned. -/
theorem eq_done {pos : Pos} {r : Option Ptr} (h : pos.code x f = .ret r) : pos = .done r := by
  cases pos with
  | done r' =>
    obtain rfl : r' = r := by injection h
    rfl
  | _ => exact absurd h (by rintro ⟨⟩)

/-- How many steps, beside three for each node asked, have led here at most. -/
def steps : Pos → ℕ
  | .start => 0
  | .info _ => 1
  | .head _ _ | .load _ => 2
  | .loop _ => 3
  | .ask _ | .done _ => 4

/-- What a step does, point by point. -/
inductive Moves (x : ℕ) (f : Heap K φ → Ptr → Bool) (h : Heap K φ) : Pos → Pos → Prop
  | start : Moves x f h .start (.info h.pBucketsInfo)
  | info {b : ℕ} (hb : h.live b = true) :
      Moves x f h (.info b) (.head b (x &&& (h.nrBucketsPowerOf2 b - 1)))
  | head {b i : ℕ} (ha : h.accessible (.head b i) = true) :
      Moves x f h (.head b i) (.loop (h.next (.head b i)))
  | last : Moves x f h (.loop none) (.done none)
  | loop (q : Ptr) : Moves x f h (.loop (some q)) (.ask q)
  | hit {q : Ptr} (hq : f h q = true) : Moves x f h (.ask q) (.done (some q))
  | miss {q : Ptr} (hq : f h q = false) : Moves x f h (.ask q) (.load q)
  | load {q : Ptr} (ha : h.accessible q = true) : Moves x f h (.load q) (.loop (h.next q))

theorem moves_of_next {pos pos' : Pos} (hn : pos.next x f h = some pos') : Moves x f h pos pos' := by
  cases pos with
  | start =>
    obtain rfl := Option.some.inj hn
    exact .start
  | info b =>
    obtain ⟨hb, hn⟩ := Option.ite_none_right_eq_some.mp hn
    obtain rfl := Option.some.inj hn
    exact .info hb
  | head b i =>
    obtain ⟨ha, hn⟩ := Option.ite_none_right_eq_some.mp hn
    obtain rfl := Option.some.inj hn
    exact .head ha
  | loop v =>
    cases v with
    | none =>
      obtain rfl := Option.some.inj hn
      exact .last
    | some q =>
      obtain rfl := Option.some.inj hn
      exact .loop q
  | ask q =>
    obtain rfl := Option.some.inj hn
    cases hq : f h q with
    | true => exact .hit hq
    | false => exact .miss hq
  | load q =>
    obtain ⟨ha, hn⟩ := Option.ite_none_right_eq_some.mp hn
    obtain rfl := Option.some.inj hn
    exact .load ha
  | done r => cases hn

theorem Moves.steps {pos pos' : Pos} (hm : Moves x f h pos pos') :
    pos.steps + 1 ≤ pos'.steps + 3 * pos.asks.length := by
  cases hm <;> simp [Pos.steps, asks]

end Pos

/-- At point `pos`, with the nodes `asked`, a lookup is at the pointer `v` and has passed the nodes `d`. -/
inductive Stands (h : Heap K φ) (x : ℕ) : Pos → List Ptr → Option Ptr → List Ptr → Prop
  | info (b : ℕ) : Stands h x (.info b) [] (some (.head b (x &&& (h.nrBucketsPowerOf2 b - 1)))) []
  | head (b i : ℕ) : Stands h x (.head b i) [] (some (.head b i)) []
  | loop {v : Option Ptr} {d : List Ptr} (hn : ∀ p ∈ d ++ v.toList, ∃ n, p = .node n) :
      Stands h x (.loop v) d v d
  | ask {q : Ptr} {d : List Ptr} (hn : ∀ p ∈ d ++ [q], ∃ n, p = .node n) :
      Stands h x (.ask q) d (some q) d
  | load {q : Ptr} {d : List Ptr} (hn : ∀ p ∈ d ++ [q], ∃ n, p = .node n) :
      Stands h x (.load q) (d ++ [q]) (some q) d

/-- A lookup under way.  `E` holds of the nodes it has met and may meet, `M` of a node it has accepted; the
nodes of `Tgt` it cannot miss. -/
inductive Searching (h : Heap K φ) (g : View) (x : ℕ) (E M Tgt : Ptr → Prop) : Pos → List Ptr → Prop
  | start : Searching h g x E M Tgt .start []
  | on {pos : Pos} {asked d l : List Ptr} {v : Option Ptr} (hs : Stands h x pos asked v d)
      (hw : Walk h g x E v l d) (ht : ∀ t, Tgt t → t ∈ l ∧ t ∉ asked) :
      Searching h g x E M Tgt pos asked
  | done {r : Option Ptr} {asked : List Ptr} (hnd : asked.Nodup) (hE : ∀ p ∈ asked, g.Seen p ∧ E p)
      (hr : ∀ q, r = some q → q ∈ asked ∧ M q) (hnone : r = none → ∀ t, ¬ Tgt t) :
      Searching h g x E M Tgt (.done r) asked

section Searching

variable {allow : Heap K φ → View → Ptr → Prop} {h h' : Heap K φ} {g g' : View} {x : ℕ}
  {f : Heap K φ → Ptr → Bool} {E E' M M' Tgt : Ptr → Prop}
  {pos pos' : Pos} {asked d l : List Ptr} {v : Option Ptr}

/-- The itinerary of a lookup that reads the published array now. -/
theorem Rep.walk (hr : Rep h g) (x : ℕ) (hE : ∀ p, g.Linked p → E p) :
    Walk h g x E (some (.head g.info (g.slot x))) (g.full (g.slot x)) [] := by
  have hlt := hr.slot_lt x
  refine ⟨hr.path _ hlt, fun p hp => hr.accessible_of_mem_full hlt hp,
    fun p hp => hr.seen_of_mem_full hlt hp, fun _ => List.suffix_refl _,
    fun k hk => (hr.head_mem_full hlt hk).2, ?_, (hr.path _ hlt).nodup, ?_⟩
  · intro p hp hl
    rcases g.mem_full.mp hp with rfl | hp
    · obtain ⟨n, hn⟩ := hr.linked_node hl
      cases hn
    · -- a node of another bucket is in its own bucket, too
      by_cases hpx : g.slot (h.hash p) = g.slot x
      · exact Or.inl hpx
      · exact Or.inr (Or.inr ⟨_, hr.slot_lt _, _, hlt, hpx, hr.home _ hlt p hp, hp⟩)
  · intro p hp hn
    obtain ⟨n, rfl⟩ := hn
    rcases g.mem_full.mp hp with he | hp
    · cases he
    · exact hE _ ⟨_, hlt, hp⟩

/-- The pointer of a lookup moves on to the next cell of the itinerary. -/
theorem Walk.advance {p : Ptr} (hw : Walk h g x E (some p) (p :: l) d) :
    Walk h g x E (h.next p) l (d ++ [p]) where
  path := hw.path.2
  acc q hq := hw.acc q (List.mem_cons_of_mem _ hq)
  seen q hq := hw.seen q (by simpa using hq)
  clean hc := (List.suffix_cons p l).trans (hw.clean hc)
  head k hk := hw.head k (List.mem_cons_of_mem _ hk)
  home q hq := hw.home q (by simpa using hq)
  nodup := by simpa using hw.nodup
  ever q hq := hw.ever q (by simpa using hq)

/-- The list head is no node, so it does not count among the nodes passed. -/
theorem Walk.leaveHead {p : Ptr} (hw : Walk h g x E (some p) (p :: l) []) :
    Walk h g x E (h.next p) l [] where
  path := hw.path.2
  acc q hq := hw.acc q (List.mem_cons_of_mem _ hq)
  seen q hq := hw.seen q (List.mem_cons_of_mem _ hq)
  clean hc := (List.suffix_cons p l).trans (hw.clean hc)
  head k hk := hw.head k (List.mem_cons_of_mem _ hk)
  home q hq := hw.home q (List.mem_cons_of_mem _ hq)
  nodup := (List.nodup_cons.mp hw.nodup).2
  ever q hq := hw.ever q (List.mem_cons_of_mem _ hq)

theorem Walk.eq_cons {p : Ptr} (hw : Walk h g x E (some p) l d) : ∃ l', l = p :: l' := by
  cases l with
  | nil => cases hw.path
  | cons q l =>
    obtain rfl := Option.some.inj hw.path.1
    exact ⟨l, rfl⟩

/-- A lookup that has returned has met its nodes on the way. -/
theorem Walk.finish (hw : Walk h g x E v l d) (hn : ∀ p ∈ asked, ∃ n, p = .node n) (hd : asked <+: d ++ l)
    {r : Option Ptr} (hr : ∀ q, r = some q → q ∈ asked ∧ M q) (hnone : r = none → ∀ t, ¬ Tgt t) :
    Searching h g x E M Tgt (.done r) asked :=
  .done (hw.nodup.sublist hd.sublist)
    (fun p hp => ⟨hw.seen p (hd.subset hp), hw.ever p (hd.subset hp) (hn p hp)⟩) hr hnone

/-- **A step of a lookup** keeps its itinerary, and asks the next node of it. -/
theorem Searching.read (hr : Rep h g) (hcl : Closed h g) (hm : Pos.Moves x f h pos pos')
    (hs : Searching h g x E M Tgt pos asked) (hE : ∀ p, g.Linked p → E p) (hM : ∀ q, f h q = true → M q)
    (hT : ∀ t, Tgt t → g.Linked t ∧ h.hash t = x ∧ f h t = true) :
    Searching h g x E M Tgt pos' (asked ++ pos.asks) := by
  cases hs with
  | start =>
    cases hm with
    | start =>
      have hst := Stands.info (h := h) (x := x) h.pBucketsInfo
      have hw := hr.walk x hE
      rw [hr.info, hr.nr] at hst
      rw [hr.info]
      refine .on hst hw ?_
      intro t ht
      obtain ⟨hl, hx, -⟩ := hT t ht
      have hhome := hr.linked_home hl
      rw [hx] at hhome
      exact ⟨g.mem_full.mpr (Or.inr hhome), List.not_mem_nil⟩
  | @on _ _ d l v hst hw ht =>
    cases hst with
    | info b =>
      cases hm with
      | info hb => exact .on (.head b _) hw ht
    | head b i =>
      cases hm with
      | head ha =>
        obtain ⟨l, rfl⟩ := hw.eq_cons
        refine .on (.loop ?_) hw.leaveHead ?_
        · intro p hp
          exact (hcl _ (hw.seen _ List.mem_cons_self) ha p (Option.mem_toList.mp hp)).2
        · intro t htt
          refine ⟨(List.mem_cons.mp (ht t htt).1).resolve_left ?_, List.not_mem_nil⟩
          rintro rfl
          obtain ⟨n, hn⟩ := hr.linked_node (hT _ htt).1
          cases hn
    | loop hn =>
      cases hm with
      | last =>
        rw [show asked ++ (Pos.loop none).asks = asked from List.append_nil _]
        obtain rfl : l = [] := path_none.mp hw.path
        exact hw.finish (fun p hp => hn p (List.mem_append_left _ hp)) (List.prefix_append _ _)
          (fun q hq => by cases hq) fun _ t htt => List.not_mem_nil (ht t htt).1
      | loop q =>
        rw [show asked ++ (Pos.loop (some q)).asks = asked from List.append_nil _]
        exact .on (.ask hn) hw ht
    | @ask q _ hn =>
      obtain ⟨l, rfl⟩ := hw.eq_cons
      cases hm with
      | hit hq =>
        refine hw.finish hn ⟨l, by simp⟩ ?_ fun he => by cases he
        intro q' hq'
        obtain rfl := Option.some.inj hq'
        exact ⟨by simp, hM _ hq⟩
      | miss hq =>
        refine .on (.load hn) hw fun t htt => ⟨(ht t htt).1, fun hm => ?_⟩
        rcases List.mem_append.mp hm with hm | hm
        · exact (ht t htt).2 hm
        · obtain rfl := List.mem_singleton.mp hm
          have htrue := (hT _ htt).2.2
          rw [hq] at htrue
          cases htrue
    | @load q d hn =>
      cases hm with
      | load ha =>
        obtain ⟨l, rfl⟩ := hw.eq_cons
        rw [show (d ++ [q]) ++ (Pos.load q).asks = d ++ [q] from List.append_nil _]
        refine .on (.loop ?_) hw.advance ?_
        · intro p hp
          rcases List.mem_append.mp hp with hp | hp
          · exact hn p hp
          · exact (hcl _ (hw.seen _ (by simp)) ha p (Option.mem_toList.mp hp)).2
        · intro t htt
          obtain ⟨htl, hta⟩ := ht t htt
          refine ⟨(List.mem_cons.mp htl).resolve_left ?_, hta⟩
          rintro rfl
          exact hta (List.mem_append_right _ List.mem_cons_self)
  | done => cases hm

theorem Stands.change (hc : Change allow h g h' g') (hw : Walk h g x E v l d)
    (hs : Stands h x pos asked v d) : Stands h' x pos asked v d := by
  cases hs with
  | info b =>
    obtain ⟨l, rfl⟩ := hw.eq_cons
    have hb : g.arrs b := hw.seen _ List.mem_cons_self
    rw [← hc.nr hb]
    exact .info b
  | head b i => exact .head b i
  | loop hn => exact .loop hn
  | ask hn => exact .ask hn
  | load hn => exact .load hn

/-- A change of the writer's side leaves a lookup where it is. -/
theorem Searching.change (hr : Rep h g) (hc : Change allow h g h' g') (hs : Searching h g x E M Tgt pos asked)
    (hE : ∀ p, g.Seen p → E p → E' p) (hE' : ∀ p, g'.Linked p → E' p) (hM : ∀ p, g.Seen p → M p → M' p)
    (hT : ∀ t, Tgt t → h.hash t = x ∧ g'.Linked t) : Searching h' g' x E' M' Tgt pos asked := by
  cases hs with
  | start => exact .start
  | on hst hw ht =>
    obtain ⟨l', hw', hl'⟩ := hw.change hr hc hE hE'
    refine .on (hst.change hc hw) hw' fun t htt => ⟨?_, (ht t htt).2⟩
    exact hl' t (ht t htt).1 (hT t htt).1 (hT t htt).2
  | done hnd hEa hra hnone =>
    refine .done hnd ?_ ?_ hnone
    · intro p hp
      obtain ⟨h1, h2⟩ := hEa p hp
      exact ⟨hc.seen hr h1, hE p h1 h2⟩
    · intro q hq
      obtain ⟨h1, h2⟩ := hra q hq
      exact ⟨h1, hM q (hEa q h1).1 h2⟩

/-- A lookup that has not returned can take a step. -/
theorem Searching.progress (hr : Rep h g) (hs : Searching h g x E M Tgt pos asked) :
    (∃ r, pos = .done r) ∨ (pos.next x f h).isSome := by
  cases hs with
  | start => exact Or.inr rfl
  | @on _ _ d l v hst hw =>
    refine Or.inr ?_
    cases hst with
    | info b =>
      obtain ⟨l, rfl⟩ := hw.eq_cons
      have hb : g.arrs b := hw.seen _ List.mem_cons_self
      simp [Pos.next, (hr.live b hb).1]
    | head b i =>
      obtain ⟨l, rfl⟩ := hw.eq_cons
      simp [Pos.next, hw.acc _ List.mem_cons_self]
    | loop => cases v <;> rfl
    | ask => rfl
    | load =>
      obtain ⟨l, rfl⟩ := hw.eq_cons
      simp [Pos.next, hw.acc _ List.mem_cons_self]
  | done => exact Or.inl ⟨_, rfl⟩

theorem Stands.asked_prefix (hs : Stands h x pos asked v d) (hw : Walk h g x E v l d) :
    asked <+: d ++ l ∧ ∀ p ∈ asked, ∃ n, p = .node n := by
  cases hs with
  | info | head => exact ⟨List.nil_prefix, fun p hp => absurd hp List.not_mem_nil⟩
  | loop hn | ask hn => exact ⟨List.prefix_append _ _, fun p hp => hn p (List.mem_append_left _ hp)⟩
  | load hn =>
    obtain ⟨l, rfl⟩ := hw.eq_cons
    exact ⟨⟨l, by simp⟩, hn⟩

/-- What a lookup returns. -/
theorem Searching.returns {r : Option Ptr} (hs : Searching h g x E M Tgt (.done r) asked) :
    (∀ q, r = some q → E q ∧ M q) ∧ (r = none → ∀ t, ¬ Tgt t) := by
  cases hs with
  | on hst => cases hst
  | done _ hE hr hnone => exact ⟨fun q hq => ⟨(hE q (hr q hq).1).2, (hr q hq).2⟩, hnone⟩

/-- What is asked is asked once, and was there to be asked. -/
theorem Searching.asks_once (hs : Searching h g x E M Tgt pos asked) : asked.Nodup ∧ ∀ p ∈ asked, E p := by
  cases hs with
  | start => exact ⟨List.nodup_nil, fun p hp => absurd hp List.not_mem_nil⟩
  | on hst hw ht =>
    obtain ⟨hpre, hn⟩ := hst.asked_prefix hw
    exact ⟨hw.nodup.sublist hpre.sublist, fun p hp => hw.ever p (hpre.subset hp) (hn p hp)⟩
  | done hnd hE => exact ⟨hnd, fun p hp => (hE p hp).2⟩

end Searching

end RcuTable
