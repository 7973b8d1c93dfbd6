import RcuTable.System.Invariant

/-!
# System.Run — runs of a table in use, and the lookups in them

`exists_inv` carries the invariant, and what else the calls keep, along a run.  `Looking` is a lookup that is
still under way; `Looking.follows` follows it from its first step on.
-/

namespace RcuTable

open Atomic Chain Trans

variable {T K φ : Type} [Fintype T] [DecidableEq T] {cfg : ZoneCfg} {hash : T → ℕ} {fl : FloatOps φ}
  {allow : Heap K φ → View → Ptr → Prop} {s s' : TableSys T K φ} {g g' : View}

theorem inv_init (hs : TableSys.Init cfg s) :
    ∃ g, Inv cfg hash fl allow s g ∧ ∀ p, ¬ g.Linked p := by
  obtain ⟨conf, h, hb, hret⟩ := hs.table
  have hf := (fresh_of_returns hb hret).chains.flat
  have hidle : ∀ t, ¬ s.zone.Young t := fun t hy => hy.1 (hs.zone.sync ())
  refine ⟨_, ⟨hs.zone.sound, hf.toRep, ?_, fun t _ => hs.reader t, ?_, ?_,
    fun t hy => absurd hy (hidle t), ?_⟩, fun p ⟨j, _, hp⟩ => absurd hp List.not_mem_nil⟩
  · -- nobody reads yet, so the table is seen as after a grace period
    exact hf.toRep.closed_synced
  · intro t
    rw [hs.reader t]
    exact Reading.pointed_outside
  · intro t
    rw [hs.reader t]
    exact Reading.within_outside _
  · rw [hs.writer]
    exact ⟨hf, fun q hq => absurd hq id, hs.zone.sync ()⟩

/-- A property of heap and view that the steps of the system keep. -/
structure Stable (allow : Heap K φ → View → Ptr → Prop) (P : Heap K φ → View → Prop) : Prop where
  empty : ∀ h g, (∀ p, ¬ g.Linked p) → P h g
  synced : ∀ h g, P h g → P h g.synced
  change : ∀ h g h' g', Rep h g → Change allow h g h' g' → P h g → P h' g'

theorem Move.stable {P : Heap K φ → View → Prop} (hP : Stable allow P) (hi : Inv cfg hash fl allow s g)
    (hm : Move allow s g s' g') (hp : P s.heap g) : P s'.heap g' := by
  cases hm with
  | stay hh => rwa [hh]
  | change hc => exact hP.change _ _ _ _ hi.rep hc hp
  | synced hh =>
    rw [hh]
    exact hP.synced _ _ hp

theorem stable_true : Stable (K := K) (φ := φ) allow fun _ _ => True :=
  ⟨fun _ _ _ => trivial, fun _ _ _ => trivial, fun _ _ _ _ _ _ _ => trivial⟩

/-! ### Single steps -/

theorem Inv.young_of_step (hi : Inv cfg hash fl allow s g) {a : TableAct T K φ} {t : T}
    (hs : s.step cfg hash fl a = some s') (hin : (s.zone.reader t).Inside) (hy : s'.zone.Young t) :
    s.zone.Young t := by
  cases TableSys.step_cases hs with
  | lock hz | enter hz => exact (Zone.effect_of_step hz).young (by simp) hin hy
  | unlock _ hz => exact (Zone.effect_of_step hz).young (by simp) hin hy
  | wait => exact hi.zone.young_sync hy
  | synchronized _ _ hidle => exact absurd hidle hy.1
  | begin | read | finish | call | store | «return» | prepare => exact hy

omit [Fintype T] in
/-- A lookup that is not finished takes its own next step, or none. -/
theorem TableSys.reader_step {a : TableAct T K φ} {t : T} {p : Code K φ (Option Ptr)}
    (hs : s.step cfg hash fl a = some s') (hf : (s.reader t).find = some p) (ha : a ≠ .finish t) :
    (a ≠ .read t ∧ s'.reader t = s.reader t) ∨
      a = .read t ∧ ∃ p', p.step exec s.heap = some (p', s'.heap) ∧
        s'.reader t = (s.reader t).after s.heap p p' := by
  have hother : ∀ {t' : T} {l : Reading K φ} {s1 : TableSys T K φ}, t ≠ t' → s1.reader = s.reader →
      (s1.setReader t' l).reader t = s.reader t := by
    intro t' l s1 hne h1
    rw [setReader_reader, Function.update_of_ne hne, h1]
  cases TableSys.step_cases hs with
  | lock | enter | call | wait | synchronized | store | «return» | prepare => exact Or.inl ⟨by simp, rfl⟩
  | unlock hnone | begin _ hnone =>
    refine Or.inl ⟨by simp, hother ?_ rfl⟩
    rintro rfl
    rw [hf] at hnone
    cases hnone
  | @read t' p' p'' h' hp' hstep =>
    by_cases ht : t = t'
    · subst ht
      obtain rfl : p = p' := Option.some.inj (hf.symm.trans hp')
      exact Or.inr ⟨rfl, p'', hstep, Function.update_self _ _ _⟩
    · refine Or.inl ⟨fun he => ht ?_, hother ht rfl⟩
      injection he with he
      exact he.symm
  | finish => exact Or.inl ⟨by simp, hother (fun he => ha (he ▸ rfl)) rfl⟩

theorem View.synced_seen {h : Heap K φ} {p : Ptr} (hr : Rep h g) (hp : g.synced.Seen p) : g.Seen p := by
  cases p with
  | head b i =>
    obtain rfl : b = g.info := hp
    exact hr.arr
  | node n => exact hp.imp_right fun hd => absurd hd id

/-- A lookup is left where it is by what the others do. -/
theorem Searching.move (hi : Inv cfg hash fl allow s g) (hm : Move allow s g s' g') {t : T} {x : ℕ}
    {E E' M M' Tgt : Ptr → Prop} {pos : Pos} {asked : List Ptr} (hin : (s.zone.reader t).Inside)
    (hs : Searching s.heap g x E M Tgt pos asked)
    (hy : s.zone.Young t → Searching s.heap g.synced x E M Tgt pos asked)
    (hyoung : s'.zone.Young t → s.zone.Young t) (hE : ∀ p, g.Seen p → E p → E' p)
    (hE' : ∀ p, g'.Linked p → E' p) (hM : ∀ p, g.Seen p → M p → M' p)
    (hT : ∀ q, Tgt q → s.heap.hash q = x ∧ g'.Linked q) :
    Searching s'.heap g' x E' M' Tgt pos asked ∧
      (s'.zone.Young t → Searching s'.heap g'.synced x E' M' Tgt pos asked) := by
  have hr := hi.rep
  have hid : Change allow s.heap g s.heap g := .refl hr
  have hid' : Change allow s.heap g.synced s.heap g.synced := .refl hr.synced
  have hsync : (∀ p, g.Linked p → E' p) → (∀ q, Tgt q → s.heap.hash q = x ∧ g.Linked q) →
      s.zone.Young t → Searching s.heap g.synced x E' M' Tgt pos asked := fun h1 h2 hyt =>
    (hy hyt).change hr.synced hid' (fun p hp => hE p (View.synced_seen hr hp)) h1
      (fun p hp => hM p (View.synced_seen hr hp)) h2
  cases hm with
  | stay hh =>
    rw [hh]
    exact ⟨hs.change hr hid hE hE' hM hT, fun h => hsync hE' hT (hyoung h)⟩
  | change hc hpc => exact ⟨hs.change hr hc hE hE' hM hT, fun h => absurd hpc h.1⟩
  | synced hh hall =>
    rw [hh]
    exact ⟨hsync hE' hT (hall t hin), fun _ => hsync hE' hT (hall t hin)⟩

/-! ### Runs -/

/-- The run keeps its contract, and with it the property `P` of heap and view. -/
structure Lawful (r : TableRun K cfg hash fl)
    (allow : Heap K φ → View → Ptr → Prop) (P : Heap K φ → View → Prop) : Prop where
  contract : ∀ i < r.len, (r.state i).Contract (r.act i)
  kept : Stable allow P
  pre : ∀ i < r.len, ∀ op, r.act i = .call op → ∀ g, Flat (r.state i).heap g → P (r.state i).heap g →
    op.Pre allow (r.state i).heap g

variable {r : TableRun K cfg hash fl}
  {P : Heap K φ → View → Prop} {i j k : ℕ}

theorem Lawful.step (hl : Lawful r allow P) (hi : i < r.len) (hinv : Inv cfg hash fl allow (r.state i) g)
    (hp : P (r.state i).heap g) :
    ∃ g', Inv cfg hash fl allow (r.state (i + 1)) g' ∧ P (r.state (i + 1)).heap g' ∧
      Move allow (r.state i) g (r.state (i + 1)) g' := by
  obtain ⟨g', hinv', hm⟩ := hinv.step (hl.contract i hi)
    (fun op hop hf => hl.pre i hi op hop g hf hp) (r.next i hi)
  exact ⟨g', hinv', hm.stable hl.kept hinv hp, hm⟩

/-- **The invariant** holds in every state of a run. -/
theorem Lawful.exists_inv (hl : Lawful r allow P) :
    ∀ i ≤ r.len, ∃ g, Inv cfg hash fl allow (r.state i) g ∧ P (r.state i).heap g := by
  refine r.invariant (P := fun s => ∃ g, Inv cfg hash fl allow s g ∧ P s.heap g) ?_
    ?_
  · intro s hs
    obtain ⟨g, hinv, hempty⟩ := inv_init hs
    exact ⟨g, hinv, hl.kept.empty _ _ hempty⟩
  · rintro i hi ⟨g, hinv, hp⟩
    obtain ⟨g', hinv', hp', -⟩ := hl.step hi hinv hp
    exact ⟨g', hinv', hp'⟩

omit [Fintype T] in
theorem lawful_of_contract (hc : ∀ i < r.len, (r.state i).Contract (r.act i)) :
    Lawful r (fun _ _ _ => True) fun _ _ => True where
  contract := hc
  kept := stable_true
  pre i hi op hop g hf _ := by
    have hfree := hc i hi
    rw [hop] at hfree
    exact Op.pre_of_free hf.toRep fun p hp => (hfree p hp).1

/-! ### Lookups -/

/-- A lookup of `t` from its first step, in state `i` or later, to a state `j` in which it is not finished. -/
structure Looking (r : TableRun K cfg hash fl) (t : T) (x : ℕ)
    (f : Heap K φ → Ptr → Bool) (i j : ℕ) : Prop where
  begins : ∃ b < i, r.act b = .begin t x f ∧ ∀ k, b < k → k < i → r.act k ≠ .read t ∧ r.act k ≠ .finish t
  le : i ≤ j
  len : j ≤ r.len
  on : ∀ k, i ≤ k → k < j → r.act k ≠ .finish t

/-- The node has been linked since state `i`, and has kept its data since then. -/
def Met (r : TableRun K cfg hash fl) (i k : ℕ) (p : Ptr) : Prop :=
  ∃ m, i ≤ m ∧ m ≤ k ∧ (r.state m).heap.Linked p ∧ (r.state m).heap.key p = (r.state k).heap.key p

/-- The predicate has accepted the node since state `i`, and the node has kept its data since then. -/
def Accepted (r : TableRun K cfg hash fl) (f : Heap K φ → Ptr → Bool)
    (i k : ℕ) (p : Ptr) : Prop :=
  ∃ m, i ≤ m ∧ m ≤ k ∧ f (r.state m).heap p = true ∧ (r.state m).heap.key p = (r.state k).heap.key p

/-- The action is a step of the lookup of `t`. -/
def TableAct.Reads (t : T) : TableAct T K φ → Prop
  | .read t' => t' = t
  | _ => False

instance (t : T) : DecidablePred (fun a : TableAct T K φ => a.Reads t) := fun a => by
  cases a <;> unfold TableAct.Reads <;> infer_instance

/-- How many steps the lookup of `t` has taken between the states `i` and `j`. -/
def nrReads (r : TableRun K cfg hash fl) (t : T) (i j : ℕ) : ℕ :=
  ((Finset.range j).filter fun k => i ≤ k ∧ (r.act k).Reads t).card

/-- What is known of a lookup that is under way in state `k`. -/
structure Follows (r : TableRun K cfg hash fl)
    (allow : Heap K φ → View → Ptr → Prop) (P : Heap K φ → View → Prop) (Tgt : Ptr → Prop) (t : T) (x : ℕ)
    (f : Heap K φ → Ptr → Bool) (i k : ℕ) (g : View) (pos : Pos) : Prop where
  inv : Inv cfg hash fl allow (r.state k) g
  kept : P (r.state k).heap g
  find : ((r.state k).reader t).find = some (pos.code x f)
  searching : Searching (r.state k).heap g x (Met r i k) (Accepted r f i k) Tgt pos
    ((r.state k).reader t).asked
  young : (r.state k).zone.Young t → Searching (r.state k).heap g.synced x (Met r i k) (Accepted r f i k) Tgt
    pos ((r.state k).reader t).asked
  reads : nrReads r t i k ≤ 3 * ((r.state k).reader t).asked.length + pos.steps

section Window

variable {Tgt : Ptr → Prop} {t : T} {x : ℕ} {f : Heap K φ → Ptr → Bool} {pos : Pos} {p : Ptr}

omit [Fintype T] in
theorem nrReads_succ (hik : i ≤ k) :
    nrReads r t i (k + 1) = nrReads r t i k + if (r.act k).Reads t then 1 else 0 := by
  unfold nrReads
  rw [Finset.range_add_one, Finset.filter_insert]
  by_cases ha : (r.act k).Reads t
  · rw [if_pos ⟨hik, ha⟩, if_pos ha, Finset.card_insert_of_notMem (by simp)]
  · rw [if_neg (fun h => ha h.2), if_neg ha]
    rfl

omit [Fintype T] in
theorem nrReads_self : nrReads r t i i = 0 := by
  refine Finset.card_eq_zero.mpr (Finset.filter_eq_empty_iff.mpr ?_)
  intro k hk h
  have := Finset.mem_range.mp hk
  omega

omit [Fintype T] [DecidableEq T] in
/-- What a reader can see keeps its data. -/
theorem Move.key (hm : Move allow s g s' g') (hp : g.Seen p) :
    s'.heap.key p = s.heap.key p := by
  cases hm with
  | stay hh => rw [hh]
  | change hc => exact hc.key hp
  | synced hh => rw [hh]

omit [Fintype T] in
theorem Met.succ (hm : Met r i k p) (hkey : (r.state (k + 1)).heap.key p = (r.state k).heap.key p) :
    Met r i (k + 1) p := by
  obtain ⟨m, h1, h2, h3, h4⟩ := hm
  exact ⟨m, h1, by omega, h3, by rw [h4, hkey]⟩

omit [Fintype T] in
theorem Accepted.succ (hm : Accepted r f i k p)
    (hkey : (r.state (k + 1)).heap.key p = (r.state k).heap.key p) : Accepted r f i (k + 1) p := by
  obtain ⟨m, h1, h2, h3, h4⟩ := hm
  exact ⟨m, h1, by omega, h3, by rw [h4, hkey]⟩

omit [Fintype T] in
theorem TableSys.begin_reader (hs : s.step cfg hash fl (.begin t x f) = some s') :
    s'.reader t = (s.reader t).start x f := by
  cases TableSys.step_cases hs with
  | begin => exact Function.update_self _ _ _

/-- The lookup in front of its first step. -/
theorem Looking.start (hl : Lawful r allow P) (hk : Looking r t x f i j) :
    ∃ g, Follows r allow P Tgt t x f i i g .start := by
  obtain ⟨b, hb, hact, hidle⟩ := hk.begins
  have hi : i ≤ r.len := hk.le.trans hk.len
  have hbegin := r.next b (by omega)
  rw [hact] at hbegin
  have hreader : ∃ l : Reading K φ, (r.state i).reader t = l.start x f := by
    refine r.window (P := fun k => ∃ l : Reading K φ, (r.state k).reader t = l.start x f) (i := b + 1) hb hi
      ⟨_, TableSys.begin_reader hbegin⟩ fun k h1 h2 hstep ⟨l, hl⟩ => ⟨l, ?_⟩
    obtain ⟨hread, hfinish⟩ := hidle k h1 h2
    have hfind : ((r.state k).reader t).find = some (rTableCoreFind x f) := by rw [hl]; rfl
    rcases TableSys.reader_step hstep hfind hfinish with ⟨-, hsame⟩ | ⟨hr, -⟩
    · rw [hsame, hl]
    · exact absurd hr hread
  obtain ⟨l, hreader⟩ := hreader
  obtain ⟨g, hinv, hp⟩ := hl.exists_inv i hi
  have hasked : ((r.state i).reader t).asked = [] := by rw [hreader]; rfl
  refine ⟨g, hinv, hp, by rw [hreader]; rfl, by rw [hasked]; exact .start,
    fun _ => by rw [hasked]; exact .start, ?_⟩
  rw [nrReads_self]
  exact Nat.zero_le _

/-- **The step of a lookup under way.**  `hT`: what it is after stays linked and keeps its hash. -/
theorem Follows.step (hl : Lawful r allow P) (hk : k < r.len) (hik : i ≤ k)
    (hf : Follows r allow P Tgt t x f i k g pos) (ha : r.act k ≠ .finish t)
    (hT : ∀ m, m ≤ r.len → k ≤ m → m ≤ k + 1 → ∀ g, Rep (r.state m).heap g → P (r.state m).heap g →
      ∀ q, Tgt q → g.Linked q ∧ (r.state m).heap.hash q = x ∧ f (r.state m).heap q = true) :
    ∃ g' pos', Follows r allow P Tgt t x f i (k + 1) g' pos' := by
  have hinv := hf.inv
  obtain ⟨g', hinv', hp', hm⟩ := hl.step hk hinv hf.kept
  have hin : ((r.state k).zone.reader t).Inside := by
    by_contra hn
    have hfind := hf.find
    rw [hinv.outside t hn] at hfind
    cases hfind
  have hT0 := hT k hk.le le_rfl (Nat.le_succ k) g hinv.rep hf.kept
  have hT1 := hT (k + 1) hk (Nat.le_succ k) le_rfl g' hinv'.rep hp'
  have hE : ∀ p, g.Seen p → Met r i k p → Met r i (k + 1) p := fun p hp hmet =>
    hmet.succ (hm.key hp)
  have hE' : ∀ p, g'.Linked p → Met r i (k + 1) p := fun p hp =>
    ⟨k + 1, by omega, le_rfl, hinv'.rep.linked_heap.mpr hp, rfl⟩
  have hM : ∀ p, g.Seen p → Accepted r f i k p → Accepted r f i (k + 1) p := fun p hp hacc =>
    hacc.succ (hm.key hp)
  have hnow : ∀ p, g.Linked p → Met r i k p := fun p hp =>
    ⟨k, hik, le_rfl, hinv.rep.linked_heap.mpr hp, rfl⟩
  have haccept : ∀ q, f (r.state k).heap q = true → Accepted r f i k q := fun q hq =>
    ⟨k, hik, le_rfl, hq, rfl⟩
  have hyoung : (r.state (k + 1)).zone.Young t → (r.state k).zone.Young t :=
    hinv.young_of_step (r.next k hk) hin
  -- the lookup itself, then what the action does to the rest
  have hmove : ∀ {pos' : Pos} {asked : List Ptr},
      Searching (r.state k).heap g x (Met r i k) (Accepted r f i k) Tgt pos' asked →
      ((r.state k).zone.Young t →
        Searching (r.state k).heap g.synced x (Met r i k) (Accepted r f i k) Tgt pos' asked) → _ :=
    fun h1 h2 => Searching.move hinv hm hin h1 h2 hyoung hE hE' hM fun q hq =>
      ⟨(hT0 q hq).2.1, (hT1 q hq).1⟩
  rcases TableSys.reader_step (r.next k hk) hf.find ha with ⟨hread, hsame⟩ | ⟨hread, p', hstep, hafter⟩
  · obtain ⟨hs, hy⟩ := hmove hf.searching hf.young
    refine ⟨g', pos, hinv', hp', by rw [hsame]; exact hf.find, by rw [hsame]; exact hs,
      fun h => by rw [hsame]; exact hy h, ?_⟩
    have hno : ¬ (r.act k).Reads t := by
      intro h
      refine hread ?_
      generalize r.act k = a at h ⊢
      cases a with
      | read t' => rw [show t' = t from h]
      | _ => exact absurd h id
    rw [nrReads_succ hik, if_neg hno, hsame]
    exact hf.reads
  · rw [Pos.step] at hstep
    obtain ⟨pos', hnext, heq⟩ := Option.map_eq_some_iff.mp hstep
    obtain ⟨rfl, -⟩ := Prod.mk.inj heq
    have hmv := Pos.moves_of_next hnext
    have hask : ((r.state (k + 1)).reader t).asked = ((r.state k).reader t).asked ++ pos.asks := by
      rw [hafter, ← Pos.asks_code (x := x) (f := f)]
      rfl
    obtain ⟨hs, hy⟩ := hmove
      (hf.searching.read hinv.rep hinv.closed hmv hnow haccept hT0)
      fun h => (hf.young h).read hinv.rep.synced hinv.rep.closed_synced hmv hnow haccept hT0
    refine ⟨g', pos', hinv', hp', by rw [hafter]; rfl, by rw [hask]; exact hs,
      fun h => by rw [hask]; exact hy h, ?_⟩
    have hle := hf.reads
    have hsteps := hmv.steps
    rw [nrReads_succ hik, if_pos (by rw [hread]; rfl), hask, List.length_append]
    omega

/-- **A lookup under way**, from its begin on. -/
theorem Looking.follows (hl : Lawful r allow P) (hk : Looking r t x f i j)
    (hT : ∀ m, i ≤ m → m ≤ j → ∀ g, Rep (r.state m).heap g → P (r.state m).heap g →
      ∀ q, Tgt q → g.Linked q ∧ (r.state m).heap.hash q = x ∧ f (r.state m).heap q = true) :
    ∃ g pos, Follows r allow P Tgt t x f i j g pos := by
  obtain ⟨g, hstart⟩ : ∃ g, Follows r allow P Tgt t x f i i g .start := hk.start hl
  have hlen := hk.len
  refine r.window (P := fun k => ∃ g pos, Follows r allow P Tgt t x f i k g pos) hk.le hlen
    ⟨g, _, hstart⟩ ?_
  rintro m h1 h2 _ ⟨g, pos, hf⟩
  exact hf.step hl (by omega) h1 (hk.on m h1 h2) fun m' _ h3 h4 => hT m' (by omega) (by omega)

end Window

end RcuTable
