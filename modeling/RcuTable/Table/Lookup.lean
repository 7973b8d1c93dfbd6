import RcuTable.Table.Machine

/-!
# Table.Lookup — `rTableCoreFind` and the stored hashes

A lookup walks one bucket and asks the caller's predicate about every node up to the first match; it never
looks at a stored hash.  A resize changes which nodes stand in front of each other.  The resizes are those of
the machine `exec32`, so a bucket is chosen by the lowest 30 bits of a hash at most.
-/

namespace RcuTable

open Atomic Atomic.Prog Chain

variable {K φ : Type} {fl : FloatOps φ} {h h' : Heap K φ} {g g' : View} {x : ℕ}

/-- A predicate on a node: its address, its hash and its data. -/
def nodePredict (f : Ptr → ℕ → K → Bool) (h : Heap K φ) (p : Ptr) : Bool := f p (h.hash p) (h.key p)

/-- **What a lookup does**: the first match of the bucket, after a question about every node up to it. -/
theorem rTableCoreFind_total (hf : Flat h g) (x : ℕ) (f : Heap K φ → Ptr → Bool) :
    (rTableCoreFind x f).Total (logged exec Act.asks) (h, []) fun r s =>
      s.1 = h ∧ r = (g.chain (g.slot x)).find? (f h) ∧ s.2 = asked (f h) (g.chain (g.slot x)) := by
  have hr := hf.toRep
  suffices hsim : Sim exec (fun a _ es _ es' => es' = es ++ Act.asks a) (fun r h' es => h' = h ∧
      r = (g.chain (g.slot x)).find? (f h) ∧ es = asked (f h) (g.chain (g.slot x)))
      (rTableCoreFind x f) h [] from hsim.logged fun _ _ _ _ _ he => he
  unfold rTableCoreFind rcuSlistFindIf
  simp only [load, ask, Prog.lift, bind_def, pure_def, act_bind, ret_bind, Prog.loop]
  refine .act rfl rfl ?_
  have hnr : exec (.nrBuckets h.pBucketsInfo) h = some (h.nrBuckets, h) := by
    rw [hr.info]
    refine (if_pos hr.live_info).trans ?_
    rw [Heap.nrBuckets, hr.info]
  refine .act hnr rfl ?_
  have hload : exec (.loadNext (h.bucket x)) h = some (h.next (h.bucket x), h) := by
    rw [hr.bucket]
    exact if_pos (hr.accessible_head (hr.slot_lt x))
  refine .act hload rfl ?_
  rw [hr.bucket]
  refine sim_findLoop (passive_asks h) f (hr.path _ (hr.slot_lt x)).2
    (fun p hp => hr.accessible_of_mem (hr.slot_lt x) hp) trivial (.ret ⟨rfl, rfl, ?_⟩)
  rw [foldl_record]
  rfl

/-- One call of `rTableCoreExpandBuckets2x` or `rTableCoreShrinkBuckets2x`. -/
def ResizeStep (h h' : Heap K φ) : Prop :=
  rTableCoreExpandBuckets2x.Returns exec32 h () h' ∨ ∃ b, rTableCoreShrinkBuckets2x.Returns exec32 h b h'

/-- The contract in the comment of `rTableCoreFind`: only nodes with the hash `x` are looked at, the first
of them that satisfies `f` is returned, and resizes before the call make no difference. -/
def FindsByHash (h : Heap K φ) (x : ℕ) (f : Ptr → ℕ → K → Bool) : Prop :=
  ((rTableCoreFind x (nodePredict f)).Total (logged exec Act.asks) (h, []) fun r s =>
    (∀ p ∈ s.2, h.hash p = x) ∧
    ∃ l, Path h.next (h.next (h.bucket x)) l ∧
      r = l.find? fun p => decide (h.hash p = x) && nodePredict f h p) ∧
  ∀ h', Relation.ReflTransGen ResizeStep h h' → ∀ r r' h1 h2,
    (rTableCoreFind x (nodePredict f)).Returns exec h r h1 →
    (rTableCoreFind x (nodePredict f)).Returns exec h' r' h2 → r = r'

/-- The lowest bit in which the two hashes differ is one that can select a bucket, and is set in `y`: where a
shrink joins their buckets, the one of `x` comes first. -/
def Precedes (x y : ℕ) : Prop :=
  ∃ b < 30, x % 2 ^ b = y % 2 ^ b ∧ x.testBit b = false ∧ y.testBit b = true

/-- The condition on the table: no other hash up to the first match of the bucket, and none among the nodes
that satisfy `f` that a resize can bring in front of it.  Hashes that agree in 30 bits are never parted. -/
structure HashOnly (h : Heap K φ) (x : ℕ) (f : Ptr → ℕ → K → Bool) : Prop where
  bucket : ∀ l, Path h.next (h.next (h.bucket x)) l → ∀ p ∈ asked (nodePredict f h) l, h.hash p = x
  others : ∀ q, h.Linked q → nodePredict f h q = true → h.hash q % 2 ^ 30 = x % 2 ^ 30 ∨
    Precedes x (h.hash q) ∧ ∃ p, h.InBucket x p ∧ nodePredict f h p = true

/-! ### Resizes -/

/-- What one resize does to a flat table. -/
inductive ResizedTo (h : Heap K φ) (g : View) : Heap K φ → View → Prop
  | expanded {h' : Heap K φ} {g' : View} (he : Expanded h g h' g') : ResizedTo h g h' g'
  | shrunk {h' : Heap K φ} {g' : View} (hs : Shrunk h g h' g') : ResizedTo h g h' g'
  | single : g.n = 1 → ResizedTo h g h g

theorem ResizeStep.resizedTo (hf : Flat h g) (hs : ResizeStep h h') : ∃ g', ResizedTo h g h' g' := by
  rcases hs with hret | ⟨b, hret⟩
  · have hsim : Guarded Perm.none _ _ h g := rTableCoreExpandBuckets2x_guarded hf
    obtain ⟨g', he⟩ := hsim.total.2 _ _ (exec32_restricts.returns hret)
    exact ⟨g', .expanded he⟩
  · have hsim : Guarded Perm.none _ _ h g := rTableCoreShrinkBuckets2x_guarded hf
    obtain ⟨g', ⟨h1, -, rfl, rfl⟩ | ⟨-, hs⟩⟩ := hsim.total.2 _ _ (exec32_restricts.returns hret)
    · exact ⟨_, .single h1⟩
    · exact ⟨g', .shrunk hs⟩

/-- A resize on the machine leaves a table of the machine. -/
theorem ResizeStep.nrBuckets_le (hf : Flat h g) (hn : h.nrBuckets ≤ 2 ^ 30) (hs : ResizeStep h h') :
    h'.nrBuckets ≤ 2 ^ 30 := by
  rcases hs with hret | ⟨b, hret⟩
  · have hret' := exec32_restricts.returns hret
    have hlt := (rTableCoreExpandBuckets2x_returns32_iff hret').mp hret
    have hsim : Guarded Perm.none _ _ h g := rTableCoreExpandBuckets2x_guarded hf
    obtain ⟨g', he⟩ := hsim.total.2 _ _ hret'
    refine he.flat.nrBuckets_le ?_
    rw [he.flat.nrBuckets, he.n, ← hf.nrBuckets]
    exact hlt
  · have hsim : Guarded Perm.none _ _ h g := rTableCoreShrinkBuckets2x_guarded hf
    obtain ⟨g', ⟨-, -, rfl, rfl⟩ | ⟨-, hs⟩⟩ := hsim.total.2 _ _ (exec32_restricts.returns hret)
    · exact hn
    · have hn' := hs.n
      rw [hs.flat.nrBuckets]
      rw [hf.nrBuckets] at hn
      omega

theorem ResizedTo.flat (hf : Flat h g) (hr : ResizedTo h g h' g') : Flat h' g' := by
  cases hr with
  | expanded he => exact he.flat
  | shrunk hs => exact hs.flat
  | single => exact hf

theorem ResizedTo.frame (hr : ResizedTo h g h' g') : Frame h h' := by
  cases hr with
  | expanded he => exact he.frame
  | shrunk hs => exact hs.frame
  | single => exact .refl h

theorem ResizedTo.linked (hf : Flat h g) (hr : ResizedTo h g h' g') {p : Ptr} :
    g'.Linked p ↔ g.Linked p := by
  cases hr with
  | expanded he => exact he.linked hf
  | shrunk hs => exact hs.linked
  | single => exact Iff.rfl

theorem exists_expanded (hf : Flat h g) (hn : g.n * 2 < 2 ^ 31) :
    ∃ h' g', ResizeStep h h' ∧ Expanded h g h' g' := by
  have hsim : Guarded Perm.none _ _ h g := rTableCoreExpandBuckets2x_guarded hf
  obtain ⟨⟨_, h', hret⟩, hall⟩ := hsim.total
  obtain ⟨g', he⟩ := hall _ _ hret
  refine ⟨h', g', Or.inl ((rTableCoreExpandBuckets2x_returns32_iff hret).mpr ?_), he⟩
  rwa [hf.nrBuckets]

theorem exists_shrunk (hf : Flat h g) (hn : g.n < 2 ^ 31) (h1 : g.n ≠ 1) :
    ∃ h' g', ResizeStep h h' ∧ Shrunk h g h' g' := by
  have hsim : Guarded Perm.none _ _ h g := rTableCoreShrinkBuckets2x_guarded hf
  obtain ⟨⟨b, h', hret⟩, hall⟩ := hsim.total
  obtain ⟨g', ⟨hone, -⟩ | ⟨-, hs⟩⟩ := hall _ _ hret
  · exact absurd hone h1
  · refine ⟨h', g', Or.inr ⟨b, rTableCoreShrinkBuckets2x_returns32 ?_ hret⟩, hs⟩
    rwa [hf.nrBuckets]

/-- Another flat table with the same nodes that resizes lead to. -/
structure Reaches (h : Heap K φ) (g : View) (h' : Heap K φ) (g' : View) : Prop where
  steps : Relation.ReflTransGen ResizeStep h h'
  flat : Flat h' g'
  frame : Frame h h'
  linked : ∀ p, g'.Linked p ↔ g.Linked p
  le : h'.nrBuckets ≤ 2 ^ 30

theorem Reaches.refl (hf : Flat h g) (hle : h.nrBuckets ≤ 2 ^ 30) : Reaches h g h g :=
  ⟨.refl, hf, .refl h, fun _ => Iff.rfl, hle⟩

theorem Reaches.step {h'' : Heap K φ} {g'' : View} (hr : Reaches h g h' g') (hs : ResizeStep h' h'')
    (ht : ResizedTo h' g' h'' g'') : Reaches h g h'' g'' where
  steps := hr.steps.tail hs
  flat := ht.flat hr.flat
  frame := hr.frame.trans ht.frame
  linked p := (ht.linked hr.flat).trans (hr.linked p)
  le := hs.nrBuckets_le hr.flat hr.le

theorem exists_reaches_one : ∀ {m : ℕ} {h' : Heap K φ} {g' : View}, Reaches h g h' g' → g'.n = 2 ^ m →
    m ≤ 30 → ∃ h'' g'', Reaches h g h'' g'' ∧ g''.n = 1
  | 0, _, _, hr, hn, _ => ⟨_, _, hr, hn⟩
  | m + 1, _, g', hr, hn, hm => by
    have hpos := Nat.two_pow_pos m
    have hpow : 2 ^ (m + 1) ≤ 2 ^ 30 := Nat.pow_le_pow_right (by omega) hm
    rw [pow_succ] at hn hpow
    obtain ⟨h2, g2, hs, hsh⟩ := exists_shrunk hr.flat (by omega) (by omega)
    have hn2 := hsh.n
    exact exists_reaches_one (m := m) (hr.step hs (.shrunk hsh)) (by omega) (by omega)

/-- Resizes lead to every power of two up to `2 ^ 30`. -/
theorem exists_reaches (hf : Flat h g) (hle : h.nrBuckets ≤ 2 ^ 30) : ∀ {m : ℕ}, m ≤ 30 →
    ∃ h' g', Reaches h g h' g' ∧ g'.n = 2 ^ m
  | 0, _ => by
    obtain ⟨k, hk⟩ := hf.pow
    refine exists_reaches_one (.refl hf hle) hk ((Nat.pow_le_pow_iff_right (show 1 < 2 by omega)).mp ?_)
    rwa [← hk, ← hf.nrBuckets]
  | m + 1, hm => by
    obtain ⟨h', g', hr, hn⟩ := exists_reaches hf hle (m := m) (by omega)
    have hpow : 2 ^ (m + 1) ≤ 2 ^ 30 := Nat.pow_le_pow_right (by omega) hm
    rw [pow_succ] at hpow
    obtain ⟨h2, g2, hs, he⟩ := exists_expanded hr.flat (by omega)
    exact ⟨h2, g2, hr.step hs (.expanded he), by rw [he.n, hn, pow_succ]⟩

/-! ### The order in which buckets are joined -/

theorem testBit_mod {x y b k : ℕ} (hb : b < k) (hxy : x % 2 ^ k = y % 2 ^ k) :
    x.testBit b = y.testBit b := by
  have h1 := congrArg (fun z => z.testBit b) hxy
  simpa [Nat.testBit_mod_two_pow, hb] using h1

theorem exists_lowest_bit {x y k : ℕ} (hne : x % 2 ^ k ≠ y % 2 ^ k) :
    ∃ b < k, x % 2 ^ b = y % 2 ^ b ∧ x.testBit b ≠ y.testBit b := by
  have hex : ∃ b, b < k ∧ x.testBit b ≠ y.testBit b := by
    by_contra hc
    push Not at hc
    refine hne (Nat.eq_of_testBit_eq fun i => ?_)
    rw [Nat.testBit_mod_two_pow, Nat.testBit_mod_two_pow]
    by_cases hi : i < k
    · rw [hc i hi]
    · simp [hi]
  obtain ⟨hlt, hbit⟩ := Nat.find_spec hex
  refine ⟨Nat.find hex, hlt, Nat.eq_of_testBit_eq fun i => ?_, hbit⟩
  rw [Nat.testBit_mod_two_pow, Nat.testBit_mod_two_pow]
  by_cases hi : i < Nat.find hex
  · have hmin := Nat.find_min hex hi
    push Not at hmin
    rw [hmin (by omega)]
  · simp [hi]

theorem mod_two_pow_succ (x k : ℕ) : x % 2 ^ (k + 1) = x % 2 ^ k + 2 ^ k * (x.testBit k).toNat := by
  rw [Nat.mod_pow_succ, Nat.testBit_eq_decide_div_mod_eq]
  have := Nat.mod_two_eq_zero_or_one (x / 2 ^ k)
  rcases this with h0 | h0 <;> rw [h0] <;> rfl

/-- A hash of the upper one of two buckets that are joined precedes none of the lower one. -/
theorem not_precedes {x y i k : ℕ} (hi : i < 2 ^ k) (hx : x % 2 ^ (k + 1) = i + 2 ^ k)
    (hy : y % 2 ^ (k + 1) = i) : ¬ Precedes x y := by
  rintro ⟨b, -, hagree, hxb, hyb⟩
  have hdvd : 2 ^ k ∣ 2 ^ (k + 1) := pow_dvd_pow 2 (Nat.le_succ k)
  have hx' : x % 2 ^ k = i := by
    rw [← Nat.mod_mod_of_dvd x hdvd, hx, Nat.add_mod_right, Nat.mod_eq_of_lt hi]
  have hy' : y % 2 ^ k = i := by
    rw [← Nat.mod_mod_of_dvd y hdvd, hy, Nat.mod_eq_of_lt hi]
  have hik : i.testBit k = false := Nat.testBit_lt_two_pow hi
  have hxk : x.testBit k = true := by
    have h1 : (x % 2 ^ (k + 1)).testBit k = x.testBit k := by simp [Nat.testBit_mod_two_pow]
    rw [← h1, hx, Nat.add_comm, Nat.testBit_two_pow_add_eq, hik]
    rfl
  have hyk : y.testBit k = false := by
    have h1 : (y % 2 ^ (k + 1)).testBit k = y.testBit k := by simp [Nat.testBit_mod_two_pow]
    rw [← h1, hy, hik]
  rcases lt_trichotomy b k with hlt | rfl | hgt
  · rw [testBit_mod hlt (hx'.trans hy'.symm), hyb] at hxb
    cases hxb
  · rw [hxk] at hxb
    cases hxb
  · rw [testBit_mod hgt hagree, hyk] at hxk
    cases hxk

/-- Hashes that agree in 30 bits share a bucket. -/
theorem Flat.slot_congr (hf : Flat h g) (hle : h.nrBuckets ≤ 2 ^ 30) {x y : ℕ}
    (hxy : x % 2 ^ 30 = y % 2 ^ 30) : g.slot x = g.slot y := by
  obtain ⟨k, hk⟩ := hf.pow
  rw [hf.nrBuckets, hk] at hle
  rw [hf.toRep.slot_eq, hf.toRep.slot_eq, hk]
  exact (show x ≡ y [MOD 2 ^ 30] from hxy).of_dvd
    (pow_dvd_pow 2 ((Nat.pow_le_pow_iff_right (by omega)).mp hle))

/-! ### The answer along the resizes -/

theorem find_eq_none_of_no_match {f : Heap K φ → Ptr → Bool} (hr : Rep h g)
    (hno : ∀ q, g.Linked q → f h q = false) : (g.chain (g.slot x)).find? (f h) = none :=
  List.find?_eq_none.mpr fun q hq => by simp [hno q ⟨_, hr.slot_lt x, hq⟩]

/-- A match that is first in its bucket stays first, when no match of another hash precedes it. -/
theorem ResizedTo.find_some (hf : Flat h g) (hle : h.nrBuckets ≤ 2 ^ 30) (hr : ResizedTo h g h' g')
    {f : Ptr → ℕ → K → Bool} {p : Ptr} (hp : h.hash p = x) (hothers : ∀ q, g.Linked q →
      nodePredict f h q = true → h.hash q % 2 ^ 30 = x % 2 ^ 30 ∨ Precedes x (h.hash q))
    (hfind : (g.chain (g.slot x)).find? (nodePredict f h) = some p) :
    (g'.chain (g'.slot x)).find? (nodePredict f h') = some p := by
  have hpred : nodePredict f h' = nodePredict f h := by
    unfold nodePredict
    rw [hr.frame.hash, hr.frame.key]
  rw [hpred]
  obtain ⟨hfp, s, t, hchain, hno⟩ := List.find?_eq_some_iff_append.mp hfind
  have hlt := hf.slot_lt x
  cases hr with
  | expanded he =>
    have hslot : g'.slot x = expandedId h g p := by
      rw [he.flat.toRep.slot_eq, expandedId_eq hf.toRep, he.n, hp]
    have hlt' : g'.slot x < g'.n := he.flat.slot_lt x
    have hmod : g'.slot x % g.n = g.slot x := by
      rw [he.flat.toRep.slot_eq, hf.toRep.slot_eq, he.n, Nat.mod_mul_right_mod]
    rw [he.chain _ hlt', hmod, hchain, List.filter_append, List.filter_cons_of_pos (by simp [hslot])]
    refine List.find?_eq_some_iff_append.mpr ⟨hfp, _, _, rfl, fun q hq => ?_⟩
    exact hno q (List.mem_filter.mp hq).1
  | shrunk hs =>
    have hn := hs.n
    have hlt' : g'.slot x < g'.n := hs.flat.slot_lt x
    rw [hs.chain _ hlt', List.find?_append]
    have hcases : g.slot x = g'.slot x ∨ g.slot x = g'.slot x + g'.n := by
      rw [hf.toRep.slot_eq, hs.flat.toRep.slot_eq, hn, Nat.mul_comm, Nat.mod_mul]
      have := Nat.mod_two_eq_zero_or_one (x / g'.n)
      rcases this with h0 | h0 <;> rw [h0] <;> omega
    rcases hcases with hc | hc
    · rw [← hc, hfind]
      rfl
    · -- the lower bucket has no match: its hashes would have to come after `x`
      rw [← hc, hfind, List.find?_eq_none.mpr fun q hq => ?_]
      · rfl
      · intro hm
        obtain ⟨k, hk⟩ := hs.flat.pow
        have hq' : h.hash q % g.n = g'.slot x := hf.mod (by omega) hq
        rcases hothers q ⟨_, by omega, hq⟩ hm with hqx | hprec
        · rw [← hf.toRep.slot_eq, hf.slot_congr hle hqx] at hq'
          omega
        · have hx' : x % g.n = g'.slot x + g'.n := by rw [← hf.toRep.slot_eq, hc]
          have hn' : g.n = 2 ^ (k + 1) := by rw [hn, hk, pow_succ, Nat.mul_comm]
          rw [hn'] at hq' hx'
          rw [hk] at hx' hlt'
          exact not_precedes hlt' hx' hq' hprec
  | single => exact hfind

theorem rTableCoreFind_returns (hf : Flat h g) {f : Heap K φ → Ptr → Bool} {r : Option Ptr}
    (hret : (rTableCoreFind x f).Returns exec h r h') : r = (g.chain (g.slot x)).find? (f h) := by
  obtain ⟨⟨a, s, hlog⟩, hall⟩ := rTableCoreFind_total hf x f
  obtain ⟨rfl, -⟩ := hret.det exec hlog.of_logged
  exact (hall _ _ hlog).2.1

theorem exists_find_returns (hf : Flat h g) (x : ℕ) (f : Heap K φ → Ptr → Bool) :
    (rTableCoreFind x f).Returns exec h ((g.chain (g.slot x)).find? (f h)) h := by
  obtain ⟨⟨a, s, hlog⟩, hall⟩ := rTableCoreFind_total hf x f
  obtain ⟨hs, rfl, -⟩ := hall _ _ hlog
  have hret := hlog.of_logged
  rwa [hs] at hret

/-- Under the condition a lookup gives the same answer after any resizes. -/
theorem HashOnly.stable (hf : Flat h g) (hle : h.nrBuckets ≤ 2 ^ 30) {f : Ptr → ℕ → K → Bool}
    (hc : HashOnly h x f) (hsteps : Relation.ReflTransGen ResizeStep h h') : ∃ g', Reaches h g h' g' ∧
      (g'.chain (g'.slot x)).find? (nodePredict f h') = (g.chain (g.slot x)).find? (nodePredict f h) := by
  have hpath : Path h.next (h.next (h.bucket x)) (g.chain (g.slot x)) := by
    rw [hf.toRep.bucket]
    exact (hf.path _ (hf.slot_lt x)).2
  have hothers : ∀ q, g.Linked q → nodePredict f h q = true →
      h.hash q % 2 ^ 30 = x % 2 ^ 30 ∨ Precedes x (h.hash q) := fun q hq hm =>
    (hc.others q (hf.linked_heap.mpr hq) hm).imp_right And.left
  induction hsteps with
  | refl => exact ⟨g, .refl hf hle, rfl⟩
  | @tail h1 h2 _ hs ih =>
    obtain ⟨g1, hr, hfind⟩ := ih
    obtain ⟨g2, hstep⟩ := hs.resizedTo hr.flat
    have hpred : ∀ {h' : Heap K φ}, Frame h h' → nodePredict f h' = nodePredict f h := by
      intro h' hframe
      unfold nodePredict
      rw [hframe.hash, hframe.key]
    refine ⟨g2, hr.step hs hstep, ?_⟩
    cases hp : (g.chain (g.slot x)).find? (nodePredict f h) with
    | none =>
      have hno : ∀ q, g2.Linked q → nodePredict f h2 q = false := by
        intro q hq
        rw [hpred (hr.step hs hstep).frame]
        by_contra hm
        rw [Bool.not_eq_false] at hm
        have hno := List.find?_eq_none.mp hp
        have hql := ((hr.step hs hstep).linked q).mp hq
        rcases hc.others q (hf.linked_heap.mpr hql) hm with hqx | ⟨-, p, hpx, hpm⟩
        · exact hno q (hf.slot_congr hle hqx ▸ hf.linked_home hql) hm
        · exact hno p (hf.inBucket_iff.mp hpx) hpm
      exact find_eq_none_of_no_match (hr.step hs hstep).flat.toRep hno
    | some p =>
      rw [hp] at hfind
      have hpx : h1.hash p = x := by
        rw [hr.frame.hash]
        exact hc.bucket _ hpath p (mem_asked_of_find hp)
      refine hstep.find_some hr.flat hr.le hpx ?_ hfind
      intro q hq hm
      rw [hpred hr.frame] at hm
      rw [hr.frame.hash]
      exact hothers q ((hr.linked q).mp hq) hm

/-- A match of another hash, in a table whose resizes make no difference. -/
theorem precedes_of_stable (hf : Flat h g) (hle : h.nrBuckets ≤ 2 ^ 30) {f : Ptr → ℕ → K → Bool}
    (hbucket : ∀ p ∈ asked (nodePredict f h) (g.chain (g.slot x)), h.hash p = x) {q : Ptr}
    (hq : g.Linked q) (hm : nodePredict f h q = true) (hqx : h.hash q % 2 ^ 30 ≠ x % 2 ^ 30)
    (hsame : ∀ {h' : Heap K φ} {g' : View}, Reaches h g h' g' →
      (g'.chain (g'.slot x)).find? (nodePredict f h') = (g.chain (g.slot x)).find? (nodePredict f h)) :
    Precedes x (h.hash q) ∧ ∃ p, h.InBucket x p ∧ nodePredict f h p = true := by
  have hpred : ∀ {h' : Heap K φ}, Frame h h' → nodePredict f h' = nodePredict f h := by
    intro h' hframe
    unfold nodePredict
    rw [hframe.hash, hframe.key]
  cases hp : (g.chain (g.slot x)).find? (nodePredict f h) with
  | none =>
    -- in a single bucket the lookup would find the match
    obtain ⟨h1, g1, hr, hn⟩ := exists_reaches hf hle (Nat.zero_le _)
    obtain ⟨j, hj, hqj⟩ := (hr.linked q).mpr hq
    have hslot := hr.flat.slot_lt x
    have hnone := (hsame hr).trans hp
    rw [show g1.slot x = j by omega, hpred hr.frame] at hnone
    exact absurd hm (List.find?_eq_none.mp hnone q hqj)
  | some p =>
    have hpx : h.hash p = x := hbucket p (mem_asked_of_find hp)
    obtain ⟨b, hb, hagree, hbit⟩ := exists_lowest_bit (Ne.symm hqx)
    cases hxb : x.testBit b with
    | false =>
      refine ⟨⟨b, hb, hagree, hxb, ?_⟩, p, hf.inBucket_iff.mpr (List.mem_of_find?_eq_some hp),
        List.find?_some hp⟩
      rw [hxb] at hbit
      simpa using hbit.symm
    | true =>
      -- a shrink that joins the two buckets would put the match first
      have hyb : (h.hash q).testBit b = false := by
        rw [hxb] at hbit
        simpa using hbit.symm
      obtain ⟨h1, g1, hr, hn⟩ := exists_reaches hf hle (show b + 1 ≤ 30 from hb)
      have hpow := Nat.two_pow_pos b
      have hle1 := hr.le
      rw [hr.flat.nrBuckets] at hle1
      rw [pow_succ] at hn
      obtain ⟨h2, g2, hs, hsh⟩ := exists_shrunk hr.flat (by omega) (by omega)
      have hn2 := hsh.n
      have hslot2 : g2.slot x = x % 2 ^ b := by rw [hsh.flat.toRep.slot_eq, show g2.n = 2 ^ b by omega]
      have hslotq : g1.slot (h1.hash q) = g2.slot x := by
        rw [hr.flat.toRep.slot_eq, hr.frame.hash, hn, ← pow_succ, mod_two_pow_succ, hyb, hslot2, hagree]
        simp
      have hslotp : g1.slot (h1.hash p) = g2.slot x + 2 ^ b := by
        rw [hr.flat.toRep.slot_eq, hr.frame.hash, hpx, hn, ← pow_succ, mod_two_pow_succ, hxb, hslot2]
        simp
      have hq1 := hr.flat.linked_home ((hr.linked q).mpr hq)
      rw [hslotq] at hq1
      have hfind := (hsame (hr.step hs (.shrunk hsh))).trans hp
      rw [hsh.chain _ (hsh.flat.slot_lt x), List.find?_append, hpred (hr.frame.trans hsh.frame)] at hfind
      cases hp1 : (g1.chain (g2.slot x)).find? (nodePredict f h) with
      | none => exact absurd hm (List.find?_eq_none.mp hp1 q hq1)
      | some p' =>
        rw [hp1] at hfind
        obtain rfl : p' = p := Option.some.inj hfind
        have hlt := hsh.flat.slot_lt x
        have hflat := hr.flat.flat _ (by omega) p' (List.mem_of_find?_eq_some hp1)
        rw [hslotp] at hflat
        omega

/-- The contract of a lookup holds exactly under the condition. -/
theorem findsByHash_iff {conf : RTableCoreConfig φ} (S : Session (K := K) fl conf) (hS : S.Fits) (x : ℕ)
    (f : Ptr → ℕ → K → Bool) : FindsByHash S.last x f ↔ HashOnly S.last x f := by
  obtain ⟨g, hf⟩ := S.flat S.len le_rfl
  have hf : Flat S.last g := hf
  have hle : S.last.nrBuckets ≤ 2 ^ 30 := hS.nrBuckets_le S.len le_rfl
  generalize S.last = h at hf hle ⊢
  have hpath : Path h.next (h.next (h.bucket x)) (g.chain (g.slot x)) := by
    rw [hf.toRep.bucket]
    exact (hf.path _ (hf.slot_lt x)).2
  constructor
  · rintro ⟨hfind, hsame⟩
    have hbucket : ∀ p ∈ asked (nodePredict f h) (g.chain (g.slot x)), h.hash p = x := by
      obtain ⟨⟨r, s, hret⟩, hall⟩ := rTableCoreFind_total hf x (nodePredict f)
      obtain ⟨-, -, hasked⟩ := hall _ _ hret
      rw [← hasked]
      exact (hfind.2 _ _ hret).1
    refine ⟨fun l hl p hp => hbucket p (hpath.det hl ▸ hp), fun q hq hm => ?_⟩
    have hql := hf.linked_heap.mp hq
    by_cases hqx : h.hash q % 2 ^ 30 = x % 2 ^ 30
    · exact Or.inl hqx
    · refine Or.inr (precedes_of_stable hf hle hbucket hql hm hqx fun hr => ?_)
      exact (hsame _ hr.steps _ _ _ _ (exists_find_returns hf x _) (exists_find_returns hr.flat x _)).symm
  · intro hc
    refine ⟨(rTableCoreFind_total hf x _).mono _ ?_, ?_⟩
    · rintro r s ⟨-, rfl, hs⟩
      rw [hs]
      refine ⟨hc.bucket _ hpath, _, hpath, find_congr_asked ?_⟩
      intro p hp
      exact decide_eq_true (hc.bucket _ hpath p hp)
    · intro h' hsteps r r' h1 h2 hr hr'
      obtain ⟨g', hreach, heq⟩ := hc.stable hf hle hsteps
      rw [rTableCoreFind_returns hf hr, rTableCoreFind_returns hreach.flat hr', heq]

/-- Two nodes in one bucket; the hash of the first differs from 0 in bit 63 only. -/
def farHash : Session (K := Unit) ratOps oneBucket :=
  churn1.call 200 (.tryInsertNoExpand 1 (2 ^ 63) fun _ _ _ => false) churn1_free (by decide +kernel)

theorem farHash_fits : farHash.Fits := by
  have hsmall : ∀ i < 2, (farHash.heap i).nrBuckets ≠ 2 ^ 30 := by decide +kernel
  exact farHash.fits_iff.mpr ⟨by decide +kernel, fun i hi _ _ _ _ => hsmall i hi⟩

/-- No resize parts the two nodes, so a lookup of the first one keeps finding it. -/
theorem farHash_findsByHash : FindsByHash farHash.last (2 ^ 63) fun _ _ _ => true := by
  refine (findsByHash_iff farHash farHash_fits _ _).mpr ⟨?_, ?_⟩
  · intro l hl p hp
    have hwalk : Chain.walk farHash.last.next 4 (farHash.last.next (farHash.last.bucket (2 ^ 63))) =
        some [.node 1, .node 0] := by decide +kernel
    obtain rfl := (path_of_walk hwalk).det hl
    obtain rfl : p = .node 1 := by simpa [asked, nodePredict] using hp
    decide +kernel
  · intro q hq _
    have hnodes : farHash.last.nodes 4 = some [.node 1, .node 0] := by decide +kernel
    have hmem := (Heap.linked_iff_of_nodes hnodes).mp hq
    simp only [List.mem_cons, List.not_mem_nil, or_false] at hmem
    rcases hmem with rfl | rfl
    · exact Or.inl (by decide +kernel)
    · exact Or.inl (by decide +kernel)

/-- One bucket with node 0 of hash 0: a lookup of hash 1 asks about it, and returns it. -/
theorem churn1_find : ¬ ∀ (S : Session (K := Unit) ratOps oneBucket), S.Fits → ∀ (x : ℕ)
    (f : Ptr → ℕ → Unit → Bool), FindsByHash S.last x f := by
  intro hall
  have hsmall : ∀ i < 1, (churn1.heap i).nrBuckets ≠ 2 ^ 30 := by decide +kernel
  have hfits : churn1.Fits := churn1.fits_iff.mpr ⟨by decide +kernel, fun i hi _ _ _ _ => hsmall i hi⟩
  obtain ⟨⟨-, hasked⟩, -⟩ := hall churn1 hfits 1 fun _ _ _ => true
  have hrun : ((rTableCoreFind 1 (nodePredict fun _ _ _ => true)).run (logged exec Act.asks) 20
      (churn1.last, [])).map (fun r => (r.1, r.2.2)) = some (some (.node 0), [.node 0]) := by
    decide +kernel
  obtain ⟨⟨r, s⟩, hret, hr⟩ := Option.map_eq_some_iff.mp hrun
  obtain ⟨-, hs⟩ := Prod.mk.inj hr
  have h1 := (hasked _ _ ⟨20, hret⟩).1 (.node 0) (by rw [show s.2 = _ from hs]; simp)
  exact absurd h1 (by decide +kernel)

end RcuTable
