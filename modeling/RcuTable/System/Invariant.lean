import RcuTable.System.Find
import RcuTable.System.Model
import RcuTable.Zone.Young

/-!
# System.Invariant — what holds in every state of a table in use

`Inv` joins the three parts of a state: the zone is sound, the heap holds a view, the writer's program keeps to
`Writes`, and each reader's registers point to what the view says that readers can see.  A young reader's
registers also fit the view after the grace period that the writer is waiting for, so the invariant survives
its end.  `Inv.step` takes an action to a `Move` of heap and view.
-/

namespace RcuTable

open Atomic Chain Trans

variable {T K φ : Type}

/-- The registers of a reader hold the pointers that the point needs. -/
def Pos.Holds (l : Reading K φ) : Pos → Prop
  | .start | .done _ => True
  | .info b | .head b _ => b ∈ l.arrays
  | .loop v => ∀ q, v = some q → q ∈ l.held
  | .ask q | .load q => q ∈ l.held

/-- What a reader has loaded is in sight. -/
structure Reading.Within (l : Reading K φ) (g : View) : Prop where
  held : ∀ p ∈ l.held, g.Seen p ∧ ∃ n, p = .node n
  arrays : ∀ b ∈ l.arrays, g.arrs b

/-- Its program is at a point of a lookup. -/
def Reading.Pointed (l : Reading K φ) : Prop :=
  ∀ p, l.find = some p → ∃ (x : ℕ) (f : Heap K φ → Ptr → Bool) (pos : Pos), p = pos.code x f ∧ pos.Holds l

/-- A call under way, on a table that was flat when it began. -/
structure Calling (allow : Heap K φ → View → Ptr → Prop) (fl : FloatOps φ) (h : Heap K φ) (g : View)
    (waiting : List Ptr) (pc : SyncPc) (op : Op K φ) (p : Code K φ Res) : Prop where
  sim : ∃ h0 g0, Flat h0 g0 ∧ Sim exec (Writes (op.perm allow)) (op.Post fl h0 g0) p h g ∧
    (∀ q, g.Linked q → g0.Linked q ∨ op.own q) ∧
    ∀ q, g.dirty q → q ∈ waiting ∨ g0.Linked q ∧ ¬ g.Linked q
  own : ∀ q, op.own q → ¬ g.dirty q
  sync : pc ≠ .idle → (afterSynchronize p).isSome

/-- Between two calls. -/
structure Resting (h : Heap K φ) (g : View) (waiting : List Ptr) (pc : SyncPc) : Prop where
  flat : Flat h g
  dirty : ∀ q, g.dirty q → q ∈ waiting
  sync : pc = .idle

def WriterAt (allow : Heap K φ → View → Ptr → Prop) (fl : FloatOps φ) (h : Heap K φ) (g : View)
    (waiting : List Ptr) (pc : SyncPc) : Option (Op K φ × Code K φ Res) → Prop
  | none => Resting h g waiting pc
  | some (op, p) => Calling allow fl h g waiting pc op p

/-- **The invariant** of a table in use. -/
structure Inv [Fintype T] [DecidableEq T] (cfg : ZoneCfg) (hash : T → ℕ) (fl : FloatOps φ)
    (allow : Heap K φ → View → Ptr → Prop) (s : TableSys T K φ) (g : View) : Prop where
  zone : Zone.Sound cfg hash s.zone
  rep : Rep s.heap g
  closed : Closed s.heap g
  outside : ∀ t, ¬ (s.zone.reader t).Inside → s.reader t = .outside
  pointed : ∀ t, (s.reader t).Pointed
  within : ∀ t, (s.reader t).Within g
  young : ∀ t, s.zone.Young t → (s.reader t).Within g.synced
  writer : WriterAt allow fl s.heap g s.waiting (s.zone.sync ()) s.writer

/-- What an action does to heap and view: nothing, a change, which links only what the writer's call owns, or
the end of a grace period, which only young readers outlive. -/
inductive Move (allow : Heap K φ → View → Ptr → Prop) (s : TableSys T K φ) (g : View)
    (s' : TableSys T K φ) : View → Prop
  | stay (hh : s'.heap = s.heap) : Move allow s g s' g
  | change {g' : View} (hc : Change allow s.heap g s'.heap g') (hpc : s'.zone.sync () = .idle)
      (hnew : ∀ q, g'.Linked q → g.Linked q ∨ ∃ op p, s.writer = some (op, p) ∧ op.own q) :
      Move allow s g s' g'
  | synced (hh : s'.heap = s.heap) (hy : ∀ t, (s.zone.reader t).Inside → s.zone.Young t) :
      Move allow s g s' g.synced

theorem Op.own_node {op : Op K φ} {q : Ptr} (hq : op.own q) : ∃ n, q = .node n := by
  cases op with
  | tryInsert n | tryInsertNoExpand n | insertNoExpand n => exact ⟨n, hq⟩
  | _ => exact absurd hq id

theorem Reading.within_outside (g : View) : (outside : Reading K φ).Within g :=
  ⟨fun _ hp => absurd hp List.not_mem_nil, fun _ hb => absurd hb List.not_mem_nil⟩

theorem Reading.pointed_outside : (outside : Reading K φ).Pointed := fun _ hp => by cases hp

section Steps

variable {allow : Heap K φ → View → Ptr → Prop} {h h' : Heap K φ} {g g' : View} {l : Reading K φ} {x : ℕ}
  {f : Heap K φ → Ptr → Bool} {pos pos' : Pos}

theorem Reading.Within.change (hl : l.Within g) (hr : Rep h g) (hc : Change allow h g h' g') : l.Within g' := by
  refine ⟨fun p hp => (hl.held p hp).imp_left (hc.seen hr), ?_⟩
  intro b hb
  have hseen : g.Seen (.head b 0) := hl.arrays b hb
  exact hc.seen hr hseen

/-! ### The steps of a lookup -/

theorem Pos.asks_code : RcuTable.asks (pos.code x f) = pos.asks := by
  cases pos with
  | loop v => cases v <;> rfl
  | _ => rfl

/-- What a lookup loads is in sight, and is what its next point needs. -/
theorem Reading.Within.after (hl : l.Within g) (hr : Rep h g) (hcl : Closed h g) (hp : pos.Holds l)
    (hm : Pos.Moves x f h pos pos') :
    (l.after h (pos.code x f) (pos'.code x f)).Within g ∧
      pos'.Holds (l.after h (pos.code x f) (pos'.code x f)) := by
  -- a pointer loaded from a cell in sight
  have hload : ∀ {c : Ptr}, g.Seen c → h.accessible c = true → ∀ q ∈ l.held ++ (h.next c).toList,
      g.Seen q ∧ ∃ n, q = .node n := by
    intro c hc ha q hq
    rcases List.mem_append.mp hq with hq | hq
    · exact hl.held q hq
    · exact hcl c hc ha q (Option.mem_toList.mp hq)
  have hmem : ∀ {c q : Ptr}, h.next c = some q → q ∈ l.held ++ (h.next c).toList := fun hq =>
    List.mem_append_right _ (Option.mem_toList.mpr hq)
  have hheld : ∀ q ∈ l.held ++ [], g.Seen q ∧ ∃ n, q = .node n := by simpa using hl.held
  have harr : ∀ b ∈ l.arrays ++ [], g.arrs b := by simpa using hl.arrays
  cases hm with
  | start =>
    refine ⟨⟨hheld, fun b hb => ?_⟩, List.mem_append_right _ List.mem_cons_self⟩
    rcases List.mem_append.mp hb with hb | hb
    · exact hl.arrays b hb
    · obtain rfl := List.mem_singleton.mp hb
      exact hr.info ▸ hr.arr
  | info hb => exact ⟨⟨hheld, harr⟩, List.mem_append_left _ hp⟩
  | @head b i ha =>
    have hseen : g.Seen (.head b i) := hl.arrays b hp
    exact ⟨⟨hload hseen ha, harr⟩, fun q hq => hmem hq⟩
  | last => exact ⟨⟨hheld, harr⟩, trivial⟩
  | loop q => exact ⟨⟨hheld, harr⟩, List.mem_append_left _ (hp q rfl)⟩
  | hit hq => exact ⟨⟨hheld, harr⟩, trivial⟩
  | miss hq => exact ⟨⟨hheld, harr⟩, List.mem_append_left _ hp⟩
  | @load q ha =>
    have hseen : g.Seen q := (hl.held q hp).1
    exact ⟨⟨hload hseen ha, harr⟩, fun q' hq => hmem hq⟩

end Steps

/-! ### The writer's program -/

section Writer

variable {pm : Perm K φ} {α β : Type} {Q : α → Heap K φ → View → Prop} {p p' : Code K φ α} {h h' : Heap K φ}
  {g g' : View}

theorem Writes.guar {a : Act K φ β} {k : β → Code K φ α} (ha : afterSynchronize (.act a k) = none)
    (hw : Writes pm a h g h' g') : Guar pm h g h' g' := by
  cases a with
  | rcuSynchronize => cases ha
  | _ => exact hw

/-- The program goes on after its `rcuSynchronize` with a table whose old readers are gone. -/
theorem guarded_after (hs : Guarded pm Q p h g) (hp : afterSynchronize p = some p') :
    Guarded pm Q p' h g.synced := by
  cases hs with
  | ret | iter => cases hp
  | @act β a k _ _ v h' g' he hw hk =>
    cases a with
    | rcuSynchronize =>
      obtain rfl := Option.some.inj hp
      obtain ⟨rfl, rfl⟩ := hw
      exact hk
    | _ => cases hp

/-- A call that returns has done what it should. -/
theorem Calling.returned {allow : Heap K φ → View → Ptr → Prop} {fl : FloatOps φ} {W : List Ptr} {pc : SyncPc}
    {op : Op K φ} {r : Res} (hc : Calling allow fl h g W pc op (.ret r)) : pc = .idle ∧
      ∃ h0 g0, Flat h0 g0 ∧ op.Post fl h0 g0 r h g ∧
        ∀ q, g.dirty q → q ∈ W ∨ g0.Linked q ∧ ¬ g.Linked q := by
  obtain ⟨h0, g0, hf, hsim, -, hdirty⟩ := hc.sim
  have hpost : op.Post fl h0 g0 r h g := by
    cases hsim with
    | ret hpost => exact hpost
  refine ⟨?_, h0, g0, hf, hpost, hdirty⟩
  by_contra hne
  cases hc.sync hne

/-- What an unlinked node is when its call returns. -/
theorem Op.Post.waiting {fl : FloatOps φ} {op : Op K φ} {r : Res} {h0 : Heap K φ} {g0 : View} {W : List Ptr}
    (hp : op.Post fl h0 g0 r h g) (hd : ∀ q, g.dirty q → q ∈ W ∨ g0.Linked q ∧ ¬ g.Linked q) :
    ∀ q, g.dirty q → q ∈ op.retires r ++ W := by
  have hkeep : (∀ q, g0.Linked q → g.Linked q) → ∀ {l : List Ptr}, ∀ q, g.dirty q → q ∈ l ++ W := by
    intro hl l q hq
    rcases hd q hq with hW | ⟨h1, h2⟩
    · exact List.mem_append_right _ hW
    · exact absurd (hl q h1) h2
  have hinsert : ∀ {n x m : ℕ} {f : Heap K φ → Ptr → Ptr → Bool} {b : Bool},
      InsertPost h0 g0 n x f m b h g → ∀ q, g0.Linked q → g.Linked q := by
    rintro n x m f b (⟨-, -, -, rfl, -⟩ | ⟨-, -, hs⟩) q hq
    · exact hq
    · exact (hs.linked q).mpr (Or.inl hq)
  have hdetach : ∀ {x m : ℕ} {f : Heap K φ → Ptr → Bool} {D : Ptr → Ptr → Prop} {p : Option Ptr}
      {l : List Ptr}, DetachPost h0 g0 x f m D p h g → (∀ q, p = some q → g.dirty q → q ∈ l) →
      ∀ q, g.dirty q → q ∈ l ++ W := by
    rintro x m f D p l ⟨-, ⟨-, -, rfl⟩ | ⟨q0, rfl, hs⟩⟩ hl q hq
    · exact hkeep (fun _ => id) q hq
    · rcases hd q hq with hW | ⟨h1, h2⟩
      · exact List.mem_append_right _ hW
      · have hq0 : q = q0 := by
          by_contra hne
          exact h2 ((hs.linked q).mpr ⟨h1, hne⟩)
        exact List.mem_append_left _ (hl q (by rw [hq0]) hq)
  cases op with
  | tryInsert | tryInsertNoExpand =>
    obtain ⟨b, -, hp⟩ := hp
    exact hkeep (hinsert hp)
  | insertNoExpand => exact hkeep fun q hq => (hp.2.linked q).mpr (Or.inl hq)
  | tryDetachNoShrink =>
    obtain ⟨p, rfl, hp⟩ := hp
    exact hdetach hp fun q hq _ => Option.mem_toList.mpr hq
  | tryDetachAutoShrink =>
    obtain ⟨p, b, rfl, -, -, hp⟩ := hp
    refine hdetach hp ?_
    intro q hq hqd
    cases b with
    | false => exact Option.mem_toList.mpr hq
    | true =>
      -- the shrink has waited for every reader that could hold the node
      obtain ⟨-, ⟨hp, -⟩ | ⟨p, -, hs⟩⟩ := hp
      · rw [hp] at hq
        cases hq
      · exact absurd (hs.dirty q hqd).1 (by simp)
  | tryDetachAndSynchronize =>
    obtain ⟨p, rfl, hp⟩ := hp
    refine hdetach hp fun q hq hqd => ?_
    obtain ⟨-, ⟨hp, -⟩ | ⟨p, -, hs⟩⟩ := hp
    · rw [hp] at hq
      cases hq
    · exact absurd (hs.dirty q hqd) id
  | expandBuckets2x => exact fun q hq => absurd (hp.2.dirty q hq) id
  | shrinkBuckets2x =>
    rcases hp with ⟨-, -, -, rfl⟩ | ⟨-, -, hs⟩
    · exact hkeep fun _ => id
    · exact fun q hq => absurd (hs.dirty q hq) id
  | find =>
    obtain ⟨-, -, rfl⟩ := hp
    exact hkeep fun _ => id
  | synchronize =>
    obtain ⟨-, -, rfl⟩ := hp
    exact fun q hq => absurd hq id

/-- A step of the writer links only its own node, and unlinks none of its own. -/
theorem Guar.accounts (hr : Rep h g) (hg : Guar pm h g h' g') :
    (∀ q, g'.Linked q → g.Linked q ∨ pm.own q) ∧
      ∀ q, g'.dirty q → g.dirty q ∨ g.Linked q ∧ ¬ g'.Linked q ∧ ¬ pm.own q := by
  cases hg with
  | quiet => exact ⟨fun q => Or.inl, fun q => Or.inl⟩
  | link hown _ _ hj =>
    refine ⟨fun q hq => ?_, fun q => Or.inl⟩
    rcases (View.link_linked (hj ▸ hr.slot_lt _)).mp hq with hq | rfl
    · exact Or.inl hq
    · exact Or.inr hown
  | swing hs =>
    refine ⟨fun q hq => Or.inl (hs.linked_of hq), fun q hq => hq.imp_right ?_⟩
    rintro ⟨h1, h2⟩
    exact ⟨h1, h2, fun ho => h2 (hs.keep q ho h1)⟩
  | publish hp =>
    refine ⟨fun q hq => Or.inl ((hp.linked q).mp hq), fun q hq => Or.inl ?_⟩
    rwa [hp.dirty] at hq

/-- The books of a call after a step of it. -/
theorem Guar.calling {allow : Heap K φ → View → Ptr → Prop} {fl : FloatOps φ} {W : List Ptr}
    {op : Op K φ} {p' : Code K φ Res} {h0 : Heap K φ} {g0 : View} (hg : Guar (op.perm allow) h g h' g')
    (hr : Rep h g) (hf : Flat h0 g0) (hs : Guarded (op.perm allow) (op.Post fl h0 g0) p' h' g')
    (hlinked : ∀ q, g.Linked q → g0.Linked q ∨ op.own q)
    (hdirty : ∀ q, g.dirty q → q ∈ W ∨ g0.Linked q ∧ ¬ g.Linked q) (hown : ∀ q, op.own q → ¬ g.dirty q) :
    Calling allow fl h' g' W .idle op p' := by
  obtain ⟨hlink, hdirt⟩ := hg.accounts hr
  refine ⟨⟨h0, g0, hf, hs, ?_, ?_⟩, ?_, fun hne => absurd rfl hne⟩
  · intro q hq
    exact (hlink q hq).elim (hlinked q) Or.inr
  · intro q hq
    rcases hdirt q hq with hq' | ⟨h1, h2, h3⟩
    · refine (hdirty q hq').imp_right fun ⟨h1, h2⟩ => ⟨h1, ?_⟩
      intro hl
      exact (hlink q hl).elim h2 fun ho => hown q ho hq'
    · exact Or.inr ⟨(hlinked q h1).resolve_right h3, h2⟩
  · intro q ho hd
    exact (hdirt q hd).elim (hown q ho) fun h => h.2.2 ho

end Writer

/-! ### The steps of the system -/

section System

variable [Fintype T] [DecidableEq T] {cfg : ZoneCfg} {hash : T → ℕ} {fl : FloatOps φ}
  {allow : Heap K φ → View → Ptr → Prop} {s s' : TableSys T K φ} {g : View}

/-- One reader moves. -/
theorem Inv.setReader (hi : Inv cfg hash fl allow s g) {t : T} {l : Reading K φ}
    (hout : ¬ (s.zone.reader t).Inside → l = .outside) (hp : l.Pointed) (hw : l.Within g)
    (hy : s.zone.Young t → l.Within g.synced) : Inv cfg hash fl allow (s.setReader t l) g := by
  have hself : Function.update s.reader t l t = l := Function.update_self _ _ _
  have hother : ∀ t', t' ≠ t → Function.update s.reader t l t' = s.reader t' := fun t' hne =>
    Function.update_of_ne hne _ _
  refine ⟨hi.zone, hi.rep, hi.closed, fun t' hn => ?_, fun t' => ?_, fun t' => ?_, fun t' hyt => ?_, hi.writer⟩
  all_goals rw [TableSys.setReader_reader]
  all_goals by_cases ht : t' = t
  · subst ht
    rw [hself]
    exact hout hn
  · rw [hother t' ht]
    exact hi.outside t' hn
  · subst ht
    rwa [hself]
  · rw [hother t' ht]
    exact hi.pointed t'
  · subst ht
    rwa [hself]
  · rw [hother t' ht]
    exact hi.within t'
  · subst ht
    rw [hself]
    exact hy hyt
  · rw [hother t' ht]
    exact hi.young t' hyt

/-- A reader steps in the zone. -/
theorem Inv.setZone (hi : Inv cfg hash fl allow s g) {a : ZoneAct T Unit} {z : Zone T Unit}
    (he : Zone.Effect cfg hash s.zone a z) (ha : ∀ w, a ≠ .sync w) (hreg : Zone.RegistersApart s.zone a)
    (hout : ∀ t, a = .unlock t → s.reader t = .outside) : Inv cfg hash fl allow (s.setZone z) g := by
  have hsync := (he.same ha).1
  refine ⟨hi.zone.step he hreg, hi.rep, hi.closed, ?_, hi.pointed, hi.within, ?_, ?_⟩
  · intro t hn
    by_cases hin : (s.zone.reader t).Inside
    · obtain ⟨b, e, ht⟩ := hin
      refine hout t ?_
      by_contra hne
      exact hn ⟨b, e, he.stays_inside ht hne⟩
    · exact hi.outside t hin
  · intro t hy
    by_cases hin : (s.zone.reader t).Inside
    · exact hi.young t (he.young ha hin hy)
    · have houts : s.reader t = .outside := hi.outside t hin
      show (s.reader t).Within g.synced
      rw [houts]
      exact Reading.within_outside _
  · have hw := hi.writer
    show WriterAt allow fl s.heap g s.waiting (z.sync ()) s.writer
    rwa [hsync]

section Synchronize

variable {op : Op K φ} {p p' : Code K φ Res}

/-- The zone after a step of `rcuSynchronize`. -/
theorem Inv.zone_synchronize (hi : Inv cfg hash fl allow s g) :
    Zone.Sound cfg hash (Zone.rcuSynchronize cfg s.zone ()) ∧
      ∀ t, ¬ ((Zone.rcuSynchronize cfg s.zone ()).reader t).Inside → s.reader t = .outside := by
  have hreader : (Zone.rcuSynchronize cfg s.zone ()).reader = s.zone.reader := Zone.synchronize_reader
  refine ⟨hi.zone.step (Zone.effect_of_sync s.zone ()) trivial, ?_⟩
  intro t hn
  rw [hreader] at hn
  exact hi.outside t hn

/-- The writer steps inside `rcuSynchronize`. -/
theorem Inv.wait (hi : Inv cfg hash fl allow s g) (hw : s.writer = some (op, p))
    (hp : afterSynchronize p = some p') :
    Inv cfg hash fl allow (s.setZone (Zone.rcuSynchronize cfg s.zone ())) g := by
  have hcall := hi.writer
  rw [hw] at hcall
  obtain ⟨hzone, houtside⟩ := hi.zone_synchronize
  refine ⟨hzone, hi.rep, hi.closed, houtside, hi.pointed, hi.within,
    fun t hy => hi.young t (hi.zone.young_sync hy), ?_⟩
  show WriterAt allow fl s.heap g s.waiting _ s.writer
  rw [hw]
  exact ⟨hcall.sim, hcall.own, fun _ => by rw [hp]; rfl⟩

/-- `rcuSynchronize` returns: whoever could see more than the linked nodes is gone. -/
theorem Inv.synchronized (hi : Inv cfg hash fl allow s g) (hw : s.writer = some (op, p))
    (hp : afterSynchronize p = some p') (hidle : (Zone.rcuSynchronize cfg s.zone ()).sync () = .idle) :
    Inv cfg hash fl allow
      { s with zone := Zone.rcuSynchronize cfg s.zone (), writer := some (op, p'), waiting := [] } g.synced ∧
      ∀ t, (s.zone.reader t).Inside → s.zone.Young t := by
  have hcall := hi.writer
  rw [hw] at hcall
  obtain ⟨hzone, houtside⟩ := hi.zone_synchronize
  have hyoung : ∀ t, (s.zone.reader t).Inside → s.zone.Young t := fun t hin =>
    hi.zone.young_of_return hidle hin
  obtain ⟨h0, g0, hf, hsim, hlinked, -⟩ := hcall.sim
  refine ⟨⟨hzone, hi.rep.synced, hi.rep.closed_synced, houtside, hi.pointed, ?_,
    fun t hy => absurd hidle hy.1, ?_⟩, hyoung⟩
  · intro t
    by_cases hin : (s.zone.reader t).Inside
    · exact hi.young t (hyoung t hin)
    · show (s.reader t).Within g.synced
      rw [hi.outside t hin]
      exact Reading.within_outside _
  · exact ⟨⟨h0, g0, hf, guarded_after hsim hp, hlinked, fun q hq => absurd hq id⟩, fun q _ => id,
      fun hne => absurd hidle hne⟩

end Synchronize

/-- The writer steps in the table. -/
theorem Inv.store (hi : Inv cfg hash fl allow s g) {op : Op K φ} {p p' : Code K φ Res} {h' : Heap K φ}
    (hw : s.writer = some (op, p)) (hp : afterSynchronize p = none)
    (hstep : p.step exec s.heap = some (p', h')) :
    ∃ g', Inv cfg hash fl allow { s with heap := h', writer := some (op, p') } g' ∧
      Move allow s g { s with heap := h', writer := some (op, p') } g' := by
  have hcall := hi.writer
  rw [hw] at hcall
  have hpc : s.zone.sync () = .idle := by
    by_contra hne
    have h1 := hcall.sync hne
    rw [hp] at h1
    cases h1
  have hnoYoung : ∀ t, ¬ s.zone.Young t := fun t hy => hy.1 hpc
  obtain ⟨h0, g0, hf, hsim, hlinked, hdirty⟩ := hcall.sim
  rcases Sim.step hsim hstep with ⟨rfl, hsim'⟩ | ⟨β, a, k, v, g', rfl, he, rfl, hwr, hsim'⟩
  · refine ⟨g, ⟨hi.zone, hi.rep, hi.closed, hi.outside, hi.pointed, hi.within,
      fun t hy => absurd hy (hnoYoung t), ?_⟩, .stay rfl⟩
    exact ⟨⟨h0, g0, hf, hsim', hlinked, hdirty⟩, hcall.own, fun hne => absurd hpc hne⟩
  · have hguar := hwr.guar hp
    have hchange : Change allow s.heap g h' g' := .guar hguar fun q hq => ⟨Op.own_node hq, hcall.own q hq⟩
    refine ⟨g', ⟨hi.zone, hchange.rep hi.rep, hi.closed.change hi.rep hchange, hi.outside, hi.pointed,
      fun t => (hi.within t).change hi.rep hchange, fun t hy => absurd hy (hnoYoung t), ?_⟩,
      .change hchange hpc fun q hq => ((hguar.accounts hi.rep).1 q hq).imp_right fun ho => ⟨op, _, hw, ho⟩⟩
    show Calling allow fl h' g' s.waiting (s.zone.sync ()) op (k v)
    rw [hpc]
    exact hguar.calling hi.rep hf hsim' hlinked hdirty hcall.own

omit [Fintype T] [DecidableEq T] in
/-- A free node is out of sight between two calls. -/
theorem Resting.not_seen (hr : Resting s.heap g s.waiting (s.zone.sync ())) {n : ℕ} (hf : s.Free (.node n)) :
    ¬ g.Seen (.node n) := fun hs =>
  hs.elim (fun hl => hf.1 (hr.flat.linked_heap.mpr hl)) fun hd => hf.2 (hr.dirty _ hd)

/-- **The step of the invariant.**  `hpre`: the calls ask for nothing that does not hold. -/
theorem Inv.step (hi : Inv cfg hash fl allow s g) {a : TableAct T K φ} (hc : s.Contract a)
    (hpre : ∀ op, a = .call op → Flat s.heap g → op.Pre allow s.heap g)
    (hs : s.step cfg hash fl a = some s') : ∃ g', Inv cfg hash fl allow s' g' ∧ Move allow s g s' g' := by
  cases TableSys.step_cases hs with
  | lock hz | enter hz =>
    exact ⟨g, hi.setZone (Zone.effect_of_step hz) (by simp) trivial (by simp), .stay rfl⟩
  | @unlock t z hf hz =>
    have hi' := hi.setReader (t := t) (l := .outside) (fun _ => rfl) Reading.pointed_outside
      (Reading.within_outside g) fun _ => Reading.within_outside _
    refine ⟨g, hi'.setZone (Zone.effect_of_step hz) (by simp) trivial ?_, .stay rfl⟩
    intro t' ht
    obtain rfl : t = t' := by simpa using ht
    exact Function.update_self _ _ _
  | @begin t x f hin =>
    refine ⟨g, hi.setReader (fun hn => absurd hin hn) ?_ ?_ ?_, .stay rfl⟩
    · intro p hp
      obtain rfl := Option.some.inj hp
      exact ⟨x, f, .start, rfl, trivial⟩
    · exact ⟨(hi.within t).held, (hi.within t).arrays⟩
    · intro hy
      exact ⟨(hi.young t hy).held, (hi.young t hy).arrays⟩
  | @read t p p' h' hp hstep =>
    obtain ⟨x, f, pos, rfl, hpos⟩ := hi.pointed t p hp
    rw [Pos.step] at hstep
    obtain ⟨pos', hnext, heq⟩ := Option.map_eq_some_iff.mp hstep
    obtain ⟨rfl, rfl⟩ := Prod.mk.inj heq
    have hm := Pos.moves_of_next hnext
    obtain ⟨hw, hpos'⟩ := (hi.within t).after hi.rep hi.closed hpos hm
    refine ⟨g, hi.setReader ?_ ?_ hw ?_, .stay rfl⟩
    · intro hn
      rw [hi.outside t hn] at hp
      cases hp
    · intro p hp'
      obtain rfl := Option.some.inj hp'
      exact ⟨x, f, pos', rfl, hpos'⟩
    · intro hy
      exact ((hi.young t hy).after hi.rep.synced hi.rep.closed_synced hpos hm).1
  | @finish t r hr =>
    refine ⟨g, hi.setReader ?_ (fun p hp => by cases hp) ?_ ?_, .stay rfl⟩
    · intro hn
      rw [hi.outside t hn] at hr
      cases hr
    · exact ⟨(hi.within t).held, (hi.within t).arrays⟩
    · intro hy
      exact ⟨(hi.young t hy).held, (hi.young t hy).arrays⟩
  | @call op hw =>
    have hrest := hi.writer
    rw [hw] at hrest
    have hown : ∀ q, op.own q → ¬ g.dirty q := fun q hq hd => (hc q hq).2 (hrest.dirty q hd)
    refine ⟨g, ⟨hi.zone, hi.rep, hi.closed, hi.outside, hi.pointed, hi.within, hi.young, ?_⟩, .stay rfl⟩
    exact ⟨⟨_, _, hrest.flat, Op.guarded fl hrest.flat (hpre op rfl hrest.flat), fun q => Or.inl,
      fun q hq => Or.inl (hrest.dirty q hq)⟩, hown, fun hne => absurd hrest.sync hne⟩
  | wait hw hp => exact ⟨g, hi.wait hw hp, .stay rfl⟩
  | synchronized hw hp hz =>
    obtain ⟨hi', hyoung⟩ := hi.synchronized hw hp hz
    exact ⟨g.synced, hi', .synced rfl hyoung⟩
  | store hw hp hstep => exact hi.store hw hp hstep
  | @«return» op r hw =>
    have hcall := hi.writer
    rw [hw] at hcall
    obtain ⟨hidle, h0, g0, hf, hpost, hdirty⟩ := hcall.returned
    refine ⟨g, ⟨hi.zone, hi.rep, hi.closed, hi.outside, hi.pointed, hi.within, hi.young, ?_⟩, .stay rfl⟩
    exact ⟨hpost.flat hf, hpost.waiting hdirty, hidle⟩
  | @prepare n x k hw =>
    have hrest := hi.writer
    rw [hw] at hrest
    have hseen := Resting.not_seen hrest hc
    have hchange : Change allow s.heap g (s.heap.prepare n x k) g := .prepare hseen
    refine ⟨g, ⟨hi.zone, hchange.rep hi.rep, hi.closed.change hi.rep hchange, hi.outside, hi.pointed,
      hi.within, hi.young, ?_⟩, .change hchange hrest.sync fun q => Or.inl⟩
    show WriterAt allow fl (s.heap.prepare n x k) g s.waiting _ s.writer
    rw [hw]
    exact ⟨hrest.flat.prepare hc.1, hrest.dirty, hrest.sync⟩

end System

end RcuTable
