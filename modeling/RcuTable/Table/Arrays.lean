import RcuTable.Lib.Protocol
import RcuTable.Table.Init
import RcuTable.Table.Ops

/-!
# Table.Arrays — who owns the bucket arrays

The table owns the published `BucketsInfo`, and during a resize one more: the new one until it is published, then
the one that it has replaced until that is freed.  `arrayUse` says so as a protocol for the allocations, the
publications and the frees; every call keeps to it, whatever the heap (`Op.obeys`).
-/

namespace RcuTable

open Atomic Atomic.Prog

variable {K φ α : Type}

/-- The destructor. -/
def destroyRTableCore : Code K φ Unit := do
  let p ← Prog.lift .loadInfo
  if p ≠ 0 then destroyAndFreeBuckets p

/-- The published array, and the other one that the table owns. -/
structure Arrays where
  info : Option ℕ
  spare : Option ℕ

/-- No array is allocated, published or freed. -/
def Act.Plain : {β : Type} → Act K φ β → Prop
  | _, .malloc _ | _, .storeInfo _ | _, .free _ => False
  | _, _ => True

/-- One array at a time is allocated, published, and freed when it is replaced. -/
def arrayUse : Protocol (Act K φ) Arrays where
  allows {_} q a := match a with
    | .malloc _ => q.spare = none
    | .storeInfo b | .free b => q.spare = some b
    | _ => True
  step {_} q a v q' := match a, v with
    | .loadInfo, b => q' = q ∧ ∀ b', q.info = some b' → b = b'
    | .malloc _, b => q' = ⟨q.info, some b⟩
    | .storeInfo b, _ => q' = ⟨some b, q.info⟩
    | .free _, _ => q' = ⟨q.info, none⟩
    | _, _ => q' = q

/-- The arrays of the table are allocated, and no others beside those of `base`. -/
structure Owns (base : ℕ → Prop) (q : Arrays) (h : Heap K φ) : Prop where
  info : ∀ b, q.info = some b → h.pBucketsInfo = b ∧ ¬ base b ∧ q.spare ≠ some b
  spare : ∀ b, q.spare = some b → ¬ base b
  live : ∀ b, h.live b = true ↔ base b ∨ q.info = some b ∨ q.spare = some b
  fresh : ∀ b, h.live b = true → b < h.fresh
  null : h.live 0 = false
  pos : 0 < h.fresh

/-! ### The protocol on the heap -/

theorem Act.Plain.step {β : Type} {a : Act K φ β} (ha : a.Plain) (q : Arrays) :
    arrayUse.allows q a ∧ ∀ v q', arrayUse.step q a v q' → q' = q := by
  cases a with
  | malloc | storeInfo | free => exact absurd ha id
  | loadInfo => exact ⟨trivial, fun v q' h => h.1⟩
  | _ => exact ⟨trivial, fun v q' h => h⟩

theorem arrayUse_abstracts (base : ℕ → Prop) :
    Abstracts (exec (K := K) (φ := φ)) arrayUse (Owns base) := by
  intro β a q h h' v hq hallow he
  cases a with
  | malloc n =>
    obtain ⟨rfl, rfl⟩ := Prod.mk.inj (Option.some.inj he)
    have hspare : q.spare = none := hallow
    have hnew : ¬ h.live h.fresh = true := fun hl => absurd (hq.fresh _ hl) (Nat.lt_irrefl _)
    refine ⟨⟨q.info, some h.fresh⟩, rfl, ?_, ?_, ?_, ?_, ?_, Nat.succ_pos _⟩
    · intro b hb
      obtain ⟨h1, h2, -⟩ := hq.info b hb
      refine ⟨h1, h2, fun heq => hnew ?_⟩
      rw [Option.some.inj heq]
      exact (hq.live b).mpr (Or.inr (Or.inl hb))
    · rintro b hb hbase
      obtain rfl := Option.some.inj hb
      exact hnew ((hq.live _).mpr (Or.inl hbase))
    · intro b
      show Function.update h.live h.fresh true b = true ↔ _
      by_cases hb : b = h.fresh
      · subst hb
        simp
      · rw [Function.update_of_ne hb, hq.live, hspare]
        simp [Ne.symm hb]
    · intro b hb
      show b < h.fresh + 1
      by_cases hbf : b = h.fresh
      · omega
      · have hl : h.live b = true := (Function.update_of_ne hbf _ _).symm.trans hb
        exact Nat.lt_succ_of_lt (hq.fresh b hl)
    · exact (Function.update_of_ne hq.pos.ne _ _).trans hq.null
  | storeInfo b =>
    obtain ⟨-, rfl⟩ := Prod.mk.inj (Option.some.inj he)
    have hspare : q.spare = some b := hallow
    refine ⟨⟨some b, q.info⟩, rfl, ?_, ?_, ?_, hq.fresh, hq.null, hq.pos⟩
    · rintro b' hb'
      obtain rfl := Option.some.inj hb'
      exact ⟨rfl, hq.spare b hspare, fun heq => (hq.info b heq).2.2 hspare⟩
    · exact fun b' hb' => (hq.info b' hb').2.1
    · intro b'
      rw [hq.live, hspare]
      tauto
  | free b =>
    have hspare : q.spare = some b := hallow
    have hlive : h.live b = true := (hq.live b).mpr (Or.inr (Or.inr hspare))
    simp only [exec, hlive, if_true] at he
    obtain ⟨-, rfl⟩ := Prod.mk.inj (Option.some.inj he)
    refine ⟨⟨q.info, none⟩, rfl, ?_, fun b' hb' => (by cases hb'), ?_, ?_, ?_, hq.pos⟩
    · exact fun b' hb' => ⟨(hq.info b' hb').1, (hq.info b' hb').2.1, fun heq => by cases heq⟩
    · intro b'
      show Function.update h.live b false b' = true ↔ _
      by_cases hb : b' = b
      · subst hb
        have hinfo : q.info ≠ some b' := fun heq => (hq.info b' heq).2.2 hspare
        simp [hq.spare b' hspare, hinfo]
      · rw [Function.update_of_ne hb, hq.live, hspare]
        simp [Ne.symm hb]
    · intro b' hb'
      by_cases hb : b' = b
      · subst hb
        simp at hb'
      · exact hq.fresh b' ((Function.update_of_ne hb _ _).symm.trans hb')
    · by_cases hb : 0 = b
      · subst hb
        show Function.update h.live 0 false 0 = false
        exact Function.update_self _ _ _
      · exact (Function.update_of_ne hb _ _).trans hq.null
  | loadInfo =>
    obtain ⟨rfl, rfl⟩ := Prod.mk.inj (Option.some.inj he)
    exact ⟨q, ⟨rfl, fun b hb => (hq.info b hb).1⟩, hq⟩
  | loadNext p | nrBuckets b =>
    simp only [exec] at he
    split at he
    · obtain ⟨-, rfl⟩ := Prod.mk.inj (Option.some.inj he)
      exact ⟨q, rfl, hq⟩
    · cases he
  | storeNext p w =>
    simp only [exec] at he
    split at he
    · obtain ⟨-, rfl⟩ := Prod.mk.inj (Option.some.inj he)
      exact ⟨q, rfl, hq.info, hq.spare, hq.live, hq.fresh, hq.null, hq.pos⟩
    · cases he
  | fail => cases he
  | storeHash | fetchAddSize | storeFactors =>
    obtain ⟨-, rfl⟩ := Prod.mk.inj (Option.some.inj he)
    exact ⟨q, rfl, hq.info, hq.spare, hq.live, hq.fresh, hq.null, hq.pos⟩
  | loadHash | ask | loadSize | expandFactor | shrinkFactor | rcuSynchronize =>
    obtain ⟨-, rfl⟩ := Prod.mk.inj (Option.some.inj he)
    exact ⟨q, rfl, hq⟩

/-- A published array is replaced, never withdrawn. -/
theorem arrayUse_published (base : ℕ → Prop) :
    Abstracts (exec (K := K) (φ := φ)) arrayUse fun q h => Owns base q h ∧ q.info ≠ none := by
  rintro β a q h h' v ⟨hq, hinfo⟩ hallow he
  obtain ⟨q', hstep, hq'⟩ := arrayUse_abstracts base a q h h' v hq hallow he
  refine ⟨q', hstep, hq', ?_⟩
  cases a with
  | malloc | free =>
    obtain rfl := hstep
    exact hinfo
  | storeInfo b =>
    obtain rfl := hstep
    exact Option.some_ne_none b
  | loadInfo =>
    obtain ⟨rfl, -⟩ := hstep
    exact hinfo
  | _ =>
    obtain rfl := hstep
    exact hinfo

/-! ### Programs that leave the arrays alone -/

section Plain

/-- No array is allocated, published or freed by the program. -/
abbrev Plain (p : Code K φ α) : Prop := Only Act.Plain p

theorem plain_load (p : Ptr) : Plain (load p : Code K φ (Option Ptr)) := .lift trivial
theorem plain_store (p : Ptr) (v : Option Ptr) : Plain (store p v : Code K φ Unit) := .lift trivial
theorem plain_ask (p : Ptr) (f : Heap K φ → Ptr → Bool) : Plain (ask p f) := .lift trivial
theorem plain_rcuSynchronize : Plain (rcuSynchronize : Code K φ Unit) := .lift trivial
theorem plain_loadInfo : Plain (Prog.lift .loadInfo : Code K φ ℕ) := .lift trivial
theorem plain_nrBuckets (b : ℕ) : Plain (Prog.lift (.nrBuckets b) : Code K φ ℕ) := .lift trivial
theorem plain_loadHash (p : Ptr) : Plain (Prog.lift (.loadHash p) : Code K φ ℕ) := .lift trivial
theorem plain_loadSize : Plain (Prog.lift .loadSize : Code K φ ℕ) := .lift trivial
theorem plain_expandFactor : Plain (Prog.lift .expandFactor : Code K φ φ) := .lift trivial
theorem plain_shrinkFactor : Plain (Prog.lift .shrinkFactor : Code K φ φ) := .lift trivial
theorem plain_storeFactors (e s : φ) : Plain (Prog.lift (.storeFactors e s) : Code K φ Unit) := .lift trivial
theorem plain_fetchAddSize : Plain (Prog.lift .fetchAddSize : Code K φ Unit) := .lift trivial

theorem plain_abort : Plain (abort : Code K φ α) := ⟨trivial, fun v => v.elim⟩

theorem plain_deref (v : Option Ptr) : Plain (deref v : Code K φ Ptr) := by
  cases v with
  | none => exact plain_abort
  | some p => trivial

theorem plain_assert (b : Bool) : Plain (assert b : Code K φ Unit) := by
  cases b with
  | false => exact plain_abort
  | true => trivial

theorem plain_bucketId (p : Ptr) (mask : ℕ) : Plain (computeHashBucketId p mask : Code K φ ℕ) :=
  (plain_loadHash p).bind fun _ => trivial

theorem plain_rcuSlistFindIf (list : Ptr) (f : Heap K φ → Ptr → Bool) : Plain (rcuSlistFindIf list f) := by
  refine (plain_load list).bind fun p => .loop ?_ p
  rintro (- | q)
  · trivial
  · refine (plain_ask q f).bind fun b => ?_
    split
    · trivial
    · exact (plain_load q).bind fun _ => trivial

theorem plain_rcuSlistRemoveIf (list : Ptr) (f : Heap K φ → Ptr → Bool) : Plain (rcuSlistRemoveIf list f) := by
  refine (plain_load list).bind fun p => .loop ?_ (list, p)
  rintro ⟨last, - | q⟩
  · trivial
  · refine (plain_ask q f).bind fun b => ?_
    split
    · exact (plain_load q).bind fun v => (plain_store last v).bind fun _ => trivial
    · exact (plain_load q).bind fun _ => trivial

theorem plain_rcuSlistPrependIfNoMatch (list p : Ptr) (f : Heap K φ → Ptr → Ptr → Bool) :
    Plain (rcuSlistPrependIfNoMatch list p f) := by
  refine (plain_load list).bind fun first => Only.bind (.loop ?_ first) fun found => ?_
  · rintro (- | q)
    · trivial
    · refine (plain_ask q _).bind fun b => ?_
      split
      · trivial
      · exact (plain_load q).bind fun _ => trivial
  · split
    · trivial
    · exact (plain_store p first).bind fun _ => (plain_store list (some p)).bind fun _ => trivial

theorem plain_shrinkTwoBucketsToOne (pSrc0 pSrc1 pDst : Ptr) :
    Plain (shrinkTwoBucketsToOne pSrc0 pSrc1 pDst : Code K φ Unit) := by
  refine (plain_load pSrc0).bind fun v0 => (plain_load pSrc1).bind fun v1 => ?_
  split
  · exact plain_store pDst v0
  · cases v0 with
    | none => exact plain_store pDst v1
    | some first =>
      refine Only.bind (.loop (fun p => (plain_load p).bind ?_) first) fun last =>
        (plain_store last v1).bind fun _ => plain_store pDst _
      rintro (- | q) <;> trivial

theorem plain_unzipOneSegment (p : Ptr) (mask : ℕ) : Plain (unzipOneSegment p mask : Code K φ Unit) := by
  refine (plain_load p).bind fun _ => (plain_deref _).bind fun x => (plain_load x).bind fun _ =>
    (plain_assert _).bind fun _ => (plain_bucketId x mask).bind fun c => (plain_load x).bind fun _ =>
    (plain_deref _).bind fun y => (plain_bucketId y mask).bind fun _ => (plain_assert _).bind fun _ =>
    Only.bind (.loop (fun s => (plain_load s).bind ?_) y) fun r =>
    (plain_store p r.1).bind fun _ => plain_store x r.2
  rintro (- | q)
  · trivial
  · refine (plain_bucketId q mask).bind fun v => ?_
    split <;> trivial

theorem plain_initTwinDstBuckets (pSrc pDst0 pDst1 : Ptr) (d0 d1 mask : ℕ) :
    Plain (initTwinDstBuckets pSrc pDst0 pDst1 d0 d1 mask : Code K φ Unit) := by
  refine (plain_load pSrc).bind fun v => Only.bind (.loop ?_ _) fun r =>
    (plain_store pDst0 r.1).bind fun _ => plain_store pDst1 r.2
  rintro ⟨- | q, s⟩
  · trivial
  · have hrest : ∀ a b : Option Ptr, Plain (if a ≠ none ∧ b ≠ none then pure (.inr (a, b)) else do
        let p ← load q
        pure (.inl (p, a, b)) :
          Code K φ ((Option Ptr × Option Ptr × Option Ptr) ⊕ (Option Ptr × Option Ptr))) := by
      intro a b
      split
      · trivial
      · exact (plain_load q).bind fun _ => trivial
    refine (plain_bucketId q mask).bind fun d => (plain_assert _).bind fun _ => ?_
    dsimp only
    split
    · exact hrest _ _
    · exact hrest _ _

theorem plain_findFirstUnzipPoint (p : Ptr) (mask : ℕ) :
    Plain (findFirstUnzipPoint p mask : Code K φ Bool) := by
  refine (plain_load p).bind fun _ => (plain_deref _).bind fun x => (plain_bucketId x mask).bind fun c =>
    Only.bind (.loop (fun s => (plain_load s).bind ?_) x) fun r => (plain_store p r).bind fun _ => trivial
  rintro (- | q)
  · trivial
  · refine (plain_bucketId q mask).bind fun v => ?_
    split <;> trivial

theorem plain_findFirstUnzipStarts (old mask : ℕ) :
    Plain (findFirstUnzipStarts old mask : Code K φ Bool) := by
  refine (plain_nrBuckets old).bind fun nr => Only.bind (Only.forFrom ?_ nr 0 true) ?_
  · intro i s
    refine (plain_load _).bind fun v => ?_
    split
    · refine (plain_findFirstUnzipPoint _ mask).bind fun needUnzip => ?_
      split <;> trivial
    · trivial
  · intro allFinished
    split <;> trivial

theorem plain_unzip (old mask : ℕ) : Plain (unzip old mask : Code K φ Unit) := by
  refine .loop (fun _ => (plain_nrBuckets old).bind fun nr => Only.bind (Only.forFrom ?_ nr 0 true) ?_) ()
  · intro i s
    refine (plain_load _).bind fun v => ?_
    split
    · exact (plain_unzipOneSegment _ mask).bind fun _ => trivial
    · trivial
  · intro allFinished
    split
    · trivial
    · exact plain_rcuSynchronize.bind fun _ => trivial

theorem plain_rTableCoreFind (x : ℕ) (f : Heap K φ → Ptr → Bool) : Plain (rTableCoreFind x f) :=
  plain_loadInfo.bind fun b => (plain_nrBuckets b).bind fun _ => plain_rcuSlistFindIf _ f

theorem plain_rTableCoreTryDetachNoShrink (x : ℕ) (f : Heap K φ → Ptr → Bool) :
    Plain (rTableCoreTryDetachNoShrink x f) :=
  plain_loadInfo.bind fun b => (plain_nrBuckets b).bind fun _ => plain_rcuSlistRemoveIf _ f

theorem plain_rTableCoreTryInsertNoExpand (p : Ptr) (x : ℕ) (f : Heap K φ → Ptr → Ptr → Bool) :
    Plain (rTableCoreTryInsertNoExpand p x f) := by
  refine Only.bind (.lift trivial) fun _ => plain_loadInfo.bind fun b => (plain_nrBuckets b).bind fun _ =>
    (plain_loadHash p).bind fun _ => (plain_rcuSlistPrependIfNoMatch _ p f).bind fun inserted => ?_
  cases inserted with
  | false => trivial
  | true => exact plain_fetchAddSize.bind fun _ => trivial

theorem plain_rTableCoreInsertNoExpand (p : Ptr) : Plain (rTableCoreInsertNoExpand p : Code K φ Unit) :=
  plain_loadInfo.bind fun b => (plain_nrBuckets b).bind fun _ => (plain_loadHash p).bind fun _ =>
    (plain_load _).bind fun v => (plain_store p v).bind fun _ => (plain_store _ _).bind fun _ =>
    plain_fetchAddSize

/-- A program that leaves the arrays alone keeps to the protocol. -/
theorem Plain.obeys {p : Code K φ α} (hp : Plain p) {F : α → Arrays → Prop} {q : Arrays} (hF : ∀ a, F a q) :
    Obeys arrayUse p F q := Only.obeys (fun _ ha => ha.step q) hp hF

end Plain

/-! ### Resizes -/

section Resizes

variable {b n : ℕ}

/-- The table owns the array `b` and no other. -/
def Arrays.only (b : ℕ) : Arrays := ⟨some b, none⟩

theorem allocateAndInitBuckets_obeys {q : Arrays} (hq : q.spare = none) (n : ℕ) :
    Obeys arrayUse (allocateAndInitBuckets n : Code K φ ℕ) (fun b q' => q' = ⟨q.info, some b⟩) q := by
  refine Obeys.bind ((plain_assert _).obeys fun _ => Obeys.bind ⟨hq, ?_⟩)
  rintro b q' rfl
  exact Obeys.bind (Plain.obeys (Only.forFrom (fun i _ => plain_store _ _) n 0 ()) fun _ => rfl)

/-- Behind the publication of a new array the old one is the spare one. -/
theorem publish_obeys {old new : ℕ} {F : α → Arrays → Prop} {k : Unit → Code K φ α}
    (hk : Obeys arrayUse (k ()) F ⟨some new, some old⟩) :
    Obeys arrayUse ((Prog.lift (.storeInfo new) : Code K φ Unit).bind k) F ⟨some old, some new⟩ := by
  refine ⟨rfl, ?_⟩
  rintro v q' rfl
  exact hk

theorem expandBucketsByFac2ReturnOld_obeys (b : ℕ) :
    Obeys arrayUse (expandBucketsByFac2ReturnOld : Code K φ ℕ)
      (fun old q => ∃ new, q = ⟨some new, some old⟩) (.only b) := by
  refine Obeys.bind ⟨trivial, ?_⟩
  rintro old q ⟨rfl, hold⟩
  obtain rfl := hold b rfl
  refine Obeys.bind ((plain_nrBuckets old).obeys fun n => Obeys.bind ?_)
  refine (allocateAndInitBuckets_obeys rfl _).mono ?_
  rintro new q rfl
  refine Obeys.bind (Plain.obeys (Only.forFrom (fun i _ => plain_initTwinDstBuckets _ _ _ _ _ _) n 0 ()) fun _ => ?_)
  refine publish_obeys (Obeys.bind (plain_rcuSynchronize.obeys fun _ => ?_))
  refine Obeys.bind ((plain_findFirstUnzipStarts _ _).obeys fun noNeedToUnzip => ?_)
  split
  · exact ⟨new, rfl⟩
  · exact Obeys.bind ((plain_unzip _ _).obeys fun _ => ⟨new, rfl⟩)

theorem destroyAndFreeBuckets_obeys {new old : ℕ} {F : Unit → Arrays → Prop} (hF : F () (.only new)) :
    Obeys arrayUse (destroyAndFreeBuckets old : Code K φ Unit) F ⟨some new, some old⟩ := by
  refine ⟨rfl, ?_⟩
  rintro v q' rfl
  exact hF

theorem rTableCoreExpandBuckets2x_obeys (b : ℕ) :
    Obeys arrayUse (rTableCoreExpandBuckets2x : Code K φ Unit) (fun _ q => ∃ b', q = .only b') (.only b) := by
  refine Obeys.bind ((expandBucketsByFac2ReturnOld_obeys b).mono ?_)
  rintro old q ⟨new, rfl⟩
  exact destroyAndFreeBuckets_obeys ⟨new, rfl⟩

theorem shrinkBucketsByFac2ReturnOld_obeys (b : ℕ) :
    Obeys arrayUse (shrinkBucketsByFac2ReturnOld : Code K φ (Option ℕ))
      (fun v q => v = none ∧ q = .only b ∨ ∃ old new, v = some old ∧ q = ⟨some new, some old⟩) (.only b) := by
  refine Obeys.bind ⟨trivial, ?_⟩
  rintro old q ⟨rfl, hold⟩
  obtain rfl := hold b rfl
  refine Obeys.bind ((plain_nrBuckets old).obeys fun n => ?_)
  dsimp only
  split
  · exact Or.inl ⟨rfl, rfl⟩
  · refine Obeys.bind ((allocateAndInitBuckets_obeys rfl _).mono ?_)
    rintro new q rfl
    refine Obeys.bind
      (Plain.obeys (Only.forFrom (fun i _ => plain_shrinkTwoBucketsToOne _ _ _) _ 0 ()) fun _ => ?_)
    refine publish_obeys (Obeys.bind (plain_rcuSynchronize.obeys fun _ => ?_))
    exact Or.inr ⟨old, new, rfl, rfl⟩

theorem rTableCoreShrinkBuckets2x_obeys (b : ℕ) :
    Obeys arrayUse (rTableCoreShrinkBuckets2x : Code K φ Bool) (fun _ q => ∃ b', q = .only b') (.only b) := by
  refine Obeys.bind ((shrinkBucketsByFac2ReturnOld_obeys b).mono ?_)
  rintro v q (⟨rfl, rfl⟩ | ⟨old, new, rfl, rfl⟩)
  · exact ⟨b, rfl⟩
  · exact Obeys.bind (destroyAndFreeBuckets_obeys ⟨new, rfl⟩)

/-- The setup of a table allocates its first array. -/
theorem rTableCoreInitDetailed_obeys (conf : RTableCoreConfig φ) :
    Obeys arrayUse (rTableCoreInitDetailed conf : Code K φ Unit) (fun _ q => ∃ b, q = .only b) ⟨none, none⟩ := by
  refine Obeys.bind ((allocateAndInitBuckets_obeys rfl _).mono ?_)
  rintro b q rfl
  refine Obeys.bind ((plain_storeFactors _ _).obeys fun _ => ⟨rfl, ?_⟩)
  rintro v q' rfl
  exact ⟨b, rfl⟩

section Necessary

variable (fl : FloatOps φ)

theorem expandBucketsByFac2IfNecessary_obeys (b s n : ℕ) :
    Obeys arrayUse (expandBucketsByFac2IfNecessary fl s n : Code K φ Unit) (fun _ q => ∃ b', q = .only b')
      (.only b) := by
  refine Obeys.bind (plain_expandFactor.obeys fun e => ?_)
  split
  · exact rTableCoreExpandBuckets2x_obeys b
  · exact ⟨b, rfl⟩

theorem shrinkBucketsByFac2IfNecessary_obeys (b s n : ℕ) :
    Obeys arrayUse (shrinkBucketsByFac2IfNecessary fl s n : Code K φ Bool) (fun _ q => ∃ b', q = .only b')
      (.only b) := by
  refine Obeys.bind (plain_shrinkFactor.obeys fun e => ?_)
  split
  · exact rTableCoreShrinkBuckets2x_obeys b
  · exact ⟨b, rfl⟩

theorem rTableCoreTryInsert_obeys (b : ℕ) (p : Ptr) (x : ℕ) (f : Heap K φ → Ptr → Ptr → Bool) :
    Obeys arrayUse (rTableCoreTryInsert fl p x f) (fun _ q => ∃ b', q = .only b') (.only b) := by
  refine Obeys.bind ((plain_rTableCoreTryInsertNoExpand p x f).obeys fun inserted => ?_)
  cases inserted with
  | false => exact ⟨b, rfl⟩
  | true =>
    refine Obeys.bind (plain_loadSize.obeys fun currentSize => Obeys.bind (plain_loadInfo.obeys fun _ =>
      Obeys.bind ((plain_nrBuckets _).obeys fun nrBuckets => Obeys.bind ?_)))
    refine (expandBucketsByFac2IfNecessary_obeys fl b currentSize nrBuckets).mono ?_
    exact fun _ q hq => hq

theorem rTableCoreTryDetachAutoShrink_obeys (b : ℕ) (x : ℕ) (f : Heap K φ → Ptr → Bool) :
    Obeys arrayUse (rTableCoreTryDetachAutoShrink fl x f) (fun _ q => ∃ b', q = .only b') (.only b) := by
  refine Obeys.bind ((plain_rTableCoreTryDetachNoShrink x f).obeys fun p => ?_)
  cases p with
  | none => exact ⟨b, rfl⟩
  | some p =>
    refine Obeys.bind (plain_loadSize.obeys fun currentSize => Obeys.bind (plain_loadInfo.obeys fun _ =>
      Obeys.bind ((plain_nrBuckets _).obeys fun nrBuckets => Obeys.bind ?_)))
    refine (shrinkBucketsByFac2IfNecessary_obeys fl b currentSize nrBuckets).mono ?_
    exact fun _ q hq => hq

/-- **Every call** begins and ends with one array. -/
theorem Op.obeys (op : Op K φ) (b : ℕ) :
    Obeys arrayUse (op.code fl) (fun _ q => ∃ b', q = .only b') (.only b) := by
  cases op with
  | tryInsert n x f => exact Obeys.bind ((rTableCoreTryInsert_obeys fl b _ x f).mono fun _ q hq => hq)
  | tryInsertNoExpand n x f =>
    exact Obeys.bind ((plain_rTableCoreTryInsertNoExpand _ x f).obeys fun _ => ⟨b, rfl⟩)
  | insertNoExpand n => exact Obeys.bind ((plain_rTableCoreInsertNoExpand _).obeys fun _ => ⟨b, rfl⟩)
  | tryDetachNoShrink x f => exact Obeys.bind ((plain_rTableCoreTryDetachNoShrink x f).obeys fun _ => ⟨b, rfl⟩)
  | tryDetachAutoShrink x f =>
    exact Obeys.bind ((rTableCoreTryDetachAutoShrink_obeys fl b x f).mono fun _ q hq => hq)
  | tryDetachAndSynchronize x f =>
    refine Obeys.bind (Obeys.bind ((rTableCoreTryDetachAutoShrink_obeys fl b x f).mono ?_))
    rintro ⟨p, synced⟩ q hq
    cases p with
    | none => exact hq
    | some p =>
      cases synced with
      | true => exact hq
      | false => exact Obeys.bind (plain_rcuSynchronize.obeys fun _ => hq)
  | expandBuckets2x => exact Obeys.bind ((rTableCoreExpandBuckets2x_obeys b).mono fun _ q hq => hq)
  | shrinkBuckets2x => exact Obeys.bind ((rTableCoreShrinkBuckets2x_obeys b).mono fun _ q hq => hq)
  | find x f => exact Obeys.bind ((plain_rTableCoreFind x f).obeys fun _ => ⟨b, rfl⟩)
  | synchronize => exact Obeys.bind (plain_rcuSynchronize.obeys fun _ => ⟨b, rfl⟩)

end Necessary

/-! ### Setup and destruction -/

/-- Memory before the setup. -/
theorem Blank.owns {h : Heap K φ} (hb : Blank h) : Owns (fun b => h.live b = true) ⟨none, none⟩ h where
  info b hb := by cases hb
  spare b hb := by cases hb
  live b := by simp
  fresh := hb.fresh
  null := hb.null
  pos := hb.pos

/-- The destructor frees the published array, and with it the last one of the table. -/
theorem destroyRTableCore_total {base : ℕ → Prop} {b : ℕ} {h : Heap K φ} (ho : Owns base (.only b) h) :
    (destroyRTableCore : Code K φ Unit).Total exec h fun _ h' => ∀ b', h'.live b' = true ↔ base b' := by
  obtain ⟨hinfo, hbase, -⟩ := ho.info b rfl
  have hlive : h.live b = true := (ho.live b).mpr (Or.inr (Or.inl rfl))
  have hne : b ≠ 0 := by
    rintro rfl
    rw [ho.null] at hlive
    cases hlive
  refine Runs.total (Runs.act rfl ?_)
  rw [hinfo, ret_bind, if_pos hne]
  have hfree : exec (.free b) h = some ((), { h with live := Function.update h.live b false }) := by
    simp [exec, hlive]
  refine Runs.act hfree (.ret ?_)
  intro b'
  show Function.update h.live b false b' = true ↔ _
  by_cases hb : b' = b
  · subst hb
    simp [hbase]
  · rw [Function.update_of_ne hb, ho.live]
    simp [Arrays.only, Ne.symm hb]

end Resizes

end RcuTable
