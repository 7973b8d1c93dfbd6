import RcuTable.Table.View

/-!
# Table.Rules — one rule for each action of the writer's programs

`Guarded pm Q p h g`: from a heap `h` that holds the view `g`, the program `p` takes only steps that `Guar`
allows, terminates, and ends in `Q`.  A load is a quiet step; a store is quiet when no reader sees the
cell, and has to be justified as a link, a swing or a publication otherwise.
-/

namespace RcuTable

open Atomic Chain

variable {K φ α β : Type} {pm : Perm K φ} {Q : α → Heap K φ → View → Prop} {h h' : Heap K φ}
  {g g' : View}

/-- The program keeps to the guarantee, terminates, and ends in `Q`. -/
abbrev Guarded (pm : Perm K φ) (Q : α → Heap K φ → View → Prop) (p : Code K φ α) (h : Heap K φ)
    (g : View) : Prop := Sim exec (Writes pm) Q p h g

theorem Quiet.refl (hr : Rep h g) : Quiet pm h g h where
  rep := hr
  next _ _ _ := rfl
  hash _ _ := rfl
  nr _ _ := rfl
  key := rfl

/-- A quiet action; `hw` says that the action is not `rcuSynchronize`. -/
theorem guarded_quiet {a : Act K φ β} {k : β → Code K φ α} {v : β} (he : exec a h = some (v, h'))
    (hq : Quiet pm h g h') (hw : Guar pm h g h' g → Writes pm a h g h' g)
    (hk : Rep h' g → Guarded pm Q (k v) h' g) : Guarded pm Q (.act a k) h g :=
  .act he (hw (.quiet hq)) (hk hq.rep)

section Loads

variable (hr : Rep h g)
include hr

theorem guarded_load {p : Ptr} {k : Option Ptr → Code K φ α} (ha : h.accessible p = true)
    (hk : Guarded pm Q (k (h.next p)) h g) : Guarded pm Q (.act (.loadNext p) k) h g :=
  guarded_quiet (by simp [exec, ha]) (.refl hr) id fun _ => hk

theorem guarded_loadHash {p : Ptr} {k : ℕ → Code K φ α} (hk : Guarded pm Q (k (h.hash p)) h g) :
    Guarded pm Q (.act (.loadHash p) k) h g :=
  guarded_quiet rfl (.refl hr) id fun _ => hk

theorem guarded_loadInfo {k : ℕ → Code K φ α} (hk : Guarded pm Q (k g.info) h g) :
    Guarded pm Q (.act .loadInfo k) h g :=
  guarded_quiet (by simp [exec, hr.info]) (.refl hr) id fun _ => hk

theorem guarded_nrBuckets {b : ℕ} {k : ℕ → Code K φ α} (hb : h.live b = true)
    (hk : Guarded pm Q (k (h.nrBucketsPowerOf2 b)) h g) :
    Guarded pm Q (.act (.nrBuckets b) k) h g :=
  guarded_quiet (by simp [exec, hb]) (.refl hr) id fun _ => hk

/-- The size of the published array. -/
theorem guarded_nrInfo {k : ℕ → Code K φ α} (hk : Guarded pm Q (k g.n) h g) :
    Guarded pm Q (.act (.nrBuckets g.info) k) h g :=
  guarded_nrBuckets hr hr.live_info (by rwa [hr.nr])

theorem guarded_loadSize {k : ℕ → Code K φ α} (hk : Guarded pm Q (k h.size) h g) :
    Guarded pm Q (.act .loadSize k) h g :=
  guarded_quiet rfl (.refl hr) id fun _ => hk

theorem guarded_expandFactor {k : φ → Code K φ α} (hk : Guarded pm Q (k h.expandFactor) h g) :
    Guarded pm Q (.act .expandFactor k) h g :=
  guarded_quiet rfl (.refl hr) id fun _ => hk

theorem guarded_shrinkFactor {k : φ → Code K φ α} (hk : Guarded pm Q (k h.shrinkFactor) h g) :
    Guarded pm Q (.act .shrinkFactor k) h g :=
  guarded_quiet rfl (.refl hr) id fun _ => hk

end Loads

/-! ### Stores that no reader sees -/

/-- A store into a cell that is in no bucket, and that no reader can stand on unless the operation owns
it. -/
theorem Quiet.setNext (hr : Rep h g) {p : Ptr} {v : Option Ptr}
    (hoff : ∀ j < g.n, p ∉ g.full j) (hseen : g.Seen p → pm.own p) :
    Quiet pm h g (h.setNext p v) where
  rep := hr.congr rfl (fun _ _ => ⟨rfl, rfl⟩) hr.null hr.fresh
    (fun j hj q hq => Function.update_of_ne (by rintro rfl; exact hoff j hj hq) _ _)
    (fun _ _ => rfl)
  next q hq hown := by
    refine Function.update_of_ne ?_ _ _
    rintro rfl
    obtain ⟨j, hj, hq'⟩ := hown (hseen hq)
    exact hoff j hj (g.mem_full.mpr (Or.inr hq'))
  hash _ _ := rfl
  nr _ _ := rfl
  key := rfl

theorem guarded_store {p : Ptr} {v : Option Ptr} {k : Unit → Code K φ α} (hr : Rep h g)
    (ha : h.accessible p = true) (hoff : ∀ j < g.n, p ∉ g.full j) (hseen : g.Seen p → pm.own p)
    (hk : Rep (h.setNext p v) g → Guarded pm Q (k ()) (h.setNext p v) g) :
    Guarded pm Q (.act (.storeNext p v) k) h g :=
  guarded_quiet (by simp [exec, ha]) (.setNext hr hoff hseen) id hk

/-- A store into the heads of an array that is not in use. -/
theorem Quiet.setHead {b i : ℕ} {v : Option Ptr} (hr : Rep h g) (hb : ¬ g.arrs b) :
    Quiet pm h g (h.setNext (.head b i) v) := by
  refine .setNext hr (fun j hj hp => hb ?_) fun hp => absurd hp hb
  rw [(hr.head_mem_full hj hp).1]
  exact hr.arr

theorem guarded_storeHead {b i : ℕ} {v : Option Ptr} {k : Unit → Code K φ α} (hr : Rep h g)
    (hb : ¬ g.arrs b) (ha : h.accessible (.head b i) = true)
    (hk : Rep (h.setNext (.head b i) v) g → Guarded pm Q (k ()) (h.setNext (.head b i) v) g) :
    Guarded pm Q (.act (.storeNext (.head b i) v) k) h g :=
  guarded_quiet (by simp [exec, ha]) (.setHead hr hb) id hk

theorem guarded_storeHash {p : Ptr} {x : ℕ} {k : Unit → Code K φ α} (hr : Rep h g)
    (hnot : ¬ g.Linked p)
    (hk : Rep { h with hash := Function.update h.hash p x } g →
      Guarded pm Q (k ()) { h with hash := Function.update h.hash p x } g) :
    Guarded pm Q (.act (.storeHash p x) k) h g := by
  have hh : ∀ q, g.Linked q → Function.update h.hash p x q = h.hash q := fun q hq =>
    Function.update_of_ne (by rintro rfl; exact hnot hq) _ _
  refine guarded_quiet rfl ⟨?_, fun _ _ _ => rfl, hh, fun _ _ => rfl, rfl⟩ id hk
  exact hr.congr rfl (fun _ _ => ⟨rfl, rfl⟩) hr.null hr.fresh (fun _ _ _ _ => rfl) hh

theorem guarded_fetchAddSize {k : Unit → Code K φ α} (hr : Rep h g)
    (hk : Rep { h with size := h.size + 1 } g →
      Guarded pm Q (k ()) { h with size := h.size + 1 } g) :
    Guarded pm Q (.act .fetchAddSize k) h g := by
  refine guarded_quiet rfl ⟨?_, fun _ _ _ => rfl, fun _ _ => rfl, fun _ _ => rfl, rfl⟩ id hk
  exact hr.congr rfl (fun _ _ => ⟨rfl, rfl⟩) hr.null hr.fresh (fun _ _ _ _ => rfl) fun _ _ => rfl

/-- A fresh array is not in use. -/
theorem Rep.fresh_not_arrs (hr : Rep h g) : ¬ g.arrs h.fresh := fun hb =>
  Nat.lt_irrefl _ (hr.fresh _ (hr.live _ hb).1)

theorem Rep.malloc (pm : Perm K φ) (hr : Rep h g) (n : ℕ) : Quiet pm h g (h.malloc n) := by
  have hne : ∀ b, g.arrs b → b ≠ h.fresh := fun b hb he => hr.fresh_not_arrs (he ▸ hb)
  have hpos : 0 ≠ h.fresh := by
    have := hr.fresh _ hr.live_info
    omega
  have hrep : Rep (h.malloc n) g := by
    refine hr.congr rfl (fun b hb => ⟨?_, ?_⟩) ?_ ?_ (fun _ _ _ _ => rfl) fun _ _ => rfl
    · exact Function.update_of_ne (hne b hb) _ _
    · exact Function.update_of_ne (hne b hb) _ _
    · simp only [Heap.malloc]
      rw [Function.update_of_ne hpos]
      exact hr.null
    · intro b hb
      simp only [Heap.malloc] at hb ⊢
      by_cases he : b = h.fresh
      · omega
      · rw [Function.update_of_ne he] at hb
        exact Nat.lt_succ_of_lt (hr.fresh b hb)
  refine ⟨hrep, fun _ _ _ => rfl, fun _ _ => rfl, ?_, rfl⟩
  intro b hb
  exact Function.update_of_ne (hne b hb) _ _

theorem guarded_free {b : ℕ} {k : Unit → Code K φ α} (hr : Rep h g) (hlive : h.live b = true)
    (hb : ¬ g.arrs b)
    (hk : Rep { h with live := Function.update h.live b false } g →
      Guarded pm Q (k ()) { h with live := Function.update h.live b false } g) :
    Guarded pm Q (.act (.free b) k) h g := by
  have hexec : exec (.free b) h =
      some ((), { h with live := Function.update h.live b false }) := by simp [exec, hlive]
  refine guarded_quiet hexec ⟨?_, fun _ _ _ => rfl, fun _ _ => rfl, fun _ _ => rfl, rfl⟩ id hk
  refine hr.congr rfl (fun b' hb' => ⟨?_, rfl⟩) ?_ ?_ (fun _ _ _ _ => rfl)
    fun _ _ => rfl
  · exact Function.update_of_ne (by rintro rfl; exact hb hb') _ _
  · by_cases h0 : 0 = b
    · subst h0
      simp
    · simp only [Function.update_of_ne h0]
      exact hr.null
  · intro b' hb'
    by_cases he : b' = b
    · subst he
      simp at hb'
    · simp only [Function.update_of_ne he] at hb'
      exact hr.fresh b' hb'

/-! ### Stores that readers see -/

theorem guarded_link {j n : ℕ} {k : Unit → Code K φ α} (hr : Rep h g) (hown : pm.own (.node n))
    (hadm : pm.allow h g (.node n)) (hnot : ¬ g.Linked (.node n))
    (hj : g.slot (h.hash (.node n)) = j) (hnext : h.next (.node n) = (g.chain j).head?)
    (hk : Rep (h.setNext (.head g.info j) (some (.node n))) (g.link j (.node n)) →
      Guarded pm Q (k ()) (h.setNext (.head g.info j) (some (.node n))) (g.link j (.node n))) :
    Guarded pm Q (.act (.storeNext (.head g.info j) (some (.node n))) k) h g := by
  refine Sim.act (v := ()) ?_ (Guar.link hown hadm hnot hj hnext) (hk (hr.link hj hnext))
  simp [exec, hr.accessible_head (hj ▸ hr.slot_lt _)]

theorem guarded_swing {j : ℕ} {s : List Ptr} {c : Ptr} {old new : List Ptr} {v : Option Ptr}
    {k : Unit → Code K φ α} (hr : Rep h g) (hs : Swing pm h g j s c old new) (hv : v = new.head?)
    (hk : Rep (h.setNext c new.head?) (g.swing j (s ++ c :: new).tail) →
      Guarded pm Q (k ()) (h.setNext c new.head?) (g.swing j (s ++ c :: new).tail)) :
    Guarded pm Q (.act (.storeNext c v) k) h g := by
  subst hv
  have hc : c ∈ g.full j := by rw [hs.full]; simp
  refine Sim.act (v := ()) ?_ (Guar.swing hs) (hk (hs.rep hr))
  simp [exec, hr.accessible_of_mem_full hs.lt hc]

theorem guarded_publish {b : ℕ} {k : Unit → Code K φ α} (g' : View) (hp : Publish h g b g')
    (hk : Rep { h with pBucketsInfo := b } g' →
      Guarded pm Q (k ()) { h with pBucketsInfo := b } g') :
    Guarded pm Q (.act (.storeInfo b) k) h g :=
  .act rfl (Guar.publish hp) (hk hp.rep)

theorem guarded_synchronize {k : Unit → Code K φ α} (hr : Rep h g)
    (hk : Rep h g.synced → Guarded pm Q (k ()) h g.synced) :
    Guarded pm Q (.act .rcuSynchronize k) h g :=
  .act rfl ⟨rfl, rfl⟩ (hk hr.synced)

end RcuTable
