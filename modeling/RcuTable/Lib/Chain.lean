import Mathlib.Data.List.Basic
import Mathlib.Data.List.Nodup
import Mathlib.Logic.Function.Basic

/-!
# Chain — null-terminated chains of a successor function

`Path next v l`: following `next` from the pointer `v` visits exactly the cells `l` and ends at null.
`next` is total and functional, so a path is determined by its start (`Path.det`) and repeats no cell
(`Path.nodup`).  The store rules say what redirecting one cell does to a path: nothing when the cell is
not on it (`Path.update_of_notMem`), and otherwise the part behind the cell is exchanged
(`Path.redirect`).
-/

namespace Chain

variable {P : Type*}

/-- Following `next` from `v` visits exactly `l`, then null. -/
def Path (next : P → Option P) : Option P → List P → Prop
  | v, [] => v = none
  | v, p :: l => v = some p ∧ Path next (next p) l

variable {next next' : P → Option P} {v : Option P} {p q : P} {l l' s t : List P}

@[simp] theorem path_nil : Path next v [] ↔ v = none := Iff.rfl

@[simp] theorem path_cons : Path next v (p :: l) ↔ v = some p ∧ Path next (next p) l := Iff.rfl

@[simp] theorem path_none : Path next none l ↔ l = [] := by cases l <;> simp

namespace Path

/-- A path starts at its first cell. -/
theorem head (h : Path next v l) : v = l.head? := by
  cases l with
  | nil => exact h
  | cons p l => exact h.1

theorem det : ∀ {v : Option P} {l l' : List P}, Path next v l → Path next v l' → l = l'
  | _, [], [], _, _ => rfl
  | _, [], _ :: _, h, h' => by rw [h] at h'; exact absurd h'.1 (by simp)
  | _, _ :: _, [], h, h' => by rw [h'] at h; exact absurd h.1 (by simp)
  | _, p :: l, q :: l', h, h' => by
    obtain rfl : p = q := Option.some.inj (h.1.symm.trans h'.1)
    rw [det h.2 h'.2]

/-- The part of a path from some cell on is a path. -/
theorem drop : ∀ {v : Option P} {s : List P}, Path next v (s ++ t) → Path next t.head? t
  | _, [], h => by
    obtain rfl := head h
    exact h
  | _, _ :: _, h => drop h.2

theorem tail (h : Path next v (s ++ p :: t)) : Path next (next p) t := (drop h).2

/-- The pointer stored in a cell leads to the next cell of the path. -/
theorem next_eq (h : Path next v (s ++ p :: t)) : next p = t.head? := (tail h).head

theorem of_suffix (h : Path next v l) (hs : t <:+ l) : Path next t.head? t := by
  obtain ⟨s, rfl⟩ := hs
  exact h.drop

theorem nodup : ∀ {v : Option P} {l : List P}, Path next v l → l.Nodup
  | _, [], _ => List.nodup_nil
  | _, p :: l, h => by
    refine List.nodup_cons.mpr ⟨fun hp => ?_, nodup h.2⟩
    -- a second visit of `p` would start the same path again
    obtain ⟨s, t, rfl⟩ := List.append_of_mem hp
    have := congrArg List.length (det h.2 (tail h.2))
    simp only [List.length_append, List.length_cons] at this
    omega

/-- A path only depends on the cells it visits. -/
theorem congr : ∀ {v : Option P} {l : List P}, Path next v l → (∀ p ∈ l, next' p = next p) →
    Path next' v l
  | _, [], h, _ => h
  | _, p :: l, h, hc => by
    refine ⟨h.1, ?_⟩
    rw [hc p List.mem_cons_self]
    exact congr h.2 fun q hq => hc q (List.mem_cons_of_mem _ hq)

theorem append : ∀ {v : Option P} {s : List P}, Path next v (s ++ p :: t) →
    (∀ q ∈ s, next' q = next q) → Path next' (next' p) l → Path next' v (s ++ p :: l)
  | _, [], h, _, h2 => ⟨h.1, h2⟩
  | _, q :: s, h, hc, h2 => by
    refine ⟨h.1, ?_⟩
    rw [hc q List.mem_cons_self]
    exact append h.2 (fun x hx => hc x (List.mem_cons_of_mem _ hx)) h2

/-- Two paths through one cell agree from there on. -/
theorem tail_unique (h : Path next v (s ++ p :: t)) {v' : Option P} {s' t' : List P}
    (h' : Path next v' (s' ++ p :: t')) : t = t' := det h.tail h'.tail

section Store

variable [DecidableEq P] {w : Option P}

/-- A store into a cell off the path leaves it alone. -/
theorem update_of_notMem (h : Path next v l) (hp : p ∉ l) :
    Path (Function.update next p w) v l :=
  h.congr fun q hq => Function.update_of_ne (by rintro rfl; exact hp hq) _ _

/-- A store into a cell of a path exchanges the part behind it. -/
theorem redirect (h : Path next v (s ++ p :: t)) (h2 : Path next w l) (hp : p ∉ l) :
    Path (Function.update next p w) v (s ++ p :: l) := by
  have hs : p ∉ s := fun hp => by
    have := (List.nodup_append.mp h.nodup).2.2 p hp p List.mem_cons_self
    exact this rfl
  refine h.append (fun q hq => Function.update_of_ne (by rintro rfl; exact hs hq) _ _) ?_
  rw [Function.update_self]
  exact h2.update_of_notMem hp

/-- A new cell that already points behind `p` is linked in there. -/
theorem link {x : P} (h : Path next v (s ++ p :: t)) (hx : x ∉ s ++ p :: t) (hnx : next x = t.head?) :
    Path (Function.update next p (some x)) v (s ++ p :: x :: t) := by
  have hp : p ∉ t := fun hp => (List.nodup_cons.mp (List.nodup_append.mp h.nodup).2.1).1 hp
  have hnew : Path next (some x) (x :: t) := ⟨rfl, hnx ▸ h.next_eq ▸ h.tail⟩
  refine h.redirect hnew fun hpx => ?_
  rcases List.mem_cons.mp hpx with rfl | hpt
  · exact hx (by simp)
  · exact hp hpt

/-- The cell behind `p` is taken out. -/
theorem unlink {x : P} (h : Path next v (s ++ p :: x :: t)) :
    Path (Function.update next p (next x)) v (s ++ p :: t) := by
  have hp : p ∉ x :: t := (List.nodup_cons.mp (List.nodup_append.mp h.nodup).2.1).1
  have htail : Path next (next x) t := (h.tail).2
  exact h.redirect htail fun hpt => hp (List.mem_cons_of_mem x hpt)

end Store

end Path

/-! ### The cells of a chain -/

/-- The chain that starts at `v` ends at null and visits `p`. -/
def Visits (next : P → Option P) (v : Option P) (p : P) : Prop := ∃ l, Path next v l ∧ p ∈ l

theorem Path.visits_iff (h : Path next v l) : Visits next v p ↔ p ∈ l := by
  constructor
  · rintro ⟨l', h', hp⟩
    rwa [h.det h']
  · exact fun hp => ⟨l, h, hp⟩

/-- The cells from `v` on, if null comes within `fuel` steps. -/
def walk (next : P → Option P) : ℕ → Option P → Option (List P)
  | _, none => some []
  | 0, some _ => none
  | fuel + 1, some p => (walk next fuel (next p)).map (p :: ·)

theorem path_of_walk : ∀ {fuel : ℕ} {v : Option P} {l : List P}, walk next fuel v = some l →
    Path next v l
  | fuel, none, l, h => by
    cases fuel <;> exact path_none.mpr (Option.some.inj h).symm
  | 0, some p, l, h => by simp [walk] at h
  | fuel + 1, some p, l, h => by
    obtain ⟨l', hl', rfl⟩ := Option.map_eq_some_iff.mp h
    exact ⟨rfl, path_of_walk hl'⟩

end Chain
