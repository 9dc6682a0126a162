import Mathlib.Data.Nat.Find
import Mathlib.Data.List.Basic

/-!
# Support — values for the beginnings of lists

A cache of prefixes has values for the elements of lists, page by page: what has values has them with
all its beginnings of whole pages (`Paged`).  A list is looked up by the longest of its beginnings that
has values (`hit`, `held`), and filled from there on with new ones (`overlay`); the values that are there
stay.  `prune` drops a list with all that it begins.  What the values of a map stand for (`Faithful`) is kept
by both.
-/

namespace QwenStack.Prefixes

open List

variable {α β : Type*}

/-- A list, and the values of its elements if it has them. -/
abbrev PrefixMap (α β : Type*) := List α → Option (List β)

/-- In pages of `p` elements. -/
structure Paged (p : Nat) (m : PrefixMap α β) : Prop where
  nil : m [] = some []
  dvd : ∀ {k v}, m k = some v → p ∣ k.length
  length : ∀ {k v}, m k = some v → v.length = k.length
  take : ∀ {k v n}, m k = some v → p ∣ n → m (k.take n) = some (v.take n)

/-! ### Lookup -/

/-- The length of the longest beginning that has values. -/
def hit (m : PrefixMap α β) (k : List α) : Nat :=
  Nat.findGreatest (fun n => (m (k.take n)).isSome = true) k.length

/-- Its values. -/
def held (m : PrefixMap α β) (k : List α) : List β := (m (k.take (hit m k))).getD []

section
variable {p : Nat} {m : PrefixMap α β} {k x : List α} {v : List β} {n : Nat}

theorem hit_le (m : PrefixMap α β) (k : List α) : hit m k ≤ k.length := Nat.findGreatest_le _

theorem le_hit (h : m (k.take n) = some v) (hn : n ≤ k.length) : n ≤ hit m k :=
  Nat.le_findGreatest hn (by rw [h]; rfl)

variable (hm : Paged p m)
include hm

theorem Paged.held_eq (k : List α) : m (k.take (hit m k)) = some (held m k) := by
  have hsome : (m (k.take (hit m k))).isSome = true :=
    Nat.findGreatest_spec (P := fun n => (m (k.take n)).isSome = true) (Nat.zero_le k.length)
      (by rw [take_zero, hm.nil]; rfl)
  obtain ⟨w, hw⟩ := Option.isSome_iff_exists.mp hsome
  rw [held, hw]
  rfl

theorem Paged.dvd_hit (k : List α) : p ∣ hit m k := by
  have h := hm.dvd (hm.held_eq k)
  rwa [length_take, Nat.min_eq_left (hit_le m k)] at h

theorem Paged.length_held (k : List α) : (held m k).length = hit m k := by
  rw [hm.length (hm.held_eq k), length_take, Nat.min_eq_left (hit_le m k)]

/-- What has values has those of the longest. -/
theorem Paged.eq_take_held (hx : x <+: k) (h : m x = some v) :
    x.length ≤ hit m k ∧ v = (held m k).take x.length := by
  have hk : x = k.take x.length := List.prefix_iff_eq_take.mp hx
  have hhit : x.length ≤ hit m k := le_hit (hk ▸ h) hx.length_le
  have htake := hm.take (hm.held_eq k) (hm.dvd h)
  rw [take_take, Nat.min_eq_left hhit, ← hk, h] at htake
  exact ⟨hhit, Option.some.inj htake⟩

theorem Paged.held_of_some (h : m k = some v) : held m k = v := by
  obtain ⟨hle, rfl⟩ := hm.eq_take_held prefix_rfl h
  rw [take_of_length_le]
  rw [hm.length_held]
  exact hit_le m k

/-- Behind the hit, a list may be cut. -/
theorem Paged.hit_take (hn : hit m k ≤ n) : hit m (k.take n) = hit m k := by
  refine Nat.le_antisymm ?_ ?_
  · obtain ⟨hln, hlk⟩ := Nat.le_min.mp (length_take ▸ hit_le m (k.take n))
    have h := hm.held_eq (k.take n)
    rw [take_take, Nat.min_eq_left hln] at h
    exact le_hit h hlk
  · have h := hm.held_eq k
    rw [← Nat.min_eq_left hn, ← take_take] at h
    exact le_hit h (by rw [length_take]; exact Nat.le_min.mpr ⟨hn, hit_le m k⟩)

theorem Paged.held_take (hn : hit m k ≤ n) : held m (k.take n) = held m k := by
  rw [held, held, hm.hit_take hn, take_take, Nat.min_eq_left hn]

/-- The values of a beginning are there up to the hit. -/
theorem Paged.eq_some_iff (hx : x <+: k) (hp : p ∣ x.length) :
    m x = some ((held m k).take x.length) ↔ x.length ≤ hit m k := by
  refine ⟨fun h => (hm.eq_take_held hx h).1, fun hle => ?_⟩
  have htake := hm.take (hm.held_eq k) hp
  rwa [take_take, Nat.min_eq_left hle, ← List.prefix_iff_eq_take.mp hx] at htake

end

/-! ### Filling -/

/-- The values of a list: what is held of it, and from there on new ones. -/
def fill (m : PrefixMap α β) (k : List α) (v : List β) : List β := held m k ++ v.drop (hit m k)

/-- The beginnings of `k` get values where they have none. -/
def overlay [DecidableEq α] (p : Nat) (m : PrefixMap α β) (k : List α) (v : List β) : PrefixMap α β :=
  fun x => match m x with
    | some w => some w
    | none => if x <+: k ∧ p ∣ x.length then some ((fill m k v).take x.length) else none

section
variable [DecidableEq α] {p : Nat} {m : PrefixMap α β} {k x : List α} {v w : List β}

omit [DecidableEq α] in
theorem Paged.length_fill (hm : Paged p m) (hv : v.length = k.length) :
    (fill m k v).length = k.length := by
  have hle := hit_le m k
  rw [fill, length_append, hm.length_held, length_drop, hv]
  omega

omit [DecidableEq α] in
/-- What was held comes first. -/
theorem Paged.take_fill (hm : Paged p m) {n : Nat} (hn : n ≤ hit m k) :
    (fill m k v).take n = (held m k).take n := by
  rw [fill, take_append_of_le_length (by rwa [hm.length_held])]

/-- **What is there after a list is filled.** -/
theorem Paged.overlay_eq_some_iff (hm : Paged p m) : overlay p m k v x = some w ↔
      m x = some w ∨ x <+: k ∧ p ∣ x.length ∧ w = (fill m k v).take x.length := by
  rw [overlay]
  cases h : m x with
  | none =>
    dsimp only
    split
    · next hx => simp [hx, eq_comm]
    · next hx =>
      constructor
      · intro hw
        cases hw
      · rintro (hw | ⟨hx', hp, -⟩)
        · cases hw
        · exact absurd ⟨hx', hp⟩ hx
  | some u =>
    refine ⟨.inl, ?_⟩
    rintro (hw | ⟨hx, -, rfl⟩)
    · exact hw
    · obtain ⟨hhit, rfl⟩ := hm.eq_take_held hx h
      rw [hm.take_fill hhit]

/-- A list that was filled is held. -/
theorem Paged.overlay_self (hm : Paged p m) (hk : p ∣ k.length) (hv : v.length = k.length) :
    overlay p m k v k = some (fill m k v) := by
  refine hm.overlay_eq_some_iff.mpr (.inr ⟨prefix_rfl, hk, ?_⟩)
  rw [← hm.length_fill hv, take_length]

/-- Nothing changes where all of the list is held. -/
theorem Paged.overlay_of_hit (hm : Paged p m) (h : k.length ≤ hit m k) : overlay p m k v = m := by
  funext x
  refine Option.ext fun w => ?_
  refine hm.overlay_eq_some_iff.trans ⟨?_, .inl⟩
  rintro (hw | ⟨hx, hp, rfl⟩)
  · exact hw
  · have hle : x.length ≤ hit m k := Nat.le_trans hx.length_le h
    rw [hm.take_fill hle]
    exact (hm.eq_some_iff hx hp).mpr hle

end

/-! ### Removal -/

/-- A list is dropped, with all that it begins. -/
def prune [DecidableEq α] (x : List α) (m : PrefixMap α β) : PrefixMap α β :=
  fun k => if x <+: k then none else m k

/-! ### What values stand for -/

/-- Each value stands for the beginning of a list that ends at its place. -/
def Describes (c : β → List α) (k : List α) (v : List β) : Prop :=
  ∀ n b, v[n]? = some b → c b = k.take (n + 1)

/-- In all of a map. -/
def Faithful (c : β → List α) (m : PrefixMap α β) : Prop := ∀ k v, m k = some v → Describes c k v

section
variable {c c' : β → List α} {m m' : PrefixMap α β} {k k' : List α} {v w : List β}

theorem describes_nil (c : β → List α) (k : List α) : Describes c k [] := fun n b h => by
  rw [List.getElem?_nil] at h
  cases h

theorem Describes.take (h : Describes c k v) (n : Nat) : Describes c k (v.take n) := fun l b hb => by
  rw [List.getElem?_take] at hb
  split at hb
  · exact h l b hb
  · cases hb

/-- Only as much of the list matters as there are values. -/
theorem Describes.of_take (h : Describes c k v) (hk : k.take v.length = k'.take v.length) :
    Describes c k' v := fun n b hb => by
  have hn : n + 1 ≤ v.length := (List.getElem?_eq_some_iff.mp hb).1
  rw [h n b hb, ← Nat.min_eq_left hn, ← take_take, hk, take_take, Nat.min_eq_left hn]

theorem Describes.append (h : Describes c k v) (hw : ∀ n b, w[n]? = some b →
    c b = k.take (v.length + n + 1)) : Describes c k (v ++ w) := fun n b hb => by
  rw [List.getElem?_append] at hb
  split at hb
  · exact h n b hb
  · next hn =>
    rw [hw _ b hb, Nat.add_sub_cancel' (Nat.le_of_not_lt hn)]

theorem Describes.drop (h : Describes c k w) {n l : Nat} {b : β} (hb : (w.drop n)[l]? = some b) :
    c b = k.take (n + l + 1) := by
  rw [List.getElem?_drop] at hb
  exact h _ b hb

/-- Other values may come to stand for something else. -/
theorem Describes.congr (h : Describes c k v) (hc : ∀ b ∈ v, c' b = c b) : Describes c' k v :=
  fun n b hb => (hc b (List.mem_of_getElem? hb)).trans (h n b hb)

/-- **What is filled stands for its list.** -/
theorem Paged.describes_fill {p : Nat} (hm : Paged p m) (h : Faithful c m) (hv : Describes c k v) :
    Describes c k (fill m k v) := by
  refine Describes.append ?_ fun n b hb => ?_
  · refine (h _ _ (hm.held_eq k)).of_take ?_
    rw [hm.length_held, take_take, Nat.min_self]
  · rw [hm.length_held]
    exact hv.drop hb

theorem Paged.faithful_overlay [DecidableEq α] {p : Nat} (hm : Paged p m) (h : Faithful c m)
    (hv : Describes c k v) : Faithful c (overlay p m k v) := by
  intro x w hw
  obtain hw | ⟨hx, -, rfl⟩ := hm.overlay_eq_some_iff.mp hw
  · exact h x w hw
  · refine ((hm.describes_fill h hv).take x.length).of_take ?_
    obtain ⟨y, rfl⟩ := hx
    rw [length_take, take_append_of_le_length (Nat.min_le_left _ _)]

theorem faithful_prune [DecidableEq α] {x : List α} (h : Faithful c m) : Faithful c (prune x m) := by
  intro k v hv
  rw [prune] at hv
  split at hv
  · cases hv
  · exact h k v hv

end

end QwenStack.Prefixes
