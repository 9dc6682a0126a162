import QwenStack.Support.Prefixes
import QwenStack.TreeCore.Shape

/-!
# Tree core — what the tree holds

`Radix` is the rest of what makes a tree of keys in pages: a node's children are filed under the first
pages of their keys, and no two under one page.  `Stored` is what holds of the slots: a node has one for
each token of its key, and what is on the device hangs below what is on the device.

The tree then stands for a map (`deviceMap`): the keys that lead from the root through nodes on the device
(`Below`), and their slots.  It is a function (`Holds.unique`), and a key that it has beyond a node is in
one child of the node (`Below.descend`).
-/

namespace QwenStack.TreeCore
open Assoc UnifiedTreeCore Prefixes List

/-- The slots of a node on the device. -/
def UnifiedTreeCore.deviceValue (s : UnifiedTreeCore) (i : NodeId) : Option Tensor :=
  (s.data i .full).value

/-- A radix tree in pages. -/
structure Radix (s : UnifiedTreeCore) : Prop where
  wellFormed : WellFormed s
  pageSize_pos : 0 < s.pageSize
  root_key : (s.nodes s.rootNode).key = []
  keys : ∀ i ∈ s.nodeArena, (Assoc.keys (s.nodes i).children).Nodup
  entry : ∀ i ∈ s.nodeArena, ∀ e ∈ (s.nodes i).children,
    e.1 = s.childKey (s.nodes e.2).key ∧ (s.nodes e.2).parent = some i
  key_ne : ∀ i ∈ s.nodeArena, i ≠ s.rootNode → (s.nodes i).key ≠ []
  dvd_key : ∀ i ∈ s.nodeArena, s.pageSize ∣ (s.nodes i).key.length

/-- The slots of a tree. -/
structure Stored (s : UnifiedTreeCore) : Prop where
  root : s.deviceValue s.rootNode = some []
  length : ∀ i ∈ s.nodeArena, ∀ v, s.deviceValue i = some v → v.length = (s.nodes i).key.length
  closed : ∀ i ∈ s.nodeArena, ∀ p, (s.nodes i).parent = some p →
    (s.deviceValue i).isSome = true → (s.deviceValue p).isSome = true

section
variable {s : UnifiedTreeCore} {i p : NodeId} (h : WellFormed s)
include h

theorem WellFormed.ne_root (hp : (s.nodes i).parent = some p) : i ≠ s.rootNode := by
  rintro rfl
  rw [h.root_parent] at hp
  cases hp

theorem WellFormed.parent_mem (hi : i ∈ s.nodeArena)
    (hp : (s.nodes i).parent = some p) : p ∈ s.nodeArena := by
  obtain ⟨q, hq, hparent, -⟩ := h.parent i hi (h.ne_root hp)
  cases hp.symm.trans hparent
  exact hq

/-- A node is not its own parent. -/
theorem WellFormed.parent_ne (hi : i ∈ s.nodeArena) (hp : (s.nodes i).parent = some p) : p ≠ i := by
  obtain ⟨rank, hrank⟩ := h.ranked
  rintro rfl
  exact Nat.lt_irrefl _ (hrank p hi p hp)

end

/-- What a child is. -/
structure Child (s : UnifiedTreeCore) (i c : NodeId) : Prop where
  mem : c ∈ s.nodeArena
  parent : (s.nodes c).parent = some i
  lookup : (s.nodes i).children.lookup (s.childKey (s.nodes c).key) = some c
  pageSize_le : s.pageSize ≤ (s.nodes c).key.length

namespace Radix

variable {s t : UnifiedTreeCore} {i c : NodeId} {k : Key}

theorem of_sameShape (h : Radix s) (hst : SameShape s t) : Radix t where
  wellFormed := h.wellFormed.of_sameShape hst
  pageSize_pos := hst.pageSize ▸ h.pageSize_pos
  root_key := by rw [hst.rootNode, hst.key, h.root_key]
  keys i hi := by
    rw [hst.children]
    exact h.keys i (hst.nodeArena ▸ hi)
  entry i hi e he := by
    rw [hst.children] at he
    rw [hst.key, hst.parent, childKey_congr hst.pageSize]
    exact h.entry i (hst.nodeArena ▸ hi) e he
  key_ne i hi hne := by
    rw [hst.key]
    exact h.key_ne i (hst.nodeArena ▸ hi) (hst.rootNode ▸ hne)
  dvd_key i hi := by
    rw [hst.key, hst.pageSize]
    exact h.dvd_key i (hst.nodeArena ▸ hi)

theorem ne_counter (h : Radix s) (hi : i ∈ s.nodeArena) : i ≠ s.counter := (h.wellFormed.fresh i hi).ne

theorem root_ne (h : Radix s) : s.rootNode ≠ s.counter := h.ne_counter h.wellFormed.root_mem

theorem pageSize_le_key (h : Radix s) (hi : i ∈ s.nodeArena) (hne : i ≠ s.rootNode) :
    s.pageSize ≤ (s.nodes i).key.length :=
  Nat.le_of_dvd (List.length_pos_iff.mpr (h.key_ne i hi hne)) (h.dvd_key i hi)

/-- What is found under a page is a child whose key begins with it. -/
theorem child (h : Radix s) (hi : i ∈ s.nodeArena) (hc : (s.nodes i).children.lookup k = some c) :
    Child s i c ∧ k = s.childKey (s.nodes c).key := by
  have hmem := mem_of_lookup hc
  have hcm := h.wellFormed.children i hi _ hmem
  obtain ⟨hkey, hparent⟩ := h.entry i hi _ hmem
  have hne := h.wellFormed.ne_root hparent
  obtain rfl : k = s.childKey (s.nodes c).key := hkey
  exact ⟨⟨hcm, hparent, hc, h.pageSize_le_key hcm hne⟩, rfl⟩

end Radix

/-! ### The root -/

/-- `UnifiedTreeCore.reset`: the root, locked for good. -/
def UnifiedTreeCore.reset (radixKey : RadixKey) (components : List ComponentType) (pageSize : Nat) :
    UnifiedTreeCore where
  radixKey := radixKey
  components := components
  pageSize := pageSize
  nodes := Function.update (fun _ => {}) 0
    { componentData := fun c =>
        { value := if c = .full then some [] else none, lockRef := if c ∈ components then 1 else 0 } }
  counter := 1
  nodeArena := {0}
  rootNode := 0
  componentEvictableSize := fun _ => 0
  componentProtectedSize := fun _ => 0
  evictableDeviceLeaves := ∅
  evictableHostLeaves := ∅
  fullHostDuplicates := []

section
variable {radixKey : RadixKey} {components : List ComponentType} {pageSize : Nat}

theorem mem_reset {i : NodeId} (h : i ∈ (UnifiedTreeCore.reset radixKey components pageSize).nodeArena) :
    i = 0 := Finset.mem_singleton.mp h

theorem radix_reset (hfull : .full ∈ components) (hpage : 0 < pageSize) :
    Radix (.reset radixKey components pageSize) := by
  refine ⟨⟨hfull, Finset.mem_singleton_self 0, rfl, fun i hi => ?_, fun i hi hne => ?_, fun i hi e he => ?_,
    id, fun i hi p hp => ?_⟩, hpage, rfl, fun i hi => ?_, fun i hi e he => ?_, fun i hi hne => ?_,
    fun i hi => ?_⟩
  · exact mem_reset hi ▸ Nat.zero_lt_one
  · exact absurd (mem_reset hi) hne
  · obtain rfl := mem_reset hi
    cases he
  · obtain rfl := mem_reset hi
    cases hp
  · obtain rfl := mem_reset hi
    exact nodup_nil
  · obtain rfl := mem_reset hi
    cases he
  · exact absurd (mem_reset hi) hne
  · obtain rfl := mem_reset hi
    exact Nat.dvd_zero _

theorem stored_reset : Stored (.reset radixKey components pageSize) := by
  refine ⟨rfl, fun i hi v hv => ?_, fun i hi p hp _ => ?_⟩
  · obtain rfl := mem_reset hi
    cases hv
    rfl
  · obtain rfl := mem_reset hi
    cases hp

end

/-- The first page of a key that goes on. -/
theorem childKey_append {s : UnifiedTreeCore} {k : Key} (h : s.pageSize ≤ k.length) (k' : Key) :
    s.childKey (k ++ k') = s.childKey k := by
  rw [childKey_eq, childKey_eq, take_append_of_le_length h]

/-- Two keys that begin alike for a page have one first page. -/
theorem childKey_eq_of_take {s : UnifiedTreeCore} {k k' : Key} {n : Nat} (hn : s.pageSize ≤ n)
    (h : k.take n = k'.take n) : s.childKey k = s.childKey k' := by
  rw [← childKey_take hn, h, childKey_take hn]

/-! ### Paths on the device -/

/-- One node to the next, on the device. -/
structure Edge (s : UnifiedTreeCore) (p c : NodeId) (w : Tensor) : Prop where
  mem : p ∈ s.nodeArena
  lookup : (s.nodes p).children.lookup (s.childKey (s.nodes c).key) = some c
  value : s.deviceValue c = some w

theorem Edge.child {s : UnifiedTreeCore} {p c : NodeId} {w : Tensor} (h : Radix s) (he : Edge s p c w) :
    Child s p c := (h.child he.mem he.lookup).1

/-- The root is no child. -/
theorem Radix.not_edge_root {s : UnifiedTreeCore} {p : NodeId} {w : Tensor} (h : Radix s) :
    ¬ Edge s p s.rootNode w := fun he => h.wellFormed.ne_root (he.child h).parent rfl

/-- The keys and the slots of the nodes on the device from below one down to another. -/
inductive Below (s : UnifiedTreeCore) : NodeId → Key → Tensor → NodeId → Prop
  | refl (i : NodeId) : Below s i [] [] i
  | step {i c j : NodeId} {k : Key} {v w : Tensor} :
      Edge s i c w → Below s c k v j → Below s i ((s.nodes c).key ++ k) (w ++ v) j

/-- All the way from the root. -/
def OnDevice (s : UnifiedTreeCore) (k : Key) (v : Tensor) (i : NodeId) : Prop := Below s s.rootNode k v i

namespace Below

variable {s : UnifiedTreeCore} {i j m c : NodeId} {k k' : Key} {v v' w : Tensor}

theorem trans (h : Below s i k v j) (h' : Below s j k' v' m) : Below s i (k ++ k') (v ++ v') m := by
  induction h with
  | refl => exact h'
  | step he _ ih =>
    rw [append_assoc, append_assoc]
    exact .step he (ih h')

theorem single (he : Edge s i c w) : Below s i (s.nodes c).key w c := by
  have h := Below.step he (.refl c)
  rwa [append_nil, append_nil] at h

/-- **A longer key leads on** from where a shorter one leads. -/
theorem descend (h : Radix s) (hb : Below s i k v j) (hb' : Below s i k' v' m) (hk : k <+: k') :
    ∃ k₁ v₁, k' = k ++ k₁ ∧ v' = v ++ v₁ ∧ Below s j k₁ v₁ m := by
  induction hb generalizing k' v' with
  | refl => exact ⟨k', v', rfl, rfl, hb'⟩
  | @step i c j k v w he hrest ih =>
    have hchild := he.child h
    have hle : s.pageSize ≤ ((s.nodes c).key ++ k).length := by
      rw [length_append]
      exact hchild.pageSize_le.trans (Nat.le_add_right _ _)
    cases hb' with
    | refl =>
      have hzero := hk.length_le
      have hpos := h.pageSize_pos
      rw [length_nil] at hzero
      omega
    | @step _ c' _ k₂ v₂ w₂ he' hrest' =>
      -- one page, one child
      have hchild' := he'.child h
      obtain ⟨k₃, hk₃⟩ := hk
      have hpage : s.childKey (s.nodes c).key = s.childKey (s.nodes c').key := by
        rw [← childKey_append hchild'.pageSize_le k₂, ← hk₃, childKey_append hle,
          childKey_append hchild.pageSize_le]
      obtain rfl : c = c' := Option.some.inj (he.lookup.symm.trans (hpage ▸ he'.lookup))
      obtain rfl : w = w₂ := Option.some.inj (he.value.symm.trans he'.value)
      rw [append_assoc] at hk₃
      obtain ⟨k₁, v₁, rfl, rfl, hb₁⟩ := ih hrest' ⟨k₃, append_cancel_left hk₃⟩
      exact ⟨k₁, v₁, (append_assoc _ _ _).symm, (append_assoc _ _ _).symm, hb₁⟩

/-- **The slots of a key** do not depend on the path. -/
theorem take_eq (h : Radix s) (hs : Stored s) (hb : Below s i k v j) (hb' : Below s i k' v' m) {n : Nat}
    (hn : s.pageSize ∣ n) (hk : n ≤ k.length) (hk' : n ≤ k'.length) (heq : k.take n = k'.take n) :
    v.take n = v'.take n := by
  induction hb generalizing k' v' n with
  | refl =>
    obtain rfl := Nat.le_zero.mp hk
    rfl
  | @step i c j k v w he hrest ih =>
    obtain rfl | hpos := Nat.eq_zero_or_pos n
    · rfl
    have hle := Nat.le_of_dvd hpos hn
    cases hb' with
    | refl => exact absurd hk' (Nat.not_le_of_lt hpos)
    | @step _ c' _ k₂ v₂ w₂ he' hrest' =>
      have hchild := he.child h
      have hpage := childKey_eq_of_take hle heq
      rw [childKey_append hchild.pageSize_le, childKey_append (he'.child h).pageSize_le] at hpage
      obtain rfl : c = c' := Option.some.inj (he.lookup.symm.trans (hpage ▸ he'.lookup))
      obtain rfl : w = w₂ := Option.some.inj (he.value.symm.trans he'.value)
      have hlen := hs.length c hchild.mem w he.value
      rw [take_append, take_append] at heq ⊢
      rw [length_append] at hk hk'
      refine congrArg (w.take n ++ ·) ?_
      rw [hlen]
      exact ih hrest' (Nat.dvd_sub hn (h.dvd_key c hchild.mem)) (by omega) (by omega)
        (append_cancel_left heq)

end Below

namespace OnDevice

variable {s t : UnifiedTreeCore} {i p c : NodeId} {k k' : Key} {v v' w : Tensor}

/-- One node further. -/
theorem snoc (h : OnDevice s k v p) (he : Edge s p c w) : OnDevice s (k ++ (s.nodes c).key) (v ++ w) c :=
  Below.trans h (.single he)

/-- A path is the root, or one node further than a path. -/
@[elab_as_elim]
theorem rec_snoc {motive : ∀ k v i, OnDevice s k v i → Prop} (root : motive [] [] s.rootNode (.refl _))
    (snoc : ∀ {k : Key} {v : Tensor} {p c : NodeId} {w : Tensor} (h : OnDevice s k v p) (he : Edge s p c w),
      motive k v p h → motive (k ++ (s.nodes c).key) (v ++ w) c (h.snoc he)) {k : Key} {v : Tensor}
    {i : NodeId} (h : OnDevice s k v i) : motive k v i h := by
  have hmore {i j : NodeId} {k : Key} {v : Tensor} (hb : Below s i k v j) : ∀ {k₀ : Key} {v₀ : Tensor}
      (h₀ : OnDevice s k₀ v₀ i), motive k₀ v₀ i h₀ → motive (k₀ ++ k) (v₀ ++ v) j (h₀.trans hb) := by
    induction hb with
    | refl i =>
      intro k₀ v₀ h₀ hm
      simpa only [append_nil] using hm
    | step he _ ih =>
      intro k₀ v₀ h₀ hm
      simpa only [append_assoc] using ih (h₀.snoc he) (snoc h₀ he hm)
  exact hmore h (.refl _) root

theorem mem (h : Radix s) (hi : OnDevice s k v i) : i ∈ s.nodeArena := by
  induction hi using rec_snoc with
  | root => exact h.wellFormed.root_mem
  | snoc _ he _ => exact (he.child h).mem

theorem length (h : Radix s) (hs : Stored s) (hi : OnDevice s k v i) : v.length = k.length := by
  induction hi using rec_snoc with
  | root => rfl
  | snoc _ he ih => rw [length_append, length_append, hs.length _ (he.child h).mem _ he.value, ih]

theorem dvd (h : Radix s) (hi : OnDevice s k v i) : s.pageSize ∣ k.length := by
  induction hi using rec_snoc with
  | root => exact Nat.dvd_zero _
  | snoc _ he ih =>
    rw [length_append]
    exact Nat.dvd_add ih (h.dvd_key _ (he.child h).mem)

theorem value (hs : Stored s) (hi : OnDevice s k v i) : (s.deviceValue i).isSome = true := by
  induction hi using rec_snoc with
  | root =>
    rw [hs.root]
    rfl
  | snoc _ he _ =>
    rw [he.value]
    rfl

theorem last (hi : OnDevice s k v i) : (i = s.rootNode ∧ k = [] ∧ v = []) ∨ ∃ p k₀ v₀ w,
    OnDevice s k₀ v₀ p ∧ Edge s p i w ∧ k = k₀ ++ (s.nodes i).key ∧ v = v₀ ++ w := by
  induction hi using rec_snoc with
  | root => exact .inl ⟨rfl, rfl, rfl⟩
  | snoc h he _ => exact .inr ⟨_, _, _, _, h, he, rfl, rfl⟩

/-- A node has one key, and one list of slots. -/
theorem unique (h : Radix s) (hi : OnDevice s k v i) (hi' : OnDevice s k' v' i) : k = k' ∧ v = v' := by
  induction hi using rec_snoc generalizing k' v' with
  | root =>
    obtain ⟨-, rfl, rfl⟩ | ⟨p, k₀, v₀, w, -, he, -, -⟩ := hi'.last
    · exact ⟨rfl, rfl⟩
    · exact absurd he (h.not_edge_root)
  | snoc _ he ih =>
    obtain ⟨rfl, -, -⟩ | ⟨q, k₀, v₀, w₀, hq, he', rfl, rfl⟩ := hi'.last
    · exact absurd he (h.not_edge_root)
    · cases (he.child h).parent.symm.trans (he'.child h).parent
      cases he.value.symm.trans he'.value
      obtain ⟨rfl, rfl⟩ := ih hq
      exact ⟨rfl, rfl⟩

/-- A tree that has all of the edges has all of the paths. -/
theorem of_edge (hroot : t.rootNode = s.rootNode)
    (hedge : ∀ {p c w}, Edge s p c w → Edge t p c w ∧ (t.nodes c).key = (s.nodes c).key)
    (hi : OnDevice s k v i) : OnDevice t k v i := by
  induction hi using rec_snoc with
  | root => exact hroot ▸ .refl _
  | snoc _ he ih =>
    obtain ⟨he', hkey⟩ := hedge he
    exact hkey ▸ ih.snoc he'

end OnDevice

/-! ### The map -/

/-- A key of whole pages is on the device, with its slots. -/
def Holds (s : UnifiedTreeCore) (k : Key) (v : Tensor) : Prop :=
  ∃ k' v' i, OnDevice s k' v' i ∧ k <+: k' ∧ s.pageSize ∣ k.length ∧ v = v'.take k.length

open Classical in
/-- The keys on the device, and their slots. -/
noncomputable def UnifiedTreeCore.deviceMap (s : UnifiedTreeCore) : PrefixMap Nat Nat := fun k =>
  if h : ∃ v, Holds s k v then some h.choose else none

section
variable {s : UnifiedTreeCore} {i c : NodeId} {k k' : Key} {v v' w : Tensor} {n : Nat}

theorem OnDevice.holds (h : Radix s) (hs : Stored s) (hi : OnDevice s k v i) : Holds s k v := by
  refine ⟨k, v, i, hi, prefix_rfl, hi.dvd h, ?_⟩
  rw [← hi.length h hs, take_length]

/-- The map is a function. -/
theorem Holds.unique (h : Radix s) (hs : Stored s) (hv : Holds s k v) (hv' : Holds s k v') : v = v' := by
  obtain ⟨k₁, v₁, i, hi, hk₁, hp, rfl⟩ := hv
  obtain ⟨k₂, v₂, j, hj, hk₂, -, rfl⟩ := hv'
  refine Below.take_eq h hs hi hj hp hk₁.length_le hk₂.length_le ?_
  rw [← List.prefix_iff_eq_take.mp hk₁, ← List.prefix_iff_eq_take.mp hk₂]

theorem deviceMap_eq_some_iff (h : Radix s) (hs : Stored s) : s.deviceMap k = some v ↔ Holds s k v := by
  rw [deviceMap]
  constructor
  · intro hv
    split at hv
    · next hex =>
      cases hv
      exact hex.choose_spec
    · cases hv
  · intro hv
    have hex : ∃ v, Holds s k v := ⟨v, hv⟩
    rw [dif_pos hex]
    exact congrArg some (hex.choose_spec.unique h hs hv)

/-- **What a tree holds it holds in pages.** -/
theorem paged_deviceMap (h : Radix s) (hs : Stored s) : Paged s.pageSize s.deviceMap where
  nil := (deviceMap_eq_some_iff h hs).mpr (OnDevice.holds h hs (.refl _))
  dvd hv := by
    obtain ⟨-, -, -, -, -, hp, -⟩ := (deviceMap_eq_some_iff h hs).mp hv
    exact hp
  length hv := by
    obtain ⟨k', v', i, hi, hk, -, rfl⟩ := (deviceMap_eq_some_iff h hs).mp hv
    rw [length_take, hi.length h hs, Nat.min_eq_left hk.length_le]
  take {k v n} hv hn := by
    obtain ⟨k', v', i, hi, hk, hp, rfl⟩ := (deviceMap_eq_some_iff h hs).mp hv
    refine (deviceMap_eq_some_iff h hs).mpr ⟨k', v', i, hi, (List.take_prefix n k).trans hk, ?_, ?_⟩
    · rw [length_take]
      obtain hle | hle := Nat.le_total n k.length
      · rwa [Nat.min_eq_left hle]
      · rwa [Nat.min_eq_right hle]
    · rw [length_take, take_take]

/-- **Beyond a node**, a key is in the child under its next page. -/
theorem Holds.child (h : Radix s) (hi : OnDevice s k v i) (hv : Holds s (k ++ k') v') (hne : k' ≠ []) :
    ∃ c w, (s.nodes i).children.lookup (s.childKey k') = some c ∧ s.deviceValue c = some w ∧
      ((s.nodes c).key <+: k' ∨ k' <+: (s.nodes c).key) := by
  obtain ⟨k₁, v₁, j, hj, hk₁, hp, -⟩ := hv
  obtain ⟨k₂, v₂, rfl, -, hb⟩ := Below.descend h hi hj ((prefix_append k k').trans hk₁)
  have hk₂ : k' <+: k₂ := (prefix_append_right_inj k).mp hk₁
  cases hb with
  | refl => exact absurd (List.prefix_nil.mp hk₂) hne
  | @step _ c _ k₃ v₃ w he _ =>
    have hle : s.pageSize ≤ k'.length := by
      refine Nat.le_of_dvd (List.length_pos_iff.mpr hne) ?_
      rw [length_append] at hp
      exact (Nat.dvd_add_right (hi.dvd h)).mp hp
    refine ⟨c, w, ?_, he.value, ?_⟩
    · obtain ⟨k₄, hk₄⟩ := hk₂
      rw [← childKey_append hle k₄, hk₄, childKey_append (he.child h).pageSize_le]
      exact he.lookup
    · exact prefix_or_prefix_of_prefix (prefix_append _ k₃) hk₂

/-- The paths are the map. -/
theorem deviceMap_congr {t : UnifiedTreeCore} (hpage : t.pageSize = s.pageSize)
    (hpaths : ∀ k v i, OnDevice t k v i ↔ OnDevice s k v i) : t.deviceMap = s.deviceMap := by
  have hholds : Holds t = Holds s := by
    funext k v
    exact propext (by simp only [Holds, hpaths, hpage])
  funext k
  rw [deviceMap, deviceMap, hholds]

end

end QwenStack.TreeCore
