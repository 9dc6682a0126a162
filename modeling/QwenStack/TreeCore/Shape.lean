import Mathlib.Data.Finset.Card
import Mathlib.Data.List.Range
import QwenStack.TreeCore.Definitions

/-!
# Tree core — the shape of the tree

`WellFormed` is the consistency of the tree that `sanity_check` verifies first: parents and children
point at each other, and the parents lead to the root.  A path is then all of it (`path_complete`).
Locks and pins do not change the shape (`SameShape`); a split does, and keeps it well-formed.
-/

namespace QwenStack.TreeCore
open Assoc UnifiedTreeCore List

/-! ### Changes of the data -/

/-- The trees are the same, but for the data of their nodes. -/
structure SameShape (s t : UnifiedTreeCore) : Prop where
  components : t.components = s.components
  pageSize : t.pageSize = s.pageSize
  counter : t.counter = s.counter
  nodeArena : t.nodeArena = s.nodeArena
  rootNode : t.rootNode = s.rootNode
  children : ∀ i, (t.nodes i).children = (s.nodes i).children
  parent : ∀ i, (t.nodes i).parent = (s.nodes i).parent
  key : ∀ i, (t.nodes i).key = (s.nodes i).key

namespace SameShape

variable {s t u : UnifiedTreeCore}

theorem refl (s : UnifiedTreeCore) : SameShape s s :=
  ⟨rfl, rfl, rfl, rfl, rfl, fun _ => rfl, fun _ => rfl, fun _ => rfl⟩

theorem trans (h : SameShape s t) (h' : SameShape t u) : SameShape s u where
  components := h'.components.trans h.components
  pageSize := h'.pageSize.trans h.pageSize
  counter := h'.counter.trans h.counter
  nodeArena := h'.nodeArena.trans h.nodeArena
  rootNode := h'.rootNode.trans h.rootNode
  children i := (h'.children i).trans (h.children i)
  parent i := (h'.parent i).trans (h.parent i)
  key i := (h'.key i).trans (h.key i)

/-- A loop over steps that keep the shape. -/
theorem foldl {α : Type*} {f : UnifiedTreeCore → α → UnifiedTreeCore} (hf : ∀ s a, SameShape s (f s a))
    (l : List α) (s : UnifiedTreeCore) : SameShape s (l.foldl f s) :=
  List.foldlRecOn l f (motive := SameShape s) (refl s) fun t ht a _ => ht.trans (hf t a)

section
variable (s : UnifiedTreeCore)

/-- A node changes in its data. -/
theorem setNode (i : NodeId) {n : UnifiedTreeNode}
    (hchildren : n.children = (s.nodes i).children) (hparent : n.parent = (s.nodes i).parent)
    (hkey : n.key = (s.nodes i).key) : SameShape s (s.setNode i n) := by
  refine ⟨rfl, rfl, rfl, rfl, rfl, fun j => ?_, fun j => ?_, fun j => ?_⟩ <;> by_cases hj : j = i
  · rw [hj]; simpa [UnifiedTreeCore.setNode] using hchildren
  · simp [UnifiedTreeCore.setNode, Function.update_of_ne hj]
  · rw [hj]; simpa [UnifiedTreeCore.setNode] using hparent
  · simp [UnifiedTreeCore.setNode, Function.update_of_ne hj]
  · rw [hj]; simpa [UnifiedTreeCore.setNode] using hkey
  · simp [UnifiedTreeCore.setNode, Function.update_of_ne hj]

theorem setData (i : NodeId) (c : ComponentType) (cd : ComponentData) :
    SameShape s (s.setData i c cd) := setNode s i rfl rfl rfl

theorem protect (c : ComponentType) (n : Int) : SameShape s (s.protect c n) :=
  ⟨rfl, rfl, rfl, rfl, rfl, fun _ => rfl, fun _ => rfl, fun _ => rfl⟩

theorem addEvictable (c : ComponentType) (n : Int) : SameShape s (s.addEvictable c n) :=
  ⟨rfl, rfl, rfl, rfl, rfl, fun _ => rfl, fun _ => rfl, fun _ => rfl⟩

theorem updateEvictableLeafSets (i : NodeId) : SameShape s (s.updateEvictableLeafSets i) :=
  ⟨rfl, rfl, rfl, rfl, rfl, fun _ => rfl, fun _ => rfl, fun _ => rfl⟩

theorem updateDuplicateTracking (i : NodeId) : SameShape s (s.updateDuplicateTracking i) :=
  ⟨rfl, rfl, rfl, rfl, rfl, fun _ => rfl, fun _ => rfl, fun _ => rfl⟩

end

theorem floorLock (i : NodeId) (s : UnifiedTreeCore) (c : ComponentType) :
    SameShape s (floorLock i s c) := by
  rw [UnifiedTreeCore.floorLock]
  split
  · dsimp only
    split
    · exact (setData s i c _).trans (protect _ c _)
    · exact setData s i c _
  · exact refl s

theorem floorHostLock (i : NodeId) (s : UnifiedTreeCore) (c : ComponentType) :
    SameShape s (floorHostLock i s c) := by
  rw [UnifiedTreeCore.floorHostLock]
  split
  · exact setData s i c _
  · exact refl s

theorem pinNode (s : UnifiedTreeCore) (i : NodeId) : SameShape s (s.pinNode i) := by
  refine SameShape.trans ?_ (updateEvictableLeafSets _ i)
  refine (setNode s i (n := { s.nodes i with pinned := true }) rfl rfl rfl).trans ?_
  exact foldl (fun t c => (floorLock i t c).trans (floorHostLock i _ c)) _ _

end SameShape

/-! ### Changes of the locks -/

theorem data_setData (s : UnifiedTreeCore) (i : NodeId) (c : ComponentType) (cd : ComponentData)
    (j : NodeId) (c' : ComponentType) :
    (s.setData i c cd).data j c' = if j = i ∧ c' = c then cd else s.data j c' := by
  simp only [setData, data, setNode, UnifiedTreeNode.setData, Function.update_apply]
  by_cases hj : j = i
  · subst hj
    simp only [if_true, true_and, Function.update_apply]
  · simp only [hj, if_false, false_and]

/-- Another tree of the same nodes with the same data, but for the locks. -/
structure SameValues (s t : UnifiedTreeCore) : Prop where
  shape : SameShape s t
  values : ∀ i c, (t.data i c).value = (s.data i c).value
  hostValues : ∀ i c, (t.data i c).hostValue = (s.data i c).hostValue
  pinned : ∀ i, (t.nodes i).pinned = (s.nodes i).pinned

namespace SameValues

variable {s t u : UnifiedTreeCore}

theorem refl (s : UnifiedTreeCore) : SameValues s s := ⟨.refl s, fun _ _ => rfl, fun _ _ => rfl, fun _ => rfl⟩

theorem trans (h : SameValues s t) (h' : SameValues t u) : SameValues s u :=
  ⟨h.shape.trans h'.shape, fun i c => (h'.values i c).trans (h.values i c),
    fun i c => (h'.hostValues i c).trans (h.hostValues i c), fun i => (h'.pinned i).trans (h.pinned i)⟩

theorem setData (s : UnifiedTreeCore) (i : NodeId) (c : ComponentType) {cd : ComponentData}
    (h : cd.value = (s.data i c).value) (hhost : cd.hostValue = (s.data i c).hostValue) :
    SameValues s (s.setData i c cd) := by
  refine ⟨.setData s i c cd, fun j c' => ?_, fun j c' => ?_, fun j => ?_⟩
  · rw [data_setData]
    split
    · next he => rw [h, he.1, he.2]
    · rfl
  · rw [data_setData]
    split
    · next he => rw [hhost, he.1, he.2]
    · rfl
  · by_cases hj : j = i
    · subst hj
      simp [UnifiedTreeCore.setData, setNode, UnifiedTreeNode.setData]
    · simp [UnifiedTreeCore.setData, setNode, Function.update_of_ne hj]

theorem protect (s : UnifiedTreeCore) (c : ComponentType) (n : Int) : SameValues s (s.protect c n) :=
  ⟨.protect s c n, fun _ _ => rfl, fun _ _ => rfl, fun _ => rfl⟩

theorem acquireAt (c : ComponentType) (s : UnifiedTreeCore) (i : NodeId) :
    SameValues s (acquireAt c s i) := by
  rw [UnifiedTreeCore.acquireAt]
  split
  · exact (protect s c _).trans (setData (s.protect c _) i c rfl rfl)
  · exact setData s i c rfl rfl

theorem releaseAt (c : ComponentType) (s : UnifiedTreeCore) (i : NodeId) :
    SameValues s (releaseAt c s i) := by
  rw [UnifiedTreeCore.releaseAt]
  split
  · exact (protect s c _).trans (setData (s.protect c _) i c rfl rfl)
  · exact setData s i c rfl rfl

theorem floorLock (i : NodeId) (s : UnifiedTreeCore) (c : ComponentType) :
    SameValues s (floorLock i s c) := by
  rw [UnifiedTreeCore.floorLock]
  split
  · dsimp only
    split
    · have hset : SameValues s (s.setData i c { s.data i c with lockRef := 1 }) := setData s i c rfl rfl
      exact hset.trans (protect _ c _)
    · exact setData s i c rfl rfl
  · exact refl s

theorem floorHostLock (i : NodeId) (s : UnifiedTreeCore) (c : ComponentType) :
    SameValues s (floorHostLock i s c) := by
  rw [UnifiedTreeCore.floorHostLock]
  split
  · exact setData s i c rfl rfl
  · exact refl s

theorem updateEvictableLeafSets (s : UnifiedTreeCore) (i : NodeId) :
    SameValues s (s.updateEvictableLeafSets i) :=
  ⟨.updateEvictableLeafSets s i, fun _ _ => rfl, fun _ _ => rfl, fun _ => rfl⟩

end SameValues

/-! ### Paths -/

theorem lockRange_sub (c : ComponentType) (path : List NodeId) : lockRange c path ⊆ path := by
  cases c with
  | full => exact List.Subset.refl _
  | swa => exact (take_subset 1 path)
  | mamba => exact (take_subset 1 path)
  | c128 => exact (take_subset 1 path)

/-- The tree is one. -/
structure WellFormed (s : UnifiedTreeCore) : Prop where
  full : .full ∈ s.components
  root_mem : s.rootNode ∈ s.nodeArena
  root_parent : (s.nodes s.rootNode).parent = none
  fresh : ∀ i ∈ s.nodeArena, i < s.counter
  parent : ∀ i ∈ s.nodeArena, i ≠ s.rootNode → ∃ p ∈ s.nodeArena, (s.nodes i).parent = some p ∧
    (s.nodes p).children.lookup (s.childKey (s.nodes i).key) = some i
  children : ∀ i ∈ s.nodeArena, ∀ child ∈ (s.nodes i).children, child.2 ∈ s.nodeArena
  ranked : ∃ rank : NodeId → Nat, ∀ i ∈ s.nodeArena, ∀ p, (s.nodes i).parent = some p → rank p < rank i

namespace WellFormed

variable {s t : UnifiedTreeCore}

variable (h : WellFormed s)
include h

theorem of_sameShape (hst : SameShape s t) : WellFormed t := by
  obtain ⟨rank, hrank⟩ := h.ranked
  refine ⟨hst.components ▸ h.full, ?_, ?_, ?_, ?_, ?_, rank, ?_⟩
  · rw [hst.rootNode, hst.nodeArena]
    exact h.root_mem
  · rw [hst.rootNode, hst.parent]
    exact h.root_parent
  · rw [hst.nodeArena, hst.counter]
    exact h.fresh
  · intro i hi hne
    rw [hst.nodeArena] at hi
    rw [hst.rootNode] at hne
    obtain ⟨p, hp, hparent, hlookup⟩ := h.parent i hi hne
    refine ⟨p, hst.nodeArena ▸ hp, (hst.parent i).trans hparent, ?_⟩
    rw [hst.children, hst.key, childKey_congr hst.pageSize]
    exact hlookup
  · intro i hi child hchild
    rw [hst.nodeArena] at hi ⊢
    rw [hst.children] at hchild
    exact h.children i hi child hchild
  · intro i hi p hp
    rw [hst.nodeArena] at hi
    rw [hst.parent] at hp
    exact hrank i hi p hp

/-- Where a walk to the root is. -/
theorem mem_pathFrom {fuel : Nat} {i j : NodeId} (hi : i ∈ s.nodeArena)
    (hj : j ∈ s.pathFrom fuel i) : j ∈ s.nodeArena ∧ j ≠ s.rootNode := by
  induction fuel generalizing i with
  | zero => cases hj
  | succ fuel ih =>
    rw [pathFrom] at hj
    cases hp : (s.nodes i).parent with
    | none =>
      rw [hp] at hj
      cases hj
    | some p =>
      rw [hp] at hj
      have hne : i ≠ s.rootNode := by
        rintro rfl
        rw [h.root_parent] at hp
        cases hp
      obtain rfl | hj := List.mem_cons.mp hj
      · exact ⟨hi, hne⟩
      · obtain ⟨p', hp', hparent, -⟩ := h.parent i hi hne
        rw [hp] at hparent
        cases hparent
        exact ih hp' hj

theorem mem_path {i j : NodeId} (hi : i ∈ s.nodeArena) (hj : j ∈ s.path i) :
    j ∈ s.nodeArena ∧ j ≠ s.rootNode := h.mem_pathFrom hi hj

/-- A walk falls in rank and comes to the root, or runs out of fuel. -/
theorem pathFrom_spec {rank : NodeId → Nat}
    (hrank : ∀ i ∈ s.nodeArena, ∀ p, (s.nodes i).parent = some p → rank p < rank i) :
    ∀ (fuel : Nat) {i : NodeId}, i ∈ s.nodeArena →
      (∀ j ∈ s.pathFrom fuel i, rank j ≤ rank i) ∧ (s.pathFrom fuel i).Nodup ∧
      ((s.pathFrom fuel i).length = fuel ∨ (i = s.rootNode ∨ i ∈ s.pathFrom fuel i) ∧
        ∀ j ∈ s.pathFrom fuel i, ∃ p, (s.nodes j).parent = some p ∧
          (p = s.rootNode ∨ p ∈ s.pathFrom fuel i)) := by
  intro fuel
  induction fuel with
  | zero => exact fun _ => ⟨fun j hj => absurd hj not_mem_nil, nodup_nil, .inl rfl⟩
  | succ fuel ih =>
    intro i hi
    by_cases hroot : i = s.rootNode
    · have hnil : s.pathFrom (fuel + 1) i = [] := by rw [pathFrom, hroot, h.root_parent]
      rw [hnil]
      exact ⟨fun j hj => absurd hj not_mem_nil, nodup_nil,
        .inr ⟨.inl hroot, fun j hj => absurd hj not_mem_nil⟩⟩
    · obtain ⟨p, hp, hparent, -⟩ := h.parent i hi hroot
      have hcons : s.pathFrom (fuel + 1) i = i :: s.pathFrom fuel p := by rw [pathFrom, hparent]
      obtain ⟨hle, hnodup, hdone⟩ := ih hp
      have hlt := hrank i hi p hparent
      rw [hcons]
      refine ⟨fun j hj => ?_, List.nodup_cons.mpr ⟨fun hmem => ?_, hnodup⟩, ?_⟩
      · obtain rfl | hj := List.mem_cons.mp hj
        · exact Nat.le_refl _
        · exact (hle j hj).trans hlt.le
      · exact Nat.lt_irrefl _ ((hle i hmem).trans_lt hlt)
      · obtain hlen | ⟨hp', hrest⟩ := hdone
        · exact .inl (by rw [length_cons, hlen])
        · refine .inr ⟨.inr mem_cons_self, fun j hj => ?_⟩
          obtain rfl | hj := List.mem_cons.mp hj
          · exact ⟨p, hparent, hp'.imp_right (mem_cons_of_mem _)⟩
          · obtain ⟨q, hq, hmem⟩ := hrest j hj
            exact ⟨q, hq, hmem.imp_right (mem_cons_of_mem _)⟩

/-- **A path is all of it**: it begins at its node, and goes on to the root. -/
theorem path_complete {i : NodeId} (hi : i ∈ s.nodeArena) : (i = s.rootNode ∨ i ∈ s.path i) ∧
      ∀ j ∈ s.path i, ∃ p, (s.nodes j).parent = some p ∧ (p = s.rootNode ∨ p ∈ s.path i) := by
  obtain ⟨rank, hrank⟩ := h.ranked
  obtain ⟨-, hnodup, hlen | hdone⟩ := h.pathFrom_spec hrank s.counter hi
  · exfalso
    have hsub : (s.path i).toFinset ⊆ s.nodeArena.erase s.rootNode := by
      intro j hj
      obtain ⟨hmem, hne⟩ := h.mem_path hi (List.mem_toFinset.mp hj)
      exact Finset.mem_erase.mpr ⟨hne, hmem⟩
    have hcard : (s.path i).length ≤ (s.nodeArena.erase s.rootNode).card := by
      rw [← toFinset_card_of_nodup (l := s.path i) hnodup]
      exact Finset.card_le_card hsub
    have harena : s.nodeArena.card ≤ s.counter := by
      rw [← Finset.card_range s.counter]
      exact Finset.card_le_card fun j hj => Finset.mem_range.mpr (h.fresh j hj)
    have hpos := Finset.card_pos.mpr ⟨_, h.root_mem⟩
    rw [Finset.card_erase_of_mem h.root_mem, path, hlen] at hcard
    omega
  · exact hdone

theorem search_mem : ∀ (fuel : Nat) (stack : List (NodeId × Nat))
    (deepest : NodeId × Nat), (∀ e ∈ stack, e.1 ∈ s.nodeArena) → deepest.1 ∈ s.nodeArena →
      (s.search fuel stack deepest).1 ∈ s.nodeArena := by
  intro fuel
  induction fuel with
  | zero => exact fun _ _ _ hd => hd
  | succ fuel ih =>
    intro stack deepest hstack hd
    cases stack with
    | nil => exact hd
    | cons e stack =>
      have he := hstack e mem_cons_self
      refine ih _ _ (fun e' he' => ?_) ?_
      · obtain hnew | hrest := List.mem_append.mp he'
        · obtain ⟨child, hchild, rfl⟩ := List.mem_map.mp (List.mem_reverse.mp hnew)
          exact h.children _ he child hchild
        · exact hstack e' (mem_cons_of_mem _ hrest)
      · split
        · exact he
        · exact hd

theorem deepest_mem : s.deepest ∈ s.nodeArena :=
  h.search_mem _ _ _ (fun _ he => List.mem_singleton.mp he ▸ h.root_mem) h.root_mem

end WellFormed

/-! ### Splits -/

section
variable {s t : UnifiedTreeCore} {p child : NodeId} {splitLen : Nat}

/-- What a split needs. -/
theorem splitNode_cases (h : s.splitNode child splitLen = some t) :
    ∃ p ∈ s.nodeArena, (s.nodes child).parent = some p ∧
      (s.nodes p).children.lookup (s.childKey (s.nodes child).key) = some child ∧
      s.pageSize ≤ splitLen ∧ splitLen < (s.nodes child).key.length ∧
      t = (((s.divide p child splitLen).updateEvictableLeafSets s.counter).updateEvictableLeafSets
        child).updateDuplicateTracking s.counter := by
  rw [splitNode] at h
  cases hp : (s.nodes child).parent with
  | none =>
    rw [hp] at h
    cases h
  | some p =>
    rw [hp] at h
    dsimp only at h
    split at h
    · next hguard =>
      obtain ⟨hmem, hlookup, hpage, hlen⟩ := hguard
      exact ⟨p, hmem, rfl, hlookup, hpage, hlen, (Option.some.inj h).symm⟩
    · cases h

/-- The nodes after a split. -/
theorem divide_nodes (hp : p ≠ child) (hpc : p ≠ s.counter) (splitLen : Nat) (i : NodeId) :
    (s.divide p child splitLen).nodes i = if i = p then { s.nodes p with
        children := put (s.childKey (s.nodes child).key) s.counter (s.nodes p).children }
      else if i = child then s.lowerFragment child splitLen
      else if i = s.counter then s.upperFragment child splitLen
      else s.nodes i := by
  simp only [divide, link, newNode, setNode, childKey, Function.update_apply, if_neg hp, if_neg hpc]

/-- A key that is cut behind its first page has its first page. -/
theorem childKey_take (hpage : s.pageSize ≤ splitLen) (key : Key) :
    s.childKey (key.take splitLen) = s.childKey key := by
  rw [childKey_eq, childKey_eq, take_take, Nat.min_eq_left hpage]

/-- **A split keeps the tree one.** -/
theorem WellFormed.divide (h : WellFormed s) (hpm : p ∈ s.nodeArena) (hcm : child ∈ s.nodeArena)
    (hparent : (s.nodes child).parent = some p)
    (hlookup : (s.nodes p).children.lookup (s.childKey (s.nodes child).key) = some child)
    (hpage : s.pageSize ≤ splitLen) : WellFormed (s.divide p child splitLen) := by
  obtain ⟨rank, hrank⟩ := h.ranked
  have hlt := hrank child hcm p hparent
  have hpc : p ≠ child := by
    rintro rfl
    exact Nat.lt_irrefl _ hlt
  have hpn : p ≠ s.counter := (h.fresh p hpm).ne
  have hcn : child ≠ s.counter := (h.fresh child hcm).ne
  have hrootc : s.rootNode ≠ child := by
    rintro rfl
    rw [h.root_parent] at hparent
    cases hparent
  have hrootn : s.rootNode ≠ s.counter := (h.fresh _ h.root_mem).ne
  have hnodes := divide_nodes hpc hpn splitLen
  have hp : ((s.divide p child splitLen).nodes p).children =
      put (s.childKey (s.nodes child).key) s.counter (s.nodes p).children := by
    rw [hnodes, if_pos rfl]
  have hnew : (s.divide p child splitLen).nodes s.counter = s.upperFragment child splitLen := by
    rw [hnodes, if_neg hpn.symm, if_neg hcn.symm, if_pos rfl]
  have hchild : (s.divide p child splitLen).nodes child = s.lowerFragment child splitLen := by
    rw [hnodes, if_neg hpc.symm, if_pos rfl]
  -- of an old node, all but the child's key and parent and the children of `p` is as it was
  have hold (i : NodeId) (hi : i ∈ s.nodeArena) (hic : i ≠ child) :
      ((s.divide p child splitLen).nodes i).parent = (s.nodes i).parent ∧
        ((s.divide p child splitLen).nodes i).key = (s.nodes i).key := by
    rw [hnodes, if_neg hic, if_neg (h.fresh i hi).ne]
    split
    · next he => exact he ▸ ⟨rfl, rfl⟩
    · exact ⟨rfl, rfl⟩
  have hchildren (i : NodeId) (hi : i ∈ s.nodeArena) (hip : i ≠ p) :
      ((s.divide p child splitLen).nodes i).children = (s.nodes i).children := by
    rw [hnodes, if_neg hip, if_neg (h.fresh i hi).ne]
    split
    · next he => exact he ▸ rfl
    · rfl
  refine ⟨h.full, Finset.mem_insert_of_mem h.root_mem, ?_, ?_, ?_, ?_,
    fun i => if i = s.counter then 2 * rank child - 1 else 2 * rank i, ?_⟩
  · exact (hold _ h.root_mem hrootc).1.trans h.root_parent
  · intro i hi
    obtain rfl | hi := Finset.mem_insert.mp hi
    · exact Nat.lt_succ_self _
    · exact Nat.lt_succ_of_lt (h.fresh i hi)
  · intro i hi hne
    obtain rfl | hi := Finset.mem_insert.mp hi
    · refine ⟨p, Finset.mem_insert_of_mem hpm, by rw [hnew]; exact hparent, ?_⟩
      rw [hp, hnew, lookup_put]
      exact if_pos (childKey_take hpage _)
    · by_cases hic : i = child
      · subst hic
        refine ⟨s.counter, Finset.mem_insert_self _ _, by rw [hchild]; rfl, ?_⟩
        rw [hnew, hchild]
        exact lookup_cons_self
      · obtain ⟨q, hq, hqp, hql⟩ := h.parent i hi hne
        refine ⟨q, Finset.mem_insert_of_mem hq, (hold i hi hic).1.trans hqp, ?_⟩
        rw [(hold i hi hic).2]
        by_cases he : q = p
        · subst he
          have hkey : s.childKey (s.nodes i).key ≠ s.childKey (s.nodes child).key := fun he => by
            rw [he, hlookup] at hql
            exact hic (Option.some.inj hql).symm
          rw [hp, lookup_put]
          exact (if_neg hkey).trans hql
        · rw [hchildren q hq he]
          exact hql
  · intro i hi e he
    obtain rfl | hi := Finset.mem_insert.mp hi
    · rw [hnew] at he
      obtain rfl := List.mem_singleton.mp he
      exact Finset.mem_insert_of_mem hcm
    · by_cases hip : i = p
      · subst hip
        rw [hp] at he
        obtain rfl | he := mem_put he
        · exact Finset.mem_insert_self _ _
        · exact Finset.mem_insert_of_mem (h.children i hpm e he)
      · rw [hchildren i hi hip] at he
        exact Finset.mem_insert_of_mem (h.children i hi e he)
  · intro i hi q hq
    obtain rfl | hi := Finset.mem_insert.mp hi
    · rw [hnew] at hq
      cases hparent.symm.trans hq
      simp only [hpn, if_true, if_false]
      omega
    · by_cases hic : i = child
      · subst hic
        rw [hchild] at hq
        cases hq
        simp only [hcn, if_true, if_false]
        omega
      · rw [(hold i hi hic).1] at hq
        have hqn : q ≠ s.counter := by
          obtain ⟨q', hq', hparent', -⟩ := h.parent i hi fun he => by
            rw [he, h.root_parent] at hq
            cases hq
          cases hq.symm.trans hparent'
          exact (h.fresh q hq').ne
        have := hrank i hi q hq
        simp only [hqn, (h.fresh i hi).ne, if_false]
        omega

end

end QwenStack.TreeCore
