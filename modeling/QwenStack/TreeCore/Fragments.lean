import QwenStack.TreeCore.Floor
import QwenStack.TreeCore.Sanity

/-!
# Tree core — a pinned prefix stays

Nodes that are made are not pinned, and take no place of a pinned one (`Safe.addNewNode`).  A split makes
two pinned nodes of one: the new one above has the locks of the other (`Safe.splitNode`), and they share
its key and its data (`Fragments`).  So whatever locks, splits, inserts and evicts, in whatever order, the
nodes that `pin_prefix` pinned are in the tree, in fragments that have all that was pinned
(`pinned_kept`).
-/

namespace QwenStack.TreeCore
open Assoc UnifiedTreeCore List

/-! ### New nodes -/

section
variable {s t : UnifiedTreeCore} {i p : NodeId}

theorem Safe.lt_of_pinned (h : Safe s) (hi : (s.nodes i).pinned = true) : i < s.counter :=
  (h.arena i (h.mem i hi)).lt

theorem Safe.counter_unpinned (h : Safe s) : (s.nodes s.counter).pinned = false := by
  cases hp : (s.nodes s.counter).pinned with
  | false => rfl
  | true => exact absurd (h.lt_of_pinned hp) (Nat.lt_irrefl _)

/-- A pinned node hangs below a node that was made. -/
theorem Safe.parent_lt (h : Safe s) (hi : (s.nodes i).pinned = true)
    (hp : (s.nodes i).parent = some p) : p < s.counter := by
  cases h.path i hi with
  | top _ hroot _ =>
    cases hp.symm.trans hroot
    exact h.root
  | step _ hparent _ hpath =>
    cases hp.symm.trans hparent
    cases hpath with
    | top hpinned _ _ => exact h.lt_of_pinned hpinned
    | step hpinned _ _ _ => exact h.lt_of_pinned hpinned

/-- The nodes after one is added. -/
theorem link_newNode_nodes (hp : p ≠ s.counter) (n : UnifiedTreeNode) (key : Key) (j : NodeId) :
    ((s.newNode n).link p key s.counter).nodes j =
      if j = p then { s.nodes p with children := put (s.childKey key) s.counter (s.nodes p).children }
      else if j = s.counter then n else s.nodes j := by
  simp only [link, newNode, setNode, childKey, Function.update_apply, if_neg hp]

/-- **A new node** takes no place of another. -/
theorem Safe.addNewNode (h : Safe s) {key : Key} {value : Tensor}
    (ht : s.addNewNode p key value = some t) : Harmless s t := by
  rw [UnifiedTreeCore.addNewNode] at ht
  split at ht
  · next hguard =>
    obtain ⟨hmem, habsent⟩ := hguard
    cases ht
    let n : UnifiedTreeNode :=
      { parent := some p, key := key,
        componentData := Function.update (fun _ => {}) .full { value := some value } }
    let u := ((s.newNode n).link p key s.counter).addEvictable .full value.length
    have hpc : p ≠ s.counter := (h.arena p hmem).lt.ne
    have hnodes (j : NodeId) : u.nodes j =
        if j = p then { s.nodes p with children := put (s.childKey key) s.counter (s.nodes p).children }
        else if j = s.counter then n else s.nodes j := link_newNode_nodes hpc n key j
    -- all but the new node is as it was, the children of `p` apart
    have hold (j : NodeId) (hj : j ≠ s.counter) : u.nodes j = { s.nodes j with
        children := if j = p then put (s.childKey key) s.counter (s.nodes p).children
          else (s.nodes j).children } := by
      rw [hnodes]
      split
      · next he => rw [he]
      · rfl
    have hpinned (j : NodeId) (hj : (s.nodes j).pinned = true) := hold j (h.lt_of_pinned hj).ne
    have hdata (j : NodeId) (hj : (s.nodes j).pinned = true) : u.data j .full = s.data j .full :=
      congrArg (·.componentData .full) (hpinned j hj)
    have hadded : Harmless s u := by
      refine h.of_spares ⟨rfl, rfl, rfl, Nat.le_succ _, fun j => ?_,
        fun j hj => congrArg (·.parent) (hpinned j hj), fun j hj => congrArg (·.key) (hpinned j hj),
        fun j hj => congrArg (·.value) (hdata j hj), fun j hj => congrArg (·.hostValue) (hdata j hj),
        fun j q hj hq hl => ?_⟩ (fun j hj => ?_) (fun j hj => Finset.mem_insert_of_mem (h.mem j hj))
        (fun j hj => (congrArg (·.lockRef) (hdata j hj)).ge.trans' (h.locked j hj))
        (fun j hj => (congrArg (·.hostLockRef) (hdata j hj)).ge.trans' (h.hostLocked j hj))
        (Finset.Subset.refl _) (Finset.Subset.refl _)
      · by_cases hj : j = s.counter
        · rw [hj, hnodes, if_neg hpc.symm, if_pos rfl]
          exact h.counter_unpinned.symm
        · rw [hold j hj]
      · rw [hold q (h.parent_lt hj hq).ne]
        split
        · next he =>
          subst he
          have hkey : s.childKey (s.nodes j).key ≠ s.childKey key := fun hk => by
            rw [hk, habsent] at hl
            cases hl
          rw [lookup_put, if_neg hkey]
          exact hl
        · exact hl
      · obtain rfl | hj := Finset.mem_insert.mp hj
        · refine ⟨Nat.lt_succ_self _, ?_, ?_⟩
          · rw [hnodes, if_neg hpc.symm, if_pos rfl]
            exact fun he => hpc (Option.some.inj he)
          · rw [hnodes, if_neg hpc.symm, if_pos rfl]
            exact fun _ hc => absurd hc not_mem_nil
        · have hj' := h.arena j hj
          have hnode := hold j hj'.lt.ne
          refine ⟨Nat.lt_succ_of_lt hj'.lt, ?_, fun child hc => ?_⟩
          · rw [hnode]
            exact hj'.parent
          · rw [hnode] at hc
            split at hc
            · next he =>
              obtain rfl | hc := mem_put hc
              · exact Nat.lt_succ_self _
              · exact Nat.lt_succ_of_lt ((h.arena p hmem).children child hc)
            · exact Nat.lt_succ_of_lt (hj'.children child hc)
    have hnew := hadded.trans (hadded.safe.updateEvictableLeafSets s.counter)
    exact hnew.trans (hnew.safe.updateEvictableLeafSets p)
  · cases ht

end

/-! ### Splits -/

section
variable {s t : UnifiedTreeCore} {p child : NodeId} {splitLen : Nat}

/-- The fragment above, after a split. -/
theorem divide_counter (hpn : p ≠ s.counter) (hpc : p ≠ child) (hcn : child ≠ s.counter)
    (splitLen : Nat) : (s.divide p child splitLen).nodes s.counter = s.upperFragment child splitLen := by
  rw [divide_nodes hpc hpn, if_neg hpn.symm, if_neg hcn.symm, if_pos rfl]

/-- The fragment below. -/
theorem divide_child (hpn : p ≠ s.counter) (hpc : p ≠ child) (splitLen : Nat) :
    (s.divide p child splitLen).nodes child = s.lowerFragment child splitLen := by
  rw [divide_nodes hpc hpn, if_neg hpc.symm, if_pos rfl]

/-- The other nodes, of which one has another child. -/
theorem divide_old (hpn : p ≠ s.counter) (hpc : p ≠ child) (splitLen : Nat) {j : NodeId}
    (hj : j ≠ child) (hjn : j ≠ s.counter) :
    (s.divide p child splitLen).nodes j = { s.nodes j with
      children := if j = p then put (s.childKey (s.nodes child).key) s.counter (s.nodes p).children
        else (s.nodes j).children } := by
  rw [divide_nodes hpc hpn, if_neg hj, if_neg hjn]
  split
  · next he => rw [he]
  · rfl

/-- What a split finds in a tree that is safe. -/
structure Divisible (s : UnifiedTreeCore) (p child : NodeId) (splitLen : Nat) : Prop where
  parent_mem : p ∈ s.nodeArena
  child_lt : child < s.counter
  ne : p ≠ child
  parent : (s.nodes child).parent = some p
  lookup : (s.nodes p).children.lookup (s.childKey (s.nodes child).key) = some child
  pageSize : s.pageSize ≤ splitLen

theorem Safe.divisible (h : Safe s) (ht : s.splitNode child splitLen = some t) :
    ∃ p, Divisible s p child splitLen ∧
      t = (((s.divide p child splitLen).updateEvictableLeafSets s.counter).updateEvictableLeafSets
        child).updateDuplicateTracking s.counter := by
  obtain ⟨p, hmem, hparent, hlookup, hpage, -, rfl⟩ := splitNode_cases ht
  refine ⟨p, ⟨hmem, (h.arena p hmem).children _ (mem_of_lookup hlookup), ?_, hparent, hlookup, hpage⟩, rfl⟩
  rintro rfl
  exact (h.arena p hmem).parent hparent

namespace Divisible

variable (hd : Divisible s p child splitLen) (h : Safe s)
include hd h

theorem parent_ne : p ≠ s.counter :=
  (h.arena p hd.parent_mem).lt.ne

theorem pinned (j : NodeId) : ((s.divide p child splitLen).nodes j).pinned =
      if j = s.counter then (s.nodes child).pinned else (s.nodes j).pinned := by
  split
  · next he =>
    rw [he, divide_counter (hd.parent_ne h) hd.ne hd.child_lt.ne]
    rfl
  · next hjn =>
    by_cases hj : j = child
    · rw [hj, divide_child (hd.parent_ne h) hd.ne]
      rfl
    · rw [divide_old (hd.parent_ne h) hd.ne splitLen hj hjn]

theorem data_counter : (s.divide p child splitLen).data s.counter .full =
      ((s.data child .full).redistribute splitLen).1 := by
  rw [data, divide_counter (hd.parent_ne h) hd.ne hd.child_lt.ne]
  exact if_pos h.full

theorem data_child :
    (s.divide p child splitLen).data child .full = ((s.data child .full).redistribute splitLen).2 := by
  rw [data, divide_child (hd.parent_ne h) hd.ne]
  exact if_pos h.full

theorem data_old {j : NodeId} (hj : j ≠ child)
    (hjn : j ≠ s.counter) : (s.divide p child splitLen).data j .full = s.data j .full := by
  rw [data, divide_old (hd.parent_ne h) hd.ne splitLen hj hjn]
  rfl

/-- The locks of a node are those of the node that it was. -/
theorem lock (tier : Tier) (j : NodeId) : tier.lock ((s.divide p child splitLen).data j .full) =
      tier.lock (s.data (if j = s.counter then child else j) .full) := by
  split
  · next he =>
    rw [he, hd.data_counter h]
    cases tier <;> rfl
  · next hjn =>
    by_cases hj : j = child
    · rw [hj, hd.data_child h]
      cases tier <;> rfl
    · rw [hd.data_old h hj hjn]

/-- Where the two fragments hang. -/
theorem pinnedPath_child (hchild : (s.nodes child).pinned = true)
    (hp : p = s.rootNode ∨ PinnedPath (s.divide p child splitLen) p) :
    PinnedPath (s.divide p child splitLen) s.counter ∧ PinnedPath (s.divide p child splitLen) child := by
  have hnew := divide_counter (hd.parent_ne h) hd.ne hd.child_lt.ne splitLen
  have hlow := divide_child (hd.parent_ne h) hd.ne splitLen
  have hlink : ((s.divide p child splitLen).nodes p).children.lookup
      ((s.divide p child splitLen).childKey ((s.divide p child splitLen).nodes s.counter).key) =
        some s.counter := by
    rw [divide_old (hd.parent_ne h) hd.ne splitLen hd.ne (hd.parent_ne h), hnew]
    rw [if_pos rfl, lookup_put]
    exact if_pos (childKey_take hd.pageSize _)
  have hparent : ((s.divide p child splitLen).nodes s.counter).parent = some p := by
    rw [hnew]
    exact hd.parent
  have hpinned : ((s.divide p child splitLen).nodes s.counter).pinned = true := by
    rw [hnew]
    exact hchild
  have hcounter : PinnedPath (s.divide p child splitLen) s.counter := by
    obtain rfl | hp := hp
    · exact .top hpinned hparent hlink
    · exact .step hpinned hparent hlink hp
  refine ⟨hcounter, .step ?_ ?_ ?_ hcounter⟩
  · rw [hlow]
    exact hchild
  · rw [hlow]
    rfl
  · rw [hnew, hlow]
    exact lookup_cons_self

/-- **A split keeps the pinned paths.** -/
theorem pinnedPath {j : NodeId} (hj : PinnedPath s j) :
    PinnedPath (s.divide p child splitLen) j := by
  -- the place of a node that is not split
  have hlink {j q : NodeId} (hj : (s.nodes j).pinned = true) (hne : j ≠ child)
      (hq : (s.nodes j).parent = some q)
      (hl : (s.nodes q).children.lookup (s.childKey (s.nodes j).key) = some j) :
      ((s.divide p child splitLen).nodes j).pinned = true ∧
        ((s.divide p child splitLen).nodes j).parent = some q ∧
        ((s.divide p child splitLen).nodes q).children.lookup ((s.divide p child splitLen).childKey
          ((s.divide p child splitLen).nodes j).key) = some j := by
    have hjn := (h.lt_of_pinned hj).ne
    rw [divide_old (hd.parent_ne h) hd.ne splitLen hne hjn]
    refine ⟨hj, hq, ?_⟩
    change ((s.divide p child splitLen).nodes q).children.lookup (s.childKey (s.nodes j).key) = some j
    by_cases hqc : q = child
    · subst hqc
      rw [divide_child (hd.parent_ne h) hd.ne]
      exact hl
    · rw [divide_old (hd.parent_ne h) hd.ne splitLen hqc (h.parent_lt hj hq).ne]
      split
      · next he =>
        subst he
        have hkey : s.childKey (s.nodes j).key ≠ s.childKey (s.nodes child).key := fun hk => by
          rw [hk, hd.lookup] at hl
          exact hne (Option.some.inj hl).symm
        rw [lookup_put, if_neg hkey]
        exact hl
      · exact hl
  induction hj with
  | @top j hj hq hl =>
    by_cases hne : j = child
    · subst hne
      cases hd.parent.symm.trans hq
      exact (hd.pinnedPath_child h hj (.inl rfl)).2
    · obtain ⟨hj', hq', hl'⟩ := hlink hj hne hq hl
      exact .top hj' hq' hl'
  | @step j q hj hq hl _ ih =>
    by_cases hne : j = child
    · subst hne
      cases hd.parent.symm.trans hq
      exact (hd.pinnedPath_child h hj (.inr ih)).2
    · obtain ⟨hj', hq', hl'⟩ := hlink hj hne hq hl
      exact .step hj' hq' hl' ih

theorem pinnedPath_counter
    (hchild : (s.nodes child).pinned = true) : PinnedPath (s.divide p child splitLen) s.counter := by
  refine (hd.pinnedPath_child h hchild ?_).1
  cases h.path child hchild with
  | top _ hq _ => exact .inl (Option.some.inj (hd.parent.symm.trans hq))
  | step _ hq _ hpath =>
    cases hd.parent.symm.trans hq
    exact .inr (hd.pinnedPath h hpath)

theorem allocated :
    ∀ j ∈ (s.divide p child splitLen).nodeArena, Allocated (s.divide p child splitLen) j := by
  intro j hj
  obtain rfl | hj := Finset.mem_insert.mp hj
  · refine ⟨Nat.lt_succ_self _, ?_, ?_⟩
    · rw [divide_counter (hd.parent_ne h) hd.ne hd.child_lt.ne]
      exact fun he => hd.parent_ne h (Option.some.inj (hd.parent.symm.trans he))
    · rw [divide_counter (hd.parent_ne h) hd.ne hd.child_lt.ne]
      intro e he
      obtain rfl := List.mem_singleton.mp he
      exact Nat.lt_succ_of_lt hd.child_lt
  · have hold := h.arena j hj
    refine ⟨Nat.lt_succ_of_lt hold.lt, ?_, fun e he => ?_⟩
    · by_cases hjc : j = child
      · subst hjc
        rw [divide_child (hd.parent_ne h) hd.ne]
        exact fun he => hd.child_lt.ne (Option.some.inj he).symm
      · rw [divide_old (hd.parent_ne h) hd.ne splitLen hjc hold.lt.ne]
        exact hold.parent
    · by_cases hjc : j = child
      · subst hjc
        rw [divide_child (hd.parent_ne h) hd.ne] at he
        exact Nat.lt_succ_of_lt (hold.children e he)
      · rw [divide_old (hd.parent_ne h) hd.ne splitLen hjc hold.lt.ne] at he
        split at he
        · obtain rfl | he := mem_put he
          · exact Nat.lt_succ_self _
          · exact Nat.lt_succ_of_lt ((h.arena p hd.parent_mem).children e he)
        · exact Nat.lt_succ_of_lt (hold.children e he)

/-- **A split is safe**, when the leaf sets are up to date at the new node. -/
theorem safe : Safe ((s.divide p child splitLen).updateEvictableLeafSets s.counter) := by
  -- the node that a pinned one was is pinned
  have hpinned {j : NodeId} (hj : ((s.divide p child splitLen).nodes j).pinned = true) :
      (s.nodes (if j = s.counter then child else j)).pinned = true := by
    rw [hd.pinned h] at hj
    split at hj
    · next he => rwa [if_pos he]
    · next he => rwa [if_neg he]
  have hlocks {j : NodeId} (hj : ((s.divide p child splitLen).nodes j).pinned = true) (tier : Tier) :
      1 ≤ tier.lock ((s.divide p child splitLen).data j .full) := by
    rw [hd.lock h]
    exact (h.guarded (hpinned hj)).locks tier
  have hleaf {j : NodeId} (hj : ((s.divide p child splitLen).nodes j).pinned = true) :
      NoLeaf ((s.divide p child splitLen).updateEvictableLeafSets s.counter) j := by
    refine noLeaf_updateEvictableLeafSets ?_ fun he => he ▸ hlocks hj
    by_cases hjn : j = s.counter
    · exact .inr hjn
    · have hold := hpinned hj
      rw [if_neg hjn] at hold
      exact .inl (h.guarded hold).noLeaf
  have hpath {j : NodeId} (hj : ((s.divide p child splitLen).nodes j).pinned = true) :
      PinnedPath (s.divide p child splitLen) j := by
    have hold := hpinned hj
    by_cases hjn : j = s.counter
    · rw [if_pos hjn] at hold
      rw [hjn]
      exact hd.pinnedPath_counter h hold
    · rw [if_neg hjn] at hold
      exact hd.pinnedPath h (h.path j hold)
  have hspares := Spares.of_sameValues (.updateEvictableLeafSets (s.divide p child splitLen) s.counter)
  refine ⟨h.full, Nat.lt_succ_of_lt h.root, fun j hj => ?_, fun j hj => ?_, fun j hj => hlocks hj .device,
    fun j hj => hlocks hj .host, fun j hj => (hleaf hj).1, fun j hj => (hleaf hj).2,
    fun j hj => hspares.pinnedPath (hpath hj)⟩
  · obtain ⟨hlt, hparent, hchildren⟩ := hd.allocated h j hj
    exact ⟨hlt, hparent, hchildren⟩
  · have hold := hpinned hj
    by_cases hjn : j = s.counter
    · exact Finset.mem_insert.mpr (.inl hjn)
    · rw [if_neg hjn] at hold
      exact Finset.mem_insert_of_mem (h.mem j hold)

end Divisible

end

/-! ### Fragments -/

/-- The pieces of a value, in order: there when it is there, and together the value. -/
structure Pieces (value : Option Tensor) (pieces : List (Option Tensor)) : Prop where
  isSome : ∀ piece ∈ pieces, piece.isSome = value.isSome
  joined : pieces.flatMap (·.getD []) = value.getD []

theorem Pieces.whole (value : Option Tensor) : Pieces value [value] := by
  refine ⟨fun piece hp => ?_, flatMap_singleton _ _⟩
  rw [List.mem_singleton.mp hp]

theorem Pieces.cut (value : Option Tensor) (n : Nat) :
    Pieces value [value.map (List.take n), value.map (List.drop n)] := by
  cases value with
  | none => exact ⟨by simp, rfl⟩
  | some v => exact ⟨by simp, by simp⟩

/-- The pieces of pieces. -/
theorem Pieces.flatMap {value : Option Tensor} {fragments : List NodeId} {f g : NodeId → Option Tensor}
    {parts : NodeId → List NodeId} (h : Pieces value (fragments.map f))
    (hparts : ∀ i ∈ fragments, Pieces (f i) ((parts i).map g)) :
    Pieces value ((fragments.flatMap parts).map g) := by
  constructor
  · intro piece hp
    obtain ⟨j, hj, rfl⟩ := List.mem_map.mp hp
    obtain ⟨i, hi, hj⟩ := List.mem_flatMap.mp hj
    rw [(hparts i hi).isSome _ (mem_map_of_mem hj), h.isSome _ (mem_map_of_mem hi)]
  · rw [← h.joined, flatMap_map, flatMap_map, flatMap_assoc]
    refine flatMap_congr fun i hi => ?_
    rw [← (hparts i hi).joined, flatMap_map]

/-- **What became of the pinned nodes**: each is a list of pinned nodes of which it is the last, that have
its key and its data on the device and on the host; and no other node is pinned. -/
structure Fragments (fragments : NodeId → List NodeId) (s t : UnifiedTreeCore) : Prop where
  last : ∀ i, (s.nodes i).pinned = true → (fragments i).getLast? = some i
  pinned : ∀ i, (s.nodes i).pinned = true → ∀ j ∈ fragments i, (t.nodes j).pinned = true
  all : ∀ j, (t.nodes j).pinned = true → ∃ i, (s.nodes i).pinned = true ∧ j ∈ fragments i
  key : ∀ i, (s.nodes i).pinned = true →
    (fragments i).flatMap (fun j => (t.nodes j).key) = (s.nodes i).key
  value : ∀ i, (s.nodes i).pinned = true →
    Pieces (s.data i .full).value ((fragments i).map fun j => (t.data j .full).value)
  hostValue : ∀ i, (s.nodes i).pinned = true →
    Pieces (s.data i .full).hostValue ((fragments i).map fun j => (t.data j .full).hostValue)

namespace Fragments

variable {s t u : UnifiedTreeCore} {f g : NodeId → List NodeId}

theorem of_spares (h : Spares s t) : Fragments (fun i => [i]) s t where
  last _ _ := rfl
  pinned i hi j hj := by
    rw [List.mem_singleton.mp hj, h.pinned]
    exact hi
  all j hj := ⟨j, (h.pinned j).symm.trans hj, mem_singleton_self j⟩
  key i hi := (flatMap_singleton _ _).trans (h.key i hi)
  value i hi := by
    rw [map_singleton, h.value i hi]
    exact .whole _
  hostValue i hi := by
    rw [map_singleton, h.hostValue i hi]
    exact .whole _

theorem trans (h : Fragments f s t) (h' : Fragments g t u) :
    Fragments (fun i => (f i).flatMap g) s u where
  last i hi := by
    obtain ⟨l, hl⟩ := List.getLast?_eq_some_iff.mp (h.last i hi)
    have hlast : i ∈ f i := hl ▸ mem_append_right l (mem_singleton_self i)
    have hi' := h'.last i (h.pinned i hi i hlast)
    rw [hl, flatMap_append, flatMap_singleton, List.getLast?_append, hi']
    rfl
  pinned i hi k hk := by
    obtain ⟨j, hj, hk⟩ := List.mem_flatMap.mp hk
    exact h'.pinned j (h.pinned i hi j hj) k hk
  all k hk := by
    obtain ⟨j, hj, hk⟩ := h'.all k hk
    obtain ⟨i, hi, hj⟩ := h.all j hj
    exact ⟨i, hi, List.mem_flatMap.mpr ⟨j, hj, hk⟩⟩
  key i hi := by
    rw [← h.key i hi, flatMap_assoc]
    exact flatMap_congr fun j hj => h'.key j (h.pinned i hi j hj)
  value i hi := (h.value i hi).flatMap fun j hj => h'.value j (h.pinned i hi j hj)
  hostValue i hi := (h.hostValue i hi).flatMap fun j hj => h'.hostValue j (h.pinned i hi j hj)

/-- A split makes two of one. -/
theorem divide {p child : NodeId} {splitLen : Nat} (hd : Divisible s p child splitLen) (h : Safe s) :
    Fragments (fun i => if i = child then [s.counter, child] else [i]) s
      (s.divide p child splitLen) where
  last i _ := by
    split
    · next he => exact congrArg some he.symm
    · rfl
  pinned i hi j hj := by
    rw [hd.pinned h]
    split at hj
    · next he =>
      subst he
      obtain rfl | hj := List.mem_cons.mp hj
      · rw [if_pos rfl]
        exact hi
      · rw [List.mem_singleton.mp hj, if_neg hd.child_lt.ne]
        exact hi
    · rw [List.mem_singleton.mp hj, if_neg (h.lt_of_pinned hi).ne]
      exact hi
  all j hj := by
    rw [hd.pinned h] at hj
    split at hj
    · next he =>
      refine ⟨child, hj, ?_⟩
      rw [if_pos rfl, he]
      exact mem_cons_self
    · refine ⟨j, hj, ?_⟩
      split
      · next he => exact he ▸ mem_cons_of_mem _ (mem_singleton_self j)
      · exact mem_singleton_self j
  key i hi := by
    split
    · next he =>
      rw [he, flatMap_cons, flatMap_singleton,
        divide_counter (hd.parent_ne h) hd.ne hd.child_lt.ne, divide_child (hd.parent_ne h) hd.ne]
      exact take_append_drop splitLen _
    · next hne =>
      rw [flatMap_singleton, divide_old (hd.parent_ne h) hd.ne splitLen hne (h.lt_of_pinned hi).ne]
  value i hi := by
    split
    · next he =>
      rw [he, map_cons, map_singleton, hd.data_counter h, hd.data_child h]
      exact .cut _ splitLen
    · next hne =>
      rw [map_singleton, hd.data_old h hne (h.lt_of_pinned hi).ne]
      exact .whole _
  hostValue i hi := by
    split
    · next he =>
      rw [he, map_cons, map_singleton, hd.data_counter h, hd.data_child h]
      exact .cut _ splitLen
    · next hne =>
      rw [map_singleton, hd.data_old h hne (h.lt_of_pinned hi).ne]
      exact .whole _

end Fragments

theorem Safe.splitNode {s t : UnifiedTreeCore} {child : NodeId} {splitLen : Nat} (h : Safe s)
    (ht : s.splitNode child splitLen = some t) : Safe t ∧ ∃ f, Fragments f s t := by
  obtain ⟨p, hd, rfl⟩ := h.divisible ht
  let u := (s.divide p child splitLen).updateEvictableLeafSets s.counter
  have hu : Safe u := hd.safe h
  have hchild := hu.updateEvictableLeafSets child
  have htracked := hchild.trans (hchild.safe.discard
    (t := (u.updateEvictableLeafSets child).updateDuplicateTracking s.counter)
    rfl rfl rfl rfl rfl rfl (Finset.Subset.refl _) (Finset.Subset.refl _))
  have hupdated : Spares (s.divide p child splitLen) u := .of_sameValues (.updateEvictableLeafSets _ _)
  exact ⟨htracked.safe, _, (Fragments.divide hd h).trans (.of_spares (hupdated.trans htracked.spares))⟩

/-! ### Runs -/

/-- What happens to a tree after `pin_prefix`. -/
inductive TreeAction where
  | incLockRef (node : NodeId) (skip : List ComponentType)
  | decLockRef (node : NodeId) (skip : List ComponentType)
  | incHostLockRef (node : NodeId)
  | decHostLockRef (node : NodeId) (skip : List ComponentType)
  | splitNode (child : NodeId) (splitLen : Nat)
  | addNewNode (parent : NodeId) (key : Key) (value : Tensor)
  | evictDeviceLeaf (node : NodeId) (isWriteBack : Bool)
  | dropSubtreeNoHost (node : NodeId)
  | evictHostLeaf (node : NodeId)
  | reclaimFullHostDuplicates (numTokens freed : Nat)
  | deleteTombstoneLeaf (deleted : NodeId)
  deriving DecidableEq, Repr

def UnifiedTreeCore.stepTree (d : Drivers) (s : UnifiedTreeCore) : TreeAction → Option UnifiedTreeCore
  | .incLockRef i skip => s.incLockRef i skip
  | .decLockRef i skip => s.decLockRef i skip
  | .incHostLockRef i => s.incHostLockRef i
  | .decHostLockRef i skip => s.decHostLockRef i skip
  | .splitNode child splitLen => s.splitNode child splitLen
  | .addNewNode p key value => s.addNewNode p key value
  | .evictDeviceLeaf i isWriteBack => evictDeviceLeaf d s i isWriteBack
  | .dropSubtreeNoHost i => dropSubtreeNoHost d s i
  | .evictHostLeaf i => evictHostLeaf d s i
  | .reclaimFullHostDuplicates numTokens freed => some (reclaimFullHostDuplicates d s numTokens freed)
  | .deleteTombstoneLeaf deleted => deleteTombstoneLeaf d s deleted

/-- **One step.** -/
theorem Safe.step {d : Drivers} {s t : UnifiedTreeCore} {a : TreeAction} (h : Safe s)
    (ht : s.stepTree d a = some t) : Safe t ∧ ∃ f, Fragments f s t := by
  have harmless (hst : Harmless s t) : Safe t ∧ ∃ f, Fragments f s t :=
    ⟨hst.safe, _, .of_spares hst.spares⟩
  cases a with
  | incLockRef i skip => exact harmless (h.incLockRef ht)
  | decLockRef i skip => exact harmless (h.decLockRef ht)
  | incHostLockRef i => exact harmless (h.incHostLockRef ht)
  | decHostLockRef i skip => exact harmless (h.decHostLockRef ht)
  | splitNode child splitLen => exact h.splitNode ht
  | addNewNode p key value => exact harmless (h.addNewNode ht)
  | evictDeviceLeaf i isWriteBack => exact harmless (h.evictDeviceLeaf d ht)
  | dropSubtreeNoHost i => exact harmless (h.dropSubtreeNoHost d ht)
  | evictHostLeaf i => exact harmless (h.evictHostLeaf d ht)
  | reclaimFullHostDuplicates numTokens freed =>
    cases ht
    exact harmless (h.reclaimFullHostDuplicates d numTokens freed)
  | deleteTombstoneLeaf deleted => exact harmless (h.deleteTombstones d ht)

/-- A node can be found from the root. -/
inductive InTree (s : UnifiedTreeCore) : NodeId → Prop where
  | root : InTree s s.rootNode
  | child {i p : NodeId} (key : Key) : InTree s p → (s.nodes p).children.lookup key = some i →
      i ∈ s.nodeArena → InTree s i

theorem PinnedPath.inTree {s : UnifiedTreeCore} (h : Safe s) {i : NodeId} (hi : PinnedPath s i) :
    InTree s i := by
  induction hi with
  | @top i hi _ hl => exact .child _ .root hl (h.mem i hi)
  | @step i p hi _ hl _ ih => exact .child _ ih hl (h.mem i hi)

/-- **A pinned prefix is never evicted.**  After `pin_prefix`, whatever locks and releases, splits, inserts
and evicts: the pinned nodes are those of then, or fragments of them that have all of their data, and they
are in the tree, and in neither leaf set.  Locks may be from before, and the releases need not match
them.  Where nothing was pinned before, the tree is safe as it is (`WellFormed.safe`). -/
theorem pinned_kept (d : Drivers) (s : UnifiedTreeCore) (hw : WellFormed s) (hs : Safe s)
    (actions : List TreeAction) (t : UnifiedTreeCore)
    (ht : Runs.exec (stepTree d) s.pinPrefix actions = some t) :
    (∀ i ∈ s.path s.deepest, (s.pinPrefix.nodes i).pinned = true) ∧
      (∃ f, Fragments f s.pinPrefix t) ∧
      ∀ i, (t.nodes i).pinned = true → InTree t i ∧ i ∉ t.evictableDeviceLeaves ∧
        i ∉ t.evictableHostLeaves := by
  obtain ⟨hsafe, hfragments⟩ := Runs.exec_keeps
    (J := fun t => Safe t ∧ ∃ f, Fragments f s.pinPrefix t)
    (fun h hstep => by
      obtain ⟨hsafe, f, hf⟩ := h
      obtain ⟨hsafe', g, hg⟩ := hsafe.step hstep
      exact ⟨hsafe', _, hf.trans hg⟩)
    ⟨hs.pinPrefix hw, _, .of_spares (.refl _)⟩ ht
  have hpins : Pins (· ∈ s.path s.deepest) s s.pinPrefix := Pins.foldl hs.full
  exact ⟨fun i hi => (hpins.pinned i).mpr (.inr hi), hfragments,
    fun i hi => ⟨(hsafe.path i hi).inTree hsafe, hsafe.deviceLeaves i hi, hsafe.hostLeaves i hi⟩⟩

/-- Drivers that free what they are told to. -/
def freeing : Drivers where
  evictComponent c target n :=
    let cd := n.componentData c
    let kept : ComponentData :=
      { cd with
        value := if target = .host then cd.value else none
        hostValue := if target = .device then cd.hostValue else none }
    { componentData := Function.update n.componentData c kept
      evictable := Function.update (fun _ => 0) c (cd.size - kept.size)
      deviceFreed := (cd.size - kept.size).toNat
      hostFreed := if target = .device then 0 else (cd.hostValue.map List.length).getD 0 }
  nodeHasComponentData c target n :=
    (decide (target ≠ .host) && (n.componentData c).value.isSome) ||
      (decide (target ≠ .device) && (n.componentData c).hostValue.isSome)
  evictionPriority _ _ := 0
  sessionHolds _ _ _ := false

theorem oneNode_safe (mamba : Option Tensor) : Safe (oneNode mamba) :=
  (oneNode_wellFormed mamba).safe fun i => by
    match i with
    | 0 => rfl
    | 1 => rfl
    | _ + 2 => rfl

/-- A request locks the pinned node, and it splits; another adds a node below, which is evicted. -/
def busy : List TreeAction :=
  [.incLockRef 1 [], .splitNode 1 1, .decLockRef 1 [], .addNewNode 1 [9] [4], .evictDeviceLeaf 3 false,
    .deleteTombstoneLeaf 3]

theorem busy_pinned_kept :
    (oneNode none).path (oneNode none).deepest = [1] ∧
      (Runs.exec (stepTree freeing) (oneNode none).pinPrefix busy).isSome = true ∧
      ∀ t, Runs.exec (stepTree freeing) (oneNode none).pinPrefix busy = some t →
        (∀ i ∈ (oneNode none).path (oneNode none).deepest,
          ((oneNode none).pinPrefix.nodes i).pinned = true) ∧
        (∃ f, Fragments f (oneNode none).pinPrefix t) ∧
        ∀ i, (t.nodes i).pinned = true → InTree t i ∧ i ∉ t.evictableDeviceLeaves ∧
          i ∉ t.evictableHostLeaves :=
  ⟨by decide, by decide, pinned_kept freeing _ (oneNode_wellFormed _) (oneNode_safe _) busy⟩

end QwenStack.TreeCore
