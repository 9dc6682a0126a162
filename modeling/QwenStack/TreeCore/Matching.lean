import QwenStack.Support.Utf8
import QwenStack.TreeCore.Growth

/-!
# Tree core — `match_prefix`

The walk of `_match_prefix_helper` goes down by pages, splits the node that the key leaves inside, and
remembers the last node that all validators accept.  What the validators of the components keep and
accept is a parameter.  With `enable_hicache` there are two sets of them, and the walk goes on below the
device, through nodes that are on the host only.  `finalize_match_result_in_tree_core` of the components is
left out, and taken to leave the result as it is.

The walk never fails and leaves the map as it was.  What it returns is on the device under a beginning of
the key, and it is the longest that there is when the validators accept all that is on the device
(`matchPrefix_spec`).
-/

namespace QwenStack.TreeCore
open Assoc UnifiedTreeCore Prefixes List

/-- `create_match_validator`, of all components together. -/
structure Validators where
  State : Type
  init : State
  accept : State → UnifiedTreeNode → State × Bool

/-- The validators accept what is on the device only: that of `FULL` is among them. -/
def Validators.Sound (d : Validators) : Prop :=
  ∀ σ n, (d.accept σ n).2 = true → (n.componentData .full).value.isSome = true

/-- And all of it: there is no other. -/
def Validators.Complete (d : Validators) : Prop :=
  ∀ σ n, (n.componentData .full).value.isSome = true → (d.accept σ n).2 = true

/-- `CacheAction`: what a walk leaves for the cache to do. -/
inductive CacheAction where
  | freeDeviceKV (values : List Tensor)
  | backupKV (nodes : List NodeId)
  | replaceWriteThroughOnNodeSplit (ackId : Nat) (oldNode newNode newChild : NodeId)
  deriving DecidableEq, Repr

/-- `MatchResult`. -/
structure MatchResult where
  deviceIndices : Tensor
  lastDeviceNode : NodeId
  lastHostNode : NodeId
  bestMatchNode : NodeId
  fullKvHitLength : Nat := 0
  cacheActions : List CacheAction := []
  deriving DecidableEq, Repr

/-- The variables of `_match_prefix_helper`. -/
structure MatchWalk (v d : Validators) where
  node : NodeId
  key : Key
  value : List Tensor
  bestMatchNode : NodeId
  bestMatchDeviceNode : NodeId
  bestMatchDeviceValueLen : Nat
  fullKvHitLength : Nat
  action : Option CacheAction
  validators : v.State
  deviceValidators : d.State

namespace MatchWalk

variable {v d : Validators}

/-- The slots of a node are collected, if it is on the device. -/
def visit (w : MatchWalk v d) (i : NodeId) (n : UnifiedTreeNode) : MatchWalk v d :=
  { w with
    node := i
    value := if n.evicted = true then w.value else w.value ++ (n.componentData .full).value.toList }

/-- `_update_best_if_valid`. -/
def updateBest (hicache : Bool) (w : MatchWalk v d) (n : UnifiedTreeNode) : MatchWalk v d :=
  let onDevice := d.accept w.deviceValidators n
  let w := { w with deviceValidators := onDevice.1 }
  let w := if onDevice.2 = true then
      { w with bestMatchDeviceValueLen := w.value.length, bestMatchDeviceNode := w.node }
    else w
  if hicache = true then
    let matched := v.accept w.validators n
    let w := { w with validators := matched.1 }
    if matched.2 = true then { w with bestMatchNode := w.node } else w
  else if onDevice.2 = true then { w with bestMatchNode := w.node } else w

end MatchWalk

namespace UnifiedTreeCore

/-- What `_split_node` leaves to do. -/
def splitAction (s : UnifiedTreeCore) (child : NodeId) : Option CacheAction :=
  (s.nodes child).writeThroughPendingId.map fun ackId =>
    .replaceWriteThroughOnNodeSplit ackId child s.counter child

/-- `RadixKey.match`. -/
def keyMatch (s : UnifiedTreeCore) (k k' : Key) : Nat := s.radixKey.keyMatch s.pageSize k k'

/-- `RadixKey.page_aligned`. -/
def pageAligned (s : UnifiedTreeCore) (k : Key) : Key := s.radixKey.pageAligned s.pageSize k

/-- The loop of `_match_prefix_helper`. -/
def matchLoop (hicache : Bool) {v d : Validators} :
    Nat → UnifiedTreeCore → MatchWalk v d → Option (UnifiedTreeCore × MatchWalk v d)
  | 0, _, _ => none
  | fuel + 1, s, w =>
      if w.key = [] then some (s, w)
      else
        match (s.nodes w.node).children.lookup (s.childKey w.key) with
        | none => some (s, w)
        | some child =>
            if (s.nodes child).evicted = true ∧ (s.nodes child).backuped = false then some (s, w)
            else
              let len := s.keyMatch (s.nodes child).key w.key
              let w := { w with fullKvHitLength := w.fullKvHitLength + len }
              if len < (s.nodes child).key.length then do
                let w := { w with action := s.splitAction child }
                let t ← s.splitNode child len
                some (t, (w.visit s.counter (t.nodes s.counter)).updateBest hicache (t.nodes s.counter))
              else
                let below := (w.visit child (s.nodes child)).updateBest hicache (s.nodes child)
                s.matchLoop hicache fuel { below with key := w.key.drop len }

/-- `_empty_match_result`. -/
def emptyMatchResult (s : UnifiedTreeCore) : MatchResult :=
  { deviceIndices := [], lastDeviceNode := s.rootNode, lastHostNode := s.rootNode
    bestMatchNode := s.rootNode }

/-- `match_prefix`; the times, and what the components add to the result, are left out. -/
def matchPrefix (s : UnifiedTreeCore) (hicache : Bool) (v d : Validators) (key : Key) :
    Option (UnifiedTreeCore × MatchResult) :=
  let key := s.pageAligned key
  if key = [] then some (s, s.emptyMatchResult)
  else do
    let (t, w) ← s.matchLoop hicache (key.length + 1)
      { node := s.rootNode, key := key, value := [], bestMatchNode := s.rootNode
        bestMatchDeviceNode := s.rootNode, bestMatchDeviceValueLen := 0, fullKvHitLength := 0
        action := none, validators := v.init, deviceValidators := d.init }
    some (t,
      { deviceIndices := (w.value.take w.bestMatchDeviceValueLen).flatten
        lastDeviceNode := w.bestMatchDeviceNode
        lastHostNode := if hicache = true then w.bestMatchNode else w.bestMatchDeviceNode
        bestMatchNode := w.bestMatchNode
        fullKvHitLength := w.fullKvHitLength
        cacheActions := w.action.toList })

end UnifiedTreeCore

/-! ### Whole pages -/

section
variable {s : UnifiedTreeCore} {n : Nat} {k k' : Key}

theorem keyMatch_eq : s.keyMatch k k' = lcpLen k k' / s.pageSize * s.pageSize :=
  s.radixKey.keyMatch_eq _ _ _

theorem pageAligned_eq : s.pageAligned k = k.take (k.length / s.pageSize * s.pageSize) :=
  s.radixKey.pageAligned_eq _ _

theorem dvd_keyMatch : s.pageSize ∣ s.keyMatch k k' := keyMatch_eq ▸ Nat.dvd_mul_left _ _

theorem keyMatch_le_lcpLen : s.keyMatch k k' ≤ lcpLen k k' := keyMatch_eq ▸ Nat.div_mul_le_self _ _

theorem keyMatch_le_left : s.keyMatch k k' ≤ k.length := keyMatch_le_lcpLen.trans (lcpLen_le_left k k')

theorem keyMatch_le_right : s.keyMatch k k' ≤ k'.length :=
  keyMatch_le_lcpLen.trans (lcpLen_le_right k k')

theorem take_keyMatch : k.take (s.keyMatch k k') = k'.take (s.keyMatch k k') := by
  have h := congrArg (List.take (s.keyMatch k k')) (take_lcpLen k k')
  rwa [take_take, take_take, Nat.min_eq_left keyMatch_le_lcpLen] at h

/-- Whole pages in common are within the match. -/
theorem le_keyMatch (hp : 0 < s.pageSize) (hn : s.pageSize ∣ n) (hk : n ≤ k.length)
    (hk' : n ≤ k'.length) (h : k.take n = k'.take n) : n ≤ s.keyMatch k k' := by
  have hle := le_lcpLen_of_isPrefix (List.take_prefix n k) (h ▸ take_prefix n k')
  rw [length_take, Nat.min_eq_left hk] at hle
  obtain ⟨q, rfl⟩ := hn
  have hq : q ≤ lcpLen k k' / s.pageSize := (Nat.le_div_iff_mul_le hp).mpr (by rwa [Nat.mul_comm])
  rw [keyMatch_eq, Nat.mul_comm s.pageSize q]
  exact Nat.mul_le_mul_right s.pageSize hq

theorem length_pageAligned : (s.pageAligned k).length = k.length / s.pageSize * s.pageSize := by
  rw [pageAligned_eq, length_take, Nat.min_eq_left (Nat.div_mul_le_self _ _)]

theorem dvd_length_pageAligned : s.pageSize ∣ (s.pageAligned k).length :=
  length_pageAligned ▸ Nat.dvd_mul_left _ _

theorem pageAligned_prefix : s.pageAligned k <+: k := pageAligned_eq ▸ take_prefix _ _

end

/-! ### Where a key leaves the device -/

section
variable {s : UnifiedTreeCore} {i c : NodeId} {k k' : Key} {v w : Tensor}

variable (h : Radix s) (hs : Stored s) (hi : OnDevice s k v i)
include h hs hi

/-- What is on the device is not beyond the hit. -/
theorem OnDevice.le_hit (k' : Key) : k.length ≤ hit s.deviceMap (k ++ k') := by
  refine Prefixes.le_hit (v := v) ?_ (by rw [length_append]; exact Nat.le_add_right _ _)
  rw [take_left']
  · exact (deviceMap_eq_some_iff h hs).mpr (hi.holds h hs)
  · rfl

/-- A hit beyond a node goes through the child under the next page. -/
theorem OnDevice.beyond (hlt : k.length < hit s.deviceMap (k ++ k')) :
    ∃ m c w, hit s.deviceMap (k ++ k') = k.length + m ∧ s.pageSize ∣ m ∧ m ≤ k'.length ∧ 0 < m ∧
      (s.nodes i).children.lookup (s.childKey k') = some c ∧ s.deviceValue c = some w ∧
        ((s.nodes c).key <+: k'.take m ∨ k'.take m <+: (s.nodes c).key) := by
  have hm := paged_deviceMap h hs
  obtain ⟨m, hm'⟩ := Nat.exists_eq_add_of_lt hlt
  have hle := hit_le s.deviceMap (k ++ k')
  rw [length_append] at hle
  have hdvd : s.pageSize ∣ m + 1 := by
    have hd := hm.dvd_hit (k ++ k')
    rw [hm', Nat.add_assoc] at hd
    exact (Nat.dvd_add_right (hi.dvd h)).mp hd
  have hheld := (deviceMap_eq_some_iff h hs).mp (hm.held_eq (k ++ k'))
  rw [hm', Nat.add_assoc, take_length_add_append] at hheld
  have hne : k'.take (m + 1) ≠ [] :=
    ne_nil_of_length_pos (by rw [length_take]; omega)
  obtain ⟨c, w, hc, hw, hkey⟩ := hheld.child h hi hne
  refine ⟨m + 1, c, w, by omega, hdvd, by omega, Nat.succ_pos m, ?_, hw, hkey⟩
  rw [← childKey_take (Nat.le_of_dvd (Nat.succ_pos m) hdvd)]
  exact hc

/-- Nothing on the device is under the next page. -/
theorem OnDevice.hit_of_absent
    (habsent : k' ≠ [] → ∀ c, (s.nodes i).children.lookup (s.childKey k') = some c →
      s.deviceValue c = none) : hit s.deviceMap (k ++ k') = k.length := by
  refine Nat.le_antisymm (Nat.le_of_not_lt fun hlt => ?_) (hi.le_hit h hs k')
  obtain ⟨m, c, w, -, -, hle, hpos, hc, hw, -⟩ := hi.beyond h hs hlt
  have hne : k' ≠ [] := ne_nil_of_length_pos (hpos.trans_le hle)
  rw [habsent hne c hc] at hw
  cases hw

/-- The key leaves the device inside a node. -/
theorem OnDevice.hit_of_partial
    (hc : (s.nodes i).children.lookup (s.childKey k') = some c) (hw : s.deviceValue c = some w)
    (hlt : s.keyMatch (s.nodes c).key k' < (s.nodes c).key.length) :
    hit s.deviceMap (k ++ k') = k.length + s.keyMatch (s.nodes c).key k' := by
  obtain ⟨hchild, hpage⟩ := h.child (hi.mem h) hc
  refine Nat.le_antisymm (Nat.le_of_not_lt fun hlt' => ?_) ?_
  · obtain ⟨m, c', w', hm, hdvd, hle, -, hc', -, hkey⟩ :=
      hi.beyond h hs (Nat.lt_of_le_of_lt (Nat.le_add_right _ _) hlt')
    obtain rfl : c = c' := Option.some.inj (hc.symm.trans hc')
    obtain hkey | hkey := hkey
    · -- all of the node is in the key
      have hlen := hkey.length_le
      rw [length_take] at hlen
      have hall : (s.nodes c).key.length ≤ s.keyMatch (s.nodes c).key k' := by
        refine le_keyMatch h.pageSize_pos (h.dvd_key c hchild.mem) (Nat.le_refl _) (by omega) ?_
        rw [take_length]
        exact List.prefix_iff_eq_take.mp (hkey.trans (List.take_prefix m k'))
      omega
    · have hlen := hkey.length_le
      rw [length_take, Nat.min_eq_left hle] at hlen
      have htake := List.prefix_iff_eq_take.mp hkey
      rw [length_take, Nat.min_eq_left hle] at htake
      have hmatch := le_keyMatch h.pageSize_pos hdvd hlen hle htake.symm
      omega
  · rw [hpage] at hc
    have hsnoc := (deviceMap_eq_some_iff h hs).mpr (OnDevice.holds h hs (hi.snoc ⟨hi.mem h, hc, hw⟩))
    have hcut := (paged_deviceMap h hs).take (n := k.length + s.keyMatch (s.nodes c).key k')
      hsnoc (Nat.dvd_add (hi.dvd h) dvd_keyMatch)
    rw [take_length_add_append, take_keyMatch, ← take_length_add_append] at hcut
    refine Prefixes.le_hit hcut ?_
    rw [length_append]
    exact Nat.add_le_add_left keyMatch_le_right _

end

/-! ### The walk -/

/-- The device anchor: a node, and its slots among those that were collected. -/
def Best (s : UnifiedTreeCore) (K : Key) (value : List Tensor) (len : Nat) (i : NodeId) : Prop :=
  len ≤ value.length ∧ ∃ k, OnDevice s k (value.take len).flatten i ∧ k <+: K

/-- What was collected is all that the device has of the key. -/
def Exhausted (s : UnifiedTreeCore) (K : Key) (value : List Tensor) : Prop :=
  ∃ k i, OnDevice s k value.flatten i ∧ k <+: K ∧ hit s.deviceMap K = k.length

section
variable {s t : UnifiedTreeCore} {K k : Key} {value : List Tensor} {len : Nat} {i : NodeId}
  {v d : Validators} {w : MatchWalk v d}

theorem Best.append (h : Best s K value len i) (l : List Tensor) : Best s K (value ++ l) len i := by
  obtain ⟨hle, hk⟩ := h
  refine ⟨hle.trans (by rw [length_append]; exact Nat.le_add_right _ _), ?_⟩
  rwa [take_append_of_le_length hle]

theorem Best.last (hi : OnDevice s k value.flatten i) (hk : k <+: K) : Best s K value value.length i :=
  ⟨Nat.le_refl _, k, by rwa [take_length], hk⟩

theorem Best.split (h : Split s t) (hb : Best s K value len i) : Best t K value len i := by
  obtain ⟨hle, k, hi, hk⟩ := hb
  exact ⟨hle, k, h.onDevice hi, hk⟩

theorem Exhausted.split (h : Split s t) (he : Exhausted s K value) : Exhausted t K value := by
  obtain ⟨k, i, hi, hk, hhit⟩ := he
  exact ⟨k, i, h.onDevice hi, hk, h.deviceMap ▸ hhit⟩

/-- What `_update_best_if_valid` does to the device anchor. -/
theorem updateBest_device (hicache : Bool) (w : MatchWalk v d) (n : UnifiedTreeNode) :
    (w.updateBest hicache n).node = w.node ∧ (w.updateBest hicache n).key = w.key ∧
      (w.updateBest hicache n).value = w.value ∧
      (((d.accept w.deviceValidators n).2 = true ∧
          (w.updateBest hicache n).bestMatchDeviceValueLen = w.value.length ∧
          (w.updateBest hicache n).bestMatchDeviceNode = w.node) ∨
        ((d.accept w.deviceValidators n).2 = false ∧
          (w.updateBest hicache n).bestMatchDeviceValueLen = w.bestMatchDeviceValueLen ∧
          (w.updateBest hicache n).bestMatchDeviceNode = w.bestMatchDeviceNode)) := by
  cases hd : (d.accept w.deviceValidators n).2 <;> cases hv : (v.accept w.validators n).2 <;>
    cases hicache <;> simp [MatchWalk.updateBest, hd, hv]

/-- Where the walk is: at a node on the device, or below the device. -/
structure Walking (s : UnifiedTreeCore) (K : Key) (w : MatchWalk v d) : Prop where
  radix : Radix s
  stored : Stored s
  mem : w.node ∈ s.nodeArena
  dvd : s.pageSize ∣ w.key.length
  place : (∃ k, OnDevice s k w.value.flatten w.node ∧ K = k ++ w.key) ∨
    s.deviceValue w.node = none ∧ Exhausted s K w.value
  best : Best s K w.value w.bestMatchDeviceValueLen w.bestMatchDeviceNode
  exact : d.Complete → w.bestMatchDeviceValueLen = w.value.length

section
variable (h : Walking s K w)
include h

theorem Walking.note (n : Nat) (action : Option CacheAction) :
    Walking s K { w with fullKvHitLength := n, action := action } :=
  ⟨h.radix, h.stored, h.mem, h.dvd, h.place, h.best, h.exact⟩

/-- The walk comes to a node on the device. -/
theorem Walking.step_device (hicache : Bool) (hsplit : Split s t) {u : Tensor} {x : Key}
    (hplace : OnDevice t k (w.value.flatten ++ u) i) (hK : K = k ++ x)
    (hvalue : t.deviceValue i = some u) (hx : s.pageSize ∣ x.length) :
    Walking t K { (w.visit i (t.nodes i)).updateBest hicache (t.nodes i) with key := x } := by
  have hradix := hsplit.radix h.radix
  have hvisit : (w.visit i (t.nodes i)).value = w.value ++ [u] := by
    have hevicted : (t.nodes i).evicted = false := by
      rw [UnifiedTreeNode.evicted, ← data, ← deviceValue, hvalue]
      exact Bool.and_false _
    change (if (t.nodes i).evicted = true then w.value else w.value ++ (t.deviceValue i).toList) = _
    rw [hevicted, hvalue]
    rfl
  have hflat : (w.value ++ [u]).flatten = w.value.flatten ++ u := by
    rw [flatten_append, flatten_singleton]
  have hkK : k <+: K := hK ▸ prefix_append k x
  obtain ⟨hnode, -, hval, hbest⟩ := updateBest_device hicache (w.visit i (t.nodes i)) (t.nodes i)
  rw [hvisit] at hval hbest
  refine ⟨hradix, hsplit.stored h.stored, ?_, hsplit.pageSize ▸ hx, .inl ⟨k, ?_, hK⟩, ?_, fun hd => ?_⟩
  · rw [hnode]
    exact hplace.mem hradix
  · rw [hnode, hval, hflat]
    exact hplace
  · rw [hval]
    obtain ⟨-, hlen, hlast⟩ | ⟨-, hlen, hlast⟩ := hbest
    · rw [hlen, hlast]
      exact .last (hflat ▸ hplace) hkK
    · rw [hlen, hlast]
      exact (h.best.split hsplit).append [u]
  · rw [hval]
    obtain ⟨-, hlen, -⟩ | ⟨hno, -, -⟩ := hbest
    · exact hlen
    · rw [hd _ _ (by rw [← data, ← deviceValue, hvalue]; rfl)] at hno
      cases hno

/-- The walk comes to a node that is not on the device. -/
theorem Walking.step_host (hicache : Bool) (hsound : d.Sound) (hsplit : Split s t)
    {x : Key} (hmem : i ∈ t.nodeArena) (hevicted : (t.nodes i).evicted = true)
    (hx : s.pageSize ∣ x.length) (hexhausted : Exhausted t K w.value) :
    Walking t K { (w.visit i (t.nodes i)).updateBest hicache (t.nodes i) with key := x } := by
  have hnone : t.deviceValue i = none := by
    rw [UnifiedTreeNode.evicted, Bool.and_eq_true] at hevicted
    exact Option.isNone_iff_eq_none.mp hevicted.2
  have hvisit : (w.visit i (t.nodes i)).value = w.value := if_pos hevicted
  obtain ⟨hnode, -, hval, hbest⟩ := updateBest_device hicache (w.visit i (t.nodes i)) (t.nodes i)
  rw [hvisit] at hval hbest
  have hrejected : ((w.visit i (t.nodes i)).updateBest hicache (t.nodes i)).bestMatchDeviceValueLen =
      w.bestMatchDeviceValueLen ∧ ((w.visit i (t.nodes i)).updateBest hicache
        (t.nodes i)).bestMatchDeviceNode = w.bestMatchDeviceNode := by
    obtain ⟨hyes, -, -⟩ | ⟨-, hlen, hlast⟩ := hbest
    · have hsome := hsound _ _ hyes
      rw [← data, ← deviceValue, hnone] at hsome
      cases hsome
    · exact ⟨hlen, hlast⟩
  refine ⟨hsplit.radix h.radix, hsplit.stored h.stored, ?_, hsplit.pageSize ▸ hx, .inr ⟨?_, ?_⟩, ?_,
    fun hd => ?_⟩
  · rw [hnode]
    exact hmem
  · rw [hnode]
    exact hnone
  · rw [hval]
    exact hexhausted
  · rw [hval, hrejected.1, hrejected.2]
    exact h.best.split hsplit
  · rw [hval, hrejected.1]
    exact h.exact hd

/-- The walk ends where nothing on the device is under the next page. -/
theorem Walking.exhausted (habsent : w.key ≠ [] → ∀ c,
    (s.nodes w.node).children.lookup (s.childKey w.key) = some c → s.deviceValue c = none) :
    Exhausted s K w.value := by
  obtain ⟨k, hk, rfl⟩ | ⟨-, hexhausted⟩ := h.place
  · exact ⟨k, w.node, hk, prefix_append _ _, hk.hit_of_absent h.radix h.stored habsent⟩
  · exact hexhausted

/-- A child shares the next page with the key. -/
theorem Walking.child {c : NodeId} (hne : w.key ≠ [])
    (hc : (s.nodes w.node).children.lookup (s.childKey w.key) = some c) :
    Child s w.node c ∧ 0 < s.keyMatch (s.nodes c).key w.key := by
  obtain ⟨hchild, hpage⟩ := h.radix.child h.mem hc
  have hle := Nat.le_of_dvd (List.length_pos_iff.mpr hne) h.dvd
  exact ⟨hchild, h.radix.pageSize_pos.trans_le (le_keyMatch h.radix.pageSize_pos (Nat.dvd_refl _)
    hchild.pageSize_le hle (childKey_eq_iff.mp hpage.symm))⟩

/-- A child on the device hangs below a node on the device. -/
theorem Walking.place_of_value {c : NodeId} {u : Tensor} (hchild : Child s w.node c)
    (hu : s.deviceValue c = some u) : ∃ k, OnDevice s k w.value.flatten w.node ∧ K = k ++ w.key := by
  obtain hplace | ⟨hnone, -⟩ := h.place
  · exact hplace
  · have hsome := h.stored.closed c hchild.mem w.node hchild.parent (by rw [hu]; rfl)
    rw [hnone] at hsome
    cases hsome

/-- The key goes on below the child. -/
theorem Walking.descend (hicache : Bool) (hsound : d.Sound) {c : NodeId} (hne : w.key ≠ [])
    (hc : (s.nodes w.node).children.lookup (s.childKey w.key) = some c)
    (hall : (s.nodes c).key.length ≤ s.keyMatch (s.nodes c).key w.key) :
    Walking s K { (w.visit c (s.nodes c)).updateBest hicache (s.nodes c) with
      key := w.key.drop (s.keyMatch (s.nodes c).key w.key) } := by
  obtain ⟨hchild, -⟩ := h.child hne hc
  have hlen : s.keyMatch (s.nodes c).key w.key = (s.nodes c).key.length :=
    Nat.le_antisymm keyMatch_le_left hall
  have hkey : (s.nodes c).key = w.key.take (s.keyMatch (s.nodes c).key w.key) := by
    rw [← take_keyMatch, hlen, take_length]
  have hx : s.pageSize ∣ (w.key.drop (s.keyMatch (s.nodes c).key w.key)).length := by
    rw [length_drop]
    exact Nat.dvd_sub h.dvd dvd_keyMatch
  cases hu : s.deviceValue c with
  | none =>
    have hevicted : (s.nodes c).evicted = true := (evicted_iff hchild.parent).mpr hu
    refine h.step_host hicache hsound (.inl rfl) hchild.mem hevicted hx (h.exhausted fun _ c' hc' => ?_)
    cases hc.symm.trans hc'
    exact hu
  | some u =>
    obtain ⟨k, hk, rfl⟩ := h.place_of_value hchild hu
    refine h.step_device hicache (.inl rfl) (hk.snoc ⟨h.mem, hchild.lookup, hu⟩) ?_ hu hx
    rw [append_assoc]
    exact congrArg (k ++ ·) ((congrArg (· ++ w.key.drop _) hkey).trans (take_append_drop _ w.key)).symm

/-- The key leaves the tree inside the child. -/
theorem Walking.split (hicache : Bool) (hsound : d.Sound) {c : NodeId}
    (hne : w.key ≠ []) (hc : (s.nodes w.node).children.lookup (s.childKey w.key) = some c)
    (hlt : s.keyMatch (s.nodes c).key w.key < (s.nodes c).key.length) :
    ∃ t, s.splitNode c (s.keyMatch (s.nodes c).key w.key) = some t ∧ Split s t ∧
      let w' := (w.visit s.counter (t.nodes s.counter)).updateBest hicache (t.nodes s.counter)
      Best t K w'.value w'.bestMatchDeviceValueLen w'.bestMatchDeviceNode ∧
        (d.Complete → w'.bestMatchDeviceValueLen = w'.value.length) ∧ Exhausted t K w'.value := by
  obtain ⟨hchild, hpos⟩ := h.child hne hc
  have hcut : Cut s w.node c (s.keyMatch (s.nodes c).key w.key) :=
    ⟨h.radix, h.stored, h.mem, hchild, dvd_keyMatch, hpos, hlt⟩
  obtain ⟨t, ht, hsame⟩ := hcut.splitNode
  have hsplit : Split s t := .inr ⟨_, _, _, hcut, ht⟩
  have hx : s.pageSize ∣ (w.key.drop (s.keyMatch (s.nodes c).key w.key)).length := by
    rw [length_drop]
    exact Nat.dvd_sub h.dvd dvd_keyMatch
  refine ⟨t, ht, hsplit, ?_⟩
  cases hu : s.deviceValue c with
  | none =>
    have hexhausted : Exhausted s K w.value := h.exhausted fun _ c' hc' => by
      cases hc.symm.trans hc'
      exact hu
    have hmem : s.counter ∈ t.nodeArena := hsame.shape.nodeArena ▸ Finset.mem_insert_self _ _
    have hevicted : (t.nodes s.counter).evicted = true := by
      refine (evicted_iff (p := w.node) ?_).mpr ?_
      · rw [hsame.shape.parent, hcut.nodes_counter]
        exact hchild.parent
      · rw [hsame.value, hcut.deviceValue, if_pos rfl, hu]
        rfl
    have hnext := h.step_host hicache hsound hsplit hmem hevicted hx (hexhausted.split hsplit)
    have hval : ((w.visit s.counter (t.nodes s.counter)).updateBest hicache (t.nodes s.counter)).value =
        w.value := (updateBest_device hicache _ _).2.2.1.trans (if_pos hevicted)
    exact ⟨hnext.best, hnext.exact, hval ▸ hexhausted.split hsplit⟩
  | some u =>
    obtain ⟨k, hk, rfl⟩ := h.place_of_value hchild hu
    have hplace := hsame.onDevice.mpr (hcut.onDevice_counter hk hu)
    have hK : k ++ w.key = k ++ (s.nodes c).key.take (s.keyMatch (s.nodes c).key w.key) ++
        w.key.drop (s.keyMatch (s.nodes c).key w.key) := by
      rw [take_keyMatch, append_assoc, take_append_drop]
    have hvalue := (hsame.value s.counter).trans (hcut.value_counter hu)
    have hnext := h.step_device hicache hsplit hplace hK hvalue hx
    refine ⟨hnext.best, hnext.exact, ?_⟩
    obtain ⟨k', hk', hK'⟩ | ⟨-, hend⟩ := hnext.place
    · refine ⟨k', _, hk', hK' ▸ prefix_append _ _, ?_⟩
      have hhit := hk.hit_of_partial h.radix h.stored hc hu hlt
      have hlen := congrArg List.length hK'
      have hle : s.keyMatch (s.nodes c).key w.key ≤ w.key.length := keyMatch_le_right
      rw [hsplit.deviceMap, hhit]
      simp only [length_append, length_drop] at hlen
      omega
    · exact hend

end

/-- **The loop of `match_prefix`** comes to an end with all that the device has of the key. -/
theorem matchLoop_spec (hicache : Bool) (hsound : d.Sound) : ∀ (fuel : Nat) {s : UnifiedTreeCore} {w : MatchWalk v d},
    Walking s K w → w.key.length < fuel → ∃ t w', s.matchLoop hicache fuel w = some (t, w') ∧
      Split s t ∧ Best t K w'.value w'.bestMatchDeviceValueLen w'.bestMatchDeviceNode ∧
      (d.Complete → w'.bestMatchDeviceValueLen = w'.value.length) ∧ Exhausted t K w'.value := by
  intro fuel
  induction fuel with
  | zero => exact fun _ hlt => absurd hlt (Nat.not_lt_zero _)
  | succ fuel ih =>
    intro s w h hlt
    rw [matchLoop]
    split
    · next hkey =>
      exact ⟨s, w, rfl, .inl rfl, h.best, h.exact, h.exhausted fun hne => absurd hkey hne⟩
    · next hne =>
      cases hc : (s.nodes w.node).children.lookup (s.childKey w.key) with
      | none =>
        refine ⟨s, w, rfl, .inl rfl, h.best, h.exact, h.exhausted fun _ c hc' => ?_⟩
        rw [hc] at hc'
        cases hc'
      | some c =>
        obtain ⟨hchild, hpos⟩ := h.child hne hc
        dsimp only
        split
        · next hdead =>
          refine ⟨s, w, rfl, .inl rfl, h.best, h.exact, h.exhausted fun _ c' hc' => ?_⟩
          cases hc.symm.trans hc'
          exact (evicted_iff hchild.parent).mp hdead.1
        · split
          · next hpartial =>
            obtain ⟨t, ht, hsplit, hbest, hexact, hexhausted⟩ :=
              (h.note (w.fullKvHitLength + s.keyMatch (s.nodes c).key w.key)
                (s.splitAction c)).split hicache hsound hne hc hpartial
            exact ⟨t, _, by rw [ht]; rfl, hsplit, hbest, hexact, hexhausted⟩
          · next hall =>
            have hpos' := List.length_pos_iff.mpr hne
            have hlt' : (w.key.drop (s.keyMatch (s.nodes c).key w.key)).length < fuel := by
              rw [length_drop]
              omega
            have hnext := ((h.note (w.fullKvHitLength + s.keyMatch (s.nodes c).key w.key)
              w.action).descend hicache hsound hne hc (Nat.le_of_not_lt hall))
            exact ih hnext hlt'

end

/-! ### The result -/

section
variable {s : UnifiedTreeCore} {k key : Key} {v d : Validators}

/-- The pages of a key are all that can be hit. -/
theorem hit_pageAligned (h : Radix s) (hs : Stored s) (key : Key) :
    hit s.deviceMap (s.pageAligned key) = hit s.deviceMap key ∧
      held s.deviceMap (s.pageAligned key) = held s.deviceMap key := by
  have hm := paged_deviceMap h hs
  have hle : hit s.deviceMap key ≤ key.length / s.pageSize * s.pageSize := by
    obtain ⟨q, hq⟩ := hm.dvd_hit key
    have hkey := hit_le s.deviceMap key
    rw [hq] at hkey ⊢
    rw [Nat.mul_comm]
    refine Nat.mul_le_mul_right _ ((Nat.le_div_iff_mul_le h.pageSize_pos).mpr ?_)
    rwa [Nat.mul_comm]
  rw [pageAligned_eq]
  exact ⟨hm.hit_take hle, hm.held_take hle⟩

/-- **`match_prefix` returns what is on the device** under a beginning of the key, with the node it ends
at; all there is, when the validators accept it. -/
theorem matchPrefix_spec (h : Radix s) (hs : Stored s) (hicache : Bool) (v d : Validators)
    (hsound : d.Sound) (key : Key) : ∃ t r, s.matchPrefix hicache v d key = some (t, r) ∧ Split s t ∧
      (∃ k, OnDevice t k r.deviceIndices r.lastDeviceNode ∧ k <+: key) ∧
      (d.Complete → r.deviceIndices = held s.deviceMap key) := by
  obtain ⟨hhit, hheld⟩ := hit_pageAligned h hs key
  rw [matchPrefix]
  split
  · next hnil =>
    refine ⟨s, _, rfl, .inl rfl, ⟨[], .refl _, nil_prefix⟩, fun _ => ?_⟩
    have hlen := (paged_deviceMap h hs).length_held key
    rw [← hhit, hnil] at hlen
    exact (eq_nil_of_length_eq_zero (hlen.trans (Nat.le_zero.mp (hit_le _ [])))).symm
  · let w : MatchWalk v d :=
      { node := s.rootNode, key := s.pageAligned key, value := [], bestMatchNode := s.rootNode
        bestMatchDeviceNode := s.rootNode, bestMatchDeviceValueLen := 0, fullKvHitLength := 0
        action := none, validators := v.init, deviceValidators := d.init }
    have hstart : Walking s (s.pageAligned key) w :=
      ⟨h, hs, h.wellFormed.root_mem, dvd_length_pageAligned (k := key), .inl ⟨[], .refl _, rfl⟩,
        ⟨Nat.le_refl _, [], .refl _, nil_prefix⟩, fun _ => rfl⟩
    obtain ⟨t, w', hrun, hsplit, ⟨-, k, hk, hkK⟩, hexact, k', i, hk', hkK', hlast⟩ :=
      matchLoop_spec hicache hsound ((s.pageAligned key).length + 1) hstart (Nat.lt_succ_self _)
    rw [hrun]
    refine ⟨t, _, rfl, hsplit, ⟨k, hk, hkK.trans pageAligned_prefix⟩, fun hd => ?_⟩
    rw [hexact hd, take_length, ← hheld]
    have hradix := hsplit.radix h
    have hstored := hsplit.stored hs
    have hvalue := (deviceMap_eq_some_iff hradix hstored).mpr (hk'.holds hradix hstored)
    rw [List.prefix_iff_eq_take.mp hkK', ← hlast, (paged_deviceMap hradix hstored).held_eq] at hvalue
    rw [← hsplit.deviceMap]
    exact (Option.some.inj hvalue).symm

/-- **A lookup returns the longest beginning** of a key that is on the device, with its slots, and leaves
what the tree holds as it is. -/
theorem match_longest (h : Radix s) (hs : Stored s) (hicache : Bool) (v d : Validators) (hsound : d.Sound)
    (hcomplete : d.Complete) (key : Key) : ∃ t r k, s.matchPrefix hicache v d key = some (t, r) ∧
      t.deviceMap = s.deviceMap ∧ k <+: key ∧ s.deviceMap k = some r.deviceIndices ∧
      OnDevice t k r.deviceIndices r.lastDeviceNode ∧
      ∀ k', k' <+: key → (s.deviceMap k').isSome = true → k' <+: k := by
  obtain ⟨t, r, hrun, hsplit, ⟨k, hk, hkey⟩, hexact⟩ := matchPrefix_spec h hs hicache v d hsound key
  have ht := hsplit.radix h
  have hts := hsplit.stored hs
  have hheld := hexact hcomplete
  have hpaged := paged_deviceMap h hs
  have hlen : k.length = hit s.deviceMap key := by
    rw [← hk.length ht hts, hheld, hpaged.length_held]
  refine ⟨t, r, k, hrun, hsplit.deviceMap, hkey, ?_, hk, fun k' hk' hsome => ?_⟩
  · rw [← hsplit.deviceMap]
    exact (deviceMap_eq_some_iff ht hts).mpr (hk.holds ht hts)
  · obtain ⟨v', hv'⟩ := Option.isSome_iff_exists.mp hsome
    exact prefix_of_prefix_length_le hk' hkey (hlen ▸ (hpaged.eq_take_held hk' hv').1)

/-- The validator of `FULL`. -/
def fullValidator : Validators where
  State := Unit
  init := ()
  accept := fun _ n => ((), (n.componentData .full).value.isSome)

theorem match_longest_in_leaf : ∃ t r k, oneLeaf.matchPrefix false fullValidator fullValidator [5, 9] =
    some (t, r) ∧ t.deviceMap = oneLeaf.deviceMap ∧ k <+: [5, 9] ∧
      oneLeaf.deviceMap k = some r.deviceIndices ∧ OnDevice t k r.deviceIndices r.lastDeviceNode ∧
      ∀ k', k' <+: [5, 9] → (oneLeaf.deviceMap k').isSome = true → k' <+: k :=
  match_longest oneLeaf_spec.1 oneLeaf_spec.2 false fullValidator fullValidator (fun _ _ h => h)
    (fun _ _ h => h) [5, 9]

end

end QwenStack.TreeCore
