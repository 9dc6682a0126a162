import QwenStack.TreeCore.Insertion

/-!
# Tree core — an insertion fills the map

What the walk has gone through is on the device with the slots of the fill (`Inserting`): those that were
there, and from the hit on the new ones.  The new slots before the hit are duplicates, and are freed from
`prev_prefix_len` on; those behind it are adopted.  So when an insertion ends, whatever the cache did at
its barriers, the map is the overlay, and each of the new slots has one place (`insert_spec`).
-/

namespace QwenStack.TreeCore
open Assoc UnifiedTreeCore Prefixes List

/-- Nothing on the device changes. -/
structure Quiet (s t : UnifiedTreeCore) : Prop where
  radix : Radix t
  stored : Stored t
  pageSize : t.pageSize = s.pageSize
  rootNode : t.rootNode = s.rootNode
  onDevice : ∀ k v i, OnDevice t k v i ↔ OnDevice s k v i

theorem Quiet.refl {s : UnifiedTreeCore} (h : Radix s) (hs : Stored s) : Quiet s s :=
  ⟨h, hs, rfl, rfl, fun _ _ _ => Iff.rfl⟩

/-- The positions of ranges. -/
def positions (ranges : List (Nat × Nat)) : List Nat :=
  ranges.flatMap fun r => List.range' r.1 (r.2 - r.1)

theorem Quiet.deviceMap {s t : UnifiedTreeCore} (h : Quiet s t) : t.deviceMap = s.deviceMap :=
  deviceMap_congr h.pageSize h.onDevice

/-- A tree that grows: nodes are split, come back and are made, and at the barriers the cache does what it
does.  With the slots that are new. -/
inductive Grown (B : UnifiedTreeCore → UnifiedTreeCore → Prop) (s : UnifiedTreeCore) :
    Tensor → UnifiedTreeCore → Prop
  | refl : Grown B s [] s
  | split {v : Tensor} {t u : UnifiedTreeCore} : Grown B s v t → Split t u → Grown B s v u
  | unevict {v w : Tensor} {t u : UnifiedTreeCore} {i : NodeId} : Grown B s v t → Radix t → Stored t →
      t.unevictNodeOnInsert i w = some u → Keeps t u → Grown B s (v ++ w) u
  | leaf {v w : Tensor} {t u : UnifiedTreeCore} {p : NodeId} {k : Key} : Grown B s v t → Radix t →
      Stored t → t.addNewNode p k w = some u → Keeps t u → Grown B s (v ++ w) u
  | barrier {v : Tensor} {t u : UnifiedTreeCore} : Grown B s v t → Radix t → Stored t → B t u →
      Grown B s v u

theorem freedSlots_append (l l' : List CacheAction) :
    freedSlots (l ++ l') = freedSlots l ++ freedSlots l' := flatMap_append

theorem positions_append (l l' : List (Nat × Nat)) :
    positions (l ++ l') = positions l ++ positions l' := flatMap_append

section
variable {B : UnifiedTreeCore → UnifiedTreeCore → Prop} {s₀ : UnifiedTreeCore} {m : PrefixMap Nat Nat}
  {K : Key} {V : Tensor} {prev : Nat} {applied : List CacheAction} {s t : UnifiedTreeCore}
  {st : InsertWalkState}

/-- The walk of an insertion, on its way. -/
structure Inserting (B : UnifiedTreeCore → UnifiedTreeCore → Prop) (s₀ : UnifiedTreeCore)
    (m : PrefixMap Nat Nat) (K : Key) (V : Tensor) (prev : Nat) (applied : List CacheAction)
    (s : UnifiedTreeCore) (st : InsertWalkState) : Prop where
  grown : Grown B s₀ ((V.take st.totalPrefixLength).drop (hit m K)) s
  paged : Paged s.pageSize m
  dvd_key : s.pageSize ∣ K.length
  length : V.length = K.length
  radix : Radix s
  stored : Stored s
  dvd : s.pageSize ∣ st.totalPrefixLength
  le : st.totalPrefixLength ≤ K.length
  key : st.key = K.drop st.totalPrefixLength
  value : st.value = V.drop st.totalPrefixLength
  params : st.params.prevPrefixLen = prev
  place : OnDevice s (K.take st.totalPrefixLength) ((fill m K V).take st.totalPrefixLength) st.node
  map : ∀ x w, s.deviceMap x = some w ↔ m x = some w ∨
    x <+: K.take st.totalPrefixLength ∧ s.pageSize ∣ x.length ∧ w = (fill m K V).take x.length
  freed : freedSlots (applied ++ st.pendingActions) =
    (V.take (min st.totalPrefixLength (hit m K))).drop prev
  adopted : ∀ ranges, st.result.adoptedRanges = some ranges →
    positions ranges = List.range' (hit m K) (st.totalPrefixLength - hit m K)

namespace Inserting

section
variable (h : Inserting B s₀ m K V prev applied s st)
include h

theorem length_take : (K.take st.totalPrefixLength).length = st.totalPrefixLength := by
  rw [List.length_take, Nat.min_eq_left h.le]

/-- The key is what is done and what is left. -/
theorem take_append_key : K.take st.totalPrefixLength ++ st.key = K := by
  rw [h.key, take_append_drop]

theorem length_value : st.value.length = st.key.length := by
  rw [h.value, h.key, length_drop, length_drop, h.length]

theorem total_add : st.totalPrefixLength + st.key.length = K.length := by
  rw [h.key, length_drop, Nat.add_sub_cancel' h.le]

theorem take_fill_all : (fill m K V).take K.length = fill m K V := by
  rw [← h.paged.length_fill h.length, take_length]

/-- Nothing on the device is under the next page: the walk is behind the hit. -/
theorem hit_le (habsent : st.key ≠ [] → ∀ c,
    (s.nodes st.node).children.lookup (s.childKey st.key) = some c → s.deviceValue c = none) :
    hit m K ≤ st.totalPrefixLength := by
  have hhit := h.place.hit_of_absent h.radix h.stored habsent
  rw [h.take_append_key, h.length_take] at hhit
  rw [← hhit]
  exact le_hit ((h.map _ _).mpr (.inl (h.paged.held_eq K))) (Prefixes.hit_le m K)

/-- What is on the device ahead of the walk was there before. -/
theorem le_hit_of_onDevice {n : Nat} {w : Tensor}
    (hlt : st.totalPrefixLength < n) (hn : n ≤ K.length) (hw : s.deviceMap (K.take n) = some w) :
    n ≤ hit m K ∧ w = (fill m K V).take n := by
  have hlen : (K.take n).length = n := by rw [List.length_take, Nat.min_eq_left hn]
  obtain hm | ⟨hx, -, -⟩ := (h.map _ _).mp hw
  · obtain ⟨hle, rfl⟩ := h.paged.eq_take_held (List.take_prefix n K) hm
    rw [hlen] at hle ⊢
    exact ⟨hle, (h.paged.take_fill hle).symm⟩
  · have hle := hx.length_le
    rw [hlen, h.length_take] at hle
    exact absurd hle (Nat.not_le_of_lt hlt)

/-- Behind the hit, the fill is the new slots. -/
theorem take_fill_add (hle : hit m K ≤ st.totalPrefixLength)
    (n : Nat) : (fill m K V).take (st.totalPrefixLength + n) =
      (fill m K V).take st.totalPrefixLength ++ st.value.take n := by
  rw [take_add, h.value]
  congr 2
  rw [fill, drop_append, h.paged.length_held, drop_drop, Nat.add_sub_cancel' hle,
    drop_eq_nil_of_le (by rw [h.paged.length_held]; exact hle), nil_append]

end

/-- What a walk comes to. -/
structure Reached (s t : UnifiedTreeCore) (p c j : NodeId) (k : Key) : Prop where
  split : Split s t
  key : (t.nodes j).key = k
  parent : (t.nodes j).parent = some p
  lookup : (t.nodes p).children.lookup (t.childKey k) = some j
  value : t.deviceValue j = (s.deviceValue c).map (List.take k.length)

variable (h : Inserting B s₀ m K V prev applied s st)
include h

theorem walkTo_spec (hne : st.key ≠ []) {c : NodeId}
    (hc : (s.nodes st.node).children.lookup (s.childKey st.key) = some c) :
    0 < s.keyMatch (s.nodes c).key st.key ∧ ∃ t j actions,
      s.walkTo c (s.keyMatch (s.nodes c).key st.key) = some (t, j, actions) ∧
        freedSlots actions = [] ∧
        Reached s t st.node c j (st.key.take (s.keyMatch (s.nodes c).key st.key)) := by
  have hmem := h.place.mem h.radix
  obtain ⟨hchild, hpage⟩ := h.radix.child hmem hc
  have hkeydvd : s.pageSize ∣ st.key.length := by
    rw [h.key, length_drop]
    exact Nat.dvd_sub h.dvd_key h.dvd
  have hle := Nat.le_of_dvd (List.length_pos_iff.mpr hne) hkeydvd
  have hpos : 0 < s.keyMatch (s.nodes c).key st.key :=
    h.radix.pageSize_pos.trans_le (le_keyMatch h.radix.pageSize_pos (Nat.dvd_refl _)
      hchild.pageSize_le hle (childKey_eq_iff.mp hpage.symm))
  have hlen : (st.key.take (s.keyMatch (s.nodes c).key st.key)).length =
      s.keyMatch (s.nodes c).key st.key := by
    rw [List.length_take, Nat.min_eq_left keyMatch_le_right]
  refine ⟨hpos, ?_⟩
  rw [walkTo]
  split
  · next hlt =>
    have hcut : Cut s st.node c (s.keyMatch (s.nodes c).key st.key) :=
      ⟨h.radix, h.stored, hmem, hchild, dvd_keyMatch, hpos, hlt⟩
    obtain ⟨t, ht, hsame⟩ := hcut.splitNode
    have hkey : (t.nodes s.counter).key = st.key.take (s.keyMatch (s.nodes c).key st.key) := by
      rw [hsame.shape.key, hcut.nodes_counter, ← take_keyMatch]
      rfl
    refine ⟨t, s.counter, (s.splitAction c).toList, by rw [ht]; rfl, ?_, .inr ⟨_, _, _, hcut, ht⟩, hkey,
      ?_, ?_, ?_⟩
    · rw [splitAction]
      cases (s.nodes c).writeThroughPendingId <;> rfl
    · rw [hsame.shape.parent, hcut.nodes_counter]
      exact hchild.parent
    · rw [← hkey, hsame.shape.children, hsame.shape.key, childKey_congr hsame.shape.pageSize]
      exact hcut.lookup_counter
    · rw [hsame.value, hcut.deviceValue, if_pos rfl, hlen]
  · next hge =>
    have hall : s.keyMatch (s.nodes c).key st.key = (s.nodes c).key.length :=
      Nat.le_antisymm keyMatch_le_left (Nat.le_of_not_lt hge)
    have hkey : (s.nodes c).key = st.key.take (s.keyMatch (s.nodes c).key st.key) := by
      rw [← take_keyMatch, hall, take_length]
    refine ⟨s, c, [], rfl, rfl, .inl rfl, hkey, hchild.parent, hkey ▸ hchild.lookup, ?_⟩
    rw [hlen, hall]
    cases hv : s.deviceValue c with
    | none => rfl
    | some v => rw [Option.map_some, ← h.stored.length c hchild.mem v hv, take_length]

/-- The walk moves on by whole pages. -/
theorem lengths {n : Nat} (hn : n ≤ st.key.length)
    (hdvd : s.pageSize ∣ n) : s.pageSize ∣ st.totalPrefixLength + n ∧ st.totalPrefixLength + n ≤ K.length ∧
      st.key.drop n = K.drop (st.totalPrefixLength + n) ∧
      st.value.drop n = V.drop (st.totalPrefixLength + n) ∧
      K.take (st.totalPrefixLength + n) = K.take st.totalPrefixLength ++ st.key.take n := by
  have hle := h.le
  rw [h.key, length_drop] at hn
  refine ⟨Nat.dvd_add h.dvd hdvd, by omega, ?_, ?_, ?_⟩
  · rw [h.key, drop_drop]
  · rw [h.value, drop_drop]
  · rw [take_add, h.key]

/-- The duplicates of a node on the device. -/
theorem freed_device {n : Nat} (hle : st.totalPrefixLength + n ≤ hit m K) :
    (V.take (min (st.totalPrefixLength + n) (hit m K))).drop prev =
      freedSlots (applied ++ st.pendingActions) ++
        (st.value.take n).drop (prev - st.totalPrefixLength) := by
  have hlen : (V.take st.totalPrefixLength).length = st.totalPrefixLength := by
    rw [List.length_take, h.length, Nat.min_eq_left h.le]
  rw [h.freed, Nat.min_eq_left hle, Nat.min_eq_left (by omega), take_add, drop_append, hlen, h.value]

/-- A step onto a node that is on the device. -/
theorem step_device {c j : NodeId} {u : Tensor} {n : Nat}
    (hn : n ≤ st.key.length) (hpos : 0 < n) (hdvd : s.pageSize ∣ n)
    (hreached : Reached s t st.node c j (st.key.take n)) (hu : s.deviceValue c = some u)
    {actions : List CacheAction} (hactions : freedSlots actions =
      (st.value.take n).drop (prev - st.totalPrefixLength)) :
    Inserting B s₀ m K V prev applied t { st with
      node := j, totalPrefixLength := st.totalPrefixLength + n, key := st.key.drop n
      value := st.value.drop n, pendingActions := st.pendingActions ++ actions } := by
  obtain ⟨hdvd', hle', hkey, hvalue, htake⟩ := h.lengths hn hdvd
  have hradix := hreached.split.radix h.radix
  have hstored := hreached.split.stored h.stored
  have hplace := hreached.split.onDevice h.place
  have hsnoc := hplace.snoc ⟨hplace.mem hradix, hreached.key.symm ▸ hreached.lookup,
    by rw [hreached.value, hu]; rfl⟩
  rw [hreached.key, ← htake] at hsnoc
  have hheld := (deviceMap_eq_some_iff hradix hstored).mpr (OnDevice.holds hradix hstored hsnoc)
  rw [hreached.split.deviceMap] at hheld
  obtain ⟨hhit, hfill⟩ := h.le_hit_of_onDevice (by omega) hle' hheld
  have hnone {a : Nat} (ha : a ≤ hit m K) : (V.take a).drop (hit m K) = [] :=
    drop_eq_nil_of_le ((length_take_le a V).trans ha)
  have hgrown := h.grown.split hreached.split
  rw [hnone (by omega), ← hnone hhit] at hgrown
  refine ⟨hgrown, hreached.split.pageSize ▸ h.paged, hreached.split.pageSize ▸ h.dvd_key, h.length, hradix,
    hstored, hreached.split.pageSize ▸ hdvd', hle', hkey, hvalue, h.params, ?_, fun x w => ?_, ?_, ?_⟩
  · change OnDevice t (K.take (st.totalPrefixLength + n))
      ((fill m K V).take (st.totalPrefixLength + n)) j
    rw [← hfill]
    exact hsnoc
  · rw [hreached.split.deviceMap, h.map, hreached.split.pageSize]
    constructor
    · rintro (hm | ⟨hx, hp, rfl⟩)
      · exact .inl hm
      · exact .inr ⟨hx.trans (htake ▸ prefix_append _ _), hp, rfl⟩
    · rintro (hm | ⟨hx, hp, rfl⟩)
      · exact .inl hm
      · have hxle := hx.length_le
        rw [List.length_take, Nat.min_eq_left hle'] at hxle
        refine .inl ?_
        rw [h.paged.take_fill (hxle.trans hhit)]
        exact (h.paged.eq_some_iff (hx.trans (List.take_prefix _ K)) hp).mpr (hxle.trans hhit)
  · change freedSlots (applied ++ (st.pendingActions ++ actions)) = _
    rw [← append_assoc, freedSlots_append, hactions]
    exact (h.freed_device hhit).symm
  · intro ranges hranges
    have hold := h.adopted ranges hranges
    rw [Nat.sub_eq_zero_of_le (by omega)] at hold
    change _ = List.range' (hit m K) (st.totalPrefixLength + n - hit m K)
    rw [hold, Nat.sub_eq_zero_of_le hhit]

/-- The map with more of the key. -/
theorem map_gains (hmap : t.deviceMap = s.deviceMap)
    (hpage : t.pageSize = s.pageSize) {u : UnifiedTreeCore} {n : Nat}
    (hle : hit m K ≤ st.totalPrefixLength)
    (hgains : Gains t u (K.take (st.totalPrefixLength + n))
      ((fill m K V).take st.totalPrefixLength ++ st.value.take n)) (x : Key) (w : Tensor) :
    u.deviceMap x = some w ↔ m x = some w ∨
      x <+: K.take (st.totalPrefixLength + n) ∧ s.pageSize ∣ x.length ∧ w = (fill m K V).take x.length := by
  have hfill {x : Key} (hx : x <+: K.take (st.totalPrefixLength + n)) :
      ((fill m K V).take st.totalPrefixLength ++ st.value.take n).take x.length =
        (fill m K V).take x.length := by
    have hxle := hx.length_le
    rw [List.length_take] at hxle
    rw [← h.take_fill_add hle, take_take, Nat.min_eq_left (by omega)]
  rw [hgains, hmap, h.map, hpage]
  constructor
  · rintro ((hm | ⟨hx, hp, rfl⟩) | ⟨hx, hp, rfl⟩)
    · exact .inl hm
    · refine .inr ⟨hx.trans ?_, hp, rfl⟩
      rw [take_add]
      exact prefix_append _ _
    · exact .inr ⟨hx, hp, hfill hx⟩
  · rintro (hm | ⟨hx, hp, rfl⟩)
    · exact .inl (.inl hm)
    · exact .inr ⟨hx, hp, (hfill hx).symm⟩

/-- Behind the hit, all of the slots are new. -/
theorem drop_take_add
    (hle : hit m K ≤ st.totalPrefixLength) (n : Nat) : (V.take (st.totalPrefixLength + n)).drop (hit m K) =
      (V.take st.totalPrefixLength).drop (hit m K) ++ st.value.take n := by
  rw [List.take_add, List.drop_append, List.length_take, h.length, Nat.min_eq_left h.le,
    Nat.sub_eq_zero_of_le hle, drop_zero, h.value]

/-- A step onto a node that was evicted. -/
theorem step_evicted {c j : NodeId} {n : Nat} (hn : n ≤ st.key.length) (hdvd : s.pageSize ∣ n)
    (hc : (s.nodes st.node).children.lookup (s.childKey st.key) = some c)
    (hreached : Reached s t st.node c j (st.key.take n)) (hu : s.deviceValue c = none) :
    ∃ u, t.unevictNodeOnInsert j (st.value.take n) = some u ∧ ∀ actions, freedSlots actions = [] →
      Inserting B s₀ m K V prev applied u { st with
        node := j, totalPrefixLength := st.totalPrefixLength + n, key := st.key.drop n
        value := st.value.drop n, pendingActions := st.pendingActions ++ actions
        result := st.result.recordAdoptedRange st.totalPrefixLength (st.totalPrefixLength + n) } := by
  obtain ⟨hdvd', hle', hkey, hvalue, htake⟩ := h.lengths hn hdvd
  have hhit : hit m K ≤ st.totalPrefixLength := h.hit_le fun _ c' hc' => by
    cases hc.symm.trans hc'
    exact hu
  have hradix := hreached.split.radix h.radix
  have hstored := hreached.split.stored h.stored
  have hnone : t.deviceValue j = none := by
    rw [hreached.value, hu]
    rfl
  have hlen : (st.value.take n).length = (t.nodes j).key.length := by
    rw [hreached.key, List.length_take, List.length_take, h.value, h.key, List.length_drop,
      length_drop, h.length]
  obtain ⟨u, hrun, huradix, hustored, hupage, hplace, hgains, hkeeps⟩ := unevictNodeOnInsert hradix hstored
    (hreached.split.onDevice h.place) (hreached.key.symm ▸ hreached.lookup) hnone hlen
  rw [hreached.key, ← htake] at hplace hgains
  have hpage := hupage.trans hreached.split.pageSize
  have hgrown := (h.grown.split hreached.split).unevict hradix hstored hrun hkeeps
  rw [← h.drop_take_add hhit] at hgrown
  refine ⟨u, hrun, fun actions hactions => ⟨hgrown, hpage ▸ h.paged, hpage ▸ h.dvd_key, h.length, huradix,
    hustored, hpage ▸ hdvd', hle', hkey, hvalue, h.params, ?_, ?_, ?_, fun ranges hranges => ?_⟩⟩
  · change OnDevice u (K.take (st.totalPrefixLength + n))
      ((fill m K V).take (st.totalPrefixLength + n)) j
    rw [h.take_fill_add hhit]
    exact hplace
  · rw [hpage]
    exact h.map_gains hreached.split.deviceMap hreached.split.pageSize hhit hgains
  · change freedSlots (applied ++ (st.pendingActions ++ actions)) =
      (V.take (min (st.totalPrefixLength + n) (hit m K))).drop prev
    rw [← append_assoc, freedSlots_append, hactions, append_nil, h.freed,
      Nat.min_eq_right hhit, Nat.min_eq_right (hhit.trans (Nat.le_add_right _ n))]
  · obtain ⟨old, hold, rfl⟩ := Option.map_eq_some_iff.mp hranges
    change _ = List.range' (hit m K) (st.totalPrefixLength + n - hit m K)
    rw [positions_append, h.adopted old hold, positions, flatMap_singleton,
      Nat.add_sub_cancel_left, Nat.sub_add_comm hhit, ← List.range'_append_1, Nat.add_sub_cancel' hhit]

/-- **A step of the walk** goes on, or finds that there is no more to walk. -/
theorem insertWalkStep_spec (hooks : InsertHooks) :
    ∃ t st', insertWalkStep hooks s st = some (t, st') ∧ Inserting B s₀ m K V prev applied t st' ∧
      (st'.phase = st.phase ∧ st.totalPrefixLength < st'.totalPrefixLength ∨
        t = s ∧ st' = { st with phase := .commit } ∧ s.nextChild st = none) := by
  rw [insertWalkStep]
  cases hc : s.nextChild st with
  | none =>
    exact ⟨s, _, rfl, { h with }, .inr ⟨rfl, rfl, rfl⟩⟩
  | some c =>
    rw [nextChild] at hc
    split at hc
    · cases hc
    · next hne =>
      obtain ⟨hpos, t, j, splitActions, hrun, hsplit, hreached⟩ := h.walkTo_spec hne hc
      have hn : s.keyMatch (s.nodes c).key st.key ≤ st.key.length := keyMatch_le_right
      dsimp only
      rw [hrun]
      dsimp only [Option.bind_eq_bind, Option.bind_some]
      have hbackup (u : UnifiedTreeCore) : freedSlots (if incHitCountAndCheck hooks u j
          st.params.chunked = true then [u.buildBackupKvAction j] else []) = [] := by
        split <;> rfl
      have hlt := Nat.lt_add_of_pos_right (n := st.totalPrefixLength) hpos
      cases hu : s.deviceValue c with
      | none =>
        have hevicted : (t.nodes j).evicted = true :=
          (evicted_iff hreached.parent).mpr (by rw [hreached.value, hu]; rfl)
        obtain ⟨u, hunevict, hnext⟩ := h.step_evicted hn dvd_keyMatch hc hreached hu
        rw [if_pos hevicted, hunevict]
        refine ⟨u, _, rfl, hnext _ ?_, .inl ⟨rfl, hlt⟩⟩
        rw [freedSlots_append, freedSlots_append, hsplit, hbackup]
        rfl
      | some v =>
        have hevicted : ¬ (t.nodes j).evicted = true := fun he => by
          rw [evicted_iff hreached.parent, hreached.value, hu] at he
          cases he
        rw [if_neg hevicted]
        refine ⟨t, _, rfl, h.step_device hn hpos dvd_keyMatch hreached hu ?_, .inl ⟨rfl, hlt⟩⟩
        rw [freedSlots_append, freedSlots_append, hsplit, hbackup, append_nil, nil_append, h.params]
        split
        · simp [freedSlots]
        · next hdup =>
          rw [drop_eq_nil_of_le]
          · rfl
          · exact (length_take_le _ _).trans (Nat.le_of_not_lt hdup)

end Inserting

/-- An insertion that has ended: the map is filled, and the actions free the duplicates. -/
structure Finished (B : UnifiedTreeCore → UnifiedTreeCore → Prop) (s₀ : UnifiedTreeCore)
    (m : PrefixMap Nat Nat) (K : Key) (V : Tensor) (prev : Nat) (t : UnifiedTreeCore)
    (r : InsertResult) (actions : List CacheAction) : Prop where
  grown : Grown B s₀ (V.drop (hit m K)) t
  radix : Radix t
  stored : Stored t
  place : OnDevice t K (fill m K V) r.lastDeviceNode
  map : t.deviceMap = overlay t.pageSize m K V
  freed : freedSlots actions = (V.take (hit m K)).drop prev
  adopted : ∀ ranges, r.adoptedRanges = some ranges →
    positions ranges = List.range' (hit m K) (K.length - hit m K)
  hit_le : hit m K ≤ r.prefixLen
  le : r.prefixLen ≤ K.length

namespace Inserting

variable (h : Inserting B s₀ m K V prev applied s st)
include h

theorem map_overlay {u : UnifiedTreeCore}
    (hpage : u.pageSize = s.pageSize) (hmap : ∀ x w, u.deviceMap x = some w ↔ m x = some w ∨
      x <+: K ∧ s.pageSize ∣ x.length ∧ w = (fill m K V).take x.length) :
    u.deviceMap = overlay u.pageSize m K V := by
  funext x
  refine Option.ext fun w => ?_
  rw [hpage, hmap, h.paged.overlay_eq_some_iff]

/-- **The commit** makes a leaf of what is left. -/
theorem insertCommitStep_spec (hnext : s.nextChild st = none) :
    ∃ t st', insertCommitStep s st = some (t, st') ∧ st'.phase = .tail ∧
      st'.pendingActions = st.pendingActions ∧
        Finished B s₀ m K V prev t st'.result (applied ++ st'.pendingActions) := by
  have habsent : st.key ≠ [] → (s.nodes st.node).children.lookup (s.childKey st.key) = none := by
    intro hne
    rw [nextChild, if_neg hne] at hnext
    exact hnext
  have hhit : hit m K ≤ st.totalPrefixLength := h.hit_le fun hne c hc => by
    rw [habsent hne] at hc
    cases hc
  have hfreed : (V.take (min st.totalPrefixLength (hit m K))).drop prev = (V.take (hit m K)).drop prev := by
    rw [Nat.min_eq_right hhit]
  have hfill : (fill m K V).take st.totalPrefixLength ++ st.value = fill m K V := by
    have hadd := h.take_fill_add hhit st.key.length
    rwa [h.total_add, h.take_fill_all, ← h.length_value, take_length, eq_comm] at hadd
  rw [insertCommitStep]
  split
  · next hnil =>
    have htotal : st.totalPrefixLength = K.length := by
      rw [← h.total_add, hnil]
      rfl
    have hgrown := h.grown
    rw [htotal, ← h.length, take_length] at hgrown
    refine ⟨s, _, rfl, rfl, rfl, hgrown, h.radix, h.stored, ?_, h.map_overlay rfl fun x w => ?_,
      h.freed.trans hfreed, fun ranges hranges => htotal ▸ h.adopted ranges hranges, hhit, h.le⟩
    · have hplace := h.place
      rw [htotal, take_length, h.take_fill_all] at hplace
      exact hplace
    · rw [h.map, htotal, take_length]
  · next hne =>
    have hkeydvd : s.pageSize ∣ st.key.length := by
      rw [h.key, length_drop]
      exact Nat.dvd_sub h.dvd_key h.dvd
    obtain ⟨t, hrun, hradix, hstored, hpage, hplace, hgains, hkeeps⟩ := Sprout.addNewNode h.radix
      h.stored h.place hne hkeydvd (habsent hne) h.length_value
    rw [h.take_append_key, hfill] at hplace hgains
    rw [hrun]
    have hgrown := h.grown.leaf h.radix h.stored hrun hkeeps
    have hadd := h.drop_take_add hhit st.key.length
    rw [h.total_add, ← h.length, take_length, ← h.length_value, take_length] at hadd
    rw [← hadd] at hgrown
    refine ⟨t, _, rfl, rfl, rfl, hgrown, hradix, hstored, hplace, h.map_overlay hpage fun x w => ?_,
      h.freed.trans hfreed, fun ranges hranges => ?_, hhit, h.le⟩
    · have hmap := h.map_gains rfl rfl (u := t) (n := st.key.length) hhit (by
        rw [h.total_add, take_length, ← h.length_value, take_length, hfill]
        exact hgains) x w
      rwa [h.total_add, take_length] at hmap
    · obtain ⟨old, hold, rfl⟩ := Option.map_eq_some_iff.mp hranges
      rw [positions_append, h.adopted old hold, positions, flatMap_singleton,
        Nat.add_sub_cancel_left, ← h.total_add, Nat.sub_add_comm hhit, ← List.range'_append_1,
        Nat.add_sub_cancel' hhit]

/-- What is pending is handed to the cache. -/
theorem flush :
    Inserting B s₀ m K V prev (applied ++ st.pendingActions) s { st with pendingActions := [] } :=
  { h with
    freed := by
      rw [append_nil]
      exact h.freed }

/-- What the cache does at a barrier is not seen. -/
theorem quiet (hq : Quiet s t) (hB : B s t) : Inserting B s₀ m K V prev applied t st := by
  have hpage := hq.pageSize
  refine { h with
    grown := h.grown.barrier h.radix h.stored hB, paged := hpage ▸ h.paged, dvd_key := hpage ▸ h.dvd_key
    radix := hq.radix, stored := hq.stored, dvd := hpage ▸ h.dvd
    place := (hq.onDevice _ _ _).mpr h.place, map := fun x w => ?_ }
  rw [hq.deviceMap, h.map, hpage]

end Inserting

/-- The last step wants at most one more copy on the host. -/
theorem Finished.tail (h : Finished B s₀ m K V prev s st.result (applied ++ st.pendingActions))
    (hooks : InsertHooks) : Finished B s₀ m K V prev s (insertTailStep hooks s st).result
      (applied ++ (insertTailStep hooks s st).pendingActions) := by
  rw [insertTailStep]
  split
  · refine { h with freed := ?_ }
    change freedSlots (applied ++ (st.pendingActions ++ [s.buildBackupKvAction st.targetNode])) = _
    rw [← append_assoc, freedSlots_append, h.freed]
    exact append_nil _
  · exact h

theorem Finished.quiet {r : InsertResult} {actions : List CacheAction}
    (h : Finished B s₀ m K V prev s r actions) (hq : Quiet s t) (hB : B s t) :
    Finished B s₀ m K V prev t r actions :=
  { h with
    grown := h.grown.barrier h.radix h.stored hB
    radix := hq.radix
    stored := hq.stored
    place := (hq.onDevice _ _ _).mpr h.place
    map := by rw [hq.deviceMap, hq.pageSize, h.map] }

/-- From where the walk is done, there is no barrier before the end. -/
theorem Inserting.advance_commit (h : Inserting B s₀ m K V prev applied s st) (hphase : st.phase = .commit)
    (hnext : s.nextChild st = none) (hooks : InsertHooks) (fuel : Nat) :
    ∃ t step r, advanceInsert hooks (fuel + 2) s st = some (t, none, step) ∧ step.result = some r ∧
      Finished B s₀ m K V prev t r (applied ++ step.actions) := by
  obtain ⟨t, st', hrun, htail, hpending, hdone⟩ := h.insertCommitStep_spec hnext
  refine ⟨t, { actions := (insertTailStep hooks t st').pendingActions
               result := some (insertTailStep hooks t st').result }, _, ?_, rfl, hdone.tail hooks⟩
  rw [advanceInsert, if_neg (by rw [hphase]; decide), if_neg (by rw [hphase]; decide), hrun]
  dsimp only [Option.bind_eq_bind, Option.bind_some]
  rw [hpending, drop_length, if_pos all_nil, advanceInsert, if_pos htail]

/-- **An advance** comes to a barrier farther on, or to the end. -/
theorem Inserting.advanceInsert_spec (hooks : InsertHooks) : ∀ (fuel : Nat) {s : UnifiedTreeCore}
    {st : InsertWalkState}, Inserting B s₀ m K V prev applied s st → st.phase = .walk →
      st.key.length + 3 ≤ fuel → ∃ t st' step, advanceInsert hooks fuel s st = some (t, st', step) ∧
        ((∃ st'', st' = some st'' ∧ step.result = none ∧ st''.phase = .walk ∧
            st''.key.length < st.key.length ∧ st''.pendingActions = [] ∧
            Inserting B s₀ m K V prev (applied ++ step.actions) t st'') ∨
          st' = none ∧ ∃ r, step.result = some r ∧ Finished B s₀ m K V prev t r (applied ++ step.actions)) := by
  intro fuel
  induction fuel with
  | zero => exact fun _ _ hfuel => absurd hfuel (Nat.not_succ_le_zero _)
  | succ fuel ih =>
    intro s st h hphase hfuel
    obtain ⟨t, st', hrun, hinserting, hcases⟩ := h.insertWalkStep_spec hooks
    rw [advanceInsert, if_neg (by rw [hphase]; decide), if_pos hphase, hrun]
    dsimp only [Option.bind_eq_bind, Option.bind_some]
    obtain ⟨hphase', hlt⟩ | ⟨rfl, rfl, hnext⟩ := hcases
    · have hshorter : st'.key.length < st.key.length := by
        have htotal := h.total_add
        have htotal' := hinserting.total_add
        omega
      split
      · obtain ⟨u, st'', step, hadvance, hrest⟩ :=
          ih hinserting (hphase'.trans hphase) (by omega)
        refine ⟨u, st'', step, hadvance, hrest.imp_left ?_⟩
        rintro ⟨w, hw, hnone, hwalk, hless, hkeep⟩
        exact ⟨w, hw, hnone, hwalk, hless.trans hshorter, hkeep⟩
      · refine ⟨t, _, _, rfl, .inl ⟨_, rfl, rfl, hphase'.trans hphase, hshorter, rfl, ?_⟩⟩
        exact hinserting.flush
    · rw [drop_length, if_pos all_nil]
      obtain ⟨f, rfl⟩ := Nat.exists_eq_add_of_le' (show 2 ≤ fuel by omega)
      obtain ⟨u, step, r, hadvance, hresult, hfinished⟩ := hinserting.advance_commit rfl hnext hooks f
      exact ⟨u, none, step, hadvance, .inr ⟨rfl, r, hresult, hfinished⟩⟩

/-- What is assumed of the cache, in all that it does at a barrier. -/
def Applies (B : UnifiedTreeCore → UnifiedTreeCore → Prop)
    (apply : UnifiedTreeCore → List CacheAction → UnifiedTreeCore) : Prop :=
  ∀ s actions, Radix s → Stored s → Quiet s (apply s actions) ∧ B s (apply s actions)

theorem Inserting.insertLoop_spec {apply : UnifiedTreeCore → List CacheAction → UnifiedTreeCore}
    (happly : Applies B apply) (hooks : InsertHooks) : ∀ (fuel : Nat) {s : UnifiedTreeCore}
    {st : InsertWalkState} {applied : List CacheAction}, Inserting B s₀ m K V prev applied s st →
      st.phase = .walk → st.pendingActions = [] → st.key.length < fuel →
        ∃ t r actions, insertLoop hooks apply fuel s st = some (t, r, actions) ∧
          Finished B s₀ m K V prev t r (applied ++ actions) := by
  intro fuel
  induction fuel with
  | zero => exact fun _ _ _ hfuel => absurd hfuel (Nat.not_lt_zero _)
  | succ fuel ih =>
    intro s st applied h hphase hpending hfuel
    obtain ⟨t, st', step, hadvance, hcases⟩ :=
      h.advanceInsert_spec hooks (st.key.length + 3) hphase (Nat.le_refl _)
    rw [insertLoop, hadvance]
    dsimp only [Option.bind_eq_bind, Option.bind_some]
    obtain ⟨st'', rfl, hnone, hwalk, hless, hempty, hinserting⟩ | ⟨rfl, r, hresult, hfinished⟩ := hcases
    · obtain ⟨hq, hB⟩ := happly t step.actions hinserting.radix hinserting.stored
      obtain ⟨u, r, actions, hrun, hfinished⟩ := ih (hinserting.quiet hq hB) hwalk hempty (by omega)
      rw [hnone]
      dsimp only
      rw [hrun]
      refine ⟨u, r, step.actions ++ actions, rfl, ?_⟩
      rw [← append_assoc]
      exact hfinished
    · obtain ⟨hq, hB⟩ := happly t step.actions hfinished.radix hfinished.stored
      rw [hresult]
      exact ⟨_, r, step.actions, rfl, hfinished.quiet hq hB⟩

/-- **An insertion ends**, with the map filled. -/
theorem insert_spec (h : Radix s) (hs : Stored s)
    {apply : UnifiedTreeCore → List CacheAction → UnifiedTreeCore} (happly : Applies B apply)
    (hooks : InsertHooks) (params : InsertParams)
    (hlen : (s.beginInsert params).key.length ≤ (params.value.getD params.key).length) :
    ∃ t r actions, s.insert hooks apply params = some (t, r, actions) ∧
      Finished B s s.deviceMap (s.beginInsert params).key (s.beginInsert params).value params.prevPrefixLen
        t r actions := by
  have hm := paged_deviceMap h hs
  have hvalue : (s.beginInsert params).value.length = (s.beginInsert params).key.length := by
    rw [beginInsert, length_take]
    exact Nat.min_eq_left hlen
  rw [UnifiedTreeCore.insert]
  split
  · next hnil =>
    have hvnil : (s.beginInsert params).value = [] :=
      eq_nil_of_length_eq_zero (by rw [hvalue, hnil]; rfl)
    rw [hnil, hvnil]
    have hhit : hit s.deviceMap [] = 0 := Nat.le_zero.mp (Prefixes.hit_le _ _)
    have hfill : fill s.deviceMap [] [] = [] :=
      eq_nil_of_length_eq_zero (hm.length_fill (v := []) rfl)
    refine ⟨s, _, [], rfl, .refl, h, hs, ?_, ?_, ?_, fun _ hnone => (by cases hnone), ?_, Nat.le_refl _⟩
    · rw [hfill]
      exact .refl _
    · rw [hm.overlay_of_hit (Nat.zero_le _)]
    · rw [take_nil, drop_nil]
      rfl
    · exact hhit.le
  · have hstart : Inserting B s s.deviceMap (s.beginInsert params).key (s.beginInsert params).value
        params.prevPrefixLen [] s (s.beginInsert params) := by
      refine ⟨?_, hm, dvd_length_pageAligned, hvalue, h, hs, Nat.dvd_zero _, Nat.zero_le _, rfl, rfl, rfl, ?_,
        fun x w => ?_, ?_, fun ranges hranges => ?_⟩
      · change Grown B s (List.drop _ (List.take 0 _)) s
        rw [take_zero, drop_nil]
        exact .refl
      · exact .refl _
      · refine ⟨.inl, ?_⟩
        rintro (hx | ⟨hx, -, rfl⟩)
        · exact hx
        · obtain rfl := List.prefix_nil.mp hx
          exact hm.nil
      · change [] = (List.take (min 0 _) _).drop _
        rw [Nat.zero_min, take_zero, drop_nil]
      · change (if params.trackAdoptedRanges = true then some [] else none) = some ranges at hranges
        change positions ranges = List.range' _ (0 - _)
        rw [Nat.zero_sub]
        split at hranges
        · cases hranges
          rfl
        · cases hranges
    obtain ⟨t, r, actions, hrun, hfinished⟩ := hstart.insertLoop_spec happly hooks
      ((s.beginInsert params).key.length + 3) rfl rfl (by omega)
    exact ⟨t, r, actions, hrun, hfinished⟩

/-- **An insertion is an overlay**, whatever the cache does at its barriers: the pages of the key get the new
slots where they have none.  Of the new slots those from `prev_prefix_len` to the hit are freed, once, and
those behind the hit are the ones in the tree. -/
theorem insert_overlays (h : Radix s) (hs : Stored s)
    {apply : UnifiedTreeCore → List CacheAction → UnifiedTreeCore}
    (happly : ∀ s actions, Radix s → Stored s → Quiet s (apply s actions)) (hooks : InsertHooks)
    (params : InsertParams) {V : Tensor} (hvalue : params.value = some V)
    (hlen : V.length = (s.pageAligned params.key).length) :
    ∃ t r actions, s.insert hooks apply params = some (t, r, actions) ∧
      t.deviceMap = overlay t.pageSize s.deviceMap (s.pageAligned params.key) V ∧
      OnDevice t (s.pageAligned params.key) (fill s.deviceMap (s.pageAligned params.key) V)
        r.lastDeviceNode ∧
      freedSlots actions =
        (V.take (hit s.deviceMap (s.pageAligned params.key))).drop params.prevPrefixLen ∧
      ∀ ranges, r.adoptedRanges = some ranges → positions ranges =
        List.range' (hit s.deviceMap (s.pageAligned params.key))
          (V.length - hit s.deviceMap (s.pageAligned params.key)) := by
  have hkey : (s.beginInsert params).key = s.pageAligned params.key := rfl
  have hV : (s.beginInsert params).value = V := by
    change (params.value.getD params.key).take (s.pageAligned params.key).length = V
    rw [hvalue, Option.getD_some, ← hlen, take_length]
  obtain ⟨t, r, actions, hrun, hdone⟩ := insert_spec (B := fun _ _ => True) h hs
    (fun u l hu hus => ⟨happly u l hu hus, trivial⟩) hooks params
    (by rw [hkey, hvalue, Option.getD_some, hlen])
  rw [hkey, hV] at hdone
  exact ⟨t, r, actions, hrun, hdone.map, hdone.place, hdone.freed, hlen ▸ hdone.adopted⟩

theorem insert_overlays_leaf : ∃ t r actions, oneLeaf.insert {} (fun s _ => s)
      { key := [5, 9], value := some [3, 4], prevPrefixLen := 0, trackAdoptedRanges := true } =
        some (t, r, actions) ∧
      t.deviceMap = overlay t.pageSize oneLeaf.deviceMap [5, 9] [3, 4] ∧
      OnDevice t [5, 9] (fill oneLeaf.deviceMap [5, 9] [3, 4]) r.lastDeviceNode ∧
      freedSlots actions = ([3, 4].take (hit oneLeaf.deviceMap [5, 9])).drop 0 ∧
      ∀ ranges, r.adoptedRanges = some ranges → positions ranges =
        List.range' (hit oneLeaf.deviceMap [5, 9]) ([3, 4].length - hit oneLeaf.deviceMap [5, 9]) :=
  insert_overlays oneLeaf_spec.1 oneLeaf_spec.2 (fun _ _ h hs => .refl h hs) {}
    { key := [5, 9], value := some [3, 4], prevPrefixLen := 0, trackAdoptedRanges := true } rfl rfl

end

end QwenStack.TreeCore
