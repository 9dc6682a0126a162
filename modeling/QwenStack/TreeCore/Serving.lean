import Mathlib.Data.Finset.Max
import QwenStack.TreeCore.Removal
import QwenStack.TreeCore.Requests

/-!
# Tree core — what the cache does for requests

A tree without a host tier is `Ready` to serve.  A request is served (`Serves`) when its row begins with what
is on the device under its tokens, down to its last node, and its locks count (`Locked`): the lock of a node
that is not pinned is the number of the requests below it, and that of a pinned one is not less.

What the cache does takes some requests and gives others back (`Handled`).  Whatever other requests there
are, they are served on; the slots that were in the tree and those that the requests had of their own are in
the tree, freed, or their own; and what slots stand for is kept.
-/

namespace QwenStack.TreeCore
open Assoc UnifiedTreeCore Prefixes List

/-- A tree without a host tier. -/
structure Ready (s : UnifiedTreeCore) : Prop where
  radix : Radix s
  stored : Stored s
  plain : Plain s
  nodup : s.components.Nodup

/-- A request has what it needs in the tree. -/
structure Serves (s : UnifiedTreeCore) (req : Req) : Prop where
  le_row : req.cacheProtectedLen ≤ req.row.length
  le_tokens : req.row.length ≤ req.tokenIds.length
  place : OnDevice s (req.tokenIds.take req.cacheProtectedLen) (req.row.take req.cacheProtectedLen)
    req.lastNode
  skip : .full ∉ req.skipLock

/-- How many requests hold a node. -/
def holders (s : UnifiedTreeCore) (reqs : Multiset Req) (x : NodeId) : Nat :=
  reqs.countP fun req => x ∈ s.path req.lastNode

/-- The locks count the requests. -/
def Locked (s : UnifiedTreeCore) (reqs : Multiset Req) : Prop :=
  ∀ x ∈ s.nodeArena, x ≠ s.rootNode → (holders s reqs x : Int) ≤ s.lock x ∧
    ((s.nodes x).pinned = false → s.lock x = holders s reqs x)

/-- The slots that requests have of their own. -/
def ownSlots (reqs : Multiset Req) : Multiset Nat := reqs.bind fun req => (req.ownSlots : Multiset Nat)

section
variable {s t u : UnifiedTreeCore} {reqs : Multiset Req} {req : Req} {x i : NodeId} {v : Tensor}

theorem Serves.mem (h : Serves s req) (hs : Ready s) : req.lastNode ∈ s.nodeArena :=
  h.place.mem hs.radix

theorem Serves.keeps (h : Serves s req) (hk : Keeps s t) : Serves t req :=
  ⟨h.le_row, h.le_tokens, hk _ _ _ h.place, h.skip⟩

theorem holders_cons (s : UnifiedTreeCore) (req : Req) (reqs : Multiset Req) (x : NodeId) :
    holders s (req ::ₘ reqs) x = holders s reqs x + if x ∈ s.path req.lastNode then 1 else 0 :=
  Multiset.countP_cons _ _ _

/-! ### Changes of the tree -/

theorem Ready.grows (h : Ready s) (hr : Radix t) (hs : Stored t) (ht : Grows v s t) : Ready t :=
  ⟨hr, hs, ht.plain, ht.parts.components ▸ h.nodup⟩

theorem Ready.split (h : Ready s) (ht : Split s t) : Ready t ∧ Grows [] s t :=
  have hgrows := Grows.of_split h.plain ht
  ⟨h.grows (ht.radix h.radix) (ht.stored h.stored) hgrows, hgrows⟩

/-- **A tree that grows is locked as before.** -/
theorem Locked.grows (h : Locked s reqs) (hs : Ready s) (ht : Ready t) (hgrows : Grows v s t)
    (hreqs : ∀ req ∈ reqs, req.lastNode ∈ s.nodeArena) : Locked t reqs := by
  intro x hx hne
  have hpath {req : Req} (hreq : req ∈ reqs) : x ∈ t.path req.lastNode ↔ Above t x req.lastNode :=
    mem_path_iff ht.radix.wellFormed (hgrows.parts.arena (hreqs req hreq))
  obtain ⟨hlock, hnew⟩ | ⟨y, hy, hyne, hlock, hpinned, hold⟩ := hgrows.parts.part x hx hne
  · have hzero : holders t reqs x = 0 := Multiset.countP_eq_zero.mpr fun req hreq hmem =>
      hnew _ (hreqs req hreq) ((hpath hreq).mp hmem)
    rw [hzero, hlock]
    exact ⟨Int.le_refl 0, fun _ => rfl⟩
  · have hsame : holders t reqs x = holders s reqs y := Multiset.countP_congr rfl fun req hreq => by
      rw [hpath hreq, hold _ (hreqs req hreq), mem_path_iff hs.radix.wellFormed (hreqs req hreq)]
    rw [hsame, hlock, hpinned]
    exact h y hy hyne

/-- The locks are all that changes. -/
theorem SameValues.sameStored (h : SameValues s t) : SameStored s t := ⟨h.shape, fun i => h.values i .full⟩

theorem Ready.sameValues (h : Ready s) (ht : SameValues s t) : Ready t := by
  have hst := ht.sameStored
  exact ⟨h.radix.of_sameShape ht.shape, hst.stored h.stored,
    h.plain.of_data ht.shape.nodeArena hst.value fun i => ht.hostValues i .full,
    ht.shape.components ▸ h.nodup⟩

theorem Keeps.of_sameStored (h : SameStored s t) : Keeps s t := fun _ _ _ hi => h.onDevice.mpr hi

theorem holders_sameShape (h : SameShape s t) (reqs : Multiset Req) (x : NodeId) :
    holders t reqs x = holders s reqs x :=
  Multiset.countP_congr rfl fun req _ => by rw [path_congr h.parent h.counter]

/-- **Locks that are taken and given back** go with the requests. -/
theorem Locked.relocks {δ : NodeId → Int} {reqs' : Multiset Req} (h : Locked s reqs)
    (ht : Relocks δ s t) (hreqs : ∀ x, (holders s reqs' x : Int) = holders s reqs x + δ x) :
    Locked t reqs' := by
  intro x hx hne
  rw [ht.same.shape.nodeArena] at hx
  rw [ht.same.shape.rootNode] at hne
  obtain ⟨hle, heq⟩ := h x hx hne
  rw [holders_sameShape ht.same.shape, hreqs, ht.same.pinned]
  refine ⟨(Int.add_le_add_right hle _).trans (ht.le x), fun hpinned => ?_⟩
  rw [ht.eq x hpinned, heq hpinned]

/-- `inc_lock_ref` for a new request. -/
theorem Locked.acquire (h : Locked s reqs)
    (ht : Relocks (fun x => if x ∈ s.path req.lastNode then 1 else 0) s t) : Locked t (req ::ₘ reqs) := by
  refine h.relocks ht fun x => ?_
  rw [holders_cons]
  split <;> rfl

/-- `dec_lock_ref` for one that goes. -/
theorem Locked.release (h : Locked s (req ::ₘ reqs))
    (ht : Relocks (fun x => if x ∈ s.path req.lastNode then -1 else 0) s t) : Locked t reqs := by
  refine h.relocks ht fun x => ?_
  rw [holders_cons]
  split <;> omega

end

/-- A cache without a host tier, of `FULL` alone. -/
structure UnifiedRadixCache.Bare (cache : UnifiedRadixCache) : Prop where
  apply : ∀ s actions, cache.applyCacheActions s actions = s
  sound : cache.deviceValidators.Sound
  complete : cache.deviceValidators.Complete

section
variable {cache : UnifiedRadixCache} {s t u : UnifiedTreeCore} {req : Req} {K key : Key} {V : Tensor}

theorem Ready.matchPrefix (h : Ready s) (hcache : cache.Bare) (key : Key) :
    ∃ t r, cache.matchPrefix s key = some (t, r) ∧ Split s t ∧ r.deviceIndices = held s.deviceMap key ∧
      OnDevice t (key.take r.deviceIndices.length) r.deviceIndices r.lastDeviceNode := by
  obtain ⟨t, r, hrun, hsplit, ⟨k, hk, hkey⟩, hheld⟩ := matchPrefix_spec h.radix h.stored
    cache.enableHicache cache.validators cache.deviceValidators hcache.sound key
  refine ⟨t, r, ?_, hsplit, hheld hcache.complete, ?_⟩
  · rw [UnifiedRadixCache.matchPrefix, hrun]
    dsimp only [Option.bind_eq_bind, Option.bind_some]
    rw [hcache.apply]
  · have ht := (h.split hsplit).1
    rw [hk.length ht.radix ht.stored, ← List.prefix_iff_eq_take.mp hkey]
    exact hk

/-- What an insertion has done. -/
structure Filled (s t : UnifiedTreeCore) (K : Key) (V : Tensor) (prev : Nat) (r : InsertResult)
    (freed : Tensor) : Prop where
  ready : Ready t
  grows : Grows (V.drop (hit s.deviceMap K)) s t
  place : OnDevice t K (fill s.deviceMap K V) r.lastDeviceNode
  map : t.deviceMap = overlay s.pageSize s.deviceMap K V
  freed : freed = (V.take (hit s.deviceMap K)).drop prev
  hit_le : hit s.deviceMap K ≤ r.prefixLen
  le : r.prefixLen ≤ K.length

theorem pageAligned_of_dvd (h : s.pageSize ∣ K.length) : s.pageAligned K = K := by
  rw [pageAligned_eq, Nat.div_mul_cancel h, take_length]

theorem Ready.insert (h : Ready s) (hcache : cache.Bare) (hK : s.pageSize ∣ K.length)
    (hV : V.length = K.length) (params : InsertParams) (hkey : params.key = K)
    (hvalue : params.value = some V) : ∃ t r freed, cache.insert s params = some (t, r, freed) ∧
      Filled s t K V params.prevPrefixLen r freed := by
  have hbegin : (s.beginInsert params).key = K := by
    rw [beginInsert, hkey]
    exact pageAligned_of_dvd hK
  have hbeginValue : (s.beginInsert params).value = V := by
    change (params.value.getD params.key).take (s.beginInsert params).key.length = V
    rw [hvalue, Option.getD_some, hbegin, ← hV, take_length]
  have happly : Applies Eq cache.applyCacheActions := fun u actions hu hus => by
    rw [hcache.apply]
    exact ⟨.refl hu hus, rfl⟩
  obtain ⟨t, r, actions, hrun, hdone⟩ := insert_spec h.radix h.stored happly cache.hooks params
    (by rw [hbegin, hvalue, Option.getD_some, hV])
  rw [hbegin, hbeginValue] at hdone
  have hgrows := Grows.of_grown h.plain hdone.grown
  refine ⟨t, r, freedSlots actions, by rw [UnifiedRadixCache.insert, hrun]; rfl,
    h.grows hdone.radix hdone.stored hgrows, hgrows, hdone.place, ?_, hdone.freed, hdone.hit_le, hdone.le⟩
  rw [hdone.map, hgrows.parts.pageSize]

end

/-- What is done for requests: some are taken, and others given back. -/
structure Handled (s : UnifiedTreeCore) (before : Multiset Req) (t : UnifiedTreeCore)
    (after : Multiset Req) (freed : Tensor) : Prop where
  ready : Ready t
  served : ∀ req ∈ after, Serves t req
  others : ∀ rest, Locked s (before + rest) → (∀ req ∈ rest, Serves s req) →
    Locked t (after + rest) ∧ ∀ req ∈ rest, Serves t req
  slots : t.treeSlots + freed + ownSlots after = s.treeSlots + ownSlots before
  faithful : ∀ c, Faithful c s.deviceMap → (∀ req ∈ before, Describes c req.tokenIds req.row) →
    Faithful c t.deviceMap ∧ ∀ req ∈ after, Describes c req.tokenIds req.row

theorem drop_take_append_drop {α : Type*} {l : List α} {m n : Nat} (h : m ≤ n) :
    (l.take n).drop m ++ l.drop n = l.drop m := by
  obtain ⟨d, rfl⟩ := Nat.exists_eq_add_of_le h
  rw [drop_take, Nat.add_sub_cancel_left, ← drop_drop, take_append_drop]

theorem effectiveCacheLen_le (n : Nat) (cacheLens : List (Option Nat)) :
    effectiveCacheLen n cacheLens ≤ n := by
  refine List.foldlRecOn cacheLens _ (motive := (· ≤ n)) (Nat.le_refl n) fun m hm cacheLen _ => ?_
  cases cacheLen with
  | none => exact hm
  | some cacheLen => exact (Nat.min_le_left _ _).trans hm

theorem le_effectiveCacheLen {m n : Nat} {cacheLens : List (Option Nat)} (hn : m ≤ n)
    (h : ∀ cacheLen, some cacheLen ∈ cacheLens → m ≤ cacheLen) : m ≤ effectiveCacheLen n cacheLens := by
  refine List.foldlRecOn cacheLens _ (motive := (m ≤ ·)) hn fun l hl cacheLen hmem => ?_
  cases cacheLen with
  | none => exact hl
  | some cacheLen => exact Nat.le_min.mpr ⟨hl, h cacheLen hmem⟩

/-- The pages of what a request has slots for. -/
structure Aligned (s : UnifiedTreeCore) (req : Req) (e : Nat) (K : Key) : Prop where
  eq : K = req.tokenIds.take K.length
  dvd : s.pageSize ∣ K.length
  protected_le : req.cacheProtectedLen ≤ K.length
  le : K.length ≤ e
  le_row : e ≤ req.row.length

section
variable {cache : UnifiedRadixCache} {s t u : UnifiedTreeCore} {req : Req} {K : Key} {V : Tensor} {e : Nat}
  {i : NodeId} {r : InsertResult} {freed : Tensor}

theorem Serves.dvd (h : Serves s req) (hs : Ready s) : s.pageSize ∣ req.cacheProtectedLen := by
  have hdvd := h.place.dvd hs.radix
  rwa [length_take, Nat.min_eq_left (h.le_row.trans h.le_tokens)] at hdvd

theorem Serves.aligned (h : Serves s req) (hs : Ready s) {ids : Key} (hids : ids <+: req.tokenIds)
    (hle : req.cacheProtectedLen ≤ e) (he : e ≤ ids.length) (hrow : e ≤ req.row.length) :
    Aligned s req e (s.pageAligned (ids.take e)) := by
  have htake : s.pageAligned (ids.take e) <+: ids.take e := pageAligned_prefix
  have hlen : (ids.take e).length = e := by rw [length_take, Nat.min_eq_left he]
  refine ⟨List.prefix_iff_eq_take.mp (htake.trans ((List.take_prefix e ids).trans hids)),
    dvd_length_pageAligned, ?_, htake.length_le.trans_eq hlen, hrow⟩
  obtain ⟨m, hm⟩ := h.dvd hs
  rw [length_pageAligned, hlen]
  rw [hm, Nat.mul_comm] at hle ⊢
  exact Nat.mul_le_mul_right _ ((Nat.le_div_iff_mul_le hs.radix.pageSize_pos).mpr hle)

theorem Aligned.length_take (h : Aligned s req e K) : (req.row.take K.length).length = K.length := by
  rw [List.length_take, Nat.min_eq_left (h.le.trans h.le_row)]

/-- What is in the tree of a request is hit. -/
theorem Serves.le_hit (h : Serves s req) (hs : Ready s) (hK : Aligned s req e K) :
    req.cacheProtectedLen ≤ hit s.deviceMap K ∧
      req.row.take req.cacheProtectedLen = (held s.deviceMap K).take req.cacheProtectedLen := by
  have hlen : (req.tokenIds.take req.cacheProtectedLen).length = req.cacheProtectedLen := by
    rw [length_take, Nat.min_eq_left (h.le_row.trans h.le_tokens)]
  have hprefix : req.tokenIds.take req.cacheProtectedLen <+: K := by
    rw [hK.eq]
    exact take_prefix_take_left hK.protected_le
  have hvalue := (deviceMap_eq_some_iff hs.radix hs.stored).mpr (h.place.holds hs.radix hs.stored)
  have hheld := (paged_deviceMap hs.radix hs.stored).eq_take_held hprefix hvalue
  rwa [hlen] at hheld

/-- The slots of a request, after its pages were inserted. -/
theorem Filled.slots (h : Filled s t K (req.row.take K.length) req.cacheProtectedLen r freed)
    (hs : Ready s) (hreq : Serves s req) (hK : Aligned s req e K) :
    t.treeSlots + freed + (req.row.drop K.length : List Nat) = s.treeSlots + req.ownSlots := by
  have hsplit := drop_take_append_drop (l := req.row) hK.protected_le
  rw [← drop_take_append_drop (l := req.row.take K.length) (hreq.le_hit hs hK).1] at hsplit
  rw [h.grows.slots, Req.ownSlots, ← hsplit, h.freed, ← Multiset.coe_add, ← Multiset.coe_add]
  ac_rfl

theorem Filled.faithful (h : Filled s t K (req.row.take K.length) req.cacheProtectedLen r freed)
    (hs : Ready s) (hK : Aligned s req e K) {c : Nat → Key} (hc : Faithful c s.deviceMap)
    (hreq : Describes c req.tokenIds req.row) :
    Faithful c t.deviceMap ∧ Describes c req.tokenIds (fill s.deviceMap K (req.row.take K.length)) := by
  have hpaged := paged_deviceMap hs.radix hs.stored
  have hV : Describes c K (req.row.take K.length) := by
    refine (hreq.take K.length).of_take ?_
    rw [hK.length_take, take_length, ← hK.eq]
  refine ⟨h.map ▸ hpaged.faithful_overlay hc hV, (hpaged.describes_fill hc hV).of_take ?_⟩
  rw [hpaged.length_fill hK.length_take, take_length]
  exact hK.eq

/-- `_dec_req_lock`. -/
theorem Serves.decReqLock (h : Serves s req) (hs : Ready s) (skipSwa : Bool) :
    ∃ t, UnifiedRadixCache.decReqLock s req skipSwa = some t ∧ Ready t ∧ SameStored s t ∧
      Relocks (fun x => if x ∈ s.path req.lastNode then -1 else 0) s t := by
  have hskip : .full ∉ if skipSwa = true then .swa :: req.skipLock else req.skipLock := by
    split
    · exact fun hmem => (List.mem_cons.mp hmem).elim (fun he => (by cases he)) h.skip
    · exact h.skip
  obtain ⟨t, ht, hlocks⟩ := decLockRef_spec hs.radix.wellFormed hs.nodup (h.mem hs) hskip
  exact ⟨t, ht, hs.sameValues hlocks.same, hlocks.same.sameStored, hlocks⟩

theorem UnifiedRadixCache.full_notMem_skip (cache : UnifiedRadixCache) :
    .full ∉ cache.skipLockComponents := by
  rw [skipLockComponents]
  split
  · exact fun hmem => (by cases List.mem_singleton.mp hmem)
  · exact not_mem_nil

/-- `cache_unfinished_req` has a row that begins with what is in the tree. -/
theorem write_row (hF : V.length = K.length) (hle : req.cacheProtectedLen ≤ K.length)
    (hrow : req.row.take req.cacheProtectedLen = V.take req.cacheProtectedLen) :
    (req.write req.cacheProtectedLen (V.drop req.cacheProtectedLen)).row =
      V ++ req.row.drop K.length := by
  change req.row.take _ ++ V.drop _ ++ req.row.drop _ = _
  rw [hrow, take_append_drop, length_drop, hF, Nat.add_sub_cancel' hle]

theorem ownSlots_singleton (req : Req) : ownSlots {req} = req.ownSlots := by
  rw [ownSlots, Multiset.singleton_bind]

theorem ownSlots_zero : ownSlots 0 = 0 := Multiset.zero_bind _

/-- A request is as before, as far as the tree is concerned. -/
theorem Handled.same {req' : Req} (hs : Ready s) (h : Serves s req') (hnode : req'.lastNode = req.lastNode)
    (hown : req'.ownSlots = req.ownSlots)
    (hdescribes : ∀ c, Describes c req.tokenIds req.row → Describes c req'.tokenIds req'.row) :
    Handled s {req} s {req'} [] := by
  refine ⟨hs, fun q hq => Multiset.mem_singleton.mp hq ▸ h, fun rest hlocked hrest => ⟨?_, hrest⟩, ?_,
    fun c hc hreq => ⟨hc, fun q hq => Multiset.mem_singleton.mp hq ▸ hdescribes c (hreq req
      (Multiset.mem_singleton_self req))⟩⟩
  · refine hlocked.relocks (.refl s) fun x => ?_
    rw [Multiset.singleton_add, Multiset.singleton_add, holders_cons, holders_cons, hnode, Int.add_zero]
  · rw [ownSlots_singleton, ownSlots_singleton, hown, Multiset.coe_nil, add_zero]

/-- A request that is served is found again, with its pages, behind an insertion. -/
theorem Filled.rematch (h : Filled s t K V req.cacheProtectedLen r freed) (hs : Ready s)
    (hcache : cache.Bare) (hK : s.pageSize ∣ K.length) (hV : V.length = K.length) :
    ∃ u found, cache.matchPrefix t K = some (u, found) ∧ Split t u ∧
      found.deviceIndices = fill s.deviceMap K V ∧
      OnDevice u K (fill s.deviceMap K V) found.lastDeviceNode := by
  have hpaged := paged_deviceMap hs.radix hs.stored
  have hfill : held t.deviceMap K = fill s.deviceMap K V := by
    refine (paged_deviceMap h.ready.radix h.ready.stored).held_of_some ?_
    rw [h.map]
    exact hpaged.overlay_self hK hV
  obtain ⟨u, found, hrun, hsplit, hfound, hplace⟩ := h.ready.matchPrefix hcache K
  rw [hfound, hfill, hpaged.length_fill hV, take_length] at hplace
  exact ⟨u, found, hrun, hsplit, hfound.trans hfill, hplace⟩

/-- A request goes on with its pages in the tree. -/
theorem Handled.recached {t₁ t₂ t₃ : UnifiedTreeCore} {req' : Req} (h : Serves s req) (hs : Ready s)
    (hK : Aligned s req e K)
    (hfilled : Filled s t₁ K (req.row.take K.length) req.cacheProtectedLen r freed) (hsplit : Split t₁ t₂)
    (hplace : OnDevice t₂ K (fill s.deviceMap K (req.row.take K.length)) req'.lastNode)
    (hdec : Relocks (fun x => if x ∈ t₂.path req.lastNode then -1 else 0) t₂ t₃)
    (hinc : Relocks (fun x => if x ∈ t₃.path req'.lastNode then 1 else 0) t₃ t)
    (htokens : req'.tokenIds = req.tokenIds)
    (hrow : req'.row = fill s.deviceMap K (req.row.take K.length) ++ req.row.drop K.length)
    (hprotected : req'.cacheProtectedLen = K.length) (hskip : .full ∉ req'.skipLock) :
    Handled s {req} t {req'} freed := by
  have hpaged := paged_deviceMap hs.radix hs.stored
  have hF := hpaged.length_fill (v := req.row.take K.length) hK.length_take
  obtain ⟨hready₂, hgrows₂⟩ := hfilled.ready.split hsplit
  have hgrows := hfilled.grows.trans hgrows₂
  have hsame := hdec.same.trans hinc.same
  have hown : req'.ownSlots = req.row.drop K.length := by
    rw [Req.ownSlots, hrow, hprotected, drop_left' hF]
  refine ⟨hready₂.sameValues hsame, fun q hq => ?_, fun rest hlocked hrest => ⟨?_, fun q hq => ?_⟩, ?_,
    fun c hc hreq => ?_⟩
  · obtain rfl := Multiset.mem_singleton.mp hq
    refine ⟨?_, ?_, hsame.sameStored.onDevice.mpr ?_, hskip⟩
    · rw [hprotected, hrow, length_append, hF]
      exact Nat.le_add_right _ _
    · rw [hrow, htokens, length_append, hF, length_drop,
        Nat.add_sub_cancel' (hK.le.trans hK.le_row)]
      exact h.le_tokens
    · rw [hprotected, htokens, ← hK.eq, hrow, take_left' hF]
      exact hplace
  · rw [Multiset.singleton_add] at hlocked ⊢
    have hnodes : ∀ q ∈ req ::ₘ rest, q.lastNode ∈ s.nodeArena := fun q hq =>
      (Multiset.mem_cons.mp hq).elim (fun he => he ▸ h.mem hs) fun hq => (hrest q hq).mem hs
    exact ((hlocked.grows hs hready₂ hgrows hnodes).release hdec).acquire hinc
  · exact ((hrest q hq).keeps hgrows.keeps).keeps (.of_sameStored hsame.sameStored)
  · rw [ownSlots_singleton, ownSlots_singleton, hown, hsame.sameStored.treeSlots, hsplit.treeSlots]
    exact hfilled.slots hs h hK
  · have hreq' := hreq req (Multiset.mem_singleton_self req)
    obtain ⟨hmap, hdescribes⟩ := hfilled.faithful hs hK hc hreq'
    refine ⟨?_, fun q hq => ?_⟩
    · rw [hsame.sameStored.deviceMap, hsplit.deviceMap]
      exact hmap
    · obtain rfl := Multiset.mem_singleton.mp hq
      rw [htokens, hrow]
      refine hdescribes.append fun n b hb => ?_
      rw [hF]
      exact hreq'.drop hb

/-- **A chunk of a request is cached**: neither assertion fails, and the request goes on with what is in
the tree. -/
theorem Serves.cacheUnfinishedReq (h : Serves s req) (hs : Ready s) (hcache : cache.Bare)
    {cacheLens : List (Option Nat)}
    (hlens : ∀ cacheLen, some cacheLen ∈ cacheLens → req.cacheProtectedLen ≤ cacheLen) (chunked : Bool) :
    ∃ t req' freed, cache.cacheUnfinishedReq s req cacheLens chunked = some (t, req', freed) ∧
      Handled s {req} t {req'} freed ∧ req'.tokenIds = req.tokenIds ∧
      req'.row.length = req.row.length ∧ req.cacheProtectedLen ≤ req'.cacheProtectedLen ∧
      req'.row.take req.cacheProtectedLen = req.row.take req.cacheProtectedLen := by
  have hids : req.fillIds.length = req.row.length := by
    rw [Req.fillIds, length_take, Nat.min_eq_left h.le_tokens]
  rw [UnifiedRadixCache.cacheUnfinishedReq]
  dsimp only
  split
  · exact ⟨s, _, [], rfl, .same hs ⟨h.le_row, h.le_tokens, h.place, h.skip⟩ rfl rfl fun _ => id, rfl, rfl,
      Nat.le_refl _, rfl⟩
  · have he : effectiveCacheLen req.fillIds.length cacheLens ≤ req.fillIds.length :=
      effectiveCacheLen_le _ _
    have hle := le_effectiveCacheLen (hids ▸ h.le_row) hlens
    generalize effectiveCacheLen req.fillIds.length cacheLens = e at he hle ⊢
    have hfill : req.fillIds <+: req.tokenIds := take_prefix _ _
    have hK := h.aligned hs hfill hle he (hids ▸ he)
    generalize s.pageAligned (req.fillIds.take e) = K at hK ⊢
    have hvalue : ((req.row.take req.fillIds.length).take e).take K.length = req.row.take K.length := by
      rw [take_take, take_take, Nat.min_eq_left hK.le, Nat.min_eq_left (hK.le.trans he)]
    rw [hvalue]
    obtain ⟨t₁, r, freed, hinsert, hfilled⟩ := hs.insert hcache hK.dvd hK.length_take
      { key := K, value := some (req.row.take K.length), prevPrefixLen := req.cacheProtectedLen
        chunked := chunked } rfl rfl
    obtain ⟨t₂, found, hmatch, hsplit, hindices, hplace⟩ := hfilled.rematch hs hcache hK.dvd hK.length_take
    rw [hinsert]
    dsimp only [Option.bind_eq_bind, Option.bind_some]
    rw [hmatch]
    dsimp only [Option.bind_eq_bind, Option.bind_some]
    rw [hindices]
    have hpaged := paged_deviceMap hs.radix hs.stored
    obtain ⟨hhit, hrow⟩ := h.le_hit hs hK
    have hF : (fill s.deviceMap K (req.row.take K.length)).length = K.length :=
      hpaged.length_fill hK.length_take
    have hfilltake : req.row.take req.cacheProtectedLen =
        (fill s.deviceMap K (req.row.take K.length)).take req.cacheProtectedLen := by
      rw [hrow, hpaged.take_fill hhit]
    have hwrite := write_row hF hK.protected_le hfilltake
    have hassert : req.cacheProtectedLen ≤ K.length + s.pageSize - 1 :=
      Nat.le_sub_of_add_le (Nat.add_le_add hK.protected_le hs.radix.pageSize_pos)
    rw [if_pos ⟨hF.symm ▸ hassert, hF.symm ▸ hfilled.le⟩]
    -- the locks move to the new last node
    obtain ⟨hready₂, hgrows₂⟩ := hfilled.ready.split hsplit
    have hgrows := hfilled.grows.trans hgrows₂
    obtain ⟨t₃, hdec, hready₃, hsame₃, hlocks₃⟩ := (h.keeps hgrows.keeps).decReqLock hready₂ false
    have hmem₃ : found.lastDeviceNode ∈ t₃.nodeArena := by
      rw [hsame₃.shape.nodeArena]
      exact hplace.mem hready₂.radix
    obtain ⟨t₄, hinc, hlocks₄⟩ := incLockRef_spec hready₃.radix.wellFormed hready₃.nodup hmem₃
      cache.full_notMem_skip
    rw [hdec]
    dsimp only [Option.bind_eq_bind, Option.bind_some]
    rw [hinc]
    refine ⟨t₄, _, freed, rfl, .recached h hs hK hfilled hsplit hplace hlocks₃ hlocks₄ rfl hwrite hF
      cache.full_notMem_skip, rfl, ?_, hF.symm ▸ hK.protected_le, ?_⟩
    · rw [hwrite, length_append, hF, length_drop, Nat.add_sub_cancel' (hK.le.trans hK.le_row)]
    · rw [hwrite, take_append_of_le_length (hF.symm ▸ hK.protected_le)]
      exact hfilltake.symm

/-- A request goes, and its locks. -/
theorem Handled.released (h : Serves s req) (hs : Ready s) {v : Tensor} (ht : Ready t) (hgrows : Grows v s t)
    (hdec : Relocks (fun x => if x ∈ t.path req.lastNode then -1 else 0) t u)
    (hslots : t.treeSlots + freed = s.treeSlots + req.ownSlots)
    (hmap : ∀ c, Faithful c s.deviceMap → Describes c req.tokenIds req.row → Faithful c t.deviceMap) :
    Handled s {req} u 0 freed := by
  have hsame := hdec.same.sameStored
  refine ⟨ht.sameValues hdec.same, fun q hq => absurd hq (Multiset.notMem_zero q),
    fun rest hlocked hrest => ⟨?_, fun q hq => ?_⟩, ?_,
    fun c hc hreq => ⟨?_, fun q hq => absurd hq (Multiset.notMem_zero q)⟩⟩
  · rw [Multiset.singleton_add] at hlocked
    rw [zero_add]
    have hnodes : ∀ q ∈ req ::ₘ rest, q.lastNode ∈ s.nodeArena := fun q hq =>
      (Multiset.mem_cons.mp hq).elim (fun he => he ▸ h.mem hs) fun hq => (hrest q hq).mem hs
    exact (hlocked.grows hs ht hgrows hnodes).release hdec
  · exact ((hrest q hq).keeps hgrows.keeps).keeps (.of_sameStored hsame)
  · rw [ownSlots_singleton, hsame.treeSlots, hslots, ownSlots_zero, add_zero]
  · rw [hsame.deviceMap]
    exact hmap c hc (hreq req (Multiset.mem_singleton_self req))

/-- **A request is finished**: with what the scheduler frees behind `kv_len_to_handle`, it has no slots
left. -/
theorem Serves.cacheFinishedReq (h : Serves s req) (hs : Ready s) (hcache : cache.Bare) (isInsert : Bool)
    {kvLenToHandle : Nat} (hkv : req.cacheProtectedLen ≤ kvLenToHandle)
    (hkv' : kvLenToHandle ≤ req.row.length) {cacheLens : List (Option Nat)}
    (hlens : ∀ cacheLen, some cacheLen ∈ cacheLens → req.cacheProtectedLen ≤ cacheLen) :
    ∃ t req' freed, cache.cacheFinishedReq s req isInsert kvLenToHandle cacheLens =
      some (t, req', freed) ∧ Handled s {req} t 0 (freed ++ req.row.drop kvLenToHandle) := by
  rw [UnifiedRadixCache.cacheFinishedReq]
  dsimp only
  split
  · have hids : (req.tokenIds.take kvLenToHandle).length = kvLenToHandle := by
      rw [length_take, Nat.min_eq_left (hkv'.trans h.le_tokens)]
    have he := effectiveCacheLen_le (req.tokenIds.take kvLenToHandle).length cacheLens
    have hle := le_effectiveCacheLen (hids.symm ▸ hkv) hlens
    generalize effectiveCacheLen (req.tokenIds.take kvLenToHandle).length cacheLens = e at he hle ⊢
    have hK := h.aligned hs (List.take_prefix kvLenToHandle req.tokenIds) hle he
      (he.trans (hids.trans_le hkv'))
    rw [hids] at he
    generalize s.pageAligned ((req.tokenIds.take kvLenToHandle).take e) = K at hK ⊢
    have hkvIndices : (if e < (req.tokenIds.take kvLenToHandle).length then
        (req.row.take kvLenToHandle).take e else req.row.take kvLenToHandle) = req.row.take e := by
      rw [hids]
      split
      · rw [take_take, Nat.min_eq_left he]
      · next hlt => rw [Nat.le_antisymm he (Nat.le_of_not_lt hlt)]
    rw [hkvIndices, take_take, Nat.min_eq_left hK.le]
    obtain ⟨t₁, r, freed, hinsert, hfilled⟩ := hs.insert hcache hK.dvd hK.length_take
      { key := K, value := some (req.row.take K.length), prevPrefixLen := req.cacheProtectedLen } rfl rfl
    obtain ⟨t₂, hdec, -, -, hlocks⟩ :=
      (h.keeps hfilled.grows.keeps).decReqLock hfilled.ready req.swaPrefixLockReleased
    rw [hinsert]
    dsimp only [Option.bind_eq_bind, Option.bind_some]
    rw [hdec]
    refine ⟨t₂, _, _, rfl, .released h hs hfilled.ready hfilled.grows hlocks ?_
      fun c hc hreq => (hfilled.faithful hs hK hc hreq).1⟩
    have hranges : req.rowSlots ((K.length, (req.row.take e).length) ::
        if e < (req.tokenIds.take kvLenToHandle).length then
          [(max e req.cacheProtectedLen, (req.row.take kvLenToHandle).length)] else []) =
        (req.row.take kvLenToHandle).drop K.length := by
      rw [hids, length_take, length_take, Nat.min_eq_left (he.trans hkv'), Nat.min_eq_left hkv',
        Req.rowSlots, flatMap_cons]
      split
      · rw [flatMap_singleton, Nat.max_eq_left hle]
        rw [← drop_take_append_drop (l := req.row.take kvLenToHandle) hK.le, take_take,
          Nat.min_eq_left he]
      · next hlt => rw [flatMap_nil, append_nil, Nat.le_antisymm he (Nat.le_of_not_lt hlt)]
    rw [hranges, ← hfilled.slots hs h hK, append_assoc,
      drop_take_append_drop (hK.le.trans he), ← Multiset.coe_add, add_assoc]
  · obtain ⟨t, hdec, -, -, hlocks⟩ := h.decReqLock hs req.swaPrefixLockReleased
    rw [hdec]
    refine ⟨t, _, _, rfl, .released h hs hs (.refl hs.plain) hlocks ?_ fun c hc _ => hc⟩
    rw [Req.rowSlots, flatMap_singleton, drop_take_append_drop hkv]
    rfl

/-- What the scheduler begins a request with, when its tokens were looked up. -/
def MatchResult.request (found : MatchResult) (tokenIds : Key) : Req :=
  { tokenIds := tokenIds, row := found.deviceIndices
    cacheProtectedLen := found.deviceIndices.length, lastNode := found.lastDeviceNode }

/-- **A request arrives**: the scheduler looks its tokens up, locks what is found, and begins its row
with it. -/
theorem Ready.arrive (hs : Ready s) (hcache : cache.Bare) {key tokenIds : Key} (hkey : key <+: tokenIds) :
    ∃ t found u, cache.matchPrefix s key = some (t, found) ∧
      t.incLockRef found.lastDeviceNode [] = some u ∧ Handled s 0 u {found.request tokenIds} [] := by
  obtain ⟨t, found, hrun, hsplit, hfound, hplace⟩ := hs.matchPrefix hcache key
  obtain ⟨ht, hgrows⟩ := hs.split hsplit
  have hmem := hplace.mem ht.radix
  obtain ⟨u, hinc, hlocks⟩ :=
    incLockRef_spec ht.radix.wellFormed ht.nodup hmem (not_mem_nil : ComponentType.full ∉ [])
  have hsame := hlocks.same.sameStored
  have hpaged := paged_deviceMap hs.radix hs.stored
  have hlen : found.deviceIndices.length = hit s.deviceMap key := by rw [hfound, hpaged.length_held]
  have hle : found.deviceIndices.length ≤ key.length := hlen ▸ Prefixes.hit_le _ _
  have htake : tokenIds.take found.deviceIndices.length = key.take found.deviceIndices.length := by
    obtain ⟨rest, rfl⟩ := hkey
    exact take_append_of_le_length hle
  refine ⟨t, found, u, hrun, hinc, ht.sameValues hlocks.same, fun q hq => ?_,
    fun rest hlocked hrest => ⟨?_, fun q hq => ?_⟩, ?_, fun c hc _ => ⟨?_, fun q hq => ?_⟩⟩
  · obtain rfl := Multiset.mem_singleton.mp hq
    refine ⟨Nat.le_refl _, hle.trans hkey.length_le, hsame.onDevice.mpr ?_, not_mem_nil⟩
    change OnDevice t (tokenIds.take found.deviceIndices.length)
      (found.deviceIndices.take found.deviceIndices.length) found.lastDeviceNode
    rw [htake, take_length]
    exact hplace
  · rw [zero_add] at hlocked
    rw [Multiset.singleton_add]
    exact (hlocked.grows hs ht hgrows fun q hq => (hrest q hq).mem hs).acquire hlocks
  · exact ((hrest q hq).keeps hgrows.keeps).keeps (.of_sameStored hsame)
  · have hown : (found.request tokenIds).ownSlots = [] := drop_length
    rw [ownSlots_singleton, hown, hsame.treeSlots, hgrows.slots, ownSlots_zero]
    simp only [Multiset.coe_nil, add_zero]
  · rw [hsame.deviceMap, hsplit.deviceMap]
    exact hc
  · obtain rfl := Multiset.mem_singleton.mp hq
    have hdescribes := hc _ _ (hpaged.held_eq key)
    rw [← hfound] at hdescribes
    refine hdescribes.of_take ?_
    rw [← hlen, take_take, Nat.min_self]
    exact htake.symm

/-- What is done for no request. -/
theorem Handled.aside (ht : Ready t) (hlocked : ∀ reqs, Locked s reqs → (∀ req ∈ reqs, Serves s req) →
      Locked t reqs ∧ ∀ req ∈ reqs, Serves t req)
    (hslots : t.treeSlots + freed = s.treeSlots)
    (hfaithful : ∀ c, Faithful c s.deviceMap → Faithful c t.deviceMap) : Handled s 0 t 0 freed := by
  refine ⟨ht, fun q hq => absurd hq (Multiset.notMem_zero q), fun rest => ?_, ?_,
    fun c hc _ => ⟨hfaithful c hc, fun q hq => absurd hq (Multiset.notMem_zero q)⟩⟩
  · rw [zero_add]
    exact hlocked rest
  · rw [hslots]

/-- A lookup on its own. -/
theorem Ready.lookup (hs : Ready s) (hcache : cache.Bare) (key : Key) :
    ∃ t found, cache.matchPrefix s key = some (t, found) ∧ Handled s 0 t 0 [] := by
  obtain ⟨t, found, hrun, hsplit, -, -⟩ := hs.matchPrefix hcache key
  obtain ⟨ht, hgrows⟩ := hs.split hsplit
  refine ⟨t, found, hrun, .aside ht (fun reqs hlocked hreqs => ⟨?_, fun q hq => ?_⟩) ?_ fun c hc => ?_⟩
  · exact hlocked.grows hs ht hgrows fun q hq => (hreqs q hq).mem hs
  · exact (hreqs q hq).keeps hgrows.keeps
  · rw [hsplit.treeSlots, Multiset.coe_nil, add_zero]
  · exact hsplit.deviceMap ▸ hc

/-- The node of a request is locked. -/
theorem Locked.not_deviceLeaf {reqs : Multiset Req} (h : Locked s reqs) (hs : Ready s) (hreq : req ∈ reqs)
    (hserves : Serves s req) (hleaf : s.isDeviceLeaf i = true) : req.lastNode ≠ i := by
  rintro rfl
  have hmem := hserves.mem hs
  have hne : req.lastNode ≠ s.rootNode := by
    intro he
    rw [isDeviceLeaf, if_pos (.inl he)] at hleaf
    cases hleaf
  have hpath := (hs.radix.wellFormed.path_complete hmem).1.resolve_left hne
  have hpos : 0 < holders s reqs req.lastNode := Multiset.countP_pos.mpr ⟨req, hreq, hpath⟩
  have hlock : 1 ≤ s.lock req.lastNode := Int.le_trans (Int.ofNat_le.mpr hpos) (h _ hmem hne).1
  rw [isDeviceLeaf_of_locked hlock] at hleaf
  cases hleaf

theorem Ready.exists_onDevice (hs : Ready s) (hi : i ∈ s.nodeArena) : ∃ k v, OnDevice s k v i := by
  have hwf := hs.radix.wellFormed
  obtain ⟨rank, hrank⟩ := hwf.ranked
  induction hn : rank i using Nat.strong_induction_on generalizing i with
  | _ n ih =>
    by_cases hroot : i = s.rootNode
    · exact ⟨[], [], hroot ▸ .refl _⟩
    · obtain ⟨p, hp, hparent, hlookup⟩ := hwf.parent i hi hroot
      obtain ⟨k, v, hk⟩ := ih (rank p) (hn ▸ hrank i hi p hparent) hp rfl
      obtain ⟨w, hw⟩ := Option.isSome_iff_exists.mp (hs.plain.resident i hi)
      exact ⟨_, _, hk.snoc ⟨hp, hlookup, hw⟩⟩

/-- **A leaf is evicted**, and no request has it. -/
theorem Ready.evict (hs : Ready s) (d : Drivers) (hi : i ∈ s.nodeArena) (hleaf : s.isDeviceLeaf i = true) :
    ∃ t, s.evictDeviceLeaf d i false = some t ∧ Handled s 0 t 0 ((s.deviceValue i).getD []) ∧
      t.nodeArena = s.nodeArena.erase i := by
  obtain ⟨p, hp⟩ := Leaf.of_isDeviceLeaf hs.radix hs.stored hs.plain hi hleaf
  obtain ⟨t, hrun, hremoved⟩ := hp.evictDeviceLeaf d hs.plain hleaf
  obtain ⟨w, hw⟩ := Option.isSome_iff_exists.mp (hs.plain.resident i hi)
  obtain ⟨k₀, v₀, hk₀⟩ := hs.exists_onDevice hp.mem
  have ht : Ready t :=
    ⟨hremoved.radix hp, hremoved.stored hp, hremoved.plain hs.plain, hremoved.components ▸ hs.nodup⟩
  refine ⟨t, hrun, .aside ht (fun reqs hlocked hreqs => ⟨fun x hx hne => ?_, fun q hq => ?_⟩) ?_
    fun c hc k v hv => ?_, hremoved.nodeArena⟩
  · obtain ⟨hxi, hx⟩ := hremoved.mem_iff.mp hx
    have hholders : holders t reqs x = holders s reqs x :=
      Multiset.countP_congr rfl fun q _ => by rw [path_congr hremoved.parent hremoved.counter]
    have hlock : t.lock x = s.lock x := congrArg ComponentData.lockRef (hremoved.data hxi .full)
    have hpinned : (t.nodes x).pinned = (s.nodes x).pinned := by rw [hremoved.nodes x hxi]
    rw [hholders, hlock, hpinned]
    exact hlocked x hx (hremoved.rootNode ▸ hne)
  · have hq' := hreqs q hq
    exact ⟨hq'.le_row, hq'.le_tokens, (hremoved.hangs hp hw).of_ne hq'.place
      (hlocked.not_deviceLeaf hs hq hq' hleaf), hq'.skip⟩
  · rw [hremoved.treeSlots hp hw, hw, Option.getD_some]
  · rw [hremoved.deviceMap hp hk₀ hw] at hv
    exact faithful_prune hc k v hv

/-- **What an eviction takes from the map** are the keys that lead into the leaf, from its first page on. -/
theorem evict_prunes (hs : Ready s) (d : Drivers) (hi : i ∈ s.nodeArena) (hleaf : s.isDeviceLeaf i = true) :
    ∃ t k v, s.evictDeviceLeaf d i false = some t ∧ OnDevice s (k ++ (s.nodes i).key) v i ∧
      t.deviceMap = prune (k ++ s.childKey (s.nodes i).key) s.deviceMap := by
  obtain ⟨p, hp⟩ := Leaf.of_isDeviceLeaf hs.radix hs.stored hs.plain hi hleaf
  obtain ⟨t, hrun, hremoved⟩ := hp.evictDeviceLeaf d hs.plain hleaf
  obtain ⟨k, v, hk⟩ := hs.exists_onDevice hp.mem
  obtain ⟨w, hw⟩ := Option.isSome_iff_exists.mp (hs.plain.resident i hi)
  exact ⟨t, k, _, hrun, hk.snoc ⟨hp.mem, hp.isChild.lookup, hw⟩, hremoved.deviceMap hp hk hw⟩

theorem oneLeaf_ready : Ready oneLeaf := by
  refine ⟨oneLeaf_spec.1, oneLeaf_spec.2, ?_, nodup_singleton _⟩
  have hreset : Plain (.reset .plain [.full] 1) :=
    ⟨fun i hi => mem_reset hi ▸ rfl, fun i hi => mem_reset hi ▸ rfl⟩
  have hradix : Radix (.reset .plain [.full] 1) := radix_reset (mem_singleton_self _) Nat.one_pos
  exact hreset.addNewNode hradix.wellFormed (p := 0) (k := [5, 6]) (w := [7, 8]) rfl

theorem evict_prunes_oneLeaf : ∃ t k v, oneLeaf.evictDeviceLeaf freeing 1 false = some t ∧
    OnDevice oneLeaf (k ++ (oneLeaf.nodes 1).key) v 1 ∧
      t.deviceMap = prune (k ++ oneLeaf.childKey (oneLeaf.nodes 1).key) oneLeaf.deviceMap :=
  evict_prunes oneLeaf_ready freeing (by decide) rfl

/-- **Where no leaf can go, everything is held**: below each node there is a locked one. -/
theorem Ready.locked_below (hs : Ready s) (hnone : ∀ i ∈ s.nodeArena, s.isDeviceLeaf i = false)
    {x : NodeId} (hx : x ∈ s.nodeArena) (hne : x ≠ s.rootNode) :
    ∃ y ∈ s.nodeArena, Above s x y ∧ ∃ c, 0 < (s.data y c).lockRef := by
  classical
  have hwf := hs.radix.wellFormed
  obtain ⟨rank, hrank⟩ := hwf.ranked
  obtain ⟨p, -, hp, -⟩ := hwf.parent x hx hne
  -- the lowest node below it has no children
  obtain ⟨y, hy, hlowest⟩ := Finset.exists_max_image (s.nodeArena.filter (Above s x)) rank
    ⟨x, Finset.mem_filter.mpr ⟨hx, .self hp⟩⟩
  obtain ⟨hy, habove⟩ := Finset.mem_filter.mp hy
  refine ⟨y, hy, habove, ?_⟩
  have hchildren : (s.nodes y).children = [] := by
    refine List.eq_nil_iff_forall_not_mem.mpr fun e he => ?_
    have hmem := hwf.children y hy e he
    have hparent := (hs.radix.entry y hy e he).2
    have hle := hlowest e.2 (Finset.mem_filter.mpr ⟨hmem, .up hparent habove⟩)
    exact Nat.lt_irrefl _ ((hrank e.2 hmem y hparent).trans_le hle)
  have hroot : y ≠ s.rootNode := by
    rintro rfl
    exact not_above_root hwf habove
  have hevicted : (s.nodes y).evicted = false := by
    obtain ⟨w, hw⟩ := Option.isSome_iff_exists.mp (hs.plain.resident y hy)
    rw [deviceValue, data] at hw
    rw [UnifiedTreeNode.evicted, hw, Option.isNone_some, Bool.and_false]
  have hleaf := hnone y hy
  rw [isDeviceLeaf, if_neg fun h => h.elim hroot fun h => (by rw [hevicted] at h; cases h)] at hleaf
  split at hleaf
  · next hlock =>
    obtain ⟨c, -, hc⟩ := List.any_eq_true.mp hlock
    exact ⟨c, of_decide_eq_true hc⟩
  · rw [hchildren] at hleaf
    cases hleaf

/-- **A pin** takes nothing from a request. -/
theorem Ready.pin (hs : Ready s) : Handled s 0 s.pinPrefix 0 [] := by
  have hpin := Pinning.pinPrefix s
  have hsame : SameStored s s.pinPrefix := ⟨hpin.shape, hpin.value⟩
  have ht : Ready s.pinPrefix := by
    refine ⟨hs.radix.of_sameShape hpin.shape, hsame.stored hs.stored, ?_, hpin.shape.components ▸ hs.nodup⟩
    exact hs.plain.of_data hpin.shape.nodeArena hpin.value hpin.hostValue
  refine .aside ht (fun reqs hlocked hreqs => ⟨fun x hx hne => ?_, fun q hq => ?_⟩) ?_ fun c hc => ?_
  · rw [hpin.shape.nodeArena] at hx
    rw [hpin.shape.rootNode] at hne
    obtain ⟨hle, heq⟩ := hlocked x hx hne
    rw [holders_sameShape hpin.shape]
    refine ⟨hle.trans (hpin.le x), fun hpinned => ?_⟩
    obtain ⟨hunpinned, hlock⟩ := hpin.unpinned x hpinned
    exact hlock.trans (heq hunpinned)
  · exact (hreqs q hq).keeps (.of_sameStored hsame)
  · rw [hsame.treeSlots, Multiset.coe_nil, add_zero]
  · exact hsame.deviceMap ▸ hc

end

end QwenStack.TreeCore
