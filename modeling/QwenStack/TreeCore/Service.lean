import Mathlib.Logic.Relation
import QwenStack.TreeCore.Serving

/-!
# Tree core — the cache in service

The cache, the pool of slots and the requests, as the scheduler runs them: requests arrive and are
computed, chunk by chunk, their slots go into the tree, leaves are evicted when slots are short, and all of
this in any order.  `contents` is what the cache is for and what it never looks at: for which tokens the
keys and values of a slot were computed.

The runs are those of a cache of `FULL` alone: its validators accept every node that has slots
(`UnifiedRadixCache.Bare`), and a component's cache length is not below the protected prefix.

In every state that is reached each slot of the pool is in one place (`run_slots`), a request reads the
slots of its own tokens (`run_contents`), no assertion fails (`run_nothing_raises`), and the locks are
those of the requests (`run_locks`).
-/

namespace QwenStack.TreeCore
open Assoc UnifiedTreeCore Prefixes List

structure Service where
  core : UnifiedTreeCore
  free : Multiset Nat
  reqs : Multiset Req
  /-- The tokens that a slot was computed for, its own the last. -/
  contents : Nat → Key

namespace Service

/-- Nothing was served yet. -/
def start (cache : UnifiedRadixCache) (components : List ComponentType) (pageSize : Nat)
    (pool : Multiset Nat) : Service where
  core := .reset cache.radixKey components pageSize
  free := pool
  reqs := 0
  contents := fun _ => []

/-- A forward pass: slots are computed for the next tokens. -/
def compute (contents : Nat → Key) (tokenIds : Key) (first : Nat) (slots : Tensor) : Nat → Key := fun b =>
  if b ∈ slots then tokenIds.take (first + slots.idxOf b + 1) else contents b

/-- What the scheduler does. -/
inductive Step (cache : UnifiedRadixCache) (d : Drivers) : Service → Service → Prop
  | arrive {σ : Service} {key tokenIds : Key} {t u : UnifiedTreeCore} {found : MatchResult} :
      key <+: tokenIds → cache.matchPrefix σ.core key = some (t, found) →
      t.incLockRef found.lastDeviceNode [] = some u →
      Step cache d σ { σ with core := u, reqs := found.request tokenIds ::ₘ σ.reqs }
  | compute {σ : Service} {req : Req} {rest : Multiset Req} {slots : Tensor} {more : Key} :
      σ.reqs = req ::ₘ rest → (slots : Multiset Nat) ≤ σ.free →
      req.row.length + slots.length ≤ (req.tokenIds ++ more).length →
      Step cache d σ { σ with
        free := σ.free - slots
        reqs := { req with tokenIds := req.tokenIds ++ more, row := req.row ++ slots } ::ₘ rest
        contents := compute σ.contents (req.tokenIds ++ more) req.row.length slots }
  | unfinished {σ : Service} {req req' : Req} {rest : Multiset Req} {cacheLens : List (Option Nat)}
      {chunked : Bool} {t : UnifiedTreeCore} {freed : Tensor} :
      σ.reqs = req ::ₘ rest →
      (∀ cacheLen, some cacheLen ∈ cacheLens → req.cacheProtectedLen ≤ cacheLen) →
      cache.cacheUnfinishedReq σ.core req cacheLens chunked = some (t, req', freed) →
      Step cache d σ { σ with core := t, free := σ.free + freed, reqs := req' ::ₘ rest }
  | finished {σ : Service} {req req' : Req} {rest : Multiset Req} {isInsert : Bool} {kvLen : Nat}
      {cacheLens : List (Option Nat)} {t : UnifiedTreeCore} {freed : Tensor} :
      σ.reqs = req ::ₘ rest → req.cacheProtectedLen ≤ kvLen → kvLen ≤ req.row.length →
      (∀ cacheLen, some cacheLen ∈ cacheLens → req.cacheProtectedLen ≤ cacheLen) →
      cache.cacheFinishedReq σ.core req isInsert kvLen cacheLens = some (t, req', freed) →
      -- the scheduler frees what was allocated beyond
      Step cache d σ { σ with core := t, free := σ.free + (freed ++ req.row.drop kvLen : Tensor), reqs := rest }
  | lookup {σ : Service} {key : Key} {t : UnifiedTreeCore} {found : MatchResult} :
      cache.matchPrefix σ.core key = some (t, found) → Step cache d σ { σ with core := t }
  | evict {σ : Service} {i : NodeId} {t : UnifiedTreeCore} :
      i ∈ σ.core.nodeArena → σ.core.isDeviceLeaf i = true → σ.core.evictDeviceLeaf d i false = some t →
      -- a driver frees the slots that it takes from a node
      Step cache d σ { σ with core := t, free := σ.free + ((σ.core.deviceValue i).getD [] : Tensor) }
  | pin {σ : Service} : Step cache d σ { σ with core := σ.core.pinPrefix }

/-- What holds of a service. -/
structure Sound (pool : Multiset Nat) (σ : Service) : Prop where
  ready : Ready σ.core
  serves : ∀ req ∈ σ.reqs, Serves σ.core req
  locked : Locked σ.core σ.reqs
  slots : σ.core.treeSlots + σ.free + ownSlots σ.reqs = pool
  faithful : Faithful σ.contents σ.core.deviceMap
  describes : ∀ req ∈ σ.reqs, Describes σ.contents req.tokenIds req.row

end Service

/-! ### Where slots are -/

section
variable {s : UnifiedTreeCore} {i : NodeId} {k : Key} {v : Tensor} {b : Nat}

/-- The slots of a path are in the tree. -/
theorem OnDevice.mem_treeSlots (h : Radix s) (hi : OnDevice s k v i) (hv : b ∈ v) : b ∈ s.treeSlots := by
  induction hi using OnDevice.rec_snoc with
  | root => cases hv
  | @snoc k v p c w _ he ih =>
    obtain hv | hv := List.mem_append.mp hv
    · exact ih hv
    · refine Multiset.mem_sum.mpr ⟨c, (he.child h).mem, ?_⟩
      rw [he.value]
      exact hv

theorem mem_treeSlots_of_deviceMap (h : Radix s) (hs : Stored s) (hk : s.deviceMap k = some v)
    (hb : b ∈ v) : b ∈ s.treeSlots := by
  obtain ⟨k', v', i, hi, -, -, rfl⟩ := (deviceMap_eq_some_iff h hs).mp hk
  exact hi.mem_treeSlots h (mem_of_mem_take hb)

/-- The slots of a row are in the tree, or its own. -/
theorem Serves.mem_row {req : Req} {reqs : Multiset Req} (h : Serves s req) (hs : Ready s)
    (hreq : req ∈ reqs) (hb : b ∈ req.row) : b ∈ s.treeSlots ∨ b ∈ ownSlots reqs := by
  rw [← take_append_drop req.cacheProtectedLen req.row] at hb
  obtain hb | hb := List.mem_append.mp hb
  · exact .inl (h.place.mem_treeSlots hs.radix hb)
  · exact .inr (Multiset.mem_bind.mpr ⟨req, hreq, hb⟩)

end

/-! ### Steps -/

namespace Service

section
variable {cache : UnifiedRadixCache} {d : Drivers} {pool : Multiset Nat} {σ τ : Service}

/-- What the cache does keeps a service sound. -/
theorem Sound.handled (h : Sound pool σ) {before after rest : Multiset Req} {t : UnifiedTreeCore}
    {freed : Tensor} (hreqs : σ.reqs = before + rest) (ht : Handled σ.core before t after freed) :
    Sound pool { σ with core := t, free := σ.free + freed, reqs := after + rest } := by
  have hrest : ∀ req ∈ rest, Serves σ.core req := fun req hreq =>
    h.serves req (hreqs ▸ Multiset.mem_add.mpr (.inr hreq))
  obtain ⟨hlocked, hothers⟩ := ht.others rest (hreqs ▸ h.locked) hrest
  obtain ⟨hfaithful, hafter⟩ := ht.faithful σ.contents h.faithful fun req hreq =>
    h.describes req (hreqs ▸ Multiset.mem_add.mpr (.inl hreq))
  refine ⟨ht.ready, fun req hreq => ?_, hlocked, ?_, hfaithful, fun req hreq => ?_⟩
  · exact (Multiset.mem_add.mp hreq).elim (ht.served req) (hothers req)
  · have hslots := h.slots
    have hhandled := ht.slots
    rw [hreqs, ownSlots, Multiset.add_bind, ← ownSlots, ← ownSlots] at hslots
    rw [← hslots, ownSlots, Multiset.add_bind, ← ownSlots, ← ownSlots]
    calc t.treeSlots + (σ.free + freed) + (ownSlots after + ownSlots rest)
        = t.treeSlots + freed + ownSlots after + (σ.free + ownSlots rest) := by ac_rfl
      _ = σ.core.treeSlots + ownSlots before + (σ.free + ownSlots rest) := by rw [hhandled]
      _ = σ.core.treeSlots + σ.free + (ownSlots before + ownSlots rest) := by ac_rfl
  · exact (Multiset.mem_add.mp hreq).elim (hafter req) fun hreq =>
      h.describes req (hreqs ▸ Multiset.mem_add.mpr (.inr hreq))

/-- What is computed into free slots changes no other slot, and the new ones stand for their tokens. -/
theorem Sound.compute (h : Sound pool σ) (hpool : pool.Nodup) {req : Req} {rest : Multiset Req}
    {slots : Tensor} {more : Key} (hreqs : σ.reqs = req ::ₘ rest) (hslots : (slots : Multiset Nat) ≤ σ.free)
    (hlen : req.row.length + slots.length ≤ (req.tokenIds ++ more).length) :
    Sound pool { σ with
      free := σ.free - slots
      reqs := { req with tokenIds := req.tokenIds ++ more, row := req.row ++ slots } ::ₘ rest
      contents := Service.compute σ.contents (req.tokenIds ++ more) req.row.length slots } := by
  have hreq : req ∈ σ.reqs := hreqs ▸ Multiset.mem_cons_self req rest
  have hserves := h.serves req hreq
  have hall : (σ.core.treeSlots + σ.free + ownSlots σ.reqs).Nodup := h.slots.symm ▸ hpool
  obtain ⟨htreefree, -, hown⟩ := Multiset.nodup_add.mp hall
  obtain ⟨-, hfree, htree⟩ := Multiset.nodup_add.mp htreefree
  have hslotsnodup : slots.Nodup := Multiset.coe_nodup.mp (Multiset.nodup_of_le hslots hfree)
  -- a free slot is in no row and not in the tree
  have hnotTree {b : Nat} (hb : b ∈ slots) : b ∉ σ.core.treeSlots := fun hmem =>
    Multiset.disjoint_left.mp htree hmem (Multiset.mem_of_le hslots hb)
  have hnotRow {b : Nat} (hb : b ∈ slots) {q : Req} (hq : q ∈ σ.reqs) : b ∉ q.row := fun hmem =>
    ((h.serves q hq).mem_row h.ready hq hmem).elim (hnotTree hb) fun hmem =>
      Multiset.disjoint_left.mp hown (Multiset.mem_add.mpr (.inr (Multiset.mem_of_le hslots hb))) hmem
  have hsame {v : Tensor} (hv : ∀ b ∈ slots, b ∉ v) :
      ∀ b ∈ v, Service.compute σ.contents (req.tokenIds ++ more) req.row.length slots b = σ.contents b :=
    fun b hb => if_neg fun hmem => hv b hmem hb
  refine ⟨h.ready, fun q hq => ?_, ?_, ?_, fun k v hv => ?_, fun q hq => ?_⟩
  · obtain rfl | hq := Multiset.mem_cons.mp hq
    · refine ⟨?_, ?_, ?_, hserves.skip⟩
      · rw [length_append]
        exact hserves.le_row.trans (Nat.le_add_right _ _)
      · rw [length_append]
        exact hlen
      · dsimp only
        rw [take_append_of_le_length (hserves.le_row.trans hserves.le_tokens),
          take_append_of_le_length hserves.le_row]
        exact hserves.place
    · exact h.serves q (hreqs ▸ Multiset.mem_cons_of_mem hq)
  · refine (hreqs ▸ h.locked).relocks (.refl σ.core) fun x => ?_
    rw [holders_cons, holders_cons, Int.add_zero]
  · have hnew : ({ req with tokenIds := req.tokenIds ++ more, row := req.row ++ slots } : Req).ownSlots =
        req.ownSlots ++ slots := drop_append_of_le_length hserves.le_row
    have hslotsum := h.slots
    rw [hreqs, ownSlots, Multiset.cons_bind, ← ownSlots] at hslotsum
    rw [ownSlots, Multiset.cons_bind, ← ownSlots, hnew, ← Multiset.coe_add, ← hslotsum]
    calc σ.core.treeSlots + (σ.free - slots) + (req.ownSlots + slots + ownSlots rest)
        = σ.core.treeSlots + (σ.free - slots + slots) + (req.ownSlots + ownSlots rest) := by ac_rfl
      _ = σ.core.treeSlots + σ.free + (req.ownSlots + ownSlots rest) := by
          rw [Multiset.sub_add_cancel hslots]
  · exact (h.faithful k v hv).congr (hsame fun b hb hmem =>
      hnotTree hb (mem_treeSlots_of_deviceMap h.ready.radix h.ready.stored hv hmem))
  · obtain rfl | hq := Multiset.mem_cons.mp hq
    · have hrow := (h.describes req hreq).congr (hsame fun b hb => hnotRow hb hreq)
      refine Describes.append (hrow.of_take ?_) fun n b hb => ?_
      · exact (take_append_of_le_length hserves.le_tokens).symm
      · obtain ⟨hn, rfl⟩ := List.getElem?_eq_some_iff.mp hb
        refine (if_pos (getElem_mem hn)).trans ?_
        rw [hslotsnodup.idxOf_getElem]
    · have hq' : q ∈ σ.reqs := hreqs ▸ Multiset.mem_cons_of_mem hq
      exact (h.describes q hq').congr (hsame fun b hb => hnotRow hb hq')

/-- **A step keeps a service sound.** -/
theorem Sound.step (h : Sound pool σ) (hpool : pool.Nodup) (hcache : cache.Bare)
    (hstep : Step cache d σ τ) : Sound pool τ := by
  have hnil (σ : Service) (t : UnifiedTreeCore) (reqs : Multiset Req) :
      { σ with core := t, free := σ.free + ([] : Tensor), reqs := reqs } =
        { σ with core := t, reqs := reqs } := by
    rw [Multiset.coe_nil, add_zero]
  cases hstep with
  | @arrive key tokenIds t u found hkey hrun hinc =>
    obtain ⟨t', found', u', hrun', hinc', hhandled⟩ := h.ready.arrive hcache hkey
    obtain ⟨rfl, rfl⟩ := Prod.mk.inj (Option.some.inj (hrun.symm.trans hrun'))
    cases hinc.symm.trans hinc'
    have hsound := h.handled (zero_add σ.reqs).symm hhandled
    rwa [hnil, Multiset.singleton_add] at hsound
  | compute hreqs hslots hlen => exact h.compute hpool hreqs hslots hlen
  | @unfinished req req' rest cacheLens chunked t freed hreqs hlens hrun =>
    have hserves := h.serves req (hreqs ▸ Multiset.mem_cons_self req rest)
    obtain ⟨t', req'', freed', hrun', hhandled, -⟩ :=
      hserves.cacheUnfinishedReq h.ready hcache hlens chunked
    obtain ⟨rfl, hpair⟩ := Prod.mk.inj (Option.some.inj (hrun.symm.trans hrun'))
    cases hpair
    have hsound := h.handled (hreqs.trans (Multiset.singleton_add req rest).symm) hhandled
    rwa [Multiset.singleton_add] at hsound
  | @finished req req' rest isInsert kvLen cacheLens t freed hreqs hkv hkv' hlens hrun =>
    have hserves := h.serves req (hreqs ▸ Multiset.mem_cons_self req rest)
    obtain ⟨t', req'', freed', hrun', hhandled⟩ :=
      hserves.cacheFinishedReq h.ready hcache isInsert hkv hkv' hlens
    obtain ⟨rfl, hpair⟩ := Prod.mk.inj (Option.some.inj (hrun.symm.trans hrun'))
    cases hpair
    have hsound := h.handled (hreqs.trans (Multiset.singleton_add req rest).symm) hhandled
    rwa [zero_add] at hsound
  | @lookup key t found hrun =>
    obtain ⟨t', found', hrun', hhandled⟩ := h.ready.lookup hcache key
    obtain ⟨rfl, -⟩ := Prod.mk.inj (Option.some.inj (hrun.symm.trans hrun'))
    have hsound := h.handled (zero_add σ.reqs).symm hhandled
    rwa [hnil, zero_add] at hsound
  | @evict i t hi hleaf hrun =>
    obtain ⟨t', hrun', hhandled, -⟩ := h.ready.evict d hi hleaf
    cases hrun.symm.trans hrun'
    have hsound := h.handled (zero_add σ.reqs).symm hhandled
    rwa [zero_add] at hsound
  | pin =>
    have hsound := h.handled (zero_add σ.reqs).symm h.ready.pin
    rwa [hnil, zero_add] at hsound

/-- A cache that was reset is sound. -/
theorem sound_start {components : List ComponentType} {pageSize : Nat} (hfull : .full ∈ components)
    (hnodup : components.Nodup) (hpage : 0 < pageSize) (pool : Multiset Nat) :
    Sound pool (start cache components pageSize pool) := by
  have hradix : Radix (.reset cache.radixKey components pageSize) := radix_reset hfull hpage
  have hstored : Stored (.reset cache.radixKey components pageSize) := stored_reset
  have hplain : Plain (.reset cache.radixKey components pageSize) := by
    refine ⟨fun i hi => ?_, fun i hi => ?_⟩
    · obtain rfl := mem_reset hi
      rfl
    · obtain rfl := mem_reset hi
      rfl
  refine ⟨⟨hradix, hstored, hplain, hnodup⟩, fun req hreq => absurd hreq (Multiset.notMem_zero req),
    fun x hx hne => absurd (mem_reset hx) hne, ?_, fun k v hv => ?_,
    fun req hreq => absurd hreq (Multiset.notMem_zero req)⟩
  · change (∑ i ∈ ({0} : Finset NodeId), _) + pool + ownSlots 0 = pool
    rw [Finset.sum_singleton, ownSlots_zero, add_zero]
    exact zero_add pool
  · obtain ⟨k', v', i, hi, -, -, rfl⟩ := (deviceMap_eq_some_iff hradix hstored).mp hv
    cases hi with
    | refl =>
      rw [take_nil]
      exact describes_nil _ k
    | step he _ => cases he.lookup

/-! ### Runs -/

/-- What the scheduler has made of a cache that was reset. -/
def Run (cache : UnifiedRadixCache) (d : Drivers) (components : List ComponentType) (pageSize : Nat)
    (pool : Multiset Nat) : Service → Prop :=
  Relation.ReflTransGen (Step cache d) (start cache components pageSize pool)

variable {components : List ComponentType} {pageSize : Nat}

/-- How a cache is set up: without a host tier, with slots that are all different. -/
structure Setup (cache : UnifiedRadixCache) (components : List ComponentType) (pageSize : Nat)
    (pool : Multiset Nat) : Prop where
  bare : cache.Bare
  full : .full ∈ components
  nodup : components.Nodup
  pageSize_pos : 0 < pageSize
  pool_nodup : pool.Nodup

theorem Run.sound (hrun : Run cache d components pageSize pool σ)
    (hsetup : Setup cache components pageSize pool) : Sound pool σ := by
  induction hrun with
  | refl => exact sound_start hsetup.full hsetup.nodup hsetup.pageSize_pos pool
  | tail _ hstep ih => exact ih.step hsetup.pool_nodup hsetup.bare hstep

/-- A cache of `FULL` alone. -/
def fullCache : UnifiedRadixCache :=
  { radixKey := .plain, validators := fullValidator, deviceValidators := fullValidator }

theorem setup_fullCache : Setup fullCache [.full] 1 {7, 8, 9} where
  bare := ⟨fun _ _ => rfl, fun _ _ h => h, fun _ _ h => h⟩
  full := mem_singleton_self _
  nodup := nodup_singleton _
  pageSize_pos := Nat.one_pos
  pool_nodup := by decide

/-- A request was computed and cached, and another begins with two of its slots. -/
theorem shared : ∃ (σ : Service) (req req' : Req), Run fullCache freeing [.full] 1 {7, 8, 9} σ ∧ σ.reqs = {req, req'} ∧
    req.row = [8, 9] ∧ req'.row = [8, 9] := by
  have harrive : Step fullCache freeing (start fullCache [.full] 1 {7, 8, 9}) _ :=
    .arrive (prefix_refl [1, 2]) rfl rfl
  refine ⟨_, _, _, (((Relation.ReflTransGen.single harrive).tail
    (@Step.compute _ _ _ _ 0 [8, 9] [] rfl ?_ ?_)).tail
    (@Step.unfinished _ _ _ _ _ 0 [] false _ _ rfl ?_ rfl)).tail
    (.arrive (prefix_refl [1, 2, 3]) rfl rfl), rfl, rfl, rfl⟩
  · decide
  · decide
  · intro n hn
    cases hn

/-- **Each slot of the pool is in one place**: in the tree once, free, or one request's own; and what a
request reads is not free. -/
theorem run_slots (hrun : Run cache d components pageSize pool σ)
    (hsetup : Setup cache components pageSize pool) :
    σ.core.treeSlots + σ.free + ownSlots σ.reqs = pool ∧ ∀ req ∈ σ.reqs, ∀ b ∈ req.row, b ∉ σ.free := by
  have h := hrun.sound hsetup
  refine ⟨h.slots, fun req hreq b hb hfree => ?_⟩
  obtain ⟨htreefree, -, hown⟩ := Multiset.nodup_add.mp (h.slots.symm ▸ hsetup.pool_nodup)
  obtain ⟨-, -, htree⟩ := Multiset.nodup_add.mp htreefree
  obtain hmem | hmem := (h.serves req hreq).mem_row h.ready hreq hb
  · exact Multiset.disjoint_left.mp htree hmem hfree
  · exact Multiset.disjoint_left.mp hown (Multiset.mem_add.mpr (.inr hfree)) hmem

theorem run_slots_shared : ∃ (σ : Service) (req req' : Req), σ.reqs = {req, req'} ∧
    σ.core.treeSlots + σ.free + ownSlots σ.reqs = {7, 8, 9} ∧
      ∀ req ∈ σ.reqs, ∀ b ∈ req.row, b ∉ σ.free := by
  obtain ⟨σ, req, req', hrun, hreqs, -, -⟩ := shared
  exact ⟨σ, req, req', hreqs, run_slots hrun setup_fullCache⟩

/-- **A request reads what was computed for its own tokens**, whoever computed it. -/
theorem run_contents (hrun : Run cache d components pageSize pool σ)
    (hsetup : Setup cache components pageSize pool) :
    ∀ req ∈ σ.reqs, ∀ n b, req.row[n]? = some b → σ.contents b = req.tokenIds.take (n + 1) :=
  (hrun.sound hsetup).describes

theorem run_contents_shared : ∃ (σ : Service) (req req' : Req), σ.reqs = {req, req'} ∧ req'.row = [8, 9] ∧
    ∀ req ∈ σ.reqs, ∀ n b, req.row[n]? = some b → σ.contents b = req.tokenIds.take (n + 1) := by
  obtain ⟨σ, req, req', hrun, hreqs, -, hrow⟩ := shared
  exact ⟨σ, req, req', hreqs, hrow, run_contents hrun setup_fullCache⟩

/-- No assertion fails, on any request. -/
def Total (cache : UnifiedRadixCache) (d : Drivers) (σ : Service) : Prop :=
  (∀ req ∈ σ.reqs, ∀ cacheLens : List (Option Nat),
    (∀ cacheLen, some cacheLen ∈ cacheLens → req.cacheProtectedLen ≤ cacheLen) →
    (∀ chunked, (cache.cacheUnfinishedReq σ.core req cacheLens chunked).isSome = true) ∧
    ∀ isInsert kvLen, req.cacheProtectedLen ≤ kvLen → kvLen ≤ req.row.length →
      (cache.cacheFinishedReq σ.core req isInsert kvLen cacheLens).isSome = true) ∧
  (∀ key, ∃ t found, cache.matchPrefix σ.core key = some (t, found) ∧
    (t.incLockRef found.lastDeviceNode []).isSome = true) ∧
  ∀ i ∈ σ.core.nodeArena, σ.core.isDeviceLeaf i = true →
    (σ.core.evictDeviceLeaf d i false).isSome = true

/-- **Nothing raises**, at any time. -/
theorem run_nothing_raises (hrun : Run cache d components pageSize pool σ)
    (hsetup : Setup cache components pageSize pool) : Total cache d σ := by
  have h := hrun.sound hsetup
  refine ⟨fun req hreq cacheLens hlens => ⟨fun chunked => ?_, fun isInsert kvLen hkv hkv' => ?_⟩,
    fun key => ?_, fun i hi hleaf => ?_⟩
  · obtain ⟨t, req', freed, hdone, -⟩ :=
      (h.serves req hreq).cacheUnfinishedReq h.ready hsetup.bare hlens chunked
    rw [hdone]
    rfl
  · obtain ⟨t, req', freed, hdone, -⟩ :=
      (h.serves req hreq).cacheFinishedReq h.ready hsetup.bare isInsert hkv hkv' hlens
    rw [hdone]
    rfl
  · obtain ⟨t, found, u, hdone, hinc, -⟩ := h.ready.arrive hsetup.bare (prefix_refl key)
    exact ⟨t, found, hdone, by rw [hinc]; rfl⟩
  · obtain ⟨t, hdone, -, -⟩ := h.ready.evict d hi hleaf
    rw [hdone]
    rfl

theorem run_nothing_raises_shared : ∃ (σ : Service) (req req' : Req), σ.reqs = {req, req'} ∧
    Total fullCache freeing σ := by
  obtain ⟨σ, req, req', hrun, hreqs, -, -⟩ := shared
  exact ⟨σ, req, req', hreqs, run_nothing_raises hrun setup_fullCache⟩

/-- **Locks are the requests'**: a node is locked for each request at or below it, and a node that no pin
holds is locked for nothing else. -/
theorem run_locks (hrun : Run cache d components pageSize pool σ)
    (hsetup : Setup cache components pageSize pool) : Locked σ.core σ.reqs := (hrun.sound hsetup).locked

theorem run_locks_shared : ∃ (σ : Service) (req req' : Req), σ.reqs = {req, req'} ∧
    Locked σ.core σ.reqs := by
  obtain ⟨σ, req, req', hrun, hreqs, -, -⟩ := shared
  exact ⟨σ, req, req', hreqs, run_locks hrun setup_fullCache⟩

/-! ### Allocation -/

/-- What `evict_device_next_node` gives: a leaf, while fewer slots were evicted than asked for and there is
one. -/
structure Next (next : UnifiedTreeCore → Nat → Option NodeId) (numTokens : Nat) : Prop where
  leaf : ∀ {s tracker i}, next s tracker = some i → i ∈ s.nodeArena ∧ s.isDeviceLeaf i = true
  none : ∀ {s tracker}, Ready s → tracker < numTokens → next s tracker = none →
    ∀ i ∈ s.nodeArena, s.isDeviceLeaf i = false

theorem Sound.evictComponents (hpool : pool.Nodup) (hcache : cache.Bare) (d : Drivers)
    {next : UnifiedTreeCore → Nat → Option NodeId} {numTokens first : Nat} (hnext : Next next numTokens) :
    ∀ (fuel : Nat) {σ : Service} {tracker : Nat}, Sound pool σ → σ.free.card = first + tracker →
      σ.core.nodeArena.card < fuel → ∃ t free,
        UnifiedRadixCache.evictComponents d next (first + numTokens) fuel σ.core σ.free tracker =
          some (t, free) ∧
        Relation.ReflTransGen (Step cache d) σ { σ with core := t, free := free } ∧
        (first + numTokens ≤ free.card ∨ ∀ i ∈ t.nodeArena, t.isDeviceLeaf i = false) := by
  intro fuel
  induction fuel with
  | zero => exact fun _ _ hfuel => absurd hfuel (Nat.not_lt_zero _)
  | succ fuel ih =>
    intro σ tracker h hfree hfuel
    rw [UnifiedRadixCache.evictComponents]
    split
    · next htarget => exact ⟨σ.core, σ.free, rfl, .refl, .inl htarget⟩
    · next htarget =>
      cases hchosen : next σ.core tracker with
      | none => exact ⟨σ.core, σ.free, rfl, .refl, .inr (hnext.none h.ready (by omega) hchosen)⟩
      | some i =>
        obtain ⟨hi, hleaf⟩ := hnext.leaf hchosen
        obtain ⟨t, hrun, -, harena⟩ := h.ready.evict d hi hleaf
        have hstep : Step cache d σ _ := .evict hi hleaf hrun
        have hcard : t.nodeArena.card < fuel := by
          rw [harena, Finset.card_erase_of_mem hi]
          have hpos := Finset.card_pos.mpr ⟨i, hi⟩
          omega
        obtain ⟨u, free, hdone, hsteps, hend⟩ := ih
          (h.step hpool hcache hstep)
          (by rw [Multiset.card_add, Multiset.coe_card, hfree, Nat.add_assoc]) hcard
        dsimp only
        rw [hrun]
        exact ⟨u, free, hdone, .head hstep hsteps, hend⟩

/-- **Eviction for an allocation** ends with enough slots, or with nothing in the tree that is not held: it
only takes leaves that no request and no pin holds, so the requests are served on. -/
theorem run_evictForAlloc (hrun : Run cache d components pageSize pool σ)
    (hsetup : Setup cache components pageSize pool)
    {next : UnifiedTreeCore → Nat → Option NodeId} {numTokens : Nat} (hnext : Next next numTokens) :
    ∃ t free, UnifiedRadixCache.evictForAlloc d next σ.core σ.free numTokens = some (t, free) ∧
      Run cache d components pageSize pool { σ with core := t, free := free } ∧
      (σ.free.card + numTokens ≤ free.card ∨ ∀ x ∈ t.nodeArena, x ≠ t.rootNode →
        ∃ y ∈ t.nodeArena, Above t x y ∧ ∃ c, 0 < (t.data y c).lockRef) := by
  rw [UnifiedRadixCache.evictForAlloc]
  split
  · next hzero => exact ⟨σ.core, σ.free, rfl, hrun, .inl (by omega)⟩
  · obtain ⟨t, free, hdone, hsteps, hend⟩ := Sound.evictComponents hsetup.pool_nodup hsetup.bare d hnext
      (σ.core.nodeArena.card + 1) (hrun.sound hsetup) (Nat.add_zero σ.free.card).symm
      (Nat.lt_succ_self _)
    have hrun' : Run cache d components pageSize pool { σ with core := t, free := free } := hrun.trans hsteps
    refine ⟨t, free, hdone, hrun', hend.imp_right fun hnone x hx hne => ?_⟩
    exact (hrun'.sound hsetup).ready.locked_below hnone hx hne

/-- The leaf that was made first. -/
def firstLeaf (s : UnifiedTreeCore) (_ : Nat) : Option NodeId :=
  (List.range s.counter).find? fun i => decide (i ∈ s.nodeArena ∧ s.isDeviceLeaf i = true)

theorem next_firstLeaf (numTokens : Nat) : Next firstLeaf numTokens where
  leaf h := by
    rw [firstLeaf] at h
    have hfound := List.find?_some h
    exact of_decide_eq_true hfound
  none {s _} hs _ h i hi := by
    have hno := List.find?_eq_none.mp h i (List.mem_range.mpr (hs.radix.wellFormed.fresh i hi))
    exact Bool.eq_false_iff.mpr fun hleaf => hno (decide_eq_true ⟨hi, hleaf⟩)

theorem run_evictForAlloc_shared : ∃ (σ : Service) (req req' : Req), σ.reqs = {req, req'} ∧ ∃ t free,
    UnifiedRadixCache.evictForAlloc freeing firstLeaf σ.core σ.free 2 = some (t, free) ∧
      Run fullCache freeing [.full] 1 {7, 8, 9} { σ with core := t, free := free } ∧
      (σ.free.card + 2 ≤ free.card ∨ ∀ x ∈ t.nodeArena, x ≠ t.rootNode →
        ∃ y ∈ t.nodeArena, Above t x y ∧ ∃ c, 0 < (t.data y c).lockRef) := by
  obtain ⟨σ, req, req', hrun, hreqs, -, -⟩ := shared
  exact ⟨σ, req, req', hreqs, run_evictForAlloc hrun setup_fullCache (next_firstLeaf 2)⟩

end

end Service

end QwenStack.TreeCore
