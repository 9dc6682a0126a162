import QwenStack.Registry.Keyed
import QwenStack.Registry.Ring
import QwenStack.Support.Tables

/-!
# Registry — the indices agree

`Consistent` says that the five indices and the rings hold the registered workers and nothing else.
`register` keeps it as long as no worker is registered under the URL: its path for a URL that is
there replaces the worker object and files it a second time, and takes the old one out of nothing.
So a run stays consistent exactly when no call registers a URL that has a worker
(`run_consistent_iff`).

`Indexed` is the invariant behind it, over the registry and the ids drawn so far.
-/

namespace QwenStack.Registry
open Assoc List

/-- The indices hold each registered worker once, at its own place, and nothing else. -/
structure Consistent (r : WorkerRegistry) : Prop where
  model : ∀ id w, r.workers.lookup id = some w → (r.getByModel w.modelId).count w = 1
  type : ∀ id w, r.workers.lookup id = some w → (slot r.typeWorkers w.workerType).count id = 1
  connection : ∀ id w, r.workers.lookup id = some w →
    (slot r.connectionWorkers w.connectionMode).count id = 1
  ring : ∀ id w, r.workers.lookup id = some w → ∃ ring, r.getHashRing w.modelId = some ring ∧
    ring.entries.countP (fun e => decide (e.2 = w.url)) = virtualNodesPerWorker
  url : ∀ id w, r.workers.lookup id = some w → r.urlToId.lookup w.url = some id
  modelOnly : ∀ model w, w ∈ r.getByModel model →
    w.modelId = model ∧ ∃ id, r.workers.lookup id = some w
  typeOnly : ∀ t id, id ∈ slot r.typeWorkers t →
    ∃ w, r.workers.lookup id = some w ∧ w.workerType = t
  connectionOnly : ∀ c id, id ∈ slot r.connectionWorkers c →
    ∃ w, r.workers.lookup id = some w ∧ w.connectionMode = c
  ringOnly : ∀ model ring e, r.getHashRing model = some ring → e ∈ ring.entries →
    ∃ id w, r.workers.lookup id = some w ∧ w.modelId = model ∧ w.url = e.2

/-- The id is that of a worker with this property. -/
def HasWorker (r : WorkerRegistry) (p : Worker → Prop) (id : WorkerId) : Prop :=
  ∃ w, r.workers.lookup id = some w ∧ p w

/-- What the calls keep. -/
structure Indexed (blake3 : Blake3) (uuid : Nat → WorkerId) (s : State) : Prop where
  ids : (keys s.registry.workers).Nodup
  url : ∀ id w, s.registry.workers.lookup id = some w → s.registry.urlToId.lookup w.url = some id
  injective : ∀ u v id, s.registry.urlToId.lookup u = some id →
    s.registry.urlToId.lookup v = some id → u = v
  drawn : ∀ u id, s.registry.urlToId.lookup u = some id → ∃ n < s.drawn, id = uuid n
  models : Exact s.registry.modelIndex fun model w => w.modelId = model ∧ Registered s.registry w
  types : Exact s.registry.typeWorkers fun t => HasWorker s.registry (·.workerType = t)
  connections : Exact s.registry.connectionWorkers fun c =>
    HasWorker s.registry (·.connectionMode = c)
  rings : ∀ model, s.registry.hashRings.lookup model =
    (s.registry.modelIndex.lookup model).map (HashRing.new blake3)

/-! ### Rings -/

section
variable {blake3 : Blake3} {r : WorkerRegistry}

/-- The entries of a URL on a ring. -/
theorem countP_entries (blake3 : Blake3) (workers : List Worker) (url : Url) :
    (HashRing.new blake3 workers).entries.countP (fun e => decide (e.2 = url)) =
      virtualNodesPerWorker * (workers.map Worker.url).count url := by
  have one : ∀ u, (virtualNodes blake3 u).countP (fun e => decide (e.2 = url)) =
      virtualNodesPerWorker * if u = url then 1 else 0 := by
    intro u
    rw [virtualNodes, countP_map]
    split
    · next h => simp [Function.comp_def, h]
    · next h => simp [Function.comp_def, h]
  rw [(entries_perm blake3 workers).countP_eq]
  induction workers with
  | nil => rfl
  | cons w workers ih =>
    rw [map_cons, flatMap_cons, countP_append, one, ih, count_cons]
    simp only [beq_iff_eq, Nat.mul_add]
    exact Nat.add_comm _ _

/-- Rebuilding the ring of the one model whose workers changed. -/
theorem lookup_rebuildHashRing {model : ModelId} (h : ∀ model', model' ≠ model →
      r.hashRings.lookup model' = (r.modelIndex.lookup model').map (HashRing.new blake3))
    (model' : ModelId) :
    (r.rebuildHashRing blake3 model).hashRings.lookup model' =
      (r.modelIndex.lookup model').map (HashRing.new blake3) := by
  rw [WorkerRegistry.rebuildHashRing]
  by_cases hm : model' = model
  · subst hm
    cases hl : r.modelIndex.lookup model' with
    | some ws => simp only [lookup_put, if_true, Option.map_some]
    | none => simp only [lookup_del, if_true, Option.map_none]
  · cases hl : r.modelIndex.lookup model with
    | some ws => simp only [lookup_put, if_neg hm, h model' hm]
    | none => simp only [lookup_del, if_neg hm, h model' hm]

end

/-! ### Rings after a call -/

section
variable {blake3 : Blake3} {fresh id : WorkerId} {worker : Worker} {r : WorkerRegistry}

theorem register_rings
    (h : ∀ model, r.hashRings.lookup model = (r.modelIndex.lookup model).map (HashRing.new blake3))
    (model : ModelId) : (r.register blake3 fresh worker).1.hashRings.lookup model =
      ((r.register blake3 fresh worker).1.modelIndex.lookup model).map (HashRing.new blake3) := by
  rw [register_modelIndex]
  refine lookup_rebuildHashRing (fun model' hm => ?_) model
  simp only [lookup_upsert, if_neg hm, h model']

theorem remove_rings (hw : r.workers.lookup id = some worker)
    (h : ∀ model, r.hashRings.lookup model = (r.modelIndex.lookup model).map (HashRing.new blake3))
    (model : ModelId) : (r.remove blake3 id).1.hashRings.lookup model =
      ((r.remove blake3 id).1.modelIndex.lookup model).map (HashRing.new blake3) := by
  rw [(remove_eq hw).2.2.1]
  simp only [WorkerRegistry.remove, hw]
  refine lookup_rebuildHashRing (fun model' hm => ?_) model
  simp only [lookup_andModify, if_neg hm, h model']

end

/-! ### The invariant -/

namespace Indexed
variable {blake3 : Blake3} {uuid : Nat → WorkerId} {s : State}

theorem init : Indexed blake3 uuid ⟨WorkerRegistry.new, 0⟩ where
  ids := nodup_nil
  url _ _ h := (nomatch h)
  injective _ _ _ h := (nomatch h)
  drawn _ _ h := (nomatch h)
  models _ := ⟨nodup_nil, fun _ => iff_of_false (fun h => (nomatch h)) fun ⟨_, _, h⟩ => (nomatch h)⟩
  types _ := ⟨nodup_nil, fun _ => iff_of_false (fun h => (nomatch h)) fun ⟨_, h, _⟩ => (nomatch h)⟩
  connections _ :=
    ⟨nodup_nil, fun _ => iff_of_false (fun h => (nomatch h)) fun ⟨_, h, _⟩ => (nomatch h)⟩
  rings _ := rfl

theorem keyed (h : Indexed blake3 uuid s) : Keyed uuid s := ⟨h.ids, h.url, h.injective, h.drawn⟩

end Indexed

/-! ### Registering a URL that has no worker -/

section
variable {blake3 : Blake3} {fresh : WorkerId} {worker : Worker} {r : WorkerRegistry}

theorem lookup_register (hnew : r.workers.lookup (registerId r fresh worker) = none)
    (id : WorkerId) (w : Worker) :
    (r.register blake3 fresh worker).1.workers.lookup id = some w ↔
      r.workers.lookup id = some w ∨ id = registerId r fresh worker ∧ w = worker := by
  rw [register_workers, lookup_put]
  split
  · next he => simp [he, hnew, eq_comm]
  · next he => simp [he]

theorem registered_register (hnew : r.workers.lookup (registerId r fresh worker) = none)
    (w : Worker) :
    Registered (r.register blake3 fresh worker).1 w ↔ Registered r w ∨ w = worker := by
  simp only [Registered, lookup_register hnew, exists_or, exists_eq_left]

/-- An index of ids by what their workers are, after `register`. -/
theorem exact_register {κ : Type} [DecidableEq κ] {m : List (κ × List WorkerId)} (f : Worker → κ)
    (hnew : r.workers.lookup (registerId r fresh worker) = none)
    (h : Exact m fun k => HasWorker r (f · = k)) :
    Exact (upsert (f worker) (· ++ [registerId r fresh worker]) [registerId r fresh worker] m)
      fun k => HasWorker (r.register blake3 fresh worker).1 (f · = k) := by
  have hno : ¬ HasWorker r (f · = f worker) (registerId r fresh worker) := by
    rintro ⟨w, hw, -⟩
    rw [hnew] at hw
    cases hw
  refine (h.add hno).congr fun k id => ?_
  simp only [HasWorker, lookup_register hnew, or_and_right, exists_or, and_assoc, exists_eq_left,
    and_comm (a := id = _), eq_comm (a := k)]

end

namespace Indexed
variable {blake3 : Blake3} {uuid : Nat → WorkerId} {s : State}

/-- **Registering a URL that has no worker.** -/
theorem register (h : Indexed blake3 uuid s) (hinj : Function.Injective uuid) {worker : Worker}
    (hno : s.registry.getByUrl worker.url = none) :
    Indexed blake3 uuid (s.call blake3 uuid (.register worker)) := by
  have hnew := h.keyed.lookup_registerId hinj hno
  have hfree : ∀ id w, s.registry.workers.lookup id = some w → w.url ≠ worker.url := by
    intro id w hw he
    have := h.keyed.getByUrl hw
    rw [he, hno] at this
    cases this
  obtain ⟨hids, hurl, hinjective, hdrawn⟩ := @Keyed.register blake3 _ _ h.keyed hinj worker
  refine ⟨hids, hurl, hinjective, hdrawn, ?_, ?_, ?_, fun model => register_rings h.rings model⟩
  · have hfiled := h.models.add (k := worker.modelId) (x := worker) fun ⟨_, id, hw⟩ =>
      hfree id worker hw rfl
    simp only [State.call, register_modelIndex]
    refine hfiled.congr fun model w => ?_
    rw [registered_register hnew]
    constructor
    · rintro (⟨hm, hw⟩ | ⟨rfl, rfl⟩)
      · exact ⟨hm, Or.inl hw⟩
      · exact ⟨rfl, Or.inr rfl⟩
    · rintro ⟨hm, hw | rfl⟩
      · exact Or.inl ⟨hm, hw⟩
      · exact Or.inr ⟨hm.symm, rfl⟩
  · simp only [State.call, register_typeWorkers]
    exact exact_register Worker.workerType hnew h.types
  · simp only [State.call, register_connectionWorkers]
    exact exact_register Worker.connectionMode hnew h.connections

end Indexed

/-! ### Removing -/

section
variable {blake3 : Blake3} {id : WorkerId} {worker : Worker} {r : WorkerRegistry}

/-- An index of ids by what their workers are, after `remove`. -/
theorem exact_remove {κ : Type} [DecidableEq κ] {m : List (κ × List WorkerId)} (f : Worker → κ)
    (hw : r.workers.lookup id = some worker) (h : Exact m fun k => HasWorker r (f · = k)) :
    Exact (andModify (f worker) (fun ids => ids.filter fun i => decide (i ≠ id)) m)
      fun k => HasWorker (r.remove blake3 id).1 (f · = k) := by
  refine (h.filter _).congr fun k id' => ?_
  simp only [HasWorker, lookup_remove hw, decide_eq_true_eq]
  constructor
  · rintro ⟨⟨w, hw', rfl⟩, hkeep⟩
    refine ⟨w, ⟨hw', ?_⟩, rfl⟩
    rintro rfl
    cases hw.symm.trans hw'
    exact hkeep rfl rfl
  · rintro ⟨w, ⟨hw', hne⟩, rfl⟩
    exact ⟨⟨w, hw', rfl⟩, fun _ => hne⟩

end

namespace Indexed
variable {blake3 : Blake3} {uuid : Nat → WorkerId} {s : State}

variable (h : Indexed blake3 uuid s)
include h

theorem remove (id : WorkerId) :
    Indexed blake3 uuid ⟨(s.registry.remove blake3 id).1, s.drawn⟩ := by
  cases hw : s.registry.workers.lookup id with
  | none =>
    rw [remove_none hw]
    exact h
  | some worker =>
    obtain ⟨-, -, emodel, etype, econn⟩ := @remove_eq blake3 id worker s.registry hw
    obtain ⟨hids, hurl, hinjective, hdrawn⟩ := @Keyed.remove blake3 _ _ h.keyed id
    refine ⟨hids, hurl, hinjective, hdrawn, ?_, ?_, ?_, fun model => remove_rings hw h.rings model⟩
    · simp only [emodel]
      refine (h.models.filter _).congr fun model w => ?_
      simp only [Registered, lookup_remove hw, decide_eq_true_eq]
      constructor
      · rintro ⟨⟨rfl, id', hw'⟩, hkeep⟩
        refine ⟨rfl, id', hw', ?_⟩
        rintro rfl
        cases hw.symm.trans hw'
        exact hkeep rfl rfl
      · rintro ⟨rfl, id', hw', hne⟩
        exact ⟨⟨rfl, id', hw'⟩, fun _ => h.keyed.url_ne hw hw' hne⟩
    · simp only [etype]
      exact exact_remove Worker.workerType hw h.types
    · simp only [econn]
      exact exact_remove Worker.connectionMode hw h.connections

theorem removeByUrl (url : Url) :
    Indexed blake3 uuid ⟨(s.registry.removeByUrl blake3 url).1, s.drawn⟩ := by
  rcases h.keyed.removeByUrl_cases blake3 url with ⟨-, e⟩ | ⟨id, hid, hno, e⟩ | ⟨id, w, -, -, -, e⟩
  · rw [e]
    exact h
  · obtain ⟨hids, hurl, hinjective, hdrawn⟩ := h.keyed.unreserve hid hno
    rw [e]
    exact ⟨hids, hurl, hinjective, hdrawn, h.models, h.types, h.connections, h.rings⟩
  · rw [e]
    exact h.remove id

theorem reserve (hinj : Function.Injective uuid) (url : Url) :
    Indexed blake3 uuid (s.call blake3 uuid (.reserveIdForUrl url)) := by
  obtain ⟨hids, hurl, hinjective, hdrawn⟩ := @Keyed.reserve blake3 _ _ h.keyed hinj url
  exact ⟨hids, hurl, hinjective, hdrawn, h.models, h.types, h.connections, h.rings⟩

/-- **A call keeps the invariant**, unless it registers a URL that has a worker. -/
theorem call (hinj : Function.Injective uuid) {c : Call}
    (hc : ∀ w, c = .register w → s.registry.getByUrl w.url = none) :
    Indexed blake3 uuid (s.call blake3 uuid c) := by
  cases c with
  | register worker => exact h.register hinj (hc worker rfl)
  | reserveIdForUrl url => exact h.reserve hinj url
  | remove id => exact h.remove id
  | removeByUrl url => exact h.removeByUrl url

theorem consistent : Consistent s.registry where
  model id w hw := h.models.count_eq_one ⟨rfl, id, hw⟩
  type id w hw := h.types.count_eq_one ⟨w, hw, rfl⟩
  connection id w hw := h.connections.count_eq_one ⟨w, hw, rfl⟩
  ring id w hw := by
    have hmem : w ∈ slot s.registry.modelIndex w.modelId :=
      ((h.models w.modelId).2 w).mpr ⟨rfl, id, hw⟩
    rw [slot] at hmem
    cases hl : s.registry.modelIndex.lookup w.modelId with
    | none =>
      rw [hl] at hmem
      cases hmem
    | some ws =>
      rw [hl, Option.getD_some] at hmem
      have hws : slot s.registry.modelIndex w.modelId = ws := by rw [slot, hl, Option.getD_some]
      refine ⟨HashRing.new blake3 ws, by rw [WorkerRegistry.getHashRing, h.rings, hl]; rfl, ?_⟩
      -- the workers of a model are distinct, and so are their URLs
      have hnodup : (ws.map Worker.url).Nodup := by
        have hexact := h.models w.modelId
        rw [hws] at hexact
        refine hexact.1.map_on fun w₁ h₁ w₂ h₂ he => ?_
        exact h.keyed.eq_of_url ((hexact.2 w₁).mp h₁).2 ((hexact.2 w₂).mp h₂).2 he
      rw [countP_entries, count_eq_one_of_mem hnodup (mem_map_of_mem hmem), Nat.mul_one]
  url := h.url
  modelOnly model w hw := ((h.models model).2 w).mp hw
  typeOnly t id hid := ((h.types t).2 id).mp hid
  connectionOnly c id hid := ((h.connections c).2 id).mp hid
  ringOnly model ring e hring he := by
    rw [WorkerRegistry.getHashRing, h.rings, Option.map_eq_some_iff] at hring
    obtain ⟨ws, hl, rfl⟩ := hring
    obtain ⟨w, hw, hu⟩ := List.mem_map.mp (exists_entry_iff.mp ⟨e, he, rfl⟩)
    have hslot : w ∈ slot s.registry.modelIndex model := by
      rw [slot, hl]
      exact hw
    obtain ⟨hm, id, hid⟩ := ((h.models model).2 w).mp hslot
    exact ⟨id, w, hid, hm, hu⟩

end Indexed

/-! ### Registering a URL that has a worker -/

/-- The worker that was there stays in the model index. -/
theorem not_consistent_register {blake3 : Blake3} {uuid : Nat → WorkerId} {s : State}
    (h : Indexed blake3 uuid s) {worker old : Worker}
    (hold : s.registry.getByUrl worker.url = some old) :
    ¬ Consistent (s.call blake3 uuid (.register worker)).registry := by
  intro hc
  obtain ⟨id, hid, hw, hurl⟩ := h.keyed.url_of_getByUrl hold
  have hregisterId : registerId s.registry (uuid s.drawn) worker = id := by
    rw [registerId, hid, Option.getD_some]
  have hslot : ∀ model, (s.call blake3 uuid (.register worker)).registry.getByModel model =
      if model = worker.modelId then slot s.registry.modelIndex worker.modelId ++ [worker]
      else slot s.registry.modelIndex model := by
    intro model
    rw [← slot_upsert, ← @register_modelIndex blake3 (uuid s.drawn)]
    rfl
  have hmem : old ∈ slot s.registry.modelIndex old.modelId :=
    ((h.models _).2 old).mpr ⟨rfl, id, hw⟩
  obtain ⟨-, id', hid'⟩ := hc.modelOnly old.modelId old (by
    rw [hslot]
    split
    · next he => rw [← he]; exact mem_append_left _ hmem
    · exact hmem)
  simp only [State.call, register_workers, lookup_put, hregisterId] at hid'
  split at hid'
  · -- the same object: it is listed twice
    cases hid'
    have hcount := hc.model id worker (by
      simp only [State.call, register_workers, lookup_put, hregisterId, if_true])
    have hone := h.models.count_eq_one (k := worker.modelId) (x := worker) ⟨rfl, id, hw⟩
    rw [hslot, if_pos rfl, count_append, hone] at hcount
    simp at hcount
  · -- another object: only `id` could still have it
    next hne =>
      have hu := h.url id' old hid'
      rw [hurl, hid] at hu
      exact hne (Option.some.inj hu).symm

/-! ### Runs -/

/-- No call of the run registers a URL that has a worker. -/
def RegistersNewUrls (blake3 : Blake3) (uuid : Nat → WorkerId) (calls : List Call) : Prop :=
  ∀ n w, calls[n]? = some (.register w) →
    (run blake3 uuid (calls.take n)).registry.getByUrl w.url = none

/-- The invariant up to a call, if the registers before it are of new URLs. -/
theorem indexed_take {blake3 : Blake3} {uuid : Nat → WorkerId} (hinj : Function.Injective uuid)
    {calls : List Call} {n : Nat} (h : ∀ m < n, ∀ w, calls[m]? = some (.register w) →
      (run blake3 uuid (calls.take m)).registry.getByUrl w.url = none) :
    Indexed blake3 uuid (run blake3 uuid (calls.take n)) := by
  refine Runs.fold_invariant (C := fun s c => ∀ w, c = .register w →
    s.registry.getByUrl w.url = none) (fun hs hc => hs.call hinj hc) Indexed.init ?_
  intro m hm c hc w hw
  refine h m hm w ?_
  rw [hc, hw]

/-- **The indices agree in every state of a run exactly when no call of it registers a URL that has
a worker.** -/
theorem run_consistent_iff (blake3 : Blake3) {uuid : Nat → WorkerId}
    (hinj : Function.Injective uuid) (calls : List Call) :
    (∀ n, Consistent (run blake3 uuid (calls.take n)).registry) ↔
      RegistersNewUrls blake3 uuid calls := by
  constructor
  · intro hc n
    -- up to the first call that registers a URL with a worker, the invariant holds
    induction n using Nat.strong_induction_on with
    | _ n ih =>
      intro w hw
      cases hold : (run blake3 uuid (calls.take n)).registry.getByUrl w.url with
      | none => rfl
      | some old =>
        have := hc (n + 1)
        rw [run, Runs.fold_take_succ hw] at this
        exact absurd this (not_consistent_register (indexed_take hinj ih) hold)
  · intro h n
    exact (indexed_take hinj fun m _ => h m).consistent

/-- Ids that never repeat. -/
def countedId (n : Nat) : WorkerId := List.replicate n 'x'

theorem countedId_injective : Function.Injective countedId := fun m n h => by
  simpa [countedId] using congrArg List.length h

/-- Two workers; the second has its id reserved first, and the first goes. -/
def twoWorkers : List Call :=
  [.register (plainWorker ['a'] ['m']), .reserveIdForUrl ['b'],
    .register (plainWorker ['b'] ['m']), .removeByUrl ['a']]

theorem twoWorkers_registersNewUrls : RegistersNewUrls letterHash countedId twoWorkers := by
  intro n w hw
  match n, hw with
  | 0, hw => cases hw; rfl
  | 1, hw => cases hw
  | 2, hw => cases hw; rfl
  | 3, hw => cases hw
  | n + 4, hw => cases hw

theorem twoWorkers_consistent :
    Function.Injective countedId ∧
      ∀ n, Consistent (run letterHash countedId (twoWorkers.take n)).registry :=
  ⟨countedId_injective,
    (run_consistent_iff letterHash countedId_injective _).mpr twoWorkers_registersNewUrls⟩

/-- **Registering a URL again, for another model**: the old worker stays in the index of the first
model, though it is registered no more. -/
theorem register_again_not_consistent :
    ¬ ∀ calls, Consistent (run letterHash countedId calls).registry := by
  intro h
  have hc := h [.register (plainWorker ['a'] ['m']), .register (plainWorker ['a'] ['n'])]
  obtain ⟨-, id, hid⟩ := hc.modelOnly ['m'] (plainWorker ['a'] ['m']) (by decide)
  have hw : (run letterHash countedId [.register (plainWorker ['a'] ['m']),
      .register (plainWorker ['a'] ['n'])]).registry.workers =
        [([], plainWorker ['a'] ['n'])] := by decide
  rw [hw] at hid
  have := mem_of_lookup hid
  simp [plainWorker] at this

/-! ### To a caller -/

section
variable {blake3 : Blake3} {uuid : Nat → WorkerId} {s : State}

/-- A map from URLs to workers. -/
structure WorkerRegistry.Directory (r : WorkerRegistry) : Prop where
  nodup : r.getAll.Nodup
  mem_iff : ∀ w, w ∈ r.getAll ↔ r.getByUrl w.url = some w
  url : ∀ url w, r.getByUrl url = some w → w.url = url

theorem Keyed.directory (h : Keyed uuid s) : s.registry.Directory where
  nodup := h.nodup_getAll
  mem_iff _ := h.mem_getAll.trans h.registered_iff
  url _ _ hw := by
    obtain ⟨-, -, -, hurl⟩ := h.url_of_getByUrl hw
    exact hurl

theorem getByUrl_remove (h : Keyed uuid s) {id : WorkerId} {w : Worker}
    (hw : s.registry.workers.lookup id = some w) :
    (s.registry.remove blake3 id).1.getByUrl = Function.update s.registry.getByUrl w.url none := by
  obtain ⟨hworkers, hurls, -⟩ := @remove_eq blake3 id w s.registry hw
  funext u
  simp only [WorkerRegistry.getByUrl, hurls, lookup_del, Function.update_apply]
  split
  · rfl
  · next hu =>
    cases hid : s.registry.urlToId.lookup u with
    | none => rfl
    | some id' =>
      refine (congrArg (List.lookup id') hworkers).trans ((lookup_del ..).trans (if_neg ?_))
      rintro rfl
      exact hu (h.injective _ _ _ hid (h.url _ w hw))

theorem getByUrl_removeByUrl (h : Keyed uuid s) (url : Url) :
    (s.registry.removeByUrl blake3 url).1.getByUrl = Function.update s.registry.getByUrl url none := by
  rcases h.removeByUrl_cases blake3 url with ⟨hno, e⟩ | ⟨id, hid, hno, e⟩ | ⟨id, w, -, hw, rfl, e⟩
  · rw [e, eq_comm, Function.update_eq_self_iff, WorkerRegistry.getByUrl, hno, Option.bind_none]
  · funext u
    simp only [e, WorkerRegistry.getByUrl, lookup_del, Function.update_apply]
    split <;> rfl
  · rw [e, getByUrl_remove h hw]

/-- **To its callers the registry is a map from URLs to workers**, also where the indices disagree. -/
theorem run_directory (blake3 : Blake3) (hinj : Function.Injective uuid) (calls : List Call) :
    let r := (run blake3 uuid calls).registry
    let after := fun c => (run blake3 uuid (calls ++ [c])).registry.getByUrl
    r.Directory ∧
      (∀ w, after (.register w) = Function.update r.getByUrl w.url (some w)) ∧
      (∀ url, after (.removeByUrl url) = Function.update r.getByUrl url none) ∧
      ∀ id w, r.get id = some w → after (.remove id) = Function.update r.getByUrl w.url none := by
  have h := run_keyed blake3 hinj calls
  simp only [run, foldl_append, foldl_cons, foldl_nil] at h ⊢
  refine ⟨h.directory, fun w => ?_, fun url => getByUrl_removeByUrl h url,
    fun id w hw => getByUrl_remove h hw⟩
  funext u
  rw [getByUrl_register h hinj, Function.update_apply]

/-- The worker that replaced another. -/
theorem register_again_directory : let r := (run letterHash countedId
      [.register (plainWorker ['a'] ['m']), .register (plainWorker ['a'] ['n'])]).registry
    r.Directory ∧ r.get [] = some (plainWorker ['a'] ['n']) :=
  ⟨(run_directory letterHash countedId_injective _).1, by decide⟩

end

end QwenStack.Registry
