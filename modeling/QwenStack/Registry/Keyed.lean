import QwenStack.Registry.Definitions
import QwenStack.Support.Runs

/-!
# Registry — URLs, ids and workers

`register` keeps the id of a URL it knows and draws a fresh one for another, so in every state of a
run, re-registrations included, a registered worker is under the id of its URL and no two URLs share
an id (`Keyed`, `run_keyed`).  To a caller the registry is then a map from URLs to workers, and a
registration changes it at one URL (`getByUrl_register`).
-/

namespace QwenStack.Registry
open Assoc List

/-- The worker is registered. -/
def Registered (r : WorkerRegistry) (w : Worker) : Prop := ∃ id, r.workers.lookup id = some w

/-- Workers and URLs agree on the ids. -/
structure Keyed (uuid : Nat → WorkerId) (s : State) : Prop where
  ids : (keys s.registry.workers).Nodup
  url : ∀ id w, s.registry.workers.lookup id = some w → s.registry.urlToId.lookup w.url = some id
  injective : ∀ u v id, s.registry.urlToId.lookup u = some id →
    s.registry.urlToId.lookup v = some id → u = v
  drawn : ∀ u id, s.registry.urlToId.lookup u = some id → ∃ n < s.drawn, id = uuid n

/-! ### Fields after a call -/

section
variable {blake3 : Blake3} {fresh id : WorkerId} {worker : Worker} {r : WorkerRegistry}

@[simp] theorem rebuildHashRing_workers (model : ModelId) :
    (r.rebuildHashRing blake3 model).workers = r.workers := by
  rw [WorkerRegistry.rebuildHashRing]
  split <;> rfl

@[simp] theorem rebuildHashRing_modelIndex (model : ModelId) :
    (r.rebuildHashRing blake3 model).modelIndex = r.modelIndex := by
  rw [WorkerRegistry.rebuildHashRing]
  split <;> rfl

@[simp] theorem rebuildHashRing_typeWorkers (model : ModelId) :
    (r.rebuildHashRing blake3 model).typeWorkers = r.typeWorkers := by
  rw [WorkerRegistry.rebuildHashRing]
  split <;> rfl

@[simp] theorem rebuildHashRing_connectionWorkers (model : ModelId) :
    (r.rebuildHashRing blake3 model).connectionWorkers = r.connectionWorkers := by
  rw [WorkerRegistry.rebuildHashRing]
  split <;> rfl

@[simp] theorem rebuildHashRing_urlToId (model : ModelId) :
    (r.rebuildHashRing blake3 model).urlToId = r.urlToId := by
  rw [WorkerRegistry.rebuildHashRing]
  split <;> rfl

/-- The id `register` gives. -/
def registerId (r : WorkerRegistry) (fresh : WorkerId) (worker : Worker) : WorkerId :=
  (r.urlToId.lookup worker.url).getD fresh

@[simp] theorem register_workers : (r.register blake3 fresh worker).1.workers =
    put (registerId r fresh worker) worker r.workers := by
  simp [WorkerRegistry.register, registerId]

@[simp] theorem register_urlToId : (r.register blake3 fresh worker).1.urlToId =
    put worker.url (registerId r fresh worker) r.urlToId := by
  simp [WorkerRegistry.register, registerId]

@[simp] theorem register_modelIndex : (r.register blake3 fresh worker).1.modelIndex =
    upsert worker.modelId (· ++ [worker]) [worker] r.modelIndex := by
  simp [WorkerRegistry.register]

@[simp] theorem register_typeWorkers : (r.register blake3 fresh worker).1.typeWorkers =
    upsert worker.workerType (· ++ [registerId r fresh worker]) [registerId r fresh worker]
      r.typeWorkers := by
  simp [WorkerRegistry.register, registerId]

@[simp] theorem register_connectionWorkers : (r.register blake3 fresh worker).1.connectionWorkers =
    upsert worker.connectionMode (· ++ [registerId r fresh worker]) [registerId r fresh worker]
      r.connectionWorkers := by
  simp [WorkerRegistry.register, registerId]

/-- The registry once `worker` is removed from under `id`. -/
theorem remove_eq (hw : r.workers.lookup id = some worker) :
    (r.remove blake3 id).1.workers = del id r.workers ∧
      (r.remove blake3 id).1.urlToId = del worker.url r.urlToId ∧
      (r.remove blake3 id).1.modelIndex = andModify worker.modelId
        (fun ws => ws.filter fun w => decide (w.url ≠ worker.url)) r.modelIndex ∧
      (r.remove blake3 id).1.typeWorkers = andModify worker.workerType
        (fun ids => ids.filter fun i => decide (i ≠ id)) r.typeWorkers ∧
      (r.remove blake3 id).1.connectionWorkers = andModify worker.connectionMode
        (fun ids => ids.filter fun i => decide (i ≠ id)) r.connectionWorkers := by
  simp [WorkerRegistry.remove, hw]

theorem lookup_remove (hw : r.workers.lookup id = some worker) (id' : WorkerId) (w : Worker) :
    (r.remove blake3 id).1.workers.lookup id' = some w ↔ r.workers.lookup id' = some w ∧ id' ≠ id := by
  rw [(remove_eq hw).1, lookup_del]
  split
  · next he => simp [he]
  · next he => simp [he]

/-- Nothing is removed from under an id without a worker. -/
theorem remove_none (hw : r.workers.lookup id = none) : (r.remove blake3 id).1 = r := by
  simp only [WorkerRegistry.remove, hw]

/-- The URLs with their ids, after `reserve_id_for_url`. -/
theorem lookup_reserve {url u : Url}
    (hu : (r.reserveIdForUrl fresh url).1.urlToId.lookup u = some id) :
    r.urlToId.lookup u = some id ∨ u = url ∧ id = fresh := by
  simp only [WorkerRegistry.reserveIdForUrl, lookup_orInsert] at hu
  split at hu
  · next he =>
    subst he
    cases hl : r.urlToId.lookup u with
    | some id' => exact Or.inl (by rw [← hu, hl]; rfl)
    | none =>
      rw [hl] at hu
      exact Or.inr ⟨rfl, (Option.some.inj hu).symm⟩
  · exact Or.inl hu

end

/-! ### The invariant -/

namespace Keyed
variable {blake3 : Blake3} {uuid : Nat → WorkerId} {s : State}

theorem init : Keyed uuid ⟨WorkerRegistry.new, 0⟩ where
  ids := nodup_nil
  url _ _ h := (nomatch h)
  injective _ _ _ h := (nomatch h)
  drawn _ _ h := (nomatch h)

variable (h : Keyed uuid s)
include h

/-- A registered worker is found by its URL. -/
theorem getByUrl {id : WorkerId} {w : Worker}
    (hw : s.registry.workers.lookup id = some w) : s.registry.getByUrl w.url = some w := by
  rw [WorkerRegistry.getByUrl, h.url id w hw]
  exact hw

/-- What is found by a URL has that URL. -/
theorem url_of_getByUrl {url : Url} {w : Worker} (hw : s.registry.getByUrl url = some w) :
    ∃ id, s.registry.urlToId.lookup url = some id ∧ s.registry.workers.lookup id = some w ∧
      w.url = url := by
  obtain ⟨id, hid, hget⟩ := Option.bind_eq_some_iff.mp hw
  exact ⟨id, hid, hget, h.injective _ _ id (h.url id w hget) hid⟩

theorem registered_iff {w : Worker} :
    Registered s.registry w ↔ s.registry.getByUrl w.url = some w := by
  constructor
  · rintro ⟨id, hw⟩
    exact h.getByUrl hw
  · intro hw
    obtain ⟨id, -, hid, -⟩ := h.url_of_getByUrl hw
    exact ⟨id, hid⟩

/-- No two registered workers share a URL. -/
theorem eq_of_url {w w' : Worker} (hw : Registered s.registry w)
    (hw' : Registered s.registry w') (he : w.url = w'.url) : w = w' := by
  have := h.registered_iff.mp hw
  rw [he, h.registered_iff.mp hw'] at this
  exact (Option.some.inj this).symm

theorem mem_getAll {w : Worker} : w ∈ s.registry.getAll ↔ Registered s.registry w := by
  rw [WorkerRegistry.getAll, mem_map]
  constructor
  · rintro ⟨⟨id, w⟩, hmem, rfl⟩
    exact ⟨id, lookup_of_mem h.ids hmem⟩
  · rintro ⟨id, hw⟩
    exact ⟨(id, w), mem_of_lookup hw, rfl⟩

theorem nodup_getAll : s.registry.getAll.Nodup := by
  refine List.Nodup.map_on ?_ (List.Nodup.of_map _ h.ids)
  rintro ⟨id, w⟩ hw ⟨id', w'⟩ hw' rfl
  have hid := h.url id w (lookup_of_mem h.ids hw)
  rw [h.url id' w (lookup_of_mem h.ids hw')] at hid
  rw [Option.some.inj hid]

section
variable (hinj : Function.Injective uuid)
include hinj

/-- The next id belongs to no URL. -/
theorem fresh (u : Url) : s.registry.urlToId.lookup u ≠ some (uuid s.drawn) := by
  intro hu
  obtain ⟨n, hn, he⟩ := h.drawn u _ hu
  exact hn.ne (hinj he).symm

/-- The id of a URL: the one it has, or a fresh one. -/
theorem registerId_cases (worker : Worker) :
    s.registry.urlToId.lookup worker.url = some (registerId s.registry (uuid s.drawn) worker) ∨
      s.registry.urlToId.lookup worker.url = none ∧
        registerId s.registry (uuid s.drawn) worker = uuid s.drawn ∧
        ∀ u, s.registry.urlToId.lookup u ≠ some (uuid s.drawn) := by
  rw [registerId]
  cases hu : s.registry.urlToId.lookup worker.url with
  | some id => exact Or.inl rfl
  | none => exact Or.inr ⟨rfl, rfl, h.fresh hinj⟩

/-- No other URL has the id. -/
theorem registerId_inj {worker : Worker} {u : Url}
    (hu : s.registry.urlToId.lookup u = some (registerId s.registry (uuid s.drawn) worker)) :
    u = worker.url := by
  rcases h.registerId_cases hinj worker with hid | ⟨-, hid, hfresh⟩
  · exact h.injective _ _ _ hu hid
  · rw [hid] at hu
    exact absurd hu (hfresh u)

/-- The id of a URL without a worker belongs to no worker. -/
theorem lookup_registerId {worker : Worker} (hno : s.registry.getByUrl worker.url = none) :
    s.registry.workers.lookup (registerId s.registry (uuid s.drawn) worker) = none := by
  cases hw : s.registry.workers.lookup (registerId s.registry (uuid s.drawn) worker) with
  | none => rfl
  | some w =>
    have hu := h.registerId_inj hinj (h.url _ w hw)
    have := h.getByUrl hw
    rw [hu, hno] at this
    cases this

/-- Registering, whether the URL has a worker or not. -/
theorem register (worker : Worker) : Keyed uuid (s.call blake3 uuid (.register worker)) := by
  have hold : ∀ u id, s.registry.urlToId.lookup u = some id → ∃ n < s.drawn + 1, id = uuid n :=
    fun u id hu => (h.drawn u id hu).imp fun n hn => ⟨hn.1.trans (Nat.lt_succ_self _), hn.2⟩
  refine ⟨?_, fun id w hw => ?_, fun u v id hu hv => ?_, fun u id hu => ?_⟩ <;>
    simp only [State.call, register_workers, register_urlToId, lookup_put] at *
  · exact nodup_keys_put h.ids
  · split at hw
    · next he =>
      cases hw
      rw [if_pos rfl, he]
    · next he =>
      have hu := h.url id w hw
      split
      · next hurl =>
        -- a worker of this URL is under the id `register` gives
        rw [registerId, ← hurl, hu, Option.getD_some]
      · exact hu
  · split at hu <;> split at hv
    · next h₁ h₂ => rw [h₁, h₂]
    · next h₁ h₂ =>
      cases hu
      rw [h₁, h.registerId_inj hinj hv]
    · next h₁ h₂ =>
      cases hv
      rw [h₂, h.registerId_inj hinj hu]
    · exact h.injective u v id hu hv
  · split at hu
    · cases hu
      rcases h.registerId_cases hinj worker with hid | ⟨-, hid, -⟩
      · exact hold _ _ hid
      · exact ⟨s.drawn, Nat.lt_succ_self _, hid⟩
    · exact hold u id hu

end

/-- The worker under one id is under no other, and its URL is no other worker's. -/
theorem url_ne {id id' : WorkerId} {w w' : Worker}
    (hw : s.registry.workers.lookup id = some w) (hw' : s.registry.workers.lookup id' = some w')
    (hne : id' ≠ id) : w'.url ≠ w.url := by
  intro he
  have := h.url id' w' hw'
  rw [he, h.url id w hw] at this
  exact hne (Option.some.inj this).symm

theorem remove (id : WorkerId) : Keyed uuid ⟨(s.registry.remove blake3 id).1, s.drawn⟩ := by
  cases hw : s.registry.workers.lookup id with
  | none =>
    rw [remove_none hw]
    exact h
  | some worker =>
    obtain ⟨eworkers, eurl, -⟩ := @remove_eq blake3 id worker s.registry hw
    refine ⟨?_, fun id' w hw' => ?_, fun u v id' hu hv => ?_, fun u id' hu => ?_⟩
    · simp only [eworkers]
      exact nodup_keys_del h.ids
    · obtain ⟨hw', hne⟩ := (lookup_remove hw id' w).mp hw'
      simp only [eurl, lookup_del, if_neg (h.url_ne hw hw' hne), h.url id' w hw']
    · simp only [eurl, lookup_del] at hu hv
      split at hu
      · cases hu
      · split at hv
        · cases hv
        · exact h.injective u v id' hu hv
    · simp only [eurl, lookup_del] at hu
      split at hu
      · cases hu
      · exact h.drawn u id' hu

/-- A URL whose id belongs to no worker loses its id. -/
theorem unreserve {url : Url} {id : WorkerId}
    (hid : s.registry.urlToId.lookup url = some id) (hno : s.registry.workers.lookup id = none) :
    Keyed uuid ⟨{ s.registry with urlToId := del url s.registry.urlToId }, s.drawn⟩ := by
  have hback : ∀ u id', (del url s.registry.urlToId).lookup u = some id' →
      s.registry.urlToId.lookup u = some id' := by
    intro u id' hu
    rw [lookup_del] at hu
    split at hu
    · cases hu
    · exact hu
  refine ⟨h.ids, fun id' w hw => ?_, fun u v id' hu hv => ?_, fun u id' hu => ?_⟩
  · have hu := h.url id' w hw
    simp only [lookup_del]
    rw [if_neg, hu]
    rintro rfl
    cases hid.symm.trans hu
    rw [hno] at hw
    cases hw
  · exact h.injective u v id' (hback u id' hu) (hback v id' hv)
  · exact h.drawn u id' (hback u id' hu)

/-- `remove_by_url`: there is no id, or there is an id without a worker, or there is a worker. -/
theorem removeByUrl_cases (blake3 : Blake3) (url : Url) :
    s.registry.urlToId.lookup url = none ∧ (s.registry.removeByUrl blake3 url).1 = s.registry ∨
      (∃ id, s.registry.urlToId.lookup url = some id ∧ s.registry.workers.lookup id = none ∧
        (s.registry.removeByUrl blake3 url).1 =
          { s.registry with urlToId := del url s.registry.urlToId }) ∨
      ∃ id w, s.registry.urlToId.lookup url = some id ∧ s.registry.workers.lookup id = some w ∧
        w.url = url ∧
        (s.registry.removeByUrl blake3 url).1 = (s.registry.remove blake3 id).1 := by
  rw [WorkerRegistry.removeByUrl]
  cases hid : s.registry.urlToId.lookup url with
  | none => exact Or.inl ⟨rfl, rfl⟩
  | some id =>
    cases hw : s.registry.workers.lookup id with
    | none => exact Or.inr (Or.inl ⟨id, rfl, hw, remove_none hw⟩)
    | some worker =>
      have hurl : worker.url = url := h.injective _ _ id (h.url id worker hw) hid
      refine Or.inr (Or.inr ⟨id, worker, rfl, hw, hurl, ?_⟩)
      -- the URL is the worker's, so it does not matter that it goes first
      simp only [WorkerRegistry.remove, hw, hurl, del, filter_filter, Bool.and_self,
        WorkerRegistry.rebuildHashRing]

theorem removeByUrl (url : Url) : Keyed uuid ⟨(s.registry.removeByUrl blake3 url).1, s.drawn⟩ := by
  rcases h.removeByUrl_cases blake3 url with ⟨-, e⟩ | ⟨id, hid, hno, e⟩ | ⟨id, w, -, -, -, e⟩
  · rw [e]
    exact h
  · rw [e]
    exact h.unreserve hid hno
  · rw [e]
    exact h.remove id

theorem reserve (hinj : Function.Injective uuid) (url : Url) :
    Keyed uuid (s.call blake3 uuid (.reserveIdForUrl url)) := by
  have hfresh : ∀ u id, s.registry.urlToId.lookup u = some id → id ≠ uuid s.drawn := by
    rintro u id hu rfl
    exact h.fresh hinj u hu
  refine ⟨h.ids, fun id w hw => ?_, fun u v id hu hv => ?_, fun u id hu => ?_⟩
  · have hu := h.url id w hw
    simp only [State.call, WorkerRegistry.reserveIdForUrl, lookup_orInsert]
    split
    · next he => rw [← he, hu]; rfl
    · exact hu
  · rcases lookup_reserve hu with hu' | ⟨hu', he⟩ <;> rcases lookup_reserve hv with hv' | ⟨hv', he'⟩
    · exact h.injective u v id hu' hv'
    · exact absurd he' (hfresh u id hu')
    · exact absurd he (hfresh v id hv')
    · rw [hu', hv']
  · rcases lookup_reserve hu with hu | ⟨rfl, rfl⟩
    · exact (h.drawn u id hu).imp fun n hn => ⟨hn.1.trans (Nat.lt_succ_self _), hn.2⟩
    · exact ⟨s.drawn, Nat.lt_succ_self _, rfl⟩

/-- **Every call keeps it.** -/
theorem call (hinj : Function.Injective uuid) (c : Call) : Keyed uuid (s.call blake3 uuid c) := by
  cases c with
  | register worker => exact h.register hinj worker
  | reserveIdForUrl url => exact h.reserve hinj url
  | remove id => exact h.remove id
  | removeByUrl url => exact h.removeByUrl url

theorem calls (hinj : Function.Injective uuid) (calls : List Call) :
    Keyed uuid (calls.foldl (State.call blake3 uuid) s) := by
  induction calls generalizing s with
  | nil => exact h
  | cons c calls ih => exact ih (h.call hinj c)

end Keyed

/-- Workers and URLs agree on the ids after every run. -/
theorem run_keyed (blake3 : Blake3) {uuid : Nat → WorkerId} (hinj : Function.Injective uuid)
    (calls : List Call) : Keyed uuid (run blake3 uuid calls) :=
  Keyed.init.calls hinj calls

/-! ### A map from URLs to workers -/

section
variable {blake3 : Blake3} {uuid : Nat → WorkerId} {s : State}

/-- **Registering**: the URL has the worker then, and no other URL is touched. -/
theorem getByUrl_register (h : Keyed uuid s) (hinj : Function.Injective uuid) (worker : Worker)
    (u : Url) : (s.call blake3 uuid (.register worker)).registry.getByUrl u =
      if u = worker.url then some worker else s.registry.getByUrl u := by
  simp only [State.call, WorkerRegistry.getByUrl, register_urlToId, lookup_put]
  split
  · rw [Option.bind_some, WorkerRegistry.get, register_workers, lookup_put, if_pos rfl]
  · next hu =>
    cases hid : s.registry.urlToId.lookup u with
    | none => rfl
    | some id =>
      simp only [Option.bind_some, WorkerRegistry.get, register_workers, lookup_put]
      rw [if_neg]
      rintro rfl
      exact hu (h.registerId_inj hinj hid)

/-! ### The registered workers, as a list -/

/-- A URL without a worker gains one. -/
theorem getAll_register_of_new (h : Keyed uuid s) (hinj : Function.Injective uuid) {worker : Worker}
    (hno : s.registry.getByUrl worker.url = none) :
    (s.call blake3 uuid (.register worker)).registry.getAll = s.registry.getAll ++ [worker] := by
  have hid : registerId s.registry (uuid s.drawn) worker ∉ keys s.registry.workers := fun hid => by
    obtain ⟨w, hw⟩ := mem_keys_iff.mp hid
    rw [h.lookup_registerId hinj hno] at hw
    cases hw
  simp only [State.call, WorkerRegistry.getAll, register_workers, put_of_not_mem hid, map_append,
    map_cons, map_nil]

/-- A URL with a worker keeps one. -/
theorem length_getAll_register_of_old (h : Keyed uuid s) {worker old : Worker}
    (hold : s.registry.getByUrl worker.url = some old) :
    (s.call blake3 uuid (.register worker)).registry.getAll.length = s.registry.getAll.length := by
  obtain ⟨id, hid, hw, -⟩ := h.url_of_getByUrl hold
  have hkeys : registerId s.registry (uuid s.drawn) worker ∈ keys s.registry.workers := by
    rw [registerId, hid, Option.getD_some]
    exact mem_keys_iff.mpr ⟨old, hw⟩
  have hlength := congrArg List.length
    (keys_put (registerId s.registry (uuid s.drawn) worker) worker s.registry.workers)
  rw [if_pos hkeys, Assoc.keys, Assoc.keys, length_map, length_map] at hlength
  simpa [State.call, WorkerRegistry.getAll] using hlength

/-- A worker is removed by its URL, and no other. -/
theorem getAll_removeByUrl (h : Keyed uuid s) {url : Url} {w : Worker}
    (hw : s.registry.getByUrl url = some w) :
    s.registry.getAll.Perm (w :: (s.call blake3 uuid (.removeByUrl url)).registry.getAll) := by
  obtain ⟨id, hid, hget, -⟩ := h.url_of_getByUrl hw
  simp only [State.call]
  rcases h.removeByUrl_cases blake3 url with ⟨hno, -⟩ | ⟨id', hid', hno, -⟩ | ⟨id', w', hid', hw', -, e⟩
  · rw [hid] at hno
    cases hno
  · cases hid.symm.trans hid'
    rw [hget] at hno
    cases hno
  · cases hid.symm.trans hid'
    rw [e, WorkerRegistry.getAll, WorkerRegistry.getAll, (remove_eq hw').1]
    exact (perm_del h.ids hget).map Prod.snd

/-! ### Ids drawn before -/

/-- **A call gives no URL an id that was drawn before.** -/
theorem lookup_call_back (hinj : Function.Injective uuid) {n : Nat} (hn : n < s.drawn)
    {c : Call} (h : Keyed uuid s) {u : Url}
    (hu : (s.call blake3 uuid c).registry.urlToId.lookup u = some (uuid n)) :
    s.registry.urlToId.lookup u = some (uuid n) := by
  have hne : uuid s.drawn ≠ uuid n := fun he => hn.ne (hinj he).symm
  -- a removal only takes ids away
  have hdel : ∀ url, (del url s.registry.urlToId).lookup u = some (uuid n) →
      s.registry.urlToId.lookup u = some (uuid n) := by
    intro url hu
    rw [lookup_del] at hu
    split at hu
    · cases hu
    · exact hu
  have hremove : ∀ id, (s.registry.remove blake3 id).1.urlToId.lookup u = some (uuid n) →
      s.registry.urlToId.lookup u = some (uuid n) := by
    intro id hu
    cases hw : s.registry.workers.lookup id with
    | none =>
      rw [remove_none hw] at hu
      exact hu
    | some w =>
      rw [(remove_eq hw).2.1] at hu
      exact hdel _ hu
  cases c with
  | register worker =>
    simp only [State.call, register_urlToId, lookup_put] at hu
    split at hu
    · next he =>
      rcases h.registerId_cases hinj worker with hid | ⟨-, hid, -⟩
      · rw [he, hid, hu]
      · rw [hid] at hu
        exact absurd (Option.some.inj hu) hne
    · exact hu
  | reserveIdForUrl url =>
    rcases lookup_reserve hu with hu | ⟨-, he⟩
    · exact hu
    · exact absurd he.symm hne
  | remove id => exact hremove id hu
  | removeByUrl url =>
    simp only [State.call] at hu
    rcases h.removeByUrl_cases blake3 url with ⟨-, e⟩ | ⟨id, -, -, e⟩ | ⟨id, w, -, -, -, e⟩
    · rw [e] at hu
      exact hu
    · rw [e] at hu
      exact hdel _ hu
    · rw [e] at hu
      exact hremove id hu

theorem drawn_call (c : Call) : s.drawn ≤ (s.call blake3 uuid c).drawn := by
  cases c with
  | register worker => exact Nat.le_succ _
  | reserveIdForUrl url => exact Nat.le_succ _
  | remove id => exact Nat.le_refl _
  | removeByUrl url => exact Nat.le_refl _

theorem drawn_calls (calls : List Call) :
    s.drawn ≤ (calls.foldl (State.call blake3 uuid) s).drawn := by
  induction calls generalizing s with
  | nil => exact Nat.le_refl _
  | cons c calls ih => exact (drawn_call c).trans ih

theorem lookup_calls_back (hinj : Function.Injective uuid) {n : Nat} {u : Url} (calls : List Call) :
    ∀ {s : State}, Keyed uuid s → n < s.drawn →
      (calls.foldl (State.call blake3 uuid) s).registry.urlToId.lookup u = some (uuid n) →
      s.registry.urlToId.lookup u = some (uuid n) := by
  induction calls with
  | nil => exact fun _ _ hu => hu
  | cons c calls ih =>
    intro s h hn hu
    exact lookup_call_back hinj hn h (ih (h.call hinj c) (hn.trans_le (drawn_call c)) hu)

end

end QwenStack.Registry
