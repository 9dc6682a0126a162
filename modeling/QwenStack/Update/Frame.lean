import QwenStack.Update.Definitions
import QwenStack.Workflows.Loops

/-!
# Worker updates — what an update changes

A worker that the update workflow finds is built again from its metadata, so it has what the request names
(`Worker.amend`), and is in every other field as a new worker is (`newWorker_eq`): healthy, with no load, and
with the default circuit breaker, closed.  So the update changes only what the request names if the worker is
as built already (`changesOnlyNamed_iff`).
-/

namespace QwenStack.Update
open Assoc List
open Breaker (CircuitBreaker CircuitBreakerConfig CircuitState)
open Registry (Url WorkerType Keyed Registered)
open Workflows (Labels)

variable {P M G : Type} {env : Env P M}

/-! ### What a request names -/

/-- The worker with what the request names, and all else as it is. -/
def BasicWorker.amend (request : WorkerUpdateRequest) (w : BasicWorker env G) : BasicWorker env G :=
  { w with
    metadata :=
      { w.metadata with
        labels := request.updatedLabels w.metadata.labels
        healthConfig := request.updatedHealthConfig w.metadata.healthConfig
        apiKey := request.apiKey <|> w.metadata.apiKey } }

@[inherit_doc BasicWorker.amend]
def Worker.amend (request : WorkerUpdateRequest) : Worker env G → Worker env G
  | basic w => basic (w.amend request)
  | dpAware w => dpAware { w with baseWorker := w.baseWorker.amend request, url_eq := w.url_eq }

/-! ### Building a worker again -/

/-- All that is not metadata, as `build` makes it when it is not told. -/
structure BasicWorker.AsBuilt (now : Nat) (w : BasicWorker env G) : Prop where
  counters : w.counters = {}
  processedCounter : w.processedCounter = 0
  healthy : w.healthy = true
  consecutiveFailures : w.consecutiveFailures = 0
  consecutiveSuccesses : w.consecutiveSuccesses = 0
  circuitBreakerConfig : w.circuitBreakerConfig = .default
  circuitBreaker : w.circuitBreaker = .new now
  grpcClient : w.grpcClient = none
  modelsOverride : w.modelsOverride = none

/-- What the builder computes follows from the rest. -/
theorem WorkerMetadata.eq_of_parts {m m' : WorkerMetadata env} (hurl : m.url = m'.url)
    (hworkerType : m.workerType = m'.workerType) (hconnectionMode : m.connectionMode = m'.connectionMode)
    (hruntimeType : m.runtimeType = m'.runtimeType) (hlabels : m.labels = m'.labels)
    (hhealthConfig : m.healthConfig = m'.healthConfig) (hapiKey : m.apiKey = m'.apiKey)
    (hmodels : m.models = m'.models) : m = m' := by
  have hhost : m.bootstrapHost = m'.bootstrapHost := by
    rw [m.bootstrapHost_eq, m'.bootstrapHost_eq, hurl]
  have hport : m.bootstrapPort = m'.bootstrapPort := by
    rw [m.bootstrapPort_eq, m'.bootstrapPort_eq, hworkerType]
  have hprovider := m.defaultProvider_eq.trans m'.defaultProvider_eq.symm
  have htype := m.defaultModelType_eq.trans m'.defaultModelType_eq.symm
  cases m
  cases m'
  simp_all

theorem BasicWorker.AsBuilt.eq {now : Nat} {w w' : BasicWorker env G} (h : w.AsBuilt now)
    (h' : w'.AsBuilt now) (hmetadata : w.metadata = w'.metadata) : w = w' := by
  obtain ⟨h₁, h₂, h₃, h₄, h₅, h₆, h₇, h₈, h₉⟩ := h
  obtain ⟨h₁', h₂', h₃', h₄', h₅', h₆', h₇', h₈', h₉'⟩ := h'
  cases w
  cases w'
  simp_all

theorem DPAwareWorker.eq_of_parts {w w' : DPAwareWorker env G} (hbase : w.baseWorker = w'.baseWorker)
    (hdpRank : w.dpRank = w'.dpRank) (hdpSize : w.dpSize = w'.dpSize)
    (hbaseUrl : w.baseUrl = w'.baseUrl) : w = w' := by
  have hhost : w.bootstrapHost = w'.bootstrapHost := by
    rw [w.bootstrapHost_eq, w'.bootstrapHost_eq, hbaseUrl]
  cases w
  cases w'
  simp_all

section
variable (request : WorkerUpdateRequest) (now : Nat) (w : Worker env G)

/-- The update copies the metadata, or has it from the request. -/
theorem newWorker_metadata : (newWorker request now w).metadata = (w.amend request).metadata := by
  cases w with
  | basic w => exact WorkerMetadata.eq_of_parts rfl rfl rfl rfl rfl rfl rfl rfl
  | dpAware w => exact WorkerMetadata.eq_of_parts w.url_eq.symm rfl rfl rfl rfl rfl rfl rfl

@[simp] theorem newWorker_url : (newWorker request now w).url = w.url := by
  rw [Worker.url, newWorker_metadata]
  cases w <;> rfl

/-- **It copies nothing else.** -/
theorem newWorker_asBuilt : (newWorker request now w).base.AsBuilt now := by
  cases w with
  | basic w => exact ⟨rfl, rfl, rfl, rfl, rfl, rfl, rfl, rfl, rfl⟩
  | dpAware w => exact ⟨rfl, rfl, rfl, rfl, rfl, rfl, rfl, rfl, rfl⟩

theorem amend_asBuilt_iff : (w.amend request).base.AsBuilt now ↔ w.base.AsBuilt now := by
  have hbase : (w.amend request).base = w.base.amend request := by cases w <;> rfl
  rw [hbase]
  constructor
  · rintro ⟨h₁, h₂, h₃, h₄, h₅, h₆, h₇, h₈, h₉⟩
    exact ⟨h₁, h₂, h₃, h₄, h₅, h₆, h₇, h₈, h₉⟩
  · rintro ⟨h₁, h₂, h₃, h₄, h₅, h₆, h₇, h₈, h₉⟩
    exact ⟨h₁, h₂, h₃, h₄, h₅, h₆, h₇, h₈, h₉⟩

theorem newWorker_eq_amend_iff : newWorker request now w = w.amend request ↔ w.base.AsBuilt now := by
  rw [← amend_asBuilt_iff request]
  constructor
  · intro h
    rw [← h]
    exact newWorker_asBuilt request now w
  · intro h
    have hbase : (newWorker request now w).base = (w.amend request).base :=
      (newWorker_asBuilt request now w).eq h (newWorker_metadata request now w)
    cases w with
    | basic w => exact congrArg Worker.basic hbase
    | dpAware w => exact congrArg Worker.dpAware (DPAwareWorker.eq_of_parts hbase rfl rfl rfl)

end

/-! ### The workflow -/

namespace App
variable (app : App env G)

theorem getByUrl_register (w : Worker env G) (u : Url) :
    (app.register w).getByUrl u = if u = w.url then some w else app.getByUrl u := by
  rw [App.getByUrl, register, getByUrl_callRegister]
  split
  · exact List.getElem?_concat_length
  · cases hget : app.registry.registry.getByUrl u with
    | none => rw [App.getByUrl, hget]; rfl
    | some r =>
      -- the workers that are there keep their handles
      obtain ⟨id, -, hid, -⟩ := app.keyed.url_of_getByUrl hget
      obtain ⟨w', hw', -⟩ := app.housed r ⟨id, hid⟩
      rw [App.getByUrl, hget, Option.bind_some, Option.bind_some,
        List.getElem?_append_left (List.getElem?_eq_some_iff.mp hw').1]

/-- What the find step finds is registered. -/
theorem getByUrl_of_mem {url : Url} {w : Worker env G} (h : w ∈ app.workersToUpdate url) :
    app.getByUrl w.url = some w := by
  obtain ⟨r, hr, hw⟩ := List.mem_filterMap.mp h
  obtain ⟨rest, hperm⟩ :=
    Workflows.findWorkersByUrl_split app.keyed url (Workflows.updateDpAware url)
  have hregistered := app.keyed.mem_getAll.mp (hperm.symm.subset (mem_append_left _ hr))
  obtain ⟨w', hw', hr'⟩ := app.housed r hregistered
  obtain rfl := Option.some.inj (hw'.symm.trans hw)
  have hurl : w'.url = r.url := congrArg Registry.Worker.url hr'
  rw [App.getByUrl, hurl, app.keyed.registered_iff.mp hregistered, Option.bind_some, hw]

/-- The loop, over workers that are registered as `find` has them. -/
theorem getByUrl_updateWorkerProperties (request : WorkerUpdateRequest) (now : Url → Nat)
    (find : Url → Option (Worker env G)) (u : Url) : ∀ (ws : List (Worker env G)) (app : App env G),
      (∀ w ∈ ws, find w.url = some w) →
      (app.updateWorkerProperties request now ws).1.getByUrl u =
        if u ∈ ws.map Worker.url then (find u).map (newWorker request (now u))
        else app.getByUrl u := by
  intro ws
  induction ws with
  | nil => exact fun _ _ => rfl
  | cons w ws ih =>
    intro app h
    rw [updateWorkerProperties, ih _ fun w' hw' => h w' (mem_cons_of_mem _ hw'),
      getByUrl_register, newWorker_url, map_cons]
    by_cases hmem : u ∈ ws.map Worker.url
    · rw [if_pos hmem, if_pos (mem_cons_of_mem _ hmem)]
    · by_cases hu : u = w.url
      · subst hu
        rw [if_neg hmem, if_pos rfl, if_pos mem_cons_self, h w mem_cons_self, Option.map_some]
      · rw [if_neg hmem, if_neg hu, if_neg fun h => (List.mem_cons.mp h).elim hu hmem]

/-- **The registry after an update**: the workers that are found are built again, and the others stay. -/
theorem getByUrl_updateWorkers (url : Url) (request : WorkerUpdateRequest) (now : Url → Nat) (u : Url) :
    (app.updateWorkers url request now).1.getByUrl u =
      if u ∈ (app.workersToUpdate url).map Worker.url then
        (app.getByUrl u).map (newWorker request (now u))
      else app.getByUrl u := by
  have hfound : ∀ w ∈ app.workersToUpdate url, app.getByUrl w.url = some w :=
    fun w hw => app.getByUrl_of_mem hw
  cases hws : app.workersToUpdate url with
  | nil => rw [updateWorkers, hws]; rfl
  | cons w ws =>
    rw [hws] at hfound
    rw [updateWorkers, hws]
    exact getByUrl_updateWorkerProperties request now app.getByUrl u (w :: ws) app hfound

/-- The update changes the workers it is for, each in what the request names, and nothing else. -/
def ChangesOnlyNamed (url : Url) (request : WorkerUpdateRequest) (now : Url → Nat) : Prop :=
  ∀ u, (app.updateWorkers url request now).1.getByUrl u =
    if u ∈ (app.workersToUpdate url).map Worker.url then (app.getByUrl u).map (Worker.amend request)
    else app.getByUrl u

/-- **An update changes only what it names if the workers are as built**: healthy, idle since they were built,
and with the default circuit breaker, in the state of a new one. -/
theorem changesOnlyNamed_iff (url : Url) (request : WorkerUpdateRequest) (now : Url → Nat) :
    app.ChangesOnlyNamed url request now ↔
      ∀ w ∈ app.workersToUpdate url, w.base.AsBuilt (now w.url) := by
  constructor
  · intro h w hw
    have hu := h w.url
    rw [getByUrl_updateWorkers, if_pos (mem_map_of_mem hw), if_pos (mem_map_of_mem hw),
      app.getByUrl_of_mem hw] at hu
    exact (newWorker_eq_amend_iff request _ w).mp (Option.some.inj hu)
  · intro h u
    rw [getByUrl_updateWorkers]
    split
    · next hu =>
        obtain ⟨w, hw, rfl⟩ := List.mem_map.mp hu
        rw [app.getByUrl_of_mem hw, Option.map_some, Option.map_some,
          (newWorker_eq_amend_iff request _ w).mpr (h w hw)]
    · rfl

end App

/-! ### A worker that is down -/

/-- Ids that never repeat, URLs whose host is not read, and cards that are their ids. -/
def plainEnv : Env Nat Str where
  toEnv := Workflows.plainEnv
  uuid_injective := Registry.countedId_injective
  urlParse := fun _ => .ok none
  cardId := id

/-- It opens at the first failure, has had one, is found unhealthy, and serves a request. -/
def downWorker : Worker plainEnv Unit :=
  .basic { BasicWorkerBuilder.build 0
      { url := "http://w:8000".toList, circuitBreakerConfig := .firstFailure 1000 } with
    counters := ⟨1, {}⟩
    healthy := false
    consecutiveFailures := 3
    circuitBreaker := (CircuitBreaker.new 0).recordFailure (.firstFailure 1000) 5 }

/-- A new priority. -/
def priorityRequest : WorkerUpdateRequest :=
  ⟨⟨none, some "5".toList, none⟩, none, none, none, none, none, none⟩

/-- A new priority makes it selectable, and forgets the request and the threshold. -/
theorem priority_revives :
    let app := App.new.register downWorker
    let url := "http://w:8000".toList
    let (after, _) := app.updateWorkers url priorityRequest fun _ => 10
    ((app.getByUrl url).map fun w => (w.isAvailable 11, w.load)) = some (false, 1) ∧
      ((after.getByUrl url).map fun w => (w.isAvailable 11, w.load)) = some (true, 0) ∧
      ((after.getByUrl url).map fun w => w.base.circuitBreakerConfig.failureThreshold) = some 5 ∧
      ¬ app.ChangesOnlyNamed url priorityRequest fun _ => 10 := by
  refine ⟨by decide +kernel, by decide +kernel, by decide +kernel, fun h => ?_⟩
  have hload := congrArg (Option.map Worker.load) (h "http://w:8000".toList)
  exact absurd hload (by decide +kernel)

end QwenStack.Update
