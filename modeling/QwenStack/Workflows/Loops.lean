import Mathlib.Data.List.Range
import QwenStack.Registry.Indices
import QwenStack.Workflows.Definitions

/-!
# Worker workflows — what the steps do

The loops over the worker registry, as changes of its map from URLs to workers and of the list of its
workers; what the find step selects (`mem_findWorkersByUrl_exact`, `findWorkersByUrl_split`); and the
one lemma about the steps before the registration (`prepare_cases`): they fail in a probe, or because
the URL of the request is registered, or they make a worker for each planned URL.
-/

namespace QwenStack.Workflows
open Assoc List
open Registry (Url ModelId WorkerId Worker WorkerType ConnectionMode Keyed Registered State)

variable {P : Type} {env : Env P}

/-! ### Registering a list of workers -/

section
variable {s : State}

@[simp] theorem registerAll_nil : registerAll env [] s = s := rfl

@[simp] theorem registerAll_cons (w : Worker) (ws : List Worker) : registerAll env (w :: ws) s =
    registerAll env ws (s.call env.blake3 env.uuid (.register w)) := rfl

theorem keyed_register (h : Keyed env.uuid s) (hinj : Function.Injective env.uuid) (w : Worker) :
    Keyed env.uuid (s.call env.blake3 env.uuid (.register w)) :=
  h.register hinj w

theorem registerAll_eq_calls (ws : List Worker) : registerAll env ws s =
    (ws.map Registry.Call.register).foldl (State.call env.blake3 env.uuid) s := by
  rw [foldl_map, registerAll]

theorem keyed_registerAll (h : Keyed env.uuid s) (hinj : Function.Injective env.uuid)
    (ws : List Worker) : Keyed env.uuid (registerAll env ws s) := by
  rw [registerAll_eq_calls]
  exact h.calls hinj _

variable (hinj : Function.Injective env.uuid)
include hinj

/-- A URL that no worker of the list has is not touched. -/
theorem getByUrl_registerAll_of_not_mem {u : Url} :
    ∀ {ws : List Worker} {s : State}, Keyed env.uuid s → u ∉ ws.map Worker.url →
      (registerAll env ws s).registry.getByUrl u = s.registry.getByUrl u := by
  intro ws
  induction ws with
  | nil => exact fun _ _ => rfl
  | cons w ws ih =>
    intro s h hu
    rw [map_cons, mem_cons, not_or] at hu
    rw [registerAll_cons, ih (keyed_register h hinj w) hu.2, Registry.getByUrl_register h hinj,
      if_neg hu.1]

/-- A URL of the list has a worker of the list. -/
theorem getByUrl_registerAll_of_mem {u : Url} :
    ∀ {ws : List Worker} {s : State}, Keyed env.uuid s → u ∈ ws.map Worker.url →
      ∃ w ∈ ws, w.url = u ∧ (registerAll env ws s).registry.getByUrl u = some w := by
  intro ws
  induction ws with
  | nil => exact fun _ hu => (nomatch hu)
  | cons w ws ih =>
    intro s h hu
    by_cases hmem : u ∈ ws.map Worker.url
    · obtain ⟨w', hw', hurl, hget⟩ := ih (keyed_register h hinj w) hmem
      exact ⟨w', mem_cons_of_mem _ hw', hurl, hget⟩
    · rw [map_cons, mem_cons] at hu
      have hurl := hu.resolve_right hmem
      refine ⟨w, mem_cons_self, hurl.symm, ?_⟩
      rw [registerAll_cons, getByUrl_registerAll_of_not_mem hinj (keyed_register h hinj w) hmem,
        Registry.getByUrl_register h hinj, if_pos hurl]

/-- New and distinct URLs: the workers are added. -/
theorem getAll_registerAll :
    ∀ {ws : List Worker} {s : State}, Keyed env.uuid s → (ws.map Worker.url).Nodup →
      (∀ w ∈ ws, s.registry.getByUrl w.url = none) →
      (registerAll env ws s).registry.getAll.Perm (ws ++ s.registry.getAll) := by
  intro ws
  induction ws with
  | nil => exact fun _ _ _ => List.Perm.refl _
  | cons w ws ih =>
    intro s h hnodup hnew
    rw [map_cons, nodup_cons] at hnodup
    have hrest := ih (keyed_register h hinj w) hnodup.2 fun w' hw' => by
      have hne : w'.url ≠ w.url := fun he => hnodup.1 (he ▸ mem_map_of_mem hw')
      rw [Registry.getByUrl_register h hinj, if_neg hne, hnew w' (mem_cons_of_mem _ hw')]
    rw [Registry.getAll_register_of_new h hinj (hnew w mem_cons_self)] at hrest
    rw [registerAll_cons]
    refine hrest.trans ?_
    rw [← append_assoc]
    exact perm_append_comm

/-- Registering adds one worker for each URL, or less if a URL had one or comes twice. -/
theorem length_getAll_registerAll : ∀ {ws : List Worker} {s : State}, Keyed env.uuid s →
      (registerAll env ws s).registry.getAll.length ≤ ws.length + s.registry.getAll.length ∧
      ((registerAll env ws s).registry.getAll.length = ws.length + s.registry.getAll.length →
        (ws.map Worker.url).Nodup ∧ ∀ w ∈ ws, s.registry.getByUrl w.url = none) := by
  intro ws
  induction ws with
  | nil =>
    intro s _
    refine ⟨?_, fun _ => ⟨nodup_nil, fun _ hw => (nomatch hw)⟩⟩
    rw [length_nil, Nat.zero_add, registerAll_nil]
  | cons w ws ih =>
    intro s h
    obtain ⟨hle, heq⟩ := ih (keyed_register h hinj w)
    rw [registerAll_cons, length_cons]
    cases hold : s.registry.getByUrl w.url with
    | some old =>
      rw [Registry.length_getAll_register_of_old h hold] at hle
      refine ⟨by omega, fun hlength => ?_⟩
      omega
    | none =>
      rw [Registry.getAll_register_of_new h hinj hold, length_append, length_singleton] at hle heq
      refine ⟨by omega, fun hlength => ?_⟩
      obtain ⟨hnodup, hnew⟩ := heq (by omega)
      -- the URLs of the rest are new after `w` is registered, so they are not that of `w`
      have hother : ∀ w' ∈ ws, w'.url ≠ w.url ∧ s.registry.getByUrl w'.url = none := by
        intro w' hw'
        have := hnew w' hw'
        rw [Registry.getByUrl_register h hinj] at this
        split at this
        · cases this
        · next hne => exact ⟨hne, this⟩
      refine ⟨?_, fun w' hw' => ?_⟩
      · rw [map_cons, nodup_cons]
        refine ⟨fun hmem => ?_, hnodup⟩
        obtain ⟨w', hw', he⟩ := List.mem_map.mp hmem
        exact (hother w' hw').1 he
      · rcases List.mem_cons.mp hw' with rfl | hw'
        · exact hold
        · exact (hother w' hw').2

end

/-! ### Removing a list of workers -/

/-- Workers that are registered: the rest stays. -/
theorem removeAll_spec : ∀ {ws rest : List Worker} {s : State}, Keyed env.uuid s →
    s.registry.getAll.Perm (ws ++ rest) →
      Keyed env.uuid (removeAll env ws s) ∧ (removeAll env ws s).registry.getAll.Perm rest := by
  intro ws
  induction ws with
  | nil => exact fun h hperm => ⟨h, hperm⟩
  | cons w ws ih =>
    intro rest s h hperm
    have hw : s.registry.getByUrl w.url = some w := by
      refine h.registered_iff.mp (h.mem_getAll.mp ?_)
      exact hperm.mem_iff.mpr (mem_append_left _ mem_cons_self)
    have hone := @Registry.getAll_removeByUrl env.blake3 _ _ h _ _ hw
    exact @ih _ (s.call env.blake3 env.uuid (.removeByUrl w.url)) (h.removeByUrl w.url)
      (hone.symm.trans hperm).cons_inv

/-! ### The find step -/

section
variable {s : State}

/-- The match is exact. -/
theorem mem_findWorkersByUrl_exact (h : Keyed env.uuid s) {url : Url} {w : Worker} :
    w ∈ findWorkersByUrl s.registry url false ↔ Registered s.registry w ∧ w.url = url := by
  rw [findWorkersByUrl, if_neg Bool.false_ne_true]
  constructor
  · intro hmem
    split at hmem
    · next w' hw' =>
      obtain rfl := List.mem_singleton.mp hmem
      obtain ⟨id, -, hid, hurl⟩ := h.url_of_getByUrl hw'
      exact ⟨⟨id, hid⟩, hurl⟩
    · cases hmem
  · rintro ⟨hw, rfl⟩
    rw [h.registered_iff.mp hw]
    exact mem_singleton_self w

/-- The match is of what follows the URL and an `@`. -/
theorem mem_findWorkersByUrl_ranks (h : Keyed env.uuid s) {url : Url} {w : Worker} :
    w ∈ findWorkersByUrl s.registry url true ↔ Registered s.registry w ∧ url ++ ['@'] <+: w.url := by
  rw [findWorkersByUrl, if_pos rfl, mem_filter, h.mem_getAll, isPrefixOf_iff_prefix]

/-- What the find step selects is registered, each worker once. -/
theorem findWorkersByUrl_split (h : Keyed env.uuid s) (url : Url) (dpAware : Bool) :
    ∃ rest, s.registry.getAll.Perm (findWorkersByUrl s.registry url dpAware ++ rest) := by
  cases dpAware with
  | true =>
    rw [findWorkersByUrl, if_pos rfl]
    exact ⟨_, (filter_append_perm _ _).symm⟩
  | false =>
    rw [findWorkersByUrl, if_neg Bool.false_ne_true]
    split
    · next w hw =>
      obtain ⟨id, -, hid, -⟩ := h.url_of_getByUrl hw
      exact ⟨_, perm_cons_erase (h.mem_getAll.mpr ⟨id, hid⟩)⟩
    · exact ⟨_, List.Perm.refl _⟩

end

/-! ### Before the registration -/

/-- A URL for each rank, or just the URL. -/
def expand (url : Url) : Option Nat → List Url
  | some dpSize => (List.range dpSize).map (rankUrl url)
  | none => [url]

/-- The URLs of the workers of a request, after normalisation and expansion, if no probe fails. -/
def plannedUrls (config : WorkerConfigRequest) (d : Discovery) : Option (List Url) :=
  if config.isExternal = true then
    match discoverModels config d with
    | .ok cards => some (List.replicate (max 1 cards.length) (normalizeExternalUrl config.url))
    | .error _ => none
  else
    match detectConnectionMode config.url d, discoverDpInfo config d with
    | .ok mode, .ok dpInfo => some (expand (normalizeUrl config.url mode) dpInfo)
    | _, _ => none

/-- The type of the workers of a request. -/
def plannedType (config : WorkerConfigRequest) : WorkerType :=
  if config.isExternal = true then .regular else parseWorkerType config

/-- The model of the workers of a local request. -/
def plannedModel (env : Env P) (config : WorkerConfigRequest) (d : Discovery) : ModelId :=
  determineModelId env.unknownModelId config (d.labels.extend (configLabels config))

/-- The metadata is that of the worker. -/
def Matches (env : Env P) (w : Worker) (metadata : Metadata) : Prop :=
  w.modelId = metadata.modelId env.unknownModelId ∧
    ∀ e ∈ metadata.dp, w.url = rankUrl e.1 e.2.1

/-- What the steps make of a request: a worker for each planned URL. -/
structure Prepared (env : Env P) (config : WorkerConfigRequest) (d : Discovery) (app : App P)
    (urls : List Url) (objects : List Object) : Prop where
  handle : ∀ i o, objects[i]? = some o → o.worker.handle = app.objects.length + i
  metadata : ∀ o ∈ objects, Matches env o.worker o.metadata
  urls : objects.map (fun o => o.worker.url) = urls
  type : ∀ o ∈ objects, o.worker.workerType = plannedType config
  model : config.isExternal = false → ∀ o ∈ objects, o.worker.modelId = plannedModel env config d

section
variable {config : WorkerConfigRequest} {d : Discovery} {app : App P}

theorem getElem?_singleton_eq_some {α : Type*} {x y : α} {i : Nat} (h : [x][i]? = some y) :
    i = 0 ∧ x = y := by
  obtain ⟨hi, he⟩ := List.getElem?_eq_some_iff.mp h
  have hzero : i = 0 := by simpa using hi
  subst hzero
  exact ⟨rfl, he⟩

theorem prepared_external (hext : config.isExternal = true) (cards : List ModelId) :
    Prepared env config d app (List.replicate (max 1 cards.length) (normalizeExternalUrl config.url))
      (createExternalWorkers env config cards app).1 := by
  have htype : plannedType config = .regular := if_pos hext
  have hlocal : config.isExternal ≠ false := by rw [hext]; decide
  by_cases hnil : cards = []
  · simp only [createExternalWorkers, if_pos hnil]
    refine ⟨fun i o ho => ?_, fun o ho => ?_, ?_, fun o ho => ?_, fun h => absurd h hlocal⟩
    · obtain ⟨rfl, rfl⟩ := getElem?_singleton_eq_some ho
      rfl
    · obtain rfl := List.mem_singleton.mp ho
      exact ⟨rfl, fun _ he => (nomatch he)⟩
    · rw [hnil]
      rfl
    · obtain rfl := List.mem_singleton.mp ho
      exact htype.symm
  · have hpos := List.length_pos_iff.mpr hnil
    simp only [createExternalWorkers, if_neg hnil]
    refine ⟨fun i o ho => ?_, fun o ho => ?_, ?_, fun o ho => ?_, fun h => absurd h hlocal⟩
    · rw [List.getElem?_map, List.getElem?_zipIdx, Option.map_map, Option.map_eq_some_iff] at ho
      obtain ⟨card, -, rfl⟩ := ho
      simp only [Function.comp_apply, basicWorker, Nat.zero_add]
    · obtain ⟨card, -, rfl⟩ := List.mem_map.mp ho
      exact ⟨rfl, fun _ he => (nomatch he)⟩
    · simp only [map_map, Function.comp_def, basicWorker]
      rw [map_const', length_zipIdx, Nat.max_eq_right hpos]
    · obtain ⟨card, -, rfl⟩ := List.mem_map.mp ho
      exact htype.symm

/-- DP information is there exactly if the request is DP-aware. -/
theorem dpAware_eq {dpInfo : Option Nat} (h : discoverDpInfo config d = .ok dpInfo) :
    config.dpAware = dpInfo.isSome := by
  rw [discoverDpInfo] at h
  cases hc : config.dpAware with
  | false =>
    rw [if_pos hc] at h
    cases h
    rfl
  | true =>
    rw [if_neg (by rw [hc]; decide)] at h
    split at h
    · cases h
      rfl
    · cases h

/-- The create step fails if the URL of the request is registered. -/
theorem createLocalWorker_exists {w : Worker}
    (hw : app.registry.registry.getByUrl config.url = some w) (mode : ConnectionMode)
    (dpInfo : Option Nat) : createLocalWorker env config mode d dpInfo app =
      .error (.stepFailed "create_worker".toList
        ("Worker ".toList ++ config.url ++ " already exists".toList)) := by
  rw [createLocalWorker, hw]

theorem prepared_local (hext : config.isExternal = false) {dpInfo : Option Nat}
    (hdp : discoverDpInfo config d = .ok dpInfo)
    (hno : app.registry.registry.getByUrl config.url = none) (mode : ConnectionMode) :
    ∃ objects labels, createLocalWorker env config mode d dpInfo app = .ok (objects, labels) ∧
      Prepared env config d app (expand (normalizeUrl config.url mode) dpInfo) objects := by
  have htype : plannedType config = parseWorkerType config :=
    if_neg (by rw [hext]; decide)
  have hflag := dpAware_eq hdp
  rw [createLocalWorker, hno]
  cases dpInfo with
  | none =>
    simp only [hflag, Option.isSome_none, Bool.false_eq_true, if_false]
    refine ⟨_, _, rfl, fun i o ho => ?_, fun o ho => ?_, rfl, fun o ho => ?_, fun _ o ho => ?_⟩
    · obtain ⟨rfl, rfl⟩ := getElem?_singleton_eq_some ho
      rfl
    · obtain rfl := List.mem_singleton.mp ho
      exact ⟨rfl, fun _ he => (nomatch he)⟩
    · obtain rfl := List.mem_singleton.mp ho
      exact htype.symm
    · obtain rfl := List.mem_singleton.mp ho
      rfl
  | some dpSize =>
    simp only [hflag, Option.isSome_some, if_true]
    refine ⟨_, _, rfl, fun i o ho => ?_, fun o ho => ?_, ?_, fun o ho => ?_, fun _ o ho => ?_⟩
    · rw [List.getElem?_map, Option.map_eq_some_iff] at ho
      obtain ⟨rank, hrank, rfl⟩ := ho
      obtain ⟨hi, rfl⟩ := List.getElem?_eq_some_iff.mp hrank
      simp only [dpAwareWorker, basicWorker, getElem_range]
    · obtain ⟨rank, -, rfl⟩ := List.mem_map.mp ho
      refine ⟨rfl, fun e he => ?_⟩
      cases he
      rfl
    · simp only [map_map, Function.comp_def, dpAwareWorker, basicWorker, expand]
    · obtain ⟨rank, -, rfl⟩ := List.mem_map.mp ho
      exact htype.symm
    · obtain ⟨rank, -, rfl⟩ := List.mem_map.mp ho
      rfl

/-- **The steps before the registration.** -/
theorem prepare_cases (config : WorkerConfigRequest) (d : Discovery) (app : App P) :
    plannedUrls config d = none ∧ (∃ e, prepare env config d app = .error e) ∨
      ∃ urls, plannedUrls config d = some urls ∧
        ((config.isExternal = false ∧ app.registry.registry.getByUrl config.url ≠ none ∧
            ∃ message, prepare env config d app = .error (.stepFailed "create_worker".toList message)) ∨
          (config.isExternal = false → app.registry.registry.getByUrl config.url = none) ∧
            ∃ objects labels, prepare env config d app = .ok (objects, labels) ∧
              Prepared env config d app urls objects) := by
  cases hext : config.isExternal with
  | true =>
    have hprepare : prepare env config d app = prepareExternal env config d app := if_pos hext
    rw [hprepare, prepareExternal, plannedUrls, if_pos hext]
    cases hcards : discoverModels config d with
    | error e => exact Or.inl ⟨rfl, e, rfl⟩
    | ok cards =>
      exact Or.inr ⟨_, rfl, Or.inr ⟨fun h => (nomatch h), _, _, rfl, prepared_external hext cards⟩⟩
  | false =>
    have hneg : ¬ config.isExternal = true := by rw [hext]; decide
    have hprepare : prepare env config d app = prepareLocal env config d app := if_neg hneg
    rw [hprepare, prepareLocal, plannedUrls, if_neg hneg]
    cases hmode : detectConnectionMode config.url d with
    | error e => exact Or.inl ⟨rfl, e, rfl⟩
    | ok mode =>
      cases hdp : discoverDpInfo config d with
      | error e => exact Or.inl ⟨rfl, e, rfl⟩
      | ok dpInfo =>
        cases hold : app.registry.registry.getByUrl config.url with
        | some w =>
          exact Or.inr ⟨_, rfl, Or.inl ⟨rfl, Option.some_ne_none w, _,
            createLocalWorker_exists hold mode dpInfo⟩⟩
        | none =>
          obtain ⟨objects, labels, hcreate, hprepared⟩ := @prepared_local _ env _ _ _ hext _ hdp hold mode
          exact Or.inr ⟨_, rfl, Or.inr ⟨fun _ => rfl, objects, labels, hcreate, hprepared⟩⟩

/-- What an add that succeeds has done. -/
theorem addWorkers_ok {app' : App P} {workers : List Worker}
    (h : addWorkers env config d app = (app', .ok workers)) :
    ∃ urls objects labels, plannedUrls config d = some urls ∧
      Prepared env config d app urls objects ∧
      (config.isExternal = false → app.registry.registry.getByUrl config.url = none) ∧
      workers = objects.map Object.worker ∧
      app' = updatePolicies env workers labels (registerWorkers env objects app) := by
  rw [addWorkers] at h
  rcases @prepare_cases _ env config d app with ⟨-, e, hprepare⟩ |
      ⟨urls, hurls, ⟨-, -, message, hprepare⟩ | ⟨hno, objects, labels, hprepare, hprepared⟩⟩
  · rw [hprepare] at h
    cases h
  · rw [hprepare] at h
    cases h
  · rw [hprepare] at h
    cases h
    exact ⟨urls, objects, labels, hurls, hprepared, hno, rfl, rfl⟩

end

/-! ### Worker objects -/

section
variable {app : App P}

/-- Each registered worker has its metadata. -/
def Housed (env : Env P) (app : App P) : Prop := ∀ w, Registered app.registry.registry w →
  ∃ metadata, app.objects[w.handle]? = some metadata ∧ Matches env w metadata

/-- The new workers are housed, and those that stay. -/
theorem Housed.registerWorkers (h : Housed env app) (hkeyed : Keyed env.uuid app.registry)
    (hinj : Function.Injective env.uuid) {config : WorkerConfigRequest} {d : Discovery}
    {urls : List Url} {objects : List Object} (hprepared : Prepared env config d app urls objects) :
    Housed env (registerWorkers env objects app) := by
  intro w hw
  have hget := (keyed_registerAll hkeyed hinj _).registered_iff.mp hw
  by_cases hmem : w.url ∈ (objects.map Object.worker).map Worker.url
  · obtain ⟨w', hw', -, hget'⟩ := getByUrl_registerAll_of_mem hinj hkeyed hmem
    cases hget'.symm.trans hget
    obtain ⟨o, ho, rfl⟩ := List.mem_map.mp hw'
    obtain ⟨i, hi⟩ := List.mem_iff_getElem?.mp ho
    refine ⟨o.metadata, ?_, hprepared.metadata o ho⟩
    rw [hprepared.handle i o hi, Workflows.registerWorkers,
      List.getElem?_append_right (Nat.le_add_right _ _), Nat.add_sub_cancel_left, List.getElem?_map, hi]
    rfl
  · rw [getByUrl_registerAll_of_not_mem hinj hkeyed hmem] at hget
    obtain ⟨metadata, hmetadata, hmatches⟩ := h w (hkeyed.registered_iff.mpr hget)
    refine ⟨metadata, ?_, hmatches⟩
    rw [Workflows.registerWorkers, List.getElem?_append_left (List.getElem?_eq_some_iff.mp hmetadata).1,
      hmetadata]

/-- **An update registers each worker again, at its URL.** -/
theorem updateWorkerProperties_spec (hinj : Function.Injective env.uuid)
    (request : WorkerUpdateRequest) : ∀ (ws : List Worker) {app : App P},
      Keyed env.uuid app.registry →
      (∀ w ∈ ws, app.registry.registry.getByUrl w.url ≠ none ∧
        ∃ metadata, app.objects[w.handle]? = some metadata ∧ Matches env w metadata) →
      (updateWorkerProperties env request ws app).1.policies = app.policies ∧
        (updateWorkerProperties env request ws app).1.registry.registry.getAll.length =
          app.registry.registry.getAll.length ∧
        (updateWorkerProperties env request ws app).2.length = ws.length := by
  intro ws
  induction ws with
  | nil => exact fun _ _ => ⟨rfl, rfl, rfl⟩
  | cons w ws ih =>
    intro app hkeyed hws
    obtain ⟨hold, metadata, hmetadata, -, hdp⟩ := hws w mem_cons_self
    -- the new worker has the URL of the old one
    have hurl : (updatedWorker env request w app).worker.url = w.url := by
      rw [updatedWorker, hmetadata, Option.getD_some]
      cases hm : metadata.dp with
      | none => rfl
      | some e => exact (hdp e hm).symm
    obtain ⟨old, hold⟩ := Option.ne_none_iff_exists'.mp hold
    rw [← hurl] at hold
    have hlength := @Registry.length_getAll_register_of_old env.blake3 _ _ hkeyed _ _ hold
    obtain ⟨hpolicies, hgetAll, hupdated⟩ :=
      @ih (registerWorkers env [updatedWorker env request w app] app)
        (keyed_register hkeyed hinj _) fun w' hw' => by
          obtain ⟨hold', metadata', hmetadata', hmatches'⟩ := hws w' (mem_cons_of_mem _ hw')
          refine ⟨?_, metadata', ?_, hmatches'⟩
          · simp only [registerWorkers, map_cons, map_nil, registerAll_cons, registerAll_nil,
              Registry.getByUrl_register hkeyed hinj]
            split
            · exact Option.some_ne_none _
            · exact hold'
          · rw [registerWorkers,
              List.getElem?_append_left (List.getElem?_eq_some_iff.mp hmetadata').1, hmetadata']
    exact ⟨hpolicies, hgetAll.trans hlength, congrArg (· + 1) hupdated⟩

end

/-! ### A small deployment -/

/-- Ids that never repeat, and no policy but the default. -/
def plainEnv : Env Nat where
  blake3 := Registry.letterHash
  uuid := Registry.countedId
  unknownModelId := ['?']
  createPolicyFromType _ := none
  prefillIsBucket := true
  bucketAdjustIntervalSecs := 5
  dpAware := false
  parseUuid _ := .ok ()

/-- A request that names nothing but the URL and the model. -/
def plainConfig (url : Url) (modelId : ModelId) : WorkerConfigRequest where
  url := url
  apiKey := none
  modelId := some modelId
  workerType := none
  bootstrapPort := none
  runtime := none
  labels := []
  priority := none
  cost := none
  dpAware := false

/-- A server that is up, of two ranks. -/
def plainDiscovery : Discovery where
  httpHealth := .ok ()
  grpcHealth := .error []
  labels := []
  detectedRuntimeType := none
  dpSize := .ok 2
  models := .ok []

end QwenStack.Workflows
