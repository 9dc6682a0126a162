import QwenStack.Workflows.Loops

/-!
# Worker workflows — the ids of workers

`create_worker` reserves an id for the URL as it is written in the request, and the create step looks
for a worker at that URL; the workers are registered at the URLs made from it.  The law of identity
holds where the two are the same (`worker_identity_iff`).  An id is never given to a second URL
(`lookup_calls_back`), so the reserved one reaches a worker only at the URL of the request.

An id leads to the URL of its worker, and `update_worker` and `delete_worker` look for workers by that
URL: as it is, or as what a rank is appended to.  No URL begins with itself and an `@`
(`managed_by_id_iff`).
-/

namespace QwenStack.Workflows
open Assoc List
open Registry (Url ModelId WorkerId Worker ConnectionMode Keyed Registered State)

variable {P : Type} {env : Env P}

/-! ### The URL of the request -/

/-- The workers of an accepted request are registered at its own URL: it has a scheme, and no ranks are
appended. -/
def keepsUrl (env : Env P) (config : WorkerConfigRequest) : Bool :=
  if config.isExternal = true then hasHttpScheme config.url
  else hasScheme config.url && !env.dpAware

/-- The request as it is accepted. -/
def accept (env : Env P) (config : WorkerConfigRequest) : WorkerConfigRequest :=
  { config with dpAware := env.dpAware }

theorem accept_isExternal (config : WorkerConfigRequest) :
    (accept env config).isExternal = config.isExternal := rfl

theorem createWorker_eq (config : WorkerConfigRequest) (app : App P) :
    createWorker env config app = (app.call env (.reserveIdForUrl config.url),
      (app.registry.registry.urlToId.lookup config.url).getD (env.uuid app.registry.drawn),
      .addWorker (accept env config)) := rfl

theorem append_ne_self {l : Str} (hl : l ≠ []) (url : Url) : l ++ url ≠ url := by
  intro h
  have := congrArg List.length h
  rw [length_append] at this
  exact hl (List.length_eq_zero_iff.mp (by omega))

theorem normalizeUrl_eq_self_iff (url : Url) (mode : ConnectionMode) :
    normalizeUrl url mode = url ↔ hasScheme url = true := by
  by_cases h : hasScheme url = true
  · exact iff_of_true (if_pos h) h
  · rw [normalizeUrl.eq_def, if_neg h]
    refine iff_of_false ?_ h
    cases mode with
    | http => exact append_ne_self (by decide) url
    | grpc port => exact append_ne_self (by decide) url

theorem normalizeExternalUrl_eq_self_iff (url : Url) :
    normalizeExternalUrl url = url ↔ hasHttpScheme url = true := by
  rw [normalizeExternalUrl]
  split
  · next h => exact iff_of_true rfl h
  · next h => exact iff_of_false (append_ne_self (by decide) url) h

theorem length_le_normalizeUrl (url : Url) (mode : ConnectionMode) :
    url.length ≤ (normalizeUrl url mode).length := by
  rw [normalizeUrl.eq_def]
  split
  · exact Nat.le_refl _
  · cases mode with
    | http => exact (suffix_append _ _).length_le
    | grpc port => exact (suffix_append _ _).length_le

/-- A URL with a rank is longer. -/
theorem rankUrl_normalizeUrl_ne (url : Url) (mode : ConnectionMode) (rank : Nat) :
    rankUrl (normalizeUrl url mode) rank ≠ url := by
  intro h
  have := congrArg List.length h
  rw [rankUrl, length_append, length_cons] at this
  have := length_le_normalizeUrl url mode
  omega

/-- Where the URL is kept, it is that of every worker, and of one at least. -/
theorem planned_of_keepsUrl {config : WorkerConfigRequest} {d : Discovery} {urls : List Url}
    (h : plannedUrls (accept env config) d = some urls) (hkeeps : keepsUrl env config = true) :
    config.url ∈ urls ∧ ∀ u ∈ urls, u = config.url := by
  rw [plannedUrls, accept_isExternal] at h
  rw [keepsUrl] at hkeeps
  split at h
  · next hext =>
    rw [if_pos hext] at hkeeps
    split at h
    · next cards _ =>
      cases h
      have hurl : normalizeExternalUrl (accept env config).url = config.url :=
        (normalizeExternalUrl_eq_self_iff config.url).mpr hkeeps
      rw [hurl]
      exact ⟨List.mem_replicate.mpr ⟨by omega, rfl⟩, fun u hu => (List.mem_replicate.mp hu).2⟩
    · cases h
  · next hext =>
    rw [if_neg hext, Bool.and_eq_true, Bool.not_eq_true'] at hkeeps
    split at h
    · next mode dpInfo _ hdp =>
      cases h
      have hflag : env.dpAware = dpInfo.isSome := dpAware_eq hdp
      rw [hkeeps.2] at hflag
      obtain rfl := Option.isNone_iff_eq_none.mp (by rw [← Option.not_isSome, ← hflag]; rfl)
      have hurl : normalizeUrl (accept env config).url mode = config.url :=
        (normalizeUrl_eq_self_iff config.url mode).mpr hkeeps.1
      rw [expand, hurl]
      exact ⟨mem_singleton_self _, fun u hu => List.mem_singleton.mp hu⟩
    · cases h

/-- Where it is not kept, no worker has it. -/
theorem keepsUrl_of_planned {config : WorkerConfigRequest} {d : Discovery} {urls : List Url}
    (h : plannedUrls (accept env config) d = some urls) (hmem : config.url ∈ urls) :
    keepsUrl env config = true := by
  rw [plannedUrls, accept_isExternal] at h
  rw [keepsUrl]
  split at h
  · next hext =>
    rw [if_pos hext]
    split at h
    · cases h
      exact (normalizeExternalUrl_eq_self_iff config.url).mp (List.mem_replicate.mp hmem).2.symm
    · cases h
  · next hext =>
    rw [if_neg hext, Bool.and_eq_true, Bool.not_eq_true']
    split at h
    · next mode dpInfo _ hdp =>
      cases h
      have hflag : env.dpAware = dpInfo.isSome := dpAware_eq hdp
      cases dpInfo with
      | none =>
        refine ⟨(normalizeUrl_eq_self_iff config.url mode).mp ?_, hflag⟩
        exact (List.mem_singleton.mp hmem).symm
      | some dpSize =>
        obtain ⟨rank, -, hrank⟩ := List.mem_map.mp hmem
        exact absurd hrank (rankUrl_normalizeUrl_ne config.url mode rank)
    · cases h

/-! ### Reserved ids -/

/-- A URL that has an id keeps it when workers are registered. -/
theorem lookup_registerAll_keep (env : Env P) {u : Url} {id : WorkerId} : ∀ (ws : List Worker) {s : State},
    s.registry.urlToId.lookup u = some id →
      (registerAll env ws s).registry.urlToId.lookup u = some id := by
  intro ws
  induction ws with
  | nil => exact fun hu => hu
  | cons w ws ih =>
    intro s hu
    refine ih ?_
    simp only [State.call, Registry.register_urlToId, lookup_put]
    split
    · next he => rw [Registry.registerId, ← he, hu, Option.getD_some]
    · exact hu

/-- After the reservation the URL has the id that `create_worker` returns. -/
theorem lookup_createWorker (config : WorkerConfigRequest) (app : App P) :
    (createWorker env config app).1.registry.registry.urlToId.lookup config.url =
      some (createWorker env config app).2.1 := by
  simp only [createWorker_eq, App.call, State.call, Registry.WorkerRegistry.reserveIdForUrl,
    lookup_orInsert, if_true]

/-- **A worker under the reserved id** has the URL of the request, and the reservation was there when
it was registered. -/
theorem url_of_reserved (hinj : Function.Injective env.uuid) {s s' : State}
    {calls : List Registry.Call} (hkeyed : Keyed env.uuid s)
    (hlater : s' = calls.foldl (State.call env.blake3 env.uuid) s) {url : Url} {id : WorkerId}
    (hid : s.registry.urlToId.lookup url = some id) {ws : List Worker} {w : Worker}
    (hw : (registerAll env ws s').registry.get id = some w) :
    w.url = url ∧ s'.registry.urlToId.lookup url = some id := by
  obtain ⟨n, hn, rfl⟩ := hkeyed.drawn url id hid
  have hkeyed' : Keyed env.uuid s' := hlater ▸ hkeyed.calls hinj calls
  have hdrawn : n < s'.drawn := by
    rw [hlater]
    exact hn.trans_le (Registry.drawn_calls calls)
  -- back over the registration, and over what came before it
  have hurl := (keyed_registerAll hkeyed' hinj ws).url _ w hw
  rw [registerAll_eq_calls] at hurl
  have hback := Registry.lookup_calls_back hinj _ hkeyed' hdrawn hurl
  have hfirst := Registry.lookup_calls_back hinj calls hkeyed hn (hlater ▸ hback)
  have hsame := hkeyed.injective _ _ _ hfirst hid
  exact ⟨hsame, hsame ▸ hback⟩

/-! ### The law of identity -/

/-- The id of the create step. -/
def createStep (config : WorkerConfigRequest) : Str :=
  if config.isExternal = true then "create_workers".toList else "create_worker".toList

/-- The registration of a request whose id is `workerId`: if it succeeds, a worker that it created has
the id; and if one of its workers is registered already, it fails in the create step, and the registry
is as it was. -/
def IdentityLaw (env : Env P) (workerId : WorkerId) (config : WorkerConfigRequest) (d : Discovery)
    (app : App P) : Prop :=
  (∀ workers, (executeJob env (.addWorker config) d app).2 = .ok workers →
      ∃ w ∈ workers,
        (executeJob env (.addWorker config) d app).1.registry.registry.get workerId = some w) ∧
    ∀ urls ∈ plannedUrls config d, (∃ u ∈ urls, app.registry.registry.getByUrl u ≠ none) →
      (∃ message, (executeJob env (.addWorker config) d app).2 =
          .error (.stepFailed (createStep config) message)) ∧
        (executeJob env (.addWorker config) d app).1.registry = app.registry

/-- When a request that was accepted in `app₀` is registered in `app` as the law says. -/
def Identified (env : Env P) (config : WorkerConfigRequest) (d : Discovery) (app₀ app : App P) :
    Prop :=
  -- a probe fails
  plannedUrls (accept env config) d = none ∨
    -- the check of the create step finds the worker
    (config.isExternal = false ∧ app.registry.registry.getByUrl config.url ≠ none) ∨
    -- the URL is kept, has no worker, and has the id that was reserved
    keepsUrl env config = true ∧ app.registry.registry.getByUrl config.url = none ∧
      app.registry.registry.urlToId.lookup config.url =
        (createWorker env config app₀).1.registry.registry.urlToId.lookup config.url

/-- **Whatever happens to the registry before the request, and between it and its job, the law of
identity holds for it exactly if it is `Identified`.** -/
theorem worker_identity_iff {env : Env P} (hinj : Function.Injective env.uuid)
    (config : WorkerConfigRequest) (d : Discovery) {before between : List Registry.Call}
    {app₀ app : App P} (hbefore : app₀.registry = Registry.run env.blake3 env.uuid before)
    (hbetween : app.registry = between.foldl (State.call env.blake3 env.uuid)
      (createWorker env config app₀).1.registry) :
    IdentityLaw env (createWorker env config app₀).2.1 (accept env config) d app ↔
      Identified env config d app₀ app := by
  have hkeyed₀ : Keyed env.uuid app₀.registry := hbefore ▸ Registry.run_keyed _ hinj before
  have hkeyed₁ : Keyed env.uuid (createWorker env config app₀).1.registry :=
    @Keyed.reserve env.blake3 _ _ hkeyed₀ hinj config.url
  have hkeyed : Keyed env.uuid app.registry := hbetween ▸ hkeyed₁.calls hinj between
  have hreserved := @lookup_createWorker _ env config app₀
  rcases @prepare_cases _ env (accept env config) d app with ⟨hurls, e, hprepare⟩ |
      ⟨urls, hurls, ⟨hlocal, hold, message, hprepare⟩ | ⟨hno, objects, labels, hprepare, hprepared⟩⟩
  · -- a probe fails
    have hadd : executeJob env (.addWorker (accept env config)) d app = (app, .error e) := by
      rw [executeJob, addWorkers, hprepare]
    refine iff_of_true ⟨fun workers hok => ?_, fun urls hurls' => ?_⟩ (Or.inl hurls)
    · rw [hadd] at hok
      cases hok
    · rw [hurls] at hurls'
      cases hurls'
  · -- the create step finds a worker at the URL of the request
    have hadd : executeJob env (.addWorker (accept env config)) d app =
        (app, .error (.stepFailed "create_worker".toList message)) := by
      rw [executeJob, addWorkers, hprepare]
    have hstep : createStep (accept env config) = "create_worker".toList :=
      if_neg (by rw [hlocal]; decide)
    refine iff_of_true ⟨fun workers hok => ?_, fun _ _ _ => ?_⟩ (Or.inr (Or.inl ⟨hlocal, hold⟩))
    · rw [hadd] at hok
      cases hok
    · rw [hadd, hstep]
      exact ⟨⟨message, rfl⟩, rfl⟩
  · -- the workers are registered
    have hadd : executeJob env (.addWorker (accept env config)) d app =
        (updatePolicies env (objects.map Object.worker) labels (registerWorkers env objects app),
          .ok (objects.map Object.worker)) := by
      rw [executeJob, addWorkers, hprepare]
    have hmap : (objects.map Object.worker).map Worker.url = urls := by
      rw [map_map]
      exact hprepared.urls
    constructor
    · intro hlaw
      obtain ⟨w, hw, hget⟩ := hlaw.1 (objects.map Object.worker) (by rw [hadd])
      rw [hadd] at hget
      obtain ⟨hurl, hlookup⟩ := url_of_reserved hinj hkeyed₁ hbetween hreserved hget
      have hmem : config.url ∈ urls := by
        rw [← hurl, ← hmap]
        exact mem_map_of_mem hw
      refine Or.inr (Or.inr ⟨keepsUrl_of_planned hurls hmem, ?_, hlookup.trans hreserved.symm⟩)
      -- a worker there would have stopped the job
      cases hold : app.registry.registry.getByUrl config.url with
      | none => rfl
      | some old =>
        obtain ⟨⟨message, herror⟩, -⟩ := hlaw.2 urls hurls ⟨config.url, hmem, by
          rw [hold]
          exact Option.some_ne_none old⟩
        rw [hadd] at herror
        cases herror
    · rintro (hnone | ⟨hlocal, hold⟩ | ⟨hkeeps, hfree, hlookup⟩)
      · rw [hurls] at hnone
        cases hnone
      · exact absurd (hno hlocal) hold
      · obtain ⟨hmem, hall⟩ := planned_of_keepsUrl hurls hkeeps
        refine ⟨fun workers hok => ?_, fun urls' hurls' hexists => ?_⟩
        · rw [hadd] at hok ⊢
          cases hok
          rw [← hmap] at hmem
          obtain ⟨w, hw, -, hget⟩ := getByUrl_registerAll_of_mem hinj hkeyed hmem
          refine ⟨w, hw, ?_⟩
          obtain ⟨id, hid, hworker, -⟩ := (keyed_registerAll hkeyed hinj _).url_of_getByUrl hget
          have hkept := lookup_registerAll_keep env (objects.map Object.worker)
            (hlookup.trans hreserved)
          cases hid.symm.trans hkept
          exact hworker
        · cases hurls.symm.trans hurls'
          obtain ⟨u, hu, hsome⟩ := hexists
          rw [hall u hu] at hsome
          exact absurd hfree hsome

/-- A request for a URL with a scheme, and its registration. -/
theorem worker_identity_plain :
    IdentityLaw plainEnv (createWorker plainEnv (plainConfig "http://a".toList ['m']) (App.new 0)).2.1
      (accept plainEnv (plainConfig "http://a".toList ['m'])) plainDiscovery
      (createWorker plainEnv (plainConfig "http://a".toList ['m']) (App.new 0)).1 :=
  (@worker_identity_iff _ plainEnv Registry.countedId_injective (plainConfig "http://a".toList ['m'])
    plainDiscovery [] [] (App.new 0) _ rfl rfl).mpr (Or.inr (Or.inr (by decide)))

/-- **A URL without a scheme**: the id that was reserved for it is that of no worker. -/
theorem reserved_id_unused :
    ¬ ∀ (config : WorkerConfigRequest) (d : Discovery) (before between : List Registry.Call)
        (app₀ app : App Nat),
        app₀.registry = Registry.run plainEnv.blake3 plainEnv.uuid before →
        app.registry = between.foldl (State.call plainEnv.blake3 plainEnv.uuid)
          (createWorker plainEnv config app₀).1.registry →
        IdentityLaw plainEnv (createWorker plainEnv config app₀).2.1 (accept plainEnv config) d app := by
  intro h
  obtain ⟨hsome, -⟩ := h (plainConfig ['a'] ['m']) plainDiscovery [] [] (App.new 0) _ rfl rfl
  obtain ⟨w, -, hget⟩ := hsome _ rfl
  have hnone : (executeJob plainEnv (.addWorker (accept plainEnv (plainConfig ['a'] ['m'])))
      plainDiscovery (createWorker plainEnv (plainConfig ['a'] ['m']) (App.new 0)).1).1.registry.registry.get
        (createWorker plainEnv (plainConfig ['a'] ['m']) (App.new 0)).2.1 = none := by decide
  rw [hnone] at hget
  cases hget

/-! ### Managing by id -/

/-- The job was submitted, and its find step selects the worker. -/
def Selects (env : Env P) (app : App P) (w : Worker) (job : Except WorkerServiceError Job) : Prop :=
  ∃ j, job = .ok j ∧ w ∈ j.select env app

/-- An id leads to the URL of its worker. -/
theorem urlOfId_of_get {app : App P} {id : WorkerId} {w : Worker}
    (hparse : env.parseUuid id = .ok ()) (hw : app.registry.registry.get id = some w) :
    urlOfId env id app = .ok w.url := by
  rw [urlOfId, hparse]
  simp only [Registry.WorkerRegistry.getUrlById, hw]

/-- No URL begins with itself and an `@`. -/
theorem not_prefix_self (url : Url) : ¬ url ++ ['@'] <+: url := by
  intro h
  have := h.length_le
  rw [length_append, length_singleton] at this
  omega

/-- The find step finds a worker by its own URL exactly if it looks for that URL as it is. -/
theorem mem_findWorkersByUrl_self {s : State} (h : Keyed env.uuid s) {w : Worker}
    (hw : Registered s.registry w) (dpAware : Bool) :
    w ∈ findWorkersByUrl s.registry w.url dpAware ↔ dpAware = false := by
  cases dpAware with
  | false => exact iff_of_true ((mem_findWorkersByUrl_exact h).mpr ⟨hw, rfl⟩) rfl
  | true =>
    refine iff_of_false (fun hmem => ?_) (by decide)
    exact not_prefix_self w.url ((mem_findWorkersByUrl_ranks h).mp hmem).2

/-- **A registered worker can be updated and deleted by its id exactly if the router is not DP-aware and
there is no `@` in its URL.** -/
theorem managed_by_id_iff {env : Env P} (hinj : Function.Injective env.uuid)
    (hparse : ∀ n, env.parseUuid (env.uuid n) = .ok ()) {calls : List Registry.Call} {app : App P}
    (hreach : app.registry = Registry.run env.blake3 env.uuid calls) {id : WorkerId} {w : Worker}
    (hw : app.registry.registry.get id = some w) (update : WorkerUpdateRequest) :
    Selects env app w (updateWorkerJob env id update app) ∧
        Selects env app w (deleteWorkerJob env id app) ↔
      env.dpAware = false ∧ '@' ∉ w.url := by
  have hkeyed : Keyed env.uuid app.registry := hreach ▸ Registry.run_keyed _ hinj calls
  obtain ⟨n, -, rfl⟩ := hkeyed.drawn w.url id (hkeyed.url id w hw)
  have hurl := urlOfId_of_get (hparse n) hw
  have hself := mem_findWorkersByUrl_self hkeyed ⟨_, hw⟩
  have hupdate : Selects env app w (updateWorkerJob env (env.uuid n) update app) ↔ '@' ∉ w.url := by
    rw [updateWorkerJob, hurl]
    constructor
    · rintro ⟨j, hj, hmem⟩
      cases hj
      exact of_decide_eq_false ((hself _).mp hmem)
    · exact fun hat => ⟨_, rfl, (hself _).mpr (decide_eq_false hat)⟩
  have hdelete : Selects env app w (deleteWorkerJob env (env.uuid n) app) ↔ env.dpAware = false := by
    rw [deleteWorkerJob, hurl]
    constructor
    · rintro ⟨j, hj, hmem⟩
      cases hj
      exact (hself _).mp hmem
    · exact fun hdp => ⟨_, rfl, (hself _).mpr hdp⟩
  rw [hupdate, hdelete, and_comm]

/-- A worker at a plain URL. -/
theorem managed_by_id_plain :
    let app : App Nat := (App.new 0).call plainEnv (.register (Registry.plainWorker ['a'] ['m']))
    Selects plainEnv app (Registry.plainWorker ['a'] ['m'])
        (updateWorkerJob plainEnv [] ⟨none, none, none⟩ app) ∧
      Selects plainEnv app (Registry.plainWorker ['a'] ['m']) (deleteWorkerJob plainEnv [] app) :=
  (@managed_by_id_iff _ plainEnv Registry.countedId_injective (fun _ => rfl)
    [.register (Registry.plainWorker ['a'] ['m'])] _ rfl [] _ rfl ⟨none, none, none⟩).mpr (by decide)

/-- The deployment, DP-aware. -/
def dpEnv : Env Nat := { plainEnv with dpAware := true }

/-- A DP-aware request is executed. -/
def ranksAdded : List Action :=
  [.execute (.addWorker (accept dpEnv (plainConfig "http://a".toList ['m']))) plainDiscovery]

theorem ranksAdded_isSome : (run dpEnv 0 ranksAdded).isSome = true := by decide

theorem ranksAdded_get : (((run dpEnv 0 ranksAdded).get ranksAdded_isSome).registry.registry.get
    []).isSome = true := by decide

/-- **A worker of a rank** is registered, and neither job selects it. -/
theorem rank_not_managed :
    ¬ ∀ (actions : List Action) (app : App Nat) (id : WorkerId) (w : Worker),
        run dpEnv 0 actions = some app → app.registry.registry.get id = some w →
        Selects dpEnv app w (updateWorkerJob dpEnv id ⟨none, none, none⟩ app) ∧
          Selects dpEnv app w (deleteWorkerJob dpEnv id app) := by
  intro h
  obtain ⟨-, j, hj, hmem⟩ := h _ _ _ _ (Option.some_get ranksAdded_isSome).symm
    (Option.some_get ranksAdded_get).symm
  rw [deleteWorkerJob, urlOfId_of_get rfl (Option.some_get ranksAdded_get).symm] at hj
  cases hj
  exact absurd hmem (by decide)

end QwenStack.Workflows
