import QwenStack.Workflows.Loops

/-!
# Worker workflows — the buckets of the prefill workers

After a registration the bucket of every model that has a prefill worker is made anew, from the workers
that are registered.  A bucket whose model has none is left as it is, and a removal does not touch the
buckets at all.  So the buckets follow the pool in every state of a run of adds and removals exactly if
no removal takes a prefill worker and no add takes the URLs of all the prefill workers of a model
(`buckets_follow_iff`).
-/

namespace QwenStack.Workflows
open Assoc List
open BucketPolicy (Bucket Boundary)
open Registry (Url ModelId WorkerId Worker WorkerType Keyed Registered State)

variable {P : Type}

/-- The owners of the boundaries of a bucket. -/
def owners (b : Bucket) : List Url := b.boundary.map Boundary.url

/-- The URLs `f` reads in the bucket of a model, if there is one. -/
def bucketUrls (f : Bucket → List Url) (app : App P) (key : ModelId) : List Url :=
  ((app.buckets.lookup key).map f).getD []

def isPrefill : WorkerType → Bool
  | .prefill _ => true
  | _ => false

/-- The prefill workers of a model. -/
def prefillWorkers (env : Env P) (app : App P) (key : ModelId) : List Worker :=
  app.registry.registry.getPrefillWorkers.filter fun w =>
    decide (normalizeModelKey env.unknownModelId w.modelId = key)

/-- The URLs `f` reads in each bucket are those of the prefill workers of its model. -/
def Follows (env : Env P) (f : Bucket → List Url) (app : App P) : Prop := ∀ key url,
  url ∈ bucketUrls f app key ↔ url ∈ (prefillWorkers env app key).map Worker.url

/-- Each bucket has the prefill workers of its model, in its list and as owners of its boundaries. -/
def BucketsFollow (env : Env P) (app : App P) : Prop :=
  Follows env Bucket.prefillWorkerUrls app ∧ Follows env owners app

/-! ### Runs of adds and removals -/

/-- A workflow that changes the pool. -/
inductive PoolWorkflow where
  | add (config : WorkerConfigRequest) (d : Discovery)
  | remove (url : Url)

/-- The job of the workflow. -/
def PoolWorkflow.execute (env : Env P) (app : App P) : PoolWorkflow → App P × Except WorkflowError (List Worker)
  | .add config d => addWorkers env config d app
  | .remove url => removeWorkers env url app

/-- One workflow that completes. -/
def poolStep (env : Env P) (app : App P) (a : PoolWorkflow) : Option (App P) :=
  match a.execute env app with
  | (app, .ok _) => some app
  | (_, .error _) => none

def poolRun (env : Env P) (defaultPolicy : P) (workflows : List PoolWorkflow) : Option (App P) :=
  Runs.exec (poolStep env) (App.new defaultPolicy) workflows

/-- A model that has a prefill worker has one whose URL the request does not take, or it is the model of
the request, and the workers of the request are for prefill; and no prefill worker is removed. -/
def KeepsPools (env : Env P) (app : App P) : PoolWorkflow → Prop
  | .add config d => ∀ urls ∈ plannedUrls config d, ∀ w ∈ app.registry.registry.getPrefillWorkers,
      (∃ w' ∈ prefillWorkers env app (normalizeModelKey env.unknownModelId w.modelId), w'.url ∉ urls) ∨
        urls ≠ [] ∧ isPrefill (plannedType config) = true ∧
          normalizeModelKey env.unknownModelId (plannedModel env config d) =
            normalizeModelKey env.unknownModelId w.modelId
  | .remove url => ∀ w ∈ findWorkersByUrl app.registry.registry url env.dpAware,
      isPrefill w.workerType = false

instance (env : Env P) : ∀ (app : App P) (a : PoolWorkflow), Decidable (KeepsPools env app a)
  | app, .add config d => inferInstanceAs (Decidable (∀ urls ∈ plannedUrls config d,
      ∀ w ∈ app.registry.registry.getPrefillWorkers,
        (∃ w' ∈ prefillWorkers env app (normalizeModelKey env.unknownModelId w.modelId), w'.url ∉ urls) ∨
          urls ≠ [] ∧ isPrefill (plannedType config) = true ∧
            normalizeModelKey env.unknownModelId (plannedModel env config d) =
              normalizeModelKey env.unknownModelId w.modelId))
  | app, .remove url => inferInstanceAs (Decidable
      (∀ w ∈ findWorkersByUrl app.registry.registry url env.dpAware, isPrefill w.workerType = false))

/-! ### Making buckets anew -/

section
variable {env : Env P}

/-- What `init_prefill_worker_urls` sets. -/
structure Initialised (f : Bucket → List Url) : Prop where
  init : ∀ (b : Bucket) (urls : List Url), f (b.initPrefillWorkerUrls urls) = urls

theorem initialised_list : Initialised Bucket.prefillWorkerUrls where
  init b urls := by
    rw [Bucket.initPrefillWorkerUrls]
    simp only
    split <;> rfl

theorem initialised_owners : Initialised owners where
  init b urls := by
    rw [Bucket.initPrefillWorkerUrls]
    by_cases h : urls.length = 0
    · obtain rfl := List.length_eq_zero_iff.mp h
      rfl
    · simp only [owners, if_neg h, map_map, Function.comp_def]
      exact zipIdx_map_fst 0 urls

/-- The workers of each group. -/
theorem lookup_groups (f : Worker → ModelId) (ws : List Worker) (key : ModelId) :
    ∀ m : List (ModelId × List Worker),
      (ws.foldl (fun groups w => upsert (f w) (· ++ [w]) [w] groups) m).lookup key =
        if ws.filter (fun w => decide (f w = key)) = [] then m.lookup key
        else some ((m.lookup key).getD [] ++ ws.filter fun w => decide (f w = key)) := by
  induction ws with
  | nil => exact fun m => rfl
  | cons w ws ih =>
    intro m
    rw [foldl_cons, ih, lookup_upsert]
    by_cases hw : f w = key
    · subst hw
      rw [if_pos rfl, filter_cons_of_pos (by simp), if_neg (cons_ne_nil _ _)]
      split
      · next hnil =>
        rw [hnil]
        cases m.lookup (f w) <;> rfl
      · cases m.lookup (f w) with
        | none => rfl
        | some group => simp only [Option.map_some, Option.getD_some, append_assoc,
            singleton_append]
    · rw [if_neg (Ne.symm hw), filter_cons_of_neg (by simpa using hw)]

theorem nodup_keys_groups (f : Worker → ModelId) (ws : List Worker) :
    ∀ m : List (ModelId × List Worker), (keys m).Nodup →
      (keys (ws.foldl (fun groups w => upsert (f w) (· ++ [w]) [w] groups) m)).Nodup := by
  induction ws with
  | nil => exact fun m h => h
  | cons w ws ih =>
    intro m h
    refine ih _ ?_
    cases hl : m.lookup (f w) with
    | none => simpa only [upsert, hl] using nodup_keys_put h
    | some group => simpa only [upsert, hl] using nodup_keys_put h

/-- **A model with a prefill worker gets its bucket anew**, another keeps what it has. -/
theorem lookup_init {f : Bucket → List Url} (hf : Initialised f) (ws : List Worker)
    (buckets : List (ModelId × Bucket)) (key : ModelId) :
    ((initPrefillWorkerUrls env ws buckets).lookup key).map f =
      if ws.filter (fun w => decide (normalizeModelKey env.unknownModelId w.modelId = key)) = [] then
        (buckets.lookup key).map f
      else some ((ws.filter fun w =>
        decide (normalizeModelKey env.unknownModelId w.modelId = key)).map Worker.url) := by
  have hins : ∀ x k (urls : List Url) (m : List (ModelId × Bucket)),
      ((put k (((m.lookup k).getD (Bucket.new (env.bucketAdjustIntervalSecs * 1000))).initPrefillWorkerUrls
        urls) m).lookup x).map f = if x = k then some urls else (m.lookup x).map f := by
    intro x k urls m
    rw [lookup_put]
    split
    · rw [Option.map_some, hf.init]
    · rfl
  have hgroups := nodup_keys_groups (fun w => normalizeModelKey env.unknownModelId w.modelId) ws []
    nodup_nil
  have hlookup := @lookup_foldl _ _ _ _ (fun m x => (m.lookup x).map f) (fun k urls m => put k
      (((m.lookup k).getD (Bucket.new (env.bucketAdjustIntervalSecs * 1000))).initPrefillWorkerUrls urls) m)
    buckets hins (mapValues (fun ws => ws.map Worker.url) (ws.foldl
      (fun groups w => upsert (normalizeModelKey env.unknownModelId w.modelId) (· ++ [w]) [w] groups) []))
    (by rw [keys_mapValues]; exact hgroups) key
  rw [mapValues, foldl_map] at hlookup
  rw [initPrefillWorkerUrls, hlookup, ← mapValues, lookup_mapValues, lookup_groups]
  split
  · rfl
  · rfl

/-! ### One workflow -/

variable {app app' : App P}

theorem mem_getPrefillWorkers {s : State} (h : Keyed env.uuid s) {w : Worker} :
    w ∈ s.registry.getPrefillWorkers ↔ Registered s.registry w ∧ isPrefill w.workerType = true := by
  rw [Registry.WorkerRegistry.getPrefillWorkers, mem_filter, h.mem_getAll]
  cases w.workerType <;> rfl

theorem mem_prefillWorkers (h : Keyed env.uuid app.registry) {key : ModelId} {w : Worker} :
    w ∈ prefillWorkers env app key ↔ Registered app.registry.registry w ∧
      isPrefill w.workerType = true ∧ normalizeModelKey env.unknownModelId w.modelId = key := by
  rw [prefillWorkers, mem_filter, mem_getPrefillWorkers h, decide_eq_true_eq, and_assoc]

/-- The buckets after the policies are updated. -/
theorem bucketUrls_updatePolicies {f : Bucket → List Url} (hf : Initialised f)
    (hbucket : env.prefillIsBucket = true) (workers : List Worker) (labels : Labels) (key : ModelId) :
    bucketUrls f (updatePolicies env workers labels app) key =
      if prefillWorkers env app key = [] then bucketUrls f app key
      else (prefillWorkers env app key).map Worker.url := by
  rw [bucketUrls, updatePolicies]
  simp only [hbucket, and_true]
  by_cases hnil : app.registry.registry.getPrefillWorkers = []
  · rw [if_neg (not_not_intro hnil), prefillWorkers, hnil, filter_nil, if_pos rfl, bucketUrls]
  · rw [if_pos hnil, lookup_init hf, ← prefillWorkers]
    split
    · rfl
    · rfl

/-- **After an add** the buckets follow exactly if no model has lost its last prefill worker. -/
theorem follows_updatePolicies_iff {f : Bucket → List Url} (hf : Initialised f)
    (hbucket : env.prefillIsBucket = true) (hfollows : Follows env f app) (after : App P)
    (hbuckets : after.buckets = app.buckets) (workers : List Worker) (labels : Labels) :
    Follows env f (updatePolicies env workers labels after) ↔
      ∀ key, prefillWorkers env after key = [] → prefillWorkers env app key = [] := by
  have hsame : ∀ key, bucketUrls f after key = bucketUrls f app key := fun key => by
    rw [bucketUrls, bucketUrls, hbuckets]
  have hpool : ∀ key, prefillWorkers env (updatePolicies env workers labels after) key =
      prefillWorkers env after key := fun key => rfl
  constructor
  · intro hafter key hnil
    refine List.eq_nil_iff_forall_not_mem.mpr fun w hw => ?_
    have := (hafter key w.url).mp
    rw [bucketUrls_updatePolicies hf hbucket, if_pos hnil, hsame, hpool, hnil] at this
    exact not_mem_nil (this ((hfollows key w.url).mpr (mem_map_of_mem hw)))
  · intro hkeep key url
    rw [bucketUrls_updatePolicies hf hbucket, hpool]
    split
    · next hnil =>
      rw [hsame, hfollows key url, hkeep key hnil, hnil]
    · rfl

/-- The prefill workers of a model after a registration. -/
theorem prefillWorkers_registerWorkers (h : Keyed env.uuid app.registry)
    (hinj : Function.Injective env.uuid) {config : WorkerConfigRequest} {d : Discovery}
    {urls : List Url} {objects : List Object} (hprepared : Prepared env config d app urls objects)
    (key : ModelId) : prefillWorkers env (registerWorkers env objects app) key ≠ [] ↔
      (∃ w ∈ prefillWorkers env app key, w.url ∉ urls) ∨
        urls ≠ [] ∧ isPrefill (plannedType config) = true ∧
          normalizeModelKey env.unknownModelId (plannedModel env config d) = key := by
  have h' : Keyed env.uuid (registerWorkers env objects app).registry := keyed_registerAll h hinj _
  have hmap : (objects.map Object.worker).map Worker.url = urls := by
    rw [map_map]
    exact hprepared.urls
  -- only a local request is for prefill
  have hlocal : isPrefill (plannedType config) = true → config.isExternal = false := by
    intro htype
    cases hext : config.isExternal with
    | false => rfl
    | true =>
      rw [plannedType, if_pos hext] at htype
      cases htype
  constructor
  · intro hne
    obtain ⟨w, hw⟩ := exists_mem_of_ne_nil _ hne
    obtain ⟨hreg, htype, hkey⟩ := (mem_prefillWorkers h').mp hw
    have hget := h'.registered_iff.mp hreg
    by_cases hmem : w.url ∈ urls
    · rw [← hmap] at hmem
      obtain ⟨w', hw', -, hget'⟩ := getByUrl_registerAll_of_mem hinj h hmem
      cases hget'.symm.trans hget
      obtain ⟨o, ho, rfl⟩ := List.mem_map.mp hw'
      rw [hprepared.type o ho] at htype
      refine Or.inr ⟨?_, htype, ?_⟩
      · rw [← hmap]
        exact ne_nil_of_mem hmem
      · rw [← hprepared.model (hlocal htype) o ho, hkey]
    · refine Or.inl ⟨w, (mem_prefillWorkers h).mpr ⟨h.registered_iff.mpr ?_, htype, hkey⟩, hmem⟩
      rw [← hmap] at hmem
      rw [← getByUrl_registerAll_of_not_mem hinj h hmem]
      exact hget
  · rintro (⟨w, hw, hmem⟩ | ⟨hne, htype, hkey⟩)
    · obtain ⟨hreg, htype, hkey⟩ := (mem_prefillWorkers h).mp hw
      refine ne_nil_of_mem ((mem_prefillWorkers h').mpr ⟨h'.registered_iff.mpr ?_, htype, hkey⟩)
      rw [← hmap] at hmem
      exact (getByUrl_registerAll_of_not_mem hinj h hmem).trans (h.registered_iff.mp hreg)
    · obtain ⟨url, hurl⟩ := exists_mem_of_ne_nil _ hne
      rw [← hmap] at hurl
      obtain ⟨w, hw, he, hget⟩ := getByUrl_registerAll_of_mem hinj h hurl
      obtain ⟨o, ho, rfl⟩ := List.mem_map.mp hw
      have hreg : Registered (registerAll env (objects.map Object.worker) app.registry).registry o.worker :=
        (keyed_registerAll h hinj _).registered_iff.mpr (he.symm ▸ hget)
      refine ne_nil_of_mem ((mem_prefillWorkers h').mpr ⟨hreg, ?_, ?_⟩)
      · rw [hprepared.type o ho, htype]
      · rw [hprepared.model (hlocal htype) o ho, hkey]

/-- **An add.** -/
theorem bucketsFollow_add_iff (hinj : Function.Injective env.uuid)
    (hbucket : env.prefillIsBucket = true) (h : Keyed env.uuid app.registry)
    (hfollow : BucketsFollow env app) {config : WorkerConfigRequest} {d : Discovery}
    {workers : List Worker} (hadd : addWorkers env config d app = (app', .ok workers)) :
    Keyed env.uuid app'.registry ∧ (BucketsFollow env app' ↔ KeepsPools env app (.add config d)) := by
  obtain ⟨urls, objects, labels, hurls, hprepared, -, rfl, rfl⟩ := addWorkers_ok hadd
  refine ⟨keyed_registerAll h hinj _, ?_⟩
  have hlist := follows_updatePolicies_iff initialised_list hbucket hfollow.1
    (registerWorkers env objects app) rfl (objects.map Object.worker) labels
  have howners := follows_updatePolicies_iff initialised_owners hbucket hfollow.2
    (registerWorkers env objects app) rfl (objects.map Object.worker) labels
  rw [BucketsFollow, hlist, howners, and_self]
  constructor
  · intro hkeep urls' hurls' w hw
    cases hurls.symm.trans hurls'
    refine (prefillWorkers_registerWorkers h hinj hprepared _).mp fun hnil => ?_
    obtain ⟨hreg, htype⟩ := (mem_getPrefillWorkers h).mp hw
    have hmem := (mem_prefillWorkers h).mpr ⟨hreg, htype, rfl⟩
    rw [hkeep _ hnil] at hmem
    cases hmem
  · intro hkeeps key hnil
    by_contra hne
    obtain ⟨w, hw⟩ := exists_mem_of_ne_nil _ hne
    obtain ⟨hreg, htype, rfl⟩ := (mem_prefillWorkers h).mp hw
    have := hkeeps urls hurls w ((mem_getPrefillWorkers h).mpr ⟨hreg, htype⟩)
    exact (prefillWorkers_registerWorkers h hinj hprepared _).mpr this hnil

/-- **A removal.** -/
theorem bucketsFollow_remove_iff (h : Keyed env.uuid app.registry) (hfollow : BucketsFollow env app)
    {url : Url} {workers : List Worker} (hremove : removeWorkers env url app = (app', .ok workers)) :
    Keyed env.uuid app'.registry ∧ (BucketsFollow env app' ↔ KeepsPools env app (.remove url)) := by
  obtain ⟨rest, hperm⟩ := findWorkersByUrl_split h url env.dpAware
  rw [removeWorkers] at hremove
  split at hremove
  · cases hremove
  · next w₀ ws hfound =>
    cases hremove
    obtain ⟨hkeyed, hrest⟩ := removeAll_spec h (hfound ▸ hperm)
    have hbefore : ∀ w, Registered app.registry.registry w ↔
        w ∈ findWorkersByUrl app.registry.registry url env.dpAware ∨ w ∈ rest := fun w => by
      rw [← h.mem_getAll, hperm.mem_iff, mem_append]
    have hafter : ∀ w, Registered (removeAll env (w₀ :: ws) app.registry).registry w ↔ w ∈ rest :=
      fun w => by rw [← hkeyed.mem_getAll, hrest.mem_iff]
    refine ⟨hkeyed, fun hfollow' w hw => ?_, fun hkeeps => ?_⟩
    · by_contra htype
      have htype := Bool.eq_true_of_not_eq_false htype
      -- its URL is still in the bucket, so a worker that stays has it
      have hreg := (hbefore w).mpr (Or.inl hw)
      have hmem := (hfollow.1 (normalizeModelKey env.unknownModelId w.modelId) w.url).mpr
        (mem_map_of_mem ((mem_prefillWorkers h).mpr ⟨hreg, htype, rfl⟩))
      obtain ⟨w', hw', hurl⟩ := List.mem_map.mp ((hfollow'.1 _ w.url).mp hmem)
      have hstays := (hafter w').mp ((mem_prefillWorkers hkeyed).mp hw').1
      have hsame := h.eq_of_url ((hbefore w').mpr (Or.inr hstays)) hreg hurl
      have hdisjoint := disjoint_of_nodup_append (hperm.nodup_iff.mp h.nodup_getAll)
      exact hdisjoint hw (hsame ▸ hstays)
    · -- the prefill workers are the same ones
      have hpool : ∀ key u, u ∈ (prefillWorkers env { app with
          registry := removeAll env (w₀ :: ws) app.registry } key).map Worker.url ↔
            u ∈ (prefillWorkers env app key).map Worker.url := by
        intro key u
        simp only [mem_map, mem_prefillWorkers h]
        refine exists_congr fun w => and_congr_left fun _ => ?_
        rw [mem_prefillWorkers hkeyed, hafter, hbefore]
        refine and_congr_left fun htype => ⟨Or.inr, fun hw => hw.resolve_left fun hw => ?_⟩
        rw [hkeeps w hw] at htype
        cases htype.1
      exact ⟨fun key u => (hfollow.1 key u).trans (hpool key u).symm,
        fun key u => (hfollow.2 key u).trans (hpool key u).symm⟩

/-- One workflow that completes. -/
theorem poolStep_iff (hinj : Function.Injective env.uuid) (hbucket : env.prefillIsBucket = true)
    (h : Keyed env.uuid app.registry) (hfollow : BucketsFollow env app) {a : PoolWorkflow}
    (hstep : poolStep env app a = some app') :
    Keyed env.uuid app'.registry ∧ (BucketsFollow env app' ↔ KeepsPools env app a) := by
  rw [poolStep] at hstep
  split at hstep
  · next workers hexecute =>
    cases hstep
    cases a with
    | add config d => exact bucketsFollow_add_iff hinj hbucket h hfollow hexecute
    | remove url => exact bucketsFollow_remove_iff h hfollow hexecute
  · cases hstep

end

/-! ### Runs -/

theorem bucketsFollow_new (env : Env P) (defaultPolicy : P) :
    BucketsFollow env (App.new defaultPolicy) := ⟨fun _ _ => Iff.rfl, fun _ _ => Iff.rfl⟩

/-- **The buckets follow the pool in every state of a run exactly if every add leaves each model with a
prefill worker that had one, and no removal takes a prefill worker.** -/
theorem buckets_follow_iff {env : Env P} (hinj : Function.Injective env.uuid)
    (hbucket : env.prefillIsBucket = true) (defaultPolicy : P) {workflows : List PoolWorkflow}
    {app : App P} (hrun : poolRun env defaultPolicy workflows = some app) :
    (∀ k app, poolRun env defaultPolicy (workflows.take k) = some app → BucketsFollow env app) ↔
      ∀ k app a, poolRun env defaultPolicy (workflows.take k) = some app → workflows[k]? = some a →
        KeepsPools env app a :=
  @Runs.exec_iff _ _ _ (fun app => Keyed env.uuid app.registry ∧ BucketsFollow env app) _ _
    (fun h => h.2)
    (fun h hC hstep =>
      have hiff := poolStep_iff hinj hbucket h.1 h.2 hstep
      ⟨hiff.1, hiff.2.mpr hC⟩)
    (fun h hstep hafter => (poolStep_iff hinj hbucket h.1 h.2 hstep).2.mp hafter)
    _ _ ⟨Keyed.init, bucketsFollow_new env defaultPolicy⟩ _ hrun

/-- A request for a prefill worker. -/
def prefillConfig (url : Url) (modelId : ModelId) : WorkerConfigRequest :=
  { plainConfig url modelId with workerType := some "prefill".toList }

/-- Two prefill workers and one that is not; the last goes. -/
def prefillAdded : List PoolWorkflow :=
  [.add (prefillConfig "http://a".toList ['m']) plainDiscovery,
    .add (prefillConfig "http://b".toList ['m']) plainDiscovery,
    .add (plainConfig "http://c".toList ['m']) plainDiscovery, .remove "http://c".toList]

theorem prefillAdded_isSome : (poolRun plainEnv 0 prefillAdded).isSome = true := by decide

theorem prefillAdded_follows :
    Function.Injective plainEnv.uuid ∧ plainEnv.prefillIsBucket = true ∧
      poolRun plainEnv 0 prefillAdded =
        some ((poolRun plainEnv 0 prefillAdded).get prefillAdded_isSome) ∧
      ∀ k app, poolRun plainEnv 0 (prefillAdded.take k) = some app → BucketsFollow plainEnv app :=
  ⟨Registry.countedId_injective, rfl, (Option.some_get prefillAdded_isSome).symm,
    (buckets_follow_iff Registry.countedId_injective rfl 0
      (Option.some_get prefillAdded_isSome).symm).mpr (Runs.Along.get
        (by decide : Runs.Along (poolStep plainEnv) (KeepsPools plainEnv) (App.new 0) prefillAdded))⟩

/-- A prefill worker is added, and removed. -/
def prefillRemoved : List PoolWorkflow :=
  [.add (prefillConfig "http://a".toList ['m']) plainDiscovery, .remove "http://a".toList]

theorem prefillRemoved_isSome : (poolRun plainEnv 0 prefillRemoved).isSome = true := by decide

/-- **A removed worker stays in the bucket.** -/
theorem removed_worker_stays_in_bucket :
    ¬ ∀ workflows app, poolRun plainEnv 0 workflows = some app → BucketsFollow plainEnv app := by
  intro h
  have := (h _ _ (Option.some_get prefillRemoved_isSome).symm).1 ['m'] "http://a".toList
  exact absurd (this.mp (by decide)) (by decide)

end QwenStack.Workflows
