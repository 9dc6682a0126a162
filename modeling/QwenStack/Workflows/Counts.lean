import QwenStack.Workflows.Loops

/-!
# Worker workflows — the counts of the policies

`PolicyRegistry` counts the workers of each model by being told of each that comes or goes.  `Counted`
says that it has been told of a list of workers; the workflows tell it of what they create and of what
they remove.  An update registers its workers again and announces each model of them once more, and an
add at a URL that has a worker replaces it, unannounced.  So the counts match the registry in every
state of a run exactly if it has no update and each add is of new URLs (`counts_match_iff`).
-/

namespace QwenStack.Workflows
open Assoc List
open Registry (Url ModelId WorkerId Worker Keyed Registered State)

variable {P : Type}

/-- The models of the registered workers. -/
def models (app : App P) : List ModelId := app.registry.registry.getAll.map Worker.modelId

/-- The counts are those of the registry, and a model has a policy while it has a worker. -/
def CountsMatch (app : App P) : Prop := ∀ m,
  app.policies.modelWorkerCounts.lookup m =
      (if (models app).count m = 0 then none else some ((models app).count m)) ∧
    ((app.policies.modelPolicies.lookup m).isSome = true ↔
      ∃ w, Registered app.registry.registry w ∧ w.modelId = m)

/-- Neither an update, nor an add at a URL that has a worker or is there twice. -/
def Undisturbed (app : App P) : Action → Prop
  | .reserveId _ => True
  | .execute (.addWorker config) d => ∀ urls ∈ plannedUrls config d,
      urls.Nodup ∧ ∀ u ∈ urls, app.registry.registry.getByUrl u = none
  | .execute (.updateWorker _ _) _ => False
  | .execute (.removeWorker _) _ => True

instance : ∀ (app : App P) (a : Action), Decidable (Undisturbed app a)
  | _, .reserveId _ => inferInstanceAs (Decidable True)
  | app, .execute (.addWorker config) d => inferInstanceAs (Decidable (∀ urls ∈ plannedUrls config d,
      urls.Nodup ∧ ∀ u ∈ urls, app.registry.registry.getByUrl u = none))
  | _, .execute (.updateWorker _ _) _ => inferInstanceAs (Decidable False)
  | _, .execute (.removeWorker _) _ => inferInstanceAs (Decidable True)

/-! ### Announcements -/

section
variable {policies : PolicyRegistry.Registry P} {ms ms' : List ModelId} {m : ModelId}

/-- The policies have been told of workers of these models. -/
structure Counted (policies : PolicyRegistry.Registry P) (ms : List ModelId) : Prop where
  counts : Tally policies.modelWorkerCounts ms.count
  policy : ∀ m, (policies.modelPolicies.lookup m).isSome = true ↔ m ∈ ms

theorem Counted.perm (h : Counted policies ms) (hperm : ms.Perm ms') : Counted policies ms' where
  counts := by
    have : ms'.count = ms.count := funext fun m => (hperm.count_eq m).symm
    rw [this]
    exact h.counts
  policy m := (h.policy m).trans hperm.mem_iff

/-- `on_worker_added`. -/
theorem Counted.added (h : Counted policies ms) (m : ModelId) (hint : Option Str)
    (created : Option P) : Counted (notify policies (.onWorkerAdded m hint created)) (m :: ms) := by
  have hcounts : (notify policies (.onWorkerAdded m hint created)).modelWorkerCounts =
      put m ((policies.modelWorkerCounts.lookup m).getD 0 + 1) policies.modelWorkerCounts := by
    have hupsert : upsert m (· + 1) 1 policies.modelWorkerCounts =
        put m ((policies.modelWorkerCounts.lookup m).getD 0 + 1) policies.modelWorkerCounts := by
      rw [upsert]
      cases policies.modelWorkerCounts.lookup m <;> rfl
    rw [← hupsert]
    simp only [notify, PolicyRegistry.Registry.operate]
    cases policies.modelPolicies.lookup m <;> rfl
  have hpolicy : ∀ x, ((notify policies (.onWorkerAdded m hint created)).modelPolicies.lookup x).isSome
      = true ↔ x = m ∨ (policies.modelPolicies.lookup x).isSome = true := by
    intro x
    simp only [notify, PolicyRegistry.Registry.operate]
    cases hl : policies.modelPolicies.lookup m with
    | some p =>
      simp only
      refine ⟨Or.inr, fun hx => hx.elim (fun he => ?_) id⟩
      rw [he, hl]
      rfl
    | none =>
      simp only [lookup_put]
      by_cases hx : x = m
      · simp [hx]
      · simp [hx]
  refine ⟨?_, fun x => ?_⟩
  · rw [hcounts]
    refine h.counts.up (count_cons_self) fun x hx => count_cons_of_ne (Ne.symm hx)
  · rw [hpolicy, h.policy, mem_cons]

/-- `on_worker_removed`. -/
theorem Counted.removed (h : Counted policies (m :: ms)) :
    Counted (notify policies (.onWorkerRemoved m)) ms := by
  have hcount : (m :: ms).count m = ms.count m + 1 := count_cons_self
  have hlookup := h.counts.lookup_pos (k := m) (by omega)
  have hdown := h.counts.down hcount fun x hx => (count_cons_of_ne (Ne.symm hx)).symm
  rw [hcount, Nat.add_sub_cancel] at hdown
  rw [hcount] at hlookup
  have hmem : ∀ x, x ∈ ms ↔ if x = m then ms.count m ≠ 0 else x ∈ m :: ms := by
    intro x
    by_cases hx : x = m
    · rw [if_pos hx, hx, ← count_pos_iff, Nat.pos_iff_ne_zero]
    · rw [if_neg hx, mem_cons, or_iff_right hx]
  simp only [notify, PolicyRegistry.Registry.operate, hlookup, Nat.add_sub_cancel]
  by_cases hzero : ms.count m = 0
  · -- the last worker of the model
    rw [if_pos hzero] at hdown
    simp only [hzero, if_true]
    refine ⟨?_, fun x => ?_⟩
    · simp only [del_put]
      exact hdown
    · rw [lookup_del, hmem, ← h.policy]
      split
      · simp [hzero]
      · rfl
  · rw [if_neg hzero] at hdown
    simp only [hzero, if_false]
    refine ⟨hdown, fun x => ?_⟩
    rw [h.policy, hmem]
    split
    · next hx => simp [hx, hzero]
    · rfl

/-- A list of announcements. -/
theorem Counted.addedAll (hint : ModelId → Option Str) (created : ModelId → Option P) :
    ∀ (new : List ModelId) {policies : PolicyRegistry.Registry P} {ms : List ModelId},
      Counted policies ms →
      Counted (new.foldl (fun policies m =>
        notify policies (.onWorkerAdded m (hint m) (created m))) policies) (new ++ ms) := by
  intro new
  induction new with
  | nil => exact fun h => h
  | cons m new ih =>
    intro policies ms h
    exact (ih (h.added m (hint m) (created m))).perm perm_middle

theorem Counted.removedAll : ∀ {old : List ModelId} {policies : PolicyRegistry.Registry P}
    {ms : List ModelId}, Counted policies (old ++ ms) →
      Counted (old.foldl (fun policies m => notify policies (.onWorkerRemoved m)) policies) ms := by
  intro old
  induction old with
  | nil => exact fun h => h
  | cons m old ih => exact fun h => ih h.removed

end

/-! ### One workflow -/

section
variable {env : Env P} {app app' : App P}

/-- The registry is in order, and the policies have been told of its workers. -/
structure Told (env : Env P) (app : App P) : Prop where
  keyed : Keyed env.uuid app.registry
  housed : Housed env app
  counted : Counted app.policies (models app)

theorem Told.countsMatch (h : Told env app) : CountsMatch app := fun m => by
  refine ⟨h.counted.counts.lookup m, (h.counted.policy m).trans ?_⟩
  simp only [models, mem_map, h.keyed.mem_getAll]

/-- The models of the registry are what the policies were told of, if the counts match. -/
theorem models_perm {ms : List ModelId} (h : Counted app.policies ms) (hmatch : CountsMatch app) :
    (models app).Perm ms := by
  refine List.perm_iff_count.mpr fun m => ?_
  have := h.counts.getD m
  rw [(hmatch m).1] at this
  rw [← this]
  split
  · next hzero => rw [hzero]; rfl
  · rfl

/-- Creating workers. -/
theorem counted_addWorkers (h : Counted app.policies (models app)) {config : WorkerConfigRequest}
    {d : Discovery} {workers : List Worker}
    (hadd : addWorkers env config d app = (app', .ok workers)) :
    Counted app'.policies (workers.map Worker.modelId ++ models app) := by
  obtain ⟨urls, objects, labels, -, -, -, rfl, rfl⟩ := addWorkers_ok hadd
  have := Counted.addedAll (fun _ => labels.lookup "policy".toList)
    (fun _ => (labels.lookup "policy".toList).bind env.createPolicyFromType)
    ((objects.map Object.worker).map Worker.modelId) h
  rw [foldl_map] at this
  exact this

section
variable (h : Told env app) (hinj : Function.Injective env.uuid)
include h hinj

/-- **An add of new URLs.** -/
theorem Told.addWorkers {config : WorkerConfigRequest} {d : Discovery} {workers : List Worker}
    (hadd : addWorkers env config d app = (app', .ok workers))
    (hnew : Undisturbed app (.execute (.addWorker config) d)) : Told env app' := by
  have hcounted := counted_addWorkers h.counted hadd
  obtain ⟨urls, objects, labels, hurls, hprepared, -, rfl, rfl⟩ := addWorkers_ok hadd
  obtain ⟨hnodup, hfree⟩ := hnew urls hurls
  have hmap : (objects.map Object.worker).map Worker.url = urls := by
    rw [map_map]
    exact hprepared.urls
  have hperm := getAll_registerAll hinj h.keyed (hmap ▸ hnodup) fun w hw =>
    hfree w.url (hmap ▸ mem_map_of_mem hw)
  refine ⟨keyed_registerAll h.keyed hinj _, h.housed.registerWorkers h.keyed hinj hprepared, ?_⟩
  refine hcounted.perm ?_
  rw [models, ← map_append]
  exact (hperm.map Worker.modelId).symm

/-- An add that keeps the counts right is of new URLs. -/
theorem undisturbed_of_addWorkers
    {config : WorkerConfigRequest} {d : Discovery} {workers : List Worker}
    (hadd : addWorkers env config d app = (app', .ok workers)) (hmatch : CountsMatch app') :
    Undisturbed app (.execute (.addWorker config) d) := by
  have hcounted := counted_addWorkers h.counted hadd
  have hlength := (models_perm hcounted hmatch).length_eq
  obtain ⟨urls, objects, labels, hurls, hprepared, -, rfl, rfl⟩ := addWorkers_ok hadd
  have hmap : (objects.map Object.worker).map Worker.url = urls := by
    rw [map_map]
    exact hprepared.urls
  simp only [models, length_map, length_append] at hlength
  obtain ⟨hnodup, hfree⟩ := (length_getAll_registerAll hinj h.keyed).2 (by
    rw [length_map]
    exact hlength)
  rw [hmap] at hnodup
  intro urls' hurls'
  cases hurls.symm.trans hurls'
  refine ⟨hnodup, fun u hu => ?_⟩
  rw [← hmap] at hu
  obtain ⟨w, hw, rfl⟩ := List.mem_map.mp hu
  exact hfree w hw

/-- **An update** announces models, and no worker has come. -/
theorem not_countsMatch_updateWorkers
    {url : Url} {request : WorkerUpdateRequest} {workers : List Worker}
    (hupdate : updateWorkers env url request app = (app', .ok workers)) : ¬ CountsMatch app' := by
  intro hmatch
  have hregistered : ∀ w ∈ findWorkersByUrl app.registry.registry url (updateDpAware url),
      Registered app.registry.registry w := by
    obtain ⟨rest, hperm⟩ := findWorkersByUrl_split h.keyed url (updateDpAware url)
    exact fun w hw => h.keyed.mem_getAll.mp (hperm.mem_iff.mpr (mem_append_left _ hw))
  rw [updateWorkers] at hupdate
  simp only at hupdate
  split at hupdate
  · cases hupdate
  · next w ws hfound =>
    rw [hfound] at hregistered
    obtain ⟨hpolicies, hgetAll, hupdated⟩ := updateWorkerProperties_spec hinj request (w :: ws) h.keyed
      fun w' hw' => by
        refine ⟨?_, h.housed w' (hregistered w' hw')⟩
        rw [h.keyed.registered_iff.mp (hregistered w' hw')]
        exact Option.some_ne_none _
    cases hupdate
    have hcounted := Counted.addedAll (fun _ => none) (fun _ => none)
      ((updateWorkerProperties env request (w :: ws) app).2.map Worker.modelId).dedup h.counted
    rw [← hpolicies] at hcounted
    have hlength := (@models_perm _ { (updateWorkerProperties env request (w :: ws) app).1 with
      policies := _ } _ hcounted hmatch).length_eq
    simp only [models, length_map, length_append, hgetAll] at hlength
    have hnil := List.length_eq_zero_iff.mp (Nat.add_eq_right.mp hlength.symm)
    rw [dedup_eq_nil, map_eq_nil_iff] at hnil
    rw [hnil] at hupdated
    cases hupdated

end

/-- **A removal.** -/
theorem Told.removeWorkers (h : Told env app) {url : Url} {workers : List Worker}
    (hremove : removeWorkers env url app = (app', .ok workers)) : Told env app' := by
  obtain ⟨rest, hperm⟩ := findWorkersByUrl_split h.keyed url env.dpAware
  rw [Workflows.removeWorkers] at hremove
  split at hremove
  · cases hremove
  · next w ws hfound =>
    cases hremove
    rw [hfound] at hperm
    obtain ⟨hkeyed, hrest⟩ := removeAll_spec h.keyed hperm
    refine ⟨hkeyed, fun w' hw' => ?_, ?_⟩
    · refine h.housed w' (h.keyed.mem_getAll.mp (hperm.mem_iff.mpr (mem_append_right _ ?_)))
      exact hrest.mem_iff.mp (hkeyed.mem_getAll.mpr hw')
    · have hcounted := (h.counted.perm (hperm.map Worker.modelId))
      rw [map_append] at hcounted
      have := hcounted.removedAll
      rw [foldl_map] at this
      exact this.perm (hrest.map Worker.modelId).symm

/-- A job that is done. -/
theorem step_execute {job : Job} {d : Discovery} (h : step env app (.execute job d) = some app') :
    ∃ workers, executeJob env job d app = (app', .ok workers) := by
  rw [step] at h
  split at h
  · next workers hjob =>
    cases h
    exact ⟨workers, hjob⟩
  · cases h

theorem Told.step (h : Told env app) (hinj : Function.Injective env.uuid) {a : Action}
    (ha : Undisturbed app a) (hstep : step env app a = some app') : Told env app' := by
  match a with
  | .reserveId url =>
    cases hstep
    exact ⟨@Keyed.reserve env.blake3 _ _ h.keyed hinj url, h.housed, h.counted⟩
  | .execute (.addWorker config) d =>
    obtain ⟨workers, hjob⟩ := step_execute hstep
    exact h.addWorkers hinj hjob ha
  | .execute (.updateWorker url request) d => exact ha.elim
  | .execute (.removeWorker url) d =>
    obtain ⟨workers, hjob⟩ := step_execute hstep
    exact h.removeWorkers hjob

theorem undisturbed_of_step (h : Told env app) (hinj : Function.Injective env.uuid) {a : Action}
    (hstep : step env app a = some app') (hmatch : CountsMatch app') : Undisturbed app a := by
  match a with
  | .reserveId url => trivial
  | .execute (.addWorker config) d =>
    obtain ⟨workers, hjob⟩ := step_execute hstep
    exact undisturbed_of_addWorkers h hinj hjob hmatch
  | .execute (.updateWorker url request) d =>
    obtain ⟨workers, hjob⟩ := step_execute hstep
    exact not_countsMatch_updateWorkers h hinj hjob hmatch
  | .execute (.removeWorker url) d => trivial

end

/-! ### Runs -/

theorem Told.init (env : Env P) (defaultPolicy : P) : Told env (App.new defaultPolicy) where
  keyed := Keyed.init
  housed _ := fun ⟨_, hw⟩ => nomatch hw
  counted := ⟨Tally.empty, fun _ => iff_of_false Bool.false_ne_true not_mem_nil⟩

/-- **The counts match the registry in every state of a run exactly if no workflow of it disturbs
them.** -/
theorem counts_match_iff {env : Env P} (hinj : Function.Injective env.uuid) (defaultPolicy : P)
    {actions : List Action} {app : App P} (hrun : run env defaultPolicy actions = some app) :
    (∀ k app, run env defaultPolicy (actions.take k) = some app → CountsMatch app) ↔
      ∀ k app a, run env defaultPolicy (actions.take k) = some app → actions[k]? = some a →
        Undisturbed app a :=
  Runs.exec_iff Told.countsMatch (fun h hC hstep => h.step hinj hC hstep)
    (fun h hstep hmatch => undisturbed_of_step h hinj hstep hmatch) (Told.init env defaultPolicy) hrun

/-- Two workers are added, the second with its id reserved first, and the first is removed. -/
def twoAdded : List Action :=
  [.execute (.addWorker (plainConfig "http://a".toList ['m'])) plainDiscovery,
    .reserveId "http://b".toList,
    .execute (.addWorker (plainConfig "http://b".toList ['m'])) plainDiscovery,
    .execute (.removeWorker "http://a".toList) plainDiscovery]

theorem twoAdded_isSome : (run plainEnv 0 twoAdded).isSome = true := by decide

theorem twoAdded_countsMatch :
    Function.Injective plainEnv.uuid ∧ run plainEnv 0 twoAdded =
        some ((run plainEnv 0 twoAdded).get twoAdded_isSome) ∧
      ∀ k app, run plainEnv 0 (twoAdded.take k) = some app → CountsMatch app :=
  ⟨Registry.countedId_injective, (Option.some_get twoAdded_isSome).symm,
    (counts_match_iff Registry.countedId_injective 0 (Option.some_get twoAdded_isSome).symm).mpr
      (Runs.Along.get (by decide : Runs.Along (step plainEnv) Undisturbed (App.new 0) twoAdded))⟩

/-- A worker is added, and updated. -/
def addedThenUpdated : List Action :=
  [.execute (.addWorker (plainConfig "http://a".toList ['m'])) plainDiscovery,
    .execute (.updateWorker "http://a".toList ⟨none, none, none⟩) plainDiscovery]

theorem addedThenUpdated_isSome : (run plainEnv 0 addedThenUpdated).isSome = true := by decide

/-- **An update counts the worker again.** -/
theorem update_miscounts :
    ¬ ∀ actions app, run plainEnv 0 actions = some app → CountsMatch app := by
  intro h
  have := (h _ _ (Option.some_get addedThenUpdated_isSome).symm ['m']).1
  exact absurd this (by decide)

end QwenStack.Workflows
