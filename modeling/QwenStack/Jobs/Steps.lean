import QwenStack.Jobs.Definitions

/-!
# Job queue — the steps

What each step does, guards included (`Step`), and what it does to the entries.
-/

namespace QwenStack.Jobs
open Assoc
open Registry (Url)
open JobQueue

variable {W : Type} {env : Env W} {s s' : JobQueue W}

/-- `step`, by what happens. -/
inductive Step (env : Env W) (s : JobQueue W) : Action → JobQueue W → Prop where
  | submit (job : Job) (now : UInt64) (h : s.contextAlive = true) :
      Step env s (.submit job now) { s.setStatus (.pending job now) with sending := s.sending ++ [job] }
  | refused (job : Job) (now : UInt64) (h : s.contextAlive = false) : Step env s (.submit job now) s
  | send {k : Nat} {job : Job} (hk : s.sending[k]? = some job) (hclosed : s.closed = false)
      (hroom : s.depth < env.config.queueCapacity) :
      Step env s (.send k) { s with sending := s.sending.eraseIdx k, accepted := s.accepted ++ [{ job }] }
  | sendFails {k : Nat} {job : Job} (hk : s.sending[k]? = some job) (hclosed : s.closed = true) :
      Step env s (.sendFails k) { s.removeStatus job.workerUrl with sending := s.sending.eraseIdx k }
  | recv (hclosed : s.closed = false) (hholds : s.holds = false) (hlt : s.dispatched < s.accepted.length) :
      Step env s .recv { s with holds := true }
  | acquire (hclosed : s.closed = false) (hholds : s.holds = true) (hpermits : 0 < s.permits) :
      Step env s .acquire { s.setStage s.dispatched .spawned with
        dispatched := s.dispatched + 1, holds := false, permits := s.permits - 1 }
  | process {i : Nat} {e : Entry} (now : UInt64) (hi : s.accepted[i]? = some e) (hstage : e.stage = .spawned) :
      Step env s (.process i now) ((s.setStatus (.processing e.job now)).setStage i .processing)
  | upgrade {i : Nat} {e : Entry} (now : UInt64) (hi : s.accepted[i]? = some e)
      (hstage : e.stage = .processing) (halive : s.contextAlive = true) :
      Step env s (.upgrade i now) (s.setStage i .executing)
  | dropped {i : Nat} {e : Entry} (now : UInt64) (hi : s.accepted[i]? = some e)
      (hstage : e.stage = .processing) (halive : s.contextAlive = false) :
      Step env s (.upgrade i now) { (s.setStatus (.failed e.job "AppContext dropped".toList now)).setStage i
        .dropped with permits := s.permits + 1 }
  | execute {i : Nat} {e : Entry} (hi : s.accepted[i]? = some e) (hstage : e.stage = .executing) :
      Step env s (.execute i) { s.setStage i .applied with
        registry := fun u => if u = e.job.workerUrl then env.change i e.job (s.registry u) else s.registry u }
  | removeStatus {i : Nat} {e : Entry} (hi : s.accepted[i]? = some e) (hstage : e.stage = .applied)
      (hjob : e.job = .removeWorker e.job.workerUrl) :
      Step env s (.removeStatus i) ((s.removeStatus e.job.workerUrl).setStage i .cleaned)
  | record {i : Nat} {e : Entry} (result : Except Str Str) (now : UInt64) (hi : s.accepted[i]? = some e)
      (hstage : e.stage.returns e.job result = true) :
      Step env s (.record i result now) (s.recordJobCompletion i e.job result now)
  | cleanup (now : UInt64) : Step env s (.cleanup now) (s.cleanupOldStatuses now)
  | dropContext (hfree : s.accepted.all (fun e => !e.stage.keepsContext) = true) :
      Step env s .dropContext { s with contextAlive := false }
  | stop : Step env s .stop { s with closed := true }

theorem guard_bind_eq_some {α : Type} {p : Prop} [Decidable p] {x : Option α} {a : α} :
    ((guard p : Option Unit) >>= fun _ => x) = some a ↔ p ∧ x = some a := by
  by_cases hp : p
  · simp [guard, hp]
  · simp [guard, hp]

theorem Step.of_step {a : Action} (h : step env s a = some s') : Step env s a s' := by
  cases a with
  | submit job now =>
    rw [step] at h
    split at h
    · next halive =>
      cases h
      exact .submit job now halive
    · next halive =>
      cases h
      exact .refused job now (Bool.eq_false_iff.mpr halive)
  | send k =>
    obtain ⟨job, hk, h⟩ := Option.bind_eq_some_iff.mp h
    obtain ⟨⟨hclosed, hroom⟩, h⟩ := guard_bind_eq_some.mp h
    cases h
    exact .send hk hclosed hroom
  | sendFails k =>
    obtain ⟨job, hk, h⟩ := Option.bind_eq_some_iff.mp h
    obtain ⟨hclosed, h⟩ := guard_bind_eq_some.mp h
    cases h
    exact .sendFails hk hclosed
  | recv =>
    obtain ⟨⟨hclosed, hholds, hlt⟩, h⟩ := guard_bind_eq_some.mp h
    cases h
    exact .recv hclosed hholds hlt
  | acquire =>
    obtain ⟨⟨hclosed, hholds, hpermits⟩, h⟩ := guard_bind_eq_some.mp h
    cases h
    exact .acquire hclosed hholds hpermits
  | process i now =>
    obtain ⟨e, hi, h⟩ := Option.bind_eq_some_iff.mp h
    obtain ⟨hstage, h⟩ := guard_bind_eq_some.mp h
    cases h
    exact .process now hi hstage
  | upgrade i now =>
    obtain ⟨e, hi, h⟩ := Option.bind_eq_some_iff.mp h
    obtain ⟨hstage, h⟩ := guard_bind_eq_some.mp h
    split at h
    · next halive =>
      cases h
      exact .upgrade now hi hstage halive
    · next halive =>
      cases h
      exact .dropped now hi hstage (Bool.eq_false_iff.mpr halive)
  | execute i =>
    obtain ⟨e, hi, h⟩ := Option.bind_eq_some_iff.mp h
    obtain ⟨hstage, h⟩ := guard_bind_eq_some.mp h
    cases h
    exact .execute hi hstage
  | removeStatus i =>
    obtain ⟨e, hi, h⟩ := Option.bind_eq_some_iff.mp h
    obtain ⟨⟨hstage, hjob⟩, h⟩ := guard_bind_eq_some.mp h
    cases h
    exact .removeStatus hi hstage hjob
  | record i result now =>
    obtain ⟨e, hi, h⟩ := Option.bind_eq_some_iff.mp h
    obtain ⟨hstage, h⟩ := guard_bind_eq_some.mp h
    cases h
    exact .record result now hi hstage
  | cleanup now =>
    cases h
    exact .cleanup now
  | dropContext =>
    obtain ⟨hfree, h⟩ := guard_bind_eq_some.mp h
    cases h
    exact .dropContext hfree
  | stop =>
    cases h
    exact .stop

/-! ### Entries -/

/-- The completion of the job is recorded. -/
def Stage.completed : Stage → Bool
  | .recorded _ | .dropped => true
  | .queued | .spawned | .processing | .executing | .applied | .cleaned => false

/-- As a failure. -/
def Stage.failed : Stage → Bool
  | .recorded failed => failed
  | .dropped => true
  | .queued | .spawned | .processing | .executing | .applied | .cleaned => false

theorem Stage.not_completed_of_returns {job : Job} {result : Except Str Str} {stage : Stage}
    (h : stage.returns job result = true) : stage.completed = false := by
  cases stage with
  | applied | cleaned => rfl
  | queued | spawned | processing | executing | recorded | dropped => cases h

theorem getElem?_setStage (s : JobQueue W) (i j : Nat) (stage : Stage) :
    (s.setStage i stage).accepted[j]? =
      (s.accepted[j]?).map fun e => if i = j then { e with stage := stage } else e := by
  rw [JobQueue.setStage, List.getElem?_modify]
  rfl

theorem getElem?_setStage_self {i : Nat} {e : Entry} (hi : s.accepted[i]? = some e) (stage : Stage) :
    (s.setStage i stage).accepted[i]? = some { e with stage := stage } := by
  rw [getElem?_setStage, hi, Option.map_some, if_pos rfl]

theorem getElem?_setStage_of_ne {i j : Nat} (hij : i ≠ j) (stage : Stage) :
    (s.setStage i stage).accepted[j]? = s.accepted[j]? := by
  rw [getElem?_setStage]
  simp only [if_neg hij, Option.map_id']

/-! ### The order of the channel -/

/-- The jobs have got their tasks in the order of the channel. -/
structure Lined (s : JobQueue W) : Prop where
  queued : ∀ {i e}, s.accepted[i]? = some e → (e.stage = .queued ↔ s.dispatched ≤ i)
  bound : s.dispatched + s.holds.toNat ≤ s.accepted.length

theorem lined_new (config : JobQueueConfig) (registry : Url → Option W) : Lined (new config registry) :=
  ⟨fun {_ _} h => absurd h (by simp [JobQueue.new]), Nat.le_refl 0⟩

theorem length_setStage (s : JobQueue W) (i : Nat) (stage : Stage) :
    (s.setStage i stage).accepted.length = s.accepted.length :=
  List.length_modify _ _ _

/-- A task moves on. -/
theorem Lined.advance (h : Lined s) {i : Nat} {e : Entry} {stage : Stage} (hi : s.accepted[i]? = some e)
    (hold : e.stage ≠ .queued) (hnew : stage ≠ .queued)
    (hacc : s'.accepted = (s.setStage i stage).accepted) (hdisp : s'.dispatched = s.dispatched)
    (hholds : s'.holds = s.holds) : Lined s' := by
  refine ⟨fun {j f} hj => ?_, ?_⟩
  · rw [hacc] at hj
    rw [hdisp]
    by_cases hij : i = j
    · subst hij
      rw [getElem?_setStage_self hi] at hj
      cases hj
      exact iff_of_false hnew fun hle => hold ((h.queued hi).mpr hle)
    · rw [getElem?_setStage_of_ne hij] at hj
      exact h.queued hj
  · rw [hacc, length_setStage, hdisp, hholds]
    exact h.bound

theorem Lined.step {a : Action} (h : Lined s) (hstep : step env s a = some s') : Lined s' := by
  cases Step.of_step hstep with
  | submit => exact ⟨h.queued, h.bound⟩
  | refused => exact h
  | @send k job hk hclosed hroom =>
    have hlen := h.bound
    refine ⟨fun {i e} hi => ?_, ?_⟩
    · dsimp only at hi ⊢
      rw [List.getElem?_append] at hi
      split at hi
      · exact h.queued hi
      · obtain rfl := List.mem_singleton.mp (List.mem_of_getElem? hi)
        exact iff_of_true rfl (by omega)
    · dsimp only
      rw [List.length_append]
      exact Nat.le_add_right_of_le hlen
  | sendFails => exact ⟨h.queued, h.bound⟩
  | recv hclosed hholds hlt => exact ⟨h.queued, hlt⟩
  | acquire hclosed hholds hpermits =>
    have hlen := h.bound
    rw [hholds, Bool.toNat_true] at hlen
    refine ⟨fun {i e} hi => ?_, ?_⟩
    · change (s.setStage s.dispatched .spawned).accepted[i]? = some e at hi
      change e.stage = .queued ↔ s.dispatched + 1 ≤ i
      by_cases hne : s.dispatched = i
      · rw [getElem?_setStage] at hi
        simp only [if_pos hne] at hi
        obtain ⟨f, -, rfl⟩ := Option.map_eq_some_iff.mp hi
        exact iff_of_false (by simp) (by omega)
      · rw [getElem?_setStage_of_ne hne] at hi
        rw [h.queued hi]
        omega
    · change s.dispatched + 1 + 0 ≤ (s.setStage s.dispatched .spawned).accepted.length
      rw [length_setStage]
      exact hlen
  | process now hi hstage => exact h.advance hi (by simp [hstage]) (by simp) rfl rfl rfl
  | upgrade now hi hstage => exact h.advance hi (by simp [hstage]) (by simp) rfl rfl rfl
  | dropped now hi hstage => exact h.advance hi (by simp [hstage]) (by simp) rfl rfl rfl
  | execute hi hstage => exact h.advance hi (by simp [hstage]) (by simp) rfl rfl rfl
  | removeStatus hi hstage => exact h.advance hi (by simp [hstage]) (by simp) rfl rfl rfl
  | @record i e result now hi hstage =>
    have hold : e.stage ≠ .queued := by
      intro hq
      rw [hq] at hstage
      cases hstage
    cases result with
    | ok message => exact h.advance hi hold (by simp) rfl rfl rfl
    | error error => exact h.advance hi hold (by simp) rfl rfl rfl
  | cleanup => exact ⟨h.queued, h.bound⟩
  | dropContext => exact ⟨h.queued, h.bound⟩
  | stop => exact ⟨h.queued, h.bound⟩

end QwenStack.Jobs
