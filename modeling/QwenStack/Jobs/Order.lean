import QwenStack.Jobs.Steps
import QwenStack.Support.Runs

/-!
# Job queue — the order of the jobs of a URL

The dispatcher takes the jobs in the order in which they were accepted, and gives each its task as soon as
there is a permit.  From there on the tasks are on their own, so the jobs of a URL may take effect in any
order (`removal_overtaken`).  If no job of a URL gets its permit while another one of the URL has one, as
with one permit in all, they take effect in the order in which they were accepted
(`registrations_in_order`).
-/

namespace QwenStack.Jobs
open Assoc List
open Registry (Url)
open JobQueue

variable {W : Type} {env : Env W} {s s' : JobQueue W} {url : Url}

/-! ### One after another -/

/-- The jobs of a URL, run one after another.  The first has the number `i`. -/
def sequential (env : Env W) (url : Url) : Nat → List Job → Option W → Option W
  | _, [], r => r
  | i, job :: jobs, r =>
      sequential env url (i + 1) jobs (if job.workerUrl = url then env.change i job r else r)

theorem sequential_of_not_mem {jobs : List Job} (h : ∀ job ∈ jobs, job.workerUrl ≠ url) (i : Nat)
    (r : Option W) : sequential env url i jobs r = r := by
  induction jobs generalizing i with
  | nil => rfl
  | cons job jobs ih =>
    rw [sequential, if_neg (h job mem_cons_self)]
    exact ih (fun job' hjob' => h job' (mem_cons_of_mem _ hjob')) (i + 1)

/-- After the last job of a URL, a removal, there is no registration. -/
theorem sequential_remove {before after : List Job} (h : ∀ job ∈ after, job.workerUrl ≠ url) (i : Nat)
    (r : Option W) : sequential env url i (before ++ .removeWorker url :: after) r = none := by
  induction before generalizing i r with
  | nil =>
    have hurl : (Job.removeWorker url).workerUrl = url := rfl
    rw [nil_append, sequential, if_pos hurl]
    exact sequential_of_not_mem h (i + 1) none
  | cons job before ih => exact ih (i + 1) _

/-! ### What has taken effect -/

/-- The workflow of the job is over. -/
def Stage.ran : Stage → Bool
  | .applied | .cleaned | .recorded _ => true
  | .queued | .spawned | .processing | .executing | .dropped => false

/-- The job has a permit. -/
def Stage.running : Stage → Bool
  | .spawned | .processing | .executing | .applied | .cleaned => true
  | .queued | .recorded _ | .dropped => false

/-- The jobs of a URL whose workflows are over, one after another. -/
def replay (env : Env W) (url : Url) : Nat → List Entry → Option W → Option W
  | _, [], r => r
  | i, e :: l, r => replay env url (i + 1) l
      (if e.job.workerUrl = url ∧ e.stage.ran = true then env.change i e.job r else r)

theorem replay_of_not_ran {l : List Entry} (h : ∀ e ∈ l, e.job.workerUrl = url → e.stage.ran = false)
    (i : Nat) (r : Option W) : replay env url i l r = r := by
  induction l generalizing i with
  | nil => rfl
  | cons e l ih =>
    have he : ¬(e.job.workerUrl = url ∧ e.stage.ran = true) := fun he =>
      Bool.false_ne_true ((h e mem_cons_self he.1).symm.trans he.2)
    rw [replay, if_neg he]
    exact ih (fun e' he' => h e' (mem_cons_of_mem _ he')) (i + 1)

theorem replay_append (l l' : List Entry) (i : Nat) (r : Option W) :
    replay env url i (l ++ l') r = replay env url (i + l.length) l' (replay env url i l r) := by
  induction l generalizing i r with
  | nil => rfl
  | cons e l ih =>
    rw [cons_append, replay, replay, ih, length_cons, Nat.add_assoc, Nat.add_comm 1]

/-- All jobs of the URL have run. -/
theorem replay_eq_sequential {l : List Entry} (h : ∀ e ∈ l, e.job.workerUrl = url → e.stage.ran = true)
    (i : Nat) (r : Option W) : replay env url i l r = sequential env url i (l.map Entry.job) r := by
  induction l generalizing i r with
  | nil => rfl
  | cons e l ih =>
    rw [replay, map_cons, sequential, ih fun e' he' => h e' (mem_cons_of_mem _ he')]
    congr 1
    exact if_congr (and_iff_left_of_imp (h e mem_cons_self)) rfl rfl

/-- A job of another URL moves on, or its workflow does not end. -/
theorem replay_modify {stage : Stage} : ∀ {l : List Entry} {j : Nat} {e : Entry}, l[j]? = some e →
    (e.job.workerUrl = url → stage.ran = e.stage.ran) → ∀ (i : Nat) (r : Option W),
      replay env url i (l.modify j fun e => { e with stage := stage }) r = replay env url i l r := by
  intro l
  induction l with
  | nil => exact fun hj => nomatch hj
  | cons f l ih =>
    intro j e hj hran i r
    cases j with
    | zero =>
      cases hj
      have hcond : (f.job.workerUrl = url ∧ stage.ran = true) ↔
          (f.job.workerUrl = url ∧ f.stage.ran = true) :=
        and_congr_right fun hurl => by rw [hran hurl]
      rw [modify_zero_cons, replay, replay]
      congr 1
      exact if_congr hcond rfl rfl
    | succ j =>
      rw [modify_succ_cons, replay, replay]
      exact ih hj hran (i + 1) _

/-- The workflow of a job ends, before those of the later jobs of its URL. -/
theorem replay_execute {stage : Stage} (hran : stage.ran = true) : ∀ {l : List Entry} {j : Nat} {e : Entry},
    l[j]? = some e → e.job.workerUrl = url → e.stage.ran = false →
    (∀ k f, j < k → l[k]? = some f → f.job.workerUrl = url → f.stage.ran = false) →
    ∀ (i : Nat) (r : Option W), replay env url i (l.modify j fun e => { e with stage := stage }) r =
      env.change (i + j) e.job (replay env url i l r) := by
  intro l
  induction l with
  | nil => exact fun hj => nomatch hj
  | cons f l ih =>
    intro j e hj hurl hnot hlater i r
    cases j with
    | zero =>
      cases hj
      have hrest (g : Entry) (hg : g ∈ l) (hgurl : g.job.workerUrl = url) : g.stage.ran = false := by
        obtain ⟨k, hk⟩ := List.mem_iff_getElem?.mp hg
        exact hlater (k + 1) g (Nat.succ_pos k) hk hgurl
      have hold : ¬(f.job.workerUrl = url ∧ f.stage.ran = true) := fun h =>
        Bool.false_ne_true (hnot.symm.trans h.2)
      rw [modify_zero_cons, replay, replay, if_pos ⟨hurl, hran⟩, if_neg hold,
        replay_of_not_ran hrest, replay_of_not_ran hrest]
      rfl
    | succ j =>
      rw [modify_succ_cons, replay, replay, Nat.add_comm j 1, ← Nat.add_assoc]
      refine ih hj hurl hnot (fun k g hlt hk => ?_) (i + 1) _
      exact hlater (k + 1) g (Nat.succ_lt_succ hlt) hk

/-! ### One job of a URL at a time -/

/-- A job of the URL gets its permit when no other one of the URL has one. -/
def Serial (url : Url) (s : JobQueue W) : Action → Prop
  | .acquire => ∀ e ∈ s.accepted[s.dispatched]?, e.job.workerUrl = url →
      ∀ f ∈ s.accepted, f.job.workerUrl = url → f.stage.running = false
  | _ => True

/-- The jobs of the URL run one at a time, in the order of the channel, and the registration is what they
have left. -/
structure InOrder (env : Env W) (url : Url) (r : Option W) (s : JobQueue W) : Prop where
  lined : Lined s
  earlier : ∀ {i j : Nat} {e f : Entry}, i < j → s.accepted[i]? = some e → s.accepted[j]? = some f →
    e.job.workerUrl = url → f.job.workerUrl = url → f.stage ≠ .queued → e.stage.completed = true
  registration : s.registry url = replay env url 0 s.accepted r

theorem inOrder_new (env : Env W) (url : Url) (registry : Url → Option W) :
    InOrder env url (registry url) (JobQueue.new env.config registry) where
  lined := lined_new env.config registry
  earlier _ hi := absurd hi (by simp [JobQueue.new])
  registration := rfl

theorem completed_of_not_running {stage : Stage} (hq : stage ≠ .queued) (hr : stage.running = false) :
    stage.completed = true := by
  cases stage with
  | queued => exact absurd rfl hq
  | spawned | processing | executing | applied | cleaned => cases hr
  | recorded | dropped => rfl

section
variable {r : Option W} (h : InOrder env url r s) (hlined : Lined s')
include h hlined

/-- A task moves on, and what the jobs have left is the same. -/
theorem InOrder.advance {i : Nat} {e : Entry}
    {stage : Stage} (hi : s.accepted[i]? = some e) (hold : e.stage ≠ .queued)
    (hlive : e.stage.completed = false) (hacc : s'.accepted = (s.setStage i stage).accepted)
    (hreg : s'.registry url = replay env url 0 s'.accepted r) : InOrder env url r s' := by
  refine ⟨hlined, fun {j k f g} hlt hj hk hfurl hgurl hg => ?_, hreg⟩
  rw [hacc] at hj hk
  by_cases hik : i = k
  · -- the later one has moved: those before it had completed
    subst hik
    rw [getElem?_setStage_self hi] at hk
    cases hk
    rw [getElem?_setStage_of_ne (Nat.ne_of_gt hlt)] at hj
    exact h.earlier hlt hj hi hfurl hgurl hold
  · rw [getElem?_setStage_of_ne hik] at hk
    by_cases hij : i = j
    · -- the earlier one has moved, while a later one has a task
      subst hij
      rw [getElem?_setStage_self hi] at hj
      cases hj
      exact absurd ((h.earlier hlt hi hk hfurl hgurl hg).symm.trans hlive) (by decide)
    · rw [getElem?_setStage_of_ne hij] at hj
      exact h.earlier hlt hj hk hfurl hgurl hg

/-- Neither does the step end a workflow. -/
theorem InOrder.move {i : Nat} {e : Entry}
    {stage : Stage} (hi : s.accepted[i]? = some e) (hold : e.stage ≠ .queued)
    (hlive : e.stage.completed = false) (hran : stage.ran = e.stage.ran)
    (hacc : s'.accepted = (s.setStage i stage).accepted) (hreg : s'.registry = s.registry) :
    InOrder env url r s' := by
  refine h.advance hlined hi hold hlive hacc ?_
  rw [hreg, h.registration, hacc]
  exact (replay_modify hi (fun _ => hran) 0 r).symm

theorem InOrder.acquire (hholds : s.holds = true) (hserial : Serial url s .acquire)
    (hacc : s'.accepted = (s.setStage s.dispatched .spawned).accepted) (hreg : s'.registry = s.registry) :
    InOrder env url r s' := by
  have hlen := h.lined.bound
  rw [hholds, Bool.toNat_true] at hlen
  have hi := List.getElem?_eq_getElem hlen
  have hqueued := (h.lined.queued hi).mpr (Nat.le_refl _)
  refine ⟨hlined, fun {j k f g} hlt hj hk hfurl hgurl hg => ?_, ?_⟩
  · rw [hacc] at hj hk
    by_cases hik : s.dispatched = k
    · -- the job that gets its permit: those before it have had theirs
      subst hik
      rw [getElem?_setStage_self hi] at hk
      cases hk
      rw [getElem?_setStage_of_ne (Nat.ne_of_gt hlt)] at hj
      have hrunning := hserial _ hi hgurl f (List.mem_of_getElem? hj) hfurl
      exact completed_of_not_running (fun hq => absurd ((h.lined.queued hj).mp hq) (by omega)) hrunning
    · rw [getElem?_setStage_of_ne hik] at hk
      have hbefore : ¬s.dispatched ≤ k := mt (h.lined.queued hk).mpr hg
      rw [getElem?_setStage_of_ne (by omega)] at hj
      exact h.earlier hlt hj hk hfurl hgurl hg
  · rw [hreg, h.registration, hacc]
    exact (replay_modify hi (fun _ => by rw [hqueued]; rfl) 0 r).symm

theorem InOrder.execute {i : Nat} {e : Entry}
    (hi : s.accepted[i]? = some e) (hstage : e.stage = .executing)
    (hacc : s'.accepted = (s.setStage i .applied).accepted)
    (hreg : s'.registry = fun u => if u = e.job.workerUrl then env.change i e.job (s.registry u)
      else s.registry u) : InOrder env url r s' := by
  refine h.advance hlined hi (by simp [hstage]) (by rw [hstage]; rfl) hacc ?_
  rw [hreg, hacc]
  dsimp only
  by_cases hurl : e.job.workerUrl = url
  · rw [if_pos hurl.symm, h.registration]
    have hlater (k : Nat) (f : Entry) (hlt : i < k) (hk : s.accepted[k]? = some f)
        (hfurl : f.job.workerUrl = url) : f.stage.ran = false := by
      by_cases hq : f.stage = .queued
      · rw [hq]
        rfl
      · have hdone := h.earlier hlt hi hk hurl hfurl hq
        rw [hstage] at hdone
        cases hdone
    have hnew : replay env url 0 (s.setStage i .applied).accepted r =
        env.change (0 + i) e.job (replay env url 0 s.accepted r) :=
      replay_execute rfl hi hurl (by rw [hstage]; rfl) hlater 0 r
    rw [Nat.zero_add] at hnew
    exact hnew.symm
  · rw [if_neg (Ne.symm hurl), h.registration]
    exact (replay_modify hi (fun he => absurd he hurl) 0 r).symm

end

/-- **A step keeps the jobs of the URL in order.** -/
theorem InOrder.step {r : Option W} {a : Action} (h : InOrder env url r s) (hserial : Serial url s a)
    (hstep : step env s a = some s') : InOrder env url r s' := by
  have hlined := h.lined.step hstep
  cases Step.of_step hstep with
  | submit => exact ⟨hlined, h.earlier, h.registration⟩
  | refused => exact h
  | @send k job hk hclosed hroom =>
    refine ⟨hlined, fun {i j e f} hlt hi hj heurl hfurl hf => ?_, ?_⟩
    · dsimp only at hi hj
      have hjlt : j < s.accepted.length := by
        by_contra hge
        rw [List.getElem?_append_right (Nat.le_of_not_lt hge)] at hj
        obtain rfl := List.mem_singleton.mp (List.mem_of_getElem? hj)
        exact hf rfl
      rw [List.getElem?_append_left hjlt] at hj
      rw [List.getElem?_append_left (Nat.lt_trans hlt hjlt)] at hi
      exact h.earlier hlt hi hj heurl hfurl hf
    · dsimp only
      rw [replay_append, h.registration]
      refine (replay_of_not_ran (fun e he _ => ?_) _ _).symm
      obtain rfl := List.mem_singleton.mp he
      rfl
  | sendFails => exact ⟨hlined, h.earlier, h.registration⟩
  | recv => exact ⟨hlined, h.earlier, h.registration⟩
  | acquire hclosed hholds hpermits => exact h.acquire hlined hholds hserial rfl rfl
  | process now hi hstage =>
    exact h.move hlined hi (by simp [hstage]) (by rw [hstage]; rfl) (by rw [hstage]; rfl) rfl rfl
  | upgrade now hi hstage =>
    exact h.move hlined hi (by simp [hstage]) (by rw [hstage]; rfl) (by rw [hstage]; rfl) rfl rfl
  | dropped now hi hstage =>
    exact h.move hlined hi (by simp [hstage]) (by rw [hstage]; rfl) (by rw [hstage]; rfl) rfl rfl
  | execute hi hstage => exact h.execute hlined hi hstage rfl rfl
  | removeStatus hi hstage =>
    exact h.move hlined hi (by simp [hstage]) (by rw [hstage]; rfl) (by rw [hstage]; rfl) rfl rfl
  | @record i e result now hi hstage =>
    have hran : e.stage.ran = true ∧ e.stage ≠ .queued := by
      cases hs : e.stage with
      | applied | cleaned => exact ⟨rfl, by simp⟩
      | queued | spawned | processing | executing | recorded | dropped => rw [hs] at hstage; cases hstage
    have hlive := Stage.not_completed_of_returns hstage
    have hsame (failed : Bool) : (Stage.recorded failed).ran = e.stage.ran := hran.1.symm
    cases result with
    | ok message => exact h.move hlined hi hran.2 hlive (hsame false) rfl rfl
    | error error => exact h.move hlined hi hran.2 hlive (hsame true) rfl rfl
  | cleanup => exact ⟨hlined, h.earlier, h.registration⟩
  | dropContext => exact ⟨hlined, h.earlier, h.registration⟩
  | stop => exact ⟨hlined, h.earlier, h.registration⟩

/-! ### One permit -/

/-- The tasks that have a permit. -/
def JobQueue.running (s : JobQueue W) : Nat := s.accepted.countP fun e => e.stage.running

theorem countP_setStage (stage : Stage) : ∀ {l : List Entry} {i : Nat} {e : Entry}, l[i]? = some e →
    (l.modify i fun e => { e with stage := stage }).countP (fun e => e.stage.running) +
      e.stage.running.toNat = l.countP (fun e => e.stage.running) + stage.running.toNat := by
  intro l
  induction l with
  | nil => exact fun hi => nomatch hi
  | cons f l ih =>
    intro i e hi
    cases i with
    | zero =>
      cases hi
      rw [modify_zero_cons, countP_cons, countP_cons]
      cases f.stage.running <;> cases stage.running <;> simp
    | succ i =>
      have hrest := ih hi
      rw [modify_succ_cons, countP_cons, countP_cons]
      omega

/-- The permits are with the semaphore or with a task. -/
def Permits (config : JobQueueConfig) (s : JobQueue W) : Prop :=
  Lined s ∧ s.permits + s.running = config.maxConcurrentJobs

theorem permits_new (config : JobQueueConfig) (registry : Url → Option W) :
    Permits config (JobQueue.new config registry) := ⟨lined_new config registry, rfl⟩

/-- A task moves on, with its permit or without. -/
theorem Permits.move {config : JobQueueConfig} (h : Permits config s) (hlined : Lined s') {i : Nat}
    {e : Entry} {stage : Stage} (hi : s.accepted[i]? = some e)
    (hacc : s'.accepted = (s.setStage i stage).accepted)
    (hpermits : s'.permits + stage.running.toNat = s.permits + e.stage.running.toNat) :
    Permits config s' := by
  have hcount := countP_setStage stage hi
  have hsum := h.2
  refine ⟨hlined, ?_⟩
  rw [JobQueue.running] at hsum
  rw [JobQueue.running, hacc]
  change s'.permits + (s.accepted.modify i fun e => { e with stage := stage }).countP _ = _
  omega

theorem Permits.step {a : Action} (h : Permits env.config s) (hstep : step env s a = some s') :
    Permits env.config s' := by
  have hlined := h.1.step hstep
  cases Step.of_step hstep with
  | submit => exact ⟨hlined, h.2⟩
  | refused => exact h
  | @send k job hk hclosed hroom =>
    refine ⟨hlined, ?_⟩
    change s.permits + List.countP _ (s.accepted ++ [({ job := job } : Entry)]) = _
    rw [countP_append]
    exact h.2
  | sendFails => exact ⟨hlined, h.2⟩
  | recv => exact ⟨hlined, h.2⟩
  | acquire hclosed hholds hpermits =>
    have hlen := h.1.bound
    rw [hholds, Bool.toNat_true] at hlen
    have hi := List.getElem?_eq_getElem hlen
    have hqueued := (h.1.queued hi).mpr (Nat.le_refl _)
    refine h.move hlined hi rfl ?_
    rw [hqueued]
    exact Nat.sub_add_cancel hpermits
  | process now hi hstage => exact h.move hlined hi rfl (by rw [hstage]; rfl)
  | upgrade now hi hstage => exact h.move hlined hi rfl (by rw [hstage]; rfl)
  | dropped now hi hstage => exact h.move hlined hi rfl (by rw [hstage]; rfl)
  | execute hi hstage => exact h.move hlined hi rfl (by rw [hstage]; rfl)
  | removeStatus hi hstage => exact h.move hlined hi rfl (by rw [hstage]; rfl)
  | @record i e result now hi hstage =>
    have hrunning : e.stage.running = true := by
      cases hs : e.stage with
      | applied | cleaned => rfl
      | queued | spawned | processing | executing | recorded | dropped => rw [hs] at hstage; cases hstage
    cases result with
    | ok message => exact h.move hlined hi rfl (by rw [hrunning]; rfl)
    | error error => exact h.move hlined hi rfl (by rw [hrunning]; rfl)
  | cleanup => exact ⟨hlined, h.2⟩
  | dropContext => exact ⟨hlined, h.2⟩
  | stop => exact ⟨hlined, h.2⟩

/-- With one permit in all, a job that gets one is alone. -/
theorem Permits.serial {config : JobQueueConfig} (h : Permits config s)
    (hone : config.maxConcurrentJobs ≤ 1) (hpermits : 0 < s.permits) (url : Url) :
    Serial url s .acquire := by
  have hsum := h.2
  have hnone : s.running = 0 := by omega
  intro e _ _ f hf _
  exact Bool.eq_false_iff.mpr (List.countP_eq_zero.mp hnone f hf)

/-! ### Runs -/

/-- **The jobs of a URL take effect in the order in which they were accepted**, if no job of the URL gets its
permit while another one has one, or there is one permit in all. -/
theorem registrations_in_order (env : Env W) (registry : Url → Option W) (url : Url) (actions : List Action)
    (hserial : env.config.maxConcurrentJobs ≤ 1 ∨
      Runs.Along (step env) (Serial url) (JobQueue.new env.config registry) actions)
    (s : JobQueue W) (hs : Runs.exec (step env) (JobQueue.new env.config registry) actions = some s)
    (hdone : ∀ e ∈ s.accepted, e.job.workerUrl = url → ∃ failed, e.stage = .recorded failed) :
    s.registry url = sequential env url 0 (s.accepted.map Entry.job) (registry url) ∧
      ∀ before after, s.accepted.map Entry.job = before ++ .removeWorker url :: after →
        (∀ job ∈ after, job.workerUrl ≠ url) → s.registry url = none := by
  have hinv : InOrder env url (registry url) s := by
    obtain hone | halong := hserial
    · refine (Runs.exec_keeps (J := fun s => Permits env.config s ∧ InOrder env url (registry url) s) ?_
        ⟨permits_new env.config registry, inOrder_new env url registry⟩ hs).2
      intro s a s' hJ hstep
      refine ⟨hJ.1.step hstep, hJ.2.step ?_ hstep⟩
      cases Step.of_step hstep with
      | acquire hclosed hholds hpermits => exact hJ.1.serial hone hpermits url
      | submit | refused | send | sendFails | recv | process | upgrade | dropped | execute | removeStatus
      | record | cleanup | dropContext | stop => trivial
    · refine Runs.exec_invariant (J := InOrder env url (registry url)) (C := Serial url)
        (fun hJ hC hstep => hJ.step hC hstep) (inOrder_new env url registry) halong.get actions.length s ?_
      rw [take_length]
      exact hs
  have hreg : s.registry url = sequential env url 0 (s.accepted.map Entry.job) (registry url) := by
    rw [hinv.registration]
    refine replay_eq_sequential (fun e he hurl => ?_) 0 (registry url)
    obtain ⟨failed, hstage⟩ := hdone e he hurl
    rw [hstage]
    rfl
  refine ⟨hreg, fun before after hjobs hafter => ?_⟩
  rw [hreg, hjobs]
  exact sequential_remove hafter 0 (registry url)

/-- A worker is added and removed. -/
def addAndRemove : List Action :=
  [.submit (.addWorker "w".toList) 0, .send 0, .submit (.removeWorker "w".toList) 1, .send 0]

/-- One task after the other. -/
def inTurn : List Action :=
  addAndRemove ++
    [.recv, .acquire, .process 0 2, .upgrade 0 2, .execute 0, .record 0 (.ok []) 3,
      .recv, .acquire, .process 1 4, .upgrade 1 4, .execute 1, .removeStatus 1, .record 1 (.ok []) 5]

/-- The removal is over before the registration has found the worker. -/
def overtaking : List Action :=
  addAndRemove ++
    [.recv, .acquire, .recv, .acquire, .process 0 2, .upgrade 0 2, .process 1 2, .upgrade 1 2, .execute 1,
      .removeStatus 1, .record 1 (.ok []) 3, .execute 0, .record 0 (.ok []) 4]

theorem inTurn_returns :
    (Runs.exec (step (.plain { maxConcurrentJobs := 1 })) (.new { maxConcurrentJobs := 1 } fun _ => none)
      inTurn).isSome = true := by decide

theorem registrations_in_order_inTurn :
    ∃ s, Runs.exec (step (.plain { maxConcurrentJobs := 1 }))
        (.new { maxConcurrentJobs := 1 } fun _ => none) inTurn = some s ∧
      s.registry "w".toList = sequential (.plain { maxConcurrentJobs := 1 }) "w".toList 0
        (s.accepted.map Entry.job) none ∧
      ∀ before after, s.accepted.map Entry.job = before ++ .removeWorker "w".toList :: after →
        (∀ job ∈ after, job.workerUrl ≠ "w".toList) → s.registry "w".toList = none := by
  refine ⟨_, (Option.some_get inTurn_returns).symm, ?_⟩
  refine registrations_in_order (.plain { maxConcurrentJobs := 1 }) (fun _ => none) "w".toList inTurn
    (.inl (Nat.le_refl 1)) _ (Option.some_get inTurn_returns).symm fun e he _ => ⟨false, ?_⟩
  have hall : ∀ e ∈ ((Runs.exec (step (.plain { maxConcurrentJobs := 1 }))
      (.new { maxConcurrentJobs := 1 } fun _ => none) inTurn).get inTurn_returns).accepted,
      e.stage = .recorded false := by decide
  exact hall e he

/-- **The removal of a worker is overtaken.**  Both jobs are over, and the worker is registered. -/
theorem removal_overtaken :
    ∃ s, Runs.exec (step (.plain {})) (.new {} fun _ => none) overtaking = some s ∧
      s.accepted = [⟨.addWorker "w".toList, .recorded false⟩, ⟨.removeWorker "w".toList, .recorded false⟩] ∧
      s.registry "w".toList = some () ∧
      sequential (.plain {}) "w".toList 0 (s.accepted.map Entry.job) none = none :=
  ⟨_, rfl, by decide, by decide, by decide⟩

end QwenStack.Jobs
