import QwenStack.Jobs.Steps
import QwenStack.Support.Runs

/-!
# Job queue — statuses

A status stands for all jobs of its URL.  From `submit` on there is one, and it is not a failure, as long as
nobody takes it away (`Spares`): a job that completes while others wait, the removal of a worker, which
takes the status of its own job too, or the clean-up, which looks at the age of a status only
(`status_visible`).  Each of these does happen, one job that runs for more than five minutes being enough
(`status_lost`).
-/

namespace QwenStack.Jobs
open Assoc List
open Registry (Url)
open JobQueue

variable {W : Type} {env : Env W} {s s' : JobQueue W}

/-! ### Who waits -/

/-- A later job of the URL has failed. -/
def JobQueue.Overtaken (s : JobQueue W) (j : Nat) (url : Url) : Prop :=
  ∃ e ∈ s.accepted.drop (j + 1), e.job.workerUrl = url ∧ e.stage.failed = true

instance (s : JobQueue W) (j : Nat) (url : Url) : Decidable (s.Overtaken j url) :=
  inferInstanceAs (Decidable (∃ e ∈ _, _))

/-- The accepted jobs whose completion is to come, with their URLs, but for those of which a later one has
failed. -/
def JobQueue.waiting (s : JobQueue W) : List (Nat × Url) :=
  (s.accepted.zipIdx.filter fun p =>
    decide (p.1.stage.completed = false ∧ ¬s.Overtaken p.2 p.1.job.workerUrl)).map fun p =>
      (p.2, p.1.job.workerUrl)

/-- The URLs for which a job waits, or a `submit`. -/
def JobQueue.awaited (s : JobQueue W) : List Url := s.sending.map Job.workerUrl ++ s.waiting.map Prod.snd

/-- The URL has a status that is not a failure. -/
def JobQueue.Active (s : JobQueue W) (url : Url) : Prop :=
  ∃ status, s.getStatus url = some status ∧ (status.status = .pending ∨ status.status = .processing)

/-- A step leaves the statuses that are waited for. -/
def Spares (s : JobQueue W) : Action → Prop
  | .sendFails k => ∀ job ∈ s.sending[k]?,
      job.workerUrl ∉ (s.sending.eraseIdx k).map Job.workerUrl ∧ job.workerUrl ∉ s.waiting.map Prod.snd
  | .upgrade i _ => s.contextAlive = false → ∀ e ∈ s.accepted[i]?,
      e.job.workerUrl ∉ s.sending.map Job.workerUrl ∧
        ∀ w ∈ s.waiting, w.2 = e.job.workerUrl → w.1 ≤ i
  | .removeStatus i => ∀ e ∈ s.accepted[i]?, e.job.workerUrl ∉ s.awaited
  | .record i result _ => ∀ e ∈ s.accepted[i]?,
      e.job.workerUrl ∉ s.sending.map Job.workerUrl ∧
        ∀ w ∈ s.waiting, w.2 = e.job.workerUrl → w.1 = i ∨ w.1 < i ∧ result.toBool = false
  | .cleanup now => ∀ url ∈ s.awaited, ∀ status ∈ s.getStatus url, status.fresh now = true
  | .submit _ _ | .send _ | .recv | .acquire | .process _ _ | .execute _ | .dropContext | .stop => True

instance (s : JobQueue W) : ∀ a : Action, Decidable (Spares s a)
  | .sendFails _ | .upgrade _ _ | .removeStatus _ | .record _ _ _ | .cleanup _ => by
      unfold Spares
      infer_instance
  | .submit _ _ | .send _ | .recv | .acquire | .process _ _ | .execute _ | .dropContext | .stop =>
      isTrue trivial

theorem overtaken_iff {j : Nat} {url : Url} : s.Overtaken j url ↔
    ∃ i e, j < i ∧ s.accepted[i]? = some e ∧ e.job.workerUrl = url ∧ e.stage.failed = true := by
  constructor
  · rintro ⟨e, he, hurl, hfailed⟩
    obtain ⟨k, hk⟩ := List.mem_iff_getElem?.mp he
    rw [List.getElem?_drop] at hk
    exact ⟨j + 1 + k, e, by omega, hk, hurl, hfailed⟩
  · rintro ⟨i, e, hlt, hi, hurl, hfailed⟩
    refine ⟨e, List.mem_iff_getElem?.mpr ⟨i - (j + 1), ?_⟩, hurl, hfailed⟩
    rw [List.getElem?_drop, Nat.add_sub_cancel' hlt]
    exact hi

theorem mem_waiting {j : Nat} {url : Url} : (j, url) ∈ s.waiting ↔
    ∃ e, s.accepted[j]? = some e ∧ e.job.workerUrl = url ∧ e.stage.completed = false ∧
      ¬s.Overtaken j url := by
  rw [JobQueue.waiting, mem_map]
  constructor
  · rintro ⟨⟨e, i⟩, hmem, heq⟩
    cases heq
    obtain ⟨hzip, hcond⟩ := List.mem_filter.mp hmem
    obtain ⟨hlive, hover⟩ := of_decide_eq_true hcond
    exact ⟨e, List.mem_zipIdx_iff_getElem?.mp hzip, rfl, hlive, hover⟩
  · rintro ⟨e, hj, rfl, hlive, hover⟩
    refine ⟨(e, j), List.mem_filter.mpr ⟨List.mem_zipIdx_iff_getElem?.mpr hj, ?_⟩, rfl⟩
    exact decide_eq_true ⟨hlive, hover⟩

theorem mem_awaited {url : Url} : url ∈ s.awaited ↔
    (∃ job ∈ s.sending, job.workerUrl = url) ∨ ∃ j, (j, url) ∈ s.waiting := by
  rw [JobQueue.awaited, mem_append, mem_map, mem_map]
  refine or_congr Iff.rfl ⟨?_, ?_⟩
  · rintro ⟨⟨j, u⟩, hmem, rfl⟩
    exact ⟨j, hmem⟩
  · rintro ⟨j, hmem⟩
    exact ⟨(j, url), hmem, rfl⟩

theorem mem_waiting_congr (hacc : s'.accepted = s.accepted) {w : Nat × Url} :
    w ∈ s'.waiting ↔ w ∈ s.waiting := by
  obtain ⟨j, url⟩ := w
  rw [mem_waiting, mem_waiting, overtaken_iff, overtaken_iff, hacc]

/-! ### What a step leaves -/

/-- An entry moves on.  One that completes is not waited for any more, and one that fails overtakes those
before it. -/
theorem mem_waiting_setStage {i j : Nat} {e : Entry} {stage : Stage} {url : Url}
    (hi : s.accepted[i]? = some e) (hlive : e.stage.completed = false)
    (h : (j, url) ∈ (s.setStage i stage).waiting) :
    (j, url) ∈ s.waiting ∧ (stage.completed = true → j ≠ i) ∧
      (stage.failed = true → e.job.workerUrl = url → ¬j < i) := by
  obtain ⟨e', hj, rfl, hlive', hover⟩ := mem_waiting.mp h
  have hovertakes (hfailed : stage.failed = true) (hurl : e.job.workerUrl = e'.job.workerUrl) : ¬j < i :=
    fun hlt => hover (overtaken_iff.mpr ⟨i, _, hlt, getElem?_setStage_self hi stage, hurl, hfailed⟩)
  have hover' : ¬s.Overtaken j e'.job.workerUrl := by
    intro hov
    obtain ⟨k, f, hlt, hk, hurl, hfailed⟩ := overtaken_iff.mp hov
    have hne : i ≠ k := by
      rintro rfl
      cases hi.symm.trans hk
      cases hstage : e.stage with
      | recorded => rw [hstage] at hlive; cases hlive
      | dropped => rw [hstage] at hlive; cases hlive
      | queued | spawned | processing | executing | applied | cleaned => rw [hstage] at hfailed; cases hfailed
    refine hover (overtaken_iff.mpr ⟨k, f, hlt, ?_, hurl, hfailed⟩)
    rw [getElem?_setStage_of_ne hne]
    exact hk
  by_cases hij : i = j
  · subst hij
    rw [getElem?_setStage_self hi] at hj
    cases hj
    refine ⟨mem_waiting.mpr ⟨e, hi, rfl, hlive, hover'⟩, fun hcomp => ?_, hovertakes⟩
    exact absurd (hlive'.symm.trans hcomp) Bool.false_ne_true
  · rw [getElem?_setStage_of_ne hij] at hj
    exact ⟨mem_waiting.mpr ⟨e', hj, rfl, hlive', hover'⟩, fun _ => Ne.symm hij, hovertakes⟩

/-- The statuses that are waited for are there. -/
def Visible (s : JobQueue W) : Prop := ∀ url ∈ s.awaited, s.Active url

theorem JobQueue.Active.of_getStatus {url : Url} (h : s.Active url) (he : s'.getStatus url = s.getStatus url) :
    s'.Active url := by
  obtain ⟨status, hs, hphase⟩ := h
  exact ⟨status, he.trans hs, hphase⟩

theorem getStatus_setStatus (s : JobQueue W) (status : JobStatus) (url : Url) :
    (s.setStatus status).getStatus url = if url = status.workerUrl then some status else s.getStatus url :=
  lookup_put url status.workerUrl status s.statusMap

theorem getStatus_removeStatus (s : JobQueue W) (url url' : Url) :
    (s.removeStatus url').getStatus url = if url = url' then none else s.getStatus url :=
  lookup_del url url' s.statusMap

/-- A status that is not a failure is written. -/
theorem active_setStatus {status : JobStatus} {url : Url}
    (hphase : status.status = .pending ∨ status.status = .processing)
    (h : url = status.workerUrl ∨ s.Active url) : (s.setStatus status).Active url := by
  by_cases hurl : url = status.workerUrl
  · refine ⟨status, ?_, hphase⟩
    rw [getStatus_setStatus, if_pos hurl]
  · refine (h.resolve_left hurl).of_getStatus ?_
    rw [getStatus_setStatus, if_neg hurl]

/-- A job is accepted. -/
theorem mem_waiting_send {j : Nat} {url : Url} {job : Job}
    (hacc : s'.accepted = s.accepted ++ [{ job := job }]) (h : (j, url) ∈ s'.waiting) :
    (j, url) ∈ s.waiting ∨ url = job.workerUrl := by
  obtain ⟨e, hj, rfl, hlive, hover⟩ := mem_waiting.mp h
  have hover' : ¬s.Overtaken j e.job.workerUrl := by
    intro hov
    obtain ⟨k, f, hlt, hk, hurl, hfailed⟩ := overtaken_iff.mp hov
    refine hover (overtaken_iff.mpr ⟨k, f, hlt, ?_, hurl, hfailed⟩)
    rw [hacc, List.getElem?_append_left (List.getElem?_eq_some_iff.mp hk).1]
    exact hk
  rw [hacc, List.getElem?_append] at hj
  split at hj
  · exact .inl (mem_waiting.mpr ⟨e, hj, rfl, hlive, hover'⟩)
  · obtain rfl := List.mem_singleton.mp (List.mem_of_getElem? hj)
    exact .inr rfl

/-- What is waited for after a step was waited for before. -/
theorem awaited_mono {url : Url} (hsending : ∀ job ∈ s'.sending, job ∈ s.sending)
    (hwaiting : ∀ j, (j, url) ∈ s'.waiting → (j, url) ∈ s.waiting) (h : url ∈ s'.awaited) :
    url ∈ s.awaited := by
  obtain ⟨job, hjob, hurl⟩ | ⟨j, hj⟩ := mem_awaited.mp h
  · exact mem_awaited.mpr (.inl ⟨job, hsending job hjob, hurl⟩)
  · exact mem_awaited.mpr (.inr ⟨j, hwaiting j hj⟩)

theorem not_mem_sending {url : Url} (h : url ∉ s.sending.map Job.workerUrl) (job : Job)
    (hjob : job ∈ s.sending) : job.workerUrl ≠ url :=
  fun he => h (he ▸ mem_map_of_mem hjob)

/-- A status is taken away, or is a failure, when nobody waits for it. -/
theorem Visible.of_unawaited (h : Visible s) (url : Url) (hurl : url ∉ s'.awaited)
    (hawaited : ∀ u ∈ s'.awaited, u ∈ s.awaited) (hstatus : ∀ u, u ≠ url → s'.getStatus u = s.getStatus u) :
    Visible s' := by
  intro u hu
  have hne : u ≠ url := fun he => hurl (he ▸ hu)
  exact (h u (hawaited u hu)).of_getStatus (hstatus u hne)

/-- A job completes, and those before it are overtaken if it fails. -/
theorem Visible.complete (h : Visible s) {i : Nat} {e : Entry} {stage : Stage}
    (hi : s.accepted[i]? = some e) (hlive : e.stage.completed = false) (hstage : stage.completed = true)
    (hsending : e.job.workerUrl ∉ s.sending.map Job.workerUrl)
    (hothers : ∀ w ∈ s.waiting, w.2 = e.job.workerUrl → w.1 = i ∨ w.1 < i ∧ stage.failed = true)
    (hacc : s'.accepted = (s.setStage i stage).accepted) (hsent : s'.sending = s.sending)
    (hstatus : ∀ u, u ≠ e.job.workerUrl → s'.getStatus u = s.getStatus u) : Visible s' := by
  refine h.of_unawaited e.job.workerUrl (fun hurl => ?_) (fun u hu => ?_) hstatus
  · obtain ⟨job, hjob, he⟩ | ⟨j, hj⟩ := mem_awaited.mp hurl
    · rw [hsent] at hjob
      exact not_mem_sending hsending job hjob he
    · obtain ⟨hj, hne, hbefore⟩ := mem_waiting_setStage hi hlive ((mem_waiting_congr hacc).mp hj)
      obtain hself | ⟨hlt, hfailed⟩ := hothers _ hj rfl
      · exact hne hstage hself
      · exact hbefore hfailed rfl hlt
  · refine awaited_mono (fun job hjob => hsent ▸ hjob) (fun j hj => ?_) hu
    exact (mem_waiting_setStage hi hlive ((mem_waiting_congr hacc).mp hj)).1

/-- A job moves on, and the status of its URL stays or is written. -/
theorem Visible.advance (h : Visible s) {i : Nat} {e : Entry} {stage : Stage}
    (hi : s.accepted[i]? = some e) (hlive : e.stage.completed = false)
    (hacc : s'.accepted = (s.setStage i stage).accepted) (hsent : s'.sending = s.sending)
    (hactive : ∀ u, s.Active u → s'.Active u) : Visible s' := by
  intro u hu
  refine hactive u (h u (awaited_mono (fun job hjob => hsent ▸ hjob) (fun j hj => ?_) hu))
  exact (mem_waiting_setStage hi hlive ((mem_waiting_congr hacc).mp hj)).1

/-- **A step that spares the statuses keeps them visible.** -/
theorem Visible.step {a : Action} (hlined : Lined s) (h : Visible s) (hspares : Spares s a) (hstep : step env s a = some s') :
    Visible s' := by
  cases Step.of_step hstep with
  | submit job now halive =>
    intro u hu
    have hu : u = job.workerUrl ∨ u ∈ s.awaited := by
      obtain ⟨job', hjob', rfl⟩ | hwait := mem_awaited.mp hu
      · obtain hmem | hlast := List.mem_append.mp hjob'
        · exact .inr (mem_awaited.mpr (.inl ⟨job', hmem, rfl⟩))
        · obtain rfl := List.mem_singleton.mp hlast
          exact .inl rfl
      · exact .inr (mem_awaited.mpr (.inr hwait))
    have hset : (s.setStatus (.pending job now)).Active u := active_setStatus (.inl rfl) (hu.imp_right (h u))
    exact hset
  | refused => exact h
  | send hk hclosed hroom =>
    intro u hu
    have hu : u ∈ s.awaited := by
      obtain ⟨job', hjob', rfl⟩ | ⟨j, hj⟩ := mem_awaited.mp hu
      · exact mem_awaited.mpr (.inl ⟨job', mem_of_mem_eraseIdx hjob', rfl⟩)
      · obtain hj | rfl := mem_waiting_send rfl hj
        · exact mem_awaited.mpr (.inr ⟨j, hj⟩)
        · exact mem_awaited.mpr (.inl ⟨_, List.mem_of_getElem? hk, rfl⟩)
    exact h u hu
  | @sendFails k job hk hclosed =>
    -- `submit` removes the status of a job it could not send: nothing else may await that URL
    obtain ⟨hsending, hwaiting⟩ := hspares job hk
    refine h.of_unawaited job.workerUrl (fun hurl => ?_) (fun u hu => ?_) fun u hu => ?_
    · obtain hmem | hmem := List.mem_append.mp hurl
      · exact hsending hmem
      · exact hwaiting hmem
    · refine awaited_mono ?_ ?_ hu
      · exact fun job' hjob' => mem_of_mem_eraseIdx hjob'
      · exact fun j hj => hj
    · exact (getStatus_removeStatus s u job.workerUrl).trans (if_neg hu)
  | recv => exact h
  | acquire hclosed hholds hpermits =>
    have hlt : s.dispatched < s.accepted.length := by
      have hlen := hlined.bound
      rw [hholds, Bool.toNat_true] at hlen
      exact hlen
    have hi := List.getElem?_eq_getElem hlt
    have hstage := (hlined.queued hi).mpr (Nat.le_refl _)
    exact h.advance hi (by rw [hstage]; rfl) rfl rfl fun u hu => hu
  | @process i e now hi hstage =>
    refine h.advance hi (by rw [hstage]; rfl) rfl rfl fun u hu => ?_
    exact active_setStatus (.inr rfl) (.inr hu)
  | @upgrade i e now hi hstage halive =>
    exact h.advance hi (by rw [hstage]; rfl) rfl rfl fun u hu => hu
  -- without an `AppContext` the job ends at once, as failed
  | @dropped i e now hi hstage halive =>
    obtain ⟨hsending, hothers⟩ := hspares halive e hi
    refine h.complete hi (by rw [hstage]; rfl) rfl hsending (fun w hw hurl => ?_) rfl rfl fun u hu => ?_
    · exact (Nat.eq_or_lt_of_le (hothers w hw hurl)).imp_right fun hlt => ⟨hlt, rfl⟩
    · exact (getStatus_setStatus s _ u).trans (if_neg hu)
  | @execute i e hi hstage => exact h.advance hi (by rw [hstage]; rfl) rfl rfl fun u hu => hu
  | @removeStatus i e hi hstage hjob =>
    have hurl := hspares e hi
    have hwas (u : Url) (hu : u ∈ (s.setStage i .cleaned).awaited) : u ∈ s.awaited := by
      refine awaited_mono ?_ ?_ hu
      · exact fun job hjob => hjob
      · exact fun j hj => (mem_waiting_setStage hi (by rw [hstage]; rfl) hj).1
    refine h.of_unawaited e.job.workerUrl (fun hmem => hurl (hwas _ hmem)) hwas fun u hu => ?_
    exact (getStatus_removeStatus s u e.job.workerUrl).trans (if_neg hu)
  | @record i e result now hi hstage =>
    obtain ⟨hsending, hothers⟩ := hspares e hi
    have hlive := Stage.not_completed_of_returns hstage
    cases result with
    | ok message =>
      refine h.complete hi hlive rfl hsending (fun w hw hurl => ?_) rfl rfl fun u hu => ?_
      · exact .inl ((hothers w hw hurl).resolve_right fun hlt => Bool.noConfusion hlt.2)
      · exact (getStatus_removeStatus s u e.job.workerUrl).trans (if_neg hu)
    | error error =>
      refine h.complete hi hlive rfl hsending (fun w hw hurl => ?_) rfl rfl fun u hu => ?_
      · exact (hothers w hw hurl).imp_right fun hlt => ⟨hlt.1, rfl⟩
      · exact (getStatus_setStatus s _ u).trans (if_neg hu)
  | cleanup now =>
    intro u hu
    obtain ⟨status, hs, hphase⟩ := h u hu
    exact ⟨status, lookup_filter_kept hs (hspares u hu status hs), hphase⟩
  | dropContext => exact h
  | stop => exact h

/-! ### Runs -/

theorem visible_new (config : JobQueueConfig) (registry : Url → Option W) :
    Visible (JobQueue.new config registry) := fun _ hu => absurd hu not_mem_nil

/-- **The status of a job is there until its completion is recorded**, in every state of a run whose steps
spare the statuses that are waited for. -/
theorem status_visible (env : Env W) (registry : Url → Option W) (actions : List Action)
    (hspares : Runs.Along (step env) Spares (JobQueue.new env.config registry) actions) (k : Nat)
    (s : JobQueue W) (hs : Runs.exec (step env) (JobQueue.new env.config registry) (actions.take k) = some s)
    (j : Nat) (e : Entry) (hj : s.accepted[j]? = some e) (hlive : e.stage.completed = false) :
    s.Active e.job.workerUrl ∨ s.Overtaken j e.job.workerUrl := by
  have hinv := Runs.exec_invariant (J := fun s : JobQueue W => Lined s ∧ Visible s) (C := Spares)
    (fun {s a s'} hJ hC hstep => ⟨hJ.1.step hstep, hJ.2.step hJ.1 hC hstep⟩)
    ⟨lined_new env.config registry, visible_new env.config registry⟩ hspares.get k s hs
  by_cases hover : s.Overtaken j e.job.workerUrl
  · exact .inr hover
  · refine .inl (hinv.2 _ (mem_awaited.mpr (.inr ⟨j, ?_⟩)))
    exact mem_waiting.mpr ⟨e, hj, rfl, hlive, hover⟩

/-- A job is submitted, dispatched, and begins. -/
def begin (i : Nat) (job : Job) (now : UInt64) : List Action :=
  [.submit job now, .send 0, .recv, .acquire, .process i now, .upgrade i now]

def twoRegistrations : List Action :=
  begin 0 (.addWorker "w".toList) 0 ++ begin 1 (.addTokenizer "t".toList) 20 ++
    [.cleanup 60, .execute 0, .record 0 (.ok []) 70]

theorem status_visible_two : ∃ s : JobQueue Unit,
    Runs.exec (step (.plain {})) (.new {} fun _ => none) twoRegistrations = some s ∧
    ∀ (j : Nat) (e : Entry), s.accepted[j]? = some e → e.stage.completed = false →
      s.Active e.job.workerUrl ∨ s.Overtaken j e.job.workerUrl :=
  ⟨_, rfl, status_visible (.plain {}) (fun _ => none) twoRegistrations (by decide)
    twoRegistrations.length _ rfl⟩

/-- **A status is lost** while a job waits.  A tokenizer is loaded for more than five minutes; a worker is
updated while its registration completes; a worker is removed. -/
theorem status_lost :
    (∃ s : JobQueue Unit, Runs.exec (step (.plain {})) (.new {} fun _ => none)
        (begin 0 (.addTokenizer "t".toList) 0 ++ [.cleanup 301]) = some s ∧
      (0, "t".toList) ∈ s.waiting ∧ s.getStatus "t".toList = none) ∧
    (∃ s : JobQueue Unit, Runs.exec (step (.plain {})) (.new {} fun _ => none)
        (begin 0 (.addWorker "w".toList) 0 ++ begin 1 (.updateWorker "w".toList) 1 ++
          [.execute 0, .record 0 (.ok []) 2]) = some s ∧
      (1, "w".toList) ∈ s.waiting ∧ s.getStatus "w".toList = none) ∧
    ∃ s : JobQueue Unit, Runs.exec (step (.plain {})) (.new {} fun _ => some ())
        (begin 0 (.removeWorker "w".toList) 0 ++ [.execute 0, .removeStatus 0]) = some s ∧
      (0, "w".toList) ∈ s.waiting ∧ s.getStatus "w".toList = none :=
  ⟨⟨_, rfl, by decide, by decide⟩, ⟨_, rfl, by decide, by decide⟩, ⟨_, rfl, by decide, by decide⟩⟩

end QwenStack.Jobs
