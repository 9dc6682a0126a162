import Mathlib.Data.List.TakeWhile
import QwenStack.Health.Definitions
import QwenStack.Support.Mealy

/-!
# Health checks — hysteresis

A worker is marked after enough probes in a row have gone the other way.  The counters are the lengths
of these runs (`Reflects`), and every probe that reaches them is counted right (`Reflects.record`).

A probe that cannot connect the gRPC client does not reach them: `check_health_async` returns its
error at once.  This can only happen before the first success, and it matters only to a worker that
is healthy at that time.  `hysteresis_iff` says which runs go wrong: those of a healthy worker whose
first probe cannot connect and whose first `failure_threshold` probes all fail.
-/

namespace QwenStack.Health
open Mealy List

/-- One call: the network's answer, what it returned, and the worker before and after. -/
abbrev Check := Event Reply (Except WorkerError Unit) BasicWorker

/-- The probe of a call succeeds. -/
def probeSucceeds (m : WorkerMetadata) (w : BasicWorker) (r : Reply) : Bool :=
  match m.connectionMode with
  | .http => match r.send with
    | .response status => isSuccess status
    | .error => false
  | .grpc =>
      (w.grpcClient || match r.connect with
        | .ok () => true
        | .error _ => false) &&
      match r.healthCheck with
      | .response healthy => healthy
      | .error => false
      | .elapsed => false

def succeeded (m : WorkerMetadata) (c : Check) : Bool := probeSucceeds m c.before c.input

def failed (m : WorkerMetadata) (c : Check) : Bool := !probeSucceeds m c.before c.input

/-- The call marks the worker healthy. -/
def markedHealthy (c : Check) : Bool := !c.before.healthy && c.after.healthy

/-- The law of a call, given the calls before it. -/
structure Hysteresis (m : WorkerMetadata) (past : List Check) (c : Check) : Prop where
  /-- A healthy worker is marked unhealthy exactly when enough probes have failed since it was marked
  healthy. -/
  unhealthy : c.before.healthy = true → (c.after.healthy = false ↔
    LastAll m.healthConfig.failureThreshold.toNat (failed m) (c :: since markedHealthy past))
  /-- An unhealthy worker is marked healthy exactly when enough probes have succeeded. -/
  healthy : c.before.healthy = false → (c.after.healthy = true ↔
    LastAll m.healthConfig.successThreshold.toNat (succeeded m) (c :: past.reverse))
  result : (∃ e, c.output = .error e) ↔ failed m c = true

/-- There is no client to send the probe with. -/
def Unconnected (m : WorkerMetadata) (w : BasicWorker) : Prop :=
  m.connectionMode = .grpc ∧ w.grpcClient = false

instance (m : WorkerMetadata) (w : BasicWorker) : Decidable (Unconnected m w) :=
  inferInstanceAs (Decidable (_ ∧ _))

/-- The probe fails before it is sent. -/
def connectFails (m : WorkerMetadata) (w : BasicWorker) (r : Reply) : Bool :=
  decide (Unconnected m w) && match r.connect with
    | .ok () => false
    | .error _ => true

/-- The number of probes that fail before one succeeds. -/
def leadingFailures (m : WorkerMetadata) : BasicWorker → List Reply → Nat
  | _, [] => 0
  | w, r :: replies =>
      if probeSucceeds m w r = true then 0
      else leadingFailures m (BasicWorker.checkHealthAsync m w r).1 replies + 1

/-- The run begins with a probe that cannot connect, and enough probes fail. -/
def Missed (m : WorkerMetadata) (w : BasicWorker) : List Reply → Prop
  | [] => False
  | r :: replies => w.healthy = true ∧ connectFails m w r = true ∧
      m.healthConfig.failureThreshold.toNat ≤ leadingFailures m w (r :: replies)

/-! ### Runs of probes -/

/-- The failures in a row, since the worker was marked healthy. -/
def failRun (m : WorkerMetadata) (past : List Check) : Nat :=
  ((since markedHealthy past).takeWhile (failed m)).length

/-- The successes in a row. -/
def okRun (m : WorkerMetadata) (past : List Check) : Nat :=
  (past.reverse.takeWhile (succeeded m)).length

section
variable {m : WorkerMetadata} {past : List Check} {c : Check}

theorem failed_eq (m : WorkerMetadata) (c : Check) : failed m c = !succeeded m c := rfl

theorem failRun_snoc (m : WorkerMetadata) (past : List Check) (c : Check) : failRun m (past ++ [c]) =
      if markedHealthy c = true then 0 else if failed m c = true then failRun m past + 1 else 0 := by
  rw [failRun, since_snoc]
  split
  · rfl
  · rw [takeWhile_cons]
    cases failed m c <;> rfl

theorem okRun_snoc (m : WorkerMetadata) (past : List Check) (c : Check) :
    okRun m (past ++ [c]) = if succeeded m c = true then okRun m past + 1 else 0 := by
  rw [okRun, reverse_append, reverse_singleton, singleton_append, takeWhile_cons]
  cases succeeded m c <;> rfl

/-- The law in terms of runs. -/
theorem hysteresis_of_runs (hun : c.before.healthy = true → (c.after.healthy = false ↔
      m.healthConfig.failureThreshold.toNat ≤ if failed m c = true then failRun m past + 1 else 0))
    (hhe : c.before.healthy = false → (c.after.healthy = true ↔
      m.healthConfig.successThreshold.toNat ≤ if succeeded m c = true then okRun m past + 1 else 0))
    (hres : (∃ e, c.output = .error e) ↔ failed m c = true) : Hysteresis m past c := by
  refine ⟨fun hb => (hun hb).trans ?_, fun hb => (hhe hb).trans ?_, hres⟩
  · rw [lastAll_iff, takeWhile_cons, failRun]
    cases failed m c <;> rfl
  · rw [lastAll_iff, takeWhile_cons, okRun]
    cases succeeded m c <;> rfl

end

/-! ### One call -/

section
variable {m : WorkerMetadata} {w : BasicWorker} {r : Reply}

/-- **What a call does**: a probe that cannot connect changes nothing, any other is recorded. -/
theorem check_cases (henabled : m.healthConfig.disableHealthCheck = false) (w : BasicWorker)
    (r : Reply) :
    (connectFails m w r = true ∧ probeSucceeds m w r = false ∧
      ∃ e, BasicWorker.checkHealthAsync m w r = (w, .error e)) ∨
    connectFails m w r = false ∧ ∃ client, (m.connectionMode = .grpc → client = true) ∧
      BasicWorker.checkHealthAsync m w r =
        BasicWorker.recordHealth { w with grpcClient := client } m (probeSucceeds m w r) := by
  rw [BasicWorker.checkHealthAsync, if_neg (by rw [henabled]; exact Bool.false_ne_true)]
  cases hmode : m.connectionMode with
  | http =>
    refine Or.inr ⟨by simp [connectFails, Unconnected, hmode], w.grpcClient, nofun, ?_⟩
    simp only [probeSucceeds, hmode]
    rfl
  | grpc =>
    simp only [BasicWorker.grpcHealthCheck, BasicWorker.getGrpcClient]
    cases hclient : w.grpcClient with
    | true =>
      refine Or.inr ⟨by simp [connectFails, Unconnected, hclient], true, fun _ => rfl, ?_⟩
      simp only [probeSucceeds, hmode, hclient, Bool.true_or, Bool.true_and]
      rw [← hclient]
      rfl
    | false =>
      cases hconnect : r.connect with
      | ok u =>
        refine Or.inr ⟨by simp [connectFails, hconnect], true, fun _ => rfl, ?_⟩
        simp only [probeSucceeds, hmode, hconnect, Bool.or_true, Bool.true_and]
        rfl
      | error e =>
        refine Or.inl ⟨?_, ?_, _, rfl⟩
        · simp [connectFails, Unconnected, hmode, hclient, hconnect]
        · simp [probeSucceeds, hmode, hclient, hconnect]

/-- The counter that can mark the worker is the length of the run. -/
structure Reflects (m : WorkerMetadata) (past : List Check) (w : BasicWorker) : Prop where
  failures : w.healthy = true → w.consecutiveFailures = failRun m past ∧
    failRun m past < m.healthConfig.failureThreshold.toNat
  successes : w.healthy = false → w.consecutiveSuccesses = okRun m past ∧
    okRun m past < m.healthConfig.successThreshold.toNat

/-- The thresholds are at least one. -/
def Positive (m : WorkerMetadata) : Prop :=
  1 ≤ m.healthConfig.failureThreshold.toNat ∧ 1 ≤ m.healthConfig.successThreshold.toNat

/-- A count below a threshold does not wrap. -/
theorem increment_of_lt {n : Nat} {threshold : UInt32} (h : n < threshold.toNat) :
    increment n = n + 1 := by
  have := threshold.toNat_lt
  exact Nat.mod_eq_of_lt (by omega)

/-- A success that is recorded. -/
theorem recordHealth_true (w : BasicWorker) (m : WorkerMetadata) :
    (w.recordHealth m true).2 = .ok () ∧ (w.recordHealth m true).1.consecutiveFailures = 0 ∧
      ((w.recordHealth m true).1.healthy = true ↔ w.healthy = true ∨
        m.healthConfig.successThreshold.toNat ≤ increment w.consecutiveSuccesses) ∧
      ((w.recordHealth m true).1.healthy = false →
        (w.recordHealth m true).1.consecutiveSuccesses = increment w.consecutiveSuccesses) := by
  rw [BasicWorker.recordHealth, if_pos rfl]
  by_cases h : w.healthy = false ∧
      m.healthConfig.successThreshold.toNat ≤ increment w.consecutiveSuccesses
  · simp only [h, and_self, if_true]
    simp
  · simp only [if_neg h]
    refine ⟨trivial, trivial, ⟨Or.inl, fun hor => ?_⟩, fun _ => trivial⟩
    rcases hor with hw | hle
    · exact hw
    · exact Bool.not_eq_false _ ▸ fun hw => h ⟨hw, hle⟩

/-- A failure that is recorded. -/
theorem recordHealth_false (w : BasicWorker) (m : WorkerMetadata) :
    (∃ e, (w.recordHealth m false).2 = .error e) ∧
      (w.recordHealth m false).1.consecutiveSuccesses = 0 ∧
      ((w.recordHealth m false).1.healthy = false ↔ w.healthy = false ∨
        m.healthConfig.failureThreshold.toNat ≤ increment w.consecutiveFailures) ∧
      ((w.recordHealth m false).1.healthy = true →
        (w.recordHealth m false).1.consecutiveFailures = increment w.consecutiveFailures) := by
  rw [BasicWorker.recordHealth, if_neg Bool.false_ne_true]
  by_cases h : w.healthy = true ∧
      m.healthConfig.failureThreshold.toNat ≤ increment w.consecutiveFailures
  · simp only [h, and_self, if_true]
    simp
  · simp only [if_neg h]
    refine ⟨⟨_, rfl⟩, trivial, ⟨Or.inl, fun hor => ?_⟩, fun _ => trivial⟩
    rcases hor with hw | hle
    · exact hw
    · exact Bool.not_eq_true _ ▸ fun hw => h ⟨hw, hle⟩

variable {past : List Check} {client : Bool} {c : Check}

/-- **A success is counted right.** -/
theorem reflects_success (h : c.before.healthy = false → c.before.consecutiveSuccesses = okRun m past ∧
        okRun m past < m.healthConfig.successThreshold.toNat) (hpos : Positive m)
    (hcall : (c.after, c.output) =
      BasicWorker.recordHealth { c.before with grpcClient := client } m true)
    (hok : succeeded m c = true) : Hysteresis m past c ∧ Reflects m (past ++ [c]) c.after := by
  obtain ⟨hout, hzero, hhealthy, hcount⟩ :=
    recordHealth_true { c.before with grpcClient := client } m
  rw [← hcall] at hout hzero hhealthy hcount
  dsimp only at hout hzero hhealthy hcount
  have hfail : failed m c = false := by
    rw [failed_eq, hok]
    rfl
  have hft := hpos.1
  have hruns : failRun m (past ++ [c]) = 0 := by
    rw [failRun_snoc, hfail]
    split <;> rfl
  refine ⟨hysteresis_of_runs (fun hb => ?_) (fun hb => ?_) ?_, fun _ => ?_, fun ha => ?_⟩
  · have hafter := hhealthy.mpr (Or.inl hb)
    rw [hafter, hfail, if_neg Bool.false_ne_true]
    exact ⟨nofun, fun hle => absurd hft (by omega)⟩
  · obtain ⟨hs, hlt⟩ := h hb
    rw [if_pos hok, hhealthy]
    simp only [hb, hs, increment_of_lt hlt]
    simp
  · rw [hout, hfail]
    exact ⟨nofun, nofun⟩
  · rw [hruns]
    exact ⟨hzero, hft⟩
  · have hb : c.before.healthy = false := by
      by_contra hb
      exact absurd (hhealthy.mpr (Or.inl (Bool.not_eq_false _ ▸ hb))) (by rw [ha]; nofun)
    obtain ⟨hs, hlt⟩ := h hb
    have hinc := increment_of_lt hlt
    have hbelow : ¬ m.healthConfig.successThreshold.toNat ≤ increment c.before.consecutiveSuccesses :=
      fun hle => absurd (hhealthy.mpr (Or.inr hle)) (by rw [ha]; nofun)
    rw [hs, hinc] at hbelow
    rw [okRun_snoc, if_pos hok, hcount ha]
    exact ⟨by simp only [hs, hinc], by omega⟩

/-- **A failure is counted right.** -/
theorem reflects_failure (h : c.before.healthy = true → c.before.consecutiveFailures = failRun m past ∧
        failRun m past < m.healthConfig.failureThreshold.toNat) (hpos : Positive m)
    (hcall : (c.after, c.output) =
      BasicWorker.recordHealth { c.before with grpcClient := client } m false)
    (hfail : failed m c = true) : Hysteresis m past c ∧ Reflects m (past ++ [c]) c.after := by
  obtain ⟨hout, hzero, hhealthy, hcount⟩ :=
    recordHealth_false { c.before with grpcClient := client } m
  rw [← hcall] at hout hzero hhealthy hcount
  have hok : succeeded m c = false := by
    simpa [failed_eq] using hfail
  have hst := hpos.2
  refine ⟨hysteresis_of_runs (fun hb => ?_) (fun hb => ?_) ?_, fun ha => ?_, fun _ => ?_⟩
  · obtain ⟨hs, hlt⟩ := h hb
    rw [if_pos hfail, hhealthy]
    simp only [hb, hs, increment_of_lt hlt]
    simp
  · have hafter := hhealthy.mpr (Or.inl hb)
    rw [hafter, hok, if_neg Bool.false_ne_true]
    exact ⟨nofun, fun hle => absurd hst (by omega)⟩
  · simp only [hfail, iff_true]
    exact hout
  · have hb : c.before.healthy = true := by
      by_contra hb
      exact absurd (hhealthy.mpr (Or.inl (Bool.not_eq_true _ ▸ hb))) (by rw [ha]; nofun)
    obtain ⟨hs, hlt⟩ := h hb
    have hinc := increment_of_lt hlt
    have hbelow : ¬ m.healthConfig.failureThreshold.toNat ≤ increment c.before.consecutiveFailures :=
      fun hle => absurd (hhealthy.mpr (Or.inr hle)) (by rw [ha]; nofun)
    rw [hs, hinc] at hbelow
    have hmarked : markedHealthy c = false := by simp [markedHealthy, hb]
    rw [failRun_snoc, hmarked, if_neg Bool.false_ne_true, if_pos hfail, hcount ha]
    exact ⟨by simp only [hs, hinc], by omega⟩
  · rw [okRun_snoc, hok, if_neg Bool.false_ne_true]
    exact ⟨hzero, hst⟩

end

/-! ### Probes that cannot connect -/

/-- Every probe so far has failed, and the worker is healthy still. -/
structure Lead (m : WorkerMetadata) (past : List Check) (w : BasicWorker) : Prop where
  healthy : w.healthy = true
  failed : ∀ c ∈ past, failed m c = true
  unmarked : ∀ c ∈ past, markedHealthy c = false

section
variable {m : WorkerMetadata} {w : BasicWorker} {r : Reply} {past : List Check}

/-- The call as an entry of the trace. -/
abbrev check (m : WorkerMetadata) (w : BasicWorker) (r : Reply) : Check :=
  event (BasicWorker.checkHealthAsync m) id w r

theorem recordHealth_grpcClient (w : BasicWorker) (m : WorkerMetadata) (ok : Bool) :
    (w.recordHealth m ok).1.grpcClient = w.grpcClient := by
  rw [BasicWorker.recordHealth]
  split
  · dsimp only
    split <;> rfl
  · dsimp only
    split <;> rfl

theorem lead_nil (hw : w.healthy = true) : Lead m [] w :=
  ⟨hw, fun _ hc => absurd hc not_mem_nil, fun _ hc => absurd hc not_mem_nil⟩

theorem Lead.failRun_eq (h : Lead m past w) : failRun m past = past.length := by
  have hsince : since markedHealthy past = past.reverse := by
    refine List.takeWhile_eq_self_iff.mpr fun c hc => ?_
    rw [h.unmarked c (List.mem_reverse.mp hc)]
    rfl
  rw [failRun, hsince, List.takeWhile_eq_self_iff.mpr fun c hc => h.failed c (List.mem_reverse.mp hc),
    length_reverse]

/-- A failure that leaves the worker healthy. -/
theorem Lead.snoc (h : Lead m past w) (hfail : probeSucceeds m w r = false)
    (hafter : (BasicWorker.checkHealthAsync m w r).1.healthy = true) :
    Lead m (past ++ [check m w r]) (BasicWorker.checkHealthAsync m w r).1 := by
  refine ⟨hafter, fun c hc => ?_, fun c hc => ?_⟩
  · rcases List.mem_append.mp hc with hc | hc
    · exact h.failed c hc
    · rw [List.mem_singleton.mp hc]
      simp [Health.failed, hfail]
  · rcases List.mem_append.mp hc with hc | hc
    · exact h.unmarked c hc
    · rw [List.mem_singleton.mp hc]
      simp [markedHealthy, h.healthy]

/-- **A failure that is short of the count**: with one probe that was not counted, the worker is
healthy after a failure that is the `failure_threshold`-th at most. -/
theorem Lead.uncounted (henabled : m.healthConfig.disableHealthCheck = false) (h : Lead m past w)
    (hfail : probeSucceeds m w r = false)
    (hshort : w.consecutiveFailures < past.length ∨
      w.consecutiveFailures = past.length ∧ connectFails m w r = true)
    (hlen : past.length < m.healthConfig.failureThreshold.toNat) :
    (BasicWorker.checkHealthAsync m w r).1.healthy = true ∧
      (BasicWorker.checkHealthAsync m w r).1.consecutiveFailures < past.length + 1 := by
  rcases check_cases henabled w r with ⟨-, -, e, hcall⟩ | ⟨hno, client, -, hcall⟩
  · rw [hcall]
    refine ⟨h.healthy, ?_⟩
    dsimp only
    rcases hshort with hshort | ⟨hshort, -⟩ <;> omega
  · have hlt : w.consecutiveFailures < past.length :=
      hshort.resolve_right fun hc => by rw [hno] at hc; exact Bool.false_ne_true hc.2
    have hinc : increment w.consecutiveFailures = w.consecutiveFailures + 1 :=
      increment_of_lt (Nat.lt_trans hlt hlen)
    obtain ⟨-, -, hhealthy, hcount⟩ := recordHealth_false { w with grpcClient := client } m
    rw [hcall, hfail]
    have hafter : (BasicWorker.recordHealth { w with grpcClient := client } m false).1.healthy = true := by
      by_contra hno
      rcases hhealthy.mp (Bool.not_eq_true _ ▸ hno) with hw | hle
      · rw [h.healthy] at hw
        cases hw
      · simp only [hinc] at hle
        omega
    refine ⟨hafter, ?_⟩
    rw [hcount hafter]
    simp only [hinc]
    omega

theorem connectFails_unconnected (h : connectFails m w r = true) : Unconnected m w := by
  rw [connectFails, Bool.and_eq_true, decide_eq_true_eq] at h
  exact h.1

theorem leadingFailures_cons (hfail : probeSucceeds m w r = false) (replies : List Reply) :
    leadingFailures m w (r :: replies) =
      leadingFailures m (BasicWorker.checkHealthAsync m w r).1 replies + 1 := by
  rw [leadingFailures, hfail, if_neg Bool.false_ne_true]

/-- The law of a failure that leaves a healthy worker as it is. -/
theorem Lead.lawful (h : Lead m past w) (hfail : probeSucceeds m w r = false)
    (hafter : (BasicWorker.checkHealthAsync m w r).1.healthy = true)
    (hres : ∃ e, (BasicWorker.checkHealthAsync m w r).2 = .error e) :
    Hysteresis m past (check m w r) ↔ past.length + 1 < m.healthConfig.failureThreshold.toNat := by
  have hfailed : Health.failed m (check m w r) = true := by simp [Health.failed, hfail]
  constructor
  · intro hlaw
    have := (hlaw.unhealthy h.healthy).mpr.mt (by simp [hafter])
    rw [lastAll_iff, takeWhile_cons, hfailed, if_pos rfl, length_cons, ← failRun, h.failRun_eq] at this
    omega
  · intro hlt
    refine hysteresis_of_runs (fun _ => ?_) (fun hb => ?_) ?_
    · rw [if_pos hfailed, h.failRun_eq]
      exact ⟨fun ha => by simp [hafter] at ha, fun hle => absurd hle (by omega)⟩
    · exact absurd h.healthy (by rw [show w.healthy = false from hb]; nofun)
    · exact ⟨fun _ => hfailed, fun _ => hres⟩

/-- A failed probe returns an error. -/
theorem check_error (henabled : m.healthConfig.disableHealthCheck = false)
    (hfail : probeSucceeds m w r = false) :
    ∃ e, (BasicWorker.checkHealthAsync m w r).2 = .error e := by
  rcases check_cases henabled w r with ⟨-, -, e, hcall⟩ | ⟨-, client, -, hcall⟩
  · exact ⟨e, by rw [hcall]⟩
  · rw [hcall, hfail]
    exact (recordHealth_false _ m).1

/-- **Some call goes wrong**, if enough probes fail and one of them is not counted. -/
theorem Lead.goes_wrong (henabled : m.healthConfig.disableHealthCheck = false) (replies : List Reply)
    (h : Lead m past w) (hlen : past.length < m.healthConfig.failureThreshold.toNat)
    (hfails : m.healthConfig.failureThreshold.toNat ≤ past.length + leadingFailures m w replies)
    (hshort : w.consecutiveFailures < past.length ∨ w.consecutiveFailures = past.length ∧
      ∃ r, replies.head? = some r ∧ connectFails m w r = true) :
    ∃ l₁ c l₂, trace (BasicWorker.checkHealthAsync m) id w replies = l₁ ++ c :: l₂ ∧
      ¬ Hysteresis m (past ++ l₁) c := by
  induction replies generalizing past w with
  | nil => exact absurd hfails (by simp [leadingFailures]; omega)
  | cons r replies ih =>
    have hfail : probeSucceeds m w r = false := by
      by_contra hok
      rw [leadingFailures, if_pos (Bool.not_eq_false _ ▸ hok)] at hfails
      omega
    have hshort' : w.consecutiveFailures < past.length ∨
        w.consecutiveFailures = past.length ∧ connectFails m w r = true := by
      refine hshort.imp_right fun ⟨heq, r', hr', hc⟩ => ⟨heq, ?_⟩
      cases hr'
      exact hc
    obtain ⟨hafter, hcount⟩ := h.uncounted henabled hfail hshort' hlen
    by_cases hlast : past.length + 1 < m.healthConfig.failureThreshold.toNat
    · rw [leadingFailures_cons hfail] at hfails
      have hlength : (past ++ [check m w r]).length = past.length + 1 := by simp
      obtain ⟨l₁, c, l₂, htrace, hwrong⟩ := ih (h.snoc hfail hafter) (by rw [hlength]; omega)
        (by rw [hlength]; omega) (Or.inl (by rw [hlength]; exact hcount))
      refine ⟨check m w r :: l₁, c, l₂, ?_, ?_⟩
      · rw [trace, htrace]
        rfl
      · rwa [append_assoc] at hwrong
    · refine ⟨[], check m w r, _, rfl, fun hlaw => hlast ?_⟩
      rw [append_nil] at hlaw
      exact (h.lawful hfail hafter (check_error henabled hfail)).mp hlaw

/-! ### Every call -/

/-- What is known before the calls `replies`: the counters reflect the past, and as long as there is no
client every probe has failed; or one failure was not counted, and too few follow for it to matter. -/
def Tracked (m : WorkerMetadata) (past : List Check) (w : BasicWorker) (replies : List Reply) : Prop :=
  (Reflects m past w ∧ (Unconnected m w → (∀ c ∈ past, failed m c = true) ∧
    (w.healthy = true → past = [] ∧ ¬ Missed m w replies))) ∨
  Lead m past w ∧ w.consecutiveFailures < past.length ∧
    past.length + leadingFailures m w replies < m.healthConfig.failureThreshold.toNat

/-- A call that is recorded leaves a client. -/
theorem connected_of_recorded {client ok : Bool} (hclient : m.connectionMode = .grpc → client = true)
    (hcall : BasicWorker.checkHealthAsync m w r =
      BasicWorker.recordHealth { w with grpcClient := client } m ok) :
    ¬ Unconnected m (BasicWorker.checkHealthAsync m w r).1 := by
  rintro ⟨hmode, hnone⟩
  rw [hcall, recordHealth_grpcClient] at hnone
  rw [hclient hmode] at hnone
  cases hnone

/-- A probe that cannot connect, and the worker is unhealthy: there are no successes to clear. -/
theorem Reflects.unconnected {e : WorkerError} (h : Reflects m past w) (hpos : Positive m)
    (hw : w.healthy = false) (hpast : ∀ c ∈ past, failed m c = true)
    (hfail : probeSucceeds m w r = false)
    (hcall : BasicWorker.checkHealthAsync m w r = (w, .error e)) :
    Hysteresis m past (check m w r) ∧ Reflects m (past ++ [check m w r]) w := by
  have hok : succeeded m (check m w r) = false := hfail
  have hnone : okRun m past = 0 := by
    rw [okRun, length_eq_zero_iff, takeWhile_eq_nil_iff]
    intro hlt
    have := hpast _ (List.mem_reverse.mp (getElem_mem hlt))
    rw [failed_eq] at this
    simpa using this
  have hst := hpos.2
  refine ⟨hysteresis_of_runs (fun hb => ?_) (fun _ => ?_) ?_, fun ha => ?_, fun _ => ?_⟩
  · exact absurd (hw.symm.trans hb) nofun
  · rw [hok, if_neg Bool.false_ne_true]
    refine ⟨fun ha => ?_, fun hle => absurd hst (by omega)⟩
    simp [hcall, hw] at ha
  · rw [failed_eq, hok]
    exact ⟨fun _ => rfl, fun _ => ⟨e, by simp [hcall]⟩⟩
  · exact absurd ha (by rw [hw]; nofun)
  · rw [okRun_snoc, hok, if_neg Bool.false_ne_true, (h.successes hw).1, hnone]
    exact ⟨rfl, hst⟩

/-- **One call.** -/
theorem Tracked.call (henabled : m.healthConfig.disableHealthCheck = false) (hpos : Positive m)
    {replies : List Reply} (h : Tracked m past w (r :: replies)) :
    Hysteresis m past (check m w r) ∧
      Tracked m (past ++ [check m w r]) (BasicWorker.checkHealthAsync m w r).1 replies := by
  have hlength : (past ++ [check m w r]).length = past.length + 1 := by simp
  rcases h with ⟨hreflects, hclient⟩ | ⟨hlead, hshort, hfew⟩
  · rcases check_cases henabled w r with ⟨hconnect, hfail, e, hcall⟩ | ⟨-, client, hset, hcall⟩
    -- no client: the `?` on `grpc_health_check` returns before the counters are touched
    · obtain ⟨hpast, hfirst⟩ := hclient (connectFails_unconnected hconnect)
      cases hw : w.healthy with
      | false =>
        obtain ⟨hlaw, hnext⟩ := hreflects.unconnected hpos hw hpast hfail hcall
        refine ⟨hlaw, Or.inl ?_⟩
        rw [hcall]
        refine ⟨hnext, fun _ => ⟨fun c hc => ?_, fun ha => absurd ha (by simp [hw])⟩⟩
        rcases List.mem_append.mp hc with hc | hc
        · exact hpast c hc
        · rw [List.mem_singleton.mp hc]
          simp [failed, hfail]
      | true =>
        obtain ⟨rfl, hmissed⟩ := hfirst hw
        have hlead : Lead m [] w := lead_nil hw
        have hfew : leadingFailures m w (r :: replies) < m.healthConfig.failureThreshold.toNat :=
          Nat.lt_of_not_le fun hle => hmissed ⟨hw, hconnect, hle⟩
        rw [leadingFailures_cons hfail] at hfew
        have hafter : (BasicWorker.checkHealthAsync m w r).1.healthy = true := by rw [hcall, hw]
        refine ⟨(hlead.lawful hfail hafter (check_error henabled hfail)).mpr ?_, Or.inr ?_⟩
        · simp only [length_nil]
          omega
        · refine ⟨hlead.snoc hfail hafter, ?_, ?_⟩
          · have hzero := (hreflects.failures hw).1
            rw [hcall, hlength]
            simp only [hzero]
            exact Nat.zero_lt_succ _
          · rw [hlength]
            simp only [length_nil]
            omega
    -- the probe is recorded, so the counters go on telling the runs
    · have hconn := connected_of_recorded hset hcall
      cases hok : probeSucceeds m w r with
      | true =>
        rw [hok] at hcall
        obtain ⟨hlaw, hnext⟩ := reflects_success (c := check m w r) hreflects.successes hpos hcall hok
        exact ⟨hlaw, Or.inl ⟨hnext, fun hun => absurd hun hconn⟩⟩
      | false =>
        rw [hok] at hcall
        obtain ⟨hlaw, hnext⟩ := reflects_failure (c := check m w r) hreflects.failures hpos hcall
          (by simp [failed, hok])
        exact ⟨hlaw, Or.inl ⟨hnext, fun hun => absurd hun hconn⟩⟩
  -- still in the failures no counter has seen
  · cases hok : probeSucceeds m w r with
    | true =>
      rcases check_cases henabled w r with ⟨-, hfail, -⟩ | ⟨-, client, hset, hcall⟩
      · rw [hok] at hfail
        cases hfail
      · have hconn := connected_of_recorded hset hcall
        rw [hok] at hcall
        have hun : (check m w r).before.healthy = false → w.consecutiveSuccesses = okRun m past ∧
              okRun m past < m.healthConfig.successThreshold.toNat :=
          fun hb => absurd (hlead.healthy.symm.trans hb) nofun
        obtain ⟨hlaw, hnext⟩ := reflects_success (c := check m w r) hun hpos hcall hok
        exact ⟨hlaw, Or.inl ⟨hnext, fun hun => absurd hun hconn⟩⟩
    | false =>
      rw [leadingFailures_cons hok] at hfew
      obtain ⟨hafter, hcount⟩ := hlead.uncounted henabled hok (Or.inl hshort) (by omega)
      refine ⟨(hlead.lawful hok hafter (check_error henabled hok)).mpr (by omega), Or.inr ?_⟩
      refine ⟨hlead.snoc hok hafter, ?_, ?_⟩
      · rw [hlength]
        exact hcount
      · rw [hlength]
        omega

end

/-- A worker that has not been checked. -/
def unchecked (healthy grpcClient : Bool) : BasicWorker where
  healthy := healthy
  grpcClient := grpcClient

/-- **The health of a worker follows its probes, in every call of a run, exactly when it is not a
healthy worker whose first probe cannot connect and whose first `failure_threshold` probes all
fail.** -/
theorem hysteresis_iff (m : WorkerMetadata) (henabled : m.healthConfig.disableHealthCheck = false)
    (hpos : Positive m) (healthy grpcClient : Bool) (replies : List Reply) :
    (∀ past c rest, trace (BasicWorker.checkHealthAsync m) id (unchecked healthy grpcClient) replies =
        past ++ c :: rest → Hysteresis m past c) ↔
      ¬ Missed m (unchecked healthy grpcClient) replies := by
  constructor
  · intro hlaw hmissed
    cases replies with
    | nil => exact hmissed
    | cons r replies =>
      obtain ⟨hhealthy, hconnect, hfails⟩ := hmissed
      have hlead : Lead m [] (unchecked healthy grpcClient) := lead_nil hhealthy
      obtain ⟨past, c, rest, htrace, hwrong⟩ := hlead.goes_wrong henabled (r :: replies) hpos.1
        (by simpa using hfails) (Or.inr ⟨rfl, r, rfl, hconnect⟩)
      exact hwrong (hlaw past c rest htrace)
  · intro hmissed past c rest htrace
    have hstart : Tracked m [] (unchecked healthy grpcClient) replies :=
      Or.inl ⟨⟨fun _ => ⟨rfl, hpos.1⟩, fun _ => ⟨rfl, hpos.2⟩⟩,
        fun _ => ⟨fun _ hc => absurd hc not_mem_nil, fun _ => ⟨rfl, hmissed⟩⟩⟩
    have := trace_law_ahead (R := Tracked m) (L := Hysteresis m)
      (fun past w r replies h => h.call henabled hpos) replies [] _ hstart past c rest htrace
    simpa using this

/-- An HTTP worker with the default thresholds. -/
def httpWorker : WorkerMetadata := ⟨"http://w:8000".toList, .http, {}⟩

/-- Three errors and two answers. -/
def downAndUp : List Reply :=
  [{}, { send := .response 503 }, {}, { send := .response 200 }, { send := .response 204 }]

theorem downAndUp_hysteresis :
    (trace (BasicWorker.checkHealthAsync httpWorker) id (unchecked true false) downAndUp).map
        (fun c => c.after.healthy) = [true, true, false, false, true] ∧
      ∀ past c rest, trace (BasicWorker.checkHealthAsync httpWorker) id (unchecked true false)
        downAndUp = past ++ c :: rest → Hysteresis httpWorker past c := by
  have hpos : Positive httpWorker := ⟨by decide, by decide⟩
  have hmissed : ¬ Missed httpWorker (unchecked true false) downAndUp :=
    fun h => absurd h.2.1 (by decide)
  exact ⟨by decide, (hysteresis_iff httpWorker rfl hpos true false downAndUp).mpr hmissed⟩

/-- A gRPC worker with the default thresholds. -/
def grpcWorker : WorkerMetadata := ⟨"grpc://w:8001".toList, .grpc, {}⟩

/-- **A gRPC worker that cannot be reached stays healthy**: three probes have failed. -/
theorem unreachable_worker_stays_healthy :
    ¬ ∀ past c rest, trace (BasicWorker.checkHealthAsync grpcWorker) id (unchecked true false)
      (List.replicate 3 { connect := .error "refused".toList }) = past ++ c :: rest →
        Hysteresis grpcWorker past c := by
  intro hlaw
  have hlead : Lead grpcWorker [] (unchecked true false) := lead_nil rfl
  obtain ⟨past, c, rest, htrace, hwrong⟩ := hlead.goes_wrong rfl
    (List.replicate 3 { connect := .error "refused".toList }) (by decide) (by decide)
    (Or.inr ⟨rfl, _, rfl, by decide⟩)
  exact hwrong (hlaw past c rest htrace)

end QwenStack.Health
