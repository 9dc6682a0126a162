import Mathlib.Data.List.Perm.Basic
import QwenStack.Discovery.Definitions

/-!
# Service discovery — a worker for each pod

The jobs of a pod are meant to alternate, an addition first, and the pod is tracked while the last one is
an addition.  Pods have different addresses, so the URL of its worker stands for the pod.

The set of tracked pods holds all that was reported of them, with the phase and the readiness.  A pod that
is no longer ready when it is about to be deleted is not found in it, and stays a worker.  All is as meant
exactly if the reports that should find a tracked pod show what is tracked (`handled_iff`).
-/

namespace QwenStack.Discovery

open List
open Registry (Url)

/-! ### The jobs of a pod -/

inductive Kind where
  | add
  | remove
  deriving DecidableEq, Repr

namespace Job

def url : Job → Url
  | addWorker config => config.url
  | removeWorker url => url

def kind : Job → Kind
  | addWorker _ => .add
  | removeWorker _ => .remove

end Job

/-- What the jobs of a URL are. -/
def kindsOf (url : Url) (jobs : List Job) : List Kind :=
  (jobs.filter fun j => decide (j.url = url)).map Job.kind

/-- An addition, a removal, an addition, and so on. -/
def Alternates (l : List Kind) : Prop :=
  ∀ i k, l[i]? = some k → k = if i % 2 = 0 then .add else .remove

theorem alternates_nil : Alternates [] := nofun

theorem alternates_append {l : List Kind} {k : Kind} :
    Alternates (l ++ [k]) ↔ Alternates l ∧ k = if l.length % 2 = 0 then .add else .remove := by
  constructor
  · intro h
    refine ⟨fun i k' hk' => h i k' ?_, h l.length k List.getElem?_concat_length⟩
    rw [List.getElem?_append_left (List.getElem?_eq_some_iff.mp hk').1, hk']
  · rintro ⟨h, hk⟩ i k' hk'
    rw [List.getElem?_append] at hk'
    split at hk'
    · exact h i k' hk'
    · obtain ⟨hi, rfl⟩ := List.getElem?_eq_some_iff.mp hk'
      have hlen : i = l.length := by
        rw [length_singleton] at hi
        omega
      subst hlen
      simpa using hk

/-- The last one is an addition when there is an odd number of them. -/
theorem Alternates.getLast?_eq_add_iff {l : List Kind} (h : Alternates l) :
    l.getLast? = some .add ↔ l.length % 2 = 1 := by
  cases l using List.reverseRecOn with
  | nil => simp
  | append_singleton l k =>
    obtain ⟨-, rfl⟩ := alternates_append.mp h
    rw [List.getLast?_concat, length_append, length_singleton]
    split
    · next heven => exact iff_of_true rfl (by omega)
    · next hodd => exact iff_of_false nofun (by omega)

theorem alternates_append_add {l : List Kind} (h : Alternates l) :
    Alternates (l ++ [.add]) ↔ l.getLast? ≠ some .add := by
  rw [alternates_append, ne_eq, h.getLast?_eq_add_iff]
  constructor
  · rintro ⟨-, hk⟩ hodd
    rw [if_neg (by omega)] at hk
    cases hk
  · intro hodd
    exact ⟨h, (if_pos (by omega)).symm⟩

theorem alternates_append_remove {l : List Kind} (h : Alternates l) :
    Alternates (l ++ [.remove]) ↔ l.getLast? = some .add := by
  rw [alternates_append, h.getLast?_eq_add_iff]
  constructor
  · rintro ⟨-, hk⟩
    split at hk
    · cases hk
    · omega
  · intro hodd
    exact ⟨h, (if_neg (by omega)).symm⟩

theorem kindsOf_append_of_eq {url : Url} {j : Job} (h : j.url = url) (jobs : List Job) :
    kindsOf url (jobs ++ [j]) = kindsOf url jobs ++ [j.kind] := by
  have hone : [j].filter (fun j => decide (j.url = url)) = [j] :=
    filter_cons_of_pos (p := fun j : Job => decide (j.url = url)) (decide_eq_true h)
  rw [kindsOf, filter_append, hone, map_append]
  rfl

theorem kindsOf_append_of_ne {url : Url} {j : Job} (h : j.url ≠ url) (jobs : List Job) :
    kindsOf url (jobs ++ [j]) = kindsOf url jobs := by
  rw [kindsOf, filter_append, filter_cons_of_neg (by simpa using h), filter_nil, append_nil, kindsOf]

/-! ### What is tracked -/

/-- How many entries a pod has. -/
def entries (env : Env) (pods : List PodInfo) (url : Url) : Nat :=
  pods.countP fun p => env.workerUrl p = url

/-- The pod has an entry. -/
def IsTracked (env : Env) (pods : List PodInfo) (url : Url) : Prop :=
  ∃ p ∈ pods, env.workerUrl p = url

/-- The last job of the pod is an addition. -/
def Added (jobs : List Job) (url : Url) : Prop := (kindsOf url jobs).getLast? = some .add

instance (env : Env) (pods : List PodInfo) (url : Url) : Decidable (IsTracked env pods url) :=
  inferInstanceAs (Decidable (∃ p ∈ _, _))

instance (jobs : List Job) (url : Url) : Decidable (Added jobs url) :=
  inferInstanceAs (Decidable (_ = _))

/-- The jobs of each pod alternate, and those that were added last have one entry each. -/
structure Tracks (env : Env) (s : State) : Prop where
  alternates : ∀ url, Alternates (kindsOf url s.jobs)
  entries : ∀ url, entries env s.trackedPods url = if Added s.jobs url then 1 else 0

/-- What the handling of a report is meant to do. -/
structure Handled (env : Env) (s : State) (r : Report) (s' : State) : Prop where
  tracks : Tracks env s'
  removal : ∀ p, PodInfo.fromPod r.pod (some env.config) = some p → r.pod.isDeleted = true →
    Added s.jobs (env.workerUrl p) → s'.jobs = s.jobs ++ [.removeWorker (env.workerUrl p)]

/-- A report that should find its pod among those that are tracked does, if there is one with its URL. -/
def Finds (env : Env) (s : State) (r : Report) : Prop :=
  ∀ p, PodInfo.fromPod r.pod (some env.config) = some p →
    IsTracked env s.trackedPods (env.workerUrl p) →
      if r.pod.isDeleted = true then shouldInclude r.pod env.config = true ∧ p ∈ s.trackedPods
      else shouldInclude r.pod env.config = true → p.isHealthy = true → p ∈ s.trackedPods

instance (env : Env) (s : State) (r : Report) : Decidable (Finds env s r) :=
  inferInstanceAs (Decidable (∀ p ∈ PodInfo.fromPod r.pod (some env.config), _ → ite _ _ _))

theorem tracks_init (env : Env) : Tracks env {} := ⟨fun _ => alternates_nil, fun _ => rfl⟩

section
variable {env : Env} {s : State} {p : PodInfo}

theorem entries_cons (pods : List PodInfo) (url : Url) :
    entries env (p :: pods) url = entries env pods url + if env.workerUrl p = url then 1 else 0 := by
  simp only [entries, countP_cons, decide_eq_true_eq]

theorem added_append_of_eq {jobs : List Job} {url : Url} {j : Job} (h : j.url = url) :
    Added (jobs ++ [j]) url ↔ j.kind = .add := by
  rw [Added, kindsOf_append_of_eq h, List.getLast?_concat, Option.some_inj]

theorem added_append_of_ne {jobs : List Job} {url : Url} {j : Job} (h : j.url ≠ url) :
    Added (jobs ++ [j]) url ↔ Added jobs url := by
  rw [Added, kindsOf_append_of_ne h, Added]

theorem Tracks.isTracked_iff (h : Tracks env s) {url : Url} :
    IsTracked env s.trackedPods url ↔ Added s.jobs url := by
  have hpos : IsTracked env s.trackedPods url ↔ 0 < Discovery.entries env s.trackedPods url := by
    simp only [IsTracked, Discovery.entries, countP_pos_iff, decide_eq_true_eq]
  rw [hpos, h.entries url]
  split
  · next hadded => exact iff_of_true Nat.one_pos hadded
  · next hadded => exact iff_of_false (Nat.lt_irrefl 0) hadded

/-- An addition is good when the pod has no entry. -/
theorem tracks_add_iff (h : Tracks env s) :
    Tracks env ⟨p :: s.trackedPods, s.jobs ++ [.addWorker (env.workerConfig p)]⟩ ↔
      ¬ IsTracked env s.trackedPods (env.workerUrl p) := by
  have hjob : (Job.addWorker (env.workerConfig p)).url = env.workerUrl p := rfl
  rw [h.isTracked_iff]
  constructor
  · intro hafter
    have halt := hafter.alternates (env.workerUrl p)
    rw [kindsOf_append_of_eq hjob] at halt
    exact (alternates_append_add (h.alternates _)).mp halt
  · intro hnot
    refine ⟨fun url => ?_, fun url => ?_⟩
    · by_cases hurl : env.workerUrl p = url
      · subst hurl
        rw [kindsOf_append_of_eq hjob]
        exact (alternates_append_add (h.alternates _)).mpr hnot
      · rw [kindsOf_append_of_ne (hjob ▸ hurl)]
        exact h.alternates url
    · rw [entries_cons, h.entries url]
      by_cases hurl : env.workerUrl p = url
      · subst hurl
        rw [if_neg hnot, if_pos rfl, if_pos ((added_append_of_eq hjob).mpr rfl)]
      · rw [if_neg hurl, Nat.add_zero, if_congr (added_append_of_ne (hjob ▸ hurl)) rfl rfl]

/-- A removal of a pod by its entry is good. -/
theorem tracks_remove (h : Tracks env s) (hp : p ∈ s.trackedPods) :
    Tracks env ⟨s.trackedPods.erase p, s.jobs ++ [.removeWorker (env.workerUrl p)]⟩ := by
  have hjob : (Job.removeWorker (env.workerUrl p)).url = env.workerUrl p := rfl
  have hadded : Added s.jobs (env.workerUrl p) := h.isTracked_iff.mp ⟨p, hp, rfl⟩
  refine ⟨fun url => ?_, fun url => ?_⟩
  · by_cases hurl : env.workerUrl p = url
    · subst hurl
      rw [kindsOf_append_of_eq hjob]
      exact (alternates_append_remove (h.alternates _)).mpr hadded
    · rw [kindsOf_append_of_ne (hjob ▸ hurl)]
      exact h.alternates url
  · have hold : entries env (p :: s.trackedPods.erase p) url = if Added s.jobs url then 1 else 0 :=
      (perm_cons_erase hp).symm.countP_eq _ |>.trans (h.entries url)
    rw [entries_cons] at hold
    by_cases hurl : env.workerUrl p = url
    · subst hurl
      rw [if_pos rfl, if_pos hadded] at hold
      rw [if_neg fun hafter => nomatch (added_append_of_eq hjob).mp hafter]
      exact Nat.succ.inj hold
    · rw [if_neg hurl, Nat.add_zero] at hold
      rw [if_congr (added_append_of_ne (hjob ▸ hurl)) rfl rfl]
      exact hold

/-- A report that changes nothing. -/
theorem handled_self_iff (h : Tracks env s) {r : Report} :
    Handled env s r s ↔ ∀ p, PodInfo.fromPod r.pod (some env.config) = some p →
      r.pod.isDeleted = true → ¬ IsTracked env s.trackedPods (env.workerUrl p) := by
  constructor
  · intro hhandled p hp hdeleted htracked
    have hjobs := hhandled.removal p hp hdeleted (h.isTracked_iff.mp htracked)
    have hlen := congrArg List.length hjobs
    rw [length_append, length_singleton] at hlen
    omega
  · intro hnot
    exact ⟨h, fun p hp hdeleted hadded =>
      absurd (h.isTracked_iff.mpr hadded) (hnot p hp hdeleted)⟩

/-- A report of a known pod finds it. -/
theorem finds_iff {r : Report} (hp : PodInfo.fromPod r.pod (some env.config) = some p) :
    Finds env s r ↔ (IsTracked env s.trackedPods (env.workerUrl p) →
      if r.pod.isDeleted = true then shouldInclude r.pod env.config = true ∧ p ∈ s.trackedPods
      else shouldInclude r.pod env.config = true → p.isHealthy = true → p ∈ s.trackedPods) := by
  constructor
  · exact fun h => h p hp
  · intro h p' hp'
    cases hp.symm.trans hp'
    exact h

variable (h : Tracks env s) {r : Report} (hqueue : r.queue = .accepts)
include h hqueue

theorem handle_deletion_iff
    (hp : PodInfo.fromPod r.pod (some env.config) = some p) (hdeleted : r.pod.isDeleted = true) :
    Handled env s r (handlePodDeletion env r.queue p s) ↔
      (IsTracked env s.trackedPods (env.workerUrl p) → p ∈ s.trackedPods) := by
  rw [handlePodDeletion, hqueue]
  by_cases hmem : p ∈ s.trackedPods
  · rw [if_pos hmem]
    refine iff_of_true ⟨tracks_remove h hmem, fun p' hp' _ _ => ?_⟩ fun _ => hmem
    cases hp.symm.trans hp'
    rfl
  · rw [if_neg hmem, handled_self_iff h]
    constructor
    · exact fun hnot htracked => absurd htracked (hnot p hp hdeleted)
    · intro hfinds p' hp' _ htracked
      cases hp.symm.trans hp'
      exact hmem (hfinds htracked)

theorem handle_event_iff (hdeleted : r.pod.isDeleted = false) :
    Handled env s r (handlePodEvent env r.queue p s) ↔
      (IsTracked env s.trackedPods (env.workerUrl p) → p.isHealthy = true → p ∈ s.trackedPods) := by
  have hno : ¬ r.pod.isDeleted = true := by
    rw [hdeleted]
    exact Bool.false_ne_true
  have hself : Handled env s r s := (handled_self_iff h).mpr fun _ _ hdel => absurd hdel hno
  rw [handlePodEvent, hqueue]
  by_cases hhealthy : p.isHealthy = true
  · by_cases hmem : p ∈ s.trackedPods
    · rw [if_pos hhealthy, if_pos hmem]
      exact iff_of_true hself fun _ _ => hmem
    · rw [if_pos hhealthy, if_neg hmem]
      constructor
      · exact fun hhandled htracked => absurd htracked ((tracks_add_iff h).mp hhandled.tracks)
      · intro hfinds
        exact ⟨(tracks_add_iff h).mpr fun htracked => hmem (hfinds htracked hhealthy),
          fun _ _ hdel => absurd hdel hno⟩
  · rw [if_neg hhealthy]
    exact iff_of_true hself fun _ hh => absurd hh hhealthy

/-- **One report**: it is handled as meant exactly if it finds its pod. -/
theorem handle_iff : Handled env s r (handle env s r) ↔ Finds env s r := by
  rw [handle]
  cases hp : PodInfo.fromPod r.pod (some env.config) with
  | none =>
    have hself : Handled env s r s := (handled_self_iff h).mpr fun p hp' _ => by
      rw [hp] at hp'
      cases hp'
    rw [ite_self]
    refine iff_of_true hself fun p hp' => ?_
    rw [hp] at hp'
    cases hp'
  | some p =>
    rw [finds_iff hp]
    by_cases hinc : shouldInclude r.pod env.config = true
    · rw [if_pos hinc]
      by_cases hdeleted : r.pod.isDeleted = true
      · simp only [if_pos hdeleted, hinc, true_and]
        exact handle_deletion_iff h hqueue hp hdeleted
      · simp only [if_neg hdeleted, hinc, true_implies]
        exact handle_event_iff h hqueue (Bool.eq_false_iff.mpr hdeleted)
    · rw [if_neg hinc, handled_self_iff h]
      constructor
      · intro hnot htracked
        by_cases hdeleted : r.pod.isDeleted = true
        · exact absurd htracked (hnot p hp hdeleted)
        · rw [if_neg hdeleted]
          exact fun hinc' => absurd hinc' hinc
      · intro hfinds p' hp' hdeleted htracked
        cases hp.symm.trans hp'
        have := hfinds htracked
        rw [if_pos hdeleted] at this
        exact hinc this.1

end

/-! ### Runs -/

/-- **Every report of a run is handled as meant exactly if every report finds its pod.** -/
theorem handled_iff (env : Env) {reports : List Report} (hqueue : ∀ r ∈ reports, r.queue = .accepts) :
    (∀ k r, reports[k]? = some r →
      Handled env (run env (reports.take k)) r (run env (reports.take (k + 1)))) ↔
    ∀ k r, reports[k]? = some r → Finds env (run env (reports.take k)) r :=
  Runs.fold_iff Handled.tracks (fun hr h => handle_iff h (hqueue _ hr)) (tracks_init env)

/-- A router that looks for pods with a label. -/
def plainEnv : Env where
  config := { selector := [("app".toList, "worker".toList)] }
  routerConfig := ⟨none, ⟨3, 2, 5, 60, false⟩, false⟩

/-- A report of a pod with that label. -/
def report (phase ready : Str) (isDeleted : Bool) : Report where
  pod := ⟨some "pod".toList, some [("app".toList, "worker".toList)], none, isDeleted,
    some ⟨some "10.0.0.1".toList, some phase, some [⟨"Ready".toList, ready⟩]⟩⟩

def readyDeleted : List Report :=
  [report "Pending".toList "False".toList false, report "Running".toList "True".toList false,
    report "Running".toList "True".toList true]

/-- The pod is ready when it is about to be deleted. -/
theorem readyDeleted_handled : readyDeleted.length = 3 ∧ ∀ k r, readyDeleted[k]? = some r →
    Handled plainEnv (run plainEnv (readyDeleted.take k)) r
      (run plainEnv (readyDeleted.take (k + 1))) := by
  refine ⟨rfl, (handled_iff plainEnv (by decide)).mpr fun k r hr => ?_⟩
  have hall : ∀ k : Fin readyDeleted.length,
      Finds plainEnv (run plainEnv (readyDeleted.take k)) (readyDeleted.get k) := by decide +kernel
  obtain ⟨hk, rfl⟩ := List.getElem?_eq_some_iff.mp hr
  exact hall ⟨k, hk⟩

def unreadyDeleted : List Report :=
  [report "Running".toList "True".toList false, report "Running".toList "False".toList true]

/-- The pod is not, and its worker stays. -/
theorem unready_pod_stays : ¬ ∀ k r, unreadyDeleted[k]? = some r →
    Handled plainEnv (run plainEnv (unreadyDeleted.take k)) r
      (run plainEnv (unreadyDeleted.take (k + 1))) := by
  intro h
  have hjobs := (h 1 _ rfl).removal
    ⟨"pod".toList, "10.0.0.1".toList, "Running".toList, false, some .regular, none, false, none⟩
    (by decide) rfl (by decide)
  exact absurd hjobs (by decide)

end QwenStack.Discovery
