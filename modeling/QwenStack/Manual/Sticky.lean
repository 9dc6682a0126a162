import Mathlib.Data.List.Induction
import Mathlib.Order.Fin.Basic
import QwenStack.Manual.Definitions

/-!
# Manual — sessions stay where they are

`selectWorkerImpl_spec` says what one call does: it never panics, returns only healthy workers,
returns the first available candidate of its key when there is one, and appends to the key's
candidates otherwise.  `serveAll_sticky` puts it over runs: traffic for other keys leaves a key's
candidates alone, so the key keeps its worker while workers come and go, unless one that comes is
a candidate ahead of the current one.  That exception is the fail-back to the original worker; the
last theorem shows it.
-/

namespace QwenStack.Manual
open Assoc List

/-- A worker with this URL is listed and can be given requests. -/
def availableUrl (workers : List Worker) (url : Url) : Bool :=
  workers.any fun w => decide (w.url = url) && w.available

/-- The first candidate that can be given requests. -/
def firstAvailable (urls : List Url) (workers : List Worker) : Option Url :=
  urls.find? (availableUrl workers)

/-- The candidates of a key; none when it has no entry. -/
def candidates (m : RoutingMap) (k : Str) : List Url :=
  ((m.lookup k).map Node.candiWorkerUrls).getD []

section
variable {workers : List Worker} {idx : Fin workers.length} {url : Url} {k : Str} {m : RoutingMap}

theorem availableUrl_iff : availableUrl workers url = true ↔
    ∃ w ∈ workers, w.url = url ∧ w.available = true := by
  simp [availableUrl, any_eq_true]

theorem mem_getHealthyWorkerIndices :
    idx ∈ getHealthyWorkerIndices workers ↔ (workers.get idx).available = true := by
  simp [getHealthyWorkerIndices]

/-! ### The lookup of a candidate -/

section
variable (hd : (workers.map Worker.url).Nodup)
include hd

theorem findWorkerIndexByUrl_eq_some :
    findWorkerIndexByUrl workers url = some idx ↔ (workers.get idx).url = url := by
  have inj : ∀ i j : Fin workers.length, (workers.get i).url = (workers.get j).url → i = j := by
    intro i j h
    have := (List.nodup_iff_injective_get.mp hd).eq_iff (a := ⟨i, by simp⟩) (b := ⟨j, by simp⟩)
    have := this.mp (by simpa using h)
    exact Fin.ext (by simpa using this)
  rw [findWorkerIndexByUrl]
  constructor
  · intro h
    simpa using List.find?_some h
  · intro h
    cases hf : (List.finRange workers.length).find? fun i => decide ((workers.get i).url = url) with
    | none =>
      have := List.find?_eq_none.mp hf idx (mem_finRange idx)
      simp only [decide_eq_true_eq] at this
      exact absurd h this
    | some i =>
      have hi : (workers.get i).url = url := by simpa using List.find?_some hf
      rw [inj i idx (hi.trans h.symm)]

/-- The lookup of one candidate. -/
theorem find_available : (findWorkerIndexByUrl workers url).filter
        (fun idx => decide (idx ∈ getHealthyWorkerIndices workers)) = some idx ↔
      (workers.get idx).url = url ∧ (workers.get idx).available = true := by
  rw [Option.filter_eq_some_iff, findWorkerIndexByUrl_eq_some hd, decide_eq_true_eq,
    mem_getHealthyWorkerIndices]

theorem find_unavailable : (findWorkerIndexByUrl workers url).filter
        (fun idx => decide (idx ∈ getHealthyWorkerIndices workers)) = none ↔
      availableUrl workers url = false := by
  rw [Option.eq_none_iff_forall_ne_some]
  simp only [ne_eq, find_available hd]
  rw [← Bool.not_eq_true, availableUrl_iff]
  constructor
  · rintro h ⟨w, hw, hu, ha⟩
    obtain ⟨i, rfl⟩ := get_of_mem hw
    exact h i ⟨hu, ha⟩
  · rintro h i ⟨hu, ha⟩
    exact h ⟨_, get_mem workers i, hu, ha⟩

/-- **`find_healthy_worker` finds the first available candidate.** -/
theorem findHealthyWorker_spec (urls : List Url) : match firstAvailable urls workers with
    | none => findHealthyWorker urls workers (getHealthyWorkerIndices workers) = none
    | some u => ∃ idx, (workers.get idx).url = u ∧ (workers.get idx).available = true ∧
        findHealthyWorker urls workers (getHealthyWorkerIndices workers) = some idx := by
  induction urls with
  | nil => rfl
  | cons url urls ih =>
    rw [firstAvailable, List.find?_cons]
    cases ha : availableUrl workers url with
    | false =>
      simp only [findHealthyWorker, List.findSome?_cons, (find_unavailable hd).mpr ha]
      exact ih
    | true =>
      obtain ⟨w, hw, hu, hwa⟩ := availableUrl_iff.mp ha
      obtain ⟨i, rfl⟩ := get_of_mem hw
      refine ⟨i, hu, hwa, ?_⟩
      simp only [findHealthyWorker, List.findSome?_cons, (find_available hd).mpr ⟨hu, hwa⟩]

end

/-! ### The choice of a new worker -/

theorem randomSelect_mem {K : Type} (rng : Rng) {indices : List K} (hne : indices ≠ []) :
    ∃ i ∈ indices, randomSelect rng indices = some i := by
  have hlt := rng.index_lt _ (List.length_pos_iff.mpr hne)
  exact ⟨_, getElem_mem hlt, List.getElem?_eq_getElem hlt⟩

/-- The candidates of the loop are indices, and there is one as soon as there is an index. -/
theorem minCandidates_spec {K V : Type} [LinearOrder V] (getValue : K → V) (indices : List K) :
    (∀ i ∈ (minCandidates getValue indices).2, i ∈ indices) ∧
      (indices ≠ [] → (minCandidates getValue indices).2 ≠ []) ∧
      ((minCandidates getValue indices).1 = none → indices = []) := by
  induction indices using List.reverseRecOn with
  | nil => exact ⟨by simp [minCandidates], fun h => absurd rfl h, fun _ => rfl⟩
  | append_singleton l a ih =>
    obtain ⟨hmem, hne, hnone⟩ := ih
    simp only [minCandidates, foldl_append, foldl_cons, foldl_nil] at *
    split
    · exact ⟨by simp, by simp, by simp⟩
    · next v hv =>
      have hl : l ≠ [] := by
        rintro rfl
        simp at hv
      split
      · exact ⟨by simp, by simp, by simp⟩
      · split
        · refine ⟨fun i hi => ?_, by simp, by simp⟩
          rcases List.mem_append.mp hi with hi | hi
          · exact mem_append_left _ (hmem i hi)
          · exact mem_append_right _ hi
        · exact ⟨fun i hi => mem_append_left _ (hmem i hi), fun _ => hne hl, by simp⟩

theorem selectMinBy_mem {K V : Type} [LinearOrder V] (rng : Rng) {indices : List K}
    (getValue : K → V) (hne : indices ≠ []) :
    ∃ i ∈ indices, selectMinBy rng indices getValue = some i := by
  obtain ⟨hmem, hc, -⟩ := minCandidates_spec getValue indices
  rw [selectMinBy]
  split
  · obtain ⟨i, l, hi⟩ := exists_cons_of_ne_nil (hc hne)
    exact ⟨i, hmem i (by rw [hi]; exact mem_cons_self), by rw [hi]; rfl⟩
  · obtain ⟨i, hi, h⟩ := randomSelect_mem rng (hc hne)
    exact ⟨i, hmem i hi, h⟩

theorem selectNewWorker_mem (mode : ManualAssignmentMode) (rng : Rng)
    (hne : getHealthyWorkerIndices workers ≠ []) :
    ∃ i, (workers.get i).available = true ∧
      selectNewWorker mode rng workers (getHealthyWorkerIndices workers) = some i := by
  have : ∃ i ∈ getHealthyWorkerIndices workers,
      selectNewWorker mode rng workers (getHealthyWorkerIndices workers) = some i := by
    cases mode with
    | random => exact randomSelect_mem rng hne
    | minLoad => exact selectMinBy_mem rng _ hne
    | minGroup => exact selectMinBy_mem rng _ hne
  obtain ⟨i, hi, h⟩ := this
  exact ⟨i, mem_getHealthyWorkerIndices.mp hi, h⟩

/-! ### One call -/

/-- What a call with the key `key` does to the map `m`. -/
structure Routed (m : RoutingMap) (workers : List Worker) (key : Option Str)
    (sel : Selection workers.length) : Prop where
  healthy : ∀ i, sel.index = some i → i ∈ getHealthyWorkerIndices workers
  answered : (∃ w ∈ workers, w.available = true) → ∃ i, sel.index = some i
  hit : ∀ k, key = some k → ∀ u, firstAvailable (candidates m k) workers = some u →
    (∃ i, sel.index = some i ∧ (workers.get i).url = u) ∧
      candidates sel.routingMap k = candidates m k
  miss : ∀ k, key = some k → firstAvailable (candidates m k) workers = none →
    ∀ i, sel.index = some i →
      candidates sel.routingMap k = pushBounded (workers.get i).url (candidates m k)
  frame : ∀ k, key ≠ some k → sel.routingMap.lookup k = m.lookup k

theorem candidates_put (k : Str) (node : Node) (m : RoutingMap) :
    candidates (put k node m) k = node.candiWorkerUrls := by
  simp [candidates, lookup_put]

theorem getHealthyWorkerIndices_ne_nil :
    getHealthyWorkerIndices workers ≠ [] ↔ ∃ w ∈ workers, w.available = true := by
  constructor
  · intro h
    obtain ⟨i, hi⟩ := exists_mem_of_ne_nil _ h
    exact ⟨_, get_mem workers i, mem_getHealthyWorkerIndices.mp hi⟩
  · rintro ⟨w, hw, ha⟩ h0
    obtain ⟨i, rfl⟩ := get_of_mem hw
    have := mem_getHealthyWorkerIndices.mpr ha
    simp [h0] at this

/-- A first available candidate is available. -/
theorem firstAvailable_some {urls : List Url} {u : Url}
    (h : firstAvailable urls workers = some u) : ∃ w ∈ workers, w.available = true := by
  obtain ⟨w, hw, -, ha⟩ := availableUrl_iff.mp (List.find?_some h)
  exact ⟨w, hw, ha⟩

/-- The branch that looks for a new worker: it pushes the worker's URL. -/
theorem Routed.pushed {i : Fin workers.length}
    (ha : (workers.get i).available = true) {branch : ExecutionBranch} {urls : List Url} {now : Nat}
    (hno : firstAvailable (candidates m k) workers = none)
    (hu : urls = pushBounded (workers.get i).url (candidates m k)) :
    Routed m workers (some k) ⟨some i, branch, put k ⟨urls, now⟩ m⟩ where
  healthy := by
    rintro j hj
    cases hj
    exact mem_getHealthyWorkerIndices.mpr ha
  answered := fun _ => ⟨i, rfl⟩
  hit := by
    rintro k' hk u hu'
    cases hk
    rw [hno] at hu'
    cases hu'
  miss := by
    rintro k' hk - j hj
    cases hk
    cases hj
    rw [candidates_put, hu]
  frame := by
    intro k' hk
    rw [lookup_put, if_neg]
    rintro rfl
    exact hk rfl

theorem selectByRoutingId_spec (mode : ManualAssignmentMode)
    (hd : (workers.map Worker.url).Nodup) (hne : getHealthyWorkerIndices workers ≠ [])
    (info : SelectWorkerInfo) :
    ∃ sel, selectByRoutingId mode m workers k (getHealthyWorkerIndices workers) info = some sel ∧
      Routed m workers (some k) sel := by
  obtain ⟨i, ha, hsel⟩ := selectNewWorker_mem mode info.rng hne
  cases hm : m.lookup k with
  | none =>
    have hcand : candidates m k = [] := by simp [candidates, hm]
    have hrun : selectByRoutingId mode m workers k (getHealthyWorkerIndices workers) info =
        some ⟨some i, .vacant, put k ⟨[(workers.get i).url], info.now⟩ m⟩ := by
      simp only [selectByRoutingId, hm, hsel, Option.bind_eq_bind, Option.bind_some]
    exact ⟨_, hrun, .pushed ha (by rw [hcand]; rfl) (by rw [hcand]; rfl)⟩
  | some node =>
    have hcand : candidates m k = node.candiWorkerUrls := by simp [candidates, hm]
    have hspec := findHealthyWorker_spec hd node.candiWorkerUrls
    cases hf : firstAvailable node.candiWorkerUrls workers with
    | none =>
      simp only [hf] at hspec
      have hrun : selectByRoutingId mode m workers k (getHealthyWorkerIndices workers) info =
          some ⟨some i, .occupiedMiss, put k
            ⟨pushBounded (workers.get i).url node.candiWorkerUrls, info.now⟩ m⟩ := by
        simp only [selectByRoutingId, hm, hspec, hsel, Option.bind_eq_bind, Option.bind_some]
      exact ⟨_, hrun, .pushed ha (hcand ▸ hf) (by rw [hcand])⟩
    | some u =>
      simp only [hf] at hspec
      obtain ⟨j, hu, hja, hfind⟩ := hspec
      have hrun : selectByRoutingId mode m workers k (getHealthyWorkerIndices workers) info =
          some ⟨some j, .occupiedHit, put k ⟨node.candiWorkerUrls, info.now⟩ m⟩ := by
        simp only [selectByRoutingId, hm, hfind]
      refine ⟨_, hrun, ?_⟩
      refine ⟨?_, fun _ => ⟨j, rfl⟩, ?_, ?_, ?_⟩
      · rintro j' hj
        cases hj
        exact mem_getHealthyWorkerIndices.mpr hja
      · rintro k' hk u' hu'
        cases hk
        rw [hcand, hf] at hu'
        cases hu'
        exact ⟨⟨j, rfl, hu⟩, by rw [candidates_put, hcand]⟩
      · rintro k' hk hno
        cases hk
        rw [hcand, hf] at hno
        cases hno
      · intro k' hk
        rw [lookup_put, if_neg]
        rintro rfl
        exact hk rfl

/-- **One call.** -/
theorem selectWorkerImpl_spec (xxh3 : List UInt8 → UInt64) (mode : ManualAssignmentMode)
    (m : RoutingMap) (hd : (workers.map Worker.url).Nodup) (info : SelectWorkerInfo) :
    ∃ sel, selectWorkerImpl xxh3 mode m workers info = some sel ∧
      Routed m workers (resolveRoutingKey xxh3 info.headers info.requestText) sel := by
  by_cases hne : getHealthyWorkerIndices workers = []
  · have hno : ¬ ∃ w ∈ workers, w.available = true := fun h =>
      getHealthyWorkerIndices_ne_nil.mpr h hne
    refine ⟨⟨none, .noHealthyWorkers, m⟩, by simp [selectWorkerImpl, hne],
      ⟨fun _ h => (nomatch h), fun h => absurd h hno, ?_, fun _ _ _ _ h => (nomatch h), fun _ _ => rfl⟩⟩
    intro k _ u hu
    exact absurd (firstAvailable_some hu) hno
  · have hempty : (getHealthyWorkerIndices workers).isEmpty = false := by simpa using hne
    simp only [selectWorkerImpl, hempty, Bool.false_eq_true, if_false]
    cases resolveRoutingKey xxh3 info.headers info.requestText with
    | some k => exact selectByRoutingId_spec mode hd hne info
    | none =>
      obtain ⟨i, hi, h⟩ := selectMinBy_mem info.rng (fun idx => (workers.get idx).load) hne
      refine ⟨⟨some i, .noRoutingId, m⟩,
        by simp only [minLoadSelect, h, Option.bind_eq_bind, Option.bind_some],
        ⟨?_, fun _ => ⟨i, rfl⟩, fun _ h => (nomatch h), fun _ h => (nomatch h), fun _ _ => rfl⟩⟩
      rintro j hj
      cases hj
      exact hi

/-! ### Runs -/

/-- `fleet'` is `fleet` with workers added: those of `fleet` are still there and as available. -/
def Added (fleet fleet' : Fleet) : Prop :=
  ∀ w ∈ fleet.workers, ∃ w' ∈ fleet'.workers, w'.url = w.url ∧ w'.available = w.available

/-- No added worker is a candidate ahead of `u`. -/
def NoneAhead (urls : List Url) (u : Url) (fleet fleet' : Fleet) : Prop :=
  ∀ w' ∈ fleet'.workers, w'.url ∈ urls.takeWhile (· ≠ u) → w'.url ∈ fleet.workers.map Worker.url

/-- The first available candidate stays the same when workers are added behind it. -/
theorem firstAvailable_added {fleet fleet' : Fleet} {urls : List Url} {u : Url}
    (h : firstAvailable urls fleet.workers = some u) (hadd : Added fleet fleet')
    (hno : NoneAhead urls u fleet fleet') : firstAvailable urls fleet'.workers = some u := by
  obtain ⟨hu, before, after, rfl, hbefore⟩ := List.find?_eq_some_iff_append.mp h
  have hne : ∀ a ∈ before, decide (a ≠ u) = true := by
    intro a ha
    have := hbefore a ha
    simp only [decide_eq_true_eq]
    rintro rfl
    rw [hu] at this
    cases this
  have htake : (before ++ u :: after).takeWhile (· ≠ u) = before := by
    rw [takeWhile_append_of_pos hne, takeWhile_cons_of_neg (by simp), append_nil]
  refine List.find?_eq_some_iff_append.mpr ⟨?_, before, after, rfl, fun a ha => ?_⟩
  · obtain ⟨w, hw, hwu, hwa⟩ := availableUrl_iff.mp hu
    obtain ⟨w', hw', hu', ha'⟩ := hadd w hw
    exact availableUrl_iff.mpr ⟨w', hw', hu'.trans hwu, ha'.trans hwa⟩
  · rw [Bool.not_eq_true']
    by_contra hav
    obtain ⟨w', hw', rfl, ha'⟩ := availableUrl_iff.mp (by simpa using hav)
    -- the worker was there before, so it was available before
    obtain ⟨w, hw, hwu⟩ := List.mem_map.mp (hno w' hw' (by rw [htake]; exact ha))
    obtain ⟨w'', hw'', hu'', ha''⟩ := hadd w hw
    obtain rfl := inj_on_of_nodup_map fleet'.distinct hw'' hw' (hu''.trans hwu)
    have := hbefore _ ha
    rw [availableUrl_iff.mpr ⟨w, hw, hwu, ha''.symm.trans ha'⟩] at this
    cases this

/-- The key a request is routed by. -/
def Request.key (xxh3 : List UInt8 → UInt64) (req : Request) : Option Str :=
  resolveRoutingKey xxh3 req.info.headers req.info.requestText

/-- Requests never panic, and leave the other keys alone. -/
theorem serveAll_other (xxh3 : List UInt8 → UInt64) (mode : ManualAssignmentMode) (k : Str) :
    ∀ (reqs : List Request) (m : RoutingMap), ∃ m', serveAll xxh3 mode m reqs = some m' ∧
      ((∀ req ∈ reqs, req.key xxh3 ≠ some k) → m'.lookup k = m.lookup k)
  | [], m => ⟨m, rfl, fun _ => rfl⟩
  | req :: reqs, m => by
      obtain ⟨sel, hsel, hR⟩ := selectWorkerImpl_spec xxh3 mode m req.fleet.distinct req.info
      obtain ⟨m', hrun, hframe⟩ := serveAll_other xxh3 mode k reqs sel.routingMap
      refine ⟨m', ?_, fun h => ?_⟩
      · rw [serveAll] at hrun ⊢
        simp only [Runs.exec, serve, hsel, Option.map_some, Option.bind_some, hrun]
      · rw [hframe fun r hr => h r (mem_cons_of_mem _ hr)]
        exact hR.frame k (h req mem_cons_self)

/-- **Sessions are sticky.**  After any requests, from any routing map, a request is routed as
`Routed` says.  And where a key has an available candidate, neither requests with other keys nor
workers added behind that candidate change the URL the key is routed to. -/
theorem serveAll_sticky (xxh3 : List UInt8 → UInt64) (mode : ManualAssignmentMode)
    (m₀ : RoutingMap) (reqs : List Request) :
    ∃ m, serveAll xxh3 mode m₀ reqs = some m ∧
      (∀ req : Request, ∃ sel, selectWorkerImpl xxh3 mode m req.fleet.workers req.info = some sel ∧
        Routed m req.fleet.workers (req.key xxh3) sel) ∧
      ∀ (k : Str) (u : Url) (fleet : Fleet), firstAvailable (candidates m k) fleet.workers = some u →
        ∀ others : List Request, (∀ req ∈ others, req.key xxh3 ≠ some k) →
        ∃ m', serveAll xxh3 mode m others = some m' ∧ ∀ req : Request, req.key xxh3 = some k →
          Added fleet req.fleet → NoneAhead (candidates m k) u fleet req.fleet →
          ∃ sel i, selectWorkerImpl xxh3 mode m' req.fleet.workers req.info = some sel ∧
            sel.index = some i ∧ (req.fleet.workers.get i).url = u := by
  obtain ⟨m, hrun, -⟩ := serveAll_other xxh3 mode [] reqs m₀
  refine ⟨m, hrun, fun req => selectWorkerImpl_spec xxh3 mode m req.fleet.distinct req.info, ?_⟩
  intro k u fleet hu others hothers
  obtain ⟨m', hrun', hframe⟩ := serveAll_other xxh3 mode k others m
  refine ⟨m', hrun', fun req hk hadd hno => ?_⟩
  obtain ⟨sel, hsel, hR⟩ := selectWorkerImpl_spec xxh3 mode m' req.fleet.distinct req.info
  have hcand : candidates m' k = candidates m k := by
    rw [candidates, candidates, hframe hothers]
  obtain ⟨⟨i, hi, hiu⟩, -⟩ := hR.hit k hk u (by rw [hcand]; exact firstAvailable_added hu hadd hno)
  exact ⟨sel, i, hsel, hi, hiu⟩

/-- A healthy idle worker. -/
def idleWorker (url : Url) : Worker := ⟨url, true, true, 0, 0⟩

/-- The request of a session `k`, to a router whose random index is always the first. -/
def sessionRequest (fleet : Fleet) : Request :=
  ⟨fleet, none, some [(headerRoutingKey, [107])], ⟨fun _ => 0, fun _ h => h⟩, 0⟩

/-- A worker that is added again takes back a session that was moved to another candidate, while
that candidate is still available: `k` has moved from `a` to `b`, then `a` is added to `b`. -/
theorem readded_worker_takes_session_back :
    let fleetA : Fleet := ⟨[idleWorker ['a']], by decide⟩
    let fleetB : Fleet := ⟨[idleWorker ['b']], by decide⟩
    let fleetBA : Fleet := ⟨[idleWorker ['b'], idleWorker ['a']], by decide⟩
    ∃ m, serveAll (fun _ => 0) .random [] [sessionRequest fleetA, sessionRequest fleetB] = some m ∧
      Added fleetB fleetBA ∧
      (selectWorkerImpl (fun _ => 0) .random m fleetB.workers (sessionRequest fleetB).info).map
        (fun sel => sel.index.map fun i => (fleetB.workers.get i).url) = some (some ['b']) ∧
      (selectWorkerImpl (fun _ => 0) .random m fleetBA.workers (sessionRequest fleetBA).info).map
        (fun sel => sel.index.map fun i => (fleetBA.workers.get i).url) = some (some ['a']) := by
  refine ⟨[(['k'], ⟨[['a'], ['b']], 0⟩)], by decide, ?_, by decide, by decide⟩
  intro w hw
  exact ⟨w, List.mem_of_mem_head? (by simpa [eq_comm] using hw), rfl, rfl⟩

end

end QwenStack.Manual
