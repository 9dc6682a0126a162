import Mathlib.Algebra.Order.BigOperators.Group.List
import Mathlib.Algebra.Order.Field.Basic
import Mathlib.Tactic.Positivity
import Mathlib.Tactic.Ring
import QwenStack.PrefixHash.Definitions
import QwenStack.Registry.Ring

/-!
# Prefix hash — no worker gets more than its share

The least loaded of the healthy workers has at most the average load (`least_share`), so with a load factor of
at least one there is always a worker with no more than its share, and the exit for the case that there is
none is never taken.  `select_bounded` says what a call selects.
-/

namespace QwenStack.PrefixHash
open Assoc
open Manual (Worker)
open Registry (Url HashRing Blake3)

variable {blake3 : Blake3} {cfg : PrefixHashConfig} {workers : List Worker} {i j : Fin workers.length}

/-- The worker has no more than its share of the load. -/
def WithinShare (cfg : PrefixHashConfig) (workers : List Worker) (i : Fin workers.length) : Prop :=
  0 < totalLoad workers →
    ((workers.get i).load : ℚ) ≤ cfg.loadFactor * (totalLoad workers + 1) / (healthyWorkers workers).length

theorem mem_healthyWorkers : i ∈ healthyWorkers workers ↔ (workers.get i).isHealthy = true := by
  simp [healthyWorkers]

theorem workerOk_iff (h : healthyWorkers workers ≠ []) :
    workerOk cfg workers i = true ↔ WithinShare cfg workers i := by
  have hlen : (healthyWorkers workers).length ≠ 0 := by simpa using h
  have hshare : ((totalLoad workers + 1 : ℕ) : ℚ) / (healthyWorkers workers).length * cfg.loadFactor =
      cfg.loadFactor * (totalLoad workers + 1) / (healthyWorkers workers).length := by
    push_cast
    ring
  rw [workerOk, loadOk, WithinShare]
  by_cases hzero : totalLoad workers = 0
  · simp [hzero]
  · rw [if_neg (not_or.mpr ⟨hzero, hlen⟩), decide_eq_true_iff, hshare]
    exact ⟨fun hle _ => hle, fun hle => hle (Nat.pos_of_ne_zero hzero)⟩

/-! ### The least loaded -/

/-- A least load is at most the average. -/
theorem least_share (hfactor : 1 ≤ cfg.loadFactor) (hi : i ∈ healthyWorkers workers)
    (hleast : ∀ j ∈ healthyWorkers workers, (workers.get i).load ≤ (workers.get j).load) :
    WithinShare cfg workers i := by
  intro _
  have hlen : (0 : ℚ) < (healthyWorkers workers).length := by
    exact_mod_cast List.length_pos_of_mem hi
  have hsum : (healthyWorkers workers).length * (workers.get i).load ≤ totalLoad workers := by
    have hall := List.card_nsmul_le_sum ((healthyWorkers workers).map fun j => (workers.get j).load)
      (workers.get i).load (by simpa using hleast)
    simpa [totalLoad] using hall
  rw [le_div_iff₀ hlen]
  calc ((workers.get i).load : ℚ) * (healthyWorkers workers).length
      = ((healthyWorkers workers).length * (workers.get i).load : ℕ) := by push_cast; ring
    _ ≤ (totalLoad workers : ℚ) := by exact_mod_cast hsum
    _ ≤ totalLoad workers + 1 := le_add_of_nonneg_right zero_le_one
    _ ≤ cfg.loadFactor * (totalLoad workers + 1) :=
        le_mul_of_one_le_left (by positivity) hfactor

theorem minByLoad_spec {indices : List (Fin workers.length)} (h : minByLoad workers indices = some i) :
    i ∈ indices ∧ ∀ j ∈ indices, (workers.get i).load ≤ (workers.get j).load :=
  ⟨List.argmin_mem h, fun _ hj => List.le_of_mem_argmin (f := fun idx => (workers.get idx).load) hj h⟩

theorem exists_minByLoad {indices : List (Fin workers.length)} (h : indices ≠ []) :
    ∃ i, minByLoad workers indices = some i :=
  Option.ne_none_iff_exists'.mp fun hnone => h (List.argmin_eq_none.mp hnone)

/-- **Some worker is within its share**, so the least loaded of those is there. -/
theorem exists_leastLoaded (hfactor : 1 ≤ cfg.loadFactor) (h : healthyWorkers workers ≠ []) :
    ∃ i, leastLoaded cfg workers = some i := by
  obtain ⟨j, hj⟩ := exists_minByLoad h
  obtain ⟨hmem, hleast⟩ := minByLoad_spec hj
  refine exists_minByLoad (List.ne_nil_of_mem (List.mem_filter.mpr ⟨hmem, ?_⟩))
  exact (workerOk_iff h).mpr (least_share hfactor hmem hleast)

/-! ### The worker the ring has -/

/-- The first healthy worker clockwise from the hash; of several with its URL the last. -/
structure Nearest (blake3 : Blake3) (workers : List Worker) (hashRing : Option HashRing)
    (prefixHash : UInt64) (i : Fin workers.length) : Prop where
  healthy : (workers.get i).isHealthy = true
  url : ∃ ring, hashRing = some ring ∧ ring.nearestHealthyUrl blake3 (ringKey prefixHash)
    (fun url => decide (∃ w ∈ workers, w.url = url ∧ w.isHealthy = true)) = some (workers.get i).url
  last : ∀ j, (workers.get j).isHealthy = true → (workers.get j).url = (workers.get i).url → j ≤ i

theorem lookup_foldl_put (indices : List (Fin workers.length)) (urls : List (Url × Fin workers.length))
    (url : Url) :
    (indices.foldl (fun urls idx => put (workers.get idx).url idx urls) urls).lookup url =
      (indices.filter fun idx => decide ((workers.get idx).url = url)).getLast?.or (urls.lookup url) := by
  induction indices generalizing urls with
  | nil => rfl
  | cons idx indices ih =>
    rw [List.foldl_cons, ih, lookup_put]
    by_cases h : (workers.get idx).url = url
    · rw [if_pos h.symm, List.filter_cons_of_pos (by simpa using h), List.getLast?_cons]
      cases (indices.filter fun idx => decide ((workers.get idx).url = url)).getLast? <;> rfl
    · rw [if_neg (Ne.symm h), List.filter_cons_of_neg (by simpa using h)]

/-- The last of a list in order. -/
theorem getLast_iff {n : Nat} {l : List (Fin n)} (hl : l.Pairwise (· < ·)) {i : Fin n} :
    l.getLast? = some i ↔ i ∈ l ∧ ∀ j ∈ l, j ≤ i := by
  have hfwd : ∀ {i}, l.getLast? = some i → i ∈ l ∧ ∀ j ∈ l, j ≤ i := by
    intro i h
    obtain ⟨init, rfl⟩ := List.getLast?_eq_some_iff.mp h
    refine ⟨by simp, fun j hj => ?_⟩
    rcases List.mem_append.mp hj with hj | hj
    · exact ((List.pairwise_append.mp hl).2.2 j hj i List.mem_cons_self).le
    · exact (List.mem_singleton.mp hj).le
  refine ⟨hfwd, fun ⟨hmem, hmax⟩ => ?_⟩
  obtain ⟨k, hk⟩ := Option.isSome_iff_exists.mp (List.getLast?_isSome.mpr (List.ne_nil_of_mem hmem))
  obtain ⟨hkmem, hkmax⟩ := hfwd hk
  rw [hk, le_antisymm (hmax k hkmem) (hkmax i hmem)]

theorem lookup_healthyUrlMap {url : Url} : (healthyUrlMap workers).lookup url = some i ↔
    ((workers.get i).isHealthy = true ∧ (workers.get i).url = url) ∧
      ∀ j, (workers.get j).isHealthy = true → (workers.get j).url = url → j ≤ i := by
  have hsorted : ((healthyWorkers workers).filter fun idx =>
      decide ((workers.get idx).url = url)).Pairwise (· < ·) :=
    ((List.pairwise_lt_finRange _).filter _).filter _
  rw [healthyUrlMap, lookup_foldl_put, List.lookup_nil, Option.or_none, getLast_iff hsorted]
  simp [mem_healthyWorkers]

/-- The map has the URLs of the healthy workers. -/
theorem contains_healthyUrlMap (url : Url) : contains url (healthyUrlMap workers) =
    decide (∃ w ∈ workers, w.url = url ∧ w.isHealthy = true) := by
  rw [Bool.eq_iff_iff, contains, healthyUrlMap, lookup_foldl_put, List.lookup_nil, Option.or_none,
    List.getLast?_isSome, decide_eq_true_iff]
  constructor
  · intro hne
    obtain ⟨idx, hidx⟩ := List.exists_mem_of_ne_nil _ hne
    obtain ⟨hmem, hurl⟩ := List.mem_filter.mp hidx
    exact ⟨_, List.get_mem workers idx, of_decide_eq_true hurl, mem_healthyWorkers.mp hmem⟩
  · rintro ⟨w, hw, hurl, hhealthy⟩
    obtain ⟨idx, rfl⟩ := List.get_of_mem hw
    exact List.ne_nil_of_mem
      (List.mem_filter.mpr ⟨mem_healthyWorkers.mpr hhealthy, decide_eq_true hurl⟩)

theorem initialWorker_iff {hashRing : Option HashRing} {prefixHash : UInt64} :
    initialWorker blake3 workers hashRing prefixHash = some i ↔
      Nearest blake3 workers hashRing prefixHash i := by
  have hcontains : (fun url => contains url (healthyUrlMap workers)) = fun url =>
      decide (∃ w ∈ workers, w.url = url ∧ w.isHealthy = true) := funext contains_healthyUrlMap
  constructor
  · intro h
    obtain ⟨ring, hring, h⟩ := Option.bind_eq_some_iff.mp h
    obtain ⟨url, hurl, h⟩ := Option.bind_eq_some_iff.mp h
    obtain ⟨⟨hhealthy, rfl⟩, hlast⟩ := lookup_healthyUrlMap.mp h
    rw [hcontains, Registry.findHealthyUrl_nearest] at hurl
    exact ⟨hhealthy, ⟨ring, hring, hurl⟩, hlast⟩
  · rintro ⟨hhealthy, ⟨ring, hring, hurl⟩, hlast⟩
    rw [← Registry.findHealthyUrl_nearest, ← hcontains] at hurl
    rw [initialWorker, hring, Option.bind_eq_bind, Option.bind_some, hurl, Option.bind_eq_bind,
      Option.bind_some]
    exact lookup_healthyUrlMap.mpr ⟨⟨hhealthy, rfl⟩, hlast⟩

/-! ### What a call selects -/

theorem healthyWorkers_ne_nil (h : ∃ w ∈ workers, w.isHealthy = true) : healthyWorkers workers ≠ [] := by
  obtain ⟨w, hw, hhealthy⟩ := h
  obtain ⟨k, rfl⟩ := List.get_of_mem hw
  exact List.ne_nil_of_mem (mem_healthyWorkers.mpr hhealthy)

/-- What the ring has is selected, or the least loaded. -/
theorem find_bounded {hashRing : Option HashRing} (hfactor : 1 ≤ cfg.loadFactor)
    (hne : healthyWorkers workers ≠ []) (prefixHash : UInt64) :
    ∃ i branch, findWorkerWithLoadBalance blake3 cfg workers hashRing prefixHash = (some i, branch) ∧
      (workers.get i).isHealthy = true ∧ WithinShare cfg workers i ∧
      ∀ j, Nearest blake3 workers hashRing prefixHash j → WithinShare cfg workers j → i = j := by
  rw [findWorkerWithLoadBalance, if_neg hne]
  cases hinitial : initialWorker blake3 workers hashRing prefixHash with
  | none =>
    obtain ⟨i, hi⟩ := exists_minByLoad hne
    obtain ⟨hmem, hmin⟩ := minByLoad_spec hi
    refine ⟨i, _, by rw [hi], mem_healthyWorkers.mp hmem, least_share hfactor hmem hmin, fun j hj _ => ?_⟩
    cases hinitial.symm.trans (initialWorker_iff.mpr hj)
  | some initial =>
    have hnearest := initialWorker_iff.mp hinitial
    by_cases hok : workerOk cfg workers initial = true
    · refine ⟨initial, _, if_pos hok, hnearest.healthy, (workerOk_iff hne).mp hok, fun j hj _ => ?_⟩
      exact Option.some.inj (hinitial.symm.trans (initialWorker_iff.mpr hj))
    · obtain ⟨least, hleast⟩ := exists_leastLoaded hfactor hne
      obtain ⟨hmem, hleastok⟩ := List.mem_filter.mp (minByLoad_spec hleast).1
      refine ⟨least, .loadBalanceWalk, ?_, mem_healthyWorkers.mp hmem, (workerOk_iff hne).mp hleastok,
        fun j hj hshare => ?_⟩
      · simp only [if_neg hok, hleast]
      · cases hinitial.symm.trans (initialWorker_iff.mpr hj)
        exact absurd ((workerOk_iff hne).mpr hshare) hok

/-- **No worker gets more than its share.**  Where a worker is healthy, some worker is within its share, so
the exit for none is not taken; and for every hash a healthy worker is selected that is within its share, the
one the ring has if that one is.  `select_worker` looks up the hash of the tokens; without tokens it selects
nothing. -/
theorem select_bounded (xxh3 : Xxh3) (blake3 : Blake3) (cfg : PrefixHashConfig) (workers : List Worker)
    (hashRing : Option HashRing) (hfactor : 1 ≤ cfg.loadFactor)
    (hhealthy : ∃ w ∈ workers, w.isHealthy = true) :
    leastLoaded cfg workers ≠ none ∧
      (∀ prefixHash, ∃ i branch,
        findWorkerWithLoadBalance blake3 cfg workers hashRing prefixHash = (some i, branch) ∧
          (workers.get i).isHealthy = true ∧ WithinShare cfg workers i ∧
          ∀ j, Nearest blake3 workers hashRing prefixHash j → WithinShare cfg workers j → i = j) ∧
      ∀ tokens, selectWorkerImpl xxh3 blake3 cfg workers ⟨tokens, hashRing⟩ =
        if tokens.getD [] = [] then (none, .noTokens)
        else findWorkerWithLoadBalance blake3 cfg workers hashRing
          (computePrefixHash xxh3 cfg (tokens.getD [])) := by
  have hne := healthyWorkers_ne_nil hhealthy
  obtain ⟨least, hleast⟩ := exists_leastLoaded hfactor hne
  refine ⟨by simp [hleast], find_bounded hfactor hne, fun tokens => ?_⟩
  have hworkers : workers ≠ [] := by
    obtain ⟨w, hw, -⟩ := hhealthy
    exact List.ne_nil_of_mem hw
  rw [selectWorkerImpl, if_neg hworkers]
  cases tokens with
  | none => rfl
  | some tokens => cases tokens <;> rfl

/-- A worker with some requests. -/
def loadedWorker (url : Url) (load : Nat) : Worker := ⟨url, true, true, load, 0⟩

/-- The first is over its share. -/
def unevenWorkers : List Worker := [loadedWorker ['a'] 5, loadedWorker ['b'] 1]

/-- A ring that leads to the first. -/
def busyFirst : HashRing := ⟨[(0, ['a']), (1, ['b'])], by decide⟩

/-- The ring has the first worker, and the second is selected. -/
theorem less_loaded_selected :
    leastLoaded ⟨256, 5 / 4⟩ unevenWorkers ≠ none ∧
      ∀ prefixHash,
        (∃ i, i.val = 0 ∧
          Nearest (fun _ => Vector.replicate 32 0) unevenWorkers (some busyFirst) prefixHash i) ∧
        ∃ i branch, i.val = 1 ∧ findWorkerWithLoadBalance (fun _ => Vector.replicate 32 0) ⟨256, 5 / 4⟩
          unevenWorkers (some busyFirst) prefixHash = (some i, branch) := by
  obtain ⟨hleast, hfind, -⟩ := select_bounded (fun _ => 0) (fun _ => Vector.replicate 32 0) ⟨256, 5 / 4⟩
    unevenWorkers (some busyFirst) (by decide +kernel) ⟨_, List.mem_cons_self, rfl⟩
  refine ⟨hleast, fun prefixHash => ⟨⟨_, rfl, initialWorker_iff.mp rfl⟩, ?_⟩⟩
  obtain ⟨i, branch, hselected, -, hshare, -⟩ := hfind prefixHash
  have hbusy : ∀ i, WithinShare ⟨256, 5 / 4⟩ unevenWorkers i → i.val = 1 := by
    unfold WithinShare
    decide +kernel
  exact ⟨i, branch, hbusy i hshare, hselected⟩

end QwenStack.PrefixHash
