import Mathlib.Data.List.TakeWhile
import QwenStack.Manual.Persist

/-!
# Manual — eviction, operation by operation

The eviction closure of `gateway/src/policies/manual.rs` as the atomic operations it is made of, for
any number of eviction threads over the shared routing map, interleaved with requests.  The threads
share the file of the configuration.

A cycle reads the size of the map before and after its `retain`, and subtracts.  Requests may add
keys in between: the subtraction underflows exactly when more keys were added than dropped
(`run_subtracts_iff`).
-/

namespace QwenStack.Manual
open Assoc

/-- A table on its way to the disk, or there.  `collectedAt` counts the operations up to the one that
collected the entries. -/
structure Snapshot where
  json : Str
  collectedAt : Nat
  deriving DecidableEq, Repr

/-- The next operation of an eviction thread. -/
inductive Stage where
  | asleep
  | measure (now : Nat)
  | retain (now beforeSize : Nat)
  /-- Reads the size once more and subtracts. -/
  | subtract (beforeSize : Nat)
  | collect
  | lock (snapshot : Snapshot)
  | write (snapshot : Snapshot)
  | rename
  deriving DecidableEq, Repr

/-- The times at which a thread has collected the entries and taken the lock. -/
structure Passage where
  collectedAt : Nat := 0
  lockedAt : Nat := 0
  deriving DecidableEq, Repr

/-- An eviction thread, with the counts of added and dropped keys when it first read the size, and the
times of its snapshot. -/
structure Evictor where
  maxIdle : Nat
  persists : Bool
  stage : Stage := .asleep
  addedBefore : Nat := 0
  droppedBefore : Nat := 0
  passage : Passage := {}
  deriving DecidableEq, Repr

/-- The gateway between two operations.  `added` and `dropped` count the keys that requests have added
and that `retain` has dropped; `renamed` are the passages of the threads that have renamed. -/
structure Gateway where
  routingMap : RoutingMap
  threads : List Evictor
  snapshotLock : Option Nat := none
  file : Option Snapshot
  tmp : Option Snapshot := none
  ticks : Nat := 0
  added : Nat := 0
  dropped : Nat := 0
  renamed : List Passage := []
  deriving DecidableEq, Repr

/-- What the map has now. -/
def Gateway.snapshot (serde : SerdeJson) (s : Gateway) : Snapshot :=
  ⟨serde.toString (persistedTable s.routingMap), s.ticks⟩

/-- Thread `i` has done an operation. -/
def Gateway.moved (s : Gateway) (i : Nat) (t : Evictor) (stage : Stage) : Gateway :=
  { s with threads := s.threads.set i { t with stage := stage }, ticks := s.ticks + 1 }

/-- The next operation of thread `i`.  The clock shows `now`; a write or a rename ends as `result`
says.  A thread that finds the lock taken does nothing. -/
def Gateway.operate (serde : SerdeJson) (s : Gateway) (i : Nat) (t : Evictor) (now : Nat)
    (result : WriteResult) : Option Gateway :=
  match t.stage with
  | .asleep => some (s.moved i t (.measure now))
  | .measure now =>
      some (s.moved i { t with addedBefore := s.added, droppedBefore := s.dropped }
        (.retain now s.routingMap.length))
  | .retain now beforeSize =>
      let m := retainRecent t.maxIdle now s.routingMap
      some { s.moved i t (.subtract beforeSize) with
        routingMap := m
        dropped := s.dropped + (s.routingMap.length - m.length) }
  | .subtract _ => some (s.moved i t (if t.persists = true then .collect else .asleep))
  | .collect =>
      some (s.moved i { t with passage.collectedAt := s.ticks } (.lock (s.snapshot serde)))
  | .lock snapshot =>
      match s.snapshotLock with
      | none => some { s.moved i { t with passage.lockedAt := s.ticks } (.write snapshot) with
          snapshotLock := some i }
      | some _ => none
  | .write snapshot =>
      match result with
      | .writeFailed => some { s.moved i t .asleep with snapshotLock := none }
      | _ => some { s.moved i t .rename with tmp := some snapshot }
  | .rename =>
      match s.tmp, result with
      | some snapshot, .done =>
          some { s.moved i t .asleep with
            snapshotLock := none
            file := some snapshot
            tmp := none
            renamed := t.passage :: s.renamed }
      | _, _ => some { s.moved i t .asleep with snapshotLock := none }

/-- What happens next. -/
inductive Action where
  | select (mode : ManualAssignmentMode) (req : Request)
  | operate (i : Nat) (now : Nat) (result : WriteResult)

/-- One operation; `none` where the thread is not there or has to wait. -/
def Gateway.step (xxh3 : List UInt8 → UInt64) (serde : SerdeJson) (s : Gateway) :
    Action → Option Gateway
  | .select mode req => do
      let m ← serve xxh3 mode s.routingMap req
      some { s with
        routingMap := m
        ticks := s.ticks + 1
        added := s.added + (m.length - s.routingMap.length) }
  | .operate i now result => do
      let t ← s.threads[i]?
      s.operate serde i t now result

/-- The threads of some policies, asleep, over a map and a file. -/
def Gateway.start (m : RoutingMap) (file : Option Str) (tasks : List (Nat × Bool)) : Gateway where
  routingMap := m
  threads := tasks.map fun task => { maxIdle := task.1, persists := task.2 }
  file := file.map (⟨·, 0⟩)

/-- The gateway after some operations. -/
def Gateway.exec (xxh3 : List UInt8 → UInt64) (serde : SerdeJson) (s : Gateway)
    (actions : List Action) : Option Gateway :=
  Runs.exec (Gateway.step xxh3 serde) s actions

/-! ### The subtraction -/

/-- The size that a thread has read, until it subtracts. -/
def Stage.beforeSize : Stage → Option Nat
  | .retain _ beforeSize => some beforeSize
  | .subtract beforeSize => some beforeSize
  | _ => none

/-- The size of the map, against what was added and dropped since the thread first read it. -/
structure Evictor.Balanced (t : Evictor) (size added dropped : Nat) : Prop where
  added_le : t.addedBefore ≤ added
  dropped_le : t.droppedBefore ≤ dropped
  size_eq : ∀ before, t.stage.beforeSize = some before →
    size + (dropped - t.droppedBefore) = before + (added - t.addedBefore)

namespace Evictor.Balanced
variable {t : Evictor} {size added dropped n : Nat}

theorem add (h : t.Balanced size added dropped) (n : Nat) : t.Balanced (size + n) (added + n) dropped := by
  refine ⟨Nat.le_add_right_of_le h.added_le, h.dropped_le, fun before hb => ?_⟩
  have hsize := h.size_eq before hb
  have hle := h.added_le
  omega

theorem drop (h : t.Balanced size added dropped) (hn : n ≤ size) :
    t.Balanced (size - n) added (dropped + n) := by
  refine ⟨h.added_le, Nat.le_add_right_of_le h.dropped_le, fun before hb => ?_⟩
  have hsize := h.size_eq before hb
  have hle := h.dropped_le
  omega

/-- A thread that moves on keeps the size it has read, or forgets it. -/
theorem move (h : t.Balanced size added dropped) {stage : Stage}
    (hs : ∀ before, stage.beforeSize = some before → t.stage.beforeSize = some before) :
    Evictor.Balanced { t with stage := stage } size added dropped :=
  ⟨h.added_le, h.dropped_le, fun before hb => h.size_eq before (hs before hb)⟩

end Evictor.Balanced

/-- Every thread is. -/
def Balanced (s : Gateway) : Prop :=
  ∀ t ∈ s.threads, t.Balanced s.routingMap.length s.added s.dropped

/-- A request adds a key or none. -/
theorem serve_length {xxh3 : List UInt8 → UInt64} {mode : ManualAssignmentMode} {m m' : RoutingMap}
    {req : Request} (h : serve xxh3 mode m req = some m') : m.length ≤ m'.length := by
  obtain ⟨sel, hsel, rfl⟩ := Option.map_eq_some_iff.mp h
  rcases selectWorkerImpl_writes hsel with he | ⟨k, node, i, -, -, he⟩
  · rw [he]
  · have hlen : (keys (put k node m)).length = (put k node m).length := List.length_map _
    rw [he, ← hlen, keys_put]
    split
    · exact (List.length_map _).ge
    · simp [keys]

theorem Balanced.moved {s : Gateway} (h : Balanced s) {i : Nat} {t : Evictor} {stage : Stage}
    (ht : Evictor.Balanced { t with stage := stage } s.routingMap.length s.added s.dropped) :
    Balanced (s.moved i t stage) := by
  intro u hu
  rcases List.mem_or_eq_of_mem_set hu with hu | rfl
  · exact h u hu
  · exact ht

theorem Balanced.step {xxh3 : List UInt8 → UInt64} {serde : SerdeJson} {s s' : Gateway} {a : Action}
    (h : Balanced s) (hs : s.step xxh3 serde a = some s') : Balanced s' := by
  cases a with
  | select mode req =>
    obtain ⟨m, hm, hs⟩ := Option.bind_eq_some_iff.mp hs
    cases hs
    intro t ht
    have hsize := Nat.add_sub_of_le (serve_length hm)
    have hadd := (h t ht).add (m.length - s.routingMap.length)
    rwa [hsize] at hadd
  | operate i now result =>
    obtain ⟨t, ht, hs⟩ := Option.bind_eq_some_iff.mp hs
    have hB := h t (List.mem_of_getElem? ht)
    -- only `measure` reads a size, and only `retain` changes the map
    have hforget : ∀ stage : Stage, stage.beforeSize = none → Balanced (s.moved i t stage) :=
      fun stage hstage => h.moved (hB.move fun before hb => by rw [hstage] at hb; cases hb)
    cases hstage : t.stage with
    | asleep =>
      simp only [Gateway.operate, hstage, Option.some.injEq] at hs
      subst hs
      exact hforget _ rfl
    | measure time =>
      simp only [Gateway.operate, hstage, Option.some.injEq] at hs
      subst hs
      refine h.moved ⟨le_rfl, le_rfl, fun before hb => ?_⟩
      cases hb
      simp
    | retain time beforeSize =>
      simp only [Gateway.operate, hstage, Option.some.injEq] at hs
      subst hs
      have hmoved : Balanced (s.moved i t (.subtract beforeSize)) :=
        h.moved (hB.move fun before hb => by rw [hstage]; exact hb)
      intro u hu
      have hle : (retainRecent t.maxIdle time s.routingMap).length ≤ s.routingMap.length :=
        List.length_filter_le _ _
      have hdrop := (hmoved u hu).drop
        (Nat.sub_le s.routingMap.length (retainRecent t.maxIdle time s.routingMap).length)
      have hsize := Nat.sub_sub_self hle
      rwa [show (s.moved i t (.subtract beforeSize)).routingMap = s.routingMap from rfl, hsize] at hdrop
    | subtract beforeSize =>
      simp only [Gateway.operate, hstage, Option.some.injEq] at hs
      subst hs
      exact hforget _ (by split <;> rfl)
    | collect =>
      simp only [Gateway.operate, hstage, Option.some.injEq] at hs
      subst hs
      exact h.moved ⟨hB.added_le, hB.dropped_le, fun _ hb => by cases hb⟩
    | lock snapshot =>
      simp only [Gateway.operate, hstage] at hs
      split at hs
      · cases hs
        exact @Balanced.moved s h i { t with passage.lockedAt := s.ticks } (.write snapshot)
          ⟨hB.added_le, hB.dropped_le, fun _ hb => by cases hb⟩
      · cases hs
    | write snapshot =>
      simp only [Gateway.operate, hstage] at hs
      split at hs
      · cases hs
        exact hforget .asleep rfl
      · cases hs
        exact hforget .rename rfl
    | rename =>
      simp only [Gateway.operate, hstage] at hs
      split at hs
      · cases hs
        exact hforget .asleep rfl
      · cases hs
        exact hforget .asleep rfl

/-- If the action subtracts, it does not underflow. -/
def Subtracts (s : Gateway) (a : Action) : Prop :=
  ∀ i now result t before, a = .operate i now result → s.threads[i]? = some t →
    t.stage = .subtract before → s.routingMap.length ≤ before

/-- If the action subtracts, then since its thread first read the size, at most as many keys were added
as were dropped. -/
def Covered (s : Gateway) (a : Action) : Prop :=
  ∀ i now result t before, a = .operate i now result → s.threads[i]? = some t →
    t.stage = .subtract before → s.added - t.addedBefore ≤ s.dropped - t.droppedBefore

theorem Balanced.subtracts_iff {s : Gateway} (h : Balanced s) (a : Action) :
    Subtracts s a ↔ Covered s a := by
  refine forall₅_congr fun i now result t before => forall₃_congr fun ha ht hstage => ?_
  have hsize := (h t (List.mem_of_getElem? ht)).size_eq before (by rw [hstage]; rfl)
  omega

theorem balanced_start (m : RoutingMap) (file : Option Str) (tasks : List (Nat × Bool)) :
    Balanced (.start m file tasks) := by
  intro t ht
  obtain ⟨task, -, rfl⟩ := List.mem_map.mp ht
  exact ⟨le_rfl, le_rfl, fun before hb => by cases hb⟩

/-- **When no subtraction of a run underflows.** -/
theorem run_subtracts_iff (xxh3 : List UInt8 → UInt64) (serde : SerdeJson) (m : RoutingMap)
    (file : Option Str) (tasks : List (Nat × Bool)) (actions : List Action) :
    (∀ k s a, (Gateway.start m file tasks).exec xxh3 serde (actions.take k) = some s →
        actions[k]? = some a → Subtracts s a) ↔
      ∀ k s a, (Gateway.start m file tasks).exec xxh3 serde (actions.take k) = some s →
        actions[k]? = some a → Covered s a := by
  refine forall₃_congr fun k s a => forall₂_congr fun hrun ha => Balanced.subtracts_iff ?_ a
  exact Runs.exec_keeps (fun h hs => h.step hs) (balanced_start m file tasks) hrun

/-- A thread reads the size, and a request adds a session before it reads it again. -/
def addedInBetween : List Action :=
  [.operate 0 0 .done, .operate 0 0 .done, .select .random (sessionRequest (idleFleet ['a'])),
    .operate 0 0 .done, .operate 0 0 .done]

/-- It subtracts one from zero. -/
theorem added_session_underflows :
    ¬ ∀ k s a, (Gateway.start [] none [(1, false)]).exec (fun _ => 0) compactJson
        (addedInBetween.take k) = some s → addedInBetween[k]? = some a → Subtracts s a := by
  intro h
  have hrun : ((Gateway.start [] none [(1, false)]).exec (fun _ => 0) compactJson
      (addedInBetween.take 4)).map (fun s => (s.threads.map Evictor.stage, s.routingMap.length)) =
        some ([.subtract 0], 1) := by
    decide +kernel
  obtain ⟨s, hs, hv⟩ := Option.map_eq_some_iff.mp hrun
  obtain ⟨hstages, hsize⟩ := Prod.mk.inj hv
  obtain ⟨t, ht, hstage⟩ := List.map_eq_singleton_iff.mp hstages
  have hle := h 4 s _ hs rfl 0 0 .done t 0 rfl (by rw [ht]; rfl) hstage
  rw [hsize] at hle
  exact absurd hle (by decide)

end QwenStack.Manual
