import Mathlib.Data.Char
import QwenStack.Manual.Sticky
import QwenStack.Support.BTreeMap
import QwenStack.Support.Json

/-!
# Manual — the routing map on disk

The rest of `gateway/src/policies/manual.rs`: the routing map shared by every policy of the process,
its snapshot on disk, and the task that evicts idle sessions and writes the snapshot.  `serde_json`
is a pair of functions; what is assumed of it is `RoundTrips`.

`Process` is the gateway with its disk, and `step` what can happen to it: a policy is created, a
request is routed, an eviction task wakes, the gateway restarts, a file goes or is put back as it
was.  Files are only ever written by `snapshotRoutingMap`.

Three results.  Every candidate list of every reachable state is non-empty, bounded and without
duplicates (`run_candidates`).  Loading a snapshot into an empty map gives the map that was written
(`load_snapshot`).  And creating a policy leaves the sessions in memory alone exactly when the file
it loads agrees with memory (`withConfig_keeps_iff`): `load_routing_map` assigns, so an older
snapshot takes a session back from the worker it failed over to.
-/

namespace QwenStack.Manual
open Assoc List

abbrev Path := Str

/-! ### The file -/

/-- `PersistedTable`, and the payload `snapshot_routing_map` writes. -/
structure PersistedTable where
  version : Nat
  entries : BTreeMap Str (List Url)

/-- `serde_json`, at the one type it is used at. -/
structure SerdeJson where
  toString : PersistedTable → Str
  fromStr : Str → Option PersistedTable

/-- A payload survives being written and read back. -/
def SerdeJson.RoundTrips (serde : SerdeJson) : Prop :=
  ∀ entries, serde.fromStr (serde.toString ⟨1, entries⟩) = some ⟨1, entries⟩

/-- `Path::with_extension`, of a path that ends in a file name. -/
def withExtension (path ext : Str) : Path :=
  let name := (path.reverse.takeWhile (· ≠ '/')).reverse
  let dir := path.take (path.length - name.length)
  let beforeDot := (name.reverse.dropWhile (· ≠ '.')).drop 1
  let stem := if beforeDot = [] then name else beforeDot.reverse
  dir ++ stem ++ '.' :: ext

/-- The disk: the contents of the files. -/
abbrev Disk := List (Path × Str)

/-- `load_routing_map`.  A file that is missing or cannot be read is no entry of the disk; a
malformed one is renamed. -/
def loadRoutingMap (serde : SerdeJson) (now : Nat) (path : Path) (disk : Disk) (m : RoutingMap) :
    RoutingMap × Disk :=
  match disk.lookup path with
  | none => (m, disk)
  | some content =>
      match serde.fromStr content with
      | none => (m, put (withExtension path "corrupt".toList) content (del path disk))
      | some table =>
          let restored := (table.entries.entries.filter fun e => !e.2.isEmpty).map
            fun e => (e.1, (⟨e.2, now⟩ : Node))
          (restored.foldl (fun m e => put e.1 e.2 m) m, disk)

/-- How the write of a file ends: done, or failed at the temporary file or at its rename. -/
inductive WriteResult where
  | done
  | writeFailed
  | renameFailed
  deriving DecidableEq, Repr

/-- The payload of `snapshot_routing_map`. -/
def persistedTable (m : RoutingMap) : PersistedTable :=
  ⟨1, BTreeMap.ofList (m.map fun e => (e.1, e.2.candiWorkerUrls))⟩

/-- `snapshot_routing_map`. -/
def snapshotRoutingMap (serde : SerdeJson) (m : RoutingMap) (path : Path) (result : WriteResult)
    (disk : Disk) : Disk :=
  let json := serde.toString (persistedTable m)
  let tmp := withExtension path "json.tmp".toList
  match result with
  | .done => put path json (del tmp disk)
  | .writeFailed => disk
  | .renameFailed => put tmp json disk

/-! ### Policies -/

/-- `ManualConfig`. -/
structure ManualConfig where
  evictionIntervalSecs : Nat
  maxIdleSecs : Nat
  assignmentMode : ManualAssignmentMode
  routingMapFile : Option Path

/-- What the closure of the `PeriodicTask` holds. -/
structure EvictionTask where
  maxIdle : Nat
  persistPath : Option Path

/-- `ManualPolicy`, less the routing map, which all of them share. -/
structure ManualPolicy where
  assignmentMode : ManualAssignmentMode
  evictionTask : Option EvictionTask

/-- `Duration::from_secs`, in nanoseconds. -/
def fromSecs (secs : Nat) : Nat := secs * 1000000000

/-- The gateway and its disk.  `written` are the contents of all files written so far. -/
structure Process where
  routingMap : RoutingMap
  policies : List ManualPolicy
  disk : Disk
  written : List Str

/-- The first start. -/
def Process.init : Process := ⟨[], [], [], []⟩

/-- `ManualPolicy::with_config`. -/
def withConfig (serde : SerdeJson) (config : ManualConfig) (now : Nat) (s : Process) : Process :=
  let (m, disk) := match config.routingMapFile with
    | some path => loadRoutingMap serde now path s.disk s.routingMap
    | none => (s.routingMap, s.disk)
  let evictionTask :=
    if 0 < config.evictionIntervalSecs ∧ 0 < config.maxIdleSecs then
      some ⟨fromSecs config.maxIdleSecs, config.routingMapFile⟩
    else none
  { s with
    routingMap := m
    policies := s.policies ++ [⟨config.assignmentMode, evictionTask⟩]
    disk := disk }

/-- The `retain` of an eviction cycle. -/
def retainRecent (maxIdle now : Nat) (m : RoutingMap) : RoutingMap :=
  m.filter fun e => decide (now - e.2.lastAccess < maxIdle)

/-- The closure of the `PeriodicTask`. -/
def evictionCycle (serde : SerdeJson) (task : EvictionTask) (now : Nat) (result : WriteResult)
    (s : Process) : Process :=
  let m := retainRecent task.maxIdle now s.routingMap
  match task.persistPath with
  | none => { s with routingMap := m }
  | some path => { s with
      routingMap := m
      disk := snapshotRoutingMap serde m path result s.disk
      written := s.written ++ [serde.toString (persistedTable m)] }

/-! ### Runs -/

/-- What happens to the gateway. -/
inductive Event where
  | withConfig (config : ManualConfig) (now : Nat)
  | selectWorker (policy : Nat) (req : Request)
  | evict (policy : Nat) (now : Nat) (result : WriteResult)
  /-- The process ends and starts again: the disk stays. -/
  | restart
  /-- A file goes, or cannot be read any more. -/
  | removeFile (path : Path)
  /-- A file is put back: its content is one that was written before. -/
  | restoreFile (path : Path) (n : Nat)

/-- One event; `none` where there is no such policy, task or content. -/
def step (xxh3 : List UInt8 → UInt64) (serde : SerdeJson) (s : Process) : Event → Option Process
  | .withConfig config now => some (withConfig serde config now s)
  | .selectWorker i req => do
      let policy ← s.policies[i]?
      let m ← serve xxh3 policy.assignmentMode s.routingMap req
      some { s with routingMap := m }
  | .evict i now result => do
      let policy ← s.policies[i]?
      let task ← policy.evictionTask
      some (evictionCycle serde task now result s)
  | .restart => some { s with routingMap := [], policies := [] }
  | .removeFile path => some { s with disk := del path s.disk }
  | .restoreFile path n => do
      let content ← s.written[n]?
      some { s with disk := put path content s.disk }

/-- The gateway after some events. -/
def run (xxh3 : List UInt8 → UInt64) (serde : SerdeJson) (events : List Event) : Option Process :=
  Runs.exec (step xxh3 serde) Process.init events

/-! ### The candidate lists -/

/-- A non-empty, bounded list without duplicates. -/
structure GoodList (urls : List Url) : Prop where
  ne_nil : urls ≠ []
  bounded : urls.length ≤ maxCandidateWorkers
  distinct : urls.Nodup

/-- The candidate-list invariant.  Keys are distinct, as in any hash map. -/
structure CandidateInv (m : RoutingMap) : Prop where
  keys : (keys m).Nodup
  lists : ∀ e ∈ m, GoodList e.2.candiWorkerUrls

theorem pushBounded_eq (url : Url) (urls : List Url) :
    ∃ l, pushBounded url urls = l ++ [url] ∧ l <:+ urls ∧ l.length < maxCandidateWorkers := by
  induction urls with
  | nil => exact ⟨[], rfl, suffix_rfl, by decide⟩
  | cons u urls ih =>
    rw [pushBounded]
    split
    · obtain ⟨l, he, hs, hl⟩ := ih
      exact ⟨l, he, hs.trans (suffix_cons u urls), hl⟩
    · next h => exact ⟨u :: urls, rfl, suffix_rfl, not_le.mp h⟩

/-- The push of a URL that is not in the list. -/
theorem goodList_pushBounded {url : Url} {urls : List Url} (hd : urls.Nodup) (hnew : url ∉ urls) :
    GoodList (pushBounded url urls) := by
  obtain ⟨l, he, hs, hl⟩ := pushBounded_eq url urls
  refine ⟨by simp [he], ?_, ?_⟩
  · rw [he, length_append, length_singleton]
    exact hl
  · rw [he]
    refine List.nodup_append.mpr ⟨hd.sublist hs.sublist, nodup_singleton url, ?_⟩
    rintro a ha b hb rfl
    obtain rfl := List.mem_singleton.mp hb
    exact hnew (hs.subset ha)

namespace CandidateInv
variable {m : RoutingMap}

theorem nil : CandidateInv [] := ⟨nodup_nil, fun _ h => (nomatch h)⟩

theorem put (h : CandidateInv m) {k : Str} {n : Node} (hn : GoodList n.candiWorkerUrls) :
    CandidateInv (put k n m) := by
  refine ⟨nodup_keys_put h.keys, fun e he => ?_⟩
  rcases mem_put he with rfl | he
  · exact hn
  · exact h.lists e he

theorem retainRecent (h : CandidateInv m) (maxIdle now : Nat) :
    CandidateInv (retainRecent maxIdle now m) :=
  ⟨h.keys.sublist (List.filter_sublist.map Prod.fst), fun e he => h.lists e (mem_of_mem_filter he)⟩

/-- The candidates of a key: a good list, or none at all. -/
theorem candidates (h : CandidateInv m) (k : Str) :
    candidates m k = [] ∨ GoodList (candidates m k) := by
  rw [Manual.candidates]
  cases hm : m.lookup k with
  | none => exact Or.inl rfl
  | some node => exact Or.inr (h.lists _ (mem_of_lookup hm))

end CandidateInv

/-- A call writes nothing, or the entry of its key together with an answer. -/
theorem selectWorkerImpl_writes {xxh3 : List UInt8 → UInt64} {mode : ManualAssignmentMode}
    {m : RoutingMap} {workers : List Worker} {info : SelectWorkerInfo}
    {sel : Selection workers.length}
    (h : selectWorkerImpl xxh3 mode m workers info = some sel) :
    sel.routingMap = m ∨ ∃ k node i, resolveRoutingKey xxh3 info.headers info.requestText = some k ∧
      sel.index = some i ∧ sel.routingMap = put k node m := by
  simp only [selectWorkerImpl] at h
  split at h
  · exact Or.inl (by rw [← Option.some.inj h])
  · split at h
    · next k hk =>
      refine Or.inr ?_
      simp only [selectByRoutingId] at h
      split at h
      · split at h
        · cases h
          exact ⟨k, _, _, hk, rfl, rfl⟩
        · obtain ⟨i, -, hi⟩ := Option.bind_eq_some_iff.mp h
          cases hi
          exact ⟨k, _, _, hk, rfl, rfl⟩
      · obtain ⟨i, -, hi⟩ := Option.bind_eq_some_iff.mp h
        cases hi
        exact ⟨k, _, _, hk, rfl, rfl⟩
    · obtain ⟨i, -, hi⟩ := Option.bind_eq_some_iff.mp h
      exact Or.inl (by rw [← Option.some.inj hi])

/-- **A request keeps the invariant**: a URL is pushed only where no listed URL is available, and
the pushed one is. -/
theorem CandidateInv.serve {xxh3 : List UInt8 → UInt64} {mode : ManualAssignmentMode}
    {m m' : RoutingMap} {req : Request} (h : CandidateInv m)
    (hs : serve xxh3 mode m req = some m') : CandidateInv m' := by
  obtain ⟨sel, hsel, hR⟩ := selectWorkerImpl_spec xxh3 mode m req.fleet.distinct req.info
  rw [Manual.serve, hsel, Option.map_some] at hs
  cases hs
  rcases selectWorkerImpl_writes hsel with he | ⟨k, node, i, hk, hi, he⟩
  · rw [he]
    exact h
  · have hnode : Manual.candidates sel.routingMap k = node.candiWorkerUrls := by
      rw [he, candidates_put]
    rw [he]
    refine h.put ?_
    rw [← hnode]
    cases hf : firstAvailable (Manual.candidates m k) req.fleet.workers with
    | some u =>
      rw [(hR.hit k hk u hf).2]
      refine (h.candidates k).resolve_left fun h0 => ?_
      rw [h0] at hf
      cases hf
    | none =>
      rw [hR.miss k hk hf i hi]
      have hav : availableUrl req.fleet.workers (req.fleet.workers.get i).url = true :=
        availableUrl_iff.mpr ⟨_, get_mem _ i, rfl, mem_getHealthyWorkerIndices.mp (hR.healthy i hi)⟩
      refine goodList_pushBounded ?_ fun hmem => List.find?_eq_none.mp hf _ hmem hav
      rcases h.candidates k with h0 | hg
      · rw [h0]
        exact nodup_nil
      · exact hg.distinct

/-! ### Loading a file -/

section
variable {serde : SerdeJson} {disk : Disk} {path : Path} {m : RoutingMap} {now : Nat}

/-- What the map has for a key after a readable, well-formed file was loaded. -/
theorem lookup_loadRoutingMap {content : Str} {table : PersistedTable}
    (hd : disk.lookup path = some content) (ht : serde.fromStr content = some table) (x : Str) :
    (loadRoutingMap serde now path disk m).1.lookup x =
      (((table.entries.get x).filter fun urls => !urls.isEmpty).map (Node.mk · now)).or
        (m.lookup x) := by
  have hkeys : (keys (table.entries.entries.filter fun e => !e.2.isEmpty)).Nodup :=
    table.entries.nodup_keys.sublist (List.filter_sublist.map Prod.fst)
  have hmap : ∀ l : List (Str × List Url), keys (l.map fun e => (e.1, Node.mk e.2 now)) = keys l := by
    intro l
    simp [Assoc.keys, Function.comp_def]
  simp only [loadRoutingMap, hd, ht]
  have hfold := lookup_foldl (g := fun (m : RoutingMap) x => m.lookup x) (m := m)
    (fun x k v m => lookup_put x k v m) ((hmap _).symm ▸ hkeys) x
  rw [lookup_map_values (Node.mk · now),
    lookup_filter_values (fun urls => !urls.isEmpty) table.entries.nodup_keys] at hfold
  exact hfold

theorem get_persistedTable (hm : (keys m).Nodup) (x : Str) :
    (persistedTable m).entries.get x = (m.lookup x).map Node.candiWorkerUrls := by
  rw [persistedTable, BTreeMap.get_ofList, lookup_map_values]
  simpa [Assoc.keys, Function.comp_def] using hm

/-- **The round trip.** -/
theorem load_snapshot (hserde : serde.RoundTrips) (hm : CandidateInv m) (x : Str) :
    ((loadRoutingMap serde now path (snapshotRoutingMap serde m path .done disk) []).1.lookup x).map
        Node.candiWorkerUrls = (m.lookup x).map Node.candiWorkerUrls := by
  have hd : (snapshotRoutingMap serde m path .done disk).lookup path =
      some (serde.toString (persistedTable m)) := by
    rw [snapshotRoutingMap, lookup_put, if_pos rfl]
  have ht : serde.fromStr (serde.toString (persistedTable m)) = some (persistedTable m) := hserde _
  rw [lookup_loadRoutingMap hd ht, get_persistedTable hm.keys]
  cases hx : m.lookup x with
  | none => rfl
  | some node =>
    -- no entry is lost to the filter: the list of a stored key is never empty
    have hkept : (some node.candiWorkerUrls).filter (fun urls => !urls.isEmpty) =
        some node.candiWorkerUrls :=
      Option.filter_some_pos (by simpa using (hm.lists _ (mem_of_lookup hx)).ne_nil)
    rw [Option.map_some, hkept]
    rfl

/-- A file that a snapshot wrote. -/
def GoodFile (serde : SerdeJson) (content : Str) : Prop :=
  ∃ m, CandidateInv m ∧ content = serde.toString (persistedTable m)

theorem CandidateInv.load (hserde : serde.RoundTrips) (h : CandidateInv m)
    (hd : ∀ content, disk.lookup path = some content → GoodFile serde content) :
    CandidateInv (loadRoutingMap serde now path disk m).1 ∧
      (loadRoutingMap serde now path disk m).2 = disk := by
  rw [loadRoutingMap]
  cases hc : disk.lookup path with
  | none => exact ⟨h, rfl⟩
  | some content =>
    obtain ⟨m₀, hm₀, rfl⟩ := hd content hc
    simp only [show serde.fromStr (serde.toString (persistedTable m₀)) = some (persistedTable m₀)
      from hserde _, and_true]
    refine ⟨nodup_keys_foldl_put h.keys, fun e he => ?_⟩
    rcases mem_foldl_put he with he | he
    · obtain ⟨e', he', rfl⟩ := List.mem_map.mp he
      have hget : (persistedTable m₀).entries.get e'.1 = some e'.2 :=
        lookup_of_mem (BTreeMap.nodup_keys _) (mem_of_mem_filter he')
      rw [get_persistedTable hm₀.keys, Option.map_eq_some_iff] at hget
      obtain ⟨node, hnode, hurls⟩ := hget
      rw [← hurls]
      exact hm₀.lists (e'.1, node) (mem_of_lookup hnode)
    · exact h.lists e he

end

/-! ### Every reachable state -/

/-- The lists in memory are good, and so is every file, on the disk or written before. -/
structure Sound (serde : SerdeJson) (s : Process) : Prop where
  memory : CandidateInv s.routingMap
  disk : ∀ path content, s.disk.lookup path = some content → GoodFile serde content
  written : ∀ content ∈ s.written, GoodFile serde content

namespace Sound
variable {xxh3 : List UInt8 → UInt64} {serde : SerdeJson} {s s' : Process}

theorem init : Sound serde Process.init :=
  ⟨.nil, fun _ _ h => (nomatch h), fun _ h => (nomatch h)⟩

theorem putFile (h : Sound serde s) {path : Path} {content : Str} (hc : GoodFile serde content) :
    Sound serde { s with disk := put path content s.disk } := by
  refine ⟨h.memory, fun p c hp => ?_, h.written⟩
  simp only [lookup_put] at hp
  split at hp
  · cases hp
    exact hc
  · exact h.disk p c hp

theorem delFile (h : Sound serde s) (path : Path) :
    Sound serde { s with disk := del path s.disk } := by
  refine ⟨h.memory, fun p c hp => ?_, h.written⟩
  simp only [lookup_del] at hp
  split at hp
  · cases hp
  · exact h.disk p c hp

theorem withConfig (hserde : serde.RoundTrips) (h : Sound serde s) (config : ManualConfig)
    (now : Nat) : Sound serde (withConfig serde config now s) := by
  rw [Manual.withConfig]
  cases config.routingMapFile with
  | none => exact ⟨h.memory, h.disk, h.written⟩
  | some path =>
    obtain ⟨hm, hdisk⟩ := @CandidateInv.load serde s.disk path s.routingMap now hserde h.memory (h.disk path)
    exact ⟨hm, by simpa only [hdisk] using h.disk, h.written⟩

theorem evictionCycle (h : Sound serde s) (task : EvictionTask) (now : Nat) (result : WriteResult) :
    Sound serde (evictionCycle serde task now result s) := by
  have hm := h.memory.retainRecent task.maxIdle now
  rw [Manual.evictionCycle]
  cases task.persistPath with
  | none => exact ⟨hm, h.disk, h.written⟩
  | some path =>
    have hfile : GoodFile serde (serde.toString (persistedTable
      (Manual.retainRecent task.maxIdle now s.routingMap))) := ⟨_, hm, rfl⟩
    refine ⟨hm, ?_, fun c hc => ?_⟩
    · cases result with
      | done => exact ((h.delFile _).putFile hfile).disk
      | writeFailed => exact h.disk
      | renameFailed => exact (h.putFile hfile).disk
    · rcases List.mem_append.mp hc with hc | hc
      · exact h.written c hc
      · rw [List.mem_singleton.mp hc]
        exact hfile

theorem step (hserde : serde.RoundTrips) (h : Sound serde s) {e : Event}
    (hs : step xxh3 serde s e = some s') : Sound serde s' := by
  cases e with
  | withConfig config now =>
    cases hs
    exact h.withConfig hserde config now
  | selectWorker i req =>
    obtain ⟨policy, -, hs⟩ := Option.bind_eq_some_iff.mp hs
    obtain ⟨m, hm, hs⟩ := Option.bind_eq_some_iff.mp hs
    cases hs
    exact ⟨h.memory.serve hm, h.disk, h.written⟩
  | evict i now result =>
    obtain ⟨policy, -, hs⟩ := Option.bind_eq_some_iff.mp hs
    obtain ⟨task, -, hs⟩ := Option.bind_eq_some_iff.mp hs
    cases hs
    exact h.evictionCycle task now result
  | restart =>
    cases hs
    exact ⟨.nil, h.disk, h.written⟩
  | removeFile path =>
    cases hs
    exact h.delFile path
  | restoreFile path n =>
    obtain ⟨content, hc, hs⟩ := Option.bind_eq_some_iff.mp hs
    cases hs
    exact h.putFile (h.written content (List.mem_of_getElem? hc))

theorem exec (hserde : serde.RoundTrips) : ∀ (events : List Event) {s s' : Process},
    Sound serde s → Runs.exec (Manual.step xxh3 serde) s events = some s' → Sound serde s'
  | [], s, s', h, hs => Option.some.inj hs ▸ h
  | e :: events, s, s', h, hs => by
      obtain ⟨s₁, h₁, hs⟩ := Option.bind_eq_some_iff.mp hs
      exact exec hserde events (h.step hserde h₁) hs

end Sound

/-- **The candidate-list invariant.**  In every reachable state, a stored key has a non-empty list
of at most `maxCandidateWorkers` distinct URLs. -/
theorem run_candidates {xxh3 : List UInt8 → UInt64} {serde : SerdeJson}
    (hserde : serde.RoundTrips) {events : List Event} {s : Process}
    (hrun : run xxh3 serde events = some s) {k : Str} {node : Node}
    (hk : s.routingMap.lookup k = some node) :
    node.candiWorkerUrls ≠ [] ∧ node.candiWorkerUrls.length ≤ maxCandidateWorkers ∧
      node.candiWorkerUrls.Nodup := by
  have hgood := (Sound.init.exec hserde events hrun).memory.lists _ (mem_of_lookup hk)
  exact ⟨hgood.ne_nil, hgood.bounded, hgood.distinct⟩

/-! ### Creating one more policy -/

/-- Every key in memory keeps its candidate list. -/
def KeepsSessions (s s' : Process) : Prop :=
  ∀ k node, s.routingMap.lookup k = some node →
    (s'.routingMap.lookup k).map Node.candiWorkerUrls = some node.candiWorkerUrls

/-- The routing-map file has, for every key in memory, the list in memory or none. -/
def FileAgrees (serde : SerdeJson) (config : ManualConfig) (s : Process) : Prop :=
  ∀ path content table, config.routingMapFile = some path → s.disk.lookup path = some content →
    serde.fromStr content = some table → ∀ k node urls, s.routingMap.lookup k = some node →
      table.entries.get k = some urls → urls = [] ∨ urls = node.candiWorkerUrls

theorem withConfig_keeps_iff (serde : SerdeJson) (config : ManualConfig) (now : Nat) (s : Process) :
    KeepsSessions s (withConfig serde config now s) ↔ FileAgrees serde config s := by
  have same : ∀ s', s'.routingMap = s.routingMap → KeepsSessions s s' := by
    intro s' h k node hk
    rw [h, hk]
    rfl
  cases hp : config.routingMapFile with
  | none =>
    refine iff_of_true (same _ (by simp only [withConfig, hp])) ?_
    intro path content table h
    cases h.symm.trans hp
  | some path =>
    have hload : (withConfig serde config now s).routingMap =
        (loadRoutingMap serde now path s.disk s.routingMap).1 := by
      simp only [withConfig, hp]
    cases hd : s.disk.lookup path with
    | none =>
      refine iff_of_true (same _ (by rw [hload, loadRoutingMap, hd])) ?_
      intro path' content table h h'
      cases hp.symm.trans h
      cases h'.symm.trans hd
    | some content =>
      cases ht : serde.fromStr content with
      | none =>
        refine iff_of_true (same _ (by simp only [hload, loadRoutingMap, hd, ht])) ?_
        intro path' content' table h h' ht'
        cases hp.symm.trans h
        cases hd.symm.trans h'
        cases ht'.symm.trans ht
      | some table =>
        have hget := @lookup_loadRoutingMap serde s.disk path s.routingMap now content table hd ht
        constructor
        · intro hkeeps path' content' table' h h' ht' k node urls hk hurls
          cases hp.symm.trans h
          cases hd.symm.trans h'
          cases ht.symm.trans ht'
          have hkept := hkeeps k node hk
          rw [hload, hget, hurls] at hkept
          cases urls with
          | nil => exact Or.inl rfl
          | cons u urls => exact Or.inr (Option.some.inj hkept)
        · intro hagrees k node hk
          rw [hload, hget, hk]
          cases hurls : table.entries.get k with
          | none => rfl
          | some urls =>
            rcases hagrees path content table hp hd ht k node urls hk hurls with rfl | rfl
            · rfl
            · rw [Option.filter_some]
              split <;> rfl

/-- **Creating a policy keeps the sessions of a run exactly when the file agrees with memory
whenever one is created.** -/
theorem run_keeps_sessions_iff (xxh3 : List UInt8 → UInt64) (serde : SerdeJson)
    (events : List Event) :
    (∀ n s config now, run xxh3 serde (events.take n) = some s →
        events[n]? = some (.withConfig config now) →
        KeepsSessions s (withConfig serde config now s)) ↔
      ∀ n s config now, run xxh3 serde (events.take n) = some s →
        events[n]? = some (.withConfig config now) → FileAgrees serde config s := by
  constructor
  · intro h n s config now hrun he
    exact (withConfig_keeps_iff serde config now s).mp (h n s config now hrun he)
  · intro h n s config now hrun he
    exact (withConfig_keeps_iff serde config now s).mpr (h n s config now hrun he)

/-! ### A concrete codec -/

/-- The object of candidate lists. -/
def entriesCodec : Json.Codec (List (Str × List Url)) := Json.object (Json.array Json.string)

/-- What stands before the entries. -/
def payloadHead (version : Nat) : Str :=
  "\x7b\"version\":".toList ++ Nat.toDigits 10 version ++ ",\"entries\":".toList

/-- The payload in compact JSON. -/
def compactJson : SerdeJson where
  toString t := payloadHead t.version ++ (entriesCodec.write t.entries.entries ++ ['}'])
  fromStr content :=
    if payloadHead 1 <+: content then do
      let (entries, rest) ← entriesCodec.read (content.drop (payloadHead 1).length)
      if rest = ['}'] then some ⟨1, BTreeMap.ofList entries⟩ else none
    else none

theorem compactJson_roundTrips : compactJson.RoundTrips := by
  intro entries
  simp only [compactJson, prefix_append, if_true, drop_left, entriesCodec.read_write,
    Option.bind_eq_bind, Option.bind_some, BTreeMap.ofList_entries]

/-! ### A session that fails over after the snapshot -/

/-- Sessions are written to one file. -/
def stickyConfig : ManualConfig := ⟨60, 14400, .random, some "m.json".toList⟩

/-- An idle worker alone. -/
def idleFleet (url : Url) : Fleet := ⟨[idleWorker url], nodup_singleton _⟩

/-- The session `k` goes to `a`, the snapshot is written, then `a` goes away and the session fails
over to `b`. -/
def failoverEvents : List Event :=
  [.withConfig stickyConfig 0, .selectWorker 0 (sessionRequest (idleFleet ['a'])),
    .evict 0 0 .done, .selectWorker 0 (sessionRequest (idleFleet ['b']))]

theorem run_failover : ∃ s, run (fun _ => 0) compactJson failoverEvents = some s ∧
      s.routingMap.lookup ['k'] = some ⟨[['a'], ['b']], 0⟩ ∧
      (withConfig compactJson stickyConfig 0 s).routingMap.lookup ['k'] = some ⟨[['a']], 0⟩ := by
  have hrun : (run (fun _ => 0) compactJson failoverEvents).map (fun s =>
      (s.routingMap.lookup ['k'], (withConfig compactJson stickyConfig 0 s).routingMap.lookup ['k'])) =
        some (some ⟨[['a'], ['b']], 0⟩, some ⟨[['a']], 0⟩) := by
    decide +kernel
  obtain ⟨s, hs, hv⟩ := Option.map_eq_some_iff.mp hrun
  obtain ⟨h₁, h₂⟩ := Prod.mk.inj hv
  exact ⟨s, hs, h₁, h₂⟩

/-- The session has both candidates. -/
theorem failover_candidates :
    ∃ s, run (fun _ => 0) compactJson failoverEvents = some s ∧
      s.routingMap.lookup ['k'] = some ⟨[['a'], ['b']], 0⟩ ∧
      [['a'], ['b']] ≠ ([] : List Url) ∧ [['a'], ['b']].length ≤ maxCandidateWorkers ∧
      ([['a'], ['b']] : List Url).Nodup := by
  obtain ⟨s, hs, hk, -⟩ := run_failover
  exact ⟨s, hs, hk, run_candidates compactJson_roundTrips hs hk⟩

/-- **One more policy takes the session back to `a`**, which is gone: the snapshot is older than
the failover. -/
theorem new_policy_reverts_failover :
    ¬ ∀ serde : SerdeJson, serde.RoundTrips → ∀ events s,
      run (fun _ => 0) serde events = some s → ∀ config now,
        KeepsSessions s (withConfig serde config now s) := by
  intro h
  obtain ⟨s, hs, hk, hk'⟩ := run_failover
  have hkept := h compactJson compactJson_roundTrips _ s hs stickyConfig 0 _ _ hk
  rw [hk'] at hkept
  exact absurd hkept (by decide)

/-- The session `k` of two candidates, written and read back. -/
theorem two_candidates_survive :
    CandidateInv [(['k'], ⟨[['a'], ['b']], 0⟩)] ∧
      ((loadRoutingMap compactJson 7 ['f'] (snapshotRoutingMap compactJson
        [(['k'], ⟨[['a'], ['b']], 0⟩)] ['f'] .done []) []).1.lookup ['k']).map
        Node.candiWorkerUrls = some [['a'], ['b']] := by
  have hm : CandidateInv [(['k'], ⟨[['a'], ['b']], 0⟩)] := by
    refine CandidateInv.nil.put (k := ['k']) (n := ⟨[['a'], ['b']], 0⟩) ⟨?_, ?_, ?_⟩ <;> decide
  exact ⟨hm, load_snapshot compactJson_roundTrips hm ['k']⟩

end QwenStack.Manual
