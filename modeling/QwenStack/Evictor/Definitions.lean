import Mathlib.Data.List.Sort
import QwenStack.Support.Assoc
import QwenStack.Support.Double
import QwenStack.Support.Utf8

/-!
# Evictor — Definitions

`sglang/patches/0008-v6-scaled-evictor/lru_file_evictor.py`: the index of the files of the HiCache
file backend, and the eviction that bounds their size.

`_lru` and `_meta` are association lists in insertion order, `_pending_writes` is a list without
repetitions.  The target and the budget of a loop are computed in doubles, with `arithmetic` at
`double` (at `exact` in rationals, for what is said of these); the scores are exact rationals.  What
the operating system answers is an argument: the outcome of each `os.remove` of an eviction loop, the
results of `statvfs`, the directory listing, the size of a file, the clock.  An operation that evicts
also returns the stems it has passed to `on_evict`.

A locked section is one function; a call that locks twice (`touch`) is two.
-/

namespace QwenStack.Evictor
open Assoc

/-- A suffixed key, the stem of its file. -/
abbrev Key := Str

/-- `BASE_TTL_SECONDS`. -/
def baseTtlSeconds : ℚ := 7 * 86400

/-- `HIT_WEIGHT`. -/
def hitWeight : ℚ := 1 / 10

/-- The configuration `_load_config` leaves, and the identity of the rank. -/
structure Settings where
  maxSizeBytes : Nat
  minFreeBytes : Nat
  evictionRatio : ℚ
  ratio_pos : 0 < evictionRatio
  ratio_le : evictionRatio ≤ 1
  arithmetic : Arithmetic
  configSuffix : Str
  tpRank : Nat
  isMlaModel : Bool

/-- The fields of an evictor that do not change once it is constructed.  `maxSizeBytes` is the
clamped cap. -/
structure Config extends Settings where
  evictionConfigured : Bool
  isStorageOwner : Bool

/-- `_eviction_enabled`. -/
def Config.evictionEnabled (cfg : Config) : Bool := cfg.evictionConfigured && cfg.isStorageOwner

/-- The bookkeeping. -/
structure State where
  lru : List (Key × Nat)
  metaData : List (Key × ℚ × Nat)
  pendingWrites : List Key
  totalBytes : Int
  deriving DecidableEq, Repr

/-- The bookkeeping of an evictor without files. -/
def State.empty : State := ⟨[], [], [], 0⟩

/-- `move_to_end(k, last=True)`, for a key that is there. -/
def moveToEnd {β : Type} (k : Key) (m : List (Key × β)) : List (Key × β) :=
  match m.lookup k with
  | some v => del k m ++ [(k, v)]
  | none => m

/-- `_pending_writes.add(k)`. -/
def addPending (k : Key) (p : List Key) : List Key := if k ∈ p then p else k :: p

/-- `_pending_writes.discard(k)`. -/
def discardPending (k : Key) (p : List Key) : List Key := p.filter fun x => decide (x ≠ k)

/-! ### Eviction -/

/-- `_meta.get(k, (0.0, 0))`. -/
def metaOf (s : State) (k : Key) : ℚ × Nat := (s.metaData.lookup k).getD (0, 0)

/-- `_score`. -/
def score (s : State) (k : Key) : ℚ :=
  (metaOf s k).1 + baseTtlSeconds * (1 + hitWeight * (metaOf s k).2)

/-- The outcome of `os.remove`. -/
inductive RemoveOutcome where
  | removed
  | fileNotFound
  | osError
  deriving DecidableEq, Repr

/-- One entry of the heat scan. -/
def scanEntry (s : State) (best : Option (Key × Nat × ℚ)) (e : Key × Nat) :
    Option (Key × Nat × ℚ) :=
  if e.1 ∈ s.pendingWrites then best
  else
    match best with
    | none => some (e.1, e.2, score s e.1)
    | some (_, _, bestScore) =>
        if score s e.1 < bestScore then some (e.1, e.2, score s e.1) else best

/-- The heat scan over the 64 oldest entries: the victim and its size. -/
def victim (s : State) : Option (Key × Nat) :=
  ((s.lru.take 64).foldl (scanEntry s) none).map fun b => (b.1, b.2.1)

/-- What `_evict_one_lru_locked` returns. -/
inductive EvictOutcome where
  | evicted (stem : Key) (freed : Nat)
  | stop
  deriving DecidableEq, Repr

/-- `_evict_one_lru_locked`. -/
def evictOneLruLocked (remove : RemoveOutcome) (s : State) : State × EvictOutcome :=
  match victim s with
  | none => (s, .stop)
  | some (stem, size) =>
      let lru := del stem s.lru
      match remove with
      | .osError => ({ s with lru := (stem, size) :: lru }, .stop)
      | .removed =>
          ({ s with lru := lru, metaData := del stem s.metaData, totalBytes := s.totalBytes - size },
            .evicted stem size)
      | .fileNotFound =>
          ({ s with lru := lru, metaData := del stem s.metaData, totalBytes := s.totalBytes - size },
            .evicted stem 0)

/-- The loop of `_evict_while`, with `cap` evictions left after `evictions`: the bookkeeping and
the stems evicted.  `attempts_left` is the length of the index at the head of every iteration, and
no outcome is `"skipped"`, so its test repeats the one before it. -/
def evictWhile (shouldContinue : State → Nat → Bool) (remove : Nat → RemoveOutcome) :
    Nat → Nat → State → Nat → State × List Key
  | 0, _, s, _ => (s, [])
  | cap + 1, evictions, s, reclaimed =>
      if !s.lru.isEmpty && shouldContinue s reclaimed then
        match evictOneLruLocked (remove evictions) s with
        | (s, .stop) => (s, [])
        | (s, .evicted stem freed) =>
            let r := evictWhile shouldContinue remove cap (evictions + 1) s (reclaimed + freed)
            (r.1, stem :: r.2)
      else (s, [])

/-- `_eviction_cap_for`. -/
def evictionCapFor (arithmetic : Arithmetic) (neededBytes : Nat) (s : State) : Nat :=
  if neededBytes ≤ 2 ^ 20 then 256
  else if s.lru.length = 0 then 256
  else
    let avg := max 1 (s.totalBytes / s.lru.length)
    let want := ⌊arithmetic.round (arithmetic.round (neededBytes / avg) * (3 / 2))⌋.toNat + 8
    min 16384 (max 256 want)

/-- The size `_evict_locked` evicts down to. -/
def evictTarget (cfg : Settings) (neededBytes : Nat) : Int :=
  max 0 (⌊cfg.arithmetic.round (cfg.arithmetic.round cfg.maxSizeBytes * cfg.evictionRatio)⌋ - neededBytes)

/-- `_evict_locked`. -/
def evictLocked (cfg : Settings) (remove : Nat → RemoveOutcome) (neededBytes : Nat) (s : State) :
    State × List Key :=
  if cfg.maxSizeBytes = 0 then (s, [])
  else evictWhile (fun s _ => decide (evictTarget cfg neededBytes < s.totalBytes)) remove
    (evictionCapFor cfg.arithmetic neededBytes s) 0 s 0

/-- What the operating system answers to `_enforce_free_space_locked`; `none` is an `OSError`. -/
structure FreeSpace where
  fsBefore : Option (Nat × Nat)
  fsAfter : Option (Nat × Nat)
  remove : Nat → RemoveOutcome

/-- `_enforce_free_space_locked`. -/
def enforceFreeSpaceLocked (cfg : Settings) (os : FreeSpace) (valueBytes : Nat) (s : State) :
    State × List Key × Bool :=
  if cfg.minFreeBytes = 0 then (s, [], true)
  else
    match os.fsBefore with
    | none => (s, [], true)
    | some (_, free) =>
        let r := evictWhile
          (fun _ reclaimed => decide (((free + reclaimed : Nat) : Int) - valueBytes < cfg.minFreeBytes))
          os.remove (evictionCapFor cfg.arithmetic (valueBytes + cfg.minFreeBytes) s) 0 s 0
        match os.fsAfter with
        | none => (r.1, r.2, true)
        | some (_, free) => (r.1, r.2, decide ((cfg.minFreeBytes : Int) ≤ (free : Int) - valueBytes))

/-! ### The operations -/

/-- What the operating system answers to `reserve`. -/
structure ReserveEnv where
  remove : Nat → RemoveOutcome
  freeSpace : FreeSpace
  now : ℚ

/-- The end of `reserve`: the key is entered at MRU and flagged in flight. -/
def preReserve (key : Key) (valueBytes : Nat) (now : ℚ) (s : State) : State where
  lru := put key valueBytes (del key s.lru)
  metaData := put key (now, (metaOf s key).2) s.metaData
  pendingWrites := addPending key s.pendingWrites
  totalBytes := s.totalBytes - (s.lru.lookup key).getD 0 + valueBytes

/-- The cap-based part of `reserve`; `false` when the value still does not fit. -/
def admitSize (cfg : Settings) (remove : Nat → RemoveOutcome) (valueBytes : Nat) (s : State) :
    State × List Key × Bool :=
  if 0 < cfg.maxSizeBytes ∧ (cfg.maxSizeBytes : Int) < s.totalBytes + valueBytes then
    let r := evictLocked cfg remove valueBytes s
    (r.1, r.2, decide (r.1.totalBytes + valueBytes ≤ cfg.maxSizeBytes))
  else (s, [], true)

/-- `reserve`: the bookkeeping, the stems evicted, and whether the write is admitted. -/
def reserve (cfg : Config) (env : ReserveEnv) (key : Key) (valueBytes : Nat) (s : State) :
    State × List Key × Bool :=
  if !cfg.evictionConfigured then (s, [], true)
  else if !cfg.isStorageOwner then (s, [], false)
  else if 0 < cfg.maxSizeBytes ∧ cfg.maxSizeBytes < valueBytes then (s, [], false)
  else
    let (s, evicted, fits) := admitSize cfg.toSettings env.remove valueBytes s
    if !fits then (s, evicted, false)
    else
      let (s, evicted', free) := enforceFreeSpaceLocked cfg.toSettings env.freeSpace valueBytes s
      if !free then (s, evicted ++ evicted', false)
      else (preReserve key valueBytes env.now s, evicted ++ evicted', true)

/-- `commit`. -/
def commit (cfg : Config) (key : Key) (s : State) : State :=
  if !cfg.evictionEnabled then s
  else { s with pendingWrites := discardPending key s.pendingWrites }

/-- `abort`. -/
def abort (cfg : Config) (key : Key) (s : State) : State :=
  if !cfg.evictionEnabled then s
  else
    { lru := del key s.lru
      metaData := del key s.metaData
      pendingWrites := discardPending key s.pendingWrites
      totalBytes := s.totalBytes - (s.lru.lookup key).getD 0 }

/-- What both sections of `touch` do to a tracked key. -/
def bump (key : Key) (now : ℚ) (s : State) : State :=
  { s with
    lru := moveToEnd key s.lru
    metaData := put key (now, (metaOf s key).2 + 1) s.metaData }

/-- The first locked section of `touch`; a key that is not tracked is left for the second. -/
def touchTracked (cfg : Config) (key : Key) (now : ℚ) (s : State) : State :=
  if !cfg.evictionEnabled then s
  else if contains key s.lru then bump key now s
  else s

/-- The second locked section of `touch`, after `getsize` has answered `size`. -/
def touchAdopt (cfg : Config) (key : Key) (now : ℚ) (size : Nat) (s : State) : State :=
  if !cfg.evictionEnabled then s
  else if contains key s.lru then bump key now s
  else
    { s with
      lru := put key size s.lru
      totalBytes := s.totalBytes + size
      metaData := put key (now, 1) s.metaData }

/-- `clear`. -/
def clear (_ : State) : State := State.empty

/-! ### Construction -/

/-- One name of the directory, with what `os.stat` answers: `st_mtime` and `st_size`. -/
structure DirEntry where
  name : Str
  stat : Option (ℚ × Nat)
  deriving DecidableEq, Repr

/-- `os.listdir`: distinct names. -/
structure Listing where
  entries : List DirEntry
  distinct : (entries.map DirEntry.name).Nodup

/-- `".bin"`. -/
def binExt : Str := ['.', 'b', 'i', 'n']

/-- A file of this rank, as `(mtime, stem, size)`. -/
def scanFile (configSuffix : Str) (e : DirEntry) : Option (ℚ × Key × Nat) :=
  if !binExt.isSuffixOf e.name then none
  else
    let stem := e.name.take (e.name.length - 4)
    if !configSuffix.isSuffixOf stem then none
    else e.stat.map fun (mtime, size) => (mtime, stem, size)

/-- `_scan_existing_files`; `none` is a directory that does not exist. -/
def scanExistingFiles (configSuffix : Str) (names : Option Listing) (s : State) : State :=
  match names with
  | none => s
  | some listing =>
      let entries := (listing.entries.filterMap (scanFile configSuffix)).insertionSort
        fun a b => a.1 ≤ b.1
      entries.foldl (fun s (mtime, stem, size) =>
        { s with
          lru := put stem size s.lru
          totalBytes := s.totalBytes + size
          metaData := put stem (mtime, 0) s.metaData }) s

/-- What the operating system answers to the constructor. -/
structure InitEnv where
  fs : Option (Nat × Nat)
  names : Option Listing
  remove : Nat → RemoveOutcome
  freeSpace : FreeSpace

/-- The fields `__init__` sets before the scan: the flags, and the cap clamped to the capacity of
the filesystem. -/
def configure (st : Settings) (fs : Option (Nat × Nat)) : Config :=
  let evictionConfigured := decide (0 < st.maxSizeBytes) || decide (0 < st.minFreeBytes)
  let isStorageOwner := !st.isMlaModel || decide (st.tpRank = 0)
  let maxSizeBytes :=
    if !(evictionConfigured && isStorageOwner) then st.maxSizeBytes
    else
      match fs with
      | none => st.maxSizeBytes
      | some (total, _) =>
          if 0 < st.maxSizeBytes then min st.maxSizeBytes (total - st.minFreeBytes)
          else st.maxSizeBytes
  { st with maxSizeBytes, evictionConfigured, isStorageOwner }

/-- The eviction of `__init__` for the cap. -/
def initCap (cfg : Config) (remove : Nat → RemoveOutcome) (s : State) : State × List Key :=
  if 0 < cfg.maxSizeBytes ∧ (cfg.maxSizeBytes : Int) < s.totalBytes then
    evictLocked cfg.toSettings remove 0 s
  else (s, [])

/-- The locked section of `__init__`, on the scanned files: the bookkeeping, and the stems evicted
for the cap and for the free space. -/
def initEvict (cfg : Config) (env : InitEnv) (s : State) : State × List Key × List Key :=
  let r := initCap cfg env.remove s
  if 0 < cfg.minFreeBytes then
    let r' := enforceFreeSpaceLocked cfg.toSettings env.freeSpace 0 r.1
    (r'.1, r.2, r'.2.1)
  else (r.1, r.2, [])

/-- `__init__`. -/
def init (cfg : Config) (env : InitEnv) : State × List Key × List Key :=
  if !cfg.evictionEnabled then (State.empty, [], [])
  else initEvict cfg env (scanExistingFiles cfg.configSuffix env.names State.empty)

/-! ### Runs -/

/-- One locked section of one call. -/
inductive Section where
  | reserve (env : ReserveEnv) (key : Key) (valueBytes : Nat)
  | commit (key : Key)
  | abort (key : Key)
  | touchTracked (key : Key) (now : ℚ)
  | touchAdopt (key : Key) (now : ℚ) (size : Nat)
  | clear

/-- The bookkeeping after a locked section. -/
def step (cfg : Config) (s : State) : Section → State
  | .reserve env key valueBytes => (reserve cfg env key valueBytes s).1
  | .commit key => commit cfg key s
  | .abort key => abort cfg key s
  | .touchTracked key now => touchTracked cfg key now s
  | .touchAdopt key now size => touchAdopt cfg key now size s
  | .clear => clear s

/-- The bookkeeping after a sequence of locked sections.  Every interleaving of calls is one. -/
def run (cfg : Config) (s : State) (sections : List Section) : State :=
  sections.foldl (step cfg) s

end QwenStack.Evictor
