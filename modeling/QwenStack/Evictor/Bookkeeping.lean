import QwenStack.Evictor.Definitions

/-!
# Evictor — the bookkeeping invariant

`Bookkept`: the total is the sum of the sizes in the index, the index and the heat metadata have the
same keys, every in-flight write is in the index, and no key occurs twice.

All the evictions of the code go through one loop, whose body drops a victim or, when the unlink
fails, puts it back in front.  `EvictRule` is what an invariant has to survive to survive every
eviction of every operation; `reserve_cases` says what is left of `reserve` beside its evictions.
-/

namespace QwenStack.Evictor
open Assoc List

section
variable {s s' : State} {cfg : Config} {k stem : Key} {n size : Nat} {now : ℚ}

/-! ### The victim -/

/-- The best entry so far is an entry of the index that is not in flight. -/
theorem scan_spec (s : State) {l : List (Key × Nat)} (hl : l ⊆ s.lru) :
    ∀ b, l.foldl (scanEntry s) none = some b → (b.1, b.2.1) ∈ s.lru ∧ b.1 ∉ s.pendingWrites := by
  suffices ∀ (l : List (Key × Nat)) (best : Option (Key × Nat × ℚ)), l ⊆ s.lru →
      (∀ b, best = some b → (b.1, b.2.1) ∈ s.lru ∧ b.1 ∉ s.pendingWrites) →
      ∀ b, l.foldl (scanEntry s) best = some b → (b.1, b.2.1) ∈ s.lru ∧ b.1 ∉ s.pendingWrites from
    this l none hl (fun _ h => nomatch h)
  intro l
  induction l with
  | nil => exact fun best _ h => h
  | cons e l ih =>
    intro best hl h
    rw [foldl_cons]
    refine ih _ (fun x hx => hl (mem_cons_of_mem _ hx)) fun b hb => ?_
    unfold scanEntry at hb
    split at hb
    · exact h b hb
    · next hp =>
      split at hb
      · cases hb
        exact ⟨hl mem_cons_self, hp⟩
      · split at hb
        · cases hb
          exact ⟨hl mem_cons_self, hp⟩
        · exact h b hb

/-- **The victim** is an entry of the index that is not in flight. -/
theorem victim_spec (h : victim s = some (stem, size)) :
    (stem, size) ∈ s.lru ∧ stem ∉ s.pendingWrites := by
  obtain ⟨b, hb, hbe⟩ := Option.map_eq_some_iff.mp h
  cases hbe
  exact scan_spec s (take_subset _ _) b hb

/-! ### The rule for evictions -/

/-- The bookkeeping after the victim has been dropped. -/
def dropEntry (stem : Key) (size : Nat) (s : State) : State :=
  { s with
    lru := del stem s.lru
    metaData := del stem s.metaData
    totalBytes := s.totalBytes - size }

/-- The bookkeeping after the unlink has failed: the victim is back, in front. -/
def repin (stem : Key) (size : Nat) (s : State) : State :=
  { s with lru := (stem, size) :: del stem s.lru }

/-- What `_evict_one_lru_locked` does. -/
theorem evictOneLruLocked_cases (remove : RemoveOutcome) (s : State) :
    (victim s = none ∧ evictOneLruLocked remove s = (s, .stop)) ∨
    ∃ stem size, victim s = some (stem, size) ∧
      ((remove = .osError ∧ evictOneLruLocked remove s = (repin stem size s, .stop)) ∨
        (remove ≠ .osError ∧ ∃ freed,
          evictOneLruLocked remove s = (dropEntry stem size s, .evicted stem freed))) := by
  cases h : victim s with
  | none => exact .inl ⟨rfl, by simp only [evictOneLruLocked, h]⟩
  | some e =>
    obtain ⟨stem, size⟩ := e
    refine .inr ⟨stem, size, rfl, ?_⟩
    cases remove with
    | osError => exact .inl ⟨rfl, by simp only [evictOneLruLocked, h]; rfl⟩
    | removed => exact .inr ⟨by simp, size, by simp only [evictOneLruLocked, h]; rfl⟩
    | fileNotFound => exact .inr ⟨by simp, 0, by simp only [evictOneLruLocked, h]; rfl⟩

/-- `I` survives evictions, and `L` holds of every stem evicted.  `ok` are the outcomes of
`os.remove` that are considered. -/
structure EvictRule (ok : RemoveOutcome → Prop) (I : State → Prop) (L : Key → Prop) : Prop where
  drop : ∀ {s : State} {stem : Key} {size : Nat}, I s → victim s = some (stem, size) →
    I (dropEntry stem size s) ∧ L stem
  repin : ok .osError → ∀ {s : State} {stem : Key} {size : Nat}, I s →
    victim s = some (stem, size) → I (repin stem size s)

variable {ok : RemoveOutcome → Prop} {I : State → Prop} {L : Key → Prop}

theorem EvictRule.evictWhile (hR : EvictRule ok I L) {cont : State → Nat → Bool}
    {remove : Nat → RemoveOutcome} (hok : ∀ i, ok (remove i)) :
    ∀ (cap evictions : Nat) (s : State) (reclaimed : Nat), I s →
      I (evictWhile cont remove cap evictions s reclaimed).1 ∧
        ∀ x ∈ (evictWhile cont remove cap evictions s reclaimed).2, L x := by
  intro cap
  induction cap with
  | zero => exact fun _ s _ h => ⟨h, by simp [Evictor.evictWhile]⟩
  | succ cap ih =>
    intro evictions s reclaimed h
    rw [Evictor.evictWhile]
    split
    · rcases evictOneLruLocked_cases (remove evictions) s with
        ⟨-, e⟩ | ⟨stem, size, hv, ⟨ho, e⟩ | ⟨-, freed, e⟩⟩
      · rw [e]
        exact ⟨h, by simp⟩
      · rw [e]
        exact ⟨hR.repin (ho ▸ hok evictions) h hv, by simp⟩
      · rw [e]
        obtain ⟨hd, hl⟩ := hR.drop h hv
        obtain ⟨h₁, h₂⟩ := ih (evictions + 1) _ (reclaimed + freed) hd
        exact ⟨h₁, List.forall_mem_cons.mpr ⟨hl, h₂⟩⟩
    · exact ⟨h, by simp⟩

theorem EvictRule.evictLocked (hR : EvictRule ok I L) {cfg : Settings}
    {remove : Nat → RemoveOutcome} (hok : ∀ i, ok (remove i)) (n : Nat) (h : I s) :
    I (evictLocked cfg remove n s).1 ∧ ∀ x ∈ (evictLocked cfg remove n s).2, L x := by
  rw [Evictor.evictLocked]
  split
  · exact ⟨h, by simp⟩
  · exact hR.evictWhile hok _ _ _ _ h

theorem EvictRule.admitSize (hR : EvictRule ok I L) (cfg : Settings)
    {remove : Nat → RemoveOutcome} (hok : ∀ i, ok (remove i)) (n : Nat) (h : I s) :
    I (admitSize cfg remove n s).1 ∧ ∀ x ∈ (admitSize cfg remove n s).2.1, L x := by
  rw [Evictor.admitSize]
  split
  · exact hR.evictLocked hok n h
  · exact ⟨h, by simp⟩

theorem EvictRule.enforceFreeSpaceLocked (hR : EvictRule ok I L) (cfg : Settings) {os : FreeSpace}
    (hok : ∀ i, ok (os.remove i)) (n : Nat) (h : I s) :
    I (enforceFreeSpaceLocked cfg os n s).1 ∧ ∀ x ∈ (enforceFreeSpaceLocked cfg os n s).2.1, L x := by
  rw [Evictor.enforceFreeSpaceLocked]
  split
  · exact ⟨h, by simp⟩
  · split
    · exact ⟨h, by simp⟩
    · split <;> exact hR.evictWhile hok _ _ _ _ h

/-- The outcomes of `os.remove` in a call are all considered. -/
def ReserveEnv.Meets (ok : RemoveOutcome → Prop) (env : ReserveEnv) : Prop :=
  (∀ i, ok (env.remove i)) ∧ ∀ i, ok (env.freeSpace.remove i)

/-- **`reserve`** on an enabled evictor evicts, and then refuses or enters the key. -/
theorem EvictRule.reserve_cases (hR : EvictRule ok I L) {env : ReserveEnv} (henv : env.Meets ok)
    (he : cfg.evictionEnabled = true) (k : Key) (n : Nat) (h : I s) :
    ∃ s' evicted, I s' ∧ (∀ x ∈ evicted, L x) ∧ (reserve cfg env k n s = (s', evicted, false) ∨
        reserve cfg env k n s = (preReserve k n env.now s', evicted, true)) := by
  rw [Config.evictionEnabled, Bool.and_eq_true] at he
  obtain ⟨h₁, l₁⟩ := hR.admitSize cfg.toSettings henv.1 n h
  obtain ⟨h₂, l₂⟩ := hR.enforceFreeSpaceLocked cfg.toSettings henv.2 n h₁
  simp only [reserve, he.1, he.2, Bool.not_true, Bool.false_eq_true, if_false]
  split
  · exact ⟨s, [], h, by simp, .inl rfl⟩
  · split
    · exact ⟨_, _, h₁, l₁, .inl rfl⟩
    · have hl : ∀ x ∈ (Evictor.admitSize cfg.toSettings env.remove n s).2.1 ++
          (Evictor.enforceFreeSpaceLocked cfg.toSettings env.freeSpace n
            (Evictor.admitSize cfg.toSettings env.remove n s).1).2.1, L x :=
        fun x hx => (List.mem_append.mp hx).elim (l₁ x) (l₂ x)
      split
      · exact ⟨_, _, h₂, hl, .inl rfl⟩
      · exact ⟨_, _, h₂, hl, .inr rfl⟩

theorem reserve_disabled {env : ReserveEnv} (he : cfg.evictionEnabled = false) :
    (reserve cfg env k n s).1 = s := by
  rw [Config.evictionEnabled, Bool.and_eq_false_iff] at he
  rw [reserve]
  rcases he with he | he
  · simp [he]
  · by_cases hc : cfg.evictionConfigured = true <;> simp [hc, he]

theorem EvictRule.initEvict (hR : EvictRule ok I L) {env : InitEnv} (h₁ : ∀ i, ok (env.remove i))
    (h₂ : ∀ i, ok (env.freeSpace.remove i)) (h : I s) : I (initEvict cfg env s).1 := by
  have hcap : I (initCap cfg env.remove s).1 := by
    rw [initCap]
    split
    · exact (hR.evictLocked h₁ 0 h).1
    · exact h
  simp only [Evictor.initEvict]
  split
  · exact (hR.enforceFreeSpaceLocked cfg.toSettings h₂ 0 hcap).1
  · exact hcap

/-! ### The invariant -/

/-- **The bookkeeping invariant.** -/
structure Bookkept (s : State) : Prop where
  total : s.totalBytes = (Assoc.total s.lru : Nat)
  keys_iff : ∀ k, k ∈ keys s.lru ↔ k ∈ keys s.metaData
  pending_sub : ∀ k ∈ s.pendingWrites, k ∈ keys s.lru
  lru_nodup : (keys s.lru).Nodup
  meta_nodup : (keys s.metaData).Nodup
  pending_nodup : s.pendingWrites.Nodup

theorem bookkept_empty : Bookkept State.empty :=
  ⟨rfl, fun _ => Iff.rfl, by simp [State.empty], nodup_nil, nodup_nil, nodup_nil⟩

/-- The size of a tracked key. -/
theorem Bookkept.total_del (hB : Bookkept s) (k : Key) :
    s.totalBytes - (s.lru.lookup k).getD 0 = (Assoc.total (del k s.lru) : Nat) := by
  have := Assoc.total_del (k := k) hB.lru_nodup
  rw [hB.total]
  omega

theorem Bookkept.lookup_victim (hB : Bookkept s) (h : victim s = some (stem, size)) :
    s.lru.lookup stem = some size :=
  lookup_of_mem hB.lru_nodup (victim_spec h).1

/-- **Evictions keep the invariant**, whether the unlinks succeed or not. -/
theorem evictRule_bookkept : EvictRule (fun _ => True) Bookkept (fun _ => True) where
  drop := by
    intro s stem size hB hv
    refine ⟨⟨?_, ?_, ?_, nodup_keys_del hB.lru_nodup, nodup_keys_del hB.meta_nodup,
      hB.pending_nodup⟩, trivial⟩
    · have := hB.total_del stem
      rw [hB.lookup_victim hv] at this
      exact this
    · intro x
      simp only [dropEntry, mem_keys_del, hB.keys_iff]
    · intro x hx
      refine mem_keys_del.mpr ⟨?_, hB.pending_sub x hx⟩
      rintro rfl
      exact (victim_spec hv).2 hx
  repin := by
    intro _ s stem size hB hv
    have hlook := hB.lookup_victim hv
    have hmem : stem ∈ keys s.lru := mem_keys_iff.mpr ⟨size, hlook⟩
    have hkeys : ∀ x, x ∈ keys (Evictor.repin stem size s).lru ↔ x ∈ keys s.lru := by
      intro x
      simp only [Evictor.repin, Assoc.keys_cons, mem_cons, mem_keys_del]
      by_cases hx : x = stem <;> simp [hx, hmem]
    refine ⟨?_, fun x => (hkeys x).trans (hB.keys_iff x),
      fun x hx => (hkeys x).mpr (hB.pending_sub x hx),
      ?_, hB.meta_nodup, hB.pending_nodup⟩
    · have := Assoc.total_del (k := stem) hB.lru_nodup
      rw [hlook] at this
      simp only [Evictor.repin, total_cons, hB.total]
      simp only [Option.getD_some] at this
      omega
    · simp only [Evictor.repin, Assoc.keys_cons, nodup_cons, mem_keys_del]
      exact ⟨by simp, nodup_keys_del hB.lru_nodup⟩

/-! ### The operations -/

theorem mem_addPending {x k : Key} {p : List Key} : x ∈ addPending k p ↔ x = k ∨ x ∈ p := by
  rw [addPending]
  split
  · next h =>
    refine ⟨.inr, ?_⟩
    rintro (rfl | hx)
    · exact h
    · exact hx
  · exact mem_cons

theorem nodup_addPending {k : Key} {p : List Key} (h : p.Nodup) : (addPending k p).Nodup := by
  rw [addPending]
  split
  · exact h
  · next hk => exact List.nodup_cons.mpr ⟨hk, h⟩

theorem mem_discardPending {x k : Key} {p : List Key} :
    x ∈ discardPending k p ↔ x ∈ p ∧ x ≠ k := by
  simp [discardPending]

theorem Bookkept.preReserve (hB : Bookkept s) (k : Key) (n : Nat) (now : ℚ) :
    Bookkept (preReserve k n now s) := by
  have hk : k ∉ keys (del k s.lru) := fun h => (mem_keys_del.mp h).1 rfl
  refine ⟨?_, ?_, ?_, ?_, nodup_keys_put hB.meta_nodup, nodup_addPending hB.pending_nodup⟩
  · have := hB.total_del k
    simp only [Evictor.preReserve, put_of_not_mem hk, total_append, total_cons, total_nil]
    omega
  · intro x
    simp only [Evictor.preReserve, mem_keys_put, mem_keys_del, ← hB.keys_iff]
    by_cases hx : x = k <;> simp [hx]
  · intro x hx
    simp only [Evictor.preReserve, mem_keys_put, mem_keys_del]
    rcases mem_addPending.mp hx with rfl | hx
    · exact .inl rfl
    · by_cases hxk : x = k
      · exact .inl hxk
      · exact .inr ⟨hxk, hB.pending_sub x hx⟩
  · exact nodup_keys_put (nodup_keys_del hB.lru_nodup)

theorem Bookkept.reserve (hB : Bookkept s) (cfg : Config) (env : ReserveEnv) (k : Key) (n : Nat) :
    Bookkept (reserve cfg env k n s).1 := by
  cases he : cfg.evictionEnabled with
  | false => rwa [reserve_disabled he]
  | true =>
    have henv : env.Meets fun _ => True := ⟨fun _ => trivial, fun _ => trivial⟩
    obtain ⟨s', evicted, hB', -, e | e⟩ := evictRule_bookkept.reserve_cases henv he k n hB
    · rwa [e]
    · rw [e]
      exact hB'.preReserve k n env.now

theorem Bookkept.abort (hB : Bookkept s) (cfg : Config) (k : Key) :
    Bookkept (abort cfg k s) := by
  rw [Evictor.abort]
  split
  · exact hB
  · refine ⟨hB.total_del k, ?_, ?_, nodup_keys_del hB.lru_nodup, nodup_keys_del hB.meta_nodup,
      hB.pending_nodup.filter _⟩
    · intro x
      simp only [mem_keys_del, hB.keys_iff]
    · intro x hx
      obtain ⟨hx, hxk⟩ := mem_discardPending.mp hx
      exact mem_keys_del.mpr ⟨hxk, hB.pending_sub x hx⟩

theorem Bookkept.commit (hB : Bookkept s) (cfg : Config) (k : Key) :
    Bookkept (commit cfg k s) := by
  rw [Evictor.commit]
  split
  · exact hB
  · exact { hB with
      pending_sub := fun x hx => hB.pending_sub x (mem_discardPending.mp hx).1
      pending_nodup := hB.pending_nodup.filter _ }

theorem mem_keys_moveToEnd {β : Type} {x k : Key} {m : List (Key × β)} :
    x ∈ keys (moveToEnd k m) ↔ x ∈ keys m := by
  rw [moveToEnd]
  split
  · next v hv =>
    simp only [Assoc.keys_append, mem_append, mem_keys_del, Assoc.keys_cons, Assoc.keys_nil, mem_singleton]
    by_cases hx : x = k
    · subst hx
      simp [mem_keys_iff, hv]
    · simp [hx]
  · exact Iff.rfl

section
variable (hB : Bookkept s)
include hB

theorem Bookkept.bump (hk : k ∈ keys s.lru) (now : ℚ) : Bookkept (bump k now s) := by
  obtain ⟨v, hv⟩ := mem_keys_iff.mp hk
  have hmove : moveToEnd k s.lru = del k s.lru ++ [(k, v)] := by simp only [moveToEnd, hv]
  refine ⟨?_, ?_, fun x hx => mem_keys_moveToEnd.mpr (hB.pending_sub x hx), ?_,
    nodup_keys_put hB.meta_nodup, hB.pending_nodup⟩
  · have := Assoc.total_del (k := k) hB.lru_nodup
    rw [hv, Option.getD_some] at this
    simp only [Evictor.bump, hmove, total_append, total_cons, total_nil, hB.total]
    omega
  · intro x
    simp only [Evictor.bump, mem_keys_moveToEnd, mem_keys_put, ← hB.keys_iff]
    by_cases hx : x = k <;> simp [hx, hk]
  · simp only [Evictor.bump, hmove, Assoc.keys_append, Assoc.keys_cons, Assoc.keys_nil]
    refine List.nodup_append.mpr ⟨nodup_keys_del hB.lru_nodup, by simp, ?_⟩
    intro a ha b hb
    rw [List.mem_singleton.mp hb]
    exact (mem_keys_del.mp ha).1

theorem Bookkept.touchTracked (cfg : Config) (k : Key) (now : ℚ) :
    Bookkept (touchTracked cfg k now s) := by
  rw [Evictor.touchTracked]
  split
  · exact hB
  · split
    · next hk => exact hB.bump (contains_iff.mp hk) now
    · exact hB

/-- A new entry: an adopted file, or one of the scan. -/
theorem Bookkept.enter (hk : k ∉ keys s.lru) (size : Nat) (h : ℚ × Nat) : Bookkept { s with
      lru := put k size s.lru
      totalBytes := s.totalBytes + size
      metaData := put k h s.metaData } := by
  refine ⟨?_, ?_, fun x hx => mem_keys_put.mpr (.inr (hB.pending_sub x hx)),
    nodup_keys_put hB.lru_nodup, nodup_keys_put hB.meta_nodup, hB.pending_nodup⟩
  · simp only [put_of_not_mem hk, total_append, total_cons, total_nil, hB.total]
    omega
  · intro x
    simp only [mem_keys_put, hB.keys_iff]

theorem Bookkept.touchAdopt (cfg : Config) (k : Key) (now : ℚ) (size : Nat) :
    Bookkept (touchAdopt cfg k now size s) := by
  rw [Evictor.touchAdopt]
  split
  · exact hB
  · split
    · next hk => exact hB.bump (contains_iff.mp hk) now
    · next hk => exact hB.enter (fun h => hk (contains_iff.mpr h)) size (now, 1)

/-- **One locked section keeps the invariant.** -/
theorem Bookkept.step (cfg : Config) (a : Section) : Bookkept (step cfg s a) := by
  cases a with
  | reserve env key valueBytes => exact hB.reserve cfg env key valueBytes
  | commit key => exact hB.commit cfg key
  | abort key => exact hB.abort cfg key
  | touchTracked key now => exact hB.touchTracked cfg key now
  | touchAdopt key now size => exact hB.touchAdopt cfg key now size
  | clear => exact bookkept_empty

theorem Bookkept.run (cfg : Config) (sections : List Section) : Bookkept (run cfg s sections) := by
  induction sections generalizing s with
  | nil => exact hB
  | cons a sections ih => exact ih (hB.step cfg a)

end

/-! ### The scan -/

theorem scanFile_name {configSuffix : Str} {e : DirEntry} {f : ℚ × Key × Nat}
    (h : scanFile configSuffix e = some f) : e.name = f.2.1 ++ binExt := by
  rw [scanFile] at h
  split at h
  · cases h
  · next hbin =>
    simp only [Bool.not_eq_true', Bool.not_eq_false] at hbin
    simp only at h
    split at h
    · cases h
    · obtain ⟨st, -, rfl⟩ := Option.map_eq_some_iff.mp h
      obtain ⟨pre, hpre⟩ := List.isSuffixOf_iff_suffix.mp hbin
      rw [← hpre]
      simp [binExt]

/-- The files of one listing have distinct stems. -/
theorem scan_distinct (configSuffix : Str) (listing : Listing) :
    ((listing.entries.filterMap (scanFile configSuffix)).map fun f => f.2.1).Nodup := by
  have hd := List.pairwise_map.mp listing.distinct
  refine List.pairwise_map.mpr (hd.filterMap _ fun a a' hne f hf f' hf' heq => hne ?_)
  rw [scanFile_name hf, scanFile_name hf', heq]

/-- The files of a scan enter one by one. -/
theorem bookkept_foldl (files : List (ℚ × Key × Nat)) {s : State} (hB : Bookkept s)
    (hnd : (keys s.lru ++ files.map fun f => f.2.1).Nodup) :
    Bookkept (files.foldl (fun s (mtime, stem, size) =>
      { s with
        lru := put stem size s.lru
        totalBytes := s.totalBytes + size
        metaData := put stem (mtime, 0) s.metaData }) s) := by
  induction files generalizing s with
  | nil => exact hB
  | cons f files ih =>
    have hf : f.2.1 ∉ keys s.lru := fun h =>
      (List.nodup_append.mp hnd).2.2 _ h _ mem_cons_self rfl
    refine ih (hB.enter hf f.2.2 (f.1, 0)) ?_
    simp only [keys_put, if_neg hf]
    rw [append_assoc]
    exact hnd

theorem bookkept_scan (configSuffix : Str) (names : Option Listing) :
    Bookkept (scanExistingFiles configSuffix names State.empty) := by
  cases names with
  | none => exact bookkept_empty
  | some listing =>
    refine bookkept_foldl _ bookkept_empty ?_
    have hperm := ((listing.entries.filterMap (scanFile configSuffix)).perm_insertionSort
      fun a b => a.1 ≤ b.1).map fun f => f.2.1
    exact (hperm.nodup_iff).mpr (scan_distinct configSuffix listing)

theorem bookkept_init (cfg : Config) (env : InitEnv) : Bookkept (init cfg env).1 := by
  rw [init]
  split
  · exact bookkept_empty
  · exact evictRule_bookkept.initEvict (fun _ => trivial) (fun _ => trivial)
      (bookkept_scan cfg.configSuffix env.names)

/-- **The bookkeeping is right in every state**: after any sequence of locked sections, from the
files found by the scan or from what `__init__` leaves of them, whatever the operating system
answers. -/
theorem run_bookkept (st : Settings) (env : InitEnv) (sections : List Section) :
    let cfg := configure st env.fs
    Bookkept (run cfg (scanExistingFiles cfg.configSuffix env.names State.empty) sections) ∧
      Bookkept (run cfg (init cfg env).1 sections) :=
  ⟨(bookkept_scan _ env.names).run _ sections, (bookkept_init _ env).run _ sections⟩

end

end QwenStack.Evictor
