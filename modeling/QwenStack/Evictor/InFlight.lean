import QwenStack.Evictor.Bookkeeping
import QwenStack.Support.Runs

/-!
# Evictor — in-flight writes

Writers and readers over one evictor.  A writer calls `reserve` and, once admitted, is in flight
until it calls `commit` or `abort`; several writers may use one key.  `World` adds to the
bookkeeping which writers are in flight, and on what.

The flag of an in-flight write is a set of keys, not a count.  It protects a writer until the first
`commit` or `abort` of its key, by whichever writer: `play_protects_iff` says that every writer is
protected throughout exactly when no writer ends while another is in flight on the same key.
-/

namespace QwenStack.Evictor
open Assoc

/-- The bookkeeping and the writers in flight, each with its key. -/
structure World where
  state : State
  writing : List (Nat × Key)
  deriving DecidableEq, Repr

/-- A locked section of a writer or a reader. -/
inductive Act where
  | reserve (writer : Nat) (env : ReserveEnv) (key : Key) (valueBytes : Nat)
  | commit (writer : Nat)
  | abort (writer : Nat)
  | touchTracked (key : Key) (now : ℚ)
  | touchAdopt (key : Key) (now : ℚ) (size : Nat)

/-- One locked section; `none` when the writer is not in the position to take it. -/
def act (cfg : Config) (w : World) : Act → Option World
  | .reserve writer env key valueBytes =>
      if contains writer w.writing then none
      else
        let r := reserve cfg env key valueBytes w.state
        some ⟨r.1, if r.2.2 then put writer key w.writing else w.writing⟩
  | .commit writer =>
      (w.writing.lookup writer).map fun key => ⟨commit cfg key w.state, del writer w.writing⟩
  | .abort writer =>
      (w.writing.lookup writer).map fun key => ⟨abort cfg key w.state, del writer w.writing⟩
  | .touchTracked key now => some { w with state := touchTracked cfg key now w.state }
  | .touchAdopt key now size => some { w with state := touchAdopt cfg key now size w.state }

/-- A sequence of locked sections. -/
def play (cfg : Config) (w : World) (acts : List Act) : Option World :=
  Runs.exec (act cfg) w acts

/-- The key is in the index and flagged in flight. -/
def Held (s : State) (key : Key) : Prop := key ∈ keys s.lru ∧ key ∈ s.pendingWrites

/-- Every writer in flight holds its key. -/
def Protected (w : World) : Prop := ∀ writer key, w.writing.lookup writer = some key → Held w.state key

/-- Along a run every writer in flight holds its key, and no eviction takes a key that is in
flight. -/
structure Protects (cfg : Config) (w₀ : World) (acts : List Act) : Prop where
  held : ∀ j w, play cfg w₀ (acts.take j) = some w → Protected w
  spared : ∀ j w writer env key n, play cfg w₀ (acts.take j) = some w →
    acts[j]? = some (.reserve writer env key n) →
    ∀ stem ∈ (reserve cfg env key n w.state).2.1, ∀ other, w.writing.lookup other ≠ some stem

/-- No writer commits or aborts while another one is in flight on the same key. -/
def EndsAlone (cfg : Config) (w₀ : World) (acts : List Act) : Prop :=
  ∀ j w writer, play cfg w₀ (acts.take j) = some w →
    acts[j]? = some (.commit writer) ∨ acts[j]? = some (.abort writer) →
    ∀ key, w.writing.lookup writer = some key →
    ∀ other, other ≠ writer → w.writing.lookup other ≠ some key

section
variable {cfg : Config} {s : State} {w w' : World} {k key : Key} {n : Nat}

/-! ### What keeps a key held -/

theorem evictRule_held (key : Key) :
    EvictRule (fun _ => True) (fun s => Held s key) (fun stem => stem ≠ key) where
  drop := by
    rintro s stem size ⟨hl, hp⟩ hv
    have hne : stem ≠ key := by
      rintro rfl
      exact (victim_spec hv).2 hp
    exact ⟨⟨mem_keys_del.mpr ⟨hne.symm, hl⟩, hp⟩, hne⟩
  repin := by
    rintro _ s stem size ⟨hl, hp⟩ -
    refine ⟨?_, hp⟩
    simp only [repin, keys_cons, List.mem_cons, mem_keys_del]
    by_cases h : key = stem
    · exact .inl h
    · exact .inr ⟨h, hl⟩

theorem held_preReserve_self (k : Key) (n : Nat) (now : ℚ) (s : State) :
    Held (preReserve k n now s) k :=
  ⟨mem_keys_put.mpr (.inl rfl), mem_addPending.mpr (.inl rfl)⟩

theorem Held.preReserve (h : Held s key) (k : Key) (n : Nat) (now : ℚ) :
    Held (preReserve k n now s) key := by
  refine ⟨mem_keys_put.mpr ?_, mem_addPending.mpr (.inr h.2)⟩
  by_cases hk : key = k
  · exact .inl hk
  · exact .inr (mem_keys_del.mpr ⟨hk, h.1⟩)

theorem reserveEnv_meets (env : ReserveEnv) : env.Meets (fun _ => True) :=
  ⟨fun _ => trivial, fun _ => trivial⟩

/-- A held key stays held through a `reserve`, which does not evict it. -/
theorem Held.reserve (h : Held s key) (he : cfg.evictionEnabled = true) (env : ReserveEnv) (k : Key)
    (n : Nat) :
    Held (reserve cfg env k n s).1 key ∧ ∀ stem ∈ (reserve cfg env k n s).2.1, stem ≠ key := by
  obtain ⟨s', evicted, h', hl, e | e⟩ := (evictRule_held key).reserve_cases
    (reserveEnv_meets env) he k n h
  · rw [e]
    exact ⟨h', hl⟩
  · rw [e]
    exact ⟨h'.preReserve k n env.now, hl⟩

/-- An admitted `reserve` holds its key. -/
theorem reserve_admitted (he : cfg.evictionEnabled = true) {env : ReserveEnv}
    (ha : (reserve cfg env k n s).2.2 = true) : Held (reserve cfg env k n s).1 k := by
  have rule : EvictRule (fun _ => True) (fun _ => True) (fun _ => True) :=
    ⟨fun _ _ => ⟨trivial, trivial⟩, fun _ _ _ _ _ _ => trivial⟩
  obtain ⟨s', evicted, -, -, e | e⟩ := rule.reserve_cases (s := s) (reserveEnv_meets env) he k n trivial
  · rw [e] at ha
    cases ha
  · rw [e]
    exact held_preReserve_self k n env.now s'

theorem Held.commit (h : Held s key) (hne : key ≠ k) : Held (commit cfg k s) key := by
  rw [Evictor.commit]
  split
  · exact h
  · exact ⟨h.1, mem_discardPending.mpr ⟨h.2, hne⟩⟩

theorem Held.abort (h : Held s key) (hne : key ≠ k) : Held (abort cfg k s) key := by
  rw [Evictor.abort]
  split
  · exact h
  · exact ⟨mem_keys_del.mpr ⟨hne, h.1⟩, mem_discardPending.mpr ⟨h.2, hne⟩⟩

theorem Held.bump (h : Held s key) (k : Key) (now : ℚ) : Held (bump k now s) key :=
  ⟨mem_keys_moveToEnd.mpr h.1, h.2⟩

theorem Held.touchTracked (h : Held s key) (k : Key) (now : ℚ) :
    Held (touchTracked cfg k now s) key := by
  rw [Evictor.touchTracked]
  split
  · exact h
  · split
    · exact h.bump k now
    · exact h

theorem Held.touchAdopt (h : Held s key) (k : Key) (now : ℚ) (size : Nat) :
    Held (touchAdopt cfg k now size s) key := by
  rw [Evictor.touchAdopt]
  split
  · exact h
  · split
    · exact h.bump k now
    · exact ⟨mem_keys_put.mpr (.inr h.1), h.2⟩

/-- After a `commit` or an `abort` the key is not held. -/
theorem not_held_commit (he : cfg.evictionEnabled = true) : ¬ Held (commit cfg k s) k := by
  rintro ⟨-, hp⟩
  simp only [commit, he, Bool.not_true, Bool.false_eq_true, if_false] at hp
  exact (mem_discardPending.mp hp).2 rfl

theorem not_held_abort (he : cfg.evictionEnabled = true) : ¬ Held (abort cfg k s) k := by
  rintro ⟨-, hp⟩
  simp only [abort, he, Bool.not_true, Bool.false_eq_true, if_false] at hp
  exact (mem_discardPending.mp hp).2 rfl

/-! ### Runs -/

/-- The condition at one step. -/
def AloneAt (w : World) (a : Act) : Prop :=
  ∀ writer, a = .commit writer ∨ a = .abort writer → ∀ key, w.writing.lookup writer = some key →
    ∀ other, other ≠ writer → w.writing.lookup other ≠ some key

/-- A writer that ends alone leaves the others their keys. -/
theorem other_key_ne {writer other : Nat} {key key' : Key} (hw : w.writing.lookup writer = some key)
    (halone : ∀ other, other ≠ writer → w.writing.lookup other ≠ some key)
    (ho : (del writer w.writing).lookup other = some key') :
    w.writing.lookup other = some key' ∧ key' ≠ key := by
  rw [lookup_del] at ho
  split at ho
  · cases ho
  · next hne =>
    refine ⟨ho, ?_⟩
    rintro rfl
    exact halone other hne ho

/-- **One step** keeps every writer protected, if a writer that ends is alone on its key. -/
theorem Protected.act (h : Protected w) (he : cfg.evictionEnabled = true) {a : Act}
    (halone : AloneAt w a) (hstep : act cfg w a = some w') : Protected w' := by
  cases a with
  | reserve writer env k n =>
    simp only [Evictor.act] at hstep
    split at hstep
    · cases hstep
    · cases hstep
      intro other key ho
      simp only at ho
      split at ho
      · next ha =>
        rw [lookup_put] at ho
        split at ho
        · cases ho
          exact reserve_admitted he ha
        · exact ((h other key ho).reserve he env k n).1
      · exact ((h other key ho).reserve he env k n).1
  | commit writer =>
    obtain ⟨k, hk, rfl⟩ := Option.map_eq_some_iff.mp hstep
    intro other key ho
    obtain ⟨ho', hne⟩ := other_key_ne hk (halone writer (.inl rfl) k hk) ho
    exact (h other key ho').commit hne
  | abort writer =>
    obtain ⟨k, hk, rfl⟩ := Option.map_eq_some_iff.mp hstep
    intro other key ho
    obtain ⟨ho', hne⟩ := other_key_ne hk (halone writer (.inr rfl) k hk) ho
    exact (h other key ho').abort hne
  | touchTracked k now =>
    cases hstep
    exact fun other key ho => (h other key ho).touchTracked k now
  | touchAdopt k now size =>
    cases hstep
    exact fun other key ho => (h other key ho).touchAdopt k now size

/-- **A run** in which every writer ends alone keeps every writer protected. -/
theorem Protected.play {w₀ : World} {acts : List Act} (h₀ : Protected w₀)
    (he : cfg.evictionEnabled = true) (halone : EndsAlone cfg w₀ acts) :
    ∀ j w, play cfg w₀ (acts.take j) = some w → Protected w := by
  refine Runs.exec_invariant (C := AloneAt) (fun h hc hstep => h.act he hc hstep) h₀ ?_
  intro j w a hw ha writer hend
  refine halone j w writer hw (hend.imp ?_ ?_)
  · rintro rfl
    exact ha
  · rintro rfl
    exact ha

/-- **Exactly when in-flight writes are protected**: on an enabled evictor, along any run of
writers and readers, every writer in flight holds its key and is spared by every eviction if and
only if no writer ends while another is in flight on its key. -/
theorem play_protects_iff (st : Settings) (env : InitEnv)
    (he : (configure st env.fs).evictionEnabled = true) (acts : List Act) :
    Protects (configure st env.fs) ⟨(init (configure st env.fs) env).1, []⟩ acts ↔
      EndsAlone (configure st env.fs) ⟨(init (configure st env.fs) env).1, []⟩ acts := by
  constructor
  · intro hP j w writer hw hend key hkey other hne ho
    -- the step that ends `writer` takes the key from `other`
    have hother : (del writer w.writing).lookup other = some key := by
      rw [lookup_del, if_neg hne, ho]
    rcases hend with ha | ha
    · have hnext : play (configure st env.fs) ⟨(init (configure st env.fs) env).1, []⟩
          (acts.take (j + 1)) =
          some ⟨commit (configure st env.fs) key w.state, del writer w.writing⟩ := by
        rw [play, Runs.exec_take_succ _ ha, ← play, hw]
        simp only [act, hkey, Option.bind_some, Option.map_some]
      exact not_held_commit he (hP.held (j + 1) _ hnext other key hother)
    · have hnext : play (configure st env.fs) ⟨(init (configure st env.fs) env).1, []⟩
          (acts.take (j + 1)) =
          some ⟨abort (configure st env.fs) key w.state, del writer w.writing⟩ := by
        rw [play, Runs.exec_take_succ _ ha, ← play, hw]
        simp only [act, hkey, Option.bind_some, Option.map_some]
      exact not_held_abort he (hP.held (j + 1) _ hnext other key hother)
  · intro halone
    have start : Protected ⟨(init (configure st env.fs) env).1, []⟩ := fun _ _ h => nomatch h
    have hprot := start.play he halone
    refine ⟨hprot, fun j w writer env' k n hw _ stem hstem other ho => ?_⟩
    exact ((hprot j w hw other stem ho).reserve he env' k n).2 stem hstem rfl

/-- A cap of ten bytes, no free-space watermark. -/
def tenBytes : Settings := ⟨10, 0, 1 / 2, by norm_num, by norm_num, .double, [], 0, false⟩

/-- One rank that evicts down to its watermarks. -/
def Settings.oneRank (maxSizeBytes minFreeBytes : Nat) : Settings :=
  ⟨maxSizeBytes, minFreeBytes, 1, by norm_num, le_refl _, .double, [], 0, false⟩

/-- An operating system on which every unlink succeeds and nothing can be probed. -/
def obliging : InitEnv := ⟨none, none, fun _ => .removed, ⟨none, none, fun _ => .removed⟩⟩

/-- A write of one byte under a key of one letter. -/
def writeByte (writer : Nat) (letter : Char) : Act :=
  .reserve writer ⟨fun _ => .removed, ⟨none, none, fun _ => .removed⟩, 0⟩ [letter] 1

/-- Two writers of two keys: one commits, and the other one aborts. -/
theorem two_keys_protected :
    (configure tenBytes obliging.fs).evictionEnabled = true ∧
      Protects (configure tenBytes obliging.fs) ⟨(init (configure tenBytes obliging.fs) obliging).1, []⟩
        [writeByte 0 'k', writeByte 1 'l', .commit 0, .abort 1] := by
  refine ⟨rfl, (play_protects_iff tenBytes obliging rfl _).mpr ?_⟩
  intro j w writer hw hend key hkey other hne ho
  rcases j with _ | _ | _ | _ | j
  · simp [writeByte] at hend
  · simp [writeByte] at hend
  · obtain rfl : w = ⟨⟨[(['k'], 1), (['l'], 1)], [(['k'], 0, 0), (['l'], 0, 0)], [['l'], ['k']], 2⟩,
        [(0, ['k']), (1, ['l'])]⟩ := Option.some.inj (hw.symm.trans (by decide))
    obtain rfl : writer = 0 := by simpa [eq_comm] using hend
    obtain rfl : key = ['k'] := Option.some.inj (hkey.symm.trans rfl)
    have hmem := mem_of_lookup ho
    simp [hne] at hmem
  · obtain rfl : w = ⟨⟨[(['k'], 1), (['l'], 1)], [(['k'], 0, 0), (['l'], 0, 0)], [['l']], 2⟩,
        [(1, ['l'])]⟩ := Option.some.inj (hw.symm.trans (by decide))
    obtain rfl : writer = 1 := by simpa [eq_comm] using hend
    have hmem := mem_of_lookup ho
    simp [hne] at hmem
  · simp at hend

/-- Two writers of one key: the first to commit takes the flag from the other. -/
theorem two_writers_not_protected :
    ¬ Protects (configure tenBytes obliging.fs)
      ⟨(init (configure tenBytes obliging.fs) obliging).1, []⟩ [writeByte 0 'k', writeByte 1 'k', .commit 0] := by
  intro hP
  have := (hP.held 3 ⟨⟨[(['k'], 1)], [(['k'], 0, 0)], [], 1⟩, [(1, ['k'])]⟩ (by decide) 1 ['k'] rfl).2
  cases this

end

end QwenStack.Evictor
