import QwenStack.Manual.Eviction

/-!
# Manual — the file goes forward

An eviction thread collects the entries of the routing map first and takes `SNAPSHOT_LOCK` afterwards.  The
lock keeps the temporary file for its holder, so a thread renames what it has collected itself, and the
threads rename in the order in which they took the lock (`Exclusive`).

So the file goes back only where one thread overtakes another on the way from the map to the lock:
`run_forward_iff`.
-/

namespace QwenStack.Manual

open List

/-- The snapshot is in the file, or on its way there. -/
def Gateway.Holds (s : Gateway) (x : Snapshot) : Prop :=
  s.file = some x ∨ s.tmp = some x ∨ ∃ t ∈ s.threads, t.stage = .lock x ∨ t.stage = .write x

/-- A thread has no snapshot. -/
def Stage.Idle : Stage → Prop
  | .lock _ | .write _ | .rename => False
  | _ => True

/-- What an operation of a thread does with the snapshots. -/
inductive Operated (serde : SerdeJson) (s : Gateway) (i : Nat) (t : Evictor) (result : WriteResult) :
    Gateway → Prop where
  | other {t' : Evictor} {stage : Stage} (m : RoutingMap) (dropped : Nat) (hstage : t.stage.Idle)
      (hnext : stage.Idle) :
      Operated serde s i t result { s.moved i t' stage with routingMap := m, dropped := dropped }
  | collected (hstage : t.stage = .collect) :
      Operated serde s i t result
        (s.moved i { t with passage.collectedAt := s.ticks } (.lock (s.snapshot serde)))
  | locked {x : Snapshot} (hstage : t.stage = .lock x) (hfree : s.snapshotLock = none) :
      Operated serde s i t result
        { s.moved i { t with passage.lockedAt := s.ticks } (.write x) with snapshotLock := some i }
  | wrote {x : Snapshot} (hstage : t.stage = .write x) :
      Operated serde s i t result { s.moved i t .rename with tmp := some x }
  | failed (hstage : (∃ x, t.stage = .write x) ∨ t.stage = .rename)
      (hresult : t.stage = .rename → result = .done → s.tmp = none) :
      Operated serde s i t result { s.moved i t .asleep with snapshotLock := none }
  | renamed {x : Snapshot} (hstage : t.stage = .rename) (hresult : result = .done) (htmp : s.tmp = some x) :
      Operated serde s i t result
        { s.moved i t .asleep with
          snapshotLock := none
          file := some x
          tmp := none
          renamed := t.passage :: s.renamed }

section
variable {xxh3 : List UInt8 → UInt64} {serde : SerdeJson} {s s' : Gateway} {a : Action} {x : Snapshot}
  {i j now : Nat} {t u : Evictor} {stage : Stage} {result : WriteResult}

/-! ### One operation -/

theorem operated (hs : s.operate serde i t now result = some s') : Operated serde s i t result s' := by
  cases hstage : t.stage with
  | asleep =>
    simp only [Gateway.operate, hstage, Option.some.injEq] at hs
    subst hs
    exact .other s.routingMap s.dropped (hstage ▸ trivial) trivial
  | measure time =>
    simp only [Gateway.operate, hstage, Option.some.injEq] at hs
    subst hs
    exact .other s.routingMap s.dropped (hstage ▸ trivial) trivial
  | retain time beforeSize =>
    simp only [Gateway.operate, hstage, Option.some.injEq] at hs
    subst hs
    exact .other _ _ (hstage ▸ trivial) trivial
  | subtract beforeSize =>
    simp only [Gateway.operate, hstage, Option.some.injEq] at hs
    subst hs
    exact .other s.routingMap s.dropped (hstage ▸ trivial) (by split <;> trivial)
  | collect =>
    simp only [Gateway.operate, hstage, Option.some.injEq] at hs
    subst hs
    exact .collected hstage
  | lock snapshot =>
    simp only [Gateway.operate, hstage] at hs
    split at hs
    · next hfree =>
      cases hs
      exact .locked hstage hfree
    · cases hs
  | write snapshot =>
    simp only [Gateway.operate, hstage] at hs
    split at hs
    · cases hs
      exact .failed (.inl ⟨snapshot, hstage⟩) fun h => by cases hstage.symm.trans h
    · cases hs
      exact .wrote hstage
  | rename =>
    simp only [Gateway.operate, hstage] at hs
    split at hs
    · next x htmp =>
      cases hs
      exact .renamed hstage rfl htmp
    · next hother =>
      cases hs
      refine .failed (.inr hstage) fun _ hdone => ?_
      cases htmp : s.tmp with
      | none => rfl
      | some x => exact absurd hdone (hother x htmp)

/-- The threads after an operation. -/
theorem moved_get (h : (s.moved i t stage).threads[j]? = some u) :
    i = j ∧ u = { t with stage := stage } ∨ i ≠ j ∧ s.threads[j]? = some u := by
  by_cases hij : i = j
  · subst hij
    have hset := List.getElem?_set_self' ▸ h
    obtain ⟨-, -, rfl⟩ := Option.map_eq_some_iff.mp hset
    exact .inl ⟨rfl, rfl⟩
  · exact .inr ⟨hij, (List.getElem?_set_ne hij).symm.trans h⟩

/-! ### Where a snapshot is from -/

theorem Gateway.Holds.moved (h : (s.moved i t stage).Holds x) :
    s.Holds x ∨ stage = .lock x ∨ stage = .write x := by
  rcases h with h | h | ⟨u, hu, h⟩
  · exact .inl (.inl h)
  · exact .inl (.inr (.inl h))
  · rcases mem_or_eq_of_mem_set hu with hu | rfl
    · exact .inl (.inr (.inr ⟨u, hu, h⟩))
    · exact .inr h

/-- A snapshot stays what it is from its collection on. -/
theorem Operated.holds (ht : s.threads[i]? = some t) (h : Operated serde s i t result s')
    (hx : s'.Holds x) : s.Holds x ∨ x = s.snapshot serde := by
  have hmem := List.mem_of_getElem? ht
  cases h with
  | @other t' stage m dropped hstage hnext =>
    have hx : (s.moved i t' stage).Holds x := hx
    refine .inl (hx.moved.resolve_right fun h => ?_)
    rcases h with rfl | rfl <;> exact hnext
  | collected hstage =>
    refine hx.moved.imp_right fun h => ?_
    rcases h with h | h
    · exact (Stage.lock.inj h).symm
    · cases h
  | @locked y hstage hfree =>
    have hx : (s.moved i { t with passage.lockedAt := s.ticks } (.write y)).Holds x := hx
    rcases hx.moved with h | h | h
    · exact .inl h
    · cases h
    · obtain rfl := Stage.write.inj h
      exact .inl (.inr (.inr ⟨t, hmem, .inl hstage⟩))
  | @wrote y hstage =>
    rcases hx with h | h | ⟨u, hu, h⟩
    · exact .inl (.inl h)
    · cases h
      exact .inl (.inr (.inr ⟨t, hmem, .inr hstage⟩))
    · have hx : (s.moved i t .rename).Holds x := .inr (.inr ⟨u, hu, h⟩)
      exact .inl (hx.moved.resolve_right (by rintro (h | h) <;> cases h))
  | failed hstage hresult =>
    have hx : (s.moved i t .asleep).Holds x := hx
    exact .inl (hx.moved.resolve_right (by rintro (h | h) <;> cases h))
  | @renamed y hstage hresult htmp =>
    rcases hx with h | h | ⟨u, hu, h⟩
    · cases h
      exact .inl (.inr (.inl htmp))
    · cases h
    · have hx : (s.moved i t .asleep).Holds x := .inr (.inr ⟨u, hu, h⟩)
      exact .inl (hx.moved.resolve_right (by rintro (h | h) <;> cases h))

/-! ### The lock -/

/-- A thread holds the lock. -/
def Stage.Locked : Stage → Prop
  | .write _ | .rename => True
  | _ => False

/-- What thread `i` has on the way to the file is what it has collected.  If it holds the lock, it took it
after all that have renamed. -/
structure Evictor.Proper (s : Gateway) (i : Nat) (t : Evictor) : Prop where
  own : ∀ x, t.stage = .lock x ∨ t.stage = .write x ∨ t.stage = .rename ∧ s.tmp = some x →
    x.collectedAt = t.passage.collectedAt
  written : t.stage = .rename → s.tmp ≠ none
  holder : t.stage.Locked → s.snapshotLock = some i ∧ t.passage.lockedAt < s.ticks ∧
    ∀ p ∈ s.renamed, p.lockedAt < t.passage.lockedAt

/-- **The lock excludes.** -/
structure Exclusive (s : Gateway) : Prop where
  proper : ∀ i (t : Evictor), s.threads[i]? = some t → t.Proper s i
  past : ∀ p ∈ s.renamed, p.lockedAt < s.ticks

theorem Evictor.Proper.of_idle (h : t.stage.Idle) : t.Proper s i where
  own x hx := by
    rcases hx with hx | hx | ⟨hx, -⟩
    · exact absurd h (hx ▸ id)
    · exact absurd h (hx ▸ id)
    · exact absurd h (hx ▸ id)
  written hx := absurd h (hx ▸ id)
  holder hl := by
    cases hstage : t.stage with
    | write x => exact absurd h (hstage ▸ id)
    | rename => exact absurd h (hstage ▸ id)
    | _ => rw [hstage] at hl; exact hl.elim

/-- What the other threads do leaves a thread alone while it holds the lock. -/
theorem Evictor.Proper.keep (h : u.Proper s j) (hticks : s.ticks ≤ s'.ticks) (hsame : u.stage.Locked →
      s'.tmp = s.tmp ∧ s'.snapshotLock = s.snapshotLock ∧ s'.renamed = s.renamed) : u.Proper s' j where
  own x hx := by
    rcases hx with hx | hx | ⟨hx, htmp⟩
    · exact h.own x (.inl hx)
    · exact h.own x (.inr (.inl hx))
    · exact h.own x (.inr (.inr ⟨hx, (hsame (hx ▸ trivial)).1 ▸ htmp⟩))
  written hx := (hsame (hx ▸ trivial)).1 ▸ h.written hx
  holder hl := by
    obtain ⟨-, hlock, hrenamed⟩ := hsame hl
    obtain ⟨hheld, hlt, hafter⟩ := h.holder hl
    exact ⟨hlock.trans hheld, hlt.trans_le hticks, hrenamed ▸ hafter⟩

/-- What is to be shown of an operation: the thread is proper, and if another one holds the lock, what that
one reads is as it was. -/
theorem Exclusive.next (h : Exclusive s) (hthreads : s'.threads = (s.moved i t stage).threads)
    (hticks : s'.ticks = s.ticks + 1) (hown : Evictor.Proper s' i { t with stage := stage })
    (hothers : ∀ {j u}, i ≠ j → s.threads[j]? = some u → u.stage.Locked →
      s'.tmp = s.tmp ∧ s'.snapshotLock = s.snapshotLock ∧ s'.renamed = s.renamed)
    (hpast : ∀ p ∈ s'.renamed, p.lockedAt < s.ticks + 1) : Exclusive s' := by
  refine ⟨fun j u hu => ?_, fun p hp => hticks ▸ hpast p hp⟩
  rw [hthreads] at hu
  rcases moved_get hu with ⟨rfl, rfl⟩ | ⟨hij, hu⟩
  · exact hown
  · exact (h.proper j u hu).keep (hticks ▸ Nat.le_succ _) (hothers hij hu)

/-- **One operation** of a thread. -/
theorem Exclusive.operate (h : Exclusive s) (ht : s.threads[i]? = some t)
    (hop : Operated serde s i t result s') : Exclusive s' := by
  have hT := h.proper i t ht
  have hpast : ∀ p ∈ s.renamed, p.lockedAt < s.ticks + 1 := fun p hp => Nat.lt_succ_of_lt (h.past p hp)
  -- the other threads, when this one holds the lock
  have halone : t.stage.Locked → ∀ {j u}, i ≠ j → s.threads[j]? = some u → ¬ u.stage.Locked :=
    fun hl {j u} hij hu hl' => hij (Option.some.inj
      ((hT.holder hl).1.symm.trans ((h.proper j u hu).holder hl').1))
  cases hop with
  | other m dropped hstage hnext =>
    exact h.next rfl rfl (.of_idle hnext) (fun _ _ _ => ⟨rfl, rfl, rfl⟩) hpast
  | collected hstage =>
    refine h.next rfl rfl ⟨fun x hx => ?_, Stage.noConfusion, False.elim⟩ (fun _ _ _ => ⟨rfl, rfl, rfl⟩) hpast
    rcases hx with hx | hx | ⟨hx, -⟩
    · exact Stage.lock.inj hx ▸ rfl
    · cases hx
    · cases hx
  | @locked y hstage hfree =>
    refine h.next rfl rfl ⟨fun x hx => ?_, Stage.noConfusion, fun _ => ⟨rfl, Nat.lt_succ_self _, h.past⟩⟩
      (fun {j u} _ hu hl => ?_) hpast
    · rcases hx with hx | hx | ⟨hx, -⟩
      · cases hx
      · exact Stage.write.inj hx ▸ hT.own y (.inl hstage)
      · cases hx
    · cases hfree.symm.trans ((h.proper j u hu).holder hl).1
  | @wrote y hstage =>
    have hl : t.stage.Locked := hstage ▸ trivial
    obtain ⟨hheld, hlt, hafter⟩ := hT.holder hl
    refine h.next rfl rfl ⟨fun x hx => ?_, fun _ => Option.some_ne_none y,
      fun _ => ⟨hheld, Nat.lt_succ_of_lt hlt, hafter⟩⟩ (fun hij hu hl' => absurd hl' (halone hl hij hu)) hpast
    rcases hx with hx | hx | ⟨-, hx⟩
    · cases hx
    · cases hx
    · exact Option.some.inj hx ▸ hT.own y (.inr (.inl hstage))
  | failed hstage hresult =>
    have hl : t.stage.Locked := by
      rcases hstage with ⟨x, hstage⟩ | hstage
      · exact hstage ▸ trivial
      · exact hstage ▸ trivial
    exact h.next rfl rfl (.of_idle trivial) (fun hij hu hl' => absurd hl' (halone hl hij hu)) hpast
  | renamed hstage hresult htmp =>
    have hl : t.stage.Locked := hstage ▸ trivial
    refine h.next rfl rfl (.of_idle trivial) (fun hij hu hl' => absurd hl' (halone hl hij hu)) fun p hp => ?_
    rcases List.mem_cons.mp hp with rfl | hp
    · exact Nat.lt_succ_of_lt (hT.holder hl).2.1
    · exact hpast p hp

theorem Exclusive.step (h : Exclusive s) (hs : s.step xxh3 serde a = some s') : Exclusive s' := by
  cases a with
  | select mode req =>
    obtain ⟨m, -, hs⟩ := Option.bind_eq_some_iff.mp hs
    cases hs
    exact ⟨fun j u hu => (h.proper j u hu).keep (Nat.le_succ _) fun _ => ⟨rfl, rfl, rfl⟩,
      fun p hp => Nat.lt_succ_of_lt (h.past p hp)⟩
  | operate i now result =>
    obtain ⟨t, ht, hs⟩ := Option.bind_eq_some_iff.mp hs
    exact h.operate ht (operated hs)

end

/-! ### Runs -/

variable (xxh3 : List UInt8 → UInt64) (serde : SerdeJson) (m : RoutingMap) (file : Option Str)
  (tasks : List (Nat × Bool)) (actions : List Action)

/-- The file does not go back in time. -/
def Forward (s s' : Gateway) : Prop :=
  ∀ old new, s.file = some old → s'.file = some new → old.collectedAt ≤ new.collectedAt

/-- If the action renames, no thread that has renamed both collected after its own and took the lock before
it. -/
def Unovertaken (s : Gateway) (a : Action) : Prop :=
  ∀ i now t, a = .operate i now .done → s.threads[i]? = some t → t.stage = .rename →
    ∀ p ∈ s.renamed, ¬ (t.passage.collectedAt < p.collectedAt ∧ p.lockedAt < t.passage.lockedAt)

/-- The file is the latest of the snapshots renamed so far. -/
structure Latest (s : Gateway) : Prop extends Exclusive s where
  renamed_le : ∀ p ∈ s.renamed, ∃ x, s.file = some x ∧ p.collectedAt ≤ x.collectedAt
  file_mem : ∀ x, s.file = some x → x.collectedAt = 0 ∨ ∃ p ∈ s.renamed, p.collectedAt = x.collectedAt

theorem latest_start : Latest (.start m file tasks) where
  proper i t ht := by
    obtain ⟨task, -, rfl⟩ := List.mem_map.mp (List.mem_of_getElem? ht)
    exact .of_idle trivial
  past _ hp := absurd hp not_mem_nil
  renamed_le _ hp := absurd hp not_mem_nil
  file_mem x hx := by
    obtain ⟨json, -, rfl⟩ := Option.map_eq_some_iff.mp hx
    exact .inl rfl

section
variable {xxh3 serde} {s s' : Gateway} {a : Action}

/-- A step leaves the file, or a thread renames its own snapshot onto it. -/
theorem step_file (h : Exclusive s) (hs : s.step xxh3 serde a = some s') :
    (s'.file = s.file ∧ s'.renamed = s.renamed ∧ Unovertaken s a) ∨
      ∃ i now t x, a = .operate i now .done ∧ s.threads[i]? = some t ∧ t.stage = .rename ∧
        x.collectedAt = t.passage.collectedAt ∧ s'.file = some x ∧ s'.renamed = t.passage :: s.renamed := by
  cases a with
  | select mode req =>
    obtain ⟨m, -, hs⟩ := Option.bind_eq_some_iff.mp hs
    cases hs
    exact .inl ⟨rfl, rfl, fun i now t h => by cases h⟩
  | operate i now result =>
    obtain ⟨t, ht, hs⟩ := Option.bind_eq_some_iff.mp hs
    have hT := h.proper i t ht
    have hno : ¬ (t.stage = .rename ∧ result = .done) → Unovertaken s (.operate i now result) := by
      intro hno i' now' t' ha ht' hstage
      obtain ⟨rfl, -, rfl⟩ := Action.operate.inj ha
      cases ht.symm.trans ht'
      exact absurd ⟨hstage, rfl⟩ hno
    cases operated hs with
    | other m dropped hstage hnext =>
      exact .inl ⟨rfl, rfl, hno fun hr => absurd hstage (hr.1 ▸ id)⟩
    | collected hstage => exact .inl ⟨rfl, rfl, hno fun hr => by cases hstage.symm.trans hr.1⟩
    | locked hstage _ => exact .inl ⟨rfl, rfl, hno fun hr => by cases hstage.symm.trans hr.1⟩
    | wrote hstage => exact .inl ⟨rfl, rfl, hno fun hr => by cases hstage.symm.trans hr.1⟩
    | failed _ hresult =>
      exact .inl ⟨rfl, rfl, hno fun hr => hT.written hr.1 (hresult hr.1 hr.2)⟩
    | @renamed x hstage hresult htmp =>
      subst hresult
      exact .inr ⟨i, now, t, x, rfl, ht, hstage, hT.own x (.inr (.inr ⟨hstage, htmp⟩)), rfl, rfl⟩

theorem Latest.forward_iff (h : Latest s) (hs : s.step xxh3 serde a = some s') :
    Forward s s' ↔ Unovertaken s a := by
  rcases step_file h.toExclusive hs with
    ⟨hfile, -, hturn⟩ | ⟨i, now, t, x, rfl, ht, hstage, hown, hfile, -⟩
  · refine iff_of_true (fun old new hold hnew => ?_) hturn
    rw [hfile, hold] at hnew
    exact (congrArg Snapshot.collectedAt (Option.some.inj hnew)).le
  · constructor
    · rintro hforward i' now' t' ha ht' - p hp ⟨hlater, -⟩
      obtain ⟨rfl, -, -⟩ := Action.operate.inj ha
      cases ht.symm.trans ht'
      obtain ⟨old, hold, hle⟩ := h.renamed_le p hp
      have := hforward old x hold hfile
      omega
    · intro hturn old new hold hnew
      cases hfile.symm.trans hnew
      rcases h.file_mem old hold with hzero | ⟨p, hp, hcollected⟩
      · exact hzero.le.trans (Nat.zero_le _)
      · -- the thread that wrote the file had the lock before this one
        have hbefore := ((h.proper i t ht).holder (hstage ▸ trivial)).2.2 p hp
        by_contra hlater
        exact hturn i now t rfl ht hstage p hp ⟨by omega, hbefore⟩

theorem Latest.step (h : Latest s) (hs : s.step xxh3 serde a = some s') (hforward : Forward s s') :
    Latest s' := by
  have hexclusive := h.toExclusive.step hs
  rcases step_file h.toExclusive hs with
    ⟨hfile, hrenamed, -⟩ | ⟨i, now, t, x, rfl, ht, hstage, hown, hfile, hrenamed⟩
  · exact ⟨hexclusive, by rw [hfile, hrenamed]; exact h.renamed_le,
      by rw [hfile, hrenamed]; exact h.file_mem⟩
  · refine ⟨hexclusive, fun p hp => ⟨x, hfile, ?_⟩, fun y hy => .inr ?_⟩
    · rw [hrenamed] at hp
      rcases List.mem_cons.mp hp with rfl | hp
      · exact hown.ge
      · obtain ⟨old, hold, hle⟩ := h.renamed_le p hp
        exact hle.trans (hforward old x hold hfile)
    · cases hfile.symm.trans hy
      exact ⟨t.passage, hrenamed ▸ mem_cons_self, hown.symm⟩

/-- A step takes one tick, and holds what was held or what the map has now. -/
theorem step_holds (hs : s.step xxh3 serde a = some s') :
    s'.ticks = s.ticks + 1 ∧ ∀ x, s'.Holds x → s.Holds x ∨ x = s.snapshot serde := by
  cases a with
  | select mode req =>
    obtain ⟨m, -, hs⟩ := Option.bind_eq_some_iff.mp hs
    cases hs
    exact ⟨rfl, fun x hx => .inl hx⟩
  | operate i now result =>
    obtain ⟨t, ht, hs⟩ := Option.bind_eq_some_iff.mp hs
    have hop := operated hs
    exact ⟨by cases hop <;> rfl, fun x hx => hop.holds ht hx⟩

end

/-- The snapshot is the file of the start, or what the map had after the operations up to its collection. -/
def From (actions : List Action) (x : Snapshot) : Prop :=
  file = some x.json ∧ x.collectedAt = 0 ∨
    x.collectedAt < actions.length ∧ ∃ s, (Gateway.start m file tasks).exec xxh3 serde
      (actions.take x.collectedAt) = some s ∧ x = s.snapshot serde

/-- **What is in the file, or on its way there**, is what the map had at one time. -/
theorem from_of_holds {s : Gateway} (hs : (Gateway.start m file tasks).exec xxh3 serde actions = some s) :
    s.ticks = actions.length ∧ ∀ x, s.Holds x → From xxh3 serde m file tasks actions x := by
  induction actions using List.reverseRecOn generalizing s with
  | nil =>
    cases hs
    refine ⟨rfl, fun x hx => .inl ?_⟩
    rcases hx with hx | hx | ⟨t, ht, hx⟩
    · obtain ⟨json, hjson, rfl⟩ := Option.map_eq_some_iff.mp hx
      exact ⟨hjson, rfl⟩
    · cases hx
    · obtain ⟨task, -, rfl⟩ := List.mem_map.mp ht
      rcases hx with hx | hx <;> cases hx
  | append_singleton actions a ih =>
    rw [Gateway.exec, Runs.exec_append] at hs
    obtain ⟨s₀, hs₀, hs⟩ := Option.bind_eq_some_iff.mp hs
    obtain ⟨s₁, hstep, hs⟩ := Option.bind_eq_some_iff.mp hs
    cases hs
    obtain ⟨hticks, hheld⟩ := step_holds hstep
    obtain ⟨hlength, hfrom⟩ := ih hs₀
    refine ⟨by rw [hticks, hlength, length_append, length_singleton], fun x hx => ?_⟩
    rcases hheld x hx with hx | rfl
    · refine (hfrom x hx).imp_right fun h => ?_
      obtain ⟨hlt, s, hs, hx⟩ := h
      refine ⟨?_, s, ?_, hx⟩
      · rw [length_append]
        omega
      · rw [take_append_of_le_length hlt.le]
        exact hs
    · refine .inr ⟨?_, s₀, ?_, rfl⟩
      · rw [length_append, length_singleton]
        exact hlength.trans_lt (Nat.lt_succ_self _)
      · rw [show (s₀.snapshot serde).collectedAt = actions.length from hlength, take_left']
        · exact hs₀
        · rfl

/-- **When the file of a run never goes back in time.**  Its contents are those that the map had at the time
of their collection; and a rename never brings back older ones exactly when no thread renames that was
overtaken between its collection and the lock. -/
theorem run_forward_iff :
    (∀ k s x, (Gateway.start m file tasks).exec xxh3 serde (actions.take k) = some s → s.file = some x →
        From xxh3 serde m file tasks (actions.take k) x) ∧
      ((∀ k s a s', (Gateway.start m file tasks).exec xxh3 serde (actions.take k) = some s →
          actions[k]? = some a → s.step xxh3 serde a = some s' → Forward s s') ↔
        ∀ k s a s', (Gateway.start m file tasks).exec xxh3 serde (actions.take k) = some s →
          actions[k]? = some a → s.step xxh3 serde a = some s' → Unovertaken s a) :=
  ⟨fun k _ x hs hx => (from_of_holds xxh3 serde m file tasks (actions.take k) hs).2 x (.inl hx),
    Runs.exec_steps_iff (fun h hs hforward => h.step hs hforward) (fun h hs => h.forward_iff hs)
      (latest_start m file tasks)⟩

/-- Two threads: the second drops a session that the first has collected, and is done before it. -/
def overtaking : List Action :=
  List.replicate 5 (.operate 0 0 .done) ++ List.replicate 8 (.operate 1 100 .done) ++
    List.replicate 3 (.operate 0 0 .done)

/-- The file has the session again. -/
theorem dropped_session_comes_back :
    ¬ ∀ k s a s', (Gateway.start [(['k'], ⟨[['a']], 0⟩)] none [(10, true), (10, true)]).exec (fun _ => 0)
        compactJson (overtaking.take k) = some s → overtaking[k]? = some a →
      s.step (fun _ => 0) compactJson a = some s' → Forward s s' := by
  intro h
  have hrun : ((Gateway.start [(['k'], ⟨[['a']], 0⟩)] none [(10, true), (10, true)]).exec (fun _ => 0)
      compactJson (overtaking.take 15)).bind (fun s =>
        (s.step (fun _ => 0) compactJson (.operate 0 0 .done)).map fun s' =>
          (s.file.map Snapshot.collectedAt, s'.file.map Snapshot.collectedAt)) = some (some 9, some 4) := by
    decide +kernel
  obtain ⟨s, hs, hrun⟩ := Option.bind_eq_some_iff.mp hrun
  obtain ⟨s', hs', hfiles⟩ := Option.map_eq_some_iff.mp hrun
  obtain ⟨hold, hnew⟩ := Prod.mk.inj hfiles
  obtain ⟨old, hold, hat⟩ := Option.map_eq_some_iff.mp hold
  obtain ⟨new, hnew, hat'⟩ := Option.map_eq_some_iff.mp hnew
  have hle := h 15 s _ s' hs rfl hs' old new hold hnew
  rw [hat, hat'] at hle
  exact absurd hle (by decide)

end QwenStack.Manual
