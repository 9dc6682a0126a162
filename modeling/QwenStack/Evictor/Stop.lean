import QwenStack.Evictor.HeatOrder

/-!
# Evictor — what a stop means

`_evict_one_lru_locked` is to answer `"stop"` when nothing is evictable: the index is empty, or all
that is left is in flight.  The heat scan sees the 64 oldest entries only.  With these in flight it
finds nothing, whatever stands behind them.

`stopMeans_iff` and `loopMeans_iff` say in which states the answer, and the end of a loop, mean what
they are to mean.
-/

namespace QwenStack.Evictor
open Assoc List

/-- Every entry is an in-flight write. -/
def AllInFlight (s : State) : Prop := ∀ e ∈ s.lru, e.1 ∈ s.pendingWrites

/-- A stop is an index without a committed entry, or an unlink that has failed. -/
def StopMeans (s : State) : Prop :=
  ∀ remove, (evictOneLruLocked remove s).2 = .stop →
    AllInFlight s ∨ victim s ≠ none ∧ remove = .osError

/-- When no unlink fails, a loop ends because its budget is used up, its condition is false, or no
committed entry is left. -/
def LoopMeans (s : State) : Prop :=
  ∀ (cont : State → Nat → Bool) (remove : Nat → RemoveOutcome) (cap : Nat),
    (∀ i, remove i ≠ .osError) →
    (evictWhile cont remove cap 0 s 0).2.length = cap ∨
      cont (evictWhile cont remove cap 0 s 0).1
        (freed remove (coldest (evictWhile cont remove cap 0 s 0).2.length s)) = false ∨
      AllInFlight (evictWhile cont remove cap 0 s 0).1

/-- A committed entry is among the 64 oldest, if there is one. -/
def WindowOpen (s : State) : Prop :=
  AllInFlight s ∨ ∃ e ∈ s.lru.take 64, e.1 ∉ s.pendingWrites

/-- No committed entry has 64 in-flight entries in front of it. -/
def Uncrowded (s : State) : Prop :=
  ∀ (l : List (Key × Nat)) (e : Key × Nat), (l ++ [e]).Sublist s.lru →
    (∀ x ∈ l, x.1 ∈ s.pendingWrites) → e.1 ∉ s.pendingWrites → l.length < 64

instance (s : State) : Decidable (AllInFlight s) :=
  inferInstanceAs (Decidable (∀ e ∈ s.lru, e.1 ∈ s.pendingWrites))

instance (s : State) : Decidable (WindowOpen s) :=
  inferInstanceAs (Decidable (AllInFlight s ∨ ∃ e ∈ s.lru.take 64, e.1 ∉ s.pendingWrites))

section
variable {s : State} {stem : Key} {size : Nat}

/-! ### One eviction -/

/-- **A stop means what it says** exactly when the window is not full of in-flight writes, or
nothing else is left. -/
theorem stopMeans_iff (s : State) : StopMeans s ↔ WindowOpen s := by
  constructor
  · intro h
    by_cases hv : victim s = none
    · refine .inl ((h .removed ?_).resolve_right fun h => h.1 hv)
      rw [evictOneLruLocked, hv]
    · exact .inr (victim_ne_none_iff.mp hv)
  · intro h remove hstop
    rcases evictOneLruLocked_cases remove s with
      ⟨hv, -⟩ | ⟨stem, size, hv, ⟨ho, -⟩ | ⟨-, freed, e⟩⟩
    · exact .inl (h.resolve_right fun h => victim_ne_none_iff.mpr h hv)
    · exact .inr ⟨by simp [hv], ho⟩
    · rw [e] at hstop
      cases hstop

/-! ### A loop -/

theorem Uncrowded.windowOpen (h : Uncrowded s) : WindowOpen s := by
  by_cases hall : AllInFlight s
  · exact .inl hall
  · right
    -- the first committed entry has only in-flight entries before it
    obtain ⟨e, he, hp⟩ : ∃ e ∈ s.lru, e.1 ∉ s.pendingWrites := by
      simpa [AllInFlight] using hall
    obtain ⟨l, e, rest, hlru, hl, hp⟩ : ∃ l e rest, s.lru = l ++ e :: rest ∧
        (∀ x ∈ l, x.1 ∈ s.pendingWrites) ∧ e.1 ∉ s.pendingWrites := by
      clear h hall
      revert he
      generalize s.lru = m
      intro he
      induction m with
      | nil => cases he
      | cons a m ih =>
        by_cases ha : a.1 ∈ s.pendingWrites
        · rcases List.mem_cons.mp he with rfl | he
          · exact absurd ha hp
          · obtain ⟨l, e', rest, rfl, hl, hp'⟩ := ih he
            exact ⟨a :: l, e', rest, rfl, List.forall_mem_cons.mpr ⟨ha, hl⟩, hp'⟩
        · exact ⟨[], a, m, rfl, by simp, ha⟩
    have hlen : l.length < 64 := by
      refine h l e ?_ hl hp
      rw [hlru, append_cons l e rest]
      exact sublist_append_left _ _
    refine ⟨e, ?_, hp⟩
    rw [hlru, take_append]
    refine mem_append_right _ ?_
    obtain ⟨k, hk⟩ : ∃ k, 64 - l.length = k + 1 := ⟨63 - l.length, by omega⟩
    rw [hk, take_succ_cons]
    exact mem_cons_self

theorem Uncrowded.drop (h : Uncrowded s) (stem : Key) (size : Nat) :
    Uncrowded (dropEntry stem size s) :=
  fun l e hsub => h l e (hsub.trans filter_sublist)

theorem Uncrowded.without (h : Uncrowded s) (j : Nat) : Uncrowded (without j s) := by
  induction j, s using order_induction with
  | zero s => exact h
  | stuck j s hv => rwa [without_none hv]
  | taken j s stem size hv ih =>
    rw [without_succ hv]
    exact ih (h.drop stem size)

/-- A committed entry behind 64 entries is out of sight. -/
theorem not_mem_window (hn : (keys s.lru).Nodup) {l : List (Key × Nat)} {e : Key × Nat}
    (hsub : (l ++ [e]).Sublist s.lru) (hl : 64 ≤ l.length) : e.1 ∉ keys (s.lru.take 64) := by
  rw [← take_append_drop 64 s.lru, Assoc.keys_append] at hn
  rw [← take_append_drop 64 s.lru] at hsub
  obtain ⟨a, b, hab, ha, hb⟩ := List.sublist_append_iff.mp hsub
  have hlen := ha.length_le
  rw [length_take] at hlen
  -- the last of the 65 entries is past the window
  have hbe : e ∈ b := by
    rcases eq_nil_or_concat b with rfl | ⟨b', x, rfl⟩
    · have := congrArg List.length hab
      simp at this
      omega
    · rw [concat_eq_append, ← append_assoc] at hab
      obtain ⟨-, hx⟩ := append_inj' hab rfl
      obtain rfl := List.singleton_inj.mp hx
      simp
  intro hmem
  exact (List.nodup_append.mp hn).2.2 e.1 hmem e.1 (mem_map_of_mem (hb.subset hbe)) rfl

/-- It stays there. -/
theorem sublist_without (hB : Bookkept s) {l : List (Key × Nat)} {e : Key × Nat}
    (hsub : (l ++ [e]).Sublist s.lru) (hl : 64 ≤ l.length)
    (hp : ∀ x ∈ l, x.1 ∈ s.pendingWrites) (j : Nat) : (l ++ [e]).Sublist (without j s).lru := by
  induction j, s using order_induction with
  | zero s => exact hsub
  | stuck j s hv => rwa [without_none hv]
  | taken j s stem size hv ih =>
    rw [without_succ hv]
    refine ih (evictRule_bookkept.drop hB hv).1 ?_ hp
    have hkept : (l ++ [e]).filter (fun x => decide (x.1 ≠ stem)) = l ++ [e] := by
      refine List.filter_eq_self.mpr fun x hx => decide_eq_true ?_
      rintro rfl
      rcases List.mem_append.mp hx with hx | hx
      · exact (victim_spec hv).2 (hp x hx)
      · obtain rfl := List.mem_singleton.mp hx
        exact not_mem_window hB.lru_nodup hsub hl (List.mem_map.mpr ⟨_, victim_mem_take hv, rfl⟩)
    rw [← hkept]
    exact hsub.filter _

/-- **The end of a loop means what it says** exactly when no committed entry is behind 64 in-flight
ones. -/
theorem loopMeans_iff (hB : Bookkept s) : LoopMeans s ↔ Uncrowded s := by
  constructor
  · intro h l e hsub hp he
    by_contra hl
    have hl : 64 ≤ l.length := Nat.not_lt.mp hl
    -- a loop that is never to end on its own, with more to spend than there are files
    obtain ⟨j, ht, hk, hleft⟩ := evictWhile_takes (fun _ _ => true) (fun _ => .removed)
      (s.lru.length + 1) s
    have hend := hleft.eq fun _ => by simp
    have hcount := length_without hB j
    rcases h (fun _ _ => true) (fun _ => .removed) (s.lru.length + 1) fun _ => by simp with
      h | h | h
    · rw [hk, Assoc.keys, length_map] at h
      omega
    · cases h
    · rw [hend] at h
      have hmem : e ∈ (without j s).lru :=
        (sublist_without hB hsub hl hp j).subset (mem_append_right _ mem_cons_self)
      have := h e hmem
      rw [pendingWrites_without] at this
      exact he this
  · intro h cont remove cap hok
    obtain ⟨j, ht, hk, hleft⟩ := evictWhile_takes cont remove cap s
    have hend := hleft.eq hok
    have hlen : (evictWhile cont remove cap 0 s 0).2.length = j := by
      rw [hk, Assoc.keys, length_map, ht.length]
    rw [hlen, hend]
    rcases ht.ended with hj | hv | hr | hc
    · exact .inl hj
    · refine .inr (.inr ((h.without j).windowOpen.resolve_right fun hw => ?_))
      exact victim_ne_none_iff.mpr hw hv
    · exact absurd hr (hok j)
    · exact .inr (.inl hc)

/-- **When a stop means what it is documented to mean.**  In every reachable state, a stop of one
eviction does exactly when a committed entry is among the 64 oldest, if there is one; and a loop
ends as documented exactly when no committed entry is behind 64 in-flight ones. -/
theorem stop_documented_iff (st : Settings) (env : InitEnv) (sections : List Section) :
    let s := run (configure st env.fs) (init (configure st env.fs) env).1 sections
    (StopMeans s ↔ WindowOpen s) ∧ (LoopMeans s ↔ Uncrowded s) :=
  ⟨stopMeans_iff _, loopMeans_iff ((bookkept_init _ env).run _ sections)⟩

/-! ### Sixty-four writes in flight -/

/-- A cap of a hundred bytes. -/
def hundredBytes : Settings := .oneRank 100 0

/-- The reservation of one byte, under a key of one letter. -/
def reserveByte (i : Nat) : Section :=
  .reserve ⟨fun _ => .removed, obliging.freeSpace, 0⟩ [Char.ofNat (33 + i)] 1

/-- Sixty-four writers are in flight, and a file is committed behind them. -/
def crowd : List Section :=
  (List.range 65).map reserveByte ++ [.commit [Char.ofNat (33 + 64)]]

/-- An eviction stops although a committed file is left, and so does a loop. -/
theorem crowd_stops :
    ¬ StopMeans (run (configure hundredBytes none) (init (configure hundredBytes none) obliging).1
        crowd) ∧
      ¬ LoopMeans (run (configure hundredBytes none)
        (init (configure hundredBytes none) obliging).1 crowd) := by
  have hclosed : ¬ WindowOpen (run (configure hundredBytes none)
      (init (configure hundredBytes none) obliging).1 crowd) := by
    decide +kernel
  refine ⟨fun h => hclosed ((stopMeans_iff _).mp h), fun h => hclosed ?_⟩
  exact ((loopMeans_iff ((bookkept_init _ obliging).run _ crowd)).mp h).windowOpen

end

end QwenStack.Evictor
