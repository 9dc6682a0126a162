import Mathlib.Algebra.Order.Ring.NNRat
import QwenStack.Limiter.Definitions
import QwenStack.Support.Runs
import QwenStack.Support.Threads

/-!
# Concurrency limiter — lost wake-ups

`acquire` is refused tokens under the lock, and creates its `Notified` future afterwards.  Tokens that
are returned in between, with their notification, are missed: the notification wakes those who wait
already, and `acquire` then waits beside a full bucket (`missed_notification`).

`wakeups_iff` says that this is all.  An acquirer that was refused has too few tokens, or a
notification is still to come (`Served`); the one operation that may end this is the last pending
notification, with an acquirer between its refusal and its future.
-/

namespace QwenStack.Limiter
open Threads List

namespace Thread

/-- The thread is at a stage, and asks for no more than the tokens that are there. -/
def beside (stage : AcquireStage) (available : ℚ≥0) : Thread → Bool
  | .acquirer tokens st => decide (st = stage) && decide (tokens ≤ available)
  | .returner _ _ => false

/-- The thread has a notification to send. -/
def notifies : Thread → Bool
  | .returner _ .notifying => true
  | _ => false

/-- The next operation of the thread is the creation of a `Notified` future. -/
def registers : Thread → Bool
  | .acquirer _ .refused => true
  | _ => false

end Thread

/-- A thread waits beside enough tokens, and no notification is to come. -/
def LostWakeup (s : State) : Prop :=
  (∃ t ∈ s.threads, t.beside .parked s.inner.tokens = true) ∧ ∀ t ∈ s.threads, t.notifies = false

instance (s : State) : Decidable (LostWakeup s) :=
  inferInstanceAs (Decidable ((∃ t ∈ s.threads, _) ∧ ∀ t ∈ s.threads, _))

/-- The last pending notification is not sent while a thread that was refused tokens does not wait yet
and the tokens are there. -/
def Heard (s : State) : Action → Prop
  | .move i _ => ∀ t, s.threads[i]? = some t → t.notifies = true →
      2 ≤ s.threads.countP Thread.notifies ∨
        ∀ t ∈ s.threads, t.beside .refused s.inner.tokens = false
  | _ => True

/-- `s'` is `s`, or the state after a thread that was refused has gone to wait. -/
def Near (b : TokenBucket) (s s' : State) : Prop :=
  s' = s ∨ ∃ (i : Nat) (t : Thread) (now : ℚ≥0), s.threads[i]? = some t ∧ t.registers = true ∧
    s.step b (.move i now) = some s'

/-- The invariant: a thread that was refused has too few tokens, or a notification is to come. -/
def Served (s : State) : Prop :=
  ∀ t ∈ s.threads, t.beside .refused s.inner.tokens = true ∨ t.beside .parked s.inner.tokens = true →
    0 < s.threads.countP Thread.notifies

theorem Served.not_lost {s : State} (h : Served s) : ¬ LostWakeup s := by
  rintro ⟨⟨t, ht, hparked⟩, hnone⟩
  obtain ⟨t', ht', hnotifies⟩ := List.countP_pos_iff.mp (h t ht (Or.inr hparked))
  rw [hnone t' ht'] at hnotifies
  cases hnotifies

/-! ### The bucket -/

section
variable {b : TokenBucket} {inner : TokenBucketInner} {now tokens available : ℚ≥0}

/-- A try adds no tokens. -/
theorem tryAcquire_le (hrate : b.refillRate = 0) :
    (b.tryAcquire inner now tokens).1.tokens ≤ inner.tokens := by
  have hrefill : (b.refill inner now).tokens ≤ inner.tokens := by
    rw [TokenBucket.refill, hrate, mul_zero, add_zero]
    exact min_le_left _ _
  rw [TokenBucket.tryAcquire]
  split
  · exact le_trans tsub_le_self hrefill
  · exact hrefill

/-- A try that is refused leaves too few tokens. -/
theorem tryAcquire_refused (h : (b.tryAcquire inner now tokens).2 = false) :
    (b.tryAcquire inner now tokens).1.tokens < tokens := by
  rw [TokenBucket.tryAcquire] at h ⊢
  split at h
  · cases h
  · next hlt =>
    rw [if_neg hlt]
    exact lt_of_not_ge hlt

/-- With fewer tokens fewer threads have enough. -/
theorem beside_mono {t : Thread} {stage : AcquireStage} {available' : ℚ≥0}
    (hle : available' ≤ available) (h : t.beside stage available' = true) :
    t.beside stage available = true := by
  cases t with
  | acquirer tokens st =>
    rw [Thread.beside, Bool.and_eq_true, decide_eq_true_eq, decide_eq_true_eq] at h ⊢
    exact ⟨h.1, le_trans h.2 hle⟩
  | returner tokens st => cases h

end

/-! ### One operation -/

section
variable {b : TokenBucket} {s s' : State}

/-- **What an operation does.** -/
theorem step_cases {a : Action} (h : s.step b a = some s') :
    (∃ t : Thread, (∀ stage, t.beside stage s.inner.tokens = true → stage = .trying) ∧
      t.notifies = false ∧ s' = { s with threads := s.threads ++ [t] }) ∨
    (∃ now tokens, s' = { s with inner := (b.tryAcquire s.inner now tokens).1 }) ∨
    (∃ i now tokens stage inner stage', a = .move i now ∧
      s.threads[i]? = some (.acquirer tokens stage) ∧
      b.acquireStep s.inner now tokens stage = some (inner, stage') ∧
      s' = ⟨inner, s.threads.set i (.acquirer tokens stage')⟩) ∨
    (∃ i now tokens, a = .move i now ∧ s.threads[i]? = some (.returner tokens .returning) ∧
      s' = ⟨b.returnTokens s.inner tokens, s.threads.set i (.returner tokens .notifying)⟩) ∨
    (∃ i now tokens, a = .move i now ∧ s.threads[i]? = some (.returner tokens .notifying) ∧
      s' = ⟨s.inner, (s.threads.map Thread.notify).set i (.returner tokens .done)⟩) ∨
    ∃ i tokens, a = .elapse i ∧ s.threads[i]? = some (.acquirer tokens .parked) ∧
      s' = { s with threads := s.threads.set i (.acquirer tokens .elapsed) } := by
  cases a with
  | acquire tokens =>
    refine Or.inl ⟨.acquirer tokens .trying, fun stage hb => ?_, rfl, (Option.some.inj h).symm⟩
    rw [Thread.beside, Bool.and_eq_true, decide_eq_true_eq] at hb
    exact hb.1.symm
  | returnTokens tokens =>
    exact Or.inl ⟨.returner tokens .returning, fun stage hb => (nomatch hb), rfl,
      (Option.some.inj h).symm⟩
  | tryAcquire now tokens => exact Or.inr (Or.inl ⟨now, tokens, (Option.some.inj h).symm⟩)
  | move i now =>
    rw [State.step] at h
    split at h
    · next tokens stage ht =>
      obtain ⟨⟨inner, stage'⟩, hstep, h⟩ := Option.bind_eq_some_iff.mp h
      exact Or.inr (Or.inr (Or.inl ⟨i, now, tokens, stage, inner, stage', rfl, ht, hstep,
        (Option.some.inj h).symm⟩))
    · next tokens ht =>
      exact Or.inr (Or.inr (Or.inr (Or.inl ⟨i, now, tokens, rfl, ht, (Option.some.inj h).symm⟩)))
    · next tokens ht =>
      exact Or.inr (Or.inr (Or.inr (Or.inr (Or.inl
        ⟨i, now, tokens, rfl, ht, (Option.some.inj h).symm⟩))))
    · cases h
    · cases h
  | elapse i =>
    rw [State.step] at h
    split at h
    · next tokens ht =>
      exact Or.inr (Or.inr (Or.inr (Or.inr (Or.inr ⟨i, tokens, rfl, ht, (Option.some.inj h).symm⟩))))
    · cases h

/-- An operation of `acquire` adds no tokens, and leaves a thread refused only if they are too few. -/
theorem acquireStep_cases {inner : TokenBucketInner} {now tokens : ℚ≥0} {stage stage' : AcquireStage}
    (hrate : b.refillRate = 0) (h : b.acquireStep s.inner now tokens stage = some (inner, stage')) :
    inner.tokens ≤ s.inner.tokens ∧ (stage' = .acquired ∨ stage' = .refused ∧ inner.tokens < tokens ∨
      stage = .refused ∧ stage' = .parked ∧ inner = s.inner) := by
  have htry : some ((b.tryAcquire s.inner now tokens).1,
      if (b.tryAcquire s.inner now tokens).2 = true then AcquireStage.acquired else .refused) =
        some (inner, stage') →
      inner.tokens ≤ s.inner.tokens ∧ (stage' = .acquired ∨ stage' = .refused ∧ inner.tokens < tokens ∨
        stage = .refused ∧ stage' = .parked ∧ inner = s.inner) := by
    intro h
    cases h
    refine ⟨tryAcquire_le hrate, ?_⟩
    cases hok : (b.tryAcquire s.inner now tokens).2 with
    | true => exact Or.inl rfl
    | false => exact Or.inr (Or.inl ⟨rfl, tryAcquire_refused hok⟩)
  cases stage with
  | trying => exact htry h
  | woken => exact htry h
  | refused =>
    cases h
    exact ⟨le_refl _, Or.inr (Or.inr ⟨rfl, rfl, rfl⟩)⟩
  | parked => cases h
  | acquired => cases h
  | elapsed => cases h

/-- Threads at these stages are served as long as the tokens do not grow and no notification is sent. -/
theorem Served.of_le {t : Thread} (h : Served s) (hle : s'.inner.tokens ≤ s.inner.tokens)
    (hcount : s'.threads.countP Thread.notifies = s.threads.countP Thread.notifies)
    (ht : t ∈ s.threads) (hb : t.beside .refused s'.inner.tokens = true ∨
      t.beside .parked s'.inner.tokens = true) : 0 < s'.threads.countP Thread.notifies := by
  rw [hcount]
  exact h t ht (hb.imp (beside_mono hle) (beside_mono hle))

theorem beside_acquirer {tokens available : ℚ≥0} {st stage : AcquireStage} :
    (Thread.acquirer tokens st).beside stage available = true ↔ st = stage ∧ tokens ≤ available := by
  rw [Thread.beside, Bool.and_eq_true, decide_eq_true_eq, decide_eq_true_eq]

/-- A notification that is sent is one less. -/
theorem countP_notified {i : Nat} {tokens : ℚ≥0}
    (hi : s.threads[i]? = some (.returner tokens .notifying)) :
    ((s.threads.map Thread.notify).set i (.returner tokens .done)).countP Thread.notifies + 1 =
      s.threads.countP Thread.notifies := by
  have hmap : (s.threads.map Thread.notify)[i]? = some (.returner tokens .notifying) := by
    rw [List.getElem?_map, hi]
    rfl
  have hsame : (s.threads.map Thread.notify).countP Thread.notifies =
      s.threads.countP Thread.notifies := by
    rw [countP_map]
    refine countP_congr fun t _ => ?_
    cases t <;> exact Iff.rfl
  have hmove := countP_move hmap (.returner tokens .done) Thread.notifies
  rw [hsame] at hmove
  exact hmove

/-- After a notification only those who did not wait are beside tokens. -/
theorem beside_notified {i : Nat} {tokens available : ℚ≥0} {t : Thread}
    (ht : t ∈ (s.threads.map Thread.notify).set i (.returner tokens .done))
    (hb : t.beside .refused available = true ∨ t.beside .parked available = true) :
    ∃ t' ∈ s.threads, t'.beside .refused available = true := by
  rcases mem_or_eq_of_mem_set ht with hold | rfl
  · obtain ⟨t', ht', rfl⟩ := List.mem_map.mp hold
    refine ⟨t', ht', ?_⟩
    cases t' with
    | acquirer tokens stage =>
      simp only [Thread.notify, beside_acquirer] at hb ⊢
      cases stage <;> simp [AcquireStage.notify] at hb ⊢
      exact hb
    | returner tokens stage => rcases hb with hb | hb <;> cases hb
  · rcases hb with hb | hb <;> cases hb

/-- **One operation.** -/
theorem Served.step {a : Action} (hrate : b.refillRate = 0) (h : Served s) (hheard : Heard s a)
    (hstep : s.step b a = some s') : Served s' := by
  obtain ⟨t, hnew, hnotifies, rfl⟩ | ⟨now, tokens, rfl⟩ |
    ⟨i, now, tokens, stage, inner, stage', -, hi, hacquire, rfl⟩ | ⟨i, now, tokens, -, hi, rfl⟩ |
    ⟨i, now, tokens, rfl, hi, rfl⟩ | ⟨i, tokens, -, hi, rfl⟩ := step_cases hstep
  · intro t' ht' hb
    have hcount : (s.threads ++ [t]).countP Thread.notifies = s.threads.countP Thread.notifies := by
      simp [countP_append, hnotifies]
    rcases List.mem_append.mp ht' with hold | hself
    · exact h.of_le (le_refl _) hcount hold hb
    · obtain rfl := List.mem_singleton.mp hself
      rcases hb with hb | hb
      · cases hnew _ hb
      · cases hnew _ hb
  · exact fun t ht hb => h.of_le (tryAcquire_le hrate) rfl ht hb
  · obtain ⟨hle, hcases⟩ := acquireStep_cases hrate hacquire
    have hcount := countP_move_same (p := Thread.notifies) hi
      (show Thread.notifies (.acquirer tokens stage') = Thread.notifies (.acquirer tokens stage) from rfl)
    intro t ht hb
    rcases mem_or_eq_of_mem_set ht with hold | rfl
    · exact h.of_le hle hcount hold hb
    · simp only [beside_acquirer] at hb
      rcases hcases with rfl | ⟨rfl, hlt⟩ | ⟨rfl, rfl, rfl⟩
      · rcases hb with ⟨hb, -⟩ | ⟨hb, -⟩ <;> cases hb
      · rcases hb with ⟨-, hb⟩ | ⟨hb, -⟩
        · exact absurd hb (not_le_of_gt hlt)
        · cases hb
      · -- the future is created: the thread was refused before
        refine h.of_le (le_refl _) hcount (List.mem_of_getElem? hi) (Or.inl ?_)
        rcases hb with ⟨hb, -⟩ | ⟨-, hb⟩
        · cases hb
        · exact beside_acquirer.mpr ⟨rfl, hb⟩
  · intro t _ _
    have hcount := countP_move hi (.returner tokens .notifying) Thread.notifies
    simp only [Thread.notifies] at hcount
    simp at hcount
    simp only
    omega
  · have hcount := countP_notified hi
    rcases hheard _ hi rfl with hmore | hnone
    · intro t _ _
      simp only
      omega
    · intro t ht hb
      obtain ⟨t', ht', hb'⟩ := beside_notified ht hb
      rw [hnone t' ht'] at hb'
      cases hb'
  · intro t ht hb
    have hcount := countP_move_same (p := Thread.notifies) hi
      (show Thread.notifies (.acquirer tokens .elapsed) = Thread.notifies (.acquirer tokens .parked) from rfl)
    rcases mem_or_eq_of_mem_set ht with hold | rfl
    · exact h.of_le (le_refl _) hcount hold hb
    · simp only [beside_acquirer] at hb
      rcases hb with ⟨hb, -⟩ | ⟨hb, -⟩ <;> cases hb

theorem notifies_iff {t : Thread} : t.notifies = true ↔ ∃ tokens, t = .returner tokens .notifying := by
  constructor
  · intro h
    cases t with
    | acquirer tokens stage => cases h
    | returner tokens stage =>
      cases stage with
      | notifying => exact ⟨tokens, rfl⟩
      | returning => cases h
      | done => cases h
  · rintro ⟨tokens, rfl⟩
    rfl

theorem beside_iff {t : Thread} {stage : AcquireStage} {available : ℚ≥0} :
    t.beside stage available = true ↔ ∃ tokens, t = .acquirer tokens stage ∧ tokens ≤ available := by
  constructor
  · intro h
    cases t with
    | acquirer tokens st =>
      obtain ⟨rfl, hle⟩ := beside_acquirer.mp h
      exact ⟨tokens, rfl, hle⟩
    | returner tokens st => cases h
  · rintro ⟨tokens, rfl, hle⟩
    exact beside_acquirer.mpr ⟨rfl, hle⟩

/-- **A notification that is not heard**: a thread that was refused waits next, for nothing. -/
theorem lost_of_not_heard {a : Action} (hheard : ¬ Heard s a) :
    ∃ s' s'', s.step b a = some s' ∧ Near b s' s'' ∧ LostWakeup s'' := by
  cases a with
  | acquire tokens => exact absurd trivial hheard
  | returnTokens tokens => exact absurd trivial hheard
  | tryAcquire now tokens => exact absurd trivial hheard
  | elapse i => exact absurd trivial hheard
  | move i now =>
    simp only [Heard, not_forall, not_or, exists_prop] at hheard
    obtain ⟨t, hi, hnotifies, hlast, t', ht', hrefused⟩ := hheard
    obtain ⟨tokens, rfl⟩ := notifies_iff.mp hnotifies
    obtain ⟨asked, rfl, hle⟩ := beside_iff.mp (Bool.not_eq_false _ ▸ hrefused)
    obtain ⟨j, hj⟩ := List.mem_iff_getElem?.mp ht'
    have hij : i ≠ j := by
      rintro rfl
      rw [hi] at hj
      cases hj
    have hnext : ((s.threads.map Thread.notify).set i (.returner tokens .done))[j]? =
        some (.acquirer asked .refused) := by
      rw [List.getElem?_set_ne hij, List.getElem?_map, hj]
      rfl
    refine ⟨⟨s.inner, (s.threads.map Thread.notify).set i (.returner tokens .done)⟩,
      ⟨s.inner, ((s.threads.map Thread.notify).set i (.returner tokens .done)).set j
        (.acquirer asked .parked)⟩, by simp only [State.step, hi], Or.inr ⟨j, _, now, hnext, rfl, ?_⟩,
      ⟨.acquirer asked .parked, ?_, ?_⟩, fun u hu => ?_⟩
    · simp only [State.step, hnext, TokenBucket.acquireStep, Option.pure_def, Option.bind_eq_bind,
        Option.bind_some]
    · exact mem_set (List.getElem?_eq_some_iff.mp hnext).1 _
    · exact beside_acquirer.mpr ⟨rfl, hle⟩
    · have hcount := countP_notified hi
      have hsame := countP_move_same (p := Thread.notifies) hnext
        (show Thread.notifies (.acquirer asked .parked) =
          Thread.notifies (.acquirer asked .refused) from rfl)
      by_contra hu'
      have hpos : 0 < (((s.threads.map Thread.notify).set i (.returner tokens .done)).set j
          (.acquirer asked .parked)).countP Thread.notifies :=
        List.countP_pos_iff.mpr ⟨u, hu, Bool.not_eq_false _ ▸ hu'⟩
      omega

end

/-! ### Runs -/

/-- The bucket of the limiter: nothing comes back by itself. -/
def limiter (capacity : Nat) : TokenBucket := (TokenBucket.new capacity 0).1

/-- It is full, and nobody has called. -/
def State.init (capacity : Nat) : State := ⟨(TokenBucket.new capacity 0).2, []⟩

section
variable {b : TokenBucket} {s s' : State}

theorem Served.near (hrate : b.refillRate = 0) (h : Served s) (hnear : Near b s s') : Served s' := by
  rcases hnear with rfl | ⟨i, t, now, hi, hregisters, hstep⟩
  · exact h
  · refine h.step (a := .move i now) hrate (fun t' hi' hnotifies => ?_) hstep
    -- a thread that goes to wait does not notify
    rw [hi] at hi'
    cases hi'
    obtain ⟨tokens, rfl⟩ := notifies_iff.mp hnotifies
    cases hregisters

end

/-- **No wake-up is lost along a run, whoever goes to wait next, exactly when no step of it sends the
last pending notification while a thread that was refused tokens does not wait yet and the tokens are
there.** -/
theorem wakeups_iff (capacity : Nat) (actions : List Action) :
    (∀ k s, Runs.exec (State.step (limiter capacity)) (State.init capacity) (actions.take k) = some s →
        ∀ s', Near (limiter capacity) s s' → ¬ LostWakeup s') ↔
      ∀ k s a, Runs.exec (State.step (limiter capacity)) (State.init capacity) (actions.take k) =
        some s → actions[k]? = some a → Heard s a := by
  constructor
  · intro h k s a hs ha
    by_contra hheard
    obtain ⟨s', s'', hstep, hnear, hlost⟩ := lost_of_not_heard (b := limiter capacity) hheard
    have hs' : Runs.exec (State.step (limiter capacity)) (State.init capacity)
        (actions.take (k + 1)) = some s' := by
      rw [Runs.exec_take_succ _ ha, hs]
      exact hstep
    exact h (k + 1) s' hs' s'' hnear hlost
  · intro hheard k s hs s' hnear
    have hserved : Served s := Runs.exec_invariant (J := Served) (C := Heard)
      (fun h hh hstep => h.step rfl hh hstep) (fun t ht _ => absurd ht not_mem_nil) hheard k s hs
    exact (hserved.near rfl hnear).not_lost

/-- One token, which is taken.  A call of `acquire` is refused; the token comes back, with its
notification; the call goes to wait. -/
def lateWaiter : List Action :=
  [.tryAcquire 0 1, .acquire 1, .move 0 0, .returnTokens 1, .move 1 0, .move 1 0, .move 0 0]

/-- **A notification is missed**: `acquire` waits beside the token it asked for. -/
theorem missed_notification :
    ¬ ∀ capacity actions s, Runs.exec (State.step (limiter capacity)) (State.init capacity) actions =
      some s → ¬ LostWakeup s := by
  intro h
  have hrun : Runs.exec (State.step (limiter 1)) (State.init 1) lateWaiter =
      some ⟨⟨1, 0⟩, [.acquirer 1 .parked, .returner 1 .done]⟩ := by
    decide +kernel
  exact h 1 lateWaiter _ hrun (by decide +kernel)

end QwenStack.Limiter
