import Mathlib.Data.NNRat.Defs
import Mathlib.Algebra.Order.Ring.NNRat
import Mathlib.Tactic.Linarith
import Mathlib.Tactic.Ring
import QwenStack.Limiter.Definitions

/-!
# Concurrency limiter — what a bucket grants

The arithmetic of `try_acquire_sync` and `return_tokens_sync` with signed numbers, as the code's are, so
that a bucket in debt could be written down.  None is: `granted_le` bounds what any stretch of calls is
granted, by the capacity, the refill and what is returned, and `signed_tryAcquire` and
`signed_returnTokens` say that the bucket of `Limiter.Definitions` is this one.

The argument is a potential.  `TokenBucket.available` is what a bucket could give at a time, were it
refilled then.  A call that is granted tokens takes them from it, a return adds at most its tokens, and
between two calls it grows by no more than the refill.
-/

namespace QwenStack.Limiter

open List

/-- `TokenBucketInner`, with signed numbers. -/
structure SignedInner where
  tokens : ℚ
  lastRefill : ℚ
  deriving DecidableEq

def TokenBucketInner.signed (inner : TokenBucketInner) : SignedInner :=
  ⟨inner.tokens, inner.lastRefill⟩

/-- A call, with its tokens.  It takes the lock once. -/
inductive Call where
  | tryAcquire (tokens : ℚ≥0)
  | returnTokens (tokens : ℚ≥0)
  deriving DecidableEq

/-- The tokens that a call returns. -/
def Call.returned : Call → ℚ≥0
  | .tryAcquire _ => 0
  | .returnTokens tokens => tokens

namespace TokenBucket

/-- `TokenBucket::new` at a time, what the lock protects. -/
def signedNew (capacity refillRate : Nat) (created : ℚ) : SignedInner :=
  { (TokenBucket.new capacity refillRate).2.signed with lastRefill := created }

/-- `try_acquire_sync`.  `duration_since` is zero for a clock that runs backwards. -/
def tryAcquireSync (b : TokenBucket) (inner : SignedInner) (now tokens : ℚ) : SignedInner × Bool :=
  let elapsed := max (now - inner.lastRefill) 0
  let refilled := min (inner.tokens + elapsed * b.refillRate) b.capacity
  if tokens ≤ refilled then (⟨refilled - tokens, now⟩, true) else (⟨refilled, now⟩, false)

/-- `return_tokens_sync`, the part under the lock. -/
def returnTokensSync (b : TokenBucket) (inner : SignedInner) (tokens : ℚ) : SignedInner :=
  { inner with tokens := min (inner.tokens + tokens) b.capacity }

/-- A call at a time, and the tokens it is granted. -/
def call (b : TokenBucket) (inner : SignedInner) (now : ℚ) : Call → SignedInner × ℚ≥0
  | .tryAcquire tokens =>
      let tried := b.tryAcquireSync inner now tokens
      (tried.1, if tried.2 = true then tokens else 0)
  | .returnTokens tokens => (b.returnTokensSync inner tokens, 0)

/-- The bucket after the calls, each at its time. -/
def calls (b : TokenBucket) (inner : SignedInner) : List (ℚ × Call) → SignedInner
  | [] => inner
  | (now, c) :: cs => b.calls (b.call inner now c).1 cs

/-- The tokens that the calls are granted. -/
def granted (b : TokenBucket) (inner : SignedInner) : List (ℚ × Call) → ℚ≥0
  | [] => 0
  | (now, c) :: cs => (b.call inner now c).2 + b.granted (b.call inner now c).1 cs

end TokenBucket

/-- The tokens that the calls return. -/
def returned (cs : List (ℚ × Call)) : ℚ≥0 := (cs.map (·.2.returned)).sum

/-! ### The bucket of the definitions -/

/-- A difference that stops at zero, as a difference of signed numbers. -/
theorem coe_tsub (p q : ℚ≥0) : ((p - q : ℚ≥0) : ℚ) = max ((p : ℚ) - q) 0 := by
  rcases le_total q p with hle | hle
  · rw [NNRat.coe_sub hle, max_eq_left (sub_nonneg.mpr (NNRat.coe_le_coe.mpr hle))]
  · rw [tsub_eq_zero_of_le hle, NNRat.coe_zero,
      max_eq_right (sub_nonpos.mpr (NNRat.coe_le_coe.mpr hle))]

theorem signed_tryAcquire (b : TokenBucket) (inner : TokenBucketInner) (now tokens : ℚ≥0) :
    b.tryAcquireSync inner.signed now tokens =
      ((b.tryAcquire inner now tokens).1.signed, (b.tryAcquire inner now tokens).2) := by
  have hrefill : min ((inner.tokens : ℚ) + max ((now : ℚ) - inner.lastRefill) 0 * b.refillRate)
      b.capacity = ((b.refill inner now).tokens : ℚ) := by
    rw [TokenBucket.refill, NNRat.coe_min, NNRat.cast_add, NNRat.cast_mul, coe_tsub]
  simp only [TokenBucket.tryAcquireSync, TokenBucketInner.signed, TokenBucket.tryAcquire, hrefill,
    NNRat.cast_le]
  split
  · next hle => rw [NNRat.coe_sub hle]; rfl
  · rfl

theorem signed_returnTokens (b : TokenBucket) (inner : TokenBucketInner) (tokens : ℚ≥0) :
    b.returnTokensSync inner.signed tokens = (b.returnTokens inner tokens).signed := by
  simp only [TokenBucket.returnTokensSync, TokenBucketInner.signed, TokenBucket.returnTokens,
    NNRat.coe_min, NNRat.cast_add]

/-! ### The potential -/

/-- The tokens are within the bucket, and the last refill is past. -/
structure SignedInner.Sound (b : TokenBucket) (inner : SignedInner) (t : ℚ) : Prop where
  nonneg : 0 ≤ inner.tokens
  le_capacity : inner.tokens ≤ b.capacity
  refilled : inner.lastRefill ≤ t

/-- What the bucket could give at a time. -/
def TokenBucket.available (b : TokenBucket) (inner : SignedInner) (t : ℚ) : ℚ :=
  min (inner.tokens + (t - inner.lastRefill) * b.refillRate) b.capacity

section
variable {b : TokenBucket} {inner : SignedInner} {t t' : ℚ}

theorem SignedInner.Sound.mono (h : inner.Sound b t) (hle : t ≤ t') : inner.Sound b t' :=
  { h with refilled := h.refilled.trans hle }

theorem available_le : b.available inner t ≤ b.capacity := min_le_right _ _

theorem available_nonneg (h : inner.Sound b t) : 0 ≤ b.available inner t := by
  have hgain : 0 ≤ (t - inner.lastRefill) * b.refillRate :=
    mul_nonneg (sub_nonneg.mpr h.refilled) b.refillRate.coe_nonneg
  exact le_min (add_nonneg h.nonneg hgain) b.capacity.coe_nonneg

/-- At the time of its last refill a bucket could give what it has. -/
theorem available_self {tokens : ℚ} (hle : tokens ≤ b.capacity) :
    b.available ⟨tokens, t⟩ t = tokens := by
  rw [TokenBucket.available, sub_self, zero_mul, add_zero, min_eq_left hle]

/-- Between two calls it grows by no more than the refill. -/
theorem available_mono (hle : t ≤ t') :
    b.available inner t' ≤ b.available inner t + b.refillRate * (t' - t) := by
  have hgain : 0 ≤ (b.refillRate : ℚ) * (t' - t) :=
    mul_nonneg b.refillRate.coe_nonneg (sub_nonneg.mpr hle)
  have hsplit : inner.tokens + (t' - inner.lastRefill) * b.refillRate =
      inner.tokens + (t - inner.lastRefill) * b.refillRate + b.refillRate * (t' - t) := by ring
  rw [TokenBucket.available, TokenBucket.available, hsplit, ← min_add_add_right]
  exact min_le_min le_rfl (le_add_of_nonneg_right hgain)

/-! ### One call -/

/-- A try refills, and takes the tokens if they are there. -/
theorem tryAcquireSync_eq (h : inner.Sound b t) (tokens : ℚ) : b.tryAcquireSync inner t tokens =
      if tokens ≤ b.available inner t then (⟨b.available inner t - tokens, t⟩, true)
      else (⟨b.available inner t, t⟩, false) := by
  rw [TokenBucket.tryAcquireSync, max_eq_left (sub_nonneg.mpr h.refilled)]
  rfl

/-- A call keeps the tokens within the bucket. -/
theorem sound_call (h : inner.Sound b t) (c : Call) : (b.call inner t c).1.Sound b t := by
  cases c with
  | tryAcquire tokens =>
    have hnonneg := available_nonneg h
    have hle : b.available inner t ≤ b.capacity := available_le
    simp only [TokenBucket.call, tryAcquireSync_eq h]
    split
    · next henough =>
      exact ⟨sub_nonneg.mpr henough, (sub_le_self _ tokens.coe_nonneg).trans hle, le_rfl⟩
    · exact ⟨hnonneg, hle, le_rfl⟩
  | returnTokens tokens =>
    exact ⟨le_min (add_nonneg h.nonneg tokens.coe_nonneg) b.capacity.coe_nonneg,
      min_le_right _ _, h.refilled⟩

/-- **What a call grants.**  It comes out of what the bucket could give, and of what is returned. -/
theorem granted_call (h : inner.Sound b t) (c : Call) :
    (b.call inner t c).2 + b.available (b.call inner t c).1 t ≤ b.available inner t + c.returned := by
  cases c with
  | tryAcquire tokens =>
    have hle : b.available inner t ≤ b.capacity := available_le
    simp only [TokenBucket.call, tryAcquireSync_eq h, Call.returned, NNRat.coe_zero, add_zero]
    split
    · rw [if_pos rfl, available_self ((sub_le_self _ tokens.coe_nonneg).trans hle)]
      exact (add_sub_cancel _ _).le
    · rw [if_neg Bool.false_ne_true, available_self hle, NNRat.coe_zero, zero_add]
  | returnTokens tokens =>
    -- A return that fills the bucket is worth less than its tokens.
    have hcapped : min (inner.tokens + tokens) b.capacity + (t - inner.lastRefill) * b.refillRate ≤
        inner.tokens + (t - inner.lastRefill) * b.refillRate + tokens := by
      linarith [min_le_left (inner.tokens + tokens) (b.capacity : ℚ)]
    rw [TokenBucket.call, Call.returned, NNRat.coe_zero, zero_add, TokenBucket.available,
      TokenBucket.available, ← min_add_add_right]
    exact min_le_min hcapped (le_add_of_nonneg_right tokens.coe_nonneg)

/-! ### A run -/

/-- **What a run grants**, from a time on to another. -/
theorem granted_calls {cs : List (ℚ × Call)} (h : inner.Sound b t)
    (hmono : (t :: cs.map Prod.fst).Pairwise (· ≤ ·)) (hend : ∀ c ∈ cs, c.1 ≤ t') (hle : t ≤ t') :
    b.granted inner cs + b.available (b.calls inner cs) t' ≤
        b.available inner t + b.refillRate * (t' - t) + returned cs ∧
      (b.calls inner cs).Sound b t' := by
  induction cs generalizing inner t with
  | nil =>
    refine ⟨?_, h.mono hle⟩
    rw [TokenBucket.granted, TokenBucket.calls, returned, map_nil, sum_nil,
      NNRat.coe_zero, zero_add, add_zero]
    exact available_mono hle
  | cons head cs ih =>
    obtain ⟨now, c⟩ := head
    rw [map_cons, pairwise_cons] at hmono
    have hnow : t ≤ now := hmono.1 now mem_cons_self
    have hnow' : now ≤ t' := hend (now, c) mem_cons_self
    have hat := h.mono hnow
    obtain ⟨hrest, hsound⟩ := ih (sound_call hat c) hmono.2
      (fun c' hc' => hend c' (mem_cons_of_mem _ hc')) hnow'
    refine ⟨?_, hsound⟩
    have hone := granted_call hat c
    have hgap : b.available inner now ≤ b.available inner t + b.refillRate * (now - t) :=
      available_mono hnow
    have hreturned : (returned ((now, c) :: cs) : ℚ) = c.returned + returned cs := by
      rw [returned, map_cons, sum_cons, NNRat.coe_add]
      rfl
    rw [TokenBucket.granted, TokenBucket.calls, NNRat.coe_add, hreturned]
    linarith

/-- After the first calls of a run the tokens are within the bucket, and the others are still to come. -/
theorem sound_calls {before after : List (ℚ × Call)} (h : inner.Sound b t)
    (hmono : (t :: (before ++ after).map Prod.fst).Pairwise (· ≤ ·)) :
    ∃ t', (b.calls inner before).Sound b t' ∧ (t' :: after.map Prod.fst).Pairwise (· ≤ ·) := by
  induction before generalizing inner t with
  | nil => exact ⟨t, h, hmono⟩
  | cons head before ih =>
    obtain ⟨now, c⟩ := head
    rw [cons_append, map_cons, pairwise_cons] at hmono
    exact ih (sound_call (h.mono (hmono.1 now mem_cons_self)) c) hmono.2

end

/-- A bucket as `TokenBucket::new` builds it. -/
theorem sound_signedNew (capacity refillRate : Nat) (created : ℚ) :
    (TokenBucket.signedNew capacity refillRate created).Sound (TokenBucket.new capacity refillRate).1
      created where
  nonneg := NNRat.coe_nonneg _
  le_capacity := le_rfl
  refilled := le_rfl

/-- **The bucket never over-grants.**  After any calls its tokens are within it, and any calls that
follow from one time to another are granted no more than the capacity, the refill and what they
return. -/
theorem granted_le (capacity refillRate : Nat) (created t₀ t₁ : ℚ) (before stretch : List (ℚ × Call))
    (hmono : (created :: (before ++ stretch).map Prod.fst).Pairwise (· ≤ ·))
    (hstretch : ∀ c ∈ stretch, t₀ ≤ c.1 ∧ c.1 ≤ t₁) (hle : t₀ ≤ t₁) :
    let b := (TokenBucket.new capacity refillRate).1
    let inner := b.calls (TokenBucket.signedNew capacity refillRate created) before
    0 ≤ inner.tokens ∧ inner.tokens ≤ capacity ∧
      b.granted inner stretch ≤ capacity + refillRate * (t₁ - t₀) + returned stretch := by
  intro b inner
  have hcapacity : (b.capacity : ℚ) = capacity := NNRat.cast_natCast capacity
  have hrate : (b.refillRate : ℚ) = refillRate := NNRat.cast_natCast refillRate
  obtain ⟨t, hsound, hafter⟩ := sound_calls (sound_signedNew capacity refillRate created) hmono
  refine ⟨hsound.nonneg, hcapacity ▸ hsound.le_capacity, ?_⟩
  have hrefill : 0 ≤ (b.refillRate : ℚ) * (t₁ - t₀) :=
    mul_nonneg b.refillRate.coe_nonneg (sub_nonneg.mpr hle)
  rw [← hcapacity, ← hrate]
  cases stretch with
  | nil =>
    have hzero : (b.granted inner [] : ℚ) = 0 := NNRat.coe_zero
    linarith [b.capacity.coe_nonneg, (returned []).coe_nonneg]
  | cons c cs =>
    -- The stretch begins after the calls before, and not before `t₀`.
    have hstart : (max t t₀ :: (c :: cs).map Prod.fst).Pairwise (· ≤ ·) := by
      refine List.pairwise_cons.mpr ⟨fun now hnow => ?_, (List.pairwise_cons.mp hafter).2⟩
      obtain ⟨c', hc', rfl⟩ := List.mem_map.mp hnow
      exact max_le ((List.pairwise_cons.mp hafter).1 _ hnow) (hstretch c' hc').1
    have hend : max t t₀ ≤ t₁ :=
      ((List.pairwise_cons.mp hstart).1 c.1 mem_cons_self).trans
        (hstretch c mem_cons_self).2
    obtain ⟨hgranted, hsound'⟩ := granted_calls (hsound.mono (le_max_left t t₀)) hstart
      (fun c' hc' => (hstretch c' hc').2) hend
    have hshorter : (b.refillRate : ℚ) * (t₁ - max t t₀) ≤ b.refillRate * (t₁ - t₀) :=
      mul_le_mul_of_nonneg_left (sub_le_sub_left (le_max_right t t₀) t₁) b.refillRate.coe_nonneg
    have hfull : b.available inner (max t t₀) ≤ b.capacity := available_le
    linarith [available_nonneg hsound']

/-- Two tokens and one a second: four are granted within a second, of which one was returned. -/
theorem granted_le_example :
    let b := (TokenBucket.new 2 1).1
    let inner := b.calls (TokenBucket.signedNew 2 1 0) [(0, .tryAcquire 1)]
    let stretch := [(1, .tryAcquire 2), (1, .returnTokens 1), (2, .tryAcquire 2), (2, .tryAcquire 1)]
    b.granted inner stretch = 4 ∧
      (0 ≤ inner.tokens ∧ inner.tokens ≤ (2 : Nat) ∧
        b.granted inner stretch ≤ (2 : Nat) + (1 : Nat) * (2 - 1 : ℚ) + returned stretch) :=
  ⟨by decide +kernel, granted_le 2 1 0 1 2 [(0, .tryAcquire 1)]
    [(1, .tryAcquire 2), (1, .returnTokens 1), (2, .tryAcquire 2), (2, .tryAcquire 1)]
    (by decide +kernel) (by decide +kernel) (by decide +kernel)⟩

end QwenStack.Limiter
