import Mathlib.Data.List.TakeWhile
import QwenStack.Reasoning.Definitions

/-!
# Reasoning — what one step can do

For the words of `Qwen3Detector`: the choice between the events of a held tool tag
(`processTcHeld_cases`), the choice of a chunk in reasoning (`dispatch_cases`), and what is held
back (`holdback_covers`).
-/

namespace QwenStack.Reasoning
open Marker List

/-! ### The words -/

theorem marked_thinkStart : Marked '<' thinkStart := ⟨rfl, by decide⟩

theorem marked_thinkEnd : Marked '<' thinkEnd := ⟨rfl, by decide⟩

theorem marked_toolCall : Marked '<' toolCall := ⟨rfl, by decide⟩

theorem marked_functionPrefix : Marked '<' functionPrefix := ⟨rfl, by decide⟩

theorem apart_end_tool : Apart thinkEnd toolCall := ⟨by decide, by decide⟩

theorem apart_end_function : Apart thinkEnd functionPrefix := ⟨by decide, by decide⟩

theorem apart_tool_function : Apart toolCall functionPrefix := ⟨by decide, by decide⟩

theorem apart_start_end : Apart thinkStart thinkEnd := ⟨by decide, by decide⟩

theorem apart_start_tool : Apart thinkStart toolCall := ⟨by decide, by decide⟩

/-! ### Blocks -/

/-- The text after a tool tag opens a block. -/
def OpensBlock (rest : Str) : Prop := functionPrefix <+: lstrip rest

instance (rest : Str) : Decidable (OpensBlock rest) :=
  inferInstanceAs (Decidable (functionPrefix <+: lstrip rest))

theorem opensBlock_iff (rest : Str) : qwen3Detector.opensBlock rest = true ↔ OpensBlock rest := by
  simp [Format.opensBlock, qwen3Detector, OpensBlock, marked_functionPrefix.ne_nil]

/-- A block is whitespace and the block prefix. -/
theorem opensBlock_iff_exists {rest : Str} :
    OpensBlock rest ↔ ∃ ws w, rest = ws ++ functionPrefix ++ w ∧ ∀ c ∈ ws, isSpace c = true := by
  constructor
  · rintro ⟨w, hw⟩
    refine ⟨rest.takeWhile isSpace, w, ?_, fun c hc => mem_takeWhile_imp hc⟩
    rw [append_assoc, hw]
    exact (takeWhile_append_dropWhile).symm
  · rintro ⟨ws, w, rfl, hws⟩
    refine ⟨w, ?_⟩
    rw [lstrip, append_assoc, dropWhile_append_of_pos hws]
    rfl

theorem not_mem_of_space {ws : Str} (h : ∀ c ∈ ws, isSpace c = true) : '<' ∉ ws :=
  fun hm => absurd (h _ hm) (by decide)

theorem lstrip_block {ws w : Str} (h : ∀ c ∈ ws, isSpace c = true) :
    lstrip (ws ++ functionPrefix ++ w) = functionPrefix ++ w := by
  rw [lstrip, append_assoc, dropWhile_append_of_pos h]
  rfl

theorem OpensBlock.append {rest : Str} (h : OpensBlock rest) (x : Str) : OpensBlock (rest ++ x) := by
  obtain ⟨ws, w, rfl, hws⟩ := opensBlock_iff_exists.mp h
  exact opensBlock_iff_exists.mpr ⟨ws, w ++ x, by simp, hws⟩

/-- A block that has not arrived yet has no other word in it. -/
theorem OpensBlock.not_infix_before {rest v tok : Str} (h : OpensBlock v) (hp : rest <+: v)
    (hn : ¬ OpensBlock rest) (hm : Marked '<' tok) (hne : Apart tok functionPrefix) :
    ¬ tok <:+: rest := by
  obtain ⟨ws, w, rfl, hws⟩ := opensBlock_iff_exists.mp h
  intro hi
  -- either the block prefix is still cut, or it has arrived
  rcases prefix_or_prefix_of_prefix hp (prefix_append _ w) with hle | ⟨x, rfl⟩
  · have := hi.trans hle.isInfix
    rw [hm.infix_append_of_not_mem (not_mem_of_space hws)] at this
    exact hne.left (hm.infix_marked marked_functionPrefix prefix_rfl this)
  · exact hn (opensBlock_iff_exists.mpr ⟨ws, x, rfl, hws⟩)

/-! ### The held tool tag -/

/-- The state once reasoning is closed. -/
def State.close (s : State) : State := { s with inReasoning := false, heldTc := none, buffer := [] }

/-- The candidates, by their place in the text after the tag. -/
theorem tcDecision_eq (rest : Str) : tcDecision qwen3Detector (toolCall ++ rest) = earliest
        (((find thinkEnd rest).map (· + 11)).toList.map (Event.thinkEnd, ·) ++
          ((find toolCall rest).map (· + 11)).toList.map (Event.nextTc, ·) ++
          (if OpensBlock rest then some (11 + (rest.length - (lstrip rest).length))
            else none).toList.map (Event.wf, ·)) := by
  have hend : find thinkEnd (toolCall ++ rest) = (find thinkEnd rest).map (· + 11) :=
    find_apart marked_thinkEnd marked_toolCall apart_end_tool rest
  have hdrop : (toolCall ++ rest).drop 11 = rest := rfl
  have htool : qwen3Detector.toolStartToken.getD [] = toolCall := rfl
  have hlen : toolCall.length = 11 := rfl
  simp only [tcDecision, htool, hlen, hdrop, opensBlock_iff]
  rw [show qwen3Detector.thinkEndToken = thinkEnd from rfl, hend]

/-- The candidate that comes last in the list wins where it is before the others. -/
theorem earliest_append {cs : List (Event × Nat)} {e : Event} {i : Nat} (h : ∀ c ∈ cs, i < c.2) :
    earliest (cs ++ [(e, i)]) = some (e, i) := by
  have hfold : ∀ (cs : List (Event × Nat)) (m : Event × Nat), i < m.2 → (∀ c ∈ cs, i < c.2) →
      i < (cs.foldl (fun m x => if x.2 < m.2 then x else m) m).2 := by
    intro cs
    induction cs with
    | nil => exact fun m hm _ => hm
    | cons c cs ih =>
      intro m hm hcs
      refine ih _ ?_ fun c' hc' => hcs c' (mem_cons_of_mem _ hc')
      dsimp only
      split
      · exact hcs c mem_cons_self
      · exact hm
  cases cs with
  | nil => rfl
  | cons c cs =>
    rw [cons_append, earliest, foldl_append, foldl_cons, foldl_nil, if_pos]
    exact hfold cs c (h c mem_cons_self) fun c' hc' => h c' (mem_cons_of_mem _ hc')

/-- The candidate that comes first in the list wins where no other is before it. -/
theorem earliest_cons {cs : List (Event × Nat)} {e : Event} {i : Nat} (h : ∀ c ∈ cs, i ≤ c.2) :
    earliest ((e, i) :: cs) = some (e, i) := by
  rw [earliest, Option.some.injEq]
  induction cs with
  | nil => rfl
  | cons c cs ih =>
    rw [foldl_cons, if_neg (Nat.not_lt.mpr (h c mem_cons_self))]
    exact ih fun c' hc' => h c' (mem_cons_of_mem _ hc')

/-- A block comes before the other events. -/
theorem tcDecision_opens {rest : Str} (h : OpensBlock rest) :
    ∃ i, tcDecision qwen3Detector (toolCall ++ rest) = some (.wf, i) := by
  obtain ⟨ws, w, rfl, hws⟩ := opensBlock_iff_exists.mp h
  refine ⟨11 + ((ws ++ functionPrefix ++ w).length - (lstrip (ws ++ functionPrefix ++ w)).length), ?_⟩
  rw [tcDecision_eq, if_pos h, Option.toList_some, map_cons, map_nil]
  refine earliest_append fun c hc => ?_
  -- the place of the block is right after the whitespace
  rw [lstrip_block hws]
  have hlen : (ws ++ functionPrefix ++ w).length - (functionPrefix ++ w).length = ws.length := by
    simp only [length_append]
    omega
  rw [hlen]
  simp only [mem_append, mem_map, Option.mem_toList, Option.map_eq_some_iff] at hc
  have hws' := not_mem_of_space hws
  rcases hc with ⟨_, ⟨i, hi, rfl⟩, rfl⟩ | ⟨_, ⟨i, hi, rfl⟩, rfl⟩
  · have := lt_of_find marked_thinkEnd marked_functionPrefix apart_end_function
      (marked_thinkEnd.not_infix_of_not_mem hws') hi
    simp only
    omega
  · have := lt_of_find marked_toolCall marked_functionPrefix apart_tool_function
      (marked_toolCall.not_infix_of_not_mem hws') hi
    simp only
    omega

theorem tcDecision_end {u v : Str} (h : ¬ OpensBlock (u ++ thinkEnd ++ v))
    (he : ¬ thinkEnd <:+: u) (ht : ¬ toolCall <:+: u) :
    tcDecision qwen3Detector (toolCall ++ (u ++ thinkEnd ++ v)) = some (.thinkEnd, u.length + 11) := by
  rw [tcDecision_eq, if_neg h, find_append marked_thinkEnd he]
  simp only [Option.map_some, Option.toList_some, Option.toList_none, map_cons,
    map_nil, append_nil, cons_append, nil_append]
  refine earliest_cons fun c hc => ?_
  simp only [mem_map, Option.mem_toList, Option.map_eq_some_iff] at hc
  obtain ⟨_, ⟨i, hi, rfl⟩, rfl⟩ := hc
  have := lt_of_find marked_toolCall marked_thinkEnd apart_end_tool.symm ht hi
  simp only
  omega

theorem tcDecision_next {u v : Str} (h : ¬ OpensBlock (u ++ toolCall ++ v))
    (he : ¬ thinkEnd <:+: u) (ht : ¬ toolCall <:+: u) :
    tcDecision qwen3Detector (toolCall ++ (u ++ toolCall ++ v)) = some (.nextTc, u.length + 11) := by
  rw [tcDecision_eq, if_neg h, find_append marked_toolCall ht]
  simp only [Option.map_some, Option.toList_some, Option.toList_none, map_cons, map_nil, append_nil]
  refine earliest_append fun c hc => ?_
  simp only [mem_map, Option.mem_toList, Option.map_eq_some_iff] at hc
  obtain ⟨_, ⟨i, hi, rfl⟩, rfl⟩ := hc
  have := lt_of_find marked_thinkEnd marked_toolCall apart_end_tool he hi
  simp only
  omega

theorem tcDecision_none {rest : Str} (h : ¬ OpensBlock rest) (he : ¬ thinkEnd <:+: rest)
    (ht : ¬ toolCall <:+: rest) : tcDecision qwen3Detector (toolCall ++ rest) = none := by
  rw [tcDecision_eq, if_neg h, find_eq_none.mpr he, find_eq_none.mpr ht]
  rfl

theorem take_held (u x : Str) :
    (toolCall ++ (u ++ x)).take (u.length + 11) = toolCall ++ u := by
  have hlen : (toolCall ++ u).length = u.length + 11 := by
    rw [length_append, Nat.add_comm]
    rfl
  rw [← append_assoc, take_left' hlen]

theorem drop_held (n : Nat) (x : Str) : (toolCall ++ x).drop (n + 11) = x.drop n := by
  rw [Nat.add_comm, ← drop_drop]
  rfl

/-- **What a held tool tag becomes**, by the text after it. -/
theorem processTcHeld_cases (s : State) (rest : Str) : (OpensBlock rest ∧
      processTcHeld qwen3Detector s (toolCall ++ rest) = (s.close, ⟨toolCall ++ rest, []⟩)) ∨
    (¬ OpensBlock rest ∧ ((∃ u v, rest = u ++ thinkEnd ++ v ∧ ¬ thinkEnd <:+: u ∧ ¬ toolCall <:+: u ∧
          processTcHeld qwen3Detector s (toolCall ++ rest) = (s.close, ⟨v, toolCall ++ u⟩)) ∨
        (∃ u v, rest = u ++ toolCall ++ v ∧ ¬ thinkEnd <:+: u ∧ ¬ toolCall <:+: u ∧
          processTcHeld qwen3Detector s (toolCall ++ rest) =
            ({ s with heldTc := some (toolCall ++ v) }, ⟨[], toolCall ++ u⟩)) ∨
        (¬ thinkEnd <:+: rest ∧ ¬ toolCall <:+: rest ∧
          processTcHeld qwen3Detector s (toolCall ++ rest) =
            ({ s with heldTc := some (toolCall ++ rest) }, Result.empty)))) := by
  have hlenE : qwen3Detector.thinkEndToken.length = thinkEnd.length := rfl
  by_cases h : OpensBlock rest
  · obtain ⟨i, hi⟩ := tcDecision_opens h
    refine .inl ⟨h, ?_⟩
    simp only [processTcHeld, hi, State.close]
  · refine .inr ⟨h, ?_⟩
    rcases exists_first_of_two marked_thinkEnd.ne_nil marked_toolCall.ne_nil rest with
      ⟨he, ht⟩ | ⟨u, v, rfl, he, ht⟩ | ⟨u, v, rfl, he, ht⟩
    · refine .inr (.inr ⟨he, ht, ?_⟩)
      simp only [processTcHeld, tcDecision_none h he ht]
    · refine .inl ⟨u, v, rfl, he, ht, ?_⟩
      simp only [processTcHeld, tcDecision_end h he ht, State.close, hlenE]
      rw [append_assoc u, take_held, Nat.add_right_comm, drop_held]
      simp [drop_append]
    · refine .inr (.inl ⟨u, v, rfl, he, ht, ?_⟩)
      simp only [processTcHeld, tcDecision_next h he ht]
      rw [append_assoc u, take_held, drop_held]
      simp

/-! ### What is held back -/

theorem mem_tokensToCheck {tok : Str} :
    tok ∈ tokensToCheck qwen3Detector ↔ tok = thinkStart ∨ tok = thinkEnd ∨ tok = toolCall := by
  have : tokensToCheck qwen3Detector = [thinkStart, thinkEnd, toolCall] := by decide
  simp [this]

theorem marked_token {tok : Str} (h : tok ∈ tokensToCheck qwen3Detector) : Marked '<' tok := by
  rcases mem_tokensToCheck.mp h with rfl | rfl | rfl
  · exact marked_thinkStart
  · exact marked_thinkEnd
  · exact marked_toolCall

/-- No token begins another. -/
theorem token_eq_of_prefix : ∀ tok ∈ tokensToCheck qwen3Detector,
    ∀ tok' ∈ tokensToCheck qwen3Detector, tok <+: tok' → tok = tok' := by
  decide

/-- The text is the beginning of a token, without its end. -/
def Unfinished (x : Str) : Prop := ∃ tok ∈ tokensToCheck qwen3Detector, x <+: tok ∧ tok ≠ x

theorem keepsBuffering_iff {x : Str} : keepsBuffering qwen3Detector x = true ↔ Unfinished x := by
  simp [keepsBuffering, Unfinished]

theorem Unfinished.not_infix_token {x tok : Str} (h : Unfinished x)
    (ht : tok ∈ tokensToCheck qwen3Detector) : ¬ tok <:+: x := by
  obtain ⟨tok', ht', hx, hne⟩ := h
  intro hi
  have hp := (marked_token ht).infix_marked (marked_token ht') hx hi
  obtain rfl := token_eq_of_prefix tok ht tok' ht' (hp.trans hx)
  exact hne (hx.eq_of_length_le hp.length_le).symm

theorem Unfinished.not_prefix_start {x : Str} (h : Unfinished x) : ¬ thinkStart <+: x :=
  fun hp => h.not_infix_token (mem_tokensToCheck.mpr (.inl rfl)) hp.isInfix

theorem partialFrom_le (b tok : Str) : ∀ n, partialFrom b tok n ≤ n
  | 0 => Nat.le_refl 0
  | n + 1 => by
      rw [partialFrom]
      split
      · exact Nat.le_refl _
      · exact Nat.le_succ_of_le (partialFrom_le b tok n)

theorem drop_partialFrom (b tok : Str) : ∀ n, b.drop (b.length - partialFrom b tok n) <+: tok
  | 0 => by simp [partialFrom]
  | n + 1 => by
      rw [partialFrom]
      split
      · assumption
      · exact drop_partialFrom b tok n

theorem le_partialFrom {b tok z : Str} (hz : z <:+ b) (hp : z <+: tok) :
    ∀ n, z.length ≤ n → z.length ≤ partialFrom b tok n
  | 0, h => h
  | n + 1, h => by
      rw [partialFrom]
      split
      · exact h
      · rename_i hn
        rcases Nat.le_or_eq_of_le_succ h with h | h
        · exact le_partialFrom hz hp n h
        · rw [← Nat.succ_eq_add_one, ← h, ← List.suffix_iff_eq_drop.mp hz] at hn
          exact absurd hp hn

/-- The slice a token may begin with covers the text. -/
theorem le_endsWithPartialToken {b tok z : Str} (hz : z <:+ b) (hp : z <+: tok) (hne : z ≠ tok) :
    z.length ≤ endsWithPartialToken b tok := by
  refine le_partialFrom hz hp _ (Nat.le_min.mpr ⟨hz.length_le, ?_⟩)
  have : z.length ≠ tok.length := fun h => hne (hp.eq_of_length h)
  have := hp.length_le
  omega

theorem mem_holdbackTokens {s : State} {tok : Str} : tok ∈ holdbackTokens qwen3Detector s ↔
      tok = thinkEnd ∨ tok = toolCall ∨ (s.strippedThinkStart = false ∧ tok = thinkStart) := by
  have heq : holdbackTokens qwen3Detector s =
      [thinkEnd, toolCall] ++ if s.strippedThinkStart then [] else [thinkStart] := rfl
  rw [heq]
  cases s.strippedThinkStart <;> simp

theorem holdbackTokens_subset (s : State) {tok : Str} (h : tok ∈ holdbackTokens qwen3Detector s) :
    tok ∈ tokensToCheck qwen3Detector := by
  rw [mem_tokensToCheck]
  rcases mem_holdbackTokens.mp h with h | h | ⟨-, h⟩
  · exact .inr (.inl h)
  · exact .inr (.inr h)
  · exact .inl h

theorem le_holdback (s : State) {x tok : Str} (h : tok ∈ holdbackTokens qwen3Detector s) :
    endsWithPartialToken x tok ≤ holdback qwen3Detector s x := by
  have hmax : ∀ (l : List Nat) (m n : Nat), n ≤ m ∨ n ∈ l → n ≤ l.foldl max m := by
    intro l
    induction l with
    | nil => simp
    | cons a l ih =>
      intro m n hn
      refine ih _ _ ?_
      rw [mem_cons] at hn
      rcases hn with h | rfl | h
      · exact .inl (Nat.le_trans h (Nat.le_max_left _ _))
      · exact .inl (Nat.le_max_right _ _)
      · exact .inr h
  exact hmax _ 0 _ (.inr (mem_map_of_mem h))

/-- What is held back is the beginning of a token. -/
theorem unfinished_holdback (s : State) (x : Str) :
    Unfinished (x.drop (x.length - holdback qwen3Detector s x)) := by
  have hmax : ∀ (l : List Nat) (m : Nat), l.foldl max m = m ∨ l.foldl max m ∈ l := by
    intro l
    induction l with
    | nil => simp
    | cons a l ih =>
      intro m
      rw [foldl_cons, mem_cons]
      rcases ih (max m a) with h | h
      · rw [h]
        rcases Nat.le_total m a with hle | hle
        · exact .inr (.inl (Nat.max_eq_right hle))
        · exact .inl (Nat.max_eq_left hle)
      · exact .inr (.inr h)
  rcases hmax ((holdbackTokens qwen3Detector s).map (endsWithPartialToken x)) 0 with h | h
  · refine ⟨thinkEnd, mem_tokensToCheck.mpr (.inr (.inl rfl)), ?_⟩
    rw [holdback, h]
    simp [marked_thinkEnd.ne_nil]
  · obtain ⟨tok, ht, heq⟩ := List.mem_map.mp h
    have ht' := holdbackTokens_subset s ht
    refine ⟨tok, ht', ?_, fun h => ?_⟩
    · rw [holdback, ← heq]
      exact drop_partialFrom x tok _
    · have hle : endsWithPartialToken x tok ≤ min x.length (tok.length - 1) :=
        partialFrom_le x tok _
      have hlen := congrArg List.length h
      rw [holdback, ← heq, length_drop] at hlen
      have := List.length_pos_iff.mpr (marked_token ht').ne_nil
      omega

/-- What is held back covers the tokens that the text does not have. -/
theorem holdback_covers (s : State) {x tok : Str} (h : tok ∈ holdbackTokens qwen3Detector s)
    (hn : ¬ tok <:+: x) :
    Covers tok (x.take (x.length - holdback qwen3Detector s x))
      (x.drop (x.length - holdback qwen3Detector s x)) := by
  intro z hz hsuf hpre
  rw [take_append_drop] at hsuf
  have hne : z ≠ tok := by
    rintro rfl
    exact hn hsuf.isInfix
  have := le_endsWithPartialToken hsuf hpre hne
  have := le_holdback s (x := x) h
  have := hsuf.length_le
  rw [length_drop]
  omega

/-! ### A call -/

/-- No forced content and no continued message. -/
def plain (streamReasoning forceReasoning : Bool) : Options :=
  { streamReasoning, forceReasoning, forceNonemptyContent := false, previousContent := [] }

theorem plain_streamReasoning (force : Bool) : (plain true force).streamReasoning = true := rfl

theorem plain_forceNonemptyContent (stream force : Bool) :
    (plain stream force).forceNonemptyContent = false := rfl

theorem init_inReasoning (stream force : Bool) :
    (init qwen3Detector (plain stream force)).inReasoning = force := by
  simp [init, plain, qwen3Detector, marked_thinkStart.ne_nil, marked_thinkEnd.ne_nil]

theorem increment_held {opt : Options} (hf : opt.forceNonemptyContent = false) {s : State}
    {held : Str} (hh : s.heldTc = some held) (x : Str) :
    parseStreamingIncrement qwen3Detector opt s x = processTcHeld qwen3Detector s (held ++ x) := by
  simp [parseStreamingIncrement, parseStreamingIncrementImpl, hf, hh]

theorem increment_eq {opt : Options} (hf : opt.forceNonemptyContent = false) {s : State}
    (hh : s.heldTc = none) (x : Str) :
    parseStreamingIncrement qwen3Detector opt s x = if keepsBuffering qwen3Detector (s.buffer ++ x) then
        ({ s with buffer := s.buffer ++ x }, Result.empty)
      else
        dispatch qwen3Detector opt
          (stripThinkStart qwen3Detector { s with buffer := s.buffer ++ x }) := by
  have himpl : parseStreamingIncrement qwen3Detector opt s x =
      parseStreamingIncrementImpl qwen3Detector opt s x := by
    simp [parseStreamingIncrement, hf]
  rw [himpl, parseStreamingIncrementImpl]
  split
  · rename_i hh'
    exact nomatch hh.symm.trans hh'
  · rfl

/-- The stripping erases an opening token where it strips one. -/
theorem stripThinkStart_cases (s : State) : (stripThinkStart qwen3Detector s = s ∧
      (s.strippedThinkStart = true ∨ ¬ thinkStart <:+: s.buffer)) ∨
    ∃ u v, s.buffer = u ++ thinkStart ++ v ∧ ¬ thinkStart <:+: u ∧ s.strippedThinkStart = false ∧
      stripThinkStart qwen3Detector s =
        { s with buffer := u ++ v, strippedThinkStart := true, inReasoning := true } := by
  have htext : qwen3Detector.thinkStartText = thinkStart := rfl
  rw [stripThinkStart, htext]
  split
  · rename_i h
    obtain ⟨u, v, hb, hu⟩ := exists_first marked_thinkStart.ne_nil h.2
    refine .inr ⟨u, v, hb, hu, by simpa using h.1, ?_⟩
    rw [hb, eraseOnce_append marked_thinkStart hu]
  · rename_i h
    refine .inl ⟨rfl, ?_⟩
    cases hst : s.strippedThinkStart with
    | true => exact .inl rfl
    | false => exact .inr fun hi => h ⟨by simp [hst], hi⟩


/-- **What a chunk in reasoning does**, by the current text. -/
theorem dispatch_cases (opt : Options) (s : State) (hr : s.inReasoning = true) :
    (∃ u v, s.buffer = u ++ thinkEnd ++ v ∧ ¬ thinkEnd <:+: u ∧
      dispatch qwen3Detector opt s = ({ s with buffer := [], inReasoning := false }, ⟨v, u⟩)) ∨
    (¬ thinkEnd <:+: s.buffer ∧ ((∃ u rest, s.buffer = u ++ toolCall ++ rest ∧ ¬ toolCall <:+: u ∧
          dispatch qwen3Detector opt s =
            let held := processTcHeld qwen3Detector { s with buffer := [] } (toolCall ++ rest)
            (held.1, ⟨held.2.normalText, u ++ held.2.reasoningText⟩)) ∨
        (¬ toolCall <:+: s.buffer ∧ dispatch qwen3Detector opt s = if opt.streamReasoning then
              let kept := s.buffer.length - holdback qwen3Detector s s.buffer
              ({ s with buffer := s.buffer.drop kept }, ⟨[], s.buffer.take kept⟩)
            else (s, Result.empty)))) := by
  have hE : qwen3Detector.thinkEndToken = thinkEnd := rfl
  have hT : (qwen3Detector.toolTokens.head?.bind fun tc => find tc s.buffer) =
      find toolCall s.buffer := by
    have : qwen3Detector.toolTokens = [toolCall] := by decide
    rw [this]
    rfl
  rcases find_cases marked_thinkEnd s.buffer with ⟨hend, hfind⟩ | ⟨u, v, heq, hu, hfind⟩
  · refine .inr ⟨hend, ?_⟩
    rcases find_cases marked_toolCall s.buffer with ⟨htool, hfind'⟩ | ⟨u, v, heq, hu, hfind'⟩
    · refine .inr ⟨htool, ?_⟩
      simp only [dispatch, hr, if_true, hE, hfind, hT, hfind']
    · refine .inl ⟨u, v, heq, hu, ?_⟩
      have hlook : qwen3Detector.tcLookahead = true := rfl
      simp only [dispatch, hr, if_true, hE, hfind, hT, hfind', interrupt, hlook]
      rw [heq, append_assoc, drop_left, take_left]
  · refine .inl ⟨u, v, heq, hu, ?_⟩
    simp only [dispatch, hr, if_true, hE, hfind]
    rw [heq, append_assoc, take_left, ← length_append, ← append_assoc, drop_left]

end QwenStack.Reasoning
