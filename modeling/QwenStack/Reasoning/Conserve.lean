import QwenStack.Reasoning.Steps

/-!
# Reasoning — the stream loses no text

What a stream gives out, call by call, is the text with some of its think tokens erased
(`results_erases`).  `Erases m n s t` counts them: `m` opening tokens and `n` closing ones.  The
opening token is stripped once while the text arrives, and once more by `finish` where reasoning
is not streamed; a closing token is dropped where reasoning is closed, which is once, or twice
where reasoning was forced and the opening token opens it again.
-/

namespace QwenStack.Reasoning
open Marker List

/-- `t` is `s` without `m` opening and `n` closing tokens, erased one after the other. -/
inductive Erases : Nat → Nat → Str → Str → Prop
  | refl (s : Str) : Erases 0 0 s s
  | opening {m n : Nat} {s u v : Str} :
      Erases m n s (u ++ thinkStart ++ v) → Erases (m + 1) n s (u ++ v)
  | closing {m n : Nat} {s u v : Str} :
      Erases m n s (u ++ thinkEnd ++ v) → Erases m (n + 1) s (u ++ v)

namespace Erases
variable {m n m' n' : Nat} {s t w : Str}

theorem trans (h : Erases m n s t) (h' : Erases m' n' t w) : Erases (m + m') (n + n') s w := by
  induction h' with
  | refl => exact h
  | opening _ ih => exact .opening (ih h)
  | closing _ ih => exact .closing (ih h)

theorem append_left (c : Str) (h : Erases m n s t) : Erases m n (c ++ s) (c ++ t) := by
  induction h with
  | refl => exact .refl _
  | opening _ ih =>
    rw [← append_assoc]
    exact .opening (by simpa using ih)
  | closing _ ih =>
    rw [← append_assoc]
    exact .closing (by simpa using ih)

theorem append_right (c : Str) (h : Erases m n s t) : Erases m n (s ++ c) (t ++ c) := by
  induction h with
  | refl => exact .refl _
  | opening _ ih =>
    rw [append_assoc]
    exact .opening (by simpa using ih)
  | closing _ ih =>
    rw [append_assoc]
    exact .closing (by simpa using ih)

/-- The letters that are missing. -/
theorem length_eq (h : Erases m n s t) : s.length = t.length + 7 * m + 8 * n := by
  induction h with
  | refl => simp
  | opening _ ih =>
    have : thinkStart.length = 7 := rfl
    simp only [length_append] at ih ⊢
    omega
  | closing _ ih =>
    have : thinkEnd.length = 8 := rfl
    simp only [length_append] at ih ⊢
    omega

end Erases

/-! ### One call -/

/-- The text that has arrived and has not been given out. -/
def State.pending (s : State) : Str := s.heldTc.getD s.buffer

/-- A tool tag is held in reasoning only, and what streaming holds back is no opening token. -/
structure Tidy (opt : Options) (s : State) : Prop where
  held : ∀ h, s.heldTc = some h → s.inReasoning = true ∧ ∃ rest, h = toolCall ++ rest
  buffer : opt.streamReasoning = true → s.heldTc = none → s.inReasoning = true →
    ¬ thinkStart <+: s.buffer

/-- The call gives out or keeps the text but for the tokens it erases: an opening token only where
none has been stripped, a closing one only where reasoning is closed. -/
def Conserves (s : State) (text : Str) (out : State × Result) : Prop :=
  ∃ m n, Erases m n text (out.2.reasoningText ++ out.2.normalText ++ out.1.pending) ∧
    m + s.strippedThinkStart.toNat ≤ out.1.strippedThinkStart.toNat ∧
    n + out.1.inReasoning.toNat + s.strippedThinkStart.toNat ≤
      s.inReasoning.toNat + out.1.strippedThinkStart.toNat

theorem processTcHeld_conserves (opt : Options) (s : State) (hr : s.inReasoning = true)
    (rest : Str) :
    Conserves s (toolCall ++ rest) (processTcHeld qwen3Detector s (toolCall ++ rest)) ∧
      Tidy opt (processTcHeld qwen3Detector s (toolCall ++ rest)).1 := by
  have hclose : Tidy opt s.close :=
    ⟨fun _ h => by simp [State.close] at h, fun _ _ h => by simp [State.close] at h⟩
  rcases processTcHeld_cases s rest with
    ⟨-, h⟩ | ⟨-, ⟨u, v, rfl, -, -, h⟩ | ⟨u, v, rfl, -, -, h⟩ | ⟨-, -, h⟩⟩
  · rw [h]
    refine ⟨⟨0, 0, ?_, by simp [State.close], by simp [State.close]⟩, hclose⟩
    simpa [State.pending, State.close] using Erases.refl (toolCall ++ rest)
  · rw [h]
    refine ⟨⟨0, 1, ?_, by simp [State.close], by simp [State.close, hr]⟩, hclose⟩
    have := Erases.refl (toolCall ++ u ++ thinkEnd ++ v)
    simpa [State.pending, State.close] using this.closing
  · rw [h]
    refine ⟨⟨0, 0, ?_, by simp, by simp⟩, fun h' heq => ⟨hr, v, ?_⟩, fun _ h => absurd h (by simp)⟩
    · simpa [State.pending] using Erases.refl (toolCall ++ (u ++ (toolCall ++ v)))
    · exact (Option.some.inj heq).symm
  · rw [h]
    refine ⟨⟨0, 0, ?_, by simp, by simp⟩, fun h' heq => ⟨hr, rest, ?_⟩, fun _ h => absurd h (by simp)⟩
    · simpa [State.pending, Result.empty] using Erases.refl (toolCall ++ rest)
    · exact (Option.some.inj heq).symm

theorem dispatch_conserves (opt : Options) (s : State) (hh : s.heldTc = none) :
    Conserves s s.buffer (dispatch qwen3Detector opt s) ∧
      Tidy opt (dispatch qwen3Detector opt s).1 := by
  cases hr : s.inReasoning with
  | false =>
    have hd : dispatch qwen3Detector opt s = ({ s with buffer := [] }, ⟨s.buffer, []⟩) := by
      simp [dispatch, hr]
    rw [hd]
    refine ⟨⟨0, 0, ?_, by simp, by simp⟩, ⟨fun h heq => ?_, fun _ _ hr' => ?_⟩⟩
    · simpa [State.pending, hh] using Erases.refl s.buffer
    · exact absurd (hh.symm.trans heq) (by simp)
    · exact absurd (hr.symm.trans hr') (by simp)
  | true =>
    rcases dispatch_cases opt s hr with
      ⟨u, v, hb, -, h⟩ | ⟨-, ⟨u, rest, hb, -, h⟩ | ⟨-, h⟩⟩
    · rw [h, hb]
      refine ⟨⟨0, 1, ?_, by simp, by simp [hr]⟩, ⟨fun h heq => ?_, fun _ _ h => absurd h (by simp)⟩⟩
      · have := Erases.refl (u ++ thinkEnd ++ v)
        simpa [State.pending, hh] using this.closing
      · exact absurd (hh.symm.trans heq) (by simp)
    · obtain ⟨⟨m, n, he, hm, hn⟩, ht⟩ :=
        processTcHeld_conserves opt { s with buffer := [] } hr rest
      rw [h, hb]
      refine ⟨⟨m, n, ?_, hm, hn⟩, ht⟩
      simpa using he.append_left u
    · rw [h]
      split
      · refine ⟨⟨0, 0, ?_, by simp, by simp⟩, ⟨fun h heq => ?_, fun _ _ _ => ?_⟩⟩
        · simpa [State.pending, hh] using Erases.refl s.buffer
        · exact absurd (hh.symm.trans heq) (by simp)
        · exact (unfinished_holdback s s.buffer).not_prefix_start
      · rename_i hs
        refine ⟨⟨0, 0, ?_, by simp, by simp⟩, ⟨fun h heq => ?_, fun h => absurd h hs⟩⟩
        · simpa [State.pending, hh, Result.empty] using Erases.refl s.buffer
        · exact absurd (hh.symm.trans heq) (by simp)

/-- **One call loses no text.** -/
theorem parseStreamingIncrement_conserves {opt : Options} (hf : opt.forceNonemptyContent = false)
    {s : State} (hs : Tidy opt s) (x : Str) :
    Conserves s (s.pending ++ x) (parseStreamingIncrement qwen3Detector opt s x) ∧
      Tidy opt (parseStreamingIncrement qwen3Detector opt s x).1 := by
  cases hh : s.heldTc with
  | some held =>
    obtain ⟨hr, rest, rfl⟩ := hs.held held hh
    rw [increment_held hf hh]
    simpa [State.pending, hh] using processTcHeld_conserves opt s hr (rest ++ x)
  | none =>
    have hpending : s.pending = s.buffer := by rw [State.pending, hh, Option.getD_none]
    rw [increment_eq hf hh, hpending]
    split
    · rename_i hk
      have hk := keepsBuffering_iff.mp hk
      refine ⟨⟨0, 0, ?_, by simp, by simp⟩, ⟨fun h heq => ?_, fun _ _ _ => hk.not_prefix_start⟩⟩
      · simpa [State.pending, hh, Result.empty] using Erases.refl (s.buffer ++ x)
      · exact nomatch hh.symm.trans heq
    · rcases stripThinkStart_cases { s with buffer := s.buffer ++ x } with
        ⟨h, -⟩ | ⟨u, v, hb, -, hst, h⟩
      · rw [h]
        exact dispatch_conserves opt { s with buffer := s.buffer ++ x } hh
      · rw [h]
        obtain ⟨⟨m, n, he, hm, hn⟩, ht⟩ := dispatch_conserves opt { s with
            buffer := u ++ v
            strippedThinkStart := true
            inReasoning := true } hh
        -- the token is erased first, then what the rest of the call erases
        have hst : s.strippedThinkStart = false := hst
        simp only [Bool.toNat_true] at hm hn
        refine ⟨⟨1 + m, 0 + n, ?_, ?_, ?_⟩, ht⟩
        · rw [show s.buffer ++ x = u ++ thinkStart ++ v from hb]
          exact (Erases.refl _).opening.trans he
        · simp only [hst, Bool.toNat_false]
          omega
        · simp only [hst, Bool.toNat_false]
          omega

/-! ### The whole stream -/

/-- What a stream gives out, in the order of the calls, reasoning first. -/
def transcript (rs : List Result) : Str := rs.flatMap fun r => r.reasoningText ++ r.normalText

/-- The end of the stream gives out what is pending. -/
theorem finish_erases {opt : Options} (hf : opt.forceNonemptyContent = false) {s : State}
    (hs : Tidy opt s) :
    ∃ m, Erases m 0 s.pending
        ((finish qwen3Detector opt s).2.reasoningText ++ (finish qwen3Detector opt s).2.normalText) ∧
      m ≤ (!opt.streamReasoning).toNat := by
  cases hh : s.heldTc with
  | some held =>
    refine ⟨0, ?_, Nat.zero_le _⟩
    simp only [finish, hh, State.pending, Option.getD_some]
    split
    · simpa using Erases.refl held
    · simpa using Erases.refl held
  | none =>
    cases hr : s.inReasoning with
    | false =>
      refine ⟨0, ?_, Nat.zero_le _⟩
      simpa [finish, hh, hr, State.pending] using Erases.refl s.buffer
    | true =>
      have hfin : (finish qwen3Detector opt s).2 =
          ⟨[], stripLeadingThinkStart qwen3Detector s.buffer⟩ := by
        simp [finish, hh, hr, hf]
      have htext : qwen3Detector.thinkStartText = thinkStart := rfl
      rw [hfin, stripLeadingThinkStart, htext]
      simp only [State.pending, hh, Option.getD_none, append_nil]
      split
      · rename_i hp
        obtain ⟨v, hv⟩ := hp
        refine ⟨1, ?_, ?_⟩
        · rw [← hv, drop_left]
          exact Erases.opening (u := []) (.refl _)
        · cases hst : opt.streamReasoning with
          | false => exact Nat.le_refl 1
          | true => exact absurd ⟨v, hv⟩ (hs.buffer hst hh hr)
      · exact ⟨0, .refl _, Nat.zero_le _⟩

/-- **The run**, from any tidy state: what is pending and what arrives is given out. -/
theorem results_erases {opt : Options} (hf : opt.forceNonemptyContent = false)
    (chunks : List Str) : ∀ {s : State}, Tidy opt s →
    ∃ m n, Erases m n (s.pending ++ chunks.flatten) (transcript (results qwen3Detector opt s chunks)) ∧
      m + s.strippedThinkStart.toNat ≤ 1 + (!opt.streamReasoning).toNat ∧
      n + s.strippedThinkStart.toNat ≤ s.inReasoning.toNat + 1 := by
  induction chunks with
  | nil =>
    intro s hs
    obtain ⟨m, he, hm⟩ := finish_erases hf hs
    have := Bool.toNat_le s.strippedThinkStart
    refine ⟨m, 0, ?_, by omega, by omega⟩
    simpa [transcript, results] using he
  | cons x chunks ih =>
    intro s hs
    obtain ⟨⟨m, n, he, hm, hn⟩, ht⟩ := parseStreamingIncrement_conserves hf hs x
    obtain ⟨m', n', he', hm', hn'⟩ := ih ht
    refine ⟨m + m', n + n', ?_, by omega, by omega⟩
    have h₁ := he.append_right chunks.flatten
    rw [append_assoc] at h₁
    have h₂ := h₁.trans (by rw [append_assoc]; exact he'.append_left _)
    simpa [transcript, results] using h₂

/-- **The stream of a fresh detector loses no text**: in the order of the calls it gives out the
text without at most one opening token, or two where reasoning is not streamed, and at most one
closing token, or two where reasoning is forced. -/
theorem stream_conserves (stream force : Bool) (chunks : List Str) :
    ∃ m n, Erases m n chunks.flatten
        (transcript (results qwen3Detector (plain stream force)
          (init qwen3Detector (plain stream force)) chunks)) ∧
      m ≤ 1 + (!stream).toNat ∧ n ≤ 1 + force.toNat := by
  have hinit : Tidy (plain stream force) (init qwen3Detector (plain stream force)) :=
    ⟨nofun, fun _ _ _ hp => marked_thinkStart.ne_nil (List.prefix_nil.mp hp)⟩
  obtain ⟨m, n, he, hm, hn⟩ := results_erases rfl chunks hinit
  refine ⟨m, n, he, hm, ?_⟩
  rw [init_inReasoning] at hn
  omega

/-- A second opening token is erased where reasoning is not streamed, a second closing token where
it is forced. -/
theorem stream_erases_twice :
    (¬ ∃ m n, m ≤ 1 ∧ n ≤ 1 ∧ Erases m n ["<think><think>abc".toList].flatten
      (transcript (results qwen3Detector (plain false false)
        (init qwen3Detector (plain false false)) ["<think><think>abc".toList]))) ∧
    ¬ ∃ m n, m ≤ 1 ∧ n ≤ 1 ∧ Erases m n ["a</think>".toList, "<think>b</think>c".toList].flatten
      (transcript (results qwen3Detector (plain true true)
        (init qwen3Detector (plain true true)) ["a</think>".toList, "<think>b</think>c".toList])) := by
  have h₁ : transcript (results qwen3Detector (plain false false)
      (init qwen3Detector (plain false false)) ["<think><think>abc".toList]) = "abc".toList := by
    decide
  have h₂ : transcript (results qwen3Detector (plain true true)
      (init qwen3Detector (plain true true))
      ["a</think>".toList, "<think>b</think>c".toList]) = "abc".toList := by
    decide
  constructor
  · rintro ⟨m, n, hm, hn, he⟩
    have hlen : 17 = 3 + 7 * m + 8 * n := by
      rw [h₁] at he
      exact he.length_eq
    omega
  · rintro ⟨m, n, hm, hn, he⟩
    have hlen : 26 = 3 + 7 * m + 8 * n := by
      rw [h₂] at he
      exact he.length_eq
    omega

end QwenStack.Reasoning
