import QwenStack.Reasoning.Steps

/-!
# Reasoning — the phases of a stream

A machine without buffers: the reasoning that has arrived, then the tool tag that is held, then
the split.  `Follows` relates a detector and what it has given out to a phase, one chunk keeps it
(`Follows.increment`), and so does a stream (`Follows.results`): what streaming holds back at the
end of a chunk does not change what the stream gives out.

The opening token is not part of a phase.  Before it is stripped a detector follows the phases of
the text so far; the chunk that completes it begins a new text, of what that chunk has without
the token (`results_forced`, `results_opened`).
-/

namespace QwenStack.Reasoning
open Marker List

/-- Where a stream stands. -/
inductive Phase where
  /-- Reasoning, without a closing token or a tool tag. -/
  | reading (text : Str)
  /-- Reasoning, a tool tag and the text after it. -/
  | holding (past rest : Str)
  /-- The split. -/
  | closed (reasoning normal : Str)

/-- One decision on the held tool tag. -/
def resolve (past rest : Str) : Phase :=
  if OpensBlock rest then .closed past (toolCall ++ rest)
  else
    match find thinkEnd rest, find toolCall rest with
    | none, none => .holding past rest
    | some i, none => .closed (past ++ toolCall ++ rest.take i) (rest.drop (i + thinkEnd.length))
    | none, some j => .holding (past ++ toolCall ++ rest.take j) (rest.drop (j + toolCall.length))
    | some i, some j =>
        if i < j then .closed (past ++ toolCall ++ rest.take i) (rest.drop (i + thinkEnd.length))
        else .holding (past ++ toolCall ++ rest.take j) (rest.drop (j + toolCall.length))

/-- A text in reasoning: closed at the closing token, else held at the tool tag. -/
def read (text : Str) : Phase :=
  match find thinkEnd text with
  | some i => .closed (text.take i) (text.drop (i + thinkEnd.length))
  | none =>
      match find toolCall text with
      | some j => resolve (text.take j) (text.drop (j + toolCall.length))
      | none => .reading text

/-- A further chunk. -/
def Phase.feed : Phase → Str → Phase
  | .reading text, x => read (text ++ x)
  | .holding past rest, x => resolve past (rest ++ x)
  | .closed r n, x => .closed r (n ++ x)

/-- The end of the stream: a held text is cut at its last tool tag. -/
def Phase.split : Phase → Result
  | .reading text => ⟨[], text⟩
  | .holding past rest =>
      match rfind toolCall rest with
      | some i => ⟨rest.drop i, past ++ toolCall ++ rest.take i⟩
      | none => ⟨toolCall ++ rest, past⟩
  | .closed r n => ⟨n, r⟩

/-! ### One decision -/

section
variable {past rest u v : Str}

theorem resolve_opens (h : OpensBlock rest) : resolve past rest = .closed past (toolCall ++ rest) :=
  if_pos h

theorem resolve_none (h : ¬ OpensBlock rest) (he : ¬ thinkEnd <:+: rest)
    (ht : ¬ toolCall <:+: rest) : resolve past rest = .holding past rest := by
  rw [resolve, if_neg h, find_eq_none.mpr he, find_eq_none.mpr ht]

theorem drop_word (u tok v : Str) : (u ++ tok ++ v).drop (u.length + tok.length) = v := by
  rw [← length_append, drop_left]

theorem take_word (u tok v : Str) : (u ++ tok ++ v).take u.length = u := by
  rw [append_assoc, take_left]

theorem resolve_end (h : ¬ OpensBlock (u ++ thinkEnd ++ v)) (he : ¬ thinkEnd <:+: u)
    (ht : ¬ toolCall <:+: u) :
    resolve past (u ++ thinkEnd ++ v) = .closed (past ++ toolCall ++ u) v := by
  have hi := find_append (v := v) marked_thinkEnd he
  cases hj : find toolCall (u ++ thinkEnd ++ v) with
  | none => simp only [resolve, if_neg h, hi, hj, take_word, drop_word]
  | some j =>
    have hlt := lt_of_find marked_toolCall marked_thinkEnd apart_end_tool.symm ht hj
    simp only [resolve, if_neg h, hi, hj, if_pos hlt, take_word, drop_word]

theorem resolve_next (h : ¬ OpensBlock (u ++ toolCall ++ v)) (he : ¬ thinkEnd <:+: u)
    (ht : ¬ toolCall <:+: u) :
    resolve past (u ++ toolCall ++ v) = .holding (past ++ toolCall ++ u) v := by
  have hj := find_append (v := v) marked_toolCall ht
  cases hi : find thinkEnd (u ++ toolCall ++ v) with
  | none => simp only [resolve, if_neg h, hi, hj, take_word, drop_word]
  | some i =>
    have hlt := lt_of_find marked_thinkEnd marked_toolCall apart_end_tool he hi
    simp only [resolve, if_neg h, hi, hj, if_neg (Nat.lt_asymm hlt), take_word, drop_word]

theorem read_end (he : ¬ thinkEnd <:+: u) : read (u ++ thinkEnd ++ v) = .closed u v := by
  simp only [read, find_append marked_thinkEnd he, take_word, drop_word]

theorem read_tool (he : ¬ thinkEnd <:+: u ++ toolCall ++ v) (ht : ¬ toolCall <:+: u) :
    read (u ++ toolCall ++ v) = resolve u v := by
  simp only [read, find_eq_none.mpr he, find_append marked_toolCall ht, take_word, drop_word]

theorem read_none {text : Str} (he : ¬ thinkEnd <:+: text) (ht : ¬ toolCall <:+: text) :
    read text = .reading text := by
  rw [read, find_eq_none.mpr he, find_eq_none.mpr ht]

/-- **What a text in reasoning becomes.** -/
theorem read_cases (text : Str) :
    (∃ u v, text = u ++ thinkEnd ++ v ∧ ¬ thinkEnd <:+: u ∧ read text = .closed u v) ∨
    (¬ thinkEnd <:+: text ∧
      ((∃ u v, text = u ++ toolCall ++ v ∧ ¬ toolCall <:+: u ∧ read text = resolve u v) ∨
        (¬ toolCall <:+: text ∧ read text = .reading text))) := by
  by_cases he : thinkEnd <:+: text
  · obtain ⟨u, v, rfl, hu⟩ := exists_first marked_thinkEnd.ne_nil he
    exact .inl ⟨u, v, rfl, hu, read_end hu⟩
  · refine .inr ⟨he, ?_⟩
    by_cases ht : toolCall <:+: text
    · obtain ⟨u, v, rfl, hu⟩ := exists_first marked_toolCall.ne_nil ht
      exact .inl ⟨u, v, rfl, hu, read_tool he hu⟩
    · exact .inr ⟨ht, read_none he ht⟩

end

/-! ### The detector follows the phases -/

/-- The detector, which has given out the reasoning `r` and the normal text `n`, follows the
phase. -/
inductive Follows (s : State) : Str → Str → Phase → Prop
  | reading {r : Str} (hh : s.heldTc = none) (hr : s.inReasoning = true)
      (hb : Unfinished s.buffer)
      (he : ¬ thinkEnd <:+: r ++ s.buffer) (ht : ¬ toolCall <:+: r ++ s.buffer)
      (hc : ∀ tok ∈ holdbackTokens qwen3Detector s, Covers tok r s.buffer) :
      Follows s r [] (.reading (r ++ s.buffer))
  | holding {r rest : Str} (hh : s.heldTc = some (toolCall ++ rest)) (hb : s.buffer = []) :
      Follows s r [] (.holding r rest)
  | closed {r n : Str} (hh : s.heldTc = none) (hr : s.inReasoning = false) :
      Follows s r n (.closed r (n ++ s.buffer))

theorem follows_close (s : State) (r n : Str) : Follows s.close r n (.closed r n) := by
  have h : Follows s.close r n (.closed r (n ++ [])) := .closed rfl rfl
  rwa [append_nil] at h

theorem follows_processTcHeld (s : State) (hb : s.buffer = []) (r rest : Str) :
    Follows (processTcHeld qwen3Detector s (toolCall ++ rest)).1
      (r ++ (processTcHeld qwen3Detector s (toolCall ++ rest)).2.reasoningText)
      (processTcHeld qwen3Detector s (toolCall ++ rest)).2.normalText (resolve r rest) := by
  rcases processTcHeld_cases s rest with
    ⟨ho, h⟩ | ⟨ho, ⟨u, v, rfl, he, ht, h⟩ | ⟨u, v, rfl, he, ht, h⟩ | ⟨he, ht, h⟩⟩
  · rw [h, resolve_opens ho]
    simpa using follows_close s r (toolCall ++ rest)
  · rw [h, resolve_end ho he ht]
    simpa using follows_close s (r ++ toolCall ++ u) v
  · rw [h, resolve_next ho he ht, ← append_assoc]
    exact .holding rfl hb
  · rw [h, resolve_none ho he ht]
    simpa [Result.empty] using Follows.holding (r := r)
      (s := { s with heldTc := some (toolCall ++ rest) }) rfl hb

/-- The current text, after what has been given out: `hE` and `hT` say that no word begins
there. -/
theorem follows_dispatch {opt : Options} (hst : opt.streamReasoning = true) {s : State}
    (hh : s.heldTc = none) (hr : s.inReasoning = true) (r : Str)
    (hE : ∀ u, u <+: s.buffer → ¬ thinkEnd <:+: u → ¬ thinkEnd <:+: r ++ u)
    (hT : ∀ u, u <+: s.buffer → ¬ toolCall <:+: u → ¬ toolCall <:+: r ++ u)
    (hc : ∀ tok ∈ holdbackTokens qwen3Detector s, Covers tok r s.buffer)
    (hs : s.strippedThinkStart = true ∨ ¬ thinkStart <:+: s.buffer) :
    Follows (dispatch qwen3Detector opt s).1 (r ++ (dispatch qwen3Detector opt s).2.reasoningText)
      (dispatch qwen3Detector opt s).2.normalText (read (r ++ s.buffer)) := by
  rcases dispatch_cases opt s hr with ⟨u, v, hb, he, h⟩ | ⟨hend, ⟨u, rest, hb, ht, h⟩ | ⟨ht, h⟩⟩
  · -- the closing token
    have hu := hE u (by rw [hb, append_assoc]; exact prefix_append _ _) he
    rw [h, hb, ← append_assoc, ← append_assoc, read_end hu]
    have hf : Follows { s with buffer := [], inReasoning := false } (r ++ u) v
        (.closed (r ++ u) (v ++ [])) := .closed hh rfl
    rwa [append_nil] at hf
  · -- a tool tag
    have hu := hT u (by rw [hb, append_assoc]; exact prefix_append _ _) ht
    have he := hE s.buffer prefix_rfl hend
    have heq : r ++ s.buffer = r ++ u ++ toolCall ++ rest := by rw [hb]; simp
    rw [heq] at he
    rw [heq, read_tool he hu, h]
    simpa using follows_processTcHeld { s with buffer := [] } rfl (r ++ u) rest
  · -- neither: what is given out is cut where a token may begin
    have he := hE s.buffer prefix_rfl hend
    have ht' := hT s.buffer prefix_rfl ht
    rw [h, if_pos hst, read_none he ht']
    set kept := s.buffer.length - holdback qwen3Detector s s.buffer with hkept
    have heq : r ++ s.buffer.take kept ++ s.buffer.drop kept = r ++ s.buffer := by simp
    have hcov : ∀ tok ∈ holdbackTokens qwen3Detector s,
        Covers tok (r ++ s.buffer.take kept) (s.buffer.drop kept) := by
      intro tok hm
      refine Covers.give (by simpa using hc tok hm) (holdback_covers s hm ?_)
      rcases mem_holdbackTokens.mp hm with rfl | rfl | ⟨hst, rfl⟩
      · exact hend
      · exact ht
      · exact hs.resolve_left (by simp [hst])
    have hf := Follows.reading (s := { s with buffer := s.buffer.drop kept })
      (r := r ++ s.buffer.take kept) hh hr (unfinished_holdback s s.buffer) (by rwa [heq])
      (by rwa [heq]) hcov
    rwa [heq] at hf

/-- No opening token is stripped from the text that is kept and the text that arrives. -/
def Quiet (s : State) (text : Str) : Prop :=
  s.strippedThinkStart = true ∨ ¬ thinkStart <:+: s.buffer ++ text

theorem Quiet.of_suffix {s s' : State} {x y : Str} (h : Quiet s (x ++ y))
    (hst : s'.strippedThinkStart = s.strippedThinkStart) (hb : s'.buffer <:+ s.buffer ++ x) :
    Quiet s' y := by
  rcases h with h | h
  · exact .inl (hst.trans h)
  · refine .inr fun hi => h (hi.trans ?_)
    obtain ⟨t, ht⟩ := hb
    exact ⟨t, [], by rw [append_nil, ← append_assoc, ht, append_assoc]⟩

theorem processTcHeld_keeps (s : State) (held : Str) :
    (processTcHeld qwen3Detector s held).1.strippedThinkStart = s.strippedThinkStart ∧
      (processTcHeld qwen3Detector s held).1.buffer <:+ s.buffer := by
  rw [processTcHeld]
  split <;> simp

theorem dispatch_keeps (opt : Options) (s : State) :
    (dispatch qwen3Detector opt s).1.strippedThinkStart = s.strippedThinkStart ∧
      (dispatch qwen3Detector opt s).1.buffer <:+ s.buffer := by
  cases hr : s.inReasoning with
  | false => simp [dispatch, hr]
  | true =>
    rcases dispatch_cases opt s hr with ⟨u, v, hb, -, h⟩ | ⟨-, ⟨u, rest, hb, -, h⟩ | ⟨-, h⟩⟩
    · rw [h]
      exact ⟨rfl, nil_suffix⟩
    · obtain ⟨hst, hb'⟩ := processTcHeld_keeps { s with buffer := [] } (toolCall ++ rest)
      rw [h]
      exact ⟨hst, hb'.trans nil_suffix⟩
    · rw [h]
      split
      · exact ⟨rfl, drop_suffix _ _⟩
      · exact ⟨rfl, suffix_rfl⟩

section
variable {opt : Options}

/-- A call that strips no opening token. -/
theorem increment_quiet (hf : opt.forceNonemptyContent = false) {s : State}
    (hh : s.heldTc = none) {x y : Str} (hq : Quiet s (x ++ y)) :
    parseStreamingIncrement qwen3Detector opt s x =
        (if keepsBuffering qwen3Detector (s.buffer ++ x) then
          ({ s with buffer := s.buffer ++ x }, Result.empty)
        else dispatch qwen3Detector opt { s with buffer := s.buffer ++ x }) ∧
      Quiet (parseStreamingIncrement qwen3Detector opt s x).1 y ∧
      (parseStreamingIncrement qwen3Detector opt s x).1.strippedThinkStart =
        s.strippedThinkStart := by
  have hstrip : stripThinkStart qwen3Detector { s with buffer := s.buffer ++ x } =
      { s with buffer := s.buffer ++ x } := by
    rcases stripThinkStart_cases { s with buffer := s.buffer ++ x } with
      ⟨h, -⟩ | ⟨u, v, hb, -, hst, -⟩
    · exact h
    · rcases hq with hq | hq
      · exact nomatch hst.symm.trans hq
      · refine absurd ?_ hq
        rw [← append_assoc, show s.buffer ++ x = u ++ thinkStart ++ v from hb]
        exact infix_append_of_infix_left (infix_append _ _ _)
  have heq := increment_eq hf hh x
  rw [hstrip] at heq
  refine ⟨heq, ?_⟩
  rw [heq]
  split
  · exact ⟨hq.of_suffix rfl suffix_rfl, rfl⟩
  · obtain ⟨hst, hb⟩ := dispatch_keeps opt { s with buffer := s.buffer ++ x }
    exact ⟨hq.of_suffix hst hb, hst⟩

/-- **A chunk that completes no opening token.** -/
theorem Follows.increment (hst : opt.streamReasoning = true)
    (hf : opt.forceNonemptyContent = false) {s : State} {r n : Str} {ph : Phase}
    (h : Follows s r n ph) {x y : Str} (hq : Quiet s (x ++ y)) :
    Follows (parseStreamingIncrement qwen3Detector opt s x).1
        (r ++ (parseStreamingIncrement qwen3Detector opt s x).2.reasoningText)
        (n ++ (parseStreamingIncrement qwen3Detector opt s x).2.normalText) (ph.feed x) ∧
      Quiet (parseStreamingIncrement qwen3Detector opt s x).1 y := by
  cases h with
  | @holding rest hh hb =>
    rw [increment_held hf hh, append_assoc]
    obtain ⟨hst', hb'⟩ := processTcHeld_keeps s (toolCall ++ (rest ++ x))
    refine ⟨follows_processTcHeld s hb r (rest ++ x), hq.of_suffix hst' ?_⟩
    rw [hb] at hb'
    rw [List.suffix_nil.mp hb']
    exact nil_suffix
  | closed hh hr =>
    obtain ⟨heq, hq', -⟩ := increment_quiet hf hh hq
    refine ⟨?_, hq'⟩
    rw [heq, Phase.feed, append_assoc]
    split
    · have hf' : Follows { s with buffer := s.buffer ++ x } r n
          (.closed r (n ++ (s.buffer ++ x))) := .closed hh hr
      simpa [Result.empty] using hf'
    · have hd : dispatch qwen3Detector opt { s with buffer := s.buffer ++ x } =
          ({ s with buffer := [] }, ⟨s.buffer ++ x, []⟩) := by
        simp [dispatch, hr]
      have hf' : Follows { s with buffer := [] } r (n ++ (s.buffer ++ x))
          (.closed r (n ++ (s.buffer ++ x) ++ [])) := .closed hh hr
      rw [hd]
      simpa using hf'
  | reading hh hr hb he ht hc =>
    obtain ⟨heq, hq', -⟩ := increment_quiet hf hh hq
    refine ⟨?_, hq'⟩
    have hcE := hc thinkEnd (mem_holdbackTokens.mpr (.inl rfl))
    have hcT := hc toolCall (mem_holdbackTokens.mpr (.inr (.inl rfl)))
    rw [heq, Phase.feed, append_assoc]
    split
    · rename_i hk
      have hu := keepsBuffering_iff.mp hk
      have he' := hcE.not_infix_append he prefix_rfl
        (hu.not_infix_token (mem_tokensToCheck.mpr (.inr (.inl rfl))))
      have ht' := hcT.not_infix_append ht prefix_rfl
        (hu.not_infix_token (mem_tokensToCheck.mpr (.inr (.inr rfl))))
      rw [read_none he' ht']
      have hf' : Follows { s with buffer := s.buffer ++ x } r []
          (.reading (r ++ (s.buffer ++ x))) :=
        .reading hh hr hu he' ht' fun tok hm => (hc tok hm).append x
      simpa [Result.empty] using hf'
    · refine follows_dispatch (s := { s with buffer := s.buffer ++ x }) hst hh hr r
        (fun u hu => hcE.not_infix_append he hu) (fun u hu => hcT.not_infix_append ht hu)
        (fun tok hm => (hc tok hm).append x) (hq.imp id fun hn hi => hn ?_)
      rw [← append_assoc]
      exact infix_append_of_infix_left hi

/-! ### The end of the stream -/

/-- One result after another. -/
def Result.append (a b : Result) : Result :=
  ⟨a.normalText ++ b.normalText, a.reasoningText ++ b.reasoningText⟩

theorem joined_cons (a : Result) (rs : List Result) : joined (a :: rs) = a.append (joined rs) := rfl

theorem Result.append_assoc (a b c : Result) :
    (a.append b).append c = a.append (b.append c) := by
  simp [Result.append]

theorem Follows.finish (hf : opt.forceNonemptyContent = false) {s : State}
    {r n : Str} {ph : Phase} (h : Follows s r n ph) :
    Result.append ⟨n, r⟩ (finish qwen3Detector opt s).2 = ph.split := by
  cases h with
  | reading hh hr hb he ht hc =>
    have htext : qwen3Detector.thinkStartText = thinkStart := rfl
    have hstrip : stripLeadingThinkStart qwen3Detector s.buffer = s.buffer := by
      rw [stripLeadingThinkStart, htext, if_neg hb.not_prefix_start]
    simp [Reasoning.finish, hh, hr, hf, hstrip, Result.append, Phase.split]
  | closed hh hr => simp [Reasoning.finish, hh, hr, Result.append, Phase.split]
  | @holding rest hh hb =>
    have htool : (qwen3Detector.toolTokens.head?.bind fun tc => rfind tc (toolCall ++ rest)) =
        rfind toolCall (toolCall ++ rest) := by
      have : qwen3Detector.toolTokens = [toolCall] := by decide
      rw [this]
      rfl
    simp only [Reasoning.finish, hh, htool]
    by_cases ht : toolCall <:+: rest
    · obtain ⟨u, v, rfl, hv⟩ := exists_last marked_toolCall.ne_nil ht
      have hlast : rfind toolCall (toolCall ++ (u ++ toolCall ++ v)) = some (u.length + 10 + 1) := by
        rw [← append_assoc, ← append_assoc, rfind_append marked_toolCall hv,
          length_append, Nat.add_comm]
        rfl
      rw [hlast]
      simp only [Phase.split, rfind_append marked_toolCall hv]
      rw [Nat.add_assoc, append_assoc u, take_held, drop_held]
      simp [Result.append]
    · have hlast : rfind toolCall (toolCall ++ rest) = some 0 :=
        rfind_append (u := []) marked_toolCall ht
      rw [hlast]
      simp [Phase.split, rfind_eq_none.mpr ht, Result.append]

/-- **A stream that completes no opening token** gives out what the phases split. -/
theorem Follows.results (hst : opt.streamReasoning = true)
    (hf : opt.forceNonemptyContent = false) (chunks : List Str) :
    ∀ {s : State} {r n : Str} {ph : Phase}, Follows s r n ph → Quiet s chunks.flatten →
      Result.append ⟨n, r⟩ (joined (results qwen3Detector opt s chunks)) =
        (chunks.foldl Phase.feed ph).split := by
  induction chunks with
  | nil =>
    intro s r n ph h _
    rw [Reasoning.results, foldl_nil, ← h.finish hf]
    simp [joined, Result.append]
  | cons x chunks ih =>
    intro s r n ph h hq
    rw [flatten_cons] at hq
    obtain ⟨h', hq'⟩ := h.increment hst hf hq
    rw [foldl_cons, ← ih h' hq', Reasoning.results, joined_cons, ← Result.append_assoc]
    rfl

/-! ### The opening token -/

/-- The chunk that completes the opening token. -/
theorem increment_strip (hf : opt.forceNonemptyContent = false) {s : State}
    (hh : s.heldTc = none) (hs : s.strippedThinkStart = false) {x u v : Str}
    (hb : s.buffer ++ x = u ++ thinkStart ++ v) (hu : ¬ thinkStart <:+: u) :
    parseStreamingIncrement qwen3Detector opt s x = dispatch qwen3Detector opt
        { s with buffer := u ++ v, strippedThinkStart := true, inReasoning := true } := by
  have hi : thinkStart <:+: s.buffer ++ x := by
    rw [hb]
    exact infix_append _ _ _
  rw [increment_eq hf hh, if_neg]
  · rcases stripThinkStart_cases { s with buffer := s.buffer ++ x } with
      ⟨-, h | h⟩ | ⟨u', v', hb', hu', -, h⟩
    · exact nomatch hs.symm.trans h
    · exact absurd hi h
    · obtain ⟨rfl, rfl⟩ := first_unique marked_thinkStart hu' hu (hb'.symm.trans hb)
      rw [h]
  · intro hk
    exact (keepsBuffering_iff.mp hk).not_infix_token (mem_tokensToCheck.mpr (.inl rfl)) hi

/-- From that chunk on the stream is the one of a new text. -/
theorem results_strip (hst : opt.streamReasoning = true)
    (hf : opt.forceNonemptyContent = false) {s : State} (hh : s.heldTc = none)
    (hs : s.strippedThinkStart = false) {x u v : Str} (hb : s.buffer ++ x = u ++ thinkStart ++ v)
    (hu : ¬ thinkStart <:+: u) (chunks : List Str) :
    joined (results qwen3Detector opt s (x :: chunks)) =
      (((u ++ v) :: chunks).foldl Phase.feed (.reading [])).split := by
  have hdisp := follows_dispatch hst
    (s := { s with buffer := u ++ v, strippedThinkStart := true, inReasoning := true })
    hh rfl [] (fun _ _ h => h) (fun _ _ h => h) (fun tok _ => covers_nil_left tok _) (.inl rfl)
  have hquiet := dispatch_keeps opt
    { s with buffer := u ++ v, strippedThinkStart := true, inReasoning := true }
  rw [← increment_strip hf hh hs hb hu] at hdisp hquiet
  exact hdisp.results hst hf chunks (.inl hquiet.1)

end

section Forced
variable {s : State} {r n text x : Str}

/-- A chunk that completes the token: what has been given out does not cut it. -/
theorem Follows.completes (h : Follows s r n (.reading text)) (hs : s.strippedThinkStart = false)
    (hn : ¬ thinkStart <:+: text) (hi : thinkStart <:+: text ++ x) :
    n = [] ∧ s.heldTc = none ∧ ∃ u v, s.buffer ++ x = u ++ thinkStart ++ v ∧
      ¬ thinkStart <:+: u ∧ ¬ thinkStart <:+: r ++ u ∧ text ++ x = r ++ u ++ thinkStart ++ v := by
  cases h with
  | reading hh hr hb he ht hc =>
    have hcov := hc thinkStart (mem_holdbackTokens.mpr (.inr (.inr ⟨hs, rfl⟩)))
    rw [append_assoc, hcov.infix_iff hn] at hi
    obtain ⟨u, v, hx, hu⟩ := exists_first marked_thinkStart.ne_nil hi
    have hru : ¬ thinkStart <:+: r ++ u :=
      hcov.not_infix_append hn (by rw [hx, append_assoc]; exact prefix_append _ _) hu
    refine ⟨rfl, hh, u, v, hx, hu, hru, ?_⟩
    rw [append_assoc r s.buffer x, hx]
    simp

/-- A chunk that does not. -/
theorem Follows.before {opt : Options} (hst : opt.streamReasoning = true)
    (hf : opt.forceNonemptyContent = false) (h : Follows s r n (.reading text))
    (hs : s.strippedThinkStart = false) (hi : ¬ thinkStart <:+: text ++ x) :
    Follows (parseStreamingIncrement qwen3Detector opt s x).1
        (r ++ (parseStreamingIncrement qwen3Detector opt s x).2.reasoningText)
        (n ++ (parseStreamingIncrement qwen3Detector opt s x).2.normalText) (read (text ++ x)) ∧
      (parseStreamingIncrement qwen3Detector opt s x).1.strippedThinkStart = false := by
  have hread : s.heldTc = none ∧ Quiet s (x ++ []) := by
    cases h with
    | reading hh hr hb he ht hc =>
      refine ⟨hh, .inr fun hi' => hi ?_⟩
      rw [append_assoc]
      exact infix_append_of_infix_right (by simpa using hi')
  obtain ⟨hh, hq⟩ := hread
  exact ⟨(h.increment hst hf hq).1, (increment_quiet hf hh hq).2.2.trans hs⟩

end Forced

/-- **Forced reasoning, and an opening token in it.**  What comes before the token is reasoning;
`tail`, the part of it that is not given out yet when the token is complete, is read again with
what follows. -/
theorem results_forced {opt : Options} (hst : opt.streamReasoning = true)
    (hf : opt.forceNonemptyContent = false) {pre post : Str} (hpre : ¬ thinkStart <:+: pre)
    (he : ¬ thinkEnd <:+: pre) (ht : ¬ toolCall <:+: pre) (chunks : List Str) :
    ∀ {s : State} {r n text : Str}, Follows s r n (.reading text) → s.strippedThinkStart = false →
      ¬ thinkStart <:+: text → text ++ chunks.flatten = pre ++ thinkStart ++ post →
      ∃ (R tail : Str) (chunks' : List Str), pre = R ++ tail ∧ chunks'.flatten = tail ++ post ∧
        Result.append ⟨n, r⟩ (joined (results qwen3Detector opt s chunks)) =
          Result.append ⟨[], R⟩ (chunks'.foldl Phase.feed (.reading [])).split := by
  induction chunks with
  | nil =>
    intro s r n text _ _ hn heq
    rw [flatten_nil, append_nil] at heq
    exact absurd (heq ▸ infix_append _ _ _) hn
  | cons x chunks ih =>
    intro s r n text h hs hn heq
    rw [flatten_cons, ← append_assoc] at heq
    by_cases hi : thinkStart <:+: text ++ x
    · obtain ⟨rfl, hh, u, v, hx, hu, hru, htext⟩ := h.completes hs hn hi
      rw [htext, append_assoc _ v] at heq
      obtain ⟨hR, hpost⟩ := first_unique marked_thinkStart hru hpre heq
      refine ⟨r, u, (u ++ v) :: chunks, hR.symm, ?_, ?_⟩
      · rw [flatten_cons, append_assoc, hpost]
      · rw [results_strip hst hf hh hs hx hu]
    · -- the text is still before the token, or in it
      have hprefix : text ++ x <+: pre ++ thinkStart ++ post := ⟨_, heq⟩
      have hE : ¬ thinkEnd <:+: text ++ x := fun hE =>
        he (marked_thinkStart.infix_before marked_thinkEnd apart_start_end.symm hprefix hi hE)
      have hT : ¬ toolCall <:+: text ++ x := fun hT =>
        ht (marked_thinkStart.infix_before marked_toolCall apart_start_tool.symm hprefix hi hT)
      obtain ⟨h', hs'⟩ := h.before hst hf hs hi
      rw [read_none hE hT] at h'
      obtain ⟨R, tail, chunks', hR, hflat, hres⟩ := ih h' hs' hi heq
      refine ⟨R, tail, chunks', hR, hflat, ?_⟩
      rw [← hres, results, joined_cons, ← Result.append_assoc]
      rfl

/-- **The opening token in front of the text**: from the chunk that completes it, what that chunk has
after the token, and the chunks after it. -/
theorem results_opened {opt : Options} (hst : opt.streamReasoning = true)
    (hf : opt.forceNonemptyContent = false) {post : Str} (chunks : List Str) :
    ∀ {s : State}, s.heldTc = none → s.strippedThinkStart = false → ¬ thinkStart <+: s.buffer →
      s.buffer ++ chunks.flatten = thinkStart ++ post →
      ∃ before x y after, chunks = before ++ x :: after ∧
        s.buffer ++ before.flatten ++ x = thinkStart ++ y ∧
        ¬ thinkStart <+: s.buffer ++ before.flatten ∧
        joined (results qwen3Detector opt s chunks) =
          ((y :: after).foldl Phase.feed (.reading [])).split := by
  induction chunks with
  | nil =>
    intro s _ _ hn heq
    rw [flatten_nil, append_nil] at heq
    exact absurd (heq ▸ prefix_append _ _) hn
  | cons x chunks ih =>
    intro s hh hs hn heq
    rw [flatten_cons, ← append_assoc] at heq
    by_cases hp : thinkStart <+: s.buffer ++ x
    · obtain ⟨y, hy⟩ := hp
      refine ⟨[], x, y, chunks, rfl, by simpa using hy.symm, by simpa using hn, ?_⟩
      exact results_strip (u := []) hst hf hh hs hy.symm
        (fun hi => marked_thinkStart.ne_nil (List.infix_nil.mp hi)) chunks
    · have hx : s.buffer ++ x <+: thinkStart :=
        (List.prefix_or_prefix_of_prefix ⟨_, heq⟩ (prefix_append _ post)).resolve_right hp
      have hk : keepsBuffering qwen3Detector (s.buffer ++ x) = true := by
        refine keepsBuffering_iff.mpr ⟨thinkStart, mem_tokensToCheck.mpr (.inl rfl), hx, ?_⟩
        intro heq'
        exact hp (heq' ▸ prefix_rfl)
      have hstep := increment_eq hf hh x
      rw [if_pos hk] at hstep
      obtain ⟨before, x', y, after, rfl, hy, hn', hres⟩ :=
        ih (s := { s with buffer := s.buffer ++ x }) hh hs hp heq
      refine ⟨x :: before, x', y, after, rfl, by simpa using hy, by simpa using hn', ?_⟩
      rw [← hres, results, joined_cons, hstep]
      rfl

end QwenStack.Reasoning
