import QwenStack.Reasoning.Steady

/-!
# Reasoning — streams against chunks and against one shot

How a text is cut into chunks does not matter for the texts that are `ChunkFree`
(`parseStream_chunks`): whether reasoning is closed early is decided when a tool tag and a block
have arrived, and a closing token that comes later is not seen, so it does matter for others
(`late_close_depends_on_chunks`).

Without a closing token the stream of a text that `<think>` opens is, for all its chunks, what
`detect_and_parse` returns exactly where the first tool tag opens a block, or none but the last
does (`stream_eq_detectAndParse_iff`).
-/

namespace QwenStack.Reasoning
open Marker List

/-! ### The stream of a fresh detector -/

theorem Result.nil_append (a : Result) : Result.append ⟨[], []⟩ a = a := rfl

theorem follows_init_forced (stream : Bool) :
    Follows (init qwen3Detector (plain stream true)) [] [] (.reading []) := by
  have h := Follows.reading (s := init qwen3Detector (plain stream true)) (r := []) rfl
    (init_inReasoning stream true)
    ⟨thinkStart, mem_tokensToCheck.mpr (.inl rfl), nil_prefix, marked_thinkStart.ne_nil⟩
    (marked_thinkEnd.not_infix_of_not_mem not_mem_nil)
    (marked_toolCall.not_infix_of_not_mem not_mem_nil)
    fun tok _ => covers_nil_left tok _
  exact h

theorem follows_init_unforced (stream : Bool) :
    Follows (init qwen3Detector (plain stream false)) [] [] (.closed [] []) :=
  Follows.closed (s := init qwen3Detector (plain stream false)) (r := []) (n := []) rfl
    (init_inReasoning stream false)

theorem foldl_closed (chunks : List Str) (r n : Str) :
    chunks.foldl Phase.feed (.closed r n) = .closed r (n ++ chunks.flatten) := by
  induction chunks generalizing n with
  | nil => simp
  | cons x chunks ih => simp [Phase.feed, ih]

/-- A text without an opening token. -/
theorem parseStream_quiet {force : Bool} {text : Str} (hs : ¬ thinkStart <:+: text)
    {chunks : List Str} (hc : chunks.flatten = text) {ph : Phase}
    (h : Follows (init qwen3Detector (plain true force)) [] [] ph) :
    parseStream qwen3Detector (plain true force) chunks = (chunks.foldl Phase.feed ph).split := by
  have hres := h.results (plain_streamReasoning force) (plain_forceNonemptyContent true force)
    chunks (.inr (by rw [hc]; exact hs))
  rwa [Result.nil_append] at hres

/-- A forced text with an opening token in it. -/
theorem parseStream_forced {pre post : Str} (hs : ¬ thinkStart <:+: pre)
    (he : ¬ thinkEnd <:+: pre) (ht : ¬ toolCall <:+: pre) {chunks : List Str}
    (hc : chunks.flatten = pre ++ thinkStart ++ post) :
    ∃ (R tail : Str) (chunks' : List Str), pre = R ++ tail ∧ chunks'.flatten = tail ++ post ∧
      parseStream qwen3Detector (plain true true) chunks =
        Result.append ⟨[], R⟩ (chunks'.foldl Phase.feed (.reading [])).split :=
  results_forced (plain_streamReasoning true) (plain_forceNonemptyContent true true) hs he ht chunks
    (follows_init_forced true) rfl (marked_thinkStart.not_infix_of_not_mem not_mem_nil) hc

/-- A text with an opening token in front, forced or not. -/
theorem parseStream_opened_at (force : Bool) {post : Str} {chunks : List Str}
    (hc : chunks.flatten = thinkStart ++ post) :
    ∃ before x y after, chunks = before ++ x :: after ∧
      before.flatten ++ x = thinkStart ++ y ∧ ¬ thinkStart <+: before.flatten ∧
      parseStream qwen3Detector (plain true force) chunks =
        ((y :: after).foldl Phase.feed (.reading [])).split :=
  results_opened (plain_streamReasoning force) (plain_forceNonemptyContent true force) chunks
    (s := init qwen3Detector (plain true force)) rfl rfl
    (fun hp => marked_thinkStart.ne_nil (List.prefix_nil.mp hp)) hc

theorem parseStream_opened (force : Bool) {post : Str} {chunks : List Str}
    (hc : chunks.flatten = thinkStart ++ post) :
    ∃ chunks' : List Str, chunks'.flatten = post ∧ parseStream qwen3Detector (plain true force) chunks =
        (chunks'.foldl Phase.feed (.reading [])).split := by
  obtain ⟨before, x, y, after, rfl, hy, -, hres⟩ := parseStream_opened_at force hc
  refine ⟨y :: after, ?_, hres⟩
  rw [flatten_append, flatten_cons, ← append_assoc, hy, append_assoc] at hc
  exact append_cancel_left hc

/-! ### Any two ways of cutting a text -/

/-- Every tail of `pre` that is read again with `post` is split off as reasoning. -/
def Seamless (pre post : Str) : Prop :=
  ∀ R tail, pre = R ++ tail → Steady (tail ++ post) ∧
    splitReasoning qwen3Detector (plain true true) (tail ++ post) =
      Result.append ⟨[], tail⟩ (splitReasoning qwen3Detector (plain true true) post)

theorem seamless_nil {post : Str} (h : Steady post) : Seamless [] post := by
  intro R tail hR
  obtain ⟨rfl, rfl⟩ := List.append_eq_nil_iff.mp hR.symm
  exact ⟨h, rfl⟩

/-- The texts whose split does not depend on the chunks: without an opening token, all normal text
or, forced, a steady one; else with the opening token in front, or forced, after a text without a
closing token or a tool tag. -/
def ChunkFree (force : Bool) (text : Str) : Prop :=
  (¬ thinkStart <:+: text ∧ (force = true → Steady text)) ∨
  ∃ pre post, text = pre ++ thinkStart ++ post ∧ ¬ thinkStart <:+: pre ∧ ¬ thinkEnd <:+: pre ∧
    ¬ toolCall <:+: pre ∧ (force = false → pre = []) ∧ Seamless pre post

/-- One split for all chunks. -/
theorem ChunkFree.exists_split {force : Bool} {text : Str} (h : ChunkFree force text) :
    ∃ res, ∀ chunks : List Str, chunks.flatten = text →
      parseStream qwen3Detector (plain true force) chunks = res := by
  rcases h with ⟨hs, hsteady⟩ | ⟨pre, post, rfl, hs, he, ht, hforce, hseam⟩
  · cases force with
    | false =>
      refine ⟨⟨text, []⟩, fun chunks hc => ?_⟩
      rw [parseStream_quiet hs hc (follows_init_unforced true), foldl_closed, hc]
      rfl
    | true =>
      refine ⟨splitReasoning qwen3Detector (plain true true) text, fun chunks hc => ?_⟩
      rw [parseStream_quiet hs hc (follows_init_forced true)]
      exact (hsteady rfl).split_eq hc true true
  · cases force with
    | false =>
      obtain rfl := hforce rfl
      refine ⟨splitReasoning qwen3Detector (plain true true) post, fun chunks hc => ?_⟩
      obtain ⟨chunks', hflat, hres⟩ := parseStream_opened false hc
      rw [hres]
      exact (hseam [] [] rfl).1.split_eq hflat true true
    | true =>
      refine ⟨Result.append ⟨[], pre⟩ (splitReasoning qwen3Detector (plain true true) post),
        fun chunks hc => ?_⟩
      obtain ⟨R, tail, chunks', rfl, hflat, hres⟩ := parseStream_forced hs he ht hc
      obtain ⟨hsteady, hsplit⟩ := hseam R tail rfl
      rw [hsteady.split_eq hflat true true, hsplit, ← Result.append_assoc] at hres
      exact hres

/-- **Any two ways of cutting a text** give the same reasoning and the same normal text. -/
theorem parseStream_chunks {force : Bool} {text : Str} (h : ChunkFree force text)
    {chunks chunks' : List Str} (hc : chunks.flatten = text) (hc' : chunks'.flatten = text) :
    parseStream qwen3Detector (plain true force) chunks =
      parseStream qwen3Detector (plain true force) chunks' := by
  obtain ⟨res, hres⟩ := h.exists_split
  rw [hres chunks hc, hres chunks' hc']

/-- A tool call in reasoning that is not closed, whole and in pieces. -/
theorem open_call_chunks :
    parseStream qwen3Detector (plain true false) ["<think>a<tool_call> <function=f>".toList] =
      parseStream qwen3Detector (plain true false)
        ["<thi".toList, "nk>a<tool_c".toList, "all> <func".toList, "tion=f>".toList] := by
  have hsteady : Steady "a<tool_call> <function=f>".toList :=
    .inr ⟨by decide, .inl ⟨"a".toList, " <function=f>".toList, by decide, by decide, by decide⟩⟩
  have hfree : ChunkFree false "<think>a<tool_call> <function=f>".toList :=
    .inr ⟨[], "a<tool_call> <function=f>".toList, by decide, by decide, by decide, by decide,
      fun _ => rfl, seamless_nil hsteady⟩
  exact parseStream_chunks hfree (by decide) (by decide)

/-- A closing token after a block is not seen where the block has arrived before it. -/
theorem late_close_depends_on_chunks :
    ["<think><tool_call><function=x</think>y".toList].flatten =
        ["<think><tool_call><function=".toList, "x</think>y".toList].flatten ∧
      parseStream qwen3Detector (plain true false)
          ["<think><tool_call><function=x</think>y".toList] ≠
        parseStream qwen3Detector (plain true false)
          ["<think><tool_call><function=".toList, "x</think>y".toList] := by
  decide

/-! ### The stream and one shot -/

theorem detectAndParse_opened {force : Bool} {body : Str} (hs : ¬ thinkStart <:+: body) :
    detectAndParse qwen3Detector (plain true force) (init qwen3Detector (plain true force))
        (thinkStart ++ body) =
      splitReasoning qwen3Detector (plain true force) body := by
  have hstart : qwen3Detector.thinkStartToken = thinkStart := rfl
  have htext : qwen3Detector.thinkStartText = thinkStart := rfl
  have hbody : ∀ fuel, stripThinkStarts thinkStart fuel body = body := by
    intro fuel
    cases fuel with
    | zero => rfl
    | succ fuel => rw [stripThinkStarts, if_neg fun hp => hs hp.isInfix]
  have hstrip : stripThinkStarts thinkStart (thinkStart ++ body).length (thinkStart ++ body) =
      body := by
    rw [length_append, Nat.add_comm]
    show stripThinkStarts thinkStart (body.length + 6 + 1) (thinkStart ++ body) = body
    rw [stripThinkStarts, if_pos (prefix_append _ _), drop_left, hbody]
  have hin : (init qwen3Detector (plain true force)).inReasoning = true ∨
      thinkStart <:+: thinkStart ++ body := .inr infix_append_left
  simp only [detectAndParse, detectAndParseImpl, hstart, htext, if_pos hin, hstrip]
  exact if_neg fun h => nomatch h.1

/-- The stream of one chunk. -/
theorem parseStream_one_chunk (force : Bool) (body : Str) :
    parseStream qwen3Detector (plain true force) [thinkStart ++ body] = (read body).split := by
  exact results_strip (plain_streamReasoning force) (plain_forceNonemptyContent true force)
    (s := init qwen3Detector (plain true force)) (x := thinkStart ++ body) (u := []) (v := body)
    rfl rfl rfl (marked_thinkStart.not_infix_of_not_mem not_mem_nil) []

/-- One chunk whose first tool tag opens no block is cut at the last one. -/
theorem read_split_last {text a rest u v : Str} (he : ¬ thinkEnd <:+: text)
    (ha : text = a ++ toolCall ++ rest) (hta : ¬ toolCall <:+: a) (ho : ¬ OpensBlock rest)
    (heq : text = u ++ toolCall ++ v) (hv : ¬ toolCall <:+: v) :
    (read text).split = ⟨toolCall ++ v, u⟩ := by
  have her : ¬ thinkEnd <:+: rest := fun hi => he (by
    rw [ha]
    exact infix_append_of_infix_right hi)
  have hread : read text = resolve a rest := by
    rw [ha] at he ⊢
    exact read_tool he hta
  rw [hread]
  by_cases ht : toolCall <:+: rest
  · obtain ⟨b, c, rfl, hb⟩ := exists_first marked_toolCall.ne_nil ht
    have heb : ¬ thinkEnd <:+: b := fun hi => her (by
      rw [append_assoc]
      exact infix_append_of_infix_left hi)
    rw [resolve_next ho heb hb]
    exact split_holding (by rw [← heq, ha]; simp) hv
  · rw [resolve_none ho her ht]
    exact split_holding (ha.symm.trans heq) hv

/-- The first tool tag that opens a block, where one opens that is not the last. -/
theorem exists_first_opening {text p rest : Str} (heq : text = p ++ toolCall ++ rest)
    (ht : toolCall <:+: rest) (ho : OpensBlock rest) :
    ∃ u v, text = u ++ toolCall ++ v ∧ toolCall <:+: v ∧ OpensBlock v ∧
      ∀ q w, text = q ++ toolCall ++ w → q.length < u.length → ¬ OpensBlock w := by
  induction hn : p.length using Nat.strong_induction_on generalizing p rest with
  | _ n ih =>
    by_cases hex : ∃ q w, text = q ++ toolCall ++ w ∧ q.length < p.length ∧ OpensBlock w
    · obtain ⟨q, w, hq, hlt, how⟩ := hex
      -- what follows an earlier tag has the last one in it too
      have hsuf : rest <:+ w := by
        refine suffix_of_suffix_length_le (heq ▸ suffix_append _ _ : rest <:+ text)
          (hq ▸ suffix_append _ _) ?_
        have hlen := congrArg List.length (heq.symm.trans hq)
        simp only [length_append] at hlen
        omega
      exact ih q.length (hn ▸ hlt) hq (ht.trans hsuf.isInfix) how rfl
    · exact ⟨p, rest, heq, ht, ho, fun q w hq hlt how => hex ⟨q, w, hq, hlt, how⟩⟩

/-- **Streaming agrees with one shot, where the closing token is omitted**, for all chunks, exactly
where the first tool tag opens a block or none but the last does. -/
theorem stream_eq_detectAndParse_iff (force : Bool) {body : Str} (hs : ¬ thinkStart <:+: body)
    (he : ¬ thinkEnd <:+: body) :
    (∀ chunks : List Str, chunks.flatten = thinkStart ++ body →
      parseStream qwen3Detector (plain true force) chunks =
        detectAndParse qwen3Detector (plain true force) (init qwen3Detector (plain true force))
          (thinkStart ++ body)) ↔
      FirstOpens body ∨ OnlyLastOpens body := by
  rw [detectAndParse_opened hs]
  constructor
  · intro h
    have hone := h [thinkStart ++ body] (by simp)
    rw [parseStream_one_chunk] at hone
    by_contra hor
    obtain ⟨hfirst, hlast⟩ := not_or.mp hor
    -- a tool tag opens a block that is not the last, nor the first
    have hex : ∃ p rest, body = p ++ toolCall ++ rest ∧ toolCall <:+: rest ∧ OpensBlock rest := by
      by_contra hex
      exact hlast fun p rest hp ht ho => hex ⟨p, rest, hp, ht, ho⟩
    obtain ⟨p, rest, hp, htr, hor⟩ := hex
    obtain ⟨u, v, hu, htv, hov, hbefore⟩ := exists_first_opening hp htr hor
    have hbody : toolCall <:+: body := hp ▸ infix_append _ _ _
    obtain ⟨a, w, ha, hta⟩ := exists_first marked_toolCall.ne_nil hbody
    obtain ⟨c, d, hc, htd⟩ := exists_last marked_toolCall.ne_nil hbody
    have how : ¬ OpensBlock w := fun ho => hfirst ⟨a, w, ha, hta, ho⟩
    rw [read_split_last he ha hta how hc htd, splitReasoning_tool he hu (.inl hov) hbefore] at hone
    have hvd := append_cancel_left (congrArg Result.normalText hone)
    exact htd (hvd ▸ htv)
  · intro h chunks hchunks
    obtain ⟨chunks', hflat, hres⟩ := parseStream_opened force hchunks
    rw [hres]
    exact Steady.split_eq (.inr ⟨he, h⟩) hflat true force

/-- A tool call in reasoning that is not closed, in two chunks. -/
theorem open_call_eq_detectAndParse :
    ¬ thinkStart <:+: "a<tool_call><function=f>".toList ∧
      ¬ thinkEnd <:+: "a<tool_call><function=f>".toList ∧
      parseStream qwen3Detector (plain true false)
          ["<think>a<tool".toList, "_call><function=f>".toList] =
        detectAndParse qwen3Detector (plain true false) (init qwen3Detector (plain true false))
          (thinkStart ++ "a<tool_call><function=f>".toList) := by
  have hs : ¬ thinkStart <:+: "a<tool_call><function=f>".toList := by decide
  have he : ¬ thinkEnd <:+: "a<tool_call><function=f>".toList := by decide
  have hopens : FirstOpens "a<tool_call><function=f>".toList :=
    ⟨"a".toList, "<function=f>".toList, by decide, by decide, by decide⟩
  exact ⟨hs, he, (stream_eq_detectAndParse_iff false hs he).mpr (.inl hopens) _ (by decide)⟩

/-- A mention and two calls in one chunk: the stream is cut at the second call. -/
theorem second_call_ne_detectAndParse :
    ¬ thinkStart <:+: "<tool_call> x <tool_call><function=a> <tool_call><function=b>".toList ∧
      ¬ thinkEnd <:+: "<tool_call> x <tool_call><function=a> <tool_call><function=b>".toList ∧
      parseStream qwen3Detector (plain true false)
          ["<think><tool_call> x <tool_call><function=a> <tool_call><function=b>".toList] ≠
        detectAndParse qwen3Detector (plain true false) (init qwen3Detector (plain true false))
          "<think><tool_call> x <tool_call><function=a> <tool_call><function=b>".toList := by
  decide

end QwenStack.Reasoning
