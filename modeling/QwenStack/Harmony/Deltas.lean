import QwenStack.Harmony.Definitions

/-!
# Harmony — the text of a stream

The text of analysis comes token by token, and so does that of the final channel; `parse_chunk` has one
place for each in the delta of a chunk, and keeps the last of a chunk there.

So the deltas have all of the text exactly when in each chunk only the last token of either kind has any:
`lossless_iff`.
-/

namespace QwenStack.Harmony

open List

/-- The text of a token, with its channel. -/
structure ContentDelta where
  channel : Option Str
  text : Str
  deriving DecidableEq, Repr

/-- The text of the analysis. -/
def ContentDelta.isAnalysis (d : ContentDelta) : Bool := d.channel = some "analysis".toList

/-- The text of the final channel, or of none. -/
def ContentDelta.isFinal (d : ContentDelta) : Bool :=
  d.channel = some "final".toList ∨ d.channel = none

def ContentDelta.isCommentary (d : ContentDelta) : Bool := d.channel = some "commentary".toList

theorem ContentDelta.isAnalysis_iff {d : ContentDelta} :
    d.isAnalysis = true ↔ d.channel = some "analysis".toList :=
  decide_eq_true_iff

theorem ContentDelta.isFinal_iff {d : ContentDelta} :
    d.isFinal = true ↔ d.channel = some "final".toList ∨ d.channel = none :=
  decide_eq_true_iff

theorem ContentDelta.isCommentary_iff {d : ContentDelta} :
    d.isCommentary = true ↔ d.channel = some "commentary".toList :=
  decide_eq_true_iff

section Reading
variable {σ : Type} (p : StreamableParser σ)

/-- What the parser says after a token. -/
def StreamableParser.contentDelta (s : σ) : Option ContentDelta :=
  match p.lastContentDelta s with
  | .ok (some text) => some ⟨p.currentChannel s, text⟩
  | _ => none

/-- The parser accepts some tokens, and says these deltas. -/
inductive Reads : σ → List Nat → List ContentDelta → σ → Prop where
  | nil (s : σ) : Reads s [] [] s
  | cons {s s' s'' : σ} {token : Nat} {tokens : List Nat} {deltas : List ContentDelta}
      (head : p.process s token = .ok s') (tail : Reads s' tokens deltas s'') :
      Reads s (token :: tokens) ((p.contentDelta s').toList ++ deltas) s''

/-- The parser accepts the tokens of some chunks, and says these deltas in each of them. -/
inductive ReadsChunks : σ → List (List Nat) → List (List ContentDelta) → σ → Prop where
  | nil (s : σ) : ReadsChunks s [] [] s
  | cons {s s' s'' : σ} {chunk : List Nat} {chunks : List (List Nat)} {deltas : List ContentDelta}
      {rest : List (List ContentDelta)} (head : Reads p s chunk deltas s')
      (tail : ReadsChunks s' chunks rest s'') :
      ReadsChunks s (chunk :: chunks) (deltas :: rest) s''

variable {p}

variable (p)

/-- The deltas of some tokens, if they are accepted. -/
def StreamableParser.read (s : σ) : List Nat → Except Str (List ContentDelta × σ)
  | [] => .ok ([], s)
  | token :: tokens =>
      match p.process s token with
      | .error e => .error e
      | .ok s =>
          match StreamableParser.read s tokens with
          | .error e => .error e
          | .ok (deltas, s') => .ok ((p.contentDelta s).toList ++ deltas, s')

/-- The deltas of some chunks, if they are accepted. -/
def StreamableParser.readChunks (s : σ) :
    List (List Nat) → Except Str (List (List ContentDelta) × σ)
  | [] => .ok ([], s)
  | chunk :: chunks =>
      match p.read s chunk with
      | .error e => .error e
      | .ok (deltas, s) =>
          match StreamableParser.readChunks s chunks with
          | .error e => .error e
          | .ok (rest, s') => .ok (deltas :: rest, s')

variable {p}

theorem reads_of_read {s s' : σ} {tokens : List Nat} {deltas : List ContentDelta}
    (h : p.read s tokens = .ok (deltas, s')) : Reads p s tokens deltas s' := by
  induction tokens generalizing s deltas with
  | nil =>
    obtain ⟨rfl, rfl⟩ := Prod.mk.inj (Except.ok.inj h)
    exact .nil s
  | cons token tokens ih =>
    rw [StreamableParser.read] at h
    split at h
    · cases h
    · next s₁ hone =>
      split at h
      · cases h
      · next rest s₂ hrest =>
        cases h
        exact .cons hone (ih hrest)

theorem readsChunks_of_read {s s' : σ} {chunks : List (List Nat)} {each : List (List ContentDelta)}
    (h : p.readChunks s chunks = .ok (each, s')) : ReadsChunks p s chunks each s' := by
  induction chunks generalizing s each with
  | nil =>
    obtain ⟨rfl, rfl⟩ := Prod.mk.inj (Except.ok.inj h)
    exact .nil s
  | cons chunk chunks ih =>
    rw [StreamableParser.readChunks] at h
    split at h
    · cases h
    · next deltas s₁ hone =>
      split at h
      · cases h
      · next rest s₂ hrest =>
        cases h
        exact .cons (reads_of_read hone) (ih hrest)

end Reading

/-! ### One slot for a chunk -/

/-- The text of some deltas. -/
def textOf (kind : ContentDelta → Bool) (deltas : List ContentDelta) : Str :=
  (deltas.filter kind).flatMap ContentDelta.text

/-- The text of the last of them. -/
def lastOf (kind : ContentDelta → Bool) (deltas : List ContentDelta) : Option Str :=
  (deltas.filter kind).getLast?.map ContentDelta.text

/-- Only the last of them has any text. -/
def LastOnly (kind : ContentDelta → Bool) (deltas : List ContentDelta) : Prop :=
  ∀ d ∈ (deltas.filter kind).dropLast, d.text = []

theorem lastOf_concat (kind : ContentDelta → Bool) (deltas : List ContentDelta) (d : ContentDelta) :
    lastOf kind (deltas ++ [d]) = if kind d = true then some d.text else lastOf kind deltas := by
  rw [lastOf, lastOf, filter_append]
  by_cases h : kind d = true
  · rw [if_pos h, filter_cons_of_pos h, filter_nil, List.getLast?_concat, Option.map_some]
  · rw [if_neg h, filter_cons_of_neg h, filter_nil, append_nil]

/-- The last text is an end of the whole one, and all of it if only the last has any. -/
theorem lastOf_suffix (kind : ContentDelta → Bool) (deltas : List ContentDelta) :
    (lastOf kind deltas).getD [] <:+ textOf kind deltas ∧
      ((lastOf kind deltas).getD [] = textOf kind deltas ↔ LastOnly kind deltas) := by
  rw [lastOf, textOf, LastOnly]
  rcases eq_nil_or_concat (deltas.filter kind) with hnil | ⟨init, d, hconcat⟩
  · rw [hnil]
    exact ⟨nil_suffix, fun _ _ h => absurd h not_mem_nil, fun _ => rfl⟩
  · rw [hconcat, concat_eq_append, List.getLast?_concat, dropLast_concat,
      flatMap_append, flatMap_singleton]
    refine ⟨suffix_append _ _, ?_⟩
    rw [← flatMap_eq_nil_iff]
    exact ⟨fun h => List.append_left_eq_self.mp h.symm, fun h => by rw [h]; rfl⟩

/-- Ends of some texts make up the whole text exactly when each is the whole one. -/
theorem flatten_eq_iff {α : Type*} {f g : α → Str} {l : List α} (h : ∀ a ∈ l, f a <:+ g a) :
    l.flatMap f = l.flatMap g ↔ ∀ a ∈ l, f a = g a := by
  have hlength : ∀ l : List α, (∀ a ∈ l, f a <:+ g a) →
      (l.flatMap f).length ≤ (l.flatMap g).length := by
    intro l h
    induction l with
    | nil => exact Nat.le_refl _
    | cons a l ih =>
      rw [flatMap_cons, flatMap_cons, length_append, length_append]
      exact Nat.add_le_add (h a (mem_cons_self ..)).length_le
        (ih fun b hb => h b (mem_cons_of_mem a hb))
  refine ⟨fun heq => ?_, fun heq => flatMap_congr heq⟩
  induction l with
  | nil => exact fun a ha => absurd ha not_mem_nil
  | cons a l ih =>
    have hhead := h a (mem_cons_self ..)
    have hrest := fun b hb => h b (mem_cons_of_mem a hb)
    rw [flatMap_cons, flatMap_cons] at heq
    have hsame : (f a).length = (g a).length := by
      have hsum := congrArg List.length heq
      rw [length_append, length_append] at hsum
      have hle := hhead.length_le
      have hle' := hlength l hrest
      omega
    have hfirst : f a = g a := hhead.eq_of_length hsame
    rw [hfirst, append_cancel_left_eq] at heq
    exact List.forall_mem_cons.mpr ⟨hfirst, ih hrest heq⟩

/-! ### What a chunk keeps -/

section Chunks
variable {σ : Type} {p : StreamableParser σ}

/-- A chunk has kept these deltas: the last of each kind, and all text of the commentary. -/
structure Chunk.Holds (c : Chunk σ) (deltas : List ContentDelta) : Prop where
  analysis : c.analysisDelta = lastOf ContentDelta.isAnalysis deltas
  final : c.finalDelta = lastOf ContentDelta.isFinal deltas
  commentary : c.accumulatedDelta = textOf ContentDelta.isCommentary deltas
  any : c.hasDelta = true ↔ deltas ≠ []

theorem textOf_concat (kind : ContentDelta → Bool) (deltas : List ContentDelta) (d : ContentDelta) :
    textOf kind (deltas ++ [d]) = textOf kind deltas ++ if kind d = true then d.text else [] := by
  rw [textOf, textOf, filter_append, flatMap_append]
  by_cases h : kind d = true
  · rw [if_pos h, filter_cons_of_pos h, filter_nil, flatMap_singleton]
  · rw [if_neg h, filter_cons_of_neg h, filter_nil, flatMap_nil]

/-- One more delta. -/
theorem Chunk.Holds.addDelta {c : Chunk σ} {deltas : List ContentDelta} (h : c.Holds deltas)
    (channel : Option Str) (text : Str) :
    (c.addDelta channel text).Holds (deltas ++ [⟨channel, text⟩]) := by
  have hne : deltas ++ [⟨channel, text⟩] ≠ [] := append_ne_nil_of_right_ne_nil _ (cons_ne_nil _ _)
  rw [Chunk.addDelta]
  refine ⟨?_, ?_, ?_, ?_⟩
  · rw [lastOf_concat]
    by_cases hanalysis : channel = some "analysis".toList
    · rw [if_pos hanalysis, if_pos (ContentDelta.isAnalysis_iff.mpr hanalysis)]
    · rw [if_neg hanalysis, if_neg fun h => hanalysis (ContentDelta.isAnalysis_iff.mp h)]
      split
      · exact h.analysis
      · split <;> exact h.analysis
  · rw [lastOf_concat]
    by_cases hfinal : channel = some "final".toList ∨ channel = none
    · have hanalysis : channel ≠ some "analysis".toList := by rcases hfinal with rfl | rfl <;> decide
      rw [if_neg hanalysis, if_pos hfinal, if_pos (ContentDelta.isFinal_iff.mpr hfinal)]
    · rw [if_neg hfinal, if_neg fun h => hfinal (ContentDelta.isFinal_iff.mp h)]
      split
      · exact h.final
      · split <;> exact h.final
  · rw [textOf_concat]
    by_cases hcommentary : channel = some "commentary".toList
    · subst hcommentary
      rw [if_neg (by decide), if_neg (by decide), if_pos rfl,
        if_pos (ContentDelta.isCommentary_iff.mpr rfl)]
      exact congrArg (· ++ text) h.commentary
    · rw [if_neg hcommentary, if_neg fun h => hcommentary (ContentDelta.isCommentary_iff.mp h),
        append_nil]
      split
      · exact h.commentary
      · split <;> exact h.commentary
  · refine ⟨fun _ => hne, fun _ => ?_⟩
    split
    · rfl
    · split
      · rfl
      · split <;> rfl

/-- **A token.** -/
theorem Chunk.Holds.processToken {c : Chunk σ} {deltas : List ContentDelta} (h : c.Holds deltas)
    {token : Nat} {s' : σ} (hprocess : p.process c.parser token = .ok s') :
    ∃ c', c.processToken p token = .ok c' ∧ c'.parser = s' ∧
      c'.Holds (deltas ++ (p.contentDelta s').toList) := by
  rw [Chunk.processToken, hprocess, StreamableParser.contentDelta]
  dsimp only
  have hcounted : ({ c with
      parser := s'
      reasoningTokenCount := countReasoning (p.currentChannel s') c.reasoningTokenCount } :
        Chunk σ).Holds deltas := ⟨h.analysis, h.final, h.commentary, h.any⟩
  cases p.lastContentDelta s' with
  | error e => exact ⟨_, rfl, rfl, (append_nil deltas).symm ▸ hcounted⟩
  | ok delta =>
    cases delta with
    | none => exact ⟨_, rfl, rfl, (append_nil deltas).symm ▸ hcounted⟩
    | some text =>
      refine ⟨_, rfl, ?_, hcounted.addDelta (p.currentChannel s') text⟩
      rw [Chunk.addDelta]
      split
      · rfl
      · split
        · rfl
        · split <;> rfl

/-- **The tokens of a chunk.** -/
theorem Chunk.Holds.run {s s' : σ} {tokens : List Nat} {more : List ContentDelta}
    (hreads : Reads p s tokens more s') {c : Chunk σ} {deltas : List ContentDelta}
    (h : c.Holds deltas) (hs : c.parser = s) :
    ∃ c', tokens.foldlM (Chunk.processToken p) c = .ok c' ∧ c'.parser = s' ∧
      c'.Holds (deltas ++ more) := by
  induction hreads generalizing c deltas with
  | nil s => exact ⟨c, rfl, hs, (append_nil deltas).symm ▸ h⟩
  | cons head _ ih =>
    rw [← hs] at head
    obtain ⟨c₁, hone, hparser, hholds⟩ := h.processToken head
    obtain ⟨c', hrest, hparser', hholds'⟩ := ih hholds hparser
    refine ⟨c', ?_, hparser', ?_⟩
    · rw [foldlM_cons, hone]
      exact hrest
    · rwa [append_assoc] at hholds'

/-- What `parse_chunk` gives for the deltas of a chunk. -/
structure Gives (p : StreamableParser σ) (uuid : Nat → Str) (a a' : HarmonyParserAdapter σ) (s' : σ)
    (deltas : List ContentDelta) (out : Option HarmonyChannelDelta) : Prop where
  parser : a'.parser = s'
  analysis : out.bind HarmonyChannelDelta.analysisDelta = lastOf ContentDelta.isAnalysis deltas
  final : out.bind HarmonyChannelDelta.finalDelta = lastOf ContentDelta.isFinal deltas
  call : ∃ count, callDelta p uuid { a with parser := s', reasoningTokenCount := count }
    (textOf ContentDelta.isCommentary deltas) = (out.bind HarmonyChannelDelta.commentaryDelta, a')

theorem parser_callDelta (uuid : Nat → Str) (a : HarmonyParserAdapter σ) (text : Str) :
    (callDelta p uuid a text).2.parser = a.parser := by
  rw [callDelta]
  split
  · rfl
  · split
    · rfl
    · split <;> rfl

/-- **A chunk.** -/
theorem parseChunk_reads (uuid : Nat → Str) {a : HarmonyParserAdapter σ} {chunk : List Nat}
    {deltas : List ContentDelta} {s' : σ} (h : Reads p a.parser chunk deltas s') :
    ∃ out a', parseChunk p uuid a chunk = .ok (out, a') ∧ Gives p uuid a a' s' deltas out := by
  have hstart : (⟨a.parser, a.reasoningTokenCount, false, none, none, []⟩ : Chunk σ).Holds [] :=
    ⟨rfl, rfl, rfl, Bool.noConfusion, fun h => absurd rfl h⟩
  obtain ⟨c, hrun, rfl, hholds⟩ := hstart.run h rfl
  rw [nil_append] at hholds
  rw [parseChunk, hrun]
  dsimp only
  split
  · refine ⟨_, _, rfl, parser_callDelta .., hholds.analysis, hholds.final, c.reasoningTokenCount, ?_⟩
    rw [← hholds.commentary]
    rfl
  · next hnone =>
    obtain ⟨hdelta, hcall⟩ := not_or.mp hnone
    have hdeltas : deltas = [] := Classical.byContradiction fun hne => hdelta (hholds.any.mpr hne)
    have hcall : currentCall p c.parser = none := Option.not_isSome_iff_eq_none.mp hcall
    subst hdeltas
    refine ⟨_, _, rfl, parser_callDelta .., rfl, rfl, c.reasoningTokenCount, ?_⟩
    rw [callDelta, callDelta, hcall]
    rfl

/-- **The chunks**: what is concatenated is the last text of each. -/
theorem parseChunks_reads (uuid : Nat → Str) {s s' : σ} {chunks : List (List Nat)}
    {each : List (List ContentDelta)} (h : ReadsChunks p s chunks each s')
    {a : HarmonyParserAdapter σ} (hs : a.parser = s) :
    ∃ outs a', parseChunks p uuid a chunks = .ok (outs, a') ∧
      outs.map (·.bind HarmonyChannelDelta.analysisDelta) = each.map (lastOf ContentDelta.isAnalysis) ∧
      outs.map (·.bind HarmonyChannelDelta.finalDelta) = each.map (lastOf ContentDelta.isFinal) := by
  induction h generalizing a with
  | nil s => exact ⟨[], a, rfl, rfl, rfl⟩
  | cons head _ ih =>
    rw [← hs] at head
    obtain ⟨out, a₁, hone, hgives⟩ := parseChunk_reads uuid head
    obtain ⟨outs, a', hrest, hanalysis, hfinal⟩ := ih hgives.parser
    refine ⟨out :: outs, a', ?_, ?_, ?_⟩
    · rw [parseChunks, hone]
      dsimp only
      rw [hrest]
    · rw [map_cons, map_cons, hgives.analysis, hanalysis]
    · rw [map_cons, map_cons, hgives.final, hfinal]

end Chunks

/-! ### Nothing is lost -/

/-- The text of the analysis in what is returned. -/
def analysisOf (outs : List (Option HarmonyChannelDelta)) : Str :=
  outs.flatMap fun out => (out.bind HarmonyChannelDelta.analysisDelta).getD []

/-- The text of the final channel in what is returned. -/
def finalOf (outs : List (Option HarmonyChannelDelta)) : Str :=
  outs.flatMap fun out => (out.bind HarmonyChannelDelta.finalDelta).getD []

/-- **The property**: the deltas of the chunks have the text of all tokens. -/
def Lossless {σ : Type} (p : StreamableParser σ) (uuid : Nat → Str) (a : HarmonyParserAdapter σ)
    (chunks : List (List Nat)) (deltas : List ContentDelta) : Prop :=
  ∃ outs a', parseChunks p uuid a chunks = .ok (outs, a') ∧
    analysisOf outs = textOf ContentDelta.isAnalysis deltas ∧
    finalOf outs = textOf ContentDelta.isFinal deltas

theorem textOf_flatten (kind : ContentDelta → Bool) (each : List (List ContentDelta)) :
    textOf kind each.flatten = each.flatMap (textOf kind) := by
  induction each with
  | nil => rfl
  | cons deltas each ih =>
    rw [flatten_cons, textOf, filter_append, flatMap_append, flatMap_cons, ← ih]
    rfl

/-- The last texts make up the whole text exactly when in each chunk only the last one has any. -/
theorem lasts_eq_iff (kind : ContentDelta → Bool) (each : List (List ContentDelta)) :
    (each.map (lastOf kind)).flatMap (·.getD []) = textOf kind each.flatten ↔
      ∀ deltas ∈ each, LastOnly kind deltas := by
  rw [textOf_flatten, flatMap_map, flatten_eq_iff fun deltas _ => (lastOf_suffix kind deltas).1]
  exact forall₂_congr fun deltas _ => (lastOf_suffix kind deltas).2

/-- **The text of a stream**: nothing is lost exactly when in each chunk only the last token of the analysis
has any text, and only the last of the final channel. -/
theorem lossless_iff {σ : Type} (p : StreamableParser σ) (uuid : Nat → Str)
    (a : HarmonyParserAdapter σ) (chunks : List (List Nat)) (each : List (List ContentDelta)) (s' : σ)
    (h : ReadsChunks p a.parser chunks each s') :
    Lossless p uuid a chunks each.flatten ↔ ∀ deltas ∈ each,
      LastOnly ContentDelta.isAnalysis deltas ∧ LastOnly ContentDelta.isFinal deltas := by
  obtain ⟨outs, a', hparse, hanalysis, hfinal⟩ := parseChunks_reads uuid h rfl
  have hconcat : ∀ slot : HarmonyChannelDelta → Option Str,
      outs.flatMap (fun out => (out.bind slot).getD []) =
        (outs.map (·.bind slot)).flatMap (·.getD []) := fun slot => by rw [flatMap_map]
  rw [forall₂_and, ← lasts_eq_iff, ← lasts_eq_iff, ← hanalysis, ← hfinal, ← hconcat, ← hconcat]
  refine ⟨fun ⟨outs', a'', hparse', hsame⟩ => ?_, fun hsame => ⟨outs, a', hparse, hsame⟩⟩
  obtain ⟨rfl, -⟩ := Prod.mk.inj (Except.ok.inj (hparse.symm.trans hparse'))
  exact hsame

/-! ### A parser -/

/-- The text after the first place where another one stands. -/
def after (marker : Str) : Str → Option Str
  | [] => none
  | c :: text =>
      match (c :: text).dropPrefix? marker with
      | some rest => some rest
      | none => after marker text

/-- The text of a token; that of the token before a channel is a bar. -/
def letterText (token : Nat) : Str :=
  if token = 200005 then ['|']
  else if token = 35644 then "analysis".toList
  else if token = 17196 then "final".toList
  else if token = 12606 then "comment".toList
  else if token = 815 then "ary".toList
  else if token = 220 then [' ']
  else if token < 94 then [Char.ofNat (token + 33)]
  else []

/-- A parser of letters: the header that is being read, or the message, and the text of the last token. -/
structure Letters where
  header : Option Str := some []
  current : Option Message := none
  messages : List Message := []
  delta : Option Str := none

namespace Letters
variable (s : Letters)

/-- The message that a header opens. -/
def opened (header : Str) : Message where
  channel := (after ['|'] header).map (·.takeWhile (· ≠ ' '))
  recipient := (after "to=".toList header).map (·.takeWhile (· ≠ ' '))
  text := []

def process (token : Nat) : Except Str Letters :=
  match s.current, s.header with
  | some m, _ =>
      if token = 200007 ∨ token = 200012 ∨ token = 200002 then
        .ok { header := none, current := none, messages := s.messages ++ [m], delta := none }
      else
        .ok { s with
          current := some { m with text := m.text ++ letterText token }
          delta := some (letterText token) }
  | none, some header =>
      if token = 200008 then .ok { s with current := some (opened header), delta := none }
      else .ok { s with header := some (header ++ letterText token), delta := none }
  | none, none =>
      if token = 200006 then .ok { s with header := some [], delta := none }
      else .error "unexpected token".toList

end Letters

/-- The parser of letters, for the adapter. -/
def letterParser : StreamableParser Letters where
  process := Letters.process
  currentChannel s := s.current.bind Message.channel
  currentRecipient s := s.current.bind Message.recipient
  lastContentDelta s := .ok s.delta
  messages := Letters.messages

/-- The tokens of `analysis` and the start of its text. -/
def analysisHeader : List Nat := [200005, 35644, 200008]

/-- Two tokens of analysis in one chunk: the text of the first is lost. -/
theorem first_token_lost :
    (∃ s, ReadsChunks letterParser {} [analysisHeader ++ [64, 65]]
      [[⟨some "analysis".toList, ['a']⟩, ⟨some "analysis".toList, ['b']⟩]] s) ∧
    ¬ Lossless letterParser (fun _ => []) { parser := {} } [analysisHeader ++ [64, 65]]
      [⟨some "analysis".toList, ['a']⟩, ⟨some "analysis".toList, ['b']⟩] := by
  refine ⟨⟨_, readsChunks_of_read rfl⟩, ?_⟩
  rintro ⟨outs, a', hparse, hanalysis, -⟩
  have houts : (parseChunks letterParser (fun _ => []) { parser := {} }
      [analysisHeader ++ [64, 65]]).map Prod.fst =
        .ok [some { analysisDelta := some ['b'], commentaryDelta := none, finalDelta := none, isFinal := false }] :=
    rfl
  rw [hparse] at houts
  cases houts
  revert hanalysis
  decide

/-- One token of analysis in a chunk. -/
theorem lossless_of_one :
    Lossless letterParser (fun _ => []) { parser := {} } [analysisHeader, [64], [65, 200007]]
      [⟨some "analysis".toList, ['a']⟩, ⟨some "analysis".toList, ['b']⟩] :=
  (lossless_iff letterParser (fun _ => []) { parser := {} } [analysisHeader, [64], [65, 200007]]
    [[], [⟨some "analysis".toList, ['a']⟩], [⟨some "analysis".toList, ['b']⟩]] _
    (readsChunks_of_read rfl)).mpr (by unfold LastOnly; decide)

end QwenStack.Harmony
