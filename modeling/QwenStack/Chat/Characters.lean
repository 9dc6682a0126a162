import QwenStack.Chat.AtOnce

/-!
# Chat — machines that read characters

A stop decoder, a reasoning parser and a tool parser that are small enough to be run on an input, and that
give in pieces what they give at once (`charCrates_chunkwise`).  They do what the machines of the other
crates do on plain text: `<` is held, as the beginning of a stop sequence is, what is between bars is
reasoning, and digits are the arguments of a call.
-/

namespace QwenStack.Chat

open List
open Transducer (run run_cons)

/-! ### The machines -/

/-- A token is a character, and `<` is held until it is known whether a stop sequence begins. -/
def charToken (held : Str) (tokenId : Nat) : Str × SequenceDecoderOutput :=
  if Char.ofNat tokenId = '<' then (held ++ ['<'], .held)
  else ([], .text (held ++ [Char.ofNat tokenId]))

def charTokens : Str → List Nat → Str × List SequenceDecoderOutput
  | held, [] => (held, [])
  | held, tokenId :: tokenIds =>
      let r := charToken held tokenId
      ((charTokens r.1 tokenIds).1, r.2 :: (charTokens r.1 tokenIds).2)

def charDecoder : StopSequenceDecoder Str where
  new := []
  reset _ := []
  processToken held tokenId := ((charToken held tokenId).1, .ok (charToken held tokenId).2)
  processTokens held tokenIds := ((charTokens held tokenIds).1, .ok (charTokens held tokenIds).2)
  flush held := ([], .text held)

/-- What is between bars is reasoning. -/
def parseBars : Bool → Str → Bool × ParserResult
  | inReasoning, [] => (inReasoning, ⟨[], []⟩)
  | inReasoning, c :: text =>
      if c = '|' then parseBars (!inReasoning) text
      else
        let r := parseBars inReasoning text
        (r.1, if inReasoning = true then ⟨r.2.normalText, c :: r.2.reasoningText⟩
          else ⟨c :: r.2.normalText, r.2.reasoningText⟩)

def barParser : ReasoningParser Bool where
  new := false
  parseReasoningStreamingIncremental inReasoning text :=
    ((parseBars inReasoning text).1, .ok (parseBars inReasoning text).2)
  isInReasoning inReasoning := inReasoning
  detectAndParseReasoning text := .ok (parseBars false text).2

/-- The digits of a text are the arguments of one call. -/
def digitParser : ToolParser Bool where
  new := false
  parseIncremental named text :=
    let digits := text.filter Char.isDigit
    (named || !digits.isEmpty, .ok ⟨text.filter (!·.isDigit),
      if digits = [] then [] else [⟨0, if named = true then none else some ['f'], digits⟩]⟩)
  getUnstreamedToolArgs _ := none
  parseComplete text :=
    let digits := text.filter Char.isDigit
    .ok (text.filter (!·.isDigit), if digits = [] then [] else [⟨['f'], digits⟩])

/-- They read `{ }` as an object, and write it without the blank. -/
def charCrates : Crates Str Bool Bool where
  stopDecoder := charDecoder
  reasoningParser := some barParser
  toolParser := some digitParser
  jsonParser := digitParser
  fromStr text := if text = "{ }".toList then .ok (.object []) else .error "expected value".toList
  toString _ := "{}".toList

/-! ### Their laws -/

theorem parseBars_append (inReasoning : Bool) (text text' : Str) :
    parseBars inReasoning (text ++ text') =
      let r := parseBars inReasoning text
      let r' := parseBars r.1 text'
      (r'.1, ⟨r.2.normalText ++ r'.2.normalText, r.2.reasoningText ++ r'.2.reasoningText⟩) := by
  induction text generalizing inReasoning with
  | nil => rfl
  | cons c text ih =>
    rw [cons_append, parseBars, parseBars]
    split
    · exact ih _
    · rw [ih]
      cases inReasoning <;> rfl

theorem barParser_chunkwise : barParser.Chunkwise := by
  constructor
  have hrun : ∀ (texts : List Str) (inReasoning : Bool), ∃ results : List ParserResult,
      (run (reasonStep barParser) inReasoning texts).2 = results.map .ok ∧
        results.flatMap ParserResult.normalText = (parseBars inReasoning texts.flatten).2.normalText ∧
        results.flatMap ParserResult.reasoningText =
          (parseBars inReasoning texts.flatten).2.reasoningText := by
    intro texts
    induction texts with
    | nil => exact fun _ => ⟨[], rfl, rfl, rfl⟩
    | cons text texts ih =>
      intro inReasoning
      obtain ⟨results, hresults, hnormal, hreasoning⟩ := ih (parseBars inReasoning text).1
      refine ⟨(parseBars inReasoning text).2 :: results, ?_, ?_, ?_⟩
      · rw [run_cons, map_cons, ← hresults]
        rfl
      · rw [flatMap_cons, hnormal, flatten_cons, parseBars_append]
      · rw [flatMap_cons, hreasoning, flatten_cons, parseBars_append]
  intro texts result hresult
  cases hresult
  exact hrun texts false

theorem digitParser_chunkwise : digitParser.Chunkwise := by
  constructor
  have hrun : ∀ (texts : List Str) (named : Bool),
      (run (toolStep digitParser) named texts).2.flatMap resultContent =
          texts.flatten.filter (!·.isDigit) ∧
        ((run (toolStep digitParser) named texts).2.flatMap resultCalls = [] ↔
          texts.flatten.filter Char.isDigit = []) ∧
        ∀ k, argumentsOf k ((run (toolStep digitParser) named texts).2.flatMap resultCalls) =
          if k = 0 then texts.flatten.filter Char.isDigit else [] := by
    intro texts
    induction texts with
    | nil => exact fun _ => ⟨rfl, iff_of_true rfl rfl, fun k => (ite_self _).symm⟩
    | cons text texts ih =>
      intro named
      obtain ⟨hcontent, hcalls, harguments⟩ := ih (named || !(text.filter Char.isDigit).isEmpty)
      have hstep : (run (toolStep digitParser) named (text :: texts)).2 =
          (digitParser.parseIncremental named text).2 ::
            (run (toolStep digitParser) (named || !(text.filter Char.isDigit).isEmpty) texts).2 := rfl
      rw [hstep, flatMap_cons, flatMap_cons, hcontent, flatten_cons, filter_append, filter_append]
      by_cases hdigits : text.filter Char.isDigit = []
      · have hnone : resultCalls (digitParser.parseIncremental named text).2 = [] := if_pos hdigits
        rw [hdigits] at hcalls harguments
        rw [hnone, hdigits, nil_append, nil_append]
        exact ⟨rfl, hcalls, harguments⟩
      · have hcall : resultCalls (digitParser.parseIncremental named text).2 =
            [⟨0, if named = true then none else some ['f'], text.filter Char.isDigit⟩] := if_neg hdigits
        rw [hcall]
        refine ⟨rfl, iff_of_false (cons_ne_nil _ _) fun h => hdigits (List.append_eq_nil_iff.mp h).1,
          fun k => ?_⟩
        rw [argumentsOf_append, harguments]
        by_cases hk : k = 0
        · rw [hk, if_pos rfl, if_pos rfl]
          exact congrArg (· ++ _) (append_nil _)
        · rw [if_neg hk, if_neg hk, append_nil]
          exact (append_nil _).trans (if_neg (Ne.symm hk))
  intro texts normalText calls hcomplete
  cases hcomplete
  obtain ⟨hcontent, hcalls, harguments⟩ := hrun texts false
  refine ⟨hcontent, hcalls.trans ?_, fun k => ?_⟩
  · split
    · next h => exact iff_of_true h rfl
    · next h => exact iff_of_false h (cons_ne_nil _ _)
  · rw [show (digitParser.getUnstreamedToolArgs
      (run (toolStep digitParser) digitParser.new texts).1).getD [] = [] from rfl, append_nil]
    refine (harguments k).trans ?_
    split
    · next hk =>
      split
      · next h => rw [h, hk]; rfl
      · rw [hk]; rfl
    · next hk =>
      obtain ⟨j, rfl⟩ := Nat.exists_eq_succ_of_ne_zero hk
      split <;> rfl

theorem processChunkTokens_char (held : Str) (tokenIds : List Nat) :
    processChunkTokens charDecoder held tokenIds =
      ((charTokens held tokenIds).1, accumulate (charTokens held tokenIds).2, false) := by
  induction tokenIds generalizing held with
  | nil => rfl
  | cons tokenId tokenIds ih =>
    have hnext := ih (charToken held tokenId).1
    rw [processChunkTokens, charTokens]
    dsimp only [charDecoder] at hnext ⊢
    rw [charToken] at hnext ⊢
    split at hnext
    · next h => rw [if_pos h]; exact hnext
    · next h => rw [if_neg h]; dsimp only at hnext ⊢; rw [hnext]; rfl

theorem accumulate_char (held : Str) (tokenIds : List Nat) :
    accumulate (charTokens held tokenIds).2 ++ (charTokens held tokenIds).1 =
      held ++ tokenIds.map Char.ofNat := by
  induction tokenIds generalizing held with
  | nil => exact (append_nil held).symm
  | cons tokenId tokenIds ih =>
    have hnext := ih (charToken held tokenId).1
    rw [charTokens]
    rw [charToken] at hnext ⊢
    split at hnext
    · next h =>
      rw [if_pos h]
      dsimp only [accumulate] at hnext ⊢
      rw [hnext, map_cons, h, append_assoc, singleton_append]
    · next h =>
      rw [if_neg h]
      dsimp only [accumulate] at hnext ⊢
      rw [append_assoc, hnext, nil_append, map_cons, append_assoc, singleton_append]

theorem charDecoder_chunkwise : charDecoder.Chunkwise where
  flush_new := rfl
  finalText_eq s chunks text htext := by
    have hrun : ∀ (chunks : List (List Nat)) (held : Str),
        (run (decodeStep charDecoder) held chunks).2.flatten ++
          (run (decodeStep charDecoder) held chunks).1 = held ++ chunks.flatten.map Char.ofNat := by
      intro chunks
      induction chunks with
      | nil => exact fun held => (append_nil held).symm
      | cons tokenIds chunks ih =>
        intro held
        have hstep : decodeStep charDecoder held tokenIds = ((charTokens held tokenIds).1,
            (nonempty (accumulate (charTokens held tokenIds).2)).toList) := by
          rw [decodeStep, processChunkTokens_char]
        have htexts (t : Str) : (nonempty t).toList.flatten = t := by
          by_cases h : t = []
          · rw [h]
            rfl
          · rw [nonempty_ne h]
            exact append_nil t
        rw [run_cons, hstep, flatten_append, htexts, append_assoc, ih, ← append_assoc,
          accumulate_char, flatten_cons, map_append, append_assoc]
    have hwhole := hrun chunks charDecoder.new
    have htext : text = [] ++ chunks.flatten.map Char.ofNat := by
      rw [← accumulate_char]
      exact (Except.ok.inj htext).symm
    rw [htext]
    exact hwhole.symm

theorem charCrates_chunkwise : charCrates.Chunkwise where
  stopDecoder := charDecoder_chunkwise
  reasoningParser _ hp := Option.some.inj hp ▸ barParser_chunkwise
  toolParser _ hp := Option.some.inj hp ▸ digitParser_chunkwise
  jsonParser := digitParser_chunkwise

end QwenStack.Chat
