import QwenStack.Manual.Definitions
import QwenStack.PdRouter.Definitions
import QwenStack.Support.Decode
import QwenStack.Support.Value

/-!
# PD router — log probabilities

The log probabilities of the prompt are those of prefill followed by those of decode: they are merged into
the body of decode (`merge_logprobs_in_json`), or into the chunks of its stream
(`merge_streaming_logprobs`).  What `serde_json` reads and writes is an argument.

Both take the value out of the document of decode, with `std::mem::take`, before they know that it is an
array.  If it is not, `null` stays in its place.  `merge_right_iff` says that nothing else goes wrong.
-/

namespace QwenStack.PdRouter
open Value (array null)

def metaInfo : Str := "meta_info".toList

def inputTokenLogprobs : Str := "input_token_logprobs".toList

/-- `meta_info.input_token_logprobs`. -/
def logprobs (json : Value) : Option Value := (json.get metaInfo).bind (·.get inputTokenLogprobs)

/-- The member `meta_info.input_token_logprobs` is overwritten. -/
def setLogprobs (json v : Value) : Value :=
  match json.get metaInfo with
  | some info => json.insert metaInfo (info.insert inputTokenLogprobs v)
  | none => json

/-- `merge_logprobs_in_json`: whether it merged, and the JSON of decode afterwards. -/
def mergeLogprobsInJson (prefillJson decodeJson : Value) : Bool × Value :=
  match prefillJson.get metaInfo, decodeJson.get metaInfo with
  | some prefillMeta, some decodeMeta =>
      match prefillMeta.get inputTokenLogprobs, decodeMeta.get inputTokenLogprobs with
      | some prefillLogprobs, some decodeLogprobs =>
          match prefillLogprobs.asArray with
          | some prefillArr =>
              match decodeLogprobs.asArray with
              | some decodeVec => (true, setLogprobs decodeJson (array (prefillArr ++ decodeVec)))
              -- The value has been taken.
              | none => (false, setLogprobs decodeJson null)
          | none => (false, decodeJson)
      | _, _ => (false, decodeJson)
  | _, _ => (false, decodeJson)

/-- `str::trim_start_matches`, for at most so many matches. -/
def trimStartMatches (pat : Str) : Nat → Str → Str
  | 0, s => s
  | n + 1, s => if pat <+: s then trimStartMatches pat n (s.drop pat.length) else s

/-- The JSON of a chunk, if it is one event with data. -/
def chunkJson (parse : Str → Option Value) (decodeChunk : Bytes) : Option Value := do
  let chunkStr ← Str.fromUtf8 decodeChunk
  if ¬ "data: ".toList <+: chunkStr ∨ "[DONE]".toList <:+: chunkStr then none
  else parse (Manual.trim (trimStartMatches "data: ".toList chunkStr.length chunkStr))

/-- The JSON of a chunk, merged. -/
def mergeIntoChunk (prefillLogprobs : Option Value) (decodeJson : Value) : Value :=
  match prefillLogprobs with
  | some pLogprobs =>
      match decodeJson.get metaInfo with
      | some info =>
          match info.get inputTokenLogprobs with
          | some dLogprobs =>
              match pLogprobs.asArray with
              | some pArr =>
                  match dLogprobs.asArray with
                  | some dVec => setLogprobs decodeJson (array (pArr ++ dVec))
                  | none => setLogprobs decodeJson null
              | none => decodeJson
          | none => decodeJson
      | none => decodeJson
  | none => decodeJson

/-- `merge_streaming_logprobs`. -/
def mergeStreamingLogprobs (parse : Str → Option Value) (toString : Value → Str)
    (prefillLogprobs : Option Value) (decodeChunk : Bytes) : Option Bytes :=
  (chunkJson parse decodeChunk).map fun decodeJson =>
    Str.bytes ("data: ".toList ++ (toString (mergeIntoChunk prefillLogprobs decodeJson) ++ ['\n', '\n']))

/-! ### What a merge is -/

/-- The arrays to merge, if there are two. -/
def bothArrays (prefillLogprobs : Option Value) (decodeJson : Value) : Option (List Value × List Value) :=
  match prefillLogprobs.bind Value.asArray, (logprobs decodeJson).bind Value.asArray with
  | some prefillArr, some decodeVec => some (prefillArr, decodeVec)
  | _, _ => none

/-- What a JSON value is after a merge: the array is followed by the one of decode, and all else is as it
was. -/
structure Merged (decodeJson : Value) (arrays : List Value × List Value) (merged : Value) : Prop where
  logprobs : logprobs merged = some (array (arrays.1 ++ arrays.2))
  elsewhere : ∀ key, key ≠ metaInfo → merged.get key = decodeJson.get key
  within : ∀ key, key ≠ inputTokenLogprobs →
    (merged.get metaInfo).bind (·.get key) = (decodeJson.get metaInfo).bind (·.get key)

/-- The result of a merge is right: it is merged if there are two arrays, and else left alone. -/
structure MergeRight (prefillLogprobs : Option Value) (decodeJson merged : Value) : Prop where
  both : ∀ arrays, bothArrays prefillLogprobs decodeJson = some arrays →
    Merged decodeJson arrays merged
  unchanged : bothArrays prefillLogprobs decodeJson = none → merged = decodeJson

/-- The value of decode is taken and cannot be merged: prefill has an array, decode neither an array nor
`null`. -/
def taken (prefillLogprobs : Option Value) (decodeJson : Value) : Bool :=
  (prefillLogprobs.bind Value.asArray).isSome && (logprobs decodeJson).any fun v =>
    v.asArray.isNone && !v.isNull

/-! ### The member -/

section
variable {json v : Value}

theorem setLogprobs_eq {info : Value} (h : json.get metaInfo = some info) (v : Value) :
    setLogprobs json v = json.insert metaInfo (info.insert inputTokenLogprobs v) := by
  rw [setLogprobs, h]

/-- A value that is overwritten stands in an object, in an object. -/
theorem objects_of_logprobs (h : logprobs json = some v) :
    ∃ info, json.get metaInfo = some info ∧ info.get inputTokenLogprobs = some v :=
  Option.bind_eq_some_iff.mp h

/-- What is overwritten is there, and all else is as it was. -/
theorem merged_setLogprobs (h : logprobs json = some v) (arrays : List Value × List Value) :
    Merged json arrays (setLogprobs json (array (arrays.1 ++ arrays.2))) := by
  obtain ⟨info, hinfo, hv⟩ := objects_of_logprobs h
  have hobj : json.isObject = true := Value.isObject_of_get hinfo
  have hobj' : info.isObject = true := Value.isObject_of_get hv
  rw [setLogprobs_eq hinfo]
  refine ⟨?_, fun key hkey => Value.get_insert_of_ne _ _ hkey, fun key hkey => ?_⟩
  · rw [logprobs, Value.get_insert_self _ hobj, Option.bind_some, Value.get_insert_self _ hobj']
  · rw [Value.get_insert_self _ hobj, hinfo, Option.bind_some, Option.bind_some,
      Value.get_insert_of_ne _ _ hkey]

/-- Taking a value changes the document unless it is `null`. -/
theorem setLogprobs_null_iff (h : logprobs json = some v) : setLogprobs json null = json ↔ v.isNull = true := by
  obtain ⟨info, hinfo, hv⟩ := objects_of_logprobs h
  rw [setLogprobs_eq hinfo]
  constructor
  · intro hsame
    have hinfo' : json.get metaInfo = some (info.insert inputTokenLogprobs null) := by
      conv_lhs => rw [← hsame]
      exact Value.get_insert_self _ (Value.isObject_of_get hinfo)
    have hv' : info.get inputTokenLogprobs = some null := by
      rw [Option.some.inj (hinfo.symm.trans hinfo'), Value.get_insert_self _ (Value.isObject_of_get hv)]
    cases hv.symm.trans hv'
    rfl
  · intro hnull
    cases v with
    | null => rw [Value.insert_of_get hv, Value.insert_of_get hinfo]
    | _ => cases hnull

end

/-! ### The merges -/

/-- `merge_logprobs_in_json` merges as `merge_streaming_logprobs` does, with the member of prefill. -/
theorem mergeLogprobsInJson_eq (prefillJson decodeJson : Value) :
    mergeLogprobsInJson prefillJson decodeJson = ((bothArrays (logprobs prefillJson) decodeJson).isSome,
        mergeIntoChunk (logprobs prefillJson) decodeJson) := by
  simp only [mergeLogprobsInJson, mergeIntoChunk, bothArrays, logprobs]
  cases prefillJson.get metaInfo with
  | none => rfl
  | some prefillMeta =>
    cases decodeJson.get metaInfo with
    | none => cases hp : prefillMeta.get inputTokenLogprobs <;> simp [hp]
    | some decodeMeta =>
      cases hp : prefillMeta.get inputTokenLogprobs with
      | none => simp [hp]
      | some pLogprobs =>
        cases hd : decodeMeta.get inputTokenLogprobs with
        | none => simp [hp, hd]
        | some dLogprobs =>
          cases hpa : pLogprobs.asArray <;> cases hda : dLogprobs.asArray <;> simp [hp, hd, hpa, hda]

section
variable {prefillLogprobs : Option Value} {decodeJson v : Value}

theorem mergeIntoChunk_of_none (h : prefillLogprobs.bind Value.asArray = none) :
    mergeIntoChunk prefillLogprobs decodeJson = decodeJson := by
  rw [mergeIntoChunk.eq_def]
  cases prefillLogprobs with
  | none => rfl
  | some pLogprobs =>
    rw [Option.bind_some] at h
    cases decodeJson.get metaInfo with
    | none => rfl
    | some info => cases hd : info.get inputTokenLogprobs <;> simp [hd, h]

theorem mergeIntoChunk_of_absent (h : logprobs decodeJson = none) :
    mergeIntoChunk prefillLogprobs decodeJson = decodeJson := by
  rw [mergeIntoChunk.eq_def]
  cases prefillLogprobs with
  | none => rfl
  | some pLogprobs =>
    cases hinfo : decodeJson.get metaInfo with
    | none => rfl
    | some info =>
      rw [logprobs, hinfo, Option.bind_some] at h
      simp [h]

/-- The value of decode is replaced. -/
theorem mergeIntoChunk_of_some {pArr : List Value} (h : prefillLogprobs.bind Value.asArray = some pArr)
    (hv : logprobs decodeJson = some v) :
    mergeIntoChunk prefillLogprobs decodeJson = setLogprobs decodeJson (match v.asArray with
        | some dVec => array (pArr ++ dVec)
        | none => null) := by
  obtain ⟨pLogprobs, rfl, hp⟩ := Option.bind_eq_some_iff.mp h
  obtain ⟨info, hinfo, hd⟩ := objects_of_logprobs hv
  cases hva : v.asArray <;> simp [mergeIntoChunk, hinfo, hd, hp, hva]

/-- **When a merge is right.** -/
theorem mergeRight_iff : MergeRight prefillLogprobs decodeJson
    (mergeIntoChunk prefillLogprobs decodeJson) ↔ taken prefillLogprobs decodeJson = false := by
  cases hp : prefillLogprobs.bind Value.asArray with
  | none =>
    have hboth : bothArrays prefillLogprobs decodeJson = none := by rw [bothArrays, hp]
    rw [mergeIntoChunk_of_none hp, taken, hp]
    refine iff_of_true ⟨fun arrays harrays => ?_, fun _ => rfl⟩ rfl
    cases hboth.symm.trans harrays
  | some pArr =>
    cases hd : logprobs decodeJson with
    | none =>
      have hboth : bothArrays prefillLogprobs decodeJson = none := by
        rw [bothArrays, hp, hd, Option.bind_none]
      rw [mergeIntoChunk_of_absent hd, taken, hp, hd]
      refine iff_of_true ⟨fun arrays harrays => ?_, fun _ => rfl⟩ rfl
      cases hboth.symm.trans harrays
    | some v =>
      rw [mergeIntoChunk_of_some hp hd]
      cases hv : v.asArray with
      | none =>
        -- `null` stands where the value was.
        have hboth : bothArrays prefillLogprobs decodeJson = none := by
          rw [bothArrays, hp, hd, Option.bind_some, hv]
        have htaken : taken prefillLogprobs decodeJson = !v.isNull := by
          rw [taken, hp, hd, Option.any_some, hv]
          rfl
        rw [htaken, Bool.not_eq_false']
        refine ⟨fun hright => (setLogprobs_null_iff hd).mp (hright.unchanged hboth),
          fun hnull => ⟨fun arrays harrays => ?_, fun _ => (setLogprobs_null_iff hd).mpr hnull⟩⟩
        cases hboth.symm.trans harrays
      | some dVec =>
        have hboth : bothArrays prefillLogprobs decodeJson = some (pArr, dVec) := by
          rw [bothArrays, hp, hd, Option.bind_some, hv]
        have htaken : taken prefillLogprobs decodeJson = false := by
          rw [taken, hp, hd, Option.any_some, hv]
          rfl
        refine iff_of_true ⟨fun arrays harrays => ?_, fun hnone => ?_⟩ htaken
        · cases hboth.symm.trans harrays
          exact merged_setLogprobs hd (pArr, dVec)
        · cases hboth.symm.trans hnone

end

/-- **When the merges are right.**  `merge_logprobs_in_json` returns whether both documents have the array,
and what it makes of the document of decode is right exactly if it does not take a value that it cannot
merge; and so for the JSON of every chunk that `merge_streaming_logprobs` writes again. -/
theorem merges_right_iff (parse : Str → Option Value) (toString : Value → Str)
    (prefillJson decodeJson : Value) (prefillLogprobs : Option Value) (decodeChunk : Bytes) :
    ((mergeLogprobsInJson prefillJson decodeJson).1 =
        (bothArrays (logprobs prefillJson) decodeJson).isSome ∧
      (MergeRight (logprobs prefillJson) decodeJson (mergeLogprobsInJson prefillJson decodeJson).2 ↔
        taken (logprobs prefillJson) decodeJson = false)) ∧
      ∀ json, chunkJson parse decodeChunk = some json →
        mergeStreamingLogprobs parse toString prefillLogprobs decodeChunk = some (Str.bytes
          ("data: ".toList ++ (toString (mergeIntoChunk prefillLogprobs json) ++ ['\n', '\n']))) ∧
        (MergeRight prefillLogprobs json (mergeIntoChunk prefillLogprobs json) ↔
          taken prefillLogprobs json = false) := by
  rw [mergeLogprobsInJson_eq]
  refine ⟨⟨rfl, mergeRight_iff⟩, fun json hchunk => ⟨?_, mergeRight_iff⟩⟩
  rw [mergeStreamingLogprobs, hchunk]
  rfl

/-- A document with a member `meta_info.input_token_logprobs`. -/
def withLogprobs (v : Value) : Value :=
  Value.ofMembers [("meta_info", Value.ofMembers [("input_token_logprobs", v)])]

/-- A number in the place of the array of decode is lost, though nothing was merged. -/
theorem number_taken :
    (mergeLogprobsInJson (withLogprobs (array [])) (withLogprobs (.integer 5))).1 = false ∧
      ((logprobs (mergeLogprobsInJson (withLogprobs (array [])) (withLogprobs (.integer 5))).2).any
        Value.isNull) = true ∧
      ¬ MergeRight (logprobs (withLogprobs (array []))) (withLogprobs (.integer 5))
        (mergeLogprobsInJson (withLogprobs (array [])) (withLogprobs (.integer 5))).2 := by
  refine ⟨by decide +kernel, by decide +kernel, fun hright => ?_⟩
  rw [mergeLogprobsInJson_eq, mergeRight_iff] at hright
  revert hright
  decide +kernel

end QwenStack.PdRouter
