import QwenStack.Support.Utf8

/-!
# Tree — the text of a node

`gateway/src/policies/tree.rs`: the string helpers the radix tree walks with, and `NodeText`, a
text with its cached character count.  Each helper takes an ASCII fast path over bytes and falls
back to characters; a slice off a character boundary is `none`.

One equation per helper says what it computes in characters: `sharedPrefixCount_eq`,
`advanceByChars_eq`, `takeChars_eq`, `NodeText.splitAtChar_eq`.  Nothing above this file looks at
a byte.
-/

namespace QwenStack.Tree
open QwenStack.Str List

/-- `shared_prefix_count_chars`. -/
def sharedPrefixCountChars (a b : Str) : Nat :=
  ((a.zip b).takeWhile fun p => decide (p.1 = p.2)).length

/-- `shared_prefix_count`. -/
def sharedPrefixCount (a b : Str) : Nat :=
  let commonByteLen :=
    (((bytes a).zip (bytes b)).findIdx? fun p => decide (p.1 ≠ p.2)).getD
      (min (bytes a).length (bytes b).length)
  -- If the common byte prefix is all ASCII, byte count == char count
  if isAscii ((bytes a).take commonByteLen) then commonByteLen else sharedPrefixCountChars a b

/-- `advance_by_chars`; `none` is a panicking slice. -/
def advanceByChars (s : Str) (n : Nat) : Option Str :=
  if n = 0 then some s
  else if byteLen s ≤ n then some []
  else if isAscii ((bytes s).take n) then sliceFrom s n
  else match (charIndices 0 s)[n]? with
    | some (idx, _) => sliceFrom s idx
    | none => some []

/-- `take_chars`; `none` is a panicking slice. -/
def takeChars (s : Str) (n : Nat) : Option Str :=
  if n = 0 then some []
  else match (charIndices 0 s)[n]? with
    | some (idx, _) => sliceTo s idx
    | none => some s

/-- `NodeText`: a text and its cached character count. -/
structure NodeText where
  text : Str
  charCount : Nat
  deriving DecidableEq, Repr

namespace NodeText

/-- `NodeText::new`. -/
def new (text : Str) : NodeText := ⟨text, text.length⟩

/-- `NodeText::empty`. -/
def empty : NodeText := ⟨[], 0⟩

/-- `NodeText::first_char`. -/
def firstChar (t : NodeText) : Option Char := t.text.head?

/-- `NodeText::split_at_char`; `none` is a panicking slice. -/
def splitAtChar (t : NodeText) (charIdx : Nat) : Option (NodeText × NodeText) :=
  if charIdx = 0 then some (empty, t)
  else if t.charCount ≤ charIdx then some (t, empty)
  else
    let byteIdx := (((charIndices 0 t.text)[charIdx]?).map Prod.fst).getD (byteLen t.text)
    match sliceTo t.text byteIdx, sliceFrom t.text byteIdx with
    | some pre, some suf => some (⟨pre, charIdx⟩, ⟨suf, t.charCount - charIdx⟩)
    | _, _ => none

/-- The cached count is the count. -/
def Counted (t : NodeText) : Prop := t.charCount = t.text.length

end NodeText

/-! ### What the helpers compute -/

theorem sharedPrefixCountChars_eq (a b : Str) : sharedPrefixCountChars a b = lcpLen a b :=
  length_takeWhile_zip a b

theorem sharedPrefixCount_eq (a b : Str) : sharedPrefixCount a b = lcpLen a b := by
  simp only [sharedPrefixCount, findIdx_zip, sharedPrefixCountChars_eq]
  split
  · next h => exact lcpLen_bytes a b h
  · rfl

theorem advanceByChars_eq (s : Str) (n : Nat) : advanceByChars s n = some (s.drop n) := by
  rw [advanceByChars]
  split
  · next h => simp [h]
  split
  · next h =>
    have := length_le_byteLen s
    rw [drop_eq_nil_of_le (by omega)]
  split
  · next h ha =>
    conv_lhs => rw [← byteLen_take_of_isAscii s n (by omega) ha]
    exact sliceFrom_byteLen_take s n
  · rw [charIndices_getElem?]
    cases hc : s[n]? with
    | none => simp [drop_eq_nil_of_le (List.getElem?_eq_none_iff.mp hc)]
    | some c => simp only [Option.map_some, Nat.zero_add]; exact sliceFrom_byteLen_take s n

theorem takeChars_eq (s : Str) (n : Nat) : takeChars s n = some (s.take n) := by
  rw [takeChars]
  split
  · next h => simp [h]
  · rw [charIndices_getElem?]
    cases hc : s[n]? with
    | none => simp [take_of_length_le (List.getElem?_eq_none_iff.mp hc)]
    | some c => simp only [Option.map_some, Nat.zero_add]; exact sliceTo_byteLen_take s n

/-- The split of a counted text inside it. -/
theorem NodeText.splitAtChar_eq {t : NodeText} (ht : t.Counted) {n : Nat} (h0 : 0 < n)
    (hn : n < t.charCount) :
    t.splitAtChar n = some (⟨t.text.take n, n⟩, ⟨t.text.drop n, t.charCount - n⟩) := by
  have hlen : n < t.text.length := ht ▸ hn
  rw [splitAtChar, if_neg (by omega), if_neg (by omega)]
  simp only [charIndices_getElem?, List.getElem?_eq_getElem hlen, Option.map_some, Nat.zero_add,
    Option.getD_some, sliceTo_byteLen_take, sliceFrom_byteLen_take]

/-! ### Texts that are built -/

/-- The texts of nodes: they are made from a text, or by a split. -/
inductive NodeText.Built : NodeText → Prop where
  | new (text : Str) : Built (.new text)
  | empty : Built .empty
  | front {t front rest : NodeText} {n : Nat} (h : Built t) (hsplit : t.splitAtChar n = some (front, rest)) :
      Built front
  | rest {t front rest : NodeText} {n : Nat} (h : Built t) (hsplit : t.splitAtChar n = some (front, rest)) :
      Built rest

namespace NodeText

theorem eq_new {t : NodeText} (h : t.Counted) : t = .new t.text := by
  rw [Counted] at h
  rw [new, ← h]

/-- **A split** of a counted text, at any place. -/
theorem splitAtChar_counted {t : NodeText} (ht : t.Counted) (n : Nat) :
    t.splitAtChar n = some (.new (t.text.take n), .new (t.text.drop n)) := by
  by_cases h0 : n = 0
  · subst h0
    rw [splitAtChar, if_pos rfl, take_zero, drop_zero, ← eq_new ht]
    rfl
  by_cases hn : t.charCount ≤ n
  · have hle : t.text.length ≤ n := ht ▸ hn
    rw [splitAtChar, if_neg h0, if_pos hn, take_of_length_le hle, drop_of_length_le hle, ← eq_new ht]
    rfl
  · have hlt : n < t.text.length := ht ▸ Nat.not_le.mp hn
    rw [splitAtChar_eq ht (Nat.pos_of_ne_zero h0) (Nat.not_le.mp hn), new, new, length_take_of_le (Nat.le_of_lt hlt),
      length_drop, ← show t.charCount = t.text.length from ht]

/-- The cached counts are right: a split keeps them so. -/
theorem Built.counted {t : NodeText} (h : t.Built) : t.Counted := by
  induction h with
  | new text => rfl
  | empty => rfl
  | front h hsplit ih =>
    rw [splitAtChar_counted ih] at hsplit
    cases hsplit
    rfl
  | rest h hsplit ih =>
    rw [splitAtChar_counted ih] at hsplit
    cases hsplit
    rfl

end NodeText

/-- **Bytes and characters**: the helpers compute what they say in characters, and no slice is off a character
boundary. -/
theorem helpers_agree (a b : Str) (n : Nat) (t : NodeText) (ht : t.Built) :
    (∃ p, p <+: a ∧ p <+: b ∧ (∀ q, q <+: a → q <+: b → q.length ≤ p.length) ∧
        sharedPrefixCount a b = p.length) ∧
      advanceByChars a n = some (a.drop n) ∧
      takeChars a n = some (a.take n) ∧
      t.splitAtChar n = some (.new (t.text.take n), .new (t.text.drop n)) := by
  refine ⟨⟨a.take (lcpLen a b), take_prefix _ _, ?_, ?_, ?_⟩, advanceByChars_eq a n, takeChars_eq a n,
    NodeText.splitAtChar_counted ht.counted n⟩
  · rw [take_lcpLen]
    exact take_prefix _ _
  · intro q ha hb
    rw [length_take_of_le (lcpLen_le_left a b)]
    exact le_lcpLen_of_isPrefix ha hb
  · rw [length_take_of_le (lcpLen_le_left a b), sharedPrefixCount_eq]

/-- Two characters with the same first byte, and the rest of a split text. -/
theorem helpers_agree_accents :
    (∃ p, p <+: ['a', 'é'] ∧ p <+: ['a', 'è'] ∧
        (∀ q, q <+: ['a', 'é'] → q <+: ['a', 'è'] → q.length ≤ p.length) ∧
        sharedPrefixCount ['a', 'é'] ['a', 'è'] = p.length) ∧
      advanceByChars ['a', 'é'] 1 = some ['é'] ∧ takeChars ['a', 'é'] 1 = some ['a'] ∧
      (⟨['é', 'b'], 2⟩ : NodeText).splitAtChar 1 = some (.new ['é'], .new ['b']) :=
  helpers_agree ['a', 'é'] ['a', 'è'] 1 ⟨['é', 'b'], 2⟩
    (.rest (.new ['a', 'é', 'b']) (show (NodeText.new ['a', 'é', 'b']).splitAtChar 1 =
      some (.new ['a'], ⟨['é', 'b'], 2⟩) by decide))

end QwenStack.Tree
