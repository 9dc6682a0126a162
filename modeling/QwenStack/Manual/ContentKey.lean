import Mathlib.Data.List.DropRight
import QwenStack.Manual.Definitions
import QwenStack.Support.Decode

/-!
# Manual routing — the content key of a growing text

The key is the hash of a window: the first `CONTENT_KEY_WINDOW` characters of the text, trimmed.  A text that
fills the window keeps it when it grows.  But it is trimmed at both ends before the window is cut, so a text
that fills the window only with the whitespace it ends in has a shorter window, and what is appended then
makes it longer (`key_stable_iff`).
-/

namespace QwenStack.Manual

open List

/-- The text after its leading whitespace. -/
abbrev trimStart (text : Str) : Str := text.dropWhile isWhitespace

/-- The window that is hashed. -/
def contentWindow (text : Str) : Str := (trim text).take contentKeyWindow

section
variable {text s : Str} {xxh3 : List UInt8 → UInt64}

/-! ### Trimming -/

theorem trim_eq (text : Str) : trim text = (trimStart text).rdropWhile isWhitespace := rfl

theorem trim_prefix (text : Str) : trim text <+: trimStart text := rdropWhile_prefix _ _

section
variable (h : trimStart text ≠ [])
include h

theorem trimStart_append (s : Str) : trimStart (text ++ s) = trimStart text ++ s := by
  rw [trimStart, dropWhile_append, if_neg (by simpa using h)]

/-- Whitespace that is appended is trimmed away. -/
theorem trim_append_blank (hs : ∀ c ∈ s, isWhitespace c = true) : trim (text ++ s) = trim text := by
  rw [trim_eq, trimStart_append h, List.rdropWhile, reverse_append,
    dropWhile_append_of_pos fun c hc => hs c (List.mem_reverse.mp hc)]
  rfl

/-- Anything else keeps what is before it. -/
theorem trim_append_word (hs : ¬ ∀ c ∈ s, isWhitespace c = true) :
    trimStart text <+: trim (text ++ s) := by
  have hword : s.reverse.dropWhile isWhitespace ≠ [] := fun hnil =>
    hs fun c hc => List.dropWhile_eq_nil_iff.mp hnil c (List.mem_reverse.mpr hc)
  rw [trim_eq, trimStart_append h, List.rdropWhile, reverse_append, dropWhile_append,
    if_neg (by simpa using hword), reverse_append, reverse_reverse]
  exact prefix_append _ _

theorem trimStart_append_ne_nil (s : Str) : trimStart (text ++ s) ≠ [] := by
  rw [trimStart_append h]
  exact append_ne_nil_of_left_ne_nil h s

/-- A text that is not blank is not trimmed to nothing. -/
theorem trim_ne_nil : trim text ≠ [] := by
  intro hnil
  rw [trim_eq, rdropWhile_eq_nil_iff] at hnil
  have hhead := head_dropWhile_not isWhitespace (l := text) h
  rw [hnil _ (head_mem h)] at hhead
  cases hhead

end

/-! ### The window -/

theorem synthesizeContentKey_eq (h : trim text ≠ []) : synthesizeContentKey xxh3 (some text) =
    some ("c:".toList ++ Nat.toDigits 16 (xxh3 (Str.bytes (contentWindow text))).toNat) := by
  rw [synthesizeContentKey, Option.bind_eq_bind, Option.bind_some, if_neg h]
  rfl

/-- The windows of a long text and of the text with a suffix. -/
theorem window_append_iff (h : contentKeyWindow ≤ (trimStart text).length) :
    contentWindow (text ++ s) = contentWindow text ↔
      contentKeyWindow ≤ (trim text).length ∨ ∀ c ∈ s, isWhitespace c = true := by
  have hne : trimStart text ≠ [] := fun hnil => by rw [hnil] at h; cases h
  by_cases hs : ∀ c ∈ s, isWhitespace c = true
  · exact iff_of_true (by rw [contentWindow, trim_append_blank hne hs, contentWindow]) (.inr hs)
  · rw [or_iff_left hs]
    obtain ⟨rest, hrest⟩ := trim_append_word hne hs
    obtain ⟨blank, hblank⟩ := trim_prefix text
    rw [contentWindow, contentWindow, ← hrest, take_append_of_le_length h]
    constructor
    · intro heq
      have hlen := congrArg List.length heq
      rw [length_take, length_take] at hlen
      omega
    · intro hlong
      rw [← hblank, take_append_of_le_length hlong]

/-- Different windows have different keys, under some hash. -/
theorem keys_eq_iff {t : Str} (h : trim text ≠ []) (h' : trim t ≠ []) :
    (∀ xxh3, synthesizeContentKey xxh3 (some t) = synthesizeContentKey xxh3 (some text)) ↔
      contentWindow t = contentWindow text := by
  simp only [synthesizeContentKey_eq h, synthesizeContentKey_eq h']
  constructor
  · intro hkeys
    by_contra hne
    have hkey := hkeys fun bytes => if bytes = Str.bytes (contentWindow text) then 0 else 1
    rw [if_pos rfl, if_neg fun heq => hne (Str.bytes_injective heq)] at hkey
    exact absurd hkey (by decide)
  · intro heq xxh3
    rw [heq]

end

/-- **When the content key of a growing text is stable.**  For a text that fills the window, its whitespace at
the end included, exactly if it fills the window without that, or if only whitespace is appended. -/
theorem key_stable_iff (text s : Str) (h : contentKeyWindow ≤ (trimStart text).length) :
    (∀ xxh3 headers, synthesizeContentKey xxh3 (some (text ++ s)) = synthesizeContentKey xxh3 (some text) ∧
        resolveRoutingKey xxh3 headers (some (text ++ s)) = resolveRoutingKey xxh3 headers (some text)) ↔
      contentKeyWindow ≤ (trim text).length ∨ ∀ c ∈ s, isWhitespace c = true := by
  have hne : trimStart text ≠ [] := fun hnil => by rw [hnil] at h; cases h
  rw [← window_append_iff h,
    ← keys_eq_iff (trim_ne_nil hne) (trim_ne_nil (trimStart_append_ne_nil hne s))]
  constructor
  · intro hstable xxh3
    exact (hstable xxh3 none).1
  · intro hkeys xxh3 headers
    exact ⟨hkeys xxh3, by rw [resolveRoutingKey, hkeys xxh3]; rfl⟩

/-- A word that fills the window. -/
theorem long_word_stable : contentKeyWindow ≤ (trimStart (List.replicate contentKeyWindow 'x')).length ∧
    ∀ xxh3 headers (s : Str),
      synthesizeContentKey xxh3 (some (List.replicate contentKeyWindow 'x' ++ s)) =
          synthesizeContentKey xxh3 (some (List.replicate contentKeyWindow 'x')) ∧
        resolveRoutingKey xxh3 headers (some (List.replicate contentKeyWindow 'x' ++ s)) =
          resolveRoutingKey xxh3 headers (some (List.replicate contentKeyWindow 'x')) := by
  have hx : ¬ isWhitespace 'x' = true := by decide
  have hstart : trimStart (List.replicate contentKeyWindow 'x') = List.replicate contentKeyWindow 'x' := by
    rw [trimStart, dropWhile_replicate, if_neg hx]
  have hlen : contentKeyWindow ≤ (trimStart (List.replicate contentKeyWindow 'x')).length := by
    rw [hstart, length_replicate]
  have htrim : contentKeyWindow ≤ (trim (List.replicate contentKeyWindow 'x')).length := by
    rw [trim_eq, hstart, List.rdropWhile, reverse_replicate, dropWhile_replicate, if_neg hx,
      reverse_replicate, length_replicate]
  exact ⟨hlen, fun xxh3 headers s => (key_stable_iff _ s hlen).mpr (.inl htrim) xxh3 headers⟩

/-- One character and whitespace fill the window, and a character follows. -/
theorem padded_text_changes_key :
    ¬ ∀ xxh3 (text s : Str), contentKeyWindow ≤ (trimStart text).length →
      synthesizeContentKey xxh3 (some (text ++ s)) = synthesizeContentKey xxh3 (some text) := by
  intro h
  have hstart : trimStart (['a'] ++ List.replicate 8191 ' ') = ['a'] ++ List.replicate 8191 ' ' :=
    trimStart_append (by decide) _
  have hlen : contentKeyWindow ≤ (trimStart (['a'] ++ List.replicate 8191 ' ')).length := by
    rw [hstart, length_append, length_replicate]
    decide
  have hne : trimStart (['a'] ++ List.replicate 8191 ' ') ≠ [] := by
    rw [hstart]
    exact cons_ne_nil _ _
  have hblank : trim (['a'] ++ List.replicate 8191 ' ') = ['a'] :=
    trim_append_blank (by decide) fun c hc => by rw [eq_of_mem_replicate hc]; decide
  have hkeys := (keys_eq_iff (trim_ne_nil hne) (trim_ne_nil (trimStart_append_ne_nil hne ['b']))).mp
    fun xxh3 => h xxh3 _ ['b'] hlen
  rw [window_append_iff hlen, hblank] at hkeys
  rcases hkeys with hlong | hsuffix
  · exact absurd hlong (by simp [contentKeyWindow])
  · exact absurd (hsuffix 'b' (mem_singleton_self _)) (by decide)

end QwenStack.Manual
