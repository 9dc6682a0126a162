import QwenStack.Support.Utf8

/-!
# Support — printers with readers, and compact JSON

A `Codec` is a printer with a reader that takes the printed text off the front of any text.  The
combinators build the codec of a compound from those of its parts, so the round trip of a format is
part of its definition.  At the bottom are the JSON string with the escapes of a compact writer,
arrays, and objects as lists of members.
-/

namespace QwenStack.Json

open List

/-- A printer, and a reader that undoes it at the front of a text.  The first character of a
printed value closes nothing, so that the end of a sequence can be told from its next item. -/
structure Codec (α : Type) where
  write : α → Str
  read : Str → Option (α × Str)
  read_write : ∀ a rest, read (write a ++ rest) = some (a, rest)
  opens : ∀ a, ∃ c l, write a = c :: l ∧ c ≠ ']' ∧ c ≠ '}'

/-! ### Strings -/

/-- One hexadecimal digit. -/
def hexDigit (n : Nat) : Char := if n < 10 then Char.ofNat (48 + n) else Char.ofNat (87 + n)

/-- The value of a hexadecimal digit. -/
def hexValue (c : Char) : Nat := if c.toNat < 58 then c.toNat - 48 else c.toNat - 87

/-- A character inside a string literal. -/
def escapeChar (c : Char) : Str :=
  if c = '"' then ['\\', '"']
  else if c = '\\' then ['\\', '\\']
  else if c = '\n' then ['\\', 'n']
  else if c = '\r' then ['\\', 'r']
  else if c = '\t' then ['\\', 't']
  else if c.toNat = 8 then ['\\', 'b']
  else if c.toNat = 12 then ['\\', 'f']
  else if c.toNat < 32 then ['\\', 'u', '0', '0', hexDigit (c.toNat / 16), hexDigit (c.toNat % 16)]
  else [c]

/-- The characters with a short escape, and its second character. -/
def shortEscapes : List (Char × Char) :=
  [('"', '"'), ('\\', '\\'), ('\n', 'n'), ('\r', 'r'), ('\t', 't'), (Char.ofNat 8, 'b'), (Char.ofNat 12, 'f')]

/-- A character is escaped in a short form or by its number, or stands for itself. -/
theorem escapeChar_cases (c : Char) : (∃ d, (c, d) ∈ shortEscapes ∧ escapeChar c = ['\\', d]) ∨
      (c.toNat < 32 ∧
        escapeChar c = ['\\', 'u', '0', '0', hexDigit (c.toNat / 16), hexDigit (c.toNat % 16)]) ∨
      (c ≠ '"' ∧ c ≠ '\\' ∧ ¬ c.toNat < 32 ∧ escapeChar c = [c]) := by
  have numbered : ∀ n, c.toNat = n → c = Char.ofNat n := by
    rintro n rfl
    exact (Char.ofNat_toNat c).symm
  by_cases hquote : c = '"'
  · exact .inl ⟨'"', by rw [hquote]; decide, by rw [hquote]; rfl⟩
  by_cases hback : c = '\\'
  · exact .inl ⟨'\\', by rw [hback]; decide, by rw [hback]; rfl⟩
  by_cases hn : c = '\n'
  · exact .inl ⟨'n', by rw [hn]; decide, by rw [hn]; rfl⟩
  by_cases hr : c = '\r'
  · exact .inl ⟨'r', by rw [hr]; decide, by rw [hr]; rfl⟩
  by_cases ht : c = '\t'
  · exact .inl ⟨'t', by rw [ht]; decide, by rw [ht]; rfl⟩
  by_cases hb : c.toNat = 8
  · exact .inl ⟨'b', by rw [numbered 8 hb]; decide, by rw [numbered 8 hb]; rfl⟩
  by_cases hf : c.toNat = 12
  · exact .inl ⟨'f', by rw [numbered 12 hf]; decide, by rw [numbered 12 hf]; rfl⟩
  -- No short form is left.
  rw [escapeChar, if_neg hquote, if_neg hback, if_neg hn, if_neg hr, if_neg ht, if_neg hb, if_neg hf]
  by_cases hlt : c.toNat < 32
  · exact .inr (.inl ⟨hlt, if_pos hlt⟩)
  · exact .inr (.inr ⟨hquote, hback, hlt, if_neg hlt⟩)

/-- The text between the quotes. -/
def escape (s : Str) : Str := s.flatMap escapeChar

/-- The rest of a string literal, up to its closing quote. -/
def readBody : Str → Option (Str × Str)
  | [] => none
  | '"' :: rest => some ([], rest)
  | '\\' :: 'u' :: a :: b :: c :: d :: rest =>
      let n := ((hexValue a * 16 + hexValue b) * 16 + hexValue c) * 16 + hexValue d
      (readBody rest).map fun (s, rest) => (Char.ofNat n :: s, rest)
  | '\\' :: 'n' :: rest => (readBody rest).map fun (s, rest) => ('\n' :: s, rest)
  | '\\' :: 'r' :: rest => (readBody rest).map fun (s, rest) => ('\r' :: s, rest)
  | '\\' :: 't' :: rest => (readBody rest).map fun (s, rest) => ('\t' :: s, rest)
  | '\\' :: 'b' :: rest => (readBody rest).map fun (s, rest) => (Char.ofNat 8 :: s, rest)
  | '\\' :: 'f' :: rest => (readBody rest).map fun (s, rest) => (Char.ofNat 12 :: s, rest)
  | '\\' :: c :: rest => (readBody rest).map fun (s, rest) => (c :: s, rest)
  | c :: rest => (readBody rest).map fun (s, rest) => (c :: s, rest)

theorem readBody_plain {c : Char} (h₁ : c ≠ '"') (h₂ : c ≠ '\\') (rest : Str) :
    readBody (c :: rest) = (readBody rest).map fun (s, rest) => (c :: s, rest) := by
  rw [readBody]
  all_goals simp_all

theorem readBody_unicode {c : Char} (h : c.toNat < 32) (rest : Str) :
    readBody ('\\' :: 'u' :: '0' :: '0' :: hexDigit (c.toNat / 16) :: hexDigit (c.toNat % 16) ::
      rest) = (readBody rest).map fun (s, rest) => (c :: s, rest) := by
  have hn : ∀ n : Fin 32, (((hexValue '0' * 16 + hexValue '0') * 16 +
      hexValue (hexDigit (n.val / 16))) * 16 + hexValue (hexDigit (n.val % 16))) = n.val := by
    decide
  rw [readBody]
  simp only [hn ⟨c.toNat, h⟩, Char.ofNat_toNat]

theorem readBody_shortEscape : ∀ e ∈ shortEscapes, ∀ rest : Str,
    readBody ('\\' :: e.2 :: rest) = (readBody rest).map fun (s, rest) => (e.1 :: s, rest) := by
  intro e he rest
  simp only [shortEscapes, mem_cons, not_mem_nil, or_false] at he
  rcases he with rfl | rfl | rfl | rfl | rfl | rfl | rfl <;> rfl

theorem readBody_escapeChar (c : Char) (rest : Str) :
    readBody (escapeChar c ++ rest) = (readBody rest).map fun (s, rest) => (c :: s, rest) := by
  rcases escapeChar_cases c with ⟨d, hd, heq⟩ | ⟨hlt, heq⟩ | ⟨hquote, hback, -, heq⟩
  · rw [heq]
    exact readBody_shortEscape _ hd rest
  · rw [heq]
    exact readBody_unicode hlt rest
  · rw [heq]
    exact readBody_plain hquote hback rest

theorem readBody_escape (s rest : Str) :
    readBody (escape s ++ '"' :: rest) = some (s, rest) := by
  induction s with
  | nil => rfl
  | cons c s ih =>
    rw [escape, flatMap_cons, append_assoc, readBody_escapeChar, ← escape, ih]
    rfl

/-- Take a fixed character off the front. -/
def readChar (c : Char) : Str → Option Str
  | [] => none
  | d :: rest => if d = c then some rest else none

theorem readChar_cons (c : Char) (rest : Str) : readChar c (c :: rest) = some rest := by
  simp [readChar]

/-- A JSON string. -/
def string : Codec Str where
  write s := '"' :: (escape s ++ ['"'])
  read t := (readChar '"' t).bind readBody
  read_write s rest := by
    rw [cons_append, append_assoc, readChar_cons, Option.bind_some]
    exact readBody_escape s rest
  opens s := ⟨_, _, rfl, by decide, by decide⟩

/-! ### Sequences -/

section
variable {α β : Type}

/-- The items after the first, each behind a comma. -/
def writeTail (c : Codec α) (close : Char) : List α → Str
  | [] => [close]
  | a :: l => ',' :: (c.write a ++ writeTail c close l)

/-- Items up to the closing character. -/
def writeItems (c : Codec α) (close : Char) : List α → Str
  | [] => [close]
  | a :: l => c.write a ++ writeTail c close l

/-- The items after the first; `fuel` bounds their number. -/
def readTail (c : Codec α) (close : Char) : Nat → Str → Option (List α × Str)
  | 0, _ => none
  | _ + 1, [] => none
  | fuel + 1, d :: rest =>
      if d = close then some ([], rest)
      else if d = ',' then do
        let (a, rest) ← c.read rest
        let (l, rest) ← readTail c close fuel rest
        some (a :: l, rest)
      else none

/-- Items up to the closing character. -/
def readItems (c : Codec α) (close : Char) (t : Str) : Option (List α × Str) :=
  match readChar close t with
  | some rest => some ([], rest)
  | none => do
      let (a, rest) ← c.read t
      let (l, rest) ← readTail c close t.length rest
      some (a :: l, rest)

theorem readTail_writeTail (c : Codec α) {close : Char} (hc : close ≠ ',') (l : List α)
    (rest : Str) {fuel : Nat} (hf : l.length < fuel) :
    readTail c close fuel (writeTail c close l ++ rest) = some (l, rest) := by
  induction l generalizing fuel with
  | nil =>
    obtain ⟨fuel, rfl⟩ := Nat.exists_eq_add_of_lt hf
    simp [writeTail, readTail]
  | cons a l ih =>
    obtain ⟨fuel, rfl⟩ : ∃ n, fuel = n + 1 := ⟨fuel - 1, by omega⟩
    rw [writeTail, cons_append, readTail, if_neg (Ne.symm hc), if_pos rfl, append_assoc, c.read_write]
    simp [ih (Nat.lt_of_succ_lt_succ hf)]

/-- There is a character for every item. -/
theorem length_lt_writeTail (c : Codec α) (close : Char) (l : List α) :
    l.length < (writeTail c close l).length := by
  induction l with
  | nil => simp [writeTail]
  | cons a l ih =>
    simp only [writeTail, length_cons, length_append]
    omega

theorem readItems_writeItems (c : Codec α) {close : Char} (hc : close ≠ ',')
    (ho : ∀ a, ∃ d l, c.write a = d :: l ∧ d ≠ close) (l : List α) (rest : Str) :
    readItems c close (writeItems c close l ++ rest) = some (l, rest) := by
  cases l with
  | nil => simp [writeItems, readItems, readChar]
  | cons a l =>
    obtain ⟨d, w, hw, hd⟩ := ho a
    have hno : readChar close (writeItems c close (a :: l) ++ rest) = none := by
      simp [writeItems, hw, readChar, hd]
    have hlen := length_lt_writeTail c close l
    rw [readItems, hno]
    simp only [writeItems, append_assoc, c.read_write, Option.bind_eq_bind, Option.bind_some]
    rw [readTail_writeTail c hc]
    · rfl
    · simp only [length_append]
      omega

/-- A JSON array. -/
def array (c : Codec α) : Codec (List α) where
  write l := '[' :: writeItems c ']' l
  read t := (readChar '[' t).bind (readItems c ']')
  read_write l rest := by
    rw [cons_append, readChar_cons, Option.bind_some]
    refine readItems_writeItems c (by decide) (fun a => ?_) l rest
    obtain ⟨d, w, hw, hd, -⟩ := c.opens a
    exact ⟨d, w, hw, hd⟩
  opens l := ⟨_, _, rfl, by decide, by decide⟩

/-- A member of an object. -/
def member (c : Codec α) : Codec (Str × α) where
  write e := string.write e.1 ++ ':' :: c.write e.2
  read t := do
    let (k, rest) ← string.read t
    let rest ← readChar ':' rest
    let (a, rest) ← c.read rest
    some ((k, a), rest)
  read_write e rest := by
    rw [append_assoc, string.read_write]
    simp [readChar_cons, c.read_write]
  opens e := ⟨_, _, rfl, by decide, by decide⟩

/-- A JSON object whose members have values of one kind, in the order they are written. -/
def object (c : Codec α) : Codec (List (Str × α)) where
  write l := '{' :: writeItems (member c) '}' l
  read t := (readChar '{' t).bind (readItems (member c) '}')
  read_write l rest := by
    rw [cons_append, readChar_cons, Option.bind_some]
    refine readItems_writeItems (member c) (by decide) (fun a => ?_) l rest
    obtain ⟨d, w, hw, -, hd⟩ := (member c).opens a
    exact ⟨d, w, hw, hd⟩
  opens l := ⟨_, _, rfl, by decide, by decide⟩

end

end QwenStack.Json
