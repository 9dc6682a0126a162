import QwenStack.Support.Value

/-!
# Support — texts that are JSON

`isJson` reads a text character by character and says whether it is one JSON value.  What it has to remember
is where it is in a value (`Mode`), and the objects and arrays around that.

What a compact writer prints is JSON (`isJson_render`), and is one line (`printable_render`), if the numbers
that are kept as text are numbers.  Inside a string the scanner comes to the end of two objects with a quote
and two braces exactly when it was inside a value two objects deep (`closes_iff`).
-/

namespace QwenStack.JsonScan

open List
open Json (escape escapeChar escapeChar_cases hexDigit shortEscapes)
open Value (quote separated render renderItems renderEntries)

/-! ### Numbers -/

/-- The part of a number that was read. -/
inductive Number where
  | minus
  | zero
  | digits
  | point
  | fraction
  | exponent
  | sign
  | power
  deriving DecidableEq, Repr

namespace Number

def start (c : Char) : Option Number :=
  if c = '-' then some minus
  else if c = '0' then some zero
  else if c.isDigit = true then some digits
  else none

/-- What may come after the digits. -/
def afterDigits (c : Char) : Option Number :=
  if c = '.' then some point else if c = 'e' ∨ c = 'E' then some exponent else none

def step : Number → Char → Option Number
  | minus, c => if c = '0' then some zero else if c.isDigit = true then some digits else none
  | zero, c => afterDigits c
  | digits, c => if c.isDigit = true then some digits else afterDigits c
  | point, c => if c.isDigit = true then some fraction else none
  | fraction, c =>
      if c.isDigit = true then some fraction
      else if c = 'e' ∨ c = 'E' then some exponent else none
  | exponent, c =>
      if c.isDigit = true then some power else if c = '+' ∨ c = '-' then some sign else none
  | sign, c => if c.isDigit = true then some power else none
  | power, c => if c.isDigit = true then some power else none

def complete : Number → Bool
  | zero | digits | fraction | power => true
  | _ => false

end Number

/-- A text is a number. -/
def isNumber : Str → Bool
  | [] => false
  | c :: text => ((Number.start c).bind fun n => text.foldlM Number.step n).any Number.complete

/-! ### The scanner -/

inductive Frame where
  | object
  | array
  deriving DecidableEq, Repr

/-- What is read next: a value, or the end of an array as well; a key, or the end of an object as well; the
rest of something. -/
inductive Mode where
  | value
  | first
  | firstKey
  | key
  | colon
  | string (isKey : Bool)
  | escape (isKey : Bool)
  | hex (isKey : Bool) (more : Nat)
  | literal (rest : Str)
  | number (n : Number)
  | ended
  deriving DecidableEq, Repr

structure State where
  mode : Mode
  stack : List Frame
  deriving DecidableEq, Repr

def isSpace (c : Char) : Bool := c = ' ' ∨ c = '\t' ∨ c = '\n' ∨ c = '\r'

def isHex (c : Char) : Bool := c.isDigit || ('a' ≤ c && c ≤ 'f') || ('A' ≤ c && c ≤ 'F')

/-- The first character of a value. -/
def startValue (stack : List Frame) (c : Char) : Option State :=
  if c = '"' then some ⟨.string false, stack⟩
  else if c = '{' then some ⟨.firstKey, .object :: stack⟩
  else if c = '[' then some ⟨.first, .array :: stack⟩
  else if c = 't' then some ⟨.literal "rue".toList, stack⟩
  else if c = 'f' then some ⟨.literal "alse".toList, stack⟩
  else if c = 'n' then some ⟨.literal "ull".toList, stack⟩
  else (Number.start c).map fun n => ⟨.number n, stack⟩

/-- A character after a value. -/
def afterValue (stack : List Frame) (c : Char) : Option State :=
  if isSpace c = true then some ⟨.ended, stack⟩
  else
    match stack with
    | .object :: rest =>
        if c = ',' then some ⟨.key, stack⟩ else if c = '}' then some ⟨.ended, rest⟩ else none
    | .array :: rest =>
        if c = ',' then some ⟨.value, stack⟩ else if c = ']' then some ⟨.ended, rest⟩ else none
    | [] => none

def stringMode (isKey : Bool) : Mode := if isKey = true then .colon else .ended

def step (s : State) (c : Char) : Option State :=
  match s.mode with
  | .value => if isSpace c = true then some s else startValue s.stack c
  | .first =>
      if isSpace c = true then some s
      else if c = ']' then some ⟨.ended, s.stack.tail⟩ else startValue s.stack c
  | .firstKey =>
      if isSpace c = true then some s
      else if c = '"' then some ⟨.string true, s.stack⟩
      else if c = '}' then some ⟨.ended, s.stack.tail⟩ else none
  | .key =>
      if isSpace c = true then some s else if c = '"' then some ⟨.string true, s.stack⟩ else none
  | .colon => if isSpace c = true then some s else if c = ':' then some ⟨.value, s.stack⟩ else none
  | .string isKey =>
      if c = '"' then some ⟨stringMode isKey, s.stack⟩
      else if c = '\\' then some ⟨.escape isKey, s.stack⟩
      else if c.toNat < 32 then none else some s
  | .escape isKey =>
      if c ∈ ['"', '\\', '/', 'b', 'f', 'n', 'r', 't'] then some ⟨.string isKey, s.stack⟩
      else if c = 'u' then some ⟨.hex isKey 3, s.stack⟩ else none
  | .hex isKey more =>
      if isHex c = true then
        match more with
        | 0 => some ⟨.string isKey, s.stack⟩
        | more + 1 => some ⟨.hex isKey more, s.stack⟩
      else none
  | .literal rest =>
      match rest with
      | [] => none
      | d :: rest =>
          if c = d ∧ c.isAlpha = true then
            some ⟨if rest = [] then .ended else .literal rest, s.stack⟩
          else none
  | .number n =>
      match n.step c with
      | some n => some ⟨.number n, s.stack⟩
      | none => if n.complete = true then afterValue s.stack c else none
  | .ended => afterValue s.stack c

def run (s : State) (text : Str) : Option State := text.foldlM step s

/-- A value has been read. -/
def State.accepts (s : State) : Bool :=
  s.stack = [] && match s.mode with
    | .ended => true
    | .number n => n.complete
    | _ => false

/-- A text is one JSON value. -/
def isJson (text : Str) : Bool := (run ⟨.value, []⟩ text).any State.accepts

example : isJson "[1, -0.5e+3, \"\\u00e9\\n\", [], null]".toList = true := by decide

example : isJson "[01]".toList = false := by decide

theorem run_cons (s : State) (c : Char) (text : Str) :
    run s (c :: text) = (step s c).bind (run · text) :=
  foldlM_cons

theorem run_append (s : State) (text text' : Str) :
    run s (text ++ text') = (run s text).bind (run · text') :=
  foldlM_append

/-! ### Strings -/

theorem isHex_hexDigit {c : Char} (h : c.toNat < 32) :
    isHex (hexDigit (c.toNat / 16)) = true ∧ isHex (hexDigit (c.toNat % 16)) = true := by
  have hn : ∀ n : Fin 32, isHex (hexDigit (n.val / 16)) = true ∧ isHex (hexDigit (n.val % 16)) = true := by
    decide
  exact hn ⟨c.toNat, h⟩

theorem printable_hexDigit {c : Char} (h : c.toNat < 32) :
    32 ≤ (hexDigit (c.toNat / 16)).toNat ∧ 32 ≤ (hexDigit (c.toNat % 16)).toNat := by
  have hn : ∀ n : Fin 32, 32 ≤ (hexDigit (n.val / 16)).toNat ∧ 32 ≤ (hexDigit (n.val % 16)).toNat := by
    decide
  exact hn ⟨c.toNat, h⟩

section
variable (isKey : Bool) (stack : List Frame)

theorem run_shortEscape : ∀ e ∈ shortEscapes,
    run ⟨.string isKey, stack⟩ ['\\', e.2] = some ⟨.string isKey, stack⟩ := by
  intro e he
  simp only [shortEscapes, mem_cons, not_mem_nil, or_false] at he
  rcases he with rfl | rfl | rfl | rfl | rfl | rfl | rfl <;> rfl

/-- A character that was escaped leaves the scanner in the string. -/
theorem run_escapeChar (c : Char) :
    run ⟨.string isKey, stack⟩ (escapeChar c) = some ⟨.string isKey, stack⟩ := by
  rcases escapeChar_cases c with ⟨d, hd, heq⟩ | ⟨hlt, heq⟩ | ⟨hquote, hback, hlt, heq⟩
  · rw [heq]
    exact run_shortEscape isKey stack _ hd
  · obtain ⟨hfirst, hsecond⟩ := isHex_hexDigit hlt
    rw [heq]
    simp [run, step, hfirst, hsecond, show isHex '0' = true from rfl]
  · rw [heq]
    simp [run, step, hquote, hback, hlt]

theorem run_escape (s : Str) :
    run ⟨.string isKey, stack⟩ (escape s) = some ⟨.string isKey, stack⟩ := by
  induction s with
  | nil => rfl
  | cons c s ih => rw [escape, flatMap_cons, run_append, run_escapeChar, Option.bind_some, ← escape, ih]

/-- The text after the quote that opens it. -/
theorem run_body (s : Str) :
    run ⟨.string isKey, stack⟩ (escape s ++ ['"']) = some ⟨stringMode isKey, stack⟩ := by
  rw [run_append, run_escape]
  rfl

end

theorem printable_shortEscape : ∀ e ∈ shortEscapes, 32 ≤ e.2.toNat := by decide

theorem printable_escapeChar (d : Char) : ∀ c ∈ escapeChar d, 32 ≤ c.toNat := by
  intro c hc
  have hpair : ∀ a b : Char, 32 ≤ a.toNat → 32 ≤ b.toNat → c ∈ [a, b] → 32 ≤ c.toNat := by
    intro a b ha hb hc
    rcases List.mem_cons.mp hc with rfl | hc
    · exact ha
    · exact List.mem_singleton.mp hc ▸ hb
  rcases escapeChar_cases d with ⟨e, he, heq⟩ | ⟨hlt, heq⟩ | ⟨-, -, hlt, heq⟩
  · rw [heq] at hc
    exact hpair _ _ (by decide) (printable_shortEscape _ he) hc
  · obtain ⟨hfirst, hsecond⟩ := printable_hexDigit hlt
    rw [heq] at hc
    have hmore : c ∈ ['\\', 'u', '0', '0'] ++ [hexDigit (d.toNat / 16), hexDigit (d.toNat % 16)] := hc
    rcases List.mem_append.mp hmore with hc | hc
    · have hall : ∀ c ∈ ['\\', 'u', '0', '0'], 32 ≤ c.toNat := by simp
      exact hall c hc
    · exact hpair _ _ hfirst hsecond hc
  · rw [heq] at hc
    exact List.mem_singleton.mp hc ▸ Nat.le_of_not_lt hlt

theorem printable_escape (s : Str) : ∀ c ∈ escape s, 32 ≤ c.toNat := by
  intro c hc
  obtain ⟨d, -, hc⟩ := List.mem_flatMap.mp hc
  exact printable_escapeChar d c hc

/-! ### Values -/

theorem step_number (n : Number) (stack : List Frame) (c : Char) : step ⟨.number n, stack⟩ c =
    match n.step c with
    | some n => some ⟨.number n, stack⟩
    | none => if n.complete = true then afterValue stack c else none := rfl

/-- A value was read, and it is in these objects and arrays. -/
def Ends (stack : List Frame) (s : State) : Prop :=
  s.stack = stack ∧ (s.mode = .ended ∨ ∃ n : Number, s.mode = .number n ∧ n.complete = true)

/-- A text is a value wherever one can stand. -/
def IsValue (text : Str) : Prop :=
  ∃ c rest, text = c :: rest ∧ isSpace c = false ∧ c ≠ ']' ∧
    ∀ stack, ∃ s, (startValue stack c).bind (run · rest) = some s ∧ Ends stack s

namespace Frame

def close : Frame → Char
  | object => '}'
  | array => ']'

/-- What is read after the opening. -/
def first : Frame → Mode
  | object => .firstKey
  | array => .first

/-- What is read after a comma. -/
def next : Frame → Mode
  | object => .key
  | array => .value

end Frame

/-- A text is a member of an object, or an item of an array. -/
def IsElement (frame : Frame) (text : Str) : Prop :=
  ∃ c rest, text = c :: rest ∧ ∀ stack,
    step ⟨frame.first, stack⟩ c = step ⟨frame.next, stack⟩ c ∧
      ∃ s, (step ⟨frame.next, stack⟩ c).bind (run · rest) = some s ∧ Ends stack s

theorem Number.step_comma (n : Number) : n.step ',' = none := by cases n <;> rfl

theorem Number.step_close (n : Number) (frame : Frame) : n.step frame.close = none := by
  cases n <;> cases frame <;> rfl

namespace Ends
variable {stack : List Frame} {s : State} {frame : Frame}

theorem step_eq (h : Ends stack s) {c : Char} (hc : ∀ n : Number, n.step c = none) :
    step s c = afterValue stack c := by
  obtain ⟨mode, _⟩ := s
  obtain ⟨rfl, rfl | ⟨n, rfl, hn⟩⟩ := h
  · rfl
  · rw [step_number, hc n]
    exact if_pos hn

theorem comma (h : Ends (frame :: stack) s) : step s ',' = some ⟨frame.next, frame :: stack⟩ := by
  rw [h.step_eq Number.step_comma]
  cases frame <;> rfl

theorem close (h : Ends (frame :: stack) s) : step s frame.close = some ⟨.ended, stack⟩ := by
  rw [h.step_eq fun n => n.step_close frame]
  cases frame <;> rfl

theorem accepts (h : Ends [] s) : s.accepts = true := by
  obtain ⟨mode, _⟩ := s
  obtain ⟨rfl, rfl | ⟨n, rfl, hn⟩⟩ := h
  · rfl
  · exact hn

end Ends

/-- Some elements, up to the end of what they are in. -/
theorem run_elements (frame : Frame) {texts : List Str} (h : ∀ text ∈ texts, IsElement frame text)
    (hne : texts ≠ []) (stack : List Frame) :
    run ⟨frame.next, frame :: stack⟩ (separated texts ++ [frame.close]) = some ⟨.ended, stack⟩ := by
  induction texts with
  | nil => exact absurd rfl hne
  | cons text texts ih =>
    obtain ⟨c, rest, rfl, hread⟩ := h text (mem_cons_self ..)
    obtain ⟨-, s, hs, hends⟩ := hread (frame :: stack)
    cases texts with
    | nil =>
      rw [separated, run_append, run_cons, hs, Option.bind_some, run_cons, hends.close]
      rfl
    | cons text' texts =>
      have ih := ih (fun text htext => h text (mem_cons_of_mem _ htext)) (cons_ne_nil _ _)
      rw [separated, append_assoc, run_append, run_cons, hs, Option.bind_some, cons_append,
        run_cons, hends.comma, Option.bind_some, ih]
      exact cons_ne_nil _ _

/-- All elements. -/
theorem run_sequence (frame : Frame) {texts : List Str} (h : ∀ text ∈ texts, IsElement frame text)
    (stack : List Frame) :
    run ⟨frame.first, frame :: stack⟩ (separated texts ++ [frame.close]) = some ⟨.ended, stack⟩ := by
  cases texts with
  | nil => cases frame <;> rfl
  | cons text texts =>
    have hnext := run_elements frame h (cons_ne_nil _ _) stack
    obtain ⟨c, rest, rfl, hread⟩ := h text (mem_cons_self ..)
    have hsame : ∃ more, separated ((c :: rest) :: texts) ++ [frame.close] = c :: more := by
      cases texts <;> exact ⟨_, rfl⟩
    obtain ⟨more, hmore⟩ := hsame
    rw [hmore, run_cons] at hnext ⊢
    rw [(hread _).1, hnext]

theorem IsValue.isJson {text : Str} (h : IsValue text) : isJson text = true := by
  obtain ⟨c, rest, rfl, hspace, -, hread⟩ := h
  obtain ⟨s, hs, hends⟩ := hread []
  have hstep : step ⟨.value, []⟩ c = startValue [] c := if_neg (hspace ▸ Bool.false_ne_true)
  rw [JsonScan.isJson, run_cons, hstep, hs]
  exact hends.accepts

theorem IsValue.isElement {text : Str} (h : IsValue text) : IsElement .array text := by
  obtain ⟨c, rest, rfl, hspace, hclose, hread⟩ := h
  have hnext : ∀ stack, step ⟨.value, stack⟩ c = startValue stack c :=
    fun _ => if_neg (hspace ▸ Bool.false_ne_true)
  refine ⟨c, rest, rfl, fun stack => ⟨?_, ?_⟩⟩
  · exact (if_neg (hspace ▸ Bool.false_ne_true)).trans ((if_neg hclose).trans (hnext stack).symm)
  · rw [Frame.next, hnext]
    exact hread stack

/-- A key and its value. -/
theorem IsValue.member {text : Str} (h : IsValue text) (key : Str) :
    IsElement .object (quote key ++ ':' :: text) := by
  obtain ⟨c, rest, rfl, hspace, -, hread⟩ := h
  refine ⟨'"', escape key ++ ['"'] ++ ':' :: c :: rest, rfl, fun stack => ⟨rfl, ?_⟩⟩
  obtain ⟨s, hs, hends⟩ := hread stack
  have hstep : step ⟨.value, stack⟩ c = startValue stack c := if_neg (hspace ▸ Bool.false_ne_true)
  refine ⟨s, ?_, hends⟩
  change run ⟨.string true, stack⟩ _ = _
  rw [run_append, run_body, Option.bind_some, run_cons]
  change run ⟨.value, stack⟩ _ = _
  rw [run_cons, hstep, hs]

theorem isValue_quote (s : Str) : IsValue (quote s) :=
  ⟨'"', _, rfl, rfl, by decide, fun stack => ⟨_, run_body false stack s, rfl, .inl rfl⟩⟩

/-! ### Numbers as values -/

/-- A number is read as one. -/
theorem run_number {n n' : Number} {text : Str} (h : text.foldlM Number.step n = some n')
    (stack : List Frame) : run ⟨.number n, stack⟩ text = some ⟨.number n', stack⟩ := by
  induction text generalizing n with
  | nil =>
    cases h
    rfl
  | cons c text ih =>
    rw [foldlM_cons] at h
    obtain ⟨n'', hstep, h⟩ := Option.bind_eq_some_iff.mp h
    rw [run_cons, step_number, hstep]
    exact ih h

theorem startValue_of_number {c : Char} {n : Number} (h : Number.start c = some n) (stack : List Frame) :
    startValue stack c = some ⟨.number n, stack⟩ := by
  have hne : ∀ d, Number.start d = none → c ≠ d := by
    rintro d hd rfl
    rw [hd] at h
    cases h
  rw [startValue, if_neg (hne _ (by decide)), if_neg (hne _ (by decide)), if_neg (hne _ (by decide)),
    if_neg (hne _ (by decide)), if_neg (hne _ (by decide)), if_neg (hne _ (by decide)), h]
  rfl

theorem isValue_number {text : Str} (h : isNumber text = true) : IsValue text := by
  cases text with
  | nil => cases h
  | cons c text =>
    obtain ⟨n', h, hcomplete⟩ := (Option.any_eq_true _ _).mp h
    obtain ⟨n, hstart, htext⟩ := Option.bind_eq_some_iff.mp h
    have hne : ∀ d, Number.start d = none → c ≠ d := by
      rintro d hd rfl
      rw [hd] at hstart
      cases hstart
    refine ⟨c, text, rfl, ?_, hne _ (by decide), fun stack =>
      ⟨⟨.number n', stack⟩, ?_, rfl, .inr ⟨n', rfl, hcomplete⟩⟩⟩
    · exact decide_eq_false (not_or.mpr ⟨hne _ (by decide), not_or.mpr ⟨hne _ (by decide),
        not_or.mpr ⟨hne _ (by decide), hne _ (by decide)⟩⟩⟩)
    · rw [startValue_of_number hstart, Option.bind_some, run_number htext]

theorem run_digits {text : Str} (h : ∀ c ∈ text, c.isDigit = true) :
    text.foldlM Number.step .digits = some .digits := by
  induction text with
  | nil => rfl
  | cons c text ih =>
    have hstep : Number.step .digits c = some .digits := if_pos (h c (mem_cons_self ..))
    rw [foldlM_cons, hstep]
    exact ih fun d hd => h d (mem_cons_of_mem _ hd)

/-- The first digit is no zero. -/
theorem toDigits_head {n : Nat} (hn : 0 < n) :
    ∃ c rest, Nat.toDigits 10 n = c :: rest ∧ c ≠ '0' := by
  induction n using Nat.strongRecOn with
  | ind n ih =>
    rcases Nat.lt_or_ge n 10 with hlt | hge
    · have hdigit : ∀ n : Fin 10, 0 < n.val → n.val.digitChar ≠ '0' := by decide
      exact ⟨n.digitChar, [], Nat.toDigits_of_lt_base hlt, hdigit ⟨n, hlt⟩ hn⟩
    · obtain ⟨c, rest, heq, hc⟩ := ih (n / 10) (by omega) (by omega)
      refine ⟨c, rest ++ [(n % 10).digitChar], ?_, hc⟩
      rw [Nat.toDigits_of_base_le (by decide) hge, heq, cons_append]

/-- What a number starts with after its sign. -/
theorem digits_toDigits (n : Nat) (start : Char → Option Number)
    (hzero : start '0' = some .zero)
    (hdigit : ∀ c : Char, c ≠ '0' → c.isDigit = true → start c = some .digits) :
    ∃ c rest n', Nat.toDigits 10 n = c :: rest ∧
      (start c).bind (fun m => rest.foldlM Number.step m) = some n' ∧ n'.complete = true := by
  rcases Nat.eq_zero_or_pos n with rfl | hn
  · exact ⟨'0', [], .zero, rfl, by rw [hzero]; rfl, rfl⟩
  · obtain ⟨c, rest, heq, hc⟩ := toDigits_head hn
    have hall : ∀ d ∈ c :: rest, d.isDigit = true := fun d hd =>
      Nat.isDigit_of_mem_toDigits (by decide) (Nat.le_refl 10) (heq ▸ hd)
    refine ⟨c, rest, .digits, heq, ?_, rfl⟩
    rw [hdigit c hc (hall c (mem_cons_self ..)), Option.bind_some]
    exact run_digits fun d hd => hall d (mem_cons_of_mem _ hd)

theorem isNumber_integer (n : Int) : isNumber (toString n).toList = true := by
  cases n with
  | ofNat m =>
    have htext : (toString (Int.ofNat m)).toList = Nat.toDigits 10 m := Nat.toList_repr
    obtain ⟨c, rest, n', heq, hread, hcomplete⟩ := digits_toDigits m Number.start rfl
      fun c hc hdigit => by
        have hne : c ≠ '-' := by rintro rfl; cases hdigit
        rw [Number.start, if_neg hne, if_neg hc, if_pos hdigit]
    rw [htext, heq]
    exact (Option.any_eq_true _ _).mpr ⟨n', hread, hcomplete⟩
  | negSucc m =>
    have htext : (toString (Int.negSucc m)).toList = '-' :: Nat.toDigits 10 (m + 1) :=
      String.toList_append.trans (congrArg _ Nat.toList_repr)
    obtain ⟨c, rest, n', heq, hread, hcomplete⟩ := digits_toDigits (m + 1)
      (Number.step .minus) rfl fun c hc hdigit => by
        rw [Number.step, if_neg hc, if_pos hdigit]
    rw [htext, heq]
    exact (Option.any_eq_true _ _).mpr ⟨n', hread, hcomplete⟩

/-- No control character is part of a number. -/
theorem Number.step_control (n : Number) {c : Char} (h : c.toNat < 32) : n.step c = none := by
  have hall : ∀ k : Fin 32, n.step (Char.ofNat k) = none := by cases n <;> decide
  exact Char.ofNat_toNat c ▸ hall ⟨c.toNat, h⟩

theorem Number.start_control {c : Char} (h : c.toNat < 32) : Number.start c = none := by
  have hall : ∀ k : Fin 32, Number.start (Char.ofNat k) = none := by decide
  exact Char.ofNat_toNat c ▸ hall ⟨c.toNat, h⟩

theorem printable_number {text : Str} (h : isNumber text = true) : ∀ c ∈ text, 32 ≤ c.toNat := by
  have hrest : ∀ (text : Str) (n n' : Number), text.foldlM Number.step n = some n' →
      ∀ c ∈ text, 32 ≤ c.toNat := by
    intro text
    induction text with
    | nil => exact fun _ _ _ c hc => absurd hc not_mem_nil
    | cons d text ih =>
      intro n n' h c hc
      rw [foldlM_cons] at h
      obtain ⟨n'', hstep, h⟩ := Option.bind_eq_some_iff.mp h
      rcases List.mem_cons.mp hc with rfl | hc
      · refine Nat.le_of_not_lt fun hlt => ?_
        rw [n.step_control hlt] at hstep
        cases hstep
      · exact ih n'' n' h c hc
  cases text with
  | nil => cases h
  | cons d text =>
    obtain ⟨n', h, -⟩ := (Option.any_eq_true _ _).mp h
    obtain ⟨n, hstart, htext⟩ := Option.bind_eq_some_iff.mp h
    intro c hc
    rcases List.mem_cons.mp hc with rfl | hc
    · refine Nat.le_of_not_lt fun hlt => ?_
      rw [Number.start_control hlt] at hstart
      cases hstart
    · exact hrest text n n' htext c hc

/-! ### The end of two objects -/

/-- A quote opens a string, or closes the one that is read. -/
theorem step_quote {s s' : State} (h : step s '"' = some s') : (∃ isKey, s'.mode = .string isKey) ∨
      ∃ isKey, s.mode = .string isKey ∧ s' = ⟨stringMode isKey, s.stack⟩ := by
  obtain ⟨mode, stack⟩ := s
  have hafter : afterValue stack '"' = none := by
    cases stack with
    | nil => rfl
    | cons frame stack => cases frame <;> rfl
  cases mode with
  | value => exact .inl ⟨false, congrArg State.mode (Option.some.inj h).symm⟩
  | first => exact .inl ⟨false, congrArg State.mode (Option.some.inj h).symm⟩
  | firstKey => exact .inl ⟨true, congrArg State.mode (Option.some.inj h).symm⟩
  | key => exact .inl ⟨true, congrArg State.mode (Option.some.inj h).symm⟩
  | colon => cases h
  | string isKey => exact .inr ⟨isKey, rfl, (Option.some.inj h).symm⟩
  | escape isKey => exact .inl ⟨isKey, congrArg State.mode (Option.some.inj h).symm⟩
  | hex isKey more => cases h
  | literal rest =>
    cases rest with
    | nil => cases h
    | cons d rest =>
      have hnone : step ⟨.literal (d :: rest), stack⟩ '"' = none :=
        if_neg fun hletter => absurd hletter.2 (by decide)
      rw [hnone] at h
      cases h
  | number n =>
    have hnone : n.step '"' = none := by cases n <;> rfl
    rw [step_number, hnone, hafter, ite_self] at h
    cases h
  | ended =>
    have hnone : step ⟨.ended, stack⟩ '"' = none := hafter
    rw [hnone] at h
    cases h

/-- **Where a quote and two braces end a value.** -/
theorem closes_iff (s : State) : (run s ['"', '}', '}']).any State.accepts = true ↔
    s = ⟨.string false, [.object, .object]⟩ := by
  refine ⟨fun h => ?_, fun h => h ▸ rfl⟩
  obtain ⟨s', hrun, haccepts⟩ := (Option.any_eq_true _ _).mp h
  rw [run_cons] at hrun
  obtain ⟨⟨mode, stack⟩, hquote, hrun⟩ := Option.bind_eq_some_iff.mp hrun
  rcases step_quote hquote with ⟨isKey, rfl⟩ | ⟨isKey, hmode, heq⟩
  · -- the braces are part of a string then
    obtain rfl : _ = s' := Option.some.inj hrun
    rw [State.accepts, Bool.and_false] at haccepts
    cases haccepts
  · obtain ⟨mode', stack'⟩ := s
    obtain rfl : mode' = .string isKey := hmode
    obtain ⟨rfl, rfl⟩ := State.mk.inj heq
    cases isKey with
    | true => cases hrun
    | false =>
      match stack, hrun with
      | [], hrun => cases hrun
      | [.object], hrun => cases hrun
      | .array :: _, hrun => cases hrun
      | .object :: .array :: _, hrun => cases hrun
      | .object :: .object :: rest, hrun =>
        obtain rfl : _ = s' := Option.some.inj hrun
        obtain rfl : rest = [] := of_decide_eq_true ((Bool.and_true _).symm.trans haccepts)
        rfl

end QwenStack.JsonScan

/-! ### The text of a value -/

namespace QwenStack.Value
open JsonScan List

mutual

/-- The numbers that are kept as text are numbers. -/
def Sound : Value → Prop
  | float text => isNumber text = true
  | array items => SoundItems items
  | object entries => SoundEntries entries
  | _ => True

def SoundItems : List Value → Prop
  | [] => True
  | v :: items => v.Sound ∧ SoundItems items

def SoundEntries : List (Str × Value) → Prop
  | [] => True
  | (_, v) :: entries => v.Sound ∧ SoundEntries entries

end

theorem render_null : null.render = ['n', 'u', 'l', 'l'] := by decide +kernel

theorem render_true : (bool true).render = ['t', 'r', 'u', 'e'] := by decide +kernel

theorem render_false : (bool false).render = ['f', 'a', 'l', 's', 'e'] := by decide +kernel

mutual

theorem isValue_render : ∀ v : Value, v.Sound → IsValue v.render
  | null, _ => ⟨'n', _, render_null, rfl, by decide, fun _ => ⟨_, rfl, rfl, .inl rfl⟩⟩
  | bool true, _ => ⟨'t', _, render_true, rfl, by decide, fun _ => ⟨_, rfl, rfl, .inl rfl⟩⟩
  | bool false, _ => ⟨'f', _, render_false, rfl, by decide, fun _ => ⟨_, rfl, rfl, .inl rfl⟩⟩
  | integer n, _ => isValue_number (isNumber_integer n)
  | float _, h => isValue_number h
  | string s, _ => isValue_quote s
  | array items, h => ⟨'[', _, rfl, rfl, by decide, fun stack => ⟨_, run_sequence .array
      (isElement_renderItems items h) stack, rfl, .inl rfl⟩⟩
  | object entries, h => ⟨'{', _, rfl, rfl, by decide, fun stack => ⟨_, run_sequence .object
      (isElement_renderEntries entries h) stack, rfl, .inl rfl⟩⟩

theorem isElement_renderItems : ∀ items : List Value, SoundItems items →
    ∀ text ∈ renderItems items, IsElement .array text
  | [], _, _, htext => nomatch htext
  | v :: items, h, text, htext => by
      rcases List.mem_cons.mp htext with rfl | htext
      · exact (isValue_render v h.1).isElement
      · exact isElement_renderItems items h.2 text htext

theorem isElement_renderEntries : ∀ entries : List (Str × Value), SoundEntries entries →
    ∀ text ∈ renderEntries entries, IsElement .object text
  | [], _, _, htext => nomatch htext
  | (key, v) :: entries, h, text, htext => by
      rcases List.mem_cons.mp htext with rfl | htext
      · exact (isValue_render v h.1).member key
      · exact isElement_renderEntries entries h.2 text htext

end

/-- **What a compact writer prints is JSON.** -/
theorem isJson_render {v : Value} (h : v.Sound) : isJson v.render = true := (isValue_render v h).isJson

theorem mem_separated {c : Char} {texts : List Str} (h : c ∈ separated texts) :
    c = ',' ∨ ∃ text ∈ texts, c ∈ text := by
  induction texts with
  | nil => cases h
  | cons text texts ih =>
    cases texts with
    | nil => exact .inr ⟨text, mem_cons_self .., h⟩
    | cons text' texts =>
      rcases List.mem_append.mp h with h | h
      · exact .inr ⟨text, mem_cons_self .., h⟩
      · rcases List.mem_cons.mp h with rfl | h
        · exact .inl rfl
        · refine (ih h).imp_right ?_
          rintro ⟨text, htext, hc⟩
          exact ⟨text, mem_cons_of_mem _ htext, hc⟩

theorem printable_quote (s : Str) : ∀ c ∈ quote s, 32 ≤ c.toNat := by
  intro c hc
  rcases List.mem_cons.mp hc with rfl | hc
  · decide
  · rcases List.mem_append.mp hc with hc | hc
    · exact printable_escape s c hc
    · exact List.mem_singleton.mp hc ▸ (by decide)

/-- What stands between an opening and an end. -/
theorem printable_sequence {texts : List Str} (h : ∀ text ∈ texts, ∀ c ∈ text, 32 ≤ c.toNat)
    {left right : Char} (hleft : 32 ≤ left.toNat) (hright : 32 ≤ right.toNat) :
    ∀ c ∈ left :: (separated texts ++ [right]), 32 ≤ c.toNat := by
  intro c hc
  rcases List.mem_cons.mp hc with rfl | hc
  · exact hleft
  · rcases List.mem_append.mp hc with hc | hc
    · rcases mem_separated hc with rfl | ⟨text, htext, hc⟩
      · decide
      · exact h text htext c hc
    · exact List.mem_singleton.mp hc ▸ hright

mutual

/-- **It has no control characters.** -/
theorem printable_render : ∀ v : Value, v.Sound → ∀ c ∈ v.render, 32 ≤ c.toNat
  | null, _ => by simp [render_null]
  | bool true, _ => by simp [render_true]
  | bool false, _ => by simp [render_false]
  | integer n, _ => printable_number (isNumber_integer n)
  | float _, h => printable_number h
  | string s, _ => printable_quote s
  | array items, h => printable_sequence (printable_renderItems items h) (by decide) (by decide)
  | object entries, h => printable_sequence (printable_renderEntries entries h) (by decide) (by decide)

theorem printable_renderItems : ∀ items : List Value, SoundItems items →
    ∀ text ∈ renderItems items, ∀ c ∈ text, 32 ≤ c.toNat
  | [], _, _, htext => nomatch htext
  | v :: items, h, text, htext => by
      rcases List.mem_cons.mp htext with rfl | htext
      · exact printable_render v h.1
      · exact printable_renderItems items h.2 text htext

theorem printable_renderEntries : ∀ entries : List (Str × Value), SoundEntries entries →
    ∀ text ∈ renderEntries entries, ∀ c ∈ text, 32 ≤ c.toNat
  | [], _, _, htext => nomatch htext
  | (key, v) :: entries, h, text, htext => by
      rcases List.mem_cons.mp htext with rfl | htext
      · intro c hc
        rcases List.mem_append.mp hc with hc | hc
        · exact printable_quote key c hc
        · rcases List.mem_cons.mp hc with rfl | hc
          · decide
          · exact printable_render v h.1 c hc
      · exact printable_renderEntries entries h.2 text htext

end

/-! ### Values that are changed -/

theorem soundItems_iff {items : List Value} : SoundItems items ↔ ∀ v ∈ items, v.Sound := by
  induction items with
  | nil => exact iff_of_true trivial fun _ h => absurd h not_mem_nil
  | cons v items ih => rw [SoundItems, ih, forall_mem_cons]

theorem soundEntries_iff {entries : List (Str × Value)} :
    SoundEntries entries ↔ ∀ entry ∈ entries, entry.2.Sound := by
  induction entries with
  | nil => exact iff_of_true trivial fun _ h => absurd h not_mem_nil
  | cons entry entries ih => rw [SoundEntries, ih, forall_mem_cons]

@[simp] theorem sound_null : null.Sound := trivial

@[simp] theorem sound_bool (b : Bool) : (bool b).Sound := trivial

@[simp] theorem sound_integer (n : Int) : (integer n).Sound := trivial

@[simp] theorem sound_string (s : Str) : (string s).Sound := trivial

@[simp] theorem sound_array {items : List Value} : (array items).Sound ↔ ∀ v ∈ items, v.Sound :=
  soundItems_iff

@[simp] theorem sound_object {entries : List (Str × Value)} :
    (object entries).Sound ↔ ∀ entry ∈ entries, entry.2.Sound :=
  soundEntries_iff

@[simp] theorem sound_ofMembers {members : List (String × Value)} :
    (ofMembers members).Sound ↔ ∀ m ∈ members, m.2.Sound :=
  sound_object.trans forall_mem_map

@[simp] theorem sound_ofOption (s : Option Str) : (ofOption s).Sound := by cases s <;> trivial

theorem Sound.get {obj v : Value} (h : obj.Sound) {key : Str} (hget : obj.get key = some v) :
    v.Sound := by
  cases obj with
  | object entries => exact sound_object.mp h (key, v) (Assoc.mem_of_lookup hget)
  | _ => cases hget

theorem Sound.insert {obj v : Value} (h : obj.Sound) (key : Str) (hv : v.Sound) :
    (obj.insert key v).Sound := by
  cases obj with
  | object entries =>
    refine sound_object.mpr fun entry hentry => ?_
    rcases Assoc.mem_put hentry with rfl | hentry
    · exact hv
    · exact sound_object.mp h entry hentry
  | _ => exact h

theorem Sound.orInsert {obj v : Value} (h : obj.Sound) (key : Str) (hv : v.Sound) :
    (obj.orInsert key v).Sound := by
  rw [Value.orInsert]
  split
  · exact h
  · exact h.insert key hv

end QwenStack.Value
