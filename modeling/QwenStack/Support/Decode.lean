import QwenStack.Support.Utf8

/-!
# Support — reading UTF-8

`fromUtf8` reads bytes that encode a text.  `fromUtf8Lossy` reads any bytes, with U+FFFD for each
sequence that is not valid: the bytes at the front of it that could still have become a character, or
one byte.
-/

namespace QwenStack.Str

open List

/-- The character that the bytes begin with. -/
def decodeFirst (bs : List UInt8) : Option Char := bs.toByteArray.utf8DecodeChar? 0

/-- `x` may come second after `b`, which begins three or four bytes. -/
def secondOk (b x : UInt8) : Bool :=
  if b = 0xe0 then 0xa0 ≤ x && x ≤ 0xbf
  else if b = 0xed then 0x80 ≤ x && x ≤ 0x9f
  else if b = 0xf0 then 0x90 ≤ x && x ≤ 0xbf
  else if b = 0xf4 then 0x80 ≤ x && x ≤ 0x8f
  else 0xe1 ≤ b && b ≤ 0xf3 && 0x80 ≤ x && x ≤ 0xbf

/-- How many bytes the invalid sequence has that the bytes begin with. -/
def invalidLength : List UInt8 → Nat
  | b :: x :: y :: _ =>
      if secondOk b x = true then if 0xf0 ≤ b ∧ 0x80 ≤ y ∧ y ≤ 0xbf then 3 else 2 else 1
  | [b, x] => if secondOk b x = true then 2 else 1
  | _ => 1

/-- The characters after `n` bytes, `none` for an invalid sequence. -/
def scan : Nat → List UInt8 → List (Option Char)
  | _, [] => []
  | n + 1, _ :: bs => scan n bs
  | 0, b :: bs =>
      match decodeFirst (b :: bs) with
      | some c => some c :: scan (c.utf8Size - 1) bs
      | none => none :: scan (invalidLength (b :: bs) - 1) bs

/-- `std::str::from_utf8`. -/
def fromUtf8 (bs : List UInt8) : Option Str := (scan 0 bs).mapM id

/-- `String::from_utf8_lossy`. -/
def fromUtf8Lossy (bs : List UInt8) : Str := (scan 0 bs).map (Option.getD · '\uFFFD')

/-! ### Valid text -/

theorem scan_nil (n : Nat) : scan n [] = [] := by cases n <;> rfl

theorem decodeFirst_encode_append (c : Char) (bs : List UInt8) :
    decodeFirst (String.utf8EncodeChar c ++ bs) = some c := by
  rw [decodeFirst, toByteArray_append]
  exact ByteArray.utf8DecodeChar?_utf8EncodeChar_append

theorem eq_encode_append_of_decodeFirst {bs : List UInt8} {c : Char} (h : decodeFirst bs = some c) :
    ∃ rest, bs = String.utf8EncodeChar c ++ rest := by
  obtain ⟨l, hl⟩ := ByteArray.exists_of_utf8DecodeChar?_eq_some h
  refine ⟨l.data.toList, List.toByteArray_inj.mp ?_⟩
  rw [hl, toByteArray_append]
  congr 1
  exact ByteArray.ext (by simp)

theorem scan_length_append (l bs : List UInt8) : scan l.length (l ++ bs) = scan 0 bs := by
  induction l with
  | nil => rfl
  | cons b l ih => rw [length_cons, cons_append, scan, ih]

theorem scan_encode_append (c : Char) (bs : List UInt8) :
    scan 0 (String.utf8EncodeChar c ++ bs) = some c :: scan 0 bs := by
  have hfirst := decodeFirst_encode_append c bs
  have hlength := String.length_utf8EncodeChar c
  cases hc : String.utf8EncodeChar c with
  | nil => exact absurd hc String.utf8EncodeChar_ne_nil
  | cons b l =>
    rw [hc, cons_append] at hfirst
    rw [hc, length_cons] at hlength
    rw [cons_append, scan, hfirst]
    dsimp only
    rw [← hlength, Nat.add_sub_cancel, scan_length_append]

theorem bytes_append (s t : Str) : bytes (s ++ t) = bytes s ++ bytes t := flatMap_append

theorem scan_bytes_append (s : Str) (bs : List UInt8) :
    scan 0 (bytes s ++ bs) = s.map some ++ scan 0 bs := by
  induction s with
  | nil => rfl
  | cons c s ih => rw [bytes_cons, append_assoc, scan_encode_append, ih]; rfl

/-- A text is read off the front. -/
theorem fromUtf8Lossy_bytes_append (s : Str) (bs : List UInt8) :
    fromUtf8Lossy (bytes s ++ bs) = s ++ fromUtf8Lossy bs := by
  rw [fromUtf8Lossy, scan_bytes_append, map_append, map_map]
  congr 1
  exact map_id s

theorem fromUtf8Lossy_bytes (s : Str) : fromUtf8Lossy (bytes s) = s := by
  have h := fromUtf8Lossy_bytes_append s []
  rwa [append_nil, fromUtf8Lossy.eq_def [], scan_nil, map_nil, append_nil] at h

/-- Where there is nothing invalid, both read the same. -/
theorem fromUtf8Lossy_of_fromUtf8 {bs : List UInt8} {s : Str} (h : fromUtf8 bs = some s) :
    fromUtf8Lossy bs = s := by
  rw [fromUtf8] at h
  rw [fromUtf8Lossy]
  generalize scan 0 bs = l at h
  induction l generalizing s with
  | nil =>
    cases h
    rfl
  | cons o l ih =>
    rw [mapM_cons] at h
    obtain ⟨c, hc, h⟩ := Option.bind_eq_some_iff.mp h
    obtain ⟨s', hs', h⟩ := Option.bind_eq_some_iff.mp h
    cases h
    obtain rfl : o = some c := hc
    rw [map_cons, ih hs', Option.getD_some]

/-- A text whose bytes the bytes of a text begin with. -/
theorem of_bytes_append_eq_bytes {s t : Str} {bs : List UInt8} (h : bytes s ++ bs = bytes t) :
    ∃ u, t = s ++ u ∧ bs = bytes u := by
  induction s generalizing t with
  | nil => exact ⟨t, rfl, h⟩
  | cons c s ih =>
    cases t with
    | nil =>
      rw [bytes_cons, append_assoc, bytes_nil, append_eq_nil_iff] at h
      exact absurd h.1 String.utf8EncodeChar_ne_nil
    | cons d t =>
      rw [bytes_cons, bytes_cons, append_assoc] at h
      have hcd : some c = some d := by
        rw [← decodeFirst_encode_append c (bytes s ++ bs), h, decodeFirst_encode_append]
      cases hcd
      obtain ⟨u, rfl, hu⟩ := ih (append_cancel_left h)
      exact ⟨u, rfl, hu⟩

theorem bytes_injective : Function.Injective bytes := by
  intro s t h
  obtain ⟨u, rfl, hu⟩ := @of_bytes_append_eq_bytes s t [] (by rw [append_nil, h])
  cases u with
  | nil => rw [append_nil]
  | cons c u =>
    rw [bytes_cons, eq_comm, append_eq_nil_iff] at hu
    exact absurd hu.1 String.utf8EncodeChar_ne_nil

/-- Where a text is cut: between two characters or inside one. -/
theorem cut_bytes {s : Str} {p q : List UInt8} (h : p ++ q = bytes s) :
    (∃ x y, s = x ++ y ∧ p = bytes x ∧ q = bytes y) ∨
    ∃ x c y p' q', s = x ++ c :: y ∧ p' ≠ [] ∧ q' ≠ [] ∧ p' ++ q' = String.utf8EncodeChar c ∧
      p = bytes x ++ p' ∧ q = q' ++ bytes y := by
  induction s generalizing p with
  | nil =>
    obtain ⟨rfl, rfl⟩ := List.append_eq_nil_iff.mp h
    exact Or.inl ⟨[], [], rfl, rfl, rfl⟩
  | cons c s ih =>
    rw [bytes_cons, append_eq_append_iff] at h
    rcases h with ⟨q', hc, hq⟩ | ⟨p', hp, hs⟩
    · by_cases hp : p = []
      · subst hp
        refine Or.inl ⟨[], c :: s, rfl, rfl, ?_⟩
        rw [bytes_cons, hq, hc, nil_append]
      · by_cases hq' : q' = []
        · subst hq'
          refine Or.inl ⟨[c], s, rfl, ?_, hq⟩
          rw [bytes_cons, bytes_nil, hc]
          simp
        · exact Or.inr ⟨[], c, s, p, q', rfl, hp, hq', hc.symm, rfl, hq⟩
    · rcases ih hs.symm with ⟨x, y, rfl, rfl, rfl⟩ | ⟨x, d, y, p₁, q₁, rfl, h₁, h₂, h₃, rfl, rfl⟩
      · exact Or.inl ⟨c :: x, y, rfl, hp, rfl⟩
      · refine Or.inr ⟨c :: x, d, y, p₁, q₁, rfl, h₁, h₂, h₃, ?_, rfl⟩
        rw [hp, bytes_cons, append_assoc]

/-! ### Pieces of characters -/

/-- The bytes of a character with more than one of them. -/
theorem not_lt_of_mem_encode {c : Char} (h : 1 < (String.utf8EncodeChar c).length) {b : UInt8}
    (hb : b ∈ String.utf8EncodeChar c) : ¬ b < 128 := by
  have high : ∀ n : Nat, n < 256 → 128 ≤ n → ¬ UInt8.ofNat n < 128 := by
    intro n hn hle hlt
    rw [UInt8.lt_iff_toNat_lt, UInt8.toNat_ofNat', Nat.mod_eq_of_lt (by simpa using hn)] at hlt
    exact Nat.not_lt.mpr hle hlt
  rw [String.utf8EncodeChar] at h hb
  split at hb
  · next hascii =>
    rw [if_pos hascii] at h
    exact absurd h (Nat.lt_irrefl 1)
  · -- two, three or four bytes, each at least 128
    split at hb
    · simp only [mem_cons, not_mem_nil, or_false] at hb
      rcases hb with rfl | rfl
      all_goals exact high _ (by omega) (by omega)
    · split at hb
      · simp only [mem_cons, not_mem_nil, or_false] at hb
        rcases hb with rfl | rfl | rfl
        all_goals exact high _ (by omega) (by omega)
      · simp only [mem_cons, not_mem_nil, or_false] at hb
        rcases hb with rfl | rfl | rfl | rfl
        all_goals exact high _ (by omega) (by omega)

/-- Bytes that are not ASCII are not read as ASCII. -/
theorem not_mem_fromUtf8Lossy {bs : List UInt8} (h : ∀ b ∈ bs, ¬ b < 128) {c : Char} {b : UInt8}
    (hc : String.utf8EncodeChar c = [b]) (hb : b < 128) : c ∉ fromUtf8Lossy bs := by
  have hscan : ∀ n, some c ∉ scan n bs := by
    induction bs with
    | nil =>
      intro n
      rw [scan_nil]
      exact not_mem_nil
    | cons b' bs ih =>
      have hrest := ih fun x hx => h x (mem_cons_of_mem _ hx)
      intro n hmem
      cases n with
      | succ n => exact hrest n hmem
      | zero =>
        rw [scan] at hmem
        split at hmem
        · next d hd =>
          rcases List.mem_cons.mp hmem with hcd | hmem
          · cases hcd
            obtain ⟨rest, hrest⟩ := eq_encode_append_of_decodeFirst hd
            rw [hc] at hrest
            exact h b' mem_cons_self ((List.cons.inj hrest).1 ▸ hb)
          · exact hrest _ hmem
        · rcases List.mem_cons.mp hmem with hcd | hmem
          · cases hcd
          · exact hrest _ hmem
  intro hmem
  obtain ⟨o, ho, hoc⟩ := List.mem_map.mp hmem
  cases o with
  | some d =>
    obtain rfl : d = c := hoc
    exact hscan 0 ho
  | none =>
    obtain rfl : '\uFFFD' = c := hoc
    have hlength : (String.utf8EncodeChar '\uFFFD').length = 3 := by decide
    rw [hc] at hlength
    cases hlength

theorem fromUtf8Lossy_ne_nil {bs : List UInt8} (h : bs ≠ []) : fromUtf8Lossy bs ≠ [] := by
  obtain ⟨b, bs, rfl⟩ := exists_cons_of_ne_nil h
  rw [fromUtf8Lossy, scan]
  split <;> exact cons_ne_nil _ _

end QwenStack.Str
