import Mathlib.Data.List.Basic

/-!
# Support — UTF-8 text

A text is its list of characters.  `bytes` is its UTF-8 encoding, and `sliceFrom`, `sliceTo` are
the two halves of a slice at a byte offset: `none` where the offset is past the end or inside a
character, which is where such a slice panics.

`lcpLen` is the length of the longest common prefix of two lists.  On texts whose common bytes
are ASCII it is the same count over bytes and over characters (`lcpLen_bytes`).
-/

namespace QwenStack

open List

/-- A text, as its characters. -/
abbrev Str := List Char

-- the comparison of texts as keys is the one `DecidableEq` gives, as for keys of any type
instance : BEq Str := instBEqOfDecidableEq

instance : LawfulBEq Str := instLawfulBEq

/-! ### The longest common prefix -/

/-- The length of the longest common prefix. -/
def lcpLen {α : Type*} [DecidableEq α] : List α → List α → Nat
  | a :: as, b :: bs => if a = b then lcpLen as bs + 1 else 0
  | _, _ => 0

section Lcp
variable {α : Type*} [DecidableEq α]

@[simp] theorem lcpLen_nil_left (l : List α) : lcpLen [] l = 0 := by cases l <;> rfl

@[simp] theorem lcpLen_nil_right (l : List α) : lcpLen l [] = 0 := by cases l <;> rfl

theorem lcpLen_cons (a b : α) (as bs : List α) :
    lcpLen (a :: as) (b :: bs) = if a = b then lcpLen as bs + 1 else 0 := rfl

theorem lcpLen_le_left : ∀ l l' : List α, lcpLen l l' ≤ l.length
  | [], _ => by simp
  | _ :: _, [] => by simp
  | a :: as, b :: bs => by
      rw [lcpLen_cons]
      have := lcpLen_le_left as bs
      split <;> simp [this]

theorem lcpLen_le_right : ∀ l l' : List α, lcpLen l l' ≤ l'.length
  | [], _ => by simp
  | _ :: _, [] => by simp
  | a :: as, b :: bs => by
      rw [lcpLen_cons]
      have := lcpLen_le_right as bs
      split <;> simp [this]

theorem take_lcpLen : ∀ l l' : List α, l.take (lcpLen l l') = l'.take (lcpLen l l')
  | [], _ => by simp
  | _ :: _, [] => by simp
  | a :: as, b :: bs => by
      rw [lcpLen_cons]
      split
      · next h => rw [h, take_succ_cons, take_succ_cons, take_lcpLen as bs]
      · rfl

/-- A common prefix is no longer than `lcpLen`. -/
theorem le_lcpLen_of_isPrefix : ∀ {p l l' : List α}, p <+: l → p <+: l' → p.length ≤ lcpLen l l'
  | [], _, _, _, _ => Nat.zero_le _
  | x :: p, l, l', h, h' => by
      obtain ⟨m, rfl⟩ := h
      obtain ⟨m', rfl⟩ := h'
      have := le_lcpLen_of_isPrefix (prefix_append p m) (prefix_append p m')
      rw [cons_append, cons_append, lcpLen_cons, if_pos rfl]
      simpa using this

/-- Two texts that start with the same character share it. -/
theorem lcpLen_pos {l l' : List α} {c : α} (h : l.head? = some c) (h' : l'.head? = some c) :
    0 < lcpLen l l' := by
  cases l with
  | nil => simp at h
  | cons a as =>
    cases l' with
    | nil => simp at h'
    | cons b bs =>
      simp only [List.head?_cons, Option.some.injEq] at h h'
      rw [lcpLen_cons, if_pos (h.trans h'.symm)]
      omega

/-- `iter().zip(..).take_while(==).count()`. -/
theorem length_takeWhile_zip : ∀ l l' : List α,
    ((l.zip l').takeWhile fun p => decide (p.1 = p.2)).length = lcpLen l l'
  | [], _ => by simp
  | _ :: _, [] => by simp
  | a :: as, b :: bs => by
      rw [lcpLen_cons, zip_cons_cons, takeWhile_cons]
      have := length_takeWhile_zip as bs
      by_cases h : a = b <;> simp [h, this]

/-- `iter().zip(..).position(!=)`, with the shorter length when nothing differs. -/
theorem findIdx_zip : ∀ l l' : List α,
    ((l.zip l').findIdx? fun p => decide (p.1 ≠ p.2)).getD (min l.length l'.length) = lcpLen l l'
  | [], _ => by simp
  | _ :: _, [] => by simp
  | a :: as, b :: bs => by
      rw [lcpLen_cons, zip_cons_cons, List.findIdx?_cons]
      have ih := findIdx_zip as bs
      by_cases h : a = b
      · simp only [h, ne_eq, not_true, decide_false, Bool.false_eq_true, if_false, if_true]
        rw [← ih]
        cases (as.zip bs).findIdx? fun p => decide (p.1 ≠ p.2) with
        | none => simp [Nat.succ_min_succ]
        | some i => simp
      · simp [h]

end Lcp

/-! ### Bytes -/

namespace Str

/-- The UTF-8 encoding. -/
def bytes (s : Str) : List UInt8 := s.flatMap String.utf8EncodeChar

/-- `s.len()`. -/
def byteLen (s : Str) : Nat := (bytes s).length

/-- `[u8]::is_ascii`. -/
def isAscii (bs : List UInt8) : Bool := bs.all fun b => decide (b < 128)

/-- `s.char_indices()`, from byte offset `i`. -/
def charIndices : Nat → Str → List (Nat × Char)
  | _, [] => []
  | i, c :: s => (i, c) :: charIndices (i + c.utf8Size) s

/-- `&s[n..]`. -/
def sliceFrom : Str → Nat → Option Str
  | s, 0 => some s
  | [], _ + 1 => none
  | c :: s, n + 1 => if c.utf8Size ≤ n + 1 then sliceFrom s (n + 1 - c.utf8Size) else none

/-- `&s[..n]`. -/
def sliceTo : Str → Nat → Option Str
  | _, 0 => some []
  | [], _ + 1 => none
  | c :: s, n + 1 =>
      if c.utf8Size ≤ n + 1 then (sliceTo s (n + 1 - c.utf8Size)).map (c :: ·) else none

@[simp] theorem bytes_nil : bytes [] = [] := rfl

@[simp] theorem bytes_cons (c : Char) (s : Str) :
    bytes (c :: s) = String.utf8EncodeChar c ++ bytes s := rfl

@[simp] theorem byteLen_nil : byteLen [] = 0 := rfl

@[simp] theorem byteLen_cons (c : Char) (s : Str) : byteLen (c :: s) = c.utf8Size + byteLen s := by
  simp [byteLen]

theorem length_le_byteLen : ∀ s : Str, s.length ≤ byteLen s
  | [] => by simp
  | c :: s => by
      have := length_le_byteLen s
      have := c.utf8Size_pos
      simp only [length_cons, byteLen_cons]
      omega

/-- A character is one ASCII byte, or its first byte is not ASCII. -/
theorem encode_ascii_or (c : Char) : (∃ b : UInt8, String.utf8EncodeChar c = [b] ∧ b < 128) ∨
      ∃ b bs, String.utf8EncodeChar c = b :: bs ∧ ¬ b < 128 := by
  have key : ∀ n : Nat, n < 256 → (UInt8.ofNat n < 128 ↔ n < 128) := by
    intro n hn
    rw [UInt8.lt_iff_toNat_lt, UInt8.toNat_ofNat', Nat.mod_eq_of_lt (by simpa using hn)]
    rfl
  rw [String.utf8EncodeChar]
  split
  · next h => exact .inl ⟨_, rfl, (key _ (by omega)).mpr (by omega)⟩
  · right
    split
    · exact ⟨_, _, rfl, fun h => by have := (key _ (by omega)).mp h; omega⟩
    · split
      · exact ⟨_, _, rfl, fun h => by have := (key _ (by omega)).mp h; omega⟩
      · exact ⟨_, _, rfl, fun h => by have := (key _ (by omega)).mp h; omega⟩

theorem utf8EncodeChar_injective_of_singleton {c d : Char} {b : UInt8}
    (hc : String.utf8EncodeChar c = [b]) (hd : String.utf8EncodeChar d = [b]) : c = d := by
  have size : ∀ {e : Char}, String.utf8EncodeChar e = [b] → e.utf8Size = 1 := fun h => by
    rw [← String.length_utf8EncodeChar, h]; rfl
  have toNat : ∀ {e : Char}, String.utf8EncodeChar e = [b] → e.val.toNat = b.toNat := fun {e} h => by
    have hv : e.val ≤ 127 := Char.utf8Size_eq_one_iff.mp (size h)
    rw [String.utf8EncodeChar_eq_singleton (size h)] at h
    rw [← (List.cons.inj h).1, UInt32.toNat_toUInt8, Nat.mod_eq_of_lt]
    have := UInt32.le_iff_toNat_le.mp hv
    have h127 : (127 : UInt32).toNat = 127 := rfl
    omega
  exact Char.ext (UInt32.toNat_inj.mp ((toNat hc).trans (toNat hd).symm))

/-- **Bytes and characters agree on an ASCII common prefix.** -/
theorem lcpLen_bytes : ∀ a b : Str, isAscii ((bytes a).take (lcpLen (bytes a) (bytes b))) = true →
      lcpLen (bytes a) (bytes b) = lcpLen a b
  | [], _, _ => by simp
  | _ :: _, [], _ => by simp
  | c :: a, d :: b, h => by
      rcases encode_ascii_or c with ⟨x, hx, -⟩ | ⟨x, xs, hx, hx'⟩
      · rcases encode_ascii_or d with ⟨y, hy, -⟩ | ⟨y, ys, hy, hy'⟩
        · simp only [bytes_cons, hx, hy, singleton_append, lcpLen_cons] at h ⊢
          by_cases e : x = y
          · subst e
            have hcd := utf8EncodeChar_injective_of_singleton hx hy
            rw [if_pos rfl, take_succ_cons] at h
            rw [if_pos rfl, if_pos hcd, lcpLen_bytes a b]
            simp only [isAscii, all_cons, Bool.and_eq_true] at h
            exact h.2
          · rw [if_neg e, if_neg]
            rintro rfl
            exact e (List.cons.inj (hx.symm.trans hy)).1
        · -- the first bytes differ, or the common one is not ASCII
          simp only [bytes_cons, hx, hy, cons_append, lcpLen_cons] at h ⊢
          by_cases e : x = y
          · subst e
            rw [if_pos rfl, take_succ_cons] at h
            simp [isAscii, hy'] at h
          · rw [if_neg e, if_neg]
            rintro rfl
            exact e (List.cons.inj (hx.symm.trans hy)).1
      · simp only [bytes_cons, hx, cons_append] at h ⊢
        obtain ⟨y, ys, hy⟩ : ∃ y ys, String.utf8EncodeChar d = y :: ys :=
          exists_cons_of_ne_nil String.utf8EncodeChar_ne_nil
        simp only [hy, cons_append, lcpLen_cons] at h ⊢
        by_cases e : x = y
        · subst e
          rw [if_pos rfl, take_succ_cons] at h
          simp [isAscii, hx'] at h
        · rw [if_neg e, if_neg]
          rintro rfl
          exact e (List.cons.inj (hx.symm.trans hy)).1

/-- `n` ASCII bytes are `n` characters. -/
theorem byteLen_take_of_isAscii : ∀ (s : Str) (n : Nat), n ≤ byteLen s →
    isAscii ((bytes s).take n) = true → byteLen (s.take n) = n
  | _, 0, _, _ => by simp
  | [], n + 1, h, _ => by simp at h
  | c :: s, n + 1, h, ha => by
      rcases encode_ascii_or c with ⟨x, hx, -⟩ | ⟨x, xs, hx, hx'⟩
      · have hsize : c.utf8Size = 1 := by rw [← String.length_utf8EncodeChar, hx]; rfl
        rw [bytes_cons, hx, singleton_append, take_succ_cons] at ha
        simp only [isAscii, all_cons, Bool.and_eq_true] at ha
        rw [byteLen_cons, hsize] at h
        rw [take_succ_cons, byteLen_cons, hsize, byteLen_take_of_isAscii s n (by omega) ha.2]
        omega
      · rw [bytes_cons, hx, cons_append, take_succ_cons] at ha
        simp [isAscii, hx'] at ha

/-! ### Slices at character boundaries -/

theorem sliceFrom_byteLen_take : ∀ (s : Str) (n : Nat),
    sliceFrom s (byteLen (s.take n)) = some (s.drop n)
  | s, 0 => by simp [sliceFrom]
  | [], n + 1 => by simp [sliceFrom]
  | c :: s, n + 1 => by
      have hpos := c.utf8Size_pos
      rw [take_succ_cons, byteLen_cons, drop_succ_cons]
      obtain ⟨m, hm⟩ : ∃ m, c.utf8Size + byteLen (s.take n) = m + 1 :=
        ⟨c.utf8Size + byteLen (s.take n) - 1, by omega⟩
      rw [hm, sliceFrom, if_pos (by omega), show m + 1 - c.utf8Size = byteLen (s.take n) from by omega]
      exact sliceFrom_byteLen_take s n

theorem sliceTo_byteLen_take : ∀ (s : Str) (n : Nat),
    sliceTo s (byteLen (s.take n)) = some (s.take n)
  | s, 0 => by simp [sliceTo]
  | [], n + 1 => by simp [sliceTo]
  | c :: s, n + 1 => by
      have hpos := c.utf8Size_pos
      rw [take_succ_cons, byteLen_cons]
      obtain ⟨m, hm⟩ : ∃ m, c.utf8Size + byteLen (s.take n) = m + 1 :=
        ⟨c.utf8Size + byteLen (s.take n) - 1, by omega⟩
      rw [hm, sliceTo, if_pos (by omega),
        show m + 1 - c.utf8Size = byteLen (s.take n) from by omega, sliceTo_byteLen_take s n]
      rfl

/-- `s.char_indices().nth(n)` is the byte offset of the `n`-th character. -/
theorem charIndices_getElem? : ∀ (i : Nat) (s : Str) (n : Nat),
    (charIndices i s)[n]? = (s[n]?).map fun c => (i + byteLen (s.take n), c)
  | _, [], _ => by simp [charIndices]
  | i, c :: s, 0 => by simp [charIndices]
  | i, c :: s, n + 1 => by
      simp only [charIndices, List.getElem?_cons_succ, charIndices_getElem? _ s n,
        take_succ_cons, byteLen_cons, Nat.add_assoc]

end Str

end QwenStack
