import QwenStack.Support.Decode

/-!
# Support — where bytes may be cut

Bytes are read by `fromUtf8Lossy` in units: a character, or a sequence that is not valid.  `cuts 0 a b` says
that no unit of `a ++ b` has bytes of both.  Then the two parts are read as they are together
(`fromUtf8Lossy_append`); otherwise they give more characters apart (`length_append_lt`), since the bytes of a
unit after its first begin no unit.

`Aligned` says the same of many parts, and `flatMap_fromUtf8Lossy_iff` that they are read apart as together
exactly if they are aligned.
-/

namespace QwenStack.Str

open List

/-- How many bytes are read together at the front. -/
def width (bs : List UInt8) : Nat :=
  match decodeFirst bs with
  | some c => c.utf8Size
  | none => invalidLength bs

/-- No unit has bytes of both parts; `n` bytes of the unit before are still to come. -/
def cuts : Nat → List UInt8 → List UInt8 → Bool
  | n, [], _ => decide (n = 0)
  | n + 1, _ :: a, b => cuts n a b
  | 0, x :: a, b => cuts (width (x :: (a ++ b)) - 1) a b

/-- No unit of all the parts together has bytes of two of them. -/
def Aligned (parts : List (List UInt8)) : Prop :=
  ∀ first rest, parts = first ++ rest → cuts 0 first.flatten rest.flatten = true

/-- A byte that is not the first of a character. -/
def IsTail (b : UInt8) : Prop := 128 ≤ b.toNat ∧ b.toNat ≤ 191

/-! ### Units -/

theorem isTail_ofNat (n : Nat) : IsTail (UInt8.ofNat (n % 64 + 128)) := by
  rw [IsTail, UInt8.toNat_ofNat']
  omega

theorem not_isTail_ofNat {n : Nat} (h : n ≤ 127 ∨ 192 ≤ n ∧ n < 256) : ¬ IsTail (UInt8.ofNat n) := by
  rw [IsTail, UInt8.toNat_ofNat']
  omega

/-- The first byte of a character begins it, the others do not. -/
theorem utf8EncodeChar_eq_cons (c : Char) :
    ∃ b l, String.utf8EncodeChar c = b :: l ∧ ¬ IsTail b ∧ ∀ x ∈ l, IsTail x := by
  rw [String.utf8EncodeChar]
  split
  · exact ⟨_, [], rfl, not_isTail_ofNat (.inl ‹_›), by simp⟩
  · split
    · refine ⟨_, _, rfl, not_isTail_ofNat (by omega), List.forall_mem_cons.mpr ⟨isTail_ofNat _, by simp⟩⟩
    · split
      · refine ⟨_, _, rfl, not_isTail_ofNat (by omega), List.forall_mem_cons.mpr ⟨isTail_ofNat _, ?_⟩⟩
        exact List.forall_mem_cons.mpr ⟨isTail_ofNat _, by simp⟩
      · refine ⟨_, _, rfl, not_isTail_ofNat (by omega), List.forall_mem_cons.mpr ⟨isTail_ofNat _, ?_⟩⟩
        refine List.forall_mem_cons.mpr ⟨isTail_ofNat _, ?_⟩
        exact List.forall_mem_cons.mpr ⟨isTail_ofNat _, by simp⟩

theorem isTail_of_le {x : UInt8} (h : 0x80 ≤ x) (h' : x ≤ 0xbf) : IsTail x :=
  ⟨UInt8.le_iff_toNat_le.mp h, UInt8.le_iff_toNat_le.mp h'⟩

/-- What may come second is no first byte, and what it may follow is one. -/
theorem isTail_of_secondOk {b x : UInt8} (h : secondOk b x = true) : IsTail x ∧ ¬ IsTail b := by
  rw [secondOk] at h
  split_ifs at h with he0 hed hf0 hf4
  all_goals simp only [Bool.and_eq_true, decide_eq_true_eq, UInt8.le_iff_toNat_le] at h
  · subst he0
    simp [IsTail] at h ⊢
    omega
  · subst hed
    simp [IsTail] at h ⊢
    omega
  · subst hf0
    simp [IsTail] at h ⊢
    omega
  · subst hf4
    simp [IsTail] at h ⊢
    omega
  · simp [IsTail] at h ⊢
    omega

/-! ### Widths -/

theorem width_of_encode (c : Char) (rest : List UInt8) :
    width (String.utf8EncodeChar c ++ rest) = (String.utf8EncodeChar c).length := by
  rw [width, decodeFirst_encode_append, String.length_utf8EncodeChar]

theorem invalidLength_pos (bs : List UInt8) : 0 < invalidLength bs := by
  unfold invalidLength
  split
  · split
    · split <;> decide
    · decide
  · split <;> decide
  · decide

theorem width_pos (bs : List UInt8) : 0 < width bs := by
  unfold width
  split
  · exact Char.utf8Size_pos _
  · exact invalidLength_pos bs

/-- A unit is a character or is not valid. -/
theorem width_cases (b : UInt8) (bs : List UInt8) :
    (∃ c l rest, String.utf8EncodeChar c = b :: l ∧ bs = l ++ rest ∧ width (b :: bs) = l.length + 1) ∨
      decodeFirst (b :: bs) = none ∧ width (b :: bs) = invalidLength (b :: bs) := by
  cases hfirst : decodeFirst (b :: bs) with
  | none =>
    right
    rw [width, hfirst]
    exact ⟨rfl, rfl⟩
  | some c =>
    left
    obtain ⟨rest, hrest⟩ := eq_encode_append_of_decodeFirst hfirst
    obtain ⟨b', l, hencode, -, -⟩ := utf8EncodeChar_eq_cons c
    rw [hencode, cons_append] at hrest
    cases hrest
    refine ⟨c, l, rest, hencode, rfl, ?_⟩
    rw [← cons_append, ← hencode, width_of_encode, hencode, length_cons]

/-- The bytes of a unit after its first. -/
theorem tails_of_width (b : UInt8) (bs : List UInt8) :
    width (b :: bs) - 1 ≤ bs.length ∧ ∀ x ∈ bs.take (width (b :: bs) - 1), IsTail x := by
  rcases width_cases b bs with ⟨c, l, rest, hencode, rfl, hwidth⟩ | ⟨-, hwidth⟩
  · obtain ⟨b', l', hencode', -, htails⟩ := utf8EncodeChar_eq_cons c
    obtain ⟨rfl, rfl⟩ := List.cons.inj (hencode.symm.trans hencode')
    rw [hwidth, Nat.add_sub_cancel, take_left]
    exact ⟨by simp, htails⟩
  · rw [hwidth]
    unfold invalidLength
    split
    · next b' x y rest heq =>
      cases heq
      split
      · next hsecond =>
        split
        · next hthird =>
          refine ⟨by simp, List.forall_mem_cons.mpr ⟨(isTail_of_secondOk hsecond).1, ?_⟩⟩
          exact List.forall_mem_cons.mpr ⟨isTail_of_le hthird.2.1 hthird.2.2, by simp⟩
        · exact ⟨by simp, List.forall_mem_cons.mpr ⟨(isTail_of_secondOk hsecond).1, by simp⟩⟩
      · exact ⟨by simp, by simp⟩
    · next b' x heq =>
      cases heq
      split
      · next hsecond => exact ⟨by simp, List.forall_mem_cons.mpr ⟨(isTail_of_secondOk hsecond).1, by simp⟩⟩
      · exact ⟨by simp, by simp⟩
    · exact ⟨by simp, by simp⟩

/-- A byte that begins no character is a unit. -/
theorem of_isTail {b : UInt8} (hb : IsTail b) (bs : List UInt8) :
    decodeFirst (b :: bs) = none ∧ width (b :: bs) = 1 := by
  rcases width_cases b bs with ⟨c, l, rest, hencode, -, -⟩ | ⟨hnone, hwidth⟩
  · obtain ⟨b', l', hencode', hfirst, -⟩ := utf8EncodeChar_eq_cons c
    obtain ⟨rfl, rfl⟩ := List.cons.inj (hencode.symm.trans hencode')
    exact absurd hb hfirst
  · refine ⟨hnone, hwidth.trans ?_⟩
    have hnot : ∀ x, ¬ secondOk b x = true := fun x h => (isTail_of_secondOk h).2 hb
    unfold invalidLength
    split
    · next b' x y rest heq =>
      cases heq
      rw [if_neg (hnot x)]
    · next b' x heq =>
      cases heq
      rw [if_neg (hnot x)]
    · rfl

/-- A unit is read as it is when nothing follows. -/
theorem width_append {x : UInt8} {a b : List UInt8} (h : width (x :: (a ++ b)) ≤ a.length + 1) :
    decodeFirst (x :: a) = decodeFirst (x :: (a ++ b)) ∧ width (x :: a) = width (x :: (a ++ b)) := by
  rcases width_cases x (a ++ b) with ⟨c, l, rest, hencode, hrest, hwidth⟩ | ⟨hnone, hwidth⟩
  · rw [hwidth] at h
    obtain ⟨a', rfl⟩ : ∃ a', a = l ++ a' := by
      have hprefix : l <+: a := prefix_of_prefix_length_le ⟨rest, hrest.symm⟩ (prefix_append a b)
        (by omega)
      obtain ⟨a', ha'⟩ := hprefix
      exact ⟨a', ha'.symm⟩
    rw [hwidth, append_assoc, ← cons_append, ← cons_append, ← hencode,
      decodeFirst_encode_append, decodeFirst_encode_append, width_of_encode, hencode, length_cons]
    exact ⟨rfl, rfl⟩
  · have hnone' : decodeFirst (x :: a) = none := by
      cases hfirst : decodeFirst (x :: a) with
      | none => rfl
      | some c =>
        obtain ⟨rest, hrest⟩ := eq_encode_append_of_decodeFirst hfirst
        rw [← cons_append, hrest, append_assoc, decodeFirst_encode_append] at hnone
        cases hnone
    refine ⟨hnone'.trans hnone.symm, ?_⟩
    rw [hwidth] at h ⊢
    rw [width, hnone']
    dsimp only
    cases a with
    | nil =>
      have hpos := invalidLength_pos (x :: ([] ++ b))
      have hone : invalidLength [x] = 1 := rfl
      rw [length_nil] at h
      omega
    | cons y a =>
      cases a with
      | cons z a => rfl
      | nil =>
        cases b with
        | nil => rfl
        | cons z b =>
          have htwo : invalidLength [x, y] = if secondOk x y = true then 2 else 1 := rfl
          have hthree : invalidLength (x :: ([y] ++ z :: b)) =
              if secondOk x y = true then if 0xf0 ≤ x ∧ 0x80 ≤ z ∧ z ≤ 0xbf then 3 else 2 else 1 := rfl
          rw [hthree, length_singleton] at h
          rw [htwo, hthree]
          split
          · next hsecond =>
            rw [if_pos hsecond] at h
            split
            · next hthird =>
              rw [if_pos hthird] at h
              omega
            · rfl
          · rfl

/-! ### Two parts -/

theorem scan_cons (x : UInt8) (bs : List UInt8) :
    scan 0 (x :: bs) = decodeFirst (x :: bs) :: scan (width (x :: bs) - 1) bs := by
  rw [scan, width]
  cases decodeFirst (x :: bs) <;> rfl

theorem scan_add (l bs : List UInt8) (k : Nat) : scan (l.length + k) (l ++ bs) = scan k bs := by
  induction l with
  | nil => rw [length_nil, Nat.zero_add, nil_append]
  | cons b l ih => rw [length_cons, Nat.add_right_comm, cons_append, scan, ih]

theorem le_length_of_cuts {n : Nat} {a b : List UInt8} (h : cuts n a b = true) : n ≤ a.length := by
  induction a generalizing n with
  | nil => exact Nat.le_of_eq (of_decide_eq_true h)
  | cons x a ih =>
    cases n with
    | zero => exact Nat.zero_le _
    | succ n => exact Nat.succ_le_succ (ih h)

/-- **Parts that no unit is cut by** are read apart. -/
theorem scan_append_of_cuts {n : Nat} {a b : List UInt8} (h : cuts n a b = true) :
    scan n (a ++ b) = scan n a ++ scan 0 b := by
  induction a generalizing n with
  | nil =>
    obtain rfl : n = 0 := of_decide_eq_true h
    rw [scan_nil, nil_append, nil_append]
  | cons x a ih =>
    cases n with
    | succ n => exact ih h
    | zero =>
      rw [cuts] at h
      have hpos := width_pos (x :: (a ++ b))
      have hle := le_length_of_cuts h
      obtain ⟨hfirst, hwidth⟩ := width_append (by omega : width (x :: (a ++ b)) ≤ a.length + 1)
      rw [cons_append, scan_cons, scan_cons, ih h, hfirst, hwidth, cons_append]

/-- Bytes that begin no character are units. -/
theorem length_scan_tails {first : List UInt8} (h : ∀ x ∈ first, IsTail x) (bs : List UInt8) :
    (scan 0 (first ++ bs)).length = first.length + (scan 0 bs).length := by
  induction first with
  | nil => simp
  | cons x first ih =>
    obtain ⟨hx, hfirst⟩ := List.forall_mem_cons.mp h
    rw [cons_append, scan_cons, (of_isTail hx _).2, length_cons, length_cons, ih hfirst]
    omega

/-- Inside a unit there is more to read than from its end. -/
theorem length_scan_lt {n : Nat} (hn : 0 < n) {bs : List UInt8} (hle : n ≤ bs.length)
    (htails : ∀ x ∈ bs.take n, IsTail x) : (scan n bs).length < (scan 0 bs).length := by
  have hfirst := length_scan_tails htails (bs.drop n)
  have hrest := scan_length_append (bs.take n) (bs.drop n)
  rw [length_take_of_le hle, take_append_drop] at hrest
  rw [length_take_of_le hle, take_append_drop] at hfirst
  rw [hrest, hfirst]
  omega

/-- **A unit that is cut** is read as more than one. -/
theorem length_scan_append_lt {n : Nat} {a b : List UInt8} (hle : n ≤ (a ++ b).length)
    (htails : ∀ x ∈ (a ++ b).take n, IsTail x) (h : cuts n a b = false) :
    (scan n (a ++ b)).length < (scan n a).length + (scan 0 b).length := by
  induction a generalizing n with
  | nil =>
    have hn : 0 < n := Nat.pos_of_ne_zero (of_decide_eq_false h)
    rw [scan_nil, length_nil, Nat.zero_add]
    exact length_scan_lt hn hle htails
  | cons x a ih =>
    cases n with
    | succ n =>
      refine ih (Nat.le_of_succ_le_succ hle) ?_ h
      intro y hy
      exact htails y (mem_cons_of_mem x hy)
    | zero =>
      rw [cuts] at h
      obtain ⟨hle', htails'⟩ := tails_of_width x (a ++ b)
      have hpos := width_pos (x :: (a ++ b))
      rw [cons_append, scan_cons, scan_cons, length_cons, length_cons]
      by_cases hwidth : width (x :: (a ++ b)) ≤ a.length + 1
      · have hlt := ih hle' htails' h
        rw [(width_append hwidth).2]
        omega
      · -- the unit has bytes of both parts, and ends `k` bytes after the cut
        obtain ⟨k, hk⟩ := Nat.exists_eq_add_of_lt (Nat.not_le.mp hwidth)
        have hn : width (x :: (a ++ b)) - 1 = a.length + (k + 1) := by omega
        rw [hn] at hle' htails' ⊢
        rw [scan_add]
        have hlt : (scan (k + 1) b).length < (scan 0 b).length := by
          refine length_scan_lt (Nat.succ_pos k) ?_ ?_
          · rw [length_append] at hle'
            omega
          · intro y hy
            refine htails' y ?_
            rw [take_append, Nat.add_sub_cancel_left]
            exact mem_append_right _ hy
        omega

/-- The units of bytes that are cut, once the first part is read. -/
theorem cuts_append {n : Nat} {a b c : List UInt8} (h : cuts n a (b ++ c) = true) :
    cuts n (a ++ b) c = cuts 0 b c := by
  induction a generalizing n with
  | nil =>
    obtain rfl : n = 0 := of_decide_eq_true h
    rfl
  | cons x a ih =>
    cases n with
    | succ n => exact ih h
    | zero =>
      rw [cuts] at h
      rw [cons_append, cuts, append_assoc]
      exact ih h

section Parts
variable {a b : List UInt8}

theorem fromUtf8Lossy_append (h : cuts 0 a b = true) :
    fromUtf8Lossy (a ++ b) = fromUtf8Lossy a ++ fromUtf8Lossy b := by
  rw [fromUtf8Lossy, scan_append_of_cuts h, map_append]
  rfl

theorem length_append_lt (h : cuts 0 a b = false) :
    (fromUtf8Lossy (a ++ b)).length < (fromUtf8Lossy a).length + (fromUtf8Lossy b).length := by
  simp only [fromUtf8Lossy, length_map]
  exact length_scan_append_lt (Nat.zero_le _) (by simp) h

theorem length_append_le (a b : List UInt8) :
    (fromUtf8Lossy (a ++ b)).length ≤ (fromUtf8Lossy a).length + (fromUtf8Lossy b).length := by
  cases h : cuts 0 a b with
  | true => exact Nat.le_of_eq (by rw [fromUtf8Lossy_append h, length_append])
  | false => exact Nat.le_of_lt (length_append_lt h)

end Parts

/-! ### Many parts -/

theorem aligned_nil : Aligned [] := by
  intro first rest hsplit
  obtain ⟨rfl, rfl⟩ := List.append_eq_nil_iff.mp hsplit.symm
  rfl

theorem aligned_cons {part : List UInt8} {parts : List (List UInt8)} :
    Aligned (part :: parts) ↔ cuts 0 part parts.flatten = true ∧ Aligned parts := by
  constructor
  · intro h
    have hpart : cuts 0 part parts.flatten = true := by simpa using h [part] parts rfl
    refine ⟨hpart, ?_⟩
    intro first rest hsplit
    have hfirst := h (part :: first) rest (by rw [hsplit, cons_append])
    rw [hsplit, flatten_append] at hpart
    rwa [flatten_cons, cuts_append hpart] at hfirst
  · rintro ⟨hpart, hparts⟩ first rest hsplit
    cases first with
    | nil => rfl
    | cons part' first =>
      obtain ⟨rfl, hrest⟩ := List.cons.inj hsplit
      change parts = first ++ rest at hrest
      rw [hrest, flatten_append] at hpart
      rw [flatten_cons, cuts_append hpart]
      exact hparts first rest hrest

theorem length_flatten_le (parts : List (List UInt8)) :
    (fromUtf8Lossy parts.flatten).length ≤ (parts.flatMap fromUtf8Lossy).length := by
  induction parts with
  | nil => exact Nat.le_refl _
  | cons part parts ih =>
    rw [flatten_cons, flatMap_cons, length_append]
    exact Nat.le_trans (length_append_le part parts.flatten) (Nat.add_le_add_left ih _)

/-- **Parts are read apart as together** exactly if no unit is cut. -/
theorem flatMap_fromUtf8Lossy_iff {parts : List (List UInt8)} :
    parts.flatMap fromUtf8Lossy = fromUtf8Lossy parts.flatten ↔ Aligned parts := by
  induction parts with
  | nil => exact iff_of_true rfl aligned_nil
  | cons part parts ih =>
    rw [aligned_cons, ← ih, flatMap_cons, flatten_cons]
    cases hpart : cuts 0 part parts.flatten with
    | true => rw [fromUtf8Lossy_append hpart, append_cancel_left_eq, and_iff_right rfl]
    | false =>
      refine iff_of_false ?_ fun h => Bool.false_ne_true h.1
      intro heq
      have hlength := congrArg List.length heq
      have hlt := length_append_lt hpart
      have hle := length_flatten_le parts
      rw [length_append] at hlength
      omega

end QwenStack.Str
