import Mathlib.Data.List.Basic
import Mathlib.Data.List.Infix

/-!
# Support — markers in a text

A marker is a nonempty word that a parser looks for in a text that arrives in pieces.  The
markers here have their first letter nowhere else (`Marked`), as those have that open with an
angle bracket: two occurrences of such markers never overlap, so a text splits at its first
occurrence (`exists_first`, `find_append`) and at its last (`exists_last`, `rfind_append`).

`Covers` is what a parser keeps when it gives out the part `e` of a text and holds back `b`: each
end of the text that begins a marker lies in `b`.  A marker that a further piece completes then
lies in `b` and the piece (`Covers.infix_iff`), and none is cut by what has been given out.
-/

namespace QwenStack.Marker

open List

variable {α : Type*} [DecidableEq α]

/-! ### Searching -/

/-- The position of the first occurrence of a word. -/
def find (tok : List α) : List α → Option Nat
  | [] => if tok <+: [] then some 0 else none
  | a :: s => if tok <+: a :: s then some 0 else (find tok s).map (· + 1)

/-- The position of the last occurrence of a word. -/
def rfind (tok : List α) : List α → Option Nat
  | [] => if tok <+: [] then some 0 else none
  | a :: s =>
      match rfind tok s with
      | some i => some (i + 1)
      | none => if tok <+: a :: s then some 0 else none

/-- The text without the first occurrence of a word. -/
def eraseOnce (tok s : List α) : List α :=
  match find tok s with
  | some i => s.take i ++ s.drop (i + tok.length)
  | none => s

theorem find_eq_none {tok : List α} {s : List α} : find tok s = none ↔ ¬ tok <:+: s := by
  induction s with
  | nil => simp [find]
  | cons a s ih =>
    rw [find, infix_cons_iff]
    split
    · rename_i h
      simp [h]
    · rename_i h
      simp [h, ih]

theorem rfind_eq_none {tok : List α} {s : List α} : rfind tok s = none ↔ ¬ tok <:+: s := by
  induction s with
  | nil => simp [rfind]
  | cons a s ih =>
    rw [rfind, infix_cons_iff]
    cases h : rfind tok s with
    | some i => simpa [h] using fun _ => (by simpa [h] using ih : tok <:+: s)
    | none => simp [ih.mp h]

/-- What is found is there. -/
theorem prefix_of_find {tok s : List α} {i : Nat} (h : find tok s = some i) :
    tok <+: s.drop i ∧ i + tok.length ≤ s.length := by
  induction s generalizing i with
  | nil =>
    rw [find] at h
    split at h
    · next hp =>
      cases h
      exact ⟨hp, by simpa using hp.length_le⟩
    · cases h
  | cons a s ih =>
    rw [find] at h
    split at h
    · next hp =>
      cases h
      exact ⟨hp, by simpa using hp.length_le⟩
    · obtain ⟨j, hj, rfl⟩ := Option.map_eq_some_iff.mp h
      obtain ⟨hp, hle⟩ := ih hj
      rw [drop_succ_cons, length_cons]
      exact ⟨hp, by omega⟩

/-- What follows does not matter to what has been found. -/
theorem find_append_of_some {tok s : List α} {i : Nat} (h : find tok s = some i) (e : List α) :
    find tok (s ++ e) = some i := by
  induction s generalizing i with
  | nil =>
    obtain ⟨hp, -⟩ := prefix_of_find h
    obtain rfl : tok = [] := by simpa using hp
    obtain rfl : 0 = i := by simpa [find] using h
    cases e <;> simp [find]
  | cons a s ih =>
    rw [find] at h
    rw [cons_append, find]
    split at h
    · next hp =>
      rw [← h]
      exact if_pos (hp.trans (prefix_append (a :: s) e))
    · next hp =>
      obtain ⟨j, hj, rfl⟩ := Option.map_eq_some_iff.mp h
      have hlen := (prefix_of_find hj).2
      rw [if_neg, ih hj, Option.map_some]
      intro hp'
      refine hp (prefix_of_prefix_length_le hp' (prefix_append (a :: s) e) ?_)
      rw [length_cons]
      omega

/-- One more letter: the word is found if it ends there. -/
theorem find_concat {tok s : List α} (hne : tok ≠ []) (h : find tok s = none) (c : α) :
    find tok (s ++ [c]) = if tok <:+ s ++ [c] then some (s.length + 1 - tok.length) else none := by
  induction s with
  | nil =>
    have hiff : tok <+: [c] ↔ tok <:+ [c] := by
      rw [prefix_cons_iff, suffix_cons_iff]
      simp [hne]
    rw [nil_append, find, find, if_congr hiff rfl rfl]
    have hnil : ¬ tok <+: [] := fun hp => hne (List.prefix_nil.mp hp)
    rw [if_neg hnil, Option.map_none]
    split
    · next hs =>
      have := List.length_pos_iff.mpr hne
      have := hs.length_le
      rw [length_singleton] at this
      rw [length_nil, show 0 + 1 - tok.length = 0 from by omega]
    · rfl
  | cons a s ih =>
    rw [find] at h
    split at h
    · cases h
    · next hp =>
      rw [Option.map_eq_none_iff] at h
      rw [cons_append, find, ih h]
      by_cases hall : tok = a :: (s ++ [c])
      · rw [if_pos (hall ▸ prefix_refl _), if_pos (hall ▸ suffix_refl _), hall]
        simp
      · have hnp : ¬ tok <+: a :: (s ++ [c]) := by
          intro hp'
          rw [← cons_append, prefix_concat_iff] at hp'
          exact hp'.elim hall hp
        have hiff : tok <:+ a :: (s ++ [c]) ↔ tok <:+ s ++ [c] := by
          rw [suffix_cons_iff]
          exact or_iff_right hall
        rw [if_neg hnp, if_congr hiff rfl rfl]
        split
        · next hs =>
          have := hs.length_le
          rw [length_append, length_singleton] at this
          rw [Option.map_some, length_cons]
          congr 1
          omega
        · rfl

section Splits
omit [DecidableEq α]

/-- A text that contains a word splits at its first occurrence. -/
theorem exists_first {tok s : List α} (hne : tok ≠ []) (h : tok <:+: s) :
    ∃ u v, s = u ++ tok ++ v ∧ ¬ tok <:+: u := by
  obtain ⟨u, v, rfl⟩ := h
  induction hn : u.length using Nat.strong_induction_on generalizing u v with
  | _ n ih =>
    by_cases hu : tok <:+: u
    · obtain ⟨u₁, u₂, rfl⟩ := hu
      have hlt : u₁.length < n := by
        have := List.length_pos_iff.mpr hne
        simp only [length_append] at hn
        omega
      simpa only [append_assoc] using ih u₁.length hlt u₁ (u₂ ++ tok ++ v) rfl
    · exact ⟨u, v, rfl, hu⟩

/-- A text that contains a word splits at its last occurrence. -/
theorem exists_last {tok s : List α} (hne : tok ≠ []) (h : tok <:+: s) :
    ∃ u v, s = u ++ tok ++ v ∧ ¬ tok <:+: v := by
  obtain ⟨u, v, rfl⟩ := h
  induction hn : v.length using Nat.strong_induction_on generalizing u v with
  | _ n ih =>
    by_cases hv : tok <:+: v
    · obtain ⟨v₁, v₂, rfl⟩ := hv
      have hlt : v₂.length < n := by
        have := List.length_pos_iff.mpr hne
        simp only [length_append] at hn
        omega
      simpa only [append_assoc] using ih v₂.length hlt (u ++ tok ++ v₁) v₂ rfl
    · exact ⟨u, v, rfl, hv⟩

/-- The first of two words. -/
theorem exists_first_of_two {tok tok' : List α} (hne : tok ≠ []) (hne' : tok' ≠ []) (s : List α) :
    (¬ tok <:+: s ∧ ¬ tok' <:+: s) ∨
      (∃ u v, s = u ++ tok ++ v ∧ ¬ tok <:+: u ∧ ¬ tok' <:+: u) ∨
      (∃ u v, s = u ++ tok' ++ v ∧ ¬ tok <:+: u ∧ ¬ tok' <:+: u) := by
  by_cases h : tok <:+: s
  · obtain ⟨u, v, rfl, hu⟩ := exists_first hne h
    by_cases hu' : tok' <:+: u
    · obtain ⟨p, q, rfl, hp⟩ := exists_first hne' hu'
      refine .inr (.inr ⟨p, q ++ tok ++ v, by simp, fun hi => hu ?_, hp⟩)
      rw [append_assoc]
      exact infix_append_of_infix_left hi
    · exact .inr (.inl ⟨u, v, rfl, hu, hu'⟩)
  · by_cases h' : tok' <:+: s
    · obtain ⟨u, v, rfl, hu⟩ := exists_first hne' h'
      refine .inr (.inr ⟨u, v, rfl, fun hi => h ?_, hu⟩)
      rw [append_assoc]
      exact infix_append_of_infix_left hi
    · exact .inl ⟨h, h'⟩

end Splits

/-! ### Words with a mark -/

/-- The word begins with `a`, which it has nowhere else. -/
structure Marked (a : α) (tok : List α) : Prop where
  head : tok.head? = some a
  tail : a ∉ tok.tail

section Marked
omit [DecidableEq α]
variable {a : α} {tok tok' : List α}

section
variable (h : Marked a tok)
include h

theorem Marked.eq_cons : tok = a :: tok.tail := (List.cons_head?_tail h.head).symm

theorem Marked.append_eq (v : List α) : tok ++ v = a :: (tok.tail ++ v) := by
  rw [← cons_append, ← h.eq_cons]

theorem Marked.ne_nil : tok ≠ [] := by
  rw [h.eq_cons]
  exact cons_ne_nil _ _

/-- A marked word at the front of `x ++ a :: y` lies in `x`. -/
theorem Marked.prefix_of_append {x y : List α} (hx : x ≠ [])
    (hp : tok <+: x ++ a :: y) : tok <+: x := by
  rcases prefix_or_prefix_of_prefix hp (prefix_append x (a :: y)) with hle | ⟨q, rfl⟩
  · exact hle
  · rw [prefix_append_right_inj] at hp
    cases q with
    | nil => simp
    | cons b q =>
      obtain ⟨rfl, -⟩ := List.cons_prefix_cons.mp hp
      refine absurd ?_ h.tail
      rw [tail_append_of_ne_nil hx]
      simp

/-- The mark cuts a text: a marked word lies before it or begins with it. -/
theorem Marked.infix_append_cons {x y : List α} :
    tok <:+: x ++ a :: y ↔ tok <:+: x ∨ tok <:+: a :: y := by
  refine ⟨fun hi => ?_, fun hi => hi.elim infix_append_of_infix_left infix_append_of_infix_right⟩
  rcases List.infix_append_iff_ne_nil.mp hi with hx | hy | ⟨p, q, hp, hq, rfl, -, hqy⟩
  · exact .inl hx
  · exact .inr hy
  · cases q with
    | nil => exact absurd rfl hq
    | cons b q =>
      obtain ⟨rfl, -⟩ := List.cons_prefix_cons.mp hqy
      refine absurd ?_ h.tail
      rw [tail_append_of_ne_nil hp]
      simp

/-- A marked word in a text without the mark. -/
theorem Marked.not_infix_of_not_mem {x : List α} (hx : a ∉ x) : ¬ tok <:+: x := by
  intro hi
  rw [h.eq_cons] at hi
  exact hx (hi.subset mem_cons_self)

/-- A text without the mark does not begin a marked word. -/
theorem Marked.infix_append_of_not_mem {x y : List α} (hx : a ∉ x) :
    tok <:+: x ++ y ↔ tok <:+: y := by
  refine ⟨fun hi => ?_, infix_append_of_infix_right⟩
  rcases List.infix_append_iff_ne_nil.mp hi with hi | hi | ⟨p, q, hp, -, rfl, hpx, -⟩
  · exact absurd hi (h.not_infix_of_not_mem hx)
  · exact hi
  · obtain ⟨b, p, rfl⟩ := exists_cons_of_ne_nil hp
    obtain rfl : b = a := by simpa using h.head
    exact absurd (hpx.subset mem_cons_self) hx

/-- Marked words do not overlap. -/
theorem Marked.infix_append_append (h' : Marked a tok') {u v : List α} :
    tok <:+: u ++ tok' ++ v ↔ tok <:+: u ∨ tok <+: tok' ++ v ∨ tok <:+: v := by
  rw [h'.eq_cons, append_assoc, cons_append, h.infix_append_cons, infix_cons_iff,
    h.infix_append_of_not_mem h'.tail]

/-- A marked word in a marked word is in front. -/
theorem Marked.infix_marked (h' : Marked a tok') {x : List α}
    (hx : x <+: tok') (hi : tok <:+: x) : tok <+: x := by
  cases x with
  | nil => exact absurd (List.infix_nil.mp hi) h.ne_nil
  | cons b x =>
    rcases List.infix_cons_iff.mp hi with hp | hi
    · exact hp
    · rw [h'.eq_cons, cons_prefix_cons] at hx
      exact absurd hi (h.not_infix_of_not_mem fun hm => h'.tail (hx.2.subset hm))

end

/-- Neither word begins the other. -/
structure Apart (tok tok' : List α) : Prop where
  left : ¬ tok <+: tok'
  right : ¬ tok' <+: tok

theorem Apart.symm (h : Apart tok tok') : Apart tok' tok := ⟨h.right, h.left⟩

theorem Apart.not_prefix_append (h : Apart tok tok') (v : List α) : ¬ tok <+: tok' ++ v := by
  intro hp
  rcases prefix_or_prefix_of_prefix hp (prefix_append tok' v) with hp | hp
  · exact h.left hp
  · exact h.right hp

theorem Marked.infix_append_apart (h : Marked a tok) (h' : Marked a tok') (hne : Apart tok tok')
    {u v : List α} : tok <:+: u ++ tok' ++ v ↔ tok <:+: u ∨ tok <:+: v := by
  rw [h.infix_append_append h', or_iff_right (hne.not_prefix_append v)]

/-- **Before a word has arrived**, no other word has that does not stand in front of it. -/
theorem Marked.infix_before (h : Marked a tok) (h' : Marked a tok') (hne : Apart tok' tok)
    {q v x : List α} (hx : x <+: q ++ tok ++ v) (hn : ¬ tok <:+: x) (hi : tok' <:+: x) :
    tok' <:+: q := by
  rw [append_assoc] at hx
  rcases prefix_or_prefix_of_prefix hx (prefix_append q (tok ++ v)) with hq | ⟨z, rfl⟩
  · exact hi.trans hq.isInfix
  · rw [prefix_append_right_inj] at hx
    have hz : z <+: tok := by
      rcases prefix_or_prefix_of_prefix hx (prefix_append tok v) with hz | hz
      · exact hz
      · exact absurd (infix_append_of_infix_right hz.isInfix) hn
    cases z with
    | nil => simpa using hi
    | cons b z =>
      obtain rfl : b = a := by
        rw [h.eq_cons] at hz
        exact (List.cons_prefix_cons.mp hz).1
      rcases h'.infix_append_cons.mp hi with hq | hz'
      · exact hq
      · exact absurd ((h'.infix_marked h hz hz').trans hz) hne.left

end Marked

theorem find_append {a : α} {tok : List α} (h : Marked a tok) {u v : List α}
    (hu : ¬ tok <:+: u) : find tok (u ++ tok ++ v) = some u.length := by
  induction u with
  | nil =>
    rw [nil_append, h.append_eq, find, ← h.append_eq]
    exact if_pos (prefix_append _ _)
  | cons b u ih =>
    rw [infix_cons_iff, not_or] at hu
    have hp : ¬ tok <+: b :: (u ++ tok ++ v) := by
      intro hp
      rw [append_assoc, h.append_eq, ← cons_append] at hp
      exact hu.1 (h.prefix_of_append (cons_ne_nil _ _) hp)
    rw [cons_append, cons_append, find, if_neg hp, ih hu.2]
    rfl

theorem rfind_append {a : α} {tok : List α} (h : Marked a tok) {u v : List α}
    (hv : ¬ tok <:+: v) : rfind tok (u ++ tok ++ v) = some u.length := by
  induction u with
  | nil =>
    rw [nil_append]
    have htail : rfind tok (tok.tail ++ v) = none := by
      rw [rfind_eq_none, h.infix_append_of_not_mem h.tail]
      exact hv
    rw [h.append_eq, rfind, htail, ← h.append_eq]
    exact if_pos (prefix_append _ _)
  | cons b u ih =>
    rw [cons_append, cons_append, rfind, ih]
    rfl

theorem find_cases {a : α} {tok : List α} (h : Marked a tok) (s : List α) :
    (¬ tok <:+: s ∧ find tok s = none) ∨
      ∃ u v, s = u ++ tok ++ v ∧ ¬ tok <:+: u ∧ find tok s = some u.length := by
  by_cases hi : tok <:+: s
  · obtain ⟨u, v, rfl, hu⟩ := exists_first h.ne_nil hi
    exact .inr ⟨u, v, rfl, hu, find_append h hu⟩
  · exact .inl ⟨hi, find_eq_none.mpr hi⟩

/-- A search past another word. -/
theorem find_apart {a : α} {tok tok' : List α} (h : Marked a tok) (h' : Marked a tok')
    (hne : Apart tok tok') (v : List α) :
    find tok (tok' ++ v) = (find tok v).map (· + tok'.length) := by
  have hin : ∀ w, tok <:+: tok' ++ w → tok <:+: w := fun w hi => by
    rw [← nil_append tok', h.infix_append_apart h' hne] at hi
    exact hi.resolve_left fun h0 => h.ne_nil (List.infix_nil.mp h0)
  rcases find_cases h v with ⟨hv, hf⟩ | ⟨u, w, rfl, hu, hf⟩
  · rw [hf, find_eq_none.mpr fun hi => hv (hin v hi)]
    rfl
  · rw [hf, ← append_assoc, ← append_assoc, find_append h fun hi => hu (hin u hi)]
    simp [Nat.add_comm]

/-- A word whose first occurrence is after another's. -/
theorem lt_of_find {a : α} {tok tok' : List α} (h : Marked a tok) (h' : Marked a tok')
    (hne : Apart tok tok') {u v : List α} (hu : ¬ tok <:+: u) {i : Nat}
    (hi : find tok (u ++ tok' ++ v) = some i) : u.length < i := by
  have hin : ∀ w, tok <:+: u ++ tok' ++ w → tok <:+: w := fun w hw =>
    ((h.infix_append_apart h' hne).mp hw).resolve_left hu
  rcases find_cases h v with ⟨hv, -⟩ | ⟨p, q, rfl, hp, -⟩
  · rw [find_eq_none.mpr fun hw => hv (hin v hw)] at hi
    exact nomatch hi
  · rw [← append_assoc, ← append_assoc, find_append h fun hw => hp (hin p hw)] at hi
    cases hi
    have := List.length_pos_iff.mpr h'.ne_nil
    simp only [length_append]
    omega

omit [DecidableEq α] in
theorem split_inj {tok u v u' v' : List α} (hlen : u.length = u'.length)
    (heq : u ++ tok ++ v = u' ++ tok ++ v') : u = u' ∧ v = v' := by
  rw [append_assoc, append_assoc] at heq
  obtain ⟨rfl, hrest⟩ := append_inj heq hlen
  exact ⟨rfl, append_cancel_left hrest⟩

/-- The first occurrence is one. -/
theorem first_unique {a : α} {tok : List α} (h : Marked a tok) {u v u' v' : List α}
    (hu : ¬ tok <:+: u) (hu' : ¬ tok <:+: u') (heq : u ++ tok ++ v = u' ++ tok ++ v') :
    u = u' ∧ v = v' := by
  have hlen : u.length = u'.length := by
    have hfind := congrArg (find tok) heq
    rw [find_append h hu, find_append h hu'] at hfind
    exact Option.some.inj hfind
  exact split_inj hlen heq

/-- The last occurrence is one. -/
theorem last_unique {a : α} {tok : List α} (h : Marked a tok) {u v u' v' : List α}
    (hv : ¬ tok <:+: v) (hv' : ¬ tok <:+: v') (heq : u ++ tok ++ v = u' ++ tok ++ v') :
    u = u' ∧ v = v' := by
  have hlen : u.length = u'.length := by
    have hfind := congrArg (rfind tok) heq
    rw [rfind_append h hv, rfind_append h hv'] at hfind
    exact Option.some.inj hfind
  exact split_inj hlen heq

theorem eraseOnce_append {a : α} {tok : List α} (h : Marked a tok) {u v : List α}
    (hu : ¬ tok <:+: u) : eraseOnce tok (u ++ tok ++ v) = u ++ v := by
  rw [eraseOnce, find_append h hu]
  simp [drop_append]

/-! ### How often a word occurs -/

/-- The number of places where the word begins. -/
def occurrences (tok : List α) : List α → Nat
  | [] => 0
  | a :: s => (if tok <+: a :: s then 1 else 0) + occurrences tok s

section Occurrences
variable {a : α} {tok tok' : List α}

variable (h : Marked a tok)
include h

/-- No marked word begins before a mark and ends after it. -/
theorem Marked.occurrences_append_cons (x y : List α) :
    occurrences tok (x ++ a :: y) = occurrences tok x + occurrences tok (a :: y) := by
  induction x with
  | nil => simp [occurrences]
  | cons b x ih =>
    have hiff : tok <+: b :: (x ++ a :: y) ↔ tok <+: b :: x :=
      ⟨fun hp => h.prefix_of_append (x := b :: x) (cons_ne_nil _ _) hp,
        fun hp => hp.trans (prefix_append (b :: x) (a :: y))⟩
    rw [cons_append, occurrences, occurrences, ih]
    simp only [hiff, Nat.add_assoc]

theorem Marked.occurrences_of_not_mem {x : List α} (hx : a ∉ x) (y : List α) :
    occurrences tok (x ++ y) = occurrences tok y := by
  induction x with
  | nil => rfl
  | cons b x ih =>
    have hne : ¬ tok <+: b :: (x ++ y) := by
      intro hp
      rw [h.eq_cons, cons_prefix_cons] at hp
      exact hx (hp.1 ▸ mem_cons_self)
    rw [cons_append, occurrences, if_neg hne, Nat.zero_add, ih fun hm => hx (mem_cons_of_mem _ hm)]

/-- A marked word, and what stands before and after it. -/
theorem Marked.occurrences_append (h' : Marked a tok') (u v : List α) :
    occurrences tok (u ++ tok' ++ v) =
      occurrences tok u + (if tok <+: tok' ++ v then 1 else 0) + occurrences tok v := by
  rw [append_assoc, h'.append_eq, h.occurrences_append_cons, occurrences,
    h.occurrences_of_not_mem h'.tail, Nat.add_assoc]

theorem Marked.occurrences_self (u v : List α) :
    occurrences tok (u ++ tok ++ v) = occurrences tok u + 1 + occurrences tok v := by
  rw [h.occurrences_append h, if_pos (prefix_append _ _)]

theorem Marked.occurrences_apart (h' : Marked a tok') (hne : Apart tok tok') (u v : List α) :
    occurrences tok (u ++ tok' ++ v) = occurrences tok u + occurrences tok v := by
  rw [h.occurrences_append h', if_neg (hne.not_prefix_append v), Nat.add_zero]

theorem Marked.occurrences_eq_zero {s : List α} : occurrences tok s = 0 ↔ ¬ tok <:+: s := by
  induction s with
  | nil => simp [occurrences, h.ne_nil]
  | cons b s ih => simp [occurrences, infix_cons_iff, ih]

end Occurrences

/-! ### What is held back -/

/-- Each end of `e ++ b` that begins the word lies in `b`. -/
def Covers (tok e b : List α) : Prop :=
  ∀ z, z ≠ [] → z <:+ e ++ b → z <+: tok → z.length ≤ b.length

section Covers
omit [DecidableEq α]
variable {tok e b x : List α}

theorem covers_nil_left (tok b : List α) : Covers tok [] b := fun _ _ hz _ => hz.length_le

/-- Nothing begins in `e` a word that `b` continues. -/
theorem Covers.eq_nil (hc : Covers tok e b) {p : List α} (hp : p <:+ e) (h : p ++ b <+: tok) :
    p = [] := by
  by_contra hne
  have hsuf : p ++ b <:+ e ++ b := by
    obtain ⟨t, rfl⟩ := hp
    exact ⟨t, by simp⟩
  have hle := hc (p ++ b) (by simp [hne]) hsuf h
  have := List.length_pos_iff.mpr hne
  rw [length_append] at hle
  omega

/-- A further piece is held back whole. -/
theorem Covers.append (hc : Covers tok e b) (x : List α) : Covers tok e (b ++ x) := by
  intro z hz hsuf hpre
  rcases suffix_or_suffix_of_suffix hsuf (suffix_append e (b ++ x)) with h | ⟨p, rfl⟩
  · exact h.length_le
  · have hp : p <:+ e := by
      obtain ⟨t, ht⟩ := hsuf
      exact ⟨t, append_cancel_right (by simpa using ht)⟩
    have hpb : p ++ b <+: tok := by
      rw [← append_assoc] at hpre
      exact (prefix_append _ x).trans hpre
    rw [hc.eq_nil hp hpb]
    rfl

/-- The part `b` of what is held back is given out. -/
theorem Covers.give (hc : Covers tok e (b ++ x)) (h : Covers tok b x) : Covers tok (e ++ b) x := by
  intro z hz hsuf hpre
  rw [append_assoc] at hsuf
  refine h z hz ?_ hpre
  exact suffix_of_suffix_length_le hsuf (suffix_append _ _) (hc z hz hsuf hpre)

/-- **A word that a further piece completes** lies in what is held back and the piece. -/
theorem Covers.infix_iff (hc : Covers tok e b) (hn : ¬ tok <:+: e ++ b) :
    tok <:+: e ++ (b ++ x) ↔ tok <:+: b ++ x := by
  refine ⟨fun hi => ?_, infix_append_of_infix_right⟩
  rcases List.infix_append_iff_ne_nil.mp hi with hi | hi | ⟨p, q, hp, -, rfl, hpe, hqb⟩
  · exact absurd (infix_append_of_infix_left hi) hn
  · exact hi
  · exfalso
    rcases prefix_or_prefix_of_prefix hqb (prefix_append b x) with hq | ⟨q, rfl⟩
    · exact hn (List.infix_append_iff.mpr (.inr (.inr ⟨p, _, rfl, hpe, hq⟩)))
    · exact hp (hc.eq_nil hpe ⟨q, by simp⟩)

/-- What has been given out completes no word that begins there. -/
theorem Covers.not_infix_append (hc : Covers tok e b) (hn : ¬ tok <:+: e ++ b) {u : List α}
    (hu : u <+: b ++ x) (h : ¬ tok <:+: u) : ¬ tok <:+: e ++ u := by
  rcases prefix_or_prefix_of_prefix hu (prefix_append b x) with ⟨w, rfl⟩ | ⟨w, rfl⟩
  · intro hi
    have hw : tok <:+: e ++ u ++ w := infix_append_of_infix_left hi
    exact hn (by simpa using hw)
  · rwa [hc.infix_iff hn]

end Covers

end QwenStack.Marker
