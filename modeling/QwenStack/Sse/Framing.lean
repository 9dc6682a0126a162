import QwenStack.Sse.Definitions

/-!
# Event streams — the blocks do not depend on the chunks

What a stream is cut into is up to the network, so its blocks should not depend on it.  They do not when
each chunk is a text of its own and no chunk ends between a CR and its LF (`Whole`).  A chunk that ends
inside a character is read with U+FFFD for its end, and so is the rest of the character; a CR at the end
of a chunk is kept.

`framing_iff`: the blocks of a stream, however much of it has arrived, are those of its bytes exactly if
no chunk is cut so.
-/

namespace QwenStack.Sse
open Manual (trim)
open ChunkProcessor List

/-! ### The blocks of a text -/

/-- One block, or none if it is blank. -/
def blockOf (block : Str) : List Str := if trim block = [] then [] else [block]

/-- All blocks of a text, and what remains. -/
def blocks (text : Str) : List Str × Str := ((drain ⟨text⟩).1, (drain ⟨text⟩).2.pending)

theorem drain_of_none {text : Str} (h : Marker.find separator text = none) :
    drain ⟨text⟩ = ([], ⟨text⟩) := by
  rw [drain]
  split
  · next hnext =>
    rw [nextBlock_of_none h] at hnext
    obtain ⟨-, rfl⟩ := Prod.mk.inj hnext
    rfl
  · next hnext =>
    rw [nextBlock_of_none h] at hnext
    cases hnext

theorem drain_of_some {text : Str} {pos : Nat} (h : Marker.find separator text = some pos) :
    drain ⟨text⟩ = (blockOf (text.take pos) ++ (drain ⟨text.drop (pos + 2)⟩).1,
      (drain ⟨text.drop (pos + 2)⟩).2) := by
  have hnext := nextBlock_of_some (p := ⟨text⟩) h
  rw [drain, blockOf]
  by_cases hblank : trim (text.take pos) = []
  · rw [if_pos hblank] at hnext
    rw [if_pos hblank, drain.eq_def ⟨text.drop (pos + 2)⟩, hnext]
    rfl
  · rw [if_neg hblank] at hnext
    rw [if_neg hblank]
    split
    · next h' => rw [hnext] at h'; cases h'
    · next h' =>
      rw [hnext] at h'
      obtain ⟨hblock, rfl⟩ := Prod.mk.inj h'
      cases hblock
      rfl

theorem blocks_of_none {text : Str} (h : Marker.find separator text = none) :
    blocks text = ([], text) := by
  rw [blocks, drain_of_none h]

@[simp] theorem blocks_nil : blocks [] = ([], []) := blocks_of_none (by decide)

theorem blocks_of_some {text : Str} {pos : Nat} (h : Marker.find separator text = some pos) :
    blocks text = (blockOf (text.take pos) ++ (blocks (text.drop (pos + 2))).1,
      (blocks (text.drop (pos + 2))).2) := by
  rw [blocks, drain_of_some h, blocks]

/-- The recursion of `blocks`. -/
theorem blocks_induct {P : Str → Prop} (none : ∀ text, Marker.find separator text = none → P text)
    (some : ∀ text pos, Marker.find separator text = some pos → P (text.drop (pos + 2)) → P text)
    (text : Str) : P text := by
  induction hn : text.length using Nat.strong_induction_on generalizing text with
  | _ n ih =>
    cases h : Marker.find separator text with
    | none => exact none text h
    | some pos => exact some text pos h (ih _ (hn ▸ length_drop_separator h) _ rfl)

theorem sections_ne_nil (text : Str) : sections text ≠ [] := by
  induction text using sections.induct with
  | case1 => exact cons_ne_nil _ _
  | case2 c => exact cons_ne_nil _ _
  | case3 c d s h ih =>
    rw [sections, if_pos h]
    exact cons_ne_nil _ _
  | case4 c d s h ih =>
    rw [sections, if_neg h, ne_eq, modifyHead_eq_nil_iff]
    exact ih

theorem find_separator (s : Str) : Marker.find separator ('\n' :: '\n' :: s) = some 0 :=
  if_pos (prefix_append separator s)

theorem sections_of_none {text : Str} (h : Marker.find separator text = none) :
    sections text = [text] := by
  induction text using sections.induct with
  | case1 => rfl
  | case2 c => rfl
  | case3 c d s hsep ih =>
    obtain ⟨rfl, rfl⟩ := hsep
    rw [find_separator] at h
    cases h
  | case4 c d s hsep ih =>
    rw [Marker.find] at h
    split at h
    · cases h
    · rw [sections, if_neg hsep, ih (Option.map_eq_none_iff.mp h)]
      rfl

theorem sections_of_some {text : Str} {pos : Nat} (h : Marker.find separator text = some pos) :
    sections text = text.take pos :: sections (text.drop (pos + 2)) := by
  induction text using sections.induct generalizing pos with
  | case1 => cases h
  | case2 c =>
    have := (Marker.prefix_of_find h).2
    rw [separator, length_cons, length_singleton, length_singleton] at this
    omega
  | case3 c d s hsep ih =>
    obtain ⟨rfl, rfl⟩ := hsep
    rw [find_separator] at h
    cases h
    rw [sections, if_pos ⟨rfl, rfl⟩]
    rfl
  | case4 c d s hsep ih =>
    rw [Marker.find, if_neg] at h
    · obtain ⟨pos, hpos, rfl⟩ := Option.map_eq_some_iff.mp h
      rw [sections, if_neg hsep, ih hpos]
      rfl
    · rintro ⟨rest, hrest⟩
      obtain ⟨hc, hrest⟩ := List.cons.inj hrest
      exact hsep ⟨hc.symm, (List.cons.inj hrest).1.symm⟩

/-- What remains has no blank line. -/
theorem find_blocks_snd (text : Str) : Marker.find separator (blocks text).2 = none := by
  induction text using blocks_induct with
  | none text h =>
    rw [blocks_of_none h]
    exact h
  | some text pos h ih =>
    rw [blocks_of_some h]
    exact ih

/-- **More text**: the blocks go on from what remains. -/
theorem blocks_append (text more : Str) : blocks (text ++ more) =
    ((blocks text).1 ++ (blocks ((blocks text).2 ++ more)).1, (blocks ((blocks text).2 ++ more)).2) := by
  induction text using blocks_induct with
  | none text h => rw [blocks_of_none h, nil_append]
  | some text pos h ih =>
    have hlen := (Marker.prefix_of_find h).2
    rw [separator, length_cons, length_singleton] at hlen
    rw [blocks_of_some (Marker.find_append_of_some h more), blocks_of_some h,
      take_append_of_le_length (by omega), drop_append_of_le_length (by omega), ih,
      append_assoc]

theorem separator_suffix_concat {s : Str} {c : Char} :
    separator <:+ s ++ [c] ↔ c = '\n' ∧ s.getLast? = some '\n' := by
  constructor
  · rintro ⟨pre, hpre⟩
    have hsplit : (pre ++ ['\n']) ++ ['\n'] = s ++ [c] := by
      rw [← hpre, separator, append_assoc]
      rfl
    obtain ⟨rfl, hc⟩ := append_inj' hsplit rfl
    exact ⟨(List.singleton_inj.mp hc).symm, List.getLast?_concat⟩
  · rintro ⟨rfl, hlast⟩
    obtain ⟨pre, rfl⟩ := List.getLast?_eq_some_iff.mp hlast
    exact ⟨pre, by rw [separator, append_assoc]; rfl⟩

/-- One more character. -/
theorem blocks_concat (text : Str) (c : Char) : blocks (text ++ [c]) =
    if c = '\n' ∧ (blocks text).2.getLast? = some '\n' then
      ((blocks text).1 ++ blockOf (blocks text).2.dropLast, [])
    else ((blocks text).1, (blocks text).2 ++ [c]) := by
  have hfind := Marker.find_concat (by decide : separator ≠ []) (find_blocks_snd text) c
  rw [if_congr separator_suffix_concat rfl rfl] at hfind
  rw [blocks_append]
  split
  · next hends =>
    rw [if_pos hends] at hfind
    obtain ⟨pre, hpre⟩ := List.getLast?_eq_some_iff.mp hends.2
    have hpos : (pre ++ ['\n']).length + 1 - separator.length = pre.length := by
      rw [separator, length_append]
      rfl
    rw [hpre, hpos] at hfind
    rw [hpre, blocks_of_some hfind, append_assoc pre, take_left,
      drop_of_length_le (by simp), blocks_nil, append_nil, dropLast_concat]
  · next hends =>
    rw [if_neg hends] at hfind
    rw [blocks_of_none hfind, append_nil]

/-- Characters that are no newlines. -/
theorem blocks_append_of_not_mem (text : Str) {more : Str} (h : '\n' ∉ more) :
    blocks (text ++ more) = ((blocks text).1, (blocks text).2 ++ more) := by
  induction more using List.reverseRecOn with
  | nil => rw [append_nil, append_nil]
  | append_singleton more c ih =>
    have hc : c ≠ '\n' := fun hc => h (mem_append_right _ (hc ▸ mem_singleton_self c))
    rw [← append_assoc, blocks_concat, ih fun hmem => h (mem_append_left _ hmem),
      if_neg fun hends => hc hends.1, append_assoc]

/-- **The blocks are the parts between blank lines.** -/
theorem blocks_eq_splitBlocks (text : Str) : blocks text = splitBlocks text := by
  induction text using blocks_induct with
  | none text h =>
    rw [blocks_of_none h, splitBlocks, sections_of_none h]
    rfl
  | some text pos h ih =>
    obtain ⟨part, parts, hparts⟩ := exists_cons_of_ne_nil (sections_ne_nil (text.drop (pos + 2)))
    rw [blocks_of_some h, ih, splitBlocks, splitBlocks, sections_of_some h, hparts, blockOf,
      dropLast_cons_cons, filter_cons]
    by_cases hblank : trim (text.take pos) = []
    · rw [if_pos hblank, if_neg (by simpa using hblank)]
      rfl
    · rw [if_neg hblank, if_pos (decide_eq_true hblank)]
      rfl

/-! ### The text of a stream -/

theorem chunkStr_eq (chunk : List UInt8) : chunkStr chunk = Str.fromUtf8Lossy chunk := by
  rw [chunkStr]
  split
  · next h => exact (Str.fromUtf8Lossy_of_fromUtf8 h).symm
  · rfl

theorem chunkStr_bytes (x : Str) : chunkStr (Str.bytes x) = x := by
  rw [chunkStr_eq, Str.fromUtf8Lossy_bytes]

/-- What the chunks add to the buffer. -/
def pushed (chunks : List (List UInt8)) : Str :=
  (chunks.map fun chunk => normalize (chunkStr chunk)).flatten

@[simp] theorem pushed_nil : pushed [] = [] := rfl

@[simp] theorem pushed_cons (chunk : List UInt8) (chunks : List (List UInt8)) :
    pushed (chunk :: chunks) = normalize (chunkStr chunk) ++ pushed chunks := rfl

@[simp] theorem pushed_append (chunks chunks' : List (List UInt8)) :
    pushed (chunks ++ chunks') = pushed chunks ++ pushed chunks' := by
  rw [pushed, map_append, flatten_append]
  rfl

/-- **The blocks depend on the text only.** -/
theorem frames_eq (chunks : List (List UInt8)) : frames chunks = blocks (pushed chunks) := by
  have hfold : ∀ (text : Str), chunks.foldl receive ((blocks text).1, ⟨(blocks text).2⟩) =
      ((blocks (text ++ pushed chunks)).1, ⟨(blocks (text ++ pushed chunks)).2⟩) := by
    induction chunks with
    | nil =>
      intro text
      rw [pushed_nil, append_nil]
      rfl
    | cons chunk chunks ih =>
      intro text
      rw [foldl_cons, pushed_cons, ← append_assoc, ← ih, blocks_append text]
      rfl
  have h := hfold []
  rw [blocks_nil, nil_append] at h
  rw [frames, h]
  rfl

theorem normalize_append {a b : Str} (h : a.getLast? = some '\r' → b.head? ≠ some '\n') :
    normalize (a ++ b) = normalize a ++ normalize b := by
  induction a with
  | nil => rfl
  | cons c a ih =>
    cases a with
    | nil =>
      have hno : ¬ (c = '\r' ∧ b.head? = some '\n') := fun hc => h (congrArg some hc.1) hc.2
      rw [singleton_append, normalize, if_neg hno, normalize, if_neg (by simp)]
      rfl
    | cons d a =>
      have hrest := ih fun hlast => h (by rw [List.getLast?_cons_cons, hlast])
      have hhead : (d :: a ++ b).head? = (d :: a).head? := rfl
      rw [cons_append, normalize, normalize, hrest, hhead]
      split
      · rfl
      · rfl

theorem normalize_of_not_mem {s : Str} (h : '\n' ∉ s) : normalize s = s := by
  induction s with
  | nil => rfl
  | cons c s ih =>
    rw [mem_cons, not_or] at h
    rw [normalize, if_neg fun hc => h.2 (List.mem_of_mem_head? hc.2), ih h.2]

/-- Characters after the text that are no newlines stay. -/
theorem normalize_append_of_not_mem (s : Str) {e : Str} (h : '\n' ∉ e) :
    normalize (s ++ e) = normalize s ++ e := by
  rw [normalize_append fun _ hhead => h (List.mem_of_mem_head? hhead), normalize_of_not_mem h]

/-! ### How a stream is cut -/

/-- What has arrived of the chunks at some time. -/
inductive Beginning : List (List UInt8) → List (List UInt8) → Prop
  | nil (chunks : List (List UInt8)) : Beginning [] chunks
  | part {p chunk : List UInt8} (chunks : List (List UInt8)) :
      p <+: chunk → Beginning [p] (chunk :: chunks)
  | cons {chunks chunks' : List (List UInt8)} (chunk : List UInt8) :
      Beginning chunks' chunks → Beginning (chunk :: chunks') (chunk :: chunks)

/-- No CR ends a text where its LF begins the next. -/
def Uncut (xs : List Str) : Prop :=
  ∀ a b, a ++ b = xs → a.flatten.getLast? = some '\r' → b.flatten.head? ≠ some '\n'

/-- No chunk ends inside a character, or between a CR and its LF. -/
def Whole (chunks : List (List UInt8)) : Prop :=
  ∃ xs : List Str, chunks = xs.map Str.bytes ∧ Uncut xs

/-- However much has arrived, the blocks and what remains are those of the bytes. -/
def Faithful (chunks : List (List UInt8)) : Prop :=
  ∀ chunks', Beginning chunks' chunks → ∀ x, chunks'.flatten = Str.bytes x → frames chunks' = framing x

namespace Beginning
variable {chunks chunks' : List (List UInt8)}

theorem append (pre : List (List UInt8)) (h : Beginning chunks' chunks) :
    Beginning (pre ++ chunks') (pre ++ chunks) := by
  induction pre with
  | nil => exact h
  | cons chunk pre ih => exact cons chunk ih

/-- Any number of bytes may have arrived. -/
theorem exists_of_prefix {q : List UInt8} (h : q <+: chunks.flatten) :
    ∃ chunks', Beginning chunks' chunks ∧ chunks'.flatten = q := by
  induction chunks generalizing q with
  | nil => exact ⟨[], nil [], (List.prefix_nil.mp h).symm⟩
  | cons chunk chunks ih =>
    obtain ⟨t, ht⟩ := h
    rw [flatten_cons, append_eq_append_iff] at ht
    rcases ht with ⟨rest, rfl, -⟩ | ⟨q', rfl, hrest⟩
    · exact ⟨[q], part chunks (prefix_append q rest), by simp⟩
    · obtain ⟨chunks', hbegin, rfl⟩ := ih ⟨t, hrest.symm⟩
      exact ⟨chunk :: chunks', cons chunk hbegin, rfl⟩

end Beginning

/-! ### Chunks that are whole -/

theorem flatten_map_bytes (xs : List Str) : (xs.map Str.bytes).flatten = Str.bytes xs.flatten := by
  induction xs with
  | nil => rfl
  | cons x xs ih => rw [map_cons, flatten_cons, ih, flatten_cons, Str.bytes_append]

theorem Uncut.tail {x : Str} {xs : List Str} (h : Uncut (x :: xs)) : Uncut xs := by
  rintro a b rfl hlast
  refine h (x :: a) b rfl ?_
  rw [flatten_cons, List.getLast?_append, hlast]
  rfl

theorem pushed_of_uncut {xs : List Str} (h : Uncut xs) :
    pushed (xs.map Str.bytes) = normalize xs.flatten := by
  induction xs with
  | nil => rfl
  | cons x xs ih =>
    have hcut := h [x] xs rfl
    rw [flatten_singleton] at hcut
    rw [map_cons, pushed_cons, chunkStr_bytes, ih h.tail, flatten_cons, normalize_append hcut]

/-- What has arrived of texts, if it is a text. -/
theorem texts_of_beginning {xs : List Str} {chunks' : List (List UInt8)}
    (hbegin : Beginning chunks' (xs.map Str.bytes)) {x : Str} (hx : chunks'.flatten = Str.bytes x) :
    ∃ xs', chunks' = xs'.map Str.bytes ∧
      ∀ a b, a ++ b = xs' → b ≠ [] → ∃ b', a ++ b' = xs ∧ b.flatten <+: b'.flatten := by
  generalize hchunks : xs.map Str.bytes = chunks at hbegin
  induction hbegin generalizing xs x with
  | nil chunks => exact ⟨[], rfl, fun a b hab hb => absurd (List.append_eq_nil_iff.mp hab).2 hb⟩
  | part chunks hp =>
    obtain ⟨y, ys, rfl, rfl, rfl⟩ := List.map_eq_cons_iff.mp hchunks
    obtain ⟨t, ht⟩ := hp
    rw [flatten_singleton] at hx
    subst hx
    obtain ⟨u, rfl, -⟩ := Str.of_bytes_append_eq_bytes ht
    refine ⟨[x], rfl, fun a b hab hb => ?_⟩
    rcases List.append_eq_singleton_iff.mp hab with ⟨rfl, rfl⟩ | ⟨-, rfl⟩
    · exact ⟨(x ++ u) :: ys, rfl, by simp⟩
    · exact absurd rfl hb
  | cons chunk hbegin ih =>
    obtain ⟨y, ys, rfl, rfl, rfl⟩ := List.map_eq_cons_iff.mp hchunks
    rw [flatten_cons] at hx
    obtain ⟨u, rfl, hu⟩ := Str.of_bytes_append_eq_bytes hx
    obtain ⟨xs', rfl, hcuts⟩ := ih hu rfl
    refine ⟨y :: xs', rfl, fun a b hab hb => ?_⟩
    rcases List.append_eq_cons_iff.mp hab with ⟨rfl, rfl⟩ | ⟨a, rfl, hxs'⟩
    · refine ⟨y :: ys, rfl, ?_⟩
      by_cases hnil : xs' = []
      · rw [hnil]
        simp
      · obtain ⟨b', rfl, hprefix⟩ := hcuts [] xs' rfl hnil
        exact (prefix_append_right_inj y).mpr hprefix
    · obtain ⟨b', rfl, hprefix⟩ := hcuts a b hxs'.symm hb
      exact ⟨b', rfl, hprefix⟩

theorem whole_of_beginning {chunks chunks' : List (List UInt8)} (h : Whole chunks)
    (hbegin : Beginning chunks' chunks) {x : Str} (hx : chunks'.flatten = Str.bytes x) :
    Whole chunks' := by
  obtain ⟨xs, rfl, huncut⟩ := h
  obtain ⟨xs', rfl, hcuts⟩ := texts_of_beginning hbegin hx
  refine ⟨xs', rfl, fun a b hab hlast hhead => ?_⟩
  by_cases hb : b = []
  · rw [hb] at hhead
    cases hhead
  · obtain ⟨b', rfl, rest, hrest⟩ := hcuts a b hab hb
    refine huncut a b' rfl hlast ?_
    rw [← hrest, List.head?_append, hhead]
    rfl

section
variable {chunks : List (List UInt8)}

theorem frames_of_whole (h : Whole chunks) {x : Str}
    (hx : chunks.flatten = Str.bytes x) : frames chunks = framing x := by
  obtain ⟨xs, rfl, huncut⟩ := h
  rw [flatten_map_bytes] at hx
  rw [frames_eq, pushed_of_uncut huncut, framing, ← blocks_eq_splitBlocks, Str.bytes_injective hx]

theorem faithful_of_whole (h : Whole chunks) : Faithful chunks :=
  fun _ hbegin _ hx => frames_of_whole (whole_of_beginning h hbegin hx) hx

/-! ### Chunks that are cut -/

theorem not_newline_mem_fromUtf8Lossy {bs : List UInt8} (h : ∀ b ∈ bs, ¬ b < 128) :
    '\n' ∉ Str.fromUtf8Lossy bs :=
  Str.not_mem_fromUtf8Lossy h (by decide : String.utf8EncodeChar '\n' = [10]) (by decide)

/-- Chunks within a character add something, and no newline. -/
theorem pushed_within (h : ∀ b ∈ chunks.flatten, ¬ b < 128) :
    '\n' ∉ pushed chunks ∧ (chunks.flatten ≠ [] → pushed chunks ≠ []) := by
  induction chunks with
  | nil => exact ⟨not_mem_nil, fun hne => absurd rfl hne⟩
  | cons chunk chunks ih =>
    rw [flatten_cons] at h ⊢
    obtain ⟨hno, hne⟩ := ih fun b hb => h b (mem_append_right _ hb)
    have hchunk := not_newline_mem_fromUtf8Lossy fun b hb => h b (mem_append_left _ hb)
    rw [pushed_cons, chunkStr_eq, normalize_of_not_mem hchunk]
    refine ⟨fun hmem => (List.mem_append.mp hmem).elim hchunk hno, fun hflat => ?_⟩
    by_cases hnil : chunk = []
    · rw [hnil, nil_append] at hflat
      exact append_ne_nil_of_right_ne_nil _ (hne hflat)
    · exact append_ne_nil_of_left_ne_nil (Str.fromUtf8Lossy_ne_nil hnil) _

theorem pushed_of_flatten_eq_nil (h : chunks.flatten = []) : pushed chunks = [] := by
  induction chunks with
  | nil => rfl
  | cons chunk chunks ih =>
    obtain ⟨rfl, hrest⟩ := List.append_eq_nil_iff.mp h
    rw [pushed_cons, ih hrest]
    rfl

/-- Chunks that make up a newline. -/
theorem pushed_newline (h : chunks.flatten = Str.bytes ['\n']) : pushed chunks = ['\n'] := by
  induction chunks with
  | nil => cases h
  | cons chunk chunks ih =>
    rw [flatten_cons] at h
    rcases List.append_eq_singleton_iff.mp h with ⟨rfl, hrest⟩ | ⟨hchunk, hrest⟩
    · rw [pushed_cons, ih hrest]
      rfl
    · have hbytes : chunk = Str.bytes ['\n'] := hchunk
      rw [pushed_cons, pushed_of_flatten_eq_nil hrest, hbytes, chunkStr_bytes]
      rfl

end

/-- **A chunk that ends inside a character** adds characters that the stream does not have. -/
theorem not_faithful_of_cut_character {xs : List Str} {y : Str} {c : Char} {p q rest : List UInt8}
    {chunks : List (List UInt8)} (hp : p ≠ []) (hq : q ≠ []) (hc : p ++ q = String.utf8EncodeChar c)
    (hrest : chunks.flatten = q ++ rest) :
    ¬ Faithful (xs.map Str.bytes ++ (Str.bytes y ++ p) :: chunks) := by
  intro hfaithful
  have hlong : 1 < (String.utf8EncodeChar c).length := by
    have := List.length_pos_iff.mpr hp
    have := List.length_pos_iff.mpr hq
    rw [← hc, length_append]
    omega
  have hhigh : ∀ b ∈ p ++ q, ¬ b < 128 := fun b hb => Str.not_lt_of_mem_encode hlong (hc ▸ hb)
  have hcnewline : '\n' ∉ [c] := by
    intro hmem
    obtain rfl := List.mem_singleton.mp hmem
    exact absurd hlong (by decide)
  -- before the character
  have hbefore := hfaithful (xs.map Str.bytes ++ [Str.bytes y])
    (Beginning.append _ (Beginning.part _ (prefix_append _ _))) (xs.flatten ++ y) (by
      rw [flatten_append, flatten_map_bytes, flatten_singleton, Str.bytes_append])
  -- after it
  obtain ⟨chunks', hbegin, hflat⟩ := Beginning.exists_of_prefix ⟨rest, hrest.symm⟩
  have hafter := hfaithful (xs.map Str.bytes ++ (Str.bytes y ++ p) :: chunks')
    (Beginning.append _ (Beginning.cons _ hbegin)) (xs.flatten ++ y ++ [c]) (by
      rw [flatten_append, flatten_map_bytes, flatten_cons, hflat, append_assoc, hc,
        Str.bytes_append, Str.bytes_append, append_assoc]
      simp)
  obtain ⟨hno, hne⟩ := @pushed_within chunks' fun b hb => hhigh b (mem_append_right _ (hflat ▸ hb))
  have hpno := not_newline_mem_fromUtf8Lossy fun b hb => hhigh b (mem_append_left _ hb)
  have hadded : '\n' ∉ Str.fromUtf8Lossy p ++ pushed chunks' :=
    fun hmem => (List.mem_append.mp hmem).elim hpno hno
  rw [frames_eq, framing, ← blocks_eq_splitBlocks] at hbefore hafter
  rw [pushed_append, pushed_cons, chunkStr_bytes, pushed_nil, append_nil] at hbefore
  rw [pushed_append, pushed_cons, chunkStr_eq, Str.fromUtf8Lossy_bytes_append,
    normalize_append_of_not_mem y hpno, append_assoc (normalize y), ← append_assoc,
    blocks_append_of_not_mem _ hadded, hbefore, normalize_append_of_not_mem _ hcnewline,
    blocks_append_of_not_mem _ hcnewline] at hafter
  have hsame := congrArg List.length (append_cancel_left (Prod.mk.inj hafter).2)
  have h₁ := List.length_pos_iff.mpr (Str.fromUtf8Lossy_ne_nil hp)
  have h₂ := List.length_pos_iff.mpr (hne (hflat ▸ hq))
  rw [length_append, length_singleton] at hsame
  omega

/-- **A chunk that ends between a CR and its LF** adds the CR. -/
theorem not_faithful_of_cut_newline {a b : List Str} (ha : a.flatten.getLast? = some '\r')
    (hb : b.flatten.head? = some '\n') : ¬ Faithful ((a ++ b).map Str.bytes) := by
  intro hfaithful
  obtain ⟨a₀, ha₀⟩ := List.getLast?_eq_some_iff.mp ha
  obtain ⟨b₀, hb₀⟩ : ∃ b₀, b.flatten = '\n' :: b₀ := List.head?_eq_some_iff.mp hb
  rw [map_append] at hfaithful
  -- before the newline
  have hbefore := hfaithful (a.map Str.bytes)
    (by simpa using Beginning.append (a.map Str.bytes) (Beginning.nil (b.map Str.bytes)))
    a.flatten (flatten_map_bytes a)
  -- after it
  have hprefix : Str.bytes ['\n'] <+: (b.map Str.bytes).flatten := by
    rw [flatten_map_bytes, hb₀]
    exact prefix_append _ _
  obtain ⟨chunks', hbegin, hflat⟩ := Beginning.exists_of_prefix hprefix
  have hafter := hfaithful (a.map Str.bytes ++ chunks') (Beginning.append _ hbegin)
    (a.flatten ++ ['\n']) (by
      rw [flatten_append, flatten_map_bytes, hflat, Str.bytes_append])
  have hcr : '\n' ∉ ['\r'] := by decide
  have hnormal : normalize (a.flatten ++ ['\n']) = normalize a₀ ++ ['\n'] := by
    rw [ha₀, append_assoc, normalize_append (by simp)]
    rfl
  rw [frames_eq, framing, ← blocks_eq_splitBlocks] at hbefore hafter
  rw [ha₀, normalize_append_of_not_mem _ hcr, blocks_append_of_not_mem _ hcr] at hbefore
  have hopen : ¬ ('\n' = '\n' ∧ ((blocks (normalize a₀)).2 ++ ['\r']).getLast? = some '\n') := by
    rw [List.getLast?_concat]
    exact fun hends => absurd hends.2 (by decide)
  rw [pushed_append, pushed_newline hflat, blocks_concat, hbefore, if_neg hopen, hnormal,
    blocks_concat] at hafter
  split at hafter
  · have hsecond := (Prod.mk.inj hafter).2
    simp at hsecond
  · have hsecond := congrArg List.length (Prod.mk.inj hafter).2
    simp at hsecond

theorem texts_of_faithful {s : Str} : ∀ {chunks : List (List UInt8)} {xs : List Str},
    (xs.map Str.bytes ++ chunks).flatten = Str.bytes s → Faithful (xs.map Str.bytes ++ chunks) →
      ∃ ys : List Str, chunks = ys.map Str.bytes := by
  intro chunks
  induction chunks with
  | nil => exact fun _ _ => ⟨[], rfl⟩
  | cons chunk chunks ih =>
    intro xs hs hfaithful
    have hs' := hs
    rw [flatten_append, flatten_map_bytes] at hs'
    obtain ⟨u, rfl, hu⟩ := Str.of_bytes_append_eq_bytes hs'
    rw [flatten_cons] at hu
    rcases Str.cut_bytes hu with ⟨x, y, -, rfl, -⟩ | ⟨x, c, y, p, q, -, hp, hq, hc, rfl, hrest⟩
    · have hnext : xs.map Str.bytes ++ Str.bytes x :: chunks =
          (xs ++ [x]).map Str.bytes ++ chunks := by simp
      rw [hnext] at hs hfaithful
      obtain ⟨ys, rfl⟩ := ih hs hfaithful
      exact ⟨x :: ys, rfl⟩
    · exact absurd hfaithful (not_faithful_of_cut_character hp hq hc hrest)

/-- **The blocks of a stream, however much of it has arrived, are those of its bytes exactly if no chunk
ends inside a character or between a CR and its LF.** -/
theorem framing_iff {chunks : List (List UInt8)} {s : Str} (hs : chunks.flatten = Str.bytes s) :
    Faithful chunks ↔ Whole chunks := by
  constructor
  · intro hfaithful
    obtain ⟨xs, rfl⟩ := @texts_of_faithful s chunks [] hs hfaithful
    refine ⟨xs, rfl, ?_⟩
    rintro a b rfl hlast hhead
    exact not_faithful_of_cut_newline hlast hhead hfaithful
  · exact faithful_of_whole

/-! ### Cuts of two streams -/

def euro : Str := "data: €\r\n\r\n".toList

/-- The chunks are whole. -/
def euroWhole : List (List UInt8) := ["data: ".toList, "€\r\n".toList, "\r\n".toList].map Str.bytes

theorem euroWhole_faithful : Faithful euroWhole := by
  refine (@framing_iff _ euro (by decide)).mpr ⟨_, rfl, ?_⟩
  rintro a b hab hlast
  rcases List.append_eq_cons_iff.mp hab with ⟨rfl, -⟩ | ⟨a₁, rfl, hab₁⟩
  · cases hlast
  · rcases List.append_eq_cons_iff.mp hab₁.symm with ⟨rfl, -⟩ | ⟨a₂, rfl, hab₂⟩
    · exact absurd hlast (by decide)
    · rcases List.append_eq_cons_iff.mp hab₂.symm with ⟨rfl, -⟩ | ⟨a₃, rfl, hab₃⟩
      · exact absurd hlast (by decide)
      · obtain ⟨-, rfl⟩ := List.append_eq_nil_iff.mp hab₃.symm
        exact nofun

/-- The first chunk ends after the first byte of the euro sign, the second after a CR. -/
def euroCut : List (List UInt8) :=
  [(Str.bytes euro).take 7, ((Str.bytes euro).drop 7).take 5, ((Str.bytes euro).drop 7).drop 5]

theorem euroCut_differs : euroCut.flatten = euroWhole.flatten ∧
    frames euroWhole = (["data: €".toList], []) ∧ frames euroCut = ([], "data: ���\n\r\n".toList) := by
  refine ⟨by decide, ?_, ?_⟩
  · rw [frames_eq, blocks_eq_splitBlocks]
    decide
  · rw [frames_eq, blocks_eq_splitBlocks]
    decide

end QwenStack.Sse
