import QwenStack.Support.Decode

/-!
# Middleware — paths for metrics

`normalize_path_for_metrics` (`gateway/src/middleware.rs`): the segments of a path that look like
identifiers become `{id}`, so that the metrics have few labels.  The code goes over the bytes once and
copies nothing before the first such segment.  It is written here as it stands, with slices of the text that
fail off a character boundary; `normalize_eq` says that none fails, and that the result is the one of
splitting the path, replacing segments and joining them again (`normalized`).

The proof goes segment by segment: bytes that are no slash leave the scan as it is (`scan_plain`), and the
byte at the end of a segment adds what becomes of it to the result (`Scan.out`).
-/

namespace QwenStack.Middleware

open List
open Str (bytes byteLen)

/-- `&s[from..to]`: nothing where the code panics. -/
def slice (s : Str) (start stop : Nat) : Option Str := (Str.sliceTo s stop).bind (Str.sliceFrom · start)

/-- `u8::is_ascii_digit`. -/
def isAsciiDigit (b : UInt8) : Bool := 48 ≤ b && b ≤ 57

/-- `u8::is_ascii_hexdigit`. -/
def isAsciiHexdigit (b : UInt8) : Bool := isAsciiDigit b || (65 ≤ b && b ≤ 70) || (97 ≤ b && b ≤ 102)

/-- `is_dynamic_id`. -/
def isDynamicId (s : Str) : Bool :=
  decide (10 < byteLen s ∧ '_' ∈ s) ||
    decide (32 ≤ byteLen s) && (bytes s).all (fun b => isAsciiHexdigit b || b == 45) ||
    decide (s ≠ []) && (bytes s).all isAsciiDigit

/-- `{id}`. -/
def placeholder : Str := "\x7bid\x7d".toList

/-- The slash, as a byte. -/
def slash : UInt8 := 47

/-- The local state of `normalize_path_for_metrics`. -/
structure Scan where
  segmentStart : Nat := 0
  segmentIdx : Nat := 0
  result : Option Str := none
  deriving DecidableEq, Repr

/-- The result with a segment after it: nothing while no segment has been replaced. -/
def pushSegment (path : Str) (s : Scan) (segment : Str) : Option (Option Str) :=
  if 2 < s.segmentIdx ∧ segment ≠ [] ∧ isDynamicId segment = true then do
    let result ← match s.result with
      | some result => some result
      | none => Str.sliceTo path s.segmentStart
    return some (result ++ placeholder)
  else some (s.result.map (· ++ segment))

/-- One turn of the loop of `normalize_path_for_metrics`. -/
def scanByte (path : Str) (s : Scan) (e : UInt8 × Nat) : Option Scan :=
  let (b, pos) := e
  if b = slash ∨ pos = byteLen path - 1 then do
    let segmentEnd := if b = slash then pos else pos + 1
    let segment ← slice path s.segmentStart segmentEnd
    let result ← pushSegment path s segment
    if b = slash then
      return ⟨pos + 1, s.segmentIdx + 1, result.map (· ++ ['/'])⟩
    else return { s with result := result }
  else some s

/-- The bytes from a position on. -/
def scanFrom (path : Str) (pos : Nat) (bs : List UInt8) (s : Scan) : Option Scan :=
  (bs.zipIdx pos).foldlM (scanByte path) s

/-- `normalize_path_for_metrics`. -/
def normalizePathForMetrics (path : Str) : Option Str :=
  (scanFrom path 0 (bytes path) {}).map fun s => s.result.getD path

/-! ### Segments -/

/-- What becomes of a segment. -/
def emit (idx : Nat) (segment : Str) : Str :=
  if 2 < idx ∧ isDynamicId segment = true then placeholder else segment

/-- Split, replace and join. -/
def normalized (path : Str) : Str := ['/'].intercalate ((path.splitOn '/').mapIdx emit)

/-- A path is its segments. -/
theorem exists_segments (path : Str) :
    ∃ segs, segs ≠ [] ∧ (∀ seg ∈ segs, '/' ∉ seg) ∧ path = ['/'].intercalate segs := by
  induction path with
  | nil => exact ⟨[[]], cons_ne_nil _ _, by simp, rfl⟩
  | cons c path ih =>
    obtain ⟨segs, hne, hfree, rfl⟩ := ih
    obtain ⟨seg, segs, rfl⟩ := exists_cons_of_ne_nil hne
    by_cases hc : c = '/'
    · refine ⟨[] :: seg :: segs, cons_ne_nil _ _, ?_, ?_⟩
      · simpa using hfree
      · rw [intercalate_cons_cons, hc]
        rfl
    · refine ⟨(c :: seg) :: segs, cons_ne_nil _ _, ?_, ?_⟩
      · intro seg' hseg'
        rcases List.mem_cons.mp hseg' with rfl | hseg'
        · rintro (_ | ⟨_, hmem⟩)
          · exact hc rfl
          · exact hfree seg mem_cons_self hmem
        · exact hfree seg' (mem_cons_of_mem _ hseg')
      · cases segs with
        | nil => rfl
        | cons seg' segs =>
          rw [intercalate_cons_cons, intercalate_cons_cons]
          rfl

/-- A segment that is emitted has no slash. -/
theorem slash_not_mem_emit {idx : Nat} {seg : Str} (h : '/' ∉ seg) : '/' ∉ emit idx seg := by
  rw [emit]
  split
  · decide
  · exact h

theorem emit_emit (idx : Nat) (seg : Str) : emit idx (emit idx seg) = emit idx seg := by
  have hplaceholder : isDynamicId placeholder = false := by decide +kernel
  rw [emit, emit]
  split
  · rw [if_neg (by rw [hplaceholder]; exact fun h => Bool.false_ne_true h.2)]
  · rfl

/-- A path that was normalized stays as it is. -/
theorem normalized_normalized (path : Str) : normalized (normalized path) = normalized path := by
  obtain ⟨segs, hne, hfree, rfl⟩ := exists_segments path
  have hfree' : ∀ seg ∈ segs.mapIdx emit, '/' ∉ seg := by
    intro seg hseg
    obtain ⟨i, hi, rfl⟩ := List.mem_mapIdx.mp hseg
    exact slash_not_mem_emit (hfree _ (getElem_mem hi))
  have hne' : segs.mapIdx emit ≠ [] := by
    rwa [Ne, mapIdx_eq_nil_iff]
  rw [normalized, normalized, splitOn_intercalate '/' hfree hne,
    splitOn_intercalate '/' hfree' hne', mapIdx_mapIdx]
  exact congrArg _ (congrArg (segs.mapIdx ·) (funext₂ emit_emit))

/-! ### The scan -/

section
variable {path : Str} {s : Scan}

theorem scanFrom_append (pos : Nat) (bs bs' : List UInt8) (s : Scan) :
    scanFrom path pos (bs ++ bs') s = (scanFrom path pos bs s).bind (scanFrom path (pos + bs.length) bs') := by
  rw [scanFrom, zipIdx_append, foldlM_append]
  rfl

/-- Bytes that are no slash, before the last one, leave the scan as it is. -/
theorem scan_plain {pos : Nat} {bs : List UInt8} (hplain : ∀ b ∈ bs, b ≠ slash)
    (hbefore : pos + bs.length < byteLen path) : scanFrom path pos bs s = some s := by
  induction bs generalizing pos with
  | nil => rfl
  | cons b bs ih =>
    rw [length_cons] at hbefore
    have hskip : scanByte path s (b, pos) = some s := by
      refine if_neg ?_
      rintro (hslash | hlast)
      · exact hplain b mem_cons_self hslash
      · omega
    rw [scanFrom, zipIdx_cons, foldlM_cons, hskip]
    exact ih (fun b' hb' => hplain b' (mem_cons_of_mem _ hb')) (by omega)

/-- The bytes of a segment are no slashes. -/
theorem ne_slash_of_mem {seg : Str} (h : '/' ∉ seg) : ∀ b ∈ bytes seg, b ≠ slash := by
  intro b hb
  obtain ⟨c, hc, hb⟩ := List.mem_flatMap.mp hb
  rintro rfl
  by_cases hlong : 1 < (String.utf8EncodeChar c).length
  · exact Str.not_lt_of_mem_encode hlong hb (by decide)
  · have hone : (String.utf8EncodeChar c).length = 1 := by
      have hpos := c.utf8Size_pos
      rw [String.length_utf8EncodeChar] at hlong ⊢
      omega
    obtain ⟨b, hbyte⟩ := List.length_eq_one_iff.mp hone
    rw [hbyte, mem_singleton] at hb
    have hslash : String.utf8EncodeChar '/' = [b] := hb ▸ by decide
    exact h (Str.utf8EncodeChar_injective_of_singleton hslash hbyte ▸ hc)

theorem byteLen_append (s t : Str) : byteLen (s ++ t) = byteLen s + byteLen t := by
  rw [byteLen, Str.bytes_append, length_append]
  rfl

theorem sliceTo_append (before after : Str) :
    Str.sliceTo (before ++ after) (byteLen before) = some before := by
  have h := Str.sliceTo_byteLen_take (before ++ after) before.length
  rwa [take_left] at h

theorem sliceFrom_append (before after : Str) :
    Str.sliceFrom (before ++ after) (byteLen before) = some after := by
  have h := Str.sliceFrom_byteLen_take (before ++ after) before.length
  rwa [take_left, drop_left] at h

/-- A slice between characters. -/
theorem slice_append (before seg after : Str) :
    slice (before ++ seg ++ after) (byteLen before) (byteLen (before ++ seg)) = some seg := by
  rw [slice, sliceTo_append, Option.bind_some, sliceFrom_append]

/-- The text so far, with its segments replaced. -/
def Scan.out (s : Scan) (before : Str) : Str := s.result.getD before

/-- **The end of a segment** adds what becomes of the segment. -/
theorem pushSegment_out (before seg after : Str) (hstart : s.segmentStart = byteLen before) :
    ∃ result, pushSegment (before ++ after) s seg = some result ∧
      result.getD (before ++ seg) = s.out before ++ emit s.segmentIdx seg := by
  have hempty : isDynamicId [] = false := by decide
  by_cases hdynamic : 2 < s.segmentIdx ∧ isDynamicId seg = true
  · have hne : seg ≠ [] := by
      rintro rfl
      rw [hempty] at hdynamic
      cases hdynamic.2
    rw [pushSegment, if_pos ⟨hdynamic.1, hne, hdynamic.2⟩, hstart, sliceTo_append, emit,
      if_pos hdynamic, Scan.out]
    cases s.result with
    | none => exact ⟨_, rfl, rfl⟩
    | some result => exact ⟨_, rfl, rfl⟩
  · rw [pushSegment, if_neg (fun h => hdynamic ⟨h.1, h.2.2⟩), emit, if_neg hdynamic, Scan.out]
    refine ⟨_, rfl, ?_⟩
    cases s.result <;> rfl

/-- A byte that ends a segment. -/
theorem scanByte_end {b : UInt8} {pos : Nat} {seg : Str} {result : Option Str}
    (hend : b = slash ∨ pos = byteLen path - 1)
    (hslice : slice path s.segmentStart (if b = slash then pos else pos + 1) = some seg)
    (hpush : pushSegment path s seg = some result) :
    scanByte path s (b, pos) = some (if b = slash then
      ⟨pos + 1, s.segmentIdx + 1, result.map (· ++ ['/'])⟩ else { s with result := result }) := by
  rw [scanByte, if_pos hend]
  simp only [hslice, hpush, Option.bind_eq_bind, Option.bind_some]
  split <;> rfl

/-- A segment with a slash after it. -/
theorem scan_segment {before seg : Str} (rest : Str) (hfree : '/' ∉ seg) (hstart : s.segmentStart = byteLen before) :
    ∃ s', scanFrom (before ++ (seg ++ '/' :: rest)) (byteLen before) (bytes seg ++ [slash]) s = some s' ∧
      s'.segmentStart = byteLen (before ++ seg ++ ['/']) ∧ s'.segmentIdx = s.segmentIdx + 1 ∧
      s'.out (before ++ seg ++ ['/']) = s.out before ++ emit s.segmentIdx seg ++ ['/'] := by
  have hlen : byteLen (before ++ (seg ++ '/' :: rest)) = byteLen before + byteLen seg + 1 + byteLen rest := by
    rw [byteLen_append, byteLen_append, Str.byteLen_cons]
    have hsize : ('/' : Char).utf8Size = 1 := by decide
    omega
  have hend : byteLen before + (bytes seg).length = byteLen (before ++ seg) := (byteLen_append _ _).symm
  have hslice : slice (before ++ (seg ++ '/' :: rest)) s.segmentStart (byteLen (before ++ seg)) =
      some seg := by
    rw [hstart, ← append_assoc]
    exact slice_append before seg _
  obtain ⟨result, hpush, hout⟩ := pushSegment_out before seg (seg ++ '/' :: rest) hstart
  have hbyte := scanByte_end (Or.inl rfl) (b := slash) (by rw [if_pos rfl, hslice]) hpush
  have hbefore : byteLen before + (bytes seg).length < byteLen (before ++ (seg ++ '/' :: rest)) := by
    rw [hend, hlen, byteLen_append]
    omega
  rw [scanFrom_append, scan_plain (ne_slash_of_mem hfree) hbefore, Option.bind_some, hend, scanFrom,
    zipIdx_singleton, foldlM_cons, hbyte, if_pos rfl]
  refine ⟨_, rfl, ?_, rfl, ?_⟩
  · rw [byteLen_append (before ++ seg)]
    rfl
  · rw [← hout, Scan.out]
    cases result <;> rfl

/-- The last segment. -/
theorem scan_last {before seg : Str} (hfree : '/' ∉ seg) (hstart : s.segmentStart = byteLen before) :
    ∃ s', scanFrom (before ++ seg) (byteLen before) (bytes seg) s = some s' ∧
      s'.out (before ++ seg) = s.out before ++ emit s.segmentIdx seg := by
  rcases eq_nil_or_concat (bytes seg) with hnil | ⟨init, b, hbytes⟩
  · -- There is nothing after the last slash.
    have hseg : seg = [] := by
      cases seg with
      | nil => rfl
      | cons c seg =>
        rw [Str.bytes_cons, append_eq_nil_iff] at hnil
        exact absurd hnil.1 String.utf8EncodeChar_ne_nil
    subst hseg
    have hempty : isDynamicId [] = false := by decide
    refine ⟨s, rfl, ?_⟩
    rw [append_nil, emit, if_neg (by rw [hempty]; exact fun h => Bool.false_ne_true h.2), append_nil]
  · have hplain := ne_slash_of_mem hfree
    rw [concat_eq_append] at hbytes
    have hlen : byteLen (before ++ seg) = byteLen before + init.length + 1 := by
      rw [byteLen_append, byteLen, byteLen, hbytes, length_append]
      rfl
    have hslice : slice (before ++ seg) s.segmentStart (byteLen before + init.length + 1) = some seg := by
      rw [hstart, ← hlen]
      have h := slice_append before seg []
      rwa [append_nil] at h
    obtain ⟨result, hpush, hout⟩ := pushSegment_out before seg seg hstart
    have hb : b ≠ slash := hplain b (by rw [hbytes]; exact mem_append_right _ mem_cons_self)
    have hlast : byteLen before + init.length = byteLen (before ++ seg) - 1 := by omega
    have hbyte := scanByte_end (Or.inr hlast) (by rw [if_neg hb, hslice]) hpush
    have hinit : ∀ b' ∈ init, b' ≠ slash := by
      intro b' hb'
      refine hplain b' ?_
      rw [hbytes]
      exact mem_append_left _ hb'
    rw [hbytes, scanFrom_append, scan_plain hinit (by omega), Option.bind_some, scanFrom,
      zipIdx_singleton, foldlM_cons, hbyte, if_neg hb]
    exact ⟨_, rfl, hout⟩

/-- The segments from one on. -/
theorem scan_segments {segs : List Str} (hne : segs ≠ []) (hfree : ∀ seg ∈ segs, '/' ∉ seg) (before : Str)
    (hpath : path = before ++ ['/'].intercalate segs) (hstart : s.segmentStart = byteLen before) :
    ∃ s', scanFrom path (byteLen before) (bytes (['/'].intercalate segs)) s = some s' ∧
      s'.out path = s.out before ++
        ['/'].intercalate (segs.mapIdx fun i seg => emit (s.segmentIdx + i) seg) := by
  induction segs generalizing before s with
  | nil => exact absurd rfl hne
  | cons seg segs ih =>
    have hseg := hfree seg mem_cons_self
    cases segs with
    | nil =>
      rw [intercalate_singleton] at hpath ⊢
      subst hpath
      rw [mapIdx_singleton, intercalate_singleton]
      exact scan_last hseg hstart
    | cons seg' segs =>
      rw [intercalate_cons_cons, append_assoc] at hpath
      obtain ⟨s₁, hscan, hstart₁, hidx, hout⟩ :=
        scan_segment (['/'].intercalate (seg' :: segs)) hseg hstart
      obtain ⟨s₂, hscan₂, hout₂⟩ := ih (cons_ne_nil _ _)
        (fun seg'' h => hfree seg'' (mem_cons_of_mem _ h)) (before ++ seg ++ ['/'])
        (by simp [hpath]) hstart₁
      have hbytes : bytes (['/'].intercalate (seg :: seg' :: segs)) =
          bytes seg ++ [slash] ++ bytes (['/'].intercalate (seg' :: segs)) := by
        rw [intercalate_cons_cons, Str.bytes_append, Str.bytes_append]
        rfl
      have hnext : byteLen before + (bytes seg ++ [slash]).length =
          byteLen (before ++ seg ++ ['/']) := by
        rw [byteLen_append, byteLen_append, length_append, ← Nat.add_assoc]
        rfl
      refine ⟨s₂, ?_, ?_⟩
      · rw [hbytes, scanFrom_append, hnext]
        have hfirst : scanFrom path (byteLen before) (bytes seg ++ [slash]) s = some s₁ := by
          rw [hpath]
          exact hscan
        rw [hfirst, Option.bind_some, hscan₂]
      · have hidxs : (fun i seg => emit (s.segmentIdx + 1 + i) seg) =
            fun i seg => emit (s.segmentIdx + (i + 1)) seg := by
          funext i seg
          rw [Nat.add_assoc, Nat.add_comm 1]
        have hmore : (seg' :: segs).mapIdx (fun i seg => emit (s.segmentIdx + (i + 1)) seg) ≠ [] := by
          rw [Ne, mapIdx_eq_nil_iff]
          exact cons_ne_nil _ _
        rw [hout₂, hout, hidx, hidxs, mapIdx_cons (l := seg' :: segs),
          intercalate_cons_of_ne_nil hmore, Nat.add_zero]
        simp only [append_assoc]

end

/-- **The scan is the simple definition.**  For every path `normalize_path_for_metrics` slices between
characters only, returns the path with the segments replaced, and changes nothing the second time. -/
theorem normalize_eq (path : Str) :
    normalizePathForMetrics path = some (normalized path) ∧
      normalizePathForMetrics (normalized path) = some (normalized path) := by
  have hscan : ∀ path, normalizePathForMetrics path = some (normalized path) := by
    intro path
    obtain ⟨segs, hne, hfree, hpath⟩ := exists_segments path
    obtain ⟨s', hs', hout⟩ := scan_segments (s := {}) hne hfree [] hpath rfl
    have hzero : (fun i seg => emit (({} : Scan).segmentIdx + i) seg) = emit := by
      funext i seg
      exact congrArg (emit · seg) (Nat.zero_add i)
    rw [hzero] at hout
    have hrun : scanFrom path 0 (bytes path) {} = some s' := by
      rw [← hs', hpath]
      rfl
    have hspec : normalized path = ['/'].intercalate (segs.mapIdx emit) := by
      rw [normalized, hpath, splitOn_intercalate '/' hfree hne]
    rw [normalizePathForMetrics, hrun, hspec]
    exact congrArg some hout
  refine ⟨hscan path, ?_⟩
  rw [hscan, normalized_normalized]

example : normalizePathForMetrics "/v1/workers/12345/é/".toList = some "/v1/workers/\x7bid\x7d/é/".toList := by
  decide +kernel

end QwenStack.Middleware
