import Mathlib.Data.List.Induction
import QwenStack.Support.JsonScan

/-!
# Support — lines

`lines` reads the lines of a text as a program does whose lines end in LF or CRLF, and `join` puts lines
together.  Joined lines are read as they were but for one CR at the end of each (`filterMap_lines_join`).

Between two lines of a JSON text nothing is open: a line cannot begin with a character that begins no token
(`head_ne_of_isJson_join`).
-/

namespace QwenStack.Lines
open JsonScan List

/-- A line without the CR that it ends in. -/
def stripCr (line : Str) : Str := if line.getLast? = some '\r' then line.dropLast else line

/-- What stands after the last LF is a line unless it is empty. -/
def lastLine (line : Option Str) : List Str := line.toList.filter fun line => decide (line ≠ [])

/-- `str::lines`. -/
def lines (text : Str) : List Str :=
  (text.splitOn '\n').dropLast.map stripCr ++ lastLine (text.splitOn '\n').getLast?

/-- `join`, with LF. -/
def join (lines : List Str) : Str := ['\n'].intercalate lines

@[simp] theorem join_nil : join [] = [] := rfl

@[simp] theorem join_singleton (line : Str) : join [line] = line := intercalate_singleton

theorem join_cons_cons (line line' : Str) (rest : List Str) :
    join (line :: line' :: rest) = line ++ '\n' :: join (line' :: rest) := by
  rw [join, intercalate_cons_cons, append_assoc]
  rfl

theorem join_append_singleton {ls : List Str} (h : ls ≠ []) (line : Str) :
    join (ls ++ [line]) = join ls ++ '\n' :: line := by
  induction ls with
  | nil => exact absurd rfl h
  | cons first rest ih =>
    cases rest with
    | nil => rw [singleton_append, join_cons_cons, join_singleton, join_singleton]
    | cons next rest =>
      have hrest := ih (cons_ne_nil next rest)
      rw [cons_append] at hrest
      rw [cons_append, cons_append, join_cons_cons, join_cons_cons, hrest, append_assoc, cons_append]

/-- Lines before others make the text longer. -/
theorem length_join_lt_append {first : List Str} (ls : List Str) (hlines : ∀ line ∈ first, line ≠ [])
    (h : first ≠ []) :
    (join ls).length < (join (first ++ ls)).length := by
  induction first with
  | nil => exact absurd rfl h
  | cons line rest ih =>
    have hline : 0 < line.length := List.length_pos_iff.mpr (hlines line mem_cons_self)
    have hcons : ∀ ls' : List Str, (join ls').length < (join (line :: ls')).length := by
      intro ls'
      cases ls' with
      | nil => simpa using hline
      | cons line' ls' =>
        rw [join_cons_cons, length_append, length_cons]
        omega
    by_cases hrest : rest = []
    · subst hrest
      exact hcons ls
    · exact Nat.lt_trans (ih (fun line' hmem => hlines line' (mem_cons_of_mem _ hmem)) hrest) (hcons _)

theorem length_join_lt_singleton (ls : List Str) {line : Str} (h : line ≠ []) :
    (join ls).length < (join (ls ++ [line])).length := by
  by_cases hls : ls = []
  · simpa [hls] using List.length_pos_iff.mpr h
  · rw [join_append_singleton hls, length_append, length_cons]
    omega

theorem splitOn_join {ls : List Str} (h : ∀ line ∈ ls, '\n' ∉ line) (hne : ls ≠ []) :
    (join ls).splitOn '\n' = ls :=
  splitOn_intercalate '\n' h hne

/-! ### Lines have no LF -/

theorem not_mem_of_mem_splitOn {text piece : Str} (h : piece ∈ text.splitOn '\n') : '\n' ∉ piece := by
  induction text generalizing piece with
  | nil =>
    rw [splitOn_nil, mem_singleton] at h
    exact h ▸ not_mem_nil
  | cons c text ih =>
    rw [splitOn_cons_eq_if_modifyHead] at h
    split at h
    · rcases List.mem_cons.mp h with rfl | h
      · exact not_mem_nil
      · exact ih h
    · next hc =>
      obtain ⟨first, rest, hsplit⟩ := exists_cons_of_ne_nil (splitOn_ne_nil '\n' text)
      rw [hsplit, modifyHead_cons] at h
      rcases List.mem_cons.mp h with rfl | h
      · refine not_mem_cons_of_ne_of_not_mem (fun heq => hc ?_) (ih ?_)
        · exact beq_iff_eq.mpr heq.symm
        · rw [hsplit]
          exact mem_cons_self ..
      · refine ih ?_
        rw [hsplit]
        exact mem_cons_of_mem _ h

theorem stripCr_isPrefix (line : Str) : stripCr line <+: line := by
  rw [stripCr]
  split
  · exact dropLast_prefix line
  · exact prefix_refl line

theorem not_mem_of_mem_lines {text line : Str} (h : line ∈ lines text) : '\n' ∉ line := by
  rcases List.mem_append.mp h with h | h
  · obtain ⟨piece, hpiece, rfl⟩ := List.mem_map.mp h
    intro hmem
    exact not_mem_of_mem_splitOn (dropLast_subset _ hpiece) ((stripCr_isPrefix piece).subset hmem)
  · obtain ⟨hlast, -⟩ := List.mem_filter.mp h
    exact not_mem_of_mem_splitOn (List.mem_of_getLast? (Option.mem_toList.mp hlast))

/-! ### Lines that are joined -/

/-- Something that is read off the lines, and does not depend on a CR at their end. -/
theorem filterMap_lines_join {α : Type*} {f : Str → Option α} {ls : List Str}
    (h : ∀ line ∈ ls, '\n' ∉ line) (hcr : ∀ line ∈ ls, f (stripCr line) = f line)
    (hnil : f [] = none) : (lines (join ls)).filterMap f = ls.filterMap f := by
  cases ls using List.reverseRecOn with
  | nil => rfl
  | append_singleton init last =>
    have hne : init ++ [last] ≠ [] := append_ne_nil_of_right_ne_nil _ (cons_ne_nil _ _)
    rw [lines, splitOn_join h hne, dropLast_concat, List.getLast?_concat, filterMap_append,
      filterMap_append, filterMap_map]
    congr 1
    · exact filterMap_congr fun line hline => hcr line (mem_append_left _ hline)
    · by_cases hlast : last = []
      · subst hlast
        exact (filterMap_cons_none hnil).symm
      · have hline : lastLine (some last) = [last] :=
          List.filter_eq_self.mpr fun line h => decide_eq_true (List.mem_singleton.mp h ▸ hlast)
        rw [hline]

/-! ### The lines of JSON -/

/-- A character that does not begin a token. -/
structure Inner (c : Char) : Prop where
  start : ∀ stack, startValue stack c = none
  after : ∀ stack, afterValue stack c = none
  space : isSpace c = false
  other : c ≠ '"' ∧ c ≠ '\x7d' ∧ c ≠ ']' ∧ c ≠ ':'

/-- After an LF a token begins, or there is more space. -/
theorem step_inner {s s' : JsonScan.State} {c : Char} (hc : Inner c) (h : step s '\n' = some s') :
    step s' c = none := by
  obtain ⟨mode, stack⟩ := s
  obtain ⟨hquote, hbrace, hbracket, hcolon⟩ := hc.other
  cases mode with
  | value =>
    cases h
    exact (if_neg (Bool.eq_false_iff.mp hc.space)).trans (hc.start stack)
  | first =>
    cases h
    exact (if_neg (Bool.eq_false_iff.mp hc.space)).trans ((if_neg hbracket).trans (hc.start stack))
  | firstKey =>
    cases h
    exact (if_neg (Bool.eq_false_iff.mp hc.space)).trans ((if_neg hquote).trans (if_neg hbrace))
  | key =>
    cases h
    exact (if_neg (Bool.eq_false_iff.mp hc.space)).trans (if_neg hquote)
  | colon =>
    cases h
    exact (if_neg (Bool.eq_false_iff.mp hc.space)).trans (if_neg hcolon)
  | string isKey => cases h
  | escape isKey => cases h
  | hex isKey more => cases h
  | literal rest =>
    cases rest with
    | nil => cases h
    | cons d rest =>
      have hd : ¬('\n' = d ∧ Char.isAlpha '\n' = true) := fun hd => absurd hd.2 (by decide)
      cases (if_neg hd).symm.trans h
  | number n =>
    have hn : step ⟨.number n, stack⟩ '\n' = if n.complete = true then afterValue stack '\n' else none := by
      cases n <;> rfl
    rw [hn] at h
    split at h
    · cases h
      exact hc.after stack
    · cases h
  | ended =>
    cases h
    exact hc.after stack

theorem head_ne_of_run {s : JsonScan.State} {c : Char} (hc : Inner c) (hs : step s c = none)
    {ls : List Str} (h : (run s (join ls)).isSome = true) : ∀ line ∈ ls, line.head? ≠ some c := by
  have hfirst : ∀ {s : JsonScan.State} {line rest : Str}, step s c = none →
      (run s (line ++ rest)).isSome = true → line.head? ≠ some c := by
    intro s line rest hs hrun hhead
    obtain ⟨tail, rfl⟩ := List.head?_eq_some_iff.mp hhead
    rw [cons_append, run_cons, hs] at hrun
    cases hrun
  induction ls generalizing s with
  | nil => exact fun line hline => absurd hline not_mem_nil
  | cons line ls ih =>
    cases ls with
    | nil =>
      rw [join_singleton, ← append_nil line] at h
      rw [forall_mem_singleton]
      exact hfirst hs h
    | cons line' rest =>
      rw [join_cons_cons] at h
      rw [forall_mem_cons]
      refine ⟨hfirst hs h, ?_⟩
      rw [run_append] at h
      obtain ⟨s₁, h₁⟩ := Option.isSome_iff_exists.mp h
      obtain ⟨s₂, -, h₂⟩ := Option.bind_eq_some_iff.mp h₁
      rw [run_cons] at h₂
      obtain ⟨s₃, h₃, h₄⟩ := Option.bind_eq_some_iff.mp h₂
      exact ih (step_inner hc h₃) (Option.isSome_iff_exists.mpr ⟨s₁, h₄⟩)

/-- **The lines of JSON** do not begin inside of a token. -/
theorem head_ne_of_isJson_join {c : Char} (hc : Inner c) {ls : List Str}
    (h : isJson (join ls) = true) : ∀ line ∈ ls, line.head? ≠ some c := by
  obtain ⟨s, hs, -⟩ := (Option.any_eq_true _ _).mp h
  refine head_ne_of_run hc (s := ⟨.value, []⟩) ?_ (Option.isSome_iff_exists.mpr ⟨s, hs⟩)
  exact (if_neg (Bool.eq_false_iff.mp hc.space)).trans (hc.start [])

end QwenStack.Lines
