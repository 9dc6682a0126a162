import QwenStack.Support.Backlog
import QwenStack.Reasoning.Chunks

/-!
# Reasoning — tool tags that reasoning mentions

The text `<think>` + `r` + `</think>` + `n`, where `r` mentions the tool tag as often as it likes and
opens no block.  A held tag is resolved by the next tag or by the closing token, one of them in a call
(`resolve`), so what has arrived with one chunk takes as many calls as it has markers.  `Owes` is a
detector that holds a tag, with the number of markers it has yet to go through; a chunk takes one
away (`Owes.feed`).

`finish` takes the last held tag to be the start of a tool call, closing token or not.  The stream gives
out `r` and `n` exactly where it never comes to hold a tag, or where no fewer chunks are left at any time
than there are markers to come (`opened_split_iff`).
-/

namespace QwenStack.Reasoning
open Marker Backlog List

/-! ### The condition -/

/-- The markers of `r` and its closing token that come after the text `p`; the first tool tag is not
counted, it is held when it arrives. -/
def toArrive (r p : Str) : Nat :=
  if thinkEnd <:+: p then 0 else 1 + (occurrences toolCall r - max 1 (occurrences toolCall p))

/-- No fewer chunks are left, at any time, than markers are to come. -/
def Paced (r : Str) (chunks : List Str) : Prop :=
  ∀ before after, before ++ after = chunks → toArrive r before.flatten ≤ after.length

/-- No chunk completes a tool tag while the closing token is not complete. -/
def NeverHeld (chunks : List Str) : Prop :=
  ∀ before, before <+: chunks → toolCall <:+: before.flatten → thinkEnd <:+: before.flatten

theorem paced_iff_inits {r : Str} {chunks : List Str} : Paced r chunks ↔
      ∀ before ∈ chunks.inits, toArrive r before.flatten ≤ chunks.length - before.length := by
  constructor
  · intro h before hm
    obtain ⟨after, rfl⟩ := (mem_inits _ _).mp hm
    simpa using h before after rfl
  · rintro h before after rfl
    simpa using h before ((mem_inits _ _).mpr (prefix_append _ _))

instance (r : Str) (chunks : List Str) : Decidable (Paced r chunks) :=
  decidable_of_iff' _ paced_iff_inits

instance (chunks : List Str) : Decidable (NeverHeld chunks) :=
  decidable_of_iff (∀ before ∈ chunks.inits, toolCall <:+: before.flatten →
    thinkEnd <:+: before.flatten) <|
    forall_congr' fun _ => imp_congr_left (mem_inits _ _)

section
variable {r n past later rest t p : Str}

theorem toArrive_closed (h : thinkEnd <:+: p) : toArrive r p = 0 := if_pos h

theorem toArrive_open (h : ¬ thinkEnd <:+: p) :
    toArrive r p = 1 + (occurrences toolCall r - max 1 (occurrences toolCall p)) := if_neg h

theorem toArrive_reading (he : ¬ thinkEnd <:+: p) (ht : ¬ toolCall <:+: p) :
    toArrive r p = 1 + (occurrences toolCall r - 1) := by
  rw [toArrive_open he, marked_toolCall.occurrences_eq_zero.mpr ht]
  rfl

/-- The opening token is no marker. -/
theorem end_infix_opened : thinkEnd <:+: thinkStart ++ t ↔ thinkEnd <:+: t := by
  have h := marked_thinkEnd.infix_append_apart marked_thinkStart apart_start_end.symm (u := []) (v := t)
  simpa [marked_thinkEnd.ne_nil] using h

theorem tool_infix_opened : toolCall <:+: thinkStart ++ t ↔ toolCall <:+: t := by
  have h := marked_toolCall.infix_append_apart marked_thinkStart apart_start_tool.symm
    (u := []) (v := t)
  simpa [marked_toolCall.ne_nil] using h

theorem toArrive_opened : toArrive r (thinkStart ++ t) = toArrive r t := by
  have h := marked_toolCall.occurrences_apart marked_thinkStart apart_start_tool.symm [] t
  rw [nil_append] at h
  simp only [toArrive, end_infix_opened, h, occurrences, Nat.zero_add]

/-! ### Where a marker of the text stands -/

/-- The first closing token of the text is the one after `r`. -/
theorem end_place {u v : Str} (he : ¬ thinkEnd <:+: r) (hu : ¬ thinkEnd <:+: u)
    (h : u ++ thinkEnd ++ v <+: r ++ thinkEnd ++ n) : u = r := by
  obtain ⟨w, hw⟩ := h
  rw [append_assoc (u ++ thinkEnd)] at hw
  exact (first_unique marked_thinkEnd hu he hw).1

/-- A tool tag before it is one of `r`. -/
theorem tool_place {u v : Str} (he : ¬ thinkEnd <:+: r) (hu : ¬ thinkEnd <:+: u)
    (h : u ++ toolCall ++ v <+: r ++ thinkEnd ++ n) : ∃ later, r = u ++ toolCall ++ later := by
  obtain ⟨w, hw⟩ := h
  rw [append_assoc (u ++ toolCall)] at hw
  -- the closing token begins after the tag begins
  have hfind : find thinkEnd (u ++ toolCall ++ (v ++ w)) = some r.length := by
    rw [hw, find_append marked_thinkEnd he]
  have hlt := lt_of_find marked_thinkEnd marked_toolCall apart_end_tool hu hfind
  have hur : u <+: r := by
    refine prefix_of_prefix_length_le (?_ : u <+: r ++ thinkEnd ++ n) ?_ hlt.le
    · rw [← hw, append_assoc]
      exact prefix_append _ _
    · rw [append_assoc]
      exact prefix_append _ _
  obtain ⟨z, rfl⟩ := hur
  have hz : z ≠ [] := by
    rintro rfl
    simp at hlt
  -- and ends before the closing token
  simp only [append_assoc, append_cancel_left_eq] at hw
  have hp : toolCall <+: z ++ '<' :: (thinkEnd.tail ++ n) := by
    rw [← marked_thinkEnd.append_eq, ← hw]
    exact prefix_append _ _
  obtain ⟨later, rfl⟩ := marked_toolCall.prefix_of_append hz hp
  exact ⟨later, by simp⟩

/-- A block before the closing token is one of `r`. -/
theorem OpensBlock.of_end {u v : Str} (h : OpensBlock (u ++ thinkEnd ++ v)) : OpensBlock u := by
  rw [OpensBlock, lstrip, append_assoc, dropWhile_append] at h
  rw [OpensBlock, lstrip]
  cases hd : u.dropWhile isSpace with
  | nil =>
    rw [hd, isEmpty_nil, if_pos rfl] at h
    exact absurd h (apart_end_function.symm.not_prefix_append v)
  | cons c u' =>
    rw [hd, if_neg (by simp), marked_thinkEnd.append_eq] at h
    exact marked_functionPrefix.prefix_of_append (cons_ne_nil _ _) h

/-! ### A held tag and what is owed -/

/-- No tool tag of `r` opens a block. -/
def OpensNoBlock (r : Str) : Prop := ∀ u v, r = u ++ toolCall ++ v → ¬ OpensBlock v

theorem opensNoBlock_of_absent {r : Str} (h : ¬ functionPrefix <:+: r) : OpensNoBlock r := by
  rintro u v rfl ho
  obtain ⟨ws, w, rfl, -⟩ := opensBlock_iff_exists.mp ho
  exact h (infix_append_of_infix_right (infix_append _ _ _))

/-- After the text a tool tag of `r` is held, with `k` markers yet to go through, or reasoning is
closed after `r`. -/
inductive Owes (r : Str) : Str → Nat → Phase → Prop
  | holding {past rest later : Str} (hr : r = past ++ toolCall ++ later) :
      Owes r (past ++ toolCall ++ rest) (1 + occurrences toolCall later) (.holding past rest)
  | closed {v : Str} : Owes r (r ++ thinkEnd ++ v) 0 (.closed r v)

theorem not_end_held (he : ¬ thinkEnd <:+: past ++ toolCall ++ later)
    (hrest : ¬ thinkEnd <:+: rest) : ¬ thinkEnd <:+: past ++ toolCall ++ rest :=
  not_end_append (fun hi => he (by
    rw [append_assoc]
    exact infix_append_of_infix_left hi)) hrest

/-- What is to come, while a tag is held and the closing token is not there. -/
theorem toArrive_held (later : Str) (h : ¬ thinkEnd <:+: past ++ toolCall ++ rest) :
    toArrive (past ++ toolCall ++ later) (past ++ toolCall ++ rest) =
      1 + (occurrences toolCall later - occurrences toolCall rest) := by
  rw [toArrive_open h, marked_toolCall.occurrences_self, marked_toolCall.occurrences_self]
  omega

theorem toArrive_le_held (past later rest : Str) :
    toArrive (past ++ toolCall ++ later) (past ++ toolCall ++ rest) ≤
      1 + (occurrences toolCall later - occurrences toolCall rest) := by
  by_cases h : thinkEnd <:+: past ++ toolCall ++ rest
  · rw [toArrive_closed h]
    exact Nat.zero_le _
  · exact (toArrive_held later h).le

/-- **One decision**: the held tag goes through the next marker, where it has arrived. -/
theorem owes_resolve (he : ¬ thinkEnd <:+: r) (hb : OpensNoBlock r)
    (hr : r = past ++ toolCall ++ later)
    (hp : past ++ toolCall ++ rest <+: r ++ thinkEnd ++ n) :
    Owes r (past ++ toolCall ++ rest)
      (max (occurrences toolCall later) (toArrive r (past ++ toolCall ++ rest)))
      (resolve past rest) := by
  have hlater : ¬ thinkEnd <:+: later := fun hi => he (hr ▸ infix_append_of_infix_right hi)
  have hrest : rest <+: later ++ thinkEnd ++ n := by
    rw [hr] at hp
    simpa using hp
  have ho : ¬ OpensBlock rest := by
    intro ho
    obtain ⟨w, hw⟩ := hrest
    exact hb past later hr (OpensBlock.of_end (hw ▸ ho.append w))
  rcases exists_first_of_two marked_thinkEnd.ne_nil marked_toolCall.ne_nil rest with
    ⟨heu, htu⟩ | ⟨u, v, rfl, heu, htu⟩ | ⟨u, v, rfl, heu, htu⟩
  · -- no marker: the same tag is held, and what it waits for has not come
    subst hr
    have hcount := toArrive_held later (not_end_held he heu)
    rw [marked_toolCall.occurrences_eq_zero.mpr htu, Nat.sub_zero] at hcount
    rw [resolve_none ho heu htu, hcount, Nat.max_eq_right (Nat.le_add_left _ _)]
    exact .holding rfl
  · obtain rfl := end_place hlater heu hrest
    have htext : past ++ toolCall ++ (u ++ thinkEnd ++ v) = r ++ thinkEnd ++ v := by
      rw [hr]
      simp
    rw [resolve_end ho heu htu, htext, toArrive_closed (infix_append _ _ _),
      marked_toolCall.occurrences_eq_zero.mpr htu, ← hr]
    exact .closed
  · obtain ⟨later', rfl⟩ := tool_place hlater heu hrest
    have hle := toArrive_le_held past (u ++ toolCall ++ later') (u ++ toolCall ++ v)
    rw [← hr] at hle
    rw [resolve_next ho heu htu]
    simp only [marked_toolCall.occurrences_self, marked_toolCall.occurrences_eq_zero.mpr htu] at hle ⊢
    have hk : max (0 + 1 + occurrences toolCall later')
        (toArrive r (past ++ toolCall ++ (u ++ toolCall ++ v))) = 1 + occurrences toolCall later' := by
      omega
    have htext : past ++ toolCall ++ (u ++ toolCall ++ v) =
        past ++ toolCall ++ u ++ toolCall ++ v := by simp
    rw [hk, htext]
    exact .holding (by rw [hr]; simp)

/-- **A further chunk** takes one marker away, of those that have arrived. -/
theorem Owes.feed {k : Nat} {ph : Phase} (he : ¬ thinkEnd <:+: r) (hb : OpensNoBlock r)
    (h : Owes r t k ph) {x : Str} (hp : t ++ x <+: r ++ thinkEnd ++ n) :
    Owes r (t ++ x) (max (k - 1) (toArrive r (t ++ x))) (ph.feed x) := by
  cases h with
  | @holding past rest later hr =>
    rw [append_assoc] at hp ⊢
    rw [Nat.add_sub_cancel_left]
    exact owes_resolve he hb hr hp
  | @closed v =>
    have htext : r ++ thinkEnd ++ v ++ x = r ++ thinkEnd ++ (v ++ x) := by simp
    rw [htext, toArrive_closed (infix_append _ _ _)]
    exact .closed

/-- The chunks after it. -/
theorem Owes.run (he : ¬ thinkEnd <:+: r) (hb : OpensNoBlock r) (chunks : List Str) :
    ∀ {t : Str} {k : Nat} {ph : Phase} {past : List Str}, Owes r t k ph →
      past.flatten = thinkStart ++ t → t ++ chunks.flatten = r ++ thinkEnd ++ n →
      Owes r (r ++ thinkEnd ++ n) (backlog (fun cs => toArrive r cs.flatten) k past chunks)
        (chunks.foldl Phase.feed ph) := by
  induction chunks with
  | nil =>
    intro t k ph past h _ htext
    rw [flatten_nil, append_nil] at htext
    exact htext ▸ h
  | cons x chunks ih =>
    intro t k ph past h hpast htext
    rw [flatten_cons, ← append_assoc] at htext
    have hpast' : (past ++ [x]).flatten = thinkStart ++ (t ++ x) := by
      rw [flatten_append, hpast]
      simp
    rw [backlog, foldl_cons, hpast', toArrive_opened]
    exact ih (h.feed he hb ⟨_, htext⟩) hpast' htext

/-- At the end: what is owed is kept back from the reasoning. -/
theorem Owes.split_iff {k : Nat} {ph : Phase} (h : Owes r (r ++ thinkEnd ++ n) k ph) :
    ph.split = ⟨n, r⟩ ↔ k = 0 := by
  generalize htext : r ++ thinkEnd ++ n = text at h
  cases h with
  | @holding past rest later hr =>
    -- a held text gives out the closing token
    have hne : (Phase.holding past rest).split ≠ ⟨n, r⟩ := by
      intro hsplit
      obtain ⟨u, v, huv, hv⟩ := exists_last marked_toolCall.ne_nil (infix_append past toolCall rest)
      rw [split_holding huv hv, Result.mk.injEq] at hsplit
      obtain ⟨rfl, rfl⟩ := hsplit
      have := congrArg List.length (htext.trans huv)
      have : thinkEnd.length = 8 := rfl
      simp only [length_append] at *
      omega
    exact ⟨fun hs => absurd hs hne, fun hk => absurd hk (by omega)⟩
  | @closed v =>
    rw [append_cancel_left htext]
    exact ⟨fun _ => rfl, fun _ => rfl⟩

end

/-! ### The stream -/

section
variable {r n : Str} {full past chunks : List Str} {x t y : Str}

/-- The chunk completes the closing token, while no tag is held. -/
theorem reading_closes (he : ¬ thinkEnd <:+: r)
    (hfull : full.flatten = thinkStart ++ (r ++ thinkEnd ++ n)) (hsplit : past ++ x :: chunks = full)
    (hx : past.flatten ++ x = thinkStart ++ (t ++ y)) (ht : ¬ toolCall <:+: past.flatten)
    (hend : thinkEnd <:+: t ++ y) :
    ((y :: chunks).foldl Phase.feed (.reading t)).split = ⟨n, r⟩ ∧ NeverHeld full := by
  have htext : t ++ y ++ chunks.flatten = r ++ thinkEnd ++ n := by
    rw [← hsplit, flatten_append, flatten_cons, ← append_assoc, hx] at hfull
    simpa using hfull
  constructor
  · obtain ⟨u, v, huv, hu⟩ := exists_first marked_thinkEnd.ne_nil hend
    rw [huv] at htext
    obtain rfl := end_place he hu ⟨_, htext⟩
    rw [foldl_cons, Phase.feed, huv, read_end hu, foldl_closed]
    rw [append_assoc (u ++ thinkEnd)] at htext
    rw [append_cancel_left htext]
    rfl
  · intro before hbefore htool
    have hpast : past <+: full := ⟨_, hsplit⟩
    rcases prefix_or_prefix_of_prefix hbefore hpast with hle | ⟨b, rfl⟩
    · obtain ⟨c, rfl⟩ := hle
      rw [flatten_append] at ht
      exact absurd (infix_append_of_infix_left htool) ht
    · -- the chunk is one of those before
      cases b with
      | nil => exact absurd (by simpa using htool) ht
      | cons z b =>
        obtain ⟨c, hc⟩ := hbefore
        rw [← hsplit, append_assoc, append_cancel_left_eq, cons_append] at hc
        obtain ⟨rfl, -⟩ := List.cons.inj hc
        rw [flatten_append, flatten_cons, ← append_assoc, hx]
        exact infix_append_of_infix_left (end_infix_opened.mpr hend)

/-- The chunk completes a tool tag and not the closing token. -/
theorem reading_holds_iff (he : ¬ thinkEnd <:+: r) (hb : OpensNoBlock r)
    (hfull : full.flatten = thinkStart ++ (r ++ thinkEnd ++ n)) (hsplit : past ++ x :: chunks = full)
    (hx : past.flatten ++ x = thinkStart ++ (t ++ y)) (hpe : ¬ thinkEnd <:+: past.flatten)
    (hpt : ¬ toolCall <:+: past.flatten) (hend : ¬ thinkEnd <:+: t ++ y)
    (htool : toolCall <:+: t ++ y) :
    ((y :: chunks).foldl Phase.feed (.reading t)).split = ⟨n, r⟩ ↔ NeverHeld full ∨ Paced r full := by
  have htext : t ++ y ++ chunks.flatten = r ++ thinkEnd ++ n := by
    rw [← hsplit, flatten_append, flatten_cons, ← append_assoc, hx] at hfull
    simpa using hfull
  have hpast : (past ++ [x]).flatten = thinkStart ++ (t ++ y) := by simpa using hx
  have hnever : ¬ NeverHeld full := fun h => hend (end_infix_opened.mp (hpast ▸
    h (past ++ [x]) ⟨chunks, by simpa using hsplit⟩ (hpast ▸ tool_infix_opened.mpr htool)))
  -- the tag is held, and the call decides once
  obtain ⟨u, v, huv, hu⟩ := exists_first marked_toolCall.ne_nil htool
  have heu : ¬ thinkEnd <:+: u := fun hi => hend (by
    rw [huv, append_assoc]
    exact infix_append_of_infix_left hi)
  have hprefix : u ++ toolCall ++ v <+: r ++ thinkEnd ++ n := huv ▸ ⟨chunks.flatten, htext⟩
  obtain ⟨later, hr⟩ := tool_place he heu hprefix
  set f : List Str → Nat := fun cs => toArrive r cs.flatten with hf
  have hcount : f past = 1 + occurrences toolCall later := by
    have hnone := toArrive_reading (r := r) hpe hpt
    rw [hr, marked_toolCall.occurrences_self, marked_toolCall.occurrences_eq_zero.mpr hu, ← hr] at hnone
    simpa using hnone
  have hcall : f (past ++ [x]) = toArrive r (t ++ y) := by
    show toArrive r (past ++ [x]).flatten = _
    rw [hpast, toArrive_opened]
  have hfirst : Owes r (t ++ y) (max (f past - 1) (f (past ++ [x]))) (read (t ++ y)) := by
    rw [hcount, Nat.add_sub_cancel_left, hcall, huv, read_tool (huv ▸ hend) hu]
    exact owes_resolve he hb hr hprefix
  have hrun := hfirst.run he hb chunks hpast htext
  rw [foldl_cons, Phase.feed, hrun.split_iff, or_iff_right hnever]
  have hzero : backlog f (f past) past (x :: chunks) = 0 ↔ _ :=
    backlog_eq_zero_iff (x :: chunks) le_rfl
  rw [backlog] at hzero
  rw [hzero]
  constructor
  · rintro ⟨hle, hall⟩ before after hbefore
    rw [← hsplit] at hbefore
    rcases List.append_eq_append_iff.mp hbefore with ⟨b, rfl, hafter⟩ | ⟨b, rfl, hafter⟩
    · -- before the chunk all the markers are to come
      have hbe : ¬ thinkEnd <:+: before.flatten := fun hi => hpe (by
        rw [flatten_append]
        exact infix_append_of_infix_left hi)
      have hbt : ¬ toolCall <:+: before.flatten := fun hi => hpt (by
        rw [flatten_append]
        exact infix_append_of_infix_left hi)
      rw [hf] at hle
      rw [toArrive_reading hbe hbt, ← toArrive_reading hpe hpt]
      rw [hafter, length_append]
      exact Nat.le_trans hle (Nat.le_add_left _ _)
    · exact hall b after hafter.symm
  · intro hpaced
    exact ⟨hpaced past (x :: chunks) hsplit, fun before after heq =>
      hpaced (past ++ before) after (by rw [append_assoc, heq, hsplit])⟩

end

/-- While no marker has arrived: the chunk that brings one decides between the two ways to go on. -/
theorem reading_split_iff {r n : Str} (he : ¬ thinkEnd <:+: r) (hb : OpensNoBlock r)
    {full : List Str} (hfull : full.flatten = thinkStart ++ (r ++ thinkEnd ++ n))
    (chunks : List Str) :
    ∀ {past : List Str} {x t y : Str}, past ++ x :: chunks = full →
      past.flatten ++ x = thinkStart ++ (t ++ y) →
      ¬ thinkEnd <:+: past.flatten → ¬ toolCall <:+: past.flatten →
      (((y :: chunks).foldl Phase.feed (.reading t)).split = ⟨n, r⟩ ↔
        NeverHeld full ∨ Paced r full) := by
  induction chunks with
  | nil =>
    intro past x t y hsplit hx hpe hpt
    have hend : thinkEnd <:+: t ++ y := by
      rw [← hsplit, flatten_append, flatten_singleton, hx, append_cancel_left_eq] at hfull
      exact hfull ▸ infix_append _ _ _
    obtain ⟨hres, hnever⟩ := reading_closes he hfull hsplit hx hpt hend
    exact iff_of_true hres (.inl hnever)
  | cons x' chunks ih =>
    intro past x t y hsplit hx hpe hpt
    by_cases hend : thinkEnd <:+: t ++ y
    · obtain ⟨hres, hnever⟩ := reading_closes he hfull hsplit hx hpt hend
      exact iff_of_true hres (.inl hnever)
    · by_cases htool : toolCall <:+: t ++ y
      · exact reading_holds_iff he hb hfull hsplit hx hpe hpt hend htool
      · -- nothing yet
        have hpast : (past ++ [x]).flatten = thinkStart ++ (t ++ y) := by simpa using hx
        rw [foldl_cons, Phase.feed, read_none hend htool]
        have hsplit' : (past ++ [x]) ++ x' :: chunks = full := by simpa using hsplit
        have hx' : (past ++ [x]).flatten ++ x' = thinkStart ++ ((t ++ y) ++ x') := by
          rw [hpast, append_assoc]
        refine ih hsplit' hx' ?_ ?_
        · rw [hpast, end_infix_opened]
          exact hend
        · rw [hpast, tool_infix_opened]
          exact htool

/-- **Mentions of the tool tag in reasoning**: the stream gives out the reasoning and the normal text
exactly where no tag is held before the closing token is there, or where enough chunks are left at
all times for the markers that are to come. -/
theorem opened_split_iff (force : Bool) {r n : Str} (he : ¬ thinkEnd <:+: r)
    (hb : OpensNoBlock r) {chunks : List Str}
    (hc : chunks.flatten = thinkStart ++ r ++ thinkEnd ++ n) :
    parseStream qwen3Detector (plain true force) chunks = ⟨n, r⟩ ↔
      NeverHeld chunks ∨ Paced r chunks := by
  have hfull : chunks.flatten = thinkStart ++ (r ++ thinkEnd ++ n) := by simpa using hc
  obtain ⟨before, x, y, after, hsplit, hx, hn, hres⟩ := parseStream_opened_at force hfull
  -- the opening token is not complete before that chunk
  have hcut : before.flatten <+: thinkStart :=
    (List.prefix_or_prefix_of_prefix ⟨_, hx⟩ (prefix_append thinkStart y)).resolve_right hn
  have hpe : ¬ thinkEnd <:+: before.flatten := fun hi =>
    apart_start_end.right ((marked_thinkEnd.infix_marked marked_thinkStart hcut hi).trans hcut)
  have hpt : ¬ toolCall <:+: before.flatten := fun hi =>
    apart_start_tool.right ((marked_toolCall.infix_marked marked_thinkStart hcut hi).trans hcut)
  rw [hres]
  exact reading_split_iff he hb hfull after hsplit.symm (t := []) hx hpe hpt

/-- Two mentions, each with a chunk of its own. -/
theorem mentions_come_singly :
    parseStream qwen3Detector (plain true false)
        ["<think>a<tool_".toList, "call>b<tool_call>c</thi".toList, "nk>n".toList] =
      ⟨"n".toList, "a<tool_call>b<tool_call>c".toList⟩ := by
  exact (opened_split_iff false (by decide) (opensNoBlock_of_absent (by decide))
    (by decide)).mpr (.inr (by decide))

/-- The second mention comes in one chunk with the closing token. -/
theorem mention_beside_end_leaks :
    ∃ r n : Str, ¬ thinkStart <:+: r ∧ ¬ thinkEnd <:+: r ∧ OpensNoBlock r ∧
      ∃ chunks : List Str, chunks.flatten = thinkStart ++ r ++ thinkEnd ++ n ∧
        parseStream qwen3Detector (plain true false) chunks ≠ ⟨n, r⟩ :=
  ⟨"a<tool_call>b<tool_call>c".toList, "n".toList, by decide, by decide,
    opensNoBlock_of_absent (by decide),
    ["<think>a<tool_call>b".toList, "<tool_call>c</think>n".toList], by decide, by decide⟩

end QwenStack.Reasoning
