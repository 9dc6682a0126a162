import QwenStack.Reasoning.Phases

/-!
# Reasoning — the texts that any chunks split alike

A text in reasoning is `Steady` when the phases split it the same way however it is cut into
chunks, which is then the way `detect_and_parse` splits it (`Steady.split_eq`).  With a closing
token in it (`Closes`), the tool tags before the token are prose, and the token comes before a
second one.  Without, the first tool tag opens a block (`FirstOpens`), or none does but the last
(`OnlyLastOpens`).

The reason for the conditions: a held tool tag is decided once a call, and the end of the stream
cuts at the last tag of what is held.
-/

namespace QwenStack.Reasoning
open Marker List

/-- The text has a closing token; a tool tag before the first one opens no block, and a closing
token follows it before another tool tag. -/
def Closes (text : Str) : Prop :=
  thinkEnd <:+: text ∧ ∀ p rest, text = p ++ toolCall ++ rest → ¬ thinkEnd <:+: p →
    ¬ OpensBlock rest ∧ ∃ q v, rest = q ++ thinkEnd ++ v ∧ ¬ toolCall <:+: q

/-- The first tool tag opens a block. -/
def FirstOpens (text : Str) : Prop :=
  ∃ u v, text = u ++ toolCall ++ v ∧ ¬ toolCall <:+: u ∧ OpensBlock v

/-- No tool tag but the last opens a block. -/
def OnlyLastOpens (text : Str) : Prop :=
  ∀ p rest, text = p ++ toolCall ++ rest → toolCall <:+: rest → ¬ OpensBlock rest

/-- Any chunks split the text alike. -/
def Steady (text : Str) : Prop :=
  Closes text ∨ (¬ thinkEnd <:+: text ∧ (FirstOpens text ∨ OnlyLastOpens text))

/-! ### One shot -/

theorem splitReasoning_end {stream force : Bool} {u v : Str} (he : ¬ thinkEnd <:+: u) :
    splitReasoning qwen3Detector (plain stream force) (u ++ thinkEnd ++ v) = ⟨v, u⟩ := by
  have hE : qwen3Detector.thinkEndToken = thinkEnd := rfl
  simp only [splitReasoning, hE, find_append marked_thinkEnd he, take_word, drop_word]

/-- The tag at which the loop of `_find_real_tool_start` stops: no tag before it opens a block,
and it does, or it is the last. -/
theorem realToolStartFrom_eq {text u v : Str} (heq : text = u ++ toolCall ++ v)
    (hv : OpensBlock v ∨ ¬ toolCall <:+: v)
    (hbefore : ∀ p rest, text = p ++ toolCall ++ rest → p.length < u.length → ¬ OpensBlock rest) :
    ∀ (fuel : Nat) (a b : Str) (last : Option Nat), u = a ++ b → b.length + 2 ≤ fuel →
      realToolStartFrom qwen3Detector toolCall text fuel a.length last = some u.length
  | 0, _, _, _, _, h => absurd h (by omega)
  | fuel + 1, a, b, last, hu, hfuel => by
      have hdrop : text.drop a.length = b ++ toolCall ++ v := by
        rw [heq, hu, append_assoc, append_assoc, drop_left, append_assoc]
      rw [realToolStartFrom, hdrop]
      by_cases hb : toolCall <:+: b
      · -- a tag of the prose before
        obtain ⟨c, d, rfl, hc⟩ := exists_first marked_toolCall.ne_nil hb
        have hsplit : text = a ++ c ++ toolCall ++ (d ++ toolCall ++ v) := by
          rw [heq, hu]
          simp
        have hfind : find toolCall (c ++ toolCall ++ d ++ toolCall ++ v) = some c.length := by
          rw [append_assoc _ toolCall v, append_assoc _ d]
          exact find_append marked_toolCall hc
        have hlen : a.length + c.length < u.length := by
          have : toolCall.length = 11 := rfl
          rw [hu]
          simp only [length_append]
          omega
        have hclosed : ¬ OpensBlock (d ++ toolCall ++ v) :=
          hbefore _ _ hsplit (by simpa using hlen)
        have hrest : text.drop (c.length + a.length + toolCall.length) = d ++ toolCall ++ v := by
          rw [hsplit, Nat.add_comm c.length, ← length_append, drop_word]
        have hfuel' : d.length + 2 ≤ fuel := by
          have : toolCall.length = 11 := rfl
          simp only [length_append] at hfuel
          omega
        have hstart : c.length + a.length + toolCall.length = (a ++ c ++ toolCall).length := by
          simp only [length_append]
          omega
        simp only [hfind, Option.map_some, hrest]
        rw [if_neg (fun h => hclosed ((opensBlock_iff _).mp h)), hstart]
        exact realToolStartFrom_eq heq hv hbefore fuel (a ++ c ++ toolCall) d _
          (by rw [hu]; simp) hfuel'
      · -- the tag itself
        have hpos : b.length + a.length = u.length := by
          rw [hu, length_append, Nat.add_comm]
        have hrest : text.drop (u.length + toolCall.length) = v := by rw [heq, drop_word]
        simp only [find_append marked_toolCall hb, Option.map_some, hpos, hrest]
        split
        · rfl
        · rename_i ho
          have htool := hv.resolve_left fun h => ho ((opensBlock_iff v).mpr h)
          cases fuel with
          | zero => exact absurd hfuel (by omega)
          | succ fuel =>
            rw [realToolStartFrom, hrest, find_eq_none.mpr htool]
            rfl

theorem splitReasoning_eq {stream force : Bool} {text : Str} (he : ¬ thinkEnd <:+: text) :
    splitReasoning qwen3Detector (plain stream force) text =
      match findRealToolStart qwen3Detector toolCall text with
      | some i => ⟨text.drop i, text.take i⟩
      | none => ⟨[], text⟩ := by
  have hE : qwen3Detector.thinkEndToken = thinkEnd := rfl
  have hprev : ¬ thinkEnd <:+: (plain stream force).previousContent :=
    marked_thinkEnd.not_infix_of_not_mem not_mem_nil
  simp only [splitReasoning, hE, find_eq_none.mpr he, if_neg hprev]
  rfl

theorem splitReasoning_tool {stream force : Bool} {text u v : Str} (he : ¬ thinkEnd <:+: text)
    (heq : text = u ++ toolCall ++ v) (hv : OpensBlock v ∨ ¬ toolCall <:+: v)
    (hbefore : ∀ p rest, text = p ++ toolCall ++ rest → p.length < u.length → ¬ OpensBlock rest) :
    splitReasoning qwen3Detector (plain stream force) text = ⟨toolCall ++ v, u⟩ := by
  have hlen : u.length + 2 ≤ text.length + 1 := by
    have : toolCall.length = 11 := rfl
    rw [heq]
    simp only [length_append]
    omega
  have hidx : findRealToolStart qwen3Detector toolCall text = some u.length :=
    realToolStartFrom_eq heq hv hbefore (text.length + 1) [] u none rfl hlen
  simp only [splitReasoning_eq he, hidx]
  rw [heq, take_word, append_assoc, drop_left]

theorem splitReasoning_none {stream force : Bool} {text : Str} (he : ¬ thinkEnd <:+: text)
    (ht : ¬ toolCall <:+: text) :
    splitReasoning qwen3Detector (plain stream force) text = ⟨[], text⟩ := by
  have hidx : findRealToolStart qwen3Detector toolCall text = none := by
    rw [findRealToolStart, realToolStartFrom, drop_zero, find_eq_none.mpr ht]
    rfl
  simp only [splitReasoning_eq he, hidx]

/-! ### The phases over the chunks of a text -/

/-- **The rule for phases**: what holds of the empty text and is kept by a chunk holds of the
whole text. -/
theorem feed_invariant {text : Str} {J : Str → Phase → Prop} (h₀ : J [] (.reading []))
    (hJ : ∀ {P ph x}, J P ph → P ++ x <+: text → J (P ++ x) (ph.feed x)) {chunks : List Str}
    (hc : chunks.flatten = text) : J text (chunks.foldl Phase.feed (.reading [])) := by
  have hrun : ∀ (chunks : List Str) (P : Str) (ph : Phase), J P ph → P ++ chunks.flatten = text →
      J text (chunks.foldl Phase.feed ph) := by
    intro chunks
    induction chunks with
    | nil =>
      intro P ph h hP
      rw [flatten_nil, append_nil] at hP
      exact hP ▸ h
    | cons x chunks ih =>
      intro P ph h hP
      rw [flatten_cons, ← append_assoc] at hP
      exact ih (P ++ x) (ph.feed x) (hJ h ⟨_, hP⟩) hP
  exact hrun chunks [] (.reading []) h₀ hc

/-- The end of the stream cuts what is held at the last tool tag of the text. -/
theorem split_holding {p rest u v : Str} (heq : p ++ toolCall ++ rest = u ++ toolCall ++ v)
    (hv : ¬ toolCall <:+: v) : (Phase.holding p rest).split = ⟨toolCall ++ v, u⟩ := by
  by_cases ht : toolCall <:+: rest
  · obtain ⟨a, b, rfl, hb⟩ := exists_last marked_toolCall.ne_nil ht
    have heq' : p ++ toolCall ++ a ++ toolCall ++ b = u ++ toolCall ++ v := by
      rw [← heq]
      simp
    obtain ⟨rfl, rfl⟩ := last_unique marked_toolCall hb hv heq'
    simp only [Phase.split, rfind_append marked_toolCall hb, take_word]
    rw [append_assoc a, drop_left]
  · obtain ⟨rfl, rfl⟩ := last_unique marked_toolCall ht hv heq
    simp only [Phase.split, rfind_eq_none.mpr ht]

/-! ### A text with a closing token -/

/-- The phases of a text that closes. -/
inductive Closing : Str → Phase → Prop
  | reading {P : Str} (he : ¬ thinkEnd <:+: P) (ht : ¬ toolCall <:+: P) : Closing P (.reading P)
  | holding {p rest : Str} (he : ¬ thinkEnd <:+: p ++ toolCall ++ rest) :
      Closing (p ++ toolCall ++ rest) (.holding p rest)
  | closed {r n : Str} (he : ¬ thinkEnd <:+: r) : Closing (r ++ thinkEnd ++ n) (.closed r n)

theorem not_end_append {p rest : Str} (hp : ¬ thinkEnd <:+: p) (hr : ¬ thinkEnd <:+: rest) :
    ¬ thinkEnd <:+: p ++ toolCall ++ rest := by
  rw [marked_thinkEnd.infix_append_apart marked_toolCall apart_end_tool]
  exact not_or.mpr ⟨hp, hr⟩

theorem Closes.resolve {text : Str} (h : Closes text) {p rest : Str}
    (hP : p ++ toolCall ++ rest <+: text) (hp : ¬ thinkEnd <:+: p) :
    Closing (p ++ toolCall ++ rest) (resolve p rest) := by
  obtain ⟨w, hw⟩ := hP
  obtain ⟨ho, q, v, hq, htq⟩ := h.2 p (rest ++ w) (by rw [← hw]; simp) hp
  have ho' : ¬ OpensBlock rest := fun hr => ho (hr.append w)
  rcases exists_first_of_two marked_thinkEnd.ne_nil marked_toolCall.ne_nil rest with
    ⟨he, ht⟩ | ⟨a, b, rfl, he, ht⟩ | ⟨a, b, rfl, he, -⟩
  · rw [resolve_none ho' he ht]
    exact .holding (not_end_append hp he)
  · rw [resolve_end ho' he ht, ← append_assoc, ← append_assoc]
    exact .closed (not_end_append hp he)
  · -- another tag would come before the closing token
    refine absurd ?_ htq
    have hx : a ++ toolCall <+: q ++ thinkEnd ++ v := ⟨b ++ w, by rw [← hq]; simp⟩
    have hn : ¬ thinkEnd <:+: a ++ toolCall := by
      have := not_end_append he (marked_thinkEnd.not_infix_of_not_mem not_mem_nil)
      rwa [append_nil] at this
    exact marked_thinkEnd.infix_before marked_toolCall apart_end_tool.symm hx hn infix_append_right

theorem Closes.read {text : Str} (h : Closes text) {P : Str} (hP : P <+: text) :
    Closing P (read P) := by
  rcases read_cases P with ⟨u, v, rfl, hu, hread⟩ | ⟨he, ⟨u, v, rfl, -, hread⟩ | ⟨ht, hread⟩⟩
  · rw [hread]
    exact .closed hu
  · rw [hread]
    refine h.resolve hP fun hi => he ?_
    rw [append_assoc]
    exact infix_append_of_infix_left hi
  · rw [hread]
    exact .reading he ht

theorem Closes.split_eq {text : Str} (h : Closes text) {chunks : List Str}
    (hc : chunks.flatten = text) (stream force : Bool) :
    (chunks.foldl Phase.feed (.reading [])).split =
      splitReasoning qwen3Detector (plain stream force) text := by
  have hrun : Closing text (chunks.foldl Phase.feed (.reading [])) := by
    refine feed_invariant (.reading (marked_thinkEnd.not_infix_of_not_mem not_mem_nil)
      (marked_toolCall.not_infix_of_not_mem not_mem_nil)) (fun {P ph x} hJ hP => ?_) hc
    cases hJ with
    | reading he ht => exact h.read hP
    | @holding p rest he =>
      rw [append_assoc _ rest x] at hP ⊢
      refine h.resolve hP fun hi => he ?_
      rw [append_assoc]
      exact infix_append_of_infix_left hi
    | closed he =>
      rw [append_assoc]
      exact .closed he
  generalize chunks.foldl Phase.feed (.reading []) = ph at hrun
  cases hrun with
  | reading he ht => exact absurd h.1 he
  | holding he => exact absurd h.1 he
  | closed he => exact (splitReasoning_end he).symm

/-! ### A text whose first tool tag opens a block -/

/-- The phases of a text whose first tool tag, after `u`, opens a block. -/
inductive Opening (u : Str) : Str → Phase → Prop
  | reading {P : Str} (ht : ¬ toolCall <:+: P) : Opening u P (.reading P)
  | holding {rest : Str} (ho : ¬ OpensBlock rest) :
      Opening u (u ++ toolCall ++ rest) (.holding u rest)
  | closed {n : Str} : Opening u (u ++ n) (.closed u n)

theorem Opening.resolve {u v rest : Str} (hv : OpensBlock v) (hrest : rest <+: v) :
    Opening u (u ++ toolCall ++ rest) (resolve u rest) := by
  by_cases ho : OpensBlock rest
  · rw [resolve_opens ho, append_assoc]
    exact .closed
  · have he := hv.not_infix_before hrest ho marked_thinkEnd apart_end_function
    have ht := hv.not_infix_before hrest ho marked_toolCall apart_tool_function
    rw [resolve_none ho he ht]
    exact .holding ho

/-- The first tool tag, where it opens a block, is the one `detect_and_parse` cuts at. -/
theorem splitReasoning_first {stream force : Bool} {u v : Str}
    (he : ¬ thinkEnd <:+: u ++ toolCall ++ v) (hu : ¬ toolCall <:+: u) (hv : OpensBlock v) :
    splitReasoning qwen3Detector (plain stream force) (u ++ toolCall ++ v) = ⟨toolCall ++ v, u⟩ := by
  refine splitReasoning_tool he rfl (.inl hv) fun p rest heq hlt => ?_
  -- a tag before the first one
  have hp : p <+: u ++ toolCall ++ v := by
    rw [heq, append_assoc]
    exact prefix_append _ _
  have hpu : p <+: u := by
    rw [append_assoc] at hp
    exact prefix_of_prefix_length_le hp (prefix_append _ _) hlt.le
  obtain ⟨rfl, -⟩ :=
    first_unique marked_toolCall hu (fun hi => hu (hi.trans hpu.isInfix)) heq
  exact absurd hlt (Nat.lt_irrefl _)

theorem FirstOpens.split_eq {text : Str} (h : FirstOpens text) (he : ¬ thinkEnd <:+: text)
    {chunks : List Str} (hc : chunks.flatten = text) (stream force : Bool) :
    (chunks.foldl Phase.feed (.reading [])).split =
      splitReasoning qwen3Detector (plain stream force) text := by
  obtain ⟨u, v, rfl, hu, hv⟩ := h
  have hrun : Opening u (u ++ toolCall ++ v) (chunks.foldl Phase.feed (.reading [])) := by
    refine feed_invariant (.reading (marked_toolCall.not_infix_of_not_mem not_mem_nil))
      (fun {P ph x} hJ hP => ?_) hc
    cases hJ with
    | reading ht =>
      rw [Phase.feed]
      rcases read_cases (P ++ x) with
        ⟨p, n, heq, -, -⟩ | ⟨-, ⟨p, rest, heq, hp, hread⟩ | ⟨ht, hread⟩⟩
      · rw [heq] at hP
        exact absurd ((infix_append p thinkEnd n).trans hP.isInfix) he
      · obtain ⟨w, hw⟩ := hP
        rw [heq, append_assoc _ rest w] at hw
        obtain ⟨rfl, hrest⟩ := first_unique marked_toolCall hp hu hw
        rw [hread, heq]
        exact .resolve hv ⟨w, hrest⟩
      · rw [hread]
        exact .reading ht
    | @holding rest ho =>
      rw [append_assoc _ rest x] at hP ⊢
      exact .resolve hv ((prefix_append_right_inj _).mp hP)
    | closed =>
      rw [append_assoc]
      exact .closed
  rw [splitReasoning_first he hu hv]
  generalize chunks.foldl Phase.feed (.reading []) = ph at hrun
  generalize hP : u ++ toolCall ++ v = P at hrun
  cases hrun with
  | reading ht => exact absurd (hP ▸ infix_append _ _ _) ht
  | holding ho =>
    obtain rfl := append_cancel_left hP
    exact absurd hv ho
  | closed =>
    rw [append_assoc] at hP
    rw [append_cancel_left hP]
    rfl

/-! ### A text whose last tool tag alone may open a block -/

/-- The phases of a text where no tool tag but the last opens a block. -/
inductive Ending (text : Str) : Str → Phase → Prop
  | reading {P : Str} (ht : ¬ toolCall <:+: P) : Ending text P (.reading P)
  | holding {p rest : Str} : Ending text (p ++ toolCall ++ rest) (.holding p rest)
  | closed {r n v : Str} (heq : text = r ++ toolCall ++ v) (ht : ¬ toolCall <:+: v) :
      Ending text (r ++ n) (.closed r n)

theorem OnlyLastOpens.resolve {text : Str} (h : OnlyLastOpens text) (he : ¬ thinkEnd <:+: text)
    {p rest : Str} (hP : p ++ toolCall ++ rest <+: text) :
    Ending text (p ++ toolCall ++ rest) (resolve p rest) := by
  have he' : ¬ thinkEnd <:+: rest := fun hi =>
    he ((infix_append_of_infix_right hi).trans hP.isInfix)
  obtain ⟨w, hw⟩ := hP
  have heq : text = p ++ toolCall ++ (rest ++ w) := by
    rw [← hw]
    simp
  by_cases ho : OpensBlock rest
  · rw [resolve_opens ho, append_assoc]
    exact .closed heq fun ht => h p (rest ++ w) heq ht (ho.append w)
  · by_cases ht : toolCall <:+: rest
    · obtain ⟨a, b, rfl, ha⟩ := exists_first marked_toolCall.ne_nil ht
      have hea : ¬ thinkEnd <:+: a := fun hi => he' (by
        rw [append_assoc]
        exact infix_append_of_infix_left hi)
      rw [resolve_next ho hea ha, ← append_assoc, ← append_assoc]
      exact .holding
    · rw [resolve_none ho he' ht]
      exact .holding

/-- The last tool tag is the one `detect_and_parse` cuts at. -/
theorem OnlyLastOpens.splitReasoning_eq {text u v : Str} (h : OnlyLastOpens text)
    (he : ¬ thinkEnd <:+: text) (heq : text = u ++ toolCall ++ v) (hv : ¬ toolCall <:+: v)
    (stream force : Bool) :
    splitReasoning qwen3Detector (plain stream force) text = ⟨toolCall ++ v, u⟩ := by
  refine splitReasoning_tool he heq (.inr hv) fun p rest hp hlt => ?_
  refine h p rest hp ?_
  by_contra hrest
  obtain ⟨rfl, -⟩ := last_unique marked_toolCall hrest hv (hp.symm.trans heq)
  exact absurd hlt (Nat.lt_irrefl _)

theorem OnlyLastOpens.split_eq {text : Str} (h : OnlyLastOpens text) (he : ¬ thinkEnd <:+: text)
    {chunks : List Str} (hc : chunks.flatten = text) (stream force : Bool) :
    (chunks.foldl Phase.feed (.reading [])).split =
      splitReasoning qwen3Detector (plain stream force) text := by
  have hrun : Ending text text (chunks.foldl Phase.feed (.reading [])) := by
    refine feed_invariant (.reading (marked_toolCall.not_infix_of_not_mem not_mem_nil))
      (fun {P ph x} hJ hP => ?_) hc
    cases hJ with
    | reading ht =>
      rw [Phase.feed]
      rcases read_cases (P ++ x) with
        ⟨p, n, heq, -, -⟩ | ⟨-, ⟨p, rest, heq, hp, hread⟩ | ⟨ht, hread⟩⟩
      · rw [heq] at hP
        exact absurd ((infix_append p thinkEnd n).trans hP.isInfix) he
      · rw [hread, heq]
        exact h.resolve he (heq ▸ hP)
      · rw [hread]
        exact .reading ht
    | @holding p rest =>
      rw [append_assoc _ rest x] at hP ⊢
      exact h.resolve he hP
    | closed heq ht =>
      rw [append_assoc]
      exact .closed heq ht
  generalize chunks.foldl Phase.feed (.reading []) = ph at hrun
  generalize hT : text = T at hrun
  cases hrun with
  | reading ht =>
    rw [← hT] at ht ⊢
    exact (splitReasoning_none he ht).symm
  | @holding p rest =>
    obtain ⟨u, v, heq, hv⟩ := exists_last marked_toolCall.ne_nil
      (hT ▸ infix_append _ _ _ : toolCall <:+: text)
    rw [split_holding (hT.symm.trans heq) hv, ← hT, h.splitReasoning_eq he heq hv]
  | closed heq ht =>
    rw [← hT, h.splitReasoning_eq he (hT.trans heq) ht]
    rw [append_assoc] at heq
    rw [append_cancel_left heq]
    rfl

/-- **Any chunks split a steady text alike**, as `detect_and_parse` splits it. -/
theorem Steady.split_eq {text : Str} (h : Steady text) {chunks : List Str}
    (hc : chunks.flatten = text) (stream force : Bool) :
    (chunks.foldl Phase.feed (.reading [])).split =
      splitReasoning qwen3Detector (plain stream force) text := by
  rcases h with h | ⟨he, h | h⟩
  · exact h.split_eq hc stream force
  · exact h.split_eq he hc stream force
  · exact h.split_eq he hc stream force

end QwenStack.Reasoning
