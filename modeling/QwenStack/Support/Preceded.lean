import Mathlib.Data.List.Basic

/-!
# Support — what stands before

`Each P l` says of every place of a list that `P` holds of what stands before it and what stands there.
Lists that are put together are checked part by part, each after the parts before it (`each_append`,
`each_flatMap`).
-/

namespace QwenStack.Preceded
variable {α β : Type*} {P Q : List α → α → Prop}

/-- Every element stands in `P` to the elements before it. -/
def Each (P : List α → α → Prop) (l : List α) : Prop :=
  ∀ before a after, l = before ++ a :: after → P before a

@[simp] theorem each_nil : Each P [] := by
  intro before a after h
  simp at h

theorem each_cons {a : α} {l : List α} :
    Each P (a :: l) ↔ P [] a ∧ Each (fun before => P (a :: before)) l := by
  constructor
  · intro h
    refine ⟨h [] a l rfl, ?_⟩
    intro before b after hsplit
    exact h (a :: before) b after (congrArg (a :: ·) hsplit)
  · rintro ⟨hhead, htail⟩ before b after hsplit
    cases before with
    | nil =>
      obtain ⟨rfl, -⟩ := List.cons.inj hsplit
      exact hhead
    | cons c before =>
      obtain ⟨rfl, hrest⟩ := List.cons.inj hsplit
      exact htail before b after hrest

@[simp] theorem each_singleton {a : α} : Each P [a] ↔ P [] a := by simp [each_cons]

theorem each_append {l l' : List α} :
    Each P (l ++ l') ↔ Each P l ∧ Each (fun before => P (l ++ before)) l' := by
  induction l generalizing P with
  | nil => simp
  | cons a l ih => simp only [List.cons_append, each_cons, ih, and_assoc]

theorem each_snoc {l : List α} {a : α} : Each P (l ++ [a]) ↔ Each P l ∧ P l a := by
  rw [each_append, each_singleton, List.append_nil]

/-- Every piece is checked after the pieces before it. -/
theorem each_flatMap {P : List β → β → Prop} {f : α → List β} {l : List α} : Each P (l.flatMap f) ↔
      Each (fun before a => Each (fun before' => P (before.flatMap f ++ before')) (f a)) l := by
  induction l generalizing P with
  | nil => simp
  | cons a l ih => simp only [List.flatMap_cons, each_append, each_cons, ih, List.flatMap_nil,
      List.nil_append, List.append_assoc]

theorem each_congr {l : List α} (h : ∀ before, ∀ a ∈ l, P before a ↔ Q before a) : Each P l ↔ Each Q l := by
  constructor
  · intro hl before a after hsplit
    exact (h before a (by simp [hsplit])).mp (hl before a after hsplit)
  · intro hl before a after hsplit
    exact (h before a (by simp [hsplit])).mpr (hl before a after hsplit)

end QwenStack.Preceded
