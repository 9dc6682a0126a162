import Mathlib.Data.List.Basic

/-!
# Support — runs of a partial step function

A run feeds a list of actions to a step function that may refuse an action.  `exec_total` is the
rule for steps that never refuse, `exec_keeps` the rule for what every step keeps.  `exec_invariant`
carries an invariant along the states of a run under a condition on each step, in the state the step
is taken in (`Along`, which a run on fixed actions decides); `exec_iff` and `exec_steps_iff` are for a
condition that is exact.  `fold_invariant` and `fold_iff` are the same rules for a run that is a plain fold.
-/

namespace QwenStack.Runs

open List

variable {σ α : Type*} {step : σ → α → Option σ}

/-- The state after a list of actions. -/
def exec (step : σ → α → Option σ) : σ → List α → Option σ
  | s, [] => some s
  | s, a :: l => (step s a).bind fun s => exec step s l

theorem exec_append (s : σ) (l l' : List α) :
    exec step s (l ++ l') = (exec step s l).bind fun s => exec step s l' := by
  induction l generalizing s with
  | nil => rfl
  | cons a l ih =>
    simp only [cons_append, exec]
    cases step s a with
    | none => rfl
    | some s' => exact ih s'

/-- One more action. -/
theorem exec_take_succ {l : List α} {k : Nat} {a : α} (s : σ) (h : l[k]? = some a) :
    exec step s (l.take (k + 1)) = (exec step s (l.take k)).bind fun s => step s a := by
  rw [take_add_one, h, Option.toList_some, exec_append]
  congr 1
  funext s
  simp only [exec]
  cases step s a <;> rfl

/-- **The rule for steps that never refuse.** -/
theorem exec_total {J : σ → Prop} (hJ : ∀ s a, J s → ∃ s', step s a = some s' ∧ J s') :
    ∀ (l : List α) (s : σ), J s → ∃ s', exec step s l = some s' ∧ J s' := by
  intro l
  induction l with
  | nil => exact fun s h => ⟨s, rfl, h⟩
  | cons a l ih =>
    intro s h
    obtain ⟨s', hstep, h'⟩ := hJ s a h
    obtain ⟨s'', hrun, h''⟩ := ih s' h'
    exact ⟨s'', by simp only [exec, hstep, Option.bind_some, hrun], h''⟩

/-- **The rule for invariants**, under a condition `C` on the steps of the run. -/
theorem exec_invariant {J : σ → Prop} {C : σ → α → Prop}
    (hJ : ∀ {s a s'}, J s → C s a → step s a = some s' → J s') {s₀ : σ} (h₀ : J s₀) {l : List α}
    (hC : ∀ k s a, exec step s₀ (l.take k) = some s → l[k]? = some a → C s a) :
    ∀ k s, exec step s₀ (l.take k) = some s → J s := by
  intro k
  induction k with
  | zero =>
    intro s h
    cases h
    exact h₀
  | succ k ih =>
    intro s h
    cases ha : l[k]? with
    | none =>
      have hlen := List.getElem?_eq_none_iff.mp ha
      rw [take_of_length_le (by omega), ← take_of_length_le hlen] at h
      exact ih s h
    | some a =>
      rw [exec_take_succ s₀ ha, Option.bind_eq_some_iff] at h
      obtain ⟨s', hs', hstep⟩ := h
      exact hJ (ih s' hs') (hC k s' a hs' ha) hstep

/-- A run that goes through goes through each of its beginnings. -/
theorem exec_take {l : List α} {s₀ s : σ} (h : exec step s₀ l = some s) (k : Nat) :
    ∃ s', exec step s₀ (l.take k) = some s' := by
  rw [← take_append_drop k l, exec_append, Option.bind_eq_some_iff] at h
  obtain ⟨s', hs', -⟩ := h
  exact ⟨s', hs'⟩

/-- **When a property holds in every state of a run**: if a step out of a good state leads to one
exactly under the condition `C`, then when all steps meet `C`.  `J` is what makes a state good. -/
theorem exec_iff {J G : σ → Prop} {C : σ → α → Prop} (hJG : ∀ {s}, J s → G s)
    (hJ : ∀ {s a s'}, J s → C s a → step s a = some s' → J s')
    (hG : ∀ {s a s'}, J s → step s a = some s' → G s' → C s a) {s₀ s : σ} (h₀ : J s₀) {l : List α}
    (hrun : exec step s₀ l = some s) :
    (∀ k s, exec step s₀ (l.take k) = some s → G s) ↔
      ∀ k s a, exec step s₀ (l.take k) = some s → l[k]? = some a → C s a := by
  constructor
  · intro hgood
    have hinv : ∀ k s, exec step s₀ (l.take k) = some s → J s := by
      refine exec_invariant (C := fun s a => ∀ s', step s a = some s' → G s')
        (fun hs hC hstep => hJ hs (hG hs hstep (hC _ hstep)) hstep) h₀ fun k s a hs ha s' hstep => ?_
      refine hgood (k + 1) s' ?_
      rw [exec_take_succ s₀ ha, hs, Option.bind_some, hstep]
    intro k s a hs ha
    obtain ⟨s', hs'⟩ := exec_take hrun (k + 1)
    have hstep := hs'
    rw [exec_take_succ s₀ ha, hs, Option.bind_some] at hstep
    exact hG (hinv k s hs) hstep (hgood (k + 1) s' hs')
  · exact fun hC k s hs => hJG (exec_invariant hJ h₀ hC k s hs)

/-- **When every step of a run is good**: if out of a state with `J` a step is good exactly under the
condition `C`, and a good step keeps `J`. -/
theorem exec_steps_iff {J : σ → Prop} {G : σ → σ → Prop} {C : σ → α → Prop}
    (hJ : ∀ {s a s'}, J s → step s a = some s' → G s s' → J s')
    (hG : ∀ {s a s'}, J s → step s a = some s' → (G s s' ↔ C s a)) {s₀ : σ} (h₀ : J s₀) {l : List α} :
    (∀ k s a s', exec step s₀ (l.take k) = some s → l[k]? = some a → step s a = some s' → G s s') ↔
      ∀ k s a s', exec step s₀ (l.take k) = some s → l[k]? = some a → step s a = some s' → C s a := by
  constructor
  · intro hgood k s a s' hs ha hstep
    have hinv := exec_invariant (C := fun s a => ∀ s', step s a = some s' → G s s')
      (fun hs hC hstep => hJ hs hstep (hC _ hstep)) h₀ fun k s a hs ha s' => hgood k s a s' hs ha
    exact (hG (hinv k s hs) hstep).mp (hgood k s a s' hs ha hstep)
  · intro hC k s a s' hs ha hstep
    have hinv := exec_invariant (C := fun s a => ∀ s', step s a = some s' → C s a)
      (fun hs hC hstep => hJ hs hstep ((hG hs hstep).mpr (hC _ hstep))) h₀
      fun k s a hs ha s' => hC k s a s' hs ha
    exact (hG (hinv k s hs) hstep).mpr (hC k s a s' hs ha hstep)

/-- The rule for invariants that every step keeps. -/
theorem exec_keeps {J : σ → Prop} (hJ : ∀ {s a s'}, J s → step s a = some s' → J s') :
    ∀ {l : List α} {s₀ s : σ}, J s₀ → exec step s₀ l = some s → J s := by
  intro l
  induction l with
  | nil =>
    intro s₀ s h₀ h
    cases h
    exact h₀
  | cons a l ih =>
    intro s₀ s h₀ h
    obtain ⟨s₁, hstep, hrest⟩ := Option.bind_eq_some_iff.mp h
    exact ih (hJ h₀ hstep) hrest

/-- One more action of a fold. -/
theorem fold_take_succ {f : σ → α → σ} {s₀ : σ} {l : List α} {k : Nat} {a : α}
    (h : l[k]? = some a) : (l.take (k + 1)).foldl f s₀ = f ((l.take k).foldl f s₀) a := by
  rw [take_add_one, h, Option.toList_some, foldl_append]
  rfl

/-- **The rule for invariants of a fold**, under a condition on the steps before the `n`-th. -/
theorem fold_invariant {f : σ → α → σ} {J : σ → Prop} {C : σ → α → Prop}
    (hJ : ∀ {s a}, J s → C s a → J (f s a)) {s₀ : σ} (h₀ : J s₀) {l : List α} {n : Nat}
    (hC : ∀ k < n, ∀ a, l[k]? = some a → C ((l.take k).foldl f s₀) a) :
    J ((l.take n).foldl f s₀) := by
  induction n with
  | zero => exact h₀
  | succ n ih =>
    have hn := ih fun k hk => hC k (Nat.lt_succ_of_lt hk)
    cases ha : l[n]? with
    | none =>
      have hlen := List.getElem?_eq_none_iff.mp ha
      rw [take_of_length_le (Nat.le_succ_of_le hlen)]
      rwa [take_of_length_le hlen] at hn
    | some a =>
      rw [fold_take_succ ha]
      exact hJ hn (hC n (Nat.lt_succ_self n) a ha)

/-- **When every step of a fold is good**: if out of a state with `J` a step is good exactly under the
condition `C`, and a good step leads to one. -/
theorem fold_iff {f : σ → α → σ} {J : σ → Prop} {C : σ → α → Prop} {G : σ → α → σ → Prop}
    {s₀ : σ} {l : List α} (hJ : ∀ {s a s'}, G s a s' → J s')
    (hG : ∀ {s a}, a ∈ l → J s → (G s a (f s a) ↔ C s a)) (h₀ : J s₀) :
    (∀ k a, l[k]? = some a → G ((l.take k).foldl f s₀) a ((l.take (k + 1)).foldl f s₀)) ↔
      ∀ k a, l[k]? = some a → C ((l.take k).foldl f s₀) a := by
  constructor
  · intro hgood k a ha
    have hk : J ((l.take k).foldl f s₀) :=
      fold_invariant (C := fun s a => G s a (f s a)) (fun _ hgood => hJ hgood) h₀ fun j _ b hb => by
        have hstep := hgood j b hb
        rwa [fold_take_succ hb] at hstep
    have hstep := hgood k a ha
    rwa [fold_take_succ ha, hG (List.mem_of_getElem? ha) hk] at hstep
  · intro hC k a ha
    have hk : J ((l.take k).foldl f s₀) :=
      fold_invariant (C := fun s a => a ∈ l ∧ C s a) (fun hs hC => hJ ((hG hC.1 hs).mpr hC.2)) h₀
        fun j _ b hb => ⟨List.mem_of_getElem? hb, hC j b hb⟩
    rw [fold_take_succ ha, hG (List.mem_of_getElem? ha) hk]
    exact hC k a ha

/-- The condition `C` holds of every step that is taken. -/
def Along (step : σ → α → Option σ) (C : σ → α → Prop) : σ → List α → Prop
  | _, [] => True
  | s, a :: l => C s a ∧ ∀ s' ∈ step s a, Along step C s' l

instance Along.decide {C : σ → α → Prop} [∀ s a, Decidable (C s a)] :
    ∀ (s : σ) (l : List α), Decidable (Along step C s l)
  | _, [] => isTrue trivial
  | s, a :: l =>
      have : ∀ s', Decidable (Along step C s' l) := fun s' => Along.decide s' l
      inferInstanceAs (Decidable (C s a ∧ ∀ s' ∈ step s a, Along step C s' l))

theorem Along.get {C : σ → α → Prop} : ∀ {l : List α} {s₀ : σ}, Along step C s₀ l →
    ∀ k s a, exec step s₀ (l.take k) = some s → l[k]? = some a → C s a := by
  intro l
  induction l with
  | nil => exact fun _ k s a _ ha => nomatch ha
  | cons b l ih =>
    rintro s₀ ⟨hC, hrest⟩ k s a hs ha
    cases k with
    | zero =>
      cases hs
      cases ha
      exact hC
    | succ k =>
      rw [take_succ_cons, exec, Option.bind_eq_some_iff] at hs
      obtain ⟨s₁, hstep, hs⟩ := hs
      exact ih (hrest s₁ hstep) k s a hs ha

end QwenStack.Runs
