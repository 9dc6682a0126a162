import Mathlib.Data.List.Basic

/-!
# Support — runs that end by themselves

A loop takes one input after another and may come to an end before they are used up, with a result.
`runUntil_rule` carries an invariant along the inputs that have been taken, up to what the end of the loop
says of them; `runUntil_keeps` is the rule for what every step keeps, and `runUntil_iff` the one for what
each input that is reached decides.

A loop that takes its inputs from its own state is `loop`, for as many turns as it is given; it has the
same rule (`loop_rule`, and `loop_rule_of` where every state that is reached meets a condition), and it ends
if each turn makes its state smaller (`loop_ends`).  Where the state before a turn decides what the loop may
end with, `loop_iff` says so of a whole run.
-/

namespace QwenStack.Until

open List

variable {σ α ρ : Type*} {step : σ → α → σ × Option ρ}

section
variable {P : σ → Prop} {Q : σ → ρ → Prop} {s : σ} {r : ρ}

/-- A step that ends the loop. -/
theorem ended (h : Q s r) : (∀ {s'}, (s, some r) = (s', none) → P s') ∧
    ∀ {s' r'}, (s, some r) = (s', some r') → Q s' r' := by
  refine ⟨fun heq => ?_, fun heq => ?_⟩
  · cases congrArg Prod.snd heq
  · obtain ⟨rfl, hr⟩ := Prod.mk.inj heq
    cases hr
    exact h

/-- A step after which it goes on. -/
theorem goesOn (h : P s) : (∀ {s'}, (s, (none : Option ρ)) = (s', none) → P s') ∧
    ∀ {s' r'}, (s, none) = (s', some r') → Q s' r' := by
  refine ⟨fun heq => ?_, fun heq => ?_⟩
  · obtain rfl := congrArg Prod.fst heq
    exact h
  · cases congrArg Prod.snd heq

/-! What a loop that may fail says of the results that are none. -/

variable {ε : Type*}

/-- A step that ends the loop with a result. -/
theorem returned (h : Q s r) : (∀ {s'}, (s, some (Except.ok r : Except ε ρ)) = (s', none) → P s') ∧
    ∀ {s' r'}, (s, some (Except.ok r : Except ε ρ)) = (s', some (.ok r')) → Q s' r' := by
  have hended := ended (P := P) (Q := fun s' (x : Except ε ρ) => ∀ r', x = .ok r' → Q s' r')
    (s := s) (r := .ok r) fun _ heq => Except.ok.inj heq ▸ h
  exact ⟨hended.1, fun heq => hended.2 heq _ rfl⟩

/-- A step that fails. -/
theorem failed {e : ε} : (∀ {s'}, (s, some (Except.error e : Except ε ρ)) = (s', none) → P s') ∧
    ∀ {s' r'}, (s, some (Except.error e : Except ε ρ)) = (s', some (.ok r')) → Q s' r' := by
  have hended := ended (P := P) (Q := fun s' (x : Except ε ρ) => ∀ r', x = .ok r' → Q s' r')
    (s := s) (r := .error e) fun _ heq => by cases heq
  exact ⟨hended.1, fun heq => hended.2 heq _ rfl⟩

/-- A step after which it goes on. -/
theorem proceeds (h : P s) : (∀ {s'}, (s, (none : Option (Except ε ρ))) = (s', none) → P s') ∧
    ∀ {s' r'}, (s, (none : Option (Except ε ρ))) = (s', some (.ok r')) → Q s' r' :=
  have hgoesOn := goesOn (P := P) (Q := fun s' (x : Except ε ρ) => ∀ r', x = .ok r' → Q s' r') h
  ⟨hgoesOn.1, fun heq => hgoesOn.2 heq _ rfl⟩

end

/-- The state after the inputs, and the result if the loop came to its end. -/
def runUntil (step : σ → α → σ × Option ρ) (s : σ) : List α → σ × Option ρ
  | [] => (s, none)
  | a :: l =>
      match step s a with
      | (s, none) => runUntil step s l
      | (s, some r) => (s, some r)

theorem runUntil_cons_none {s s' : σ} {a : α} (l : List α) (h : step s a = (s', none)) :
    runUntil step s (a :: l) = runUntil step s' l := by
  rw [runUntil, h]

theorem runUntil_cons_some {s s' : σ} {a : α} (l : List α) {r : ρ} (h : step s a = (s', some r)) :
    runUntil step s (a :: l) = (s', some r) := by
  rw [runUntil, h]

/-- **The rule for loops**: `P` holds while it goes on, `Q` when it ends. -/
theorem runUntil_rule {P : List α → σ → Prop} {Q : List α → σ → ρ → Prop} {s : σ} {l : List α}
    (hgo : ∀ past a s s', past ++ [a] <+: l → P past s → step s a = (s', none) → P (past ++ [a]) s')
    (hstop : ∀ past a s s' r, past ++ [a] <+: l → P past s → step s a = (s', some r) →
      Q (past ++ [a]) s' r) (hs : P [] s) :
    (∀ s', runUntil step s l = (s', none) → P l s') ∧
      ∀ s' r, runUntil step s l = (s', some r) → ∃ past, past <+: l ∧ Q past s' r := by
  suffices h : ∀ rest past s, past ++ rest = l → P past s →
      (∀ s', runUntil step s rest = (s', none) → P l s') ∧
        ∀ s' r, runUntil step s rest = (s', some r) → ∃ past, past <+: l ∧ Q past s' r from
    h l [] s rfl hs
  intro rest
  induction rest with
  | nil =>
    intro past s hl hP
    rw [append_nil] at hl
    refine ⟨fun s' h => ?_, fun s' r h => ?_⟩
    · obtain rfl := congrArg Prod.fst h
      exact hl ▸ hP
    · cases congrArg Prod.snd h
  | cons a rest ih =>
    intro past s hl hP
    have hle : past ++ [a] <+: l := ⟨rest, by rw [← hl, append_assoc, singleton_append]⟩
    cases hstep : step s a with
    | mk s' result =>
      cases result with
      | none =>
        rw [runUntil_cons_none rest hstep]
        exact ih (past ++ [a]) s' (by rw [← hl, append_assoc, singleton_append])
          (hgo past a s s' hle hP hstep)
      | some r =>
        rw [runUntil_cons_some rest hstep]
        refine ⟨fun s'' h => ?_, fun s'' r' h => ?_⟩
        · cases congrArg Prod.snd h
        · obtain ⟨rfl, hr⟩ := Prod.mk.inj h
          cases hr
          exact ⟨past ++ [a], hle, hstop past a s s' r hle hP hstep⟩

theorem runUntil_append_none {s s' : σ} {past : List α} (l : List α)
    (h : runUntil step s past = (s', none)) : runUntil step s (past ++ l) = runUntil step s' l := by
  induction past generalizing s with
  | nil =>
    obtain rfl := congrArg Prod.fst h
    rfl
  | cons a past ih =>
    rw [cons_append]
    cases hstep : step s a with
    | mk s'' result =>
      cases result with
      | none =>
        rw [runUntil_cons_none _ hstep] at h ⊢
        exact ih h
      | some r =>
        rw [runUntil_cons_some _ hstep] at h
        cases congrArg Prod.snd h

/-- A loop that went on until an input ends with it as its step does. -/
theorem runUntil_append_some {s s' s'' : σ} {past : List α} {a : α} {r : ρ}
    (hpast : runUntil step s past = (s'', none)) (hstep : step s'' a = (s', some r)) :
    runUntil step s (past ++ [a]) = (s', some r) := by
  rw [runUntil_append_none [a] hpast, runUntil_cons_some [] hstep]

/-- A loop that ended did so with one of the inputs, after those before it. -/
theorem runUntil_last {s s' : σ} {l : List α} {r : ρ} (h : runUntil step s l = (s', some r)) :
    ∃ past a s'', past ++ [a] <+: l ∧ runUntil step s past = (s'', none) ∧
      step s'' a = (s', some r) := by
  have hrule := runUntil_rule (l := l)
    (P := fun past s' => runUntil step s past = (s', none))
    (Q := fun past s' r => ∃ past' a s'', past = past' ++ [a] ∧
      runUntil step s past' = (s'', none) ∧ step s'' a = (s', some r))
    (fun past a s₁ s₂ _ hpast hstep => by
      rw [runUntil_append_none [a] hpast, runUntil_cons_none [] hstep]
      rfl)
    (fun past a s₁ s₂ r _ hpast hstep => ⟨past, a, s₁, rfl, hpast, hstep⟩) rfl
  obtain ⟨past, hle, past', a, s'', rfl, hpast, hstep⟩ := hrule.2 s' r h
  exact ⟨past', a, s'', hle, hpast, hstep⟩

/-- **The rule for what every step keeps.** -/
theorem runUntil_keeps {P : σ → Prop} {s : σ} {l : List α} (hstep : ∀ s, ∀ a ∈ l, P s → P (step s a).1)
    (hs : P s) : P (runUntil step s l).1 := by
  induction l generalizing s with
  | nil => exact hs
  | cons a l ih =>
    have hnext := hstep s a (mem_cons_self ..) hs
    have hrest := fun s b hb => hstep s b (mem_cons_of_mem a hb)
    cases h : step s a with
    | mk s' result =>
      rw [h] at hnext
      cases result with
      | none =>
        rw [runUntil_cons_none l h]
        exact ih hrest hnext
      | some r =>
        rw [runUntil_cons_some l h]
        exact hnext

/-! ### The inputs that are reached -/

/-- What holds of each input that the loop comes to, in the state in which it does. -/
def Met (step : σ → α → σ × Option ρ) (F : σ → α → Prop) (s : σ) (l : List α) : Prop :=
  ∀ past a s', past ++ [a] <+: l → runUntil step s past = (s', none) → F s' a

section
variable {F : σ → α → Prop} {s : σ}

theorem met_nil : Met step F s [] := fun past _ _ hle =>
  absurd (prefix_nil.mp hle) (append_ne_nil_of_right_ne_nil past (cons_ne_nil _ _))

theorem met_cons {a : α} {l : List α} :
    Met step F s (a :: l) ↔ F s a ∧ ∀ s', step s a = (s', none) → Met step F s' l := by
  refine ⟨fun h => ⟨h [] a s ⟨l, rfl⟩ rfl, fun s' hstep past b s'' hle hpast => ?_⟩,
    fun ⟨hfirst, hrest⟩ past b s'' hle hpast => ?_⟩
  · refine h (a :: past) b s'' (cons_prefix_cons.mpr ⟨rfl, hle⟩) ?_
    rw [runUntil_cons_none past hstep, hpast]
  · cases past with
    | nil =>
      obtain ⟨rfl, -⟩ := cons_prefix_cons.mp hle
      obtain rfl := congrArg Prod.fst hpast
      exact hfirst
    | cons a past =>
      obtain ⟨rfl, hrestLe⟩ := cons_prefix_cons.mp hle
      rcases hstep : step s a with ⟨s', _ | r⟩
      · rw [runUntil_cons_none past hstep] at hpast
        exact hrest s' hstep past b s'' hrestLe hpast
      · rw [runUntil_cons_some past hstep] at hpast
        cases congrArg Prod.snd hpast

/-- **The rule for what the inputs decide**: `C` is left by those that meet `F`, and `E` is what is left of
it at the end. -/
theorem runUntil_iff {P C : σ → Prop} {Q E : σ → ρ → Prop} {l : List α}
    (hgo : ∀ {s s'}, ∀ a ∈ l, P s → step s a = (s', none) → P s' ∧ (C s' ↔ C s ∧ F s a))
    (hstop : ∀ {s s' r}, ∀ a ∈ l, P s → step s a = (s', some r) → Q s' r ∧ (E s' r ↔ C s ∧ F s a))
    (hs : P s) :
    (∀ {s'}, runUntil step s l = (s', none) → P s' ∧ (C s' ↔ C s ∧ Met step F s l)) ∧
      ∀ {s' r}, runUntil step s l = (s', some r) → Q s' r ∧ (E s' r ↔ C s ∧ Met step F s l) := by
  induction l generalizing s with
  | nil => exact goesOn ⟨hs, (and_iff_left met_nil).symm⟩
  | cons a l ih =>
    rcases hstep : step s a with ⟨s', _ | r⟩
    · obtain ⟨hs', hC⟩ := hgo a (mem_cons_self ..) hs hstep
      have hmet : C s ∧ Met step F s (a :: l) ↔ C s' ∧ Met step F s' l := by
        rw [met_cons, hC, and_assoc, hstep]
        refine and_congr_right fun _ => and_congr_right fun _ => ⟨fun h => h s' rfl, fun h s₁ heq => ?_⟩
        obtain rfl : s' = s₁ := congrArg Prod.fst heq
        exact h
      rw [runUntil_cons_none l hstep, hmet]
      exact ih (fun b hb => hgo b (mem_cons_of_mem a hb)) (fun b hb => hstop b (mem_cons_of_mem a hb)) hs'
    · obtain ⟨hQ, hE⟩ := hstop a (mem_cons_self ..) hs hstep
      rw [runUntil_cons_some l hstep, met_cons, hstep]
      refine ended ⟨hQ, hE.trans (and_congr_right fun _ => (and_iff_left fun s₁ heq => ?_).symm)⟩
      cases congrArg Prod.snd heq

end
/-! ### Loops without inputs -/

variable {turn : σ → σ × Option ρ}

/-- The state after at most `n` turns, and the result if the loop came to its end. -/
def loop (turn : σ → σ × Option ρ) : Nat → σ → σ × Option ρ
  | 0, s => (s, none)
  | n + 1, s =>
      match turn s with
      | (s, none) => loop turn n s
      | (s, some r) => (s, some r)

theorem loop_succ_none {s s' : σ} (n : Nat) (h : turn s = (s', none)) :
    loop turn (n + 1) s = loop turn n s' := by
  rw [loop, h]

theorem loop_succ_some {s s' : σ} (n : Nat) {r : ρ} (h : turn s = (s', some r)) :
    loop turn (n + 1) s = (s', some r) := by
  rw [loop, h]

/-- **The rule for loops**: `P` holds while it goes on, `Q` when it ends. -/
theorem loop_rule {P : σ → Prop} {Q : σ → ρ → Prop}
    (hgo : ∀ {s s'}, P s → turn s = (s', none) → P s')
    (hstop : ∀ {s s' r}, P s → turn s = (s', some r) → Q s' r) {s : σ} (hs : P s) (n : Nat) :
    (∀ {s'}, loop turn n s = (s', none) → P s') ∧ ∀ {s' r}, loop turn n s = (s', some r) → Q s' r := by
  induction n generalizing s with
  | zero => exact goesOn hs
  | succ n ih =>
    cases hturn : turn s with
    | mk s₁ result =>
      cases result with
      | none =>
        rw [loop_succ_none n hturn]
        exact ih (hgo hs hturn)
      | some r =>
        rw [loop_succ_some n hturn]
        exact ended (hstop hs hturn)

/-- **The rule for loops on a condition**: `F` holds of every state that is reached. -/
theorem loop_rule_of {P F : σ → Prop} {Q : σ → ρ → Prop}
    (hgo : ∀ {s s'}, P s → F s → turn s = (s', none) → P s')
    (hstop : ∀ {s s' r}, P s → F s → turn s = (s', some r) → Q s' r) {s : σ} (hs : P s)
    (hF : ∀ k s', loop turn k s = (s', none) → F s') (n : Nat) :
    (∀ {s'}, loop turn n s = (s', none) → P s') ∧ ∀ {s' r}, loop turn n s = (s', some r) → Q s' r := by
  have hreached : ∀ {k s₁ s₂}, loop turn k s = (s₁, none) → turn s₁ = (s₂, none) →
      loop turn (k + 1) s = (s₂, none) := by
    intro k
    clear hs hF
    induction k generalizing s with
    | zero =>
      intro s₁ s₂ hloop hturn
      obtain rfl := congrArg Prod.fst hloop
      exact loop_succ_none 0 hturn
    | succ k ih =>
      intro s₁ s₂ hloop hturn
      rcases hfirst : turn s with ⟨s₀, _ | r⟩
      · rw [loop_succ_none _ hfirst] at hloop ⊢
        exact ih hloop hturn
      · rw [loop_succ_some _ hfirst] at hloop
        cases congrArg Prod.snd hloop
  have hrule := loop_rule (P := fun s' => P s' ∧ ∃ k, loop turn k s = (s', none)) (Q := Q)
    (fun ⟨hP, k, hk⟩ hturn => ⟨hgo hP (hF k _ hk) hturn, k + 1, hreached hk hturn⟩)
    (fun ⟨hP, k, hk⟩ hturn => hstop hP (hF k _ hk) hturn) ⟨hs, 0, rfl⟩ n
  exact ⟨fun h => (hrule.1 h).1, fun h => hrule.2 h⟩

/-- **The rule for ends**: a loop that makes its state smaller in each turn comes to its end. -/
theorem loop_ends {P : σ → Prop} {r : σ → Nat}
    (hgo : ∀ {s s'}, P s → turn s = (s', none) → P s' ∧ r s' < r s) {s : σ} (hs : P s) {n : Nat}
    (hn : r s < n) : ∃ s' result, loop turn n s = (s', some result) := by
  induction n generalizing s with
  | zero => exact absurd hn (Nat.not_lt_zero _)
  | succ n ih =>
    cases hturn : turn s with
    | mk s₁ result =>
      cases result with
      | none =>
        obtain ⟨hs₁, hrank⟩ := hgo hs hturn
        rw [loop_succ_none n hturn]
        exact ih hs₁ (Nat.lt_of_lt_of_le hrank (Nat.le_of_lt_succ hn))
      | some result => exact ⟨s₁, result, loop_succ_some n hturn⟩

/-- **The rule for what decides an end**: every state that is reached meets the condition of its turn. -/
theorem loop_iff {P F : σ → Prop} {Q : Prop} {s' : σ} {r : ρ}
    (hgo : ∀ {s s'}, P s → turn s = (s', none) → P s' ∧ F s)
    (hstop : ∀ {s}, P s → turn s = (s', some r) → (Q ↔ F s)) {s : σ} {n : Nat}
    (hs : P s) (h : loop turn n s = (s', some r)) :
    Q ↔ ∀ k s'', loop turn k s = (s'', none) → F s'' := by
  induction n generalizing s with
  | zero => cases congrArg Prod.snd h
  | succ n ih =>
    cases hturn : turn s with
    | mk s₁ result =>
      cases result with
      | none =>
        obtain ⟨hs₁, hfine⟩ := hgo hs hturn
        rw [loop_succ_none n hturn] at h
        refine (ih hs₁ h).trans ⟨fun hrest k s'' hk => ?_, fun hall k s'' hk => ?_⟩
        · cases k with
          | zero =>
            obtain rfl := congrArg Prod.fst hk
            exact hfine
          | succ k =>
            rw [loop_succ_none k hturn] at hk
            exact hrest k s'' hk
        · exact hall (k + 1) s'' (by rw [loop_succ_none k hturn, hk])
      | some r' =>
        rw [loop_succ_some n hturn] at h
        obtain ⟨rfl, hr⟩ := Prod.mk.inj h
        cases hr
        refine (hstop hs hturn).trans ⟨fun hfine k s'' hk => ?_, fun hall => hall 0 s rfl⟩
        cases k with
        | zero =>
          obtain rfl := congrArg Prod.fst hk
          exact hfine
        | succ k =>
          rw [loop_succ_some k hturn] at hk
          cases congrArg Prod.snd hk

end QwenStack.Until
