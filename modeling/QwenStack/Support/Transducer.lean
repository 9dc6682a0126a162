import QwenStack.Support.Assoc

/-!
# Support — machines with any number of outputs

A machine takes an input, moves and gives some outputs.

* `run_append`: a run in two parts.
* `run_view`: a machine in terms of another.
* `run_series`: of two machines in series, the second runs on the outputs of the first.
* `runAt`: a machine for each key.  What one key sees of a run is the run of its own machine on its own
  inputs, however the keys are interleaved (`lookup_runAt`, `outputsOf_runAt`).
* `outputsOf_perm`: what is read off a map in any order.
-/

namespace QwenStack.Transducer
open Assoc List

variable {σ τ ι μ ο κ : Type*}

/-- A run from a state: the state after it, and the outputs. -/
def run (step : σ → ι → σ × List ο) : σ → List ι → σ × List ο
  | s, [] => (s, [])
  | s, i :: l => ((run step (step s i).1 l).1, (step s i).2 ++ (run step (step s i).1 l).2)

section Run
variable {step : σ → ι → σ × List ο}

@[simp] theorem run_nil (s : σ) : run step s [] = (s, []) := rfl

theorem run_cons (s : σ) (i : ι) (l : List ι) : run step s (i :: l) =
      ((run step (step s i).1 l).1, (step s i).2 ++ (run step (step s i).1 l).2) := rfl

theorem run_append (s : σ) (l l' : List ι) : run step s (l ++ l') =
    ((run step (run step s l).1 l').1, (run step s l).2 ++ (run step (run step s l).1 l').2) := by
  induction l generalizing s with
  | nil => rfl
  | cons i l ih => rw [cons_append, run_cons, ih, run_cons, append_assoc]

theorem run_map {α : Type*} (f : α → ι) (s : σ) (l : List α) :
    run step s (l.map f) = run (fun s a => step s (f a)) s l := by
  induction l generalizing s with
  | nil => rfl
  | cons a l ih => rw [map_cons, run_cons, ih, run_cons]

/-- **The rule for views**: a machine that does as another does, seen from its own state. -/
theorem run_view {step' : τ → ι → τ × List ο} (view : σ → τ)
    (h : ∀ s i, step' (view s) i = (view (step s i).1, (step s i).2)) (s : σ) (l : List ι) :
    run step' (view s) l = (view (run step s l).1, (run step s l).2) := by
  induction l generalizing s with
  | nil => rfl
  | cons i l ih => rw [run_cons, run_cons, h, ih]

end Run

/-! ### Machines in series -/

/-- Two machines in series: an input of the first, and all that the second makes of the answer. -/
def series (step : σ → ι → σ × List μ) (step' : τ → μ → τ × List ο) (s : σ × τ) (i : ι) :
    (σ × τ) × List ο :=
  (((step s.1 i).1, (run step' s.2 (step s.1 i).2).1), (run step' s.2 (step s.1 i).2).2)

/-- **The rule for series.** -/
theorem run_series (step : σ → ι → σ × List μ) (step' : τ → μ → τ × List ο) (s : σ) (t : τ)
    (l : List ι) : run (series step step') (s, t) l =
      (((run step s l).1, (run step' t (run step s l).2).1), (run step' t (run step s l).2).2) := by
  induction l generalizing s t with
  | nil => rfl
  | cons i l ih => rw [run_cons, series, ih, run_cons, run_append]

/-! ### A machine for each key -/

section Keyed
variable [DecidableEq κ] (step : σ → ι → σ × List ο) (start : σ)

/-- The machine of a key takes an input; one that has had none is at the start. -/
def stepAt (m : List (κ × σ)) (e : κ × ι) : List (κ × σ) × List (κ × ο) :=
  (put e.1 (step ((m.lookup e.1).getD start) e.2).1 m,
    (step ((m.lookup e.1).getD start) e.2).2.map (e.1, ·))

/-- What carries a key. -/
def outputsOf (k : κ) (l : List (κ × ο)) : List ο :=
  l.filterMap fun e => if e.1 = k then some e.2 else none

@[simp] theorem outputsOf_nil (k : κ) : outputsOf k ([] : List (κ × ο)) = [] := rfl

@[simp] theorem outputsOf_append (k : κ) (l l' : List (κ × ο)) :
    outputsOf k (l ++ l') = outputsOf k l ++ outputsOf k l' := filterMap_append

theorem outputsOf_cons (k : κ) (e : κ × ο) (l : List (κ × ο)) :
    outputsOf k (e :: l) = if e.1 = k then e.2 :: outputsOf k l else outputsOf k l := by
  rw [outputsOf, filterMap_cons]
  by_cases h : e.1 = k
  · rw [if_pos h, if_pos h]
    rfl
  · rw [if_neg h, if_neg h]
    rfl

theorem outputsOf_map (k k' : κ) (l : List ο) :
    outputsOf k (l.map (k', ·)) = if k' = k then l else [] := by
  induction l with
  | nil => split <;> rfl
  | cons o l ih =>
    rw [map_cons, outputsOf_cons, ih]
    split <;> rfl

/-- The machines run on inputs with keys. -/
def runAt (m : List (κ × σ)) (l : List (κ × ι)) : List (κ × σ) × List (κ × ο) :=
  run (stepAt step start) m l

theorem runAt_cons (m : List (κ × σ)) (e : κ × ι) (l : List (κ × ι)) : runAt step start m (e :: l) =
    ((runAt step start (stepAt step start m e).1 l).1,
      (stepAt step start m e).2 ++ (runAt step start (stepAt step start m e).1 l).2) := rfl

/-- **The rule for keys.**  The machine of a key is where its own inputs lead it. -/
theorem lookup_runAt (m : List (κ × σ)) (l : List (κ × ι)) (k : κ) :
    ((runAt step start m l).1.lookup k).getD start =
      (run step ((m.lookup k).getD start) (outputsOf k l)).1 := by
  induction l generalizing m with
  | nil => rfl
  | cons e l ih =>
    rw [runAt_cons, ih, outputsOf_cons, stepAt, lookup_put]
    by_cases h : e.1 = k
    · rw [if_pos h.symm, if_pos h, run_cons, Option.getD_some, h]
    · rw [if_neg fun h' => h h'.symm, if_neg h]

/-- And what it gives out is what these make it give. -/
theorem outputsOf_runAt (m : List (κ × σ)) (l : List (κ × ι)) (k : κ) :
    outputsOf k (runAt step start m l).2 = (run step ((m.lookup k).getD start) (outputsOf k l)).2 := by
  induction l generalizing m with
  | nil => rfl
  | cons e l ih =>
    rw [runAt_cons, outputsOf_append, ih, outputsOf_cons, stepAt, outputsOf_map, lookup_put]
    by_cases h : e.1 = k
    · rw [if_pos h.symm, if_pos h, if_pos h, run_cons, Option.getD_some, h]
    · rw [if_neg h, if_neg h, if_neg fun h' => h h'.symm, nil_append]

theorem nodup_runAt {m : List (κ × σ)} (h : (keys m).Nodup) (l : List (κ × ι)) :
    (keys (runAt step start m l).1).Nodup := by
  induction l generalizing m with
  | nil => exact h
  | cons e l ih => exact ih (nodup_keys_put h)

/-- What is read off the entries of a map, whatever their order. -/
theorem outputsOf_perm {m m' : List (κ × σ)} (hm : (keys m).Nodup) (hperm : m'.Perm m)
    (read : σ → List ο) (k : κ) :
    outputsOf k (m'.flatMap fun e => (read e.2).map (e.1, ·)) = ((m.lookup k).map read).getD [] := by
  have hm' : (keys m').Nodup := (hperm.map Prod.fst).nodup_iff.mpr hm
  have hlookup : m.lookup k = m'.lookup k := by
    apply Option.ext
    intro v
    exact ⟨fun h => lookup_of_mem hm' (hperm.mem_iff.mpr (mem_of_lookup h)),
      fun h => lookup_of_mem hm (hperm.mem_iff.mp (mem_of_lookup h))⟩
  rw [hlookup]
  clear hlookup hperm hm
  induction m' with
  | nil => rfl
  | cons e m' ih =>
    obtain ⟨hnew, hrest⟩ := List.nodup_cons.mp hm'
    rw [flatMap_cons, outputsOf_append, outputsOf_map, ih hrest, lookup_cons_eq]
    by_cases h : e.1 = k
    · have hnone : m'.lookup k = none := by
        rw [← Option.not_isSome_iff_eq_none, Option.isSome_iff_exists, ← mem_keys_iff, ← h]
        exact hnew
      rw [if_pos h, if_pos h.symm, hnone, Option.map_none, Option.getD_none, append_nil]
      rfl
    · rw [if_neg h, if_neg fun h' => h h'.symm, nil_append]

end Keyed

end QwenStack.Transducer
