import QwenStack.CacheAware.Definitions
import QwenStack.Tree.Pace

/-!
# Cache-aware routing — keys and calls

A key has the tag of the pool and the model, and tells them apart (`treeKey_eq_iff`).  Every call returns,
as those of the trees do (`step_total`), and a call for one key leaves the tree of another, but for the
counter that it draws epochs from (`Foreign`).
-/

namespace QwenStack.CacheAware
open Assoc List
open Registry (Url ModelId WorkerType)
open QwenStack.Tree (Epoch)
open CacheAwarePolicy

/-! ### Keys -/

/-- The pool of a worker and its model, normalised. -/
def CacheAwareConfig.pool (cfg : CacheAwareConfig) (w : Worker) : Str × ModelId :=
  (poolTag w.workerType, cfg.normalizeModelKey w.modelId)

/-- The first character of a tag. -/
def tagChar : WorkerType → Char
  | .regular => 'r'
  | .prefill _ => 'p'
  | .decode => 'd'

theorem head_makeTreeKey (t : WorkerType) (m : Str) :
    (makeTreeKey (poolTag t) m).head? = some (tagChar t) := by
  cases t <;> rfl

/-- The tags differ in their first character. -/
theorem poolTag_eq {t t' : WorkerType} (h : tagChar t = tagChar t') : poolTag t = poolTag t' := by
  cases t <;> cases t' <;> simp [tagChar] at h <;> rfl

theorem makeTreeKey_inj {t t' : WorkerType} {m m' : Str}
    (h : makeTreeKey (poolTag t) m = makeTreeKey (poolTag t') m') : poolTag t = poolTag t' ∧ m = m' := by
  have hhead := congrArg List.head? h
  rw [head_makeTreeKey, head_makeTreeKey] at hhead
  have htag : poolTag t = poolTag t' := poolTag_eq (Option.some.inj hhead)
  rw [makeTreeKey, makeTreeKey, htag] at h
  exact ⟨htag, append_cancel_left h⟩

theorem treeKey_eq_iff (cfg : CacheAwareConfig) {w w' : Worker} :
    cfg.treeKeyForWorker w = cfg.treeKeyForWorker w' ↔ cfg.pool w = cfg.pool w' := by
  constructor
  · intro h
    obtain ⟨htag, hmodel⟩ := makeTreeKey_inj h
    exact Prod.ext htag hmodel
  · intro h
    obtain ⟨htag, hmodel⟩ := Prod.mk.inj h
    rw [CacheAwareConfig.treeKeyForWorker, CacheAwareConfig.treeKeyForWorker, htag, hmodel]

/-! ### Every call returns -/

/-- The trees are well formed. -/
def WellFormed (p : CacheAwarePolicy) : Prop := ∀ e ∈ p.trees, Tree.WellFormed e.2

section
variable {cfg : CacheAwareConfig} {choice : Choice} {p p' : CacheAwarePolicy} {key : Str} {tr : Tree}

theorem wellFormed_new (epoch : Epoch) : WellFormed (.new epoch) := fun _ he => absurd he not_mem_nil

theorem WellFormed.lookup (h : WellFormed p) (hl : p.trees.lookup key = some tr) : tr.WellFormed :=
  h _ (mem_of_lookup hl)

theorem WellFormed.store (h : WellFormed p) (htr : tr.WellFormed) (key : Str) (epoch : Epoch) :
    WellFormed (p.store key tr epoch) := by
  intro e he
  obtain rfl | he := mem_put he
  · exact htr
  · exact h e he

theorem WellFormed.insertIn (h : WellFormed p) (htr : tr.WellFormed) (key : Str) (text : Str)
    (url : Url) : ∃ p', p.insertIn key tr text url = some p' ∧ WellFormed p' := by
  have htr' : Tree.WellFormed (tr, p.epoch).1 := htr
  obtain ⟨r, hrun, hr⟩ := htr'.apply Tree.IterOrder.inserted (.insert text url)
  change tr.insert text url p.epoch = some r at hrun
  refine ⟨p.store key r.1 r.2, ?_, h.store hr key r.2⟩
  rw [CacheAwarePolicy.insertIn, hrun]
  rfl

theorem WellFormed.removeIn (h : WellFormed p) (htr : tr.WellFormed) (choice : Choice) (key : Str)
    (url : Url) : ∃ p', p.removeIn choice key tr url = some p' ∧ WellFormed p' := by
  have htr' : Tree.WellFormed (tr, p.epoch).1 := htr
  obtain ⟨r, hcall, hr⟩ := htr'.apply choice.removal.toIterOrder (.removeTenant url)
  obtain ⟨tr', hrun, rfl⟩ := Option.map_eq_some_iff.mp hcall
  refine ⟨p.store key tr' p.epoch, ?_, h.store hr key p.epoch⟩
  change (tr.removeTenant choice.removal.toIterOrder url).map _ = _
  rw [hrun]
  rfl

theorem WellFormed.seed (h : WellFormed p) (key : Str) (w : Worker) :
    ∃ p', p.seed key w = some p' ∧ WellFormed p' := by
  refine h.insertIn ?_ key [] w.url
  cases hl : p.trees.lookup key with
  | none => exact Tree.wellFormed_new
  | some tr => exact h.lookup hl

/-- A loop of calls that return. -/
theorem WellFormed.foldlM {α : Type*} {f : CacheAwarePolicy → α → Option CacheAwarePolicy}
    (hf : ∀ p a, WellFormed p → ∃ p', f p a = some p' ∧ WellFormed p') (l : List α) (h : WellFormed p) :
    ∃ p', l.foldlM f p = some p' ∧ WellFormed p' := by
  induction l generalizing p with
  | nil => exact ⟨p, rfl, h⟩
  | cons a l ih =>
    obtain ⟨p₁, hstep, h₁⟩ := hf p a h
    obtain ⟨p₂, hrest, h₂⟩ := ih h₁
    exact ⟨p₂, by rw [foldlM_cons, hstep]; exact hrest, h₂⟩

theorem WellFormed.evictCache (h : WellFormed p) (choice : Choice) (maxSize : Nat) :
    ∃ p', p.evictCache choice maxSize = some p' ∧ WellFormed p' := by
  have htrees : ∀ l : List (Str × Tree), (∀ e ∈ l, e.2.WellFormed) →
      ∃ l', l.mapM (fun e => (e.2.evictTenantBySize (choice.eviction e.1).toIterOrder maxSize).map
        fun tr => (e.1, tr)) = some l' ∧ ∀ e ∈ l', e.2.WellFormed := by
    intro l
    induction l with
    | nil => exact fun _ => ⟨[], rfl, fun _ he => absurd he not_mem_nil⟩
    | cons e l ih =>
      intro hl
      have he : Tree.WellFormed (e.2, p.epoch).1 := hl e mem_cons_self
      obtain ⟨r, hcall, hr⟩ := he.apply (choice.eviction e.1).toIterOrder (.evictTenantBySize maxSize)
      obtain ⟨tr', hrun, rfl⟩ := Option.map_eq_some_iff.mp hcall
      obtain ⟨l', hrest, hl'⟩ := ih fun e' he' => hl e' (mem_cons_of_mem _ he')
      change e.2.evictTenantBySize _ maxSize = some tr' at hrun
      refine ⟨(e.1, tr') :: l', ?_, fun e' he' => ?_⟩
      · rw [mapM_cons, hrun, hrest]
        rfl
      · obtain rfl | he' := List.mem_cons.mp he'
        · exact hr
        · exact hl' e' he'
  obtain ⟨l', hrun, hl'⟩ := htrees p.trees h
  refine ⟨{ p with trees := l' }, ?_, hl'⟩
  rw [CacheAwarePolicy.evictCache, hrun]
  rfl

theorem WellFormed.selectWorkerMinLoad (h : WellFormed p) (choice : Choice) (workers : List Worker)
    (requestText : Option Str) (healthyIndices : List (Fin workers.length)) (treeKey : Str) :
    ∃ r, p.selectWorkerMinLoad choice workers requestText healthyIndices treeKey = some r ∧
      WellFormed r.1 := by
  rw [CacheAwarePolicy.selectWorkerMinLoad]
  cases minLoadIndex choice.rng workers healthyIndices with
  | none => exact ⟨_, rfl, h⟩
  | some idx =>
    cases requestText with
    | none => exact ⟨_, rfl, h⟩
    | some text =>
      cases hl : p.trees.lookup treeKey with
      | none => exact ⟨_, rfl, h⟩
      | some tr =>
        obtain ⟨p', hrun, h'⟩ := h.insertIn (h.lookup hl) treeKey text (workers.get idx).url
        exact ⟨(p', some idx), by dsimp only; rw [hrun]; rfl, h'⟩

/-- A match returns. -/
theorem exists_match (htr : tr.WellFormed) (choice : Choice) (text : Str) (epoch : Epoch) :
    ∃ r, tr.prefixMatchWithCounts choice.matching.toIterOrder text epoch = some r ∧ r.1.WellFormed := by
  have htr' : Tree.WellFormed (tr, epoch).1 := htr
  obtain ⟨r, hcall, hr⟩ := htr'.apply choice.matching.toIterOrder (.prefixMatchWithCounts text)
  obtain ⟨m, hrun, rfl⟩ := Option.map_eq_some_iff.mp hcall
  exact ⟨m, hrun, hr⟩

theorem WellFormed.selectWorkerByPrefix (h : WellFormed p) (htr : tr.WellFormed) (cfg : CacheAwareConfig)
    (choice : Choice) (workers : List Worker) (text : Str) (healthyIndices : List (Fin workers.length))
    (treeKey : Str) :
    ∃ r, p.selectWorkerByPrefix cfg choice workers text healthyIndices treeKey tr = some r ∧
      WellFormed r.1 := by
  obtain ⟨⟨tr', epoch, result⟩, hrun, hr⟩ := exists_match htr choice text p.epoch
  have hstore : WellFormed (p.store treeKey tr' epoch) := h.store hr treeKey epoch
  rw [CacheAwarePolicy.selectWorkerByPrefix, hrun, Option.bind_eq_bind, Option.bind_some]
  dsimp only
  split
  · next idx _ =>
    obtain ⟨p', hrun, h'⟩ := hstore.insertIn hr treeKey text (workers.get idx).url
    exact ⟨(p', some idx), by rw [hrun]; rfl, h'⟩
  · split
    · obtain ⟨p', hrun, h'⟩ := hstore.removeIn hr choice treeKey result.tenant
      exact ⟨(p', healthyIndices.head?), by rw [hrun]; rfl, h'⟩
    · exact ⟨_, rfl, hstore⟩

theorem WellFormed.selectWorker (h : WellFormed p) (cfg : CacheAwareConfig) (choice : Choice)
    (workers : List Worker) (requestText : Option Str) :
    ∃ r, p.selectWorker cfg choice workers requestText = some r ∧ WellFormed r.1 := by
  rw [CacheAwarePolicy.selectWorker]
  cases getHealthyWorkerIndices workers with
  | nil => exact ⟨_, rfl, h⟩
  | cons pivot rest =>
    dsimp only
    split
    · exact h.selectWorkerMinLoad choice workers requestText _ _
    · split
      · exact ⟨_, rfl, h⟩
      · next tr hl => exact h.selectWorkerByPrefix (h.lookup hl) cfg choice workers _ _ _

/-- **Every call returns.** -/
theorem step_total (cfg : CacheAwareConfig) (p : CacheAwarePolicy) (call : Choice × Op)
    (h : WellFormed p) : ∃ p', step cfg p call = some p' ∧ WellFormed p' := by
  obtain ⟨choice, op⟩ := call
  cases op with
  | initWorkers workers =>
    exact WellFormed.foldlM (fun p key hp => hp.foldlM (fun p w hp => hp.seed key w) _) _ h
  | addWorker worker => exact h.seed _ worker
  | removeWorker worker =>
    change ∃ p', p.removeWorker cfg choice worker = some p' ∧ _
    rw [CacheAwarePolicy.removeWorker]
    split
    · exact ⟨p, rfl, h⟩
    · next tr hl => exact h.removeIn (h.lookup hl) choice _ worker.url
  | selectWorker workers requestText =>
    obtain ⟨r, hrun, hr⟩ := h.selectWorker cfg choice workers requestText
    refine ⟨r.1, ?_, hr⟩
    change (p.selectWorker cfg choice workers requestText).map Prod.fst = _
    rw [hrun]
    rfl
  | evictCache maxSize => exact h.evictCache choice maxSize

end

/-! ### Calls for another key -/

/-- At most `n` epochs are drawn. -/
def Advances (n : Nat) (epoch epoch' : Epoch) : Prop :=
  epoch.toNat + n < 2 ^ 64 → epoch.toNat ≤ epoch'.toNat ∧ epoch'.toNat ≤ epoch.toNat + n

theorem toNat_succ {e : Epoch} (h : e.toNat + 1 < 2 ^ 64) : (e + 1).toNat = e.toNat + 1 := by
  rw [UInt64.toNat_add]
  exact Nat.mod_eq_of_lt h

namespace Advances

variable {m n : Nat} {e e' e'' : Epoch}

theorem refl (e : Epoch) : Advances 0 e e := fun _ => ⟨Nat.le_refl _, Nat.le_refl _⟩

theorem trans (h : Advances m e e') (h' : Advances n e' e'') : Advances (m + n) e e'' := by
  intro hlt
  obtain ⟨hle, hge⟩ := h (by omega)
  obtain ⟨hle', hge'⟩ := h' (by omega)
  exact ⟨hle.trans hle', by omega⟩

theorem mono (h : Advances m e e') (hmn : m ≤ n) : Advances n e e' := by
  intro hlt
  obtain ⟨hle, hge⟩ := h (by omega)
  exact ⟨hle, by omega⟩

theorem one (e : Epoch) : Advances 1 e (e + 1) := by
  intro hlt
  rw [toNat_succ hlt]
  exact ⟨Nat.le_succ _, Nat.le_refl _⟩

end Advances

/-- A call has left the tree of a key, and drawn at most `n` epochs. -/
structure Foreign (b : Str) (n : Nat) (p p' : CacheAwarePolicy) : Prop where
  tree : p'.trees.lookup b = p.trees.lookup b
  epochs : Advances n p.epoch p'.epoch

namespace Foreign

variable {b key : Str} {m n : Nat} {p p' p'' : CacheAwarePolicy} {tr : Tree} {choice : Choice}
  {cfg : CacheAwareConfig}

theorem refl (b : Str) (p : CacheAwarePolicy) : Foreign b 0 p p := ⟨rfl, .refl _⟩

theorem trans (h : Foreign b m p p') (h' : Foreign b n p' p'') : Foreign b (m + n) p p'' :=
  ⟨h'.tree.trans h.tree, h.epochs.trans h'.epochs⟩

theorem mono (h : Foreign b m p p') (hmn : m ≤ n) : Foreign b n p p' := ⟨h.tree, h.epochs.mono hmn⟩

theorem store (hkey : key ≠ b) (tr : Tree) {epoch : Epoch} (h : Advances n p.epoch epoch) :
    Foreign b n p (p.store key tr epoch) := by
  refine ⟨?_, h⟩
  change (put key tr p.trees).lookup b = _
  rw [lookup_put, if_neg hkey.symm]

theorem insertIn (hkey : key ≠ b) {text : Str} {url : Url}
    (h : p.insertIn key tr text url = some p') : Foreign b 1 p p' := by
  obtain ⟨⟨tr', epoch⟩, hrun, rfl⟩ := Option.map_eq_some_iff.mp h
  obtain rfl := Tree.insert_epoch hrun
  exact store hkey tr' (.one p.epoch)

theorem seed (hkey : key ≠ b) {w : Worker} (h : p.seed key w = some p') : Foreign b 1 p p' :=
  insertIn hkey h

theorem removeIn (hkey : key ≠ b) {url : Url} (h : p.removeIn choice key tr url = some p') :
    Foreign b 0 p p' := by
  obtain ⟨tr', -, rfl⟩ := Option.map_eq_some_iff.mp h
  exact store hkey tr' (.refl p.epoch)

theorem removeWorker {w : Worker} (hkey : cfg.treeKeyForWorker w ≠ b)
    (h : p.removeWorker cfg choice w = some p') : Foreign b 0 p p' := by
  rw [CacheAwarePolicy.removeWorker] at h
  split at h
  · cases h
    exact refl b p
  · exact removeIn hkey h

theorem selectWorkerMinLoad (hkey : key ≠ b) {workers : List Worker} {requestText : Option Str}
    {healthyIndices : List (Fin workers.length)} {idx : Option (Fin workers.length)}
    (h : p.selectWorkerMinLoad choice workers requestText healthyIndices key = some (p', idx)) :
    Foreign b 1 p p' := by
  rw [CacheAwarePolicy.selectWorkerMinLoad] at h
  split at h
  · obtain ⟨rfl, -⟩ := Prod.mk.inj (Option.some.inj h)
    exact (refl b p).mono (Nat.zero_le 1)
  · split at h
    · obtain ⟨p₁, hrun, h⟩ := Option.map_eq_some_iff.mp h
      obtain ⟨rfl, -⟩ := Prod.mk.inj h
      exact insertIn hkey hrun
    · obtain ⟨rfl, -⟩ := Prod.mk.inj (Option.some.inj h)
      exact (refl b p).mono (Nat.zero_le 1)

theorem selectWorkerByPrefix (hkey : key ≠ b) {workers : List Worker} {text : Str}
    {healthyIndices : List (Fin workers.length)} {idx : Option (Fin workers.length)}
    (h : p.selectWorkerByPrefix cfg choice workers text healthyIndices key tr = some (p', idx)) :
    Foreign b 2 p p' := by
  rw [CacheAwarePolicy.selectWorkerByPrefix, Tree.prefixMatchWithCounts_eq] at h
  obtain ⟨⟨tr', epoch, result⟩, hmatch, h⟩ := Option.bind_eq_some_iff.mp h
  obtain ⟨r, -, hr⟩ := Option.map_eq_some_iff.mp hmatch
  obtain ⟨rfl, hrest⟩ := Prod.mk.inj hr
  cases hrest
  have hmatched := store hkey (r.1.refresh p.epoch r.2.1 r.2.2.tenant) (.one p.epoch)
  dsimp only at h
  split at h
  · obtain ⟨p₁, hrun, h⟩ := Option.map_eq_some_iff.mp h
    obtain ⟨rfl, -⟩ := Prod.mk.inj h
    exact hmatched.trans (insertIn hkey hrun)
  · split at h
    · obtain ⟨p₁, hrun, h⟩ := Option.map_eq_some_iff.mp h
      obtain ⟨rfl, -⟩ := Prod.mk.inj h
      exact (hmatched.trans (removeIn hkey hrun)).mono (Nat.le_succ 1)
    · obtain ⟨rfl, -⟩ := Prod.mk.inj (Option.some.inj h)
      exact hmatched.mono (Nat.le_succ 1)

theorem selectWorker {workers : List Worker} (hkey : ∀ w ∈ workers, cfg.treeKeyForWorker w ≠ b)
    {requestText : Option Str} {idx : Option (Fin workers.length)}
    (h : p.selectWorker cfg choice workers requestText = some (p', idx)) : Foreign b 2 p p' := by
  rw [CacheAwarePolicy.selectWorker] at h
  split at h
  · obtain ⟨rfl, -⟩ := Prod.mk.inj (Option.some.inj h)
    exact (refl b p).mono (Nat.zero_le 2)
  · next pivot rest _ =>
    have hpivot := hkey _ (workers.get_mem pivot)
    dsimp only at h
    split at h
    · exact (selectWorkerMinLoad hpivot h).mono (Nat.le_succ 1)
    · split at h
      · obtain ⟨rfl, -⟩ := Prod.mk.inj (Option.some.inj h)
        exact (refl b p).mono (Nat.zero_le 2)
      · exact selectWorkerByPrefix hpivot h

end Foreign

/-! ### Seeding -/

/-- The workers of `init_workers`, in the order in which they are inserted. -/
def seeded (cfg : CacheAwareConfig) (choice : Choice) (workers : List Worker) : List Worker :=
  (choice.groups (workers.map cfg.treeKeyForWorker).dedup).flatMap fun key =>
    workers.filter fun w => decide (cfg.treeKeyForWorker w = key)

variable (cfg : CacheAwareConfig) (choice : Choice)

theorem initWorkers_eq (p : CacheAwarePolicy)
    (workers : List Worker) : p.initWorkers cfg choice workers =
      (seeded cfg choice workers).foldlM (fun p w => p.addWorker cfg w) p := by
  rw [initWorkers, seeded]
  generalize choice.groups (workers.map cfg.treeKeyForWorker).dedup = keys
  have hgroup (key : Str) (p : CacheAwarePolicy) : ∀ l : List Worker,
      (∀ w ∈ l, cfg.treeKeyForWorker w = key) →
        l.foldlM (seed · key) p = l.foldlM (fun p w => p.addWorker cfg w) p := by
    intro l
    induction l generalizing p with
    | nil => exact fun _ => rfl
    | cons w l ih =>
      intro hl
      rw [foldlM_cons, foldlM_cons, addWorker, hl w mem_cons_self]
      congr 1
      funext p
      exact ih p fun w' hw' => hl w' (mem_cons_of_mem _ hw')
  induction keys generalizing p with
  | nil => rfl
  | cons key keys ih =>
    rw [foldlM_cons, flatMap_cons, foldlM_append,
      hgroup key p _ fun w hw => of_decide_eq_true (List.mem_filter.mp hw).2]
    congr 1
    funext p
    exact ih p

/-- The workers of one key are in their order. -/
theorem filter_seeded (workers : List Worker) (b : Str) :
    (seeded cfg choice workers).filter (fun w => decide (cfg.treeKeyForWorker w = b)) =
      workers.filter fun w => decide (cfg.treeKeyForWorker w = b) := by
  have hperm := choice.groups_perm (workers.map cfg.treeKeyForWorker).dedup
  have hnodup := hperm.nodup_iff.mpr (nodup_dedup _)
  have hmem : b ∈ choice.groups (workers.map cfg.treeKeyForWorker).dedup ↔
      ∃ w ∈ workers, cfg.treeKeyForWorker w = b := by
    rw [hperm.mem_iff, mem_dedup, mem_map]
  rw [seeded]
  generalize choice.groups (workers.map cfg.treeKeyForWorker).dedup = keys at hnodup hmem
  have hgroup (key : Str) : (workers.filter fun w => decide (cfg.treeKeyForWorker w = key)).filter
      (fun w => decide (cfg.treeKeyForWorker w = b)) =
        if key = b then workers.filter fun w => decide (cfg.treeKeyForWorker w = b) else [] := by
    split
    · next he =>
      subst he
      exact List.filter_eq_self.mpr fun w hw => (List.mem_filter.mp hw).2
    · next he =>
      refine List.filter_eq_nil_iff.mpr fun w hw hb => he ?_
      exact (of_decide_eq_true (List.mem_filter.mp hw).2).symm.trans (of_decide_eq_true hb)
  have hall : ∀ keys : List Str, keys.Nodup →
      (keys.flatMap fun key => workers.filter fun w => decide (cfg.treeKeyForWorker w = key)).filter
        (fun w => decide (cfg.treeKeyForWorker w = b)) =
          if b ∈ keys then workers.filter fun w => decide (cfg.treeKeyForWorker w = b) else [] := by
    intro keys
    induction keys with
    | nil => exact fun _ => rfl
    | cons key keys ih =>
      intro hn
      obtain ⟨hfresh, hn⟩ := List.nodup_cons.mp hn
      rw [flatMap_cons, filter_append, hgroup, ih hn]
      by_cases he : key = b
      · subst he
        rw [if_pos rfl, if_neg hfresh, if_pos mem_cons_self, append_nil]
      · have hiff : b ∈ key :: keys ↔ b ∈ keys :=
          ⟨fun h => (List.mem_cons.mp h).resolve_left (Ne.symm he), mem_cons_of_mem _⟩
        rw [if_neg he, nil_append]
        exact if_congr hiff.symm rfl rfl
  rw [hall keys hnodup]
  split
  · rfl
  · next hb =>
    refine (List.filter_eq_nil_iff.mpr fun w hw hwb => hb ?_).symm
    exact hmem.mpr ⟨w, hw, of_decide_eq_true hwb⟩

theorem seeded_perm (workers : List Worker) : (seeded cfg choice workers).Perm workers := by
  refine List.perm_iff_count.mpr fun w => ?_
  have hown : decide (cfg.treeKeyForWorker w = cfg.treeKeyForWorker w) = true := decide_eq_true rfl
  have hseeded := count_filter (l := seeded cfg choice workers)
    (p := fun w' => decide (cfg.treeKeyForWorker w' = cfg.treeKeyForWorker w)) hown
  have hworkers := count_filter (l := workers)
    (p := fun w' => decide (cfg.treeKeyForWorker w' = cfg.treeKeyForWorker w)) hown
  rw [← hseeded, filter_seeded, hworkers]

end QwenStack.CacheAware
