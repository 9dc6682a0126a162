import QwenStack.CacheAware.Usable
import QwenStack.Tree.Matching

/-!
# Cache-aware routing — the same text again

A call leaves its text with the worker it selects, and takes nothing from any worker; so when the text comes
again it goes to a worker that has it (`again_found`).  The exception is a call whose text hits a
worker that is gone or unhealthy: it drops the worker from the tree, answers with the first usable worker,
and does not leave the text with that one.
-/

namespace QwenStack.CacheAware
open Assoc List
open Registry (Url)
open QwenStack.Tree (Epoch)

/-- The worker of this URL has the text, in the tree of the key. -/
def Owns (p : CacheAwarePolicy) (key : Str) (url : Url) (text : Str) : Prop :=
  ∃ tr, p.trees.lookup key = some tr ∧ text ∈ tr.Owned url

section
variable {cfg : CacheAwareConfig} {choice : Choice} {p p' : CacheAwarePolicy} {key : Str} {tr : Tree}
  {text : Str} {url : Url} {workers : List Worker} {requestText : Option Str}
  {answer : Option (Fin workers.length)} {pivot : Fin workers.length} {rest : List (Fin workers.length)}

/-! ### What a call leaves -/

/-- The tree of the key has grown, and no other tree has changed. -/
structure Learned (p p' : CacheAwarePolicy) (key : Str) (tr : Tree) (url : Url) (text : Str) : Prop where
  grown : ∃ tr', p'.trees.lookup key = some tr' ∧ (∀ u, tr.Owned u ⊆ tr'.Owned u) ∧ text ∈ tr'.Owned url
  others : ∀ key', key' ≠ key → p'.trees.lookup key' = p.trees.lookup key'

theorem Learned.owns (h : Learned p p' key tr url text) : Owns p' key url text := by
  obtain ⟨tr', hl, -, hmem⟩ := h.grown
  exact ⟨tr', hl, hmem⟩

theorem Learned.keeps (h : Learned p p' key tr url text) (hl : p.trees.lookup key = some tr) {key' : Str}
    {u : Url} {s : Str} (ho : Owns p key' u s) : Owns p' key' u s := by
  obtain ⟨t, ht, hs⟩ := ho
  by_cases hkey : key' = key
  · subst hkey
    cases hl.symm.trans ht
    obtain ⟨tr', hl', hgrown, -⟩ := h.grown
    exact ⟨tr', hl', hgrown u hs⟩
  · exact ⟨t, (h.others key' hkey).trans ht, hs⟩

/-- An insert, into the tree of the key as it is or as a match has left it. -/
theorem learned_insertIn {q : CacheAwarePolicy} (htr : tr.WellFormed)
    (hothers : ∀ key', key' ≠ key → q.trees.lookup key' = p.trees.lookup key')
    (h : q.insertIn key tr text url = some p') : Learned p p' key tr url text := by
  obtain ⟨path, hS⟩ := htr
  obtain ⟨tr', epoch', hins, -, hown, hother⟩ := hS.insert_owned text url q.epoch
  rw [CacheAwarePolicy.insertIn, hins] at h
  cases h
  refine ⟨⟨tr', (lookup_put ..).trans (if_pos rfl), fun u => ?_, ?_⟩, fun key' hkey => ?_⟩
  · by_cases hu : u = url
    · rw [hu, hown]
      exact Set.subset_union_left
    · rw [hother u hu]
  · rw [hown]
    exact Or.inr (prefix_refl text)
  · exact ((lookup_put ..).trans (if_neg hkey)).trans (hothers key' hkey)

/-- A match and an insert into what it has left. -/
theorem learned_match {choice : Choice} {tr' : Tree} {epoch : Epoch} {result : Tree.PrefixMatchResult}
    (htr : tr.WellFormed)
    (hmatch : tr.prefixMatchWithCounts choice.matching.toIterOrder text p.epoch = some (tr', epoch, result))
    (h : (p.store key tr' epoch).insertIn key tr' text url = some p') : Learned p p' key tr url text := by
  obtain ⟨path, hS⟩ := htr
  obtain ⟨r, hrun, hr⟩ := exists_match ⟨path, hS⟩ choice text p.epoch
  cases hmatch.symm.trans hrun
  have hlearned : Learned p p' key tr' url text :=
    learned_insertIn hr (fun key' hkey => (lookup_put ..).trans (if_neg hkey)) h
  obtain ⟨tr'', hl, hgrown, hmem⟩ := hlearned.grown
  exact ⟨⟨tr'', hl, fun u => (hS.match_owned hmatch u).trans (hgrown u), hmem⟩, hlearned.others⟩

theorem learned_minLoad {indices : List (Fin workers.length)} (htr : tr.WellFormed)
    (hl : p.trees.lookup key = some tr) (hne : indices ≠ [])
    (h : p.selectWorkerMinLoad choice workers (some text) indices key = some (p', answer)) :
    ∃ i, answer = some i ∧ Learned p p' key tr (workers.get i).url text := by
  obtain ⟨i, hi⟩ := exists_minLoadIndex choice.rng hne
  simp only [CacheAwarePolicy.selectWorkerMinLoad, hi, hl] at h
  obtain ⟨q, hins, heq⟩ := Option.map_eq_some_iff.mp h
  cases heq
  exact ⟨i, rfl, learned_insertIn htr (fun _ _ => rfl) hins⟩

theorem minLoad_same {indices : List (Fin workers.length)}
    (hnone : requestText = none ∨ p.trees.lookup key = none)
    (h : p.selectWorkerMinLoad choice workers requestText indices key = some (p', answer)) : p' = p := by
  rw [CacheAwarePolicy.selectWorkerMinLoad] at h
  cases hi : minLoadIndex choice.rng workers indices with
  | none =>
    rw [hi] at h
    exact (congrArg Prod.fst (Option.some.inj h)).symm
  | some i =>
    rw [hi] at h
    dsimp only at h
    split at h
    · next hl =>
      rcases hnone with hnone | hnone
      · cases hnone
      · cases hl.symm.trans hnone
    · exact (congrArg Prod.fst (Option.some.inj h)).symm

theorem learned_byPrefix {indices : List (Fin workers.length)} (htr : tr.WellFormed) (hne : indices ≠ [])
    (h : p.selectWorkerByPrefix cfg choice workers text indices key tr = some (p', answer)) :
    (∃ i, answer = some i ∧ Learned p p' key tr (workers.get i).url text) ∨ ∃ tr' epoch result,
        tr.prefixMatchWithCounts choice.matching.toIterOrder text p.epoch = some (tr', epoch, result) ∧
          cfg.isCacheHit result.matchedCharCount result.inputCharCount = true ∧
          ∀ i, position workers result.tenant = some i → (workers.get i).isHealthy = false := by
  obtain ⟨⟨tr', epoch, result⟩, hmatch, -⟩ := exists_match htr choice text p.epoch
  rw [CacheAwarePolicy.selectWorkerByPrefix, hmatch, Option.bind_eq_bind, Option.bind_some] at h
  dsimp only at h
  split at h
  · next i _ =>
    obtain ⟨q, hins, heq⟩ := Option.map_eq_some_iff.mp h
    cases heq
    exact .inl ⟨i, rfl, learned_match htr hmatch hins⟩
  · next hsel =>
    by_cases hhit : cfg.isCacheHit result.matchedCharCount result.inputCharCount = true
    · refine .inr ⟨tr', epoch, result, hmatch, hhit, fun i hi => ?_⟩
      rw [if_pos hhit, hi, Option.filter_eq_none_iff] at hsel
      exact Bool.not_eq_true _ ▸ hsel i rfl
    · obtain ⟨i, hi⟩ := exists_minLoadIndex choice.rng hne
      rw [if_neg hhit, hi] at hsel
      cases hsel

/-- What a call leaves, if its text does not hit a worker that is gone: nothing, where there is no tree or no
text, or its text with the worker it selects. -/
theorem selectWorker_cases (h : WellFormed p) (hfresh : ¬ HitsStale cfg choice p workers requestText)
    (hcall : p.selectWorker cfg choice workers requestText = some (p', answer)) :
    (p' = p ∧ ∀ pivot, (getHealthyWorkerIndices workers).head? = some pivot → requestText ≠ none →
        p.trees.lookup (cfg.treeKeyForWorker (workers.get pivot)) = none) ∨
      ∃ pivot tr i, (getHealthyWorkerIndices workers).head? = some pivot ∧
        p.trees.lookup (cfg.treeKeyForWorker (workers.get pivot)) = some tr ∧ answer = some i ∧
        Learned p p' (cfg.treeKeyForWorker (workers.get pivot)) tr (workers.get i).url
          (requestText.getD []) := by
  rw [CacheAwarePolicy.selectWorker] at hcall
  cases hhealthy : getHealthyWorkerIndices workers with
  | nil =>
    simp only [hhealthy] at hcall
    obtain ⟨rfl, -⟩ := Prod.mk.inj (Option.some.inj hcall)
    exact .inl ⟨rfl, fun _ hpivot => by cases hpivot⟩
  | cons pivot rest =>
    simp only [hhealthy] at hcall
    have hne : pivot :: rest ≠ [] := cons_ne_nil _ _
    simp only [List.head?_cons, Option.some.injEq, forall_eq', exists_eq_left', exists_and_left]
    cases hl : p.trees.lookup (cfg.treeKeyForWorker (workers.get pivot)) with
    | none =>
      refine .inl ⟨?_, fun _ => rfl⟩
      split at hcall
      · exact minLoad_same (.inr hl) hcall
      · rw [hl] at hcall
        exact (congrArg Prod.fst (Option.some.inj hcall)).symm
    | some tr =>
      cases himb : isImbalanced cfg workers with
      | true =>
        simp only [himb, if_true] at hcall
        cases requestText with
        | none => exact .inl ⟨minLoad_same (.inl rfl) hcall, fun hnone => absurd rfl hnone⟩
        | some text =>
          obtain ⟨i, rfl, hlearned⟩ := learned_minLoad (h.lookup hl) hl hne hcall
          exact .inr ⟨tr, rfl, i, rfl, hlearned⟩
      | false =>
        simp only [himb, hl, Bool.false_eq_true, if_false] at hcall
        rcases learned_byPrefix (h.lookup hl) hne hcall with ⟨i, rfl, hlearned⟩ | hstale
        · exact .inr ⟨tr, rfl, i, rfl, hlearned⟩
        · obtain ⟨tr', epoch, result, hmatch, hhit, hgone⟩ := hstale
          refine absurd ⟨result, ?_, hgone⟩ hfresh
          rw [cacheHit_balanced hhealthy himb, hl, Option.bind_some, hmatch, Option.bind_some]
          exact if_pos hhit

theorem selectWorker_keeps (h : WellFormed p) (hfresh : ¬ HitsStale cfg choice p workers requestText)
    (hcall : p.selectWorker cfg choice workers requestText = some (p', answer)) (ho : Owns p key url text) :
    Owns p' key url text := by
  rcases selectWorker_cases h hfresh hcall with ⟨rfl, -⟩ | ⟨pivot, tr, i, -, hl, -, hlearned⟩
  · exact ho
  · exact hlearned.keeps hl ho

/-- The worker that is selected has the text, where there is a tree for it. -/
theorem selectWorker_leaves (h : WellFormed p) (hfresh : ¬ HitsStale cfg choice p workers (some text))
    (hkey : ∀ w ∈ workers, cfg.treeKeyForWorker w = key) (hseeded : p.trees.lookup key ≠ none)
    {i : Fin workers.length} (hcall : p.selectWorker cfg choice workers (some text) = some (p', some i)) :
    Owns p' key (workers.get i).url text := by
  rcases selectWorker_cases h hfresh hcall with ⟨rfl, hnone⟩ | ⟨pivot, tr, j, -, hl, hj, hlearned⟩
  · cases hhealthy : getHealthyWorkerIndices workers with
    | nil =>
      rw [CacheAwarePolicy.selectWorker, hhealthy] at hcall
      cases (congrArg Prod.snd (Option.some.inj hcall))
    | cons pivot rest =>
      have hempty := hnone pivot (by rw [hhealthy]; rfl) (Option.some_ne_none text)
      rw [hkey _ (get_mem workers pivot)] at hempty
      exact absurd hempty hseeded
  · cases hj
    have howns := hlearned.owns
    rwa [hkey _ (get_mem workers pivot)] at howns

/-- A text that is owned goes to a worker that owns it, if the workers that do are listed and healthy. -/
theorem selectWorker_owned (h : WellFormed p) (hl : p.trees.lookup key = some tr)
    (hkey : ∀ w ∈ workers, cfg.treeKeyForWorker w = key) (hbalanced : isImbalanced cfg workers = false)
    (hfull : cfg.isCacheHit text.length text.length = true) (hsome : getHealthyWorkerIndices workers ≠ [])
    (hhealthy : ∀ w ∈ workers, w.isHealthy = true) (howned : text ∈ tr.Owned url)
    (hlisted : ∀ u, text ∈ tr.Owned u → ∃ w ∈ workers, w.url = u)
    (hcall : p.selectWorker cfg choice workers (some text) = some (p', answer)) :
    ∃ j, answer = some j ∧ text ∈ tr.Owned (workers.get j).url ∧ Owns p' key (workers.get j).url text := by
  obtain ⟨pivot, rest, hindices⟩ := exists_cons_of_ne_nil hsome
  obtain ⟨path, hS⟩ := h.lookup hl
  obtain ⟨⟨tr', epoch, result⟩, hmatch, hr⟩ := exists_match ⟨path, hS⟩ choice text p.epoch
  obtain ⟨hmatched, hinput, hown⟩ := hS.reports_owned howned hmatch
  obtain ⟨j, hj⟩ := exists_position (hlisted _ hown)
  have hurl : (workers.get j).url = result.tenant := position_url hj
  have hpivot : cfg.treeKeyForWorker (workers.get pivot) = key := hkey _ (get_mem workers pivot)
  rw [CacheAwarePolicy.selectWorker, hindices] at hcall
  simp only [hpivot, hl, hbalanced, Bool.false_eq_true, if_false] at hcall
  rw [CacheAwarePolicy.selectWorkerByPrefix, Option.getD_some, hmatch, Option.bind_eq_bind,
    Option.bind_some] at hcall
  have hselected : (position workers result.tenant).filter (fun idx => (workers.get idx).isHealthy) = some j := by
    rw [Option.filter_eq_some_iff]
    exact ⟨hj, hhealthy _ (get_mem workers j)⟩
  simp only [hmatched, hinput, hfull, if_true, hselected] at hcall
  obtain ⟨q, hins, heq⟩ := Option.map_eq_some_iff.mp hcall
  cases heq
  exact ⟨j, rfl, hurl ▸ hown, (learned_match ⟨path, hS⟩ hmatch hins).owns⟩

end

/-! ### Runs -/

/-- A call of `select_worker`. -/
structure Request where
  choice : Choice
  workers : List Worker
  requestText : Option Str

/-- The policy after a call of `select_worker`. -/
def serve (cfg : CacheAwareConfig) (p : CacheAwarePolicy) (r : Request) : Option CacheAwarePolicy :=
  (p.selectWorker cfg r.choice r.workers r.requestText).map Prod.fst

/-- No call of these hits a worker that is gone. -/
def Fresh (cfg : CacheAwareConfig) : CacheAwarePolicy → List Request → Prop :=
  Runs.Along (serve cfg) fun p r => ¬ HitsStale cfg r.choice p r.workers r.requestText

instance (cfg : CacheAwareConfig) (p : CacheAwarePolicy) (requests : List Request) :
    Decidable (Fresh cfg p requests) :=
  inferInstanceAs (Decidable (Runs.Along _ _ p requests))

section
variable {cfg : CacheAwareConfig} {p p' : CacheAwarePolicy} {key : Str} {text : Str} {url : Url}
  {r : Request} {requests : List Request}

theorem serve_wellFormed (h : WellFormed p) (hcall : serve cfg p r = some p') : WellFormed p' := by
  obtain ⟨⟨q, answer⟩, hrun, hq⟩ := h.selectWorker cfg r.choice r.workers r.requestText
  rw [serve, hrun] at hcall
  exact Option.some.inj hcall ▸ hq

/-- Other calls take no text from a worker. -/
theorem Fresh.keeps : ∀ {requests : List Request} {p p' : CacheAwarePolicy}, WellFormed p →
    Fresh cfg p requests → Runs.exec (serve cfg) p requests = some p' → Owns p key url text →
      WellFormed p' ∧ Owns p' key url text := by
  intro requests
  induction requests with
  | nil =>
    intro p p' h _ hrun ho
    cases hrun
    exact ⟨h, ho⟩
  | cons r requests ih =>
    intro p p' h hfresh hrun ho
    obtain ⟨q, hcall, hrun⟩ := Option.bind_eq_some_iff.mp hrun
    obtain ⟨⟨q', answer⟩, hselect, rfl⟩ := Option.map_eq_some_iff.mp hcall
    exact ih (serve_wellFormed h hcall) (hfresh.2 _ hcall) hrun
      (selectWorker_keeps h hfresh.1 hselect ho)

/-- A worker that has a text is found to have it. -/
theorem Owns.found (ho : Owns p key url text) (h : WellFormed p) : ∃ tr, p.trees.lookup key = some tr ∧
    ∀ epoch, ∃ tr' epoch', tr.prefixMatchTenant text url epoch = some (tr', epoch', text) := by
  obtain ⟨tr, hl, hmem⟩ := ho
  obtain ⟨path, hS⟩ := h.lookup hl
  refine ⟨tr, hl, fun epoch => ?_⟩
  obtain ⟨tr', epoch', found, hrun, hlong, -⟩ := hS.prefixMatchTenant_owned text url epoch
  exact ⟨tr', epoch', hlong.eq_self hmem ▸ hrun⟩

/-- The tenants of the tree of a key. -/
def tenants (p : CacheAwarePolicy) (key : Str) : List Url :=
  match (p.trees.lookup key).bind fun tr => tr.nodes[Tree.root]? with
  | some root => root.tenants
  | none => []

theorem Owns.mem_tenants (ho : Owns p key url text) (h : WellFormed p) : url ∈ tenants p key := by
  obtain ⟨tr, hl, n, nd, w, -, hn, hu, -⟩ := ho
  obtain ⟨path, hS⟩ := h.lookup hl
  obtain ⟨root, hroot, hcarries⟩ := Tree.carriesAt_iff.mp (hS.root_carries hn hu)
  rw [tenants, hl, Option.bind_some, hroot]
  exact Tree.Node.carries_iff.mp hcarries

end

/-- A call for a text, then other calls, of which none removes a worker, and the call for the text again.  The
load is balanced; at the end the workers that have the text are listed, and all that are listed are well. -/
structure Again (cfg : CacheAwareConfig) where
  epoch : Epoch
  calls : List (Choice × Op)
  key : Str
  text : Str
  first : Request
  selected : Fin first.workers.length
  others : List Request
  second : Request
  /-- Before the first call, between it and the others, and after those. -/
  before : CacheAwarePolicy
  between : CacheAwarePolicy
  after : CacheAwarePolicy
  /-- `cache_threshold < 1`. -/
  full_hit : ∀ n, 0 < n → cfg.isCacheHit n n = true
  reached : Runs.exec (step cfg) (.new epoch) calls = some before
  seeded : before.trees.lookup key ≠ none
  text_ne : text ≠ []
  first_text : first.requestText = some text
  first_key : ∀ w ∈ first.workers, cfg.treeKeyForWorker w = key
  first_balanced : isImbalanced cfg first.workers = false
  answered : before.selectWorker cfg first.choice first.workers first.requestText =
    some (between, some selected)
  others_served : Runs.exec (serve cfg) between others = some after
  nothing_removed : Fresh cfg between others
  second_text : second.requestText = some text
  second_key : ∀ w ∈ second.workers, cfg.treeKeyForWorker w = key
  second_balanced : isImbalanced cfg second.workers = false
  healthy : ∀ w ∈ second.workers, w.isHealthy = true
  usable : getHealthyWorkerIndices second.workers ≠ []
  listed : ∀ url, Owns after key url text → ∃ w ∈ second.workers, w.url = url

/-- The call goes to a worker that has the whole text, before the call and after it. -/
def Found (cfg : CacheAwareConfig) (p : CacheAwarePolicy) (key text : Str) (r : Request) : Prop :=
  ∃ p' j, p.selectWorker cfg r.choice r.workers r.requestText = some (p', some j) ∧
    ∀ q, q = p ∨ q = p' → ∃ tr, q.trees.lookup key = some tr ∧
      ∀ epoch, ∃ tr' epoch', tr.prefixMatchTenant text (r.workers.get j).url epoch = some (tr', epoch', text)

/-- **The same text again** goes to a worker that has it, if the first call does not hit a worker that is
gone. -/
theorem again_found (cfg : CacheAwareConfig) (a : Again cfg)
    (hfresh : ¬ HitsStale cfg a.first.choice a.before a.first.workers a.first.requestText) :
    Found cfg a.after a.key a.text a.second := by
  obtain ⟨p, hp, h⟩ := Runs.exec_total (step_total cfg) a.calls _ (wellFormed_new a.epoch)
  cases a.reached.symm.trans hp
  have hserve : serve cfg a.before a.first = some a.between := by rw [serve, a.answered, Option.map_some]
  have hleft : Owns a.between a.key (a.first.workers.get a.selected).url a.text := by
    have hcall := a.answered
    rw [a.first_text] at hcall hfresh
    exact selectWorker_leaves h hfresh a.first_key a.seeded hcall
  obtain ⟨h', tr, hl, hmem⟩ :=
    Fresh.keeps (serve_wellFormed h hserve) a.nothing_removed a.others_served hleft
  obtain ⟨⟨p, answer⟩, hcall, hp⟩ := h'.selectWorker cfg a.second.choice a.second.workers a.second.requestText
  rw [a.second_text] at hcall
  obtain ⟨j, rfl, hbefore, hafter⟩ := selectWorker_owned h' hl a.second_key a.second_balanced
    (a.full_hit _ (length_pos_of_ne_nil a.text_ne)) a.usable a.healthy hmem
    (fun u hu => a.listed u ⟨tr, hl, hu⟩) hcall
  refine ⟨p, j, by rw [a.second_text]; exact hcall, ?_⟩
  rintro q (rfl | rfl)
  · exact Owns.found ⟨tr, hl, hbefore⟩ h'
  · exact hafter.found hp

/-- A request to three workers, of which the first may be unhealthy. -/
def ask (isHealthy : Bool) (text : String) : Request :=
  ⟨.first, [{ regular "r1" with isHealthy := isHealthy }, regular "r2", regular "r3"], some text.toList⟩

/-- Three workers, and a text for the first. -/
def oneText : List (Choice × Op) :=
  [(.first, .initWorkers (ask true "x").workers), (.first, .selectWorker (ask true "x").workers (some "x".toList))]

/-- The text comes again while the first worker is or is not healthy, and then another text. -/
def asked (isHealthy : Bool) : Option CacheAwarePolicy :=
  (Runs.exec (step halfHit) (.new 0) oneText).bind fun p =>
    Runs.exec (serve halfHit) p [ask isHealthy "x", ask true "q"]

/-- The text comes once more, when all are healthy. -/
theorem exists_again (isHealthy : Bool) : ∃ a : Again halfHit, Runs.exec (step halfHit) (.new 0) oneText =
    some a.before ∧ a.first = ask isHealthy "x" ∧ a.second = ask true "x" ∧ a.text = "x".toList ∧
      a.key = halfHit.treeKeyForWorker (regular "r1") ∧ asked isHealthy = some a.after := by
  have hcheck : ((Runs.exec (step halfHit) (.new 0) oneText).any fun p =>
      decide ((p.trees.lookup (halfHit.treeKeyForWorker (regular "r1"))).isSome = true) &&
      (p.selectWorker halfHit .first (ask isHealthy "x").workers (ask isHealthy "x").requestText).any fun r =>
        r.2.isSome && decide (Fresh halfHit r.1 [ask true "q"]) &&
        (Runs.exec (serve halfHit) r.1 [ask true "q"]).any fun q =>
          (tenants q (halfHit.treeKeyForWorker (regular "r1"))).all fun url =>
            decide (∃ w ∈ (ask true "x").workers, w.url = url)) = true := by
    cases isHealthy <;> decide +kernel
  simp only [Option.any_eq_true, Bool.and_eq_true, decide_eq_true_eq, all_eq_true] at hcheck
  obtain ⟨p, hrun, hseeded, ⟨p₁, answer⟩, hcall, ⟨hanswer, hfresh⟩, q, hothers, htenants⟩ := hcheck
  obtain ⟨i, rfl⟩ := Option.isSome_iff_exists.mp hanswer
  have hserve : serve halfHit p (ask isHealthy "x") = some p₁ := congrArg (Option.map Prod.fst) hcall
  have hq : WellFormed q := by
    obtain ⟨p', hp', h⟩ := Runs.exec_total (step_total halfHit) oneText _ (wellFormed_new 0)
    cases hrun.symm.trans hp'
    exact Runs.exec_keeps (fun h hs => serve_wellFormed h hs) (serve_wellFormed h hserve) hothers
  refine ⟨{
    epoch := 0, calls := oneText, key := _, text := "x".toList, first := ask isHealthy "x", selected := i
    others := [ask true "q"], second := ask true "x", before := p, between := p₁, after := q
    full_hit := fun n hn => decide_eq_true (by omega)
    reached := hrun
    seeded := Option.isSome_iff_ne_none.mp hseeded
    text_ne := by decide
    first_text := rfl
    first_key := by cases isHealthy <;> decide
    first_balanced := by cases isHealthy <;> decide
    answered := hcall
    others_served := hothers
    nothing_removed := hfresh
    second_text := rfl
    second_key := by decide
    second_balanced := by decide
    healthy := by decide
    usable := by decide
    listed := fun url ho => htenants url (ho.mem_tenants hq) }, hrun, rfl, rfl, rfl, rfl, ?_⟩
  rw [asked, hrun, Option.bind_some]
  change (serve halfHit p (ask isHealthy "x")).bind _ = _
  rw [hserve]
  exact hothers

/-- The first worker has been healthy all along. -/
theorem healthy_found : ∃ a : Again halfHit, a.first = ask true "x" ∧ Found halfHit a.after a.key a.text a.second := by
  obtain ⟨a, hrun, hfirst, -⟩ := exists_again true
  refine ⟨a, hfirst, again_found halfHit a ?_⟩
  have hfresh : ((Runs.exec (step halfHit) (.new 0) oneText).all fun p =>
      decide ¬ HitsStale halfHit .first p (ask true "x").workers (some "x".toList)) = true := by
    decide +kernel
  rw [hrun] at hfresh
  rw [hfirst]
  exact of_decide_eq_true hfresh

/-- It was not: the text goes back to it, and it has lost the text. -/
theorem dropped_worker_selected :
    ¬ ∀ (cfg : CacheAwareConfig) (a : Again cfg), Found cfg a.after a.key a.text a.second := by
  intro h
  obtain ⟨a, -, -, hsecond, htext, hkey, hafter⟩ := exists_again false
  have hagain := h halfHit a
  rw [hsecond, htext, hkey] at hagain
  obtain ⟨p, j, hcall, hfound⟩ := hagain
  obtain ⟨tr, hl, hmatch⟩ := hfound _ (.inl rfl)
  obtain ⟨tr', epoch', hmatch⟩ := hmatch 0
  have hfirst : ((asked false).all fun q =>
      (q.selectWorker halfHit .first (ask true "x").workers (some "x".toList)).all fun r =>
        decide (r.2 = some ⟨0, by decide⟩)) = true := by
    decide +kernel
  have hlost : ((asked false).all fun q =>
      (q.trees.lookup (halfHit.treeKeyForWorker (regular "r1"))).all fun tr =>
        (tr.prefixMatchTenant "x".toList "r1".toList 0).all fun m => decide (m.2.2 = [])) = true := by
    decide +kernel
  rw [hafter, Option.all_some] at hfirst hlost
  have hj : j = ⟨0, by decide⟩ := by
    change (a.after.selectWorker halfHit .first (ask true "x").workers (some "x".toList)) = _ at hcall
    rw [hcall, Option.all_some] at hfirst
    exact Option.some.inj (of_decide_eq_true hfirst)
  have hurl : ((ask true "x").workers.get j).url = "r1".toList := by
    rw [hj]
    rfl
  rw [hurl] at hmatch
  rw [hl, Option.all_some, hmatch, Option.all_some] at hlost
  exact absurd (of_decide_eq_true hlost : "x".toList = []) (by decide)

end QwenStack.CacheAware
