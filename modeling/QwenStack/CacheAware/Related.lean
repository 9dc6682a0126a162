import QwenStack.CacheAware.Calls

/-!
# Cache-aware routing — two policies

Two policies are given the same calls for a key at different epochs, and other calls for other keys.  Their
trees for the key stay the same up to timestamps and, as long as the epochs are the same to them, in step
(`Related`).  What an epoch is to a tree: the first one, zero, is also the timestamp of a node that no call
has ended at, and a match refreshes at every eighth.
-/

namespace QwenStack.CacheAware
open Assoc
open Registry (Url ModelId WorkerType)
open QwenStack.Tree (Epoch Alike Paced Ticks Refreshes)
open CacheAwarePolicy

/-! ### The trees of a key -/

/-- The counter is `n` epochs from its end. -/
def Clock (n : Nat) (epoch : Epoch) : Prop := epoch.toNat + n < 2 ^ 64

theorem Clock.lt_succ {n : Nat} {epoch : Epoch} (h : Clock (n + 1) epoch) : epoch < epoch + 1 := by
  rw [Clock] at h
  refine UInt64.lt_iff_toNat_lt.mpr ?_
  rw [toNat_succ (by omega)]
  exact Nat.lt_succ_self _

theorem Clock.advance {m k : Nat} {epoch epoch' : Epoch} (h : Clock (m + k) epoch)
    (ha : Advances k epoch epoch') : Clock m epoch' ∧ epoch ≤ epoch' := by
  rw [Clock] at h
  obtain ⟨hle, hge⟩ := ha (by omega)
  exact ⟨by rw [Clock]; omega, UInt64.le_iff_toNat_le.mpr hle⟩

theorem Clock.mono {m n : Nat} {epoch : Epoch} (h : Clock n epoch) (hmn : m ≤ n) : Clock m epoch :=
  Nat.lt_of_le_of_lt (Nat.add_le_add_left hmn _) h

theorem Clock.ticks {m n : Nat} {epoch epoch' : Epoch} (h : Clock (m + 1) epoch) (h' : Clock (n + 1) epoch')
    (hstart : epoch = 0 ↔ epoch' = 0) : Ticks epoch epoch' :=
  ⟨hstart, h.lt_succ, h'.lt_succ⟩

theorem Clock.pos_succ {n : Nat} {epoch : Epoch} (h : Clock (n + 1) epoch) : 0 < epoch + 1 :=
  UInt64.lt_of_le_of_lt UInt64.zero_le h.lt_succ

/-- Two trees are the same up to timestamps and, as far as it is kept, in step. -/
def Kin (paced : Prop) (epoch epoch' : Epoch) (tr tr' : Tree) : Prop :=
  Alike tr tr' ∧ (paced → Paced epoch epoch' tr tr')

/-- The trees of a key in two policies, which may yet draw `m` and `n` epochs.  Each has drawn one for its
tree. -/
structure Related (b : Str) (paced : Prop) (m n : Nat) (p q : CacheAwarePolicy) : Prop where
  trees : Option.Rel (Kin paced p.epoch q.epoch) (p.trees.lookup b) (q.trees.lookup b)
  left : paced → Clock m p.epoch
  right : paced → Clock n q.epoch
  begun : paced → (p.trees.lookup b).isSome = true → 0 < p.epoch ∧ 0 < q.epoch

theorem rel_mono {α β : Type*} {r r' : α → β → Prop} (hr : ∀ a b, r a b → r' a b) {x : Option α}
    {y : Option β} (h : Option.Rel r x y) : Option.Rel r' x y := by
  cases h with
  | none => exact .none
  | some hab => exact .some (hr _ _ hab)

/-- Both have one, or none. -/
theorem rel_cases {α β : Type*} {r : α → β → Prop} {x : Option α} {y : Option β}
    (h : Option.Rel r x y) : x = none ∧ y = none ∨ ∃ a b, x = some a ∧ y = some b ∧ r a b := by
  cases h with
  | none => exact .inl ⟨rfl, rfl⟩
  | some hab => exact .inr ⟨_, _, rfl, rfl, hab⟩

section
variable {b : Str} {paced : Prop} {m n k : Nat} {p q p' q' : CacheAwarePolicy} {tr tr' t t' : Tree}
  {choice : Choice} {cfg : CacheAwareConfig}

/-- What is seeded has a tree, and an epoch. -/
theorem seed_eq_store {key : Str} {w : Worker} (h : p.seed key w = some p') :
    ∃ t, p' = p.store key t (p.epoch + 1) := by
  rw [CacheAwarePolicy.seed, CacheAwarePolicy.insertIn] at h
  obtain ⟨⟨t, e⟩, hins, rfl⟩ := Option.map_eq_some_iff.mp h
  obtain rfl := Tree.insert_epoch hins
  exact ⟨t, rfl⟩

/-- Counters that are both past their start. -/
theorem both_started {e e' : Epoch} (h : 0 < e ∧ 0 < e') : e = 0 ↔ e' = 0 :=
  iff_of_false (UInt64.pos_iff_ne_zero.mp h.1) (UInt64.pos_iff_ne_zero.mp h.2)

theorem Kin.later {e e' later later' : Epoch} (h : Kin paced e e' tr tr') (hle : paced → e ≤ later)
    (hle' : paced → e' ≤ later') : Kin paced later later' tr tr' :=
  ⟨h.1, fun hp => (h.2 hp).later (hle hp) (hle' hp)⟩

/-- The workers of a key. -/
def ofKey (cfg : CacheAwareConfig) (b : Str) (l : List Worker) : List Worker :=
  l.filter fun w => decide (cfg.treeKeyForWorker w = b)

theorem ofKey_cons (w : Worker) (l : List Worker) :
    ofKey cfg b (w :: l) = if cfg.treeKeyForWorker w = b then w :: ofKey cfg b l else ofKey cfg b l := by
  rw [ofKey, List.filter_cons]
  simp only [decide_eq_true_eq]
  rfl

/-- The first worker is one of the key, and gets the first epoch of all. -/
def StampsZero (cfg : CacheAwareConfig) (b : Str) (epoch : Epoch) (l : List Worker) : Prop :=
  epoch = 0 ∧ ∃ w ∈ l.head?, cfg.treeKeyForWorker w = b

instance (cfg : CacheAwareConfig) (b : Str) (epoch : Epoch) (l : List Worker) :
    Decidable (StampsZero cfg b epoch l) :=
  inferInstanceAs (Decidable (_ ∧ ∃ _ ∈ _, _))

theorem not_stampsZero {epoch : Epoch} (h : 0 < epoch) (l : List Worker) : ¬StampsZero cfg b epoch l :=
  fun hz => UInt64.lt_irrefl _ (hz.1 ▸ h)

namespace Related

theorem weaken {paced' : Prop} {m' n' : Nat} (h : Related b paced m n p q) (hp : paced' → paced)
    (hm : m' ≤ m) (hn : n' ≤ n) : Related b paced' m' n' p q := by
  refine ⟨?_, fun hp' => (h.left (hp hp')).mono hm, fun hp' => (h.right (hp hp')).mono hn,
    fun hp' => h.begun (hp hp')⟩
  exact rel_mono (fun _ _ hkin => ⟨hkin.1, fun hp' => hkin.2 (hp hp')⟩) h.trees

/-- A call for another key, in the first run. -/
theorem foreign_left (h : Related b paced (m + k) n p q) (hf : Foreign b k p p') :
    Related b paced m n p' q := by
  have hclock (hp : paced) := (h.left hp).advance hf.epochs
  refine ⟨?_, fun hp => (hclock hp).1, h.right, fun hp hsome => ?_⟩
  · rw [hf.tree]
    exact rel_mono (fun _ _ hkin => hkin.later (fun hp => (hclock hp).2) fun _ => UInt64.le_refl _) h.trees
  · obtain ⟨hpos, hpos'⟩ := h.begun hp (hf.tree ▸ hsome)
    exact ⟨UInt64.lt_of_lt_of_le hpos (hclock hp).2, hpos'⟩

/-- And in the second. -/
theorem foreign_right (h : Related b paced m (n + k) p q) (hf : Foreign b k q q') :
    Related b paced m n p q' := by
  have hclock (hp : paced) := (h.right hp).advance hf.epochs
  refine ⟨?_, h.left, fun hp => (hclock hp).1, fun hp hsome => ?_⟩
  · rw [hf.tree]
    exact rel_mono (fun _ _ hkin => hkin.later (fun _ => UInt64.le_refl _) fun hp => (hclock hp).2) h.trees
  · obtain ⟨hpos, hpos'⟩ := h.begun hp hsome
    exact ⟨hpos, UInt64.lt_of_lt_of_le hpos' (hclock hp).2⟩

/-- A call for the key leaves two trees. -/
theorem store {e e' : Epoch} (hkin : Kin paced e e' t t') (hleft : paced → Clock m e)
    (hright : paced → Clock n e') (hpos : paced → 0 < e ∧ 0 < e') :
    Related b paced m n (p.store b t e) (q.store b t' e') := by
  refine ⟨?_, hleft, hright, fun hp _ => hpos hp⟩
  change Option.Rel (Kin paced e e') ((put b t p.trees).lookup b) ((put b t' q.trees).lookup b)
  rw [lookup_put, lookup_put, if_pos rfl, if_pos rfl]
  exact .some hkin

theorem insertIn {text : Str} {url : Url} (hkin : Kin paced p.epoch q.epoch tr tr')
    (hleft : paced → Clock (m + 1) p.epoch) (hright : paced → Clock (n + 1) q.epoch)
    (hstart : paced → (p.epoch = 0 ↔ q.epoch = 0))
    (h : p.insertIn b tr text url = some p') (h' : q.insertIn b tr' text url = some q') :
    Related b paced m n p' q' := by
  obtain ⟨⟨t, e⟩, hrun, rfl⟩ := Option.map_eq_some_iff.mp h
  obtain ⟨⟨t', e'⟩, hrun', rfl⟩ := Option.map_eq_some_iff.mp h'
  obtain rfl := Tree.insert_epoch hrun
  obtain rfl := Tree.insert_epoch hrun'
  refine store ⟨hkin.1.insert hrun hrun', fun hp => ?_⟩ (fun hp => ?_) (fun hp => ?_) fun hp => ?_
  · exact (hkin.2 hp).insert ((hleft hp).ticks (hright hp) (hstart hp)) hrun hrun'
  · exact ((hleft hp).advance (.one _)).1
  · exact ((hright hp).advance (.one _)).1
  · exact ⟨(hleft hp).pos_succ, (hright hp).pos_succ⟩

theorem removeIn {url : Url} (hkin : Kin paced p.epoch q.epoch tr tr')
    (hleft : paced → Clock m p.epoch) (hright : paced → Clock n q.epoch)
    (hpos : paced → 0 < p.epoch ∧ 0 < q.epoch)
    (h : p.removeIn choice b tr url = some p') (h' : q.removeIn choice b tr' url = some q') :
    Related b paced m n p' q' := by
  obtain ⟨t, hrun, rfl⟩ := Option.map_eq_some_iff.mp h
  obtain ⟨t', hrun', rfl⟩ := Option.map_eq_some_iff.mp h'
  exact store ⟨hkin.1.removeTenant hrun hrun', fun hp => (hkin.2 hp).removeTenant hrun hrun'⟩ hleft hright
    hpos

/-! ### Seeding and removal -/

theorem seed {w : Worker} (h : Related b paced (m + 1) (n + 1) p q)
    (hstart : paced → (p.epoch = 0 ↔ q.epoch = 0)) (hp : p.seed b w = some p')
    (hq : q.seed b w = some q') : Related b paced m n p' q' := by
  have hkin : Kin paced p.epoch q.epoch ((p.trees.lookup b).getD Tree.new)
      ((q.trees.lookup b).getD Tree.new) := by
    obtain ⟨hl, hl'⟩ | ⟨tr, tr', hl, hl', hkin⟩ := rel_cases h.trees
    · rw [hl, hl']
      exact ⟨rfl, fun _ => Tree.paced_new _ _⟩
    · rw [hl, hl']
      exact hkin
  exact insertIn hkin h.left h.right hstart hp hq

theorem removeWorker {w : Worker} (hkey : cfg.treeKeyForWorker w = b) (h : Related b paced m n p q)
    (hp : p.removeWorker cfg choice w = some p') (hq : q.removeWorker cfg choice w = some q') :
    Related b paced m n p' q' := by
  rw [CacheAwarePolicy.removeWorker, hkey] at hp hq
  obtain ⟨hl, hl'⟩ | ⟨tr, tr', hl, hl', hkin⟩ := rel_cases h.trees
  · rw [hl] at hp
    rw [hl'] at hq
    cases hp
    cases hq
    exact h
  · rw [hl] at hp
    rw [hl'] at hq
    exact removeIn hkin h.left h.right (fun hp => h.begun hp (hl ▸ rfl)) hp hq

/-- Workers of other keys are added, in the second run. -/
theorem addOthers : ∀ (l' : List Worker) (q q' : CacheAwarePolicy),
    (∀ w ∈ l', cfg.treeKeyForWorker w ≠ b) → Related b paced m (n + l'.length) p q →
      l'.foldlM (fun q w => q.addWorker cfg w) q = some q' → Related b paced m n p q' := by
  intro l'
  induction l' with
  | nil =>
    intro q q' _ h hq
    cases hq
    exact h
  | cons w l' ih =>
    intro q q' hl h hq
    rw [List.foldlM_cons] at hq
    obtain ⟨q₁, hstep, hq⟩ := Option.bind_eq_some_iff.mp hq
    have h : Related b paced m (n + l'.length + 1) p q := h
    have hadded := h.foreign_right (.seed (hl w List.mem_cons_self) hstep)
    exact ih q₁ q' (fun w' hw' => hl w' (List.mem_cons_of_mem _ hw')) hadded hq

/-- The first worker of a key, in the second run, with what is added before it. -/
theorem addUpTo {w : Worker} {rest : List Worker} : ∀ (l' : List Worker) (q q' : CacheAwarePolicy),
    w :: rest = ofKey cfg b l' → Related b paced m (n + l'.length) p q →
      l'.foldlM (fun q w => q.addWorker cfg w) q = some q' →
      ∃ l₁ q₁ q₂, rest = ofKey cfg b l₁ ∧ Related b paced m (n + l₁.length + 1) p q₁ ∧
        (paced → (q₁.epoch = 0 ↔ StampsZero cfg b q.epoch l')) ∧
        q₁.addWorker cfg w = some q₂ ∧ l₁.foldlM (fun q w => q.addWorker cfg w) q₂ = some q' := by
  intro l'
  induction l' with
  | nil =>
    intro q q' hl
    cases hl
  | cons w' l' ih =>
    intro q q' hl h hq
    rw [List.foldlM_cons] at hq
    obtain ⟨q₁, hstep, hq⟩ := Option.bind_eq_some_iff.mp hq
    have h : Related b paced m (n + l'.length + 1) p q := h
    rw [ofKey_cons] at hl
    split at hl
    · next hw' =>
      obtain ⟨hhead, hrest⟩ := List.cons.inj hl
      refine ⟨l', q, q₁, hrest, h, fun _ => ?_, hhead ▸ hstep, hq⟩
      exact ⟨fun he => ⟨he, w', rfl, hw'⟩, fun hz => hz.1⟩
    · next hw' =>
      have hseed : Foreign b 1 q q₁ := .seed hw' hstep
      obtain ⟨l₁, q₂, q₃, hrest, h₂, hstart, hadd, hrun⟩ := ih q₁ q' hl (h.foreign_right hseed) hq
      refine ⟨l₁, q₂, q₃, hrest, h₂, fun hp => ?_, hadd, hrun⟩
      have hpos : 0 < q₁.epoch := by
        obtain ⟨t, rfl⟩ := seed_eq_store hstep
        exact (h.right hp).pos_succ
      rw [hstart hp]
      refine ⟨fun hz => absurd hz (not_stampsZero hpos l'), fun hz => ?_⟩
      obtain ⟨-, w'', hw'', hkey⟩ := hz
      cases hw''
      exact absurd hkey hw'

/-- Two lists of workers that are added, of which those of the key are the same. -/
theorem addWorkers : ∀ (l l' : List Worker) (p q p' q' : CacheAwarePolicy),
    ofKey cfg b l = ofKey cfg b l' → Related b paced (m + l.length) (n + l'.length) p q →
    (paced → (StampsZero cfg b p.epoch l ↔ StampsZero cfg b q.epoch l')) →
    l.foldlM (fun p w => p.addWorker cfg w) p = some p' →
    l'.foldlM (fun q w => q.addWorker cfg w) q = some q' → Related b paced m n p' q' := by
  intro l
  induction l with
  | nil =>
    intro l' p q p' q' hl h _ hp hq
    cases hp
    refine addOthers l' q q' (fun w hw he => ?_) h hq
    exact absurd (decide_eq_true he) (List.filter_eq_nil_iff.mp hl.symm w hw)
  | cons w l ih =>
    intro l' p q p' q' hl h hzero hp hq
    rw [List.foldlM_cons] at hp
    obtain ⟨p₁, hstep, hp⟩ := Option.bind_eq_some_iff.mp hp
    have hpos (hpaced : paced) : 0 < p₁.epoch := by
      obtain ⟨t, rfl⟩ := seed_eq_store hstep
      exact Clock.pos_succ (h.left hpaced)
    rw [ofKey_cons] at hl
    split at hl
    · next hw =>
      obtain ⟨l₁, q₁, q₂, hl₁, h₁, hstart, hstep', hrun⟩ := addUpTo l' q q' hl h hq
      have h₁ : Related b paced (m + l.length + 1) (n + l₁.length + 1) p q₁ := h₁
      have hboth (hpaced : paced) : p.epoch = 0 ↔ q₁.epoch = 0 := by
        rw [hstart hpaced, ← hzero hpaced]
        exact ⟨fun he => ⟨he, w, rfl, hw⟩, fun hz => hz.1⟩
      rw [addWorker, hw] at hstep hstep'
      have hseeded := h₁.seed hboth hstep hstep'
      refine ih l₁ p₁ q₂ p' q' hl₁ hseeded (fun hpaced => ?_) hp hrun
      have hsome : (p₁.trees.lookup b).isSome = true := by
        obtain ⟨t, rfl⟩ := seed_eq_store hstep
        change ((put b t p.trees).lookup b).isSome = true
        rw [lookup_put, if_pos rfl, Option.isSome_some]
      obtain ⟨hleft, hright⟩ := hseeded.begun hpaced hsome
      exact iff_of_false (not_stampsZero hleft l) (not_stampsZero hright l₁)
    · next hw =>
      have h : Related b paced (m + l.length + 1) (n + l'.length) p q := h
      refine ih l' p₁ q p' q' hl (h.foreign_left (.seed hw hstep)) (fun hpaced => ?_) hp hq
      rw [← hzero hpaced]
      refine iff_of_false (not_stampsZero (hpos hpaced) l) fun hz => ?_
      obtain ⟨-, w', hw', hkey⟩ := hz
      cases hw'
      exact absurd hkey hw

/-! ### Selection -/

theorem selectWorkerMinLoad {workers : List Worker} {requestText : Option Str}
    {healthyIndices : List (Fin workers.length)} {i i' : Option (Fin workers.length)}
    (h : Related b paced (m + 1) (n + 1) p q)
    (hp : p.selectWorkerMinLoad choice workers requestText healthyIndices b = some (p', i))
    (hq : q.selectWorkerMinLoad choice workers requestText healthyIndices b = some (q', i')) :
    Related b paced m n p' q' := by
  have hsame : Related b paced m n p q := h.weaken id (Nat.le_succ m) (Nat.le_succ n)
  rw [CacheAwarePolicy.selectWorkerMinLoad] at hp hq
  cases hmin : minLoadIndex choice.rng workers healthyIndices with
  | none =>
    rw [hmin] at hp hq
    cases hp
    cases hq
    exact hsame
  | some idx =>
    rw [hmin] at hp hq
    cases requestText with
    | none =>
      cases hp
      cases hq
      exact hsame
    | some text =>
      obtain ⟨hl, hl'⟩ | ⟨tr, tr', hl, hl', hkin⟩ := rel_cases h.trees
      · rw [hl] at hp
        rw [hl'] at hq
        cases hp
        cases hq
        exact hsame
      · rw [hl] at hp
        rw [hl'] at hq
        obtain ⟨p₁, hrun, hp⟩ := Option.map_eq_some_iff.mp hp
        obtain ⟨q₁, hrun', hq⟩ := Option.map_eq_some_iff.mp hq
        cases hp
        cases hq
        have hpos (hpaced : paced) := h.begun hpaced (hl ▸ rfl)
        exact insertIn hkin h.left h.right (fun hpaced => both_started (hpos hpaced)) hrun hrun'

/-- **A match** that refreshes both trees, or none, or a tenant that is there. -/
theorem selectWorkerByPrefix {workers : List Worker} {text : Str}
    {healthyIndices : List (Fin workers.length)} {i i' : Option (Fin workers.length)}
    (hw : tr.WellFormed) (hkin : Kin paced p.epoch q.epoch tr tr')
    (hleft : paced → Clock (m + 1 + 1) p.epoch) (hright : paced → Clock (n + 1 + 1) q.epoch)
    (hpos : paced → 0 < p.epoch ∧ 0 < q.epoch)
    (hrefresh : (Refreshes p.epoch ↔ Refreshes q.epoch) ∨ ¬paced ∧ tr.rooted = true)
    (hp : p.selectWorkerByPrefix cfg choice workers text healthyIndices b tr = some (p', i))
    (hq : q.selectWorkerByPrefix cfg choice workers text healthyIndices b tr' = some (q', i')) :
    Related b paced m n p' q' := by
  rw [CacheAwarePolicy.selectWorkerByPrefix, Tree.prefixMatchWithCounts_eq] at hp hq
  obtain ⟨⟨t, e, r⟩, hmatch, hp⟩ := Option.bind_eq_some_iff.mp hp
  obtain ⟨⟨t', e', r'⟩, hmatch', hq⟩ := Option.bind_eq_some_iff.mp hq
  obtain ⟨⟨u, node, res⟩, hset, hres⟩ := Option.map_eq_some_iff.mp hmatch
  obtain ⟨⟨u', node', res'⟩, hset', hres'⟩ := Option.map_eq_some_iff.mp hmatch'
  obtain ⟨halike, rfl, rfl⟩ := hkin.1.settle hset hset'
  obtain ⟨ht, hres⟩ := Prod.mk.inj hres
  cases hres
  obtain ⟨ht', hres'⟩ := Prod.mk.inj hres'
  cases hres'
  dsimp only at hp hq ht ht'
  have hmatched : Kin paced (p.epoch + 1) (q.epoch + 1) t t' := by
    rw [← ht, ← ht']
    constructor
    · exact halike.refresh (hrefresh.imp_right fun hroot => hw.carriesAt_settle hroot.2 hset)
    · intro hpaced
      have hboth := hrefresh.resolve_right fun hroot => hroot.1 hpaced
      exact (hkin.2 hpaced).prefixMatch
        ((hleft hpaced).ticks (hright hpaced) (both_started (hpos hpaced))) hboth hset hset'
  have hleft' (hpaced : paced) : Clock (m + 1) (p.epoch + 1) := ((hleft hpaced).advance (.one _)).1
  have hright' (hpaced : paced) : Clock (n + 1) (q.epoch + 1) := ((hright hpaced).advance (.one _)).1
  have hpos' (hpaced : paced) : 0 < p.epoch + 1 ∧ 0 < q.epoch + 1 :=
    ⟨(hleft hpaced).pos_succ, (hright hpaced).pos_succ⟩
  generalize (if cfg.isCacheHit res.matchedCharCount res.inputCharCount = true then
      (position workers res.tenant).filter fun idx => (workers.get idx).isHealthy
    else minLoadIndex choice.rng workers healthyIndices) = selectedIdx at hp hq
  cases selectedIdx with
  | some idx =>
    obtain ⟨p₁, hrun, hp⟩ := Option.map_eq_some_iff.mp hp
    obtain ⟨q₁, hrun', hq⟩ := Option.map_eq_some_iff.mp hq
    cases hp
    cases hq
    exact insertIn (p := p.store b t (p.epoch + 1)) (q := q.store b t' (q.epoch + 1)) hmatched hleft' hright'
      (fun hpaced => both_started (hpos' hpaced)) hrun hrun'
  | none =>
    dsimp only at hp hq
    split at hp
    · next hhit =>
      rw [if_pos hhit] at hq
      obtain ⟨p₁, hrun, hp⟩ := Option.map_eq_some_iff.mp hp
      obtain ⟨q₁, hrun', hq⟩ := Option.map_eq_some_iff.mp hq
      obtain ⟨rfl, rfl⟩ := Prod.mk.inj hp
      obtain ⟨rfl, rfl⟩ := Prod.mk.inj hq
      have hremoved : Related b paced (m + 1) (n + 1) p₁ q₁ :=
        removeIn (p := p.store b t (p.epoch + 1)) (q := q.store b t' (q.epoch + 1)) hmatched hleft' hright'
          hpos' hrun hrun'
      exact hremoved.weaken id (Nat.le_succ m) (Nat.le_succ n)
    · next hhit =>
      rw [if_neg hhit] at hq
      cases hp
      cases hq
      have hstored : Related b paced (m + 1) (n + 1) (p.store b t (p.epoch + 1))
          (q.store b t' (q.epoch + 1)) := store hmatched hleft' hright' hpos'
      exact hstored.weaken id (Nat.le_succ m) (Nat.le_succ n)

end Related

/-- A request that is matched in the tree of a key. -/
def matchesIn (cfg : CacheAwareConfig) (b : Str) (p : CacheAwarePolicy) (workers : List Worker) : Bool :=
  match getHealthyWorkerIndices workers with
  | [] => false
  | pivot :: _ => !isImbalanced cfg workers && decide (cfg.treeKeyForWorker (workers.get pivot) = b) &&
      (p.trees.lookup b).isSome

namespace Related

theorem selectWorker {workers : List Worker} {requestText : Option Str}
    {i i' : Option (Fin workers.length)} (hkey : ∀ w ∈ workers, cfg.treeKeyForWorker w = b)
    (hw : WellFormed p) (h : Related b paced (m + 2) (n + 2) p q)
    (hrefresh : matchesIn cfg b p workers = true →
      (Refreshes p.epoch ↔ Refreshes q.epoch) ∨ ¬paced ∧ (p.trees.lookup b).any Tree.rooted = true)
    (hp : p.selectWorker cfg choice workers requestText = some (p', i))
    (hq : q.selectWorker cfg choice workers requestText = some (q', i')) :
    Related b paced m n p' q' := by
  have hsame : Related b paced m n p q := h.weaken id (Nat.le_add_right m 2) (Nat.le_add_right n 2)
  rw [CacheAwarePolicy.selectWorker] at hp hq
  rw [matchesIn] at hrefresh
  cases hhealthy : getHealthyWorkerIndices workers with
  | nil =>
    rw [hhealthy] at hp hq
    cases hp
    cases hq
    exact hsame
  | cons pivot rest =>
    rw [hhealthy] at hp hq hrefresh
    have hpivot := hkey _ (workers.get_mem pivot)
    dsimp only at hp hq hrefresh
    rw [hpivot] at hp hq hrefresh
    split at hp
    · next himb =>
      rw [if_pos himb] at hq
      exact (h.weaken id (Nat.le_succ _) (Nat.le_succ _)).selectWorkerMinLoad hp hq
    · next himb =>
      rw [if_neg himb] at hq
      obtain ⟨hl, hl'⟩ | ⟨tr, tr', hl, hl', hkin⟩ := rel_cases h.trees
      · rw [hl] at hp
        rw [hl'] at hq
        cases hp
        cases hq
        exact hsame
      · have hpos (hpaced : paced) := h.begun hpaced (hl ▸ rfl)
        rw [hl, Option.any_some] at hrefresh
        rw [hl] at hp
        rw [hl'] at hq
        refine selectWorkerByPrefix (hw.lookup hl) hkin h.left h.right hpos (hrefresh ?_) hp hq
        simp only [Bool.not_eq_true] at himb
        simp only [himb, decide_true, Option.isSome_some, Bool.not_false, Bool.and_self]

end Related

/-! ### Eviction -/

theorem lookup_evicted {maxSize : Nat} : ∀ {l l' : List (Str × Tree)}, l.mapM (fun e =>
      (e.2.evictTenantBySize (choice.eviction e.1).toIterOrder maxSize).map fun tr => (e.1, tr)) = some l' →
    Option.Rel (fun tr tr' => tr.evictTenantBySize (choice.eviction b).toIterOrder maxSize = some tr')
      (l.lookup b) (l'.lookup b) := by
  intro l
  induction l with
  | nil =>
    intro l' h
    cases h
    exact .none
  | cons e l ih =>
    intro l' h
    rw [List.mapM_cons] at h
    obtain ⟨e', he, h⟩ := Option.bind_eq_some_iff.mp h
    obtain ⟨l₁, hl₁, h⟩ := Option.bind_eq_some_iff.mp h
    obtain ⟨tr', hrun, rfl⟩ := Option.map_eq_some_iff.mp he
    cases h
    obtain ⟨key, tr⟩ := e
    rw [lookup_cons_eq, lookup_cons_eq]
    by_cases hb : b = key
    · subst hb
      rw [if_pos rfl, if_pos rfl]
      exact .some hrun
    · rw [if_neg hb, if_neg hb]
      exact ih hl₁

theorem Related.evictCache {maxSize : Nat} (hpaced : paced) (h : Related b paced m n p q)
    (hp : p.evictCache choice maxSize = some p') (hq : q.evictCache choice maxSize = some q') :
    Related b paced m n p' q' := by
  obtain ⟨l, hl, hp⟩ := Option.bind_eq_some_iff.mp hp
  obtain ⟨l', hl', hq⟩ := Option.bind_eq_some_iff.mp hq
  cases hp
  cases hq
  have hleft := lookup_evicted (b := b) hl
  have hright := lookup_evicted (b := b) hl'
  obtain ⟨hp, hq⟩ | ⟨tr, tr', hp, hq, hkin⟩ := rel_cases h.trees
  · rw [hp] at hleft
    rw [hq] at hright
    obtain ⟨-, hnone⟩ | ⟨_, _, hsome, -⟩ := rel_cases hleft
    · obtain ⟨-, hnone'⟩ | ⟨_, _, hsome, -⟩ := rel_cases hright
      · refine ⟨?_, h.left, h.right, fun _ hsome => ?_⟩
        · dsimp only
          rw [hnone, hnone']
          exact .none
        · dsimp only at hsome
          rw [hnone] at hsome
          cases hsome
      · cases hsome
    · cases hsome
  · rw [hp] at hleft
    rw [hq] at hright
    obtain ⟨hnone, -⟩ | ⟨_, t, hsome, ht, hrun⟩ := rel_cases hleft
    · cases hnone
    · obtain ⟨hnone, -⟩ | ⟨_, t', hsome', ht', hrun'⟩ := rel_cases hright
      · cases hnone
      · cases hsome
        cases hsome'
        have hevicted := (hkin.2 hpaced).evictTenantBySize hrun hrun'
        refine ⟨?_, h.left, h.right, fun hpaced _ => h.begun hpaced (hp ▸ rfl)⟩
        rw [ht, ht']
        exact .some ⟨hevicted.alike, fun _ => hevicted⟩

end

end QwenStack.CacheAware
