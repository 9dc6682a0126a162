import QwenStack.Tree.Accounting

/-!
# Tree — what `remove_tenant` leaves, and the counts of every reachable tree

`remove_tenant` takes its tenant from every node, from the leaves up, and unlinks the nodes that are
left empty.  To every other tenant nothing happens: it is carried where it was, under the same
paths, so its set of prefixes is the same, and so is what a match for it returns.

`Exact` fails once a match has invented a tenant at the root.  What is left of it holds in every
reachable tree: a tenant's count, nought when there is none, is the number of characters of the
nodes that carry it.  The root has no text, so a tenant invented there counts nothing.
-/

namespace QwenStack.Tree
open Assoc

/-- What `prefix_match_tenant` returns. -/
def matchTenant (tr : Tree) (text : Str) (t : TenantId) (epoch : Epoch) : Option Str :=
  (tr.prefixMatchTenant text t epoch).map fun r => r.2.2

/-- The tenants but `t` are carried, and counted, as they were. -/
structure OthersKept (t : TenantId) (tr tr' : Tree) : Prop where
  carries : ∀ u n, u ≠ t → tr'.carriesAt u n = tr.carriesAt u n
  counts : ∀ u, u ≠ t → tr'.tenantCharCount.lookup u = tr.tenantCharCount.lookup u

section
variable {tr tr' : Tree} {path : NodeId → Str} {n : NodeId} {t u : TenantId} {s r : Str}

/-- There is one longest prefix. -/
theorem LongestIn.unique {P : Set Str} {r' : Str} (h : LongestIn P s r) (h' : LongestIn P s r') :
    r = r' := by
  obtain ⟨hpre, hin, hmax⟩ := h
  obtain ⟨hpre', hin', hmax'⟩ := h'
  rcases hin with hr | ⟨he, rfl⟩
  · rcases hin' with hr' | ⟨he', -⟩
    · exact (hmax' r hr hpre).eq_of_length_le (hmax r' hr' hpre').length_le
    · rw [he'] at hr
      cases hr
  · rcases hin' with hr' | ⟨-, rfl⟩
    · rw [he] at hr'
      cases hr'
    · rfl

/-- The longest prefix of the text in the tenant's set, at every epoch. -/
theorem Shape.matchTenant_eq (hS : Shape tr path) (text : Str) (u : TenantId) (epoch : Epoch) :
    ∃ r, tr.matchTenant text u epoch = some r ∧ LongestIn (tr.Owned u) text r := by
  obtain ⟨tr', e', r, hrun, hlong, -⟩ := hS.prefixMatchTenant_owned text u epoch
  exact ⟨r, by rw [matchTenant, hrun]; rfl, hlong⟩

/-- Trees in which a tenant owns the same are the same to its matches. -/
theorem Shape.matchTenant_congr {path' : NodeId → Str} (hS : Shape tr path) (hS' : Shape tr' path')
    (h : tr'.Owned u = tr.Owned u) (text : Str) (epoch epoch' : Epoch) :
    tr'.matchTenant text u epoch' = tr.matchTenant text u epoch := by
  obtain ⟨r, hr, hlong⟩ := hS.matchTenant_eq text u epoch
  obtain ⟨r', hr', hlong'⟩ := hS'.matchTenant_eq text u epoch'
  rw [h] at hlong'
  rw [hr, hr', hlong.unique hlong']

/-- **One removal** leaves the other tenants alone. -/
theorem OthersKept.detach {tr₀ : Tree} (hS : Shape tr path) (hl : LeafFor tr t n)
    (h : OthersKept t tr₀ tr) : OthersKept t tr₀ (tr.detachTenant t n).1 := by
  obtain ⟨nd, hn, ht, hleaf⟩ := hl
  have hD := (hS.detached hn ht hleaf).1
  constructor
  · intro u x hu
    rw [hD.carries]
    simp [hu, h.carries u x hu]
  · intro u hu
    rw [hD.counts]
    exact h.counts u hu

/-- **`remove_tenant`** takes its tenant from every node and from the counts, and leaves the other
tenants alone. -/
theorem Shape.removeTenant_kept (hS : Shape tr path) (ord : IterOrder) (t : TenantId) :
    ∃ tr', tr.removeTenant ord t = some tr' ∧ Shape tr' path ∧ OthersKept t tr tr' ∧
      (∀ n, tr'.carriesAt t n = false) ∧ tr'.tenantCharCount.lookup t = none := by
  have start : OthersKept t tr tr := ⟨fun _ _ _ => rfl, fun _ _ => rfl⟩
  obtain ⟨tr', hrun, hS', hkept, hno⟩ := removeTenant_spec ord hS (I := OthersKept t tr)
    (fun hS hl h => h.detach hS hl) start
  refine ⟨_, hrun, hS'.of_nodes rfl, ⟨hkept.carries, fun u hu => ?_⟩, hno, ?_⟩
  · rw [lookup_del, if_neg hu]
    exact hkept.counts u hu
  · rw [lookup_del, if_pos rfl]

/-- **A removed tenant is gone, and the others are as they were**: after any run, for every tenant,
and whatever the order in which the maps are walked. -/
theorem run_removes (ops : List (IterOrder × Op)) (epoch₀ : Epoch) :
    ∃ tr epoch, run ops (new, epoch₀) = some (tr, epoch) ∧ ∀ ord t,
      ∃ tr', tr.removeTenant ord t = some tr' ∧ (∀ n, tr'.carriesAt t n = false) ∧
        tr'.tenantCharCount.lookup t = none ∧
        ∀ u, u ≠ t → tr'.Owned u = tr.Owned u ∧
          tr'.tenantCharCount.lookup u = tr.tenantCharCount.lookup u ∧
          ∀ s e e', (∃ r, tr.matchTenant s u e = some r) ∧
            tr'.matchTenant s u e' = tr.matchTenant s u e := by
  obtain ⟨⟨tr, epoch⟩, hrun, path, hS⟩ := run_total ops epoch₀
  refine ⟨tr, epoch, hrun, fun ord t => ?_⟩
  obtain ⟨tr', hremove, hS', hkept, hno, hcount⟩ := hS.removeTenant_kept ord t
  refine ⟨tr', hremove, hno, hcount, fun u hu => ?_⟩
  have howned : tr'.Owned u = tr.Owned u := hS.owned_congr hS' fun n => hkept.carries u n hu
  refine ⟨howned, hkept.counts u hu, fun s e e' => ⟨?_, hS.matchTenant_congr hS' howned s e e'⟩⟩
  obtain ⟨r, hr, -⟩ := hS.matchTenant_eq s u e
  exact ⟨r, hr⟩

end

/-! ### Counts -/

/-- Every tenant's count is what its nodes hold. -/
def Counted (tr : Tree) : Prop := ∀ t, (tr.tenantCharCount.lookup t).getD 0 = tr.usedBy t

section
variable {tr tr' : Tree} {path : NodeId → Str} {n : NodeId} {nd : Node} {k : Nat}
  {t tenant : TenantId} {epoch : Epoch}

theorem counted_new : Counted new := fun _ => rfl

/-- Counts and sizes that did not change. -/
theorem Counted.congr (h : Counted tr) (hcount : tr'.tenantCharCount = tr.tenantCharCount)
    (hused : ∀ u, tr'.usedBy u = tr.usedBy u) : Counted tr' := by
  intro u
  rw [hcount, hused, h]

/-- `k` more characters for a tenant. -/
theorem Counted.add (h : Counted tr)
    (hcount : tr'.tenantCharCount = upsert tenant (· + k) k tr.tenantCharCount)
    (hused : ∀ u, tr'.usedBy u = tr.usedBy u + if u = tenant then k else 0) : Counted tr' := by
  intro u
  rw [hcount, hused, lookup_upsert, ← h u]
  by_cases hu : u = tenant
  · subst hu
    rw [if_pos rfl, if_pos rfl]
    cases tr.tenantCharCount.lookup u <;> simp
  · rw [if_neg hu, if_neg hu, Nat.add_zero]

/-- The root has no text to count. -/
theorem Shape.usedBy_root (hS : Shape tr path) {f : Node → Node} (hf : ∀ nd, (f nd).text = nd.text) :
    (tr.modify root f).usedBy t = tr.usedBy t := by
  obtain ⟨r, hr, htext, -⟩ := hS.root_node
  have hzero : ∀ nd : Node, nd.text = NodeText.empty → nd.charsOf t = 0 := fun nd h => by
    simp [Node.charsOf, h, NodeText.empty]
  have := usedBy_modify (u := t) (f := f) hr
  rw [hzero r htext, hzero (f r) ((hf r).trans htext)] at this
  exact this

theorem Shape.counted_ensureRoot (hS : Shape tr path) (h : Counted tr) (tenant : TenantId) :
    Counted (tr.ensureRoot tenant) := by
  intro u
  have hused : (tr.ensureRoot tenant).usedBy u = tr.usedBy u :=
    hS.usedBy_root (f := fun nd => { nd with
      tenantLastAccessTime := orInsert tenant 0 nd.tenantLastAccessTime }) fun _ => rfl
  have hcount : (tr.ensureRoot tenant).tenantCharCount = orInsert tenant 0 tr.tenantCharCount := rfl
  rw [hused, hcount, lookup_orInsert, ← h u]
  by_cases hu : u = tenant
  · rw [if_pos hu, hu, Option.getD_some]
  · rw [if_neg hu]

theorem Counted.ensureTenant (h : Counted tr) (hn : tr.nodes[n]? = some nd) :
    Counted (tr.ensureTenant tenant nd.text.charCount n) := by
  by_cases hnt : nd.carries tenant = true
  · rwa [ensureTenant_of_carries hn hnt]
  · rw [ensureTenant_of_not_carries hn (by simpa using hnt)]
    exact h.add rfl fun u => usedBy_stamp_new hn (by simpa using hnt) 0

theorem insertRule_counted (tenant : TenantId) (text : Str) :
    InsertRule tenant text (fun tr _ _ => Counted tr) (fun tr _ => Counted tr) where
  leaf := by
    intro tr path prev pnode c remaining epoch hS hp ht hv hr htext hI
    exact hI.add rfl fun u => usedBy_newLeaf
  split := by
    intro tr path prev m pnode mnode c d k hS hp ht hc hm h0 hk hd hI
    obtain ⟨mnode', hm', hl, -⟩ := hS.child hp hc
    obtain rfl := Option.some.inj (hm'.symm.trans hm)
    have hcount : mnode'.text.charCount = mnode'.text.text.length := hl.counted
    have hI' : Counted (tr.splitTree prev c m mnode' d k) := hI.congr rfl fun u =>
      usedBy_splitTree hm (hS.child_ne hp hc).symm (by omega)
    exact hI'.ensureTenant (split_upper hp hm)
  full := by
    intro tr path prev m pnode mnode c hS hp ht hc hm hI
    exact hI.ensureTenant hm
  stop := by
    intro tr path prev pnode epoch hS hp ht htext hI
    exact hI.congr rfl fun u => usedBy_restamp hp ht epoch

/-- A match counts nothing, a tenant invented at the root included. -/
theorem Counted.touch (h : Counted tr) (hS : Shape tr path) (ord : IterOrder)
    (hn : tr.nodes[n]? = some nd) (hne : n ≠ root → nd.tenantLastAccessTime ≠ []) (epoch : Epoch) :
    Counted (tr.touch ord n nd epoch) := by
  have hcache : Counted (tr.modify n (Node.cache (selectTenant ord n nd).2)) :=
    h.congr rfl fun u => Heap.sum_modify_same (Node.charsOf u) fun _ => rfl
  have hread : (tr.modify n (Node.cache (selectTenant ord n nd).2)).nodes[n]? =
      some (nd.cache (selectTenant ord n nd).2) := Heap.modify_same hn
  have hS' : Shape (tr.modify n (Node.cache (selectTenant ord n nd).2)) path := by
    have := hS.touch ord hn hne 1
    rwa [Tree.touch, if_neg (by decide)] at this
  rw [Tree.touch]
  split
  · by_cases h0 : n = root
    · subst h0
      exact hcache.congr rfl fun u => hS'.usedBy_root (f := Node.stamp _ epoch) fun _ => rfl
    · have hc := selectTenant_carries (n := n) ord (hne h0)
      exact hcache.congr rfl fun u => usedBy_restamp hread hc epoch
  · exact hcache

/-- An eviction takes from the count what the node had counted. -/
theorem evictKeeps_counted (path : NodeId → Str) (maxSize : Nat) :
    EvictKeeps path maxSize Counted := by
  intro tr t n nd hS hn ht hleaf _ h u
  have hD := hS.evicted (k := nd.text.charCount) hn ht hleaf
  have hsum : (tr.evictAt t n nd.text.charCount).usedBy u +
      (if u = t then nd.text.charCount else 0) = tr.usedBy u :=
    (hS.withCounts (andModify t (· - nd.text.charCount) tr.tenantCharCount)).usedBy_detach
      (u := u) hn ht hleaf
  have hu := h u
  rw [hD.counts, lookup_andModify]
  by_cases hut : u = t
  · subst hut
    rw [if_pos rfl] at hsum ⊢
    cases hl : tr.tenantCharCount.lookup u with
    | none =>
      rw [hl, Option.getD_none] at hu
      simp only [Option.map_none, Option.getD_none]
      omega
    | some used =>
      rw [hl, Option.getD_some] at hu
      simp only [Option.map_some, Option.getD_some]
      omega
  · rw [if_neg hut] at hsum ⊢
    omega

/-- A removed tenant has no nodes and no count. -/
theorem Shape.removeTenant_counted (hS : Shape tr path) (h : Counted tr) (ord : IterOrder)
    (t : TenantId) :
    ∃ tr', tr.removeTenant ord t = some tr' ∧ Shape tr' path ∧ Counted tr' := by
  have step : ∀ {tr : Tree} {n : NodeId}, Shape tr path → LeafFor tr t n →
      (∀ u, u ≠ t → (tr.tenantCharCount.lookup u).getD 0 = tr.usedBy u) →
      ∀ u, u ≠ t → ((tr.detachTenant t n).1.tenantCharCount.lookup u).getD 0 =
        (tr.detachTenant t n).1.usedBy u := by
    rintro tr n hS ⟨nd, hn, ht, hleaf⟩ h u hu
    have hsum := hS.usedBy_detach (u := u) hn ht hleaf
    rw [if_neg hu, Nat.add_zero] at hsum
    rw [(hS.detached hn ht hleaf).1.counts, hsum, h u hu]
  obtain ⟨tr', hrun, hS', hb, hno⟩ := removeTenant_spec ord hS step fun u _ => h u
  refine ⟨_, hrun, hS'.withCounts _, fun u => ?_⟩
  rw [lookup_del]
  by_cases hu : u = t
  · subst hu
    rw [if_pos rfl, Option.getD_none]
    exact (hS'.usedBy_eq_zero (hno root)).symm
  · rw [if_neg hu]
    exact hb u hu

/-! ### Runs -/

/-- **One call** keeps the counts. -/
theorem counted_apply {st : Tree × Epoch} (hS : ∃ path, Shape st.1 path) (h : Counted st.1)
    (ord : IterOrder) (op : Op) :
    ∃ st', apply ord op st = some st' ∧ WellFormed st'.1 ∧ Counted st'.1 := by
  obtain ⟨path, hS⟩ := hS
  exact hS.apply_rule h ord op st.2
    (fun text tenant => (insertRule_counted tenant text).insert hS st.2 (hS.counted_ensureRoot h tenant))
    (fun _ _ _ _ hn hne => h.touch hS ord hn hne st.2)
    (fun _ _ _ hn ht => h.congr rfl fun _ => usedBy_restamp hn ht st.2)
    (fun maxSize => evictTenantBySize_spec ord maxSize (evictKeeps_counted path maxSize) hS h)
    (fun tenant => hS.removeTenant_counted h ord tenant)

/-- **The counts are right in every reachable tree**, the tenants the root has invented aside. -/
theorem run_counted (ops : List (IterOrder × Op)) (epoch : Epoch) :
    ∃ st, run ops (new, epoch) = some st ∧ WellFormed st.1 ∧ Counted st.1 :=
  Runs.exec_total (J := fun st : Tree × Epoch => WellFormed st.1 ∧ Counted st.1)
    (fun _ o h => counted_apply h.1 h.2 o.1 o.2) ops (new, epoch) ⟨wellFormed_new, counted_new⟩

end

end QwenStack.Tree
