import QwenStack.Tree.Counted

/-!
# Tree — what `evict_tenant_by_size` evicts

The heap of the loop is filled once, from the leaves of all tenants, and grows with the nodes that
become leaves.  `Covers` is the invariant: every current leaf of a tenant that is over its size is
in the heap, under its timestamp.  Since the least entry is popped, every eviction takes the oldest
leaf of its tenant; and since the loop goes on until the heap is empty, no tenant is left over its
size.
-/

namespace QwenStack.Tree
open Assoc List

/-- The timestamp of a tenant at an address. -/
def timeAt (tr : Tree) (t : TenantId) (n : NodeId) : Option Epoch :=
  (tr.nodes[n]?).bind fun nd => nd.tenantLastAccessTime.lookup t

/-- The tenant has no count, or one over the size. -/
def OverSize (tr : Tree) (maxSize : Nat) (t : TenantId) : Prop :=
  ∀ used, tr.tenantCharCount.lookup t = some used → maxSize < used

/-- **The heap covers the leaves**: it holds every leaf of every tenant that is over its size, and
the timestamps in it are those of the tree. -/
structure Covers (maxSize : Nat) (tr : Tree) (pq : List EvictionEntry) : Prop where
  leaves : ∀ t n time, tr.OverSize maxSize t → LeafFor tr t n → tr.timeAt t n = some time →
    ⟨time, t, n⟩ ∈ pq
  times : ∀ e ∈ pq, tr.carriesAt e.tenant e.node = true →
    tr.timeAt e.tenant e.node = some e.timestamp

/-- The node is the oldest leaf of the tenant. -/
structure OldestLeaf (tr : Tree) (t : TenantId) (n : NodeId) : Prop where
  leaf : LeafFor tr t n
  oldest : ∀ m time time', LeafFor tr t m → tr.timeAt t n = some time → tr.timeAt t m = some time' →
    time ≤ time'

section
variable {tr tr' : Tree} {path : NodeId → Str} {ord : IterOrder} {maxSize : Nat}
  {pq rest : List EvictionEntry} {e : EvictionEntry} {n m p : NodeId} {nd pnode : Node}
  {t u : TenantId} {k : Nat} {time : Epoch}

theorem timeAt_eq (h : tr.nodes[n]? = some nd) (t : TenantId) :
    tr.timeAt t n = nd.tenantLastAccessTime.lookup t := by
  rw [timeAt, h, Option.bind_some]

theorem carriesAt_iff_timeAt : tr.carriesAt t n = true ↔ ∃ time, tr.timeAt t n = some time := by
  cases h : tr.nodes[n]? with
  | none => simp [carriesAt, timeAt, h]
  | some nd =>
    rw [carriesAt_eq h, timeAt_eq h, Node.carries_iff, Node.tenants, mem_keys_iff]

/-! ### The heap at the start -/

theorem lookup_marks {l : List (TenantId × Epoch)} {cand : List (TenantId × Bool)} :
    (l.foldl (fun cand e => put e.1 false cand) cand).lookup t =
      if t ∈ keys l then some false else cand.lookup t := by
  induction l generalizing cand with
  | nil => simp
  | cons e l ih =>
    rw [foldl_cons, ih, lookup_put, Assoc.keys_cons]
    by_cases h : t = e.1 <;> simp [h]

theorem nodup_marks {l : List (TenantId × Epoch)} {cand : List (TenantId × Bool)}
    (h : (keys cand).Nodup) : (keys (l.foldl (fun cand e => put e.1 false cand) cand)).Nodup := by
  induction l generalizing cand with
  | nil => exact h
  | cons e l ih => exact ih (nodup_keys_put h)

/-- The candidates of `leaf_of` after the tenants of one child. -/
def markChild (ord : IterOrder) (tr : Tree) (cand : List (TenantId × Bool)) (e : Char × NodeId) :
    List (TenantId × Bool) :=
  match tr.nodes[e.2]? with
  | none => cand
  | some child =>
      (ord.tenants e.2 child.tenantLastAccessTime).foldl (fun cand e => put e.1 false cand) cand

theorem leafOf_eq (ord : IterOrder) (tr : Tree) (n : NodeId) (nd : Node) :
    leafOf ord tr n nd = ord.leaves n ((((ord.children n nd.children).foldl (markChild ord tr)
      ((ord.tenants n nd.tenantLastAccessTime).map fun e => (e.1, true))).filter Prod.snd).map
        Prod.fst) :=
  rfl

/-- **`leaf_of`**: the tenants of the node that none of its children has. -/
theorem Shape.mem_leafOf (hS : Shape tr path) (ord : IterOrder) (hn : tr.nodes[n]? = some nd) :
    t ∈ leafOf ord tr n nd ↔ nd.carries t = true ∧ tr.childCarries nd t = false := by
  have children : ∀ (l : List (Char × NodeId)) (cand : List (TenantId × Bool)),
      (keys cand).Nodup →
      (keys (l.foldl (markChild ord tr) cand)).Nodup ∧
      (l.foldl (markChild ord tr) cand).lookup t =
        if l.any (fun e => tr.carriesAt t e.2) then some false else cand.lookup t := by
    intro l
    induction l with
    | nil => exact fun cand h => ⟨h, by simp⟩
    | cons e l ih =>
      intro cand hcand
      rw [foldl_cons, any_cons, markChild]
      cases hm : tr.nodes[e.2]? with
      | none =>
        have hno : tr.carriesAt t e.2 = false := by simp [carriesAt, hm]
        rw [hno, Bool.false_or]
        exact ih cand hcand
      | some child =>
        obtain ⟨hnd, hl⟩ := ih _ (nodup_marks (l := ord.tenants e.2 child.tenantLastAccessTime) hcand)
        refine ⟨hnd, ?_⟩
        have hkeys : t ∈ keys (ord.tenants e.2 child.tenantLastAccessTime) ↔
            child.carries t = true := by
          rw [Node.carries_iff]
          exact ((ord.tenants_perm e.2 _).map Prod.fst).mem_iff
        rw [hl, lookup_marks, carriesAt_eq hm]
        by_cases hc : child.carries t = true
        · rw [if_pos (hkeys.mpr hc), hc, Bool.true_or, if_pos rfl]
          split <;> rfl
        · rw [if_neg (mt hkeys.mp hc)]
          rw [Bool.not_eq_true] at hc
          rw [hc, Bool.false_or]
  have hperm := (ord.tenants_perm n nd.tenantLastAccessTime).map Prod.fst
  have hkeys : keys ((ord.tenants n nd.tenantLastAccessTime).map fun e => (e.1, true)) =
      (ord.tenants n nd.tenantLastAccessTime).map Prod.fst := by
    rw [Assoc.keys, map_map]
    rfl
  obtain ⟨hnd, hl⟩ := children (ord.children n nd.children)
    ((ord.tenants n nd.tenantLastAccessTime).map fun e => (e.1, true))
    (by rw [hkeys]; exact hperm.nodup_iff.mpr (hS.keys_nodup hn).2)
  have hany : (ord.children n nd.children).any (fun e => tr.carriesAt t e.2) =
      tr.childCarries nd t := by
    rw [childCarries, Bool.eq_iff_iff, any_eq_true, any_eq_true]
    simp only [(ord.children_perm n nd.children).mem_iff]
  have hstart : ((ord.tenants n nd.tenantLastAccessTime).map fun e => (e.1, true)).lookup t =
      some true ↔ nd.carries t = true := by
    rw [lookup_map_values (fun _ => true), Node.carries_iff, Node.tenants, Assoc.keys, ← hperm.mem_iff,
      ← Assoc.keys, mem_keys_iff]
    simp
  have hfilter : ∀ cand : List (TenantId × Bool), (keys cand).Nodup →
      (t ∈ (cand.filter Prod.snd).map Prod.fst ↔ cand.lookup t = some true) := by
    intro cand hcand
    constructor
    · intro h
      obtain ⟨⟨t', b⟩, hmem, rfl⟩ := List.mem_map.mp h
      obtain ⟨hmem, rfl⟩ := List.mem_filter.mp hmem
      exact lookup_of_mem hcand hmem
    · intro h
      exact List.mem_map.mpr ⟨(t, true), List.mem_filter.mpr ⟨mem_of_lookup h, rfl⟩, rfl⟩
  rw [leafOf_eq, (ord.leaves_perm n _).mem_iff, hfilter _ hnd, hl, hany]
  cases hc : tr.childCarries nd t with
  | true => simp
  | false => simpa using hstart

/-- The heap a call starts from covers the leaves. -/
theorem Shape.covers_start (hS : Shape tr path) (hheap : tr.evictHeap ord = some pq)
    (maxSize : Nat) : Covers maxSize tr pq := by
  obtain ⟨order, hvisit, -, hmem⟩ := visitAll_spec ord hS
  obtain rfl : order.flatMap (leafEntries ord tr) = pq := by
    simpa [evictHeap, hvisit] using hheap
  have mem_entries : ∀ {n : NodeId} {nd : Node} {e : EvictionEntry}, tr.nodes[n]? = some nd →
      (e ∈ leafEntries ord tr n ↔ e.node = n ∧ e.tenant ∈ leafOf ord tr n nd ∧
        nd.tenantLastAccessTime.lookup e.tenant = some e.timestamp) := by
    intro n nd e hn
    simp only [leafEntries, hn, mem_filterMap, Option.map_eq_some_iff]
    constructor
    · rintro ⟨u, hu, time, htime, rfl⟩
      exact ⟨rfl, hu, htime⟩
    · rintro ⟨rfl, hu, htime⟩
      exact ⟨e.tenant, hu, e.timestamp, htime, rfl⟩
  constructor
  · rintro t n time - ⟨nd, hn, ht, hleaf⟩ htime
    rw [timeAt_eq hn] at htime
    refine List.mem_flatMap.mpr ⟨n, (hmem n).mpr ⟨_, hS.path_of_carries hn ht⟩, ?_⟩
    exact (mem_entries hn).mpr ⟨rfl, (hS.mem_leafOf ord hn).mpr ⟨ht, hleaf⟩, htime⟩
  · intro e he _
    obtain ⟨n, -, hen⟩ := List.mem_flatMap.mp he
    cases hn : tr.nodes[n]? with
    | none => simp [leafEntries, hn] at hen
    | some nd =>
      obtain ⟨rfl, -, htime⟩ := (mem_entries hn).mp hen
      rw [timeAt_eq hn, htime]

/-! ### One iteration -/

theorem timeAt_modify {f : Node → Node}
    (hf : ∀ nd, (f nd).tenantLastAccessTime = nd.tenantLastAccessTime) :
    (tr.modify n f).timeAt u m = tr.timeAt u m := by
  by_cases h : n = m
  · subst h
    simp only [timeAt, modify, List.getElem?_modify_eq]
    cases tr.nodes[n]? <;> simp [hf]
  · simp only [timeAt, modify, Heap.modify_other h]

section
variable (hS : Shape tr path) (hn : tr.nodes[n]? = some nd) (ht : nd.carries t = true) (hleaf : tr.childCarries nd t = false)
include hS hn ht hleaf

/-- An eviction leaves the other timestamps alone. -/
theorem Shape.timeAt_evictAt (h : ¬ (u = t ∧ m = n)) :
    (tr.evictAt t n k).timeAt u m = tr.timeAt u m := by
  have hdrop : (tr.modify n (Node.dropTenant t)).timeAt u m = tr.timeAt u m := by
    by_cases hm : n = m
    · subst hm
      have hu : u ≠ t := fun hu => h ⟨hu, rfl⟩
      rw [timeAt_eq (Heap.modify_same hn), timeAt_eq hn, Node.dropTenant, lookup_del, if_neg hu]
    · simp only [timeAt, modify, Heap.modify_other hm]
  rcases detachTenant_cases (hS.withCounts (andModify t (· - k) tr.tenantCharCount)) hn ht hleaf
    with ⟨-, e⟩ | ⟨p, pnode, c, -, -, -, -, e⟩
  · rw [Tree.evictAt, e]
    exact hdrop
  · rw [Tree.evictAt, e]
    exact (timeAt_modify (f := Node.unlink c) fun _ => rfl).trans hdrop

theorem OverSize.of_evictAt
    (h : (tr.evictAt t n k).OverSize maxSize u) : tr.OverSize maxSize u := by
  intro used hused
  have hcounts := (hS.evicted (k := k) hn ht hleaf).counts
  by_cases hu : u = t
  · have := h (used - k) (by rw [hcounts, lookup_andModify, if_pos hu, ← hu, hused]; rfl)
    omega
  · exact h used (by rw [hcounts, lookup_andModify, if_neg hu, hused])

/-- An eviction makes no leaf for another tenant. -/
theorem Shape.leafFor_of_evictAt (hu : u ≠ t)
    (h : LeafFor (tr.evictAt t n k) u m) : LeafFor tr u m := by
  have hS' := hS.evictAt (k := k) hn ht hleaf
  have hD := hS.evicted (k := k) hn ht hleaf
  have hsame : ∀ x, (tr.evictAt t n k).carriesAt u x = tr.carriesAt u x := by
    intro x
    rw [hD.carries]
    simp [hu, carriesAt]
  obtain ⟨hm, hno⟩ := (leafFor_iff hS').mp h
  refine (leafFor_iff hS).mpr ⟨by rwa [← hsame], fun c x hl => ?_⟩
  rw [← hsame]
  by_contra hx
  rw [Bool.not_eq_false] at hx
  -- a node that still carries a tenant is still linked, and in one place only
  have hkept : (tr.evictAt t n k).Link m c x := by
    by_cases hxn : x = n
    · obtain ⟨xnode, hread, hcarries⟩ := carriesAt_iff.mp hx
      obtain ⟨mnode, hmnode, hc⟩ := hl
      have hx0 := hS.child_ne_root hmnode hc
      obtain ⟨p, pnode, c', hp, hc'⟩ := hS'.attached hread hx0 (Node.tenants_ne_nil hcarries)
      obtain ⟨qnode, hq, hcq⟩ := hD.links ⟨pnode, hp, hc'⟩
      obtain ⟨rfl, rfl⟩ := hS.child_inj hmnode hc hq hcq
      exact ⟨pnode, hp, hc'⟩
    · exact hD.links_other hl hxn
  rw [hno c x hkept] at hx
  cases hx

end

/-- The parent an eviction looks at. -/
def evictedParent (tr : Tree) (e : EvictionEntry) (nd : Node) : Option NodeId :=
  (Tree.detachTenant e.tenant e.node { tr with
    tenantCharCount := andModify e.tenant (· - nd.text.charCount) tr.tenantCharCount }).2

theorem evictEntry_eq (hn : tr.nodes[e.node]? = some nd) (hskip : evictSkips maxSize tr e nd = false)
    (pq : List EvictionEntry) : evictEntry maxSize tr e pq =
      match leafParent e.tenant (tr.evictAt e.tenant e.node nd.text.charCount)
          (tr.evictedParent e nd) with
      | none => some (tr.evictAt e.tenant e.node nd.text.charCount, pq)
      | some (p, pnode) =>
        match pnode.tenantLastAccessTime.lookup e.tenant with
        | none => some (tr.evictAt e.tenant e.node nd.text.charCount, pq)
        | some timestamp => some (tr.evictAt e.tenant e.node nd.text.charCount,
            pq ++ [⟨timestamp, e.tenant, p⟩]) := by
  simp only [evictEntry, hn, hskip, Option.bind_eq_bind, Option.bind_some, Bool.false_eq_true, if_false]
  rfl

/-- What an iteration that evicts adds to the heap: the node above, when it has become a leaf. -/
theorem Shape.evictEntry_evicts (hS : Shape tr path) (hn : tr.nodes[e.node]? = some nd)
    (hskip : evictSkips maxSize tr e nd = false) (pq : List EvictionEntry) :
    ∃ extra, evictEntry maxSize tr e pq =
        some (tr.evictAt e.tenant e.node nd.text.charCount, pq ++ extra) ∧
      ∀ x, x ∈ extra ↔ x.tenant = e.tenant ∧
        (LeafFor (tr.evictAt e.tenant e.node nd.text.charCount) e.tenant x.node ∧
          ∃ c, tr.Link x.node c e.node) ∧
        (tr.evictAt e.tenant e.node nd.text.charCount).timeAt x.tenant x.node = some x.timestamp := by
  obtain ⟨-, ht, hleaf⟩ := evictSkips_eq_false.mp hskip
  have hiff := fun p => (hS.withCounts (andModify e.tenant (· - nd.text.charCount)
    tr.tenantCharCount)).leafParent_iff (p := p) hn ht hleaf
  change ∀ p, (∃ pnode, leafParent e.tenant (tr.evictAt e.tenant e.node nd.text.charCount)
    (tr.evictedParent e nd) = some (p, pnode)) ↔
      LeafFor (tr.evictAt e.tenant e.node nd.text.charCount) e.tenant p ∧
        ∃ c, tr.Link p c e.node at hiff
  rw [evictEntry_eq hn hskip]
  split
  · next hnone =>
    refine ⟨[], by simp, fun x => ⟨fun h => absurd h not_mem_nil, ?_⟩⟩
    rintro ⟨-, hx, -⟩
    obtain ⟨pnode, hp⟩ := (hiff x.node).mpr hx
    rw [hnone] at hp
    cases hp
  · next p pnode hsome =>
    obtain ⟨-, hp, hpt, -⟩ := leafParent_eq_some.mp hsome
    obtain ⟨time, htime⟩ := mem_keys_iff.mp (Node.carries_iff.mp hpt)
    have hat : (tr.evictAt e.tenant e.node nd.text.charCount).timeAt e.tenant p = some time := by
      rw [timeAt_eq hp, htime]
    rw [htime]
    refine ⟨[⟨time, e.tenant, p⟩], rfl, fun x => ?_⟩
    rw [mem_singleton]
    constructor
    · rintro rfl
      exact ⟨rfl, (hiff p).mp ⟨pnode, hsome⟩, hat⟩
    · obtain ⟨xtime, xtenant, xnode⟩ := x
      rintro ⟨rfl, hx, hxtime⟩
      obtain ⟨pnode', hp'⟩ := (hiff xnode).mpr hx
      obtain ⟨rfl, -⟩ := Prod.mk.inj (Option.some.inj (hsome.symm.trans hp'))
      cases hat.symm.trans hxtime
      rfl

/-- The popped entry is a least one, and the others are still there. -/
theorem popEntry_inv (h : popEntry ord pq = some (e, rest)) :
    e ∈ pq ∧ rest ⊆ pq ∧ (∀ x ∈ pq, x ≠ e → x ∈ rest) ∧ ∀ x ∈ pq, e.timestamp ≤ x.timestamp := by
  obtain ⟨e', he', heq⟩ := Option.map_eq_some_iff.mp h
  cases heq
  have hne : pq ≠ [] := by
    rintro rfl
    simp at he'
  obtain ⟨e'', he'', hleast⟩ := ord.pop_least pq hne
  cases he'.symm.trans he''
  refine ⟨List.mem_of_getElem? he', eraseIdx_subset, fun x hx hxe => ?_, hleast⟩
  obtain ⟨i, hi, rfl⟩ := List.mem_iff_getElem.mp hx
  refine List.mem_eraseIdx_iff_getElem.mpr ⟨i, hi, ?_, rfl⟩
  rintro rfl
  rw [List.getElem?_eq_getElem hi] at he'
  exact hxe (Option.some.inj he')

/-- **One iteration** leaves a heap that covers the leaves, and what it evicts is the oldest leaf of
its tenant. -/
theorem Covers.step {pq' : List EvictionEntry} (hS : Shape tr path) (hC : Covers maxSize tr pq)
    (hstep : evictStep ord maxSize tr pq = some (tr', pq')) :
    Covers maxSize tr' pq' ∧
      ∀ t n, tr.carriesAt t n = true → tr'.carriesAt t n = false → OldestLeaf tr t n := by
  obtain ⟨⟨e, rest⟩, hpop, hentry⟩ := Option.bind_eq_some_iff.mp hstep
  obtain ⟨he, hsub, hothers, hleast⟩ := popEntry_inv hpop
  obtain ⟨nd, hn, -⟩ := Option.bind_eq_some_iff.mp hentry
  cases hskip : evictSkips maxSize tr e nd with
  | true =>
    obtain ⟨rfl, rfl⟩ : tr = tr' ∧ rest = pq' := by
      simpa [evictEntry, hn, hskip] using hentry
    refine ⟨⟨fun t n time hover hleaf htime => ?_, fun x hx => hC.times x (hsub hx)⟩,
      fun t n h h' => ?_⟩
    · refine hothers _ (hC.leaves t n time hover hleaf htime) ?_
      -- an entry for a leaf of a tenant over its size is not skipped
      rintro rfl
      obtain ⟨nd', hn', ht, hchild⟩ := hleaf
      cases hn.symm.trans hn'
      have hkept : evictSkips maxSize tr ⟨time, t, n⟩ nd = false :=
        evictSkips_eq_false.mpr ⟨hover, ht, hchild⟩
      rw [hkept] at hskip
      cases hskip
    · rw [h] at h'
      cases h'
  | false =>
    obtain ⟨hover, ht, hleaf⟩ := evictSkips_eq_false.mp hskip
    obtain ⟨extra, hrun, hextra⟩ := hS.evictEntry_evicts hn hskip rest
    obtain ⟨rfl, rfl⟩ := Prod.mk.inj (Option.some.inj (hentry.symm.trans hrun))
    have hS' := hS.evictAt (k := nd.text.charCount) hn ht hleaf
    have hD := hS.evicted (k := nd.text.charCount) hn ht hleaf
    have hgone : ∀ u m, (tr.evictAt e.tenant e.node nd.text.charCount).carriesAt u m = true →
        tr.carriesAt u m = true ∧ ¬ (u = e.tenant ∧ m = e.node) := by
      intro u m h
      rw [hD.carries, Bool.and_eq_true] at h
      refine ⟨h.1, ?_⟩
      rintro ⟨rfl, rfl⟩
      simp at h
    refine ⟨⟨fun u m time hover' hleaf' htime => ?_, fun x hx hcarries => ?_⟩, fun t n h h' => ?_⟩
    · have hcarries : (tr.evictAt e.tenant e.node nd.text.charCount).carriesAt u m = true :=
        ((leafFor_iff hS').mp hleaf').1
      obtain ⟨-, hne⟩ := hgone u m hcarries
      have htime' := hS.timeAt_evictAt (k := nd.text.charCount) hn ht hleaf hne
      rw [htime] at htime'
      have hold : LeafFor tr u m → ⟨time, u, m⟩ ∈ rest ++ extra := by
        intro hl
        refine mem_append_left _ (hothers _ (hC.leaves u m time
          (hover'.of_evictAt hS hn ht hleaf) hl htime'.symm) ?_)
        rintro rfl
        exact hne ⟨rfl, rfl⟩
      by_cases hu : u = e.tenant
      · subst hu
        by_cases hlink : ∃ c, tr.Link m c e.node
        · exact mem_append_right _ ((hextra _).mpr ⟨rfl, ⟨hleaf', hlink⟩, htime⟩)
        · refine hold ((leafFor_iff hS).mpr ?_)
          obtain ⟨hmn, hm, hno⟩ := (hD.leafFor hS').mp hleaf'
          refine ⟨hm, fun c x hl => hno c x hl ?_⟩
          rintro rfl
          exact hlink ⟨c, hl⟩
      · exact hold (hS.leafFor_of_evictAt hn ht hleaf hu hleaf')
    · rcases List.mem_append.mp hx with hx | hx
      · obtain ⟨hold, hne⟩ := hgone x.tenant x.node hcarries
        rw [hS.timeAt_evictAt hn ht hleaf hne]
        exact hC.times x (hsub hx) hold
      · exact ((hextra x).mp hx).2.2
    · have hat : t = e.tenant ∧ n = e.node := by
        rw [hD.carries, Bool.and_eq_false_iff] at h'
        simpa using h'.resolve_left fun h₀ => Bool.false_ne_true (h₀.symm.trans h)
      obtain ⟨rfl, rfl⟩ := hat
      refine ⟨⟨nd, hn, ht, hleaf⟩, fun m time time' hm htime htime' => ?_⟩
      have := hC.times e he h
      cases htime.symm.trans this
      exact hleast _ (hC.leaves _ m time' hover hm htime')

/-! ### The call -/

/-- The loop goes through states that are reached. -/
theorem evictLoop_reaches : ∀ (fuel : Nat) (tr : Tree) (pq : List EvictionEntry),
    evictLoop ord maxSize fuel tr pq = some tr' → EvictReaches ord maxSize (tr, pq) (tr', []) := by
  intro fuel
  induction fuel with
  | zero =>
    intro tr pq hrun
    cases pq with
    | nil =>
      cases hrun
      exact .refl
    | cons e pq => cases hrun
  | succ fuel ih =>
    intro tr pq hrun
    cases pq with
    | nil =>
      cases hrun
      exact .refl
    | cons e pq =>
      obtain ⟨⟨tr₁, pq₁⟩, hstep, hrest⟩ := Option.bind_eq_some_iff.mp hrun
      exact .head hstep (ih tr₁ pq₁ hrest)

/-- The heap covers the leaves throughout a call. -/
theorem EvictReaches.covers {s s' : Tree × List EvictionEntry} (h : EvictReaches ord maxSize s s')
    (hS : Shape s.1 path) (hE : Evicting s.1 s.2) (hC : Covers maxSize s.1 s.2) :
    Shape s'.1 path ∧ Covers maxSize s'.1 s'.2 := by
  induction h with
  | refl => exact ⟨hS, hC⟩
  | tail hreach hstep ih =>
    have hnext : EvictReaches ord maxSize s _ := .tail hreach hstep
    obtain ⟨hS', -, -⟩ := hnext.keeps (I := fun _ => True) (fun _ _ _ _ _ _ => trivial) hS hE trivial
    exact ⟨hS', (ih.2.step ih.1 hstep).1⟩

/-- A tenant within its size is left alone. -/
theorem evictKeeps_within (tr₀ : Tree) {used : Nat} (hused : used ≤ maxSize) :
    EvictKeeps path maxSize fun tr => tr.tenantCharCount.lookup u = some used ∧
      ∀ n, tr.carriesAt u n = tr₀.carriesAt u n := by
  rintro tr t n nd hS hn ht hleaf hover ⟨hcount, hsame⟩
  have hut : u ≠ t := by
    rintro rfl
    have := hover used hcount
    omega
  have hD := hS.evicted (k := nd.text.charCount) hn ht hleaf
  refine ⟨by rw [hD.counts, lookup_andModify, if_neg hut, hcount], fun m => ?_⟩
  rw [hD.carries, ← hsame m]
  simp [hut, carriesAt]

/-- No node gets a tenant. -/
theorem evictKeeps_sub (tr₀ : Tree) : EvictKeeps path maxSize fun tr => ∀ u n, tr.carriesAt u n = true →
      tr₀.carriesAt u n = true := by
  intro tr t n nd hS hn ht hleaf _ hsub u m h
  rw [(hS.evicted (k := nd.text.charCount) hn ht hleaf).carries, Bool.and_eq_true] at h
  exact hsub u m h.1

/-- A heap that covers the leaves and is empty leaves no tenant over its size. -/
theorem Covers.within (hS : Shape tr path) (hC : Covers maxSize tr []) (hcounted : Counted tr)
    {used : Nat} (hused : tr.tenantCharCount.lookup t = some used) : used ≤ maxSize := by
  by_contra hover
  have hno : ∀ (n : NodeId) (nd : Node), tr.nodes[n]? = some nd → nd.carries t = false := by
    intro n nd hn
    by_contra ht
    obtain ⟨m, hleaf⟩ := hS.exists_leaf hn (by simpa using ht)
    obtain ⟨time, htime⟩ := carriesAt_iff_timeAt.mp ((leafFor_iff hS).mp hleaf).1
    have := hC.leaves t m time (fun used' h => by
      cases hused.symm.trans h
      omega) hleaf htime
    cases this
  have hzero : tr.usedBy t = 0 := Heap.sum_eq_zero _ fun n nd hn => charsOf_of_not_carries (hno n nd hn)
  have := hcounted t
  rw [hused, Option.getD_some, hzero] at this
  omega

/-- **Evictions**, after any run, for every size, whatever the maps and the heap leave open: the
call ends; no count is over the size; a tenant within its size keeps what it owns; every tenant
owns a prefix-closed part of what it owned; and every removal during the call takes the oldest leaf
of its tenant. -/
theorem run_evicts (ops : List (IterOrder × Op)) (epoch₀ : Epoch) :
    ∃ tr epoch, run ops (new, epoch₀) = some (tr, epoch) ∧ ∀ ord maxSize,
      ∃ pq tr', tr.evictHeap ord = some pq ∧ tr.evictTenantBySize ord maxSize = some tr' ∧
        EvictReaches ord maxSize (tr, pq) (tr', []) ∧
        (∀ t used, tr'.tenantCharCount.lookup t = some used → used ≤ maxSize) ∧
        (∀ t used, tr.tenantCharCount.lookup t = some used → used ≤ maxSize →
          tr'.Owned t = tr.Owned t) ∧
        (∀ t, tr'.Owned t ⊆ tr.Owned t ∧ ∀ s ∈ tr'.Owned t, ∀ p, p <+: s → p ∈ tr'.Owned t) ∧
        ∀ s s', EvictReaches ord maxSize (tr, pq) s → evictStep ord maxSize s.1 s.2 = some s' →
          ∀ t n, s.1.carriesAt t n = true → s'.1.carriesAt t n = false → OldestLeaf s.1 t n := by
  obtain ⟨⟨tr, epoch⟩, hrun, ⟨path, hS⟩, hcounted⟩ := run_counted ops epoch₀
  refine ⟨tr, epoch, hrun, fun ord maxSize => ?_⟩
  obtain ⟨pq, hheap, hE⟩ := evictHeap_spec ord hS
  have hC := hS.covers_start hheap maxSize
  obtain ⟨tr', hloop, hS', hcounted'⟩ := evictLoop_spec ord (evictKeeps_counted path maxSize)
    (pq.length + tr.pairCount) tr pq hS hE hcounted (le_refl _)
  have hreach := evictLoop_reaches _ tr pq hloop
  have hcall : tr.evictTenantBySize ord maxSize = some tr' := by
    simp only [evictTenantBySize, hheap, Option.bind_eq_bind, Option.bind_some, hloop]
  refine ⟨pq, tr', hheap, hcall, hreach, fun t used hused => ?_, fun t used hused hle => ?_,
    fun t => ⟨?_, fun s hs p hp => spelled_of_isPrefix hs hp⟩, fun s s' hs hstep => ?_⟩
  · exact (hreach.covers hS hE hC).2.within hS' hcounted' hused
  · obtain ⟨-, -, -, hsame⟩ := hreach.keeps (evictKeeps_within tr hle) hS hE
      ⟨hused, fun _ => rfl⟩
    exact hS.owned_congr hS' hsame
  · obtain ⟨-, -, hsub⟩ := hreach.keeps (evictKeeps_sub tr) hS hE fun _ _ h => h
    intro s hs
    obtain ⟨n, hn, hpre⟩ := hS'.mem_owned.mp hs
    exact hS.mem_owned.mpr ⟨n, hsub t n hn, hpre⟩
  · obtain ⟨hSs, hCs⟩ := hs.covers hS hE hC
    obtain ⟨next, nextHeap⟩ := s'
    exact (hCs.step hSs hstep).2

end

end QwenStack.Tree
