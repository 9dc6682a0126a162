import Mathlib.Algebra.BigOperators.Group.Finset.Basic
import QwenStack.Tree.Owned

/-!
# Tree — the per-tenant character counts

`tenant_char_count` is adjusted at each step of an insert, an eviction and a removal;
`get_used_size_per_tenant` recomputes the same numbers from the nodes.  `Exact` says that they
agree, over all allocated nodes rather than along a walk, and every step of every operation keeps
it but one: a match that ends at a root without tenants writes the invented tenant `"empty"` into
the root's tenant map, in one call of eight.  `run_accounts_iff` says that this is the only way the
two can come apart.
-/

namespace QwenStack.Tree
open Assoc

/-- The characters a node counts for a tenant. -/
def Node.charsOf (t : TenantId) (nd : Node) : Nat := if nd.carries t then nd.text.charCount else 0

/-- The characters of all the nodes that carry a tenant. -/
def usedBy (tr : Tree) (t : TenantId) : Nat := (tr.nodes.map (Node.charsOf t)).sum

/-- **The counts are exact**: an entry for every tenant of the root, and for no other. -/
def Exact (tr : Tree) : Prop :=
  ∀ t, tr.tenantCharCount.lookup t = if tr.carriesAt t root then some (tr.usedBy t) else none

section
variable {tr tr' : Tree} {path : NodeId → Str} {prev p n m : NodeId} {pnode nd mnode : Node}
  {c d : Char} {k : Nat} {t u tenant : TenantId} {epoch : Epoch}

/-! ### `get_used_size_per_tenant` -/

/-- The tenants of one node, each once. -/
theorem lookup_addTenants {k : Nat} : ∀ {l : List (TenantId × Epoch)} {used : List (TenantId × Nat)},
    (keys l).Nodup →
    (l.foldl (fun used e => upsert e.1 (· + k) k used) used).lookup t =
      if t ∈ keys l then some ((used.lookup t).getD 0 + k) else used.lookup t
  | [], used, _ => by simp
  | e :: l, used, hnd => by
      rw [keys_cons, List.nodup_cons] at hnd
      rw [List.foldl_cons, lookup_addTenants hnd.2, lookup_upsert]
      by_cases het : t = e.1
      · subst het
        rw [if_neg hnd.1, if_pos rfl, if_pos (by simp)]
        cases used.lookup e.1 <;> simp
      · simp [het]

theorem Shape.lookup_addNodeSizes (hS : Shape tr path) (ord : IterOrder)
    (hn : tr.nodes[n]? = some nd) (used : List (TenantId × Nat)) :
    (addNodeSizes ord tr used n).lookup t =
      if nd.carries t then some ((used.lookup t).getD 0 + nd.charsOf t) else used.lookup t := by
  have hperm := ord.tenants_perm n nd.tenantLastAccessTime
  have hkeys : (keys (ord.tenants n nd.tenantLastAccessTime)).Perm nd.tenants := hperm.map Prod.fst
  have hnd : (keys (ord.tenants n nd.tenantLastAccessTime)).Nodup :=
    hkeys.nodup_iff.mpr (hS.keys_nodup hn).2
  simp only [addNodeSizes, hn]
  rw [lookup_addTenants hnd]
  simp only [hkeys.mem_iff, ← Node.carries_iff]
  by_cases h : nd.carries t = true <;> simp [h, Node.charsOf]

/-- What the node at an address counts. -/
def charsAt (tr : Tree) (t : TenantId) (n : NodeId) : Nat :=
  ((tr.nodes[n]?).map (Node.charsOf t)).getD 0

theorem charsAt_of_not_carries (h : tr.carriesAt t n = false) : tr.charsAt t n = 0 := by
  rw [charsAt]
  cases hn : tr.nodes[n]? with
  | none => rfl
  | some nd =>
    rw [carriesAt_eq hn] at h
    simp [Node.charsOf, h]

theorem Shape.lookup_addAll (hS : Shape tr path) (ord : IterOrder) :
    ∀ (order : List NodeId) (used : List (TenantId × Nat)),
      (∀ n ∈ order, ∃ nd, tr.nodes[n]? = some nd) →
      (order.foldl (addNodeSizes ord tr) used).lookup t = if order.any (tr.carriesAt t) then
          some ((used.lookup t).getD 0 + (order.map (tr.charsAt t)).sum)
        else used.lookup t
  | [], used, _ => by simp
  | n :: order, used, h => by
      obtain ⟨nd, hn⟩ := h n List.mem_cons_self
      rw [List.foldl_cons, hS.lookup_addAll ord order _ fun x hx => h x (List.mem_cons_of_mem _ hx),
        hS.lookup_addNodeSizes ord hn]
      have hat : tr.charsAt t n = nd.charsOf t := by simp [charsAt, hn]
      rw [List.any_cons, carriesAt_eq hn, List.map_cons, List.sum_cons, hat]
      by_cases ht : nd.carries t = true
      · simp only [ht, Bool.true_or, if_true, Option.getD_some]
        split
        · rw [Nat.add_assoc]
        · next hno =>
          have : (order.map (tr.charsAt t)).sum = 0 := by
            refine List.sum_eq_zero_iff.mpr fun x hx => ?_
            obtain ⟨m, hm, rfl⟩ := List.mem_map.mp hx
            exact charsAt_of_not_carries (by simpa using fun h => hno (List.any_eq_true.mpr ⟨m, hm, h⟩))
          rw [this, Nat.add_zero]
      · simp [ht, Node.charsOf]

/-- A walk that meets every carrier once counts what all the nodes count. -/
theorem sum_charsAt {order : List NodeId} (hnd : order.Nodup)
    (hmem : ∀ n, tr.carriesAt t n = true → n ∈ order) (hsub : ∀ n ∈ order, n < tr.nodes.length) :
    (order.map (tr.charsAt t)).sum = tr.usedBy t := by
  have hall : tr.usedBy t = ((List.range tr.nodes.length).map (tr.charsAt t)).sum := by
    rw [usedBy]
    congr 1
    refine List.ext_getElem (by simp) fun i hi _ => ?_
    simp only [List.length_map] at hi
    simp [charsAt, hi]
  rw [hall, ← List.sum_toFinset _ hnd, ← List.sum_toFinset _ List.nodup_range]
  refine Finset.sum_subset (fun n hn => ?_) fun n _ hn => ?_
  · rw [List.mem_toFinset] at hn ⊢
    exact List.mem_range.mpr (hsub n hn)
  · refine charsAt_of_not_carries ?_
    rw [List.mem_toFinset] at hn
    by_contra h
    exact hn (hmem n (by simpa using h))

/-- **The recomputed sizes.** -/
theorem getUsedSizePerTenant_spec (ord : IterOrder) (hS : Shape tr path) :
    ∃ used, tr.getUsedSizePerTenant ord = some used ∧ ∀ t, used.lookup t =
      if tr.carriesAt t root then some (tr.usedBy t) else none := by
  obtain ⟨order, hvisit, hnd, hmem⟩ := visitAll_spec ord hS
  obtain ⟨r, hr, -⟩ := hS.root_node
  have hread : ∀ n ∈ order, ∃ nd, tr.nodes[n]? = some nd := fun n hn =>
    ((hmem n).mp hn).elim fun _ hw => hw.read hr
  have hroot : root ∈ order := (hmem root).mpr ⟨[], .refl _⟩
  refine ⟨order.foldl (addNodeSizes ord tr) [], by simp [getUsedSizePerTenant, hvisit], fun t => ?_⟩
  have hcarry : ∀ n, tr.carriesAt t n = true → n ∈ order ∧ tr.carriesAt t root = true := by
    intro n h
    obtain ⟨nd, hn, ht⟩ := carriesAt_iff.mp h
    exact ⟨(hmem n).mpr ⟨_, hS.path_of_carries hn ht⟩, hS.root_carries hn ht⟩
  rw [hS.lookup_addAll ord order [] hread, sum_charsAt hnd (fun n h => (hcarry n h).1)
    fun n hn => (hread n hn).elim fun _ h => Heap.lt_of_read h]
  by_cases ht : tr.carriesAt t root = true
  · rw [if_pos ht, if_pos (List.any_eq_true.mpr ⟨root, hroot, ht⟩)]
    simp
  · rw [if_neg ht, if_neg]
    · rfl
    · intro h
      obtain ⟨n, -, hn⟩ := List.any_eq_true.mp h
      exact ht (hcarry n hn).2

/-- `get_tenant_char_count` and `get_used_size_per_tenant` are the same map. -/
def Agree (tr : Tree) : Prop :=
  ∀ ord, ∃ used, tr.getUsedSizePerTenant ord = some used ∧
    ∀ t, used.lookup t = tr.getTenantCharCount.lookup t

theorem Shape.exact_of_agree (hS : Shape tr path) (ord : IterOrder) (h : tr.Agree) : tr.Exact := by
  intro t
  obtain ⟨used, hrun, hsame⟩ := h ord
  obtain ⟨used', hrun', hspec⟩ := getUsedSizePerTenant_spec ord hS
  cases hrun.symm.trans hrun'
  rw [← hspec]
  exact (hsame t).symm

theorem Shape.agree_of_exact (hS : Shape tr path) (h : tr.Exact) : tr.Agree := by
  intro ord
  obtain ⟨used, hrun, hspec⟩ := getUsedSizePerTenant_spec ord hS
  exact ⟨used, hrun, fun t => (hspec t).trans (h t).symm⟩

/-! ### What each step does to the sums -/

theorem charsOf_of_carries (h : nd.carries t = true) : nd.charsOf t = nd.text.charCount := by
  simp [Node.charsOf, h]

theorem charsOf_of_not_carries (h : nd.carries t = false) : nd.charsOf t = 0 := by
  simp [Node.charsOf, h]

/-- A carrier's characters are part of the sum. -/
theorem charCount_le_usedBy (hn : tr.nodes[n]? = some nd) (ht : nd.carries t = true) :
    nd.text.charCount ≤ tr.usedBy t := by
  rw [← charsOf_of_carries ht]
  exact Heap.le_sum_of_read (Node.charsOf t) hn

/-- The sum after an update of one node. -/
theorem usedBy_modify {f : Node → Node} (hn : tr.nodes[n]? = some nd) :
    (tr.modify n f).usedBy u + nd.charsOf u = tr.usedBy u + (f nd).charsOf u :=
  Heap.sum_modify (Node.charsOf u) hn

theorem charsOf_stamp (t u : TenantId) (e : Epoch) (nd : Node) :
    (nd.stamp t e).charsOf u = if u = t then nd.text.charCount else nd.charsOf u := by
  rw [Node.charsOf, Node.carries_stamp]
  by_cases hu : u = t
  · simp [hu, Node.stamp]
  · simp only [hu, decide_false, Bool.false_or, if_false]
    rfl

theorem usedBy_hang {newNode : Node} :
    (tr.hang p c newNode).usedBy u = tr.usedBy u + newNode.charsOf u := by
  have := Heap.sum_modify_same (h := tr.nodes ++ [newNode]) (n := p)
    (f := Node.link c tr.nodes.length) (Node.charsOf u) (fun _ => rfl)
  simp only [usedBy, hang, this, List.map_append, List.sum_append, List.map_cons, List.map_nil,
    List.sum_singleton]

/-- A new leaf is of its tenant. -/
theorem usedBy_newLeaf {remaining : Str} : (tr.newLeaf tenant epoch p c remaining).usedBy u =
      tr.usedBy u + if u = tenant then remaining.length else 0 := by
  rw [newLeaf, usedBy_hang]
  congr 1
  simp only [Node.charsOf, Node.carries, contains, lookup_put, List.lookup_nil]
  by_cases hu : u = tenant <;> simp [hu, NodeText.new]

theorem usedBy_splitTree (hm : tr.nodes[m]? = some mnode) (hne : p ≠ m)
    (hk : k ≤ mnode.text.charCount) :
    (tr.splitTree p c m mnode d k).usedBy u = tr.usedBy u := by
  have hread : (tr.hang p c (upperNode p m d k mnode)).nodes[m]? = some mnode := hang_other hne hm
  have hsum := usedBy_modify (u := u) (f := lowerNode tr.nodes.length k mnode) hread
  have hparts : (upperNode p m d k mnode).charsOf u +
      (lowerNode tr.nodes.length k mnode mnode).charsOf u = mnode.charsOf u := by
    have hu : (upperNode p m d k mnode).carries u = mnode.carries u := rfl
    have hl : (lowerNode tr.nodes.length k mnode mnode).carries u = mnode.carries u := rfl
    simp only [Node.charsOf, hu, hl]
    split
    · simp only [upperNode, lowerNode]
      omega
    · rfl
  rw [usedBy_hang] at hsum
  rw [splitTree]
  omega

theorem usedBy_stamp_new (hn : tr.nodes[n]? = some nd) (ht : nd.carries t = false) (e : Epoch) :
    (tr.modify n (Node.stamp t e)).usedBy u = tr.usedBy u + if u = t then nd.text.charCount else 0 := by
  have hsum := usedBy_modify (u := u) (f := Node.stamp t e) hn
  rw [charsOf_stamp] at hsum
  by_cases hu : u = t
  · subst hu
    rw [if_pos rfl, charsOf_of_not_carries ht] at hsum
    rw [if_pos rfl]
    omega
  · rw [if_neg hu] at hsum ⊢
    omega

theorem usedBy_restamp (hn : tr.nodes[n]? = some nd) (ht : nd.carries t = true) (e : Epoch) :
    (tr.modify n (Node.stamp t e)).usedBy u = tr.usedBy u := by
  have hsum := usedBy_modify (u := u) (f := Node.stamp t e) hn
  rw [charsOf_stamp] at hsum
  by_cases hu : u = t
  · subst hu
    rw [if_pos rfl, charsOf_of_carries ht] at hsum
    omega
  · rw [if_neg hu] at hsum
    omega

/-- A tenant the root lacks is counted nowhere. -/
theorem Shape.usedBy_eq_zero (hS : Shape tr path) (h : tr.carriesAt t root = false) :
    tr.usedBy t = 0 := by
  refine Heap.sum_eq_zero _ fun n nd hn => charsOf_of_not_carries ?_
  by_contra ht
  rw [hS.root_carries hn (by simpa using ht)] at h
  cases h

/-! ### `insert` keeps the counts exact -/

theorem exact_new : Exact new := by
  intro t
  simp [new, carriesAt, Node.carries, contains]

/-- Sizes and root tenants that did not change. -/
theorem Exact.congr (h : Exact tr) (hcount : tr'.tenantCharCount = tr.tenantCharCount)
    (hroot : ∀ u, tr'.carriesAt u root = tr.carriesAt u root)
    (hused : ∀ u, tr'.usedBy u = tr.usedBy u) : Exact tr' := by
  intro u
  rw [hcount, hroot, hused, h]

/-- `k` more characters for a tenant of the root. -/
theorem Exact.add (h : Exact tr) (ht : tr.carriesAt tenant root = true)
    (hcount : tr'.tenantCharCount = upsert tenant (· + k) k tr.tenantCharCount)
    (hroot : ∀ u, tr'.carriesAt u root = tr.carriesAt u root)
    (hused : ∀ u, tr'.usedBy u = tr.usedBy u + if u = tenant then k else 0) : Exact tr' := by
  intro u
  rw [hcount, hroot, hused, lookup_upsert]
  by_cases hu : u = tenant
  · subst hu
    rw [h u, ht]
    simp
  · simp only [if_neg hu, h u, Nat.add_zero]

theorem Shape.exact_ensureRoot (hS : Shape tr path) (h : Exact tr) (tenant : TenantId) :
    Exact (tr.ensureRoot tenant) := by
  obtain ⟨r, hr, htext, -⟩ := hS.root_node
  have hzero : ∀ u, r.charsOf u = 0 := fun u => by
    simp [Node.charsOf, htext, NodeText.empty]
  have hused : ∀ u, (tr.ensureRoot tenant).usedBy u = tr.usedBy u := by
    intro u
    have := usedBy_modify (u := u) (f := fun nd => { nd with
      tenantLastAccessTime := orInsert tenant 0 nd.tenantLastAccessTime }) hr
    have hzero' : Node.charsOf u { r with
        tenantLastAccessTime := orInsert tenant 0 r.tenantLastAccessTime } = 0 := by
      simp [Node.charsOf, htext, NodeText.empty]
    rw [hzero, hzero'] at this
    exact this
  intro u
  have hroot := carriesAt_ensureRoot tenant u root hr
  have hcount : (tr.ensureRoot tenant).tenantCharCount = orInsert tenant 0 tr.tenantCharCount := rfl
  rw [hused, hcount, lookup_orInsert]
  by_cases hu : u = tenant
  · subst hu
    rw [if_pos rfl, if_pos (hroot.mpr (.inr ⟨rfl, rfl⟩)), h]
    split
    · rfl
    · next hno => rw [hS.usedBy_eq_zero (by simpa using hno)]; rfl
  · rw [if_neg hu, h]
    simp only [hu, and_false, or_false] at hroot
    simp only [hroot]

theorem Exact.ensureTenant (h : Exact tr)
    (ht : tr.carriesAt tenant root = true) (hn : tr.nodes[n]? = some nd) (h0 : n ≠ root) :
    Exact (tr.ensureTenant tenant nd.text.charCount n) := by
  by_cases hnt : nd.carries tenant = true
  · rwa [ensureTenant_of_carries hn hnt]
  · rw [ensureTenant_of_not_carries hn (by simpa using hnt)]
    refine h.add ht rfl (fun u => ?_) fun u => usedBy_stamp_new hn (by simpa using hnt) 0
    rw [carriesAt, modify, Heap.modify_other h0]
    rfl

theorem insertRule_exact (tenant : TenantId) (text : Str) :
    InsertRule tenant text (fun tr _ _ => Exact tr) (fun tr _ => Exact tr) where
  leaf := by
    intro tr path prev pnode c remaining epoch hS hp ht hv hr htext hI
    obtain ⟨r, hr₀, -⟩ := hS.root_node
    have hlen : root ≠ tr.nodes.length := Nat.ne_of_lt (Heap.lt_of_read hr₀)
    refine hI.add (hS.root_carries hp ht) rfl (fun u => ?_) fun u => usedBy_newLeaf
    rw [Bool.eq_iff_iff, carriesAt_newLeaf hp]
    simp [hlen]
  split := by
    intro tr path prev m pnode mnode c d k hS hp ht hc hm h0 hk hd hI
    obtain ⟨mnode', hm', hl, -⟩ := hS.child hp hc
    obtain rfl := Option.some.inj (hm'.symm.trans hm)
    obtain ⟨r, hr₀, -⟩ := hS.root_node
    have hlen : root ≠ tr.nodes.length := Nat.ne_of_lt (Heap.lt_of_read hr₀)
    have hroot : ∀ u, (tr.splitTree prev c m mnode' d k).carriesAt u root =
        tr.carriesAt u root := by
      intro u
      rw [Bool.eq_iff_iff, carriesAt_splitTree hp]
      simp [hlen]
    have hcount : mnode'.text.charCount = mnode'.text.text.length := hl.counted
    have hI' : Exact (tr.splitTree prev c m mnode' d k) := hI.congr rfl hroot fun u =>
      usedBy_splitTree hm (hS.child_ne hp hc).symm (by omega)
    exact hI'.ensureTenant (by rw [hroot]; exact hS.root_carries hp ht) (split_upper hp hm) hlen.symm
  full := by
    intro tr path prev m pnode mnode c hS hp ht hc hm hI
    exact hI.ensureTenant (hS.root_carries hp ht) hm (hS.child_ne_root hp hc)
  stop := by
    intro tr path prev pnode epoch hS hp ht htext hI
    exact hI.congr rfl (fun u => carriesAt_stamp hp ht) fun u => usedBy_restamp hp ht epoch

/-! ### Eviction, removal and matches -/

theorem charsOf_dropTenant (t u : TenantId) (nd : Node) :
    (nd.dropTenant t).charsOf u = if u = t then 0 else nd.charsOf u := by
  rw [Node.charsOf, Node.carries_dropTenant]
  by_cases hu : u = t
  · simp [hu]
  · simp only [hu, ne_eq, not_false_eq_true, decide_true, Bool.true_and, if_false]
    rfl

/-- The sums after a removal at a leaf. -/
theorem Shape.usedBy_detach (hS : Shape tr path) (hn : tr.nodes[n]? = some nd)
    (ht : nd.carries t = true) (hleaf : tr.childCarries nd t = false) :
    (tr.detachTenant t n).1.usedBy u + (if u = t then nd.text.charCount else 0) = tr.usedBy u := by
  have hsum := hS.detach_sum hn ht hleaf (Node.charsOf u) (fun _ _ => rfl)
  rw [charsOf_dropTenant] at hsum
  simp only [usedBy]
  by_cases hu : u = t
  · subst hu
    rw [if_pos rfl, charsOf_of_carries ht] at hsum
    rw [if_pos rfl]
    omega
  · rw [if_neg hu] at hsum ⊢
    omega

/-- A root that is a leaf for a tenant is its only carrier, so the tenant counts nothing. -/
theorem Shape.usedBy_of_root_leaf (hS : Shape tr path) (hn : tr.nodes[root]? = some nd)
    (hleaf : tr.childCarries nd t = false) : tr.usedBy t = 0 := by
  refine Heap.sum_eq_zero _ fun m mnode hm => ?_
  by_cases hmt : mnode.carries t = true
  · have hpath := hS.path_of_carries hm hmt
    generalize path m = w at hpath
    cases hpath with
    | refl =>
      obtain ⟨r, hr, htext, -⟩ := hS.root_node
      cases hr.symm.trans hm
      simp [Node.charsOf, htext, NodeText.empty]
    | step hx hc hx' tail =>
      cases hn.symm.trans hx
      have := not_carries_of_childCarries hleaf hc hx'
      rw [hS.carries_up tail hx' hm hmt] at this
      cases this
  · exact charsOf_of_not_carries (by simpa using hmt)

/-- An eviction takes from the count what the node had counted. -/
theorem evictKeeps_exact (path : NodeId → Str) (maxSize : Nat) :
    EvictKeeps path maxSize Exact := by
  intro tr t n nd hS hn ht hleaf hused h u
  have hroot := hS.root_carries hn ht
  have hcount : tr.tenantCharCount.lookup t = some (tr.usedBy t) := by rw [h t, if_pos hroot]
  -- the root is never the node: a tenant it alone carries is within every size
  have h0 : n ≠ root := by
    rintro rfl
    have := hused _ hcount
    rw [hS.usedBy_of_root_leaf hn hleaf] at this
    omega
  have hD := hS.evicted (k := nd.text.charCount) hn ht hleaf
  have hsum := (hS.withCounts (andModify t (· - nd.text.charCount) tr.tenantCharCount)).usedBy_detach
    (u := u) hn ht hleaf
  have hcarries : (tr.evictAt t n nd.text.charCount).carriesAt u root = tr.carriesAt u root := by
    rw [hD.carries]
    simp [Ne.symm h0, carriesAt]
  have hsum' : (tr.evictAt t n nd.text.charCount).usedBy u +
      (if u = t then nd.text.charCount else 0) = tr.usedBy u := hsum
  rw [hD.counts, hcarries, lookup_andModify]
  by_cases hu : u = t
  · subst hu
    rw [if_pos rfl, hcount, if_pos hroot, Option.map_some]
    rw [if_pos rfl] at hsum'
    congr 1
    omega
  · rw [if_neg hu, h u]
    rw [if_neg hu] at hsum'
    rw [← hsum', Nat.add_zero]

/-- The counts of the tenants other than the one being removed. -/
def ExactBut (t : TenantId) (tr : Tree) : Prop :=
  ∀ u, u ≠ t → tr.tenantCharCount.lookup u =
    if tr.carriesAt u root then some (tr.usedBy u) else none

theorem ExactBut.detach (hS : Shape tr path) (hl : LeafFor tr t n) (h : ExactBut t tr) :
    ExactBut t (tr.detachTenant t n).1 := by
  intro u hu
  obtain ⟨nd, hn, ht, hleaf⟩ := hl
  have hD := (hS.detached hn ht hleaf).1
  have hsum := hS.usedBy_detach (u := u) hn ht hleaf
  rw [if_neg hu, Nat.add_zero] at hsum
  rw [hD.counts, hsum, hD.carries, h u hu]
  simp [hu]

theorem Shape.removeTenant_exact (hS : Shape tr path) (h : Exact tr) (ord : IterOrder)
    (t : TenantId) :
    ∃ tr', tr.removeTenant ord t = some tr' ∧ Shape tr' path ∧ Exact tr' := by
  obtain ⟨tr', hrun, hS', hb, hno⟩ := removeTenant_spec ord hS (I := ExactBut t)
    (fun hS hl hb => hb.detach hS hl) (fun u _ => h u)
  refine ⟨_, hrun, hS'.withCounts _, fun u => ?_⟩
  rw [lookup_del]
  by_cases hu : u = t
  · subst hu
    rw [if_pos rfl, if_neg]
    have := hno root
    simpa [carriesAt] using this
  · rw [if_neg hu]
    exact hb u hu

/-- A match leaves the counts exact, unless it invents a tenant at the root. -/
theorem Exact.touch (h : Exact tr) (ord : IterOrder) (hn : tr.nodes[n]? = some nd)
    (hne : epoch &&& 7 = 0 → nd.tenantLastAccessTime ≠ []) : Exact (tr.touch ord n nd epoch) := by
  have hcache : Exact (tr.modify n (Node.cache (selectTenant ord n nd).2)) :=
    h.congr rfl (fun u => carriesAt_modify (f := Node.cache (selectTenant ord n nd).2) fun _ => rfl)
      fun u => Heap.sum_modify_same (Node.charsOf u) fun _ => rfl
  have hread : (tr.modify n (Node.cache (selectTenant ord n nd).2)).nodes[n]? =
      some (nd.cache (selectTenant ord n nd).2) := Heap.modify_same hn
  rw [Tree.touch]
  split
  · next he =>
    have hc := selectTenant_carries (n := n) ord (hne he)
    exact hcache.congr rfl (fun u => carriesAt_stamp hread hc) fun u => usedBy_restamp hread hc epoch
  · exact hcache

/-! ### Over runs -/

/-- During the call no `count.saturating_sub(node_len)` has a count below the node's length. -/
def NoSaturation (ord : IterOrder) (maxSize : Nat) (tr : Tree) : Prop :=
  ∀ pq, tr.evictHeap ord = some pq → ∀ s, EvictReaches ord maxSize (tr, pq) s →
    ∀ e rest nd used, popEntry ord s.2 = some (e, rest) → s.1.nodes[e.node]? = some nd →
      evictSkips maxSize s.1 e nd = false → s.1.tenantCharCount.lookup e.tenant = some used →
      nd.text.charCount ≤ used

theorem Shape.noSaturation (hS : Shape tr path) (h : Exact tr) (ord : IterOrder) (maxSize : Nat) :
    NoSaturation ord maxSize tr := by
  intro pq hpq s hs e rest nd used _ hn hskip hused
  obtain ⟨pq', hpq', hE⟩ := evictHeap_spec ord hS
  cases hpq.symm.trans hpq'
  obtain ⟨hS', -, h'⟩ := EvictReaches.keeps (evictKeeps_exact path maxSize) hs hS hE h
  obtain ⟨-, ht, -⟩ := evictSkips_eq_false.mp hskip
  rw [h' e.tenant, if_pos (hS'.root_carries hn ht)] at hused
  cases hused
  exact charCount_le_usedBy hn ht

/-- The operation is `prefix_match_with_counts`, by itself or inside `prefix_match`. -/
def Op.isMatch : Op → Bool
  | .prefixMatchWithCounts _ => true
  | .prefixMatch _ => true
  | _ => false

/-- The accounting is right in every state of a run, and in every eviction of it. -/
structure Accounts (ops : List (IterOrder × Op)) (st₀ : Tree × Epoch) : Prop where
  agree : ∀ k st, run (ops.take k) st₀ = some st → st.1.Agree
  exact : ∀ k st ord maxSize, run (ops.take k) st₀ = some st →
    ops[k]? = some (ord, .evictTenantBySize maxSize) → NoSaturation ord maxSize st.1

/-- No match meets a root without tenants at an epoch that is a multiple of eight. -/
def MatchesOwned (ops : List (IterOrder × Op)) (st₀ : Tree × Epoch) : Prop :=
  ∀ k st ord op, run (ops.take k) st₀ = some st → ops[k]? = some (ord, op) → op.isMatch = true →
    (∃ t, st.1.carriesAt t root = true) ∨ st.2 &&& 7 ≠ 0

/-- Exact counts in a heap of the right shape. -/
def Sound (tr : Tree) : Prop := WellFormed tr ∧ Exact tr

/-- One call keeps the counts exact, if it does not invent a tenant. -/
theorem Sound.apply {st st' : Tree × Epoch} (h : Sound st.1) {ord : IterOrder} {op : Op}
    (hc : op.isMatch = true → (∃ t, st.1.carriesAt t root = true) ∨ st.2 &&& 7 ≠ 0)
    (hstep : apply ord op st = some st') : Sound st'.1 := by
  obtain ⟨⟨path, hS⟩, hx⟩ := h
  have htouch : ∀ text n nd, op = .prefixMatchWithCounts text ∨ op = .prefixMatch text →
      st.1.nodes[n]? = some nd → (n ≠ root → nd.tenantLastAccessTime ≠ []) →
      Exact (st.1.touch ord n nd st.2) := by
    intro text n nd hmatch hn hne
    refine hx.touch ord hn fun h7 => ?_
    by_cases h0 : n = root
    · subst h0
      have hop : op.isMatch = true := by obtain rfl | rfl := hmatch <;> rfl
      obtain ⟨t, ht⟩ := (hc hop).resolve_right fun h => h h7
      rw [carriesAt_eq hn] at ht
      exact Node.tenants_ne_nil ht
    · exact hne h0
  obtain ⟨st'', hrun, hw, hx'⟩ := hS.apply_rule hx ord op st.2
    (fun text tenant => (insertRule_exact tenant text).insert hS st.2 (hS.exact_ensureRoot hx tenant))
    htouch
    (fun _ _ _ hn ht => hx.congr rfl (fun _ => carriesAt_stamp hn ht) fun _ => usedBy_restamp hn ht st.2)
    (fun maxSize => evictTenantBySize_spec ord maxSize (evictKeeps_exact path maxSize) hS hx)
    (fun tenant => hS.removeTenant_exact hx ord tenant)
  cases hstep.symm.trans hrun
  exact ⟨hw, hx'⟩

/-- A match at a root without tenants, in its turn to write, leaves a tenant without a count. -/
theorem Sound.touch_phantom (h : Sound tr) (ord : IterOrder) (text : Str)
    (hroot : ∀ t, tr.carriesAt t root = false) (h7 : epoch &&& 7 = 0) :
    ∃ tr', WellFormed tr' ∧ ¬ Exact tr' ∧ ∃ r : PrefixMatchResult,
      tr.prefixMatchWithCounts ord text epoch = some (tr', epoch + 1, r) := by
  obtain ⟨⟨path, hS⟩, hx⟩ := h
  obtain ⟨n, nd, j, hn, -, hne, hrun⟩ := prefixMatchWithCounts_spec ord hS text epoch
  -- nothing hangs below a root without tenants
  have h0 : n = root := by
    by_contra h0
    obtain ⟨t, ht⟩ := Node.exists_carries (hne h0)
    have := hS.root_carries hn ht
    rw [hroot] at this
    cases this
  subst h0
  refine ⟨_, ⟨path, hS.touch ord hn hne epoch⟩, fun hx' => ?_, _, hrun⟩
  have hcount : (tr.touch ord root nd epoch).tenantCharCount = tr.tenantCharCount := by
    rw [Tree.touch]
    split <;> rfl
  have hcarries : (tr.touch ord root nd epoch).carriesAt (selectTenant ord root nd).1 root = true := by
    simp only [Tree.touch, if_pos h7]
    rw [carriesAt_eq (Heap.modify_same (Heap.modify_same hn)), Node.carries_stamp]
    simp
  have h₁ := hx' (selectTenant ord root nd).1
  rw [hcount, hx, hroot, hcarries] at h₁
  cases h₁

theorem Sound.apply_phantom {st : Tree × Epoch} (h : Sound st.1) (ord : IterOrder) {op : Op}
    (hmatch : op.isMatch = true) (hroot : ∀ t, st.1.carriesAt t root = false)
    (h7 : st.2 &&& 7 = 0) :
    ∃ tr', WellFormed tr' ∧ ¬ Exact tr' ∧ Tree.apply ord op st = some (tr', st.2 + 1) := by
  cases op with
  | prefixMatchWithCounts text =>
    obtain ⟨tr', hw, hbad, r, hrun⟩ := h.touch_phantom ord text hroot h7
    exact ⟨tr', hw, hbad, by simp [Tree.apply, hrun]⟩
  | prefixMatch text =>
    obtain ⟨tr', hw, hbad, r, hrun⟩ := h.touch_phantom ord text hroot h7
    exact ⟨tr', hw, hbad, by simp [Tree.apply, prefixMatch_eq hrun]⟩
  | _ => cases hmatch

/-- The call does not invent a tenant: it is no match, or the root has a tenant, or it is not the
call's turn to write. -/
def InventsNothing (st : Tree × Epoch) (o : IterOrder × Op) : Prop :=
  o.2.isMatch = true → (∃ t, st.1.carriesAt t root = true) ∨ st.2 &&& 7 ≠ 0

theorem Sound.run {ops : List (IterOrder × Op)} {st₀ : Tree × Epoch} (h₀ : Sound st₀.1)
    (hm : MatchesOwned ops st₀) : ∀ k st, run (ops.take k) st₀ = some st → Sound st.1 := by
  have step : ∀ {st : Tree × Epoch} {o : IterOrder × Op} {st' : Tree × Epoch}, Sound st.1 →
      InventsNothing st o → Tree.apply o.1 o.2 st = some st' → Sound st'.1 :=
    fun h hc hstep => h.apply hc hstep
  exact Runs.exec_invariant step h₀ fun k st o hst ho => hm k st o.1 o.2 hst ho

/-- **The accounting comes apart in one way only**: over a run from the empty tree it is right
throughout if and only if no match meets a root without tenants in its turn to write. -/
theorem run_accounts_iff (ops : List (IterOrder × Op)) (epoch : Epoch) :
    Accounts ops (new, epoch) ↔ MatchesOwned ops (new, epoch) := by
  have start : Sound (new, epoch).1 := ⟨wellFormed_new, exact_new⟩
  constructor
  · intro hA k st ord op hst ho hmatch
    obtain ⟨st', hst', path, hS⟩ := run_total (ops.take k) epoch
    cases hst.symm.trans hst'
    have hsound : Sound st.1 := ⟨⟨path, hS⟩, hS.exact_of_agree ord (hA.agree k st hst)⟩
    by_contra hcon
    push Not at hcon
    obtain ⟨hroot, h7⟩ := hcon
    obtain ⟨tr', ⟨path', hS'⟩, hbad, hstep⟩ := hsound.apply_phantom ord hmatch
      (by simpa using hroot) h7
    have hrun : run (ops.take (k + 1)) (new, epoch) = some (tr', st.2 + 1) := by
      rw [run, Runs.exec_take_succ _ ho, ← run, hst]
      exact hstep
    exact hbad (hS'.exact_of_agree ord (hA.agree (k + 1) _ hrun))
  · intro hm
    have hsound := start.run hm
    refine ⟨fun k st h => ?_, fun k st ord maxSize h ho => ?_⟩
    · obtain ⟨⟨path, hS⟩, hx⟩ := hsound k st h
      exact hS.agree_of_exact hx
    · obtain ⟨⟨path, hS⟩, hx⟩ := hsound k st h
      exact hS.noSaturation hx ord maxSize

/-- One match against an empty tree, at epoch `0`. -/
theorem not_accounts_match_new :
    ¬ Accounts [(IterOrder.inserted, .prefixMatch ['x'])] (new, 0) := by
  intro hA
  obtain ⟨tr', ⟨path, hS⟩, hbad, hstep⟩ :=
    (show Sound ((new, 0) : Tree × Epoch).1 from ⟨wellFormed_new, exact_new⟩).apply_phantom
      IterOrder.inserted (show (Op.prefixMatch ['x']).isMatch = true from rfl) (fun t => rfl) rfl
  have hrun : run [(IterOrder.inserted, .prefixMatch ['x'])] (new, 0) = some (tr', 0 + 1) := by
    simp only [run, Runs.exec, hstep, Option.bind_some]
  exact hbad (hS.exact_of_agree IterOrder.inserted (hA.agree 1 _ hrun))

end

end QwenStack.Tree
