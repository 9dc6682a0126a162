import QwenStack.Tree.Eviction
import QwenStack.Tree.Insert

/-!
# Tree — the representation invariant over runs

Every operation returns and keeps the shape of the heap: the two matches are treated here, `insert`,
`evict_tenant_by_size` and `remove_tenant` in the modules on their loops.
-/

namespace QwenStack.Tree
open Assoc

section
variable {tr : Tree} {path : NodeId → Str} {n : NodeId} {nd : Node} {t : TenantId}

/-! ### The matches -/

theorem Shape.upClosed (hS : Shape tr path) (t : TenantId) : UpClosed tr (·.carries t) := by
  intro p pnode c n nd hp hc hn ht
  obtain ⟨nd', hn', hl, -⟩ := hS.child hp hc
  cases hn'.symm.trans hn
  exact hl.tenants_sub t ht

/-- The node a descent from the root ends at. -/
theorem Descended.node {admits : Node → Bool} {text : Str} {j : Nat} {r : Node}
    (h : Descended tr admits root text n j) (hr : tr.nodes[root]? = some r) :
    ∃ nd, tr.nodes[n]? = some nd ∧ (n ≠ root → admits nd = true ∧ nd.tenantLastAccessTime ≠ []) := by
  rcases h.at_curr with rfl | ⟨nd, hn, ha, hne⟩
  · exact ⟨r, hr, fun h => absurd rfl h⟩
  · exact ⟨nd, hn, fun _ => ⟨ha, hne⟩⟩

theorem firstTenant_carries (ord : IterOrder) (hne : nd.tenantLastAccessTime ≠ []) :
    nd.carries (firstTenant ord n nd) = true := by
  have hperm := ord.tenants_perm n nd.tenantLastAccessTime
  have hne' : ord.tenants n nd.tenantLastAccessTime ≠ [] := fun h =>
    hne (List.perm_nil.mp (h ▸ hperm).symm)
  obtain ⟨e, l, he⟩ := List.exists_cons_of_ne_nil hne'
  have hmem : e ∈ nd.tenantLastAccessTime := hperm.mem_iff.mp (by rw [he]; exact List.mem_cons_self)
  rw [Node.carries_iff, firstTenant, he]
  exact List.mem_map_of_mem hmem

/-- The tenant a match returns is one of the node's, if it has any. -/
theorem selectTenant_carries (ord : IterOrder) (hne : nd.tenantLastAccessTime ≠ []) :
    nd.carries (selectTenant ord n nd).1 = true := by
  have hfirst := firstTenant_carries (n := n) ord hne
  rw [selectTenant]
  split
  · split
    · next h => exact h
    · exact hfirst
  · exact hfirst

/-- The node after a match has cached its answer. -/
def Node.cache (c : Option TenantId) (nd : Node) : Node := { nd with lastTenant := c }

/-- The tree after a match that ended at `n`. -/
def touch (ord : IterOrder) (n : NodeId) (nd : Node) (epoch : Epoch) (tr : Tree) : Tree :=
  let tr := tr.modify n (Node.cache (selectTenant ord n nd).2)
  if epoch &&& 7 = 0 then tr.modify n (Node.stamp (selectTenant ord n nd).1 epoch) else tr

/-- **`prefix_match_with_counts`** ends at the node of the longest spelled prefix. -/
theorem prefixMatchWithCounts_spec (ord : IterOrder) (hS : Shape tr path) (text : Str)
    (epoch : Epoch) :
    ∃ n nd j, tr.nodes[n]? = some nd ∧ Descended tr (fun _ => true) root text n j ∧
      (n ≠ root → nd.tenantLastAccessTime ≠ []) ∧
      tr.prefixMatchWithCounts ord text epoch = some (tr.touch ord n nd epoch, epoch + 1,
        ⟨(selectTenant ord n nd).1, j, text.length⟩) := by
  obtain ⟨r, hr, -⟩ := hS.root_node
  have hup : UpClosed tr (fun _ => true) := fun _ _ _ _ => rfl
  obtain ⟨n, j, hrun, hD⟩ := matchLoop_spec hS hup text.length root r text 0 hr (le_refl _)
  obtain ⟨nd, hn, hne⟩ := hD.node hr
  refine ⟨n, nd, j, hn, hD, fun h => (hne h).2, ?_⟩
  simp only [prefixMatchWithCounts, hrun, hn, Option.bind_eq_bind, Option.bind_some, Nat.zero_add]
  rfl

theorem prefixMatch_eq {ord : IterOrder} {text : Str} {epoch : Epoch} {tr' : Tree} {e' : Epoch}
    {r : PrefixMatchResult} (h : tr.prefixMatchWithCounts ord text epoch = some (tr', e', r)) :
    tr.prefixMatch ord text epoch = some (tr', e', text.take r.matchedCharCount, r.tenant) := by
  simp only [prefixMatch, h, Option.bind_eq_bind, Option.bind_some, takeChars_eq]

theorem Shape.touch (hS : Shape tr path) (ord : IterOrder) (hn : tr.nodes[n]? = some nd)
    (hne : n ≠ root → nd.tenantLastAccessTime ≠ []) (epoch : Epoch) :
    Shape (tr.touch ord n nd epoch) path := by
  have hcache : Shape (tr.modify n (Node.cache (selectTenant ord n nd).2)) path := by
    refine hS.retenant hn ⟨rfl, rfl, rfl⟩ (hS.keys_nodup hn).2 ?_ ?_ (fun _ h => h)
    · intro p pnode c hp hc
      obtain ⟨nd', hn', hl, -⟩ := hS.child hp hc
      cases hn'.symm.trans hn
      exact ⟨hl.tenants_ne, hl.tenants_sub⟩
    · intro c m mnode hc hm u hu
      obtain ⟨mnode', hm', hl, -⟩ := hS.child hn hc
      cases hm'.symm.trans hm
      exact hl.tenants_sub u hu
  have hread : (tr.modify n (Node.cache (selectTenant ord n nd).2)).nodes[n]? =
      some (nd.cache (selectTenant ord n nd).2) := Heap.modify_same hn
  rw [Tree.touch]
  split
  · by_cases he : nd.tenantLastAccessTime = []
    · -- only the root is without tenants, and nothing is above it
      refine hcache.stamp hread (fun hp hc => ?_) hne
      exact absurd he (hne (hcache.child_ne_root hp hc))
    · exact hcache.restamp hread (selectTenant_carries ord he)
  · exact hcache

/-- **`prefix_match_tenant`** returns the longest prefix spelled to a node of the tenant. -/
theorem prefixMatchTenant_spec (hS : Shape tr path) (text : Str) (t : TenantId) (epoch : Epoch) :
    ∃ n nd j, tr.nodes[n]? = some nd ∧ Descended tr (·.carries t) root text n j ∧
      tr.prefixMatchTenant text t epoch =
        if nd.carries t then some (tr.modify n (Node.stamp t epoch), epoch + 1, text.take j)
        else some (tr, epoch, text.take j) := by
  obtain ⟨r, hr, -⟩ := hS.root_node
  obtain ⟨n, j, hrun, hD⟩ := matchLoop_spec hS (hS.upClosed t) text.length root r text 0 hr (le_refl _)
  obtain ⟨nd, hn, -⟩ := hD.node hr
  refine ⟨n, nd, j, hn, hD, ?_⟩
  simp only [prefixMatchTenant, hrun, Option.bind_eq_bind, Option.bind_some, Nat.zero_add,
    takeChars_eq, carriesAt_eq hn]

/-! ### Single calls -/

/-- The heap has the right shape. -/
def WellFormed (tr : Tree) : Prop := ∃ path, Shape tr path

theorem wellFormed_new : WellFormed new := by
  have read : ∀ {n : NodeId} {nd : Node}, new.nodes[n]? = some nd →
      n = root ∧ nd = ⟨[], NodeText.empty, [], none, none⟩ := by
    intro n nd hn
    cases n with
    | zero => exact ⟨rfl, (Option.some.inj hn).symm⟩
    | succ n => simp [new] at hn
  refine ⟨fun _ => [], ⟨_, rfl, rfl, rfl⟩, rfl, ?_, ?_, ?_⟩
  · intro p pnode c n hp hc
    obtain ⟨-, rfl⟩ := read hp
    simp at hc
  · intro n nd hn h0
    exact absurd (read hn).1 h0
  · intro n nd hn
    obtain ⟨-, rfl⟩ := read hn
    exact ⟨List.nodup_nil, List.nodup_nil⟩

/-- The shape alone is an invariant of `insert`. -/
theorem insertRule_shape (tenant : TenantId) (text : Str) :
    InsertRule tenant text (fun _ _ _ => True) (fun _ _ => True) :=
  ⟨fun _ _ _ _ _ _ _ => trivial, fun _ _ _ _ _ _ _ _ _ => trivial, fun _ _ _ _ _ _ => trivial,
    fun _ _ _ _ _ => trivial⟩

/-- **The rule for a call**: what each change of the tree keeps, every call keeps. -/
theorem Shape.apply_rule {I : Tree → Prop} (hS : Shape tr path) (hI : I tr) (ord : IterOrder) (op : Op)
    (epoch : Epoch)
    (hinsert : ∀ text tenant, ∃ tr' epoch' path', tr.insert text tenant epoch = some (tr', epoch') ∧
      Shape tr' path' ∧ I tr')
    (htouch : ∀ text n nd, op = .prefixMatchWithCounts text ∨ op = .prefixMatch text →
      tr.nodes[n]? = some nd → (n ≠ root → nd.tenantLastAccessTime ≠ []) → I (tr.touch ord n nd epoch))
    (hstamp : ∀ n nd tenant, tr.nodes[n]? = some nd → nd.carries tenant = true →
      I (tr.modify n (Node.stamp tenant epoch)))
    (hevict : ∀ maxSize, ∃ tr', tr.evictTenantBySize ord maxSize = some tr' ∧ Shape tr' path ∧ I tr')
    (hremove : ∀ tenant, ∃ tr', tr.removeTenant ord tenant = some tr' ∧ Shape tr' path ∧ I tr') :
    ∃ st', apply ord op (tr, epoch) = some st' ∧ WellFormed st'.1 ∧ I st'.1 := by
  cases op with
  | insert text tenant =>
    obtain ⟨tr', e', path', hrun, hS', hI'⟩ := hinsert text tenant
    exact ⟨(tr', e'), hrun, ⟨path', hS'⟩, hI'⟩
  | prefixMatchWithCounts text =>
    obtain ⟨n, nd, j, hn, -, hne, hrun⟩ := prefixMatchWithCounts_spec ord hS text epoch
    exact ⟨(tr.touch ord n nd epoch, epoch + 1), by simp [Tree.apply, hrun],
      ⟨path, hS.touch ord hn hne epoch⟩, htouch text n nd (.inl rfl) hn hne⟩
  | prefixMatch text =>
    obtain ⟨n, nd, j, hn, -, hne, hrun⟩ := prefixMatchWithCounts_spec ord hS text epoch
    exact ⟨(tr.touch ord n nd epoch, epoch + 1), by simp [Tree.apply, prefixMatch_eq hrun],
      ⟨path, hS.touch ord hn hne epoch⟩, htouch text n nd (.inr rfl) hn hne⟩
  | prefixMatchTenant text tenant =>
    obtain ⟨n, nd, j, hn, -, hrun⟩ := prefixMatchTenant_spec hS text tenant epoch
    by_cases ht : nd.carries tenant = true
    · rw [if_pos ht] at hrun
      exact ⟨(tr.modify n (Node.stamp tenant epoch), epoch + 1), by simp [Tree.apply, hrun],
        ⟨path, hS.restamp hn ht⟩, hstamp n nd tenant hn ht⟩
    · rw [if_neg ht] at hrun
      exact ⟨(tr, epoch), by simp [Tree.apply, hrun], ⟨path, hS⟩, hI⟩
  | evictTenantBySize maxSize =>
    obtain ⟨tr', hrun, hS', hI'⟩ := hevict maxSize
    exact ⟨(tr', epoch), by simp [Tree.apply, hrun], ⟨path, hS'⟩, hI'⟩
  | removeTenant tenant =>
    obtain ⟨tr', hrun, hS', hI'⟩ := hremove tenant
    exact ⟨(tr', epoch), by simp [Tree.apply, hrun], ⟨path, hS'⟩, hI'⟩

/-- **Every call returns** and keeps the heap well formed. -/
theorem WellFormed.apply {st : Tree × Epoch} (h : WellFormed st.1) (ord : IterOrder) (op : Op) :
    ∃ st', apply ord op st = some st' ∧ WellFormed st'.1 := by
  obtain ⟨path, hS⟩ := h
  have hremove : ∀ tenant, ∃ tr', st.1.removeTenant ord tenant = some tr' ∧ Shape tr' path ∧ True := by
    intro tenant
    obtain ⟨tr', hrun, hS', -⟩ := removeTenant_spec (t := tenant) ord hS (I := fun _ => True)
      (fun _ _ _ => trivial) trivial
    exact ⟨_, hrun, hS'.withCounts _, trivial⟩
  obtain ⟨st', hrun, hw, -⟩ := Shape.apply_rule (I := fun _ => True) hS trivial ord op st.2
    (fun text tenant => (insertRule_shape tenant text).insert hS st.2 trivial)
    (fun _ _ _ _ _ _ => trivial) (fun _ _ _ _ _ => trivial)
    (fun maxSize => evictTenantBySize_spec ord maxSize (fun _ _ _ _ _ _ => trivial) hS trivial) hremove
  exact ⟨st', hrun, hw⟩

/-! ### Runs -/

/-- **No run panics**, and every loop ends within its fuel. -/
theorem run_total (ops : List (IterOrder × Op)) (epoch : Epoch) :
    ∃ st, run ops (new, epoch) = some st ∧ WellFormed st.1 := by
  have step : ∀ (st : Tree × Epoch) (o : IterOrder × Op), WellFormed st.1 →
      ∃ st', apply o.1 o.2 st = some st' ∧ WellFormed st'.1 := fun _ o h => h.apply o.1 o.2
  exact Runs.exec_total step ops (new, epoch) wellFormed_new

/-- What a node that hangs below the root satisfies: it is stored under the first character of its
text in the children map of the node its parent pointer names. -/
structure WellPlaced (tr : Tree) (n : NodeId) (nd : Node) : Prop where
  text_ne : nd.text.text ≠ []
  counted : nd.text.charCount = nd.text.text.length
  tenants_ne : nd.tenants ≠ []
  stored : ∃ p pnode c, nd.parent = some p ∧ tr.nodes[p]? = some pnode ∧
    nd.text.text.head? = some c ∧ pnode.children.lookup c = some n ∧
    (∃ w, Path tr root p w) ∧ nd.tenants ⊆ pnode.tenants

theorem Shape.wellPlaced (hS : Shape tr path) {w : Str} (h : Path tr root n w) (h0 : n ≠ root) :
    ∃ nd, tr.nodes[n]? = some nd ∧ WellPlaced tr n nd := by
  rcases h.last with ⟨rfl, -⟩ | ⟨p, pnode, c, nd, w', hpath, hp, hc, hn, -⟩
  · exact absurd rfl h0
  · obtain ⟨nd', hn', hl, -⟩ := hS.child hp hc
    obtain rfl := Option.some.inj (hn'.symm.trans hn)
    refine ⟨nd', hn, hl.text_ne, hl.counted, ?_, p, pnode, c, hl.parent, hp, hl.first, hc,
      ⟨w', hpath⟩, fun t ht => ?_⟩
    · simpa [Node.tenants, keys] using hl.tenants_ne
    · exact Node.carries_iff.mp (hl.tenants_sub t (Node.carries_iff.mpr ht))

/-- **The representation invariant.**  After any run, from any value of the epoch counter, the
root's text is empty and every other node of the tree is well placed. -/
theorem run_wellPlaced (ops : List (IterOrder × Op)) (epoch : Epoch) :
    ∃ tr e, run ops (new, epoch) = some (tr, e) ∧
      (∃ r, tr.nodes[root]? = some r ∧ r.text.text = []) ∧
      ∀ n w, Path tr root n w → n ≠ root → ∃ nd, tr.nodes[n]? = some nd ∧ WellPlaced tr n nd := by
  obtain ⟨⟨tr, e⟩, hrun, path, hS⟩ := run_total ops epoch
  obtain ⟨r, hr, htext, -⟩ := hS.root_node
  exact ⟨tr, e, hrun, ⟨r, hr, by rw [htext]; rfl⟩, fun n w h h0 => hS.wellPlaced h h0⟩

end

end QwenStack.Tree
