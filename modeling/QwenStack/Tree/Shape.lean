import QwenStack.Support.Heap
import QwenStack.Tree.Definitions

/-!
# Tree — the shape of the node heap

`Shape tr path` is the representation invariant over every allocated node, linked or not: each
entry of a children map leads to a node that names its parent, starts with the entry's character,
has a correct cached count, carries a tenant, and carries none its parent lacks; and a node that
carries a tenant is linked.  `path` is a ghost: the text spelled from the root to each node.  No
operation changes the path of an existing node, a split included, and because paths grow along
links the links have no cycle.

There is one lemma per way the code writes to the heap: a change of one node's tenants
(`Shape.retenant`), a new leaf (`Shape.newLeaf`), a split (`Shape.split`), and the removal of a
tenant at a leaf, with the unlinking that may follow (`Shape.detachTenant`).
-/

namespace QwenStack.Tree
open Assoc

/-! ### Nodes -/

@[simp] theorem Node.carries_stamp (t u : TenantId) (e : Epoch) (nd : Node) :
    (nd.stamp t e).carries u = (decide (u = t) || nd.carries u) := by
  simp only [Node.stamp, Node.carries, contains, lookup_put]
  by_cases h : u = t <;> simp [h]

@[simp] theorem Node.carries_dropTenant (t u : TenantId) (nd : Node) :
    (nd.dropTenant t).carries u = (decide (u ≠ t) && nd.carries u) := by
  simp only [Node.dropTenant, Node.carries, contains, lookup_del]
  by_cases h : u = t <;> simp [h]

theorem Node.carries_iff {nd : Node} {t : TenantId} : nd.carries t = true ↔ t ∈ nd.tenants :=
  contains_iff

theorem Node.exists_carries {nd : Node} (h : nd.tenantLastAccessTime ≠ []) :
    ∃ t, nd.carries t = true := by
  obtain ⟨e, l, he⟩ := List.exists_cons_of_ne_nil h
  exact ⟨e.1, by rw [Node.carries_iff, Node.tenants, he]; exact List.mem_cons_self⟩

theorem Node.tenants_ne_nil {nd : Node} {t : TenantId} (h : nd.carries t = true) :
    nd.tenantLastAccessTime ≠ [] := by
  intro h0
  simp [Node.carries, contains, h0] at h

theorem carriesAt_eq {tr : Tree} {n : NodeId} {nd : Node} (h : tr.nodes[n]? = some nd)
    (t : TenantId) : tr.carriesAt t n = nd.carries t := by
  simp [carriesAt, h]

theorem carriesAt_iff {tr : Tree} {n : NodeId} {t : TenantId} :
    tr.carriesAt t n = true ↔ ∃ nd, tr.nodes[n]? = some nd ∧ nd.carries t = true := by
  rw [carriesAt, Option.any_eq_true]

theorem childCarries_iff {tr : Tree} {nd : Node} {t : TenantId} :
    tr.childCarries nd t = true ↔ ∃ e ∈ nd.children, tr.carriesAt t e.2 = true := by
  rw [childCarries, List.any_eq_true]

/-! ### The invariant -/

/-- What a node owes the node it hangs under: `nd` is the child of `pnode`, at address `p`,
under the character `c`. -/
structure Linked (p : NodeId) (pnode : Node) (c : Char) (nd : Node) : Prop where
  parent : nd.parent = some p
  first : nd.text.text.head? = some c
  counted : nd.text.Counted
  tenants_ne : nd.tenantLastAccessTime ≠ []
  tenants_sub : ∀ t, nd.carries t = true → pnode.carries t = true

/-- **The shape of the heap**, with the path of each node. -/
structure Shape (tr : Tree) (path : NodeId → Str) : Prop where
  root_node : ∃ r, tr.nodes[root]? = some r ∧ r.text = NodeText.empty ∧ r.parent = none
  path_root : path root = []
  child : ∀ {p : NodeId} {pnode : Node} {c : Char} {n : NodeId},
    tr.nodes[p]? = some pnode → pnode.children.lookup c = some n →
    ∃ nd, tr.nodes[n]? = some nd ∧ Linked p pnode c nd ∧ path n = path p ++ nd.text.text
  attached : ∀ {n : NodeId} {nd : Node}, tr.nodes[n]? = some nd → n ≠ root →
    nd.tenantLastAccessTime ≠ [] →
    ∃ (p : NodeId) (pnode : Node) (c : Char),
      tr.nodes[p]? = some pnode ∧ pnode.children.lookup c = some n
  keys_nodup : ∀ {n : NodeId} {nd : Node}, tr.nodes[n]? = some nd →
    (keys nd.children).Nodup ∧ (keys nd.tenantLastAccessTime).Nodup

theorem Linked.text_ne {p : NodeId} {pnode nd : Node} {c : Char} (h : Linked p pnode c nd) :
    nd.text.text ≠ [] := by
  intro h0
  have := h.first
  simp [h0] at this

/-- Only the labels of the two nodes matter. -/
theorem Linked.congr {p : NodeId} {pnode pnode' nd : Node} {c : Char} (h : Linked p pnode c nd)
    (ht : pnode'.tenantLastAccessTime = pnode.tenantLastAccessTime) : Linked p pnode' c nd :=
  ⟨h.parent, h.first, h.counted, h.tenants_ne, fun t hc => by
    have := h.tenants_sub t hc
    rwa [Node.carries, ht]⟩

section
variable {tr : Tree} {path : NodeId → Str} {p n : NodeId} {pnode nd : Node} {c : Char}

section
variable (hS : Shape tr path) (hp : tr.nodes[p]? = some pnode) (hc : pnode.children.lookup c = some n)
include hS hp hc

theorem Shape.path_lt : (path p).length < (path n).length := by
  obtain ⟨nd, -, hl, hpath⟩ := hS.child hp hc
  have := List.length_pos_iff.mpr hl.text_ne
  rw [hpath, List.length_append]
  omega

theorem Shape.child_ne : n ≠ p := by
  rintro rfl
  exact absurd (hS.path_lt hp hc) (lt_irrefl _)

theorem Shape.child_ne_root : n ≠ root := by
  rintro rfl
  have := hS.path_lt hp hc
  rw [hS.path_root] at this
  simp at this

end

/-- A node hangs under one node, at one character. -/
theorem Shape.child_inj (hS : Shape tr path) {p' : NodeId} {pnode' : Node} {c' : Char}
    (hp : tr.nodes[p]? = some pnode) (hc : pnode.children.lookup c = some n)
    (hp' : tr.nodes[p']? = some pnode') (hc' : pnode'.children.lookup c' = some n) :
    p = p' ∧ c = c' := by
  obtain ⟨nd, hn, hl, -⟩ := hS.child hp hc
  obtain ⟨nd', hn', hl', -⟩ := hS.child hp' hc'
  obtain rfl : nd = nd' := Option.some.inj (hn.symm.trans hn')
  exact ⟨Option.some.inj (hl.parent.symm.trans hl'.parent),
    Option.some.inj (hl.first.symm.trans hl'.first)⟩

/-- A tenant of a node other than the root is a tenant of the node above it. -/
theorem Shape.up (hS : Shape tr path) (hn : tr.nodes[n]? = some nd) (h0 : n ≠ root)
    {t : TenantId} (ht : nd.carries t = true) :
    ∃ (p : NodeId) (pnode : Node) (c : Char), tr.nodes[p]? = some pnode ∧
      pnode.children.lookup c = some n ∧
      Linked p pnode c nd ∧ pnode.carries t = true ∧ path n = path p ++ nd.text.text := by
  obtain ⟨p, pnode, c, hp, hc⟩ := hS.attached hn h0 (Node.tenants_ne_nil ht)
  obtain ⟨nd', hn', hl, hpath⟩ := hS.child hp hc
  obtain rfl : nd' = nd := Option.some.inj (hn'.symm.trans hn)
  exact ⟨p, pnode, c, hp, hc, hl, hl.tenants_sub t ht, hpath⟩

/-- Every tenant is a tenant of the root. -/
theorem Shape.root_carries (hS : Shape tr path) {t : TenantId} :
    ∀ {n : NodeId} {nd : Node}, tr.nodes[n]? = some nd → nd.carries t = true →
      tr.carriesAt t root = true := by
  -- by induction on the length of the path
  suffices ∀ (k : Nat) (n : NodeId) (nd : Node), (path n).length = k → tr.nodes[n]? = some nd →
      nd.carries t = true →
      tr.carriesAt t root = true from fun {n nd} hn ht => this _ n nd rfl hn ht
  intro k
  induction k using Nat.strong_induction_on with
  | _ k ih =>
    intro n nd hk hn ht
    by_cases h0 : n = root
    · subst h0
      rwa [carriesAt_eq hn]
    · obtain ⟨p, pnode, c, hp, hc, -, hpt, -⟩ := hS.up hn h0 ht
      exact ih _ (hk ▸ hS.path_lt hp hc) p pnode rfl hp hpt

/-! ### A change of one node's tenants -/

/-- `f` touches the tenants and the cache of a node only. -/
structure Relabels (f : Node → Node) (nd : Node) : Prop where
  children : (f nd).children = nd.children
  text : (f nd).text = nd.text
  parent : (f nd).parent = nd.parent

/-- **A change of one node's tenants.**  The new tenants are tenants of the node above, and
include those of the nodes below. -/
theorem Shape.retenant (hS : Shape tr path) {f : Node → Node} (hn : tr.nodes[n]? = some nd)
    (hf : Relabels f nd) (hk : (keys (f nd).tenantLastAccessTime).Nodup)
    (hup : ∀ {p : NodeId} {pnode : Node} {c : Char}, tr.nodes[p]? = some pnode →
      pnode.children.lookup c = some n →
      (f nd).tenantLastAccessTime ≠ [] ∧ ∀ t, (f nd).carries t = true → pnode.carries t = true)
    (hdown : ∀ {c : Char} {m : NodeId} {mnode : Node}, nd.children.lookup c = some m →
      tr.nodes[m]? = some mnode →
      ∀ t, mnode.carries t = true → (f nd).carries t = true)
    (hat : n ≠ root → (f nd).tenantLastAccessTime ≠ [] → nd.tenantLastAccessTime ≠ []) :
    Shape (tr.modify n f) path where
  root_node := by
    obtain ⟨r, hr, ht, hp⟩ := hS.root_node
    by_cases h0 : n = root
    · subst h0
      obtain rfl : nd = r := Option.some.inj (hn.symm.trans hr)
      exact ⟨f nd, Heap.modify_same hn, hf.text.trans ht, hf.parent.trans hp⟩
    · exact ⟨r, (Heap.modify_other h0).trans hr, ht, hp⟩
  path_root := hS.path_root
  child := by
    intro p pnode c m hp hc
    rcases Heap.modify_inv hp with ⟨rfl, nd', hn', rfl⟩ | ⟨hne, hp'⟩
    · obtain rfl : nd' = nd := Option.some.inj (hn'.symm.trans hn)
      rw [hf.children] at hc
      obtain ⟨mnode, hm, hl, hpath⟩ := hS.child hn hc
      refine ⟨mnode, (Heap.modify_other (hS.child_ne hn hc).symm).trans hm, ?_, hpath⟩
      exact { hl with tenants_sub := hdown hc hm }
    · obtain ⟨mnode, hm, hl, hpath⟩ := hS.child hp' hc
      by_cases hmn : n = m
      · subst hmn
        obtain rfl : mnode = nd := Option.some.inj (hm.symm.trans hn)
        obtain ⟨hne', hsub⟩ := hup hp' hc
        exact ⟨f mnode, Heap.modify_same hn,
          ⟨hf.parent.trans hl.parent, by rw [hf.text]; exact hl.first,
            by rw [hf.text]; exact hl.counted, hne', hsub⟩, by rw [hf.text]; exact hpath⟩
      · exact ⟨mnode, (Heap.modify_other hmn).trans hm, hl, hpath⟩
  attached := by
    intro m mnode hm h0 hne
    have old : ∃ (p : NodeId) (pnode : Node) (c : Char),
        tr.nodes[p]? = some pnode ∧ pnode.children.lookup c = some m := by
      rcases Heap.modify_inv hm with ⟨rfl, nd', hn', rfl⟩ | ⟨-, hm'⟩
      · obtain rfl : nd' = nd := Option.some.inj (hn'.symm.trans hn)
        exact hS.attached hn h0 (hat h0 hne)
      · exact hS.attached hm' h0 hne
    obtain ⟨p, pnode, c, hp, hc⟩ := old
    by_cases hpn : n = p
    · subst hpn
      obtain rfl : pnode = nd := Option.some.inj (hp.symm.trans hn)
      exact ⟨n, f pnode, c, Heap.modify_same hn, by rw [hf.children]; exact hc⟩
    · exact ⟨p, pnode, c, (Heap.modify_other hpn).trans hp, hc⟩
  keys_nodup := by
    intro m mnode hm
    rcases Heap.modify_inv hm with ⟨rfl, nd', hn', rfl⟩ | ⟨-, hm'⟩
    · obtain rfl : nd' = nd := Option.some.inj (hn'.symm.trans hn)
      exact ⟨by rw [hf.children]; exact (hS.keys_nodup hn).1, hk⟩
    · exact hS.keys_nodup hm'

/-- The shape is about the nodes. -/
theorem Shape.of_nodes {tr' : Tree} (hS : Shape tr path) (h : tr'.nodes = tr.nodes) :
    Shape tr' path := by
  obtain ⟨h₁, h₂, h₃, h₄, h₅⟩ := hS
  exact ⟨by rw [h]; exact h₁, h₂, by rw [h]; exact h₃, by rw [h]; exact h₄, by rw [h]; exact h₅⟩

/-- A timestamp for a tenant of the node above. -/
theorem Shape.stamp (hS : Shape tr path) (hn : tr.nodes[n]? = some nd) {t : TenantId} {e : Epoch}
    (hup : ∀ {p : NodeId} {pnode : Node} {c : Char}, tr.nodes[p]? = some pnode →
      pnode.children.lookup c = some n → pnode.carries t = true)
    (hne : n ≠ root → nd.tenantLastAccessTime ≠ []) :
    Shape (tr.modify n (Node.stamp t e)) path := by
  refine hS.retenant hn ⟨rfl, rfl, rfl⟩ (nodup_keys_put (hS.keys_nodup hn).2) ?_ ?_ (fun h0 _ => hne h0)
  · intro p pnode c hp hc
    refine ⟨put_ne_nil _ _ _, fun u hu => ?_⟩
    obtain ⟨nd', hn', hl, -⟩ := hS.child hp hc
    obtain rfl : nd' = nd := Option.some.inj (hn'.symm.trans hn)
    rw [Node.carries_stamp, Bool.or_eq_true, decide_eq_true_eq] at hu
    rcases hu with rfl | hu
    · exact hup hp hc
    · exact hl.tenants_sub u hu
  · intro c m mnode hc hm u hu
    obtain ⟨mnode', hm', hl, -⟩ := hS.child hn hc
    obtain rfl : mnode' = mnode := Option.some.inj (hm'.symm.trans hm)
    rw [Node.carries_stamp, hl.tenants_sub u hu, Bool.or_true]

/-- A timestamp for a tenant the node already carries. -/
theorem Shape.restamp (hS : Shape tr path) (hn : tr.nodes[n]? = some nd) {t : TenantId} {e : Epoch}
    (ht : nd.carries t = true) : Shape (tr.modify n (Node.stamp t e)) path := by
  refine hS.stamp hn (fun hp hc => ?_) (fun _ => Node.tenants_ne_nil ht)
  obtain ⟨nd', hn', hl, -⟩ := hS.child hp hc
  obtain rfl : nd' = nd := Option.some.inj (hn'.symm.trans hn)
  exact hl.tenants_sub t ht

/-! ### New nodes -/

theorem hang_new {newNode : Node} (hp : tr.nodes[p]? = some pnode) :
    (tr.hang p c newNode).nodes[tr.nodes.length]? = some newNode := by
  have := Heap.lt_of_read hp
  rw [hang, Heap.modify_other (by omega), Heap.alloc_same]

theorem hang_prev {newNode : Node} (hp : tr.nodes[p]? = some pnode) :
    (tr.hang p c newNode).nodes[p]? = some (pnode.link c tr.nodes.length) :=
  Heap.modify_same (Heap.alloc_other hp)

theorem hang_other {newNode : Node} (hne : p ≠ n) (hn : tr.nodes[n]? = some nd) :
    (tr.hang p c newNode).nodes[n]? = some nd :=
  (Heap.modify_other hne).trans (Heap.alloc_other hn)

/-- A node after `hang` is the new one, its parent, or another old one. -/
theorem hang_inv {newNode nd' : Node} (hp : tr.nodes[p]? = some pnode)
    (hn : (tr.hang p c newNode).nodes[n]? = some nd') :
    (n = tr.nodes.length ∧ nd' = newNode) ∨ (n = p ∧ nd' = pnode.link c tr.nodes.length) ∨
      (n ≠ p ∧ tr.nodes[n]? = some nd') := by
  rcases Heap.modify_inv hn with ⟨rfl, nd, hn', rfl⟩ | ⟨hne, hn'⟩
  · rw [Heap.alloc_other hp] at hn'
    exact .inr (.inl ⟨rfl, by rw [← Option.some.inj hn']⟩)
  · rcases Heap.alloc_inv hn' with ⟨rfl, rfl⟩ | h
    · exact .inl ⟨rfl, rfl⟩
    · exact .inr (.inr ⟨hne.symm, h⟩)

/-- Old nodes keep everything but their children. -/
theorem hang_old (c : Char) (newNode : Node) (hp : tr.nodes[p]? = some pnode)
    (hn : tr.nodes[n]? = some nd) :
    ∃ nd', (tr.hang p c newNode).nodes[n]? = some nd' ∧ nd'.text = nd.text ∧
      nd'.parent = nd.parent ∧ nd'.tenantLastAccessTime = nd.tenantLastAccessTime := by
  by_cases hne : p = n
  · subst hne
    obtain rfl : pnode = nd := Option.some.inj (hp.symm.trans hn)
    exact ⟨_, hang_prev hp, rfl, rfl, rfl⟩
  · exact ⟨nd, hang_other hne hn, rfl, rfl, rfl⟩

/-- The ghost path of a new node. -/
def pathWith (path : NodeId → Str) (new : NodeId) (w : Str) : NodeId → Str :=
  Function.update path new w

@[simp] theorem pathWith_new (new : NodeId) (w : Str) : pathWith path new w new = w :=
  Function.update_self ..

theorem pathWith_old {new : NodeId} {w : Str} (h : n ≠ new) : pathWith path new w n = path n :=
  Function.update_of_ne h ..

/-- **A new leaf** under a free character. -/
theorem Shape.newLeaf (hS : Shape tr path) {tenant : TenantId} {remaining : Str} (epoch : Epoch)
    (hp : tr.nodes[p]? = some pnode) (ht : pnode.carries tenant = true)
    (hv : pnode.children.lookup c = none) (hr : remaining.head? = some c) :
    Shape (tr.newLeaf tenant epoch p c remaining)
      (pathWith path tr.nodes.length (path p ++ remaining)) := by
  have hpL := Heap.lt_of_read hp
  have old : ∀ {n : NodeId} {nd : Node}, tr.nodes[n]? = some nd →
      pathWith path tr.nodes.length (path p ++ remaining) n = path n :=
    fun hn => pathWith_old (Nat.ne_of_lt (Heap.lt_of_read hn))
  have hp' : (tr.addCount tenant remaining.length).nodes[p]? = some pnode := hp
  refine ⟨?_, ?_, ?_, ?_, ?_⟩
  · obtain ⟨r, hr, htext, hpar⟩ := hS.root_node
    obtain ⟨r', hr', htext', hpar', -⟩ := hang_old _ _ hp'
      (show (tr.addCount tenant remaining.length).nodes[root]? = some r from hr)
    exact ⟨r', hr', htext'.trans htext, hpar'.trans hpar⟩
  · obtain ⟨r, hr, -⟩ := hS.root_node
    rw [old hr, hS.path_root]
  · intro q qnode c' m hq hc
    rcases hang_inv hp' hq with ⟨rfl, rfl⟩ | ⟨rfl, rfl⟩ | ⟨-, hq'⟩
    · simp at hc
    · simp only [Node.link, lookup_put] at hc
      split at hc
      · next hcc =>
        subst hcc
        cases hc
        refine ⟨_, hang_new hp', ⟨rfl, hr, rfl, put_ne_nil _ _ _, fun u hu => ?_⟩, ?_⟩
        · have hu' : u = tenant := by
            simp only [Node.carries, contains, lookup_put, List.lookup_nil] at hu
            by_contra hne
            simp [hne] at hu
          subst hu'
          exact ht
        · change pathWith path tr.nodes.length (path q ++ remaining) tr.nodes.length = _
          rw [pathWith_new, old hp]
          rfl
      · obtain ⟨mnode, hm, hl, hpath⟩ := hS.child hp hc
        refine ⟨mnode, hang_other (hS.child_ne hp hc).symm hm, hl.congr rfl, ?_⟩
        rw [old hm, old hp, hpath]
    · obtain ⟨mnode, hm, hl, hpath⟩ := hS.child hq' hc
      have hm₀ : (tr.addCount tenant remaining.length).nodes[m]? = some mnode := hm
      obtain ⟨mnode', hm', e₁, e₂, e₃⟩ := hang_old _ _ hp' hm₀
      refine ⟨mnode', hm', ⟨e₂.trans hl.parent, e₁ ▸ hl.first, e₁ ▸ hl.counted, e₃ ▸ hl.tenants_ne,
        fun u hu => hl.tenants_sub u ?_⟩, ?_⟩
      · rwa [Node.carries, ← e₃]
      · rw [old hm, old hq', e₁, hpath]
  · intro m mnode hm h0 hne
    rcases hang_inv hp' hm with ⟨rfl, rfl⟩ | hm'
    · exact ⟨p, _, c, hang_prev hp', by simp [Node.link, lookup_put, addCount]⟩
    · have hne' : ∃ mnode', tr.nodes[m]? = some mnode' ∧ mnode'.tenantLastAccessTime ≠ [] := by
        rcases hm' with ⟨rfl, rfl⟩ | ⟨-, hm'⟩
        · exact ⟨pnode, hp, hne⟩
        · exact ⟨mnode, hm', hne⟩
      obtain ⟨mnode', hm'', hne''⟩ := hne'
      obtain ⟨q, qnode, c', hq, hc⟩ := hS.attached hm'' h0 hne''
      by_cases hqp : p = q
      · subst hqp
        obtain rfl : pnode = qnode := Option.some.inj (hp.symm.trans hq)
        refine ⟨p, _, c', hang_prev hp', ?_⟩
        rw [Node.link, lookup_put, if_neg, hc]
        rintro rfl
        rw [hv] at hc
        cases hc
      · exact ⟨q, qnode, c', hang_other hqp hq, hc⟩
  · intro m mnode hm
    rcases hang_inv hp' hm with ⟨rfl, rfl⟩ | ⟨rfl, rfl⟩ | ⟨-, hm'⟩
    · exact ⟨List.nodup_nil, nodup_keys_put List.nodup_nil⟩
    · exact ⟨nodup_keys_put (hS.keys_nodup hp).1, (hS.keys_nodup hp).2⟩
    · exact hS.keys_nodup hm'

/-! ### The split -/

/-- The node a split puts above `m`: the first `k` characters, the same tenants. -/
def upperNode (p m : NodeId) (d : Char) (k : Nat) (mnode : Node) : Node :=
  ⟨put d m [], ⟨mnode.text.text.take k, k⟩, mnode.tenantLastAccessTime, some p, mnode.lastTenant⟩

/-- What a split leaves of the matched node. -/
def lowerNode (new : NodeId) (k : Nat) (mnode nd : Node) : Node :=
  { nd with
    text := ⟨mnode.text.text.drop k, mnode.text.charCount - k⟩
    parent := some new }

/-- The heap after a split. -/
def splitTree (p : NodeId) (c : Char) (m : NodeId) (mnode : Node) (d : Char) (k : Nat) (tr : Tree) :
    Tree :=
  (tr.hang p c (upperNode p m d k mnode)).modify m (lowerNode tr.nodes.length k mnode)

variable {m : NodeId} {mnode : Node} {d : Char} {k : Nat}

theorem splitNode_eq (tr : Tree) (m : NodeId) (hl : Linked p pnode c mnode) (h0 : 0 < k)
    (hk : k < mnode.text.charCount) :
    ∃ d, (mnode.text.text.drop k).head? = some d ∧
      tr.splitNode p c m mnode k = some (tr.splitTree p c m mnode d k, tr.nodes.length) := by
  have hlen : k < mnode.text.text.length := hl.counted ▸ hk
  obtain ⟨d, l, hd⟩ := List.exists_cons_of_ne_nil
    (show mnode.text.text.drop k ≠ [] by simp [List.drop_eq_nil_iff, hlen])
  refine ⟨d, by rw [hd]; rfl, ?_⟩
  simp only [splitNode, NodeText.splitAtChar_eq hl.counted h0 hk, NodeText.firstChar, hd,
    List.head?_cons, Option.bind_eq_bind, Option.bind_some, splitTree, upperNode]
  rw [← hd]
  rfl

theorem split_upper (hp : tr.nodes[p]? = some pnode) (hm : tr.nodes[m]? = some mnode) :
    (tr.splitTree p c m mnode d k).nodes[tr.nodes.length]? = some (upperNode p m d k mnode) :=
  (Heap.modify_other (Nat.ne_of_lt (Heap.lt_of_read hm))).trans (hang_new hp)

theorem split_lower (hm : tr.nodes[m]? = some mnode) (hne : p ≠ m) :
    (tr.splitTree p c m mnode d k).nodes[m]? = some (lowerNode tr.nodes.length k mnode mnode) :=
  Heap.modify_same (hang_other hne hm)

theorem split_prev (hp : tr.nodes[p]? = some pnode) (hne : p ≠ m) :
    (tr.splitTree p c m mnode d k).nodes[p]? = some (pnode.link c tr.nodes.length) :=
  (Heap.modify_other hne.symm).trans (hang_prev hp)

theorem split_other (hnp : p ≠ n) (hnm : m ≠ n) (hn : tr.nodes[n]? = some nd) :
    (tr.splitTree p c m mnode d k).nodes[n]? = some nd :=
  (Heap.modify_other hnm).trans (hang_other hnp hn)

theorem split_inv {nd' : Node} (hp : tr.nodes[p]? = some pnode) (hm : tr.nodes[m]? = some mnode)
    (hne : p ≠ m) (hn : (tr.splitTree p c m mnode d k).nodes[n]? = some nd') :
    (n = tr.nodes.length ∧ nd' = upperNode p m d k mnode) ∨
      (n = p ∧ nd' = pnode.link c tr.nodes.length) ∨
      (n = m ∧ nd' = lowerNode tr.nodes.length k mnode mnode) ∨
      (p ≠ n ∧ m ≠ n ∧ tr.nodes[n]? = some nd') := by
  rcases Heap.modify_inv hn with ⟨rfl, nd, hn', rfl⟩ | ⟨hmn, hn'⟩
  · rw [hang_other hne hm] at hn'
    exact .inr (.inr (.inl ⟨rfl, by rw [Option.some.inj hn']⟩))
  · rcases hang_inv hp hn' with ⟨rfl, rfl⟩ | ⟨rfl, rfl⟩ | ⟨hnp, hn''⟩
    · exact .inl ⟨rfl, rfl⟩
    · exact .inr (.inl ⟨rfl, rfl⟩)
    · exact .inr (.inr (.inr ⟨hnp.symm, hmn, hn''⟩))

/-- A node other than the split one keeps everything but its children. -/
theorem split_old (c : Char) (mnode : Node) (d : Char) (k : Nat) (hp : tr.nodes[p]? = some pnode)
    (hne : p ≠ m) (hnm : m ≠ n) (hn : tr.nodes[n]? = some nd) :
    ∃ nd', (tr.splitTree p c m mnode d k).nodes[n]? = some nd' ∧ nd'.text = nd.text ∧
      nd'.parent = nd.parent ∧ nd'.tenantLastAccessTime = nd.tenantLastAccessTime := by
  by_cases hpn : p = n
  · subst hpn
    obtain rfl : pnode = nd := Option.some.inj (hp.symm.trans hn)
    exact ⟨_, split_prev hp hne, rfl, rfl, rfl⟩
  · exact ⟨nd, split_other hpn hnm hn, rfl, rfl, rfl⟩

/-- The upper half hangs where the node hung. -/
theorem Linked.upper (hl : Linked p pnode c mnode) (h0 : 0 < k) (hk : k < mnode.text.text.length)
    (i : NodeId) : Linked p (pnode.link c i) c (upperNode p m d k mnode) := by
  refine ⟨rfl, ?_, ?_, hl.tenants_ne, hl.tenants_sub⟩
  · rw [← hl.first]
    simp only [upperNode]
    obtain ⟨k', rfl⟩ : ∃ k', k = k' + 1 := ⟨k - 1, by omega⟩
    cases mnode.text.text <;> simp
  · simp only [upperNode, NodeText.Counted, List.length_take]
    omega

/-- The lower half hangs under the upper one. -/
theorem Linked.lower (hl : Linked p pnode c mnode)
    (hd : (mnode.text.text.drop k).head? = some d) (i : NodeId) :
    Linked i (upperNode p m d k mnode) d (lowerNode i k mnode mnode) := by
  refine ⟨rfl, hd, ?_, hl.tenants_ne, fun u hu => hu⟩
  simp only [lowerNode, NodeText.Counted, List.length_drop]
  rw [hl.counted]

/-- A split leaves no labelled node unlinked. -/
theorem Shape.split_attached (hS : Shape tr path) (hp : tr.nodes[p]? = some pnode)
    (hc : pnode.children.lookup c = some m) (hm : tr.nodes[m]? = some mnode)
    (hn : (tr.splitTree p c m mnode d k).nodes[n]? = some nd) (hn0 : n ≠ root)
    (hne' : nd.tenantLastAccessTime ≠ []) :
    ∃ (q : NodeId) (qnode : Node) (c' : Char), (tr.splitTree p c m mnode d k).nodes[q]? = some qnode ∧
        qnode.children.lookup c' = some n := by
  have hne : p ≠ m := (hS.child_ne hp hc).symm
  by_cases hnm : n = m
  · subst hnm
    exact ⟨tr.nodes.length, _, d, split_upper hp hm, by simp [upperNode, put]⟩
  · rcases split_inv hp hm hne hn with ⟨rfl, rfl⟩ | hn'
    · exact ⟨p, _, c, split_prev hp hne, by simp [Node.link, lookup_put]⟩
    · have hold : ∃ nd₀, tr.nodes[n]? = some nd₀ ∧ nd₀.tenantLastAccessTime ≠ [] := by
        rcases hn' with ⟨rfl, rfl⟩ | ⟨rfl, -⟩ | ⟨-, -, hn'⟩
        · exact ⟨pnode, hp, hne'⟩
        · exact absurd rfl hnm
        · exact ⟨nd, hn', hne'⟩
      obtain ⟨nd₀, hn₀, hne₀⟩ := hold
      obtain ⟨q, qnode, c', hq, hc'⟩ := hS.attached hn₀ hn0 hne₀
      by_cases hqp : p = q
      · subst hqp
        obtain rfl : pnode = qnode := Option.some.inj (hp.symm.trans hq)
        refine ⟨p, _, c', split_prev hp hne, ?_⟩
        rw [Node.link, lookup_put, if_neg, hc']
        rintro rfl
        exact hnm (Option.some.inj (hc'.symm.trans hc))
      · by_cases hqm : m = q
        · subst hqm
          obtain rfl : mnode = qnode := Option.some.inj (hm.symm.trans hq)
          exact ⟨m, _, c', split_lower hm hne, hc'⟩
        · exact ⟨q, qnode, c', split_other hqp hqm hq, hc'⟩

/-- **A split** of the node under `c`, inside its text. -/
theorem Shape.split (hS : Shape tr path) (hp : tr.nodes[p]? = some pnode)
    (hc : pnode.children.lookup c = some m) (hm : tr.nodes[m]? = some mnode) (h0 : 0 < k)
    (hk : k < mnode.text.text.length) (hd : (mnode.text.text.drop k).head? = some d) :
    Shape (tr.splitTree p c m mnode d k)
      (pathWith path tr.nodes.length (path p ++ mnode.text.text.take k)) := by
  have hne : p ≠ m := (hS.child_ne hp hc).symm
  obtain ⟨mnode', hm', hl, hmpath⟩ := hS.child hp hc
  obtain rfl : mnode' = mnode := Option.some.inj (hm'.symm.trans hm)
  have old : ∀ {n : NodeId} {nd : Node}, tr.nodes[n]? = some nd →
      pathWith path tr.nodes.length (path p ++ mnode'.text.text.take k) n = path n :=
    fun hn => pathWith_old (Nat.ne_of_lt (Heap.lt_of_read hn))
  -- an old link whose child is not `m`
  have keep : ∀ {q : NodeId} {qnode qnode' : Node} {c' : Char} {n : NodeId},
      tr.nodes[q]? = some qnode → qnode'.tenantLastAccessTime = qnode.tenantLastAccessTime →
      qnode.children.lookup c' = some n → m ≠ n →
      ∃ nd, (tr.splitTree p c m mnode' d k).nodes[n]? = some nd ∧ Linked q qnode' c' nd ∧
        pathWith path tr.nodes.length (path p ++ mnode'.text.text.take k) n =
          pathWith path tr.nodes.length (path p ++ mnode'.text.text.take k) q ++ nd.text.text := by
    intro q qnode qnode' c' n hq hqt hc' hmn
    obtain ⟨nd, hn, hl', hpath⟩ := hS.child hq hc'
    obtain ⟨nd', hn', e₁, e₂, e₃⟩ := split_old c mnode' d k hp hne hmn hn
    refine ⟨nd', hn', ⟨e₂.trans hl'.parent, e₁ ▸ hl'.first, e₁ ▸ hl'.counted,
      e₃ ▸ hl'.tenants_ne, fun u hu => ?_⟩, by rw [old hn, old hq, e₁, hpath]⟩
    rw [Node.carries, hqt]
    exact hl'.tenants_sub u (by rwa [Node.carries, ← e₃])
  refine ⟨?_, ?_, ?_, ?_, ?_⟩
  · obtain ⟨r, hr, htext, hpar⟩ := hS.root_node
    have hmr : m ≠ root := hS.child_ne_root hp hc
    obtain ⟨r', hr', htext', hpar', -⟩ :=
      split_old c mnode' d k hp hne hmr hr
    exact ⟨r', hr', htext'.trans htext, hpar'.trans hpar⟩
  · obtain ⟨r, hr, -⟩ := hS.root_node
    rw [old hr, hS.path_root]
  · intro q qnode c' n hq hc'
    rcases split_inv hp hm hne hq with ⟨rfl, rfl⟩ | ⟨rfl, rfl⟩ | ⟨rfl, rfl⟩ | ⟨hpq, -, hq'⟩
    · -- the upper node leads to the lower one
      simp only [upperNode, put, lookup_cons_eq, List.lookup_nil] at hc'
      split at hc'
      · next hcd =>
        subst hcd
        cases hc'
        refine ⟨_, split_lower hm hne, hl.lower hd _, ?_⟩
        rw [old hm, pathWith_new, hmpath, List.append_assoc]
        simp [lowerNode]
      · cases hc'
    · simp only [Node.link, lookup_put] at hc'
      split at hc'
      · next hcc =>
        subst hcc
        cases hc'
        refine ⟨_, split_upper hp hm, hl.upper h0 hk _, ?_⟩
        rw [pathWith_new, old hp]
        rfl
      · next hcc =>
        refine keep hp rfl hc' ?_
        rintro rfl
        exact hcc (hS.child_inj hp hc' hp hc).2
    · exact keep hm rfl hc' (hS.child_ne hm hc').symm
    · refine keep hq' rfl hc' ?_
      rintro rfl
      exact hpq (hS.child_inj hp hc hq' hc').1
  · exact fun hn hn0 hne' => hS.split_attached hp hc hm hn hn0 hne'
  · intro n nd hn
    rcases split_inv hp hm hne hn with ⟨rfl, rfl⟩ | ⟨rfl, rfl⟩ | ⟨rfl, rfl⟩ | ⟨-, -, hn'⟩
    · exact ⟨nodup_keys_put List.nodup_nil, (hS.keys_nodup hm).2⟩
    · exact ⟨nodup_keys_put (hS.keys_nodup hp).1, (hS.keys_nodup hp).2⟩
    · have := hS.keys_nodup hm
      exact this
    · exact hS.keys_nodup hn'

/-! ### Removing a tenant at a leaf -/

/-- The node carries the tenant and no child of it does. -/
def LeafFor (tr : Tree) (t : TenantId) (n : NodeId) : Prop :=
  ∃ nd, tr.nodes[n]? = some nd ∧ nd.carries t = true ∧ tr.childCarries nd t = false

theorem not_carries_of_childCarries {t : TenantId} (h : tr.childCarries nd t = false)
    (hc : nd.children.lookup c = some m) (hm : tr.nodes[m]? = some mnode) :
    mnode.carries t = false := by
  by_contra hne
  rw [Bool.not_eq_false] at hne
  have : tr.childCarries nd t = true :=
    childCarries_iff.mpr ⟨(c, m), mem_of_lookup hc, by rw [carriesAt_eq hm]; exact hne⟩
  rw [this] at h
  cases h

variable (hS : Shape tr path) {t : TenantId}
include hS

/-- A leaf that loses its last tenant has no children. -/
theorem Shape.children_eq_nil (hn : tr.nodes[n]? = some nd)
    (hleaf : tr.childCarries nd t = false) (he : (nd.dropTenant t).tenantLastAccessTime = []) :
    nd.children = [] := by
  by_contra hne
  obtain ⟨⟨c, m⟩, l, hl⟩ := List.exists_cons_of_ne_nil hne
  have hc : nd.children.lookup c = some m := by rw [hl, lookup_cons_eq, if_pos rfl]
  obtain ⟨mnode, hm, hlink, -⟩ := hS.child hn hc
  obtain ⟨u, hu⟩ := Node.exists_carries hlink.tenants_ne
  have hut : u ≠ t := by
    rintro rfl
    rw [not_carries_of_childCarries hleaf hc hm] at hu
    cases hu
  have : (nd.dropTenant t).carries u = true := by
    rw [Node.carries_dropTenant, hlink.tenants_sub u hu]
    simpa using hut
  exact Node.tenants_ne_nil this he

/-- The removal when the node keeps a tenant, or is the root. -/
theorem Shape.dropTenant (hn : tr.nodes[n]? = some nd) (hleaf : tr.childCarries nd t = false)
    (hne : n ≠ root → (nd.dropTenant t).tenantLastAccessTime ≠ []) :
    Shape (tr.modify n (Node.dropTenant t)) path := by
  refine hS.retenant hn ⟨rfl, rfl, rfl⟩ (nodup_keys_del (hS.keys_nodup hn).2) ?_ ?_ ?_
  · intro p pnode c hp hc
    refine ⟨hne (hS.child_ne_root hp hc), fun u hu => ?_⟩
    obtain ⟨nd', hn', hl, -⟩ := hS.child hp hc
    obtain rfl : nd' = nd := Option.some.inj (hn'.symm.trans hn)
    rw [Node.carries_dropTenant, Bool.and_eq_true] at hu
    exact hl.tenants_sub u hu.2
  · intro c m mnode hc hm u hu
    obtain ⟨mnode', hm', hl, -⟩ := hS.child hn hc
    obtain rfl : mnode' = mnode := Option.some.inj (hm'.symm.trans hm)
    have hut : u ≠ t := by
      rintro rfl
      rw [not_carries_of_childCarries hleaf hc hm] at hu
      cases hu
    rw [Node.carries_dropTenant, hl.tenants_sub u hu]
    simpa using hut
  · intro _ h h0
    simp [Node.dropTenant, h0, del] at h

/-- The removal when the node is left empty and unlinked. -/
theorem Shape.unlinkNode (hp : tr.nodes[p]? = some pnode)
    (hc : pnode.children.lookup c = some n) (hn : tr.nodes[n]? = some nd)
    (he : (nd.dropTenant t).tenantLastAccessTime = []) (hch : nd.children = []) :
    Shape ((tr.modify n (Node.dropTenant t)).modify p (Node.unlink c)) path := by
  have hnp : n ≠ p := hS.child_ne hp hc
  have read_p : ((tr.modify n (Node.dropTenant t)).modify p (Node.unlink c)).nodes[p]? =
      some (pnode.unlink c) := Heap.modify_same ((Heap.modify_other hnp).trans hp)
  have read_other : ∀ {x : NodeId} {xnode : Node}, n ≠ x → p ≠ x → tr.nodes[x]? = some xnode →
      ((tr.modify n (Node.dropTenant t)).modify p (Node.unlink c)).nodes[x]? = some xnode :=
    fun h₁ h₂ hx => (Heap.modify_other h₂).trans ((Heap.modify_other h₁).trans hx)
  have inv : ∀ {x : NodeId} {xnode : Node},
      ((tr.modify n (Node.dropTenant t)).modify p (Node.unlink c)).nodes[x]? = some xnode →
      (x = p ∧ xnode = pnode.unlink c) ∨ (x = n ∧ xnode = nd.dropTenant t) ∨
        (n ≠ x ∧ p ≠ x ∧ tr.nodes[x]? = some xnode) := by
    intro x xnode hx
    rcases Heap.modify_inv hx with ⟨rfl, a, ha, rfl⟩ | ⟨hpx, hx'⟩
    · rw [modify, Heap.modify_other hnp, hp] at ha
      exact .inl ⟨rfl, by rw [Option.some.inj ha]⟩
    · rcases Heap.modify_inv hx' with ⟨rfl, a, ha, rfl⟩ | ⟨hnx, hx''⟩
      · rw [hn] at ha
        exact .inr (.inl ⟨rfl, by rw [Option.some.inj ha]⟩)
      · exact .inr (.inr ⟨hnx, hpx, hx''⟩)
  refine ⟨?_, hS.path_root, ?_, ?_, ?_⟩
  · obtain ⟨r, hr, htext, hpar⟩ := hS.root_node
    by_cases hpr : p = root
    · obtain rfl : pnode = r := Option.some.inj (hp.symm.trans (hpr ▸ hr))
      exact ⟨pnode.unlink c, hpr ▸ read_p, htext, hpar⟩
    · exact ⟨r, read_other (hS.child_ne_root hp hc) hpr hr, htext, hpar⟩
  · intro q qnode c' m hq hc'
    -- a link that is left is an old one, and not the one to `n`
    have old : ∃ qnode₀, tr.nodes[q]? = some qnode₀ ∧ qnode₀.children.lookup c' = some m ∧
        qnode.tenantLastAccessTime = qnode₀.tenantLastAccessTime ∧ n ≠ m := by
      rcases inv hq with ⟨rfl, rfl⟩ | ⟨rfl, rfl⟩ | ⟨-, hpq, hq'⟩
      · simp only [Node.unlink, lookup_del] at hc'
        split at hc'
        · cases hc'
        · next hcc =>
          refine ⟨pnode, hp, hc', rfl, ?_⟩
          rintro rfl
          exact hcc (hS.child_inj hp hc' hp hc).2
      · simp [Node.dropTenant, hch] at hc'
      · refine ⟨qnode, hq', hc', rfl, ?_⟩
        rintro rfl
        exact hpq (hS.child_inj hp hc hq' hc').1
    obtain ⟨qnode₀, hq₀, hc₀, hqt, hnm⟩ := old
    obtain ⟨mnode, hm, hl, hpath⟩ := hS.child hq₀ hc₀
    by_cases hpm : p = m
    · subst hpm
      obtain rfl : pnode = mnode := Option.some.inj (hp.symm.trans hm)
      exact ⟨_, read_p, ⟨hl.parent, hl.first, hl.counted, hl.tenants_ne, (hl.congr hqt).tenants_sub⟩,
        hpath⟩
    · exact ⟨mnode, read_other hnm hpm hm, hl.congr hqt, hpath⟩
  · intro x xnode hx hx0 hne
    have old : ∃ xnode₀, tr.nodes[x]? = some xnode₀ ∧ xnode₀.tenantLastAccessTime ≠ [] ∧ x ≠ n := by
      rcases inv hx with ⟨rfl, rfl⟩ | ⟨rfl, rfl⟩ | ⟨hnx, -, hx'⟩
      · exact ⟨pnode, hp, hne, hnp.symm⟩
      · exact absurd he hne
      · exact ⟨xnode, hx', hne, hnx.symm⟩
    obtain ⟨xnode₀, hx₀, hne₀, hxn⟩ := old
    obtain ⟨q, qnode, c', hq, hc'⟩ := hS.attached hx₀ hx0 hne₀
    by_cases hpq : p = q
    · subst hpq
      obtain rfl : pnode = qnode := Option.some.inj (hp.symm.trans hq)
      refine ⟨p, _, c', read_p, ?_⟩
      rw [Node.unlink, lookup_del, if_neg, hc']
      rintro rfl
      exact hxn (Option.some.inj (hc'.symm.trans hc))
    · refine ⟨q, qnode, c', read_other ?_ hpq hq, hc'⟩
      rintro rfl
      obtain rfl : nd = qnode := Option.some.inj (hn.symm.trans hq)
      simp [hch] at hc'
  · intro x xnode hx
    rcases inv hx with ⟨rfl, rfl⟩ | ⟨rfl, rfl⟩ | ⟨-, -, hx'⟩
    · exact ⟨nodup_keys_del (hS.keys_nodup hp).1, (hS.keys_nodup hp).2⟩
    · exact ⟨(hS.keys_nodup hn).1, nodup_keys_del (hS.keys_nodup hn).2⟩
    · exact hS.keys_nodup hx'

/-- **The removal of a tenant at a leaf.**  Either the node keeps its place, or it was left
without tenants and children and is unlinked. -/
theorem detachTenant_cases (hn : tr.nodes[n]? = some nd)
    (ht : nd.carries t = true) (hleaf : tr.childCarries nd t = false) :
    ((n ≠ root → (nd.dropTenant t).tenantLastAccessTime ≠ []) ∧
        tr.detachTenant t n = (tr.modify n (Node.dropTenant t), nd.parent)) ∨
      ∃ p pnode c, tr.nodes[p]? = some pnode ∧ pnode.children.lookup c = some n ∧
        (nd.dropTenant t).tenantLastAccessTime = [] ∧ nd.children = [] ∧
        tr.detachTenant t n =
          ((tr.modify n (Node.dropTenant t)).modify p (Node.unlink c), nd.parent) := by
  have hread : (tr.modify n (Node.dropTenant t)).nodes[n]? = some (nd.dropTenant t) :=
    Heap.modify_same hn
  by_cases he : (nd.dropTenant t).tenantLastAccessTime = []
  · have hch := hS.children_eq_nil hn hleaf he
    by_cases h0 : n = root
    · left
      obtain ⟨r, hr, -, hpar⟩ := hS.root_node
      obtain rfl : nd = r := Option.some.inj (hn.symm.trans (h0 ▸ hr))
      refine ⟨fun h => absurd h0 h, ?_⟩
      simp only [detachTenant, hread]
      rw [show (nd.dropTenant t).parent = none from hpar, hpar]
      split <;> rfl
    · right
      obtain ⟨p, pnode, c, hp, hc, hl, -, -⟩ := hS.up hn h0 ht
      refine ⟨p, pnode, c, hp, hc, he, hch, ?_⟩
      simp only [detachTenant, hread, he]
      rw [show (nd.dropTenant t).children = [] from hch,
        show (nd.dropTenant t).parent = some p from hl.parent, hl.parent,
        show (nd.dropTenant t).text.firstChar = some c from hl.first]
      rfl
  · left
    refine ⟨fun _ => he, ?_⟩
    simp only [detachTenant, hread]
    rw [if_neg (by simp [he])]
    rfl

theorem Shape.detachTenant (h : LeafFor tr t n) : Shape (tr.detachTenant t n).1 path := by
  obtain ⟨nd, hn, ht, hleaf⟩ := h
  rcases detachTenant_cases hS hn ht hleaf with ⟨hne, e⟩ | ⟨p, pnode, c, hp, hc, he, hch, e⟩
  · rw [e]; exact hS.dropTenant hn hleaf hne
  · rw [e]; exact hS.unlinkNode hp hc hn he hch

end

end QwenStack.Tree
