import QwenStack.Tree.Invariant

/-!
# Tree — the prefixes a tenant owns

What the tree is for: a map from tenants to prefix-closed sets of texts.  `Owned tr t` is that set,
read off the heap as the texts along a path from the root to a node that carries `t`.  In a heap of
the right shape it is the set of prefixes of the ghost paths of the nodes that carry `t`
(`Shape.mem_owned`), so an operation changes it only where it changes who carries what.

`insert` adds the prefixes of its text to its tenant's set and nothing to any other;
`prefix_match_tenant` finds the longest prefix in the set and leaves every set alone.
-/

namespace QwenStack.Tree
open Assoc

/-- The prefixes of the paths to nodes that carry `t`. -/
def Owned (tr : Tree) (t : TenantId) : Set Str := Spelled tr (·.carries t) root

/-- The prefixes of a text. -/
def prefixes (s : Str) : Set Str := {p | p <+: s}

theorem prefixes_mono {s s' : Str} (h : s <+: s') : prefixes s ⊆ prefixes s' :=
  fun _ hp => List.IsPrefix.trans hp h

section
variable {tr tr' : Tree} {path : NodeId → Str} {prev p n m : NodeId} {pnode nd mnode : Node}
  {c d : Char} {k : Nat} {t u tenant : TenantId} {s : Str} {epoch : Epoch}

theorem Shape.mem_owned (hS : Shape tr path) :
    s ∈ tr.Owned t ↔ ∃ n, tr.carriesAt t n = true ∧ s <+: path n := by
  constructor
  · rintro ⟨n, nd, w, hpath, hn, ht, hpre⟩
    have := hS.path_eq hpath
    rw [hS.path_root, List.nil_append] at this
    exact ⟨n, (carriesAt_eq hn t).trans ht, this ▸ hpre⟩
  · rintro ⟨n, ht, hpre⟩
    obtain ⟨nd, hn, hnt⟩ := carriesAt_iff.mp ht
    exact ⟨n, nd, path n, hS.path_of_carries hn hnt, hn, hnt, hpre⟩

/-- The sets depend on who carries what, under the same paths. -/
theorem Shape.owned_congr (hS : Shape tr path) (hS' : Shape tr' path)
    (h : ∀ n, tr'.carriesAt t n = tr.carriesAt t n) : tr'.Owned t = tr.Owned t := by
  ext s
  rw [hS.mem_owned, hS'.mem_owned]
  simp only [h]

/-! ### Who carries what after each step of `insert` -/

theorem carriesAt_hang {newNode : Node} (hp : tr.nodes[p]? = some pnode) :
    (tr.hang p c newNode).carriesAt u n = true ↔
      tr.carriesAt u n = true ∨ (n = tr.nodes.length ∧ newNode.carries u = true) := by
  constructor
  · intro h
    obtain ⟨nd', hn', hu⟩ := carriesAt_iff.mp h
    rcases hang_inv hp hn' with ⟨rfl, rfl⟩ | ⟨rfl, rfl⟩ | ⟨-, hn⟩
    · exact .inr ⟨rfl, hu⟩
    · exact .inl (by rw [carriesAt_eq hp]; exact hu)
    · exact .inl (by rw [carriesAt_eq hn]; exact hu)
  · rintro (h | ⟨rfl, h⟩)
    · obtain ⟨nd, hn, hu⟩ := carriesAt_iff.mp h
      obtain ⟨nd', hn', -, -, e⟩ := hang_old c newNode hp hn
      rw [carriesAt_eq hn', Node.carries, e]
      exact hu
    · rw [carriesAt_eq (hang_new hp)]
      exact h

theorem carriesAt_newLeaf (hp : tr.nodes[p]? = some pnode) {remaining : Str} :
    (tr.newLeaf tenant epoch p c remaining).carriesAt u n = true ↔
      tr.carriesAt u n = true ∨ (n = tr.nodes.length ∧ u = tenant) := by
  have hp' : (tr.addCount tenant remaining.length).nodes[p]? = some pnode := hp
  rw [newLeaf, carriesAt_hang hp']
  simp only [Node.carries, contains, lookup_put, List.lookup_nil]
  by_cases hu : u = tenant <;> simp [hu, addCount, carriesAt]

theorem carriesAt_splitTree (hp : tr.nodes[p]? = some pnode) :
    (tr.splitTree p c m mnode d k).carriesAt u n = true ↔
      tr.carriesAt u n = true ∨ (n = tr.nodes.length ∧ mnode.carries u = true) := by
  rw [splitTree, carriesAt_modify (f := lowerNode tr.nodes.length k mnode) fun _ => rfl,
    carriesAt_hang hp]
  rfl

theorem carriesAt_ensureTenant (hn : tr.nodes[n]? = some nd) {x : NodeId} :
    (tr.ensureTenant tenant k n).carriesAt u x = true ↔
      tr.carriesAt u x = true ∨ (x = n ∧ u = tenant) := by
  by_cases ht : nd.carries tenant = true
  · rw [ensureTenant_of_carries hn ht]
    refine ⟨.inl, ?_⟩
    rintro (h | ⟨rfl, rfl⟩)
    · exact h
    · rwa [carriesAt_eq hn]
  · rw [ensureTenant_of_not_carries hn (by simpa using ht)]
    by_cases hx : n = x
    · subst hx
      rw [carriesAt_eq (Heap.modify_same (show (tr.addCount tenant k).nodes[n]? = some nd from hn)),
        carriesAt_eq hn, Node.carries_stamp]
      simp [or_comm]
    · rw [carriesAt, modify, Heap.modify_other hx]
      simp [carriesAt, addCount, Ne.symm hx]

theorem carriesAt_stamp (hn : tr.nodes[n]? = some nd) (ht : nd.carries t = true) {x : NodeId} :
    (tr.modify n (Node.stamp t epoch)).carriesAt u x = tr.carriesAt u x := by
  by_cases hx : n = x
  · subst hx
    rw [carriesAt_eq (Heap.modify_same hn), carriesAt_eq hn, Node.carries_stamp]
    by_cases hu : u = t
    · subst hu; simp [ht]
    · simp [hu]
  · rw [carriesAt, modify, Heap.modify_other hx, carriesAt]

theorem carriesAt_ensureRoot (tenant u : TenantId) (x : NodeId) {r : Node}
    (hr : tr.nodes[root]? = some r) :
    (tr.ensureRoot tenant).carriesAt u x = true ↔
      tr.carriesAt u x = true ∨ (x = root ∧ u = tenant) := by
  by_cases hx : root = x
  · subst hx
    rw [carriesAt_eq (ensureRoot_read hr), carriesAt_eq hr, carries_orInsert]
    simp [or_comm]
  · rw [carriesAt, Tree.ensureRoot, Heap.modify_other hx]
    simp [carriesAt, Ne.symm hx]

/-! ### `insert` -/

/-- One more carrier, of `tenant`, on the way of the insert. -/
theorem Shape.owned_add {path' : NodeId → Str} (hS : Shape tr path) (hS' : Shape tr' path') {x : NodeId}
    (hpath : ∀ n, tr.carriesAt u n = true → path' n = path n)
    (h : ∀ n, tr'.carriesAt u n = true ↔ tr.carriesAt u n = true ∨ (n = x ∧ u = tenant)) :
    tr'.Owned u = if u = tenant then tr.Owned u ∪ prefixes (path' x) else tr.Owned u := by
  have key : ∀ s, s ∈ tr'.Owned u ↔ s ∈ tr.Owned u ∨ (u = tenant ∧ s <+: path' x) := by
    intro s
    rw [hS'.mem_owned, hS.mem_owned]
    simp only [h]
    constructor
    · rintro ⟨n, hn | ⟨rfl, rfl⟩, hpre⟩
      · exact .inl ⟨n, hn, hpath n hn ▸ hpre⟩
      · exact .inr ⟨rfl, hpre⟩
    · rintro (⟨n, hn, hpre⟩ | ⟨rfl, hpre⟩)
      · exact ⟨n, .inl hn, (hpath n hn).symm ▸ hpre⟩
      · exact ⟨x, .inr ⟨rfl, rfl⟩, hpre⟩
  ext s
  rw [key]
  by_cases hu : u = tenant <;> simp [hu, prefixes]

theorem pathWith_carrier {w : Str} (n : NodeId) (h : tr.carriesAt u n = true) :
    pathWith path tr.nodes.length w n = path n := by
  obtain ⟨nd, hn, -⟩ := carriesAt_iff.mp h
  exact pathWith_old (Nat.ne_of_lt (Heap.lt_of_read hn))

/-- A split changes no set: the upper node's path is a prefix of the split node's. -/
theorem Shape.owned_split (hS : Shape tr path) (hp : tr.nodes[prev]? = some pnode)
    (hc : pnode.children.lookup c = some m) (hm : tr.nodes[m]? = some mnode) (h0 : 0 < k)
    (hk : k < mnode.text.text.length) (hd : (mnode.text.text.drop k).head? = some d) :
    (tr.splitTree prev c m mnode d k).Owned u = tr.Owned u := by
  have hS' := hS.split hp hc hm h0 hk hd
  obtain ⟨mnode', hm', -, hmpath⟩ := hS.child hp hc
  cases hm'.symm.trans hm
  ext s
  rw [hS'.mem_owned, hS.mem_owned]
  simp only [carriesAt_splitTree hp]
  constructor
  · rintro ⟨n, hn | ⟨rfl, hu⟩, hpre⟩
    · rw [pathWith_carrier n hn] at hpre
      exact ⟨n, hn, hpre⟩
    · rw [pathWith_new] at hpre
      refine ⟨m, by rwa [carriesAt_eq hm], hpre.trans ?_⟩
      rw [hmpath, List.prefix_append_right_inj]
      exact List.take_prefix _ _
  · rintro ⟨n, hn, hpre⟩
    exact ⟨n, .inl hn, by rw [pathWith_carrier n hn]; exact hpre⟩

/-- The sets during an insert, at the node `x`: `O` are the sets before it. -/
def Adding (O : TenantId → Set Str) (tenant : TenantId) (tr : Tree) (w : Str) : Prop :=
  ∀ u, tr.Owned u = if u = tenant then O u ∪ prefixes w else O u

/-- A longer way adds a larger set. -/
theorem Adding.extend {O : TenantId → Set Str} {w w' : Str} (h : Adding O tenant tr w)
    (hw : w <+: w')
    (ho : ∀ u, tr'.Owned u = if u = tenant then tr.Owned u ∪ prefixes w' else tr.Owned u) :
    Adding O tenant tr' w' := by
  intro u
  rw [ho, h]
  by_cases hu : u = tenant
  · simp only [if_pos hu]
    rw [Set.union_assoc, Set.union_eq_self_of_subset_left (prefixes_mono hw)]
  · simp only [if_neg hu]

theorem insertRule_owned (O : TenantId → Set Str) (tenant : TenantId) (text : Str) :
    InsertRule tenant text (fun tr path prev => Adding O tenant tr (path prev))
      (fun tr _ => Adding O tenant tr text) where
  leaf := by
    intro tr path prev pnode c remaining epoch hS hp ht hv hr htext hI
    refine hI.extend (htext ▸ List.prefix_append _ _) fun u => ?_
    have := hS.owned_add (u := u) (hS.newLeaf epoch hp ht hv hr)
      (fun n hn => pathWith_carrier n hn) (fun n => carriesAt_newLeaf hp)
    rwa [pathWith_new, htext] at this
  split := by
    intro tr path prev m pnode mnode c d k hS hp ht hc hm h0 hk hd hI
    rw [pathWith_new]
    refine hI.extend (List.prefix_append _ _) fun u => ?_
    have := (hS.split hp hc hm h0 hk hd).owned_add (u := u) (hS.splitEnsure hp ht hc hm h0 hk hd)
      (fun _ _ => rfl) (fun n => carriesAt_ensureTenant (split_upper hp hm))
    rwa [pathWith_new, hS.owned_split hp hc hm h0 hk hd] at this
  full := by
    intro tr path prev m pnode mnode c hS hp ht hc hm hI
    obtain ⟨mnode', -, -, hmpath⟩ := hS.child hp hc
    refine hI.extend (hmpath ▸ List.prefix_append _ _) fun u => ?_
    exact hS.owned_add (hS.ensureTenant hp ht hc) (fun _ _ => rfl) (fun n => carriesAt_ensureTenant hm)
  stop := by
    intro tr path prev pnode epoch hS hp ht htext hI u
    rw [hS.owned_congr (hS.restamp hp ht) (fun n => carriesAt_stamp hp ht), ← htext]
    exact hI u

/-- **`insert` adds the prefixes of its text** to its tenant's set, and nothing else. -/
theorem Shape.insert_owned (hS : Shape tr path) (text : Str) (tenant : TenantId) (epoch : Epoch) :
    ∃ tr' epoch', tr.insert text tenant epoch = some (tr', epoch') ∧ WellFormed tr' ∧
      tr'.Owned tenant = tr.Owned tenant ∪ prefixes text ∧
      ∀ u, u ≠ tenant → tr'.Owned u = tr.Owned u := by
  obtain ⟨r, hr, -⟩ := hS.root_node
  have start : Adding tr.Owned tenant (tr.ensureRoot tenant) (path root) := fun u =>
    hS.owned_add (hS.ensureRoot tenant) (fun _ _ => rfl) (fun n => carriesAt_ensureRoot tenant u n hr)
  obtain ⟨tr', e', path', hrun, hS', hF⟩ :=
    (insertRule_owned tr.Owned tenant text).insert hS epoch start
  refine ⟨tr', e', hrun, ⟨path', hS'⟩, by simpa using hF tenant, fun u hu => ?_⟩
  simpa [hu] using hF u

/-! ### `prefix_match_tenant` -/

/-- `r` is the longest prefix of `s` in `P`, or empty when there is none. -/
def LongestIn (P : Set Str) (s r : Str) : Prop :=
  r <+: s ∧ (r ∈ P ∨ (P = ∅ ∧ r = [])) ∧ ∀ p ∈ P, p <+: s → p <+: r

theorem LongestIn.eq_self {P : Set Str} {r : Str} (h : LongestIn P s r) (hs : s ∈ P) : r = s :=
  h.1.eq_of_length_le (h.2.2 s hs (List.prefix_refl s)).length_le

/-- A set of spelled texts holds the empty text or is empty. -/
theorem owned_nil_or_empty : [] ∈ tr.Owned t ∨ tr.Owned t = ∅ := by
  rcases Set.eq_empty_or_nonempty (tr.Owned t) with h | ⟨s, hs⟩
  · exact .inr h
  · exact .inl (spelled_of_isPrefix hs List.nil_prefix)

theorem Descended.longestIn {text : Str} {j : Nat}
    (h : Descended tr (·.carries t) root text n j) :
    LongestIn (tr.Owned t) text (text.take j) := by
  refine ⟨List.take_prefix _ _, ?_, fun p hp hpre => ?_⟩
  · rcases h.spelled with rfl | hj
    · rw [List.take_zero]
      exact owned_nil_or_empty.imp id fun he => ⟨he, rfl⟩
    · exact .inl hj
  · refine List.prefix_of_prefix_length_le hpre (List.take_prefix _ _) ?_
    have := h.max hp hpre
    have := h.le
    rw [List.length_take]
    omega

/-- **`prefix_match_tenant` returns the longest prefix** in its tenant's set, and changes none. -/
theorem Shape.prefixMatchTenant_owned (hS : Shape tr path) (text : Str) (t : TenantId)
    (epoch : Epoch) :
    ∃ tr' epoch' r, tr.prefixMatchTenant text t epoch = some (tr', epoch', r) ∧
      LongestIn (tr.Owned t) text r ∧ ∀ u, tr'.Owned u = tr.Owned u := by
  obtain ⟨n, nd, j, hn, hD, hrun⟩ := prefixMatchTenant_spec hS text t epoch
  by_cases ht : nd.carries t = true
  · rw [if_pos ht] at hrun
    exact ⟨_, _, _, hrun, hD.longestIn, fun u =>
      hS.owned_congr (hS.restamp hn ht) (fun n => carriesAt_stamp hn ht)⟩
  · rw [if_neg ht] at hrun
    exact ⟨_, _, _, hrun, hD.longestIn, fun u => rfl⟩

/-- **The tree refines a map from tenants to prefix-closed sets**, after any run. -/
theorem run_refines_owned (ops : List (IterOrder × Op)) (epoch₀ : Epoch) :
    ∃ tr epoch, run ops (new, epoch₀) = some (tr, epoch) ∧ ∀ (s : Str) (t : TenantId),
      (∃ tr' epoch', tr.insert s t epoch = some (tr', epoch') ∧
        tr'.Owned t = tr.Owned t ∪ prefixes s ∧ (∀ u, u ≠ t → tr'.Owned u = tr.Owned u) ∧
        ∃ tr'' epoch'', tr'.prefixMatchTenant s t epoch' = some (tr'', epoch'', s)) ∧
      ∃ tr' epoch' r, tr.prefixMatchTenant s t epoch = some (tr', epoch', r) ∧
        LongestIn (tr.Owned t) s r ∧ ∀ u, tr'.Owned u = tr.Owned u := by
  obtain ⟨⟨tr, epoch⟩, hrun, path, hS⟩ := run_total ops epoch₀
  refine ⟨tr, epoch, hrun, fun s t => ⟨?_, hS.prefixMatchTenant_owned s t epoch⟩⟩
  obtain ⟨tr', e', hins, ⟨path', hS'⟩, hown, hother⟩ := hS.insert_owned s t epoch
  obtain ⟨tr'', e'', r, hmatch, hlong, -⟩ := hS'.prefixMatchTenant_owned s t e'
  have hs : s ∈ tr'.Owned t := hown ▸ Or.inr (List.prefix_refl s)
  rw [hlong.eq_self hs] at hmatch
  exact ⟨tr', e', hins, hown, hother, tr'', e'', hmatch⟩

end

end QwenStack.Tree
