import QwenStack.Tree.Paths

/-!
# Tree — the loop of `insert`

One iteration of `insert` takes one of three arms: a new leaf, a split, or a full match
(`insertStep_cases`).  In a heap of the right shape every iteration but the last consumes at least
one character, so the loop ends within the length of the text, and the shape is kept.

`InsertRule` packages the induction over the loop: an invariant `I` that each arm keeps, and that
the two exits turn into `F`, holds at the end of every insert (`InsertRule.insert`).
-/

namespace QwenStack.Tree
open Assoc

section
variable {tr : Tree} {path : NodeId → Str} {prev p n m : NodeId} {pnode nd mnode : Node}
  {c d : Char} {k : Nat} {tenant : TenantId}

/-- What one iteration does. -/
theorem insertStep_cases (hS : Shape tr path) (hp : tr.nodes[prev]? = some pnode)
    (tenant : TenantId) (epoch : Epoch) (c : Char) (rest : Str) :
    (pnode.children.lookup c = none ∧ insertStep tenant tr epoch prev c (c :: rest) =
        some (tr.newLeaf tenant epoch prev c (c :: rest), epoch + 1, .done)) ∨
    (∃ m mnode d k, pnode.children.lookup c = some m ∧ tr.nodes[m]? = some mnode ∧ 0 < k ∧
      k < mnode.text.text.length ∧ (mnode.text.text.drop k).head? = some d ∧
      (c :: rest).take k = mnode.text.text.take k ∧
      insertStep tenant tr epoch prev c (c :: rest) =
        some ((tr.splitTree prev c m mnode d k).ensureTenant tenant k tr.nodes.length, epoch,
          .continue tr.nodes.length k)) ∨
    (∃ m mnode, pnode.children.lookup c = some m ∧ tr.nodes[m]? = some mnode ∧
      mnode.text.text <+: c :: rest ∧
      insertStep tenant tr epoch prev c (c :: rest) =
        some (tr.ensureTenant tenant mnode.text.charCount m, epoch,
          .continue m mnode.text.text.length)) := by
  simp only [insertStep, hp, Option.bind_eq_bind, Option.bind_some]
  cases hc : pnode.children.lookup c with
  | none => exact .inl ⟨rfl, rfl⟩
  | some m =>
    right
    obtain ⟨mnode, hm, hl, -⟩ := hS.child hp hc
    have hpos : 0 < lcpLen (c :: rest) mnode.text.text := lcpLen_pos rfl hl.first
    have hle := lcpLen_le_right (c :: rest) mnode.text.text
    have hcount : mnode.text.charCount = mnode.text.text.length := hl.counted
    simp only [hm, Option.bind_some, sharedPrefixCount_eq]
    by_cases hlt : lcpLen (c :: rest) mnode.text.text < mnode.text.charCount
    · left
      obtain ⟨d, hd, hsplit⟩ := splitNode_eq tr m hl hpos hlt
      rw [if_pos hlt, hsplit]
      exact ⟨m, mnode, d, _, rfl, hm, hpos, hcount ▸ hlt, hd, take_lcpLen _ _, rfl⟩
    · right
      have heq : lcpLen (c :: rest) mnode.text.text = mnode.text.text.length := by omega
      rw [if_neg hlt, heq]
      refine ⟨m, mnode, rfl, hm, ?_, rfl⟩
      have := take_lcpLen (c :: rest) mnode.text.text
      rw [heq, List.take_length] at this
      rw [← this]
      exact List.take_prefix _ _

/-! ### Adding the tenant to a node of the way -/

theorem ensureTenant_of_carries (hn : tr.nodes[n]? = some nd) (ht : nd.carries tenant = true) :
    tr.ensureTenant tenant k n = tr := by
  rw [ensureTenant, carriesAt_eq hn, if_pos ht]

theorem ensureTenant_of_not_carries (hn : tr.nodes[n]? = some nd)
    (ht : nd.carries tenant = false) :
    tr.ensureTenant tenant k n = (tr.addCount tenant k).modify n (Node.stamp tenant 0) := by
  rw [ensureTenant, carriesAt_eq hn, ht]
  rfl

theorem Shape.ensureTenant (hS : Shape tr path) (hp : tr.nodes[p]? = some pnode)
    (ht : pnode.carries tenant = true) (hc : pnode.children.lookup c = some n) :
    Shape (tr.ensureTenant tenant k n) path := by
  obtain ⟨nd, hn, hl, -⟩ := hS.child hp hc
  by_cases hnt : nd.carries tenant = true
  · rwa [ensureTenant_of_carries hn hnt]
  · rw [ensureTenant_of_not_carries hn (by simpa using hnt)]
    refine (hS.of_nodes (show (tr.addCount tenant k).nodes = tr.nodes from rfl)).stamp hn (fun hq hc' => ?_)
      (fun _ => hl.tenants_ne)
    obtain ⟨rfl, -⟩ := hS.child_inj hp hc hq hc'
    rwa [← Option.some.inj (hp.symm.trans hq)]

/-- The node carries the tenant afterwards. -/
theorem ensureTenant_read (tenant : TenantId) (k : Nat) (hn : tr.nodes[n]? = some nd) :
    ∃ nd', (tr.ensureTenant tenant k n).nodes[n]? = some nd' ∧ nd'.carries tenant = true := by
  by_cases hnt : nd.carries tenant = true
  · exact ⟨nd, by rwa [ensureTenant_of_carries hn hnt], hnt⟩
  · rw [ensureTenant_of_not_carries hn (by simpa using hnt)]
    exact ⟨nd.stamp tenant 0, Heap.modify_same hn, by simp⟩

theorem Shape.splitEnsure (hS : Shape tr path) (hp : tr.nodes[prev]? = some pnode)
    (ht : pnode.carries tenant = true) (hc : pnode.children.lookup c = some m)
    (hm : tr.nodes[m]? = some mnode) (h0 : 0 < k) (hk : k < mnode.text.text.length)
    (hd : (mnode.text.text.drop k).head? = some d) :
    Shape ((tr.splitTree prev c m mnode d k).ensureTenant tenant k tr.nodes.length)
      (pathWith path tr.nodes.length (path prev ++ mnode.text.text.take k)) := by
  refine (hS.split hp hc hm h0 hk hd).ensureTenant
    (split_prev hp (hS.child_ne hp hc).symm) (c := c) ht ?_
  simp [Node.link, lookup_put]

/-! ### The rule for the loop -/

/-- An invariant of the loop: `I` at the head, `F` at the exit. -/
structure InsertRule (tenant : TenantId) (text : Str)
    (I : Tree → (NodeId → Str) → NodeId → Prop) (F : Tree → (NodeId → Str) → Prop) : Prop where
  leaf : ∀ {tr : Tree} {path : NodeId → Str} {prev : NodeId} {pnode : Node} {c : Char}
    {remaining : Str} {epoch : Epoch}, Shape tr path → tr.nodes[prev]? = some pnode →
    pnode.carries tenant = true → pnode.children.lookup c = none → remaining.head? = some c →
    path prev ++ remaining = text → I tr path prev →
    F (tr.newLeaf tenant epoch prev c remaining)
      (pathWith path tr.nodes.length (path prev ++ remaining))
  split : ∀ {tr : Tree} {path : NodeId → Str} {prev m : NodeId} {pnode mnode : Node}
    {c d : Char} {k : Nat}, Shape tr path → tr.nodes[prev]? = some pnode →
    pnode.carries tenant = true → pnode.children.lookup c = some m →
    tr.nodes[m]? = some mnode → 0 < k → k < mnode.text.text.length →
    (mnode.text.text.drop k).head? = some d → I tr path prev →
    I ((tr.splitTree prev c m mnode d k).ensureTenant tenant k tr.nodes.length)
      (pathWith path tr.nodes.length (path prev ++ mnode.text.text.take k)) tr.nodes.length
  full : ∀ {tr : Tree} {path : NodeId → Str} {prev m : NodeId} {pnode mnode : Node} {c : Char},
    Shape tr path → tr.nodes[prev]? = some pnode → pnode.carries tenant = true →
    pnode.children.lookup c = some m → tr.nodes[m]? = some mnode → I tr path prev →
    I (tr.ensureTenant tenant mnode.text.charCount m) path m
  stop : ∀ {tr : Tree} {path : NodeId → Str} {prev : NodeId} {pnode : Node} {epoch : Epoch},
    Shape tr path → tr.nodes[prev]? = some pnode → pnode.carries tenant = true →
    path prev = text → I tr path prev → F (tr.modify prev (Node.stamp tenant epoch)) path

variable {text : Str} {I : Tree → (NodeId → Str) → NodeId → Prop}
  {F : Tree → (NodeId → Str) → Prop}

theorem InsertRule.loop (hR : InsertRule tenant text I F) :
    ∀ (fuel : Nat) (tr : Tree) (epoch : Epoch) (path : NodeId → Str) (prev : NodeId) (pnode : Node)
      (remaining : Str), Shape tr path → tr.nodes[prev]? = some pnode →
      pnode.carries tenant = true → remaining.length ≤ fuel → path prev ++ remaining = text →
      I tr path prev →
      ∃ tr' epoch' path', insertLoop tenant fuel tr epoch prev remaining = some (tr', epoch') ∧
        Shape tr' path' ∧ F tr' path' := by
  intro fuel
  induction fuel with
  | zero =>
    intro tr epoch path prev pnode remaining hS hp ht hf htext hI
    obtain rfl : remaining = [] := List.length_eq_zero_iff.mp (by omega)
    exact ⟨_, _, path, rfl, hS.restamp hp ht, hR.stop hS hp ht (by simpa using htext) hI⟩
  | succ fuel ih =>
    intro tr epoch path prev pnode remaining hS hp ht hf htext hI
    cases remaining with
    | nil => exact ⟨_, _, path, rfl, hS.restamp hp ht, hR.stop hS hp ht (by simpa using htext) hI⟩
    | cons c rest =>
      simp only [insertLoop, Option.bind_eq_bind]
      rcases insertStep_cases hS hp tenant epoch c rest with
        ⟨hv, e⟩ | ⟨m, mnode, d, k, hc, hm, h0, hk, hd, htake, e⟩ | ⟨m, mnode, hc, hm, hpre, e⟩
      · simp only [e, Option.bind_some]
        exact ⟨_, _, _, rfl, hS.newLeaf epoch hp ht hv rfl, hR.leaf hS hp ht hv rfl htext hI⟩
      · simp only [e, Option.bind_some, advanceByChars_eq]
        obtain ⟨nd', hn', hnt⟩ := ensureTenant_read tenant k
          (split_upper (c := c) (d := d) (k := k) hp hm)
        refine ih _ epoch _ _ nd' _ (hS.splitEnsure hp ht hc hm h0 hk hd) hn' hnt ?_ ?_
          (hR.split hS hp ht hc hm h0 hk hd hI)
        · rw [List.length_drop]
          omega
        · rw [pathWith_new, List.append_assoc, ← htake, List.take_append_drop]
          exact htext
      · simp only [e, Option.bind_some, advanceByChars_eq]
        obtain ⟨mnode', hm', hl, hmpath⟩ := hS.child hp hc
        obtain rfl := Option.some.inj (hm'.symm.trans hm)
        obtain ⟨nd', hn', hnt⟩ := ensureTenant_read tenant mnode'.text.charCount hm
        have hpos := List.length_pos_iff.mpr hl.text_ne
        obtain ⟨s, hs⟩ := hpre
        refine ih _ epoch path m nd' _ (hS.ensureTenant hp ht hc) hn' hnt ?_ ?_
          (hR.full hS hp ht hc hm hI)
        · rw [List.length_drop]
          omega
        · rw [← htext, hmpath, ← hs, List.drop_left, List.append_assoc]

/-! ### The whole of `insert` -/

/-- The root after `ensureRoot`. -/
theorem ensureRoot_read {r : Node} (hr : tr.nodes[root]? = some r) :
    (tr.ensureRoot tenant).nodes[root]? = some { r with
      tenantLastAccessTime := orInsert tenant 0 r.tenantLastAccessTime } :=
  Heap.modify_same hr

theorem carries_orInsert (nd : Node) (t u : TenantId) :
    Node.carries { nd with tenantLastAccessTime := orInsert t 0 nd.tenantLastAccessTime } u =
      (decide (u = t) || nd.carries u) := by
  simp only [Node.carries, contains, lookup_orInsert]
  by_cases h : u = t <;> simp [h]

theorem Shape.ensureRoot (hS : Shape tr path) (tenant : TenantId) :
    Shape (tr.ensureRoot tenant) path := by
  obtain ⟨r, hr, -⟩ := hS.root_node
  refine (hS.retenant hr (f := fun nd => { nd with
    tenantLastAccessTime := orInsert tenant 0 nd.tenantLastAccessTime }) ⟨rfl, rfl, rfl⟩
    (nodup_keys_orInsert (hS.keys_nodup hr).2) ?_ ?_ (fun h => absurd rfl h)).of_nodes rfl
  · intro p pnode c hp hc
    exact absurd rfl (hS.child_ne_root hp hc)
  · intro c m mnode hc hm u hu
    obtain ⟨mnode', hm', hl, -⟩ := hS.child hr hc
    cases hm'.symm.trans hm
    rw [carries_orInsert, hl.tenants_sub u hu, Bool.or_true]

/-- **The rule for `insert`**: the invariant at the root, after `ensureRoot`. -/
theorem InsertRule.insert (hR : InsertRule tenant text I F) (hS : Shape tr path) (epoch : Epoch)
    (hI : I (tr.ensureRoot tenant) path root) :
    ∃ tr' epoch' path', tr.insert text tenant epoch = some (tr', epoch') ∧ Shape tr' path' ∧
      F tr' path' := by
  obtain ⟨r, hr, -⟩ := hS.root_node
  refine hR.loop text.length _ epoch path root _ text (hS.ensureRoot tenant)
    (ensureRoot_read hr) ?_ (le_refl _) ?_ hI
  · rw [carries_orInsert]
    simp
  · rw [hS.path_root, List.nil_append]

end

end QwenStack.Tree
