import QwenStack.Tree.Paths

/-!
# Tree — the walk over all nodes, and the loops of `evict_tenant_by_size` and `remove_tenant`

The `stack` loop pops every node linked to the root exactly once, whatever order the children maps
are iterated in (`visitAll_spec`).  A popped node's children have not been seen: each names its
parent, and the parent has only just been popped.  So the fuel, one unit per allocated node, is
enough.

Both loops remove a tenant from a node that is a leaf for it, unlink the node when it is left
empty, and put its parent in line when that has become a leaf.  `Detached` says what one removal
does.  Each removal uses up a (node, tenant) pair, which bounds the loops.

`evictLoop_spec` and `removeLoop_spec` carry an invariant of single removals through a whole call;
`removeLoop_spec` adds that no node carries the tenant afterwards, since every leaf for it is in
the queue and a tenant that is anywhere has a leaf.
-/

namespace QwenStack.Tree
open Assoc List

section
variable {tr : Tree} {path : NodeId → Str} {n m : NodeId} {nd : Node} (ord : IterOrder)

/-- The children a popped node pushes. -/
def pushed (ord : IterOrder) (n : NodeId) (nd : Node) : List NodeId :=
  ((ord.children n nd.children).map Prod.snd).reverse

theorem Shape.mem_pushed (hS : Shape tr path) (hn : tr.nodes[n]? = some nd) :
    m ∈ pushed ord n nd ↔ ∃ c, nd.children.lookup c = some m := by
  rw [pushed, mem_reverse, mem_map]
  constructor
  · rintro ⟨⟨c, m'⟩, he, rfl⟩
    exact ⟨c, lookup_of_mem (hS.keys_nodup hn).1 ((ord.children_perm n _).mem_iff.mp he)⟩
  · rintro ⟨c, hc⟩
    exact ⟨(c, m), (ord.children_perm n _).mem_iff.mpr (mem_of_lookup hc), rfl⟩

theorem Shape.pushed_nodup (hS : Shape tr path) (hn : tr.nodes[n]? = some nd) :
    (pushed ord n nd).Nodup := by
  have hk := (hS.keys_nodup hn).1
  rw [pushed, nodup_reverse, ((ord.children_perm n nd.children).map Prod.snd).nodup_iff]
  refine List.Nodup.map_on ?_ (List.Nodup.of_map _ hk)
  rintro ⟨c, m⟩ he ⟨c', m'⟩ he' (rfl : m = m')
  have := hS.child_inj hn (lookup_of_mem hk he) hn (lookup_of_mem hk he')
  rw [this.2]

/-- The state of the walk: `seen` has been popped, `stack` is waiting. -/
structure Walking (tr : Tree) (seen stack : List NodeId) : Prop where
  nodup : (seen ++ stack).Nodup
  reached : ∀ n ∈ seen ++ stack, ∃ w, Path tr root n w
  from_seen : ∀ n ∈ seen ++ stack, n = root ∨
    ∃ p ∈ seen, ∃ pnode c, tr.nodes[p]? = some pnode ∧ pnode.children.lookup c = some n
  closed : ∀ p ∈ seen, ∀ pnode c m, tr.nodes[p]? = some pnode →
    pnode.children.lookup c = some m → m ∈ seen ++ stack

theorem Walking.pop (hS : Shape tr path) {seen stack : List NodeId}
    (hW : Walking tr seen (n :: stack)) (hn : tr.nodes[n]? = some nd) :
    Walking tr (seen ++ [n]) (pushed ord n nd ++ stack) := by
  have hnd := hW.nodup
  rw [nodup_append] at hnd
  obtain ⟨hseen, hstack, hdisj⟩ := hnd
  have hn_seen : n ∉ seen := fun h => hdisj n h n mem_cons_self rfl
  -- a child of `n` has not been seen and is not waiting
  have fresh : ∀ m ∈ pushed ord n nd, m ∉ seen ++ n :: stack := by
    intro m hm hmem
    obtain ⟨c, hc⟩ := (hS.mem_pushed ord hn).mp hm
    rcases hW.from_seen m hmem with rfl | ⟨p, hp, pnode, c', hpn, hc'⟩
    · exact hS.child_ne_root hn hc rfl
    · exact hn_seen ((hS.child_inj hn hc hpn hc').1 ▸ hp)
  have hperm : (seen ++ [n] ++ (pushed ord n nd ++ stack)).Perm
      (pushed ord n nd ++ (seen ++ n :: stack)) := by
    have h₁ : seen ++ [n] ++ (pushed ord n nd ++ stack) =
        (seen ++ [n]) ++ pushed ord n nd ++ stack := by simp
    have h₂ : pushed ord n nd ++ (seen ++ n :: stack) =
        pushed ord n nd ++ (seen ++ [n]) ++ stack := by simp
    rw [h₁, h₂]
    exact List.perm_append_comm.append_right _
  refine ⟨?_, ?_, ?_, ?_⟩
  · rw [hperm.nodup_iff, nodup_append]
    exact ⟨hS.pushed_nodup ord hn, hW.nodup, fun a ha b hb hab => fresh a ha (hab ▸ hb)⟩
  · intro m hm
    rcases List.mem_append.mp (hperm.mem_iff.mp hm) with hm | hm
    · obtain ⟨c, hc⟩ := (hS.mem_pushed ord hn).mp hm
      obtain ⟨w, hw⟩ := hW.reached n (by simp)
      obtain ⟨mnode, hmn, -⟩ := hS.child hn hc
      exact ⟨_, hw.snoc hn hc hmn⟩
    · exact hW.reached m hm
  · intro m hm
    rcases List.mem_append.mp (hperm.mem_iff.mp hm) with hm | hm
    · obtain ⟨c, hc⟩ := (hS.mem_pushed ord hn).mp hm
      exact .inr ⟨n, by simp, nd, c, hn, hc⟩
    · rcases hW.from_seen m hm with h | ⟨p, hp, h⟩
      · exact .inl h
      · exact .inr ⟨p, mem_append_left _ hp, h⟩
  · intro p hp pnode c m hpn hc
    rw [hperm.mem_iff]
    rcases List.mem_append.mp hp with hp | hp
    · exact mem_append_right _ (hW.closed p hp pnode c m hpn hc)
    · obtain rfl := List.mem_singleton.mp hp
      cases hpn.symm.trans hn
      exact mem_append_left _ ((hS.mem_pushed ord hn).mpr ⟨c, hc⟩)

/-- The nodes met by a walk are at most the allocated ones. -/
theorem Walking.length_le (hS : Shape tr path) {seen stack : List NodeId}
    (hW : Walking tr seen stack) : (seen ++ stack).length ≤ tr.nodes.length := by
  obtain ⟨r, hr, -⟩ := hS.root_node
  have hsub : seen ++ stack ⊆ List.range tr.nodes.length := by
    intro n hn
    obtain ⟨w, hw⟩ := hW.reached n hn
    obtain ⟨nd, hnd⟩ := hw.read hr
    exact List.mem_range.mpr (Heap.lt_of_read hnd)
  simpa using (subperm_of_subset hW.nodup hsub).length_le

theorem visit_spec (hS : Shape tr path) : ∀ (fuel : Nat) (seen stack : List NodeId),
    Walking tr seen stack → tr.nodes.length ≤ fuel + seen.length →
    ∃ rest, visit ord tr.nodes fuel stack = some rest ∧ Walking tr (seen ++ rest) [] ∧
      stack ⊆ rest := by
  intro fuel
  induction fuel with
  | zero =>
    intro seen stack hW hf
    have hlen := hW.length_le hS
    rw [length_append] at hlen
    obtain rfl : stack = [] := List.length_eq_zero_iff.mp (by omega)
    exact ⟨[], rfl, by simpa using hW, by simp⟩
  | succ fuel ih =>
    intro seen stack hW hf
    cases stack with
    | nil => exact ⟨[], rfl, by simpa using hW, by simp⟩
    | cons n stack =>
      obtain ⟨r, hr, -⟩ := hS.root_node
      obtain ⟨w, hw⟩ := hW.reached n (by simp)
      obtain ⟨nd, hn⟩ := hw.read hr
      obtain ⟨rest, hrun, hW', hsub⟩ := ih (seen ++ [n]) (pushed ord n nd ++ stack)
        (hW.pop ord hS hn) (by rw [length_append]; simp; omega)
      refine ⟨n :: rest, ?_, by simpa using hW', ?_⟩
      · rw [pushed] at hrun
        simp only [visit, hn, Option.bind_eq_bind, Option.bind_some, hrun]
      · intro x hx
        rcases List.mem_cons.mp hx with rfl | hx
        · exact mem_cons_self
        · exact mem_cons_of_mem _ (hsub (mem_append_right _ hx))

/-- **The walk meets every linked node once.** -/
theorem visitAll_spec (hS : Shape tr path) : ∃ order, tr.visitAll ord = some order ∧ order.Nodup ∧
      ∀ n, n ∈ order ↔ ∃ w, Path tr root n w := by
  have start : Walking tr [] [root] :=
    ⟨by simp, fun n hn => ⟨[], by rw [List.mem_singleton.mp hn]; exact .refl _⟩,
      fun n hn => .inl (List.mem_singleton.mp hn), by simp⟩
  obtain ⟨order, hrun, hW, hroot⟩ := visit_spec ord hS tr.nodes.length [] [root] start (by simp)
  simp only [nil_append] at hW
  have hn := hW.nodup
  rw [append_nil] at hn
  refine ⟨order, hrun, hn, fun n => ⟨fun h => hW.reached n (by simpa using h), ?_⟩⟩
  rintro ⟨w, hw⟩
  refine hw.mem_of_closed (S := (· ∈ order)) (fun hp hpn hc => ?_) (hroot (by simp))
  simpa using hW.closed _ hp _ _ _ hpn hc

end

/-! ### Removals -/

/-- `m` hangs under `p` at `c`. -/
def Link (tr : Tree) (p : NodeId) (c : Char) (m : NodeId) : Prop :=
  ∃ pnode, tr.nodes[p]? = some pnode ∧ pnode.children.lookup c = some m

/-- What the removal of `t` at `n` does. -/
structure Detached (tr tr' : Tree) (t : TenantId) (n : NodeId) : Prop where
  carries : ∀ u x, tr'.carriesAt u x = (tr.carriesAt u x && !(decide (u = t) && decide (x = n)))
  counts : tr'.tenantCharCount = tr.tenantCharCount
  read : ∀ {x : NodeId} {nd : Node}, tr.nodes[x]? = some nd → ∃ nd', tr'.nodes[x]? = some nd'
  links : ∀ {p : NodeId} {c : Char} {m : NodeId}, tr'.Link p c m → tr.Link p c m
  links_other : ∀ {p : NodeId} {c : Char} {m : NodeId}, tr.Link p c m → m ≠ n → tr'.Link p c m

section
variable {tr : Tree} {path : NodeId → Str} {n p m : NodeId} {nd pnode : Node} {c : Char}
  {t : TenantId}

theorem carriesAt_modify {f : Node → Node} {u : TenantId} {x : NodeId}
    (hf : ∀ nd, (f nd).carries u = nd.carries u) :
    (tr.modify n f).carriesAt u x = tr.carriesAt u x := by
  by_cases h : n = x
  · subst h
    simp only [carriesAt, modify, List.getElem?_modify_eq]
    cases tr.nodes[n]? <;> simp [hf]
  · simp only [carriesAt, modify, Heap.modify_other h]

theorem carriesAt_dropTenant (hn : tr.nodes[n]? = some nd) (u : TenantId) (x : NodeId) :
    (tr.modify n (Node.dropTenant t)).carriesAt u x =
      (tr.carriesAt u x && !(decide (u = t) && decide (x = n))) := by
  by_cases h : n = x
  · subst h
    rw [carriesAt_eq (Heap.modify_same hn), carriesAt_eq hn, Node.carries_dropTenant]
    by_cases hu : u = t <;> simp [hu]
  · rw [carriesAt, modify, Heap.modify_other h, carriesAt]
    simp [Ne.symm h]

theorem link_modify {f : Node → Node} (hf : ∀ nd, (f nd).children = nd.children) :
    (tr.modify n f).Link p c m ↔ tr.Link p c m := by
  constructor
  · rintro ⟨pnode, hp, hc⟩
    rcases Heap.modify_inv hp with ⟨rfl, a, ha, rfl⟩ | ⟨-, hp'⟩
    · exact ⟨a, ha, hf a ▸ hc⟩
    · exact ⟨pnode, hp', hc⟩
  · rintro ⟨pnode, hp, hc⟩
    by_cases h : n = p
    · subst h
      exact ⟨f pnode, Heap.modify_same hp, (hf pnode).symm ▸ hc⟩
    · exact ⟨pnode, (Heap.modify_other h).trans hp, hc⟩

theorem Shape.detached (hS : Shape tr path) (hn : tr.nodes[n]? = some nd)
    (ht : nd.carries t = true) (hleaf : tr.childCarries nd t = false) :
    Detached tr (tr.detachTenant t n).1 t n ∧ (tr.detachTenant t n).2 = nd.parent := by
  have read : ∀ {tr : Tree} {f : Node → Node} {n x : NodeId} {nd : Node},
      tr.nodes[x]? = some nd → ∃ nd', (tr.modify n f).nodes[x]? = some nd' := by
    intro tr f n x nd hx
    by_cases h : n = x
    · subst h
      exact ⟨_, Heap.modify_same hx⟩
    · exact ⟨nd, (Heap.modify_other h).trans hx⟩
  have links : ∀ {p : NodeId} {c : Char} {m : NodeId},
      (tr.modify n (Node.dropTenant t)).Link p c m ↔ tr.Link p c m := link_modify fun _ => rfl
  rcases detachTenant_cases hS hn ht hleaf with ⟨-, e⟩ | ⟨p, pnode, c, hp, hc, -, -, e⟩
  · rw [e]
    exact ⟨⟨carriesAt_dropTenant hn, rfl, read, links.mp, fun h _ => links.mpr h⟩, rfl⟩
  · rw [e]
    have hnp : n ≠ p := hS.child_ne hp hc
    have hp' : (tr.modify n (Node.dropTenant t)).nodes[p]? = some pnode :=
      (Heap.modify_other hnp).trans hp
    refine ⟨⟨fun u x => ?_, rfl, ?_, ?_, ?_⟩, rfl⟩
    · exact (carriesAt_modify (f := Node.unlink c) fun _ => rfl).trans (carriesAt_dropTenant hn u x)
    · intro x xnode hx
      obtain ⟨_, hx'⟩ := read (f := Node.dropTenant t) (n := n) hx
      exact read hx'
    · rintro q c' m ⟨qnode, hq, hc'⟩
      refine links.mp ?_
      rcases Heap.modify_inv hq with ⟨rfl, a, ha, rfl⟩ | ⟨-, hq'⟩
      · refine ⟨a, ha, ?_⟩
        rw [Node.unlink, lookup_del] at hc'
        split at hc'
        · cases hc'
        · exact hc'
      · exact ⟨qnode, hq', hc'⟩
    · rintro q c' m hlink hmn
      obtain ⟨qnode, hq, hc'⟩ := links.mpr hlink
      by_cases hpq : p = q
      · subst hpq
        cases hp'.symm.trans hq
        refine ⟨_, Heap.modify_same hq, ?_⟩
        rw [Node.unlink, lookup_del, if_neg, hc']
        rintro rfl
        exact hmn (Option.some.inj (hc'.symm.trans hc))
      · exact ⟨qnode, (Heap.modify_other hpq).trans hq, hc'⟩

/-- A sum over the nodes that does not look at their children, after a removal. -/
theorem Shape.detach_sum (hS : Shape tr path) (hn : tr.nodes[n]? = some nd)
    (ht : nd.carries t = true) (hleaf : tr.childCarries nd t = false) (w : Node → Nat)
    (hw : ∀ nd c, w (Node.unlink c nd) = w nd) :
    ((tr.detachTenant t n).1.nodes.map w).sum + w nd = (tr.nodes.map w).sum + w (nd.dropTenant t) := by
  rcases detachTenant_cases hS hn ht hleaf with ⟨-, e⟩ | ⟨p, pnode, c, -, -, -, -, e⟩
  · rw [e]
    exact Heap.sum_modify w hn
  · rw [e]
    simp only [modify, Heap.sum_modify_same w (fun x => hw x c)]
    exact Heap.sum_modify w hn

/-! ### Leaves -/

theorem leafFor_iff (hS : Shape tr path) {x : NodeId} : LeafFor tr t x ↔
    tr.carriesAt t x = true ∧ ∀ c m, tr.Link x c m → tr.carriesAt t m = false := by
  constructor
  · rintro ⟨nd, hx, ht, hleaf⟩
    refine ⟨by rwa [carriesAt_eq hx], ?_⟩
    rintro c m ⟨nd', hx', hc⟩
    cases hx.symm.trans hx'
    obtain ⟨mnode, hm, -⟩ := hS.child hx hc
    rw [carriesAt_eq hm]
    exact not_carries_of_childCarries hleaf hc hm
  · rintro ⟨ht, hno⟩
    obtain ⟨nd, hx, hnt⟩ := carriesAt_iff.mp ht
    refine ⟨nd, hx, hnt, ?_⟩
    by_contra hne
    rw [Bool.not_eq_false, childCarries_iff] at hne
    obtain ⟨⟨c, m⟩, he, hm⟩ := hne
    rw [hno c m ⟨nd, hx, lookup_of_mem (hS.keys_nodup hx).1 he⟩] at hm
    cases hm

/-- A removal at a leaf makes no other leaf but the node above it. -/
theorem Detached.leafFor {tr' : Tree} (hD : Detached tr tr' t n) (hS' : Shape tr' path)
    {x : NodeId} :
    LeafFor tr' t x ↔ x ≠ n ∧ tr.carriesAt t x = true ∧
      ∀ c m, tr.Link x c m → m ≠ n → tr.carriesAt t m = false := by
  rw [leafFor_iff hS', hD.carries]
  simp only [decide_true, Bool.true_and, Bool.and_eq_true, Bool.not_eq_true', decide_eq_false_iff_not]
  constructor
  · rintro ⟨⟨ht, hxn⟩, hno⟩
    refine ⟨hxn, ht, fun c m hl hmn => ?_⟩
    have := hno c m (hD.links_other hl hmn)
    rw [hD.carries] at this
    simpa [hmn] using this
  · rintro ⟨hxn, ht, hno⟩
    refine ⟨⟨ht, hxn⟩, fun c m hl => ?_⟩
    rw [hD.carries]
    by_cases hmn : m = n
    · simp [hmn]
    · rw [hno c m (hD.links hl) hmn]
      rfl

/-- A tenant that is anywhere has a leaf: a node on a longest path. -/
theorem Shape.exists_leaf (hS : Shape tr path) :
    ∀ {n : NodeId} {nd : Node}, tr.nodes[n]? = some nd → nd.carries t = true → ∃ m, LeafFor tr t m := by
  obtain ⟨B, hB⟩ : ∃ B, ∀ n < tr.nodes.length, (path n).length ≤ B :=
    ⟨((List.range tr.nodes.length).map fun n => (path n).length).sum, fun n hn =>
      le_sum_of_mem (mem_map_of_mem (List.mem_range.mpr hn))⟩
  suffices ∀ (k : Nat) (n : NodeId) (nd : Node), B - (path n).length = k →
      tr.nodes[n]? = some nd → nd.carries t = true → ∃ m, LeafFor tr t m from
    fun {n nd} hn ht => this _ n nd rfl hn ht
  intro k
  induction k using Nat.strong_induction_on with
  | _ k ih =>
    intro n nd hk hn ht
    by_cases hleaf : LeafFor tr t n
    · exact ⟨n, hleaf⟩
    · rw [leafFor_iff hS, carriesAt_eq hn] at hleaf
      push Not at hleaf
      obtain ⟨c, m, ⟨nd', hn', hc⟩, hm⟩ := hleaf ht
      obtain ⟨mnode, hmn, hmt⟩ := carriesAt_iff.mp (by simpa using hm)
      have h₁ := hS.path_lt hn' hc
      have h₂ := hB m (Heap.lt_of_read hmn)
      exact ih _ (by omega) m mnode rfl hmn hmt

theorem leafParent_eq_some {parent : Option NodeId} : leafParent t tr parent = some (p, pnode) ↔
      parent = some p ∧ tr.nodes[p]? = some pnode ∧ pnode.carries t = true ∧
        tr.childCarries pnode t = false := by
  cases parent with
  | none => simp [leafParent]
  | some q =>
    simp only [leafParent, Option.bind_eq_bind, Option.bind_some]
    cases hq : tr.nodes[q]? with
    | none =>
      simp only [Option.bind_none, reduceCtorEq, Option.some.injEq, false_iff, not_and]
      rintro rfl h
      rw [hq] at h
      cases h
    | some qnode =>
      simp only [Option.bind_some]
      constructor
      · intro h
        split at h
        · next hcond =>
          cases h
          rw [Bool.and_eq_true, Bool.not_eq_true'] at hcond
          exact ⟨rfl, hq, hcond.1, hcond.2⟩
        · cases h
      · rintro ⟨e, hp, h₁, h₂⟩
        cases e
        cases hq.symm.trans hp
        rw [h₁, h₂]
        rfl

/-! ### `remove_tenant` -/

/-- The queue holds the leaves for `t`, each once. -/
structure Removing (tr : Tree) (t : TenantId) (queue : List NodeId) : Prop where
  nodup : queue.Nodup
  mem_iff : ∀ n, n ∈ queue ↔ LeafFor tr t n

/-- The number of nodes that carry `t`. -/
def carriers (tr : Tree) (t : TenantId) : Nat :=
  (tr.nodes.map fun nd => (nd.carries t).toNat).sum

theorem Shape.carriers_detach (hS : Shape tr path) (h : LeafFor tr t n) :
    (tr.detachTenant t n).1.carriers t + 1 = tr.carriers t := by
  obtain ⟨nd, hn, ht, hleaf⟩ := h
  have := hS.detach_sum hn ht hleaf (fun nd => (nd.carries t).toNat) (fun _ _ => rfl)
  simpa [ht, carriers] using this

/-- The node above a leaf, when it is in line for the queue. -/
theorem Shape.leafParent_iff (hS : Shape tr path) (hn : tr.nodes[n]? = some nd)
    (ht : nd.carries t = true) (hleaf : tr.childCarries nd t = false) :
    (∃ pnode, leafParent t (tr.detachTenant t n).1 (tr.detachTenant t n).2 = some (p, pnode)) ↔
      LeafFor (tr.detachTenant t n).1 t p ∧ ∃ c, tr.Link p c n := by
  rw [(hS.detached hn ht hleaf).2]
  constructor
  · rintro ⟨pnode, h⟩
    obtain ⟨hpar, hp, hpt, hpc⟩ := leafParent_eq_some.mp h
    refine ⟨⟨pnode, hp, hpt, hpc⟩, ?_⟩
    by_cases h0 : n = root
    · obtain ⟨r, hr, -, hrp⟩ := hS.root_node
      subst h0
      cases hn.symm.trans hr
      rw [hrp] at hpar
      cases hpar
    · obtain ⟨q, qnode, c, hq, hc, hl, -, -⟩ := hS.up hn h0 ht
      cases hl.parent.symm.trans hpar
      exact ⟨c, qnode, hq, hc⟩
  · rintro ⟨⟨pnode, hp, hpt, hpc⟩, c, qnode, hq, hc⟩
    obtain ⟨nd', hn', hl, -⟩ := hS.child hq hc
    cases hn'.symm.trans hn
    exact ⟨pnode, leafParent_eq_some.mpr ⟨hl.parent, hp, hpt, hpc⟩⟩

theorem Removing.step (hS : Shape tr path) {queue : List NodeId}
    (hQ : Removing tr t (n :: queue)) :
    Removing (tr.detachTenant t n).1 t (queue ++
      ((leafParent t (tr.detachTenant t n).1 (tr.detachTenant t n).2).map Prod.fst).toList) := by
  have hnleaf := (hQ.mem_iff n).mp mem_cons_self
  have hS' := hS.detachTenant hnleaf
  obtain ⟨nd, hn, ht, hleaf⟩ := hnleaf
  have hD := (hS.detached hn ht hleaf).1
  have hnq := List.nodup_cons.mp hQ.nodup
  have mem_parent : ∀ p, p ∈ ((leafParent t (tr.detachTenant t n).1
      (tr.detachTenant t n).2).map Prod.fst).toList ↔
      LeafFor (tr.detachTenant t n).1 t p ∧ ∃ c, tr.Link p c n := by
    intro p
    rw [← hS.leafParent_iff hn ht hleaf, Option.mem_toList, Option.map_eq_some_iff]
    simp
  -- the node above `n` was not a leaf: `n` carries the tenant
  have not_queued : ∀ p, (∃ c, tr.Link p c n) → p ∉ queue := by
    rintro p ⟨c, hl⟩ hp
    have := ((leafFor_iff hS).mp ((hQ.mem_iff p).mp (mem_cons_of_mem _ hp))).2 c n hl
    rw [carriesAt_eq hn, ht] at this
    cases this
  constructor
  · refine List.nodup_append.mpr ⟨hnq.2, ?_, ?_⟩
    · cases (leafParent t (tr.detachTenant t n).1 (tr.detachTenant t n).2).map Prod.fst <;> simp
    · rintro a ha b hb rfl
      exact not_queued a ((mem_parent a).mp hb).2 ha
  · intro x
    rw [mem_append, mem_parent, hD.leafFor hS']
    constructor
    · rintro (hx | ⟨hx, -⟩)
      · have hx' := (leafFor_iff hS).mp ((hQ.mem_iff x).mp (mem_cons_of_mem _ hx))
        refine ⟨?_, hx'.1, fun c m hl _ => hx'.2 c m hl⟩
        rintro rfl
        exact hnq.1 hx
      · exact hx
    · intro hx
      by_cases hl : ∃ c, tr.Link x c n
      · exact .inr ⟨hx, hl⟩
      · left
        have hleaf' : LeafFor tr t x := by
          refine (leafFor_iff hS).mpr ⟨hx.2.1, fun c m hlm => hx.2.2 c m hlm ?_⟩
          rintro rfl
          exact hl ⟨c, hlm⟩
        exact (List.mem_cons.mp ((hQ.mem_iff x).mpr hleaf')).resolve_left hx.1

/-- **The loop of `remove_tenant`** ends, keeps what single removals keep, and leaves no node
that carries the tenant. -/
theorem removeLoop_spec {I : Tree → Prop}
    (hI : ∀ {tr : Tree} {n : NodeId}, Shape tr path → LeafFor tr t n → I tr →
      I (tr.detachTenant t n).1) :
    ∀ (fuel : Nat) (tr : Tree) (queue : List NodeId), Shape tr path → Removing tr t queue →
      tr.carriers t ≤ fuel → I tr →
      ∃ tr', removeLoop t fuel tr queue = some tr' ∧ Shape tr' path ∧ I tr' ∧
        ∀ n, tr'.carriesAt t n = false := by
  have done : ∀ {tr : Tree}, Shape tr path → Removing tr t [] → ∀ n, tr.carriesAt t n = false := by
    intro tr hS hQ n
    by_contra hne
    obtain ⟨nd, hn, ht⟩ := carriesAt_iff.mp (by simpa using hne)
    obtain ⟨m, hm⟩ := hS.exists_leaf hn ht
    simpa using (hQ.mem_iff m).mpr hm
  intro fuel
  induction fuel with
  | zero =>
    intro tr queue hS hQ hf hi
    cases queue with
    | nil => exact ⟨tr, rfl, hS, hi, done hS hQ⟩
    | cons n queue =>
      have := hS.carriers_detach ((hQ.mem_iff n).mp mem_cons_self)
      omega
  | succ fuel ih =>
    intro tr queue hS hQ hf hi
    cases queue with
    | nil => exact ⟨tr, rfl, hS, hi, done hS hQ⟩
    | cons n queue =>
      have hnleaf := (hQ.mem_iff n).mp mem_cons_self
      have hcount := hS.carriers_detach hnleaf
      obtain ⟨tr', hrun, h⟩ := ih _ _ (hS.detachTenant hnleaf) (hQ.step hS) (by omega) (hI hS hnleaf hi)
      refine ⟨tr', ?_, h⟩
      rw [← hrun]
      simp only [removeLoop]
      cases leafParent t (tr.detachTenant t n).1 (tr.detachTenant t n).2 <;> simp

/-- The queue `remove_tenant` starts from. -/
theorem removing_start (ord : IterOrder) (hS : Shape tr path) :
    ∃ order, tr.visitAll ord = some order ∧ Removing tr t (order.filter fun n =>
      (tr.nodes[n]?).any fun nd => nd.carries t && !tr.childCarries nd t) := by
  obtain ⟨order, hrun, hnd, hmem⟩ := visitAll_spec ord hS
  refine ⟨order, hrun, hnd.filter _, fun n => ?_⟩
  rw [mem_filter, Option.any_eq_true]
  simp only [Bool.and_eq_true, Bool.not_eq_true']
  constructor
  · rintro ⟨-, nd, hn, ht, hleaf⟩
    exact ⟨nd, hn, ht, hleaf⟩
  · rintro ⟨nd, hn, ht, hleaf⟩
    exact ⟨(hmem n).mpr ⟨_, hS.path_of_carries hn ht⟩, nd, hn, ht, hleaf⟩

theorem carriers_le_length (tr : Tree) (t : TenantId) : tr.carriers t ≤ tr.nodes.length := by
  rw [carriers]
  induction tr.nodes with
  | nil => simp
  | cons nd l ih =>
    have : (nd.carries t).toNat ≤ 1 := Bool.toNat_le _
    simp only [map_cons, sum_cons, length_cons]
    omega

/-- **`remove_tenant`**: the loop, then the count. -/
theorem removeTenant_spec (ord : IterOrder) (hS : Shape tr path) {I : Tree → Prop}
    (hI : ∀ {tr : Tree} {n : NodeId}, Shape tr path → LeafFor tr t n → I tr →
      I (tr.detachTenant t n).1) (hi : I tr) :
    ∃ tr', tr.removeTenant ord t =
        some { tr' with tenantCharCount := del t tr'.tenantCharCount } ∧
      Shape tr' path ∧ I tr' ∧ ∀ n, tr'.carriesAt t n = false := by
  obtain ⟨order, hvisit, hQ⟩ := removing_start (t := t) ord hS
  obtain ⟨tr', hrun, h⟩ := removeLoop_spec hI tr.nodes.length tr _ hS hQ (carriers_le_length tr t) hi
  refine ⟨tr', ?_, h⟩
  simp only [removeTenant, hvisit, Option.bind_eq_bind, Option.bind_some, hrun]

end

end QwenStack.Tree
