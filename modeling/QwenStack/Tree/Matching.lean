import QwenStack.Tree.Owned

/-!
# Tree — what `prefix_match_with_counts` returns

The descent is greedy.  Children differ in their first character, so there is nowhere else to go,
and what it matches is the most that any path shares with the text (`matched_isGreatest`).

The tenant comes from a cache that evictions and removals do not clear and that a split copies.  It
is checked against the node before it is used, so it is a tenant of the node reached, on whose path
the matched text lies.
-/

namespace QwenStack.Tree
open Assoc

/-- The numbers of leading characters the text shares with the paths from the root. -/
def sharedCounts (tr : Tree) (s : Str) : Set Nat := {k | ∃ n w, Path tr root n w ∧ lcpLen s w = k}

section
variable {tr : Tree} {path : NodeId → Str} {admits : Node → Bool} {n : NodeId} {nd : Node} {j : Nat}

/-- What the descent has matched lies on the path to the node it ends at. -/
theorem matchLoop_path (hS : Shape tr path) :
    ∀ (fuel : Nat) (x : NodeId) (xnode : Node) (remaining : Str) (k : Nat) (r : NodeId × Nat),
      tr.nodes[x]? = some xnode → tr.matchLoop admits fuel x remaining k = some r →
      ∃ j w, r.2 = k + j ∧ Path tr x r.1 w ∧ remaining.take j <+: w := by
  have here : ∀ (x : NodeId) (remaining : Str) (k : Nat) (r : NodeId × Nat), (x, k) = r →
      ∃ j w, r.2 = k + j ∧ Path tr x r.1 w ∧ remaining.take j <+: w := by
    rintro x remaining k r rfl
    exact ⟨0, [], rfl, .refl x, by simp⟩
  intro fuel
  induction fuel with
  | zero =>
    intro x xnode remaining k r _ hrun
    cases remaining with
    | nil => exact here x [] k r (Option.some.inj hrun)
    | cons c rest => cases hrun
  | succ fuel ih =>
    intro x xnode remaining k r hx hrun
    cases remaining with
    | nil => exact here x [] k r (Option.some.inj hrun)
    | cons c rest =>
      simp only [matchLoop, hx, Option.bind_eq_bind, Option.bind_some] at hrun
      cases hc : xnode.children.lookup c with
      | none =>
        rw [hc] at hrun
        exact here x _ k r (Option.some.inj hrun)
      | some m =>
        obtain ⟨mnode, hm, hl, -⟩ := hS.child hx hc
        simp only [hc, hm, Option.bind_some, sharedPrefixCount_eq, advanceByChars_eq] at hrun
        split at hrun
        · have hstep : Path tr x m mnode.text.text := by
            have := Path.step hx hc hm (.refl m)
            rwa [List.append_nil] at this
          split at hrun
          · next hfull =>
            obtain ⟨j, w, hr, hpath, hpre⟩ := ih m mnode _ _ r hm hrun
            refine ⟨lcpLen (c :: rest) mnode.text.text + j, mnode.text.text ++ w,
              by rw [hr, Nat.add_assoc], .step hx hc hm hpath, ?_⟩
            -- the whole text of the child, and what is matched below it
            have htake : (c :: rest).take (lcpLen (c :: rest) mnode.text.text) =
                mnode.text.text := by
              rw [take_lcpLen, hfull.trans hl.counted, List.take_length]
            rw [List.take_add, htake, List.prefix_append_right_inj]
            exact hpre
          · cases hrun
            refine ⟨_, _, rfl, hstep, ?_⟩
            rw [take_lcpLen]
            exact List.take_prefix _ _
        · exact here x _ k r (Option.some.inj hrun)

/-- **Nothing in the tree shares more** with the text than the descent matches. -/
theorem Descended.matched_isGreatest {s : Str} {w : Str}
    (h : Descended tr (fun _ => true) root s n j) (hpath : Path tr root n w)
    (hpre : s.take j <+: w) (hroot : ∃ r, tr.nodes[root]? = some r) :
    IsGreatest (tr.sharedCounts s) j := by
  have hmax : ∀ {m : NodeId} {v : Str}, Path tr root m v → lcpLen s v ≤ j := by
    intro m v hv
    obtain ⟨r, hr⟩ := hroot
    obtain ⟨mnode, hm⟩ := hv.read hr
    have hshared : s.take (lcpLen s v) <+: v := by
      rw [take_lcpLen]
      exact List.take_prefix _ _
    have := h.max ⟨m, mnode, v, hv, hm, rfl, hshared⟩ (List.take_prefix _ _)
    rwa [List.length_take, Nat.min_eq_left (lcpLen_le_left s v)] at this
  constructor
  · refine ⟨n, w, hpath, Nat.le_antisymm (hmax hpath) ?_⟩
    have := le_lcpLen_of_isPrefix (List.take_prefix j s) hpre
    rwa [List.length_take, Nat.min_eq_left h.le] at this
  · rintro k ⟨m, v, hv, rfl⟩
    exact hmax hv

/-- A node without tenants gets the invented one. -/
theorem selectTenant_empty (ord : IterOrder) (h : nd.tenantLastAccessTime = []) :
    (selectTenant ord n nd).1 = emptyTenant := by
  have hperm := ord.tenants_perm n nd.tenantLastAccessTime
  rw [h] at hperm
  have hfirst : firstTenant ord n nd = emptyTenant := by
    rw [firstTenant, h, List.perm_nil.mp hperm]
    rfl
  have hcarries : ∀ t, nd.carries t = false := fun t => by simp [Node.carries, contains, h]
  rw [selectTenant]
  split
  · rw [hcarries]
    exact hfirst
  · exact hfirst

/-- What a match reports, about the node `n` its descent ends at. -/
structure Reported (tr : Tree) (s : Str) (r : PrefixMatchResult) (n : NodeId) (nd : Node) : Prop where
  reached : tr.matchLoop (fun _ => true) s.length root s 0 = some (n, r.matchedCharCount)
  read : tr.nodes[n]? = some nd
  tenant : nd.carries r.tenant = true ∨ nd.tenants = [] ∧ r.tenant = emptyTenant

/-- A match reports the node its descent ends at. -/
theorem Shape.reports (hS : Shape tr path) (ord : IterOrder) (s : Str) (e : Epoch) :
    ∃ tr' e' r, tr.prefixMatchWithCounts ord s e = some (tr', e', r) ∧
      r.inputCharCount = s.length ∧
      IsGreatest (tr.sharedCounts s) r.matchedCharCount ∧
      ((∃ u, tr.carriesAt u root = true) → s.take r.matchedCharCount ∈ tr.Owned r.tenant) ∧
      ∃ n nd, Reported tr s r n nd := by
  obtain ⟨r, hr, -⟩ := hS.root_node
  have hup : UpClosed tr (fun _ => true) := fun _ _ _ _ => rfl
  obtain ⟨n, j, hloop, hD⟩ := matchLoop_spec hS hup s.length root r s 0 hr (le_refl _)
  obtain ⟨nd, hn, hne⟩ := hD.node hr
  obtain ⟨j', w, hj, hpath, hpre⟩ := matchLoop_path hS s.length root r s 0 _ hr hloop
  obtain rfl : j = j' := by simpa using hj
  have hmatch : tr.prefixMatchWithCounts ord s e = some (tr.touch ord n nd e, e + 1,
      ⟨(selectTenant ord n nd).1, j, s.length⟩) := by
    simp only [prefixMatchWithCounts, hloop, hn, Option.bind_eq_bind, Option.bind_some, Nat.zero_add]
    rfl
  refine ⟨_, _, _, hmatch, rfl, hD.matched_isGreatest hpath hpre ⟨r, hr⟩, ?_, n, nd, ?_⟩
  · rintro ⟨u, hu⟩
    have hsome : nd.tenantLastAccessTime ≠ [] := by
      by_cases h0 : n = root
      · subst h0
        rw [carriesAt_eq hn] at hu
        exact Node.tenants_ne_nil hu
      · exact (hne h0).2
    exact ⟨n, nd, w, hpath, hn, selectTenant_carries ord hsome, hpre⟩
  · refine ⟨by simpa using hloop, hn, ?_⟩
    by_cases he : nd.tenantLastAccessTime = []
    · exact .inr ⟨by simp [Node.tenants, he], selectTenant_empty ord he⟩
    · exact .inl (selectTenant_carries ord he)

/-- **`prefix_match_with_counts`**, after any run, at any epoch, on any text: the characters of the
text, the most that a path of the tree shares with it, and a tenant that owns them, if the root has
a tenant.  The tenant is invented only at a node that has none. -/
theorem run_matches (ops : List (IterOrder × Op)) (epoch₀ : Epoch) :
    ∃ tr epoch, run ops (new, epoch₀) = some (tr, epoch) ∧ ∀ ord s e,
      ∃ tr' e' r, tr.prefixMatchWithCounts ord s e = some (tr', e', r) ∧
        r.inputCharCount = s.length ∧
        IsGreatest (tr.sharedCounts s) r.matchedCharCount ∧
        ((∃ u, tr.carriesAt u root = true) → s.take r.matchedCharCount ∈ tr.Owned r.tenant) ∧
        ∃ n nd, Reported tr s r n nd := by
  obtain ⟨⟨tr, epoch⟩, hrun, path, hS⟩ := run_total ops epoch₀
  exact ⟨tr, epoch, hrun, fun ord s e => hS.reports ord s e⟩

/-! ### A text that is owned -/

/-- A text that some tenant owns is matched in full, and reported for a tenant that owns it. -/
theorem Shape.reports_owned (hS : Shape tr path) {ord : IterOrder} {s : Str} {e e' : Epoch} {tr' : Tree}
    {r : PrefixMatchResult} {t : TenantId} (hs : s ∈ tr.Owned t)
    (h : tr.prefixMatchWithCounts ord s e = some (tr', e', r)) :
    r.matchedCharCount = s.length ∧ r.inputCharCount = s.length ∧ s ∈ tr.Owned r.tenant := by
  obtain ⟨tr'', e'', r', h', hinput, hgreatest, howned, -⟩ := hS.reports ord s e
  obtain ⟨rfl, hr⟩ := Prod.mk.inj (Option.some.inj (h.symm.trans h'))
  cases hr
  obtain ⟨n, nd, w, hpath, hn, ht, hpre⟩ := hs
  have hshared : s.length ∈ tr.sharedCounts s :=
    ⟨n, w, hpath, Nat.le_antisymm (lcpLen_le_left s w) (le_lcpLen_of_isPrefix (List.prefix_refl s) hpre)⟩
  have hfull : r.matchedCharCount = s.length := by
    obtain ⟨m, v, -, hm⟩ := hgreatest.1
    exact Nat.le_antisymm (hm ▸ lcpLen_le_left s v) (hgreatest.2 hshared)
  refine ⟨hfull, hinput, ?_⟩
  have hown := howned ⟨t, hS.root_carries hn ht⟩
  rwa [hfull, List.take_length] at hown

theorem carriesAt_modify_mono {f : Node → Node} {u : TenantId} {x : NodeId}
    (hf : ∀ nd, nd.carries u = true → (f nd).carries u = true) (h : tr.carriesAt u x = true) :
    (tr.modify n f).carriesAt u x = true := by
  obtain ⟨nd, hx, hu⟩ := carriesAt_iff.mp h
  by_cases hnx : n = x
  · subst hnx
    exact carriesAt_iff.mpr ⟨_, Heap.modify_same hx, hf nd hu⟩
  · exact carriesAt_iff.mpr ⟨nd, (Heap.modify_other hnx).trans hx, hu⟩

/-- A match takes nothing away: at most it stamps a tenant. -/
theorem Shape.owned_touch (hS : Shape tr path) (ord : IterOrder) (hn : tr.nodes[n]? = some nd)
    (hne : n ≠ root → nd.tenantLastAccessTime ≠ []) (epoch : Epoch) (u : TenantId) :
    tr.Owned u ⊆ (tr.touch ord n nd epoch).Owned u := by
  have hcarries : ∀ x, tr.carriesAt u x = true → (tr.touch ord n nd epoch).carriesAt u x = true := by
    intro x hx
    have hcache : (tr.modify n (Node.cache (selectTenant ord n nd).2)).carriesAt u x = true :=
      carriesAt_modify_mono (fun _ hu => hu) hx
    rw [Tree.touch]
    split
    · exact carriesAt_modify_mono (fun nd hu => by rw [Node.carries_stamp, hu, Bool.or_true]) hcache
    · exact hcache
  intro s hs
  obtain ⟨x, hx, hpre⟩ := hS.mem_owned.mp hs
  exact (hS.touch ord hn hne epoch).mem_owned.mpr ⟨x, hcarries x hx, hpre⟩

/-- A match leaves every set as it is, or larger. -/
theorem Shape.match_owned (hS : Shape tr path) {ord : IterOrder} {s : Str} {e e' : Epoch} {tr' : Tree}
    {r : PrefixMatchResult} (h : tr.prefixMatchWithCounts ord s e = some (tr', e', r)) (u : TenantId) :
    tr.Owned u ⊆ tr'.Owned u := by
  obtain ⟨n, nd, j, hn, -, hne, hrun⟩ := prefixMatchWithCounts_spec ord hS s e
  obtain ⟨rfl, -⟩ := Prod.mk.inj (Option.some.inj (h.symm.trans hrun))
  exact hS.owned_touch ord hn hne e u

end

end QwenStack.Tree
