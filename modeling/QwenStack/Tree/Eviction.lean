import Mathlib.Logic.Relation
import QwenStack.Tree.Removal

/-!
# Tree — the loop of `evict_tenant_by_size`

A popped entry is skipped, or it evicts: the node is then a leaf for the entry's tenant and the
tenant is over its size (`evictEntry_cases`).  Every iteration shrinks the heap or uses up a
(node, tenant) pair, so the loop ends (`evictLoop_spec`).

`EvictReaches` relates the states at the head of the loop, for results about what happens during a
call rather than after it.
-/

namespace QwenStack.Tree
open Assoc

/-- The tree after an eviction of `t` at `n`, a node of `k` characters. -/
def evictAt (t : TenantId) (n : NodeId) (k : Nat) (tr : Tree) : Tree :=
  (Tree.detachTenant t n { tr with
    tenantCharCount := andModify t (· - k) tr.tenantCharCount }).1

/-- The states of the loop that a call goes through. -/
def EvictReaches (ord : IterOrder) (maxSize : Nat) :
    Tree × List EvictionEntry → Tree × List EvictionEntry → Prop :=
  Relation.ReflTransGen fun s s' => evictStep ord maxSize s.1 s.2 = some s'

/-- The heap holds allocated nodes. -/
def Evicting (tr : Tree) (pq : List EvictionEntry) : Prop :=
  ∀ e ∈ pq, ∃ nd, tr.nodes[e.node]? = some nd

/-- What an eviction keeps: `I` survives the removal of a tenant that is over its size at a leaf. -/
def EvictKeeps (path : NodeId → Str) (maxSize : Nat) (I : Tree → Prop) : Prop :=
  ∀ {tr : Tree} {t : TenantId} {n : NodeId} {nd : Node}, Shape tr path → tr.nodes[n]? = some nd →
    nd.carries t = true → tr.childCarries nd t = false →
    (∀ used, tr.tenantCharCount.lookup t = some used → maxSize < used) → I tr →
    I (tr.evictAt t n nd.text.charCount)

section
variable {tr : Tree} {path : NodeId → Str} {ord : IterOrder} {maxSize : Nat}
  {pq : List EvictionEntry} {e : EvictionEntry} {nd : Node} {n : NodeId} {t : TenantId} {k : Nat}

theorem evictSkips_eq_false : evictSkips maxSize tr e nd = false ↔
    (∀ used, tr.tenantCharCount.lookup e.tenant = some used → maxSize < used) ∧
      nd.carries e.tenant = true ∧ tr.childCarries nd e.tenant = false := by
  rw [evictSkips, Bool.or_eq_false_iff, Option.any_eq_false]
  simp

/-- The counts do not matter for the removal. -/
theorem Shape.withCounts (hS : Shape tr path) (counts : List (TenantId × Nat)) :
    Shape { tr with tenantCharCount := counts } path := hS.of_nodes rfl

theorem Shape.evictAt (hS : Shape tr path) (hn : tr.nodes[n]? = some nd)
    (ht : nd.carries t = true) (hleaf : tr.childCarries nd t = false) :
    Shape (tr.evictAt t n k) path :=
  (hS.withCounts _).detachTenant ⟨nd, hn, ht, hleaf⟩

theorem Shape.evicted (hS : Shape tr path) (hn : tr.nodes[n]? = some nd)
    (ht : nd.carries t = true) (hleaf : tr.childCarries nd t = false) :
    Detached { tr with tenantCharCount := andModify t (· - k) tr.tenantCharCount }
      (tr.evictAt t n k) t n :=
  ((hS.withCounts (andModify t (· - k) tr.tenantCharCount)).detached hn ht hleaf).1

/-- What the loop body does with a popped entry. -/
theorem evictEntry_cases (maxSize : Nat) (pq : List EvictionEntry)
    (hn : tr.nodes[e.node]? = some nd) :
    (evictSkips maxSize tr e nd = true ∧ evictEntry maxSize tr e pq = some (tr, pq)) ∨
    (evictSkips maxSize tr e nd = false ∧ ∃ extra, extra.length ≤ 1 ∧
      Evicting (tr.evictAt e.tenant e.node nd.text.charCount) extra ∧
      evictEntry maxSize tr e pq =
        some (tr.evictAt e.tenant e.node nd.text.charCount, pq ++ extra)) := by
  cases hs : evictSkips maxSize tr e nd with
  | true => exact .inl ⟨rfl, by simp [evictEntry, hn, hs]⟩
  | false =>
    refine .inr ⟨rfl, ?_⟩
    simp only [evictEntry, hn, hs, Option.bind_eq_bind, Option.bind_some, Bool.false_eq_true, if_false]
    split
    · exact ⟨[], by simp, by simp [Evicting], by simp [evictAt]⟩
    · next p pnode hp =>
      split
      · exact ⟨[], by simp, by simp [Evicting], by simp [evictAt]⟩
      · next timestamp _ =>
        refine ⟨[⟨timestamp, e.tenant, p⟩], by simp, ?_, rfl⟩
        intro e' he'
        obtain rfl := List.mem_singleton.mp he'
        exact ⟨pnode, (leafParent_eq_some.mp hp).2.1⟩

theorem popEntry_spec (ord : IterOrder) (hne : pq ≠ []) :
    ∃ e rest, popEntry ord pq = some (e, rest) ∧ e ∈ pq ∧ rest ⊆ pq ∧ rest.length + 1 = pq.length := by
  obtain ⟨e, he, -⟩ := ord.pop_least pq hne
  refine ⟨e, pq.eraseIdx (ord.pop pq), by simp [popEntry, he], List.mem_of_getElem? he,
    List.eraseIdx_subset, ?_⟩
  have := Heap.lt_of_read he
  rw [List.length_eraseIdx_of_lt this]
  omega

theorem Shape.pairCount_evictAt (hS : Shape tr path) (hn : tr.nodes[n]? = some nd)
    (ht : nd.carries t = true) (hleaf : tr.childCarries nd t = false) :
    (tr.evictAt t n k).pairCount + 1 = tr.pairCount := by
  have hsum := (hS.withCounts (andModify t (· - k) tr.tenantCharCount)).detach_sum hn ht hleaf
    (fun nd => nd.tenantLastAccessTime.length) (fun _ _ => rfl)
  have hlen : (del t nd.tenantLastAccessTime).length + 1 = nd.tenantLastAccessTime.length :=
    length_del (hS.keys_nodup hn).2 (Node.carries_iff.mp ht)
  simp only [Node.dropTenant] at hsum
  simp only [pairCount, Tree.evictAt]
  omega

/-- **One iteration** keeps the shape and what evictions keep, and decreases the measure. -/
theorem evictStep_spec (ord : IterOrder) {I : Tree → Prop} (hI : EvictKeeps path maxSize I)
    (hS : Shape tr path)
    (hE : Evicting tr pq) (hi : I tr) (hne : pq ≠ []) :
    ∃ tr' pq', evictStep ord maxSize tr pq = some (tr', pq') ∧ Shape tr' path ∧
      Evicting tr' pq' ∧ I tr' ∧ pq'.length + tr'.pairCount < pq.length + tr.pairCount := by
  obtain ⟨e, rest, hpop, he, hsub, hlen⟩ := popEntry_spec ord hne
  obtain ⟨nd, hn⟩ := hE e he
  simp only [evictStep, hpop, Option.bind_eq_bind, Option.bind_some]
  rcases evictEntry_cases maxSize rest hn with
    ⟨-, h⟩ | ⟨hs, extra, hx, hxE, h⟩
  · exact ⟨tr, rest, h, hS, fun e' he' => hE e' (hsub he'), hi, by omega⟩
  · obtain ⟨hused, ht, hleaf⟩ := evictSkips_eq_false.mp hs
    refine ⟨_, _, h, hS.evictAt hn ht hleaf, ?_, hI hS hn ht hleaf hused hi, ?_⟩
    · intro e' he'
      rcases List.mem_append.mp he' with he' | he'
      · obtain ⟨nd', hn'⟩ := hE e' (hsub he')
        exact (hS.evicted hn ht hleaf).read hn'
      · exact hxE e' he'
    · have := hS.pairCount_evictAt (k := nd.text.charCount) hn ht hleaf
      rw [List.length_append]
      omega

/-- **The loop** ends and keeps the shape and what evictions keep. -/
theorem evictLoop_spec (ord : IterOrder) {I : Tree → Prop} (hI : EvictKeeps path maxSize I) :
    ∀ (fuel : Nat) (tr : Tree) (pq : List EvictionEntry), Shape tr path → Evicting tr pq → I tr →
      pq.length + tr.pairCount ≤ fuel →
      ∃ tr', evictLoop ord maxSize fuel tr pq = some tr' ∧ Shape tr' path ∧ I tr' := by
  intro fuel
  induction fuel with
  | zero =>
    intro tr pq hS _ hi hf
    obtain rfl : pq = [] := List.length_eq_zero_iff.mp (by omega)
    exact ⟨tr, rfl, hS, hi⟩
  | succ fuel ih =>
    intro tr pq hS hE hi hf
    cases pq with
    | nil => exact ⟨tr, rfl, hS, hi⟩
    | cons e pq =>
      obtain ⟨tr', pq', hstep, hS', hE', hi', hlt⟩ :=
        evictStep_spec ord hI hS hE hi (List.cons_ne_nil e pq)
      obtain ⟨tr'', hrun, h⟩ := ih tr' pq' hS' hE' hi' (by omega)
      exact ⟨tr'', by simp [evictLoop, hstep, hrun], h⟩

/-- What evictions keep holds in every state the loop goes through. -/
theorem EvictReaches.keeps {I : Tree → Prop} (hI : EvictKeeps path maxSize I)
    {s s' : Tree × List EvictionEntry} (h : EvictReaches ord maxSize s s')
    (hS : Shape s.1 path) (hE : Evicting s.1 s.2) (hi : I s.1) :
    Shape s'.1 path ∧ Evicting s'.1 s'.2 ∧ I s'.1 := by
  induction h with
  | refl => exact ⟨hS, hE, hi⟩
  | @tail a b _ hstep ih =>
    obtain ⟨hSa, hEa, hia⟩ := ih
    have hne : a.2 ≠ [] := by
      intro h0
      simp [evictStep, popEntry, h0] at hstep
    obtain ⟨tr', pq', hstep', hS', hE', hi', -⟩ := evictStep_spec ord hI hSa hEa hia hne
    cases hstep.symm.trans hstep'
    exact ⟨hS', hE', hi'⟩

/-- The heap a call starts from. -/
theorem evictHeap_spec (ord : IterOrder) (hS : Shape tr path) :
    ∃ pq, tr.evictHeap ord = some pq ∧ Evicting tr pq := by
  obtain ⟨order, hvisit, -, -⟩ := visitAll_spec ord hS
  refine ⟨order.flatMap (leafEntries ord tr), by simp [evictHeap, hvisit], ?_⟩
  intro e he
  obtain ⟨n, -, hn⟩ := List.mem_flatMap.mp he
  cases hread : tr.nodes[n]? with
  | none => simp [leafEntries, hread] at hn
  | some nd =>
    simp only [leafEntries, hread, List.mem_filterMap, Option.map_eq_some_iff] at hn
    obtain ⟨u, -, timestamp, -, rfl⟩ := hn
    exact ⟨nd, hread⟩

/-- **`evict_tenant_by_size`** returns, and keeps what evictions keep. -/
theorem evictTenantBySize_spec (ord : IterOrder) (maxSize : Nat) {I : Tree → Prop}
    (hI : EvictKeeps path maxSize I)
    (hS : Shape tr path) (hi : I tr) :
    ∃ tr', tr.evictTenantBySize ord maxSize = some tr' ∧ Shape tr' path ∧ I tr' := by
  obtain ⟨pq, hheap, hE⟩ := evictHeap_spec ord hS
  obtain ⟨tr', hrun, h⟩ := evictLoop_spec ord hI _ tr pq hS hE hi (le_refl _)
  exact ⟨tr', by simp only [evictTenantBySize, hheap, Option.bind_eq_bind, Option.bind_some, hrun], h⟩

end

end QwenStack.Tree
