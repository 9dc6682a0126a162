import Mathlib.Data.Finset.Max
import QwenStack.Support.Assoc
import QwenStack.Support.Runs
import QwenStack.Tree.Text

/-!
# Tree — Definitions

`gateway/src/policies/tree.rs`: the multi-tenant radix tree behind cache-aware routing.  A
`NodeRef` is an address in a list of nodes; a node once allocated is never freed, so a node that
has been unlinked can still be read through a stale reference, as through an `Arc`.

Operations run one at a time.  They return `none` where the source panics or a loop runs out of
the fuel it is given; `Tree.run_total` (`Invariant.lean`) shows that neither happens.

Two things the source leaves open are parameters.  The iteration order of a `DashMap` or a
`HashMap`, and which of several least entries a `BinaryHeap` pops, are fields of `IterOrder`: any
permutation, any least entry.  The global `EPOCH_COUNTER` is passed in and out of each operation.
-/

namespace QwenStack

namespace Tree
open Assoc

abbrev NodeId := Nat

/-- `TenantId`, an interned string. -/
abbrev TenantId := Str

/-- A value of the wrapping `EPOCH_COUNTER`. -/
abbrev Epoch := UInt64

/-- `Node`. -/
structure Node where
  children : List (Char × NodeId)
  text : NodeText
  tenantLastAccessTime : List (TenantId × Epoch)
  parent : Option NodeId
  lastTenant : Option TenantId
  deriving DecidableEq, Repr

/-- The tenants of a node. -/
def Node.tenants (nd : Node) : List TenantId := keys nd.tenantLastAccessTime

/-- `tenant_last_access_time.contains_key(t)`. -/
def Node.carries (nd : Node) (t : TenantId) : Bool := contains t nd.tenantLastAccessTime

/-- `tenant_last_access_time.insert(t, e)`. -/
def Node.stamp (t : TenantId) (e : Epoch) (nd : Node) : Node :=
  { nd with tenantLastAccessTime := put t e nd.tenantLastAccessTime }

/-- `tenant_last_access_time.remove(t)`. -/
def Node.dropTenant (t : TenantId) (nd : Node) : Node :=
  { nd with tenantLastAccessTime := del t nd.tenantLastAccessTime }

/-- `children.insert(c, n)`. -/
def Node.link (c : Char) (n : NodeId) (nd : Node) : Node :=
  { nd with children := put c n nd.children }

/-- `children.remove(c)`. -/
def Node.unlink (c : Char) (nd : Node) : Node := { nd with children := del c nd.children }

/-- `EvictionEntry`. -/
structure EvictionEntry where
  timestamp : Epoch
  tenant : TenantId
  node : NodeId
  deriving DecidableEq, Repr

/-- What the hash maps and the binary heap leave open during one operation. -/
structure IterOrder where
  children : NodeId → List (Char × NodeId) → List (Char × NodeId)
  children_perm : ∀ n l, (children n l).Perm l
  tenants : NodeId → List (TenantId × Epoch) → List (TenantId × Epoch)
  tenants_perm : ∀ n l, (tenants n l).Perm l
  leaves : NodeId → List TenantId → List TenantId
  leaves_perm : ∀ n l, (leaves n l).Perm l
  /-- The index `BinaryHeap::pop` takes its entry from. -/
  pop : List EvictionEntry → Nat
  pop_least : ∀ pq, pq ≠ [] → ∃ e, pq[pop pq]? = some e ∧ ∀ e' ∈ pq, e.timestamp ≤ e'.timestamp

/-- No entry of the heap is older. -/
def EvictionEntry.isLeast (pq : List EvictionEntry) (e : EvictionEntry) : Bool :=
  pq.all fun e' => decide (e.timestamp ≤ e'.timestamp)

/-- Every map in the order of insertion, and the first of the least entries. -/
def IterOrder.inserted : IterOrder where
  children _ l := l
  children_perm _ _ := .refl _
  tenants _ l := l
  tenants_perm _ _ := .refl _
  leaves _ l := l
  leaves_perm _ _ := .refl _
  pop pq := pq.findIdx (EvictionEntry.isLeast pq)
  pop_least pq hne := by
    obtain ⟨e, he, hmin⟩ := Finset.exists_min_image pq.toFinset (fun e => e.timestamp.toNat)
      (by simpa [Finset.Nonempty] using List.exists_mem_of_ne_nil pq hne)
    have hleast : pq.any (EvictionEntry.isLeast pq) = true := by
      refine List.any_eq_true.mpr ⟨e, List.mem_toFinset.mp he, List.all_eq_true.mpr fun e' he' => ?_⟩
      exact decide_eq_true (UInt64.le_iff_toNat_le.mpr (hmin e' (List.mem_toFinset.mpr he')))
    have hlt : pq.findIdx (EvictionEntry.isLeast pq) < pq.length :=
      List.findIdx_lt_length_of_exists (List.any_eq_true.mp hleast)
    refine ⟨_, List.getElem?_eq_getElem hlt, fun e' he' => ?_⟩
    have := List.all_eq_true.mp (List.findIdx_getElem (w := hlt)) e' he'
    exact of_decide_eq_true this

end Tree

/-- `Tree`: the nodes, with the root at address `0`, and the per-tenant character counts. -/
structure Tree where
  nodes : List Tree.Node
  tenantCharCount : List (Tree.TenantId × Nat)
  deriving DecidableEq, Repr

namespace Tree
open Assoc

/-- The address of the root. -/
abbrev root : NodeId := 0

/-- `Tree::new`. -/
def new : Tree := ⟨[⟨[], NodeText.empty, [], none, none⟩], []⟩

/-- Update the node at an address. -/
def modify (n : NodeId) (f : Node → Node) (tr : Tree) : Tree :=
  { tr with nodes := tr.nodes.modify n f }

/-- `tenant_char_count.entry(t).and_modify(|c| *c += k).or_insert(k)`. -/
def addCount (t : TenantId) (k : Nat) (tr : Tree) : Tree :=
  { tr with tenantCharCount := upsert t (· + k) k tr.tenantCharCount }

/-- The node at an address carries `t`. -/
def carriesAt (tr : Tree) (t : TenantId) (n : NodeId) : Bool :=
  (tr.nodes[n]?).any fun nd => nd.carries t

/-- `node.children.iter().any(|child| ... contains_key(t))`. -/
def childCarries (tr : Tree) (nd : Node) (t : TenantId) : Bool :=
  nd.children.any fun e => tr.carriesAt t e.2

/-! ### `insert` -/

/-- Allocate a node and insert it in the children map of `prev`. -/
def hang (prev : NodeId) (c : Char) (newNode : Node) (tr : Tree) : Tree :=
  { tr with nodes := (tr.nodes ++ [newNode]).modify prev (Node.link c tr.nodes.length) }

/-- The `Entry::Vacant` arm: a new leaf holding the remaining text. -/
def newLeaf (tenant : TenantId) (epoch : Epoch) (prev : NodeId) (firstChar : Char)
    (remaining : Str) (tr : Tree) : Tree :=
  let newNode : Node :=
    ⟨[], NodeText.new remaining, put tenant epoch [], some prev, some tenant⟩
  (tr.addCount tenant remaining.length).hang prev firstChar newNode

/-- `if !contains_key(tenant) { count += k; insert(tenant, 0) }` on an intermediate node. -/
def ensureTenant (tenant : TenantId) (k : Nat) (n : NodeId) (tr : Tree) : Tree :=
  if tr.carriesAt tenant n then tr
  else (tr.addCount tenant k).modify n (Node.stamp tenant 0)

/-- The split of the matched node: the new upper node, its address, and the relinked tree. -/
def splitNode (prev : NodeId) (firstChar : Char) (matched : NodeId) (mnode : Node)
    (sharedCount : Nat) (tr : Tree) : Option (Tree × NodeId) := do
  let (matchedText, contractedText) ← mnode.text.splitAtChar sharedCount
  let firstNewChar ← contractedText.firstChar
  let newNode : Node :=
    ⟨put firstNewChar matched [], matchedText, mnode.tenantLastAccessTime, some prev,
      mnode.lastTenant⟩
  let new := tr.nodes.length
  some ((tr.hang prev firstChar newNode).modify matched fun nd =>
    { nd with text := contractedText, parent := some new }, new)

/-- `InsertStep`. -/
inductive InsertStep where
  | done
  | continue (nextPrev : NodeId) (advanceChars : Nat)

/-- One iteration of the loop of `insert`, at a non-empty `remaining`. -/
def insertStep (tenant : TenantId) (tr : Tree) (epoch : Epoch) (prev : NodeId) (firstChar : Char)
    (remaining : Str) : Option (Tree × Epoch × InsertStep) := do
  let pnode ← tr.nodes[prev]?
  match pnode.children.lookup firstChar with
  | none => some (tr.newLeaf tenant epoch prev firstChar remaining, epoch + 1, .done)
  | some matched =>
      let mnode ← tr.nodes[matched]?
      let sharedCount := sharedPrefixCount remaining mnode.text.text
      if sharedCount < mnode.text.charCount then
        let (tr, new) ← tr.splitNode prev firstChar matched mnode sharedCount
        some (tr.ensureTenant tenant sharedCount new, epoch, .continue new sharedCount)
      else
        some (tr.ensureTenant tenant mnode.text.charCount matched, epoch,
          .continue matched sharedCount)

/-- The loop of `insert`. -/
def insertLoop (tenant : TenantId) : Nat → Tree → Epoch → NodeId → Str → Option (Tree × Epoch)
  | _, tr, epoch, prev, [] => some (tr.modify prev (Node.stamp tenant epoch), epoch + 1)
  | 0, _, _, _, _ :: _ => none
  | fuel + 1, tr, epoch, prev, c :: remaining => do
      let (tr, epoch, step) ← insertStep tenant tr epoch prev c (c :: remaining)
      match step with
      | .done => some (tr, epoch)
      | .continue nextPrev advanceChars =>
          let remaining ← advanceByChars (c :: remaining) advanceChars
          insertLoop tenant fuel tr epoch nextPrev remaining

/-- `tenant_last_access_time.entry(t).or_insert(0)` at the root, and the same on the counts. -/
def ensureRoot (tenant : TenantId) (tr : Tree) : Tree :=
  { nodes := tr.nodes.modify root fun nd =>
      { nd with tenantLastAccessTime := orInsert tenant 0 nd.tenantLastAccessTime }
    tenantCharCount := orInsert tenant 0 tr.tenantCharCount }

/-- `Tree::insert`. -/
def insert (text : Str) (tenant : TenantId) (tr : Tree) (epoch : Epoch) : Option (Tree × Epoch) :=
  insertLoop tenant text.length (tr.ensureRoot tenant) epoch root text

/-! ### Matching -/

/-- The descent both matches share: the node reached and the characters matched.  `admits` is
the check a child has to pass before its text is compared. -/
def matchLoop (tr : Tree) (admits : Node → Bool) :
    Nat → NodeId → Str → Nat → Option (NodeId × Nat)
  | _, prev, [], matchedChars => some (prev, matchedChars)
  | 0, _, _ :: _, _ => none
  | fuel + 1, prev, c :: rest, matchedChars => do
      let pnode ← tr.nodes[prev]?
      match pnode.children.lookup c with
      | none => some (prev, matchedChars)
      | some matched =>
          let mnode ← tr.nodes[matched]?
          if admits mnode then
            let sharedCount := sharedPrefixCount (c :: rest) mnode.text.text
            if sharedCount = mnode.text.charCount then
              let remaining ← advanceByChars (c :: rest) sharedCount
              matchLoop tr admits fuel matched remaining (matchedChars + sharedCount)
            else some (matched, matchedChars + sharedCount)
          else some (prev, matchedChars)

/-- The name `prefix_match_with_counts` invents at a node without tenants. -/
def emptyTenant : TenantId := "empty".toList

/-- `tenant_last_access_time.iter().next()`, or `"empty"`. -/
def firstTenant (ord : IterOrder) (n : NodeId) (nd : Node) : TenantId :=
  ((ord.tenants n nd.tenantLastAccessTime).head?.map Prod.fst).getD emptyTenant

/-- The tenant a match returns, with the `last_tenant` cache it leaves. -/
def selectTenant (ord : IterOrder) (n : NodeId) (nd : Node) : TenantId × Option TenantId :=
  match nd.lastTenant with
  | some t =>
      if nd.carries t then (t, some t)
      else (firstTenant ord n nd, some (firstTenant ord n nd))
  | none => (firstTenant ord n nd, some (firstTenant ord n nd))

/-- `PrefixMatchResult`. -/
structure PrefixMatchResult where
  tenant : TenantId
  matchedCharCount : Nat
  inputCharCount : Nat
  deriving DecidableEq, Repr

/-- `Tree::prefix_match_with_counts`. -/
def prefixMatchWithCounts (ord : IterOrder) (text : Str) (tr : Tree) (epoch : Epoch) :
    Option (Tree × Epoch × PrefixMatchResult) := do
  let (curr, matchedChars) ← tr.matchLoop (fun _ => true) text.length root text 0
  let cnode ← tr.nodes[curr]?
  let (tenant, cache) := selectTenant ord curr cnode
  let tr := tr.modify curr fun nd => { nd with lastTenant := cache }
  -- Update timestamp probabilistically (1 in 8 matches)
  let tr := if epoch &&& 7 = 0 then tr.modify curr (Node.stamp tenant epoch) else tr
  some (tr, epoch + 1, ⟨tenant, matchedChars, text.length⟩)

/-- `Tree::prefix_match`. -/
def prefixMatch (ord : IterOrder) (text : Str) (tr : Tree) (epoch : Epoch) :
    Option (Tree × Epoch × Str × TenantId) := do
  let (tr, epoch, result) ← tr.prefixMatchWithCounts ord text epoch
  let matchedText ← takeChars text result.matchedCharCount
  some (tr, epoch, matchedText, result.tenant)

/-- `Tree::prefix_match_tenant`. -/
def prefixMatchTenant (text : Str) (tenant : TenantId) (tr : Tree) (epoch : Epoch) :
    Option (Tree × Epoch × Str) := do
  let (curr, matchedChars) ← tr.matchLoop (·.carries tenant) text.length root text 0
  let result ← takeChars text matchedChars
  if tr.carriesAt tenant curr then
    some (tr.modify curr (Node.stamp tenant epoch), epoch + 1, result)
  else some (tr, epoch, result)

/-! ### The walk over all nodes -/

/-- The `stack` loop of `evict_tenant_by_size`, `remove_tenant` and `get_used_size_per_tenant`:
the nodes in the order they are popped. -/
def visit (ord : IterOrder) (nodes : List Node) : Nat → List NodeId → Option (List NodeId)
  | _, [] => some []
  | 0, _ :: _ => none
  | fuel + 1, curr :: stack => do
      let nd ← nodes[curr]?
      let rest ← visit ord nodes fuel (((ord.children curr nd.children).map Prod.snd).reverse ++ stack)
      some (curr :: rest)

/-- Every node, from the root. -/
def visitAll (ord : IterOrder) (tr : Tree) : Option (List NodeId) :=
  visit ord tr.nodes tr.nodes.length [root]

/-! ### Removing a tenant from a node -/

/-- `tenant_last_access_time.remove`, then unlink the node when it is empty; with its parent. -/
def detachTenant (t : TenantId) (n : NodeId) (tr : Tree) : Tree × Option NodeId :=
  let tr := tr.modify n (Node.dropTenant t)
  match tr.nodes[n]? with
  | none => (tr, none)
  | some nd =>
      if nd.children.isEmpty && nd.tenantLastAccessTime.isEmpty then
        match nd.parent, nd.text.firstChar with
        | some p, some fc => (tr.modify p (Node.unlink fc), nd.parent)
        | _, _ => (tr, nd.parent)
      else (tr, nd.parent)

/-- The parent, when it carries the tenant and none of its children does. -/
def leafParent (t : TenantId) (tr : Tree) (parent : Option NodeId) : Option (NodeId × Node) := do
  let p ← parent
  let pnode ← tr.nodes[p]?
  if pnode.carries t && !tr.childCarries pnode t then some (p, pnode) else none

/-! ### `evict_tenant_by_size` -/

/-- `Tree::leaf_of`: the tenants of the node that no child has. -/
def leafOf (ord : IterOrder) (tr : Tree) (n : NodeId) (nd : Node) : List TenantId :=
  let candidates : List (TenantId × Bool) :=
    (ord.tenants n nd.tenantLastAccessTime).map fun e => (e.1, true)
  let candidates := (ord.children n nd.children).foldl (fun cand e =>
    match tr.nodes[e.2]? with
    | none => cand
    | some child =>
        (ord.tenants e.2 child.tenantLastAccessTime).foldl (fun cand e => put e.1 false cand) cand)
    candidates
  ord.leaves n ((candidates.filter Prod.snd).map Prod.fst)

/-- The entries pushed for one node of the walk. -/
def leafEntries (ord : IterOrder) (tr : Tree) (n : NodeId) : List EvictionEntry :=
  match tr.nodes[n]? with
  | none => []
  | some nd => (leafOf ord tr n nd).filterMap fun t =>
      (nd.tenantLastAccessTime.lookup t).map fun timestamp => ⟨timestamp, t, n⟩

/-- `pq.pop()`. -/
def popEntry (ord : IterOrder) (pq : List EvictionEntry) :
    Option (EvictionEntry × List EvictionEntry) :=
  (pq[ord.pop pq]?).map fun e => (e, pq.eraseIdx (ord.pop pq))

/-- The entry is stale, or its tenant is within its size. -/
def evictSkips (maxSize : Nat) (tr : Tree) (e : EvictionEntry) (nd : Node) : Bool :=
  (tr.tenantCharCount.lookup e.tenant).any (fun used => decide (used ≤ maxSize)) ||
    !(nd.carries e.tenant && !tr.childCarries nd e.tenant)

/-- The loop body of `evict_tenant_by_size`, on a popped entry. -/
def evictEntry (maxSize : Nat) (tr : Tree) (e : EvictionEntry) (pq : List EvictionEntry) :
    Option (Tree × List EvictionEntry) := do
  let nd ← tr.nodes[e.node]?
  if evictSkips maxSize tr e nd then some (tr, pq)
  else
    -- `count.saturating_sub(node_len)`
    let tr := { tr with
      tenantCharCount := andModify e.tenant (· - nd.text.charCount) tr.tenantCharCount }
    let (tr, parent) := tr.detachTenant e.tenant e.node
    match leafParent e.tenant tr parent with
    | none => some (tr, pq)
    | some (p, pnode) =>
        match pnode.tenantLastAccessTime.lookup e.tenant with
        | none => some (tr, pq)
        | some timestamp => some (tr, pq ++ [⟨timestamp, e.tenant, p⟩])

/-- One iteration of the eviction loop; `none` when the heap is empty. -/
def evictStep (ord : IterOrder) (maxSize : Nat) (tr : Tree) (pq : List EvictionEntry) :
    Option (Tree × List EvictionEntry) := do
  let (e, rest) ← popEntry ord pq
  evictEntry maxSize tr e rest

/-- The eviction loop. -/
def evictLoop (ord : IterOrder) (maxSize : Nat) :
    Nat → Tree → List EvictionEntry → Option Tree
  | _, tr, [] => some tr
  | 0, _, _ :: _ => none
  | fuel + 1, tr, e :: pq => do
      let (tr, pq) ← evictStep ord maxSize tr (e :: pq)
      evictLoop ord maxSize fuel tr pq

/-- The number of (node, tenant) pairs. -/
def pairCount (tr : Tree) : Nat := (tr.nodes.map fun nd => nd.tenantLastAccessTime.length).sum

/-- The heap the eviction loop starts from. -/
def evictHeap (ord : IterOrder) (tr : Tree) : Option (List EvictionEntry) := do
  let order ← tr.visitAll ord
  some (order.flatMap (leafEntries ord tr))

/-- `Tree::evict_tenant_by_size`. -/
def evictTenantBySize (ord : IterOrder) (maxSize : Nat) (tr : Tree) : Option Tree := do
  let pq ← tr.evictHeap ord
  evictLoop ord maxSize (pq.length + tr.pairCount) tr pq

/-! ### `remove_tenant` -/

/-- The `queue` loop of `remove_tenant`. -/
def removeLoop (t : TenantId) : Nat → Tree → List NodeId → Option Tree
  | _, tr, [] => some tr
  | 0, _, _ :: _ => none
  | fuel + 1, tr, curr :: queue =>
      let (tr, parent) := tr.detachTenant t curr
      match leafParent t tr parent with
      | none => removeLoop t fuel tr queue
      | some (p, _) => removeLoop t fuel tr (queue ++ [p])

/-- `Tree::remove_tenant`. -/
def removeTenant (ord : IterOrder) (t : TenantId) (tr : Tree) : Option Tree := do
  let order ← tr.visitAll ord
  let queue := order.filter fun n =>
    (tr.nodes[n]?).any fun nd => nd.carries t && !tr.childCarries nd t
  let tr ← removeLoop t tr.nodes.length tr queue
  some { tr with tenantCharCount := del t tr.tenantCharCount }

/-! ### Sizes -/

/-- `Tree::get_tenant_char_count`. -/
def getTenantCharCount (tr : Tree) : List (TenantId × Nat) := tr.tenantCharCount

/-- One node's contribution to `get_used_size_per_tenant`. -/
def addNodeSizes (ord : IterOrder) (tr : Tree) (used : List (TenantId × Nat)) (n : NodeId) :
    List (TenantId × Nat) :=
  match tr.nodes[n]? with
  | none => used
  | some nd => (ord.tenants n nd.tenantLastAccessTime).foldl
      (fun used e => upsert e.1 (· + nd.text.charCount) nd.text.charCount used) used

/-- `Tree::get_used_size_per_tenant`. -/
def getUsedSizePerTenant (ord : IterOrder) (tr : Tree) : Option (List (TenantId × Nat)) := do
  let order ← tr.visitAll ord
  some (order.foldl (addNodeSizes ord tr) [])

/-! ### Runs -/

/-- One call of the public interface. -/
inductive Op where
  | insert (text : Str) (tenant : TenantId)
  | prefixMatchWithCounts (text : Str)
  | prefixMatch (text : Str)
  | prefixMatchTenant (text : Str) (tenant : TenantId)
  | evictTenantBySize (maxSize : Nat)
  | removeTenant (tenant : TenantId)
  deriving DecidableEq, Repr

/-- The tree and the epoch counter after one call. -/
def apply (ord : IterOrder) (op : Op) (st : Tree × Epoch) : Option (Tree × Epoch) :=
  match op with
  | .insert text tenant => st.1.insert text tenant st.2
  | .prefixMatchWithCounts text =>
      (st.1.prefixMatchWithCounts ord text st.2).map fun r => (r.1, r.2.1)
  | .prefixMatch text =>
      (st.1.prefixMatch ord text st.2).map fun r => (r.1, r.2.1)
  | .prefixMatchTenant text tenant =>
      (st.1.prefixMatchTenant text tenant st.2).map fun r => (r.1, r.2.1)
  | .evictTenantBySize maxSize => (st.1.evictTenantBySize ord maxSize).map fun tr => (tr, st.2)
  | .removeTenant tenant => (st.1.removeTenant ord tenant).map fun tr => (tr, st.2)

/-- A sequential run; each call has its own iteration orders. -/
def run (ops : List (IterOrder × Op)) (st : Tree × Epoch) : Option (Tree × Epoch) :=
  Runs.exec (fun st o => apply o.1 o.2 st) st ops

end Tree

end QwenStack
