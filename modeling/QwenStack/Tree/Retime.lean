import QwenStack.Tree.Definitions

/-!
# Tree — other timestamps

What a tree does with its timestamps is to keep them and, in `evict_tenant_by_size`, to compare them.  So a
call on a tree whose timestamps are changed throughout (`retime`) does what the call does, with the result
changed in the same way: whatever the change for `insert`, the matches and `remove_tenant`, and for the
eviction if the change keeps the order.

For this the maps may not order their entries by the timestamps, and the heap may only compare them
(`HashOrder`).
-/

namespace QwenStack.Tree
open Assoc List

/-! ### Changed timestamps -/

def Node.retime (g : Epoch → Epoch) (nd : Node) : Node :=
  { nd with tenantLastAccessTime := mapValues g nd.tenantLastAccessTime }

def EvictionEntry.retime (g : Epoch → Epoch) (e : EvictionEntry) : EvictionEntry :=
  { e with timestamp := g e.timestamp }

/-- The tree with other timestamps. -/
def retime (g : Epoch → Epoch) (tr : Tree) : Tree := { tr with nodes := tr.nodes.map (Node.retime g) }

/-- The tree up to timestamps. -/
def forget (tr : Tree) : Tree := tr.retime fun _ => 0

/-- An order that looks at no timestamp, but to compare it with another. -/
structure HashOrder extends IterOrder where
  tenants_mapValues : ∀ n l g, tenants n (mapValues g l) = mapValues g (tenants n l)
  pop_retime : ∀ pq (g : Epoch → Epoch),
    (∀ e ∈ pq, ∀ e' ∈ pq, e.timestamp < e'.timestamp → g e.timestamp < g e'.timestamp) →
      pop (pq.map (EvictionEntry.retime g)) = pop pq

theorem isLeast_retime {pq : List EvictionEntry} {g : Epoch → Epoch}
    (hg : ∀ e ∈ pq, ∀ e' ∈ pq, e.timestamp < e'.timestamp → g e.timestamp < g e'.timestamp)
    {e : EvictionEntry} (he : e ∈ pq) :
    EvictionEntry.isLeast (pq.map (EvictionEntry.retime g)) (e.retime g) = EvictionEntry.isLeast pq e := by
  rw [EvictionEntry.isLeast, EvictionEntry.isLeast, all_map, Bool.eq_iff_iff, all_eq_true, all_eq_true]
  refine forall₂_congr fun e' he' => ?_
  rw [Function.comp_apply, decide_eq_true_eq, decide_eq_true_eq]
  constructor
  · intro hle
    refine UInt64.not_lt.mp fun hlt => ?_
    exact UInt64.not_lt.mpr hle (hg e' he' e he hlt)
  · intro hle
    by_cases heq : e.timestamp = e'.timestamp
    · change g e.timestamp ≤ g e'.timestamp
      rw [heq]
      exact UInt64.le_refl _
    · exact UInt64.le_of_lt (hg e he e' he' (UInt64.lt_of_le_of_ne hle heq))

theorem findIdx_congr {α : Type*} {p q : α → Bool} {l : List α} (h : ∀ a ∈ l, p a = q a) :
    l.findIdx p = l.findIdx q := by
  induction l with
  | nil => rfl
  | cons a l ih =>
    rw [findIdx_cons, findIdx_cons, h a mem_cons_self, ih fun b hb => h b (mem_cons_of_mem a hb)]

/-- Every map in the order of insertion. -/
def HashOrder.inserted : HashOrder where
  toIterOrder := IterOrder.inserted
  tenants_mapValues _ _ _ := rfl
  pop_retime pq g hg := by
    change (pq.map _).findIdx _ = pq.findIdx _
    rw [findIdx_map]
    refine findIdx_congr fun e he => ?_
    exact isLeast_retime hg he

section
variable {g : Epoch → Epoch} {tr : Tree} {n : NodeId} {nd : Node} {t : TenantId}

section
variable (g : Epoch → Epoch)

@[simp] theorem nodes_retime (tr : Tree) : (tr.retime g).nodes = tr.nodes.map (Node.retime g) := rfl

theorem read_retime (tr : Tree) (n : NodeId) :
    (tr.retime g).nodes[n]? = (tr.nodes[n]?).map (Node.retime g) := List.getElem?_map

@[simp] theorem length_retime (tr : Tree) : (tr.retime g).nodes.length = tr.nodes.length := length_map _

theorem carries_retime (nd : Node) (t : TenantId) :
    (nd.retime g).carries t = nd.carries t := contains_mapValues g t _

theorem carriesAt_retime (tr : Tree) (t : TenantId) (n : NodeId) :
    (tr.retime g).carriesAt t n = tr.carriesAt t n := by
  rw [carriesAt, carriesAt, read_retime]
  cases tr.nodes[n]? with
  | none => rfl
  | some nd => exact carries_retime g nd t

theorem childCarries_retime (tr : Tree) (nd : Node) (t : TenantId) :
    (tr.retime g).childCarries (nd.retime g) t = tr.childCarries nd t := by
  rw [childCarries, childCarries]
  congr 1
  funext e
  exact carriesAt_retime g tr t e.2

end

/-- A change of one node. -/
theorem modify_retime (f f' : Node → Node) (hf : ∀ nd, f' (nd.retime g) = (f nd).retime g) (tr : Tree)
    (n : NodeId) : (tr.retime g).modify n f' = (tr.modify n f).retime g := by
  have hmodify : (tr.nodes.map (Node.retime g)).modify n f' =
      (tr.nodes.modify n f).map (Node.retime g) := by
    refine List.ext_getElem? fun i => ?_
    rw [List.getElem?_modify, List.getElem?_map, List.getElem?_map, List.getElem?_modify]
    cases tr.nodes[i]? with
    | none => rfl
    | some nd =>
      by_cases hi : n = i
      · simp [hi, hf]
      · simp [hi]
  rw [modify, modify, retime, retime, hmodify]

/-- A change that does not depend on the timestamps. -/
theorem modify_retime_self (f : Node → Node) (hf : ∀ nd, f (nd.retime g) = (f nd).retime g) (tr : Tree)
    (n : NodeId) : (tr.retime g).modify n f = (tr.modify n f).retime g := modify_retime f f hf tr n

section
variable (g : Epoch → Epoch)

theorem stamp_retime (t : TenantId) (e : Epoch) (nd : Node) :
    (nd.retime g).stamp t (g e) = (nd.stamp t e).retime g := by
  rw [Node.stamp, Node.stamp, Node.retime, put_mapValues]
  rfl

theorem dropTenant_retime (t : TenantId) (nd : Node) :
    (nd.retime g).dropTenant t = (nd.dropTenant t).retime g := by
  rw [Node.dropTenant, Node.dropTenant, Node.retime, del_mapValues]
  rfl

/-! ### `insert` -/

theorem addCount_retime (t : TenantId) (k : Nat) (tr : Tree) :
    (tr.retime g).addCount t k = (tr.addCount t k).retime g := rfl

theorem hang_retime (prev : NodeId) (c : Char) (newNode : Node) (tr : Tree) :
    (tr.retime g).hang prev c (newNode.retime g) = (tr.hang prev c newNode).retime g := by
  have halloc : { tr.retime g with nodes := (tr.retime g).nodes ++ [newNode.retime g] } =
      ({ tr with nodes := tr.nodes ++ [newNode] } : Tree).retime g := by
    rw [retime, retime, map_append]
    rfl
  rw [hang, length_retime]
  exact (congrArg (modify prev (Node.link c tr.nodes.length)) halloc).trans
    (modify_retime_self (Node.link c tr.nodes.length) (fun _ => rfl) _ prev)

theorem newLeaf_retime (tenant : TenantId) (epoch : Epoch) (prev : NodeId)
    (firstChar : Char) (remaining : Str) (tr : Tree) :
    (tr.retime g).newLeaf tenant (g epoch) prev firstChar remaining =
      (tr.newLeaf tenant epoch prev firstChar remaining).retime g :=
  hang_retime g prev firstChar
    ⟨[], NodeText.new remaining, put tenant epoch [], some prev, some tenant⟩
    (tr.addCount tenant remaining.length)

end

theorem ensureTenant_retime (h0 : g 0 = 0) (tenant : TenantId) (k : Nat) (n : NodeId) (tr : Tree) :
    (tr.retime g).ensureTenant tenant k n = (tr.ensureTenant tenant k n).retime g := by
  have hstamp (nd : Node) : (nd.retime g).stamp tenant 0 = (nd.stamp tenant 0).retime g := by
    rw [← stamp_retime, h0]
  rw [ensureTenant, ensureTenant, carriesAt_retime]
  split
  · rfl
  · rw [addCount_retime]
    exact modify_retime _ _ hstamp _ n

theorem splitNode_retime (g : Epoch → Epoch) (prev : NodeId) (firstChar : Char) (matched : NodeId)
    (mnode : Node) (sharedCount : Nat) (tr : Tree) :
    (tr.retime g).splitNode prev firstChar matched (mnode.retime g) sharedCount =
      (tr.splitNode prev firstChar matched mnode sharedCount).map fun r => (r.1.retime g, r.2) := by
  rw [splitNode, splitNode]
  change (mnode.text.splitAtChar sharedCount).bind _ = Option.map _ ((mnode.text.splitAtChar _).bind _)
  cases mnode.text.splitAtChar sharedCount with
  | none => rfl
  | some r =>
    obtain ⟨matchedText, contractedText⟩ := r
    simp only [Option.bind_some]
    cases contractedText.firstChar with
    | none => rfl
    | some c =>
      simp only [Option.bind_eq_bind, Option.bind_some, Option.map_some, length_retime]
      congr 2
      rw [← modify_retime_self (fun nd =>
        { nd with text := contractedText, parent := some tr.nodes.length }) (fun _ => rfl), ← hang_retime]
      rfl

/-- What an iteration of `insert` draws: one epoch if it is the last. -/
def InsertStep.draws : InsertStep → Epoch
  | .done => 1
  | .continue _ _ => 0

theorem insertStep_retime (h0 : g 0 = 0) {tenant : TenantId} {epoch : Epoch} {prev : NodeId}
    {firstChar : Char} {remaining : Str} {tr' : Tree} {epoch' : Epoch} {step : InsertStep}
    (h : insertStep tenant tr epoch prev firstChar remaining = some (tr', epoch', step)) :
    epoch' = epoch + step.draws ∧ insertStep tenant (tr.retime g) (g epoch) prev firstChar remaining =
        some (tr'.retime g, g epoch + step.draws, step) := by
  rw [insertStep] at h ⊢
  obtain ⟨pnode, hp, h⟩ := Option.bind_eq_some_iff.mp h
  have hp' : (tr.retime g).nodes[prev]? = some (pnode.retime g) := by rw [read_retime, hp]; rfl
  rw [hp', Option.bind_eq_bind, Option.bind_some]
  rw [show (pnode.retime g).children = pnode.children from rfl]
  cases hc : pnode.children.lookup firstChar with
  | none =>
    rw [hc] at h
    cases h
    refine ⟨rfl, ?_⟩
    rw [newLeaf_retime]
    rfl
  | some matched =>
    rw [hc] at h
    obtain ⟨mnode, hm, h⟩ := Option.bind_eq_some_iff.mp h
    have hm' : (tr.retime g).nodes[matched]? = some (mnode.retime g) := by rw [read_retime, hm]; rfl
    dsimp only at h ⊢
    rw [hm', Option.bind_eq_bind, Option.bind_some]
    change _ ∧ (if sharedPrefixCount remaining mnode.text.text < mnode.text.charCount then _ else _) = _
    split at h
    · next hlt =>
      rw [if_pos hlt]
      obtain ⟨⟨tr₁, new⟩, hsplit, h⟩ := Option.bind_eq_some_iff.mp h
      cases h
      refine ⟨(UInt64.add_zero epoch).symm, ?_⟩
      rw [splitNode_retime]
      change Option.bind (Option.map _ (tr.splitNode prev firstChar matched mnode
        (sharedPrefixCount remaining mnode.text.text))) _ = _
      rw [hsplit, Option.map_some, Option.bind_some, ensureTenant_retime h0]
      change _ = some (_, g epoch + 0, _)
      rw [UInt64.add_zero]
      rfl
    · next hlt =>
      rw [if_neg hlt]
      cases h
      refine ⟨(UInt64.add_zero epoch).symm, ?_⟩
      change some ((tr.retime g).ensureTenant tenant mnode.text.charCount matched, _, _) = _
      rw [ensureTenant_retime h0]
      change _ = some (_, g epoch + 0, _)
      rw [UInt64.add_zero]
      rfl

theorem insertLoop_retime (h0 : g 0 = 0) {tenant : TenantId} : ∀ {fuel : Nat} {tr : Tree} {epoch : Epoch}
    {prev : NodeId} {remaining : Str} {tr' : Tree} {epoch' : Epoch},
    insertLoop tenant fuel tr epoch prev remaining = some (tr', epoch') → epoch' = epoch + 1 ∧
        insertLoop tenant fuel (tr.retime g) (g epoch) prev remaining =
          some (tr'.retime g, g epoch + 1) := by
  intro fuel
  have hend {tr : Tree} {epoch : Epoch} {prev : NodeId} {tr' : Tree} {epoch' : Epoch}
      (h : some (tr.modify prev (Node.stamp tenant epoch), epoch + 1) = some (tr', epoch')) :
      epoch' = epoch + 1 ∧ some ((tr.retime g).modify prev (Node.stamp tenant (g epoch)), g epoch + 1) =
        some (tr'.retime g, g epoch + 1) := by
    cases h
    rw [modify_retime _ _ (stamp_retime g tenant epoch)]
    exact ⟨rfl, rfl⟩
  induction fuel with
  | zero =>
    intro tr epoch prev remaining tr' epoch' h
    cases remaining with
    | nil => exact hend h
    | cons c remaining => cases h
  | succ fuel ih =>
    intro tr epoch prev remaining tr' epoch' h
    cases remaining with
    | nil => exact hend h
    | cons c remaining =>
      rw [insertLoop] at h ⊢
      obtain ⟨⟨tr₁, epoch₁, step⟩, hstep, h⟩ := Option.bind_eq_some_iff.mp h
      obtain ⟨rfl, hstep'⟩ := insertStep_retime h0 hstep
      rw [hstep', Option.bind_eq_bind, Option.bind_some]
      cases step with
      | done =>
        cases h
        exact ⟨rfl, rfl⟩
      | «continue» nextPrev advanceChars =>
        obtain ⟨rest, hrest, h⟩ := Option.bind_eq_some_iff.mp h
        change insertLoop tenant fuel tr₁ (epoch + 0) nextPrev rest = _ at h
        rw [UInt64.add_zero] at h
        change _ ∧ Option.bind (advanceByChars (c :: remaining) advanceChars) (fun rest =>
          insertLoop tenant fuel (tr₁.retime g) (g epoch + 0) nextPrev rest) = _
        rw [hrest, Option.bind_some, UInt64.add_zero]
        exact ih h

theorem ensureRoot_retime (h0 : g 0 = 0) (tenant : TenantId) (tr : Tree) :
    (tr.retime g).ensureRoot tenant = (tr.ensureRoot tenant).retime g := by
  have hroot (nd : Node) :
      { nd.retime g with tenantLastAccessTime := orInsert tenant 0 (nd.retime g).tenantLastAccessTime } =
        ({ nd with tenantLastAccessTime := orInsert tenant 0 nd.tenantLastAccessTime } : Node).retime g := by
    have hinsert := orInsert_mapValues g tenant 0 nd.tenantLastAccessTime
    rw [h0] at hinsert
    rw [Node.retime, Node.retime, ← hinsert]
  have hmodify := congrArg Tree.nodes (modify_retime_self
    (fun nd => { nd with tenantLastAccessTime := orInsert tenant 0 nd.tenantLastAccessTime }) hroot tr root)
  rw [ensureRoot, ensureRoot]
  exact congrArg (Tree.mk · (orInsert tenant 0 tr.tenantCharCount)) hmodify

/-- **`insert`**, which draws one epoch. -/
theorem insert_retime (h0 : g 0 = 0) {text : Str} {tenant : TenantId} {epoch epoch' : Epoch} {tr' : Tree}
    (h : tr.insert text tenant epoch = some (tr', epoch')) :
    epoch' = epoch + 1 ∧
      (tr.retime g).insert text tenant (g epoch) = some (tr'.retime g, g epoch + 1) := by
  rw [insert] at h ⊢
  rw [ensureRoot_retime h0]
  exact insertLoop_retime h0 h

/-! ### Matching -/

theorem matchLoop_retime (g : Epoch → Epoch) (tr : Tree) : ∀ (fuel : Nat) (prev : NodeId) (text : Str)
    (matchedChars : Nat), (tr.retime g).matchLoop (fun _ => true) fuel prev text matchedChars =
      tr.matchLoop (fun _ => true) fuel prev text matchedChars := by
  intro fuel
  induction fuel with
  | zero =>
    intro prev text matchedChars
    cases text <;> rfl
  | succ fuel ih =>
    intro prev text matchedChars
    cases text with
    | nil => rfl
    | cons c rest =>
      rw [matchLoop, matchLoop, read_retime]
      cases tr.nodes[prev]? with
      | none => rfl
      | some pnode =>
        simp only [Option.map_some, Option.bind_eq_bind, Option.bind_some,
          show (pnode.retime g).children = pnode.children from rfl]
        cases pnode.children.lookup c with
        | none => rfl
        | some matched =>
          dsimp only
          rw [read_retime]
          cases tr.nodes[matched]? with
          | none => rfl
          | some mnode =>
            simp only [Option.map_some, Option.bind_some, ih]
            rfl

theorem firstTenant_retime (ord : HashOrder) (g : Epoch → Epoch) (n : NodeId) (nd : Node) :
    firstTenant ord.toIterOrder n (nd.retime g) = firstTenant ord.toIterOrder n nd := by
  have htenants : ord.tenants n (nd.retime g).tenantLastAccessTime =
      mapValues g (ord.tenants n nd.tenantLastAccessTime) := ord.tenants_mapValues n _ g
  rw [firstTenant, firstTenant, htenants]
  cases ord.tenants n nd.tenantLastAccessTime <;> rfl

theorem selectTenant_retime (ord : HashOrder) (g : Epoch → Epoch) (n : NodeId) (nd : Node) :
    selectTenant ord.toIterOrder n (nd.retime g) = selectTenant ord.toIterOrder n nd := by
  rw [selectTenant, selectTenant, firstTenant_retime]
  rw [show (nd.retime g).lastTenant = nd.lastTenant from rfl]
  cases nd.lastTenant with
  | none => rfl
  | some t =>
    dsimp only
    rw [carries_retime]

/-- A match before the refresh: the tree with the answer cached, the node and the answer. -/
def settle (ord : IterOrder) (text : Str) (tr : Tree) : Option (Tree × NodeId × PrefixMatchResult) := do
  let (curr, matchedChars) ← tr.matchLoop (fun _ => true) text.length root text 0
  let cnode ← tr.nodes[curr]?
  let (tenant, cache) := selectTenant ord curr cnode
  some (tr.modify curr fun nd => { nd with lastTenant := cache }, curr, ⟨tenant, matchedChars, text.length⟩)

/-- One epoch in eight refreshes what a match finds. -/
def Refreshes (epoch : Epoch) : Prop := epoch &&& 7 = 0

instance (epoch : Epoch) : Decidable (Refreshes epoch) := inferInstanceAs (Decidable (_ = _))

/-- The refresh of a match. -/
def refresh (epoch : Epoch) (n : NodeId) (tenant : TenantId) (tr : Tree) : Tree :=
  if Refreshes epoch then tr.modify n (Node.stamp tenant epoch) else tr

theorem prefixMatchWithCounts_eq (ord : IterOrder) (text : Str) (tr : Tree) (epoch : Epoch) :
    tr.prefixMatchWithCounts ord text epoch = (tr.settle ord text).map fun r =>
      (r.1.refresh epoch r.2.1 r.2.2.tenant, epoch + 1, r.2.2) := by
  rw [prefixMatchWithCounts, settle]
  cases tr.matchLoop (fun _ => true) text.length root text 0 with
  | none => rfl
  | some r =>
    simp only [Option.bind_eq_bind, Option.bind_some]
    cases tr.nodes[r.1]? with
    | none => rfl
    | some cnode => rfl

theorem settle_retime (ord : HashOrder) (g : Epoch → Epoch) (text : Str) (tr : Tree) :
    (tr.retime g).settle ord.toIterOrder text =
      (tr.settle ord.toIterOrder text).map fun r => (r.1.retime g, r.2) := by
  rw [settle, settle, matchLoop_retime]
  cases tr.matchLoop (fun _ => true) text.length root text 0 with
  | none => rfl
  | some r =>
    simp only [Option.bind_eq_bind, Option.bind_some, read_retime]
    cases tr.nodes[r.1]? with
    | none => rfl
    | some cnode =>
      have hcache := modify_retime_self (g := g) (fun nd =>
        { nd with lastTenant := (selectTenant ord.toIterOrder r.1 cnode).2 }) (fun _ => rfl) tr r.1
      simp only [Option.map_some, Option.bind_some, selectTenant_retime, ← hcache]

/-! ### Removal -/

theorem visit_retime (ord : IterOrder) (g : Epoch → Epoch) (nodes : List Node) : ∀ (fuel : Nat)
    (stack : List NodeId), visit ord (nodes.map (Node.retime g)) fuel stack = visit ord nodes fuel stack := by
  intro fuel
  induction fuel with
  | zero =>
    intro stack
    cases stack <;> rfl
  | succ fuel ih =>
    intro stack
    cases stack with
    | nil => rfl
    | cons curr stack =>
      rw [visit, visit, List.getElem?_map]
      cases nodes[curr]? with
      | none => rfl
      | some nd =>
        simp only [Option.map_some, Option.bind_eq_bind, Option.bind_some, ih]
        rfl

theorem visitAll_retime (ord : IterOrder) (g : Epoch → Epoch) (tr : Tree) :
    (tr.retime g).visitAll ord = tr.visitAll ord := by
  rw [visitAll, visitAll, length_retime]
  exact visit_retime ord g tr.nodes _ _

section
variable (g : Epoch → Epoch) (t : TenantId)

theorem detachTenant_retime (n : NodeId) (tr : Tree) :
    (tr.retime g).detachTenant t n = ((tr.detachTenant t n).1.retime g, (tr.detachTenant t n).2) := by
  rw [detachTenant, detachTenant, modify_retime_self _ (dropTenant_retime g t)]
  simp only [read_retime]
  cases (tr.modify n (Node.dropTenant t)).nodes[n]? with
  | none => rfl
  | some nd =>
    have hempty : (nd.retime g).tenantLastAccessTime.isEmpty = nd.tenantLastAccessTime.isEmpty := by
      change (mapValues g nd.tenantLastAccessTime).isEmpty = _
      rw [mapValues, isEmpty_map]
    have hchildren : (nd.retime g).children = nd.children := rfl
    have hparent : (nd.retime g).parent = nd.parent := rfl
    have htext : (nd.retime g).text = nd.text := rfl
    simp only [Option.map_some, hempty, hchildren, hparent, htext]
    split
    · cases nd.parent with
      | none => rfl
      | some p =>
        cases nd.text.firstChar with
        | none => rfl
        | some fc =>
          dsimp only
          rw [modify_retime_self (Node.unlink fc) fun _ => rfl]
    · rfl

theorem leafParent_retime (tr : Tree) (parent : Option NodeId) :
    leafParent t (tr.retime g) parent = (leafParent t tr parent).map fun r => (r.1, r.2.retime g) := by
  rw [leafParent, leafParent]
  cases parent with
  | none => rfl
  | some p =>
    simp only [Option.bind_eq_bind, Option.bind_some, read_retime]
    cases tr.nodes[p]? with
    | none => rfl
    | some pnode =>
      simp only [Option.map_some, Option.bind_some, carries_retime, childCarries_retime]
      split <;> rfl

theorem removeLoop_retime : ∀ (fuel : Nat) (tr : Tree)
    (queue : List NodeId), removeLoop t fuel (tr.retime g) queue =
      (removeLoop t fuel tr queue).map (retime g) := by
  intro fuel
  induction fuel with
  | zero =>
    intro tr queue
    cases queue <;> rfl
  | succ fuel ih =>
    intro tr queue
    cases queue with
    | nil => rfl
    | cons curr queue =>
      rw [removeLoop, removeLoop, detachTenant_retime]
      dsimp only
      rw [leafParent_retime]
      cases leafParent t (tr.detachTenant t curr).1 (tr.detachTenant t curr).2 with
      | none => exact ih _ queue
      | some r => exact ih _ (queue ++ [r.1])

end

/-- **`remove_tenant`.** -/
theorem removeTenant_retime (ord : IterOrder) (g : Epoch → Epoch) (t : TenantId) (tr : Tree) :
    (tr.retime g).removeTenant ord t = (tr.removeTenant ord t).map (retime g) := by
  have hqueue (n : NodeId) :
      ((tr.retime g).nodes[n]?).any (fun nd => nd.carries t && !(tr.retime g).childCarries nd t) =
        (tr.nodes[n]?).any fun nd => nd.carries t && !tr.childCarries nd t := by
    rw [read_retime]
    cases tr.nodes[n]? with
    | none => rfl
    | some nd =>
      simp only [Option.map_some, Option.any_some, carries_retime, childCarries_retime]
  rw [removeTenant, removeTenant, visitAll_retime]
  cases tr.visitAll ord with
  | none => rfl
  | some order =>
    simp only [Option.bind_eq_bind, Option.bind_some, hqueue, length_retime, removeLoop_retime]
    cases removeLoop t tr.nodes.length tr _ with
    | none => rfl
    | some tr' => rfl

/-! ### Eviction -/

section
variable (ord : HashOrder) (g : Epoch → Epoch)

theorem tenants_retime (n : NodeId) (nd : Node) : ord.tenants n (nd.retime g).tenantLastAccessTime =
      mapValues g (ord.tenants n nd.tenantLastAccessTime) :=
  ord.tenants_mapValues n _ g

/-- A child takes the same candidates away. -/
theorem candidates_retime (tr : Tree) (cand : List (TenantId × Bool)) (e : Char × NodeId) :
    (match (tr.retime g).nodes[e.2]? with
      | none => cand
      | some child => (ord.tenants e.2 child.tenantLastAccessTime).foldl
          (fun cand (e : TenantId × Epoch) => put e.1 false cand) cand) =
    (match tr.nodes[e.2]? with
      | none => cand
      | some child => (ord.tenants e.2 child.tenantLastAccessTime).foldl
          (fun cand (e : TenantId × Epoch) => put e.1 false cand) cand) := by
  rw [read_retime]
  cases tr.nodes[e.2]? with
  | none => rfl
  | some child =>
    simp only [Option.map_some, tenants_retime]
    rw [mapValues, foldl_map]

theorem leafOf_retime (tr : Tree) (n : NodeId) (nd : Node) :
    leafOf ord.toIterOrder (tr.retime g) n (nd.retime g) = leafOf ord.toIterOrder tr n nd := by
  have hown : (ord.tenants n (nd.retime g).tenantLastAccessTime).map (fun e => (e.1, true)) =
      (ord.tenants n nd.tenantLastAccessTime).map fun e => (e.1, true) := by
    rw [tenants_retime, mapValues, map_map]
    rfl
  rw [leafOf, leafOf]
  simp only [hown]
  refine congrArg (fun cand : List (TenantId × Bool) => ord.leaves n ((cand.filter Prod.snd).map Prod.fst)) ?_
  refine congrArg (fun f => List.foldl f _ (ord.children n nd.children)) ?_
  funext cand e
  exact candidates_retime ord g tr cand e

theorem leafEntries_retime (tr : Tree) (n : NodeId) : leafEntries ord.toIterOrder (tr.retime g) n =
      (leafEntries ord.toIterOrder tr n).map (EvictionEntry.retime g) := by
  rw [leafEntries, leafEntries, read_retime]
  cases tr.nodes[n]? with
  | none => rfl
  | some nd =>
    simp only [Option.map_some, leafOf_retime]
    rw [map_filterMap]
    congr 1
    funext t
    change ((mapValues g nd.tenantLastAccessTime).lookup t).map _ = _
    rw [lookup_mapValues]
    cases nd.tenantLastAccessTime.lookup t <;> rfl

theorem evictHeap_retime (tr : Tree) : (tr.retime g).evictHeap ord.toIterOrder =
      (tr.evictHeap ord.toIterOrder).map (List.map (EvictionEntry.retime g)) := by
  rw [evictHeap, evictHeap, visitAll_retime]
  cases tr.visitAll ord.toIterOrder with
  | none => rfl
  | some order =>
    simp only [Option.bind_eq_bind, Option.bind_some, Option.map_some, map_flatMap]
    rw [funext (leafEntries_retime ord g tr)]

end

theorem evictEntry_retime (g : Epoch → Epoch) (maxSize : Nat) (tr : Tree) (e : EvictionEntry)
    (pq : List EvictionEntry) :
    evictEntry maxSize (tr.retime g) (e.retime g) (pq.map (EvictionEntry.retime g)) =
      (evictEntry maxSize tr e pq).map fun r => (r.1.retime g, r.2.map (EvictionEntry.retime g)) := by
  have hskips (nd : Node) : evictSkips maxSize (tr.retime g) (e.retime g) (nd.retime g) =
      evictSkips maxSize tr e nd := by
    rw [evictSkips, evictSkips]
    change (_ || !((nd.retime g).carries e.tenant && !(tr.retime g).childCarries (nd.retime g) e.tenant)) = _
    rw [carries_retime, childCarries_retime]
    rfl
  rw [evictEntry, evictEntry, read_retime]
  change Option.bind ((tr.nodes[e.node]?).map _) _ = Option.map _ (Option.bind _ _)
  cases tr.nodes[e.node]? with
  | none => rfl
  | some nd =>
    simp only [Option.map_some, Option.bind_some, hskips]
    split
    · rfl
    · let u : Tree := { tr with
        tenantCharCount := andModify e.tenant (· - nd.text.charCount) tr.tenantCharCount }
      have htenant : (e.retime g).tenant = e.tenant := rfl
      have hnode : (e.retime g).node = e.node := rfl
      have hu : ({ tr.retime g with
          tenantCharCount := andModify e.tenant (· - (nd.retime g).text.charCount)
            (tr.retime g).tenantCharCount } : Tree) = u.retime g := rfl
      simp only [htenant, hnode, hu, detachTenant_retime, leafParent_retime]
      cases leafParent e.tenant (u.detachTenant e.tenant e.node).1
          (u.detachTenant e.tenant e.node).2 with
      | none => rfl
      | some r =>
        have hlookup : (r.2.retime g).tenantLastAccessTime.lookup e.tenant =
            (r.2.tenantLastAccessTime.lookup e.tenant).map g := lookup_mapValues g _ _
        simp only [Option.map_some, hlookup]
        cases r.2.tenantLastAccessTime.lookup e.tenant with
        | none => rfl
        | some timestamp =>
          simp only [Option.map_some, map_append, map_singleton]
          rfl

/-! ### The timestamps of a tree -/

def times (tr : Tree) : List Epoch := tr.nodes.flatMap fun nd => nd.tenantLastAccessTime.map Prod.snd

theorem mem_times {x : Epoch} :
    x ∈ tr.times ↔ ∃ nd ∈ tr.nodes, ∃ e ∈ nd.tenantLastAccessTime, e.2 = x := by
  simp only [times, mem_flatMap, mem_map]

theorem retime_congr {g' : Epoch → Epoch} (h : ∀ x ∈ tr.times, g x = g' x) :
    tr.retime g = tr.retime g' := by
  have hnodes : tr.nodes.map (Node.retime g) = tr.nodes.map (Node.retime g') := by
    refine map_congr_left fun nd hnd => ?_
    have hmap : mapValues g nd.tenantLastAccessTime = mapValues g' nd.tenantLastAccessTime :=
      map_congr_left fun e he => by rw [h e.2 (mem_times.mpr ⟨nd, hnd, e, he, rfl⟩)]
    rw [Node.retime, Node.retime, hmap]
  rw [retime, retime, hnodes]

/-- A change that leaves those in a list, and no others. -/
def bump (kept : List Epoch) (x : Epoch) : Epoch := if x ∈ kept then x else x + 1

theorem bump_of_mem {kept : List Epoch} {x : Epoch} (h : x ∈ kept) : bump kept x = x := if_pos h

theorem mem_of_bump {kept : List Epoch} {x : Epoch} (h : bump kept x = x) : x ∈ kept := by
  rw [bump] at h
  split at h
  · next hx => exact hx
  · exact absurd h (by simp)

theorem retime_bump {kept : List Epoch} (h : tr.times ⊆ kept) : tr.retime (bump kept) = tr := by
  have hid : tr.retime (bump kept) = tr.retime id := retime_congr fun x hx => bump_of_mem (h hx)
  have hself : tr.nodes.map (Node.retime id) = tr.nodes := by
    refine (map_congr_left fun nd _ => ?_).trans (map_id _)
    have hmap : mapValues id nd.tenantLastAccessTime = nd.tenantLastAccessTime := map_id _
    rw [Node.retime, hmap]
    rfl
  rw [hid, retime, hself]

/-- The timestamps are among those that a change leaves, if it leaves the tree. -/
theorem times_of_retime_bump {kept : List Epoch} (h : tr.retime (bump kept) = tr) : tr.times ⊆ kept := by
  intro x hx
  obtain ⟨nd, hnd, e, he, rfl⟩ := mem_times.mp hx
  have hnodes : tr.nodes.map (Node.retime (bump kept)) = tr.nodes.map id :=
    (congrArg Tree.nodes h).trans (map_id _).symm
  have hnode : nd.retime (bump kept) = nd := List.map_inj_left.mp hnodes nd hnd
  have htenants : nd.tenantLastAccessTime.map (fun e => (e.1, bump kept e.2)) =
      nd.tenantLastAccessTime.map id :=
    (congrArg Node.tenantLastAccessTime hnode).trans (map_id _).symm
  exact mem_of_bump (congrArg Prod.snd (List.map_inj_left.mp htenants e he))

/-! What a call leaves of the timestamps follows: it does the same when those of before, and those that it
draws, are left and all others changed. -/

theorem times_insert {text : Str} {tenant : TenantId} {epoch epoch' : Epoch} {tr' : Tree}
    (h : tr.insert text tenant epoch = some (tr', epoch')) : tr'.times ⊆ 0 :: epoch :: tr.times := by
  let kept := 0 :: epoch :: tr.times
  have h0 : bump kept 0 = 0 := bump_of_mem mem_cons_self
  have he : bump kept epoch = epoch := bump_of_mem (mem_cons_of_mem _ mem_cons_self)
  have htr : tr.retime (bump kept) = tr :=
    retime_bump fun _ hx => mem_cons_of_mem _ (mem_cons_of_mem _ hx)
  have hrun := (insert_retime h0 h).2
  rw [htr, he, h] at hrun
  exact times_of_retime_bump (Prod.mk.inj (Option.some.inj hrun)).1.symm

theorem times_settle {ord : HashOrder} {text : Str} {tr' : Tree} {n : NodeId} {r : PrefixMatchResult}
    (h : tr.settle ord.toIterOrder text = some (tr', n, r)) : tr'.times ⊆ tr.times := by
  have hrun := settle_retime ord (bump tr.times) text tr
  rw [retime_bump (List.Subset.refl _), h, Option.map_some] at hrun
  exact times_of_retime_bump (Prod.mk.inj (Option.some.inj hrun)).1.symm

theorem times_removeTenant {ord : IterOrder} {tr' : Tree} (h : tr.removeTenant ord t = some tr') :
    tr'.times ⊆ tr.times := by
  have hrun := removeTenant_retime ord (bump tr.times) t tr
  rw [retime_bump (List.Subset.refl _), h, Option.map_some] at hrun
  exact times_of_retime_bump (Option.some.inj hrun).symm

theorem times_modify_stamp {epoch : Epoch} :
    (tr.modify n (Node.stamp t epoch)).times ⊆ epoch :: tr.times := by
  let kept := epoch :: tr.times
  have he : bump kept epoch = epoch := bump_of_mem mem_cons_self
  have htr : tr.retime (bump kept) = tr := retime_bump fun _ hx => mem_cons_of_mem _ hx
  have hrun := modify_retime (Node.stamp t epoch) _ (stamp_retime (bump kept) t epoch) tr n
  rw [htr, he] at hrun
  exact times_of_retime_bump hrun.symm

/-! ### The order of the timestamps -/

/-- A change keeps the order of some timestamps. -/
def KeepsOrder (g : Epoch → Epoch) (xs : List Epoch) : Prop := ∀ x ∈ xs, ∀ y ∈ xs, x < y → g x < g y

theorem KeepsOrder.of_subset {xs ys : List Epoch} (h : KeepsOrder g ys) (hsub : xs ⊆ ys) :
    KeepsOrder g xs := fun x hx y hy => h x (hsub hx) y (hsub hy)

/-- The heap and the tree have timestamps of a list only. -/
structure Within (xs : List Epoch) (tr : Tree) (pq : List EvictionEntry) : Prop where
  tree : tr.times ⊆ xs
  heap : ∀ e ∈ pq, e.timestamp ∈ xs

theorem map_retime_bump {kept : List Epoch} {pq : List EvictionEntry}
    (h : ∀ e ∈ pq, e.timestamp ∈ kept) : pq.map (EvictionEntry.retime (bump kept)) = pq := by
  refine (map_congr_left fun e he => ?_).trans (map_id _)
  rw [EvictionEntry.retime, bump_of_mem (h e he)]
  rfl

theorem mem_of_map_retime_bump {kept : List Epoch} {pq : List EvictionEntry}
    (h : pq.map (EvictionEntry.retime (bump kept)) = pq) : ∀ e ∈ pq, e.timestamp ∈ kept := by
  intro e he
  have hmap : pq.map (EvictionEntry.retime (bump kept)) = pq.map id := h.trans (map_id _).symm
  exact mem_of_bump (congrArg EvictionEntry.timestamp (List.map_inj_left.mp hmap e he))

theorem Within.evictEntry {xs : List Epoch} {maxSize : Nat} {e : EvictionEntry}
    {pq pq' : List EvictionEntry} {tr' : Tree} (hw : Within xs tr (e :: pq))
    (h : evictEntry maxSize tr e pq = some (tr', pq')) : Within xs tr' pq' := by
  have hrun := evictEntry_retime (bump xs) maxSize tr e pq
  have he : e.retime (bump xs) = e := by
    rw [EvictionEntry.retime, bump_of_mem (hw.heap e mem_cons_self)]
  rw [retime_bump hw.tree, he, map_retime_bump fun e' he' => hw.heap e' (mem_cons_of_mem _ he'), h,
    Option.map_some] at hrun
  obtain ⟨htree, hheap⟩ := Prod.mk.inj (Option.some.inj hrun)
  exact ⟨times_of_retime_bump htree.symm, mem_of_map_retime_bump hheap.symm⟩

theorem Within.evictHeap {ord : HashOrder} {pq : List EvictionEntry}
    (h : tr.evictHeap ord.toIterOrder = some pq) : Within tr.times tr pq := by
  have hrun := evictHeap_retime ord (bump tr.times) tr
  rw [retime_bump (List.Subset.refl _), h, Option.map_some] at hrun
  exact ⟨List.Subset.refl _, mem_of_map_retime_bump (Option.some.inj hrun).symm⟩

theorem popEntry_retime (ord : HashOrder) {pq : List EvictionEntry} {xs : List Epoch}
    (hg : KeepsOrder g xs) (hpq : ∀ e ∈ pq, e.timestamp ∈ xs) :
    popEntry ord.toIterOrder (pq.map (EvictionEntry.retime g)) =
      (popEntry ord.toIterOrder pq).map fun r => (r.1.retime g, r.2.map (EvictionEntry.retime g)) := by
  have hpop : ord.pop (pq.map (EvictionEntry.retime g)) = ord.pop pq :=
    ord.pop_retime pq g fun e he e' he' => hg _ (hpq e he) _ (hpq e' he')
  rw [popEntry, popEntry, hpop, List.getElem?_map]
  cases pq[ord.pop pq]? with
  | none => rfl
  | some e => simp only [Option.map_some, eraseIdx_map]

theorem evictLoop_retime (ord : HashOrder) (maxSize : Nat) {xs : List Epoch} (hg : KeepsOrder g xs) :
    ∀ (fuel : Nat) {tr : Tree} {pq : List EvictionEntry}, Within xs tr pq →
      evictLoop ord.toIterOrder maxSize fuel (tr.retime g) (pq.map (EvictionEntry.retime g)) =
        (evictLoop ord.toIterOrder maxSize fuel tr pq).map (retime g) := by
  intro fuel
  induction fuel with
  | zero =>
    intro tr pq _
    cases pq <;> rfl
  | succ fuel ih =>
    intro tr pq hw
    cases pq with
    | nil => rfl
    | cons e pq =>
      change (evictStep ord.toIterOrder maxSize (tr.retime g)
          ((e :: pq).map (EvictionEntry.retime g))).bind _ =
        ((evictStep ord.toIterOrder maxSize tr (e :: pq)).bind _).map _
      rw [evictStep, evictStep, popEntry_retime ord hg hw.heap]
      cases hpop : popEntry ord.toIterOrder (e :: pq) with
      | none => rfl
      | some r =>
        obtain ⟨e', rest⟩ := r
        simp only [Option.map_some, Option.bind_eq_bind, Option.bind_some, evictEntry_retime]
        cases hentry : evictEntry maxSize tr e' rest with
        | none => rfl
        | some r =>
          have hrest : Within xs tr (e' :: rest) := by
            obtain ⟨e'', hread, he⟩ := Option.map_eq_some_iff.mp hpop
            cases he
            refine ⟨hw.tree, fun x hx => ?_⟩
            obtain rfl | hx := List.mem_cons.mp hx
            · exact hw.heap _ (List.mem_of_getElem? hread)
            · exact hw.heap _ (mem_of_mem_eraseIdx hx)
          exact ih (hrest.evictEntry hentry)

theorem pairCount_retime (g : Epoch → Epoch) (tr : Tree) : (tr.retime g).pairCount = tr.pairCount := by
  rw [pairCount, pairCount, nodes_retime, map_map]
  congr 2
  funext nd
  exact length_map _

/-- **`evict_tenant_by_size`**, where the order is kept. -/
theorem evictTenantBySize_retime (ord : HashOrder) (maxSize : Nat) (hg : KeepsOrder g tr.times) :
    (tr.retime g).evictTenantBySize ord.toIterOrder maxSize =
      (tr.evictTenantBySize ord.toIterOrder maxSize).map (retime g) := by
  rw [evictTenantBySize, evictTenantBySize, evictHeap_retime]
  cases hheap : tr.evictHeap ord.toIterOrder with
  | none => rfl
  | some pq =>
    simp only [Option.map_some, Option.bind_eq_bind, Option.bind_some, length_map, pairCount_retime]
    exact evictLoop_retime ord maxSize hg _ (.evictHeap hheap)

theorem times_evictTenantBySize {ord : HashOrder} {maxSize : Nat} {tr' : Tree}
    (h : tr.evictTenantBySize ord.toIterOrder maxSize = some tr') : tr'.times ⊆ tr.times := by
  have hkeeps : KeepsOrder (bump tr.times) tr.times := fun x hx y hy hlt => by
    rwa [bump_of_mem hx, bump_of_mem hy]
  have hrun := evictTenantBySize_retime ord maxSize hkeeps
  rw [retime_bump (List.Subset.refl _), h, Option.map_some] at hrun
  exact times_of_retime_bump (Option.some.inj hrun).symm

end

end QwenStack.Tree
