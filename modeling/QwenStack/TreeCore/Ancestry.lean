import Mathlib.Algebra.Order.Group.Multiset
import QwenStack.TreeCore.Filling

/-!
# Tree core — locks on the way to the root, and slots

A lock of `FULL` is on a node and on all above it (`Above`, `mem_path_iff`).  A tree that grows has its
locks from before: each of its nodes is part of an old one, with the same lock and above the same nodes,
or new, without a lock and above none (`Parts`).  `inc_lock_ref` raises the locks of what is above a node
by one, and `dec_lock_ref` takes one back, but where a pin has its floor.

The slots that a tree holds on the device are counted as often as nodes have them.  A split moves them, and
a tree that grows has those that are new besides.
-/

namespace QwenStack.TreeCore
open Assoc UnifiedTreeCore List

/-- The lock of a node on the device. -/
def UnifiedTreeCore.lock (s : UnifiedTreeCore) (i : NodeId) : Int := (s.data i .full).lockRef

/-- A node is another or above it, and is not the root. -/
inductive Above (s : UnifiedTreeCore) (x : NodeId) : NodeId → Prop
  | self {p : NodeId} : (s.nodes x).parent = some p → Above s x x
  | up {i p : NodeId} : (s.nodes i).parent = some p → Above s x p → Above s x i

section
variable {s t : UnifiedTreeCore} {x i j p : NodeId}

theorem above_iff : Above s x i ↔ ∃ p, (s.nodes i).parent = some p ∧ (x = i ∨ Above s x p) := by
  constructor
  · intro hx
    cases hx with
    | self hp => exact ⟨_, hp, .inl rfl⟩
    | up hp hx => exact ⟨_, hp, .inr hx⟩
  · rintro ⟨p, hp, rfl | hx⟩
    · exact .self hp
    · exact .up hp hx

theorem not_above_root (h : WellFormed s) : ¬ Above s x s.rootNode := by
  intro hx
  obtain ⟨p, hp, -⟩ := above_iff.mp hx
  rw [h.root_parent] at hp
  cases hp

theorem above_of_mem_pathFrom : ∀ {fuel : Nat} {i : NodeId}, x ∈ s.pathFrom fuel i → Above s x i := by
  intro fuel
  induction fuel with
  | zero =>
    intro i hx
    cases hx
  | succ fuel ih =>
    intro i hx
    rw [pathFrom] at hx
    cases hp : (s.nodes i).parent with
    | none =>
      rw [hp] at hx
      cases hx
    | some p =>
      rw [hp] at hx
      exact above_iff.mpr ⟨p, hp, (List.mem_cons.mp hx).imp_right ih⟩

/-- **The path of a node** is what is above it. -/
theorem mem_path_iff (h : WellFormed s) (hi : i ∈ s.nodeArena) : x ∈ s.path i ↔ Above s x i := by
  refine ⟨above_of_mem_pathFrom, fun hx => ?_⟩
  obtain ⟨hself, hclosed⟩ := h.path_complete hi
  -- what is above a node of the path is on the path
  have hpath {j : NodeId} (hx : Above s x j) : (j ∈ s.path i) → x ∈ s.path i := by
    induction hx with
    | self _ => exact id
    | @up j p hp hx ih =>
      intro hj
      obtain ⟨q, hq, hroot | hq'⟩ := hclosed j hj
      · cases hp.symm.trans hq
        exact absurd hx (hroot ▸ not_above_root h)
      · cases hp.symm.trans hq
        exact ih hq'
  obtain rfl | hself := hself
  · exact absurd hx (not_above_root h)
  · exact hpath hx hself

theorem WellFormed.nodup_path (h : WellFormed s) (hi : i ∈ s.nodeArena) : (s.path i).Nodup := by
  obtain ⟨rank, hrank⟩ := h.ranked
  exact (h.pathFrom_spec hrank s.counter hi).2.1

theorem Above.of_parent (hparent : ∀ i, (t.nodes i).parent = (s.nodes i).parent) (hx : Above s x i) :
    Above t x i := by
  induction hx with
  | self hp => exact .self ((hparent x).trans hp)
  | up hp _ ih => exact .up ((hparent _).trans hp) ih

/-- A node is new: it is a leaf, or has one child and the parent that this had. -/
structure Joined (s t : UnifiedTreeCore) (child : Option NodeId) : Prop where
  wellFormed : WellFormed s
  parent : ∀ i ∈ s.nodeArena, some i ≠ child → (t.nodes i).parent = (s.nodes i).parent
  between : ∀ c, child = some c → (t.nodes c).parent = some s.counter ∧
    (t.nodes s.counter).parent = (s.nodes c).parent ∧ (s.nodes c).parent.isSome = true

/-- **What is above a node** was above it, or is the new one, above what its child was above. -/
theorem Joined.above_iff {child : Option NodeId} (h : Joined s t child) (hi : i ∈ s.nodeArena) :
    Above t x i ↔ if x = s.counter then ∃ c, child = some c ∧ Above s c i else Above s x i := by
  obtain ⟨rank, hrank⟩ := h.wellFormed.ranked
  induction hn : rank i using Nat.strong_induction_on generalizing i with
  | _ n ih =>
    have hne : i ≠ s.counter := (h.wellFormed.fresh i hi).ne
    cases hq : (s.nodes i).parent with
    | none =>
      have hs (y : NodeId) : ¬ Above s y i := fun hy => by
        obtain ⟨q, hq', -⟩ := TreeCore.above_iff.mp hy
        rw [hq] at hq'
        cases hq'
      have hc : some i ≠ child := fun hc => by
        have hsome := (h.between i hc.symm).2.2
        rw [hq] at hsome
        cases hsome
      have ht : ¬ Above t x i := fun hy => by
        obtain ⟨q, hq', -⟩ := TreeCore.above_iff.mp hy
        rw [h.parent i hi hc, hq] at hq'
        cases hq'
      simp [hs, ht]
    | some q =>
      have hqm := h.wellFormed.parent_mem hi hq
      have ih := ih (rank q) (hn ▸ hrank i hi q hq) hqm rfl
      have hs (y : NodeId) : Above s y i ↔ y = i ∨ Above s y q := by
        rw [TreeCore.above_iff, hq]
        simp
      simp only [hs]
      rw [TreeCore.above_iff]
      by_cases hc : some i = child
      · obtain ⟨hi', hcounter, -⟩ := h.between i hc.symm
        have ht : Above t x s.counter ↔ x = s.counter ∨ Above t x q := by
          rw [TreeCore.above_iff, hcounter, hq]
          simp
        subst hc
        by_cases hx : x = s.counter
        · subst hx
          simp [hi', ht]
        · simp [hi', ht, ih, hx]
      · rw [h.parent i hi hc, hq]
        by_cases hx : x = s.counter
        · subst hx
          have hup : (∃ p, some q = some p ∧ (s.counter = i ∨ Above t s.counter p)) ↔
              Above t s.counter q := by simp [hne.symm]
          rw [if_pos rfl] at ih ⊢
          rw [hup, ih]
          refine exists_congr fun c => and_congr_right fun hcc => ?_
          simp [show c ≠ i from fun he => hc (he ▸ hcc.symm)]
        · simp [ih, hx]

/-! ### Growth -/

/-- Every node is part of an old one, or is new. -/
structure Parts (s t : UnifiedTreeCore) : Prop where
  components : t.components = s.components
  pageSize : t.pageSize = s.pageSize
  arena : s.nodeArena ⊆ t.nodeArena
  rootNode : t.rootNode = s.rootNode
  part : ∀ x ∈ t.nodeArena, x ≠ t.rootNode →
    (t.lock x = 0 ∧ ∀ j ∈ s.nodeArena, ¬ Above t x j) ∨
      ∃ y ∈ s.nodeArena, y ≠ s.rootNode ∧ t.lock x = s.lock y ∧
        ((t.nodes x).pinned = (s.nodes y).pinned) ∧ ∀ j ∈ s.nodeArena, Above t x j ↔ Above s y j

namespace Parts

theorem refl (s : UnifiedTreeCore) : Parts s s :=
  ⟨rfl, rfl, fun _ h => h, rfl, fun x hx hne => .inr ⟨x, hx, hne, rfl, rfl, fun _ _ => Iff.rfl⟩⟩

theorem trans {u : UnifiedTreeCore} (h : Parts s t) (h' : Parts t u) : Parts s u := by
  refine ⟨h'.components.trans h.components, h'.pageSize.trans h.pageSize,
    fun _ hi => h'.arena (h.arena hi), h'.rootNode.trans h.rootNode, fun x hx hne => ?_⟩
  obtain ⟨hlock, hnew⟩ | ⟨y, hy, hyne, hlock, hpinned, hold⟩ := h'.part x hx hne
  · exact .inl ⟨hlock, fun j hj => hnew j (h.arena hj)⟩
  · obtain ⟨hlock', hnew⟩ | ⟨z, hz, hzne, hlock', hpinned', hold'⟩ := h.part y hy hyne
    · exact .inl ⟨hlock.trans hlock', fun j hj hx => hnew j hj ((hold j (h.arena hj)).mp hx)⟩
    · exact .inr ⟨z, hz, hzne, hlock.trans hlock', hpinned.trans hpinned',
        fun j hj => (hold j (h.arena hj)).trans (hold' j hj)⟩

/-- The nodes are the same, with their locks and pins. -/
theorem of_sameShape (h : SameShape s t) (hlock : ∀ i, t.lock i = s.lock i)
    (hpinned : ∀ i, (t.nodes i).pinned = (s.nodes i).pinned) : Parts s t := by
  refine ⟨h.components, h.pageSize, h.nodeArena.superset, h.rootNode, fun x hx hne => .inr ⟨x,
    h.nodeArena ▸ hx, h.rootNode ▸ hne, hlock x, hpinned x, fun j _ => ?_⟩⟩
  exact ⟨fun hx => hx.of_parent fun i => (h.parent i).symm, fun hx => hx.of_parent h.parent⟩

theorem updateEvictableLeafSets (s : UnifiedTreeCore) (i : NodeId) :
    Parts s (s.updateEvictableLeafSets i) :=
  of_sameShape (.updateEvictableLeafSets s i) (fun _ => rfl) fun _ => rfl

theorem updateDuplicateTracking (s : UnifiedTreeCore) (i : NodeId) :
    Parts s (s.updateDuplicateTracking i) :=
  of_sameShape (.updateDuplicateTracking s i) (fun _ => rfl) fun _ => rfl

end Parts

section
variable {child : NodeId} {n : Nat} (h : Cut s p child n)
include h

theorem Cut.joined : Joined s (s.divide p child n) (some child) := by
  refine ⟨h.radix.wellFormed, fun i hi hne => ?_, fun c hc => ?_⟩
  · rw [h.nodes_old (fun he => hne (he ▸ rfl)) (h.radix.ne_counter hi)]
  · cases hc
    rw [h.nodes_child, h.nodes_counter, h.isChild.parent]
    exact ⟨rfl, h.isChild.parent, rfl⟩

/-- A fragment has the lock of the child, and its pin. -/
theorem Cut.lock_divide (i : NodeId) :
    (s.divide p child n).lock i = s.lock (if i = s.counter then child else i) ∧
      ((s.divide p child n).nodes i).pinned = (s.nodes (if i = s.counter then child else i)).pinned := by
  rw [lock, h.data i h.radix.wellFormed.full]
  split
  · next hi => exact ⟨rfl, by rw [hi, h.nodes_counter]; rfl⟩
  · next hi =>
    split
    · next hic => exact ⟨by rw [hic]; rfl, by rw [hic, h.nodes_child]; rfl⟩
    · next hic => exact ⟨rfl, by rw [h.nodes_old hic hi]⟩

theorem Parts.divide : Parts s (s.divide p child n) := by
  refine ⟨rfl, rfl, Finset.subset_insert _ _, rfl, fun x hx hne => .inr ?_⟩
  obtain ⟨hlock, hpinned⟩ := h.lock_divide x
  refine ⟨_, ?_, ?_, hlock, hpinned, fun j hj => ?_⟩
  · split
    · exact h.isChild.mem
    · next hxn => exact (Finset.mem_insert.mp hx).resolve_left hxn
  · split
    · exact h.child_ne_root
    · exact hne
  · rw [h.joined.above_iff hj]
    split
    · simp
    · rfl

end

theorem Parts.split (h : Split s t) : Parts s t := by
  obtain rfl | ⟨p, child, n, hcut, ht⟩ := h
  · exact .refl t
  · cases hcut.splitNode_eq.symm.trans ht
    exact (((Parts.divide hcut).trans (.updateEvictableLeafSets _ s.counter)).trans
      (.updateEvictableLeafSets _ child)).trans (.updateDuplicateTracking _ s.counter)

theorem joined_sprout (h : WellFormed s) (hp : p ≠ s.counter) (k : Key) (w : Tensor) :
    Joined s (s.sprout p k w) none := by
  refine ⟨h, fun i hi _ => ?_, fun c hc => by cases hc⟩
  rw [sprout_old hp (h.fresh i hi).ne]

/-- A new node is without a lock. -/
theorem Parts.sprout (h : WellFormed s) (hp : p ≠ s.counter) (k : Key) (w : Tensor) :
    Parts s (s.sprout p k w) := by
  refine ⟨rfl, rfl, Finset.subset_insert _ _, rfl, fun x hx hne => ?_⟩
  have habove {j : NodeId} (hj : j ∈ s.nodeArena) := (joined_sprout h hp k w).above_iff (x := x) hj
  obtain rfl | hx := Finset.mem_insert.mp hx
  · refine .inl ⟨?_, fun j hj hx => ?_⟩
    · rw [lock, data_sprout hp, if_pos rfl]
      rfl
    · rw [habove hj, if_pos rfl] at hx
      obtain ⟨c, hc, -⟩ := hx
      cases hc
  · have hne := (h.fresh x hx).ne
    refine .inr ⟨x, hx, ‹_›, ?_, ?_, fun j hj => ?_⟩
    · rw [lock, data_sprout hp, if_neg hne]
      rfl
    · rw [sprout_old hp hne]
    · rw [habove hj, if_neg hne]

theorem Parts.addNewNode (h : WellFormed s) {k : Key} {w : Tensor}
    (ht : s.addNewNode p k w = some t) : Parts s t := by
  obtain ⟨hp, rfl⟩ := of_addNewNode ht
  exact (((Parts.sprout h (h.fresh p hp).ne k w).trans (.of_sameShape (.addEvictable _ .full w.length)
    (fun _ => rfl) fun _ => rfl)).trans (.updateEvictableLeafSets _ s.counter)).trans
      (.updateEvictableLeafSets _ p)

/-! ### Taking and giving back -/

/-- A sum with one term. -/
theorem sum_indicator {α : Type*} [DecidableEq α] {l : List α} (h : l.Nodup) {a : α} {d : Int} :
    (l.map fun b => if a = b then d else 0).sum = if a ∈ l then d else 0 := by
  induction l with
  | nil => rfl
  | cons b l ih =>
    obtain ⟨hb, hl⟩ := List.nodup_cons.mp h
    rw [map_cons, sum_cons, ih hl]
    by_cases hab : a = b
    · subst hab
      rw [if_pos rfl, if_neg hb, if_pos mem_cons_self, Int.add_zero]
    · simp [hab]

/-- A step adds `δ` to the locks; a pinned node may keep more. -/
structure Relocks (δ : NodeId → Int) (s t : UnifiedTreeCore) : Prop where
  same : SameValues s t
  le : ∀ x, s.lock x + δ x ≤ t.lock x
  eq : ∀ x, (s.nodes x).pinned = false → t.lock x = s.lock x + δ x

namespace Relocks

variable {δ δ' : NodeId → Int} {u : UnifiedTreeCore}

theorem refl (s : UnifiedTreeCore) : Relocks (fun _ => 0) s s :=
  ⟨.refl s, fun _ => (Int.add_zero _).le, fun _ _ => (Int.add_zero _).symm⟩

theorem trans (h : Relocks δ s t) (h' : Relocks δ' t u) : Relocks (fun x => δ x + δ' x) s u := by
  refine ⟨h.same.trans h'.same, fun x => ?_, fun x hx => ?_⟩
  · have hst := h.le x
    have htu := h'.le x
    omega
  · rw [h'.eq x ((h.same.pinned x).trans hx), h.eq x hx, Int.add_assoc]

theorem of_eq (h : Relocks δ s t) (hδ : ∀ x, δ x = δ' x) : Relocks δ' s t := by
  obtain rfl : δ = δ' := funext hδ
  exact h

/-- The steps of a loop add up. -/
theorem foldl {α : Type*} {f : UnifiedTreeCore → α → UnifiedTreeCore} {δ : α → NodeId → Int} :
    ∀ {l : List α} {s : UnifiedTreeCore}, (∀ a ∈ l, ∀ u, SameValues s u → Relocks (δ a) u (f u a)) →
      Relocks (fun x => (l.map (δ · x)).sum) s (l.foldl f s) := by
  intro l
  induction l with
  | nil => exact fun _ => refl _
  | cons a l ih =>
    intro s hf
    have hhead := hf a mem_cons_self s (.refl s)
    have htail := ih (s := f s a) fun b hb u hu =>
      hf b (mem_cons_of_mem a hb) u (hhead.same.trans hu)
    exact (hhead.trans htail).of_eq fun x => by rw [map_cons, sum_cons]

/-- Steps that keep the locks. -/
theorem foldl_zero {α : Type*} {f : UnifiedTreeCore → α → UnifiedTreeCore} {l : List α}
    (hf : ∀ a ∈ l, ∀ u, SameValues s u → Relocks (fun _ => 0) u (f u a)) :
    Relocks (fun _ => 0) s (l.foldl f s) := by
  refine (foldl hf).of_eq fun x => sum_eq_zero fun n hn => ?_
  obtain ⟨a, -, rfl⟩ := List.mem_map.mp hn
  rfl

/-- The lock of a component changes on a node. -/
theorem setData (s : UnifiedTreeCore) (i : NodeId) (c : ComponentType) (d : Int) :
    Relocks (fun x => if x = i ∧ c = .full then d else 0) s
      (s.setData i c { s.data i c with lockRef := (s.data i c).lockRef + d }) := by
  have hlock (x : NodeId) :
      (s.setData i c { s.data i c with lockRef := (s.data i c).lockRef + d }).lock x =
        s.lock x + if x = i ∧ c = .full then d else 0 := by
    rw [lock, data_setData]
    by_cases hx : x = i ∧ c = .full
    · rw [if_pos ⟨hx.1, hx.2.symm⟩, if_pos hx, hx.1, hx.2]
      rfl
    · rw [if_neg fun h => hx ⟨h.1, h.2.symm⟩, if_neg hx, Int.add_zero]
      rfl
  exact ⟨.setData s i c rfl rfl, fun x => (hlock x).ge, fun x _ => hlock x⟩

theorem protect (s : UnifiedTreeCore) (c : ComponentType) (n : Int) :
    Relocks (fun _ => 0) s (s.protect c n) :=
  ⟨.protect s c n, fun _ => (Int.add_zero _).le, fun _ _ => (Int.add_zero _).symm⟩

theorem acquireAt (c : ComponentType) (s : UnifiedTreeCore) (i : NodeId) :
    Relocks (fun x => if x = i ∧ c = .full then 1 else 0) s (acquireAt c s i) := by
  rw [UnifiedTreeCore.acquireAt]
  split
  · exact ((protect s c _).trans (setData (s.protect c _) i c 1)).of_eq fun x => Int.zero_add _
  · exact setData s i c 1

theorem releaseAt (c : ComponentType) (s : UnifiedTreeCore) (i : NodeId) :
    Relocks (fun x => if x = i ∧ c = .full then -1 else 0) s (releaseAt c s i) := by
  rw [UnifiedTreeCore.releaseAt]
  split
  · exact ((protect s c _).trans (setData (s.protect c _) i c (-1))).of_eq fun x => Int.zero_add _
  · exact setData s i c (-1)

theorem updateEvictableLeafSets (s : UnifiedTreeCore) (i : NodeId) :
    Relocks (fun _ => 0) s (s.updateEvictableLeafSets i) :=
  ⟨.updateEvictableLeafSets s i, fun _ => (Int.add_zero _).le, fun _ _ => (Int.add_zero _).symm⟩

/-- The locks of a path, once each. -/
theorem eachLock {lockAt : ComponentType → UnifiedTreeCore → NodeId → UnifiedTreeCore} {d : Int}
    (hlock : ∀ c u i, Relocks (fun x => if x = i ∧ c = .full then d else 0) u (lockAt c u i))
    (hnodup : s.components.Nodup) (hfull : .full ∈ s.components) {path : List NodeId}
    (hpath : path.Nodup) {skip : List ComponentType} (hskip : .full ∉ skip) :
    Relocks (fun x => if x ∈ path then d else 0) s (s.eachLock lockAt path skip) := by
  have hone (c : ComponentType) (x : NodeId) :
      ((lockRange c path).map fun i => if x = i ∧ c = .full then d else 0).sum =
        if .full = c then (if x ∈ path then d else 0) else 0 := by
    by_cases hc : c = .full
    · subst hc
      rw [if_pos rfl, ← sum_indicator hpath]
      exact congrArg List.sum (map_congr_left fun i _ => by simp)
    · rw [if_neg (Ne.symm hc)]
      exact sum_eq_zero fun n hn => by
        obtain ⟨i, -, rfl⟩ := List.mem_map.mp hn
        rw [if_neg fun h => hc h.2]
  refine (foldl (l := s.components.filter (· ∉ skip)) fun c _ u _ =>
    foldl (l := lockRange c path) fun i _ v _ => hlock c v i).of_eq fun x => ?_
  simp only [hone]
  rw [sum_indicator (hnodup.filter _), if_pos]
  exact List.mem_filter.mpr ⟨hfull, decide_eq_true hskip⟩

theorem floorLock (i : NodeId) (hi : (s.nodes i).pinned = true) (c : ComponentType) :
    Relocks (fun _ => 0) s (floorLock i s c) := by
  have hraise := Raises.floorLock i s c
  refine ⟨hraise.same, fun x => (Int.add_zero _).le.trans (hraise.lock .device x), fun x hx => ?_⟩
  have hne : x ≠ i := by
    rintro rfl
    rw [hi] at hx
    cases hx
  have hset (cd : ComponentData) : (s.setData i c cd).lock x = s.lock x := by
    rw [lock, data_setData, if_neg fun h => hne h.1]
    rfl
  rw [UnifiedTreeCore.floorLock, Int.add_zero]
  split
  · dsimp only
    split
    · exact hset _
    · exact hset _
  · rfl

theorem floorHostLock (s : UnifiedTreeCore) (i : NodeId) (c : ComponentType) :
    Relocks (fun _ => 0) s (floorHostLock i s c) := by
  have hlock (x : NodeId) : (UnifiedTreeCore.floorHostLock i s c).lock x = s.lock x + 0 := by
    rw [UnifiedTreeCore.floorHostLock, Int.add_zero]
    split
    · rw [lock, data_setData]
      split
      · next he => rw [he.1, lock, he.2]
      · rfl
    · rfl
  exact ⟨.floorHostLock i s c, fun x => (hlock x).ge, fun x _ => hlock x⟩

theorem restoreFloor (s : UnifiedTreeCore) (i : NodeId) :
    Relocks (fun _ => 0) s (restoreFloor UnifiedTreeCore.floorLock s i) := by
  rw [UnifiedTreeCore.restoreFloor]
  split
  · next hi =>
    have hfloors := foldl_zero (l := s.components) (s := s) (f := UnifiedTreeCore.floorLock i)
      fun c _ u hu => floorLock i ((hu.pinned i).trans hi) c
    exact hfloors.trans (updateEvictableLeafSets _ i)
  · exact refl s

end Relocks

/-- **`inc_lock_ref`** locks a node and what is above it once more. -/
theorem incLockRef_spec (h : WellFormed s) (hnodup : s.components.Nodup) (hi : i ∈ s.nodeArena)
    {skip : List ComponentType} (hskip : .full ∉ skip) :
    ∃ t, s.incLockRef i skip = some t ∧ Relocks (fun x => if x ∈ s.path i then 1 else 0) s t := by
  have hlock := Relocks.eachLock Relocks.acquireAt hnodup h.full (h.nodup_path hi) hskip
  rw [incLockRef, if_pos hi]
  exact ⟨_, rfl, (hlock.trans (.updateEvictableLeafSets _ i)).of_eq fun x => Int.add_zero _⟩

/-- **`dec_lock_ref`** takes one lock from each. -/
theorem decLockRef_spec (h : WellFormed s) (hnodup : s.components.Nodup) (hi : i ∈ s.nodeArena)
    {skip : List ComponentType} (hskip : .full ∉ skip) :
    ∃ t, s.decLockRef i skip = some t ∧ Relocks (fun x => if x ∈ s.path i then -1 else 0) s t := by
  have hlock := Relocks.eachLock Relocks.releaseAt hnodup h.full (h.nodup_path hi) hskip
  have hfloor := Relocks.foldl_zero (l := s.path i) (f := restoreFloor UnifiedTreeCore.floorLock)
    (s := s.eachLock releaseAt (s.path i) skip) fun j _ u _ => .restoreFloor u j
  rw [decLockRef, if_pos hi]
  refine ⟨_, rfl, ((hlock.trans hfloor).trans (.updateEvictableLeafSets _ i)).of_eq fun x => ?_⟩
  rw [Int.add_zero, Int.add_zero]

/-! ### Pins -/

/-- **`pin_prefix`** raises locks, and those of pinned nodes only. -/
structure Pinning (s t : UnifiedTreeCore) : Prop where
  shape : SameShape s t
  value : ∀ i, t.deviceValue i = s.deviceValue i
  hostValue : ∀ i, (t.data i .full).hostValue = (s.data i .full).hostValue
  le : ∀ i, s.lock i ≤ t.lock i
  unpinned : ∀ i, (t.nodes i).pinned = false → (s.nodes i).pinned = false ∧ t.lock i = s.lock i

theorem Pinning.pinNode (s : UnifiedTreeCore) (i : NodeId) : Pinning s (s.pinNode i) := by
  let u := s.setNode i { s.nodes i with pinned := true }
  let f (t : UnifiedTreeCore) (c : ComponentType) :=
    UnifiedTreeCore.floorHostLock i (UnifiedTreeCore.floorLock i t c) c
  have hdata (j : NodeId) : u.data j .full = s.data j .full := by
    rw [data, setNode_nodes]
    split
    · next he => rw [he]; rfl
    · rfl
  have hpinned (j : NodeId) (hj : (u.nodes j).pinned = false) : (s.nodes j).pinned = false := by
    rw [setNode_nodes] at hj
    split at hj
    · cases hj
    · exact hj
  have hi : (u.nodes i).pinned = true := by rw [setNode_nodes, if_pos rfl]
  have hlocks : Relocks (fun _ => 0) u ((s.components.foldl f u).updateEvictableLeafSets i) := by
    refine (Relocks.foldl_zero fun c _ v hv => ?_).trans (.updateEvictableLeafSets _ i)
    exact (Relocks.floorLock i ((hv.pinned i).trans hi) c).trans (.floorHostLock _ i c)
  refine ⟨.pinNode s i, fun j => ?_, fun j => ?_, fun j => ?_, fun j hj => ?_⟩
  · exact (hlocks.same.values j .full).trans (congrArg ComponentData.value (hdata j))
  · exact (hlocks.same.hostValues j .full).trans (congrArg ComponentData.hostValue (hdata j))
  · have hle := hlocks.le j
    rw [Int.add_zero, lock, hdata] at hle
    exact hle
  · have hju := (hlocks.same.pinned j).symm.trans hj
    refine ⟨hpinned j hju, (hlocks.eq j hju).trans ?_⟩
    rw [Int.add_zero, lock, hdata]
    rfl

theorem Pinning.pinPrefix (s : UnifiedTreeCore) : Pinning s s.pinPrefix := by
  refine List.foldlRecOn (s.path s.deepest) UnifiedTreeCore.pinNode (motive := Pinning s)
    ⟨.refl s, fun _ => rfl, fun _ => rfl, fun _ => Int.le_refl _, fun _ hi => ⟨hi, rfl⟩⟩ fun t ht i _ => ?_
  have hpin := Pinning.pinNode t i
  refine ⟨ht.shape.trans hpin.shape, fun j => (hpin.value j).trans (ht.value j),
    fun j => (hpin.hostValue j).trans (ht.hostValue j), fun j => (ht.le j).trans (hpin.le j), fun j hj => ?_⟩
  obtain ⟨hjt, hlock⟩ := hpin.unpinned j hj
  obtain ⟨hjs, hlock'⟩ := ht.unpinned j hjt
  exact ⟨hjs, hlock.trans hlock'⟩

end

/-! ### The slots of the tree -/

/-- The slots on the device. -/
def UnifiedTreeCore.treeSlots (s : UnifiedTreeCore) : Multiset Nat :=
  ∑ i ∈ s.nodeArena, (((s.deviceValue i).getD [] : List Nat) : Multiset Nat)

/-- One term of a sum changes. -/
theorem sum_change {ι M : Type*} [DecidableEq ι] [AddCommMonoid M] {f g : ι → M} {A : Finset ι} {i : ι}
    (hi : i ∈ A) (h : ∀ j ∈ A, j ≠ i → f j = g j) : ∑ j ∈ A, f j + g i = ∑ j ∈ A, g j + f i := by
  have hrest : ∑ j ∈ A.erase i, f j = ∑ j ∈ A.erase i, g j :=
    Finset.sum_congr rfl fun j hj => h j (Finset.mem_of_mem_erase hj) (Finset.ne_of_mem_erase hj)
  rw [← Finset.sum_erase_add A f hi, ← Finset.sum_erase_add A g hi, hrest, add_right_comm]

section
variable {s t u : UnifiedTreeCore} {i p : NodeId} {v w : Tensor}

theorem SameStored.treeSlots (h : SameStored s t) : t.treeSlots = s.treeSlots := by
  rw [UnifiedTreeCore.treeSlots, UnifiedTreeCore.treeSlots, h.shape.nodeArena]
  exact Finset.sum_congr rfl fun i _ => by rw [h.value]

/-- **A split moves slots.** -/
theorem Cut.treeSlots {child : NodeId} {n : Nat} (h : Cut s p child n) :
    (s.divide p child n).treeSlots = s.treeSlots := by
  have hfresh : s.counter ∉ s.nodeArena := fun hm => (h.radix.ne_counter hm) rfl
  let f (i : NodeId) : Multiset Nat := (((s.divide p child n).deviceValue i).getD [] : List Nat)
  let g (i : NodeId) : Multiset Nat := ((s.deviceValue i).getD [] : List Nat)
  have hchange : ∑ j ∈ s.nodeArena, f j + g child = ∑ j ∈ s.nodeArena, g j + f child :=
    sum_change h.isChild.mem fun j hj hne => by
      simp only [f, g, h.value_old hne (h.radix.ne_counter hj)]
  have hparts : f s.counter + f child = g child := by
    cases hw : s.deviceValue child with
    | none =>
      simp only [f, g, h.deviceValue, if_neg h.child_ne, hw]
      rfl
    | some w =>
      simp only [f, g, h.value_counter hw, h.value_child hw, hw, Option.getD_some]
      rw [Multiset.coe_add, take_append_drop]
  refine add_right_cancel (b := g child) ?_
  change ∑ j ∈ insert s.counter s.nodeArena, f j + g child = ∑ j ∈ s.nodeArena, g j + g child
  rw [Finset.sum_insert hfresh, add_assoc, hchange, ← hparts, add_left_comm]

theorem Split.treeSlots (h : Split s t) : t.treeSlots = s.treeSlots := by
  obtain rfl | ⟨p, child, n, hcut, ht⟩ := h
  · rfl
  · rw [(Split.sameStored hcut ht).treeSlots, hcut.treeSlots]

theorem treeSlots_addNewNode (h : WellFormed s) {k : Key} (ht : s.addNewNode p k w = some t) :
    t.treeSlots = s.treeSlots + w := by
  obtain ⟨hp, rfl⟩ := of_addNewNode ht
  have hp' := (h.fresh p hp).ne
  have hfresh : s.counter ∉ s.nodeArena := fun hm => (h.fresh _ hm).ne rfl
  refine (SameStored.addNewNode s p k w).treeSlots.trans ?_
  change ∑ i ∈ insert s.counter s.nodeArena, _ = _
  rw [Finset.sum_insert hfresh, deviceValue_sprout hp', if_pos rfl, add_comm]
  refine congrArg (· + (w : Multiset Nat)) (Finset.sum_congr rfl fun i hi => ?_)
  rw [deviceValue_sprout hp', if_neg (h.fresh i hi).ne]

end

end QwenStack.TreeCore
