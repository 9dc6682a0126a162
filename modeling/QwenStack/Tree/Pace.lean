import QwenStack.Tree.Invariant
import QwenStack.Tree.Retime

/-!
# Tree — two trees in step

Two trees are given the same calls at different epochs.  They stay the same up to timestamps (`Alike`), and
as long as each is stamped when the other is, the timestamps of the one are in the order of those of the
other (`Paced`), which is what the eviction goes by.  Only a match can stamp the one and not the other: it
refreshes what it finds if the epoch is a multiple of eight.
-/

namespace QwenStack.Tree
open Assoc List

/-- The same up to timestamps. -/
def Alike (tr tr' : Tree) : Prop := tr.forget = tr'.forget

/-- The timestamps are from before two epochs, and in the same order. -/
def Paced (epoch epoch' : Epoch) (tr tr' : Tree) : Prop :=
  ∃ g : Epoch → Epoch, g 0 = 0 ∧ tr' = tr.retime g ∧
    (∀ x ∈ tr.times, x < epoch ∧ g x < epoch') ∧ KeepsOrder g (0 :: tr.times)

section
variable {g : Epoch → Epoch} {tr tr' t t' : Tree} {epoch epoch' : Epoch}

theorem forget_retime (g : Epoch → Epoch) (tr : Tree) : (tr.retime g).forget = tr.forget := by
  have hnodes : (tr.nodes.map (Node.retime g)).map (Node.retime fun _ => 0) =
      tr.nodes.map (Node.retime fun _ => 0) := by
    rw [map_map]
    refine map_congr_left fun nd _ => ?_
    change ({ nd with tenantLastAccessTime := mapValues _ (mapValues g _) } : Node) = nd.retime _
    rw [mapValues, mapValues, map_map]
    rfl
  rw [forget, forget, retime, retime, retime, hnodes]

theorem Paced.alike (h : Paced epoch epoch' tr tr') : Alike tr tr' := by
  obtain ⟨g, -, rfl, -⟩ := h
  exact (forget_retime g tr).symm

theorem paced_new (epoch epoch' : Epoch) : Paced epoch epoch' new new := by
  have htimes : new.times = [] := rfl
  refine ⟨id, rfl, rfl, ?_, fun _ _ _ _ h => h⟩
  rw [htimes]
  exact fun x hx => absurd hx not_mem_nil

/-- Epochs pass. -/
theorem Paced.later {later later' : Epoch} (h : Paced epoch epoch' tr tr') (hle : epoch ≤ later)
    (hle' : epoch' ≤ later') : Paced later later' tr tr' := by
  obtain ⟨g, h0, htr, hlt, horder⟩ := h
  exact ⟨g, h0, htr, fun x hx => ⟨UInt64.lt_of_lt_of_le (hlt x hx).1 hle,
    UInt64.lt_of_lt_of_le (hlt x hx).2 hle'⟩, horder⟩

/-! ### Calls that draw no epoch -/

theorem Alike.removeTenant {ord : IterOrder} {tenant : TenantId} (h : Alike tr tr')
    (ht : tr.removeTenant ord tenant = some t) (ht' : tr'.removeTenant ord tenant = some t') :
    Alike t t' := by
  have hrun := removeTenant_retime ord (fun _ => 0) tenant tr
  have hrun' := removeTenant_retime ord (fun _ => 0) tenant tr'
  rw [ht, Option.map_some] at hrun
  rw [ht', Option.map_some] at hrun'
  change tr.forget.removeTenant ord tenant = some t.forget at hrun
  change tr'.forget.removeTenant ord tenant = some t'.forget at hrun'
  rw [← h, hrun] at hrun'
  exact Option.some.inj hrun'

/-- A call on paced trees, that brings no timestamps. -/
theorem Paced.of_retime {f : Tree → Option Tree} (h : Paced epoch epoch' tr tr') (ht : f tr = some t)
    (ht' : f tr' = some t') (htimes : t.times ⊆ tr.times)
    (hretime : ∀ g, KeepsOrder g tr.times → f (tr.retime g) = (f tr).map (retime g)) :
    Paced epoch epoch' t t' := by
  obtain ⟨g, h0, rfl, hlt, horder⟩ := h
  have hrun := hretime g (horder.of_subset (subset_cons_self _ _))
  rw [ht', ht, Option.map_some] at hrun
  refine ⟨g, h0, Option.some.inj hrun, fun x hx => hlt x (htimes hx), horder.of_subset ?_⟩
  exact cons_subset_cons 0 htimes

theorem Paced.removeTenant {ord : IterOrder} {tenant : TenantId} (h : Paced epoch epoch' tr tr')
    (ht : tr.removeTenant ord tenant = some t) (ht' : tr'.removeTenant ord tenant = some t') :
    Paced epoch epoch' t t' :=
  h.of_retime ht ht' (times_removeTenant ht) fun g _ => removeTenant_retime ord g tenant tr

/-- **The eviction** of trees that are paced. -/
theorem Paced.evictTenantBySize {ord : HashOrder} {maxSize : Nat} (h : Paced epoch epoch' tr tr')
    (ht : tr.evictTenantBySize ord.toIterOrder maxSize = some t)
    (ht' : tr'.evictTenantBySize ord.toIterOrder maxSize = some t') : Paced epoch epoch' t t' :=
  h.of_retime ht ht' (times_evictTenantBySize ht) fun _ hg => evictTenantBySize_retime ord maxSize hg

/-! ### Calls that draw an epoch -/

/-- Two counters do not wrap, and are past their start, which is also the timestamp of a node that no call
has ended at, or both there. -/
structure Ticks (epoch epoch' : Epoch) : Prop where
  start : epoch = 0 ↔ epoch' = 0
  left : epoch < epoch + 1
  right : epoch' < epoch' + 1

/-- At their start there are no timestamps. -/
theorem Paced.extend_start (h : Paced 0 0 tr tr') (hone : (0 : Epoch) < 0 + 1) :
    ∃ g : Epoch → Epoch, g 0 = 0 ∧ tr' = tr.retime g ∧
      ∀ {t : Tree}, t.times ⊆ 0 :: 0 :: tr.times → Paced (0 + 1) (0 + 1) t (t.retime g) := by
  obtain ⟨g, -, rfl, hlt, -⟩ := h
  have hnone (x : Epoch) : x ∉ tr.times := fun hx => UInt64.not_lt_zero (hlt x hx).1
  refine ⟨id, rfl, retime_congr fun x hx => absurd hx (hnone x), fun {t} ht => ?_⟩
  refine ⟨id, rfl, rfl, fun x hx => ?_, fun _ _ _ _ hxy => hxy⟩
  have hx0 : x = 0 := by
    obtain rfl | hx := List.mem_cons.mp (ht hx)
    · rfl
    · exact (List.mem_cons.mp hx).resolve_right (hnone x)
  subst hx0
  exact ⟨hone, hone⟩

/-- The next epochs are given to each other. -/
theorem Paced.extend (h : Paced epoch epoch' tr tr') (he : Ticks epoch epoch') :
    ∃ g : Epoch → Epoch, g 0 = 0 ∧ g epoch = epoch' ∧ tr' = tr.retime g ∧
      ∀ {t : Tree}, t.times ⊆ 0 :: epoch :: tr.times → Paced (epoch + 1) (epoch' + 1) t (t.retime g) := by
  by_cases hstart : epoch = 0
  · obtain rfl := he.start.mp hstart
    subst hstart
    obtain ⟨g, h0, htr, hpaced⟩ := h.extend_start he.left
    exact ⟨g, h0, h0, htr, hpaced⟩
  obtain ⟨g, h0, rfl, hlt, horder⟩ := h
  have hzero : (0 : Epoch) ≠ epoch := Ne.symm hstart
  have hpos : 0 < epoch := UInt64.pos_iff_ne_zero.mpr hstart
  have hpos' : 0 < epoch' := UInt64.pos_iff_ne_zero.mpr (mt he.start.mpr hstart)
  have hne (x : Epoch) (hx : x ∈ tr.times) : x ≠ epoch := UInt64.ne_of_lt (hlt x hx).1
  have hnew : Function.update g epoch epoch' epoch = epoch' := Function.update_self _ _ _
  have hold (x : Epoch) (hx : x ≠ epoch) : Function.update g epoch epoch' x = g x :=
    Function.update_of_ne hx _ _
  -- where the timestamps of before and zero are, below the epochs
  have hbefore (x : Epoch) (hx : x ∈ 0 :: tr.times) : x < epoch ∧ g x < epoch' := by
    obtain rfl | hx := List.mem_cons.mp hx
    · exact ⟨hpos, h0.symm ▸ hpos'⟩
    · exact hlt x hx
  have hcases (x : Epoch) (hx : x ∈ 0 :: epoch :: tr.times) : x = epoch ∨ x ∈ 0 :: tr.times := by
    obtain rfl | hx := List.mem_cons.mp hx
    · exact .inr mem_cons_self
    · exact (List.mem_cons.mp hx).imp_right (mem_cons_of_mem _)
  refine ⟨Function.update g epoch epoch', (hold 0 hzero).trans h0, hnew,
    retime_congr fun x hx => (hold x (hne x hx)).symm, fun {t} ht => ?_⟩
  refine ⟨Function.update g epoch epoch', (hold 0 hzero).trans h0, rfl, fun x hx => ?_, ?_⟩
  · obtain rfl | hx := hcases x (ht hx)
    · rw [hnew]
      exact ⟨he.left, he.right⟩
    · have hx' := hbefore x hx
      rw [hold x (UInt64.ne_of_lt hx'.1)]
      exact ⟨UInt64.lt_trans hx'.1 he.left, UInt64.lt_trans hx'.2 he.right⟩
  · have hsub : 0 :: t.times ⊆ 0 :: epoch :: tr.times := List.cons_subset.mpr ⟨mem_cons_self, ht⟩
    refine KeepsOrder.of_subset (fun x hx y hy hxy => ?_) hsub
    obtain hx | hx := hcases x hx
    · obtain hy | hy := hcases y hy
      · rw [hx, hy] at hxy
        exact absurd hxy (UInt64.lt_irrefl _)
      · rw [hx] at hxy
        exact absurd (UInt64.lt_trans hxy (hbefore y hy).1) (UInt64.lt_irrefl _)
    · rw [hold x (UInt64.ne_of_lt (hbefore x hx).1)]
      obtain hy | hy := hcases y hy
      · rw [hy, hnew]
        exact (hbefore x hx).2
      · rw [hold y (UInt64.ne_of_lt (hbefore y hy).1)]
        exact horder x hx y hy hxy

theorem insert_epoch {text : Str} {tenant : TenantId} {e : Epoch}
    (h : tr.insert text tenant epoch = some (t, e)) : e = epoch + 1 :=
  (insert_retime (g := id) rfl h).1

theorem Alike.insert {text : Str} {tenant : TenantId} {e e' : Epoch} (h : Alike tr tr')
    (ht : tr.insert text tenant epoch = some (t, e)) (ht' : tr'.insert text tenant epoch' = some (t', e')) :
    Alike t t' := by
  have hrun := (insert_retime (g := fun _ => 0) rfl ht).2
  have hrun' := (insert_retime (g := fun _ => 0) rfl ht').2
  change tr.forget.insert text tenant 0 = some (t.forget, 0 + 1) at hrun
  change tr'.forget.insert text tenant 0 = some (t'.forget, 0 + 1) at hrun'
  rw [← h, hrun] at hrun'
  exact (Prod.mk.inj (Option.some.inj hrun')).1

theorem Paced.insert {text : Str} {tenant : TenantId} {e e' : Epoch} (h : Paced epoch epoch' tr tr')
    (he : Ticks epoch epoch') (ht : tr.insert text tenant epoch = some (t, e))
    (ht' : tr'.insert text tenant epoch' = some (t', e')) : Paced (epoch + 1) (epoch' + 1) t t' := by
  obtain ⟨g, h0, hg, rfl, hpaced⟩ := h.extend he
  have hrun := (insert_retime h0 ht).2
  rw [hg, ht'] at hrun
  obtain ⟨rfl, -⟩ := Prod.mk.inj (Option.some.inj hrun)
  exact hpaced (times_insert ht)

/-! ### Matches -/

/-- The answers are the same, before any refresh. -/
theorem Alike.settle {ord : HashOrder} {text : Str} {n n' : NodeId} {r r' : PrefixMatchResult}
    (h : Alike tr tr') (ht : tr.settle ord.toIterOrder text = some (t, n, r))
    (ht' : tr'.settle ord.toIterOrder text = some (t', n', r')) : Alike t t' ∧ n = n' ∧ r = r' := by
  have hrun := settle_retime ord (fun _ => 0) text tr
  have hrun' := settle_retime ord (fun _ => 0) text tr'
  rw [ht, Option.map_some] at hrun
  rw [ht', Option.map_some] at hrun'
  change tr.forget.settle ord.toIterOrder text = some (t.forget, n, r) at hrun
  change tr'.forget.settle ord.toIterOrder text = some (t'.forget, n', r') at hrun'
  rw [← h, hrun] at hrun'
  obtain ⟨htree, hanswer⟩ := Prod.mk.inj (Option.some.inj hrun')
  exact ⟨htree, (Prod.mk.inj hanswer).1, (Prod.mk.inj hanswer).2⟩

/-- A refresh of a tenant that is there changes a timestamp. -/
theorem forget_stamp {n : NodeId} {tenant : TenantId} (h : tr.carriesAt tenant n = true) :
    (tr.modify n (Node.stamp tenant epoch)).forget = tr.forget := by
  have hnodes : (tr.nodes.modify n (Node.stamp tenant epoch)).map (Node.retime fun _ => 0) =
      tr.nodes.map (Node.retime fun _ => 0) := by
    refine List.ext_getElem? fun i => ?_
    rw [List.getElem?_map, List.getElem?_map, List.getElem?_modify]
    cases hi : tr.nodes[i]? with
    | none => rfl
    | some nd =>
      by_cases hn : n = i
      · subst hn
        rw [carriesAt, hi] at h
        have hput : mapValues (fun _ => (0 : Epoch)) (put tenant epoch nd.tenantLastAccessTime) =
            mapValues (fun _ => 0) nd.tenantLastAccessTime := mapValues_put_of_const _ (fun _ => rfl) h epoch
        simp only [if_true, Option.map_eq_map, Option.map_some]
        change some ({ nd with tenantLastAccessTime := mapValues _ (put tenant epoch _) } : Node) = _
        rw [hput]
        rfl
      · simp [hn]
  rw [forget, forget, retime, retime]
  exact congrArg (Tree.mk · tr.tenantCharCount) hnodes

/-- **A refresh of both, or of a tenant that is there.** -/
theorem Alike.refresh {n : NodeId} {tenant : TenantId} (h : Alike tr tr')
    (hboth : (Refreshes epoch ↔ Refreshes epoch') ∨ tr.carriesAt tenant n = true) :
    Alike (tr.refresh epoch n tenant) (tr'.refresh epoch' n tenant) := by
  have hcarries : tr'.carriesAt tenant n = tr.carriesAt tenant n := by
    have hl := carriesAt_retime (fun _ => 0) tr tenant n
    have hr := carriesAt_retime (fun _ => 0) tr' tenant n
    change tr.forget.carriesAt tenant n = _ at hl
    change tr'.forget.carriesAt tenant n = _ at hr
    rw [← hl, ← hr, h]
  obtain hboth | hthere := hboth
  · rw [Tree.refresh, Tree.refresh]
    by_cases he : Refreshes epoch
    · rw [if_pos he, if_pos (hboth.mp he)]
      have hstamp (e : Epoch) (tr : Tree) : (tr.modify n (Node.stamp tenant e)).forget =
          tr.forget.modify n (Node.stamp tenant 0) :=
        (modify_retime (Node.stamp tenant e) _ (stamp_retime (fun _ => 0) tenant e) tr n).symm
      rw [Alike, hstamp, hstamp, h]
    · rw [if_neg he, if_neg fun he' => he (hboth.mpr he')]
      exact h
  · have hself (e : Epoch) {tr : Tree} (hc : tr.carriesAt tenant n = true) :
        (tr.refresh e n tenant).forget = tr.forget := by
      rw [Tree.refresh]
      split
      · exact forget_stamp hc
      · rfl
    rw [Alike, hself epoch hthere, hself epoch' (hcarries.trans hthere)]
    exact h

/-- A match of paced trees that refreshes both, or none. -/
theorem Paced.prefixMatch {ord : HashOrder} {text : Str} {n n' : NodeId} {r r' : PrefixMatchResult}
    (h : Paced epoch epoch' tr tr') (he : Ticks epoch epoch')
    (hboth : Refreshes epoch ↔ Refreshes epoch')
    (ht : tr.settle ord.toIterOrder text = some (t, n, r))
    (ht' : tr'.settle ord.toIterOrder text = some (t', n', r')) :
    Paced (epoch + 1) (epoch' + 1) (t.refresh epoch n r.tenant) (t'.refresh epoch' n' r'.tenant) := by
  obtain ⟨-, rfl, rfl⟩ := h.alike.settle ht ht'
  obtain ⟨g, h0, hg, rfl, hpaced⟩ := h.extend he
  have hrun := settle_retime ord g text tr
  rw [ht', ht, Option.map_some] at hrun
  obtain ⟨rfl, -⟩ := Prod.mk.inj (Option.some.inj hrun)
  have htimes := times_settle ht
  have hrefresh : (t.retime g).refresh epoch' n r.tenant = (t.refresh epoch n r.tenant).retime g := by
    rw [Tree.refresh, Tree.refresh]
    by_cases he : Refreshes epoch
    · rw [if_pos he, if_pos (hboth.mp he), ← hg]
      exact modify_retime (Node.stamp r.tenant epoch) _ (stamp_retime g r.tenant epoch) t n
    · rw [if_neg he, if_neg fun he' => he (hboth.mpr he')]
  rw [hrefresh]
  refine hpaced fun x hx => ?_
  rw [Tree.refresh] at hx
  split at hx
  · obtain rfl | hx := List.mem_cons.mp (times_modify_stamp hx)
    · exact mem_cons_of_mem _ mem_cons_self
    · exact mem_cons_of_mem _ (mem_cons_of_mem _ (htimes hx))
  · exact mem_cons_of_mem _ (mem_cons_of_mem _ (htimes hx))

/-- The root has a tenant. -/
def rooted (tr : Tree) : Bool := (tr.nodes[root]?).any fun nd => !nd.tenantLastAccessTime.isEmpty

/-- What a match answers is at the node that it found, if the root has tenants. -/
theorem WellFormed.carriesAt_settle {ord : IterOrder} {text : Str} {n : NodeId} {r : PrefixMatchResult}
    (hw : WellFormed tr) (hroot : tr.rooted = true) (ht : tr.settle ord text = some (t, n, r)) :
    t.carriesAt r.tenant n = true := by
  obtain ⟨path, hS⟩ := hw
  obtain ⟨rnode, hr, -⟩ := hS.root_node
  have hup : UpClosed tr (fun _ => true) := fun _ _ _ _ => rfl
  obtain ⟨curr, j, hloop, hD⟩ := matchLoop_spec hS hup text.length root rnode text 0 hr (le_refl _)
  obtain ⟨nd, hnd, hne⟩ := hD.node hr
  simp only [Tree.settle, hloop, hnd, Option.bind_eq_bind, Option.bind_some] at ht
  obtain ⟨rfl, hanswer⟩ := Prod.mk.inj (Option.some.inj ht)
  obtain ⟨rfl, rfl⟩ := Prod.mk.inj hanswer
  have htenants : nd.tenantLastAccessTime ≠ [] := by
    by_cases hcurr : curr = root
    · subst hcurr
      rw [rooted, hnd, Option.any_some] at hroot
      intro hnil
      rw [hnil] at hroot
      cases hroot
    · exact (hne hcurr).2
  rw [carriesAt]
  change ((tr.nodes.modify curr _)[curr]?).any _ = true
  rw [List.getElem?_modify_eq, hnd]
  exact selectTenant_carries ord htenants

end

end QwenStack.Tree
