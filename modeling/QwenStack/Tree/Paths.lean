import QwenStack.Tree.Shape

/-!
# Tree — paths, and what a match finds

`Path tr x n w`: links lead from `x` to `n`, and the texts on the way spell `w`.  In a heap of the
right shape the ghost path of a linked node is the text spelled from the root to it
(`Shape.path_of_carries`).

`Spelled tr admits x` is the set of texts that lie along a path from `x` to an admitted node, those
that end inside a node's text included.  The descent `matchLoop` finds the longest prefix of its
input in it (`matchLoop_spec`): children differ in their first character, so a text that goes
further than the descent has nowhere else to go.
-/

namespace QwenStack.Tree
open Assoc List

/-- The links lead from `x` to `n`, spelling `w`. -/
inductive Path (tr : Tree) : NodeId → NodeId → Str → Prop where
  | refl (x : NodeId) : Path tr x x []
  | step {x m n : NodeId} {xnode mnode : Node} {c : Char} {w : Str}
      (hx : tr.nodes[x]? = some xnode) (hc : xnode.children.lookup c = some m)
      (hm : tr.nodes[m]? = some mnode) (t : Path tr m n w) : Path tr x n (mnode.text.text ++ w)

section
variable {tr : Tree} {path : NodeId → Str} {x p n : NodeId} {pnode nd : Node} {c : Char} {w : Str}

theorem Path.snoc (h : Path tr x p w) (hp : tr.nodes[p]? = some pnode)
    (hc : pnode.children.lookup c = some n) (hn : tr.nodes[n]? = some nd) :
    Path tr x n (w ++ nd.text.text) := by
  induction h with
  | refl x =>
    have := Path.step hp hc hn (.refl n)
    rwa [append_nil] at this
  | step hx hc' hm _ ih =>
    rw [append_assoc]
    exact .step hx hc' hm (ih hp)

/-- The last link of a path that is not empty. -/
theorem Path.last (h : Path tr x n w) :
    (n = x ∧ w = []) ∨ ∃ p pnode c nd w', Path tr x p w' ∧ tr.nodes[p]? = some pnode ∧
      pnode.children.lookup c = some n ∧ tr.nodes[n]? = some nd ∧ w = w' ++ nd.text.text := by
  induction h with
  | refl x => exact .inl ⟨rfl, rfl⟩
  | @step x m n xnode mnode c w hx hc hm t ih =>
    right
    rcases ih with ⟨rfl, rfl⟩ | ⟨p, pnode, c', nd, w', hp, hpn, hc', hn, rfl⟩
    · exact ⟨x, xnode, c, mnode, [], .refl x, hx, hc, hm, by simp⟩
    · exact ⟨p, pnode, c', nd, _, .step hx hc hm hp, hpn, hc', hn, (append_assoc _ _ _).symm⟩

theorem Shape.path_eq (hS : Shape tr path) (h : Path tr x n w) : path n = path x ++ w := by
  induction h with
  | refl x => simp
  | step hx hc hm _ ih =>
    obtain ⟨mnode', hm', -, hpath⟩ := hS.child hx hc
    cases hm'.symm.trans hm
    rw [ih, hpath, append_assoc]

/-- A set closed under links holds what is reached from it. -/
theorem Path.mem_of_closed {S : NodeId → Prop} (h : Path tr x n w)
    (hS : ∀ {p pnode c m}, S p → tr.nodes[p]? = some pnode →
      pnode.children.lookup c = some m → S m) (hx : S x) : S n := by
  induction h with
  | refl x => exact hx
  | step hx' hc _ _ ih => exact ih (hS hx hx' hc)

/-- A node that is reached is allocated. -/
theorem Path.read (h : Path tr x n w) {xnode : Node} (hx : tr.nodes[x]? = some xnode) :
    ∃ nd, tr.nodes[n]? = some nd := by
  rcases h.last with ⟨rfl, -⟩ | ⟨-, -, -, nd, -, -, -, -, hn, -⟩
  · exact ⟨xnode, hx⟩
  · exact ⟨nd, hn⟩

/-- A node that carries a tenant is reached from the root, by its path. -/
theorem Shape.path_of_carries (hS : Shape tr path) {t : TenantId} :
    ∀ {n : NodeId} {nd : Node}, tr.nodes[n]? = some nd → nd.carries t = true →
      Path tr root n (path n) := by
  suffices ∀ (k : Nat) (n : NodeId) (nd : Node), (path n).length = k → tr.nodes[n]? = some nd →
      nd.carries t = true → Path tr root n (path n) from fun {n nd} hn ht => this _ n nd rfl hn ht
  intro k
  induction k using Nat.strong_induction_on with
  | _ k ih =>
    intro n nd hk hn ht
    by_cases h0 : n = root
    · subst h0
      rw [hS.path_root]
      exact .refl _
    · obtain ⟨p, pnode, c, hp, hc, -, hpt, hpath⟩ := hS.up hn h0 ht
      rw [hpath]
      exact (ih _ (hk ▸ hS.path_lt hp hc) p pnode rfl hp hpt).snoc hp hc hn

/-- Ownership goes up along a path. -/
theorem Shape.carries_up (hS : Shape tr path) {t : TenantId} (h : Path tr x n w) {xnode : Node}
    (hx : tr.nodes[x]? = some xnode) (hn : tr.nodes[n]? = some nd) (ht : nd.carries t = true) :
    xnode.carries t = true := by
  induction h generalizing xnode with
  | refl x =>
    cases hx.symm.trans hn
    exact ht
  | step hx' hc hm _ ih =>
    cases hx.symm.trans hx'
    obtain ⟨mnode', hm', hl, -⟩ := hS.child hx hc
    cases hm'.symm.trans hm
    exact hl.tenants_sub t (ih hm hn)

/-! ### What a match finds -/

/-- The texts along a path from `x` to an admitted node. -/
def Spelled (tr : Tree) (admits : Node → Bool) (x : NodeId) : Set Str :=
  {s | ∃ n nd w, Path tr x n w ∧ tr.nodes[n]? = some nd ∧ admits nd = true ∧ s <+: w}

/-- A node above an admitted one is admitted. -/
def UpClosed (tr : Tree) (admits : Node → Bool) : Prop :=
  ∀ {p : NodeId} {pnode : Node} {c : Char} {n : NodeId} {nd : Node}, tr.nodes[p]? = some pnode →
    pnode.children.lookup c = some n → tr.nodes[n]? = some nd → admits nd = true →
    admits pnode = true

theorem UpClosed.along {admits : Node → Bool} (hup : UpClosed tr admits) (h : Path tr x n w)
    {xnode : Node} (hx : tr.nodes[x]? = some xnode) (hn : tr.nodes[n]? = some nd)
    (ha : admits nd = true) : admits xnode = true := by
  induction h generalizing xnode with
  | refl x =>
    cases hx.symm.trans hn
    exact ha
  | step hx' hc hm _ ih =>
    cases hx.symm.trans hx'
    exact hup hx hc hm (ih hm hn)

/-- A non-empty text spelled from `x` goes through the child under its first character. -/
theorem Shape.spelled_cons (hS : Shape tr path) {admits : Node → Bool} (hup : UpClosed tr admits)
    {xnode : Node} (hx : tr.nodes[x]? = some xnode) {s : Str}
    (hs : c :: s ∈ Spelled tr admits x) :
    ∃ m mnode w, xnode.children.lookup c = some m ∧ tr.nodes[m]? = some mnode ∧
      admits mnode = true ∧ w ∈ Spelled tr admits m ∧ c :: s <+: mnode.text.text ++ w := by
  obtain ⟨n, nd, w, hpath, hn, ha, hpre⟩ := hs
  cases hpath with
  | refl => simp at hpre
  | @step _ m _ xnode' mnode c' w' hx' hc hm t =>
    cases hx.symm.trans hx'
    obtain ⟨mnode', hm', hl, -⟩ := hS.child hx hc
    obtain rfl := Option.some.inj (hm'.symm.trans hm)
    have hcc : c' = c := by
      obtain ⟨d, l, hd⟩ := exists_cons_of_ne_nil hl.text_ne
      have hfirst := hl.first
      rw [hd] at hfirst hpre
      rw [cons_append, cons_prefix_cons] at hpre
      rw [hpre.1]
      exact (Option.some.inj hfirst).symm
    subst hcc
    exact ⟨m, mnode', w', hc, hm, hup.along t hm hn ha, ⟨n, nd, w', t, hn, ha, prefix_refl _⟩, hpre⟩

/-- The text of an admitted child, and what is spelled below it. -/
theorem spelled_step {admits : Node → Bool} {m : NodeId} {xnode mnode : Node}
    (hx : tr.nodes[x]? = some xnode) (hc : xnode.children.lookup c = some m)
    (hm : tr.nodes[m]? = some mnode) {s : Str} (hs : s ∈ Spelled tr admits m) :
    mnode.text.text ++ s ∈ Spelled tr admits x := by
  obtain ⟨n, nd, w, hpath, hn, ha, hpre⟩ := hs
  exact ⟨n, nd, _, .step hx hc hm hpath, hn, ha, (prefix_append_right_inj _).mpr hpre⟩

theorem spelled_nil {admits : Node → Bool} (hn : tr.nodes[n]? = some nd) (ha : admits nd = true) :
    [] ∈ Spelled tr admits n :=
  ⟨n, nd, [], .refl n, hn, ha, prefix_refl _⟩

theorem spelled_of_isPrefix {admits : Node → Bool} {s s' : Str} (h : s ∈ Spelled tr admits x)
    (hp : s' <+: s) : s' ∈ Spelled tr admits x := by
  obtain ⟨n, nd, w, hpath, hn, ha, hpre⟩ := h
  exact ⟨n, nd, w, hpath, hn, ha, hp.trans hpre⟩

/-- What the descent reports, started at `x` with `remaining` left and `k` characters matched:
it stops at `curr` after `j` more characters, and `j` is the length of the longest prefix of
`remaining` spelled from `x`. -/
structure Descended (tr : Tree) (admits : Node → Bool) (x : NodeId) (remaining : Str)
    (curr : NodeId) (j : Nat) : Prop where
  le : j ≤ remaining.length
  max : ∀ {s}, s ∈ Spelled tr admits x → s <+: remaining → s.length ≤ j
  spelled : j = 0 ∨ remaining.take j ∈ Spelled tr admits x
  at_curr : curr = x ∨ ∃ cnode, tr.nodes[curr]? = some cnode ∧ admits cnode = true ∧
    cnode.tenantLastAccessTime ≠ []

section
variable {admits : Node → Bool} {xnode mnode : Node} {m curr : NodeId} {rest : Str} {i j : Nat}

/-- The descent stops where nothing goes on under the next character. -/
theorem Descended.stop (hno : ∀ s, c :: s ∉ Spelled tr admits x) :
    Descended tr admits x (c :: rest) x 0 := by
  refine ⟨Nat.zero_le _, fun {s} hs hpre => ?_, .inl rfl, .inl rfl⟩
  cases s with
  | nil => simp
  | cons d s =>
    obtain rfl := (List.cons_prefix_cons.mp hpre).1
    exact absurd hs (hno s)

variable (hS : Shape tr path) (hup : UpClosed tr admits) (hx : tr.nodes[x]? = some xnode) (hc : xnode.children.lookup c = some m) (hm : tr.nodes[m]? = some mnode)
include hS hup hx hc hm

/-- A text spelled from `x` that starts with the text of the child `m`. -/
theorem Shape.spelled_below {s : Str} (hs : mnode.text.text ++ s ∈ Spelled tr admits x) :
    s ∈ Spelled tr admits m := by
  obtain ⟨mnode', hm', hl, -⟩ := hS.child hx hc
  cases hm'.symm.trans hm
  obtain ⟨d, l, hd⟩ := exists_cons_of_ne_nil hl.text_ne
  obtain rfl : d = c := by
    have := hl.first
    rw [hd] at this
    exact Option.some.inj this
  have hs' : d :: (l ++ s) ∈ Spelled tr admits x := by rwa [hd] at hs
  obtain ⟨m', mnode'', w, hc', hm'', -, hw, hpre⟩ := hS.spelled_cons hup hx hs'
  cases hc.symm.trans hc'
  cases hm.symm.trans hm''
  rw [← cons_append, ← hd, prefix_append_right_inj] at hpre
  exact spelled_of_isPrefix hw hpre

/-- The whole text of an admitted child is matched, and the descent goes on below it. -/
theorem Descended.full (ha : admits mnode = true) {remaining : Str}
    (hj : j = mnode.text.text.length) (htake : remaining.take j = mnode.text.text)
    (hd : Descended tr admits m (remaining.drop j) curr i) :
    Descended tr admits x remaining curr (j + i) := by
  obtain ⟨mnode', hm', hl, -⟩ := hS.child hx hc
  obtain rfl := Option.some.inj (hm'.symm.trans hm)
  have hsplit : remaining = mnode'.text.text ++ remaining.drop j := by
    rw [← htake, take_append_drop]
  have hjle : j ≤ remaining.length := by
    have := congrArg List.length htake
    rw [length_take] at this
    omega
  refine ⟨?_, fun {s} hs hpre => ?_, ?_, ?_⟩
  · have := hd.le
    rw [length_drop] at this
    omega
  · by_cases hsj : s.length ≤ j
    · omega
    · obtain ⟨s', rfl⟩ : mnode'.text.text <+: s := by
        rw [← htake]
        exact prefix_of_prefix_length_le (List.take_prefix _ _) hpre (by rw [length_take]; omega)
      have hs' := hS.spelled_below hup hx hc hm hs
      rw [hsplit, prefix_append_right_inj] at hpre
      have := hd.max hs' hpre
      rw [length_append]
      omega
  · right
    rw [hsplit, take_append, ← hj, Nat.add_sub_cancel_left, take_of_length_le (by omega)]
    refine spelled_step hx hc hm ?_
    rcases hd.spelled with rfl | h
    · exact spelled_nil hm ha
    · exact h
  · right
    rcases hd.at_curr with rfl | h
    · exact ⟨mnode', hm, ha, hl.tenants_ne⟩
    · exact h

/-- The text of an admitted child is matched in part. -/
theorem Descended.part (ha : admits mnode = true)
    (hj : lcpLen (c :: rest) mnode.text.text < mnode.text.text.length) :
    Descended tr admits x (c :: rest) m (lcpLen (c :: rest) mnode.text.text) := by
  obtain ⟨mnode', hm', hl, -⟩ := hS.child hx hc
  obtain rfl := Option.some.inj (hm'.symm.trans hm)
  refine ⟨lcpLen_le_left _ _, fun {s} hs hpre => ?_, .inr ?_, .inr ⟨mnode', hm, ha, hl.tenants_ne⟩⟩
  · cases s with
    | nil => simp
    | cons d s =>
      obtain rfl := (List.cons_prefix_cons.mp hpre).1
      obtain ⟨m', mnode'', w, hc', hm'', -, -, hs'⟩ := hS.spelled_cons hup hx hs
      cases hc.symm.trans hc'
      cases hm.symm.trans hm''
      rcases prefix_or_prefix_of_prefix hs' (prefix_append _ _) with h | h
      · exact le_lcpLen_of_isPrefix hpre h
      · -- the child's whole text would be matched
        have := le_lcpLen_of_isPrefix (h.trans hpre) (prefix_refl _)
        omega
  · rw [take_lcpLen]
    have := spelled_step hx hc hm (spelled_nil hm ha)
    rw [append_nil] at this
    exact spelled_of_isPrefix this (List.take_prefix _ _)

end

/-- **A match finds the longest spelled prefix.** -/
theorem matchLoop_spec (hS : Shape tr path) {admits : Node → Bool} (hup : UpClosed tr admits) :
    ∀ (fuel : Nat) (x : NodeId) (xnode : Node) (remaining : Str) (k : Nat),
      tr.nodes[x]? = some xnode → remaining.length ≤ fuel →
      ∃ curr j, tr.matchLoop admits fuel x remaining k = some (curr, k + j) ∧
        Descended tr admits x remaining curr j := by
  have done : ∀ x, Descended tr admits x [] x 0 := fun x =>
    ⟨le_refl _, fun _ hpre => hpre.length_le, .inl rfl, .inl rfl⟩
  intro fuel
  induction fuel with
  | zero =>
    intro x xnode remaining k _ hf
    obtain rfl : remaining = [] := List.length_eq_zero_iff.mp (by omega)
    exact ⟨x, 0, rfl, done x⟩
  | succ fuel ih =>
    intro x xnode remaining k hx hf
    cases remaining with
    | nil => exact ⟨x, 0, rfl, done x⟩
    | cons c rest =>
      -- the loop ends here unless the child under `c` is there, admitted and matched in full
      simp only [matchLoop, hx, Option.bind_eq_bind, Option.bind_some]
      cases hc : xnode.children.lookup c with
      | none =>
        refine ⟨x, 0, rfl, .stop fun s hs => ?_⟩
        obtain ⟨m, -, -, hc', -⟩ := hS.spelled_cons hup hx hs
        rw [hc] at hc'
        cases hc'
      | some m =>
        obtain ⟨mnode, hm, hl, -⟩ := hS.child hx hc
        have hjpos : 0 < lcpLen (c :: rest) mnode.text.text := lcpLen_pos rfl hl.first
        simp only [hm, Option.bind_some, sharedPrefixCount_eq]
        by_cases ha : admits mnode = true
        · rw [if_pos ha]
          by_cases hfull : lcpLen (c :: rest) mnode.text.text = mnode.text.charCount
          · have hlen := hfull.trans hl.counted
            have htake : (c :: rest).take (lcpLen (c :: rest) mnode.text.text) =
                mnode.text.text := by rw [take_lcpLen, hlen, take_length]
            rw [if_pos hfull, advanceByChars_eq]
            simp only [Option.bind_some]
            have hf' : ((c :: rest).drop (lcpLen (c :: rest) mnode.text.text)).length ≤
                fuel := by
              rw [length_drop]
              omega
            obtain ⟨curr, i, hrun, hd⟩ := ih m mnode _ (k + lcpLen (c :: rest) mnode.text.text) hm hf'
            exact ⟨curr, _, by rw [hrun, Nat.add_assoc], .full hS hup hx hc hm ha hlen htake hd⟩
          · have hlt : lcpLen (c :: rest) mnode.text.text < mnode.text.text.length := by
              have := lcpLen_le_right (c :: rest) mnode.text.text
              have := hl.counted
              rw [NodeText.Counted] at this
              omega
            rw [if_neg hfull]
            exact ⟨m, _, rfl, .part hS hup hx hc hm ha hlt⟩
        · rw [if_neg ha]
          refine ⟨x, 0, rfl, .stop fun s hs => ?_⟩
          obtain ⟨m', mnode', -, hc', hm', ha', -⟩ := hS.spelled_cons hup hx hs
          cases hc.symm.trans hc'
          cases hm.symm.trans hm'
          exact ha ha'

end

end QwenStack.Tree
