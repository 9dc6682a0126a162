import Mathlib.Data.List.Induction
import QwenStack.BucketPolicy.Partition

/-!
# Bucket policy — registering workers

`init_prefill_worker_urls` draws even ranges from `l_max`, and sets `l_max` to `usize::MAX`.  So the width
of the ranges depends on whether workers were registered before: 4096 is shared the first time, and the
whole axis every later time (`repeatable_iff`).
-/

namespace QwenStack.BucketPolicy

open List

/-- Even ranges of a longest request, one for each worker. -/
def evenBoundary (lMax : Nat) (urls : List Url) : List Boundary :=
  urls.zipIdx.map fun e => ⟨e.1, evenRange (lMax / urls.length) urls.length e.2⟩

section
variable {b : Bucket} {urls : List Url} {url : Url}

@[simp] theorem init_urls : (b.initPrefillWorkerUrls urls).prefillWorkerUrls = urls := by
  unfold Bucket.initPrefillWorkerUrls
  simp only
  split <;> rfl

@[simp] theorem init_lMax :
    (b.initPrefillWorkerUrls urls).lMax = if urls = [] then b.lMax else usizeMax := by
  unfold Bucket.initPrefillWorkerUrls
  simp only [length_eq_zero_iff]
  split <;> rfl

@[simp] theorem init_boundary :
    (b.initPrefillWorkerUrls urls).boundary = evenBoundary b.lMax urls := by
  unfold Bucket.initPrefillWorkerUrls
  simp only [length_eq_zero_iff]
  split
  · next h => rw [h]; rfl
  · rfl

/-- A bucket is initialised again from its `l_max` alone. -/
theorem init_init : ((b.initPrefillWorkerUrls urls).initPrefillWorkerUrls urls =
    b.initPrefillWorkerUrls urls) ↔
      evenBoundary (if urls = [] then b.lMax else usizeMax) urls = evenBoundary b.lMax urls := by
  constructor
  · intro h
    simpa using congrArg Bucket.boundary h
  · intro h
    by_cases hurls : urls = []
    · subst hurls
      rfl
    · rw [if_neg hurls] at h
      simp only [Bucket.initPrefillWorkerUrls, length_eq_zero_iff, if_neg hurls]
      rw [Bucket.mk.injEq]
      exact ⟨rfl, rfl, rfl, rfl, rfl, rfl, h, rfl, rfl, rfl⟩

/-! ### Even ranges of different widths -/

/-- One worker has the whole axis. -/
theorem evenBoundary_short (h : urls.length ≤ 1) (m n : Nat) : evenBoundary m urls = evenBoundary n urls := by
  cases urls with
  | nil => rfl
  | cons url urls =>
    obtain rfl : urls = [] := eq_nil_of_length_eq_zero (by simpa using h)
    simp [evenBoundary, evenRange, mul]

/-- The second range starts after a gap, so that ranges are the same only if the gaps are. -/
theorem evenBoundary_eq_iff {m n : Nat} (hlong : 2 ≤ urls.length) (hm : m ≤ usizeMax) (hn : n ≤ usizeMax) :
    evenBoundary m urls = evenBoundary n urls ↔ m / urls.length = n / urls.length := by
  constructor
  · intro h
    have hsecond : ∀ k ≤ usizeMax, (evenBoundary k urls)[1]?.map (fun e => e.range.1) = some (k / urls.length) := by
      intro k hk
      have hone : urls[1]? = some urls[1] := List.getElem?_eq_getElem hlong
      have hgap : 1 * (k / urls.length) ≤ usizeMax := by
        rw [Nat.one_mul]
        exact (Nat.div_le_self k _).trans hk
      simp only [evenBoundary, List.getElem?_map, List.getElem?_zipIdx, hone, Option.map_some, Nat.zero_add,
        evenRange, mul_of_le hgap, Nat.one_mul]
    exact Option.some.inj ((hsecond m hm).symm.trans (h ▸ hsecond n hn))
  · intro h
    rw [evenBoundary, h]
    rfl

/-- For a few workers, 4096 and the whole axis give different ranges. -/
theorem evenBoundary_fresh_iff (hfew : urls.length ≤ 4096) :
    evenBoundary usizeMax urls = evenBoundary 4096 urls ↔ urls.length ≤ 1 := by
  refine ⟨fun h => ?_, fun h => evenBoundary_short h _ _⟩
  by_contra hlong
  have hlong : 2 ≤ urls.length := by omega
  rw [evenBoundary_eq_iff hlong le_rfl (by decide)] at h
  have hshort : 4096 / urls.length ≤ 4096 / 2 := Nat.div_le_div_left hlong (by decide)
  have hwide : usizeMax / 4096 ≤ usizeMax / urls.length := Nat.div_le_div_left hfew (by omega)
  have hmax : 4096 / 2 < usizeMax / 4096 := by decide
  omega

end

/-! ### The longest request -/

/-- `l_max` is as it was made, or as an initialisation left it. -/
def Drawn (b : Bucket) : Prop := b.lMax = 4096 ∨ b.lMax = usizeMax

section
variable {b : Bucket}

theorem Drawn.init (h : Drawn b) (urls : List Url) : Drawn (b.initPrefillWorkerUrls urls) := by
  rw [Drawn, init_lMax]
  split
  · exact h
  · exact .inr rfl

theorem Drawn.call (h : Drawn b) (c : Call) : Drawn (b.call c) := by
  cases c with
  | init urls => exact h.init urls
  | add url => exact Drawn.init (b := { b with prefillWorkerUrls := _, charsPerUrl := _ }) h _
  | remove url =>
    simp only [Bucket.call, Bucket.removePrefillUrl]
    split
    · exact Drawn.init (b := { b with prefillWorkerUrls := _, charsPerUrl := _, bucketCnt := _ }) h _
    · exact h
  | post now id charCnt url =>
    have hmax : (b.postProcessRequest now id charCnt url).lMax = b.lMax := (expire_keeps _ now _ 0).2.2
    rw [Drawn, Bucket.call, hmax]
    exact h
  | adjust =>
    simp only [Bucket.call, Bucket.adjustBoundary]
    split
    · exact h
    · split
      · exact h
      · split <;> exact h

theorem drawn_run (period : Nat) (calls : List Call) : Drawn (run period calls) :=
  List.foldlRecOn calls Bucket.call (.inl rfl) fun _ h c _ => h.call c

/-- Ranges of the whole axis are those of `l_max` if there are few workers, or if `l_max` is the whole
axis. -/
theorem Drawn.evenBoundary_iff (h : Drawn b) {urls : List Url} (hfew : urls.length ≤ 4096) :
    evenBoundary usizeMax urls = evenBoundary b.lMax urls ↔ urls.length ≤ 1 ∨ b.lMax = usizeMax := by
  rcases h with h | h
  · rw [h, evenBoundary_fresh_iff hfew, or_iff_left (by decide)]
  · rw [h]
    exact iff_of_true rfl (.inr rfl)

/-! ### Workers that come and go -/

/-- Workers that are not registered yet, one after the other. -/
theorem added (hnone : b.prefillWorkerUrls = []) (urls : List Url) (hnodup : urls.Nodup) :
    (urls.foldl Bucket.addPrefillUrl b).prefillWorkerUrls = urls ∧
      (urls.foldl Bucket.addPrefillUrl b).lMax = (if urls = [] then b.lMax else usizeMax) ∧
      (urls ≠ [] → (urls.foldl Bucket.addPrefillUrl b).boundary =
        evenBoundary (if urls.length ≤ 1 then b.lMax else usizeMax) urls) := by
  induction urls using List.reverseRecOn with
  | nil => exact ⟨hnone, rfl, fun h => absurd rfl h⟩
  | append_singleton urls url ih =>
    obtain ⟨hurls, hmax, -⟩ := ih (List.nodup_append.mp hnodup).1
    have hnew : url ∉ urls := fun hmem =>
      (List.nodup_append.mp hnodup).2.2 url hmem url mem_cons_self rfl
    rw [foldl_append, foldl_cons, foldl_nil]
    simp only [Bucket.addPrefillUrl, hurls, if_neg hnew, init_urls, init_lMax, init_boundary, hmax]
    refine ⟨trivial, by simp, fun _ => ?_⟩
    congr 1
    simp [length_eq_zero_iff]

/-- A worker that is removed and comes back last. -/
theorem moved (urls : List Url) {url : Url} (hurl : url ∈ urls) :
    (((b.initPrefillWorkerUrls urls).removePrefillUrl url).addPrefillUrl url).boundary =
      evenBoundary usizeMax (urls.filter (fun u => decide (u ≠ url)) ++ [url]) := by
  have hne : urls ≠ [] := ne_nil_of_mem hurl
  have hgone : url ∉ urls.filter fun u => decide (u ≠ url) := by simp
  have hremoved : ((b.initPrefillWorkerUrls urls).removePrefillUrl url).prefillWorkerUrls =
      urls.filter (fun u => decide (u ≠ url)) ∧
        ((b.initPrefillWorkerUrls urls).removePrefillUrl url).lMax = usizeMax := by
    simp only [Bucket.removePrefillUrl, init_urls]
    split
    · simp [hne]
    · exact ⟨rfl, by simp [hne]⟩
  simp only [Bucket.addPrefillUrl, hremoved.1, if_neg hgone, init_boundary, hremoved.2]

/-- The ranges of a registration are those of one initialisation. -/
structure Repeatable (b : Bucket) (urls : List Url) : Prop where
  one_by_one : (urls.foldl Bucket.addPrefillUrl b).boundary = (b.initPrefillWorkerUrls urls).boundary
  twice : (b.initPrefillWorkerUrls urls).initPrefillWorkerUrls urls = b.initPrefillWorkerUrls urls
  added_back : ∀ url ∈ urls,
    (((b.initPrefillWorkerUrls urls).removePrefillUrl url).addPrefillUrl url).boundary =
      (b.initPrefillWorkerUrls (urls.filter (fun u => decide (u ≠ url)) ++ [url])).boundary

section
variable (h : Drawn b) {urls : List Url} (hfew : urls.length ≤ 4096)
include h hfew

theorem Drawn.one_by_one_iff (hnone : b.prefillWorkerUrls = []) (hnodup : urls.Nodup) :
    (urls.foldl Bucket.addPrefillUrl b).boundary = (b.initPrefillWorkerUrls urls).boundary ↔
      (urls.length ≤ 1 ∨ b.lMax = usizeMax) ∧ (urls = [] → b.boundary = []) := by
  rw [init_boundary]
  by_cases hurls : urls = []
  · subst hurls
    simp [evenBoundary]
  · rw [(added hnone urls hnodup).2.2 hurls, and_iff_left fun hnil => absurd hnil hurls]
    split
    · next hshort => exact iff_of_true rfl (.inl hshort)
    · exact h.evenBoundary_iff hfew

theorem Drawn.twice_iff :
    (b.initPrefillWorkerUrls urls).initPrefillWorkerUrls urls = b.initPrefillWorkerUrls urls ↔
      urls.length ≤ 1 ∨ b.lMax = usizeMax := by
  rw [init_init]
  by_cases hurls : urls = []
  · exact iff_of_true (by rw [if_pos hurls]) (.inl (by simp [hurls]))
  · rw [if_neg hurls]
    exact h.evenBoundary_iff hfew

theorem Drawn.added_back_iff (hnodup : urls.Nodup) {url : Url} (hurl : url ∈ urls) :
    (((b.initPrefillWorkerUrls urls).removePrefillUrl url).addPrefillUrl url).boundary =
        (b.initPrefillWorkerUrls (urls.filter (fun u => decide (u ≠ url)) ++ [url])).boundary ↔
      urls.length ≤ 1 ∨ b.lMax = usizeMax := by
  have hlen : (urls.filter (fun u => decide (u ≠ url)) ++ [url]).length = urls.length := by
    have herase : urls.filter (fun u => decide (u ≠ url)) = urls.erase url := by
      rw [hnodup.erase_eq_filter]
      exact filter_congr fun u _ => Bool.eq_iff_iff.mpr (by simp)
    rw [herase, length_append, length_erase_of_mem hurl]
    exact Nat.sub_add_cancel (length_pos_of_mem hurl)
  rw [moved urls hurl, init_boundary, h.evenBoundary_iff (hlen.trans_le hfew), hlen]

end

end

/-- **When registration does not depend on history.**  On a bucket without workers, exactly if there is at
most one worker or the bucket has been initialised with workers before, and no ranges are left over where
there is no worker. -/
theorem repeatable_iff (period : Nat) (calls : List Call) (urls : List Url) (hnodup : urls.Nodup)
    (hfew : urls.length ≤ 4096) (hnone : (run period calls).prefillWorkerUrls = []) :
    Repeatable (run period calls) urls ↔
      (urls.length ≤ 1 ∨ (run period calls).lMax = usizeMax) ∧
        (urls = [] → (run period calls).boundary = []) := by
  have h := drawn_run period calls
  constructor
  · intro hsame
    exact (h.one_by_one_iff hfew hnone hnodup).mp hsame.one_by_one
  · intro hc
    exact ⟨(h.one_by_one_iff hfew hnone hnodup).mpr hc, (h.twice_iff hfew).mpr hc.1,
      fun url hurl => (h.added_back_iff hfew hnodup hurl).mpr hc.1⟩

/-- Two workers that are registered one after the other. -/
theorem one_by_one_changes_ranges : ¬ Repeatable (run 1000 []) [['a'], ['b']] := by
  intro h
  exact absurd h.one_by_one (by decide)

/-- Three workers, after two others have come and gone. -/
theorem three_workers_repeatable : Repeatable
    (run 1000 [.init [['d'], ['e']], .remove ['d'], .remove ['e']]) [['a'], ['b'], ['c']] :=
  (repeatable_iff 1000 _ _ (by decide) (by decide) (by decide)).mpr ⟨.inr (by decide), fun h => by cases h⟩

end QwenStack.BucketPolicy
