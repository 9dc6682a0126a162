import QwenStack.BucketPolicy.Definitions
import QwenStack.Support.Ranges
import QwenStack.Support.Runs

/-!
# Bucket policy — the workers share the axis of lengths

The ranges follow one another from 0 to `usize::MAX`, one for each worker, however they were drawn:
evenly (`tiles_even`) or by the sweep over the loads (`tiles_sweep`).  So every length has a worker
(`findBoundary_found`).  There is one exception: `remove_prefill_url` draws the ranges anew only if a
worker is left, so the last worker keeps its range after it is gone (`run_partitioned_iff`).
-/

namespace QwenStack.BucketPolicy
open Assoc Ranges List

/-- The ranges of the boundaries. -/
abbrev ranges (boundary : List Boundary) : List (Nat × Nat) := boundary.map Boundary.range

/-- The boundaries share the axis among the workers. -/
structure Partitioned (b : Bucket) : Prop where
  /-- One for each worker, in order. -/
  owners : b.boundary.map Boundary.url = b.prefillWorkerUrls
  nonempty : ∀ r ∈ ranges b.boundary, r.1 ≤ r.2
  start : ∀ r, (ranges b.boundary).head? = some r → r.1 = 0
  contiguous : (ranges b.boundary).IsChain fun r r' => r'.1 = r.2 + 1
  last : ∀ r, (ranges b.boundary).getLast? = some r → r.2 = usizeMax
  /-- Every length has a worker, if there is one. -/
  found : b.prefillWorkerUrls ≠ [] → ∀ charCount ≤ usizeMax,
    ∃ url ∈ b.prefillWorkerUrls, b.findBoundary charCount = some url
  none : b.prefillWorkerUrls = [] → ∀ charCount, b.findBoundary charCount = none

/-! ### Even ranges -/

theorem add_of_le {m n : Nat} (h : m + n ≤ usizeMax) : add m n = m + n :=
  Nat.mod_eq_of_lt (by rw [usizeMax] at h; omega)

theorem mul_of_le {m n : Nat} (h : m * n ≤ usizeMax) : mul m n = m * n :=
  Nat.mod_eq_of_lt (by rw [usizeMax] at h; omega)

theorem sub_one_of_pos {m : Nat} (hpos : 1 ≤ m) (h : m ≤ usizeMax) : sub m 1 = m - 1 := by
  rw [usizeMax] at h
  rw [sub]
  omega

/-- Ranges `gap` apart, from the `i`-th worker on. -/
theorem tiles_even {gap n : Nat} (hgap : 1 ≤ gap) (hmax : n * gap ≤ usizeMax) (url : Url)
    (urls : List Url) (i : Nat) (hn : i + urls.length + 1 = n) :
    Tiles usizeMax (i * gap) (((url :: urls).zipIdx i).map fun e => evenRange gap n e.2) := by
  induction urls generalizing url i with
  | nil =>
    have hle : i * gap ≤ usizeMax :=
      Nat.le_trans (Nat.mul_le_mul_right gap (by simp at hn; omega)) hmax
    have hlast : i = n - 1 := by simp at hn; omega
    simp only [zipIdx_cons, zipIdx_nil, map_cons, map_nil, evenRange, if_pos hlast, mul_of_le hle]
    exact tiles_singleton hle
  | cons url' urls ih =>
    have hle : (i + 1) * gap ≤ usizeMax :=
      Nat.le_trans (Nat.mul_le_mul_right gap (by simp at hn; omega)) hmax
    have hsucc : (i + 1) * gap = i * gap + gap := Nat.succ_mul i gap
    have hfirst : i ≠ n - 1 := by simp at hn; omega
    rw [zipIdx_cons, map_cons]
    simp only [evenRange, if_neg hfirst, mul_of_le hle, mul_of_le (show i * gap ≤ usizeMax by omega),
      sub_one_of_pos (show 1 ≤ (i + 1) * gap by omega) hle]
    refine ⟨rfl, by simp only; omega, ?_⟩
    have hnext : (i + 1) * gap - 1 + 1 = (i + 1) * gap := by omega
    rw [hnext]
    exact ih url' (i + 1) (by simp at hn; omega)

/-! ### The sweep -/

/-- The load that fills a bucket and those left are loads. -/
theorem accumulate_mem {single acc load : Nat} {loads rest : List Nat}
    (h : accumulate single acc loads = some (load, rest)) :
    load ∈ loads ∧ ∀ l ∈ rest, l ∈ loads := by
  induction loads generalizing acc with
  | nil => cases h
  | cons l loads ih =>
    rw [accumulate] at h
    split at h
    · cases h
      exact ⟨mem_cons_self, fun _ => mem_cons_of_mem _⟩
    · obtain ⟨hload, hrest⟩ := ih h
      exact ⟨mem_cons_of_mem _ hload, fun l' hl' => mem_cons_of_mem _ (hrest l' hl')⟩

/-- The last worker has the rest of the axis, at every exit. -/
theorem sweep_last (single : Nat) (url : Url) (upper : Nat) (loads : List Nat) :
    sweep single [url] upper loads = [⟨url, (upper, usizeMax)⟩] := by
  rw [sweep]
  split
  · rfl
  · split <;> rfl

/-- A worker that is not the last has a range up to some `right`: a bucket's load further, or up to a
load that is further. -/
theorem sweep_cons (single : Nat) (url url' : Url) (urls : List Url) (upper : Nat)
    (loads : List Nat) : ∃ right rest, sweep single (url :: url' :: urls) upper loads =
        ⟨url, (upper, right)⟩ :: sweep single (url' :: urls) (add right 1) rest ∧
      (right = add upper single ∨ right ∈ loads ∧ upper < right) ∧ ∀ l ∈ rest, l ∈ loads := by
  rw [sweep, if_neg (fun h => cons_ne_nil _ _ h.2)]
  cases ha : accumulate single 0 loads with
  | none => exact ⟨_, [], by rw [if_neg (cons_ne_nil _ _)], Or.inl rfl, nofun⟩
  | some x =>
    obtain ⟨load, rest⟩ := x
    obtain ⟨hload, hrest⟩ := accumulate_mem ha
    simp only [if_neg (cons_ne_nil url' urls)]
    split
    · exact ⟨_, rest, rfl, Or.inl rfl, hrest⟩
    · next hlt => exact ⟨load, rest, rfl, Or.inr ⟨hload, Nat.lt_of_not_le hlt⟩, hrest⟩

theorem sweep_urls (single : Nat) (urls : List Url) (upper : Nat) (loads : List Nat) :
    (sweep single urls upper loads).map Boundary.url = urls := by
  induction urls generalizing upper loads with
  | nil => rfl
  | cons url urls ih =>
    cases urls with
    | nil => rw [sweep_last]; rfl
    | cons url' urls =>
      obtain ⟨right, rest, hs, -⟩ := sweep_cons single url url' urls upper loads
      rw [hs, map_cons, ih]

/-- **The sweep tiles the axis**, if the axis is long enough for a bucket's load for each worker, from
where the sweep is and from every load. -/
theorem tiles_sweep {single : Nat} (url : Url) (urls : List Url) (upper : Nat) (loads : List Nat)
    (hupper : upper + urls.length * (single + 1) ≤ usizeMax)
    (hloads : ∀ load ∈ loads, load + urls.length * (single + 1) ≤ usizeMax) :
    Tiles usizeMax upper (ranges (sweep single (url :: urls) upper loads)) := by
  induction urls generalizing url upper loads with
  | nil =>
    rw [sweep_last]
    exact tiles_singleton (by simpa using hupper)
  | cons url' urls ih =>
    obtain ⟨right, rest, hs, hright, hrest⟩ := sweep_cons single url url' urls upper loads
    have hlen : (url' :: urls).length * (single + 1) = urls.length * (single + 1) + (single + 1) :=
      Nat.succ_mul _ _
    rw [hlen] at hupper hloads
    have hadd : add upper single = upper + single := add_of_le (by omega)
    have hfits : upper ≤ right ∧ right + 1 + urls.length * (single + 1) ≤ usizeMax := by
      rcases hright with rfl | ⟨hmem, hlt⟩
      · omega
      · have := hloads right hmem
        omega
    rw [hs, add_of_le (show right + 1 ≤ usizeMax by omega)]
    exact ⟨rfl, hfits.1, ih url' (right + 1) rest hfits.2 fun load hload => by
      have := hloads load (hrest load hload)
      omega⟩

/-! ### The search -/

section
variable {b : Bucket} {c k : Nat} {e : Boundary}

/-- Boundaries of different workers are apart. -/
theorem range_lt {i j : Nat} {ei ej : Boundary}
    (hord : (ranges b.boundary).Pairwise fun r r' => r.2 < r'.1) (hij : i < j)
    (hi : b.boundary[i]? = some ei) (hj : b.boundary[j]? = some ej) :
    ei.range.2 < ej.range.1 := by
  obtain ⟨hi', rfl⟩ := List.getElem?_eq_some_iff.mp hi
  obtain ⟨hj', rfl⟩ := List.getElem?_eq_some_iff.mp hj
  exact List.pairwise_iff_getElem.mp (List.pairwise_map.mp hord) i j hi' hj' hij

/-- The search ends at a worker, if the range of the number is between `left` and `right`. -/
theorem findBoundaryIn_found (hord : (ranges b.boundary).Pairwise fun r r' => r.2 < r'.1)
    (hne : ∀ e ∈ b.boundary, e.range.1 ≤ e.range.2) (hk : b.boundary[k]? = some e)
    (hlo : e.range.1 ≤ c) (hhi : c ≤ e.range.2) (left right : Nat) (hleft : left ≤ k)
    (hright : k < right) (hlen : right ≤ b.boundary.length) :
    ∃ e' ∈ b.boundary, b.findBoundaryIn c left right = some e'.url := by
  fun_induction Bucket.findBoundaryIn b c left right with
  | case1 left right hlt mid hmid =>
    have := List.getElem?_eq_none_iff.mp hmid
    omega
  | case2 left right hlt mid m hmid hc ih =>
    -- the number is below the middle range, and so is `k`
    refine ih hleft ?_ (by omega)
    have hm := hne m (List.mem_of_getElem? hmid)
    rcases Nat.lt_trichotomy k mid with hkm | rfl | hkm
    · exact hkm
    · rw [hk] at hmid
      cases hmid
      omega
    · have := range_lt hord hkm hmid hk
      omega
  | case3 left right hlt mid m hmid hc hc' ih =>
    refine ih ?_ hright hlen
    have hm := hne m (List.mem_of_getElem? hmid)
    rcases Nat.lt_trichotomy k mid with hkm | rfl | hkm
    · have := range_lt hord hkm hk hmid
      omega
    · rw [hk] at hmid
      cases hmid
      omega
    · exact hkm
  | case4 left right hlt mid m hmid hc hc' => exact ⟨m, List.mem_of_getElem? hmid, rfl⟩
  | case5 left right hge => omega

end

/-! ### The calls -/

/-- The invariant: one boundary for each worker, that tile the axis. -/
structure Shared (b : Bucket) : Prop where
  owners : b.boundary.map Boundary.url = b.prefillWorkerUrls
  tiles : b.prefillWorkerUrls ≠ [] → Tiles usizeMax 0 (ranges b.boundary)
  few : b.prefillWorkerUrls.length ≤ 4096
  lMax : b.lMax = 4096 ∨ b.lMax = usizeMax

/-- The call names few enough workers, and the sums of the sweep fit a word: a load, all of the loads
and one for each worker. -/
def Admissible (b : Bucket) : Call → Prop
  | .init urls => urls.length ≤ 4096
  | .add url => url ∈ b.prefillWorkerUrls ∨ b.prefillWorkerUrls.length < 4096
  | .remove _ => True
  | .post _ _ _ _ => True
  | .adjust => ∀ load ∈ b.tReqLoads.map Prod.snd,
      load + b.loadTotal + b.prefillWorkerUrls.length ≤ usizeMax

/-- The call does not remove the last worker. -/
def KeepsWorker (b : Bucket) : Call → Prop
  | .remove url => b.prefillWorkerUrls = [] ∨ ∃ u ∈ b.prefillWorkerUrls, u ≠ url
  | _ => True

section
variable {b : Bucket}

/-- **The invariant is the partition.** -/
theorem Shared.partitioned (h : Shared b) : Partitioned b := by
  have hnil : b.boundary = [] ↔ b.prefillWorkerUrls = [] := by
    rw [← h.owners, map_eq_nil_iff]
  by_cases hne : b.prefillWorkerUrls = []
  · have hb := hnil.mpr hne
    refine ⟨h.owners, ?_, ?_, ?_, ?_, fun h' => absurd hne h', fun _ charCount => ?_⟩
    · rw [hb]; nofun
    · rw [hb]; nofun
    · rw [hb]; exact .nil
    · rw [hb]; nofun
    · rw [Bucket.findBoundary, hb, Bucket.findBoundaryIn]
      rfl
  · have ht := h.tiles hne
    refine ⟨h.owners, fun r hr => (ht.le hr).2, fun r hr => ?_, ht.next, fun r hr => ht.last hr,
      fun _ charCount hc => ?_, fun h' => absurd h' hne⟩
    · cases hb : b.boundary with
      | nil => exact absurd (hnil.mp hb) hne
      | cons e l =>
        rw [hb] at ht hr
        cases hr
        exact ht.1
    · obtain ⟨k, r, hk, hlo, hhi⟩ := ht.covers (Nat.zero_le charCount) hc
      rw [List.getElem?_map] at hk
      obtain ⟨e, he, rfl⟩ := Option.map_eq_some_iff.mp hk
      have hlt := (List.getElem?_eq_some_iff.mp he).1
      obtain ⟨e', he', hfound⟩ := findBoundaryIn_found ht.ordered
        (fun e he => (ht.le (mem_map_of_mem he)).2) he hlo hhi 0 _ (Nat.zero_le k) hlt
        (Nat.le_refl _)
      refine ⟨e'.url, ?_, hfound⟩
      rw [← h.owners]
      exact mem_map_of_mem he'

theorem shared_new (period : Nat) : Shared (Bucket.new period) :=
  ⟨rfl, fun h => absurd rfl h, Nat.zero_le _, Or.inl rfl⟩

/-- Even ranges. -/
theorem shared_init {urls : List Url} (hfew : urls.length ≤ 4096)
    (hmax : b.lMax = 4096 ∨ b.lMax = usizeMax) : Shared (b.initPrefillWorkerUrls urls) := by
  cases urls with
  | nil => exact ⟨rfl, fun h => absurd rfl h, hfew, hmax⟩
  | cons url urls =>
    have hpos : 0 < (url :: urls).length := Nat.succ_pos _
    rw [Bucket.initPrefillWorkerUrls, if_neg (Nat.ne_of_gt hpos)]
    refine ⟨?_, fun _ => ?_, hfew, Or.inr rfl⟩
    · rw [map_map]
      exact zipIdx_map_fst 0 (url :: urls)
    · have hle : 4096 ≤ b.lMax ∧ b.lMax ≤ usizeMax := by
        rcases hmax with hmax | hmax <;> rw [hmax] <;> decide
      have hgap : 1 ≤ b.lMax / (url :: urls).length :=
        (Nat.one_le_div_iff hpos).mpr (Nat.le_trans hfew hle.1)
      have hfit : (url :: urls).length * (b.lMax / (url :: urls).length) ≤ usizeMax :=
        Nat.le_trans (Nat.mul_div_le _ _) hle.2
      have := tiles_even hgap hfit url urls 0 (by simp)
      rw [Nat.zero_mul] at this
      rw [ranges, map_map]
      exact this

theorem Shared.add (h : Shared b) {url : Url}
    (hfew : url ∈ b.prefillWorkerUrls ∨ b.prefillWorkerUrls.length < 4096) :
    Shared (b.addPrefillUrl url) := by
  refine shared_init ?_ h.lMax
  split
  · exact h.few
  · next hmem =>
    have := hfew.resolve_left hmem
    simp only [length_append, length_singleton]
    omega

theorem Shared.remove (h : Shared b) {url : Url} (hkeeps : KeepsWorker b (.remove url)) :
    Shared (b.removePrefillUrl url) := by
  rw [Bucket.removePrefillUrl]
  split
  · exact shared_init (Nat.le_trans (length_filter_le _ _) h.few) h.lMax
  · next hlen =>
    -- nothing is left, so there was nothing
    have hnone : b.prefillWorkerUrls = [] := by
      refine hkeeps.resolve_right fun ⟨u, hu, hne⟩ => hlen ?_
      exact length_pos_of_mem (List.mem_filter.mpr ⟨hu, decide_eq_true hne⟩)
    have howners := h.owners
    rw [hnone] at howners
    refine ⟨?_, fun h' => ?_, ?_, h.lMax⟩
    · simp [howners, hnone]
    · simp [hnone] at h'
    · simp [hnone]

/-- What `post_process_request` leaves as it is. -/
theorem expire_keeps (b : Bucket) (now : Nat) (requests : List SequencerRequest) (removed : Nat) :
    (b.expire now requests removed).1.boundary = b.boundary ∧
      (b.expire now requests removed).1.prefillWorkerUrls = b.prefillWorkerUrls ∧
      (b.expire now requests removed).1.lMax = b.lMax := by
  induction requests generalizing b removed with
  | nil => exact ⟨rfl, rfl, rfl⟩
  | cons r requests ih =>
    rw [Bucket.expire]
    split
    · exact ih _ _
    · exact ⟨rfl, rfl, rfl⟩

theorem Shared.post (h : Shared b) (now : Nat) (id : Str) (charCnt : Nat) (url : Url) :
    Shared (b.postProcessRequest now id charCnt url) := by
  obtain ⟨hboundary, hurls, hmax⟩ := expire_keeps
    { b with charsPerUrl := upsert url (BucketPolicy.add · charCnt) charCnt b.charsPerUrl } now
    b.requestList 0
  refine ⟨?_, ?_, ?_, ?_⟩
  · exact (congrArg (List.map Boundary.url) hboundary).trans (h.owners.trans hurls.symm)
  · intro hne
    have := h.tiles (hurls ▸ hne)
    simpa only [Bucket.postProcessRequest, hboundary] using this
  · exact hurls ▸ h.few
  · exact hmax ▸ h.lMax

/-- The ranges drawn from some loads. -/
theorem tiles_drawn {urls : List Url} {loads : List Nat} {total : Nat} (hurls : urls ≠ [])
    (hloads : loads ≠ []) (hfits : ∀ load ∈ loads, load + total + urls.length ≤ usizeMax) :
    Tiles usizeMax 0 (ranges (sweep (total / urls.length) urls 0 (loads.insertionSort (· ≤ ·)))) := by
  obtain ⟨url, urls, rfl⟩ := exists_cons_of_ne_nil hurls
  -- the workers after the first get less than the total, and one each
  have hshare : urls.length * (total / (urls.length + 1) + 1) ≤ total + urls.length := by
    have hdiv : urls.length * (total / (urls.length + 1)) ≤ total :=
      Nat.le_trans (Nat.mul_le_mul_right _ (Nat.le_succ _)) (Nat.mul_div_le total (urls.length + 1))
    rw [Nat.mul_add, Nat.mul_one]
    omega
  have hfit : ∀ load ∈ loads,
      load + urls.length * (total / (urls.length + 1) + 1) ≤ usizeMax := by
    intro load hload
    have := hfits load hload
    rw [length_cons] at this
    omega
  obtain ⟨load, hload⟩ := exists_mem_of_ne_nil _ hloads
  refine tiles_sweep url urls 0 _ ?_ fun load hl => hfit load ((mem_insertionSort _).mp hl)
  have := hfit load hload
  rw [length_cons]
  omega

theorem Shared.adjust (h : Shared b) (hfits : Admissible b .adjust) : Shared b.adjustBoundary := by
  have hupdated : Shared b.updateWorkersCnt := ⟨h.owners, h.tiles, h.few, h.lMax⟩
  rw [Bucket.adjustBoundary]
  split
  · exact h
  · next hloads =>
    dsimp only
    split
    · exact hupdated
    · next hcnt =>
      split
      · exact hupdated
      · refine ⟨sweep_urls _ _ _ _, fun hne => ?_, h.few, h.lMax⟩
        exact tiles_drawn hne (fun hnil => hloads (List.map_eq_nil_iff.mp hnil)) hfits

/-- **One call.** -/
theorem Shared.call (h : Shared b) {c : Call} (hadm : Admissible b c) (hkeeps : KeepsWorker b c) :
    Shared (b.call c) := by
  cases c with
  | init urls => exact shared_init hadm h.lMax
  | add url => exact h.add hadm
  | remove url => exact h.remove hkeeps
  | post now id charCnt url => exact h.post now id charCnt url
  | adjust => exact h.adjust hadm

/-- A worker that is removed as the last keeps its range. -/
theorem not_partitioned_remove (h : Partitioned b) {url : Url}
    (hlast : ¬ KeepsWorker b (.remove url)) : ¬ Partitioned (b.removePrefillUrl url) := by
  intro h'
  obtain ⟨hne, hall⟩ := not_or.mp hlast
  have hnone : b.prefillWorkerUrls.filter (fun u => decide (u ≠ url)) = [] := by
    refine List.filter_eq_nil_iff.mpr fun u hu hne => hall ⟨u, hu, of_decide_eq_true hne⟩
  have howners := h'.owners
  rw [Bucket.removePrefillUrl] at howners
  simp only [hnone, length_nil, Nat.lt_irrefl, if_false] at howners
  rw [h.owners] at howners
  exact hne howners

end

/-! ### Runs -/

/-- **The workers share the axis in every state of a run exactly when no call of it removes the last
worker.** -/
theorem run_partitioned_iff (period : Nat) (calls : List Call)
    (hadm : ∀ n c, calls[n]? = some c → Admissible (run period (calls.take n)) c) :
    (∀ n, Partitioned (run period (calls.take n))) ↔
      ∀ n c, calls[n]? = some c → KeepsWorker (run period (calls.take n)) c := by
  constructor
  · intro h n c hc
    by_contra hlast
    cases c with
    | remove url =>
      have hnext := h (n + 1)
      rw [run, Runs.fold_take_succ hc] at hnext
      exact not_partitioned_remove (h n) hlast hnext
    | init urls | add url | post now id charCnt url | adjust => exact hlast trivial
  · intro hkeeps n
    suffices h : Shared (run period (calls.take n)) from h.partitioned
    exact Runs.fold_invariant (C := fun b c => Admissible b c ∧ KeepsWorker b c)
      (fun h hc => h.call hc.1 hc.2) (shared_new period)
      fun k _ c hc => ⟨hadm k c hc, hkeeps k c hc⟩

/-- Two workers, a long request, new boundaries, and one worker goes. -/
def twoThenOne : List Call :=
  [.init [['a'], ['b']], .post 0 ['x'] 100 ['a'], .adjust, .remove ['a']]

theorem twoThenOne_partitioned :
    (run 1000 (twoThenOne.take 3)).boundary =
        [⟨['a'], (0, 100)⟩, ⟨['b'], (101, usizeMax)⟩] ∧
      ∀ n, Partitioned (run 1000 (twoThenOne.take n)) := by
  have hadm : ∀ n c, twoThenOne[n]? = some c → Admissible (run 1000 (twoThenOne.take n)) c := by
    intro n c hc
    match n, hc with
    | 0, hc => cases hc; exact (by decide : 2 ≤ 4096)
    | 1, hc => cases hc; trivial
    | 2, hc =>
      cases hc
      intro load hload
      obtain rfl : load = 100 := List.mem_singleton.mp hload
      decide
    | 3, hc => cases hc; trivial
    | n + 4, hc => cases hc
  have hkeeps : ∀ n c, twoThenOne[n]? = some c → KeepsWorker (run 1000 (twoThenOne.take n)) c := by
    intro n c hc
    match n, hc with
    | 0, hc | 1, hc | 2, hc => cases hc; trivial
    | 3, hc => cases hc; exact Or.inr ⟨['b'], by decide, by decide⟩
    | n + 4, hc => cases hc
  exact ⟨by decide, (run_partitioned_iff 1000 twoThenOne hadm).mpr hkeeps⟩

/-- **The last worker keeps its range**: a worker that came and went still has every length. -/
theorem removed_worker_keeps_range :
    ¬ ∀ calls, (∀ n c, calls[n]? = some c → Admissible (run 1000 (calls.take n)) c) →
      Partitioned (run 1000 calls) := by
  intro h
  have hadm : ∀ n c, [Call.add ['a'], .remove ['a']][n]? = some c →
      Admissible (run 1000 ([Call.add ['a'], .remove ['a']].take n)) c := by
    intro n c hc
    match n, hc with
    | 0, hc => cases hc; exact Or.inr (by decide)
    | 1, hc => cases hc; trivial
    | n + 2, hc => cases hc
  exact absurd (h _ hadm).owners (by decide)

end QwenStack.BucketPolicy
