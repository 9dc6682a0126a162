import QwenStack.Registry.Definitions
import QwenStack.Support.Ring

/-!
# Registry — minimal disruption

`findHealthyUrl` returns the first healthy URL clockwise from the key (`findHealthyUrl_eq`): the
binary search, the wrap-around and the set of checked URLs make no difference to that
(`findHealthyUrl_spec`).  What a ring
is made of depends only on the URLs, and a ring with one URL more is the old ring once the entries
of that URL are left out (`entries_without`).  Minimal disruption follows (`minimal_disruption`).

The order of entries of equal position is not specified, so the results about two rings assume that
the virtual nodes of the workers have distinct positions.  Of all URLs this cannot hold: positions
are 64 bits wide.
-/

namespace QwenStack.Registry
open QwenStack.Ring List

variable {blake3 : Blake3} {workers workers' : List Worker}

/-! ### The walk -/

/-- A URL that was checked is unhealthy, so skipping it changes nothing. -/
theorem firstHealthy_eq (isHealthy : Url → Bool) (checkedUrls urls : List Url)
    (h : ∀ u ∈ checkedUrls, isHealthy u = false) :
    firstHealthy isHealthy checkedUrls urls = urls.find? isHealthy := by
  induction urls generalizing checkedUrls with
  | nil => rfl
  | cons u urls ih =>
    rw [firstHealthy, List.find?_cons]
    split
    · next hmem =>
      rw [h u hmem]
      exact ih checkedUrls h
    · cases hu : isHealthy u with
      | true => rfl
      | false => exact ih (u :: checkedUrls) (List.forall_mem_cons.mpr ⟨hu, h⟩)

/-- **The first healthy URL clockwise from the key.** -/
theorem findHealthyUrl_eq (ring : HashRing) (key : Str) (isHealthy : Url → Bool) :
    ring.findHealthyUrl blake3 key isHealthy =
      ((clockwise (hashPosition blake3 key) ring.entries).map Prod.snd).find? isHealthy := by
  rw [HashRing.findHealthyUrl]
  split
  · next h =>
    rw [List.isEmpty_iff] at h
    rw [h]
    rfl
  · rw [firstHealthy_eq isHealthy [] _ (fun _ h => (nomatch h)), ← rotate_eq_clockwise ring.sorted,
      ← partitionPoint, ← filterMap_getElem_eq_rotate, map_filterMap]

/-- What `find_healthy_url` is for: the entries from the hash of the key on, then the others, both in the
order of their positions, and of the first one whose URL is healthy the URL. -/
def HashRing.nearestHealthyUrl (blake3 : Blake3) (ring : HashRing) (key : Str)
    (isHealthy : Url → Bool) : Option Url :=
  let hash := hashPosition blake3 key
  let ahead := ring.entries.filter fun e => decide (hash ≤ e.1)
  let behind := ring.entries.filter fun e => decide (e.1 < hash)
  ((ahead ++ behind).find? fun e => isHealthy e.2).map Prod.snd

theorem findHealthyUrl_nearest (ring : HashRing) (key : Str) (isHealthy : Url → Bool) :
    ring.findHealthyUrl blake3 key isHealthy = ring.nearestHealthyUrl blake3 key isHealthy := by
  rw [findHealthyUrl_eq, List.find?_map]
  rfl

/-- **The walk finds the nearest healthy URL**, and nothing only where no URL on the ring is healthy. -/
theorem findHealthyUrl_spec (blake3 : Blake3) (ring : HashRing) (key : Str) (isHealthy : Url → Bool) :
    ring.findHealthyUrl blake3 key isHealthy = ring.nearestHealthyUrl blake3 key isHealthy ∧
      (ring.findHealthyUrl blake3 key isHealthy = none ↔
        ∀ e ∈ ring.entries, isHealthy e.2 = false) := by
  constructor
  · exact findHealthyUrl_nearest ring key isHealthy
  · rw [findHealthyUrl_eq, List.find?_eq_none, forall_mem_map]
    refine forall_congr' fun e => ?_
    rw [mem_clockwise, Bool.not_eq_true]

/-! ### What a ring is made of -/

/-- The virtual nodes of these URLs have distinct positions. -/
def PositionsDistinct (blake3 : Blake3) (urls : List Url) : Prop :=
  ∀ u ∈ urls, ∀ v ∈ urls, ∀ i < virtualNodesPerWorker, ∀ j < virtualNodesPerWorker,
    ringPosition blake3 u i = ringPosition blake3 v j → u = v ∧ i = j

theorem entries_perm (blake3 : Blake3) (workers : List Worker) :
    (HashRing.new blake3 workers).entries.Perm
      ((workers.map Worker.url).flatMap (virtualNodes blake3)) := by
  rw [flatMap_map]
  exact perm_insertionSort _ _

theorem mem_virtualNodes {e : Nat × Url} {url : Url} : e ∈ virtualNodes blake3 url ↔
      ∃ i < virtualNodesPerWorker, e = (ringPosition blake3 url i, url) := by
  simp only [virtualNodes, mem_map, mem_range]
  constructor
  · rintro ⟨i, hi, rfl⟩
    exact ⟨i, hi, rfl⟩
  · rintro ⟨i, hi, rfl⟩
    exact ⟨i, hi, rfl⟩

theorem mem_entries {e : Nat × Url} : e ∈ (HashRing.new blake3 workers).entries ↔
    ∃ url ∈ workers.map Worker.url, e ∈ virtualNodes blake3 url := by
  rw [(entries_perm blake3 workers).mem_iff, mem_flatMap]

/-- The URLs on a ring are those of its workers. -/
theorem exists_entry_iff {url : Url} : (∃ e ∈ (HashRing.new blake3 workers).entries, e.2 = url) ↔
    url ∈ workers.map Worker.url := by
  constructor
  · rintro ⟨e, he, rfl⟩
    obtain ⟨url, hu, he⟩ := mem_entries.mp he
    obtain ⟨i, -, rfl⟩ := mem_virtualNodes.mp he
    exact hu
  · intro hu
    exact ⟨(ringPosition blake3 url 0, url),
      mem_entries.mpr ⟨url, hu, mem_virtualNodes.mpr ⟨0, by decide, rfl⟩⟩, rfl⟩

theorem entry_eq_of_position (hp : PositionsDistinct blake3 (workers.map Worker.url))
    {e e' : Nat × Url} (he : e ∈ (HashRing.new blake3 workers).entries)
    (he' : e' ∈ (HashRing.new blake3 workers).entries) (h : e.1 = e'.1) : e = e' := by
  obtain ⟨u, hu, he⟩ := mem_entries.mp he
  obtain ⟨v, hv, he'⟩ := mem_entries.mp he'
  obtain ⟨i, hi, rfl⟩ := mem_virtualNodes.mp he
  obtain ⟨j, hj, rfl⟩ := mem_virtualNodes.mp he'
  obtain ⟨rfl, rfl⟩ := hp u hu v hv i hi j hj h
  rfl

/-- The ring does not depend on the order of the workers. -/
theorem entries_eq_of_perm (hp : PositionsDistinct blake3 (workers.map Worker.url))
    (hperm : (workers'.map Worker.url).Perm (workers.map Worker.url)) :
    (HashRing.new blake3 workers).entries = (HashRing.new blake3 workers').entries := by
  refine eq_of_perm (HashRing.sorted _) (HashRing.sorted _) ?_
    fun a ha b hb h => entry_eq_of_position hp ha hb h
  exact (entries_perm blake3 workers).trans
    ((hperm.symm.flatMap_right _).trans (entries_perm blake3 workers').symm)

/-- **One URL more**: without its entries, the ring is the old one. -/
theorem entries_without {w : Worker} (hw : w.url ∉ workers.map Worker.url)
    (hp : PositionsDistinct blake3 (workers.map Worker.url))
    (hperm : (workers'.map Worker.url).Perm (w.url :: workers.map Worker.url)) :
    (HashRing.new blake3 workers').entries.filter (fun e => decide (e.2 ≠ w.url)) =
      (HashRing.new blake3 workers).entries := by
  have hsame : ((workers.map Worker.url).flatMap (virtualNodes blake3)).filter
      (fun e => decide (e.2 ≠ w.url)) = (workers.map Worker.url).flatMap (virtualNodes blake3) := by
    refine List.filter_eq_self.mpr fun e he => ?_
    obtain ⟨url, hu, he⟩ := List.mem_flatMap.mp he
    obtain ⟨i, -, rfl⟩ := mem_virtualNodes.mp he
    simp only [decide_eq_true_eq]
    rintro rfl
    exact hw hu
  have hgone : (virtualNodes blake3 w.url).filter (fun e => decide (e.2 ≠ w.url)) = [] := by
    refine List.filter_eq_nil_iff.mpr fun e he => ?_
    obtain ⟨i, -, rfl⟩ := mem_virtualNodes.mp he
    simp
  symm
  refine eq_of_perm (HashRing.sorted _) ((HashRing.sorted _).filter _) ?_
    fun a ha b hb h => entry_eq_of_position hp ha hb h
  refine (entries_perm blake3 workers).trans (List.Perm.symm ?_)
  refine ((entries_perm blake3 workers').filter _).trans ?_
  refine ((hperm.flatMap_right (virtualNodes blake3)).filter _).trans ?_
  rw [flatMap_cons, filter_append, hgone, hsame, nil_append]

/-! ### Minimal disruption -/

/-- With every URL healthy, the answer is the first URL clockwise. -/
theorem findHealthyUrl_all {key : Str} {isHealthy : Url → Bool}
    (h : ∀ u ∈ workers.map Worker.url, isHealthy u = true) :
    (HashRing.new blake3 workers).findHealthyUrl blake3 key isHealthy =
      (clockwise (hashPosition blake3 key) (HashRing.new blake3 workers).entries).head?.map
        Prod.snd := by
  rw [findHealthyUrl_eq, ← List.head?_map]
  cases hl : (clockwise (hashPosition blake3 key) (HashRing.new blake3 workers).entries).map
    Prod.snd with
  | nil => rfl
  | cons u l =>
    have hu : u ∈ (clockwise (hashPosition blake3 key)
        (HashRing.new blake3 workers).entries).map Prod.snd := by
      rw [hl]
      exact mem_cons_self
    obtain ⟨e, he, rfl⟩ := List.mem_map.mp hu
    rw [List.find?_cons_of_pos (h _ (exists_entry_iff.mp ⟨e, mem_clockwise.mp he, rfl⟩))]
    rfl

/-- **Minimal disruption.**  On a ring, the answer stays as long as it is healthy when other URLs
become unhealthy; the order in which the workers were listed does not matter; and one more URL takes
keys to itself only. -/
theorem minimal_disruption (blake3 : Blake3) (workers : List Worker)
    (hp : PositionsDistinct blake3 (workers.map Worker.url)) :
    (∀ key (H H' : Url → Bool), (∀ u ∈ workers.map Worker.url, H u = true → H' u = true) → ∀ u,
        (HashRing.new blake3 workers).findHealthyUrl blake3 key H' = some u → H u = true →
        (HashRing.new blake3 workers).findHealthyUrl blake3 key H = some u) ∧
      (∀ workers' : List Worker, (workers'.map Worker.url).Perm (workers.map Worker.url) →
        ∀ key H, (HashRing.new blake3 workers').findHealthyUrl blake3 key H =
          (HashRing.new blake3 workers).findHealthyUrl blake3 key H) ∧
      ∀ w : Worker, w.url ∉ workers.map Worker.url →
        ∀ workers' : List Worker, (workers'.map Worker.url).Perm (w.url :: workers.map Worker.url) →
        ∀ key H, (∀ u ∈ w.url :: workers.map Worker.url, H u = true) →
          (HashRing.new blake3 workers').findHealthyUrl blake3 key H =
              (HashRing.new blake3 workers).findHealthyUrl blake3 key H ∨
            (HashRing.new blake3 workers').findHealthyUrl blake3 key H = some w.url := by
  refine ⟨?_, ?_, ?_⟩
  · intro key H H' hsub u hu hH
    rw [findHealthyUrl_eq] at hu ⊢
    refine find_of_subset (fun v hv => ?_) hu hH
    obtain ⟨e, he, rfl⟩ := List.mem_map.mp hv
    exact hsub _ (exists_entry_iff.mp ⟨e, mem_clockwise.mp he, rfl⟩)
  · intro workers' hperm key H
    rw [findHealthyUrl_eq, findHealthyUrl_eq, entries_eq_of_perm hp hperm]
  · intro w hw workers' hperm key H hH
    have hH' : ∀ u ∈ workers'.map Worker.url, H u = true := fun u hu => hH u (hperm.mem_iff.mp hu)
    rw [findHealthyUrl_all hH', findHealthyUrl_all fun u hu => hH u (mem_cons_of_mem _ hu),
      ← entries_without hw hp hperm, ← filter_clockwise]
    cases hhead : (clockwise (hashPosition blake3 key) (HashRing.new blake3 workers').entries).head? with
    | none =>
      rw [List.head?_eq_none_iff] at hhead
      rw [hhead]
      exact Or.inl rfl
    | some e =>
      by_cases he : e.2 = w.url
      · exact Or.inr (by rw [Option.map_some, he])
      · exact Or.inl (by rw [head_filter hhead (by simpa using he)])

/-- A regular HTTP worker. -/
def plainWorker (url : Url) (modelId : ModelId) : Worker :=
  ⟨0, url, modelId, .regular, .http, .sglang⟩

/-- A hash that spreads the virtual nodes of one-letter URLs. -/
def letterHash : Blake3 := fun bytes =>
  Vector.ofFn fun i => if i.val = 0 then bytes.getD 0 0 else if i.val = 1 then bytes.getD 2 0 else 0

theorem leadingWord_letterHash (bytes : List UInt8) :
    leadingWord (letterHash bytes) = (bytes.getD 0 0).toNat + 256 * (bytes.getD 2 0).toNat := by
  rw [leadingWord, letterHash, Vector.toList_ofFn]
  simp [ofFn_succ, fromLeBytes]

/-- Where the virtual nodes of two URLs are. -/
theorem ringPosition_letterHash {i : Nat} (hi : i < virtualNodesPerWorker) :
    ringPosition letterHash ['a'] i = 97 + 256 * i ∧
      ringPosition letterHash ['b'] i = 98 + 256 * i := by
  have hbyte : (UInt8.ofNat (i / 256 ^ 0)).toNat = i := by
    rw [Nat.pow_zero, Nat.div_one]
    exact Nat.mod_eq_of_lt (Nat.lt_trans hi (by decide))
  constructor
  · rw [ringPosition, leadingWord_letterHash]
    exact congrArg (fun n => 97 + 256 * n) hbyte
  · rw [ringPosition, leadingWord_letterHash]
    exact congrArg (fun n => 98 + 256 * n) hbyte

/-- Two workers and a third that joins them. -/
theorem third_worker_takes_keys_to_itself :
    PositionsDistinct letterHash ([plainWorker ['a'] [], plainWorker ['b'] []].map Worker.url) ∧
      ∀ key, (HashRing.new letterHash
            [plainWorker ['a'] [], plainWorker ['b'] [], plainWorker ['c'] []]).findHealthyUrl
          letterHash key (fun _ => true) =
            (HashRing.new letterHash [plainWorker ['a'] [], plainWorker ['b'] []]).findHealthyUrl
              letterHash key (fun _ => true) ∨
        (HashRing.new letterHash
            [plainWorker ['a'] [], plainWorker ['b'] [], plainWorker ['c'] []]).findHealthyUrl
          letterHash key (fun _ => true) = some ['c'] := by
  have ha : ∀ i < virtualNodesPerWorker, ringPosition letterHash ['a'] i = 97 + 256 * i :=
    fun i hi => (ringPosition_letterHash hi).1
  have hb : ∀ i < virtualNodesPerWorker, ringPosition letterHash ['b'] i = 98 + 256 * i :=
    fun i hi => (ringPosition_letterHash hi).2
  have hp : PositionsDistinct letterHash
      ([plainWorker ['a'] [], plainWorker ['b'] []].map Worker.url) := by
    intro u hu v hv i hi j hj h
    simp only [map_cons, map_nil, plainWorker, mem_cons, not_mem_nil,
      or_false] at hu hv
    rcases hu with rfl | rfl <;> rcases hv with rfl | rfl <;>
      simp only [ha _ hi, ha _ hj, hb _ hi, hb _ hj] at h
    · exact ⟨rfl, by omega⟩
    · omega
    · omega
    · exact ⟨rfl, by omega⟩
  refine ⟨hp, fun key => ?_⟩
  exact (minimal_disruption letterHash _ hp).2.2 (plainWorker ['c'] []) (by decide)
    [plainWorker ['a'] [], plainWorker ['b'] [], plainWorker ['c'] []]
    (@List.perm_append_comm Url [['a'], ['b']] [['c']]) key _ fun _ _ => rfl

end QwenStack.Registry
