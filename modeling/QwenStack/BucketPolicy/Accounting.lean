import QwenStack.BucketPolicy.Partition

/-!
# Bucket policy — the load of the window

The window of recent requests is kept four times: as the list of the requests, as their loads by id,
as the characters of each worker, and as one sum.  A request that leaves the window leaves all four
(`Mirrored.expire`), one that enters it enters all four (`Ledger.post`).

`init_prefill_worker_urls` does not fit: it sets the characters of every worker to zero, and the
window stays.  Every worker that is added, and every removal that leaves a worker, passes through it.
So the four agree as long as no worker has requests in the window when that happens
(`run_accounted_iff`).
-/

namespace QwenStack.BucketPolicy
open Assoc List

/-- The characters of some requests. -/
def weight (requests : List SequencerRequest) : Nat := (requests.map SequencerRequest.charCnt).sum

/-- The characters of those sent to a worker. -/
def weightAt (url : Url) (requests : List SequencerRequest) : Nat :=
  weight (requests.filter fun r => decide (r.prefillWorkerUrl = url))

/-- The four records of the window agree. -/
structure Accounted (b : Bucket) : Prop where
  total : b.loadTotal = weight b.requestList
  loads : Assoc.total b.tReqLoads = weight b.requestList
  chars : ∀ url ∈ b.prefillWorkerUrls,
    b.charsPerUrl.lookup url = some (weightAt url b.requestList)

/-- A request has an id that is not in the window, and the sum of the window fits a word with it. -/
def Postable (b : Bucket) : Call → Prop
  | .post _ id charCnt _ =>
      id ∉ b.requestList.map SequencerRequest.id ∧ weight b.requestList + charCnt ≤ usizeMax
  | _ => True

/-- The workers that a call starts from zero have no characters in the window. -/
def StartsIdle (b : Bucket) : Call → Prop
  | .init urls => ∀ u ∈ urls, weightAt u b.requestList = 0
  | .add url => ∀ u, u = url ∨ u ∈ b.prefillWorkerUrls → weightAt u b.requestList = 0
  | .remove url => ∀ u ∈ b.prefillWorkerUrls, u ≠ url → weightAt u b.requestList = 0
  | .post _ _ _ _ => True
  | .adjust => True

/-! ### Sums -/

section
variable {r : SequencerRequest} {requests : List SequencerRequest} {url : Url}

@[simp] theorem weight_cons : weight (r :: requests) = r.charCnt + weight requests := rfl

@[simp] theorem weight_snoc : weight (requests ++ [r]) = weight requests + r.charCnt := by
  simp [weight]

theorem weightAt_cons : weightAt url (r :: requests) =
    (if r.prefillWorkerUrl = url then r.charCnt else 0) + weightAt url requests := by
  rw [weightAt, filter_cons]
  by_cases h : r.prefillWorkerUrl = url
  · simp only [h, decide_true, if_true, weight_cons, weightAt]
  · simp only [h, decide_false, if_false, Nat.zero_add, weightAt, Bool.false_eq_true]

theorem weightAt_snoc : weightAt url (requests ++ [r]) =
    weightAt url requests + if r.prefillWorkerUrl = url then r.charCnt else 0 := by
  rw [weightAt, filter_append, filter_singleton]
  by_cases h : r.prefillWorkerUrl = url
  · simp [h, weightAt]
  · simp [h, weightAt]

theorem weightAt_le (url : Url) (requests : List SequencerRequest) :
    weightAt url requests ≤ weight requests := by
  induction requests with
  | nil => exact Nat.le_refl _
  | cons r requests ih =>
    rw [weightAt_cons, weight_cons]
    split <;> omega

end

/-! ### The window -/

/-- The records by id and by worker are those of `requests`; a worker may have `extra` characters of a
request that is not there yet. -/
structure Mirrored (extra : Url → Nat) (b : Bucket) (requests : List SequencerRequest) : Prop where
  loads : b.tReqLoads = requests.map fun r => (r.id, r.charCnt)
  ids : (requests.map SequencerRequest.id).Nodup
  chars : ∀ u ∈ b.prefillWorkerUrls,
    b.charsPerUrl.lookup u = some (weightAt u requests + extra u)

section
variable {b : Bucket} {extra : Url → Nat} {r : SequencerRequest} {requests : List SequencerRequest}

/-- The oldest request leaves. -/
theorem Mirrored.tail (h : Mirrored extra b (r :: requests)) : Mirrored extra { b with
        tReqLoads := del r.id b.tReqLoads
        charsPerUrl := andModify r.prefillWorkerUrl (· - r.charCnt) b.charsPerUrl }
      requests := by
  have hids := List.nodup_cons.mp h.ids
  refine ⟨?_, hids.2, fun u hu => ?_⟩
  · have hgone : r.id ∉ keys (requests.map fun r => (r.id, r.charCnt)) := by
      rw [Assoc.keys, map_map]
      exact hids.1
    have hother := del_of_not_mem hgone
    simp only [h.loads, map_cons]
    rw [del, filter_cons_of_neg (by simp), ← del, hother]
  · have hu' := h.chars u hu
    rw [weightAt_cons] at hu'
    simp only [lookup_andModify]
    by_cases hurl : u = r.prefillWorkerUrl
    · rw [if_pos hurl.symm] at hu'
      rw [if_pos hurl, ← hurl, hu', Option.map_some]
      congr 1
      omega
    · rw [if_neg (Ne.symm hurl), Nat.zero_add] at hu'
      rw [if_neg hurl, hu']

/-- **The expired requests leave every record**, and `removedLoad` is what they weigh. -/
theorem Mirrored.expire (h : Mirrored extra b requests) (now removed : Nat)
    (hfits : removed + weight requests ≤ usizeMax) :
    Mirrored extra (b.expire now requests removed).1
        (b.expire now requests removed).1.requestList ∧
      (b.expire now requests removed).1.requestList <:+ requests ∧
      (b.expire now requests removed).2 + weight (b.expire now requests removed).1.requestList =
        removed + weight requests ∧
      (b.expire now requests removed).1.loadTotal = b.loadTotal := by
  induction requests generalizing b removed with
  | nil => exact ⟨⟨h.loads, h.ids, h.chars⟩, suffix_refl _, rfl, rfl⟩
  | cons r requests ih =>
    rw [Bucket.expire]
    split
    · rw [weight_cons, ← Nat.add_assoc] at hfits
      have hadd : add removed r.charCnt = removed + r.charCnt := add_of_le (by omega)
      obtain ⟨hm, hsuffix, hsum, htotal⟩ := ih h.tail (add removed r.charCnt) (by omega)
      refine ⟨hm, hsuffix.trans (suffix_cons _ _), ?_, htotal⟩
      rw [hsum, hadd, weight_cons, Nat.add_assoc]
    · exact ⟨⟨h.loads, h.ids, h.chars⟩, suffix_refl _, rfl, rfl⟩

/-- The characters of a request come before the request. -/
theorem Mirrored.announce {charCnt : Nat} {url : Url} (h : Mirrored (fun _ => 0) b requests)
    (hfits : weight requests + charCnt ≤ usizeMax) :
    Mirrored (fun u => if url = u then charCnt else 0)
      { b with charsPerUrl := upsert url (add · charCnt) charCnt b.charsPerUrl } requests := by
  refine ⟨h.loads, h.ids, fun u hu => ?_⟩
  have hu' := h.chars u hu
  simp only [lookup_upsert]
  by_cases hurl : u = url
  · have hle := weightAt_le u requests
    rw [if_pos hurl, if_pos hurl.symm, ← hurl, hu', Option.map_some, Option.getD_some, Nat.add_zero,
      add_of_le (by omega)]
  · rw [if_neg hurl, if_neg (Ne.symm hurl), hu']

/-- A request that is new enters. -/
theorem Mirrored.enter {charCnt : Nat} {id : Str} {url : Url} (now loadTotal : Nat)
    (h : Mirrored (fun u => if url = u then charCnt else 0) b requests)
    (hfresh : id ∉ requests.map SequencerRequest.id) :
    Mirrored (fun _ => 0) { b with
        tReqLoads := put id charCnt b.tReqLoads
        requestList := requests ++ [⟨id, charCnt, now, url⟩]
        loadTotal := loadTotal }
      (requests ++ [⟨id, charCnt, now, url⟩]) := by
  refine ⟨?_, ?_, fun u hu => ?_⟩
  · have hnew : id ∉ keys b.tReqLoads := by
      rw [h.loads, Assoc.keys, map_map]
      exact hfresh
    rw [map_append, ← h.loads]
    exact put_of_not_mem hnew
  · rw [map_append, map_singleton]
    refine List.nodup_append.mpr ⟨h.ids, nodup_singleton _, fun x hx y hy => ?_⟩
    obtain rfl := List.mem_singleton.mp hy
    rintro rfl
    exact hfresh hx
  · have hu' := h.chars u hu
    rw [weightAt_snoc, Nat.add_zero]
    exact hu'

end

/-! ### The calls -/

/-- The invariant: the records are those of the window. -/
structure Ledger (b : Bucket) : Prop where
  mirrored : Mirrored (fun _ => 0) b b.requestList
  total : b.loadTotal = weight b.requestList

section
variable {b : Bucket}

theorem Ledger.accounted (h : Ledger b) : Accounted b := by
  refine ⟨h.total, ?_, h.mirrored.chars⟩
  rw [h.mirrored.loads, Assoc.total, map_map]
  rfl

theorem ledger_new (period : Nat) : Ledger (Bucket.new period) :=
  ⟨⟨rfl, nodup_nil, nofun⟩, rfl⟩

/-- Every worker starts from zero. -/
theorem lookup_zeros (urls : List Url) (chars : List (Url × Nat)) (u : Url) :
    (urls.foldl (fun chars url => put url 0 chars) chars).lookup u =
      if u ∈ urls then some 0 else chars.lookup u := by
  induction urls generalizing chars with
  | nil => rfl
  | cons url urls ih =>
    rw [foldl_cons, ih, lookup_put]
    by_cases hu : u ∈ urls
    · rw [if_pos hu, if_pos (mem_cons_of_mem _ hu)]
    · rw [if_neg hu]
      simp only [mem_cons, hu, or_false]

/-- What `init_prefill_worker_urls` does to the records. -/
theorem init_records (b : Bucket) (urls : List Url) :
    (b.initPrefillWorkerUrls urls).prefillWorkerUrls = urls ∧
      (b.initPrefillWorkerUrls urls).requestList = b.requestList ∧
      (b.initPrefillWorkerUrls urls).tReqLoads = b.tReqLoads ∧
      (b.initPrefillWorkerUrls urls).loadTotal = b.loadTotal ∧
      ∀ u ∈ urls, (b.initPrefillWorkerUrls urls).charsPerUrl.lookup u = some 0 := by
  have hzero : ∀ u ∈ urls,
      (urls.foldl (fun chars url => put url 0 chars) []).lookup u = some 0 := by
    intro u hu
    rw [lookup_zeros, if_pos hu]
  rw [Bucket.initPrefillWorkerUrls]
  split <;> exact ⟨rfl, rfl, rfl, rfl, hzero⟩

/-- Workers that start from zero agree with the window exactly if they have nothing in it. -/
theorem Accounted.idle {urls : List Url} (h : Accounted (b.initPrefillWorkerUrls urls)) :
    ∀ u ∈ urls, weightAt u b.requestList = 0 := by
  obtain ⟨hurls, hlist, -, -, hzero⟩ := init_records b urls
  intro u hu
  have := h.chars u (hurls.symm ▸ hu)
  rw [hzero u hu, hlist] at this
  exact (Option.some.inj this).symm

theorem Ledger.init (h : Ledger b) {urls : List Url}
    (hidle : ∀ u ∈ urls, weightAt u b.requestList = 0) : Ledger (b.initPrefillWorkerUrls urls) := by
  obtain ⟨hurls, hlist, hloads, htotal, hzero⟩ := init_records b urls
  refine ⟨⟨?_, ?_, fun u hu => ?_⟩, ?_⟩
  · rw [hloads, hlist, h.mirrored.loads]
  · rw [hlist]
    exact h.mirrored.ids
  · rw [hurls] at hu
    rw [hzero u hu, hlist, hidle u hu]
  · rw [htotal, hlist, h.total]

/-- The new list of workers of `add_prefill_url`. -/
theorem mem_added {url u : Url} : (u ∈ if url ∈ b.prefillWorkerUrls then b.prefillWorkerUrls
    else b.prefillWorkerUrls ++ [url]) ↔ u = url ∨ u ∈ b.prefillWorkerUrls := by
  split
  · next hmem => exact ⟨Or.inr, fun h => h.elim (fun h => h ▸ hmem) id⟩
  · rw [mem_append, mem_singleton, or_comm]

/-- The new list of workers of `remove_prefill_url`. -/
theorem mem_left {url u : Url} : u ∈ b.prefillWorkerUrls.filter (fun u => decide (u ≠ url)) ↔
      u ∈ b.prefillWorkerUrls ∧ u ≠ url := by
  rw [mem_filter, decide_eq_true_eq]

theorem Ledger.add (h : Ledger b) {url : Url} (hidle : StartsIdle b (.add url)) :
    Ledger (b.addPrefillUrl url) := by
  -- `init_prefill_worker_urls` does not read the fields written before it
  have hinit := Ledger.init h fun u hu => hidle u (mem_added.mp hu)
  exact ⟨⟨hinit.mirrored.loads, hinit.mirrored.ids, hinit.mirrored.chars⟩, hinit.total⟩

theorem Ledger.remove (h : Ledger b) {url : Url} (hidle : StartsIdle b (.remove url)) :
    Ledger (b.removePrefillUrl url) := by
  rw [Bucket.removePrefillUrl]
  split
  · have hinit := Ledger.init h fun u hu => hidle u (mem_left.mp hu).1 (mem_left.mp hu).2
    exact ⟨⟨hinit.mirrored.loads, hinit.mirrored.ids, hinit.mirrored.chars⟩, hinit.total⟩
  · next hnone =>
    refine ⟨⟨h.mirrored.loads, h.mirrored.ids, fun u hu => ?_⟩, h.total⟩
    exact absurd (length_pos_of_mem hu) hnone

/-- **A request enters every record**, after the expired ones have left them. -/
theorem Ledger.post (h : Ledger b) {now charCnt : Nat} {id : Str} {url : Url}
    (hpost : Postable b (.post now id charCnt url)) :
    Ledger (b.postProcessRequest now id charCnt url) := by
  obtain ⟨hfresh, hfits⟩ := hpost
  obtain ⟨hm, hsuffix, hsum, htotal⟩ := (h.mirrored.announce hfits).expire now 0 (by omega)
  have hold := hsuffix.map SequencerRequest.id
  rw [Bucket.postProcessRequest]
  refine ⟨hm.enter now _ fun hid => hfresh (hold.subset hid), ?_⟩
  have hb := h.total
  simp only [weight_snoc, htotal]
  omega

/-- A worker that has a count keeps it. -/
theorem lookup_orInserts (urls : List Url) (chars : List (Url × Nat)) {u : Url} {n : Nat}
    (h : chars.lookup u = some n) :
    (urls.foldl (fun chars url => orInsert url 0 chars) chars).lookup u = some n := by
  induction urls generalizing chars with
  | nil => exact h
  | cons url urls ih =>
    refine ih _ ?_
    rw [lookup_orInsert]
    split
    · next hu => rw [← hu, h, Option.getD_some]
    · exact h

theorem Ledger.updateWorkersCnt (h : Ledger b) : Ledger b.updateWorkersCnt := by
  refine ⟨⟨h.mirrored.loads, h.mirrored.ids, fun u hu => ?_⟩, h.total⟩
  have hkept := lookup_orInserts b.prefillWorkerUrls b.charsPerUrl (h.mirrored.chars u hu)
  exact lookup_filter_kept hkept (decide_eq_true (Or.inl hu))

theorem Ledger.adjust (h : Ledger b) : Ledger b.adjustBoundary := by
  have hupdated := h.updateWorkersCnt
  rw [Bucket.adjustBoundary]
  split
  · exact h
  · dsimp only
    split
    · exact hupdated
    · split
      · exact hupdated
      · -- the ranges are no record of the window
        exact ⟨⟨hupdated.mirrored.loads, hupdated.mirrored.ids, hupdated.mirrored.chars⟩,
          hupdated.total⟩

/-- **One call.** -/
theorem Ledger.call (h : Ledger b) {c : Call} (hpost : Postable b c) (hidle : StartsIdle b c) :
    Ledger (b.call c) := by
  cases c with
  | init urls => exact h.init hidle
  | add url => exact h.add hidle
  | remove url => exact h.remove hidle
  | post now id charCnt url => exact h.post hpost
  | adjust => exact h.adjust

/-- A worker that starts from zero and has requests in the window is out of step with it. -/
theorem Accounted.startsIdle {c : Call} (h : Accounted (b.call c)) : StartsIdle b c := by
  cases c with
  | init urls => exact h.idle
  | add url => exact fun u hu => Accounted.idle h u (mem_added.mpr hu)
  | remove url =>
    intro u hu hne
    have hleft := mem_left.mpr ⟨hu, hne⟩
    change Accounted (b.removePrefillUrl url) at h
    rw [Bucket.removePrefillUrl, if_pos (length_pos_of_mem hleft)] at h
    exact h.idle u hleft
  | post now id charCnt url => trivial
  | adjust => trivial

end

/-! ### Runs -/

/-- **The records of the window agree in every state of a run exactly when every worker that a call
of it starts from zero has no characters in the window.** -/
theorem run_accounted_iff (period : Nat) (calls : List Call)
    (hpost : ∀ n c, calls[n]? = some c → Postable (run period (calls.take n)) c) :
    (∀ n, Accounted (run period (calls.take n))) ↔
      ∀ n c, calls[n]? = some c → StartsIdle (run period (calls.take n)) c := by
  constructor
  · intro h n c hc
    have hnext := h (n + 1)
    rw [run, Runs.fold_take_succ hc] at hnext
    exact hnext.startsIdle
  · intro hidle n
    suffices h : Ledger (run period (calls.take n)) from h.accounted
    exact Runs.fold_invariant (C := fun b c => Postable b c ∧ StartsIdle b c)
      (fun h hc => h.call hc.1 hc.2) (ledger_new period)
      fun k _ c hc => ⟨hpost k c hc, hidle k c hc⟩

/-- Two workers, and two requests; the first has left the window when the second comes. -/
def twoRequests : List Call :=
  [.init [['a'], ['b']], .post 0 ['x'] 100 ['a'], .post 2000000000 ['y'] 30 ['b'], .adjust]

theorem twoRequests_accounted :
    (run 1000 twoRequests).charsPerUrl = [(['a'], 0), (['b'], 30)] ∧
      ∀ n, Accounted (run 1000 (twoRequests.take n)) := by
  have hpost : ∀ n c, twoRequests[n]? = some c → Postable (run 1000 (twoRequests.take n)) c := by
    intro n c hc
    match n, hc with
    | 0, hc | 3, hc => cases hc; trivial
    | 1, hc => cases hc; exact ⟨by decide, by decide⟩
    | 2, hc => cases hc; exact ⟨by decide, by decide⟩
    | n + 4, hc => cases hc
  have hidle : ∀ n c, twoRequests[n]? = some c → StartsIdle (run 1000 (twoRequests.take n)) c := by
    intro n c hc
    match n, hc with
    | 0, hc => cases hc; exact fun _ _ => rfl
    | 1, hc | 2, hc | 3, hc => cases hc; trivial
    | n + 4, hc => cases hc
  exact ⟨by decide, (run_accounted_iff 1000 twoRequests hpost).mpr hidle⟩

/-- **A new worker clears the count of an old one**: the request of `a` is still in the window. -/
theorem added_worker_clears_count :
    ¬ ∀ calls, (∀ n c, calls[n]? = some c → Postable (run 1000 (calls.take n)) c) →
      Accounted (run 1000 calls) := by
  intro h
  have hpost : ∀ n c, [Call.add ['a'], .post 0 ['x'] 100 ['a'], .add ['b']][n]? = some c →
      Postable (run 1000 ([Call.add ['a'], .post 0 ['x'] 100 ['a'], .add ['b']].take n)) c := by
    intro n c hc
    match n, hc with
    | 0, hc | 2, hc => cases hc; trivial
    | 1, hc => cases hc; exact ⟨by decide, by decide⟩
    | n + 3, hc => cases hc
  exact absurd ((h _ hpost).chars ['a'] (by decide)) (by decide)

end QwenStack.BucketPolicy
