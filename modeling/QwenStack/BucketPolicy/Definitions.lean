import Mathlib.Data.List.Sort
import QwenStack.Support.Assoc
import QwenStack.Support.Utf8

/-!
# Bucket policy — Definitions

`gateway/src/policies/bucket.rs`: the prefill workers of a model share the axis of request lengths.
Each has a range of it (`Boundary`); a request goes to the worker whose range holds its length.  The
ranges are even at first, and from time to time drawn anew from the lengths seen lately.

The methods of `BucketPolicy` that add and remove a worker hold the lock of the bucket throughout, so
they are methods of the bucket here.  Machine words wrap.  Times are nanoseconds; the id of a request
is drawn by its caller.  The logs are left out.
-/

namespace QwenStack.BucketPolicy
open Assoc

abbrev Url := Str

/-- `usize::MAX`. -/
def usizeMax : Nat := 2 ^ 64 - 1

/-- `+` on `usize`. -/
def add (m n : Nat) : Nat := (m + n) % 2 ^ 64

/-- `-` on `usize`. -/
def sub (m n : Nat) : Nat := (m + 2 ^ 64 - n) % 2 ^ 64

/-- `*` on `usize`. -/
def mul (m n : Nat) : Nat := m * n % 2 ^ 64

structure SequencerRequest where
  id : Str
  charCnt : Nat
  timestamp : Nat
  prefillWorkerUrl : Url
  deriving DecidableEq, Repr

structure Boundary where
  url : Url
  range : Nat × Nat
  deriving DecidableEq, Repr

structure Bucket where
  lMax : Nat
  bucketCnt : Nat
  prefillWorkerUrls : List Url
  loadTotal : Nat
  /-- In milliseconds. -/
  period : Nat
  bucketLoad : Nat
  boundary : List Boundary
  requestList : List SequencerRequest
  tReqLoads : List (Str × Nat)
  charsPerUrl : List (Url × Nat)
  deriving DecidableEq, Repr

/-- `Bucket::new`. -/
def Bucket.new (period : Nat) : Bucket where
  lMax := 4096
  bucketCnt := 0
  prefillWorkerUrls := []
  loadTotal := 0
  period := period
  bucketLoad := 0
  boundary := []
  requestList := []
  tReqLoads := []
  charsPerUrl := []

/-! ### Workers -/

/-- The range of the `i`-th of `workerCnt` workers, `gap` apart. -/
def evenRange (gap workerCnt i : Nat) : Nat × Nat :=
  (mul i gap, if i = workerCnt - 1 then usizeMax else sub (mul (i + 1) gap) 1)

/-- `init_prefill_worker_urls`. -/
def Bucket.initPrefillWorkerUrls (b : Bucket) (prefillWorkerUrls : List Url) : Bucket :=
  let workerCnt := prefillWorkerUrls.length
  let b := { b with
    bucketCnt := workerCnt
    prefillWorkerUrls := prefillWorkerUrls
    charsPerUrl := prefillWorkerUrls.foldl (fun chars url => put url 0 chars) [] }
  if workerCnt = 0 then { b with boundary := [] }
  else
    let gap := b.lMax / workerCnt
    { b with
      lMax := usizeMax
      boundary := prefillWorkerUrls.zipIdx.map fun e => ⟨e.1, evenRange gap workerCnt e.2⟩ }

/-- `add_prefill_url`. -/
def Bucket.addPrefillUrl (b : Bucket) (workerUrl : Url) : Bucket :=
  let urls := if workerUrl ∈ b.prefillWorkerUrls then b.prefillWorkerUrls
    else b.prefillWorkerUrls ++ [workerUrl]
  let b := { b with
    prefillWorkerUrls := urls
    charsPerUrl := orInsert workerUrl 0 b.charsPerUrl }
  b.initPrefillWorkerUrls urls

/-- `remove_prefill_url`. -/
def Bucket.removePrefillUrl (b : Bucket) (workerUrl : Url) : Bucket :=
  let urls := b.prefillWorkerUrls.filter fun u => decide (u ≠ workerUrl)
  let b := { b with
    prefillWorkerUrls := urls
    charsPerUrl := del workerUrl b.charsPerUrl
    bucketCnt := urls.length }
  if 0 < urls.length then b.initPrefillWorkerUrls urls else b

/-! ### Requests -/

/-- The request has left the window, or comes from the future. -/
def SequencerRequest.expired (r : SequencerRequest) (now period : Nat) : Bool :=
  if r.timestamp ≤ now then decide (period * 10 ^ 6 < now - r.timestamp) else true

/-- The loop over the expired requests; `removedLoad` is what they weigh. -/
def Bucket.expire (b : Bucket) (now : Nat) : List SequencerRequest → Nat → Bucket × Nat
  | [], removedLoad => ({ b with requestList := [] }, removedLoad)
  | r :: rest, removedLoad =>
      if r.expired now b.period = true then
        Bucket.expire
          { b with
            tReqLoads := del r.id b.tReqLoads
            charsPerUrl := andModify r.prefillWorkerUrl (· - r.charCnt) b.charsPerUrl }
          now rest (add removedLoad r.charCnt)
      else ({ b with requestList := r :: rest }, removedLoad)

/-- `post_process_request`. -/
def Bucket.postProcessRequest (b : Bucket) (now : Nat) (id : Str) (charCnt : Nat)
    (prefillUrl : Url) : Bucket :=
  let b := { b with charsPerUrl := upsert prefillUrl (add · charCnt) charCnt b.charsPerUrl }
  let (b, removedLoad) := b.expire now b.requestList 0
  { b with
    tReqLoads := put id charCnt b.tReqLoads
    requestList := b.requestList ++ [⟨id, charCnt, now, prefillUrl⟩]
    loadTotal := min (b.loadTotal - removedLoad + charCnt) usizeMax }

/-- The loop of `find_boundary`. -/
def Bucket.findBoundaryIn (b : Bucket) (charCount left right : Nat) : Option Url :=
  if left < right then
    let mid := left + (right - left) / 2
    match b.boundary[mid]? with
    | none => none
    | some e =>
        if charCount < e.range.1 then b.findBoundaryIn charCount left mid
        else if e.range.2 < charCount then b.findBoundaryIn charCount (mid + 1) right
        else some e.url
  else none
  termination_by right - left

/-- `find_boundary`. -/
def Bucket.findBoundary (b : Bucket) (charCount : Nat) : Option Url :=
  b.findBoundaryIn charCount 0 b.boundary.length

/-! ### New boundaries -/

/-- `update_workers_cnt`. -/
def Bucket.updateWorkersCnt (b : Bucket) : Bucket :=
  let chars := b.prefillWorkerUrls.foldl (fun chars url => orInsert url 0 chars) b.charsPerUrl
  { b with
    bucketCnt := b.prefillWorkerUrls.length
    charsPerUrl := chars.filter fun e => decide (e.1 ∈ b.prefillWorkerUrls ∨ e.2 ≠ 0) }

/-- Adds up loads until they reach a bucket's load: the last load added, and those left. -/
def accumulate (singleBucketLoad : Nat) : Nat → List Nat → Option (Nat × List Nat)
  | _, [] => none
  | loadAccumulator, load :: loads =>
      if singleBucketLoad ≤ add loadAccumulator load then some (load, loads)
      else accumulate singleBucketLoad (add loadAccumulator load) loads

/-- The sweep over the workers.  `loads` are the sorted loads from `last_load_index` on. -/
def sweep (singleBucketLoad : Nat) : List Url → Nat → List Nat → List Boundary
  | [], _, _ => []
  | url :: urls, upperBound, loads =>
      if loads = [] ∧ urls = [] then [⟨url, (upperBound, usizeMax)⟩]
      else
        match accumulate singleBucketLoad 0 loads with
        | some (load, loads) =>
            if urls = [] then [⟨url, (upperBound, usizeMax)⟩]
            else
              let realLoad := add upperBound singleBucketLoad
              if load ≤ upperBound then
                ⟨url, (upperBound, realLoad)⟩ :: sweep singleBucketLoad urls (add realLoad 1) loads
              else ⟨url, (upperBound, load)⟩ :: sweep singleBucketLoad urls (add load 1) loads
        | none =>
            if urls = [] then [⟨url, (upperBound, usizeMax)⟩]
            else
              let rightBoundValue := add upperBound singleBucketLoad
              ⟨url, (upperBound, rightBoundValue)⟩ ::
                sweep singleBucketLoad urls (add rightBoundValue 1) []

/-- `adjust_boundary`. -/
def Bucket.adjustBoundary (b : Bucket) : Bucket :=
  if b.tReqLoads = [] then b
  else
    let b := b.updateWorkersCnt
    if b.bucketCnt = 0 then b
    else
      let newSingle := b.loadTotal / b.bucketCnt
      let oldSingle := b.bucketLoad
      if newSingle ≤ mul 2 oldSingle ∧ oldSingle ≤ mul 2 newSingle ∧ oldSingle ≠ 0 then b
      else
        let histLoad := (b.tReqLoads.map Prod.snd).insertionSort (· ≤ ·)
        { b with
          bucketLoad := newSingle
          boundary := sweep newSingle b.prefillWorkerUrls 0 histLoad }

/-! ### Calls -/

/-- A call on the bucket. -/
inductive Call where
  | init (urls : List Url)
  | add (url : Url)
  | remove (url : Url)
  | post (now : Nat) (id : Str) (charCnt : Nat) (url : Url)
  | adjust
  deriving DecidableEq, Repr

def Bucket.call (b : Bucket) : Call → Bucket
  | .init urls => b.initPrefillWorkerUrls urls
  | .add url => b.addPrefillUrl url
  | .remove url => b.removePrefillUrl url
  | .post now id charCnt url => b.postProcessRequest now id charCnt url
  | .adjust => b.adjustBoundary

/-- The bucket after some calls. -/
def run (period : Nat) (calls : List Call) : Bucket := calls.foldl Bucket.call (Bucket.new period)

end QwenStack.BucketPolicy
