import QwenStack.Registry.Routing
import QwenStack.Workflows.Definitions

/-!
# Worker workflows — the URLs of the ranks

`DPAwareWorker` and `BasicWorker` of `gateway/src/core/worker.rs`, the routers of
`gateway/src/routers/http/`, and `gateway/src/core/worker_manager.rs`: what is read of the URL of a rank, and
the URLs that are made from it.  `validate_urls` is in `gateway/src/config/validation.rs`.

Two of the readers take the rank after the last `@`, and `extract_dp_rank` wants exactly one `@`; so they
agree on a base URL without one, and on no other.  The worker manager and `proxy_get_request` do not read the
URL at all, and ask the server at the URL of the rank (`ranks_consistent`).

`url::Url::parse` is an argument.  What the requests carry besides their URL is left out.
-/

namespace QwenStack.Workflows

open List
open Registry (Url parseUsize)

/-- `url::Url::parse`: the host, or why this is no URL. -/
abbrev UrlParse := Str → Except Str (Option Str)

/-! ### The URLs that are accepted -/

/-- `ConfigError::InvalidValue`. -/
structure InvalidValue where
  field : Str
  value : Str
  reason : Str
  deriving DecidableEq, Repr

/-- `validate_urls`. -/
def validateUrls (urlParse : UrlParse) (urls : List Url) : Except InvalidValue Unit :=
  urls.forM fun url =>
    let invalid (reason : Str) : Except InvalidValue Unit := .error ⟨"worker_url".toList, url, reason⟩
    if url = [] then invalid "URL cannot be empty".toList
    else if !"http://".toList.isPrefixOf url && !"https://".toList.isPrefixOf url &&
        !"grpc://".toList.isPrefixOf url then
      invalid "URL must start with http://, https://, or grpc://".toList
    else
      match urlParse url with
      | .ok (some _) => .ok ()
      | .ok none => invalid "URL must have a valid host".toList
      | .error e => invalid ("Invalid URL format: ".toList ++ e)

/-! ### The readers -/

/-- `str::rsplit_once`. -/
def rsplitOnce (c : Char) : Str → Option (Str × Str)
  | [] => none
  | d :: s =>
      match rsplitOnce c s with
      | some (before, after) => some (d :: before, after)
      | none => if d = c then some ([], s) else none

/-- A URL without what follows its last `@`, if that is a number. -/
def stripRank (url : Url) : Url :=
  match rsplitOnce '@' url with
  | some (base, rank) => if (parseUsize rank).isSome = true then base else url
  | none => url

/-- `BasicWorker::normalised_url`. -/
def normalisedUrl (url : Url) : Url := stripRank url

/-- `metadata_url` of `parse_bootstrap_host_from_url`. -/
def metadataUrl (url : Url) : Url := stripRank url

/-- The host of `metadata_url`. -/
def bootstrapHost (urlParse : UrlParse) (metadataUrl : Url) : Str :=
  match urlParse metadataUrl with
  | .ok host => host.getD "localhost".toList
  | .error _ =>
      if "://".toList <:+: metadataUrl then "localhost".toList
      else
        match urlParse ("http://".toList ++ metadataUrl) with
        | .ok host => host.getD "localhost".toList
        | .error _ => "localhost".toList

/-- `parse_bootstrap_host_from_url`. -/
def parseBootstrapHostFromUrl (urlParse : UrlParse) (url : Url) : Str :=
  bootstrapHost urlParse (metadataUrl url)

/-- `Router::extract_dp_rank`. -/
def extractDpRank (workerUrl : Url) : Except Str (Url × Nat) :=
  match workerUrl.splitOn '@' with
  | [base, rank] =>
      match parseUsize rank with
      | some dpRank => .ok (base, dpRank)
      | none => .error ("failed to parse dp_rank from worker_url: ".toList ++ workerUrl)
  | _ => .error ("invalid worker_url format: ".toList ++ workerUrl)

/-- `Router::worker_base_url`. -/
def workerBaseUrl (dpAware : Bool) (workerUrl : Url) : Url :=
  if dpAware = true then
    match extractDpRank workerUrl with
    | .ok (base, _) => base
    | .error _ => workerUrl
  else workerUrl

/-! ### The URLs of requests -/

/-- `api_path`. -/
def apiPath (url path : Str) : Url :=
  if "/".toList.isPrefixOf path = true then url ++ path else url ++ '/' :: path

/-- What makes URLs of a `DPAwareWorker`. -/
structure DPAwareWorker where
  /-- The URL of the `BasicWorker`. -/
  url : Url
  baseUrl : Url
  bootstrapHost : Str
  deriving DecidableEq, Repr

/-- `DPAwareWorkerBuilder::build`. -/
def DPAwareWorker.build (urlParse : UrlParse) (baseUrl : Url) (dpRank : Nat) : DPAwareWorker :=
  ⟨rankUrl baseUrl dpRank, baseUrl, parseBootstrapHostFromUrl urlParse baseUrl⟩

/-- The requests that are made to a worker, by whom makes them. -/
inductive Request where
  /-- `Worker::endpoint_url`. -/
  | endpointUrl (route : Str)
  /-- `PDRouter::worker_endpoint_url`. -/
  | workerEndpointUrl (endpoint : Str)
  /-- `BasicWorker::http_health_check`. -/
  | httpHealthCheck (endpoint : Str)
  /-- `Router::route_simple_request`. -/
  | routeSimpleRequest (endpoint : Str)
  /-- `Router::send_typed_request`. -/
  | sendTypedRequest (route : Str)
  /-- `Router::proxy_get_request`. -/
  | proxyGetRequest (endpoint : Str)
  /-- `fan_out` of the worker manager. -/
  | fanOut (endpoint : Str)
  /-- `WorkerManager::parse_load_response`. -/
  | parseLoadResponse
  deriving DecidableEq, Repr

namespace Request

/-- The URL of a request to a worker, with a router that is `dp_aware`. -/
def url (w : DPAwareWorker) : Request → Except Str Url
  | endpointUrl route => .ok (w.baseUrl ++ route)
  | workerEndpointUrl endpoint => .ok (apiPath w.baseUrl endpoint)
  | httpHealthCheck endpoint => .ok (normalisedUrl w.url ++ endpoint)
  | routeSimpleRequest endpoint => .ok (workerBaseUrl true w.url ++ '/' :: endpoint)
  | sendTypedRequest route =>
      match extractDpRank w.url with
      | .ok (base, _) => .ok (base ++ route)
      | .error e => .error ("Failed to extract dp_rank: ".toList ++ e)
  | proxyGetRequest endpoint | fanOut endpoint => .ok (w.url ++ '/' :: endpoint)
  | parseLoadResponse => .ok (w.url ++ "/v1/loads?include=core".toList)

/-- What follows the URL of the server in it. -/
def path : Request → Str
  | endpointUrl route | httpHealthCheck route | sendTypedRequest route => route
  | workerEndpointUrl endpoint => apiPath [] endpoint
  | routeSimpleRequest endpoint | proxyGetRequest endpoint | fanOut endpoint => '/' :: endpoint
  | parseLoadResponse => "/v1/loads?include=core".toList

/-- The requests whose URL is made of the base URL, or of what a reader makes of the URL of the rank. -/
def strips : Request → Prop
  | proxyGetRequest _ | fanOut _ | parseLoadResponse => False
  | _ => True

end Request

/-- The readers have the base URL and the rank from the URL of the rank, and the requests go to the base
URL. -/
structure Consistent (requests : Request → Prop) (urlParse : UrlParse) (base : Url) (dpRank : Nat) :
    Prop where
  extracted : extractDpRank (rankUrl base dpRank) = .ok (base, dpRank)
  routed : workerBaseUrl true (rankUrl base dpRank) = base
  normalised : normalisedUrl (rankUrl base dpRank) = base
  metadata : metadataUrl (rankUrl base dpRank) = base
  hosts : parseBootstrapHostFromUrl urlParse (rankUrl base dpRank) = bootstrapHost urlParse base ∧
    (DPAwareWorker.build urlParse base dpRank).bootstrapHost = bootstrapHost urlParse base
  based : ∀ request, requests request →
    request.url (.build urlParse base dpRank) = .ok (base ++ request.path)

/-! ### The digits of a rank -/

theorem digit_of_rank {c : Char} {n : Nat} (h : c ∈ Nat.toDigits 10 n) : c.isDigit = true :=
  Nat.isDigit_of_mem_toDigits (by decide) (Nat.le_refl 10) h

theorem at_not_mem_toDigits (n : Nat) : '@' ∉ Nat.toDigits 10 n := by
  intro h
  exact absurd (digit_of_rank h) (by decide)

theorem parseUsize_digits {digits : Str} (hne : digits ≠ []) (h : ∀ c ∈ digits, c.isDigit = true) :
    parseUsize digits = if Nat.ofDigitChars 10 digits 0 < 2 ^ 64 then
      some (Nat.ofDigitChars 10 digits 0) else none := by
  cases digits with
  | nil => exact absurd rfl hne
  | cons c digits =>
    have hplus : c ≠ '+' := by
      rintro rfl
      exact absurd (h '+' (mem_cons_self ..)) (by decide)
    have hall : (c :: digits).all Char.isDigit = true := List.all_eq_true.mpr h
    simp [parseUsize, hplus, hall, Nat.ofDigitChars]

theorem parseUsize_toDigits (rank : UInt64) :
    parseUsize (Nat.toDigits 10 rank.toNat) = some rank.toNat := by
  have hlt : rank.toNat < 2 ^ 64 := rank.toNat_lt
  rw [parseUsize_digits Nat.toDigits_ne_nil fun c hc => digit_of_rank hc,
    Nat.ofDigitChars_ten_toDigits, if_pos hlt]

/-! ### The readers at the URL of a rank -/

theorem rsplitOnce_none {c : Char} {s : Str} (h : c ∉ s) : rsplitOnce c s = none := by
  induction s with
  | nil => rfl
  | cons d s ih =>
    obtain ⟨hd, hs⟩ := not_or.mp (mt List.mem_cons.mpr h)
    rw [rsplitOnce, ih hs]
    exact if_neg (Ne.symm hd)

/-- A text is split at its last separator. -/
theorem rsplitOnce_append {c : Char} {after : Str} (h : c ∉ after) (before : Str) :
    rsplitOnce c (before ++ c :: after) = some (before, after) := by
  induction before with
  | nil =>
    rw [nil_append, rsplitOnce, rsplitOnce_none h]
    exact if_pos rfl
  | cons d before ih => rw [cons_append, rsplitOnce, ih]

/-- Whatever the base URL. -/
theorem stripRank_rankUrl (base : Url) (rank : UInt64) : stripRank (rankUrl base rank.toNat) = base := by
  rw [stripRank, rankUrl, rsplitOnce_append (at_not_mem_toDigits _)]
  exact if_pos (by rw [parseUsize_toDigits]; rfl)

theorem splitOn_rankUrl (base : Url) (dpRank : Nat) :
    (rankUrl base dpRank).splitOn '@' = base.splitOn '@' ++ [Nat.toDigits 10 dpRank] := by
  rw [rankUrl, splitOn_append_cons_self, splitOn_eq_singleton (at_not_mem_toDigits _)]

theorem splitOn_eq_singleton_iff {base : Url} : base.splitOn '@' = [base] ↔ '@' ∉ base := by
  constructor
  · intro hsplit hat
    obtain ⟨before, after, rfl⟩ := append_of_mem hat
    have hlen := congrArg List.length hsplit
    rw [splitOn_append_cons_self, length_append, length_singleton] at hlen
    have hbefore := List.length_pos_iff.mpr (splitOn_ne_nil '@' before)
    have hafter := List.length_pos_iff.mpr (splitOn_ne_nil '@' after)
    omega
  · exact splitOn_eq_singleton

/-- The routers read the rank if the base URL has no `@`. -/
theorem extractDpRank_iff {base : Url} {rank : UInt64} :
    extractDpRank (rankUrl base rank.toNat) = .ok (base, rank.toNat) ↔ '@' ∉ base := by
  rw [← splitOn_eq_singleton_iff, extractDpRank, splitOn_rankUrl]
  constructor
  · intro h
    split at h
    · next first last hparts =>
      have hfirst : base.splitOn '@' = [first] :=
        (append_inj' (hparts.trans (singleton_append (l := [last])).symm) rfl).1
      split at h
      · rw [hfirst, (Prod.mk.inj (Except.ok.inj h)).1]
      · cases h
    · cases h
  · intro hsplit
    rw [hsplit, singleton_append]
    simp only [parseUsize_toDigits]

/-! ### The requests -/

theorem apiPath_append (base path : Str) : apiPath base path = base ++ apiPath [] path := by
  rw [apiPath, apiPath]
  split <;> rfl

section
variable {urlParse : UrlParse} {base : Url} {rank : UInt64}

theorem strips_based (h : extractDpRank (rankUrl base rank.toNat) = .ok (base, rank.toNat))
    {request : Request} (hstrips : request.strips) :
    request.url (.build urlParse base rank.toNat) = .ok (base ++ request.path) := by
  cases request with
  | endpointUrl route => rfl
  | workerEndpointUrl endpoint => exact congrArg Except.ok (apiPath_append base endpoint)
  | httpHealthCheck endpoint => exact congrArg (Except.ok <| · ++ endpoint) (stripRank_rankUrl base rank)
  | routeSimpleRequest endpoint =>
    simp only [Request.url, DPAwareWorker.build, workerBaseUrl, h]
    rfl
  | sendTypedRequest route =>
    simp only [Request.url, DPAwareWorker.build, h]
    rfl
  | proxyGetRequest | fanOut | parseLoadResponse => exact hstrips.elim

/-- The worker manager asks at the URL of the rank. -/
theorem fanOut_not_based (endpoint : Str) : (Request.fanOut endpoint).url
    (.build urlParse base rank.toNat) ≠ .ok (base ++ (Request.fanOut endpoint).path) := by
  intro h
  have hurl : rankUrl base rank.toNat ++ '/' :: endpoint = base ++ '/' :: endpoint := Except.ok.inj h
  rw [rankUrl, append_assoc, append_cancel_left_eq, cons_append] at hurl
  exact absurd (List.cons.inj hurl).1 (by decide)

theorem consistent_of_extracted (h : '@' ∉ base) :
    Consistent Request.strips urlParse base rank.toNat where
  extracted := extractDpRank_iff.mpr h
  routed := by
    rw [workerBaseUrl, extractDpRank_iff.mpr h]
    exact if_pos rfl
  normalised := stripRank_rankUrl base rank
  metadata := stripRank_rankUrl base rank
  hosts := by
    have hbase : metadataUrl base = base := by rw [metadataUrl, stripRank, rsplitOnce_none h]
    exact ⟨congrArg (bootstrapHost urlParse) (stripRank_rankUrl base rank),
      congrArg (bootstrapHost urlParse) hbase⟩
  based _ := strips_based (extractDpRank_iff.mpr h)

end

/-- **The readers of the URL of a rank, and the requests.**  The four readers agree, and the requests whose
URL is made of what they read go to the base URL, exactly if the base URL has no `@`.  Never do all
requests go to it: those of the worker manager go to the URL of the rank. -/
theorem ranks_consistent (urlParse : UrlParse) (base : Url) (rank : UInt64) :
    (Consistent Request.strips urlParse base rank.toNat ↔ '@' ∉ base) ∧
      ¬ Consistent (fun _ => True) urlParse base rank.toNat :=
  ⟨⟨fun h => extractDpRank_iff.mp h.extracted, consistent_of_extracted⟩,
    fun h => fanOut_not_based [] (h.based (.fanOut []) trivial)⟩

/-- Two servers that are accepted.  The cache of the first is flushed at its rank 1, and of the second, which
has a user, no rank is read. -/
theorem worker_flushed_at_rank : ∃ urlParse,
    validateUrls urlParse ["http://worker1:8080".toList, "http://user@worker2:8080".toList] = .ok () ∧
      ¬ Consistent (fun _ => True) urlParse "http://worker1:8080".toList 1 ∧
      ¬ Consistent (fun _ => True) urlParse "http://user@worker2:8080".toList 1 ∧
      (Request.fanOut "flush_cache".toList).url (.build urlParse "http://worker1:8080".toList 1) =
        .ok "http://worker1:8080@1/flush_cache".toList ∧
      extractDpRank (rankUrl "http://user@worker2:8080".toList 1) =
        .error "invalid worker_url format: http://user@worker2:8080@1".toList := by
  let urlParse : UrlParse := fun url =>
    if url = "http://worker1:8080".toList then .ok (some "worker1".toList)
    else if url = "http://user@worker2:8080".toList then .ok (some "worker2".toList)
    else .error "relative URL without a base".toList
  have hlost : ∀ base, ¬ Consistent (fun _ => True) urlParse base 1 := fun base h =>
    @fanOut_not_based urlParse base 1 [] (h.based (.fanOut []) trivial)
  exact ⟨urlParse, by decide +kernel, hlost _, hlost _, by decide +kernel, by decide +kernel⟩

end QwenStack.Workflows
