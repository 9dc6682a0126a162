import QwenStack.Manual.Definitions
import QwenStack.Support.Tables

/-!
# Headers — what a response keeps

`preserve_response_headers` (`gateway/src/routers/header_utils.rs`) copies the headers of an upstream
response that are not hop-by-hop.  It inserts each value under its name, and an insertion takes the place of
the values that were there: of a name that repeats, such as `Set-Cookie`, only the last value is kept
(`getAll_preserve`).
-/

namespace QwenStack.Headers
open Manual (HeaderValue)

/-- `http::HeaderMap`. -/
abbrev HeaderMap := Multimap Str HeaderValue

/-- `str::eq_ignore_ascii_case`. -/
def eqIgnoreAsciiCase (s t : Str) : Bool := s.map Char.toLower == t.map Char.toLower

/-- The headers that are not to be forwarded. -/
def hopByHop : List Str :=
  ["connection".toList, "keep-alive".toList, "proxy-authenticate".toList, "proxy-authorization".toList,
    "te".toList, "trailers".toList, "transfer-encoding".toList, "upgrade".toList,
    "content-encoding".toList, "host".toList]

/-- `should_forward_header_no_alloc`. -/
def shouldForwardHeaderNoAlloc (name : Str) : Bool := !hopByHop.any (eqIgnoreAsciiCase name)

/-- `preserve_response_headers`. -/
def preserveResponseHeaders (reqwestHeaders : HeaderMap) : HeaderMap :=
  reqwestHeaders.iter.foldl (fun headers e =>
    if shouldForwardHeaderNoAlloc e.1 = true then headers.insert e.1 e.2 else headers) Multimap.empty

/-- A name that is forwarded has the same values as before, and any other none. -/
structure Preserved (before after : HeaderMap) : Prop where
  forwarded : ∀ name, shouldForwardHeaderNoAlloc name = true → after.getAll name = before.getAll name
  dropped : ∀ name, shouldForwardHeaderNoAlloc name = false → after.getAll name = []

/-- **What is kept of a name**: its last value, if it is forwarded. -/
theorem getAll_preserve (m : HeaderMap) (name : Str) : (preserveResponseHeaders m).getAll name =
      if shouldForwardHeaderNoAlloc name = true then (m.getAll name).getLast?.toList else [] := by
  rw [preserveResponseHeaders, Multimap.getAll_foldl_insert, Multimap.getAll_empty,
    ← Multimap.iter_filter m name, List.getLast?_map]
  split
  · cases (m.iter.filter fun e => decide (e.1 = name)).getLast? <;> rfl
  · rfl

/-- The last value is all there is if there is at most one. -/
theorem getLast?_toList_eq_iff {α : Type*} {l : List α} : l.getLast?.toList = l ↔ l.length ≤ 1 := by
  cases l with
  | nil => simp
  | cons a l =>
    rw [List.getLast?_cons, Option.toList_some, List.length_cons]
    constructor
    · intro h
      exact (congrArg List.length h).ge
    · intro h
      obtain rfl := List.length_eq_zero_iff.mp (Nat.le_zero.mp (Nat.le_of_succ_le_succ h))
      rfl

/-- **When headers are forwarded without loss**: exactly if no forwarded name repeats. -/
theorem preserved_iff (m : HeaderMap) : Preserved m (preserveResponseHeaders m) ↔
    ∀ name, shouldForwardHeaderNoAlloc name = true → (m.getAll name).length ≤ 1 := by
  constructor
  · intro h name hname
    have hkept := h.forwarded name hname
    rw [getAll_preserve, if_pos hname] at hkept
    exact getLast?_toList_eq_iff.mp hkept
  · intro h
    refine ⟨fun name hname => ?_, fun name hname => ?_⟩
    · rw [getAll_preserve, if_pos hname]
      exact getLast?_toList_eq_iff.mpr (h name hname)
    · rw [getAll_preserve, if_neg (by rw [hname]; exact Bool.false_ne_true)]

/-- Two cookies. -/
def twoCookies : HeaderMap where
  entries := [("set-cookie".toList, ["a=1".toUTF8.toList, "b=2".toUTF8.toList])]
  nodup := List.nodup_singleton _
  nonempty := fun e he => by
    obtain rfl := List.mem_singleton.mp he
    exact List.cons_ne_nil _ _

/-- The first is lost. -/
theorem first_cookie_lost :
    (preserveResponseHeaders twoCookies).getAll "set-cookie".toList = ["b=2".toUTF8.toList] ∧
      ¬ Preserved twoCookies (preserveResponseHeaders twoCookies) := by
  refine ⟨by decide +kernel, fun h => ?_⟩
  have hkept := h.forwarded "set-cookie".toList (by decide +kernel)
  revert hkept
  decide +kernel

end QwenStack.Headers
