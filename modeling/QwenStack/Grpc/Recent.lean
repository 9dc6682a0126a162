import Mathlib.Data.List.DropRight
import QwenStack.Grpc.Memory

/-!
# Responses over chat — the history that is loaded

`gateway/src/routers/grpc/regular/responses/common.rs`: `load_conversation_history` asks for one page of
the items of a conversation, a hundred in the order of their creation.  The storage of the items is defined
in another crate and is a parameter, with what its pages are (`PagedStorage.Pages`).

`loadsRecent_iff`: the last hundred messages of a conversation are loaded exactly if no message stands after
its first hundred items.
-/

namespace QwenStack.Grpc

open List

inductive SortOrder where
  | asc | desc
  deriving DecidableEq, Repr

structure ListParams where
  limit : Nat
  order : SortOrder
  after : Option Str

/-- The storages that are read, one of them in pages. -/
structure PagedStorage where
  getResponseChain : Str → Except Str (List StoredResponse)
  getConversation : Str → Except Str Bool
  listItems : Str → ListParams → Except Str (List StoredItem)

def maxConversationHistoryItems : Nat := 100

/-- The page that is asked for. -/
def historyParams : ListParams where
  limit := maxConversationHistoryItems
  order := .asc
  after := none

/-- The storages, read as they are for a history. -/
def PagedStorage.history (storage : PagedStorage) : Storage where
  getResponseChain := storage.getResponseChain
  getConversation := storage.getConversation
  listItems convId := storage.listItems convId historyParams

theorem PagedStorage.getResponseChain_history (storage : PagedStorage) :
    storage.history.getResponseChain = storage.getResponseChain := rfl

/-- The items of every conversation in the order of their creation. -/
structure StoredItems where
  items : Str → List StoredItem
  distinct : ∀ convId, ((items convId).map StoredItem.id).Nodup

/-- Without a cursor the items that were created first are listed. -/
def PagedStorage.Pages (storage : PagedStorage) (stored : StoredItems) : Prop :=
  ∀ convId limit, storage.listItems convId ⟨limit, .asc, none⟩ = .ok ((stored.items convId).take limit)

/-- The messages of a conversation that can be read. -/
def StoredItems.messages (stored : StoredItems) (codec : Codec) (convId : Str) : List InputItem :=
  (stored.items convId).filterMap (storedMessage codec)

/-- The items of the previous responses of a request. -/
def storedChain (codec : Codec) (storage : PagedStorage) (request : ResponsesRequest) : List InputItem :=
  match request.previousResponseId with
  | none => []
  | some prevIdStr =>
      match storage.getResponseChain prevIdStr with
      | .ok responses => chainItems codec responses
      | .error _ => []

/-- **The property**: the chain comes first, then the last hundred messages, then the current input; the
latest message is among them. -/
structure LoadsRecent (codec : Codec) (storage : PagedStorage) (stored : StoredItems) (convId : Str)
    (request modifiedRequest : ResponsesRequest) : Prop where
  input : modifiedRequest.input = .items (storedChain codec storage request ++
    (stored.messages codec convId).rtake maxConversationHistoryItems ++
    currentItems codec ("msg_u_".toList ++ convId) request.input)
  latest : ∀ item, (stored.messages codec convId).getLast? = some item → item ∈ modifiedRequest.input.list

/-! ### The first and the last -/

/-- What the first `n` of a list give is the last `n` of what the list gives only if the others give
nothing. -/
theorem filterMap_take_eq_rtake_iff {α β : Type*} {f : α → Option β} {l : List α}
    (hnodup : (l.filterMap f).Nodup) {n : Nat} (hn : 0 < n) :
    (l.take n).filterMap f = (l.filterMap f).rtake n ↔ (l.drop n).filterMap f = [] := by
  have hsplit : l.filterMap f = (l.take n).filterMap f ++ (l.drop n).filterMap f := by
    rw [← filterMap_append, take_append_drop]
  have hlength : ((l.take n).filterMap f).length ≤ n :=
    (length_filterMap_le f _).trans (length_take_le n l)
  rw [hsplit] at hnodup ⊢
  generalize (l.take n).filterMap f = first at hlength hnodup ⊢
  constructor
  · intro heq
    rcases eq_nil_or_concat' ((l.drop n).filterMap f) with hnil | ⟨rest, last, hlast⟩
    · exact hnil
    · obtain ⟨n, rfl⟩ := Nat.exists_eq_succ_of_ne_zero (Nat.pos_iff_ne_zero.mp hn)
      rw [hlast] at heq hnodup
      rw [← append_assoc, rtake_concat_succ] at heq
      have hmem : last ∈ first := heq ▸ mem_append_right _ (mem_singleton_self last)
      exact absurd rfl ((List.nodup_append.mp hnodup).2.2 last hmem last
        (mem_append_right _ (mem_singleton_self last)))
  · intro hnil
    rw [hnil, append_nil, List.rtake, Nat.sub_eq_zero_of_le hlength, drop_zero]

/-- Messages of items with distinct ids are distinct. -/
theorem StoredItems.nodup_messages (stored : StoredItems) (codec : Codec) (convId : Str) :
    (stored.messages codec convId).Nodup := by
  have hid : ∀ stored item, storedMessage codec stored = some item →
      ∃ role content status, item = .message stored.id role content status := by
    intro stored item hitem
    unfold storedMessage at hitem
    split at hitem
    · obtain ⟨contentParts, -, rfl⟩ := Option.map_eq_some_iff.mp hitem
      exact ⟨_, _, _, rfl⟩
    · cases hitem
  refine List.Pairwise.filterMap _ ?_ (List.pairwise_map.mp (stored.distinct convId))
  intro a a' hne b hb b' hb' heq
  obtain ⟨role, content, status, rfl⟩ := hid a b hb
  obtain ⟨role', content', status', rfl⟩ := hid a' b' hb'
  exact hne (InputItem.message.inj heq).1

/-! ### What is loaded -/

section Loading
variable {codec : Codec} {storage : PagedStorage} {stored : StoredItems} {convId : Str}
  {request : ResponsesRequest}

/-- The whole input: the page is the part between. -/
theorem loadConversationHistory_page (hcodec : codec.Normalizes) (hpages : storage.Pages stored)
    (hconversation : request.conversation = some convId)
    (hfound : storage.getConversation convId = .ok true) :
    ∃ modifiedRequest, loadConversationHistory codec storage.history request = .ok modifiedRequest ∧
      modifiedRequest.input = .items (storedChain codec storage request ++
        ((stored.items convId).take maxConversationHistoryItems).filterMap (storedMessage codec) ++
        currentItems codec ("msg_u_".toList ++ convId) request.input) := by
  have hpage : ∀ request' : ResponsesRequest,
      loadConversation codec storage.history (some convId) request' = .ok { request' with
        input := .items (((stored.items convId).take maxConversationHistoryItems).filterMap (storedMessage codec) ++
          currentItems codec ("msg_u_".toList ++ convId) request'.input) } := by
    intro request'
    have hitems : storage.history.listItems convId =
        .ok ((stored.items convId).take maxConversationHistoryItems) := hpages convId _
    have hfound' : storage.history.getConversation convId = .ok true := hfound
    simp only [loadConversation, hfound', hitems]
  unfold loadConversationHistory loadChain storedChain
  rw [hconversation]
  cases request.previousResponseId with
  | none =>
    dsimp only
    rw [hpage]
    exact ⟨_, rfl, rfl⟩
  | some prevIdStr =>
    dsimp only
    rw [storage.getResponseChain_history]
    cases storage.getResponseChain prevIdStr with
    | error e =>
      dsimp only
      rw [hpage]
      exact ⟨_, rfl, rfl⟩
    | ok responses =>
      rw [hpage]
      refine ⟨_, rfl, ?_⟩
      -- what was put together for the conversation is normalised once more
      rw [currentItems, map_append, normalize_stored hcodec, normalize_currentItems hcodec,
        append_assoc]

end Loading

/-- **The last hundred messages** are loaded exactly if no message stands after the first hundred items. -/
theorem loadsRecent_iff (codec : Codec) (hcodec : codec.Normalizes) (storage : PagedStorage)
    (stored : StoredItems) (hpages : storage.Pages stored) (request : ResponsesRequest) (convId : Str)
    (hconversation : request.conversation = some convId)
    (hfound : storage.getConversation convId = .ok true) :
    ∃ modifiedRequest, loadConversationHistory codec storage.history request = .ok modifiedRequest ∧
      (LoadsRecent codec storage stored convId request modifiedRequest ↔
        ((stored.items convId).drop maxConversationHistoryItems).filterMap (storedMessage codec) = []) := by
  obtain ⟨modifiedRequest, hload, hinput⟩ := loadConversationHistory_page hcodec hpages hconversation hfound
  have hrecent := filterMap_take_eq_rtake_iff (stored.nodup_messages codec convId)
    (show 0 < maxConversationHistoryItems by decide)
  refine ⟨modifiedRequest, hload, ?_⟩
  rw [← hrecent]
  constructor
  · rintro ⟨hexpected, -⟩
    rw [hinput] at hexpected
    have hsame := ResponseInput.items.inj hexpected
    rw [append_assoc, append_assoc, append_cancel_left_eq, append_cancel_right_eq] at hsame
    exact hsame
  · intro hpage
    rw [hpage] at hinput
    refine ⟨hinput, ?_⟩
    intro item hlast
    obtain ⟨before, hbefore⟩ := List.getLast?_eq_some_iff.mp hlast
    have hmem : item ∈ (stored.messages codec convId).rtake maxConversationHistoryItems := by
      rw [hbefore, maxConversationHistoryItems, rtake_concat_succ]
      exact mem_append_right _ (mem_singleton_self item)
    rw [hinput]
    exact mem_append_left _ (mem_append_right _ hmem)

/-! ### Conversations of empty messages -/

/-- A codec that reads empty messages. -/
def emptyCodec : Codec where
  inputItem _ := none
  contentParts
    | .array [] => some []
    | _ => none
  normalizeInputItem := recallCodec.normalizeInputItem

/-- The message whose id has `n` characters. -/
def emptyMessage (n : Nat) : StoredItem where
  id := List.replicate n 'x'
  itemType := "message".toList
  role := none
  content := .array []
  status := none

/-- Every conversation has the messages with ids of less than `count` characters. -/
def emptyMessages (count : Nat) : StoredItems where
  items _ := (List.range count).map emptyMessage
  distinct _ := by
    rw [map_map]
    refine List.Nodup.map ?_ nodup_range
    intro n n' heq
    simpa [emptyMessage] using congrArg List.length heq

/-- A storage of these. -/
def emptyMessageStorage (count : Nat) : PagedStorage where
  getResponseChain _ := .ok []
  getConversation _ := .ok true
  listItems convId params :=
    match params.order with
    | .asc => .ok (((emptyMessages count).items convId).take params.limit)
    | .desc => .ok (((emptyMessages count).items convId).reverse.take params.limit)

def conversationRequest : ResponsesRequest where
  input := .text "Hello".toList
  conversation := some "c".toList

theorem loadsRecent_hundred :
    ∃ modifiedRequest, loadConversationHistory emptyCodec (emptyMessageStorage 100).history
        conversationRequest = .ok modifiedRequest ∧
      LoadsRecent emptyCodec (emptyMessageStorage 100) (emptyMessages 100) "c".toList conversationRequest
        modifiedRequest := by
  obtain ⟨modifiedRequest, hload, hrecent⟩ := loadsRecent_iff emptyCodec ⟨recallCodec_normalizes.string,
    recallCodec_normalizes.array, recallCodec_normalizes.other⟩ (emptyMessageStorage 100) (emptyMessages 100)
    (fun _ _ => rfl) conversationRequest "c".toList rfl rfl
  refine ⟨modifiedRequest, hload, hrecent.mpr ?_⟩
  rw [drop_of_length_le]
  · rfl
  · simp [emptyMessages, maxConversationHistoryItems]

/-- Of a hundred and one messages the first hundred are loaded. -/
theorem latest_message_lost :
    ∃ modifiedRequest, loadConversationHistory emptyCodec (emptyMessageStorage 101).history
        conversationRequest = .ok modifiedRequest ∧
      ¬ LoadsRecent emptyCodec (emptyMessageStorage 101) (emptyMessages 101) "c".toList conversationRequest
        modifiedRequest := by
  refine ⟨_, rfl, ?_⟩
  rintro ⟨hinput, -⟩
  have hfirst := congrArg List.head? (ResponseInput.items.inj hinput)
  exact absurd hfirst (by decide)

end QwenStack.Grpc
