import QwenStack.Support.Value

/-!
# Conversation items — Definitions

`gateway/src/routers/persistence_utils.rs`: an item of a request or of its response goes to the item
storage (`create_and_link_item`), and an item that is read back becomes JSON again (`item_to_json`).

An item is what `serde_json::to_value` makes of it.  The storage is a parameter.  Times and log lines are
left out.
-/

namespace QwenStack.Items
open Value

/-- `ITEM_TYPE_FIELDS`. -/
def itemTypeFields : List (Str × List Str) :=
  [("mcp_call".toList, ["name".toList, "arguments".toList, "output".toList, "server_label".toList,
      "approval_request_id".toList, "error".toList]),
    ("mcp_list_tools".toList, ["tools".toList, "server_label".toList]),
    ("function_call".toList, ["call_id".toList, "name".toList, "arguments".toList, "output".toList]),
    ("function_call_output".toList, ["call_id".toList, "output".toList])]

/-- `NewConversationItem`. -/
structure NewConversationItem where
  id : Option Str
  responseId : Option Str
  itemType : Str
  role : Option Str
  content : Value
  status : Option Str

/-- `ConversationItem`. -/
structure ConversationItem where
  id : Str
  responseId : Option Str
  itemType : Str
  role : Option Str
  content : Value
  status : Option Str

/-- `get_string`. -/
def getString (json : Value) (key : String) : Option Str := (json.get key.toList).bind asStr

/-! ### Reading -/

/-- The member is set where there is a value. -/
def insertSome (key : Str) (value : Option Value) (obj : Value) : Value :=
  match value with
  | some v => obj.insert key v
  | none => obj

/-- The fields that the content has; a content that is no object has none. -/
def copyFields (content : Value) (fields : List Str) (obj : Value) : Value :=
  fields.foldl (fun obj field => insertSome field (content.get field) obj) obj

/-- The fields of the type, or the content as it is. -/
def insertContent (itemType : Str) (content obj : Value) : Value :=
  match itemTypeFields.lookup itemType with
  | some fields => copyFields content fields obj
  | none => obj.insert "content".toList content

/-- `item_to_json`. -/
def itemToJson (item : ConversationItem) : Value :=
  let obj := (object []).insert "id".toList (string item.id)
  let obj := obj.insert "type".toList (string item.itemType)
  let obj := insertSome "role".toList (item.role.map string) obj
  let obj := insertContent item.itemType item.content obj
  insertSome "status".toList (item.status.map string) obj

/-! ### Writing -/

/-- `store_whole_item`. -/
def storeWholeItem (isInput : Bool) (itemType : Str) : Bool :=
  if isInput then itemType = "function_call".toList || itemType = "function_call_output".toList
  else itemType ≠ "message".toList

/-- `item_to_new_conversation_item`. -/
def itemToNewConversationItem (itemValue : Value) (responseId : Option Str) (isInput : Bool) :
    NewConversationItem :=
  let itemType := (getString itemValue "type").getD "message".toList
  { id := getString itemValue "id"
    responseId
    itemType
    role := getString itemValue "role"
    content :=
      if storeWholeItem isInput itemType then itemValue
      else (itemValue.get "content".toList).getD (array [])
    status := getString itemValue "status" }

/-! ### The storage -/

/-- `ConversationItemStorage`, over the states of a storage. -/
structure ItemStorage (σ : Type*) where
  createItem : σ → NewConversationItem → Except Str (σ × ConversationItem)
  linkItem : σ → Str → Str → Except Str σ
  getItem : σ → Str → Option ConversationItem

/-- The status of a new item. -/
def withDefaultStatus (newItem : NewConversationItem) : NewConversationItem :=
  { newItem with status := some (newItem.status.getD "completed".toList) }

/-- `create_and_link_item`. -/
def createAndLinkItem {σ : Type*} (storage : ItemStorage σ) (s : σ) (convId : Option Str)
    (newItem : NewConversationItem) : Except Str σ :=
  match storage.createItem s (withDefaultStatus newItem) with
  | .error e => .error ("Failed to create item: ".toList ++ e)
  | .ok (s, created) =>
      match convId with
      | none => .ok s
      | some convId =>
          match storage.linkItem s convId created.id with
          | .error e => .error ("Failed to link item: ".toList ++ e)
          | .ok s => .ok s

end QwenStack.Items
