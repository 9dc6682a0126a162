import QwenStack.Items.Definitions

/-!
# Conversation items — what survives the storage

`SameMembers` is equality of objects, whatever the order of their members.  `get_itemToJson` is each
member of an item that is read, `get_completed` each member of the item that was stored, with its status.
They are the same exactly for the items that are `Kept` (`itemToJson_stored_iff`), so an item survives
a storage that returns what it was given exactly if it is one of those (`item_survives_iff`).

Reading and writing part over `reasoning`: no table lists its fields.  An output item of the type is
written whole and read as its content, so none survives (`not_kept_output`).
-/

namespace QwenStack.Items
open Value Assoc List

/-! ### Objects by their members -/

/-- Two objects with the same members. -/
def SameMembers (a b : Value) : Prop :=
  a.isObject = true ∧ b.isObject = true ∧ ∀ key, a.get key = b.get key

/-- The object has no other members. -/
def OnlyMembers (names : List Str) (v : Value) : Prop := ∀ key, key ∉ names → v.get key = none

theorem isObject_insertSome (key : Str) (o : Option Value) (obj : Value) :
    (insertSome key o obj).isObject = obj.isObject := by
  cases o <;> simp [insertSome]

theorem get_insert {obj : Value} (h : obj.isObject = true) (key key' : Str) (v : Value) :
    (obj.insert key v).get key' = if key' = key then some v else obj.get key' := by
  split
  · rename_i heq
    rw [heq, get_insert_self v h]
  · rename_i hne
    rw [get_insert_of_ne v obj hne]

theorem get_insertSome {obj : Value} (h : obj.isObject = true) (key key' : Str) (o : Option Value) :
    (insertSome key o obj).get key' = if key' = key then o.or (obj.get key') else obj.get key' := by
  cases o with
  | none => simp [insertSome]
  | some v => simp [insertSome, get_insert h]

theorem isObject_copyFields (content : Value) (fields : List Str) (obj : Value) :
    (copyFields content fields obj).isObject = obj.isObject := by
  induction fields generalizing obj with
  | nil => rfl
  | cons field fields ih =>
    rw [copyFields, foldl_cons, ← copyFields, ih, isObject_insertSome]

theorem get_copyFields (content : Value) (fields : List Str) {obj : Value}
    (h : obj.isObject = true) (key : Str) :
    (copyFields content fields obj).get key =
      if key ∈ fields then (content.get key).or (obj.get key) else obj.get key := by
  induction fields generalizing obj with
  | nil => simp [copyFields]
  | cons field fields ih =>
    have hobj : (insertSome field (content.get field) obj).isObject = true :=
      (isObject_insertSome _ _ _).trans h
    rw [copyFields, foldl_cons, ← copyFields, ih hobj, get_insertSome h]
    by_cases heq : key = field
    · subst heq
      cases content.get key <;> simp
    · simp [heq]

theorem getString_eq_some {v : Value} {key : String} {s : Str} :
    getString v key = some s ↔ v.get key.toList = some (string s) := by
  rw [getString, Option.bind_eq_some_iff]
  constructor
  · rintro ⟨w, hw, hs⟩
    cases w with
    | string s' =>
      cases hs
      exact hw
    | _ => cases hs
  · intro h
    exact ⟨_, h, rfl⟩

/-- A member is smaller than its object. -/
theorem sizeOf_get {v w : Value} {key : Str} (h : v.get key = some w) : sizeOf w < sizeOf v := by
  cases v with
  | object entries =>
    have hmem := sizeOf_lt_of_mem (mem_of_lookup h)
    simp only [Prod.mk.sizeOf_spec] at hmem
    simp only [object.sizeOf_spec]
    omega
  | _ => cases h

/-! ### The members of an item -/

/-- The members that are columns of the storage. -/
def columns : List Str := ["id".toList, "type".toList, "role".toList, "status".toList]

/-- The members that come from the stored content. -/
def contentMember (itemType : Str) (content : Value) (key : Str) : Option Value :=
  match itemTypeFields.lookup itemType with
  | some fields => if key ∈ fields then content.get key else none
  | none => if key = "content".toList then some content else none

/-- No field of the table is a column, or the content. -/
theorem fields_apart : ∀ e ∈ itemTypeFields, ∀ key ∈ e.2,
    key ∉ columns ∧ key ≠ "content".toList := by
  decide

theorem contentMember_columns {key : Str} (h : key ∈ columns) (itemType : Str) (content : Value) :
    contentMember itemType content key = none := by
  rw [contentMember]
  cases hl : itemTypeFields.lookup itemType with
  | some fields =>
    have hne : key ∉ fields := fun hm => (fields_apart _ (mem_of_lookup hl) key hm).1 h
    simp only [if_neg hne]
  | none =>
    have hne : key ≠ "content".toList := by
      rintro rfl
      exact absurd h (by decide)
    simp only [if_neg hne]

theorem isObject_insertContent (itemType : Str) (content obj : Value) :
    (insertContent itemType content obj).isObject = obj.isObject := by
  rw [insertContent]
  cases itemTypeFields.lookup itemType with
  | some fields => exact isObject_copyFields _ _ _
  | none => exact isObject_insert _ _ _

theorem get_insertContent (itemType : Str) (content : Value) {obj : Value}
    (h : obj.isObject = true) (key : Str) :
    (insertContent itemType content obj).get key =
      (contentMember itemType content key).or (obj.get key) := by
  rw [insertContent, contentMember]
  cases itemTypeFields.lookup itemType with
  | some fields =>
    simp only [get_copyFields content fields h]
    split <;> simp
  | none =>
    simp only [get_insert h]
    split <;> simp

/-- **The members of an item that is read.** -/
theorem get_itemToJson (item : ConversationItem) (key : Str) : (itemToJson item).get key =
      if key = "id".toList then some (string item.id)
      else if key = "type".toList then some (string item.itemType)
      else if key = "role".toList then item.role.map string
      else if key = "status".toList then item.status.map string
      else contentMember item.itemType item.content key := by
  set obj := insertSome "role".toList (item.role.map string)
    (((object []).insert "id".toList (string item.id)).insert "type".toList (string item.itemType))
    with hobj
  have hisObject : obj.isObject = true := by
    rw [hobj, isObject_insertSome]
    rfl
  have hget : ∀ key, obj.get key =
      if key = "role".toList then item.role.map string
      else if key = "type".toList then some (string item.itemType)
      else if key = "id".toList then some (string item.id) else none := by
    intro key
    have hempty : (object []).isObject = true := rfl
    have hnone : (object []).get key = none := rfl
    rw [hobj, get_insertSome (by simp [hempty]), get_insert (by simp [hempty]), get_insert hempty,
      hnone]
    split
    · rename_i heq
      rw [if_neg (by rw [heq]; decide), if_neg (by rw [heq]; decide), Option.or_none]
    · rfl
  rw [itemToJson, get_insertSome]
  · rw [← hobj, get_insertContent _ _ hisObject, hget]
    by_cases hcol : key ∈ columns
    · rw [contentMember_columns hcol, Option.none_or]
      simp only [columns, mem_cons, not_mem_nil, or_false] at hcol
      rcases hcol with rfl | rfl | rfl | rfl
      · rfl
      · rfl
      · rfl
      · exact Option.or_none
    · simp only [columns, mem_cons, not_mem_nil, or_false, not_or] at hcol
      obtain ⟨hid, htype, hrole, hstatus⟩ := hcol
      rw [if_neg hstatus, if_neg hrole, if_neg htype, if_neg hid, if_neg hid, if_neg htype,
        if_neg hrole, if_neg hstatus, Option.or_none]
  · exact (isObject_insertContent _ _ _).trans hisObject

theorem isObject_itemToJson (item : ConversationItem) : (itemToJson item).isObject = true := by
  have hid := get_itemToJson item "id".toList
  rw [if_pos rfl] at hid
  exact isObject_of_get hid

/-! ### The item that was stored -/

/-- The item, completed where it has no status. -/
def completed (v : Value) : Value :=
  match getString v "status" with
  | some _ => v
  | none => v.insert "status".toList (string "completed".toList)

theorem get_completed {v : Value} (h : v.isObject = true) (key : Str) : (completed v).get key =
      if key = "status".toList then
        some (string ((getString v "status").getD "completed".toList))
      else v.get key := by
  rw [completed]
  cases hs : getString v "status" with
  | some s =>
    have hstatus : v.get "status".toList = some (string s) := getString_eq_some.mp hs
    by_cases heq : key = "status".toList
    · rw [if_pos heq, heq]
      exact hstatus
    · rw [if_neg heq]
  | none => exact get_insert h _ _ _

/-- The item as the storage holds it, under its id. -/
def stored (i : Str) (responseId : Option Str) (isInput : Bool) (v : Value) : ConversationItem :=
  let newItem := withDefaultStatus (itemToNewConversationItem v responseId isInput)
  { id := i
    responseId := newItem.responseId
    itemType := newItem.itemType
    role := newItem.role
    content := newItem.content
    status := newItem.status }

/-- The members of an item besides the columns, for the content that is stored of it: the fields of its
type where the whole item is stored, and else none; without a row in the table its content, which the
whole item is not. -/
def ContentKept (isInput : Bool) (itemType : Str) (v : Value) : Prop :=
  match itemTypeFields.lookup itemType with
  | some fields =>
      OnlyMembers (if storeWholeItem isInput itemType then columns ++ fields else columns) v
  | none =>
      storeWholeItem isInput itemType = false ∧ OnlyMembers ("content".toList :: columns) v ∧
        ∃ content, v.get "content".toList = some content

/-- The items whose id, type and role are texts, a role if there is one, and whose other members are
kept. -/
def Kept (isInput : Bool) (v : Value) : Prop :=
  (∃ i, getString v "id" = some i) ∧
    (∀ role, v.get "role".toList = some role → ∃ s, role = string s) ∧
    ∃ itemType, getString v "type" = some itemType ∧ ContentKept isInput itemType v

/-- What is stored as the content. -/
def storedContent (isInput : Bool) (itemType : Str) (v : Value) : Value :=
  if storeWholeItem isInput itemType then v else (v.get "content".toList).getD (array [])

section
variable {i itemType : Str} {responseId : Option Str} {isInput : Bool} {v : Value}

theorem stored_itemType (h : getString v "type" = some itemType) :
    (stored i responseId isInput v).itemType = itemType := by
  show (getString v "type").getD _ = itemType
  rw [h, Option.getD_some]

theorem stored_content (h : getString v "type" = some itemType) :
    (stored i responseId isInput v).content = storedContent isInput itemType v := by
  show storedContent isInput ((getString v "type").getD _) v = _
  rw [h, Option.getD_some]

end

theorem contentMember_stored_iff (isInput : Bool) (itemType : Str) (v : Value) : (∀ key, key ∉ columns →
      contentMember itemType (storedContent isInput itemType v) key = v.get key) ↔
      ContentKept isInput itemType v := by
  have hcolumn : "content".toList ∉ columns := by decide
  simp only [ContentKept, contentMember]
  cases hl : itemTypeFields.lookup itemType with
  | some fields =>
    have hapart := fields_apart _ (mem_of_lookup hl)
    cases hw : storeWholeItem isInput itemType with
    | true =>
      simp only [storedContent, hw, if_true]
      constructor
      · intro h key hk
        obtain ⟨hcol, hfield⟩ := not_or.mp (List.mem_append.not.mp hk)
        rw [← h key hcol, if_neg hfield]
      · intro h key hcol
        split
        · rfl
        · rename_i hfield
          exact (h key (List.mem_append.not.mpr (not_or.mpr ⟨hcol, hfield⟩))).symm
    | false =>
      have hfield : "content".toList ∉ fields := fun hm => (hapart _ hm).2 rfl
      simp only [storedContent, hw, Bool.false_eq_true, if_false]
      constructor
      · intro h key hcol
        -- without a content none of the fields is read
        have hnone := h _ hcolumn
        rw [if_neg hfield] at hnone
        rw [← h key hcol, ← hnone]
        split <;> rfl
      · intro h key hcol
        rw [h _ hcolumn, h key hcol]
        split <;> rfl
  | none =>
    cases hw : storeWholeItem isInput itemType with
    | true =>
      simp only [storedContent, hw, if_true, Bool.true_eq_false, false_and, iff_false]
      intro h
      -- the item would be its own content
      have hself := h _ hcolumn
      rw [if_pos rfl] at hself
      exact Nat.lt_irrefl _ (sizeOf_get hself.symm)
    | false =>
      simp only [storedContent, hw, Bool.false_eq_true, if_false, true_and]
      constructor
      · intro h
        have hcontent := h _ hcolumn
        rw [if_pos rfl] at hcontent
        refine ⟨fun key hk => ?_, _, hcontent.symm⟩
        obtain ⟨hne, hcol⟩ := not_or.mp (List.mem_cons.not.mp hk)
        rw [← h key hcol, if_neg hne]
      · rintro ⟨honly, content, hcontent⟩ key hcol
        by_cases hne : key = "content".toList
        · rw [if_pos hne, hne, hcontent]
          rfl
        · rw [if_neg hne, honly key (List.mem_cons.not.mpr (not_or.mpr ⟨hne, hcol⟩))]

/-- **Writing and reading back**: the same members, but for a status that is missing, exactly for the
items that are kept. -/
theorem itemToJson_stored_iff {v : Value} {i : Str} (hid : getString v "id" = some i)
    (responseId : Option Str) (isInput : Bool) :
    SameMembers (itemToJson (stored i responseId isInput v)) (completed v) ↔ Kept isInput v := by
  have hmem := getString_eq_some.mp hid
  have hobj : v.isObject = true := isObject_of_get hmem
  have hcompleted : (completed v).isObject = true :=
    isObject_of_get ((get_completed hobj _).trans (if_pos rfl))
  have hgets : SameMembers (itemToJson (stored i responseId isInput v)) (completed v) ↔
      ∀ key, (itemToJson (stored i responseId isInput v)).get key = (completed v).get key :=
    ⟨fun h => h.2.2, fun h => ⟨isObject_itemToJson _, hcompleted, h⟩⟩
  rw [hgets]
  simp only [get_itemToJson, get_completed hobj]
  constructor
  · intro h
    have htype : getString v "type" = some _ := getString_eq_some.mpr (h "type".toList).symm
    refine ⟨⟨i, hid⟩, fun role hrole => ?_, _, htype, ?_⟩
    · have heq := (h "role".toList).trans hrole
      obtain ⟨s, -, hs⟩ := Option.map_eq_some_iff.mp heq
      exact ⟨s, hs.symm⟩
    · refine (contentMember_stored_iff isInput _ v).mp fun key hcol => ?_
      have hkey := h key
      simp only [columns, mem_cons, not_mem_nil, or_false, not_or] at hcol
      obtain ⟨hid', htype', hrole', hstatus'⟩ := hcol
      rw [if_neg hid', if_neg htype', if_neg hrole', if_neg hstatus', if_neg hstatus'] at hkey
      exact hkey
  · rintro ⟨-, hrole, itemType, htype, hkept⟩ key
    rw [stored_itemType htype, stored_content htype]
    by_cases hcol : key ∈ columns
    · simp only [columns, mem_cons, not_mem_nil, or_false] at hcol
      rcases hcol with rfl | rfl | rfl | rfl
      · exact hmem.symm
      · exact (getString_eq_some.mp htype).symm
      · show (getString v "role").map string = v.get "role".toList
        cases hr : v.get "role".toList with
        | none =>
          rw [getString, hr]
          rfl
        | some role =>
          obtain ⟨s, rfl⟩ := hrole role hr
          rw [getString_eq_some.mpr hr]
          rfl
      · rfl
    · have hbody := (contentMember_stored_iff isInput itemType v).mpr hkept key hcol
      simp only [columns, mem_cons, not_mem_nil, or_false, not_or] at hcol
      obtain ⟨hid', htype', hrole', hstatus'⟩ := hcol
      rw [if_neg hid', if_neg htype', if_neg hrole', if_neg hstatus', if_neg hstatus']
      exact hbody

/-! ### The storage -/

/-- The storage returns what it was given: an item is created as it was asked for and found under its
id from then on, and linking changes no item. -/
structure ItemStorage.Returns {σ : Type*} (storage : ItemStorage σ) : Prop where
  created : ∀ {s s' newItem item}, storage.createItem s newItem = .ok (s', item) →
    (∀ i, newItem.id = some i → item.id = i) ∧ item.responseId = newItem.responseId ∧
      item.itemType = newItem.itemType ∧ item.role = newItem.role ∧
      item.content = newItem.content ∧ item.status = newItem.status
  found : ∀ {s s' newItem item}, storage.createItem s newItem = .ok (s', item) →
    storage.getItem s' item.id = some item
  others : ∀ {s s' newItem item i}, storage.createItem s newItem = .ok (s', item) → i ≠ item.id →
    storage.getItem s' i = storage.getItem s i
  linked : ∀ {s s' convId i}, storage.linkItem s convId i = .ok s' →
    storage.getItem s' = storage.getItem s

section
variable {σ : Type*} {storage : ItemStorage σ} {s s' : σ} {convId responseId : Option Str}
  {isInput : Bool} {v : Value} {i : Str}

/-- The item can be read back, and what is read is the item, completed. -/
def Survives (storage : ItemStorage σ) (s : σ) (v : Value) : Prop :=
  ∃ i item, getString v "id" = some i ∧ storage.getItem s i = some item ∧
    SameMembers (itemToJson item) (completed v)

/-- What one call leaves in the storage. -/
theorem createAndLinkItem_getItem (h : storage.Returns) (hid : getString v "id" = some i)
    (hok : createAndLinkItem storage s convId (itemToNewConversationItem v responseId isInput) =
      .ok s') :
    storage.getItem s' i = some (stored i responseId isInput v) ∧
      ∀ j, j ≠ i → storage.getItem s' j = storage.getItem s j := by
  rw [createAndLinkItem] at hok
  cases hc : storage.createItem s
      (withDefaultStatus (itemToNewConversationItem v responseId isInput)) with
  | error e =>
    rw [hc] at hok
    cases hok
  | ok out =>
    obtain ⟨s₁, item⟩ := out
    obtain ⟨hi, hr, ht, hrole, hcontent, hstatus⟩ := h.created hc
    have hitem : item = stored i responseId isInput v := by
      cases item
      simp only at hi hr ht hrole hcontent hstatus
      rw [hi i hid, hr, ht, hrole, hcontent, hstatus]
      rfl
    have hget : storage.getItem s' = storage.getItem s₁ := by
      rw [hc] at hok
      cases convId with
      | none =>
        cases hok
        rfl
      | some conv =>
        simp only at hok
        cases hl : storage.linkItem s₁ conv item.id with
        | error e =>
          rw [hl] at hok
          cases hok
        | ok s₂ =>
          rw [hl] at hok
          cases hok
          exact h.linked hl
    have hitemId : item.id = i := hi i hid
    rw [hget]
    refine ⟨?_, fun j hj => h.others hc (hitemId ▸ hj)⟩
    rw [← hitemId, h.found hc, hitem]
    rfl

/-- The item that is stored is read back as it was, completed, exactly if it is kept. -/
theorem survives_stored_iff (hid : getString v "id" = some i)
    (hget : storage.getItem s' i = some (stored i responseId isInput v)) :
    Survives storage s' v ↔ Kept isInput v := by
  rw [← itemToJson_stored_iff hid responseId isInput]
  constructor
  · rintro ⟨j, item, hj, hitem, hsame⟩
    cases hid.symm.trans hj
    cases hget.symm.trans hitem
    exact hsame
  · intro hsame
    exact ⟨i, _, hid, hget, hsame⟩

/-- **An item that was stored and linked** is read back as it was, completed, exactly if it is kept. -/
theorem item_survives_iff (h : storage.Returns)
    (hok : createAndLinkItem storage s convId (itemToNewConversationItem v responseId isInput) =
      .ok s') :
    Survives storage s' v ↔ Kept isInput v := by
  cases hid : getString v "id" with
  | some i => exact survives_stored_iff hid (createAndLinkItem_getItem h hid hok).1
  | none =>
    -- what has no id of its own cannot be asked for by it
    refine iff_of_false ?_ ?_
    · rintro ⟨i, -, hi, -⟩
      exact nomatch hid.symm.trans hi
    · rintro ⟨⟨i, hi⟩, -⟩
      exact nomatch hid.symm.trans hi

end

/-! ### The items of a request -/

theorem onlyMembers_ofMembers {names : List Str} {members : List (String × Value)}
    (h : ∀ name ∈ members.map Prod.fst, name.toList ∈ names) :
    OnlyMembers names (ofMembers members) := by
  intro key hk
  induction members with
  | nil => rfl
  | cons m members ih =>
    obtain ⟨name, v⟩ := m
    have hne : key ≠ name.toList := by
      rintro rfl
      exact hk (h name mem_cons_self)
    rw [ofMembers, map_cons, QwenStack.Value.get, lookup_cons_eq, if_neg hne]
    exact ih fun name' hm => h name' (mem_cons_of_mem _ hm)

/-- An output item of a type without a row in the table is not, unless it is a message. -/
theorem not_kept_output {v : Value} {itemType : Str} (ht : getString v "type" = some itemType)
    (hrow : itemTypeFields.lookup itemType = none) (hne : itemType ≠ "message".toList) :
    ¬ Kept false v := by
  rintro ⟨-, -, itemType', ht', hkept⟩
  cases ht.symm.trans ht'
  have hwhole : storeWholeItem false itemType = true := decide_eq_true hne
  simp only [ContentKept, hrow, hwhole] at hkept
  cases hkept.1

/-! ### A storage in memory -/

/-- The items, the last first; an id that is missing is made from their number. -/
def memoryStorage (generateId : Nat → Str) : ItemStorage (List ConversationItem) where
  createItem s newItem :=
    let item : ConversationItem :=
      { id := newItem.id.getD (generateId s.length)
        responseId := newItem.responseId
        itemType := newItem.itemType
        role := newItem.role
        content := newItem.content
        status := newItem.status }
    .ok (item :: s, item)
  linkItem s _ _ := .ok s
  getItem s i := s.find? fun item => item.id = i

theorem memoryStorage_returns (generateId : Nat → Str) : (memoryStorage generateId).Returns where
  created h := by
    cases h
    exact ⟨fun i hi => by simp [hi], rfl, rfl, rfl, rfl, rfl⟩
  found h := by
    cases h
    simp [memoryStorage]
  others h hne := by
    cases h
    simp [memoryStorage, Ne.symm hne]
  linked h := by
    cases h
    rfl

theorem memoryStorage_links (generateId : Nat → Str) (s : List ConversationItem)
    (convId : Option Str) (newItem : NewConversationItem) :
    ∃ s', createAndLinkItem (memoryStorage generateId) s convId newItem = .ok s' := by
  cases convId with
  | none => exact ⟨_, rfl⟩
  | some convId => exact ⟨_, rfl⟩

/-- A function call of the output. -/
theorem call_survives :
    let call := ofMembers [("id", string "fc_1".toList), ("type", string "function_call".toList),
      ("call_id", string "call_1".toList), ("name", string "f".toList),
      ("arguments", string "{}".toList)]
    ∃ s', createAndLinkItem (memoryStorage fun _ => "item".toList) [] none
          (itemToNewConversationItem call none false) = .ok s' ∧
        Survives (memoryStorage fun _ => "item".toList) s' call := by
  intro call
  obtain ⟨s', hok⟩ := memoryStorage_links (fun _ => "item".toList) [] none
    (itemToNewConversationItem call none false)
  refine ⟨s', hok, (item_survives_iff (memoryStorage_returns _) hok).mpr ?_⟩
  have hrole : call.get "role".toList = none := rfl
  refine ⟨⟨_, rfl⟩, fun role hr => ?_, "function_call".toList, rfl, ?_⟩
  · exact nomatch hrole.symm.trans hr
  · exact onlyMembers_ofMembers (by simp only [map_cons, map_nil]; decide)

/-- A reasoning item of the output is read with the whole item as its content. -/
theorem reasoning_is_nested :
    let reasoning := ofMembers [("id", string "rs_1".toList), ("type", string "reasoning".toList),
      ("summary", array []), ("content", array []), ("status", string "completed".toList)]
    ∃ s', createAndLinkItem (memoryStorage fun _ => "item".toList) [] none
          (itemToNewConversationItem reasoning none false) = .ok s' ∧
        ¬ Survives (memoryStorage fun _ => "item".toList) s' reasoning := by
  intro reasoning
  obtain ⟨s', hok⟩ := memoryStorage_links (fun _ => "item".toList) [] none
    (itemToNewConversationItem reasoning none false)
  refine ⟨s', hok, ?_⟩
  have hid : getString reasoning "id" = some "rs_1".toList := rfl
  rw [survives_stored_iff hid (createAndLinkItem_getItem (memoryStorage_returns _) hid hok).1]
  have htype : getString reasoning "type" = some "reasoning".toList := rfl
  exact not_kept_output htype (by decide) (by decide)

end QwenStack.Items
