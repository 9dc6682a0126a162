import QwenStack.PdRouter.Definitions

/-!
# PD router — what the client of a stream gets

The task of `create_streaming_response` again, with the chunks it sends (`relay`); its terminal is the one
of `forward`.  It takes a chunk that holds the bytes `data: [DONE]` for the last one, wherever in the chunk
they stand, also in the text that was generated.  `transparent_iff` says what this costs: without log
probabilities, a client that stays gets all the bytes exactly if nothing but empty chunks comes after the
first chunk with the marker.
-/

namespace QwenStack.PdRouter

open List

/-- The chunk holds the end marker. -/
def isDone (chunk : Bytes) : Bool := decide (doneMarker <:+: chunk)

/-- The chunk that is sent: merged if log probabilities are asked for and the merge succeeds. -/
def sentChunk (merge : Option (Bytes → Option Bytes)) (chunk : Bytes) : Bytes :=
  match merge with
  | some merge => (merge chunk).getD chunk
  | none => chunk

/-- The task of `create_streaming_response`: what it sends to a client that takes so many chunks, and the
stream when it is dropped, if the task ends. -/
def relay (merge : Option (Bytes → Option Bytes)) :
    Nat → Terminal → List Item → List (Except Unit Bytes) × Option Terminal
  | _, t, [] => ([], some t.markCompleted)
  | 0, t, .chunk chunk :: _ => ([], some (if isDone chunk = true then t.markCompleted else t))
  | listening + 1, t, .chunk chunk :: items =>
      let t := if isDone chunk = true then t.markCompleted else t
      if isDone chunk = true then ([.ok (sentChunk merge chunk)], some t)
      else
        let rest := relay merge listening t items
        (.ok (sentChunk merge chunk) :: rest.1, rest.2)
  | 0, _, .error :: _ => ([], some .errored)
  | _ + 1, _, .error :: _ => ([.error ()], some .errored)
  | _, t, .closed :: _ => ([], some t)
  | _, _, .pending :: _ => ([], none)

/-- The bytes of the chunks that were sent. -/
def delivered (sends : List (Except Unit Bytes)) : Bytes :=
  sends.flatMap fun
    | .ok bytes => bytes
    | .error _ => []

/-- The task is the one of the definitions. -/
theorem relay_terminal (merge : Option (Bytes → Option Bytes)) (listening : Nat) (t : Terminal)
    (items : List Item) : (relay merge listening t items).2 = forward listening t items := by
  induction items generalizing listening t with
  | nil => cases listening <;> rfl
  | cons item items ih =>
    cases item with
    | chunk chunk =>
      cases listening with
      | zero => rfl
      | succ listening =>
        rw [relay, forward.eq_def]
        cases hdone : isDone chunk with
        | true =>
          have hmarker : doneMarker <:+: chunk := of_decide_eq_true hdone
          simp only [hmarker, decide_true, if_true]
        | false =>
          have hmarker : ¬ doneMarker <:+: chunk := of_decide_eq_false hdone
          simp only [hmarker, decide_false, Bool.false_eq_true, if_false]
          exact ih listening t
    | error => cases listening <;> rfl
    | closed => cases listening <;> rfl
    | pending => cases listening <;> rfl

/-- The chunks through the first with the marker, and those after it. -/
def throughDone : List Bytes → List Bytes × List Bytes
  | [] => ([], [])
  | chunk :: chunks =>
      if isDone chunk = true then ([chunk], chunks)
      else (chunk :: (throughDone chunks).1, (throughDone chunks).2)

theorem throughDone_append (chunks : List Bytes) :
    (throughDone chunks).1 ++ (throughDone chunks).2 = chunks := by
  induction chunks with
  | nil => rfl
  | cons chunk chunks ih =>
    rw [throughDone]
    split
    · rfl
    · rw [cons_append, ih]

/-- Without log probabilities, a client that stays gets the chunks through the first with the marker. -/
theorem relay_chunks {listening : Nat} (t : Terminal) {chunks : List Bytes}
    (hstay : chunks.length ≤ listening) :
    (relay none listening t (chunks.map .chunk)).1 = (throughDone chunks).1.map .ok := by
  induction chunks generalizing listening t with
  | nil => cases listening <;> rfl
  | cons chunk chunks ih =>
    obtain ⟨n, rfl⟩ := Nat.exists_eq_add_of_le' (Nat.le_trans (Nat.succ_pos _) hstay)
    rw [map_cons, relay, throughDone]
    split
    · rfl
    · rw [map_cons, ← ih t (Nat.le_of_succ_le_succ hstay)]
      rfl

theorem delivered_ok (chunks : List Bytes) : delivered (chunks.map .ok) = chunks.flatten := by
  rw [delivered, flatMap_map, flatten_eq_flatMap]
  rfl

/-- **When a stream is passed on as it is.**  The client that stays gets all the bytes exactly if every
chunk after the first with the marker is empty. -/
theorem transparent_iff {listening : Nat} (t : Terminal) {chunks : List Bytes}
    (hstay : chunks.length ≤ listening) :
    delivered (relay none listening t (chunks.map .chunk)).1 = chunks.flatten ↔
      ∀ chunk ∈ (throughDone chunks).2, chunk = [] := by
  have hsplit : chunks.flatten = (throughDone chunks).1.flatten ++ (throughDone chunks).2.flatten := by
    rw [← flatten_append, throughDone_append]
  rw [relay_chunks t hstay, delivered_ok, hsplit, self_eq_append_right, flatten_eq_nil_iff]

/-- A generated text that quotes the marker, and the two events after it. -/
def quotingChunks : List Bytes :=
  ["data: \x7b\"text\":\"it ends with data: [DONE]\"\x7d\n\n".toUTF8.toList,
    "data: \x7b\"text\":\".\"\x7d\n\n".toUTF8.toList, "data: [DONE]\n\n".toUTF8.toList]

/-- The client gets the first chunk only. -/
theorem quoted_marker_cuts :
    delivered (relay none 3 .active (quotingChunks.map .chunk)).1 =
        (quotingChunks.take 1).flatten ∧
      delivered (relay none 3 .active (quotingChunks.map .chunk)).1 ≠ quotingChunks.flatten := by
  decide +kernel

/-- With the marker in the last chunk all is passed on. -/
theorem transparent_last :
    delivered (relay none 2 .active ((quotingChunks.drop 1).map .chunk)).1 =
      (quotingChunks.drop 1).flatten :=
  (transparent_iff .active (Nat.le_refl 2)).mpr (by decide +kernel)

end QwenStack.PdRouter
