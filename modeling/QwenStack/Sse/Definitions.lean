import QwenStack.Manual.Definitions
import QwenStack.Support.Decode
import QwenStack.Support.Marker

/-!
# Event streams — Definitions

`gateway/src/routers/openai/responses/common.rs`: a `ChunkProcessor` makes blocks of the bytes of an
event stream, which arrive in chunks.  A block is what stands before a blank line.

`splitBlocks` is not in the source: it says what the blocks of a text are.
-/

namespace QwenStack.Sse
open Manual (trim)

/-- `ChunkProcessor`. -/
structure ChunkProcessor where
  pending : Str := []
  deriving DecidableEq, Repr

/-- The text of a chunk. -/
def chunkStr (chunk : List UInt8) : Str :=
  match Str.fromUtf8 chunk with
  | some s => s
  | none => Str.fromUtf8Lossy chunk

/-- The text without the CR before each LF. -/
def normalize : Str → Str
  | [] => []
  | c :: s => if c = '\r' ∧ s.head? = some '\n' then normalize s else c :: normalize s

/-- A blank line. -/
def separator : Str := ['\n', '\n']

theorem length_drop_separator {s : Str} {pos : Nat} (h : Marker.find separator s = some pos) :
    (s.drop (pos + 2)).length < s.length := by
  have := (Marker.prefix_of_find h).2
  rw [separator, List.length_cons, List.length_singleton] at this
  rw [List.length_drop]
  omega

namespace ChunkProcessor

def pushChunk (p : ChunkProcessor) (chunk : List UInt8) : ChunkProcessor where
  pending := p.pending ++ normalize (chunkStr chunk)

def nextBlock (p : ChunkProcessor) : Option Str × ChunkProcessor :=
  match h : Marker.find separator p.pending with
  | none => (none, p)
  | some pos =>
      let block := p.pending.take pos
      let p' : ChunkProcessor := ⟨p.pending.drop (pos + 2)⟩
      if trim block = [] then p'.nextBlock else (some block, p')
  termination_by p.pending.length
  decreasing_by exact length_drop_separator h

def takeRemaining (p : ChunkProcessor) : Str × ChunkProcessor := (p.pending, {})

theorem nextBlock_of_none {p : ChunkProcessor} (h : Marker.find separator p.pending = none) :
    p.nextBlock = (none, p) := by
  rw [nextBlock]
  split
  · rfl
  · next hsome => rw [h] at hsome; cases hsome

theorem nextBlock_of_some {p : ChunkProcessor} {pos : Nat}
    (h : Marker.find separator p.pending = some pos) :
    p.nextBlock = if trim (p.pending.take pos) = [] then nextBlock ⟨p.pending.drop (pos + 2)⟩
      else (some (p.pending.take pos), ⟨p.pending.drop (pos + 2)⟩) := by
  rw [nextBlock]
  split
  · next hnone => rw [h] at hnone; cases hnone
  · next hsome =>
    cases h.symm.trans hsome
    rfl

/-- A block is taken from the front. -/
theorem length_nextBlock {p p' : ChunkProcessor} {block : Str}
    (h : p.nextBlock = (some block, p')) : p'.pending.length < p.pending.length := by
  induction hn : p.pending.length using Nat.strong_induction_on generalizing p with
  | _ n ih =>
    cases hfind : Marker.find separator p.pending with
    | none =>
      rw [nextBlock_of_none hfind] at h
      cases h
    | some pos =>
      have hlt := length_drop_separator hfind
      rw [nextBlock_of_some hfind] at h
      split at h
      · exact Nat.lt_trans (ih _ (hn ▸ hlt) h rfl) (hn ▸ hlt)
      · obtain ⟨-, rfl⟩ := Prod.mk.inj h
        exact hn ▸ hlt

/-- The blocks that are there. -/
def drain (p : ChunkProcessor) : List Str × ChunkProcessor :=
  match _h : p.nextBlock with
  | (none, p') => ([], p')
  | (some block, p') =>
      let (blocks, p'') := p'.drain
      (block :: blocks, p'')
  termination_by p.pending.length
  decreasing_by exact length_nextBlock _h

end ChunkProcessor

/-- A chunk, and the blocks that it completes after those before. -/
def receive (s : List Str × ChunkProcessor) (chunk : List UInt8) : List Str × ChunkProcessor :=
  let (blocks, p) := (s.2.pushChunk chunk).drain
  (s.1 ++ blocks, p)

/-- The blocks of a stream, and what remains. -/
def frames (chunks : List (List UInt8)) : List Str × Str :=
  let s := chunks.foldl receive ([], {})
  (s.1, s.2.takeRemaining.1)

/-! ### What the blocks of a text are -/

/-- The parts of a text between blank lines. -/
def sections : Str → List Str
  | [] => [[]]
  | [c] => [[c]]
  | c :: d :: s =>
      if c = '\n' ∧ d = '\n' then [] :: sections s else (sections (d :: s)).modifyHead (c :: ·)

/-- The parts that a blank line ends and that are not blank, and the last part. -/
def splitBlocks (text : Str) : List Str × Str :=
  ((sections text).dropLast.filter fun block => decide (trim block ≠ []),
    (sections text).getLastD [])

/-- The blocks of a text whose lines may end in CRLF, and what remains. -/
def framing (text : Str) : List Str × Str := splitBlocks (normalize text)

end QwenStack.Sse
