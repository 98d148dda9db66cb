import BlockContainer.Deflate.Block
import BlockContainer.Deflate.Inflate
import BlockContainer.Deflate.Search

/-! # Deflating

At level zero the data are stored as they are. At the other levels they are searched for
copies, and the result is used if it is a stream of the data; the stored form, which
always does, is there in case it should not.
-/
namespace BlockContainer.Deflate

def storedBlock (last : Bool) (data : Bytes) : Bytes :=
  (if last then 1 else 0) :: storedBytes data

def stored (data : Bytes) : Bytes :=
  if data.length ≤ storedLimit then storedBlock true data
  else storedBlock false (data.take storedLimit) ++ stored (data.drop storedLimit)
termination_by data.length
decreasing_by simp only [List.length_drop, storedLimit] at *; omega

def tokensPerBlock : Nat := 16383

/-- Whether the tokens go out as one last block. A full block is ended at once and an empty
one follows, unless it is filled by a byte that a lazy search held back to the end. -/
def fitOneBlock (manner : Manner) (tokens : List Token) : Bool :=
  tokens.length < tokensPerBlock || tokens.length == tokensPerBlock &&
    match manner, tokens.getLast? with
    | .lazy _ _, some (.literal _) => true
    | _, _ => false

def searchedBits (manner : Manner) (offset : Nat) (data : Bytes) (tokens : List Token) :
    List Bool :=
  if fitOneBlock manner tokens then blockBits offset true data tokens
  else
    let first := tokens.take tokensPerBlock
    let length := first.foldl (fun n token => n + token.length) 0
    let bits := blockBits offset false (data.take length) first
    bits ++ searchedBits manner ((offset + bits.length) % 8) (data.drop length)
      (tokens.drop tokensPerBlock)
termination_by tokens.length
decreasing_by
  have h := ‹¬fitOneBlock manner tokens = true›
  simp only [fitOneBlock, Bool.or_eq_true, decide_eq_true_eq, not_or] at h
  simp only [List.length_drop, tokensPerBlock] at *
  omega

def searched (e : Effort) (data : Bytes) : Bytes :=
  packBits (searchedBits e.manner 0 data (e.tokens data))

def defaultLevel : Int := 6

/-- Compresses at a level from zero to nine, or at the default level for `-1`. -/
def deflate (level : Int) (data : Bytes) : Bytes :=
  let level := if level = -1 then defaultLevel else level
  match Effort.levels[level.toNat - 1]? with
  | none => stored data
  | some e =>
    if level = 0 then stored data
    else
      let result := searched e data
      if isStreamOf data result then result else stored data

end BlockContainer.Deflate
