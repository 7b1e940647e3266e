import EntropyCoding.Ans.State
import EntropyCoding.Segment.Models
import EntropyCoding.Token.Basic

/-!
# The payload of a segment

Every value is split, and its token coded with the model of its context.  With prefix codes a
codeword and the extra bits go out for each token in turn.  With range coding the symbols are
pushed from the last to the first; the payload starts with the final state, and each token
contributes the chunk that its push moved out, if any, and its extra bits.  A reader going forward
then finds each chunk just where it has to take it back.
-/

namespace EntropyCoding

def modelOf {α : Type} (models : Array α) (map : ContextMap) (context : Nat) : Except Error α := do
  let cluster ← map.cluster context
  match models[cluster]? with
  | some model => .ok model
  | none => .error (.contextOutOfRange cluster models.size)

/-- Finds the model of each token and splits its value. -/
def resolve {α : Type} (models : Array α) (map : ContextMap) (split : TokenSplit)
    (tokens : List Token) : Except Error (List (α × SplitValue)) :=
  tokens.mapM fun token ↦ do
    return (← modelOf models map token.context, split.split token.value)

def ansFields (values : List (AnsTable × SplitValue)) : Except Error (List Field) := do
  let (chunks, state) ← pushAll (values.map fun (table, value) ↦ (table, value.token))
  return ⟨state, 32⟩ :: (chunks.zip values).flatMap fun (chunk, _, value) ↦
    chunk.toList.map (fun chunk ↦ ⟨chunk, 16⟩) ++ [value.extra]

/-- Writes a value with a prefix code. -/
def writeCoded (coded : PrefixCode × SplitValue) : BitWrite Unit := do
  let codeword ← ofExcept (coded.1.codeword coded.2.token)
  BitWrite.put [codeword, coded.2.extra]

/-- Writes the payload of a list of tokens.  A token whose context has no model is refused before
anything is written. -/
def writeTokens (models : SegmentModels) (map : ContextMap) (tokens : List Token) :
    BitWrite Unit :=
  match models.table with
  | .ans tables => do
    let values ← ofExcept (resolve tables map models.split tokens)
    BitWrite.put (← ofExcept (ansFields values))
  | .prefixCodes codes => do
    let values ← ofExcept (resolve codes map models.split tokens)
    values.forM writeCoded

end EntropyCoding
