import ApiGraph.Entries
import ApiGraph.MediaType
import ApiGraph.Stable

/-! Rankings that do not depend on how a document happens to list things: media types by the first
pattern they match, success codes by what a verb prefers, method inputs by how much a caller needs
them. Ties keep the order of declaration. -/
namespace ApiGraph

inductive ParamIn where
  | query
  | header
  | path
  | cookie
  deriving DecidableEq, Repr

def ParamIn.name : ParamIn → String
  | .query => "query"
  | .header => "header"
  | .path => "path"
  | .cookie => "cookie"

def ParamIn.ofName? : String → Option ParamIn
  | "query" => some .query
  | "header" => some .header
  | "path" => some .path
  | "cookie" => some .cookie
  | _ => none

namespace Preference
open Text

def rank? (patterns : List MediaPattern) (mediaType : String) : Option Nat :=
  patterns.findIdx? (·.accepts mediaType)

def mediaTypes (patterns : List MediaPattern) (declared : List String) : List String :=
  let ranked := (Entries.distinct declared).filterMap fun m =>
    (rank? patterns m).map fun rank => (rank, m)
  (Stable.sort (fun a b => decide (a.1 ≤ b.1)) ranked).map Prod.snd

def promoted (verb : String) : List String :=
  match asciiLowercase verb with
  | "get" => ["204", "200"]
  | "head" => ["204", "200"]
  | "post" => ["200", "201"]
  | "put" => ["204", "200", "201"]
  | "delete" => ["200", "204", "202"]
  | _ => []

/- The sort key of a code: trimmed, upper case, padded to three bytes; `default` comes after every
code of digits and wildcards that starts with 2. -/
def codeKey (code : String) : String :=
  let key := uppercase (String.ofList (MediaPattern.trim code.toList))
  if key = "DEFAULT" then "2ZZ"
  else String.ofList (key.toList ++ List.replicate (3 - key.utf8ByteSize) 'X')

def isSuccess (key : String) : Bool := key.toList.head? == some '2'

def promote : List String → List (String × String) → List String
  | [], coded => coded.map Prod.snd
  | key :: more, coded => match coded.find? (fun e => e.1 == key) with
    | some e => e.2 :: promote more (coded.eraseP (fun e => e.1 == key))
    | none => promote more coded

def textLe (a b : String) : Bool := decide (¬ b < a)

def responseCodes (verb : String) (declared : List String) : List String :=
  let coded := ((Entries.distinct declared).map fun c => (codeKey c, c)).filter (isSuccess ·.1)
  promote (promoted verb) (Stable.sort (fun a b => textLe a.1 b.1) coded)

structure InputOrder where
  required : Bool
  hasDefault : Bool
  place : Option ParamIn
  deriving DecidableEq, Repr

def placeRank : Option ParamIn → Nat
  | some .query => 0
  | some .header => 1
  | some .cookie => 2
  | some .path => 3
  | none => 4

def compareInputs (a b : InputOrder) : Ordering :=
  (compare b.required.toNat a.required.toNat).then
    ((compare b.hasDefault.toNat a.hasDefault.toNat).then
      (compare (placeRank a.place) (placeRank b.place)))

def sortInputs (order : α → InputOrder) (xs : List α) : List α :=
  Stable.sort (fun a b => compareInputs (order a) (order b) != .gt) xs

end Preference
end ApiGraph
