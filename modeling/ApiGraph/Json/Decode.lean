import ApiGraph.Json.Fault
import ApiGraph.Json.Printer
import ApiGraph.Text.Letters

/-! Reading records and choices from values, and what can be wrong with them. A record is an object,
or the list of its fields in order of declaration; members it does not know are passed over. Faults
come in the order of the text: the members as they stand, then what is missing. -/
namespace ApiGraph.Json
open Text

inductive DecodeError where
  | invalidType (found wanted : String)
  | unknownVariant (found : String) (known : List String)
  | missingField (name : String)
  | duplicateField (name : String)
  | invalidLength (length : Nat) (wanted : String)
  | malformed (cause : Cause)
  deriving DecidableEq, Repr

def ticked (s : String) : String := "`" ++ s ++ "`"

def choiceText : List String → String
  | [] => "there are no variants"
  | [a] => "expected " ++ ticked a
  | [a, b] => "expected " ++ ticked a ++ " or " ++ ticked b
  | names => "expected one of " ++ joined ", " (names.map ticked)

def DecodeError.message : DecodeError → String
  | .invalidType found wanted => "invalid type: " ++ found ++ ", expected " ++ wanted
  | .unknownVariant found known => "unknown variant " ++ ticked found ++ ", " ++ choiceText known
  | .missingField name => "missing field " ++ ticked name
  | .duplicateField name => "duplicate field " ++ ticked name
  | .invalidLength length wanted =>
    "invalid length " ++ toString length ++ ", expected " ++ wanted
  | .malformed cause => cause.message

def shownChar (c : Char) : List Char :=
  match c with
  | '"' => ['\\', '"']
  | '\\' => ['\\', '\\']
  | '\n' => ['\\', 'n']
  | '\r' => ['\\', 'r']
  | '\t' => ['\\', 't']
  | c =>
    if c.toNat = 0 then ['\\', '0']
    else if isHidden c then
      ['\\', 'u', '\x7b'] ++ Nat.toDigits 16 c.toNat ++ ['\x7d']
    else [c]

def shown (s : String) : String :=
  String.ofList ('"' :: (s.toList.flatMap shownChar ++ ['"']))

def found : Value → String
  | .null => "null"
  | .bool b => "boolean " ++ ticked (if b then "true" else "false")
  | .num (.whole n) => "integer " ++ ticked (Numeral.whole n).text
  | .num (.double d) => "floating point " ++ ticked (Numeral.double d).text
  | .str s => "string " ++ shown s
  | .arr _ => "sequence"
  | .obj _ => "map"

abbrev Decode (α : Type) := Value → Except DecodeError α

def wrongType (v : Value) (wanted : String) : Except DecodeError α :=
  .error (.invalidType (found v) wanted)

def decodeText : Decode String
  | .str s => .ok s
  | v => wrongType v "a string"

def decodeBool : Decode Bool
  | .bool b => .ok b
  | v => wrongType v "a boolean"

def decodeList (item : Decode α) : Decode (List α)
  | .arr items => items.mapM item
  | v => wrongType v "a sequence"

def decodeOption (item : Decode α) : Decode (Option α)
  | .null => .ok none
  | v => (item v).map some

abbrev FieldCheck := String × (Value → Except DecodeError Unit)

def check (item : Decode α) : Value → Except DecodeError Unit := fun v => (item v).map fun _ => ()

def checkMembers (fields : List FieldCheck) (members : Members) : Except DecodeError Unit :=
  members.forM fun (key, v) => match fields.lookup key with
    | some item => item v
    | none => .ok ()

def recordMembers (name : String) (fields : List FieldCheck) (optional : Nat) :
    Decode Members
  | .obj members => do
    checkMembers fields members
    .ok members
  | .arr items => do
    let members := (fields.map Prod.fst).zip items
    checkMembers fields members
    if items.length + optional < fields.length then
      .error (.invalidLength items.length
        ("struct " ++ name ++ " with " ++ toString fields.length ++
          (if fields.length = 1 then " element" else " elements")))
    else if fields.length < items.length then .error (.malformed .trailingCharacters)
    else .ok members
  | v => wrongType v ("struct " ++ name)

def field (members : Members) (name : String) (item : Decode α) : Except DecodeError α :=
  match members.lookup name with
  | some v => item v
  | none => .error (.missingField name)

def optionalField (members : Members) (name : String) (item : Decode α) :
    Except DecodeError (Option α) :=
  match members.lookup name with
  | some v => decodeOption item v
  | none => .ok none

def choose (known : List (String × α)) (name : String) : Except DecodeError α :=
  match known.lookup name with
  | some a => .ok a
  | none => .error (.unknownVariant name (known.map Prod.fst))

def decodeChoice (carried : String → Option Value → Except DecodeError α) : Decode α
  | .str name => carried name none
  | .obj ((name, v) :: more) => do
    let a ← carried name (some v)
    if more.isEmpty then .ok a else .error (.malformed .expectedValue)
  | _ => .error (.malformed .expectedValue)

def bare (a : α) : Option Value → Except DecodeError α
  | none => .ok a
  | some .null => .ok a
  | some v => wrongType v "unit"

end ApiGraph.Json
