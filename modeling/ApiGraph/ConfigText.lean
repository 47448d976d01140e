import ApiGraph.Config
import ApiGraph.Json.Decode
import ApiGraph.Json.Skip

/-! Settings as JSON. They are read while the text is scanned, so that of two faults the one that
stands first is told. A setting that is missing takes its default, unknown ones are passed over, and
a list gives the settings in their order. -/
namespace ApiGraph.Config
open Json Words

abbrev Read (α : Type) := List Char → Except DecodeError (α × List Char)

def faulty (f : Fault) : DecodeError := .malformed f.cause

def scanned (r : Except Fault α) : Except DecodeError α := r.mapError faulty

def mistyped (wanted : String) (s : List Char) : Except DecodeError α :=
  match skipSpace s with
  | '[' :: _ => .error (.invalidType "sequence" wanted)
  | '{' :: _ => .error (.invalidType "map" wanted)
  | t => do
    let (v, _) ← scanned (scanValueWith none t)
    wrongType v wanted

def readText (wanted : String) : Read String := fun s =>
  match skipSpace s with
  | '"' :: r => scanned (scanString r)
  | _ => mistyped wanted s

def readBool : Read Bool := fun s =>
  match skipSpace s with
  | 't' :: r => scanned ((scanWord ['r', 'u', 'e'] r).map fun e => (true, e.2))
  | 'f' :: r => scanned ((scanWord ['a', 'l', 's', 'e'] r).map fun e => (false, e.2))
  | _ => mistyped "a boolean" s

def readTexts : Read (List String) := fun s =>
  match skipSpace s with
  | '[' :: r => do
    let step := fun (acc : List String) (t : List Char) => do
      let (x, t') ← readText "a string" t
      .ok (x :: acc, t')
    let (xs, r') ← foldElements faulty step (r.length + 1) true [] r
    .ok (xs.reverse, r')
  | _ => mistyped "a sequence" s

def readNull (s : List Char) : Except DecodeError (List Char) :=
  match skipSpace s with
  | 'n' :: r => scanned ((scanWord ['u', 'l', 'l'] r).map Prod.snd)
  | _ => mistyped "unit" s

def readChoice (known : List (String × α)) : Read α := fun s =>
  match skipSpace s with
  | [] => .error (.malformed .endInValue)
  | '"' :: r => do
    let (name, r') ← scanned (scanString r)
    .ok (← choose known name, r')
  | '{' :: r => do
    let (name, r') ← readText "variant identifier" r
    let a ← choose known name
    let r'' ← readNull (← scanned (scanColon r'))
    match skipSpace r'' with
    | '}' :: rest => .ok (a, rest)
    | [] => .error (.malformed .endInObject)
    | _ => .error (.malformed .expectedValue)
  | _ => .error (.malformed .expectedValue)

def roles : List (String × Role) := [("client", .client), ("server", .server)]

def cases : List (String × NameCase) :=
  [("kebab", .kebab), ("pascal", .pascal), ("snake", .snake), ("camel", .camel),
    ("preserve", .preserve)]

def reading (reader : Read α) (put : Config → α → Config) : Config → Read Config := fun c s => do
  let (a, r) ← reader s
  .ok (put c a, r)

def settings : List (String × (Config → Read Config)) :=
  [("requestMediaTypes", reading readTexts fun c a => { c with requestMediaTypes := a }),
    ("acceptMediaTypes", reading readTexts fun c a => { c with acceptMediaTypes := a }),
    ("role", reading (readChoice roles) fun c a => { c with role := a }),
    ("omittedOperationIds", reading readTexts fun c a => { c with omittedOperationIds := a }),
    ("operationCase", reading (readChoice cases) fun c a => { c with operationCase := a }),
    ("allModels", reading readBool fun c a => { c with allModels := a })]

def readMember (state : Config × List String) (key : String) (s : List Char) :
    Except DecodeError ((Config × List String) × List Char) :=
  match settings.lookup key with
  | none => do
    let r ← scanned (skipValue (← scanned (scanColon s)))
    .ok (state, r)
  | some reader =>
    if state.2.contains key then .error (.duplicateField key)
    else do
      let (c, r) ← reader state.1 (← scanned (scanColon s))
      .ok ((c, key :: state.2), r)

def closeList (s : List Char) : Except DecodeError (List Char) :=
  match skipSpace s with
  | [] => .error (.malformed .endInList)
  | ']' :: r => .ok r
  | ',' :: r => match skipSpace r with
    | ']' :: _ => .error (.malformed .trailingComma)
    | _ => .error (.malformed .trailingCharacters)
  | _ => .error (.malformed .trailingCharacters)

def readList (first : Bool) (c : Config) : List (Config → Read Config) → Read Config
  | [], s => do .ok (c, ← closeList s)
  | reader :: more, s => do
    match ← scanned (nextElement first s) with
    | (false, r) => .ok (c, r)
    | (true, r) =>
      let (c', r') ← reader c r
      readList false c' more r'

def readBody (s : List Char) : Except DecodeError (Config × List Char) :=
  match skipSpace s with
  | '{' :: r => do
    let ((c, _), r') ← foldMembers faulty readMember (r.length + 1) true (default, []) r
    .ok (c, r')
  | '[' :: r => readList true default (settings.map Prod.snd) r
  | _ => mistyped "struct Config" s

def ofJsonText (text : String) : Except ConfigError Config :=
  let outcome := do
    let (c, r) ← readBody text.toList
    match skipSpace r with
    | [] => .ok c
    | _ => .error (.malformed .trailingCharacters)
  outcome.mapError fun e => .invalid e.message

def toJson (c : Config) : Value :=
  let texts (xs : List String) : Value := .arr (xs.map .str)
  .obj [("requestMediaTypes", texts c.requestMediaTypes),
    ("acceptMediaTypes", texts c.acceptMediaTypes),
    ("role", .str (if c.role = .client then "client" else "server")),
    ("omittedOperationIds", texts c.omittedOperationIds),
    ("operationCase", .str (((cases.find? fun e => e.2 == c.operationCase).map Prod.fst).getD "")),
    ("allModels", .bool c.allModels)]

end ApiGraph.Config
