import ApiGraph.Pattern.Engine
import ApiGraph.Pattern.Expression

/-! Reading a search expression: literals, `.`, bracketed classes with nesting and `&&`, `--`, `~~`,
groups with names and flags, alternatives, repetitions, anchors and escapes. There is no looking
around and no reference back; both are refused like every other malformed expression. -/
namespace ApiGraph.Pattern
open Text

inductive Escaped where
  | char (c : Char)
  | set (s : CharClass)
  | edge (e : Edge)

def one (c : Char) : CharClass := .span c c
def unionOf (xs : List CharClass) : CharClass := xs.foldr CharClass.either .none
def asciiDigits : CharClass := .span '0' '9'
def asciiLetters : CharClass := .either (.span 'a' 'z') (.span 'A' 'Z')
def asciiWord : CharClass := unionOf [asciiLetters, asciiDigits, one '_']
def asciiSpace : CharClass := .either (.span '\t' '\r') (one ' ')
def Flags.word (f : Flags) : CharClass := if f.wide then .word else asciiWord
def Flags.folding (f : Flags) (s : CharClass) : CharClass := if f.fold then .folded s else s

def skipBlanks (f : Flags) (comment : Bool) : List Char → List Char
  | [] => []
  | c :: r =>
    if !f.spaced then c :: r
    else if comment then skipBlanks f (c != '\n') r
    else if isBlank c then skipBlanks f false r
    else if c = '#' then skipBlanks f true r
    else c :: r

def afterBlanks (f : Flags) (s : List Char) : List Char := skipBlanks f false s

def validChar? (n : Nat) : Option Char :=
  if n < 0xd800 ∨ (0xdfff < n ∧ n ≤ 0x10ffff) then some (Char.ofNat n) else none

def hexEscape (count : Nat) (s : List Char) : Option (Char × List Char) :=
  match s with
  | '{' :: r =>
    let digits := r.takeWhile (· ≠ '}')
    match r.dropWhile (· ≠ '}') with
    | _ :: rest =>
      if !digits.isEmpty && digits.all (fun c => (hexDigit? c).isSome) && decide (digits.length ≤ 8)
      then (validChar? (hexNumber digits)).map (·, rest) else none
    | [] => none
  | _ =>
    let digits := s.take count
    if digits.length = count && digits.all (fun c => (hexDigit? c).isSome) then
      (validChar? (hexNumber digits)).map (·, s.drop count)
    else none

def classEscape (f : Flags) (wide narrow : CharClass) (negated : Bool) : Option Escaped :=
  if f.wide then some (.set (if negated then .other wide else wide))
  else if negated then none else some (.set narrow)

def edgeNames (letters : CharClass) : List (String × Edge) :=
  [("start", .wordStart letters), ("end", .wordEnd letters), ("start-half", .halfStart letters),
    ("end-half", .halfEnd letters)]

def isNameChar (c : Char) : Bool := isAsciiLower c || isAsciiUpper c || c == '-'

def breakEscape (f : Flags) (s : List Char) : Option (Escaped × List Char) :=
  match s with
  | '{' :: c :: r =>
    if isNameChar c then
      let name := (c :: r).takeWhile isNameChar
      match (c :: r).dropWhile isNameChar with
      | '}' :: rest => ((edgeNames f.word).lookup (String.ofList name)).map (.edge ·, rest)
      | _ => none
    else some (.edge (.wordBreak f.word), s)
  | _ => some (.edge (.wordBreak f.word), s)

def readEscape (f : Flags) : List Char → Option (Escaped × List Char)
  | [] => none
  | c :: r =>
    match c with
    | 'd' => (classEscape f .digit asciiDigits false).map (·, r)
    | 'D' => (classEscape f .digit asciiDigits true).map (·, r)
    | 's' => (classEscape f .space asciiSpace false).map (·, r)
    | 'S' => (classEscape f .space asciiSpace true).map (·, r)
    | 'w' => (classEscape f .word asciiWord false).map (·, r)
    | 'W' => (classEscape f .word asciiWord true).map (·, r)
    | 'x' => (hexEscape 2 r).map fun (c, r') => (.char c, r')
    | 'u' => (hexEscape 4 r).map fun (c, r') => (.char c, r')
    | 'U' => (hexEscape 8 r).map fun (c, r') => (.char c, r')
    | 'a' => some (.char (Char.ofNat 7), r)
    | 'f' => some (.char (Char.ofNat 12), r)
    | 't' => some (.char '\t', r)
    | 'n' => some (.char '\n', r)
    | 'r' => some (.char '\r', r)
    | 'v' => some (.char (Char.ofNat 11), r)
    | 'A' => some (.edge .textStart, r)
    | 'z' => some (.edge .textEnd, r)
    | 'b' => breakEscape f r
    | 'B' => if f.wide then some (.edge (.noWordBreak .word), r) else none
    | '<' => some (.edge (.wordStart f.word), r)
    | '>' => some (.edge (.wordEnd f.word), r)
    | c =>
      if isAscii c && !isAsciiLower c && !isAsciiUpper c && !isAsciiDigit c then some (.char c, r)
      else none

def asciiClasses : List (String × CharClass) :=
  [("alnum", .either asciiLetters asciiDigits), ("alpha", asciiLetters),
    ("ascii", .span (Char.ofNat 0) (Char.ofNat 127)), ("blank", .either (one '\t') (one ' ')),
    ("cntrl", .either (.span (Char.ofNat 0) (Char.ofNat 31)) (one (Char.ofNat 127))),
    ("digit", asciiDigits), ("graph", .span '!' '~'), ("lower", .span 'a' 'z'),
    ("print", .span ' ' '~'),
    ("punct", unionOf [.span '!' '/', .span ':' '@', .span '[' (Char.ofNat 96), .span '\x7b' '~']),
    ("space", asciiSpace), ("upper", .span 'A' 'Z'), ("word", asciiWord),
    ("xdigit", unionOf [asciiDigits, .span 'a' 'f', .span 'A' 'F'])]

def readAsciiClass (s : List Char) : Option (CharClass × List Char) :=
  match s with
  | ':' :: r =>
    let (negated, body) := match r with
      | '^' :: r' => (true, r')
      | _ => (false, r)
    match body.dropWhile (· ≠ ':') with
    | ':' :: ']' :: rest =>
      (asciiClasses.lookup (String.ofList (body.takeWhile (· ≠ ':')))).map fun set =>
        (if negated then .other set else set, rest)
    | _ => none
  | _ => none

inductive SetOp where
  | both
  | except
  | oneOf

def SetOp.apply : SetOp → CharClass → CharClass → CharClass
  | .both, a, b => .both a b
  | .except, a, b => .except a b
  | .oneOf, a, b => .except (.either a b) (.both a b)

structure OpenClass where
  negated : Bool
  waiting : Option (CharClass × SetOp)
  items : List CharClass

def OpenClass.total (f : Flags) (o : OpenClass) : CharClass :=
  let side := f.folding (unionOf o.items)
  match o.waiting with
  | none => side
  | some (left, op) => op.apply left side

def OpenClass.push (o : OpenClass) (s : CharClass) : OpenClass := { o with items := s :: o.items }

def openClass (f : Flags) (s : List Char) : OpenClass × List Char :=
  let s := afterBlanks f s
  let (negated, s) := match s with
    | '^' :: r => (true, afterBlanks f r)
    | _ => (false, s)
  let dashes := s.takeWhile (· == '-')
  let rest := s.dropWhile (· == '-')
  match dashes, rest with
  | [], ']' :: r => (⟨negated, none, [one ']']⟩, afterBlanks f r)
  | _, _ => (⟨negated, none, dashes.map one⟩, rest)

def readItem (f : Flags) : List Char → Option (Escaped × List Char)
  | [] => none
  | '\\' :: r => match readEscape f r with
    | some (.edge _, _) => none
    | found => found
  | c :: r => some (.char c, r)

def readSpan (f : Flags) (s : List Char) : Option (CharClass × List Char) := do
  let (a, r) ← readItem f s
  let single := match a with
    | .char c => one c
    | .set set => set
    | .edge _ => .none
  let r := afterBlanks f r
  match r with
  | [] => none
  | '-' :: r' =>
    let r'' := afterBlanks f r'
    match r'' with
    | [] => none
    | c :: _ =>
      if c = ']' || c = '-' then some (single, r)
      else
        let (b, rest) ← readItem f r''
        match a, b with
        | .char first, .char last =>
          if first ≤ last then some (.span first last, rest) else none
        | _, _ => none
  | _ => some (single, r)

def readClass (f : Flags) : Nat → List OpenClass → List Char → Option (CharClass × List Char)
  | 0, _, _ => none
  | _, [], _ => none
  | fuel + 1, o :: outer, s =>
    let withOp (op : SetOp) (r : List Char) :=
      readClass f fuel (⟨o.negated, some (o.total f, op), []⟩ :: outer) r
    match afterBlanks f s with
    | [] => none
    | '[' :: r => match readAsciiClass r with
      | some (set, rest) => readClass f fuel (o.push set :: outer) rest
      | none =>
        let (inner, rest) := openClass f r
        readClass f fuel (inner :: o :: outer) rest
    | ']' :: r =>
      if o.negated && !f.wide then none
      else
        let set := if o.negated then .other (o.total f) else o.total f
        match outer with
        | [] => some (set, r)
        | o' :: more => readClass f fuel (o'.push set :: more) r
    | '&' :: '&' :: r => withOp .both r
    | '-' :: '-' :: r => withOp .except r
    | '~' :: '~' :: r => withOp .oneOf r
    | t => match readSpan f t with
      | some (set, rest) => readClass f fuel (o.push set :: outer) rest
      | none => none

def maxCount : Nat := Nat.pow 2 32 - 1

def readCount (f : Flags) (s : List Char) : Option (Nat × List Char) :=
  let s := afterBlanks f s
  let digits := s.takeWhile isAsciiDigit
  let n := digits.foldl (fun n c => 10 * n + (c.toNat - 48)) 0
  if digits.isEmpty || decide (maxCount < n) then none
  else some (n, afterBlanks f (s.dropWhile isAsciiDigit))

def readBounds (f : Flags) (s : List Char) : Option (Nat × Option Nat × List Char) := do
  let (least, r) ← readCount f s
  match r with
  | '}' :: rest => some (least, some least, rest)
  | ',' :: r' => match afterBlanks f r' with
    | '}' :: rest => some (least, none, rest)
    | r'' =>
      let (most, r''') ← readCount f r''
      match r''' with
      | '}' :: rest => if least ≤ most then some (least, some most, rest) else none
      | _ => none
  | _ => none

def skipReluctant (f : Flags) (s : List Char) : List Char :=
  match afterBlanks f s with
  | '?' :: r => r
  | t => t

def Flags.with? (f : Flags) (c : Char) (on : Bool) : Option Flags :=
  match c with
  | 'i' => some { f with fold := on }
  | 'm' => some { f with lines := on }
  | 's' => some { f with dotAll := on }
  | 'x' => some { f with spaced := on }
  | 'u' => some { f with wide := on }
  | 'R' => some { f with returns := on }
  | 'U' => some f
  | _ => none

def readFlags (on : Bool) (last : Option Char) (seen : List Char) (f : Flags) :
    List Char → Option (Flags × Bool × List Char)
  | [] => none
  | c :: r =>
    if c = ':' || c = ')' then
      if last == some '-' then none
      else if c = ')' && last.isNone then none
      else some (f, c == ':', r)
    else if c = '-' then if on then readFlags false (some '-') seen f r else none
    else if seen.contains c then none
    else match f.with? c on with
      | some f' => readFlags on (some c) (c :: seen) f' r
      | none => none

def readName (s : List Char) : Option (String × List Char) :=
  let name := s.takeWhile (· ≠ '>')
  let first := name.head?.any (fun c => c == '_' || isAlphabetic c)
  let more := (name.drop 1).all fun c =>
    c == '_' || c == '.' || c == '[' || c == ']' || isAlphanumeric c
  match s.dropWhile (· ≠ '>') with
  | _ :: rest => if first && more then some (String.ofList name, rest) else none
  | [] => none

inductive GroupStart where
  | group (f : Flags) (names : List String)
  | flags (f : Flags)

def readGroupStart (f : Flags) (names : List String) (s : List Char) :
    Option (GroupStart × List Char) :=
  let named (r : List Char) := do
    let (name, rest) ← readName r
    if names.contains name then none else some (.group f (name :: names), rest)
  match afterBlanks f s with
  | '?' :: 'P' :: '<' :: r => named r
  | '?' :: '<' :: r => named r
  | '?' :: r => (readFlags true none [] f r).map fun (f', isGroup, rest) =>
    (if isGroup then .group f' names else .flags f', rest)
  | t => some (.group f names, t)

def sequence (pieces : List (Option Expression)) : Expression :=
  (pieces.filterMap id).foldl (fun after e => .andThen e after) .empty

def alternatives (done : List Expression) (last : Expression) : Expression :=
  done.foldl (fun acc e => .orElse e acc) last

def Flags.dot (f : Flags) : CharClass :=
  if f.dotAll then .other .none
  else if f.returns then .other (.either (one '\n') (one '\r'))
  else .other (one '\n')

/- Reads up to the end or the closing parenthesis. `done` are the alternatives before this one and
`pieces` the parts of this one, both reversed; a piece without expression is a change of flags,
which nothing can repeat. `fuel` is the text's length. -/
def readSequence (inGroup : Bool) : Nat → Flags → List String → List Expression →
    List (Option Expression) → List Char → Option (Expression × List String × List Char)
  | 0, _, _, _, _, _ => none
  | fuel + 1, f, names, done, pieces, s =>
    let finish (r : List Char) := some (alternatives done (sequence pieces), names, r)
    let next (e : Expression) (r : List Char) :=
      readSequence inGroup fuel f names done (some e :: pieces) r
    let again (least : Nat) (most : Option Nat) (r : List Char) := match pieces with
      | some e :: before =>
        readSequence inGroup fuel f names done (some (.times e least most) :: before)
          (skipReluctant f r)
      | _ => none
    match afterBlanks f s with
    | [] => if inGroup then none else finish []
    | ')' :: r => if inGroup then finish r else none
    | '|' :: r => readSequence inGroup fuel f names (sequence pieces :: done) [] r
    | '(' :: r => match readGroupStart f names r with
      | none => none
      | some (.flags f', r') => readSequence inGroup fuel f' names done (none :: pieces) r'
      | some (.group f' names', r') => match readSequence true fuel f' names' [] [] r' with
        | none => none
        | some (e, names'', r'') =>
          readSequence inGroup fuel f names'' done (some e :: pieces) r''
    | '[' :: r =>
      let (o, r') := openClass f r
      match readClass f fuel [o] r' with
      | some (set, r'') => next (.char set) r''
      | none => none
    | '?' :: r => again 0 (some 1) r
    | '*' :: r => again 0 none r
    | '+' :: r => again 1 none r
    | '{' :: r => match readBounds f r with
      | some (least, most, r') => again least most r'
      | none => none
    | '.' :: r => if f.wide then next (.char f.dot) r else none
    | '^' :: r => next (.edge (if f.lines then .lineStart else .textStart)) r
    | '$' :: r => next (.edge (if f.lines then .lineEnd else .textEnd)) r
    | '\\' :: r => match readEscape f r with
      | some (.char c, r') => next (.char (f.folding (one c))) r'
      | some (.set set, r') => next (.char set) r'
      | some (.edge e, r') => next (.edge e) r'
      | none => none
    | c :: r => next (.char (f.folding (one c))) r

def maxWeight : Nat := 300000

def readExpression (f : Flags) (s : List Char) : Option Expression := do
  let (e, _, _) ← readSequence false (s.length + 1) f [] [] [] s
  if e.weight ≤ maxWeight then some e else none

def spotEngine : Engine where
  read f s := (readExpression f s).map Expression.found

end ApiGraph.Pattern
