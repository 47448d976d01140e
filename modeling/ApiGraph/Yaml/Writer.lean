import ApiGraph.Yaml.Quoting

/-! Writing trees of texts as block collections. A list stands at the column of its key, and a map in
a list starts on the line of the item's sign. -/
namespace ApiGraph.Yaml

inductive Form where
  | text (s : String)
  | list (tag : Option String) (items : List Form)
  | map (members : List (String × Form))
  deriving Repr, Inhabited

def newLine (indent : Nat) : List Char := '\n' :: spaces indent

mutual
def Form.chars (column : Nat) (inItem : Bool) : Form → List Char
  | .text s => ' ' :: written (column + 2) s
  | .list tag items =>
    (match tag with
      | some t => ' ' :: t.toList
      | none => []) ++
    (if items.isEmpty then " []".toList
      else itemChars (if inItem then column + 2 else column) (inItem && tag.isNone) items)
  | .map members =>
    if members.isEmpty then " \x7b\x7d".toList else memberChars (column + 2) inItem members
termination_by structural f => f
def itemChars (column : Nat) (sameLine : Bool) : List Form → List Char
  | [] => []
  | x :: r =>
    (if sameLine then [' '] else newLine column) ++ '-' :: x.chars column true ++
      itemChars column false r
termination_by structural xs => xs
def memberChars (column : Nat) (sameLine : Bool) : List (String × Form) → List Char
  | [] => []
  | (k, v) :: r =>
    (if sameLine then [' '] else newLine column) ++ k.toList ++ ':' :: v.chars column false ++
      memberChars column false r
termination_by structural ms => ms
end

mutual
def Form.texts : Form → List String
  | .text s => [s]
  | .list _ items => itemTexts items
  | .map members => memberTexts members
termination_by structural f => f
def itemTexts : List Form → List String
  | [] => []
  | x :: r => x.texts ++ itemTexts r
termination_by structural xs => xs
def memberTexts : List (String × Form) → List String
  | [] => []
  | (_, v) :: r => v.texts ++ memberTexts r
termination_by structural ms => ms
end

/- A document ends with a sign when the last literal block keeps the empty lines at its end. -/
def endSign (f : Form) : String :=
  match (f.texts.filter fun s => writtenStyle s == .literal).getLast? with
  | some s => if chompSign s.toList == ['+'] then "...\n" else ""
  | none => ""

def document (members : List (String × Form)) : String :=
  String.ofList ((memberChars 0 false members).drop 1) ++ "\n" ++ endSign (.map members)

end ApiGraph.Yaml
