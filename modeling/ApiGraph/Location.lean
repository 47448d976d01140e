import ApiGraph.Text.Ranges

/-! Paths of keys and indices from the root of a document, and their pointer text `#/a/b`. In the
text `~` is written `~0` and `/` is written `~1`, so that only separators are slashes; empty
segments have no text of their own and are dropped when a pointer is read. -/
namespace ApiGraph
open Text (splitOn cutAt)

structure Location where
  segments : List String
  deriving DecidableEq, Repr, Inhabited

namespace Location

def root : Location := ⟨[]⟩
def isRoot (l : Location) : Bool := l.segments.isEmpty
def length (l : Location) : Nat := l.segments.length
def last? (l : Location) : Option String := l.segments.getLast?
def parent? (l : Location) : Option Location :=
  if l.isRoot then none else some ⟨l.segments.dropLast⟩
def child (l : Location) (segment : String) : Location := ⟨l.segments ++ [segment]⟩
def join (l : Location) (segments : List String) : Location := ⟨l.segments ++ segments⟩
def startsWith (l start : Location) : Bool := start.segments.isPrefixOf l.segments

def escape (segment : List Char) : List Char :=
  segment.flatMap fun c => if c = '~' then ['~', '0'] else if c = '/' then ['~', '1'] else [c]

def unescape : List Char → List Char
  | '~' :: '0' :: r => '~' :: unescape r
  | '~' :: '1' :: r => '/' :: unescape r
  | c :: r => c :: unescape r
  | [] => []

def toPointer (l : Location) : String :=
  String.ofList ('#' :: l.segments.flatMap (fun s => '/' :: escape s.toList))

def fragment (pointer : List Char) : List Char :=
  if pointer.contains '#' then (cutAt '#' pointer).2 else pointer

def ofPointer (pointer : String) : Location :=
  ⟨((splitOn '/' (fragment pointer.toList)).filter (fun s => !s.isEmpty)).map
    (fun s => String.ofList (unescape s))⟩

theorem unescapeEscape (cs : List Char) : unescape (escape cs) = cs := by
  induction cs with
  | nil => rfl
  | cons c r ih =>
    by_cases h : c = '~'
    · subst h; simpa [escape, unescape] using ih
    · by_cases h' : c = '/'
      · subst h'; simpa [escape, unescape] using ih
      · have step : escape (c :: r) = c :: escape r := by simp [escape, h, h']
        rw [step, unescape, ih]
        · intro _ e; exact absurd e h
        · intro _ e; exact absurd e h

theorem escapeNoSlash (cs : List Char) : '/' ∉ escape cs := by
  induction cs with
  | nil => simp [escape]
  | cons c r ih =>
    simp only [escape, List.flatMap_cons, List.mem_append, not_or] at ih ⊢
    refine ⟨?_, ih⟩
    split
    · simp
    · split
      · simp
      · rename_i h; simpa using fun e => h e.symm

end Location
end ApiGraph
