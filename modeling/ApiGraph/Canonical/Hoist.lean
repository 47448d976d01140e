import ApiGraph.Canonical.Fingerprint
import ApiGraph.Operation

/-! Giving anonymous schemas a name. Every schema written in place is a site; a site whose
fingerprint has a name moves to `components/schemas` and leaves a reference behind. Sites inside a
site come first, nothing behind a reference is one, and the top-level schemas are searched but stay
where they are. -/
namespace ApiGraph.Hoist
open Json Fingerprint

structure Site where
  location : Location
  fingerprint : String
  deriving DecidableEq, Repr

theorem sizeOf_items {v : Value} {key : String} {items : List Value}
    (h : v.get? key = some (.arr items)) : sizeOf items < sizeOf v := by
  have := Value.sizeOf_get? h
  simp only [Value.arr.sizeOf_spec] at this
  omega

theorem sizeOf_members {v : Value} {key : String} {members : List (String × Value)}
    (h : v.get? key = some (.obj members)) : sizeOf members < sizeOf v := by
  have := Value.sizeOf_get? h
  simp only [Value.obj.sizeOf_spec] at this
  omega

mutual
def schemaSites (l : Location) (movable : Bool) (schema : Value) : List Site :=
  if (refOf schema).isSome || !schema.isObject then []
  else
    (match _h : schema.get? "allOf" with
      | some (.arr items) => itemSites (l.child "allOf") 0 items
      | _ => []) ++
    (match _h : schema.get? "oneOf" with
      | some (.arr items) => itemSites (l.child "oneOf") 0 items
      | _ => []) ++
    (match _h : schema.get? "anyOf" with
      | some (.arr items) => itemSites (l.child "anyOf") 0 items
      | _ => []) ++
    (match _h : schema.get? "not" with
      | some inner => schemaSites (l.child "not") true inner
      | none => []) ++
    (match _h : schema.get? "properties" with
      | some (.obj members) => memberSites (l.child "properties") members
      | _ => []) ++
    (match _h : schema.get? "additionalProperties" with
      | some inner => schemaSites (l.child "additionalProperties") true inner
      | none => []) ++
    (match _h : schema.get? "items" with
      | some inner => schemaSites (l.child "items") true inner
      | none => []) ++
    (match movable, fingerprint schema with
      | true, some fp => [⟨l, fp⟩]
      | _, _ => [])
termination_by sizeOf schema
decreasing_by
  all_goals first
    | exact sizeOf_items _h
    | exact sizeOf_members _h
    | exact Value.sizeOf_get? _h
def itemSites (l : Location) (index : Nat) : List Value → List Site
  | [] => []
  | x :: r => schemaSites (l.child (toString index)) true x ++ itemSites l (index + 1) r
termination_by items => sizeOf items
def memberSites (l : Location) : List (String × Value) → List Site
  | [] => []
  | (name, x) :: r => schemaSites (l.child name) true x ++ memberSites l r
termination_by members => sizeOf members
end

def inlineSites (l : Location) (owner : Value) (key : String) : List Site :=
  match owner.get? key with
  | some schema => schemaSites (l.child key) true schema
  | none => []

mutual
def parameterSites (l : Location) (param : Value) : List Site :=
  if (refOf param).isSome then [] else inlineSites l param "schema" ++ contentSites l param
termination_by (sizeOf param, 1)
def contentSites (l : Location) (owner : Value) : List Site :=
  if (refOf owner).isSome then []
  else match _h : owner.get? "content" with
    | some (.obj media) => mediaSites (l.child "content") media
    | _ => []
termination_by (sizeOf owner, 0)
decreasing_by exact Prod.Lex.left _ _ (sizeOf_members _h)
def mediaSites (l : Location) : List (String × Value) → List Site
  | [] => []
  | (name, media) :: r =>
    inlineSites (l.child name) media "schema" ++
    (match _h : media.get? "encoding" with
      | some (.obj encodings) => encodingSites ((l.child name).child "encoding") encodings
      | _ => []) ++ mediaSites l r
termination_by media => (sizeOf media, 0)
decreasing_by
  · have := sizeOf_members _h
    simp only [List.cons.sizeOf_spec, Prod.mk.sizeOf_spec]
    exact Prod.Lex.left _ _ (by omega)
  · simp only [List.cons.sizeOf_spec, Prod.mk.sizeOf_spec]
    exact Prod.Lex.left _ _ (by omega)
def encodingSites (l : Location) : List (String × Value) → List Site
  | [] => []
  | (name, encoding) :: r =>
    (match _h : encoding.get? "headers" with
      | some (.obj headers) => headerSites ((l.child name).child "headers") headers
      | _ => []) ++ encodingSites l r
termination_by encodings => (sizeOf encodings, 0)
decreasing_by
  · have := sizeOf_members _h
    simp only [List.cons.sizeOf_spec, Prod.mk.sizeOf_spec]
    exact Prod.Lex.left _ _ (by omega)
  · simp only [List.cons.sizeOf_spec, Prod.mk.sizeOf_spec]
    exact Prod.Lex.left _ _ (by omega)
def headerSites (l : Location) : List (String × Value) → List Site
  | [] => []
  | (name, header) :: r => parameterSites (l.child name) header ++ headerSites l r
termination_by headers => (sizeOf headers, 0)
decreasing_by
  · simp only [List.cons.sizeOf_spec, Prod.mk.sizeOf_spec]
    exact Prod.Lex.left _ _ (by omega)
  · simp only [List.cons.sizeOf_spec, Prod.mk.sizeOf_spec]
    exact Prod.Lex.left _ _ (by omega)
end

def overMembers (f : Location → Value → List Site) (l : Location) (owner : Value) (key : String) :
    List Site :=
  ((owner.membersAt? key).getD []).flatMap fun (name, x) => f ((l.child key).child name) x

def responseSites (l : Location) (response : Value) : List Site :=
  if (refOf response).isSome then []
  else overMembers parameterSites l response "headers" ++ contentSites l response

def parametersSites (l : Location) (owner : Value) : List Site :=
  ((owner.itemsAt? "parameters").getD []).zipIdx.flatMap fun (param, i) =>
    parameterSites ((l.child "parameters").child (toString i)) param

def operationSites (l : Location) (operation : Value) : List Site :=
  parametersSites l operation ++
  (match operation.get? "requestBody" with
    | some body => contentSites (l.child "requestBody") body
    | none => []) ++
  overMembers responseSites l operation "responses"

def pathItemSites (l : Location) (item : Value) : List Site :=
  if (refOf item).isSome then []
  else parametersSites l item ++ Operation.httpMethods.flatMap fun method =>
    match item.get? method with
    | some operation => operationSites (l.child method) operation
    | none => []

def sites (doc : Value) : List Site :=
  let l : Location := ⟨["components"]⟩
  let components := (doc.get? "components").getD .null
  overMembers (schemaSites · false ·) l components "schemas" ++
  overMembers responseSites l components "responses" ++
  overMembers parameterSites l components "parameters" ++
  overMembers contentSites l components "requestBodies" ++
  overMembers parameterSites l components "headers" ++
  overMembers pathItemSites .root doc "paths"

inductive Mode where
  | report
  | apply (names : List (String × String))

structure Suggestion where
  fingerprint : String
  location : Location
  hint : String
  deriving DecidableEq, Repr

structure Moved where
  source : Location
  name : String
  deriving DecidableEq, Repr

structure Report where
  suggestions : List Suggestion
  hoisted : List Moved
  conflicts : List Moved
  deriving DecidableEq, Repr

def Report.none : Report := ⟨[], [], []⟩

def Report.isEmpty (r : Report) : Bool :=
  r.suggestions.isEmpty && r.hoisted.isEmpty && r.conflicts.isEmpty

def oneLine : List Char → List Char
  | '\r' :: '\n' :: r => ' ' :: oneLine r
  | '\n' :: r => ' ' :: oneLine r
  | c :: r => c :: oneLine r
  | [] => []

def hint (schema : Value) (fp : String) : String :=
  let told := match schema.get? "title" with
    | some title => title.str?
    | none => schema.textAt? "description"
  String.ofList (oneLine (told.getD (Words.pascal fp)).toList)

def preset (schema : Value) : Option String := schema.textAt? "x-schema-name"

def nameFor (names : List (String × String)) (site : Site) (schema : Value) : Option String :=
  ((names.lookup site.fingerprint).or (names.lookup (Text.lowercase site.fingerprint))).or
    (preset schema)

def relocate (source : Location) (name : String) (doc : Value) (report : Report) : Value × Report :=
  let target : Location := ⟨["components", "schemas", name]⟩
  let back := reference target.toPointer
  let moved := { report with hoisted := report.hoisted ++ [⟨source, name⟩] }
  match Tree.get? source doc with
  | Option.none => (doc, report)
  | some schema => match Tree.get? target doc with
    | some held =>
      if held == schema then (Tree.set source back doc, moved)
      else (doc, { report with conflicts := report.conflicts ++ [⟨source, name⟩] })
    | Option.none => match Tree.set? target schema doc with
      | some doc' => (Tree.set source back doc', moved)
      | Option.none => (doc, report)

def applySite (names : List (String × String)) (acc : Value × Report) (site : Site) :
    Value × Report :=
  match Tree.get? site.location acc.1 with
  | Option.none => acc
  | some schema => match nameFor names site schema with
    | some name => relocate site.location name acc.1 acc.2
    | Option.none => acc

def suggest (doc : Value) (found : List Suggestion) (site : Site) : List Suggestion :=
  match Tree.get? site.location doc with
  | Option.none => found
  | some schema =>
    if (preset schema).isSome || found.any (·.fingerprint == site.fingerprint) then found
    else found ++ [⟨site.fingerprint, site.location, hint schema site.fingerprint⟩]

/- The sites are collected once, before anything moves. -/
def hoist (mode : Mode) (doc : Value) : Value × Report :=
  match mode with
  | .report => (doc, { Report.none with suggestions := (sites doc).foldl (suggest doc) [] })
  | .apply names => (sites doc).foldl (applySite names) (doc, Report.none)

end ApiGraph.Hoist
