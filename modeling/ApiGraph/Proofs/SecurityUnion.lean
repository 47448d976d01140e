import ApiGraph.Proofs.Following
import ApiGraph.Proofs.Rankings
import ApiGraph.Proofs.Remapping
import ApiGraph.Security

/-! The security of an operation. The schemes of all labels of the document's and of the operation's
requirements are taken together: API keys by where they travel, each name where it is first met, and
what the HTTP schemes have in common. -/
namespace ApiGraph.Security
open Json

def keyName? (place : String) (scheme : Value) : Option String :=
  if scheme.textAt? "type" = some "apiKey" ∧ scheme.textAt? "in" = some place then
    scheme.textAt? "name"
  else none

def isHttp (scheme : Value) : Bool := scheme.textAt? "type" == some "http"

def authenticates (name : String) (scheme : Value) : Bool :=
  isHttp scheme && (scheme.textAt? "scheme").map Text.asciiLowercase == some name

def bearerFormat? (scheme : Value) : Option String :=
  if authenticates "bearer" scheme then scheme.textAt? "bearerFormat" else none

/- The schemes of labels, in their order. A label that has no scheme adds none, and neither does one
whose scheme is of another type. -/
inductive Declares (doc : Value) : List String → List Value → Prop
  | nil : Declares doc [] []
  | missing {label rest schemes} (absent : Tree.get? ⟨["components", "securitySchemes", label]⟩ doc = none)
      (next : Declares doc rest schemes) : Declares doc (label :: rest) schemes
  | other {label rest schemes raw scheme}
      (held : Tree.get? ⟨["components", "securitySchemes", label]⟩ doc = some raw)
      (ends : Resolve.Reaches doc raw scheme)
      (silent : scheme.textAt? "type" ≠ some "apiKey" ∧ scheme.textAt? "type" ≠ some "http")
      (next : Declares doc rest schemes) : Declares doc (label :: rest) schemes
  | scheme {label rest schemes raw scheme}
      (held : Tree.get? ⟨["components", "securitySchemes", label]⟩ doc = some raw)
      (ends : Resolve.Reaches doc raw scheme)
      (counts : scheme.textAt? "type" = some "apiKey" ∨ scheme.textAt? "type" = some "http")
      (next : Declares doc rest schemes) : Declares doc (label :: rest) (scheme :: schemes)

structure KeyNames (place : String) (schemes : List Value) (names : List String) : Prop where
  once : names.Nodup
  members : ∀ name, name ∈ names ↔ ∃ scheme ∈ schemes, keyName? place scheme = some name
  ordered : names.Pairwise fun a b =>
    (schemes.filterMap (keyName? place)).idxOf a < (schemes.filterMap (keyName? place)).idxOf b

structure HttpPart (schemes : List Value) (auth : HttpAuth) : Prop where
  basic : auth.basic = true ↔ ∃ scheme ∈ schemes, authenticates "basic" scheme = true
  bearer : auth.bearer = true ↔ ∃ scheme ∈ schemes, authenticates "bearer" scheme = true
  format : auth.bearerFormat = (schemes.filterMap bearerFormat?).getLast?

structure KeyPart (schemes : List Value) (keys : ApiKeys) : Prop where
  header : KeyNames "header" schemes keys.header
  query : KeyNames "query" schemes keys.query
  cookie : KeyNames "cookie" schemes keys.cookie

structure Combined (schemes : List Value) (security : MethodSecurity) : Prop where
  httpPart : ∀ auth, security.httpAuth = some auth → HttpPart schemes auth
  httpThere : security.httpAuth.isSome = true ↔ ∃ scheme ∈ schemes, isHttp scheme = true
  keyPart : ∀ keys, security.apiKey = some keys → KeyPart schemes keys
  keyThere : security.apiKey.isSome = true ↔ ∃ scheme ∈ schemes,
    ∃ place ∈ ["header", "query", "cookie"], ∃ name, keyName? place scheme = some name

inductive Requires (v : Value) : List Value → Prop
  | listed {entries} (held : v.get? "security" = some (.arr entries)) : Requires v entries
  | unlisted (other : ∀ entries, v.get? "security" ≠ some (.arr entries)) : Requires v []

inductive RequiresAt (doc : Value) (l : Location) : List Value → Prop
  | there {v entries} (held : Tree.get? l doc = some v) (requires : Requires v entries) :
      RequiresAt doc l entries
  | nowhere (absent : Tree.get? l doc = none) : RequiresAt doc l []

inductive Labelled : List Value → List String → Prop
  | nil : Labelled [] []
  | object {members rest names} (next : Labelled rest names) :
      Labelled (.obj members :: rest) (members.map Prod.fst ++ names)
  | other {v rest names} (noObject : ∀ members, v ≠ .obj members) (next : Labelled rest names) :
      Labelled (v :: rest) names

/- The security at a location: that of the schemes of all labels, the document's before those of the
location, and none if neither list has an entry. -/
inductive Extracted (doc : Value) (l : Location) : Option MethodSecurity → Prop
  | none (document : Requires doc []) (own : RequiresAt doc l []) : Extracted doc l none
  | some {entries more names schemes security} (document : Requires doc entries)
      (own : RequiresAt doc l more) (filled : entries ++ more ≠ [])
      (labelled : Labelled (entries ++ more) names) (declares : Declares doc names schemes)
      (combined : Combined schemes security) : Extracted doc l (some security)

section Required
variable {doc v : Value} {l : Location} {entries more : List Value} {names : List String}

theorem requiresIff : Requires v entries ↔ entries = (v.itemsAt? "security").getD [] := by
  constructor
  · intro h
    cases h with
    | listed held => simp [Value.itemsAt?, held, Value.items?]
    | unlisted other =>
      cases listed : v.itemsAt? "security" with
      | none => rfl
      | some items => exact absurd (Value.itemsAtSome listed) (other items)
  · rintro rfl
    cases listed : v.itemsAt? "security" with
    | some items => exact .listed (Value.itemsAtSome listed)
    | none =>
      refine .unlisted fun entries held => ?_
      simp [Value.itemsAt?, held, Value.items?] at listed

theorem requiresAtIff : RequiresAt doc l entries ↔
    entries = ((Tree.get? l doc).bind (·.itemsAt? "security")).getD [] := by
  constructor
  · intro h
    cases h with
    | there held requires => simpa [held] using requiresIff.mp requires
    | nowhere absent => simp [absent]
  · intro same
    cases held : Tree.get? l doc with
    | none =>
      rw [held] at same
      exact same ▸ .nowhere held
    | some v => exact .there held (requiresIff.mpr (by simpa [held] using same))

theorem requirementsOf (document : Requires doc entries) (own : RequiresAt doc l more) :
    requirements doc l = entries ++ more := by
  rw [requirements, requiresIff.mp document, requiresAtIff.mp own]

theorem labelledIff : Labelled entries names ↔ names = labels entries := by
  constructor
  · intro h
    induction h with
    | nil => rfl
    | object _ ih =>
      rw [ih]
      rfl
    | @other v rest names noObject _ ih =>
      cases v with
      | obj members => exact absurd rfl (noObject members)
      | _ => exact ih
  · rintro rfl
    induction entries with
    | nil => exact .nil
    | cons v rest ih =>
      cases v with
      | obj members => exact .object ih
      | _ => exact .other nofun ih

end Required

def summary (schemes : List Value) : Gathered where
  auth := if schemes.any isHttp then
      some ⟨schemes.any (authenticates "basic"), schemes.any (authenticates "bearer"),
        (schemes.filterMap bearerFormat?).getLast?⟩
    else none
  keys := ⟨Entries.distinct (schemes.filterMap (keyName? "header")),
    Entries.distinct (schemes.filterMap (keyName? "query")),
    Entries.distinct (schemes.filterMap (keyName? "cookie"))⟩

section Steps
variable {schemes : List Value} {scheme : Value}

theorem namesSnoc (place : String) :
    Entries.distinct ((schemes ++ [scheme]).filterMap (keyName? place)) =
      match keyName? place scheme with
      | some name => addName name (Entries.distinct (schemes.filterMap (keyName? place)))
      | none => Entries.distinct (schemes.filterMap (keyName? place)) := by
  rw [List.filterMap_append]
  cases named : keyName? place scheme with
  | none => simp [named]
  | some name => simp [named, Preference.distinctAppend, addName]

theorem keyElsewhere {place : String} (other : scheme.textAt? "type" ≠ some "apiKey") :
    keyName? place scheme = none := if_neg fun h => other h.1

theorem httpElsewhere (other : scheme.textAt? "type" ≠ some "http") : isHttp scheme = false := by
  simpa [isHttp] using other

theorem addKeySnoc (typed : scheme.textAt? "type" = some "apiKey") :
    addKey scheme (summary schemes).keys = (summary (schemes ++ [scheme])).keys := by
  simp only [summary, namesSnoc, keyName?, typed, true_and, addKey]
  cases named : scheme.textAt? "name" with
  | none => simp
  | some name =>
    dsimp only
    split
    · rename_i place; simp [place]
    · rename_i place; simp [place]
    · rename_i place; simp [place]
    · rename_i header query cookie
      rw [if_neg header, if_neg query, if_neg cookie]

theorem authSoFar (schemes : List Value) :
    (summary schemes).auth.getD ⟨false, false, none⟩ =
      ⟨schemes.any (authenticates "basic"), schemes.any (authenticates "bearer"),
        (schemes.filterMap bearerFormat?).getLast?⟩ := by
  cases met : schemes.any isHttp with
  | true => simp [summary, met]
  | false =>
    have none : ∀ scheme ∈ schemes, isHttp scheme = false := by simpa using met
    have silent : ∀ name, schemes.any (authenticates name) = false := fun name =>
      List.any_eq_false.mpr fun scheme mem => by simp [authenticates, none scheme mem]
    have bare : schemes.filterMap bearerFormat? = [] :=
      List.filterMap_eq_nil_iff.mpr fun scheme mem => by
        simp [bearerFormat?, authenticates, none scheme mem]
    simp [summary, met, silent, bare]

theorem addAuthSnoc (typed : isHttp scheme = true) :
    some (addAuth scheme ((summary schemes).auth.getD ⟨false, false, none⟩)) =
      (summary (schemes ++ [scheme])).auth := by
  rw [authSoFar]
  simp only [summary, addAuth, List.any_append, List.filterMap_append, List.any_cons, List.any_nil,
    typed, Bool.or_false, Bool.or_true, if_true, Option.some.injEq]
  split
  · rename_i basic
    simp [authenticates, bearerFormat?, typed, basic]
  · rename_i bearer
    cases format : scheme.textAt? "bearerFormat" <;>
      simp [authenticates, bearerFormat?, typed, bearer, format]
  · rename_i basic bearer
    have noBasic : authenticates "basic" scheme = false := by
      rw [authenticates, typed, Bool.true_and, beq_eq_false_iff_ne]
      exact basic
    have noBearer : authenticates "bearer" scheme = false := by
      rw [authenticates, typed, Bool.true_and, beq_eq_false_iff_ne]
      exact bearer
    simp [bearerFormat?, noBasic, noBearer]

theorem addSnoc : (summary schemes).add scheme = summary (schemes ++ [scheme]) := by
  unfold Gathered.add
  split
  · rename_i typed
    have other : isHttp scheme = false := httpElsewhere (by simp [typed])
    rw [addKeySnoc typed]
    simp [summary, authenticates, bearerFormat?, other]
  · rename_i typed
    have http : isHttp scheme = true := by simp [isHttp, typed]
    have other : ∀ place, keyName? place scheme = none := fun place => keyElsewhere (by simp [typed])
    rw [addAuthSnoc http]
    simp [summary, other]
  · rename_i key http
    have other : ∀ place, keyName? place scheme = none := fun place => keyElsewhere key
    simp [summary, authenticates, bearerFormat?, httpElsewhere http, other]

theorem gathered (schemes : List Value) :
    schemes.foldl Gathered.add ⟨none, ⟨[], [], []⟩⟩ = summary schemes := by
  induction schemes using List.reverseRecOn with
  | nil => rfl
  | append_singleton schemes scheme ih => rw [List.foldl_append, ih, List.foldl_cons, addSnoc]; rfl

end Steps

section Union
variable {schemes : List Value}

theorem keyNamesIff {place : String} {names : List String} : KeyNames place schemes names ↔
    names = Entries.distinct (schemes.filterMap (keyName? place)) := by
  have listed : KeyNames place schemes (Entries.distinct (schemes.filterMap (keyName? place))) :=
    ⟨Preference.distinctOnce _, fun name => Preference.memDistinct.trans List.mem_filterMap,
      Preference.distinctOrdered _⟩
  constructor
  · intro h
    have perm : names.Perm (Entries.distinct (schemes.filterMap (keyName? place))) :=
      (List.perm_ext_iff_of_nodup h.once listed.once).mpr fun name =>
        (h.members name).trans (listed.members name).symm
    exact perm.eq_of_pairwise (fun _ _ _ _ less less' => absurd less (Nat.lt_asymm less'))
      h.ordered listed.ordered
  · rintro rfl
    exact listed

theorem keyPartIff {keys : ApiKeys} : KeyPart schemes keys ↔ keys = (summary schemes).keys := by
  constructor
  · intro h
    obtain ⟨header, query, cookie⟩ := keys
    rw [summary, ApiKeys.mk.injEq]
    exact ⟨keyNamesIff.mp h.header, keyNamesIff.mp h.query, keyNamesIff.mp h.cookie⟩
  · rintro rfl
    exact ⟨keyNamesIff.mpr rfl, keyNamesIff.mpr rfl, keyNamesIff.mpr rfl⟩

theorem httpPartIff {auth : HttpAuth} : HttpPart schemes auth ↔
    auth = ⟨schemes.any (authenticates "basic"), schemes.any (authenticates "bearer"),
      (schemes.filterMap bearerFormat?).getLast?⟩ := by
  constructor
  · intro h
    obtain ⟨basic, bearer, format⟩ := auth
    rw [HttpAuth.mk.injEq]
    exact ⟨Bool.eq_iff_iff.mpr (h.basic.trans List.any_eq_true.symm),
      Bool.eq_iff_iff.mpr (h.bearer.trans List.any_eq_true.symm), h.format⟩
  · rintro rfl
    exact ⟨List.any_eq_true, List.any_eq_true, rfl⟩

theorem keysEmpty : isEmpty (summary schemes).keys = true ↔
    ∀ scheme ∈ schemes, ∀ place ∈ ["header", "query", "cookie"], keyName? place scheme = none := by
  have none : ∀ place, (Entries.distinct (schemes.filterMap (keyName? place))).isEmpty = true ↔
      ∀ scheme ∈ schemes, keyName? place scheme = none := by
    intro place
    rw [List.isEmpty_iff, List.eq_nil_iff_forall_not_mem]
    simp only [Preference.memDistinct, List.mem_filterMap, not_exists, not_and,
      Option.eq_none_iff_forall_ne_some]
    exact ⟨fun h scheme mem name => h name scheme mem, fun h name scheme mem => h scheme mem name⟩
  simp only [isEmpty, summary, Bool.and_eq_true, none, List.forall_mem_cons]
  constructor
  · rintro ⟨⟨header, query⟩, cookie⟩ scheme mem
    exact ⟨header scheme mem, query scheme mem, cookie scheme mem, by simp⟩
  · intro all
    exact ⟨⟨fun scheme mem => (all scheme mem).1, fun scheme mem => (all scheme mem).2.1⟩,
      fun scheme mem => (all scheme mem).2.2.1⟩

theorem partUnique {α : Type} {o o' : Option α} (there : o.isSome = true ↔ o'.isSome = true)
    (same : ∀ a a', o = some a → o' = some a' → a = a') : o = o' := by
  cases o with
  | none => cases o' <;> simp at there ⊢
  | some a =>
    cases o' with
    | none => simp at there
    | some a' => rw [same a a' rfl rfl]

theorem Combined.unique {s s' : MethodSecurity} (h : Combined schemes s)
    (h' : Combined schemes s') : s = s' := by
  have http : s.httpAuth = s'.httpAuth :=
    partUnique (h.httpThere.trans h'.httpThere.symm) fun a a' held held' =>
      (httpPartIff.mp (h.httpPart a held)).trans (httpPartIff.mp (h'.httpPart a' held')).symm
  have keys : s.apiKey = s'.apiKey :=
    partUnique (h.keyThere.trans h'.keyThere.symm) fun a a' held held' =>
      (keyPartIff.mp (h.keyPart a held)).trans (keyPartIff.mp (h'.keyPart a' held')).symm
  obtain ⟨_, _⟩ := s
  rw [MethodSecurity.mk.injEq]
  exact ⟨http, keys⟩

theorem gatheredCombine (schemes : List Value) : Combined schemes ⟨(summary schemes).auth,
    if isEmpty (summary schemes).keys then none else some (summary schemes).keys⟩ where
  httpPart auth held := by
    refine httpPartIff.mpr ?_
    rw [← authSoFar, show (summary schemes).auth = some auth from held, Option.getD_some]
  httpThere := by
    rw [← List.any_eq_true]
    cases met : schemes.any isHttp <;> simp [summary, met]
  keyPart keys held := by
    refine keyPartIff.mpr ?_
    split at held
    · contradiction
    · exact (Option.some.inj held).symm
  keyThere := by
    have filled : isEmpty (summary schemes).keys = false ↔ ∃ scheme ∈ schemes,
        ∃ place ∈ ["header", "query", "cookie"], ∃ name, keyName? place scheme = some name := by
      rw [← Bool.not_eq_true, keysEmpty]
      simp only [not_forall, Option.ne_none_iff_exists', exists_prop]
    rw [← filled]
    cases isEmpty (summary schemes).keys <;> simp

end Union

section Labels
variable {doc : Value} {label : String}

theorem schemeOfSome {scheme : Value} : schemeOf doc label = .ok (some scheme) ↔
    ∃ raw, Tree.get? (schemesRoot.child label) doc = some raw ∧ Resolve.Reaches doc raw scheme := by
  unfold schemeOf
  cases held : Tree.get? (schemesRoot.child label) doc with
  | none => simp
  | some raw =>
    simp only [Option.some.injEq, exists_eq_left', Resolve.reachesLeads, ← Meaning.resolves]
    cases Resolve.resolve doc raw <;> simp [Except.map]

theorem schemeOfNone :
    schemeOf doc label = .ok none ↔ Tree.get? (schemesRoot.child label) doc = none := by
  unfold schemeOf
  cases held : Tree.get? (schemesRoot.child label) doc with
  | none => simp
  | some raw =>
    dsimp only
    cases Resolve.resolve doc raw <;> simp [Except.map]

theorem addOther {g : Gathered} {scheme : Value} (silent : scheme.textAt? "type" ≠ some "apiKey" ∧
    scheme.textAt? "type" ≠ some "http") : g.add scheme = g := by
  unfold Gathered.add
  split
  · exact absurd ‹_› silent.1
  · exact absurd ‹_› silent.2
  · rfl

theorem schemesFound {labels : List String} {found : List (Option Value)}
    (run : labels.mapM (schemeOf doc) = .ok found) : ∃ schemes, Declares doc labels schemes ∧
      ∀ g, (found.filterMap id).foldl Gathered.add g = schemes.foldl Gathered.add g := by
  induction labels generalizing found with
  | nil =>
    cases run
    exact ⟨[], .nil, fun _ => rfl⟩
  | cons label labels ih =>
    rw [List.mapM_cons] at run
    obtain ⟨first, one, run⟩ := Bundle.bindOk.mp run
    obtain ⟨more, rest, last⟩ := Bundle.bindOk.mp run
    cases last
    obtain ⟨schemes, declares, same⟩ := ih rest
    cases first with
    | none => exact ⟨schemes, .missing (schemeOfNone.mp one) declares, same⟩
    | some scheme =>
      obtain ⟨raw, held, ends⟩ := schemeOfSome.mp one
      by_cases counts : scheme.textAt? "type" = some "apiKey" ∨ scheme.textAt? "type" = some "http"
      · exact ⟨scheme :: schemes, .scheme held ends counts declares, fun g => same (g.add scheme)⟩
      · have silent := not_or.mp counts
        refine ⟨schemes, .other held ends silent declares, fun g => ?_⟩
        exact (same (g.add scheme)).trans (by rw [addOther silent])

theorem schemesFind {labels : List String} {schemes : List Value}
    (declares : Declares doc labels schemes) :
    ∃ found, labels.mapM (schemeOf doc) = .ok found ∧
      ∀ g, (found.filterMap id).foldl Gathered.add g = schemes.foldl Gathered.add g := by
  have more : ∀ {label labels first found}, schemeOf doc label = .ok first →
      labels.mapM (schemeOf doc) = .ok found →
      (label :: labels).mapM (schemeOf doc) = .ok (first :: found) := by
    intro label labels first found one rest
    rw [List.mapM_cons, one, rest]
    rfl
  induction declares with
  | nil => exact ⟨[], rfl, fun _ => rfl⟩
  | missing absent _ ih =>
    obtain ⟨found, rest, same⟩ := ih
    exact ⟨none :: found, more (schemeOfNone.mpr absent) rest, same⟩
  | @other _ _ _ raw scheme held ends silent _ ih =>
    obtain ⟨found, rest, same⟩ := ih
    refine ⟨some scheme :: found, more (schemeOfSome.mpr ⟨raw, held, ends⟩) rest, fun g => ?_⟩
    exact (same (g.add scheme)).trans (by rw [addOther silent])
  | @scheme _ _ _ raw scheme held ends _ _ ih =>
    obtain ⟨found, rest, same⟩ := ih
    exact ⟨some scheme :: found, more (schemeOfSome.mpr ⟨raw, held, ends⟩) rest,
      fun g => same (g.add scheme)⟩

end Labels

/- Security is extracted just when the references of its schemes end, and it is the union of both
levels. -/
theorem securityCombined (doc : Value) (operation : Location) (result : Option MethodSecurity) :
    extract doc operation = .ok result ↔ Extracted doc operation result := by
  constructor
  · intro run
    have document : Requires doc _ := requiresIff.mpr rfl
    have own : RequiresAt doc operation _ := requiresAtIff.mpr rfl
    have both := requirementsOf document own
    unfold extract at run
    dsimp only at run
    split at run
    · rename_i empty
      cases run
      obtain ⟨none, none'⟩ := List.append_eq_nil_iff.mp (both ▸ List.isEmpty_iff.mp empty)
      exact .none (none ▸ document) (none' ▸ own)
    · rename_i filled
      obtain ⟨found, each, last⟩ := Bundle.bindOk.mp run
      cases last
      obtain ⟨schemes, declares, same⟩ := schemesFound each
      refine .some document own (both ▸ mt List.isEmpty_iff.mpr filled)
        (labelledIff.mpr (congrArg labels both)) declares ?_
      rw [same, gathered]
      exact gatheredCombine schemes
  · intro h
    unfold extract
    dsimp only
    cases h with
    | none document own =>
      rw [requirementsOf document own]
      rfl
    | some document own filled labelled declares combined =>
      rw [requirementsOf document own, if_neg (mt List.isEmpty_iff.mp filled),
        ← labelledIff.mp labelled]
      obtain ⟨found, run, same⟩ := schemesFind declares
      refine Bundle.bindOk.mpr ⟨found, run, ?_⟩
      rw [same, gathered, combined.unique (gatheredCombine _)]

def accessDocument : Value :=
  let schemes : Value := .obj [
    ("token", .obj [("type", .str "http"), ("scheme", .str "Bearer"), ("bearerFormat", .str "JWT")]),
    ("plain", .obj [("type", .str "http"), ("scheme", .str "bearer")]),
    ("shared", .obj [("$ref", .str "#/components/securitySchemes/key")]),
    ("key", .obj [("type", .str "apiKey"), ("in", .str "query"), ("name", .str "k")]),
    ("flow", .obj [("type", .str "oauth2")])]
  let list (names : List String) : Value := .arr [.obj (names.map fun name => (name, .arr []))]
  .obj [("security", list ["token"]),
    ("get", .obj [("security", list ["plain", "shared", "key", "flow", "unknown"])]),
    ("components", .obj [("securitySchemes", schemes)])]

theorem accessCombined : Extracted accessDocument ⟨["get"]⟩
    (some ⟨some ⟨false, true, some "JWT"⟩, some ⟨[], ["k"], []⟩⟩) :=
  (securityCombined _ _ _).mp (by decide +kernel)

end ApiGraph.Security
