import ApiGraph.Canonical.Declaration
import ApiGraph.Proofs.Casing

/-! Words that are joined with a separator and read again. Nothing begins within a word, so the separators
part the same words, and a name that has been made of words stays what it is. -/
namespace ApiGraph.Words
open Text

section Reading
variable {prev sep : Char} {word w t cs : List Char} {ws : List (List Char)}

theorem wordsFromWithin (filled : word ≠ []) (plain : ∀ c ∈ t, wordChar c = true)
    (ordered : (prev :: t).IsChain fun a b => isAsciiDigit a = true → isAsciiDigit b = true)
    (rest : List Char) :
    ∃ last, wordsFrom prev word (t ++ rest) = wordsFrom last (word ++ t) rest := by
  -- over what is left of the word; `prev` goes along since a letter after a digit would begin another one
  induction t generalizing prev word with
  | nil => exact ⟨prev, by rw [List.nil_append, List.append_nil]⟩
  | cons c r ih =>
    obtain ⟨here, later⟩ := List.forall_mem_cons.mp plain
    obtain ⟨next, nexts⟩ := List.isChain_cons_cons.mp ordered
    obtain ⟨last, read⟩ := @ih c (word ++ [c]) (by simp) later nexts
    refine ⟨last, ?_⟩
    rw [List.cons_append, wordsFrom, (wordCharPlain here).1, boundaryWithin here next,
      lowerSingle (wordCharAscii here), wordCharLower here]
    simpa using read

theorem wordsFromWord (h : Word w) (prev : Char) (rest : List Char) :
    ∃ last, wordsFrom prev [] (w ++ rest) = wordsFrom last w rest := by
  cases w with
  | nil => exact absurd rfl h.filled
  | cons c t =>
    obtain ⟨here, later⟩ := List.forall_mem_cons.mp h.plain
    obtain ⟨last, read⟩ := wordsFromWithin (List.cons_ne_nil c []) later h.ordered rest
    refine ⟨last, ?_⟩
    rw [List.cons_append, wordsFrom, (wordCharPlain here).1, lowerSingle (wordCharAscii here),
      wordCharLower here]
    exact read

theorem wordsFromParted (shaped : ∀ w ∈ ws, Word w) (apart : isAlphanumeric sep = false) (prev : Char) :
    wordsFrom prev [] (List.intercalate [sep] ws) = ws := by
  induction ws generalizing prev with
  | nil => rfl
  | cons w r ih =>
    obtain ⟨h, later⟩ := List.forall_mem_cons.mp shaped
    have unfinished : w.isEmpty = false := by simpa using h.filled
    cases r with
    | nil =>
      obtain ⟨last, read⟩ := wordsFromWord h prev []
      rw [List.intercalate_singleton, ← List.append_nil w, read, wordsFrom, unfinished, List.append_nil]
      rfl
    | cons v r =>
      obtain ⟨last, read⟩ := wordsFromWord h prev (sep :: List.intercalate [sep] (v :: r))
      rw [List.intercalate_cons_cons, List.append_assoc, List.singleton_append, read, wordsFrom, apart,
        unfinished, ih later]
      rfl

theorem wordsParted (shaped : ∀ w ∈ ws, Word w) (apart : isAlphanumeric sep = false) :
    wordsOf (List.intercalate [sep] ws) = ws := wordsFromParted shaped apart ' '

end Reading

section Names
variable {s : String} {cs : List Char} {sep : Char}

theorem plainCharacter {c : Char} (ascii : isAscii c = true) :
    isAlphanumeric c = c.isAlphanum ∧ asciiLower c = c.toLower :=
  asciiEach (P := fun c => isAlphanumeric c = c.isAlphanum ∧ asciiLower c = c.toLower) (by decide) ascii

theorem wordsKept (ascii : Ascii cs) :
    (wordsOf cs).flatten = (cs.filter Char.isAlphanum).map Char.toLower := by
  have letters : cs.filter isAlphanumeric = cs.filter Char.isAlphanum :=
    List.filter_congr fun c mem => (plainCharacter (ascii c mem)).1
  rw [wordsFlatten, letters, List.map_eq_flatMap]
  refine List.flatMap_congr fun c mem => ?_
  have here := ascii c (List.mem_filter.mp mem).1
  rw [lowerSingle here, (plainCharacter here).2]

theorem wordsFilled (ascii : Ascii s.toList) : "" ∉ words s := by
  intro empty
  obtain ⟨w, mem, none⟩ := List.mem_map.mp empty
  exact (wordsShaped ascii w mem).filled (String.ofList_eq_empty_iff.mp none)

theorem partedAgain (ascii : Ascii s.toList) (apart : isAlphanumeric sep = false) :
    wordsOf (String.ofList (List.intercalate [sep] (wordsOf s.toList))).toList = wordsOf s.toList := by
  rw [String.toList_ofList, wordsParted (wordsShaped ascii) apart]

theorem snakeWords (ascii : Ascii s.toList) : wordsOf (snake s).toList = wordsOf s.toList :=
  partedAgain ascii (by decide)

theorem kebabWords (ascii : Ascii s.toList) : wordsOf (kebab s).toList = wordsOf s.toList :=
  partedAgain ascii (by decide)

theorem snakeTwice (ascii : Ascii s.toList) : snake (snake s) = snake s := by
  rw [snake, snakeWords ascii]
  rfl

/- What words there are: any list of small letters followed by digits is the words of some plain name. -/
theorem wordListIff (ws : List String) :
    (∀ w ∈ ws, Word w.toList) ↔ ∃ s : String, Ascii s.toList ∧ words s = ws := by
  constructor
  · intro each
    have shaped : ∀ w ∈ ws.map String.toList, Word w := List.forall_mem_map.mpr each
    refine ⟨String.ofList (List.intercalate ['_'] (ws.map String.toList)), ?_, ?_⟩
    · rw [String.toList_ofList]
      intro c mem
      rcases memJoined mem with rfl | ⟨w, inside, here⟩
      · rfl
      · exact wordCharAscii ((shaped w inside).plain c here)
    · rw [words, String.toList_ofList, wordsParted shaped (by decide), List.map_map]
      simp
  · rintro ⟨s, ascii, rfl⟩ w mem
    obtain ⟨v, inside, rfl⟩ := List.mem_map.mp mem
    rw [String.toList_ofList]
    exact wordsShaped ascii v inside

end Names
end ApiGraph.Words

namespace ApiGraph.Declaration
open Json Operation Words

section Ids
variable {doc : Value} {found : List Found} {f : Found} {verb pattern : String}

theorem verbOfFound (run : operations doc = .ok found) (mem : f ∈ found) :
    Text.asciiLowercase f.verb ∈ httpMethods := by
  cases items : pathItems doc with
  | error e => simp [operations, items, bind, Except.bind] at run
  | ok listed =>
    simp only [operations, items, bind, Except.bind, Except.ok.injEq] at run
    subst run
    obtain ⟨⟨pattern, l⟩, _, inside⟩ := List.mem_flatMap.mp mem
    dsimp only at inside
    split at inside
    · obtain ⟨verb, key, made⟩ := List.mem_filterMap.mp inside
      obtain ⟨operation, _, rfl⟩ := Option.map_eq_some_iff.mp made
      obtain ⟨e, kept, rfl⟩ := List.mem_map.mp key
      exact List.contains_iff_mem.mp (Bool.and_eq_true_iff.mp (List.mem_filter.mp kept).2).2
    · cases inside

theorem asciiOfLower {c : Char} (ascii : Text.isAscii (Text.asciiLower c) = true) :
    Text.isAscii c = true := by
  rw [Text.asciiLower] at ascii
  split at ascii
  · rename_i capital
    exact asciiBelow (by decide) (of_decide_eq_true (Bool.and_eq_true_iff.mp capital).2)
  · exact ascii

theorem verbAscii (method : Text.asciiLowercase verb ∈ httpMethods) : Ascii verb.toList := by
  have methods : ∀ m ∈ httpMethods, Ascii m.toList := by decide
  intro c mem
  refine asciiOfLower (methods _ method _ ?_)
  rw [Text.asciiLowercase, String.toList_ofList]
  exact List.mem_map_of_mem mem

theorem synthesizedTwice (ascii : Ascii verb.toList) (ascii' : Ascii pattern.toList) :
    snake (synthesizedId verb pattern) = synthesizedId verb pattern := by
  have blank : Ascii " ".toList := by decide
  refine snakeTwice ?_
  rw [String.toList_append, String.toList_append]
  exact List.forall_mem_append.mpr ⟨List.forall_mem_append.mpr ⟨ascii, blank⟩, ascii'⟩

/- Words have all letters and digits of a plain name, and are the words of what is made of them; they are
small letters and then digits, and all lists of such words are the words of a name. An id that is made
for an operation of a document is made of words. -/
theorem wordsStable :
    (∀ s : String, Ascii s.toList →
      String.join (words s) = String.ofList ((s.toList.filter Char.isAlphanum).map Char.toLower) ∧
      "" ∉ words s ∧ words (snake s) = words s ∧ words (kebab s) = words s ∧
      snake (snake s) = snake s) ∧
    (∀ ws : List String, (∀ w ∈ ws, Word w.toList) ↔ ∃ s : String, Ascii s.toList ∧ words s = ws) ∧
    (∀ verb pattern : String, Ascii verb.toList → Ascii pattern.toList →
      snake (synthesizedId verb pattern) = synthesizedId verb pattern) ∧
    ∀ (doc : Value) (found : List Found), operations doc = .ok found → ∀ f ∈ found,
      f.operation.textAt? "operationId" = none → Ascii f.pattern.toList → snake f.id = f.id := by
  refine ⟨fun s ascii => ⟨?_, wordsFilled ascii, ?_, ?_, snakeTwice ascii⟩, wordListIff,
    fun verb pattern => synthesizedTwice, fun doc found run f mem undeclared ascii => ?_⟩
  · rw [← String.toList_inj, String.toList_join, String.toList_ofList, ← wordsKept ascii, words,
      List.flatMap_map]
    simp [List.flatMap_def]
  · rw [words, snakeWords ascii]
    rfl
  · rw [words, kebabWords ascii]
    rfl
  · have made : f.id = synthesizedId f.verb f.pattern := by simp [Found.id, operationId, undeclared]
    rw [made]
    exact synthesizedTwice (verbAscii (verbOfFound run mem)) ascii

def usersFound : Found :=
  ⟨"/v10/serverUsers", "post", ⟨["paths", "/v10/serverUsers"]⟩, .obj [("responses", .obj [])]⟩

def usersDocument : Value :=
  .obj [("paths", .obj [("/v10/serverUsers", .obj [("post", .obj [("responses", .obj [])])])])]

theorem usersStable :
    (Ascii "HTTPServer/2faCodes".toList ∧
      words "HTTPServer/2faCodes" = ["http", "server", "2", "fa", "codes"] ∧
      String.join (words "HTTPServer/2faCodes") = "httpserver2facodes" ∧
      words (kebab "HTTPServer/2faCodes") = words "HTTPServer/2faCodes") ∧
    (synthesizedId "get" "/items/\x7bid\x7d" = "get_items_id" ∧ snake "get_items_id" = "get_items_id") ∧
    operations usersDocument = .ok [usersFound] ∧ usersFound.id = "post_v10_server_users" ∧
      snake usersFound.id = usersFound.id := by
  have ascii : Ascii "HTTPServer/2faCodes".toList := by decide
  have synthesized : synthesizedId "get" "/items/\x7bid\x7d" = "get_items_id" := by decide
  obtain ⟨kept, _, _, again, _⟩ := wordsStable.1 "HTTPServer/2faCodes" ascii
  have fixed := wordsStable.2.2.1 "get" "/items/\x7bid\x7d" (by decide) (by decide)
  have run : operations usersDocument = .ok [usersFound] := by rfl
  have stays := wordsStable.2.2.2 _ _ run usersFound List.mem_cons_self (by decide) (by decide)
  rw [synthesized] at fixed
  exact ⟨⟨ascii, by decide, kept.trans (by decide), again⟩, ⟨synthesized, fixed⟩, run, by decide, stays⟩

end Ids
end ApiGraph.Declaration
