import ApiGraph.Proofs.WordShapes

/-! Setting the case of a name that has been set already. A name that conforms stays, and all that is made
with separators conforms. Words that are written together conform if the first begins with a letter. If
it begins with a digit they are cut again at their capitals, and there two capitals in a row are
taken for an acronym. -/
namespace ApiGraph.Words
open Text

def NameCase.refuses : NameCase → Char → Bool
  | .snake, c => isUppercase c || c == '-' || isBlank c
  | .kebab, c => isUppercase c || c == '_' || isBlank c
  | .camel, c | .pascal, c => c == '-' || c == '_' || isBlank c
  | .preserve, _ => false

theorem conformingAny {kind : NameCase} {cs : List Char} (h : conforms kind cs = true) :
    cs.any kind.refuses = false := by
  cases kind with
  | snake | kebab => exact Bool.not_eq_true' _ ▸ h
  | camel | pascal => exact Bool.not_eq_true' _ ▸ (Bool.and_eq_true_iff.mp h).2
  | preserve => exact List.any_eq_false.mpr fun _ _ => Bool.false_ne_true

def NameCase.separator : NameCase → Char
  | .snake => '_'
  | _ => '-'

section Conforming
variable {c : Char} {cs : List Char} {ws : List (List Char)} {s : String} {kind : NameCase}

theorem setCaseConforming (h : conforms kind s.toList = true) : setCase s kind = s := if_pos h

theorem wordCharAscii (h : wordChar c = true) : isAscii c = true := by
  rcases wordCharIff.mp h with letter | numeral
  · exact (small letter).ascii
  · exact (digit numeral).ascii

theorem wordCharPlain (h : wordChar c = true) : isAlphanumeric c = true ∧ isUppercase c = false :=
  asciiEach (P := fun c => wordChar c = true → isAlphanumeric c = true ∧ isUppercase c = false)
    (by decide) (wordCharAscii h) h

theorem wordCharLower (h : wordChar c = true) : asciiLower c = c := by
  rcases wordCharIff.mp h with letter | numeral
  · exact (small letter).lower
  · exact (digit numeral).lower

theorem upperPlain (h : wordChar c = true) :
    isAscii (asciiUpper c) = true ∧ isAlphanumeric (asciiUpper c) = true :=
  asciiEach (P := fun c => wordChar c = true →
    isAscii (asciiUpper c) = true ∧ isAlphanumeric (asciiUpper c) = true)
    (by decide) (wordCharAscii h) h

theorem memJoined {sep x : Char} (mem : x ∈ List.intercalate [sep] ws) :
    x = sep ∨ ∃ w ∈ ws, x ∈ w := by
  induction ws with
  | nil => cases mem
  | cons w r ih =>
    cases r with
    | nil => exact .inr ⟨w, by simp, by simpa [List.intercalate] using mem⟩
    | cons v r =>
      have split : x ∈ w ∨ x = sep ∨ x ∈ List.intercalate [sep] (v :: r) := by
        simpa [List.intercalate] using mem
      rcases split with here | here | later
      · exact .inr ⟨w, by simp, here⟩
      · exact .inl here
      · rcases ih later with here | ⟨u, inside, here⟩
        · exact .inl here
        · exact .inr ⟨u, List.mem_cons_of_mem _ inside, here⟩

theorem wordCharTaken (h : wordChar c = true) (kind : NameCase) : kind.refuses c = false :=
  asciiEach (P := fun c => wordChar c = true → kind.refuses c = false) (by cases kind <;> decide)
    (wordCharAscii h) h

theorem joinedTaken (shaped : ∀ w ∈ ws, Word w) (sep : Char) (apart : kind.refuses sep = false) :
    (List.intercalate [sep] ws).any kind.refuses = false := by
  refine List.any_eq_false.mpr fun x mem => ?_
  rcases memJoined mem with rfl | ⟨w, inside, here⟩
  · simp [apart]
  · simp [wordCharTaken ((shaped w inside).plain x here) kind]

theorem joinedConforms (chosen : kind = .snake ∨ kind = .kebab) (shaped : ∀ w ∈ ws, Word w) :
    conforms kind (List.intercalate [kind.separator] ws) = true := by
  have apart : kind.refuses kind.separator = false := by
    rcases chosen with rfl | rfl <;> decide
  have tested (cs : List Char) : conforms kind cs = !cs.any kind.refuses := by
    rcases chosen with rfl | rfl <;> rfl
  rw [tested, joinedTaken shaped _ apart]
  rfl

theorem setJoined (chosen : kind = .snake ∨ kind = .kebab) (h : conforms kind s.toList = false) :
    setCase s kind = String.ofList (List.intercalate [kind.separator] (wordsOf s.toList)) := by
  rcases chosen with rfl | rfl
  · rw [setCase, h]
    rfl
  · rw [setCase, h]
    rfl

end Conforming

def together (kind : NameCase) : List (List Char) → List Char
  | [] => []
  | w :: r => (if kind = .pascal then capitalize w else w) ++ r.flatMap capitalize

/- Two capitals in a row before anything but a small letter: a word of one letter, and one that begins with
its only letter. -/
def meets : List Char → List Char → Bool
  | [y], x :: t => isAsciiLower y && isAsciiLower x && !t.head?.any isAsciiLower
  | _, _ => false

def anyMeet : List (List Char) → Bool
  | v :: w :: r => meets v w || anyMeet (w :: r)
  | _ => false

section Together
variable {prev last x : Char} {t v w rest : List Char} {ws : List (List Char)} {kind : NameCase}

theorem capitalizeWord (h : Word (x :: t)) : capitalize (x :: t) = asciiUpper x :: t := by
  rw [capitalize, upperSingle (wordCharAscii (h.plain x List.mem_cons_self))]
  rfl

theorem capitalizePlain (h : Word w) :
    ∀ c ∈ capitalize w, isAscii c = true ∧ isAlphanumeric c = true := by
  cases w with
  | nil => exact absurd rfl h.filled
  | cons x t =>
    rw [capitalizeWord h]
    obtain ⟨first, others⟩ := List.forall_mem_cons.mp h.plain
    intro c mem
    rcases List.mem_cons.mp mem with rfl | later
    · exact upperPlain first
    · exact ⟨wordCharAscii (others c later), (wordCharPlain (others c later)).1⟩

theorem togetherPlain (shaped : ∀ w ∈ ws, Word w) :
    ∀ c ∈ together kind ws, isAscii c = true ∧ isAlphanumeric c = true := by
  match ws with
  | [] => simp [together]
  | w :: r =>
    obtain ⟨h, later⟩ := List.forall_mem_cons.mp shaped
    intro c mem
    rcases List.mem_append.mp mem with first | other
    · split at first
      · exact capitalizePlain h c first
      · exact ⟨wordCharAscii (h.plain c first), (wordCharPlain (h.plain c first)).1⟩
    · obtain ⟨v, inside, here⟩ := List.mem_flatMap.mp other
      exact capitalizePlain (later v inside) c here

theorem boundaryNext (prev c : Char) (rest : List Char) : boundary prev c rest =
    (isLowercase prev && isUppercase c || isUppercase prev && isUppercase c && rest.head?.any isLowercase ||
      isAsciiDigit prev && isAlphabetic c) := by
  cases rest <;> rfl

theorem boundaryWithin {c : Char} (plain : wordChar c = true)
    (ordered : isAsciiDigit prev = true → isAsciiDigit c = true) (rest : List Char) :
    boundary prev c rest = false := by
  have kept : (isAsciiDigit prev && isAlphabetic c) = false := by
    cases numeral : isAsciiDigit prev with
    | false => rfl
    | true => rw [(digit (ordered numeral)).alphabetic]; rfl
  rw [boundaryNext, (wordCharPlain plain).2, kept]
  simp

theorem recasedWithin (plain : ∀ c ∈ t, wordChar c = true)
    (ordered : (prev :: t).IsChain fun a b => isAsciiDigit a = true → isAsciiDigit b = true)
    (ends : (prev :: t).getLast? = some last) : recased prev (t ++ rest) = t ++ recased last rest := by
  induction t generalizing prev with
  | nil =>
    cases ends
    rfl
  | cons c r ih =>
    obtain ⟨here, later⟩ := List.forall_mem_cons.mp plain
    obtain ⟨next, nexts⟩ := List.isChain_cons_cons.mp ordered
    rw [List.cons_append, recased, boundaryWithin here next, if_neg Bool.false_ne_true, wordCharLower here,
      ih later nexts (by simpa [List.getLast?_cons_cons] using ends)]
    rfl

theorem boundaryAfter {c : Char} (plain : wordChar prev = true) (great : Capital c) (rest : List Char) :
    boundary prev c rest = true := by
  rw [boundaryNext, great.uppercase, great.alphabetic]
  rcases wordCharIff.mp plain with letter | numeral
  · rw [(small letter).lowercase]
    rfl
  · rw [numeral, Bool.and_self, Bool.or_true]

theorem headLower (h : Word (x :: t)) (begins : rest.head?.any isLowercase = false) :
    (t ++ rest).head?.any isLowercase = t.head?.any isAsciiLower := by
  cases t with
  | nil => simpa using begins
  | cons c r =>
    have plain : wordChar c = true := h.plain c (by simp)
    exact asciiEach (P := fun c => wordChar c = true → isLowercase c = isAsciiLower c) (by decide)
      (wordCharAscii plain) plain

theorem boundaryAtWord (shaped : Word v) (ends : (capitalize v).getLast? = some prev)
    (h : Word (x :: t)) (letter : isAsciiLower x = true)
    (begins : rest.head?.any isLowercase = false) :
    boundary prev (asciiUpper x) (t ++ rest) = !meets v (x :: t) := by
  match v with
  | [] => exact absurd rfl shaped.filled
  | [y] =>
    -- the word before has no end but its capital, so what follows the next capital decides
    obtain rfl : asciiUpper y = prev := by simpa [capitalizeWord shaped] using ends
    rcases shaped.begins with first | numeral
    · have great := capital first
      rw [boundaryNext, great.lowercase, great.uppercase, great.digit, (capital letter).uppercase,
        headLower h begins, meets, first, letter]
      simp
    · rw [(digit numeral).upper, boundaryAfter (by simp [wordChar, numeral]) (capital letter)]
      simp [meets, (digit numeral).small]
  | y :: z :: u =>
    rw [capitalizeWord shaped, List.getLast?_cons_cons] at ends
    have inside : prev ∈ y :: z :: u := List.mem_cons_of_mem _ (List.mem_of_getLast? ends)
    rw [boundaryAfter (shaped.plain prev inside) (capital letter)]
    rfl

theorem joinedBegins (shaped : ∀ w ∈ ws, Word w) :
    (ws.flatMap capitalize).head?.any isLowercase = false := by
  match ws with
  | [] => rfl
  | [] :: _ => exact absurd rfl (shaped [] List.mem_cons_self).filled
  | (x :: t) :: r =>
    have h := shaped (x :: t) List.mem_cons_self
    rw [List.flatMap_cons, capitalizeWord h]
    rcases h.begins with letter | numeral
    · exact (capital letter).lowercase
    · simpa [(digit numeral).upper] using (digit numeral).lowercase

theorem recasedHead (shaped : Word v) (ends : (capitalize v).getLast? = some prev)
    (h : Word (x :: t)) (begins : rest.head?.any isLowercase = false) :
    (if boundary prev (asciiUpper x) (t ++ rest) then asciiUpper (asciiUpper x)
      else asciiLower (asciiUpper x)) = asciiUpper x ↔ meets v (x :: t) = false := by
  rcases h.begins with letter | numeral
  · have great := capital letter
    rw [boundaryAtWord shaped ends h letter begins]
    cases meets v (x :: t) with
    | false => simp [great.upper]
    | true => simp [great.changed]
  · have alone : meets v (x :: t) = false := by
      unfold meets
      split
      · rename_i same
        cases same
        simp [(digit numeral).small]
      · rfl
    simp [(digit numeral).upper, (digit numeral).lower, alone]

theorem capitalOrdered (h : Word (x :: t)) : (asciiUpper x :: t).IsChain
    fun a b => isAsciiDigit a = true → isAsciiDigit b = true := by
  cases t with
  | nil => exact List.isChain_singleton _
  | cons c r =>
    obtain ⟨next, nexts⟩ := List.isChain_cons_cons.mp h.ordered
    refine List.isChain_cons_cons.mpr ⟨fun number => ?_, nexts⟩
    rcases h.begins with letter | numeral
    · rw [(capital letter).digit] at number
      cases number
    · exact next numeral

/- Joined words are cut again at the capitals that made them, unless two are in a row. -/
theorem recasedJoined (shaped : ∀ w ∈ v :: ws, Word w) (ends : (capitalize v).getLast? = some prev) :
    recased prev (ws.flatMap capitalize) = ws.flatMap capitalize ↔ anyMeet (v :: ws) = false := by
  -- over the words still to come, `prev` being the last character written
  induction ws generalizing v prev with
  | nil => exact ⟨fun _ => rfl, fun _ => rfl⟩
  | cons w r ih =>
    obtain ⟨first, others⟩ := List.forall_mem_cons.mp shaped
    obtain ⟨h, later⟩ := List.forall_mem_cons.mp others
    match w with
    | [] => exact absurd rfl h.filled
    | x :: t =>
      obtain ⟨last, lasts⟩ : ∃ last, (asciiUpper x :: t).getLast? = some last :=
        ⟨_, List.getLast?_eq_some_getLast (List.cons_ne_nil _ _)⟩
      have begins := joinedBegins later
      have rest := ih others (by rwa [capitalizeWord h])
      rw [List.flatMap_cons, capitalizeWord h, List.cons_append, recased,
        recasedWithin (List.forall_mem_cons.mp h.plain).2 (capitalOrdered h) lasts, List.cons.injEq,
        recasedHead first ends h begins, List.append_cancel_left_eq, rest, anyMeet,
        Bool.or_eq_false_iff]

theorem joinedAgain {d : Char} (numeral : isAsciiDigit d = true) (shaped : ∀ v ∈ (d :: w) :: ws, Word v) :
    ∃ t us, wordsOf (d :: (w ++ ws.flatMap capitalize)) = (d :: t) :: us ∧
      (t ++ us.flatMap capitalize = w ++ ws.flatMap capitalize ↔ anyMeet ((d :: w) :: ws) = false) := by
  have h : Word (d :: w) := shaped _ List.mem_cons_self
  have plain := fun c (mem : c ∈ w ++ ws.flatMap capitalize) =>
    @togetherPlain _ .camel shaped c (List.mem_cons_of_mem _ mem)
  obtain ⟨t, us, split, joined⟩ := @wordsFromJoined d [d] _ (fun c mem => (plain c mem).1)
    (fun c mem => (plain c mem).2) (List.cons_ne_nil _ _)
  obtain ⟨last, ends⟩ : ∃ last, (d :: w).getLast? = some last :=
    ⟨_, List.getLast?_eq_some_getLast (List.cons_ne_nil _ _)⟩
  have first : wordChar d = true := h.plain d List.mem_cons_self
  refine ⟨t, us, ?_, ?_⟩
  · rw [wordsOf, wordsFrom, (wordCharPlain first).1]
    simpa [lowerSingle (wordCharAscii first), (digit numeral).lower] using split
  · rw [joined, recasedWithin (List.forall_mem_cons.mp h.plain).2 h.ordered ends,
      List.append_cancel_left_eq, recasedJoined shaped (by rwa [capitalizeWord h, (digit numeral).upper])]

end Together

def digitLed : List (List Char) → Bool
  | (d :: _) :: _ => isAsciiDigit d
  | _ => false

/- Whether words that are written together are other words when the name is read. -/
def cutAgain (kind : NameCase) (ws : List (List Char)) : Bool :=
  (kind == .camel || kind == .pascal) && digitLed ws && anyMeet ws

section Twice
variable {c : Char} {cs : List Char} {ws : List (List Char)} {s : String} {kind : NameCase}

theorem digitLedFlatten (shaped : ∀ w ∈ ws, Word w) :
    digitLed ws = ws.flatten.head?.any isAsciiDigit := by
  match ws with
  | [] => rfl
  | [] :: _ => exact absurd rfl (shaped [] List.mem_cons_self).filled
  | (_ :: _) :: _ => rfl

theorem letterLed (ascii : Ascii (c :: cs)) (letter : isAlphabetic c = true)
    (other : isAsciiDigit c = false) : digitLed (wordsOf (c :: cs)) = false := by
  have here : isAscii c = true := ascii c List.mem_cons_self
  have plain : isAlphanumeric c = true := by rw [letterOrDigit here, letter, Bool.true_or]
  rw [digitLedFlatten (wordsShaped ascii), wordsFlatten, List.filter_cons_of_pos plain,
    List.flatMap_cons, lowerSingle here]
  exact (lowerDigit here).trans other

theorem casedLetter (ascii : isAscii c = true) (cased : isLowercase c = true ∨ isUppercase c = true) :
    isAlphabetic c = true ∧ isAsciiDigit c = false :=
  asciiEach (P := fun c => isLowercase c = true ∨ isUppercase c = true →
    isAlphabetic c = true ∧ isAsciiDigit c = false) (by decide) ascii cased

theorem conformingUncut (ascii : Ascii s.toList) (h : conforms kind s.toList = true) :
    cutAgain kind (wordsOf s.toList) = false := by
  cases text : s.toList with
  | nil => cases kind <;> rfl
  | cons c r =>
    rw [text] at ascii h
    have led : isLowercase c = true ∨ isUppercase c = true → digitLed (wordsOf (c :: r)) = false := by
      intro cased
      obtain ⟨letter, other⟩ := casedLetter (ascii c List.mem_cons_self) cased
      exact letterLed ascii letter other
    cases kind with
    | camel => simp [cutAgain, led (.inl (Bool.and_eq_true_iff.mp h).1)]
    | pascal => simp [cutAgain, led (.inr (Bool.and_eq_true_iff.mp h).1)]
    | _ => rfl

theorem setTogether (chosen : kind = .camel ∨ kind = .pascal) (h : conforms kind s.toList = false) :
    setCase s kind = String.ofList (together kind (wordsOf s.toList)) := by
  rcases chosen with rfl | rfl
  · rw [setCase, h, if_neg Bool.false_ne_true, camel]
    cases wordsOf s.toList <;> rfl
  · rw [setCase, h, if_neg Bool.false_ne_true, pascal]
    cases wordsOf s.toList <;> rfl

theorem togetherTaken (chosen : kind = .camel ∨ kind = .pascal) (shaped : ∀ w ∈ ws, Word w) :
    (together kind ws).any kind.refuses = false := by
  refine List.any_eq_false.mpr fun c mem => ?_
  obtain ⟨ascii, plain⟩ := togetherPlain shaped c mem
  have taken : kind.refuses c = false :=
    asciiEach (P := fun c => isAlphanumeric c = true → kind.refuses c = false)
      (by rcases chosen with rfl | rfl <;> decide) ascii plain
  simp [taken]

theorem togetherLetter (chosen : kind = .camel ∨ kind = .pascal) {w : List Char}
    (shaped : ∀ v ∈ (c :: w) :: ws, Word v) (letter : isAsciiLower c = true) :
    conforms kind (together kind ((c :: w) :: ws)) = true := by
  have taken : (!(together kind ((c :: w) :: ws)).any kind.refuses) = true := by
    rw [togetherTaken chosen shaped]
    rfl
  rcases chosen with rfl | rfl
  · exact Bool.and_eq_true_iff.mpr ⟨(small letter).lowercase, taken⟩
  · have led : together .pascal ((c :: w) :: ws) = asciiUpper c :: (w ++ ws.flatMap capitalize) := by
      simp [together, capitalizeWord (shaped _ List.mem_cons_self)]
    rw [led] at taken ⊢
    exact Bool.and_eq_true_iff.mpr ⟨(capital letter).uppercase, taken⟩

theorem togetherDigit (chosen : kind = .camel ∨ kind = .pascal) (numeral : isAsciiDigit c = true)
    (w : List Char) (ws : List (List Char)) :
    together kind ((c :: w) :: ws) = c :: (w ++ ws.flatMap capitalize) ∧
      conforms kind (together kind ((c :: w) :: ws)) = false := by
  have plain := digit numeral
  have same : together kind ((c :: w) :: ws) = c :: (w ++ ws.flatMap capitalize) := by
    have kept : capitalize (c :: w) = c :: w := by
      rw [capitalize, upperSingle plain.ascii, plain.upper]
      rfl
    simp [together, kept]
  refine ⟨same, ?_⟩
  rw [same]
  rcases chosen with rfl | rfl
  · simp [conforms, plain.lowercase]
  · simp [conforms, plain.uppercase]

theorem togetherTwice (chosen : kind = .camel ∨ kind = .pascal) (shaped : ∀ w ∈ ws, Word w) :
    setCase (String.ofList (together kind ws)) kind = String.ofList (together kind ws) ↔
      cutAgain kind ws = false := by
  have asked : (kind == .camel || kind == .pascal) = true := by
    rcases chosen with rfl | rfl <;> rfl
  match ws with
  | [] => rcases chosen with rfl | rfl <;> decide
  | [] :: _ => exact absurd rfl (shaped [] List.mem_cons_self).filled
  | (c :: w) :: r =>
    rcases (shaped _ List.mem_cons_self).begins with letter | numeral
    -- a letter makes the name conform, a digit never does
    · have settled : setCase (String.ofList (together kind ((c :: w) :: r))) kind =
          String.ofList (together kind ((c :: w) :: r)) :=
        setCaseConforming (by simpa using togetherLetter chosen shaped letter)
      simp [settled, cutAgain, digitLed, (small letter).digit]
    · obtain ⟨made, apart⟩ := togetherDigit chosen numeral w r
      obtain ⟨t, us, split, fixed⟩ := joinedAgain numeral shaped
      have again : setCase (String.ofList (together kind ((c :: w) :: r))) kind =
          String.ofList (c :: (t ++ us.flatMap capitalize)) := by
        rw [setTogether chosen (by simpa using apart), String.toList_ofList, made, split,
          (togetherDigit chosen numeral t us).1]
      rw [again, made, String.ofList_inj, List.cons.injEq, cutAgain, asked, digitLed, numeral]
      simpa using fixed

/- Setting the case again changes nothing, unless words written together begin with a digit and two
capitals meet. -/
theorem setCaseTwice (ascii : Ascii s.toList) (kind : NameCase) :
    setCase (setCase s kind) kind = setCase s kind ↔ cutAgain kind (wordsOf s.toList) = false := by
  have shaped := wordsShaped ascii
  cases already : conforms kind s.toList with
  | true => simp [setCaseConforming already, conformingUncut ascii already]
  | false =>
    cases kind with
    | camel | pascal =>
      rw [setTogether (by simp) already]
      exact togetherTwice (by simp) shaped
    | snake | kebab =>
      rw [setJoined (by simp) already, setCaseConforming (by simpa using joinedConforms (by simp) shaped)]
      simp [cutAgain]
    | preserve => cases already

theorem acronymTwice : setCase "list_HTTPServers" .camel = "listHttpServers" ∧
    setCase "listHttpServers" .camel = "listHttpServers" := by
  have ascii : Ascii "list_HTTPServers".toList := by decide
  have once : setCase "list_HTTPServers" .camel = "listHttpServers" := by decide
  have settled := (setCaseTwice ascii .camel).mpr (by decide)
  exact ⟨once, by rwa [once] at settled⟩

/- The single letters f and a are one word when the name is read again. -/
theorem factorRecut : setCase "2-f-a" .camel = "2FA" ∧ setCase "2FA" .camel = "2Fa" ∧
    setCase (setCase "2-f-a" .camel) .camel ≠ setCase "2-f-a" .camel := by
  decide

end Twice
end ApiGraph.Words
