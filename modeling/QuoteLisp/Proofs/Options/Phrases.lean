import QuoteLisp.Options.Basic

/-!
# Command lines as phrases

One or two words of a command line say one thing: a path, a flag, or `--prelude` with the file after
it. Such a `Phrase` is taken as a whole, so a file that looks like an option is no option. What a
sequence of phrases comes to can be read off without going through it word by word: the paths in
their order, the last prelude that is named, and which flags occur (`Options.foldl_add`).

From the left, every command line is a sequence of phrases, up to its end or up to words that begin
no phrase (`Options.exists_phrases`). Those are the ones that are refused, and the first of these
words is the reason.
-/

namespace QuoteLisp

namespace Options

/-- The words that ask for help or for the version where they come first. -/
def requestWords : List String :=
  ["help", "--help", "-h", "version", "--version", "-v"]

/-- The command line does not begin with a word that asks for help or for the version. -/
def AsksToRun (words : List String) : Prop :=
  ∀ word ∈ words.head?, word ∉ requestWords

instance (words : List String) : Decidable (AsksToRun words) :=
  inferInstanceAs (Decidable (∀ word ∈ words.head?, word ∉ requestWords))

/-- Words that say one thing together. -/
inductive Phrase where
  | path (text : String) (isPath : looksLikeOption text = false ∧ text ≠ "-i")
  /-- The flag for the prompt, in its long form or in its short one. -/
  | interactive (long : Bool)
  | noPrelude
  | prelude (file : String)
  deriving DecidableEq

namespace Phrase

/-- The words of a phrase. -/
def words : Phrase → List String
  | path text _ => [text]
  | interactive long => [if long then "--interactive" else "-i"]
  | noPrelude => ["--no-prelude"]
  | prelude file => ["--prelude", file]

/-- The path that a phrase is, if it is one. -/
def path? : Phrase → Option String
  | path text _ => some text
  | _ => none

/-- The prelude that a phrase names, if it names one. -/
def prelude? : Phrase → Option String
  | prelude file => some file
  | _ => none

/-- Whether a phrase is the flag for the prompt. -/
def isInteractive : Phrase → Bool
  | interactive _ => true
  | _ => false

/-- Whether a phrase asks for no prelude. -/
def isNoPrelude : Phrase → Bool
  | noPrelude => true
  | _ => false

/-- What a phrase adds to the words that are sorted already. -/
def add (sorted : Words) : Phrase → Words
  | path text _ => { sorted with paths := text :: sorted.paths }
  | interactive _ => { sorted with interactive := true }
  | noPrelude => { sorted with noPrelude := true }
  | prelude file => { sorted with prelude := some file }

end Phrase

/-! ## What phrases say -/

variable (phrases : List Phrase)

/-- The words of a command line made of phrases. -/
def wordsOf : List String :=
  phrases.flatMap Phrase.words

theorem wordsOf_cons (phrase : Phrase) (phrases : List Phrase) :
    wordsOf (phrase :: phrases) = phrase.words ++ wordsOf phrases :=
  List.flatMap_cons

/-- The paths among some phrases, in order. -/
def pathsOf : List String :=
  phrases.filterMap Phrase.path?

/-- The preludes that some phrases name, in order. -/
def preludesOf : List String :=
  phrases.filterMap Phrase.prelude?

/-- The prelude that phrases ask for: the last one that is named, or else none if there is to be
none, or else the one that the environment names, or else the standard one. -/
def preludeOf (named : Option String) : Prelude :=
  match (preludesOf phrases).getLast? with
  | some file => .explicit file
  | none =>
    if phrases.any Phrase.isNoPrelude then .disabled
    else
      match named with
      | some file => .explicit file
      | none => .standard standardPrelude

/-- Some phrase names a prelude, and some phrase asks for none. -/
def Conflicts : Prop :=
  preludesOf phrases ≠ [] ∧ phrases.any Phrase.isNoPrelude

instance : Decidable (Conflicts phrases) :=
  inferInstanceAs (Decidable (_ ∧ _))

/-- The sorted words are told by the last prelude, the flags and the paths. -/
theorem foldl_add (sorted : Words) :
    phrases.foldl Phrase.add sorted
      = ⟨(preludesOf phrases).getLast?.or sorted.prelude,
          sorted.noPrelude || phrases.any Phrase.isNoPrelude,
          sorted.interactive || phrases.any Phrase.isInteractive,
          (pathsOf phrases).reverse ++ sorted.paths⟩ := by
  induction phrases generalizing sorted with
  | nil => simp [preludesOf, pathsOf]
  | cons phrase phrases ih =>
    rw [List.foldl_cons, ih]
    cases phrase <;>
      simp [Phrase.add, preludesOf, pathsOf, Phrase.path?, Phrase.prelude?, Phrase.isInteractive,
        Phrase.isNoPrelude, List.filterMap_cons, List.getLast?_cons]

/-! ## Sorting phrases -/

section

variable {words rest : List String} {word : String} {cause : OptionError}

theorem sortWords_cons_of_ne (h : word ≠ "--prelude") (sorted : Words) (words : List String) :
    sortWords sorted (word :: words)
      = if word = "--no-prelude" then sortWords { sorted with noPrelude := true } words
        else if word = "--interactive" ∨ word = "-i" then
          sortWords { sorted with interactive := true } words
        else if looksLikeOption word then .error (.unknown word)
        else sortWords { sorted with paths := word :: sorted.paths } words :=
  sortWords.eq_4 _ _ _ (fun heq _ ↦ h heq) (fun _ _ heq _ ↦ h heq)

/-- A phrase is sorted as a whole. -/
theorem sortWords_words_append (sorted : Words) (phrase : Phrase) (rest : List String) :
    sortWords sorted (phrase.words ++ rest) = sortWords (phrase.add sorted) rest := by
  cases phrase with
  | path text isPath =>
    obtain ⟨hlook, hshort⟩ := isPath
    have hne {option : String} (hoption : looksLikeOption option = true) : text ≠ option := by
      rintro rfl
      rw [hlook] at hoption
      cases hoption
    change sortWords sorted (text :: rest) = _
    rw [sortWords_cons_of_ne (hne (by decide)), if_neg (hne (by decide)),
      if_neg (not_or.mpr ⟨hne (by decide), hshort⟩),
      if_neg (by rw [hlook]; exact Bool.false_ne_true)]
    rfl
  | interactive long => cases long <;> rfl
  | noPrelude | prelude => rfl

theorem sortWords_wordsOf_append (sorted : Words) (phrases : List Phrase) (rest : List String) :
    sortWords sorted (wordsOf phrases ++ rest)
      = sortWords (phrases.foldl Phrase.add sorted) rest := by
  induction phrases generalizing sorted with
  | nil => rfl
  | cons phrase phrases ih =>
    rw [wordsOf_cons, List.append_assoc, sortWords_words_append, ih, List.foldl_cons]

/-! ## Words that begin no phrase -/

/-- The first word does not begin a phrase, for the reason given. -/
inductive Refused : List String → OptionError → Prop
  | preludeWithoutFile : Refused ["--prelude"] .preludeWithoutFile
  | unknown {option : String} {rest : List String} :
      looksLikeOption option = true → option ∉ ["--prelude", "--no-prelude", "--interactive"] →
      Refused (option :: rest) (.unknown option)

theorem Refused.sortWords_eq_error (h : Refused rest cause) (sorted : Words) :
    sortWords sorted rest = .error cause := by
  cases h with
  | preludeWithoutFile => rfl
  | unknown hlook hknown =>
    simp only [List.mem_cons, List.not_mem_nil, or_false, not_or] at hknown
    obtain ⟨hprelude, hno, hlong⟩ := hknown
    have hshort : ∀ option, looksLikeOption option = true → option ≠ "-i" := by
      rintro _ hlook rfl
      exact absurd hlook (by decide)
    rw [sortWords_cons_of_ne hprelude, if_neg hno, if_neg (not_or.mpr ⟨hlong, hshort _ hlook⟩),
      if_pos hlook]

/-- Every word but `--prelude` is a phrase of its own or begins none. -/
theorem exists_words_eq_or_refused (h : word ≠ "--prelude") (rest : List String) :
    (∃ phrase : Phrase, phrase.words = [word]) ∨ Refused (word :: rest) (.unknown word) := by
  by_cases hlook : looksLikeOption word = true
  · by_cases hno : word = "--no-prelude"
    · exact Or.inl ⟨.noPrelude, by rw [hno]; rfl⟩
    · by_cases hlong : word = "--interactive"
      · exact Or.inl ⟨.interactive true, by rw [hlong]; rfl⟩
      · exact Or.inr (.unknown hlook (by simp [h, hno, hlong]))
  · by_cases hshort : word = "-i"
    · exact Or.inl ⟨.interactive false, by rw [hshort]; rfl⟩
    · exact Or.inl ⟨.path word ⟨eq_false_of_ne_true hlook, hshort⟩, rfl⟩

/-- From the left a command line is a sequence of phrases, up to words that begin no phrase. -/
theorem exists_phrases (words : List String) :
    ∃ phrases rest, words = wordsOf phrases ++ rest ∧ (rest = [] ∨ ∃ cause, Refused rest cause) := by
  match words with
  | [] => exact ⟨[], [], rfl, Or.inl rfl⟩
  | word :: words =>
    by_cases hprelude : word = "--prelude"
    · subst hprelude
      match words with
      | [] => exact ⟨[], _, rfl, Or.inr ⟨_, .preludeWithoutFile⟩⟩
      | file :: words =>
        obtain ⟨phrases, rest, rfl, hrest⟩ := exists_phrases words
        exact ⟨.prelude file :: phrases, rest, rfl, hrest⟩
    · obtain ⟨phrase, hphrase⟩ | hrefused := exists_words_eq_or_refused hprelude words
      · obtain ⟨phrases, rest, rfl, hrest⟩ := exists_phrases words
        refine ⟨phrase :: phrases, rest, ?_, hrest⟩
        rw [wordsOf_cons, hphrase]
        rfl
      · exact ⟨[], _, rfl, Or.inr ⟨_, hrefused⟩⟩
termination_by words.length

/-- No sequence of phrases goes on with words that begin no phrase. -/
theorem Refused.append_ne_wordsOf (h : Refused rest cause) (phrases phrases' : List Phrase) :
    wordsOf phrases ++ rest ≠ wordsOf phrases' := by
  intro heq
  have hrefused := sortWords_wordsOf_append ⟨none, false, false, []⟩ phrases rest
  have hsorted := sortWords_wordsOf_append ⟨none, false, false, []⟩ phrases' []
  rw [List.append_nil, ← heq, hrefused, h.sortWords_eq_error, sortWords] at hsorted
  cases hsorted

end

/-! ## Options of phrases -/

variable {phrases}

theorem choosePrelude_of_conflicts (h : Conflicts phrases) (named : Option String)
    (interactive : Bool) (paths : List String) :
    choosePrelude ⟨(preludesOf phrases).getLast?, phrases.any Phrase.isNoPrelude, interactive,
        paths⟩ named = .error .preludeConflict := by
  obtain ⟨hne, hno⟩ := h
  rw [choosePrelude, List.getLast?_eq_some_getLast hne, hno]

theorem choosePrelude_of_not_conflicts (h : ¬Conflicts phrases) (named : Option String)
    (interactive : Bool) (paths : List String) :
    choosePrelude ⟨(preludesOf phrases).getLast?, phrases.any Phrase.isNoPrelude, interactive,
        paths⟩ named = .ok (preludeOf phrases named) := by
  rw [choosePrelude, preludeOf.eq_def]
  cases hlast : (preludesOf phrases).getLast? with
  | none => cases phrases.any Phrase.isNoPrelude <;> cases named <;> rfl
  | some file =>
    have hne : preludesOf phrases ≠ [] := fun hnil ↦ by simp [hnil] at hlast
    rw [eq_false_of_ne_true fun hno ↦ h ⟨hne, hno⟩]

/-- What phrases ask for is decided once their words are sorted. -/
theorem ofWords_wordsOf (phrases : List Phrase) (named : Option String) :
    ofWords (wordsOf phrases) named
      = (choosePrelude ⟨(preludesOf phrases).getLast?, phrases.any Phrase.isNoPrelude,
            phrases.any Phrase.isInteractive, (pathsOf phrases).reverse⟩ named).map
          fun prelude ↦ ⟨prelude, pathsOf phrases, phrases.any Phrase.isInteractive⟩ := by
  have hsort := sortWords_wordsOf_append ⟨none, false, false, []⟩ phrases []
  rw [List.append_nil, foldl_add, sortWords, Option.or_none, Bool.false_or, Bool.false_or,
    List.append_nil] at hsort
  rw [ofWords, hsort]
  change (do
    let prelude ← choosePrelude _ named
    return Options.mk prelude (pathsOf phrases).reverse.reverse _) = _
  rw [List.reverse_reverse]
  cases choosePrelude ⟨(preludesOf phrases).getLast?, phrases.any Phrase.isNoPrelude,
    phrases.any Phrase.isInteractive, (pathsOf phrases).reverse⟩ named <;> rfl

theorem ofWords_of_refused {rest : List String} {cause : OptionError} (h : Refused rest cause)
    (phrases : List Phrase) (named : Option String) :
    ofWords (wordsOf phrases ++ rest) named = .error cause := by
  rw [ofWords, sortWords_wordsOf_append, h.sortWords_eq_error]
  rfl

end Options

namespace Command

open Options

/-- A command line that asks to run asks for what its options say. -/
theorem ofWords_of_asksToRun {words : List String} (h : AsksToRun words) (named : Option String) :
    Command.ofWords words named
      = match Options.ofWords words named with
        | .error cause => .error (.config cause.message)
        | .ok options => .ok (.run options) := by
  have hne {word : String} (hword : word ∈ requestWords) : words.head? ≠ some word := fun heq ↦
    h word heq hword
  rw [Command.ofWords]
  split
  case h_7 => rfl
  all_goals exact absurd ‹_› (hne (by decide))

variable {phrases phrases' : List Phrase}

theorem ofWords_of_conflicts (hrun : AsksToRun (wordsOf phrases)) (h : Conflicts phrases)
    (named : Option String) :
    Command.ofWords (wordsOf phrases) named
      = .error (.config OptionError.preludeConflict.message) := by
  rw [ofWords_of_asksToRun hrun, ofWords_wordsOf, choosePrelude_of_conflicts h]
  rfl

theorem ofWords_of_not_conflicts (hrun : AsksToRun (wordsOf phrases)) (h : ¬Conflicts phrases)
    (named : Option String) :
    Command.ofWords (wordsOf phrases) named
      = .ok (.run ⟨preludeOf phrases named, pathsOf phrases,
          phrases.any Phrase.isInteractive⟩) := by
  rw [ofWords_of_asksToRun hrun, ofWords_wordsOf, choosePrelude_of_not_conflicts h]
  rfl

/-- Phrases in another order say the same, if the paths are in the same order and so are the
preludes. -/
theorem ofWords_congr (hrun : AsksToRun (wordsOf phrases)) (hrun' : AsksToRun (wordsOf phrases'))
    (hperm : phrases.Perm phrases') (hpaths : pathsOf phrases = pathsOf phrases')
    (hpreludes : preludesOf phrases = preludesOf phrases') (named : Option String) :
    Command.ofWords (wordsOf phrases) named = Command.ofWords (wordsOf phrases') named := by
  have hany (p : Phrase → Bool) : phrases.any p = phrases'.any p := hperm.any_eq
  rw [ofWords_of_asksToRun hrun, ofWords_of_asksToRun hrun', ofWords_wordsOf, ofWords_wordsOf,
    hpaths, hpreludes, hany, hany]

/-- **Options may come in any order.** Take a command line that is made of phrases and does not
begin with a word that asks for help or for the version. It is refused if one phrase names a prelude
and another asks for none. Otherwise it asks to run with the paths in their order, with the prompt
if there is a flag for it, and with the last prelude that is named, or else none if a phrase asks
for none, or else the one that the environment names, or else the standard one. So it says the same
in every order of the phrases that keeps the order of the paths and that of the preludes. Every
other command line is refused, because of the first words of it that begin no phrase. -/
theorem decided_by_phrases (named : Option String) :
    (∀ phrases, AsksToRun (wordsOf phrases) →
      (Conflicts phrases → Command.ofWords (wordsOf phrases) named
        = .error (.config OptionError.preludeConflict.message)) ∧
      (¬Conflicts phrases → Command.ofWords (wordsOf phrases) named
        = .ok (.run ⟨preludeOf phrases named, pathsOf phrases,
            phrases.any Phrase.isInteractive⟩))) ∧
    (∀ phrases phrases' : List Phrase, phrases.Perm phrases' →
      pathsOf phrases = pathsOf phrases' → preludesOf phrases = preludesOf phrases' →
      AsksToRun (wordsOf phrases) → AsksToRun (wordsOf phrases') →
      Command.ofWords (wordsOf phrases) named = Command.ofWords (wordsOf phrases') named) ∧
    ∀ words, AsksToRun words → (∀ phrases, words ≠ wordsOf phrases) →
      ∃ phrases rest cause, words = wordsOf phrases ++ rest ∧ Refused rest cause ∧
        Command.ofWords words named = .error (.config cause.message) := by
  refine ⟨fun phrases hrun ↦ ⟨fun h ↦ ofWords_of_conflicts hrun h named,
    fun h ↦ ofWords_of_not_conflicts hrun h named⟩, ?_, fun words hrun hother ↦ ?_⟩
  · intro phrases phrases' hperm hpaths hpreludes hrun hrun'
    exact ofWords_congr hrun hrun' hperm hpaths hpreludes named
  · obtain ⟨phrases, rest, rfl, rfl | ⟨cause, hrefused⟩⟩ := exists_phrases words
    · exact absurd (List.append_nil _) (hother phrases)
    · refine ⟨phrases, rest, cause, rfl, hrefused, ?_⟩
      rw [ofWords_of_asksToRun hrun, ofWords_of_refused hrefused]

/-- A file that looks like a flag, flags in another order, a conflict, and a prelude without its
file after a path. -/
theorem decided_by_phrases_of_flag_as_file :
    Command.ofWords ["a", "--prelude", "--no-prelude", "-i", "-h", "--prelude", "b"] (some "c")
        = .ok (.run ⟨.explicit "b", ["a", "-h"], true⟩) ∧
      Command.ofWords ["-i", "--prelude", "--no-prelude", "a", "--prelude", "b", "-h"] (some "c")
        = .ok (.run ⟨.explicit "b", ["a", "-h"], true⟩) ∧
      Command.ofWords ["--no-prelude", "--prelude", "b"] none
        = .error (.config "'--prelude' and '--no-prelude' cannot be combined") ∧
      ∃ cause : OptionError,
        Command.ofWords ["a", "--prelude"] none = .error (.config cause.message) := by
  let a : Phrase := .path "a" (by decide)
  let h : Phrase := .path "-h" (by decide)
  have hfirst : Command.ofWords (wordsOf [a, .prelude "--no-prelude", .interactive false, h,
      .prelude "b"]) (some "c") = .ok (.run ⟨.explicit "b", ["a", "-h"], true⟩) :=
    ((decided_by_phrases (some "c")).1 _ (by decide)).2 (by decide)
  have hperm : [a, .prelude "--no-prelude", .interactive false, h, .prelude "b"].Perm
      [.interactive false, .prelude "--no-prelude", a, .prelude "b", h] := by decide
  have hsame := (decided_by_phrases (some "c")).2.1 _ _ hperm rfl rfl (by decide) (by decide)
  refine ⟨hfirst, hsame.symm.trans hfirst, ?_, ?_⟩
  · exact ((decided_by_phrases none).1 [.noPrelude, .prelude "b"] (by decide)).1 (by decide)
  · obtain ⟨-, -, cause, -, -, hrefused⟩ := (decided_by_phrases none).2.2 ["a", "--prelude"]
      (by decide) (Refused.preludeWithoutFile.append_ne_wordsOf [a])
    exact ⟨cause, hrefused⟩

end Command

end QuoteLisp
