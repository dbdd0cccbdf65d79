import StanHighlight.Proofs.FirstToken
import StanHighlight.Proofs.LookUp
import StanHighlight.Proofs.Operand

/-!
Calls of densities. A density is a distribution's name with a suffix that no other word of the
language has, so no other rule claims it, whatever state it stands in. Where expressions stand its
call is a call of a function, which is known as a density's only inside of what is added to the
target, at any depth.
-/

namespace StanHighlight

namespace Vocabulary

/-- The bytes of a word. Long lists of words are compared by them, without decoding. -/
def bytes (word : String) : List UInt8 := word.toByteArray.data.toList

@[simp] theorem bytes_append (s t : String) : bytes (s ++ t) = bytes s ++ bytes t := by
  simp [bytes, String.toByteArray_append]

def endsAsDensity (word : String) : Bool :=
  densitySuffixes.any fun suffix => (bytes suffix).isSuffixOf (bytes word)

def otherWords : List (List String) :=
  [reservedWords, controlKeywords, storageTypes, statementKeywords, deprecatedFunctions,
   odeFunctions, algebraSolvers, functions]

theorem endsAsDensity_of_mem_otherWords :
    ∀ words ∈ otherWords, ∀ word ∈ words, endsAsDensity word = false := by
  decide +kernel

theorem suffixes_differ : ∀ suffix ∈ densitySuffixes, ∀ retired ∈ retiredSuffixes,
    ¬bytes suffix <:+ bytes retired ∧ ¬bytes retired <:+ bytes suffix := by
  decide +kernel

variable {word : String}

theorem exists_of_mem_distributionsWith {suffixes : List String}
    (mem : word ∈ distributionsWith suffixes) :
    ∃ name ∈ distributions, ∃ suffix ∈ suffixes, word = name ++ suffix := by
  obtain ⟨name, known, suffix, mem, same⟩ := by simpa [distributionsWith] using mem
  exact ⟨name, known, suffix, mem, same.symm⟩

section Density

variable (density : isDensity word = true)
include density

theorem exists_of_isDensity :
    ∃ name ∈ distributions, ∃ suffix ∈ densitySuffixes, word = name ++ suffix :=
  exists_of_mem_distributionsWith (List.contains_iff_mem.1 density)

theorem endsAsDensity_of_isDensity : endsAsDensity word = true := by
  obtain ⟨name, _, suffix, mem, rfl⟩ := exists_of_isDensity density
  refine List.any_eq_true.2 ⟨suffix, mem, List.isSuffixOf_iff_suffix.2 ?_⟩
  rw [bytes_append]
  exact List.suffix_append (bytes name) (bytes suffix)

theorem contains_eq_false_of_isDensity {words : List String} (other : words ∈ otherWords) :
    words.contains word = false := by
  rw [Bool.eq_false_iff]
  intro known
  have ending := endsAsDensity_of_mem_otherWords words other word (List.contains_iff_mem.1 known)
  rw [endsAsDensity_of_isDensity density] at ending
  cases ending

/-- No retired name of a density is the present name of one. -/
theorem notMem_retiredDensities_of_isDensity : word ∉ retiredDensities := by
  intro retired
  obtain ⟨name, _, suffix, mem, rfl⟩ := exists_of_isDensity density
  obtain ⟨old, _, ending, mem', same⟩ := exists_of_mem_distributionsWith retired
  obtain ⟨longer, shorter⟩ := suffixes_differ suffix mem ending mem'
  have ends : ∀ s t : String, bytes t <:+ bytes (s ++ t) := fun s t => by
    rw [bytes_append]
    exact List.suffix_append (bytes s) (bytes t)
  have here := ends name suffix
  have there := same ▸ ends old ending
  rcases List.suffix_or_suffix_of_suffix here there with h | h
  · exact longer h
  · exact shorter h

theorem builtin?_of_isDensity : builtin? word = none := by
  have other : ∀ words ∈ otherWords, words.contains word = false := fun words listed =>
    contains_eq_false_of_isDensity density listed
  have retired : retiredDensities.contains word = false := by
    rw [Bool.eq_false_iff]
    exact fun listed =>
      notMem_retiredDensities_of_isDensity density (List.contains_iff_mem.1 listed)
  have deprecated := other deprecatedFunctions (by simp [otherWords])
  have ode := other odeFunctions (by simp [otherWords])
  have algebra := other algebraSolvers (by simp [otherWords])
  have function := other functions (by simp [otherWords])
  simp only [builtin?, isDeprecated, deprecated, retired, ode, algebra, function, Bool.and_false,
    Bool.or_false, Bool.false_eq_true, if_false]

end Density

theorem isWord_of_mem_distributions :
    ∀ w ∈ distributions.map String.toList, IsWord w := by
  decide +kernel

/-- A suffix goes on with a word and does not end in two underscores. -/
theorem facts_of_mem_densitySuffixes : ∀ suffix ∈ densitySuffixes.map String.toList,
    suffix.all Text.isWordChar = true ∧ ¬['_', '_'] <:+ suffix ∧ ¬suffix <:+ ['_', '_'] := by
  decide

/-- A density may be chosen as a name: it is neither malformed nor reserved nor a keyword. -/
theorem isName_of_isDensity {w : Text} (density : isDensity (String.ofList w) = true) :
    IsName w := by
  obtain ⟨name, known, suffix, mem, same⟩ := exists_of_isDensity density
  have whole : w = name.toList ++ suffix.toList := by
    simpa using congrArg String.toList same
  have word := isWord_of_mem_distributions _ (List.mem_map_of_mem known)
  obtain ⟨chars, longer, shorter⟩ :=
    facts_of_mem_densitySuffixes _ (List.mem_map_of_mem (f := String.toList) mem)
  obtain ⟨c, more, start, letter⟩ := word.exists_cons
  have other : ∀ words ∈ otherWords, words.contains (String.ofList w) = false :=
    fun words listed => contains_eq_false_of_isDensity density listed
  refine ⟨⟨?_, ?_⟩, ?_, other reservedWords (by simp [otherWords]), ?_⟩
  · rw [whole, start]
    exact letter
  · rw [whole, List.all_append, word.chars, chars]
    rfl
  · have first : w.head? ≠ some '_' := by
      rw [whole, start]
      rintro ⟨⟩
      cases letter
    have last : ¬['_', '_'] <:+ w := by
      intro underscores
      rcases List.suffix_or_suffix_of_suffix underscores
        (whole ▸ List.suffix_append name.toList suffix.toList) with h | h
      · exact longer h
      · exact shorter h
    rw [← List.isSuffixOf_iff_suffix, Bool.not_eq_true] at last
    simp [Rule.isMalformed, first, last]
  · have control := other controlKeywords (by simp [otherWords])
    have type := other storageTypes (by simp [otherWords])
    have statement := other statementKeywords (by simp [otherWords])
    simp only [isKeyword, isControlKeyword, isStorageType, control, type, statement, Bool.or_self]

end Vocabulary

/-- Labels of keywords and operators, of what is reserved or deprecated, and of the functions that
the language provides. -/
@[simp] def Label.isTaken : Label → Bool
  | .reserved | .builtin _ | .deprecatedAssignment
  | .controlKeyword | .returnKeyword | .printKeyword | .rejectKeyword | .target | .truncation
  | .rangeKeyword | .includeDirective
  | .samplingOperator | .logicalOperator | .arithmeticOperator | .ternaryOperator
  | .colonOperator | .assignmentOperator | .initializerSign => true
  | _ => false

namespace Label

variable {l : Label} {s : Step} {p : Piece} {v : Text}

/-- No token has to be spelled with a density. -/
theorem endsAsDensity_of_spellings? {vs : List (List String)} (spelling : l.spellings? = some vs) :
    ∀ us ∈ vs, ∀ u ∈ us, Vocabulary.endsAsDensity u = false := by
  cases l with
  | sectionName sec =>
    cases spelling
    cases sec <;> decide +kernel
  | _ => cases spelling <;> decide +kernel

/-- No label of a token with a density in it is taken by other words or signs. -/
theorem isTaken_of_density (spelled : ∀ vs, l.spellings? = some vs →
      ∃ us ∈ vs, Text.runs p.text = us.map String.toList) (suits : l.Suits s p)
    (mem : v ∈ Text.runs p.text) (density : Vocabulary.isDensity (String.ofList v) = true) :
    l.isTaken = false := by
  cases known : l.spellings? with
  | some vs =>
    obtain ⟨us, spelling, words⟩ := spelled vs known
    obtain ⟨u, here, rfl⟩ := List.mem_map.1 (words ▸ mem)
    have ending := endsAsDensity_of_spellings? known us spelling u here
    rw [String.ofList_toList] at density
    rw [Vocabulary.endsAsDensity_of_isDensity density] at ending
    cases ending
  | none =>
    cases l with
    | reserved =>
      obtain ⟨w, one, reserved⟩ := suits
      obtain rfl := List.mem_singleton.1 (one ▸ mem)
      have free := (Vocabulary.isName_of_isDensity density).free
      rw [reserved] at free
      cases free
    | builtin family =>
      obtain ⟨w, one, family⟩ := suits
      obtain rfl := List.mem_singleton.1 (one ▸ mem)
      rw [Vocabulary.builtin?_of_isDensity density] at family
      cases family
    | samplingOperator | logicalOperator | arithmeticOperator | ternaryOperator | colonOperator
    | assignmentOperator | deprecatedAssignment | initializerSign =>
      have none : Text.runs p.text = [] := suits
      rw [none] at mem
      cases mem
    | _ =>
      first
        | rfl
        | cases known

theorem isTaken_of_mem_labels {s : LineState} (mem : l ∈ s.labels) : l.isTaken = false := by
  have region : ∀ r : Region, ∀ l ∈ r.labels, l.isTaken = false := by
    intro r
    cases r with
    | blockComment documentation => cases documentation <;> decide
    | call callee => cases callee <;> decide
    | _ => simp [Region.labels]
  obtain ⟨f, _, inside⟩ := List.mem_flatMap.1 mem
  exact region f.region l inside

end Label

section Call

variable {s : LineState} {w : Text}

/-- The label of a density's name in front of its arguments. -/
theorem calledName_of_isDensity (density : Vocabulary.isDensity (String.ofList w) = true) :
    Rule.calledName s (String.ofList w) =
      if s.within .accumulation then .knownDistribution else .functionName := by
  simp [Rule.calledName, Vocabulary.builtin?_of_isDensity density, density]

/-- Where expressions stand, a density and its parenthesis begin a call. -/
theorem tokenizeLine_density (lexer : Lexer)
    (density : Vocabulary.isDensity (String.ofList w) = true)
    (host : s.innermost.hosts = true) (rest : Text) :
    lexer.tokenizeLine (w ++ '(' :: rest) s =
      (lexer.tokenizeLine rest (s.enter (.call .function))).behind
        [⟨⟨w, s, [.functionCall, if s.within .accumulation then .knownDistribution
          else .functionName]⟩, 0⟩,
         ⟨⟨['('], s.enter (.call .function), [.begins .arguments]⟩, Text.byteLength w⟩]
        (Text.byteLength (w ++ ['('])) := by
  have name := Vocabulary.isName_of_isDensity density
  have visible : ∀ c ∈ w ++ ['('], Text.isSpace c = false := by
    intro c mem
    rcases List.mem_append.1 mem with mem | mem
    · exact isSpace_of_isWordChar (List.all_eq_true.1 name.chars c mem)
    · rw [List.mem_singleton.1 mem]
      decide
  have strips := Text.stripTerminator_append_of_visible visible rest
  have taken : Step.take lexer false s (w ++ '(' :: Text.stripTerminator rest) = _ :=
    name.take_call host
  rw [calledName_of_isDensity density] at taken
  have whole := tokenizeLine_of_take_row lexer [_] (p := ⟨['('], _, [.begins .arguments]⟩) rfl
    (by simp) (by simp) strips (by simpa [Step.opening, Piece.ofText] using taken)
  have alone : ∀ p : Piece, Piece.joinPlain [p] = [p] := fun _ => rfl
  simpa [alone] using whole

/-- A density is never taken for another word: where expressions stand its call is read as a call,
which is known as that of a distribution if it is part of what is added to the target; and no
lexeme with the density as one of its words is labelled as a keyword, as reserved or deprecated, or
as another function of the language, in whatever state its line begins. -/
theorem densities_known (lexer : Lexer) (density : Vocabulary.isDensity (String.ofList w) = true) :
    (∀ s rest, s.innermost.hosts = true → lexer.tokenizeLine (w ++ '(' :: rest) s =
      (lexer.tokenizeLine rest (s.enter (.call .function))).behind
        [⟨⟨w, s, [.functionCall, if s.within .accumulation then .knownDistribution
          else .functionName]⟩, 0⟩,
         ⟨⟨['('], s.enter (.call .function), [.begins .arguments]⟩, Text.byteLength w⟩]
        (Text.byteLength (w ++ ['(']))) ∧
      ∀ s line, ∀ l ∈ (lexer.tokenizeLine line s).lexemes, w ∈ Text.runs l.text →
        ∀ label ∈ l.scope, label.isTaken = false := by
  refine ⟨fun s rest host => tokenizeLine_density lexer density host rest,
    fun s line l mem word label inside => ?_⟩
  rcases List.mem_append.1 inside with around | own
  · exact Label.isTaken_of_mem_labels around
  · have cut := mem_cut_of_mem_lexemes mem (List.ne_nil_of_mem own)
    obtain ⟨_, suited⟩ := suited_of_mem_cut cut
    exact Label.isTaken_of_density ((spelled_of_mem_cut cut).1.words label own)
      (suited label own) word density

/-- A density deep inside of what is added to the target, in front of another call. -/
theorem densities_known_in_target :
    let lexer : Lexer := ⟨{}, by decide, .prepending⟩
    let s := (lexer.tokenizeLine "model \x7b target += (1 + foo(y[".toList .initial).state
    let w := "poisson_log_lpmf".toList
    let rest := "n] | mu), log(x));".toList
    (s.Reachable ∧ s.innermost = .brackets ∧ s.within .accumulation = true ∧
      Vocabulary.isDensity (String.ofList w) = true) ∧
      lexer.tokenizeLine (w ++ '(' :: rest) s =
        (lexer.tokenizeLine rest (s.enter (.call .function))).behind
          [⟨⟨w, s, [.functionCall, .knownDistribution]⟩, 0⟩,
           ⟨⟨['('], s.enter (.call .function), [.begins .arguments]⟩, 16⟩] 17 := by
  intro lexer s w rest
  have inside : s.innermost = .brackets := by decide +kernel
  have added : s.within .accumulation = true := by decide +kernel
  have density : Vocabulary.isDensity (String.ofList w) = true := by decide +kernel
  have known := (densities_known lexer density).1 s rest (by rw [inside]; rfl)
  rw [if_pos added] at known
  exact ⟨⟨.line _ Segmentation.prepending_partsAscii _ .initial, inside, added, density⟩, known⟩

end Call

end StanHighlight
