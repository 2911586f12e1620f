import Treewalk.Proofs.Scanning

/-!
Scanning undoes printing. Once a blank follows, what a lexeme scans to depends on the lexeme alone: no
longer symbol, word or number can take it in. The lexemes of a text, joined by single blanks, therefore
scan to the tokens they were taken from.
-/

namespace Treewalk

/-- A text that is empty or starts with a blank. -/
def Parted (cs : List Char) : Prop :=
  ∀ c ∈ cs.head?, c = ' '

theorem parted_cases {cs : List Char} (parted : Parted cs) : cs = [] ∨ ∃ more, cs = ' ' :: more := by
  cases cs with
  | nil => exact .inl rfl
  | cons c more => exact .inr ⟨more, congrArg (· :: more) (parted c rfl)⟩

namespace Piece

theorem span_parted {p : Char → Bool} {cs after : List Char} (held : ∀ c ∈ cs, p c = true)
    (stop : p ' ' = false) (parted : Parted after) :
    (cs ++ after).takeWhile p = cs ∧ (cs ++ after).dropWhile p = after := by
  rw [List.takeWhile_append_of_pos held, List.dropWhile_append_of_pos held]
  obtain rfl | ⟨more, rfl⟩ := parted_cases parted
  · simp
  · simp [stop]

/-- A symbol holds no blank, so it is found in front of a parted text only if it is found there alone. -/
theorem isPrefixOf_parted {symbol cs after : List Char} (solid : ' ' ∉ symbol) (parted : Parted after) :
    symbol.isPrefixOf (cs ++ after) = symbol.isPrefixOf cs := by
  induction symbol generalizing cs with
  | nil => simp
  | cons d symbol ih =>
    have notBlank : d ≠ ' ' := fun same => solid (by simp [same])
    have rest : ' ' ∉ symbol := fun member => solid (by simp [member])
    cases cs with
    | nil =>
      obtain rfl | ⟨more, rfl⟩ := parted_cases parted
      · rfl
      · simp [List.isPrefixOf, notBlank]
    | cons c cs => simp [List.isPrefixOf, ih rest]

theorem symbol?_parted {cs after : List Char} (parted : Parted after) :
    symbol? (cs ++ after) = symbol? cs := by
  have solid : ∀ entry ∈ TokenKind.symbols, ' ' ∉ entry.1.toList := by decide +kernel
  have same : ∀ entry ∈ TokenKind.symbols,
      entry.1.toList.isPrefixOf (cs ++ after) = entry.1.toList.isPrefixOf cs :=
    fun entry member => isPrefixOf_parted (solid entry member) parted
  unfold symbol?
  congr 1
  generalize TokenKind.symbols = entries at same
  induction entries with
  | nil => rfl
  | cons entry entries ih =>
    simp only [List.find?_cons, same entry (by simp), ih fun other member => same other (by simp [member])]

/-- The first character of a symbol starts no other sort of piece, and slashes that are no comment. -/
theorem symbols_start : ∀ entry ∈ TokenKind.symbols, ∀ c ∈ entry.1.toList.head?,
    isBlank c = false ∧ c ≠ '"' ∧ c.isDigit = false ∧ isLetter c = false ∧
      entry.1.toList[1]? ≠ some '/' := by
  have checked : TokenKind.symbols.all (fun entry => entry.1.toList.head?.all fun c =>
      isBlank c = false ∧ c ≠ '"' ∧ c.isDigit = false ∧ isLetter c = false ∧
        entry.1.toList[1]? ≠ some '/') = true := by
    decide +kernel
  intro entry member c first
  have held := List.all_eq_true.mp checked entry member
  rw [Option.mem_def.mp first, Option.all_some] at held
  exact of_decide_eq_true held

theorem symbol_next {text : String} {kind : TokenKind} (listed : (text, kind) ∈ TokenKind.symbols) :
    ∃ c rest, text.toList = c :: rest ∧ ∀ after, Parted after →
      next c (rest ++ after) = (.token kind text.toList, after) := by
  have first : ∀ entry ∈ TokenKind.symbols, symbol? entry.1.toList = some (entry.2, entry.1.toList) := by
    decide +kernel
  obtain ⟨c, rest, same⟩ := List.exists_cons_of_ne_nil (symbols_nonempty _ listed)
  obtain ⟨notBlank, notQuote, notDigit, notLetter, second⟩ := symbols_start _ listed c (by simp [same])
  refine ⟨c, rest, same, fun after parted => ?_⟩
  have found : symbol? (c :: (rest ++ after)) = some (kind, text.toList) := by
    rw [← List.cons_append, symbol?_parted parted, ← same]
    exact first _ listed
  have plain : (rest ++ after).head? ≠ some '/' := by
    cases rest with
    | nil =>
      intro slash
      cases parted _ slash
    | cons d rest => simpa [same] using second
  have noComment : ¬(c = '/' ∧ (rest ++ after).head? = some '/') := fun slashes => plain slashes.2
  simp only [next, notBlank, noComment, notQuote, notDigit, notLetter, found, Bool.false_eq_true, if_false]
  simp [same]

theorem wordChar_starts {c : Char} (held : isWordChar c = true) :
    isBlank c = false ∧ c ≠ '/' ∧ c ≠ '"' := by
  refine ⟨Bool.eq_false_iff.mpr fun blank => ?_, ?_, ?_⟩
  · simp only [isBlank, Bool.or_eq_true, decide_eq_true_eq] at blank
    obtain ((rfl | rfl) | rfl) | rfl := blank <;> exact absurd held (by decide)
  all_goals
    rintro rfl
    exact absurd held (by decide)

theorem letter_notDigit {c : Char} (letter : isLetter c = true) : c.isDigit = false := by
  have alpha : c.isAlpha = (c.isUpper || c.isLower) := rfl
  have upper : c.isUpper = decide (c.val ≥ 'A'.val ∧ c.val ≤ 'Z'.val) := rfl
  have lower : c.isLower = (decide (c.val ≥ 'a'.val) && decide (c.val ≤ 'z'.val)) := rfl
  simp only [isLetter, alpha, upper, lower, Bool.or_eq_true, Bool.and_eq_true, decide_eq_true_eq] at letter
  simp only [Char.isDigit, Bool.and_eq_false_iff, decide_eq_false_iff_not]
  obtain (upper | lower) | rfl := letter
  · grind
  · grind
  · decide

theorem word_next {c : Char} {rest after : List Char} (letter : isLetter c = true)
    (more : ∀ d ∈ rest, isWordChar d = true) (parted : Parted after) :
    next c (rest ++ after) = (ofWord (c :: rest), after) := by
  obtain ⟨notBlank, notSlash, notQuote⟩ := wordChar_starts (c := c) (by simp [isWordChar, letter])
  have notDigit := letter_notDigit letter
  obtain ⟨taken, left⟩ := span_parted more (by decide) parted
  simp [next, notBlank, notSlash, notQuote, notDigit, letter, taken, left]

theorem number_next {c : Char} {rest after : List Char} (digit : c.isDigit = true)
    (numeral : splitNumber (c :: rest ++ after) = (c :: rest, after)) :
    next c (rest ++ after) = (.token .number (c :: rest), after) := by
  obtain ⟨notBlank, notSlash, notQuote⟩ := wordChar_starts (c := c) (by simp [isWordChar, digit])
  simp only [List.cons_append] at numeral
  simp [next, notBlank, notSlash, notQuote, digit, numeral]

theorem whole_splits {digits after : List Char} (held : ∀ d ∈ digits, d.isDigit = true)
    (parted : Parted after) : splitNumber (digits ++ after) = (digits, after) := by
  obtain ⟨taken, left⟩ := span_parted held (by decide) parted
  unfold splitNumber
  dsimp only
  rw [taken, left]
  obtain rfl | ⟨more, rfl⟩ := parted_cases parted <;> rfl

theorem fraction_splits {whole decimals after : List Char} {d : Char}
    (held : ∀ e ∈ whole, e.isDigit = true) (later : ∀ e ∈ d :: decimals, e.isDigit = true)
    (parted : Parted after) :
    splitNumber (whole ++ '.' :: d :: decimals ++ after) = (whole ++ '.' :: d :: decimals, after) := by
  obtain ⟨taken, left⟩ := span_parted later (by decide) parted
  have first : d.isDigit = true := later d (by simp)
  unfold splitNumber
  dsimp only
  rw [List.append_assoc, List.takeWhile_append_of_pos held, List.dropWhile_append_of_pos held]
  simp only [List.cons_append] at taken left ⊢
  have point : ¬('.'.isDigit = true) := by decide
  simp only [List.takeWhile_cons_of_neg point, List.dropWhile_cons_of_neg point, first, if_true, taken, left,
    List.append_nil]

theorem string_next {inside after : List Char} (enclosed : '"' ∉ inside) :
    next '"' (inside ++ ['"'] ++ after) = (.token .string ('"' :: inside ++ ['"']), after) := by
  have held : ∀ c ∈ inside, decide (c ≠ '"') = true := fun c member => by
    simpa using fun same : c = '"' => enclosed (same ▸ member)
  have split : splitString (inside ++ ['"'] ++ after) = (.token .string ('"' :: inside ++ ['"']), after) := by
    unfold splitString
    dsimp only
    rw [List.append_assoc, List.takeWhile_append_of_pos held, List.dropWhile_append_of_pos held]
    simp
  rw [← split]
  rfl

/-- A lexeme that is parted from what follows scans to its own token. -/
theorem spelled_next {kind : TokenKind} {lexeme : List Char} (spelled : Spelled kind lexeme) :
    ∃ c rest, lexeme = c :: rest ∧ ∀ after, Parted after →
      next c (rest ++ after) = (.token kind lexeme, after) := by
  cases spelled with
  | symbol listed => exact symbol_next listed
  | word listed =>
    have letters : ∀ entry ∈ TokenKind.words,
        entry.1.toList ≠ [] ∧ entry.1.toList.all isLetter = true := by
      decide +kernel
    have unique : ∀ entry ∈ TokenKind.words,
        TokenKind.words.find? (fun other => other.1.toList = entry.1.toList) = some entry := by
      decide +kernel
    obtain ⟨filled, held⟩ := letters _ listed
    obtain ⟨c, rest, same⟩ := List.exists_cons_of_ne_nil filled
    rw [List.all_eq_true] at held
    have letter : isLetter c = true := held c (by simp [same])
    have more : ∀ d ∈ rest, isWordChar d = true := fun d member => by
      simp [isWordChar, held d (by simp [same, member])]
    refine ⟨c, rest, same, fun after parted => ?_⟩
    rw [word_next letter more parted, ← same, ofWord, unique _ listed]
  | @identifier c rest letter more free =>
    refine ⟨c, rest, rfl, fun after parted => ?_⟩
    rw [word_next letter more parted]
    have absent : TokenKind.words.find? (fun entry => entry.1.toList = c :: rest) = none :=
      List.find?_eq_none.mpr fun entry member same => free ⟨entry, member, by simpa using same⟩
    rw [ofWord, absent]
  | @whole c rest digits =>
    exact ⟨c, rest, rfl, fun after parted =>
      number_next (digits c (by simp)) (whole_splits digits parted)⟩
  | @fraction c d whole rest digits decimals =>
    exact ⟨c, whole ++ '.' :: d :: rest, rfl, fun after parted =>
      number_next (digits c (by simp)) (fraction_splits digits decimals parted)⟩
  | @string inside enclosed => exact ⟨'"', inside ++ ['"'], rfl, fun after _ => string_next enclosed⟩

theorem split_fuel {fuel more : Nat} {cs : List Char} (enough : cs.length ≤ fuel) (also : cs.length ≤ more) :
    split fuel cs = split more cs := by
  induction fuel generalizing cs more with
  | zero =>
    obtain rfl : cs = [] := List.eq_nil_of_length_eq_zero (by omega)
    cases more <;> rfl
  | succ fuel ih =>
    cases cs with
    | nil => cases more <;> rfl
    | cons c rest =>
      have shorter := next_shorter c rest
      simp only [List.length_cons] at enough also
      cases more with
      | zero => omega
      | succ more =>
        have tails : split fuel (next c rest).2 = split more (next c rest).2 := ih (by omega) (by omega)
        exact congrArg ((next c rest).1 :: ·) tails

theorem pieces_cons (c : Char) (rest : List Char) :
    pieces (c :: rest) = (next c rest).1 :: pieces (next c rest).2 :=
  congrArg ((next c rest).1 :: ·) (split_fuel (next_shorter c rest) le_rfl)

end Piece

/-- What a token says apart from where it stands. -/
def Token.reading (t : Token) : TokenKind × String × Option Literal :=
  (t.kind, t.lexeme, t.literal?)

def Piece.reading? : Piece → Option (TokenKind × String × Option Literal)
  | .token kind lexeme => some (Token.reading ⟨kind, String.ofList lexeme, 0⟩)
  | _ => none

theorem tokensFrom_readings (line : Line) (ps : List Piece) :
    (tokensFrom line ps).map Token.reading = ps.filterMap Piece.reading? := by
  induction ps generalizing line with
  | nil => rfl
  | cons piece rest ih =>
    cases piece with
    | token kind lexeme => exact congrArg (_ :: ·) (ih _)
    | _ => exact ih _

/-- Lexemes joined by single blanks split into their tokens and the blanks. The lexeme that ends a text is
empty: counted in, it leaves a blank at the end and nothing else. -/
theorem pieces_spaced {ending : List (List Char)} (empty : ending = [] ∨ ending = [[]]) {ts : List Token}
    (spelled : ∀ t ∈ ts, Spelled t.kind t.lexeme.toList) :
    (pieces ([' '].intercalate (ts.map (·.lexeme.toList) ++ ending))).filterMap Piece.reading? =
        ts.map Token.reading ∧
      ∀ piece ∈ pieces ([' '].intercalate (ts.map (·.lexeme.toList) ++ ending)), piece.isMistake = false := by
  induction ts with
  | nil => obtain rfl | rfl := empty <;> simp [pieces, Piece.split]
  | cons t ts ih =>
    obtain ⟨readings, clean⟩ := ih fun t member => spelled t (by simp [member])
    obtain ⟨c, rest, same, scans⟩ := Piece.spelled_next (spelled t (by simp))
    have first : Piece.reading? (.token t.kind t.lexeme.toList) = some t.reading := by
      simp [Piece.reading?, Token.reading, Token.literal?]
    by_cases last : ts.map (·.lexeme.toList) ++ ending = []
    · have alone : pieces t.lexeme.toList = [.token t.kind t.lexeme.toList] := by
        have scanned := scans [] (by simp [Parted])
        rw [List.append_nil] at scanned
        rw [same, Piece.pieces_cons, scanned, ← same]
        rfl
      obtain ⟨none, rfl⟩ := List.append_eq_nil_iff.mp last
      obtain rfl := List.map_eq_nil_iff.mp none
      simp [List.intercalate_singleton, alone, first, Piece.isMistake]
    · generalize joined : [' '].intercalate (ts.map (·.lexeme.toList) ++ ending) = later at readings clean
      have apart : pieces ([' '].intercalate ((t :: ts).map (·.lexeme.toList) ++ ending)) =
          .token t.kind t.lexeme.toList :: .blank ' ' :: pieces later := by
        have parted : Parted (' ' :: later) := fun c blank => by simpa using blank.symm
        rw [List.map_cons, List.cons_append, List.intercalate_cons_of_ne_nil last, joined, same,
          List.append_assoc, List.cons_append, List.singleton_append, Piece.pieces_cons, scans _ parted,
          Piece.pieces_cons, same]
        rfl
      rw [apart]
      refine ⟨?_, by simpa [Piece.isMistake] using clean⟩
      rw [List.filterMap_cons_some first, List.filterMap_cons_none rfl, readings, List.map_cons]

theorem scan_spelled {source : String} {scanned : Tokens} (done : scan source = .ok scanned) :
    ∀ t ∈ scanned.tokens, Spelled t.kind t.lexeme.toList := by
  unfold scan at done
  dsimp only at done
  split at done
  · cases done
    intro t member
    rw [show 1 = Line.ending [] from rfl, tokensFrom_placed] at member
    obtain ⟨⟨before, piece⟩, placed, same⟩ := List.mem_filterMap.mp member
    obtain ⟨after, _, shaped⟩ := Piece.split_shaped le_rfl [] _ placed
    cases piece with
    | token kind lexeme =>
      cases same
      rw [String.toList_ofList]
      exact shaped
    | _ => cases same
  · cases done

theorem scan_clean {source : String} (clean : ∀ piece ∈ pieces source.toList, piece.isMistake = false) :
    scan source = .ok ⟨tokensFrom 1 (pieces source.toList), .ending source.toList⟩ := by
  have none : mistakesFrom 1 (pieces source.toList) = [] := by
    rw [show 1 = Line.ending [] from rfl, mistakesFrom_placed, mistakes_nil]
    exact clean
  unfold scan
  dsimp only
  rw [none, Line.past_one]

/-- The lexemes of a scanned text, joined by single blanks, scan to tokens of the same kinds, lexemes and
literals, whether or not the empty lexeme at the end is counted in. -/
theorem respaced_scans {source : String} {scanned : Tokens} (done : scan source = .ok scanned)
    {ending : List String} (empty : ending = [] ∨ ending = [""]) :
    ∃ again, scan (" ".intercalate (scanned.tokens.map Token.lexeme ++ ending)) = .ok again ∧
      again.tokens.map Token.reading = scanned.tokens.map Token.reading := by
  have blank : ending.map String.toList = [] ∨ ending.map String.toList = [[]] := by
    obtain rfl | rfl := empty
    · exact .inl rfl
    · exact .inr rfl
  have text : (" ".intercalate (scanned.tokens.map Token.lexeme ++ ending)).toList =
      [' '].intercalate (scanned.tokens.map (·.lexeme.toList) ++ ending.map String.toList) := by
    rw [String.toList_intercalate, List.map_append, List.map_map]
    rfl
  obtain ⟨readings, clean⟩ := pieces_spaced blank (scan_spelled done)
  rw [← text] at readings clean
  exact ⟨_, scan_clean clean, (tokensFrom_readings _ _).trans readings⟩

theorem respaced_scans_dense :
    ∃ again, scan "x **= 1.5 ; \"a b\" " = .ok again ∧ again.tokens.map Token.reading =
      [⟨.identifier, "x", 1⟩, ⟨.starStarEqual, "**=", 1⟩, ⟨.number, "1.5", 1⟩, ⟨.semicolon, ";", 1⟩,
        ⟨.string, "\"a b\"", 1⟩].map Token.reading := by
  have done : scan "x**=1.5;\"a b\"//end" = .ok ⟨[⟨.identifier, "x", 1⟩, ⟨.starStarEqual, "**=", 1⟩,
      ⟨.number, "1.5", 1⟩, ⟨.semicolon, ";", 1⟩, ⟨.string, "\"a b\"", 1⟩], 1⟩ := by
    decide +kernel
  exact respaced_scans done (.inr rfl)

end Treewalk
