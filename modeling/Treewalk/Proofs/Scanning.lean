import Mathlib.Data.List.TakeWhile
import Treewalk.Proofs.Words

/-!
The scanner loses nothing. The pieces of a text, put side by side, are the text; each of them is made of
what its sort allows; and the line of a token or of a mistake is counted off the text that stands before.
-/

namespace Treewalk

/-- The characters that a token of each kind may be written with. -/
inductive Spelled : TokenKind → List Char → Prop where
  | symbol {text : String} {kind : TokenKind} (listed : (text, kind) ∈ TokenKind.symbols) :
    Spelled kind text.toList
  | word {text : String} {kind : TokenKind} (listed : (text, kind) ∈ TokenKind.words) :
    Spelled kind text.toList
  | identifier {c : Char} {rest : List Char} (letter : Piece.isLetter c = true)
    (more : ∀ d ∈ rest, Piece.isWordChar d = true) (free : ¬Piece.Reserved (c :: rest)) :
    Spelled .identifier (c :: rest)
  | whole {c : Char} {rest : List Char} (digits : ∀ d ∈ c :: rest, d.isDigit = true) :
    Spelled .number (c :: rest)
  | fraction {c d : Char} {whole rest : List Char} (digits : ∀ e ∈ c :: whole, e.isDigit = true)
    (decimals : ∀ e ∈ d :: rest, e.isDigit = true) :
    Spelled .number (c :: whole ++ '.' :: d :: rest)
  | string {inside : List Char} (enclosed : '"' ∉ inside) :
    Spelled .string ('"' :: inside ++ ['"'])

/-- The line on which a text ends: one and its newlines, in the 32 bits of a line. -/
def Line.ending (cs : List Char) : Line :=
  .ofNat (1 + newlines cs)

namespace Piece

/-- Whether a character can start a token, a blank or a comment. -/
def CanStart (c : Char) : Prop :=
  isBlank c = true ∨ c = '"' ∨ c.isDigit = true ∨ isLetter c = true ∨
    ∃ entry ∈ TokenKind.symbols, entry.1.toList.head? = some c

/-- What a piece of each sort is made of, and what may follow it. -/
def Shaped (after : List Char) : Piece → Prop
  | .token kind lexeme => Spelled kind lexeme
  | .blank c => isBlank c = true
  | .comment text =>
    (∃ rest, text = '/' :: '/' :: rest) ∧ '\n' ∉ text ∧ ∀ c ∈ after.head?, c = '\n'
  | .unexpected c => ¬CanStart c
  | .unterminated text => (∃ rest, text = '"' :: rest ∧ '"' ∉ rest) ∧ after = []

def isMistake : Piece → Bool
  | .unexpected _ | .unterminated _ => true
  | _ => false

/-- Each piece together with the text that stands before it. -/
def placed (before : List Char) : List Piece → List (List Char × Piece)
  | [] => []
  | piece :: rest => (before, piece) :: placed (before ++ piece.text) rest

/-- The token of a placed piece: it carries the line on which its last character stands. -/
def tokenAt? : List Char × Piece → Option Token
  | (before, .token kind lexeme) => some ⟨kind, String.ofList lexeme, .ending (before ++ lexeme)⟩
  | _ => none

/-- The mistake of a placed piece: it is reported on the line on which the piece starts. -/
def mistakeAt? : List Char × Piece → Option ScanError
  | (before, .unexpected c) => some ⟨.unexpected c, .ending before⟩
  | (before, .unterminated _) => some ⟨.unterminated, .ending before⟩
  | _ => none

/-- The first character of a symbol is itself a symbol. -/
theorem symbols_single :
    ∀ entry ∈ TokenKind.symbols, ∃ single ∈ TokenKind.symbols,
      single.1.toList = entry.1.toList.take 1 := by
  decide +kernel

theorem symbols_nonempty : ∀ entry ∈ TokenKind.symbols, entry.1.toList ≠ [] := by
  decide +kernel

theorem dropWhile_stops {p : Char → Bool} {cs after : List Char} {c : Char}
    (stopped : cs.dropWhile p = c :: after) : p c = false := by
  have stop := List.head?_dropWhile_not p cs
  rw [stopped] at stop
  exact stop

theorem ofWord_text (word : List Char) : (ofWord word).text = word := by
  unfold ofWord
  split <;> rfl

theorem ofWord_shaped {c : Char} {rest : List Char} (letter : isLetter c = true)
    (more : ∀ d ∈ rest, isWordChar d = true) (after : List Char) : (ofWord (c :: rest)).Shaped after := by
  unfold ofWord
  split
  · rename_i text kind found
    have member := List.mem_of_find?_eq_some found
    have same : text.toList = c :: rest := by simpa using List.find?_some found
    rw [← same]
    exact .word member
  · rename_i absent
    refine .identifier letter more fun reserved => ?_
    obtain ⟨entry, member, same⟩ := reserved
    exact List.find?_eq_none.mp absent entry member (by simpa using same)

theorem splitString_text (cs : List Char) : (splitString cs).1.text ++ (splitString cs).2 = '"' :: cs := by
  have halves : cs.takeWhile (· ≠ '"') ++ cs.dropWhile (· ≠ '"') = cs := List.takeWhile_append_dropWhile
  unfold splitString
  dsimp only
  split
  · rename_i stopped
    rw [stopped] at halves
    exact congrArg ('"' :: ·) halves
  · rename_i stopped
    rw [stopped] at halves
    simp only [text, List.cons_append, List.append_assoc, List.nil_append, halves]

theorem splitString_shaped (cs : List Char) : (splitString cs).1.Shaped (splitString cs).2 := by
  have enclosed : '"' ∉ cs.takeWhile (· ≠ '"') := fun member => by
    simpa using List.mem_takeWhile_imp member
  unfold splitString
  dsimp only
  split
  · exact ⟨⟨_, rfl, enclosed⟩, rfl⟩
  · rename_i quote rest stopped
    have closing : quote = '"' := by simpa using dropWhile_stops stopped
    subst closing
    exact .string enclosed

theorem splitNumber_text (cs : List Char) : (splitNumber cs).1 ++ (splitNumber cs).2 = cs := by
  have halves : cs.takeWhile Char.isDigit ++ cs.dropWhile Char.isDigit = cs :=
    List.takeWhile_append_dropWhile
  unfold splitNumber
  dsimp only
  split
  · rename_i d rest stopped
    rw [stopped] at halves
    split
    · rw [List.append_assoc, List.cons_append, List.takeWhile_append_dropWhile, halves]
    · exact halves
  · exact halves

theorem splitNumber_spelled {c : Char} (digit : c.isDigit = true) (rest : List Char) :
    Spelled .number (splitNumber (c :: rest)).1 := by
  have taken : (c :: rest).takeWhile Char.isDigit = c :: rest.takeWhile Char.isDigit :=
    List.takeWhile_cons_of_pos digit
  have digits : ∀ d ∈ c :: rest.takeWhile Char.isDigit, d.isDigit = true := by
    rw [← taken]
    exact fun d member => List.mem_takeWhile_imp member
  unfold splitNumber
  dsimp only
  rw [taken]
  split
  · rename_i d decimals stopped
    split
    · rename_i first
      rw [List.takeWhile_cons_of_pos first]
      refine .fraction digits fun e member => ?_
      rw [← List.takeWhile_cons_of_pos first] at member
      exact List.mem_takeWhile_imp member
    · exact .whole digits
  · exact .whole digits

theorem symbol?_listed {cs lexeme : List Char} {kind : TokenKind}
    (found : symbol? cs = some (kind, lexeme)) :
    ∃ text, (text, kind) ∈ TokenKind.symbols ∧ text.toList = lexeme ∧ lexeme <+: cs := by
  obtain ⟨entry, member, same⟩ := Option.map_eq_some_iff.mp found
  cases same
  have starts : entry.1.toList.isPrefixOf cs = true := by simpa using List.find?_some member
  exact ⟨entry.1, List.mem_of_find?_eq_some member, rfl, List.isPrefixOf_iff_prefix.mp starts⟩

theorem symbol?_none {c : Char} {rest : List Char} (absent : symbol? (c :: rest) = none) :
    ¬∃ entry ∈ TokenKind.symbols, entry.1.toList.head? = some c := by
  rintro ⟨entry, member, first⟩
  obtain ⟨single, listed, same⟩ := symbols_single entry member
  have short : single.1.toList = [c] := by
    rw [same, List.take_one, first]
    rfl
  have unfound := List.find?_eq_none.mp (Option.map_eq_none_iff.mp absent) single listed
  rw [short] at unfound
  simp at unfound

/-- Nothing is lost between a piece and what follows it. -/
theorem next_text (c : Char) (rest : List Char) : (next c rest).1.text ++ (next c rest).2 = c :: rest := by
  unfold next
  split
  · rfl
  split
  · simp [text, List.takeWhile_append_dropWhile]
  split
  · rename_i quote
    rw [quote]
    exact splitString_text rest
  split
  · exact splitNumber_text (c :: rest)
  split
  · simp [ofWord_text, List.takeWhile_append_dropWhile]
  split
  · rename_i found
    obtain ⟨_, _, _, more, whole⟩ := symbol?_listed found
    rw [← whole]
    simp [text]
  · rfl

theorem next_shaped (c : Char) (rest : List Char) : (next c rest).1.Shaped (next c rest).2 := by
  unfold next
  split
  · assumption
  rename_i notBlank
  split
  · rename_i slashes
    obtain ⟨rfl, second⟩ := slashes
    obtain ⟨more, rfl⟩ := List.head?_eq_some_iff.mp second
    refine ⟨⟨more.takeWhile (· ≠ '\n'), by simp⟩, fun member => ?_, fun d first => ?_⟩
    · have inside : '\n' ∈ ('/' :: more).takeWhile (· ≠ '\n') := by simpa using member
      simpa using List.mem_takeWhile_imp inside
    · obtain ⟨after, stopped⟩ := List.head?_eq_some_iff.mp first
      simpa using dropWhile_stops stopped
  split
  · exact splitString_shaped rest
  rename_i notQuote
  split
  · rename_i digit
    exact splitNumber_spelled digit rest
  rename_i notDigit
  split
  · rename_i letter
    exact ofWord_shaped letter (fun d member => List.mem_takeWhile_imp member) _
  rename_i notLetter
  split
  · rename_i found
    obtain ⟨_, listed, rfl, _⟩ := symbol?_listed found
    exact .symbol listed
  · rename_i absent
    have unlisted := symbol?_none absent
    rintro (blank | quote | digit | letter | symbol)
    · exact notBlank blank
    · exact notQuote quote
    · exact notDigit digit
    · exact notLetter letter
    · exact unlisted symbol

theorem Shaped.nonempty {piece : Piece} {after : List Char} (shaped : piece.Shaped after) :
    piece.text ≠ [] := by
  cases piece with
  | token kind lexeme =>
    cases shaped with
    | symbol listed => exact symbols_nonempty _ listed
    | word listed =>
      have filled : ∀ entry ∈ TokenKind.words, entry.1.toList ≠ [] := by decide +kernel
      exact filled _ listed
    | _ => simp [text]
  | blank c => simp [text]
  | comment content =>
    obtain ⟨⟨rest, rfl⟩, _⟩ := shaped
    simp [text]
  | unexpected c => simp [text]
  | unterminated content =>
    obtain ⟨⟨rest, rfl, _⟩, _⟩ := shaped
    simp [text]

theorem next_shorter (c : Char) (rest : List Char) : (next c rest).2.length ≤ rest.length := by
  have lengths := congrArg List.length (next_text c rest)
  have some := List.length_pos_iff.mpr (next_shaped c rest).nonempty
  simp only [List.length_append, List.length_cons] at lengths
  omega

/-- Each piece stands between the text before it and the text that it is shaped for. -/
theorem split_shaped {fuel : Nat} {cs : List Char} (enough : cs.length ≤ fuel) (before : List Char) :
    ∀ spot ∈ placed before (split fuel cs),
      ∃ after, spot.1 ++ spot.2.text ++ after = before ++ cs ∧ spot.2.Shaped after := by
  induction fuel generalizing cs before with
  | zero => simp [split, placed]
  | succ fuel ih =>
    cases cs with
    | nil => simp [split, placed]
    | cons c rest =>
      have whole := next_text c rest
      have shorter := next_shorter c rest
      simp only [split, placed, List.mem_cons]
      rintro spot (rfl | later)
      · exact ⟨(next c rest).2, by simp [whole], next_shaped c rest⟩
      · have fits : (next c rest).2.length ≤ fuel := by simp only [List.length_cons] at enough; omega
        obtain ⟨after, same, shaped⟩ := ih fits _ spot later
        exact ⟨after, by rw [same, List.append_assoc, whole], shaped⟩

end Piece

theorem newlines_append (cs ds : List Char) : newlines (cs ++ ds) = newlines cs + newlines ds :=
  List.count_append

namespace Line

theorem past_ending (cs ds : List Char) : (ending cs).past ds = ending (cs ++ ds) := by
  rw [past, ending, ending, newlines_append, ← Nat.add_assoc, Int32.ofNat_add (1 + newlines cs)]

theorem past_one (cs : List Char) : past 1 cs = ending cs :=
  past_ending [] cs

end Line

/-- Carrying the line from piece to piece counts the newlines before each token's end. -/
theorem tokensFrom_placed (before : List Char) (ps : List Piece) :
    tokensFrom (.ending before) ps = (Piece.placed before ps).filterMap Piece.tokenAt? := by
  induction ps generalizing before with
  | nil => rfl
  | cons piece rest ih =>
    have later := ih (before ++ piece.text)
    rw [← Line.past_ending] at later
    cases piece with
    | token kind lexeme =>
      refine congrArg₂ List.cons ?_ later
      exact congrArg (Token.mk kind (String.ofList lexeme)) (Line.past_ending before lexeme)
    | _ => exact later

theorem mistakesFrom_placed (before : List Char) (ps : List Piece) :
    mistakesFrom (.ending before) ps = (Piece.placed before ps).filterMap Piece.mistakeAt? := by
  induction ps generalizing before with
  | nil => rfl
  | cons piece rest ih =>
    have later := ih (before ++ piece.text)
    rw [← Line.past_ending] at later
    cases piece with
    | unexpected c => exact congrArg (_ :: ·) later
    | unterminated content => exact congrArg (_ :: ·) later
    | _ => exact later

theorem mistakeAt?_none {spot : List Char × Piece} :
    Piece.mistakeAt? spot = none ↔ spot.2.isMistake = false := by
  obtain ⟨before, piece⟩ := spot
  cases piece <;> simp [Piece.mistakeAt?, Piece.isMistake]

theorem placed_snd (before : List Char) (ps : List Piece) : (Piece.placed before ps).map (·.2) = ps := by
  induction ps generalizing before with
  | nil => rfl
  | cons piece rest ih => exact congrArg (piece :: ·) (ih _)

theorem mistakes_nil (before : List Char) (ps : List Piece) :
    (Piece.placed before ps).filterMap Piece.mistakeAt? = [] ↔ ∀ piece ∈ ps, piece.isMistake = false := by
  have seconds := List.forall_mem_map (f := (·.2)) (l := Piece.placed before ps)
    (P := fun piece => piece.isMistake = false)
  rw [placed_snd] at seconds
  rw [List.filterMap_eq_nil_iff, seconds]
  simp only [mistakeAt?_none]

end Treewalk
