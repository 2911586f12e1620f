import Treewalk.Proofs.LevelsKept
import Treewalk.Proofs.Respacing

/-!
Names of signatures. The name of a function type is put together from the names of its parameters and of its result,
and nothing in it says where one of these ends but the marks around it. Of the types that annotations give, each name
can be read in one way only: a word goes on as far as its letters do, the brackets behind it belong to it, and a
signature takes no brackets of its own, so that those at its end belong to its result.
-/

namespace Treewalk

theorem Spelled.identifier_cases {cs : List Char} (spelled : Spelled .identifier cs) :
    cs ≠ [] ∧ (∀ c ∈ cs, Piece.isWordChar c = true) ∧ ¬Piece.Reserved cs := by
  cases spelled with
  | symbol listed => exact absurd rfl (Piece.symbols_kind listed).1
  | word listed => exact absurd rfl (Piece.words_kind listed).1
  | identifier letter more free =>
    refine ⟨List.cons_ne_nil _ _, fun d member => ?_, free⟩
    rcases List.mem_cons.mp member with rfl | later
    · simp [Piece.isWordChar, letter]
    · exact more d later

namespace TypeDesc

def keywordTypes : List TypeDesc :=
  [number, string, boolean, void, any, typeValue]

/-- A type that a word stands for: that of a keyword, or an object type named by an identifier. -/
inductive Simple : TypeDesc → Prop where
  | keyword {t : TypeDesc} (listed : t ∈ keywordTypes) : Simple t
  | object {name : String} (identifier : Spelled .identifier name.toList) : Simple (.object name)

/-- The types that annotations spell: the simple ones and arrays of these, and function types over all of them. -/
inductive Spellable : TypeDesc → Prop where
  | simple {t : TypeDesc} (simple : t.Simple) (count : Nat) : Spellable (t.arrayOfAt count)
  | function {params : List TypeDesc} {returns : TypeDesc} (each : ∀ p ∈ params, Spellable p)
      (last : Spellable returns) : Spellable (.function params returns)

/-- An annotation gives the type in some program text: it is read off the tokens of the text from some place on, and
no mistake is recorded. -/
def Annotated (t : TypeDesc) : Prop :=
  ∃ source scanned before s range later, scan source = .ok scanned ∧ s.rest <:+ scanned.tokens ∧
    Grammar.writtenTypeAfter before s = (some (t, range), later) ∧ later.errors = s.errors

/-! Words and brackets. -/

namespace Simple

variable {t u : TypeDesc}

theorem word (simple : t.Simple) : t.name.toList ≠ [] ∧ ∀ c ∈ t.name.toList, Piece.isWordChar c = true := by
  cases simple with
  | keyword listed =>
    have checked : ∀ t ∈ keywordTypes, t.name.toList ≠ [] ∧ t.name.toList.all Piece.isWordChar = true := by decide
    exact ⟨(checked t listed).1, List.all_eq_true.mp (checked t listed).2⟩
  | object identifier => exact ⟨identifier.identifier_cases.1, identifier.identifier_cases.2.1⟩

/-- Keywords are reserved, so that a word stands for one type at most, whatever its kind. -/
theorem eq_of_name (first : t.Simple) (second : u.Simple) (same : t.name = u.name) : t = u := by
  have reserved : ∀ t ∈ keywordTypes, ∃ entry ∈ TokenKind.words, entry.1 = t.name := by decide
  have taken {t : TypeDesc} {name : String} (listed : t ∈ keywordTypes)
      (identifier : Spelled .identifier name.toList) : t.name ≠ name := by
    rintro rfl
    obtain ⟨entry, member, same⟩ := reserved t listed
    exact identifier.identifier_cases.2.2 ⟨entry, member, congrArg String.toList same⟩
  cases first with
  | keyword listed =>
    cases second with
    | keyword listed' =>
      have distinct : ∀ t ∈ keywordTypes, ∀ u ∈ keywordTypes, t.name = u.name → t = u := by decide
      exact distinct t listed u listed' same
    | object identifier => exact absurd same (taken listed identifier)
  | object identifier =>
    cases second with
    | keyword listed => exact absurd same.symm (taken listed identifier)
    | object => exact congrArg TypeDesc.object same

end Simple

def brackets : Nat → List Char
  | 0 => []
  | count + 1 => '[' :: ']' :: brackets count

theorem name_arrayOfAt (t : TypeDesc) (count : Nat) :
    (t.arrayOfAt count).name.toList = t.name.toList ++ brackets count := by
  induction count generalizing t with
  | zero => exact (List.append_nil _).symm
  | succ count ih =>
    rw [arrayOfAt, ih]
    simp [arrayOf, brackets]

/-- A text that is empty or starts with a mark that ends a parameter. -/
def Delimited (cs : List Char) : Prop :=
  ∀ c ∈ cs.head?, c = ',' ∨ c = ')'

theorem delimited_nil : Delimited [] :=
  fun _ impossible => by cases impossible

theorem delimited_comma (cs : List Char) : Delimited (',' :: cs) :=
  fun _ first => .inl (Option.some.inj first).symm

theorem delimited_closing (cs : List Char) : Delimited (')' :: cs) :=
  fun _ first => .inr (Option.some.inj first).symm

section

variable {cs ds x y : List Char}

theorem word_append_cancel (word : ∀ c ∈ cs, Piece.isWordChar c = true) (word' : ∀ d ∈ ds, Piece.isWordChar d = true)
    (stop : ∀ c ∈ x.head?, Piece.isWordChar c = false) (stop' : ∀ c ∈ y.head?, Piece.isWordChar c = false)
    (same : cs ++ x = ds ++ y) : cs = ds ∧ x = y := by
  have taken {cs x : List Char} (word : ∀ c ∈ cs, Piece.isWordChar c = true)
      (stop : ∀ c ∈ x.head?, Piece.isWordChar c = false) : (cs ++ x).takeWhile Piece.isWordChar = cs := by
    rw [List.takeWhile_append_of_pos word]
    cases x with
    | nil => simp
    | cons c x => rw [List.takeWhile_cons_of_neg (by simp [stop c rfl]), List.append_nil]
  have words : cs = ds := by rw [← taken word stop, same, taken word' stop']
  subst words
  exact ⟨rfl, List.append_cancel_left same⟩

theorem brackets_append_cancel {count count' : Nat} (stop : Delimited x) (stop' : Delimited y)
    (same : brackets count ++ x = brackets count' ++ y) : count = count' ∧ x = y := by
  -- Nothing delimited goes on with a bracket.
  have apart {x : List Char} (stop : Delimited x) (rest : List Char) : x ≠ '[' :: rest := by
    rintro rfl
    rcases stop '[' rfl with impossible | impossible <;> cases impossible
  induction count generalizing count' with
  | zero =>
    cases count' with
    | zero => exact ⟨rfl, same⟩
    | succ count' => exact absurd same (apart stop _)
  | succ count ih =>
    cases count' with
    | zero => exact absurd same.symm (apart stop' _)
    | succ count' =>
      obtain ⟨counts, rests⟩ := ih (List.cons.inj (List.cons.inj same).2).2
      exact ⟨congrArg (· + 1) counts, rests⟩

theorem wordChar_brackets (count : Nat) (stop : Delimited x) :
    ∀ c ∈ (brackets count ++ x).head?, Piece.isWordChar c = false := by
  intro c first
  cases count with
  | zero => rcases stop c first with rfl | rfl <;> decide
  | succ count =>
    cases first
    decide

end

/-! Lists of parameters. -/

def laterNames : List TypeDesc → List Char
  | [] => [')']
  | p :: ps => ',' :: (p.name.toList ++ laterNames ps)

def paramNames : List TypeDesc → List Char
  | [] => [')']
  | p :: ps => p.name.toList ++ laterNames ps

theorem delimited_laterNames (ps : List TypeDesc) (cs : List Char) : Delimited (laterNames ps ++ cs) := by
  cases ps with
  | nil => exact delimited_closing _
  | cons p ps => exact delimited_comma _

theorem paramNames_eq (ps : List TypeDesc) :
    [','].intercalate (ps.map (·.name.toList)) ++ [')'] = paramNames ps := by
  cases ps with
  | nil => rfl
  | cons p ps =>
    rw [paramNames]
    induction ps generalizing p with
    | nil => simp [List.intercalate_singleton, laterNames]
    | cons q ps ih =>
      rw [laterNames, ← ih q, List.map_cons, List.intercalate_cons_of_ne_nil (by simp)]
      simp

theorem name_function (ps : List TypeDesc) (r : TypeDesc) :
    (function ps r).name.toList = "func(".toList ++ (paramNames ps ++ ':' :: r.name.toList) := by
  rw [← paramNames_eq]
  simp [function, object, Function.comp_def]

/-- The name of the type is read off in one way in front of any mark. -/
def Readable (t : TypeDesc) : Prop :=
  ∀ u, u.Spellable → ∀ x y, Delimited x → Delimited y → t.name.toList ++ x = u.name.toList ++ y → t = u ∧ x = y

theorem Spellable.starts {t : TypeDesc} (spellable : t.Spellable) :
    ∃ c cs, t.name.toList = c :: cs ∧ Piece.isWordChar c = true := by
  cases spellable with
  | simple simple count =>
    obtain ⟨some, word⟩ := simple.word
    obtain ⟨c, cs, same⟩ := List.exists_cons_of_ne_nil some
    exact ⟨c, cs ++ brackets count, by rw [name_arrayOfAt, same]; rfl, word c (by simp [same])⟩
  | function => exact ⟨'f', _, name_function _ _, by decide⟩

theorem laterNames_cancel {ps qs : List TypeDesc} (readable : ∀ p ∈ ps, p.Readable) (spellable : ∀ q ∈ qs, q.Spellable)
    {x y : List Char} (same : laterNames ps ++ x = laterNames qs ++ y) : ps = qs ∧ x = y := by
  induction ps generalizing qs with
  | nil =>
    cases qs with
    | nil => exact ⟨rfl, (List.cons.inj same).2⟩
    | cons q qs => exact absurd (List.cons.inj same).1 (by decide)
  | cons p ps ih =>
    cases qs with
    | nil => exact absurd (List.cons.inj same).1 (by decide)
    | cons q qs =>
      have names : p.name.toList ++ (laterNames ps ++ x) = q.name.toList ++ (laterNames qs ++ y) := by
        simpa [laterNames] using same
      obtain ⟨rfl, rests⟩ := readable p (by simp) q (spellable q (by simp)) _ _ (delimited_laterNames ps x)
        (delimited_laterNames qs y) names
      obtain ⟨rfl, ends⟩ := ih (fun p member => readable p (by simp [member]))
        (fun q member => spellable q (by simp [member])) rests
      exact ⟨rfl, ends⟩

theorem paramNames_cancel {ps qs : List TypeDesc} (readable : ∀ p ∈ ps, p.Readable)
    (starts : ∀ p ∈ ps, p.Spellable) (spellable : ∀ q ∈ qs, q.Spellable) {x y : List Char}
    (same : paramNames ps ++ x = paramNames qs ++ y) : ps = qs ∧ x = y := by
  -- A name does not start with the parenthesis that closes an empty list.
  have filled {p : TypeDesc} (spellable : p.Spellable) (cs ds : List Char) : ')' :: cs ≠ p.name.toList ++ ds := by
    obtain ⟨c, rest, name, letter⟩ := spellable.starts
    rw [name]
    intro same
    rw [← (List.cons.inj same).1] at letter
    exact absurd letter (by decide)
  cases ps with
  | nil =>
    cases qs with
    | nil => exact ⟨rfl, (List.cons.inj same).2⟩
    | cons q qs =>
      rw [paramNames, paramNames, List.append_assoc] at same
      exact absurd same (filled (spellable q (by simp)) _ _)
  | cons p ps =>
    cases qs with
    | nil =>
      rw [paramNames, paramNames, List.append_assoc] at same
      exact absurd same.symm (filled (starts p (by simp)) _ _)
    | cons q qs => exact laterNames_cancel readable spellable (congrArg (',' :: ·) same)

/-- A signature goes on with a parenthesis after its first word, and no other name does. -/
theorem simple_apart {t : TypeDesc} (simple : t.Simple) (count : Nat) {ps : List TypeDesc} {r : TypeDesc}
    {x y : List Char} (stop : Delimited x) :
    (t.arrayOfAt count).name.toList ++ x ≠ (function ps r).name.toList ++ y := by
  intro same
  have begun : t.name.toList ++ (brackets count ++ x) =
      "func".toList ++ '(' :: (paramNames ps ++ ':' :: r.name.toList ++ y) := by
    simpa [name_arrayOfAt, name_function] using same
  obtain ⟨-, rests⟩ := word_append_cancel simple.word.2 (List.all_eq_true.mp (by decide)) (wordChar_brackets count stop)
    (fun c first => by cases first; decide) begun
  cases count with
  | zero =>
    rw [brackets, List.nil_append] at rests
    rcases stop '(' (by rw [rests]; rfl) with impossible | impossible <;> cases impossible
  | succ count => exact absurd (List.cons.inj rests).1 (by decide)

theorem function_cancel {ps qs : List TypeDesc} {r s : TypeDesc} {x y : List Char} (readable : ∀ p ∈ ps, p.Readable)
    (result : r.Readable) (first : ∀ p ∈ ps, p.Spellable) (second : ∀ q ∈ qs, q.Spellable) (last : s.Spellable)
    (stop : Delimited x) (stop' : Delimited y)
    (same : (function ps r).name.toList ++ x = (function qs s).name.toList ++ y) : (ps = qs ∧ r = s) ∧ x = y := by
  have parts : paramNames ps ++ ':' :: (r.name.toList ++ x) = paramNames qs ++ ':' :: (s.name.toList ++ y) := by
    simpa [name_function] using same
  obtain ⟨params, results⟩ := paramNames_cancel readable first second parts
  obtain ⟨returns, ends⟩ := result s last x y stop stop' (List.cons.inj results).2
  exact ⟨⟨params, returns⟩, ends⟩

/-- By induction on the type whose name begins the text. -/
theorem Spellable.readable {t : TypeDesc} (spellable : t.Spellable) : t.Readable := by
  induction spellable with
  | @simple t simple count =>
    intro u other x y stop stop' same
    cases other with
    | @simple u simple' count' =>
      rw [name_arrayOfAt, name_arrayOfAt, List.append_assoc, List.append_assoc] at same
      obtain ⟨words, rests⟩ := word_append_cancel simple.word.2 simple'.word.2 (wordChar_brackets count stop)
        (wordChar_brackets count' stop') same
      obtain ⟨rfl, ends⟩ := brackets_append_cancel stop stop' rests
      obtain rfl := simple.eq_of_name simple' (String.toList_inj.mp words)
      exact ⟨rfl, ends⟩
    | function => exact absurd same (simple_apart simple count stop)
  | @function params returns each last ih ihLast =>
    intro u other x y stop stop' same
    cases other with
    | simple simple count => exact absurd same.symm (simple_apart simple count stop')
    | function each' last' =>
      obtain ⟨⟨rfl, rfl⟩, ends⟩ := function_cancel ih ihLast each each' last' stop stop' same
      exact ⟨rfl, ends⟩

end TypeDesc

/-! Annotations. -/

theorem Commas.subset {parts : List (List Token)} {tokens : List Token} (joined : Commas parts tokens) :
    ∀ part ∈ parts, part ⊆ tokens := by
  induction joined with
  | none => simp
  | one => simp
  | @more first _ _ _ comma _ _ ih =>
    intro part member
    rcases List.mem_cons.mp member with rfl | later
    · exact List.subset_append_left _ _
    · exact fun t inside => List.mem_append_right first (List.mem_cons_of_mem comma (ih part later inside))

theorem plainType?_listed {kind : TokenKind} {t : TypeDesc} {range : Modifiers}
    (keyword : kind.plainType? = some (t, range)) : t ∈ TypeDesc.keywordTypes := by
  revert keyword
  cases kind <;> intro keyword <;> cases keyword <;> decide

theorem TypeWritten.spellable {written : TypeDesc × Modifiers} {tokens : List Token}
    (spelled : TypeWritten written tokens) (each : ∀ t ∈ tokens, Spelled t.kind t.lexeme.toList) :
    written.1.Spellable := by
  induction spelled with
  | plain keyword brackets => exact .simple (.keyword (plainType?_listed keyword)) _
  | @object t name count pairs keyword named brackets =>
    have identifier : Spelled .identifier name.lexeme.toList := named ▸ each name (by simp)
    exact .simple (.object identifier) count
  | @function t keyword left right colon parts params result returns _ _ _ _ joined _ _ _ ihParts ihLast =>
    refine .function (fun p member => ?_) (ihLast fun t inside => each t (by simp [inside]))
    obtain ⟨part, found, rfl⟩ := List.mem_map.mp member
    refine ihParts part found fun t inside => each t ?_
    have inParams := joined.subset part.2 (List.mem_map_of_mem found) inside
    simp [inParams]

theorem TypeDesc.Annotated.spellable {t : TypeDesc} (annotated : t.Annotated) : t.Spellable := by
  obtain ⟨source, scanned, before, s, range, later, done, rest, read, quiet⟩ := annotated
  obtain ⟨fuel, middle, budget, read⟩ := Grammar.bind_some read
  cases budget
  rcases Grammar.typeAfter_keeps _ before s _ _ read with more | ⟨-, tokens, taken, spelled⟩
  · rw [quiet] at more
    exact absurd more (Nat.lt_irrefl _)
  · refine spelled.spellable fun token member => scan_spelled done token (rest.subset ?_)
    rw [taken]
    exact List.mem_append_left _ member

/-- Signatures are unambiguous. What an annotation in a program text gives is one of the types with a keyword, an
object type named by an identifier, an array of such a type, with any number of dimensions, or a function type over
all of these. Over these types, whatever their kinds and however deep they are nested, two signatures are the same only
if they have the same parameters and the same result. -/
theorem signatures_unambiguous :
    (∀ t : TypeDesc, t.Annotated → t.Spellable) ∧
    ∀ (ps qs : List TypeDesc) (r s : TypeDesc), (∀ t ∈ ps ++ qs, t.Spellable) → r.Spellable → s.Spellable →
      TypeDesc.function ps r = .function qs s → ps = qs ∧ r = s := by
  refine ⟨fun t annotated => annotated.spellable, fun ps qs r s params first last same => ?_⟩
  have before (p : TypeDesc) (member : p ∈ ps) : p.Spellable := params p (List.mem_append_left qs member)
  have after (q : TypeDesc) (member : q ∈ qs) : q.Spellable := params q (List.mem_append_right ps member)
  have names : (TypeDesc.function ps r).name.toList ++ [] = (TypeDesc.function qs s).name.toList ++ [] := by rw [same]
  exact (TypeDesc.function_cancel (fun p member => (before p member).readable) first.readable before after last
    TypeDesc.delimited_nil TypeDesc.delimited_nil names).1

/-- A signature with brackets in a parameter and in the result, and with another signature inside. -/
def nestedAnnotation : String :=
  "obj fun(num[], obj fun(obj Point): string): num[]"

def nestedParams : List TypeDesc :=
  [.arrayOf .number, .function [.object "Point"] .string]

def spelledType? (source : String) : Option TypeDesc :=
  match scan source with
  | .error _ => none
  | .ok scanned =>
    match Grammar.writtenTypeAfter ⟨"", 1⟩ ⟨scanned.tokens, scanned.endLine, []⟩ with
    | (some (t, _), ⟨[], _, []⟩) => some t
    | _ => none

theorem TypeDesc.annotated_of_spelledType? {source : String} {t : TypeDesc} (spelled : spelledType? source = some t) :
    t.Annotated := by
  unfold spelledType? at spelled
  split at spelled
  · cases spelled
  · rename_i scanned done
    split at spelled
    · rename_i range line read
      cases spelled
      exact ⟨source, scanned, ⟨"", 1⟩, _, range, _, done, List.suffix_rfl, read, rfl⟩
    · cases spelled

set_option maxRecDepth 100000 in
theorem signatures_unambiguous_nested :
    (TypeDesc.function nestedParams (.arrayOf .number)).Annotated ∧
      ∃ qs s, (∀ t ∈ nestedParams ++ qs, t.Spellable) ∧ (TypeDesc.arrayOf .number).Spellable ∧ s.Spellable ∧
        TypeDesc.function nestedParams (.arrayOf .number) = .function qs s ∧
          nestedParams = qs ∧ .arrayOf .number = s := by
  have number : TypeDesc.Simple .number := .keyword (by decide)
  have string : TypeDesc.Simple .string := .keyword (by decide)
  have point : TypeDesc.Simple (.object "Point") :=
    .object (.identifier (by decide) (List.all_eq_true.mp (by decide)) (by unfold Piece.Reserved; decide))
  have inner : (TypeDesc.function [.object "Point"] .string).Spellable :=
    .function (by simpa using .simple point 0) (.simple string 0)
  have result : (TypeDesc.arrayOf .number).Spellable := .simple number 1
  have each : ∀ t ∈ nestedParams, t.Spellable := by simpa [nestedParams] using And.intro result inner
  have params : ∀ t ∈ nestedParams ++ nestedParams, t.Spellable :=
    fun t member => (List.mem_append.mp member).elim (each t) (each t)
  have spelled : spelledType? nestedAnnotation = some (.function nestedParams (.arrayOf .number)) := by decide +kernel
  refine ⟨TypeDesc.annotated_of_spelledType? spelled, nestedParams, .arrayOf .number, params, result, result, rfl, ?_⟩
  exact signatures_unambiguous.2 _ _ _ _ params result result rfl

end Treewalk
