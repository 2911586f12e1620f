import Treewalk.Source.Scan

/-!
Names and reserved words. The scanner takes a word that is reserved for a token of its own kind, so the
name that an identifier gives is never a reserved word.
-/

namespace Treewalk

/-- A name that an identifier can give: a word that is not reserved. -/
structure Name.Proper (name : Name) : Prop where
  free : ∀ entry ∈ TokenKind.words, entry.1 ≠ name.text
  word : ∀ c ∈ name.text.toList, Piece.isWordChar c = true

/-- A name other than those that classes give a meaning of their own. -/
def Ordinary (name : String) : Prop :=
  name ≠ "this" ∧ name ≠ "super"

theorem Name.Proper.ordinary {name : Name} (proper : name.Proper) : Ordinary name.text :=
  ⟨(proper.free ("this", .kwThis) (by decide)).symm, (proper.free ("super", .kwSuper) (by decide)).symm⟩

/-- The name of a token is proper if the token is an identifier, and it is `super` if the token is. -/
structure Token.Genuine (t : Token) : Prop where
  proper : t.kind = .identifier → t.name.Proper
  reserved : t.kind = .kwSuper → t.name.text = "super"

namespace Piece

def Reserved (word : List Char) : Prop :=
  ∃ entry ∈ TokenKind.words, entry.1.toList = word

/-- A piece that is an identifier only if its characters make up a word that is not reserved. -/
def Genuine : Piece → Prop
  | .token kind lexeme =>
    (kind = .identifier → ¬Reserved lexeme ∧ ∀ c ∈ lexeme, isWordChar c = true) ∧
      (kind = .kwSuper → lexeme = "super".toList)
  | _ => True

theorem words_kind {entry : String × TokenKind} (member : entry ∈ TokenKind.words) :
    entry.2 ≠ .identifier ∧ (entry.2 = .kwSuper → entry.1 = "super") := by
  revert entry
  decide

theorem symbols_kind {entry : String × TokenKind} (member : entry ∈ TokenKind.symbols) :
    entry.2 ≠ .identifier ∧ entry.2 ≠ .kwSuper := by
  revert entry
  decide

theorem ofWord_genuine {word : List Char} (all : ∀ c ∈ word, isWordChar c = true) : (ofWord word).Genuine := by
  unfold ofWord
  split
  · rename_i text kind found
    obtain ⟨notName, written⟩ := words_kind (List.mem_of_find?_eq_some found)
    have spelled : text.toList = word := by simpa using List.find?_some found
    exact ⟨fun same => absurd same notName, fun same => spelled.symm.trans (congrArg _ (written same))⟩
  · rename_i absent
    refine ⟨fun _ => ⟨fun reserved => ?_, all⟩, fun same => by cases same⟩
    obtain ⟨entry, member, same⟩ := reserved
    exact List.find?_eq_none.mp absent entry member (by simpa using same)

theorem symbol?_kind {cs lexeme : List Char} {kind : TokenKind}
    (found : symbol? cs = some (kind, lexeme)) : kind ≠ .identifier ∧ kind ≠ .kwSuper := by
  obtain ⟨entry, member, same⟩ := Option.map_eq_some_iff.mp found
  cases same
  exact symbols_kind (List.mem_of_find?_eq_some member)

theorem next_genuine (c : Char) (rest : List Char) : (next c rest).1.Genuine := by
  unfold next
  split
  · trivial
  split
  · trivial
  split
  · unfold splitString
    dsimp only
    split
    · trivial
    · exact ⟨(by cases ·), (by cases ·)⟩
  split
  · exact ⟨(by cases ·), (by cases ·)⟩
  split
  · rename_i letter
    refine ofWord_genuine fun d member => ?_
    rcases List.mem_cons.mp member with rfl | member
    · simp [isWordChar, letter]
    · exact List.all_eq_true.mp List.all_takeWhile d member
  split
  · rename_i found
    obtain ⟨notName, notSuper⟩ := symbol?_kind found
    exact ⟨fun same => absurd same notName, fun same => absurd same notSuper⟩
  · trivial

theorem split_genuine (fuel : Nat) (cs : List Char) : ∀ piece ∈ split fuel cs, piece.Genuine := by
  induction fuel generalizing cs with
  | zero => simp [split]
  | succ fuel ih =>
    cases cs with
    | nil => simp [split]
    | cons c rest =>
      simp only [split, List.mem_cons]
      rintro piece (rfl | member)
      · exact next_genuine c rest
      · exact ih _ piece member

end Piece

theorem tokensFrom_genuine {pieces : List Piece} (genuine : ∀ piece ∈ pieces, piece.Genuine) (line : Line) :
    ∀ t ∈ tokensFrom line pieces, t.Genuine := by
  induction pieces generalizing line with
  | nil => simp [tokensFrom]
  | cons piece rest ih =>
    have others := ih fun piece member => genuine piece (by simp [member])
    cases piece with
    | token kind lexeme =>
      simp only [tokensFrom, List.mem_cons]
      rintro t (rfl | member)
      · have first : (Piece.token kind lexeme).Genuine := genuine _ (by simp)
        refine ⟨fun same => ⟨fun entry found equal => ?_, ?_⟩, fun same => ?_⟩
        · have written : entry.1 = String.ofList lexeme := equal
          exact (first.1 same).1 ⟨entry, found, by simp [written]⟩
        · simpa [Token.name] using (first.1 same).2
        · simp [Token.name, first.2 same]
      · exact others _ t member
    | _ => exact others _

theorem scan_genuine {source : String} {scanned : Tokens} (done : scan source = .ok scanned) :
    ∀ t ∈ scanned.tokens, t.Genuine := by
  unfold scan at done
  dsimp only at done
  split at done
  · cases done
    exact tokensFrom_genuine (Piece.split_genuine _ _) 1
  · cases done

end Treewalk
