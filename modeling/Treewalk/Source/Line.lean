/-!
Lines of a source text. They are numbered from one on in 32 bits, and the numbers wrap around.
-/

namespace Treewalk

abbrev Line : Type :=
  Int32

def newlines (cs : List Char) : Nat :=
  cs.count '\n'

/-- The line on which a text ends that starts on the given line. -/
def Line.past (line : Line) (cs : List Char) : Line :=
  line + .ofNat (newlines cs)

end Treewalk
