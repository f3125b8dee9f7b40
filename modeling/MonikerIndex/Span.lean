/-!
# Positions, spans and places

Occurrences of symbols are ordered throughout: positions by line and then by character, spans by
their start and then by their end, places by their file and then by their span. Files are compared
as texts, code point by code point. All three orders are total, and only equal values compare as
equal.
-/

namespace MonikerIndex

/-- A zero-based position in a document. -/
structure Position where
  line : UInt32
  character : UInt32
  deriving DecidableEq, Repr, Inhabited

namespace Position

/-- By line, then by character. -/
instance : Ord Position where
  compare := compareLex (compareOn Position.line) (compareOn Position.character)

instance : Std.TransOrd Position :=
  inferInstanceAs
    (Std.TransCmp (compareLex (compareOn Position.line) (compareOn Position.character)))

instance : Std.LawfulEqOrd Position where
  eq_of_compare {a b} h := by
    obtain ⟨hline, hcharacter⟩ := Ordering.then_eq_eq.1 h
    cases a
    cases b
    exact Position.mk.injEq .. ▸
      ⟨Std.LawfulEqOrd.eq_of_compare hline, Std.LawfulEqOrd.eq_of_compare hcharacter⟩

end Position

/-- The stretch of a document from `start` up to `stop`. -/
structure Span where
  start : Position
  stop : Position
  deriving DecidableEq, Repr, Inhabited

namespace Span

/-- A span given by its four numbers. -/
def between (startLine startCharacter stopLine stopCharacter : UInt32) : Span :=
  ⟨⟨startLine, startCharacter⟩, ⟨stopLine, stopCharacter⟩⟩

/-- A span within one line. -/
def onLine (line startCharacter stopCharacter : UInt32) : Span :=
  between line startCharacter line stopCharacter

/-- By start, then by end. -/
instance : Ord Span where
  compare := compareLex (compareOn Span.start) (compareOn Span.stop)

instance : Std.TransOrd Span :=
  inferInstanceAs (Std.TransCmp (compareLex (compareOn Span.start) (compareOn Span.stop)))

instance : Std.LawfulEqOrd Span where
  eq_of_compare {a b} h := by
    obtain ⟨hstart, hstop⟩ := Ordering.then_eq_eq.1 h
    cases a
    cases b
    exact Span.mk.injEq .. ▸
      ⟨Std.LawfulEqOrd.eq_of_compare hstart, Std.LawfulEqOrd.eq_of_compare hstop⟩

end Span

/-- A span in a file. -/
structure Place where
  file : String
  span : Span
  deriving DecidableEq, Repr, Inhabited

namespace Place

/-- By file, then by span. -/
instance : Ord Place where
  compare := compareLex (compareOn Place.file) (compareOn Place.span)

instance : Std.TransOrd Place :=
  inferInstanceAs (Std.TransCmp (compareLex (compareOn Place.file) (compareOn Place.span)))

instance : Std.LawfulEqOrd Place where
  eq_of_compare {a b} h := by
    obtain ⟨hfile, hspan⟩ := Ordering.then_eq_eq.1 h
    cases a
    cases b
    exact Place.mk.injEq .. ▸
      ⟨Std.LawfulEqOrd.eq_of_compare hfile, Std.LawfulEqOrd.eq_of_compare hspan⟩

/-- The least of some places, given one of them. -/
def least (first : Place) (others : List Place) : Place :=
  others.foldl (fun best place => if (compare place best).isLT then place else best) first

end Place

/-! ### Sorting -/

/-- Puts a value into a sorted list, before the values that compare as equal to it. -/
def insertBy (order : α → α → Ordering) (value : α) : List α → List α
  | [] => [value]
  | first :: values =>
      if (order value first).isLE then value :: first :: values
      else first :: insertBy order value values

/-- Sorts by a comparison. Values that compare as equal keep their order, since each is put before
    those that came after it. -/
def sortBy (order : α → α → Ordering) : List α → List α
  | [] => []
  | value :: values => insertBy order value (sortBy order values)

end MonikerIndex
