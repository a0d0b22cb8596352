/-! A screen of styled characters, and boxes with a title that are drawn on it. What is too wide
or too long for its box is cut off. -/
namespace Ls8

inductive Colour where
  | yellow | red | cyan | green | magenta | white | darkGray
  deriving DecidableEq

structure Style where
  colour : Option Colour
  bold : Bool
  deriving DecidableEq

namespace Style

def plain : Style := ⟨none, false⟩

def of (c : Colour) : Style := ⟨some c, false⟩

def boldOf (c : Colour) : Style := ⟨some c, true⟩

end Style

namespace Screen

abbrev Cell : Type := Char × Style

abbrev Row : Type := List Cell

def styled (s : Style) (text : List Char) : Row := text.map fun c => (c, s)

def fit (width : Nat) (fill : Style) (r : Row) : Row :=
  r.take width ++ List.replicate (width - r.length) (' ', fill)

structure Line where
  cells : Row
  fill : Style

def Line.plain (text : List Char) : Line := ⟨styled .plain text, .plain⟩

structure Panel where
  title : List Char
  border : Style
  /-- The style of the lines that nothing stands on. -/
  fill : Style
  lines : List Line

def Panel.top (p : Panel) (width : Nat) : Row :=
  let edge := p.title.take (width - 2) ++ List.replicate (width - 2 - p.title.length) '─'
  styled p.border ('┌' :: edge ++ ['┐'])

def Panel.bottom (p : Panel) (width : Nat) : Row :=
  styled p.border ('└' :: List.replicate (width - 2) '─' ++ ['┘'])

def Panel.middle (p : Panel) (width : Nat) (l : Line) : Row :=
  styled p.border ['│'] ++ fit (width - 2) l.fill l.cells ++ styled p.border ['│']

def Panel.draw (p : Panel) (width height : Nat) : List Row :=
  let shown := p.lines.take (height - 2)
  let blank := List.replicate (height - 2 - p.lines.length) (⟨[], p.fill⟩ : Line)
  p.top width :: (shown ++ blank).map (p.middle width) ++ [p.bottom width]

def text (r : Row) : List Char := r.map (·.1)

/-- Maximal runs of equal style in a row that begins at column `x`: column, length, style. -/
def runsFrom (x : Nat) : List Style → List (Nat × Nat × Style)
  | [] => []
  | s :: rest =>
    match runsFrom (x + 1) rest with
    | [] => [(x, 1, s)]
    | (y, n, t) :: more => if s = t then (x, n + 1, t) :: more else (x, 1, s) :: (y, n, t) :: more

def runs (r : Row) : List (Nat × Nat × Style) :=
  (runsFrom 0 (r.map (·.2))).filter fun (_, _, s) => s != .plain

end Screen
end Ls8
