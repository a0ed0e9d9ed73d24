import TagTemplate.Text.Basic

/-!
# Runs of line breaks

Text is read as a list of units: line breaks, either a line feed alone or a
carriage return directly before a line feed, and other characters, a carriage
return on its own among them. `collapseBreaks` leaves single line breaks as
they are and writes every longer run of them as one blank line.
-/

namespace TagTemplate.Text

/-- A line break or another character. -/
inductive LineUnit where
  | lineFeed
  | returnFeed
  | other (c : Char)
  deriving DecidableEq, Repr

namespace LineUnit

/-- The characters of a unit. -/
def text : LineUnit → Text
  | lineFeed => ['\n']
  | returnFeed => ['\r', '\n']
  | other c => [c]

/-- Whether a unit is a line break. -/
def isBreak : LineUnit → Bool
  | other _ => false
  | _ => true

/-- A run of line breaks as it is written: unchanged if it has one break at most, else one blank
line, with carriage returns if any break of the run had one. -/
def closeRun (run : List LineUnit) : List LineUnit :=
  if run.length < 2 then run
  else if run.contains returnFeed then [returnFeed, returnFeed]
  else [lineFeed, lineFeed]

/-- Closes every run of line breaks. `run` holds the breaks directly before the units. -/
def collapse (run : List LineUnit) : List LineUnit → List LineUnit
  | [] => closeRun run
  | other c :: us => closeRun run ++ other c :: collapse [] us
  | u :: us => collapse (run ++ [u]) us

end LineUnit

/-- The units of a text. -/
def lineUnits : Text → List LineUnit
  | [] => []
  | '\r' :: '\n' :: t => .returnFeed :: lineUnits t
  | '\n' :: t => .lineFeed :: lineUnits t
  | c :: t => .other c :: lineUnits t

/-- The text in which every run of two or more line breaks is one blank line. -/
def collapseBreaks (t : Text) : Text := (LineUnit.collapse [] (lineUnits t)).flatMap LineUnit.text

/-- The units of a text spell it. -/
theorem flatMap_lineUnits (t : Text) : (lineUnits t).flatMap LineUnit.text = t := by
  fun_induction lineUnits t <;> simp_all [LineUnit.text]

end TagTemplate.Text
