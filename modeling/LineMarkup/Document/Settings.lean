import LineMarkup.Document
import LineMarkup.Settings.ModeLine

namespace LineMarkup.Document

/-- Mode lines are looked for in so many lines. -/
def modeLineLimit : Nat := 10

def mergeModeLine (s : Settings) (line : Line) : Settings :=
  match Settings.findModeLine? line.text with
  | some mode => s.merge (Settings.ofModeLine mode .document)
  | none => s

/-- Later mode lines go over earlier ones. -/
def settings (d : Document) : Settings :=
  (d.lines.take modeLineLimit).foldl mergeModeLine {}

end LineMarkup.Document
