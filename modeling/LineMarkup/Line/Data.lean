import LineMarkup.Data.Basic
import LineMarkup.Json.Printer
import LineMarkup.Line
import LineMarkup.Yaml.Printer

namespace LineMarkup

/-- Ranges within a line are written with a length, spans with their last position. -/
def Marker.toData (marker : Marker) : Data :=
  .record [("kind", .string marker.kind.name), ("start", .number marker.start),
    ("length", .number marker.length)]

def Segment.toData (segment : Segment) : Data :=
  .record [("start", .number segment.start), ("length", .number segment.length)]

def Isolate.toData (isolate : Isolate) : Data :=
  .record [("direction", .string isolate.direction.name), ("start", .number isolate.first),
    ("end", .number isolate.last)]

def Span.toData (span : Span) : Data :=
  .record [("id", .number span.id), ("kind", .string span.kind.name), ("start", .number span.first),
    ("end", (span.last.map Data.number).getD .null), ("implicitly_closed", .bool span.implicit)]

namespace Analysis

def toData (analysis : Analysis) : Data :=
  .record [("markers", .list (analysis.markers.map Marker.toData)),
    ("segments", .list (analysis.segments.map Segment.toData)),
    ("isolates", .list (analysis.isolates.map Isolate.toData)),
    ("spans", .list (analysis.spans.map Span.toData))]

def toJson (analysis : Analysis) : Text :=
  Json.print analysis.toData

def toYaml (analysis : Analysis) : Text :=
  Yaml.print analysis.toData

end Analysis

end LineMarkup
