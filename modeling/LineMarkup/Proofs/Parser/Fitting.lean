import LineMarkup.Parser.State
import LineMarkup.Proofs.Event.Story

namespace LineMarkup

namespace Matcher

/-- The symbol that a match covers, if the pattern is for a single one. -/
def sign? : Matcher → Option Char
  | .symbol c => some c
  | .seq (.discard _) (.symbol c) => some c
  | _ => none

end Matcher

/-- What is known of the frames of a stack from the innermost on: their kinds, or that they are
carried and in disorder. -/
abbrev Known := List (Option Construct)

def Knows (start : List Frame) : Known → List Frame → Prop
  | [], _ => True
  | _ :: _, [] => False
  | some kind :: known, frame :: stack => frame.kind = kind ∧ Knows start known stack
  | none :: known, frame :: stack =>
    (frame.carried = true ∧ ¬ Construct.Nested (start.map Frame.kind)) ∧ Knows start known stack

namespace Knows

theorem top (h : Knows start (some kind :: known) (Parser.stack p)) : p.top.kind = kind := by
  cases hs : p.stack with
  | nil => simp [Knows, hs] at h
  | cons frame below =>
    rw [hs] at h
    simpa [Parser.top, hs] using h.1

theorem pop (h : Knows start known (Parser.stack p)) : Knows start known.tail p.pop.stack := by
  unfold Parser.pop
  split
  · rename_i hs
    rw [hs] at h
    rcases known with _ | ⟨_ | kind, known⟩
    · exact trivial
    · exact h.2
    · exact h.2
  · rename_i hs
    match known, hstack : p.stack with
    | [], _ => exact trivial
    | [_], _ => exact trivial
    | _ :: _ :: _, [] => simp [Knows, hstack] at h
    | none :: none :: _, [_] | none :: some _ :: _, [_] | some _ :: none :: _, [_]
    | some _ :: some _ :: _, [_] =>
      simp [Knows, hstack] at h
    | _, _ :: _ :: _ => exact (hs _ _ _ hstack).elim

end Knows

namespace Action

/-- Whether a construct can be opened where this is known. -/
def mayOpen (kind : Construct) : Known → Bool
  | some outer :: _ => outer.admits kind
  | none :: _ => true
  | [] => false

/-- Whether a match of this sign can be the end of a construct. Delimited constructs have to be
closed before anything else is done, but for those that end with a dollar sign. -/
def mayClose (sign : Option Char) (first : Bool) (kind : Construct) : Bool :=
  kind.closings.isEmpty || sign.any (fun c => c ∈ kind.closings && (first || c = '$'))

/-- Actions that fit what is known of the stack and the sign of the match. The sign of a match that
has opened something can be nothing else. -/
def fits (sign : Option Char) (first : Bool) : Known → List Action → Bool
  | _, [] => true
  | known, .push kind :: rest =>
    !kind.isLeaf && mayOpen kind known && kind.opening?.all (sign = some ·) &&
      fits none false (some kind :: known) rest
  | some kind :: known, .pop :: rest => mayClose sign first kind && fits sign false known rest
  | _, .pop :: _ => false
  | _, .popMath :: rest =>
    mayClose sign false .mathArguments && mayClose sign false .math && fits sign false [] rest
  | known, .instant kind :: rest =>
    kind.isLeaf && (kind != .mathDelimiter || sign = some '$') && fits sign false known rest
  | known, .startContent :: rest => fits sign false known rest

/-- What is known after actions. -/
def leave : Known → List Action → Known
  | known, [] => known
  | known, .push kind :: rest => leave (some kind :: known) rest
  | known, .pop :: rest => leave known.tail rest
  | _, .popMath :: rest => leave [] rest
  | known, _ :: rest => leave known rest

end Action

namespace Rule

/-- All that may be known of the two innermost frames. Only the root frame has none below. -/
def surroundings (inside : Construct) : List Known :=
  (if inside = .content then [[some inside]] else []) ++ [some inside, none] ::
    (Construct.all.filter (·.admits inside)).map (fun outer => [some inside, some outer])

/-- Whether the innermost frame may be one that holds code, or one that is carried. -/
def mayFollow (next : Continuation) : Known → Bool
  | some kind :: _ => !next.outsideCode || !kind.holdsCode
  | _ => true

def fitting (inside : Construct) (rule : Rule) : Bool :=
  (surroundings inside).all (fun known =>
    Action.fits rule.pattern.sign? true known rule.actions &&
    Action.fits none false (Action.leave known rule.actions) rule.otherwise &&
    rule.continuations.all (fun next =>
      !mayFollow next (Action.leave known rule.actions) ||
        Action.fits next.pattern.sign? true (Action.leave known rule.actions) next.actions))

theorem within_fitting (inside : Construct) (atContentStart : Bool) :
    ∀ rule ∈ within inside atContentStart, rule.fitting inside = true := by
  apply List.all_eq_true.mp
  cases inside <;> cases atContentStart <;> decide +kernel

end Rule

end LineMarkup
