import LineMarkup.Parser.Rule
import LineMarkup.Proofs.Event.Trace
import LineMarkup.Proofs.Matcher.Discarding

namespace LineMarkup

namespace Action

/-- Nothing begins. -/
def closes : Action → Bool
  | .push _ | .instant _ => false
  | _ => true

/-- One construct at most begins with a match, but for math, which begins with its delimiter. -/
def orderly : List Action → Bool
  | .instant .mathDelimiter :: .push .math :: rest => rest.all closes
  | .push _ :: rest | .instant _ :: rest => rest.all closes
  | actions => actions.all closes

/-- What the innermost construct is after actions, as far as it may lapse. Nothing is opened inside
a construct that lapses. -/
def outcome (inside : Construct) : List Action → Option Construct
  | [] => some inside
  | .push kind :: rest => if inside.lapses then none else outcome kind rest
  | .pop :: rest => outcome .content rest
  | _ :: rest => outcome inside rest

def pushes (actions : List Action) : Nat :=
  actions.countP (fun action => match action with
    | .push _ => true
    | _ => false)

end Action

namespace Matcher

/-- A match takes a token that is neither at the very front nor at the very end. -/
def moves (m : Matcher) : Bool :=
  m.counted.takes notBegin && m.counted.takes notEnd

/-- After a match a word comes next. -/
def showsWord : Matcher → Bool
  | .seq _ (.look (.kind .word)) => true
  | _ => false

end Matcher

namespace Rule

open Matcher

/-- Something begins only with a match that is not empty. -/
def accords (pattern : Matcher) (actions : List Action) : Bool :=
  pattern.tidy && Action.orderly actions && (pattern.firm || actions.all Action.closes)

def sound (rule : Rule) : Bool :=
  accords rule.pattern rule.actions && rule.otherwise.all Action.closes &&
    rule.continuations.all (fun next =>
      next.pattern.plain && next.pattern.moves && accords next.pattern next.actions)

/-- The innermost construct ends and nothing else happens. -/
def ends (rule : Rule) : Bool :=
  rule.pattern.plain && rule.actions == [.pop] && rule.minLength == 0 &&
    rule.continuations.isEmpty && rule.otherwise.isEmpty

/-- What a rule is that only ends the innermost construct. -/
structure Ends (rule : Rule) : Prop where
  actions : rule.actions = [.pop]
  minLength : rule.minLength = 0
  continuations : rule.continuations = []
  otherwise : rule.otherwise = []

theorem ends_of {rule : Rule} (h : rule.ends = true) : rule.Ends := by
  simp only [ends, Bool.and_eq_true, beq_iff_eq, List.isEmpty_iff] at h
  exact ⟨h.1.1.1.2, h.1.1.2, h.1.2, h.2⟩

/-- Of the constructs that lapse, only those that end with the line may be innermost when no word
comes next. -/
def tame (inside : Construct) (rule : Rule) : Bool :=
  (rule.minLength == 0 || !inside.lapses) &&
    (Action.outcome inside rule.actions).any (fun kind =>
      (Action.outcome kind rule.otherwise).any (fun last => !last.lapses || last.endsWithLine) &&
      rule.continuations.all (fun next => (Action.outcome kind next.actions).any (fun last =>
        !last.lapses || last.endsWithLine || next.pattern.showsWord)))

/-- One frame at most is opened in the end. -/
def modest (rule : Rule) : Bool :=
  Action.pushes rule.otherwise = 0 && rule.continuations.all (fun next =>
      Action.pushes rule.actions + Action.pushes next.actions ≤ 1) &&
    Action.pushes rule.actions ≤ 1

theorem within_sound (inside : Construct) (atContentStart : Bool) :
    ∀ rule ∈ within inside atContentStart, rule.sound = true := by
  apply List.all_eq_true.mp
  cases inside <;> cases atContentStart <;> decide

theorem within_modest (inside : Construct) (atContentStart : Bool) :
    ∀ rule ∈ within inside atContentStart, rule.modest = true := by
  apply List.all_eq_true.mp
  cases inside <;> cases atContentStart <;> decide

theorem within_moves (inside : Construct) (atContentStart : Bool) :
    ∀ rule ∈ within inside atContentStart,
      (rule.pattern.moves || inside.lapses && rule.ends) = true := by
  apply List.all_eq_true.mp
  cases inside <;> cases atContentStart <;> decide

theorem within_tame (inside : Construct) (atContentStart : Bool) :
    ∀ rule ∈ within inside atContentStart, rule.tame inside = true := by
  apply List.all_eq_true.mp
  cases inside <;> cases atContentStart <;> decide

end Rule

end LineMarkup
