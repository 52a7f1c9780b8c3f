import LineMarkup.LineStore.Bracket
import LineMarkup.Proofs.Event.Story
import LineMarkup.Proofs.Matcher.Character
import LineMarkup.Proofs.Parser.Turn

namespace LineMarkup

/-- The brackets that enclose content, code or arguments. -/
def brackets : List Char :=
  ['(', '[', '\x7b']

namespace Construct

/-- Only the next token tells whether a name goes on. -/
def isChain : Construct → Bool
  | .mathChain | .codeChain => true
  | _ => false

theorem lapses_of_chain {kind : Construct} (h : kind.isChain = true) : kind.lapses = true := by
  revert h
  cases kind <;> simp [isChain, lapses]

def isName : Construct → Bool
  | .codeVariable | .codeFunction => true
  | _ => false

/-- There may be one more argument behind these. -/
def isArgument : Construct → Bool
  | .codeArguments | .contentBlock => true
  | _ => false

end Construct

namespace Action

/-- A construct is opened that the bracket encloses. -/
def opens (c : Char) : List Action → Bool
  | [.push kind] => kind.opening? = some c
  | _ => false

/-- At most the innermost construct is closed, unless a dollar sign closes math. -/
def popsTop : List Action → Bool
  | [.pop] | [.instant _, .pop] => true
  | actions => !actions.contains .pop

/-- Nothing is opened or closed. -/
def meets : List Action → Bool
  | [.instant _] => true
  | _ => false

def namesNothing (actions : List Action) : Bool :=
  actions.all fun action => match action with
    | .instant kind => !kind.isName
    | _ => true

end Action

namespace Continuation

def opens (c : Char) (next : Continuation) : Bool :=
  next.pattern.isLone c && Action.opens c next.actions

/-- The bracket is always taken. -/
def always (c : Char) (next : Continuation) : Bool :=
  next.pattern.isLone c && !next.outsideCode

/-- A token is taken, no name is met, and nothing is closed. -/
def isOnward (next : Continuation) : Bool :=
  next.pattern.takes (fun _ => true) && !next.pattern.endsIn '#' &&
    !next.actions.contains .pop && Action.namesNothing next.actions

/-- The same as facts. -/
structure Onward (next : Continuation) : Prop where
  takes : next.pattern.takes (fun _ => true) = true
  hashless : next.pattern.endsIn '#' = false
  popless : .pop ∉ next.actions
  nameless : Action.namesNothing next.actions = true

theorem onward_of {next : Continuation} (h : next.isOnward = true) : next.Onward := by
  simp only [isOnward, Bool.and_eq_true, Bool.not_eq_true', List.contains_eq_mem,
    decide_eq_false_iff_not] at h
  exact ⟨h.1.1.1, h.1.1.2, h.1.2, h.2⟩

end Continuation

namespace Rule

open Matcher

def opens (c : Char) (rule : Rule) : Bool :=
  (rule.pattern.isLone c || rule.pattern.isHashed c) && Action.opens c rule.actions &&
    rule.minLength == 0 && rule.continuations.isEmpty && rule.otherwise.isEmpty

def shuts (c : Char) (rule : Rule) : Bool :=
  rule.pattern.isLone c && rule.actions == [.pop] && rule.minLength == 0

/-- No hash is left behind, and at most the innermost construct is closed. -/
def isBlunt (inside : Construct) (rule : Rule) : Bool :=
  (rule.pattern.takes (fun _ => true) || inside.lapses && rule.ends) &&
    !rule.pattern.endsIn '#' && Action.popsTop rule.actions &&
    rule.continuations.all Continuation.isOnward &&
    (rule.otherwise.isEmpty ||
      inside.isChain && rule.otherwise == [.pop] && Action.meets rule.actions)

/-- The same as facts. -/
structure Blunt (inside : Construct) (rule : Rule) : Prop where
  takes : rule.pattern.takes (fun _ => true) = true ∨ inside.lapses = true ∧ rule.Ends
  hashless : rule.pattern.endsIn '#' = false
  popsTop : Action.popsTop rule.actions = true
  onward : ∀ next ∈ rule.continuations, next.Onward
  otherwise : rule.otherwise = [] ∨
    inside.isChain = true ∧ rule.otherwise = [.pop] ∧ Action.meets rule.actions = true

theorem blunt_of {inside : Construct} {rule : Rule} (h : rule.isBlunt inside = true) :
    rule.Blunt inside := by
  simp only [isBlunt, Bool.and_eq_true, Bool.or_eq_true, Bool.not_eq_true', List.all_eq_true,
    List.isEmpty_iff, beq_iff_eq] at h
  obtain ⟨⟨⟨⟨htakes, hashless⟩, hpops⟩, honward⟩, hother⟩ := h
  exact ⟨htakes.imp_right fun hends => ⟨hends.1, ends_of hends.2⟩, hashless, hpops,
    fun next hn => Continuation.onward_of (honward next hn),
    hother.imp_right fun hbroken => ⟨hbroken.1.1, hbroken.1.2, hbroken.2⟩⟩

namespace Blunt

variable {inside : Construct} {rule : Rule} {input : Nat → Token} {j k : Nat}
  (h : rule.Blunt inside) (hreads : Peg input rule.pattern k (some j))

include h hreads

/-- Only what lapses can end before a token is taken. -/
theorem lt_of_lasting (hl : inside.lapses = false) : k < j := by
  rcases h.takes with htakes | ⟨hlapses, _⟩
  · obtain ⟨n, hlow, hhigh, _⟩ := hreads.takes htakes
    exact Nat.lt_of_le_of_lt hlow hhigh
  · rw [hl] at hlapses
    cases hlapses

/-- Where something may follow, a token has been taken. -/
theorem lt_of_next {next : Continuation} (hn : next ∈ rule.continuations) : k < j := by
  rcases h.takes with htakes | ⟨_, hends⟩
  · obtain ⟨n, hlow, hhigh, _⟩ := hreads.takes htakes
    exact Nat.lt_of_le_of_lt hlow hhigh
  · rw [hends.continuations] at hn
    cases hn

end Blunt

/-- Behind a name of a function the bracket is taken, now or in the next round. -/
def callsOn (inside : Construct) (rule : Rule) : Bool :=
  (rule.continuations.any (Continuation.always '(') &&
      rule.continuations.any (Continuation.always '[')) ||
    (inside.holdsCode && rule.actions == [.instant .codeFunction] && rule.otherwise.isEmpty)

/-- Behind an argument one more block is taken, but not behind a semicolon. -/
def takesBlock (rule : Rule) : Bool :=
  rule.pattern.isLone ';' || rule.continuations.any (Continuation.always '[')

/-- No rule takes a bracket, unless it opens something with it. -/
def minds (c : Char) (rule : Rule) : Bool :=
  (!rule.pattern.includes c || rule.opens c) &&
    rule.continuations.all (fun next => !next.pattern.includes c || next.opens c)

section Brackets

variable {inside : Construct} {c : Char} (hc : c ∈ brackets) (atContentStart : Bool)

include hc

theorem within_minds : ∀ rule ∈ within inside atContentStart, rule.minds c = true := by
  have hall : brackets.all (fun c => (within inside atContentStart).all (minds c)) = true := by
    cases inside <;> cases atContentStart <;> decide
  exact List.all_eq_true.mp (List.all_eq_true.mp hall c hc)

/-- Inside of brackets only the closing one is for the closing one. -/
theorem within_shuts (h : inside.opening? = some c) :
    (∀ rule ∈ within inside atContentStart,
      (!rule.pattern.includes (LineStore.closing c) || rule.shuts (LineStore.closing c)) = true) ∧
    ∃ rule ∈ within inside atContentStart, rule.pattern.isLone (LineStore.closing c) = true := by
  have hall : brackets.all (fun c => inside.opening? ≠ some c ||
      (within inside atContentStart).all (fun rule =>
        !rule.pattern.includes (LineStore.closing c) || rule.shuts (LineStore.closing c)) &&
      (within inside atContentStart).any
        (fun rule => rule.pattern.isLone (LineStore.closing c))) = true := by
    cases inside <;> cases atContentStart <;> decide
  have hshuts := List.all_eq_true.mp hall c hc
  simpa [h] using hshuts

theorem within_code (h : inside.holdsCode = true) :
    ∃ rule ∈ within inside atContentStart, rule.pattern.isLone c = true := by
  have hall : brackets.all (fun c =>
      (within inside atContentStart).any (fun rule => rule.pattern.isLone c)) = true := by
    revert h
    cases inside <;> cases atContentStart <;> decide
  exact List.any_eq_true.mp (List.all_eq_true.mp hall c hc)

/-- Where content or math holds code, it begins with a hash. -/
theorem within_hashed (h : (inside.holdsContent || inside.holdsMath) = true) :
    ∃ rule ∈ within inside atContentStart, rule.pattern.isHashed c = true := by
  have hall : brackets.all (fun c =>
      (within inside atContentStart).any (fun rule => rule.pattern.isHashed c)) = true := by
    revert h
    cases inside <;> cases atContentStart <;> decide
  exact List.any_eq_true.mp (List.all_eq_true.mp hall c hc)

end Brackets

variable {inside : Construct} (atContentStart : Bool)

theorem within_math (h : inside.holdsMath = true) :
    ∃ rule ∈ within inside atContentStart, rule.pattern.isLone '(' = true := by
  revert h
  cases inside <;> cases atContentStart <;> decide

theorem within_blunt : ∀ rule ∈ within inside atContentStart, rule.Blunt inside := by
  have hall : (within inside atContentStart).all (isBlunt inside) = true := by
    cases inside <;> cases atContentStart <;> decide
  exact fun rule hm => blunt_of (List.all_eq_true.mp hall rule hm)

theorem within_function : ∀ rule ∈ within inside atContentStart,
    .instant .codeFunction ∈ rule.actions → rule.callsOn inside = true := by
  cases inside <;> cases atContentStart <;> decide

theorem within_argument (h : inside.isArgument = true) :
    ∀ rule ∈ within inside atContentStart, .pop ∈ rule.actions → rule.takesBlock = true := by
  revert h
  cases inside <;> cases atContentStart <;> decide

theorem within_chain (h : inside.isChain = true) : broken ∈ within inside atContentStart := by
  cases inside <;> simp [Construct.isChain, within, Construct.holdsContent, Construct.holdsMath,
    Construct.holdsCode, inMathChain, inCodeChain] at h ⊢

/-- Where content or math holds code, comments and code are tried first. -/
theorem within_codeStart (h : (inside.holdsContent || inside.holdsMath) = true) :
    ∃ rest, within inside atContentStart = comments ++ codeStart ++ rest := by
  cases inside <;> simp [Construct.holdsContent, Construct.holdsMath] at h <;> exact ⟨_, rfl⟩

/-- The place of the rule for names of variables among the others. -/
theorem within_variable_place : ∀ n < (within inside atContentStart).length,
    ((within inside atContentStart)[n]?).any
      (fun rule => rule.actions.contains (.instant .codeVariable)) = true →
    inside = .codeChain ∧ n = 1 ∨ (inside.holdsContent || inside.holdsMath) = true ∧ n = 6 := by
  cases inside <;> cases atContentStart <;> decide

/-- A name is that of a variable only where no call has been read. -/
theorem within_variable {n : Nat} {rule : Rule}
    (hn : (within inside atContentStart)[n]? = some rule)
    (ha : .instant .codeVariable ∈ rule.actions) :
    (rule.pattern = identifier ∧
      ∃ r ∈ (within inside atContentStart).take n, r.pattern = functionName) ∨
    (rule.pattern = .seq (.symbol '#') identifier ∧
      ∃ r ∈ (within inside atContentStart).take n, r.pattern = .seq (.symbol '#') functionName) := by
  have hlt := (List.getElem?_eq_some_iff.mp hn).1
  rcases within_variable_place atContentStart n hlt (by simpa [hn] using ha) with
    ⟨rfl, rfl⟩ | ⟨hholds, rfl⟩
  · left
    obtain rfl := Option.some.inj hn
    exact ⟨rfl, inCodeChain[0], by simp [within, inCodeChain, Construct.holdsContent,
      Construct.holdsMath, Construct.holdsCode], rfl⟩
  · right
    obtain ⟨rest, hsplit⟩ := within_codeStart atContentStart hholds
    rw [hsplit] at hn ⊢
    obtain rfl := Option.some.inj hn
    exact ⟨rfl, codeStart[1], by simp [comments, codeStart], rfl⟩

end Rule

end LineMarkup
