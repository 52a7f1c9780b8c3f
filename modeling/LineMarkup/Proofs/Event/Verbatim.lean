import LineMarkup.Parser.Rule
import LineMarkup.Proofs.Event.Trace
import LineMarkup.Proofs.Text.Escape

namespace LineMarkup

open Text (OccursAt Absent)

/-- The mark that ends a construct in which nothing else is looked for. -/
def Construct.terminator? : Construct → Option Text
  | .raw => some "`".toList
  | .rawBlock => some "```".toList
  | .commentBlock => some "*/".toList
  | _ => none

def Action.opensVerbatim : Action → Bool
  | .push kind => kind.terminator?.isSome
  | _ => false

namespace Rule

/-- A construct with a mark is opened by the only action of a rule. -/
def opensAlone (rule : Rule) : Bool :=
  rule.actions.length = 1 && rule.minLength = 0 && rule.continuations.isEmpty &&
    rule.otherwise.isEmpty

def opensNothing (rule : Rule) : Bool :=
  !rule.actions.any Action.opensVerbatim && !rule.otherwise.any Action.opensVerbatim &&
    rule.continuations.all (fun next => !next.actions.any Action.opensVerbatim)

theorem within_verbatim (inside : Construct) (atContentStart : Bool) :
    ∀ rule ∈ within inside atContentStart, (rule.opensNothing || rule.opensAlone) = true := by
  apply List.all_eq_true.mp
  cases inside <;> cases atContentStart <;> decide

end Rule

namespace Event

variable {text mark : Text} {frame : Frame} {stop : Nat} {es later earlier looses : List Event}

/-- Nothing but loose tokens of the frame. -/
def LooseIn (frame : Frame) (es : List Event) : Prop :=
  ∀ e ∈ es, ∃ token, e = .loose token frame

theorem LooseIn.reverse (h : LooseIn frame es) : LooseIn frame es.reverse :=
  fun e he => h e (List.mem_reverse.mp he)

/-- What comes after a frame was opened, the latest event first: if the frame has a mark, then loose
tokens up to the first place of the mark, where the frame is closed. -/
def Terminated (text : Text) (frame : Frame) (stop : Nat) (later : List Event) : Prop :=
  ∀ mark, frame.kind.terminator? = some mark → ∃ more looses pos,
    later = more ++ .pop frame (pos + mark.size) false :: looses ∧ LooseIn frame looses ∧
      stop ≤ pos ∧ OccursAt text mark pos ∧ Absent text mark stop pos

/-- This holds of all frames that were opened. -/
def AllTerminated (text : Text) (es : List Event) : Prop :=
  ∀ later frame stop earlier, es = later ++ .push frame stop :: earlier →
    Terminated text frame stop later

theorem Terminated.more (h : Terminated text frame stop later) (es : List Event) :
    Terminated text frame stop (es ++ later) := by
  intro mark hm
  obtain ⟨more, looses, pos, rfl, hrest⟩ := h mark hm
  exact ⟨es ++ more, looses, pos, by simp, hrest⟩

theorem allTerminated_nil (text : Text) : AllTerminated text [] := by
  intro later frame stop earlier h
  simp at h

theorem AllTerminated.cons (h : AllTerminated text es)
    (hn : ∀ frame stop, e = .push frame stop → frame.kind.terminator? = none) :
    AllTerminated text (e :: es) := by
  intro later frame stop earlier heq
  cases later with
  | nil =>
    obtain ⟨rfl, _⟩ := List.cons.inj heq
    intro mark hm
    simp [hn frame stop rfl] at hm
  | cons e' later =>
    obtain ⟨rfl, hes⟩ := List.cons.inj heq
    exact (h later frame stop earlier hes).more [e]

/-- A push that is not among the first events is the one after them, or it is further on. -/
theorem split_push (hl : LooseIn owner looses)
    (h : looses ++ .push frame stop :: earlier = later ++ .push frame' stop' :: earlier') :
    (later = looses ∧ frame' = frame ∧ stop' = stop) ∨
      ∃ between, later = looses ++ .push frame stop :: between ∧
        earlier = between ++ .push frame' stop' :: earlier' := by
  rcases List.append_eq_append_iff.mp h with ⟨between, hlater, hrest⟩ | ⟨between, hlooses, hrest⟩
  · cases between with
    | nil =>
      obtain ⟨hpush, _⟩ := List.cons.inj hrest
      obtain ⟨rfl, rfl⟩ := Event.push.inj hpush
      exact .inl ⟨by simpa using hlater, rfl, rfl⟩
    | cons e between =>
      obtain ⟨rfl, hearlier⟩ := List.cons.inj hrest
      exact .inr ⟨between, hlater, hearlier⟩
  · cases between with
    | nil =>
      obtain ⟨hpush, _⟩ := List.cons.inj hrest
      obtain ⟨rfl, rfl⟩ := Event.push.inj hpush
      exact .inl ⟨by simpa using hlooses.symm, rfl, rfl⟩
    | cons e between =>
      obtain ⟨rfl, _⟩ := List.cons.inj hrest
      obtain ⟨token, htoken⟩ := hl (.push frame' stop') (by simp [hlooses])
      cases htoken

/-- A frame is closed at its mark. -/
theorem AllTerminated.close (h : AllTerminated text earlier)
    (hk : frame.kind.terminator? = some mark) (hl : LooseIn frame looses) (hle : stop ≤ pos)
    (ho : OccursAt text mark pos) (ha : Absent text mark stop pos) :
    AllTerminated text
      (.pop frame (pos + mark.size) false :: (looses ++ .push frame stop :: earlier)) := by
  intro later frame' stop' earlier' heq
  cases later with
  | nil =>
    obtain ⟨hpop, _⟩ := List.cons.inj heq
    cases hpop
  | cons e later =>
    obtain ⟨rfl, hes⟩ := List.cons.inj heq
    rcases split_push hl hes with ⟨rfl, rfl, rfl⟩ | ⟨between, rfl, hearlier⟩
    · intro mark' hm
      obtain rfl := Option.some.inj (hk.symm.trans hm)
      exact ⟨[], later, pos, rfl, hl, hle, ho, ha⟩
    · have := (h between frame' stop' earlier' hearlier).more
        (.pop frame (pos + mark.size) false :: (looses ++ [.push frame stop]))
      simpa using this

end Event

end LineMarkup
