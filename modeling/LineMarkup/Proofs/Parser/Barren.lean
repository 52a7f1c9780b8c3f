import LineMarkup.Proofs.Event.Story
import LineMarkup.Proofs.Parser.Verbatim

namespace LineMarkup

namespace Construct

/-- Nothing is looked for inside but the end. -/
def isBarren : Construct → Bool
  | .commentLine | .commentBlock | .raw | .rawBlock | .stringLiteral => true
  | _ => false

/-- A quote opens a string literal directly inside. -/
def quotes (kind : Construct) : Bool :=
  kind.holdsMath || kind.holdsCode

end Construct

def Action.opensBarren : Action → Bool
  | .push kind => kind.isBarren
  | _ => false

namespace Rule

/-- Neither the rule nor what may come after its match opens a barren construct. -/
def isFertile (rule : Rule) : Bool :=
  !rule.actions.any Action.opensBarren && !rule.otherwise.any Action.opensBarren &&
    rule.continuations.all (fun next => !next.actions.any Action.opensBarren)

theorem within_fertile (inside : Construct) (atContentStart : Bool) :
    ∀ rule ∈ within inside atContentStart, (rule.isFertile || rule.opensAlone) = true := by
  apply List.all_eq_true.mp
  cases inside <;> cases atContentStart <;> decide

theorem within_barren {inside : Construct} (h : inside.isBarren = true) (atContentStart : Bool) :
    ∀ rule ∈ within inside atContentStart, rule.ends = true := by
  apply List.all_eq_true.mp
  revert h
  cases inside <;> cases atContentStart <;> decide

theorem within_quotes (inside : Construct) (atContentStart : Bool) :
    ∀ rule ∈ within inside atContentStart,
      rule.actions = [.push .stringLiteral] → inside.quotes = true := by
  cases inside <;> cases atContentStart <;> decide

end Rule

/-- Events, the latest first, that lead from the frames `start` to those of the last argument.
Nothing begins while a barren frame is open, and string literals begin in math and code only. -/
inductive Sheltered (start : List Frame) : List Event → List Frame → Prop
  | nil : Sheltered start [] start
  | push (sheltered : Sheltered start es stack) (outside : ∀ f ∈ stack, f.kind.isBarren = false)
      (holder : frame.kind = .stringLiteral → ∀ top ∈ stack.head?, top.kind.quotes = true) :
      Sheltered start (.push frame stop :: es) (frame :: stack)
  | pop (sheltered : Sheltered start es (frame :: stack)) :
      Sheltered start (.pop frame stop implicit :: es) stack
  | instant (sheltered : Sheltered start es stack)
      (outside : ∀ f ∈ stack, f.kind.isBarren = false) :
      Sheltered start (.instant frame stop :: es) stack
  | loose (sheltered : Sheltered start es stack) :
      Sheltered start (.loose token frame :: es) stack

namespace Parser

open Token.Stream

variable {start : List Frame} {p p' : Parser} {limit pos : Nat} {rule : Rule}
  {action : Action} {actions : List Action}

/-- Only the innermost frame may be barren. -/
structure Spared (start : List Frame) (p : Parser) : Prop where
  sheltered : Sheltered start p.events p.stack
  below : ∀ f ∈ p.stack.tail, f.kind.isBarren = false

/-- No frame is barren. -/
structure Bare (start : List Frame) (p : Parser) : Prop where
  sheltered : Sheltered start p.events p.stack
  outside : ∀ f ∈ p.stack, f.kind.isBarren = false

theorem Bare.spared (h : Bare start p) : Spared start p :=
  ⟨h.sheltered, fun f hf => h.outside f (List.mem_of_mem_tail hf)⟩

theorem Spared.bare (h : Spared start p) (hr : Rooted p) (hk : p.top.kind.isBarren = false) :
    Bare start p := by
  obtain ⟨below, hs⟩ := hr.stack_eq
  refine ⟨h.sheltered, ?_⟩
  have hbelow := h.below
  rw [hs, List.tail_cons] at hbelow
  rw [hs]
  exact List.forall_mem_cons.mpr ⟨hk, hbelow⟩

theorem Spared.pop (h : Spared start p) : Spared start p.pop := by
  unfold Parser.pop
  split
  · rename_i frame below rest hs
    obtain ⟨hsheltered, hbelow⟩ := h
    rw [hs] at hsheltered hbelow
    exact ⟨.pop hsheltered, fun f hf => hbelow f (List.mem_cons_of_mem _ hf)⟩
  · exact h

theorem Bare.pop (h : Bare start p) : Bare start p.pop := by
  refine ⟨h.spared.pop.sheltered, fun f hf => ?_⟩
  unfold Parser.pop at hf
  split at hf
  · rename_i frame below rest hs
    exact h.outside f (hs ▸ List.mem_cons_of_mem frame hf)
  · exact h.outside f hf

theorem Bare.push (h : Bare start p) {kind : Construct}
    (hk : kind = .stringLiteral → ∀ top ∈ p.stack.head?, top.kind.quotes = true) :
    Spared start (p.push kind) :=
  ⟨.push h.sheltered h.outside hk, h.outside⟩

theorem Bare.act (h : Bare start p) (ha : action.opensBarren = false) :
    Bare start (p.act action) := by
  cases action with
  | push kind =>
    refine ⟨.push h.sheltered h.outside fun hk => ?_, List.forall_mem_cons.mpr ⟨ha, h.outside⟩⟩
    simp only [Action.opensBarren] at ha
    rw [show kind = _ from hk] at ha
    cases ha
  | pop => exact h.pop
  | instant => exact ⟨.instant h.sheltered h.outside, h.outside⟩
  | startContent => exact ⟨h.sheltered, h.outside⟩
  | popMath => exact popMath_induction (fun _ hq => hq.pop) h

theorem Bare.perform (h : Bare start p) (ha : actions.any Action.opensBarren = false) :
    Bare start (p.perform actions) := by
  rw [List.any_eq_false] at ha
  exact perform_induction (fun action hm _ hq => hq.act (by simpa using ha action hm)) h

/-- Matching alone reports nothing and opens nothing. -/
theorem Bare.of_kept (h : Bare start p) (he : p'.events = p.events) (hs : p'.stack = p.stack) :
    Bare start p' := by
  refine ⟨?_, ?_⟩
  · rw [he, hs]
    exact h.sheltered
  · rw [hs]
    exact h.outside

theorem Spared.of_kept (h : Spared start p) (he : p'.events = p.events)
    (hs : p'.stack = p.stack) : Spared start p' := by
  refine ⟨?_, ?_⟩
  · rw [he, hs]
    exact h.sheltered
  · rw [hs]
    exact h.below

theorem Bare.follow (h : Bare start p) (hr : rule.sound = true) (hf : rule.isFertile = true)
    (hp : Poised limit pos p.stream) : Bare start (p.follow rule) := by
  simp only [Rule.isFertile, Bool.and_eq_true, Bool.not_eq_true', List.all_eq_true] at hf
  obtain ⟨⟨hactions, hother⟩, hnext⟩ := hf
  cases follow_cases hr hp with
  | short _ result =>
    rw [result]
    exact h
  | full hp =>
    have hperformed := h.perform hactions
    cases hp with
    | onward next listed p₁ p₂ ms _ ht ha result =>
      rw [result]
      have hkept := (hperformed.of_kept ht.events ht.stack).of_kept ha.kept.1 ha.kept.2.1
      exact hkept.perform (hnext next listed)
    | otherwise p₁ ms _ ht result =>
      rw [result]
      exact (hperformed.of_kept ht.events ht.stack).perform hother

/-- Within a barren frame a round ends it or takes a loose token. -/
theorem Spared.step (h : Spared start p) (hs : Steady limit start pos p) :
    Spared start p.step := by
  cases step_round hs.poised with
  | line _ p₁ ha acs result =>
    rw [result]
    have hpop := (h.of_kept ha.kept.1 ha.kept.2.1).pop
    exact ⟨hpop.sheltered, hpop.below⟩
  | rule acs rule listed p₁ p₂ ms ht plain ha result =>
    rw [result]
    have hkept : Spared start p₂ := (h.of_kept ht.events ht.stack).of_kept ha.kept.1 ha.kept.2.1
    cases hk : p.top.kind.isBarren with
    | true =>
      rw [follow_ends p₂ (Rule.within_barren hk acs rule listed)]
      exact hkept.pop
    | false =>
      have hbare : Bare start p₂ :=
        ((h.bare hs.rooted hk).of_kept ht.events ht.stack).of_kept ha.kept.1 ha.kept.2.1
      rcases Bool.or_eq_true_iff.mp (Rule.within_fertile _ _ rule listed) with hf | ho
      · exact (hbare.follow (Rule.within_sound _ _ rule listed) hf ha.poised).spared
      · obtain ⟨action, haction, hfollow⟩ := follow_opensAlone p₂ ho
        rw [hfollow]
        cases action with
        | push kind =>
          refine hbare.push fun hkind top htop => ?_
          rw [ha.kept.2.1, ht.stack] at htop
          obtain ⟨below, hstack⟩ := hs.rooted.stack_eq
          rw [hstack, List.head?_cons, Option.mem_some] at htop
          rw [← htop]
          exact Rule.within_quotes _ _ rule listed (by rw [haction, hkind])
        | _ => exact (hbare.act rfl).spared
  | loose acs p₁ p₂ ms ht plain unmatched ht' result =>
    rw [result]
    have hkept : Spared start p₂ := (h.of_kept ht.events ht.stack).of_kept ht'.events ht'.stack
    exact ⟨.loose hkept.sheltered, hkept.below⟩

theorem Spared.rounds (h : Spared start p) (hs : Steady limit start pos p) (fuel : Nat) :
    Spared start (rounds fuel p) := by
  induction fuel generalizing pos p with
  | zero => exact h
  | succ fuel ih =>
    simp only [Parser.rounds]
    split
    · exact h
    · obtain ⟨pos', _, hs'⟩ := step_steady hs
      exact ih (h.step hs) hs'

end Parser

/-- Frames that end with the text are closed there. -/
theorem Sheltered.closes {start frames rest : List Frame} {es : List Event} (limit : Nat)
    (h : Sheltered start es (frames ++ rest)) :
    Sheltered start ((frames.map (fun f => .pop f limit true)).reverse ++ es) rest := by
  induction frames generalizing es with
  | nil => exact h
  | cons frame frames ih =>
    rw [List.map_cons, List.reverse_cons, List.append_assoc]
    exact ih (.pop h)

namespace Parse

/-- What is reported of a text that is not parsed within two barren constructs. -/
theorem report_sheltered (text : Text) {carried : List Construct}
    (hc : ∀ f ∈ (Frame.around carried).tail, f.kind.isBarren = false) :
    Sheltered (Frame.around carried) ((ofText text carried).report false).reverse
      (ofText text carried).unclosed := by
  let parser := Parser.ofText text carried
  have hstart : Parser.Spared (Frame.around carried) parser := ⟨.nil, hc⟩
  have hspared := hstart.rounds (Parser.ofText_steady text carried) parser.roundLimit
  have hsheltered := hspared.sheltered
  rw [← List.takeWhile_append_dropWhile (p := fun f : Frame => f.kind.endsWithLine)
    (l := (parser.rounds parser.roundLimit).stack)] at hsheltered
  simpa [report, ofText] using Sheltered.closes text.size hsheltered

end Parse

namespace Construct

theorem not_barren_of_holds {kind : Construct} (h : kind.holds = true) : kind.isBarren = false := by
  revert h
  cases kind <;> decide

/-- What holds something else is not barren. -/
theorem Nested.tail_fertile {kinds : List Construct} (h : Nested kinds) :
    ∀ kind ∈ kinds.tail, kind.isBarren = false := by
  induction kinds with
  | nil => simp
  | cons inner kinds ih =>
    cases kinds with
    | nil => simp
    | cons outer kinds =>
      obtain ⟨hadmits, hrest⟩ := List.isChain_cons_cons.mp h
      exact List.forall_mem_cons.mpr ⟨not_barren_of_holds (holds_of_admits hadmits), ih hrest⟩

end Construct

end LineMarkup
