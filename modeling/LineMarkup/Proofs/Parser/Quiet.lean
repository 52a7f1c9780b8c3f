import LineMarkup.Proofs.Marker.Prose
import LineMarkup.Proofs.Parser.Idling

namespace LineMarkup

open Matcher (Peg)
open Token (endless)

namespace Construct

variable {c : Char} {kind : Construct} {kinds : List Construct}

/-- Directly inside the bracket `c` is text, but perhaps behind a hash. -/
def isText (c : Char) (kind : Construct) : Bool :=
  kind.holdsContent || (c ≠ '(' && kind.holdsMath)

/-- Nothing is opened inside. -/
def isSealed : Construct → Bool
  | .raw | .rawBlock | .commentLine | .commentBlock | .stringLiteral | .codeString => true
  | _ => false

/-- The bracket `c` is not closed in it for its own sake, but perhaps behind a hash. -/
def isSilent (c : Char) (kind : Construct) : Bool :=
  !kind.holdsCode && !(c = '(' && kind.holdsMath) && !(c ≠ '\x7b' && kind.isName)

theorem silent_of_light (h : kind.isLight c = true) : kind.isSilent c = true := by
  revert h
  cases kind <;> simp [isLight, isSilent, holdsCode, holdsMath, isName]

theorem silent_of_base (h : kind.isBase c = true) : kind.isSilent c = true := by
  revert h
  cases kind <;> simp [isBase, isSilent, holdsCode, holdsMath, isName]

theorem not_comment_of_base (h : kind.isBase c = true) : ¬ kind.isComment = true := by
  revert h
  cases kind <;> simp [isBase, isComment]

theorem silent_of_sealed (h : kind.isSealed = true) : kind.isSilent c = true := by
  revert h
  cases kind <;> simp [isSealed, isSilent, holdsCode, holdsMath, isName]

/-- Where brackets are text, what is not light is so too. -/
theorem base_of_text (hn : Nested (kind :: kinds)) (hk : kind.isText c = true) :
    ∀ base ∈ (kind :: kinds).find? (!·.isLight c), base.isBase c = true := by
  induction kinds generalizing kind with
  | nil =>
    intro base hbase
    rw [List.find?_singleton] at hbase
    split at hbase
    · obtain rfl := Option.some.inj hbase
      revert hk
      cases kind <;> simp_all [isText, isBase, isLight, holdsContent, holdsMath]
    · cases hbase
  | cons outer rest ih =>
    intro base hbase
    obtain ⟨hadmits, hrest⟩ := List.isChain_cons_cons.mp hn
    cases hlight : kind.isLight c with
    | true =>
      have houter : outer.holdsContent = true := by
        revert hk hlight hadmits
        cases kind <;> simp [isText, isLight, admits, holdsContent, holdsMath]
      rw [List.find?_cons_of_neg (by simp [hlight])] at hbase
      exact ih hrest (by simp [isText, houter]) base hbase
    | false =>
      rw [List.find?_cons_of_pos (by simp [hlight])] at hbase
      obtain rfl := Option.some.inj hbase
      revert hk hlight
      cases kind <;> simp [isText, isBase, isLight, holdsContent, holdsMath]

end Construct

namespace Rule

/-- What is sealed is only closed. -/
theorem within_sealed {inside : Construct} (h : inside.isSealed = true) (atContentStart : Bool) :
    ∀ rule ∈ within inside atContentStart,
      rule.actions = [.pop] ∧ rule.otherwise = [] ∧ rule.minLength = 0 := by
  cases inside <;> cases h <;> cases atContentStart <;> decide

end Rule

namespace Parser

variable {text text' : Text} {carried : List Construct} {p p' q q' : Parser} {c : Char}
  {kind : Construct} {k l n pos : Nat} {token : Token} {frame : Frame} {stop : Nat}
  {implicit : Bool}

/-- The brackets `c` are text, once what lapses has ended. -/
def Texts (c : Char) (p : Parser) : Prop :=
  p.top.kind.isText c = true ∨ p.top.kind.lapses = true ∧ p.pop.top.kind.isText c = true

theorem Texts.base (h : Texts c p) (hr : Rooted p)
    (hn : Construct.Nested (p.stack.map Frame.kind)) :
    ∀ kind, p.heavy c = some kind → kind.isBase c = true := by
  obtain ⟨below, hs⟩ := hr.stack_eq
  rw [hs, List.map_cons] at hn
  intro kind hk
  rw [heavy, hs, List.map_cons] at hk
  rcases h with htext | ⟨hlapses, htext⟩
  · exact Construct.base_of_text hn htext kind hk
  · rw [List.find?_cons_of_neg (by simp [lapses_light hlapses])] at hk
    cases below with
    | nil => cases hk
    | cons outer rest =>
      have hpop : p.pop.top = outer := by
        unfold pop
        rw [hs]
        rfl
      rw [hpop] at htext
      exact Construct.base_of_text hn.tail htext kind hk

theorem Texts.of_peers (h : Texts c q) (hp : Peers p q) : Texts c p := by
  rw [Texts, hp.top, hp.pop.top]
  exact h

/-- Text that holds nothing is a link. -/
theorem Texts.link (h : Texts c p) (hcontent : p.top.kind.holdsContent = false)
    (hmath : p.top.kind.holdsMath = false) (hchain : p.top.kind.isChain = false) :
    p.top.kind = .link := by
  rcases h with htext | ⟨hlapses, _⟩
  · simp [Construct.isText, hcontent, hmath] at htext
  · revert hlapses hchain
    cases p.top.kind <;> simp [Construct.lapses, Construct.isChain]

/-- Where brackets are text there is no code. -/
theorem Texts.holdsCode (h : Texts c p) : p.top.kind.holdsCode = false := by
  rcases h with htext | ⟨hlapses, _⟩
  · revert htext
    cases p.top.kind <;>
      simp [Construct.isText, Construct.holdsCode, Construct.holdsContent, Construct.holdsMath]
  · revert hlapses
    cases p.top.kind <;> simp [Construct.lapses, Construct.holdsCode]

/-- Only innermost frames are chains. -/
theorem unchained_of_nested (hr : Rooted p) (hn : Construct.Nested (p.stack.map Frame.kind))
    (htop : c = '\x7b' ∨ p.top.kind ≠ .codeChain) : Unchained c p := by
  refine htop.imp_right fun hne => ?_
  obtain ⟨below, hs⟩ := hr.stack_eq
  have hall : ∀ {kind : Construct} {frames : List Frame},
      Construct.Nested (kind :: frames.map Frame.kind) → ∀ f ∈ frames, f.kind ≠ .codeChain := by
    intro kind frames
    induction frames generalizing kind with
    | nil => simp
    | cons outer rest ih =>
      intro hn
      obtain ⟨hadmits, hrest⟩ := List.isChain_cons_cons.mp hn
      refine List.forall_mem_cons.mpr ⟨fun hchain => ?_, ih hrest⟩
      have hholds := Construct.holds_of_admits hadmits
      rw [hchain] at hholds
      cases hholds
  rw [hs, List.map_cons] at hn
  rw [hs]
  exact List.forall_mem_cons.mpr ⟨hne, hall hn⟩

/-- What was reported meanwhile leads from the one stack to the other. -/
def Replays (p p' : Parser) : Prop :=
  ∃ new, p'.events = new ++ p.events ∧ Event.replayAll? p.stack new.reverse = some p'.stack

theorem Replays.trans (h : Replays p p') (h' : Replays p' q) : Replays p q := by
  obtain ⟨new, heq, hreplay⟩ := h
  obtain ⟨new', heq', hreplay'⟩ := h'
  refine ⟨new' ++ new, by rw [heq', heq, List.append_assoc], ?_⟩
  rw [Event.replayAll?] at hreplay hreplay' ⊢
  rw [List.reverse_append, List.foldlM_append, hreplay]
  exact hreplay'

theorem pop_replays (p : Parser) : Replays p p.pop := by
  unfold pop
  split
  · rename_i frame below rest hs
    refine ⟨[.pop frame p.mark.stop false], rfl, ?_⟩
    simp [Event.replayAll?, Event.replay?, hs]
  · exact ⟨[], rfl, rfl⟩

theorem act_replays (p : Parser) (action : Action) : Replays p (p.act action) := by
  cases action with
  | push kind => exact ⟨[.push { kind, start := p.mark.start } p.mark.stop], rfl, rfl⟩
  | pop => exact pop_replays p
  | instant kind => exact ⟨[.instant { kind, start := p.mark.start } p.mark.stop], rfl, rfl⟩
  | startContent => exact ⟨[], rfl, rfl⟩
  | popMath =>
    exact popMath_induction (P := fun q => Replays p q) (fun q hq => hq.trans (pop_replays q))
      ⟨[], rfl, rfl⟩

/-- All that the parser has reported has ended by a position, and leads to what it has open. -/
structure Halted (carried : List Construct) (pos : Nat) (p : Parser) : Prop where
  replayed : Event.replayAll? (Frame.around carried) p.events.reverse = some p.stack
  ended : EndedBy pos p.events

namespace Halted

theorem replays (h : Halted carried pos p) (hp : Replays p p') (he : EndedBy pos p'.events) :
    Halted carried pos p' := by
  obtain ⟨new, heq, hreplay⟩ := hp
  refine ⟨?_, he⟩
  have hreplayed := h.replayed
  rw [Event.replayAll?] at hreplayed hreplay ⊢
  rw [heq, List.reverse_append, List.foldlM_append, hreplayed]
  exact hreplay

theorem of_kept (h : Halted carried pos p) (he : p'.events = p.events) (hs : p'.stack = p.stack) :
    Halted carried pos p' :=
  h.replays ⟨[], he, congrArg some hs.symm⟩ (he ▸ h.ended)

/-- Actions report what has ended with the match. -/
theorem perform (h : Halted carried pos p) (hm : p.mark.stop ≤ pos) (actions : List Action) :
    Halted carried pos (p.perform actions) := by
  have hreplays : Replays p (p.perform actions) :=
    perform_induction (P := fun q => Replays p q)
      (fun action _ q hq => hq.trans (act_replays q action)) ⟨[], rfl, rfl⟩
  refine h.replays hreplays fun e he => ?_
  obtain ⟨new, heq, hbounds⟩ := perform_adds p actions
  rw [heq] at he
  rcases List.mem_append.mp he with he | he
  · have hstop := hbounds e he
    cases e with
    | push | instant => exact Nat.le_trans (Nat.le_of_eq hstop.2) hm
    | pop => exact Nat.le_trans (Nat.le_of_eq hstop) hm
    | loose => exact hstop.elim
  · exact h.ended e he

end Halted

theorem Ongoing.halted (h : Ongoing text carried k p) (hk : (endless text k).start ≤ pos) :
    Halted carried pos p :=
  ⟨h.steady.trace.replayAll, h.steady.ended.mono hk⟩

namespace Telling

theorem met (h : Telling p q) (hm : .instant frame stop ∈ p.events) :
    ∃ f, .instant f stop ∈ q.events ∧ f.kind = frame.kind := by
  have hgist : .instant { kind := frame.kind, start := 0 } stop ∈ p.events.filterMap Event.gist :=
    List.mem_filterMap.mpr ⟨_, hm, rfl⟩
  rw [h.gists] at hgist
  obtain ⟨e, he, hsame⟩ := List.mem_filterMap.mp hgist
  cases e with
  | instant f stop' =>
    simp only [Event.gist, Option.some.injEq, Event.instant.injEq, Frame.mk.injEq] at hsame
    obtain ⟨⟨hkind, _⟩, rfl⟩ := hsame
    exact ⟨f, he, hkind⟩
  | push | loose => simp [Event.gist] at hsame
  | pop =>
    simp only [Event.gist] at hsame
    split at hsame <;> simp at hsame

theorem closed (h : Telling p q) (hm : .pop frame stop implicit ∈ p.events)
    (hk : frame.kind.lapses = false) :
    ∃ f implicit', .pop f stop implicit' ∈ q.events ∧ f.kind = frame.kind := by
  have hgist : .pop { kind := frame.kind, start := 0 } stop false ∈
      p.events.filterMap Event.gist :=
    List.mem_filterMap.mpr ⟨_, hm, by simp [Event.gist, hk]⟩
  rw [h.gists] at hgist
  obtain ⟨e, he, hsame⟩ := List.mem_filterMap.mp hgist
  cases e with
  | pop f stop' implicit' =>
    simp only [Event.gist] at hsame
    split at hsame
    · cases hsame
    · simp only [Option.some.injEq, Event.pop.injEq, Frame.mk.injEq] at hsame
      obtain ⟨⟨hkind, _⟩, rfl, _⟩ := hsame
      exact ⟨f, implicit', he, hkind⟩
  | push | loose | instant => simp [Event.gist] at hsame

theorem loose (h : Telling p q) (hm : .loose token frame ∈ q.events) :
    ∃ t f, .loose t f ∈ p.events ∧ t.unmarked = token.unmarked ∧ f.kind = frame.kind := by
  have hgist : .loose token.unmarked { kind := frame.kind, start := 0 } ∈
      q.events.filterMap Event.gist :=
    List.mem_filterMap.mpr ⟨_, hm, rfl⟩
  rw [← h.gists] at hgist
  obtain ⟨e, he, hsame⟩ := List.mem_filterMap.mp hgist
  cases e with
  | loose t f =>
    simp only [Event.gist, Option.some.injEq, Event.loose.injEq, Frame.mk.injEq] at hsame
    exact ⟨t, f, he, hsame.1, hsame.2.1⟩
  | push | instant => simp [Event.gist] at hsame
  | pop =>
    simp only [Event.gist] at hsame
    split at hsame <;> simp at hsame

end Telling

/-- Nothing that was reported asks for the bracket `c` at token `n`: no name, no argument without a
semicolon behind it, and no hash where code may begin. A hash may stand in a link, or in what is
around the place. -/
structure Unasked (text : Text) (n : Nat) (c : Char) (around : Construct) (es : List Event) :
    Prop where
  name : c ≠ '\x7b' → ∀ f, .instant f (endless text n).start ∈ es → f.kind.isName = false
  argument : c = '[' → ∀ f implicit, .pop f (endless text n).start implicit ∈ es →
    f.kind.isArgument = true → ∃ k, n = k + 1 ∧ (endless text k).isSymbol ';' = true
  hash : ∀ k, n = k + 1 → (endless text k).isSymbol '#' = true →
    ∃ token frame, .loose token frame ∈ es ∧ token.unmarked = endless text k ∧
      (frame.kind = .link ∨ frame.kind = around ∧ around.isSealed = true)

/-- A parser that comes to the bracket with no code around it asks for nothing, and neither does one
that tells the same. -/
theorem Ongoing.unasked (h : Ongoing text' carried l q') (hl : l ≤ n) (hc : c ∈ brackets)
    (hi : (endless text' n).isSymbol c = true) (hcode : l = n → q'.top.kind.holdsCode = false)
    (ht : Telling p q) (hq : q.events <:+ q'.events)
    (hhash : ∀ k, n = k + 1 → (endless text' k).isSymbol '#' = true → l = n ∧ q = q' ∧
      (q.top.kind.holdsContent = false → q.top.kind.holdsMath = false →
        q.top.kind.isChain = false →
          q.top.kind = .link ∨ q.top.kind = kind ∧ kind.isSealed = true)) :
    Unasked text' n c kind p.events := by
  have hmem {e : Event} (he : e ∈ q.events) : e ∈ q'.events := hq.subset he
  refine ⟨fun hbrace f hm => ?_, fun hsquare f implicit hm hk => ?_, fun k hn hk => ?_⟩
  · obtain ⟨f', hm', hkind⟩ := ht.met hm
    rw [← hkind, Bool.eq_false_iff]
    intro hname
    rcases Nat.eq_or_lt_of_le hl with rfl | hlt
    · have hcode := hcode rfl
      rw [(h.unbidden c hc hi).name hbrace f' (hmem hm') hname] at hcode
      cases hcode
    · exact (h.steady.late h.coming hi hlt).1 f' (hmem hm')
  · have hlapses : f.kind.lapses = false := by
      revert hk
      cases f.kind <;> simp [Construct.isArgument, Construct.lapses]
    obtain ⟨f', implicit', hm', hkind⟩ := ht.closed hm hlapses
    rw [← hkind] at hk
    rcases Nat.eq_or_lt_of_le hl with rfl | hlt
    · exact (h.unbidden c hc hi).argument hsquare f' implicit' (hmem hm') hk
    · exact absurd (hmem hm') ((h.steady.late h.coming hi hlt).2 f' implicit' hk)
  · obtain ⟨rfl, rfl, hkind⟩ := hhash k hn hk
    obtain ⟨hcontent, hmath, hchain, token, rest, hevents, hsame⟩ :=
      (h.unbidden c hc hi).hash k hn hk
    have hlast : .loose token q.top ∈ q.events := hevents ▸ List.mem_cons_self
    obtain ⟨t, f, hm, hsame', hf⟩ := ht.loose hlast
    exact ⟨t, f, hm, hsame'.trans hsame, hf ▸ hkind hcontent hmath hchain⟩

/-- From a parser on, nothing in a text has the bracket `c` closed at a position. What is not light
spares the position, and the innermost construct there is `around`. -/
structure Quiet (text text' : Text) (carried : List Construct) (n : Nat) (c : Char) (pos : Nat)
    (light : Construct → Bool) (around : Construct) (p : Parser) : Prop where
  halted : Halted carried pos p
  spares : Adds (Event.Spares light pos) p (finish text carried)
  heavy : ((p.stack.map Frame.kind).find? (!light ·)).getD .content = around
  kinds : light = Construct.isLight c ∧ around.isBase c = true ∨
    light = Construct.lapses ∧ around.isSealed = true
  unasked : Unasked text' n c around p.events
  comments : around.isComment = true →
    ∀ f ∈ p.stack, f.kind.isComment = true → f.carried = false → f.start + 2 ≤ pos

/-- Where brackets are text, and remain so. -/
theorem Texts.quiet (h : Texts c p) (hr : Rooted p)
    (hn : Construct.Nested (p.stack.map Frame.kind)) (hh : Halted carried pos p)
    (hs : Adds (Event.Spares (Construct.isLight c) pos) p (finish text carried))
    (hu : ∀ kind, Unasked text' n c kind p.events) :
    ∃ around, Quiet text text' carried n c pos (Construct.isLight c) around p := by
  have hbase : ((p.heavy c).getD .content).isBase c = true := by
    cases hheavy : p.heavy c with
    | none => rfl
    | some kind => exact h.base hr hn kind hheavy
  refine ⟨_, hh, hs, rfl, .inl ⟨rfl, hbase⟩, hu _, fun hcomment => ?_⟩
  exact absurd hcomment (Construct.not_comment_of_base hbase)

end Parser

end LineMarkup
