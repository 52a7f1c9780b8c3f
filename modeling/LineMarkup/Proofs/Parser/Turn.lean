import LineMarkup.Proofs.Matcher.Ordered
import LineMarkup.Proofs.Parser.Round

namespace LineMarkup

open Token (Session endless)
open Token.Stream (Poised Clean ahead)

namespace Rule

/-- The patterns can be read off the tokens. -/
def isLegible (rule : Rule) : Bool :=
  rule.pattern.tidy && rule.pattern.advances &&
    rule.continuations.all (fun next => next.pattern.tidy && next.pattern.advances)

/-- All that a match takes counts for its range. -/
def isShown (rule : Rule) : Bool :=
  rule.pattern.plain && rule.pattern.only (· != .whitespace) &&
    rule.pattern.takes (fun _ => true)

theorem within_legible (inside : Construct) (atContentStart : Bool) :
    ∀ rule ∈ within inside atContentStart, rule.isLegible = true := by
  apply List.all_eq_true.mp
  cases inside <;> cases atContentStart <;> decide

end Rule

namespace Parser

open Matcher (Peg)

variable {text : Text} {m : Matcher} {p p' p'' : Parser} {k n : Nat} {rules : List Rule}
  {rule : Rule} {acs : Bool}

/-- Token `k` of the text comes next. -/
structure Coming (text : Text) (k : Nat) (p : Parser) : Prop where
  follows : ∃ released : List Token, released.length = k ∧ Session.Follows text ⟨p.stream, released⟩
  poised : Poised text.size (endless text k).start p.stream

/-- The parser `p'` is `p` after a match that has taken the tokens from `k` up to before `j`. -/
structure Matched (text : Text) (m : Matcher) (k j : Nat) (p p' : Parser) : Prop where
  reads : Peg (endless text) m k (some j)
  coming : Coming text j p'
  events : p'.events = p.events
  stack : p'.stack = p.stack
  begins : k < j → (endless text k).start ≤ p'.mark.start
  mark : k < j → p'.mark.stop = (endless text j).start

/-- The parser `p'` is `p` after patterns that have failed. -/
structure Passed (text : Text) (k : Nat) (p p' : Parser) : Prop where
  coming : Coming text k p'
  events : p'.events = p.events
  stack : p'.stack = p.stack

theorem ofText_coming (text : Text) (carried : List Construct) :
    Coming text 0 (ofText text carried) :=
  ⟨⟨[], rfl, Session.ofText_follows text⟩, Token.Stream.ofText_poised text⟩

/-- A plain pattern leaves no marks where it fails. -/
theorem accept_clean (hc : Clean p.stream) (hp : m.plain = true)
    (hacc : p.accept m = (false, p')) : Clean p'.stream := by
  obtain ⟨new, hr, hf, _⟩ := Matcher.run_outcome hp (Matcher.only_all m) p.stream
  rcases hrun : m.run p.stream with ⟨ok, s⟩
  rw [Parser.accept, hrun] at hacc
  rw [hrun] at hr hf
  cases ok with
  | true => cases hacc
  | false =>
    obtain rfl := hf rfl
    obtain rfl := (Prod.mk.inj hacc).2
    obtain ⟨n, hn⟩ := hr.ahead_eq
    intro t ht hd
    rw [show ahead s = _ from hn] at ht
    rcases List.mem_append.mp ht with ht | ht
    · exact hc t ht hd
    · rw [List.eq_of_mem_replicate ht] at hd
      cases hd

namespace Coming

theorem passed (h : Coming text k p) : Passed text k p p :=
  ⟨h, rfl, rfl⟩

theorem of_stream (h : Coming text k p) (hs : p'.stream = p.stream) : Coming text k p' := by
  obtain ⟨hfollows, hpoised⟩ := h
  exact ⟨hs ▸ hfollows, hs ▸ hpoised⟩

theorem perform (h : Coming text k p) (actions : List Action) :
    Coming text k (p.perform actions) :=
  h.of_stream (perform_stream p actions)

/-- The place of the cursor is where the next token starts. -/
theorem of_poised {released : List Token} {pos : Nat}
    (hf : Session.Follows text ⟨p.stream, released⟩) (hk : released.length = k)
    (hp : Poised text.size pos p.stream) : Coming text k p ∧ pos = (endless text k).start := by
  have hfetch : p.stream.fetch.1.unmarked = endless text (released.length + p.stream.position) :=
    hf.fetch
  have hposition : p.stream.position = 0 := List.length_eq_zero_iff.mpr hp.consumed
  have hstart : pos = (endless text k).start := by
    rw [← hp.fetch.1, ← hk, ← Nat.add_zero released.length, ← hposition, ← hfetch]
    rfl
  exact ⟨⟨⟨released, hk, hf⟩, hstart ▸ hp⟩, hstart⟩

/-- A pattern takes what it reads, and leaves everything where it was if it fails. -/
theorem accept (h : Coming text k p) (ht : m.tidy = true) (ha : m.advances = true) :
    (∃ p' j, p.accept m = (true, p') ∧ Matched text m k j p p') ∨
    (∃ p', p.accept m = (false, p') ∧ Peg (endless text) m k none ∧ Passed text k p p') := by
  obtain ⟨⟨released, hk, hf⟩, hpoised⟩ := h
  have hpeg := (Matcher.run_agrees (Matcher.productive_of_advances ha) hf).peg
  have hfollows := Matcher.follows_run hf m
  have hposition : p.stream.position = 0 := List.length_eq_zero_iff.mpr hpoised.consumed
  rw [hposition, Nat.add_zero, hk] at hpeg
  rcases accept_cases ht hpoised with ⟨p', pos', lead, rest, hacc, ha⟩ | ⟨p', lead, hacc, hr⟩
  · obtain ⟨s, hrun, hstream, htaken⟩ := ha.run
    obtain ⟨hevents, hstack, _⟩ := ha.kept
    rw [hrun] at hpeg hfollows
    rw [Matcher.result, if_pos rfl] at hpeg
    have hreleased : Session.Follows text ⟨p'.stream, released ++ s.taken⟩ := by
      rw [hstream]
      exact hfollows.perform .release
    have hlength : (released ++ s.taken).length = released.length + s.position := by
      rw [List.length_append, Token.Stream.taken_length]
    obtain ⟨hcoming, hpos⟩ := of_poised hreleased hlength ha.poised
    have hn (hlt : k < released.length + s.position) : lead ++ rest ≠ [] := by
      intro hn
      have hnone : s.taken.length = 0 := by
        rw [htaken, List.length_append, List.length_map, ← List.length_append, hn]
        rfl
      rw [Token.Stream.taken_length] at hnone
      omega
    refine .inl ⟨p', released.length + s.position, hacc, hpeg, hcoming, hevents, hstack,
      fun hlt => (ha.moved (hn hlt)).1, fun hlt => ?_⟩
    rw [← hpos]
    exact (ha.moved (hn hlt)).2.2
  · obtain ⟨s, _, hp'⟩ := hr.missed
    obtain ⟨hevents, hstack, _⟩ := hr.kept
    have hmiss : (m.run p.stream).1 = false := by
      rw [Parser.accept] at hacc
      split at hacc
      · cases hacc
      · rename_i hrun
        rw [hrun]
    have hstream : p'.stream = (m.run p.stream).2 := by
      rw [Parser.accept] at hacc
      split at hacc
      · cases hacc
      · rename_i hrun
        rw [← (Prod.mk.inj hacc).2, hrun]
    rw [Matcher.result, if_neg (by simp [hmiss])] at hpeg
    refine .inr ⟨p', hacc, hpeg, ⟨⟨released, hk, ?_⟩, hr.poised⟩, hevents, hstack⟩
    rw [hstream]
    exact hfollows

/-- Where nothing is discarded the match covers its first token. -/
theorem accept_first (h : Coming text k p) (hc : Clean p.stream) (hp : m.plain = true)
    (ho : m.only (· != .whitespace) = true) (ht : m.takes (fun _ => true) = true)
    (hacc : p.accept m = (true, p')) : p'.mark.start = (endless text k).start := by
  obtain ⟨new, hr, _, hsome⟩ := Matcher.run_outcome hp ho p.stream
  rcases hrun : m.run p.stream with ⟨ok, s⟩
  rw [Parser.accept, hrun] at hacc
  rw [hrun] at hr hsome
  cases ok with
  | false => cases hacc
  | true =>
    obtain rfl := (Prod.mk.inj hacc).2
    obtain ⟨t, hm, _⟩ := hsome _ ht rfl
    obtain ⟨first, rest, rfl⟩ := List.exists_cons_of_ne_nil (List.ne_nil_of_mem hm)
    obtain ⟨n, hn⟩ := hr.ahead_eq
    have hstart : first.start = (endless text k).start := (h.poised.more hn).1.1
    have hkept : first.discarded = false := by
      rw [Bool.eq_false_iff]
      intro hd
      have hblank : first.kind = .whitespace := by
        have hm : first ∈ ahead p.stream ++ List.replicate n (Token.ending p.stream.stop) := by
          rw [← hn]
          exact List.mem_cons_self
        rcases List.mem_append.mp hm with hm | hm
        · exact hc first hm hd
        · rw [List.eq_of_mem_replicate hm] at hd
          cases hd
      have hkind := hr.kinds first List.mem_cons_self
      simp [hblank] at hkind
    have htaken : s.taken = first :: rest := by
      rw [Token.Stream.taken, hr.consumed, h.poised.consumed]
      simp
    have hshown : (first :: rest).dropWhile Token.discarded = first :: rest :=
      List.dropWhile_cons_of_neg (by simp [hkept])
    have hlast := List.getLast?_eq_some_getLast (List.cons_ne_nil first rest)
    rw [← hstart]
    simp [htaken, Mark.cover, hshown, hlast]

/-- A loose token is the next one. -/
theorem takeLoose (h : Coming text k p) (frame : Frame) :
    Coming text (k + 1) (p.takeLoose frame) ∧ (p.takeLoose frame).stack = p.stack ∧
      ∃ token : Token, token.unmarked = endless text k ∧
        (p.takeLoose frame).events = .loose token frame :: p.events := by
  obtain ⟨⟨released, hk, hf⟩, hpoised⟩ := h
  have hfetch : p.stream.fetch.1.unmarked = endless text (released.length + p.stream.position) :=
    hf.fetch
  have hposition : p.stream.position = 0 := List.length_eq_zero_iff.mpr hpoised.consumed
  rw [hposition, Nat.add_zero, hk] at hfetch
  have hreleased : Session.Follows text
      ⟨(p.takeLoose frame).stream, released ++ p.stream.fetch.2.taken⟩ :=
    (hf.perform .fetch).perform .release
  have hlength : (released ++ p.stream.fetch.2.taken).length = k + 1 := by
    rw [List.length_append, Token.Stream.taken_length, Token.Stream.fetch_position, hposition, hk]
  exact ⟨(of_poised hreleased hlength hpoised.fetch.2.1).1, rfl, _, hfetch, rfl⟩

end Coming

theorem Passed.again (h : Passed text k p p') (acs : Bool) :
    Passed text k p { p' with atContentStart := acs } :=
  ⟨h.coming.of_stream rfl, h.events, h.stack⟩

theorem Passed.trans (h : Passed text k p p') (h' : Passed text k p' p'') :
    Passed text k p p'' :=
  ⟨h'.coming, h'.events.trans h.events, h'.stack.trans h.stack⟩

theorem Passed.matched (h : Passed text k p p') (h' : Matched text m k j p' p'') :
    Matched text m k j p p'' :=
  ⟨h'.reads, h'.coming, h'.events.trans h.events, h'.stack.trans h.stack, h'.begins, h'.mark⟩

theorem Passed.top (h : Passed text k p p') : p'.top = p.top := by
  simp only [Parser.top, h.stack]

theorem Matched.top (h : Matched text m k j p p') : p'.top = p.top := by
  simp only [Parser.top, h.stack]

/-- What comes after the actions of a rule, from token `k` on: one of the continuations, or none of
those that may be tried. -/
inductive Resumed (text : Text) (rule : Rule) (k : Nat) (p p' : Parser) : Nat → Prop
  | onward (next : Continuation) (listed : next ∈ rule.continuations) (p₁ : Parser)
      (matched : Matched text next.pattern k j p p₁) (result : p' = p₁.perform next.actions)
      (outside : next.outsideCode = true → p.top.kind.holdsCode = false) :
      Resumed text rule k p p' j
  | otherwise (missed : ∀ next ∈ rule.continuations, next.outsideCode = false →
        Peg (endless text) next.pattern k none) (p₁ : Parser) (passed : Passed text k p p₁)
      (result : p' = p₁.perform rule.otherwise) : Resumed text rule k p p' k

/-- A round from token `k` on. -/
inductive Turn (text : Text) (k : Nat) (p p' : Parser) : Nat → Prop
  | line (kind : p.top.kind.endsWithLine = true) (p₁ : Parser)
      (matched : Matched text (.kind .lineEnd) k j p p₁) (acs : Bool)
      (result : p' = { p₁.pop with atContentStart := acs }) : Turn text k p p' j
  | short (acs : Bool) (rule : Rule) (listed : rule ∈ Rule.within p.top.kind acs)
      (matched : Matched text rule.pattern k j p p') (long : 0 < rule.minLength) :
      Turn text k p p' j
  | rule (acs : Bool) (n : Nat) (rule : Rule)
      (listed : (Rule.within p.top.kind acs)[n]? = some rule)
      (missed : ∀ r ∈ (Rule.within p.top.kind acs).take n, Peg (endless text) r.pattern k none)
      (p₁ : Parser) (matched : Matched text rule.pattern k j p p₁)
      (resumed : Resumed text rule j (p₁.perform rule.actions) p' l)
      (first : Clean p.stream →
        (∀ r ∈ (Rule.within p.top.kind acs).take n, r.pattern.plain = true) →
        rule.isShown = true → p₁.mark.start = (endless text k).start) : Turn text k p p' l
  | loose (acs : Bool)
      (missed : ∀ r ∈ Rule.within p.top.kind acs, Peg (endless text) r.pattern k none)
      (token : Token) (same : token.unmarked = endless text k)
      (events : p'.events = .loose token p.top :: p.events) (stack : p'.stack = p.stack) :
      Turn text k p p' (k + 1)

theorem proceed_resumed {nexts : List Continuation} (hl : ∀ next ∈ nexts,
      next ∈ rule.continuations ∧ next.pattern.tidy = true ∧ next.pattern.advances = true)
    (hmissed : ∀ next ∈ rule.continuations, next ∉ nexts → next.outsideCode = false →
      Peg (endless text) next.pattern k none)
    (hp : Passed text k p p') :
    ∃ j, Resumed text rule k p (p'.proceed rule.otherwise nexts) j ∧
      Coming text j (p'.proceed rule.otherwise nexts) := by
  induction nexts generalizing p' with
  | nil =>
    exact ⟨k, .otherwise (fun next hn => hmissed next hn (by simp)) p' hp rfl,
      hp.coming.perform rule.otherwise⟩
  | cons next rest ih =>
    obtain ⟨⟨hlisted, htidy, hadvances⟩, hrest⟩ := List.forall_mem_cons.mp hl
    have hother (hnext : next.outsideCode = false → Peg (endless text) next.pattern k none) :
        ∀ other ∈ rule.continuations, other ∉ rest → other.outsideCode = false →
          Peg (endless text) other.pattern k none := by
      intro other ho hn hout
      by_cases heq : other = next
      · exact heq ▸ hnext (heq ▸ hout)
      · exact hmissed other ho (by simp [heq, hn]) hout
    simp only [proceed]
    split
    · rename_i hskip
      refine ih hrest (hother fun hout => ?_) hp
      simp [hout] at hskip
    · rename_i hskip
      rcases hp.coming.accept htidy hadvances with ⟨p₁, j, hacc, hm⟩ | ⟨p₁, hacc, hpeg, hpassed⟩
      · rw [hacc]
        refine ⟨j, .onward next hlisted p₁ (hp.matched hm) rfl fun hout => ?_,
          hm.coming.perform next.actions⟩
        simpa [hout, hp.top] using hskip
      · rw [hacc]
        exact ih hrest (hother fun _ => hpeg) (hp.trans hpassed)

/-- The first of the rules whose pattern can be read here is followed. -/
theorem tryRules_turn (hl : ∀ rule ∈ rules, rule.isLegible = true) (hp : Passed text k p p') :
    (∃ n rule p₁ j, rules[n]? = some rule ∧
      (∀ r ∈ rules.take n, Peg (endless text) r.pattern k none) ∧
      Matched text rule.pattern k j p p₁ ∧ p'.tryRules rules = (true, p₁.follow rule) ∧
      (Clean p'.stream → (∀ r ∈ rules.take n, r.pattern.plain = true) → rule.isShown = true →
        p₁.mark.start = (endless text k).start)) ∨
    (∃ p₁, p'.tryRules rules = (false, p₁) ∧ Passed text k p p₁ ∧
      ∀ r ∈ rules, Peg (endless text) r.pattern k none) := by
  induction rules generalizing p' with
  | nil => exact .inr ⟨p', rfl, hp, by simp⟩
  | cons rule rules ih =>
    obtain ⟨hrule, hrules⟩ := List.forall_mem_cons.mp hl
    simp only [Rule.isLegible, Bool.and_eq_true] at hrule
    simp only [tryRules]
    rcases hp.coming.accept hrule.1.1 hrule.1.2 with ⟨p₁, j, hacc, hm⟩ | ⟨p₁, hacc, hpeg, hpassed⟩
    · rw [hacc]
      refine .inl ⟨0, rule, p₁, j, rfl, by simp, hp.matched hm, rfl, fun hclean _ hshown => ?_⟩
      simp only [Rule.isShown, Bool.and_eq_true] at hshown
      exact hp.coming.accept_first hclean hshown.1.1 hshown.1.2 hshown.2 hacc
    · rw [hacc]
      rcases ih hrules (hp.trans hpassed) with
        ⟨n, r, p₂, j, hn, hmissed, hm, heq, hfirst⟩ | ⟨p₂, heq, hpassed, hmissed⟩
      · refine .inl ⟨n + 1, r, p₂, j, hn, ?_, hm, heq, fun hclean hplain hshown => ?_⟩
        · rw [List.take_succ_cons]
          exact List.forall_mem_cons.mpr ⟨hpeg, hmissed⟩
        · rw [List.take_succ_cons, List.forall_mem_cons] at hplain
          exact hfirst (accept_clean hclean hplain.1 hacc) hplain.2 hshown
      · exact .inr ⟨p₂, heq, hpassed, List.forall_mem_cons.mpr ⟨hpeg, hmissed⟩⟩

/-- What a rule does once its pattern has matched. -/
theorem follow_turn (hn : (Rule.within p.top.kind acs)[n]? = some rule)
    (hmissed : ∀ r ∈ (Rule.within p.top.kind acs).take n, Peg (endless text) r.pattern k none)
    (hm : Matched text rule.pattern k j p p')
    (hf : Clean p.stream → (∀ r ∈ (Rule.within p.top.kind acs).take n, r.pattern.plain = true) →
      rule.isShown = true → p'.mark.start = (endless text k).start) :
    ∃ l, Turn text k p (p'.follow rule) l ∧ Coming text l (p'.follow rule) := by
  have hmem := List.mem_of_getElem? hn
  simp only [follow]
  split
  · rename_i hshort
    exact ⟨j, .short acs rule hmem hm (by omega), hm.coming⟩
  · have hlegible := Rule.within_legible _ _ rule hmem
    simp only [Rule.isLegible, Bool.and_eq_true, List.all_eq_true] at hlegible
    have hnexts : ∀ next ∈ rule.continuations,
        next ∈ rule.continuations ∧ next.pattern.tidy = true ∧ next.pattern.advances = true :=
      fun next hnext => ⟨hnext, hlegible.2 next hnext⟩
    obtain ⟨l, hresumed, hcoming⟩ := proceed_resumed hnexts (fun _ h hno => absurd h hno)
      (hm.coming.perform rule.actions).passed
    exact ⟨l, .rule acs n rule hn hmissed p' hm hresumed hf, hcoming⟩

/-- The second half of a round, once the innermost construct has not ended with the line. -/
theorem attempt_turn (hp : Passed text k p p') (hc : Clean p.stream → Clean p'.stream)
    (acs : Bool) :
    ∃ ok p₁, p'.tryRules (Rule.within p.top.kind acs) = (ok, p₁) ∧
      ∃ l, Turn text k p (if ok then p₁ else p₁.takeLoose p.top) l ∧
        Coming text l (if ok then p₁ else p₁.takeLoose p.top) := by
  rcases tryRules_turn (Rule.within_legible p.top.kind acs) hp with
    ⟨n, rule, p₁, j, hn, hmissed, hm, heq, hfirst⟩ | ⟨p₁, heq, hpassed, hmissed⟩
  · exact ⟨true, _, heq, follow_turn hn hmissed hm fun hclean => hfirst (hc hclean)⟩
  · obtain ⟨hcoming, hstack, token, hsame, hevents⟩ := hpassed.coming.takeLoose p.top
    rw [hpassed.events] at hevents
    exact ⟨false, p₁, heq, k + 1,
      .loose acs hmissed token hsame hevents (hstack.trans hpassed.stack), hcoming⟩

theorem step_turn (h : Coming text k p) : ∃ l, Turn text k p p.step l ∧ Coming text l p.step := by
  by_cases hk : p.top.kind.endsWithLine = true
  · rcases h.accept (m := .kind .lineEnd) rfl rfl with ⟨p₁, j, hacc, hm⟩ | ⟨p₁, hacc, _, hpassed⟩
    · have hstep : p.step = { p₁.pop with
          atContentStart := p₁.pop.atContentStart || p₁.pop.top.kind.holdsContent } := by
        simp only [step, hk, hacc, ↓reduceIte]
      rw [hstep]
      refine ⟨j, .line hk p₁ hm _ rfl, hm.coming.of_stream ?_⟩
      exact pop_stream p₁
    · have hclean (hclean : Clean p.stream) : Clean p₁.stream := accept_clean hclean rfl hacc
      obtain ⟨ok, p₂, hrules, hturn⟩ := attempt_turn
        (hpassed.again (p₁.atContentStart && !p.top.kind.holdsContent)) hclean p₁.atContentStart
      cases ok <;> simpa only [step, hk, hacc, hrules, ↓reduceIte, Bool.false_eq_true] using hturn
  · obtain ⟨ok, p₂, hrules, hturn⟩ := attempt_turn
      (h.passed.again (p.atContentStart && !p.top.kind.holdsContent)) id p.atContentStart
    cases ok <;> simpa only [step, hk, hrules, ↓reduceIte, Bool.false_eq_true] using hturn

theorem Resumed.le (h : Resumed text rule k p p' j) : k ≤ j := by
  cases h with
  | onward next _ p₁ hm _ _ => exact hm.reads.le
  | otherwise => exact Nat.le_refl k

theorem Turn.le (h : Turn text k p p' j) : k ≤ j := by
  cases h with
  | line _ _ hm | short _ _ _ hm => exact hm.reads.le
  | rule _ _ _ _ _ _ hm hr => exact Nat.le_trans hm.reads.le hr.le
  | loose => exact Nat.le_succ k

theorem pop_events (p : Parser) : p.events <:+ p.pop.events := by
  unfold Parser.pop
  split
  · exact List.suffix_cons _ _
  · exact List.suffix_rfl

theorem act_events (p : Parser) (action : Action) : p.events <:+ (p.act action).events := by
  cases action with
  | push | instant => exact List.suffix_cons _ _
  | pop => exact pop_events p
  | startContent => exact List.suffix_rfl
  | popMath =>
    exact popMath_induction (fun q (hq : p.events <:+ q.events) => hq.trans (pop_events q))
      List.suffix_rfl

theorem perform_events (p : Parser) (actions : List Action) :
    p.events <:+ (p.perform actions).events :=
  perform_induction (P := fun q => p.events <:+ q.events)
    (fun action _ q hq => hq.trans (act_events q action)) List.suffix_rfl

theorem Resumed.events (h : Resumed text rule k p p' j) : p.events <:+ p'.events := by
  cases h with
  | onward next _ p₁ hm result =>
    rw [result, ← hm.events]
    exact perform_events p₁ next.actions
  | otherwise _ p₁ hp result =>
    rw [result, ← hp.events]
    exact perform_events p₁ rule.otherwise

/-- What was reported stays reported. -/
theorem Turn.suffix (h : Turn text k p p' j) : p.events <:+ p'.events := by
  cases h with
  | line _ p₁ hm acs result =>
    rw [result, ← hm.events]
    exact pop_events p₁
  | short _ _ _ hm => rw [hm.events]
  | rule _ _ rule _ _ p₁ hm hr =>
    rw [← hm.events]
    exact (perform_events p₁ rule.actions).trans hr.events
  | loose _ _ _ _ events =>
    rw [events]
    exact List.suffix_cons _ _

end Parser

end LineMarkup
