import LineMarkup.Proofs.Matcher.Keyword
import LineMarkup.Proofs.Matcher.Passing
import LineMarkup.Proofs.Parser.Abreast
import LineMarkup.Proofs.Parser.Bracketing

namespace LineMarkup

open Matcher (Peg fullWord textBetween)
open Token (Session endless)

/-- What an event tells apart from where its construct began. What lapses may have ended anywhere
before the next token, and tells nothing. -/
def Event.gist : Event → Option Event
  | .push _ _ => none
  | .pop frame stop _ =>
    if frame.kind.lapses then none else some (.pop { kind := frame.kind, start := 0 } stop false)
  | .instant frame stop => some (.instant { kind := frame.kind, start := 0 } stop)
  | .loose token frame => some (.loose token.unmarked { kind := frame.kind, start := 0 })

namespace Matcher

/-- A word is read, and perhaps what comes behind it is looked at. -/
def isWord : Matcher → Bool
  | .many1 (.kind .word) | .seq (.many1 (.kind .word)) (.look _) => true
  | _ => false

variable {input : Nat → Token} {m : Matcher} {i j : Nat}

theorem Peg.words (h : Peg input m i (some j)) (hm : m.isWord = true) :
    i < j ∧ ∀ n, i ≤ n → n < j → (input n).kind = .word := by
  unfold isWord at hm
  split at hm
  · obtain ⟨hlt, hwords, _⟩ := fullWord_taken h
    exact ⟨hlt, hwords⟩
  · cases h with
    | seq h hlook =>
      obtain ⟨hlt, hwords, _⟩ := fullWord_taken h
      cases hlook
      exact ⟨hlt, hwords⟩
  · cases hm

end Matcher

open Matcher (Shared)

namespace Rule

/-- No rule leaves a word discarded, and the length of nothing but a word counts. -/
def isEven (rule : Rule) : Bool :=
  rule.pattern.sparesWords && (rule.minLength == 0 || rule.pattern.isWord && rule.pattern.plain) &&
    rule.continuations.all (·.pattern.plain)

theorem within_even (inside : Construct) (atContentStart : Bool) :
    ∀ rule ∈ within inside atContentStart, rule.isEven = true := by
  apply List.all_eq_true.mp
  cases inside <;> cases atContentStart <;> decide

end Rule

namespace Parser

variable {text text' : Text} {m : Matcher} {p p' q q' : Parser} {j k l limit : Nat} {rule : Rule}
  {rules : List Rule}

/-- The length of a match of words is that of their texts. -/
theorem Coming.accept_chars (h : Coming text k p) (hs : Token.Stream.Spared p.stream)
    (hp : m.plain = true) (ha : m.advances = true) (hm : m.isWord = true)
    (hr : Peg (endless text) m k (some j)) (hacc : p.accept m = (true, p')) :
    p'.mark.chars = (textBetween (endless text) k j).length := by
  obtain ⟨hlt, hwords⟩ := hr.words hm
  obtain ⟨⟨released, rfl, hf⟩, hpoised⟩ := h
  obtain ⟨new, hreads, _⟩ := Matcher.run_outcome hp (Matcher.only_all m) p.stream
  have hpeg := (Matcher.run_agrees (Matcher.productive_of_advances ha) hf).peg
  have hfollows := Matcher.follows_run hf m
  have hposition : p.stream.position = 0 := List.length_eq_zero_iff.mpr hpoised.consumed
  rcases hrun : m.run p.stream with ⟨ok, s⟩
  rw [Parser.accept, hrun] at hacc
  rw [hrun] at hreads hpeg hfollows
  cases ok with
  | false => cases hacc
  | true =>
    obtain rfl := (Prod.mk.inj hacc).2
    rw [hposition, Nat.add_zero, Matcher.result, if_pos rfl] at hpeg
    obtain rfl := Option.some.inj (hpeg.unique hr)
    have htaken : s.taken = new := by
      have hconsumed := hreads.consumed
      rw [hpoised.consumed, List.append_nil] at hconsumed
      rw [Token.Stream.taken, hconsumed, List.reverse_reverse]
    have hunmarked : s.taken.map Token.unmarked =
        (List.range' released.length s.position).map (endless text) := hfollows.taken
    have hspared := (Matcher.spared_of_reads hreads hs).1
    have hkept : ∀ t ∈ s.taken, t.discarded = false := by
      intro t ht
      refine hspared t (htaken ▸ ht) ?_
      have hm := List.mem_map_of_mem (f := Token.unmarked) ht
      rw [hunmarked] at hm
      obtain ⟨n, hn, heq⟩ := List.mem_map.mp hm
      obtain ⟨hlow, hhigh⟩ := List.mem_range'_1.mp hn
      have hword := hwords n hlow hhigh
      rw [heq] at hword
      exact hword
    have hsome : s.taken ≠ [] := by
      intro hnil
      have hlength : s.taken.length = s.position := Token.Stream.taken_length s
      rw [hnil, List.length_nil] at hlength
      simp [← hlength] at hlt
    rw [cover_chars _ hsome hkept, ← Session.unmarked_text, hunmarked, textBetween,
      List.flatMap_map, Nat.add_sub_cancel_left]

theorem accept_spared (hs : m.sparesWords = true) (hc : p.stream.consumed = [])
    (h : Token.Stream.Spared p.stream) : Token.Stream.Spared (p.accept m).2.stream := by
  have hspared := Matcher.run_spared hs hc h
  unfold Parser.accept
  split <;> rename_i hrun <;> rw [hrun] at hspared <;> exact hspared

theorem fetch_spared {s : Token.Stream} (h : Token.Stream.Spared s) :
    Token.Stream.Spared s.fetch.2.release := by
  obtain ⟨n, hn⟩ := Token.Stream.Reads.fetch_ahead s
  intro t ht hk
  have hall : t ∈ Token.Stream.ahead s ++ List.replicate n (Token.ending s.stop) :=
    hn ▸ List.mem_cons_of_mem _ ht
  rcases List.mem_append.mp hall with ht | ht
  · exact h t ht hk
  · rw [List.eq_of_mem_replicate ht] at hk
    cases hk

theorem accept_mark (hacc : p.accept m = (false, p')) : p.mark = p'.mark := by
  unfold Parser.accept at hacc
  split at hacc
  · cases hacc
  · rw [← (Prod.mk.inj hacc).2]

/-- The same constructs are open, and all that was reported tells the same. -/
structure Telling (p q : Parser) : Prop where
  peers : Peers p q
  gists : p.events.filterMap Event.gist = q.events.filterMap Event.gist

namespace Telling

theorem pop (h : Telling p q) (hm : p.top.kind.lapses = false → p.mark.stop = q.mark.stop) :
    Telling p.pop q.pop := by
  refine ⟨h.peers.pop, ?_⟩
  have hkinds := h.peers.kinds
  unfold Parser.kinds at hkinds
  have htop := h.peers.top
  rcases hp : p.stack with _ | ⟨frame, _ | ⟨below, rest⟩⟩ <;>
    rcases hq : q.stack with _ | ⟨frame', _ | ⟨below', rest'⟩⟩ <;> rw [hp, hq] at hkinds <;>
    simp only [List.map_cons, List.map_nil, List.cons.injEq, reduceCtorEq,
      and_false] at hkinds
  · simpa [Parser.pop, hp, hq] using h.gists
  · simpa [Parser.pop, hp, hq] using h.gists
  · have hframe : p.top = frame := by simp [top, hp]
    rw [hframe] at hm
    have hgist : Event.gist (.pop frame p.mark.stop false) =
        Event.gist (.pop frame' q.mark.stop false) := by
      simp only [Event.gist, hkinds.1]
      split
      · rfl
      · rename_i hlapses
        rw [hm (by simpa [hkinds.1] using hlapses)]
    simp only [Parser.pop, hp, hq, report, List.filterMap_cons, hgist, h.gists]

variable (hm : p.mark.stop = q.mark.stop)

include hm

theorem popWhile (h : Telling p q) (kind : Construct) (fuel : Nat) :
    Telling (popWhile kind fuel p) (popWhile kind fuel q) ∧
      (Parser.popWhile kind fuel p).mark.stop = (Parser.popWhile kind fuel q).mark.stop := by
  induction fuel generalizing p q with
  | zero => exact ⟨h, hm⟩
  | succ fuel ih =>
    simp only [Parser.popWhile, h.peers.top]
    split
    · refine ih ?_ (h.pop fun _ => hm)
      rwa [pop_mark, pop_mark]
    · exact ⟨h, hm⟩

theorem act (h : Telling p q) (action : Action) : Telling (p.act action) (q.act action) := by
  refine ⟨h.peers.act action, ?_⟩
  cases action with
  | push | startContent => exact h.gists
  | pop => exact (h.pop fun _ => hm).gists
  | instant kind =>
    simp only [Parser.act, instant, report, List.filterMap_cons, Event.gist, hm, h.gists]
  | popMath =>
    have hlength : p.stack.length = q.stack.length := by
      simpa [Parser.kinds] using congrArg List.length h.peers.kinds
    obtain ⟨hinner, hmark⟩ := h.popWhile hm .mathArguments q.stack.length
    simp only [Parser.act, popMath, hlength, hinner.peers.top]
    split
    · exact (hinner.pop fun _ => hmark).gists
    · exact hinner.gists

theorem perform (h : Telling p q) (actions : List Action) :
    Telling (p.perform actions) (q.perform actions) := by
  induction actions generalizing p q with
  | nil => exact h
  | cons action actions ih =>
    refine ih ?_ (h.act hm action)
    rwa [act_mark, act_mark]

end Telling

/-- Two parsers of texts with the same tokens before `k` that have done the same. -/
structure Beside (text text' : Text) (k : Nat) (p q : Parser) : Prop extends Telling p q where
  near : Coming text k p
  far : Coming text' k q
  spared : Token.Stream.Spared p.stream
  spared' : Token.Stream.Spared q.stream

/-- Both parsers have taken the same tokens with a pattern. -/
structure Joint (text text' : Text) (m : Matcher) (k j : Nat) (p q p' q' : Parser) : Prop where
  matched : Matched text m k j p p'
  matched' : Matched text' m k j q q'
  beside : Beside text text' j p' q'
  stops : k < j → p'.mark.stop = q'.mark.stop
  chars : m.isWord = true → m.plain = true → p'.mark.chars = q'.mark.chars

namespace Beside

theorem perform (h : Beside text text' k p q) (hm : p.mark.stop = q.mark.stop)
    (actions : List Action) : Beside text text' k (p.perform actions) (q.perform actions) := by
  refine ⟨h.toTelling.perform hm actions, h.near.perform actions, h.far.perform actions, ?_, ?_⟩
  · rw [perform_stream]
    exact h.spared
  · rw [perform_stream]
    exact h.spared'

theorem again (h : Beside text text' k p q) (acs : Bool) : Beside text text' k
    { p with atContentStart := acs } { q with atContentStart := acs } :=
  ⟨⟨⟨h.peers.kinds, rfl⟩, h.gists⟩, h.near.of_stream rfl, h.far.of_stream rfl, h.spared,
    h.spared'⟩

variable (hsame : ∀ j < limit, endless text' j = endless text j)

include hsame

theorem textBetween_same (h : j ≤ limit) :
    textBetween (endless text') k j = textBetween (endless text) k j :=
  Matcher.textBetween_congr fun n hn => hsame n (Nat.lt_of_lt_of_le hn h)

variable (hpos : 0 < limit)

include hpos

theorem starts (h : j ≤ limit) : (endless text j).start = (endless text' j).start := by
  rcases Nat.lt_or_eq_of_le h with hlt | rfl
  · rw [hsame j hlt]
  · obtain ⟨j, rfl⟩ := Nat.exists_eq_succ_of_ne_zero (Nat.ne_of_gt hpos)
    rw [← Token.endless_stop, ← Token.endless_stop, hsame j (Nat.lt_succ_self j)]

/-- A pattern that is read alike matches in both parsers or in none. -/
theorem accept (h : Beside text text' k p q)
    (hl : Shared (endless text) (endless text') limit m k) (ht : m.tidy = true)
    (ha : m.advances = true) (hs : m.sparesWords = true) :
    (∃ p' q' j, j ≤ limit ∧ p.accept m = (true, p') ∧ q.accept m = (true, q') ∧
      Joint text text' m k j p q p' q') ∨
    (∃ p' q', p.accept m = (false, p') ∧ q.accept m = (false, q') ∧
      Passed text k p p' ∧ Passed text' k q q' ∧ Beside text text' k p' q') := by
  have hpeers := h.peers.accept m m
  have hspared := accept_spared hs h.near.poised.consumed h.spared
  have hspared' := accept_spared hs h.far.poised.consumed h.spared'
  rcases h.near.accept ht ha with ⟨p', j, hacc, hmatched⟩ | ⟨p', hacc, hmiss, hpassed⟩ <;>
    rcases h.far.accept ht ha with ⟨q', j', hacc', hmatched'⟩ | ⟨q', hacc', hmiss', hpassed'⟩ <;>
    rw [hacc, hacc'] at hpeers <;> rw [hacc] at hspared <;> rw [hacc'] at hspared'
  · obtain ⟨hreads, hle⟩ := hl _ hmatched.reads
    obtain rfl := Option.some.inj (hreads.unique hmatched'.reads)
    have hj := hle j rfl
    refine .inl ⟨p', q', j, hj, hacc, hacc', hmatched, hmatched', ⟨⟨hpeers, ?_⟩, hmatched.coming,
      hmatched'.coming, hspared, hspared'⟩, fun hlt => ?_, fun hm hp => ?_⟩
    · rw [hmatched.events, hmatched'.events, h.gists]
    · rw [hmatched.mark hlt, hmatched'.mark hlt, starts hsame hpos hj]
    · rw [h.near.accept_chars h.spared hp ha hm hmatched.reads hacc,
        h.far.accept_chars h.spared' hp ha hm hmatched'.reads hacc', textBetween_same hsame hj]
  · cases (hl _ hmatched.reads).1.unique hmiss'
  · cases (hl _ hmiss).1.unique hmatched'.reads
  · refine .inr ⟨p', q', hacc, hacc', hpassed, hpassed', ⟨hpeers, ?_⟩, hpassed.coming,
      hpassed'.coming, hspared, hspared'⟩
    rw [hpassed.events, hpassed'.events, h.gists]

theorem proceed (h : Beside text text' k p q) (hk : k ≤ limit) (hm : p.mark.stop = q.mark.stop)
    {nexts : List Continuation}
    (hn : ∀ next ∈ nexts, next.pattern.tidy = true ∧ next.pattern.advances = true ∧
      next.pattern.plain = true ∧ next.pattern.takes (fun _ => true) = true)
    (hl : ∀ next ∈ nexts, (next.outsideCode = true → p.top.kind.holdsCode = false) →
      Shared (endless text) (endless text') limit next.pattern k) (otherwise : List Action) :
    ∃ l ≤ limit, Beside text text' l (p.proceed otherwise nexts) (q.proceed otherwise nexts) := by
  induction nexts generalizing p q with
  | nil => exact ⟨k, hk, h.perform hm otherwise⟩
  | cons next rest ih =>
    obtain ⟨⟨htidy, hadvances, hplain, htakes⟩, hrest⟩ := List.forall_mem_cons.mp hn
    obtain ⟨hlevel, hlevels⟩ := List.forall_mem_cons.mp hl
    simp only [Parser.proceed, ← h.peers.top]
    split
    · exact ih h hm hrest hlevels
    · rename_i hskip
      have hlevel := hlevel fun hout => by simpa [hout] using hskip
      rcases accept hsame hpos h hlevel htidy hadvances (Matcher.sparesWords_of_plain hplain) with
        ⟨p', q', l, hle, hacc, hacc', hjoint⟩ | ⟨p', q', hacc, hacc', hpassed, _, hbeside⟩
      · rw [hacc, hacc']
        obtain ⟨n, hlow, hhigh, _⟩ := hjoint.matched.reads.takes htakes
        have hlt : k < l := Nat.lt_of_le_of_lt hlow hhigh
        exact ⟨l, hle, hjoint.beside.perform (hjoint.stops hlt) next.actions⟩
      · rw [hacc, hacc']
        have hmark : p'.mark.stop = q'.mark.stop := by
          rw [← accept_mark hacc, ← accept_mark hacc', hm]
        exact ih hbeside hmark hrest fun next hnext hout => hlevels next hnext (hpassed.top ▸ hout)

theorem tryRules (h : Beside text text' k p q)
    (hr : ∀ rule ∈ rules, rule.isLegible = true ∧ rule.isEven = true)
    (hl : ∀ rule ∈ rules, Shared (endless text) (endless text') limit rule.pattern k) :
    (∃ rule ∈ rules, ∃ p' q' j, j ≤ limit ∧ p.tryRules rules = (true, p'.follow rule) ∧
      q.tryRules rules = (true, q'.follow rule) ∧
      Joint text text' rule.pattern k j p q p' q') ∨
    (∃ p' q', p.tryRules rules = (false, p') ∧ q.tryRules rules = (false, q') ∧
      Passed text k p p' ∧ Passed text' k q q' ∧ Beside text text' k p' q') := by
  induction rules generalizing p q with
  | nil => exact .inr ⟨p, q, rfl, rfl, h.near.passed, h.far.passed, h⟩
  | cons rule rest ih =>
    obtain ⟨⟨hlegible, heven⟩, hrest⟩ := List.forall_mem_cons.mp hr
    obtain ⟨hlevel, hlevels⟩ := List.forall_mem_cons.mp hl
    simp only [Rule.isLegible, Rule.isEven, Bool.and_eq_true] at hlegible heven
    simp only [Parser.tryRules]
    rcases accept hsame hpos h hlevel hlegible.1.1 hlegible.1.2 heven.1.1 with
      ⟨p', q', j, hj, hacc, hacc', hjoint⟩ | ⟨p', q', hacc, hacc', hpassed, hpassed', hbeside⟩
    · rw [hacc, hacc']
      exact .inl ⟨rule, List.mem_cons_self, p', q', j, hj, rfl, rfl, hjoint⟩
    · rw [hacc, hacc']
      rcases ih hbeside hrest hlevels with
        ⟨r, hm, p'', q'', j, hj, htry, htry', hjoint⟩ |
          ⟨p'', q'', htry, htry', hpassed'', hpassed''', hbeside⟩
      · refine .inl ⟨r, List.mem_cons_of_mem _ hm, p'', q'', j, hj, htry, htry',
          hpassed.matched hjoint.matched, hpassed'.matched hjoint.matched', hjoint.beside,
          hjoint.stops, hjoint.chars⟩
      · exact .inr ⟨p'', q'', htry, htry', hpassed.trans hpassed'', hpassed'.trans hpassed''',
          hbeside⟩

omit hpos in
theorem takeLoose (h : Beside text text' k p q) (hk : k < limit) {frame frame' : Frame}
    (hf : frame.kind = frame'.kind) :
    Beside text text' (k + 1) (p.takeLoose frame) (q.takeLoose frame') := by
  obtain ⟨hnear, hstack, token, hsame', hevents⟩ := h.near.takeLoose frame
  obtain ⟨hfar, hstack', token', hsame'', hevents'⟩ := h.far.takeLoose frame'
  have htoken : token.unmarked = token'.unmarked := by rw [hsame', hsame'', hsame k hk]
  refine ⟨⟨⟨?_, h.peers.again⟩, ?_⟩, hnear, hfar, fetch_spared h.spared, fetch_spared h.spared'⟩
  · simp only [Parser.kinds, hstack, hstack']
    exact h.peers.kinds
  · rw [hevents, hevents', List.filterMap_cons, List.filterMap_cons, h.gists]
    simp only [Event.gist, htoken, hf]

end Beside

/-- How two parsers come apart that have done the same up to token `k`. They have come to the first
token that differs, or some pattern is not read alike: that of a rule, or that of a continuation
after the same match. -/
inductive Parting (text text' : Text) (limit k : Nat) (p q : Parser) : Prop
  | arrived (eq : k = limit)
  | rule (rule : Rule) (listed : rule ∈ Rule.within p.top.kind p.atContentStart)
      (parts : ¬ Shared (endless text) (endless text') limit rule.pattern k)
  | onward (rule : Rule) (listed : rule ∈ Rule.within p.top.kind p.atContentStart) (p₁ q₁ : Parser)
      (j : Nat) (le : j ≤ limit) (matched : Matched text rule.pattern k j p p₁)
      (matched' : Matched text' rule.pattern k j q q₁)
      (beside : Beside text text' j (p₁.perform rule.actions) (q₁.perform rule.actions))
      (next : Continuation) (continues : next ∈ rule.continuations)
      (outside : next.outsideCode = true → (p₁.perform rule.actions).top.kind.holdsCode = false)
      (parts : ¬ Shared (endless text) (endless text') limit next.pattern j)
      (near : ∃ l, Resumed text rule j (p₁.perform rule.actions) p.step l ∧ Coming text l p.step)
      (far : ∃ l, Resumed text' rule j (q₁.perform rule.actions) q.step l ∧ Coming text' l q.step)

section Step

variable (hsame : ∀ j < limit, endless text' j = endless text j) (hpos : 0 < limit)
  {inside : Construct} {acs : Bool}

theorem follow_full (p : Parser) (h : rule.minLength ≤ p.mark.chars) :
    p.follow rule = (p.perform rule.actions).proceed rule.otherwise rule.continuations := by
  simp only [follow, if_neg (Nat.not_lt.mpr h)]

theorem follow_resumed (h : Matched text rule.pattern k j p p')
    (hm : rule ∈ Rule.within inside acs) (hlong : rule.minLength ≤ p'.mark.chars) :
    ∃ l, Resumed text rule j (p'.perform rule.actions) (p'.follow rule) l ∧
      Coming text l (p'.follow rule) := by
  have hlegible := Rule.within_legible inside acs rule hm
  simp only [Rule.isLegible, Bool.and_eq_true, List.all_eq_true] at hlegible
  rw [follow_full p' hlong]
  exact proceed_resumed (fun next hnext => ⟨hnext, hlegible.2 next hnext⟩)
    (fun _ h hno => absurd h hno) (h.coming.perform rule.actions).passed

include hsame hpos

theorem Joint.follow (h : Joint text text' rule.pattern k j p q p' q')
    (hm : rule ∈ Rule.within p.top.kind acs) (hj : j ≤ limit) :
    (∃ l ≤ limit, Beside text text' l (p'.follow rule) (q'.follow rule)) ∨
    (rule.minLength ≤ p'.mark.chars ∧ rule.minLength ≤ q'.mark.chars ∧
      Beside text text' j (p'.perform rule.actions) (q'.perform rule.actions) ∧
      ∃ next ∈ rule.continuations,
        (next.outsideCode = true → (p'.perform rule.actions).top.kind.holdsCode = false) ∧
        ¬ Shared (endless text) (endless text') limit next.pattern j) := by
  have hlegible := Rule.within_legible p.top.kind acs rule hm
  have heven := Rule.within_even p.top.kind acs rule hm
  have hblunt := Rule.within_blunt acs rule hm
  simp only [Rule.isLegible, Rule.isEven, Bool.and_eq_true, Bool.or_eq_true, beq_iff_eq,
    List.all_eq_true] at hlegible heven
  have hchars : p'.mark.chars < rule.minLength ↔ q'.mark.chars < rule.minLength := by
    rcases heven.1.2 with hzero | ⟨hword, hplain⟩
    · simp [hzero]
    · rw [h.chars hword hplain]
  by_cases hshort : p'.mark.chars < rule.minLength
  · left
    simp only [Parser.follow, if_pos hshort, if_pos (hchars.mp hshort)]
    exact ⟨j, hj, h.beside⟩
  · have hshort' : ¬ q'.mark.chars < rule.minLength := fun hq => hshort (hchars.mpr hq)
    rw [Nat.not_lt] at hshort hshort'
    rw [follow_full p' hshort, follow_full q' hshort']
    rcases hblunt.takes with htakes | ⟨hlapses, hends⟩
    · obtain ⟨n, hlow, hhigh, _⟩ := h.matched.reads.takes htakes
      have hstops := h.stops (Nat.lt_of_le_of_lt hlow hhigh)
      have hbeside := h.beside.perform hstops rule.actions
      by_cases hl : ∀ next ∈ rule.continuations,
          (next.outsideCode = true → (p'.perform rule.actions).top.kind.holdsCode = false) →
          Shared (endless text) (endless text') limit next.pattern j
      · left
        refine hbeside.proceed hsame hpos hj ?_ (fun next hnext => ?_) hl rule.otherwise
        · rw [perform_mark, perform_mark, hstops]
        · exact ⟨(hlegible.2 next hnext).1, (hlegible.2 next hnext).2, heven.2 next hnext,
            (hblunt.onward next hnext).takes⟩
      · right
        simp only [not_forall] at hl
        obtain ⟨next, hnext, hout, hparts⟩ := hl
        exact ⟨hshort, hshort', hbeside, next, hnext, hout, hparts⟩
    · -- What ends without a token tells nothing.
      left
      obtain ⟨hactions, _, hnexts, hother⟩ := hends
      rw [hactions, hnexts, hother]
      refine ⟨j, hj, ⟨h.beside.toTelling.pop fun hnot => ?_, h.beside.near.perform [.pop],
        h.beside.far.perform [.pop], ?_, ?_⟩⟩
      · rw [h.matched.top, hlapses] at hnot
        cases hnot
      · exact pop_stream p' ▸ h.beside.spared
      · exact pop_stream q' ▸ h.beside.spared'

/-- The second half of a round, once the innermost construct has not ended with the line. -/
theorem Beside.attempt (h : Beside text text' k p' q') (hk : k < limit)
    (hp : Passed text k p p') (hq : Passed text' k q q') (htop : p.top.kind = q.top.kind)
    (hrules : ∀ rule ∈ Rule.within p.top.kind acs,
      Shared (endless text) (endless text') limit rule.pattern k) :
    let step := Parser.attempt (Rule.within p.top.kind acs) p.top p'
    let step' := Parser.attempt (Rule.within p.top.kind acs) q.top q'
    (∃ l ≤ limit, Beside text text' l step step') ∨
    ∃ rule ∈ Rule.within p.top.kind acs, ∃ p₁ q₁ j, j ≤ limit ∧
      Matched text rule.pattern k j p p₁ ∧ Matched text' rule.pattern k j q q₁ ∧
      Beside text text' j (p₁.perform rule.actions) (q₁.perform rule.actions) ∧
      (∃ next ∈ rule.continuations,
        (next.outsideCode = true → (p₁.perform rule.actions).top.kind.holdsCode = false) ∧
        ¬ Shared (endless text) (endless text') limit next.pattern j) ∧
      (∃ l, Resumed text rule j (p₁.perform rule.actions) step l ∧ Coming text l step) ∧
      ∃ l, Resumed text' rule j (q₁.perform rule.actions) step' l ∧ Coming text' l step' := by
  intro step step'
  have htables : ∀ rule ∈ Rule.within p.top.kind acs,
      rule.isLegible = true ∧ rule.isEven = true := fun rule hm =>
    ⟨Rule.within_legible _ _ rule hm, Rule.within_even _ _ rule hm⟩
  rcases Beside.tryRules hsame hpos h htables hrules with
    ⟨rule, hm, p₁, q₁, j, hj, htry, htry', hjoint⟩ | ⟨p₁, q₁, htry, htry', _, _, hbeside⟩
  · have hstep : step = p₁.follow rule := by simp only [step, Parser.attempt, htry, ↓reduceIte]
    have hstep' : step' = q₁.follow rule := by simp only [step', Parser.attempt, htry', ↓reduceIte]
    have hjoint' : Joint text text' rule.pattern k j p q p₁ q₁ :=
      ⟨hp.matched hjoint.matched, hq.matched hjoint.matched', hjoint.beside, hjoint.stops,
        hjoint.chars⟩
    rw [hstep, hstep']
    refine (hjoint'.follow hsame hpos hm hj).imp_right ?_
    rintro ⟨hlong, hlong', hperformed, hnext⟩
    exact ⟨rule, hm, p₁, q₁, j, hj, hjoint'.matched, hjoint'.matched', hperformed, hnext,
      follow_resumed hjoint'.matched hm hlong, follow_resumed hjoint'.matched' hm hlong'⟩
  · left
    simp only [step, step', Parser.attempt, htry, htry', Bool.false_eq_true, ↓reduceIte]
    exact ⟨k + 1, hk, hbeside.takeLoose hsame hk htop⟩

/-- A round of both parsers. -/
theorem Beside.step (h : Beside text text' k p q) (hk : k ≤ limit) :
    (∃ l ≤ limit, Beside text text' l p.step q.step) ∨ Parting text text' limit k p q := by
  rcases Nat.eq_or_lt_of_le hk with rfl | hk
  · exact .inr (.arrived rfl)
  by_cases hrules : ∀ rule ∈ Rule.within p.top.kind p.atContentStart,
      Shared (endless text) (endless text') limit rule.pattern k
  · -- Whether the line ends the innermost construct is seen from one token.
    have hgoes (hline : p.top.kind.endsWithLine = true → (p.accept (.kind .lineEnd)).1 = false)
        (hline' : q.top.kind.endsWithLine = true → (q.accept (.kind .lineEnd)).1 = false)
        (hpassed : Passed text k p p.trying) (hpassed' : Passed text' k q q.trying)
        (hbeside : Beside text text' k p.trying q.trying) :
        (∃ l ≤ limit, Beside text text' l p.step q.step) ∨ Parting text text' limit k p q := by
      rw [step_of_goesOn hline, step_of_goesOn hline', ← h.peers.top, ← h.peers.again]
      refine (hbeside.attempt hsame hpos hk hpassed hpassed' h.peers.top hrules).imp_right ?_
      rintro ⟨rule, hm, p₁, q₁, j, hj, hmatched, hmatched', hperformed,
        ⟨next, hnext, hout, hparts⟩, hnear, hfar⟩
      refine .onward rule hm p₁ q₁ j hj hmatched hmatched' hperformed next hnext hout hparts ?_ ?_
      · rwa [step_of_goesOn hline]
      · rwa [step_of_goesOn hline', ← h.peers.top, ← h.peers.again]
    cases hends : p.top.kind.endsWithLine with
    | false =>
      have hends' : q.top.kind.endsWithLine = false := h.peers.top ▸ hends
      have htrying : p.trying = { p with
          atContentStart := p.atContentStart && !p.top.kind.holdsContent } := by
        simp only [Parser.trying, hends, Bool.false_eq_true, ↓reduceIte]
      have htrying' : q.trying = { q with
          atContentStart := p.atContentStart && !p.top.kind.holdsContent } := by
        simp only [Parser.trying, hends', Bool.false_eq_true, ↓reduceIte, h.peers.again,
          h.peers.top]
      refine hgoes (fun hyes => ?_) (fun hyes => ?_) ?_ ?_ ?_
      · rw [hends] at hyes
        cases hyes
      · rw [hends'] at hyes
        cases hyes
      · exact htrying ▸ h.near.passed.again _
      · exact htrying' ▸ h.far.passed.again _
      · rw [htrying, htrying']
        exact h.again _
    | true =>
      have hends' : q.top.kind.endsWithLine = true := h.peers.top ▸ hends
      have hshared := Matcher.shared_glances (m := .kind .lineEnd) hsame hk rfl
      rcases Beside.accept hsame hpos h hshared rfl rfl rfl with
        ⟨p₁, q₁, j, hj, hacc, hacc', hjoint⟩ | ⟨p₁, q₁, hacc, hacc', hpassed, hpassed', hbeside⟩
      · left
        have hkj : k < j := by
          have hreads := hjoint.matched.reads
          cases hreads
          exact Nat.lt_succ_self k
        have hpop := hjoint.beside.perform (hjoint.stops hkj) [.pop]
        refine ⟨j, hj, ?_⟩
        have hstep : p.step = { p₁.pop with
            atContentStart := p₁.pop.atContentStart || p₁.pop.top.kind.holdsContent } := by
          simp only [Parser.step, hends, hacc, ↓reduceIte]
        have hstep' : q.step = { q₁.pop with
            atContentStart := q₁.pop.atContentStart || q₁.pop.top.kind.holdsContent } := by
          simp only [Parser.step, hends', hacc', ↓reduceIte]
        have hagain : (q₁.pop.atContentStart || q₁.pop.top.kind.holdsContent) =
            (p₁.pop.atContentStart || p₁.pop.top.kind.holdsContent) := by
          have hpeers : Peers p₁.pop q₁.pop := hpop.peers
          rw [hpeers.again, hpeers.top]
        rw [hstep, hstep', hagain]
        exact hpop.again _
      · have htrying : p.trying = { p₁ with
            atContentStart := p.atContentStart && !p.top.kind.holdsContent } := by
          simp only [Parser.trying, hends, ↓reduceIte, hacc]
        have htrying' : q.trying = { q₁ with
            atContentStart := p.atContentStart && !p.top.kind.holdsContent } := by
          simp only [Parser.trying, hends', ↓reduceIte, hacc', h.peers.again, h.peers.top]
        refine hgoes (fun _ => by rw [hacc]) (fun _ => by rw [hacc']) ?_ ?_ ?_
        · exact htrying ▸ hpassed.again _
        · exact htrying' ▸ hpassed'.again _
        · rw [htrying, htrying']
          exact hbeside.again _
  · simp only [not_forall] at hrules
    obtain ⟨rule, hlisted, hparts⟩ := hrules
    exact .inr (.rule rule hlisted hparts)

end Step

end Parser

end LineMarkup
