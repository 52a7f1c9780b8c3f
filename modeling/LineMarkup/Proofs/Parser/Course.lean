import Mathlib.Logic.Function.Iterate
import LineMarkup.Proofs.Matcher.Keeping
import LineMarkup.Proofs.Parser.Progress

namespace LineMarkup

/-- What a parser takes at once: the tokens of a match, or one token that no rule wants. -/
inductive Taking
  | matched (tokens : List Token)
  | loose (token : Token)

namespace Taking

def tokens : Taking → List Token
  | .matched tokens => tokens
  | .loose token => [token]

def loose? : Taking → Option Token
  | .matched _ => none
  | .loose token => some token

end Taking

def Event.loose? : Event → Option Token
  | .loose token _ => some token
  | _ => none

namespace Parser

open Token (Stream unmarked)
open Token.Stream

/-- The moves that lead from one parser to another, with what they take on the way. Only matches and
loose tokens take anything. -/
inductive Course (p : Parser) : List Taking → Parser → Prop
  | start : Course p [] p
  | matched (before : Course p takings p') (hit : p'.accept m = (true, p'')) :
      Course p (takings ++ [.matched (m.run p'.stream).2.taken]) p''
  | refused (before : Course p takings p') (miss : p'.accept m = (false, p'')) :
      Course p takings p''
  | loose (before : Course p takings p') :
      Course p (takings ++ [.loose p'.stream.fetch.1]) (p'.takeLoose frame)
  | acted (before : Course p takings p') : Course p takings (p'.act action)
  | anchored (before : Course p takings p') : Course p takings { p' with atContentStart := acs }

def Reaches (p p' : Parser) : Prop :=
  ∃ takings, Course p takings p'

namespace Reaches

theorem refl (p : Parser) : Reaches p p :=
  ⟨[], .start⟩

theorem anchored (h : Reaches p p') (acs : Bool) :
    Reaches p { p' with atContentStart := acs } := by
  obtain ⟨takings, hc⟩ := h
  exact ⟨takings, hc.anchored⟩

theorem accept (h : Reaches p p') (m : Matcher) : Reaches p (p'.accept m).2 := by
  obtain ⟨takings, hc⟩ := h
  rcases ha : p'.accept m with ⟨ok, p''⟩
  cases ok with
  | true => exact ⟨_, hc.matched ha⟩
  | false => exact ⟨_, hc.refused ha⟩

theorem takeLoose (h : Reaches p p') (frame : Frame) : Reaches p (p'.takeLoose frame) := by
  obtain ⟨takings, hc⟩ := h
  exact ⟨_, hc.loose⟩

theorem act (h : Reaches p p') (action : Action) : Reaches p (p'.act action) := by
  obtain ⟨takings, hc⟩ := h
  exact ⟨takings, hc.acted⟩

theorem perform (h : Reaches p p') (actions : List Action) : Reaches p (p'.perform actions) :=
  perform_induction (P := Reaches p) (fun action _ _ h => h.act action) h

theorem proceed (h : Reaches p p') (otherwise : List Action) (continuations : List Continuation) :
    Reaches p (p'.proceed otherwise continuations) := by
  induction continuations generalizing p' with
  | nil => exact h.perform otherwise
  | cons next rest ih =>
    have ha := h.accept next.pattern
    simp only [Parser.proceed]
    split
    · exact ih h
    · split <;> rename_i hacc <;> rw [hacc] at ha
      · exact ha.perform next.actions
      · exact ih ha

theorem follow (h : Reaches p p') (rule : Rule) : Reaches p (p'.follow rule) := by
  simp only [Parser.follow]
  split
  · exact h
  · exact (h.perform rule.actions).proceed rule.otherwise rule.continuations

theorem tryRules (h : Reaches p p') (rules : List Rule) : Reaches p (p'.tryRules rules).2 := by
  induction rules generalizing p' with
  | nil => exact h
  | cons rule rules ih =>
    have ha := h.accept rule.pattern
    simp only [Parser.tryRules]
    split <;> rename_i hacc <;> rw [hacc] at ha
    · exact ha.follow rule
    · exact ih ha

theorem attempt (h : Reaches p p') (rules : List Rule) (frame : Frame) :
    (∀ q, p'.tryRules rules = (true, q) → Reaches p q) ∧
      ∀ q, p'.tryRules rules = (false, q) → Reaches p (q.takeLoose frame) := by
  have ht := h.tryRules rules
  refine ⟨fun q hq => ?_, fun q hq => ?_⟩ <;> rw [hq] at ht
  · exact ht
  · exact ht.takeLoose frame

theorem step (h : Reaches p p') : Reaches p p'.step := by
  have hline := h.accept (.kind .lineEnd)
  by_cases hk : p'.top.kind.endsWithLine = true
  · simp only [Parser.step, hk, ↓reduceIte]
    split
    · exact (hline.act .pop).anchored _
    · split <;> rename_i hr
      · exact ((hline.anchored _).attempt _ p'.top).1 _ hr
      · exact ((hline.anchored _).attempt _ _).2 _ hr
  · simp only [Parser.step, hk, ↓reduceIte, Bool.false_eq_true]
    split <;> rename_i hr
    · exact ((h.anchored _).attempt _ p'.top).1 _ hr
    · exact ((h.anchored _).attempt _ _).2 _ hr

theorem iterate (p : Parser) (n : Nat) : Reaches p (Parser.step^[n] p) := by
  induction n with
  | zero => exact refl p
  | succ n ih =>
    rw [Function.iterate_succ_apply']
    exact ih.step

end Reaches

theorem pop_loose (p : Parser) :
    p.pop.events.filterMap Event.loose? = p.events.filterMap Event.loose? := by
  unfold pop
  split <;> rfl

theorem act_loose (p : Parser) (action : Action) :
    (p.act action).events.filterMap Event.loose? = p.events.filterMap Event.loose? := by
  cases action with
  | push | instant | startContent => rfl
  | pop => exact pop_loose p
  | popMath =>
    exact popMath_induction
      (P := fun q => q.events.filterMap Event.loose? = p.events.filterMap Event.loose?)
      (fun q h => (pop_loose q).trans h) rfl

/-- What a course from `p` to `p'` has taken. Nothing is held back, nothing is lost, and what was
taken loose is what was reported so. -/
structure Taken (p : Parser) (takings : List Taking) (p' : Parser) : Prop where
  consumed : p'.stream.consumed = []
  stop : p'.stream.stop = p.stream.stop
  all : ∃ n, (takings.flatMap Taking.tokens ++ ahead p'.stream).map unmarked =
    (ahead p.stream).map unmarked ++ List.replicate n (Token.ending p.stream.stop)
  loose : (p'.events.filterMap Event.loose?).reverse =
    (p.events.filterMap Event.loose?).reverse ++ takings.filterMap Taking.loose?

/-- A move that leaves the stream as it is, marks aside, takes nothing. -/
theorem Taken.keeps (h : Taken p takings p') (hk : Keeps p'.stream s)
    (hc : s.consumed = []) (hs : p''.stream = s.release)
    (he : p''.events.filterMap Event.loose? = p'.events.filterMap Event.loose?) :
    Taken p takings p'' := by
  obtain ⟨k, hk'⟩ := hk.whole
  obtain ⟨n, hn⟩ := h.all
  have hahead : (ahead p''.stream).map unmarked =
      (ahead p'.stream).map unmarked ++ List.replicate k (Token.ending p.stream.stop) := by
    rw [whole, whole, taken, taken, h.consumed, hc, h.stop] at hk'
    rw [hs]
    exact hk'
  refine ⟨?_, ?_, ⟨n + k, ?_⟩, by rw [he, h.loose]⟩
  · rw [hs]
    rfl
  · rw [hs]
    exact hk.stop.trans h.stop
  · rw [List.map_append] at hn
    rw [List.map_append, hahead, ← List.append_assoc, hn, List.append_assoc,
      List.replicate_append_replicate]

/-- A move that takes tokens for good. -/
theorem Taken.take (h : Taken p takings p') (hk : Keeps p'.stream s)
    (ht : taking.tokens = s.taken) (hs : p''.stream = s.release)
    (he : (p''.events.filterMap Event.loose?).reverse =
      (p'.events.filterMap Event.loose?).reverse ++ taking.loose?.toList) :
    Taken p (takings ++ [taking]) p'' := by
  obtain ⟨k, hk'⟩ := hk.whole
  obtain ⟨n, hn⟩ := h.all
  have hwhole : (taking.tokens ++ ahead p''.stream).map unmarked =
      (ahead p'.stream).map unmarked ++ List.replicate k (Token.ending p.stream.stop) := by
    rw [whole, whole, taken, taken, h.consumed, h.stop] at hk'
    rw [hs, ht]
    exact hk'
  refine ⟨?_, ?_, ⟨n + k, ?_⟩, ?_⟩
  · rw [hs]
    rfl
  · rw [hs]
    exact hk.stop.trans h.stop
  · rw [List.map_append] at hn
    rw [List.flatMap_append, List.flatMap_singleton, List.append_assoc, List.map_append, hwhole,
      ← List.append_assoc, hn, List.append_assoc, List.replicate_append_replicate]
  · rw [he, h.loose, List.append_assoc, List.filterMap_append]
    cases taking <;> rfl

theorem accept_taken (h : Taken p takings p') (m : Matcher) :
    Taken p (if (p'.accept m).1 then takings ++ [.matched (m.run p'.stream).2.taken] else takings)
      (p'.accept m).2 := by
  have hr := m.run_returns p'.stream
  rcases hrun : m.run p'.stream with ⟨ok, s⟩
  rw [hrun] at hr
  cases ok with
  | true =>
    simp only [accept, hrun, ↓reduceIte]
    exact h.take hr.keeps rfl rfl (by simp [Taking.loose?])
  | false =>
    have hc : s.consumed = [] := by
      have := hr.back rfl
      rw [position, position, h.consumed] at this
      exact List.length_eq_zero_iff.mp this
    have hs : s = s.release := by rw [release, ← hc]
    simp only [accept, hrun, Bool.false_eq_true, ↓reduceIte]
    exact h.keeps hr.keeps hc hs rfl

theorem Course.taken (h : Course p takings p') (hp : p.stream.consumed = []) :
    Taken p takings p' := by
  induction h with
  | start => exact ⟨hp, rfl, ⟨0, by simp⟩, by simp⟩
  | @matched _ _ m _ _ hit ih =>
    have ht := accept_taken ih m
    rwa [hit] at ht
  | @refused _ _ m _ _ miss ih =>
    have ht := accept_taken ih m
    rwa [miss] at ht
  | @loose takings p' frame _ ih =>
    refine ih.take (.fetch p'.stream) ?_ rfl ?_
    · rw [Stream.taken, fetch_consumed, ih.consumed]
      rfl
    · simp [takeLoose, report, Event.loose?, Taking.loose?]
  | @acted takings p' action _ ih =>
    refine ih.keeps (.refl p'.stream) ih.consumed ?_ (act_loose p' action)
    rw [act_stream, release, ← ih.consumed]
  | anchored _ ih => exact ⟨ih.consumed, ih.stop, ih.all, ih.loose⟩

/-- Bounded rounds are some number of steps, the last of which may only come to the end. -/
theorem rounds_iterate (fuel : Nat) (p : Parser) :
    ∃ n, rounds fuel p = Parser.step^[n] p ∧
      ∀ i < n, (Parser.step^[i] p).stream.atEnd = false := by
  induction fuel generalizing p with
  | zero => exact ⟨0, rfl, by simp⟩
  | succ fuel ih =>
    simp only [rounds]
    cases hend : p.stream.atEnd with
    | true => exact ⟨0, rfl, by simp⟩
    | false =>
      obtain ⟨n, hn, hbefore⟩ := ih p.step
      refine ⟨n + 1, hn, fun i hi => ?_⟩
      cases i with
      | zero => exact hend
      | succ i => exact hbefore i (by omega)

/-- No more steps than the weight come before the end. -/
theorem iterate_le_weight (h : Steady limit start pos p)
    (hn : ∀ i < n, (Parser.step^[i] p).stream.atEnd = false) : n ≤ p.weight := by
  induction n generalizing pos p with
  | zero => exact Nat.zero_le _
  | succ n ih =>
    obtain ⟨pos', _, hs⟩ := step_steady h
    have hlt := step_weight h (hn 0 (by omega))
    have hle := ih hs (fun i hi => hn (i + 1) (by omega))
    omega

end Parser

namespace Token

theorem filter_beginning (text : Text) :
    (beginning :: scan 0 text).filter (!·.isSentinel) = scan 0 text := by
  rw [List.filter_cons_of_neg (by simp [beginning, isSentinel])]
  exact List.filter_eq_self.mpr (fun t ht => by rw [(scan_genuine ht).kind, Bool.not_false])

/-- The tokens of a text without the empty ones at both ends. -/
theorem tokenize_filter (text : Text) : (tokenize text).filter (!·.isSentinel) = scan 0 text := by
  rw [tokenize, List.filter_append, filter_beginning,
    List.filter_cons_of_neg (by simp [ending, isSentinel]), List.filter_nil, List.append_nil]

theorem map_unmarked {tokens : List Token} (h : ∀ t ∈ tokens, t.discarded = false) :
    tokens.map unmarked = tokens := by
  refine (List.map_congr_left (fun t ht => ?_)).trans (List.map_id _)
  rw [unmarked, ← h t ht]
  rfl

end Token

namespace Parser

open Token (Stream unmarked)
open Token.Stream

theorem ofText_weight_le (text : Text) (carried : List Construct) :
    (ofText text carried).weight ≤
      2 * (((Token.tokenize text).filter (!·.isSentinel)).length + 2) + carried.length := by
  have hle := weight_le (ofText text carried)
  have hleft : left (ofText text carried).stream ≤ (Token.scan 0 text).length + 1 :=
    List.countP_le_length
  have hstack : (ofText text carried).stack.length = carried.length + 1 := by simp [ofText]
  rw [Token.tokenize_filter]
  omega

/-- A parse stops after a bounded number of rounds. By then every token of the text has been taken
exactly once and in order, with the tokens of a match or as a loose token, and the loose ones are
those that were reported. -/
theorem rounds_take_all (text : Text) (carried : List Construct) :
    let start := ofText text carried
    let tokens := (Token.tokenize text).filter (!·.isSentinel)
    ∃ count takings,
      start.rounds start.roundLimit = Parser.step^[count] start ∧
      (∀ i < count, (Parser.step^[i] start).stream.atEnd = false) ∧
      (Parser.step^[count] start).stream.atEnd = true ∧
      count ≤ 2 * (tokens.length + 2) + carried.length ∧
      Course start takings (Parser.step^[count] start) ∧
      ((takings.flatMap Taking.tokens).map unmarked).filter (!·.isSentinel) = tokens ∧
      takings.filterMap Taking.loose? =
        (Parse.ofText text carried).events.filterMap Event.loose? := by
  intro start tokens
  obtain ⟨count, hcount, hbefore⟩ := rounds_iterate start.roundLimit start
  obtain ⟨takings, hcourse⟩ := Reaches.iterate start count
  have hend := ofText_atEnd text carried
  have hbound := iterate_le_weight (ofText_steady text carried) hbefore
  have htaken := hcourse.taken rfl
  refine ⟨count, takings, hcount, hbefore, hcount ▸ hend,
    Nat.le_trans hbound (ofText_weight_le text carried), hcourse, ?_, ?_⟩
  · obtain ⟨n, hn⟩ := htaken.all
    have hahead : ahead start.stream = Token.beginning :: Token.scan 0 text := rfl
    have hkept : ∀ t ∈ ahead start.stream, t.discarded = false := by
      intro t ht
      rcases List.mem_cons.mp (hahead ▸ ht) with rfl | ht
      · rfl
      · exact (Token.scan_genuine ht).kept
    rw [← hcount, atEnd_iff.mp hend, List.append_nil, Token.map_unmarked hkept, hahead] at hn
    have hends :
        (List.replicate n (Token.ending start.stream.stop)).filter (!·.isSentinel) = [] := by
      simp [Token.ending, Token.isSentinel]
    rw [hn, List.filter_append, hends, List.append_nil, Token.filter_beginning]
    exact (Token.tokenize_filter text).symm
  · have hloose := htaken.loose
    rw [← hcount] at hloose
    simpa [Parse.ofText, start, ofText] using hloose.symm

end Parser

end LineMarkup
