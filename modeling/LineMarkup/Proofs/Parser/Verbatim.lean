import Mathlib
import LineMarkup.Proofs.Parser.Standing
import LineMarkup.Proofs.Span.Order

namespace LineMarkup

open Text (OccursAt Absent)

namespace Parser

open Token.Stream
open Event (AllTerminated LooseIn Terminated)

variable {text mark before rest : Text} {pos pos' : Nat} {start : List Frame} {p p' : Parser}

/-- What a round does within a construct that has a mark. -/
inductive VerbatimRound (text mark : Text) (pos : Nat) (p p' : Parser) : Prop
  | closed (occurs : OccursAt text mark pos)
      (events : p'.events = .pop p.top (pos + mark.size) false :: p.events)
  | loose (token : Token) (absent : Absent text mark pos token.stop) (le : pos ≤ token.stop)
      (events : p'.events = .loose token p.top :: p.events) (top : p'.top = p.top)
      (poised : Poised text.size token.stop p'.stream)

theorem verbatim_round (hs : Steady text.size start pos p)
    (hst : Stands text pos p.stream before rest) (hk : p.top.kind.terminator? = some mark) :
    VerbatimRound text mark pos p p.step := by
  cases step_round hs.poised with
  | line kind =>
    have : p.top.kind.endsWithLine = false := by
      revert hk
      cases p.top.kind <;> simp [Construct.terminator?, Construct.endsWithLine]
    simp [this] at kind
  | @rule _ lead more acs rule listed p₁ p₂ ms ht plain ha result =>
    rw [within_terminator hk, List.mem_singleton] at listed
    subst listed
    obtain ⟨⟨after, rfl⟩, hpos⟩ := ha.mark_prefix ht.poised (hst.tried ht)
    have htaken : lead ++ more ≠ [] := by
      intro hn
      have htiles := ha.tiles
      rw [hn, Token.tiles_nil, hpos] at htiles
      exact (terminator_alone hk).1 (Text.size_eq_zero (by omega))
    obtain ⟨_, _, hmark⟩ := ha.moved htaken
    have hroot : p.top ≠ Frame.root := by
      intro hroot
      rw [hroot] at hk
      cases hk
    obtain ⟨below, outer, hstack⟩ := hs.rooted.below_of_ne hroot
    obtain ⟨hevents, hstack', _⟩ := ha.kept
    rw [ht.stack, hstack] at hstack'
    refine .closed (hst.occursAt hk) ?_
    rw [result, follow_ends p₂ rfl, pop, hstack']
    simp [report, hmark, hpos, hevents, ht.events]
  | loose acs p₁ p₂ ms ht plain unmatched ht' result =>
    have hn : ¬ mark <+: rest := by
      rintro ⟨after, rfl⟩
      have hrun := (hst.tried ht).matched (terminator_alone hk).2
      rw [within_terminator hk] at unmatched
      revert unmatched
      simp only [tryRules, accept]
      revert hrun
      rcases (Matcher.symbols mark).run p₁.stream with ⟨_ | _, s⟩ <;> simp
    have hst' := (hst.tried ht).tried ht'
    obtain ⟨hstart, hpoised, _⟩ := ht'.poised.fetch
    have habsent := hst'.absent ht'.poised hk hn
    have htop : p.step.top = p.top := by
      rw [result]
      exact ht'.top.trans ht.top
    refine .loose p₂.stream.fetch.1 habsent ?_ ?_ htop ?_
    · have := p₂.stream.fetch.1.start_le_stop
      omega
    · rw [result]
      simp [takeLoose, report, ht'.events, ht.events]
    · rw [result]
      exact hpoised

end Parser

namespace Event.AllTerminated

open LineMarkup.Parser Token.Stream

variable {text : Text} {limit pos : Nat} {p : Parser} {rule : Rule} {action : Action}
  {actions : List Action}

theorem pop (h : AllTerminated text p.events) : AllTerminated text p.pop.events := by
  unfold Parser.pop
  split
  · exact h.cons (by simp)
  · exact h

theorem act (h : AllTerminated text p.events) (ha : action.opensVerbatim = false) :
    AllTerminated text (p.act action).events := by
  cases action with
  | push kind =>
    apply h.cons
    intro frame stop heq
    obtain ⟨rfl, _⟩ := Event.push.inj heq
    simpa [Action.opensVerbatim] using ha
  | pop => exact h.pop
  | instant => exact h.cons (by simp)
  | startContent => exact h
  | popMath =>
    exact popMath_induction (P := fun q => AllTerminated text q.events) (fun _ hq => hq.pop) h

theorem perform (h : AllTerminated text p.events)
    (ha : actions.any Action.opensVerbatim = false) :
    AllTerminated text (p.perform actions).events := by
  rw [List.any_eq_false] at ha
  exact perform_induction (P := fun q => AllTerminated text q.events)
    (fun action hm _ hq => hq.act (by simpa using ha action hm)) h

theorem follow (h : AllTerminated text p.events) (hr : rule.sound = true)
    (ho : rule.opensNothing = true) (hp : Poised limit pos p.stream) :
    AllTerminated text (p.follow rule).events := by
  simp only [Rule.opensNothing, Bool.and_eq_true, Bool.not_eq_true', List.all_eq_true] at ho
  obtain ⟨⟨hactions, hother⟩, hnext⟩ := ho
  cases follow_cases hr hp with
  | short _ result =>
    rw [result]
    exact h
  | full hp =>
    have hperformed := h.perform hactions
    cases hp with
    | onward next listed p₁ p₂ ms _ ht ha result =>
      rw [result]
      apply perform _ (hnext next listed)
      rwa [ha.kept.1, ht.events]
    | otherwise p₁ ms _ ht result =>
      rw [result]
      apply perform _ hother
      rwa [ht.events]

end Event.AllTerminated

namespace Parser

open Token.Stream
open Event (AllTerminated LooseIn Terminated)

variable {text : Text} {pos pos' : Nat} {carried : List Construct} {start : List Frame}
  {p : Parser} {rule : Rule} {action : Action}

/-- A rule that opens a construct with a mark does nothing else. -/
theorem follow_opensAlone (p : Parser) (h : rule.opensAlone = true) :
    ∃ action, rule.actions = [action] ∧ p.follow rule = p.act action := by
  simp only [Rule.opensAlone, Bool.and_eq_true, decide_eq_true_eq, List.isEmpty_iff] at h
  obtain ⟨⟨⟨hactions, hmin⟩, hnext⟩, hother⟩ := h
  obtain ⟨action, haction⟩ := List.length_eq_one_iff.mp hactions
  refine ⟨action, haction, ?_⟩
  simp [Parser.follow, proceed, Parser.perform, haction, hmin, hnext, hother]

/-- What is known of marks between two rounds. -/
inductive Verbatim (text : Text) (pos : Nat) (p : Parser) : Prop
  /-- Everything that was opened with a mark has been closed by it. -/
  | outside (all : AllTerminated text p.events)
  /-- The innermost frame has a mark, which has not come yet. -/
  | inside {earlier looses : List Event} {mark : Text} {stop : Nat}
      (all : AllTerminated text earlier)
      (events : p.events = looses ++ .push p.top stop :: earlier) (loose : LooseIn p.top looses)
      (kind : p.top.kind.terminator? = some mark) (le : stop ≤ pos)
      (absent : Absent text mark stop pos)

/-- What is opened behind the cursor has its mark ahead. -/
theorem Verbatim.act (all : AllTerminated text p.events)
    (hpos : action.opensVerbatim = true → p.mark.stop = pos) :
    Verbatim text pos (p.act action) := by
  cases hv : action.opensVerbatim with
  | false => exact .outside (all.act hv)
  | true =>
    cases action with
    | push kind =>
      obtain ⟨mark, hkind⟩ := Option.isSome_iff_exists.mp hv
      have hnone : LooseIn (p.act (.push kind)).top [] := by simp [LooseIn]
      have habsent : Absent text mark p.mark.stop pos := by
        intro other hlow hhigh
        have := hpos hv
        omega
      exact .inside all rfl hnone hkind (Nat.le_of_eq (hpos hv)) habsent
    | _ => cases hv

theorem Verbatim.step_outside (all : AllTerminated text p.events)
    (hs : Steady text.size start pos p) (hs' : Steady text.size start pos' p.step) :
    Verbatim text pos' p.step := by
  cases step_round hs.poised with
  | line _ p₁ ha acs result =>
    apply Verbatim.outside
    rw [result]
    apply AllTerminated.pop
    rwa [ha.kept.1]
  | rule acs rule listed p₁ p₂ ms ht plain ha result =>
    have all : AllTerminated text p₂.events := by
      rwa [ha.kept.1, ht.events]
    rcases Bool.or_eq_true_iff.mp (Rule.within_verbatim _ _ rule listed) with ho | ho
    · apply Verbatim.outside
      rw [result]
      exact all.follow (Rule.within_sound _ _ rule listed) ho ha.poised
    · obtain ⟨action, haction, hfollow⟩ := follow_opensAlone p₂ ho
      rw [hfollow] at result
      have hpoised := hs'.poised
      rw [result] at hpoised ⊢
      apply Verbatim.act all
      intro hv
      have hmoves : rule.pattern.moves = true := by
        have := Rule.within_moves _ _ rule listed
        cases action with
        | push kind => simpa [Rule.ends, haction] using this
        | _ => cases hv
      obtain ⟨hn, _, _⟩ := ha.moves ht.poised hmoves
      obtain ⟨_, _, hmark⟩ := ha.moved hn
      rw [act_stream] at hpoised
      exact hmark.trans (ha.poised.tiles.start_unique hpoised.tiles)
  | loose acs p₁ p₂ ms ht plain unmatched ht' result =>
    apply Verbatim.outside
    rw [result]
    apply Event.AllTerminated.cons _ (by simp)
    rwa [ht'.events, ht.events]

theorem Verbatim.step (h : Verbatim text pos p) (hs : Steady text.size start pos p)
    (hr : Reaches (ofText text carried) p) (hs' : Steady text.size start pos' p.step) :
    Verbatim text pos' p.step := by
  cases h with
  | outside all => exact step_outside all hs hs'
  | @inside earlier looses mark stop all events loose kind le absent =>
    have hfilled : p.top.start < stop :=
      hs.trace.recorded_filled (.push p.top stop) (by simp [events]) p.top rfl
    obtain ⟨before, rest, hst⟩ := hr.stands hs.poised (by omega)
    cases verbatim_round hs hst kind with
    | closed occurs events' =>
      apply Verbatim.outside
      rw [events', events]
      exact all.close kind loose le occurs absent
    | loose token absent' le' events' top poised =>
      obtain rfl := hs'.poised.tiles.start_unique poised.tiles
      have hloose : LooseIn p.step.top (.loose token p.top :: looses) := by
        rw [top]
        exact List.forall_mem_cons.mpr ⟨⟨token, rfl⟩, loose⟩
      refine .inside all ?_ hloose (top ▸ kind) (Nat.le_trans le le') (absent.trans absent')
      rw [events', events, top]
      rfl

theorem iterate_verbatim (text : Text) (carried : List Construct) (n : Nat) :
    ∃ pos, Steady text.size (Frame.around carried) pos (Parser.step^[n] (ofText text carried)) ∧
      Verbatim text pos (Parser.step^[n] (ofText text carried)) := by
  induction n with
  | zero =>
    exact ⟨0, ofText_steady text carried, .outside (Event.allTerminated_nil text)⟩
  | succ n ih =>
    obtain ⟨pos, hs, hv⟩ := ih
    obtain ⟨pos', _, hs'⟩ := step_steady hs
    rw [Function.iterate_succ_apply']
    exact ⟨pos', hs', hv.step hs (Reaches.iterate _ n) hs'⟩

/-- A frame with a mark has been closed, or it is the innermost one. -/
theorem Verbatim.later {frame : Frame} {mark : Text} {stop : Nat} {later earlier : List Event}
    (h : Verbatim text pos p) (he : p.events = later ++ .push frame stop :: earlier)
    (hm : frame.kind.terminator? = some mark) :
    Terminated text frame stop later ∨
      (p.top = frame ∧ LooseIn frame later ∧ Absent text mark stop pos) := by
  cases h with
  | outside all => exact .inl (all later frame stop earlier he)
  | inside all events loose kind le absent =>
    rw [events] at he
    rcases Event.split_push loose he with ⟨rfl, rfl, rfl⟩ | ⟨between, rfl, hearlier⟩
    · obtain rfl := Option.some.inj (kind.symm.trans hm)
      exact .inr ⟨rfl, loose, absent⟩
    · left
      rw [← List.singleton_append, ← List.append_assoc]
      exact (all between frame stop _ hearlier).more _

end Parser

namespace Parse

open LineMarkup.Parser
open Event (Terminated LooseIn)

variable {text mark : Text} {carried : List Construct} {frame : Frame} {stop : Nat}
  {before after : List Event}

/-- What was opened in a text was opened before its end. -/
theorem report_push (h : (ofText text carried).report true = before ++ .push frame stop :: after) :
    ∃ between, (ofText text carried).events = before ++ .push frame stop :: between ∧
      after = between ++ ((ofText text carried).ended ++ (ofText text carried).unclosed).map
        (fun frame => .pop frame text.size true) := by
  have hpops (es : List Event) (frames : List Frame)
      (hes : frames.map (fun frame => .pop frame text.size true) = es) :
      .push frame stop ∉ es := by
    rw [← hes]
    simp
  have hsplit : (ofText text carried).events ++ ((ofText text carried).ended ++
      (ofText text carried).unclosed).map (fun frame => .pop frame text.size true) =
      before ++ .push frame stop :: after := h
  rcases List.append_eq_append_iff.mp hsplit with ⟨more, _, hmore⟩ | ⟨between, hevents, hrest⟩
  · exact absurd (by simp) (hpops _ _ hmore)
  · cases between with
    | nil => exact absurd (by simp) (hpops _ _ hrest.symm)
    | cons e between =>
      obtain ⟨rfl, hafter⟩ := List.cons.inj hrest
      exact ⟨between, hevents, hafter⟩

/-- Raw text, a block of it, or a block comment that was opened in a text holds nothing but loose
tokens. It is closed by the first mark after its opening one that is not escaped, and ends just past
it. It goes on to the end of the text only if there is no such mark. -/
theorem report_verbatim
    (h : (ofText text carried).report true = before ++ .push frame stop :: after)
    (hm : frame.kind.terminator? = some mark) :
    ∃ looses, LooseIn frame looses ∧
      ((∃ pos rest, after = looses ++ .pop frame (pos + mark.size) false :: rest ∧
        stop ≤ pos ∧ OccursAt text mark pos ∧ ∀ other, stop ≤ other → other < pos →
          ¬ OccursAt text mark other) ∨
      (∃ rest, after = looses ++ .pop frame text.size true :: rest ∧
        ∀ pos, stop ≤ pos → ¬ OccursAt text mark pos)) := by
  obtain ⟨between, hevents, hafter⟩ := report_push h
  obtain ⟨n, hn, _⟩ :=
    rounds_iterate (Parser.ofText text carried).roundLimit (Parser.ofText text carried)
  obtain ⟨pos, hs, hv⟩ := iterate_verbatim text carried n
  have hend := ofText_atEnd text carried
  rw [← hn] at hs hv
  let final := (Parser.ofText text carried).rounds (Parser.ofText text carried).roundLimit
  have hlater : final.events = between.reverse ++ .push frame stop :: before.reverse := by
    have : final.events.reverse = before ++ .push frame stop :: between := hevents
    rw [← List.reverse_reverse final.events, this]
    simp
  rcases hv.later hlater hm with hclosed | ⟨htop, hloose, habsent⟩
  · obtain ⟨more, looses, pos, hbetween, hloose, hle, hoccurs, habsent⟩ := hclosed mark hm
    have hafter : after = looses.reverse ++ .pop frame (pos + mark.size) false ::
        (more.reverse ++ ((ofText text carried).ended ++ (ofText text carried).unclosed).map
          (fun frame => .pop frame text.size true)) := by
      rw [hafter, ← List.reverse_reverse between, hbetween]
      simp
    exact ⟨looses.reverse, hloose.reverse, .inl ⟨pos, _, hafter, hle, hoccurs, habsent⟩⟩
  · refine ⟨between, by simpa using hloose.reverse, .inr ?_⟩
    obtain ⟨below, hstack⟩ := hs.rooted.stack_eq
    have hopen :
        (ofText text carried).ended ++ (ofText text carried).unclosed = frame :: below := by
      rw [← htop, ← hstack]
      exact List.takeWhile_append_dropWhile
    refine ⟨below.map (fun frame => .pop frame text.size true), ?_, ?_⟩
    · rw [hafter, hopen, List.map_cons]
    · have hpos : pos = text.size := by
        have htiles := hs.poised.tiles
        rwa [Token.Stream.atEnd_iff.mp hend, Token.tiles_nil] at htiles
      have hne := (terminator_alone hm).1
      intro other hle hoccurs
      have hsize := hoccurs.le_size
      rcases Nat.lt_or_ge other text.size with hlt | hge
      · exact habsent other hle (hpos ▸ hlt) hoccurs
      · exact hne (Text.size_eq_zero (by omega))

/-- A comment with an escaped mark in it. -/
theorem comment_past_escape :
    let comment : Frame := { kind := .commentBlock, start := 0 }
    ∃ before after,
      (ofText "/*\\*/*/".toList []).report true = before ++ .push comment 2 :: after ∧
      comment.kind.terminator? = some "*/".toList ∧
      ∃ looses, LooseIn comment looses ∧
        ((∃ pos rest, after = looses ++ .pop comment (pos + Text.size "*/".toList) false :: rest ∧
          2 ≤ pos ∧ OccursAt "/*\\*/*/".toList "*/".toList pos ∧
          ∀ other, 2 ≤ other → other < pos →
            ¬ OccursAt "/*\\*/*/".toList "*/".toList other) ∨
        (∃ rest, after = looses ++ .pop comment (Text.size "/*\\*/*/".toList) true :: rest ∧
          ∀ pos, 2 ≤ pos → ¬ OccursAt "/*\\*/*/".toList "*/".toList pos)) := by
  intro comment
  have hreport : (ofText "/*\\*/*/".toList []).report true =
      [.loose { kind := .begin, start := 0, text := [], discarded := true } Frame.root] ++
        .push comment 2 ::
        [.loose { kind := .escape, start := 2, text := "\\*".toList } comment,
          .loose { kind := .symbol, start := 4, text := "/".toList } comment,
          .pop comment 7 false, .pop Frame.root 7 true] := by
    cbv
  exact ⟨_, _, hreport, rfl, report_verbatim hreport rfl⟩

/-- The first mark may be escaped. Then it does not close raw text. -/
theorem escape_hides_mark :
    ¬ ∀ (text : Text) (before : List Event) (frame : Frame) (stop : Nat) (after : List Event)
      (mark front back : Text),
      (ofText text []).report true = before ++ .push frame stop :: after →
      frame.kind.terminator? = some mark →
      text = front ++ mark ++ back → stop ≤ front.size →
      (∀ front' back' : Text, text = front' ++ mark ++ back' → stop ≤ front'.size →
        front.size ≤ front'.size) →
      .pop frame (front.size + mark.size) false ∈ after := by
  intro hall
  let raw : Frame := { kind := .raw, start := 0 }
  have hreport : (ofText "`\\`".toList []).report true =
      [.loose { kind := .begin, start := 0, text := [], discarded := true } Frame.root] ++
        .push raw 1 ::
        [.loose { kind := .escape, start := 1, text := "\\`".toList } raw, .pop raw 3 true,
          .pop Frame.root 3 true] := by
    cbv
  have hfirst : ∀ front back : Text, "`\\`".toList = front ++ "`".toList ++ back →
      1 ≤ front.size → Text.size "`\\".toList ≤ front.size := by
    intro front back htext hle
    rcases front with _ | ⟨a, _ | ⟨b, front⟩⟩
    · simp at hle
    · simp at htext
    · have ha := a.utf8Size_pos
      have hb := b.utf8Size_pos
      have hsize : Text.size "`\\".toList = 2 := rfl
      simp only [Text.size_cons]
      omega
  have hpop := hall _ _ raw 1 _ "`".toList "`\\".toList [] hreport rfl rfl (by decide) hfirst
  simp at hpop

end Parse

end LineMarkup
