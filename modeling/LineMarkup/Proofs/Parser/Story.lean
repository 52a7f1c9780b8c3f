import LineMarkup.Proofs.Parser.Fitting
import LineMarkup.Proofs.Parser.Lapse

namespace LineMarkup

open Text (Boundary HasAt)

namespace Token

variable {text : Text} {t : Token}

theorem LiesIn.of_unmarked (h : LiesIn text t.unmarked) : LiesIn text t :=
  ⟨h.place, h.symbol⟩

/-- Marks make no difference to where tokens lie. -/
theorem Stream.Placed.of_unmarked {s s' : Stream} (h : Placed text s) (hs : s'.stop = s.stop)
    (ha : (Stream.ahead s').map unmarked =
      (Stream.ahead s).map unmarked ++ List.replicate n (ending s.stop)) :
    Placed text s' := by
  refine ⟨hs.trans h.stop, fun t ht => ?_⟩
  have hm : t.unmarked ∈ (Stream.ahead s').map unmarked := List.mem_map_of_mem ht
  rw [ha] at hm
  rcases List.mem_append.mp hm with hm | hm
  · obtain ⟨t', ht', heq⟩ := List.mem_map.mp hm
    have hl := h.ahead t' ht'
    exact .of_unmarked (heq ▸ ⟨hl.place, hl.symbol⟩)
  · refine .of_unmarked ?_
    rw [List.eq_of_mem_replicate hm, h.stop]
    exact ending_liesIn text

end Token

namespace Matcher

open Token (Stream)
open Token.Stream

variable {m : Matcher} {s s' : Stream} {c : Char}

/-- A match of a single symbol ends with it. All that was taken before is marked. -/
theorem run_sign (hs : m.sign? = some c) (hrun : m.run s = (true, s')) (hc : s.consumed = []) :
    ∃ before token, s'.taken = before ++ [token] ∧ token.isSymbol c = true ∧
      ∀ t ∈ before, t.discarded = true := by
  unfold sign? at hs
  split at hs
  · obtain rfl := Option.some.inj hs
    obtain ⟨hp, hs'⟩ := one_match (congrArg Prod.fst hrun)
    refine ⟨[], s.fetch.1, ?_, hp, by simp⟩
    have hs' : s' = s.fetch.2 := (congrArg Prod.snd hrun).symm.trans hs'
    rw [hs', Stream.taken, fetch_consumed, hc]
    rfl
  · rename_i body d
    obtain rfl := Option.some.inj hs
    rcases hb : run body s with ⟨ok, s₁⟩
    cases ok with
    | false => simp [run, hb] at hrun
    | true =>
      rcases hsym : one (·.isSymbol d) s₁.discard with ⟨ok, s₂⟩
      cases ok with
      | false => simp [run, hb, hsym] at hrun
      | true =>
        simp only [run, hb, hsym, Prod.mk.injEq, true_and] at hrun
        obtain ⟨hp, hs'⟩ := one_match (congrArg Prod.fst hsym)
        have hs' : s' = s₁.discard.fetch.2 :=
          hrun.symm.trans ((congrArg Prod.snd hsym).symm.trans hs')
        refine ⟨s₁.discard.taken, s₁.discard.fetch.1, ?_, hp, ?_⟩
        · rw [hs', Stream.taken, fetch_consumed, List.reverse_cons]
          rfl
        · intro t ht
          obtain ⟨t', _, rfl⟩ := List.mem_map.mp (List.mem_reverse.mp ht)
          rfl
  · cases hs

theorem takes_sign (hs : m.sign? = some c) : m.counted.takes (fun _ => true) = true := by
  unfold sign? at hs
  split at hs
  · rfl
  · rfl
  · cases hs

end Matcher

/-- A single token is the range, if all before it is marked. -/
theorem Mark.cover_last (mark : Mark) {before : List Token} (hb : ∀ t ∈ before, t.discarded = true)
    (ht : before = [] ∨ token.discarded = false) :
    (mark.cover (before ++ [token])).start = token.start ∧
      (mark.cover (before ++ [token])).stop = token.stop := by
  have hle := token.start_le_stop
  rcases ht with rfl | ht
  · cases hd : token.discarded <;> simp [cover, hd, hle]
  · have hdrop : (before ++ [token]).dropWhile Token.discarded = [token] := by
      rw [List.dropWhile_append_of_pos hb, List.dropWhile_cons_of_neg (by simp [ht])]
    simp [cover, hdrop, hle]

namespace Parser

open Token.Stream

variable {text : Text} {m : Matcher} {c : Char} {lead rest : List Token} {start : List Frame}
  {sign : Option Char} {first : Bool}

/-- The place of a match: its range lies between characters, and is the sign of the pattern if there
is one. Before the sign nothing was opened that goes beyond it. With `first`, nothing was reported
since. -/
structure Marked (text : Text) (sign : Option Char) (first : Bool) (p : Parser) : Prop where
  begins : Boundary text p.mark.start
  ends : Boundary text p.mark.stop
  symbol : ∀ c, sign = some c →
    HasAt text c p.mark.start ∧ p.mark.stop = p.mark.start + c.utf8Size
  opened : sign.isSome = true → ∀ frame stop, .push frame stop ∈ p.events → stop ≤ p.mark.start
  ended : first = true → sign.isSome = true → EndedBy p.mark.start p.events

theorem Accepted.placed (h : Accepted m limit pos pos' p p' lead rest)
    (hp : Placed text p.stream) : Placed text p'.stream := by
  obtain ⟨s, hf, rfl⟩ := h.found
  exact (hp.found hf).1

theorem Accepted.boundaries (h : Accepted m limit pos pos' p p' lead rest)
    (hp : Placed text p.stream) (hs : Boundary text p.mark.start)
    (he : Boundary text p.mark.stop) :
    Boundary text p'.mark.start ∧ Boundary text p'.mark.stop := by
  obtain ⟨s, hf, hp'⟩ := h.found
  have hlies := (hp.found hf).2
  rw [hf.taken] at hlies
  rw [h.mark_eq]
  by_cases hn : lead.map Token.discard ++ rest = []
  · rw [hn]
    exact ⟨hs, he⟩
  · obtain ⟨skipped, first, more, last, heq, hlast, _, hstart, hstop⟩ := p.mark.cover_split hn
    rw [heq] at hlies
    have hl : last ∈ first :: more := List.mem_of_getLast? hlast
    rw [heq, ← heq, hstart, hstop]
    refine ⟨(hlies first (by simp)).start, ?_⟩
    rcases Nat.le_total last.stop first.start with hle | hle
    · rw [Nat.max_eq_right hle]
      exact (hlies first (by simp)).start
    · rw [Nat.max_eq_left hle]
      exact (hlies last (List.mem_append_right _ hl)).stop

theorem Accepted.signed (h : Accepted m limit pos pos' p p' lead rest)
    (hpoised : Poised limit pos p.stream) (hp : Placed text p.stream) (hs : m.sign? = some c) :
    HasAt text c p'.mark.start ∧ p'.mark.stop = p'.mark.start + c.utf8Size ∧
      pos ≤ p'.mark.start := by
  obtain ⟨s, hrun, _, htaken⟩ := h.run
  obtain ⟨before, token, hsplit, hsym, hb⟩ := Matcher.run_sign hs hrun hpoised.consumed
  obtain ⟨s', hf, hp'⟩ := h.found
  have hlies := (hp.found hf).2
  have heq : lead.map Token.discard ++ rest = before ++ [token] := htaken.symm.trans hsplit
  have hn : lead ++ rest ≠ [] := by
    rintro hn
    obtain ⟨rfl, rfl⟩ := List.append_eq_nil_iff.mp hn
    simp at heq
  rw [hf.taken, heq] at hlies
  have htoken : token.kind = .symbol := Matcher.isSymbol_kind hsym
  have hkept : before = [] ∨ token.discarded = false := by
    cases before with
    | nil => exact .inl rfl
    | cons first before =>
      right
      cases hd : token.discarded with
      | false => rfl
      | true =>
        -- Behind the first token ahead only blanks are marked.
        obtain ⟨n, hall⟩ := hf.all
        have hlast : (lead ++ rest).getLast? = some token := by
          obtain ⟨t, ht, _⟩ := hf.takes (fun _ => true) (Matcher.takes_sign hs)
          have hne := List.ne_nil_of_mem ht
          have := congrArg List.getLast? heq
          rwa [List.getLast?_append_of_ne_nil _ hne, List.getLast?_concat,
            ← List.getLast?_append_of_ne_nil lead hne] at this
        have htail : token ∈ (lead ++ rest).tail := by
          have hlength := congrArg List.length heq
          rcases hlr : lead ++ rest with _ | ⟨a, _ | ⟨b, more⟩⟩
          · exact absurd hlr hn
          · have := congrArg List.length hlr
            simp only [List.length_append, List.length_map, List.length_cons,
              List.length_nil] at hlength this
            omega
          · rw [hlr, List.getLast?_cons_cons] at hlast
            exact List.mem_of_getLast? hlast
        have hblank := (hpoised.more hall).2.2 token (by
          rw [List.tail_append_of_ne_nil hn]
          exact List.mem_append_left _ htail) hd
        rw [htoken] at hblank
        cases hblank
  obtain ⟨hstart, hstop⟩ := p.mark.cover_last hb hkept
  obtain ⟨hat, hsize⟩ := (hlies token (by simp)).hasAt hsym
  have hmoved := (h.moved hn).1
  rw [h.mark_eq, heq, hstart] at hmoved ⊢
  rw [hstop]
  exact ⟨hat, hsize, hmoved⟩

theorem closings_size {kind : Construct} (hc : c ∈ kind.closings) : c.utf8Size = 1 := by
  cases kind <;> simp only [Construct.closings, List.mem_cons, List.not_mem_nil, or_false] at hc <;>
    rcases hc with rfl | rfl <;> rfl

theorem opening_size {kind : Construct} (hc : kind.opening? = some c) : c.utf8Size = 1 := by
  cases kind <;> simp only [Construct.opening?, Option.some.injEq, reduceCtorEq] at hc <;>
    subst hc <;> rfl

theorem Marked.later (h : Marked text sign first p) (hm : mark p' = p.mark)
    (hp : ∀ frame stop, .push frame stop ∈ p'.events → .push frame stop ∈ p.events) :
    Marked text sign false p' :=
  ⟨hm ▸ h.begins, hm ▸ h.ends, hm ▸ h.symbol,
    fun hs frame stop hf => hm ▸ h.opened hs frame stop (hp frame stop hf), nofun⟩

/-- After a match that opens something only its range is known. -/
theorem Marked.bare (h : Marked text sign first p) (hm : mark p' = p.mark) :
    Marked text none false p' :=
  ⟨hm ▸ h.begins, hm ▸ h.ends, nofun, nofun, nofun⟩

/-- The innermost frame may end with the mark. -/
theorem Marked.pop (h : Marked text sign first p) (hs : Story text start p.events p.stack)
    (hc : Action.mayClose sign first p.top.kind = true) :
    Story text start p.pop.events p.pop.stack := by
  unfold Parser.pop
  split
  · rename_i frame below rest hstack
    have htop : p.top = frame := by simp [top, hstack]
    rw [hstack] at hs
    rw [htop] at hc
    refine .pop hs h.ends (fun hn => ?_)
    simp only [Action.mayClose, Bool.and_eq_true, Bool.or_eq_true, List.isEmpty_iff, hn, false_or,
      Option.any_eq_true, decide_eq_true_eq] at hc
    obtain ⟨c, hsign, hmem, hfirst⟩ := hc
    obtain ⟨hat, hstop⟩ := h.symbol c hsign
    have hsome : sign.isSome = true := by simp [hsign]
    exact ⟨c, hmem, p.mark.start, by rw [hstop, closings_size hmem], hat, h.opened hsome,
      fun hd => h.ended (hfirst.resolve_right hd) hsome⟩
  · exact hs

theorem Marked.popMath (h : Marked text sign first p) (hs : Story text start p.events p.stack)
    (ha : Action.mayClose sign false .mathArguments = true)
    (hm : Action.mayClose sign false .math = true) :
    Story text start p.popMath.events p.popMath.stack := by
  have hpop (q : Parser) (hq : Marked text sign false q ∧ Story text start q.events q.stack)
      (hk : Action.mayClose sign false q.top.kind = true) :
      Marked text sign false q.pop ∧ Story text start q.pop.events q.pop.stack :=
    ⟨hq.1.later (pop_mark q) (fun _ _ => pop_pushes), hq.1.pop hq.2 hk⟩
  have hwhile (fuel : Nat) : ∀ q, Marked text sign false q ∧ Story text start q.events q.stack →
      Marked text sign false (popWhile .mathArguments fuel q) ∧
        Story text start (popWhile .mathArguments fuel q).events
          (popWhile .mathArguments fuel q).stack := by
    induction fuel with
    | zero => exact fun _ hq => hq
    | succ fuel ih =>
      intro q hq
      simp only [popWhile]
      split
      · rename_i hk
        exact ih q.pop (hpop q hq (hk ▸ ha))
      · exact hq
  have hw := hwhile p.stack.length p ⟨h.later rfl (fun _ _ hf => hf), hs⟩
  simp only [Parser.popMath]
  split
  · rename_i hk
    exact (hpop _ hw (hk ▸ hm)).2
  · exact hw.2

theorem Marked.push {kind : Construct} (h : Marked text sign first p)
    (hs : Story text start p.events p.stack) (hk : Knows start known p.stack)
    (hl : kind.isLeaf = false) (ho : Action.mayOpen kind known = true)
    (hb : kind.opening?.all (sign = some ·) = true) :
    Story text start (p.push kind).events (p.push kind).stack := by
  have hadmits (outer : Frame) (hout : outer ∈ p.stack.head?)
      (hn : outer.carried = false ∨ Construct.Nested (start.map Frame.kind)) :
      outer.kind.admits kind = true := by
    cases known with
    | nil => cases ho
    | cons known rest =>
      obtain ⟨below, hstack⟩ : ∃ below, p.stack = outer :: below := by
        cases hp : p.stack with
        | nil => simp [hp] at hout
        | cons o below => exact ⟨below, by simpa [hp] using hout⟩
      rw [hstack] at hk
      cases known with
      | none =>
        obtain ⟨⟨hc, hd⟩, _⟩ := hk
        rcases hn with hn | hn
        · rw [hc] at hn
          cases hn
        · exact absurd hn hd
      | some kind' => exact hk.1 ▸ ho
  refine .push hs rfl hl (fun outer hout => ⟨nofun, fun hn => hadmits outer hout (.inl hn)⟩)
    (fun hn outer hout => hadmits outer hout (.inr hn)) h.begins h.ends (fun c hc => ?_)
  have hc' : sign = some c := by
    have hc'' : kind.opening? = some c := hc
    simpa [hc''] using hb
  obtain ⟨hat, hstop⟩ := h.symbol c hc'
  exact ⟨hat, hstop.trans (by rw [opening_size hc])⟩

/-- Actions that fit what is known keep to the story. -/
theorem Marked.perform (h : Marked text sign first p) (hs : Story text start p.events p.stack)
    (hk : Knows start known p.stack) (hf : Action.fits sign first known actions = true) :
    Story text start (p.perform actions).events (p.perform actions).stack ∧
      Knows start (Action.leave known actions) (p.perform actions).stack := by
  induction actions generalizing p sign first known with
  | nil =>
    rw [Action.leave]
    exact ⟨hs, hk⟩
  | cons action rest ih =>
    cases action with
    | push kind =>
      simp only [Action.fits, Bool.and_eq_true, Bool.not_eq_true'] at hf
      obtain ⟨⟨⟨hl, ho⟩, hb⟩, hrest⟩ := hf
      exact ih (h.bare rfl) (h.push hs hk hl ho hb) ⟨rfl, hk⟩ hrest
    | pop =>
      rcases known with _ | ⟨_ | kind, known⟩
      · cases hf
      · cases hf
      · simp only [Action.fits, Bool.and_eq_true] at hf
        obtain ⟨hc, hrest⟩ := hf
        exact ih (h.later (pop_mark p) (fun _ _ => pop_pushes)) (h.pop hs (hk.top ▸ hc)) hk.pop
          hrest
    | popMath =>
      simp only [Action.fits, Bool.and_eq_true] at hf
      obtain ⟨⟨ha, hm⟩, hrest⟩ := hf
      have hlater : Marked text sign false p.popMath :=
        h.later (act_mark p .popMath) (fun frame stop =>
          popMath_induction (P := fun q => .push frame stop ∈ q.events → .push frame stop ∈ p.events)
            (fun _ hq hf => hq (pop_pushes hf)) id)
      exact ih hlater (h.popMath hs ha hm) trivial hrest
    | instant kind =>
      simp only [Action.fits, Bool.and_eq_true, Bool.or_eq_true, bne_iff_ne, ne_eq,
        decide_eq_true_eq] at hf
      obtain ⟨⟨hl, hd⟩, hrest⟩ := hf
      refine ih (h.later rfl fun _ _ hf => (List.mem_cons.mp hf).resolve_left (by simp))
        (.instant hs rfl hl h.begins h.ends fun hk => ?_) hk hrest
      obtain ⟨hat, hstop⟩ := h.symbol '$' (hd.resolve_left (not_not_intro hk))
      exact ⟨hat, hstop⟩
    | startContent =>
      simp only [Action.fits] at hf
      exact ih (h.later rfl fun _ _ hf => hf) hs hk hf

/-- What was reported is a story of the text. -/
structure Told (text : Text) (start : List Frame) (p : Parser) : Prop where
  placed : Placed text p.stream
  begins : Boundary text p.mark.start
  ends : Boundary text p.mark.stop
  story : Story text start p.events p.stack

namespace Told

theorem tried (h : Told text start p) (hpoised : Poised limit pos p.stream)
    (ht : Tried limit pos ms p p') : Told text start p' := by
  refine ⟨?_, ht.mark ▸ h.begins, ht.mark ▸ h.ends, ?_⟩
  · obtain ⟨n, hn⟩ := ht.unmarked
    exact h.placed.of_unmarked (ht.poised.stop.trans hpoised.stop.symm) (hpoised.stop.symm ▸ hn)
  · rw [ht.events, ht.stack]
    exact h.story

theorem accepted (h : Told text start p) (ha : Accepted m limit pos pos' p p' lead rest) :
    Told text start p' := by
  obtain ⟨hfirst, hlast⟩ := ha.boundaries h.placed h.begins h.ends
  refine ⟨ha.placed h.placed, hfirst, hlast, ?_⟩
  rw [ha.kept.1, ha.kept.2.1]
  exact h.story

theorem marked (h : Told text start p) (hr : Ready limit start pos p)
    (ha : Accepted m limit pos pos' p p' lead rest) : Marked text m.sign? true p' := by
  obtain ⟨hfirst, hlast⟩ := ha.boundaries h.placed h.begins h.ends
  have hended (hs : m.sign?.isSome = true) : EndedBy p'.mark.start p'.events := by
    obtain ⟨c, hc⟩ := Option.isSome_iff_exists.mp hs
    rw [ha.kept.1]
    exact hr.ended.mono (ha.signed hr.poised h.placed hc).2.2
  refine ⟨hfirst, hlast, fun c hc => ?_, fun hs _ _ hf => hended hs _ hf, fun _ => hended⟩
  obtain ⟨hat, hstop, _⟩ := ha.signed hr.poised h.placed hc
  exact ⟨hat, hstop⟩

theorem perform (h : Told text start p) (hs : Story text start (p.perform actions).events
    (p.perform actions).stack) : Told text start (p.perform actions) := by
  refine ⟨?_, ?_, ?_, hs⟩
  · rw [perform_stream]
    exact h.placed
  · rw [perform_mark]
    exact h.begins
  · rw [perform_mark]
    exact h.ends

/-- The two innermost frames are as they may be. -/
theorem surroundings (h : Told text start p) (hr : Rooted p) :
    ∃ known ∈ Rule.surroundings p.top.kind, Knows start known p.stack := by
  obtain ⟨below, hs⟩ := hr.stack_eq
  cases below with
  | nil =>
    have hroot : p.top = Frame.root := by
      rw [Rooted, hs, List.getLast?_singleton, Option.some.injEq] at hr
      exact hr
    refine ⟨[some p.top.kind], ?_, ?_⟩
    · simp [Rule.surroundings, hroot, Frame.root, Frame.carriedOver]
    · rw [hs]
      exact ⟨rfl, trivial⟩
  | cons outer below =>
    have hnests : p.top.StandsOn outer := by
      have hn := h.story.nested
      rw [hs] at hn
      exact (List.isChain_cons_cons.mp hn).1
    by_cases ha : outer.kind.admits p.top.kind = true
    · refine ⟨[some p.top.kind, some outer.kind], ?_, ?_⟩
      · have hall : outer.kind ∈ Construct.all := by cases outer.kind <;> decide
        simp [Rule.surroundings, ha, hall]
      · rw [hs]
        exact ⟨rfl, rfl, trivial⟩
    · refine ⟨[some p.top.kind, none], by simp [Rule.surroundings], ?_⟩
      have hc : outer.carried = true := by
        cases hc : outer.carried with
        | true => rfl
        | false => exact absurd (hnests.2 hc) ha
      have hd : ¬ Construct.Nested (start.map Frame.kind) := by
        intro hn
        have hn := h.story.nested_kinds hn
        rw [hs] at hn
        exact ha (List.isChain_cons_cons.mp hn).1
      rw [hs]
      exact ⟨rfl, ⟨hc, hd⟩, trivial⟩

theorem pop (h : Told text start p) (hm : Marked text sign first p)
    (hc : Action.mayClose sign first p.top.kind = true) : Told text start p.pop := by
  refine ⟨?_, ?_, ?_, hm.pop h.story hc⟩
  · rw [pop_stream]
    exact h.placed
  · rw [pop_mark]
    exact h.begins
  · rw [pop_mark]
    exact h.ends

/-- What may come after a match whose actions have been taken. -/
theorem proceeds (h : Told text start p) (hr : Ready limit start pos p)
    (hk : Knows start known p.stack)
    (hother : Action.fits none false known rule.otherwise = true)
    (hnext : ∀ next ∈ rule.continuations, Rule.mayFollow next known = true →
      Action.fits next.pattern.sign? true known next.actions = true)
    (hp : Proceeds limit pos rule p p') : Told text start p' := by
  cases hp with
  | onward next listed p₁ p₂ ms plain ht ha result outside =>
    have h₁ := h.tried hr.poised ht
    have h₂ := h₁.accepted ha
    have hmay : Rule.mayFollow next known = true := by
      rcases known with _ | ⟨_ | kind, known⟩
      · rfl
      · rfl
      · rw [hk.top] at outside
        cases ho : next.outsideCode <;> simp [Rule.mayFollow, ho]
        exact outside ho
    have hk' : Knows start known p₂.stack := by rwa [ha.kept.2.1, ht.stack]
    rw [result]
    exact h₂.perform ((h₁.marked (hr.tried ht) ha).perform h₂.story hk' (hnext next listed hmay)).1
  | otherwise p₁ ms plain ht result =>
    have h₁ := h.tried hr.poised ht
    have hm : Marked text none false p₁ := ⟨h₁.begins, h₁.ends, nofun, nofun, nofun⟩
    rw [result]
    exact h₁.perform (hm.perform h₁.story (by rwa [ht.stack]) hother).1

theorem follow (h : Told text start p) (hr : Ready limit start pos p)
    (ha : Accepted rule.pattern limit pos pos' p p' lead rest) (hs : rule.sound = true)
    (hf : rule.fitting p.top.kind = true)
    (hm : rule.pattern.moves = true ∨ rule.ends = true) : Told text start (p'.follow rule) := by
  have h' := h.accepted ha
  obtain ⟨known, hlisted, hk⟩ := h.surroundings hr.rooted
  have hfits := List.all_eq_true.mp hf known hlisted
  simp only [Bool.and_eq_true, List.all_eq_true, Bool.or_eq_true, Bool.not_eq_true'] at hfits
  obtain ⟨⟨hown, hother⟩, hnext⟩ := hfits
  rw [← ha.kept.2.1] at hk
  obtain ⟨hstory, hleave⟩ := (h.marked hr ha).perform h'.story hk hown
  rcases hm with hm | hends
  · cases follow_cases hs ha.poised with
    | short _ result =>
      rw [result]
      exact h'
    | full hp =>
      have hacc : Rule.accords rule.pattern rule.actions = true := by
        simp only [Rule.sound, Bool.and_eq_true] at hs
        exact hs.1.1
      refine (h'.perform hstory).proceeds (hr.performed ha hm hacc).ready hleave hother ?_ hp
      exact fun next hn hmay => (hnext next hn).resolve_left (by simp [hmay])
  · rw [follow_ends p' hends]
    have h'' := h'.perform hstory
    rwa [(Rule.ends_of hends).actions] at h''

theorem takeLoose (h : Told text start p) (hr : Rooted p) :
    Told text start (p.takeLoose p.top) := by
  obtain ⟨hlies, hplaced⟩ := h.placed.fetch
  obtain ⟨below, hs⟩ := hr.stack_eq
  rcases hf : p.stream.fetch with ⟨token, after⟩
  rw [hf] at hlies hplaced
  obtain ⟨hstart, hstop⟩ := p.mark.cover_last (List.forall_mem_nil _) (.inl (Eq.refl []))
  have hstory : Story text start (.loose token p.top :: p.events) p.stack := by
    rw [hs]
    exact .loose (hs ▸ h.story) hlies
  refine ⟨?_, ?_, ?_, ?_⟩
  · simpa only [Parser.takeLoose, hf, report] using hplaced
  · simp only [Parser.takeLoose, hf, report]
    split
    · exact h.begins
    · rw [List.nil_append] at hstart
      exact hstart ▸ hlies.start
  · simp only [Parser.takeLoose, hf, report]
    split
    · exact h.ends
    · rw [List.nil_append] at hstop
      exact hstop ▸ hlies.stop
  · simpa only [Parser.takeLoose, hf, report] using hstory

end Told

theorem ofText_told (text : Text) (carried : List Construct) :
    Told text (Frame.around carried) (ofText text carried) :=
  ⟨Token.Stream.ofText_placed text, Text.boundary_zero text, Text.boundary_zero text,
    .nil (Frame.forall_mem_around ⟨rfl, rfl⟩ (fun _ _ => ⟨rfl, rfl⟩))⟩

theorem step_told (h : Told text start p) (hr : Steady limit start pos p) :
    Told text start p.step := by
  cases step_round hr.poised with
  | line kind p₁ ha acs result =>
    have hpop : Told text start p₁.pop := by
      refine (h.accepted ha).pop (h.marked hr.toReady ha) ?_
      have htop : p₁.top = p.top := by simp only [top, ha.kept.2.1]
      rw [htop]
      revert kind
      cases p.top.kind <;> decide
    rw [result]
    exact ⟨hpop.placed, hpop.begins, hpop.ends, hpop.story⟩
  | rule acs rule listed p₁ p₂ ms ht plain ha result =>
    have hmoves := Rule.within_moves p.top.kind acs rule listed
    rw [Bool.or_eq_true, Bool.and_eq_true] at hmoves
    rw [result]
    exact (h.tried hr.poised ht).follow (hr.toReady.tried ht) ha
      (Rule.within_sound _ _ rule listed) (ht.top ▸ Rule.within_fitting _ _ rule listed)
      (hmoves.imp_right And.right)
  | loose acs p₁ p₂ ms ht plain unmatched ht' result =>
    have htop : p₂.top = p.top := ht'.top.trans ht.top
    have hr₁ := hr.toReady.tried ht
    rw [result, ← htop]
    exact ((h.tried hr.poised ht).tried hr₁.poised ht').takeLoose (hr₁.tried ht').rooted

theorem rounds_told (h : Told text start p) (hr : Steady limit start pos p) (fuel : Nat) :
    Told text start (rounds fuel p) := by
  induction fuel generalizing pos p with
  | zero => exact h
  | succ fuel ih =>
    simp only [rounds]
    split
    · exact h
    · obtain ⟨pos', _, hs⟩ := step_steady hr
      exact ih (step_told h hr) hs

end Parser

namespace Parse

/-- What is reported of a text, up to the frames that are open at its end. -/
theorem reported (text : Text) (carried : List Construct) :
    ∃ stack, Reported text (Frame.around carried) (ofText text carried).events.reverse stack ∧
      EndedBy text.size (ofText text carried).events.reverse ∧
      (ofText text carried).report true =
        (ofText text carried).events ++ stack.map (fun f => .pop f text.size true) := by
  let parser := Parser.ofText text carried
  have hs := Parser.ofText_steady text carried
  have ht := Parser.rounds_told (Parser.ofText_told text carried) hs parser.roundLimit
  obtain ⟨pos, hs⟩ := Parser.rounds_steady hs parser.roundLimit
  refine ⟨(parser.rounds parser.roundLimit).stack, ⟨?_, ?_⟩, ?_, ?_⟩
  · simpa [ofText] using hs.trace
  · simpa [ofText] using ht.story
  · simpa [ofText] using hs.ended.mono hs.poised.tiles.le
  · simp [report, ofText, parser, -List.map_append]

end Parse

end LineMarkup
