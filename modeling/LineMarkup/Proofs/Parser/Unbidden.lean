import LineMarkup.Proofs.Parser.Bracketing
import LineMarkup.Proofs.Parser.Steady
import LineMarkup.Proofs.Token.Numbered

namespace LineMarkup

open Matcher (Peg isSymbol_kind isSymbol_unique)
open Token (endless endless_genuine endless_lt le_length_of_isSymbol)

namespace Trace

variable {limit stop : Nat} {start stack : List Frame} {es : List Event} {f : Frame}

theorem instant_filled (h : Trace limit start es stack) (hm : .instant f stop ∈ es) :
    f.start < stop := by
  induction h with
  | nil => cases hm
  | instant _ hfilled _ ih =>
    rcases List.mem_cons.mp hm with heq | hm
    · obtain ⟨rfl, rfl⟩ := Event.instant.inj heq
      exact hfilled
    · exact ih hm
  | push _ _ _ _ _ ih | pop _ _ _ _ ih | loose _ _ ih =>
    exact ih ((List.mem_cons.mp hm).resolve_left (by simp))

theorem pop_filled (h : Trace limit start es stack) (hm : .pop f stop implicit ∈ es)
    (hk : f.kind.lapses = false) (hlimit : limit ≠ 0) : f.start < stop := by
  induction h with
  | nil => cases hm
  | pop _ _ hfilled _ ih =>
    rcases List.mem_cons.mp hm with heq | hm
    · obtain ⟨rfl, rfl, _⟩ := Event.pop.inj heq
      simpa [hk, hlimit] using hfilled
    · exact ih hm
  | push _ _ _ _ _ ih | instant _ _ _ ih | loose _ _ ih =>
    exact ih ((List.mem_cons.mp hm).resolve_left (by simp))

end Trace

namespace Parser

variable {text : Text} {p p' : Parser} {f : Frame} {actions : List Action} {stop : Nat}
  {implicit : Bool}

theorem pop_pop (h : .pop f stop implicit ∈ (pop p).events) :
    .pop f stop implicit ∈ p.events ∨ f = p.top ∧ stop = p.mark.stop := by
  unfold pop at h
  split at h
  · rename_i hs
    rcases List.mem_cons.mp h with heq | h
    · obtain ⟨rfl, rfl, _⟩ := Event.pop.inj heq
      exact .inr ⟨by simp [top, hs], rfl⟩
    · exact .inl h
  · exact .inl h

theorem pop_instant (h : .instant f stop ∈ (pop p).events) : .instant f stop ∈ p.events := by
  unfold pop at h
  split at h
  · exact (List.mem_cons.mp h).resolve_left (by simp)
  · exact h

/-- A dollar sign closes no argument. -/
theorem popMath_pop (hk : f.kind.isArgument = true)
    (h : .pop f stop implicit ∈ (popMath p).events) : .pop f stop implicit ∈ p.events := by
  have hold (q : Parser) (hq : q.top.kind.isArgument = false)
      (h : .pop f stop implicit ∈ q.pop.events) : .pop f stop implicit ∈ q.events := by
    refine (pop_pop h).resolve_right ?_
    rintro ⟨rfl, _⟩
    simp [hk] at hq
  have hwhile (fuel : Nat) : ∀ q, .pop f stop implicit ∈ (popWhile .mathArguments fuel q).events →
      .pop f stop implicit ∈ q.events := by
    induction fuel with
    | zero => exact fun _ h => h
    | succ fuel ih =>
      intro q h
      simp only [popWhile] at h
      split at h
      · rename_i hq
        exact hold q (by rw [hq]; rfl) (ih q.pop h)
      · exact h
  simp only [popMath] at h
  split at h
  · rename_i hq
    exact hwhile _ p (hold _ (by rw [hq]; rfl) h)
  · exact hwhile _ p h

theorem perform_instant (h : .instant f stop ∈ (p.perform actions).events) :
    .instant f stop ∈ p.events ∨ .instant f.kind ∈ actions ∧ stop = p.mark.stop := by
  refine (perform_induction (p := p) (P := fun q => q.mark = p.mark ∧
    (.instant f stop ∈ q.events → .instant f stop ∈ p.events ∨
      .instant f.kind ∈ actions ∧ stop = p.mark.stop))
    (fun action hm q ⟨hmark, hq⟩ => ⟨(act_mark q action).trans hmark, fun h => ?_⟩)
    ⟨rfl, .inl⟩).2 h
  cases action with
  | push => exact hq ((List.mem_cons.mp h).resolve_left (by simp))
  | pop => exact hq (pop_instant h)
  | instant kind =>
    rcases List.mem_cons.mp h with heq | h
    · obtain ⟨rfl, rfl⟩ := Event.instant.inj heq
      exact .inr ⟨hm, by rw [hmark]⟩
    · exact hq h
  | startContent => exact hq h
  | popMath =>
    exact hq (popMath_induction
      (P := fun r => .instant f stop ∈ r.events → .instant f stop ∈ q.events)
      (fun _ hr h => hr (pop_instant h)) id h)

/-- An argument that actions close is the innermost construct. -/
theorem perform_pop (ha : Action.popsTop actions = true) (hk : f.kind.isArgument = true)
    (h : .pop f stop implicit ∈ (p.perform actions).events) :
    .pop f stop implicit ∈ p.events ∨ .pop ∈ actions ∧ f = p.top ∧ stop = p.mark.stop := by
  unfold Action.popsTop at ha
  split at ha
  · exact (pop_pop h).imp_right fun hpop => ⟨by simp, hpop⟩
  · rename_i kind
    have h : .pop f stop implicit ∈ (p.instant kind).pop.events := h
    refine (pop_pop h).imp (fun h => ?_) fun hpop => ⟨by simp, hpop⟩
    exact (List.mem_cons.mp h).resolve_left (by simp)
  · left
    refine perform_induction (P := fun q => .pop f stop implicit ∈ q.events →
      .pop f stop implicit ∈ p.events) (fun action hm q hq h => hq ?_) id h
    cases action with
    | push | instant => exact (List.mem_cons.mp h).resolve_left (by simp)
    | pop => simp [hm] at ha
    | startContent => exact h
    | popMath => exact popMath_pop hk h

theorem popsTop_of_not_mem (h : .pop ∉ actions) : Action.popsTop actions = true := by
  unfold Action.popsTop
  split <;> simp_all

end Parser

/-- Nothing before token `i` asks for the bracket `c` there: no name whose call it would begin, no
argument that it would follow, and no hash where code may begin. The events `es` have been reported
so far, and `top` is the innermost frame. -/
structure Unbidden (text : Text) (i : Nat) (c : Char) (es : List Event) (top : Frame) : Prop where
  name : c ≠ '\x7b' → ∀ f, .instant f (endless text i).start ∈ es → f.kind.isName = true →
    top.kind.holdsCode = true
  argument : c = '[' → ∀ f implicit, .pop f (endless text i).start implicit ∈ es →
    f.kind.isArgument = true → ∃ k, i = k + 1 ∧ (endless text k).isSymbol ';' = true
  hash : ∀ k, i = k + 1 → (endless text k).isSymbol '#' = true →
    top.kind.holdsContent = false ∧ top.kind.holdsMath = false ∧ top.kind.isChain = false ∧
      ∃ token rest, es = .loose token top :: rest ∧ token.unmarked = endless text k

namespace Parser

variable {text : Text} {start : List Frame} {p p' q : Parser} {c : Char} {i j k l pos : Nat}
  {rule : Rule} {acs : Bool}

/-- What was met or closed before did not end right before a token farther ahead. -/
theorem Steady.late (hs : Steady text.size start pos p) (hp : Coming text k p)
    (hi : (endless text i).isSymbol c = true) (hki : k < i) :
    (∀ f, .instant f (endless text i).start ∉ p.events) ∧
      ∀ f implicit, f.kind.isArgument = true →
        .pop f (endless text i).start implicit ∉ p.events := by
  have hpos : pos = (endless text k).start := hs.poised.tiles.start_unique hp.poised.tiles
  have hnone {e : Event} (he : e ∈ p.events) (hstop : e.stop = (endless text i).start) :
      e.stop = 0 := by
    have hle := hs.ended e he
    rcases Nat.eq_zero_or_pos k with rfl | hk
    · have : (endless text 0).start = 0 := rfl
      omega
    · have := endless_lt hi hk hki
      omega
  have hsize : text.size ≠ 0 := by
    intro hsize
    have hlength := le_length_of_isSymbol hi
    rw [Text.size_eq_zero hsize, Token.scan, List.length_nil] at hlength
    omega
  refine ⟨fun f hm => ?_, fun f implicit hk hm => ?_⟩
  · have hfilled := hs.trace.instant_filled hm
    have hzero : (endless text i).start = 0 := hnone hm rfl
    omega
  · have hlapses : f.kind.lapses = false := by
      revert hk
      cases f.kind <;> simp [Construct.isArgument, Construct.lapses]
    have hfilled := hs.trace.pop_filled hm hlapses hsize
    have hzero : (endless text i).start = 0 := hnone hm rfl
    omega

/-- A rule of a round that takes something has taken something with its pattern. -/
theorem Matched.advances (hm : Matched text rule.pattern k j p p') (hb : rule.Blunt inside)
    (hr : Resumed text rule j q p'' l) (hkl : k < l) : k < j := by
  cases hr with
  | onward next listed => exact hb.lt_of_next hm.reads listed
  | otherwise => exact hkl

theorem perform_top_meets (h : Action.meets actions = true) : (p.perform actions).top = p.top := by
  unfold Action.meets at h
  split at h
  · rfl
  · cases h

/-- Where nothing follows a match, at most a chain is closed. -/
theorem Matched.otherwise (hm : Matched text rule.pattern k j p p')
    (hb : rule.Blunt p.top.kind) : rule.otherwise = [] ∨
      rule.otherwise = [.pop] ∧ (p'.perform rule.actions).top.kind.isChain = true := by
  refine hb.otherwise.imp_right fun hbroken => ⟨hbroken.2.1, ?_⟩
  rw [perform_top_meets hbroken.2.2, hm.top]
  exact hbroken.1

theorem Resumed.lt_of_onward {next : Continuation} (hb : rule.Blunt inside)
    (hl : next ∈ rule.continuations) (hm : Matched text next.pattern j l p p') :
    next.Onward ∧ j < l := by
  have honward := hb.onward next hl
  obtain ⟨n, hlow, hhigh, _⟩ := hm.reads.takes honward.takes
  exact ⟨honward, Nat.lt_of_le_of_lt hlow hhigh⟩

/-- A bracket that always continues a rule has not come next. -/
theorem not_isSymbol_of_missed (h : rule.continuations.any (Continuation.always c) = true)
    (hm : ∀ next ∈ rule.continuations, next.outsideCode = false →
      Peg (endless text) next.pattern k none) : (endless text k).isSymbol c = false := by
  obtain ⟨next, hnext, halways⟩ := List.any_eq_true.mp h
  simp only [Continuation.always, Bool.and_eq_true, Bool.not_eq_true'] at halways
  have hmiss := hm next hnext halways.2
  rw [Matcher.eq_of_isLone halways.1] at hmiss
  exact hmiss.not_isSymbol

section Arrival

variable (hs : Steady text.size start pos p) (hp : Coming text k p) (hki : k < i)
  (hi : (endless text i).isSymbol c = true) (h : Turn text k p p' i)

include hs hp hki hi h

/-- Behind a name the bracket of a call has been taken, or it is for the next round of code. -/
theorem Turn.name_called (hc : c = '(' ∨ c = '[') {f : Frame}
    (hm : .instant f (endless text i).start ∈ p'.events) (hk : f.kind.isName = true) :
    p'.top.kind.holdsCode = true := by
  have hlate := (hs.late hp hi hki).1 f
  cases h with
  | line _ p₁ hmatched acs result =>
    rw [result] at hm
    exact absurd (hmatched.events ▸ pop_instant hm) hlate
  | short _ _ _ hmatched => exact absurd (hmatched.events ▸ hm) hlate
  | loose _ _ _ _ events =>
    rw [events] at hm
    exact absurd ((List.mem_cons.mp hm).resolve_left (by simp)) hlate
  | @rule j _ acs n rule listed missed p₁ hmatched hr =>
    have hmem := List.mem_of_getElem? listed
    have hb := Rule.within_blunt acs rule hmem
    have hkj := hmatched.advances hb hr hki
    cases hr with
    | onward next hnext p₂ hmatched' result =>
      obtain ⟨honward, hji⟩ := Resumed.lt_of_onward hb hnext hmatched'
      have hlt := endless_lt hi (by omega) hji
      rw [result] at hm
      rcases perform_instant hm with hm | ⟨hm, _⟩
      · rw [hmatched'.events] at hm
        rcases perform_instant hm with hm | ⟨_, hstop⟩
        · exact absurd (hmatched.events ▸ hm) hlate
        · rw [hmatched.mark hkj] at hstop
          omega
      · have hnameless := honward.nameless
        rw [Action.namesNothing, List.all_eq_true] at hnameless
        simpa [hk] using hnameless _ hm
    | otherwise hmissed p₂ hpassed result =>
      rw [result] at hm
      rcases perform_instant hm with hm | ⟨hm, _⟩
      · rw [hpassed.events] at hm
        rcases perform_instant hm with hm | ⟨hm, _⟩
        · exact absurd (hmatched.events ▸ hm) hlate
        have hkind : f.kind = .codeVariable ∨ f.kind = .codeFunction := by
          revert hk
          cases f.kind <;> simp [Construct.isName]
        rcases hkind with hkind | hkind <;> rw [hkind] at hm
        · have hmissed : (endless text i).isSymbol '(' = false ∧
              (endless text i).isSymbol '[' = false := by
            have hreads := hmatched.reads
            rcases Rule.within_variable acs listed hm with ⟨heq, r, hr, hguard⟩ | ⟨heq, r, hr, hguard⟩
            · rw [heq] at hreads
              exact hreads.name_uncalled (hguard ▸ missed r hr)
            · rw [heq] at hreads
              have hguarded := missed r hr
              rw [hguard] at hguarded
              cases hreads with | seq hhash hname =>
              cases hguarded with
              | seq hhash' hcall =>
                obtain rfl := Option.some.inj (hhash.unique hhash')
                exact hname.name_uncalled hcall
              | seqMiss hhash' => cases hhash.unique hhash'
          rcases hc with rfl | rfl <;> simp [hi] at hmissed
        · have hcalls := Rule.within_function acs rule hmem hm
          simp only [Rule.callsOn, Bool.or_eq_true, Bool.and_eq_true, beq_iff_eq,
            List.isEmpty_iff] at hcalls
          rcases hcalls with ⟨hopening, hblock⟩ | ⟨⟨hcode, hactions⟩, hother⟩
          · rcases hc with rfl | rfl
            · simp [not_isSymbol_of_missed hopening hmissed] at hi
            · simp [not_isSymbol_of_missed hblock hmissed] at hi
          · have htop : p'.top = p.top := by
              rw [result, hother]
              simp only [top, perform, List.foldl_nil, hpassed.stack, hactions, List.foldl_cons,
                act, instant, report, hmatched.stack]
            rwa [htop]
      · rcases hb.otherwise with hother | ⟨_, hother, _⟩ <;> simp [hother] at hm

/-- Behind an argument a square bracket has been taken, but not behind a semicolon. -/
theorem Turn.argument_continued (hc : c = '[') {f : Frame} {implicit : Bool}
    (hm : .pop f (endless text i).start implicit ∈ p'.events) (hk : f.kind.isArgument = true) :
    ∃ k, i = k + 1 ∧ (endless text k).isSymbol ';' = true := by
  have hlate := (hs.late hp hi hki).2 f implicit hk
  cases h with
  | line hends p₁ hmatched acs result =>
    rw [result] at hm
    rcases pop_pop hm with hm | ⟨rfl, _⟩
    · exact absurd (hmatched.events ▸ hm) hlate
    · rw [hmatched.top] at hk
      revert hk hends
      cases p.top.kind <;> simp [Construct.isArgument, Construct.endsWithLine]
  | short _ _ _ hmatched => exact absurd (hmatched.events ▸ hm) hlate
  | loose _ _ _ _ events =>
    rw [events] at hm
    exact absurd ((List.mem_cons.mp hm).resolve_left (by simp)) hlate
  | @rule j _ acs n rule listed missed p₁ hmatched hr =>
    have hmem := List.mem_of_getElem? listed
    have hb := Rule.within_blunt acs rule hmem
    have hkj := hmatched.advances hb hr hki
    cases hr with
    | onward next hnext p₂ hmatched' result =>
      obtain ⟨honward, hji⟩ := Resumed.lt_of_onward hb hnext hmatched'
      have hlt := endless_lt hi (by omega) hji
      rw [result] at hm
      rcases perform_pop (popsTop_of_not_mem honward.popless) hk hm with hm | ⟨hm, _⟩
      · rw [hmatched'.events] at hm
        rcases perform_pop hb.popsTop hk hm with hm | ⟨_, _, hstop⟩
        · exact absurd (hmatched.events ▸ hm) hlate
        · rw [hmatched.mark hkj] at hstop
          omega
      · exact absurd hm honward.popless
    | otherwise hmissed p₂ hpassed result =>
      have hother := hmatched.otherwise hb
      have hpops : Action.popsTop rule.otherwise = true := by
        rcases hother with hother | ⟨hother, _⟩ <;> rw [hother] <;> rfl
      rw [result] at hm
      rcases perform_pop hpops hk hm with hm | ⟨hpop, rfl, _⟩
      · rw [hpassed.events] at hm
        rcases perform_pop hb.popsTop hk hm with hm | ⟨hpop, rfl, _⟩
        · exact absurd (hmatched.events ▸ hm) hlate
        · rw [hmatched.top] at hk
          have htakes := Rule.within_argument acs hk rule hmem hpop
          simp only [Rule.takesBlock, Bool.or_eq_true] at htakes
          rcases htakes with hlone | hblock
          · have hreads := hmatched.reads
            rw [Matcher.eq_of_isLone hlone] at hreads
            cases hreads with
            | symbol hsemicolon => exact ⟨k, rfl, hsemicolon⟩
          · rw [hc] at hi
            simp [not_isSymbol_of_missed hblock hmissed] at hi
      · rcases hother with hother | ⟨_, hchain⟩
        · simp [hother] at hpop
        · -- What is closed in the end is a chain, and no argument.
          rw [hpassed.top] at hk
          revert hk hchain
          cases (p₁.perform rule.actions).top.kind <;>
            simp [Construct.isArgument, Construct.isChain]

omit hs hp in
/-- A hash right before a bracket is loose, and code may not begin there. -/
theorem Turn.hash_loose (hc : c ∈ brackets) (hik : i = n + 1)
    (hhash : (endless text n).isSymbol '#' = true) :
    p'.top = p.top ∧ p'.top.kind.holdsContent = false ∧ p'.top.kind.holdsMath = false ∧
      p'.top.kind.isChain = false ∧
      ∃ token rest, p'.events = .loose token p'.top :: rest ∧
        token.unmarked = endless text n := by
  have hkn : k ≤ n := by omega
  cases h with
  | line _ _ hmatched =>
    have hreads := hmatched.reads
    generalize hj : some i = r at hreads
    cases hreads with
    | kind hkind =>
      obtain rfl : n = k := by
        have := Option.some.inj hj
        omega
      rw [isSymbol_kind hhash] at hkind
      cases hkind
    | kindMiss => cases hj
  | short acs rule listed hmatched =>
    have hends := Peg.endsIn (hik ▸ hmatched.reads) hkn hhash
    simp [(Rule.within_blunt acs rule listed).hashless] at hends
  | @rule j _ acs n' rule listed missed p₁ hmatched hr =>
    have hmem := List.mem_of_getElem? listed
    have hb := Rule.within_blunt acs rule hmem
    cases hr with
    | onward next hnext p₂ hmatched' _ =>
      obtain ⟨honward, hji⟩ := Resumed.lt_of_onward hb hnext hmatched'
      have hends := Peg.endsIn (hik ▸ hmatched'.reads) (by omega) hhash
      simp [honward.hashless] at hends
    | otherwise _ _ _ _ =>
      have hends := Peg.endsIn (hik ▸ hmatched.reads) hkn hhash
      simp [hb.hashless] at hends
  | loose acs missed token same events stack =>
    obtain rfl : n = k := by omega
    have htop : p'.top = p.top := by simp only [top, stack]
    have hcode : (p.top.kind.holdsContent || p.top.kind.holdsMath) = false := by
      rw [Bool.eq_false_iff]
      intro hholds
      obtain ⟨rule, hrule, hhashed⟩ := Rule.within_hashed hc acs hholds
      have hmiss := missed rule hrule
      rw [Matcher.eq_of_isHashed hhashed] at hmiss
      have hhit : Peg (endless text) (.seq (.discard (.symbol '#')) (.symbol c)) n (some (n + 2)) :=
        .seq (.discard (.symbol hhash)) (.symbol hi)
      cases hmiss.unique hhit
    have hchain : p.top.kind.isChain = false := by
      rw [Bool.eq_false_iff]
      intro hchain
      cases missed _ (Rule.within_chain acs hchain)
    rw [Bool.or_eq_false_iff] at hcode
    rw [htop]
    exact ⟨rfl, hcode.1, hcode.2, hchain, token, p.events, events, same⟩

theorem Turn.unbidden (hc : c ∈ brackets) : Unbidden text i c p'.events p'.top := by
  refine ⟨fun hbrace f hm hk => ?_, fun hsquare f implicit hm hk => ?_, fun n hn hhash => ?_⟩
  · have hround : c = '(' ∨ c = '[' := by
      simpa [brackets, hbrace] using hc
    exact Turn.name_called hs hp hki hi h hround hm hk
  · exact Turn.argument_continued hs hp hki hi h hsquare hm hk
  · exact (Turn.hash_loose hki hi h hc hn hhash).2

end Arrival

/-- A round at a bracket that takes nothing ends a chain or a link. -/
theorem Turn.unbidden_still (h : Turn text i p p' i) (hi : (endless text i).isSymbol c = true)
    (hc : c ∈ brackets) (hu : Unbidden text i c p.events p.top) :
    Unbidden text i c p'.events p'.top := by
  cases h with
  | line _ _ hmatched =>
    have hlt := hmatched.reads.takes (q := fun _ => true) rfl
    omega
  | short acs rule listed hmatched long =>
    rcases (Rule.within_blunt acs rule listed).takes with htakes | ⟨_, hends⟩
    · obtain ⟨n, hlow, hhigh, _⟩ := hmatched.reads.takes htakes
      omega
    · rw [hends.minLength] at long
      cases long
  | @rule j _ acs n rule listed missed p₁ hmatched hr =>
    have hmem := List.mem_of_getElem? listed
    obtain rfl : j = i := Nat.le_antisymm hr.le hmatched.reads.le
    rcases (Rule.within_blunt acs rule hmem).takes with htakes | ⟨hlapses, hends⟩
    · obtain ⟨n, hlow, hhigh, _⟩ := hmatched.reads.takes htakes
      omega
    have hcode : p.top.kind.holdsCode = false := by
      revert hlapses
      cases p.top.kind <;> simp [Construct.lapses, Construct.holdsCode]
    obtain ⟨hactions, _, hnexts, hother⟩ := hends
    have hevents : p'.events = p₁.pop.events := by
      cases hr with
      | onward next hnext => simp [hnexts] at hnext
      | otherwise _ p₂ hpassed result =>
        rw [result, hother, hactions] at *
        exact hpassed.events
    refine ⟨fun hbrace f hm hk => ?_, fun hsquare f implicit hm hk => ?_, fun k hik hhash => ?_⟩
    · rw [hevents] at hm
      have := hu.name hbrace f (hmatched.events ▸ pop_instant hm) hk
      rw [hcode] at this
      cases this
    · rw [hevents] at hm
      rcases pop_pop hm with hm | ⟨rfl, _⟩
      · exact hu.argument hsquare f implicit (hmatched.events ▸ hm) hk
      · rw [hmatched.top] at hk
        revert hk hlapses
        cases p.top.kind <;> simp [Construct.isArgument, Construct.lapses]
    · -- Only a link may have taken the hash, and it does not end before an opening bracket.
      obtain ⟨_, _, hchain, _⟩ := hu.hash k hik hhash
      have hlink : p.top.kind = .link := by
        revert hlapses hchain
        cases p.top.kind <;> simp [Construct.lapses, Construct.isChain]
      rw [hlink] at hmem
      obtain rfl := List.mem_singleton.mp hmem
      have hreads := hmatched.reads
      exfalso
      generalize hj : some j = r at hreads
      cases hreads with
      | lookMiss => cases hj
      | look hbody =>
        obtain ⟨n, hlow, hhigh, _⟩ := hbody.takes (q := fun _ => true) rfl
        have hincludes := hbody.includes (Nat.le_refl _) (by omega) hi
        rw [brackets, List.mem_cons, List.mem_cons, List.mem_singleton] at hc
        rcases hc with rfl | rfl | rfl <;> revert hincludes <;> decide

end Parser

end LineMarkup
