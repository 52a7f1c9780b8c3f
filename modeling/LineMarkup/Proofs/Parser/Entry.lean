import LineMarkup.Marker
import LineMarkup.Proofs.Parser.Blank
import LineMarkup.Proofs.Parser.Turn
import LineMarkup.Proofs.Token.Numbered

namespace LineMarkup

open Token (Stream Session endless lexeme scan)
open Token.Stream
open Matcher (Peg)

namespace Token

variable {blanks rest text : Text} {sign gap : Char}

/-- Before a blank a sign belongs to no number. -/
theorem lexeme_sign (hs : sign = '-' ∨ sign = '+') (hg : Text.isHorizontalSpace gap = true) :
    lexeme sign (gap :: rest) = (.symbol, 0) := by
  obtain ⟨hgap, _⟩ := Text.horizontalSpace_apart hg
  simp only [Bool.or_eq_false_iff] at hgap
  have hrun : Number.run Text.isDigit (gap :: rest) = 0 := by
    simp [Number.run, hgap]
  have hlength : Number.length (sign :: gap :: rest) = 0 := by
    rcases hs with rfl | rfl <;>
      simp [Number.length, Number.sign, Text.isSign, Number.unsigned, Number.magnitude, hgap, hrun]
  rcases hs with rfl | rfl <;> simp [lexeme, Text.isSign, hlength]

theorem scan_sign (hs : sign = '-' ∨ sign = '+') (hg : Text.isHorizontalSpace gap = true)
    (rest : Text) (start : Nat) : ∃ next more, scan start (sign :: gap :: rest) =
      { kind := .symbol, start, text := [sign] } :: next :: more ∧ next.kind = .whitespace := by
  obtain ⟨hnumber, hletter, hescape, _⟩ := Text.horizontalSpace_apart hg
  have hgap : (lexeme gap rest).1 = .whitespace := by
    simp [lexeme, hnumber, hletter, hescape, hg]
  rw [scan_cons, lexeme_sign hs hg, List.take_zero, List.drop_zero, scan_cons]
  exact ⟨_, _, rfl, hgap⟩

/-- The tokens of a line that begins with such a sign: the blanks before it are one, or none. -/
theorem endless_sign (hb : Text.IsBlankLine blanks) (hs : sign = '-' ∨ sign = '+')
    (hg : Text.isHorizontalSpace gap = true) (ht : text = blanks ++ sign :: gap :: rest) :
    ∃ n, Peg (endless text) (.many (.kind .whitespace)) 1 (some n) ∧
      endless text n = { kind := .symbol, start := blanks.size, text := [sign] } ∧
      (endless text (n + 1)).kind = .whitespace := by
  cases blanks with
  | nil =>
    obtain ⟨next, more, hscan, hnext⟩ := scan_sign hs hg rest 0
    rw [List.nil_append] at ht
    have hsign : endless text 1 = { kind := .symbol, start := 0, text := [sign] } := by
      rw [endless_succ, ht, hscan]
      rfl
    refine ⟨1, .optionalMiss (.many1Miss (.kindMiss ?_)), hsign, ?_⟩
    · rw [hsign]
      exact nofun
    · rw [endless_succ, ht, hscan]
      exact hnext
  | cons c blanks =>
    have hsignNot : ∀ d, (sign :: gap :: rest).head? = some d →
        Text.isHorizontalSpace d = false := by
      rintro d ⟨⟩
      rcases hs with rfl | rfl <;> decide
    obtain ⟨next, more, hscan, hnext⟩ := scan_sign hs hg rest (Text.size (c :: blanks))
    have htokens : scan 0 text = { kind := .whitespace, start := 0, text := c :: blanks } ::
        { kind := .symbol, start := Text.size (c :: blanks), text := [sign] } :: next :: more := by
      rw [ht, List.cons_append, scan_cons, lexeme_blanks hb hsignNot, List.take_left,
        List.drop_left, Nat.zero_add, hscan]
    have hblank : endless text 1 = { kind := .whitespace, start := 0, text := c :: blanks } := by
      rw [endless_succ, htokens]
      rfl
    have hsign : endless text 2 =
        { kind := .symbol, start := Text.size (c :: blanks), text := [sign] } := by
      rw [endless_succ, htokens]
      rfl
    refine ⟨2, .optional (.many1Last (.kind ?_) (.kindMiss ?_)), hsign, ?_⟩
    · rw [hblank]
    · rw [hsign]
      exact nofun
    · rw [endless_succ, htokens]
      exact hnext

end Token

namespace Matcher

variable {text : Text} {lead rest : Matcher} {s : Stream} {released : List Token} {i j : Nat}

/-- Behind a front that matches it is the rest that decides. -/
theorem Peg.behind {input : Nat → Token} {r : Option Nat} (h : Peg input (.seq lead rest) i r)
    (hlead : Peg input lead i (some j)) : Peg input rest j r := by
  cases h with
  | seq h h' =>
    obtain rfl := Option.some.inj (hlead.unique h)
    exact h'
  | seqMiss h => cases hlead.unique h

/-- A pattern that discards its front marks what the front takes. -/
theorem discarding_taken (hl : lead.plain = true) (hle : lead.only notEnd = true)
    (hr : rest.plain = true) (hre : rest.only notEnd = true) (hs : s.consumed = [])
    (hok : (run (.seq (.discard lead) rest) s).1 = true) :
    ∃ a b n, (run (.seq (.discard lead) rest) s).2.taken = a.map Token.discard ++ b ∧
      a.length = (run lead s).2.position ∧
      a ++ b ++ ahead (run (.seq (.discard lead) rest) s).2 =
        ahead s ++ List.replicate n (Token.ending s.stop) := by
  obtain ⟨a, ha, _⟩ := run_outcome hl hle s
  have hstart : s.position = 0 := List.length_eq_zero_iff.mpr hs
  have hposition := ha.position_eq
  rw [hstart, Nat.zero_add] at hposition
  rcases hlead : run lead s with ⟨ok, s₁⟩
  rw [hlead] at ha hposition
  cases ok with
  | false => simp [run, hlead] at hok
  | true =>
    obtain ⟨b, hb, _⟩ := run_outcome hr hre s₁.discard
    rcases hrest : run rest s₁.discard with ⟨ok, s₂⟩
    rw [hrest] at hb
    cases ok with
    | false => simp [run, hlead, hrest] at hok
    | true =>
      have hrun : run (.seq (.discard lead) rest) s = (true, s₂) := by simp [run, hlead, hrest]
      obtain ⟨hc, _, ⟨n, hall⟩, _⟩ := reads_discarded ha hb rfl hs
      change s₂.consumed = _ at hc
      rw [hrun]
      exact ⟨a, b, n, by simp [Stream.taken, hc], hposition.symm, hall⟩

/-- The first token behind the front is the one that the front has left. -/
theorem discarding_next (ht : (Matcher.seq (.discard lead) rest).tidy = true)
    (ha : (Matcher.seq (.discard lead) rest).advances = true) (hs : s.consumed = [])
    (hf : Session.Follows text ⟨s, released⟩)
    (hlead : Peg (endless text) lead released.length (some i))
    (hrest : Peg (endless text) rest i (some j)) (hij : i < j) :
    ∃ a token more n, (run (.seq (.discard lead) rest) s).2.taken =
        a.map Token.discard ++ token :: more ∧
      token.unmarked = endless text i ∧ released.length + a.length = i ∧
      a ++ token :: more ++ ahead (run (.seq (.discard lead) rest) s).2 =
        ahead s ++ List.replicate n (Token.ending s.stop) := by
  simp only [tidy, Bool.and_eq_true] at ht
  obtain ⟨⟨⟨⟨hl, _⟩, hle⟩, hr⟩, hre⟩ := ht
  have hstart : s.position = 0 := List.length_eq_zero_iff.mpr hs
  have hreadAll := (run_agrees (productive_of_advances ha) hf).peg
  simp only [advances, Bool.and_eq_true] at ha
  have hread := (run_agrees (productive_of_advances ha.1) hf).peg
  rw [hstart, Nat.add_zero] at hread hreadAll
  have hfront := hlead.unique hread
  have hwhole := (Peg.seq (.discard hlead) hrest).unique hreadAll
  simp only [result] at hfront hwhole
  split at hwhole
  · rename_i hok
    split at hfront
    · obtain ⟨a, b, n, htaken, hlength, hahead⟩ := discarding_taken hl hle hr hre hs hok
      have htotal := congrArg List.length htaken
      rw [Stream.taken_length, List.length_append, List.length_map] at htotal
      have hi := Option.some.inj hfront
      have hj := Option.some.inj hwhole
      have hn : b ≠ [] := by
        rintro rfl
        rw [List.length_nil] at htotal
        omega
      obtain ⟨token, more, rfl⟩ := List.exists_cons_of_ne_nil hn
      refine ⟨a, token, more, n, htaken, ?_, by omega, hahead⟩
      have hfollows := follows_run hf (.seq (.discard lead) rest)
      have hplace : a.length < (run (.seq (.discard lead) rest) s).2.position := by
        rw [htotal, List.length_cons]
        omega
      have hget := Session.getElem_taken ⟨_, released⟩ hplace
      rw [htaken, List.getElem?_append_right (by simp), List.length_map, Nat.sub_self] at hget
      have htoken := hfollows.getElem hget
      have hbase : released.length + a.length = i := by omega
      rw [← hbase]
      exact htoken
    · cases hfront
  · cases hwhole

end Matcher

/-- A range begins behind the discarded tokens. -/
theorem Mark.cover_discarded (mark : Mark) (lead more : List Token) {token : Token}
    (h : token.discarded = false) :
    (mark.cover (lead.map Token.discard ++ token :: more)).start = token.start := by
  have hlead : ∀ t ∈ lead.map Token.discard, t.discarded = true := by
    intro t ht
    obtain ⟨_, _, rfl⟩ := List.mem_map.mp ht
    rfl
  have hshown : (lead.map Token.discard ++ token :: more).dropWhile Token.discarded =
      token :: more := by
    rw [List.dropWhile_append_of_pos hlead, List.dropWhile_cons_of_neg (by simp [h])]
  have hlast := List.getLast?_eq_some_getLast (List.cons_ne_nil token more)
  simp [cover, hshown, hlast]

theorem Construct.prose_goesOn {kind : Construct} (h : kind = .content ∨ kind = .contentBlock) :
    kind.endsWithLine = false := by
  rcases h with rfl | rfl <;> rfl

namespace Parser

variable {text : Text} {p : Parser} {lead rest : Matcher} {i j k : Nat}

/-- The mark of such a match begins with the first token that the front has left, unless that is a
blank, which may have been discarded before. -/
theorem Coming.accept_discarding (h : Coming text k p)
    (hlead : Peg (endless text) lead k (some i)) (hrest : Peg (endless text) rest i (some j))
    (ht : (Matcher.seq (.discard lead) rest).tidy = true)
    (ha : (Matcher.seq (.discard lead) rest).advances = true)
    (hki : k < i) (hij : i < j) (hkind : (endless text i).kind ≠ .whitespace) :
    ∃ p', p.accept (.seq (.discard lead) rest) = (true, p') ∧
      Matched text (.seq (.discard lead) rest) k j p p' ∧
      p'.mark.start = (endless text i).start := by
  have hpeg : Peg (endless text) (.seq (.discard lead) rest) k (some j) :=
    .seq (.discard hlead) hrest
  rcases h.accept ht ha with ⟨p', j', hacc, hm⟩ | ⟨_, _, hnone, _⟩
  · obtain rfl := Option.some.inj (hpeg.unique hm.reads)
    refine ⟨p', hacc, hm, ?_⟩
    obtain ⟨⟨released, rfl, hf⟩, hpoised⟩ := h
    obtain ⟨a, token, more, n, htaken, htoken, hlength, hahead⟩ :=
      Matcher.discarding_next ht ha hpoised.consumed hf hlead hrest hij
    rw [Parser.accept] at hacc
    split at hacc
    · rename_i hrun
      obtain ⟨_, rfl⟩ := Prod.mk.inj hacc
      rw [hrun] at htaken hahead
      have hn : a ≠ [] := by
        rintro rfl
        rw [List.length_nil] at hlength
        omega
      have hmarked := (hpoised.more hahead).2.2
      rw [List.append_assoc, List.tail_append_of_ne_nil hn] at hmarked
      have hkept : token.discarded = false := by
        rw [Bool.eq_false_iff]
        intro hd
        rw [← htoken] at hkind
        exact hkind (hmarked token (by simp) hd)
      change (p.mark.cover _).start = _
      rw [htaken, Mark.cover_discarded _ _ _ hkept, ← htoken]
      rfl
    · cases hacc
  · cases hpeg.unique hnone

/-- Any pattern of a rule can be read where the parser is, with or without success. -/
theorem Coming.reads (h : Coming text k p) {m : Matcher} (ht : m.tidy = true)
    (ha : m.advances = true) : ∃ r, Peg (endless text) m k r := by
  rcases h.accept ht ha with ⟨_, j, _, hm⟩ | ⟨_, _, hnone, _⟩
  · exact ⟨some j, hm.reads⟩
  · exact ⟨none, hnone⟩

/-- What a round has reported stays to the end. -/
theorem Coming.rounds_suffix (h : Coming text k p) (fuel : Nat) :
    p.events <:+ (rounds fuel p).events := by
  induction fuel generalizing k p with
  | zero => exact List.suffix_rfl
  | succ fuel ih =>
    simp only [rounds]
    split
    · exact List.suffix_rfl
    · obtain ⟨l, hturn, hcoming⟩ := step_turn h
      exact hturn.suffix.trans (ih hcoming)

variable {blanks after : Text} {sign gap : Char} {carried : List Construct}

/-- At the start of a line of prose no rule matches before those for the start of a line. -/
theorem others_passed (hk : (ofText text carried).top.kind = .content ∨
      (ofText text carried).top.kind = .contentBlock) :
    ∃ p, (ofText text carried).tryRules (Rule.others (ofText text carried).top.kind) = (false, p) ∧
      Passed text 0 (ofText text carried) p := by
  have hmiss : ∀ rule ∈ Rule.others (ofText text carried).top.kind,
      rule.pattern.sparesWords = true ∧
        Matcher.Settles rule.pattern.run (.feed :: Token.faces text) none := by
    intro rule hm
    have hregular := Rule.others_regular _ rule hm
    simp only [Rule.regular, Bool.and_eq_true] at hregular
    refine ⟨hregular.1.1.1, ?_⟩
    rcases Rule.others_inline _ rule hm with hi | rfl
    · apply Rule.others_miss _ hm hi
      rcases hk with hk | hk <;> rw [hk] <;> rfl
    · rcases Rule.break_mem hm (Construct.prose_goesOn hk) with hk' | hk' <;> simp [hk'] at hk
  have hlegible : ∀ rule ∈ Rule.others (ofText text carried).top.kind, rule.isLegible = true := by
    intro rule hm
    apply Rule.within_legible _ false
    rw [Rule.within_split]
    exact List.mem_append_left _ hm
  obtain ⟨p, htry, _⟩ := (ofText_at text carried).tryRules edge_nil hmiss
  rcases tryRules_turn hlegible (ofText_coming text carried).passed with
    ⟨_, _, _, _, _, _, _, heq, _⟩ | ⟨p', heq, hpassed, _⟩
  · cases htry.symm.trans heq
  · exact ⟨p', heq, hpassed⟩

section Sign

variable (blank : Text.IsBlankLine blanks) (signed : sign = '-' ∨ sign = '+')
  (spaced : Text.isHorizontalSpace gap = true) (split : text = blanks ++ sign :: gap :: after)
include blank signed spaced split

/-- Of the rules for the start of a line that for headings fails, and that for list entries takes
the blanks, the sign and what is blank behind it. -/
theorem entry_reads : ∃ n j,
    Peg (endless text) (.seq (Matcher.lineStart false) (.many (.kind .whitespace))) 0 (some n) ∧
      Peg (endless text) (Rule.headingStart false).pattern 0 none ∧
      Peg (endless text) (.seq (.alt (.symbol '-') (.symbol '+')) (.many1 (.kind .whitespace))) n
        (some j) ∧
      1 ≤ n ∧ n + 1 ≤ j ∧
      endless text n = { kind := .symbol, start := blanks.size, text := [sign] } := by
  obtain ⟨n, hblanks, hsign, hgap⟩ := Token.endless_sign blank signed spaced split
  have hstart : Peg (endless text)
      (.seq (Matcher.lineStart false) (.many (.kind .whitespace))) 0 (some n) :=
    .seq (.alt (.kind rfl)) hblanks
  have hequals : (endless text n).isSymbol '=' = false := by
    rw [hsign]
    rcases signed with rfl | rfl <;> rfl
  have hsymbol : Peg (endless text) (.alt (.symbol '-') (.symbol '+')) n (some (n + 1)) := by
    rcases signed with rfl | rfl
    · exact .alt (.symbol (by rw [hsign]; rfl))
    · exact .altOther (.symbolMiss (by rw [hsign]; rfl)) (.symbol (by rw [hsign]; rfl))
  -- The rule can be read in one way or the other, and it does not fail at the blank.
  obtain ⟨r, hr⟩ := (ofText_coming text []).reads (m := (Rule.entry false).pattern) rfl rfl
  have hrest := hr.behind (.discard hstart)
  have hgaps := hrest.behind hsymbol
  obtain ⟨j, rfl⟩ : ∃ j, r = some j := by
    cases hgaps with
    | many1Last | many1More => exact ⟨_, rfl⟩
    | many1Miss hmiss =>
      cases hmiss with
      | kindMiss hno => exact absurd hgap hno
  exact ⟨n, j, hstart, .seq (.discard hstart) (.seqMiss (.many1Miss (.symbolMiss hequals))), hrest,
    hblanks.le, hgaps.le, hsign⟩

/-- The rule for list entries is the first that matches, and its mark begins with the sign. -/
theorem entry_found (hk : (ofText text carried).top.kind = .content ∨
      (ofText text carried).top.kind = .contentBlock) :
    ∃ p : Parser,
      (ofText text carried).tryRules (Rule.within (ofText text carried).top.kind false) =
        (true, p.follow (Rule.entry false)) ∧
      p.events = [] ∧ p.mark.start = blanks.size ∧ blanks.size < p.mark.stop := by
  obtain ⟨n, j, hstart, hheading, hentry, hn, hj, hsign⟩ := entry_reads blank signed spaced split
  obtain ⟨p₁, hothers, hpassed₁⟩ := others_passed hk
  obtain ⟨p₂, hmiss, hpassed₂⟩ : ∃ p₂, p₁.accept (Rule.headingStart false).pattern = (false, p₂) ∧
      Passed text 0 p₁ p₂ := by
    rcases hpassed₁.coming.accept (m := (Rule.headingStart false).pattern) rfl rfl with
      ⟨_, _, _, hm⟩ | ⟨p₂, hacc, _, hpassed⟩
    · cases hheading.unique hm.reads
    · exact ⟨p₂, hacc, hpassed⟩
  obtain ⟨p₃, hhit, hm, hmark⟩ := hpassed₂.coming.accept_discarding hstart hentry rfl rfl
    (by omega) (by omega) (by rw [hsign]; exact nofun)
  have hsigns : ∃ more, (Rule.signs (ofText text carried).top.kind).map (Rule.atStart false) =
      Rule.headingStart false :: Rule.entry false :: more := by
    rcases hk with hk | hk <;> rw [hk] <;> exact ⟨_, rfl⟩
  obtain ⟨more, hmore⟩ := hsigns
  refine ⟨p₃, ?_, ?_, ?_, ?_⟩
  · have hmissed : (p₁.accept (Rule.headingStart false).pattern).1 = false := by rw [hmiss]
    have haccepted : p₂.accept (Rule.entry false).pattern = (true, p₃) := hhit
    have hmatched : (p₂.accept (Rule.entry false).pattern).1 = true := by rw [haccepted]
    rw [Rule.within_split, tryRules_append hothers, hmore, tryRules_of_miss hmissed, hmiss,
      tryRules_of_hit hmatched, haccepted]
  · exact (hm.events.trans hpassed₂.events).trans hpassed₁.events
  · rw [hmark, hsign]
  · have hsize : blanks.size < (endless text (n + 1)).start := by
      rw [← Token.endless_stop, hsign]
      rcases signed with rfl | rfl <;> exact Nat.lt_succ_self _
    rw [hm.mark (by omega)]
    exact Nat.lt_of_lt_of_le hsize (Token.endless_le hj)

/-- The first round of a line of prose that begins with the sign of an entry meets the entry. -/
theorem entry_step (hk : (ofText text carried).top.kind = .content ∨
      (ofText text carried).top.kind = .contentBlock) :
    ∃ stop, blanks.size < stop ∧ (ofText text carried).step.events =
      [.instant { kind := .listEntry, start := blanks.size } stop] := by
  let q := ofText text carried
  obtain ⟨p, hrules, hnone, hmark, hstop⟩ := entry_found blank signed spaced split hk
  have hends : q.top.kind.endsWithLine = false := Construct.prose_goesOn hk
  have hround : Parser.tryRules
      { q with atContentStart := q.atContentStart && !q.top.kind.holdsContent }
      (Rule.within q.top.kind q.atContentStart) = (true, p.follow (Rule.entry false)) := hrules
  have hstep : q.step = p.follow (Rule.entry false) := by
    simp only [step, hends, hround, Bool.false_eq_true, ↓reduceIte]
  have hevents : (p.follow (Rule.entry false)).events =
      .instant { kind := .listEntry, start := p.mark.start } p.mark.stop :: p.events := rfl
  exact ⟨p.mark.stop, hstop, by rw [hstep, hevents, hnone, hmark]⟩

/-- The entry is marked at its sign. -/
theorem entry_marked (hk : (ofText text carried).top.kind = .content ∨
      (ofText text carried).top.kind = .contentBlock) (closing : Bool) :
    ∃ marker ∈ Marker.ofEvents ((Parse.ofText text carried).report closing),
      marker.kind = .listEntry ∧ marker.start = blanks.size := by
  let start := ofText text carried
  obtain ⟨stop, hstop, hevents⟩ := entry_step blank signed spaced split hk
  obtain ⟨l, -, hcoming⟩ := step_turn (ofText_coming text carried)
  obtain ⟨fuel, hfuel⟩ : ∃ fuel, start.roundLimit = fuel + 1 :=
    Nat.exists_eq_succ_of_ne_zero (by simp [roundLimit])
  have hrounds : start.rounds start.roundLimit = start.step.rounds fuel := by
    rw [hfuel]
    rfl
  have hmem : .instant { kind := .listEntry, start := blanks.size } stop ∈
      (start.rounds start.roundLimit).events := by
    rw [hrounds]
    apply (hcoming.rounds_suffix fuel).subset
    rw [hevents]
    exact List.mem_singleton_self _
  have hreport : .instant { kind := .listEntry, start := blanks.size } stop ∈
      (Parse.ofText text carried).report closing :=
    List.mem_append_left _ (List.mem_reverse.mpr hmem)
  refine ⟨⟨.listEntry, blanks.size, stop⟩, List.mem_flatMap.mpr ⟨_, hreport, ?_⟩, rfl, rfl⟩
  simp [Marker.ofEvent, Marker.ofConstruct, MarkerKind.ofConstruct?, Marker.cover, hstop]

end Sign

end Parser

end LineMarkup
