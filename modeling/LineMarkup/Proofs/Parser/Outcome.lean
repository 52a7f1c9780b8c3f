import LineMarkup.Proofs.Parser.Apart
import LineMarkup.Proofs.Parser.Quiet

namespace LineMarkup

open Matcher (Peg Named Shared)
open Token (endless Parted)

namespace Matcher.Named

variable {input : Nat → Token} {i j k n : Nat}

/-- A name is bland. -/
theorem bland (h : Named input i j n) (hlow : i ≤ k) (hk : k < n) : Bland input k := by
  have hplain : (input k).kind ≠ .lineEnd ∧ ∀ s ≠ '_', (input k).isSymbol s = false := by
    rcases Nat.lt_or_ge k j with hlt | hge
    · have hword := h.words k hlow hlt
      refine ⟨by rw [hword]; decide, fun s _ => ?_⟩
      rw [Bool.eq_false_iff]
      intro hsymbol
      rw [isSymbol_kind hsymbol] at hword
      cases hword
    · have hunder := h.unders k hge hk
      refine ⟨by rw [isSymbol_kind hunder]; decide, fun s hs => ?_⟩
      rw [Bool.eq_false_iff]
      intro hsymbol
      exact hs (isSymbol_unique hsymbol hunder)
  refine ⟨hplain.1, fun s hs => hplain.2 s ?_, fun hslash => ?_⟩
  · rintro rfl
    revert hs
    decide
  · rw [hplain.2 '/' (by decide)] at hslash
    cases hslash

end Matcher.Named

namespace Rule

/-- Nothing sealed is closed by anything but symbols. -/
theorem within_closers {inside : Construct} (h : inside.isSealed = true) (atContentStart : Bool) :
    ∀ rule ∈ within inside atContentStart, rule.pattern.leads ['\x60', '*', '"'] = true := by
  apply List.all_eq_true.mp
  cases inside <;> cases h <;> cases atContentStart <;> decide

/-- In code nothing that is tried before a raw block begins with its mark. -/
theorem within_fence {inside : Construct} (h : inside.holdsCode = true) :
    ∃ i, ∀ acs, (within inside acs)[i]? = some raws[0] ∧
      ∀ rule ∈ (within inside acs).take i,
        rule.pattern.leads ('/' :: landmarks) = true ∧ rule.pattern.plain = true := by
  have hboth {i : Nat} (hall : [true, false].all (fun acs => ((within inside acs).take i).all
      fun rule => rule.pattern.leads ('/' :: landmarks) && rule.pattern.plain) = true)
      (acs : Bool) :
      ∀ rule ∈ (within inside acs).take i,
        rule.pattern.leads ('/' :: landmarks) = true ∧ rule.pattern.plain = true := by
    intro rule hm
    simpa using List.all_eq_true.mp (List.all_eq_true.mp hall acs (by cases acs <;> simp)) rule hm
  cases inside <;> cases h
  case codeBlock => exact ⟨7, fun acs => ⟨rfl, hboth (by decide) acs⟩⟩
  case codeLine => exact ⟨7, fun acs => ⟨rfl, hboth (by decide) acs⟩⟩
  case codeArguments => exact ⟨8, fun acs => ⟨rfl, hboth (by decide) acs⟩⟩

/-- What it takes more than a glance to close is closed by a text alone. -/
theorem within_text {inside : Construct} (h : inside.isSealed = true) {atContentStart : Bool}
    {rule : Rule} (hm : rule ∈ within inside atContentStart) (hg : rule.pattern.glances = false) :
    ∃ text : String, (∀ s ∈ text.toList, s ∈ ['/', '*', '\x60']) ∧ inside.endsWithLine = false ∧
      rule.pattern = .symbols text.toList ∧ ∀ acs, within inside acs = [closedBy text] := by
  cases inside <;> cases h <;>
    simp only [within, Construct.holdsContent, Construct.holdsMath, Construct.holdsCode,
      Bool.false_eq_true, ↓reduceIte, List.mem_cons, List.not_mem_nil, or_false] at hm
  case raw | stringLiteral | codeString =>
    rw [hm] at hg
    cases hg
  case rawBlock => exact ⟨"\x60\x60\x60", by simp, rfl, by rw [hm]; rfl, fun _ => rfl⟩
  case commentBlock => exact ⟨"*/", by simp, rfl, by rw [hm]; rfl, fun _ => rfl⟩

end Rule

namespace Parser

variable {text text' : Text} {carried : List Construct} {p p' q q' : Parser} {c : Char}
  {i j k l m n pos : Nat}

theorem Ongoing.nested (h : Ongoing text carried k p) (ho : Parse.Orderly carried) :
    Construct.Nested (p.stack.map Frame.kind) :=
  h.told.story.nested_kinds ho.nested

/-- Either brackets open something, or they are text, or they are sealed in. -/
theorem Ongoing.kinds (h : Ongoing text carried k p) (ho : Parse.Orderly carried) (c : Char) :
    Welcomes c p ∨ Texts c p ∨ p.top.kind.isSealed = true := by
  have hroot := h.steady.rooted
  obtain ⟨below, hs⟩ := hroot.stack_eq
  have hmem : p.top ∈ p.stack := hs ▸ List.mem_cons_self
  have hleaf : p.top.kind.isLeaf = false :=
    (h.told.story.frames_new p.top hmem).elim (ho.frames p.top) id
  cases hlapses : p.top.kind.lapses with
  | false =>
    rw [Welcomes, Texts]
    revert hleaf hlapses
    cases p.top.kind <;> simp [Construct.isLeaf, Construct.lapses, Construct.welcomes,
      Construct.isText, Construct.isSealed, Construct.isChain, Construct.holdsContent,
      Construct.holdsMath, Construct.holdsCode] <;> exact Decidable.em _
  | true =>
    obtain ⟨outer, rest, hs⟩ := hroot.below_of_ne (by
      intro htop
      rw [htop] at hlapses
      cases hlapses)
    have hpop : p.pop.top = outer := by
      rw [top, pop, hs]
      rfl
    have hnested := h.nested ho
    have hlinks := h.seated.links
    rw [hs, List.map_cons, List.map_cons] at hnested
    rw [hs] at hlinks
    have hadmits := (List.isChain_cons_cons.mp hnested).1
    have hlink := (List.isChain_cons_cons.mp hlinks).1
    cases hcontent : outer.kind.holdsContent with
    | true =>
      refine .inr (.inl (.inr ⟨hlapses, ?_⟩))
      rw [hpop, Construct.isText, hcontent, Bool.true_or]
    | false =>
      -- What lapses stands in content or in math, and a link in content.
      obtain ⟨hchain, hmath⟩ : p.top.kind.isChain = true ∧ outer.kind.holdsMath = true := by
        revert hlapses hadmits hlink
        cases p.top.kind <;> simp [Construct.lapses, Construct.admits, Construct.isChain, hcontent]
      by_cases hround : c = '('
      · exact .inl (.inr ⟨hround, hchain, hpop ▸ hmath⟩)
      · refine .inr (.inl (.inr ⟨hlapses, ?_⟩))
        rw [hpop, Construct.isText, hmath]
        simp [hround]

theorem spares_of_follows (h : Adds (Event.Follows pos) p p') {light : Construct → Bool}
    (hl : ∀ kind, kind.lapses = true → light kind = true) :
    Adds (Event.Spares light pos) p p' :=
  h.mono fun _ he => he.spares hl

/-- What comes after a round or a part of one that has kept text as it is. -/
theorem Ongoing.spares_behind (hc : c ∈ brackets) (h : Ongoing text carried l p')
    (hadds : Adds (Event.Spares (Construct.isLight c) pos) p p')
    (hearly : (endless text l).start < pos →
      (∀ kind, p'.heavy c = some kind → kind.isBase c = true) ∧ Unchained c p' ∧
      ∀ i, l ≤ i → (endless text i).start < pos → ∀ s ∈ landmarks,
        (endless text i).isSymbol s = false) :
    Adds (Event.Spares (Construct.isLight c) pos) p (finish text carried) := by
  refine hadds.trans ?_
  rcases Nat.eq_zero_or_pos pos with rfl | hpos
  · exact h.spares_zero _
  rcases Nat.lt_or_ge (endless text l).start pos with hlt | hge
  · obtain ⟨hbase, hchains, htokens⟩ := hearly hlt
    exact h.idles hc hbase hchains htokens
  · have hl : 0 < l := by
      refine Nat.pos_of_ne_zero ?_
      rintro rfl
      exact absurd hpos (Nat.not_lt.mpr hge)
    exact spares_of_follows (h.follows hl hge) fun _ => lapses_light

/-- A round in what is sealed, up to where it is closed or beyond the position. -/
theorem Turn.sealed (h : Turn text k p p' l) (hk : p.top.kind.isSealed = true)
    (hnext : pos < (endless text (k + 1)).start ∨ p.top.kind.endsWithLine = false ∧
      ∀ acs, ∃ rule ∈ Rule.within p.top.kind acs, ∃ j, Peg (endless text) rule.pattern k (some j))
    (hcloses : ∀ acs, ∀ rule ∈ Rule.within p.top.kind acs, ∀ j,
      Peg (endless text) rule.pattern k (some j) →
        rule.continuations = [] ∧ pos < (endless text j).start) :
    Adds (Event.Spares Construct.lapses pos) p p' ∧ pos ≤ (endless text l).start := by
  cases h with
  | line hends p₁ hm acs result =>
    have hreads := hm.reads
    cases hreads
    have hstart := hnext.resolve_right (by simp [hends])
    have hstop : pos < p₁.mark.stop := by
      rw [hm.mark (Nat.lt_succ_self k)]
      exact hstart
    have hpop : Adds (Event.Spares Construct.lapses pos) p₁ p₁.pop := pop_adds (.inr (.inl hstop))
    rw [result]
    exact ⟨hpop.of_events hm.events, Nat.le_of_lt hstart⟩
  | short acs rule listed _ long =>
    have hlength := (Rule.within_sealed hk acs rule listed).2.2
    omega
  | loose acs missed _ _ events =>
    have hstart := hnext.resolve_right fun ⟨_, hsome⟩ => by
      obtain ⟨rule, hm, j, hreads⟩ := hsome acs
      cases (missed rule hm).unique hreads
    exact ⟨.of_cons events trivial, Nat.le_of_lt hstart⟩
  | @rule j _ acs i rule listed missed p₁ hm hresumed =>
    have hmem := List.mem_of_getElem? listed
    obtain ⟨hactions, hother, _⟩ := Rule.within_sealed hk acs rule hmem
    obtain ⟨hnone, hlate⟩ := hcloses acs rule hmem j hm.reads
    cases hresumed with
    | onward next hlisted => simp [hnone] at hlisted
    | otherwise _ p₂ hp result =>
      have hlapses : p.top.kind.lapses = false := by
        revert hk
        cases p.top.kind <;> simp [Construct.isSealed, Construct.lapses]
      have hstop : pos < p₁.mark.stop := by
        rw [hm.mark (hm.lt hlapses hmem)]
        exact hlate
      have hpop : Adds (Event.Spares Construct.lapses pos) p₁ p₁.pop :=
        pop_adds (.inr (.inl hstop))
      obtain ⟨new, hnew, hspares⟩ := hpop.of_events hm.events
      refine ⟨⟨new, ?_, hspares⟩, Nat.le_of_lt hlate⟩
      rw [result, hother, perform, List.foldl_nil, hp.events, hactions]
      exact hnew

/-- Where it is closed with tokens over the place. -/
theorem Ongoing.sealed_spares (h : Ongoing text carried k p) (hsealed : p.top.kind.isSealed = true)
    (hnext : pos < (endless text (k + 1)).start ∨ p.top.kind.endsWithLine = false ∧
      ∀ acs, ∃ rule ∈ Rule.within p.top.kind acs, ∃ j, Peg (endless text) rule.pattern k (some j))
    (hcloses : ∀ acs, ∀ rule ∈ Rule.within p.top.kind acs, ∀ j,
      Peg (endless text) rule.pattern k (some j) →
        rule.continuations = [] ∧ pos < (endless text j).start)
    (hend : p.stream.atEnd = false) :
    Adds (Event.Spares Construct.lapses pos) p (finish text carried) := by
  obtain ⟨l, hturn, hafter⟩ := h.step hend
  obtain ⟨hadds, hlate⟩ := hturn.sealed hsealed hnext hcloses
  have hlapses : p.top.kind.lapses = false := by
    revert hsealed
    cases p.top.kind <;> simp [Construct.isSealed, Construct.lapses]
  have hl : 0 < l := Nat.lt_of_le_of_lt (Nat.zero_le k) (hturn.lt hlapses)
  exact hadds.trans (spares_of_follows (hafter.follows hl hlate) fun _ => id)

/-- What becomes of the bracket `c` and its closing one, put in at `pos`, where the bracket is token
`n` of the second text. They enclose something, or the first text had nothing at the position that
would have them closed: it was quiet there, or in the midst of the mark of a raw block. -/
inductive Outcome (text text' : Text) (carried : List Construct) (n : Nat) (c : Char) (pos : Nat) :
    Prop
  | paired (paired : Paired text' carried n c)
  | quiet (light : Construct → Bool) (around : Construct) (p : Parser)
      (quiet : Quiet text text' carried n c pos light around p)
  | fenced (frame : Frame) (stop : Nat) (later earlier : List Event)
      (events : (finish text carried).events = later ++ .push frame stop :: earlier)
      (kind : frame.kind = .rawBlock) (start : frame.start < pos)
      (spares : ∀ e ∈ later, e.Spares Construct.lapses pos)
      (unasked : Unasked text' n c .rawBlock earlier)

/-- A name behind a hash that began a line of code does so still. -/
def KeywordsStay (text text' : Text) (carried : List Construct) (n : Nat) : Prop :=
  ∀ k j frame stop, (endless text' k).isSymbol '#' = true → Named (endless text') (k + 1) j n →
    .push frame stop ∈ (finish text carried).events → frame.kind = .codeLine →
      frame.start = (endless text' k).start →
        ∃ l, Peg (endless text') Matcher.codeKeyword (k + 1) (some l)

section Outcome

variable (hp : Parted text text' c pos m n) (hc : c ∈ brackets)
  (hclosing : (endless text' (n + 1)).isSymbol (LineStore.closing c) = true)

section New

variable (hnew : Ongoing text' carried k q)

include hp hc hclosing hnew

theorem Outcome.of_bound (hb : Bound text' n c k q) : Outcome text text' carried n c pos :=
  .paired (hnew.closed hc hp.bracket hclosing hb)

/-- Where the bracket opens something when it comes, and comes before anything else. -/
theorem Welcomes.outcome (hw : Welcomes c q) (hk : k ≤ n)
    (hbland : ∀ i, k ≤ i → i < n → Bland (endless text') i) : Outcome text text' carried n c pos :=
  .of_bound hp hc hclosing hnew (.coming hk hw hbland)

omit hnew in
/-- A round over the bracket. -/
theorem Turn.outcome (h : Turn text' k q q' l) (hk : k < n) (hnext : Ongoing text' carried l q')
    (hl : n < l) : Outcome text text' carried n c pos :=
  .of_bound hp hc hclosing hnext (h.over hc hp.bracket (.inl hk) hl)

end New

include hp

/-- The pieces before the bracket are no hashes. -/
theorem piece_hash (hmn : m < n) : ∀ i, n = i + 1 → (endless text' i).isSymbol '#' = false := by
  rintro i rfl
  exact hp.piece_symbol (Nat.le_of_lt_succ hmn) (Nat.lt_succ_self i) (by decide +kernel)

theorem apart_no_hash {inside : Construct} {acs : Bool} {rule : Rule}
    (hm : rule ∈ Rule.within inside acs)
    (hparts : ¬ Shared (endless text) (endless text') m rule.pattern k) (hk : k < m)
    (hnot : k + 1 = n → (endless text k).isSymbol '#' = false) :
    ∀ i, n = i + 1 → (endless text' i).isSymbol '#' = false := by
  rcases Nat.eq_or_lt_of_le hp.le with rfl | hmn
  swap
  · exact piece_hash hp hmn
  rintro i rfl
  rw [hp.same i (Nat.lt_succ_self i)]
  rcases Nat.eq_or_lt_of_le (Nat.le_of_lt_succ hk) with rfl | hki
  · exact hnot rfl
  · exact apart_behind hp hm hparts hki (Nat.lt_succ_self i) (by decide)

/-- Nor are there any in the marks of comments and of raw text. -/
theorem marks_no_hash {marks : Text} (hmarks : ∀ s ∈ marks, s ∈ ['/', '*', '\x60'])
    (hspells : Matcher.Spells (endless text) marks k) (hk : k < m) (hlong : m < k + marks.length) :
    ∀ i, n = i + 1 → (endless text' i).isSymbol '#' = false := by
  rcases Nat.eq_or_lt_of_le hp.le with rfl | hmn
  swap
  · exact piece_hash hp hmn
  rintro i rfl
  have hlt : i - k < marks.length := by omega
  rw [hp.same i (Nat.lt_succ_self i), Bool.eq_false_iff]
  intro hhash
  have hmark := hspells (i - k) _ (List.getElem?_eq_getElem hlt)
  rw [Nat.add_sub_cancel' (by omega)] at hmark
  have hmem := hmarks _ (List.getElem_mem hlt)
  rw [← Matcher.isSymbol_unique hhash hmark] at hmem
  simp at hmem

/-- Behind such marks the place lies behind. -/
theorem marks_late {marks : Text} (hspells : Matcher.Spells (endless text) marks k) (hk : k ≤ m)
    (hlong : m < k + marks.length) : pos < (endless text (k + marks.length)).start := by
  refine hp.lt_start hlong fun _ hnone => ?_
  have hmark := hspells (m - k) _ (List.getElem?_eq_getElem (by omega))
  rw [Nat.add_sub_cancel' hk] at hmark
  rw [Matcher.isSymbol_kind hmark] at hnone
  cases hnone

section Old

variable (h : Beside text text' k p q) (hold : Ongoing text carried k p)
  (hnew : Ongoing text' carried k q) (hk : k ≤ m) (ho : Parse.Orderly carried)

include hc h hold hnew hk ho

/-- Where brackets are text, and remain so. -/
theorem Texts.quiets (ht : Texts c p)
    (hs : Adds (Event.Spares (Construct.isLight c) pos) p (finish text carried))
    (hhash : k = n ∨ ∀ i, n = i + 1 → (endless text' i).isSymbol '#' = false) :
    ∃ around, Quiet text text' carried n c pos (Construct.isLight c) around p := by
  have htq : Texts c q := by
    rw [Texts, ← h.peers.top, ← h.peers.pop.top]
    exact ht
  have hunasked (kind : Construct) : Unasked text' n c kind p.events := by
    refine hnew.unasked (Nat.le_trans hk hp.le) hc hp.bracket (fun _ => htq.holdsCode)
      h.toTelling List.suffix_rfl fun i hn hi => ⟨?_, rfl, fun hcontent hmath hchain =>
        .inl (htq.link hcontent hmath hchain)⟩
    refine hhash.resolve_right fun hnone => ?_
    rw [hnone i hn] at hi
    cases hi
  exact ht.quiet hold.steady.rooted (hold.nested ho) (hold.halted (hp.start_le hk)) hs hunasked

theorem Texts.outcome (ht : Texts c p)
    (hs : Adds (Event.Spares (Construct.isLight c) pos) p (finish text carried))
    (hhash : k = n ∨ ∀ i, n = i + 1 → (endless text' i).isSymbol '#' = false) :
    Outcome text text' carried n c pos := by
  obtain ⟨around, hquiet⟩ := ht.quiets hp hc h hold hnew hk ho hs hhash
  exact .quiet _ around p hquiet

/-- Where no landmark comes before the place. -/
theorem Texts.outcome_plain (ht : Texts c p) (hchain : c = '\x7b' ∨ p.top.kind ≠ .codeChain)
    (hplain : ∀ i, k ≤ i → (endless text i).start < pos → ∀ s ∈ landmarks,
      (endless text i).isSymbol s = false)
    (hhash : k = n ∨ ∀ i, n = i + 1 → (endless text' i).isSymbol '#' = false) :
    Outcome text text' carried n c pos := by
  refine ht.outcome hp hc h hold hnew hk ho ?_ hhash
  have hroot := hold.steady.rooted
  have hn := hold.nested ho
  exact hold.idles hc (ht.base hroot hn) (unchained_of_nested hroot hn hchain) hplain

include hclosing

/-- In a chain of names, which the bracket goes on with if a name reaches up to it. -/
theorem Texts.outcome_chain (ht : Texts c p) (hchain : p.top.kind = .codeChain)
    (hbrace : c ≠ '\x7b') (hkn : k < n)
    (hplain : ∀ i, k ≤ i → (endless text i).start < pos → ∀ s ∈ landmarks,
      (endless text i).isSymbol s = false)
    (hnamed : (endless text k).kind = .word → ∃ j, Named (endless text') k j n)
    (hhash : ∀ i, n = i + 1 → (endless text' i).isSymbol '#' = false)
    (hend : p.stream.atEnd = false) : Outcome text text' carried n c pos := by
  by_cases hword : (endless text k).kind = .word
  · obtain ⟨j, hname⟩ := hnamed hword
    obtain ⟨l, hturn, hnext⟩ :=
      hnew.step (hnew.coming.not_atEnd hp.bracket (Nat.le_of_lt hkn))
    have htop : q.top.kind = .codeChain := h.peers.top ▸ hchain
    have hround : c = '(' ∨ c = '[' := by
      simpa [brackets, hbrace] using hc
    exact hturn.outcome hp hc hclosing hkn hnext (hturn.chain_called hp.bracket htop hname hround)
  · refine ht.outcome hp hc h hold hnew hk ho ?_ (.inr hhash)
    have hroot := hold.steady.rooted
    obtain ⟨l, hturn, hnext⟩ := hold.step hend
    obtain ⟨rfl, hidles, hstack⟩ :=
      hturn.breaks (c := c) pos (by rw [hchain]; rfl) hword
    refine hnext.spares_behind hc hidles.adds fun _ => ⟨fun kind hkind => ?_, ?_, hplain⟩
    · rw [hidles.heavy] at hkind
      exact ht.base hroot (hold.nested ho) kind hkind
    · refine unchained_of_nested hnext.steady.rooted (hnext.nested ho) (.inr fun hstill => ?_)
      -- What a chain stands in is no chain.
      have hpop : p.step.top = p.pop.top := by simp only [Parser.top, hstack]
      have htext : p.pop.top.kind.isText c = true := by
        rcases ht with htext | ⟨_, htext⟩
        · rw [hchain] at htext
          simp [Construct.isText, Construct.holdsContent, Construct.holdsMath] at htext
        · exact htext
      rw [← hpop, hstill] at htext
      simp [Construct.isText, Construct.holdsContent, Construct.holdsMath] at htext

/-- Where no landmark comes before the place, in a chain or not. -/
theorem Texts.outcome_bare (ht : Texts c p) (hkn : k < n)
    (hplain : ∀ i, k ≤ i → (endless text i).start < pos → ∀ s ∈ landmarks,
      (endless text i).isSymbol s = false)
    (hnamed : p.top.kind = .codeChain → (endless text k).kind = .word →
      ∃ j, Named (endless text') k j n)
    (hhash : ∀ i, n = i + 1 → (endless text' i).isSymbol '#' = false)
    (hend : p.stream.atEnd = false) : Outcome text text' carried n c pos := by
  by_cases hbrace : c = '\x7b'
  · exact ht.outcome_plain hp hc h hold hnew hk ho (.inl hbrace) hplain (.inr hhash)
  by_cases hchain : p.top.kind = .codeChain
  · exact ht.outcome_chain hp hc hclosing h hold hnew hk ho hchain hbrace hkn hplain
      (hnamed hchain) hhash hend
  · exact ht.outcome_plain hp hc h hold hnew hk ho (.inr hchain) hplain (.inr hhash)

section Hash

variable (hkm : k < m) (hhash : (endless text k).isSymbol '#' = true) {acs : Bool} {rule : Rule}
  (hm : rule ∈ Rule.within p.top.kind acs)
  (hparts : ¬ Shared (endless text) (endless text') m rule.pattern k)
  (hend : p.stream.atEnd = false)

include hkm hhash hm hparts

omit hclosing in
include hend in
/-- At a hash that does not begin code with a name. -/
theorem Texts.outcome_mild (ht : Texts c p) (hbehind : k + 1 ≠ n)
    (hword : (endless text (k + 1)).kind = .word →
      c = '\x7b' ∧ Peg (endless text) Matcher.codeKeyword (k + 1) none) :
    Outcome text text' carried n c pos := by
  obtain ⟨_, hcode⟩ := apart_first hp hm hparts hkm (by decide) hhash
  have hlapses : p.top.kind.lapses = false := by
    revert hcode
    cases p.top.kind <;> simp [Construct.holdsContent, Construct.holdsMath, Construct.lapses]
  have hchain : c = '\x7b' ∨ p.top.kind ≠ .codeChain := by
    refine .inr fun hchain => ?_
    rw [hchain] at hcode
    cases hcode
  have hroot := hold.steady.rooted
  have hn := hold.nested ho
  have hbase : p.top.kind.isLight c = true ∨ p.top.kind.isBase c = true :=
    (heavy_top hroot).imp_right fun htop => ht.base hroot hn _ htop
  have hline : p.top.kind.endsWithLine = true → p.top.kind.isLight c = true := by
    intro hline
    refine hbase.resolve_right fun hbase => ?_
    rw [base_endsWithLine hbase] at hline
    cases hline
  have hmild : Mild text c pos k p.top.kind := by
    refine mild_of_hash hc hbase hchain hhash (fun i hi hor s hs => ?_) hword
      fun _ i hi hearly => ?_
    · rcases hor with rfl | hearly
      · rcases Nat.lt_or_ge (k + 1) m with hlt | hge
        · exact apart_behind hp hm hparts hi hlt hs
        · obtain rfl : m = k + 1 := by omega
          have hmn : k + 1 < n := Nat.lt_of_le_of_ne hp.le hbehind
          exact hp.early_symbol (Nat.le_refl _) (hp.low hmn) s
      · exact apart_plain hp hm hparts hi hearly hs
    · exact apart_point hp hm hparts hcode hkm hhash (by omega) hearly
  obtain ⟨l, hturn, hnext⟩ := hold.step hend
  obtain ⟨hadds, hidles⟩ := hturn.idles hmild hline
  have hnone := apart_no_hash hp hm hparts hkm fun heq => absurd heq hbehind
  refine ht.outcome hp hc h hold hnew hk ho ?_ (.inr hnone)
  refine hnext.spares_behind hc hadds fun hearly => ?_
  have hidles := hidles hearly
  refine ⟨fun kind hkind => ht.base hroot hn kind (hidles.heavy ▸ hkind),
    hidles.chains (unchained_of_nested hroot hn hchain), fun i hi hearly s hs => ?_⟩
  exact apart_plain hp hm hparts (Nat.lt_of_lt_of_le (hturn.lt hlapses) hi) hearly hs

omit hc hclosing h hnew hk ho in
include hend in
/-- A keyword behind the hash of the old text has begun a line of code. -/
theorem Ongoing.keyword_stays (hstay : KeywordsStay text text' carried n)
    (hname : Named (endless text') (k + 1) j n) :
    Peg (endless text) Matcher.codeKeyword (k + 1) none ∨
      ∃ l, Peg (endless text') Matcher.codeKeyword (k + 1) (some l) := by
  obtain ⟨_, hcode⟩ := apart_first hp hm hparts hkm (by decide) hhash
  rcases hold.coming.accept (m := .seq (.symbol '#') Matcher.codeKeyword) rfl rfl with
    ⟨_, j', _, hmatched⟩ | ⟨_, _, hmissed, _⟩
  · right
    obtain ⟨l, hturn, hnext⟩ := hold.step hend
    have hreads : ∀ rule, (Rule.comments ++ Rule.codeStart)[2]? = some rule →
        Peg (endless text) rule.pattern k (some j') := by
      intro rule hrule
      obtain rfl := Option.some.inj hrule
      exact hmatched.reads
    rcases hturn.upto_hash hcode hhash (.inl rfl) hreads with
      ⟨_, _, hline, hevents, hstart⟩ | ⟨hno, _⟩
    · have hpush := hnext.events.subset (hevents ▸ List.mem_cons_self)
      have hsame : endless text' k = endless text k := hp.same k hkm
      refine hstay k j _ _ (hsame ▸ hhash) hname hpush hline ?_
      rw [hsame]
      exact hstart hold.steady.clean
    · cases hno
  · left
    cases hmissed with
    | seq hsign hkeyword =>
      cases hsign
      exact hkeyword
    | seqMiss hsign => cases hsign.unique (.symbol hhash)

include hend in
/-- At a hash. -/
theorem Texts.outcome_hash (ht : Texts c p)
    (hstay : c = '\x7b' → KeywordsStay text text' carried n) :
    Outcome text text' carried n c pos := by
  obtain ⟨_, hcode⟩ := apart_first hp hm hparts hkm (by decide) hhash
  have hcode' : (q.top.kind.holdsContent || q.top.kind.holdsMath) = true := h.peers.top ▸ hcode
  have hhash' : (endless text' k).isSymbol '#' = true := by rwa [hp.same k hkm]
  have hkn : k < n := Nat.lt_of_lt_of_le hkm hp.le
  obtain ⟨l, hturn, hnext⟩ := hnew.step (hnew.coming.not_atEnd hp.bracket (Nat.le_of_lt hkn))
  by_cases hbehind : k + 1 = n
  · have hn : (endless text' (k + 1)).isSymbol c = true := hbehind ▸ hp.bracket
    exact hturn.outcome hp hc hclosing hkn hnext
      (hbehind ▸ hturn.behind_hash hc hcode' hhash' hn)
  by_cases hword : (endless text' (k + 1)).kind = .word
  · obtain ⟨j, hname⟩ := named_behind hp hc hm hparts hkm hcode hhash hword
    have hlapses : q.top.kind.lapses = false := by
      revert hcode'
      cases q.top.kind <;> simp [Construct.holdsContent, Construct.holdsMath, Construct.lapses]
    have hcodeLine (hl : l ≤ n) (hline : q.step.top.kind = .codeLine) :
        Outcome text text' carried n c pos := by
      have hw : Welcomes c q.step := by
        left
        rw [hline]
        rfl
      refine hw.outcome hp hc hclosing hnext hl fun i hlow => hname.bland ?_
      exact Nat.le_trans (hturn.lt hlapses) hlow
    by_cases hbrace : c = '\x7b'
    · rcases hold.keyword_stays hp hkm hhash hm hparts hend (hstay hbrace) hname with
        hmissed | ⟨l', hkeyword⟩
      · exact ht.outcome_mild hp hc h hold hnew hk ho hkm hhash hm hparts hend hbehind
          fun _ => ⟨hbrace, hmissed⟩
      · obtain rfl : l' = j := by
          cases hkeyword with | keyword hfull =>
          exact Option.some.inj (hfull.unique (hname.fullWord (hname.ends hp.bracket)))
        obtain ⟨hl, hline⟩ := hturn.hash_keyword hp.bracket hcode' hhash' hname hkeyword
        exact hcodeLine hl hline
    · have hround : c = '(' ∨ c = '[' := by
        simpa [brackets, hbrace] using hc
      rcases hturn.hash_called hp.bracket hcode' hhash' hname hround with hl | ⟨hl, hline⟩
      · exact hturn.outcome hp hc hclosing hkn hnext hl
      · exact hcodeLine hl hline
  · refine ht.outcome_mild hp hc h hold hnew hk ho hkm hhash hm hparts hend hbehind
      fun hold => absurd ?_ hword
    rcases Nat.lt_or_ge (k + 1) m with hlt | hge
    · rwa [hp.same (k + 1) hlt]
    · obtain rfl : m = k + 1 := by omega
      exact hp.word (Nat.lt_of_le_of_ne hp.le hbehind) hold

end Hash

omit hclosing ho in
/-- Where all that comes is sealed in. -/
theorem Ongoing.quiets (hsealed : p.top.kind.isSealed = true)
    (hs : Adds (Event.Spares Construct.lapses pos) p (finish text carried))
    (hhash : k = n ∨ ∀ i, n = i + 1 → (endless text' i).isSymbol '#' = false) :
    Quiet text text' carried n c pos Construct.lapses p.top.kind p := by
  have hsealed' : q.top.kind.isSealed = true := h.peers.top ▸ hsealed
  have hcode : q.top.kind.holdsCode = false := by
    revert hsealed'
    cases q.top.kind <;> simp [Construct.isSealed, Construct.holdsCode]
  have hunasked : Unasked text' n c p.top.kind p.events := by
    refine hnew.unasked (Nat.le_trans hk hp.le) hc hp.bracket (fun _ => hcode) h.toTelling
      List.suffix_rfl fun i hn hi => ⟨?_, rfl, fun _ _ _ => .inr ⟨h.peers.top.symm, hsealed⟩⟩
    refine hhash.resolve_right fun hnone => ?_
    rw [hnone i hn] at hi
    cases hi
  refine ⟨hold.halted (hp.start_le hk), hs, ?_, .inr ⟨rfl, hsealed⟩, hunasked,
    fun _ => (hold.seated.mono (hp.start_le hk)).comments⟩
  obtain ⟨below, hstack⟩ := hold.steady.rooted.stack_eq
  have hlapses : p.top.kind.lapses = false := by
    revert hsealed
    cases p.top.kind <;> simp [Construct.isSealed, Construct.lapses]
  rw [hstack, List.map_cons, List.find?_cons_of_pos (by simp [hlapses])]
  rfl

section Rules

variable {acs : Bool} {rule : Rule} (hm : rule ∈ Rule.within p.top.kind acs)
  (hparts : ¬ Shared (endless text) (endless text') m rule.pattern k) (hkm : k < m)
  (hend : p.stream.atEnd = false)

include hm hparts hkm hend

omit hclosing ho in
/-- Where the marks that close raw text or a comment reach over the place. -/
theorem Ongoing.outcome_closer (hsealed : p.top.kind.isSealed = true) :
    Outcome text text' carried n c pos := by
  have hglances : rule.pattern.glances = false := by
    rw [Bool.eq_false_iff]
    exact fun hglances => hparts (Matcher.shared_glances hp.same hkm hglances)
  obtain ⟨marks, hmarks, hline, hpattern, hwithin⟩ := Rule.within_text hsealed hm hglances
  rw [hpattern] at hparts
  obtain ⟨hspells, hlong⟩ := apart_symbols hp hc hmarks hparts hk
  have hlate := marks_late hp hspells hk hlong
  refine .quiet _ _ p (hold.quiets hp hc h hnew hk hsealed (hold.sealed_spares hsealed
    (.inr ⟨hline, fun acs => ?_⟩) (fun acs rule hrule j hreads => ?_) hend) (.inr fun i hn => ?_))
  · exact ⟨Rule.closedBy marks, by rw [hwithin]; exact List.mem_cons_self, _, .symbols hspells⟩
  · rw [hwithin, List.mem_singleton] at hrule
    subst hrule
    obtain rfl := Option.some.inj (hreads.unique (.symbols hspells))
    exact ⟨rfl, hlate⟩
  · exact marks_no_hash hp hmarks hspells hkm hlong i hn

omit hclosing ho in
/-- Where code meets the mark of a raw block that reaches over the place. -/
theorem Ongoing.outcome_fence (hcode : p.top.kind.holdsCode = true)
    (htick : (endless text k).isSymbol '\x60' = true) : Outcome text text' carried n c pos := by
  have hpasses := passes_symbol hp hparts (Nat.le_refl k) hkm htick
  obtain ⟨_, _, _, hticks⟩ := Rule.within_formal (by simp [Construct.isFormal, hcode]) acs rule hm
  have hpattern := Matcher.eq_of_spells (hticks _ hpasses).1
  rw [hpattern] at hparts
  obtain ⟨hspells, hlong⟩ := apart_symbols hp hc (by simp) hparts hk
  have hnone := marks_no_hash hp (by simp) hspells hkm hlong
  obtain ⟨l, hturn, hnext⟩ := hold.step hend
  obtain ⟨i, hplace⟩ := Rule.within_fence hcode
  have hsymbol := Matcher.isSymbol_kind htick
  obtain ⟨acs', i', rule', p₁, j, hi, hlisted, hmatched, hresumed, hfirst⟩ :=
    hturn.upto (fun acs => (hplace acs).1) (.symbols hspells) (by rw [hsymbol]; decide)
      (fun _ => by rw [hsymbol]; decide)
  obtain ⟨hrule, hbefore⟩ := hplace acs'
  obtain rfl : i' = i := by
    refine Nat.le_antisymm hi (Nat.le_of_not_lt fun hlt => ?_)
    have hmem : rule' ∈ (Rule.within p.top.kind acs').take i := by
      refine List.mem_of_getElem? (i := i') ?_
      rwa [List.getElem?_take_of_lt hlt]
    obtain ⟨s, hs, hsign⟩ := hmatched.reads.leads (hbefore rule' hmem).1
    obtain rfl := Matcher.isSymbol_unique htick hsign
    revert hs
    decide
  obtain rfl := Option.some.inj (hlisted.symm.trans hrule)
  cases hresumed with
  | onward next hnext => cases hnext
  | otherwise _ p₂ hpassed result =>
    obtain rfl := Option.some.inj (hmatched.reads.unique (.symbols hspells))
    have hlate := marks_late hp hspells hk hlong
    have hstart : p₁.mark.start = (endless text k).start :=
      hfirst hold.steady.clean (fun r hr => (hbefore r hr).2) (by decide)
    have hevents : p.step.events =
        .push { kind := .rawBlock, start := p₁.mark.start } p₁.mark.stop :: p.events := by
      rw [result, ← hmatched.events]
      exact hpassed.events
    have hl : 0 < k + "```".toList.length := by omega
    obtain ⟨later, hlater, hfollows⟩ := hnext.follows hl (Nat.le_of_lt hlate)
    have hunasked : Unasked text' n c .rawBlock p.events := by
      have hkn : k ≠ n := Nat.ne_of_lt (Nat.lt_of_lt_of_le hkm hp.le)
      refine hnew.unasked (Nat.le_trans hk hp.le) hc hp.bracket (fun heq => absurd heq hkn)
        h.toTelling List.suffix_rfl fun i hn hi => ?_
      rw [hnone i hn] at hi
      cases hi
    have hbegins : (endless text k).start < pos := by
      have hfilled : (endless text k).start < (endless text (k + 1)).start := by
        rw [← Token.endless_stop, Token.endless_extent htick]
        exact Nat.lt_add_of_pos_right (Char.utf8Size_pos _)
      exact Nat.lt_of_lt_of_le hfilled (hp.start_le hkm)
    exact .fenced _ _ later p.events (by rw [hlater, hevents]) rfl (hstart ▸ hbegins)
      (fun e he => (hfollows e he).spares fun _ => id) hunasked

/-- Where a pattern is not read alike. -/
theorem Beside.outcome_rule (hstay : c = '\x7b' → KeywordsStay text text' carried n) :
    Outcome text text' carried n c pos := by
  have hkn : k < n := Nat.lt_of_lt_of_le hkm hp.le
  rcases hold.kinds ho c with hw | ht | hsealed
  · by_cases hraw : p.top.kind.holdsCode = true ∧ (endless text k).isSymbol '\x60' = true
    · exact hold.outcome_fence hp hc h hnew hk hm hparts hkm hend hraw.1 hraw.2
    · have hformal : p.top.kind.isFormal = true := by
        rcases hw with hw | ⟨_, hchain, _⟩
        · simp only [Construct.welcomes, Bool.or_eq_true, Bool.and_eq_true] at hw
          simp only [Construct.isFormal, Bool.or_eq_true]
          exact .inl (hw.imp_right And.right)
        · simp [Construct.isFormal, hchain]
      have hw' : Welcomes c q := by
        rw [Welcomes, ← h.peers.top, ← h.peers.pop.top]
        exact hw
      refine hw'.outcome hp hc hclosing hnew hkn.le fun i hlow hi => ?_
      refine apart_bland hp hc hm hparts hformal (fun hcode => ?_) hlow hi
      rw [Bool.eq_false_iff]
      exact fun htick => hraw ⟨hcode, htick⟩
  · by_cases hhash : (endless text k).isSymbol '#' = true
    · exact ht.outcome_hash hp hc hclosing h hold hnew hk ho hkm hhash hm hparts hend hstay
    · rw [Bool.not_eq_true] at hhash
      refine ht.outcome_bare hp hc hclosing h hold hnew hk ho hkn (fun i hi hearly s hs =>
        apart_plain_first hp hm hparts hkm hhash hi hearly hs) (fun hchain hword => ?_)
        (apart_no_hash hp hm hparts hkm fun _ => hhash) hend
      exact named_chain hp hc hm hparts hkm hchain (by rwa [hp.same k hkm])
  · exact hold.outcome_closer hp hc h hnew hk hm hparts hkm hend hsealed

end Rules

end Old

/-- Where both have come to the first token that differs. -/
theorem Beside.outcome_arrived (hc : c ∈ brackets)
    (hclosing : (endless text' (n + 1)).isSymbol (LineStore.closing c) = true)
    (h : Beside text text' m p q) (hold : Ongoing text carried m p)
    (hnew : Ongoing text' carried m q) (ho : Parse.Orderly carried) :
    Outcome text text' carried n c pos := by
  have hle : m ≤ m := Nat.le_refl m
  have hbehind (hmn : m < n) : p.stream.atEnd = false := by
    rw [Bool.eq_false_iff]
    intro hend
    have hfilled := Nat.lt_trans (hp.low hmn) (hp.high hmn)
    exact Token.kind_ne_textEnd hfilled (hold.coming.kind_atEnd hend)
  have hfollows (heq : m = n) : Adds (Event.Follows pos) p (finish text carried) :=
    hold.follows hp.first (Nat.le_of_eq (hp.whole heq).symm)
  rcases hold.kinds ho c with hw | ht | hsealed
  · have hw' : Welcomes c q := by
      rw [Welcomes, ← h.peers.top, ← h.peers.pop.top]
      exact hw
    exact hw'.outcome hp hc hclosing hnew hp.le fun i hlow hi => bland_piece hp hlow hi
  · rcases Nat.eq_or_lt_of_le hp.le with heq | hmn
    · exact ht.outcome hp hc h hold hnew hle ho
        (spares_of_follows (hfollows heq) fun _ => lapses_light) (.inl heq)
    · refine ht.outcome_bare hp hc hclosing h hold hnew hle ho hmn (fun i hi hearly s _ =>
        hp.early_symbol hi hearly s) (fun _ hword => ?_) (piece_hash hp hmn) (hbehind hmn)
      have hnamed := named_or_shared hp hc (hp.word hmn hword) hle
      exact hnamed.resolve_right fun hlonger => Nat.lt_irrefl m hlonger.1
  · rcases Nat.eq_or_lt_of_le hp.le with heq | hmn
    · exact .quiet _ _ p (hold.quiets hp hc h hnew hle hsealed
        (spares_of_follows (hfollows heq) fun _ => id) (.inl heq))
    · refine .quiet _ _ p (hold.quiets hp hc h hnew hle hsealed (hold.sealed_spares hsealed
        (.inl ?_) (fun acs rule hm j hreads => ?_) (hbehind hmn)) (.inr (piece_hash hp hmn)))
      · rw [← Token.endless_stop]
        exact hp.high hmn
      · obtain ⟨s, _, hsign⟩ := hreads.leads (Rule.within_closers hsealed acs rule hm)
        rw [hp.early_symbol hle (hp.low hmn)] at hsign
        cases hsign

end Outcome

end Parser

end LineMarkup
