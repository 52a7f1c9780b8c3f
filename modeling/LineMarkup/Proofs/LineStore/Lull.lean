import LineMarkup.Proofs.LineStore.Account
import LineMarkup.Proofs.Parser.Onward

namespace LineMarkup

open Token (endless)

/-- What is sealed is the innermost construct, if only what lapses is around it. -/
theorem Parser.top_of_sealed {p : Parser} {kind : Construct} (hr : Rooted p)
    (hn : Construct.Nested (p.stack.map Frame.kind))
    (hf : ((p.stack.map Frame.kind).find? (!Construct.lapses ·)).getD .content = kind)
    (hs : kind.isSealed = true) : p.top.kind = kind := by
  obtain ⟨below, hstack⟩ := hr.stack_eq
  cases hlapses : p.top.kind.lapses with
  | false =>
    rwa [hstack, List.map_cons, List.find?_cons_of_pos (by simp [hlapses]),
      Option.getD_some] at hf
  | true =>
    obtain ⟨outer, rest, houter⟩ := hr.below_of_ne (by
      intro htop
      rw [htop] at hlapses
      cases hlapses)
    obtain ⟨hlasts, hopen⟩ := pop_unsealed hr hn
    have hpop : p.pop.top = outer := by
      rw [top, pop, houter]
      rfl
    rw [hpop] at hlasts hopen
    rw [houter, List.map_cons, List.find?_cons_of_neg (by simp [hlapses]), List.map_cons,
      List.find?_cons_of_pos (by simp [hlasts]), Option.getD_some] at hf
    rw [hf, hs] at hopen
    cases hopen

namespace Document

open LineMarkup.Span (Record)

variable {d : Document} {line : Line} {span : Span} {later earlier es : List Event}
  {text' : Text} {light : Construct → Bool} {around : Construct} {c : Char} {i id k n pos : Nat}

/-- An account of line `i` by which nothing has the bracket `c` closed at a position, which is where
token `n` of another text begins. What comes later spares the position, and around it is
`around`. -/
structure Lull (d : Document) (i : Nat) (line : Line) (id : Nat) (text' : Text) (n : Nat) (c : Char)
    (pos : Nat) (light : Construct → Bool) (around : Construct) (later earlier : List Event) :
    Prop where
  account : Account d i line id (later ++ earlier)
  place : (endless text' n).start = pos
  met : ∀ frame stop, .instant frame stop ∈ earlier → stop ≤ pos
  explicit : ∀ frame stop, .pop frame stop true ∉ earlier
  spares : ∀ e ∈ later, e.Spares light pos
  head : ((Record.burden light (line.start + pos)
    (Record.along (d.within i) line.start id earlier).spans).head?.map (·.1)).getD .content = around
  kinds : light = Construct.isLight c ∧ around.isBase c = true ∨
    light = Construct.lapses ∧ around.isSealed = true
  unasked : Parser.Unasked text' n c around earlier
  comments : around.isComment = true → ∀ first,
    (around, first) ∈ Record.burden light (line.start + pos)
      (Record.along (d.within i) line.start id earlier).spans →
    line.start ≤ first → first + 2 ≤ line.start + pos

namespace Lull

variable (h : Lull d i line id text' n c pos light around later earlier)
  (hl : d.lines[i]? = some line)

include h

theorem light_silent {kind : Construct} (hk : light kind = true) : kind.isSilent c = true := by
  rcases h.kinds with ⟨rfl, _⟩ | ⟨rfl, _⟩
  · exact Construct.silent_of_light hk
  · exact Construct.silent_of_light (Parser.lapses_light hk)

theorem around_silent : around.isSilent c = true := by
  rcases h.kinds with ⟨_, hbase⟩ | ⟨_, hsealed⟩
  · exact Construct.silent_of_base hbase
  · exact Construct.silent_of_sealed hsealed

theorem around_holds : ¬ (around.holdsCode = true ∨ around.isName = true ∨
    c = '(' ∧ around.holdsMath = true) := by
  rcases h.kinds with ⟨_, hbase⟩ | ⟨_, hsealed⟩
  · revert hbase
    cases around <;> simp [Construct.isBase, Construct.holdsCode, Construct.isName,
      Construct.holdsMath]
  · revert hsealed
    cases around <;> simp [Construct.isSealed, Construct.holdsCode, Construct.isName,
      Construct.holdsMath]

/-- What has a bracket closed is not light. -/
theorem heavy {kind : Construct}
    (hk : c ≠ '\x7b' ∧ kind.isName = true ∨ kind.isArgument = true ∨ kind = .codeLine) :
    light kind = false := by
  rw [Bool.eq_false_iff]
  intro hlight
  have hlight : kind.isLight c = true := by
    rcases h.kinds with ⟨rfl, _⟩ | ⟨rfl, _⟩
    · exact hlight
    · exact Parser.lapses_light hlight
  revert hk hlight
  cases kind <;> simp [Construct.isName, Construct.isArgument, Construct.isLight]

include hl

/-- What is found is light, or what is around the position. -/
theorem found :
    let found := ((d.store.spanAt? i (line.start + pos)).map Span.kind).getD .content
    light found = true ∨ found = around := by
  intro found
  have hfound := Record.find_burden light (line.start + pos)
    (Record.along (d.within i) line.start id (later ++ earlier)).spans
  rw [Record.along_burden _ _ _ _ h.spares, h.head, ← List.reverse_reverse (Record.spans _),
    ← h.account.spans, ← spanAt_eq hl] at hfound
  exact hfound.imp_right Eq.symm

theorem found_silent :
    (((d.store.spanAt? i (line.start + pos)).map Span.kind).getD .content).isSilent c = true := by
  rcases h.found hl with hlight | hsame
  · exact h.light_silent hlight
  · rw [hsame]
    exact h.around_silent

/-- Code that ends with its line does so where something begins right before the position. That is
no comment, which begins with two characters. -/
theorem line_behind (hpos : 0 < pos) (hspan : d.store.spanAt? i (line.start + pos - 1) = some span)
    (himplicit : span.implicit = true) (hk : span.kind = .codeLine) :
    ∃ here, d.store.spanAt? i (line.start + pos) = some here ∧
      here.first + 1 = line.start + pos ∧ here.kind = around ∧ around.isComment = false := by
  obtain ⟨stack, ht, hr⟩ := h.account.trace
  have hother : around ≠ span.kind := by
    intro heq
    have hsilent := h.around_silent
    rw [heq, hk] at hsilent
    cases hsilent
  rw [spanAt_eq hl, h.account.spans, List.reverse_reverse] at hspan
  obtain ⟨here, hhere, hfirst, hheavy, hburden⟩ := Record.find_behind ht hr h.account.carried
    h.spares h.explicit hspan (by rw [hk]; rfl) (h.heavy (.inr (.inr hk))) himplicit
    (h.head.symm ▸ hother)
  rw [← List.reverse_reverse (Record.spans _), ← h.account.spans, ← spanAt_eq hl] at hhere
  have hfound := h.found hl
  simp only [hhere, Option.map_some, Option.getD_some] at hfound
  have haround : here.kind = around := by
    refine hfound.resolve_left fun hlight => ?_
    rw [hheavy] at hlight
    cases hlight
  refine ⟨here, hhere, hfirst, haround, ?_⟩
  rw [Bool.eq_false_iff]
  intro hcomment
  have hmark := h.comments hcomment here.first (haround ▸ hburden) (by omega)
  omega

omit hl

/-- No name reaches up to the position. -/
theorem no_name (hc : c ≠ '\x7b') (hs : span ∈ line.analysis.spans) (hended : span.isOpen = false)
    (himplicit : span.implicit = true) (hk : span.kind.isName = true) :
    Span.holds (line.start + pos - 1) span = false := by
  rw [Bool.eq_false_iff]
  intro hholds
  obtain ⟨hfirst, hlast⟩ := Span.holds_iff.mp hholds
  obtain ⟨stack, ht, _⟩ := h.account.trace
  rw [h.account.spans, List.mem_reverse] at hs
  cases Record.along_endedAlong h.account.carried.opened id span hs hended with
  | met f stop event name kind first last =>
    have hle := hlast _ last
    have hfilled := ht.instant_filled event
    -- A name that begins behind the position does not reach before it.
    have hbefore : .instant f stop ∈ earlier := by
      refine (List.mem_append.mp event).resolve_left fun hm => ?_
      rcases h.spares _ hm with hlight | hstart | hno
      · rw [h.heavy (.inl ⟨hc, name⟩)] at hlight
        cases hlight
      · omega
      · rw [name] at hno
        cases hno
    have hstop := h.met f stop hbefore
    obtain rfl : stop = pos := by omega
    rw [← h.place] at hbefore
    rw [h.unasked.name hc f hbefore] at name
    cases name
  | closed f stop event kind last =>
    rw [himplicit] at event
    have hline := h.account.implicit f stop event
    rw [← kind] at hk
    revert hk hline
    cases f.kind <;> simp [Construct.isName, Construct.endsWithLine]

/-- An argument with its last position right before the one of a square bracket was closed by a
semicolon. -/
theorem argument_behind (hc : c = '[') (hpos : 0 < pos) (hsize : pos ≤ line.text.size)
    (hs : span ∈ line.analysis.spans) (hk : span.kind.isArgument = true)
    (hlast : span.last = some (line.start + pos - 1)) :
    ∃ k, n = k + 1 ∧ (endless text' k).isSymbol ';' = true := by
  obtain ⟨stack, ht, _⟩ := h.account.trace
  rw [h.account.spans, List.mem_reverse] at hs
  have hended : span.isOpen = false := by simp [Span.isOpen, hlast]
  cases Record.along_endedAlong h.account.carried.opened id span hs hended with
  | met f stop event name kind =>
    rw [← kind] at hk
    revert name hk
    cases f.kind <;> simp [Construct.isName, Construct.isArgument]
  | closed f stop event kind last =>
    have hends := Option.some.inj (hlast.symm.trans last)
    rw [← kind] at hk
    have hlapses : f.kind.lapses = false := by
      revert hk
      cases f.kind <;> simp [Construct.isArgument, Construct.lapses]
    have hfilled := ht.pop_filled event hlapses (by omega)
    have hbefore : .pop f stop span.implicit ∈ earlier := by
      refine (List.mem_append.mp event).resolve_left fun hm => ?_
      rcases h.spares _ hm with hlight | hstop | hstart
      · rw [h.heavy (.inr (.inl hk))] at hlight
        cases hlight
      · omega
      · omega
    obtain rfl : stop = pos := by omega
    rw [← h.place] at hbefore
    exact h.unasked.argument hc f span.implicit hbefore hk

/-- A hash before the position stands in a link, or in what nothing is closed in. -/
theorem hash_behind (hl : d.lines[i]? = some line) (hn : n = k + 1)
    (hk : (endless text' k).isSymbol '#' = true) :
    let found := ((d.store.spanAt? i (line.start + pos - 1)).map Span.kind).getD .content
    found = .link ∨ found = around ∧ light = Construct.lapses ∧ around.isSealed = true := by
  intro found
  obtain ⟨token, frame, hm, hsame, hframe⟩ := h.unasked.hash k hn hk
  have hextent := Token.endless_extent hk
  have hstop : (endless text' k).stop = pos := by
    rw [Token.endless_stop, ← hn, h.place]
  have hone : ('#' : Char).utf8Size = 1 := rfl
  have hstart : token.unmarked.start = (endless text' k).start := congrArg Token.start hsame
  have hends : token.unmarked.stop = (endless text' k).stop := congrArg Token.stop hsame
  have htoken : token.start = token.unmarked.start ∧ token.stop = token.unmarked.stop := ⟨rfl, rfl⟩
  have hfound : found = frame.kind := h.account.spanAt_loose hl
    (List.mem_append_right _ hm) (by omega) (by omega)
  rw [hfound]
  refine hframe.imp_right fun ⟨hkind, hsealed⟩ => ⟨hkind, ?_, hsealed⟩
  rcases h.kinds with ⟨_, hbase⟩ | ⟨hlight, _⟩
  · revert hsealed hbase
    cases around <;> simp [Construct.isSealed, Construct.isBase]
  · exact hlight

end Lull

/-- What is first in frames that end with the line ends with the line. -/
theorem find_ending {frames : List Frame} {frame : Frame}
    (hf : frame ∈ frames.takeWhile (·.kind.endsWithLine)) (hk : light frame.kind = false) :
    ∃ kind, (frames.map Frame.kind).find? (!light ·) = some kind ∧ kind.endsWithLine = true := by
  rw [← List.takeWhile_append_dropWhile (p := fun frame : Frame => frame.kind.endsWithLine)
    (l := frames), List.map_append, List.find?_append]
  cases hfind : ((frames.takeWhile (·.kind.endsWithLine)).map Frame.kind).find? (!light ·) with
  | none =>
    rw [List.find?_eq_none] at hfind
    simpa [hk] using hfind frame.kind (List.mem_map_of_mem hf)
  | some kind =>
    obtain ⟨inner, hm, rfl⟩ := List.mem_map.mp (List.mem_of_find?_eq_some hfind)
    exact ⟨_, rfl, List.all_eq_true.mp List.all_takeWhile inner hm⟩

section Split

variable (h : Account d i line id es)
  (hsplit : (Parser.finish line.text ((d.within i).map Span.kind)).events = later ++ earlier)
  (hspares : ∀ e ∈ later, e.Spares light pos) (hlight : light .content = false)
  (hhead : ((Record.burden light (line.start + pos)
    (Record.along (d.within i) line.start id earlier).spans).head?.map (·.1)).getD .content =
      around)

include h hsplit hspares hlight hhead

theorem Account.head_ended (hpos : pos = line.text.size) (hsize : 0 < line.text.size) :
    (((Parser.finish line.text ((d.within i).map Span.kind)).stack.map Frame.kind).find?
      (!light ·)).getD .content = around := by
  subst hpos
  rw [← h.head_finished hsize hlight, hsplit, Record.along_burden _ _ _ _ hspares, hhead]

/-- What ends with the line spares a position, if what is around that does not end there. -/
theorem Account.endings_spare (hpos : pos ≤ line.text.size)
    (hline : around.endsWithLine = true → pos < line.text.size ∨ pos = 0) :
    ∀ e ∈ (Parse.ofText line.text ((d.within i).map Span.kind)).endings, e.Spares light pos := by
  intro e he
  obtain ⟨frame, hf, rfl⟩ := List.mem_map.mp (List.mem_reverse.mp he)
  rcases Nat.eq_zero_or_pos pos with rfl | hpositive
  · exact .inr (.inr (Nat.zero_le _))
  rcases Nat.lt_or_ge pos line.text.size with hlt | hge
  · exact .inr (.inl hlt)
  left
  by_contra hheavy
  rw [Bool.not_eq_true] at hheavy
  rw [Parse.ofText_ended] at hf
  obtain ⟨kind, hfind, hends⟩ := find_ending hf hheavy
  have hended := h.head_ended hsplit hspares hlight hhead (Nat.le_antisymm hpos hge)
    (Nat.lt_of_lt_of_le hpositive hpos)
  rw [hfind, Option.getD_some] at hended
  have := hline (hended ▸ hends)
  omega

end Split

section Line

variable (h : Valid d) (hl : d.lines[i]? = some line) (hs : line.shebang = false)
  (hplace : (endless text' n).start = pos) (hpos : pos ≤ line.text.size)

include h hl hs hplace hpos

/-- Where what comes later spares a position, and all that was reported before is known not to have
the bracket closed, there is a lull, or a comment goes on to the end of the line. -/
theorem Valid.lull
    (hsplit : (Parser.finish line.text ((d.within i).map Span.kind)).events = later ++ earlier)
    (hspares : ∀ e ∈ later, e.Spares light pos)
    (hhead : ∀ id, Account d i line id
        ((Parse.ofText line.text ((d.within i).map Span.kind)).endings ++ (later ++ earlier)) →
      ((Record.burden light (line.start + pos) (Record.along (d.within i) line.start id
        earlier).spans).head?.map (·.1)).getD .content = around)
    (hkinds : light = Construct.isLight c ∧ around.isBase c = true ∨
      light = Construct.lapses ∧ around.isSealed = true)
    (hmet : ∀ frame stop, .instant frame stop ∈ earlier → stop ≤ pos)
    (hunasked : Parser.Unasked text' n c around earlier)
    (hcomments : ∀ id, Account d i line id
        ((Parse.ofText line.text ((d.within i).map Span.kind)).endings ++ (later ++ earlier)) →
      around.isComment = true → ∀ first, (around, first) ∈ Record.burden light (line.start + pos)
        (Record.along (d.within i) line.start id earlier).spans →
      line.start ≤ first → first + 2 ≤ line.start + pos) :
    (∃ id later, Lull d i line id text' n c pos light around later earlier) ∨
      0 < pos ∧ pos = line.text.size ∧
        (Parser.finish line.text ((d.within i).map Span.kind)).top.kind = .commentLine := by
  obtain ⟨id, haccount⟩ := h.account hl hs
  have hlight : light .content = false := by
    rcases hkinds with ⟨rfl, _⟩ | ⟨rfl, _⟩ <;> rfl
  have hhead := hhead id (hsplit ▸ haccount)
  by_cases hline : around.endsWithLine = true → pos < line.text.size ∨ pos = 0
  · left
    refine ⟨id, (Parse.ofText line.text ((d.within i).map Span.kind)).endings ++ later, ?_, hplace,
      hmet, ?_, ?_, hhead, hkinds, hunasked, hcomments id (hsplit ▸ haccount)⟩
    · rwa [List.append_assoc, ← hsplit]
    · intro frame stop hm
      have hexplicit := Parse.finish_explicit line.text ((d.within i).map Span.kind) frame stop
      rw [hsplit] at hexplicit
      exact hexplicit (List.mem_append_right _ hm)
    · intro e he
      refine (List.mem_append.mp he).elim (fun he => ?_) (hspares e)
      exact haccount.endings_spare hsplit hspares hlight hhead hpos hline e he
  · right
    simp only [not_forall, not_or, Nat.not_lt] at hline
    obtain ⟨hends, hge, hne⟩ := hline
    have hpos : pos = line.text.size := Nat.le_antisymm hpos hge
    have hended := haccount.head_ended hsplit hspares hlight hhead hpos (by omega)
    refine ⟨Nat.pos_of_ne_zero hne, hpos, ?_⟩
    obtain ⟨hcomment, rfl⟩ : around = .commentLine ∧ light = Construct.lapses := by
      rcases hkinds with ⟨_, hbase⟩ | ⟨hlapses, hsealed⟩
      · revert hends hbase
        cases around <;> simp [Construct.endsWithLine, Construct.isBase]
      · refine ⟨?_, hlapses⟩
        revert hends hsealed
        cases around <;> simp [Construct.endsWithLine, Construct.isSealed]
    obtain ⟨k, hfinish⟩ := Parser.ongoing_finish line.text haccount.carried.unlinked
    have hnested := hfinish.nested (h.orderly_within i)
    rw [← hcomment]
    exact Parser.top_of_sealed hfinish.steady.rooted hnested hended (by rw [hcomment]; rfl)

theorem Valid.lull_of_quiet {p : Parser}
    (hq : Parser.Quiet line.text text' ((d.within i).map Span.kind) n c pos light around p)
    (hroom : p.events ≠ [] → 0 < pos) :
    (∃ id later, Lull d i line id text' n c pos light around later p.events) ∨
      0 < pos ∧ pos = line.text.size ∧
        (Parser.finish line.text ((d.within i).map Span.kind)).top.kind = .commentLine := by
  obtain ⟨later, hsplit, hspares⟩ := hq.spares
  have htraced {id : Nat} (haccount : Account d i line id
      ((Parse.ofText line.text ((d.within i).map Span.kind)).endings ++ (later ++ p.events))) :
      Trace line.text.size (Frame.around ((d.within i).map Span.kind)) p.events p.stack ∧
        p.stack.getLast? = some Frame.root := by
    obtain ⟨stack, ht, hr⟩ := haccount.trace
    rw [← List.append_assoc] at ht
    obtain ⟨stack, ht, hr⟩ := ht.earlier hr
    obtain rfl : stack = p.stack := Option.some.inj (ht.replayAll.symm.trans hq.halted.replayed)
    exact ⟨ht, hr⟩
  have hlimit : p.events ≠ [] → 0 < line.text.size :=
    fun hne => Nat.lt_of_lt_of_le (hroom hne) hpos
  refine h.lull hl hs hplace hpos hsplit hspares (fun id haccount => ?_) hq.kinds
    (fun frame stop hm => hq.halted.ended _ hm) hq.unasked
    (fun id haccount hcomment first hm hlow => ?_)
  · obtain ⟨ht, hr⟩ := htraced haccount
    have hlight : light .content = false := by
      rcases hq.kinds with ⟨rfl, _⟩ | ⟨rfl, _⟩ <;> rfl
    rw [Record.head_burden ht hr hq.halted.ended haccount.carried hlimit hlight id]
    exact hq.heavy
  · obtain ⟨ht, hr⟩ := htraced haccount
    obtain ⟨frame, hframe, rfl, hfirst⟩ :=
      Record.frame_of_burden ht hr hq.halted.ended haccount.carried hlimit id hm
    obtain ⟨hnew, rfl⟩ := hfirst hlow
    have hmark := hq.comments hcomment frame hframe hcomment hnew
    omega

/-- In the midst of the mark of a raw block. -/
theorem Valid.lull_of_fence {frame : Frame} {stop : Nat}
    (hsplit : (Parser.finish line.text ((d.within i).map Span.kind)).events =
      later ++ .push frame stop :: earlier) (hk : frame.kind = .rawBlock)
    (hstart : frame.start < pos) (hspares : ∀ e ∈ later, e.Spares Construct.lapses pos)
    (hunasked : Parser.Unasked text' n c .rawBlock earlier) :
    (∃ id later, Lull d i line id text' n c pos Construct.lapses .rawBlock later
      (.push frame stop :: earlier)) ∨
      0 < pos ∧ pos = line.text.size ∧
        (Parser.finish line.text ((d.within i).map Span.kind)).top.kind = .commentLine := by
  refine h.lull hl hs hplace hpos hsplit hspares (fun id haccount => ?_) (.inr ⟨rfl, rfl⟩)
    (fun f stop' hm => ?_) ⟨?_, ?_, ?_⟩ fun _ _ hcomment => (by cases hcomment)
  · rw [Record.along_cons]
    have hholds : line.start + frame.start < line.start + pos := Nat.add_lt_add_left hstart _
    simp [Record.see, Record.add, Record.burden, Span.bears, Span.holds, hk, hholds,
      Record.along_base, Construct.lapses]
  · obtain ⟨id, haccount⟩ := h.account hl hs
    obtain ⟨stack, ht, _⟩ := haccount.trace
    rw [hsplit, ← List.append_assoc] at ht
    have hm := (List.mem_cons.mp hm).resolve_left (by simp)
    cases ht.beginsAfter rfl with
    | clear ended => exact Nat.le_trans (ended _ hm) (Nat.le_of_lt hstart)
    | math kind =>
      rw [hk] at kind
      cases kind
  · intro hc f hm
    exact hunasked.name hc f ((List.mem_cons.mp hm).resolve_left (by simp))
  · intro hc f implicit hm
    exact hunasked.argument hc f implicit ((List.mem_cons.mp hm).resolve_left (by simp))
  · intro k hn hk
    obtain ⟨token, f, hm, hrest⟩ := hunasked.hash k hn hk
    exact ⟨token, f, List.mem_cons_of_mem _ hm, hrest⟩

end Line

end Document

end LineMarkup
