import LineMarkup.Proofs.Event.Verbatim
import LineMarkup.Proofs.Matcher.Spelling
import LineMarkup.Proofs.Parser.Course

namespace LineMarkup.Parser

open Text (OccursAt Absent standsAlone size_append)
open Token (Stream Tiles Cuts scan ending unmarked)
open Token.Stream

variable {text mark before rest : Text} {pos pos' : Nat} {carried : List Construct}
  {p p' : Parser} {kind : Construct}

/-- The tokens ahead, marks aside, are those of the rest of the text. -/
structure Stands (text : Text) (pos : Nat) (s : Stream) (before rest : Text) : Prop where
  split : text = before ++ rest
  size : before.size = pos
  cuts : Cuts before rest
  ahead : ∃ n, (Stream.ahead s).map unmarked =
    scan pos rest ++ List.replicate n (ending text.size)

theorem Reaches.stands (h : Reaches (ofText text carried) p)
    (hp : Poised text.size pos p.stream) (hpos : 0 < pos) :
    ∃ before rest, Stands text pos p.stream before rest := by
  obtain ⟨takings, hcourse⟩ := h
  obtain ⟨n, hall⟩ := (hcourse.taken rfl).all
  have hkept : ∀ t ∈ Token.beginning :: scan 0 text, t.discarded = false := by
    intro t ht
    rcases List.mem_cons.mp ht with rfl | ht
    · rfl
    · exact (Token.scan_genuine ht).kept
  have hstart : (ahead (ofText text carried).stream).map unmarked =
      Token.beginning :: scan 0 text := Token.map_unmarked hkept
  rw [hstart, List.map_append] at hall
  have htiles := Token.tiles_unmarked.mpr hp.tiles
  cases htaken : (takings.flatMap Taking.tokens).map unmarked with
  | nil =>
    -- Nothing has been taken, so that the cursor is still at the front.
    rw [htaken, List.nil_append] at hall
    rw [hall] at htiles
    have : 0 = pos := htiles.1
    omega
  | cons t taken =>
    rw [htaken, List.cons_append, List.cons_append, List.cons.injEq] at hall
    have hscan : scan (Text.size []) text ++ List.replicate n (ending text.size) =
        taken ++ (ahead p.stream).map unmarked := hall.2.symm
    obtain ⟨before, rest, k, hsplit, hcuts, hahead⟩ :=
      Token.scan_rest hscan (Token.cuts_start text)
    rw [List.nil_append] at hcuts hahead
    have hscanned := Token.scan_tiles before.size rest
    rw [← size_append, ← hsplit] at hscanned
    have hsize : before.size = pos := by
      apply Token.Tiles.start_unique _ htiles
      rw [hahead]
      exact Token.tiles_append.mpr ⟨text.size, hscanned, Token.tiles_endings⟩
    subst hsize
    exact ⟨before, rest, hsplit, rfl, hcuts, k, hahead⟩

theorem Stands.tried (h : Stands text pos p.stream before rest)
    (ht : Tried text.size pos ms p p') : Stands text pos p'.stream before rest := by
  obtain ⟨n, hn⟩ := h.ahead
  obtain ⟨k, hk⟩ := ht.unmarked
  refine ⟨h.split, h.size, h.cuts, n + k, ?_⟩
  rw [hk, hn, List.append_assoc, List.replicate_append_replicate]

theorem terminator_alone (hk : kind.terminator? = some mark) :
    mark ≠ [] ∧ ∀ c ∈ mark, standsAlone c = true ∧ c ≠ '\\' := by
  cases kind <;> simp only [Construct.terminator?, reduceCtorEq, Option.some.injEq] at hk <;>
    subst hk <;> simp [standsAlone]

theorem terminator_starts (hk : kind.terminator? = some mark) :
    ∃ d pattern, mark = d :: pattern ∧ standsAlone d = true := by
  obtain ⟨hne, halone⟩ := terminator_alone hk
  obtain ⟨d, pattern, rfl⟩ := List.exists_cons_of_ne_nil hne
  exact ⟨d, pattern, rfl, (halone d List.mem_cons_self).1⟩

/-- The one rule within a construct that has a mark. -/
theorem within_terminator (hk : kind.terminator? = some mark) (acs : Bool) :
    Rule.within kind acs = [{ pattern := .symbols mark, actions := [.pop] }] := by
  cases kind <;> simp only [Construct.terminator?, reduceCtorEq, Option.some.injEq] at hk <;>
    subst hk <;> rfl

/-- The mark that is matched stands at the cursor, and the cursor moves past it. -/
theorem Accepted.mark_prefix (h : Accepted (.symbols mark) text.size pos pos' p p' lead more)
    (hp : Poised text.size pos p.stream) (hs : Stands text pos p.stream before rest) :
    mark <+: rest ∧ pos' = pos + mark.size := by
  obtain ⟨s, hrun, _, htaken⟩ := h.run
  obtain ⟨hmatched, hspell⟩ := Matcher.run_symbols mark p.stream
  rw [hrun] at hmatched hspell
  have hspell : Matcher.spell mark p.stream = (true, s) := (hspell hmatched.symm).symm
  obtain ⟨tokens, k, hconsumed, hahead, hall⟩ := Matcher.spell_takes hspell
  obtain ⟨n, hn⟩ := hs.ahead
  have htokens : lead.map Token.discard ++ more = tokens := by
    rw [← htaken, Stream.taken, hconsumed, hp.consumed]
    simp
  have hscan : scan pos rest ++ List.replicate (n + k) (ending text.size) =
      tokens.map unmarked ++ (ahead s).map unmarked := by
    rw [← List.map_append, hahead, List.map_append, hn, List.map_replicate, hp.stop,
      Token.unmarked_ending, List.append_assoc, List.replicate_append_replicate]
  have hsymbols : List.Forall₂ (fun t c => Token.isSymbol t c = true) (tokens.map unmarked) mark :=
    List.forall₂_map_left_iff.mpr hall
  obtain ⟨hbegins, htiles⟩ := Token.scan_spelled hscan hsymbols
  refine ⟨hbegins, ?_⟩
  apply Token.Tiles.stop_unique h.tiles_shown
  rw [htokens]
  exact Token.tiles_unmarked.mp htiles

theorem Stands.matched {s : Stream} {after : Text} (h : Stands text pos s before (mark ++ after))
    (hm : ∀ c ∈ mark, standsAlone c = true ∧ c ≠ '\\') :
    ((Matcher.symbols mark).run s).1 = true := by
  obtain ⟨n, hn⟩ := h.ahead
  rw [(Matcher.run_symbols mark s).1]
  exact Matcher.spell_of_scan hm hn

/-- The next token ends with the next lexeme. -/
theorem Stands.fetch {s : Stream} (h : Stands text pos s before rest)
    (hp : Poised text.size pos s) :
    (rest = [] ∧ s.fetch.1.stop = pos) ∨ ∃ c more, rest = c :: more ∧
      s.fetch.1.stop = pos + Text.size (c :: more.take (Token.lexeme c more).2) := by
  obtain ⟨n, hn⟩ := h.ahead
  obtain ⟨k, hk⟩ := Reads.fetch_ahead s
  have hahead := congrArg (List.map unmarked) hk
  rw [List.map_cons, List.map_append, hn, List.map_replicate, hp.stop, Token.unmarked_ending,
    List.append_assoc, List.replicate_append_replicate] at hahead
  cases rest with
  | nil =>
    left
    rw [scan, List.nil_append] at hahead
    have hend : s.fetch.1.unmarked = ending text.size := by
      apply List.eq_of_mem_replicate (n := n + k)
      rw [← hahead]
      exact List.mem_cons_self
    have hsize : text.size = pos := by
      rw [h.split, List.append_nil, h.size]
    refine ⟨rfl, ?_⟩
    rw [← hsize]
    exact congrArg Token.stop hend
  | cons c more =>
    right
    rw [Token.scan_cons, List.cons_append, List.cons.injEq] at hahead
    exact ⟨c, more, rfl, congrArg Token.stop hahead.1⟩

/-- A token that is no part of a mark has no mark in it. -/
theorem Stands.absent {s : Stream} (h : Stands text pos s before rest)
    (hp : Poised text.size pos s) (hk : kind.terminator? = some mark) (hn : ¬ mark <+: rest) :
    Absent text mark pos s.fetch.1.stop := by
  obtain ⟨d, pattern, rfl, halone⟩ := terminator_starts hk
  intro other hlow hhigh
  rcases h.fetch hp with ⟨_, hstop⟩ | ⟨c, more, rfl, hstop⟩
  · omega
  · rw [h.split]
    apply Token.not_occursAt_within h.cuts halone hn
    · rw [h.size]
      exact hlow
    · rw [h.size, ← hstop]
      exact hhigh

theorem Stands.occursAt {s : Stream} {after : Text}
    (h : Stands text pos s before (mark ++ after)) (hk : kind.terminator? = some mark) :
    OccursAt text mark pos := by
  obtain ⟨d, pattern, rfl, halone⟩ := terminator_starts hk
  refine ⟨before, after, ?_, h.size, ?_⟩
  · rw [List.append_assoc]
    exact h.split
  · have hcuts : Cuts before (d :: (pattern ++ after)) := h.cuts
    exact hcuts.alone halone

end LineMarkup.Parser
