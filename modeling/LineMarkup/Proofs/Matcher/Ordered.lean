import Mathlib
import LineMarkup.Proofs.Matcher.Choice
import LineMarkup.Proofs.Token.Session

namespace LineMarkup

namespace Token.Stream

/-- The cursor goes back to a place that it has passed. -/
def GoesBack (s : Stream) (position : Nat) (s' : Stream) : Prop :=
  position ≤ s.position ∧ s' = s.rewind position

end Token.Stream

namespace Matcher

open Token (Stream Session Access PlainCursor endless)
open Token.Stream

/-- A run of a matcher on a stream that comes to its end, step by step. The cursor is only ever
rewound to where it has been, and what is repeated is repeated until it fails, without a bound. -/
inductive Attempt : Matcher → Stream → Bool → Stream → Prop
  | kind (h : s.fetch.1.kind = k) : Attempt (.kind k) s true s.fetch.2
  | kindMiss (h : s.fetch.1.kind ≠ k) (back : s.fetch.2.GoesBack s.position s') :
    Attempt (.kind k) s false s'
  | symbol (h : s.fetch.1.isSymbol c = true) : Attempt (.symbol c) s true s.fetch.2
  | symbolMiss (h : s.fetch.1.isSymbol c = false) (back : s.fetch.2.GoesBack s.position s') :
    Attempt (.symbol c) s false s'
  | symbols (h : spell text s = (true, s')) : Attempt (.symbols text) s true s'
  | symbolsMiss (h : spell text s = (false, after)) (back : after.GoesBack s.position s') :
    Attempt (.symbols text) s false s'
  | keyword (h : Attempt fullWord s true s')
    (hw : (s'.takenSince s.position).flatMap Token.text ∈ words) :
    Attempt (.keyword words) s true s'
  | keywordOther (h : Attempt fullWord s true after)
    (hw : (after.takenSince s.position).flatMap Token.text ∉ words)
    (back : after.GoesBack s.position s') : Attempt (.keyword words) s false s'
  | keywordMiss (h : Attempt fullWord s false s') : Attempt (.keyword words) s false s'
  | test : Attempt (.test outcome) s outcome s
  | seq (h : Attempt first s true middle) (h' : Attempt second middle true s') :
    Attempt (.seq first second) s true s'
  | seqOther (h : Attempt first s true middle) (h' : Attempt second middle false after)
    (back : after.GoesBack s.position s') : Attempt (.seq first second) s false s'
  | seqMiss (h : Attempt first s false after) (back : after.GoesBack s.position s') :
    Attempt (.seq first second) s false s'
  | alt (h : Attempt first s true s') : Attempt (.alt first second) s true s'
  | altOther (h : Attempt first s false after) (back : after.GoesBack s.position middle)
    (h' : Attempt second middle true s') : Attempt (.alt first second) s true s'
  | altMiss (h : Attempt first s false after) (back : after.GoesBack s.position middle)
    (h' : Attempt second middle false after') (back' : after'.GoesBack middle.position s') :
    Attempt (.alt first second) s false s'
  | optional (h : Attempt body s true s') : Attempt (.optional body) s true s'
  | optionalMiss (h : Attempt body s false after) (back : after.GoesBack s.position s') :
    Attempt (.optional body) s true s'
  | many1Last (h : Attempt body s true middle) (h' : Attempt body middle false after)
    (back : after.GoesBack middle.position s') : Attempt (.many1 body) s true s'
  | many1More (h : Attempt body s true middle) (h' : Attempt (.many1 body) middle true s') :
    Attempt (.many1 body) s true s'
  | many1Miss (h : Attempt body s false after) (back : after.GoesBack s.position s') :
    Attempt (.many1 body) s false s'
  | look (h : Attempt body s matched after) (back : after.GoesBack s.position s') :
    Attempt (.look body) s matched s'
  | discard (h : Attempt body s true after) : Attempt (.discard body) s true after.discard
  | discardMiss (h : Attempt body s false s') : Attempt (.discard body) s false s'

variable {text : Text} {m body : Matcher} {s s' after : Stream} {released : List Token}
  {session : Session} {c : Char} {i j limit fuel : Nat}

theorem goesBack_self (h : after.position = s.position) : after.GoesBack s.position after := by
  refine ⟨Nat.le_of_eq h.symm, ?_⟩
  simp [Stream.rewind, h]

theorem goesBack (h : s.position ≤ after.position) :
    after.GoesBack s.position (after.rewind s.position) :=
  ⟨h, rfl⟩

/-- What the outcome of a run says about the tokens, with a number for the place of the cursor. -/
def result (released : List Token) (outcome : Bool × Stream) : Option Nat :=
  if outcome.1 then some (released.length + outcome.2.position) else none

/-- The run on a stream that has let go of some tokens comes to its end, and is what the reading of
the matcher says of the tokens from the cursor on. -/
structure Agrees (text : Text) (released : List Token) (m : Matcher) (s : Stream) : Prop where
  attempt : Attempt m s (m.run s).1 (m.run s).2
  peg : Peg (endless text) m (released.length + s.position) (result released (m.run s))

theorem fetch_kind (h : Session.Follows text ⟨s, released⟩) :
    (endless text (released.length + s.position)).kind = s.fetch.1.kind := by
  have hfetch : s.fetch.1.unmarked = endless text (released.length + s.position) := h.fetch
  rw [← hfetch]
  rfl

theorem fetch_isSymbol (h : Session.Follows text ⟨s, released⟩) (c : Char) :
    (endless text (released.length + s.position)).isSymbol c = s.fetch.1.isSymbol c := by
  have hfetch : s.fetch.1.unmarked = endless text (released.length + s.position) := h.fetch
  rw [← hfetch]
  rfl

theorem follows_run (h : Session.Follows text ⟨s, released⟩) (m : Matcher) :
    Session.Follows text ⟨(m.run s).2, released⟩ :=
  h.keeps (run_returns m s).keeps

theorem kind_agrees (h : Session.Follows text ⟨s, released⟩) (k : TokenKind) :
    Agrees text released (.kind k) s := by
  have hkind := fetch_kind h
  have hposition := fetch_position s
  have hback : s.position ≤ s.fetch.2.position := hposition ▸ Nat.le_succ _
  by_cases hk : s.fetch.1.kind = k
  · have hrun : run (.kind k) s = (true, s.fetch.2) := by simp [run, one, hk]
    constructor <;> rw [hrun]
    · exact .kind hk
    · rw [result, if_pos rfl, hposition]
      exact .kind (hkind.trans hk)
  · have hrun : run (.kind k) s = (false, s.fetch.2.rewind s.position) := by simp [run, one, hk]
    constructor <;> rw [hrun]
    · exact .kindMiss hk (goesBack hback)
    · exact .kindMiss (hkind ▸ hk)

theorem symbol_agrees (h : Session.Follows text ⟨s, released⟩) (c : Char) :
    Agrees text released (.symbol c) s := by
  have hsymbol := fetch_isSymbol h c
  have hposition := fetch_position s
  have hback : s.position ≤ s.fetch.2.position := hposition ▸ Nat.le_succ _
  cases hc : s.fetch.1.isSymbol c with
  | true =>
    have hrun : run (.symbol c) s = (true, s.fetch.2) := by simp [run, one, hc]
    constructor <;> rw [hrun]
    · exact .symbol hc
    · rw [result, if_pos rfl, hposition]
      exact .symbol (hsymbol.trans hc)
  | false =>
    have hrun : run (.symbol c) s = (false, s.fetch.2.rewind s.position) := by simp [run, one, hc]
    constructor <;> rw [hrun]
    · exact .symbolMiss hc (goesBack hback)
    · exact .symbolMiss (hsymbol.trans hc)

theorem spells_cons {input : Nat → Token} {rest : Text} : Spells input (c :: rest) i ↔
    (input i).isSymbol c = true ∧ Spells input rest (i + 1) := by
  constructor
  · intro h
    refine ⟨h 0 c rfl, fun k d hd => ?_⟩
    rw [Nat.add_assoc, Nat.add_comm 1]
    exact h (k + 1) d hd
  · rintro ⟨hc, hrest⟩ k d hd
    cases k with
    | zero =>
      obtain rfl := Option.some.inj hd
      exact hc
    | succ k =>
      rw [Nat.add_comm k, ← Nat.add_assoc]
      exact hrest k d hd

theorem spell_agrees (h : Session.Follows text ⟨s, released⟩) (symbols : Text) :
    ((spell symbols s).1 = true ↔
      Spells (endless text) symbols (released.length + s.position)) ∧
    ((spell symbols s).1 = true → (spell symbols s).2.position = s.position + symbols.length) := by
  induction symbols generalizing s with
  | nil => exact ⟨iff_of_true rfl (by simp [Spells]), fun _ => rfl⟩
  | cons c rest ih =>
    have hposition := fetch_position s
    obtain ⟨hspell, hlength⟩ := ih (h.keeps (.fetch s))
    rw [hposition, ← Nat.add_assoc] at hspell
    rw [spells_cons, fetch_isSymbol h, ← hspell]
    cases hc : s.fetch.1.isSymbol c with
    | true =>
      simp only [spell, hc, ↓reduceIte, true_and]
      intro hmatch
      rw [hlength hmatch, hposition, List.length_cons]
      omega
    | false => simp [spell, hc]

theorem symbols_agrees (h : Session.Follows text ⟨s, released⟩) (symbols : Text) :
    Agrees text released (.symbols symbols) s := by
  obtain ⟨hspell, hlength⟩ := spell_agrees h symbols
  have hback := (spell_keeps symbols s).2
  rcases hrun : spell symbols s with ⟨_ | _, after⟩ <;> rw [hrun] at hspell hlength hback
  · have hmatch : run (.symbols symbols) s = (false, after.rewind s.position) := by
      simp only [run, hrun]
    constructor <;> rw [hmatch]
    · exact .symbolsMiss hrun (goesBack hback)
    · exact .symbolsMiss fun hs => Bool.false_ne_true (hspell.mpr hs)
  · have hmatch : run (.symbols symbols) s = (true, after) := by simp only [run, hrun]
    constructor <;> rw [hmatch]
    · exact .symbols hrun
    · have hposition : after.position = s.position + symbols.length := hlength rfl
      rw [result, if_pos rfl, hposition, ← Nat.add_assoc]
      exact .symbols (hspell.mp rfl)

theorem seq_agrees {first second : Matcher} (ih : Agrees text released first s)
    (ih' : ∀ s, Session.Follows text ⟨s, released⟩ → Agrees text released second s)
    (h : Session.Follows text ⟨s, released⟩) : Agrees text released (.seq first second) s := by
  obtain ⟨hattempt, hpeg⟩ := ih
  have hreturns := run_returns first s
  have hfollows := follows_run h first
  rcases hrun : run first s with ⟨_ | _, middle⟩ <;>
    rw [hrun] at hattempt hpeg hreturns hfollows
  · have hseq : run (.seq first second) s = (false, middle) := by simp [run, hrun]
    constructor <;> rw [hseq]
    · exact .seqMiss hattempt (goesBack_self (hreturns.back rfl))
    · exact .seqMiss hpeg
  · obtain ⟨hattempt', hpeg'⟩ := ih' middle hfollows
    have hreturns' := run_returns second middle
    rcases hrun' : run second middle with ⟨_ | _, after⟩ <;>
      rw [hrun'] at hattempt' hpeg' hreturns'
    · have hseq : run (.seq first second) s = (false, after.rewind s.position) := by
        simp [run, hrun, hrun']
      constructor <;> rw [hseq]
      · have hback := Nat.le_trans hreturns.forward hreturns'.forward
        exact .seqOther hattempt hattempt' (goesBack hback)
      · exact .seq hpeg hpeg'
    · have hseq : run (.seq first second) s = (true, after) := by simp [run, hrun, hrun']
      constructor <;> rw [hseq]
      · exact .seq hattempt hattempt'
      · exact .seq hpeg hpeg'

theorem alt_agrees {first second : Matcher} (ih : Agrees text released first s)
    (ih' : ∀ s, Session.Follows text ⟨s, released⟩ → Agrees text released second s)
    (h : Session.Follows text ⟨s, released⟩) : Agrees text released (.alt first second) s := by
  obtain ⟨hattempt, hpeg⟩ := ih
  have hreturns := run_returns first s
  have hfollows := follows_run h first
  rcases hrun : run first s with ⟨_ | _, middle⟩ <;>
    rw [hrun] at hattempt hpeg hreturns hfollows
  · have hplace : middle.position = s.position := hreturns.back rfl
    have halt : run (.alt first second) s = run second middle := by simp [run, hrun]
    obtain ⟨hattempt', hpeg'⟩ := ih' middle hfollows
    rw [hplace] at hpeg'
    have hreturns' := run_returns second middle
    constructor <;> rw [halt]
    · rcases hrun' : run second middle with ⟨_ | _, after⟩ <;> rw [hrun'] at hattempt' hreturns'
      · have hplace' : after.position = middle.position := hreturns'.back rfl
        exact .altMiss hattempt (goesBack_self hplace) hattempt' (goesBack_self hplace')
      · exact .altOther hattempt (goesBack_self hplace) hattempt'
    · exact .altOther hpeg hpeg'
  · have halt : run (.alt first second) s = (true, middle) := by simp [run, hrun]
    constructor <;> rw [halt]
    · exact .alt hattempt
    · exact .alt hpeg

theorem optional_agrees (ih : Agrees text released body s) :
    Agrees text released (.optional body) s := by
  obtain ⟨hattempt, hpeg⟩ := ih
  have hreturns := run_returns body s
  rcases hrun : run body s with ⟨_ | _, after⟩ <;> rw [hrun] at hattempt hpeg hreturns
  · have hplace : after.position = s.position := hreturns.back rfl
    have hoptional : run (.optional body) s = (true, after) := by simp [run, hrun]
    constructor <;> rw [hoptional]
    · exact .optionalMiss hattempt (goesBack_self hplace)
    · rw [result, if_pos rfl, hplace]
      exact .optionalMiss hpeg
  · have hoptional : run (.optional body) s = (true, after) := by simp [run, hrun]
    constructor <;> rw [hoptional]
    · exact .optional hattempt
    · exact .optional hpeg

theorem look_agrees (ih : Agrees text released body s) : Agrees text released (.look body) s := by
  obtain ⟨hattempt, hpeg⟩ := ih
  have hforward := (run_returns body s).forward
  rcases hrun : run body s with ⟨matched, after⟩
  rw [hrun] at hattempt hpeg hforward
  have hlook : run (.look body) s = (matched, after.rewind s.position) := by simp [run, hrun]
  constructor <;> rw [hlook]
  · exact .look hattempt (goesBack hforward)
  · cases matched with
    | false => exact .lookMiss hpeg
    | true =>
      rw [result, if_pos rfl, rewind_position hforward]
      exact .look hpeg

theorem discard_agrees (ih : Agrees text released body s) :
    Agrees text released (.discard body) s := by
  obtain ⟨hattempt, hpeg⟩ := ih
  rcases hrun : run body s with ⟨_ | _, after⟩ <;> rw [hrun] at hattempt hpeg
  · have hdiscard : run (.discard body) s = (false, after) := by simp [run, hrun]
    constructor <;> rw [hdiscard]
    · exact .discardMiss hattempt
    · exact .discard hpeg
  · have hdiscard : run (.discard body) s = (true, after.discard) := by simp [run, hrun]
    constructor <;> rw [hdiscard]
    · exact .discard hattempt
    · have hplace : after.discard.position = after.position := by
        simp [Stream.discard, Stream.position]
      rw [result, if_pos rfl, hplace]
      exact .discard hpeg

/-- Where no token of the text is left the body fails, so with a bound beyond that place it is the
body and not the bound that ends the repetition. -/
theorem repeated_agrees
    (ih : ∀ s, Session.Follows text ⟨s, released⟩ → Agrees text released body s)
    (hprogress : ∀ i j, Peg (endless text) body i (some j) →
      ∃ k, i ≤ k ∧ k < j ∧ (endless text k).kind ≠ .textEnd)
    (hend : ∀ k, limit ≤ k → (endless text k).kind = .textEnd)
    (h : Session.Follows text ⟨s, released⟩)
    (hfuel : limit - (released.length + s.position) < fuel) :
    let last := repeated (run body) fuel s
    (Attempt body s false last ∧ last.position = s.position ∧
      Peg (endless text) body (released.length + s.position) none) ∨
    (Attempt (.many1 body) s true last ∧
      Peg (endless text) (.many1 body) (released.length + s.position)
        (some (released.length + last.position))) := by
  induction fuel generalizing s with
  | zero => exact absurd hfuel (Nat.not_lt_zero _)
  | succ fuel hmore =>
    obtain ⟨hattempt, hpeg⟩ := ih s h
    have hreturns := run_returns body s
    have hfollows := follows_run h body
    rcases hrun : run body s with ⟨_ | _, middle⟩ <;>
      rw [hrun] at hattempt hpeg hreturns hfollows
    · simp only [repeated, hrun]
      exact .inl ⟨hattempt, hreturns.back rfl, hpeg⟩
    · obtain ⟨k, hlow, hhigh, hk⟩ := hprogress _ _ hpeg
      have hlimit : k < limit := Nat.lt_of_not_le fun hle => hk (hend k hle)
      have hless : limit - (released.length + middle.position) < fuel := by
        simp only at hhigh
        omega
      simp only [repeated, hrun]
      right
      rcases hmore hfollows hless with ⟨hlast, hplace, hnone⟩ | ⟨hlast, hpeg'⟩
      · refine ⟨.many1Last hattempt hlast (goesBack_self hplace), ?_⟩
        rw [hplace]
        exact .many1Last hpeg hnone
      · exact ⟨.many1More hattempt hlast, .many1More hpeg hpeg'⟩

theorem many1_agrees
    (ih : ∀ s, Session.Follows text ⟨s, released⟩ → Agrees text released body s)
    (hprogress : ∀ i j, Peg (endless text) body i (some j) →
      ∃ k, i ≤ k ∧ k < j ∧ (endless text k).kind ≠ .textEnd)
    (h : Session.Follows text ⟨s, released⟩) : Agrees text released (.many1 body) s := by
  obtain ⟨hattempt, hpeg⟩ := ih s h
  have hreturns := run_returns body s
  have hfollows := follows_run h body
  rcases hrun : run body s with ⟨_ | _, after⟩ <;> rw [hrun] at hattempt hpeg hreturns hfollows
  · have hmany : run (.many1 body) s = (false, after) := by simp [run, repeated1, hrun]
    constructor <;> rw [hmany]
    · exact .many1Miss hattempt (goesBack_self (hreturns.back rfl))
    · exact .many1Miss hpeg
  · have hmany : run (.many1 body) s =
        (true, repeated (run body) (after.remaining + 1) after) := by simp [run, repeated1, hrun]
    have hend : ∀ k, released.length + after.position + after.remaining ≤ k →
        (endless text k).kind = .textEnd := by
      intro k hk
      rw [hfollows.ends hk]
      rfl
    have hfuel : released.length + after.position + after.remaining -
        (released.length + after.position) < after.remaining + 1 := by omega
    constructor <;> rw [hmany]
    · rcases repeated_agrees ih hprogress hend hfollows hfuel with ⟨hlast, hplace, _⟩ | ⟨hlast, _⟩
      · exact .many1Last hattempt hlast (goesBack_self hplace)
      · exact .many1More hattempt hlast
    · rcases repeated_agrees ih hprogress hend hfollows hfuel with ⟨_, hplace, hnone⟩ | ⟨_, hmore⟩
      · rw [result, if_pos rfl, hplace]
        exact .many1Last hpeg hnone
      · exact .many1More hpeg hmore

theorem word_eq (s : Stream) : word s = run fullWord s := by
  simp only [word, fullWord, run]

/-- The tokens taken since a place are numbered from there on. -/
theorem takenSince_unmarked (h : Session.Follows text ⟨after, released⟩) (position : Nat) :
    (after.takenSince position).map Token.unmarked =
      (List.range' (released.length + position) (after.position - position)).map
        (endless text) := by
  have hsince : after.takenSince position = after.taken.drop position := by
    rw [takenSince, taken, List.drop_reverse]
    rfl
  have htaken : after.taken.map Token.unmarked =
      (List.range' released.length after.position).map (endless text) := h.taken
  rw [hsince, List.map_drop, htaken, ← List.map_drop, List.drop_range', Nat.mul_one]

theorem takenSince_text (h : Session.Follows text ⟨after, released⟩) (position : Nat) :
    (after.takenSince position).flatMap Token.text =
      textBetween (endless text) (released.length + position)
        (released.length + after.position) := by
  have hlength : released.length + after.position - (released.length + position) =
      after.position - position := by omega
  rw [← Session.unmarked_text, takenSince_unmarked h, List.flatMap_map, textBetween, hlength]

theorem keyword_agrees (h : Session.Follows text ⟨s, released⟩) (words : List Text) :
    Agrees text released (.keyword words) s := by
  have hproductive : Productive (endless text) fullWord := productive_of_advances rfl
  have hword : Agrees text released fullWord s :=
    many1_agrees (fun s h => kind_agrees h .word) hproductive.2 h
  obtain ⟨hattempt, hpeg⟩ := hword
  have hforward := (run_returns fullWord s).forward
  have hfollows := follows_run h fullWord
  rcases hrun : run fullWord s with ⟨_ | _, after⟩ <;>
    rw [hrun] at hattempt hpeg hforward hfollows
  · have hkeyword : run (.keyword words) s = (false, after) := by simp [run, word_eq, hrun]
    constructor <;> rw [hkeyword]
    · exact .keywordMiss hattempt
    · exact .keywordMiss hpeg
  · have htext := takenSince_text hfollows s.position
    by_cases hw : (after.takenSince s.position).flatMap Token.text ∈ words
    · have hkeyword : run (.keyword words) s = (true, after) := by simp [run, word_eq, hrun, hw]
      constructor <;> rw [hkeyword]
      · exact .keyword hattempt hw
      · exact .keyword hpeg (htext ▸ hw)
    · have hkeyword : run (.keyword words) s = (false, after.rewind s.position) := by
        simp [run, word_eq, hrun, hw]
      constructor <;> rw [hkeyword]
      · exact .keywordOther hattempt hw (goesBack hforward)
      · exact .keywordOther hpeg (htext ▸ hw)

/-- By induction on the matcher: what its parts make of any stream is what their reading says. -/
theorem run_agrees (hm : Productive (endless text) m) (h : Session.Follows text ⟨s, released⟩) :
    Agrees text released m s := by
  induction m generalizing s with
  | kind k => exact kind_agrees h k
  | symbol c => exact symbol_agrees h c
  | symbols symbols => exact symbols_agrees h symbols
  | keyword words => exact keyword_agrees h words
  | test outcome =>
    refine ⟨.test, ?_⟩
    cases outcome with
    | true => exact .test
    | false => exact .testMiss
  | seq first second ih ih' => exact seq_agrees (ih hm.1 h) (fun _ => ih' hm.2) h
  | alt first second ih ih' => exact alt_agrees (ih hm.1 h) (fun _ => ih' hm.2) h
  | optional body ih => exact optional_agrees (ih hm h)
  | many1 body ih => exact many1_agrees (fun _ => ih hm.1) hm.2 h
  | look body ih => exact look_agrees (ih hm h)
  | discard body ih => exact discard_agrees (ih hm h)

end Matcher

namespace Token.Session

/-- What may happen to a stream: an access of a reader, or a matcher that is tried. -/
inductive Deed
  | access (access : Access)
  | attempt (m : Matcher)
deriving Repr

def act (session : Session) : Deed → Session
  | .access access => session.perform access
  | .attempt m => { session with stream := (m.run session.stream).2 }

def actAll (session : Session) (deeds : List Deed) : Session :=
  deeds.foldl act session

variable {text : Text} {session : Session}

theorem Follows.act (h : Follows text session) (deed : Deed) : Follows text (session.act deed) := by
  cases deed with
  | access access => exact h.perform access
  | attempt m => exact h.keeps (Matcher.run_returns m session.stream).keeps

theorem Follows.actAll (h : Follows text session) (deeds : List Deed) :
    Follows text (session.actAll deeds) := by
  induction deeds generalizing session with
  | nil => exact h
  | cons deed deeds ih => exact ih (h.act deed)

/-- From its place on a stream reads the tokens of the text, whatever is done to it next. -/
theorem Follows.fetch_performAll (h : Follows text session) (more : List Access) :
    let cursor := PlainCursor.moveAll ⟨session.base, session.stream.position⟩ more
    (session.performAll more).stream.fetch.1.unmarked =
      endless text (cursor.base + cursor.position) := by
  intro cursor
  obtain ⟨hbase, hposition⟩ : (session.performAll more).base = cursor.base ∧
      (session.performAll more).stream.position = cursor.position :=
    performAll_move more ⟨rfl, rfl⟩
  have hfetch := (h.performAll more).fetch
  rwa [Session.next, hbase, hposition] at hfetch

end Token.Session

namespace Matcher

open Token (Stream Session Access PlainCursor endless)
open Token.Session (Deed)

/-- Whatever was done to a stream before, a matcher makes of it what its reading with ordered
choice makes of the tokens from the cursor on. It comes to an end, never rewinds to a place ahead,
takes just the tokens of the reading, and stays where it is when it fails. What is read afterwards
depends only on the place of the cursor; after a failure it is what would have been read without
the attempt. -/
theorem run_ordered_choice (text : Text) (deeds : List Deed) (m : Matcher)
    (hm : Productive (endless text) m) :
    let before := (Session.ofText text).actAll deeds
    let matched := (m.run before.stream).1
    let after := before.act (.attempt m)
    Attempt m before.stream matched after.stream ∧
    (matched = true ↔ ∃ j, Peg (endless text) m before.next (some j)) ∧
    (∀ j, Peg (endless text) m before.next (some j) → after.next = j) ∧
    (matched = false → Peg (endless text) m before.next none ∧
      after.stream.position = before.stream.position ∧
      ∀ more, (after.performAll more).stream.fetch.1.unmarked =
        (before.performAll more).stream.fetch.1.unmarked) ∧
    ∀ more,
      let cursor := PlainCursor.moveAll ⟨before.base, after.stream.position⟩ more
      (after.performAll more).stream.fetch.1.unmarked =
        endless text (cursor.base + cursor.position) := by
  intro before matched after
  have hbefore : Session.Follows text before := (Session.ofText_follows text).actAll deeds
  have hafter : Session.Follows text after := hbefore.act (.attempt m)
  have hagrees : Agrees text before.released m before.stream := run_agrees hm hbefore
  have hpeg : Peg (endless text) m before.next (if matched then some after.next else none) :=
    hagrees.peg
  have hback : matched = false → after.stream.position = before.stream.position :=
    (run_returns m before.stream).back
  have hfetch := hafter.fetch_performAll
  refine ⟨hagrees.attempt, ?_, fun j hj => ?_,
    fun hfail => ⟨?_, hback hfail, fun more => ?_⟩, hfetch⟩
  · constructor
    · intro hmatched
      rw [if_pos hmatched] at hpeg
      exact ⟨after.next, hpeg⟩
    · rintro ⟨j, hj⟩
      cases hmatched : matched with
      | true => rfl
      | false =>
        rw [hmatched] at hpeg
        cases hpeg.unique hj
  · have hsame := hpeg.unique hj
    split at hsame
    · exact Option.some.inj hsame
    · cases hsame
  · rwa [hfail] at hpeg
  · have hsame := hfetch more
    rw [hback hfail] at hsame
    exact hsame.trans (hbefore.fetch_performAll more).symm

/-- A name of two tokens behind a failed look for a comment. -/
theorem identifier_after_miss :
    Productive (endless "b_=".toList) identifier ∧
    let before := (Session.ofText "b_=".toList).actAll
      [.access .fetch, .attempt (.symbols "//".toList)]
    let after := before.act (.attempt identifier)
    Attempt identifier before.stream true after.stream ∧
    Peg (endless "b_=".toList) identifier 1 (some 3) ∧ after.next = 3 := by
  have hproductive : Productive (endless "b_=".toList) identifier := productive_of_advances rfl
  have hmatched : (identifier.run ((Session.ofText "b_=".toList).actAll
      [.access .fetch, .attempt (.symbols "//".toList)]).stream).1 = true := by cbv
  have hplace : ((Session.ofText "b_=".toList).actAll
      [.access .fetch, .attempt (.symbols "//".toList)]).next = 1 := by cbv
  have hnext : (((Session.ofText "b_=".toList).actAll
      [.access .fetch, .attempt (.symbols "//".toList)]).act (.attempt identifier)).next = 3 := by
    cbv
  obtain ⟨hattempt, hpeg, htaken, _⟩ := run_ordered_choice "b_=".toList
    [.access .fetch, .attempt (.symbols "//".toList)] identifier hproductive
  obtain ⟨j, hj⟩ := hpeg.mp hmatched
  obtain rfl := (htaken j hj).symm.trans hnext
  rw [hmatched] at hattempt
  rw [hplace] at hj
  exact ⟨hproductive, hattempt, hj, hnext⟩

end Matcher

end LineMarkup
