import LineMarkup.Proofs.Parser.LineStart
import LineMarkup.Proofs.Text.Lines

namespace LineMarkup

open Token (Face faces)
open Token.Stream

namespace Parse

/-- The constructs that go on after a text, the outermost first. -/
def goingOn (parse : Parse) : List Construct :=
  (parse.unclosed.dropLast.map Frame.kind).reverse

/-- Every line end is needed by one construct at most, and after an empty line that ends emphasis no
line begins with a sign. -/
def sharesNoEnd (carried : List Construct) : List Text → Bool
  | line :: next :: rest =>
    let parse := ofText line carried
    let before := Parser.ofText line carried
    let after := Parser.ofText next parse.goingOn
    parse.ended.length + before.breaksOff.toNat + after.breaksOff.toNat ≤ 1 &&
      !(before.breaksOff && after.beginsEntry) && sharesNoEnd parse.goingOn (next :: rest)
  | _ => true

/-- What goes on after lines that are parsed one after another. -/
def goingOnAfter (carried : List Construct) (lines : List Text) : List Construct :=
  lines.foldl (fun carried line => (ofText line carried).goingOn) carried

theorem goingOnAfter_cons (carried : List Construct) (line : Text) (rest : List Text) :
    goingOnAfter carried (line :: rest) = goingOnAfter (ofText line carried).goingOn rest :=
  rfl

/-- What ends with a line is innermost. -/
theorem kinds_dropWhile (line : Text) (carried : List Construct) :
    (((ofText line carried).ended ++ (ofText line carried).unclosed).map Frame.kind).dropWhile
        Construct.endsWithLine = (ofText line carried).unclosed.map Frame.kind := by
  rw [List.dropWhile_map]
  simp only [ofText, List.takeWhile_append_dropWhile]
  rfl

theorem goingOn_kinds (line : Text) (carried : List Construct) :
    (ofText line carried).unclosed.map Frame.kind =
      (ofText line carried).goingOn.reverse ++ [Frame.root.kind] := by
  obtain ⟨front, hfront⟩ := List.getLast?_eq_some_iff.mp (unclosed_rooted line carried)
  rw [goingOn, hfront]
  simp

/-- The next line is parsed within the constructs that go on. -/
theorem next_kinds (next line : Text) (carried : List Construct) :
    (Parser.ofText next (ofText line carried).goingOn).kinds =
      (ofText line carried).unclosed.map Frame.kind := by
  rw [goingOn_kinds]
  simp [Parser.kinds, Parser.ofText, Frame.carriedOver, Function.comp_def]

end Parse

namespace Parser

/-- Constructs that a line can be parsed in. -/
structure Lasting (carried : List Construct) : Prop where
  lapses : ∀ kind ∈ carried, kind.lapses = false
  ends : ∀ kind ∈ carried.getLast?, kind.endsWithLine = false

variable {p q : Parser} {carried : List Construct} {line text : Text} {fs after : List Face}

/-- A line is in the innermost construct that goes on, or in none. -/
theorem ofText_top (line : Text) (carried : List Construct) :
    (ofText line carried).top.kind = carried.getLast?.getD .content := by
  rw [top_kind]
  rcases List.eq_nil_or_concat carried with rfl | ⟨front, last, rfl⟩
  · rfl
  · simp [kinds, ofText, Frame.carriedOver]

theorem Lasting.top (h : Lasting carried) (line : Text) :
    (ofText line carried).top.kind.lapses = false ∧
      (ofText line carried).top.kind.endsWithLine = false := by
  rw [ofText_top]
  cases hlast : carried.getLast? with
  | none => exact ⟨rfl, rfl⟩
  | some kind => exact ⟨h.lapses kind (List.mem_of_getLast? hlast), h.ends kind hlast⟩

theorem Lasting.next (h : Lasting carried) (line : Text) :
    Lasting (Parse.ofText line carried).goingOn := by
  have hkinds := Parse.goingOn_kinds line carried
  refine ⟨fun kind hk => ?_, fun kind hk => ?_⟩
  · have hmem : kind ∈ (Parse.ofText line carried).unclosed.map Frame.kind := by
      rw [hkinds]
      exact List.mem_append_left _ (List.mem_reverse.mpr hk)
    obtain ⟨f, hf, rfl⟩ := List.mem_map.mp hmem
    exact Parse.unclosed_lasts line h.lapses f hf
  · obtain ⟨front, hfront⟩ := List.getLast?_eq_some_iff.mp (Option.mem_def.mp hk)
    rw [hfront, List.reverse_append, List.reverse_singleton, List.singleton_append,
      List.cons_append] at hkinds
    obtain ⟨f, rest, hunclosed, rfl, _⟩ := List.map_eq_cons_iff.mp hkinds
    have := List.head_dropWhile_not (fun f : Frame => f.kind.endsWithLine)
      (l := ((ofText line carried).rounds (ofText line carried).roundLimit).stack)
    simp only [Parse.ofText] at hunclosed
    simp [hunclosed] at this
    exact this

theorem iterate_invariant (h : Steady limit start pos p) (ha : Alert p) (n : Nat) :
    ∃ pos', Steady limit start pos' (Parser.step^[n] p) ∧ Alert (Parser.step^[n] p) := by
  induction n generalizing pos p with
  | zero => exact ⟨pos, h, ha⟩
  | succ n ih =>
    obtain ⟨pos', _, hs⟩ := step_steady h
    exact ih hs (step_alert h ha)

/-- Once nothing is left of a text, what is open is what is open at the end of the parse. -/
theorem final_stack (hc : Lasting carried) {k : Nat}
    (hk : Shows [] (Parser.step^[k] (ofText text carried)).stream) :
    (Parse.ofText text carried).ended ++ (Parse.ofText text carried).unclosed =
      (Parser.step^[k] (ofText text carried)).stack := by
  let start := ofText text carried
  have hsteady := ofText_steady text carried
  have halert := ofText_alert text hc.lapses
  have hsame {i j : Nat} (hi : Shows [] (Parser.step^[i] start).stream) (hle : i ≤ j) :
      (Parser.step^[j] start).stack = (Parser.step^[i] start).stack := by
    obtain ⟨n, rfl⟩ := Nat.exists_eq_add_of_le' hle
    obtain ⟨pos, hs, ha⟩ := iterate_invariant hsteady halert i
    rw [Function.iterate_add_apply]
    exact iterate_ended hs ha hi n
  obtain ⟨n, hn, _⟩ := rounds_iterate start.roundLimit start
  have hend : Shows [] (Parser.step^[n] start).stream := by
    have := atEnd_iff.mp (ofText_atEnd text carried)
    rw [hn] at this
    exact ⟨⟨0, by simp [this]⟩, by simp [this]⟩
  have hstack : (Parse.ofText text carried).ended ++ (Parse.ofText text carried).unclosed =
      (Parser.step^[n] start).stack := by
    rw [← hn]
    exact List.takeWhile_append_dropWhile
  rw [hstack]
  rcases Nat.le_total n k with hle | hle
  · exact (hsame hend hle).symm
  · exact hsame hk hle

/-- Nothing is ahead that comes before a text. -/
def Underway (p : Parser) : Prop :=
  ∀ t ∈ ahead p.stream, t.kind ≠ .begin

theorem Taken.map {α : Type} (h : Taken p takings q) (f : Token → α)
    (hf : ∀ t : Token, f t.unmarked = f t) :
    ∃ n, (takings.flatMap Taking.tokens).map f ++ (ahead q.stream).map f =
      (ahead p.stream).map f ++ List.replicate n (f (Token.ending p.stream.stop)) := by
  obtain ⟨n, hall⟩ := h.all
  have hmarks : f ∘ Token.unmarked = f := funext hf
  have := congrArg (List.map f) hall
  exact ⟨n, by simpa only [List.map_append, List.map_map, hmarks, List.map_replicate] using this⟩

/-- A parser that has less ahead of it has taken something. -/
theorem Taken.ne_nil (h : Taken p takings q) (hp : Shows fs p.stream) (hq : Shows after q.stream)
    (hf : ∀ x ∈ fs, x ≠ Face.ending) (hlt : after.length < fs.length) :
    takings.flatMap Taking.tokens ≠ [] := by
  intro hnil
  obtain ⟨n, hfaces⟩ := h.map Token.face (fun _ => rfl)
  obtain ⟨a, ha⟩ := hq.faces
  obtain ⟨b, hb⟩ := hp.faces
  have hends : Token.face (Token.ending p.stream.stop) = Face.ending := rfl
  rw [hnil, ha, hb, hends, List.map_nil, List.nil_append, List.append_assoc,
    List.replicate_append_replicate] at hfaces
  have hcount := congrArg (List.countP (· != Face.ending)) hfaces
  have hnone (m : Nat) : (List.replicate m Face.ending).countP (· != Face.ending) = 0 := by
    rw [List.countP_replicate]
    simp
  have hwhole : fs.countP (· != Face.ending) = fs.length :=
    List.countP_eq_length.mpr (fun x hx => by simpa using hf x hx)
  have hle : after.countP (· != Face.ending) ≤ after.length := List.countP_le_length
  rw [List.countP_append, List.countP_append, hnone, hnone, hwhole] at hcount
  omega

/-- What comes before a text is taken first. -/
theorem Taken.underway (h : Taken p takings q) (hp : Shows fs p.stream)
    (hn : takings.flatMap Taking.tokens ≠ []) : Underway q := by
  intro t ht hk
  obtain ⟨first, more, htaken⟩ := List.exists_cons_of_ne_nil hn
  obtain ⟨n, hkinds⟩ := h.map Token.kind (fun _ => rfl)
  have hends : Token.kind (Token.ending p.stream.stop) = .textEnd := rfl
  rw [htaken, hends, List.map_cons, List.cons_append] at hkinds
  have hmem : TokenKind.begin ∈ more.map Token.kind ++ (ahead q.stream).map Token.kind :=
    List.mem_append_right _ (hk ▸ List.mem_map_of_mem ht)
  cases hahead : ahead p.stream with
  | nil =>
    rw [hahead, List.map_nil, List.nil_append] at hkinds
    have := hkinds ▸ List.mem_cons_of_mem first.kind hmem
    cases List.eq_of_mem_replicate this
  | cons next rest =>
    rw [hahead, List.map_cons, List.cons_append] at hkinds
    rw [(List.cons.inj hkinds).2] at hmem
    rcases List.mem_append.mp hmem with hm | hm
    · obtain ⟨t', ht', hk'⟩ := List.mem_map.mp hm
      exact hp.begun t' (by rwa [hahead]) hk'
    · cases List.eq_of_mem_replicate hm

/-- The end of a line ends the innermost construct. -/
theorem line_end_step (h : At (.feed :: fs) p) (hu : Underway p)
    (hends : p.top.kind.endsWithLine = true) :
    At fs p.step ∧ p.step.kinds = p.pop.kinds ∧
      p.step.atContentStart = (p.atContentStart || p.step.top.kind.holdsContent) := by
  have hface := Matcher.fetch_of_shows h.shows
  have hk : p.stream.fetch.1.kind = .lineEnd := by
    rcases Matcher.face_eq_feed.mp hface with hk | hk
    · cases ha : ahead p.stream with
      | nil =>
        rw [(fetch_of_end ha).1] at hk
        cases hk
      | cons t rest =>
        rw [(fetch_of_ahead ha).1] at hk
        exact absurd hk (hu t (ha ▸ List.mem_cons_self))
    · exact hk
  have hrun : (Matcher.kind .lineEnd).run p.stream = (true, p.stream.fetch.2) := by
    simp [Matcher.run, Matcher.one, hk]
  have hloose := h.takeLoose p.top
  have hacc : p.accept (.kind .lineEnd) = (true, { p with
      stream := p.stream.fetch.2.release
      mark := p.mark.cover p.stream.fetch.2.taken }) := by
    simp only [accept, hrun]
  simp only [step, hends, hacc, ↓reduceIte]
  refine ⟨⟨?_, ?_, ?_⟩, ?_, ?_⟩
  · rw [pop_stream]
    exact hloose.shows
  · rw [pop_stream]
    rfl
  · rw [pop_stream]
    exact hloose.spared
  · exact (pop_kinds _).trans (pop_kinds p).symm
  · rw [pop_again]
    rfl

end Parser

namespace Token

/-- What comes after the first of several lines. -/
def following : List Text → List Face
  | [] => []
  | line :: rest => .feed :: faces line ++ following rest

theorem edge_following (rest : List Text) : Edge (following rest) := by
  cases rest with
  | nil => exact edge_nil
  | cons line rest => exact edge_feed _

theorem following_inner {lines : List Text}
    (h : ∀ l ∈ lines, ∀ c ∈ l, Text.isLineEnd c = false) :
    ∀ x ∈ following lines, x ≠ Face.ending := by
  induction lines with
  | nil => simp [following]
  | cons line rest ih =>
    obtain ⟨hline, hrest⟩ := List.forall_mem_cons.mp h
    intro x hx
    rcases List.mem_append.mp hx with hx | hx
    · rcases List.mem_cons.mp hx with rfl | hx
      · simp [Face.feed, Face.ending]
      · rintro rfl
        exact (faces_inner hline _ hx).2 rfl
    · exact ih hrest x hx

theorem faces_unlines {line : Text} {rest : List Text}
    (h : ∀ l ∈ line :: rest, ∀ c ∈ l, Text.isLineEnd c = false) :
    faces (Text.unlines (line :: rest)) = faces line ++ following rest := by
  induction rest generalizing line with
  | nil => simp [Text.unlines, Text.join, following]
  | cons next rest ih =>
    obtain ⟨hline, hrest⟩ := List.forall_mem_cons.mp h
    rw [Text.unlines, Text.join, faces_feed hline]
    · exact congrArg (faces line ++ .feed :: ·) (ih hrest)
    · exact List.cons_ne_nil _ _

end Token

namespace Parser

open Token (following edge_following)

variable {p : Parser} {carried : List Construct} {line next : Text} {rest : List Text}

/-- A parser that comes to a line, within the constructs that the line is parsed in. It may have
taken the end of the line before, but not if the line needs it. -/
structure Enters (carried : List Construct) (line : Text) (rest : List Text) (p : Parser) :
    Prop where
  kinds : p.kinds = (ofText line carried).kinds
  calm : Calm p
  place : At (.feed :: faces line ++ following rest) p ∨
    At (faces line ++ following rest) p ∧ (ofText line carried).breaksOff = false ∧
      ((ofText line carried).beginsEntry = true → p.atContentStart = true)

/-- A parser that has come to the end of a line. An empty line may have taken its end along. -/
structure Leaves (carried : List Construct) (line : Text) (rest : List Text) (p : Parser) :
    Prop where
  kinds : p.kinds =
    ((Parse.ofText line carried).ended ++ (Parse.ofText line carried).unclosed).map Frame.kind
  calm : Calm p
  place : At (following rest) p ∨ (ofText line carried).breaksOff = true ∧
    At ((following rest).drop 1) p ∧ p.atContentStart = false

theorem Enters.leaves (h : Enters carried line rest p) (hc : Lasting carried)
    (hline : ∀ c ∈ line, Text.isLineEnd c = false) :
    ∃ k, Leaves carried line rest (Parser.step^[k] p) := by
  have hedge := edge_following rest
  obtain ⟨hlapses, hends⟩ := hc.top line
  have hthrough (hbreak : (ofText line carried).breaksOff = false) :
      ∃ k k', Through (following rest) (Parser.step^[k] p)
        (Parser.step^[k'] (ofText line carried)) := by
    rcases h.place with near | ⟨near, _, hentry⟩
    · exact line_fresh hline hedge h.kinds h.calm hbreak hlapses hends near
    · exact line_late hline hedge h.kinds h.calm hbreak hlapses hends near hentry
  cases hbreak : (ofText line carried).breaksOff with
  | false =>
    obtain ⟨k, k', hnear, hended, hkinds, hcalm⟩ := hthrough hbreak
    exact ⟨k, by rw [hkinds, final_stack hc hended]; rfl, hcalm, .inl hnear⟩
  | true =>
    rcases h.place with near | ⟨_, hno, _⟩
    · obtain ⟨hended, hkinds, hat, hagain⟩ := line_broken hline hedge h.kinds h.calm hbreak near
      have hstack := final_stack (k := 1) hc hended
      exact ⟨1, by rw [hstack]; exact hkinds, calm_of_still hagain, .inr ⟨hbreak, hat, hagain⟩⟩
    · exact absurd (hno.symm.trans hbreak) (by simp)

theorem holdsContent_of_entry (h : p.beginsEntry = true) : p.top.kind.holdsContent = true := by
  obtain ⟨sign, hm, _⟩ := List.any_eq_true.mp h
  simp only [Rule.signs] at hm
  split at hm
  · assumption
  · cases hm

/-- From the end of a line to the next line. -/
theorem Leaves.enters (h : Leaves carried line (next :: rest) p) (hc : Lasting carried)
    (hu : At (following (next :: rest)) p → Underway p)
    (hone : Parse.sharesNoEnd carried (line :: next :: rest) = true) :
    ∃ k, Enters (Parse.ofText line carried).goingOn next rest (Parser.step^[k] p) := by
  let after := ofText next (Parse.ofText line carried).goingOn
  have hkinds := h.kinds
  have hnext : after.kinds = (Parse.ofText line carried).unclosed.map Frame.kind :=
    Parse.next_kinds next line carried
  obtain ⟨_, hgoes⟩ := (hc.next line).top next
  simp only [Parse.sharesNoEnd, Bool.and_eq_true, decide_eq_true_eq, Bool.not_eq_true',
    Bool.and_eq_false_iff] at hone
  obtain ⟨⟨honce, hsign⟩, _⟩ := hone
  replace honce : (Parse.ofText line carried).ended.length +
      (ofText line carried).breaksOff.toNat + after.breaksOff.toNat ≤ 1 := honce
  rcases h.place with hat | ⟨hbreak, hat, hagain⟩
  · cases hended : (Parse.ofText line carried).ended with
    | nil =>
      rw [hended, List.nil_append, ← hnext] at hkinds
      exact ⟨0, hkinds, h.calm, .inl hat⟩
    | cons frame ended =>
      rw [hended, List.length_cons] at honce
      obtain rfl : ended = [] := List.length_eq_zero_iff.mp (by omega)
      have hnobreak : after.breaksOff = false := by
        rw [← Bool.toNat_eq_zero]
        omega
      have hline : p.top.kind.endsWithLine = true := by
        rw [top_kind, hkinds, hended]
        have hall : frame ∈ (Parse.ofText line carried).ended := hended ▸ List.mem_cons_self
        exact List.all_eq_true.mp List.all_takeWhile frame hall
      obtain ⟨hstep, hpopped, hagain⟩ := line_end_step hat (hu hat) hline
      have hsame : p.step.kinds = after.kinds := by
        rw [hpopped, pop_kinds, hkinds, hended, hnext]
        simp [Parse.goingOn_kinds]
      have htop : p.step.top.kind = after.top.kind := by rw [top_kind, top_kind, hsame]
      have hstill : p.atContentStart = false := by
        apply Bool.eq_false_iff.mpr
        intro hyes
        exact absurd (hline.symm.trans (h.calm hyes).2) (by simp)
      rw [hstill, Bool.false_or, htop] at hagain
      have hcalm : Calm p.step := fun hyes => htop ▸ ⟨hagain.symm.trans hyes, hgoes⟩
      exact ⟨1, hsame, hcalm, .inr ⟨hstep, hnobreak,
        fun hentry => hagain.trans (holdsContent_of_entry hentry)⟩⟩
  · have hnone : (Parse.ofText line carried).ended = [] := by
      rw [hbreak] at honce
      simp only [Bool.toNat_true] at honce
      exact List.length_eq_zero_iff.mp (by omega)
    rw [hnone, List.nil_append, ← hnext] at hkinds
    have hnobreak : after.breaksOff = false := by
      rw [hbreak, Bool.toNat_true] at honce
      rw [← Bool.toNat_eq_zero]
      omega
    have hnosign : after.beginsEntry = false := hsign.resolve_left (by simp [hbreak])
    exact ⟨0, hkinds, h.calm, .inr ⟨hat, hnobreak,
      fun hyes => absurd (hnosign.symm.trans hyes) (by simp)⟩⟩

/-- All lines, one after another. -/
theorem Enters.all (h : Enters carried line rest p) (hc : Lasting carried)
    (hlines : ∀ l ∈ line :: rest, ∀ c ∈ l, Text.isLineEnd c = false)
    (hu : ∀ k fs, At fs (Parser.step^[k] p) → fs.length ≤ (following rest).length →
      Underway (Parser.step^[k] p))
    (hone : Parse.sharesNoEnd carried (line :: rest) = true) :
    ∃ k, Shows [] (Parser.step^[k] p).stream ∧
      (Parser.step^[k] p).kinds.dropWhile Construct.endsWithLine =
        (Parse.goingOnAfter carried (line :: rest)).reverse ++ [Frame.root.kind] := by
  induction rest generalizing p carried line with
  | nil =>
    obtain ⟨k, hkinds, _, hplace⟩ := h.leaves hc (hlines line List.mem_cons_self)
    refine ⟨k, ?_, ?_⟩
    · rcases hplace with hat | ⟨_, hat, _⟩ <;> exact hat.shows
    · rw [hkinds, Parse.kinds_dropWhile, Parse.goingOn_kinds]
      rfl
  | cons next rest ih =>
    obtain ⟨hline, hrest⟩ := List.forall_mem_cons.mp hlines
    obtain ⟨k, hleaves⟩ := h.leaves hc hline
    obtain ⟨j, henters⟩ := hleaves.enters hc (fun hat => hu k _ hat (Nat.le_refl _)) hone
    rw [← Function.iterate_add_apply] at henters
    have hnext : Parse.sharesNoEnd (Parse.ofText line carried).goingOn (next :: rest) = true := by
      simp only [Parse.sharesNoEnd, Bool.and_eq_true] at hone
      exact hone.2
    have hunder (i : Nat) (fs : List Face) (hat : At fs (Parser.step^[i] (Parser.step^[j + k] p)))
        (hle : fs.length ≤ (following rest).length) :
        Underway (Parser.step^[i] (Parser.step^[j + k] p)) := by
      rw [← Function.iterate_add_apply] at hat ⊢
      have hshorter : (following rest).length ≤ (following (next :: rest)).length := by
        rw [following, List.length_append]
        exact Nat.le_add_left _ _
      exact hu (i + (j + k)) fs hat (Nat.le_trans hle hshorter)
    obtain ⟨i, hend, hkinds⟩ := ih henters (hc.next line) hrest hunder hnext
    rw [← Function.iterate_add_apply] at hend hkinds
    refine ⟨i + (j + k), hend, ?_⟩
    rw [hkinds, ← Parse.goingOnAfter_cons]

end Parser

namespace Parse

open Token (following faces_unlines)
variable {carried : List Construct} {line : Text} {rest : List Text}

/-- What goes on after several lines is what goes on after them one after another. -/
theorem goingOn_unlines (hc : Parser.Lasting carried)
    (hlines : ∀ l ∈ line :: rest, ∀ c ∈ l, Text.isLineEnd c = false)
    (hone : sharesNoEnd carried (line :: rest) = true) :
    (ofText (Text.unlines (line :: rest)) carried).goingOn =
      goingOnAfter carried (line :: rest) := by
  let start := Parser.ofText (Text.unlines (line :: rest)) carried
  have hat : Parser.At (.feed :: faces line ++ following rest) start := by
    have := Parser.ofText_at (Text.unlines (line :: rest)) carried
    rwa [List.append_nil, faces_unlines hlines, ← List.cons_append] at this
  have hinner : ∀ x ∈ .feed :: faces line ++ following rest, x ≠ Face.ending := by
    change ∀ x ∈ following (line :: rest), x ≠ Face.ending
    exact Token.following_inner hlines
  have hunder (k : Nat) (fs : List Face) (hs : Parser.At fs (Parser.step^[k] start))
      (hle : fs.length ≤ (following rest).length) : Parser.Underway (Parser.step^[k] start) := by
    obtain ⟨takings, hcourse⟩ := Parser.Reaches.iterate start k
    have htaken := hcourse.taken hat.fresh
    refine htaken.underway hat.shows (htaken.ne_nil hat.shows hs.shows hinner ?_)
    rw [List.length_append, List.length_cons]
    omega
  have henters : Parser.Enters carried line rest start :=
    ⟨rfl, Parser.calm_of_still rfl, .inl hat⟩
  obtain ⟨k, hend, hkinds⟩ := henters.all hc hlines hunder hone
  have hstack := Parser.final_stack hc hend
  have hopen : (Parser.step^[k] start).kinds =
      ((ofText (Text.unlines (line :: rest)) carried).ended ++
        (ofText (Text.unlines (line :: rest)) carried).unclosed).map Frame.kind := by
    rw [hstack]
    rfl
  rw [hopen, kinds_dropWhile, goingOn_kinds] at hkinds
  exact List.reverse_injective (List.append_cancel_right hkinds)

end Parse

end LineMarkup
