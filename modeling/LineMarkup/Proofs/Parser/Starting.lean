import LineMarkup.Proofs.Matcher.Settling
import LineMarkup.Proofs.Parser.Grammar

namespace LineMarkup

open Token (Stream Face)
open Token.Stream
open Matcher (Settles inline lineStart)

namespace Matcher

/-- Whether a match may begin with a token of this kind that starts with this character. -/
def opens (k : TokenKind) (c : Option Char) : Matcher → Bool
  | .kind k' => k = k'
  | .symbol d => k = .symbol && c = some d
  | .symbols [] => true
  | .symbols (d :: _) => k = .symbol && c = some d
  | .keyword _ => k = .word
  | .test outcome => outcome
  | .seq first _ => first.opens k c
  | .alt first second => first.opens k c || second.opens k c
  | .optional _ => true
  | .many1 body | .look body | .discard body => body.opens k c

variable {x : Face} {fs after : List Face} {s s' : Stream} {m : Matcher}

theorem fetch_of_shows (h : Shows (x :: fs) s) : s.fetch.1.face = x := by
  rw [← List.append_nil (x :: fs)] at h
  exact (fetch_face edge_nil h).1 x rfl

theorem shows_of_miss (h : Shows fs s) (hm : m.run s = (false, s')) : Shows fs s' := by
  have hr := m.run_returns s
  rw [hm] at hr
  exact (h.keeps hr.keeps ((hr.back rfl).trans (Nat.add_zero _).symm)).1

theorem opens_of_symbol {t : Token} (ht : t.face = x) (hc : t.isSymbol c = true) :
    (x.1 = .symbol && x.2.head? = some c) = true := by
  have hk := isSymbol_kind hc
  rw [face_of_inner (by rw [hk]; rfl)] at ht
  rw [← ht]
  exact hc

theorem opens_of_run (hi : inline m = true) (hs : Shows (x :: fs) s) (h : (m.run s).1 = true) :
    m.opens x.1 x.2.head? = true := by
  have hx := fetch_of_shows hs
  induction m generalizing s with
  | kind k =>
    have hk : s.fetch.1.kind = k := by simpa using (one_match h).1
    rw [face_of_inner (hk ▸ hi)] at hx
    simp [opens, ← hx, hk]
  | symbol c => exact opens_of_symbol hx (one_match h).1
  | symbols text =>
    cases text with
    | nil => rfl
    | cons d text =>
      simp only [run, spell] at h
      split at h <;> rename_i hspell
      · split at hspell
        · rename_i hd
          exact opens_of_symbol hx hd
        · cases hspell
      · cases h
  | keyword words =>
    have hword : (one (·.kind = .word) s).1 = true := by
      simp only [run, word, repeated1] at h
      rcases hone : one (·.kind = .word) s with ⟨ok, s'⟩
      cases ok with
      | true => rfl
      | false => simp [hone] at h
    have hk : s.fetch.1.kind = .word := by simpa using (one_match hword).1
    rw [face_of_inner (by rw [hk]; rfl)] at hx
    simp [opens, ← hx, hk]
  | test outcome => exact h
  | seq first second ih _ =>
    simp only [inline, Bool.and_eq_true] at hi
    refine ih hi.1 hs ?_ hx
    simp only [run] at h
    split at h <;> rename_i hrun
    · rw [hrun]
    · cases h
  | alt first second ih ih' =>
    simp only [inline, Bool.and_eq_true] at hi
    simp only [run] at h
    simp only [opens, Bool.or_eq_true]
    split at h <;> rename_i hrun
    · exact .inl (ih hi.1 hs (by rw [hrun]) hx)
    · have hs' := shows_of_miss hs hrun
      exact .inr (ih' hi.2 hs' h (fetch_of_shows hs'))
  | optional body _ => rfl
  | many1 body ih =>
    simp only [inline, Bool.and_eq_true] at hi
    refine ih hi.1.1 hs ?_ hx
    simp only [run, repeated1] at h
    split at h <;> rename_i hrun
    · rw [hrun]
    · cases h
  | look body ih => exact ih hi hs h hx
  | discard body ih =>
    refine ih hi hs ?_ hx
    simp only [run] at h
    split at h <;> rename_i hrun
    · rw [hrun]
    · cases h

/-- At least two symbols are spelled out. -/
def spellsTwo : Matcher → Bool
  | .symbols (_ :: _ :: _) => true
  | _ => false

theorem spellsTwo_settles (h : spellsTwo m = true) (hy : Prod.fst y ≠ TokenKind.symbol)
    (fs : List Face) : Settles m.run (x :: y :: fs) none := by
  unfold spellsTwo at h
  split at h
  · rename_i c d text
    refine .never (fun after s he hs => Bool.eq_false_iff.mpr (fun hrun => ?_))
    simp only [run, spell] at hrun
    split at hrun <;> rename_i hspell
    · split at hspell
      · split at hspell
        · rename_i hd
          have hnext := (hs.keeps (.fetch s) (fetch_position s)).1
          have hopens := opens_of_symbol (fetch_of_shows hnext) hd
          simp [hy] at hopens
        · cases hspell
      · cases hspell
    · cases hrun
  · cases h

theorem opens_settles (hi : inline m = true) (ho : m.opens x.1 x.2.head? = false) (fs : List Face) :
    Settles m.run (x :: fs) none := by
  refine .never (fun after s _ hs => Bool.eq_false_iff.mpr (fun h => ?_))
  rw [opens_of_run hi hs h] at ho
  cases ho

/-- What has to take a token of the line does not match at its end. -/
theorem takes_settles (hi : inline m = true) (hp : m.plain = true)
    (ht : m.takes (fun _ => true) = true) : Settles m.run [] none := by
  obtain ⟨reach, h⟩ := inline_settles hi []
  refine .never (fun after s he hs => Bool.eq_false_iff.mpr (fun hrun => ?_))
  obtain ⟨hok, hmoved⟩ := h.outcome after s he hs
  obtain ⟨n, rfl⟩ := Option.isSome_iff_exists.mp (hok.symm.trans hrun)
  obtain ⟨new, hr, _, htakes⟩ := run_outcome hp (only_all m) s
  obtain ⟨t, hm, _⟩ := htakes _ ht hrun
  have hle := h.within n rfl
  have hpos := List.length_pos_of_mem hm
  have := hr.position_eq
  rw [hmoved n rfl] at this
  rw [List.length_nil] at hle
  omega

end Matcher

namespace Rule

variable {rest : Matcher} {x : Face} {fs line : List Face} {acs : Bool}

/-- A pattern for the start of a line of content. -/
def start (acs : Bool) (rest : Matcher) : Matcher :=
  .seq (indentation acs) rest

/-- It takes what starts the line, then the blanks, then what it is for. -/
theorem start_settles (hs : Settles (lineStart acs).run line (some n))
    (hb : Settles (Matcher.many (.kind .whitespace)).run (line.drop n) (some k))
    (hr : Settles rest.run (line.drop (n + k)) reach) :
    Settles (start acs rest).run line (reach.map (n + k + ·)) :=
  Matcher.seq_settles (Matcher.discard_settles (Matcher.seq_settles hs hb)) hr

theorem blanks_settle (fs : List Face) :
    ∃ n, Settles (Matcher.many (.kind .whitespace)).run fs (some n) :=
  (Matcher.inline_settles (m := .many1 (.kind .whitespace)) rfl fs).elim
    fun _ h => ⟨_, Matcher.optional_settles h⟩

/-- At the start of a line it does not matter whether the token before the line has been taken. -/
theorem start_settles_late (hr : rest.inline = true) (hx : x ≠ Face.feed) (fs : List Face) :
    ∃ reach : Option Nat, Settles (start true rest).run (x :: fs) reach ∧
      Settles (start false rest).run (.feed :: x :: fs) (reach.map (1 + ·)) := by
  obtain ⟨k, hb⟩ := blanks_settle (x :: fs)
  obtain ⟨reach, hreach⟩ := Matcher.inline_settles hr ((x :: fs).drop k)
  have hlate := Matcher.lineStart_settles true x fs
  have hearly := Matcher.lineStart_settles false .feed (x :: fs)
  rw [if_neg hx, if_pos rfl] at hlate
  rw [if_pos rfl] at hearly
  refine ⟨_, start_settles hlate hb (by rwa [Nat.zero_add]), ?_⟩
  have := start_settles hearly hb (by rwa [Nat.add_comm 1 k, List.drop_succ_cons])
  simpa [Option.map_map, Function.comp_def, Nat.add_assoc] using this

theorem start_settles_never (hx : x ≠ Face.feed) (fs : List Face) :
    Settles (start false rest).run (x :: fs) none := by
  have hline := Matcher.lineStart_settles false x fs
  rw [if_neg hx] at hline
  exact Matcher.seq_settles_none (Matcher.discard_settles (Matcher.seq_settles_none hline))

theorem start_settles_any (hr : rest.inline = true) (acs : Bool) (x : Face) (fs : List Face) :
    ∃ reach, Settles (start acs rest).run (x :: fs) reach := by
  have hline := Matcher.lineStart_settles acs x fs
  cases hn : (if x = .feed then some 1 else if acs then some 0 else none : Option Nat) with
  | none =>
    rw [hn] at hline
    exact ⟨none,
      Matcher.seq_settles_none (Matcher.discard_settles (Matcher.seq_settles_none hline))⟩
  | some n =>
    rw [hn] at hline
    obtain ⟨k, hb⟩ := blanks_settle ((x :: fs).drop n)
    exact (Matcher.inline_settles hr _).elim fun _ h => ⟨_, start_settles hline hb h⟩

/-- Before the start of a line, whether one was due or not. -/
theorem start_settles_feed (hr : rest.inline = true) (fs : List Face) :
    ∃ reach : Option Nat, ∀ acs, Settles (start acs rest).run (.feed :: fs) reach ∧
      ∀ n ∈ reach, 1 ≤ n := by
  obtain ⟨k, hb⟩ := blanks_settle fs
  obtain ⟨reach, hreach⟩ := Matcher.inline_settles hr (fs.drop k)
  refine ⟨reach.map (1 + k + ·), fun acs => ⟨?_, fun n hn => ?_⟩⟩
  · have hline := Matcher.lineStart_settles acs .feed fs
    rw [if_pos rfl] at hline
    exact start_settles hline hb (by rwa [Nat.add_comm 1 k, List.drop_succ_cons])
  · obtain ⟨l, _, rfl⟩ := Option.map_eq_some_iff.mp hn
    omega

/-- Nothing starts on an empty line. -/
theorem start_settles_empty (hi : rest.inline = true) (hp : rest.plain = true)
    (ht : rest.takes (fun _ => true) = true) : Settles (start false rest).run [.feed] none := by
  obtain ⟨k, hb⟩ := blanks_settle []
  have hline := Matcher.lineStart_settles false .feed []
  rw [if_pos rfl] at hline
  have hend : ([.feed] : List Face).drop (1 + k) = [] := by simp [Nat.add_comm]
  exact start_settles hline hb (hend ▸ Matcher.takes_settles hi hp ht)

/-- A rule for the start of a line. -/
def atStart (acs : Bool) (rule : Rule) : Rule :=
  { rule with pattern := start acs rule.pattern }

/-- What may stand at the start of a line of content. -/
def signs (inside : Construct) : List Rule :=
  if inside.holdsContent then
    [{ pattern := .seq (.many1 (.symbol '=')) (.kind .whitespace), actions := [.push .heading] },
      { pattern := .seq (.alt (.symbol '-') (.symbol '+')) (.many1 (.kind .whitespace))
        actions := [.instant .listEntry, .startContent] },
      { pattern := .seq (.symbol '/') (.many1 (.kind .whitespace))
        actions := [.instant .listEntry]
        continuations := (termEntry false).continuations }]
  else []

def before : List Rule :=
  comments ++ codeStart

def breaks (inside : Construct) : List Rule :=
  if inside = .content ∨ inside = .contentBlock then [] else [paragraphBreak]

def between (inside : Construct) : List Rule :=
  (if inside = .contentBlock then [blockEnd] else []) ++
    [mathStart, toggle inside .emphasis '_', toggle inside .strong '*',
      { pattern := .seq Matcher.linkScheme (.symbols "://".toList), actions := [.push .link] }] ++
    raws ++
    [label,
      { pattern := .seq (.symbol '@') Matcher.labelName, actions := [.instant .reference] }]

/-- All other rules. -/
def others (inside : Construct) : List Rule :=
  if inside.holdsContent then before ++ breaks inside ++ between inside else within inside false

theorem within_split (inside : Construct) (acs : Bool) :
    within inside acs = others inside ++ (signs inside).map (atStart acs) := by
  cases inside <;> cases acs <;> rfl

/-- A rule of its own kind is the paragraph break, which may take two line ends. -/
theorem others_inline (inside : Construct) :
    ∀ rule ∈ others inside, rule.pattern.inline = true ∨ rule = paragraphBreak := by
  intro rule hm
  have hinline (rules : List Rule) (h : rules.all (·.pattern.inline) = true) (hm : rule ∈ rules) :
      rule.pattern.inline = true ∨ rule = paragraphBreak :=
    .inl (List.all_eq_true.mp h rule hm)
  simp only [others] at hm
  split at hm
  · rcases List.mem_append.mp hm with hm | hm
    · rcases List.mem_append.mp hm with hm | hm
      · exact hinline before (by decide) hm
      · simp only [breaks] at hm
        split at hm
        · cases hm
        · exact .inr (List.mem_singleton.mp hm)
    · refine hinline (between inside) ?_ hm
      cases inside <;> decide
  · rename_i hc
    refine hinline _ ?_ hm
    cases inside <;> first | exact absurd rfl hc | decide

/-- Where a line starts, nothing else does. -/
theorem others_miss (hl : inside.lapses = false) (hm : rule ∈ others inside)
    (hi : rule.pattern.inline = true) (fs : List Face) :
    Settles rule.pattern.run (.feed :: fs) none := by
  have hall : (others inside).all
      (fun r => !r.pattern.inline || !r.pattern.opens .lineEnd none) = true := by
    cases inside <;> cases hl <;> decide
  have := List.all_eq_true.mp hall rule hm
  rw [hi] at this
  have ho : rule.pattern.opens .lineEnd none = false := by simpa using this
  exact Matcher.opens_settles hi ho fs

/-- A blank is for what starts a line, or for nothing. -/
theorem others_miss_blank (hl : inside.lapses = false) (hm : rule ∈ others inside)
    (hi : rule.pattern.inline = true) (hx : Prod.fst x = TokenKind.whitespace) (fs : List Face) :
    Settles rule.pattern.run (x :: fs) none := by
  have hall (c : Option Char) : (others inside).all
      (fun r => !r.pattern.inline || !r.pattern.opens .whitespace c) = true := by
    cases inside <;> cases hl <;> rfl
  have := List.all_eq_true.mp (hall x.2.head?) rule hm
  rw [hi] at this
  exact Matcher.opens_settles hi (by simpa [hx] using this) fs

/-- So do the signs of headings and list entries. -/
theorem others_miss_sign (hc : inside.holdsContent = true) (hm : rule ∈ others inside)
    (hi : rule.pattern.inline = true) (hx : Prod.fst x = TokenKind.symbol)
    (hs : x.2.head? = some '=' ∨ x.2.head? = some '-' ∨ x.2.head? = some '+') (fs : List Face) :
    Settles rule.pattern.run (x :: fs) none := by
  have hall : (others inside).all (fun r => !r.pattern.inline ||
      ['=', '-', '+'].all (fun c => !r.pattern.opens .symbol (some c))) = true := by
    cases inside <;> cases hc <;> decide
  have := List.all_eq_true.mp hall rule hm
  rw [hi] at this
  refine Matcher.opens_settles hi ?_ fs
  rw [hx]
  rcases hs with hs | hs | hs <;> rw [hs] <;> simp_all

/-- A slash begins a comment as well, but not before a blank. -/
theorem others_miss_slash (hc : inside.holdsContent = true) (hm : rule ∈ others inside)
    (hi : rule.pattern.inline = true) (hx : Prod.fst x = TokenKind.symbol)
    (hs : x.2.head? = some '/') (hy : Prod.fst y = TokenKind.whitespace) (fs : List Face) :
    Settles rule.pattern.run (x :: y :: fs) none := by
  have hall : (others inside).all (fun r => !r.pattern.inline ||
      !r.pattern.opens .symbol (some '/') || r.pattern.spellsTwo) = true := by
    cases inside <;> cases hc <;> decide
  have := List.all_eq_true.mp hall rule hm
  rw [hi] at this
  cases ho : rule.pattern.opens .symbol (some '/') with
  | false => exact Matcher.opens_settles hi (by rwa [hx, hs]) _
  | true =>
    rw [ho] at this
    exact Matcher.spellsTwo_settles (by simpa using this) (by simp [hy]) fs

theorem signs_inline (inside : Construct) : ∀ rule ∈ signs inside, rule.pattern.inline = true := by
  apply List.all_eq_true.mp
  cases inside <;> decide

theorem signs_take (inside : Construct) : ∀ sign ∈ signs inside, sign.pattern.inline = true ∧
    sign.pattern.plain = true ∧ sign.pattern.takes (fun _ => true) = true := by
  have hall : (signs inside).all (fun sign => sign.pattern.inline && sign.pattern.plain &&
      sign.pattern.takes (fun _ => true)) = true := by
    cases inside <;> decide
  intro sign hm
  have := List.all_eq_true.mp hall sign hm
  simp only [Bool.and_eq_true] at this
  exact ⟨this.1.1, this.1.2, this.2⟩

theorem start_run (hx : x ≠ Face.feed) (hs : Shows (x :: fs) s)
    (h : ((start true rest).run s).1 = true) :
    x.1 = .whitespace ∨ ∃ s', Shows (x :: fs) s' ∧ (rest.run s').1 = true := by
  have hline := Matcher.lineStart_settles true x fs
  rw [if_neg hx, if_pos rfl] at hline
  rw [← List.append_nil (x :: fs)] at hs
  rcases hrun : (lineStart true).run s with ⟨ok, s₀⟩
  have hok := (hline.outcome [] s edge_nil hs).1
  rw [hrun] at hok
  obtain rfl : ok = true := hok
  obtain ⟨n, _, hn, _, hshows, _⟩ := hline.hit (lineStart true).run_returns edge_nil hs hrun
  obtain rfl := Option.some.inj hn
  rw [List.append_nil, List.drop_zero] at hshows
  rcases hblanks : (Matcher.many1 (.kind .whitespace)).run s₀ with ⟨ok, s₁⟩
  cases ok with
  | true =>
    have hopens :=
      Matcher.opens_of_run (m := .many1 (.kind .whitespace)) rfl hshows (by rw [hblanks])
    exact .inl (by simpa [Matcher.opens] using hopens)
  | false =>
    have hmiss := Matcher.shows_of_miss hshows hblanks
    refine .inr ⟨s₁.discard, ⟨hmiss.faces, hmiss.begun⟩, ?_⟩
    simp only [Matcher.run] at hblanks
    simp only [start, indentation, Matcher.run, Matcher.many, hrun, hblanks] at h
    split at h <;> rename_i hrest
    · rw [hrest]
    · cases h

theorem blank_after_slash (hs : Shows (x :: fs) s)
    (h : ((Matcher.seq (.symbol '/') (.many1 (.kind .whitespace))).run s).1 = true) :
    ∃ y rest, fs = y :: rest ∧ y.1 = TokenKind.whitespace := by
  simp only [Matcher.run] at h
  split at h <;> rename_i after hslash
  · have hmatch := (Matcher.one_match (congrArg Prod.fst hslash)).2
    rw [hslash] at hmatch
    obtain rfl : after = s.fetch.2 := hmatch
    have hnext := (hs.keeps (.fetch s) (fetch_position s)).1
    rw [List.drop_succ_cons, List.drop_zero] at hnext
    have hblank : (Matcher.one (·.kind = .whitespace) s.fetch.2).1 = true := by
      simp only [Matcher.repeated1] at h
      split at h <;> rename_i hrun
      · split at hrun <;> rename_i hone
        · rw [hone]
        · cases hrun
      · cases h
    have hk : s.fetch.2.fetch.1.kind = .whitespace := by simpa using (Matcher.one_match hblank).1
    cases fs with
    | nil =>
      have := Matcher.inner_of_edge ((fetch_face edge_nil hnext).2 rfl)
      rw [hk] at this
      cases this
    | cons y rest =>
      refine ⟨y, rest, rfl, ?_⟩
      rw [← Matcher.fetch_of_shows hnext, Matcher.face_of_inner (by rw [hk]; rfl), hk]
  · cases h

/-- Where one of them stands, no other rule is followed. -/
theorem others_miss_start (hm : rule ∈ others inside) (hi : rule.pattern.inline = true)
    (hsign : sign ∈ signs inside) (hx : x ≠ Face.feed) (hs : Shows (x :: fs) s)
    (h : ((atStart true sign).pattern.run s).1 = true) :
    Settles rule.pattern.run (x :: fs) none := by
  have hsigned := signs_inline inside sign hsign
  simp only [signs] at hsign
  split at hsign
  · rename_i hc
    have hlapses : inside.lapses = false := by cases inside <;> first | rfl | cases hc
    rcases start_run hx hs h with hblank | ⟨s', hs', hrun⟩
    · exact others_miss_blank hlapses hm hi hblank fs
    · have hopens := Matcher.opens_of_run hsigned hs' hrun
      simp only [List.mem_cons, List.not_mem_nil, or_false] at hsign
      rcases hsign with rfl | rfl | rfl
      · simp only [Matcher.opens, Bool.and_eq_true, decide_eq_true_eq] at hopens
        exact others_miss_sign hc hm hi hopens.1 (.inl hopens.2) fs
      · simp only [Matcher.opens, Bool.or_eq_true, Bool.and_eq_true, decide_eq_true_eq] at hopens
        rcases hopens with ⟨hk, hs⟩ | ⟨hk, hs⟩
        · exact others_miss_sign hc hm hi hk (.inr (.inl hs)) fs
        · exact others_miss_sign hc hm hi hk (.inr (.inr hs)) fs
      · simp only [Matcher.opens, Bool.and_eq_true, decide_eq_true_eq] at hopens
        obtain ⟨y, rest, rfl, hy⟩ := blank_after_slash hs' hrun
        exact others_miss_slash hc hm hi hopens.1 hopens.2 hy rest
  · cases hsign

/-- An empty line is the same whatever comes after it. Its end is taken as well. -/
theorem break_run (fs : List Face) (hin : ∀ y ∈ fs, y.1 ≠ .lineEnd ∧ y.1 ≠ .textEnd) :
    ∃ ok : Bool, ∀ after s, Edge after → Shows (.feed :: fs ++ after) s →
      (paragraphBreak.pattern.run s).1 = ok ∧
      (ok = true → (paragraphBreak.pattern.run s).2.position = s.position + (fs.length + 2)) := by
  obtain ⟨k, hb⟩ := blanks_settle fs
  have hnew := Matcher.newline_settles .feed fs
  rw [if_pos rfl] at hnew
  refine ⟨decide (k = fs.length), fun after s he hs => ?_⟩
  rcases hrun : (Matcher.alt (.kind .begin) (.kind .lineEnd)).run s with ⟨ok, s₁⟩
  have hok := (hnew.outcome after s he hs).1
  rw [hrun] at hok
  obtain rfl : ok = true := hok
  obtain ⟨_, _, hn, hposition, hshows, _⟩ := hnew.hit (Matcher.run_returns _) he hs hrun
  obtain rfl := Option.some.inj hn
  rw [List.drop_succ_cons, List.drop_zero] at hshows
  rcases hrun' : (Matcher.many (.kind .whitespace)).run s₁ with ⟨ok, s₂⟩
  have hok := (hb.outcome after s₁ he hshows).1
  rw [hrun'] at hok
  obtain rfl : ok = true := hok
  obtain ⟨_, hle, hn, hposition', hshows', _⟩ := hb.hit (Matcher.run_returns _) he hshows hrun'
  obtain rfl := Option.some.inj hn
  obtain ⟨hfirst, hmoved⟩ := Matcher.seq_run
    (.seq (.many (.kind .whitespace)) (.alt (.kind .textEnd) (.kind .lineEnd))) hrun
  obtain ⟨hsecond, hmoved'⟩ := Matcher.seq_run
    (.alt (.kind .textEnd) (.kind .lineEnd)) hrun'
  obtain ⟨hend, hstop⟩ := Matcher.either_run .textEnd .lineEnd s₂
  have hiff : (paragraphBreak.pattern.run s).1 = true ↔
      s₂.fetch.1.kind = .textEnd ∨ s₂.fetch.1.kind = .lineEnd := by
    rw [← hend, ← hsecond]
    exact Bool.eq_iff_iff.mp hfirst
  have hkeeps : Keeps s s₂ := by
    have h₁ := (Matcher.run_returns (.alt (.kind .begin) (.kind .lineEnd)) s).keeps
    have h₂ := (Matcher.run_returns (.many (.kind .whitespace)) s₁).keeps
    rw [hrun] at h₁
    rw [hrun'] at h₂
    exact h₁.trans h₂
  have hbegun := (hs.keeps hkeeps (n := 1 + k) (by omega)).2 (by omega)
  rw [Matcher.ends_iff he hshows' hbegun (fun y hy => hin y (List.mem_of_mem_drop hy)),
    List.drop_eq_nil_iff] at hiff
  refine ⟨Bool.eq_iff_iff.mpr ?_, fun hok => ?_⟩
  · rw [hiff, decide_eq_true_eq]
    omega
  · have hall := hiff.mpr (Nat.le_of_eq (of_decide_eq_true hok).symm)
    have hrest := hfirst.symm.trans hall
    have hlast := hsecond.symm.trans hrest
    have hposition'' := hstop hlast
    rw [← hmoved' hlast, ← hmoved hrest] at hposition''
    have := of_decide_eq_true hok
    change (paragraphBreak.pattern.run s).2.position = _ at hposition''
    omega

end Rule

end LineMarkup
