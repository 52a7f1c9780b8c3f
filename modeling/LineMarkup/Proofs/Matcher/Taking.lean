import LineMarkup.Matcher.Basic
import LineMarkup.Proofs.Token.Reading

namespace LineMarkup.Matcher

open Token (Stream)
open Token.Stream

/-- Nothing is marked as discarded. -/
def plain : Matcher → Bool
  | .seq first second | .alt first second => first.plain && second.plain
  | .optional body | .many1 body | .look body => body.plain
  | .discard _ => false
  | _ => true

/-- All tokens that are taken, at least on the way, are of kinds in `q`. -/
def only (q : TokenKind → Bool) : Matcher → Bool
  | .kind k => q k
  | .symbol _ | .symbols _ => q .symbol
  | .keyword _ => q .word
  | .test _ => true
  | .seq first second | .alt first second => first.only q && second.only q
  | .optional body | .many1 body | .look body | .discard body => body.only q

/-- A success takes at least one token of a kind in `q`. -/
def takes (q : TokenKind → Bool) : Matcher → Bool
  | .kind k => q k
  | .symbol _ => q .symbol
  | .symbols text => !text.isEmpty && q .symbol
  | .keyword _ => q .word
  | .test outcome => !outcome
  | .seq first second => first.takes q || second.takes q
  | .alt first second => first.takes q && second.takes q
  | .optional _ | .look _ => false
  | .many1 body | .discard body => body.takes q

/-- A reader that answers whether it matched. -/
def Tries (q : TokenKind → Bool) (body : Stream → Bool × Stream) : Prop :=
  ∀ s, ∃ new, Reads q s new (body s).2 ∧ ((body s).1 = false → new = [])

theorem rewind_rewind (s : Stream) (h : b ≤ a) : (s.rewind a).rewind b = s.rewind b := by
  obtain ⟨consumed, buffered, unread, limit⟩ := s
  have hx : consumed.length - b = (consumed.length - a) +
      ((consumed.drop (consumed.length - a)).length - b) := by
    rw [List.length_drop]
    omega
  simp only [Stream.rewind, Stream.position, Stream.mk.injEq, and_true]
  refine ⟨?_, ?_⟩
  · rw [hx, List.drop_drop]
  · rw [hx, List.take_add, List.reverse_append, List.append_assoc]

theorem one_match {p : Token → Bool} (h : (one p s).1 = true) :
    p s.fetch.1 = true ∧ (one p s).2 = s.fetch.2 := by
  simp only [one] at h ⊢
  split at h
  · rename_i hp
    exact ⟨hp, by rw [if_pos hp]⟩
  · cases h

theorem one_miss {p : Token → Bool} (h : (one p s).1 = false) :
    (one p s).2 = s.fetch.2.rewind s.position := by
  simp only [one] at h ⊢
  split at h
  · cases h
  · rename_i hp
    rw [if_neg hp]

theorem one_reads (p : Token → Bool) (hp : ∀ t, p t = true → q t.kind = true) (s : Stream) :
    ((one p s).1 = true ∧ Reads q s [s.fetch.1] (one p s).2) ∨
      ((one p s).1 = false ∧ Reads q s [] (one p s).2) := by
  simp only [one]
  split
  · rename_i hf
    exact .inl ⟨rfl, .take (hp _ hf)⟩
  · exact .inr ⟨rfl, .peek⟩

theorem tries_one (p : Token → Bool) (hp : ∀ t, p t = true → q t.kind = true) :
    Tries q (one p) := by
  intro s
  rcases one_reads p hp s with ⟨ht, hr⟩ | ⟨hf, hr⟩
  · exact ⟨_, hr, by simp [ht]⟩
  · exact ⟨_, hr, fun _ => rfl⟩

theorem isSymbol_kind {t : Token} (h : t.isSymbol c = true) : t.kind = .symbol := by
  simp only [Token.isSymbol, Bool.and_eq_true, decide_eq_true_eq] at h
  exact h.1

/-- The first symbol that differs has been read as well, and is still to be given back. -/
theorem spell_reads (hq : q .symbol = true) (text : Text) (s : Stream) :
    ((spell text s).1 = true ∧ ∃ new, Reads q s new (spell text s).2 ∧
      new.map Token.kind = text.map (fun _ => .symbol)) ∨
    ((spell text s).1 = false ∧ ∃ new s', Reads q s new s' ∧ (spell text s).2 = s'.fetch.2) := by
  induction text generalizing s with
  | nil => exact .inl ⟨rfl, [], .stay, rfl⟩
  | cons c rest ih =>
    simp only [spell]
    split
    · rename_i hs
      have hk := isSymbol_kind hs
      have ht : Reads q s [s.fetch.1] s.fetch.2 := .take (hk ▸ hq)
      rcases ih s.fetch.2 with ⟨hok, new, hr, hm⟩ | ⟨hf, new, s', hr, he⟩
      · exact .inl ⟨hok, _, ht.trans hr, by simp [hk, hm]⟩
      · exact .inr ⟨hf, _, s', ht.trans hr, he⟩
    · exact .inr ⟨rfl, [], s, .stay, rfl⟩

theorem repeated_reads (hb : Tries q body) (fuel : Nat) (s : Stream) :
    ∃ new, Reads q s new (repeated body fuel s) := by
  induction fuel generalizing s with
  | zero => exact ⟨[], .stay⟩
  | succ fuel ih =>
    obtain ⟨new, hr, hf⟩ := hb s
    simp only [repeated]
    split
    · rename_i after hs
      obtain ⟨more, hm⟩ := ih after
      rw [hs] at hr
      exact ⟨_, hr.trans hm⟩
    · rename_i after hs
      rw [hs] at hr
      exact ⟨_, hr⟩

theorem repeated1_reads (hb : Tries q body) (s : Stream) :
    ∃ first more, Reads q s first (body s).2 ∧ Reads q s (first ++ more) (repeated1 body s).2 ∧
      (repeated1 body s).1 = (body s).1 ∧ ((body s).1 = false → first ++ more = []) := by
  obtain ⟨first, hr, hf⟩ := hb s
  simp only [repeated1]
  split
  · rename_i after hs
    obtain ⟨more, hm⟩ := repeated_reads hb (after.remaining + 1) after
    rw [hs] at hr
    exact ⟨first, more, by rwa [hs], hr.trans hm, by rw [hs], by simp [hs]⟩
  · rename_i after hs
    rw [hs] at hr hf
    exact ⟨first, [], by rwa [hs], by simpa using hr, by rw [hs], by simpa [hs] using hf⟩

/-- What a run of `m` on `s` comes to, with `new` as the tokens it takes. -/
structure Outcome (q : TokenKind → Bool) (m : Matcher) (s : Stream) (new : List Token) : Prop where
  reads : Reads q s new (m.run s).2
  failure : (m.run s).1 = false → new = []
  success : ∀ r, m.takes r = true → (m.run s).1 = true → ∃ t ∈ new, r t.kind = true

theorem kind_outcome (hq : q k = true) (s : Stream) : ∃ new, Outcome q (.kind k) s new := by
  have hp : ∀ t : Token, decide (t.kind = k) = true → q t.kind = true := by simp_all
  rcases one_reads _ hp s with ⟨ht, hr⟩ | ⟨hf, hr⟩
  · refine ⟨_, hr, by simp [run, ht], fun r htakes _ => ?_⟩
    have hk : s.fetch.1.kind = k := by simpa using (one_match ht).1
    exact ⟨_, List.mem_singleton_self _, hk ▸ htakes⟩
  · exact ⟨_, hr, fun _ => rfl, by simp [run, hf]⟩

theorem symbol_outcome (hq : q .symbol = true) (c : Char) (s : Stream) :
    ∃ new, Outcome q (.symbol c) s new := by
  have hp : ∀ t : Token, t.isSymbol c = true → q t.kind = true := by
    intro t ht
    rwa [isSymbol_kind ht]
  rcases one_reads _ hp s with ⟨ht, hr⟩ | ⟨hf, hr⟩
  · refine ⟨_, hr, by simp [run, ht], fun r htakes _ => ?_⟩
    have hk := isSymbol_kind (one_match ht).1
    exact ⟨_, List.mem_singleton_self _, hk ▸ htakes⟩
  · exact ⟨_, hr, fun _ => rfl, by simp [run, hf]⟩

theorem symbols_outcome (hq : q .symbol = true) (text : Text) (s : Stream) :
    ∃ new, Outcome q (.symbols text) s new := by
  rcases spell_reads hq text s with ⟨ht, new, hr, hk⟩ | ⟨hf, new, s', hr, he⟩
  · have hrun : run (.symbols text) s = (true, (spell text s).2) := by
      simp only [run]
      split <;> simp_all
    refine ⟨new, hrun ▸ hr, by simp [hrun], fun r htakes _ => ?_⟩
    cases text with
    | nil => simp [takes] at htakes
    | cons c rest =>
      cases new with
      | nil => simp at hk
      | cons t new =>
        simp only [List.map_cons, List.cons.injEq] at hk
        simp only [takes, List.isEmpty_cons, Bool.not_false, Bool.true_and] at htakes
        exact ⟨t, List.mem_cons_self, hk.1 ▸ htakes⟩
  · have hrun : run (.symbols text) s = (false, s'.fetch.2.rewind s.position) := by
      simp only [run]
      split <;> simp_all
    have hp : s.position ≤ s'.position := by simp [hr.position_eq]
    refine ⟨[], ?_, fun _ => rfl, by simp [hrun]⟩
    rw [hrun, ← rewind_rewind _ hp]
    have := (hr.trans (.peek (q := q))).back
    exact this

theorem keyword_outcome (hq : q .word = true) (words : List Text) (s : Stream) :
    ∃ new, Outcome q (.keyword words) s new := by
  have hp : ∀ t : Token, decide (t.kind = .word) = true → q t.kind = true := by simp_all
  obtain ⟨first, more, hfirst, hr, hs, hf⟩ := repeated1_reads (tries_one _ hp) s
  have hword : (word s).1 = true → ∃ t ∈ first ++ more, t.kind = .word := by
    intro ht
    rcases one_reads _ hp s with ⟨hone, hr'⟩ | ⟨hone, _⟩
    · have hk : s.fetch.1.kind = .word := by simpa using (one_match hone).1
      rw [hfirst.unique hr']
      exact ⟨_, by simp, hk⟩
    · rw [word, hs, hone] at ht
      cases ht
  change Reads q s (first ++ more) (word s).2 at hr
  rcases hw : word s with ⟨ok, after⟩
  rw [hw] at hr hword
  cases ok with
  | false =>
    have hn : first ++ more = [] := hf (by rw [← hs]; exact congrArg Prod.fst hw)
    have hrun : run (.keyword words) s = (false, after) := by simp [run, hw]
    exact ⟨[], hrun ▸ hn ▸ hr, fun _ => rfl, by simp [hrun]⟩
  | true =>
    by_cases hm : ((after.takenSince s.position).flatMap Token.text) ∈ words
    · have hrun : run (.keyword words) s = (true, after) := by simp [run, hw, hm]
      refine ⟨_, hrun ▸ hr, by simp [hrun], fun r htakes _ => ?_⟩
      obtain ⟨t, ht, hk⟩ := hword rfl
      exact ⟨t, ht, hk ▸ htakes⟩
    · have hrun : run (.keyword words) s = (false, after.rewind s.position) := by
        simp [run, hw, hm]
      exact ⟨[], hrun ▸ hr.back, fun _ => rfl, by simp [hrun]⟩

theorem seq_outcome (ih : ∀ s, ∃ new, Outcome q first s new)
    (ih' : ∀ s, ∃ new, Outcome q second s new) (s : Stream) :
    ∃ new, Outcome q (.seq first second) s new := by
  obtain ⟨a, ha⟩ := ih s
  obtain ⟨hr, hf, hs⟩ := ha
  rcases h : run first s with ⟨ok, after⟩
  rw [h] at hr hf hs
  cases ok with
  | false =>
    have hrun : run (.seq first second) s = (false, after) := by simp [run, h]
    exact ⟨a, hrun ▸ hr, fun _ => hf rfl, by simp [hrun]⟩
  | true =>
    obtain ⟨b, hr', _, hs'⟩ := ih' after
    rcases h' : run second after with ⟨ok', after'⟩
    rw [h'] at hr' hs'
    have hall := hr.trans hr'
    cases ok' with
    | false =>
      have hrun : run (.seq first second) s = (false, after'.rewind s.position) := by
        simp [run, h, h']
      exact ⟨[], hrun ▸ hall.back, fun _ => rfl, by simp [hrun]⟩
    | true =>
      have hrun : run (.seq first second) s = (true, after') := by simp [run, h, h']
      refine ⟨_, hrun ▸ hall, by simp [hrun], fun r htakes _ => ?_⟩
      simp only [takes, Bool.or_eq_true] at htakes
      rcases htakes with ht | ht
      · obtain ⟨t, hm, hk⟩ := hs r ht rfl
        exact ⟨t, List.mem_append_left b hm, hk⟩
      · obtain ⟨t, hm, hk⟩ := hs' r ht rfl
        exact ⟨t, List.mem_append_right a hm, hk⟩

theorem alt_outcome (ih : ∀ s, ∃ new, Outcome q first s new)
    (ih' : ∀ s, ∃ new, Outcome q second s new) (s : Stream) :
    ∃ new, Outcome q (.alt first second) s new := by
  obtain ⟨a, hr, hf, hs⟩ := ih s
  rcases h : run first s with ⟨ok, after⟩
  rw [h] at hr hf hs
  cases ok with
  | true =>
    have hrun : run (.alt first second) s = (true, after) := by simp [run, h]
    refine ⟨a, hrun ▸ hr, by simp [hrun], fun r htakes _ => ?_⟩
    simp only [takes, Bool.and_eq_true] at htakes
    exact hs r htakes.1 rfl
  | false =>
    obtain ⟨b, hr', hf', hs'⟩ := ih' after
    have hrun : run (.alt first second) s = run second after := by simp [run, h]
    have hn : a = [] := hf rfl
    have hall := hr.trans hr'
    rw [hn, List.nil_append] at hall
    refine ⟨b, hrun ▸ hall, by rwa [hrun], fun r htakes ht => ?_⟩
    simp only [takes, Bool.and_eq_true] at htakes
    exact hs' r htakes.2 (hrun ▸ ht)

theorem many1_outcome (ih : ∀ s, ∃ new, Outcome q body s new) (s : Stream) :
    ∃ new, Outcome q (.many1 body) s new := by
  have hb : Tries q (run body) := fun s => (ih s).imp fun _ h => ⟨h.reads, h.failure⟩
  obtain ⟨first, more, hfirst, hr, hs, hf⟩ := repeated1_reads hb s
  obtain ⟨new, hr', _, hsuccess⟩ := ih s
  refine ⟨_, hr, fun h => hf (hs ▸ h), fun r htakes ht => ?_⟩
  obtain ⟨t, hm, hk⟩ := hsuccess r htakes (hs ▸ ht)
  rw [hr'.unique hfirst] at hm
  exact ⟨t, List.mem_append_left more hm, hk⟩

/-- Running a plain matcher: it reads, and of the tokens it takes the kinds are known. -/
theorem run_outcome (hp : m.plain = true) (ho : only q m = true) (s : Stream) :
    ∃ new, Outcome q m s new := by
  induction m generalizing s with
  | kind k => exact kind_outcome ho s
  | symbol c => exact symbol_outcome ho c s
  | symbols text => exact symbols_outcome ho text s
  | keyword words => exact keyword_outcome ho words s
  | test outcome => exact ⟨[], .stay, fun _ => rfl, fun r ht hs => by simp_all [takes, run]⟩
  | seq first second ih ih' =>
    simp only [plain, only, Bool.and_eq_true] at hp ho
    exact seq_outcome (ih hp.1 ho.1) (ih' hp.2 ho.2) s
  | alt first second ih ih' =>
    simp only [plain, only, Bool.and_eq_true] at hp ho
    exact alt_outcome (ih hp.1 ho.1) (ih' hp.2 ho.2) s
  | optional body ih =>
    obtain ⟨new, hr, _, _⟩ := ih hp ho s
    exact ⟨new, hr, by simp [run], by simp [takes]⟩
  | many1 body ih => exact many1_outcome (ih hp ho) s
  | look body ih =>
    obtain ⟨new, hr, _, _⟩ := ih hp ho s
    exact ⟨[], hr.back, fun _ => rfl, by simp [takes]⟩
  | discard body => simp [plain] at hp

end LineMarkup.Matcher
