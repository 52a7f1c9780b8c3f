import LineMarkup.Proofs.Parser.Welcome
import LineMarkup.Proofs.Token.Insertion

namespace LineMarkup

open Matcher (Peg Named Shared)
open Token (endless Parted)

namespace Construct

/-- Code, math, and chains of names. -/
def isFormal (kind : Construct) : Bool :=
  kind.holdsCode || kind.holdsMath || kind.isChain

end Construct

namespace Rule

/-- No pattern looks behind a landmark that is not its first token. -/
theorem within_landmarks (inside : Construct) (atContentStart : Bool) :
    ∀ rule ∈ within inside atContentStart, ∀ s ∈ landmarks,
      rule.pattern.passes false .symbol s = false := by
  have hall : (within inside atContentStart).all (fun rule => landmarks.all fun s =>
      !rule.pattern.passes false .symbol s) = true := by
    cases inside <;> cases atContentStart <;> decide
  intro rule hm s hs
  simpa using List.all_eq_true.mp (List.all_eq_true.mp hall rule hm) s hs

/-- A pattern that looks behind a landmark begins with a hash. -/
theorem within_hash (inside : Construct) (atContentStart : Bool) :
    ∀ rule ∈ within inside atContentStart, ∀ s ∈ landmarks,
      rule.pattern.passes true .symbol s = true →
        s = '#' ∧ (inside.holdsContent || inside.holdsMath) = true := by
  have hall : (within inside atContentStart).all (fun rule => landmarks.all fun s =>
      !rule.pattern.passes true .symbol s ||
        decide (s = '#') && (inside.holdsContent || inside.holdsMath)) = true := by
    cases inside <;> cases atContentStart <;> decide
  intro rule hm s hs hp
  simpa [hp] using List.all_eq_true.mp (List.all_eq_true.mp hall rule hm) s hs

/-- In code and math no pattern looks behind the end of a line, or behind the marks of comments and
of raw text but for their own. -/
theorem within_formal {inside : Construct} (h : inside.isFormal = true) (atContentStart : Bool) :
    ∀ rule ∈ within inside atContentStart,
      (∀ first, rule.pattern.passes first .lineEnd ' ' = false) ∧
      rule.pattern.passes false .symbol '/' = false ∧
      (rule.pattern.passes true .symbol '/' = true → rule.pattern.isComment = true) ∧
      ∀ first, rule.pattern.passes first .symbol '\x60' = true →
        rule.pattern.spells "```".toList = true ∧ inside.holdsCode = true := by
  have hall : (within inside atContentStart).all (fun rule =>
      [true, false].all (fun first => !rule.pattern.passes first .lineEnd ' ') &&
      !rule.pattern.passes false .symbol '/' &&
      (!rule.pattern.passes true .symbol '/' || rule.pattern.isComment) &&
      [true, false].all (fun first => !rule.pattern.passes first .symbol '\x60' ||
        rule.pattern.spells "```".toList && inside.holdsCode)) = true := by
    revert h
    cases inside <;> cases atContentStart <;> decide
  intro rule hm
  have hrule := List.all_eq_true.mp hall rule hm
  simp only [Bool.and_eq_true, Bool.or_eq_true, Bool.not_eq_true', List.all_cons, List.all_nil,
    and_true] at hrule
  obtain ⟨⟨⟨hline, hslash⟩, hcomment⟩, hraw⟩ := hrule
  refine ⟨fun first => ?_, hslash, fun hp => ?_, fun first hp => ?_⟩
  · cases first
    · exact hline.2
    · exact hline.1
  · exact hcomment.resolve_left (by simp [hp])
  · cases first
    · exact hraw.2.resolve_left (by simp [hp])
    · exact hraw.1.resolve_left (by simp [hp])

/-- Among these rules are all that look behind a hash. -/
theorem within_hashes {inside : Construct} (h : (inside.holdsContent || inside.holdsMath) = true)
    (atContentStart : Bool) : ∀ rule ∈ within inside atContentStart,
      rule.pattern.passes true .symbol '#' = false ∨ rule ∈ codeStart := by
  obtain ⟨rest, hsplit⟩ := within_codeStart atContentStart h
  have hall : comments.all (fun rule => !rule.pattern.passes true .symbol '#') = true := by decide
  have hrest : ((within inside atContentStart).drop 10).all
      (fun rule => !rule.pattern.passes true .symbol '#') = true := by
    revert h
    cases inside <;> cases atContentStart <;> decide
  have hdrop : (within inside atContentStart).drop 10 = rest := by
    rw [hsplit]
    exact List.drop_left' rfl
  intro rule hm
  rw [hsplit, List.mem_append, List.mem_append] at hm
  rcases hm with (hm | hm) | hm
  · exact .inl (by simpa using List.all_eq_true.mp hall rule hm)
  · exact .inr hm
  · rw [hdrop] at hrest
    exact .inl (by simpa using List.all_eq_true.mp hrest rule hm)

/-- What may come directly after a match: a bracket, a point before a name, or a term. -/
def isNext : Matcher → Bool
  | .symbol '(' | .symbol '[' | .seq (.symbol '.') (.look (.kind .word))
  | .seq (.kind .word) (.look (.symbol ':')) => true
  | _ => false

theorem within_next (inside : Construct) (atContentStart : Bool) :
    ∀ rule ∈ within inside atContentStart, ∀ next ∈ rule.continuations,
      isNext next.pattern = true := by
  have hall : (within inside atContentStart).all
      (fun rule => rule.continuations.all fun next => isNext next.pattern) = true := by
    cases inside <;> cases atContentStart <;> decide
  exact fun rule hm next hnext => List.all_eq_true.mp (List.all_eq_true.mp hall rule hm) next hnext

end Rule

namespace Parser

variable {text text' : Text} {inside : Construct} {acs : Bool} {rule : Rule} {c s : Char}
  {i j k m n pos : Nat}

section Apart

variable (hp : Parted text text' c pos m n) (hm : rule ∈ Rule.within inside acs)
  (hparts : ¬ Shared (endless text) (endless text') m rule.pattern k)

include hp hm hparts

omit hm in
/-- A pattern that is not read alike looks behind each token before the first that differs. -/
theorem passes_of_parts {kind : TokenKind} (hlow : k ≤ j) (hj : j < m)
    (hfit : Matcher.Fits kind s (endless text j)) :
    rule.pattern.passes (decide (k = j)) kind s = true := by
  by_contra hno
  rw [Bool.not_eq_true] at hno
  exact hparts (Matcher.shared_of_passes hp.same hfit hlow hj hno)

omit hm in
theorem passes_symbol (hlow : k ≤ j) (hj : j < m) (hs : (endless text j).isSymbol s = true) :
    rule.pattern.passes (decide (k = j)) .symbol s = true :=
  passes_of_parts hp hparts hlow hj ⟨Matcher.isSymbol_kind hs, fun _ => hs⟩

/-- Behind the first token there are no landmarks. -/
theorem apart_behind (hlow : k < j) (hj : j < m) (hs : s ∈ landmarks) :
    (endless text j).isSymbol s = false := by
  rw [Bool.eq_false_iff]
  intro hsymbol
  have hpasses := passes_symbol hp hparts (Nat.le_of_lt hlow) hj hsymbol
  rw [decide_eq_false (Nat.ne_of_lt hlow), Rule.within_landmarks inside acs rule hm s hs] at hpasses
  cases hpasses

/-- If the first one is a landmark, it is a hash. -/
theorem apart_first (hk : k < m) (hs : s ∈ landmarks)
    (hsymbol : (endless text k).isSymbol s = true) :
    s = '#' ∧ (inside.holdsContent || inside.holdsMath) = true := by
  have hpasses := passes_symbol hp hparts (Nat.le_refl k) hk hsymbol
  rw [decide_eq_true rfl] at hpasses
  exact Rule.within_hash inside acs rule hm s hs hpasses

end Apart

section Early

variable (hp : Parted text text' c pos m n)

include hp

variable (hm : rule ∈ Rule.within inside acs)
  (hparts : ¬ Shared (endless text) (endless text') m rule.pattern k)

include hm hparts

/-- Behind the token where the parsers come apart no landmark starts before the place. -/
theorem apart_plain (hlow : k < i) (hearly : (endless text i).start < pos) (hs : s ∈ landmarks) :
    (endless text i).isSymbol s = false := by
  rcases Nat.lt_or_ge i m with hlt | hge
  · exact apart_behind hp hm hparts hlow hlt hs
  · exact hp.early_symbol hge hearly s

theorem apart_plain_first (hk : k < m) (hhash : (endless text k).isSymbol '#' = false)
    (hlow : k ≤ i) (hearly : (endless text i).start < pos) (hs : s ∈ landmarks) :
    (endless text i).isSymbol s = false := by
  rcases Nat.eq_or_lt_of_le hlow with rfl | hlt
  · rw [Bool.eq_false_iff]
    intro hsymbol
    obtain ⟨rfl, _⟩ := apart_first hp hm hparts hk hs hsymbol
    rw [hhash] at hsymbol
    cases hsymbol
  · exact apart_plain hp hm hparts hlt hearly hs

end Early

section Names

variable (hp : Parted text text' c pos m n) (hc : c ∈ brackets)

include hp hc

/-- A name is read alike in both texts, unless it reaches up to the bracket. -/
theorem named_or_shared (hi : (endless text' i).kind = .word) (him : i ≤ m) :
    (∃ j, Named (endless text') i j n) ∨
      i < m ∧ Shared (endless text) (endless text') m Matcher.codeKeyword i ∧
        Shared (endless text) (endless text') m Matcher.identifier i ∧
        Shared (endless text) (endless text') m Rule.functionName i := by
  have hne : c ≠ '_' := by
    rintro rfl
    revert hc
    decide
  obtain ⟨j, l, hname, hle, hword, hunder⟩ :=
    Named.exists_upto hi hp.bracket hne (Nat.le_trans him hp.le)
  rcases Nat.eq_or_lt_of_le hle with rfl | hln
  · exact .inl ⟨j, hname⟩
  right
  have hlm : l ≤ m := by
    by_contra hml
    rw [Nat.not_le] at hml
    have hmn : m < n := Nat.lt_trans hml hln
    rcases Nat.lt_or_ge m j with hmj | hjm
    · rw [hp.unders hmn (hname.words m him hmj) l hml hln] at hunder
      cases hunder
    · have hsign := hp.sign hmn '_' (hname.unders m hjm hml)
      revert hsign
      decide
  have hsame : ∀ l' < l, endless text' l' = endless text l' :=
    fun l' hl' => hp.same l' (Nat.lt_of_lt_of_le hl' hlm)
  have hil : i < l := Nat.lt_of_lt_of_le hname.lt hname.le
  have hold : (endless text j).kind ≠ .word := by
    rcases Nat.lt_or_ge j m with hjm | hmj
    · rwa [← hp.same j hjm]
    · obtain rfl : j = m := Nat.le_antisymm (Nat.le_trans hname.le hlm) hmj
      intro hkind
      exact hword (hp.word (Nat.lt_of_le_of_lt hname.le hln) hkind)
  have hlate (s : Char) (hs : l < m → (endless text' l).isSymbol s = false) :
      (endless text l).isSymbol s = false := by
    rcases Nat.lt_or_ge l m with hlt | hge
    · rw [← hp.same l hlt]
      exact hs hlt
    · obtain rfl : l = m := Nat.le_antisymm hlm hge
      rw [Bool.eq_false_iff]
      intro hsymbol
      exact hp.kind hln (Matcher.isSymbol_kind hsymbol)
  obtain ⟨hkeyword, hidentifier⟩ :=
    hname.shared hsame ⟨hold, hword⟩ ⟨hlate '_' fun _ => hunder, hunder⟩
  refine ⟨Nat.lt_of_lt_of_le hil hlm, hkeyword.mono hlm, hidentifier.mono hlm, ?_⟩
  refine (hidentifier.mono hlm).seq fun l' hl' => ?_
  have hle' : l' ≤ l := (hidentifier _ hl').2 l' rfl
  rcases Nat.lt_or_ge l' m with hlt | hge
  · exact Matcher.shared_glances hp.same hlt rfl
  · -- The name ends right before the pieces, and these are no brackets.
    obtain rfl : l' = m := by omega
    obtain rfl : l' = l := by omega
    have hpiece (s : Char) (hs : Token.isInner s = false) :
        (endless text l').isSymbol s = false ∧ (endless text' l').isSymbol s = false :=
      ⟨hlate s fun hlt => absurd hlt (Nat.lt_irrefl _), hp.piece_symbol (Nat.le_refl _) hln hs⟩
    obtain ⟨hround, hround'⟩ := hpiece '(' (by decide +kernel)
    obtain ⟨hsquare, hsquare'⟩ := hpiece '[' (by decide +kernel)
    apply Matcher.shared_of_spurned hsame (Nat.le_refl _)
    · simp [Matcher.spurns, hround, hsquare]
    · simp [Matcher.spurns, hround', hsquare']

variable (hm : rule ∈ Rule.within inside acs)
  (hparts : ¬ Shared (endless text) (endless text') m rule.pattern k)

include hm hparts

/-- Where the parsers come apart at a hash with a word behind it, a name reaches up to the
bracket. -/
theorem named_behind (hk : k < m)
    (hcode : (inside.holdsContent || inside.holdsMath) = true)
    (hhash : (endless text k).isSymbol '#' = true) (hword : (endless text' (k + 1)).kind = .word) :
    ∃ j, Named (endless text') (k + 1) j n := by
  rcases named_or_shared hp hc hword hk with hnamed | ⟨hlt, hkeyword, hname, hcall⟩
  · exact hnamed
  exfalso
  have hsign : Shared (endless text) (endless text') m (.symbol '#') k :=
    Matcher.shared_glances hp.same hk rfl
  have hsign' : Shared (endless text) (endless text') m (.discard (.symbol '#')) k :=
    Matcher.shared_glances hp.same hk rfl
  have hbehind {a b : Matcher} (ha : a = .symbol '#' ∨ a = .discard (.symbol '#'))
      (hb : Shared (endless text) (endless text') m b (k + 1)) :
      Shared (endless text) (endless text') m (.seq a b) k := by
    rcases ha with rfl | rfl
    · refine hsign.seq fun l hl => ?_
      cases hl
      exact hb
    · refine hsign'.seq fun l hl => ?_
      cases hl with | discard hl =>
      cases hl
      exact hb
  have hglance {b : Matcher} (hb : b.glances = true) :
      Shared (endless text) (endless text') m b (k + 1) :=
    Matcher.shared_glances hp.same hlt hb
  have hnumber : Shared (endless text) (endless text') m Matcher.numberWithUnit (k + 1) := by
    refine (hglance rfl).seq fun l hl => ?_
    cases hl with | kind hkind =>
    rw [hp.same (k + 1) hlt, hkind] at hword
    cases hword
  rcases Rule.within_hashes hcode acs rule hm with hno | hlisted
  · have hpasses := passes_symbol hp hparts (Nat.le_refl k) hk hhash
    rw [decide_eq_true rfl, hno] at hpasses
    cases hpasses
  · simp only [Rule.codeStart, List.mem_cons, List.not_mem_nil, or_false] at hlisted
    rcases hlisted with rfl | rfl | rfl | rfl | rfl | rfl | rfl | rfl
    · exact hparts (hbehind (.inl rfl) hkeyword)
    · exact hparts (hbehind (.inl rfl) hcall)
    · exact hparts (hbehind (.inl rfl) hnumber)
    · exact hparts (Matcher.shared_symbols hp.same hlt)
    · exact hparts (hbehind (.inl rfl) hname)
    · exact hparts (hbehind (.inr rfl) (hglance rfl))
    · exact hparts (hbehind (.inr rfl) (hglance rfl))
    · exact hparts (hbehind (.inr rfl) (hglance rfl))

/-- So it does where they come apart in a chain at a word. -/
theorem named_chain (hk : k < m) (hchain : inside = .codeChain)
    (hword : (endless text' k).kind = .word) : ∃ j, Named (endless text') k j n := by
  rcases named_or_shared hp hc hword (Nat.le_of_lt hk) with hnamed | ⟨_, _, hname, hcall⟩
  · exact hnamed
  exfalso
  rw [hchain] at hm
  have hlisted : rule ∈ Rule.inCodeChain := hm
  simp only [Rule.inCodeChain, List.mem_cons, List.not_mem_nil, or_false] at hlisted
  rcases hlisted with rfl | rfl | rfl
  · exact hparts hcall
  · exact hparts hname
  · exact hparts (Matcher.shared_glances hp.same hk rfl)

omit hc in
/-- Where they come apart at a hash, no point follows before the place. -/
theorem apart_point (hcode : (inside.holdsContent || inside.holdsMath) = true) (hk : k < m)
    (hhash : (endless text k).isSymbol '#' = true) (hlow : k < i)
    (hearly : (endless text i).start < pos) : (endless text i).isSymbol '.' = false := by
  rcases Nat.lt_or_ge i m with him | hge
  swap
  · exact hp.early_symbol hge hearly '.'
  rw [Bool.eq_false_iff]
  intro hpoint
  have hall : Rule.codeStart.all (fun rule => !rule.pattern.passes false .symbol '.') = true := by
    decide
  rcases Rule.within_hashes hcode acs rule hm with hno | hlisted
  · have hpasses := passes_symbol hp hparts (Nat.le_refl k) hk hhash
    rw [decide_eq_true rfl, hno] at hpasses
    cases hpasses
  · have hpasses := passes_symbol hp hparts (Nat.le_of_lt hlow) him hpoint
    have hnot := List.all_eq_true.mp hall rule hlisted
    rw [decide_eq_false (Nat.ne_of_lt hlow)] at hpasses
    rw [hpasses] at hnot
    cases hnot

end Names

section Bland

variable (hp : Parted text text' c pos m n) (hc : c ∈ brackets)

include hp hc

omit hc in
/-- The pieces before the bracket are bland. -/
theorem bland_piece (hlow : m ≤ j) (hj : j < n) : Bland (endless text') j := by
  have hall : ('/' :: closers).all (fun s => !Token.isInner s) = true := by decide +kernel
  have hnot : ∀ s ∈ '/' :: closers, Token.isInner s = false := by
    simpa only [List.all_eq_true, Bool.not_eq_true'] using hall
  refine ⟨hp.piece_lineEnd hlow hj, fun s hs => ?_, fun hslash => ?_⟩
  · exact hp.piece_symbol hlow hj (hnot s (List.mem_cons_of_mem _ hs))
  · rw [hp.piece_symbol hlow hj (hnot '/' List.mem_cons_self)] at hslash
    cases hslash

/-- What begins to differ is no mark of a comment or of raw text. -/
theorem differs_symbol (hs : s ∈ ['/', '*', '\x60']) : (endless text' m).isSymbol s = false := by
  rcases Nat.eq_or_lt_of_le hp.le with rfl | hlt
  · rw [Bool.eq_false_iff]
    intro hsymbol
    obtain rfl := Matcher.isSymbol_unique hp.bracket hsymbol
    simp only [brackets, List.mem_cons, List.not_mem_nil, or_false] at hc
    rcases hc with rfl | rfl | rfl <;> simp at hs
  · have hall : ['/', '*', '\x60'].all (fun s => !Token.isInner s) = true := by decide +kernel
    have hnot : ∀ s ∈ ['/', '*', '\x60'], Token.isInner s = false := by
      simpa only [List.all_eq_true, Bool.not_eq_true'] using hall
    exact hp.piece_symbol (Nat.le_refl m) hlt (hnot s hs)

/-- Symbols that are not shared are found in the old text, and reach over the place. -/
theorem apart_symbols {marks : Text} (hmarks : ∀ s ∈ marks, s ∈ ['/', '*', '\x60'])
    (hparts : ¬ Shared (endless text) (endless text') m (.symbols marks) k) (hk : k ≤ m) :
    Matcher.Spells (endless text) marks k ∧ m < k + marks.length := by
  have hlong : m < k + marks.length := by
    refine Nat.lt_of_not_le fun hle => hparts ?_
    exact Matcher.shared_symbols hp.same hle
  refine ⟨?_, hlong⟩
  by_contra hno
  refine hparts fun r h => ?_
  cases h with
  | symbols hs => exact absurd hs hno
  | symbolsMiss =>
    refine ⟨.symbolsMiss fun hs' => ?_, fun l hl => nomatch hl⟩
    have hlt : m - k < marks.length := by omega
    have hsign := hs' (m - k) _ (List.getElem?_eq_getElem hlt)
    rw [Nat.add_sub_cancel' hk,
      differs_symbol hp hc (hmarks _ (List.getElem_mem hlt))] at hsign
    cases hsign

variable (hm : rule ∈ Rule.within inside acs)
  (hparts : ¬ Shared (endless text) (endless text') m rule.pattern k)
  (hformal : inside.isFormal = true)
  (hraw : inside.holdsCode = true → (endless text k).isSymbol '\x60' = false)

include hm hparts hformal hraw

/-- In code and math that does not begin raw text, no sign that matters comes before the tokens that
differ. -/
theorem apart_closers (hs : s ∈ closers) (hlow : k ≤ j) (hj : j < m) :
    (endless text j).isSymbol s = false := by
  obtain ⟨_, _, _, hticks⟩ := Rule.within_formal hformal acs rule hm
  rw [Bool.eq_false_iff]
  intro hsymbol
  by_cases htick : s = '\x60'
  · subst htick
    obtain ⟨hspells, hcode⟩ := hticks _ (passes_symbol hp hparts hlow hj hsymbol)
    rw [Matcher.eq_of_spells hspells] at hparts
    have hk : k ≤ m := by omega
    obtain ⟨hspelled, _⟩ := apart_symbols hp hc (by simp) hparts hk
    have hfirst : (endless text k).isSymbol '\x60' = true := hspelled 0 '\x60' rfl
    rw [hraw hcode] at hfirst
    cases hfirst
  · have hland : s ∈ landmarks ∧ s ≠ '#' := by
      simp only [closers, landmarks, List.mem_cons, List.not_mem_nil, or_false] at hs ⊢
      rcases hs with rfl | rfl | rfl | rfl | rfl | rfl | rfl | rfl | rfl <;> simp at htick ⊢
    rcases Nat.eq_or_lt_of_le hlow with rfl | hlt
    · exact hland.2 (apart_first hp hm hparts hj hland.1 hsymbol).1
    · rw [apart_behind hp hm hparts hlt hj hland.1] at hsymbol
      cases hsymbol

/-- Nor does a comment begin there, or the line end. -/
theorem apart_bland (hlow : k ≤ j) (hj : j < n) : Bland (endless text') j := by
  rcases Nat.lt_or_ge j m with hjm | hge
  swap
  · exact bland_piece hp hge hj
  obtain ⟨hline, hslash, hcomment, _⟩ := Rule.within_formal hformal acs rule hm
  refine ⟨fun hend => ?_, fun s hs => ?_, fun hmark s hs => ?_⟩
  · rw [hp.same j hjm] at hend
    have hpasses := passes_of_parts (s := ' ') hp hparts hlow hjm ⟨hend, nofun⟩
    rw [hline] at hpasses
    cases hpasses
  · rw [hp.same j hjm]
    exact apart_closers hp hc hm hparts hformal hraw hs hlow hjm
  · rw [hp.same j hjm] at hmark
    have hpasses := passes_symbol hp hparts hlow hjm hmark
    rcases Nat.eq_or_lt_of_le hlow with rfl | hlt
    · -- The mark of a comment in the old text would reach over the place.
      rw [decide_eq_true rfl] at hpasses
      have hnext : m < k + 2 := by
        have hrule := hcomment hpasses
        rw [Matcher.isComment, Bool.or_eq_true] at hrule
        rcases hrule with hspells | hspells <;> rw [Matcher.eq_of_spells hspells] at hparts
        · exact (apart_symbols hp hc (by simp) hparts (Nat.le_of_lt hjm)).2
        · exact (apart_symbols hp hc (by simp) hparts (Nat.le_of_lt hjm)).2
      obtain rfl : k + 1 = m := by omega
      have hmem : s ∈ ['/', '*', '\x60'] := List.mem_append_left ['\x60'] hs
      exact differs_symbol hp hc hmem
    · rw [decide_eq_false (Nat.ne_of_lt hlt), hslash] at hpasses
      cases hpasses

end Bland

end Parser

end LineMarkup
