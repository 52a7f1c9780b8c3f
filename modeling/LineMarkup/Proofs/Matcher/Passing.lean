import LineMarkup.Proofs.Matcher.Character

namespace LineMarkup.Matcher

/-- A token is of a kind, and if these are symbols, then of a character. -/
structure Fits (k : TokenKind) (sign : Char) (token : Token) : Prop where
  kind : token.kind = k
  sign : k = .symbol → token.isSymbol sign = true

/-- Whether a match may end right behind a token of this kind. A match that began before the token
does not have it first. -/
def reaches (first : Bool) (k : TokenKind) (sign : Char) : Matcher → Bool
  | .kind other => first && other = k
  | .symbol c => first && k = .symbol && c = sign
  | .symbols text => k = .symbol && (if first then text else text.drop 1).contains sign
  | .keyword _ => k = .word
  | .test _ | .look _ => false
  | .seq a b => a.reaches first k sign || b.reaches true k sign
  | .alt a b => a.reaches first k sign || b.reaches first k sign
  | .many1 body => body.reaches first k sign || body.reaches true k sign
  | .optional body | .discard body => body.reaches first k sign

/-- Whether a reading may look at what is behind such a token. -/
def passes (first : Bool) (k : TokenKind) (sign : Char) : Matcher → Bool
  | .kind _ | .symbol _ | .test _ => false
  | .symbols text => k = .symbol && (if first then text else text.drop 1).dropLast.contains sign
  | .keyword _ => k = .word
  | .seq a b => a.passes first k sign || a.reaches first k sign || b.passes true k sign
  | .alt a b => a.passes first k sign || b.passes first k sign
  | .many1 body => body.passes first k sign || body.reaches first k sign ||
      (body.passes true k sign || body.reaches true k sign)
  | .optional body | .look body | .discard body => body.passes first k sign

variable {input input' : Nat → Token} {m : Matcher} {text : Text} {i j n : Nat} {r : Option Nat}
  {first : Bool} {k : TokenKind} {sign c : Char}

theorem Spells.congr (h : Spells input text i) (heq : ∀ n < i + text.length, input' n = input n) :
    Spells input' text i := by
  intro n c hn
  have hlt := (List.getElem?_eq_some_iff.mp hn).1
  rw [heq (i + n) (by omega)]
  exact h n c hn

/-- Symbols that spell a text with such a token in it. -/
theorem Spells.contains (h : Spells input text i) (hfit : Fits k sign (input j)) (hlow : i ≤ j)
    (hhigh : j < i + text.length) : k = .symbol ∧ text[j - i]? = some sign := by
  have hlt : j - i < text.length := by omega
  have hj := h (j - i) _ (List.getElem?_eq_getElem hlt)
  rw [Nat.add_sub_cancel' hlow] at hj
  have hk : k = .symbol := hfit.kind.symm.trans (isSymbol_kind hj)
  refine ⟨hk, ?_⟩
  rw [List.getElem?_eq_getElem hlt, isSymbol_unique hj (hfit.sign hk)]

theorem textBetween_congr (heq : ∀ n < j, input' n = input n) :
    textBetween input' i j = textBetween input i j := by
  unfold textBetween
  simp only [List.flatMap]
  congr 1
  apply List.map_congr_left
  intro n hn
  obtain ⟨hlow, hhigh⟩ := List.mem_range'_1.mp hn
  rw [heq n (by omega)]

/-- A keyword is read like a word. -/
theorem fullWord_passes {words : List Text} (first : Bool) (sign : Char)
    (h : (keyword words).passes first k sign = false) :
    fullWord.passes first k sign = false ∧ fullWord.reaches first k sign = false := by
  have hk : TokenKind.word ≠ k := fun hk => by simp [passes, hk] at h
  simp [fullWord, passes, reaches, hk]

theorem contains_behind (h : text[n]? = some c) (hn : first = false → 0 < n) :
    (if first then text else text.drop 1).contains c = true := by
  rw [List.contains_iff_mem]
  cases first with
  | true => exact List.mem_of_getElem? h
  | false =>
    refine List.mem_of_getElem? (i := n - 1) ?_
    rw [if_neg Bool.false_ne_true, List.getElem?_drop, Nat.add_sub_cancel' (hn rfl), h]

theorem contains_before (h : text[n]? = some c) (hn : first = false → 0 < n)
    (hlt : n + 1 < text.length) :
    (if first then text else text.drop 1).dropLast.contains c = true := by
  rw [List.contains_iff_mem]
  cases first with
  | true =>
    refine List.mem_of_getElem? (i := n) ?_
    rw [if_pos rfl, List.getElem?_dropLast, if_pos (by omega), h]
  | false =>
    have := hn rfl
    refine List.mem_of_getElem? (i := n - 1) ?_
    rw [if_neg Bool.false_ne_true, List.getElem?_dropLast, List.length_drop, if_pos (by omega),
      List.getElem?_drop, Nat.add_sub_cancel' this, h]

namespace Peg

section Landmark

variable (hfit : Fits k sign (input j))

include hfit

/-- A text that is spelled ends right behind the token at the latest. -/
theorem spells_stays (hi : i ≤ j) (hfirst : first = false → i < j)
    (hp : (Matcher.symbols text).passes first k sign = false) (h : Spells input text i) :
    i + text.length ≤ j + 1 ∧
      ((Matcher.symbols text).reaches first k sign = false → i + text.length ≤ j) := by
  have hbehind (hn : first = false) : 0 < j - i := by
    have := hfirst hn
    omega
  refine ⟨Nat.le_of_not_lt fun hlt => ?_, fun hr => Nat.le_of_not_lt fun hlt => ?_⟩
  · obtain ⟨rfl, hsign⟩ := h.contains hfit hi (by omega)
    rw [passes, contains_before hsign hbehind (by omega)] at hp
    cases hp
  · obtain ⟨rfl, hsign⟩ := h.contains hfit hi hlt
    rw [reaches, contains_behind hsign hbehind] at hr
    cases hr

/-- A reading is the same for any input that agrees up to a token that it cannot get beyond. -/
theorem stays (heq : ∀ n ≤ j, input' n = input n) (h : Peg input m i r) (hi : i ≤ j)
    (hfirst : first = false → i < j) (hp : m.passes first k sign = false) :
    Peg input' m i r ∧ ∀ n, r = some n →
      n ≤ j + 1 ∧ (m.reaches first k sign = false → n ≤ j) := by
  induction h generalizing first with
  | @kind i kind hk =>
    refine ⟨.kind (heq i hi ▸ hk), fun n hn => ?_⟩
    obtain rfl := Option.some.inj hn
    refine ⟨Nat.succ_le_succ hi, fun hr => Nat.lt_of_le_of_ne hi ?_⟩
    rintro rfl
    cases first with
    | true => simp [reaches, ← hk, hfit.kind] at hr
    | false => exact Nat.lt_irrefl i (hfirst rfl)
  | @kindMiss i kind hk => exact ⟨.kindMiss (heq i hi ▸ hk), fun n hn => nomatch hn⟩
  | @symbol i c hc =>
    refine ⟨.symbol (heq i hi ▸ hc), fun n hn => ?_⟩
    obtain rfl := Option.some.inj hn
    refine ⟨Nat.succ_le_succ hi, fun hr => Nat.lt_of_le_of_ne hi ?_⟩
    rintro rfl
    have hk : k = .symbol := hfit.kind.symm.trans (isSymbol_kind hc)
    cases first with
    | true => simp [reaches, hk, isSymbol_unique hc (hfit.sign hk)] at hr
    | false => exact Nat.lt_irrefl i (hfirst rfl)
  | @symbolMiss i c hc => exact ⟨.symbolMiss (heq i hi ▸ hc), fun n hn => nomatch hn⟩
  | @symbols text i hs =>
    obtain ⟨hle, hshort⟩ := spells_stays hfit hi hfirst hp hs
    refine ⟨.symbols (hs.congr fun n hn => heq n (by omega)), fun n hn => ?_⟩
    obtain rfl := Option.some.inj hn
    exact ⟨hle, hshort⟩
  | @symbolsMiss text i hs =>
    refine ⟨.symbolsMiss fun hs' => hs ?_, fun n hn => nomatch hn⟩
    have hfit' : Fits k sign (input' j) := heq j (Nat.le_refl j) ▸ hfit
    obtain ⟨hle, _⟩ := spells_stays hfit' hi hfirst hp hs'
    exact hs'.congr fun n hn => (heq n (by omega)).symm
  | keyword h hw ih =>
    obtain ⟨hpasses, hreaches⟩ := fullWord_passes first sign hp
    obtain ⟨hreads, hle⟩ := ih hi hfirst hpasses
    have hn := (hle _ rfl).2 hreaches
    refine ⟨.keyword hreads ?_, fun n hn => ?_⟩
    · rwa [textBetween_congr fun n hlt => heq n (by omega)]
    · obtain rfl := Option.some.inj hn
      exact ⟨by omega, fun _ => by assumption⟩
  | keywordOther h hw ih =>
    obtain ⟨hpasses, hreaches⟩ := fullWord_passes first sign hp
    obtain ⟨hreads, hle⟩ := ih hi hfirst hpasses
    have hn := (hle _ rfl).2 hreaches
    refine ⟨.keywordOther hreads ?_, fun n hn => nomatch hn⟩
    rwa [textBetween_congr fun n hlt => heq n (by omega)]
  | keywordMiss h ih =>
    obtain ⟨hreads, _⟩ := ih hi hfirst (fullWord_passes first sign hp).1
    exact ⟨.keywordMiss hreads, fun n hn => nomatch hn⟩
  | test =>
    refine ⟨.test, fun n hn => ?_⟩
    obtain rfl := Option.some.inj hn
    exact ⟨by omega, fun _ => hi⟩
  | testMiss => exact ⟨.testMiss, fun n hn => nomatch hn⟩
  | seq h h' ih ih' =>
    simp only [passes, Bool.or_eq_false_iff] at hp
    obtain ⟨hreads, hle⟩ := ih hi hfirst hp.1.1
    have hmiddle := (hle _ rfl).2 hp.1.2
    obtain ⟨hreads', hle'⟩ := ih' hmiddle (fun hn : true = false => nomatch hn) hp.2
    refine ⟨.seq hreads hreads', fun n hn => ⟨(hle' n hn).1, fun hr => (hle' n hn).2 ?_⟩⟩
    simp only [reaches, Bool.or_eq_false_iff] at hr
    exact hr.2
  | seqMiss h ih =>
    simp only [passes, Bool.or_eq_false_iff] at hp
    exact ⟨.seqMiss (ih hi hfirst hp.1.1).1, fun n hn => nomatch hn⟩
  | alt h ih =>
    simp only [passes, Bool.or_eq_false_iff] at hp
    obtain ⟨hreads, hle⟩ := ih hi hfirst hp.1
    refine ⟨.alt hreads, fun n hn => ⟨(hle n hn).1, fun hr => (hle n hn).2 ?_⟩⟩
    simp only [reaches, Bool.or_eq_false_iff] at hr
    exact hr.1
  | altOther h h' ih ih' =>
    simp only [passes, Bool.or_eq_false_iff] at hp
    obtain ⟨hreads, hle⟩ := ih' hi hfirst hp.2
    refine ⟨.altOther (ih hi hfirst hp.1).1 hreads,
      fun n hn => ⟨(hle n hn).1, fun hr => (hle n hn).2 ?_⟩⟩
    simp only [reaches, Bool.or_eq_false_iff] at hr
    exact hr.2
  | optional h ih =>
    obtain ⟨hreads, hle⟩ := ih hi hfirst hp
    exact ⟨.optional hreads, hle⟩
  | optionalMiss h ih =>
    refine ⟨.optionalMiss (ih hi hfirst hp).1, fun n hn => ?_⟩
    obtain rfl := Option.some.inj hn
    exact ⟨by omega, fun _ => hi⟩
  | many1Last h h' ih ih' =>
    simp only [passes, Bool.or_eq_false_iff] at hp
    obtain ⟨hreads, hle⟩ := ih hi hfirst hp.1.1
    have hmiddle := (hle _ rfl).2 hp.1.2
    obtain ⟨hreads', _⟩ := ih' hmiddle (fun hn : true = false => nomatch hn) hp.2.1
    refine ⟨.many1Last hreads hreads', fun n hn => ?_⟩
    obtain rfl := Option.some.inj hn
    exact ⟨by omega, fun _ => hmiddle⟩
  | many1More h h' ih ih' =>
    simp only [passes, Bool.or_eq_false_iff] at hp
    obtain ⟨hreads, hle⟩ := ih hi hfirst hp.1.1
    have hmiddle := (hle _ rfl).2 hp.1.2
    obtain ⟨hreads', hle'⟩ := ih' hmiddle (fun hn : true = false => nomatch hn)
      (by simp [passes, hp.2.1, hp.2.2])
    refine ⟨.many1More hreads hreads', fun n hn => ⟨(hle' n hn).1, fun _ => (hle' n hn).2 ?_⟩⟩
    simp [reaches, hp.2.2]
  | many1Miss h ih =>
    simp only [passes, Bool.or_eq_false_iff] at hp
    exact ⟨.many1Miss (ih hi hfirst hp.1.1).1, fun n hn => nomatch hn⟩
  | look h ih =>
    refine ⟨.look (ih hi hfirst hp).1, fun n hn => ?_⟩
    obtain rfl := Option.some.inj hn
    exact ⟨by omega, fun _ => hi⟩
  | lookMiss h ih => exact ⟨.lookMiss (ih hi hfirst hp).1, fun n hn => nomatch hn⟩
  | discard h ih =>
    obtain ⟨hreads, hle⟩ := ih hi hfirst hp
    exact ⟨.discard hreads, hle⟩

end Landmark

end Peg

/-- A pattern reads the same in both inputs, and no farther than to token `limit`. -/
def Shared (input input' : Nat → Token) (limit : Nat) (pattern : Matcher) (k : Nat) : Prop :=
  ∀ r, Peg input pattern k r → Peg input' pattern k r ∧ ∀ j ∈ r, j ≤ limit

namespace Shared

variable {limit : Nat} {a b : Matcher}

theorem mono (h : Shared input input' j m i) (hle : j ≤ limit) : Shared input input' limit m i :=
  fun r hr => ⟨(h r hr).1, fun l hl => Nat.le_trans ((h r hr).2 l hl) hle⟩

theorem seq (ha : Shared input input' limit a i)
    (hb : ∀ l, Peg input a i (some l) → Shared input input' limit b l) :
    Shared input input' limit (.seq a b) i := by
  intro r h
  cases h with
  | seq h h' =>
    obtain ⟨hreads', hle'⟩ := hb _ h _ h'
    exact ⟨.seq (ha _ h).1 hreads', hle'⟩
  | seqMiss h => exact ⟨.seqMiss (ha _ h).1, fun l hl => nomatch hl⟩

end Shared

/-- What spells a text before the inputs differ. -/
theorem shared_symbols {limit : Nat} (hsame : ∀ n < limit, input' n = input n)
    (hi : i + text.length ≤ limit) : Shared input input' limit (.symbols text) i := by
  intro r h
  cases h with
  | symbols hs =>
    exact ⟨.symbols (hs.congr fun n hn => hsame n (by omega)), fun l hl => Option.some.inj hl ▸ hi⟩
  | symbolsMiss hs =>
    refine ⟨.symbolsMiss fun hs' => hs ?_, fun l hl => nomatch hl⟩
    exact hs'.congr fun n hn => (hsame n (by omega)).symm

/-- At most one token is looked at. -/
def glances : Matcher → Bool
  | .kind _ | .symbol _ | .symbols [_] | .test _ => true
  | .alt a b => a.glances && b.glances
  | .optional body | .look body | .discard body => body.glances
  | _ => false

theorem shared_glances {limit : Nat} (hsame : ∀ n < limit, input' n = input n) (hi : i < limit)
    (hm : m.glances = true) : Shared input input' limit m i := by
  intro r h
  induction h with
  | kind h => exact ⟨.kind (hsame _ hi ▸ h), fun l hl => Option.some.inj hl ▸ hi⟩
  | kindMiss h => exact ⟨.kindMiss (hsame _ hi ▸ h), fun l hl => nomatch hl⟩
  | symbol h => exact ⟨.symbol (hsame _ hi ▸ h), fun l hl => Option.some.inj hl ▸ hi⟩
  | symbolMiss h => exact ⟨.symbolMiss (hsame _ hi ▸ h), fun l hl => nomatch hl⟩
  | @symbols text i h =>
    have hone : text.length = 1 := by
      match text, hm with
      | [_], _ => rfl
    exact shared_symbols hsame (by omega) _ (.symbols h)
  | @symbolsMiss text i h =>
    have hone : text.length = 1 := by
      match text, hm with
      | [_], _ => rfl
    exact shared_symbols hsame (by omega) _ (.symbolsMiss h)
  | test => exact ⟨.test, fun l hl => Option.some.inj hl ▸ Nat.le_of_lt hi⟩
  | testMiss => exact ⟨.testMiss, fun l hl => nomatch hl⟩
  | alt h ih =>
    simp only [glances, Bool.and_eq_true] at hm
    obtain ⟨hreads, hle⟩ := ih hi hm.1
    exact ⟨.alt hreads, hle⟩
  | altOther h h' ih ih' =>
    simp only [glances, Bool.and_eq_true] at hm
    obtain ⟨hreads, hle⟩ := ih' hi hm.2
    exact ⟨.altOther (ih hi hm.1).1 hreads, hle⟩
  | optional h ih =>
    obtain ⟨hreads, hle⟩ := ih hi hm
    exact ⟨.optional hreads, hle⟩
  | optionalMiss h ih =>
    exact ⟨.optionalMiss (ih hi hm).1, fun l hl => Option.some.inj hl ▸ Nat.le_of_lt hi⟩
  | look h ih => exact ⟨.look (ih hi hm).1, fun l hl => Option.some.inj hl ▸ Nat.le_of_lt hi⟩
  | lookMiss h ih => exact ⟨.lookMiss (ih hi hm).1, fun l hl => nomatch hl⟩
  | discard h ih =>
    obtain ⟨hreads, hle⟩ := ih hi hm
    exact ⟨.discard hreads, hle⟩
  | _ => cases hm

/-- A pattern that cannot get beyond a token is read alike. -/
theorem shared_of_passes {limit : Nat} (hsame : ∀ n < limit, input' n = input n)
    (hfit : Fits k sign (input j)) (hlow : i ≤ j) (hlt : j < limit)
    (hp : m.passes (decide (i = j)) k sign = false) : Shared input input' limit m i := by
  intro r h
  have hfirst : decide (i = j) = false → i < j := by
    intro hne
    exact Nat.lt_of_le_of_ne hlow (of_decide_eq_false hne)
  obtain ⟨hreads, hle⟩ :=
    h.stays hfit (fun n hn => hsame n (by omega)) hlow hfirst hp
  refine ⟨hreads, fun n hn => ?_⟩
  have := (hle n hn).1
  omega

end LineMarkup.Matcher
