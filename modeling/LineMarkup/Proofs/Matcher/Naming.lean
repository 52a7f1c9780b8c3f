import LineMarkup.Proofs.Matcher.Keyword
import LineMarkup.Proofs.Matcher.Passing

namespace LineMarkup.Matcher

/-- Nowhere does the pattern ask for this token. -/
def spurns (token : Token) : Matcher → Bool
  | .kind k => token.kind ≠ k
  | .symbol c => !token.isSymbol c
  | .symbols text => text.all (!token.isSymbol ·)
  | .keyword _ => token.kind ≠ .word
  | .test _ => true
  | .seq a b | .alt a b => a.spurns token && b.spurns token
  | .optional body | .many1 body | .look body | .discard body => body.spurns token

/-- The tokens from `i` up to before `j` are words, and those up to before `n` underscores. -/
structure Named (input : Nat → Token) (i j n : Nat) : Prop where
  lt : i < j
  le : j ≤ n
  words : ∀ l, i ≤ l → l < j → (input l).kind = .word
  unders : ∀ l, j ≤ l → l < n → (input l).isSymbol '_' = true

variable {input input' : Nat → Token} {m a b body : Matcher} {text : Text} {i j k n limit : Nat}
  {r : Option Nat} {c : Char}

theorem Spells.spurned (h : Spells input text i)
    (hs : (Matcher.symbols text).spurns (input j) = true) (hi : i ≤ j) : i + text.length ≤ j := by
  refine Nat.le_of_not_lt fun hlt => ?_
  have hlt : j - i < text.length := by omega
  have hj := h (j - i) _ (List.getElem?_eq_getElem hlt)
  have hnot := List.all_eq_true.mp hs _ (List.getElem_mem hlt)
  rw [Nat.add_sub_cancel' hi] at hj
  rw [hj] at hnot
  cases hnot

/-- Where two inputs begin to differ at a token that the pattern asks for in neither, it is read
alike, and not beyond the token. -/
theorem Peg.spurned (hsame : ∀ l < j, input' l = input l) (h : Peg input m i r) (hi : i ≤ j)
    (hold : m.spurns (input j) = true) (hnew : m.spurns (input' j) = true) :
    Peg input' m i r ∧ ∀ l, r = some l → l ≤ j := by
  induction h with
  | @kind i kind hk =>
    have hlt : i < j := by
      refine Nat.lt_of_le_of_ne hi ?_
      rintro rfl
      exact of_decide_eq_true hold hk
    exact ⟨.kind (hsame i hlt ▸ hk), fun l hl => Option.some.inj hl ▸ hlt⟩
  | @kindMiss i kind hk =>
    refine ⟨.kindMiss ?_, fun l hl => nomatch hl⟩
    rcases Nat.eq_or_lt_of_le hi with rfl | hlt
    · exact of_decide_eq_true hnew
    · rwa [hsame i hlt]
  | @symbol i c hc =>
    have hlt : i < j := by
      refine Nat.lt_of_le_of_ne hi ?_
      rintro rfl
      simp [spurns, hc] at hold
    exact ⟨.symbol (hsame i hlt ▸ hc), fun l hl => Option.some.inj hl ▸ hlt⟩
  | @symbolMiss i c hc =>
    refine ⟨.symbolMiss ?_, fun l hl => nomatch hl⟩
    rcases Nat.eq_or_lt_of_le hi with rfl | hlt
    · simpa [spurns] using hnew
    · rwa [hsame i hlt]
  | @symbols text i hs =>
    have hle := hs.spurned hold hi
    exact ⟨.symbols (hs.congr fun l hl => hsame l (by omega)),
      fun l hl => Option.some.inj hl ▸ hle⟩
  | @symbolsMiss text i hs =>
    refine ⟨.symbolsMiss fun hs' => hs ?_, fun l hl => nomatch hl⟩
    have hle := hs'.spurned hnew hi
    exact hs'.congr fun l hl => (hsame l (by omega)).symm
  | keyword h hw ih =>
    obtain ⟨hreads, hle⟩ := ih hi hold hnew
    have hj := hle _ rfl
    refine ⟨.keyword hreads ?_, fun l hl => Option.some.inj hl ▸ hj⟩
    rwa [textBetween_congr fun l hl => hsame l (by omega)]
  | keywordOther h hw ih =>
    obtain ⟨hreads, hle⟩ := ih hi hold hnew
    have hj := hle _ rfl
    refine ⟨.keywordOther hreads ?_, fun l hl => nomatch hl⟩
    rwa [textBetween_congr fun l hl => hsame l (by omega)]
  | keywordMiss h ih => exact ⟨.keywordMiss (ih hi hold hnew).1, fun l hl => nomatch hl⟩
  | test => exact ⟨.test, fun l hl => Option.some.inj hl ▸ hi⟩
  | testMiss => exact ⟨.testMiss, fun l hl => nomatch hl⟩
  | seq h h' ih ih' =>
    simp only [spurns, Bool.and_eq_true] at hold hnew
    obtain ⟨hreads, hle⟩ := ih hi hold.1 hnew.1
    obtain ⟨hreads', hle'⟩ := ih' (hle _ rfl) hold.2 hnew.2
    exact ⟨.seq hreads hreads', hle'⟩
  | seqMiss h ih =>
    simp only [spurns, Bool.and_eq_true] at hold hnew
    exact ⟨.seqMiss (ih hi hold.1 hnew.1).1, fun l hl => nomatch hl⟩
  | alt h ih =>
    simp only [spurns, Bool.and_eq_true] at hold hnew
    obtain ⟨hreads, hle⟩ := ih hi hold.1 hnew.1
    exact ⟨.alt hreads, hle⟩
  | altOther h h' ih ih' =>
    simp only [spurns, Bool.and_eq_true] at hold hnew
    obtain ⟨hreads, hle⟩ := ih' hi hold.2 hnew.2
    exact ⟨.altOther (ih hi hold.1 hnew.1).1 hreads, hle⟩
  | optional h ih =>
    obtain ⟨hreads, hle⟩ := ih hi hold hnew
    exact ⟨.optional hreads, hle⟩
  | optionalMiss h ih =>
    exact ⟨.optionalMiss (ih hi hold hnew).1, fun l hl => Option.some.inj hl ▸ hi⟩
  | many1Last h h' ih ih' =>
    obtain ⟨hreads, hle⟩ := ih hi hold hnew
    exact ⟨.many1Last hreads (ih' (hle _ rfl) hold hnew).1, hle⟩
  | many1More h h' ih ih' =>
    obtain ⟨hreads, hle⟩ := ih hi hold hnew
    obtain ⟨hreads', hle'⟩ := ih' (hle _ rfl) hold hnew
    exact ⟨.many1More hreads hreads', hle'⟩
  | many1Miss h ih => exact ⟨.many1Miss (ih hi hold hnew).1, fun l hl => nomatch hl⟩
  | look h ih => exact ⟨.look (ih hi hold hnew).1, fun l hl => Option.some.inj hl ▸ hi⟩
  | lookMiss h ih => exact ⟨.lookMiss (ih hi hold hnew).1, fun l hl => nomatch hl⟩
  | discard h ih =>
    obtain ⟨hreads, hle⟩ := ih hi hold hnew
    exact ⟨.discard hreads, hle⟩

theorem shared_of_spurned (hsame : ∀ l < j, input' l = input l) (hi : i ≤ j)
    (hold : m.spurns (input j) = true) (hnew : m.spurns (input' j) = true) :
    Shared input input' j m i :=
  fun _ h => h.spurned hsame hi hold hnew

/-- What is repeated one token at a time. -/
theorem many1_reads (hlt : i < j) (hall : ∀ l, i ≤ l → l < j → Peg input body l (some (l + 1)))
    (hend : Peg input body j none) : Peg input (.many1 body) i (some j) := by
  obtain ⟨d, rfl⟩ := Nat.exists_eq_add_of_lt hlt
  clear hlt
  induction d generalizing i with
  | zero => exact .many1Last (hall i (Nat.le_refl i) (by omega)) hend
  | succ d ih =>
    refine .many1More (hall i (Nat.le_refl i) (by omega)) ?_
    have hsum : i + (d + 1) + 1 = i + 1 + d + 1 := by omega
    rw [hsum] at hall hend ⊢
    exact ih (fun l hlow => hall l (by omega)) hend

namespace Named

theorem fullWord (h : Named input i j n) (hend : (input j).kind ≠ .word) :
    Peg input fullWord i (some j) :=
  many1_reads h.lt (fun l hlow hhigh => .kind (h.words l hlow hhigh)) (.kindMiss hend)

/-- Neither a word nor an underscore goes on with a bracket. -/
theorem ends (h : Named input i j n) (hend : (input n).isSymbol c = true) :
    (input j).kind ≠ .word := by
  rcases Nat.eq_or_lt_of_le h.le with rfl | hlt
  · rw [isSymbol_kind hend]
    decide
  · rw [isSymbol_kind (h.unders j (Nat.le_refl j) hlt)]
    decide

theorem identifier (h : Named input i j n) (hend : (input n).isSymbol c = true) (hc : c ≠ '_') :
    Peg input identifier i (some n) := by
  have hnone : Peg input (.symbol '_') n none := by
    refine .symbolMiss ?_
    rw [Bool.eq_false_iff]
    exact fun hunder => hc (isSymbol_unique hend hunder)
  refine .seq (h.fullWord (h.ends hend)) ?_
  rcases Nat.eq_or_lt_of_le h.le with rfl | hlt
  · exact .optionalMiss (.many1Miss hnone)
  · exact .optional (many1_reads hlt (fun l hlow hhigh => .symbol (h.unders l hlow hhigh)) hnone)

/-- A name with a bracket behind it is that of a function. -/
theorem functionName (h : Named input i j n) (hend : (input n).isSymbol c = true)
    (hc : c = '(' ∨ c = '[') : Peg input Rule.functionName i (some n) := by
  have hne : c ≠ '_' := by
    rcases hc with rfl | rfl <;> decide
  refine .seq (h.identifier hend hne) ?_
  rcases hc with rfl | rfl
  · exact .look (.alt (.symbol hend))
  · refine .look (.altOther (.symbolMiss ?_) (.symbol hend))
    rw [Bool.eq_false_iff]
    exact fun hround => absurd (isSymbol_unique hend hround) (by decide)

/-- Behind a word there are perhaps more words, and then perhaps underscores. -/
theorem exists_upto (hi : (input i).kind = .word) (hend : (input n).isSymbol c = true)
    (hc : c ≠ '_') (hin : i ≤ n) : ∃ j l, Named input i j l ∧ l ≤ n ∧
      (input j).kind ≠ .word ∧ (input l).isSymbol '_' = false := by
  have hword : ∃ j, i ≤ j ∧ (input j).kind ≠ .word := by
    refine ⟨n, hin, ?_⟩
    rw [isSymbol_kind hend]
    decide
  have hunder : ∃ l, Nat.find hword ≤ l ∧ (input l).isSymbol '_' = false := by
    refine ⟨n, Nat.find_min' hword ⟨hin, ?_⟩, ?_⟩
    · rw [isSymbol_kind hend]
      decide
    · rw [Bool.eq_false_iff]
      exact fun hunder => hc (isSymbol_unique hend hunder)
  obtain ⟨hlow, hnot⟩ := Nat.find_spec hword
  obtain ⟨hlow', hnot'⟩ := Nat.find_spec hunder
  refine ⟨Nat.find hword, Nat.find hunder, ⟨?_, hlow', fun l hl hlt => ?_, fun l hl hlt => ?_⟩, ?_,
    hnot, hnot'⟩
  · refine Nat.lt_of_le_of_ne hlow fun heq => ?_
    rw [← heq] at hnot
    exact hnot hi
  · by_contra hother
    exact Nat.find_min hword hlt ⟨hl, hother⟩
  · by_contra hother
    rw [Bool.not_eq_true] at hother
    exact Nat.find_min hunder hlt ⟨hl, hother⟩
  · refine Nat.find_min' hunder ⟨Nat.find_min' hword ⟨hin, ?_⟩, ?_⟩
    · rw [isSymbol_kind hend]
      decide
    · rw [Bool.eq_false_iff]
      exact fun hunder => hc (isSymbol_unique hend hunder)

/-- A name that ends in both inputs is read alike. -/
theorem shared (h : Named input' i j n) (hsame : ∀ l < n, input' l = input l)
    (hwords : (input j).kind ≠ .word ∧ (input' j).kind ≠ .word)
    (hunders : (input n).isSymbol '_' = false ∧ (input' n).isSymbol '_' = false) :
    Shared input input' n codeKeyword i ∧ Shared input input' n Matcher.identifier i := by
  have hj : ∀ l < j, input' l = input l := fun l hl => hsame l (Nat.lt_of_lt_of_le hl h.le)
  have hkeyword : Shared input input' j codeKeyword i :=
    shared_of_spurned hj (Nat.le_of_lt h.lt) (decide_eq_true hwords.1) (decide_eq_true hwords.2)
  have hfull : Shared input input' j Matcher.fullWord i :=
    shared_of_spurned hj (Nat.le_of_lt h.lt) (decide_eq_true hwords.1) (decide_eq_true hwords.2)
  refine ⟨hkeyword.mono h.le, (hfull.mono h.le).seq fun l hl => ?_⟩
  apply shared_of_spurned hsame (Nat.le_trans ((hfull _ hl).2 l rfl) h.le)
  · simp [spurns, many, hunders.1]
  · simp [spurns, many, hunders.2]

end Named

end LineMarkup.Matcher
