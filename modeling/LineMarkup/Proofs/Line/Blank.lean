import Mathlib
import LineMarkup.Proofs.Line.Restart
import LineMarkup.Proofs.Parser.Blank

namespace LineMarkup

namespace Construct

variable {kinds : List Construct}

/-- Marks of emphasis that nothing has ended yet. Between them is nothing but what ends with a
line, such as a heading. -/
def unterminated (kinds : List Construct) : Nat :=
  (kinds.takeWhile (fun kind => kind.emphasizes || kind.endsWithLine)).countP emphasizes

theorem unterminated_dropWhile (kinds : List Construct) :
    unterminated (kinds.dropWhile endsWithLine) = unterminated kinds := by
  induction kinds with
  | nil => rfl
  | cons kind rest ih =>
    cases he : kind.endsWithLine with
    | false => rw [List.dropWhile_cons_of_neg (by simp [he])]
    | true =>
      have hk : kind.emphasizes = false := by
        revert he
        cases kind <;> decide
      rw [List.dropWhile_cons_of_pos he, ih]
      simp [unterminated, he, hk]

/-- Without what ends with a line, emphasis is innermost if there is any. -/
theorem unterminated_pos (h : ∀ kind ∈ kinds.head?, kind.endsWithLine = false) :
    0 < unterminated kinds ↔ ∃ kind ∈ kinds.head?, kind.emphasizes = true := by
  cases kinds with
  | nil => simp [unterminated]
  | cons kind rest =>
    have he := h kind rfl
    cases hk : kind.emphasizes <;> simp [unterminated, hk, he]

/-- After a blank line emphasis is innermost if there was some around emphasis. -/
theorem afterBlank_head (h : ∀ kind ∈ kinds.head?, kind.endsWithLine = false) :
    (∀ kind ∈ (afterBlank kinds).head?, kind ∉ [emphasis, strong, heading]) ↔
      unterminated kinds ≤ 1 := by
  have hmarkup (left : List Construct) (hl : ∀ kind ∈ left.head?, kind.endsWithLine = false) :
      (∀ kind ∈ left.head?, kind ∉ [emphasis, strong, heading]) ↔ unterminated left = 0 := by
    rw [← Nat.le_zero, ← Nat.not_lt, unterminated_pos hl]
    push Not
    refine forall₂_congr fun kind hk => ?_
    have := hl kind hk
    revert this
    cases kind <;> decide
  cases kinds with
  | nil => simp [afterBlank, unterminated]
  | cons kind rest =>
    have he := h kind rfl
    cases hk : kind.emphasizes with
    | true =>
      have hrest : ∀ kind ∈ (rest.dropWhile endsWithLine).head?, kind.endsWithLine = false := by
        intro inner hm
        have := List.head?_dropWhile_not endsWithLine rest
        rw [Option.mem_def.mp hm] at this
        exact this
      rw [afterBlank, if_pos hk, hmarkup _ hrest, unterminated_dropWhile]
      simp [unterminated, hk]
    | false =>
      rw [afterBlank, if_neg (by simp [hk]), hmarkup _ h]
      simp [unterminated, hk, he]

end Construct

namespace Parser

theorem Lasting.after (h : Lasting carried) (lines : List Text) :
    Lasting (Parse.goingOnAfter carried lines) := by
  induction lines generalizing carried with
  | nil => exact h
  | cons line rest ih => exact ih (h.next line)

end Parser

namespace Analysis

open LineMarkup.Span

/-- The constructs that a line of a text begins in, the outermost first. -/
def openBefore (text : Text) : Nat → List Construct
  | 0 => []
  | i + 1 => (((ofText text)[i]?).map unclosedKinds).getD []

theorem openBefore_eq (text : Text) {i : Nat} (hi : i ≤ text.lines.length) :
    openBefore text i = Parse.goingOnAfter [] (text.lines.take i) := by
  cases i with
  | zero => rfl
  | succ i =>
    have hfirst : Carried 0 (unclosed []) := .nil 0
    have hkinds := getElem_unclosedKinds hfirst 0 text.lines i
    rw [List.getElem?_eq_getElem hi] at hkinds
    rw [openBefore, ofText, hkinds]
    rfl

/-- A blank line leaves the constructs that it begins in as they are, if the innermost of them is
not emphasis. Otherwise it ends this one, and what ends with a line around it. So no emphasis is
innermost after it, and no heading, if not more than one mark of emphasis was unterminated. -/
theorem unclosedKinds_blank (text : Text) (i : Nat) (line : Text) (hi : text.lines[i]? = some line)
    (hb : Text.IsBlankLine line) :
    ∃ analysis, (ofText text)[i]? = some analysis ∧
      analysis.unclosedKinds.reverse = Construct.afterBlank (openBefore text i).reverse ∧
      ((∀ kind ∈ analysis.unclosedKinds.getLast?,
          kind ∉ [Construct.emphasis, .strong, .heading]) ↔
        Construct.unterminated (openBefore text i).reverse ≤ 1) := by
  have hlt : i < text.lines.length := (List.getElem?_eq_some_iff.mp hi).1
  have hbefore := openBefore_eq text (Nat.le_of_lt hlt)
  have hnone : Parser.Lasting [] := ⟨by simp, by simp⟩
  have hlasting := hnone.after (text.lines.take i)
  rw [← hbefore] at hlasting
  have hfirst : Carried 0 (unclosed []) := .nil 0
  have hkinds := getElem_unclosedKinds hfirst 0 text.lines i
  rw [hi, Option.map_some, Option.map_eq_some_iff] at hkinds
  obtain ⟨analysis, ha, hkinds⟩ := hkinds
  have hgoing : analysis.unclosedKinds = (Parse.ofText line (openBefore text i)).goingOn := by
    rw [hkinds, List.take_add_one, hi, Parse.goingOnAfter, List.foldl_append, hbefore]
    rfl
  have hafter : analysis.unclosedKinds.reverse =
      Construct.afterBlank (openBefore text i).reverse := by
    rw [hgoing]
    exact Parse.goingOn_blank hlasting hb
  refine ⟨analysis, ha, hafter, ?_⟩
  rw [← List.head?_reverse, hafter]
  exact Construct.afterBlank_head (by simpa using hlasting.ends)

/-- A blank line ends emphasis in a heading, and the heading with it. -/
theorem blank_ends_heading :
    let text : Text := "= a _b\n\t\nc".toList
    text.lines[1]? = some "\t".toList ∧ Text.IsBlankLine "\t".toList ∧
      ∃ analysis, (ofText text)[1]? = some analysis ∧
        analysis.unclosedKinds.reverse = Construct.afterBlank (openBefore text 1).reverse ∧
        ((∀ kind ∈ analysis.unclosedKinds.getLast?,
            kind ∉ [Construct.emphasis, .strong, .heading]) ↔
          Construct.unterminated (openBefore text 1).reverse ≤ 1) := by
  intro text
  have hi : text.lines[1]? = some "\t".toList := by decide
  have hb : Text.IsBlankLine "\t".toList := by simp [Text.IsBlankLine, Text.isHorizontalSpace]
  exact ⟨hi, hb, unclosedKinds_blank text 1 _ hi hb⟩

/-- Of two marks of emphasis, one within the other, a blank line ends the inner one only. -/
theorem blank_leaves_emphasis :
    let text : Text := "_*a\n".toList
    text.lines[1]? = some [] ∧ Text.IsBlankLine [] ∧
      ∃ analysis, (ofText text)[1]? = some analysis ∧
        analysis.unclosedKinds.getLast? = some .emphasis := by
  intro text
  have hkinds : ((ofText text)[1]?).map unclosedKinds = some [.emphasis] := by cbv
  obtain ⟨analysis, ha, hk⟩ := Option.map_eq_some_iff.mp hkinds
  exact ⟨by decide, by simp [Text.IsBlankLine], analysis, ha, by rw [hk]; rfl⟩

end Analysis

end LineMarkup
