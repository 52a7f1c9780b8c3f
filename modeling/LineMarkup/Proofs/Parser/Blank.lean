import Mathlib.Data.List.TakeWhile
import LineMarkup.Proofs.Parser.Restart

namespace LineMarkup

open Token (Face faces)
open Token.Stream
open Matcher (Settles)

namespace Text

/-- The space separators and the tab, one by one. -/
def horizontalSpaces : List Nat :=
  [0x9, 0x20, 0xA0, 0x1680, 0x2000, 0x2001, 0x2002, 0x2003, 0x2004, 0x2005, 0x2006, 0x2007, 0x2008,
    0x2009, 0x200A, 0x202F, 0x205F, 0x3000]

theorem mem_horizontalSpaces {c : Char} (h : isHorizontalSpace c = true) :
    c.toNat ∈ horizontalSpaces := by
  simp only [isHorizontalSpace, Bool.or_eq_true, decide_eq_true_eq, Bool.and_eq_true] at h
  rcases h with ((((((rfl | rfl) | rfl) | rfl) | ⟨hlow, hhigh⟩) | rfl) | rfl) | rfl
  case inl.inl.inl.inr =>
    have hlow : 0x2000 ≤ c.toNat := hlow
    have hhigh : c.toNat ≤ 0x200A := hhigh
    simp only [horizontalSpaces, List.mem_cons, List.not_mem_nil, or_false]
    omega
  all_goals decide

/-- A blank is in no other class. -/
theorem horizontalSpace_apart {c : Char} (h : isHorizontalSpace c = true) :
    (isDigit c || isBaseLetter c || isSign c) = false ∧ isLetterOrNumber c = false ∧ c ≠ '\\' ∧
      isLineEnd c = false := by
  have hall : ∀ n ∈ horizontalSpaces,
      (isDigit (.ofNat n) || isBaseLetter (.ofNat n) || isSign (.ofNat n)) = false ∧
        isLetterOrNumber (.ofNat n) = false ∧ Char.ofNat n ≠ '\\' ∧
        isLineEnd (.ofNat n) = false := by
    decide +kernel
  have := hall _ (mem_horizontalSpaces h)
  rwa [Char.ofNat_toNat] at this

def IsBlankLine (line : Text) : Prop :=
  ∀ c ∈ line, isHorizontalSpace c = true

theorem IsBlankLine.no_lineEnd {line : Text} (h : IsBlankLine line) :
    ∀ c ∈ line, isLineEnd c = false :=
  fun c hc => (horizontalSpace_apart (h c hc)).2.2.2

end Text

namespace Token

/-- Blanks are one lexeme, up to the first character that is none. -/
theorem lexeme_blanks {c : Char} {blanks rest : Text} (h : Text.IsBlankLine (c :: blanks))
    (hr : ∀ d, rest.head? = some d → Text.isHorizontalSpace d = false) :
    lexeme c (blanks ++ rest) = (.whitespace, blanks.length) := by
  obtain ⟨hc, hblanks⟩ := List.forall_mem_cons.mp h
  obtain ⟨hnumber, hletter, hescape, _⟩ := Text.horizontalSpace_apart hc
  have hrest : rest.takeWhile Text.isHorizontalSpace = [] := by
    cases rest with
    | nil => rfl
    | cons d rest => rw [List.takeWhile_cons, hr d rfl]; rfl
  have hrun : Number.run Text.isHorizontalSpace (blanks ++ rest) = blanks.length := by
    rw [Number.run, List.takeWhile_append_of_pos hblanks, hrest, List.append_nil]
  simp [lexeme, hnumber, hletter, hescape, hc, hrun]

theorem lexeme_blank {c : Char} {rest : Text} (h : Text.IsBlankLine (c :: rest)) :
    lexeme c rest = (.whitespace, rest.length) := by
  have hall : lexeme c (rest ++ []) = (.whitespace, rest.length) := lexeme_blanks h nofun
  rwa [List.append_nil] at hall

/-- A blank line is one token, or none. -/
theorem scan_blank {line : Text} (h : Text.IsBlankLine line) :
    scan 0 line = [] ∨ scan 0 line = [{ kind := .whitespace, start := 0, text := line }] := by
  cases line with
  | nil => exact .inl (by rw [scan])
  | cons c rest =>
    right
    rw [scan, lexeme_blank h]
    simp [scan]

theorem faces_blank {line : Text} (h : Text.IsBlankLine line) :
    ∀ x ∈ faces line, x.1 = .whitespace := by
  rcases scan_blank h with hs | hs <;> simp [faces, hs, face]

end Token

namespace Rule

variable {inside : Construct} {sign : Rule} {fs : List Face}

/-- Blanks start neither a heading nor a list entry. -/
theorem signs_miss_blanks (hm : sign ∈ signs inside) (hf : ∀ x ∈ fs, x.1 = TokenKind.whitespace) :
    Settles (start false sign.pattern).run (.feed :: fs) none := by
  obtain ⟨hinline, hplain, htakes⟩ := signs_take inside sign hm
  obtain ⟨k, hblanks⟩ := blanks_settle fs
  have hline := Matcher.lineStart_settles false .feed fs
  rw [if_pos rfl] at hline
  have hrest : Settles sign.pattern.run (fs.drop k) none := by
    cases hd : fs.drop k with
    | nil => exact Matcher.takes_settles hinline hplain htakes
    | cons x rest =>
      have hx := hf x (List.mem_of_mem_drop (hd ▸ List.mem_cons_self))
      have hall (c : Option Char) :
          (signs inside).all (fun r => !r.pattern.opens .whitespace c) = true := by
        cases inside <;> rfl
      have hopens := List.all_eq_true.mp (hall x.2.head?) sign hm
      exact Matcher.opens_settles hinline (by simpa [hx] using hopens) rest
  exact start_settles hline hblanks (by rwa [Nat.add_comm 1 k, List.drop_succ_cons])

end Rule

namespace Construct

/-- Marks of emphasis stand around it. -/
def emphasizes : Construct → Bool
  | .emphasis | .strong => true
  | _ => false

/-- What is open after a blank line within these constructs, the innermost first. -/
def afterBlank : List Construct → List Construct
  | [] => []
  | kind :: rest => if kind.emphasizes then rest.dropWhile endsWithLine else kind :: rest

end Construct

namespace Parser

variable {p : Parser} {fs : List Face} {x : Face} {line : Text} {carried : List Construct}

theorem breaksOff_blank (h : Text.IsBlankLine line)
    (hk : (ofText line carried).top.kind.emphasizes = true) :
    (ofText line carried).breaksOff = true := by
  have hkind : (ofText line carried).top.kind = .emphasis ∨
      (ofText line carried).top.kind = .strong := by
    revert hk
    cases (ofText line carried).top.kind <;> decide
  have hrun : (Rule.paragraphBreak.pattern.run (Token.Stream.ofText line)).1 = true := by
    rcases Token.scan_blank h with hs | hs <;> rw [Token.Stream.ofText, hs] <;> rfl
  have hstream : (ofText line carried).stream = Token.Stream.ofText line := rfl
  simp [breaksOff, hkind, hstream, hrun]

theorem breaksOff_plain (hk : p.top.kind.emphasizes = false) : p.breaksOff = false := by
  have : (decide (p.top.kind = .emphasis) || decide (p.top.kind = .strong)) = false := by
    revert hk
    cases p.top.kind <;> decide
  rw [breaksOff, this, Bool.false_and]

theorem beginsEntry_blank (h : Text.IsBlankLine line) :
    (ofText line carried).beginsEntry = false := by
  refine List.any_eq_false.mpr (fun sign hm => ?_)
  have hs := Rule.signs_miss_blanks hm (Token.faces_blank h)
  have hrun := (hs.outcome [] _ edge_nil (ofText_at line carried).shows).1
  exact Bool.not_eq_true _ ▸ hrun

/-- Within a line a blank is loose. -/
theorem At.blank_step (h : At (x :: fs) p) (hx : x.1 = .whitespace)
    (hl : p.top.kind.lapses = false) (he : p.top.kind.endsWithLine = false)
    (hstill : p.atContentStart = false) :
    At fs p.step ∧ p.step.kinds = p.kinds ∧ p.step.atContentStart = false := by
  have hfeed : x ≠ .feed := by
    rintro rfl
    cases hx
  rw [← List.append_nil (x :: fs)] at h
  obtain ⟨hstep, htrying⟩ := h.trying edge_nil (amid_of_lasts he _)
  have hmiss : ∀ rule ∈ Rule.within p.top.kind p.atContentStart,
      rule.pattern.sparesWords = true ∧ Settles rule.pattern.run (x :: fs) none := by
    intro rule hm
    rw [hstill, Rule.within_split] at hm
    rcases List.mem_append.mp hm with hm | hm
    · have hr := Rule.others_regular p.top.kind rule hm
      simp only [Rule.regular, Bool.and_eq_true] at hr
      refine ⟨hr.1.1.1, ?_⟩
      rcases Rule.others_inline p.top.kind rule hm with hi | rfl
      · exact Rule.others_miss_blank hl hm hi hx fs
      · exact Rule.break_settles_inner hfeed fs
    · obtain ⟨sign, hsign, rfl⟩ := List.mem_map.mp hm
      exact ⟨(Rule.signs_regular p.top.kind false sign hsign).1,
        Rule.start_settles_never hfeed fs⟩
  obtain ⟨p', htry, hat', hstack, hagain⟩ := htrying.tryRules edge_nil hmiss
  have hloose : p.step = p'.takeLoose p.top := by
    rw [hstep, attempt, htry]
    rfl
  have hkinds : p'.kinds = p.kinds := by rw [kinds, kinds, hstack, trying_stack]
  have hagain' : p'.atContentStart = false := hagain.trans (trying_still (calm_of_still hstill))
  rw [List.append_nil] at hat'
  exact ⟨hloose ▸ hat'.takeLoose p.top, hloose ▸ hkinds, hloose ▸ hagain'⟩

/-- Blanks to the end of a line leave everything open. -/
theorem At.blank_rounds (h : At fs p) (hf : ∀ x ∈ fs, x.1 = .whitespace)
    (hl : p.top.kind.lapses = false) (he : p.top.kind.endsWithLine = false)
    (hstill : p.atContentStart = false) :
    ∃ k, Shows [] (Parser.step^[k] p).stream ∧ (Parser.step^[k] p).kinds = p.kinds := by
  induction fs generalizing p with
  | nil => exact ⟨0, h.shows, rfl⟩
  | cons x fs ih =>
    obtain ⟨hx, hrest⟩ := List.forall_mem_cons.mp hf
    obtain ⟨hat, hkinds, hagain⟩ := h.blank_step hx hl he hstill
    have htop : p.step.top.kind = p.top.kind := by rw [top_kind, top_kind, hkinds]
    obtain ⟨k, hend, hsame⟩ := ih hat hrest (htop ▸ hl) (htop ▸ he) hagain
    exact ⟨k + 1, hend, hsame.trans hkinds⟩

/-- A blank line comes to its end with the same constructs, but for emphasis that it breaks off. -/
theorem blank_rounds (hc : Lasting carried) (h : Text.IsBlankLine line) :
    ∃ k, Shows [] (Parser.step^[k] (ofText line carried)).stream ∧
      (Parser.step^[k] (ofText line carried)).kinds =
        if (ofText line carried).top.kind.emphasizes then (ofText line carried).pop.kinds
        else (ofText line carried).kinds := by
  obtain ⟨hlapses, hends⟩ := hc.top line
  cases hk : (ofText line carried).top.kind.emphasizes with
  | true =>
    obtain ⟨hkind, hok⟩ := breaksOff_true h.no_lineEnd (breaksOff_blank h hk)
    obtain ⟨hat, hkinds, _⟩ := break_step (ofText_at line carried) edge_nil (calm_of_still rfl)
      hkind (fun s hs => hok [] s edge_nil hs)
    exact ⟨1, hat.shows, hkinds⟩
  | false =>
    obtain ⟨hat, hkinds, hstill⟩ := first_step_loose h.no_lineEnd (breaksOff_plain hk) hlapses
      hends (beginsEntry_blank h)
    have htop : (ofText line carried).step.top.kind = (ofText line carried).top.kind := by
      rw [top_kind, top_kind, hkinds]
    rw [List.append_nil] at hat
    obtain ⟨k, hend, hsame⟩ := hat.blank_rounds (Token.faces_blank h) (htop ▸ hlapses)
      (htop ▸ hends) hstill
    exact ⟨k + 1, hend, hsame.trans hkinds⟩

end Parser

namespace Parse

variable {line : Text} {carried : List Construct}

theorem dropWhile_root (kinds : List Construct) :
    (kinds ++ [Construct.content]).dropWhile Construct.endsWithLine =
      kinds.dropWhile Construct.endsWithLine ++ [.content] := by
  rw [List.dropWhile_append]
  split
  · rename_i hempty
    rw [List.isEmpty_iff.mp hempty]
    rfl
  · rfl

/-- A blank line ends the innermost construct if it is emphasis, and then what ends with a line. -/
theorem goingOn_blank (hc : Parser.Lasting carried) (h : Text.IsBlankLine line) :
    (ofText line carried).goingOn.reverse = Construct.afterBlank carried.reverse := by
  have hstart : (Parser.ofText line carried).kinds = carried.reverse ++ [.content] := by
    simp [Parser.kinds, Parser.ofText, Frame.root, Frame.carriedOver, Function.comp_def]
  have hends := (hc.top line).2
  rw [Parser.top_kind, hstart] at hends
  obtain ⟨k, hend, hkinds⟩ := Parser.blank_rounds hc h
  rw [Parser.pop_kinds, Parser.top_kind, hstart] at hkinds
  -- What is left open at the end of the line are the constructs of its last round.
  have hleft : (ofText line carried).goingOn.reverse ++ [.content] =
      (Parser.step^[k] (Parser.ofText line carried)).kinds.dropWhile Construct.endsWithLine := by
    have hfinal := congrArg (List.map Frame.kind) (Parser.final_stack hc hend)
    have hunclosed := kinds_dropWhile line carried
    rw [hfinal, goingOn_kinds] at hunclosed
    exact hunclosed.symm
  have hsame : (ofText line carried).goingOn.reverse ++ [.content] =
      Construct.afterBlank carried.reverse ++ [.content] := by
    rw [hleft, hkinds]
    clear hleft hstart hkinds
    generalize carried.reverse = kinds at hends ⊢
    cases kinds with
    | nil => rfl
    | cons kind rest =>
      have hends : kind.endsWithLine = false := hends
      cases hk : kind.emphasizes with
      | true => simpa [hk, Construct.afterBlank] using dropWhile_root rest
      | false => simp [hk, hends, Construct.afterBlank]
  exact List.append_cancel_right hsame

end Parse

end LineMarkup
