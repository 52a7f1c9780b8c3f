import Mathlib.Data.List.TakeWhile
import Mathlib.Order.Monotone.Basic
import LineMarkup.Proofs.Bidi.Mark

namespace LineMarkup

namespace Text

variable {c d : Char} {text rest : Text} {pos : Nat}

/-- The UTF-8 form. -/
def bytes (text : Text) : List UInt8 :=
  text.flatMap String.utf8EncodeChar

theorem getElem_bytes_cons (h : pos < c.utf8Size) :
    (bytes (c :: rest))[pos]? = (String.utf8EncodeChar c)[pos]? := by
  rw [bytes, List.flatMap_cons, List.getElem?_append_left]
  rwa [String.length_utf8EncodeChar]

theorem getElem_bytes_cons_add (c : Char) (rest : Text) (pos : Nat) :
    (bytes (c :: rest))[c.utf8Size + pos]? = (bytes rest)[pos]? := by
  rw [bytes, List.flatMap_cons, List.getElem?_append_right] <;>
    rw [String.length_utf8EncodeChar]
  · rw [Nat.add_sub_cancel_left, bytes]
  · exact Nat.le_add_right ..

theorem HasAt.cons (d : Char) (h : HasAt text c pos) : HasAt (d :: text) c (d.utf8Size + pos) := by
  obtain ⟨before, after, rfl, rfl⟩ := h
  exact ⟨d :: before, after, rfl, rfl⟩

end Text

namespace Bidi

open Text (Boundary HasAt)

/-- A line with marks put in, from position `pos` of the line on. Each mark stands before the
character at its position. -/
inductive Woven : Nat → Text → List Mark → Text → Prop
  | done : Woven pos [] [] []
  | mark {mark : Mark} {marks : List Mark} (h : Woven mark.pos text marks display) :
      Woven mark.pos text (mark :: marks) (mark.char :: display)
  | char {pos : Nat} {c : Char} {marks : List Mark}
      (later : ∀ m ∈ marks, pos + c.utf8Size ≤ m.pos)
      (h : Woven (pos + c.utf8Size) text marks display) :
      Woven pos (c :: text) marks (c :: display)

variable {text display : Text} {isolates : List Isolate} {marks : List Mark} {mark : Mark}
  {injections : List Injection} {pos p q : Nat}

namespace Display

/-- A mark has an injection of its own, or adds to the first one, at the same position. -/
theorem prepend_cases (mark : Mark) (injections : List Injection) :
    prepend mark injections = { pos := mark.pos, size := mark.char.utf8Size } :: injections ∨
    ∃ next rest, injections = next :: rest ∧ next.pos = mark.pos ∧
      prepend mark injections =
        { pos := mark.pos, size := mark.char.utf8Size + next.size } :: rest := by
  cases injections with
  | nil => exact .inl rfl
  | cons next rest =>
    by_cases heq : next.pos = mark.pos
    · exact .inr ⟨next, rest, rfl, heq, by simp [prepend, heq]⟩
    · exact .inl (by simp [prepend, heq])

/-- Putting marks of one position together keeps the number of bytes. -/
theorem total_injections (pos : Nat) (marks : List Mark) :
    Injection.total ((marks.foldr prepend []).takeWhile (·.pos ≤ pos)) =
      Mark.sizeUpTo pos marks := by
  induction marks with
  | nil => rfl
  | cons mark marks ih =>
    rw [List.foldr_cons]
    rcases Nat.lt_or_ge pos mark.pos with hlt | hge
    · rw [Mark.sizeUpTo_cons_of_lt hlt]
      rcases prepend_cases mark (marks.foldr prepend []) with heq | ⟨next, rest, _, _, heq⟩ <;>
        simp [heq, hlt, Injection.total]
    · rw [Mark.sizeUpTo_cons hge, ← ih]
      rcases prepend_cases mark (marks.foldr prepend []) with heq | ⟨next, rest, hs, hpos, heq⟩
      · simp [heq, hge, Injection.total]
      · rw [heq, hs]
        simp [hpos, hge, Injection.total, Nat.add_assoc]

theorem exists_mark {injection : Injection} (h : injection ∈ marks.foldr prepend []) :
    ∃ m ∈ marks, m.pos = injection.pos := by
  induction marks with
  | nil => cases h
  | cons mark marks ih =>
    have hlater (hm : injection ∈ marks.foldr prepend []) :
        ∃ m ∈ mark :: marks, m.pos = injection.pos := by
      obtain ⟨m, hm, hpos⟩ := ih hm
      exact ⟨m, List.mem_cons_of_mem _ hm, hpos⟩
    rw [List.foldr_cons] at h
    rcases prepend_cases mark (marks.foldr prepend []) with heq | ⟨next, rest, hs, _, heq⟩ <;>
      rw [heq] at h <;> rcases List.mem_cons.mp h with rfl | h
    · exact ⟨mark, List.mem_cons_self, rfl⟩
    · exact hlater h
    · exact ⟨mark, List.mem_cons_self, rfl⟩
    · exact hlater (hs ▸ List.mem_cons_of_mem _ h)

theorem injections_sorted (h : marks.Pairwise (fun a b => a.pos ≤ b.pos)) :
    (marks.foldr prepend []).Pairwise (fun a b => a.pos ≤ b.pos) := by
  induction h with
  | nil => exact .nil
  | @cons mark marks hfirst _ ih =>
    have hle : ∀ i ∈ marks.foldr prepend [], mark.pos ≤ i.pos := by
      intro i hi
      obtain ⟨m, hm, hpos⟩ := exists_mark hi
      exact hpos ▸ hfirst m hm
    rw [List.foldr_cons]
    rcases prepend_cases mark (marks.foldr prepend []) with heq | ⟨next, rest, hs, _, heq⟩ <;>
      rw [heq]
    · exact .cons hle ih
    · rw [hs] at hle ih
      exact .cons (fun i hi => hle i (List.mem_cons_of_mem _ hi)) ih.tail

/-- What is led back to `p` or before it is what stands no later than `p` is shown. -/
theorem sourceFrom_le_iff {shift : Nat} (h : injections.Pairwise (fun a b => a.pos ≤ b.pos)) :
    sourceFrom q shift injections ≤ p ↔
      q ≤ p + shift + Injection.total (injections.takeWhile (·.pos ≤ p)) := by
  induction injections generalizing shift with
  | nil =>
    simp only [sourceFrom, List.takeWhile_nil, Injection.total]
    omega
  | cons next rest ih =>
    obtain ⟨hfirst, hrest⟩ := List.pairwise_cons.mp h
    have ih := @ih (shift + next.size) hrest
    rcases Nat.lt_or_ge p next.pos with hlt | hge
    · -- Nothing of the rest is at or before `p` either.
      have hnone : rest.takeWhile (·.pos ≤ p) = [] := by
        cases rest with
        | nil => rfl
        | cons second rest =>
          have := hfirst second List.mem_cons_self
          simp [show p < second.pos by omega]
      simp only [sourceFrom, List.takeWhile_cons_of_neg, decide_eq_true_eq, Nat.not_le.mpr hlt,
        not_false_eq_true, Injection.total, hnone] at ih ⊢
      split
      · omega
      · split <;> omega
    · simp only [sourceFrom, List.takeWhile_cons_of_pos, decide_eq_true_eq, hge,
        Injection.total] at ih ⊢
      split
      · omega
      · split <;> omega

theorem toDisplay_ofIsolates (text : Text) (isolates : List Isolate) (pos : Nat) :
    (ofIsolates text isolates).toDisplay pos =
      pos + Mark.sizeUpTo pos (Mark.ofIsolates text isolates) := by
  rw [← total_injections]
  rfl

theorem toSource_le_iff (text : Text) (isolates : List Isolate) (p q : Nat) :
    (ofIsolates text isolates).toSource q ≤ p ↔ q ≤ (ofIsolates text isolates).toDisplay p :=
  sourceFrom_le_iff (injections_sorted (Mark.ofIsolates_ascending text isolates))

theorem toDisplay_strictMono (text : Text) (isolates : List Isolate) :
    StrictMono (ofIsolates text isolates).toDisplay := by
  intro p q hlt
  have := Mark.sizeUpTo_mono (Nat.le_of_lt hlt) (Mark.ofIsolates text isolates)
  rw [toDisplay_ofIsolates, toDisplay_ofIsolates]
  omega

theorem toSource_toDisplay (text : Text) (isolates : List Isolate) (p : Nat) :
    (ofIsolates text isolates).toSource ((ofIsolates text isolates).toDisplay p) = p := by
  refine eq_of_forall_ge_iff (fun p' => ?_)
  rw [toSource_le_iff, (toDisplay_strictMono text isolates).le_iff_le]

end Display

namespace Woven

theorem here {before : List Mark} (hb : ∀ m ∈ before, m.pos = pos)
    (h : Woven pos text marks display) :
    Woven pos text (before ++ marks) (before.map Mark.char ++ display) := by
  induction before with
  | nil => exact h
  | cons mark before ih =>
    obtain ⟨rfl, hbefore⟩ := List.forall_mem_cons.mp hb
    exact .mark (ih hbefore)

theorem inject (hs : marks.Pairwise (fun a b => a.pos ≤ b.pos))
    (hm : ∀ m ∈ marks, pos ≤ m.pos ∧ Boundary text (m.pos - pos)) :
    Woven pos text marks (Display.inject pos text marks) := by
  induction text generalizing pos marks with
  | nil =>
    have hhere : ∀ m ∈ marks, m.pos = pos := by
      intro m hmem
      obtain ⟨hle, hb⟩ := hm m hmem
      have := hb.le_size
      rw [Text.size_nil] at this
      omega
    simpa [Display.inject] using here hhere .done
  | cons c rest ih =>
    have hhere : ∀ m ∈ marks.takeWhile (·.pos ≤ pos), m.pos = pos := by
      intro m hmem
      have hle : m.pos ≤ pos := by simpa using List.mem_takeWhile_imp hmem
      have := (hm m ((List.takeWhile_prefix _).mem hmem)).1
      omega
    have hlater : ∀ m ∈ marks.dropWhile (·.pos ≤ pos),
        pos + c.utf8Size ≤ m.pos ∧ Boundary rest (m.pos - (pos + c.utf8Size)) := by
      intro m hmem
      have hlt := Mark.lt_of_mem_dropWhile hs hmem
      obtain ⟨_, hb⟩ := hm m ((List.dropWhile_suffix _).mem hmem)
      obtain ⟨hle, hrest⟩ := (Text.boundary_cons.mp hb).resolve_left (by omega)
      refine ⟨by omega, ?_⟩
      rwa [Nat.sub_sub] at hrest
    have hwoven := here hhere (.char (fun m hmem => (hlater m hmem).1)
      (ih (hs.sublist (List.dropWhile_sublist _)) hlater))
    rwa [List.takeWhile_append_dropWhile] at hwoven

/-- A byte of the line stands behind the marks up to its position. -/
theorem bytes (h : Woven pos text marks display) (hlt : p < text.size) :
    display.bytes[p + Mark.sizeUpTo (pos + p) marks]? = text.bytes[p]? := by
  induction h generalizing p with
  | done => cases hlt
  | @mark text display mark marks _ ih =>
    have heq : p + Mark.sizeUpTo (mark.pos + p) (mark :: marks) =
        mark.char.utf8Size + (p + Mark.sizeUpTo (mark.pos + p) marks) := by
      rw [Mark.sizeUpTo_cons (Nat.le_add_right ..)]
      omega
    rw [heq, Text.getElem_bytes_cons_add, ih hlt]
  | @char text display pos c marks hlater _ ih =>
    rcases Nat.lt_or_ge p c.utf8Size with hin | hge
    · have hnone : Mark.sizeUpTo (pos + p) marks = 0 :=
        Mark.sizeUpTo_eq_zero hlater (Nat.add_lt_add_left hin pos)
      rw [hnone, Nat.add_zero, Text.getElem_bytes_cons hin, Text.getElem_bytes_cons hin]
    · obtain ⟨p, rfl⟩ := Nat.exists_eq_add_of_le hge
      rw [Text.size_cons] at hlt
      rw [Text.getElem_bytes_cons_add, ← ih (by omega), Nat.add_assoc, ← Nat.add_assoc pos,
        Text.getElem_bytes_cons_add]

/-- Any other byte is one of a mark. -/
theorem other (h : Woven pos text marks display) (hlt : q < display.size)
    (ho : ∀ p < text.size, p + Mark.sizeUpTo (pos + p) marks ≠ q) :
    ∃ earlier mark later first, marks = earlier ++ mark :: later ∧
      HasAt display mark.char first ∧ pos + first = mark.pos + Text.size (earlier.map Mark.char) ∧
      first ≤ q ∧ q < first + mark.char.utf8Size := by
  induction h generalizing q with
  | done => cases hlt
  | @mark text display mark marks _ ih =>
    rcases Nat.lt_or_ge q mark.char.utf8Size with hin | hge
    · exact ⟨[], mark, marks, 0, rfl, ⟨[], display, rfl, rfl⟩, rfl, Nat.zero_le _, by omega⟩
    · obtain ⟨q, rfl⟩ := Nat.exists_eq_add_of_le hge
      rw [Text.size_cons] at hlt
      obtain ⟨earlier, m, later, first, rfl, hat, hfirst, hlow, hhigh⟩ := ih (q := q) (by omega)
        (fun p hp heq => ho p hp (by rw [Mark.sizeUpTo_cons (Nat.le_add_right ..)]; omega))
      refine ⟨mark :: earlier, m, later, _, rfl, hat.cons mark.char, ?_, by omega, by omega⟩
      rw [List.map_cons, Text.size_cons]
      omega
  | @char text display pos c marks hlater _ ih =>
    have hnone {p : Nat} (hp : p < c.utf8Size) : Mark.sizeUpTo (pos + p) marks = 0 :=
      Mark.sizeUpTo_eq_zero hlater (Nat.add_lt_add_left hp pos)
    rcases Nat.lt_or_ge q c.utf8Size with hin | hge
    · refine absurd ?_ (ho q ?_)
      · rw [hnone hin, Nat.add_zero]
      · rw [Text.size_cons]
        omega
    · obtain ⟨q, rfl⟩ := Nat.exists_eq_add_of_le hge
      rw [Text.size_cons] at hlt ho
      obtain ⟨earlier, m, later, first, rfl, hat, hfirst, hlow, hhigh⟩ := ih (q := q) (by omega)
        (fun p hp heq => ho (c.utf8Size + p) (by omega) (by rw [← Nat.add_assoc]; omega))
      exact ⟨earlier, m, later, _, rfl, hat.cons c, by omega, by omega, by omega⟩

end Woven

namespace Display

theorem woven (text : Text) (isolates : List Isolate) :
    Woven 0 text (Mark.ofIsolates text isolates) (ofIsolates text isolates).text :=
  .inject (Mark.ofIsolates_ascending text isolates)
    (fun _ hm => ⟨Nat.zero_le _, Mark.boundary_of_mem hm⟩)

/-- A position on a mark leads to the position of the mark in the line. -/
theorem toSource_on_mark {earlier later : List Mark}
    (hm : Mark.ofIsolates text isolates = earlier ++ mark :: later)
    (hlow : mark.pos + Text.size (earlier.map Mark.char) ≤ q)
    (hhigh : q < mark.pos + Text.size (earlier.map Mark.char) + mark.char.utf8Size) :
    (ofIsolates text isolates).toSource q = mark.pos := by
  have hs := Mark.ofIsolates_ascending text isolates
  rw [hm] at hs
  refine eq_of_forall_ge_iff (fun p => ?_)
  rw [toSource_le_iff, toDisplay_ofIsolates, hm]
  rcases Nat.lt_or_ge p mark.pos with hlt | hge
  · have : Mark.sizeUpTo p (earlier ++ mark :: later) ≤ Text.size (earlier.map Mark.char) :=
      Mark.sizeUpTo_le hlt
    omega
  · have hearlier : ∀ m ∈ earlier, m.pos ≤ p := fun m hmem =>
      Nat.le_trans ((List.pairwise_append.mp hs).2.2 m hmem mark List.mem_cons_self) hge
    rw [Mark.sizeUpTo_append hearlier, Mark.sizeUpTo_cons hge]
    omega

/-- A display text is the line and the marks, each byte at its place. The positions of the two
texts form a Galois connection, and going to the display text and back leads to where one was. Each
byte of the line is found where its position is shown. Any other byte belongs to one of the marks,
which stands before the character at its position, after the marks that come before it. -/
theorem ofIsolates_faithful (text : Text) (isolates : List Isolate) :
    let marks := Mark.ofIsolates text isolates
    let display := ofIsolates text isolates
    (∀ p q, display.toSource q ≤ p ↔ q ≤ display.toDisplay p) ∧
    (∀ p, display.toSource (display.toDisplay p) = p) ∧
    (∀ p < text.size, display.text.bytes[display.toDisplay p]? = text.bytes[p]?) ∧
    (∀ q < display.text.size, (∀ p < text.size, display.toDisplay p ≠ q) →
      ∃ earlier mark later first, marks = earlier ++ mark :: later ∧
        HasAt display.text mark.char first ∧ first ≤ q ∧ q < first + mark.char.utf8Size ∧
        first = mark.pos + Text.size (earlier.map Mark.char) ∧ display.toSource q = mark.pos) := by
  intro marks display
  have hwoven := woven text isolates
  refine ⟨toSource_le_iff text isolates, toSource_toDisplay text isolates, fun p hp => ?_,
    fun q hq hother => ?_⟩
  · rw [toDisplay_ofIsolates, ← hwoven.bytes hp, Nat.zero_add]
  · obtain ⟨earlier, mark, later, first, hmarks, hat, hfirst, hlow, hhigh⟩ := hwoven.other hq
      (fun p hp heq => hother p hp (by rw [toDisplay_ofIsolates, ← heq, Nat.zero_add]))
    rw [Nat.zero_add] at hfirst
    exact ⟨earlier, mark, later, first, hmarks, hat, hlow, hhigh, hfirst,
      toSource_on_mark hmarks (hfirst ▸ hlow) (hfirst ▸ hhigh)⟩

example :
    (ofIsolates "#f[ab] c".toList [⟨.leftToRight, 0, 5⟩, ⟨.auto, 3, 4⟩]).text =
      "\u2066#f[\u2068ab\u2069]\u2069 c".toList := by
  cbv

end Display

end Bidi

end LineMarkup
