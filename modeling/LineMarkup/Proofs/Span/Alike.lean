import LineMarkup.Proofs.Line.Spans
import Mathlib.Data.List.Forall2

namespace LineMarkup

namespace Span

/-- The span `b` is the span `a` with its positions moved by `f`, under an id that `P` allows. -/
structure Alike (f : Nat → Nat) (P : Nat → Nat → Prop) (a b : Span) : Prop where
  id : P a.id b.id
  kind : b.kind = a.kind
  first : b.first = f a.first
  last : b.last = a.last.map f
  implicit : b.implicit = a.implicit

variable {f : Nat → Nat} {P : Nat → Nat → Prop}

theorem Alike.isOpen (h : Alike f P a b) : b.isOpen = a.isOpen := by
  rw [Span.isOpen, h.last, Option.isNone_map, Span.isOpen]

theorem alike_kinds (h : List.Forall₂ (Alike f P) as bs) : bs.map Span.kind = as.map Span.kind := by
  induction h with
  | nil => rfl
  | cons hs _ ih => rw [List.map_cons, List.map_cons, hs.kind, ih]

theorem alike_unclosed (h : List.Forall₂ (Alike f P) as bs) :
    List.Forall₂ (Alike f P) (unclosed as) (unclosed bs) := by
  induction h with
  | nil => exact .nil
  | @cons a b _ _ hs _ ih =>
    simp only [unclosed, List.filter_cons, hs.isOpen]
    split
    · exact .cons hs ih
    · exact ih

/-- Under the same ids, to be alike is to be moved. -/
theorem alike_shift (start : Nat) (delta : Int) :
    List.Forall₂ (Alike (shiftPosition start delta) Eq) as bs ↔ bs = shift as start delta := by
  constructor
  · intro h
    induction h with
    | nil => rfl
    | @cons a b _ _ hs _ ih =>
      obtain ⟨hid, hkind, hfirst, hlast, himplicit⟩ := hs
      cases b
      simp only at hid hkind hfirst hlast himplicit
      rw [ih, ← hid, hkind, hfirst, hlast, himplicit]
      rfl
  · rintro rfl
    exact List.forall₂_map_right_iff.mpr
      (List.forall₂_same.mpr (fun span _ => ⟨rfl, rfl, rfl, rfl, rfl⟩))

namespace Record

/-- A line at another place, with its spans under other ids. -/
structure Alike (f : Nat → Nat) (P : Nat → Nat → Prop) (r r' : Record) : Prop where
  spans : List.Forall₂ (Span.Alike f P) r.spans r'.spans
  base : ∀ offset, r'.base + offset = f (r.base + offset)
  next : ∀ count, P (r.nextId + count) (r'.nextId + count)

theorem lastOf_eq (r : Record) (frame : Frame) (stop : Nat) :
    r.lastOf frame stop = r.base + max (stop - 1) frame.start := by
  unfold lastOf
  omega

theorem closeInnermost_alike (h : List.Forall₂ (Span.Alike f P) as bs) (kind : Construct)
    (last : Nat) (implicit : Bool) :
    List.Forall₂ (Span.Alike f P) (closeInnermost kind last implicit as)
      (closeInnermost kind (f last) implicit bs) := by
  induction h with
  | nil => exact .nil
  | cons hs h ih =>
    simp only [closeInnermost, hs.isOpen, hs.kind]
    split
    · split
      · exact .cons ⟨hs.id, rfl, hs.first, rfl, rfl⟩ h
      · exact .cons hs h
    · exact .cons hs ih

namespace Alike

theorem lastOf (h : Alike f P r r') (frame : Frame) (stop : Nat) :
    r'.lastOf frame stop = f (r.lastOf frame stop) := by
  rw [lastOf_eq, lastOf_eq]
  exact h.base _

theorem add (h : Alike f P r r') (frame : Frame) (last : Option Nat) (implicit : Bool) :
    Alike f P (r.add frame last implicit) (r'.add frame (last.map f) implicit) := by
  refine ⟨.cons ⟨h.next 0, rfl, h.base _, rfl, rfl⟩ h.spans, h.base, fun count => ?_⟩
  have := h.next (1 + count)
  rwa [← Nat.add_assoc, ← Nat.add_assoc] at this

theorem see (h : Alike f P r r') (e : Event) : Alike f P (r.see e) (r'.see e) := by
  cases e with
  | push frame stop => exact h.add frame none false
  | pop frame stop implicit =>
    simp only [Record.see, h.lastOf]
    exact ⟨closeInnermost_alike h.spans _ _ _, h.base, h.next⟩
  | instant frame stop =>
    simp only [Record.see, h.lastOf]
    split
    · exact h.add frame (some _) true
    · exact h
  | loose => exact h

theorem seeAll (h : Alike f P r r') (events : List Event) :
    Alike f P (r.seeAll events) (r'.seeAll events) := by
  induction events generalizing r r' with
  | nil => exact h
  | cons e events ih => exact ih (h.see e)

end Alike

end Record

end Span

namespace Analysis

open LineMarkup.Span Record

/-- A line within the same constructs gives the same, wherever it stands. -/
theorem ofLine_alike {f : Nat → Nat} {P : Nat → Nat → Prop} {previous previous' : List Span}
    {base base' id id' : Nat}
    (h : List.Forall₂ (Span.Alike f P) (unclosed previous) (unclosed previous'))
    (hc : Carried base (unclosed previous)) (hc' : Carried base' (unclosed previous'))
    (hbase : ∀ offset, base' + offset = f (base + offset))
    (hid : ∀ count, P (id + count) (id' + count)) (text : Text) :
    ∃ analysis spans, (ofLine text previous base id).1 = analysis ∧
      (ofLine text previous' base' id').1 = { analysis with spans } ∧
      List.Forall₂ (Span.Alike f P) analysis.spans spans := by
  refine ⟨_, (ofLine text previous' base' id').1.spans, rfl, ?_, ?_⟩
  · simp only [ofLine, alike_kinds h]
  · have hstart : Record.Alike f P (start (unclosed previous) base id)
        (start (unclosed previous') base' id') :=
      ⟨List.forall₂_reverse_iff.mpr h, hbase, hid⟩
    obtain ⟨es, _, _, rfl, hs, _⟩ := ofLine_along hc text id
    obtain ⟨es', _, _, rfl, hs', _⟩ := ofLine_along hc' text id'
    rw [hs, hs', alike_kinds h]
    exact List.forall₂_reverse_iff.mpr (hstart.seeAll _).spans

end Analysis

end LineMarkup
