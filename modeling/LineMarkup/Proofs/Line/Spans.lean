import LineMarkup.Line
import LineMarkup.Proofs.Parser.Lapse
import LineMarkup.Proofs.Span.Effect

namespace LineMarkup

namespace Span

/-- Open spans that a line at `base` can be parsed within. -/
structure Carried (base : Nat) (carried : List Span) : Prop where
  opened : ∀ span ∈ carried, span.isOpen = true
  before : ∀ span ∈ carried, span.first < base
  ascending : carried.Pairwise (fun a b => a.first < b.first)
  lasting : ∀ span ∈ carried, span.kind.lapses = false

theorem Carried.nil (base : Nat) : Carried base [] := by
  refine ⟨?_, ?_, .nil, ?_⟩ <;> intro span hm <;> cases hm

namespace Record

theorem sorted_of_descending (r : Record)
    (h : r.spans.Pairwise (fun later earlier => earlier.first < later.first)) :
    r.sorted = r.spans.reverse := by
  apply List.mergeSort_of_pairwise
  refine (List.pairwise_reverse.mpr h).imp (fun hlt => ?_)
  simp [precedes, hlt]

/-- A span that is open after all events was there before, or is one of the new ones. -/
theorem seeAll_open {r : Record} {span : Span} (h : span ∈ (r.seeAll events).spans)
    (ho : span.isOpen = true) :
    span ∈ r.spans ∨ ident span ∈ births r.base r.nextId (events.filterMap Event.recorded?) := by
  have hl : span.last = none := Option.isNone_iff_eq_none.mp ho
  induction events generalizing r with
  | nil => exact .inl h
  | cons e events ih =>
    rw [← List.singleton_append, List.filterMap_append, births_append, List.mem_append]
    rcases ih (r := r.see e) h with hm | hm
    · cases e with
      | push frame stop =>
        rcases List.mem_cons.mp hm with rfl | hm
        · exact .inr (.inl List.mem_cons_self)
        · exact .inl hm
      | pop frame stop implicit =>
        refine (mem_closeInnermost hm).imp_right (fun heq => ?_)
        rw [hl] at heq
        cases heq
      | instant frame stop =>
        simp only [see] at hm
        split at hm
        · rcases List.mem_cons.mp hm with rfl | hm
          · cases hl
          · exact .inl hm
        · exact .inl hm
      | loose => exact .inl hm
    · rw [see_nextId, see_base] at hm
      refine .inr (.inr ?_)
      cases he : e.recorded? <;> simpa [he] using hm

end Record

end Span

namespace Analysis

open LineMarkup.Span Record

variable {previous : List Span} {base : Nat}

/-- The record of a line as it is after its last event. -/
theorem ofLine_along (hc : Carried base (unclosed previous)) (text : Text) (id : Nat) :
    ∃ es, Trace text.size (Frame.around ((unclosed previous).map kind)) es
        (Parse.ofText text ((unclosed previous).map kind)).unclosed ∧
      EndedBy text.size es ∧
      es = ((Parse.ofText text ((unclosed previous).map kind)).report false).reverse ∧
      (ofLine text previous base id).1.spans =
        (along (unclosed previous) base id es).spans.reverse ∧
      (ofLine text previous base id).2 = (along (unclosed previous) base id es).nextId := by
  obtain ⟨ht, he⟩ := Parse.report_trace text ((unclosed previous).map kind) false
  refine ⟨_, ht, he, rfl, ?_, ?_⟩
  · rw [← sorted_of_descending _ (along_ascending ht hc.ascending hc.before), along,
      List.reverse_reverse]
    rfl
  · rw [along, List.reverse_reverse]
    rfl

/-- No span is lost or changes its identity, and new spans get new ids. Those that are still open
were open before, or are new. -/
theorem ofLine_ident (hc : Carried base (unclosed previous)) (text : Text) (id : Nat) :
    ∃ frames, (∀ f ∈ frames, f.start < text.size) ∧
      (ofLine text previous base id).1.spans.map ident =
        (unclosed previous).map ident ++ births base id frames ∧
      (ofLine text previous base id).2 = id + frames.length ∧
      ∀ span ∈ unclosed (ofLine text previous base id).1.spans,
        span ∈ unclosed previous ∨ ident span ∈ births base id frames := by
  obtain ⟨es, ht, he, _, hs, hn⟩ := ofLine_along hc text id
  refine ⟨(es.filterMap Event.recorded?).reverse, ?_, ?_, ?_, ?_⟩
  · exact fun f hf => ht.recorded_lt he f (List.mem_reverse.mp hf)
  · rw [hs, List.map_reverse, along_ident, List.reverse_append, List.reverse_reverse,
      List.reverse_reverse]
  · rw [hn, along, seeAll_nextId, List.filterMap_reverse]
    rfl
  · intro span hm
    obtain ⟨hm, ho⟩ := List.mem_filter.mp hm
    rw [hs, List.mem_reverse] at hm
    rw [← List.filterMap_reverse]
    exact (seeAll_open hm ho).imp_left List.mem_reverse.mp

theorem ofLine_ascending (hc : Carried base (unclosed previous)) (text : Text) (id : Nat) :
    (ofLine text previous base id).1.spans.Pairwise (fun a b => a.first < b.first) := by
  obtain ⟨es, ht, _, _, hs, _⟩ := ofLine_along hc text id
  rw [hs]
  exact List.pairwise_reverse.mpr (along_ascending ht hc.ascending hc.before)

theorem ofLine_ended (hc : Carried base (unclosed previous)) (text : Text) (id : Nat) :
    ∀ span ∈ (ofLine text previous base id).1.spans, ∀ last, span.last = some last →
      span.first ≤ last ∧ base ≤ last ∧ last ≤ base + text.size := by
  obtain ⟨es, ht, he, _, hs, _⟩ := ofLine_along hc text id
  intro span hm last hlast
  rw [hs] at hm
  have hl : ∀ f ∈ Frame.around ((unclosed previous).map kind), f.kind.lapses = false :=
    Frame.forall_mem_around rfl (List.forall_mem_map.mpr hc.lasting)
  obtain ⟨hf, hi, e, hme, hle, _⟩ :=
    along_ended ht hl hc.opened hc.before span (List.mem_reverse.mp hm) last hlast
  have := he e hme
  exact ⟨hf, hi, by omega⟩

theorem ofLine_carried (hc : Carried base (unclosed previous)) (text : Text) (id : Nat) :
    Carried (base + text.size + 1) (unclosed (ofLine text previous base id).1.spans) := by
  obtain ⟨es, ht, he, _, hs, _⟩ := ofLine_along hc text id
  refine ⟨fun span hm => (List.mem_filter.mp hm).2, ?_, ?_, ?_⟩
  · intro span hm
    obtain ⟨hm, _⟩ := List.mem_filter.mp hm
    rw [hs] at hm
    have := along_first_lt ht hc.before he id span (List.mem_reverse.mp hm)
    omega
  · exact (ofLine_ascending hc text id).filter _
  · intro span hm
    have hrooted := Parse.unclosed_rooted text ((unclosed previous).map kind)
    have hlasts := Parse.unclosed_lasts text (List.forall_mem_map.mpr hc.lasting)
    have hframes := Owners.along_frames ht id
    have hunclosed := Owners.along_unclosed ht hrooted hc.opened base id
    rw [hs, unclosed, List.filter_reverse, List.mem_reverse] at hm
    have hmem : (span.kind, some span.id) ∈
        (Owners.along (unclosed previous) id es).stack.map
          (fun owner => (owner.1.kind, owner.2)) := by
      rw [hunclosed]
      exact List.mem_append_left _ (List.mem_map_of_mem hm)
    obtain ⟨owner, ho, heq⟩ := List.mem_map.mp hmem
    have := hlasts owner.1 (hframes ▸ List.mem_map_of_mem ho)
    rwa [(Prod.mk.inj heq).1] at this

end Analysis

end LineMarkup
