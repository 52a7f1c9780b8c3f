import Mathlib
import LineMarkup.Marker
import LineMarkup.Proofs.Parser.Story

namespace LineMarkup

open Text (Boundary)

/-- A delimiter of math is one character long. -/
def Event.Single : Event → Prop
  | .pop frame stop _ | .instant frame stop =>
    frame.kind = .mathDelimiter → stop = frame.start + 1
  | .push _ _ | .loose _ _ => True

namespace Story

theorem boundaries (h : Story text start es stack) :
    ∀ e ∈ es, Boundary text e.start ∧ Boundary text e.stop := by
  induction h with
  | nil => simp
  | push _ _ _ _ _ first last _ ih | instant _ _ _ first last _ ih =>
    exact List.forall_mem_cons.mpr ⟨⟨first, last⟩, ih⟩
  | pop hs last _ ih =>
    exact List.forall_mem_cons.mpr ⟨⟨hs.frames_boundary _ List.mem_cons_self, last⟩, ih⟩
  | loose _ placed ih => exact List.forall_mem_cons.mpr ⟨⟨placed.start, placed.stop⟩, ih⟩

theorem frames_delimiter (h : Story text start es stack)
    (hs : ∀ f ∈ start, f.kind ≠ .mathDelimiter) : ∀ f ∈ stack, f.kind ≠ .mathDelimiter := by
  intro f hf hk
  rcases h.frames_new f hf with hm | hl
  · exact hs f hm hk
  · rw [hk] at hl
    cases hl

theorem single (h : Story text start es stack) (hs : ∀ f ∈ start, f.kind ≠ .mathDelimiter) :
    ∀ e ∈ es, e.Single := by
  induction h with
  | nil => simp
  | push _ _ _ _ _ _ _ _ ih => exact List.forall_mem_cons.mpr ⟨trivial, ih⟩
  | loose _ _ ih => exact List.forall_mem_cons.mpr ⟨trivial, ih⟩
  | pop h _ _ ih =>
    refine List.forall_mem_cons.mpr ⟨fun hk => ?_, ih⟩
    exact absurd hk (h.frames_delimiter hs _ List.mem_cons_self)
  | instant _ _ _ _ _ mark ih => exact List.forall_mem_cons.mpr ⟨fun hk => (mark hk).2, ih⟩

end Story

namespace Marker

variable {kind : MarkerKind} {start stop : Nat} {m : Marker} {e : Event}

theorem mem_cover (h : m ∈ cover kind start stop) :
    m.kind = kind ∧ m.start = start ∧ m.stop = stop ∧ start < stop := by
  simp only [cover, List.mem_ite_nil_right, List.mem_singleton] at h
  obtain ⟨hlt, rfl⟩ := h
  exact ⟨rfl, rfl, rfl, hlt⟩

theorem mem_ofConstruct (h : m ∈ ofConstruct frame stop)
    (hs : frame.kind = .mathDelimiter → stop = frame.start + 1) :
    MarkerKind.ofConstruct? frame.kind = some m.kind ∧ m.start = frame.start ∧ m.stop = stop ∧
      frame.start < stop := by
  unfold ofConstruct at h
  split at h
  · cases h
  · rename_i hk
    have hkind : frame.kind = .mathDelimiter := by
      cases hf : frame.kind <;> simp [MarkerKind.ofConstruct?, hf] at hk
      rfl
    obtain ⟨hm, hfirst, hlast, hlt⟩ := mem_cover h
    have := hs hkind
    exact ⟨hm ▸ hk, by omega, hlast, by omega⟩
  · rename_i hk
    obtain ⟨hm, hrest⟩ := mem_cover h
    exact ⟨hm ▸ hk, hrest⟩

theorem mem_ofLoose (h : m ∈ ofLoose token frame) :
    (m.kind = .escape ∨ m.kind = .mathOperator ∧ frame.kind = .math) ∧ m.start = token.start ∧
      m.stop = token.stop ∧ token.start < token.stop := by
  unfold ofLoose at h
  split at h
  · split at h
    · obtain ⟨hm, hrest⟩ := mem_cover h
      exact ⟨.inl hm, hrest⟩
    · cases h
  · split at h
    · rename_i hk
      obtain ⟨hm, hrest⟩ := mem_cover h
      simp only [Bool.and_eq_true, decide_eq_true_eq] at hk
      exact ⟨.inr ⟨hm, hk.1⟩, hrest⟩
    · cases h
  · cases h

/-- A marker is as long as its event. -/
theorem mem_ofEvent (h : m ∈ ofEvent e) (hs : e.Single) :
    m.start = e.start ∧ m.stop = e.stop ∧ e.start < e.stop := by
  cases e with
  | push frame stop =>
    simp only [ofEvent, List.mem_ite_nil_right] at h
    exact (mem_cover h.2).2
  | pop | instant => exact (mem_ofConstruct h hs).2
  | loose => exact (mem_ofLoose h).2

/-- There is one marker for an event at most. -/
theorem ofEvent_pairwise (e : Event) {R : Marker → Marker → Prop} : (ofEvent e).Pairwise R := by
  cases e <;> grind [ofEvent, ofConstruct, ofLoose, cover]

theorem ofEvents_pairwise {events : List Event} {R : Marker → Marker → Prop}
    (h : events.Pairwise (fun a b => ∀ m ∈ ofEvent a, ∀ n ∈ ofEvent b, R m n)) :
    (ofEvents events).Pairwise R :=
  List.pairwise_flatMap.mpr ⟨fun e _ => ofEvent_pairwise e, h⟩

end Marker

namespace Parse

/-- All that is reported of a text is between characters. -/
theorem report_fits (text : Text) (carried : List Construct) (hc : .mathDelimiter ∉ carried) :
    ∀ e ∈ (ofText text carried).report true,
      e.Single ∧ Boundary text e.start ∧ Boundary text e.stop := by
  obtain ⟨stack, ⟨_, hs⟩, _, hreport⟩ := reported text carried
  have haround : ∀ f ∈ Frame.around carried, f.kind ≠ .mathDelimiter :=
    Frame.forall_mem_around (by decide) (fun kind hk heq => hc (heq ▸ hk))
  rw [hreport]
  intro e he
  rcases List.mem_append.mp he with he | he
  · have he := List.mem_reverse.mpr he
    exact ⟨hs.single haround e he, hs.boundaries e he⟩
  · obtain ⟨frame, hf, rfl⟩ := List.mem_map.mp he
    exact ⟨fun hk => absurd hk (hs.frames_delimiter haround frame hf),
      hs.frames_boundary frame hf, Text.boundary_size text⟩

/-- No marker of a text is empty, all lie within the text and between characters, and any two of
them are disjoint or nested. A delimiter of math cannot be open before the text. -/
theorem markers_laminar (text : Text) (carried : List Construct)
    (hc : .mathDelimiter ∉ carried) :
    let markers := Marker.ofEvents ((ofText text carried).report true)
    (∀ m ∈ markers, 0 < m.length ∧ m.start + m.length = m.stop ∧ m.stop ≤ text.size ∧
      Boundary text m.start ∧ Boundary text m.stop) ∧
    markers.Pairwise (fun a b => Laminar (a.start, a.stop) (b.start, b.stop)) := by
  intro markers
  obtain ⟨ht, he⟩ := report_trace text carried true
  have hfits := report_fits text carried hc
  refine ⟨fun m hm => ?_, Marker.ofEvents_pairwise ?_⟩
  · obtain ⟨e, hmem, hm⟩ := List.mem_flatMap.mp hm
    obtain ⟨hsingle, hfirst, hlast⟩ := hfits e hmem
    obtain ⟨hstart, hstop, hlt⟩ := Marker.mem_ofEvent hm hsingle
    have hle := he e (List.mem_reverse.mpr hmem)
    rw [Marker.length, hstart, hstop]
    exact ⟨by omega, by omega, hle, hfirst, hlast⟩
  · refine (List.pairwise_reverse.mp ht.extents_laminar).imp_of_mem (fun ha hb hl m hm n hn => ?_)
    obtain ⟨hm, hm', _⟩ := Marker.mem_ofEvent hm (hfits _ ha).1
    obtain ⟨hn, hn', _⟩ := Marker.mem_ofEvent hn (hfits _ hb).1
    rw [hm, hm', hn, hn']
    exact hl.symm

/-- Math from the line before ends in emphasized text from the line before. -/
theorem markers_after_math :
    .mathDelimiter ∉ [Construct.strong, .math] ∧
      let markers := Marker.ofEvents ((ofText "é \\* $ b* c".toList [.strong, .math]).report true)
      markers = [⟨.escape, 3, 5⟩, ⟨.mathDelimiter, 6, 7⟩, ⟨.strong, 0, 10⟩] ∧
      (∀ m ∈ markers, 0 < m.length ∧ m.start + m.length = m.stop ∧ m.stop ≤ 12 ∧
        Boundary "é \\* $ b* c".toList m.start ∧ Boundary "é \\* $ b* c".toList m.stop) ∧
      markers.Pairwise (fun a b => Laminar (a.start, a.stop) (b.start, b.stop)) := by
  have hc : .mathDelimiter ∉ [Construct.strong, .math] := by decide
  exact ⟨hc, by cbv, markers_laminar "é \\* $ b* c".toList [.strong, .math] hc⟩

end Parse

end LineMarkup
