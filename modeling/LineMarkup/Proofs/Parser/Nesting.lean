import LineMarkup.Proofs.Parser.Steady

namespace LineMarkup

/-- The frames around a text, the innermost first. -/
def Frame.around (carried : List Construct) : List Frame :=
  (Frame.root :: carried.map Frame.carriedOver).reverse

theorem Frame.forall_mem_around {carried : List Construct} {P : Frame → Prop}
    (hroot : P Frame.root) (hc : ∀ kind ∈ carried, P (Frame.carriedOver kind)) :
    ∀ f ∈ Frame.around carried, P f := by
  intro f hf
  rcases List.mem_cons.mp (List.mem_reverse.mp hf) with rfl | hf
  · exact hroot
  · obtain ⟨kind, hk, rfl⟩ := List.mem_map.mp hf
    exact hc kind hk

/-- All frames end with the text. -/
theorem Trace.closes (h : Trace limit start es (frames ++ rest)) (he : EndedBy limit es) :
    Trace limit start ((frames.map (fun f => .pop f limit true)).reverse ++ es) rest ∧
      EndedBy limit ((frames.map (fun f => .pop f limit true)).reverse ++ es) := by
  induction frames generalizing es with
  | nil => exact ⟨h, he⟩
  | cons frame frames ih =>
    rw [List.map_cons, List.reverse_cons, List.append_assoc]
    refine ih (.pop h (h.frames_le he frame List.mem_cons_self) ?_ he)
      (endedBy_cons.mpr ⟨Nat.le_refl _, he⟩)
    rcases h.frames_filled he frame List.mem_cons_self with hlt | hb
    · exact .inl hlt
    · have := h.frames_before frame hb
      omega

namespace Parser

theorem ofText_steady (text : Text) (carried : List Construct) :
    Steady text.size (Frame.around carried) 0 (ofText text carried) := by
  have hnil : EndedBy 0 [] := fun e he => by cases he
  have hbefore : ∀ f ∈ Frame.around carried, f.start = 0 :=
    Frame.forall_mem_around rfl (fun _ _ => rfl)
  exact ⟨⟨.nil hbefore, hnil, Token.Stream.ofText_poised text, by simp [Rooted, ofText]⟩,
    Nat.le_refl _, Token.Stream.ofText_clean text, fun _ => hnil⟩

end Parser

namespace Parse

/-- What is reported of a text leads from the frames around it to those that go on after it. -/
theorem report_trace (text : Text) (carried : List Construct) (closing : Bool) :
    Trace text.size (Frame.around carried) ((ofText text carried).report closing).reverse
        (if closing then [] else (ofText text carried).unclosed) ∧
      EndedBy text.size ((ofText text carried).report closing).reverse := by
  let parser := Parser.ofText text carried
  obtain ⟨pos, hs⟩ := Parser.rounds_steady (Parser.ofText_steady text carried) parser.roundLimit
  have hended := hs.ended.mono hs.poised.tiles.le
  have hsplit := List.takeWhile_append_dropWhile
    (p := fun f : Frame => f.kind.endsWithLine) (l := (parser.rounds parser.roundLimit).stack)
  have htrace := hs.trace
  cases closing with
  | false =>
    rw [← hsplit] at htrace
    simpa [report, ofText] using htrace.closes hended
  | true =>
    rw [← List.append_nil (Parser.stack _)] at htrace
    simpa [report, ofText, ← List.map_append] using htrace.closes hended

/-- The root frame goes on after any text. -/
theorem unclosed_rooted (text : Text) (carried : List Construct) :
    (ofText text carried).unclosed.getLast? = some Frame.root := by
  let parser := Parser.ofText text carried
  obtain ⟨pos, hs⟩ := Parser.rounds_steady (Parser.ofText_steady text carried) parser.roundLimit
  obtain ⟨frames, hframes⟩ := List.getLast?_eq_some_iff.mp hs.rooted
  simp only [ofText]
  rw [hframes, List.dropWhile_append]
  split
  · rfl
  · rw [List.getLast?_append]
    rfl

/-- A loose token ends within the text. -/
theorem loose_stop_le (he : (ofText text carried).events = before ++ .loose token frame :: after) :
    token.stop ≤ text.size := by
  obtain ⟨_, hended⟩ := report_trace text carried false
  refine hended (.loose token frame) (List.mem_reverse.mpr ?_)
  rw [report, he]
  simp

/-- The events of a text, with all frames closed at its end, are those of a tree of ranges: they fit
the stack of frames, their ends never go back, and nothing begins before the end of what was met
before it, but for math, which begins with its delimiter. -/
theorem report_nested (text : Text) (carried : List Construct) :
    let events := (ofText text carried).report true
    Event.replayAll? (Frame.root :: carried.map Frame.carriedOver).reverse events = some [] ∧
    events.Pairwise (fun earlier later => earlier.stop ≤ later.stop) ∧
    (∀ e ∈ events, e.start ≤ e.stop ∧ e.stop ≤ text.size) ∧
    (∀ earlier e later, events = earlier ++ e :: later → e.begins = true →
      BeginsAfter e earlier.reverse) ∧
    (events.filterMap Event.range?).Pairwise Laminar := by
  intro events
  obtain ⟨ht, he⟩ := report_trace text carried true
  refine ⟨?_, ?_, ?_, ?_, ?_⟩
  · have := ht.replayAll
    rwa [List.reverse_reverse] at this
  · exact List.pairwise_reverse.mp ht.stops
  · intro e hm
    have hm := List.mem_reverse.mpr hm
    exact ⟨ht.start_le_stop e hm, he e hm⟩
  · intro earlier e later heq hb
    have hrev : events.reverse = later.reverse ++ e :: earlier.reverse := by simp [heq]
    have ht : Trace text.size _ events.reverse _ := ht
    rw [hrev] at ht
    exact ht.beginsAfter hb
  · have := ht.laminar
    rw [List.filterMap_reverse] at this
    exact (List.pairwise_reverse.mp this).imp Laminar.symm

end Parse

end LineMarkup
