import LineMarkup.Proofs.Marker.Laminar
import LineMarkup.Segment

namespace LineMarkup

/-- Marks of prose as it is read. All others mark code, comments or the signs of the markup. -/
def MarkerKind.stylesProse : MarkerKind → Bool
  | .heading | .emphasis | .strong | .escape => true
  | _ => false

theorem MarkerKind.not_holds {kind : MarkerKind} {construct : Construct}
    (h : ofConstruct? construct = some kind) (hs : kind.stylesProse = false) :
    construct.holds = false := by
  cases construct <;> simp only [ofConstruct?, Option.some.injEq, reduceCtorEq] at h <;>
    subst h <;> first | rfl | cases hs

namespace Segment

/-- Each position of a segment is in one of its tokens. -/
theorem exists_token {tokens : List Token} {segment : Segment}
    (h : segment ∈ tokens.foldr prepend []) (hlow : segment.start ≤ pos)
    (hhigh : pos < segment.stop) : ∃ token ∈ tokens, token.start ≤ pos ∧ pos < token.stop := by
  induction tokens generalizing segment with
  | nil => cases h
  | cons token tokens ih =>
    have hlater {segment : Segment} (h : segment ∈ tokens.foldr prepend [])
        (hlow : segment.start ≤ pos) (hhigh : pos < segment.stop) :
        ∃ t ∈ token :: tokens, t.start ≤ pos ∧ pos < t.stop := by
      obtain ⟨t, ht, hpos⟩ := ih h hlow hhigh
      exact ⟨t, List.mem_cons_of_mem _ ht, hpos⟩
    have hfirst (hlow : token.start ≤ pos) (hhigh : pos < token.stop) :
        ∃ t ∈ token :: tokens, t.start ≤ pos ∧ pos < t.stop :=
      ⟨token, List.mem_cons_self, hlow, hhigh⟩
    rw [List.foldr_cons] at h
    generalize hs : tokens.foldr prepend [] = segments at h hlater
    cases segments with
    | nil =>
      obtain rfl := List.mem_singleton.mp h
      exact hfirst hlow hhigh
    | cons next rest =>
      rw [prepend] at h
      split at h
      · rename_i htouch
        rcases List.mem_cons.mp h with rfl | h
        · rcases Nat.lt_or_ge pos token.stop with hlt | hge
          · exact hfirst hlow hlt
          · exact hlater List.mem_cons_self (htouch ▸ hge) hhigh
        · exact hlater (List.mem_cons_of_mem _ h) hlow hhigh
      · rcases List.mem_cons.mp h with rfl | h
        · exact hfirst hlow hhigh
        · exact hlater h hlow hhigh

end Segment

/-- No marker of an event but those of style shares a position with a token. -/
def Event.ClearOf (token : Token) (e : Event) : Prop :=
  ∀ m ∈ Marker.ofEvent e, m.kind.stylesProse = false →
    token.stop ≤ m.start ∨ m.stop ≤ token.start

namespace Event

theorem clearOf_earlier {e : Event} (hs : e.Single) (h : token.stop ≤ e.start) :
    e.ClearOf token := by
  intro m hm _
  rw [(Marker.mem_ofEvent hm hs).1]
  exact .inl h

theorem clearOf_later {e : Event} (hs : e.Single) (h : e.stop ≤ token.start) :
    e.ClearOf token := by
  intro m hm _
  rw [(Marker.mem_ofEvent hm hs).2.1]
  exact .inr h

/-- A construct that has ended is clear of a token before all of it, if it holds nothing. -/
theorem clearOf_pop {stop : Nat} (hs : (Event.pop frame stop implicit).Single)
    (h : frame.kind.holds = false → token.stop ≤ frame.start) :
    (Event.pop frame stop implicit).ClearOf token := by
  intro m hm hk
  obtain ⟨hkind, hstart, _⟩ := Marker.mem_ofConstruct hm hs
  rw [hstart]
  exact .inl (h (MarkerKind.not_holds hkind hk))

end Event

/-- A token reported as prose. -/
def IsProse (token : Token) (es : List Event) : Prop :=
  ∃ holder, .loose token holder ∈ es ∧ holder.kind.holdsContent = true

namespace IsProse

variable {es : List Event} {e : Event}

theorem cons (h : IsProse token (e :: es)) :
    IsProse token es ∨ ∃ holder, e = .loose token holder ∧ holder.kind.holdsContent = true := by
  obtain ⟨holder, hm, hh⟩ := h
  rcases List.mem_cons.mp hm with rfl | hm
  · exact .inr ⟨holder, rfl, hh⟩
  · exact .inl ⟨holder, hm, hh⟩

/-- Only a loose token is prose. -/
theorem of_cons (h : IsProse token (e :: es)) (hn : ∀ token holder, e ≠ .loose token holder) :
    IsProse token es :=
  h.cons.resolve_right (fun ⟨holder, heq, _⟩ => hn token holder heq)

theorem before (h : IsProse token es) (hb : BeginsAfter e es) : token.stop ≤ e.start := by
  obtain ⟨_, hm, _⟩ := h
  exact hb.ended hm rfl

end IsProse

namespace Reported

variable {text : Text} {start stack : List Frame} {es : List Event}

/-- All frames but the innermost one hold something. -/
theorem below_holds (h : Reported text start es (frame :: stack))
    (hn : Construct.Nested (start.map Frame.kind)) : ∀ f ∈ stack, f.kind.holds = true := by
  have hchain := h.story.nested_kinds hn
  clear h
  induction stack generalizing frame with
  | nil => simp
  | cons outer stack ih =>
    obtain ⟨hfirst, hrest⟩ := List.isChain_cons_cons.mp hchain
    exact List.forall_mem_cons.mpr ⟨Construct.holds_of_admits hfirst, ih hrest⟩

/-- All prose lies before a frame that holds nothing. -/
theorem prose_before (h : Reported text start es stack)
    (hn : Construct.Nested (start.map Frame.kind)) :
    ∀ token, IsProse token es → ∀ f ∈ stack, f.kind.holds = false → token.stop ≤ f.start := by
  obtain ⟨ht, hs⟩ := h
  induction hs with
  | nil =>
    rintro token ⟨_, hm, _⟩
    cases hm
  | push hs =>
    rename_i ih
    cases ht with
    | push ht _ _ _ hb =>
      intro token hp
      have hp := hp.of_cons nofun
      exact List.forall_mem_cons.mpr ⟨fun _ => hp.before hb, ih ht token hp⟩
  | pop hs =>
    rename_i ih
    cases ht with
    | pop ht =>
      intro token hp f hf
      exact ih ht token (hp.of_cons nofun) f (List.mem_cons_of_mem _ hf)
  | instant hs =>
    rename_i ih
    cases ht with
    | instant ht => exact fun token hp => ih ht token (hp.of_cons nofun)
  | loose hs =>
    rename_i ih
    cases ht with
    | loose ht =>
      intro token hp
      rcases hp.cons with hp | ⟨_, heq, hh⟩
      · exact ih ht token hp
      · -- The holder of prose holds something, and so does all below it.
        obtain ⟨rfl, rfl⟩ := Event.loose.inj heq
        intro f hf hk
        have hholds : f.kind.holds = true := by
          rcases List.mem_cons.mp hf with rfl | hf
          · simp [Construct.holds, hh]
          · exact Reported.below_holds ⟨ht, hs⟩ hn f hf
        rw [hk] at hholds
        cases hholds

/-- The markers that do not style prose are clear of it. -/
theorem prose_clear (h : Reported text start es stack)
    (hn : Construct.Nested (start.map Frame.kind)) (hd : ∀ f ∈ start, f.kind ≠ .mathDelimiter) :
    ∀ token, IsProse token es → ∀ e ∈ es, e.ClearOf token := by
  have hsingle := h.story.single hd
  obtain ⟨ht, hs⟩ := h
  induction hs with
  | nil =>
    rintro token ⟨_, hm, _⟩
    cases hm
  | push hs =>
    rename_i ih
    obtain ⟨hown, hrest⟩ := List.forall_mem_cons.mp hsingle
    cases ht with
    | push ht _ _ _ hb =>
      intro token hp
      have hp := hp.of_cons nofun
      exact List.forall_mem_cons.mpr
        ⟨Event.clearOf_earlier hown (hp.before hb), ih hrest ht token hp⟩
  | pop hs =>
    rename_i ih
    obtain ⟨hown, hrest⟩ := List.forall_mem_cons.mp hsingle
    cases ht with
    | pop ht =>
      intro token hp
      have hp := hp.of_cons nofun
      refine List.forall_mem_cons.mpr ⟨Event.clearOf_pop hown ?_, ih hrest ht token hp⟩
      exact Reported.prose_before ⟨ht, hs⟩ hn token hp _ List.mem_cons_self
  | instant hs =>
    rename_i ih
    obtain ⟨hown, hrest⟩ := List.forall_mem_cons.mp hsingle
    cases ht with
    | instant ht _ hb =>
      intro token hp
      have hp := hp.of_cons nofun
      exact List.forall_mem_cons.mpr
        ⟨Event.clearOf_earlier hown (hp.before (.clear hb)), ih hrest ht token hp⟩
  | loose hs =>
    rename_i ih
    obtain ⟨hown, hrest⟩ := List.forall_mem_cons.mp hsingle
    cases ht with
    | loose ht hb =>
      intro token hp
      rcases hp.cons with hp | ⟨_, heq, hh⟩
      · exact List.forall_mem_cons.mpr
          ⟨Event.clearOf_earlier hown (hp.before (.clear hb)), ih hrest ht token hp⟩
      · obtain ⟨rfl, rfl⟩ := Event.loose.inj heq
        refine List.forall_mem_cons.mpr ⟨fun m hm hk => ?_, fun e he => ?_⟩
        · -- A token is marked as an operator in math only.
          rcases (Marker.mem_ofLoose hm).1 with hescape | ⟨_, hmath⟩
          · rw [hescape] at hk
            cases hk
          · rw [hmath] at hh
            cases hh
        · exact Event.clearOf_later (hrest e he) (hb e he)

end Reported

namespace Parse

/-- Constructs that a parse can be within: each admits the next one, and none is met in one piece. -/
structure Orderly (carried : List Construct) : Prop where
  nested : Construct.Nested ((Frame.around carried).map Frame.kind)
  enclosing : ∀ kind ∈ carried, kind.isLeaf = false

theorem orderly_nil : Orderly [] :=
  ⟨List.isChain_singleton _, List.forall_mem_nil _⟩

variable {carried : List Construct}

theorem Orderly.frames (h : Orderly carried) :
    ∀ f ∈ Frame.around carried, f.kind.isLeaf = false :=
  Frame.forall_mem_around rfl h.enclosing

theorem Orderly.frames_delimiter (h : Orderly carried) :
    ∀ f ∈ Frame.around carried, f.kind ≠ .mathDelimiter := by
  intro f hf hk
  have hl := h.frames f hf
  rw [hk] at hl
  cases hl

theorem prose_clear (h : Orderly carried) (text : Text) :
    ∀ token, IsProse token ((ofText text carried).report true) →
      ∀ e ∈ (ofText text carried).report true, e.ClearOf token := by
  obtain ⟨stack, hr, _, hreport⟩ := reported text carried
  rw [hreport]
  intro token ⟨holder, hm, hh⟩
  have hm : .loose token holder ∈ (ofText text carried).events.reverse := by
    rcases List.mem_append.mp hm with hm | hm
    · exact List.mem_reverse.mpr hm
    · obtain ⟨f, _, heq⟩ := List.mem_map.mp hm
      cases heq
  intro e he
  rcases List.mem_append.mp he with he | he
  · exact hr.prose_clear h.nested h.frames_delimiter token ⟨holder, hm, hh⟩ e
      (List.mem_reverse.mpr he)
  · obtain ⟨f, hf, rfl⟩ := List.mem_map.mp he
    apply Event.clearOf_pop
    · exact fun hk => absurd hk (hr.story.frames_delimiter h.frames_delimiter f hf)
    · exact hr.prose_before h.nested token ⟨holder, hm, hh⟩ f hf

/-- What is prose and what is marked as something else never meet. -/
theorem prose_apart (h : Orderly carried) (text : Text) :
    ∀ segment ∈ Segment.ofEvents ((ofText text carried).report true),
      ∀ m ∈ Marker.ofEvents ((ofText text carried).report true), m.kind.stylesProse = false →
        ∀ pos, segment.start ≤ pos → pos < segment.stop → ¬ (m.start ≤ pos ∧ pos < m.stop) := by
  intro segment hs m hm hk pos hlow hhigh ⟨hfirst, hlast⟩
  obtain ⟨token, ht, htlow, hthigh⟩ := Segment.exists_token hs hlow hhigh
  obtain ⟨e, he, hprose⟩ := List.mem_filterMap.mp ht
  obtain ⟨e', he', hm⟩ := List.mem_flatMap.mp hm
  have hprose : IsProse token ((ofText text carried).report true) := by
    unfold Segment.prose? at hprose
    split at hprose
    · rename_i t frame
      simp only [Option.ite_none_right_eq_some, Bool.and_eq_true, Option.some.injEq] at hprose
      obtain ⟨⟨hh, _⟩, rfl⟩ := hprose
      exact ⟨frame, he, hh⟩
    · cases hprose
  have hclear := prose_clear h text token hprose e' he' m hm hk
  omega

end Parse

end LineMarkup
