import LineMarkup.Proofs.Parser.Ongoing
import LineMarkup.Proofs.Span.Spare

namespace LineMarkup

open Matcher (Peg)
open Token (endless)

/-- The event belongs to what comes from a position on. What lapses may have ended before. -/
def Event.Follows (pos : Nat) : Event → Prop
  | .push frame _ | .instant frame _ => pos ≤ frame.start
  | .pop frame stop _ => frame.kind.lapses = true ∨ pos < stop
  | .loose token _ => pos ≤ token.start

theorem Event.Follows.spares {pos : Nat} {light : Construct → Bool} {e : Event}
    (h : e.Follows pos) (hl : ∀ kind, kind.lapses = true → light kind = true) :
    e.Spares light pos := by
  cases e with
  | push => exact .inr h
  | pop frame => exact h.imp (hl frame.kind) .inl
  | instant => exact .inr (.inl h)
  | loose => exact trivial

/-- What is reported with a match. -/
def Mark.Bounds (mark : Mark) : Event → Prop
  | .push frame stop | .instant frame stop => frame.start = mark.start ∧ stop = mark.stop
  | .pop _ stop _ => stop = mark.stop
  | .loose _ _ => False

theorem Mark.Bounds.follows {mark : Mark} {e : Event} {pos : Nat} (h : mark.Bounds e)
    (hstart : pos ≤ mark.start) (hstop : pos < mark.stop) : e.Follows pos := by
  cases e with
  | push | instant => exact Nat.le_trans hstart (Nat.le_of_eq h.1.symm)
  | pop => exact .inr (Nat.lt_of_lt_of_eq hstop (Eq.symm h))
  | loose => exact h.elim

namespace Rule

/-- What is taken is more than the end of the text. -/
def isSolid (inside : Construct) (rule : Rule) : Bool :=
  (rule.pattern.takes Matcher.notEnd || inside.lapses && rule.ends) &&
    rule.continuations.all (·.pattern.takes Matcher.notEnd)

theorem within_solid (inside : Construct) (atContentStart : Bool) :
    ∀ rule ∈ within inside atContentStart,
      (rule.pattern.takes Matcher.notEnd = true ∨ inside.lapses = true ∧ rule.Ends) ∧
        ∀ next ∈ rule.continuations, next.pattern.takes Matcher.notEnd = true := by
  have hall : (within inside atContentStart).all (isSolid inside) = true := by
    cases inside <;> cases atContentStart <;> decide
  intro rule hm
  have hsolid := List.all_eq_true.mp hall rule hm
  simp only [isSolid, Bool.and_eq_true, Bool.or_eq_true, List.all_eq_true] at hsolid
  exact ⟨hsolid.1.imp_right fun hends => ⟨hends.1, ends_of hends.2⟩, hsolid.2⟩

end Rule

namespace Parser

variable {text : Text} {carried : List Construct} {p p' q : Parser} {rule : Rule} {m : Matcher}
  {P : Event → Prop} {j k l pos : Nat}

/-- A parser has reported more, all of it of this kind. -/
def Adds (P : Event → Prop) (p p' : Parser) : Prop :=
  ∃ new, p'.events = new ++ p.events ∧ ∀ e ∈ new, P e

namespace Adds

variable {P Q : Event → Prop}

theorem of_eq (h : p'.events = p.events) : Adds P p p' :=
  ⟨[], h, by simp⟩

theorem of_cons {e : Event} (h : p'.events = e :: p.events) (he : P e) : Adds P p p' :=
  ⟨[e], h, by simpa using he⟩

theorem trans (h : Adds P p p') (h' : Adds P p' q) : Adds P p q := by
  obtain ⟨new, heq, hall⟩ := h
  obtain ⟨new', heq', hall'⟩ := h'
  refine ⟨new' ++ new, by rw [heq', heq, List.append_assoc], fun e he => ?_⟩
  exact (List.mem_append.mp he).elim (hall' e) (hall e)

theorem mono (h : Adds P p p') (hpq : ∀ e, P e → Q e) : Adds Q p p' := by
  obtain ⟨new, heq, hall⟩ := h
  exact ⟨new, heq, fun e he => hpq e (hall e he)⟩

theorem of_events (h : Adds P p p') (hp : p.events = q.events) : Adds P q p' := by
  obtain ⟨new, heq, hall⟩ := h
  exact ⟨new, by rw [heq, hp], hall⟩

end Adds

theorem pop_adds (hk : P (.pop p.top p.mark.stop false)) : Adds P p p.pop := by
  cases hs : p.stack with
  | nil => exact .of_eq (by simp [pop, hs])
  | cons frame rest =>
    cases rest with
    | nil => exact .of_eq (by simp [pop, hs])
    | cons below rest =>
      have htop : p.top = frame := by simp [top, hs]
      exact .of_cons (e := .pop frame p.mark.stop false) (by simp [pop, hs, report]) (htop ▸ hk)

theorem act_adds (p : Parser) (action : Action) : Adds p.mark.Bounds p (p.act action) := by
  have hpop (q : Parser) (hq : q.mark = p.mark) : Adds p.mark.Bounds q q.pop := by
    cases hs : q.stack with
    | nil => exact .of_eq (by simp [pop, hs])
    | cons frame rest =>
      cases rest with
      | nil => exact .of_eq (by simp [pop, hs])
      | cons below rest =>
        refine .of_cons (e := .pop frame q.mark.stop false) (by simp [pop, hs, report]) ?_
        exact congrArg Mark.stop hq
  cases action with
  | push kind => exact .of_cons rfl ⟨rfl, rfl⟩
  | instant kind => exact .of_cons rfl ⟨rfl, rfl⟩
  | startContent => exact .of_eq rfl
  | pop => exact hpop p rfl
  | popMath =>
    have hmore (q : Parser) (hq : q.mark = p.mark ∧ Adds p.mark.Bounds p q) :
        q.pop.mark = p.mark ∧ Adds p.mark.Bounds p q.pop :=
      ⟨(pop_mark q).trans hq.1, hq.2.trans (hpop q hq.1)⟩
    exact (popMath_induction (p := p) (P := fun q => q.mark = p.mark ∧ Adds p.mark.Bounds p q)
      hmore ⟨rfl, .of_eq rfl⟩).2

/-- What actions report has begun and ended with the match. -/
theorem perform_adds (p : Parser) (actions : List Action) :
    Adds p.mark.Bounds p (p.perform actions) :=
  (perform_induction (p := p) (P := fun q => q.mark = p.mark ∧ Adds p.mark.Bounds p q)
    (fun action _ q hq => ⟨(act_mark q action).trans hq.1,
      hq.2.trans (hq.1 ▸ act_adds q action)⟩) ⟨rfl, .of_eq rfl⟩).2

/-- What is taken from a position on ends behind it. -/
theorem Matched.follows (h : Matched text m k j p p') (hm : m.takes Matcher.notEnd = true)
    (hk : 0 < k) (hpos : pos ≤ (endless text k).start) :
    pos ≤ p'.mark.start ∧ pos < p'.mark.stop := by
  obtain ⟨i, hlow, hhigh, hkind⟩ := h.reads.takes hm
  have hlt : k < j := Nat.lt_of_le_of_lt hlow hhigh
  have hsolid : (endless text i).start < (endless text (i + 1)).start := by
    refine Token.endless_solid (by omega) fun hend => ?_
    rw [hend] at hkind
    cases hkind
  have hle : (endless text k).start ≤ (endless text i).start := Token.endless_le hlow
  have hle' : (endless text (i + 1)).start ≤ (endless text j).start := Token.endless_le hhigh
  rw [h.mark hlt]
  exact ⟨Nat.le_trans hpos (h.begins hlt), by omega⟩

theorem Matched.adds (h : Matched text m k j p p') (hm : m.takes Matcher.notEnd = true)
    (hk : 0 < k) (hpos : pos ≤ (endless text k).start) (actions : List Action) :
    Adds (Event.Follows pos) p (p'.perform actions) := by
  obtain ⟨hstart, hstop⟩ := h.follows hm hk hpos
  exact ((perform_adds p' actions).mono fun e he => he.follows hstart hstop).of_events h.events

/-- What a round reports from a position on belongs to what comes there. -/
theorem Turn.follows (h : Turn text k p p' l) (hk : 0 < k) (hpos : pos ≤ (endless text k).start) :
    Adds (Event.Follows pos) p p' := by
  cases h with
  | line _ p₁ hm acs result =>
    rw [result]
    exact (hm.adds rfl hk hpos [.pop]).mono fun _ => id
  | short _ _ _ hm => exact .of_eq hm.events
  | loose _ _ token same events =>
    refine .of_cons events ?_
    have hstart : token.unmarked.start = (endless text k).start := congrArg Token.start same
    exact Nat.le_trans hpos (Nat.le_of_eq hstart.symm)
  | @rule j _ acs n rule listed missed p₁ hm hresumed first =>
    have hmem := List.mem_of_getElem? listed
    obtain ⟨htakes, hnexts⟩ := Rule.within_solid p.top.kind acs rule hmem
    have hblunt := Rule.within_blunt acs rule hmem
    have hactions : Adds (Event.Follows pos) p (p₁.perform rule.actions) := by
      rcases htakes with htakes | ⟨hlapses, hends⟩
      · exact hm.adds htakes hk hpos rule.actions
      · rw [hends.actions]
        refine (pop_adds (.inl ?_)).of_events hm.events
        rw [hm.top]
        exact hlapses
    refine hactions.trans ?_
    cases hresumed with
    | onward next hnext p₂ hm' result =>
      have hpos' : pos ≤ (endless text j).start :=
        Nat.le_trans hpos (Token.endless_le hm.reads.le)
      rw [result]
      exact hm'.adds (hnexts next hnext) (Nat.lt_of_lt_of_le hk hm.reads.le) hpos' next.actions
    | otherwise _ p₂ hp result =>
      rw [result]
      rcases hm.otherwise hblunt with hnone | ⟨hpop, hchain⟩
      · rw [hnone]
        exact .of_eq hp.events
      · rw [hpop]
        refine (pop_adds (.inl ?_)).of_events hp.events
        rw [hp.top]
        exact Construct.lapses_of_chain hchain

/-- So does all that is reported from then on. -/
theorem Ongoing.follows (h : Ongoing text carried k p) (hk : 0 < k)
    (hpos : pos ≤ (endless text k).start) : Adds (Event.Follows pos) p (finish text carried) := by
  let P (l : Nat) (q : Parser) : Prop := Adds (Event.Follows pos) p q ∧ k ≤ l
  obtain ⟨_, _, hadds, _⟩ := h.run (P := P) ⟨.of_eq rfl, Nat.le_refl k⟩
    fun _ ⟨hadds, hle⟩ _ hturn _ => ⟨hadds.trans (hturn.follows (Nat.lt_of_lt_of_le hk hle)
      (Nat.le_trans hpos (Token.endless_le hle))), Nat.le_trans hle hturn.le⟩
  exact hadds

theorem Ongoing.events (h : Ongoing text carried k p) :
    p.events <:+ (finish text carried).events := by
  obtain ⟨_, _, hsuffix⟩ := h.run (P := fun _ q => p.events <:+ q.events) List.suffix_rfl
    fun _ hsuffix _ hturn _ => hsuffix.trans hturn.suffix
  exact hsuffix

/-- The start of a text is spared by all. -/
theorem Ongoing.spares_zero (h : Ongoing text carried k p) (light : Construct → Bool) :
    Adds (Event.Spares light 0) p (finish text carried) := by
  obtain ⟨new, hnew⟩ := h.events
  refine ⟨new, hnew.symm, fun e _ => ?_⟩
  cases e with
  | push => exact .inr (Nat.zero_le _)
  | pop => exact .inr (.inr (Nat.zero_le _))
  | instant => exact .inr (.inl (Nat.zero_le _))
  | loose => exact trivial

end Parser

end LineMarkup
