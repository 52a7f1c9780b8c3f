import LineMarkup.Proofs.Parser.Lockstep
import Mathlib.Data.List.Forall2

namespace LineMarkup

open Token (Face)
open Token.Stream
open Matcher (Settles)

namespace Action

/-- A line of content may start after it. -/
def starts : Action → Bool
  | .push .contentBlock | .startContent => true
  | _ => false

/-- If a line of content may start after these actions, then in a content block. -/
def startsInBlock (actions : List Action) : Bool :=
  !actions.any starts || actions == [.push .contentBlock]

/-- If a line of content may start after these actions, then in a construct that holds content and
goes on after the line. -/
def calm (inside : Construct) (actions : List Action) : Bool :=
  startsInBlock actions ||
    actions == [.instant .listEntry, .startContent] && inside.holdsContent && !inside.endsWithLine

end Action

namespace Rule

/-- The same for all that a rule does. Which construct continuations are taken in is not known. -/
def calm (inside : Construct) (rule : Rule) : Bool :=
  Action.calm inside rule.actions &&
    (!rule.actions.any Action.starts || rule.continuations.isEmpty && rule.otherwise.isEmpty) &&
    !rule.otherwise.any Action.starts &&
    rule.continuations.all (fun next => Action.startsInBlock next.actions)

end Rule

namespace Parser

variable {p q : Parser} {actions : List Action} {rule : Rule} {inside : Construct}

/-- If a line of content may start here, then in a construct that holds content and goes on after
the line. -/
def Calm (p : Parser) : Prop :=
  p.atContentStart = true → p.top.kind.holdsContent = true ∧ p.top.kind.endsWithLine = false

theorem calm_of_still (h : p.atContentStart = false) : Calm p :=
  fun ha => absurd (h.symm.trans ha) (by simp)

theorem act_still {action : Action} (h : action.starts = false) (p : Parser) :
    (p.act action).atContentStart = p.atContentStart := by
  cases action with
  | push kind =>
    have hk : kind ≠ .contentBlock := by
      rintro rfl
      cases h
    simp [act, push, report, hk]
  | pop => exact pop_again p
  | instant => rfl
  | startContent => cases h
  | popMath =>
    exact popMath_induction (P := fun q => q.atContentStart = p.atContentStart)
      (fun q hq => (pop_again q).trans hq) rfl

theorem perform_still (h : actions.any Action.starts = false) (p : Parser) :
    (p.perform actions).atContentStart = p.atContentStart := by
  refine perform_induction (P := fun q => q.atContentStart = p.atContentStart) ?_ rfl
  intro action hm q hq
  exact (act_still (by simpa using List.any_eq_false.mp h action hm) q).trans hq

theorem perform_calm (h : p.atContentStart = false) (hc : Action.calm p.top.kind actions = true) :
    Calm (p.perform actions) := by
  simp only [Action.calm, Action.startsInBlock, Bool.or_eq_true, Bool.and_eq_true,
    Bool.not_eq_true', beq_iff_eq] at hc
  rcases hc with (hc | rfl) | ⟨⟨rfl, hholds⟩, hgoes⟩
  · exact calm_of_still ((perform_still hc p).trans h)
  · exact fun _ => ⟨rfl, rfl⟩
  · exact fun _ => ⟨hholds, hgoes⟩

theorem proceed_calm {next : List Continuation} (h : p.atContentStart = false)
    (hn : next.all (fun next => Action.startsInBlock next.actions) = true)
    {otherwise : List Action} (ho : otherwise.any Action.starts = false) :
    Calm (p.proceed otherwise next) := by
  induction next generalizing p with
  | nil => exact calm_of_still ((perform_still ho p).trans h)
  | cons next rest ih =>
    obtain ⟨hnext, hrest⟩ := Bool.and_eq_true_iff.mp hn
    have hagain := (accept_again p next.pattern).trans h
    simp only [proceed]
    split
    · exact ih h hrest
    · split <;> rename_i p' hacc <;> rw [hacc] at hagain
      · refine perform_calm hagain ?_
        simp only [Action.calm, hnext, Bool.true_or]
      · exact ih hagain hrest

theorem follow_calm (h : p.atContentStart = false) (hr : rule.calm p.top.kind = true) :
    Calm (p.follow rule) := by
  simp only [Rule.calm, Bool.and_eq_true, Bool.or_eq_true, Bool.not_eq_true',
    List.isEmpty_iff] at hr
  obtain ⟨⟨⟨hactions, hlast⟩, hother⟩, hnext⟩ := hr
  simp only [follow]
  split
  · exact calm_of_still h
  · rcases hlast with hnone | ⟨hn, ho⟩
    · exact proceed_calm ((perform_still hnone p).trans h) hnext hother
    · rw [hn, ho]
      have hcalm := perform_calm h hactions
      exact hcalm

end Parser

/-- Two rules that do the same. Their patterns match the same tokens, the second one after those
that are skipped. At least `low` tokens are taken. -/
structure Rule.Agree (inside : Construct) (low : Nat) (skipped fs : List Face) (rule rule' : Rule) :
    Prop where
  same : rule' = { rule with pattern := rule'.pattern }
  spares : rule.pattern.sparesWords = true
  spares' : rule'.pattern.sparesWords = true
  goesOn : rule.goesOn = true
  settles : ∃ reach : Option Nat, Settles rule.pattern.run fs reach ∧
    Settles rule'.pattern.run (skipped ++ fs) (reach.map (skipped.length + ·)) ∧
    ∀ n ∈ reach, low ≤ n ∧ rule.calm inside = true ∧ (rule.minLength = 0 ∨
      skipped = [] ∧ rule.pattern.takesWords = true ∧ rule'.pattern.takesWords = true)

namespace Parser

/-- The second parser has more ahead of it before the rest of the line. -/
structure Behind (skipped fs after after' : List Face) (p q : Parser) : Prop where
  near : At (fs ++ after) p
  far : At (skipped ++ fs ++ after') q
  edge : Edge after
  edge' : Edge after'
  peers : Peers p q

variable {p q : Parser} {skipped fs after after' : List Face} {low : Nat}
  {rules rules' : List Rule} {rule rule' : Rule} {inside : Construct} {reach : Option Nat}
  {m m' : Matcher}

theorem Behind.accept (h : Behind skipped fs after after' p q) (hs : Settles m.run fs reach)
    (hs' : Settles m'.run (skipped ++ fs) (reach.map (skipped.length + ·)))
    (hm : m.sparesWords = true) (hm' : m'.sparesWords = true) :
    (p.accept m).1 = reach.isSome ∧ (q.accept m').1 = reach.isSome ∧
      (∀ n ∈ reach, Abreast (fs.drop n) after after' (p.accept m).2 (q.accept m').2) ∧
      (reach = none → Behind skipped fs after after' (p.accept m).2 (q.accept m').2) := by
  obtain ⟨hok, hnear⟩ := h.near.accept h.edge hs hm
  obtain ⟨hok', hfar⟩ := h.far.accept h.edge' hs' hm'
  have hpeers := h.peers.accept m m'
  refine ⟨hok, by rw [hok', Option.isSome_map], fun n hn => ?_, fun hn => ?_⟩
  · rw [Option.mem_def.mp hn] at hnear hfar
    rw [Option.map_some, Option.getD_some, List.drop_length_add_append] at hfar
    exact ⟨hnear, hfar, h.edge, h.edge', hpeers⟩
  · rw [hn] at hnear hfar
    exact ⟨hnear, hfar, h.edge, h.edge', hpeers⟩

/-- Two rules that agree, where the first one matches. -/
theorem Behind.hit (h : Behind skipped fs after after' p q) (hc : p.atContentStart = false)
    (ha : Rule.Agree p.top.kind low skipped fs rule rule')
    (hok : (p.accept rule.pattern).1 = true) :
    (q.accept rule'.pattern).1 = true ∧ ∃ n, low ≤ n ∧
      Abreast (fs.drop n) after after' ((p.accept rule.pattern).2.follow rule)
        ((q.accept rule'.pattern).2.follow rule') ∧
      Calm ((p.accept rule.pattern).2.follow rule) := by
  obtain ⟨reach, hs, hs', hcalm⟩ := ha.settles
  obtain ⟨hsome, hok', habreast, _⟩ := h.accept hs hs' ha.spares ha.spares'
  rw [← hsome] at hok'
  obtain ⟨n, rfl⟩ := Option.isSome_iff_exists.mp (hsome.symm.trans hok)
  obtain ⟨hlow, hcalm, hlength⟩ := hcalm n rfl
  have hchars : rule.minLength = 0 ∨
      (p.accept rule.pattern).2.mark.chars = (q.accept rule'.pattern).2.mark.chars := by
    refine hlength.imp_right (fun ⟨hnil, hw, hw'⟩ => ?_)
    subst hnil
    rw [h.near.chars h.edge hs hw hok, h.far.chars h.edge' hs' hw' (hok'.trans hok)]
    simp
  have hsame : (q.accept rule'.pattern).2.follow rule' =
      (q.accept rule'.pattern).2.follow rule := by
    rw [ha.same]
    rfl
  obtain ⟨k, hfollow⟩ := (habreast n rfl).follow ha.goesOn hchars
  rw [← hsame, List.drop_drop] at hfollow
  refine ⟨hok'.trans hok, n + k, Nat.le_add_right_of_le hlow, hfollow, follow_calm ?_ ?_⟩
  · exact (accept_again p rule.pattern).trans hc
  · simpa only [top, accept_stack] using hcalm

/-- Two rules that agree, where the first one does not match. -/
theorem Behind.miss (h : Behind skipped fs after after' p q)
    (ha : Rule.Agree inside low skipped fs rule rule') (hok : (p.accept rule.pattern).1 = false) :
    (q.accept rule'.pattern).1 = false ∧
      Behind skipped fs after after' (p.accept rule.pattern).2 (q.accept rule'.pattern).2 ∧
      ∀ reach, Settles rule.pattern.run fs reach → reach = none := by
  obtain ⟨reach, hs, hs', _⟩ := ha.settles
  have hnone (reach : Option Nat) (hs : Settles rule.pattern.run fs reach) : reach = none := by
    have hsome := (h.near.accept h.edge hs ha.spares).1
    exact Option.isNone_iff_eq_none.mp (by simpa using hsome.symm.trans hok)
  obtain ⟨hsome, hok', _, hbehind⟩ := h.accept hs hs' ha.spares ha.spares'
  rw [← hsome] at hok'
  exact ⟨hok'.trans hok, hbehind (hnone reach hs), hnone⟩

/-- Rules that agree are followed by both parsers or by none. -/
theorem Behind.tryRules (h : Behind skipped fs after after' p q) (hc : p.atContentStart = false)
    (hr : List.Forall₂ (Rule.Agree p.top.kind low skipped fs) rules rules') :
    (∃ p' q' n, p.tryRules rules = (true, p') ∧ q.tryRules rules' = (true, q') ∧ low ≤ n ∧
      Abreast (fs.drop n) after after' p' q' ∧ Calm p') ∨
    (∃ p' q', p.tryRules rules = (false, p') ∧ q.tryRules rules' = (false, q') ∧
      Behind skipped fs after after' p' q' ∧ p'.atContentStart = false ∧
      ∀ rule ∈ rules, ∀ reach, Settles rule.pattern.run fs reach → reach = none) := by
  generalize hin : p.top.kind = inside at hr
  induction hr generalizing p q with
  | nil => exact .inr ⟨p, q, rfl, rfl, h, hc, by simp⟩
  | @cons rule rule' rules rules' hagree _ ih =>
    cases hok : (p.accept rule.pattern).1 with
    | true =>
      obtain ⟨hok', n, hlow, habreast, hcalm⟩ := h.hit hc (hin ▸ hagree) hok
      exact .inl ⟨_, _, n, tryRules_of_hit hok rules, tryRules_of_hit hok' rules', hlow, habreast,
        hcalm⟩
    | false =>
      obtain ⟨hok', hbehind, hfirst⟩ := h.miss hagree hok
      have hagain := (accept_again p rule.pattern).trans hc
      have htop : (p.accept rule.pattern).2.top.kind = inside := by
        rw [← hin, top, top, accept_stack]
      rw [tryRules_of_miss hok, tryRules_of_miss hok']
      rcases ih hbehind hagain htop with hhits | ⟨p', q', hp, hq, hend, hc, hnone⟩
      · exact .inl hhits
      · exact .inr ⟨p', q', hp, hq, hend, hc, List.forall_mem_cons.mpr ⟨hfirst, hnone⟩⟩

/-- The rest of a round, once no construct has ended with the line. -/
def attempt (rules : List Rule) (frame : Frame) (p : Parser) : Parser :=
  let outcome := p.tryRules rules
  if outcome.1 then outcome.2 else outcome.2.takeLoose frame

/-- The parser as it tries its rules. -/
def trying (p : Parser) : Parser :=
  { (if p.top.kind.endsWithLine then (p.accept (.kind .lineEnd)).2 else p) with
    atContentStart := p.atContentStart && !p.top.kind.holdsContent }

theorem step_of_goesOn
    (h : p.top.kind.endsWithLine = true → (p.accept (.kind .lineEnd)).1 = false) :
    p.step = attempt (Rule.within p.top.kind p.atContentStart) p.top p.trying := by
  simp only [step, trying, attempt]
  split <;> rename_i hl
  · have hagain := accept_again p (.kind .lineEnd)
    have hok := h hl
    rcases hacc : p.accept (.kind .lineEnd) with ⟨ok, p'⟩
    rw [hacc] at hok hagain
    obtain rfl : ok = false := hok
    obtain hagain : p'.atContentStart = p.atContentStart := hagain
    simp only [hagain, Bool.false_eq_true, ↓reduceIte]
    split <;> rename_i htry <;> simp only [htry, Bool.false_eq_true, ↓reduceIte]
  · simp only [Bool.false_eq_true, ↓reduceIte]
    split <;> rename_i htry <;> simp only [htry, Bool.false_eq_true, ↓reduceIte]

theorem trying_stack (p : Parser) : p.trying.stack = p.stack := by
  simp only [trying]
  split
  · exact accept_stack p _
  · rfl

theorem trying_still (h : Calm p) : p.trying.atContentStart = false := by
  simp only [trying]
  cases ha : p.atContentStart with
  | false => rfl
  | true => simp [(h ha).1]

theorem line_settles {x : Face} (hx : x ≠ .feed) (fs : List Face) :
    Settles (Matcher.run (.kind .lineEnd)) (x :: fs) none := by
  refine .never (fun after s he hs => ?_)
  have hface := (fetch_face he hs).1 x rfl
  have hk : s.fetch.1.kind ≠ .lineEnd := by
    intro hk
    exact hx (hface.symm.trans (Matcher.face_eq_feed.mpr (.inr hk)))
  simp [Matcher.run, Matcher.one, hk]

/-- No line ends here for the innermost construct. -/
def Amid (fs : List Face) (p : Parser) : Prop :=
  p.top.kind.endsWithLine = true → ∃ x rest, fs = x :: rest ∧ x ≠ .feed

theorem amid_of_lasts (h : p.top.kind.endsWithLine = false) (fs : List Face) : Amid fs p :=
  fun hends => absurd (h.symm.trans hends) (by simp)

theorem At.trying (h : At (fs ++ after) p) (he : Edge after) (hl : Amid fs p) :
    p.step = attempt (Rule.within p.top.kind p.atContentStart) p.top p.trying ∧
      At (fs ++ after) p.trying := by
  have hboth : (p.top.kind.endsWithLine = true → (p.accept (.kind .lineEnd)).1 = false) ∧
      At (fs ++ after) p.trying := by
    simp only [Parser.trying]
    split <;> rename_i hends
    · obtain ⟨x, rest, rfl, hx⟩ := hl hends
      obtain ⟨hok, hat⟩ := h.accept he (line_settles hx rest) rfl
      exact ⟨fun _ => hok, hat.shows, hat.fresh, hat.spared⟩
    · exact ⟨fun hyes => absurd hyes hends, h.shows, h.fresh, h.spared⟩
  exact ⟨step_of_goesOn hboth.1, hboth.2⟩

theorem At.takeLoose {x : Face} (h : At (x :: fs) p) (frame : Frame) :
    At fs (p.takeLoose frame) := by
  have hnext := (h.shows.keeps (.fetch p.stream) (fetch_position p.stream)).1
  refine ⟨⟨hnext.faces, hnext.begun⟩, rfl, ?_⟩
  obtain ⟨n, hn⟩ := Reads.fetch_ahead p.stream
  intro t ht hk
  have hall : t ∈ ahead p.stream ++ List.replicate n (Token.ending p.stream.stop) :=
    hn ▸ List.mem_cons_of_mem _ ht
  rcases List.mem_append.mp hall with ht | ht
  · exact h.spared t ht hk
  · rw [List.eq_of_mem_replicate ht] at hk
    cases hk

/-- What a round does to both parsers. -/
theorem round_agree (skipped : List Face) (low : Nat)
    (near : At (fs ++ after) p) (far : At (skipped ++ fs ++ after') q)
    (edge : Edge after) (edge' : Edge after') (kinds : p.kinds = q.kinds)
    (calm : Calm p) (calm' : Calm q) (amid : Amid fs p) (amid' : Amid (skipped ++ fs) q)
    (hr : List.Forall₂ (Rule.Agree p.top.kind low skipped fs)
      (Rule.within p.top.kind p.atContentStart) (Rule.within q.top.kind q.atContentStart)) :
    (∃ n, low ≤ n ∧ Abreast (fs.drop n) after after' p.step q.step ∧ Calm p.step) ∨
    (∃ p' q', p.step = p'.takeLoose p.top ∧ q.step = q'.takeLoose q.top ∧
      Behind skipped fs after after' p' q' ∧ p'.atContentStart = false ∧
      ∀ rule ∈ Rule.within p.top.kind p.atContentStart, ∀ reach,
        Settles rule.pattern.run fs reach → reach = none) := by
  obtain ⟨hstep, near⟩ := near.trying edge amid
  obtain ⟨hstep', far⟩ := far.trying edge' amid'
  have hstill := trying_still calm
  have hpeers : Peers p.trying q.trying := by
    refine ⟨?_, hstill.trans (trying_still calm').symm⟩
    rwa [Parser.kinds, Parser.kinds, trying_stack, trying_stack]
  have htop : p.trying.top.kind = p.top.kind := by rw [top, top, trying_stack]
  have hbehind : Behind skipped fs after after' p.trying q.trying :=
    ⟨near, far, edge, edge', hpeers⟩
  rcases hbehind.tryRules hstill (by rwa [htop]) with
    ⟨p', q', n, hp, hq, hlow, habreast, hcalm⟩ | ⟨p', q', hp, hq, hend, hagain, hnone⟩
  · left
    simp only [hstep, hstep', attempt, hp, hq]
    exact ⟨n, hlow, habreast, hcalm⟩
  · right
    simp only [hstep, hstep', attempt, hp, hq]
    exact ⟨p', q', rfl, rfl, hend, hagain, hnone⟩

end Parser

end LineMarkup
