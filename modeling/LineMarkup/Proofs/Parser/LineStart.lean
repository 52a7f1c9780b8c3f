import LineMarkup.Proofs.Parser.LineRun

namespace LineMarkup

open Token (Face faces)
open Token.Stream
open Matcher (Settles)

namespace Rule

theorem break_mem {inside : Construct} (hm : paragraphBreak ∈ others inside)
    (hends : inside.endsWithLine = false) : inside = .emphasis ∨ inside = .strong := by
  have hnone (hall : (others inside).all (·.pattern.inline) = true) : False := by
    have := List.all_eq_true.mp hall paragraphBreak hm
    revert this
    decide
  cases inside <;> first
    | exact .inl rfl
    | exact .inr rfl
    | exact absurd hends (by decide)
    | exact (hnone (by decide)).elim

end Rule

namespace Parser

/-- The line is empty and ends emphasis. -/
def breaksOff (p : Parser) : Bool :=
  (p.top.kind = .emphasis || p.top.kind = .strong) &&
    (Rule.paragraphBreak.pattern.run p.stream).1

/-- The line begins with the sign of a heading or of a list entry. -/
def beginsEntry (p : Parser) : Bool :=
  (Rule.signs p.top.kind).any (fun sign => ((Rule.atStart false sign).pattern.run p.stream).1)

variable {p q : Parser} {fs after : List Face} {rules : List Rule} {line : Text}
  {carried : List Construct}

theorem ofText_at (text : Text) (carried : List Construct) :
    At (.feed :: faces text ++ []) (ofText text carried) := by
  rw [List.append_nil]
  refine ⟨ofText_shows text, rfl, fun t ht _ => ?_⟩
  rcases List.mem_cons.mp ht with rfl | ht
  · rfl
  · exact (Token.scan_genuine ht).kept

/-- Rules that do not match leave everything as it was. -/
theorem At.tryRules (h : At (fs ++ after) p) (he : Edge after)
    (hr : ∀ rule ∈ rules, rule.pattern.sparesWords = true ∧ Settles rule.pattern.run fs none) :
    ∃ p', p.tryRules rules = (false, p') ∧ At (fs ++ after) p' ∧ p'.stack = p.stack ∧
      p'.atContentStart = p.atContentStart := by
  induction rules generalizing p with
  | nil => exact ⟨p, rfl, h, rfl, rfl⟩
  | cons rule rules ih =>
    obtain ⟨⟨hspares, hs⟩, hrules⟩ := List.forall_mem_cons.mp hr
    obtain ⟨hok, hat⟩ := h.accept he hs hspares
    obtain ⟨p₂, htry, hend, hstack, hagain⟩ := ih hat hrules
    exact ⟨p₂, (tryRules_of_miss hok rules).trans htry, hend, hstack.trans (accept_stack p _),
      hagain.trans (accept_again p _)⟩

theorem tryRules_append {p' : Parser} (h : p.tryRules rules = (false, p')) (rest : List Rule) :
    p.tryRules (rules ++ rest) = p'.tryRules rest := by
  induction rules generalizing p with
  | nil =>
    obtain rfl := (Prod.mk.inj h).2
    rfl
  | cons rule rules ih =>
    simp only [tryRules] at h
    simp only [List.cons_append, tryRules]
    split at h <;> rename_i hacc
    · cases h
    · exact ih h

theorem At.accept_break (h : At (.feed :: fs ++ after) p)
    (hok : ∀ s, Shows (.feed :: fs ++ after) s → (Rule.paragraphBreak.pattern.run s).1 = true ∧
      (Rule.paragraphBreak.pattern.run s).2.position = s.position + (fs.length + 2)) :
    (p.accept Rule.paragraphBreak.pattern).1 = true ∧
      At (after.drop 1) (p.accept Rule.paragraphBreak.pattern).2 := by
  obtain ⟨hrun, hmoved⟩ := hok p.stream h.shows
  have hspared := Matcher.run_spared (m := Rule.paragraphBreak.pattern) rfl h.fresh h.spared
  have hkeeps := (Rule.paragraphBreak.pattern.run_returns p.stream).keeps
  have hshows := (h.shows.keeps hkeeps hmoved).1
  have hdrop : (.feed :: fs ++ after).drop (fs.length + 2) = after.drop 1 := by
    rw [List.cons_append, List.drop_succ_cons, List.drop_length_add_append]
  rw [hdrop] at hshows
  rcases hacc : Rule.paragraphBreak.pattern.run p.stream with ⟨ok, s⟩
  rw [hacc] at hrun hshows hspared
  obtain rfl : ok = true := hrun
  simp only [Parser.accept, hacc]
  exact ⟨trivial, ⟨hshows.faces, hshows.begun⟩, rfl, hspared⟩

/-- An empty line takes its end along. -/
theorem break_step (h : At (.feed :: fs ++ after) p) (he : Edge after) (hc : Calm p)
    (hk : p.top.kind = .emphasis ∨ p.top.kind = .strong)
    (hok : ∀ s, Shows (.feed :: fs ++ after) s → (Rule.paragraphBreak.pattern.run s).1 = true ∧
      (Rule.paragraphBreak.pattern.run s).2.position = s.position + (fs.length + 2)) :
    At (after.drop 1) p.step ∧ p.step.kinds = p.pop.kinds ∧ p.step.atContentStart = false := by
  have hends : p.top.kind.endsWithLine = false := by rcases hk with hk | hk <;> rw [hk] <;> rfl
  have hlapses : p.top.kind.lapses = false := by rcases hk with hk | hk <;> rw [hk] <;> rfl
  have hrules : ∃ rest, Rule.within p.top.kind p.atContentStart =
      Rule.before ++ Rule.paragraphBreak :: rest := by
    rw [Rule.within_split]
    rcases hk with hk | hk <;> rw [hk] <;> exact ⟨_, rfl⟩
  have hbefore : ∀ rule ∈ Rule.before, rule.pattern.sparesWords = true ∧
      Settles rule.pattern.run (.feed :: fs) none := by
    intro rule hm
    have hmem : rule ∈ Rule.others p.top.kind := by
      rcases hk with hk | hk <;> rw [hk] <;>
        exact List.mem_append_left _ (List.mem_append_left _ hm)
    have hplain : Rule.before.all (fun r => r.pattern.sparesWords && r.pattern.inline) = true := by
      decide
    have := List.all_eq_true.mp hplain rule hm
    rw [Bool.and_eq_true] at this
    exact ⟨this.1, Rule.others_miss hlapses hmem this.2 fs⟩
  obtain ⟨hstep, hat⟩ := h.trying he (amid_of_lasts hends _)
  obtain ⟨rest, hrest⟩ := hrules
  obtain ⟨p₁, htry, hat₁, hstack₁, hagain₁⟩ := hat.tryRules he hbefore
  obtain ⟨hyes, hat₂⟩ := hat₁.accept_break hok
  have hstack₂ := accept_stack p₁ Rule.paragraphBreak.pattern
  have hagain₂ := accept_again p₁ Rule.paragraphBreak.pattern
  have hfollow : p.step = (p₁.accept Rule.paragraphBreak.pattern).2.pop := by
    have hpop : Rule.paragraphBreak.ends = true := rfl
    rw [hstep, attempt, hrest, tryRules_append htry, tryRules_of_hit hyes, follow_ends _ hpop]
    rfl
  generalize (p₁.accept Rule.paragraphBreak.pattern).2 = p₂ at hat₂ hstack₂ hagain₂ hfollow
  have hall : p₂.stack = p.stack := hstack₂.trans (hstack₁.trans (trying_stack p))
  rw [hfollow]
  refine ⟨⟨?_, ?_, ?_⟩, ?_, ?_⟩
  · rw [pop_stream]
    exact hat₂.shows
  · rw [pop_stream]
    exact hat₂.fresh
  · rw [pop_stream]
    exact hat₂.spared
  · rw [pop_kinds, pop_kinds, kinds, kinds, hall]
  · rw [pop_again]
    exact hagain₂.trans (hagain₁.trans (trying_still hc))

/-- Both are at the end of the line, within the same constructs. -/
structure Through (after : List Face) (p q : Parser) : Prop where
  near : At after p
  ended : Shows [] q.stream
  kinds : p.kinds = q.kinds
  calm : Calm p

theorem Abreast.through (h : Abreast fs after [] p q) (hc : Calm p) (hin : ∀ x ∈ fs, x ≠ .feed)
    (hs : Steady limit start pos q) :
    ∃ k, Through after (Parser.step^[k] p) (Parser.step^[k] q) := by
  obtain ⟨k, hend, hcalm⟩ := h.run hc hin hs
  exact ⟨k, hend.near, hend.far.shows, hend.peers.kinds, hcalm⟩

theorem sign_missed (h : p.beginsEntry = false) {sign : Rule} (hm : sign ∈ Rule.signs p.top.kind) :
    ((Rule.start false sign.pattern).run p.stream).1 = false :=
  Bool.eq_false_iff.mpr (List.any_eq_false.mp h sign hm)

theorem sign_settles (h : (ofText line carried).beginsEntry = false) {sign : Rule}
    (hm : sign ∈ Rule.signs (ofText line carried).top.kind) :
    Settles (Rule.start false sign.pattern).run (.feed :: faces line) none := by
  obtain ⟨reach, hs⟩ :=
    Rule.start_settles_any (Rule.signs_inline _ sign hm) false .feed (faces line)
  have hrun := (hs.outcome [] _ edge_nil (ofText_at line carried).shows).1
  rw [sign_missed h hm] at hrun
  obtain rfl : reach = none := by simpa using hrun
  exact hs

section Line

variable (hline : ∀ c ∈ line, Text.isLineEnd c = false) (edge : Edge after)
  (kinds : p.kinds = (ofText line carried).kinds) (calm : Calm p)
include hline

theorem breaksOff_true (h : (ofText line carried).breaksOff = true) :
    ((ofText line carried).top.kind = .emphasis ∨ (ofText line carried).top.kind = .strong) ∧
      ∀ after s, Edge after → Shows (.feed :: faces line ++ after) s →
        (Rule.paragraphBreak.pattern.run s).1 = true ∧
        (Rule.paragraphBreak.pattern.run s).2.position =
          s.position + ((faces line).length + 2) := by
  simp only [breaksOff, Bool.and_eq_true, Bool.or_eq_true, decide_eq_true_eq] at h
  obtain ⟨ok, hok⟩ := Rule.break_run (faces line) (Token.faces_inner hline)
  have htrue := (hok [] _ edge_nil (ofText_at line carried).shows).1
  obtain rfl : true = ok := h.2.symm.trans htrue
  exact ⟨h.1, fun after s he hs => ⟨(hok after s he hs).1, (hok after s he hs).2 rfl⟩⟩

theorem breaksOff_false (h : (ofText line carried).breaksOff = false)
    (hends : (ofText line carried).top.kind.endsWithLine = false)
    (hm : Rule.paragraphBreak ∈ Rule.others (ofText line carried).top.kind) :
    Settles Rule.paragraphBreak.pattern.run (.feed :: faces line) none := by
  obtain ⟨ok, hok⟩ := Rule.break_run (faces line) (Token.faces_inner hline)
  have hrun := (hok [] _ edge_nil (ofText_at line carried).shows).1
  have hfalse : (Rule.paragraphBreak.pattern.run (ofText line carried).stream).1 = false := by
    rcases Rule.break_mem hm hends with hk | hk <;> simpa [breaksOff, hk] using h
  obtain rfl : ok = false := hrun.symm.trans hfalse
  exact .never (fun after s he hs => (hok after s he hs).1)

theorem inner_ne_feed : ∀ x ∈ faces line, x ≠ .feed := by
  rintro x hx rfl
  exact (Token.faces_inner hline .feed hx).1 rfl

include edge kinds calm

/-- An empty line that ends emphasis, for a parser that has yet to take the end of the line
before. -/
theorem line_broken (hbreak : (ofText line carried).breaksOff = true)
    (near : At (.feed :: faces line ++ after) p) :
    Shows [] (ofText line carried).step.stream ∧ p.step.kinds = (ofText line carried).step.kinds ∧
      At (after.drop 1) p.step ∧ p.step.atContentStart = false := by
  obtain ⟨hk, hok⟩ := breaksOff_true hline hbreak
  have htop : p.top.kind = (ofText line carried).top.kind := by rw [top_kind, top_kind, kinds]
  obtain ⟨hat, hkinds, hagain⟩ :=
    break_step near edge calm (by rwa [htop]) (fun s hs => hok after s edge hs)
  obtain ⟨hat', hkinds', _⟩ := break_step (ofText_at line carried) edge_nil (calm_of_still rfl) hk
    (fun s hs => hok [] s edge_nil hs)
  refine ⟨hat'.shows, ?_, hat, hagain⟩
  rw [hkinds, hkinds', pop_kinds, pop_kinds, kinds]

variable (hbreak : (ofText line carried).breaksOff = false)
  (hlapses : (ofText line carried).top.kind.lapses = false)
  (hends : (ofText line carried).top.kind.endsWithLine = false)
include hbreak hlapses hends

/-- A line for a parser that has yet to take the end of the line before. -/
theorem line_fresh (near : At (.feed :: faces line ++ after) p) :
    ∃ k k', Through after (Parser.step^[k] p) (Parser.step^[k'] (ofText line carried)) := by
  let q := ofText line carried
  have htop : p.top.kind = q.top.kind := by rw [top_kind, top_kind, kinds]
  have hagree := Rule.within_agree_feed p.atContentStart q.atContentStart
    hlapses hends (breaksOff_false hline hbreak hends)
  have hfirst : ∃ n, Abreast ((faces line).drop n) after [] p.step q.step ∧ Calm p.step := by
    rcases round_agree [] 1 near (ofText_at line carried) edge edge_nil kinds calm
        (calm_of_still rfl) (amid_of_lasts (htop ▸ hends) _) (amid_of_lasts hends _)
        (by rw [htop]; exact hagree) with
      ⟨n, hlow, hend, hcalm⟩ | ⟨p', q', hp, hq, hbehind, hagain, _⟩
    · obtain ⟨n, rfl⟩ := Nat.exists_eq_add_of_le' hlow
      exact ⟨n, hend, hcalm⟩
    · obtain ⟨hnear, hfar, _, _, hpeers⟩ := hbehind
      rw [hp, hq]
      exact ⟨0, ⟨hnear.takeLoose p.top, hfar.takeLoose q.top, edge, edge_nil, hpeers.kinds,
        hpeers.again⟩, calm_of_still hagain⟩
  obtain ⟨n, habreast, hcalm⟩ := hfirst
  obtain ⟨pos, _, hsteady⟩ := step_steady (ofText_steady line carried)
  obtain ⟨k, hk⟩ := habreast.through hcalm
    (fun x hx => inner_ne_feed hline x (List.mem_of_mem_drop hx)) hsteady
  exact ⟨k + 1, k + 1, hk⟩

omit edge kinds calm

/-- Without a sign at its start, the first round of a line takes nothing but the start. -/
theorem first_step_loose (hentry : (ofText line carried).beginsEntry = false) :
    At (faces line ++ []) (ofText line carried).step ∧
      (ofText line carried).step.kinds = (ofText line carried).kinds ∧
      (ofText line carried).step.atContentStart = false := by
  let q := ofText line carried
  have hat := ofText_at line carried
  obtain ⟨hstep, htrying⟩ := hat.trying edge_nil (amid_of_lasts hends _)
  have hmiss : ∀ rule ∈ Rule.within q.top.kind q.atContentStart,
      rule.pattern.sparesWords = true ∧ Settles rule.pattern.run (.feed :: faces line) none := by
    intro rule hm
    rw [Rule.within_split] at hm
    rcases List.mem_append.mp hm with hm | hm
    · have hr := Rule.others_regular q.top.kind rule hm
      simp only [Rule.regular, Bool.and_eq_true] at hr
      refine ⟨hr.1.1.1, ?_⟩
      rcases Rule.others_inline q.top.kind rule hm with hi | rfl
      · exact Rule.others_miss hlapses hm hi (faces line)
      · exact breaksOff_false hline hbreak hends hm
    · obtain ⟨sign, hsign, rfl⟩ := List.mem_map.mp hm
      exact ⟨(Rule.signs_regular q.top.kind false sign hsign).1, sign_settles hentry hsign⟩
  obtain ⟨q', htry, hat', hstack, hagain⟩ := htrying.tryRules edge_nil hmiss
  have hfirst : q.step = q'.takeLoose q.top := by
    rw [hstep, attempt, htry]
    rfl
  have hkinds : q'.kinds = q.kinds := by rw [Parser.kinds, Parser.kinds, hstack, trying_stack]
  have hstill : q'.atContentStart = false := hagain.trans (trying_still (calm_of_still rfl))
  exact ⟨hfirst ▸ hat'.takeLoose q.top, hfirst ▸ hkinds, hfirst ▸ hstill⟩

include edge kinds calm

/-- A line that begins with a sign, for a parser that knows that a line starts. -/
theorem line_entry (near : At (faces line ++ after) p)
    (hentry : (ofText line carried).beginsEntry = true) (hagain : p.atContentStart = true) :
    ∃ k k', Through after (Parser.step^[k] p) (Parser.step^[k'] (ofText line carried)) := by
  let q := ofText line carried
  have htop : p.top.kind = q.top.kind := by rw [top_kind, top_kind, kinds]
  have hat := ofText_at line carried
  have hinner := inner_ne_feed hline
  obtain ⟨sign, hm, hrun⟩ := List.any_eq_true.mp hentry
  cases hfaces : faces line with
  | nil =>
    rw [hfaces] at hat
    obtain ⟨hi, hp, ht⟩ := Rule.signs_take q.top.kind sign hm
    have := ((Rule.start_settles_empty hi hp ht).outcome [] _ edge_nil hat.shows).1
    exact absurd (hrun.symm.trans this) (by simp)
  | cons x fs =>
    have hb := breaksOff_false hline hbreak hends
    rw [hfaces] at hat hb near hinner
    have hx := hinner x List.mem_cons_self
    obtain ⟨reach, hlate, hearly⟩ := Rule.start_settles_late (Rule.signs_inline _ sign hm) hx fs
    have hsome : true = reach.isSome := by
      have := (hearly.outcome [] _ edge_nil hat.shows).1
      rw [Option.isSome_map] at this
      exact hrun.symm.trans this
    have hnext := (hat.shows.keeps (.fetch q.stream) (fetch_position q.stream)).1
    have hrun' := (hlate.outcome [] _ edge_nil hnext).1.trans hsome.symm
    rw [List.append_nil, List.drop_succ_cons, List.drop_zero] at hnext
    have hagree := Rule.within_agree_late hlapses hends hb hx hm hnext hrun'
    rcases round_agree [.feed] 0 near hat edge edge_nil kinds calm
        (calm_of_still rfl) (amid_of_lasts (htop ▸ hends) _) (amid_of_lasts hends _)
        (by rw [htop, hagain]; exact hagree) with
      ⟨n, _, habreast, hcalm⟩ | ⟨_, _, _, _, _, _, hnone⟩
    · obtain ⟨pos, _, hsteady⟩ := step_steady (ofText_steady line carried)
      obtain ⟨k, hk⟩ := habreast.through hcalm
        (fun y hy => hinner y (List.mem_of_mem_drop hy)) hsteady
      exact ⟨k + 1, k + 1, hk⟩
    · have hmem : Rule.atStart true sign ∈ Rule.within p.top.kind p.atContentStart := by
        rw [htop, hagain, Rule.within_split]
        exact List.mem_append_right _ (List.mem_map_of_mem hm)
      rw [hnone _ hmem reach hlate] at hsome
      cases hsome

/-- A line for a parser that has taken the end of the line before. It has to know that a line starts
if there is a sign at its start. -/
theorem line_late (near : At (faces line ++ after) p)
    (hentry : (ofText line carried).beginsEntry = true → p.atContentStart = true) :
    ∃ k k', Through after (Parser.step^[k] p) (Parser.step^[k'] (ofText line carried)) := by
  have hinner := inner_ne_feed hline
  cases hentry' : (ofText line carried).beginsEntry with
  | true =>
    exact line_entry hline edge kinds calm hbreak hlapses hends near hentry' (hentry hentry')
  | false =>
    obtain ⟨far, hkinds, hstill⟩ := first_step_loose hline hbreak hlapses hends hentry'
    obtain ⟨pos, _, hsteady⟩ := step_steady (ofText_steady line carried)
    cases hfaces : faces line with
    | nil =>
      rw [hfaces] at near far
      exact ⟨0, 1, near, far.shows, kinds.trans hkinds.symm, calm⟩
    | cons x fs =>
      have hat := ofText_at line carried
      rw [hfaces] at near far hat hinner
      have hx := hinner x List.mem_cons_self
      have hsigns : ∀ sign ∈ Rule.signs p.top.kind,
          Settles (Rule.start true sign.pattern).run (x :: fs) none := by
        intro sign hm
        rw [top_kind, kinds, ← top_kind] at hm
        obtain ⟨reach, hlate, hearly⟩ :=
          Rule.start_settles_late (Rule.signs_inline _ sign hm) hx fs
        have hrun := (hearly.outcome [] _ edge_nil hat.shows).1
        rw [sign_missed hentry' hm] at hrun
        obtain rfl : reach = none := by simpa using hrun
        exact hlate
      obtain ⟨n, habreast, hcalm⟩ := round_inner near far edge edge_nil (kinds.trans hkinds.symm)
        calm (calm_of_still hstill) hx (.inr hsigns)
      obtain ⟨pos', _, hsteady'⟩ := step_steady hsteady
      obtain ⟨k, hk⟩ := habreast.through hcalm
        (fun y hy => hinner y (List.mem_of_mem_drop hy)) hsteady'
      exact ⟨k + 1, k + 2, hk⟩

end Line

end Parser

end LineMarkup
