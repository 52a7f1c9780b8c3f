import LineMarkup.Proofs.Parser.Agreement
import LineMarkup.Proofs.Parser.Course
import LineMarkup.Proofs.Parser.Lapse

namespace LineMarkup

open Token (Face)
open Token.Stream
open Matcher (Settles)

namespace Parser

variable {p q : Parser} {fs after after' : List Face} {x : Face}

theorem Abreast.calm (h : Abreast fs after after' p q) (hc : Calm p) : Calm q := by
  intro ha
  rw [← h.peers.top]
  exact hc (h.peers.again.trans ha)

/-- A round within a line. -/
theorem round_inner (near : At (x :: fs ++ after) p) (far : At (x :: fs ++ after') q)
    (edge : Edge after) (edge' : Edge after') (kinds : p.kinds = q.kinds)
    (calm : Calm p) (calm' : Calm q) (hx : x ≠ .feed)
    (ha : p.atContentStart = q.atContentStart ∨
      ∀ sign ∈ Rule.signs p.top.kind, Settles (Rule.start true sign.pattern).run (x :: fs) none) :
    ∃ n, Abreast ((x :: fs).drop n) after after' p.step q.step ∧ Calm p.step := by
  have htop : q.top.kind = p.top.kind := by rw [top_kind, top_kind, kinds]
  have hamid (r : Parser) : Amid (x :: fs) r := fun _ => ⟨x, fs, rfl, hx⟩
  have hagree : List.Forall₂ (Rule.Agree p.top.kind 0 [] (x :: fs))
      (Rule.within p.top.kind p.atContentStart) (Rule.within p.top.kind q.atContentStart) :=
    Rule.within_agree_inner hx (fun hc => (calm hc).2) ha
  rw [← htop] at hagree
  rcases round_agree [] 0 near far edge edge' kinds calm calm' (hamid p)
      (hamid q) (by rwa [← htop]) with
    ⟨n, _, hend, hcalm⟩ | ⟨p', q', hp, hq, hbehind, hagain, _⟩
  · exact ⟨n, hend, hcalm⟩
  · obtain ⟨hnear, hfar, _, _, hpeers⟩ := hbehind
    rw [hp, hq]
    exact ⟨1, ⟨hnear.takeLoose p.top, hfar.takeLoose q.top, edge, edge', hpeers.kinds,
      hpeers.again⟩, calm_of_still hagain⟩

/-- Side by side to the end of the line. -/
theorem Abreast.run (h : Abreast fs after after' p q) (hc : Calm p) (hin : ∀ x ∈ fs, x ≠ .feed)
    (hs : Steady limit start pos q) :
    ∃ k, Abreast [] after after' (Parser.step^[k] p) (Parser.step^[k] q) ∧
      Calm (Parser.step^[k] p) := by
  induction hw : q.weight using Nat.strongRecOn generalizing fs p q pos with
  | ind w ih =>
    cases fs with
    | nil => exact ⟨0, h, hc⟩
    | cons x fs =>
      obtain ⟨hx, _⟩ := List.forall_mem_cons.mp hin
      obtain ⟨n, hnext, hcalm⟩ := round_inner h.near h.far h.edge h.edge' h.peers.kinds hc
        (h.calm hc) hx (.inl h.peers.again)
      have hend : q.stream.atEnd = false := by
        apply Bool.eq_false_iff.mpr
        intro hend
        obtain ⟨n, hn⟩ := h.far.shows.faces
        rw [atEnd_iff.mp hend] at hn
        cases hn
      obtain ⟨pos', _, hsteady⟩ := step_steady hs
      obtain ⟨k, hk⟩ := ih _ (hw ▸ step_weight hs hend) hnext hcalm
        (fun y hy => hin y (List.mem_of_mem_drop hy)) hsteady rfl
      exact ⟨k + 1, hk⟩

end Parser

namespace Matcher

/-- There is no match at the end of a text. -/
def awaits : Matcher → Bool
  | .kind k => k != .textEnd
  | .symbol _ | .keyword _ => true
  | .symbols text => !text.isEmpty
  | .test outcome => !outcome
  | .seq first second => first.awaits || second.awaits
  | .alt first second => first.awaits && second.awaits
  | .optional _ => false
  | .many1 body | .look body | .discard body => body.awaits

variable {m : Matcher} {s : Token.Stream}

theorem fetch_of_ended (hs : Shows [] s) : s.fetch.1.kind = .textEnd := by
  obtain ⟨n, hn⟩ := hs.faces
  have hface : s.fetch.1.face = .ending := by
    cases ha : ahead s with
    | nil =>
      rw [(fetch_of_end ha).1]
      rfl
    | cons t rest =>
      rw [(fetch_of_ahead ha).1]
      rw [ha, List.map_cons, List.nil_append] at hn
      exact List.eq_of_mem_replicate (hn ▸ List.mem_cons_self)
  unfold Token.face at hface
  split at hface
  · cases hface
  · exact (Prod.mk.inj hface).1

theorem ended_keeps (hs : Shows [] s) (h : Returns s outcome) : Shows [] outcome.2 := by
  have hposition : outcome.2.position = s.position + (outcome.2.position - s.position) := by
    have := h.forward
    omega
  have := (hs.keeps h.keeps hposition).1
  rwa [List.drop_nil] at this

theorem awaits_run (hm : m.awaits = true) (hs : Shows [] s) : (m.run s).1 = false := by
  induction m generalizing s with
  | kind k =>
    have hk : k ≠ .textEnd := by simpa [awaits] using hm
    simp [run, one, fetch_of_ended hs, hk.symm]
  | symbol c => simp [run, one, Token.isSymbol, fetch_of_ended hs]
  | symbols text =>
    cases text with
    | nil => cases hm
    | cons c text => simp [run, spell, Token.isSymbol, fetch_of_ended hs]
  | keyword words => simp [run, word, repeated1, one, fetch_of_ended hs]
  | test outcome => simpa [awaits, run] using hm
  | seq first second ih ih' =>
    have hr := ended_keeps hs (first.run_returns s)
    simp only [awaits, Bool.or_eq_true] at hm
    simp only [run]
    split <;> rename_i hrun <;> rw [hrun] at hr
    rcases hm with hm | hm
    · have := ih hm hs
      rw [hrun] at this
      cases this
    · have := ih' hm hr
      split <;> rename_i hrun' <;> rw [hrun'] at this
      cases this
  | alt first second ih ih' =>
    simp only [awaits, Bool.and_eq_true] at hm
    have hr := ended_keeps hs (first.run_returns s)
    have hf := ih hm.1 hs
    simp only [run]
    split <;> rename_i hrun <;> rw [hrun] at hr hf
    · cases hf
    · exact ih' hm.2 hr
  | optional => cases hm
  | many1 body ih =>
    have := ih hm hs
    simp only [run, repeated1]
    split <;> rename_i hrun <;> rw [hrun] at this
    cases this
  | look body ih => exact ih hm hs
  | discard body ih =>
    have := ih hm hs
    simp only [run]
    split <;> rename_i hrun <;> rw [hrun] at this
    cases this

end Matcher

namespace Rule

/-- Nothing but a chain can end with the text. -/
theorem within_awaits (inside : Construct) (acs : Bool)
    (hl : inside.lapses = true → inside.endsWithLine = true) :
    ∀ rule ∈ within inside acs, rule.pattern.awaits = true := by
  apply List.all_eq_true.mp
  cases inside <;> first | (cases acs <;> decide) | exact absurd (hl rfl) (by decide)

end Rule

namespace Parser

variable {p : Parser}

theorem accept_ended {m : Matcher} (hm : m.awaits = true) (hs : Shows [] p.stream) :
    (p.accept m).1 = false ∧ Shows [] (p.accept m).2.stream := by
  have hok := Matcher.awaits_run hm hs
  have hshows := Matcher.ended_keeps hs (m.run_returns p.stream)
  simp only [accept]
  split <;> rename_i hrun <;> rw [hrun] at hok hshows
  · cases hok
  · exact ⟨rfl, hshows⟩

theorem tryRules_ended {rules : List Rule} (hr : ∀ rule ∈ rules, rule.pattern.awaits = true)
    (hs : Shows [] p.stream) :
    ∃ p', p.tryRules rules = (false, p') ∧ p'.stack = p.stack ∧ Shows [] p'.stream := by
  induction rules generalizing p with
  | nil => exact ⟨p, rfl, rfl, hs⟩
  | cons rule rules ih =>
    obtain ⟨hrule, hrules⟩ := List.forall_mem_cons.mp hr
    obtain ⟨hok, hshows⟩ := accept_ended hrule hs
    obtain ⟨p₂, htry, hsame, hend⟩ := ih hrules hshows
    exact ⟨p₂, (tryRules_of_miss hok rules).trans htry, hsame.trans (accept_stack p _), hend⟩

/-- At the end of a text rounds change nothing. -/
theorem step_ended (hs : Shows [] p.stream)
    (hl : p.top.kind.lapses = true → p.top.kind.endsWithLine = true) :
    p.step.stack = p.stack ∧ Shows [] p.step.stream := by
  obtain ⟨hok, hline⟩ := accept_ended (m := .kind .lineEnd) rfl hs
  have htrying : Shows [] p.trying.stream := by
    simp only [trying]
    split
    · exact hline
    · exact hs
  obtain ⟨p', htry, hstack, hend⟩ :=
    tryRules_ended (Rule.within_awaits p.top.kind p.atContentStart hl) htrying
  rw [step_of_goesOn (fun _ => hok), attempt, htry]
  refine ⟨hstack.trans (trying_stack p), ?_⟩
  have hnext := (hend.keeps (.fetch p'.stream) (fetch_position p'.stream)).1
  exact ⟨hnext.faces, hnext.begun⟩

theorem Alert.lapses (h : Alert p) (hs : Shows [] p.stream) (hl : p.top.kind.lapses = true) :
    p.top.kind.endsWithLine = true := by
  rcases h.next hl with hends | ⟨t, rest, hahead, hk⟩
  · exact hends
  · have := Matcher.fetch_of_ended hs
    rw [(fetch_of_ahead hahead).1, hk] at this
    cases this

theorem iterate_ended (h : Steady limit start pos p) (ha : Alert p) (hs : Shows [] p.stream)
    (n : Nat) : (Parser.step^[n] p).stack = p.stack := by
  induction n generalizing pos p with
  | zero => rfl
  | succ n ih =>
    obtain ⟨pos', _, hsteady⟩ := step_steady h
    obtain ⟨hstack, hend⟩ := step_ended hs (ha.lapses hs)
    exact (ih hsteady (step_alert h ha) hend).trans hstack

end Parser

end LineMarkup
