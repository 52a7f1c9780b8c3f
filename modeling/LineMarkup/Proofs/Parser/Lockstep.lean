import LineMarkup.Parser.Run
import LineMarkup.Proofs.Parser.Action
import LineMarkup.Proofs.Parser.Starting

namespace LineMarkup

open Token (Stream Face)
open Token.Stream
open Matcher (Settles)

/-- No word is marked as discarded. -/
def Token.Stream.Spared (s : Stream) : Prop :=
  ∀ t ∈ ahead s, t.kind = .word → t.discarded = false

namespace Matcher

/-- No word is discarded. -/
def sparesWords : Matcher → Bool
  | .seq (.discard lead) rest => lead.plain && lead.only (· != .word) && rest.plain
  | m => m.plain

variable {s s' : Stream} {m : Matcher} {new : List Token} {q : TokenKind → Bool}

theorem spared_of_reads (hr : Reads q s new s') (h : Spared s) :
    (∀ t ∈ new, t.kind = .word → t.discarded = false) ∧ Spared s' := by
  obtain ⟨n, hn⟩ := hr.ahead_eq
  have hall : ∀ t ∈ new ++ ahead s', t.kind = .word → t.discarded = false := by
    intro t ht hk
    rw [hn] at ht
    rcases List.mem_append.mp ht with ht | ht
    · exact h t ht hk
    · rw [List.eq_of_mem_replicate ht] at hk
      cases hk
  exact ⟨fun t ht => hall t (List.mem_append_left _ ht),
    fun t ht => hall t (List.mem_append_right _ ht)⟩

theorem run_spared (hm : m.sparesWords = true) (hc : s.consumed = []) (h : Spared s) :
    Spared (m.run s).2 := by
  unfold sparesWords at hm
  split at hm
  · rename_i lead rest
    simp only [Bool.and_eq_true] at hm
    obtain ⟨⟨hl, ho⟩, hr⟩ := hm
    obtain ⟨a, ha, _, _⟩ := run_outcome hl ho s
    rcases hlead : lead.run s with ⟨ok, s₁⟩
    rw [hlead] at ha
    obtain ⟨_, hs₁⟩ := spared_of_reads ha h
    cases ok with
    | false => simpa only [run, hlead] using hs₁
    | true =>
      obtain ⟨b, hb, _, _⟩ := run_outcome hr (only_all rest) s₁.discard
      rcases hrest : rest.run s₁.discard with ⟨ok, s₂⟩
      rw [hrest] at hb
      obtain ⟨hnew, hs₂⟩ := spared_of_reads hb hs₁
      cases ok with
      | true => simpa only [run, hlead, hrest] using hs₂
      | false =>
        have hconsumed : s₂.consumed = (a.map Token.discard ++ b).reverse ++ s.consumed := by
          have hread : s₁.consumed = a.reverse := by
            have := ha.consumed
            rwa [hc, List.append_nil] at this
          rw [hb.consumed, hc]
          simp [Stream.discard, hread]
        intro t ht hk
        simp only [run, hlead, hrest] at ht
        rw [(rewind_over hconsumed).2.1] at ht
        simp only [List.mem_append, List.mem_map] at ht
        rcases ht with (⟨t, ht, rfl⟩ | ht) | ht
        · have := ha.kinds t ht
          rw [Token.discard_kind] at hk
          simp [hk] at this
        · exact hnew t ht hk
        · exact hs₂ t ht hk
  · obtain ⟨new, hr, _, _⟩ := run_outcome hm (only_all m) s
    exact (spared_of_reads hr h).2

/-- What comes before a look ahead. -/
def beforeLook : Matcher → Matcher
  | .seq first (.look _) => first
  | m => m

/-- Words are taken and nothing else. -/
def takesWords (m : Matcher) : Bool :=
  m.plain && m.beforeLook.only (· == .word) && m.beforeLook.takes (fun _ => true)

theorem beforeLook_run (hr : m.run s = (true, s')) :
    ∃ s₁, m.beforeLook.run s = (true, s₁) ∧ s'.position = s₁.position := by
  unfold beforeLook
  split
  · rename_i first body
    rcases hrun : first.run s with ⟨ok, s₁⟩
    cases ok with
    | false => simp [run, hrun] at hr
    | true =>
      refine ⟨s₁, rfl, ?_⟩
      obtain ⟨hok, hmoved⟩ := seq_run (.look body) hrun
      rw [hr] at hok hmoved
      have hlook : s' = ((Matcher.look body).run s₁).2 := hmoved hok.symm
      rw [hlook]
      exact rewind_position (body.run_returns s₁).forward
  · exact ⟨s', hr, rfl⟩

/-- The tokens of a match of words. -/
theorem words_of_run (hm : m.takesWords = true) (hs : Shows fs s) (hr : m.run s = (true, s'))
    (hn : s'.position = s.position + n) (hle : n ≤ fs.length) :
    ∃ new, Reads (fun _ => true) s new s' ∧ new ≠ [] ∧ (∀ t ∈ new, t.kind = .word) ∧
      new.map Token.face = fs.take n := by
  simp only [takesWords, Bool.and_eq_true] at hm
  obtain ⟨⟨hp, hw⟩, ht⟩ := hm
  have hpl : m.beforeLook.plain = true := by
    unfold beforeLook
    split
    · simp only [plain, Bool.and_eq_true] at hp
      exact hp.1
    · exact hp
  obtain ⟨s₁, hbefore, hposition⟩ := beforeLook_run hr
  obtain ⟨new, hnew, _, _⟩ := run_outcome hp (only_all m) s
  obtain ⟨words, hwords, _, htakes⟩ := run_outcome hpl hw s
  have hkeeps := (m.run_returns s).keeps
  have hkeeps₁ := (m.beforeLook.run_returns s).keeps
  rw [hr] at hnew hkeeps
  rw [hbefore] at hwords htakes hkeeps₁
  obtain ⟨t, hmem, _⟩ := htakes _ ht rfl
  have hfaces := hs.taken hkeeps hn hle
  have hfaces₁ := hs.taken hkeeps₁ (hposition.symm.trans hn) hle
  rw [hnew.takenSince_eq] at hfaces
  rw [hwords.takenSince_eq] at hfaces₁
  have hsame := hfaces.trans hfaces₁.symm
  refine ⟨new, hnew, ?_, fun t ht => ?_, hfaces⟩
  · intro hnil
    rw [hnil, List.map_nil] at hsame
    exact List.ne_nil_of_mem hmem (List.map_eq_nil_iff.mp hsame.symm)
  · have hface := List.mem_map_of_mem (f := Token.face) ht
    rw [hsame] at hface
    obtain ⟨word, hword, heq⟩ := List.mem_map.mp hface
    have hk : word.kind = .word := by simpa using hwords.kinds word hword
    rw [face_of_inner (by rw [hk]; rfl), hk] at heq
    unfold Token.face at heq
    split at heq
    · cases heq
    · exact (Prod.mk.inj heq).1.symm

end Matcher

namespace Parser

/-- The parser between two matches, with what is ahead of it. -/
structure At (fs : List Face) (p : Parser) : Prop where
  shows : Shows fs p.stream
  fresh : p.stream.consumed = []
  spared : Spared p.stream

/-- The constructs that are open, the innermost first. -/
def kinds (p : Parser) : List Construct :=
  p.stack.map Frame.kind

/-- The same constructs are open. -/
structure Peers (p q : Parser) : Prop where
  kinds : p.kinds = q.kinds
  again : p.atContentStart = q.atContentStart

variable {p p' q : Parser} {m : Matcher} {fs after after' : List Face} {reach : Option Nat}

theorem accept_stack (p : Parser) (m : Matcher) : (p.accept m).2.stack = p.stack := by
  simp only [accept]
  split <;> rfl

theorem accept_again (p : Parser) (m : Matcher) :
    (p.accept m).2.atContentStart = p.atContentStart := by
  simp only [accept]
  split <;> rfl

theorem tryRules_of_hit {rule : Rule} (h : (p.accept rule.pattern).1 = true) (rules : List Rule) :
    p.tryRules (rule :: rules) = (true, (p.accept rule.pattern).2.follow rule) := by
  simp only [tryRules]
  split <;> rename_i hacc <;> rw [hacc] at h ⊢
  cases h

theorem tryRules_of_miss {rule : Rule} (h : (p.accept rule.pattern).1 = false) (rules : List Rule) :
    p.tryRules (rule :: rules) = (p.accept rule.pattern).2.tryRules rules := by
  simp only [tryRules]
  split <;> rename_i hacc <;> rw [hacc] at h ⊢
  cases h

theorem At.accept (h : At (fs ++ after) p) (he : Edge after) (hs : Settles m.run fs reach)
    (hm : m.sparesWords = true) : (p.accept m).1 = reach.isSome ∧
      At (fs.drop (reach.getD 0) ++ after) (p.accept m).2 := by
  have hspared := Matcher.run_spared hm h.fresh h.spared
  rcases hrun : m.run p.stream with ⟨ok, s⟩
  rw [hrun] at hspared
  cases ok with
  | true =>
    obtain ⟨n, _, rfl, _, hshows, _⟩ := hs.hit m.run_returns he h.shows hrun
    simp only [Parser.accept, hrun]
    exact ⟨rfl, ⟨hshows.faces, hshows.begun⟩, rfl, hspared⟩
  | false =>
    obtain ⟨rfl, hposition, hshows⟩ := hs.miss m.run_returns he h.shows hrun
    simp only [Parser.accept, hrun]
    refine ⟨rfl, hshows, ?_, hspared⟩
    rw [position, position, h.fresh] at hposition
    exact List.length_eq_zero_iff.mp hposition

theorem cover_chars (mark : Mark) {tokens : List Token} (hn : tokens ≠ [])
    (hd : ∀ t ∈ tokens, t.discarded = false) :
    (mark.cover tokens).chars = (tokens.flatMap Token.text).length := by
  obtain ⟨first, rest, rfl⟩ := List.exists_cons_of_ne_nil hn
  have hdrop : (first :: rest).dropWhile Token.discarded = first :: rest :=
    List.dropWhile_cons_of_neg (by simp [hd first List.mem_cons_self])
  have hlast := List.getLast?_eq_some_getLast hn
  simp [Mark.cover, hdrop, hlast]

/-- The length of a match of words is that of the words. -/
theorem At.chars (h : At (fs ++ after) p) (he : Edge after) (hs : Settles m.run fs reach)
    (hm : m.takesWords = true) (hok : (p.accept m).1 = true) :
    (p.accept m).2.mark.chars = ((fs.take (reach.getD 0)).flatMap Prod.snd).length := by
  rcases hrun : m.run p.stream with ⟨ok, s⟩
  simp only [Parser.accept, hrun] at hok ⊢
  cases ok with
  | false => cases hok
  | true =>
    obtain ⟨n, hle, rfl, hposition, _⟩ := hs.hit m.run_returns he h.shows hrun
    have hwhole : n ≤ (fs ++ after).length := by
      rw [List.length_append]
      exact Nat.le_add_right_of_le hle
    obtain ⟨new, hnew, hn, hwords, hfaces⟩ := Matcher.words_of_run hm h.shows hrun hposition hwhole
    have hspared := (Matcher.spared_of_reads hnew h.spared).1
    have htaken : s.taken = new := by
      have := hnew.consumed
      rw [h.fresh, List.append_nil] at this
      rw [taken, this, List.reverse_reverse]
    rw [List.take_append_of_le_length hle] at hfaces
    dsimp only
    rw [htaken, cover_chars _ hn (fun t ht => hspared t ht (hwords t ht)),
      Matcher.words_text hwords, hfaces]
    rfl

theorem top_kind (p : Parser) : p.top.kind = p.kinds.headD .content := by
  simp only [top, kinds]
  cases p.stack <;> rfl

theorem pop_kinds (p : Parser) :
    p.pop.kinds = if p.kinds.tail = [] then p.kinds else p.kinds.tail := by
  rcases hs : p.stack with _ | ⟨frame, _ | ⟨below, rest⟩⟩ <;> simp [pop, kinds, hs]

theorem pop_again (p : Parser) : p.pop.atContentStart = p.atContentStart := by
  unfold pop
  split <;> rfl

namespace Peers

theorem top (h : Peers p q) : p.top.kind = q.top.kind := by
  rw [top_kind, top_kind, h.kinds]

theorem pop (h : Peers p q) : Peers p.pop q.pop := by
  refine ⟨?_, ?_⟩
  · rw [pop_kinds, pop_kinds, h.kinds]
  · rw [pop_again, pop_again, h.again]

theorem popWhile (h : Peers p q) (kind : Construct) (fuel : Nat) :
    Peers (popWhile kind fuel p) (popWhile kind fuel q) := by
  induction fuel generalizing p q with
  | zero => exact h
  | succ fuel ih =>
    simp only [Parser.popWhile, h.top]
    split
    · exact ih h.pop
    · exact h

theorem accept (h : Peers p q) (m m' : Matcher) : Peers (p.accept m).2 (q.accept m').2 := by
  refine ⟨?_, ?_⟩
  · simp only [Parser.kinds, accept_stack]
    exact h.kinds
  · simp only [accept_again, h.again]

theorem act (h : Peers p q) (action : Action) : Peers (p.act action) (q.act action) := by
  cases action with
  | push kind =>
    refine ⟨congrArg (kind :: ·) h.kinds, ?_⟩
    simp only [Parser.act, push, h.again]
  | pop => exact h.pop
  | instant => exact ⟨h.kinds, h.again⟩
  | startContent => exact ⟨h.kinds, rfl⟩
  | popMath =>
    have hlen : p.stack.length = q.stack.length := by
      simpa [Parser.kinds] using congrArg List.length h.kinds
    have hinner := h.popWhile .mathArguments q.stack.length
    simp only [Parser.act, popMath, hlen, hinner.top]
    split
    · exact hinner.pop
    · exact hinner

theorem perform (h : Peers p q) (actions : List Action) :
    Peers (p.perform actions) (q.perform actions) := by
  induction actions generalizing p q with
  | nil => exact h
  | cons action actions ih => exact ih (h.act action)

end Peers

/-- Two parsers within the same constructs, with the same ahead of them up to the end of the
line. -/
structure Abreast (fs after after' : List Face) (p q : Parser) : Prop where
  near : At (fs ++ after) p
  far : At (fs ++ after') q
  edge : Edge after
  edge' : Edge after'
  peers : Peers p q

end Parser

namespace Matcher

theorem sparesWords_of_plain {m : Matcher} (hm : m.plain = true) : m.sparesWords = true := by
  unfold sparesWords
  split
  · simp [plain] at hm
  · exact hm

end Matcher

namespace Rule

/-- What follows a match of this rule stays within the line. -/
def goesOn (rule : Rule) : Bool :=
  rule.continuations.all (fun next => next.pattern.plain && next.pattern.inline)

end Rule

namespace Parser

variable {p q : Parser} {m : Matcher} {fs after after' : List Face} {reach : Option Nat}

namespace Abreast

theorem accept (h : Abreast fs after after' p q) (hs : Settles m.run fs reach)
    (hm : m.sparesWords = true) :
    (p.accept m).1 = reach.isSome ∧ (q.accept m).1 = reach.isSome ∧
      Abreast (fs.drop (reach.getD 0)) after after' (p.accept m).2 (q.accept m).2 := by
  obtain ⟨hok, hnear⟩ := h.near.accept h.edge hs hm
  obtain ⟨hok', hfar⟩ := h.far.accept h.edge' hs hm
  exact ⟨hok, hok', hnear, hfar, h.edge, h.edge', h.peers.accept m m⟩

theorem perform (h : Abreast fs after after' p q) (actions : List Action) :
    Abreast fs after after' (p.perform actions) (q.perform actions) := by
  obtain ⟨⟨hs, hf, hw⟩, ⟨hs', hf', hw'⟩, he, he', hp⟩ := h
  refine ⟨⟨?_, ?_, ?_⟩, ⟨?_, ?_, ?_⟩, he, he', hp.perform actions⟩ <;> rwa [perform_stream]

theorem proceed (h : Abreast fs after after' p q) {next : List Continuation}
    (hn : next.all (fun next => next.pattern.plain && next.pattern.inline) = true)
    (otherwise : List Action) :
    ∃ n, Abreast (fs.drop n) after after' (p.proceed otherwise next)
      (q.proceed otherwise next) := by
  induction next generalizing p q with
  | nil => exact ⟨0, h.perform otherwise⟩
  | cons next rest ih =>
    simp only [List.all_cons, Bool.and_eq_true] at hn
    obtain ⟨⟨hp, hi⟩, hrest⟩ := hn
    simp only [Parser.proceed, h.peers.top]
    split
    · exact ih h hrest
    · obtain ⟨reach, hs⟩ := Matcher.inline_settles hi fs
      obtain ⟨hok, hok', hboth⟩ := h.accept hs (Matcher.sparesWords_of_plain hp)
      rcases hacc : p.accept next.pattern with ⟨ok, p'⟩
      rcases hacc' : q.accept next.pattern with ⟨ok', q'⟩
      rw [hacc] at hok hboth
      rw [hacc'] at hok' hboth
      obtain rfl : ok = ok' := hok.trans hok'.symm
      cases ok with
      | true => exact ⟨_, hboth.perform next.actions⟩
      | false =>
        obtain rfl : reach = none := Option.isNone_iff_eq_none.mp (by simpa using hok.symm)
        exact ih hboth hrest

theorem follow (h : Abreast fs after after' p q) {rule : Rule} (hr : rule.goesOn = true)
    (hc : rule.minLength = 0 ∨ p.mark.chars = q.mark.chars) :
    ∃ n, Abreast (fs.drop n) after after' (p.follow rule) (q.follow rule) := by
  have hshort : p.mark.chars < rule.minLength ↔ q.mark.chars < rule.minLength := by
    rcases hc with hc | hc <;> simp [hc]
  simp only [Parser.follow, hshort]
  split
  · exact ⟨0, h⟩
  · exact (h.perform rule.actions).proceed hr rule.otherwise

end Abreast

end Parser

end LineMarkup
