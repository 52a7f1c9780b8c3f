import LineMarkup.Matcher.Phrase
import LineMarkup.Proofs.Matcher.Taking

namespace LineMarkup.Matcher

open Token (Stream)
open Token.Stream

def notBegin : TokenKind → Bool
  | .begin => false
  | _ => true

def notEnd : TokenKind → Bool
  | .textEnd => false
  | _ => true

/-- Kinds of tokens with some text. -/
def solid : TokenKind → Bool
  | .begin | .textEnd => false
  | _ => true

/-- One token at most is taken. -/
def single : Matcher → Bool
  | .kind _ | .symbol _ | .test _ => true
  | .alt first second => first.single && second.single
  | _ => false

/-- One token at most is taken, then blanks. -/
def thenBlanks : Matcher → Bool
  | .seq first (.optional (.many1 (.kind .whitespace))) => first.single
  | m => m.single

/-- No end token is taken but as the last one. -/
def endsLast : Matcher → Bool
  | .seq first second => first.only notEnd && second.endsLast
  | .alt first second => first.endsLast && second.endsLast
  | .kind _ => true
  | m => m.only notEnd

/-- The shape of the patterns of all rules. -/
def tidy : Matcher → Bool
  | .seq (.discard lead) rest =>
    lead.plain && lead.thenBlanks && lead.only notEnd && rest.plain && rest.only notEnd
  | m => m.plain && m.endsLast

/-- The part of a pattern whose tokens count for the range of a match. -/
def counted : Matcher → Matcher
  | .seq (.discard _) rest => rest
  | m => m

/-- The range of a match is not empty. -/
def firm (m : Matcher) : Bool :=
  m.counted.only solid && m.counted.takes solid

theorem plain_of_single (h : single m = true) : m.plain = true := by
  induction m with
  | kind | symbol | test => rfl
  | alt first second ih ih' =>
    simp only [single, Bool.and_eq_true] at h
    simp [plain, ih h.1, ih' h.2]
  | _ => simp [single] at h

theorem only_all (m : Matcher) : m.only (fun _ => true) = true := by
  induction m <;> simp_all [only]

theorem single_length (h : single m = true) (hr : Reads q s new (m.run s).2) :
    new.length ≤ 1 := by
  have hone (p : Token → Bool) (s : Stream) : (one p s).2.position ≤ s.position + 1 := by
    rcases one_reads (q := fun _ => true) p (fun _ _ => rfl) s with ⟨_, hr⟩ | ⟨_, hr⟩ <;>
      simp [hr.position_eq]
  have hall : (m.run s).2.position ≤ s.position + 1 := by
    clear hr
    induction m generalizing s with
    | kind k => exact hone _ s
    | symbol c => exact hone _ s
    | test outcome => simp [run]
    | alt first second ih ih' =>
      simp only [single, Bool.and_eq_true] at h
      obtain ⟨new, hr, hf, _⟩ := run_outcome (plain_of_single h.1) (only_all first) s
      simp only [run]
      split
      · rename_i after he
        simpa [he] using ih (s := s) h.1
      · rename_i after he
        rw [he] at hr hf
        have hp := hr.position_eq
        rw [hf rfl] at hp
        have := ih' (s := after) h.2
        simp only [List.length_nil] at hp
        omega
    | _ => simp [single] at h
  have := hr.position_eq
  omega

theorem thenBlanks_tail (hp : plain m = true) (h : m.thenBlanks = true)
    (hr : Reads q s new (m.run s).2) (hs : (m.run s).1 = true) :
    ∀ t ∈ new.tail, t.kind = .whitespace := by
  have hsingle (hm : m.single = true) : ∀ t ∈ new.tail, t.kind = .whitespace := by
    have hl := single_length hm hr
    cases new with
    | nil => simp
    | cons t rest =>
      cases rest with
      | nil => simp
      | cons => simp at hl
  unfold thenBlanks at h
  split at h
  · rename_i first
    let blanks : Matcher := .optional (.many1 (.kind .whitespace))
    obtain ⟨a, ha, _, _⟩ := run_outcome (plain_of_single h) (only_all first) s
    rcases hf : run first s with ⟨ok, after⟩
    rw [hf] at ha
    cases ok with
    | false => simp [run, hf] at hs
    | true =>
      obtain ⟨b, hb, _, _⟩ := run_outcome (m := blanks) (q := (· == .whitespace)) rfl rfl after
      have hb' : Reads (fun _ => true) after b (run blanks after).2 := hb.mono (fun _ _ => rfl)
      have hall := ha.trans hb'
      have hrun : (run (.seq first blanks) s).2 = (run blanks after).2 := by
        simp only [run, hf]
        rfl
      rw [← hrun] at hall
      rw [hr.unique hall]
      have hl := single_length h (hf ▸ ha)
      have hblank : ∀ t ∈ b, t.kind = .whitespace := fun t ht => by simpa using hb.kinds t ht
      cases a with
      | nil => exact fun t ht => hblank t (List.mem_of_mem_tail ht)
      | cons t a =>
        cases a with
        | nil => exact hblank
        | cons => simp at hl
  · exact hsingle h

/-- A run that looks no farther than to the first end token. -/
structure EndsWell (m : Matcher) (s : Stream) (new : List Token) : Prop where
  reads : Reads (fun _ => true) s new (m.run s).2
  failure : (m.run s).1 = false → new = []
  ends : EndsOnce (ahead s) → EndsOnce (new ++ ahead (m.run s).2)

theorem endsWell_of_only (hp : plain m = true) (ho : m.only notEnd = true) (s : Stream) :
    ∃ new, EndsWell m s new ∧ ∀ t ∈ new, t.kind ≠ .textEnd := by
  obtain ⟨new, hr, hf, _⟩ := run_outcome hp ho s
  refine ⟨new, ⟨hr.mono (fun _ _ => rfl), hf, hr.endsOnce rfl⟩, fun t ht hk => ?_⟩
  have := hr.kinds t ht
  simp [hk, notEnd] at this

theorem endsWell_kind (k : TokenKind) (s : Stream) : ∃ new, EndsWell (.kind k) s new := by
  rcases one_reads (q := fun _ => true) (·.kind = k) (fun _ _ => rfl) s with ⟨ht, hr⟩ | ⟨hf, hr⟩
  · refine ⟨_, hr, by simp [run, ht], fun he => ?_⟩
    have hrun : (run (.kind k) s).2 = s.fetch.2 := (one_match ht).2
    exact hrun ▸ endsOnce_fetch he
  · refine ⟨[], hr, fun _ => rfl, fun he => ?_⟩
    have hrun : (run (.kind k) s).2 = s.fetch.2.rewind s.position := one_miss hf
    rw [hrun, (rewind_fetch s).2.1]
    exact endsOnce_fetch he

theorem endsWell_seq (ih : ∀ s, ∃ new, EndsWell first s new ∧ ∀ t ∈ new, t.kind ≠ .textEnd)
    (ih' : ∀ s, ∃ new, EndsWell second s new) (s : Stream) :
    ∃ new, EndsWell (.seq first second) s new := by
  obtain ⟨a, ⟨ha, hf, hea⟩, hk⟩ := ih s
  rcases h : run first s with ⟨ok, after⟩
  rw [h] at ha hf hea
  cases ok with
  | false =>
    have hrun : run (.seq first second) s = (false, after) := by simp [run, h]
    exact ⟨a, hrun ▸ ha, fun _ => hf rfl, hrun ▸ hea⟩
  | true =>
    obtain ⟨b, hb, _, heb⟩ := ih' after
    rcases h' : run second after with ⟨ok', after'⟩
    rw [h'] at hb heb
    have hall := ha.trans hb
    have hends (he : EndsOnce (ahead s)) : EndsOnce (a ++ b ++ ahead after') := by
      rw [List.append_assoc]
      exact EndsOnce.append hk (heb (hea he).right)
    cases ok' with
    | true =>
      have hrun : run (.seq first second) s = (true, after') := by simp [run, h, h']
      exact ⟨a ++ b, hrun ▸ hall, by simp [hrun], hrun ▸ hends⟩
    | false =>
      have hrun : run (.seq first second) s = (false, after'.rewind s.position) := by
        simp [run, h, h']
      refine ⟨[], hrun ▸ hall.back, fun _ => rfl, ?_⟩
      rw [hrun, (rewind_over hall.consumed).2.1]
      exact hends

theorem endsWell_alt (ih : ∀ s, ∃ new, EndsWell first s new)
    (ih' : ∀ s, ∃ new, EndsWell second s new) (s : Stream) :
    ∃ new, EndsWell (.alt first second) s new := by
  obtain ⟨a, ha, hf, hea⟩ := ih s
  rcases h : run first s with ⟨ok, after⟩
  rw [h] at ha hf hea
  cases ok with
  | true =>
    have hrun : run (.alt first second) s = (true, after) := by simp [run, h]
    exact ⟨a, hrun ▸ ha, by simp [hrun], hrun ▸ hea⟩
  | false =>
    obtain rfl : a = [] := hf rfl
    obtain ⟨b, hb, hfb, heb⟩ := ih' after
    have hrun : run (.alt first second) s = run second after := by simp [run, h]
    exact ⟨b, hrun ▸ ha.trans hb, by rwa [hrun], fun he => hrun ▸ heb (hea he)⟩

theorem run_endsWell (hp : plain m = true) (h : m.endsLast = true) (s : Stream) :
    ∃ new, EndsWell m s new := by
  induction m generalizing s with
  | kind k => exact endsWell_kind k s
  | seq first second _ ih =>
    simp only [plain, endsLast, Bool.and_eq_true] at hp h
    exact endsWell_seq (endsWell_of_only hp.1 h.1) (ih hp.2 h.2) s
  | alt first second ih ih' =>
    simp only [plain, endsLast, Bool.and_eq_true] at hp h
    exact endsWell_alt (ih hp.1 h.1) (ih' hp.2 h.2) s
  | _ => exact (endsWell_of_only hp h s).imp fun _ h => h.1

/-- A tidy pattern has matched: `lead` was discarded, `rest` counts. -/
structure Found (m : Matcher) (s s' : Stream) (lead rest : List Token) : Prop where
  taken : s'.taken = lead.map Token.discard ++ rest
  all : ∃ n, lead ++ rest ++ ahead s' = ahead s ++ List.replicate n (Token.ending s.stop)
  stop : s'.stop = s.stop
  blanks : ∀ t ∈ lead.tail, t.kind = .whitespace
  ends : EndsOnce (ahead s) → EndsOnce (lead ++ rest ++ ahead s')
  kinds : ∀ q, m.counted.only q = true → ∀ t ∈ rest, q t.kind = true
  takes : ∀ q, m.counted.takes q = true → ∃ t ∈ rest, q t.kind = true

/-- A tidy pattern has not matched, and has left the tokens `lead` marked. -/
structure Missed (s s' : Stream) (lead : List Token) : Prop where
  consumed : s'.consumed = []
  all : ∃ n rest, lead ++ rest = ahead s ++ List.replicate n (Token.ending s.stop) ∧
    ahead s' = lead.map Token.discard ++ rest
  stop : s'.stop = s.stop
  blanks : ∀ t ∈ lead.tail, t.kind = .whitespace
  ends : EndsOnce (ahead s) → EndsOnce (ahead s')

theorem counted_of_plain (h : plain m = true) : m.counted = m := by
  unfold counted
  split
  · simp [plain] at h
  · rfl

theorem run_plain (hp : plain m = true) (he : m.endsLast = true) (hs : s.consumed = []) :
    ((m.run s).1 = true ∧ ∃ rest, Found m s (m.run s).2 [] rest) ∨
      ((m.run s).1 = false ∧ Missed s (m.run s).2 []) := by
  obtain ⟨new, hr, hf, hends⟩ := run_endsWell hp he s
  cases hok : (m.run s).1 with
  | true =>
    refine .inl ⟨rfl, new, ?_, by simpa using hr.ahead_eq, hr.stop, by simp, hends, ?_, ?_⟩
    · simp [Stream.taken, hr.consumed, hs]
    · intro q hq
      rw [counted_of_plain hp] at hq
      obtain ⟨new', hr', _⟩ := run_outcome hp hq s
      exact hr'.unique hr ▸ hr'.kinds
    · intro q hq
      rw [counted_of_plain hp] at hq
      obtain ⟨new', hr', _, hs'⟩ := run_outcome hp (only_all m) s
      exact hr'.unique hr ▸ hs' q hq hok
  | false =>
    obtain rfl := hf hok
    obtain ⟨n, hn⟩ := hr.ahead_eq
    exact .inr ⟨rfl, by simp [hr.consumed, hs], ⟨n, ahead (m.run s).2, by simpa using hn, rfl⟩,
      hr.stop, by simp, by simpa using hends⟩

/-- The tokens `a` are taken and marked, then `b` is taken. The second reader runs on a stream whose
consumed tokens are marked; what is ahead of it is the same. -/
theorem reads_discarded (ha : Reads q s a s₁) (hb : Reads q s₁.discard b s₂)
    (hq : q .textEnd = false) (hs : s.consumed = []) :
    s₂.consumed = (a.map Token.discard ++ b).reverse ∧ s₂.stop = s.stop ∧
      (∃ n, a ++ b ++ ahead s₂ = ahead s ++ List.replicate n (Token.ending s.stop)) ∧
      (EndsOnce (ahead s) → EndsOnce (a ++ b ++ ahead s₂)) := by
  have hc : s₁.consumed = a.reverse := by simpa [hs] using ha.consumed
  have hstop : s₁.discard.stop = s.stop := ha.stop
  refine ⟨?_, hb.stop.trans hstop, ?_, fun he => ?_⟩
  · rw [hb.consumed]
    simp [Stream.discard, hc]
  · obtain ⟨n, hn⟩ := ha.ahead_eq
    obtain ⟨m, hm⟩ := hb.ahead_eq
    refine ⟨n + m, ?_⟩
    rw [List.append_assoc, hm, discard_ahead, ← List.append_assoc, hn, hstop, List.append_assoc,
      List.replicate_append_replicate]
  · rw [List.append_assoc]
    refine EndsOnce.append (fun t ht hk => ?_) (hb.endsOnce hq (ha.endsOnce hq he).right)
    have := ha.kinds t ht
    rw [hk, hq] at this
    cases this

theorem run_discarding (hl : plain lead = true) (hb : lead.thenBlanks = true)
    (hle : lead.only notEnd = true) (hr : plain rest = true) (hre : rest.only notEnd = true)
    (hs : s.consumed = []) :
    ((run (.seq (.discard lead) rest) s).1 = true ∧ ∃ a b,
      Found (.seq (.discard lead) rest) s (run (.seq (.discard lead) rest) s).2 a b) ∨
    ((run (.seq (.discard lead) rest) s).1 = false ∧ ∃ a,
      Missed s (run (.seq (.discard lead) rest) s).2 a) := by
  obtain ⟨a, ha, hfa, _⟩ := run_outcome hl hle s
  have htail := thenBlanks_tail hl hb ha
  rcases h : run lead s with ⟨ok, s₁⟩
  rw [h] at ha hfa htail
  cases ok with
  | false =>
    obtain rfl := hfa rfl
    have hrun : run (.seq (.discard lead) rest) s = (false, s₁) := by simp [run, h]
    obtain ⟨n, hn⟩ := ha.ahead_eq
    refine .inr ⟨by rw [hrun], [], ?_⟩
    rw [hrun]
    exact ⟨by simpa [hs] using ha.consumed, ⟨n, ahead s₁, hn, rfl⟩, ha.stop, by simp,
      fun he => by simpa using ha.endsOnce rfl he⟩
  | true =>
    obtain ⟨b, hb, _, hsb⟩ := run_outcome hr hre s₁.discard
    rcases h' : run rest s₁.discard with ⟨ok', s₂⟩
    rw [h'] at hb hsb
    obtain ⟨hc, hstop, ⟨n, hall⟩, hends⟩ := reads_discarded ha hb rfl hs
    change s₂.consumed = _ at hc
    cases ok' with
    | true =>
      have hrun : run (.seq (.discard lead) rest) s = (true, s₂) := by simp [run, h, h']
      refine .inl ⟨by rw [hrun], a, b, ?_⟩
      rw [hrun]
      refine ⟨by simp [Stream.taken, hc], ⟨n, hall⟩, hstop, htail rfl, hends, ?_, ?_⟩
      · intro q hq
        obtain ⟨b', hb', _⟩ := run_outcome hr hq s₁.discard
        rw [h'] at hb'
        exact hb'.unique hb ▸ hb'.kinds
      · exact fun q hq => hsb q hq rfl
    | false =>
      have hrun : run (.seq (.discard lead) rest) s = (false, s₂.rewind s.position) := by
        simp [run, h, h']
      rw [← List.append_nil (List.reverse _), ← hs] at hc
      obtain ⟨hconsumed, hahead, hlimit⟩ := rewind_over hc
      rw [List.append_assoc] at hahead
      refine .inr ⟨by rw [hrun], a, ?_⟩
      rw [hrun]
      refine ⟨hconsumed.trans hs, ⟨n, b ++ ahead s₂, by rw [← List.append_assoc, hall], hahead⟩,
        hlimit.trans hstop, htail rfl, fun he => ?_⟩
      rw [hahead, endsOnce_discard, ← List.append_assoc]
      exact hends he

/-- The two ways in which a tidy pattern ends. A plain one discards nothing. -/
theorem run_tidy (h : tidy m = true) (hs : s.consumed = []) :
    ((m.run s).1 = true ∧ ∃ lead rest, Found m s (m.run s).2 lead rest ∧
      (m.plain = true → lead = [])) ∨
    ((m.run s).1 = false ∧ ∃ lead, Missed s (m.run s).2 lead ∧ (m.plain = true → lead = [])) := by
  unfold tidy at h
  split at h
  · simp only [Bool.and_eq_true] at h
    obtain ⟨⟨⟨⟨hl, hb⟩, hle⟩, hr⟩, hre⟩ := h
    rcases run_discarding hl hb hle hr hre hs with ⟨hok, a, b, hf⟩ | ⟨hok, a, hf⟩
    · exact .inl ⟨hok, a, b, hf, by simp [plain]⟩
    · exact .inr ⟨hok, a, hf, by simp [plain]⟩
  · simp only [Bool.and_eq_true] at h
    rcases run_plain h.1 h.2 hs with ⟨hok, rest, hf⟩ | ⟨hok, hf⟩
    · exact .inl ⟨hok, [], rest, hf, fun _ => rfl⟩
    · exact .inr ⟨hok, [], hf, fun _ => rfl⟩

end LineMarkup.Matcher
