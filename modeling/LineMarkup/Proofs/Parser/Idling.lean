import LineMarkup.Proofs.Parser.Sparing

namespace LineMarkup

open Matcher (Peg)
open Token (endless)

namespace Construct

/-- In these nothing has the bracket `c` closed, and what is around them goes on behind them. -/
def isLight (c : Char) : Construct → Bool
  | .heading | .emphasis | .strong | .link | .mathChain | .codeChain | .raw | .rawBlock
  | .commentLine | .commentBlock | .stringLiteral | .codeString => true
  | .codeVariable | .codeFunction => c = '\x7b'
  | _ => false

/-- Directly in these the bracket `c` is closed behind a hash at most. -/
def isBase (c : Char) : Construct → Bool
  | .content | .contentBlock => true
  | .math | .mathArguments => c ≠ '('
  | _ => false

end Construct

/-- The characters that code, math and blocks begin and end with. -/
def landmarks : List Char :=
  ['#', '$', '[', ']', '(', ')', '\x7b', '\x7d', ';', '"']

namespace Matcher

/-- A match begins with one of these symbols. -/
def leads (signs : List Char) : Matcher → Bool
  | .symbol c | .symbols (c :: _) => signs.contains c
  | .alt a b => a.leads signs && b.leads signs
  | .seq a _ => a.leads signs
  | .many1 body | .look body | .discard body => body.leads signs
  | _ => false

theorem Peg.leads {input : Nat → Token} {m : Matcher} {signs : List Char} {i j : Nat}
    (h : Peg input m i (some j)) (hm : m.leads signs = true) :
    ∃ c ∈ signs, (input i).isSymbol c = true := by
  generalize hr : some j = r at h
  induction h generalizing j with
  | symbol hc => exact ⟨_, by simpa [Matcher.leads] using hm, hc⟩
  | @symbols text i hs =>
    cases text with
    | nil => cases hm
    | cons c rest => exact ⟨c, by simpa [Matcher.leads] using hm, hs 0 c rfl⟩
  | seq h _ ih _ => exact ih hm rfl
  | alt h ih =>
    simp only [Matcher.leads, Bool.and_eq_true] at hm
    exact ih hm.1 hr
  | altOther _ _ _ ih =>
    simp only [Matcher.leads, Bool.and_eq_true] at hm
    exact ih hm.2 hr
  | many1Last h _ ih _ | many1More h _ ih _ => exact ih hm rfl
  | look h ih => exact ih hm rfl
  | discard h ih => exact ih hm hr
  | kind | test | keyword | optional | optionalMiss => cases hm
  | _ => cases hr

/-- A match begins with a token of this kind. -/
def leadsKind (kind : TokenKind) : Matcher → Bool
  | .kind other => other = kind
  | .keyword _ => kind = .word
  | .seq a _ => a.leadsKind kind
  | .many1 body => body.leadsKind kind
  | _ => false

theorem Peg.leadsKind {input : Nat → Token} {m : Matcher} {kind : TokenKind} {i j : Nat}
    (h : Peg input m i (some j)) (hm : m.leadsKind kind = true) : (input i).kind = kind := by
  generalize hr : some j = r at h
  induction h generalizing j with
  | kind hk => exact hk.trans (of_decide_eq_true hm)
  | keyword h _ =>
    obtain ⟨hlt, hwords, _⟩ := fullWord_taken h
    exact (hwords _ (Nat.le_refl _) hlt).trans (of_decide_eq_true hm).symm
  | seq h _ ih _ => exact ih hm rfl
  | many1Last h _ ih _ | many1More h _ ih _ => exact ih hm rfl
  | symbol | symbols | test | look | alt | altOther | optional | optionalMiss | discard => cases hm
  | _ => cases hr

/-- What is read behind a hash. -/
def behindHash : Matcher → Option Matcher
  | .seq (.symbol '#') m | .seq (.discard (.symbol '#')) m => some m
  | .symbols ('#' :: rest) => some (.symbols rest)
  | _ => none

theorem Peg.behindHash {input : Nat → Token} {m m' : Matcher} {i j : Nat}
    (h : Peg input m i (some j)) (hm : m.behindHash = some m') : Peg input m' (i + 1) (some j) := by
  unfold Matcher.behindHash at hm
  split at hm
  · obtain rfl := Option.some.inj hm
    cases h with | seq hhash h =>
    cases hhash
    exact h
  · obtain rfl := Option.some.inj hm
    cases h with | seq hhash h =>
    cases hhash with | discard hhash =>
    cases hhash
    exact h
  · rename_i rest
    obtain rfl := Option.some.inj hm
    cases h with | symbols hs =>
    have hrest : Spells input rest (i + 1) := by
      intro n c hn
      rw [Nat.add_right_comm, Nat.add_assoc]
      exact hs (n + 1) c (by rwa [List.getElem?_cons_succ])
    rw [List.length_cons, Nat.add_comm rest.length, ← Nat.add_assoc]
    exact .symbols hrest
  · cases hm

def isKeyword : Matcher → Bool
  | .keyword words => words = codeKeywords
  | _ => false

end Matcher

namespace Action

/-- Nothing heavy is opened, nothing is closed, and no name is met, unless names are light. -/
def isMild (c : Char) : Action → Bool
  | .push kind => kind.isLight c
  | .instant kind => kind.isLight c || !kind.isName
  | .startContent => true
  | .pop | .popMath => false

/-- Nor does a chain begin whose next name the bracket `c` could follow. -/
def isGentle (c : Char) (action : Action) : Bool :=
  action.isMild c && (c = '\x7b' || action ≠ .push .codeChain)

end Action

namespace Rule

/-- Only a light construct is closed. -/
def isGentle (c : Char) (inside : Construct) (rule : Rule) : Bool :=
  rule.actions.all (fun action => action.isGentle c || inside.isLight c && action == .pop)

/-- All that is not gentle begins with a landmark. -/
theorem within_gentle {c : Char} (hc : c ∈ brackets) {inside : Construct}
    (h : inside.isLight c = true ∨ inside.isBase c = true)
    (hchain : c = '\x7b' ∨ inside ≠ .codeChain) (atContentStart : Bool) :
    ∀ rule ∈ within inside atContentStart, (rule.pattern.leads landmarks ||
      rule.isGentle c inside && rule.continuations.all (fun next =>
        next.pattern.leads landmarks || next.actions.all (Action.isGentle c))) = true := by
  have hall : brackets.all (fun c => !(inside.isLight c || inside.isBase c) ||
      !(c = '\x7b' || inside ≠ .codeChain) || (within inside atContentStart).all (fun rule =>
        rule.pattern.leads landmarks || rule.isGentle c inside &&
          rule.continuations.all (fun next => next.pattern.leads landmarks ||
            next.actions.all (Action.isGentle c)))) = true := by
    cases inside <;> cases atContentStart <;> decide
  have hrules := List.all_eq_true.mp hall c hc
  rw [← Bool.or_eq_true] at h
  have hchain : (c = '\x7b' || inside ≠ .codeChain) = true := by simpa using hchain
  rw [h, hchain] at hrules
  exact List.all_eq_true.mp (by simpa using hrules)

/-- What may be read behind a hash: no word, or what is gentle if names are light. -/
def isCoded (c : Char) (inside : Construct) (rule : Rule) : Bool :=
  rule.pattern.behindHash.any fun m =>
    m.leads landmarks || m.isKeyword ||
      m.leadsKind .word && rule.isGentle '\x7b' inside && rule.continuations.all (fun next =>
        next.pattern.leads landmarks || next.actions.all (Action.isGentle '\x7b')) ||
      m.leadsKind .codeNumber && rule.isGentle c inside &&
        rule.continuations.all (·.pattern.leads ['.'])

/-- All that is not gentle and begins with a hash. -/
theorem within_coded {c : Char} (hc : c ∈ brackets) {inside : Construct}
    (h : inside.isLight c = true ∨ inside.isBase c = true) (atContentStart : Bool) :
    ∀ rule ∈ within inside atContentStart, rule.pattern.leads landmarks = true →
      (rule.pattern.leads (landmarks.erase '#') || rule.isCoded c inside) = true := by
  have hall : brackets.all (fun c => !(inside.isLight c || inside.isBase c) ||
      (within inside atContentStart).all (fun rule => !rule.pattern.leads landmarks ||
        (rule.pattern.leads (landmarks.erase '#') || rule.isCoded c inside))) = true := by
    cases inside <;> cases atContentStart <;> decide
  have hrules := List.all_eq_true.mp hall c hc
  rw [← Bool.or_eq_true] at h
  rw [h, Bool.not_true, Bool.false_or, List.all_eq_true] at hrules
  intro rule hm hleads
  simpa [hleads] using hrules rule hm

end Rule

namespace Parser

variable {text : Text} {carried : List Construct} {p p' q : Parser} {rule : Rule} {c : Char}
  {j k l pos : Nat}

/-- The innermost construct that is not light. -/
def heavy (c : Char) (p : Parser) : Option Construct :=
  (p.stack.map Frame.kind).find? (!·.isLight c)

theorem heavy_of_stack (h : p'.stack = p.stack) (c : Char) : p'.heavy c = p.heavy c := by
  simp only [heavy, h]

theorem heavy_pop (h : p.top.kind.isLight c = true) : p.pop.heavy c = p.heavy c := by
  cases hs : p.stack with
  | nil => simp [heavy, pop, hs]
  | cons frame rest =>
    cases rest with
    | nil => simp [heavy, pop, hs]
    | cons below rest =>
      have htop : p.top = frame := by simp [top, hs]
      rw [htop] at h
      simp [heavy, pop, hs, h]

theorem pop_congr (h : p'.stack = p.stack) : p'.pop.stack = p.pop.stack := by
  unfold pop
  rw [h]
  split
  · rfl
  · exact h

theorem heavy_push {kind : Construct} (h : kind.isLight c = true) :
    (p.push kind).heavy c = p.heavy c := by
  simp [heavy, push, h]

theorem lapses_light {kind : Construct} (h : kind.lapses = true) : kind.isLight c = true := by
  revert h
  cases kind <;> simp [Construct.lapses, Construct.isLight]

/-- No chain of names is open whose next name the bracket `c` could follow. -/
def Unchained (c : Char) (p : Parser) : Prop :=
  c = '\x7b' ∨ ∀ f ∈ p.stack, f.kind ≠ .codeChain

theorem act_spares {action : Action} (h : action.isMild c = true) :
    Adds (Event.Spares (Construct.isLight c) pos) p (p.act action) := by
  cases action with
  | push kind => exact .of_cons rfl (.inl h)
  | instant kind =>
    simp only [Action.isMild, Bool.or_eq_true, Bool.not_eq_true'] at h
    exact .of_cons rfl (h.imp_right .inr)
  | startContent => exact .of_eq rfl
  | pop | popMath => cases h

theorem perform_spares {actions : List Action} (h : actions.all (Action.isMild c) = true) :
    Adds (Event.Spares (Construct.isLight c) pos) p (p.perform actions) :=
  perform_induction (P := fun q => Adds (Event.Spares (Construct.isLight c) pos) p q)
    (fun action hm _ hq => hq.trans (act_spares (List.all_eq_true.mp h action hm))) (.of_eq rfl)

theorem mild_of_gentle {actions : List Action} (h : actions.all (Action.isGentle c) = true) :
    actions.all (Action.isMild c) = true := by
  refine List.all_eq_true.mpr fun action hm => ?_
  have hgentle := List.all_eq_true.mp h action hm
  rw [Action.isGentle, Bool.and_eq_true] at hgentle
  exact hgentle.1

/-- The parser has done nothing that matters at a position for the bracket `c`. -/
structure Idles (c : Char) (pos : Nat) (p p' : Parser) : Prop where
  adds : Adds (Event.Spares (Construct.isLight c) pos) p p'
  heavy : p'.heavy c = p.heavy c
  chains : Unchained c p → Unchained c p'

namespace Idles

theorem of_kept (he : p'.events = p.events) (hs : p'.stack = p.stack) : Idles c pos p p' :=
  ⟨.of_eq he, heavy_of_stack hs c, fun h => by rwa [Unchained, hs]⟩

theorem trans (h : Idles c pos p p') (h' : Idles c pos p' q) : Idles c pos p q :=
  ⟨h.adds.trans h'.adds, h'.heavy.trans h.heavy, h'.chains ∘ h.chains⟩

theorem of_same (h : Idles c pos p p') (he : p.events = q.events) (hs : p.stack = q.stack) :
    Idles c pos q p' :=
  (of_kept he hs).trans h

theorem pop (h : p.top.kind.isLight c = true) : Idles c pos p p.pop := by
  refine ⟨pop_adds (.inl h), heavy_pop h, Or.imp_right fun hall => ?_⟩
  unfold Parser.pop
  split
  · rename_i hs
    rw [hs] at hall
    exact fun f hf => hall f (List.mem_cons_of_mem _ hf)
  · exact hall

theorem act {action : Action} (h : action.isGentle c = true) : Idles c pos p (p.act action) := by
  rw [Action.isGentle, Bool.and_eq_true] at h
  obtain ⟨hmild, hchain⟩ := h
  refine ⟨act_spares hmild, ?_, fun hall => ?_⟩
  · cases action with
    | push kind => exact heavy_push hmild
    | instant | startContent => rfl
    | pop | popMath => cases hmild
  · cases action with
    | push kind =>
      simp only [ne_eq, Action.push.injEq, Bool.or_eq_true, decide_eq_true_eq] at hchain
      rcases hchain with hbrace | hkind
      · exact .inl hbrace
      · exact hall.imp_right (List.forall_mem_cons.mpr ⟨hkind, ·⟩)
    | instant | startContent => exact hall
    | pop | popMath => cases hmild

theorem perform {actions : List Action} (h : actions.all (Action.isGentle c) = true) :
    Idles c pos p (p.perform actions) :=
  perform_induction (P := fun q => Idles c pos p q)
    (fun action hm _ hq => hq.trans (act (List.all_eq_true.mp h action hm))) (.of_kept rfl rfl)

/-- Actions of a rule that close at most the innermost construct. -/
theorem perform_pops {actions : List Action} (ha : Action.popsTop actions = true)
    (h : actions.all (fun action =>
      action.isGentle c || p.top.kind.isLight c && action == .pop) = true) :
    Idles c pos p (p.perform actions) := by
  unfold Action.popsTop at ha
  split at ha
  · exact pop (by simpa [Action.isGentle, Action.isMild] using h)
  · rename_i kind
    simp only [List.all_cons, List.all_nil, Bool.and_eq_true, Bool.and_true] at h
    have hinstant : Idles c pos p (p.act (.instant kind)) := act (by simpa using h.1)
    have hlight : p.top.kind.isLight c = true := by
      simpa [Action.isGentle, Action.isMild] using h.2
    exact hinstant.trans (pop hlight)
  · refine perform ?_
    rw [List.all_eq_true] at h ⊢
    intro action hm
    have hpop : action ≠ .pop := by
      rintro rfl
      simp [hm] at ha
    simpa [hpop] using h action hm

end Idles

/-- What can be read at token `k` does nothing that matters before a position. -/
def Mild (text : Text) (c : Char) (pos k : Nat) (inside : Construct) : Prop :=
  ∀ acs, ∀ rule ∈ Rule.within inside acs, ∀ j, Peg (endless text) rule.pattern k (some j) →
    rule.isGentle c inside = true ∧ ∀ next ∈ rule.continuations, ∀ l,
      Peg (endless text) next.pattern j (some l) → (endless text j).start < pos →
        next.actions.all (Action.isGentle c) = true

/-- What comes after the actions of a rule. -/
theorem Resumed.idles (h : Resumed text rule j p p' l)
    (hsolid : ∀ next ∈ rule.continuations, 0 < j ∧ next.pattern.takes Matcher.notEnd = true)
    (hmild : ∀ next ∈ rule.continuations, ∀ l, Peg (endless text) next.pattern j (some l) →
      (endless text j).start < pos → next.actions.all (Action.isMild c) = true ∧
        ((endless text l).start < pos → next.actions.all (Action.isGentle c) = true))
    (hother : rule.otherwise = [] ∨ rule.otherwise = [.pop] ∧ p.top.kind.isLight c = true) :
    Adds (Event.Spares (Construct.isLight c) pos) p p' ∧
      ((endless text l).start < pos → Idles c pos p p') := by
  cases h with
  | onward next hnext p₁ hm result =>
    rw [result]
    rcases Nat.lt_or_ge (endless text j).start pos with hearly | hlate
    · obtain ⟨hmilds, hgentle⟩ := hmild next hnext l hm.reads hearly
      refine ⟨(perform_spares hmilds).of_events hm.events, fun hl => ?_⟩
      exact (Idles.perform (hgentle hl)).of_same hm.events hm.stack
    · have hadds := hm.adds (hsolid next hnext).2 (hsolid next hnext).1 hlate next.actions
      refine ⟨hadds.mono fun e he => he.spares fun _ => lapses_light, fun hl => ?_⟩
      have hle : (endless text j).start ≤ (endless text l).start := Token.endless_le hm.reads.le
      omega
  | otherwise _ p₁ hp result =>
    have hidles : Idles c pos p p' := by
      rw [result]
      rcases hother with hnone | ⟨hpop, hlight⟩
      · rw [hnone]
        exact .of_kept hp.events hp.stack
      · rw [hpop]
        exact (Idles.pop (hp.top ▸ hlight)).of_same hp.events hp.stack
    exact ⟨hidles.adds, fun _ => hidles⟩

/-- A round that does nothing that matters before a position, as long as it does not get there. -/
theorem Turn.idles (h : Turn text k p p' l) (hmild : Mild text c pos k p.top.kind)
    (hline : p.top.kind.endsWithLine = true → p.top.kind.isLight c = true) :
    Adds (Event.Spares (Construct.isLight c) pos) p p' ∧
      ((endless text l).start < pos → Idles c pos p p') := by
  have hboth (hidles : Idles c pos p p') : Adds (Event.Spares (Construct.isLight c) pos) p p' ∧
      ((endless text l).start < pos → Idles c pos p p') := ⟨hidles.adds, fun _ => hidles⟩
  cases h with
  | line kind p₁ hm acs result =>
    have hpop : Idles c pos p p₁.pop := (Idles.pop (hm.top ▸ hline kind)).of_same hm.events hm.stack
    exact hboth (result ▸ ⟨hpop.adds, hpop.heavy, hpop.chains⟩)
  | short _ _ _ hm => exact hboth (.of_kept hm.events hm.stack)
  | loose _ _ token _ events stack =>
    exact hboth
      ⟨.of_cons events trivial, heavy_of_stack stack c, fun h => by rwa [Unchained, stack]⟩
  | @rule j _ acs n rule listed missed p₁ hm hresumed first =>
    have hmem := List.mem_of_getElem? listed
    obtain ⟨hgentle, hnexts⟩ := hmild acs rule hmem j hm.reads
    have hblunt := Rule.within_blunt acs rule hmem
    obtain ⟨_, hsolid⟩ := Rule.within_solid p.top.kind acs rule hmem
    have hactions : Idles c pos p (p₁.perform rule.actions) := by
      refine (Idles.perform_pops hblunt.popsTop ?_).of_same hm.events hm.stack
      rw [hm.top]
      exact hgentle
    obtain ⟨hadds, hidles⟩ : Adds (Event.Spares (Construct.isLight c) pos)
        (p₁.perform rule.actions) p' ∧
          ((endless text l).start < pos → Idles c pos (p₁.perform rule.actions) p') := by
      refine hresumed.idles (fun next hnext => ⟨?_, hsolid next hnext⟩)
        (fun next hnext l hreads hearly => ?_) ?_
      · exact Nat.lt_of_le_of_lt (Nat.zero_le k) (hblunt.lt_of_next hm.reads hnext)
      · have hall := hnexts next hnext l hreads hearly
        exact ⟨mild_of_gentle hall, fun _ => hall⟩
      · exact (hm.otherwise hblunt).imp_right fun hbroken =>
          ⟨hbroken.1, lapses_light (Construct.lapses_of_chain hbroken.2)⟩
    exact ⟨hactions.adds.trans hadds, fun hlt => hactions.trans (hidles hlt)⟩

theorem base_endsWithLine {kind : Construct} (h : kind.isBase c = true) :
    kind.endsWithLine = false := by
  revert h
  cases kind <;> simp [Construct.isBase, Construct.endsWithLine]

/-- The innermost construct is light, or it is the one that is not. -/
theorem heavy_top (hr : Rooted p) :
    p.top.kind.isLight c = true ∨ p.heavy c = some p.top.kind := by
  obtain ⟨below, hs⟩ := hr.stack_eq
  rw [heavy, hs]
  cases hlight : p.top.kind.isLight c with
  | true => exact .inl rfl
  | false => exact .inr (by simp [hlight])

section Run

variable (hc : c ∈ brackets)

include hc in
/-- Where no landmark comes, nothing that matters is read. -/
theorem mild_of_plain {inside : Construct} (h : inside.isLight c = true ∨ inside.isBase c = true)
    (hchain : c = '\x7b' ∨ inside ≠ .codeChain)
    (htokens : ∀ i, k ≤ i → (endless text i).start < pos → ∀ s ∈ landmarks,
      (endless text i).isSymbol s = false) (hk : (endless text k).start < pos) :
    Mild text c pos k inside := by
  intro acs rule hm j hreads
  have hno {i : Nat} (hi : k ≤ i) (hearly : (endless text i).start < pos) {m : Matcher} {l : Nat}
      (hreads : Peg (endless text) m i (some l)) : m.leads landmarks = false := by
    rw [Bool.eq_false_iff]
    intro hleads
    obtain ⟨s, hs, hsymbol⟩ := hreads.leads hleads
    rw [htokens i hi hearly s hs] at hsymbol
    cases hsymbol
  have hgentle := Rule.within_gentle hc h hchain acs rule hm
  rw [hno (Nat.le_refl k) hk hreads, Bool.false_or, Bool.and_eq_true, List.all_eq_true] at hgentle
  refine ⟨hgentle.1, fun next hnext l hnexts hearly => ?_⟩
  have hor := hgentle.2 next hnext
  rwa [hno hreads.le hearly hnexts, Bool.false_or] at hor

include hc in
/-- Nothing that matters is read behind a hash either, but for a word. -/
theorem mild_of_hash {inside : Construct} (h : inside.isLight c = true ∨ inside.isBase c = true)
    (hchain : c = '\x7b' ∨ inside ≠ .codeChain) (hhash : (endless text k).isSymbol '#' = true)
    (htokens : ∀ i, k < i → i = k + 1 ∨ (endless text i).start < pos → ∀ s ∈ landmarks,
      (endless text i).isSymbol s = false)
    (hword : (endless text (k + 1)).kind = .word →
      c = '\x7b' ∧ Peg (endless text) Matcher.codeKeyword (k + 1) none)
    (hpoint : (endless text (k + 1)).kind = .codeNumber → ∀ i, k + 1 < i →
      (endless text i).start < pos → (endless text i).isSymbol '.' = false) :
    Mild text c pos k inside := by
  intro acs rule hm j hreads
  have hno {i : Nat} (hi : k < i) (hearly : i = k + 1 ∨ (endless text i).start < pos) {m : Matcher}
      {l : Nat} (hreads : Peg (endless text) m i (some l)) : m.leads landmarks = false := by
    rw [Bool.eq_false_iff]
    intro hleads
    obtain ⟨s, hs, hsymbol⟩ := hreads.leads hleads
    rw [htokens i hi hearly s hs] at hsymbol
    cases hsymbol
  cases hleads : rule.pattern.leads landmarks with
  | false =>
    -- A pattern that begins with no landmark does not match at a hash.
    have hgentle := Rule.within_gentle hc h hchain acs rule hm
    rw [hleads, Bool.false_or, Bool.and_eq_true, List.all_eq_true] at hgentle
    refine ⟨hgentle.1, fun next hnext l hnexts hearly => ?_⟩
    have hor := hgentle.2 next hnext
    have hlt : k < j := (Rule.within_blunt acs rule hm).lt_of_next hreads hnext
    rwa [hno hlt (.inr hearly) hnexts, Bool.false_or] at hor
  | true =>
    have hcoded := Rule.within_coded hc h acs rule hm hleads
    have hother : rule.pattern.leads (landmarks.erase '#') = false := by
      rw [Bool.eq_false_iff]
      intro hother
      obtain ⟨s, hs, hsymbol⟩ := hreads.leads hother
      obtain rfl := Matcher.isSymbol_unique hhash hsymbol
      revert hs
      decide
    rw [hother, Bool.false_or, Rule.isCoded] at hcoded
    obtain ⟨m, hbehind, hm⟩ := (Option.any_eq_true _ _).mp hcoded
    have hreads' := hreads.behindHash hbehind
    have hle : k + 1 ≤ j := hreads'.le
    rw [hno (Nat.lt_succ_self k) (.inl rfl) hreads', Bool.false_or] at hm
    simp only [Bool.or_eq_true, Bool.and_eq_true, List.all_eq_true] at hm
    rcases hm with (hkeyword | ⟨⟨hlead, hgentle⟩, hnexts⟩) | ⟨⟨hlead, hgentle⟩, hnexts⟩
    · unfold Matcher.isKeyword at hkeyword
      split at hkeyword
      · rename_i words
        obtain rfl := of_decide_eq_true hkeyword
        obtain ⟨_, hnone⟩ := hword (hreads'.leadsKind rfl)
        cases hnone.unique hreads'
      · cases hkeyword
    · obtain ⟨rfl, _⟩ := hword (hreads'.leadsKind hlead)
      refine ⟨hgentle, fun next hnext l hreads'' hearly => ?_⟩
      have hor := hnexts next hnext
      rw [hno (by omega) (.inr hearly) hreads''] at hor
      simpa using hor
    · refine ⟨hgentle, fun next hnext l hreads'' hearly => ?_⟩
      have hnumber := hreads'.leadsKind hlead
      obtain ⟨s, hs, hsymbol⟩ := hreads''.leads (hnexts next hnext)
      obtain rfl := List.mem_singleton.mp hs
      rcases Nat.eq_or_lt_of_le hle with rfl | hlt
      · rw [Matcher.isSymbol_kind hsymbol] at hnumber
        cases hnumber
      · rw [hpoint hnumber j hlt hearly] at hsymbol
        cases hsymbol

omit hc in
/-- A chain breaks before anything but a word. -/
theorem Turn.breaks (pos : Nat) (h : Turn text k p p' l) (hchain : p.top.kind.isChain = true)
    (hword : (endless text k).kind ≠ .word) :
    l = k ∧ Idles c pos p p' ∧ p'.stack = p.pop.stack := by
  have hbroken (acs : Bool) {rule : Rule} (hm : rule ∈ Rule.within p.top.kind acs) {j : Nat}
      (hreads : Peg (endless text) rule.pattern k (some j)) : rule = Rule.broken ∧ j = k := by
    have hlist : rule ∈ Rule.inMathChain ∨ rule ∈ Rule.inCodeChain := by
      revert hm hchain
      cases p.top.kind <;> simp [Construct.isChain, Rule.within, Construct.holdsContent,
        Construct.holdsMath, Construct.holdsCode] <;> simp +contextual
    simp only [Rule.inMathChain, Rule.inCodeChain, List.mem_cons, List.not_mem_nil,
      or_false] at hlist
    rcases hlist with (rfl | rfl | rfl) | rfl | rfl | rfl
    iterate 2 exact absurd (hreads.leadsKind rfl) hword
    · cases hreads
      exact ⟨rfl, rfl⟩
    iterate 2 exact absurd (hreads.leadsKind rfl) hword
    · cases hreads
      exact ⟨rfl, rfl⟩
  cases h with
  | line kind =>
    revert kind hchain
    cases p.top.kind <;> simp [Construct.isChain, Construct.endsWithLine]
  | short acs rule listed hm long =>
    obtain ⟨rfl, _⟩ := hbroken acs listed hm.reads
    cases long
  | loose acs missed => cases missed Rule.broken (Rule.within_chain acs hchain)
  | rule acs n rule listed missed p₁ hm hresumed first =>
    obtain ⟨rfl, rfl⟩ := hbroken acs (List.mem_of_getElem? listed) hm.reads
    cases hresumed with
    | onward next hnext => cases hnext
    | otherwise _ p₂ hp result =>
      have hpop : Idles c pos p p₁.pop := by
        refine (Idles.pop ?_).of_same hm.events hm.stack
        rw [hm.top]
        exact lapses_light (Construct.lapses_of_chain hchain)
      have hsame : Idles c pos p₁.pop p' := by
        rw [result]
        exact .of_kept hp.events hp.stack
      refine ⟨rfl, hpop.trans hsame, ?_⟩
      rw [result]
      exact hp.stack.trans (pop_congr hm.stack)

include hc

/-- All that is read from a place without landmarks spares a position behind them. -/
theorem Ongoing.idles (h : Ongoing text carried k p)
    (hbase : ∀ kind, p.heavy c = some kind → kind.isBase c = true) (hchains : Unchained c p)
    (htokens : ∀ i, k ≤ i → (endless text i).start < pos → ∀ s ∈ landmarks,
      (endless text i).isSymbol s = false) :
    Adds (Event.Spares (Construct.isLight c) pos) p (finish text carried) := by
  rcases Nat.eq_zero_or_pos pos with rfl | hpos
  · exact h.spares_zero _
  let P (l : Nat) (q : Parser) : Prop :=
    Adds (Event.Spares (Construct.isLight c) pos) p q ∧ k ≤ l ∧
      ((endless text l).start < pos → q.heavy c = p.heavy c ∧ Unchained c q)
  have hstep {l : Nat} {q : Parser} {l' : Nat} (hq : Ongoing text carried l q) (hP : P l q)
      (hturn : Turn text l q q.step l') : P l' q.step := by
    obtain ⟨hadds, hle, hearly⟩ := hP
    have hmono : (endless text l).start ≤ (endless text l').start :=
      Token.endless_le hturn.le
    rcases Nat.lt_or_ge (endless text l).start pos with hlt | hge
    · obtain ⟨hheavy, hunchained⟩ := hearly hlt
      have htop := heavy_top (c := c) hq.steady.rooted
      have hkind : q.top.kind.isLight c = true ∨ q.top.kind.isBase c = true :=
        htop.imp_right fun htop => hbase _ (hheavy ▸ htop)
      have hchain : c = '\x7b' ∨ q.top.kind ≠ .codeChain := by
        obtain ⟨below, hs⟩ := hq.steady.rooted.stack_eq
        exact hunchained.imp_right fun hall => hall q.top (by simp [hs])
      have hmild := mild_of_plain hc hkind hchain (fun i hi => htokens i (Nat.le_trans hle hi)) hlt
      obtain ⟨hmore, hidles⟩ := hturn.idles hmild fun hends => hkind.resolve_right fun hbase => by
        rw [base_endsWithLine hbase] at hends
        cases hends
      refine ⟨hadds.trans hmore, Nat.le_trans hle hturn.le, fun hlt' => ?_⟩
      have hidles := hidles hlt'
      exact ⟨hidles.heavy.trans hheavy, hidles.chains hunchained⟩
    · have hl : 0 < l := by
        refine Nat.pos_of_ne_zero ?_
        rintro rfl
        exact absurd hpos (Nat.not_lt.mpr hge)
      have hmore := hturn.follows hl hge
      refine ⟨hadds.trans (hmore.mono fun e he => he.spares fun _ => lapses_light),
        Nat.le_trans hle hturn.le, fun hlt' => ?_⟩
      omega
  obtain ⟨_, _, hadds, _⟩ := h.run (P := P) ⟨.of_eq rfl, Nat.le_refl k, fun _ => ⟨rfl, hchains⟩⟩
    fun hq hP _ hturn _ => hstep hq hP hturn
  exact hadds

end Run

end Parser

end LineMarkup
