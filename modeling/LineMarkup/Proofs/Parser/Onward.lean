import LineMarkup.Proofs.Parser.Outcome

namespace LineMarkup

open Matcher (Peg Shared)
open Token (endless Parted)

namespace Matcher

def isChainLink : Matcher → Bool
  | .seq (.symbol '.') (.look (.kind .word)) => true
  | _ => false

theorem Peg.chainLink {input : Nat → Token} {m : Matcher} {i j : Nat}
    (h : Peg input m i (some j)) (hm : m.isChainLink = true) :
    j = i + 1 ∧ (input i).isSymbol '.' = true ∧ (input (i + 1)).kind = .word := by
  unfold isChainLink at hm
  split at hm
  · cases h with | seq hpoint hlook =>
    cases hpoint with | symbol hpoint =>
    cases hlook with | look hword =>
    exact ⟨rfl, hpoint, hword.leadsKind rfl⟩
  · cases hm

end Matcher

namespace Action

/-- At most the innermost construct is closed. -/
def leaves : List Action → Bool
  | [.pop] | [.instant _] | [.instant _, .pop] => true
  | _ => false

end Action

namespace Continuation

/-- A bracket comes, or a term, or a chain goes on or begins. -/
def isJoint (next : Continuation) : Bool :=
  next.pattern.leads ['(', '['] ||
    match next.actions with
    | [.instant kind] => !kind.isName
    | [.push kind] => kind.isChain && next.pattern.isChainLink
    | [] => next.pattern.isChainLink
    | _ => false

end Continuation

namespace Rule

/-- What may come directly after a match that closes at most the innermost construct. -/
theorem within_joint (inside : Construct) (atContentStart : Bool) :
    ∀ rule ∈ within inside atContentStart, ∀ next ∈ rule.continuations,
      Action.leaves rule.actions = true ∧ next.isJoint = true := by
  have hall : (within inside atContentStart).all (fun rule => rule.continuations.all fun next =>
      Action.leaves rule.actions && next.isJoint) = true := by
    cases inside <;> cases atContentStart <;> decide
  intro rule hm next hnext
  have hboth := List.all_eq_true.mp (List.all_eq_true.mp hall rule hm) next hnext
  rwa [Bool.and_eq_true] at hboth

end Rule

namespace Parser

variable {text text' : Text} {carried : List Construct} {p p' p₁ q q' q₁ : Parser} {rule : Rule}
  {next : Continuation} {inside : Construct} {acs : Bool} {c s : Char} {i j k l m n pos : Nat}

/-- The first token that differs comes next, or right behind a point or a word. -/
def Abuts (text : Text) (m n j : Nat) : Prop :=
  j = m ∨ j + 1 = m ∧ ((endless text j).kind = .word ∨
    (endless text j).isSymbol '.' = true ∧ (m < n → (endless text m).kind ≠ .word))

theorem abuts_of_parts (hp : Parted text text' c pos m n) (hm : rule ∈ Rule.within inside acs)
    (hnext : next ∈ rule.continuations) (hj : j ≤ m)
    (hparts : ¬ Shared (endless text) (endless text') m next.pattern j) : Abuts text m n j := by
  rcases Nat.eq_or_lt_of_le hj with heq | hlt
  · exact .inl heq
  have hglance {i : Nat} {pattern : Matcher} (hi : i < m) (hg : pattern.glances = true) :
      Shared (endless text) (endless text') m pattern i :=
    Matcher.shared_glances hp.same hi hg
  have hkind := Rule.within_next inside acs rule hm next hnext
  unfold Rule.isNext at hkind
  split at hkind
  · rename_i hround
    exact absurd (hround ▸ hglance hlt rfl) hparts
  · rename_i hsquare
    exact absurd (hsquare ▸ hglance hlt rfl) hparts
  · rename_i hlink
    rw [hlink] at hparts
    have hpoint : (endless text j).isSymbol '.' = true := by
      by_contra hno
      refine hparts ((hglance hlt rfl).seq fun l hl => ?_)
      cases hl with | symbol hl =>
      exact absurd hl hno
    have hbehind (hlook : Shared (endless text) (endless text') m (.look (.kind .word)) (j + 1)) :
        False := by
      refine hparts ((hglance hlt rfl).seq fun l hl => ?_)
      cases hl
      exact hlook
    have hm : j + 1 = m :=
      Nat.le_antisymm hlt (Nat.le_of_not_lt fun hlt' => hbehind (hglance hlt' rfl))
    refine .inr ⟨hm, .inr ⟨hpoint, fun hmn hword => hbehind ?_⟩⟩
    rw [hm]
    intro r hr
    cases hr with
    | look hr => exact ⟨.look (.kind (hp.word hmn hword)), fun l hl =>
        Nat.le_of_eq (Option.some.inj hl).symm⟩
    | lookMiss hr => cases hr.unique (.kind hword)
  · rename_i hterm
    rw [hterm] at hparts
    have hword : (endless text j).kind = .word := by
      by_contra hno
      refine hparts ((hglance hlt rfl).seq fun l hl => ?_)
      cases hl with | kind hl =>
      exact absurd hl hno
    have hm : j + 1 = m := by
      refine Nat.le_antisymm hlt (Nat.le_of_not_lt fun hlt' => hparts ?_)
      refine (hglance hlt rfl).seq fun l hl => ?_
      cases hl
      exact hglance hlt' rfl
    exact .inr ⟨hm, .inl hword⟩
  · cases hkind

namespace Abuts

variable (hp : Parted text text' c pos m n) (h : Abuts text m n j)

include hp h

/-- Before the place there is no symbol but a point. -/
theorem plain (hlow : j ≤ i) (hearly : (endless text i).start < pos) (hs : s ≠ '.') :
    (endless text i).isSymbol s = false := by
  rcases Nat.lt_or_ge i m with hlt | hge
  · rcases h with rfl | ⟨rfl, hbehind⟩
    · exact absurd hlow (Nat.not_le.mpr hlt)
    · obtain rfl : i = j := Nat.le_antisymm (Nat.le_of_lt_succ hlt) hlow
      rw [Bool.eq_false_iff]
      intro hsymbol
      rcases hbehind with hword | ⟨hpoint, _⟩
      · rw [Matcher.isSymbol_kind hsymbol] at hword
        cases hword
      · exact hs (Matcher.isSymbol_unique hsymbol hpoint)
  · exact hp.early_symbol hge hearly s

/-- No chain goes on before the place. -/
theorem unlinked {pattern : Matcher} (hm : pattern.isChainLink = true)
    (hreads : Peg (endless text) pattern j (some l)) : pos ≤ (endless text l).start := by
  obtain ⟨rfl, hpoint, hword⟩ := hreads.chainLink hm
  refine Nat.le_of_not_lt fun hearly => ?_
  rcases h with rfl | ⟨rfl, hbehind⟩
  · have hle : (endless text j).start ≤ (endless text (j + 1)).start :=
      Token.endless_le (Nat.le_succ j)
    rw [hp.early_symbol (Nat.le_refl j) (Nat.lt_of_le_of_lt hle hearly)] at hpoint
    cases hpoint
  · rcases hbehind with hno | ⟨_, hno⟩
    · rw [Matcher.isSymbol_kind hpoint] at hno
      cases hno
    · exact hno (hp.early (Nat.le_refl _) hearly).2 hword

/-- What comes before the bracket is bland. -/
theorem bland (hlow : j ≤ i) (hi : i < n) : Bland (endless text') i := by
  rcases Nat.lt_or_ge i m with hlt | hge
  swap
  · exact bland_piece hp hge hi
  rcases h with rfl | ⟨rfl, hbehind⟩
  · exact absurd hlow (Nat.not_le.mpr hlt)
  obtain rfl : i = j := Nat.le_antisymm (Nat.le_of_lt_succ hlt) hlow
  rw [← hp.same i hlt] at hbehind
  rcases hbehind with hword | ⟨hpoint, _⟩
  · have hno (s : Char) : (endless text' i).isSymbol s = false := by
      rw [Bool.eq_false_iff]
      intro hsymbol
      rw [Matcher.isSymbol_kind hsymbol] at hword
      cases hword
    refine ⟨by rw [hword]; decide, fun s _ => hno s, fun hslash => ?_⟩
    rw [hno '/'] at hslash
    cases hslash
  · have hno (s : Char) (hs : s ≠ '.') : (endless text' i).isSymbol s = false := by
      rw [Bool.eq_false_iff]
      exact fun hsymbol => hs (Matcher.isSymbol_unique hsymbol hpoint)
    refine ⟨by rw [Matcher.isSymbol_kind hpoint]; decide, fun s hs => hno s ?_, fun hslash => ?_⟩
    · rintro rfl
      revert hs
      decide
    · rw [hno '/' (by decide)] at hslash
      cases hslash

/-- Nor is the last token before the bracket a hash, where the match before does not end in one. -/
theorem no_hash {pattern : Matcher} (hreads : Peg (endless text') pattern k (some j)) (hkj : k < j)
    (hends : pattern.endsIn '#' = false) :
    ∀ i, n = i + 1 → (endless text' i).isSymbol '#' = false := by
  rcases Nat.eq_or_lt_of_le hp.le with rfl | hmn
  swap
  · exact piece_hash hp hmn
  rintro i rfl
  rw [Bool.eq_false_iff]
  intro hhash
  rcases h with rfl | ⟨heq, hbehind⟩
  · rw [hreads.endsIn (Nat.le_of_lt_succ hkj) hhash] at hends
    cases hends
  · obtain rfl : j = i := Nat.succ.inj heq
    rw [← hp.same j (Nat.lt_succ_self j)] at hbehind
    rcases hbehind with hword | ⟨hpoint, _⟩
    · rw [Matcher.isSymbol_kind hhash] at hword
      cases hword
    · cases Matcher.isSymbol_unique hhash hpoint

end Abuts

theorem perform_leaves {actions : List Action} (h : Action.leaves actions = true) (p : Parser) :
    (p.perform actions).stack = p.stack ∧ actions ≠ [.pop] ∨
      (p.perform actions).stack = p.pop.stack := by
  unfold Action.leaves at h
  split at h
  · exact .inr rfl
  · exact .inl ⟨rfl, by simp⟩
  · exact .inr (pop_congr (p := p) rfl)
  · cases h

section Nested

variable (hr : Rooted p) (hn : Construct.Nested (p.stack.map Frame.kind))

include hn

theorem nested_pop : Construct.Nested (p.pop.stack.map Frame.kind) := by
  unfold pop
  split
  · rename_i hs
    rw [hs] at hn
    exact hn.tail
  · exact hn

theorem nested_leaves {actions : List Action} (h : Action.leaves actions = true) :
    Construct.Nested ((p.perform actions).stack.map Frame.kind) := by
  rcases perform_leaves h p with ⟨hsame, _⟩ | hpop
  · rwa [hsame]
  · rw [hpop]
    exact nested_pop hn

include hr

/-- What a construct stands in holds something. -/
theorem pop_top_holds : p.pop.top.kind.holds = true := by
  have hroot : p.stack.getLast? = some Frame.root := hr
  unfold pop
  split
  · rename_i outer rest hs
    rw [hs] at hn
    have hadmits := (List.isChain_cons_cons.mp hn).1
    simpa [report, top] using Construct.holds_of_admits hadmits
  · rename_i hs
    obtain ⟨below, hstack⟩ := hr.stack_eq
    cases below with
    | nil =>
      rw [hstack, List.getLast?_singleton] at hroot
      rw [Option.some.inj hroot]
      rfl
    | cons outer rest => exact absurd hstack (hs _ _ _)

/-- Nothing that is a chain or sealed holds anything. -/
theorem pop_unsealed : p.pop.top.kind.lapses = false ∧ p.pop.top.kind.isSealed = false := by
  have hholds := pop_top_holds hr hn
  revert hholds
  cases p.pop.top.kind <;> simp [Construct.holds, Construct.holdsContent, Construct.holdsMath,
    Construct.holdsCode, Construct.lapses, Construct.isSealed]

theorem pop_unchained : Unchained c p.pop := by
  refine unchained_of_nested hr.pop (nested_pop hn) (.inr fun hchain => ?_)
  have hholds := pop_top_holds hr hn
  rw [hchain] at hholds
  cases hholds

end Nested

/-- How the stack of a parser may change with what comes behind a match and is no bracket. -/
def Joined (p p' : Parser) : Prop :=
  p'.stack = p.stack ∨ p'.stack = p.pop.stack ∧ p.top.kind.isChain = true ∨
    p'.top.kind.isChain = true ∧ p'.pop.top = p.top

namespace Resumed

variable (h : Resumed text rule j p p' l)
  (hjoint : ∀ next ∈ rule.continuations, next.isJoint = true)

include h hjoint

/-- Where no bracket comes, a chain may begin or end, and no more. -/
theorem joint (hsolid : ∀ next ∈ rule.continuations, next.pattern.takes Matcher.notEnd = true)
    (hother : rule.otherwise = [] ∨ rule.otherwise = [.pop] ∧ p.top.kind.isChain = true)
    (hno : j < l → ∀ s ∈ ['(', '['], (endless text j).isSymbol s = false) (hr : Rooted p) :
    Joined p p' := by
  cases h with
  | onward next hnext p₁ hm result =>
    have hkind := hjoint next hnext
    have hleads : next.pattern.leads ['(', '['] = false := by
      rw [Bool.eq_false_iff]
      intro hleads
      obtain ⟨i, hlow, hhigh, _⟩ := hm.reads.takes (hsolid next hnext)
      obtain ⟨s, hs, hsymbol⟩ := hm.reads.leads hleads
      rw [hno (Nat.lt_of_le_of_lt hlow hhigh) s hs] at hsymbol
      cases hsymbol
    rw [Continuation.isJoint, hleads, Bool.false_or] at hkind
    rw [result]
    split at hkind
    · rename_i kind heq
      rw [heq]
      exact .inl hm.stack
    · rename_i kind heq
      rw [Bool.and_eq_true] at hkind
      rw [heq]
      have hroot : Rooted p₁ := by rwa [Rooted, hm.stack]
      exact .inr (.inr ⟨hkind.1, (push_pop_top hroot kind).trans hm.top⟩)
    · rename_i heq
      rw [heq]
      exact .inl hm.stack
    · cases hkind
  | otherwise _ p₁ hp result =>
    rw [result]
    rcases hother with hnone | ⟨hpop, hchain⟩
    · rw [hnone]
      exact .inl hp.stack
    · rw [hpop]
      exact .inr (.inl ⟨pop_congr hp.stack, hchain⟩)

end Resumed

namespace Joined

variable (h : Joined p p') (hr : Rooted p) (hn : Construct.Nested (p.stack.map Frame.kind))

include h hr hn

/-- Where brackets are text afterwards, they were text before. -/
theorem texts (ht : Texts c p') : Texts c p := by
  rcases h with hsame | ⟨hpop, hchain⟩ | ⟨hchain, hpop⟩
  · have htop : p'.top = p.top := by simp only [top, hsame]
    have hbelow : p'.pop.top = p.pop.top := by simp only [top, pop_congr hsame]
    rwa [Texts, ← htop, ← hbelow]
  · have htop : p'.top = p.pop.top := by simp only [top, hpop]
    rw [Texts, htop, (pop_unsealed hr hn).1] at ht
    exact .inr ⟨Construct.lapses_of_chain hchain,
      ht.resolve_right fun hno => Bool.false_ne_true hno.1⟩
  · refine .inl (hpop ▸ (ht.resolve_left fun htext => ?_).2)
    revert hchain htext
    cases p'.top.kind <;>
      simp [Construct.isChain, Construct.isText, Construct.holdsContent, Construct.holdsMath]

theorem unsealed (hs : p.top.kind.isSealed = false) : p'.top.kind.isSealed = false := by
  rcases h with hsame | ⟨hpop, _⟩ | ⟨hchain, _⟩
  · have htop : p'.top = p.top := by simp only [top, hsame]
    rwa [htop]
  · have htop : p'.top = p.pop.top := by simp only [top, hpop]
    rw [htop]
    exact (pop_unsealed hr hn).2
  · revert hchain
    cases p'.top.kind <;> simp [Construct.isChain, Construct.isSealed]

end Joined

/-- Nothing sealed is left by a match that something may follow. -/
theorem Matched.unsealed (h : Matched text rule.pattern k j p p') {acs : Bool}
    (hm : rule ∈ Rule.within p.top.kind acs) (hl : Action.leaves rule.actions = true)
    (hr : Rooted p) (hn : Construct.Nested (p.stack.map Frame.kind)) :
    (p'.perform rule.actions).top.kind.isSealed = false := by
  rcases perform_leaves hl p' with ⟨hsame, hne⟩ | hpop
  · have htop : (p'.perform rule.actions).top = p.top := by simp only [Parser.top, hsame, h.stack]
    rw [htop, Bool.eq_false_iff]
    exact fun hs => hne (Rule.within_sealed hs acs rule hm).1
  · have htop : (p'.perform rule.actions).top = p.pop.top := by
      simp only [Parser.top, hpop, pop_congr h.stack]
    rw [htop]
    exact (pop_unsealed hr hn).2

/-- What a match leaves that something may follow is a stack as any other. -/
theorem Matched.rooted_nested (h : Matched text rule.pattern k j p p')
    (hl : Action.leaves rule.actions = true) (hr : Rooted p)
    (hn : Construct.Nested (p.stack.map Frame.kind)) : Rooted (p'.perform rule.actions) ∧
      Construct.Nested ((p'.perform rule.actions).stack.map Frame.kind) := by
  rw [← h.stack] at hn
  have hrooted : Rooted p' := by rwa [Rooted, h.stack]
  exact ⟨hrooted.perform rule.actions, nested_leaves hn hl⟩

section Old

variable (hp : Parted text text' c pos m n) (ha : Abuts text m n j)

include hp ha

/-- What can be read where the parsers come apart does nothing that matters before the place. -/
theorem Abuts.mild (hjoint : next.isJoint = true)
    (hreads : Peg (endless text) next.pattern j (some l))
    (hearly : (endless text j).start < pos) : next.actions.all (Action.isMild c) = true ∧
      ((endless text l).start < pos → next.actions.all (Action.isGentle c) = true) := by
  have hleads : next.pattern.leads ['(', '['] = false := by
    rw [Bool.eq_false_iff]
    intro hleads
    obtain ⟨s, hs, hsymbol⟩ := hreads.leads hleads
    rw [ha.plain hp (Nat.le_refl j) hearly (by rintro rfl; revert hs; decide)] at hsymbol
    cases hsymbol
  rw [Continuation.isJoint, hleads, Bool.false_or] at hjoint
  split at hjoint
  · rename_i kind heq
    rw [heq]
    simp [Action.isMild, Action.isGentle, hjoint]
  · rename_i kind heq
    rw [Bool.and_eq_true] at hjoint
    rw [heq]
    refine ⟨?_, fun hl => absurd hl (Nat.not_lt.mpr (ha.unlinked hp hjoint.2 hreads))⟩
    have hchain := hjoint.1
    revert hchain
    cases kind <;> simp [Construct.isChain, Action.isMild, Construct.isLight]
  · rename_i heq
    rw [heq]
    exact ⟨rfl, fun _ => rfl⟩
  · cases hjoint

/-- No chain is open any more before the place. -/
theorem Resumed.unchained (h : Resumed text rule j (p₁.perform rule.actions) p' l)
    (hs : p₁.stack = p.stack) {acs : Bool} (hm : rule ∈ Rule.within p.top.kind acs)
    (hjoint : ∀ next ∈ rule.continuations, next.isJoint = true)
    (hleaves : Action.leaves rule.actions = true) (hr : Rooted p)
    (hn : Construct.Nested (p.stack.map Frame.kind)) (hearly : (endless text l).start < pos)
    (hidles : Idles c pos (p₁.perform rule.actions) p') : Unchained c p' := by
  have hpopped {r : Parser} (hs : r.stack = p.pop.stack) : Unchained c r := by
    have hall : Unchained c p.pop := pop_unchained hr hn
    rwa [Unchained, ← hs] at hall
  by_cases hchain : p.top.kind = .codeChain
  · have hcarries := Rule.within_carriesOn (by rw [hchain]; rfl) acs rule hm
    unfold Rule.carriesOn at hcarries
    split at hcarries
    · rename_i kind heq
      simp only [Bool.and_eq_true, List.all_eq_true, List.isEmpty_iff, beq_iff_eq] at hcarries
      cases h with
      | onward next hnext p₂ hm' result =>
        -- The chain would go on.
        exfalso
        have hkind := hjoint next hnext
        rw [Continuation.isJoint, hcarries.1 next hnext, Bool.or_eq_true] at hkind
        rcases hkind with hleads | hlink
        · obtain ⟨s, hs, hsymbol⟩ := hm'.reads.leads hleads
          have hle : (endless text j).start ≤ (endless text l).start :=
            Token.endless_le hm'.reads.le
          rw [ha.plain hp (Nat.le_refl j) (Nat.lt_of_le_of_lt hle hearly)
            (by rintro rfl; revert hs; decide)] at hsymbol
          cases hsymbol
        · exact absurd hearly (Nat.not_lt.mpr (ha.unlinked hp hlink hm'.reads))
      | otherwise _ p₂ hpassed result =>
        refine hpopped ?_
        rw [result, hcarries.2]
        exact pop_congr (hpassed.stack.trans (by rw [heq]; exact hs))
    · rename_i kind heq
      refine hidles.chains (hpopped ?_)
      rw [heq]
      exact pop_congr (p := p) hs
    · rename_i heq
      refine hidles.chains (hpopped ?_)
      rw [heq]
      exact pop_congr hs
    · cases hcarries
  · refine hidles.chains ?_
    have hall : Unchained c p := unchained_of_nested hr hn (.inr hchain)
    rcases perform_leaves hleaves p₁ with ⟨hsame, _⟩ | hpop
    · rwa [Unchained, hsame, hs]
    · exact hpopped (hpop.trans (pop_congr hs))

end Old

section Outcome

variable (hp : Parted text text' c pos m n) (hc : c ∈ brackets) (ho : Parse.Orderly carried)

include hp hc ho

section Old

variable (hold : Ongoing text carried k p) {acs : Bool}
  (hm : rule ∈ Rule.within p.top.kind acs) (hnext : next ∈ rule.continuations)
  (hmatched : Matched text rule.pattern k j p p₁) (hkj : k < j) (ha : Abuts text m n j)

include hold hm hnext hmatched hkj ha

/-- Where brackets are text after a match, and what comes behind it is read otherwise. -/
theorem Texts.spares_onward (ht : Texts c (p₁.perform rule.actions))
    (hresumed : Resumed text rule j (p₁.perform rule.actions) p' l)
    (hafter : Ongoing text carried l p') :
    Adds (Event.Spares (Construct.isLight c) pos) (p₁.perform rule.actions)
      (finish text carried) := by
  have hleaves := (Rule.within_joint p.top.kind acs rule hm next hnext).1
  have hjoint : ∀ next ∈ rule.continuations, next.isJoint = true :=
    fun next hnext => (Rule.within_joint p.top.kind acs rule hm next hnext).2
  obtain ⟨_, hsolid⟩ := Rule.within_solid p.top.kind acs rule hm
  obtain ⟨hroot, hn⟩ := hmatched.rooted_nested hleaves hold.steady.rooted (hold.nested ho)
  obtain ⟨hadds, hidles⟩ := hresumed.idles (c := c)
    (fun next hnext => ⟨Nat.lt_of_le_of_lt (Nat.zero_le k) hkj, hsolid next hnext⟩)
    (fun next hnext l hreads hearly => ha.mild hp (hjoint next hnext) hreads hearly)
    ((hmatched.otherwise (Rule.within_blunt acs rule hm)).imp_right
      fun hbroken => ⟨hbroken.1, lapses_light (Construct.lapses_of_chain hbroken.2)⟩)
  refine hafter.spares_behind hc hadds fun hearly => ?_
  have hidles := hidles hearly
  refine ⟨fun kind hkind => ?_, ?_, fun i hi hearly s hs => ?_⟩
  · rw [hidles.heavy] at hkind
    exact ht.base hroot hn kind hkind
  · exact hresumed.unchained hp ha hmatched.stack hm hjoint hleaves hold.steady.rooted
      (hold.nested ho) hearly hidles
  · refine ha.plain hp (Nat.le_trans hresumed.le hi) hearly ?_
    rintro rfl
    revert hs
    decide

/-- Then what is around the match stays quiet, where it is not asked. -/
theorem Texts.quiet_onward (ht : Texts c (p₁.perform rule.actions))
    (hresumed : Resumed text rule j (p₁.perform rule.actions) p' l)
    (hafter : Ongoing text carried l p') (hk : k ≤ m) (hj : j ≤ m)
    (hu : ∀ kind, Unasked text' n c kind (p₁.perform rule.actions).events) :
    ∃ around, Quiet text text' carried n c pos (Construct.isLight c) around
      (p₁.perform rule.actions) := by
  obtain ⟨hleaves, _⟩ := Rule.within_joint p.top.kind acs rule hm next hnext
  obtain ⟨hroot, hn⟩ := hmatched.rooted_nested hleaves hold.steady.rooted (hold.nested ho)
  have hhalted : Halted carried pos (p₁.perform rule.actions) := by
    have hbefore := hold.halted (hp.start_le hk)
    refine (hbefore.of_kept hmatched.events hmatched.stack).perform ?_ rule.actions
    rw [hmatched.mark hkj]
    exact hp.start_le hj
  exact ht.quiet hroot hn hhalted
    (ht.spares_onward hp hc ho hold hm hnext hmatched hkj ha hresumed hafter) hu

end Old

/-- Where what comes behind a match is not read alike. -/
theorem Beside.outcome_onward (hk : k ≤ m)
    (hclosing : (endless text' (n + 1)).isSymbol (LineStore.closing c) = true)
    (h : Beside text text' k p q) (hold : Ongoing text carried k p)
    (hnew : Ongoing text' carried k q) {acs : Bool} (hm : rule ∈ Rule.within p.top.kind acs)
    (hnext : next ∈ rule.continuations) (hmatched : Matched text rule.pattern k j p p₁)
    (hmatched' : Matched text' rule.pattern k j q q₁) (ha : Abuts text m n j)
    (hbeside : Beside text text' j (p₁.perform rule.actions) (q₁.perform rule.actions))
    (hj : j ≤ m)
    (hnear : ∃ l, Resumed text rule j (p₁.perform rule.actions) p.step l ∧ Coming text l p.step)
    (hfar : ∃ l, Resumed text' rule j (q₁.perform rule.actions) q.step l ∧ Coming text' l q.step)
    (hend : p.stream.atEnd = false) : Outcome text text' carried n c pos := by
  obtain ⟨l, hresumed, hcoming⟩ := hnear
  obtain ⟨l', hresumed', hcoming'⟩ := hfar
  obtain ⟨hleaves, _⟩ := Rule.within_joint p.top.kind acs rule hm next hnext
  have hjoint : ∀ next ∈ rule.continuations, next.isJoint = true :=
    fun next hnext => (Rule.within_joint p.top.kind acs rule hm next hnext).2
  have hblunt := Rule.within_blunt acs rule hm
  obtain ⟨_, hsolid⟩ := Rule.within_solid p.top.kind acs rule hm
  have hkj : k < j := hblunt.lt_of_next hmatched.reads hnext
  have hjn : j ≤ n := Nat.le_trans hj hp.le
  have hkn : k < n := Nat.lt_of_lt_of_le hkj hjn
  obtain ⟨_, _, hafter⟩ := hold.step hend
  have hafter := hafter.of_coming hcoming
  obtain ⟨l'', hturn, hafter''⟩ := hnew.step (hnew.coming.not_atEnd hp.bracket hkn.le)
  have hafter' := hafter''.of_coming hcoming'
  rcases Nat.lt_or_ge n l'' with hlt | hle
  · exact hturn.outcome hp hc hclosing hkn hafter'' hlt
  have hl : l' ≤ n := hafter''.coming.le_symbol hcoming' hp.bracket hle
  have htop' : q.top.kind = p.top.kind := h.peers.top.symm
  have hm' : rule ∈ Rule.within q.top.kind acs := htop' ▸ hm
  obtain ⟨hroot, hn⟩ := hmatched'.rooted_nested hleaves hnew.steady.rooted (hnew.nested ho)
  have hjoined : Joined (q₁.perform rule.actions) q.step := by
    refine hresumed'.joint hjoint hsolid (hmatched'.otherwise (htop' ▸ hblunt)) (fun hlt s hs => ?_) hroot
    refine (ha.bland hp (Nat.le_refl j) (Nat.lt_of_lt_of_le hlt hl)).signs s ?_
    revert hs
    simp only [List.mem_cons, List.not_mem_nil, or_false]
    rintro (rfl | rfl) <;> decide
  rcases hafter'.kinds ho c with hw | ht | hsealed
  · exact hw.outcome hp hc hclosing hafter' hl fun i hlow =>
      ha.bland hp (Nat.le_trans hresumed'.le hlow)
  · have htq := hjoined.texts hroot hn ht
    have htp := htq.of_peers hbeside.peers
    have hnone := ha.no_hash hp hmatched'.reads hkj hblunt.hashless
    have hunasked (kind : Construct) : Unasked text' n c kind (p₁.perform rule.actions).events := by
      refine hafter'.unasked hl hc hp.bracket (fun _ => ht.holdsCode) hbeside.toTelling
        hresumed'.events fun i hn hi => ?_
      rw [hnone i hn] at hi
      cases hi
    obtain ⟨around, hquiet⟩ := htp.quiet_onward hp hc ho hold hm hnext hmatched hkj ha hresumed
      hafter hk hj hunasked
    exact .quiet _ around _ hquiet
  · have hopen := hmatched'.unsealed hm' hleaves hnew.steady.rooted (hnew.nested ho)
    rw [hjoined.unsealed hroot hn hopen] at hsealed
    cases hsealed

end Outcome

theorem ofText_beside (text text' : Text) (carried : List Construct) :
    Beside text text' 0 (ofText text carried) (ofText text' carried) := by
  have hspared (text : Text) : Token.Stream.Spared (ofText text carried).stream := by
    intro t ht hk
    rw [Bool.eq_false_iff]
    intro hd
    rw [(ofText_steady text carried).clean t ht hd] at hk
    cases hk
  exact ⟨⟨⟨rfl, rfl⟩, rfl⟩, ofText_coming text carried, ofText_coming text' carried, hspared text,
    hspared text'⟩

/-- A bracket and its closing one that are put in enclose something, or nothing has them closed. -/
theorem outcome_of_parted (hp : Parted text text' c pos m n) (hc : c ∈ brackets)
    (hclosing : (endless text' (n + 1)).isSymbol (LineStore.closing c) = true)
    (ho : Parse.Orderly carried) (hl : ∀ kind ∈ carried, kind ≠ .link)
    (hstay : c = '\x7b' → KeywordsStay text text' carried n) :
    Outcome text text' carried n c pos := by
  obtain ⟨k, hk, p, q, hold, hnew, h, hparting⟩ :=
    (ofText_beside text text' carried).parting hp.same hp.first hp.bracket hp.le
      (Nat.zero_le m) (.start text hl) (.start text' hl)
  rcases Nat.eq_or_lt_of_le hk with rfl | hkm
  · exact h.outcome_arrived hp hc hclosing hold hnew ho
  have hend := hold.not_atEnd hp.same hp.bracket hp.le hkm
  cases hparting with
  | arrived heq => exact absurd heq (Nat.ne_of_lt hkm)
  | rule rule hm hparts =>
    exact h.outcome_rule hp hc hclosing hold hnew hk ho hm hparts hkm hend hstay
  | onward rule hm p₁ q₁ j hj hmatched hmatched' hbeside next hnext _ hparts hnear hfar =>
    exact h.outcome_onward hp hc ho hk hclosing hold hnew hm hnext hmatched hmatched'
      (abuts_of_parts hp hm hnext hj hparts) hbeside hj hnear hfar hend

/-- At the start of a text nothing has been reported before the bracket. -/
theorem outcome_at_start (hp : Parted text text' c 0 m n) (hc : c ∈ brackets)
    (hclosing : (endless text' (n + 1)).isSymbol (LineStore.closing c) = true)
    (ho : Parse.Orderly carried) (hl : ∀ kind ∈ carried, kind ≠ .link) :
    Paired text' carried n c ∨
      ∃ light around, Quiet text text' carried n c 0 light around (ofText text carried) := by
  obtain rfl : n = 1 := by
    refine Nat.le_antisymm (Nat.le_of_not_lt fun hlt => ?_)
      (Nat.le_trans hp.first hp.le)
    have hfirst := Token.endless_lt hp.bracket Nat.one_pos hlt
    rw [hp.start] at hfirst
    cases hfirst
  have hold : Ongoing text carried 0 (ofText text carried) := .start text hl
  have hnew : Ongoing text' carried 0 (ofText text' carried) := .start text' hl
  have h := ofText_beside text text' carried
  have hhash : ∀ i, 1 = i + 1 → (endless text' i).isSymbol '#' = false := by
    rintro i hi
    obtain rfl : i = 0 := by omega
    rfl
  rcases hold.kinds ho c with hw | ht | hsealed
  · left
    have hw' : Welcomes c (ofText text' carried) := hw.of_stack rfl
    refine hnew.closed hc hp.bracket hclosing (.coming (Nat.zero_le 1) hw' fun i _ hi => ?_)
    obtain rfl : i = 0 := Nat.lt_one_iff.mp hi
    exact ⟨nofun, fun _ _ => rfl, nofun⟩
  · exact .inr ⟨_, ht.quiets hp hc h hold hnew (Nat.zero_le m) ho (hold.spares_zero _) (.inr hhash)⟩
  · exact .inr ⟨_, _, hold.quiets hp hc h hnew (Nat.zero_le m) hsealed (hold.spares_zero _)
      (.inr hhash)⟩

end Parser

end LineMarkup
