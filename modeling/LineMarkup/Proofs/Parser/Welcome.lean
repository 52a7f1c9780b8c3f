import LineMarkup.Proofs.Matcher.Naming
import LineMarkup.Proofs.Parser.Idling

namespace LineMarkup

open Matcher (Peg)
open Token (endless)

/-- What ends code or math, and what begins something in it where brackets are text or content. -/
def closers : List Char :=
  ['$', '[', ']', '(', ')', '\x7d', ';', '"', '\x60']

/-- Neither math nor code ends with this token, and no comment or string begins with it. -/
structure Bland (input : Nat → Token) (k : Nat) : Prop where
  line : (input k).kind ≠ .lineEnd
  signs : ∀ s ∈ closers, (input k).isSymbol s = false
  comment : (input k).isSymbol '/' = true → ∀ s ∈ ['/', '*'], (input (k + 1)).isSymbol s = false

namespace Construct

/-- The bracket `c` always opens something directly inside. -/
def welcomes (c : Char) (kind : Construct) : Bool :=
  kind.holdsCode || c = '(' && kind.holdsMath

end Construct

namespace Matcher

variable {input : Nat → Token} {m : Matcher} {i j : Nat}

theorem Peg.not_leads (h : Peg input m i (some j)) (hbland : Bland input i) :
    m.leads closers = false := by
  rw [Bool.eq_false_iff]
  intro hm
  obtain ⟨s, hs, hsymbol⟩ := h.leads hm
  rw [hbland.signs s hs] at hsymbol
  cases hsymbol

theorem Peg.not_comment (h : Peg input m i (some j)) (hbland : Bland input i) :
    m.isComment = false := by
  rw [Bool.eq_false_iff]
  intro hm
  rw [isComment, Bool.or_eq_true] at hm
  rcases hm with hm | hm <;> obtain rfl := eq_of_spells hm <;> cases h with | symbols hs
  · have hsecond := hs 1 '/' rfl
    rw [hbland.comment (hs 0 '/' rfl) '/' (by decide)] at hsecond
    cases hsecond
  · have hsecond := hs 1 '*' rfl
    rw [hbland.comment (hs 0 '/' rfl) '*' (by decide)] at hsecond
    cases hsecond

end Matcher

namespace Rule

/-- Nothing is closed, and what is opened is code, or a chain in math. -/
def keeps (inside : Construct) (rule : Rule) : Bool :=
  rule.otherwise.isEmpty &&
    match rule.actions with
    | [.push kind] => kind.holdsCode && rule.continuations.isEmpty
    | [.instant _] => rule.continuations.all fun next => next.pattern.leads closers ||
        match next.actions with
        | [.push kind] => kind.isChain && inside.holdsMath
        | _ => false
    | _ => false

/-- All that does not keep code or math as it is begins with what is not bland. -/
theorem within_keeps {inside : Construct} (h : (inside.holdsCode || inside.holdsMath) = true)
    (atContentStart : Bool) : ∀ rule ∈ within inside atContentStart,
      (rule.pattern.leads closers || rule.pattern.isComment ||
        rule.pattern.behindHash.any (fun m => m.leads closers && m.takes (fun _ => true)) ||
          rule.keeps inside) = true := by
  apply List.all_eq_true.mp
  revert h
  cases inside <;> cases atContentStart <;> decide

/-- A chain goes on, or it is closed. -/
def carriesOn (rule : Rule) : Bool :=
  match rule.actions with
  | [.instant _] =>
    rule.continuations.all (fun next => next.actions.isEmpty) && rule.otherwise == [.pop]
  | [.instant _, .pop] | [.pop] =>
    rule.continuations.all (fun next => next.pattern.leads closers) && rule.otherwise.isEmpty
  | _ => false

theorem within_carriesOn {inside : Construct} (h : inside.isChain = true) (atContentStart : Bool) :
    ∀ rule ∈ within inside atContentStart, rule.carriesOn = true := by
  apply List.all_eq_true.mp
  revert h
  cases inside <;> cases atContentStart <;> decide

/-- Only words in math may be too short. -/
theorem within_minLength (inside : Construct) (atContentStart : Bool) :
    ∀ rule ∈ within inside atContentStart,
      (rule.minLength == 0 || rule.pattern.leadsKind .word && inside.holdsMath) = true := by
  apply List.all_eq_true.mp
  cases inside <;> cases atContentStart <;> decide

end Rule

namespace Parser

variable {text : Text} {carried : List Construct} {p p' q : Parser} {rule : Rule} {c : Char}
  {j k l n : Nat}

/-- The next bracket `c` opens something, once a chain has ended. -/
def Welcomes (c : Char) (p : Parser) : Prop :=
  p.top.kind.welcomes c = true ∨
    c = '(' ∧ p.top.kind.isChain = true ∧ p.pop.top.kind.holdsMath = true

theorem Welcomes.of_stack (h : Welcomes c p) (hs : p'.stack = p.stack) : Welcomes c p' := by
  have htop : p'.top = p.top := by simp only [top, hs]
  have hpop : p'.pop.top = p.pop.top := by simp only [top, pop_congr hs]
  rwa [Welcomes, htop, hpop]

theorem Matched.lt (h : Matched text rule.pattern k j p p') (hk : p.top.kind.lapses = false)
    {acs : Bool} (hm : rule ∈ Rule.within p.top.kind acs) : k < j :=
  (Rule.within_blunt acs rule hm).lt_of_lasting h.reads hk

/-- A round takes something unless what it is in lapses. -/
theorem Turn.lt (h : Turn text k p p' l) (hk : p.top.kind.lapses = false) : k < l := by
  cases h with
  | line _ _ hm =>
    obtain ⟨i, hlow, hhigh, _⟩ := hm.reads.takes (q := fun _ => true) rfl
    exact Nat.lt_of_le_of_lt hlow hhigh
  | short acs rule listed hm => exact hm.lt hk listed
  | rule acs n rule listed missed p₁ hm hresumed =>
    exact Nat.lt_of_lt_of_le (hm.lt hk (List.mem_of_getElem? listed)) hresumed.le
  | loose => exact Nat.lt_succ_self k

theorem push_pop_top (hr : Rooted p) (kind : Construct) : (p.push kind).pop.top = p.top := by
  obtain ⟨below, hs⟩ := hr.stack_eq
  rw [top, pop, push, hs]
  rfl

section Kept

variable (hbland : ∀ i, k ≤ i → i < n → Bland (endless text) i) (hl : l ≤ n)

include hbland hl

/-- A rule that does nothing but name things, open code or begin a chain keeps what it is in. -/
theorem Matched.welcomes (h : Matched text rule.pattern k j p p')
    (hr : Resumed text rule j (p'.perform rule.actions) q l) (hw : p.top.kind.welcomes c = true)
    (hk : rule.keeps p.top.kind = true) (hsolid : rule.continuations.all
      (fun next => next.pattern.takes (fun _ => true)) = true) (hroot : Rooted p) :
    Welcomes c q := by
  simp only [Rule.keeps, Bool.and_eq_true, List.isEmpty_iff] at hk
  obtain ⟨hother, hactions⟩ := hk
  split at hactions
  · rename_i kind heq
    rw [Bool.and_eq_true, List.isEmpty_iff] at hactions
    cases hr with
    | onward next hnext => simp [hactions.2] at hnext
    | otherwise _ p₂ hp result =>
      left
      have htop : q.top.kind = kind := by
        rw [result, hother, perform, List.foldl_nil, hp.top, heq]
        rfl
      rw [htop, Construct.welcomes, hactions.1, Bool.true_or]
  · rename_i kind heq
    have hstack : (p'.perform rule.actions).stack = p.stack := by
      rw [heq]
      exact h.stack
    cases hr with
    | onward next hnext p₂ hm result =>
      have hnexts := List.all_eq_true.mp hactions next hnext
      obtain ⟨i, hlow, hhigh, _⟩ := hm.reads.takes (List.all_eq_true.mp hsolid next hnext)
      rw [hm.reads.not_leads (hbland j h.reads.le (by omega)), Bool.false_or] at hnexts
      split at hnexts
      · rename_i chain hpush
        rw [Bool.and_eq_true] at hnexts
        right
        have hround : c = '(' := by
          rw [Construct.welcomes, Bool.or_eq_true] at hw
          rcases hw with hcode | hround
          · have hmath := hnexts.2
            revert hcode hmath
            cases p.top.kind <;> simp [Construct.holdsCode, Construct.holdsMath]
          · exact of_decide_eq_true (Bool.and_eq_true_iff.mp hround).1
        have hbelow : q.pop.top = p.top := by
          have hstack : p₂.stack = p.stack := hm.stack.trans hstack
          have hroot : Rooted p₂ := by rwa [Rooted, hstack]
          rw [result, hpush]
          exact (push_pop_top hroot chain).trans (by simp only [Parser.top, hstack])
        refine ⟨hround, ?_, hbelow ▸ hnexts.2⟩
        rw [result, hpush]
        exact hnexts.1
      · cases hnexts
    | otherwise _ p₂ hp result =>
      refine Welcomes.of_stack (p := p) (.inl hw) ?_
      rw [result, hother]
      exact hp.stack.trans hstack
  · cases hactions

/-- A chain goes on or leaves what is around it. -/
theorem Matched.welcomes_behind (h : Matched text rule.pattern k j p p')
    (hr : Resumed text rule j (p'.perform rule.actions) q l) (hround : c = '(')
    (hchain : p.top.kind.isChain = true) (hmath : p.pop.top.kind.holdsMath = true)
    (hk : rule.carriesOn = true) (hsolid : rule.continuations.all
      (fun next => next.pattern.takes (fun _ => true)) = true) : Welcomes c q := by
  have hstays {r : Parser} (hs : r.stack = p.stack) : Welcomes c r :=
    Welcomes.of_stack (.inr ⟨hround, hchain, hmath⟩) hs
  have hleaves {r : Parser} (hs : r.stack = p.pop.stack) : Welcomes c r := by
    left
    have htop : r.top = p.pop.top := by simp only [Parser.top, hs]
    rw [htop, Construct.welcomes, hmath, hround]
    simp
  have hnone {next : Continuation} (hnext : next ∈ rule.continuations) {p₁ p₂ : Parser}
      (hm : Matched text next.pattern j l p₁ p₂) : next.pattern.leads closers = false := by
    obtain ⟨i, hlow, hhigh, _⟩ := hm.reads.takes (List.all_eq_true.mp hsolid next hnext)
    exact hm.reads.not_leads (hbland j h.reads.le (by omega))
  unfold Rule.carriesOn at hk
  split at hk
  · rename_i kind heq
    simp only [Bool.and_eq_true, List.all_eq_true, List.isEmpty_iff, beq_iff_eq] at hk
    have hstack : (p'.perform rule.actions).stack = p.stack := by
      rw [heq]
      exact h.stack
    cases hr with
    | onward next hnext p₂ hm result =>
      rw [result, hk.1 next hnext]
      exact hstays (hm.stack.trans hstack)
    | otherwise _ p₂ hp result =>
      rw [result, hk.2]
      exact hleaves (pop_congr (hp.stack.trans hstack))
  · rename_i kind heq
    simp only [Bool.and_eq_true, List.all_eq_true, List.isEmpty_iff] at hk
    cases hr with
    | onward next hnext p₂ hm result =>
      have hnexts := hk.1 next hnext
      rw [hnone hnext hm] at hnexts
      cases hnexts
    | otherwise _ p₂ hp result =>
      rw [result, hk.2]
      refine hleaves (hp.stack.trans ?_)
      rw [heq]
      exact pop_congr (p := p) h.stack
  · rename_i heq
    simp only [Bool.and_eq_true, List.all_eq_true, List.isEmpty_iff] at hk
    cases hr with
    | onward next hnext p₂ hm result =>
      have hnexts := hk.1 next hnext
      rw [hnone hnext hm] at hnexts
      cases hnexts
    | otherwise _ p₂ hp result =>
      rw [result, hk.2]
      refine hleaves (hp.stack.trans ?_)
      rw [heq]
      exact pop_congr h.stack
  · cases hk

/-- A round that does not get to the bracket yet. -/
theorem Turn.welcomes (h : Turn text k p p' l) (hw : Welcomes c p) (hroot : Rooted p) :
    Welcomes c p' := by
  cases h with
  | line _ p₁ hm =>
    obtain ⟨i, hlow, hhigh, _⟩ := hm.reads.takes (q := fun _ => true) rfl
    have hline : (endless text k).kind = .lineEnd := hm.reads.leadsKind rfl
    exact absurd hline (hbland k (Nat.le_refl k) (by omega)).line
  | short _ _ _ hm => exact hw.of_stack hm.stack
  | loose _ _ _ _ _ hstack => exact hw.of_stack hstack
  | @rule j _ acs n rule listed missed p₁ hm hresumed first =>
    have hmem := List.mem_of_getElem? listed
    have hblunt := Rule.within_blunt acs rule hmem
    have hsolid : rule.continuations.all
        (fun next => next.pattern.takes (fun _ => true)) = true :=
      List.all_eq_true.mpr fun next hnext => (hblunt.onward next hnext).takes
    rcases hw with hw | ⟨hround, hchain, hmath⟩
    · have hholds : (p.top.kind.holdsCode || p.top.kind.holdsMath) = true := by
        simp only [Construct.welcomes, Bool.or_eq_true, Bool.and_eq_true] at hw ⊢
        exact hw.imp_right And.right
      have hlapses : p.top.kind.lapses = false := by
        revert hholds
        cases p.top.kind <;> simp [Construct.holdsCode, Construct.holdsMath, Construct.lapses]
      have hkj := hm.lt hlapses hmem
      have hjl := hresumed.le
      have hfirst := hbland k (Nat.le_refl k) (by omega)
      have hkeeps := Rule.within_keeps hholds acs rule hmem
      have hhash : rule.pattern.behindHash.any
          (fun m => m.leads closers && m.takes (fun _ => true)) = false := by
        rw [Bool.eq_false_iff]
        intro hany
        obtain ⟨m, hbehind, hboth⟩ := (Option.any_eq_true _ _).mp hany
        rw [Bool.and_eq_true] at hboth
        have hreads := hm.reads.behindHash hbehind
        obtain ⟨i, hlow, hhigh, _⟩ := hreads.takes hboth.2
        rw [hreads.not_leads (hbland (k + 1) (Nat.le_succ k) (by omega))] at hboth
        cases hboth.1
      rw [hm.reads.not_leads hfirst, hm.reads.not_comment hfirst, hhash] at hkeeps
      exact hm.welcomes hbland hl hresumed hw (by simpa using hkeeps) hsolid hroot
    · exact hm.welcomes_behind hbland hl hresumed hround hchain hmath
        (Rule.within_carriesOn hchain acs rule hmem) hsolid

end Kept

/-- The rule that is followed does not come after one that can be read. -/
theorem Turn.upto (h : Turn text k p p' l) {rule : Rule} {i : Nat}
    (hlisted : ∀ acs, (Rule.within p.top.kind acs)[i]? = some rule)
    (hreads : Peg (endless text) rule.pattern k (some j)) (hline : (endless text k).kind ≠ .lineEnd)
    (hshort : p.top.kind.holdsMath = true → (endless text k).kind ≠ .word) :
    ∃ acs i', ∃ rule' p₁ j', i' ≤ i ∧ (Rule.within p.top.kind acs)[i']? = some rule' ∧
      Matched text rule'.pattern k j' p p₁ ∧
      Resumed text rule' j' (p₁.perform rule'.actions) p' l ∧
      (Token.Stream.Clean p.stream →
        (∀ r ∈ (Rule.within p.top.kind acs).take i', r.pattern.plain = true) →
        rule'.isShown = true → p₁.mark.start = (endless text k).start) := by
  cases h with
  | line _ _ hm => exact absurd (hm.reads.leadsKind rfl) hline
  | short acs rule' listed hm long =>
    have hlength := Rule.within_minLength p.top.kind acs rule' listed
    simp only [Bool.or_eq_true, Bool.and_eq_true, beq_iff_eq] at hlength
    obtain ⟨hword, hmath⟩ := hlength.resolve_left (by omega)
    exact absurd (hm.reads.leadsKind hword) (hshort hmath)
  | loose acs missed => cases (missed rule (List.mem_of_getElem? (hlisted acs))).unique hreads
  | rule acs i' rule' listed missed p₁ hm hresumed first =>
    refine ⟨acs, i', rule', p₁, _, ?_, listed, hm, hresumed, first⟩
    refine Nat.le_of_not_lt fun hlt => ?_
    have hmem : rule ∈ (Rule.within p.top.kind acs).take i' := by
      refine List.mem_of_getElem? (i := i) ?_
      rw [List.getElem?_take_of_lt hlt]
      exact hlisted acs
    cases (missed rule hmem).unique hreads

section Code

variable (hc : c ∈ brackets) (hcode : (p.top.kind.holdsContent || p.top.kind.holdsMath) = true)
  (hhash : (endless text k).isSymbol '#' = true)

include hc hcode hhash

/-- Right behind a hash a bracket opens something. -/
theorem Turn.behind_hash (h : Turn text k p p' l) (hn : (endless text (k + 1)).isSymbol c = true) :
    k + 1 < l := by
  have hlapses : p.top.kind.lapses = false := by
    revert hcode
    cases p.top.kind <;> simp [Construct.holdsContent, Construct.holdsMath, Construct.lapses]
  refine Nat.lt_of_le_of_ne (h.lt hlapses) ?_
  rintro rfl
  obtain ⟨htop, hcontent, hmath, _⟩ := Turn.hash_loose (Nat.lt_succ_self k) hn h hc rfl hhash
  rw [htop] at hcontent hmath
  rw [hcontent, hmath] at hcode
  cases hcode

omit hc in
/-- A keyword behind a hash begins a line of code, and the name of a function a call. -/
theorem Turn.upto_hash (h : Turn text k p p' l) {i : Nat} (hi : i = 2 ∨ i = 3)
    (hreads : ∀ rule, (Rule.comments ++ Rule.codeStart)[i]? = some rule →
      Peg (endless text) rule.pattern k (some j)) :
    (∃ p₁, Matched text (.seq (.symbol '#') Matcher.codeKeyword) k l p p₁ ∧
      p'.top.kind = .codeLine ∧ p'.events = .push p'.top p₁.mark.stop :: p.events ∧
      (Token.Stream.Clean p.stream → p'.top.start = (endless text k).start)) ∨
    (i = 3 ∧ ∃ p₁ j', Matched text (.seq (.symbol '#') Rule.functionName) k j' p p₁ ∧
      Resumed text Rule.codeStart[1] j' (p₁.perform [.instant .codeFunction]) p' l) := by
  have hplace (acs : Bool) {n : Nat} (hn : n ≤ 3) : (Rule.within p.top.kind acs)[n]? =
      (Rule.comments ++ Rule.codeStart)[n]? := by
    obtain ⟨rest, hsplit⟩ := Rule.within_codeStart acs hcode
    rw [hsplit, List.getElem?_append_left (Nat.lt_of_le_of_lt hn (by decide))]
  have hthree : i ≤ 3 := by omega
  obtain ⟨rule, hrule⟩ : ∃ rule, (Rule.comments ++ Rule.codeStart)[i]? = some rule := by
    rcases hi with rfl | rfl <;> exact ⟨_, rfl⟩
  have hsymbol := Matcher.isSymbol_kind hhash
  obtain ⟨acs, n, rule', p₁, j', hn, hlisted, hm, hresumed, hfirst⟩ :=
    h.upto (fun acs => (hplace acs hthree).trans hrule) (hreads rule hrule)
      (by rw [hsymbol]; decide) (fun _ => by rw [hsymbol]; decide)
  rw [hplace acs (Nat.le_trans hn hthree)] at hlisted
  have hslash (text' : Text) (hhead : text'.head? = some '/')
      (hreads : Peg (endless text) (.symbols text') k (some j')) : False := by
    cases hreads with | symbols hs =>
    have hfirst := hs 0 '/' (by rwa [← List.head?_eq_getElem?])
    cases Matcher.isSymbol_unique hhash hfirst
  match n, hn with
  | 0, _ =>
    obtain rfl := Option.some.inj hlisted
    exact (hslash _ rfl hm.reads).elim
  | 1, _ =>
    obtain rfl := Option.some.inj hlisted
    exact (hslash _ rfl hm.reads).elim
  | 2, _ =>
    obtain rfl := Option.some.inj hlisted
    left
    cases hresumed with
    | onward next hnext => cases hnext
    | otherwise _ p₂ hp result =>
      have htop : p'.top = (p₁.push .codeLine).top := by
        rw [result]
        exact hp.top
      refine ⟨p₁, hm, by rw [htop]; rfl, ?_, fun hclean => ?_⟩
      · rw [htop, result, ← hm.events]
        exact hp.events
      · have hplain : ∀ r ∈ (Rule.within p.top.kind acs).take 2, r.pattern.plain = true := by
          obtain ⟨rest, hsplit⟩ := Rule.within_codeStart acs hcode
          rw [hsplit]
          simp [Rule.comments, Rule.codeStart, Matcher.plain]
        rw [htop]
        exact hfirst hclean hplain (by decide)
  | 3, hn =>
    obtain rfl := Option.some.inj hlisted
    exact .inr ⟨by omega, p₁, j', hm, hresumed⟩
  | n + 4, hn => omega

end Code

/-- The arguments of a call are taken with its name. -/
theorem Resumed.called (h : Resumed text rule n p p' l) (hc : c = '(' ∨ c = '[')
    (hnexts : rule.continuations = Rule.callArguments)
    (hn : (endless text n).isSymbol c = true) : n < l := by
  have htakes : Rule.callArguments.all (fun next => next.pattern.takes (fun _ => true)) = true := by
    decide
  cases h with
  | onward next hnext p₁ hm =>
    rw [hnexts] at hnext
    obtain ⟨i, hlow, hhigh, _⟩ := hm.reads.takes (List.all_eq_true.mp htakes next hnext)
    exact Nat.lt_of_le_of_lt hlow hhigh
  | otherwise hmissed =>
    rw [hnexts] at hmissed
    have hround := (hmissed Rule.callArguments[0] (by simp [Rule.callArguments]) rfl).not_isSymbol
    have hsquare := (hmissed Rule.callArguments[1] (by simp [Rule.callArguments]) rfl).not_isSymbol
    rcases hc with rfl | rfl
    · rw [hn] at hround
      cases hround
    · rw [hn] at hsquare
      cases hsquare

section Named

variable (hn : (endless text n).isSymbol c = true)

include hn

theorem Matched.keyword_end {p₁ : Parser} (hname : Matcher.Named (endless text) (k + 1) j n)
    (hm : Matched text (.seq (.symbol '#') Matcher.codeKeyword) k l p p₁) : l = j := by
  have hreads := hm.reads
  cases hreads with | seq hsign hkeyword =>
  cases hsign
  cases hkeyword with | keyword hword =>
  exact Option.some.inj (hword.unique (hname.fullWord (hname.ends hn)))

/-- A name behind a hash is that of a function, or it begins a line of code. -/
theorem Turn.hash_called (h : Turn text k p p' l)
    (hcode : (p.top.kind.holdsContent || p.top.kind.holdsMath) = true)
    (hhash : (endless text k).isSymbol '#' = true)
    (hname : Matcher.Named (endless text) (k + 1) j n) (hc : c = '(' ∨ c = '[') :
    n < l ∨ l ≤ n ∧ p'.top.kind = .codeLine := by
  have hreads : ∀ rule, (Rule.comments ++ Rule.codeStart)[3]? = some rule →
      Peg (endless text) rule.pattern k (some n) := by
    intro rule hrule
    obtain rfl := Option.some.inj hrule
    exact .seq (.symbol hhash) (hname.functionName hn hc)
  rcases h.upto_hash hcode hhash (.inr rfl) hreads with
    ⟨p₁, hm, hline, _⟩ | ⟨_, p₁, j', hm, hresumed⟩
  · refine .inr ⟨?_, hline⟩
    rw [hm.keyword_end hn hname]
    exact hname.le
  · have hreads' := hm.reads
    cases hreads' with | seq hsign hcall =>
    cases hsign
    obtain rfl := Option.some.inj (hcall.unique (hname.functionName hn hc))
    exact .inl (hresumed.called hc rfl hn)

/-- A keyword behind a hash begins a line of code. -/
theorem Turn.hash_keyword (h : Turn text k p p' l)
    (hcode : (p.top.kind.holdsContent || p.top.kind.holdsMath) = true)
    (hhash : (endless text k).isSymbol '#' = true)
    (hname : Matcher.Named (endless text) (k + 1) j n)
    (hkeyword : Peg (endless text) Matcher.codeKeyword (k + 1) (some j)) :
    l ≤ n ∧ p'.top.kind = .codeLine := by
  have hreads : ∀ rule, (Rule.comments ++ Rule.codeStart)[2]? = some rule →
      Peg (endless text) rule.pattern k (some j) := by
    intro rule hrule
    obtain rfl := Option.some.inj hrule
    exact .seq (.symbol hhash) hkeyword
  rcases h.upto_hash hcode hhash (.inl rfl) hreads with ⟨p₁, hm, hline, _⟩ | ⟨hno, _⟩
  · refine ⟨?_, hline⟩
    rw [hm.keyword_end hn hname]
    exact hname.le
  · cases hno

/-- So is a name in a chain. -/
theorem Turn.chain_called (h : Turn text k p p' l) (hchain : p.top.kind = .codeChain)
    (hname : Matcher.Named (endless text) k j n) (hc : c = '(' ∨ c = '[') : n < l := by
  have hcall := hname.functionName hn hc
  have hword : (endless text k).kind = .word := hname.words k (Nat.le_refl k) hname.lt
  have hplace (acs : Bool) : (Rule.within p.top.kind acs)[0]? = some Rule.inCodeChain[0] := by
    rw [hchain]
    rfl
  have hmath : p.top.kind.holdsMath = false := by rw [hchain]; rfl
  obtain ⟨acs, i, rule, p₁, j', hi, hlisted, hm, hresumed, _⟩ :=
    h.upto hplace hcall (by rw [hword]; decide) (fun hyes => by rw [hmath] at hyes; cases hyes)
  obtain rfl : i = 0 := Nat.le_zero.mp hi
  rw [hplace acs] at hlisted
  obtain rfl := Option.some.inj hlisted
  obtain rfl := Option.some.inj (hm.reads.unique hcall)
  exact hresumed.called hc rfl hn

end Named

/-- How it comes that the bracket `c` at token `n` opens something that its closing one ends. -/
inductive Bound (text : Text) (n : Nat) (c : Char) (k : Nat) (p : Parser) : Prop
  | coming (le : k ≤ n) (welcomes : Welcomes c p)
      (bland : ∀ i, k ≤ i → i < n → Bland (endless text) i)
  | opened (next : k = n + 1) (earlier : List Event)
      (events : p.events = .push p.top (endless text (n + 1)).start :: earlier)
      (kind : p.top.kind.opening? = some c)
  | closed (frame : Frame) (later earlier : List Event)
      (events : p.events = later ++ .pop frame (endless text (n + 2)).start false ::
        .push frame (endless text (n + 1)).start :: earlier)
      (kind : frame.kind.opening? = some c)

/-- The bracket `c` at token `n` opens something that ends with its closing one, right behind. -/
def Paired (text : Text) (carried : List Construct) (n : Nat) (c : Char) : Prop :=
  ∃ frame later earlier, (finish text carried).events =
    later ++ .pop frame (endless text (n + 2)).start false ::
      .push frame (endless text (n + 1)).start :: earlier ∧ frame.kind.opening? = some c

section Bracket

variable (hc : c ∈ brackets) (hi : (endless text n).isSymbol c = true)

include hc hi

/-- A round over the bracket opens something with it. -/
theorem Turn.over (h : Turn text k p p' l) (hk : k < n ∨ k = n ∧ Welcomes c p) (hl : n < l) :
    Bound text n c l p' := by
  have hkn : k ≤ n := by omega
  obtain ⟨hnext, ⟨earlier, events, kind⟩ | ⟨heq, hcode, hmath, _⟩⟩ := h.bracket hc hi hkn hl
  · exact .opened hnext earlier events kind
  · obtain ⟨_, hw⟩ := hk.resolve_left (Nat.not_lt.mpr (Nat.le_of_eq heq.symm))
    exfalso
    rcases hw with hw | ⟨_, hchain, _⟩
    · rw [Construct.welcomes, hcode, Bool.false_or, Bool.and_eq_true] at hw
      rw [hmath (of_decide_eq_true hw.1)] at hw
      cases hw.2
    · have hword : (endless text k).kind ≠ .word := by
        rw [heq, Matcher.isSymbol_kind hi]
        decide
      have hsame := (h.breaks (c := c) 0 hchain hword).1
      omega

variable (hclosing : (endless text (n + 1)).isSymbol (LineStore.closing c) = true)

include hclosing

theorem Bound.step {start : List Frame} {pos : Nat} (h : Bound text n c k p)
    (ht : Turn text k p p' l) (hs : Steady text.size start pos p) : Bound text n c l p' := by
  cases h with
  | coming le welcomes bland =>
    rcases Nat.lt_or_ge n l with hlt | hge
    · refine ht.over hc hi ?_ hlt
      exact (Nat.lt_or_eq_of_le le).imp_right fun heq => ⟨heq, welcomes⟩
    · refine .coming hge (ht.welcomes bland hge welcomes hs.rooted) fun i hlow => bland i ?_
      exact Nat.le_trans ht.le hlow
  | opened next earlier events kind =>
    subst next
    obtain ⟨later, hlater⟩ := ht.closing hc hs.rooted kind hclosing
    exact .closed p.top later earlier (by rw [hlater, events]) kind
  | closed frame later earlier events kind =>
    obtain ⟨new, hnew⟩ := ht.suffix
    exact .closed frame (new ++ later) earlier (by rw [← hnew, events, List.append_assoc]) kind

/-- In the end both brackets belong together. -/
theorem Ongoing.closed (h : Ongoing text carried k p) (hb : Bound text n c k p) :
    Paired text carried n c := by
  obtain ⟨l, hlast, hbound⟩ := h.run (P := Bound text n c) hb
    fun hq hP _ hturn _ => hP.step hc hi hclosing hturn hq.steady
  have hend : (finish text carried).stream.atEnd = true := ofText_atEnd text carried
  cases hbound with
  | coming le => simp [hlast.coming.not_atEnd hi le] at hend
  | opened next => simp [hlast.coming.not_atEnd hclosing (Nat.le_of_eq next)] at hend
  | closed frame later earlier events kind => exact ⟨frame, later, earlier, events, kind⟩

end Bracket

end Parser

end LineMarkup
