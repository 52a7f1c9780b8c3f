import LineMarkup.Proofs.Parser.Beside
import LineMarkup.Proofs.Parser.Pairing
import LineMarkup.Proofs.Parser.Story
import LineMarkup.Proofs.Token.Symbol

namespace LineMarkup

open Matcher (Peg)
open Token (endless)

namespace Construct

def isComment : Construct → Bool
  | .commentLine | .commentBlock => true
  | _ => false

end Construct

namespace Action

/-- Neither a link nor a comment begins. -/
def sits : Action → Bool
  | .push kind => kind ≠ .link && !kind.isComment
  | _ => true

end Action

namespace Matcher

def spells (text : Text) : Matcher → Bool
  | .symbols other => other = text
  | _ => false

theorem eq_of_spells {text : Text} {m : Matcher} (h : m.spells text = true) :
    m = .symbols text := by
  unfold spells at h
  split at h
  · rw [of_decide_eq_true h]
  · cases h

/-- A match begins a comment. -/
def isComment (m : Matcher) : Bool :=
  m.spells "//".toList || m.spells "/*".toList

end Matcher

namespace Rule

def beginsComment (rule : Rule) : Bool :=
  rule.actions == [.push .commentLine] || rule.actions == [.push .commentBlock]

/-- Links begin in content, and by themselves, comments with their marks. -/
def isSeated (inside : Construct) (rule : Rule) : Bool :=
  rule.otherwise.all Action.sits && rule.continuations.all (·.actions.all Action.sits) &&
    (rule.actions.all Action.sits ||
      rule.continuations.isEmpty && rule.otherwise.isEmpty &&
        (rule.actions == [.push .link] && inside.holdsContent ||
          rule.beginsComment && rule.pattern.isComment))

theorem within_seated (inside : Construct) (atContentStart : Bool) :
    ∀ rule ∈ within inside atContentStart, rule.isSeated inside = true := by
  apply List.all_eq_true.mp
  cases inside <;> cases atContentStart <;> decide

/-- Only rules with plain patterns are tried before those for comments. -/
theorem within_comments (inside : Construct) (atContentStart : Bool) :
    ∀ n < (within inside atContentStart).length,
      ((within inside atContentStart)[n]?).any beginsComment = true →
        ((within inside atContentStart).take n).all (·.pattern.plain) = true := by
  cases inside <;> cases atContentStart <;> decide

end Rule

namespace Parser

variable {text text' : Text} {carried : List Construct} {p p' q : Parser} {rule : Rule} {c : Char}
  {i j k l n pos limit : Nat}

/-- What is known of links and comments on a stack: links stand in content, and comments have begun
with both characters of their mark. -/
structure Seated (pos : Nat) (stack : List Frame) : Prop where
  links : stack.IsChain fun inner outer => inner.kind = .link → outer.kind.holdsContent = true
  comments : ∀ f ∈ stack, f.kind.isComment = true → f.carried = false → f.start + 2 ≤ pos

namespace Seated

theorem mono {stack : List Frame} (h : Seated pos stack) (hle : pos ≤ i) : Seated i stack :=
  ⟨h.links, fun f hf hk hc => Nat.le_trans (h.comments f hf hk hc) hle⟩

theorem pop (h : Seated pos (stack p)) : Seated pos p.pop.stack := by
  unfold Parser.pop
  split
  · rename_i hs
    rw [hs] at h
    exact ⟨h.links.tail, fun f hf => h.comments f (List.mem_cons_of_mem _ hf)⟩
  · exact h

theorem push (h : Seated pos (stack p)) (hr : Rooted p) {kind : Construct}
    (hlink : kind = .link → p.top.kind.holdsContent = true)
    (hcomment : kind.isComment = true → p.mark.start + 2 ≤ pos) :
    Seated pos (p.push kind).stack := by
  obtain ⟨below, hs⟩ := hr.stack_eq
  refine ⟨?_, fun f hf hk _ => ?_⟩
  · have hlinks := h.links
    rw [hs] at hlinks
    simp only [Parser.push, hs]
    exact List.isChain_cons_cons.mpr ⟨hlink, hlinks⟩
  · rcases List.mem_cons.mp hf with rfl | hf
    · exact hcomment hk
    · exact h.comments f hf hk (by assumption)

theorem perform (h : Seated pos (stack p)) (hr : Rooted p) {actions : List Action}
    (ha : actions.all Action.sits = true) : Seated pos (p.perform actions).stack := by
  refine (perform_induction (P := fun q => Rooted q ∧ Seated pos q.stack)
    (fun action hm q ⟨hroot, hq⟩ => ⟨hroot.act action, ?_⟩) ⟨hr, h⟩).2
  have hsits := List.all_eq_true.mp ha action hm
  cases action with
  | push kind =>
    simp only [Action.sits, Bool.and_eq_true, Bool.not_eq_true', decide_eq_true_eq] at hsits
    refine hq.push hroot (fun hk => absurd hk hsits.1) fun hk => ?_
    rw [hsits.2] at hk
    cases hk
  | pop => exact hq.pop
  | instant | startContent => exact hq
  | popMath => exact popMath_induction (P := fun r => Seated pos r.stack) (fun _ hr => hr.pop) hq

end Seated

/-- The mark of a comment takes two characters. -/
theorem comment_marked {m : Matcher} (hm : m.isComment = true)
    (h : Peg (endless text) m k (some j)) :
    (endless text k).start + 2 ≤ (endless text j).start := by
  have hone {i : Nat} {s : Char} (hs : s.utf8Size = 1) (hi : (endless text i).isSymbol s = true) :
      (endless text (i + 1)).start = (endless text i).start + 1 := by
    rw [← Token.endless_stop, Token.endless_extent hi, hs]
  have htwo {s : Char} (hs : s.utf8Size = 1) (hm : m.spells ['/', s] = true) :
      (endless text k).start + 2 ≤ (endless text j).start := by
    obtain rfl := Matcher.eq_of_spells hm
    cases h with
    | symbols hspells =>
      have hfirst : (endless text k).isSymbol '/' = true := hspells 0 '/' rfl
      have hsecond : (endless text (k + 1)).isSymbol s = true := hspells 1 s rfl
      have hlength : k + ['/', s].length = k + 1 + 1 := rfl
      rw [hlength, hone hs hsecond, hone rfl hfirst]
  rw [Matcher.isComment, Bool.or_eq_true] at hm
  rcases hm with hline | hblock
  · exact htwo rfl hline
  · exact htwo rfl hblock

theorem Turn.seated (h : Turn text k p p' l) (hs : Seated (endless text k).start p.stack)
    (hr : Rooted p) (hclean : Token.Stream.Clean p.stream) :
    Seated (endless text l).start p'.stack := by
  have hmatched {m : Matcher} {p₁ : Parser} {j : Nat} (hm : Matched text m k j p p₁) :
      Seated (endless text j).start p₁.stack ∧ Rooted p₁ := by
    rw [Rooted, hm.stack]
    exact ⟨hs.mono (Token.endless_le hm.reads.le), hr⟩
  cases h with
  | line _ p₁ hm acs result =>
    rw [result]
    exact (hmatched hm).1.pop
  | short _ _ _ hm => exact (hmatched hm).1
  | loose _ _ _ _ _ hstack =>
    rw [hstack]
    exact hs.mono (Token.endless_le (Nat.le_succ k))
  | @rule j _ acs n rule listed missed p₁ hm hresumed first =>
    have hlt := (List.getElem?_eq_some_iff.mp listed).1
    have hseated := Rule.within_seated p.top.kind acs rule (List.mem_of_getElem? listed)
    simp only [Rule.isSeated, Bool.and_eq_true, Bool.or_eq_true, List.isEmpty_iff, beq_iff_eq]
      at hseated
    obtain ⟨⟨hother, hnexts⟩, hactions⟩ := hseated
    obtain ⟨hstack, hroot⟩ := hmatched hm
    have hperformed : Seated (endless text j).start (p₁.perform rule.actions).stack := by
      rcases hactions with hsits | ⟨_, ⟨hlink, hholds⟩ | ⟨hcomment, hmark⟩⟩
      · exact hstack.perform hroot hsits
      · rw [hlink]
        refine hstack.push hroot (fun _ => hm.top ▸ hholds) fun hcomment => ?_
        cases hcomment
      · -- What is tried before the rule discards nothing, and its mark is all that it takes.
        have hplain : ∀ r ∈ (Rule.within p.top.kind acs).take n, r.pattern.plain = true := by
          refine List.all_eq_true.mp (Rule.within_comments p.top.kind acs n hlt ?_)
          rwa [listed, Option.any_some]
        have hshown : rule.isShown = true := by
          rw [Matcher.isComment, Bool.or_eq_true] at hmark
          rcases hmark with hmark | hmark <;>
            · rw [Rule.isShown, Matcher.eq_of_spells hmark]
              decide
        have hstart := first hclean hplain hshown
        have hpush (kind : Construct) (hk : kind ≠ .link) (hactions : rule.actions = [.push kind]) :
            Seated (endless text j).start (p₁.perform rule.actions).stack := by
          rw [hactions]
          refine hstack.push hroot (fun hlink => absurd hlink hk) fun _ => ?_
          rw [hstart]
          exact comment_marked hmark hm.reads
        simp only [Rule.beginsComment, Bool.or_eq_true, beq_iff_eq] at hcomment
        rcases hcomment with hcomment | hcomment
        · exact hpush .commentLine (by decide) hcomment
        · exact hpush .commentBlock (by decide) hcomment
    have hrooted := hroot.perform rule.actions
    cases hresumed with
    | onward next hnext p₂ hm' result =>
      rw [result]
      refine Seated.perform ?_ ?_ (List.all_eq_true.mp hnexts next hnext)
      · rw [hm'.stack]
        exact hperformed.mono (Token.endless_le hm'.reads.le)
      · rw [Rooted, hm'.stack]
        exact hrooted
    | otherwise _ p₂ hp result =>
      rw [result]
      refine Seated.perform ?_ ?_ hother
      · rw [hp.stack]
        exact hperformed
      · rw [Rooted, hp.stack]
        exact hrooted

/-- The parser after all rounds. -/
def finish (text : Text) (carried : List Construct) : Parser :=
  (ofText text carried).rounds (ofText text carried).roundLimit

/-- Only one token comes next. -/
theorem Coming.unique (h : Coming text k p) (h' : Coming text l p) :
    endless text k = endless text l := by
  obtain ⟨⟨released, rfl, hf⟩, hpoised⟩ := h
  obtain ⟨⟨released', rfl, hf'⟩, _⟩ := h'
  have hposition : p.stream.position = 0 := List.length_eq_zero_iff.mpr hpoised.consumed
  have hfetch : p.stream.fetch.1.unmarked = endless text (released.length + p.stream.position) :=
    hf.fetch
  have hfetch' : p.stream.fetch.1.unmarked = endless text (released'.length + p.stream.position) :=
    hf'.fetch
  rw [hposition, Nat.add_zero] at hfetch hfetch'
  exact hfetch.symm.trans hfetch'

theorem Coming.unique_symbol (h : Coming text k p) (h' : Coming text l p)
    (hi : (endless text k).isSymbol c = true) : k = l := by
  have hsame := h.unique h'
  have hi' : (endless text l).isSymbol c = true := hsame ▸ hi
  have hpos {i : Nat} (hi : (endless text i).isSymbol c = true) : 0 < i := by
    refine Nat.pos_of_ne_zero ?_
    rintro rfl
    cases hi
  rcases Nat.lt_trichotomy k l with hlt | heq | hgt
  · have hstart := Token.endless_lt hi' (hpos hi) hlt
    rw [hsame] at hstart
    exact absurd hstart (Nat.lt_irrefl _)
  · exact heq
  · have hstart := Token.endless_lt hi (hpos hi') hgt
    rw [hsame] at hstart
    exact absurd hstart (Nat.lt_irrefl _)

/-- Whether a parser has come beyond a symbol does not depend on how its tokens are counted. -/
theorem Coming.le_symbol (h : Coming text k p) (h' : Coming text l p)
    (hi : (endless text n).isSymbol c = true) (hk : k ≤ n) : l ≤ n := by
  refine Nat.le_of_not_lt fun hlt => ?_
  have hle : (endless text (n + 1)).start ≤ (endless text k).start := by
    rw [h.unique h']
    exact Token.endless_le hlt
  have hle' : (endless text k).start ≤ (endless text n).start := Token.endless_le hk
  have hwidth := c.utf8Size_pos
  rw [← Token.endless_stop, Token.endless_extent hi] at hle
  omega

/-- What is known of the parse of a text before the round that takes token `k`. -/
structure Ongoing (text : Text) (carried : List Construct) (k : Nat) (p : Parser) : Prop where
  coming : Coming text k p
  steady : Steady text.size (Frame.around carried) (endless text k).start p
  told : Told text (Frame.around carried) p
  seated : Seated (endless text k).start p.stack
  unbidden : ∀ c ∈ brackets, (endless text k).isSymbol c = true → Unbidden text k c p.events p.top
  ends : ∃ fuel, p.rounds fuel = finish text carried

namespace Ongoing

theorem start (text : Text) (hc : ∀ kind ∈ carried, kind ≠ .link) :
    Ongoing text carried 0 (ofText text carried) := by
  refine ⟨ofText_coming text carried, ofText_steady text carried, ofText_told text carried,
    ⟨?_, ?_⟩, fun _ _ hi => (by cases hi), _, rfl⟩
  · have hlinks : ∀ f ∈ Frame.around carried, f.kind ≠ .link :=
      Frame.forall_mem_around (by decide) hc
    exact (List.pairwise_of_forall_mem_list fun inner hinner _ _ hk =>
      absurd hk (hlinks inner hinner)).isChain
  · intro f hf _ hnew
    have hcarried : ∀ f ∈ Frame.around carried, f.carried = true :=
      Frame.forall_mem_around rfl fun _ _ => rfl
    rw [hcarried f hf] at hnew
    cases hnew

theorem step (h : Ongoing text carried k p) (hend : p.stream.atEnd = false) :
    ∃ l, Turn text k p p.step l ∧ Ongoing text carried l p.step := by
  obtain ⟨l, hturn, hcoming⟩ := step_turn h.coming
  obtain ⟨pos, _, hsteady⟩ := step_steady h.steady
  have hpos : pos = (endless text l).start :=
    hsteady.poised.tiles.start_unique hcoming.poised.tiles
  subst hpos
  refine ⟨l, hturn, hcoming, hsteady, step_told h.told h.steady,
    hturn.seated h.seated h.steady.rooted h.steady.clean, fun c hc hi => ?_, ?_⟩
  · rcases Nat.eq_or_lt_of_le hturn.le with rfl | hlt
    · exact hturn.unbidden_still hi hc (h.unbidden c hc hi)
    · exact hturn.unbidden h.steady h.coming hlt hi hc
  obtain ⟨fuel, hfuel⟩ := h.ends
  cases fuel with
  | zero =>
    have hatEnd : (finish text carried).stream.atEnd = true := ofText_atEnd text carried
    rw [← hfuel] at hatEnd
    exact absurd (hend.symm.trans hatEnd) Bool.false_ne_true
  | succ fuel =>
    refine ⟨fuel, ?_⟩
    rwa [rounds, if_neg (by simp [hend])] at hfuel

theorem of_coming (h : Ongoing text carried k p) (hl : Coming text l p) :
    Ongoing text carried l p := by
  have hstart : (endless text k).start = (endless text l).start :=
    h.coming.poised.tiles.start_unique hl.poised.tiles
  refine ⟨hl, hstart ▸ h.steady, h.told, hstart ▸ h.seated, fun c hc hi => ?_, h.ends⟩
  obtain rfl := hl.unique_symbol h.coming hi
  exact h.unbidden c hc hi

/-- What holds of a parser and of all that a round makes of it holds at the end. -/
theorem run {P : Nat → Parser → Prop} (h : Ongoing text carried k p) (hp : P k p)
    (hstep : ∀ {k p l}, Ongoing text carried k p → P k p → p.stream.atEnd = false →
      Turn text k p p.step l → Ongoing text carried l p.step → P l p.step) :
    ∃ l, Ongoing text carried l (finish text carried) ∧ P l (finish text carried) := by
  obtain ⟨fuel, hfuel⟩ := h.ends
  induction fuel generalizing k p with
  | zero => exact ⟨k, hfuel ▸ h, hfuel ▸ hp⟩
  | succ fuel ih =>
    rw [rounds] at hfuel
    split at hfuel
    · exact ⟨k, hfuel ▸ h, hfuel ▸ hp⟩
    · rename_i hend
      rw [Bool.not_eq_true] at hend
      obtain ⟨l, hturn, hnext⟩ := h.step hend
      exact ih hnext (hstep h hp hend hturn hnext) hfuel

end Ongoing

theorem ongoing_finish (text : Text) (hc : ∀ kind ∈ carried, kind ≠ .link) :
    ∃ k, Ongoing text carried k (finish text carried) := by
  obtain ⟨k, hfinish, _⟩ := (Ongoing.start text hc).run (P := fun _ _ => True) trivial
    fun _ _ _ _ _ => trivial
  exact ⟨k, hfinish⟩

section Both

variable (hsame : ∀ j < limit, endless text' j = endless text j) (hpos : 0 < limit)
  (hi : (endless text' n).isSymbol c = true) (hn : limit ≤ n)

include hsame hi hn

/-- Before the tokens differ there is a bracket to come. -/
theorem Ongoing.not_atEnd (hk : k < limit) (h : Ongoing text carried k p) :
    p.stream.atEnd = false := by
  rw [Bool.eq_false_iff]
  intro hend
  have hkind : (endless text' k).kind ≠ .textEnd := Token.not_textEnd hi (by omega)
  exact hkind (hsame k hk ▸ h.coming.kind_atEnd hend)

include hpos

/-- Two parsers that have done the same go on doing the same until they come apart. -/
theorem Beside.parting (h : Beside text text' k p q) (hk : k ≤ limit)
    (hold : Ongoing text carried k p) (hnew : Ongoing text' carried k q) :
    ∃ l ≤ limit, ∃ p' q', Ongoing text carried l p' ∧ Ongoing text' carried l q' ∧
      Beside text text' l p' q' ∧ Parting text text' limit l p' q' := by
  obtain ⟨fuel, hfuel⟩ := hold.ends
  induction fuel generalizing k p q with
  | zero =>
    have hend : p.stream.atEnd = true := by
      rw [show p = finish text carried from hfuel]
      exact ofText_atEnd text carried
    refine ⟨k, hk, p, q, hold, hnew, h, .arrived ?_⟩
    by_contra hne
    have hgoes := Ongoing.not_atEnd hsame hi hn (by omega) hold
    rw [hend] at hgoes
    cases hgoes
  | succ fuel ih =>
    rcases Nat.eq_or_lt_of_le hk with rfl | hlt
    · exact ⟨k, Nat.le_refl k, p, q, hold, hnew, h, .arrived rfl⟩
    have hend := Ongoing.not_atEnd hsame hi hn hlt hold
    rcases h.step hsame hpos hk with ⟨l, hl, hnext⟩ | hparts
    · obtain ⟨_, _, hold'⟩ := hold.step hend
      obtain ⟨_, _, hnew'⟩ := hnew.step (hnew.coming.not_atEnd hi (by omega))
      rw [rounds, if_neg (by simp [hend])] at hfuel
      exact ih hnext hl (hold'.of_coming hnext.near) (hnew'.of_coming hnext.far) hfuel
    · exact ⟨k, hk, p, q, hold, hnew, h, hparts⟩

end Both

end Parser

end LineMarkup
