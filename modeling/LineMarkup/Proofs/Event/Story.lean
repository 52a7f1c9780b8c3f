import Mathlib.Data.List.Chain
import LineMarkup.Proofs.Event.Trace
import LineMarkup.Proofs.Token.Placing

namespace LineMarkup

open Text (Boundary HasAt)

namespace Construct

/-- What may be opened directly inside. -/
def admits (outer inner : Construct) : Bool :=
  match inner with
  | .content => false
  | .heading | .emphasis | .strong => outer.holdsContent
  | .mathArguments | .mathChain => outer.holdsMath
  | .codeLine | .codeString | .codeChain => outer.holdsContent || outer.holdsMath
  | _ => outer.holdsContent || outer.holdsMath || outer.holdsCode

/-- Each construct may stand in the next one. -/
def Nested (kinds : List Construct) : Prop :=
  kinds.IsChain (fun inner outer => outer.admits inner = true)

/-- Something may be opened inside. -/
def holds (kind : Construct) : Bool :=
  kind.holdsContent || kind.holdsMath || kind.holdsCode

theorem holds_of_admits {outer inner : Construct} (h : outer.admits inner = true) :
    outer.holds = true := by
  cases inner <;> grind [admits, holds]

/-- Met in one piece. -/
def isLeaf : Construct → Bool
  | .label | .reference | .listEntry | .term | .mathDelimiter | .mathSymbol | .mathFunction
  | .codeVariable | .codeFunction | .codeNumber | .codeKeyword => true
  | _ => false

def opening? : Construct → Option Char
  | .contentBlock => some '['
  | .codeBlock => some '\x7b'
  | .codeArguments | .mathArguments => some '('
  | .math => some '$'
  | _ => none

/-- The characters that may close a delimited construct. -/
def closings : Construct → List Char
  | .contentBlock => [']']
  | .codeBlock => ['\x7d']
  | .codeArguments => [')', ';']
  | .mathArguments => [')', '$']
  | .math => ['$']
  | _ => []

theorem not_delimited {kind : Construct} (h : kind.endsWithLine = true) : kind.isDelimited = false := by
  cases kind <;> first | rfl | cases h

theorem exists_opening {kind : Construct} (h : kind.isDelimited = true) : ∃ c, kind.opening? = some c := by
  cases kind <;> first | exact ⟨_, rfl⟩ | cases h

theorem closings_ne_nil {kind : Construct} (h : kind.isDelimited = true) : kind.closings ≠ [] := by
  cases kind <;> first | exact List.cons_ne_nil _ _ | cases h

end Construct

/-- Carried frames are below all others, and what is not carried admits what it holds. -/
def Frame.StandsOn (inner outer : Frame) : Prop :=
  (inner.carried = true → outer.carried = true) ∧
    (outer.carried = false → outer.kind.admits inner.kind = true)

/-- A character at `pos` that closes constructs after the events `es`. Nothing is opened with it, and
only a dollar sign may close more than one. -/
structure ClosedBy (text : Text) (c : Char) (pos : Nat) (es : List Event) : Prop where
  sign : HasAt text c pos
  opened : ∀ frame stop, .push frame stop ∈ es → stop ≤ pos
  ended : c ≠ '$' → EndedBy pos es

/-- Events, the latest first, that lead from the frames `start`, all of them carried, to those of
the last argument. Delimited constructs are opened and closed by their characters. What is carried
admits what it holds if `start` is nested. -/
inductive Story (text : Text) (start : List Frame) : List Event → List Frame → Prop
  | nil (carried : ∀ f ∈ start, f.carried = true ∧ f.start = 0) : Story text start [] start
  | push (story : Story text start es stack) (new : frame.carried = false)
      (holds : frame.kind.isLeaf = false)
      (nests : ∀ outer ∈ stack.head?, frame.StandsOn outer)
      (admits : Construct.Nested (start.map Frame.kind) →
        ∀ outer ∈ stack.head?, outer.kind.admits frame.kind = true)
      (first : Boundary text frame.start) (last : Boundary text stop)
      (opened : ∀ c, frame.kind.opening? = some c →
        HasAt text c frame.start ∧ stop = frame.start + 1) :
      Story text start (.push frame stop :: es) (frame :: stack)
  | pop (story : Story text start es (frame :: stack)) (last : Boundary text stop)
      (closed : frame.kind.closings ≠ [] → ∃ c ∈ frame.kind.closings, ∃ m,
        stop = m + 1 ∧ ClosedBy text c m es) :
      Story text start (.pop frame stop false :: es) stack
  | instant (story : Story text start es stack) (new : frame.carried = false)
      (leaf : frame.kind.isLeaf = true)
      (first : Boundary text frame.start) (last : Boundary text stop)
      (mark : frame.kind = .mathDelimiter → HasAt text '$' frame.start ∧ stop = frame.start + 1) :
      Story text start (.instant frame stop :: es) stack
  | loose (story : Story text start es (frame :: stack)) (placed : token.LiesIn text) :
      Story text start (.loose token frame :: es) (frame :: stack)

namespace Story

theorem frames_carried (h : Story text start es stack) :
    ∀ f ∈ start, f.carried = true ∧ f.start = 0 := by
  induction h with
  | nil hc => exact hc
  | _ => assumption

theorem frames_boundary (h : Story text start es stack) :
    ∀ f ∈ stack, Boundary text f.start := by
  induction h with
  | nil hc => exact fun f hf => (hc f hf).2 ▸ Text.boundary_zero text
  | push _ _ _ _ _ hb _ _ ih => exact List.forall_mem_cons.mpr ⟨hb, ih⟩
  | pop _ _ _ ih => exact fun f hf => ih f (List.mem_cons_of_mem _ hf)
  | instant _ _ _ _ _ _ ih | loose _ _ ih => exact ih

/-- Open delimited constructs begin with their brackets. -/
theorem frames_opened (h : Story text start es stack) :
    ∀ f ∈ stack, f.carried = false → ∀ c, f.kind.opening? = some c → HasAt text c f.start := by
  induction h with
  | nil hc =>
    intro f hf hn
    rw [(hc f hf).1] at hn
    cases hn
  | push _ _ _ _ _ _ _ ho ih =>
    exact List.forall_mem_cons.mpr ⟨fun _ c hc => (ho c hc).1, ih⟩
  | pop _ _ _ ih => exact fun f hf => ih f (List.mem_cons_of_mem _ hf)
  | instant _ _ _ _ _ _ ih | loose _ _ ih => exact ih

/-- What was opened in the text encloses something. -/
theorem frames_new (h : Story text start es stack) :
    ∀ f ∈ stack, f ∈ start ∨ f.kind.isLeaf = false := by
  induction h with
  | nil => exact fun f hf => .inl hf
  | push _ _ hh _ _ _ _ _ ih => exact List.forall_mem_cons.mpr ⟨.inr hh, ih⟩
  | pop _ _ _ ih => exact fun f hf => ih f (List.mem_cons_of_mem _ hf)
  | instant _ _ _ _ _ _ ih | loose _ _ ih => exact ih

theorem frames_hold (h : Story text start es stack) :
    ∀ f ∈ stack, f.carried = false → f.kind.isLeaf = false := by
  intro f hf hn
  refine (h.frames_new f hf).resolve_left (fun hs => ?_)
  rw [(h.frames_carried f hs).1] at hn
  cases hn

theorem nested (h : Story text start es stack) : stack.IsChain Frame.StandsOn := by
  induction h with
  | nil hc =>
    apply List.Pairwise.isChain
    refine List.pairwise_of_forall_mem_list (fun a _ b hb => ?_)
    have := (hc b hb).1
    exact ⟨fun _ => this, fun hn => by simp [this] at hn⟩
  | push _ _ _ hn _ _ _ _ ih => exact List.isChain_cons.mpr ⟨hn, ih⟩
  | pop _ _ _ ih => exact ih.tail
  | instant _ _ _ _ _ _ ih | loose _ _ ih => exact ih

theorem nested_kinds (h : Story text start es stack)
    (hs : Construct.Nested (start.map Frame.kind)) :
    Construct.Nested (stack.map Frame.kind) := by
  induction h with
  | nil => exact hs
  | push _ _ _ _ ha _ _ _ ih =>
    refine List.isChain_cons.mpr ⟨fun kind hk => ?_, ih⟩
    rw [List.head?_map] at hk
    obtain ⟨outer, ho, rfl⟩ := Option.map_eq_some_iff.mp hk
    exact ha hs outer ho
  | pop _ _ _ ih => exact ih.tail
  | instant _ _ _ _ _ _ ih | loose _ _ ih => exact ih

/-- A content block is closed by the first thing that is met after all inside has ended. -/
theorem pop_block (h : Story text start (.pop frame stop false :: es) stack)
    (hk : frame.kind = .contentBlock) : ∃ m, stop = m + 1 ∧ HasAt text ']' m ∧ EndedBy m es := by
  cases h with
  | pop _ _ closed =>
    obtain ⟨c, hc, m, hm, hclosed⟩ := closed (by simp [hk, Construct.closings])
    obtain rfl : c = ']' := by simpa [hk, Construct.closings] using hc
    exact ⟨m, hm, hclosed.sign, hclosed.ended (by decide)⟩

end Story

namespace Frame

variable {stack : List Frame} {g : Frame}

theorem carried_below (hc : (f :: stack).IsChain StandsOn) (hf : f.carried = true) :
    ∀ g ∈ stack, g.carried = true := by
  induction stack generalizing f with
  | nil => simp
  | cons outer stack ih =>
    obtain ⟨hfirst, hrest⟩ := List.isChain_cons_cons.mp hc
    have ho := hfirst.1 hf
    exact List.forall_mem_cons.mpr ⟨ho, ih hrest ho⟩

/-- Between a construct of one family and one outside of it there is the one that begins the
family. -/
theorem base_above {P : Construct → Bool} {base : Construct}
    (hP : ∀ inner outer, P inner = true → inner ≠ base → outer.admits inner = true →
      P outer = true)
    (hc : stack.IsChain StandsOn) (htop : ∀ top ∈ stack.head?, P top.kind = true)
    (hg : g ∈ stack) (hnew : g.carried = false) (hn : P g.kind = false) :
    ∃ above below, stack = above ++ g :: below ∧
      ∃ h ∈ above, h.kind = base ∧ h.carried = false := by
  induction stack with
  | nil => cases hg
  | cons f stack ih =>
    have hf : P f.kind = true := htop f rfl
    rcases List.mem_cons.mp hg with rfl | hg
    · rw [hf] at hn
      cases hn
    have hcarried : f.carried = false := by
      cases hcf : f.carried with
      | false => rfl
      | true =>
        rw [carried_below hc hcf g hg] at hnew
        cases hnew
    by_cases hb : f.kind = base
    · obtain ⟨above, below, rfl⟩ := List.append_of_mem hg
      exact ⟨f :: above, below, rfl, f, List.mem_cons_self, hb, hcarried⟩
    · obtain ⟨hnext, hrest⟩ := List.isChain_cons.mp hc
      have htop' : ∀ outer ∈ stack.head?, P outer.kind = true := by
        intro outer ho
        cases hco : outer.carried with
        | false => exact hP _ _ hf hb ((hnext outer ho).2 hco)
        | true =>
          obtain ⟨rest, rfl⟩ : ∃ rest, stack = outer :: rest := by
            cases stack with
            | nil => cases ho
            | cons o rest =>
              obtain rfl : o = outer := by simpa using ho
              exact ⟨rest, rfl⟩
          have hall : ∀ f ∈ outer :: rest, f.carried = true :=
            List.forall_mem_cons.mpr ⟨hco, carried_below hrest hco⟩
          rw [hall g hg] at hnew
          cases hnew
      obtain ⟨above, below, rfl, h, hh, hk⟩ := ih hrest htop' hg
      exact ⟨f :: above, below, rfl, h, List.mem_cons_of_mem _ hh, hk⟩

/-- Prose inside of code or math stands in a content block there. -/
theorem block_above (hc : stack.IsChain StandsOn)
    (htop : ∀ top ∈ stack.head?, top.kind.holdsContent = true) (hg : g ∈ stack)
    (hnew : g.carried = false) (hn : g.kind.holdsContent = false) :
    ∃ above below, stack = above ++ g :: below ∧
      ∃ h ∈ above, h.kind = .contentBlock ∧ h.carried = false := by
  refine base_above (P := Construct.holdsContent) (fun inner outer hi hb ho => ?_) hc htop hg hnew
    hn
  cases inner <;> simp_all [Construct.holdsContent, Construct.admits]

/-- Math inside of code or prose begins with its delimiter. -/
theorem math_above (hc : stack.IsChain StandsOn)
    (htop : ∀ top ∈ stack.head?, top.kind.holdsMath = true) (hg : g ∈ stack)
    (hnew : g.carried = false) (hn : g.kind.holdsMath = false) :
    ∃ above below, stack = above ++ g :: below ∧
      ∃ h ∈ above, h.kind = .math ∧ h.carried = false := by
  refine base_above (P := Construct.holdsMath) (fun inner outer hi hb ho => ?_) hc htop hg hnew hn
  cases inner <;> simp_all [Construct.holdsMath, Construct.admits]

end Frame

/-- Events that keep to the order of a text and to what it says. -/
structure Reported (text : Text) (start : List Frame) (es : List Event) (stack : List Frame) :
    Prop where
  trace : Trace text.size start es stack
  story : Story text start es stack

namespace Reported

/-- Frames that were not open before the text have begun before any position where all has ended. -/
theorem frames_before (h : Reported text start es stack) (he : EndedBy pos es) :
    ∀ f ∈ stack, f.carried = false → f.start < pos := by
  intro f hf hc
  rcases h.trace.frames_filled he f hf with hlt | hs
  · exact hlt
  · rw [(h.story.frames_carried f hs).1] at hc
    cases hc

theorem frames_lt_push (h : Reported text start es stack)
    (hb : BeginsAfter (.push frame stop) es) :
    ∀ f ∈ stack, f.carried = false → f.start < frame.start := by
  cases hb with
  | clear he => exact h.frames_before he
  | math _ _ _ he =>
    obtain ⟨ht, hs⟩ := h
    cases ht with
    | instant ht =>
      cases hs with
      | instant hs => exact Reported.frames_before ⟨ht, hs⟩ he

/-- Inner frames begin after outer ones. -/
theorem frames_pairwise (h : Reported text start es stack) :
    stack.Pairwise (fun inner outer => outer.carried = false → outer.start < inner.start) := by
  obtain ⟨ht, hs⟩ := h
  induction hs with
  | nil hc =>
    refine List.pairwise_of_forall_mem_list (fun a _ b hb hn => ?_)
    rw [(hc b hb).1] at hn
    cases hn
  | push hs =>
    rename_i ih
    cases ht with
    | push ht _ _ _ hb => exact .cons (Reported.frames_lt_push ⟨ht, hs⟩ hb) (ih ht)
  | pop hs =>
    rename_i ih
    cases ht with
    | pop ht => exact (ih ht).tail
  | instant hs =>
    rename_i ih
    cases ht with
    | instant ht => exact ih ht
  | loose hs =>
    rename_i ih
    cases ht with
    | loose ht => exact ih ht

end Reported

end LineMarkup
