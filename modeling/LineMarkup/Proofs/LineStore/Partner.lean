import Mathlib
import LineMarkup.LineStore.Bracket
import LineMarkup.Proofs.Document.Bracket
import LineMarkup.Proofs.LineStore.Lookup

namespace LineMarkup

open Text (HasAt)

namespace LineStore

variable (store : LineStore) {spans : List Span} {span : Span} {pos line q b id : Nat}

/-- The span that a partner is read off begins or ends at the position. -/
theorem partner_some (h : store.partner pos line spans = some q) :
    ∃ span ∈ spans, span.kind.isDelimited = true ∧
      ((span.last = some pos ∧ span.first = q) ∨
        (span.first = pos ∧
          span.last.or (store.lastFrom span.id (scanLimit + 1) (line + 1)) = some q)) := by
  induction spans with
  | nil => cases h
  | cons span rest ih =>
    rw [partner] at h
    split at h
    · cases h
    · split at h
      · exact List.exists_mem_cons_of_exists (ih h)
      · rename_i hd
        have hd : span.kind.isDelimited = true := by simpa using hd
        split at h
        · rename_i hlast
          exact ⟨span, List.mem_cons_self, hd, .inl ⟨hlast, Option.some.inj h⟩⟩
        · split at h
          · rename_i hfirst
            refine ⟨span, List.mem_cons_self, hd, .inr ⟨hfirst, ?_⟩⟩
            split at h <;> rename_i hlast <;> rw [hlast]
            · exact h
            · exact h
          · exact List.exists_mem_cons_of_exists (ih h)

/-- At an opening bracket the span that begins there is followed to its end. -/
theorem partner_first (ha : spans.Pairwise (fun a b => a.first < b.first)) (hs : span ∈ spans)
    (hd : span.kind.isDelimited = true)
    (hn : ∀ other ∈ spans, other.kind.isDelimited = true → other.last ≠ some span.first)
    (line : Nat) : store.partner span.first line spans =
      span.last.or (store.lastFrom span.id (scanLimit + 1) (line + 1)) := by
  induction spans with
  | nil => cases hs
  | cons head rest ih =>
    obtain ⟨hafter, ha⟩ := List.pairwise_cons.mp ha
    obtain ⟨hhead, hn⟩ := List.forall_mem_cons.mp hn
    rw [partner]
    rcases List.mem_cons.mp hs with rfl | hs
    · rw [if_neg (Nat.lt_irrefl _), if_neg (by simp [hd]), if_neg (hhead hd), if_pos rfl]
      cases span.last <;> rfl
    · have hlt := hafter span hs
      rw [if_neg (Nat.not_lt_of_lt hlt)]
      split
      · exact ih ha hs hn
      · rename_i hd'
        rw [if_neg (hhead (by simpa using hd')), if_neg (Nat.ne_of_lt hlt)]
        exact ih ha hs hn

/-- At a closing bracket it is the outermost of the spans that end there. -/
theorem partner_last (ha : spans.Pairwise (fun a b => a.first < b.first)) (hs : span ∈ spans)
    (hd : span.kind.isDelimited = true) (hl : span.last = some pos)
    (hn : ∀ other ∈ spans, other.kind.isDelimited = true → other.first ≠ pos)
    (hlt : span.first < pos) (line : Nat) :
    ∃ outer ∈ spans, outer.kind.isDelimited = true ∧ outer.last = some pos ∧
      store.partner pos line spans = some outer.first ∧
      ∀ other ∈ spans, other.kind.isDelimited = true → other.last = some pos →
        outer.first ≤ other.first := by
  induction spans with
  | nil => cases hs
  | cons head rest ih =>
    obtain ⟨hafter, ha⟩ := List.pairwise_cons.mp ha
    obtain ⟨hhead, hn⟩ := List.forall_mem_cons.mp hn
    have hle : head.first ≤ span.first := by
      rcases List.mem_cons.mp hs with rfl | hs
      · exact Nat.le_refl _
      · exact Nat.le_of_lt (hafter span hs)
    rw [partner, if_neg (by omega)]
    by_cases hhit : head.kind.isDelimited = true ∧ head.last = some pos
    · refine ⟨head, List.mem_cons_self, hhit.1, hhit.2, ?_, ?_⟩
      · rw [if_neg (by simp [hhit.1]), if_pos hhit.2]
      · refine List.forall_mem_cons.mpr ⟨fun _ _ => Nat.le_refl _, fun other hm _ _ => ?_⟩
        exact Nat.le_of_lt (hafter other hm)
    · have hs : span ∈ rest := by
        refine (List.mem_cons.mp hs).resolve_left (fun heq => hhit ?_)
        exact ⟨heq ▸ hd, heq ▸ hl⟩
      obtain ⟨outer, hm, hdo, hlo, hpartner, hall⟩ := ih ha hs hn
      refine ⟨outer, List.mem_cons_of_mem _ hm, hdo, hlo, ?_, ?_⟩
      · split
        · exact hpartner
        · rename_i hd'
          have hd' : head.kind.isDelimited = true := by simpa using hd'
          rw [if_neg (fun hl => hhit ⟨hd', hl⟩), if_neg (hhead hd')]
          exact hpartner
      · refine List.forall_mem_cons.mpr ⟨fun hd hl => absurd ⟨hd, hl⟩ hhit, hall⟩

/-- A last position that is found is that of the span on some line. -/
theorem lastFrom_some (h : store.lastFrom id fuel line = some q) :
    ∃ j span, j < store.lineCount ∧ (store.lineSpans j).bind (Span.find? · id) = some span ∧
      span.last = some q := by
  induction fuel generalizing line with
  | zero => cases h
  | succ fuel ih =>
    rw [lastFrom] at h
    split at h
    · rename_i hlt
      split at h
      · rename_i hspan
        exact ⟨line, _, hlt, hspan, h⟩
      · exact ih h
    · cases h

/-- A span is found at its end, if there is fuel for all lines before. -/
theorem lastFrom_eq (hb : b < store.lineCount)
    (hend : (store.lineSpans b).bind (Span.find? · id) = some span) (hq : span.last = some q)
    (hopen : ∀ k, line ≤ k → k < b → ∀ other,
      (store.lineSpans k).bind (Span.find? · id) = some other → other.last = none)
    (hle : line ≤ b) : store.lastFrom id fuel line = if b < line + fuel then some q else none := by
  induction fuel generalizing line with
  | zero => rw [lastFrom, if_neg (by omega)]
  | succ fuel ih =>
    rw [lastFrom, if_pos (by omega)]
    rcases Nat.lt_or_eq_of_le hle with hlt | rfl
    · have hnext := ih (fun k hk => hopen k (Nat.le_of_succ_le hk)) hlt
      have hlimit : line + 1 + fuel = line + (fuel + 1) := by omega
      rw [hlimit] at hnext
      split
      · rename_i hspan
        have := hopen line (Nat.le_refl _) hlt _ hspan
        cases this
      · exact hnext
    · rw [hend, if_pos (by omega)]
      obtain ⟨_, _, _, last, _⟩ := span
      obtain rfl : last = some q := hq
      rfl

end LineStore

/-- The lines of two positions are no farther apart than a span is followed. -/
def LineStore.Near (store : LineStore) (p q : Nat) : Prop :=
  ∃ i j, store.lineOf? p = some i ∧ store.lineOf? q = some j ∧ i ≤ j + scanLimit ∧
    j ≤ i + scanLimit

namespace Document

variable {d : Document} {line : Line} {span other : Span} {i j p q : Nat}

/-- Line `i` has a delimited span. -/
def Encloses (d : Document) (i : Nat) (span : Span) : Prop :=
  ∃ line : Line, d.lines[i]? = some line ∧ span ∈ line.analysis.spans ∧
    span.kind.isDelimited = true

theorem store_lineSpans (hl : d.lines[i]? = some line) :
    d.store.lineSpans i = some line.analysis.spans := by
  simp [store, hl]

theorem store_lineCount (d : Document) : d.store.lineCount = d.lines.length := by
  simp [store]

theorem matchingBracket_eq (hl : d.lines[i]? = some line) (hp : d.store.lineOf? p = some i) :
    d.store.matchingBracket p = d.store.partner p i line.analysis.spans := by
  simp [LineStore.matchingBracket, hp, store_lineSpans hl]

namespace Valid

theorem apart (h : Valid d) (hs : d.Encloses i span) (ho : d.Encloses i other)
    (hn : span ≠ other) :
    (∀ last, span.last = some last → other.first ≠ last) ∧
      ∀ last, span.last = some last → other.last = some last → HasAt d.text '$' last := by
  obtain ⟨line, hl, hs, hd⟩ := hs
  obtain ⟨line', hl', ho, hd'⟩ := ho
  obtain rfl := Option.some.inj (hl.symm.trans hl')
  have hline := List.mem_of_getElem? hl
  obtain ⟨es, hb⟩ := h.bracketed hline
  have hpairs := hb.apart.forall hs ho hn hd hd'
  refine ⟨hpairs.before, fun last hlast hlast' => ?_⟩
  obtain ⟨pos, rfl, hat⟩ := hpairs.shared last hlast hlast'
  exact h.hasAt hline hat

theorem first_lt_last (h : Valid d) (hs : d.Encloses i span) (hl : span.last = some q) :
    span.first < q := by
  obtain ⟨line, hi, hs, hd⟩ := hs
  exact (h.closed (List.mem_of_getElem? hi) hs hd hl).2.1

/-- Nothing begins where something ends. -/
theorem first_ne_last (h : Valid d) (hs : d.Encloses i span) (ho : d.Encloses i other)
    (hl : span.last = some q) : other.first ≠ q := by
  by_cases heq : span = other
  · exact heq ▸ Nat.ne_of_lt (h.first_lt_last hs hl)
  · exact (h.apart hs ho heq).1 q hl

/-- A span ends on the line where it has its last position. -/
theorem lineOf_last (h : Valid d) (hs : d.Encloses j span) (hl : span.last = some q) :
    d.store.lineOf? q = some j := by
  obtain ⟨line, hi, hs, hd⟩ := hs
  obtain ⟨es, hb⟩ := h.bracketed (List.mem_of_getElem? hi)
  obtain ⟨_, _, c, _, _, pos, _, rfl, hat⟩ := hb.closes span hs hd q hl
  have := hat.lt_size
  exact h.lineOf_eq hi (by omega) (by omega)

theorem find_eq (h : Valid d) (hl : d.lines[i]? = some line) (hs : span ∈ line.analysis.spans) :
    (d.store.lineSpans i).bind (Span.find? · span.id) = some span := by
  rw [store_lineSpans hl, Option.bind_some, Span.find?]
  cases hf : line.analysis.spans.find? (fun other => other.id = span.id) with
  | none =>
    have hnone := List.find?_eq_none.mp hf span hs
    simp at hnone
  | some other =>
    have hid : other.id = span.id := by simpa using List.find?_some hf
    rw [h.span_unique (List.mem_of_getElem? hl) (List.mem_of_find?_eq_some hf) hs hid]

/-- A span that is open on the lines before is found where it ends, if that is not too far. -/
theorem lastFrom_end (h : Valid d) (hl : d.lines[j]? = some line)
    (hs : span ∈ line.analysis.spans) (hq : span.last = some q) (hlt : i < j)
    (hopen : ∀ k, i < k → k < j → ∃ passed : Line, d.lines[k]? = some passed ∧
      ∃ same ∈ passed.analysis.spans, same.id = span.id ∧ same.last = none) :
    d.store.lastFrom span.id (LineStore.scanLimit + 1) (i + 1) =
      if j ≤ i + LineStore.scanLimit + 1 then some q else none := by
  have hcount : j < d.store.lineCount := by
    rw [store_lineCount]
    exact (List.getElem?_eq_some_iff.mp hl).1
  have hpassed (k : Nat) (hk : i + 1 ≤ k) (hkj : k < j) (found : Span)
      (hfound : (d.store.lineSpans k).bind (Span.find? · span.id) = some found) :
      found.last = none := by
    obtain ⟨passed, hp, same, hm, hid, ho⟩ := hopen k hk hkj
    have hsame := h.find_eq hp hm
    rw [hid] at hsame
    obtain rfl := Option.some.inj (hsame.symm.trans hfound)
    exact ho
  have hlimit : j < i + 1 + (LineStore.scanLimit + 1) ↔ j ≤ i + LineStore.scanLimit + 1 := by
    omega
  rw [LineStore.lastFrom_eq _ hcount (h.find_eq hl hs) hq hpassed hlt]
  simp only [hlimit]

/-- From an opening bracket the closing one is found, if it is no farther than a span is followed. -/
theorem matching_first (h : Valid d) (hs : d.Encloses j span) (hq : span.last = some q) :
    ∃ a, d.store.lineOf? span.first = some a ∧ a ≤ j ∧
      d.store.matchingBracket span.first =
        if j ≤ a + LineStore.scanLimit + 1 then some q else none := by
  obtain ⟨line, hl, hs, hd⟩ := hs
  obtain ⟨a, origin, ha, horigin, _, hlow, hhigh, hway⟩ := h.chain.span_origin hl hs
  have hlineOf := h.lineOf_eq horigin hlow (Nat.le_of_lt hhigh)
  refine ⟨a, hlineOf, ha, ?_⟩
  obtain ⟨passed, first, hp, hm, hident, hopen⟩ := hway a (Nat.le_refl a) ha
  obtain rfl := Option.some.inj (hp.symm.trans horigin)
  obtain ⟨hid, hrest⟩ := Prod.mk.inj hident
  obtain ⟨hkind, hfirst⟩ := Prod.mk.inj hrest
  have hdf : first.kind.isDelimited = true := hkind ▸ hd
  have hpartner := d.store.partner_first (h.ascending (List.mem_of_getElem? hp)) hm hdf
    (fun other ho hdo hl => h.first_ne_last ⟨_, hp, ho, hdo⟩ ⟨_, hp, hm, hdf⟩ hl rfl) a
  rw [matchingBracket_eq hp hlineOf, ← hfirst, hpartner, hid]
  rcases Nat.lt_or_eq_of_le ha with hlt | rfl
  · rw [hopen hlt, Option.none_or]
    refine h.lastFrom_end hl hs hq hlt (fun k hk hkj => ?_)
    obtain ⟨between, same, hp, hm, hident, hopen⟩ := hway k (Nat.le_of_lt hk) (Nat.le_of_lt hkj)
    exact ⟨between, hp, same, hm, (Prod.mk.inj hident).1, hopen hkj⟩
  · obtain rfl := Option.some.inj (hp.symm.trans hl)
    obtain rfl := h.span_unique (List.mem_of_getElem? hp) hm hs hid
    rw [hq, if_pos (by omega)]
    rfl

/-- From a closing bracket the opening one of the outermost construct is found. Only a dollar sign
closes more than one. -/
theorem matching_last (h : Valid d) (hs : d.Encloses j span) (hq : span.last = some q) :
    ∃ outer, d.Encloses j outer ∧ outer.last = some q ∧
      d.store.matchingBracket q = some outer.first ∧
      (∀ other, d.Encloses j other → other.last = some q → outer.first ≤ other.first) ∧
      (¬ HasAt d.text '$' q → outer = span) := by
  have hs' := hs
  obtain ⟨line, hl, hm, hd⟩ := hs
  obtain ⟨outer, ho, hdo, hlo, hpartner, hall⟩ := d.store.partner_last
    (h.ascending (List.mem_of_getElem? hl)) hm hd hq
    (fun other ho hdo => h.first_ne_last hs' ⟨line, hl, ho, hdo⟩ hq) (h.first_lt_last hs' hq) j
  refine ⟨outer, ⟨line, hl, ho, hdo⟩, hlo, ?_, ?_, fun hn => ?_⟩
  · rw [matchingBracket_eq hl (h.lineOf_last hs' hq), hpartner]
  · rintro other ⟨line', hl', ho', hdo'⟩ hlo'
    obtain rfl := Option.some.inj (hl.symm.trans hl')
    exact hall other ho' hdo' hlo'
  · apply Decidable.byContradiction
    intro hne
    exact hn ((h.apart ⟨line, hl, ho, hdo⟩ hs' hne).2 q hlo hq)

/-- Partners are the two ends of one span. -/
theorem matching_some (h : Valid d) (hm : d.store.matchingBracket p = some q) :
    ∃ j span, d.Encloses j span ∧
      ((span.last = some p ∧ span.first = q) ∨ (span.first = p ∧ span.last = some q)) := by
  rw [LineStore.matchingBracket] at hm
  obtain ⟨i, hi, hm⟩ := Option.bind_eq_some_iff.mp hm
  obtain ⟨spans, hspans, hm⟩ := Option.bind_eq_some_iff.mp hm
  obtain ⟨line, hl, rfl⟩ := Option.map_eq_some_iff.mp hspans
  have hl : d.lines[i]? = some line := by simpa [store] using hl
  obtain ⟨span, hs, hd, hends | ⟨hfirst, hlast⟩⟩ := d.store.partner_some hm
  · exact ⟨i, span, ⟨line, hl, hs, hd⟩, .inl hends⟩
  · cases hopen : span.last with
    | some last =>
      rw [hopen] at hlast
      exact ⟨i, span, ⟨line, hl, hs, hd⟩, .inr ⟨hfirst, hopen.trans hlast⟩⟩
    | none =>
      rw [hopen] at hlast
      obtain ⟨j, final, _, hfound, hq⟩ := d.store.lastFrom_some hlast
      obtain ⟨spans, hspans, hfound⟩ := Option.bind_eq_some_iff.mp hfound
      obtain ⟨last, hlast, rfl⟩ := Option.map_eq_some_iff.mp hspans
      have hlast : d.lines[j]? = some last := by simpa [store] using hlast
      have hfinal := List.mem_of_find?_eq_some hfound
      obtain ⟨a, b, kind, first, hruns⟩ := h.runs (List.mem_of_getElem? hl) hs
      obtain ⟨hkind, hfirst'⟩ := hruns.same line (List.mem_of_getElem? hl) span hs rfl
      obtain ⟨hkind', hfirst''⟩ := hruns.same last (List.mem_of_getElem? hlast) final hfinal
        (by simpa using List.find?_some hfound)
      refine ⟨j, final, ⟨last, hlast, hfinal, ?_⟩, .inr ⟨?_, hq⟩⟩
      · rw [hkind', ← hkind]
        exact hd
      · rw [hfirst'', ← hfirst', hfirst]

end Valid

/-- The bracket at `p` is that of the outermost construct that ends at `q`. -/
structure Outermost (d : Document) (p q : Nat) : Prop where
  ends : ∃ i span, d.Encloses i span ∧ span.first = p ∧ span.last = some q
  least : ∀ i span, d.Encloses i span → span.last = some q → p ≤ span.first

/-- In a document that was edited in any way, brackets are each other's partners, as long as their
lines are not too far apart. From the closing bracket that of the outermost construct is found; that
is another one only at a dollar sign. -/
theorem edited_partner {text : Text} {edits : List Edit}
    (hm : (edited text edits).store.matchingBracket p = some q)
    (hn : (edited text edits).store.Near p q) :
    let d := edited text edits
    q ≠ p ∧ (q < p → d.store.matchingBracket q = some p) ∧
      (p < q → ∃ p', d.store.matchingBracket q = some p' ∧ p' ≤ p ∧
        (¬ HasAt d.text '$' q → p' = p) ∧ d.Outermost p' q ∧
        (d.store.Near p' q → d.store.matchingBracket p' = some q)) := by
  intro d
  obtain ⟨h, _⟩ := edited_valid text edits
  -- From an opening bracket that is near the closing one is found.
  have hnear {j : Nat} {span : Span} {q : Nat} (hs : d.Encloses j span) (hq : span.last = some q)
      (hn : d.store.Near span.first q) : d.store.matchingBracket span.first = some q := by
    obtain ⟨a, hfirst, _, hfound⟩ := h.matching_first hs hq
    obtain ⟨i, k, hi, hk, _, hle⟩ := hn
    obtain rfl := Option.some.inj (hi.symm.trans hfirst)
    obtain rfl := Option.some.inj (hk.symm.trans (h.lineOf_last hs hq))
    rw [hfound, if_pos (Nat.le_succ_of_le hle)]
  obtain ⟨j, span, hs, ⟨hlast, rfl⟩ | ⟨rfl, hlast⟩⟩ := h.matching_some hm
  · have hlt := h.first_lt_last hs hlast
    refine ⟨Nat.ne_of_lt hlt, fun _ => ?_, fun hgt => absurd hgt (Nat.lt_asymm hlt)⟩
    obtain ⟨i, k, hi, hk, hik, hki⟩ := hn
    exact hnear hs hlast ⟨k, i, hk, hi, hki, hik⟩
  · have hlt := h.first_lt_last hs hlast
    refine ⟨Nat.ne_of_gt hlt, fun hgt => absurd hgt (Nat.lt_asymm hlt), fun _ => ?_⟩
    obtain ⟨outer, ho, hlo, hfound, hleast, hsame⟩ := h.matching_last hs hlast
    refine ⟨outer.first, hfound, hleast span hs hlast, fun hn => ?_, ⟨?_, ?_⟩, hnear ho hlo⟩
    · rw [hsame hn]
    · exact ⟨j, outer, ho, rfl, hlo⟩
    · intro i other hother hl'
      have hij := (h.lineOf_last hother hl').symm.trans (h.lineOf_last hs hlast)
      obtain rfl := Option.some.inj hij
      exact hleast other hother hl'

/-- One dollar sign ends math and the arguments in it, which began on the line before. -/
theorem partner_of_dollar :
    let d := edited "$ (\nb$".toList [.insertLine 0 "x".toList]
    d.store.matchingBracket 4 = some 7 ∧ d.store.Near 4 7 ∧ d.store.matchingBracket 7 = some 2 ∧
      d.Outermost 2 7 ∧ d.store.matchingBracket 2 = some 7 := by
  obtain ⟨hm, hback, h2, h4, h7⟩ :
      (edited "$ (\nb$".toList [.insertLine 0 "x".toList]).store.matchingBracket 4 = some 7 ∧
      (edited "$ (\nb$".toList [.insertLine 0 "x".toList]).store.matchingBracket 7 = some 2 ∧
      (edited "$ (\nb$".toList [.insertLine 0 "x".toList]).store.lineOf? 2 = some 1 ∧
      (edited "$ (\nb$".toList [.insertLine 0 "x".toList]).store.lineOf? 4 = some 1 ∧
      (edited "$ (\nb$".toList [.insertLine 0 "x".toList]).store.lineOf? 7 = some 2 := by
    cbv
  have hlines : 1 ≤ 2 + LineStore.scanLimit ∧ 2 ≤ 1 + LineStore.scanLimit := by
    simp [LineStore.scanLimit]
  have hn : LineStore.Near _ 4 7 := ⟨1, 2, h4, h7, hlines⟩
  obtain ⟨_, _, hafter⟩ := edited_partner hm hn
  obtain ⟨p', hback', _, _, houtermost, hagain⟩ := hafter (by decide)
  obtain rfl := Option.some.inj (hback'.symm.trans hback)
  exact ⟨hm, hn, hback, houtermost, hagain ⟨1, 2, h2, h7, hlines⟩⟩

namespace Chain

variable {previous : Option Line} {lines : List Line} {text : Text} {more : List Text}

theorem uncons (h : Chain previous lines) (ht : lines.map Line.text = text :: more) :
    ∃ id rest, lines = (parseLine previous text id).1 :: rest ∧
      Chain (some (parseLine previous text id).1) rest ∧ rest.map Line.text = more := by
  cases h with
  | nil => cases ht
  | parse id rest =>
    rw [List.map_cons, parseLine_text, List.cons.injEq] at ht
    obtain ⟨rfl, ht⟩ := ht
    exact ⟨id, _, rfl, rest, ht⟩

end Chain

/-- An empty line does not end arguments in math. -/
theorem parseLine_blank {previous : Option Line} (hg : Grounded previous)
    (hk : (openAfter previous).map Span.kind = [.math, .mathArguments]) (id : Nat) :
    openAfter (some (parseLine previous [] id).1) = openAfter previous := by
  have hs : isShebang previous [] = false := by simp [isShebang]
  obtain ⟨es, _, _, hes, hspans, _⟩ := Analysis.ofLine_along hg [] id
  have hreport : (Parse.ofText [] [.math, .mathArguments]).report false =
      [.loose { kind := .begin, start := 0, text := [] } (.carriedOver .mathArguments)] := by
    cbv
  have hkinds : (Span.unclosed ((previous.map (·.analysis.spans)).getD [])).map Span.kind =
      [.math, .mathArguments] := hk
  rw [hkinds, hreport] at hes
  rw [hes] at hspans
  have hall : Span.unclosed (openAfter previous) = openAfter previous :=
    List.filter_eq_self.mpr hg.opened
  change Span.unclosed (parseLine previous [] id).1.analysis.spans = _
  rw [(parseLine_ofLine hs id).1, hspans]
  exact (congrArg Span.unclosed (List.reverse_reverse _)).trans hall

theorem Chain.blanks {previous : Option Line} {lines : List Line} {more : List Text} {n : Nat}
    (h : Chain previous lines) (hg : Grounded previous)
    (hk : (openAfter previous).map Span.kind = [.math, .mathArguments])
    (ht : lines.map Line.text = List.replicate n [] ++ more) :
    ∃ blank rest last, lines = blank ++ rest ∧ blank.length = n ∧ Chain last rest ∧
      Grounded last ∧ rest.map Line.text = more ∧ openAfter last = openAfter previous ∧
      startAfter last = startAfter previous + n := by
  induction n generalizing previous lines with
  | zero => exact ⟨[], lines, previous, rfl, rfl, h, hg, ht, rfl, rfl⟩
  | succ n ih =>
    obtain ⟨id, rest, rfl, hrest, ht⟩ := h.uncons ht
    have hopen := parseLine_blank hg hk id
    obtain ⟨blank, rest, last, rfl, hn, hlast, hg', ht, ho, hstart⟩ :=
      ih hrest (parseLine_grounded hg [] id) (hopen ▸ hk) ht
    refine ⟨_ :: blank, rest, last, rfl, ?_, hlast, hg', ht, ho.trans hopen, ?_⟩
    · rw [List.length_cons, hn]
    · rw [hstart, parseLine_next, Text.size_nil]
      omega

/-- A dollar sign ends the arguments in math and the math. -/
theorem parseLine_dollar {previous : Option Line} (hg : Grounded previous)
    (ho : openAfter previous = [⟨i, .math, p, none, false⟩, ⟨j, .mathArguments, q, none, false⟩])
    (id : Nat) :
    (parseLine previous "$".toList id).1.analysis.spans =
      [⟨i, .math, p, some (startAfter previous), false⟩,
        ⟨j, .mathArguments, q, some (startAfter previous), false⟩] := by
  have hs : isShebang previous "$".toList = false := by
    simp [isShebang, List.isPrefixOf]
  obtain ⟨es, _, _, hes, hspans, _⟩ := Analysis.ofLine_along hg "$".toList id
  have hopen : Span.unclosed ((previous.map (·.analysis.spans)).getD []) =
      [⟨i, .math, p, none, false⟩, ⟨j, .mathArguments, q, none, false⟩] := ho
  have hreport : (Parse.ofText "$".toList [.math, .mathArguments]).report false =
      [.loose { kind := .begin, start := 0, text := [] } (.carriedOver .mathArguments),
        .instant { kind := .mathDelimiter, start := 0 } 1,
        .pop (.carriedOver .mathArguments) 1 false, .pop (.carriedOver .math) 1 false] := by
    cbv
  rw [hopen, List.map_cons, List.map_cons, List.map_nil, hreport] at hes
  rw [(parseLine_ofLine hs id).1, hspans, hopen, hes]
  simp [Span.Record.along, Span.Record.start, Span.Record.seeAll, Span.Record.see,
    Span.Record.closeInnermost, Span.isOpen, Frame.carriedOver, Span.Record.lastOf]

/-- Math and arguments in it over `n` empty lines. -/
def mathOver (n : Nat) : List Text :=
  ["$".toList, [], "(".toList] ++ List.replicate n [] ++ ["$".toList]

theorem edited_mathOver (n : Nat) :
    (edited (Text.unlines (mathOver n)) []).lines.map Line.text = mathOver n := by
  refine (ofText_texts _).trans (Text.lines_unlines (fun line hl => ?_) (by simp [mathOver]))
  simp only [mathOver, List.mem_append, List.mem_cons, List.not_mem_nil, or_false,
    List.mem_replicate] at hl
  rcases hl with ((rfl | rfl | rfl) | ⟨_, rfl⟩) | rfl <;> decide

theorem Valid.mathOver_spans (h : Valid d) (ht : d.lines.map Line.text = mathOver n) :
    d.store.lineOf? 0 = some 0 ∧ d.store.lineOf? 3 = some 2 ∧ ∃ i j,
      d.Encloses (n + 3) ⟨i, .math, 0, some (n + 5), false⟩ ∧
      d.Encloses (n + 3) ⟨j, .mathArguments, 3, some (n + 5), false⟩ := by
  obtain ⟨i, _, hlines, hchain, ht⟩ := h.chain.uncons ht
  obtain ⟨k, _, rfl, hchain, ht⟩ := hchain.uncons ht
  obtain ⟨j, _, rfl, hchain, ht⟩ := hchain.uncons ht
  let first := (parseLine none "$".toList i).1
  let third := (parseLine (some (parseLine (some first) [] k).1) "(".toList j).1
  have hopen : openAfter (some third) =
      [⟨i, .math, 0, none, false⟩, ⟨j, .mathArguments, 3, none, false⟩] := by
    cbv
  obtain ⟨hfirst, hthird, hnext⟩ :
      first.start = 0 ∧ third.start = 3 ∧ startAfter (some third) = 5 := by
    cbv
  have hgrounded : Grounded (some third) :=
    parseLine_grounded (parseLine_grounded (parseLine_grounded grounded_none _ i) _ k) _ j
  obtain ⟨blank, _, last, rfl, hlength, hchain, hg, ht, hopen', hstart⟩ :=
    hchain.blanks hgrounded (by rw [hopen]; rfl) ht
  obtain ⟨l, rest, rfl, _, _⟩ := hchain.uncons ht
  have hspans := parseLine_dollar hg (hopen'.trans hopen) l
  rw [hstart, hnext, Nat.add_comm 5 n] at hspans
  have hlast : d.lines[n + 3]? = some (parseLine last "$".toList l).1 := by
    simp [hlines, hlength]
  have hline : d.lines[0]? = some first ∧ d.lines[2]? = some third := by
    rw [hlines]
    exact ⟨rfl, rfl⟩
  refine ⟨h.lineOf_eq hline.1 (by omega) (by omega), h.lineOf_eq hline.2 (by omega) (by omega),
    i, j, ⟨_, hlast, ?_, rfl⟩, ⟨_, hlast, ?_, rfl⟩⟩
  · rw [hspans]
    exact List.mem_cons_self
  · rw [hspans]
    exact List.mem_cons_of_mem _ List.mem_cons_self

/-- The dollar sign on the last line ends arguments that are near and math that is too far away for
its end to be found. -/
theorem partner_too_far :
    let d := edited (Text.unlines (mathOver 999)) []
    d.store.matchingBracket 3 = some 1004 ∧ d.store.Near 3 1004 ∧
      d.store.matchingBracket 1004 = some 0 ∧ d.store.matchingBracket 0 = none := by
  intro d
  obtain ⟨h, _⟩ := edited_valid (Text.unlines (mathOver 999)) []
  obtain ⟨hfirst, hthird, i, j, hmath, harguments⟩ := h.mathOver_spans (edited_mathOver 999)
  refine ⟨?_, ⟨2, 1002, hthird, h.lineOf_last hmath rfl, ?_⟩, ?_, ?_⟩
  · obtain ⟨a, ha, _, hfound⟩ := h.matching_first harguments rfl
    obtain rfl := Option.some.inj (ha.symm.trans hthird)
    exact hfound
  · simp [LineStore.scanLimit]
  · obtain ⟨outer, _, _, hfound, hleast, _⟩ := h.matching_last hmath rfl
    have hle := hleast _ hmath rfl
    rw [hfound, Nat.le_zero.mp hle]
  · obtain ⟨a, ha, _, hfound⟩ := h.matching_first hmath rfl
    obtain rfl := Option.some.inj (ha.symm.trans hfirst)
    exact hfound

end Document

end LineMarkup
