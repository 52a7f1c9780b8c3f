import LineMarkup.LineStore.Basic
import LineMarkup.Proofs.Document.Edit

namespace LineMarkup

namespace LineStore

theorem search_eq {store : LineStore} (h : ∀ m < high, store.lineStart m ≤ pos ↔ m ≤ i)
    (hlow : low ≤ i) (hhigh : i < high) : store.search pos low high = i := by
  fun_induction search store pos low high with
  | case1 low high hlt middle hle ih =>
    have hmiddle : middle < high := by omega
    exact ih h ((h middle hmiddle).mp hle) hhigh
  | case2 low high hlt middle hgt ih =>
    have hmiddle : middle < high := by omega
    have hi : i < middle := Nat.lt_of_not_le (fun hle => hgt ((h middle hmiddle).mpr hle))
    exact ih (fun m hm => h m (by omega)) hlow hi
  | case3 low high hge => omega

end LineStore

namespace Document

variable {d : Document} {previous : Option Line} {lines : List Line} {line : Line} {i pos : Nat}

theorem Chain.le_start (h : Chain previous lines) :
    ∀ line ∈ lines, startAfter previous ≤ line.start := by
  induction h with
  | nil => simp
  | @parse previous text lines id rest ih =>
    refine List.forall_mem_cons.mpr ⟨Nat.le_of_eq (parseLine_start previous text id).symm, ?_⟩
    intro line hl
    have := ih line hl
    rw [parseLine_next] at this
    omega

theorem Chain.apart (h : Chain previous lines) :
    lines.Pairwise (fun a b => a.next ≤ b.start) := by
  induction h with
  | nil => exact .nil
  | parse id rest ih => exact .cons rest.le_start ih

theorem store_lineStart (hl : d.lines[i]? = some line) : d.store.lineStart i = line.start := by
  simp [store, hl]

theorem store_lineSize (hl : d.lines[i]? = some line) :
    d.store.lineSize i = line.text.size := by
  simp [store, LineStore.lineSize, hl]

/-- A position in a line, or just after it, is looked up there. -/
theorem Valid.lineOf_eq (h : Valid d) (hl : d.lines[i]? = some line) (hlow : line.start ≤ pos)
    (hhigh : pos ≤ line.start + line.text.size) : d.store.lineOf? pos = some i := by
  obtain ⟨hi, hline⟩ := List.getElem?_eq_some_iff.mp hl
  have hcount : d.store.lineCount = d.lines.length := by simp [store]
  have hapart := List.pairwise_iff_getElem.mp h.chain.apart
  have hsearch : d.store.search pos 0 d.store.lineCount = i := by
    refine LineStore.search_eq (fun m hm => ?_) (Nat.zero_le _) (hcount ▸ hi)
    rw [hcount] at hm
    rw [store_lineStart (List.getElem?_eq_getElem hm)]
    rcases Nat.lt_trichotomy m i with hlt | rfl | hgt
    · have := hapart m i hm hi hlt
      rw [hline, Line.next] at this
      omega
    · rw [hline]
      omega
    · have := hapart i m hi hm hgt
      rw [hline, Line.next] at this
      omega
  have hn : d.store.lineCount ≠ 0 := by omega
  simp only [LineStore.lineOf?, hn, ↓reduceIte, hsearch, store_lineStart hl, store_lineSize hl]
  rw [if_pos hhigh]

end Document

end LineMarkup
