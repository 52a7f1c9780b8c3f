import LineMarkup.Proofs.Matcher.Discarding
import LineMarkup.Proofs.Matcher.Keeping
import LineMarkup.Proofs.Token.Feed

namespace LineMarkup

namespace Token

namespace Stream

open Token (Face)

/-- The faces of the tokens ahead, up to the end of the text. Only the first token may be that
before the text. -/
structure Shows (fs : List Face) (s : Stream) : Prop where
  faces : ∃ n, (ahead s).map face = fs ++ List.replicate n .ending
  begun : ∀ t ∈ (ahead s).tail, t.kind ≠ .begin

/-- A line ends here. -/
def Edge (fs : List Face) : Prop :=
  ∀ x ∈ fs.head?, x = .feed

theorem edge_nil : Edge [] := by
  intro x hx
  cases hx

theorem edge_feed (fs : List Face) : Edge (.feed :: fs) := by
  intro x hx
  exact (Option.some.inj hx).symm

variable {α : Type} {n : Nat} {fs after : List Face} {s s' : Stream}

theorem ofText_shows (text : Text) : Shows (.feed :: faces text) (ofText text) := by
  refine ⟨⟨0, by simp [ofText, ahead, beginning, face, Token.faces]⟩, fun t ht hk => ?_⟩
  have hgenuine := (scan_genuine (ht : t ∈ scan 0 text)).kind
  simp [isSentinel, hk] at hgenuine

/-- What is ahead of a reader that has gone on by some tokens, and what it has taken. -/
theorem Keeps.split (hk : Keeps s s') (hp : s'.position = s.position + n) (f : Token → α)
    (hf : ∀ t : Token, f t.unmarked = f t) :
    ∃ l, (ahead s').map f = ((ahead s).map f ++ List.replicate l (f (ending s.stop))).drop n ∧
      (s'.takenSince s.position).map f =
        ((ahead s).map f ++ List.replicate l (f (ending s.stop))).take n := by
  obtain ⟨l, hwhole⟩ := hk.whole
  have hmap (tokens : List Token) : (tokens.map unmarked).map f = tokens.map f := by
    rw [List.map_map]
    exact List.map_congr_left (fun t _ => hf t)
  have hall := congrArg (List.map f) hwhole
  rw [List.map_append, Stream.whole, Stream.whole, hmap, hmap, List.map_replicate, List.map_append,
    List.map_append, List.append_assoc] at hall
  have htaken : (s'.taken.map f).length = (s.taken.map f).length + n := by
    simpa [taken, position] using hp
  refine ⟨l, ?_, ?_⟩
  · have hdrop := congrArg (List.drop (s'.taken.map f).length) hall
    rw [List.drop_left, htaken, List.drop_append, List.drop_eq_nil_of_le (Nat.le_add_right _ _),
      Nat.add_sub_cancel_left, List.nil_append] at hdrop
    exact hdrop
  · have htake := congrArg (List.take (s'.taken.map f).length) hall
    rw [List.take_left, htaken, List.take_length_add_append] at htake
    have hsince : s'.takenSince s.position = s'.taken.drop s.position := by
      rw [takenSince, taken, List.drop_reverse]
      rfl
    have hlen : s.position = (s.taken.map f).length := by simp [taken, position]
    rw [hsince, List.map_drop, htake, hlen, List.drop_left]

/-- A reader that has gone on by some tokens shows what comes after them. -/
theorem Shows.keeps (h : Shows fs s) (hk : Keeps s s') (hp : s'.position = s.position + n) :
    Shows (fs.drop n) s' ∧ (0 < n → ∀ t ∈ ahead s', t.kind ≠ .begin) := by
  obtain ⟨k, hfaces⟩ := h.faces
  obtain ⟨l, hahead, _⟩ := hk.split hp face (fun _ => rfl)
  obtain ⟨l', hkinds, _⟩ := hk.split hp Token.kind (fun _ => rfl)
  have hbegun (i : Nat) (hi : 0 < n + i) : ∀ t ∈ (ahead s').drop i, t.kind ≠ .begin := by
    intro t ht hb
    have hm := List.mem_map_of_mem (f := Token.kind) ht
    rw [List.map_drop, hkinds, List.drop_drop, hb, List.drop_append] at hm
    rcases List.mem_append.mp hm with hm | hm
    · rw [← List.map_drop] at hm
      obtain ⟨t', ht', hk'⟩ := List.mem_map.mp hm
      refine h.begun t' ?_ hk'
      rw [← List.drop_one]
      exact (List.drop_sublist_drop_left _ hi).subset ht'
    · cases List.eq_of_mem_replicate (List.mem_of_mem_drop hm)
  refine ⟨⟨⟨k + l - (n - fs.length), ?_⟩, fun t ht => ?_⟩, fun hn t ht => ?_⟩
  · have hends : face (ending s.stop) = .ending := rfl
    rw [hahead, hfaces, hends, List.append_assoc, List.replicate_append_replicate, List.drop_append,
      List.drop_replicate]
  · exact hbegun 1 (Nat.succ_pos n) t (by rwa [List.drop_one])
  · exact hbegun 0 hn t ht

/-- The tokens that were taken, as far as they are shown. -/
theorem Shows.taken (h : Shows fs s) (hk : Keeps s s') (hp : s'.position = s.position + n)
    (hn : n ≤ fs.length) : (s'.takenSince s.position).map face = fs.take n := by
  obtain ⟨k, hfaces⟩ := h.faces
  obtain ⟨l, _, htaken⟩ := hk.split hp face (fun _ => rfl)
  rw [htaken, hfaces, List.append_assoc, List.take_append_of_le_length hn]

/-- What the next token is, as far as it is in the line. -/
theorem fetch_face (he : Edge after) (h : Shows (fs ++ after) s) :
    (∀ x ∈ fs.head?, s.fetch.1.face = x) ∧
      (fs = [] → s.fetch.1.face = .feed ∨ s.fetch.1.face = .ending) := by
  obtain ⟨n, hn⟩ := h.faces
  cases ha : ahead s with
  | nil =>
    rw [ha, List.map_nil] at hn
    obtain ⟨hall, -⟩ := List.append_eq_nil_iff.mp hn.symm
    obtain ⟨rfl, rfl⟩ := List.append_eq_nil_iff.mp hall
    rw [(fetch_of_end ha).1]
    exact ⟨by simp, fun _ => .inr rfl⟩
  | cons token rest =>
    rw [(fetch_of_ahead ha).1]
    rw [ha, List.map_cons] at hn
    cases fs with
    | cons x fs =>
      refine ⟨fun y hy => ?_, by simp⟩
      rw [List.head?_cons, Option.mem_some] at hy
      rw [← hy]
      exact (List.cons.inj hn).1
    | nil =>
      refine ⟨by simp, fun _ => ?_⟩
      cases after with
      | cons x after => exact .inl ((List.cons.inj hn).1.trans (he x rfl))
      | nil =>
        rw [List.nil_append, List.nil_append] at hn
        exact .inr (List.eq_of_mem_replicate (hn ▸ List.mem_cons_self))

end Stream

end Token

namespace Matcher

open Token (Stream Face)
open Token.Stream

/-- Kinds of tokens that are within a line. -/
def inner : TokenKind → Bool
  | .begin | .lineEnd | .textEnd => false
  | _ => true

theorem face_of_inner {t : Token} (h : inner t.kind = true) : t.face = (t.kind, t.text) := by
  unfold Token.face
  split
  · rename_i hk
    rcases hk with hk | hk <;> simp [hk, inner] at h
  · rfl

/-- A token that ends a line is not within it. -/
theorem inner_of_edge {t : Token} (h : t.face = .feed ∨ t.face = .ending) :
    inner t.kind = false := by
  apply Bool.eq_false_iff.mpr
  intro hk
  rw [face_of_inner hk] at h
  rcases h with h | h <;> rw [(Prod.mk.inj h).1] at hk <;> cases hk

/-- All that is taken is within a line. Repetitions go on token by token. -/
def inline : Matcher → Bool
  | .kind k => inner k
  | .seq first second | .alt first second => first.inline && second.inline
  | .optional body | .look body | .discard body => body.inline
  | .many1 body => body.inline && body.single && body.takes (fun _ => true)
  | _ => true

/-- The reader makes the same of the faces of a line whatever comes after the line: if it matches at
all, it takes some number of tokens of the line. -/
structure Settles (reader : Stream → Bool × Stream) (fs : List Face) (reach : Option Nat) :
    Prop where
  within : ∀ n ∈ reach, n ≤ fs.length
  outcome : ∀ after s, Edge after → Shows (fs ++ after) s → (reader s).1 = reach.isSome ∧
    ∀ n ∈ reach, (reader s).2.position = s.position + n

variable {reader next both : Stream → Bool × Stream} {fs after : List Face} {s s' : Stream}
  {m first second body : Matcher} {reach : Option Nat}

namespace Settles

/-- A match stays within the line, and the line goes on after it. -/
theorem hit (h : Settles reader fs reach) (hr : ∀ s, Returns s (reader s)) (he : Edge after)
    (hs : Shows (fs ++ after) s) (hb : reader s = (true, s')) :
    ∃ n ≤ fs.length, reach = some n ∧ s'.position = s.position + n ∧
      Shows (fs.drop n ++ after) s' ∧ (s'.takenSince s.position).map Token.face = fs.take n := by
  obtain ⟨ha, hm⟩ := h.outcome after s he hs
  rw [hb] at ha hm
  obtain ⟨n, rfl⟩ := Option.isSome_iff_exists.mp ha.symm
  have hle := h.within n rfl
  have hk := (hr s).keeps
  rw [hb] at hk
  have hshows := (hs.keeps hk (hm n rfl)).1
  rw [List.drop_append_of_le_length hle] at hshows
  have hlen : n ≤ (fs ++ after).length := by
    rw [List.length_append]
    exact Nat.le_add_right_of_le hle
  exact ⟨n, hle, rfl, hm n rfl, hshows,
    (hs.taken hk (hm n rfl) hlen).trans (List.take_append_of_le_length hle)⟩

/-- Without a match the reader is where it was. -/
theorem miss (h : Settles reader fs reach) (hr : ∀ s, Returns s (reader s)) (he : Edge after)
    (hs : Shows (fs ++ after) s) (hb : reader s = (false, s')) :
    reach = none ∧ s'.position = s.position ∧ Shows (fs ++ after) s' := by
  obtain ⟨ha, -⟩ := h.outcome after s he hs
  have hret := hr s
  rw [hb] at ha hret
  have hp := hret.back rfl
  exact ⟨Option.isNone_iff_eq_none.mp (by simpa using ha.symm), hp,
    (hs.keeps hret.keeps (hp.trans (Nat.add_zero _).symm)).1⟩

/-- A match of one reader, then another. -/
theorem seq (h : Settles reader fs (some n)) (hr : ∀ s, Returns s (reader s))
    (hnext : Settles next (fs.drop n) reach)
    (hb : ∀ s s', reader s = (true, s') → (both s).1 = (next s').1 ∧
      ((next s').1 = true → (both s).2 = (next s').2)) :
    Settles both fs (reach.map (n + ·)) := by
  have hle := h.within n rfl
  refine ⟨fun k hk => ?_, fun after s he hs => ?_⟩
  · obtain ⟨l, hl, rfl⟩ := Option.map_eq_some_iff.mp hk
    have := hnext.within l hl
    rw [List.length_drop] at this
    omega
  · obtain ⟨hok, -⟩ := h.outcome after s he hs
    rcases hrun : reader s with ⟨ok, s'⟩
    rw [hrun] at hok
    obtain rfl : ok = true := hok
    obtain ⟨_, _, hn, hposition, hshows, _⟩ := h.hit hr he hs hrun
    obtain rfl := Option.some.inj hn
    obtain ⟨hok, hmoved⟩ := hnext.outcome after s' he hshows
    obtain ⟨hsame, hstream⟩ := hb s s' hrun
    refine ⟨by rw [hsame, hok, Option.isSome_map], fun k hk => ?_⟩
    obtain ⟨l, hl, rfl⟩ := Option.map_eq_some_iff.mp hk
    rw [hstream (by rw [hok, hl]; rfl), hmoved l hl, hposition, Nat.add_assoc]

theorem never (h : ∀ after s, Edge after → Shows (fs ++ after) s → (reader s).1 = false) :
    Settles reader fs none :=
  ⟨by simp, fun after s he hs => ⟨h after s he hs, by simp⟩⟩

theorem fails (h : Settles reader fs none)
    (hb : ∀ s s', reader s = (false, s') → (both s).1 = false) : Settles both fs none := by
  refine .never (fun after s he hs => ?_)
  obtain ⟨hok, -⟩ := h.outcome after s he hs
  rcases hrun : reader s with ⟨ok, s'⟩
  rw [hrun] at hok
  obtain rfl : ok = false := hok
  exact hb s s' hrun

end Settles

theorem one_settles {p : Token → Bool} (hf : ∀ t t' : Token, t.face = t'.face → p t = p t')
    (hi : ∀ t, p t = true → inner t.kind = true) (fs : List Face) :
    ∃ reach, Settles (one p) fs reach := by
  have hone {s : Stream} (hp : p s.fetch.1 = true) : one p s = (true, s.fetch.2) := by
    simp [one, hp]
  have hnone {s : Stream} (hp : p s.fetch.1 = false) : (one p s).1 = false := by
    simp [one, hp]
  cases fs with
  | nil =>
    refine ⟨none, .never (fun after s he hs => hnone ?_)⟩
    apply Bool.eq_false_iff.mpr
    intro hp
    have := inner_of_edge ((fetch_face he hs).2 rfl)
    rw [hi _ hp] at this
    cases this
  | cons x fs =>
    by_cases hx : ∃ t : Token, t.face = x ∧ p t = true
    · obtain ⟨t, ht, hp⟩ := hx
      refine ⟨some 1, by simp, fun after s he hs => ?_⟩
      have hface := (fetch_face he hs).1 x rfl
      rw [hone ((hf _ _ (hface.trans ht.symm)).trans hp)]
      exact ⟨rfl, fun n hn => by rw [← Option.mem_some.mp hn, fetch_position]⟩
    · refine ⟨none, .never (fun after s he hs => hnone ?_)⟩
      have hface := (fetch_face he hs).1 x rfl
      exact Bool.eq_false_iff.mpr (fun hp => hx ⟨_, hface, hp⟩)

theorem kind_settles (hk : inner k = true) (fs : List Face) :
    ∃ reach, Settles (one (·.kind = k)) fs reach := by
  refine one_settles (p := (·.kind = k)) (fun t t' ht => ?_)
    (fun t ht => (of_decide_eq_true ht) ▸ hk) fs
  have hiff {t t' : Token} (ht : t.face = t'.face) (hkind : t.kind = k) : t'.kind = k := by
    rw [face_of_inner (hkind ▸ hk)] at ht
    unfold Token.face at ht
    split at ht
    · rw [← hkind, (Prod.mk.inj ht).1] at hk
      cases hk
    · rw [← (Prod.mk.inj ht).1, hkind]
  exact decide_eq_decide.mpr ⟨hiff ht, hiff ht.symm⟩

theorem symbol_settles (c : Char) (fs : List Face) :
    ∃ reach, Settles (one (·.isSymbol c)) fs reach := by
  refine one_settles (fun t t' ht => ?_) (fun t ht => (isSymbol_kind ht) ▸ rfl) fs
  have hiff {t t' : Token} (ht : t.face = t'.face) (hs : t.isSymbol c = true) :
      t'.isSymbol c = true := by
    have hk := isSymbol_kind hs
    rw [face_of_inner (hk ▸ rfl)] at ht
    unfold Token.face at ht
    split at ht
    · rw [(Prod.mk.inj ht).1] at hk
      cases hk
    · obtain ⟨hkind, htext⟩ := Prod.mk.inj ht
      rwa [Token.isSymbol, ← hkind, ← htext]
  exact Bool.eq_iff_iff.mpr ⟨hiff ht, hiff ht.symm⟩

theorem spell_settles (text : Text) (fs : List Face) :
    ∃ reach, Settles (spell text) fs reach := by
  induction text generalizing fs with
  | nil =>
    refine ⟨some 0, by simp, fun _ s _ _ => ⟨rfl, fun n hn => ?_⟩⟩
    rw [← Option.mem_some.mp hn]
    rfl
  | cons c text ih =>
    have hspell (s s' : Stream) (ok : Bool) (hrun : one (·.isSymbol c) s = (ok, s')) :
        spell (c :: text) s = if ok then spell text s' else (false, s.fetch.2) := by
      simp only [one] at hrun
      split at hrun <;> rename_i hp <;> obtain ⟨rfl, rfl⟩ := Prod.mk.inj hrun <;> simp [spell, hp]
    obtain ⟨first, hf⟩ := symbol_settles c fs
    cases first with
    | none => exact ⟨none, hf.fails (fun s s' hrun => by rw [hspell s s' _ hrun]; rfl)⟩
    | some n =>
      obtain ⟨reach, hreach⟩ := ih (fs.drop n)
      refine ⟨_, hf.seq (returns_one _) hreach (fun s s' hrun => ?_)⟩
      rw [hspell s s' _ hrun]
      exact ⟨rfl, fun _ => rfl⟩

/-- A reader that takes one token at a time takes as many of the line as it can. -/
theorem repeated_settles (hr : ∀ s, Returns s (reader s))
    (hone : ∀ s s', reader s = (true, s') → s'.position = s.position + 1)
    (hb : ∀ fs, ∃ reach, Settles reader fs reach) (fs : List Face) :
    ∃ n ≤ fs.length, ∀ fuel after s, fs.length < fuel → Edge after → Shows (fs ++ after) s →
      (repeated reader fuel s).position = s.position + n := by
  induction hl : fs.length using Nat.strongRecOn generalizing fs with
  | ind l ih =>
    obtain ⟨reach, hreach⟩ := hb fs
    have hstop (after : List Face) (s : Stream) (he : Edge after) (hs : Shows (fs ++ after) s)
        (hi : reach = none ∨ reach = some 0) : ∃ s', reader s = (false, s') := by
      rcases hrun : reader s with ⟨ok, s'⟩
      cases ok with
      | false => exact ⟨s', rfl⟩
      | true =>
        obtain ⟨n, _, hn, hposition, _⟩ := hreach.hit hr he hs hrun
        have := hone s s' hrun
        rcases hi with hi | hi <;> rw [hi] at hn <;> cases hn
        omega
    by_cases hi : reach = none ∨ reach = some 0
    · refine ⟨0, Nat.zero_le _, fun fuel after s hfuel he hs => ?_⟩
      obtain ⟨s', hrun⟩ := hstop after s he hs hi
      obtain ⟨fuel, rfl⟩ := Nat.exists_eq_add_of_lt hfuel
      simp only [repeated, hrun]
      exact (hreach.miss hr he hs hrun).2.1
    · obtain ⟨n, rfl⟩ := Option.ne_none_iff_exists'.mp (fun hn => hi (.inl hn))
      have hpos : 0 < n := Nat.pos_of_ne_zero (fun hn => hi (.inr (congrArg some hn)))
      have hle := hreach.within n rfl
      have hdrop : (fs.drop n).length < l := by
        rw [List.length_drop]
        omega
      obtain ⟨k, hk, hmore⟩ := ih _ hdrop (fs.drop n) rfl
      refine ⟨n + k, by rw [List.length_drop] at hk; omega, fun fuel after s hfuel he hs => ?_⟩
      obtain ⟨fuel, rfl⟩ := Nat.exists_eq_add_of_lt hfuel
      have hok := (hreach.outcome after s he hs).1
      rcases hrun : reader s with ⟨ok, s'⟩
      rw [hrun] at hok
      obtain rfl : ok = true := hok
      obtain ⟨_, _, hn, hposition, hshows, _⟩ := hreach.hit hr he hs hrun
      obtain rfl := Option.some.inj hn
      simp only [repeated, hrun]
      rw [hmore _ after s' (by omega) he hshows, hposition, Nat.add_assoc]

theorem repeated1_settles (hr : ∀ s, Returns s (reader s))
    (hone : ∀ s s', reader s = (true, s') → s'.position = s.position + 1)
    (hb : ∀ fs, ∃ reach, Settles reader fs reach) (fs : List Face) :
    ∃ reach, Settles (repeated1 reader) fs reach := by
  obtain ⟨first, hf⟩ := hb fs
  cases first with
  | none => exact ⟨none, hf.fails (fun s s' hrun => by simp only [repeated1, hrun])⟩
  | some n =>
    obtain ⟨k, hk, hmore⟩ := repeated_settles hr hone hb (fs.drop n)
    have hrest : Settles (fun s => (true, repeated reader (s.remaining + 1) s)) (fs.drop n)
        (some k) := by
      refine ⟨fun l hl => Option.mem_some.mp hl ▸ hk, fun after s he hs => ⟨rfl, fun l hl => ?_⟩⟩
      rw [← Option.mem_some.mp hl]
      refine hmore _ after s ?_ he hs
      obtain ⟨m, hm⟩ := hs.faces
      have := congrArg List.length hm
      simp only [List.length_map, List.length_append] at this
      rw [remaining_eq]
      omega
    refine ⟨_, hf.seq hr hrest (fun s s' hrun => ?_)⟩
    simp only [repeated1, hrun, implies_true, and_self]

theorem word_settles (fs : List Face) : ∃ reach, Settles word fs reach := by
  refine repeated1_settles (returns_one _) (fun s s' hrun => ?_) (kind_settles rfl) fs
  have hmatch := one_match (congrArg Prod.fst hrun)
  rw [hrun] at hmatch
  exact (congrArg position hmatch.2).trans (fetch_position s)

theorem words_text {tokens : List Token} (h : ∀ t ∈ tokens, t.kind = .word) :
    tokens.flatMap Token.text = (tokens.map Token.face).flatMap Prod.snd := by
  rw [List.flatMap_map]
  refine congrArg List.flatten (List.map_congr_left (fun t ht => ?_))
  rw [face_of_inner (by rw [h t ht]; rfl)]

theorem word_text {s s' : Stream} (h : word s = (true, s')) :
    (s'.takenSince s.position).flatMap Token.text =
      ((s'.takenSince s.position).map Token.face).flatMap Prod.snd := by
  have htry : Tries (· == .word) (one (·.kind = .word)) := tries_one _ (by simp)
  obtain ⟨first, more, _, hr, _⟩ := repeated1_reads htry s
  change Reads _ s _ (word s).2 at hr
  rw [h] at hr
  rw [hr.takenSince_eq]
  exact words_text (fun t ht => by simpa using hr.kinds t ht)

theorem keyword_settles (words : List Text) (fs : List Face) :
    ∃ reach, Settles (run (.keyword words)) fs reach := by
  have hr (s : Stream) : Returns s (word s) := returns_repeated1 (returns_one _) s
  obtain ⟨reach, hf⟩ := word_settles fs
  cases reach with
  | none => exact ⟨none, hf.fails (fun s s' hrun => by simp only [run, hrun])⟩
  | some n =>
    refine ⟨if (fs.take n).flatMap Prod.snd ∈ words then some n else none, fun k hk => ?_,
      fun after s he hs => ?_⟩
    · split at hk
      · exact hf.within k hk
      · cases hk
    · have hok := (hf.outcome after s he hs).1
      rcases hrun : word s with ⟨ok, s'⟩
      rw [hrun] at hok
      obtain rfl : ok = true := hok
      obtain ⟨_, _, hn, hposition, _, htaken⟩ := hf.hit hr he hs hrun
      obtain rfl := Option.some.inj hn
      simp only [run, hrun, word_text hrun, htaken]
      split
      · exact ⟨rfl, fun k hk => by rw [hposition, Option.mem_some.mp hk]⟩
      · exact ⟨rfl, by simp⟩

theorem seq_run (second : Matcher) {s₁ : Stream} (h : first.run s = (true, s₁)) :
    ((Matcher.seq first second).run s).1 = (second.run s₁).1 ∧
      ((second.run s₁).1 = true → ((Matcher.seq first second).run s).2 = (second.run s₁).2) := by
  simp only [run, h]
  split <;> simp_all

theorem seq_settles (h : Settles (run first) fs (some n))
    (h' : Settles (run second) (fs.drop n) reach) :
    Settles (run (.seq first second)) fs (reach.map (n + ·)) :=
  h.seq first.run_returns h' (fun _ _ hrun => seq_run second hrun)

theorem seq_settles_none (h : Settles (run first) fs none) :
    Settles (run (.seq first second)) fs none :=
  h.fails (fun s s' hrun => by simp only [run, hrun])

theorem alt_settles (h : Settles (run first) fs reach) (h' : Settles (run second) fs reach') :
    Settles (run (.alt first second)) fs (reach.or reach') := by
  cases reach with
  | none =>
    refine ⟨h'.within, fun after s he hs => ?_⟩
    have hok := (h.outcome after s he hs).1
    rcases hrun : run first s with ⟨ok, s'⟩
    rw [hrun] at hok
    obtain rfl : ok = false := hok
    obtain ⟨_, hposition, hshows⟩ := h.miss first.run_returns he hs hrun
    simp only [run, hrun, ← hposition]
    exact h'.outcome after s' he hshows
  | some n =>
    refine ⟨h.within, fun after s he hs => ?_⟩
    obtain ⟨hok, hmoved⟩ := h.outcome after s he hs
    rcases hrun : run first s with ⟨ok, s'⟩
    rw [hrun] at hok hmoved
    obtain rfl : ok = true := hok
    simp only [run, hrun]
    exact ⟨rfl, hmoved⟩

theorem test_settles (outcome : Bool) (fs : List Face) :
    Settles (run (.test outcome)) fs (if outcome then some 0 else none) := by
  cases outcome with
  | true =>
    refine ⟨by simp, fun _ s _ _ => ⟨rfl, fun n hn => ?_⟩⟩
    rw [← Option.mem_some.mp hn]
    rfl
  | false => exact .never (fun _ _ _ _ => rfl)

theorem optional_settles (h : Settles (run body) fs reach) :
    Settles (run (.optional body)) fs (some (reach.getD 0)) := by
  refine ⟨fun k hk => ?_, fun after s he hs => ⟨rfl, fun k hk => ?_⟩⟩
  · rw [← Option.mem_some.mp hk]
    cases reach with
    | none => exact Nat.zero_le _
    | some n => exact h.within n rfl
  · rw [← Option.mem_some.mp hk]
    simp only [run]
    cases reach with
    | none =>
      have hok := (h.outcome after s he hs).1
      exact (body.run_returns s).back hok
    | some n => exact (h.outcome after s he hs).2 n rfl

theorem look_settles (h : Settles (run body) fs reach) :
    Settles (run (.look body)) fs (reach.map (fun _ => 0)) := by
  refine ⟨fun k hk => ?_, fun after s he hs => ⟨?_, fun k hk => ?_⟩⟩
  · obtain ⟨_, _, rfl⟩ := Option.map_eq_some_iff.mp hk
    exact Nat.zero_le _
  · rw [Option.isSome_map]
    exact (h.outcome after s he hs).1
  · obtain ⟨_, _, rfl⟩ := Option.map_eq_some_iff.mp hk
    exact rewind_position (body.run_returns s).forward

theorem discard_settles (h : Settles (run body) fs reach) :
    Settles (run (.discard body)) fs reach := by
  refine ⟨h.within, fun after s he hs => ?_⟩
  have := h.outcome after s he hs
  simp only [run]
  split <;> rename_i hrun <;> rw [hrun] at this
  · simpa [Stream.discard, position] using this
  · exact this

theorem many1_settles (hs : single body = true) (ht : body.takes (fun _ => true) = true)
    (hb : ∀ fs, ∃ reach, Settles (run body) fs reach) (fs : List Face) :
    ∃ reach, Settles (run (.many1 body)) fs reach := by
  refine repeated1_settles body.run_returns (fun s s' hrun => ?_) hb fs
  obtain ⟨new, hr, _, htakes⟩ := run_outcome (plain_of_single hs) (only_all body) s
  have hle := single_length hs hr
  obtain ⟨t, hmem, _⟩ := htakes _ ht (by rw [hrun])
  have hpos := List.length_pos_of_mem hmem
  have hposition := hr.position_eq
  rw [hrun] at hposition
  change s'.position = _ at hposition
  omega

/-- Every pattern of tokens within a line. -/
theorem inline_settles (hm : inline m = true) (fs : List Face) :
    ∃ reach, Settles m.run fs reach := by
  induction m generalizing fs with
  | kind k => exact kind_settles hm fs
  | symbol c => exact symbol_settles c fs
  | symbols text =>
    obtain ⟨reach, hs⟩ := spell_settles text fs
    refine ⟨reach, hs.within, fun after s he h => ?_⟩
    obtain ⟨hok, hmoved⟩ := hs.outcome after s he h
    simp only [run]
    split <;> rename_i after' hrun <;> rw [hrun] at hok hmoved
    · exact ⟨hok, hmoved⟩
    · refine ⟨hok, fun n hn => ?_⟩
      rw [Option.mem_def.mp hn] at hok
      cases hok
  | keyword words => exact keyword_settles words fs
  | test outcome => exact ⟨_, test_settles outcome fs⟩
  | seq first second ih ih' =>
    simp only [inline, Bool.and_eq_true] at hm
    obtain ⟨reach, h⟩ := ih hm.1 fs
    cases reach with
    | none => exact ⟨none, seq_settles_none h⟩
    | some n => exact (ih' hm.2 (fs.drop n)).elim fun _ h' => ⟨_, seq_settles h h'⟩
  | alt first second ih ih' =>
    simp only [inline, Bool.and_eq_true] at hm
    obtain ⟨reach, h⟩ := ih hm.1 fs
    obtain ⟨reach', h'⟩ := ih' hm.2 fs
    exact ⟨_, alt_settles h h'⟩
  | optional body ih => exact (ih hm fs).elim fun _ h => ⟨_, optional_settles h⟩
  | many1 body ih =>
    simp only [inline, Bool.and_eq_true] at hm
    exact many1_settles hm.1.2 hm.2 (ih hm.1.1) fs
  | look body ih => exact (ih hm fs).elim fun _ h => ⟨_, look_settles h⟩
  | discard body ih => exact (ih hm fs).elim fun _ h => ⟨_, discard_settles h⟩

theorem face_eq_feed {t : Token} : t.face = .feed ↔ t.kind = .begin ∨ t.kind = .lineEnd := by
  unfold Token.face
  split
  · rename_i hk
    exact ⟨fun _ => hk, fun _ => rfl⟩
  · rename_i hk
    exact ⟨fun h => .inr (Prod.mk.inj h).1, fun h => absurd h hk⟩

/-- What ends a line or the text, if there is a text before it. -/
theorem ends_iff (he : Edge after) (hs : Shows (fs ++ after) s)
    (hb : ∀ t ∈ ahead s, t.kind ≠ .begin) (hin : ∀ x ∈ fs, x.1 ≠ .lineEnd ∧ x.1 ≠ .textEnd) :
    s.fetch.1.kind = .textEnd ∨ s.fetch.1.kind = .lineEnd ↔ fs = [] := by
  obtain ⟨hinside, hedge⟩ := fetch_face he hs
  constructor
  · intro hk
    cases fs with
    | nil => rfl
    | cons x fs =>
      have hx := hinside x rfl
      obtain ⟨hl, ht⟩ := hin x List.mem_cons_self
      rcases hk with hk | hk
      · rw [← hx, Token.face, if_neg (by simp [hk])] at ht
        exact absurd hk ht
      · rw [← hx, face_eq_feed.mpr (.inr hk)] at hl
        exact absurd rfl hl
  · intro hn
    rcases hedge hn with hface | hface
    · rcases face_eq_feed.mp hface with hk | hk
      · cases ha : ahead s with
        | nil =>
          rw [(fetch_of_end ha).1] at hk
          cases hk
        | cons t rest =>
          rw [(fetch_of_ahead ha).1] at hk
          exact absurd hk (hb t (ha ▸ List.mem_cons_self))
      · exact .inr hk
    · unfold Token.face at hface
      split at hface
      · cases hface
      · exact .inl (Prod.mk.inj hface).1

/-- One token of either kind. -/
theorem either_run (a b : TokenKind) (s : Stream) :
    ((run (.alt (.kind a) (.kind b)) s).1 = true ↔ s.fetch.1.kind = a ∨ s.fetch.1.kind = b) ∧
      ((run (.alt (.kind a) (.kind b)) s).1 = true →
        (run (.alt (.kind a) (.kind b)) s).2.position = s.position + 1) := by
  obtain ⟨_, hahead, _⟩ := rewind_fetch s
  have hagain := (fetch_of_ahead hahead).1
  have hback : (s.fetch.2.rewind s.position).position = s.position :=
    rewind_position (by rw [fetch_position]; exact Nat.le_succ _)
  by_cases ha : s.fetch.1.kind = a
  · simp [run, one, ha, fetch_position]
  · by_cases hb : s.fetch.1.kind = b
    · subst hb
      simp [run, one, ha, hagain, fetch_position, hback]
    · simp [run, one, ha, hb, hagain]

theorem newline_settles (x : Face) (fs : List Face) :
    Settles (run (.alt (.kind .begin) (.kind .lineEnd))) (x :: fs)
      (if x = .feed then some 1 else none) := by
  refine ⟨fun n hn => ?_, fun after s he hs => ?_⟩
  · split at hn
    · rw [← Option.mem_some.mp hn]
      exact Nat.succ_le_succ (Nat.zero_le _)
    · cases hn
  · obtain ⟨hok, hmoved⟩ := either_run .begin .lineEnd s
    rw [← face_eq_feed, (fetch_face he hs).1 x rfl] at hok
    split <;> rename_i hx
    · exact ⟨hok.mpr hx, fun n hn => by rw [← Option.mem_some.mp hn, hmoved (hok.mpr hx)]⟩
    · exact ⟨Bool.eq_false_iff.mpr (fun h => hx (hok.mp h)), by simp⟩

theorem alt_assoc (a b c : Matcher) (s : Stream) :
    run (.alt a (.alt b c)) s = run (.alt (.alt a b) c) s := by
  simp only [run]
  split <;> simp_all

theorem lineStart_settles (acs : Bool) (x : Face) (fs : List Face) :
    Settles (run (lineStart acs)) (x :: fs)
      (if x = .feed then some 1 else if acs then some 0 else none) := by
  have hrun : run (lineStart acs) = run (.alt (.alt (.kind .begin) (.kind .lineEnd)) (.test acs)) :=
    funext (alt_assoc _ _ _)
  have hreach : (if x = .feed then some 1 else if acs then some 0 else none) =
      (if x = .feed then some 1 else none).or (if acs then some 0 else none) := by
    split <;> rfl
  rw [hrun, hreach]
  exact alt_settles (newline_settles x fs) (test_settles acs (x :: fs))

end Matcher

end LineMarkup
