import LineMarkup.Proofs.Matcher.Keeping
import LineMarkup.Proofs.Token.Partition

namespace LineMarkup.Token

variable {text : Text} {a b b' c tokens : List Token} {s s' : Stream} {i k n : Nat}

/-- The tokens of a text by number. The end token at the end is repeated forever. -/
def endless (text : Text) (i : Nat) : Token :=
  ((tokenize text)[i]?).getD (ending text.size)

/-- What a reader may do to a stream. -/
inductive Access
  | fetch
  | peek
  | rewind (position : Nat)
  | release
  /-- Marks all consumed tokens as discarded. -/
  | discard
  /-- Marks one of the consumed tokens, by its place among them. -/
  | mark (i : Nat)
deriving DecidableEq, Repr

namespace Stream

def mark (s : Stream) (i : Nat) : Stream :=
  { s with consumed := (s.taken.modify i Token.discard).reverse }

end Stream

/-- A stream in use, with all tokens it has let go of. -/
structure Session where
  stream : Stream
  released : List Token := []

namespace Session

def ofText (text : Text) : Session :=
  { stream := .ofText text }

/-- How many tokens were let go of. -/
def base (session : Session) : Nat :=
  session.released.length

/-- The number of the next token, counted from the beginning of the text. -/
def next (session : Session) : Nat :=
  session.base + session.stream.position

def perform (session : Session) : Access → Session
  | .fetch => { session with stream := session.stream.fetch.2 }
  | .peek => { session with stream := session.stream.peek.2 }
  | .rewind position => { session with stream := session.stream.rewind position }
  | .release =>
    { stream := session.stream.release, released := session.released ++ session.stream.taken }
  | .discard => { session with stream := session.stream.discard }
  | .mark i => { session with stream := session.stream.mark i }

def performAll (session : Session) (accesses : List Access) : Session :=
  accesses.foldl perform session

end Session

/-- A cursor without a buffer: how many tokens were let go of, and how many were consumed since. -/
structure PlainCursor where
  base : Nat := 0
  position : Nat := 0
deriving DecidableEq, Repr

namespace PlainCursor

def move (cursor : PlainCursor) : Access → PlainCursor
  | .fetch => { cursor with position := cursor.position + 1 }
  | .rewind position => { cursor with position := min position cursor.position }
  | .release => { base := cursor.base + cursor.position, position := 0 }
  | .peek | .discard | .mark _ => cursor

def moveAll (cursor : PlainCursor) (accesses : List Access) : PlainCursor :=
  accesses.foldl move cursor

end PlainCursor

namespace Stream

/-- A look ahead is a token that is fetched and given back. -/
theorem peek_eq (s : Stream) : s.peek = (s.fetch.1, s.fetch.2.rewind s.position) := by
  obtain ⟨consumed, buffered, unread, limit⟩ := s
  have hone : consumed.length + 1 - consumed.length = 1 := by omega
  cases buffered with
  | cons t rest => simp [peek, fetch, rewind, position, hone]
  | nil => cases unread <;> simp [peek, fetch, rewind, position, hone]

theorem taken_length (s : Stream) : s.taken.length = s.position :=
  List.length_reverse

theorem rewind_taken_ahead (s : Stream) (position : Nat) :
    (s.rewind position).taken ++ (s.rewind position).ahead = s.taken ++ s.ahead := by
  have hsplit := congrArg List.reverse (List.take_append_drop (s.position - position) s.consumed)
  rw [List.reverse_append] at hsplit
  simp only [taken, rewind, ahead]
  rw [← List.append_assoc, ← List.append_assoc, hsplit, List.append_assoc]

theorem fetch_taken (s : Stream) : s.fetch.2.taken = s.taken ++ [s.fetch.1] := by
  rw [taken, fetch_consumed, List.reverse_cons]
  rfl

theorem fetch_taken_ahead (s : Stream) :
    ∃ n, s.fetch.2.taken ++ s.fetch.2.ahead =
      s.taken ++ s.ahead ++ List.replicate n (ending s.stop) := by
  obtain ⟨n, hn⟩ := Reads.fetch_ahead s
  refine ⟨n, ?_⟩
  rw [fetch_taken, List.append_assoc, List.singleton_append, hn, List.append_assoc]

theorem rewind_position_eq (s : Stream) (position : Nat) :
    (s.rewind position).position = min position s.position := by
  simp only [Stream.position, rewind, List.length_drop]
  omega

theorem peek_position (s : Stream) : s.peek.2.position = s.position := by
  rw [peek_eq, rewind_position_eq, fetch_position]
  omega

theorem mark_taken (s : Stream) (i : Nat) : (s.mark i).taken = s.taken.modify i Token.discard := by
  rw [taken, mark, List.reverse_reverse]

theorem mark_position (s : Stream) (i : Nat) : (s.mark i).position = s.position := by
  simp [position, mark, taken]

theorem Keeps.peek (s : Stream) : Keeps s s.peek.2 := by
  rw [peek_eq]
  exact (Keeps.fetch s).trans (.rewind _ _)

theorem modify_unmarked (tokens : List Token) (i : Nat) :
    (tokens.modify i Token.discard).map unmarked = tokens.map unmarked := by
  apply List.ext_getElem?
  intro k
  rw [List.getElem?_map, List.getElem?_map, List.getElem?_modify]
  cases tokens[k]? with
  | none => rfl
  | some t => by_cases hk : i = k <;> simp [hk]

theorem Keeps.mark (s : Stream) (i : Nat) : Keeps s (s.mark i) := by
  refine .of_whole rfl ?_
  rw [Stream.whole, mark_taken, List.map_append, modify_unmarked, ← List.map_append]
  rfl

end Stream

/-- The token of this number is among these, and it is marked. -/
def MarkedAt (tokens : List Token) (k : Nat) : Prop :=
  ∃ t, tokens[k]? = some t ∧ t.discarded = true

theorem MarkedAt.append (h : MarkedAt a k) (b : List Token) : MarkedAt (a ++ b) k := by
  obtain ⟨t, ht, hd⟩ := h
  refine ⟨t, ?_, hd⟩
  rw [List.getElem?_append_left (List.getElem?_eq_some_iff.mp ht).1, ht]

/-- Marks in the middle of a list are not lost when that part is only marked further. -/
theorem MarkedAt.middle (h : MarkedAt (a ++ b ++ c) k) (hlength : b'.length = b.length)
    (hmarks : ∀ i, MarkedAt b i → MarkedAt b' i) : MarkedAt (a ++ b' ++ c) k := by
  obtain ⟨t, ht, hd⟩ := h
  rw [MarkedAt, List.append_assoc]
  simp only [List.append_assoc, List.getElem?_append] at ht
  simp only [List.getElem?_append, hlength]
  split
  · exact ⟨t, by simpa [*] using ht, hd⟩
  · split
    · have hb : MarkedAt b (k - a.length) := ⟨t, by simpa [*] using ht, hd⟩
      exact hmarks _ hb
    · exact ⟨t, by simpa [*] using ht, hd⟩

theorem markedAt_discard (h : MarkedAt tokens k) : MarkedAt (tokens.map Token.discard) k := by
  obtain ⟨t, ht, _⟩ := h
  exact ⟨t.discard, by rw [List.getElem?_map, ht]; rfl, rfl⟩

theorem markedAt_modify (h : MarkedAt tokens k) (i : Nat) :
    MarkedAt (tokens.modify i Token.discard) k := by
  obtain ⟨t, ht, hd⟩ := h
  rw [MarkedAt, List.getElem?_modify, ht]
  by_cases hk : i = k
  · exact ⟨t.discard, by simp [hk], rfl⟩
  · exact ⟨t, by simp [hk], hd⟩

namespace Session

variable {session : Session} {accesses : List Access}

/-- All tokens so far, released, consumed and to come. -/
def all (session : Session) : List Token :=
  session.released ++ session.stream.taken ++ session.stream.ahead

/-- Marks aside, the tokens are those of the text, with end tokens as they were needed. -/
structure Follows (text : Text) (session : Session) : Prop where
  stop : session.stream.stop = text.size
  all : ∃ n, session.all.map unmarked =
    beginning :: scan 0 text ++ List.replicate n (ending text.size)

theorem all_unmarked (session : Session) :
    session.all.map unmarked = session.released.map unmarked ++ session.stream.whole := by
  rw [Session.all, List.append_assoc, List.map_append, Stream.whole]

theorem ofText_follows (text : Text) : Follows text (ofText text) := by
  refine ⟨rfl, 0, ?_⟩
  have hscan : (scan 0 text).map unmarked = scan 0 text := by
    have hkept : ∀ t ∈ scan 0 text, unmarked t = t := by
      intro t ht
      rw [unmarked, ← (scan_genuine ht).kept]
    rw [List.map_congr_left hkept, List.map_id']
  rw [all_unmarked, List.replicate_zero, List.append_nil]
  exact congrArg (beginning :: ·) hscan

theorem Follows.keeps (h : Follows text session) (hk : Stream.Keeps session.stream s) :
    Follows text { session with stream := s } := by
  obtain ⟨n, hn⟩ := h.all
  obtain ⟨m, hm⟩ := hk.whole
  refine ⟨hk.stop.trans h.stop, n + m, ?_⟩
  rw [all_unmarked] at hn ⊢
  rw [hm, ← List.append_assoc, hn, h.stop, List.append_assoc, List.replicate_append_replicate]

/-- A release only moves tokens. -/
theorem release_all (session : Session) : (session.perform .release).all = session.all := by
  simp [Session.perform, Session.all, Stream.release, Stream.taken, Stream.ahead]

theorem Follows.perform (h : Follows text session) (access : Access) :
    Follows text (session.perform access) := by
  cases access with
  | fetch => exact h.keeps (.fetch _)
  | peek => exact h.keeps (.peek _)
  | rewind position => exact h.keeps (.rewind _ position)
  | discard => exact h.keeps (.discard _)
  | mark i => exact h.keeps (.mark _ i)
  | release =>
    refine ⟨h.stop, ?_⟩
    rw [release_all]
    exact h.all

theorem performAll_induction {motive : Session → Prop} (h : motive session)
    (step : ∀ session access, motive session → motive (session.perform access)) :
    motive (session.performAll accesses) := by
  induction accesses generalizing session with
  | nil => exact h
  | cons access accesses ih => exact ih (step _ access h)

theorem Follows.performAll (h : Follows text session) (accesses : List Access) :
    Follows text (session.performAll accesses) :=
  performAll_induction h fun _ access h => h.perform access

theorem endless_of_length_le (h : (scan 0 text).length < k) :
    endless text k = ending text.size := by
  rw [endless, tokenize, List.getElem?_append_right (Nat.succ_le_of_lt h)]
  cases k - (beginning :: scan 0 text).length <;> rfl

theorem endless_of_getElem {t : Token}
    (h : (beginning :: scan 0 text ++ List.replicate n (ending text.size))[k]? = some t) :
    t = endless text k := by
  rcases Nat.lt_or_ge k (beginning :: scan 0 text).length with hlt | hge
  · rw [endless, tokenize]
    rw [List.getElem?_append_left hlt] at h ⊢
    rw [h, Option.getD_some]
  · rw [List.getElem?_append_right hge] at h
    rw [endless_of_length_le (Nat.lt_of_succ_le hge)]
    exact List.eq_of_mem_replicate (List.mem_of_getElem? h)

/-- The tokens are numbered from the beginning of the text. -/
theorem Follows.getElem {t : Token} (h : Follows text session) (ht : session.all[k]? = some t) :
    t.unmarked = endless text k := by
  obtain ⟨n, hn⟩ := h.all
  apply endless_of_getElem (n := n)
  rw [← hn, List.getElem?_map, ht]
  rfl

theorem getElem_taken (session : Session) (h : i < session.stream.position) :
    session.all[session.base + i]? = session.stream.taken[i]? := by
  have hlength : i < session.stream.taken.length := by rwa [Stream.taken_length]
  rw [Session.all, List.append_assoc, Session.base,
    List.getElem?_append_right (Nat.le_add_right _ _), Nat.add_sub_cancel_left,
    List.getElem?_append_left hlength]

theorem getElem_fetch (session : Session) :
    (session.perform .fetch).all[session.next]? = some session.stream.fetch.1 := by
  have htaken : (session.perform .fetch).stream.taken =
      session.stream.taken ++ [session.stream.fetch.1] := Stream.fetch_taken _
  have hlast : session.stream.position < (session.perform .fetch).stream.position := by
    rw [Session.perform, Stream.fetch_position]
    exact Nat.lt_succ_self _
  have hsame := getElem_taken _ hlast
  rw [htaken, ← Stream.taken_length, List.getElem?_concat_length] at hsame
  rw [← hsame, Stream.taken_length]
  rfl

theorem Follows.fetch (h : Follows text session) :
    session.stream.fetch.1.unmarked = endless text session.next :=
  (h.perform .fetch).getElem (getElem_fetch session)

theorem Follows.taken (h : Follows text session) :
    session.stream.taken.map unmarked =
      (List.range' session.base session.stream.position).map (endless text) := by
  apply List.ext_getElem
  · rw [List.length_map, List.length_map, List.length_range', Stream.taken_length]
  · intro i hi _
    rw [List.length_map] at hi
    have hposition : i < session.stream.position := Stream.taken_length _ ▸ hi
    have hget := (getElem_taken session hposition).trans (List.getElem?_eq_getElem hi)
    simpa using h.getElem hget

/-- Behind all that is ahead there are only end tokens. -/
theorem Follows.ends (h : Follows text session)
    (hk : session.next + session.stream.remaining ≤ k) : endless text k = ending text.size := by
  obtain ⟨n, hn⟩ := h.all
  have hlength := congrArg List.length hn
  simp only [Session.all, Stream.taken, List.length_map, List.length_append, List.length_cons,
    List.length_reverse, List.length_replicate] at hlength
  simp only [Session.next, Session.base, Stream.position, Stream.remaining_eq] at hk
  apply endless_of_length_le
  omega

theorem unmarked_text (tokens : List Token) :
    (tokens.map unmarked).flatMap Token.text = tokens.flatMap Token.text := by
  rw [List.flatMap_map]
  rfl

/-- All tokens together give the text, as far as they were looked at. -/
theorem Follows.whole_text (h : Follows text session) : session.all.flatMap Token.text = text := by
  obtain ⟨n, hn⟩ := h.all
  have hends : (List.replicate n (ending text.size)).flatMap Token.text = [] := by
    rw [List.flatMap_eq_nil_iff]
    intro t ht
    rw [List.eq_of_mem_replicate ht]
    rfl
  rw [← unmarked_text, hn, List.flatMap_append, hends, List.append_nil, List.flatMap_cons,
    scan_text]
  rfl

theorem perform_move {cursor : PlainCursor} (access : Access)
    (h : session.base = cursor.base ∧ session.stream.position = cursor.position) :
    (session.perform access).base = (cursor.move access).base ∧
      (session.perform access).stream.position = (cursor.move access).position := by
  obtain ⟨hbase, hposition⟩ := h
  cases access with
  | fetch =>
    refine ⟨hbase, ?_⟩
    rw [Session.perform, Stream.fetch_position, hposition]
    rfl
  | peek => exact ⟨hbase, (Stream.peek_position _).trans hposition⟩
  | rewind position =>
    refine ⟨hbase, ?_⟩
    rw [Session.perform, Stream.rewind_position_eq, hposition]
    rfl
  | release =>
    refine ⟨?_, rfl⟩
    rw [Session.perform, Session.base, List.length_append, Stream.taken_length,
      PlainCursor.move, ← hbase, ← hposition]
    rfl
  | discard =>
    refine ⟨hbase, ?_⟩
    rw [Session.perform, Stream.discard, Stream.position, List.length_map]
    exact hposition
  | mark i => exact ⟨hbase, (Stream.mark_position _ i).trans hposition⟩

theorem performAll_move {cursor : PlainCursor} (accesses : List Access)
    (h : session.base = cursor.base ∧ session.stream.position = cursor.position) :
    (session.performAll accesses).base = (cursor.moveAll accesses).base ∧
      (session.performAll accesses).stream.position = (cursor.moveAll accesses).position := by
  induction accesses generalizing session cursor with
  | nil => exact h
  | cons access accesses ih => exact ih (perform_move access h)

/-- A mark stays with its token, wherever the cursor goes. -/
theorem perform_marked (h : MarkedAt session.all k) (access : Access) :
    MarkedAt (session.perform access).all k := by
  have hfetch : MarkedAt (session.perform .fetch).all k := by
    obtain ⟨n, hn⟩ := Stream.fetch_taken_ahead session.stream
    have hall : (session.perform .fetch).all =
        session.all ++ List.replicate n (ending session.stream.stop) := by
      rw [Session.all, List.append_assoc, Session.perform, hn, Session.all]
      simp only [List.append_assoc]
    rw [hall]
    exact h.append _
  have hrewind (session : Session) (position : Nat) :
      (session.perform (.rewind position)).all = session.all := by
    rw [Session.all, List.append_assoc, Session.perform, Stream.rewind_taken_ahead,
      ← List.append_assoc]
    rfl
  cases access with
  | fetch => exact hfetch
  | peek =>
    have hpeek : session.perform .peek =
        (session.perform .fetch).perform (.rewind session.stream.position) := by
      simp only [Session.perform, Stream.peek_eq]
    rw [hpeek, hrewind]
    exact hfetch
  | rewind position => rwa [hrewind]
  | release => rwa [release_all]
  | discard =>
    have hall : (session.perform .discard).all = session.released ++
        session.stream.taken.map Token.discard ++ session.stream.ahead := by
      simp [Session.perform, Session.all, Stream.discard, Stream.taken, Stream.ahead]
    rw [hall]
    exact h.middle (List.length_map _) fun _ => markedAt_discard
  | mark i =>
    have hall : (session.perform (.mark i)).all = session.released ++
        session.stream.taken.modify i Token.discard ++ session.stream.ahead := by
      rw [Session.all, Session.perform, Stream.mark_taken]
      rfl
    rw [hall]
    exact h.middle (List.length_modify ..) fun _ hb => markedAt_modify hb i

theorem performAll_marked (h : MarkedAt session.all k) (accesses : List Access) :
    MarkedAt (session.performAll accesses).all k :=
  performAll_induction (motive := fun session => MarkedAt session.all k) h
    fun _ access h => perform_marked h access

theorem marked_of_taken (h : MarkedAt session.stream.taken i) :
    MarkedAt session.all (session.base + i) := by
  obtain ⟨t, ht, hd⟩ := h
  have hlt : i < session.stream.position := by
    have := (List.getElem?_eq_some_iff.mp ht).1
    rwa [Stream.taken_length] at this
  exact ⟨t, (getElem_taken session hlt).trans ht, hd⟩

theorem taken_marked (h : MarkedAt session.all k) (hbase : session.base ≤ k)
    (hk : k < session.next) : MarkedAt session.stream.taken (k - session.base) := by
  obtain ⟨t, ht, hd⟩ := h
  have hlt : k - session.base < session.stream.position := by
    rw [Session.next] at hk
    omega
  have hsame := getElem_taken session hlt
  rw [Nat.add_sub_cancel' hbase] at hsame
  exact ⟨t, hsame.symm.trans ht, hd⟩

theorem fetch_marked (h : MarkedAt session.all session.next) :
    session.stream.fetch.1.discarded = true := by
  obtain ⟨t, ht, hd⟩ := perform_marked h .fetch
  rw [getElem_fetch, Option.some.injEq] at ht
  rwa [ht]

/-- A stream does what a plain cursor on the endless tokens of its text does: the consumed tokens
are those from the last release up to the cursor, and the next one is the one at the cursor. When
nothing is left the tokens read so far are the whole text. A mark stays with its token until that is
released. -/
theorem performAll_refines (text : Text) (accesses : List Access) :
    let session := (ofText text).performAll accesses
    let cursor := PlainCursor.moveAll {} accesses
    session.base = cursor.base ∧ session.stream.position = cursor.position ∧
    session.stream.taken.map unmarked =
      (List.range' cursor.base cursor.position).map (endless text) ∧
    session.stream.fetch.1.unmarked = endless text (cursor.base + cursor.position) ∧
    session.stream.peek.1.unmarked = endless text (cursor.base + cursor.position) ∧
    (session.stream.atEnd = true →
      (session.released ++ session.stream.taken).flatMap Token.text = text) ∧
    ∀ i, MarkedAt session.stream.taken i → ∀ more,
      let later := session.performAll more
      later.base ≤ session.base + i →
        (session.base + i < later.next →
          MarkedAt later.stream.taken (session.base + i - later.base)) ∧
        (session.base + i = later.next →
          later.stream.fetch.1.discarded = true ∧ later.stream.peek.1.discarded = true) := by
  intro session cursor
  have hfollows : Follows text session := (ofText_follows text).performAll accesses
  obtain ⟨hbase, hposition⟩ : session.base = cursor.base ∧
      session.stream.position = cursor.position := performAll_move accesses ⟨rfl, rfl⟩
  have hfetch := hfollows.fetch
  have htaken := hfollows.taken
  rw [hbase, hposition] at htaken
  rw [Session.next, hbase, hposition] at hfetch
  refine ⟨hbase, hposition, htaken, hfetch, ?_, fun hend => ?_, fun i hi more => ?_⟩
  · rw [Stream.peek_eq]
    exact hfetch
  · have htext := hfollows.whole_text
    rwa [Session.all, Stream.atEnd_iff.mp hend, List.append_nil] at htext
  · intro later hlater
    have hmarked : MarkedAt later.all (session.base + i) :=
      performAll_marked (marked_of_taken hi) more
    refine ⟨taken_marked hmarked hlater, fun hnext => ?_⟩
    rw [hnext] at hmarked
    rw [Stream.peek_eq]
    exact ⟨fetch_marked hmarked, fetch_marked hmarked⟩

end Session

end LineMarkup.Token
