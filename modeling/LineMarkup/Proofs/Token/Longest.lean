import Mathlib
import LineMarkup.Proofs.Token.Partition

namespace LineMarkup.Token

open Text

namespace Number

def decimals : List Char :=
  ['0', '1', '2', '3', '4', '5', '6', '7', '8', '9']

def hexadecimals : List Char :=
  decimals ++ ['a', 'b', 'c', 'd', 'e', 'f'] ++ ['A', 'B', 'C', 'D', 'E', 'F']

/-- One piece and another one behind it. -/
def Then (first second : Text → Prop) (w : Text) : Prop :=
  ∃ u v, first u ∧ second v ∧ w = u ++ v

inductive Digits (allowed : List Char) : Text → Prop
  | one (digit : c ∈ allowed) : Digits allowed [c]
  | more (digit : c ∈ allowed) (digits : Digits allowed w) : Digits allowed (c :: w)

inductive Sign : Text → Prop
  | none : Sign []
  | plus : Sign ['+']
  | minus : Sign ['-']

inductive Fraction (allowed : List Char) : Text → Prop
  | none : Fraction allowed []
  | point (digits : Digits allowed w) : Fraction allowed ('.' :: w)

inductive Exponent : Text → Prop
  | none : Exponent []
  | lower (number : Then Sign (Digits decimals) w) : Exponent ('e' :: w)
  | upper (number : Then Sign (Digits decimals) w) : Exponent ('E' :: w)

inductive Base : Text → Prop
  | none : Base []
  | binary : Base ['b']
  | octal : Base ['o']

def Decimal : Text → Prop :=
  Then (Then (Digits decimals) (Fraction decimals)) Exponent

def Hexadecimal : Text → Prop :=
  Then (Digits hexadecimals) (Fraction hexadecimals)

inductive Unsigned : Text → Prop
  | decimal (number : Then Base Decimal w) : Unsigned w
  | hexadecimal (number : Hexadecimal w) : Unsigned ('x' :: w)

/-- The grammar of numbers. -/
def IsNumber : Text → Prop :=
  Then Sign Unsigned

variable {first second form form' : Text → Prop} {p q : Char → Prop} {text rest w : Text}
  {c : Char} {n m : Nat} {allowed : List Char} {isIn : Char → Bool}

/-- Membership in a list that holds a range of characters. -/
theorem mem_of_between {low high : Char}
    (hall : ∀ n < high.toNat + 1, low.toNat ≤ n → n ∈ allowed.map Char.toNat)
    (h : low ≤ c ∧ c ≤ high) : c ∈ allowed := by
  have hhigh : c.toNat ≤ high.toNat := h.2
  obtain ⟨d, hd, heq⟩ := List.mem_map.mp (hall c.toNat (by omega) h.1)
  exact Char.toNat_inj.mp heq ▸ hd

theorem isDigit_iff : isDigit c = true ↔ c ∈ decimals := by
  constructor
  · intro h
    simp only [isDigit, Bool.and_eq_true, decide_eq_true_eq] at h
    exact mem_of_between (by decide) h
  · exact fun h => List.all_eq_true.mp (by decide) c h

theorem isHexDigit_iff : isHexDigit c = true ↔ c ∈ hexadecimals := by
  constructor
  · intro h
    simp only [isHexDigit, Bool.or_eq_true, Bool.and_eq_true, decide_eq_true_eq,
      isDigit_iff] at h
    rcases h with (h | h) | h
    · simp [hexadecimals, h]
    · exact mem_of_between (by decide) h
    · exact mem_of_between (by decide) h
  · exact fun h => List.all_eq_true.mp (by decide) c h

theorem digits_iff : Digits allowed w ↔ w ≠ [] ∧ ∀ c ∈ w, c ∈ allowed := by
  constructor
  · intro h
    induction h with
    | one digit => simpa using digit
    | more digit _ ih => exact ⟨List.cons_ne_nil _ _, List.forall_mem_cons.mpr ⟨digit, ih.2⟩⟩
  · rintro ⟨hne, hall⟩
    induction w with
    | nil => exact absurd rfl hne
    | cons c w ih =>
      obtain ⟨hc, hall⟩ := List.forall_mem_cons.mp hall
      cases w with
      | nil => exact .one hc
      | cons d w => exact .more hc (ih (List.cons_ne_nil _ _) hall)

/-- No beginning of the text is of this form. -/
def Lacks (form : Text → Prop) (text : Text) : Prop :=
  ∀ w rest, form w → text ≠ w ++ rest

/-- The first `n` characters of the text are of this form. Any other beginning of this form is
shorter, and behind it the text goes on with a character of `p`. -/
structure Scans (form : Text → Prop) (p : Char → Prop) (text : Text) (n : Nat) : Prop where
  fits : form (text.take n)
  le : n ≤ text.length
  longest : ∀ w rest, form w → text = w ++ rest →
    w.length = n ∨ w.length < n ∧ ∃ c ∈ rest.head?, p c

/-- Where a second piece cannot begin with what makes a first piece longer, both are scanned one
after the other. -/
theorem Scans.append (h : Scans first p text n) (h' : Scans second q (text.drop n) m)
    (hapart : ∀ c w, second (c :: w) → ¬ p c) :
    Scans (Then first second) (fun c => p c ∨ q c) text (n + m) := by
  refine ⟨⟨_, _, h.fits, h'.fits, List.take_add⟩, ?_, ?_⟩
  · have hle := h.le
    have hle' := h'.le
    rw [List.length_drop] at hle'
    omega
  · rintro _ rest ⟨u, v, hu, hv, rfl⟩ htext
    rw [List.append_assoc] at htext
    rw [List.length_append]
    rcases h.longest u _ hu htext with hlength | ⟨hlt, c, hc, hp⟩
    · have hdrop : text.drop n = v ++ rest := by rw [htext, ← hlength, List.drop_left]
      rcases h'.longest v rest hv hdrop with hlength' | ⟨hlt', c, hc, hq⟩
      · left
        omega
      · exact .inr ⟨by omega, c, hc, .inr hq⟩
    · cases v with
      | nil => exact .inr ⟨by rw [List.length_nil]; omega, c, hc, .inl hp⟩
      | cons d v =>
        obtain rfl : d = c := by simpa using hc
        exact absurd hp (hapart _ _ hv)

theorem Lacks.append (h : Lacks first text) : Lacks (Then first second) text := by
  rintro _ rest ⟨u, v, hu, _, rfl⟩ htext
  rw [List.append_assoc] at htext
  exact h u _ hu htext

theorem run_append (hall : ∀ c ∈ w, isIn c = true) (rest : Text) :
    run isIn (w ++ rest) = w.length + run isIn rest := by
  rw [run, List.takeWhile_append_of_pos hall, List.length_append, run]

theorem run_lacks (hin : ∀ c, isIn c = true ↔ c ∈ allowed) (h : run isIn text = 0) :
    Lacks (Digits allowed) text := by
  rintro w rest hw rfl
  obtain ⟨hne, hall⟩ := digits_iff.mp hw
  rw [run_append (fun c hc => (hin c).mpr (hall c hc))] at h
  have := List.length_pos_iff.mpr hne
  omega

theorem run_scans (hin : ∀ c, isIn c = true ↔ c ∈ allowed) (h : run isIn text ≠ 0) :
    Scans (Digits allowed) (· ∈ allowed) text (run isIn text) := by
  refine ⟨digits_iff.mpr ⟨fun hnil => ?_, fun c hc => ?_⟩, run_le isIn text, ?_⟩
  · have hlength := congrArg List.length hnil
    rw [List.length_take_of_le (run_le isIn text)] at hlength
    exact h hlength
  · exact (hin c).mp (mem_take_run hc)
  · rintro w rest hw rfl
    obtain ⟨_, hall⟩ := digits_iff.mp hw
    rw [run_append (fun c hc => (hin c).mpr (hall c hc))]
    cases rest with
    | nil => exact .inl rfl
    | cons c rest =>
      by_cases hc : c ∈ allowed
      · right
        have hpos : run isIn (c :: rest) ≠ 0 := by simp [run, (hin c).mpr hc]
        exact ⟨by omega, c, rfl, hc⟩
      · left
        have hzero : run isIn (c :: rest) = 0 := by simp [run, hin, hc]
        omega

/-- A piece that may be missing is missing. -/
theorem Scans.none (hnil : form []) (h : ∀ c w rest, text = c :: (w ++ rest) → ¬ form (c :: w)) :
    Scans form p text 0 := by
  refine ⟨by rwa [List.take_zero], Nat.zero_le _, fun w rest hw htext => ?_⟩
  cases w with
  | nil => exact .inl rfl
  | cons c w => exact absurd hw (h c w rest htext)

/-- A piece that begins with some character goes on as another piece does. -/
theorem Scans.cons (h : Scans form p rest n) (hcons : ∀ w, form' (c :: w) ↔ form w) :
    Scans form' (fun d => d = c ∨ p d) (c :: rest) (n + 1) := by
  refine ⟨by rw [List.take_succ_cons]; exact (hcons _).mpr h.fits, Nat.succ_le_succ h.le,
    fun w after hw htext => ?_⟩
  cases w with
  | nil => exact .inr ⟨Nat.succ_pos n, c, by rw [← List.nil_append after, ← htext]; rfl, .inl rfl⟩
  | cons d w =>
    obtain ⟨rfl, hrest⟩ := List.cons.inj htext
    rcases h.longest w after ((hcons w).mp hw) hrest with hlength | ⟨hlt, d, hd, hp⟩
    · exact .inl (congrArg Nat.succ hlength)
    · exact .inr ⟨Nat.succ_lt_succ hlt, d, hd, .inr hp⟩

theorem Scans.lacks (h : Scans first p text n) (h' : Lacks second (text.drop n))
    (hnil : ¬ second []) (hapart : ∀ c w, second (c :: w) → ¬ p c) :
    Lacks (Then first second) text := by
  rintro _ rest ⟨u, v, hu, hv, rfl⟩ htext
  rw [List.append_assoc] at htext
  rcases h.longest u _ hu htext with hlength | ⟨hlt, c, hc, hp⟩
  · apply h' v rest hv
    rw [htext, ← hlength, List.drop_left]
  · cases v with
    | nil => exact hnil hv
    | cons d v =>
      obtain rfl : d = c := by simpa using hc
      exact hapart _ _ hv hp

theorem Scans.mono (h : Scans form p text n) (hpq : ∀ c, p c → q c) : Scans form q text n := by
  refine ⟨h.fits, h.le, fun w rest hw htext => ?_⟩
  rcases h.longest w rest hw htext with hlength | ⟨hlt, c, hc, hp⟩
  · exact .inl hlength
  · exact .inr ⟨hlt, c, hc, hpq c hp⟩

theorem isSign_iff : isSign c = true ↔ c = '+' ∨ c = '-' := by
  simp [isSign]

theorem sign_cons : Sign (c :: w) ↔ isSign c = true ∧ w = [] := by
  rw [isSign_iff]
  constructor
  · rintro (_ | _)
    · exact ⟨.inl rfl, rfl⟩
    · exact ⟨.inr rfl, rfl⟩
  · rintro ⟨rfl | rfl, rfl⟩
    · exact .plus
    · exact .minus

theorem sign_scans (text : Text) : Scans Sign (isSign · = true) text (sign text) := by
  fun_cases sign text with
  | case1 c rest hc =>
    have hnone : Scans (· = []) (fun _ => False) rest 0 := .none rfl (by simp)
    have hsome : ∀ w, Sign (c :: w) ↔ w = [] := fun w => sign_cons.trans (and_iff_right hc)
    refine (hnone.cons hsome).mono fun d hd => ?_
    rcases hd with rfl | hd
    · exact hc
    · exact hd.elim
  | case2 c rest hc =>
    refine .none .none fun d w after htext hd => ?_
    obtain ⟨rfl, _⟩ := List.cons.inj htext
    exact hc (sign_cons.mp hd).1
  | case3 => exact .none .none (by simp)

theorem fraction_cons : Fraction allowed (c :: w) ↔ c = '.' ∧ Digits allowed w := by
  constructor
  · rintro (_ | digits)
    exact ⟨rfl, digits⟩
  · rintro ⟨rfl, digits⟩
    exact .point digits

theorem fraction_scans (hin : ∀ c, isIn c = true ↔ c ∈ allowed) (text : Text) :
    Scans (Fraction allowed) (fun c => c = '.' ∨ c ∈ allowed) text (fraction isIn text) := by
  fun_cases fraction isIn text with
  | case1 rest hzero =>
    refine .none .none fun c w after htext hw => ?_
    obtain ⟨_, hrest⟩ := List.cons.inj htext
    exact run_lacks hin hzero w after (fraction_cons.mp hw).2 hrest
  | case2 rest hdigits =>
    have hpoint : ∀ w, Fraction allowed ('.' :: w) ↔ Digits allowed w :=
      fun w => fraction_cons.trans (and_iff_right rfl)
    exact (run_scans hin hdigits).cons hpoint
  | case3 _ hpoint =>
    refine .none .none fun c w after htext hw => ?_
    obtain ⟨rfl, _⟩ := fraction_cons.mp hw
    exact hpoint _ htext

theorem digits_head (h : Digits allowed (c :: w)) : c ∈ allowed :=
  (digits_iff.mp h).2 c List.mem_cons_self

theorem not_digits_nil : ¬ Digits allowed [] :=
  fun h => (digits_iff.mp h).1 rfl

theorem not_sign_of_digit (h : c ∈ decimals) : ¬ isSign c = true := by
  have hall : ∀ c ∈ decimals, ¬ isSign c = true := by simp [decimals, isSign]
  exact hall c h

theorem exponent_cons :
    Exponent (c :: w) ↔ (c = 'e' ∨ c = 'E') ∧ Then Sign (Digits decimals) w := by
  constructor
  · rintro (_ | number | number)
    · exact ⟨.inl rfl, number⟩
    · exact ⟨.inr rfl, number⟩
  · rintro ⟨rfl | rfl, number⟩
    · exact .lower number
    · exact .upper number

theorem exponent_scans (text : Text) : Scans Exponent (fun _ => True) text (exponent text) := by
  have hapart : ∀ c w, Digits decimals (c :: w) → ¬ isSign c = true :=
    fun c w h => not_sign_of_digit (digits_head h)
  fun_cases exponent text with
  | case1 c rest _ signs digits hzero =>
    refine .none .none fun d w after htext hw => ?_
    obtain ⟨_, hrest⟩ := List.cons.inj htext
    have hlacks : Lacks (Then Sign (Digits decimals)) rest :=
      (sign_scans rest).lacks (run_lacks (fun _ => isDigit_iff) hzero) not_digits_nil hapart
    exact hlacks w after (exponent_cons.mp hw).2 hrest
  | case2 c rest hletter signs digits hdigits =>
    have hletter : c = 'e' ∨ c = 'E' := by simpa using hletter
    have hcons : ∀ w, Exponent (c :: w) ↔ Then Sign (Digits decimals) w :=
      fun w => exponent_cons.trans (and_iff_right hletter)
    have hnumber := (sign_scans rest).append (run_scans (fun _ => isDigit_iff) hdigits) hapart
    exact (hnumber.cons hcons).mono fun _ _ => trivial
  | case3 c rest hletter =>
    refine .none .none fun d w after htext hw => ?_
    obtain ⟨rfl, _⟩ := List.cons.inj htext
    exact hletter (by simpa using (exponent_cons.mp hw).1)
  | case4 => exact .none .none (by simp)

/-- Digits with a fraction behind them. -/
theorem mantissa_scans (hin : ∀ c, isIn c = true ↔ c ∈ allowed) (hpoint : '.' ∉ allowed)
    (h : run isIn text ≠ 0) :
    Scans (Then (Digits allowed) (Fraction allowed)) (fun c => c = '.' ∨ c ∈ allowed) text
      (run isIn text + fraction isIn (text.drop (run isIn text))) := by
  have hapart : ∀ c w, Fraction allowed (c :: w) → ¬ c ∈ allowed := by
    intro c w hw
    obtain ⟨rfl, _⟩ := fraction_cons.mp hw
    exact hpoint
  refine ((run_scans hin h).append (fraction_scans hin _) hapart).mono fun c hc => ?_
  rcases hc with hc | hc
  · exact .inr hc
  · exact hc

/-- No digit is left behind the fraction. -/
theorem after_mantissa (h : text.drop (run isIn text + fraction isIn (text.drop (run isIn text))) =
    c :: rest) : isIn c = false := by
  rw [← List.drop_drop] at h
  generalize hmore : text.drop (run isIn text) = more at h
  revert h
  fun_cases fraction isIn more with
  | case1 after =>
    intro h
    rw [List.drop_zero] at h
    exact after_run (hmore.trans h)
  | case2 after =>
    intro h
    rw [List.drop_succ_cons] at h
    exact after_run h
  | case3 =>
    intro h
    rw [List.drop_zero] at h
    exact after_run (hmore.trans h)

theorem decimal_scans (h : run isDigit text ≠ 0) :
    Scans Decimal (fun _ => True) text (magnitude isDigit text) := by
  have hmantissa := mantissa_scans (fun _ => isDigit_iff) (by decide) h
  rw [magnitude, if_neg h]
  refine (hmantissa.append (exponent_scans _) fun c w hw hc => ?_).mono fun _ _ => trivial
  have hnot : ∀ c ∈ ['e', 'E'], ¬ (c = '.' ∨ c ∈ decimals) := by simp [decimals]
  exact hnot c (by simpa using (exponent_cons.mp hw).1) hc

/-- The letter of an exponent is a digit here. -/
theorem hexadecimal_scans (h : run isHexDigit text ≠ 0) :
    Scans Hexadecimal (fun _ => True) text (magnitude isHexDigit text) := by
  have hmantissa := mantissa_scans (fun _ => isHexDigit_iff) (by decide) h
  rw [magnitude, if_neg h]
  have hnone : exponent (text.drop (run isHexDigit text +
      fraction isHexDigit (text.drop (run isHexDigit text)))) = 0 := by
    generalize hmore : text.drop (run isHexDigit text +
      fraction isHexDigit (text.drop (run isHexDigit text))) = more
    cases more with
    | nil => rfl
    | cons c rest =>
      have hc := after_mantissa hmore
      have hletter : ¬ (c = 'e' || c = 'E') = true := by
        rw [Bool.or_eq_true, decide_eq_true_eq, decide_eq_true_eq]
        rintro (rfl | rfl) <;> cases hc
      rw [exponent, if_neg hletter]
  simp only [hnone, Nat.add_zero]
  exact hmantissa.mono fun _ _ => trivial

/-- The longest beginning of a text that is of some form. -/
structure Longest (form : Text → Prop) (text w : Text) : Prop where
  fits : form w
  begins : w <+: text
  longest : ∀ v, form v → v <+: text → v.length ≤ w.length

/-- The first `n` characters are the longest beginning of this form, if there is one at all. -/
structure Finds (form : Text → Prop) (text : Text) (n : Nat) : Prop where
  none : n = 0 → Lacks form text
  some : n ≠ 0 → Longest form text (text.take n)

theorem Scans.finds (h : Scans form p text n) (hn : n ≠ 0) : Finds form text n := by
  refine ⟨fun hzero => absurd hzero hn, fun _ => ⟨h.fits, List.take_prefix n text, ?_⟩⟩
  rintro w hw ⟨rest, rfl⟩
  rw [List.length_take_of_le h.le]
  rcases h.longest w rest hw rfl with hlength | ⟨hlt, _⟩
  · exact Nat.le_of_eq hlength
  · exact Nat.le_of_lt hlt

theorem Finds.cons (h : Finds form rest n) (hcons : ∀ w, form' (c :: w) ↔ form w)
    (hnil : ¬ form' []) : Finds form' (c :: rest) (if n = 0 then 0 else n + 1) := by
  by_cases hn : n = 0
  · rw [if_pos hn]
    refine ⟨fun _ w after hw htext => ?_, fun hne => absurd rfl hne⟩
    cases w with
    | nil => exact hnil hw
    | cons d w =>
      obtain ⟨rfl, hrest⟩ := List.cons.inj htext
      exact h.none hn w after ((hcons w).mp hw) hrest
  · rw [if_neg hn]
    obtain ⟨hfits, _, hlongest⟩ := h.some hn
    refine ⟨fun hzero => absurd hzero (Nat.succ_ne_zero n),
      fun _ => ⟨?_, List.take_prefix _ _, fun w hw hp => ?_⟩⟩
    · rw [List.take_succ_cons]
      exact (hcons _).mpr hfits
    · cases w with
      | nil => exact absurd hw hnil
      | cons d w =>
        obtain ⟨rfl, hbegins⟩ := List.cons_prefix_cons.mp hp
        rw [List.take_succ_cons]
        exact Nat.succ_le_succ (hlongest w ((hcons w).mp hw) hbegins)

theorem Finds.congr (h : Finds form (c :: rest) n)
    (hcons : ∀ w, form' (c :: w) ↔ form (c :: w)) (hnil : ¬ form' []) :
    Finds form' (c :: rest) n := by
  -- The beginnings of the text that are of either form begin with `c`, or are empty.
  have hform : ∀ w, form' w → w <+: c :: rest → form w := by
    intro w hw hp
    cases w with
    | nil => exact absurd hw hnil
    | cons d w =>
      obtain ⟨rfl, _⟩ := List.cons_prefix_cons.mp hp
      exact (hcons w).mp hw
  refine ⟨fun hzero w after hw htext => ?_, fun hn => ?_⟩
  · exact h.none hzero w after (hform w hw ⟨after, htext.symm⟩) htext
  · obtain ⟨hfits, hbegins, hlongest⟩ := h.some hn
    refine ⟨?_, hbegins, fun w hw hp => hlongest w (hform w hw hp) hp⟩
    obtain ⟨k, rfl⟩ := Nat.exists_eq_succ_of_ne_zero hn
    rw [List.take_succ_cons] at hfits ⊢
    exact (hcons _).mpr hfits

theorem mantissa_head (h : Then (Digits allowed) second w) : ∃ c ∈ allowed, w.head? = some c := by
  obtain ⟨u, v, hu, _, rfl⟩ := h
  cases u with
  | nil => exact absurd hu not_digits_nil
  | cons c u => exact ⟨c, digits_head hu, rfl⟩

theorem decimal_head (h : Decimal w) : ∃ c ∈ decimals, w.head? = some c := by
  obtain ⟨m, e, hm, _, rfl⟩ := h
  obtain ⟨c, hc, hhead⟩ := mantissa_head hm
  exact ⟨c, hc, by rw [List.head?_append, hhead]; rfl⟩

theorem decimal_cons (h : Decimal (c :: w)) : c ∈ decimals := by
  obtain ⟨d, hd, hhead⟩ := decimal_head h
  obtain rfl : c = d := by simpa using hhead
  exact hd

theorem not_decimal_nil : ¬ Decimal [] := by
  intro h
  obtain ⟨c, _, hc⟩ := decimal_head h
  cases hc

theorem magnitude_eq_zero : magnitude isIn text = 0 ↔ run isIn text = 0 := by
  constructor
  · intro h
    by_contra hne
    rw [magnitude, if_neg hne] at h
    exact hne (Nat.eq_zero_of_add_eq_zero_right (Nat.eq_zero_of_add_eq_zero_right h))
  · exact fun h => by rw [magnitude, if_pos h]

theorem decimal_finds (text : Text) : Finds Decimal text (magnitude isDigit text) := by
  by_cases h : run isDigit text = 0
  · have hlacks : Lacks Decimal text := (run_lacks (fun _ => isDigit_iff) h).append.append
    exact ⟨fun _ => hlacks, fun hne => absurd (magnitude_eq_zero.mpr h) hne⟩
  · exact (decimal_scans h).finds fun hzero => h (magnitude_eq_zero.mp hzero)

theorem hexadecimal_finds (text : Text) :
    Finds Hexadecimal text (magnitude isHexDigit text) := by
  by_cases h : run isHexDigit text = 0
  · have hlacks : Lacks Hexadecimal text := (run_lacks (fun _ => isHexDigit_iff) h).append
    exact ⟨fun _ => hlacks, fun hne => absurd (magnitude_eq_zero.mpr h) hne⟩
  · exact (hexadecimal_scans h).finds fun hzero => h (magnitude_eq_zero.mp hzero)

/-- An unsigned number, by its first character. -/
theorem unsigned_cons : Unsigned (c :: w) ↔
    c = 'x' ∧ Hexadecimal w ∨ (c = 'b' ∨ c = 'o') ∧ Decimal w ∨ Decimal (c :: w) := by
  constructor
  · rintro (⟨b, m, base, number, heq⟩ | number)
    · cases base with
      | none =>
        rw [List.nil_append] at heq
        exact .inr (.inr (heq ▸ number))
      | binary =>
        obtain ⟨rfl, rfl⟩ := List.cons.inj heq
        exact .inr (.inl ⟨.inl rfl, number⟩)
      | octal =>
        obtain ⟨rfl, rfl⟩ := List.cons.inj heq
        exact .inr (.inl ⟨.inr rfl, number⟩)
    · exact .inl ⟨rfl, number⟩
  · rintro (⟨rfl, number⟩ | ⟨rfl | rfl, number⟩ | number)
    · exact .hexadecimal number
    · exact .decimal ⟨_, _, .binary, number, rfl⟩
    · exact .decimal ⟨_, _, .octal, number, rfl⟩
    · exact .decimal ⟨_, _, .none, number, rfl⟩

theorem not_unsigned_nil : ¬ Unsigned [] := by
  rintro ⟨b, m, base, number, heq⟩
  obtain ⟨rfl, rfl⟩ := List.append_eq_nil_iff.mp heq.symm
  exact not_decimal_nil number

theorem not_decimal_of_base (h : isBaseLetter c = true) (w : Text) : ¬ Decimal (c :: w) := by
  intro hw
  have hall : ∀ c ∈ decimals, ¬ isBaseLetter c = true := by simp [decimals, isBaseLetter]
  exact hall c (decimal_cons hw) h

theorem unsigned_finds (text : Text) : Finds Unsigned text (unsigned text) := by
  cases text with
  | nil =>
    refine ⟨fun _ w rest hw htext => ?_, fun hne => absurd rfl hne⟩
    obtain ⟨rfl, _⟩ := List.append_eq_nil_iff.mp htext.symm
    exact not_unsigned_nil hw
  | cons c rest =>
    by_cases hbase : isBaseLetter c = true
    · have hnot := not_decimal_of_base hbase
      simp only [isBaseLetter, Bool.or_eq_true, decide_eq_true_eq] at hbase
      by_cases hx : c = 'x'
      · subst hx
        refine (hexadecimal_finds rest).cons (fun w => ?_) not_unsigned_nil
        simp [unsigned_cons, hnot w]
      · have hletter : c = 'b' ∨ c = 'o' := by simpa [hx] using hbase
        rw [unsigned, if_pos (by simpa [isBaseLetter] using hbase), if_neg hx]
        refine (decimal_finds rest).cons (fun w => ?_) not_unsigned_nil
        simp [unsigned_cons, hnot w, hx, hletter]
    · rw [unsigned, if_neg hbase]
      simp only [isBaseLetter, Bool.or_eq_true, decide_eq_true_eq, not_or] at hbase
      refine (decimal_finds (c :: rest)).congr (fun w => ?_) not_unsigned_nil
      simp [unsigned_cons, hbase]

theorem unsigned_not_sign (h : Unsigned (c :: w)) : isSign c = false := by
  rcases unsigned_cons.mp h with ⟨rfl, _⟩ | ⟨rfl | rfl, _⟩ | h
  · rfl
  · rfl
  · rfl
  · exact Bool.eq_false_iff.mpr (not_sign_of_digit (decimal_cons h))

/-- A number, by its first character. -/
theorem isNumber_cons :
    IsNumber (c :: w) ↔ isSign c = true ∧ Unsigned w ∨ isSign c = false ∧ Unsigned (c :: w) := by
  constructor
  · rintro ⟨s, u, sign, number, heq⟩
    cases s with
    | nil =>
      rw [List.nil_append] at heq
      subst heq
      exact .inr ⟨unsigned_not_sign number, number⟩
    | cons d s =>
      obtain ⟨hd, rfl⟩ := sign_cons.mp sign
      obtain ⟨rfl, rfl⟩ := List.cons.inj heq
      exact .inl ⟨hd, number⟩
  · rintro (⟨hc, number⟩ | ⟨_, number⟩)
    · exact ⟨[c], w, sign_cons.mpr ⟨hc, rfl⟩, number, rfl⟩
    · exact ⟨[], _, .none, number, rfl⟩

theorem not_isNumber_nil : ¬ IsNumber [] := by
  rintro ⟨s, u, _, number, heq⟩
  obtain ⟨_, rfl⟩ := List.append_eq_nil_iff.mp heq.symm
  exact not_unsigned_nil number

/-- The scanner finds the longest number at the beginning of a text. -/
theorem length_finds (text : Text) : Finds IsNumber text (length text) := by
  cases text with
  | nil =>
    refine ⟨fun _ w rest hw htext => ?_, fun hne => absurd rfl hne⟩
    obtain ⟨rfl, _⟩ := List.append_eq_nil_iff.mp htext.symm
    exact not_isNumber_nil hw
  | cons c rest =>
    by_cases hc : isSign c = true
    · have hsign : sign (c :: rest) = 1 := if_pos hc
      rw [length, hsign, List.drop_succ_cons, List.drop_zero]
      simp only [Nat.add_comm 1]
      refine (unsigned_finds rest).cons (fun w => ?_) not_isNumber_nil
      simp [isNumber_cons, hc]
    · have hsign : sign (c :: rest) = 0 := if_neg hc
      have hlength : length (c :: rest) = unsigned (c :: rest) := by
        simp only [length, hsign, List.drop_zero, Nat.zero_add]
        split
        · rename_i hzero
          exact hzero.symm
        · rfl
      rw [hlength]
      refine (unsigned_finds (c :: rest)).congr (fun w => ?_) not_isNumber_nil
      simp [isNumber_cons, hc]

end Number

open Number

/-- A number begins with one of these, but not all of these begin a number. -/
def numberStarts : List Char :=
  decimals ++ ['b', 'o', 'x'] ++ ['+', '-']

variable {c : Char} {rest text : Text} {token : Token}

theorem numberStarts_iff :
    c ∈ numberStarts ↔ (isDigit c || isBaseLetter c || isSign c) = true := by
  simp [numberStarts, isDigit_iff, isBaseLetter, isSign, or_assoc]

/-- The lexeme at the beginning of a number, or of what only looks like one. -/
theorem lexeme_number (hc : c ∈ numberStarts) :
    (Number.length (c :: rest) = 0 ∧
      lexeme c rest = (if isSign c then .symbol else .word, 0)) ∨
    ∃ n, Number.length (c :: rest) = n + 1 ∧ lexeme c rest = (.codeNumber, n) := by
  have hstart := numberStarts_iff.mp hc
  cases hn : Number.length (c :: rest) with
  | zero => exact .inl ⟨rfl, by simp only [lexeme, hstart, hn, ↓reduceIte]⟩
  | succ n => exact .inr ⟨n, rfl, by simp only [lexeme, hstart, hn, ↓reduceIte]⟩

theorem lexeme_isNumber (h : (lexeme c rest).1 = .codeNumber) :
    IsNumber (c :: rest.take (lexeme c rest).2) := by
  revert h
  fun_cases lexeme c rest with
  | case1 _ _ n hn =>
    intro _
    have hlongest := (length_finds (c :: rest)).some (by rw [hn]; exact Nat.succ_ne_zero n)
    rw [hn] at hlongest
    exact hlongest.fits
  | case2 => split <;> simp
  | _ => simp

theorem lexeme_longest (hc : c ∈ numberStarts) (h : ∃ w, IsNumber w ∧ w <+: c :: rest) :
    (lexeme c rest).1 = .codeNumber ∧
      Longest IsNumber (c :: rest) (c :: rest.take (lexeme c rest).2) := by
  have hfinds := length_finds (c :: rest)
  rcases lexeme_number hc with ⟨hzero, _⟩ | ⟨n, hn, hlexeme⟩
  · obtain ⟨w, hw, after, htext⟩ := h
    exact absurd htext.symm (hfinds.none hzero w after hw)
  · have hlongest := hfinds.some (by rw [hn]; exact Nat.succ_ne_zero n)
    rw [hn, List.take_succ_cons] at hlongest
    rw [hlexeme]
    exact ⟨rfl, hlongest⟩

theorem lexeme_no_number (hc : c ∈ numberStarts) (h : ¬ ∃ w, IsNumber w ∧ w <+: c :: rest) :
    (lexeme c rest).1 = (if c = '+' ∨ c = '-' then .symbol else .word) ∧
      c :: rest.take (lexeme c rest).2 = [c] := by
  rcases lexeme_number hc with ⟨_, hlexeme⟩ | ⟨n, hn, _⟩
  · rw [hlexeme]
    refine ⟨?_, rfl⟩
    simp only [isSign_iff]
  · have hlongest := (length_finds (c :: rest)).some (by rw [hn]; exact Nat.succ_ne_zero n)
    exact absurd ⟨_, hlongest.fits, hlongest.begins⟩ h

/-- Where a token begins with a digit, a base letter or a sign, it is the longest number that the
text goes on with from there, or that one character if there is none. All tokens that are numbers
are in the grammar. -/
theorem tokenize_numbers (text : Text) (token : Token) (ht : token ∈ tokenize text) :
    (token.text ≠ [] → ∃ before c rest, text = before ++ c :: rest ∧
      Text.size before = token.start ∧ (c ∈ numberStarts →
        ((∃ w, IsNumber w ∧ w <+: c :: rest) →
          token.kind = .codeNumber ∧ Longest IsNumber (c :: rest) token.text) ∧
        ((¬ ∃ w, IsNumber w ∧ w <+: c :: rest) →
          token.kind = (if c = '+' ∨ c = '-' then .symbol else .word) ∧ token.text = [c]))) ∧
    (token.kind = .codeNumber → IsNumber token.text) := by
  rw [tokenize, List.mem_append, List.mem_cons, List.mem_singleton] at ht
  rcases ht with (rfl | ht) | rfl
  · exact ⟨fun hne => absurd rfl hne, by simp [beginning]⟩
  · obtain ⟨before, c, rest, htext, rfl⟩ := scan_lexeme [] ht
    refine ⟨fun _ => ⟨before, c, rest, htext, rfl, fun hc => ⟨?_, ?_⟩⟩, lexeme_isNumber⟩
    · exact lexeme_longest hc
    · exact lexeme_no_number hc
  · exact ⟨fun hne => absurd rfl hne, by simp [ending]⟩

/-- In a hexadecimal number the letter of an exponent is a digit, so the sign behind it is left. -/
theorem number_before_sign :
    let token : Token := { kind := .codeNumber, start := 0, text := "-x5e".toList }
    token ∈ tokenize "-x5e+".toList ∧ token.text ≠ [] ∧ '-' ∈ numberStarts ∧
      Longest IsNumber "-x5e+".toList token.text ∧ IsNumber token.text := by
  intro token
  have htokens : tokenize "-x5e+".toList =
      [beginning, { kind := .codeNumber, start := 0, text := "-x5e".toList },
        { kind := .symbol, start := 4, text := "+".toList }, ending 5] := by
    cbv
  have hmem : token ∈ tokenize "-x5e+".toList := by
    rw [htokens]
    exact List.mem_cons_of_mem _ List.mem_cons_self
  obtain ⟨hplace, hnumber⟩ := tokenize_numbers "-x5e+".toList token hmem
  obtain ⟨before, c, rest, htext, hsize, hlongest⟩ := hplace (by decide)
  obtain rfl : before = [] := size_eq_zero hsize
  obtain ⟨rfl, rfl⟩ : c = '-' ∧ rest = "x5e+".toList := by simpa using htext.symm
  have hstart : '-' ∈ numberStarts := by decide
  have hbegins : ∃ w, IsNumber w ∧ w <+: "-x5e+".toList := ⟨token.text, hnumber rfl, by decide⟩
  exact ⟨hmem, by decide, hstart, ((hlongest hstart).1 hbegins).2, hnumber rfl⟩

end LineMarkup.Token
