/-
Decimal numbers. What a reader makes of digits is their value in base
ten, and it takes them as long as that value is no greater than the
bound: since a value only grows with further digits, no shorter piece of
them can be out of range first (`readDigits_eq_ok_iff`). So a number
written in decimal is read back (`read_repr`), and among other
characters it ends where its digits do (`repr_append_inj`). The texts
that are read are digits behind a sign or none, with a value in the
range asked for (`read_eq_ok_iff`).

Digits that are not read either break off at a character that is no
digit or outgrow the bound, whichever comes first
(`readDigits_eq_error_iff`). Where there are no negative numbers, this
and the lack of any digit are all that can be wrong with a text
(`read_eq_error_iff`).
-/
import Tlv.Proofs.Outcome
import Tlv.Text.Cut
import Tlv.Text.Decimal

namespace Tlv.Decimal

-- ============================================================== digits

/-- The digits are those that the language knows, with their usual
values. -/
theorem digit?_eq_some_iff {c : Char} {d : Nat} :
    digit? c = some d ↔ c.isDigit = true ∧ d = c.toNat - '0'.toNat := by
  have hdigit : ('0' ≤ c ∧ c ≤ '9') ↔ c.isDigit = true := by
    unfold Char.isDigit
    rw [Bool.and_eq_true, decide_eq_true_eq, decide_eq_true_eq]
    rfl
  unfold digit?
  by_cases h : '0' ≤ c ∧ c ≤ '9'
  · rw [if_pos h, Option.some.injEq]
    constructor
    · rintro rfl
      exact ⟨hdigit.1 h, rfl⟩
    · intro hd
      exact hd.2.symm
  · rw [if_neg h]
    constructor
    · intro hd
      cases hd
    · intro hd
      exact absurd (hdigit.2 hd.1) h

/-- Further digits do not make a number smaller. -/
theorem le_ofDigitChars (n : Nat) (cs : List Char) :
    n ≤ Nat.ofDigitChars 10 cs n := by
  induction cs generalizing n with
  | nil => exact Nat.le_refl n
  | cons c cs ih =>
      rw [Nat.ofDigitChars_cons]
      have := ih (10 * n + (c.toNat - '0'.toNat))
      omega

/-- Digits behind the value `n` are read if all of them are digits and
the value of the whole is within the bound. -/
theorem readDigits_eq_ok_iff {bound n m : Nat} {beyond : Fault}
    {cs : List Char} (hn : n ≤ bound) :
    readDigits bound beyond n cs = .ok m
      ↔ (∀ c ∈ cs, c.isDigit = true)
        ∧ m = Nat.ofDigitChars 10 cs n ∧ m ≤ bound := by
  induction cs generalizing n with
  | nil =>
      rw [readDigits, Nat.ofDigitChars_nil, Except.ok.injEq]
      constructor
      · rintro rfl
        exact ⟨by simp, rfl, hn⟩
      · intro hm
        exact hm.2.1.symm
  | cons c cs ih =>
      rw [readDigits, Nat.ofDigitChars_cons, List.forall_mem_cons]
      cases hc : digit? c with
      | none =>
          constructor
          · intro h
            cases h
          · intro ⟨⟨hdigit, _⟩, _⟩
            rw [digit?_eq_some_iff.2 ⟨hdigit, rfl⟩] at hc
            cases hc
      | some d =>
          obtain ⟨hdigit, rfl⟩ := digit?_eq_some_iff.1 hc
          dsimp only
          by_cases hle : 10 * n + (c.toNat - '0'.toNat) ≤ bound
          · rw [if_pos hle, ih hle]
            simp only [hdigit, true_and]
          · -- the whole is no smaller than what is beyond the bound
            rw [if_neg hle]
            have hgrow := le_ofDigitChars
              (10 * n + (c.toNat - '0'.toNat)) cs
            constructor
            · intro h
              cases h
            · intro ⟨_, hm, hbound⟩
              omega

/-- A magnitude is read from digits, one at least, with a value within the
bound. -/
theorem readMagnitude_eq_ok_iff {bound m : Nat} {beyond : Fault}
    {cs : List Char} :
    readMagnitude bound beyond cs = .ok m
      ↔ cs ≠ [] ∧ (∀ c ∈ cs, c.isDigit = true)
        ∧ m = Nat.ofDigitChars 10 cs 0 ∧ m ≤ bound := by
  unfold readMagnitude
  cases cs with
  | nil => simp
  | cons c cs =>
      rw [List.isEmpty_cons, if_neg Bool.false_ne_true,
        readDigits_eq_ok_iff (Nat.zero_le bound)]
      simp

-- ============================================================= numbers

/-- A text that does not begin with a sign is read as digits. -/
theorem read_of_isDigit {range : Range} {text : String}
    (hne : text.toList ≠ [])
    (h : ∀ c ∈ text.toList, c.isDigit = true) :
    read range text = readPositive range text.toList := by
  unfold read
  split
  · next hnil => exact absurd hnil hne
  · next cs hplus =>
    have := h '+' (by rw [hplus]; exact List.mem_cons_self ..)
    cases this
  · next cs hminus =>
    have := h '-' (by rw [hminus]; exact List.mem_cons_self ..)
    cases this
  · rfl

theorem isDigit_of_mem_repr {n : Nat} {c : Char}
    (h : c ∈ n.repr.toList) : c.isDigit = true := by
  rw [Nat.toList_repr] at h
  exact Nat.isDigit_of_mem_toDigits (by decide) (by decide) h

theorem not_mem_toList_repr {c : Char} (h : c.isDigit = false) (n : Nat) :
    c ∉ n.repr.toList := by
  intro hc
  rw [isDigit_of_mem_repr hc] at h
  cases h

theorem repr_ne_nil (n : Nat) : n.repr.toList ≠ [] := by
  rw [Nat.toList_repr]
  exact Nat.toDigits_ne_nil

/-- The digits that a number is written in have its value. -/
theorem ofDigitChars_repr (n : Nat) :
    Nat.ofDigitChars 10 n.repr.toList 0 = n := by
  rw [Nat.toList_repr]
  exact Nat.ofDigitChars_toDigits (by decide) (by decide)

/-- Two numbers are not written alike. -/
theorem repr_inj {n n' : Nat} (h : n.repr.toList = n'.repr.toList) :
    n = n' := by
  rw [← ofDigitChars_repr n, h, ofDigitChars_repr]

/-- Where a number ends is settled by the text. -/
theorem repr_append_inj {n n' : Nat} {c c' : Char} {rest rest' : List Char}
    (hc : c.isDigit = false) (hc' : c'.isDigit = false)
    (h : n.repr.toList ++ c :: rest = n'.repr.toList ++ c' :: rest') :
    n = n' ∧ c :: rest = c' :: rest' := by
  have hparts := append_cons_inj_of_forall
    (fun _ => isDigit_of_mem_repr) (fun _ => isDigit_of_mem_repr) hc hc' h
  exact ⟨repr_inj hparts.1, hparts.2⟩

/-- A number of the range is read back from its decimal form. -/
theorem read_repr {range : Range} {n : Nat}
    (h : (n : Int) ≤ range.greatest) : read range n.repr = .ok n := by
  rw [read_of_isDigit (repr_ne_nil n) fun c hc => isDigit_of_mem_repr hc,
    readPositive, readMagnitude_eq_ok_iff.2
      ⟨repr_ne_nil n, fun c hc => isDigit_of_mem_repr hc,
        (ofDigitChars_repr n).symm, by omega⟩]
  rfl

-- =============================================================== texts

/-- The text is digits, at least one of them, behind a sign or none, and
this is its value and of the range. A minus sign is one only where there
are negative numbers. -/
def Spells (range : Range) (text : String) (n : Int) : Prop :=
  range.least ≤ n ∧ n ≤ range.greatest
    ∧ ∃ cs, cs ≠ [] ∧ (∀ c ∈ cs, c.isDigit = true)
      ∧ (((text.toList = cs ∨ text.toList = '+' :: cs)
          ∧ n = Nat.ofDigitChars 10 cs 0)
        ∨ (text.toList = '-' :: cs ∧ range.least < 0
          ∧ n = -(Nat.ofDigitChars 10 cs 0 : Int)))

section Texts

variable {range : Range} {text : String} {n : Int}

/-- What is made of digits is made of their value. -/
theorem map_readMagnitude_eq_ok_iff {bound : Nat} {beyond : Fault}
    {cs : List Char} {f : Nat → Int} :
    (readMagnitude bound beyond cs).map f = .ok n
      ↔ cs ≠ [] ∧ (∀ c ∈ cs, c.isDigit = true)
        ∧ n = f (Nat.ofDigitChars 10 cs 0)
        ∧ Nat.ofDigitChars 10 cs 0 ≤ bound := by
  rw [map_eq_ok_iff]
  simp only [readMagnitude_eq_ok_iff]
  constructor
  · intro h
    rcases h with ⟨m, ⟨hne, hdigits, rfl, hle⟩, rfl⟩
    exact ⟨hne, hdigits, rfl, hle⟩
  · intro ⟨hne, hdigits, hn, hle⟩
    exact ⟨_, ⟨hne, hdigits, rfl, hle⟩, hn.symm⟩

/-- Without a minus sign the value of the digits has to be in the
range. -/
theorem readPositive_eq_ok_iff (hgreatest : 0 ≤ range.greatest)
    {cs : List Char} :
    readPositive range cs = .ok n
      ↔ cs ≠ [] ∧ (∀ c ∈ cs, c.isDigit = true)
        ∧ n = Nat.ofDigitChars 10 cs 0 ∧ n ≤ range.greatest := by
  rw [readPositive, map_readMagnitude_eq_ok_iff, Int.ofNat_eq_natCast]
  refine and_congr_right fun _ => and_congr_right fun _ => ?_
  refine and_congr_right fun hn => ?_
  omega

/-- Behind a minus sign the opposite of the value has to be in the
range. -/
theorem readNegative_eq_ok_iff (hleast : range.least ≤ 0)
    {cs : List Char} :
    readNegative range cs = .ok n
      ↔ cs ≠ [] ∧ (∀ c ∈ cs, c.isDigit = true)
        ∧ n = -(Nat.ofDigitChars 10 cs 0 : Int) ∧ range.least ≤ n := by
  rw [readNegative, map_readMagnitude_eq_ok_iff, Int.ofNat_eq_natCast]
  refine and_congr_right fun _ => and_congr_right fun _ => ?_
  refine and_congr_right fun hn => ?_
  omega

/-- A number is read from the texts that spell it. -/
theorem read_eq_ok_iff (hleast : range.least ≤ 0)
    (hgreatest : 0 ≤ range.greatest) :
    read range text = .ok n ↔ Spells range text n := by
  -- neither sign is a digit, so a text is digits behind one of them at
  -- most
  have hsign : ∀ {c : Char} {cs ds : List Char}, c.isDigit = false →
      text.toList = c :: cs → text.toList = ds →
        ¬ ∀ d ∈ ds, d.isDigit = true := by
    intro c cs ds hc htext hds hdigits
    rw [htext] at hds
    rw [hdigits c (hds ▸ List.mem_cons_self ..)] at hc
    cases hc
  unfold read Spells
  split
  · next htext =>
    constructor
    · intro h
      cases h
    · intro ⟨_, _, cs, hne, _, h⟩
      rcases h with ⟨h | h, -⟩ | ⟨h, -⟩
      · exact absurd (h.symm.trans htext) hne
      · rw [htext] at h
        cases h
      · rw [htext] at h
        cases h
  · next cs htext =>
    rw [readPositive_eq_ok_iff hgreatest]
    constructor
    · intro ⟨hne, hdigits, hn, hle⟩
      exact ⟨by omega, hle, cs, hne, hdigits, Or.inl ⟨Or.inr htext, hn⟩⟩
    · intro ⟨_, hle, ds, hne, hdigits, h⟩
      rcases h with ⟨h | h, hn⟩ | ⟨h, -⟩
      · exact absurd hdigits (hsign (by decide) htext h)
      · rw [htext] at h
        cases h
        exact ⟨hne, hdigits, hn, hle⟩
      · rw [htext] at h
        cases h
  · next cs htext =>
    by_cases hnegative : range.least < 0
    · rw [if_pos hnegative, readNegative_eq_ok_iff hleast]
      constructor
      · intro ⟨hne, hdigits, hn, hle⟩
        exact ⟨hle, by omega, cs, hne, hdigits,
          Or.inr ⟨htext, hnegative, hn⟩⟩
      · intro ⟨hle, _, ds, hne, hdigits, h⟩
        rcases h with ⟨h | h, -⟩ | ⟨h, -, hn⟩
        · exact absurd hdigits (hsign (by decide) htext h)
        · rw [htext] at h
          cases h
        · rw [htext] at h
          cases h
          exact ⟨hne, hdigits, hn, hle⟩
    · rw [if_neg hnegative]
      constructor
      · intro h
        cases h
      · intro ⟨_, _, ds, _, hdigits, h⟩
        rcases h with ⟨h | h, -⟩ | ⟨-, hlt, -⟩
        · exact absurd hdigits (hsign (by decide) htext h)
        · rw [htext] at h
          cases h
        · exact absurd hlt hnegative
  -- no sign in front, so the text is the digits themselves
  · next hnil hplus hminus =>
    rw [readPositive_eq_ok_iff hgreatest]
    constructor
    · intro ⟨hne, hdigits, hn, hle⟩
      exact ⟨by omega, hle, _, hne, hdigits, Or.inl ⟨Or.inl rfl, hn⟩⟩
    · intro ⟨_, hle, ds, hne, hdigits, h⟩
      rcases h with ⟨h | h, hn⟩ | ⟨h, -⟩
      · rw [h]
        exact ⟨hne, hdigits, hn, hle⟩
      · exact absurd h (hplus ds)
      · exact absurd h (hminus ds)

/-- What is read is in the range. -/
theorem of_read_eq_ok (hleast : range.least ≤ 0)
    (hgreatest : 0 ≤ range.greatest) (h : read range text = .ok n) :
    range.least ≤ n ∧ n ≤ range.greatest := by
  obtain ⟨hle, hge, -⟩ := (read_eq_ok_iff hleast hgreatest).1 h
  exact ⟨hle, hge⟩

end Texts

-- ============================================================== faults

/-- Behind digits with the value `n` more digits come, until their value
is beyond the bound. -/
def Outgrows (bound n : Nat) (cs : List Char) : Prop :=
  ∃ ds rest, cs = ds ++ rest ∧ (∀ d ∈ ds, d.isDigit = true)
    ∧ bound < Nat.ofDigitChars 10 ds n

/-- Behind digits with the value `n` a character comes that is no digit,
and the value of those before it is within the bound. -/
def Breaks (bound n : Nat) (cs : List Char) : Prop :=
  ∃ ds c rest, cs = ds ++ c :: rest ∧ (∀ d ∈ ds, d.isDigit = true)
    ∧ c.isDigit = false ∧ Nat.ofDigitChars 10 ds n ≤ bound

section Digits

variable {bound n : Nat} {c : Char} {cs : List Char}

theorem not_breaks_nil (bound n : Nat) : ¬ Breaks bound n [] := by
  rintro ⟨ds, c, rest, hcs, -⟩
  cases ds <;> cases hcs

theorem not_outgrows_nil (hn : n ≤ bound) : ¬ Outgrows bound n [] := by
  rintro ⟨ds, rest, hcs, -, hlt⟩
  obtain ⟨rfl, -⟩ := List.append_eq_nil_iff.1 hcs.symm
  rw [Nat.ofDigitChars_nil] at hlt
  omega

/-- What is beyond the bound already need not grow. -/
theorem outgrows_of_lt (hn : bound < n) (cs : List Char) :
    Outgrows bound n cs :=
  ⟨[], cs, rfl, by simp, by simpa using hn⟩

/-- Beyond the bound no character is blamed any more. -/
theorem not_breaks_of_lt (hn : bound < n) (cs : List Char) :
    ¬ Breaks bound n cs := by
  rintro ⟨ds, c, rest, -, -, -, hle⟩
  have := le_ofDigitChars n ds
  omega

/-- Within the bound it takes a digit to outgrow it, then or later. -/
theorem outgrows_cons_iff (hn : n ≤ bound) :
    Outgrows bound n (c :: cs)
      ↔ c.isDigit = true
        ∧ Outgrows bound (10 * n + (c.toNat - '0'.toNat)) cs := by
  constructor
  · rintro ⟨ds, rest, hcs, hdigits, hlt⟩
    cases ds with
    | nil =>
        rw [Nat.ofDigitChars_nil] at hlt
        omega
    | cons d ds =>
        cases hcs
        obtain ⟨hc, hds⟩ := List.forall_mem_cons.1 hdigits
        exact ⟨hc, ds, rest, rfl, hds, hlt⟩
  · rintro ⟨hc, ds, rest, rfl, hdigits, hlt⟩
    exact ⟨c :: ds, rest, rfl, List.forall_mem_cons.2 ⟨hc, hdigits⟩, hlt⟩

/-- Within the bound a wrong character comes at once, or behind a digit
that does not lead out. -/
theorem breaks_cons_iff (hn : n ≤ bound) :
    Breaks bound n (c :: cs)
      ↔ c.isDigit = false ∨ c.isDigit = true
        ∧ Breaks bound (10 * n + (c.toNat - '0'.toNat)) cs := by
  constructor
  · rintro ⟨ds, d, rest, hcs, hdigits, hd, hle⟩
    cases ds with
    | nil =>
        cases hcs
        exact Or.inl hd
    | cons d' ds =>
        cases hcs
        obtain ⟨hc, hds⟩ := List.forall_mem_cons.1 hdigits
        exact Or.inr ⟨hc, ds, d, rest, rfl, hds, hd, hle⟩
  · intro h
    rcases h with hc | ⟨hc, ds, d, rest, rfl, hdigits, hd, hle⟩
    · exact ⟨[], c, cs, rfl, by simp, hc, by simpa using hn⟩
    · exact ⟨c :: ds, d, rest, rfl,
        List.forall_mem_cons.2 ⟨hc, hdigits⟩, hd, hle⟩

/-- Digits behind the value `n` are refused for the first character that
is no digit, unless the value is beyond the bound before it comes. -/
theorem readDigits_eq_error_iff {beyond fault : Fault} (hn : n ≤ bound) :
    readDigits bound beyond n cs = .error fault
      ↔ (fault = .invalidDigit ∧ Breaks bound n cs)
        ∨ (fault = beyond ∧ Outgrows bound n cs) := by
  induction cs generalizing n with
  | nil =>
      constructor
      · intro h
        cases h
      · rintro (⟨-, h⟩ | ⟨-, h⟩)
        · exact absurd h (not_breaks_nil bound n)
        · exact absurd h (not_outgrows_nil hn)
  | cons c cs ih =>
      rw [readDigits, breaks_cons_iff hn, outgrows_cons_iff hn]
      cases hc : digit? c with
      | none =>
          have hnone : c.isDigit = false := by
            rw [Bool.eq_false_iff]
            intro hdigit
            rw [digit?_eq_some_iff.2 ⟨hdigit, rfl⟩] at hc
            cases hc
          simp [hnone, eq_comm]
      | some d =>
          obtain ⟨hdigit, rfl⟩ := digit?_eq_some_iff.1 hc
          simp only [hdigit, Bool.true_eq_false, false_or, true_and]
          generalize 10 * n + (c.toNat - '0'.toNat) = m
          by_cases hle : m ≤ bound
          · rw [if_pos hle, ih hle]
          -- this digit leads out of the bound, and nothing behind it counts
          · have hbreaks := not_breaks_of_lt (Nat.lt_of_not_le hle) cs
            have houtgrows := outgrows_of_lt (Nat.lt_of_not_le hle) cs
            rw [if_neg hle]
            simp [hbreaks, houtgrows, eq_comm]

/-- A magnitude is refused for a character, or for the lack of any, or
because it outgrows the bound, whichever comes first. -/
theorem readMagnitude_eq_error_iff {beyond fault : Fault} :
    readMagnitude bound beyond cs = .error fault
      ↔ (fault = .invalidDigit ∧ (cs = [] ∨ Breaks bound 0 cs))
        ∨ (fault = beyond ∧ Outgrows bound 0 cs) := by
  unfold readMagnitude
  cases cs with
  | nil =>
      have hgrows := not_outgrows_nil (Nat.zero_le bound)
      simp [hgrows, eq_comm]
  | cons c cs =>
      rw [List.isEmpty_cons, if_neg Bool.false_ne_true,
        readDigits_eq_error_iff (Nat.zero_le bound)]
      simp

end Digits

-- ============================================================ no minus

/-- A text without the plus sign that it may begin with. -/
def unsigned : List Char → List Char
  | '+' :: cs => cs
  | cs => cs

/-- What is wrong with a text where there are no negative numbers. -/
inductive Faulty (bound : Nat) (text : List Char) : Fault → Prop
  | empty (htext : text = []) : Faulty bound text .empty
  | sign (htext : text = ['+']) : Faulty bound text .invalidDigit
  | digit (h : Breaks bound 0 (unsigned text)) :
      Faulty bound text .invalidDigit
  | size (h : Outgrows bound 0 (unsigned text)) :
      Faulty bound text .tooLarge

/-- Digits behind a plus sign or none, with this value. -/
def Numeral (text : List Char) (n : Nat) : Prop :=
  ∃ ds, ds ≠ [] ∧ (∀ d ∈ ds, d.isDigit = true)
    ∧ (text = ds ∨ text = '+' :: ds) ∧ n = Nat.ofDigitChars 10 ds 0

theorem numeral_repr (n : Nat) : Numeral n.repr.toList n :=
  ⟨n.repr.toList, repr_ne_nil n, fun _ hd => isDigit_of_mem_repr hd,
    Or.inl rfl, (ofDigitChars_repr n).symm⟩

/-- Where there are no negative numbers, a minus sign is a character that
is no digit. -/
theorem read_of_least_eq_zero {range : Range} (hleast : range.least = 0)
    {text : String} (hne : text.toList ≠ []) :
    read range text = readPositive range (unsigned text.toList) := by
  unfold read
  split
  · next hnil => exact absurd hnil hne
  · next cs hplus => rw [hplus, unsigned]
  · next cs hminus =>
    rw [if_neg (by omega), hminus]
    rfl
  · next hnil hplus hminus =>
    congr 1
    unfold unsigned
    split
    · next cs h => exact absurd h (hplus cs)
    · rfl

theorem unsigned_eq_nil_iff {text : List Char} :
    unsigned text = [] ↔ text = [] ∨ text = ['+'] := by
  unfold unsigned
  split <;> simp_all

/-- A text is no number where there are no negative ones if it has a
fault. -/
theorem read_eq_error_iff {range : Range} (hleast : range.least = 0)
    {text : String} {fault : Fault} :
    read range text = .error fault
      ↔ Faulty range.greatest.toNat text.toList fault := by
  by_cases hnil : text.toList = []
  · have hread : read range text = .error .empty := by
      unfold read
      rw [hnil]
    rw [hread, hnil]
    constructor
    · intro h
      cases h
      exact .empty rfl
    · intro h
      cases h with
      | empty _ => rfl
      | sign htext => cases htext
      | digit h => exact absurd h (not_breaks_nil _ _)
      | size h => exact absurd h (not_outgrows_nil (Nat.zero_le _))
  · rw [read_of_least_eq_zero hleast hnil, readPositive, map_eq_error_iff,
      readMagnitude_eq_error_iff, unsigned_eq_nil_iff, or_iff_right hnil]
    constructor
    · rintro (⟨rfl, hplus | hbreaks⟩ | ⟨rfl, hgrows⟩)
      · exact .sign hplus
      · exact .digit hbreaks
      · exact .size hgrows
    · intro h
      cases h with
      | empty htext => exact absurd htext hnil
      | sign htext => exact Or.inl ⟨rfl, Or.inl htext⟩
      | digit h => exact Or.inl ⟨rfl, Or.inr h⟩
      | size h => exact Or.inr ⟨rfl, h⟩

/-- A text is a number where there are no negative ones if it is a
numeral and its value is of the range. -/
theorem read_eq_ok_iff_numeral {range : Range} (hleast : range.least = 0)
    (hgreatest : 0 ≤ range.greatest) {text : String} {n : Int} :
    read range text = .ok n
      ↔ ∃ m : Nat, n = m ∧ (m : Int) ≤ range.greatest
        ∧ Numeral text.toList m := by
  rw [read_eq_ok_iff (by omega) hgreatest]
  constructor
  · rintro ⟨hle, hge, ds, hne, hdigits, ⟨htext, rfl⟩ | ⟨-, hlt, -⟩⟩
    · exact ⟨_, rfl, hge, ds, hne, hdigits, htext, rfl⟩
    · omega
  · rintro ⟨m, rfl, hge, ds, hne, hdigits, htext, rfl⟩
    exact ⟨by omega, hge, ds, hne, hdigits, Or.inl ⟨htext, rfl⟩⟩

end Tlv.Decimal
