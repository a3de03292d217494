/-
Characters as bytes. A character below 128 is one byte, and any other is
a lead byte and then six bits of its number in each byte (`tails`). Which
lead byte that is, and which numbers there are behind it, is said once,
by ranges of numbers (`Expect.Leads`); the table of the readers says the
same, by ranges of the next byte (`Expect.exists_reaches_iff`).

So the readers find at the front of some bytes what a writer has put
there: a character stands there if the bytes begin with those of that
character (`front_utf8EncodeChar_append`, `of_front_eq_scalar`). If none
does, either the bytes break off and can be completed to one
(`exists_completion`), or at most three of them rule out every character,
whatever comes behind (`length_of_front_eq_invalid`, `front_append`).
-/
import Mathlib.Algebra.GroupWithZero.Nat
import Mathlib.Data.List.Induction
import Tlv.Text.Utf8

namespace Tlv.Utf8

-- ====================================================== texts as bytes

/-- A text is written character by character. -/
theorem encode_eq_flatMap (text : String) :
    encode text = text.toList.flatMap String.utf8EncodeChar := by
  conv_lhs => rw [← String.ofList_toList (s := text)]
  rw [encode, String.toUTF8, String.toByteArray_ofList, List.utf8Encode]
  simp

theorem encode_append (text text' : String) :
    encode (text ++ text') = encode text ++ encode text' := by
  rw [encode_eq_flatMap, encode_eq_flatMap, encode_eq_flatMap,
    String.toList_append, List.flatMap_append]

theorem utf8EncodeChar_of_lt {c : Char} (h : c.toNat < 128) :
    String.utf8EncodeChar c = [UInt8.ofNat c.toNat] := by
  have hle : c.val.toNat ≤ 127 := Nat.le_of_lt_succ h
  rw [String.utf8EncodeChar]
  exact if_pos hle

/-- A character of several bytes has a byte of 128 or more. -/
theorem exists_mem_utf8EncodeChar {c : Char} (h : 128 ≤ c.toNat) :
    ∃ b ∈ String.utf8EncodeChar c, 128 ≤ b.toNat := by
  have hgt : ¬ c.val.toNat ≤ 127 := Nat.not_le_of_lt h
  unfold String.utf8EncodeChar
  dsimp only
  rw [if_neg hgt]
  split
  · refine ⟨_, List.mem_cons_self .., ?_⟩
    rw [UInt8.toNat_ofNat']
    omega
  · split
    · refine ⟨_, List.mem_cons_self .., ?_⟩
      rw [UInt8.toNat_ofNat']
      omega
    · refine ⟨_, List.mem_cons_self .., ?_⟩
      rw [UInt8.toNat_ofNat']
      omega

/-- A text whose bytes are all below 128 has only characters of one
byte. -/
theorem toNat_lt_of_mem {text : String}
    (h : ∀ b ∈ encode text, b.toNat < 128) {c : Char}
    (hc : c ∈ text.toList) : c.toNat < 128 := by
  by_contra hge
  obtain ⟨b, hb, hle⟩ := exists_mem_utf8EncodeChar (Nat.le_of_not_lt hge)
  have := h b (by
    rw [encode_eq_flatMap]
    exact List.mem_flatMap.2 ⟨c, hc, hb⟩)
  omega

/-- The bytes of such a text are its characters. -/
theorem map_encode_of_lt {text : String}
    (h : ∀ c ∈ text.toList, c.toNat < 128) :
    (encode text).map (fun b => Char.ofNat b.toNat) = text.toList := by
  rw [encode_eq_flatMap]
  revert h
  induction text.toList with
  | nil => exact fun _ => rfl
  | cons c cs ih =>
      intro h
      obtain ⟨hc, hcs⟩ := List.forall_mem_cons.1 h
      have hbyte : (UInt8.ofNat c.toNat).toNat = c.toNat := by
        rw [UInt8.toNat_ofNat']
        omega
      rw [List.flatMap_cons, utf8EncodeChar_of_lt hc, List.map_append,
        ih hcs, List.map_singleton, hbyte, Char.ofNat_toNat,
        List.singleton_append]

theorem toNat_charOfNat {n : Nat} (h : n.isValidChar) :
    (Char.ofNat n).toNat = n := by
  rw [Char.ofNat, dif_pos h]
  rfl

-- ================================================= the bits of a number

/-- The last `count` bytes of the character with this number: six bits in
each, the higher bits first. -/
def tails : Nat → Nat → Bytes
  | 0, _ => []
  | count + 1, n =>
      UInt8.ofNat (0x80 + n / 64 ^ count % 64) :: tails count n

namespace Expect

variable {e : Expect}

/-- What is expected is a byte that does not begin a character. -/
structure Inner (e : Expect) : Prop where
  le_low : 0x80 ≤ e.low.toNat
  low_le_high : e.low.toNat ≤ e.high.toNat
  high_le : e.high.toNat ≤ 0xBF

/-- The character with this number begins with the bits read so far, and
its next byte is one of those expected. -/
def Reaches (e : Expect) (n : Nat) : Prop :=
  n / 64 ^ (e.more + 1) = e.bits
    ∧ e.low.toNat ≤ 0x80 + n / 64 ^ e.more % 64
    ∧ 0x80 + n / 64 ^ e.more % 64 ≤ e.high.toNat

theorem accepts_iff {b : UInt8} :
    e.accepts b = true
      ↔ e.low.toNat ≤ b.toNat ∧ b.toNat ≤ e.high.toNat := by
  rw [accepts, Bool.and_eq_true, decide_eq_true_eq, decide_eq_true_eq,
    UInt8.le_iff_toNat_le, UInt8.le_iff_toNat_le]

/-- The next byte of the character is the one that is accepted and gives
the next bits of its number. -/
theorem reaches_and_head_eq_iff (he : e.Inner) {n : Nat} {b : UInt8} :
    (e.Reaches n ∧ UInt8.ofNat (0x80 + n / 64 ^ e.more % 64) = b)
      ↔ e.accepts b = true ∧ n / 64 ^ e.more = e.bitsWith b := by
  have hb := b.toNat_lt
  have hlow := he.le_low
  have hhigh := he.high_le
  have hdiv : n / 64 ^ (e.more + 1) = n / 64 ^ e.more / 64 := by
    rw [Nat.pow_succ, Nat.div_div_eq_div_mul]
  have hhead : UInt8.ofNat (0x80 + n / 64 ^ e.more % 64) = b
      ↔ 0x80 + n / 64 ^ e.more % 64 = b.toNat := by
    rw [← UInt8.toNat_inj, UInt8.toNat_ofNat']
    omega
  rw [hhead, accepts_iff, bitsWith, Reaches, hdiv]
  omega

/-- So it is with all bytes that come. -/
theorem reaches_and_cons_eq_iff (he : e.Inner) {n : Nat} {b : UInt8}
    {bytes rest : Bytes} :
    (e.Reaches n ∧ b :: bytes = tails (e.more + 1) n ++ rest)
      ↔ e.accepts b = true ∧ n / 64 ^ e.more = e.bitsWith b
        ∧ bytes = tails e.more n ++ rest := by
  rw [tails, List.cons_append, List.cons.injEq, eq_comm (a := b),
    ← and_assoc, reaches_and_head_eq_iff he, and_assoc]

/-- Behind the second byte, any byte that begins no character will do. -/
theorem inner_mk (more bits : Nat) : Inner ⟨0x80, 0xBF, more, bits⟩ :=
  ⟨Nat.le_refl 0x80, Nat.le_add_right 0x80 0x3F, Nat.le_refl 0xBF⟩

/-- Where any continuation byte may come, only the bits that have been
read count. -/
theorem reaches_mk_iff {more bits n : Nat} :
    Reaches ⟨0x80, 0xBF, more, bits⟩ n ↔ n / 64 ^ (more + 1) = bits := by
  have hlow : (0x80 : UInt8).toNat = 0x80 := rfl
  have hhigh : (0xBF : UInt8).toNat = 0xBF := rfl
  unfold Reaches
  dsimp only
  rw [hlow, hhigh]
  omega

end Expect

-- ========================================================== lead bytes

namespace Expect

/-- The byte leads, with `more + 1` bytes behind it, to the character
with this number. The shorter forms take the smaller numbers. -/
def Leads (b : UInt8) (more n : Nat) : Prop :=
  match more with
  | 0 => 0x80 ≤ n ∧ n < 0x800 ∧ b.toNat = 0xC0 + n / 64
  | 1 => 0x800 ≤ n ∧ n < 0x10000 ∧ b.toNat = 0xE0 + n / 4096
  | 2 => 0x10000 ≤ n ∧ b.toNat = 0xF0 + n / 262144
  | _ => False

/-- The table, in numbers. -/
theorem ofLead?_eq (b : UInt8) :
    ofLead? b
      = if 0xC2 ≤ b.toNat ∧ b.toNat ≤ 0xDF then
          some ⟨0x80, 0xBF, 0, b.toNat % 32⟩
        else if b.toNat = 0xE0 then some ⟨0xA0, 0xBF, 1, b.toNat % 16⟩
        else if b.toNat = 0xED then some ⟨0x80, 0x9F, 1, b.toNat % 16⟩
        else if 0xE1 ≤ b.toNat ∧ b.toNat ≤ 0xEF then
          some ⟨0x80, 0xBF, 1, b.toNat % 16⟩
        else if b.toNat = 0xF0 then some ⟨0x90, 0xBF, 2, b.toNat % 8⟩
        else if 0xF1 ≤ b.toNat ∧ b.toNat ≤ 0xF3 then
          some ⟨0x80, 0xBF, 2, b.toNat % 8⟩
        else if b.toNat = 0xF4 then some ⟨0x80, 0x8F, 2, b.toNat % 8⟩
        else none := by
  unfold ofLead?
  simp only [UInt8.le_iff_toNat_le, ← UInt8.toNat_inj]
  rfl

/-- What the table says of a byte that it has. -/
theorem of_ofLead?_eq_some {b : UInt8} {e : Expect}
    (h : ofLead? b = some e) : e.Inner ∧ e.more ≤ 2 ∧ 0x80 ≤ b.toNat := by
  rw [ofLead?_eq] at h
  repeat' split at h
  all_goals cases h
  all_goals refine ⟨⟨?_, ?_, ?_⟩, ?_, by omega⟩ <;> simp

/-- A byte and what is expected behind it reach the characters that the
byte leads to: the ranges rule out the numbers of shorter forms, those
of surrogates and those above U+10FFFF, and no others. -/
theorem exists_reaches_iff {b : UInt8} {more n : Nat} :
    (∃ e, ofLead? b = some e ∧ e.more = more ∧ e.Reaches n)
      ↔ n.isValidChar ∧ Leads b more n := by
  rw [ofLead?_eq]
  unfold Nat.isValidChar
  constructor
  -- each row of the table is a range of numbers
  · intro ⟨e, he, hmore, hbits, hlow, hhigh⟩
    subst hmore
    repeat' split at he
    all_goals cases he
    all_goals
      simp [Leads] at hbits hlow hhigh ⊢
      omega
  · intro ⟨hvalid, hleads⟩
    match more with
    | 0 =>
        obtain ⟨hge, hlt, hb⟩ := hleads
        rw [if_pos (by omega)]
        simp [Reaches]
        omega
    | 1 =>
        obtain ⟨hge, hlt, hb⟩ := hleads
        rw [if_neg (by omega)]
        -- E0 and ED have a narrower second byte than the leads around them
        by_cases hE0 : b.toNat = 0xE0
        · rw [if_pos hE0]
          simp [Reaches]
          omega
        by_cases hED : b.toNat = 0xED
        · rw [if_neg hE0, if_pos hED]
          simp [Reaches]
          omega
        · rw [if_neg hE0, if_neg hED, if_pos (by omega)]
          simp [Reaches]
          omega
    | 2 =>
        obtain ⟨hge, hb⟩ := hleads
        rw [if_neg (by omega), if_neg (by omega), if_neg (by omega),
          if_neg (by omega)]
        -- so have F0 and F4
        by_cases hF0 : b.toNat = 0xF0
        · rw [if_pos hF0]
          simp [Reaches]
          omega
        by_cases hF4 : b.toNat = 0xF4
        · rw [if_neg hF0, if_neg (by omega), if_pos hF4]
          simp [Reaches]
          omega
        · rw [if_neg hF0, if_pos (by omega)]
          simp [Reaches]
          omega
    | _ + 3 => exact hleads.elim

end Expect

open Expect (Leads)

/-- A character of several bytes is the byte that leads to it and the
bits behind that. -/
theorem utf8EncodeChar_eq_cons_tails {c : Char} {b : UInt8} {more : Nat}
    (h : Leads b more c.toNat) :
    String.utf8EncodeChar c = b :: tails (more + 1) c.toNat := by
  have hvalid : c.toNat.isValidChar := c.valid
  have hnumber : c.val.toNat = c.toNat := rfl
  unfold Nat.isValidChar at hvalid
  unfold String.utf8EncodeChar
  dsimp only
  rw [hnumber]
  match more with
  | 0 =>
      obtain ⟨hge, hlt, hb⟩ := h
      rw [if_neg (by omega), if_pos (by omega)]
      simp [tails, ← UInt8.toNat_inj]
      omega
  | 1 =>
      obtain ⟨hge, hlt, hb⟩ := h
      rw [if_neg (by omega), if_neg (by omega), if_pos (by omega)]
      simp [tails, ← UInt8.toNat_inj]
      omega
  | 2 =>
      obtain ⟨hge, hb⟩ := h
      rw [if_neg (by omega), if_neg (by omega), if_neg (by omega)]
      simp [tails, ← UInt8.toNat_inj]
      omega
  | _ + 3 => exact h.elim

/-- Every character beyond ASCII has a byte that leads to it. -/
theorem exists_leads {c : Char} (h : 128 ≤ c.toNat) :
    ∃ b more, Leads b more c.toNat := by
  have hvalid : c.toNat.isValidChar := c.valid
  unfold Nat.isValidChar at hvalid
  by_cases htwo : c.toNat < 0x800
  · refine ⟨UInt8.ofNat (0xC0 + c.toNat / 64), 0, h, htwo, ?_⟩
    rw [UInt8.toNat_ofNat']
    omega
  by_cases hthree : c.toNat < 0x10000
  · refine ⟨UInt8.ofNat (0xE0 + c.toNat / 4096), 1, by omega, hthree, ?_⟩
    rw [UInt8.toNat_ofNat']
    omega
  · refine ⟨UInt8.ofNat (0xF0 + c.toNat / 262144), 2, by omega, ?_⟩
    rw [UInt8.toNat_ofNat']
    omega

/-- The bytes of a character lead to it. -/
theorem exists_ofLead?_eq_some {c : Char} (h : 128 ≤ c.toNat) :
    ∃ b e, Expect.ofLead? b = some e ∧ e.Reaches c.toNat
      ∧ String.utf8EncodeChar c = b :: tails (e.more + 1) c.toNat := by
  obtain ⟨b, more, hleads⟩ := exists_leads h
  obtain ⟨e, he, rfl, hreaches⟩ :=
    Expect.exists_reaches_iff.2 ⟨c.valid, hleads⟩
  exact ⟨b, e, he, hreaches, utf8EncodeChar_eq_cons_tails hleads⟩

/-- Bytes that lead to a character are its bytes. -/
theorem utf8EncodeChar_ofNat {b : UInt8} {e : Expect} {n : Nat}
    (he : Expect.ofLead? b = some e) (hn : e.Reaches n) :
    String.utf8EncodeChar (Char.ofNat n) = b :: tails (e.more + 1) n := by
  obtain ⟨hvalid, hleads⟩ :=
    Expect.exists_reaches_iff.1 ⟨e, he, rfl, hn⟩
  have hnumber := toNat_charOfNat hvalid
  have hbytes := utf8EncodeChar_eq_cons_tails
    (c := Char.ofNat n) (by rwa [hnumber])
  rwa [hnumber] at hbytes

theorem length_tails (count n : Nat) : (tails count n).length = count := by
  induction count with
  | zero => rfl
  | succ count ih => rw [tails, List.length_cons, ih]

-- =============================================== inside of a character

/-- A character is completed by the bits that it still lacks, and by
nothing else. -/
theorem frontAfter_eq_scalar_iff {e : Expect} (he : e.Inner)
    {size m : Nat} {bytes rest : Bytes} {c : Char} :
    frontAfter e size bytes = .scalar c m rest
      ↔ ∃ n, (e.Reaches n ∧ bytes = tails (e.more + 1) n ++ rest)
        ∧ c = Char.ofNat n ∧ m = size + (e.more + 1) := by
  obtain ⟨low, high, more, bits⟩ := e
  induction more generalizing low high bits size bytes with
  | zero =>
      cases bytes with
      | nil => simp [frontAfter, tails]
      | cons b bytes =>
          simp only [Expect.reaches_and_cons_eq_iff he]
          rw [frontAfter]
          split
          · next haccepts =>
            simp [haccepts, tails]
            grind
          · next hrefuses => simp [hrefuses]
  | succ more ih =>
      cases bytes with
      | nil => simp [frontAfter, tails]
      | cons b bytes =>
          simp only [Expect.reaches_and_cons_eq_iff he]
          rw [frontAfter]
          split
          · next haccepts =>
            dsimp only
            rw [ih _ _ _ (Expect.inner_mk ..)]
            simp [haccepts, Expect.reaches_mk_iff]
            grind
          · next hrefuses => simp [hrefuses]

/-- Some bytes complete a character. -/
theorem exists_frontAfter_eq_scalar {e : Expect} (he : e.Inner)
    (size : Nat) :
    ∃ z c m, z ≠ [] ∧ frontAfter e size z = .scalar c m [] := by
  obtain ⟨low, high, more, bits⟩ := e
  have haccepts : Expect.accepts ⟨low, high, more, bits⟩ low = true :=
    Expect.accepts_iff.2 ⟨Nat.le_refl _, he.low_le_high⟩
  induction more generalizing low high bits size with
  | zero =>
      exact ⟨[low], _, _, List.cons_ne_nil _ _,
        by rw [frontAfter, if_pos haccepts]⟩
  | succ more ih =>
      obtain ⟨z, c, m, -, hz⟩ := ih (size + 1) 0x80 0xBF
        (Expect.bitsWith ⟨low, high, more + 1, bits⟩ low)
        (Expect.inner_mk ..) (Expect.accepts_iff.2 ⟨Nat.le_refl _,
          (Expect.inner_mk more _).low_le_high⟩)
      refine ⟨low :: z, c, m, List.cons_ne_nil _ _, ?_⟩
      rw [frontAfter, if_pos haccepts]
      exact hz

/-- What stands at the front when other bytes come behind. -/
def Front.followed (z : Bytes) : Front → Front
  | .scalar c size rest => .scalar c size (rest ++ z)
  | .invalid length => .invalid length
  | .incomplete => .incomplete

/-- Only where bytes break off does it matter what comes behind. -/
theorem frontAfter_append {e : Expect} {size : Nat} {bytes : Bytes}
    (h : frontAfter e size bytes ≠ .incomplete) (z : Bytes) :
    frontAfter e size (bytes ++ z)
      = (frontAfter e size bytes).followed z := by
  fun_induction frontAfter e size bytes with
  | case1 => exact absurd rfl h
  | case2 e size b rest haccepts hmore =>
      rw [List.cons_append, frontAfter, if_pos haccepts, hmore]
      rfl
  | case3 e size b rest haccepts more hmore ih =>
      rw [List.cons_append, frontAfter, if_pos haccepts, hmore]
      exact ih h
  | case4 e size b rest hrefuses =>
      rw [List.cons_append, frontAfter, if_neg hrefuses]
      rfl

/-- Bytes that break off can be completed. -/
theorem frontAfter_completion {e : Expect} {size : Nat} {bytes : Bytes}
    (he : e.Inner) (h : frontAfter e size bytes = .incomplete) :
    ∃ z c m, z ≠ [] ∧ frontAfter e size (bytes ++ z) = .scalar c m [] := by
  fun_induction frontAfter e size bytes with
  | case1 e size => exact exists_frontAfter_eq_scalar he size
  | case2 => cases h
  | case3 e size b rest haccepts more hmore ih =>
      obtain ⟨z, c, m, hz, hscalar⟩ := ih (Expect.inner_mk ..) h
      refine ⟨z, c, m, hz, ?_⟩
      rw [List.cons_append, frontAfter, if_pos haccepts, hmore]
      exact hscalar
  | case4 => cases h

/-- The bytes that rule a character out are those read so far. -/
theorem length_of_frontAfter_eq_invalid {e : Expect} {size m : Nat}
    {bytes : Bytes} (h : frontAfter e size bytes = .invalid m) :
    size ≤ m ∧ m ≤ size + e.more ∧ m - size ≤ bytes.length := by
  fun_induction frontAfter e size bytes with
  | case1 => cases h
  | case2 => cases h
  | case3 e size b rest haccepts more hmore ih =>
      obtain ⟨hge, hle, hlength⟩ := ih h
      dsimp only at hle
      rw [List.length_cons]
      omega
  | case4 e size b rest hrefuses =>
      cases h
      omega

-- ============================================ the front of some bytes

theorem front_of_lt {b : UInt8} (h : b.toNat < 128) (bytes : Bytes) :
    front b bytes = .scalar (Char.ofNat b.toNat) 1 bytes := by
  rw [front, if_pos (UInt8.lt_iff_toNat_lt.2 h)]

/-- A lead byte settles what has to follow. -/
theorem front_of_ofLead?_eq_some {b : UInt8} {e : Expect}
    (h : Expect.ofLead? b = some e) (bytes : Bytes) :
    front b bytes = frontAfter e 1 bytes := by
  have hb := (Expect.of_ofLead?_eq_some h).2.2
  have hnot : ¬ b < 0x80 := by
    rw [UInt8.lt_iff_toNat_lt]
    exact Nat.not_lt_of_le hb
  rw [front, if_neg hnot, h]

/-- A byte begins a character by itself, or leads to one, or does
neither. -/
theorem front_cases (b : UInt8) :
    b.toNat < 128
      ∨ (∃ e, Expect.ofLead? b = some e)
      ∨ ∀ bytes, front b bytes = .invalid 1 := by
  by_cases hb : b.toNat < 128
  · exact Or.inl hb
  · cases he : Expect.ofLead? b with
    | some e => exact Or.inr (Or.inl ⟨e, rfl⟩)
    | none =>
        refine Or.inr (Or.inr fun bytes => ?_)
        rw [front, if_neg (mt UInt8.lt_iff_toNat_lt.1 hb), he]

/-- A character in front of other bytes stands at their front. -/
theorem front_utf8EncodeChar_append (c : Char) (rest : Bytes) :
    ∃ b bytes, String.utf8EncodeChar c = b :: bytes
      ∧ front b (bytes ++ rest)
        = .scalar c (String.utf8EncodeChar c).length rest := by
  by_cases hc : c.toNat < 128
  · have hbyte : (UInt8.ofNat c.toNat).toNat = c.toNat := by
      rw [UInt8.toNat_ofNat']
      omega
    refine ⟨_, [], utf8EncodeChar_of_lt hc, ?_⟩
    rw [utf8EncodeChar_of_lt hc, front_of_lt (by omega), hbyte,
      Char.ofNat_toNat]
    rfl
  · obtain ⟨b, e, he, hreaches, hbytes⟩ :=
      exists_ofLead?_eq_some (Nat.le_of_not_lt hc)
    refine ⟨b, _, hbytes, ?_⟩
    rw [front_of_ofLead?_eq_some he, hbytes, List.length_cons,
      length_tails, frontAfter_eq_scalar_iff (Expect.of_ofLead?_eq_some he).1]
    exact ⟨c.toNat, ⟨hreaches, rfl⟩, (Char.ofNat_toNat c).symm,
      Nat.add_comm ..⟩

/-- A character that stands at the front is there with its bytes. -/
theorem of_front_eq_scalar {b : UInt8} {m : Nat} {bytes rest : Bytes}
    {c : Char} (h : front b bytes = .scalar c m rest) :
    b :: bytes = String.utf8EncodeChar c ++ rest
      ∧ m = (String.utf8EncodeChar c).length := by
  rcases front_cases b with hb | ⟨e, he⟩ | hinvalid
  · have hnumber : (Char.ofNat b.toNat).toNat = b.toNat :=
      toNat_charOfNat (Or.inl (by omega))
    rw [front_of_lt hb] at h
    cases h
    rw [utf8EncodeChar_of_lt (by omega), hnumber, UInt8.ofNat_toNat]
    exact ⟨rfl, rfl⟩
  · rw [front_of_ofLead?_eq_some he, frontAfter_eq_scalar_iff
      (Expect.of_ofLead?_eq_some he).1] at h
    obtain ⟨n, ⟨hreaches, rfl⟩, rfl, rfl⟩ := h
    rw [utf8EncodeChar_ofNat he hreaches, List.length_cons, length_tails]
    exact ⟨rfl, Nat.add_comm ..⟩
  · rw [hinvalid] at h
    cases h

/-- Only where bytes break off does it matter what comes behind. -/
theorem front_append {b : UInt8} {bytes : Bytes}
    (h : front b bytes ≠ .incomplete) (z : Bytes) :
    front b (bytes ++ z) = (front b bytes).followed z := by
  rcases front_cases b with hb | ⟨e, he⟩ | hinvalid
  · rw [front_of_lt hb, front_of_lt hb]
    rfl
  · rw [front_of_ofLead?_eq_some he] at h ⊢
    rw [front_of_ofLead?_eq_some he]
    exact frontAfter_append h z
  · rw [hinvalid, hinvalid]
    rfl

/-- Bytes that break off can be completed to a character. -/
theorem exists_completion {b : UInt8} {bytes : Bytes}
    (h : front b bytes = .incomplete) :
    ∃ z c, z ≠ [] ∧ b :: bytes ++ z = String.utf8EncodeChar c := by
  rcases front_cases b with hb | ⟨e, he⟩ | hinvalid
  · rw [front_of_lt hb] at h
    cases h
  · rw [front_of_ofLead?_eq_some he] at h
    obtain ⟨z, c, m, hz, hscalar⟩ :=
      frontAfter_completion (Expect.of_ofLead?_eq_some he).1 h
    rw [← front_of_ofLead?_eq_some he] at hscalar
    have hbytes := (of_front_eq_scalar hscalar).1
    rw [List.append_nil] at hbytes
    exact ⟨z, c, hz, hbytes⟩
  · rw [hinvalid] at h
    cases h

/-- One to three bytes rule a character out, and they are there. -/
theorem length_of_front_eq_invalid {b : UInt8} {m : Nat} {bytes : Bytes}
    (h : front b bytes = .invalid m) :
    1 ≤ m ∧ m ≤ 3 ∧ m ≤ (b :: bytes).length := by
  rw [List.length_cons]
  rcases front_cases b with hb | ⟨e, he⟩ | hinvalid
  · rw [front_of_lt hb] at h
    cases h
  · rw [front_of_ofLead?_eq_some he] at h
    have := length_of_frontAfter_eq_invalid h
    have := (Expect.of_ofLead?_eq_some he).2.1
    omega
  · rw [hinvalid] at h
    cases h
    omega

end Tlv.Utf8
