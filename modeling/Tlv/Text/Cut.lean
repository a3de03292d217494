/-
Cutting a text in two at the first place where a separator stands. The
separator itself goes to neither part. A text without it has no second
part (`cut_of_not_mem`); one that has it is put together again by
writing the separator between the parts (`cut_append_cons`), so it has
one such first part and one such last part
(`append_cons_inj_of_front`, `append_cons_inj_of_rest`). Either way the
text is its first part and what stands behind it (`behind`), and a cut
takes these apart again (`cut_append_behind`).
-/
namespace Tlv

/-- What stands before the first `separator`, and what stands behind it
if there is one. -/
def cut (separator : Char) (cs : List Char) : List Char × Option (List Char) :=
  match cs.dropWhile (· != separator) with
  | [] => (cs, none)
  | _ :: rest => (cs.takeWhile (· != separator), some rest)

/-- No character of a text without the separator is the separator. -/
theorem ne_separator {separator : Char} {cs : List Char} (h : separator ∉ cs) :
    ∀ c ∈ cs, (c != separator) = true := by
  intro c hc
  simp only [bne_iff_ne, ne_eq]
  rintro rfl
  exact h hc

/-- Without a separator all of it is the first part. -/
theorem cut_of_not_mem {separator : Char} {cs : List Char} (h : separator ∉ cs) :
    cut separator cs = (cs, none) := by
  have hdrop : cs.dropWhile (· != separator) = [] := by
    calc cs.dropWhile (· != separator)
        = (cs ++ []).dropWhile (· != separator) := by rw [List.append_nil]
      _ = [] := List.dropWhile_append_of_pos (ne_separator h)
  rw [cut, hdrop]

/-- The first separator is the one that counts. -/
theorem cut_append_cons {separator : Char} {front rest : List Char}
    (h : separator ∉ front) :
    cut separator (front ++ separator :: rest) = (front, some rest) := by
  have hdrop : (front ++ separator :: rest).dropWhile (· != separator)
      = separator :: rest := by
    rw [List.dropWhile_append_of_pos (ne_separator h), List.dropWhile_cons_of_neg (by simp)]
  have htake : (front ++ separator :: rest).takeWhile (· != separator) = front := by
    rw [List.takeWhile_append_of_pos (ne_separator h), List.takeWhile_cons_of_neg (by simp),
      List.append_nil]
  rw [cut, hdrop, htake]

/-- Where a text first leaves a class of characters is settled by the
whole text. -/
theorem append_cons_inj_of_forall {p : Char → Bool} {c c' : Char}
    {front front' rest rest' : List Char} (h : ∀ d ∈ front, p d = true)
    (h' : ∀ d ∈ front', p d = true) (hc : p c = false) (hc' : p c' = false)
    (heq : front ++ c :: rest = front' ++ c' :: rest') :
    front = front' ∧ c :: rest = c' :: rest' := by
  have htake := congrArg (List.takeWhile p) heq
  have hdrop := congrArg (List.dropWhile p) heq
  rw [List.takeWhile_append_of_pos h, List.takeWhile_append_of_pos h',
    List.takeWhile_cons_of_neg (by simp [hc]),
    List.takeWhile_cons_of_neg (by simp [hc'])] at htake
  rw [List.dropWhile_append_of_pos h, List.dropWhile_append_of_pos h',
    List.dropWhile_cons_of_neg (by simp [hc]),
    List.dropWhile_cons_of_neg (by simp [hc'])] at hdrop
  simp only [List.append_nil] at htake
  exact ⟨htake, hdrop⟩

/-- So is where the first separator stands. -/
theorem append_cons_inj_of_front {separator : Char}
    {front front' rest rest' : List Char} (h : separator ∉ front)
    (h' : separator ∉ front')
    (heq : front ++ separator :: rest = front' ++ separator :: rest') :
    front = front' ∧ rest = rest' := by
  have hparts := append_cons_inj_of_forall (ne_separator h)
    (ne_separator h') (by simp) (by simp) heq
  exact ⟨hparts.1, (List.cons.inj hparts.2).2⟩

/-- And so is where the last one stands. -/
theorem append_cons_inj_of_rest {separator : Char}
    {front front' rest rest' : List Char} (h : separator ∉ rest)
    (h' : separator ∉ rest')
    (heq : front ++ separator :: rest = front' ++ separator :: rest') :
    front = front' ∧ rest = rest' := by
  have hreverse := congrArg List.reverse heq
  simp only [List.reverse_append, List.reverse_cons, List.append_assoc,
    List.singleton_append] at hreverse
  have hparts := append_cons_inj_of_front (by simpa using h)
    (by simpa using h') hreverse
  exact ⟨List.reverse_inj.1 hparts.2, List.reverse_inj.1 hparts.1⟩

/-- What stands behind a cut, with its separator. -/
def behind (separator : Char) : Option (List Char) → List Char
  | none => []
  | some cs => separator :: cs

/-- What was put together with a separator, or without one, comes apart as
it was. -/
theorem cut_append_behind {separator : Char} {front : List Char}
    (h : separator ∉ front) (rest? : Option (List Char)) :
    cut separator (front ++ behind separator rest?) = (front, rest?) := by
  cases rest? with
  | none => rw [behind, List.append_nil, cut_of_not_mem h]
  | some rest => exact cut_append_cons h

/-- Every text can be cut. -/
theorem exists_append_behind (separator : Char) (cs : List Char) :
    ∃ front rest?, cs = front ++ behind separator rest?
      ∧ separator ∉ front := by
  by_cases h : separator ∈ cs
  · obtain ⟨front, rest, rfl, hfront⟩ := List.eq_append_cons_of_mem h
    exact ⟨front, some rest, rfl, hfront⟩
  · exact ⟨cs, none, (List.append_nil cs).symm, h⟩

end Tlv
