/-
The parser that the program runs with is lawful (`reader_lawful`).

Reading takes one argument after the other and keeps back what it has yet
to check, so a part may leave a level in different states. But they only
differ in what has been checked. Once everything is, a part has added to
the level what it would add if it were checked at once
(`State.settle_accept`), and so has a row of them (`readLevel_parts`).

The reader of a level and the reader of the whole line take an argument
the same way. What both do with an option is stated for any reader that
does so (`Steps.setting`).
-/
import Mathlib.Data.List.TakeWhile
import Tlv.Command.Arguments
import Tlv.Proofs.Parts

namespace Tlv.Arguments

-- ============================================================== tokens

section Tokens

variable {level : Level} {key : Key} {argument value : String}

/-- A width can be given at every level. -/
theorem mem_keys (h : key ≠ .capacity) (level : Level) : key ∈ level.keys := by
  revert h
  cases level <;> cases key <;> decide

/-- An option is known by its letter where it can be given. -/
theorem ofShort?_letter (h : key ∈ level.keys) :
    level.ofShort? key.letter = some (.option key) := by
  revert h
  cases level <;> cases key <;> decide

/-- An option is known by its name where it can be given. -/
theorem ofLong?_name (h : key ∈ level.keys) :
    level.ofLong? key.name = some (.option key) := by
  revert h
  cases level <;> cases key <;> decide +kernel

/-- What begins with no dash is a word, whatever has been before it. -/
theorem ofArgument_of_head? (h : argument.toList.head? ≠ some '-')
    (awaiting? : Option Key) :
    Token.ofArgument level awaiting? argument = .word := by
  unfold Token.ofArgument
  split
  · next hargument => exact absurd (by rw [hargument]; rfl) h
  · next hargument => exact absurd (by rw [hargument]; rfl) h
  · next hargument => exact absurd (by rw [hargument]; rfl) h
  · rfl

theorem isNumeral_of_forall {ds : List Char} (hne : ds ≠ [])
    (h : ∀ d ∈ ds, d.isDigit = true) : isNumeral ds = true := by
  have hdigits : ∀ d ∈ ds, isDigit d = true := by
    intro d hd
    rw [isDigit, Decimal.digit?_eq_some_iff.2 ⟨h d hd, rfl⟩]
    rfl
  have htake : ds.takeWhile isDigit = ds :=
    List.takeWhile_eq_self_iff.2 hdigits
  have hdrop : ds.dropWhile isDigit = [] :=
    List.dropWhile_eq_nil_iff.2 hdigits
  rw [isNumeral, htake, hdrop]
  cases ds with
  | nil => exact absurd rfl hne
  | cons d ds => rfl

/-- Behind a width a negative number is a word. -/
theorem ofArgument_of_isNegative (hkey : key ≠ .capacity)
    (h : Form.IsNegative argument) :
    Token.ofArgument level (some key) argument = .word := by
  obtain ⟨ds, hne, hdigits, hargument⟩ := h
  have hnumeral := isNumeral_of_forall hne hdigits
  obtain ⟨d, ds, rfl⟩ := List.exists_cons_of_ne_nil hne
  have hd : d ≠ '-' := by
    rintro rfl
    exact absurd (hdigits '-' (List.mem_cons_self ..)) (by decide)
  unfold Token.ofArgument
  rw [hargument]
  cases key with
  | typeWidth => simp [hd, hnumeral]
  | lengthWidth => simp [hd, hnumeral]
  | capacity => exact absurd rfl hkey

/-- Behind an option its value is a word, if it is one that the option
takes. -/
theorem ofArgument_value {form : Form} (hform : form.isAttached = false)
    (h : form.Takes key value) :
    Token.ofArgument level (some key) value = .word := by
  have htakes : value.toList.head? ≠ some '-'
      ∨ (key ≠ .capacity ∧ Form.IsNegative value) := by
    cases form with
    | short => exact h
    | long => exact h
    | joined => cases hform
    | shortEqual => cases hform
    | longEqual => cases hform
  rcases htakes with hhead | ⟨hkey, hnegative⟩
  · exact ofArgument_of_head? hhead _
  · exact ofArgument_of_isNegative hkey hnegative

/-- What begins with one dash is told by the letter behind it. -/
theorem ofArgument_letter {cs : List Char}
    (hargument : argument.toList = '-' :: key.letter :: cs) :
    Token.ofArgument level none argument
      = Token.ofShort level key.letter cs := by
  unfold Token.ofArgument
  rw [hargument]
  cases key <;> rfl

/-- An option by its name, with what is written behind a sign of
equality, if there is one. -/
theorem ofArgument_name (hkey : key ∈ level.keys) {value? : Option (List Char)}
    (hargument : argument.toList
      = '-' :: '-' :: (key.name.toList ++ behind '=' value?)) :
    Token.ofArgument level none argument
      = .option key (value?.map String.ofList) := by
  have hname : '=' ∉ key.name.toList := by
    cases key <;> decide +kernel
  have hlong : Token.ofArgument level none argument
      = Token.ofLong level (key.name.toList ++ behind '=' value?) := by
    unfold Token.ofArgument
    rw [hargument]
    cases key <;> rfl
  rw [hlong, Token.ofLong, cut_append_behind hname]
  dsimp only
  rw [String.ofList_toList, ofLong?_name hkey]

/-- An option and its value in one argument are found in it. -/
theorem ofArgument_attached {form : Form} (hkey : key ∈ level.keys)
    (hform : form.isAttached = true) (h : form.Takes key value) :
    ∃ argument, form.write key value = [argument]
      ∧ argument.toList.head? = some '-'
      ∧ Token.ofArgument level none argument = .option key (some value) := by
  cases form with
  | short => cases hform
  | long => cases hform
  | joined =>
      have hargument : ("-" ++ key.letter.toString ++ value).toList
          = '-' :: key.letter :: value.toList := by simp
      refine ⟨_, rfl, by simp, ?_⟩
      rw [ofArgument_letter hargument]
      unfold Token.ofShort
      rw [ofShort?_letter hkey]
      obtain ⟨hne, hequal⟩ := h
      cases hvalue : value.toList with
      | nil => exact absurd (by rw [hvalue]; rfl) hne
      | cons c cs =>
          have hc : c ≠ '=' := by
            rintro rfl
            exact hequal (by rw [hvalue]; rfl)
          have hback : String.ofList (c :: cs) = value := by
            rw [← hvalue, String.ofList_toList]
          simp [hc, hback]
  | shortEqual =>
      have hargument : ("-" ++ key.letter.toString ++ "=" ++ value).toList
          = '-' :: key.letter :: '=' :: value.toList := by simp
      refine ⟨_, rfl, by simp, ?_⟩
      rw [ofArgument_letter hargument]
      unfold Token.ofShort
      rw [ofShort?_letter hkey]
      simp
  | longEqual =>
      have hargument : ("--" ++ key.name ++ "=" ++ value).toList
          = '-' :: '-' :: (key.name.toList
            ++ behind '=' (some value.toList)) := by simp [behind]
      refine ⟨_, rfl, by simp, ?_⟩
      rw [ofArgument_name hkey hargument]
      simp

/-- So is an option by itself. -/
theorem ofArgument_separate {form : Form} (hkey : key ∈ level.keys)
    (hform : form.isAttached = false) (value : String) :
    ∃ argument, form.write key value = [argument, value]
      ∧ argument.toList.head? = some '-'
      ∧ Token.ofArgument level none argument = .option key none := by
  cases form with
  | short =>
      have hargument : ("-" ++ key.letter.toString).toList
          = ['-', key.letter] := by simp
      refine ⟨_, rfl, by simp, ?_⟩
      rw [ofArgument_letter hargument]
      unfold Token.ofShort
      rw [ofShort?_letter hkey]
  | long =>
      have hargument : ("--" ++ key.name).toList
          = '-' :: '-' :: (key.name.toList ++ behind '=' none) := by
        simp [behind]
      refine ⟨_, rfl, by simp, ?_⟩
      rw [ofArgument_name hkey hargument]
      rfl
  | joined => cases hform
  | shortEqual => cases hform
  | longEqual => cases hform

end Tokens

-- ============================================================= readers

/-- The reader goes on behind an argument as the level does that takes it,
unless it is two dashes or the name of a command. -/
def Steps {α : Type} (level : Level)
    (reader : State → List String → Except Usage α) : Prop :=
  ∀ (s : State) (argument : String) (rest : List String),
    Token.ofArgument level s.awaiting? argument ≠ .escape →
    (s.awaiting? = none → Name.ofString? argument = none) →
      reader s (argument :: rest)
        = s.take level argument (Token.ofArgument level s.awaiting? argument)
          >>= fun s' => reader s' rest

/-- A level takes one argument and reads on, as long as no two dashes
come. -/
theorem readLevel_cons {level : Level} {s : State} {argument : String}
    (h : Token.ofArgument level s.awaiting? argument ≠ .escape)
    (rest : List String) :
    readLevel level s (argument :: rest)
      = s.take level argument (Token.ofArgument level s.awaiting? argument)
        >>= fun s' => readLevel level s' rest := by
  rw [readLevel]
  split
  · next hescape => exact absurd hescape h
  · rfl

theorem steps_readLevel (level : Level) : Steps level (readLevel level) :=
  fun _ _ rest h _ => readLevel_cons h rest

/-- The reader of whole lines steps as the level before a command does. -/
theorem steps_readFrom : Steps .top readFrom := by
  intro s argument rest hescape hname
  rw [readFrom]
  split
  · next hawaiting hencode =>
    rw [hname hawaiting] at hencode
    cases hencode
  · next hawaiting hdecode =>
    rw [hname hawaiting] at hdecode
    cases hdecode
  · next hawaiting hhelp =>
    rw [hname hawaiting] at hhelp
    cases hhelp
  · split
    · next h => exact absurd h hescape
    · rfl

namespace State

/-- Takes an option with its value. -/
def receive (s : State) (form : Form) (key : Key) (value : String) :
    Except Usage State := do
  let given ← s.settle
  if form.isAttached then
    return { given := ← given.set key value, pending := .nothing }
  else return { given, pending := .option key (some value) }

variable {s s' : State} {form : Form} {key : Key} {value : String}

/-- However an option is written, it sets the same once it is checked. -/
theorem settle_receive :
    (s.receive form key value >>= settle)
      = s.settle >>= fun given => given.set key value := by
  unfold receive
  rw [bind_assoc]
  refine bind_congr fun given => ?_
  cases form.isAttached with
  | false => rfl
  | true =>
      show ((given.set key value >>= fun given' => _) >>= settle) = _
      rw [bind_assoc]
      exact bind_pure (given.set key value)

/-- An option that has been taken is either still to be checked or has
been set. -/
theorem receive_cases (h : s.receive form key value = .ok s') :
    ∃ given, s.settle = .ok given
      ∧ (s' = { given, pending := .option key (some value) }
        ∨ ∃ given', given.set key value = .ok given'
          ∧ s' = { given := given', pending := .nothing }) := by
  unfold receive at h
  obtain ⟨given, hsettle, h⟩ := bind_eq_ok_iff.1 h
  refine ⟨given, hsettle, ?_⟩
  cases hform : form.isAttached with
  | false =>
      rw [hform] at h
      cases h
      exact Or.inl rfl
  | true =>
      rw [hform] at h
      obtain ⟨given', hset, h⟩ := bind_eq_ok_iff.1 h
      cases h
      exact Or.inr ⟨given', hset, rfl⟩

end State

theorem ofString?_of_head? {argument : String}
    (h : argument.toList.head? = some '-') :
    Name.ofString? argument = none := by
  unfold Name.ofString?
  split
  · cases h
  · cases h
  · cases h
  · rfl

namespace Steps

variable {α : Type} {level : Level}
  {reader : State → List String → Except Usage α} (h : Steps level reader)
  {form : Form} {key : Key} {value : String}

include h

/-- An option that waits for its value takes the next argument. -/
theorem take_value (hvalue : Token.ofArgument level (some key) value = .word)
    (given : Given) (rest : List String) :
    reader { given, pending := .option key none } (value :: rest)
      = reader { given, pending := .option key (some value) } rest := by
  let s : State := { given, pending := .option key none }
  have htoken : Token.ofArgument level s.awaiting? value = .word := hvalue
  have hstep := h s value rest (by rw [htoken]; simp)
    (fun hnone => by cases hnone)
  rw [htoken] at hstep
  exact hstep

/-- Any such reader takes an option with its value. -/
theorem setting {s : State} (hs : s.awaiting? = none)
    (hkey : key ∈ level.keys) (htakes : form.Takes key value)
    (rest : List String) :
    reader s (form.write key value ++ rest)
      = s.receive form key value >>= fun s' => reader s' rest := by
  unfold State.receive
  cases hform : form.isAttached with
  | true =>
      obtain ⟨argument, hwrite, hhead, htoken⟩ :=
        ofArgument_attached hkey hform htakes
      have hstep := h s argument rest (by rw [hs, htoken]; simp)
        fun _ => ofString?_of_head? hhead
      rw [hwrite, List.singleton_append, hstep, hs, htoken]
      rfl
  | false =>
      obtain ⟨argument, hwrite, hhead, htoken⟩ :=
        ofArgument_separate hkey hform value
      have hstep := h s argument (value :: rest) (by rw [hs, htoken]; simp)
        fun _ => ofString?_of_head? hhead
      rw [hwrite, List.cons_append, List.singleton_append, hstep, hs, htoken]
      show ((s.settle >>= _) >>= _) = _
      rw [bind_assoc, bind_assoc]
      refine bind_congr fun given => ?_
      exact take_value h (ofArgument_value hform htakes) given rest

end Steps

-- ============================================================ one part

namespace State

/-- Takes a part. -/
def accept (s : State) (level : Level) : Part → Except Usage State
  | .width w => s.receive w.form w.key w.text
  | .capacity c => s.receive c.form .capacity c.text
  | .word w => s.takeWord level w.text

variable {s s' : State} {level : Level} {part : Part}

theorem buffer?_of_set {g g' : Given} {key : Key} {value : String}
    (h : g.set key value = .ok g') : g'.buffer? = g.buffer? := by
  unfold Given.set at h
  cases key
  all_goals
    dsimp only at h
    split at h
    · cases h
    · obtain ⟨n, -, rfl⟩ := map_eq_ok_iff.1 h
      rfl

/-- What waits to be checked is not the buffer. -/
theorem buffer?_of_settle {g : Given} (h : s.settle = .ok g) :
    g.buffer? = s.given.buffer? := by
  unfold settle at h
  split at h
  · cases h
    rfl
  · cases h
  · exact buffer?_of_set h
  · obtain ⟨fields, -, hg⟩ := bind_eq_ok_iff.1 h
    cases hg
    rfl

/-- Behind an option no value is missing, and the buffer is what it
was. -/
theorem of_receive {form : Form} {key : Key} {value : String}
    (h : s.receive form key value = .ok s') :
    s'.awaiting? = none ∧ s'.given.buffer? = s.given.buffer? := by
  obtain ⟨given, hsettle, hcases⟩ := receive_cases h
  rcases hcases with rfl | ⟨given', hset, rfl⟩
  · exact ⟨rfl, buffer?_of_settle hsettle⟩
  · exact ⟨rfl, (buffer?_of_set hset).trans (buffer?_of_settle hsettle)⟩

/-- A word that is taken adds what it would add by itself. -/
theorem settle_takeWord (hlevel : level ≠ .top)
    (hroom : level = .decode → s.given.buffer? = none) (w : Word) :
    (s.takeWord level w.text >>= settle)
      = s.settle >>= fun g => g.add level (.word w) := by
  cases level with
  | top => exact absurd rfl hlevel
  | encode =>
      unfold takeWord
      split
      · next h => cases h
      · next texts _ hpending =>
        -- the word joins a row of words, all of them yet to be checked
        show Given.addFields s.given (w.text :: texts).reverse = _
        unfold settle
        rw [hpending, List.reverse_cons]
        exact Given.addFields_append ..
      · rw [bind_assoc]
        rfl
      · next h => cases h
  | decode =>
      have hsome : s.given.buffer?.isSome = false := by
        rw [hroom rfl]
        rfl
      unfold takeWord
      dsimp only
      rw [hsome, if_neg Bool.false_ne_true, bind_assoc]
      rfl

/-- Parts add the same, whether they are checked at once or later. -/
theorem settle_accept (hsuits : part.Suits level)
    (hroom : level = .decode → part.isWord = true →
      s.given.buffer? = none) :
    (s.accept level part >>= settle)
      = s.settle >>= fun g => g.add level part := by
  cases part with
  | width w => exact settle_receive
  | capacity c => exact settle_receive
  | word w => exact settle_takeWord hsuits (fun h => hroom h rfl) w

theorem awaiting?_of_accept (h : s.accept level part = .ok s') :
    s'.awaiting? = none := by
  cases part with
  | width w => exact (of_receive h).1
  | capacity c => exact (of_receive h).1
  | word w =>
      change s.takeWord level w.text = .ok s' at h
      unfold takeWord at h
      split at h
      · cases h
      · cases h
        rfl
      · obtain ⟨given, -, h⟩ := bind_eq_ok_iff.1 h
        cases h
        rfl
      · split at h
        · cases h
        · obtain ⟨given, -, h⟩ := bind_eq_ok_iff.1 h
          cases h
          rfl

/-- Only a word can become the buffer. -/
theorem length_buffer?_of_accept (h : s.accept level part = .ok s') :
    s'.given.buffer?.toList.length
      ≤ s.given.buffer?.toList.length + [part].countP Part.isWord := by
  cases part with
  | width w =>
      rw [(of_receive h).2]
      exact Nat.le_add_right ..
  | capacity c =>
      rw [(of_receive h).2]
      exact Nat.le_add_right ..
  | word w =>
      refine Nat.le_trans ?_ (Nat.le_add_left ..)
      exact Option.length_toList_le

end State

-- ========================================================= many parts

section Parts

variable {s : State} {level : Level} {part : Part} {parts : List Part}

/-- A level takes a part and reads on behind it. -/
theorem readLevel_part (hs : s.awaiting? = none) (hsuits : part.Suits level)
    (rest : List String) :
    readLevel level s (part.arguments ++ rest)
      = s.accept level part >>= fun s' => readLevel level s' rest := by
  cases part with
  | width w =>
      exact (steps_readLevel level).setting hs
        (mem_keys w.key_ne level) w.takes rest
  | capacity c =>
      change level = .encode at hsuits
      subst hsuits
      exact (steps_readLevel .encode).setting hs (by decide) c.takes rest
  | word w =>
      have htoken : Token.ofArgument level s.awaiting? w.text = .word :=
        ofArgument_of_head? w.head?_ne _
      have hstep := readLevel_cons (by rw [htoken]; simp) rest
      rw [htoken, State.take, hs] at hstep
      exact hstep

/-- A level holds what its parts add to it one after the other. -/
theorem readLevel_parts (hs : s.awaiting? = none)
    (hsuits : ∀ part ∈ parts, part.Suits level)
    (hroom : level = .decode →
      s.given.buffer?.toList.length + parts.countP Part.isWord ≤ 1) :
    readLevel level s (parts.flatMap Part.arguments)
      = s.settle >>= fun g => parts.foldlM (Given.add level) g := by
  induction parts generalizing s with
  | nil => exact (bind_pure s.settle).symm
  | cons part parts ih =>
      obtain ⟨hpart, hparts⟩ := List.forall_mem_cons.1 hsuits
      have hcount : (part :: parts).countP Part.isWord
          = [part].countP Part.isWord + parts.countP Part.isWord := by
        rw [← List.countP_append, List.singleton_append]
      have hfree : level = .decode → part.isWord = true →
          s.given.buffer? = none := by
        intro hlevel hword
        have hone : [part].countP Part.isWord = 1 := by simp [hword]
        have hle := hroom hlevel
        refine Option.toList_eq_nil_iff.1 (List.eq_nil_of_length_eq_zero ?_)
        omega
      -- what the part leaves waiting is checked before the rest or after it,
      -- which makes no difference to what there is in the end
      calc readLevel level s ((part :: parts).flatMap Part.arguments)
          = s.accept level part
              >>= fun s' => readLevel level s' (parts.flatMap Part.arguments) := by
            rw [List.flatMap_cons, readLevel_part hs hpart]
        _ = s.accept level part >>= fun s' =>
              s'.settle >>= fun g => parts.foldlM (Given.add level) g := by
            cases haccept : s.accept level part with
            | error usage => rfl
            | ok s' =>
                have hbuffer := State.length_buffer?_of_accept haccept
                refine ih (State.awaiting?_of_accept haccept) hparts ?_
                intro hlevel
                have hle := hroom hlevel
                omega
        _ = (s.accept level part >>= State.settle)
              >>= fun g => parts.foldlM (Given.add level) g := by
            rw [bind_assoc]
        _ = s.settle >>= fun g => (part :: parts).foldlM (Given.add level) g := by
            rw [State.settle_accept hpart hfree, bind_assoc]
            simp only [List.foldlM_cons]

/-- Options before a command are checked no sooner than the command, and
then they hold what they add. -/
theorem readFrom_parts {g : Given} (hs : s.awaiting? = none)
    (hsuits : ∀ part ∈ parts, part.Suits .top)
    (h : (s.settle >>= fun g₀ => parts.foldlM (Given.add .top) g₀) = .ok g)
    (rest : List String) :
    ∃ s' : State, s'.awaiting? = none ∧ s'.settle = .ok g
      ∧ readFrom s (parts.flatMap Part.arguments ++ rest)
        = readFrom s' rest := by
  induction parts generalizing s with
  | nil => exact ⟨s, hs, (bind_pure s.settle).symm.trans h, rfl⟩
  | cons part parts ih =>
      obtain ⟨hpart, hparts⟩ := List.forall_mem_cons.1 hsuits
      have hsum : ((s.accept .top part >>= State.settle)
          >>= fun g₀ => parts.foldlM (Given.add .top) g₀) = .ok g := by
        rw [State.settle_accept hpart (fun hlevel => by cases hlevel),
          bind_assoc]
        simpa only [List.foldlM_cons] using h
      rw [bind_assoc] at hsum
      obtain ⟨s₁, haccept, hrest⟩ := bind_eq_ok_iff.1 hsum
      obtain ⟨s', hs', hsettle, hread⟩ :=
        ih (State.awaiting?_of_accept haccept) hparts hrest
      refine ⟨s', hs', hsettle, ?_⟩
      rw [← hread, List.flatMap_cons, List.append_assoc]
      cases part with
      | width w =>
          have hstep := steps_readFrom.setting hs
            (mem_keys w.key_ne .top) w.takes
            (parts.flatMap Part.arguments ++ rest)
          refine hstep.trans ?_
          change s.receive w.form w.key w.text = .ok s₁ at haccept
          rw [haccept]
          rfl
      | capacity c => cases hpart
      | word w => exact absurd rfl hpart

end Parts

-- ============================================================ the laws

section Laws

variable {level : Level} {parts : List Part} {part : Part}

/-- A row is read by what its parts add. -/
theorem reader_given (h : Row level parts) :
    reader.given level parts = parts.foldlM (Given.add level) .nothing := by
  have hroom : level = .decode →
      State.start.given.buffer?.toList.length + parts.countP Part.isWord
        ≤ 1 := by
    intro hlevel
    exact (Nat.zero_add _).trans_le (h.countP_isWord_le hlevel)
  exact readLevel_parts rfl h.suits hroom

/-- So one part more adds what it would add by itself. -/
theorem reader_given_snoc (h : Row level (parts ++ [part])) :
    reader.given level (parts ++ [part])
      = reader.given level parts >>= fun g => g.add level part := by
  rw [reader_given h, reader_given h.front, List.foldlM_append]
  exact bind_congr fun g => bind_pure (g.add level part)

/-- A line falls apart at the name of its command. -/
theorem reader_split {name : String} {above behind : List Part} {g : Given}
    (hname : level.name? = some name) (habove : Row .top above)
    (h : reader.given .top above = .ok g) :
    reader.split (above.flatMap Part.arguments
        ++ name :: behind.flatMap Part.arguments) = do
      let within ← reader.given level behind
      let command ← within.command level
      return { above := g, within, command } := by
  have hadd : (State.start.settle
      >>= fun g₀ => above.foldlM (Given.add .top) g₀) = .ok g :=
    (reader_given habove).symm.trans h
  obtain ⟨s, hs, hsettle, hread⟩ := readFrom_parts rfl habove.suits hadd
    (name :: behind.flatMap Part.arguments)
  have hbehind : readFrom s (name :: behind.flatMap Part.arguments)
      = readBehind level s (behind.flatMap Part.arguments) := by
    rw [readFrom, hs]
    cases level with
    | top => cases hname
    | encode =>
        cases hname
        rfl
    | decode =>
        cases hname
        rfl
  refine hread.trans ?_
  rw [hbehind, readBehind, hsettle]
  rfl

/-- The parser that the program runs with does what is documented. -/
theorem reader_lawful : reader.Lawful where
  given_nil _ := rfl
  given_width h := reader_given_snoc h
  given_capacity h := reader_given_snoc h
  given_field h := reader_given_snoc h
  given_buffer h := by
    rw [reader_given_snoc h]
    exact (map_eq_pure_bind ..).symm
  split_line hname habove _ h := reader_split hname habove h
  resolve_within _ _ _ := rfl
  resolve_above _ _ := rfl
  resolve_neither _ := rfl

end Laws

end Tlv.Arguments
