/-
Widths may be given anywhere on a command line: before the command, or
between its own arguments, or behind them. What the line asks for depends
on the arguments of the command, in their order, and on the width that is
given, which is the one behind the command if there are two and one byte
if there is none. This holds of every parser that is lawful
(`answer_placement`).

A width is checked and kept apart from all else. So it can be taken out
of a row of parts and put in at the end, whether the other parts can be
read or not (`Given.foldlM_add`): whatever they add, they add it beside
the widths (`Given.add_withWidths`). What is left are the arguments of the
command alone (`Own.command_eq`), and the first of them that cannot be
read is the one that is reported.
-/
import Tlv.Proofs.Outcome
import Tlv.Proofs.Reader

namespace Tlv.Arguments

-- ======================================================== own arguments

/-- The arguments of a command without any width: the buffer, or at least
one field with perhaps a capacity somewhere among them. -/
inductive Own where
  | decode (buffer : Word)
  | encode (front : List Word) (capacity? : Option Capacity)
      (back : List Word) (ne_nil : front ++ back ≠ [])

namespace Own

/-- Where the arguments stand. -/
def level : Own → Level
  | decode _ => .decode
  | encode .. => .encode

/-- What the command is called on a line. -/
def name : Own → String
  | decode _ => "decode"
  | encode .. => "encode"

/-- The arguments as parts of a line, in their order. -/
def parts : Own → List Part
  | decode buffer => [.word buffer]
  | encode front capacity? back _ =>
      front.map .word ++ capacity?.toList.map .capacity ++ back.map .word

end Own

/-- The field that a word spells. -/
def Word.field (w : Word) : Except Usage Field :=
  Given.field w.text

/-- The number of bytes that a capacity asks for. -/
def Capacity.bytes (c : Capacity) : Except Usage Nat :=
  (Given.number .capacity c.text).map Int.toNat

/-- The command with these arguments, or what is wrong with the first of
them that cannot be read. -/
def Own.command : Own → Except Usage Command
  | decode buffer => .ok (.decode buffer.text)
  | encode front capacity? back _ => do
    let fields ← front.mapM Word.field
    let bytes? ← capacity?.mapM Capacity.bytes
    let fields' ← back.mapM Word.field
    return .encode (bytes?.getD defaultCapacity) (fields ++ fields')

-- ======================================================= a command line

namespace Part

/-- Whether a part is an argument of the command, and no width. -/
def isOwn : Part → Bool
  | width _ => false
  | _ => true

/-- The number that the part gives for this width. -/
def number? (key : Key) : Part → Option Int
  | width w => if w.key = key then some w.number else none
  | _ => none

end Part

/-- The numbers that are given for a width, in their order. -/
def numbers (key : Key) (parts : List Part) : List Int :=
  parts.filterMap (Part.number? key)

section Numbers

variable {key : Key} {part : Part}

/-- An argument of the command gives no width. -/
theorem numbers_cons_of_isOwn (h : part.isOwn = true) (parts : List Part) :
    numbers key (part :: parts) = numbers key parts := by
  cases part with
  | width w => cases h
  | capacity c => rfl
  | word w => rfl

/-- A width gives its number to its own key. -/
theorem numbers_cons_width (w : Width) (parts : List Part) :
    numbers key (.width w :: parts)
      = (if w.key = key then [w.number] else []) ++ numbers key parts := by
  unfold numbers
  rw [List.filterMap_cons, Part.number?]
  split_ifs <;> rfl

theorem numbers_capacity (parts : List Part) :
    numbers .capacity parts = [] := by
  rw [numbers, List.filterMap_eq_nil_iff]
  intro part _
  cases part with
  | width w => exact if_neg w.key_ne
  | capacity c => rfl
  | word w => rfl

/-- Widths that are each given once at most are so for every key. -/
theorem length_numbers_le {parts : List Part}
    (htype : (numbers .typeWidth parts).length ≤ 1)
    (hlength : (numbers .lengthWidth parts).length ≤ 1) (key : Key) :
    (numbers key parts).length ≤ 1 := by
  cases key with
  | typeWidth => exact htype
  | lengthWidth => exact hlength
  | capacity =>
      rw [numbers_capacity]
      exact Nat.zero_le 1

end Numbers

/-- A line with these arguments for its command, and with widths before
the command and anywhere behind it. -/
structure Line (own : Own) where
  before : List Width
  behind : List Part
  filter_behind : behind.filter Part.isOwn = own.parts

namespace Line

variable {own : Own}

/-- What stands before the command. -/
def outer (line : Line own) : List Part :=
  line.before.map .width

/-- The line itself. -/
def arguments (line : Line own) : List String :=
  line.outer.flatMap Part.arguments
    ++ own.name :: line.behind.flatMap Part.arguments

/-- The line gives this width: once, or twice and then behind the command,
or not at all. -/
inductive Gives (line : Line own) (key : Key) : Int → Prop
  | before {n : Int} (houter : numbers key line.outer = [n])
      (hbehind : numbers key line.behind = []) : Gives line key n
  | behind {n : Int} (houter : numbers key line.outer = [])
      (hbehind : numbers key line.behind = [n]) : Gives line key n
  | both {m n : Int} (houter : numbers key line.outer = [m])
      (hbehind : numbers key line.behind = [n]) : Gives line key n
  | neither (houter : numbers key line.outer = [])
      (hbehind : numbers key line.behind = []) : Gives line key 1

end Line

-- ======================================================== widths apart

namespace Given

/-- The number that has been given for this width, if any. -/
def widths (g : Given) : Key → List Int
  | .typeWidth => g.typeWidth?.toList
  | .lengthWidth => g.lengthWidth?.toList
  | .capacity => []

/-- The same with these numbers for the widths. -/
def withWidths (widths : Key → List Int) (g : Given) : Given :=
  { g with
    typeWidth? := (widths .typeWidth).head?
    lengthWidth? := (widths .lengthWidth).head? }

variable {g g' : Given} {level : Level} {part : Part}

/-- Putting the widths in that are there changes nothing. -/
theorem withWidths_widths (g : Given) : g.withWidths g.widths = g := by
  cases g with
  | mk typeWidth? lengthWidth? _ _ _ =>
      cases typeWidth? <;> cases lengthWidth? <;> rfl

/-- The widths that are put in are there, if there is one at most for each
key. -/
theorem widths_withWidths {widths : Key → List Int}
    (hwidths : ∀ key, (widths key).length ≤ 1)
    (hcapacity : widths .capacity = []) (g : Given) :
    (g.withWidths widths).widths = widths := by
  have hhead : ∀ ns : List Int, ns.length ≤ 1 → ns.head?.toList = ns := by
    intro ns hns
    match ns with
    | [] => rfl
    | [n] => rfl
    | _ :: _ :: _ => simp at hns
  funext key
  cases key with
  | typeWidth => exact hhead _ (hwidths .typeWidth)
  | lengthWidth => exact hhead _ (hwidths .lengthWidth)
  | capacity => exact hcapacity.symm

theorem length_widths (g : Given) (key : Key) : (g.widths key).length ≤ 1 := by
  cases key with
  | typeWidth => exact Option.length_toList_le
  | lengthWidth => exact Option.length_toList_le
  | capacity => exact Nat.zero_le 1

/-- Fields are added beside the widths. -/
theorem addFields_withWidths (widths : Key → List Int) (g : Given)
    (texts : List String) :
    (g.withWidths widths).addFields texts
      = (g.addFields texts).map (withWidths widths) := by
  unfold addFields
  cases texts.mapM field <;> rfl

/-- What is no width is added beside the widths. -/
theorem add_withWidths (hown : part.isOwn = true) (widths : Key → List Int)
    (g : Given) :
    (g.withWidths widths).add level part
      = (g.add level part).map (withWidths widths) := by
  cases part with
  | width w => cases hown
  | capacity c =>
      show (if g.capacity?.isSome then _ else _)
        = (if g.capacity?.isSome then _ else _ : Except Usage Given).map _
      split
      · rfl
      · cases number .capacity c.text <;> rfl
  | word w =>
      cases level with
      | decode => rfl
      | top => exact addFields_withWidths widths g [w.text]
      | encode => exact addFields_withWidths widths g [w.text]

/-- An argument of the command leaves the widths alone. -/
theorem widths_add (hown : part.isOwn = true)
    (h : g.add level part = .ok g') : g'.widths = g.widths := by
  have hadd : (g.withWidths g.widths).add level part = _ :=
    add_withWidths hown g.widths g
  rw [withWidths_widths, h] at hadd
  rw [Except.ok.inj hadd]
  exact widths_withWidths g.length_widths rfl g'

/-- What is held with another width. -/
def give (g : Given) (w : Width) : Given :=
  g.withWidths fun key =>
    g.widths key ++ if w.key = key then [w.number] else []

section Give

variable {w : Width} (h : g.widths w.key = [])

include h

/-- A width that is given comes to those that are there. -/
theorem widths_give (key : Key) :
    (g.give w).widths key
      = g.widths key ++ if w.key = key then [w.number] else [] := by
  have hle : ∀ key, (g.widths key
      ++ if w.key = key then [w.number] else []).length ≤ 1 := by
    intro key
    split_ifs with hkey
    · rw [← hkey, h]
      exact Nat.le_refl 1
    · rw [List.append_nil]
      exact g.length_widths key
  have hwidths := widths_withWidths hle (by simp [widths, w.key_ne]) g
  exact congrFun hwidths key

/-- A width that has not been given yet is given by its part. -/
theorem add_width : g.add level (.width w) = .ok (g.give w) := by
  have hrange : w.key.range = .int64 := by
    cases hkey : w.key with
    | typeWidth => rfl
    | lengthWidth => rfl
    | capacity => exact absurd hkey w.key_ne
  have hnumber : number w.key w.text = .ok w.number := by
    rw [number, hrange, (Decimal.read_eq_ok_iff (by decide) (by decide)).2
      w.spells]
    rfl
  obtain ⟨key, form, text, n, hkey, hspells⟩ := w
  obtain ⟨typeWidth?, lengthWidth?, capacity?, fields, buffer?⟩ := g
  show set _ key text = _
  unfold set
  dsimp only at hnumber
  cases key with
  | typeWidth =>
      cases typeWidth? with
      | some n => cases h
      | none =>
          rw [hnumber]
          cases lengthWidth? <;> rfl
  | lengthWidth =>
      cases lengthWidth? with
      | some n => cases h
      | none =>
          rw [hnumber]
          cases typeWidth? <;> rfl
  | capacity => exact absurd rfl hkey

end Give

/-- The arguments of a command are added beside the widths. -/
theorem foldlM_withWidths {parts : List Part}
    (hown : ∀ part ∈ parts, part.isOwn = true) (widths : Key → List Int)
    (g : Given) :
    parts.foldlM (add level) (g.withWidths widths)
      = (parts.foldlM (add level) g).map (withWidths widths) := by
  induction parts generalizing g with
  | nil => rfl
  | cons part parts ih =>
      obtain ⟨hpart, hparts⟩ := List.forall_mem_cons.1 hown
      rw [List.foldlM_cons, List.foldlM_cons, add_withWidths hpart]
      cases g.add level part with
      | error usage => rfl
      | ok g' => exact ih hparts g'

/-- Parts add what they add without the widths among them, and beside it
these widths, if none is given twice. -/
theorem foldlM_add {parts : List Part}
    (h : ∀ key, (g.widths key ++ numbers key parts).length ≤ 1) :
    parts.foldlM (add level) g
      = ((parts.filter Part.isOwn).foldlM (add level) g).map
          (withWidths fun key => g.widths key ++ numbers key parts) := by
  induction parts generalizing g with
  | nil =>
      have hwidths : (fun key => g.widths key ++ numbers key []) = g.widths :=
        funext fun key => List.append_nil _
      rw [hwidths]
      exact congrArg Except.ok (withWidths_widths g).symm
  | cons part parts ih =>
      cases hown : part.isOwn with
      | true =>
          simp only [numbers_cons_of_isOwn hown] at h ⊢
          rw [List.foldlM_cons, List.filter_cons_of_pos hown,
            List.foldlM_cons]
          cases hadd : g.add level part with
          | error usage => rfl
          | ok g' =>
              rw [← widths_add hown hadd] at h ⊢
              exact ih h
      | false =>
          cases part with
          | capacity c => cases hown
          | word w => cases hown
          | width w =>
              have hfree : g.widths w.key = [] := by
                have hle := h w.key
                rw [numbers_cons_width, if_pos rfl, List.length_append,
                  List.length_append, List.length_singleton] at hle
                exact List.eq_nil_of_length_eq_zero (by omega)
              have hgive : ∀ key, (g.give w).widths key ++ numbers key parts
                  = g.widths key ++ numbers key (.width w :: parts) := by
                intro key
                rw [widths_give hfree, numbers_cons_width, List.append_assoc]
              have hrest := ih (g := g.give w) (by simpa only [hgive] using h)
              simp only [hgive] at hrest
              rw [List.foldlM_cons, add_width hfree,
                List.filter_cons_of_neg (by simp [hown])]
              refine hrest.trans ?_
              -- the other parts add the same to what the width is kept
              -- apart from
              rw [give, foldlM_withWidths fun part hpart =>
                (List.mem_filter.1 hpart).2]
              cases (parts.filter Part.isOwn).foldlM (add level) g <;> rfl

/-- At the start of a level there is no width yet, so it holds those of
its parts. -/
theorem foldlM_add_nothing {parts : List Part}
    (h : ∀ key, (numbers key parts).length ≤ 1) :
    parts.foldlM (add level) nothing
      = ((parts.filter Part.isOwn).foldlM (add level) nothing).map
          (withWidths fun key => numbers key parts) := by
  have hwidths : ∀ key, nothing.widths key ++ numbers key parts
      = numbers key parts := by
    intro key
    cases key <;> rfl
  have hadd : parts.foldlM (add level) nothing = _ :=
    foldlM_add (by simpa only [hwidths] using h)
  simpa only [hwidths] using hadd

end Given

-- ======================================================= the command

/-- Words add the fields that they spell, up to the first that spells
none. -/
theorem foldlM_words (words : List Word) (g : Given) :
    (words.map Part.word).foldlM (Given.add .encode) g
      = (words.mapM Word.field).map fun fields =>
          { g with fields := g.fields ++ fields } := by
  have hadd : (words.map Part.word).foldlM (Given.add .encode) g
      = g.addFields (words.map Word.text) := by
    induction words generalizing g with
    | nil => simp [Given.addFields]
    | cons w words ih =>
        rw [List.map_cons, List.foldlM_cons, List.map_cons,
          ← List.singleton_append (l := words.map Word.text),
          Given.addFields_append]
        exact bind_congr ih
  rw [hadd]
  unfold Given.addFields
  rw [List.mapM_map]
  exact (map_eq_pure_bind ..).symm

/-- What is read from something is not nothing. -/
theorem ne_nil_of_mapM_eq_ok {α β ε : Type} {f : α → Except ε β}
    {xs : List α} {ys : List β} (h : xs.mapM f = .ok ys) (hne : xs ≠ []) :
    ys ≠ [] := by
  obtain ⟨x, xs', rfl⟩ := List.exists_cons_of_ne_nil hne
  rw [List.mapM_cons] at h
  obtain ⟨y, -, hrest⟩ := bind_eq_ok_iff.1 h
  obtain ⟨ys', -, hcons⟩ := bind_eq_ok_iff.1 hrest
  cases hcons
  exact List.cons_ne_nil y ys'

/-- A capacity adds its number where there is none. -/
theorem foldlM_capacity (capacity? : Option Capacity) {g : Given}
    (h : g.capacity? = none) :
    (capacity?.toList.map Part.capacity).foldlM (Given.add .encode) g
      = (capacity?.mapM Capacity.bytes).map fun bytes? =>
          { g with capacity? := bytes? } := by
  obtain ⟨_, _, _, _, _⟩ := g
  cases h
  cases capacity? with
  | none => rfl
  | some c =>
      show ((Given.number .capacity c.text).map _ >>= pure) = Except.map _
        (some <$> (Given.number .capacity c.text).map Int.toNat)
      cases Given.number .capacity c.text <;> rfl

namespace Own

/-- The arguments of a command add up to what the command is made of. -/
theorem command_eq (own : Own) :
    (own.parts.foldlM (Given.add own.level) .nothing
        >>= Given.command own.level)
      = own.command := by
  cases own with
  | decode buffer => rfl
  | encode front capacity? back ne_nil =>
      show (List.foldlM (Given.add .encode) Given.nothing (_ ++ _ ++ _)
        >>= Given.command .encode) = _
      rw [command, List.foldlM_append, List.foldlM_append, foldlM_words]
      cases hfront : front.mapM Word.field with
      | error usage => rfl
      | ok fields =>
          -- the fields in front are read, then the capacity, then the rest
          show ((List.foldlM (Given.add .encode) _ _ >>= _) >>= _) = _
          rw [foldlM_capacity capacity? rfl]
          cases capacity?.mapM Capacity.bytes with
          | error usage => rfl
          | ok bytes? =>
              show (List.foldlM (Given.add .encode) _ _ >>= _) = _
              rw [foldlM_words]
              cases hback : back.mapM Word.field with
              | error usage => rfl
              | ok fields' =>
                  have hall : (front ++ back).mapM Word.field
                      = .ok (fields ++ fields') := by
                    rw [List.mapM_append, hfront, hback]
                    rfl
                  obtain ⟨field, rest, hcons⟩ := List.exists_cons_of_ne_nil
                    (ne_nil_of_mapM_eq_ok hall ne_nil)
                  show Given.command .encode
                      { Given.nothing with
                        capacity? := bytes?, fields := fields ++ fields' }
                    = .ok (.encode (bytes?.getD defaultCapacity)
                        (fields ++ fields'))
                  rw [hcons]
                  rfl

theorem suits_of_mem_parts {own : Own} {part : Part}
    (h : part ∈ own.parts) : part.Suits own.level := by
  cases own with
  | decode buffer =>
      rw [List.mem_singleton.1 h]
      exact fun hlevel => by cases hlevel
  | encode front capacity? back ne_nil =>
      simp only [parts, List.mem_append, List.mem_map] at h
      rcases h with (⟨w, -, rfl⟩ | ⟨c, -, rfl⟩) | ⟨w, -, rfl⟩
      · exact fun hlevel => by cases hlevel
      · rfl
      · exact fun hlevel => by cases hlevel

end Own

-- ========================================================== whole lines

namespace Line

variable {own : Own} {line : Line own}

theorem suits_outer (line : Line own) :
    ∀ part ∈ line.outer, part.Suits .top := by
  intro part hpart
  obtain ⟨w, -, rfl⟩ := List.mem_map.1 hpart
  trivial

/-- Among its own arguments a command may be given widths. -/
theorem suits_behind (line : Line own) :
    ∀ part ∈ line.behind, part.Suits own.level := by
  intro part hpart
  cases hown : part.isOwn with
  | true =>
      refine Own.suits_of_mem_parts ?_
      rw [← line.filter_behind]
      exact List.mem_filter.2 ⟨hpart, hown⟩
  | false =>
      cases part with
      | width w => trivial
      | capacity c => cases hown
      | word w => cases hown

/-- There is one word for the buffer. -/
theorem countP_isWord_behind (line : Line own) (h : own.level = .decode) :
    line.behind.countP Part.isWord = 1 := by
  have hown : line.behind.countP Part.isWord
      = (line.behind.filter Part.isOwn).countP Part.isWord := by
    rw [List.countP_filter]
    refine List.countP_congr fun part _ => ?_
    cases part <;> simp [Part.isWord, Part.isOwn]
  rw [hown, line.filter_behind]
  cases own with
  | decode buffer => rfl
  | encode front capacity? back ne_nil => cases h

theorem filter_outer (line : Line own) :
    line.outer.filter Part.isOwn = [] := by
  rw [List.filter_eq_nil_iff]
  intro part hpart
  obtain ⟨w, -, rfl⟩ := List.mem_map.1 hpart
  exact Bool.false_ne_true

/-- The widths before a command can stand there together. -/
theorem row_outer (line : Line own) : Row .top line.outer where
  suits := line.suits_outer
  countP_isWord_le hlevel := by cases hlevel

theorem row_behind (line : Line own) : Row own.level line.behind where
  suits := line.suits_behind
  countP_isWord_le hlevel := Nat.le_of_eq (line.countP_isWord_behind hlevel)

section Parsers

variable {p : Parser} (hp : p.Lawful)

include hp

/-- Before the command there are widths and nothing else. -/
theorem given_outer (h : ∀ key, (numbers key line.outer).length ≤ 1) :
    p.given .top line.outer
      = .ok (Given.nothing.withWidths fun key => numbers key line.outer) := by
  rw [hp.given_eq line.row_outer, Given.foldlM_add_nothing h,
    line.filter_outer]
  rfl

/-- Behind the command its own arguments are read as if they stood alone,
and the widths beside them. -/
theorem given_behind (h : ∀ key, (numbers key line.behind).length ≤ 1) :
    p.given own.level line.behind
      = (own.parts.foldlM (Given.add own.level) .nothing).map
          (Given.withWidths fun key => numbers key line.behind) := by
  rw [hp.given_eq line.row_behind, Given.foldlM_add_nothing h,
    line.filter_behind]

/-- What a line asks for is made of its own arguments and of the widths on
both sides. -/
theorem read_eq (houter : ∀ key, (numbers key line.outer).length ≤ 1)
    (hbehind : ∀ key, (numbers key line.behind).length ≤ 1) :
    p.read line.arguments
      = own.command.map fun command => {
          typeWidth := p.resolve defaultWidth
            (numbers .typeWidth line.behind).head?
            (numbers .typeWidth line.outer).head?
          lengthWidth := p.resolve defaultWidth
            (numbers .lengthWidth line.behind).head?
            (numbers .lengthWidth line.outer).head?
          command } := by
  have hname : own.level.name? = some own.name := by
    cases own <;> rfl
  have hsplit := hp.split_line hname line.row_outer line.row_behind
    (given_outer hp houter)
  rw [given_behind hp hbehind] at hsplit
  rw [Parser.read, arguments, hsplit, ← Own.command_eq]
  cases own.parts.foldlM (Given.add own.level) .nothing with
  | error usage => rfl
  | ok g =>
      show Except.map _ (Given.command own.level g >>= _)
        = (Given.command own.level g).map _
      cases Given.command own.level g <;> rfl

/-- A width that a line gives is given once at most on either side of the
command, and is the one that counts. -/
theorem Gives.resolve {key : Key} {n : Int} (h : line.Gives key n) :
    (numbers key line.outer).length ≤ 1
      ∧ (numbers key line.behind).length ≤ 1
      ∧ p.resolve defaultWidth (numbers key line.behind).head?
          (numbers key line.outer).head? = n := by
  cases h with
  | before houter hbehind =>
      simp [houter, hbehind, hp.resolve_above]
  | behind houter hbehind =>
      simp [houter, hbehind, hp.resolve_within]
  | both houter hbehind =>
      simp [houter, hbehind, hp.resolve_within]
  | neither houter hbehind =>
      simp [houter, hbehind, hp.resolve_neither, defaultWidth]

end Parsers

end Line

-- ============================================================== lines

/-- A number that is read can be given for a width. -/
def Width.ofRead (key : Key) (form : Form) (text : String) {n : Int}
    (h : Decimal.read .int64 text = .ok n) (key_ne : key ≠ .capacity) :
    Width where
  key := key
  form := form
  text := text
  number := n
  key_ne := key_ne
  spells := (Decimal.read_eq_ok_iff (by decide) (by decide)).1 h

/-- Two fields with a capacity between them. -/
def Own.twoFields : Own :=
  .encode [⟨"byte:1:2", by decide +kernel⟩]
    (some ⟨.shortEqual, "15", trivial⟩)
    [⟨"string:0:x", by decide +kernel⟩] (by simp)

/-- A negative width between the fields, and the other one twice. -/
def Line.scattered : Line .twoFields where
  before := [.ofRead .lengthWidth .long "9" rfl nofun]
  behind := [
    .word ⟨"byte:1:2", by decide +kernel⟩,
    .width (.ofRead .typeWidth .short "-3" rfl nofun),
    .capacity ⟨.shortEqual, "15", trivial⟩,
    .width (.ofRead .lengthWidth .joined "2" rfl nofun),
    .word ⟨"string:0:x", by decide +kernel⟩]
  filter_behind := rfl

/-- The same widths spelled and placed differently, and each once. -/
def Line.gathered : Line .twoFields where
  before := [.ofRead .lengthWidth .short "+2" rfl nofun,
    .ofRead .typeWidth .longEqual "-03" rfl nofun]
  behind := Own.twoFields.parts
  filter_behind := rfl

/-- No width. -/
def Line.bare : Line .twoFields where
  before := []
  behind := Own.twoFields.parts
  filter_behind := rfl

/-- A capacity that is no number, in front of a word that is no field. -/
def Own.unreadable : Own :=
  .encode [⟨"byte:1:2", by decide +kernel⟩]
    (some ⟨.shortEqual, "x", trivial⟩)
    [⟨"byte", by decide +kernel⟩] (by simp)

def Line.faulty : Line .unreadable where
  before := [.ofRead .typeWidth .short "2" rfl nofun]
  behind := Own.unreadable.parts
  filter_behind := rfl

-- =========================================================== placement

/-- A lawful parser takes a line for the command that its own arguments
make, with the widths that it gives, wherever and however it gives them.
So all such lines have the same answer. -/
theorem answer_placement {p : Parser} (hp : p.Lawful) {own : Own}
    {line : Line own} {typeWidth lengthWidth : Int}
    (htype : line.Gives .typeWidth typeWidth)
    (hlength : line.Gives .lengthWidth lengthWidth) :
    p.read line.arguments
        = own.command.map (fun command =>
            { typeWidth, lengthWidth, command })
      ∧ ∀ line' : Line own, line'.Gives .typeWidth typeWidth →
          line'.Gives .lengthWidth lengthWidth →
            p.answer line'.arguments = p.answer line.arguments := by
  have hread : ∀ line' : Line own, line'.Gives .typeWidth typeWidth →
      line'.Gives .lengthWidth lengthWidth →
        p.read line'.arguments = own.command.map fun command =>
          { typeWidth, lengthWidth, command } := by
    intro line' htype' hlength'
    obtain ⟨htypeOuter, htypeBehind, htypeNumber⟩ := htype'.resolve hp
    obtain ⟨hlengthOuter, hlengthBehind, hlengthNumber⟩ :=
      hlength'.resolve hp
    rw [Line.read_eq hp (length_numbers_le htypeOuter hlengthOuter)
      (length_numbers_le htypeBehind hlengthBehind), htypeNumber,
      hlengthNumber]
  refine ⟨hread line htype hlength, ?_⟩
  intro line' htype' hlength'
  rw [Parser.answer, Parser.answer, hread line' htype' hlength',
    hread line htype hlength]

/-- What the parser of the program makes of a negative width between two
fields and the other one given twice, of the same widths before the
command, and of none; and of a capacity and a field that cannot be read,
it reports the one in front. -/
theorem answer_placement_scattered_and_bare :
    let scattered := ["--length-width", "9", "encode", "byte:1:2", "-t", "-3",
      "-c=15", "-l2", "string:0:x"]
    reader.Lawful
      ∧ reader.read scattered
        = .ok ⟨-3, 2, .encode 15 [⟨.byte, 1, "2"⟩, ⟨.string, 0, "x"⟩]⟩
      ∧ reader.answer ["-l", "+2", "--type-width=-03", "encode", "byte:1:2",
          "-c=15", "string:0:x"] = reader.answer scattered
      ∧ reader.read ["encode", "byte:1:2", "-c=15", "string:0:x"]
        = .ok ⟨1, 1, .encode 15 [⟨.byte, 1, "2"⟩, ⟨.string, 0, "x"⟩]⟩
      ∧ reader.read ["-t", "2", "encode", "byte:1:2", "-c=x", "byte"]
        = .error (.invalidValue "x" (.number .capacity .invalidDigit)) := by
  have htype : Line.scattered.Gives .typeWidth (-3) := .behind rfl rfl
  have hlength : Line.scattered.Gives .lengthWidth 2 := .both rfl rfl
  have htype' : Line.bare.Gives .typeWidth 1 := .neither rfl rfl
  have hlength' : Line.bare.Gives .lengthWidth 1 := .neither rfl rfl
  obtain ⟨hread, hsame⟩ := answer_placement reader_lawful htype hlength
  obtain ⟨hbare, -⟩ := answer_placement reader_lawful htype' hlength'
  have htype'' : Line.faulty.Gives .typeWidth 2 := .before rfl rfl
  have hlength'' : Line.faulty.Gives .lengthWidth 1 := .neither rfl rfl
  obtain ⟨hfaulty, -⟩ := answer_placement reader_lawful htype'' hlength''
  have hcommand : Own.twoFields.command
      = .ok (.encode 15 [⟨.byte, 1, "2"⟩, ⟨.string, 0, "x"⟩]) := by
    decide +kernel
  have hunreadable : Own.unreadable.command
      = .error (.invalidValue "x" (.number .capacity .invalidDigit)) := by
    decide +kernel
  rw [hcommand] at hread hbare
  rw [hunreadable] at hfaulty
  exact ⟨reader_lawful, hread,
    hsame .gathered (.before rfl rfl) (.before rfl rfl), hbare, hfaulty⟩

end Tlv.Arguments
