/-
Every byte of a buffer is accounted for. The headers and payloads of its
elements follow each other without a gap from the first byte on, and what
lies behind the last of them is either nothing or named by the error that
ends the traversal: where it begins, how many bytes it has, and what they
were too few for (`items_tile`).

The elements are read off the tiling of the buffer: an element stands
where the frames before it end (`finish_getLast?_layout`,
`offset_of_getElem?_layout`), and what it says is what the bytes there say
(`Tiling.reads_element`). The tail of the tiling says how the traversal
ends (`stop_eq_nil_iff` and the two beside it).
-/
import Tlv.Proofs.Places

namespace Tlv.Policy

variable {p : Policy} {bytes tail : Bytes} {xs : List Entry}

-- ========================================================== the elements

/-- The last element of a layout ends where its frames do. -/
theorem finish_getLast?_layout (p : Policy) (offset : Nat)
    (xs : List Entry) :
    ((p.layout offset xs).getLast?.map Element.finish).getD offset
      = offset + (p.encodeAll xs).length := by
  rcases List.eq_nil_or_concat xs with rfl | ⟨ys, x, rfl⟩
  · rfl
  · have hlast : (p.layout offset (ys.concat x)).getLast?
        = some (p.placed (offset + (p.encodeAll ys).length) x) := by
      rw [List.concat_eq_append, layout_append]
      exact List.getLast?_concat
    rw [hlast, Option.map_some, Option.getD_some, finish_placed,
      List.concat_eq_append, encodeAll_append, encodeAll_cons,
      encodeAll_nil, List.append_nil, List.length_append, Nat.add_assoc]

/-- The first payload begins behind the first header. -/
theorem offset_of_head?_layout {offset : Nat} {e : Element}
    (h : (p.layout offset xs).head? = some e) :
    e.offset = offset + p.headerLen := by
  cases xs with
  | nil => cases h
  | cons x xs =>
      cases h
      rfl

/-- In a layout each header begins where the payload before it ends. -/
theorem offset_of_getElem?_layout {offset i : Nat} {e e' : Element}
    (h : (p.layout offset xs)[i]? = some e)
    (h' : (p.layout offset xs)[i + 1]? = some e') :
    e'.offset = e.finish + p.headerLen := by
  induction xs generalizing offset i with
  | nil => cases h
  | cons x xs ih =>
      rw [layout] at h h'
      cases i with
      | zero =>
          cases h
          rw [finish_placed]
          rw [Nat.zero_add, List.getElem?_cons_succ,
            ← List.head?_eq_getElem?] at h'
          exact offset_of_head?_layout h'
      | succ i => exact ih h h'

/-- What an element of a tiling says is what the bytes at its place say:
its tag and its length are the values of the two fields of its header,
and its payload stands behind them. -/
theorem Tiling.reads_element (h : p.Tiling bytes xs tail) {e : Element}
    (he : e ∈ p.layout 0 xs) :
    ∃ start, e.offset = start + p.headerLen ∧ e.finish ≤ bytes.length
      ∧ e.tag.toNat
        = BigEndian.value ((bytes.drop start).take p.typeWidth.bytes)
      ∧ e.length
        = BigEndian.value ((bytes.drop (start + p.typeWidth.bytes)).take
            p.lengthWidth.bytes)
      ∧ e.payload = (bytes.drop e.offset).take e.length := by
  obtain ⟨ys, x, zs, rfl, rfl⟩ := mem_layout_iff.1 he
  have hfits : p.Fits x := h.fits x (by simp)
  have hbytes : bytes = p.encodeAll ys
      ++ (p.encode x ++ (p.encodeAll zs ++ tail)) := by
    rw [h.bytes_eq, encodeAll_append, encodeAll_cons]
    simp only [List.append_assoc]
  have hdrop : bytes.drop (p.encodeAll ys).length
      = p.encode x ++ (p.encodeAll zs ++ tail) := by
    rw [hbytes, List.drop_left]
  have hfront := front_encode_append hfits (p.encodeAll zs ++ tail)
  have hdeclared := declared_encode_append hfits (p.encodeAll zs ++ tail)
  rw [← hdrop] at hfront hdeclared
  -- the element is what stands at the front of the bytes from there on
  rw [Nat.zero_add]
  refine ⟨(p.encodeAll ys).length, rfl, ?_, ?_, ?_, ?_⟩
  · rw [finish_placed, hbytes, List.length_append, List.length_append]
    omega
  · rw [← toNat_marked]
    exact congrArg (fun y => y.tag.toNat) hfront.symm
  · rw [← List.drop_drop]
    exact hdeclared.symm
  · have hpayload := congrArg Entry.payload hfront
    rw [front] at hpayload
    dsimp only at hpayload
    rw [hdeclared, List.drop_drop] at hpayload
    exact hpayload.symm

-- =============================================================== the end

theorem stop_eq_nil_iff (p : Policy) (offset : Nat) (tail : Bytes) :
    p.stop offset tail = [] ↔ tail.length = 0 := by
  rcases p.stop_cases offset tail with ⟨rfl, hstop⟩ | ⟨hne, error, hstop⟩
  · simp [hstop]
  · simp [hstop, hne]

/-- A tail is a torn header if it has some bytes but too few for one. -/
theorem stop_eq_truncatedHeader_iff (p : Policy) (offset : Nat)
    (tail : Bytes) :
    p.stop offset tail
        = [.error (.truncatedHeader offset tail.length p.headerLen)]
      ↔ 0 < tail.length ∧ tail.length < p.headerLen := by
  unfold stop
  by_cases hempty : tail.length = 0
  · simp [hempty]
  · rw [if_neg hempty]
    by_cases hheader : tail.length < p.headerLen
    · rw [if_pos hheader]
      exact iff_of_true rfl ⟨Nat.pos_of_ne_zero hempty, hheader⟩
    · simp [hheader]

/-- A torn tail is a torn payload if it has a whole header, which then
declares more bytes than there are. -/
theorem stop_eq_truncatedPayload_iff (h : p.Torn tail) (offset : Nat) :
    p.stop offset tail
        = [.error (.truncatedPayload (offset + p.headerLen)
            (p.declared tail) (tail.length - p.headerLen))]
      ↔ p.headerLen ≤ tail.length
        ∧ tail.length - p.headerLen < p.declared tail := by
  have hpos := p.headerLen_pos
  unfold Torn at h
  unfold stop
  by_cases hempty : tail.length = 0
  · rw [if_pos hempty]
    exact iff_of_false (by simp) fun hwhole => by omega
  · rw [if_neg hempty]
    by_cases hheader : tail.length < p.headerLen
    · rw [if_pos hheader]
      exact iff_of_false (by simp) fun hwhole => by omega
    · rw [if_neg hheader]
      exact iff_of_true rfl ⟨Nat.le_of_not_lt hheader, by omega⟩

-- ============================================================ the buffer

/-- Any bytes are read as elements that follow each other without a gap
from the first byte on, each with the tag, the length and the payload that
stand at its place. The traversal ends without error exactly if the last
of them ends where the bytes do. Otherwise it ends with the error that
names the place behind it: too few bytes for a header, or a header that
declares more than there is; and there is no other. On the way no cursor,
however it came there, is beyond the end, and with every sum and cut
checked it takes the same step without a fault. What lies behind the bytes
in their buffer is not looked at. -/
theorem items_tile (p : Policy) (data : Bytes) :
    let v : View := { policy := p, bytes := data }
    let items := v.items.answer
    let es := Item.elements items
    let n := data.length
    let o := (es.getLast?.map Element.finish).getD 0
    let d := p.declared (data.drop o)
    let noHeader : Item :=
      .error (.truncatedHeader o (n - o) p.headerLen)
    let noPayload : Item :=
      .error (.truncatedPayload (o + p.headerLen) d (n - o - p.headerLen))
    (∀ steps name,
        let c := ((Desk.ofView v).run steps).answer.2.cursor name
        c.offset ≤ n ∧ c.rest = data.drop c.offset
          ∧ (n < Checked.sizeLimit →
            (c.indexed data).step
              = .ok (c.step.map fun r => (r.1, r.2.indexed data))))
      ∧ (∀ e, es.head? = some e → e.offset = p.headerLen)
      ∧ (∀ i e e', es[i]? = some e → es[i + 1]? = some e' →
          e'.offset = e.finish + p.headerLen)
      ∧ (∀ e ∈ es,
          ∃ start, e.offset = start + p.headerLen ∧ e.finish ≤ n
            ∧ e.tag.toNat
              = BigEndian.value ((data.drop start).take p.typeWidth.bytes)
            ∧ e.length
              = BigEndian.value ((data.drop (start + p.typeWidth.bytes)).take
                  p.lengthWidth.bytes)
            ∧ e.payload = (data.drop e.offset).take e.length)
      ∧ o ≤ n
      ∧ (items = es.map .ok ↔ o = n)
      ∧ (items = es.map .ok ++ [noHeader]
          ↔ 0 < n - o ∧ n - o < p.headerLen)
      ∧ (items = es.map .ok ++ [noPayload]
          ↔ p.headerLen ≤ n - o ∧ n - o - p.headerLen < d)
      ∧ (items = es.map .ok ∨ items = es.map .ok ++ [noHeader]
          ∨ items = es.map .ok ++ [noPayload])
      ∧ ∀ behind, View.ofBuffer p (data ++ behind) n = .ok v := by
  intro v items es n o d noHeader noPayload
  -- the whole frames in front settle the elements, the torn tail the rest
  obtain ⟨xs, tail, htiling⟩ := exists_tiling p data
  have hes : es = p.layout 0 xs := htiling.filterMap_items
  have ho : o = (p.encodeAll xs).length := by
    have hfinish := finish_getLast?_layout p 0 xs
    rw [Nat.zero_add] at hfinish
    rw [← hfinish, ← hes]
  have hle : o ≤ n := by
    have hsize := congrArg List.length htiling.bytes_eq
    rw [List.length_append, ← ho] at hsize
    omega
  have htail : data.drop o = tail := by
    rw [ho, htiling.bytes_eq, List.drop_left]
  have hitems : items = es.map .ok ++ p.stop o (data.drop o) := by
    rw [hes, htail, ho]
    exact htiling.items_eq
  have htorn : p.Torn (data.drop o) := by
    rw [htail]
    exact htiling.torn
  have hclean := stop_eq_nil_iff p o (data.drop o)
  have hheader := stop_eq_truncatedHeader_iff p o (data.drop o)
  have hpayload := stop_eq_truncatedPayload_iff htorn o
  have hstop := stop_eq_or p o (data.drop o)
  rw [List.length_drop] at hclean hheader hpayload hstop
  refine ⟨?_, ?_, ?_, ?_, hle, ?_, ?_, ?_, ?_, ?_⟩
  · intro steps name
    have hover := Desk.over_cursor v steps name
    exact ⟨hover.offset_le, hover.rest_eq, hover.step_indexed⟩
  · intro e he
    rw [hes] at he
    rw [offset_of_head?_layout he, Nat.zero_add]
  · intro i e e' he he'
    rw [hes] at he he'
    exact offset_of_getElem?_layout he he'
  · intro e he
    rw [hes] at he
    exact htiling.reads_element he
  -- the items are the elements with what the tail yields behind them, so
  -- it is the tail alone that tells the three endings apart
  · rw [hitems, List.append_right_eq_self, hclean]
    omega
  · rw [hitems, List.append_cancel_left_eq]
    exact hheader
  · rw [hitems, List.append_cancel_left_eq]
    exact hpayload
  · rw [hitems, List.append_right_eq_self, List.append_cancel_left_eq,
      List.append_cancel_left_eq]
    exact hstop
  · intro behind
    rw [View.ofBuffer, Bytes.split?_eq, if_pos (by simp [n]),
      List.take_left]

/-- Two elements and a torn payload behind them. -/
theorem items_tile_torn_payload :
    let v : View :=
      { policy := default, bytes := [0, 1, 2, 1, 2, 3, 4, 2, 3, 0, 1] }
    let e : Element := { tag := 0, offset := 2, payload := [2] }
    let e' : Element := { tag := 1, offset := 5, payload := [3, 4] }
    let c := ((Desk.ofView v).run [("a", .nth 1)]).answer.2.cursor "a"
    v.items.answer = [.ok e, .ok e', .error (.truncatedPayload 9 3 2)]
      ∧ c.offset ≤ 11
      ∧ (c.indexed v.bytes).step
        = .ok (c.step.map fun r => (r.1, r.2.indexed v.bytes))
      ∧ e.offset = v.policy.headerLen
      ∧ e'.offset = e.finish + v.policy.headerLen
      ∧ e'.payload = (v.bytes.drop e'.offset).take e'.length
      ∧ View.ofBuffer v.policy (v.bytes ++ [9]) 11 = .ok v := by
  intro v e e' c
  have hitems : v.items.answer
      = [.ok e, .ok e', .error (.truncatedPayload 9 3 2)] := by
    decide +kernel
  have hes : Item.elements v.items.answer = [e, e'] := by
    rw [hitems]
    rfl
  obtain ⟨hcursors, hfirst, hnext, hread, -, -, -, -, -, hbehind⟩ :=
    items_tile v.policy v.bytes
  rw [hes] at hfirst hnext hread
  obtain ⟨hoffset, -, hstep⟩ := hcursors [("a", .nth 1)] "a"
  obtain ⟨_, -, -, -, -, hpayload⟩ := hread e' (by simp)
  exact ⟨hitems, hoffset, hstep (by decide), hfirst e rfl,
    hnext 0 e e' rfl rfl, hpayload, hbehind [9]⟩

end Tlv.Policy
