import Scriptwright.Text.Bytes

/-!
# Bytes that encode a text

Bytes that encode a text are shown as that text, so nothing is lost where names and words are
texts. Other bytes are shown as a text that other bytes encode.
-/

namespace Scriptwright.Bytes

theorem ofString_ofList (cs : List Char) :
    ofString (String.ofList cs) = cs.flatMap String.utf8EncodeChar := by
  have hbytes : (String.ofList cs).toUTF8 = cs.utf8Encode := String.toByteArray_ofList
  rw [ofString, hbytes, List.utf8Encode, List.data_toByteArray, List.toList_toArray]

theorem shownFrom_eq (skip : Nat) (bs : Bytes) :
    shownFrom skip bs = shownFrom 0 (bs.drop skip) := by
  induction bs generalizing skip with
  | nil => rw [List.drop_nil, shownFrom, shownFrom]
  | cons b bs ih =>
    cases skip with
    | zero => rfl
    | succ skip => exact ih skip

/-- A character is found in front of anything. -/
theorem front?_append (c : Char) (bs : Bytes) :
    front? (String.utf8EncodeChar c ++ bs) = some c := by
  have hlength : (String.utf8EncodeChar c).length ≤ 4 := by
    rw [String.length_utf8EncodeChar]
    exact c.utf8Size_le_four
  have hdecode : (String.utf8EncodeChar c).toByteArray.utf8DecodeChar? 0 = some c := by
    rw [← List.utf8Encode_singleton]
    exact List.utf8DecodeChar?_utf8Encode_singleton
  rw [front?, List.take_append, List.take_of_length_le hlength, List.toByteArray_append]
  exact ByteArray.utf8DecodeChar?_append_eq_some hdecode _

theorem shownFrom_append (c : Char) (bs : Bytes) :
    shownFrom 0 (String.utf8EncodeChar c ++ bs) = c :: shownFrom 0 bs := by
  have hfront := front?_append c bs
  have hlength := String.length_utf8EncodeChar c
  obtain ⟨b, tail, htail⟩ := List.exists_cons_of_ne_nil (String.utf8EncodeChar_ne_nil (c := c))
  rw [htail] at hfront hlength ⊢
  rw [List.cons_append] at hfront ⊢
  have hskip : c.utf8Size - 1 = tail.length := by
    rw [← hlength, List.length_cons, Nat.add_sub_cancel]
  simp only [shownFrom, hfront]
  rw [shownFrom_eq, hskip, List.drop_left]

/-- A text is shown as it is. -/
@[simp] theorem shown_ofString (text : String) : (ofString text).shown = text := by
  obtain ⟨cs, rfl⟩ : ∃ cs, text = String.ofList cs := ⟨text.toList, String.ofList_toList.symm⟩
  rw [shown, ofString_ofList]
  congr 1
  induction cs with
  | nil => rfl
  | cons c cs ih => rw [List.flatMap_cons, shownFrom_append, ih]

theorem text?_eq_some {bs : Bytes} {text : String} : bs.text? = some text ↔ bs = ofString text := by
  rw [text?, String.fromUTF8?]
  constructor
  · intro h
    split at h
    · cases h
      rfl
    · cases h
  · rintro rfl
    have hvalid : ByteArray.IsValidUTF8 ⟨(ofString text).toArray⟩ := text.isValidUTF8
    rw [dif_pos hvalid]
    rfl

theorem ofString_append (first second : String) :
    ofString (first ++ second) = ofString first ++ ofString second := by
  have hbytes : (first ++ second).toUTF8 = first.toUTF8 ++ second.toUTF8 :=
    String.toByteArray_append
  rw [ofString, hbytes, ByteArray.toList_data_append, ofString, ofString]

/-- What stands before the first byte of a character encodes a text of its own. -/
theorem exists_ofString_of_append {text : String} {front rest : Bytes} {b : UInt8}
    (hb : b.IsUTF8FirstByte) (h : ofString text = front ++ b :: rest) :
    ∃ first, front = ofString first := by
  have hlength : front.length < text.toByteArray.size := by
    have hsize : text.toByteArray.size = (ofString text).length := rfl
    rw [hsize, h, List.length_append, List.length_cons]
    omega
  have hvalid : String.Pos.Raw.IsValid text ⟨front.length⟩ := by
    refine String.Pos.Raw.isValid_iff_isUTF8FirstByte.mpr (.inr ⟨hlength, ?_⟩)
    have hbyte : (ofString text)[front.length]? = some b := by
      rw [h, List.getElem?_append_right (Nat.le_refl _), Nat.sub_self]
      rfl
    obtain ⟨_, hget⟩ := List.getElem?_eq_some_iff.mp hbyte
    rw [← hget] at hb
    exact hb
  obtain ⟨first, second, rfl, hfirst⟩ := String.Pos.Raw.isValid_iff_exists_append.mp hvalid
  rw [ofString_append] at h
  have hsize : (ofString first).length = front.length :=
    (congrArg String.Pos.Raw.byteIdx hfirst).symm
  exact ⟨first, (List.append_inj h hsize).1.symm⟩

end Scriptwright.Bytes
