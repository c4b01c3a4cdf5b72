import Scriptwright.Proofs.Token.Scan

/-!
# The bytes of a text

A byte below 128 encodes a character by itself. All bytes of the other characters are from
128 on. A reader of bytes that looks for characters of the first kind therefore stops where
a reader of characters does, even if it goes through the bytes of a character one by one.

A slice of a text is cut out between two bytes. It exists if a character begins or the text
ends at both of them, and if the second is not before the first.
-/

namespace Scriptwright.Bytes
open Scriptwright.Scan

/-- The bytes that encode the characters. -/
def encode (cs : List Char) : List UInt8 := cs.flatMap String.utf8EncodeChar

/-- The character that the byte encodes by itself. -/
def char? (b : UInt8) : Option Char := if b < 128 then some (Char.ofUInt8 b) else none

/-- The byte encodes a character of the class by itself. -/
def holds (p : Char → Bool) (b : UInt8) : Bool := (char? b).any p

/-- The character that the next byte encodes by itself. -/
def peek (bs : List UInt8) : Option Char := bs.head?.bind char?

/-- One byte is enough for every character of the class. -/
def Narrow (p : Char → Bool) : Prop := ∀ c, p c = true → c.toNat < 128

theorem narrow_eq {c : Char} (h : c.toNat < 128) : Narrow (· == c) := by
  intro d hd
  rw [eq_of_beq hd]
  exact h

theorem Narrow.or {p q : Char → Bool} (hp : Narrow p) (hq : Narrow q) :
    Narrow fun c => p c || q c := by
  intro c hc
  rcases Bool.or_eq_true_iff.mp hc with hc | hc
  · exact hp c hc
  · exact hq c hc

theorem narrow_isSpace : Narrow isSpace := (narrow_eq (by decide)).or (narrow_eq (by decide))

theorem narrow_isBlank : Narrow isBlank :=
  (narrow_isSpace.or (narrow_eq (by decide))).or (narrow_eq (by decide))

theorem narrow_of_le {p : Char → Bool} {last : Char} (hlast : last.toNat < 128)
    (h : ∀ c, p c = true → c.val ≤ last.val) : Narrow p :=
  fun c hc => Nat.lt_of_le_of_lt (UInt32.le_iff_toNat_le.mp (h c hc)) hlast

theorem narrow_isDigit : Narrow Char.isDigit := by
  have hnine : ('9' : Char).toNat < 128 := by decide
  exact narrow_of_le hnine fun c hc => of_decide_eq_true (Bool.and_eq_true_iff.mp hc).2

theorem narrow_isUpper : Narrow Char.isUpper := by
  have hlast : ('Z' : Char).toNat < 128 := by decide
  exact narrow_of_le hlast fun c hc => (of_decide_eq_true hc).2

theorem narrow_isLower : Narrow Char.isLower := by
  have hlast : ('z' : Char).toNat < 128 := by decide
  exact narrow_of_le hlast fun c hc => of_decide_eq_true (Bool.and_eq_true_iff.mp hc).2

theorem narrow_isAlpha : Narrow Char.isAlpha := narrow_isUpper.or narrow_isLower

theorem narrow_isNameStart : Narrow isNameStart := narrow_isAlpha.or (narrow_eq (by decide))

theorem narrow_isNamePart : Narrow isNamePart :=
  (narrow_isAlpha.or narrow_isDigit).or (narrow_eq (by decide))

theorem utf8EncodeChar_of_lt {c : Char} (h : c.toNat < 128) :
    String.utf8EncodeChar c = [c.toUInt8] := by
  refine String.utf8EncodeChar_eq_singleton ?_
  rw [Char.utf8Size_eq_one_iff, UInt32.le_iff_toNat_le]
  exact Nat.le_of_lt_succ h

theorem utf8Size_of_lt {c : Char} (h : c.toNat < 128) : c.utf8Size = 1 := by
  rw [← String.length_utf8EncodeChar, utf8EncodeChar_of_lt h]
  rfl

theorem char?_toUInt8 {c : Char} (h : c.toNat < 128) : char? c.toUInt8 = some c := by
  have hbyte : c.toUInt8.toNat = c.toNat := by
    refine UInt32.toNat_toUInt8 c.val |>.trans (Nat.mod_eq_of_lt ?_)
    exact Nat.lt_trans h (by decide)
  have hlt : c.toUInt8 < 128 := by
    rw [UInt8.lt_iff_toNat_lt, hbyte]
    exact h
  rw [char?, if_pos hlt]
  refine congrArg some (Char.ext (UInt32.toNat_inj.mp ?_))
  exact (UInt8.toNat_toUInt32 _).trans hbyte

theorem char?_of_mem_utf8EncodeChar {c : Char} (h : ¬ c.toNat < 128) {b : UInt8}
    (hb : b ∈ String.utf8EncodeChar c) : char? b = none := by
  have hlarge : ∀ n, 128 ≤ n → n < 256 → char? (UInt8.ofNat n) = none := by
    intro n hlow hhigh
    rw [char?, if_neg]
    rw [UInt8.lt_iff_toNat_lt, UInt8.toNat_ofNat_of_lt' hhigh]
    exact Nat.not_lt.mpr hlow
  have hval : ¬ c.val.toNat ≤ 127 := fun hle => h (Nat.lt_succ_of_le hle)
  simp only [String.utf8EncodeChar, if_neg hval] at hb
  split_ifs at hb
  all_goals
    simp only [List.mem_cons, List.not_mem_nil, or_false] at hb
    rcases hb with rfl | rfl | rfl | rfl
    all_goals exact hlarge _ (by omega) (by omega)

theorem encode_cons (c : Char) (cs : List Char) :
    encode (c :: cs) = String.utf8EncodeChar c ++ encode cs := List.flatMap_cons

theorem encode_cons_of_lt {c : Char} (h : c.toNat < 128) (cs : List Char) :
    encode (c :: cs) = c.toUInt8 :: encode cs := by
  rw [encode_cons, utf8EncodeChar_of_lt h]
  rfl

@[simp] theorem encode_nil : encode [] = [] := rfl

@[simp] theorem encode_append (cs ds : List Char) : encode (cs ++ ds) = encode cs ++ encode ds :=
  List.flatMap_append

@[simp] theorem length_encode (cs : List Char) : (encode cs).length = byteLength cs := by
  induction cs with
  | nil => rfl
  | cons c cs ih => rw [encode_cons, List.length_append, String.length_utf8EncodeChar, ih]; rfl

theorem encode_eq_nil {cs : List Char} : encode cs = [] ↔ cs = [] := by
  refine ⟨fun h => ?_, by rintro rfl; rfl⟩
  cases cs with
  | nil => rfl
  | cons c cs =>
    rw [encode_cons] at h
    exact absurd (List.append_eq_nil_iff.mp h).1 String.utf8EncodeChar_ne_nil

/-- The bytes of a character that one byte is not enough for. -/
theorem exists_encode_of_wide {c : Char} (h : ¬ c.toNat < 128) : ∃ b bs,
    String.utf8EncodeChar c = b :: bs ∧ char? b = none ∧ ∀ b' ∈ bs, char? b' = none := by
  cases hbytes : String.utf8EncodeChar c with
  | nil => exact absurd hbytes String.utf8EncodeChar_ne_nil
  | cons b bs =>
    have hnone : ∀ b' ∈ b :: bs, char? b' = none := by
      intro b' hb'
      rw [← hbytes] at hb'
      exact char?_of_mem_utf8EncodeChar h hb'
    exact ⟨b, bs, rfl, List.forall_mem_cons.mp hnone⟩

/-- The first byte of a character tells it, if it is the only one. The others tell nothing. -/
theorem exists_encode (c : Char) : ∃ b bs, String.utf8EncodeChar c = b :: bs ∧
    char? b = (if c.toNat < 128 then some c else none) ∧ (∀ b' ∈ bs, char? b' = none) ∧
    c.utf8Size = bs.length + 1 := by
  have hlength := String.length_utf8EncodeChar c
  by_cases h : c.toNat < 128
  · rw [utf8EncodeChar_of_lt h] at hlength ⊢
    refine ⟨c.toUInt8, [], rfl, ?_, List.forall_mem_nil _, hlength.symm⟩
    rw [if_pos h, char?_toUInt8 h]
  · obtain ⟨b, bs, hbytes, hb, hbs⟩ := exists_encode_of_wide h
    rw [hbytes] at hlength
    refine ⟨b, bs, hbytes, ?_, hbs, hlength.symm⟩
    rw [if_neg h, hb]

/-- The next byte tells the next character, if one byte is enough for it. -/
theorem peek_encode (cs : List Char) :
    peek (encode cs) = cs.head?.filter fun c => decide (c.toNat < 128) := by
  cases cs with
  | nil => rfl
  | cons c cs =>
    by_cases h : c.toNat < 128
    · rw [encode_cons_of_lt h, List.head?_cons, Option.filter_some, if_pos (decide_eq_true h)]
      exact char?_toUInt8 h
    · obtain ⟨b, bs, hbytes, hb, -⟩ := exists_encode_of_wide h
      rw [encode_cons, hbytes, List.head?_cons, Option.filter_some, if_neg (by simpa using h)]
      exact hb

theorem peek_encode_eq_some {cs : List Char} {c : Char} (h : c.toNat < 128) :
    peek (encode cs) = some c ↔ cs.head? = some c := by
  rw [peek_encode, Option.filter_eq_some_iff]
  simp [h]

theorem holds_eq_false {p : Char → Bool} {b : UInt8} (h : char? b = none) : holds p b = false := by
  rw [holds, h]
  rfl

theorem holds_toUInt8 {c : Char} (h : c.toNat < 128) (p : Char → Bool) :
    holds p c.toUInt8 = p c := by
  rw [holds, char?_toUInt8 h]
  rfl

theorem Narrow.eq_false {p : Char → Bool} (hp : Narrow p) {c : Char} (h : ¬ c.toNat < 128) :
    p c = false :=
  Bool.eq_false_iff.mpr fun hc => h (hp c hc)

/-- Reading as long as the characters are in the class. -/
theorem takeWhile_encode {p : Char → Bool} (hp : Narrow p) (cs : List Char) :
    (encode cs).takeWhile (holds p) = encode (cs.takeWhile p) := by
  induction cs with
  | nil => rfl
  | cons c cs ih =>
    by_cases h : c.toNat < 128
    · rw [encode_cons_of_lt h, List.takeWhile_cons, List.takeWhile_cons, holds_toUInt8 h, ih]
      split_ifs
      · rw [encode_cons_of_lt h]
      · rfl
    · obtain ⟨b, bs, hbytes, hb, -⟩ := exists_encode_of_wide h
      rw [encode_cons, hbytes, List.cons_append,
        List.takeWhile_cons_of_neg (by simp [holds_eq_false hb]),
        List.takeWhile_cons_of_neg (by simp [hp.eq_false h])]
      rfl

/-- Reading up to a character of the class. -/
theorem takeWhile_not_encode {p : Char → Bool} (hp : Narrow p) (cs : List Char) :
    (encode cs).takeWhile (fun b => !holds p b) = encode (cs.takeWhile fun c => !p c) := by
  induction cs with
  | nil => rfl
  | cons c cs ih =>
    by_cases h : c.toNat < 128
    · rw [encode_cons_of_lt h, List.takeWhile_cons, List.takeWhile_cons, holds_toUInt8 h, ih]
      split_ifs
      · rw [encode_cons_of_lt h]
      · rfl
    · have hbytes : ∀ b ∈ String.utf8EncodeChar c, (!holds p b) = true := by
        intro b hb
        rw [holds_eq_false (char?_of_mem_utf8EncodeChar h hb)]
        rfl
      rw [encode_cons, List.takeWhile_append_of_pos hbytes, ih,
        List.takeWhile_cons_of_pos (by simp [hp.eq_false h]), encode_cons]

theorem drop_encode_append (front rest : List Char) :
    (encode (front ++ rest)).drop (byteLength front) = encode rest := by
  rw [encode_append, ← length_encode, List.drop_left]

/-- What is behind the bytes of the first characters. -/
theorem drop_encode_take (n : Nat) (cs : List Char) :
    (encode cs).drop (byteLength (cs.take n)) = encode (cs.drop n) := by
  have hdrop := drop_encode_append (cs.take n) (cs.drop n)
  rwa [List.take_append_drop] at hdrop

/-- The text between two bytes, if both are places between characters and in order. -/
def slice? (text : String) (start stop : Nat) : Option String :=
  if h : start ≤ stop ∧
      String.Pos.Raw.IsValid text ⟨start⟩ ∧ String.Pos.Raw.IsValid text ⟨stop⟩ then
    some (text.extract ⟨⟨start⟩, h.2.1⟩ ⟨⟨stop⟩, h.2.2⟩)
  else none

theorem isValid_byteLength {text : String} {front rest : List Char}
    (h : text.toList = front ++ rest) : String.Pos.Raw.IsValid text ⟨byteLength front⟩ := by
  rw [String.Pos.Raw.isValid_iff_exists_append]
  refine ⟨String.ofList front, String.ofList rest, ?_, ?_⟩
  · rw [← String.ofList_append, ← h, String.ofList_toList]
  · rw [String.Pos.Raw.ext_iff]
    exact (utf8ByteSize_ofList front).symm

theorem slice?_eq_some {text : String} {before middle after : List Char}
    (h : text.toList = before ++ (middle ++ after)) :
    slice? text (byteLength before) (byteLength before + byteLength middle) =
      some (String.ofList middle) := by
  have hstart := isValid_byteLength h
  have hstop : String.Pos.Raw.IsValid text ⟨byteLength before + byteLength middle⟩ := by
    rw [← byteLength_append]
    exact isValid_byteLength (by rw [h, List.append_assoc])
  have hvalid := And.intro (Nat.le_add_right (byteLength before) (byteLength middle))
    (And.intro hstart hstop)
  rw [slice?, dif_pos hvalid]
  refine congrArg some (String.toByteArray_inj.mp ?_)
  have htext : text = String.ofList before ++ (String.ofList middle ++ String.ofList after) := by
    rw [← String.ofList_append, ← String.ofList_append, ← h, String.ofList_toList]
  have hsize : ∀ cs : List Char, byteLength cs = (String.ofList cs).toByteArray.size := by
    intro cs
    rw [String.size_toByteArray, utf8ByteSize_ofList]
  rw [String.toByteArray_extract]
  dsimp only
  rw [htext, String.toByteArray_append, String.toByteArray_append]
  have hskip := ByteArray.extract_append_size_add' (i := 0) (j := byteLength middle)
    (b := (String.ofList middle).toByteArray ++ (String.ofList after).toByteArray) (hsize before)
  rw [Nat.add_zero] at hskip
  rw [hskip, ByteArray.extract_append_eq_left (hsize middle)]

example : slice? "aé" 1 2 = none ∧ slice? "aé" 1 3 = some "é" := by decide

end Scriptwright.Bytes
