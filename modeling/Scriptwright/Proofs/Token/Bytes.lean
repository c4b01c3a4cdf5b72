import Scriptwright.Proofs.Token.Encoding
import Scriptwright.Proofs.Token.Fault

/-!
# Scanning byte by byte

The scanner below goes through the bytes of a text. It never asks where a character begins:
it moves on by one byte, also inside of a character, and a backslash in a text escapes the
one byte behind it. What it finds it takes from the text as a slice. If a slice were to cut
a character, then the scanner would have no answer.

It always has one, which is that of the scanner that goes through the characters. The
bytes at which it takes a slice either encode a character by themselves or stand behind one.
-/

namespace Scriptwright.Bytes
open Scriptwright.Scan

/-- An answer of the scanner, or none where a slice would cut a character. -/
abbrev Sliced (α : Type) : Type := ExceptT ScanError Option α

def answer {α : Type} (result : Except ScanError α) : Sliced α := ExceptT.mk (some result)

def slice (text : String) (start stop : Nat) : Sliced String :=
  ExceptT.mk ((slice? text start stop).map .ok)

/-- The bytes of the name at the front; none if there is no name. -/
def leadingName (bs : List UInt8) : List UInt8 :=
  if (peek bs).any isNameStart then bs.takeWhile (holds isNamePart) else []

/-- How many bytes come before the quote that closes a text. A backslash escapes one byte. -/
def quoted? : List UInt8 → Option Nat
  | [] => none
  | b :: bs =>
    if char? b = some '"' then some 0
    else if char? b = some '\\' then
      match bs with
      | [] => none
      | _ :: bs => (quoted? bs).map (· + 2)
    else (quoted? bs).map (· + 1)

/-- The digits behind a decimal point. -/
def fraction (bs : List UInt8) : List UInt8 :=
  if peek bs = some '.' then (bs.drop 1).takeWhile (holds Char.isDigit) else []

/-- How many bytes behind its first digit a number takes. -/
def numberLength (bs : List UInt8) : Nat :=
  let whole := bs.takeWhile (holds Char.isDigit)
  let places := fraction (bs.drop whole.length)
  whole.length + if places = [] then 0 else places.length + 1

/-- The number that a slice spells. -/
def decimal (spelling : String) : Binary64 :=
  match spelling.toList with
  | [] => .ofDecimal 0 0
  | c :: cs => (number c cs).1

/-- A name in braces, behind the brace at byte `opening`, and how many bytes it takes. -/
def interpolation (text : String) (file opening : Nat) (bs : List UInt8) :
    Sliced (Segment × Nat) :=
  let before := bs.takeWhile (holds isSpace)
  let name := leadingName (bs.drop before.length)
  let start := opening + 1 + before.length
  let stop := start + name.length
  if name = [] then throw ⟨.missingName, ⟨file, opening, start⟩⟩
  else
    let taken := before.length + name.length
    let after := (bs.drop taken).takeWhile (holds isSpace)
    if peek (bs.drop (taken + after.length)) = some '}' then do
      let identifier ← slice text start stop
      return (.name identifier ⟨file, start, stop⟩, taken + after.length + 1)
    else throw ⟨.missingBrace, ⟨file, opening, stop + after.length⟩⟩

/-- The characters that end a text in a template. -/
def endsContent (c : Char) : Bool := c == '`' || c == '{'

def textSegment (text : String) (start stop : Nat) : Sliced (List Segment) :=
  if start < stop then do return [.text (← slice text start stop)] else return []

/-- The segments of a template from byte `offset` on, and how many bytes they take with the
backtick that closes it. -/
def templateSegments (text : String) (file opening offset : Nat) (bs : List UInt8) :
    Sliced (List Segment × Nat) :=
  let content := bs.takeWhile fun b => !holds endsContent b
  let brace := offset + content.length
  match _h : bs.drop content.length with
  | [] => throw ⟨.unterminatedTemplate, ⟨file, opening, offset + bs.length⟩⟩
  | b :: inner => do
    let front ← textSegment text offset brace
    if char? b = some '{' then
      let (segment, n) ← interpolation text file brace inner
      let (segments, m) ← templateSegments text file opening (brace + 1 + n) (inner.drop n)
      return (front ++ segment :: segments, content.length + 1 + n + m)
    else return (front, content.length + 1)
termination_by bs.length
decreasing_by
  have := congrArg List.length _h
  simp only [List.length_drop, List.length_cons] at this ⊢
  omega

/-- The report of the character at byte `start`, which is the first of the rest of the text. -/
def unexpected {α : Type} (text : String) (file start : Nat) : Sliced α := do
  let rest ← slice text start text.utf8ByteSize
  let c := rest.toList.head?.getD '\uFFFD'
  throw ⟨.unexpectedCharacter c, ⟨file, start, start + c.utf8Size⟩⟩

/-- The lexeme that begins with the byte `b` at `start`, and how many bytes behind it
belong to it. -/
def lexeme (text : String) (file start : Nat) (b : UInt8) (bs : List UInt8) :
    Sliced (Kind × Value × Nat) :=
  match char? b with
  | none => unexpected text file start
  | some c =>
    if c = '"' then
      match quoted? bs with
      | some n => do
        let content ← slice text (start + 1) (start + 1 + n)
        return (.text, .text content, n + 1)
      | none => throw ⟨.unterminatedText, ⟨file, start, start + 1 + bs.length⟩⟩
    else if c = '`' then do
      let (segments, n) ← templateSegments text file start (start + 1) bs
      return (.template, .template (if segments = [] then [.text ""] else segments), n)
    else if c.isDigit then do
      let n := numberLength bs
      let spelling ← slice text start (start + 1 + n)
      return (.number, .number (decimal spelling), n)
    else if isNameStart c then do
      let n := (bs.takeWhile (holds isNamePart)).length
      let spelling ← slice text start (start + 1 + n)
      let kind := match Keyword.ofSpelling? spelling with
        | some word => .keyword word
        | none => .identifier
      return (kind, .none, n)
    else
      match symbol? c (peek bs).toList with
      | some (kind, n) => return (kind, .none, n)
      | none => unexpected text file start

/-- The tokens of the bytes from `offset` on. -/
def tokens (text : String) (file offset : Nat) (bs : List UInt8) : Sliced (List Token) :=
  match bs with
  | [] => return [.finish file offset]
  | b :: bs =>
    if holds isBlank b then tokens text file (offset + 1) bs
    else if char? b = some '/' ∧ peek bs = some '/' then
      let comment := bs.takeWhile fun b => !holds (· == '\n') b
      tokens text file (offset + 1 + comment.length) (bs.drop comment.length)
    else do
      let (kind, value, n) ← lexeme text file offset b bs
      let stop := offset + 1 + n
      let spelling ← slice text offset stop
      let later ← tokens text file stop (bs.drop n)
      return ⟨kind, spelling, value, ⟨file, offset, stop⟩⟩ :: later
termination_by bs.length
decreasing_by all_goals simp only [List.length_drop, List.length_cons]; omega

/-- The tokens of a text or its first fault, read from its bytes. -/
def scan (file : Nat) (text : String) : Option (Except ScanError (List Token)) :=
  (tokens text file 0 text.toByteArray.data.toList).run

theorem bind_answer_ok {α β : Type} (a : α) (f : α → Sliced β) : answer (.ok a) >>= f = f a := rfl

theorem slice_eq {text : String} {before middle after : List Char} {start stop : Nat}
    (h : text.toList = before ++ (middle ++ after)) (hstart : start = byteLength before)
    (hstop : stop = start + byteLength middle) :
    slice text start stop = answer (.ok (String.ofList middle)) := by
  subst hstart hstop
  rw [slice, slice?_eq_some h]
  rfl

theorem leadingName_encode (cs : List Char) :
    leadingName (encode cs) = encode (Scan.leadingName cs) := by
  have hpeek : (peek (encode cs)).any isNameStart = cs.head?.any isNameStart := by
    rw [peek_encode]
    cases cs with
    | nil => rfl
    | cons c cs =>
      by_cases h : c.toNat < 128
      · simp [h]
      · simp [h, narrow_isNameStart.eq_false h]
  rw [leadingName, hpeek, takeWhile_encode narrow_isNamePart]
  cases cs with
  | nil => rfl
  | cons c cs =>
    rw [Scan.leadingName, List.head?_cons, Option.any_some]
    split_ifs <;> rfl

theorem quoted?_cons (b : UInt8) (bs : List UInt8) :
    quoted? (b :: bs) =
      if char? b = some '"' then some 0
      else if char? b = some '\\' then
        if bs = [] then none else (quoted? (bs.drop 1)).map (· + 2)
      else (quoted? bs).map (· + 1) := by
  cases bs with
  | nil => rw [quoted?.eq_def]; rfl
  | cons next bs => rw [quoted?.eq_def]; rfl

/-- Bytes that encode no character by themselves are passed over. -/
theorem quoted?_append {xs : List UInt8} (h : ∀ b ∈ xs, char? b = none) (bs : List UInt8) :
    quoted? (xs ++ bs) = (quoted? bs).map (· + xs.length) := by
  induction xs with
  | nil => simp
  | cons b xs ih =>
    obtain ⟨hb, hxs⟩ := List.forall_mem_cons.mp h
    rw [List.cons_append, quoted?_cons, hb, if_neg (Option.some_ne_none _).symm,
      if_neg (Option.some_ne_none _).symm, ih hxs, Option.map_map]
    rfl

theorem quoted?_encode_plain {c : Char} (hquote : c ≠ '"') (hslash : c ≠ '\\') (cs : List Char) :
    quoted? (encode (c :: cs)) = (quoted? (encode cs)).map (c.utf8Size + ·) := by
  obtain ⟨b, bs, hbytes, hb, hbs, hsize⟩ := exists_encode c
  have hplain : ∀ d, c ≠ d → char? b ≠ some d := by
    intro d hd hchar
    rw [hb] at hchar
    split_ifs at hchar
    exact hd (Option.some.inj hchar)
  rw [encode_cons, hbytes, List.cons_append, quoted?_cons, if_neg (hplain _ hquote),
    if_neg (hplain _ hslash), quoted?_append hbs, Option.map_map]
  congr 1
  funext size
  simp only [Function.comp_apply]
  omega

/-- A backslash escapes the first byte of a character. The others cannot close the text. -/
theorem quoted?_encode_escaped (c : Char) (cs : List Char) :
    quoted? (encode ('\\' :: c :: cs)) =
      (quoted? (encode cs)).map fun size => 1 + (c.utf8Size + size) := by
  have hbackslash : ('\\' : Char).toNat < 128 := by decide
  obtain ⟨b, bs, hbytes, -, hbs, hsize⟩ := exists_encode c
  rw [encode_cons_of_lt hbackslash, quoted?_cons, char?_toUInt8 hbackslash, if_neg (by decide),
    if_pos rfl, encode_cons, hbytes, List.cons_append, if_neg (List.cons_ne_nil _ _),
    List.drop_succ_cons, List.drop_zero, quoted?_append hbs, Option.map_map]
  congr 1
  funext size
  simp only [Function.comp_apply]
  omega

theorem quoted?_encode (cs : List Char) :
    quoted? (encode cs) = (Scan.quoted? cs).map byteLength := by
  fun_induction Scan.quoted? cs with
  | case1 => rfl
  | case2 cs =>
    rw [encode_cons_of_lt (by decide), quoted?_cons, char?_toUInt8 (by decide), if_pos rfl]
    rfl
  | case3 c cs ih =>
    rw [quoted?_encode_escaped, ih, Option.map_map, Option.map_map]
    rfl
  | case4 c cs hquote hslash ih =>
    by_cases hc : c = '\\'
    · -- A backslash that no character follows.
      subst hc
      cases cs with
      | nil => rfl
      | cons d ds => exact absurd rfl (hslash d ds rfl)
    · rw [quoted?_encode_plain hquote hc, ih, Option.map_map, Option.map_map]
      rfl

theorem fraction_encode (cs : List Char) : fraction (encode cs) = encode (Scan.fraction cs) := by
  have hpoint : ('.' : Char).toNat < 128 := by decide
  unfold Scan.fraction
  split
  case h_1 ds =>
    rw [fraction, if_pos ((peek_encode_eq_some hpoint).mpr rfl), encode_cons_of_lt hpoint,
      List.drop_succ_cons, List.drop_zero, takeWhile_encode narrow_isDigit]
  case h_2 hcs =>
    rw [fraction, if_neg]
    · rfl
    · rw [peek_encode_eq_some hpoint, List.head?_eq_some_iff]
      rintro ⟨ds, rfl⟩
      exact hcs ds rfl

section
variable (c : Char) (more : Lexicon.Run Char.isDigit)

theorem number_encode_whole {rest cs : List Char} (h : EndsNumber rest)
    (hcs : cs = more.val ++ rest) :
    numberLength (encode cs) = byteLength (cs.take (number c cs).2) ∧
      decimal (String.ofList (c :: cs.take (number c cs).2)) = (number c cs).1 := by
  subst hcs
  -- The slice ends behind the number, which the characters behind it have no part in.
  have hvalue := number_whole c more.property endsNumber_nil
  rw [List.append_nil] at hvalue
  rw [number_whole c more.property h, List.take_left]
  refine ⟨?_, ?_⟩
  · rw [numberLength, takeWhile_encode narrow_isDigit, more.takeWhile h.1, length_encode,
      drop_encode_append, fraction_encode, h.2]
    rfl
  · rw [decimal, String.toList_ofList]
    exact congrArg Prod.fst hvalue

theorem number_encode_fraction {places rest cs : List Char}
    (hplaces : ∀ d ∈ places, d.isDigit = true) (hne : places ≠ [])
    (hrest : Stops Char.isDigit rest)
    (hcs : cs = more.val ++ '.' :: (places ++ rest)) :
    numberLength (encode cs) = byteLength (cs.take (number c cs).2) ∧
      decimal (String.ofList (c :: cs.take (number c cs).2)) = (number c cs).1 := by
  subst hcs
  have hpoint : Stops Char.isDigit ('.' :: (places ++ rest)) := Lexicon.stops_cons rfl _
  have hfraction : Scan.fraction ('.' :: (places ++ rest)) = places :=
    takeWhile_of_stops hplaces hrest
  have hend : Stops Char.isDigit [] := nofun
  have hvalue := number_fraction c more.property hplaces hne hend
  rw [List.append_nil] at hvalue
  have htake : (more.val ++ '.' :: (places ++ rest)).take
      (more.val.length + (places.length + 1)) = more.val ++ '.' :: places := by
    rw [List.take_length_add_append, List.take_succ_cons, List.take_left]
  rw [number_fraction c more.property hplaces hne hrest, htake]
  refine ⟨?_, ?_⟩
  · have hone : ('.' : Char).utf8Size = 1 := by decide
    rw [numberLength, takeWhile_encode narrow_isDigit, more.takeWhile hpoint, length_encode,
      drop_encode_append, fraction_encode, hfraction, if_neg (mt encode_eq_nil.mp hne),
      length_encode, byteLength_append, byteLength_cons, hone, Nat.add_comm 1]
  · rw [decimal, String.toList_ofList]
    exact congrArg Prod.fst hvalue

end

/-- How far a number goes, and its value from these characters alone. -/
theorem number_encode (c : Char) (cs : List Char) :
    numberLength (encode cs) = byteLength (cs.take (number c cs).2) ∧
      decimal (String.ofList (c :: cs.take (number c cs).2)) = (number c cs).1 := by
  obtain ⟨more, rest, rfl, hrest | ⟨place, places, after, rfl, hafter⟩⟩ := Lexicon.exists_number cs
  · exact number_encode_whole c more hrest rfl
  · have hplaces : ∀ d ∈ place.val :: places.val, d.isDigit = true :=
      List.forall_mem_cons.mpr ⟨place.property, places.property⟩
    exact number_encode_fraction c more hplaces (List.cons_ne_nil _ _) hafter rfl

theorem symbol?_encode (c : Char) (cs : List Char) :
    symbol? c (peek (encode cs)).toList = symbol? c cs := by
  have hbracket : ((peek (encode cs)).toList.head? = some ']') = (cs.head? = some ']') := by
    rw [Option.head?_toList, peek_encode_eq_some (by decide)]
  have hequal : ((peek (encode cs)).toList.head? = some '=') = (cs.head? = some '=') := by
    rw [Option.head?_toList, peek_encode_eq_some (by decide)]
  simp only [symbol?, hbracket, hequal]

theorem interpolation_eq {text : String} {front cs : List Char} (file : Nat)
    (h : text.toList = front ++ '{' :: cs) :
    interpolation text file (byteLength front) (encode cs) =
      answer ((Scan.interpolation file (byteLength front) cs).map fun found =>
        (found.1, byteLength (cs.take found.2))) := by
  have hclosing : ('}' : Char).toNat < 128 := by decide
  obtain ⟨before, name, after, tail, hcs⟩ := exists_braced cs
  rw [interpolation_braced hcs]
  obtain ⟨rfl, hbefore, hname, hafter⟩ := hcs
  simp only [interpolation, takeWhile_encode narrow_isSpace, before.takeWhile hbefore,
    length_encode, drop_encode_append, leadingName_encode, hname, encode_eq_nil,
    ← List.drop_drop, after.takeWhile hafter, peek_encode_eq_some hclosing]
  split_ifs with hnone hbrace
  · rfl
  · obtain ⟨tail, rfl⟩ := List.head?_eq_some_iff.mp hbrace
    have hone : ('{' : Char).utf8Size = 1 ∧ ('}' : Char).utf8Size = 1 := by decide
    have htext : text.toList =
        (front ++ '{' :: before.val) ++ (name ++ (after.val ++ '}' :: tail)) := by
      rw [h, List.append_assoc, List.cons_append]
    have hstart : byteLength front + 1 + byteLength before.val =
        byteLength (front ++ '{' :: before.val) := by
      rw [byteLength_append, byteLength_cons, hone.1, Nat.add_assoc]
    have htake : (before.val ++ (name ++ (after.val ++ '}' :: tail))).take
        (before.val.length + name.length + after.val.length + 1) =
          before.val ++ (name ++ (after.val ++ ['}'])) := by
      rw [Nat.add_assoc, Nat.add_assoc, List.take_length_add_append,
        List.take_length_add_append, List.take_length_add_append]
      rfl
    have hlength : byteLength before.val + byteLength name + byteLength after.val + 1 =
        byteLength (before.val ++ (name ++ (after.val ++ ['}']))) := by
      simp only [byteLength_append, byteLength_cons, byteLength_nil, hone.2, Nat.add_assoc]
    rw [slice_eq htext hstart rfl, hlength]
    dsimp only [Except.map]
    rw [htake]
    rfl
  · rfl

theorem isTemplateText_eq : isTemplateText = fun c => !endsContent c := by
  funext c
  exact (Bool.not_or _ _).symm

theorem narrow_endsContent : Narrow endsContent :=
  (narrow_eq (by decide)).or (narrow_eq (by decide))

theorem byteLength_pos {cs : List Char} (h : cs ≠ []) : 0 < byteLength cs := by
  cases cs with
  | nil => exact absurd rfl h
  | cons c cs => exact Nat.add_pos_left c.utf8Size_pos _

theorem textSegment_eq {text : String} {front content rest : List Char}
    (h : text.toList = front ++ (content ++ rest)) :
    textSegment text (byteLength front) (byteLength front + byteLength content) =
      answer (.ok (Scan.textSegment content)) := by
  unfold textSegment Scan.textSegment
  by_cases hcontent : content = []
  · subst hcontent
    rw [byteLength_nil, Nat.add_zero, if_neg (Nat.lt_irrefl _), if_pos rfl]
    rfl
  · rw [if_pos (Nat.lt_add_of_pos_right (byteLength_pos hcontent)), if_neg hcontent,
      slice_eq h rfl rfl]
    rfl

section
variable {text : String} {file opening offset : Nat} {bs content inner : List UInt8}
  (hcontent : bs.takeWhile (fun b => !holds endsContent b) = content)
include hcontent

theorem templateSegments_cons {b : UInt8} (h : bs.drop content.length = b :: inner) :
    templateSegments text file opening offset bs = do
      let front ← textSegment text offset (offset + content.length)
      if char? b = some '{' then
        let (segment, n) ← interpolation text file (offset + content.length) inner
        let (segments, m) ←
          templateSegments text file opening (offset + content.length + 1 + n) (inner.drop n)
        return (front ++ segment :: segments, content.length + 1 + n + m)
      else return (front, content.length + 1) := by
  subst hcontent
  rw [templateSegments]
  split
  case h_1 h' => cases h.symm.trans h'
  case h_2 h' =>
    cases h.symm.trans h'
    rfl

theorem templateSegments_nil (h : bs.drop content.length = []) :
    templateSegments text file opening offset bs =
      throw ⟨.unterminatedTemplate, ⟨file, opening, offset + bs.length⟩⟩ := by
  subst hcontent
  rw [templateSegments]
  split
  case h_1 => rfl
  case h_2 h' => cases h.symm.trans h'

end

theorem byteLength_take_add (n m : Nat) (cs : List Char) :
    byteLength (cs.take (n + m)) = byteLength (cs.take n) + byteLength ((cs.drop n).take m) := by
  rw [List.take_add, byteLength_append]

/-- An interpolation behind a text is read if all behind it is. -/
theorem templateSegments_eq_brace {text : String} {front inner : List Char} (file opening : Nat)
    {content : Lexicon.Run isTemplateText}
    (h : text.toList = front ++ content.val ++ '{' :: inner)
    (hlater : ∀ n, templateSegments text file opening
        (byteLength front + byteLength content.val + 1 + byteLength (inner.take n))
        (encode (inner.drop n)) =
      answer ((Scan.templateSegments file opening
        (byteLength front + byteLength content.val + 1 + byteLength (inner.take n))
        (inner.drop n)).map fun found => (found.1, byteLength ((inner.drop n).take found.2)))) :
    (do
      let (segment, n) ←
        interpolation text file (byteLength front + byteLength content.val) (encode inner)
      let (segments, m) ← templateSegments text file opening
        (byteLength front + byteLength content.val + 1 + n) ((encode inner).drop n)
      return (Scan.textSegment content.val ++ segment :: segments,
        byteLength content.val + 1 + n + m)) =
      answer ((Scan.templateSegments file opening (byteLength front)
        (content.val ++ '{' :: inner)).map fun found =>
          (found.1, byteLength ((content.val ++ '{' :: inner).take found.2))) := by
  have hstops : Stops isTemplateText ('{' :: inner) := Lexicon.stops_cons rfl inner
  have hone : ('{' : Char).utf8Size = 1 := by decide
  have hfound := interpolation_eq file h
  rw [byteLength_append] at hfound
  rw [hfound, templateSegments_brace (drop_content content hstops), content.takeWhile hstops]
  dsimp only
  cases Scan.interpolation file (byteLength front + byteLength content.val) inner with
  | error e => rfl
  | ok found =>
    obtain ⟨segment, n⟩ := found
    dsimp only [Except.map]
    rw [bind_answer_ok]
    dsimp only
    rw [drop_encode_take, hlater]
    change _ = answer (Except.map _ (Scan.templateSegments file opening _ (inner.drop n) >>= _))
    cases Scan.templateSegments file opening
      (byteLength front + byteLength content.val + 1 + byteLength (inner.take n))
      (inner.drop n) with
    | error e => rfl
    | ok later =>
      obtain ⟨segments, m⟩ := later
      have hlength : byteLength ((content.val ++ '{' :: inner).take
          (content.val.length + 1 + n + m)) =
            byteLength content.val + 1 + byteLength (inner.take n) +
              byteLength ((inner.drop n).take m) := by
        rw [Nat.add_assoc, Nat.add_assoc, List.take_length_add_append, byteLength_append,
          Nat.add_comm 1, List.take_succ_cons, byteLength_cons, hone, byteLength_take_add]
        omega
      exact congrArg (fun size => answer (.ok (_, size))) hlength.symm

theorem templateSegments_eq {text : String} {front cs : List Char} (file opening : Nat)
    (h : text.toList = front ++ cs) :
    templateSegments text file opening (byteLength front) (encode cs) =
      answer ((Scan.templateSegments file opening (byteLength front) cs).map fun found =>
        (found.1, byteLength (cs.take found.2))) := by
  induction hsize : cs.length using Nat.strong_induction_on generalizing front cs with
  | h size ih =>
  -- A round takes a text and an interpolation, so what is left gets shorter.
  obtain ⟨content, rest, rfl, hrest⟩ := Lexicon.exists_run isTemplateText cs
  have hcontent : (encode (content.val ++ rest)).takeWhile (fun b => !holds endsContent b) =
      encode content.val := by
    rw [takeWhile_not_encode narrow_endsContent, ← isTemplateText_eq, content.takeWhile hrest]
  have hbehind := drop_content content hrest
  cases rest with
  | nil =>
    rw [templateSegments_nil hcontent (by rw [length_encode, drop_encode_append]; rfl),
      templateSegments_end (by rw [hbehind]; nofun) (by rw [hbehind]; nofun), length_encode]
    rfl
  | cons c inner =>
    have hc := eq_brace_or_backtick hrest
    have hnarrow : c.toNat < 128 := by rcases hc with rfl | rfl <;> decide
    have hdrop : (encode (content.val ++ c :: inner)).drop (encode content.val).length =
        c.toUInt8 :: encode inner := by
      rw [length_encode, drop_encode_append, encode_cons_of_lt hnarrow]
    rw [templateSegments_cons hcontent hdrop, length_encode, char?_toUInt8 hnarrow,
      textSegment_eq h, bind_answer_ok]
    rcases hc with rfl | rfl
    · rw [if_pos rfl]
      refine templateSegments_eq_brace file opening (by rw [h, List.append_assoc]) fun n => ?_
      have hone : ('{' : Char).utf8Size = 1 := by decide
      have hresume : text.toList =
          (front ++ content.val ++ '{' :: inner.take n) ++ inner.drop n := by
        rw [h, List.append_assoc _ ('{' :: _), List.cons_append, List.take_append_drop,
          List.append_assoc]
      have hshorter : (inner.drop n).length < size := by
        rw [← hsize, List.length_append, List.length_cons, List.length_drop]
        omega
      have hlater := ih _ hshorter hresume rfl
      rw [byteLength_append, byteLength_append, byteLength_cons, hone, ← Nat.add_assoc] at hlater
      exact hlater
    · have htake : (content.val ++ '`' :: inner).take (content.val.length + 1) =
          content.val ++ ['`'] := by
        rw [List.take_length_add_append]
        rfl
      rw [templateSegments_backtick hbehind, content.takeWhile hrest, if_neg (by decide)]
      dsimp only [Except.map]
      rw [htake, byteLength_append]
      rfl

theorem symbol?_narrow {c : Char} {cs : List Char} {kind : Kind} {n : Nat}
    (h : symbol? c cs = some (kind, n)) : c.toNat < 128 ∧ byteLength (cs.take n) = n := by
  unfold symbol? at h
  dsimp only at h
  split at h
  all_goals (try split at h)
  all_goals cases h
  all_goals first
    | exact ⟨by decide, rfl⟩
    | obtain ⟨ds, rfl⟩ := List.head?_eq_some_iff.mp ‹_›
      exact ⟨by decide, rfl⟩

theorem unexpected_eq {α : Type} {text : String} {front cs : List Char} {c : Char} (file : Nat)
    (h : text.toList = front ++ c :: cs) :
    (unexpected text file (byteLength front) : Sliced α) =
      answer (.error ⟨.unexpectedCharacter c,
        ⟨file, byteLength front, byteLength front + c.utf8Size⟩⟩) := by
  have hrest : text.toList = front ++ ((c :: cs) ++ []) := by rw [h, List.append_nil]
  have hsize : text.utf8ByteSize = byteLength front + byteLength (c :: cs) := by
    rw [← byteLength_append, ← h, ← utf8ByteSize_ofList, String.ofList_toList]
  rw [unexpected, slice_eq hrest rfl hsize, bind_answer_ok, String.toList_ofList]
  rfl

/-- No lexeme begins with a character that one byte is not enough for. -/
theorem lexeme_of_wide {c : Char} (h : ¬ c.toNat < 128) (file offset : Nat) (cs : List Char) :
    Scan.lexeme file offset c cs =
      .error ⟨.unexpectedCharacter c, ⟨file, offset, offset + c.utf8Size⟩⟩ := by
  have hquote : c ≠ '"' := by
    rintro rfl
    exact h (by decide)
  have htick : c ≠ '`' := by
    rintro rfl
    exact h (by decide)
  have hsymbol : symbol? c cs = none := by
    cases hc : symbol? c cs with
    | none => rfl
    | some found => exact absurd (symbol?_narrow hc).1 h
  rw [Scan.lexeme, if_neg hquote, if_neg htick, if_neg (by simp [narrow_isDigit.eq_false h]),
    if_neg (by simp [narrow_isNameStart.eq_false h]), hsymbol]

theorem slice_lexeme {text : String} {front cs : List Char} {c : Char}
    (h : text.toList = front ++ c :: cs) (hc : c.toNat < 128) (n : Nat) :
    slice text (byteLength front) (byteLength front + 1 + byteLength (cs.take n)) =
      answer (.ok (String.ofList (c :: cs.take n))) := by
  have htext : text.toList = front ++ ((c :: cs.take n) ++ cs.drop n) := by
    rw [h, List.cons_append, List.take_append_drop]
  refine slice_eq htext rfl ?_
  rw [byteLength_cons, utf8Size_of_lt hc, Nat.add_assoc]

theorem lexeme_eq {text : String} {front cs : List Char} {c : Char} (file : Nat)
    (h : text.toList = front ++ c :: cs) (hc : c.toNat < 128) :
    lexeme text file (byteLength front) c.toUInt8 (encode cs) =
      answer ((Scan.lexeme file (byteLength front) c cs).map fun found =>
        (found.1, found.2.1, byteLength (cs.take found.2.2))) := by
  have hfirst : byteLength front + 1 = byteLength (front ++ [c]) := by
    rw [byteLength_append, byteLength_cons, utf8Size_of_lt hc]
    rfl
  have hbehind : text.toList = (front ++ [c]) ++ cs := by
    rw [h, List.append_assoc]
    rfl
  rw [lexeme, char?_toUInt8 hc, Scan.lexeme]
  dsimp only
  split_ifs with hquote htick hdigit hname
  · rw [quoted?_encode]
    cases hquoted : Scan.quoted? cs with
    | none =>
      rw [length_encode, byteLength_cons, utf8Size_of_lt hc, ← Nat.add_assoc]
      rfl
    | some content =>
      obtain ⟨-, rest, -, rfl⟩ := Lexicon.quoted?_sound hquoted
      have htake : (content ++ '"' :: rest).take (content.length + 1) = content ++ ['"'] := by
        rw [List.take_length_add_append]
        rfl
      dsimp only [Option.map, Except.map]
      rw [slice_eq hbehind hfirst rfl, bind_answer_ok, htake, byteLength_append]
      rfl
  · rw [hfirst, templateSegments_eq file _ hbehind]
    cases Scan.templateSegments file (byteLength front) (byteLength (front ++ [c])) cs <;> rfl
  · obtain ⟨hlength, hvalue⟩ := number_encode c cs
    rw [hlength, slice_lexeme h hc, bind_answer_ok, hvalue]
    rfl
  · have hspelling := slice_lexeme h hc (cs.takeWhile isNamePart).length
    rw [take_length_takeWhile] at hspelling
    dsimp only [Except.map]
    rw [takeWhile_encode narrow_isNamePart, length_encode, hspelling, bind_answer_ok,
      take_length_takeWhile]
    rfl
  · rw [symbol?_encode]
    cases hsymbol : symbol? c cs with
    | none => exact unexpected_eq file h
    | some found =>
      dsimp only [Except.map]
      rw [(symbol?_narrow hsymbol).2]
      rfl

theorem tokens_wide {text : String} {front cs : List Char} {c : Char} (file : Nat)
    (h : text.toList = front ++ c :: cs) (hc : ¬ c.toNat < 128) :
    tokens text file (byteLength front) (encode (c :: cs)) =
      answer (Scan.tokens file (byteLength front) (c :: cs)) := by
  -- No test holds for the first byte, and the rest of the text begins with the character.
  obtain ⟨b, bs, hbytes, hb, -⟩ := exists_encode_of_wide hc
  have hcomment : ¬ (c = '/' ∧ cs.head? = some '/') := by
    rintro ⟨rfl, -⟩
    exact hc (by decide)
  rw [tokens_lexeme (by simp [narrow_isBlank.eq_false hc]) hcomment, lexeme_of_wide hc,
    encode_cons, hbytes, List.cons_append, tokens, holds_eq_false hb, if_neg Bool.false_ne_true, hb,
    if_neg (by simp), lexeme, hb]
  dsimp only
  rw [unexpected_eq file h]
  rfl

/-- A character that one byte is enough for is read if all behind it is. -/
theorem tokens_narrow {text : String} {front cs : List Char} {c : Char} (file : Nat)
    (h : text.toList = front ++ c :: cs) (hc : c.toNat < 128)
    (hlater : ∀ n,
      tokens text file (byteLength front + 1 + byteLength (cs.take n)) (encode (cs.drop n)) =
        answer (Scan.tokens file (byteLength front + 1 + byteLength (cs.take n)) (cs.drop n))) :
    tokens text file (byteLength front) (encode (c :: cs)) =
      answer (Scan.tokens file (byteLength front) (c :: cs)) := by
  have hsize : ∀ ds, byteLength front + byteLength (c :: ds) =
      byteLength front + 1 + byteLength ds := by
    intro ds
    rw [byteLength_cons, utf8Size_of_lt hc, Nat.add_assoc]
  have hslash : ('/' : Char).toNat < 128 := by decide
  rw [encode_cons_of_lt hc, tokens, holds_toUInt8 hc, char?_toUInt8 hc]
  simp only [peek_encode_eq_some hslash, Option.some_inj]
  split_ifs with hblank hcomment
  · rw [tokens_blank hblank, utf8Size_of_lt hc]
    exact hlater 0
  · have hnewline : Narrow (· == '\n') := narrow_eq (by decide)
    have hline := hlater (cs.takeWhile (· != '\n')).length
    rw [← drop_encode_take, take_length_takeWhile] at hline
    rw [tokens_comment hblank hcomment, takeWhile_not_encode hnewline, length_encode, hsize]
    exact hline
  · rw [tokens_lexeme hblank hcomment, lexeme_eq file h hc]
    simp only [hsize]
    cases Scan.lexeme file (byteLength front) c cs with
    | error e => rfl
    | ok found =>
      obtain ⟨kind, value, n⟩ := found
      dsimp only [Except.map]
      rw [bind_answer_ok]
      dsimp only
      rw [slice_lexeme h hc, bind_answer_ok, drop_encode_take, hlater]
      change _ = answer (Scan.tokens file _ (cs.drop n) >>= _)
      cases Scan.tokens file (byteLength front + 1 + byteLength (cs.take n)) (cs.drop n) <;> rfl

theorem tokens_eq {text : String} {front cs : List Char} (file : Nat)
    (h : text.toList = front ++ cs) :
    tokens text file (byteLength front) (encode cs) =
      answer (Scan.tokens file (byteLength front) cs) := by
  induction hsize : cs.length using Nat.strong_induction_on generalizing front cs with
  | h size ih =>
  cases cs with
  | nil =>
    rw [Scan.tokens, encode_nil, tokens]
    rfl
  | cons c cs =>
    by_cases hc : c.toNat < 128
    · refine tokens_narrow file h hc fun n => ?_
      have hrest : text.toList = (front ++ c :: cs.take n) ++ cs.drop n := by
        rw [h, List.append_assoc, List.cons_append, List.take_append_drop]
      have hshorter : (cs.drop n).length < size := by
        rw [← hsize, List.length_cons, List.length_drop]
        omega
      have hlater := ih _ hshorter hrest rfl
      rw [byteLength_append, byteLength_cons, utf8Size_of_lt hc, ← Nat.add_assoc] at hlater
      exact hlater
    · exact tokens_wide file h hc

theorem encode_toList (text : String) : text.toByteArray.data.toList = encode text.toList := by
  rw [← String.utf8Encode_toList, List.utf8Encode, List.toList_data_toByteArray]
  rfl

/-- The scanner of bytes answers every text, so it never cuts a character. Its answer is that
of the scanner of characters. A fault covers whole characters, and an unexpected character is
covered alone. -/
theorem scan_cuts_no_character (file : Nat) (text : String) :
    scan file text = some (Scriptwright.scan file text) ∧
      ∀ e, Scriptwright.scan file text = .error e →
        e.span.file = file ∧ e.span.start < e.span.stop ∧ e.span.stop ≤ text.utf8ByteSize ∧
        String.Pos.Raw.IsValid text ⟨e.span.start⟩ ∧ String.Pos.Raw.IsValid text ⟨e.span.stop⟩ ∧
        (e.fault.code = "E0001" → ∃ c,
          slice? text e.span.start e.span.stop = some (String.singleton c) ∧
          e.fault.message = "Unexpected character: " ++ String.singleton c) := by
  refine ⟨?_, ?_⟩
  · have htext : text.toList = [] ++ text.toList := rfl
    rw [scan, encode_toList]
    exact congrArg ExceptT.run (tokens_eq file htext)
  · intro e h
    obtain ⟨before, found, after, htext, hspan, hne, hnames⟩ := within_of_scan h
    have hstop : String.Pos.Raw.IsValid text ⟨byteLength before + byteLength found⟩ := by
      rw [← byteLength_append]
      exact isValid_byteLength (by rw [htext, List.append_assoc])
    rw [hspan]
    refine ⟨rfl, Nat.lt_add_of_pos_right (byteLength_pos hne), hstop.le_utf8ByteSize,
      isValid_byteLength htext, hstop, ?_⟩
    intro hcode
    obtain ⟨c, hfault⟩ : ∃ c, e.fault = .unexpectedCharacter c := by
      cases hfault : e.fault with
      | unexpectedCharacter c => exact ⟨c, rfl⟩
      | _ =>
        rw [hfault] at hcode
        exact absurd hcode (by decide)
    refine ⟨c, ?_, by rw [hfault]; rfl⟩
    rw [slice?_eq_some htext, hnames c hfault, String.singleton_eq_ofList]

/-- A text with a backslash in front of a character of two bytes, and one that no token
begins with. -/
def escapedAccent : String := "\"\\é\" é"

theorem scan_escapedAccent :
    scan 0 escapedAccent = some (.error ⟨.unexpectedCharacter 'é', ⟨0, 6, 8⟩⟩) ∧
      ∃ c, slice? escapedAccent 6 8 = some (String.singleton c) ∧
        "Unexpected character: é" = "Unexpected character: " ++ String.singleton c := by
  have hscan : Scriptwright.scan 0 escapedAccent =
      .error ⟨.unexpectedCharacter 'é', ⟨0, 6, 8⟩⟩ := by decide +kernel
  obtain ⟨hbytes, hfault⟩ := scan_cuts_no_character 0 escapedAccent
  obtain ⟨-, -, -, -, -, hnames⟩ := hfault _ hscan
  refine ⟨by rw [hbytes, hscan], ?_⟩
  exact hnames rfl

end Scriptwright.Bytes
