import Scriptwright.Proofs.Position
import Scriptwright.Proofs.Token.Bytes

/-!
# Positions by search and by count

The line of an offset is one more than the number of line breaks before it. Its column counts
from the byte behind the last of them. To find both without a pass over the text, the starts of
all lines are kept in a table, in words of 32 bits, and the line is found by halving the table.

The search has a value for every text and every offset that leave room for one more in a word:
no sum is too large, no difference is negative and no place outside of the table is read. The
value is the counted one. So different offsets have different positions, in the same order.
-/

namespace Scriptwright

/-- The first place comes before the second. -/
instance : LT Position where
  lt p q := p.line < q.line ∨ p.line = q.line ∧ p.column < q.column

namespace Bytes

/-- Where the line breaks stand among the bytes. -/
def newlines (bs : List UInt8) : List Nat := (List.range bs.length).filter (bs[·]? == some 10)

/-- The line breaks before an offset. An offset past the end has all of them before it. -/
def newlinesBelow (bs : List UInt8) (offset : Nat) : List Nat :=
  (List.range (min offset bs.length)).filter (bs[·]? == some 10)

/-- The byte behind the last line break before an offset. -/
def lineStart (bs : List UInt8) (offset : Nat) : Nat :=
  (newlinesBelow bs offset).getLast?.elim 0 (· + 1)

end Bytes

namespace Word

/-- A sum that fits a word. -/
def add? (a b : UInt32) : Option UInt32 :=
  if a.toNat + b.toNat < UInt32.size then some (a + b) else none

/-- A difference that is not negative. -/
def sub? (a b : UInt32) : Option UInt32 := if b ≤ a then some (a - b) else none

/-- The byte behind each line break, after the first byte. -/
def lineTable? (bs : List UInt8) : Option (List UInt32) :=
  ((Bytes.newlines bs).mapM fun i => add? (.ofNat i) 1).map (0 :: ·)

/-- How many entries of the table are not above the offset, if those before `base` are not and
those `size` or more behind it are. The middle of the `size` entries tells which half is left. -/
def search? (table : List UInt32) (offset : UInt32) (base size : Nat) : Option Nat :=
  if size ≤ 1 then
    table[base]?.map fun start => if start ≤ offset then base + 1 else base
  else do
    let start ← table[base + size / 2]?
    search? table offset (if start ≤ offset then base + size / 2 else base) (size - size / 2)
termination_by size

/-- The line and the column of an offset. -/
def position? (bs : List UInt8) (offset : UInt32) : Option (UInt32 × UInt32) := do
  let table ← lineTable? bs
  let count ← search? table offset 0 table.length
  let start ← table[count - 1]?
  let behind ← sub? offset start
  let column ← add? behind 1
  let line ← add? (.ofNat (count - 1)) 1
  return (line, column)

theorem add?_eq_some {a b : UInt32} (h : a.toNat + b.toNat < UInt32.size) :
    ∃ c, add? a b = some c ∧ c.toNat = a.toNat + b.toNat := by
  refine ⟨a + b, if_pos h, ?_⟩
  rw [UInt32.toNat_add, Nat.mod_eq_of_lt h]

theorem sub?_eq_some {a b : UInt32} (h : b.toNat ≤ a.toNat) :
    ∃ c, sub? a b = some c ∧ c.toNat = a.toNat - b.toNat := by
  have hle : b ≤ a := UInt32.le_iff_toNat_le.mpr h
  exact ⟨a - b, if_pos hle, UInt32.toNat_sub_of_le a b hle⟩

theorem add?_ofNat_one {i : Nat} (h : i + 1 < UInt32.size) :
    ∃ c, add? (.ofNat i) 1 = some c ∧ c.toNat = i + 1 := by
  have hi : (UInt32.ofNat i).toNat = i := UInt32.toNat_ofNat_of_lt' (by omega)
  have hsum : (UInt32.ofNat i).toNat + (1 : UInt32).toNat = i + 1 := by rw [hi]; rfl
  rw [← hsum] at h ⊢
  exact add?_eq_some h

theorem mapM_add?_eq_some {is : List Nat} (h : ∀ i ∈ is, i + 1 < UInt32.size) :
    ∃ table, (is.mapM fun i => add? (.ofNat i) 1) = some table ∧
      table.map UInt32.toNat = is.map (· + 1) := by
  induction is with
  | nil => exact ⟨[], rfl, rfl⟩
  | cons i is ih =>
    obtain ⟨hi, his⟩ := List.forall_mem_cons.mp h
    obtain ⟨table, htable, hmap⟩ := ih his
    obtain ⟨start, hstart, hvalue⟩ := add?_ofNat_one hi
    refine ⟨start :: table, ?_, ?_⟩
    · rw [List.mapM_cons, hstart, htable]
      rfl
    · rw [List.map_cons, List.map_cons, hvalue, hmap]

theorem search?_eq_some {table : List UInt32} {offset : UInt32} {count : Nat}
    (hcount : ∀ i start, table[i]? = some start → (i < count ↔ start ≤ offset))
    {base size : Nat} (hsize : 0 < size) (hbound : base + size ≤ table.length)
    (hlow : base ≤ count) (hhigh : count ≤ base + size) :
    search? table offset base size = some count := by
  -- On the size of the part that is left: the count lies in it before and after each step.
  induction hn : size using Nat.strongRecOn generalizing base size with
  | ind n ih =>
    subst hn
    have hread : ∀ i, i < table.length → ∃ start, table[i]? = some start := fun i hi =>
      ⟨table[i], List.getElem?_eq_getElem hi⟩
    rw [search?]
    split_ifs with hlast
    · obtain ⟨start, hstart⟩ := hread base (by omega)
      have hbase := hcount base start hstart
      rw [hstart, Option.map_some, Option.some.injEq]
      split_ifs with hle
      · have := hbase.mpr hle
        omega
      · have : ¬ base < count := fun hlt => hle (hbase.mp hlt)
        omega
    · obtain ⟨start, hstart⟩ := hread (base + size / 2) (by omega)
      have hmiddle := hcount _ start hstart
      rw [hstart, Option.bind_eq_bind, Option.bind_some]
      split_ifs with hle
      · have := hmiddle.mpr hle
        exact ih (size - size / 2) (by omega) (by omega) (by omega) (by omega) (by omega) rfl
      · have : ¬ base + size / 2 < count := fun hlt => hle (hmiddle.mp hlt)
        exact ih (size - size / 2) (by omega) (by omega) (by omega) (by omega) (by omega) rfl

end Word

namespace Bytes

theorem newlines_cons (b : UInt8) (bs : List UInt8) :
    newlines (b :: bs) = (if b = 10 then [0] else []) ++ (newlines bs).map (· + 1) := by
  unfold newlines
  rw [List.length_cons, List.range_succ_eq_map, List.filter_cons, List.filter_map]
  have hshift : ((fun i => (b :: bs)[i]? == some 10) ∘ Nat.succ) = fun i => bs[i]? == some 10 := by
    funext i
    simp
  rw [hshift]
  by_cases hb : b = 10
  · simp [hb]
  · simp [hb]

theorem newlines_append (bs cs : List UInt8) :
    newlines (bs ++ cs) = newlines bs ++ (newlines cs).map (· + bs.length) := by
  induction bs with
  | nil => simp [newlines]
  | cons b bs ih =>
    rw [List.cons_append, newlines_cons, newlines_cons, ih, List.map_append, List.map_map,
      List.append_assoc]
    rfl

theorem newlines_of_not_mem {bs : List UInt8} (h : 10 ∉ bs) : newlines bs = [] := by
  apply List.filter_eq_nil_iff.mpr
  intro i _ hi
  exact h (List.mem_of_getElem? (eq_of_beq hi))

theorem not_mem_utf8EncodeChar {c : Char} (h : c ≠ '\n') : 10 ∉ String.utf8EncodeChar c := by
  have hbreak : char? 10 = some '\n' := rfl
  intro hmem
  by_cases hc : c.toNat < 128
  · rw [utf8EncodeChar_of_lt hc, List.mem_singleton] at hmem
    rw [hmem, char?_toUInt8 hc] at hbreak
    exact h (Option.some.inj hbreak)
  · rw [char?_of_mem_utf8EncodeChar hc hmem] at hbreak
    cases hbreak

/-- The line breaks among the characters are those among the bytes. -/
theorem breaks_eq_newlines (cs : List Char) :
    breaks 0 cs = (newlines (encode cs)).map (· + 1) := by
  induction cs with
  | nil => rfl
  | cons c cs ih =>
    have hlater : breaks (0 + c.utf8Size) cs = (breaks 0 cs).map (· + c.utf8Size) :=
      breaks_add 0 c.utf8Size cs
    rw [breaks, hlater, ih, encode_cons, newlines_append, String.length_utf8EncodeChar]
    split_ifs with hc
    · subst hc
      rw [show newlines (String.utf8EncodeChar '\n') = [0] from rfl]
      simp [show '\n'.utf8Size = 1 from rfl]
    · rw [newlines_of_not_mem (not_mem_utf8EncodeChar hc), List.nil_append, List.map_map,
        List.map_map]
      apply List.map_congr_left
      intro i _
      exact Nat.add_right_comm i 1 c.utf8Size

theorem pairwise_newlines (bs : List UInt8) : (newlines bs).Pairwise (· < ·) :=
  List.pairwise_lt_range.filter _

theorem lt_of_mem_newlines {bs : List UInt8} {i : Nat} (h : i ∈ newlines bs) : i < bs.length :=
  List.mem_range.mp (List.mem_of_mem_filter h)

theorem filter_lt_range (offset n : Nat) :
    (List.range n).filter (· < offset) = List.range (min offset n) := by
  induction n with
  | zero => simp
  | succ n ih =>
    rw [List.range_succ, List.filter_append, ih]
    by_cases h : n < offset
    · have hleft : min offset n = n := by omega
      have hright : min offset (n + 1) = n + 1 := by omega
      rw [hleft, hright, List.range_succ]
      simp [h]
    · have hmin : min offset (n + 1) = min offset n := by omega
      simp [h, hmin]

theorem newlinesBelow_eq_filter (bs : List UInt8) (offset : Nat) :
    newlinesBelow bs offset = (newlines bs).filter (· < offset) := by
  rw [newlinesBelow, newlines, ← filter_lt_range, List.filter_filter, List.filter_filter]
  congr 1
  funext i
  exact Bool.and_comm _ _

theorem length_newlinesBelow_le (bs : List UInt8) (offset : Nat) :
    (newlinesBelow bs offset).length ≤ bs.length := by
  apply (List.length_filter_le _ _).trans
  rw [List.length_range]
  exact Nat.min_le_right _ _

theorem lineStart_le (bs : List UInt8) (offset : Nat) : lineStart bs offset ≤ offset := by
  unfold lineStart
  cases hlast : (newlinesBelow bs offset).getLast? with
  | none => exact Nat.zero_le offset
  | some i =>
    have hmem := List.mem_of_getLast? hlast
    rw [newlinesBelow_eq_filter] at hmem
    exact of_decide_eq_true (List.mem_filter.mp hmem).2

end Bytes

theorem lt_of_mem_of_not_le {first offset : Nat} {starts : List Nat}
    (h : (first :: starts).Pairwise (· < ·)) (hfirst : ¬ first ≤ offset) :
    ∀ start ∈ first :: starts, offset < start := by
  have hlater := (List.pairwise_cons.mp h).1
  intro start hstart
  cases hstart with
  | head => omega
  | tail _ hstart =>
    have := hlater start hstart
    omega

theorem takeWhile_le_eq_filter {starts : List Nat} (h : starts.Pairwise (· < ·)) (offset : Nat) :
    starts.takeWhile (· ≤ offset) = starts.filter (· ≤ offset) := by
  induction starts with
  | nil => rfl
  | cons first starts ih =>
    by_cases hfirst : first ≤ offset
    · rw [List.takeWhile_cons_of_pos (by simpa using hfirst),
        List.filter_cons_of_pos (by simpa using hfirst), ih h.of_cons]
    · have hnone : (first :: starts).filter (· ≤ offset) = [] := by
        apply List.filter_eq_nil_iff.mpr
        intro start hstart
        simpa using lt_of_mem_of_not_le h hfirst start hstart
      rw [List.takeWhile_cons_of_neg (by simpa using hfirst), hnone]

/-- The entries that are not above an offset are the first ones. -/
theorem lt_length_takeWhile_iff {starts : List Nat} (h : starts.Pairwise (· < ·)) {offset : Nat}
    {i start : Nat} (hi : starts[i]? = some start) :
    i < (starts.takeWhile (· ≤ offset)).length ↔ start ≤ offset := by
  induction starts generalizing i with
  | nil => cases hi
  | cons first starts ih =>
    by_cases hfirst : first ≤ offset
    · rw [List.takeWhile_cons_of_pos (by simpa using hfirst), List.length_cons]
      cases i with
      | zero =>
        cases hi
        exact iff_of_true (Nat.succ_pos _) hfirst
      | succ i => exact Nat.succ_lt_succ_iff.trans (ih h.of_cons hi)
    · have habove := lt_of_mem_of_not_le h hfirst start (List.mem_of_getElem? hi)
      rw [List.takeWhile_cons_of_neg (by simpa using hfirst)]
      exact iff_of_false (Nat.not_lt_zero i) (Nat.not_le.mpr habove)

namespace SourceFile

def bytes (f : SourceFile) : List UInt8 := f.text.toByteArray.data.toList

theorem lineStarts_eq_newlines (f : SourceFile) :
    f.lineStarts = 0 :: (Bytes.newlines f.bytes).map (· + 1) := by
  rw [lineStarts, bytes, Bytes.encode_toList, Bytes.breaks_eq_newlines]

theorem pairwise_lineStarts (f : SourceFile) : f.lineStarts.Pairwise (· < ·) := by
  rw [lineStarts_eq_newlines]
  apply List.Pairwise.cons
  · simp
  · apply (Bytes.pairwise_newlines f.bytes).map
    intro i j hij
    exact Nat.succ_lt_succ hij

theorem takeWhile_lineStarts (f : SourceFile) (offset : Nat) :
    f.lineStarts.takeWhile (· ≤ offset) =
      0 :: (Bytes.newlinesBelow f.bytes offset).map (· + 1) := by
  rw [takeWhile_le_eq_filter f.pairwise_lineStarts, lineStarts_eq_newlines,
    Bytes.newlinesBelow_eq_filter]
  rw [List.filter_cons_of_pos (by simp), List.filter_map]
  rfl

theorem getLast?_starts (f : SourceFile) (offset : Nat) :
    (f.lineStarts.takeWhile (· ≤ offset)).getLast? = some (Bytes.lineStart f.bytes offset) := by
  rw [takeWhile_lineStarts, List.getLast?_cons, List.getLast?_map, Bytes.lineStart]
  cases (Bytes.newlinesBelow f.bytes offset).getLast? <;> rfl

theorem position_eq_count (f : SourceFile) (offset : Nat) :
    f.position offset = ⟨1 + (Bytes.newlinesBelow f.bytes offset).length,
      1 + (offset - Bytes.lineStart f.bytes offset)⟩ := by
  rw [position, getLast?_starts, takeWhile_lineStarts]
  simp [Nat.add_comm]

theorem lineStarts_line (f : SourceFile) (offset : Nat) :
    f.lineStarts[(f.position offset).line - 1]? = some (Bytes.lineStart f.bytes offset) := by
  have hlast := f.getLast?_starts offset
  have hpos := List.length_pos_iff.mpr (f.takeWhile_lineStarts_ne_nil offset)
  obtain ⟨later, hlater⟩ := List.takeWhile_prefix (l := f.lineStarts) (decide <| · ≤ offset)
  rw [List.getLast?_eq_getElem?] at hlast
  rw [← hlast, ← List.getElem?_append_left (Nat.sub_one_lt_of_lt hpos), hlater]
  rfl

/-- The start of its line and its column give an offset back. -/
theorem lineStart_add_column (f : SourceFile) (offset : Nat) :
    Bytes.lineStart f.bytes offset + (f.position offset).column - 1 = offset := by
  have := Bytes.lineStart_le f.bytes offset
  rw [position_eq_count]
  dsimp only
  omega

theorem position_injective (f : SourceFile) : Function.Injective f.position := by
  intro a b hab
  have hline := f.lineStarts_line a
  rw [hab, lineStarts_line, Option.some.injEq] at hline
  have ha := f.lineStart_add_column a
  rw [hab, ← hline, lineStart_add_column] at ha
  exact ha.symm

theorem position_strictMono (f : SourceFile) {a b : Nat} (h : a < b) :
    f.position a < f.position b := by
  have hne : f.position a ≠ f.position b := fun heq => Nat.ne_of_lt h (f.position_injective heq)
  cases f.position_mono (Nat.le_of_lt h) with
  | inl hline => exact .inl hline
  | inr hcolumn =>
    refine .inr ⟨hcolumn.1, Nat.lt_of_le_of_ne hcolumn.2 ?_⟩
    intro hsame
    exact hne (Position.mk.injEq .. ▸ ⟨hcolumn.1, hsame⟩)

theorem utf8ByteSize_text (f : SourceFile) : f.text.utf8ByteSize = f.bytes.length := by
  rw [bytes, Array.length_toList]
  rfl

/-- The table has the starts of all lines, if they fit a word. -/
theorem lineTable?_bytes (f : SourceFile) (h : f.bytes.length < UInt32.size - 1) :
    ∃ table, Word.lineTable? f.bytes = some table ∧
      table.map UInt32.toNat = f.lineStarts := by
  have hfits : ∀ i ∈ Bytes.newlines f.bytes, i + 1 < UInt32.size := by
    intro i hi
    have := Bytes.lt_of_mem_newlines hi
    omega
  obtain ⟨starts, hstarts, hvalues⟩ := Word.mapM_add?_eq_some hfits
  refine ⟨0 :: starts, ?_, ?_⟩
  · rw [Word.lineTable?, hstarts]
    rfl
  · rw [List.map_cons, hvalues, lineStarts_eq_newlines]
    rfl

theorem search?_lineTable (f : SourceFile) {table : List UInt32}
    (htable : table.map UInt32.toNat = f.lineStarts) (offset : UInt32) :
    Word.search? table offset 0 table.length = some (f.position offset.toNat).line := by
  have hlength : table.length = f.lineStarts.length := by rw [← htable, List.length_map]
  apply Word.search?_eq_some
  · intro i start hstart
    have hentry : f.lineStarts[i]? = some start.toNat := by
      rw [← htable, List.getElem?_map, hstart]
      rfl
    rw [UInt32.le_iff_toNat_le]
    exact lt_length_takeWhile_iff f.pairwise_lineStarts hentry
  · rw [hlength]
    exact Nat.succ_pos _
  · omega
  · exact Nat.zero_le _
  · rw [hlength, Nat.zero_add]
    exact (List.takeWhile_sublist _).length_le

theorem position?_eq_position (f : SourceFile) (hlength : f.bytes.length < UInt32.size - 1)
    {offset : UInt32} (hoffset : offset.toNat < UInt32.size - 1) :
    ∃ line column, Word.position? f.bytes offset = some (line, column) ∧
      f.position offset.toNat = ⟨line.toNat, column.toNat⟩ := by
  obtain ⟨table, htable, hvalues⟩ := f.lineTable?_bytes hlength
  have hsearch := f.search?_lineTable hvalues offset
  have hline := f.lineStarts_line offset.toNat
  rw [f.position_eq_count] at hsearch hline ⊢
  dsimp only at hsearch hline
  -- The start that is read is not above the offset.
  rw [← hvalues, List.getElem?_map, Option.map_eq_some_iff] at hline
  obtain ⟨start, hstart, hvalue⟩ := hline
  have hle : start.toNat ≤ offset.toNat := by
    rw [hvalue]
    exact Bytes.lineStart_le _ _
  obtain ⟨behind, hbehind, hdistance⟩ := Word.sub?_eq_some hle
  have hcolumns : behind.toNat + (1 : UInt32).toNat < UInt32.size := by
    rw [hdistance, show (1 : UInt32).toNat = 1 from rfl]
    omega
  obtain ⟨column, hcolumn, hcolumnValue⟩ := Word.add?_eq_some hcolumns
  -- There are fewer line breaks than bytes.
  have hlines : 1 + (Bytes.newlinesBelow f.bytes offset.toNat).length - 1 + 1 < UInt32.size := by
    have := Bytes.length_newlinesBelow_le f.bytes offset.toNat
    omega
  obtain ⟨line, hline, hlineValue⟩ := Word.add?_ofNat_one hlines
  refine ⟨line, column, ?_, ?_⟩
  · simp only [Word.position?, htable, hsearch, hstart, hbehind, hcolumn, hline,
      Option.bind_eq_bind, Option.bind_some]
    rfl
  · rw [hlineValue, hcolumnValue, hdistance, hvalue, show (1 : UInt32).toNat = 1 from rfl,
      Position.mk.injEq]
    omega

/-- A position is what a count of line breaks gives, and it can be found by search. Its line
start and its column give the offset back, so a later offset has a later position. -/
theorem position_eq_count_and_search (f : SourceFile) :
    (∀ offset, f.position offset = ⟨1 + (Bytes.newlinesBelow f.bytes offset).length,
        1 + (offset - Bytes.lineStart f.bytes offset)⟩ ∧
      Bytes.lineStart f.bytes offset ≤ offset ∧
      ∃ start, f.lineStarts[(f.position offset).line - 1]? = some start ∧
        start + (f.position offset).column - 1 = offset) ∧
    (∀ a b, a < b → f.position a < f.position b) ∧ Function.Injective f.position ∧
    (f.text.utf8ByteSize < UInt32.size - 1 → ∀ offset : UInt32, offset.toNat < UInt32.size - 1 →
      ∃ line column, Word.position? f.bytes offset = some (line, column) ∧
        f.position offset.toNat = ⟨line.toNat, column.toNat⟩) := by
  refine ⟨?_, ?_, f.position_injective, ?_⟩
  · intro offset
    exact ⟨f.position_eq_count offset, Bytes.lineStart_le f.bytes offset, _,
      f.lineStarts_line offset, f.lineStart_add_column offset⟩
  · intro a b h
    exact f.position_strictMono h
  · intro hlength offset hoffset
    rw [utf8ByteSize_text] at hlength
    exact f.position?_eq_position hlength hoffset

/-- An offset on the last line, and one past the end of the text. -/
theorem position_eq_count_and_search_four_lines :
    let f : SourceFile := ⟨0, "a", "ab\ncd\n\nef"⟩
    (∃ line column, Word.position? f.bytes 8 = some (line, column) ∧
      f.position 8 = ⟨line.toNat, column.toNat⟩) ∧
    (∃ line column, Word.position? f.bytes 4294967294 = some (line, column) ∧
      f.position 4294967294 = ⟨line.toNat, column.toNat⟩) ∧
    f.position 8 = ⟨4, 2⟩ := by
  intro f
  have hsearch := (position_eq_count_and_search f).2.2.2 (by decide)
  exact ⟨hsearch 8 (by decide), hsearch 4294967294 (by decide), by decide⟩

end SourceFile

end Scriptwright
