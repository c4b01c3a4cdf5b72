import Mathlib.Tactic.SplitIfs
import Scriptwright.Source

/-!
# Positions in a text behind another

The lines of two texts with a line break between them are the lines of the first and
then those of the second. So a place in the second text keeps its column, and its line
grows by the number of lines of the first.
-/

namespace Scriptwright

theorem toList_append_line (first second : String) :
    (first ++ "\n" ++ second).toList = first.toList ++ '\n' :: second.toList := by
  simp

theorem breaks_append (offset : Nat) (cs ds : List Char) :
    breaks offset (cs ++ ds) = breaks offset cs ++ breaks (offset + byteLength cs) ds := by
  induction cs generalizing offset with
  | nil => rfl
  | cons c cs ih =>
    simp only [List.cons_append, breaks, ih, byteLength_cons, Nat.add_assoc]
    split_ifs <;> rfl

theorem breaks_add (offset delta : Nat) (cs : List Char) :
    breaks (offset + delta) cs = (breaks offset cs).map (· + delta) := by
  induction cs generalizing offset with
  | nil => rfl
  | cons c cs ih =>
    simp only [breaks, Nat.add_right_comm offset delta, ih]
    split_ifs <;> rfl

theorem length_breaks (offset : Nat) (cs : List Char) :
    (breaks offset cs).length = cs.count '\n' := by
  induction cs generalizing offset with
  | nil => rfl
  | cons c cs ih =>
    simp only [breaks]
    split_ifs with h
    · rw [h, List.length_cons, ih, List.count_cons_self]
    · rw [ih, List.count_cons_of_ne h]

theorem le_of_mem_breaks {offset start : Nat} {cs : List Char} (h : start ∈ breaks offset cs) :
    start ≤ offset + byteLength cs := by
  induction cs generalizing offset with
  | nil => cases h
  | cons c cs ih =>
    rw [byteLength_cons, ← Nat.add_assoc]
    simp only [breaks] at h
    split_ifs at h
    · cases h with
      | head => omega
      | tail _ h => exact ih h
    · exact ih h

namespace SourceFile

theorem lineStarts_append (id : Nat) (path first second : String) :
    lineStarts ⟨id, path, first ++ "\n" ++ second⟩ =
      lineStarts ⟨id, path, first⟩ ++
        (lineStarts ⟨id, path, second⟩).map (· + (byteLength first.toList + 1)) := by
  have hbreak : breaks (byteLength first.toList) ('\n' :: second.toList) =
      (lineStarts ⟨id, path, second⟩).map (· + (byteLength first.toList + 1)) := by
    rw [lineStarts, List.map_cons, ← breaks_add, Nat.zero_add]
    rfl
  simp only [lineStarts, toList_append_line, breaks_append, Nat.zero_add,
    List.cons_append] at hbreak ⊢
  rw [hbreak]

/-- Some line begins at or before every offset. -/
theorem takeWhile_lineStarts_ne_nil (f : SourceFile) (offset : Nat) :
    f.lineStarts.takeWhile (· ≤ offset) ≠ [] := by
  simp [lineStarts]

theorem position_append (id : Nat) (path first second : String) (offset : Nat) :
    position ⟨id, path, first ++ "\n" ++ second⟩ (offset + (byteLength first.toList + 1)) =
      ⟨(position ⟨id, path, second⟩ offset).line + (1 + first.toList.count '\n'),
        (position ⟨id, path, second⟩ offset).column⟩ := by
  have hfirst : ∀ start ∈ lineStarts ⟨id, path, first⟩,
      decide (start ≤ offset + (byteLength first.toList + 1)) = true := by
    intro start hstart
    have hle : start ≤ byteLength first.toList := by
      cases hstart with
      | head => exact Nat.zero_le _
      | tail _ hstart => simpa using le_of_mem_breaks hstart
    exact decide_eq_true (by omega)
  have hlength : (lineStarts ⟨id, path, first⟩).length = 1 + first.toList.count '\n' := by
    rw [lineStarts, List.length_cons, length_breaks, Nat.add_comm]
  have hstarts : (lineStarts ⟨id, path, first ++ "\n" ++ second⟩).takeWhile
        (· ≤ offset + (byteLength first.toList + 1)) =
      lineStarts ⟨id, path, first⟩ ++
        ((lineStarts ⟨id, path, second⟩).takeWhile (· ≤ offset)).map
          (· + (byteLength first.toList + 1)) := by
    rw [lineStarts_append, List.takeWhile_append_of_pos hfirst, List.takeWhile_map]
    congr 3
    funext start
    simp
  have hne := takeWhile_lineStarts_ne_nil ⟨id, path, second⟩ offset
  simp only [position, hstarts]
  generalize (lineStarts ⟨id, path, second⟩).takeWhile (· ≤ offset) = starts at hne ⊢
  rw [List.length_append, List.length_map, hlength, List.getLast?_append, List.getLast?_map,
    List.getLast?_eq_some_getLast hne]
  simp only [Option.map_some, Option.some_or, Option.getD_some, Position.mk.injEq]
  omega

end SourceFile

end Scriptwright
