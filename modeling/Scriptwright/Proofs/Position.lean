import Mathlib.Data.List.TakeWhile
import Scriptwright.Proofs.Source

/-!
# Positions within a text

The position of a byte of a text names one of its lines and a column of that line, or the
place right behind it. Later bytes never come before earlier ones.
-/

namespace Scriptwright

/-- The lines of a text, without their line breaks. -/
def lines (text : String) : List (List Char) := text.toList.splitOn '\n'

namespace Position

/-- The first place does not come after the second. -/
instance : LE Position where
  le p q := p.line < q.line ∨ p.line = q.line ∧ p.column ≤ q.column

/-- The place lies on a line of the text or right behind it. -/
def On (text : String) (p : Position) : Prop :=
  1 ≤ p.line ∧ 1 ≤ p.column ∧
    ∃ line, (lines text)[p.line - 1]? = some line ∧ p.column ≤ byteLength line + 1

end Position

theorem beq_newline_of_not_mem {cs : List Char} (h : '\n' ∉ cs) :
    ∀ c ∈ cs, (c == '\n') = false := by
  intro c hc
  rw [beq_eq_false_iff_ne]
  rintro rfl
  exact h hc

theorem exists_first_line {text : String} (h : '\n' ∈ text.toList) :
    ∃ first second : String, text = first ++ "\n" ++ second ∧ '\n' ∉ first.toList := by
  obtain ⟨first, second, hsplit, hfirst⟩ := List.eq_append_cons_of_mem h
  refine ⟨String.ofList first, String.ofList second, ?_, ?_⟩
  · rw [← String.toList_inj, hsplit, toList_append_line, String.toList_ofList,
      String.toList_ofList]
  · rw [String.toList_ofList]
    exact hfirst

theorem lines_single {text : String} (h : '\n' ∉ text.toList) : lines text = [text.toList] :=
  List.splitOnP_eq_singleton (beq_newline_of_not_mem h)

theorem lines_append {first : String} (h : '\n' ∉ first.toList) (second : String) :
    lines (first ++ "\n" ++ second) = first.toList :: lines second := by
  rw [lines, toList_append_line]
  exact List.splitOnP_append_cons_of_forall_mem (beq_newline_of_not_mem h) '\n' rfl second.toList

theorem breaks_of_not_mem {cs : List Char} (h : '\n' ∉ cs) (offset : Nat) :
    breaks offset cs = [] := by
  rw [← List.length_eq_zero_iff, length_breaks]
  exact List.count_eq_zero_of_not_mem h

namespace SourceFile
variable (id : Nat) (path : String)

theorem position_single {text : String} (h : '\n' ∉ text.toList) (offset : Nat) :
    position ⟨id, path, text⟩ offset = ⟨1, offset + 1⟩ := by
  simp [position, lineStarts, breaks_of_not_mem h]

/-- A byte before the first line break, or at it, is on the first line. -/
theorem position_first {first : String} (h : '\n' ∉ first.toList) (second : String) {offset : Nat}
    (hoffset : offset ≤ byteLength first.toList) :
    position ⟨id, path, first ++ "\n" ++ second⟩ offset = ⟨1, offset + 1⟩ := by
  have hlater : ¬ byteLength first.toList + 1 ≤ offset := by omega
  rw [position, lineStarts_append]
  simp [lineStarts, breaks_of_not_mem h, hlater]

theorem position_on (text : String) {offset : Nat} (h : offset ≤ byteLength text.toList) :
    (position ⟨id, path, text⟩ offset).On text := by
  -- On the length of the text: the first line goes, and the others are a text of their own.
  induction hn : text.toList.length using Nat.strongRecOn generalizing text offset with
  | ind n ih =>
    by_cases hbreak : '\n' ∈ text.toList
    · obtain ⟨first, second, rfl, hfirst⟩ := exists_first_line hbreak
      rw [toList_append_line] at h hn
      by_cases hoffset : offset ≤ byteLength first.toList
      · rw [position_first id path hfirst second hoffset]
        refine ⟨Nat.le_refl 1, Nat.le_add_left 1 offset, first.toList, ?_, ?_⟩
        · rw [lines_append hfirst]
          rfl
        · exact Nat.succ_le_succ hoffset
      · obtain ⟨rest, rfl⟩ : ∃ rest, offset = rest + (byteLength first.toList + 1) :=
          ⟨offset - (byteLength first.toList + 1), by omega⟩
        have hrest : rest ≤ byteLength second.toList := by
          rw [byteLength_append, byteLength_cons, show '\n'.utf8Size = 1 from rfl] at h
          omega
        have hshorter : second.toList.length < n := by
          rw [List.length_append, List.length_cons] at hn
          omega
        obtain ⟨hline, hcolumn, line, hget, hle⟩ := ih _ hshorter second hrest rfl
        rw [position_append, List.count_eq_zero_of_not_mem hfirst]
        refine ⟨Nat.le_add_right_of_le hline, hcolumn, line, ?_, hle⟩
        rw [lines_append hfirst, ← hget]
        simp [List.getElem?_cons, Nat.ne_of_gt hline]
    · rw [position_single id path hbreak]
      refine ⟨Nat.le_refl 1, Nat.le_add_left 1 offset, text.toList, ?_, Nat.succ_le_succ h⟩
      rw [lines_single hbreak]
      rfl

/-- The lines that begin up to a byte are the first of those that begin up to a later one. -/
theorem takeWhile_lineStarts_prefix (f : SourceFile) {a b : Nat} (h : a ≤ b) :
    f.lineStarts.takeWhile (· ≤ a) <+: f.lineStarts.takeWhile (· ≤ b) := by
  have htake : (f.lineStarts.takeWhile (· ≤ b)).takeWhile (· ≤ a) =
      f.lineStarts.takeWhile (· ≤ a) := by
    rw [List.takeWhile_takeWhile]
    congr 1
    funext start
    simp only [decide_eq_true_eq, decide_eq_decide]
    omega
  rw [← htake]
  exact List.takeWhile_prefix _

theorem position_mono (f : SourceFile) {a b : Nat} (h : a ≤ b) : f.position a ≤ f.position b := by
  have hprefix := f.takeWhile_lineStarts_prefix h
  cases Nat.lt_or_eq_of_le hprefix.length_le with
  | inl hless => exact .inl hless
  | inr hsame =>
    refine .inr ⟨hsame, ?_⟩
    simp only [position, hprefix.eq_of_length hsame]
    omega

end SourceFile

end Scriptwright
