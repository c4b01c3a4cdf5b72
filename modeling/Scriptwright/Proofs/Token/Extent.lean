import Scriptwright.Proofs.Token.Lexicon

/-!
# Where the scanner places things

Every span that the scanner writes down, in a token, in a segment of a template or in an
error, begins no later than it ends and lies within the bytes that were scanned.
-/

namespace Scriptwright

/-- The bytes of the span are in order and lie between `low` and `high`. -/
structure Span.Inside (file low high : Nat) (s : Span) : Prop where
  file : s.file = file
  low : low ≤ s.start
  ordered : s.start ≤ s.stop
  high : s.stop ≤ high

theorem Span.Inside.mono {file low low' high high' : Nat} {s : Span} (h : s.Inside file low high)
    (hlow : low' ≤ low) (hhigh : high ≤ high') : s.Inside file low' high' :=
  ⟨h.file, hlow.trans h.low, h.ordered, h.high.trans hhigh⟩

def Segment.spans : Segment → List Span
  | .text _ => []
  | .name _ span => [span]

def Value.spans : Value → List Span
  | .template segments => segments.flatMap Segment.spans
  | .none | .text _ | .number _ => []

def Token.spans (t : Token) : List Span := t.span :: t.value.spans

namespace Scan

/-- The spans of what was read, or that of the error. -/
def spans {α : Type} (inner : α → List Span) : Except ScanError α → List Span
  | .ok a => inner a
  | .error e => [e.span]

theorem spans_textSegment (content : List Char) :
    (textSegment content).flatMap Segment.spans = [] := by
  unfold textSegment
  split_ifs <;> rfl

theorem byteLength_takeWhile_le (p : Char → Bool) (cs : List Char) :
    byteLength (cs.takeWhile p) ≤ byteLength cs := by
  have hsplit := congrArg byteLength (List.takeWhile_append_dropWhile (p := p) (l := cs))
  rw [byteLength_append] at hsplit
  omega

theorem interpolation_inside (file opening : Nat) (cs : List Char) :
    ∀ s ∈ spans (fun r => r.1.spans) (interpolation file opening cs),
      s.Inside file opening (opening + 1 + byteLength cs) := by
  obtain ⟨before, rest, rfl, hrest⟩ := Lexicon.exists_run isSpace cs
  unfold interpolation
  dsimp only
  rw [before.takeWhile hrest, List.drop_left, byteLength_append]
  split_ifs with hname hbrace
  · rintro s (_ | ⟨_, ⟨⟩⟩)
    constructor <;> dsimp only <;> omega
  · obtain ⟨name, rest, rfl, hstops⟩ := Lexicon.exists_name hname
    rw [name.leadingName hstops, byteLength_append]
    rintro s (_ | ⟨_, ⟨⟩⟩)
    constructor <;> dsimp only <;> omega
  · obtain ⟨name, rest, rfl, hstops⟩ := Lexicon.exists_name hname
    have hspaces := byteLength_takeWhile_le isSpace rest
    rw [name.leadingName hstops, ← List.drop_drop, List.drop_left, List.drop_left,
      byteLength_append]
    rintro s (_ | ⟨_, ⟨⟩⟩)
    constructor <;> dsimp only <;> omega

/-- Where the text ends, counted from the brace of its first interpolation. -/
theorem brace_add {cs inner : List Char} (offset : Nat)
    (h : cs.drop (cs.takeWhile isTemplateText).length = '{' :: inner) :
    offset + byteLength (cs.takeWhile isTemplateText) + 1 + byteLength inner =
      offset + byteLength cs := by
  have hsplit := byteLength_take_add_drop (cs.takeWhile isTemplateText).length cs
  rw [h, take_length_takeWhile, byteLength_cons, show '{'.utf8Size = 1 from rfl] at hsplit
  omega

theorem resume_add (brace n : Nat) (inner : List Char) :
    brace + 1 + byteLength (inner.take n) + byteLength (inner.drop n) =
      brace + 1 + byteLength inner := by
  rw [Nat.add_assoc, byteLength_take_add_drop]

theorem templateSegments_inside {file opening offset : Nat} (h : opening ≤ offset)
    (cs : List Char) :
    ∀ s ∈ spans (fun r => r.1.flatMap Segment.spans) (templateSegments file opening offset cs),
      s.Inside file opening (offset + byteLength cs) := by
  fun_induction templateSegments file opening offset cs
  case case1 offset cs content inner hdrop brace e he =>
    have hend : brace + 1 + byteLength inner = offset + byteLength cs := brace_add offset hdrop
    have hinner := interpolation_inside file brace inner
    rw [he, hend] at hinner
    intro s hs
    exact (hinner s hs).mono (Nat.le_add_right_of_le h) le_rfl
  case case2 offset cs content inner hdrop brace segment n hinner resume e he ih =>
    have hend : brace + 1 + byteLength inner = offset + byteLength cs := brace_add offset hdrop
    have hresume : resume + byteLength (inner.drop n) = offset + byteLength cs :=
      (resume_add brace n inner).trans hend
    rw [he, hresume] at ih
    exact ih (by omega)
  case case3 offset cs content inner hdrop brace segment n hinner resume later m hlater ih =>
    have hend : brace + 1 + byteLength inner = offset + byteLength cs := brace_add offset hdrop
    have hresume : resume + byteLength (inner.drop n) = offset + byteLength cs :=
      (resume_add brace n inner).trans hend
    have hspan := interpolation_inside file brace inner
    rw [hinner, hend] at hspan
    rw [hlater, hresume] at ih
    intro s hs
    simp only [spans, List.flatMap_append, spans_textSegment, List.nil_append,
      List.flatMap_cons, List.mem_append] at hs
    cases hs with
    | inl hs => exact (hspan s hs).mono (Nat.le_add_right_of_le h) le_rfl
    | inr hs => exact ih (by omega) s hs
  case case4 =>
    intro s hs
    rw [spans, spans_textSegment] at hs
    cases hs
  case case5 =>
    rintro s (_ | ⟨_, ⟨⟩⟩)
    exact ⟨rfl, le_rfl, Nat.le_add_right_of_le h, le_rfl⟩

theorem lexeme_inside (file offset : Nat) (c : Char) (cs : List Char) :
    ∀ s ∈ spans (fun r => r.2.1.spans) (lexeme file offset c cs),
      s.Inside file offset (offset + byteLength (c :: cs)) := by
  have herror (fault : ScanFault) {stop : Nat} (hstart : offset ≤ stop)
      (hstop : stop ≤ offset + byteLength (c :: cs)) :
      ∀ s ∈ [(⟨fault, ⟨file, offset, stop⟩⟩ : ScanError).span],
        s.Inside file offset (offset + byteLength (c :: cs)) := by
    rintro s (_ | ⟨_, ⟨⟩⟩)
    exact ⟨rfl, le_rfl, hstart, hstop⟩
  unfold lexeme
  split_ifs with hquote htick
  · cases quoted? cs with
    | some content => exact List.forall_mem_nil _
    | none => exact herror _ (Nat.le_add_right _ _) le_rfl
  · have hsegments : ∀ s ∈ spans (fun r => r.1.flatMap Segment.spans)
        (templateSegments file offset (offset + 1) cs),
        s.Inside file offset (offset + 1 + byteLength cs) :=
      templateSegments_inside (Nat.le_succ offset) cs
    have hstop : offset + 1 + byteLength cs = offset + byteLength (c :: cs) := by
      rw [htick, byteLength_cons, ← Nat.add_assoc]
      rfl
    rw [hstop] at hsegments
    cases h : templateSegments file offset (offset + 1) cs with
    | error e =>
      rw [h] at hsegments
      exact hsegments
    | ok r =>
      rw [h] at hsegments
      intro s hs
      by_cases hnil : r.1 = []
      · simp [spans, Value.spans, hnil, Segment.spans] at hs
      · simp only [spans, Value.spans, hnil, if_false] at hs
        exact hsegments s hs
  · exact List.forall_mem_nil _
  · exact List.forall_mem_nil _
  · cases symbol? c cs with
    | some symbol => exact List.forall_mem_nil _
    | none =>
      refine herror _ (Nat.le_add_right _ _) ?_
      rw [byteLength_cons]
      omega

theorem stop_add (offset n : Nat) (c : Char) (cs : List Char) :
    offset + byteLength (c :: cs.take n) + byteLength (cs.drop n) =
      offset + byteLength (c :: cs) := by
  have hcs := byteLength_take_add_drop n cs
  rw [byteLength_cons, byteLength_cons]
  omega

theorem tokens_inside (file offset : Nat) (cs : List Char) :
    ∀ s ∈ spans (List.flatMap Token.spans) (tokens file offset cs),
      s.Inside file offset (offset + byteLength cs) := by
  fun_induction tokens file offset cs
  case case1 offset =>
    rintro s (_ | ⟨_, ⟨⟩⟩)
    exact ⟨rfl, le_rfl, le_rfl, le_rfl⟩
  case case2 offset c cs hblank ih =>
    intro s hs
    rw [Nat.add_assoc] at ih
    exact (ih s hs).mono (Nat.le_add_right _ _) le_rfl
  case case3 offset c cs hblank hcomment comment ih =>
    have hstop : offset + byteLength (c :: comment) + byteLength (cs.drop comment.length) =
        offset + byteLength (c :: cs) := by
      rw [← stop_add offset comment.length c cs, take_length_takeWhile]
    rw [hstop] at ih
    intro s hs
    exact (ih s hs).mono (Nat.le_add_right _ _) le_rfl
  case case4 offset c cs hblank hcomment e he =>
    have hlexeme := lexeme_inside file offset c cs
    rw [he] at hlexeme
    exact hlexeme
  case case5 offset c cs hblank hcomment kind value n hlexeme characters stop e he ih =>
    have hstop : stop + byteLength (cs.drop n) = offset + byteLength (c :: cs) :=
      stop_add offset n c cs
    rw [he, hstop] at ih
    intro s hs
    exact (ih s hs).mono (Nat.le_add_right _ _) le_rfl
  case case6 offset c cs hblank hcomment kind value n hlexeme characters stop later hlater ih =>
    have hstop : stop + byteLength (cs.drop n) = offset + byteLength (c :: cs) :=
      stop_add offset n c cs
    have hvalue := lexeme_inside file offset c cs
    rw [hlexeme] at hvalue
    rw [hlater, hstop] at ih
    intro s hs
    simp only [spans, Token.spans, List.flatMap_cons, List.mem_append, List.mem_cons] at hs
    rcases hs with (rfl | hs) | hs
    · exact ⟨rfl, le_rfl, Nat.le_add_right _ _, hstop ▸ Nat.le_add_right _ _⟩
    · exact hvalue s hs
    · exact (ih s hs).mono (Nat.le_add_right _ _) le_rfl

end Scan

/-- Tokens and errors of a text lie within it. -/
theorem scan_inside (file : Nat) (text : String) :
    ∀ s ∈ Scan.spans (List.flatMap Token.spans) (scan file text),
      s.Inside file 0 (byteLength text.toList) := by
  have hinside := Scan.tokens_inside file 0 text.toList
  rw [Nat.zero_add] at hinside
  exact hinside

end Scriptwright
