import Scriptwright.Proofs.Token.Scan

/-!
# Scanning one text behind another

A line break ends every lexeme but a text or a template, and these have ended where a
text has been scanned to its end. So the tokens of two texts with a line break between
them are the tokens of the first and then those of the second, and the latter are found
where the second text stands now. A token is moved with its span and the spans of the
names in its template.
-/

namespace Scriptwright

/-- The span of the same bytes when they stand in the numbered file, `delta` bytes
further on. -/
def Span.shift (file delta : Nat) (s : Span) : Span := ⟨file, s.start + delta, s.stop + delta⟩

def Segment.relabel (f : Span → Span) : Segment → Segment
  | .text content => .text content
  | .name spelling span => .name spelling (f span)

def Value.relabel (f : Span → Span) : Value → Value
  | .template segments => .template (segments.map (Segment.relabel f))
  | value => value

/-- The token with other spans. -/
def Token.relabel (f : Span → Span) (t : Token) : Token :=
  ⟨t.kind, t.lexeme, t.value.relabel f, f t.span⟩

namespace Scan

section
variable {file opening offset : Nat} {cs inner : List Char}

theorem templateSegments_brace
    (h : cs.drop (cs.takeWhile isTemplateText).length = '{' :: inner) :
    templateSegments file opening offset cs = do
      let content := cs.takeWhile isTemplateText
      let brace := offset + byteLength content
      let (segment, n) ← interpolation file brace inner
      let (segments, m) ← templateSegments file opening
        (brace + 1 + byteLength (inner.take n)) (inner.drop n)
      return (textSegment content ++ segment :: segments, content.length + 1 + n + m) := by
  rw [templateSegments]
  split
  case h_1 inner' h' =>
    cases h.symm.trans h'
    dsimp only
    cases interpolation file (offset + byteLength (cs.takeWhile isTemplateText)) inner with
    | error e => rfl
    | ok found =>
      obtain ⟨segment, n⟩ := found
      dsimp only [bind, Except.bind]
      generalize templateSegments file opening _ (inner.drop n) = later
      cases later <;> rfl
  case h_2 h' => cases h.symm.trans h'
  case h_3 hbrace _ => exact absurd h (hbrace inner)

theorem templateSegments_backtick
    (h : cs.drop (cs.takeWhile isTemplateText).length = '`' :: inner) :
    templateSegments file opening offset cs =
      .ok (textSegment (cs.takeWhile isTemplateText),
        (cs.takeWhile isTemplateText).length + 1) := by
  rw [templateSegments]
  split
  case h_1 h' => cases h.symm.trans h'
  case h_2 => rfl
  case h_3 _ htick => exact absurd h (htick inner)

theorem templateSegments_end
    (hbrace : ∀ inner, cs.drop (cs.takeWhile isTemplateText).length ≠ '{' :: inner)
    (htick : ∀ inner, cs.drop (cs.takeWhile isTemplateText).length ≠ '`' :: inner) :
    templateSegments file opening offset cs =
      .error ⟨.unterminatedTemplate, ⟨file, opening, offset + byteLength cs⟩⟩ := by
  rw [templateSegments]
  split
  case h_1 h => exact absurd h (hbrace _)
  case h_2 h => exact absurd h (htick _)
  case h_3 => rfl

end

section
variable (more : List Char)

theorem takeWhile_newline {p : Char → Bool} (hp : p '\n' = false) (cs : List Char) :
    (cs ++ '\n' :: more).takeWhile p = cs.takeWhile p := by
  induction cs with
  | nil => simp [hp]
  | cons c cs ih => simp [List.takeWhile_cons, ih]

theorem length_takeWhile_le (p : Char → Bool) (cs : List Char) :
    (cs.takeWhile p).length ≤ cs.length :=
  (List.takeWhile_prefix p).length_le

theorem drop_takeWhile_newline (p : Char → Bool) (cs : List Char) :
    (cs ++ '\n' :: more).drop (cs.takeWhile p).length =
      cs.drop (cs.takeWhile p).length ++ '\n' :: more :=
  List.drop_append_of_le_length (length_takeWhile_le p cs)

theorem quoted?_plain {c : Char} {cs : List Char} (hquote : c ≠ '"')
    (hslash : ∀ d ds, c = '\\' → cs = d :: ds → False) :
    quoted? (c :: cs) = (quoted? cs).map (c :: ·) := by
  rw [quoted?]
  · exact hquote
  · exact hslash

theorem quoted?_append {cs content : List Char} (h : quoted? cs = some content) :
    content.length + 1 ≤ cs.length ∧ quoted? (cs ++ '\n' :: more) = some content := by
  fun_induction quoted? cs generalizing content with
  | case1 => cases h
  | case2 cs =>
    cases h
    exact ⟨by simp, rfl⟩
  | case3 c cs ih =>
    obtain ⟨inner, hinner, rfl⟩ := Option.map_eq_some_iff.mp h
    obtain ⟨hle, happend⟩ := ih hinner
    refine ⟨by simp only [List.length_cons]; omega, ?_⟩
    rw [List.cons_append, List.cons_append, quoted?, happend]
    rfl
  | case4 c cs hquote hslash ih =>
    obtain ⟨inner, hinner, rfl⟩ := Option.map_eq_some_iff.mp h
    obtain ⟨hle, happend⟩ := ih hinner
    have hslash' : ∀ d ds, c = '\\' → cs ++ '\n' :: more = d :: ds → False := by
      intro d ds hc _
      cases cs with
      | nil => cases hinner
      | cons e es => exact hslash e es hc rfl
    refine ⟨by simp only [List.length_cons]; omega, ?_⟩
    rw [List.cons_append, quoted?_plain hquote hslash', happend]
    rfl

theorem fraction_newline (cs : List Char) : fraction (cs ++ '\n' :: more) = fraction cs := by
  cases cs with
  | nil => rfl
  | cons c cs =>
    by_cases hc : c = '.'
    · subst hc
      exact takeWhile_newline more rfl cs
    · simp [fraction, hc]

theorem number_newline (c : Char) (cs : List Char) :
    number c (cs ++ '\n' :: more) = number c cs := by
  unfold number
  dsimp only
  rw [takeWhile_newline more rfl, drop_takeWhile_newline, fraction_newline]

theorem length_fraction_le {cs : List Char} (h : fraction cs ≠ []) :
    (fraction cs).length + 1 ≤ cs.length := by
  unfold fraction at h ⊢
  split at h
  · simpa using length_takeWhile_le _ _
  · exact absurd rfl h

theorem number_le (c : Char) (cs : List Char) : (number c cs).2 ≤ cs.length := by
  have hwhole := length_takeWhile_le Char.isDigit cs
  unfold number
  dsimp only
  split_ifs with hplaces
  · exact hwhole
  · have hle := length_fraction_le hplaces
    rw [List.length_drop] at hle
    omega

theorem symbol?_newline (c : Char) (cs : List Char) :
    symbol? c (cs ++ '\n' :: more) = symbol? c cs := by
  cases cs with
  | nil => simp [symbol?]
  | cons d cs => rfl

theorem symbol?_le {c : Char} {cs : List Char} {kind : Kind} {n : Nat}
    (h : symbol? c cs = some (kind, n)) : n ≤ cs.length := by
  cases cs with
  | nil =>
    unfold symbol? at h
    dsimp only [List.head?_nil] at h
    split at h <;> cases h <;> exact Nat.le_refl 0
  | cons d cs =>
    have hle : n ≤ 1 := by
      unfold symbol? at h
      dsimp only at h
      split at h <;> (try split at h) <;> cases h <;> decide
    exact hle.trans (by simp)

theorem leadingName_newline (cs : List Char) :
    leadingName (cs ++ '\n' :: more) = leadingName cs := by
  cases cs with
  | nil => rfl
  | cons c cs =>
    have htake := takeWhile_newline more (p := isNamePart) rfl (c :: cs)
    rw [List.cons_append] at htake
    simp only [leadingName, List.cons_append, htake]

theorem length_leadingName_le (cs : List Char) : (leadingName cs).length ≤ cs.length := by
  cases cs with
  | nil => exact Nat.le_refl 0
  | cons c cs =>
    unfold leadingName
    dsimp only
    split_ifs
    · exact length_takeWhile_le _ _
    · exact Nat.zero_le _

/-- Where an interpolation ends, and that it does. -/
theorem interpolation_append {file opening : Nat} {cs : List Char} {segment : Segment} {n : Nat}
    (h : interpolation file opening cs = .ok (segment, n)) :
    n ≤ cs.length ∧ interpolation file opening (cs ++ '\n' :: more) = .ok (segment, n) := by
  have hbefore := length_takeWhile_le isSpace cs
  have hname := length_leadingName_le (cs.drop (cs.takeWhile isSpace).length)
  rw [List.length_drop] at hname
  unfold interpolation at h ⊢
  dsimp only at h ⊢
  rw [takeWhile_newline more rfl, drop_takeWhile_newline, leadingName_newline]
  generalize cs.takeWhile isSpace = before at *
  generalize leadingName (cs.drop before.length) = name at *
  have htaken : before.length + name.length ≤ cs.length := by omega
  have hafter := length_takeWhile_le isSpace (cs.drop (before.length + name.length))
  rw [List.length_drop] at hafter
  rw [List.drop_append_of_le_length htaken, takeWhile_newline more rfl]
  generalize (cs.drop (before.length + name.length)).takeWhile isSpace = after at *
  have hstop : before.length + name.length + after.length ≤ cs.length := by omega
  rw [List.drop_append_of_le_length hstop]
  split_ifs at h with hempty hbrace
  obtain ⟨rest, hrest⟩ := List.head?_eq_some_iff.mp hbrace
  have hlength := congrArg List.length hrest
  rw [List.length_drop, List.length_cons] at hlength
  cases h
  refine ⟨by omega, ?_⟩
  rw [if_neg hempty, hrest]
  rfl

theorem takeWhile_append_of_drop {p : Char → Bool} {cs rest : List Char} {c : Char}
    (h : cs.drop (cs.takeWhile p).length = c :: rest) (tail : List Char) :
    (cs ++ tail).takeWhile p = cs.takeWhile p := by
  have hlt : (cs.takeWhile p).length ≠ cs.length := by
    intro heq
    rw [heq, List.drop_length] at h
    cases h
  rw [List.takeWhile_append, if_neg hlt]

theorem drop_append_of_drop {p : Char → Bool} {cs rest : List Char} {c : Char}
    (h : cs.drop (cs.takeWhile p).length = c :: rest) (tail : List Char) :
    (cs ++ tail).drop ((cs ++ tail).takeWhile p).length = c :: (rest ++ tail) := by
  rw [takeWhile_append_of_drop h, List.drop_append_of_le_length (length_takeWhile_le p cs), h]
  rfl

theorem templateSegments_append {file opening offset : Nat} {cs : List Char}
    {segments : List Segment} {n : Nat}
    (h : templateSegments file opening offset cs = .ok (segments, n)) :
    n ≤ cs.length ∧
      templateSegments file opening offset (cs ++ '\n' :: more) = .ok (segments, n) := by
  fun_induction templateSegments file opening offset cs generalizing segments n
  case case1 => cases h
  case case2 => cases h
  case case3 offset cs content inner hdrop brace segment m hinner resume later k hlater ih =>
    cases h
    obtain ⟨hm, hinner'⟩ := interpolation_append more hinner
    obtain ⟨hk, hlater'⟩ := ih hlater
    have hlength := congrArg List.length hdrop
    rw [List.length_drop, List.length_cons] at hlength
    rw [List.length_drop] at hk
    refine ⟨by omega, ?_⟩
    have hdrop' := drop_append_of_drop hdrop ('\n' :: more)
    rw [templateSegments_brace hdrop', takeWhile_append_of_drop hdrop]
    change (interpolation file brace (inner ++ '\n' :: more) >>= _) = _
    rw [hinner']
    change (templateSegments file opening (brace + 1 + byteLength ((inner ++ '\n' :: more).take m))
      ((inner ++ '\n' :: more).drop m) >>= _) = _
    rw [List.take_append_of_le_length hm, List.drop_append_of_le_length hm]
    change (templateSegments file opening resume _ >>= _) = _
    rw [hlater']
    rfl
  case case4 offset cs content rest hdrop =>
    cases h
    have hlength := congrArg List.length hdrop
    rw [List.length_drop, List.length_cons] at hlength
    refine ⟨by omega, ?_⟩
    have hdrop' := drop_append_of_drop hdrop ('\n' :: more)
    rw [templateSegments_backtick hdrop', takeWhile_append_of_drop hdrop]
  case case5 => cases h

theorem Lexeme.append {file offset : Nat} {c : Char} {cs : List Char} {kind : Kind}
    {value : Value} {n : Nat} (h : Lexeme file offset c cs kind value n) :
    n ≤ cs.length ∧ Lexeme file offset c (cs ++ '\n' :: more) kind value n := by
  have hword := takeWhile_newline more (p := isNamePart) rfl cs
  cases h with
  | text hc h =>
    obtain ⟨hle, h⟩ := quoted?_append more h
    exact ⟨hle, .text hc h⟩
  | template hc h =>
    obtain ⟨hle, h⟩ := templateSegments_append more h
    exact ⟨hle, .template hc h⟩
  | number hc =>
    refine ⟨number_le c cs, ?_⟩
    rw [← number_newline more]
    exact .number hc
  | identifier hc h =>
    refine ⟨length_takeWhile_le _ _, ?_⟩
    rw [← hword] at h ⊢
    exact .identifier hc h
  | keyword hc h =>
    refine ⟨length_takeWhile_le _ _, ?_⟩
    rw [← hword] at h ⊢
    exact .keyword hc h
  | symbol h =>
    refine ⟨symbol?_le h, .symbol ?_⟩
    rw [symbol?_newline]
    exact h

theorem head?_append_newline (cs : List Char) {c : Char} (hc : c ≠ '\n') :
    (cs ++ '\n' :: more).head? = some c ↔ cs.head? = some c := by
  cases cs with
  | nil => simp [hc.symm]
  | cons d cs => rfl

end

section
variable {file offset : Nat} {c : Char} {cs : List Char}

theorem tokens_blank (h : isBlank c = true) :
    tokens file offset (c :: cs) = tokens file (offset + c.utf8Size) cs := by
  rw [tokens, if_pos h]

theorem tokens_comment (hblank : ¬ isBlank c = true) (h : c = '/' ∧ cs.head? = some '/') :
    tokens file offset (c :: cs) =
      tokens file (offset + byteLength (c :: cs.takeWhile (· != '\n')))
        (cs.drop (cs.takeWhile (· != '\n')).length) := by
  rw [tokens, if_neg hblank, if_pos h]

theorem tokens_lexeme (hblank : ¬ isBlank c = true)
    (hcomment : ¬ (c = '/' ∧ cs.head? = some '/')) :
    tokens file offset (c :: cs) = do
      let (kind, value, n) ← lexeme file offset c cs
      let characters := c :: cs.take n
      let stop := offset + byteLength characters
      let later ← tokens file stop (cs.drop n)
      return ⟨kind, String.ofList characters, value, ⟨file, offset, stop⟩⟩ :: later := by
  rw [tokens, if_neg hblank, if_neg hcomment]
  cases lexeme file offset c cs with
  | error e => rfl
  | ok found =>
    obtain ⟨kind, value, n⟩ := found
    change _ = (tokens file (offset + byteLength (c :: cs.take n)) (cs.drop n) >>= _)
    dsimp only
    cases tokens file (offset + byteLength (c :: cs.take n)) (cs.drop n) <;> rfl

end

theorem byteLength_take_add_drop (n : Nat) (cs : List Char) :
    byteLength (cs.take n) + byteLength (cs.drop n) = byteLength cs := by
  rw [← byteLength_append, List.take_append_drop]

theorem Lexeme.kind_ne_endOfText {file offset : Nat} {c : Char} {cs : List Char} {kind : Kind}
    {value : Value} {n : Nat} (h : Lexeme file offset c cs kind value n) : kind ≠ .endOfText := by
  cases h with
  | symbol h =>
    rintro rfl
    cases isSymbolKind_of_symbol? h
  | _ => nofun

/-- A scan that comes to its end goes on behind a line break as if it had just begun. -/
theorem tokens_append {file offset : Nat} {cs : List Char} {ts : List Token}
    (h : tokens file offset cs = .ok ts) (more : List Char) :
    ∃ body stop, ts = body ++ [.finish file stop] ∧ (∀ t ∈ body, t.kind ≠ .endOfText) ∧
      tokens file offset (cs ++ '\n' :: more) =
        (tokens file (offset + (byteLength cs + 1)) more).map (body ++ ·) := by
  fun_induction tokens file offset cs generalizing ts
  case case1 offset =>
    cases h
    refine ⟨[], offset, rfl, by simp, ?_⟩
    rw [List.nil_append, tokens_blank rfl]
    exact (congrFun Except.map_id _).symm
  case case2 offset c cs hblank ih =>
    obtain ⟨body, stop, hts, hbody, happend⟩ := ih h
    refine ⟨body, stop, hts, hbody, ?_⟩
    rw [List.cons_append, tokens_blank hblank, happend, byteLength_cons]
    simp only [Nat.add_assoc]
  case case3 offset c cs hblank hcomment comment ih =>
    obtain ⟨body, stop, hts, hbody, happend⟩ := ih h
    have hcomment' : c = '/' ∧ (cs ++ '\n' :: more).head? = some '/' :=
      ⟨hcomment.1, (head?_append_newline more cs (by decide)).mpr hcomment.2⟩
    have htake : (cs ++ '\n' :: more).takeWhile (· != '\n') = comment :=
      takeWhile_newline more rfl cs
    have hlength : byteLength comment + byteLength (cs.drop comment.length) = byteLength cs := by
      have hsplit := byteLength_take_add_drop comment.length cs
      rwa [take_length_takeWhile] at hsplit
    refine ⟨body, stop, hts, hbody, ?_⟩
    rw [List.cons_append, tokens_comment hblank hcomment', htake,
      List.drop_append_of_le_length (length_takeWhile_le _ _), happend, byteLength_cons,
      byteLength_cons, ← hlength]
    simp only [Nat.add_assoc]
  case case4 => cases h
  case case5 => cases h
  case case6 offset c cs hblank hcomment kind value n hlexeme characters stop later hlater ih =>
    cases h
    obtain ⟨body, finish, hts, hbody, happend⟩ := ih hlater
    obtain ⟨hle, hlexeme'⟩ := Lexeme.append more (lexeme_eq_ok_iff.mp hlexeme)
    have hcomment' : ¬ (c = '/' ∧ (cs ++ '\n' :: more).head? = some '/') := by
      rw [head?_append_newline more cs (by decide)]
      exact hcomment
    have hlength := byteLength_take_add_drop n cs
    refine ⟨⟨kind, String.ofList characters, value, ⟨file, offset, stop⟩⟩ :: body, finish,
      ?_, ?_, ?_⟩
    · rw [hts]
      rfl
    · intro t ht
      rcases List.mem_cons.mp ht with rfl | ht
      · exact (lexeme_eq_ok_iff.mp hlexeme).kind_ne_endOfText
      · exact hbody t ht
    · have hstop : stop + (byteLength (cs.drop n) + 1) = offset + (byteLength (c :: cs) + 1) := by
        change offset + byteLength (c :: cs.take n) + (byteLength (cs.drop n) + 1) = _
        rw [byteLength_cons, byteLength_cons, ← hlength]
        omega
      rw [List.cons_append, tokens_lexeme hblank hcomment', lexeme_eq_ok_iff.mpr hlexeme']
      change (tokens file (offset + byteLength (c :: (cs ++ '\n' :: more).take n))
        ((cs ++ '\n' :: more).drop n) >>= _) = _
      rw [List.take_append_of_le_length hle, List.drop_append_of_le_length hle]
      change (tokens file stop (cs.drop n ++ '\n' :: more) >>= _) = _
      rw [happend, hstop]
      cases tokens file (offset + (byteLength (c :: cs) + 1)) more <;> rfl

/-- The result for the same characters `delta` bytes further on. -/
def shifted {α : Type} (file delta : Nat) (move : α → α) : Except ScanError α → Except ScanError α
  | .error e => .error ⟨e.fault, e.span.shift file delta⟩
  | .ok a => .ok (move a)

section
variable (file delta : Nat)

theorem interpolation_shift (opening : Nat) (cs : List Char) :
    interpolation file (opening + delta) cs =
      shifted file delta (Prod.map (Segment.relabel (Span.shift file delta)) id)
        (interpolation file opening cs) := by
  unfold interpolation
  dsimp only
  split_ifs <;>
    simp only [shifted, Prod.map, Segment.relabel, Span.shift, Nat.add_right_comm _ delta, id]

theorem textSegment_relabel (f : Span → Span) (content : List Char) :
    (textSegment content).map (Segment.relabel f) = textSegment content := by
  unfold textSegment
  split_ifs <;> rfl

theorem templateSegments_shift (opening offset : Nat) (cs : List Char) :
    templateSegments file (opening + delta) (offset + delta) cs =
      shifted file delta (Prod.map (List.map (Segment.relabel (Span.shift file delta))) id)
        (templateSegments file opening offset cs) := by
  fun_induction templateSegments file opening offset cs
  case case1 offset cs content inner hdrop brace e hinner =>
    rw [templateSegments_brace hdrop]
    change (interpolation file (offset + delta + byteLength content) inner >>= _) = _
    rw [Nat.add_right_comm, interpolation_shift, hinner]
    rfl
  case case2 offset cs content inner hdrop brace segment n hinner resume e hlater ih =>
    rw [templateSegments_brace hdrop]
    change (interpolation file (offset + delta + byteLength content) inner >>= _) = _
    rw [Nat.add_right_comm, interpolation_shift, hinner]
    change (templateSegments file (opening + delta)
      (brace + delta + 1 + byteLength (inner.take n)) (inner.drop n) >>= _) = _
    rw [Nat.add_right_comm brace, Nat.add_right_comm (brace + 1)]
    change (templateSegments file (opening + delta) (resume + delta) (inner.drop n) >>= _) = _
    rw [ih, hlater]
    rfl
  case case3 offset cs content inner hdrop brace segment n hinner resume later m hlater ih =>
    rw [templateSegments_brace hdrop]
    change (interpolation file (offset + delta + byteLength content) inner >>= _) = _
    rw [Nat.add_right_comm, interpolation_shift, hinner]
    change (templateSegments file (opening + delta)
      (brace + delta + 1 + byteLength (inner.take n)) (inner.drop n) >>= _) = _
    rw [Nat.add_right_comm brace, Nat.add_right_comm (brace + 1)]
    change (templateSegments file (opening + delta) (resume + delta) (inner.drop n) >>= _) = _
    rw [ih, hlater]
    simp only [shifted, Prod.map, List.map_append, List.map_cons, textSegment_relabel, id]
    rfl
  case case4 offset cs content rest hdrop =>
    rw [templateSegments_backtick hdrop]
    simp only [shifted, Prod.map, textSegment_relabel, id]
    rfl
  case case5 offset cs content hbrace htick =>
    rw [templateSegments_end hbrace htick]
    simp only [shifted, Span.shift, Nat.add_right_comm _ delta]

theorem lexeme_shift (offset : Nat) (c : Char) (cs : List Char) :
    lexeme file (offset + delta) c cs =
      shifted file delta (Prod.map id (Prod.map (Value.relabel (Span.shift file delta)) id))
        (lexeme file offset c cs) := by
  unfold lexeme
  split_ifs with hquote htick hdigit hname
  · cases quoted? cs with
    | none => simp only [shifted, Span.shift, Nat.add_right_comm _ delta]
    | some content => rfl
  · rw [Nat.add_right_comm, templateSegments_shift]
    cases templateSegments file offset (offset + 1) cs with
    | error e => rfl
    | ok found =>
      obtain ⟨segments, n⟩ := found
      simp only [shifted, Prod.map, id, Value.relabel, List.map_eq_nil_iff]
      split_ifs <;> rfl
  · rfl
  · rfl
  · cases symbol? c cs with
    | none => simp only [shifted, Span.shift, Nat.add_right_comm _ delta]
    | some found => rfl

theorem tokens_shift (offset : Nat) (cs : List Char) :
    tokens file (offset + delta) cs =
      shifted file delta (List.map (Token.relabel (Span.shift file delta)))
        (tokens file offset cs) := by
  fun_induction tokens file offset cs
  case case1 offset =>
    rw [tokens]
    rfl
  case case2 offset c cs hblank ih =>
    rw [tokens_blank hblank, Nat.add_right_comm, ih]
  case case3 offset c cs hblank hcomment comment ih =>
    rw [tokens_comment hblank hcomment, Nat.add_right_comm]
    exact ih
  case case4 offset c cs hblank hcomment e hlexeme =>
    rw [tokens_lexeme hblank hcomment, lexeme_shift, hlexeme]
    rfl
  case case5 offset c cs hblank hcomment kind value n hlexeme characters stop e hlater ih =>
    rw [tokens_lexeme hblank hcomment, lexeme_shift, hlexeme]
    change (tokens file (offset + delta + byteLength characters) (cs.drop n) >>= _) = _
    rw [Nat.add_right_comm]
    change (tokens file (stop + delta) (cs.drop n) >>= _) = _
    rw [ih, hlater]
    rfl
  case case6 offset c cs hblank hcomment kind value n hlexeme characters stop later hlater ih =>
    have hstop : offset + delta + byteLength characters = stop + delta := Nat.add_right_comm _ _ _
    rw [tokens_lexeme hblank hcomment, lexeme_shift, hlexeme]
    change (tokens file (offset + delta + byteLength characters) (cs.drop n) >>= fun later =>
      pure (⟨kind, String.ofList characters, value.relabel (Span.shift file delta),
        ⟨file, offset + delta, offset + delta + byteLength characters⟩⟩ :: later)) = _
    rw [hstop, ih, hlater]
    rfl

end

end Scan

end Scriptwright
