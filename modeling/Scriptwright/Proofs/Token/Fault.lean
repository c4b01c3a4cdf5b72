import Scriptwright.Proofs.Token.Cut

/-!
# The characters that a fault is about

A text that cannot be cut into tokens has a first fault. Its span covers whole characters of
the text, and at least one. The span of an unexpected character covers this character alone.
-/

namespace Scriptwright

/-- The fault is about these characters, which stand behind others. -/
structure ScanError.About (file : Nat) (before found : List Char) (e : ScanError) : Prop where
  span : e.span = ⟨file, byteLength before, byteLength before + byteLength found⟩
  nonempty : found ≠ []
  names : ∀ c, e.fault = .unexpectedCharacter c → found = [c]

/-- The fault is about some characters of the text. -/
def ScanError.Within (file : Nat) (text : List Char) (e : ScanError) : Prop :=
  ∃ before found after, text = before ++ (found ++ after) ∧ e.About file before found

namespace Scan

/-- The first of two readings fails, or the second does behind it. -/
theorem error_cases {α β : Type} {x : Except ScanError α} {f : α → Except ScanError β}
    {e : ScanError} (h : x >>= f = .error e) :
    x = .error e ∨ ∃ a, x = .ok a ∧ f a = .error e := by
  cases x with
  | error e' =>
    cases h
    exact .inl rfl
  | ok a => exact .inr ⟨a, rfl, h⟩

theorem leadingName_prefix (cs : List Char) : leadingName cs <+: cs := by
  unfold leadingName
  split
  · split_ifs
    · exact List.takeWhile_prefix _
    · exact List.nil_prefix
  · exact List.nil_prefix

/-- What stands behind a brace: a name, which may be missing, with blanks around it. -/
structure Braced (cs : List Char) (before : Lexicon.Run isSpace) (name : List Char)
    (after : Lexicon.Run isSpace) (tail : List Char) : Prop where
  characters : cs = before.val ++ (name ++ (after.val ++ tail))
  stops_before : Stops isSpace (name ++ (after.val ++ tail))
  leads : leadingName (name ++ (after.val ++ tail)) = name
  stops_after : Stops isSpace tail

theorem exists_braced (cs : List Char) :
    ∃ before name after tail, Braced cs before name after tail := by
  obtain ⟨before, rest, rfl, hbefore⟩ := Lexicon.exists_run isSpace cs
  obtain ⟨behind, hbehind⟩ := leadingName_prefix rest
  generalize hname : leadingName rest = name at hbehind
  subst hbehind
  obtain ⟨after, tail, rfl, hafter⟩ := Lexicon.exists_run isSpace behind
  exact ⟨before, name, after, tail, rfl, hbefore, hname, hafter⟩

theorem interpolation_braced {cs name tail : List Char} {before after : Lexicon.Run isSpace}
    (h : Braced cs before name after tail) (file opening : Nat) :
    interpolation file opening cs =
      let start := opening + 1 + byteLength before.val
      let stop := start + byteLength name
      if name = [] then .error ⟨.missingName, ⟨file, opening, start⟩⟩
      else if tail.head? = some '}' then
        .ok (.name (String.ofList name) ⟨file, start, stop⟩,
          before.val.length + name.length + after.val.length + 1)
      else .error ⟨.missingBrace, ⟨file, opening, stop + byteLength after.val⟩⟩ := by
  obtain ⟨rfl, hbefore, hname, hafter⟩ := h
  simp only [interpolation, before.takeWhile hbefore, List.drop_left, hname, ← List.drop_drop,
    after.takeWhile hafter]

theorem interpolation_within {file : Nat} {front cs : List Char} {e : ScanError}
    (h : interpolation file (byteLength front) cs = .error e) :
    e.Within file (front ++ '{' :: cs) := by
  have hone : ('{' : Char).utf8Size = 1 := by decide
  obtain ⟨before, name, after, tail, hcs⟩ := exists_braced cs
  rw [interpolation_braced hcs] at h
  dsimp only at h
  split_ifs at h with hname hbrace
  · cases h
    refine ⟨front, '{' :: before.val, name ++ (after.val ++ tail), ?_, ?_,
      List.cons_ne_nil _ _, by rintro _ ⟨⟩⟩
    · rw [hcs.characters, List.cons_append]
    · rw [byteLength_cons, hone, Nat.add_assoc]
  · cases h
    refine ⟨front, '{' :: (before.val ++ (name ++ after.val)), tail, ?_, ?_,
      List.cons_ne_nil _ _, by rintro _ ⟨⟩⟩
    · rw [hcs.characters]
      simp
    · simp only [byteLength_cons, byteLength_append, hone, Nat.add_assoc]

theorem drop_content (content : Lexicon.Run isTemplateText) {rest : List Char}
    (h : Stops isTemplateText rest) :
    (content.val ++ rest).drop ((content.val ++ rest).takeWhile isTemplateText).length = rest := by
  rw [content.takeWhile h, List.drop_left]

theorem eq_brace_or_backtick {c : Char} {cs : List Char} (h : Stops isTemplateText (c :: cs)) :
    c = '{' ∨ c = '`' := by
  have hc := h c rfl
  simp only [isTemplateText, Bool.and_eq_false_iff, bne_eq_false_iff_eq] at hc
  exact hc.symm

theorem templateSegments_within {file : Nat} {front inside cs : List Char} {e : ScanError}
    (hinside : inside ≠ [])
    (h : templateSegments file (byteLength front) (byteLength (front ++ inside)) cs = .error e) :
    e.Within file (front ++ (inside ++ cs)) := by
  induction hsize : cs.length using Nat.strong_induction_on generalizing inside cs with
  | h size ih =>
  obtain ⟨content, rest, rfl, hrest⟩ := Lexicon.exists_run isTemplateText cs
  have hbehind := drop_content content hrest
  cases rest with
  | nil =>
    rw [templateSegments_end (by rw [hbehind]; nofun) (by rw [hbehind]; nofun)] at h
    cases h
    refine ⟨front, inside ++ (content.val ++ []), [], by simp, ?_, ?_, by rintro _ ⟨⟩⟩
    · rw [byteLength_append, byteLength_append inside, Nat.add_assoc]
    · exact fun hnil => hinside (List.append_eq_nil_iff.mp hnil).1
  | cons c inner =>
    rcases eq_brace_or_backtick hrest with rfl | rfl
    · rw [templateSegments_brace hbehind, content.takeWhile hrest] at h
      dsimp only at h
      rw [← byteLength_append] at h
      rcases error_cases h with hfound | ⟨⟨segment, n⟩, -, h⟩
      · simpa using interpolation_within hfound
      · have hresume : byteLength (front ++ inside ++ content.val) + 1 + byteLength (inner.take n) =
            byteLength (front ++ (inside ++ content.val ++ '{' :: inner.take n)) := by
          have hone : ('{' : Char).utf8Size = 1 := by decide
          simp only [byteLength_append, byteLength_cons, hone, Nat.add_assoc]
        have hshorter : (inner.drop n).length < size := by
          rw [← hsize, List.length_append, List.length_cons, List.length_drop]
          omega
        rcases error_cases h with hlater | ⟨later, -, h⟩
        · rw [hresume] at hlater
          simpa using ih _ hshorter (by simp) hlater rfl
        · cases h
    · rw [templateSegments_backtick hbehind] at h
      cases h

theorem lexeme_within {file : Nat} {front cs : List Char} {c : Char} {e : ScanError}
    (h : lexeme file (byteLength front) c cs = .error e) : e.Within file (front ++ c :: cs) := by
  unfold lexeme at h
  split_ifs at h with hquote htick
  · split at h
    · cases h
    · cases h
      exact ⟨front, c :: cs, [], by rw [List.append_nil], rfl, List.cons_ne_nil _ _,
        by rintro _ ⟨⟩⟩
  · subst htick
    have hbehind : byteLength front + 1 = byteLength (front ++ ['`']) := by
      rw [byteLength_append]
      rfl
    rw [hbehind] at h
    split at h
    case h_1 hfound =>
      cases h
      exact templateSegments_within (List.cons_ne_nil '`' []) hfound
    case h_2 => cases h
  · split at h
    · cases h
    · cases h
      refine ⟨front, [c], cs, rfl, rfl, List.cons_ne_nil _ _, ?_⟩
      rintro d ⟨⟩
      rfl

theorem tokens_within {file : Nat} {front cs : List Char} {e : ScanError}
    (h : tokens file (byteLength front) cs = .error e) : e.Within file (front ++ cs) := by
  induction hsize : cs.length using Nat.strong_induction_on generalizing front cs with
  | h size ih =>
  cases cs with
  | nil =>
    rw [tokens] at h
    cases h
  | cons c cs =>
    -- What is read next begins behind the first of the characters.
    have hlater : ∀ n, tokens file (byteLength front + byteLength (c :: cs.take n)) (cs.drop n) =
        .error e → e.Within file (front ++ c :: cs) := by
      intro n hn
      have hshorter : (cs.drop n).length < size := by
        rw [← hsize, List.length_cons, List.length_drop]
        omega
      rw [← byteLength_append] at hn
      simpa using ih _ hshorter hn rfl
    by_cases hblank : isBlank c = true
    · rw [tokens_blank hblank] at h
      exact hlater 0 h
    · by_cases hcomment : c = '/' ∧ cs.head? = some '/'
      · rw [tokens_comment hblank hcomment] at h
        refine hlater (cs.takeWhile (· != '\n')).length ?_
        rw [take_length_takeWhile]
        exact h
      · rw [tokens_lexeme hblank hcomment] at h
        rcases error_cases h with hfound | ⟨⟨kind, value, n⟩, -, h⟩
        · exact lexeme_within hfound
        · rcases error_cases h with htokens | ⟨later, -, h⟩
          · exact hlater n htokens
          · cases h

end Scan

theorem within_of_scan {file : Nat} {text : String} {e : ScanError}
    (h : scan file text = .error e) : e.Within file text.toList := by
  have hbegin : byteLength [] = 0 := rfl
  rw [scan, ← hbegin] at h
  exact Scan.tokens_within h

end Scriptwright
