import Scriptwright.Proofs.Compile.Concatenation
import Scriptwright.Proofs.Position
import Scriptwright.Proofs.Token.Extent

/-!
# Errors and diagnostics name the same place

The compiler locates an error by means of the files of a session, and the checker resolves
it against the one file that it reads. Both start from the span of the error. It lies in
that file, its bytes are in order, and so both name the same place on a line of the text.

The spans of the parser's errors are joined from the spans of the tokens. What is true of
them is seen by changing the spans of the tokens: if two changes that agree with joining do
the same to every token, they do the same to the error.
-/

namespace Scriptwright

namespace Span

/-- The span moved to a file and cut off at byte `high`. -/
def clamp (file high : Nat) (s : Span) : Span := ⟨file, min s.start high, min s.stop high⟩

/-- Tells whether byte `k` separates the end of a span from its start, the wrong way
around: only then the mark is not the span at `0`. -/
def mark (k : Nat) (s : Span) : Span := ⟨0, if s.stop < k ∧ k ≤ s.start then 1 else 0, 0⟩

theorem clamp_cover (file high : Nat) (a b : Span) :
    (a.cover b).clamp file high = (a.clamp file high).cover (b.clamp file high) := by
  simp only [clamp, cover, mk.injEq, true_and]
  omega

theorem mark_cover (k : Nat) (a b : Span) : (a.cover b).mark k = (a.mark k).cover (b.mark k) := by
  have hboth : (max a.stop b.stop < k ∧ k ≤ min a.start b.start) ↔
      (a.stop < k ∧ k ≤ a.start) ∧ b.stop < k ∧ k ≤ b.start := by omega
  simp only [mark, cover, hboth]
  by_cases ha : a.stop < k ∧ k ≤ a.start <;>
    by_cases hb : b.stop < k ∧ k ≤ b.start <;> simp [ha, hb]

theorem Inside.clamp_eq {file high : Nat} {s : Span} (h : s.Inside file 0 high) :
    s.clamp file high = s := by
  obtain ⟨hfile, -, hordered, hhigh⟩ := h
  rw [clamp, Nat.min_eq_left hhigh, Nat.min_eq_left (hordered.trans hhigh), ← hfile]

theorem mark_eq_point {s : Span} {k : Nat} :
    s.mark k = .point 0 0 ↔ ¬ (s.stop < k ∧ k ≤ s.start) := by
  simp only [mark, point, mk.injEq, true_and, and_true]
  split_ifs with h <;> simp [h]

end Span

theorem Token.relabel_congr {f g : Span → Span} {t : Token} (h : ∀ s ∈ t.spans, f s = g s) :
    t.relabel f = t.relabel g := by
  have hspan : f t.span = g t.span := h _ List.mem_cons_self
  have hvalue : t.value.relabel f = t.value.relabel g := by
    have hinner : ∀ s ∈ t.value.spans, f s = g s := fun s hs => h s (List.mem_cons_of_mem _ hs)
    cases hv : t.value with
    | template segments =>
      rw [hv] at hinner
      refine congrArg Value.template (List.map_congr_left fun segment hsegment => ?_)
      cases segment with
      | text content => rfl
      | name name span =>
        exact congrArg (Segment.name name)
          (hinner span (List.mem_flatMap.mpr ⟨_, hsegment, List.mem_singleton_self _⟩))
    | none | number | text => rfl
  rw [relabel, relabel, hspan, hvalue]

theorem SyntaxError.span_ofFailure_relabel (f : Span → Span) (finish : Span) (e : Failure) :
    (ofFailure (f finish) (e.relabel f)).span = f (ofFailure finish e).span :=
  match e with
  | .over _ _ | .here _ [] | .here _ (_ :: _) => rfl

theorem Grammar.run_declarations_relabel {f : Span → Span}
    (hf : ∀ a b : Span, f (a.cover b) = (f a).cover (f b)) {n : Nat} {tokens : List Token}
    {failure : Failure} (h : (Parser.declarations n).run tokens = .error failure) :
    (Parser.declarations n).run (tokens.map (Token.relabel f)) = .error (failure.relabel f) := by
  have hrun := alike_declarations hf (n := n) tokens
  rw [h] at hrun
  generalize (Parser.declarations n).run (tokens.map (Token.relabel f)) = r at hrun ⊢
  cases hrun with
  | error => rfl

namespace Program

section
variable {file : Nat} {body : List Token} (hbody : ∀ t ∈ body, t.kind ≠ .endOfText)
  {t : Token} (ht : t.kind = .endOfText) {e : SyntaxError}
  (h : ofTokens file (body ++ [t]) = .error e)
include hbody ht h

/-- Two changes of spans that agree on the tokens agree on the error. -/
theorem span_error_congr {f g : Span → Span}
    (hf : ∀ a b : Span, f (a.cover b) = (f a).cover (f b))
    (hg : ∀ a b : Span, g (a.cover b) = (g a).cover (g b))
    (hagree : ∀ s ∈ (body ++ [t]).flatMap Token.spans, f s = g s) : f e.span = g e.span := by
  obtain ⟨failure, hrun, rfl⟩ := (ofTokens_finish_eq_error hbody ht).mp h
  have htokens : ∀ u ∈ body ++ [t], u.relabel f = u.relabel g := by
    intro u hu
    exact Token.relabel_congr fun s hs => hagree s (List.mem_flatMap.mpr ⟨u, hu, hs⟩)
  have hmap : body.map (Token.relabel f) = body.map (Token.relabel g) :=
    List.map_congr_left fun u hu => htokens u (List.mem_append_left _ hu)
  have hfinish : f t.span = g t.span :=
    congrArg Token.span (htokens t (List.mem_append_right _ (List.mem_singleton_self t)))
  have hfailure : failure.relabel f = failure.relabel g := by
    have hrunf := Grammar.run_declarations_relabel hf hrun
    rw [hmap, Grammar.run_declarations_relabel hg hrun] at hrunf
    exact (Except.error.inj hrunf).symm
  rw [← SyntaxError.span_ofFailure_relabel f, ← SyntaxError.span_ofFailure_relabel g, hfinish,
    hfailure]

theorem span_error_inside {high : Nat}
    (hinside : ∀ s ∈ (body ++ [t]).flatMap Token.spans, s.Inside file 0 high) :
    e.span.Inside file 0 high := by
  have hclamp := span_error_congr hbody ht h (g := id) (Span.clamp_cover file high)
    (fun _ _ => rfl) fun s hs => (hinside s hs).clamp_eq
  have hmark := span_error_congr hbody ht h (g := fun _ => .point 0 0)
    (Span.mark_cover e.span.start) (fun _ _ => rfl) fun s hs => by
      have hordered := (hinside s hs).ordered
      exact Span.mark_eq_point.mpr (by omega)
  have hfile : file = e.span.file := congrArg Span.file hclamp
  have hstop : min e.span.stop high = e.span.stop := congrArg Span.stop hclamp
  have hordered := Span.mark_eq_point.mp hmark
  exact ⟨hfile.symm, Nat.zero_le _, by omega, by omega⟩

end

end Program

namespace SourceFile

/-- An error has a code and a span, and the span lies within the file. -/
theorem error_inside {f : SourceFile} {e : Error} (h : f.program = .error e) :
    ∃ code span, e.code? = some code ∧ e.span? = some span ∧
      span.Inside f.id 0 (byteLength f.text.toList) := by
  have hscan := scan_inside f.id f.text
  cases program_eq_error.mp h with
  | inl h =>
    obtain ⟨fault, hfault, rfl⟩ := h
    rw [hfault] at hscan
    exact ⟨_, fault.span, rfl, rfl, hscan fault.span (List.mem_singleton_self _)⟩
  | inr h =>
    obtain ⟨tokens, fault, htokens, hfault, rfl⟩ := h
    rw [htokens] at hscan
    obtain ⟨body, stop, rfl, hbody, -⟩ := scan_append htokens ""
    exact ⟨_, fault.span, rfl, rfl, Program.span_error_inside hbody rfl hfault hscan⟩

theorem check_eq_nil {f : SourceFile} : f.check = [] ↔ ∃ p, f.program = .ok p := by
  unfold check
  cases f.program <;> simp

theorem check_of_error {f : SourceFile} {e : Error} (h : f.program = .error e) {span : Span}
    (hspan : e.span? = some span) :
    f.check =
      [⟨e.code?, e.message, span, some ⟨f.position span.start, f.position span.stop⟩⟩] := by
  simp only [check, h, Diagnostic.ofError, Diagnostic.resolve, hspan]

end SourceFile

theorem Error.locate_of_span {e : Error} {code : String} {span : Span} (hcode : e.code? = some code)
    (hspan : e.span? = some span) {m : SourceMap} {f : SourceFile}
    (hfile : m.get? span.file = some f) :
    e.locate m = .located code e.message f.path (f.position span.start) := by
  cases e with
  | lexical | syntactic =>
    cases hcode
    cases hspan
    simp only [locate, hfile]
    rfl
  | located | unreadable | unwritable => cases hspan

namespace SourceMap

/-- The session after files were added, each given by its path and its text. -/
def ofFiles (files : List (String × String)) : SourceMap :=
  files.foldl (fun m file => m.add file.1 file.2) empty

/-- Every file is found by its number. -/
def Numbered (m : SourceMap) : Prop := ∀ f ∈ m.files, m.get? f.id = some f

theorem Numbered.add {m : SourceMap} (h : m.Numbered) (path text : String) :
    (m.add path text).Numbered := by
  intro f hf
  rw [get?_add]
  cases List.mem_append.mp hf with
  | inl hf =>
    have hget := h f hf
    have hlt : f.id < m.files.length := (List.getElem?_eq_some_iff.mp hget).1
    rw [if_neg (Nat.ne_of_lt hlt), hget]
  | inr hf =>
    rw [List.mem_singleton.mp hf, if_pos rfl]

theorem numbered_foldl (files : List (String × String)) {m : SourceMap} (h : m.Numbered) :
    (files.foldl (fun m file => m.add file.1 file.2) m).Numbered := by
  induction files generalizing m with
  | nil => exact h
  | cons file files ih => exact ih (h.add file.1 file.2)

theorem numbered_ofFiles (files : List (String × String)) : (ofFiles files).Numbered :=
  numbered_foldl files (List.forall_mem_nil _)

end SourceMap

/-- An error of a file is located and shown in one way. -/
theorem SourceFile.error_reported {m : SourceMap} {f : SourceFile} (hfile : m.get? f.id = some f)
    {e : Error} (h : f.program = .error e) :
    ∃ code span start stop, e.code? = some code ∧ e.span? = some span ∧
      e.locate m = .located code e.message f.path start ∧
      f.check = [⟨some code, e.message, some span, some ⟨start, stop⟩⟩] ∧
      start.On f.text ∧ start ≤ stop := by
  obtain ⟨code, span, hcode, hspan, hinside⟩ := error_inside h
  rw [← hinside.file] at hfile
  refine ⟨code, span, f.position span.start, f.position span.stop, hcode, hspan, ?_, ?_, ?_, ?_⟩
  · exact Error.locate_of_span hcode hspan hfile
  · rw [check_of_error h hspan, hcode]
  · exact position_on f.id f.path f.text (hinside.ordered.trans hinside.high)
  · exact f.position_mono hinside.ordered

/-- A file is checked without complaint if it holds a program. Otherwise there is one
diagnostic, and the located error has its code, its message and the place where its range
starts, whichever other files belong to the session. The place is one of the file, and the
range does not end before it. Compiling a text fails when checking it complains, and tells
the same. -/
theorem check_agrees_with_errors :
    (∀ (files : List (String × String)), ∀ f ∈ (SourceMap.ofFiles files).files,
      (f.check = [] ↔ ∃ p, f.program = .ok p) ∧
      ∀ e, f.program = .error e → ∃ code span start stop,
        e.code? = some code ∧ e.span? = some span ∧
        e.locate (SourceMap.ofFiles files) = .located code e.message f.path start ∧
        f.check = [⟨some code, e.message, some span, some ⟨start, stop⟩⟩] ∧
        start.On f.text ∧ start ≤ stop) ∧
    ∀ text path : String,
      ((∃ e, compile text path = .error e) ↔ check text path ≠ []) ∧
      ∀ e, compile text path = .error e → ∃ code message span start stop,
        e = .located code message path start ∧
        check text path = [⟨some code, message, some span, some ⟨start, stop⟩⟩] := by
  constructor
  · intro files f hf
    refine ⟨f.check_eq_nil, fun e he => ?_⟩
    exact SourceFile.error_reported (SourceMap.numbered_ofFiles files f hf) he
  · intro text path
    have hreported (e : Error) (he : compile text path = .error e) :
        ∃ code message span start stop, e = .located code message path start ∧
          check text path = [⟨some code, message, some span, some ⟨start, stop⟩⟩] := by
      obtain ⟨found, hfound, rfl⟩ := compile_eq_error.mp he
      have hfile : (SourceMap.empty.add path text).get? 0 = some ⟨0, path, text⟩ := rfl
      obtain ⟨code, span, start, stop, -, -, hlocated, hcheck, -⟩ :=
        SourceFile.error_reported hfile hfound
      exact ⟨code, found.message, span, start, stop, hlocated, hcheck⟩
    refine ⟨⟨?_, ?_⟩, hreported⟩
    · rintro ⟨e, he⟩ hnil
      obtain ⟨_, _, _, _, _, -, hcheck⟩ := hreported e he
      rw [hnil] at hcheck
      cases hcheck
    · intro hcheck
      cases hp : SourceFile.program ⟨0, path, text⟩ with
      | error e => exact ⟨_, compile_eq_error.mpr ⟨e, hp, rfl⟩⟩
      | ok p => exact absurd (SourceFile.check_eq_nil.mpr ⟨p, hp⟩) hcheck

/-- The second file of a session ends where a name is missing. The first, which cannot be
read either, makes no difference. -/
theorem second_file_reported :
    SourceFile.program ⟨1, "b", "\n  func"⟩ =
      .error (.syntactic "E0100" "Expected function name, got end of input" ⟨1, 7, 7⟩) ∧
    Error.locate (SourceMap.ofFiles [("a", "\""), ("b", "\n  func")])
        (.syntactic "E0100" "Expected function name, got end of input" ⟨1, 7, 7⟩) =
      .located "E0100" "Expected function name, got end of input" "b" ⟨2, 7⟩ ∧
    SourceFile.check ⟨1, "b", "\n  func"⟩ =
      [⟨some "E0100", "Expected function name, got end of input", some ⟨1, 7, 7⟩,
        some ⟨⟨2, 7⟩, ⟨2, 7⟩⟩⟩] ∧
    Position.On "\n  func" ⟨2, 7⟩ := by
  have hfault : (SourceFile.program ⟨1, "b", "\n  func"⟩).map (fun _ => ()) =
      .error (.syntactic "E0100" "Expected function name, got end of input" ⟨1, 7, 7⟩) := by
    decide +kernel
  have hprogram : SourceFile.program ⟨1, "b", "\n  func"⟩ =
      .error (.syntactic "E0100" "Expected function name, got end of input" ⟨1, 7, 7⟩) := by
    cases hp : SourceFile.program ⟨1, "b", "\n  func"⟩ with
    | error e =>
      rw [hp] at hfault
      exact congrArg Except.error (Except.error.inj hfault)
    | ok p =>
      rw [hp] at hfault
      cases hfault
  have hcheck : SourceFile.check ⟨1, "b", "\n  func"⟩ =
      [⟨some "E0100", "Expected function name, got end of input", some ⟨1, 7, 7⟩,
        some ⟨⟨2, 7⟩, ⟨2, 7⟩⟩⟩] := by
    decide +kernel
  have hmem : (⟨1, "b", "\n  func"⟩ : SourceFile) ∈
      (SourceMap.ofFiles [("a", "\""), ("b", "\n  func")]).files := by
    decide +kernel
  obtain ⟨code, span, start, stop, -, -, hlocated, hshown, hon, -⟩ :=
    (check_agrees_with_errors.1 _ _ hmem).2 _ hprogram
  rw [hcheck] at hshown
  cases hshown
  exact ⟨hprogram, hlocated, hcheck, hon⟩

end Scriptwright
