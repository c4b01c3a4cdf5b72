import Scriptwright.Command
import Scriptwright.Proofs.Build
import Scriptwright.Proofs.Diagnostic

/-!
# Checking a directory

Checking reads all sources and shows what is wrong with each, and compiling stops at the
first source that is refused. Since compiling reads every source as checking does, whatever
was written before, the one succeeds where the other does, and the first line that checking
shows tells what compiling stops with.
-/

namespace Scriptwright

/-- Compiling a text that is refused gives the error that the one diagnostic shows. -/
theorem compile_error_reported {text path : String} {e : Error}
    (h : compile text path = .error e) :
    ∃ code message span start stop, e = .located code message path start ∧
      check text path = [⟨some code, message, some span, some ⟨start, stop⟩⟩] := by
  obtain ⟨found, hfound, rfl⟩ := compile_eq_error.mp h
  have hfile : (SourceMap.empty.add path text).get? 0 = some ⟨0, path, text⟩ := rfl
  obtain ⟨code, span, start, stop, -, -, hlocated, hcheck, -⟩ :=
    SourceFile.error_reported hfile hfound
  exact ⟨code, found.message, span, start, stop, hlocated, hcheck⟩

theorem check_of_compile {text path javaScript : String} (h : compile text path = .ok javaScript) :
    check text path = [] := by
  obtain ⟨program, hprogram, -⟩ := compile_eq_ok.mp h
  exact SourceFile.check_eq_nil.mpr ⟨program, hprogram⟩

/-- The text of a file, or none if it cannot be read. -/
def World.text (w : World) (p : Path) : String :=
  match w.textAt p with
  | .ok text => text
  | .error _ => ""

theorem World.textAt_text {w : World} {p : Path} (h : ∃ text, w.textAt p = .ok text) :
    w.textAt p = .ok (w.text p) := by
  obtain ⟨_, h⟩ := h
  rw [text, h]

/-- Whether compiling a source fails. -/
def World.refuses (w : World) (s : Path) : Bool := !(compile (w.text s) s.text).isOk

/-- What is wrong with some sources, with the source that it is wrong with. -/
def World.faults (w : World) (sources : List Path) : List (Path × Diagnostic) :=
  sources.flatMap fun s => (check (w.text s) s.text).map fun d => (s, d)

/-- The diagnostic is the one of the source, and tells what compiling it fails with. -/
structure World.Diagnosed (w : World) (s : Path) (d : Diagnostic) : Prop where
  check_eq : check (w.text s) s.text = [d]
  agrees : ∃ code start, d.code = some code ∧ d.range.map Range.start = some start ∧
    compile (w.text s) s.text = .error (.located code d.message s.text start)

namespace World

theorem check_cases (w : World) (s : Path) :
    (w.refuses s = false ∧ check (w.text s) s.text = []) ∨
      (w.refuses s = true ∧ ∃ d, w.Diagnosed s d) := by
  unfold refuses
  cases hcompile : compile (w.text s) s.text with
  | ok javaScript => exact .inl ⟨rfl, check_of_compile hcompile⟩
  | error e =>
    obtain ⟨code, message, span, start, stop, rfl, hcheck⟩ := compile_error_reported hcompile
    exact .inr ⟨rfl, _, hcheck, code, start, rfl, rfl, hcompile⟩

/-- One fault for every source that is refused, in order. -/
theorem map_fst_faults (w : World) (sources : List Path) :
    (w.faults sources).map Prod.fst = sources.filter w.refuses := by
  induction sources with
  | nil => rfl
  | cons s sources ih =>
    rw [faults] at ih ⊢
    rw [List.flatMap_cons, List.map_append, ih]
    rcases w.check_cases s with ⟨hok, hcheck⟩ | ⟨hrefused, d, hd⟩
    · rw [hcheck, List.filter_cons_of_neg (by simp [hok])]
      rfl
    · rw [hd.check_eq, List.filter_cons_of_pos hrefused]
      rfl

theorem diagnosed_of_mem_faults (w : World) (sources : List Path) :
    ∀ fault ∈ w.faults sources, w.Diagnosed fault.1 fault.2 := by
  intro fault h
  obtain ⟨s, -, h⟩ := List.mem_flatMap.mp h
  obtain ⟨d, hd, rfl⟩ := List.mem_map.mp h
  rcases w.check_cases s with ⟨-, hcheck⟩ | ⟨-, d', hd'⟩
  · rw [hcheck] at hd
    cases hd
  · rw [hd'.check_eq] at hd
    cases List.mem_singleton.mp hd
    exact hd'

/-- What has been compiled is not refused. -/
theorem Wrote.filter_refuses {w w' : World} {done : List Path} (h : w.Wrote w' done) :
    done.filter w.refuses = [] := by
  rw [List.filter_eq_nil_iff]
  intro s hs
  obtain ⟨text, javaScript, htext, hcompile, -⟩ := h.outputs s hs
  cases htext.symm.trans (textAt_text ⟨text, htext⟩)
  rw [refuses, hcompile]
  exact Bool.false_ne_true

end World

namespace Command

/-- What is told of a named text. -/
def diagnosis (file : String × String) : List Event :=
  SourceFile.programEvents ⟨0, file.1, file.2⟩ ++
    (check file.2 file.1).map fun d => .diagnosed (d.render file.1)

theorem run_diagnose (w : World) (texts : List (String × String)) :
    w.run (diagnose texts) =
      ((texts.flatMap fun file => check file.2 file.1).length,
        w.tell (texts.flatMap diagnosis)) := by
  induction texts generalizing w with
  | nil =>
    rw [List.flatMap_nil, List.flatMap_nil, World.tell_nil]
    rfl
  | cons file texts ih =>
    obtain ⟨name, text⟩ := file
    have hread := Build.run_tellAll w (SourceFile.programEvents ⟨0, name, text⟩)
    have hshown := Build.run_tellAll (w.tell (SourceFile.programEvents ⟨0, name, text⟩))
      ((check text name).map fun d => .diagnosed (d.render name))
    have hrest := ih ((w.tell (SourceFile.programEvents ⟨0, name, text⟩)).tell
      ((check text name).map fun d => .diagnosed (d.render name)))
    rw [List.flatMap_cons, List.flatMap_cons, List.length_append, diagnosis, ← World.tell_tell,
      ← World.tell_tell]
    exact (World.run_bind hread _).trans
      ((World.run_bind hshown _).trans (World.run_bind hrest _))

theorem run_readSources {w : World} {sources : List Path}
    (h : ∀ s ∈ sources, ∃ text, w.textAt s = .ok text) :
    w.run (readSources sources).run = (.ok (sources.map fun s => (s.text, w.text s)), w) := by
  induction sources with
  | nil => rfl
  | cons s sources ih =>
    have hread := World.run_adapt (Build.run_readText w s)
      (Report.ofFault ("failed to read input file " ++ s.text))
    rw [World.textAt_text (h s List.mem_cons_self)] at hread
    have hrest := ih fun t ht => h t (List.mem_cons_of_mem _ ht)
    exact (World.run_bind_ok hread _).trans (World.run_bind_ok hrest _)

section
variable {w : World} {root : Path} {recursive : Bool}

theorem run_checkDirectory_error {e : Error}
    (h : w.run (Build.discover root recursive).run = (.error e, w)) :
    w.run (checkDirectory root recursive).run = (.error (.ofError e), w) :=
  World.run_bind_error (World.run_adapt h Report.ofError) _

theorem run_checkDirectory {sources : List Path}
    (hdiscover : w.run (Build.discover root recursive).run = (.ok sources, w))
    (htexts : ∀ s ∈ sources, ∃ text, w.textAt s = .ok text) :
    w.run (checkDirectory root recursive).run =
      w.run (checkTexts (sources.map fun s => (s.text, w.text s))).run :=
  (World.run_bind_ok (World.run_adapt hdiscover Report.ofError) _).trans
    (World.run_bind_ok (run_readSources htexts) _)

end

section
variable {w : World} {texts : List (String × String)}

theorem run_checkTexts (h : (texts.flatMap fun file => check file.2 file.1) = []) :
    w.run (checkTexts texts).run =
      (.ok "", w.tell (texts.flatMap diagnosis ++ [.checked texts.length])) := by
  have hdiagnosed := World.run_lift (ε := Report) w (diagnose texts)
  rw [run_diagnose, h] at hdiagnosed
  rw [← World.tell_tell]
  exact World.run_bind_ok hdiagnosed _

theorem run_checkTexts_error (h : (texts.flatMap fun file => check file.2 file.1) ≠ []) :
    w.run (checkTexts texts).run =
      (.error (.plain ("check found " ++
        Nat.repr (texts.flatMap fun file => check file.2 file.1).length ++ " error(s)")),
        w.tell (texts.flatMap diagnosis)) := by
  have hdiagnosed := World.run_lift (ε := Report) w (diagnose texts)
  rw [run_diagnose] at hdiagnosed
  refine (World.run_bind_ok hdiagnosed _).trans ?_
  rw [if_pos (List.length_pos_iff.mpr h)]
  rfl

end

theorem render_programEvents {f : SourceFile} {e : Event} (h : e ∈ f.programEvents) :
    e.render .warn = "" := by
  unfold SourceFile.programEvents at h
  cases hscan : scan f.id f.text with
  | error fault =>
    rw [hscan] at h
    cases h
  | ok tokens =>
    simp only [hscan, List.mem_cons] at h
    rcases h with rfl | h
    · rfl
    · cases hprogram : Program.ofTokens f.id tokens with
      | error fault =>
        rw [hprogram] at h
        cases h
      | ok program =>
        rw [hprogram] at h
        cases List.mem_singleton.mp h
        rfl

theorem join_render_programEvents (f : SourceFile) :
    String.join (f.programEvents.map (Event.render .warn)) = "" := by
  have hquiet : f.programEvents.map (Event.render .warn) =
      List.replicate f.programEvents.length "" := by
    rw [List.eq_replicate_iff]
    refine ⟨List.length_map _, fun line hline => ?_⟩
    obtain ⟨e, he, rfl⟩ := List.mem_map.mp hline
    exact render_programEvents he
  rw [hquiet]
  induction f.programEvents.length with
  | zero => rfl
  | succ n ih => rw [List.replicate_succ, String.join_cons, ih, String.empty_append]

/-- Unless more is asked for, the diagnostics are all that is shown. -/
theorem join_render_diagnosis (w : World) (sources : List Path) :
    String.join (((sources.map fun s => (s.text, w.text s)).flatMap diagnosis).map
        (Event.render .warn)) =
      String.join ((w.faults sources).map fun fault => fault.2.render fault.1.text ++ "\n") := by
  induction sources with
  | nil => rfl
  | cons s sources ih =>
    rw [World.faults] at ih ⊢
    rw [List.map_cons, List.flatMap_cons, List.flatMap_cons, List.map_append, List.map_append,
      String.join_append, String.join_append, ih, diagnosis, List.map_append, String.join_append,
      join_render_programEvents, String.empty_append, List.map_map, List.map_map]
    rfl

theorem errors_tell {w : World} (hfresh : w.events = []) {o : Outcome} (hlevel : o.level = .warn)
    (told : List Event) :
    o.errors (w.tell told).events =
      String.join (told.map (Event.render .warn)) ++ o.report := by
  rw [Outcome.errors, hlevel, World.tell, hfresh, List.nil_append]

theorem render_plain_count (n : Nat) :
    (Report.plain ("check found " ++ Nat.repr n ++ " error(s)")).render =
      "Error: check found " ++ Nat.repr n ++ " error(s)\n" := by
  have hplain (message : String) :
      (Report.plain message).render = "Error: " ++ message ++ "" ++ "\n" := rfl
  have hfront : "Error: check found " = "Error: " ++ "check found " := rfl
  have hback : " error(s)\n" = " error(s)" ++ "\n" := rfl
  rw [hplain, hfront, hback]
  simp only [String.append_assoc, String.empty_append]

theorem run_run_ok {w w' : World} {words : List Bytes} {o : Options} {output : String}
    (hwords : readArguments words = some (.run o))
    (h : w.run (runOptions o).run = (.ok output, w')) :
    w.run (run words) = (⟨0, output, o.logLevel, ""⟩, w') := by
  unfold run
  rw [hwords]
  exact World.run_bind h _

theorem run_run_error {w w' : World} {words : List Bytes} {o : Options} {report : Report}
    (hwords : readArguments words = some (.run o))
    (h : w.run (runOptions o).run = (.error report, w')) :
    w.run (run words) = (⟨1, "", o.logLevel, report.render⟩, w') := by
  unfold run
  rw [hwords]
  exact World.run_bind h _

section
variable {w : World} {target : Bytes}

theorem run_runOptions_directory (htarget : w.files.isDirectory w.base (.ofBytes target) = true)
    (recursive check : Bool) (level : Option Level) :
    w.run (runOptions ⟨some target, none, recursive, check, level⟩).run =
      w.run (if check then checkDirectory (.ofBytes target) recursive
        else compileDirectory (.ofBytes target) recursive).run := by
  have hasked := World.run_lift (ε := Report) w (Host.isDirectory (.ofBytes target))
  have hanswer : w.run (Host.isDirectory (.ofBytes target)) = (true, w) := by
    rw [← htarget]
    rfl
  rw [hanswer] at hasked
  exact World.run_bind_ok hasked _

variable {recursive : Bool}

theorem run_compileDirectory_error {e : Error} {w' : World}
    (h : w.run (Build.compileDirectory (.ofBytes target) recursive).run = (.error e, w')) :
    w.run (compileDirectory (.ofBytes target) recursive).run =
      (.error (.whileDoing ("failed to compile directory " ++ (Path.ofBytes target).text) e),
        w') := by
  have hadapted := World.run_adapt h
    (Report.whileDoing ("failed to compile directory " ++ (Path.ofBytes target).text))
  exact World.run_bind_error hadapted _

theorem run_compileDirectory_ok {pairs : List (Path × Path)} {w' : World}
    (h : w.run (Build.compileDirectory (.ofBytes target) recursive).run = (.ok pairs, w')) :
    ∃ w'', w.run (compileDirectory (.ofBytes target) recursive).run = (.ok "", w'') := by
  have hadapted := World.run_adapt h
    (Report.whileDoing ("failed to compile directory " ++ (Path.ofBytes target).text))
  exact ⟨_, World.run_bind_ok hadapted _⟩

variable {sources : List Path}
  (hdiscover : w.run (Build.discover (.ofBytes target) recursive).run = (.ok sources, w))
  (htexts : ∀ s ∈ sources, ∃ text, w.textAt s = .ok text)
include hdiscover htexts

/-- Checking fails where there are faults, and shows them. -/
theorem run_checkDirectory_faults :
    ∃ told r, w.run (checkDirectory (.ofBytes target) recursive).run = (r, w.tell told) ∧
      String.join (told.map (Event.render .warn)) =
        String.join ((w.faults sources).map fun fault => fault.2.render fault.1.text ++ "\n") ∧
      (w.faults sources = [] ∧ r = .ok "" ∨
        w.faults sources ≠ [] ∧ r = .error (.plain ("check found " ++
          Nat.repr (w.faults sources).length ++ " error(s)"))) := by
  have hfaults : ((sources.map fun s => (s.text, w.text s)).flatMap fun file =>
      check file.2 file.1) = (w.faults sources).map Prod.snd := by
    rw [World.faults, List.flatMap_map, List.map_flatMap]
    simp [Function.comp_def]
  have hshown := join_render_diagnosis w sources
  rw [run_checkDirectory hdiscover htexts]
  by_cases hnone : w.faults sources = []
  · rw [hnone] at hfaults
    refine ⟨_, _, run_checkTexts hfaults, ?_, .inl ⟨hnone, rfl⟩⟩
    have hquiet : String.join ([Event.checked sources.length].map (Event.render .warn)) = "" := rfl
    rw [List.map_append, String.join_append, hshown, List.length_map, hquiet, String.append_empty]
  · have hsome : ((sources.map fun s => (s.text, w.text s)).flatMap fun file =>
        check file.2 file.1) ≠ [] := by
      rw [hfaults, Ne, List.map_eq_nil_iff]
      exact hnone
    have hrun := run_checkTexts_error (w := w) hsome
    rw [hfaults, List.length_map] at hrun
    exact ⟨_, _, hrun, hshown, .inr ⟨hnone, rfl⟩⟩

/-- Compiling stops at the first source that is refused, if there is one, and with what is
shown for it. -/
theorem run_compileDirectory_faults (hsound : w.Sound)
    (houtputs : ∀ s ∈ sources, w.files.isDirectory w.base s.output = false) :
    (w.faults sources = [] ∧ ∃ pairs w',
        w.run (Build.compileDirectory (.ofBytes target) recursive).run = (.ok pairs, w')) ∨
      ∃ first later w' code start, w.faults sources = first :: later ∧
        first.2.code = some code ∧ first.2.range.map Range.start = some start ∧
        w.run (Build.compileDirectory (.ofBytes target) recursive).run =
          (.error (.located code first.2.message first.1.text start), w') := by
  have hsources : w.Sources sources := by
    rcases Build.run_discover hsound (.ofBytes target) recursive with
      ⟨e, herror⟩ | ⟨found, hfound, hsources⟩
    · cases hdiscover.symm.trans herror
    · cases hdiscover.symm.trans hfound
      exact hsources
  have hfst := w.map_fst_faults sources
  obtain ⟨w', done, hwrote, hrun⟩ := Build.run_compileDirectory hsound.base hsources hdiscover
  rcases hrun with ⟨rfl, hok⟩ | ⟨s, later, e, rfl, hfails, herror⟩
  · rw [hwrote.filter_refuses, List.map_eq_nil_iff] at hfst
    exact .inl ⟨hfst, _, w', hok⟩
  · have hs : s ∈ done ++ s :: later := List.mem_append_right _ List.mem_cons_self
    have htext := World.textAt_text (htexts s hs)
    rw [List.filter_append, hwrote.filter_refuses, List.nil_append] at hfst
    rcases w.check_cases s with ⟨haccepted, -⟩ | ⟨hrefused, d, hd⟩
    · -- the output would have to be a directory
      rw [World.refuses] at haccepted
      cases hcompile : compile (w.text s) s.text with
      | ok javaScript =>
        have hdirectory := hfails.isDirectory_of_compile htext hcompile
        rw [houtputs s hs] at hdirectory
        cases hdirectory
      | error e' =>
        rw [hcompile] at haccepted
        cases haccepted
    · rw [List.filter_cons_of_pos hrefused] at hfst
      obtain ⟨first, rest, hfaults, rfl, -⟩ := List.map_eq_cons_iff.mp hfst
      have hfirst : first ∈ w.faults (done ++ first.1 :: later) := by
        rw [hfaults]
        exact List.mem_cons_self
      obtain ⟨code, start, hcode, hstart, hlocated⟩ :=
        (w.diagnosed_of_mem_faults _ first hfirst).agrees
      cases hfails.eq_of_compile htext hlocated
      exact .inr ⟨first, rest, w', code, start, hfaults, hcode, hstart, herror⟩

variable (htarget : w.files.isDirectory w.base (.ofBytes target) = true) {words : List Bytes}
include htarget

theorem run_checking (hfresh : w.events = [])
    (hwords : readArguments words = some (.run ⟨some target, none, recursive, true, none⟩)) :
    ∃ checked told, w.run (run words) = (checked, w.tell told) ∧ checked.output = "" ∧
      (checked.exit = 0 ↔ w.faults sources = []) ∧
      checked.errors (w.tell told).events =
        String.join ((w.faults sources).map fun fault => fault.2.render fault.1.text ++ "\n") ++
          (if w.faults sources = [] then ""
            else "Error: check found " ++ Nat.repr (w.faults sources).length ++ " error(s)\n") := by
  have hoptions := run_runOptions_directory htarget recursive true none
  obtain ⟨told, r, hrun, hshown, hresult⟩ := run_checkDirectory_faults hdiscover htexts
  rw [if_pos rfl, hrun] at hoptions
  rcases hresult with ⟨hnone, rfl⟩ | ⟨hsome, rfl⟩
  · refine ⟨_, told, run_run_ok hwords hoptions, rfl, iff_of_true rfl hnone, ?_⟩
    rw [errors_tell hfresh rfl, hshown, if_pos hnone]
  · refine ⟨_, told, run_run_error hwords hoptions, rfl, iff_of_false Nat.one_ne_zero hsome, ?_⟩
    rw [errors_tell hfresh rfl, hshown, if_neg hsome, render_plain_count]

theorem run_compiling (hsound : w.Sound)
    (houtputs : ∀ s ∈ sources, w.files.isDirectory w.base s.output = false)
    (hwords : readArguments words = some (.run ⟨some target, none, recursive, false, none⟩)) :
    ∃ compiled w', w.run (run words) = (compiled, w') ∧
      (compiled.exit = 0 ↔ w.faults sources = []) ∧
      ∀ first ∈ (w.faults sources).head?, ∃ code start, first.2.code = some code ∧
        first.2.range.map Range.start = some start ∧
        (w.run (Build.compileDirectory (.ofBytes target) recursive).run).1 =
          .error (.located code first.2.message first.1.text start) ∧
        compiled.report =
          (Report.whileDoing ("failed to compile directory " ++ (Path.ofBytes target).text)
            (.located code first.2.message first.1.text start)).render := by
  have hoptions := run_runOptions_directory htarget recursive false none
  rw [if_neg Bool.false_ne_true] at hoptions
  rcases run_compileDirectory_faults hdiscover htexts hsound houtputs with
    ⟨hnone, pairs, w', hok⟩ | ⟨first, later, w', code, start, hfaults, hcode, hstart, herror⟩
  · obtain ⟨w₂, hcompiled⟩ := run_compileDirectory_ok hok
    rw [hcompiled] at hoptions
    refine ⟨_, w₂, run_run_ok hwords hoptions, iff_of_true rfl hnone, fun first hfirst => ?_⟩
    rw [hnone] at hfirst
    cases hfirst
  · rw [run_compileDirectory_error herror] at hoptions
    refine ⟨_, w', run_run_error hwords hoptions, ?_, fun fault hfault => ?_⟩
    · exact iff_of_false Nat.one_ne_zero (by simp [hfaults])
    · rw [hfaults] at hfault
      cases hfault
      exact ⟨code, start, hcode, hstart, by rw [herror], rfl⟩

end

/-- Checking a directory succeeds if and only if compiling it does, provided that every
source is a text and no output is a directory. It shows one diagnostic for every source that
is refused, in their order, and counts them. The first tells the error that compiling the
directory stops with. Checking changes no file. -/
theorem check_predicts_compilation {w : World} (hsound : w.Sound) (hfresh : w.events = [])
    {target : Bytes} {recursive : Bool} {checking compiling : List Bytes}
    (hchecking : readArguments checking = some (.run ⟨some target, none, recursive, true, none⟩))
    (hcompiling : readArguments compiling =
      some (.run ⟨some target, none, recursive, false, none⟩))
    (htarget : w.files.isDirectory w.base (.ofBytes target) = true)
    (hsources : ∀ sources,
      w.run (Build.discover (.ofBytes target) recursive).run = (.ok sources, w) →
      ∀ s ∈ sources, (∃ text, w.textAt s = .ok text) ∧
        w.files.isDirectory w.base s.output = false) :
    ∃ checked w₁ compiled w₂, w.run (run checking) = (checked, w₁) ∧
      w.run (run compiling) = (compiled, w₂) ∧
      (checked.exit = 0 ↔ compiled.exit = 0) ∧ checked.output = "" ∧ w₁.files = w.files ∧
      ∀ sources, w.run (Build.discover (.ofBytes target) recursive).run = (.ok sources, w) →
        ∃ shown : List (Path × Diagnostic),
          shown.map Prod.fst = sources.filter w.refuses ∧
          (∀ fault ∈ shown, w.Diagnosed fault.1 fault.2) ∧
          (checked.exit = 0 ↔ shown = []) ∧
          checked.errors w₁.events =
            String.join (shown.map fun fault => fault.2.render fault.1.text ++ "\n") ++
              (if shown = [] then ""
                else "Error: check found " ++ Nat.repr shown.length ++ " error(s)\n") ∧
          ∀ first ∈ shown.head?, ∃ code start, first.2.code = some code ∧
            first.2.range.map Range.start = some start ∧
            (w.run (Build.compileDirectory (.ofBytes target) recursive).run).1 =
              .error (.located code first.2.message first.1.text start) ∧
            compiled.report =
              (Report.whileDoing ("failed to compile directory " ++ (Path.ofBytes target).text)
                (.located code first.2.message first.1.text start)).render := by
  rcases Build.run_discover hsound (.ofBytes target) recursive with
    ⟨e, hdiscover⟩ | ⟨sources, hdiscover, -⟩
  · -- neither of them finds the sources
    have hcheck := run_runOptions_directory htarget recursive true none
    have hcompile := run_runOptions_directory htarget recursive false none
    rw [if_pos rfl, run_checkDirectory_error hdiscover] at hcheck
    rw [if_neg Bool.false_ne_true,
      run_compileDirectory_error (World.run_bind_error hdiscover _)] at hcompile
    refine ⟨_, _, _, _, run_run_error hchecking hcheck, run_run_error hcompiling hcompile, Iff.rfl,
      rfl, rfl, fun sources hfound => ?_⟩
    cases hdiscover.symm.trans hfound
  · have htexts := fun s hs => (hsources sources hdiscover s hs).1
    have houtputs := fun s hs => (hsources sources hdiscover s hs).2
    obtain ⟨checked, told, hcheck, houtput, hexit, herrors⟩ :=
      run_checking hdiscover htexts htarget hfresh hchecking
    obtain ⟨compiled, w₂, hcompile, hexit', hfirst⟩ :=
      run_compiling hdiscover htexts htarget hsound houtputs hcompiling
    refine ⟨checked, _, compiled, w₂, hcheck, hcompile, hexit.trans hexit'.symm, houtput, rfl,
      fun found hfound => ?_⟩
    cases hdiscover.symm.trans hfound
    exact ⟨w.faults sources, w.map_fst_faults sources, w.diagnosed_of_mem_faults sources, hexit,
      herrors, hfirst⟩

/-- The second source is shown, and compiling stops there. -/
theorem check_twoSources :
    ∃ checked w₁ compiled w₂, Build.twoSources.run (run ["--check", "d"]) = (checked, w₁) ∧
      Build.twoSources.run (run ["d"]) = (compiled, w₂) ∧
      checked.exit ≠ 0 ∧ compiled.exit ≠ 0 ∧ checked.output = "" ∧
      w₁.files = Build.twoSources.files ∧
      checked.errors w₁.events =
        "d/b.nl:1:5: error[E0100]: Expected function name, got end of input\n" ++
          "Error: check found 1 error(s)\n" := by
  have hpath : Path.ofBytes "d" = ⟨["d"]⟩ := by decide
  have hchecking : readArguments ["--check", "d"] =
      some (.run ⟨some "d", none, false, true, none⟩) := by decide
  have hcompiling : readArguments ["d"] = some (.run ⟨some "d", none, false, false, none⟩) := by
    decide
  have hfirst : Build.twoSources.text ⟨["d", "a.nl"]⟩ = "func f=\x7b\x7d\x7b\x7d" := by
    rw [World.text, Build.twoSources_first.1]
  have hsecond : Build.twoSources.text ⟨["d", "b.nl"]⟩ = "func" := by
    rw [World.text, Build.twoSources_second.1]
  have hsources : ∀ sources,
      Build.twoSources.run (Build.discover (.ofBytes "d") false).run =
        (.ok sources, Build.twoSources) →
      ∀ s ∈ sources, (∃ text, Build.twoSources.textAt s = .ok text) ∧
        Build.twoSources.files.isDirectory Build.twoSources.base s.output = false := by
    intro sources hdiscover
    rw [hpath] at hdiscover
    cases Build.discover_twoSources.symm.trans hdiscover
    simp only [List.forall_mem_cons]
    exact ⟨⟨⟨_, Build.twoSources_first.1⟩, rfl⟩, ⟨⟨_, Build.twoSources_second.1⟩, rfl⟩,
      List.forall_mem_nil _⟩
  obtain ⟨checked, w₁, compiled, w₂, hcheck, hcompile, hexit, houtput, hfiles, hall⟩ :=
    check_predicts_compilation Build.twoSources_sound rfl hchecking hcompiling (by decide) hsources
  rw [hpath] at hall
  obtain ⟨shown, hshown, hdiagnosed, hzero, herrors, -⟩ := hall _ Build.discover_twoSources
  have hfiltered : [⟨["d", "a.nl"]⟩, ⟨["d", "b.nl"]⟩].filter Build.twoSources.refuses =
      [⟨["d", "b.nl"]⟩] := by
    have haccepts : Build.twoSources.refuses ⟨["d", "a.nl"]⟩ = false := by
      rw [World.refuses, hfirst]
      decide +kernel
    have hrefuses : Build.twoSources.refuses ⟨["d", "b.nl"]⟩ = true := by
      rw [World.refuses, hsecond]
      decide +kernel
    rw [List.filter_cons_of_neg (Bool.not_eq_true _ ▸ haccepts), List.filter_cons_of_pos hrefuses,
      List.filter_nil]
  rw [hfiltered] at hshown
  obtain ⟨⟨s, d⟩, rest, rfl, hs, hrest⟩ := List.map_eq_cons_iff.mp hshown
  cases hs
  cases List.map_eq_nil_iff.mp hrest
  have hd := (hdiagnosed _ List.mem_cons_self).check_eq
  rw [hsecond] at hd
  have hcheckd : check "func" "d/b.nl" =
      [⟨some "E0100", "Expected function name, got end of input", some ⟨0, 4, 4⟩,
        some ⟨⟨1, 5⟩, ⟨1, 5⟩⟩⟩] := by decide +kernel
  have hexit₁ : checked.exit ≠ 0 := mt hzero.mp (List.cons_ne_nil _ _)
  cases hcheckd.symm.trans hd
  exact ⟨checked, w₁, compiled, w₂, hcheck, hcompile, hexit₁, mt hexit.mpr hexit₁, houtput, hfiles,
    herrors⟩

end Command

end Scriptwright
