import Scriptwright.Proofs.Command.Check
import Scriptwright.Proofs.Path.Output

/-!
# What a run leaves alone

Without an output path the command writes beside sources only. A source is the target, or
it was discovered below the target, and its output is never the place of a source. So what
is not called like an output stays as it was, and what changed holds the JavaScript of a
source. A run for a single text writes last, so a failure has changed nothing.

All this holds of a single file only if its path is a text. Its output is written where the
shown path leads, and that of other bytes leads elsewhere.
-/

namespace Scriptwright

/-- The output of a source whose path is a text has a path that is a text, too. -/
theorem Path.exists_text_output {target : String} (h : (ofString target).isSource = true) :
    ∃ text : String, (ofString target).output.bytes = Bytes.ofString text ∧
      ofString text = (ofString target).output ∧ 1 < (Bytes.ofString text).length := by
  obtain ⟨front, stem, tail, hstem, hdivided⟩ := exists_divided_of_isSource h
  obtain ⟨first, hfirst⟩ : ∃ first, front ++ stem = Bytes.ofString first := by
    apply Bytes.exists_ofString_of_append (by decide : dot.IsUTF8FirstByte)
    rw [hdivided.bytes_eq]
    simp only [List.append_assoc]
    rfl
  obtain ⟨last, hlast, hname⟩ : ∃ last : String, 0 < (Bytes.ofString last).length ∧
      front ++ outputName stem tail = front ++ stem ++ Bytes.ofString last := by
    unfold outputName
    split_ifs with hdot
    · exact ⟨".", by decide, by rw [hdot.1, List.append_assoc]; rfl⟩
    · exact ⟨".js", by decide, by simp only [List.append_assoc]; rfl⟩
  have hbytes : (ofString target).output.bytes = Bytes.ofString (first ++ last) := by
    rw [ofString, hdivided.bytes_output hstem, hname, hfirst, Bytes.ofString_append]
  refine ⟨first ++ last, hbytes, ?_, ?_⟩
  · rw [ofString, ← hbytes, ofString, hdivided.bytes_output hstem, hdivided.ofBytes_output hstem]
  · have hpos := List.length_pos_iff.mpr hstem
    rw [Bytes.ofString_append, ← hfirst, List.length_append, List.length_append]
    omega

/-- The output of a source whose path is a text is shown as it is, and read back as a path. -/
theorem Path.ofString_output {target : String} (h : (ofString target).isSource = true) :
    ofString (ofString target).output.text = (ofString target).output ∧
      (ofString target).output.text ≠ Command.standardOutput := by
  obtain ⟨shown, hbytes, hpath, hlength⟩ := exists_text_output h
  have htext : (ofString target).output.text = shown := by
    rw [text, hbytes, Bytes.shown_ofString]
  rw [htext]
  refine ⟨hpath, ?_⟩
  rintro rfl
  exact absurd hlength (by decide)

theorem Directory.SourceAt.isSource {α : Type} {root : Directory α} {base parent : List Bytes}
    {p : Path} {stem : Bytes} (h : SourceAt root base p parent stem)
    (hbase : root.entry base = some none) : p.isSource = true := by
  obtain ⟨init, inner, rfl, -⟩ := h.split hbase
  have hnamed := Path.named_of_extension h.ne_nil (by decide : Path.sourceExtension ≠ [])
  exact (Path.isSource_iff hnamed).mpr ⟨stem, h.ne_nil, rfl⟩

namespace Command

/-- Whether a word asks for an output path, by the long name or by the letter. Before the letter
there can only be the one that has no value and does not end the reading. -/
def namesOutput (word : Bytes) : Bool :=
  match word with
  | b :: c :: bs =>
    b == dash &&
      if c = dash then bs.takeWhile (· != equals) == Bytes.ofString "output"
      else ((c :: bs).dropWhile (· == 'r'.toUInt8)).head? == some 'o'.toUInt8
  | _ => false

/-- Whether an output path is asked for. Behind two dashes alone there are no options. -/
def givesOutput : List Bytes → Bool
  | [] => false
  | w :: ws => w != [dash, dash] && (namesOutput w || givesOutput ws)

/-- The other options and the target leave the output as it is. -/
theorem output_of_set {o o' : Options}
    (h : o.setRecursive = some o' ∨ o.setCheck = some o' ∨
      (∃ value, o.setLevel value = some o') ∨ ∃ word, o.setTarget word = some o') :
    o'.output = o.output := by
  rcases h with h | h | ⟨value, h⟩ | ⟨word, h⟩
  · unfold Options.setRecursive at h
    split_ifs at h
    cases h
    rfl
  · unfold Options.setCheck at h
    split_ifs at h
    cases h
    rfl
  · unfold Options.setLevel at h
    split_ifs at h
    obtain ⟨level, -, rfl⟩ := Option.map_eq_some_iff.mp h
    rfl
  · unfold Options.setTarget at h
    split_ifs at h
    cases h
    rfl

/-- The step leaves the output as it is, and does not wait for one. -/
def Step.KeepsOutput (o : Options) : Step → Prop
  | stop request => request = .help ∨ request = .version
  | go o' => o'.output = o.output
  | awaits option o' => option = .level ∧ o'.output = o.output

theorem letters_keepsOutput {o : Options} {bs : Bytes}
    (hbs : (bs.dropWhile (· == 'r'.toUInt8)).head? ≠ some 'o'.toUInt8) {step : Step}
    (h : letters o bs = some step) : step.KeepsOutput o := by
  induction bs generalizing o with
  | nil =>
    cases h
    rfl
  | cons b bs ih =>
    unfold letters at h
    split_ifs at h with hhelp hversion hrecursive houtput
    · cases h
      exact .inl rfl
    · cases h
      exact .inr rfl
    · rw [List.dropWhile_cons_of_pos (by simpa using hrecursive)] at hbs
      obtain ⟨o', hset, h⟩ := Option.bind_eq_some_iff.mp h
      have hstep := ih hbs h
      have ho := output_of_set (.inl hset)
      unfold Step.KeepsOutput at hstep ⊢
      rwa [ho] at hstep
    · rw [List.dropWhile_cons_of_neg (by simpa using hrecursive), List.head?_cons, houtput] at hbs
      exact absurd rfl hbs

theorem longName_keepsOutput {o : Options} {name : String} {value : Option Bytes}
    (hname : name ≠ "output") {step : Step} (h : longName o name value = some step) :
    step.KeepsOutput o := by
  unfold longName at h
  split at h
  case h_1 =>
    cases h
    exact .inl rfl
  case h_2 =>
    cases h
    exact .inr rfl
  case h_3 =>
    obtain ⟨o', hset, rfl⟩ := Option.map_eq_some_iff.mp h
    exact output_of_set (.inl hset)
  case h_4 =>
    obtain ⟨o', hset, rfl⟩ := Option.map_eq_some_iff.mp h
    exact output_of_set (.inr (.inl hset))
  case h_5 | h_6 => exact absurd rfl hname
  case h_7 =>
    obtain ⟨o', hset, rfl⟩ := Option.map_eq_some_iff.mp h
    exact output_of_set (.inr (.inr (.inl ⟨_, hset⟩)))
  case h_8 =>
    cases h
    exact ⟨rfl, rfl⟩
  case h_9 => cases h

theorem long_keepsOutput {o : Options} {bs : Bytes}
    (hbs : bs.takeWhile (· != equals) ≠ Bytes.ofString "output") {step : Step}
    (h : long o bs = some step) : step.KeepsOutput o := by
  obtain ⟨name, hname, h⟩ := Option.bind_eq_some_iff.mp h
  refine longName_keepsOutput (fun houtput => hbs ?_) h
  rw [Bytes.text?_eq_some.mp hname, houtput]

theorem word_keepsOutput {o : Options} {w : Bytes} (hw : namesOutput w = false) {step : Step}
    (h : word o w = some step) : step.KeepsOutput o := by
  have htarget (h : (o.setTarget w).map .go = some step) : step.KeepsOutput o := by
    obtain ⟨o', hset, rfl⟩ := Option.map_eq_some_iff.mp h
    exact output_of_set (.inr (.inr (.inr ⟨_, hset⟩)))
  unfold word at h
  split at h
  case h_1 b c bs =>
    split_ifs at h with hdash hlong
    · exact htarget h
    · simp only [namesOutput, not_not.mp hdash, if_pos hlong, beq_self_eq_true, Bool.true_and,
        beq_eq_false_iff_ne] at hw
      exact long_keepsOutput hw h
    · simp only [namesOutput, not_not.mp hdash, if_neg hlong, beq_self_eq_true, Bool.true_and,
        beq_eq_false_iff_ne] at hw
      exact letters_keepsOutput hw h
  case h_2 => exact htarget h

theorem targets_keepsOutput {o o' : Options} {ws : List Bytes}
    (h : targets o ws = some (.run o')) : o'.output = o.output := by
  induction ws generalizing o with
  | nil =>
    cases h
    rfl
  | cons w ws ih =>
    obtain ⟨o₁, hset, h⟩ := Option.bind_eq_some_iff.mp h
    rw [ih h]
    exact output_of_set (.inr (.inr (.inr ⟨w, hset⟩)))

theorem givesOutput_cons {w : Bytes} {ws : List Bytes} (h : givesOutput (w :: ws) = false)
    (hw : w ≠ [dash, dash]) : namesOutput w = false ∧ givesOutput ws = false := by
  simpa [givesOutput, hw] using h

/-- After the step, the words that follow make the request. -/
inductive Step.Leads (ws : List Bytes) (request : Request) : Step → Prop
  | stop : Leads ws request (.stop request)
  | go {o : Options} (h : readFrom o ws = some request) : Leads ws request (.go o)
  | awaits {option : Valued} {o o₁ : Options} {value : Bytes} {rest : List Bytes}
      (hws : ws = value :: rest) (hvalue : ¬ looksLikeOption value)
      (hset : option.set o value = some o₁) (h : readFrom o₁ rest = some request) :
      Leads ws request (.awaits option o)

theorem exists_leads {o : Options} {w : Bytes} (hw : w ≠ [dash, dash]) {ws : List Bytes}
    {request : Request} (h : readFrom o (w :: ws) = some request) :
    ∃ step, word o w = some step ∧ step.Leads ws request := by
  unfold readFrom at h
  rw [if_neg hw] at h
  cases hstep : word o w with
  | none =>
    rw [hstep] at h
    cases h
  | some step =>
    rw [hstep] at h
    refine ⟨step, rfl, ?_⟩
    cases step with
    | stop request =>
      cases h
      exact .stop
    | go o₁ => exact .go h
    | awaits option o₁ =>
      cases ws with
      | nil => cases h
      | cons value rest =>
        dsimp only at h
        split_ifs at h with hvalue
        obtain ⟨o₂, hset, hrest⟩ := Option.bind_eq_some_iff.mp h
        exact .awaits rfl hvalue hset hrest

theorem readFrom_keepsOutput {o o' : Options} {words : List Bytes}
    (hwords : givesOutput words = false) (h : readFrom o words = some (.run o')) :
    o'.output = o.output := by
  -- On the number of words: an option that awaits its value takes two of them.
  induction hn : words.length using Nat.strongRecOn generalizing o words with
  | ind n ih =>
    cases words with
    | nil =>
      cases h
      rfl
    | cons w ws =>
      rw [List.length_cons] at hn
      by_cases hw : w = [dash, dash]
      · unfold readFrom at h
        rw [if_pos hw] at h
        exact targets_keepsOutput h
      · obtain ⟨hname, hmore⟩ := givesOutput_cons hwords hw
        obtain ⟨step, hstep, hleads⟩ := exists_leads hw h
        have hkeeps := word_keepsOutput hname hstep
        cases hleads with
        | stop =>
          cases hkeeps with
          | inl hrequest => cases hrequest
          | inr hrequest => cases hrequest
        | go hafter => exact (ih ws.length (by omega) hmore hafter rfl).trans hkeeps
        | @awaits _ _ o₁ value rest hws hvalue hset hafter =>
          subst hws
          rw [List.length_cons] at hn
          have hdashes : value ≠ [dash, dash] := by
            rintro rfl
            exact hvalue rfl
          have hrest := (givesOutput_cons hmore hdashes).2
          obtain ⟨rfl, ho⟩ := hkeeps
          have hlevel := output_of_set (.inr (.inr (.inl ⟨value, hset⟩)))
          rw [ih rest.length (by omega) hrest hafter rfl, hlevel, ho]

theorem output_eq_none {words : List Bytes} (hwords : givesOutput words = false) {o : Options}
    (h : readArguments words = some (.run o)) : o.output = none :=
  readFrom_keepsOutput hwords h

end Command

namespace World

/-- The sources that a run is about: its target, or those discovered below its target. -/
inductive SourceOf (w : World) (o : Command.Options) : Path → Prop
  | target {target : Bytes} (h : o.target = some target)
      (hfile : w.files.isDirectory w.base (.ofBytes target) = false) :
      SourceOf w o (.ofBytes target)
  | discovered {target : Bytes} (h : o.target = some target)
      (hdirectory : w.files.isDirectory w.base (.ofBytes target) = true)
      {sources : List Path}
      (hdiscover : w.run (Build.discover (.ofBytes target) o.recursive).run = (.ok sources, w))
      {s : Path} (hs : s ∈ sources) : SourceOf w o s

/-- A target that is compiled, and is no directory, is a text. The name of its output is shown
before the output is written, and other bytes are not shown as they are. -/
def TextTarget (w : World) (o : Command.Options) : Prop :=
  o.check = false → ∀ target ∈ o.target, w.files.isDirectory w.base (.ofBytes target) = false →
    ∃ text, target = Bytes.ofString text

theorem TextTarget.of_target {w : World} {o : Command.Options} {text : String}
    (h : o.target = some (Bytes.ofString text)) : w.TextTarget o := by
  intro _ target htarget _
  cases h.symm.trans htarget
  exact ⟨text, rfl⟩

/-- A run that may write the outputs of the sources in `P` has written those of `done`. -/
structure Ended (w : World) (P : Path → Prop) (done : List Path) (w' : World) : Prop where
  wrote : w.Wrote w' done
  sources : w.Sources done
  allowed : ∀ s ∈ done, P s

theorem Ended.refl (w : World) (P : Path → Prop) : w.Ended P [] w :=
  ⟨.refl w, List.forall_mem_nil _, List.forall_mem_nil _⟩

theorem Ended.tell {w w' : World} {P : Path → Prop} {done : List Path} (h : w.Ended P done w')
    (told : List Event) : w.Ended P done (w'.tell told) :=
  ⟨h.wrote.tell told, h.sources, h.allowed⟩

theorem Ended.mono {w w' : World} {P Q : Path → Prop} {done : List Path} (h : w.Ended P done w')
    (hPQ : ∀ s, P s → Q s) : w.Ended Q done w' :=
  ⟨h.wrote, h.sources, fun s hs => hPQ s (h.allowed s hs)⟩

section
variable {w w' : World} {done : List Path} (h : w.Wrote w' done) {location : List Bytes}
include h

/-- What stands elsewhere is the JavaScript of a source. -/
theorem Wrote.exists_output (hchanged : w'.files.entry location ≠ w.files.entry location) :
    ∃ s ∈ done, w.files.place? w.base s.output = some location ∧
      ∃ text javaScript, w.textAt s = .ok text ∧ compile text s.text = .ok javaScript ∧
        w'.files.entry location = some (some javaScript.toUTF8) := by
  obtain ⟨s, hs, hplace⟩ : ∃ s ∈ done, w.files.place? w.base s.output = some location := by
    by_contra hnone
    apply hchanged
    apply h.others
    intro s hs hplace
    exact hnone ⟨s, hs, hplace⟩
  obtain ⟨text, javaScript, htext, hcompile, hread⟩ := h.outputs s hs
  refine ⟨s, hs, hplace, text, javaScript, htext, hcompile, ?_⟩
  obtain ⟨parent, name, hresolve⟩ := Directory.read_eq_ok.mp hread
  obtain ⟨-, hheld⟩ := (Directory.resolve_eq_ok.mp hresolve).2.stands
  have hplace' : w'.files.place? w.base s.output = some (parent ++ [name]) :=
    Directory.place?_eq_some.mpr ⟨_, hresolve, rfl⟩
  rw [Directory.place?_congr h.folders, hplace] at hplace'
  cases hplace'
  exact Directory.entry_eq_file.mpr (Directory.held_eq_some.mp hheld).2

end

theorem exists_sourceAt_of_textAt {w : World} (hbase : w.files.entry w.base = some none) {p : Path}
    {text : String} (hsource : p.isSource = true) (htext : w.textAt p = .ok text) :
    ∃ parent stem, w.files.SourceAt w.base p parent stem := by
  unfold textAt at htext
  cases hread : w.files.read w.base p with
  | error fault =>
    rw [hread] at htext
    cases htext
  | ok bytes =>
    obtain ⟨parent, name, hresolve⟩ := Directory.read_eq_ok.mp hread
    obtain ⟨stem, hat⟩ := Directory.exists_sourceAt hbase (Directory.resolve_eq_ok.mp hresolve).2
      hsource
    exact ⟨parent, stem, hat⟩

theorem Ended.isSource {w w' : World} {P : Path → Prop} {done : List Path}
    (h : w.Ended P done w') (hbase : w.files.entry w.base = some none) {s : Path} (hs : s ∈ done) :
    s.isSource = true := by
  obtain ⟨parent, stem, hsource⟩ := h.sources s hs
  exact hsource.isSource hbase

theorem Ended.entry_eq {w w' : World} {P : Path → Prop} {done : List Path}
    (h : w.Ended P done w') (hbase : w.files.entry w.base = some none) {location : List Bytes}
    (hname : ∀ name ∈ location.getLast?, ¬ Bytes.ofString ".js" <:+ name) :
    w'.files.entry location = w.files.entry location := by
  apply h.wrote.others
  intro s hs hplace
  obtain ⟨parent, stem, -, -, hplace'⟩ := h.wrote.place?_output hbase h.sources hs
  rw [hplace, Option.some_inj] at hplace'
  apply hname (stem ++ [Path.dot] ++ Path.outputExtension)
  · rw [hplace', List.getLast?_concat]
    exact Option.mem_some_self _
  · rw [List.append_assoc]
    exact List.suffix_append _ _

end World

namespace Command
variable {w : World}

theorem run_checkTexts_tell (w : World) (texts : List (String × String)) :
    ∃ r told, w.run (checkTexts texts).run = (r, w.tell told) := by
  by_cases h : (texts.flatMap fun file => check file.2 file.1) = []
  · exact ⟨_, _, run_checkTexts h⟩
  · exact ⟨_, _, run_checkTexts_error h⟩

theorem run_readSource (w : World) (p : Path) :
    w.run (readSource p).run =
      ((w.textAt p).mapError (.ofFault ("failed to read input file " ++ p.text)), w) :=
  World.run_adapt (Build.run_readText w p) _

theorem run_readSources_same (w : World) (sources : List Path) :
    ∃ r, w.run (readSources sources).run = (r, w) := by
  induction sources with
  | nil => exact ⟨_, rfl⟩
  | cons s sources ih =>
    have hread := run_readSource w s
    cases htext : w.textAt s with
    | error fault =>
      rw [htext] at hread
      exact ⟨_, World.run_bind_error hread _⟩
    | ok text =>
      rw [htext] at hread
      obtain ⟨r, hrest⟩ := ih
      have hcons : w.run (readSources (s :: sources)).run =
          w.run (readSources sources >>= fun texts => pure ((s.text, text) :: texts)).run :=
        World.run_bind_ok hread _
      rw [hcons]
      cases r with
      | error report => exact ⟨_, World.run_bind_error hrest _⟩
      | ok texts => exact ⟨_, World.run_bind_ok hrest _⟩

theorem run_checkDirectory_tell (hsound : w.Sound) (root : Path) (recursive : Bool) :
    ∃ r told, w.run (checkDirectory root recursive).run = (r, w.tell told) := by
  rcases Build.run_discover hsound root recursive with ⟨e, hdiscover⟩ | ⟨sources, hdiscover, -⟩
  · refine ⟨.error (.ofError e), [], ?_⟩
    rw [World.tell_nil]
    exact run_checkDirectory_error hdiscover
  · obtain ⟨r, hread⟩ := run_readSources_same w sources
    have hsources : w.run (checkDirectory root recursive).run =
        w.run (readSources sources >>= checkTexts).run :=
      World.run_bind_ok (World.run_adapt hdiscover Report.ofError) _
    rw [hsources]
    cases r with
    | error report =>
      refine ⟨.error report, [], ?_⟩
      rw [World.tell_nil]
      exact World.run_bind_error hread _
    | ok texts =>
      rw [World.run_bind_ok hread]
      exact run_checkTexts_tell w texts

section
variable (hsound : w.Sound)
include hsound

theorem run_compileDirectory_ended (target : Bytes) (recursive : Bool) :
    ∃ r w' done, w.run (compileDirectory (.ofBytes target) recursive).run = (r, w') ∧
      w.Ended (fun s => ∃ sources, s ∈ sources ∧
        w.run (Build.discover (.ofBytes target) recursive).run = (.ok sources, w)) done w' := by
  rcases Build.run_discover hsound (.ofBytes target) recursive with
    ⟨e, hdiscover⟩ | ⟨sources, hdiscover, hsources⟩
  · exact ⟨_, w, [], run_compileDirectory_error (World.run_bind_error hdiscover _), .refl w _⟩
  · obtain ⟨w₁, done, hwrote, hrun⟩ := Build.run_compileDirectory hsound.base hsources hdiscover
    have hdone : ∀ s ∈ done, s ∈ sources := by
      intro s hs
      rcases hrun with ⟨rfl, -⟩ | ⟨first, later, e, rfl, -⟩
      · exact hs
      · exact List.mem_append_left _ hs
    have hended : w.Ended (fun s => ∃ sources, s ∈ sources ∧
        w.run (Build.discover (.ofBytes target) recursive).run = (.ok sources, w)) done w₁ :=
      ⟨hwrote, fun s hs => hsources s (hdone s hs), fun s hs => ⟨sources, hdone s hs, hdiscover⟩⟩
    rcases hrun with ⟨-, hok⟩ | ⟨first, later, e, -, -, herror⟩
    · have hadapted := World.run_adapt hok
        (Report.whileDoing ("failed to compile directory " ++ (Path.ofBytes target).text))
      have htold := World.run_lift (ε := Report) w₁
        (Build.tellAll ((sources.map fun s => (s, s.output)).map fun pair =>
          .wroteSibling pair.2))
      rw [Build.run_tellAll] at htold
      exact ⟨_, _, done, (World.run_bind_ok hadapted _).trans (World.run_bind_ok htold _),
        (hended.tell _).tell [.compiledDirectory _]⟩
    · exact ⟨_, w₁, done, run_compileDirectory_error herror, hended⟩

theorem run_runDirectory_ended {o : Options} (houtput : o.output = none) (target : Bytes) :
    ∃ r w' done, w.run (runDirectory o (.ofBytes target)).run = (r, w') ∧
      w.Ended (fun s => ∃ sources, s ∈ sources ∧
        w.run (Build.discover (.ofBytes target) o.recursive).run = (.ok sources, w)) done w' := by
  have hrun : w.run (runDirectory o (.ofBytes target)).run =
      w.run (if o.check then checkDirectory (.ofBytes target) o.recursive
        else compileDirectory (.ofBytes target) o.recursive).run := by
    unfold runDirectory
    rw [houtput]
    rfl
  rw [hrun]
  split_ifs with hcheck
  · obtain ⟨r, told, hchecked⟩ := run_checkDirectory_tell hsound (.ofBytes target) o.recursive
    exact ⟨r, _, [], hchecked, (World.Ended.refl w _).tell told⟩
  · exact run_compileDirectory_ended hsound target o.recursive

end

theorem run_deliver_ok {w w' : World} {output text : String} (houtput : output ≠ standardOutput)
    (h : w.run (Build.writeOutput (.ofString output) text).run = (.ok (), w')) :
    w.run (deliver output text).run = (.ok "", w'.tell [.wrote output]) := by
  have hadapted := World.run_adapt h (Report.whileDoing ("failed to write output file " ++ output))
  unfold deliver
  rw [if_neg houtput]
  exact World.run_bind_ok hadapted _

theorem run_deliver_error {w w' : World} {output text : String} {e : Error}
    (houtput : output ≠ standardOutput)
    (h : w.run (Build.writeOutput (.ofString output) text).run = (.error e, w')) :
    ∃ report, w.run (deliver output text).run = (.error report, w') := by
  have hadapted := World.run_adapt h (Report.whileDoing ("failed to write output file " ++ output))
  unfold deliver
  rw [if_neg houtput]
  exact ⟨_, World.run_bind_error hadapted _⟩

theorem run_deliver_sibling (hbase : w.files.entry w.base = some none) {target : String}
    {parent : List Bytes} {stem : Bytes}
    (hsource : w.files.SourceAt w.base (.ofString target) parent stem) {text javaScript : String}
    (htext : w.textAt (.ofString target) = .ok text)
    (hcompile : compile text (Path.ofString target).text = .ok javaScript) (told : List Event) :
    ∃ r w' done, (w.tell told).run (deliver (Path.ofString target).output.text javaScript).run =
        (r, w') ∧
      w.Ended (· = .ofString target) done w' ∧ ∀ report, r = .error report → done = [] := by
  obtain ⟨hpath, houtput⟩ := Path.ofString_output (hsource.isSource hbase)
  obtain ⟨hdirectory, hplace⟩ := hsource.output hbase (World.valid_of_textAt htext)
  cases hplace with
  | inl hfolder =>
    have hwritten := Build.run_writeOutput_error (w := w.tell told) hdirectory
      (Directory.write_of_isDirectory hfolder javaScript.toUTF8)
    rw [← hpath] at hwritten
    obtain ⟨report, hrun⟩ := run_deliver_error houtput hwritten
    exact ⟨_, _, [], hrun, (World.Ended.refl w _).tell told, fun _ _ => rfl⟩
  | inr hnames =>
    obtain ⟨spot, hresolve, hspot, hfits⟩ := hnames
    have hwrite := Directory.write_of_names hresolve hspot hfits javaScript.toUTF8
    have hwritten := Build.run_writeOutput (w := w.tell told) hdirectory hwrite
    have hs : w.Sources [.ofString target] :=
      List.forall_mem_singleton.mpr ⟨parent, stem, hsource⟩
    have hwrote := (World.Wrote.refl w).concat hbase (List.forall_mem_nil _) hs htext hcompile
      hwrite (w.tell told).events
    rw [← hpath] at hwritten
    exact ⟨_, _, [.ofString target], run_deliver_ok houtput hwritten,
      World.Ended.tell ⟨hwrote, hs, fun t => List.mem_singleton.mp⟩ _, fun _ h => by cases h⟩

section
variable (hbase : w.files.entry w.base = some none) {o : Options} (houtput : o.output = none)
include hbase houtput

/-- A source that can be read is compiled, and what is made of it is its output. -/
theorem run_runFile_source (hcheck : o.check = false) {target text : String}
    (hsource : (Path.ofString target).isSource = true)
    (htext : w.textAt (.ofString target) = .ok text) :
    ∃ r w' done, w.run (runFile o (.ofString target)).run = (r, w') ∧
      w.Ended (· = .ofString target) done w' ∧ ∀ report, r = .error report → done = [] := by
  have hread := run_readSource w (.ofString target)
  have hcompiled := World.run_adapt (Build.run_compileText w text (Path.ofString target).text)
    (Report.whileDoing ("failed to compile " ++ (Path.ofString target).text))
  rw [htext] at hread
  unfold runFile
  rw [houtput, hcheck, hsource]
  cases hcompile : compile text (Path.ofString target).text with
  | error e =>
    rw [hcompile] at hcompiled
    exact ⟨_, _, [], (World.run_bind_ok hread _).trans (World.run_bind_error hcompiled _),
      (World.Ended.refl w _).tell _, fun _ _ => rfl⟩
  | ok javaScript =>
    rw [hcompile] at hcompiled
    obtain ⟨parent, stem, hat⟩ := World.exists_sourceAt_of_textAt hbase hsource htext
    obtain ⟨r, w', done, hrun, hended⟩ := run_deliver_sibling hbase hat htext hcompile
      (compileEvents text (Path.ofString target).text)
    exact ⟨r, w', done, ((World.run_bind_ok hread _).trans
      (World.run_bind_ok hcompiled _)).trans hrun, hended⟩

theorem run_runFile_ended {target : Bytes}
    (htarget : o.check = false → ∃ text, target = Bytes.ofString text) :
    ∃ r w' done, w.run (runFile o (.ofBytes target)).run = (r, w') ∧
      w.Ended (· = .ofBytes target) done w' ∧ ∀ report, r = .error report → done = [] := by
  have hsame := World.Ended.refl w (· = .ofBytes target)
  have hread := run_readSource w (.ofBytes target)
  cases hcheck : o.check with
  | true =>
    unfold runFile
    rw [hcheck]
    cases htext : w.textAt (.ofBytes target) with
    | error fault =>
      rw [htext] at hread
      exact ⟨_, w, [], World.run_bind_error hread _, hsame, fun _ _ => rfl⟩
    | ok text =>
      rw [htext] at hread
      obtain ⟨r, told, hchecked⟩ := run_checkTexts_tell w [((Path.ofBytes target).text, text)]
      exact ⟨r, _, [], (World.run_bind_ok hread _).trans hchecked, hsame.tell told, fun _ _ => rfl⟩
  | false =>
    cases hsource : (Path.ofBytes target).isSource with
    | false =>
      unfold runFile
      rw [houtput, hcheck, hsource]
      exact ⟨_, w, [], rfl, hsame, fun _ _ => rfl⟩
    | true =>
      cases htext : w.textAt (.ofBytes target) with
      | error fault =>
        unfold runFile
        rw [houtput, hcheck, hsource]
        rw [htext] at hread
        exact ⟨_, w, [], World.run_bind_error hread _, hsame, fun _ _ => rfl⟩
      | ok text =>
        obtain ⟨given, rfl⟩ := htarget hcheck
        exact run_runFile_source hbase houtput hcheck hsource htext

end

theorem run_readInput (w : World) : w.run Build.readInput.run = (Build.decode w.input, w) := by
  have hinput : w.run (ExceptT.mk (Host.input (m := StateM World))).run = (.ok w.input, w) := rfl
  exact World.run_bind_ok hinput _

theorem run_runInput_ended (w : World) {o : Options} (houtput : o.output = none)
    (P : Path → Prop) : ∃ r w', w.run (runInput o).run = (r, w') ∧ w.Ended P [] w' := by
  have hsame := World.Ended.refl w P
  have hread := World.run_adapt (run_readInput w) (Report.ofFault "failed to read stdin")
  unfold runInput
  rw [houtput]
  cases htext : Build.decode w.input with
  | error fault =>
    rw [htext] at hread
    exact ⟨_, w, World.run_bind_error hread _, hsame⟩
  | ok text =>
    rw [htext] at hread
    cases hcheck : o.check with
    | true =>
      obtain ⟨r, told, hchecked⟩ := run_checkTexts_tell w [(inputName, text)]
      exact ⟨r, _, (World.run_bind_ok hread _).trans hchecked, hsame.tell told⟩
    | false =>
      have hcompiled := World.run_adapt (Build.run_compileText w text inputName)
        (Report.whileDoing "failed to compile stdin")
      cases hcompile : compile text inputName with
      | error e =>
        rw [hcompile] at hcompiled
        exact ⟨_, _, (World.run_bind_ok hread _).trans (World.run_bind_error hcompiled _),
          hsame.tell _⟩
      | ok javaScript =>
        rw [hcompile] at hcompiled
        exact ⟨_, _, (World.run_bind_ok hread _).trans (World.run_bind_ok hcompiled _),
          hsame.tell _⟩

theorem run_run_of_no_options (w : World) {words : List Bytes}
    (h : ∀ o, readArguments words ≠ some (.run o)) :
    ∃ outcome, w.run (run words) = (outcome, w) := by
  unfold run
  cases hread : readArguments words with
  | none => exact ⟨_, rfl⟩
  | some request =>
    cases request with
    | help => exact ⟨_, rfl⟩
    | version => exact ⟨_, rfl⟩
    | run o => exact absurd hread (h o)

section
variable (hsound : w.Sound)
include hsound

theorem run_runOptions_ended {o : Options} (houtput : o.output = none) (hgiven : w.TextTarget o) :
    ∃ r w' done, w.run (runOptions o).run = (r, w') ∧ w.Ended (w.SourceOf o) done w' ∧
      ((∀ target ∈ o.target, w.files.isDirectory w.base (.ofBytes target) = false) →
        ∀ report, r = .error report → done = []) := by
  unfold runOptions
  cases htarget : o.target with
  | none =>
    obtain ⟨r, w', hrun, hended⟩ := run_runInput_ended w houtput (w.SourceOf o)
    exact ⟨r, w', [], hrun, hended, fun _ _ _ => rfl⟩
  | some target =>
    have hasked : w.run (liftM (Host.isDirectory (m := StateM World) (.ofBytes target)) :
        ExceptT Report (StateM World) Bool).run =
        (.ok (w.files.isDirectory w.base (.ofBytes target)), w) := rfl
    cases hdirectory : w.files.isDirectory w.base (.ofBytes target) with
    | true =>
      rw [hdirectory] at hasked
      obtain ⟨r, w', done, hrun, hended⟩ := run_runDirectory_ended hsound houtput target
      refine ⟨r, w', done, (World.run_bind_ok hasked _).trans hrun, hended.mono ?_, ?_⟩
      · rintro s ⟨sources, hs, hdiscover⟩
        exact .discovered htarget hdirectory hdiscover hs
      · intro hfile
        have hfalse := hfile target rfl
        rw [hdirectory] at hfalse
        cases hfalse
    | false =>
      rw [hdirectory] at hasked
      obtain ⟨r, w', done, hrun, hended, hfailed⟩ := run_runFile_ended hsound.base houtput
        fun hcheck => hgiven hcheck target htarget hdirectory
      refine ⟨r, w', done, (World.run_bind_ok hasked _).trans hrun, hended.mono ?_,
        fun _ => hfailed⟩
      rintro s rfl
      exact .target htarget hdirectory

theorem run_run_ended {words : List Bytes} (hwords : givesOutput words = false)
    (hgiven : ∀ o, readArguments words = some (.run o) → w.TextTarget o) :
    ∃ outcome w' done, w.run (run words) = (outcome, w') ∧
      w.Ended (fun s => ∃ o, readArguments words = some (.run o) ∧ w.SourceOf o s) done w' ∧
      ((∀ o, readArguments words = some (.run o) → ∀ target ∈ o.target,
          w.files.isDirectory w.base (.ofBytes target) = false) →
        outcome.exit ≠ 0 → done = []) := by
  by_cases hnone : ∃ o, readArguments words = some (.run o)
  · obtain ⟨o, ho⟩ := hnone
    obtain ⟨r, w', done, hrun, hended, hfailed⟩ :=
      run_runOptions_ended hsound (output_eq_none hwords ho) (hgiven o ho)
    have hended' := hended.mono fun s hs => (⟨o, ho, hs⟩ :
      ∃ o, readArguments words = some (.run o) ∧ w.SourceOf o s)
    cases r with
    | ok output =>
      exact ⟨_, w', done, run_run_ok ho hrun, hended', fun _ hexit => absurd rfl hexit⟩
    | error report =>
      exact ⟨_, w', done, run_run_error ho hrun, hended', fun hfile _ =>
        hfailed (hfile o ho) report rfl⟩
  · obtain ⟨outcome, hrun⟩ := run_run_of_no_options w fun o ho => hnone ⟨o, ho⟩
    exact ⟨outcome, w, [], hrun, .refl w _, fun _ _ => rfl⟩

end

/-- Without an output path a run leaves alone whatever is not called like an output, if a file
that it compiles has a text for a path. What it changes is the output of a source, which is the
target or was discovered below it, and holds the JavaScript of its text. A run that fails and
whose target is no directory changes nothing. -/
theorem run_writes_only_siblings {w : World} (hsound : w.Sound) {words : List Bytes}
    (hwords : givesOutput words = false)
    (hgiven : ∀ o, readArguments words = some (.run o) → w.TextTarget o) :
    ∃ outcome w', w.run (run words) = (outcome, w') ∧
      (∀ location : List Bytes,
        (∀ name ∈ location.getLast?, ¬ Bytes.ofString ".js" <:+ name) →
          w'.files.entry location = w.files.entry location) ∧
      (∀ location, w'.files.entry location ≠ w.files.entry location →
        ∃ o s text javaScript, readArguments words = some (.run o) ∧ w.SourceOf o s ∧
          s.isSource = true ∧ w.files.place? w.base s.output = some location ∧
          w.textAt s = .ok text ∧ compile text s.text = .ok javaScript ∧
          w'.files.entry location = some (some javaScript.toUTF8)) ∧
      ((∀ o, readArguments words = some (.run o) → ∀ target ∈ o.target,
          w.files.isDirectory w.base (.ofBytes target) = false) →
        outcome.exit ≠ 0 → ∀ location, w'.files.entry location = w.files.entry location) := by
  obtain ⟨outcome, w', done, hrun, hended, hfailed⟩ := run_run_ended hsound hwords hgiven
  refine ⟨outcome, w', hrun, fun location => hended.entry_eq hsound.base, ?_, ?_⟩
  · intro location hchanged
    obtain ⟨s, hs, hplace, text, javaScript, htext, hcompile, hentry⟩ :=
      hended.wrote.exists_output hchanged
    obtain ⟨o, ho, hsource⟩ := hended.allowed s hs
    exact ⟨o, s, text, javaScript, ho, hsource, hended.isSource hsound.base hs, hplace, htext,
      hcompile, hentry⟩
  · intro hfile hexit location
    apply hended.wrote.others
    rw [hfailed hfile hexit]
    exact List.forall_mem_nil _

/-- Of the two sources in a directory the first is compiled, and the second is refused. -/
theorem run_siblings_of_twoSources :
    (∃ outcome w', Build.twoSources.run (run ["d/a.nl"]) = (outcome, w') ∧ outcome.exit = 0 ∧
      w'.files.entry ["d", "a.js"] = some (some "function f() \x7b\n\x7d\n\n".toUTF8) ∧
      w'.files.entry ["d", "a.nl"] = Build.twoSources.files.entry ["d", "a.nl"]) ∧
    ∃ outcome w', Build.twoSources.run (run ["d/b.nl"]) = (outcome, w') ∧ outcome.exit = 1 ∧
      ∀ location, w'.files.entry location = Build.twoSources.files.entry location := by
  have hread (name : String)
      (h : readArguments [name] = some (.run ⟨some name, none, false, false, none⟩)) :
      ∀ o, readArguments [name] = some (.run o) → o.target = some (Bytes.ofString name) := by
    intro o ho
    cases ho.symm.trans h
    rfl
  have hfirst := hread "d/a.nl" (by decide)
  have hsecond := hread "d/b.nl" (by decide)
  constructor
  · obtain ⟨outcome, w', hrun, hothers, houtputs, -⟩ :=
      run_writes_only_siblings Build.twoSources_sound (by decide : givesOutput ["d/a.nl"] = false)
        fun o ho => .of_target (hfirst o ho)
    have hexit : (Build.twoSources.run (run ["d/a.nl"])).1.exit = 0 := by decide +kernel
    have hchanged : (Build.twoSources.run (run ["d/a.nl"])).2.files.entry ["d", "a.js"] ≠
        Build.twoSources.files.entry ["d", "a.js"] := by decide +kernel
    rw [hrun] at hexit hchanged
    refine ⟨outcome, w', hrun, hexit, ?_, hothers _ (by decide)⟩
    obtain ⟨o, s, text, javaScript, ho, hsource, -, -, htext, hcompile, hentry⟩ :=
      houtputs _ hchanged
    cases hsource with
    | target htarget =>
      cases htarget.symm.trans (hfirst o ho)
      cases Build.twoSources_first.1.symm.trans htext
      cases Build.twoSources_first.2.symm.trans hcompile
      exact hentry
    | discovered htarget hdirectory =>
      cases htarget.symm.trans (hfirst o ho)
      cases hdirectory
  · obtain ⟨outcome, w', hrun, -, -, hfailed⟩ :=
      run_writes_only_siblings Build.twoSources_sound (by decide : givesOutput ["d/b.nl"] = false)
        fun o ho => .of_target (hsecond o ho)
    have hexit : (Build.twoSources.run (run ["d/b.nl"])).1.exit = 1 := by decide +kernel
    rw [hrun] at hexit
    refine ⟨outcome, w', hrun, hexit, hfailed ?_ (ne_of_eq_of_ne hexit Nat.one_ne_zero)⟩
    intro o ho target htarget
    cases htarget.symm.trans (hsecond o ho)
    rfl

/-- A source in a directory whose name is no text. -/
def unshownSource : World :=
  ⟨.folder [0xFF] (.file "a.nl" "func f=\x7b\x7d\x7b\x7d".toUTF8 .empty) .empty,
    [], ByteArray.empty, []⟩

/-- The output of a source whose path is no text goes astray. It is written where its shown name
leads, and the directory on the way is made, although nothing there is called like an output. -/
theorem run_misplaces_unshown_output :
    unshownSource.Sound ∧ givesOutput [[0xFF] ++ Bytes.ofString "/a.nl"] = false ∧
      unshownSource.files.place? [] (Path.ofBytes ([0xFF] ++ Bytes.ofString "/a.nl")).output =
        some [[0xFF], "a.js"] ∧
      ∃ outcome w', unshownSource.run (run [[0xFF] ++ Bytes.ofString "/a.nl"]) = (outcome, w') ∧
        outcome.exit = 0 ∧ w'.files.entry [[0xFF], "a.js"] = none ∧
        unshownSource.files.entry ["\uFFFD"] = none ∧ w'.files.entry ["\uFFFD"] = some none ∧
        w'.files.entry ["\uFFFD", "a.js"] =
          some (some "function f() \x7b\n\x7d\n\n".toUTF8) := by
  refine ⟨⟨rfl, rfl⟩, by decide, by decide +kernel, _, _, rfl, ?_⟩
  decide +kernel

end Command

end Scriptwright
