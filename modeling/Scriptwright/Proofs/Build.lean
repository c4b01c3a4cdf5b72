import Scriptwright.Proofs.Compile.Concatenation
import Scriptwright.Proofs.FileTree.Walk
import Scriptwright.Proofs.Host

/-!
# Building a directory

The sources of a directory are compiled one after the other. What is read from one of them
must not depend on the outputs that were written before: an output never has the place of a
source, and it leaves the directories as they are. So every source is read as it was before
the run, two outputs in one place come from one source, and all other places are left alone.
-/

namespace Scriptwright

namespace Directory
variable {α : Type} {root root' : Directory α} {base : List Bytes} {p : Path}
  {parent : List Bytes} {stem : Bytes}

/-- The path leads, whatever its length, to a file of the directory at `parent` that is
called like a source. -/
structure SourceAt (root : Directory α) (base : List Bytes) (p : Path) (parent : List Bytes)
    (stem : Bytes) : Prop where
  ne_nil : stem ≠ []
  follows : ∃ content, Follows root (start base p) p.segments
    (.file parent (stem ++ [Path.dot] ++ Path.sourceExtension) content false)

section
variable (hbase : root.entry base = some none)
include hbase

theorem exists_sourceAt {name : Bytes} {content : α}
    (h : Follows root (start base p) p.segments (.file parent name content false))
    (hsource : p.isSource = true) : ∃ stem, SourceAt root base p parent stem := by
  obtain ⟨segments⟩ := p
  obtain ⟨hnamed, -⟩ := h.stands
  obtain ⟨init, inner, rfl, -⟩ := h.split (.file content) (entry_start hbase _)
  obtain ⟨stem, hstem, rfl⟩ := (Path.isSource_iff hnamed).mp hsource
  exact ⟨stem, hstem, content, h⟩

theorem SourceAt.split (h : SourceAt root base p parent stem) :
    ∃ init inner, p = ⟨init ++ [stem ++ [Path.dot] ++ Path.sourceExtension]⟩ ∧
      Follows root (start base p) init (.folder parent inner) := by
  obtain ⟨content, hfollows⟩ := h.follows
  obtain ⟨init, inner, hsegments, hinit⟩ :=
    hfollows.split (.file content) (entry_start hbase p)
  exact ⟨init, inner, congrArg Path.mk hsegments, hinit⟩

/-- A source is found and read as before if its place has not been touched. -/
theorem SourceAt.congr (h : SourceAt root base p parent stem) (hsame : SameFolders root root')
    (hentry : root'.entry (parent ++ [stem ++ [Path.dot] ++ Path.sourceExtension]) =
      root.entry (parent ++ [stem ++ [Path.dot] ++ Path.sourceExtension])) :
    SourceAt root' base p parent stem ∧ root'.read base p = root.read base p := by
  obtain ⟨content, hfollows⟩ := h.follows
  obtain ⟨-, hheld⟩ := hfollows.stands
  obtain ⟨hfits, hlookup⟩ := held_eq_some.mp hheld
  rw [entry_eq_file.mpr hlookup] at hentry
  have hfollows' := hfollows.of_entry (.file content) (entry_start hbase p) hfits hsame hentry
  refine ⟨⟨h.ne_nil, content, hfollows'⟩, ?_⟩
  by_cases hvalid : p.Valid
  · rw [read_eq_ok.mpr ⟨_, _, resolve_eq_ok.mpr ⟨hvalid, hfollows⟩⟩,
      read_eq_ok.mpr ⟨_, _, resolve_eq_ok.mpr ⟨hvalid, hfollows'⟩⟩]
  · obtain ⟨fault, hfault⟩ := exists_fault_of_not_valid (α := α) hvalid base
    rw [read, node, hfault, read, node, hfault]

end

/-- The directory that a file lies in is found. -/
theorem isDirectory_directory? {init : List Bytes} {name : Bytes} {inner : Directory α}
    (hvalid : Path.Valid ⟨init ++ [name]⟩) (hname : Path.stays name = false)
    (hinit : Follows root (start base ⟨init ++ [name]⟩) init (.folder parent inner)) {q : Path}
    (hq : Path.directory? ⟨init ++ [name]⟩ = some q) : root.isDirectory base q = true := by
  obtain ⟨outer, last, trail, rfl, hlast, rfl, htrail⟩ := Path.directory?_eq_some hname hq
  have hne : last ≠ [] := by
    rintro rfl
    exact absurd hlast (by decide)
  rw [List.append_assoc (outer ++ [last])] at hvalid hinit
  rw [start_append (by simp)] at hinit
  have hfolder := hinit.of_append_stays htrail
  have hq := hvalid.of_append (by simp) (Path.bytes_ne_nil outer hne)
  exact isDirectory_iff.mpr ⟨parent, inner, resolve_eq_ok.mpr ⟨hq, hfolder⟩⟩

/-- The output of a source that can be read lies in a directory that exists. It is itself a
directory, or a file has its place, or could have it. -/
theorem SourceAt.output (hbase : root.entry base = some none)
    (h : SourceAt root base p parent stem) (hvalid : p.Valid) :
    (∀ q, p.output.directory? = some q → root.isDirectory base q = true) ∧
      (root.isDirectory base p.output = true ∨
        ∃ spot, root.resolve base p.output = .ok spot ∧
          spot.Names parent (stem ++ [Path.dot] ++ Path.outputExtension) ∧
          fitsName (stem ++ [Path.dot] ++ Path.outputExtension) = true) := by
  obtain ⟨content, hfollows⟩ := h.follows
  obtain ⟨hnamed, hheld⟩ := hfollows.stands
  obtain ⟨hfits, -⟩ := held_eq_some.mp hheld
  obtain ⟨init, inner, rfl, hinit⟩ := h.split hbase
  have hparent : root.entry parent = some none := entry_eq_folder.mpr ⟨inner, hinit.stands⟩
  rw [Path.output_eq h.ne_nil]
  split_ifs with hdot
  · -- the output goes up from the directory of the source
    subst hdot
    have hup := hvalid.concat (by decide : Path.up ≠ []) (by decide) (by decide)
    rw [start_concat hnamed.ne_nil (by decide : Path.up ≠ [])] at hinit
    refine ⟨fun q => isDirectory_directory? hup (by decide) hinit, .inl ?_⟩
    obtain ⟨outer, houter⟩ := entry_eq_folder.mp (entry_dropLast hparent)
    exact isDirectory_iff.mpr ⟨_, outer, resolve_eq_ok.mpr ⟨hup, hinit.append (.up (.done houter))⟩⟩
  · have hnamed' := Path.named_of_extension h.ne_nil (by decide : Path.outputExtension ≠ [])
    have hsize : (stem ++ [Path.dot] ++ Path.outputExtension).length =
        (stem ++ [Path.dot] ++ Path.sourceExtension).length := by
      simp only [List.length_append]
      rfl
    have hnul : 0 ∈ stem ++ [Path.dot] ++ Path.outputExtension →
        0 ∈ stem ++ [Path.dot] ++ Path.sourceExtension := by
      intro hmem
      cases List.mem_append.mp hmem with
      | inl hmem => exact List.mem_append_left _ hmem
      | inr hmem => exact absurd hmem (by decide)
    have houtput := hvalid.concat hnamed'.ne_nil hnul hsize.le
    have hfits' : fitsName (stem ++ [Path.dot] ++ Path.outputExtension) = true := by
      rwa [fitsName, hsize]
    rw [start_concat hnamed.ne_nil hnamed'.ne_nil] at hinit
    refine ⟨fun q => isDirectory_directory? houtput hnamed'.stays hinit, ?_⟩
    cases hfound : root.held parent (stem ++ [Path.dot] ++ Path.outputExtension) with
    | none =>
      have hlast : Follows root parent [stem ++ [Path.dot] ++ Path.outputExtension]
          (.absent parent _ false) := .absent hnamed' hfound rfl
      exact .inr ⟨_, resolve_eq_ok.mpr ⟨houtput, hinit.append hlast⟩, .absent, hfits'⟩
    | some node =>
      cases node with
      | file old =>
        have hlast : Follows root parent [stem ++ [Path.dot] ++ Path.outputExtension]
            (.file parent _ old false) := .file hnamed' hfound rfl
        exact .inr ⟨_, resolve_eq_ok.mpr ⟨houtput, hinit.append hlast⟩, .file old, hfits'⟩
      | folder other =>
        have hlast := Follows.enter hnamed' hfound (.done (held_eq_some.mp hfound).2)
        exact .inl (isDirectory_iff.mpr
          ⟨_, other, resolve_eq_ok.mpr ⟨houtput, hinit.append hlast⟩⟩)

theorem SourceAt.place?_output (hbase : root.entry base = some none)
    (h : SourceAt root base p parent stem) (hvalid : p.Valid)
    (hfile : root.isDirectory base p.output = false) :
    root.place? base p.output = some (parent ++ [stem ++ [Path.dot] ++ Path.outputExtension]) := by
  obtain ⟨-, hdirectory | ⟨spot, hresolve, hspot, -⟩⟩ := h.output hbase hvalid
  · rw [hfile] at hdirectory
    cases hdirectory
  · refine place?_eq_some.mpr ⟨spot, hresolve, ?_⟩
    cases hspot <;> rfl

/-- Two paths of one source give the same content. -/
theorem SourceAt.read_eq {q : Path} (hp : SourceAt root base p parent stem)
    (hq : SourceAt root base q parent stem) (hpvalid : p.Valid) (hqvalid : q.Valid) :
    root.read base p = root.read base q := by
  obtain ⟨content, hp⟩ := hp.follows
  obtain ⟨content', hq⟩ := hq.follows
  have hheld := hp.stands.2
  rw [hq.stands.2] at hheld
  cases hheld
  rw [read_eq_ok.mpr ⟨_, _, resolve_eq_ok.mpr ⟨hpvalid, hp⟩⟩,
    read_eq_ok.mpr ⟨_, _, resolve_eq_ok.mpr ⟨hqvalid, hq⟩⟩]

end Directory

/-- The JavaScript of a text does not depend on the name of its file. -/
theorem compile_ok_of_path {text path javaScript : String} (h : compile text path = .ok javaScript)
    (path' : String) : compile text path' = .ok javaScript := by
  obtain ⟨program, hprogram, hjavaScript⟩ := compile_eq_ok.mp h
  obtain ⟨tokens, hscan, htokens⟩ := SourceFile.program_eq_ok.mp hprogram
  exact compile_eq_ok.mpr
    ⟨program, SourceFile.program_eq_ok.mpr ⟨tokens, hscan, htokens⟩, hjavaScript⟩

namespace World

/-- The names of the tree are proper, and the working directory exists. -/
structure Sound (w : World) : Prop where
  proper : w.files.isProper = true
  base : w.files.entry w.base = some none

/-- Every path of a list leads to a source. -/
def Sources (w : World) (sources : List Path) : Prop :=
  ∀ s ∈ sources, ∃ parent stem, w.files.SourceAt w.base s parent stem

/-- The outputs of some sources of `w` have been written, and nothing else has changed. -/
structure Wrote (w w' : World) (done : List Path) : Prop where
  base : w'.base = w.base
  input : w'.input = w.input
  folders : w.files.SameFolders w'.files
  outputs : ∀ s ∈ done, ∃ text javaScript, w.textAt s = .ok text ∧
    compile text s.text = .ok javaScript ∧
    w'.files.read w.base s.output = .ok javaScript.toUTF8
  others : ∀ location, (∀ s ∈ done, w.files.place? w.base s.output ≠ some location) →
    w'.files.entry location = w.files.entry location

/-- Why a source stops the build. -/
inductive Fails (w : World) (s : Path) : Error → Prop
  | reading {fault : FileFault} (h : w.textAt s = .error fault) : Fails w s (.unreadable fault)
  | compiling {text : String} {e : Error} (htext : w.textAt s = .ok text)
      (h : compile text s.text = .error e) : Fails w s e
  | writing {text javaScript : String} (htext : w.textAt s = .ok text)
      (hcompile : compile text s.text = .ok javaScript)
      (h : w.files.isDirectory w.base s.output = true) :
      Fails w s (.unwritable s.output .isDirectory)

namespace Fails
variable {w : World} {s : Path} {e : Error} {text : String} (h : w.Fails s e)
  (htext : w.textAt s = .ok text)
include h htext

theorem eq_of_compile {e' : Error} (hcompile : compile text s.text = .error e') : e = e' := by
  cases h with
  | reading hfault => cases htext.symm.trans hfault
  | compiling htext' hrefused =>
    cases htext.symm.trans htext'
    exact Except.error.inj (hrefused.symm.trans hcompile)
  | writing htext' haccepted =>
    cases htext.symm.trans htext'
    cases hcompile.symm.trans haccepted

theorem isDirectory_of_compile {javaScript : String}
    (hcompile : compile text s.text = .ok javaScript) :
    w.files.isDirectory w.base s.output = true := by
  cases h with
  | reading hfault => cases htext.symm.trans hfault
  | compiling htext' hrefused =>
    cases htext.symm.trans htext'
    cases hcompile.symm.trans hrefused
  | writing _ _ hdirectory => exact hdirectory

end Fails

theorem valid_of_textAt {w : World} {p : Path} {text : String} (h : w.textAt p = .ok text) :
    p.Valid := by
  unfold textAt at h
  cases hread : w.files.read w.base p with
  | error fault =>
    rw [hread] at h
    cases h
  | ok bytes =>
    obtain ⟨parent, name, hresolve⟩ := Directory.read_eq_ok.mp hread
    exact (Directory.resolve_eq_ok.mp hresolve).1

theorem Wrote.refl (w : World) : w.Wrote w [] :=
  ⟨rfl, rfl, fun _ => Iff.rfl, List.forall_mem_nil _, fun _ _ => rfl⟩

theorem Wrote.tell {w w' : World} {done : List Path} (h : w.Wrote w' done)
    (events : List Event) : w.Wrote (w'.tell events) done :=
  ⟨h.base, h.input, h.folders, h.outputs, h.others⟩

section
variable {w w' : World} (hbase : w.files.entry w.base = some none) {done : List Path}
  (hdone : w.Sources done) (hwrote : w.Wrote w' done)
include hbase hdone hwrote

theorem Wrote.place?_output {s : Path} (hs : s ∈ done) :
    ∃ parent stem, w.files.SourceAt w.base s parent stem ∧ s.Valid ∧
      w.files.place? w.base s.output =
        some (parent ++ [stem ++ [Path.dot] ++ Path.outputExtension]) := by
  obtain ⟨parent, stem, hsource⟩ := hdone s hs
  obtain ⟨text, javaScript, htext, -, hread⟩ := hwrote.outputs s hs
  have hvalid := valid_of_textAt htext
  refine ⟨parent, stem, hsource, hvalid, hsource.place?_output hbase hvalid ?_⟩
  rw [← Directory.isDirectory_congr hwrote.folders]
  obtain ⟨_, _, hresolve⟩ := Directory.read_eq_ok.mp hread
  simp only [Directory.isDirectory, hresolve]

/-- The sources are left alone. -/
theorem Wrote.source {s : Path} {parent : List Bytes} {stem : Bytes}
    (hs : w.files.SourceAt w.base s parent stem) :
    w'.files.SourceAt w.base s parent stem ∧
      w'.files.read w.base s = w.files.read w.base s := by
  refine hs.congr hbase hwrote.folders (hwrote.others _ ?_)
  intro t ht hplace
  obtain ⟨parent', stem', -, -, hplace'⟩ := hwrote.place?_output hbase hdone ht
  rw [hplace', Option.some_inj] at hplace
  have hname := (List.append_inj' hplace rfl).2
  exact Path.outputName_ne_sourceName stem' stem (List.cons.inj hname).1

/-- Where two outputs have the same place, they come from the same text. -/
theorem Wrote.textAt_eq {s t : Path} (hs : w.Sources [s]) (hvalid : s.Valid) (ht : t ∈ done)
    (hfile : w.files.isDirectory w.base s.output = false)
    (hplace : w.files.place? w.base t.output = w.files.place? w.base s.output) :
    w.textAt t = w.textAt s := by
  obtain ⟨parent, stem, hsource⟩ := hs s List.mem_cons_self
  obtain ⟨parent', stem', hsource', hvalid', hplace'⟩ := hwrote.place?_output hbase hdone ht
  rw [hplace', hsource.place?_output hbase hvalid hfile, Option.some_inj] at hplace
  obtain ⟨rfl, hname⟩ := List.append_inj' hplace rfl
  cases List.append_cancel_right (List.append_cancel_right (List.cons.inj hname).1)
  rw [textAt, textAt, hsource'.read_eq hsource hvalid' hvalid]

/-- One more output is written. -/
theorem Wrote.concat {s : Path} (hs : w.Sources [s]) {text javaScript : String}
    (htext : w.textAt s = .ok text) (hcompile : compile text s.text = .ok javaScript)
    {files : FileTree} (hwrite : w'.files.write w.base s.output javaScript.toUTF8 = .ok files)
    (events : List Event) :
    w.Wrote { w' with files := files, events := events } (done ++ [s]) := by
  have hbase' : w'.files.entry w.base = some none := (hwrote.folders _).mpr hbase
  have hsame := Directory.sameFolders_of_write hbase' hwrite
  have hplaces := Directory.place?_congr hwrote.folders w.base
  have hfile : w.files.isDirectory w.base s.output = false := by
    rw [← Directory.isDirectory_congr hwrote.folders, Bool.eq_false_iff]
    intro hdirectory
    rw [Directory.write_of_isDirectory hdirectory] at hwrite
    cases hwrite
  refine ⟨hwrote.base, hwrote.input, fun l => (hsame l).trans (hwrote.folders l), ?_, ?_⟩
  · intro t ht
    cases List.mem_append.mp ht with
    | inl ht =>
      obtain ⟨text', javaScript', htext', hcompile', hread⟩ := hwrote.outputs t ht
      refine ⟨text', javaScript', htext', hcompile', ?_⟩
      have hread' := Directory.read_of_write_of_read hbase' hwrite hread
      rw [hplaces, hplaces] at hread'
      split_ifs at hread' with hplace
      · have hsameText := hwrote.textAt_eq hbase hdone hs (valid_of_textAt htext) ht hfile hplace
        rw [htext, htext'] at hsameText
        cases hsameText
        cases (compile_ok_of_path hcompile t.text).symm.trans hcompile'
        exact hread'
      · exact hread'
    | inr ht =>
      cases List.mem_singleton.mp ht
      exact ⟨text, javaScript, htext, hcompile, Directory.read_of_write hbase' hwrite⟩
  · intro location hlocation
    obtain ⟨place, hplace, -, hentry⟩ := Directory.entry_of_write hbase' hwrite
    have hne : location ≠ place := by
      rintro rfl
      rw [hplaces] at hplace
      exact hlocation s (List.mem_append_right _ (List.mem_singleton_self s)) hplace
    have hbefore := hwrote.others location fun t ht => hlocation t (List.mem_append_left _ ht)
    rw [← hbefore]
    exact (congrFun hentry location).trans (Function.update_of_ne hne _ _)

end

end World

namespace Build

section
variable {w : World} (hbase : w.files.entry w.base = some none)
include hbase

/-- The next source fails, or its output is written and the other sources follow. -/
theorem run_compileAll_cons {done : List Path} (hdone : w.Sources done) {s : Path}
    (hs : w.Sources [s]) {w₁ : World} (hwrote : w.Wrote w₁ done) (rest : List Path) :
    (∃ e w₂, w.Fails s e ∧ w.Wrote w₂ done ∧
        w₁.run (compileAll (s :: rest)).run = (.error e, w₂)) ∨
      ∃ w₂, w.Wrote w₂ (done ++ [s]) ∧
        w₁.run (compileAll (s :: rest)).run =
          w₂.run (compileAll rest >>= fun pairs => pure ((s, s.output) :: pairs)).run := by
  obtain ⟨parent, stem, hsource⟩ := hs s (List.mem_singleton_self s)
  obtain ⟨hsource₁, hread⟩ := hwrote.source hbase hdone hsource
  have htext₁ : w₁.textAt s = w.textAt s := by
    rw [World.textAt, hwrote.base, hread, World.textAt]
  cases htext : w.textAt s with
  | error fault =>
    rw [htext] at htext₁
    have hcompiled := run_compileFile_unreadable htext₁
    exact .inl ⟨_, w₁, .reading htext, hwrote, World.run_bind_error hcompiled _⟩
  | ok text =>
    rw [htext] at htext₁
    have hcompiled := run_compileFile htext₁
    have htold := hwrote.tell (compileEvents text s.text)
    cases hcompile : compile text s.text with
    | error e =>
      rw [hcompile] at hcompiled
      exact .inl ⟨e, _, .compiling htext hcompile, htold, World.run_bind_error hcompiled _⟩
    | ok javaScript =>
      rw [hcompile] at hcompiled
      have hbase₁ : w₁.files.entry w.base = some none := (hwrote.folders _).mpr hbase
      obtain ⟨hdirectory, hplace⟩ := hsource₁.output hbase₁ (World.valid_of_textAt htext)
      rw [← hwrote.base] at hdirectory
      cases hplace with
      | inl hfolder =>
        have hwritten := run_writeOutput_error (w := w₁.tell (compileEvents text s.text)) hdirectory
          (Directory.write_of_isDirectory (hwrote.base ▸ hfolder) javaScript.toUTF8)
        rw [Directory.isDirectory_congr hwrote.folders] at hfolder
        exact .inl ⟨_, _, .writing htext hcompile hfolder, htold,
          (World.run_bind_ok hcompiled _).trans (World.run_bind_error hwritten _)⟩
      | inr hnames =>
        obtain ⟨spot, hresolve, hspot, hfits⟩ := hnames
        have hwrite := Directory.write_of_names hresolve hspot hfits javaScript.toUTF8
        have hwritten := run_writeOutput (w := w₁.tell (compileEvents text s.text)) hdirectory
          (hwrote.base ▸ hwrite)
        exact .inr ⟨_, hwrote.concat hbase hdone hs htext hcompile hwrite _,
          (World.run_bind_ok hcompiled _).trans (World.run_bind_ok hwritten _)⟩

/-- What compiling sources comes to, if the outputs of other ones have been written before. -/
theorem run_compileAll {rest done : List Path} (hsources : w.Sources (done ++ rest)) {w₁ : World}
    (hwrote : w.Wrote w₁ done) :
    ∃ w' before, w.Wrote w' (done ++ before) ∧
      ((before = rest ∧
          w₁.run (compileAll rest).run = (.ok (rest.map fun s => (s, s.output)), w')) ∨
        ∃ s after e, rest = before ++ s :: after ∧ w.Fails s e ∧
          w₁.run (compileAll rest).run = (.error e, w')) := by
  -- on the sources that are left; `done` holds those whose outputs are there
  induction rest generalizing done w₁ with
  | nil => exact ⟨w₁, [], by rwa [List.append_nil], .inl ⟨rfl, rfl⟩⟩
  | cons s rest ih =>
    have hdone : w.Sources done := fun t ht => hsources t (List.mem_append_left _ ht)
    have hs : w.Sources [s] := List.forall_mem_singleton.mpr (hsources s (by simp))
    rcases run_compileAll_cons hbase hdone hs hwrote rest with
      ⟨e, w₂, hfails, hwrote₂, hrun⟩ | ⟨w₂, hwrote₂, hrun⟩
    · exact ⟨w₂, [], by rwa [List.append_nil], .inr ⟨s, rest, e, rfl, hfails, hrun⟩⟩
    · obtain ⟨w', before, hwrote', hrest⟩ := ih (by simpa using hsources) hwrote₂
      refine ⟨w', s :: before, by simpa using hwrote', ?_⟩
      rw [hrun]
      rcases hrest with ⟨rfl, hok⟩ | ⟨t, after, e, rfl, hfails, herror⟩
      · exact .inl ⟨rfl, World.run_bind_ok hok _⟩
      · exact .inr ⟨t, after, e, rfl, hfails, World.run_bind_error herror _⟩

end

theorem outline_eq_ok {w : World} {p : Path} {deep : Bool} {node : Node Unit}
    (h : w.outline p deep = .ok node) :
    (∃ content, w.files.node w.base p = .ok (.file content) ∧ node = .file ()) ∨
      ∃ inner, w.files.node w.base p = .ok (.folder inner) ∧
        node = .folder (inner.outline deep) := by
  unfold World.outline at h
  cases hnode : w.files.node w.base p with
  | error fault => simp [hnode] at h
  | ok found =>
    simp only [hnode] at h
    cases found with
    | file content =>
      cases h
      exact .inl ⟨content, rfl, rfl⟩
    | folder inner =>
      simp only at h
      split at h
      · cases h
      · cases h
        exact .inr ⟨inner, rfl, rfl⟩

/-- What is discovered are sources, and nothing changes. -/
theorem run_discover {w : World} (hsound : w.Sound) (root : Path) (recursive : Bool) :
    (∃ e, w.run (discover root recursive).run = (.error e, w)) ∨
      ∃ sources, w.run (discover root recursive).run = (.ok sources, w) ∧ w.Sources sources := by
  have houtline : w.run (ExceptT.mk (Host.outline (m := StateM World) root recursive)).run =
      (w.outline root recursive, w) := rfl
  have hadapted := World.run_adapt houtline Error.unreadable
  cases hnode : w.outline root recursive with
  | error fault =>
    rw [hnode] at hadapted
    exact .inl ⟨_, World.run_bind_error hadapted _⟩
  | ok node =>
    rw [hnode] at hadapted
    have hsources {q : Path} (hsource : q.isSource = true) {parent : List Bytes} {name : Bytes}
        {content : ByteArray} (hfollows : w.files.Follows (Directory.start w.base q) q.segments
          (.file parent name content false)) :
        ∃ parent stem, w.files.SourceAt w.base q parent stem :=
      ⟨parent, Directory.exists_sourceAt hsound.base hfollows hsource⟩
    rcases outline_eq_ok hnode with ⟨content, hfile, rfl⟩ | ⟨inner, hfolder, rfl⟩
    · refine .inr ⟨[root].filter Path.isSource, World.run_bind_ok hadapted _, ?_⟩
      intro q hq
      obtain ⟨hq, hsource⟩ := List.mem_filter.mp hq
      cases List.mem_singleton.mp hq
      obtain ⟨parent, name, hresolve⟩ := Directory.node_eq_file.mp hfile
      exact hsources hsource (Directory.resolve_eq_ok.mp hresolve).2
    · refine .inr ⟨((inner.outline recursive).files root).filter Path.isSource,
        World.run_bind_ok hadapted _, ?_⟩
      intro q hq
      obtain ⟨hq, hsource⟩ := List.mem_filter.mp hq
      obtain ⟨location, hresolve⟩ := Directory.node_eq_folder.mp hfolder
      have hlookup := (Directory.resolve_eq_ok.mp hresolve).2.stands
      have hproper := Directory.isProper_of_lookup hsound.proper hlookup
      obtain ⟨parent, name, content, hfollows⟩ :=
        Directory.follows_of_mem_files hresolve hproper hq
      exact hsources hsource hfollows

/-- All sources are compiled, or those before the first that fails. -/
theorem run_compileDirectory {w : World} (hbase : w.files.entry w.base = some none) {root : Path}
    {recursive : Bool} {sources : List Path} (hsources : w.Sources sources)
    (hdiscover : w.run (discover root recursive).run = (.ok sources, w)) :
    ∃ w' done, w.Wrote w' done ∧
      ((done = sources ∧ w.run (compileDirectory root recursive).run =
          (.ok (sources.map fun s => (s, s.output)), w')) ∨
        ∃ s later e, sources = done ++ s :: later ∧ w.Fails s e ∧
          w.run (compileDirectory root recursive).run = (.error e, w')) := by
  have hcompile : w.run (compileDirectory root recursive).run = w.run (compileAll sources).run :=
    World.run_bind_ok hdiscover _
  have hall : w.Sources ([] ++ sources) := hsources
  rw [hcompile]
  exact run_compileAll hbase hall (.refl w)

/-- Compiling a directory changes the outputs of the sources that it compiled, and nothing
else. Either all sources are compiled and each is paired with its output, or one cannot be
read, compiled or written, and only the outputs of those before it have been written. -/
theorem compileDirectory_writes_only_outputs {w : World} (hsound : w.Sound) (root : Path)
    (recursive : Bool) :
    (∃ e, w.run (discover root recursive).run = (.error e, w) ∧
        w.run (compileDirectory root recursive).run = (.error e, w)) ∨
      ∃ sources, w.run (discover root recursive).run = (.ok sources, w) ∧
        ∃ w' done, w.Wrote w' done ∧
          (∀ s ∈ sources, w'.files.read w.base s = w.files.read w.base s) ∧
          ((done = sources ∧ w.run (compileDirectory root recursive).run =
              (.ok (sources.map fun s => (s, s.output)), w')) ∨
            ∃ s later e, sources = done ++ s :: later ∧ w.Fails s e ∧
              w.run (compileDirectory root recursive).run = (.error e, w')) := by
  rcases run_discover hsound root recursive with ⟨e, hdiscover⟩ | ⟨sources, hdiscover, hsources⟩
  · exact .inl ⟨e, hdiscover, World.run_bind_error hdiscover _⟩
  · obtain ⟨w', done, hwrote, hrun⟩ := run_compileDirectory hsound.base hsources hdiscover
    have hdone : w.Sources done := by
      intro t ht
      apply hsources t
      rcases hrun with ⟨rfl, -⟩ | ⟨s, later, e, rfl, -⟩
      · exact ht
      · exact List.mem_append_left _ ht
    refine .inr ⟨sources, hdiscover, w', done, hwrote, fun s hs => ?_, hrun⟩
    obtain ⟨parent, stem, hsource⟩ := hsources s hs
    exact (hwrote.source hsound.base hdone hsource).2

/-- A directory with two sources, of which the second cannot be compiled. -/
def twoSources : World :=
  ⟨.folder "d" (.file "b.nl" "func".toUTF8
      (.file "a.nl" "func f=\x7b\x7d\x7b\x7d".toUTF8 .empty)) .empty,
    [], ByteArray.empty, []⟩

theorem twoSources_sound : twoSources.Sound := ⟨rfl, rfl⟩

theorem twoSources_first :
    twoSources.textAt ⟨["d", "a.nl"]⟩ = .ok "func f=\x7b\x7d\x7b\x7d" ∧
      compile "func f=\x7b\x7d\x7b\x7d" "d/a.nl" = .ok "function f() \x7b\n\x7d\n\n" :=
  ⟨World.textAt_of_read rfl, by decide +kernel⟩

theorem twoSources_second :
    twoSources.textAt ⟨["d", "b.nl"]⟩ = .ok "func" ∧
      compile "func" "d/b.nl" =
        .error (.located "E0100" "Expected function name, got end of input" "d/b.nl" ⟨1, 5⟩) :=
  ⟨World.textAt_of_read rfl, by decide +kernel⟩

theorem discover_twoSources :
    twoSources.run (discover ⟨["d"]⟩ false).run =
      (.ok [⟨["d", "a.nl"]⟩, ⟨["d", "b.nl"]⟩], twoSources) := by
  have hrun : twoSources.run (discover ⟨["d"]⟩ false).run =
      (.ok ((Directory.files ⟨["d"]⟩ (.file "b.nl" () (.file "a.nl" () .empty))).filter
        Path.isSource), twoSources) := rfl
  have hd : Bytes.ofString "d" ≠ [] := by decide
  have hle : ¬ Bytes.ofString "b.nl" ≤ Bytes.ofString "a.nl" := by decide
  -- sorting is by well-founded recursion, which only rewriting opens
  have hfiles : Directory.files ⟨["d"]⟩ (.file "b.nl" () (.file "a.nl" () .empty)) =
      [⟨["d", "a.nl"]⟩, ⟨["d", "b.nl"]⟩] := by
    simp [Directory.files, Directory.visits, Directory.byName, Directory.visitsByEntry,
      List.mergeSort, Path.child, hd, hle]
  have hfilter : [⟨["d", "a.nl"]⟩, ⟨["d", "b.nl"]⟩].filter Path.isSource =
      [⟨["d", "a.nl"]⟩, ⟨["d", "b.nl"]⟩] := by
    decide +kernel
  rw [hrun, hfiles, hfilter]

/-- The first output is written before the second source is refused. -/
theorem compileDirectory_twoSources :
    ∃ w', twoSources.run (compileDirectory ⟨["d"]⟩ false).run =
        (.error (.located "E0100" "Expected function name, got end of input" "d/b.nl" ⟨1, 5⟩),
          w') ∧
      w'.files.read [] ⟨["d", "a.js"]⟩ = .ok "function f() \x7b\n\x7d\n\n".toUTF8 ∧
      ∀ location : List Bytes, location ≠ ["d", "a.js"] →
        w'.files.entry location = twoSources.files.entry location := by
  obtain ⟨hfirst, hcompiled⟩ := twoSources_first
  obtain ⟨hsecond, hrefused⟩ := twoSources_second
  rcases compileDirectory_writes_only_outputs twoSources_sound ⟨["d"]⟩ false with
    ⟨e, hdiscover, -⟩ | ⟨sources, hdiscover, w', done, hwrote, -, hrun⟩
  · cases discover_twoSources.symm.trans hdiscover
  · cases discover_twoSources.symm.trans hdiscover
    rcases hrun with ⟨rfl, -⟩ | ⟨s, later, e, hsplit, hfails, hrun⟩
    · obtain ⟨text, javaScript, htext, hcompile, -⟩ := hwrote.outputs ⟨["d", "b.nl"]⟩ (by simp)
      cases hsecond.symm.trans htext
      cases hrefused.symm.trans hcompile
    · cases done with
      | nil =>
        cases hsplit
        cases hfails.isDirectory_of_compile hfirst hcompiled
      | cons first done =>
        cases done with
        | cons second done => cases done <;> cases hsplit
        | nil =>
          cases hsplit
          cases hfails.eq_of_compile hsecond hrefused
          refine ⟨w', hrun, ?_, fun location hne => hwrote.others location ?_⟩
          · obtain ⟨text, javaScript, htext, hcompile, hread⟩ := hwrote.outputs _ List.mem_cons_self
            cases hfirst.symm.trans htext
            cases hcompiled.symm.trans hcompile
            exact hread
          · intro s hs hplace
            cases List.mem_singleton.mp hs
            exact hne (Option.some.inj hplace).symm

end Build

end Scriptwright
