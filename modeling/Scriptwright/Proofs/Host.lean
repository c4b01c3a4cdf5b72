import Scriptwright.Build
import Scriptwright.Proofs.FileTree

/-!
# Runs on a world

What the actions of a build do to a host that is a value, given by the result and the world
afterwards. A run of several actions is known from the runs of its parts.
-/

namespace Scriptwright

namespace World
variable {ε β γ : Type}

/-- The result of an action and the world after it. -/
def run (w : World) (action : StateM World β) : β × World := StateT.run action w

/-- The world after some events have been told. -/
def tell (w : World) (events : List Event) : World := { w with events := w.events ++ events }

theorem tell_nil (w : World) : w.tell [] = w := by
  rw [tell, List.append_nil]

theorem tell_tell (w : World) (first second : List Event) :
    (w.tell first).tell second = w.tell (first ++ second) := by
  simp only [tell, List.append_assoc]

/-- The text that a file holds. -/
def textAt (w : World) (p : Path) : Except FileFault String :=
  (w.files.read w.base p).bind Build.decode

theorem run_bind {x : StateM World β} {w w' : World} {a : β} (h : w.run x = (a, w'))
    (f : β → StateM World γ) : w.run (x >>= f) = w'.run (f a) := by
  have hbind : w.run (x >>= f) = (w.run x).2.run (f (w.run x).1) := rfl
  rw [hbind, h]

theorem textAt_of_read {w : World} {p : Path} {text : String}
    (h : w.files.read w.base p = .ok text.toUTF8) : w.textAt p = .ok text := by
  have hdecode : Build.decode text.toUTF8 = .ok text := by
    simp only [Build.decode, String.fromUTF8?, String.toUTF8_eq_toByteArray,
      dif_pos text.isValidUTF8]
    rfl
  rw [textAt, h]
  exact hdecode

section
variable {x : ExceptT ε (StateM World) β} {w w' : World}

theorem run_bind_ok {a : β} (h : w.run x.run = (.ok a, w'))
    (f : β → ExceptT ε (StateM World) γ) : w.run (x >>= f).run = w'.run (f a).run := by
  simp only [run, ExceptT.run_bind, StateT.run_bind] at h ⊢
  rw [h]
  rfl

theorem run_bind_error {e : ε} (h : w.run x.run = (.error e, w'))
    (f : β → ExceptT ε (StateM World) γ) : w.run (x >>= f).run = (.error e, w') := by
  simp only [run, ExceptT.run_bind, StateT.run_bind] at h ⊢
  rw [h]
  rfl

/-- Errors of a part may be told in another way. -/
theorem run_adapt {δ : Type} {r : Except ε β} (h : w.run x.run = (r, w')) (f : ε → δ) :
    w.run (x.adapt f).run = (r.mapError f, w') := by
  have hadapt : w.run (x.adapt f).run =
      ((w.run x.run).1.mapError f, (w.run x.run).2) := rfl
  rw [hadapt, h]

end

theorem run_lift (w : World) (action : StateM World β) :
    w.run (liftM action : ExceptT ε (StateM World) β).run =
      (.ok (w.run action).1, (w.run action).2) := rfl

end World

namespace Build

theorem run_tellAll (w : World) (events : List Event) :
    w.run (tellAll events) = ((), w.tell events) := by
  induction events generalizing w with
  | nil =>
    rw [World.tell_nil]
    rfl
  | cons e events ih =>
    have hcons : w.run (tellAll (e :: events)) = (w.tell [e]).run (tellAll events) := rfl
    rw [hcons, ih, World.tell_tell, List.singleton_append]

theorem run_readText (w : World) (p : Path) : w.run (readText p).run = (w.textAt p, w) := by
  have hread : w.run (ExceptT.mk (Host.read (m := StateM World) p)).run =
      (w.files.read w.base p, w) := rfl
  unfold readText World.textAt
  cases hbytes : w.files.read w.base p with
  | error fault =>
    rw [hbytes] at hread
    exact World.run_bind_error hread _
  | ok bytes =>
    rw [hbytes] at hread
    exact World.run_bind_ok hread _

theorem run_compileText (w : World) (text path : String) :
    w.run (compileText text path).run =
      (compile text path, w.tell (compileEvents text path)) := by
  have htold := World.run_lift (ε := Error) w (tellAll (compileEvents text path))
  rw [run_tellAll] at htold
  exact World.run_bind_ok htold _

theorem run_compileFile_unreadable {w : World} {p : Path} {fault : FileFault}
    (h : w.textAt p = .error fault) :
    w.run (compileFile p).run = (.error (.unreadable fault), w) := by
  have hread := World.run_adapt (run_readText w p) Error.unreadable
  rw [h] at hread
  exact World.run_bind_error hread _

theorem run_compileFile {w : World} {p : Path} {text : String} (h : w.textAt p = .ok text) :
    w.run (compileFile p).run = (compile text p.text, w.tell (compileEvents text p.text)) := by
  have hread := World.run_adapt (run_readText w p) Error.unreadable
  rw [h] at hread
  rw [← run_compileText]
  exact World.run_bind_ok hread _

/-- There is nothing to be made if the innermost directory exists. -/
theorem run_makeDirectories {w : World} {p : Path} (h : w.files.isDirectory w.base p = true)
    (outer : List Path) : w.run (makeDirectories (p :: outer)) = (.ok (), w) := by
  have hmade : w.run (Host.makeDirectory p) = (.error .alreadyExists, w) := by
    have hchange : w.run (Host.makeDirectory p) =
        w.change fun files => files.makeDirectory w.base p := rfl
    rw [hchange, World.change, Directory.makeDirectory_of_isDirectory h]
  have hsettled : w.run (settle p (.error .alreadyExists)) = (.ok (), w) := by
    have hasked : w.run (Host.isDirectory p) = (true, w) := by
      rw [← h]
      rfl
    exact World.run_bind hasked _
  exact (World.run_bind hmade _).trans hsettled

theorem run_write (w : World) (p : Path) (content : ByteArray) :
    w.run (Host.write p content) = w.change fun files => files.write w.base p content := rfl

section
variable {w : World} {p : Path} (hdirectory : ∀ q, p.directory? = some q →
  w.files.isDirectory w.base q = true) {text : String}
include hdirectory

theorem run_writeOutput_eq :
    w.run (writeOutput p text).run =
      w.run ((ExceptT.mk (Host.write p text.toUTF8)).adapt (Error.unwritable p)).run := by
  unfold writeOutput
  cases hdirectories : p.directories with
  | nil => rfl
  | cons q outer =>
    have hq := hdirectory q (Path.directory?_of_directories hdirectories)
    have hmade : w.run (ExceptT.mk (makeDirectories (q :: outer))).run = (.ok (), w) :=
      run_makeDirectories hq outer
    exact World.run_bind_ok (World.run_adapt hmade (Error.unwritable q)) _

theorem run_writeOutput {files : FileTree}
    (h : w.files.write w.base p text.toUTF8 = .ok files) :
    w.run (writeOutput p text).run = (.ok (), { w with files }) := by
  have hwritten := run_write w p text.toUTF8
  rw [World.change, h] at hwritten
  rw [run_writeOutput_eq hdirectory]
  exact World.run_adapt hwritten _

theorem run_writeOutput_error {fault : FileFault}
    (h : w.files.write w.base p text.toUTF8 = .error fault) :
    w.run (writeOutput p text).run = (.error (.unwritable p fault), w) := by
  have hwritten := run_write w p text.toUTF8
  rw [World.change, h] at hwritten
  rw [run_writeOutput_eq hdirectory]
  exact World.run_adapt hwritten _

end

end Build

end Scriptwright
