import Mathlib.Logic.Function.Basic
import Scriptwright.FileTree
import Scriptwright.Proofs.Path

/-!
# Reading and writing in file trees

A file tree is seen through its entries: what stands at each location. To write a file is
to change one entry of this view. Where a path leads depends on the directories alone, and
a file that is written does not change these, so every path leads to the same place
afterwards.
-/

namespace Scriptwright
variable {α : Type}

/-- What a file holds. -/
def Node.content? : Node α → Option α
  | .file content => some content
  | .folder _ => none

namespace Spot

/-- The names that lead to the place, whether something stands there or not. -/
def place : Spot α → List Bytes
  | folder location _ => location
  | file parent name .. | absent parent name _ => parent ++ [name]

def isFolder : Spot α → Bool
  | folder .. => true
  | file .. | absent .. => false

/-- The spot is the one of a file with the name in the directory at `parent`, or would be. -/
inductive Names (parent : List Bytes) (name : Bytes) : Spot α → Prop
  | file (content : α) : Names parent name (.file parent name content false)
  | absent : Names parent name (.absent parent name false)

/-- What a spot tells is so. -/
def Stands (root : Directory α) : Spot α → Prop
  | folder location inner => root.lookup location = some (.folder inner)
  | file parent name content _ =>
    Path.Named name ∧ root.held parent name = some (.file content)
  | absent parent name _ => Path.Named name ∧ root.held parent name = none

end Spot

namespace Directory

/-- What stands at a location: nothing, a directory, or a file with its content. -/
def entry (root : Directory α) (location : List Bytes) : Option (Option α) :=
  (root.lookup location).map Node.content?

theorem entry_eq_folder {root : Directory α} {location : List Bytes} :
    root.entry location = some none ↔ ∃ d, root.lookup location = some (.folder d) := by
  unfold entry
  cases hnode : root.lookup location with
  | none => simp
  | some node => cases node <;> simp [Node.content?]

theorem entry_eq_file {root : Directory α} {location : List Bytes} {content : α} :
    root.entry location = some (some content) ↔
      root.lookup location = some (.file content) := by
  unfold entry
  cases hnode : root.lookup location with
  | none => simp
  | some node => cases node <;> simp [Node.content?]

theorem entry_eq_none {root : Directory α} {location : List Bytes} :
    root.entry location = none ↔ root.lookup location = none := by
  rw [entry, Option.map_eq_none_iff]

@[simp] theorem entry_nil (root : Directory α) : root.entry [] = some none := rfl

theorem lookup_singleton (d : Directory α) (name : Bytes) : d.lookup [name] = d.find? name := by
  unfold lookup
  cases hnode : d.find? name with
  | none => rfl
  | some node => cases node <;> simp [lookup]

theorem lookup_cons_of_folder {root inner : Directory α} {name : Bytes}
    (h : root.find? name = some (.folder inner)) (names : List Bytes) :
    root.lookup (name :: names) = inner.lookup names := by
  rw [lookup, h]

/-- Only directories hold anything. -/
theorem exists_folder_of_lookup {root : Directory α} {name : Bytes} {names : List Bytes}
    {node : Node α} (h : root.lookup (name :: names) = some node)
    (hnode : names ≠ [] ∨ ∃ d, node = .folder d) :
    ∃ inner, root.find? name = some (.folder inner) := by
  unfold lookup at h
  cases hfound : root.find? name with
  | none => simp [hfound] at h
  | some found =>
    cases found with
    | folder inner => exact ⟨inner, rfl⟩
    | file content =>
      simp only [hfound] at h
      split_ifs at h with hnil
      cases h
      simp [hnil] at hnode

theorem lookup_append {root d : Directory α} {first : List Bytes}
    (h : root.lookup first = some (.folder d)) (second : List Bytes) :
    root.lookup (first ++ second) = d.lookup second := by
  induction first generalizing root with
  | nil =>
    cases h
    rfl
  | cons name first ih =>
    obtain ⟨inner, hinner⟩ := exists_folder_of_lookup h (.inr ⟨d, rfl⟩)
    rw [lookup_cons_of_folder hinner] at h
    rw [List.cons_append, lookup_cons_of_folder hinner, ih h]

theorem entry_of_concat {root : Directory α} {first : List Bytes} {name : Bytes} {node : Node α}
    (h : root.lookup (first ++ [name]) = some node) : root.entry first = some none := by
  induction first generalizing root with
  | nil => rfl
  | cons other first ih =>
    obtain ⟨inner, hinner⟩ := exists_folder_of_lookup h (.inl (by simp))
    rw [List.cons_append, lookup_cons_of_folder hinner] at h
    rw [entry, lookup_cons_of_folder hinner]
    exact ih h

theorem entry_dropLast {root : Directory α} {location : List Bytes}
    (h : root.entry location = some none) : root.entry location.dropLast = some none := by
  by_cases hnil : location = []
  · subst hnil
    exact h
  · rw [← List.dropLast_concat_getLast hnil] at h
    obtain ⟨d, hd⟩ := entry_eq_folder.mp h
    exact entry_of_concat hd

theorem entry_put_of_ne {name other : Bytes} (h : name ≠ other) (root : Directory α)
    (node : Node α) (names : List Bytes) :
    (root.put name node).entry (other :: names) = root.entry (other :: names) := by
  rw [entry, entry, lookup, lookup, find?_put, if_neg h]

theorem entry_put_folder (root inner : Directory α) (name : Bytes) (names : List Bytes) :
    (root.put name (.folder inner)).entry (name :: names) = inner.entry names := by
  rw [entry, lookup_cons_of_folder (by rw [find?_put, if_pos rfl]), entry]

theorem entry_put_file {root : Directory α} {name : Bytes} (hname : root.entry [name] ≠ some none)
    (content : α) :
    (root.put name (.file content)).entry =
      Function.update root.entry [name] (some (some content)) := by
  funext location
  cases location with
  | nil => rfl
  | cons other names =>
    by_cases hother : name = other
    · subst hother
      by_cases hnames : names = []
      · subst hnames
        rw [Function.update_self, entry, lookup_singleton, find?_put, if_pos rfl]
        rfl
      · have hnone : root.lookup (name :: names) = none := by
          by_contra hsome
          obtain ⟨node, hnode⟩ := Option.ne_none_iff_exists'.mp hsome
          obtain ⟨inner, hinner⟩ := exists_folder_of_lookup hnode (.inl hnames)
          exact hname (entry_eq_folder.mpr ⟨inner, lookup_cons_of_folder hinner []⟩)
        rw [Function.update_of_ne (by simpa using hnames), entry_eq_none.mpr hnone, entry, lookup,
          find?_put, if_pos rfl]
        simp [hnames]
    · have hne : other :: names ≠ [name] := fun h => hother (List.cons.inj h).1.symm
      rw [Function.update_of_ne hne, entry_put_of_ne hother]

/-- To put a file in a directory, where no other directory has its name, is to change one
entry. -/
theorem entry_modifyAt {root : Directory α} {parent : List Bytes} {name : Bytes}
    (hparent : root.entry parent = some none) (hname : root.entry (parent ++ [name]) ≠ some none)
    (content : α) :
    (root.modifyAt (put name (.file content)) parent).entry =
      Function.update root.entry (parent ++ [name]) (some (some content)) := by
  induction parent generalizing root with
  | nil => exact entry_put_file hname content
  | cons outer parent ih =>
    obtain ⟨d, hd⟩ := entry_eq_folder.mp hparent
    obtain ⟨inner, hinner⟩ := exists_folder_of_lookup hd (.inr ⟨d, rfl⟩)
    have hentry (names : List Bytes) : root.entry (outer :: names) = inner.entry names := by
      rw [entry, lookup_cons_of_folder hinner, entry]
    rw [List.cons_append, hentry] at hname
    rw [hentry] at hparent
    funext location
    cases location with
    | nil => rfl
    | cons other names =>
      rw [modifyAt, hinner, List.cons_append]
      by_cases hother : outer = other
      · subst hother
        rw [entry_put_folder, ih hparent hname]
        by_cases hnames : names = parent ++ [name]
        · rw [hnames, Function.update_self, Function.update_self]
        · rw [Function.update_of_ne hnames, Function.update_of_ne (by simpa using hnames), hentry]
      · have hne : other :: names ≠ outer :: (parent ++ [name]) :=
          fun h => hother (List.cons.inj h).1.symm
        rw [Function.update_of_ne hne]
        exact entry_put_of_ne hother root _ names

theorem held_eq_some {root : Directory α} {location : List Bytes} {name : Bytes}
    {node : Node α} :
    root.held location name = some node ↔
      fitsName name = true ∧ root.lookup (location ++ [name]) = some node := by
  unfold held
  split_ifs with h <;> simp [h]

/-- The segments lead from the directory at the location to the spot. -/
inductive Follows (root : Directory α) : List Bytes → List Bytes → Spot α → Prop
  | done {location : List Bytes} {inner : Directory α}
      (h : root.lookup location = some (.folder inner)) :
      Follows root location [] (.folder location inner)
  | stay {location : List Bytes} {segment : Bytes} {rest : List Bytes} {spot : Spot α}
      (hstays : Path.stays segment = true) (h : Follows root location rest spot) :
      Follows root location (segment :: rest) spot
  | up {location rest : List Bytes} {spot : Spot α} (h : Follows root location.dropLast rest spot) :
      Follows root location (Path.up :: rest) spot
  | enter {location : List Bytes} {segment : Bytes} {rest : List Bytes} {spot : Spot α}
      {inner : Directory α} (hnamed : Path.Named segment)
      (hheld : root.held location segment = some (.folder inner))
      (h : Follows root (location ++ [segment]) rest spot) :
      Follows root location (segment :: rest) spot
  | file {location : List Bytes} {segment : Bytes} {rest : List Bytes} {content : α}
      (hnamed : Path.Named segment) (hheld : root.held location segment = some (.file content))
      (hslashes : rest.all (· == []) = true) :
      Follows root location (segment :: rest) (.file location segment content (rest != []))
  | absent {location : List Bytes} {segment : Bytes} {rest : List Bytes}
      (hnamed : Path.Named segment) (hheld : root.held location segment = none)
      (hslashes : rest.all (· == []) = true) :
      Follows root location (segment :: rest) (.absent location segment (rest != []))

theorem follow_eq_ok {root : Directory α} {location segments : List Bytes} {spot : Spot α} :
    root.follow location segments = .ok spot ↔ Follows root location segments spot := by
  constructor
  · intro h
    induction segments generalizing location with
    | nil =>
      unfold follow at h
      cases hnode : root.lookup location with
      | none => simp [hnode] at h
      | some node =>
        cases node with
        | file content => simp [hnode] at h
        | folder inner =>
          simp only [hnode] at h
          cases h
          exact .done hnode
    | cons segment rest ih =>
      rw [follow] at h
      split_ifs at h with hstays hup
      · exact .stay hstays (ih h)
      · subst hup
        exact .up (ih h)
      · have hnamed : Path.Named segment := ⟨by simpa using hstays, hup⟩
        cases hheld : root.held location segment with
        | none =>
          simp only [hheld] at h
          split_ifs at h with hslashes
          cases h
          exact .absent hnamed hheld hslashes
        | some node =>
          cases node with
          | folder inner =>
            simp only [hheld] at h
            exact .enter hnamed hheld (ih h)
          | file content =>
            simp only [hheld] at h
            split_ifs at h with hslashes
            cases h
            exact .file hnamed hheld hslashes
  · intro h
    induction h with
    | done h => simp only [follow, h]
    | stay hstays _ ih => rw [follow, if_pos hstays, ih]
    | up _ ih => exact ih
    | enter hnamed hheld _ ih => simp [follow, hnamed.stays, hnamed.ne_up, hheld, ih]
    | file hnamed hheld hslashes =>
      simp only [follow, hnamed.stays, hnamed.ne_up, hheld, hslashes]
      simp
    | absent hnamed hheld hslashes =>
      simp only [follow, hnamed.stays, hnamed.ne_up, hheld, hslashes]
      simp

/-- Two trees have their directories at the same locations. -/
def SameFolders (root root' : Directory α) : Prop :=
  ∀ location, root'.entry location = some none ↔ root.entry location = some none

namespace Follows
variable {root root' : Directory α} {start : List Bytes}

theorem stands {segments : List Bytes} {spot : Spot α} (h : Follows root start segments spot) :
    spot.Stands root := by
  induction h with
  | done h => exact h
  | stay _ _ ih | up _ ih | enter _ _ _ ih => exact ih
  | file hnamed hheld _ => exact ⟨hnamed, hheld⟩
  | absent hnamed hheld _ => exact ⟨hnamed, hheld⟩

theorem append {first location second : List Bytes} {inner : Directory α} {spot : Spot α}
    (hfirst : Follows root start first (.folder location inner))
    (hsecond : Follows root location second spot) : Follows root start (first ++ second) spot := by
  generalize hfolder : Spot.folder location inner = folder at hfirst
  induction hfirst with
  | done h =>
    cases hfolder
    exact hsecond
  | stay hstays _ ih => exact .stay hstays (ih hfolder)
  | up _ ih => exact .up (ih hfolder)
  | enter hnamed hheld _ ih => exact .enter hnamed hheld (ih hfolder)
  | file | absent => cases hfolder

/-- What stays at the end of a path to a directory can be left out. -/
theorem of_append_stays {first trail location : List Bytes} {inner : Directory α}
    (htrail : ∀ s ∈ trail, Path.stays s = true)
    (h : Follows root start (first ++ trail) (.folder location inner)) :
    Follows root start first (.folder location inner) := by
  induction first generalizing start with
  | nil =>
    rw [List.nil_append] at h
    induction trail with
    | nil => exact h
    | cons s trail ih =>
      have hs : Path.stays s = true := htrail s List.mem_cons_self
      cases h with
      | stay _ h => exact ih (fun t ht => htrail t (List.mem_cons_of_mem _ ht)) h
      | up => exact absurd hs (by decide)
      | enter hnamed => exact absurd (hs.symm.trans hnamed.stays) (by decide)
  | cons segment first ih =>
    cases h with
    | stay hstays h => exact .stay hstays (ih h)
    | up h => exact .up (ih h)
    | enter hnamed hheld h => exact .enter hnamed hheld (ih h)

/-- A path to a file ends with its name, and leads to the directory it lies in before. -/
theorem split {segments parent : List Bytes} {name : Bytes} {spot : Spot α}
    (h : Follows root start segments spot) (hspot : spot.Names parent name)
    (hstart : root.entry start = some none) :
    ∃ init inner, segments = init ++ [name] ∧ Follows root start init (.folder parent inner) := by
  induction h with
  | done => cases hspot
  | @stay _ segment _ _ hstays _ ih =>
    obtain ⟨init, inner, rfl, hinit⟩ := ih hspot hstart
    exact ⟨segment :: init, inner, rfl, .stay hstays hinit⟩
  | up _ ih =>
    obtain ⟨init, inner, rfl, hinit⟩ := ih hspot (entry_dropLast hstart)
    exact ⟨Path.up :: init, inner, rfl, .up hinit⟩
  | @enter _ segment _ _ _ hnamed hheld _ ih =>
    have hfolder := entry_eq_folder.mpr ⟨_, (held_eq_some.mp hheld).2⟩
    obtain ⟨init, inner, rfl, hinit⟩ := ih hspot hfolder
    exact ⟨segment :: init, inner, rfl, .enter hnamed hheld hinit⟩
  | @file _ _ rest | @absent _ _ rest =>
    obtain ⟨inner, hinner⟩ := entry_eq_folder.mp hstart
    cases rest with
    | nil =>
      cases hspot
      exact ⟨[], inner, rfl, .done hinner⟩
    | cons => cases hspot

/-- Where a path leads depends on the directories alone. -/
theorem congr (hsame : SameFolders root root') {segments : List Bytes} {spot : Spot α}
    (h : Follows root start segments spot) :
    ∃ spot', Follows root' start segments spot' ∧ spot'.place = spot.place ∧
      spot'.isFolder = spot.isFolder := by
  induction h with
  | @done location inner h =>
    have hfolder := (hsame location).mpr (entry_eq_folder.mpr ⟨inner, h⟩)
    obtain ⟨inner', h'⟩ := entry_eq_folder.mp hfolder
    exact ⟨_, .done h', rfl, rfl⟩
  | stay hstays _ ih =>
    obtain ⟨spot', h', hspot⟩ := ih
    exact ⟨spot', .stay hstays h', hspot⟩
  | up _ ih =>
    obtain ⟨spot', h', hspot⟩ := ih
    exact ⟨spot', .up h', hspot⟩
  | @enter location segment _ _ inner hnamed hheld _ ih =>
    obtain ⟨spot', h', hspot⟩ := ih
    obtain ⟨hfits, hlookup⟩ := held_eq_some.mp hheld
    have hfolder := (hsame (location ++ [segment])).mpr (entry_eq_folder.mpr ⟨inner, hlookup⟩)
    obtain ⟨inner', hlookup'⟩ := entry_eq_folder.mp hfolder
    exact ⟨spot', .enter hnamed (held_eq_some.mpr ⟨hfits, hlookup'⟩) h', hspot⟩
  | @file location segment _ content hnamed hheld hslashes
  | @absent location segment _ hnamed hheld hslashes =>
    cases hheld' : root'.held location segment with
    | none => exact ⟨_, .absent hnamed hheld' hslashes, rfl, rfl⟩
    | some node =>
      cases node with
      | file content' => exact ⟨_, .file hnamed hheld' hslashes, rfl, rfl⟩
      | folder inner' =>
        obtain ⟨hfits, hlookup'⟩ := held_eq_some.mp hheld'
        have hfolder := (hsame (location ++ [segment])).mp (entry_eq_folder.mpr ⟨inner', hlookup'⟩)
        obtain ⟨inner, hlookup⟩ := entry_eq_folder.mp hfolder
        rw [held_eq_some.mpr ⟨hfits, hlookup⟩] at hheld
        cases hheld

/-- The path of a file leads to what has its place in a tree with the same directories. -/
theorem of_entry {segments parent : List Bytes} {name : Bytes} {spot : Spot α}
    (h : Follows root start segments spot) (hspot : spot.Names parent name)
    (hstart : root.entry start = some none) (hfits : fitsName name = true)
    (hsame : SameFolders root root') {content : α}
    (hentry : root'.entry (parent ++ [name]) = some (some content)) :
    Follows root' start segments (.file parent name content false) := by
  obtain ⟨init, inner, rfl, hinit⟩ := h.split hspot hstart
  obtain ⟨spot', hinit', hplace, hfolder⟩ := hinit.congr hsame
  cases spot' with
  | file | absent => cases hfolder
  | folder location inner' =>
    cases hplace
    have hnamed : Path.Named name := by
      have hstands := h.stands
      cases hspot <;> exact hstands.1
    have hheld : root'.held parent name = some (.file content) :=
      held_eq_some.mpr ⟨hfits, entry_eq_file.mp hentry⟩
    exact hinit'.append (.file hnamed hheld rfl)

end Follows

end Directory

/-- A path that can be followed at all. -/
structure Path.Valid (p : Path) : Prop where
  noNul : 0 ∉ p.bytes
  fits : fitsPath p = true
  ne_nil : p.bytes ≠ []

namespace Path.Valid

/-- A path stays one that can be followed if its last name is replaced by one that is no
longer. -/
theorem concat {init : List Bytes} {name name' : Bytes}
    (h : Valid ⟨init ++ [name]⟩) (hne : name' ≠ []) (hnul : 0 ∈ name' → 0 ∈ name)
    (hsize : name'.length ≤ name.length) : Valid ⟨init ++ [name']⟩ := by
  obtain ⟨front, hfront⟩ := exists_bytes_front init
  have hnoNul := h.noNul
  have hfits := h.fits
  rw [hfront, List.mem_append, not_or] at hnoNul
  simp only [fitsPath, hfront, List.length_append, decide_eq_true_eq] at hfits
  refine ⟨?_, ?_, bytes_ne_nil init hne⟩
  · rw [hfront, List.mem_append, not_or]
    exact ⟨hnoNul.1, mt hnul hnoNul.2⟩
  · simp only [fitsPath, hfront, List.length_append, decide_eq_true_eq]
    omega

theorem of_append {first second : List Bytes} (h : Valid ⟨first ++ second⟩)
    (hsecond : second ≠ []) (hne : bytes ⟨first⟩ ≠ []) : Valid ⟨first⟩ := by
  have hfirst : first ≠ [] := by
    rintro rfl
    exact hne rfl
  have hbytes := bytes_append hfirst hsecond
  have hnoNul := h.noNul
  have hfits := h.fits
  simp only [hbytes, List.mem_append, not_or] at hnoNul
  simp only [fitsPath, hbytes, List.length_append, decide_eq_true_eq] at hfits
  refine ⟨hnoNul.1.1, ?_, hne⟩
  rw [fitsPath, decide_eq_true_eq]
  omega

end Path.Valid

namespace Directory
variable {root root' : Directory α} {base : List Bytes} {p : Path}

/-- Where a path starts from. -/
def start (base : List Bytes) (p : Path) : List Bytes := if p.isAbsolute then [] else base

theorem start_append {first : List Bytes} (h : first ≠ []) (base second : List Bytes) :
    start base ⟨first ++ second⟩ = start base ⟨first⟩ := by
  cases first with
  | nil => exact absurd rfl h
  | cons => rfl

/-- The last name of a path does not tell where it starts from. -/
theorem start_concat {name name' : Bytes} (h : name ≠ []) (h' : name' ≠ [])
    (base init : List Bytes) : start base ⟨init ++ [name]⟩ = start base ⟨init ++ [name']⟩ := by
  cases init with
  | nil => simp [start, Path.isAbsolute, h, h']
  | cons first more =>
    rw [start_append (List.cons_ne_nil _ _), start_append (List.cons_ne_nil _ _)]

theorem entry_start (h : root.entry base = some none) (p : Path) :
    root.entry (start base p) = some none := by
  unfold start
  split_ifs
  · rfl
  · exact h

theorem resolve_of_valid (h : p.Valid) :
    root.resolve base p = root.follow (start base p) p.segments := by
  unfold resolve
  rw [if_neg h.noNul, if_neg (by simp [h.fits]), if_neg h.ne_nil]
  rfl

/-- Paths that cannot be followed are refused without a look at the tree. -/
theorem exists_fault_of_not_valid (h : ¬ p.Valid) (base : List Bytes) :
    ∃ fault, ∀ root : Directory α, root.resolve base p = .error fault := by
  by_cases hnul : 0 ∈ p.bytes
  · exact ⟨.nulInName, fun root => by rw [resolve, if_pos hnul]⟩
  by_cases hfits : (!fitsPath p) = true
  · exact ⟨.nameTooLong, fun root => by rw [resolve, if_neg hnul, if_pos hfits]⟩
  by_cases hempty : p.bytes = []
  · exact ⟨.missing, fun root => by rw [resolve, if_neg hnul, if_neg hfits, if_pos hempty]⟩
  · exact absurd ⟨hnul, by simpa using hfits, hempty⟩ h

theorem resolve_eq_ok {spot : Spot α} :
    root.resolve base p = .ok spot ↔ p.Valid ∧ Follows root (start base p) p.segments spot := by
  by_cases hvalid : p.Valid
  · rw [resolve_of_valid hvalid, follow_eq_ok]
    exact (and_iff_right hvalid).symm
  · obtain ⟨fault, hfault⟩ := exists_fault_of_not_valid (α := α) hvalid base
    simp [hfault root, hvalid]

/-- The location that a path leads to, whether something stands there or not. -/
def place? (root : Directory α) (base : List Bytes) (p : Path) : Option (List Bytes) :=
  (root.resolve base p).toOption.map Spot.place

theorem place?_eq_some {place : List Bytes} :
    root.place? base p = some place ↔
      ∃ spot, root.resolve base p = .ok spot ∧ spot.place = place := by
  unfold place?
  cases root.resolve base p <;> simp [Except.toOption]

theorem isDirectory_iff :
    root.isDirectory base p = true ↔
      ∃ location inner, root.resolve base p = .ok (.folder location inner) := by
  unfold isDirectory
  cases hspot : root.resolve base p with
  | error fault => simp
  | ok spot => cases spot <;> simp

theorem node_eq_folder {inner : Directory α} :
    root.node base p = .ok (.folder inner) ↔
      ∃ location, root.resolve base p = .ok (.folder location inner) := by
  unfold node
  cases hspot : root.resolve base p with
  | error fault => simp
  | ok spot =>
    cases spot with
    | folder | absent => simp
    | file parent name content slash => cases slash <;> simp

theorem node_eq_file {content : α} :
    root.node base p = .ok (.file content) ↔
      ∃ parent name, root.resolve base p = .ok (.file parent name content false) := by
  unfold node
  cases hspot : root.resolve base p with
  | error fault => simp
  | ok spot =>
    cases spot with
    | folder | absent => simp
    | file parent name content' slash => cases slash <;> simp

theorem read_eq_ok {content : α} :
    root.read base p = .ok content ↔
      ∃ parent name, root.resolve base p = .ok (.file parent name content false) := by
  rw [← node_eq_file]
  unfold read
  cases hnode : root.node base p with
  | error fault => simp
  | ok node => cases node <;> simp

theorem write_of_names {spot : Spot α} {parent : List Bytes} {name : Bytes}
    (hresolve : root.resolve base p = .ok spot) (hspot : spot.Names parent name)
    (hfits : fitsName name = true) (content : α) :
    root.write base p content = .ok (root.modifyAt (put name (.file content)) parent) := by
  unfold write
  cases hspot with
  | file => simp only [hresolve]
  | absent => simp only [hresolve, if_pos hfits]

theorem write_of_isDirectory (h : root.isDirectory base p = true) (content : α) :
    root.write base p content = .error .isDirectory := by
  obtain ⟨location, inner, hresolve⟩ := isDirectory_iff.mp h
  simp only [write, hresolve]

theorem makeDirectory_of_isDirectory (h : root.isDirectory base p = true) :
    root.makeDirectory base p = .error .alreadyExists := by
  obtain ⟨location, inner, hresolve⟩ := isDirectory_iff.mp h
  simp only [makeDirectory, hresolve]

/-- A file is written only where one can stand. -/
theorem exists_names_of_write {content : α} (h : root.write base p content = .ok root') :
    ∃ spot parent name, root.resolve base p = .ok spot ∧ spot.Names parent name ∧
      fitsName name = true := by
  unfold write at h
  cases hresolve : root.resolve base p with
  | error fault => simp [hresolve] at h
  | ok spot =>
    simp only [hresolve] at h
    cases spot with
    | folder => cases h
    | file parent name old slash =>
      cases slash with
      | true => cases h
      | false =>
        obtain ⟨-, hheld⟩ := (resolve_eq_ok.mp hresolve).2.stands
        exact ⟨_, parent, name, rfl, .file old, (held_eq_some.mp hheld).1⟩
    | absent parent name slash =>
      cases slash with
      | true => cases h
      | false =>
        simp only at h
        split_ifs at h with hfits
        exact ⟨_, parent, name, rfl, .absent, hfits⟩

section
variable (hbase : root.entry base = some none)
include hbase

/-- Where a file can stand, a directory holds it, and no other one has its place. -/
theorem entry_of_names {spot : Spot α} {parent : List Bytes} {name : Bytes}
    (hresolve : root.resolve base p = .ok spot) (hspot : spot.Names parent name)
    (hfits : fitsName name = true) :
    root.entry parent = some none ∧ root.entry (parent ++ [name]) ≠ some none := by
  obtain ⟨-, hfollows⟩ := resolve_eq_ok.mp hresolve
  obtain ⟨init, inner, -, hinit⟩ := hfollows.split hspot (entry_start hbase p)
  refine ⟨entry_eq_folder.mpr ⟨inner, hinit.stands⟩, fun hfolder => ?_⟩
  obtain ⟨d, hd⟩ := entry_eq_folder.mp hfolder
  have hheld := held_eq_some.mpr ⟨hfits, hd⟩
  have hstands := hfollows.stands
  cases hspot with
  | file | absent =>
    rw [hstands.2] at hheld
    cases hheld

/-- A path that a file can have gives what stands in that place in another tree with the
same directories. -/
theorem read_of_entry {spot : Spot α} {parent : List Bytes} {name : Bytes}
    (hresolve : root.resolve base p = .ok spot) (hspot : spot.Names parent name)
    (hfits : fitsName name = true) (hsame : SameFolders root root') {content : α}
    (hentry : root'.entry (parent ++ [name]) = some (some content)) :
    root'.read base p = .ok content := by
  obtain ⟨hvalid, hfollows⟩ := resolve_eq_ok.mp hresolve
  have hfile := hfollows.of_entry hspot (entry_start hbase p) hfits hsame hentry
  exact read_eq_ok.mpr ⟨parent, name, resolve_eq_ok.mpr ⟨hvalid, hfile⟩⟩

variable {content : α} (hwrite : root.write base p content = .ok root')
include hwrite

/-- To write a file is to change the entry at its place. -/
theorem entry_of_write :
    ∃ place, root.place? base p = some place ∧ root.entry place ≠ some none ∧
      root'.entry = Function.update root.entry place (some (some content)) := by
  obtain ⟨spot, parent, name, hresolve, hspot, hfits⟩ := exists_names_of_write hwrite
  obtain ⟨hparent, hentry⟩ := entry_of_names hbase hresolve hspot hfits
  rw [write_of_names hresolve hspot hfits] at hwrite
  cases hwrite
  have hplace : spot.place = parent ++ [name] := by
    cases hspot <;> rfl
  exact ⟨parent ++ [name], place?_eq_some.mpr ⟨spot, hresolve, hplace⟩, hentry,
    entry_modifyAt hparent hentry content⟩

theorem sameFolders_of_write : SameFolders root root' := by
  obtain ⟨place, -, hplace, hentry⟩ := entry_of_write hbase hwrite
  intro location
  rw [hentry]
  by_cases hlocation : location = place
  · subst hlocation
    simp [hplace]
  · rw [Function.update_of_ne hlocation]

/-- What is written is read again. -/
theorem read_of_write : root'.read base p = .ok content := by
  obtain ⟨spot, parent, name, hresolve, hspot, hfits⟩ := exists_names_of_write hwrite
  obtain ⟨hparent, hentry⟩ := entry_of_names hbase hresolve hspot hfits
  refine read_of_entry hbase hresolve hspot hfits (sameFolders_of_write hbase hwrite) ?_
  rw [write_of_names hresolve hspot hfits] at hwrite
  cases hwrite
  rw [entry_modifyAt hparent hentry, Function.update_self]

/-- What was read before is read again, unless it has been replaced. -/
theorem read_of_write_of_read {q : Path} {old : α} (hread : root.read base q = .ok old) :
    root'.read base q =
      .ok (if root.place? base q = root.place? base p then content else old) := by
  obtain ⟨parent, name, hresolve⟩ := read_eq_ok.mp hread
  obtain ⟨-, hheld⟩ := (resolve_eq_ok.mp hresolve).2.stands
  obtain ⟨hfits, hlookup⟩ := held_eq_some.mp hheld
  have hq : root.place? base q = some (parent ++ [name]) := place?_eq_some.mpr ⟨_, hresolve, rfl⟩
  obtain ⟨place, hplace, -, hentry⟩ := entry_of_write hbase hwrite
  refine read_of_entry hbase hresolve (.file old) hfits (sameFolders_of_write hbase hwrite) ?_
  rw [hentry, hq, hplace]
  split_ifs with heq
  · rw [Option.some_inj.mp heq, Function.update_self]
  · rw [Function.update_of_ne (fun h => heq (congrArg some h))]
    exact entry_eq_file.mpr hlookup

end

theorem SameFolders.symm (h : SameFolders root root') : SameFolders root' root :=
  fun location => (h location).symm

theorem SameFolders.resolve (hsame : SameFolders root root') {spot : Spot α}
    (h : root.resolve base p = .ok spot) :
    ∃ spot', root'.resolve base p = .ok spot' ∧ spot'.place = spot.place ∧
      spot'.isFolder = spot.isFolder := by
  obtain ⟨hvalid, hfollows⟩ := resolve_eq_ok.mp h
  obtain ⟨spot', hfollows', hspot⟩ := hfollows.congr hsame
  exact ⟨spot', resolve_eq_ok.mpr ⟨hvalid, hfollows'⟩, hspot⟩

theorem place?_congr (hsame : SameFolders root root') (base : List Bytes) (p : Path) :
    root'.place? base p = root.place? base p := by
  have hleads {tree tree' : Directory α} (hsame : SameFolders tree tree') {place : List Bytes}
      (h : tree.place? base p = some place) : tree'.place? base p = some place := by
    obtain ⟨spot, hspot, rfl⟩ := place?_eq_some.mp h
    obtain ⟨spot', hspot', hplace, -⟩ := hsame.resolve hspot
    exact place?_eq_some.mpr ⟨spot', hspot', hplace⟩
  exact Option.ext fun place => ⟨hleads hsame.symm, hleads hsame⟩

theorem isDirectory_congr (hsame : SameFolders root root') (base : List Bytes) (p : Path) :
    root'.isDirectory base p = root.isDirectory base p := by
  have hleads {tree tree' : Directory α} (hsame : SameFolders tree tree')
      (h : tree.isDirectory base p = true) : tree'.isDirectory base p = true := by
    obtain ⟨location, inner, hspot⟩ := isDirectory_iff.mp h
    obtain ⟨spot', hspot', -, hfolder⟩ := hsame.resolve hspot
    cases spot' with
    | folder location' inner' => exact isDirectory_iff.mpr ⟨location', inner', hspot'⟩
    | file | absent => cases hfolder
  exact Bool.eq_iff_iff.mpr ⟨hleads hsame.symm, hleads hsame⟩

end Directory

end Scriptwright
