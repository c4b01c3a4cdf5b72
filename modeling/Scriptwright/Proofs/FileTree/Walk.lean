import Scriptwright.Proofs.FileTree

/-!
# Walking through a directory

In a directory whose entries have proper names, each its own, the path of every file that
is met on a walk leads to that file again.
-/

namespace Scriptwright
variable {α : Type}

/-- What an entry of a directory can be called. -/
def isName (name : Bytes) : Bool :=
  !Path.stays name && name != Path.up && fitsName name &&
    name.all fun b => b != Path.slash && b != 0

theorem named_of_isName {name : Bytes} (h : isName name = true) :
    Path.Named name ∧ fitsName name = true := by
  simp only [isName, Bool.and_eq_true, Bool.not_eq_true', bne_iff_ne] at h
  exact ⟨⟨h.1.1.1, h.1.1.2⟩, h.1.2⟩

namespace Directory

def entries : Directory α → List (Bytes × Node α)
  | empty => []
  | file name content others => (name, .file content) :: others.entries
  | folder name inner others => (name, .folder inner) :: others.entries

/-- All names, those of inner directories too, can be names, and none is given twice. -/
def isProper : Directory α → Bool
  | empty => true
  | file name _ others => isName name && (others.find? name).isNone && others.isProper
  | folder name inner others =>
    isName name && (others.find? name).isNone && inner.isProper && others.isProper

theorem find?_of_mem_entries {d : Directory α} (h : d.isProper = true) {name : Bytes}
    {node : Node α} (hmem : (name, node) ∈ d.entries) :
    isName name = true ∧ d.find? name = some node := by
  induction d with
  | empty => cases hmem
  | file other _ others ih | folder other _ others _ ih =>
    obtain ⟨hother, hnone, hothers⟩ :
        isName other = true ∧ others.find? other = none ∧ others.isProper = true := by
      simp_all [isProper]
    cases hmem with
    | head => exact ⟨hother, by simp [find?]⟩
    | tail _ hmem =>
      obtain ⟨hname, hfound⟩ := ih hothers hmem
      have hne : other ≠ name := by
        rintro rfl
        rw [hnone] at hfound
        cases hfound
      exact ⟨hname, by rw [find?, if_neg hne, hfound]⟩

theorem mem_entries_of_find? {d : Directory α} {name : Bytes} {node : Node α}
    (h : d.find? name = some node) : (name, node) ∈ d.entries := by
  induction d with
  | empty => cases h
  | file other _ others ih | folder other _ others _ ih =>
    rw [find?] at h
    split_ifs at h with hother
    · cases h
      subst hother
      exact List.mem_cons_self
    · exact List.mem_cons_of_mem _ (ih h)

theorem isProper_of_mem_entries {d : Directory α} (h : d.isProper = true) {name : Bytes}
    {inner : Directory α} (hmem : (name, .folder inner) ∈ d.entries) : inner.isProper = true := by
  induction d with
  | empty => cases hmem
  | file other content others ih =>
    simp only [isProper, Bool.and_eq_true] at h
    cases hmem with
    | tail _ hmem => exact ih h.2 hmem
  | folder other inner' others _ ih =>
    simp only [isProper, Bool.and_eq_true] at h
    cases hmem with
    | head => exact h.1.2
    | tail _ hmem => exact ih h.2 hmem

/-- The entries that are met below the directory at `p`. -/
inductive Visited : Path → Directory α → Visit → Prop
  | file {p : Path} {d : Directory α} {name : Bytes} {content : α}
      (h : (name, .file content) ∈ d.entries) : Visited p d ⟨p.child name, true⟩
  | folder {p : Path} {d : Directory α} {name : Bytes} {inner : Directory α}
      (h : (name, .folder inner) ∈ d.entries) : Visited p d ⟨p.child name, false⟩
  | inside {p : Path} {d : Directory α} {name : Bytes} {inner : Directory α} {v : Visit}
      (h : (name, .folder inner) ∈ d.entries) (hv : Visited (p.child name) inner v) :
      Visited p d v

theorem Visited.mono {p : Path} {d d' : Directory α} {v : Visit} (h : Visited p d v)
    (hsub : d.entries ⊆ d'.entries) : Visited p d' v := by
  cases h with
  | file h => exact .file (hsub h)
  | folder h => exact .folder (hsub h)
  | inside h hv => exact .inside (hsub h) hv

theorem mem_byName {β : Type} {entries : List (Bytes × List β)} {x : β} :
    x ∈ byName entries ↔ ∃ e ∈ entries, x ∈ e.2 := by
  simp only [byName, List.mem_flatMap, List.mem_mergeSort]

theorem visited_of_mem_visits {p : Path} {d : Directory α} {v : Visit} (h : v ∈ d.visits p) :
    Visited p d v := by
  obtain ⟨e, he, hv⟩ := mem_byName.mp h
  clear h
  -- the entries are met one after the other, and each directory as it is met
  induction d generalizing p v e with
  | empty => cases he
  | file name content others ih =>
    cases he with
    | head =>
      rw [List.mem_singleton.mp hv]
      exact .file List.mem_cons_self
    | tail _ he => exact (ih e he hv).mono (List.subset_cons_self _ _)
  | folder name inner others ihinner ih =>
    cases he with
    | head =>
      cases hv with
      | head => exact .folder List.mem_cons_self
      | tail _ hv =>
        obtain ⟨e, he, hv⟩ := mem_byName.mp hv
        exact .inside List.mem_cons_self (ihinner e he hv)
    | tail _ he => exact (ih e he hv).mono (List.subset_cons_self _ _)

/-- An outline has the entries of the directory, whose inner directories may be left out. -/
theorem mem_entries_of_outline {deep : Bool} {d : Directory α} {name : Bytes} {node : Node Unit}
    (h : (name, node) ∈ (d.outline deep).entries) :
    (node = .file () ∧ ∃ content, (name, .file content) ∈ d.entries) ∨
      ∃ inner, (name, .folder inner) ∈ d.entries ∧
        node = .folder (if deep then inner.outline deep else empty) := by
  induction d with
  | empty => cases h
  | file other content others ih =>
    cases h with
    | head => exact .inl ⟨rfl, content, List.mem_cons_self⟩
    | tail _ h =>
      exact (ih h).imp (And.imp_right (Exists.imp fun _ => List.mem_cons_of_mem _))
        (Exists.imp fun _ => And.imp_left (List.mem_cons_of_mem _))
  | folder other inner others _ ih =>
    cases h with
    | head => exact .inr ⟨inner, List.mem_cons_self, rfl⟩
    | tail _ h =>
      exact (ih h).imp (And.imp_right (Exists.imp fun _ => List.mem_cons_of_mem _))
        (Exists.imp fun _ => And.imp_left (List.mem_cons_of_mem _))

theorem Visited.of_outline {deep : Bool} {p : Path} {d : Directory α} {v : Visit}
    (h : Visited p (d.outline deep) v) : Visited p d v := by
  generalize houtline : d.outline deep = outlined at h
  induction h generalizing d with
  | file h =>
    subst houtline
    rcases mem_entries_of_outline h with ⟨-, content, hmem⟩ | ⟨inner, -, hnode⟩
    · exact .file hmem
    · cases hnode
  | folder h =>
    subst houtline
    rcases mem_entries_of_outline h with ⟨hnode, -⟩ | ⟨inner, hmem, -⟩
    · cases hnode
    · exact .folder hmem
  | inside h hv ih =>
    subst houtline
    rcases mem_entries_of_outline h with ⟨hnode, -⟩ | ⟨inner, hmem, hnode⟩
    · cases hnode
    · cases hnode
      cases deep with
      | true => exact .inside hmem (ih rfl)
      | false =>
        cases hv with
        | file h | folder h | inside h => cases h

section
variable {root d : Directory α} {base location : List Bytes} {p : Path} (hp : p.bytes ≠ [])
  (hfollows : Follows root (start base p) p.segments (.folder location d))
include hp hfollows

/-- The path of an entry leads to the directory before its name. -/
theorem follows_child (name : Bytes) :
    ∃ init, p.child name = ⟨init ++ [name]⟩ ∧
      Follows root (start base (p.child name)) init (.folder location d) := by
  obtain ⟨segments⟩ := p
  have hsegments : segments ≠ [] := by
    rintro rfl
    exact hp rfl
  unfold Path.child
  split_ifs with hlast
  · obtain ⟨init, rfl⟩ := List.getLast?_eq_some_iff.mp hlast
    have hinit : init ≠ [] := by
      rintro rfl
      exact hp rfl
    refine ⟨init, by rw [List.dropLast_concat], ?_⟩
    rw [List.dropLast_concat, start_append hinit]
    rw [start_append hinit] at hfollows
    exact .of_append_stays (List.forall_mem_singleton.mpr rfl) hfollows
  · exact ⟨segments, rfl, by rwa [start_append hsegments]⟩

theorem Visited.follows {v : Visit} (h : Visited p d v) (hproper : d.isProper = true)
    (hfile : v.isFile = true) :
    ∃ parent name content,
      Follows root (start base v.path) v.path.segments (.file parent name content false) := by
  induction h generalizing location with
  | @file p d name content h =>
    obtain ⟨hname, hfound⟩ := find?_of_mem_entries hproper h
    obtain ⟨hnamed, hfits⟩ := named_of_isName hname
    obtain ⟨init, hchild, hinit⟩ := follows_child hp hfollows name
    have hheld : root.held location name = some (.file content) := by
      refine held_eq_some.mpr ⟨hfits, ?_⟩
      rw [lookup_append hinit.stands, lookup_singleton, hfound]
    have hlast : Follows root location [name] (.file location name content false) :=
      .file hnamed hheld rfl
    refine ⟨location, name, content, ?_⟩
    rw [hchild] at hinit ⊢
    exact hinit.append hlast
  | folder => cases hfile
  | @inside p d name inner v h _ ih =>
    obtain ⟨hname, hfound⟩ := find?_of_mem_entries hproper h
    obtain ⟨hnamed, hfits⟩ := named_of_isName hname
    obtain ⟨init, hchild, hinit⟩ := follows_child hp hfollows name
    have hlookup : root.lookup (location ++ [name]) = some (.folder inner) := by
      rw [lookup_append hinit.stands, lookup_singleton, hfound]
    have hinner : Follows root location [name] (.folder (location ++ [name]) inner) :=
      .enter hnamed (held_eq_some.mpr ⟨hfits, hlookup⟩) (.done hlookup)
    rw [hchild] at hinit ih
    exact ih (Path.bytes_ne_nil init hnamed.ne_nil) (hinit.append hinner)
      (isProper_of_mem_entries hproper h) hfile

end

/-- The path of a file that is met leads to it. -/
theorem follows_of_mem_files {root d : Directory α} {base location : List Bytes} {p : Path}
    (hresolve : root.resolve base p = .ok (.folder location d)) (hproper : d.isProper = true)
    {deep : Bool} {q : Path} (h : q ∈ (d.outline deep).files p) :
    ∃ parent name content,
      Follows root (start base q) q.segments (.file parent name content false) := by
  obtain ⟨v, hv, rfl⟩ := List.mem_map.mp h
  obtain ⟨hv, hfile⟩ := List.mem_filter.mp hv
  obtain ⟨hvalid, hfollows⟩ := resolve_eq_ok.mp hresolve
  exact (visited_of_mem_visits hv).of_outline.follows hvalid.ne_nil hfollows hproper hfile

theorem isProper_of_lookup {root d : Directory α} (h : root.isProper = true)
    {location : List Bytes} (hlookup : root.lookup location = some (.folder d)) :
    d.isProper = true := by
  induction location generalizing root with
  | nil =>
    cases hlookup
    exact h
  | cons name location ih =>
    obtain ⟨inner, hinner⟩ := exists_folder_of_lookup hlookup (.inr ⟨d, rfl⟩)
    rw [lookup_cons_of_folder hinner] at hlookup
    exact ih (isProper_of_mem_entries h (mem_entries_of_find? hinner)) hlookup

end Directory

end Scriptwright
