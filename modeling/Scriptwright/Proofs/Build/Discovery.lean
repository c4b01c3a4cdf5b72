import Scriptwright.Proofs.Build
import Scriptwright.Proofs.Path.Order

/-!
# The sources that are found

A walk goes through a directory depth first and takes the entries of each directory by name. So
it meets every entry once, in the order of paths. That order depends only on what stands where,
not on how directories list their entries, and what lies directly in the directory is met in
the same order without the rest.
-/

namespace Scriptwright
variable {α : Type}

/-- What is met at a node that has the path `p`. -/
def Node.visits (p : Path) : Node α → List Visit
  | .file _ => [⟨p, true⟩]
  | .folder inner => ⟨p, false⟩ :: inner.visits p

section
variable {β : Type} {R : β → β → Prop} (hasymm : ∀ a b, R a b → ¬ R b a)
include hasymm

theorem nodup_of_pairwise_asymm {xs : List β} (h : xs.Pairwise R) : xs.Nodup := by
  apply h.imp
  intro a b hab heq
  subst heq
  exact hasymm a a hab hab

/-- Two lists in strict order that have the same members are the same. -/
theorem eq_of_pairwise_of_mem_iff {xs ys : List β} (hxs : xs.Pairwise R) (hys : ys.Pairwise R)
    (h : ∀ a, a ∈ xs ↔ a ∈ ys) : xs = ys := by
  have hperm := (List.perm_ext_iff_of_nodup (nodup_of_pairwise_asymm hasymm hxs)
    (nodup_of_pairwise_asymm hasymm hys)).mpr h
  exact hperm.eq_of_pairwise (fun a b _ _ hab hba => absurd hba (hasymm a b hab)) hxs hys

end

/-- The path `q` is that of an entry of the directory `p`: it has one component more. -/
def Path.holds (p q : Path) : Bool := q.components.dropLast == p.components

namespace Directory

theorem visitsByEntry_eq_map (p : Path) (d : Directory α) :
    d.visitsByEntry p = d.entries.map fun e => (e.1, e.2.visits (p.child e.1)) := by
  induction d with
  | empty => rfl
  | file name content others ih | folder name inner others _ ih =>
    rw [visitsByEntry, entries, List.map_cons, ih]
    rfl

theorem mem_visits_of_mem_entries {p : Path} {d : Directory α} {name : Bytes} {node : Node α}
    (h : (name, node) ∈ d.entries) : node.visits (p.child name) ⊆ d.visits p := by
  intro v hv
  rw [visits, visitsByEntry_eq_map, mem_byName]
  exact ⟨_, List.mem_map_of_mem h, hv⟩

theorem isName_of_entry {d : Directory α} (hproper : d.isProper = true) {names : List Bytes}
    {content : Option α} (h : d.entry names = some content) :
    ∀ name ∈ names, isName name = true := by
  induction names generalizing d with
  | nil => exact List.forall_mem_nil _
  | cons name names ih =>
    obtain ⟨node, hlookup, -⟩ := Option.map_eq_some_iff.mp h
    rw [List.forall_mem_cons]
    cases names with
    | nil =>
      rw [lookup_singleton] at hlookup
      exact ⟨(find?_of_mem_entries hproper (mem_entries_of_find? hlookup)).1,
        List.forall_mem_nil _⟩
    | cons next names =>
      obtain ⟨inner, hinner⟩ := exists_folder_of_lookup hlookup (.inl (List.cons_ne_nil _ _))
      have hmem := mem_entries_of_find? hinner
      rw [entry, lookup_cons_of_folder hinner] at h
      exact ⟨(find?_of_mem_entries hproper hmem).1, ih (isProper_of_mem_entries hproper hmem) h⟩

/-- A walk meets what stands at some location below the directory. -/
theorem mem_visits_iff {d : Directory α} (hproper : d.isProper = true) {p : Path} {v : Visit} :
    v ∈ d.visits p ↔ ∃ names content, names ≠ [] ∧ d.entry names = some content ∧
      v = ⟨p.below names, content.isSome⟩ := by
  constructor
  · intro h
    have hvisited := visited_of_mem_visits h
    clear h
    induction hvisited with
    | @file p d name content h =>
      obtain ⟨-, hfound⟩ := find?_of_mem_entries hproper h
      refine ⟨[name], some content, List.cons_ne_nil _ _, ?_, rfl⟩
      rw [entry, lookup_singleton, hfound]
      rfl
    | @folder p d name inner h =>
      obtain ⟨-, hfound⟩ := find?_of_mem_entries hproper h
      refine ⟨[name], none, List.cons_ne_nil _ _, ?_, rfl⟩
      rw [entry, lookup_singleton, hfound]
      rfl
    | @inside p d name inner v h _ ih =>
      obtain ⟨-, hfound⟩ := find?_of_mem_entries hproper h
      obtain ⟨names, content, -, hentry, hv⟩ := ih (isProper_of_mem_entries hproper h)
      refine ⟨name :: names, content, List.cons_ne_nil _ _, ?_, hv⟩
      rw [entry, lookup_cons_of_folder hfound]
      exact hentry
  · rintro ⟨names, content, hne, hentry, rfl⟩
    induction names generalizing d p with
    | nil => exact absurd rfl hne
    | cons name names ih =>
      obtain ⟨node, hlookup, rfl⟩ := Option.map_eq_some_iff.mp hentry
      cases names with
      | nil =>
        rw [lookup_singleton] at hlookup
        have hmem := mem_entries_of_find? hlookup
        apply mem_visits_of_mem_entries hmem
        cases node with
        | file | folder => exact List.mem_cons_self
      | cons next names =>
        obtain ⟨inner, hinner⟩ := exists_folder_of_lookup hlookup (.inl (List.cons_ne_nil _ _))
        have hmem := mem_entries_of_find? hinner
        rw [lookup_cons_of_folder hinner] at hlookup
        apply mem_visits_of_mem_entries hmem
        apply List.mem_cons_of_mem
        apply ih (isProper_of_mem_entries hproper hmem) (List.cons_ne_nil _ _)
        rw [entry, hlookup]
        rfl

/-- Below a directory there are only paths that go on from its own. -/
theorem exists_components_of_mem_visits {d : Directory α} (hproper : d.isProper = true) {p : Path}
    (hp : p.bytes ≠ []) {v : Visit} (h : v ∈ d.visits p) :
    ∃ c cs, v.path.components = p.components ++ c :: cs := by
  obtain ⟨names, content, hne, hentry, rfl⟩ := (mem_visits_iff hproper).mp h
  cases names with
  | nil => exact absurd rfl hne
  | cons name names =>
    exact ⟨_, _, Path.components_below hp (isName_of_entry hproper hentry)⟩

theorem exists_components_of_mem_node {d : Directory α} (hproper : d.isProper = true) {p : Path}
    (hp : p.bytes ≠ []) {name : Bytes} {node : Node α} (hmem : (name, node) ∈ d.entries)
    {v : Visit} (h : v ∈ node.visits (p.child name)) :
    ∃ cs, v.path.components = p.components ++ .name name :: cs := by
  have hname := (find?_of_mem_entries hproper hmem).1
  have hchild := Path.components_child hp hname
  cases node with
  | file content =>
    rw [List.mem_singleton.mp h]
    exact ⟨[], hchild⟩
  | folder inner =>
    cases h with
    | head => exact ⟨[], hchild⟩
    | tail _ h =>
      obtain ⟨c, cs, hcs⟩ := exists_components_of_mem_visits (isProper_of_mem_entries hproper hmem)
        (p.bytes_child_ne_nil hname) h
      rw [hchild, List.append_assoc] at hcs
      exact ⟨c :: cs, hcs⟩

theorem nodup_names {d : Directory α} (hproper : d.isProper = true) :
    (d.entries.map (·.1)).Nodup := by
  induction d with
  | empty => exact List.nodup_nil
  | file name _ others ih | folder name _ others _ ih =>
    obtain ⟨hnone, hothers⟩ : others.find? name = none ∧ others.isProper = true := by
      simp_all [isProper]
    rw [entries, List.map_cons]
    apply List.nodup_cons.mpr
    constructor
    · intro hmem
      obtain ⟨e, he, rfl⟩ := List.mem_map.mp hmem
      rw [(find?_of_mem_entries hothers he).2] at hnone
      cases hnone
    · exact ih hothers

/-- No two entries have one name, so they are visited in the strict order of their names. -/
theorem pairwise_sorted_names {β : Type} {entries : List (Bytes × List β)}
    (h : (entries.map (·.1)).Nodup) :
    (entries.mergeSort fun a b => decide (a.1 ≤ b.1)).Pairwise fun a b => a.1 < b.1 := by
  have hperm := List.mergeSort_perm entries fun a b => decide (a.1 ≤ b.1)
  have hnodup := (hperm.map (·.1)).nodup_iff.mpr h
  have hsorted : (entries.mergeSort fun a b => decide (a.1 ≤ b.1)).Pairwise
      fun a b => decide (a.1 ≤ b.1) = true := by
    apply List.pairwise_mergeSort
    · intro a b c hab hbc
      exact decide_eq_true (List.le_trans (of_decide_eq_true hab) (of_decide_eq_true hbc))
    · intro a b
      simpa using List.le_total a.1 b.1
  apply hsorted.imp₂ _ (List.pairwise_map.mp hnodup)
  intro a b hle hne
  apply List.not_le.mp
  intro hge
  exact hne (List.le_antisymm (of_decide_eq_true hle) hge)

theorem lex_append_left {β : Type} {R : β → β → Prop} (front : List β) {xs ys : List β}
    (h : List.Lex R xs ys) : List.Lex R (front ++ xs) (front ++ ys) := by
  induction front with
  | nil => exact h
  | cons a front ih => exact .cons ih

theorem pairwise_visits_of_nodes {d : Directory α} (hproper : d.isProper = true) {p : Path}
    (hp : p.bytes ≠ []) (hnodes : ∀ name node, (name, node) ∈ d.entries →
      (node.visits (p.child name)).Pairwise fun v w => v.path.Before w.path) :
    (d.visits p).Pairwise fun v w => v.path.Before w.path := by
  have hnames : ((d.visitsByEntry p).map (·.1)).Nodup := by
    rw [visitsByEntry_eq_map, List.map_map]
    exact nodup_names hproper
  have hmem {e : Bytes × List Visit}
      (he : e ∈ (d.visitsByEntry p).mergeSort fun a b => decide (a.1 ≤ b.1)) :
      ∃ node, (e.1, node) ∈ d.entries ∧ e.2 = node.visits (p.child e.1) := by
    rw [List.mem_mergeSort, visitsByEntry_eq_map] at he
    obtain ⟨⟨name, node⟩, hentry, rfl⟩ := List.mem_map.mp he
    exact ⟨node, hentry, rfl⟩
  rw [visits, byName, List.pairwise_flatMap]
  constructor
  · intro e he
    obtain ⟨node, hentry, hvisits⟩ := hmem he
    rw [hvisits]
    exact hnodes e.1 node hentry
  · apply (pairwise_sorted_names hnames).imp_of_mem
    intro a b ha hb hlt v hv w hw
    obtain ⟨node, hentry, hvisits⟩ := hmem ha
    obtain ⟨node', hentry', hvisits'⟩ := hmem hb
    rw [hvisits] at hv
    rw [hvisits'] at hw
    obtain ⟨cs, hcs⟩ := exists_components_of_mem_node hproper hp hentry hv
    obtain ⟨ds, hds⟩ := exists_components_of_mem_node hproper hp hentry' hw
    rw [Path.Before, hcs, hds]
    apply lex_append_left
    exact .rel (Path.Component.Before.bytes hlt)

theorem pairwise_node_visits {d : Directory α} (hproper : d.isProper = true) {name : Bytes}
    {node : Node α} (hmem : (name, node) ∈ d.entries) {p : Path} (hp : p.bytes ≠ []) :
    (node.visits p).Pairwise fun v w => v.path.Before w.path := by
  induction d generalizing name node p with
  | empty => cases hmem
  | file other content others ih =>
    cases hmem with
    | head => exact List.pairwise_singleton _ _
    | tail _ hmem =>
      simp only [isProper, Bool.and_eq_true] at hproper
      exact ih hproper.2 hmem hp
  | folder other inner others ihinner ih =>
    simp only [isProper, Bool.and_eq_true] at hproper
    cases hmem with
    | tail _ hmem => exact ih hproper.2 hmem hp
    | head =>
      have hinner : inner.isProper = true := hproper.1.2
      apply List.Pairwise.cons
      · intro v hv
        obtain ⟨c, cs, hcs⟩ := exists_components_of_mem_visits hinner hp hv
        rw [Path.Before, hcs]
        simpa using lex_append_left (R := Path.Component.Before) p.components List.Lex.nil
      · apply pairwise_visits_of_nodes hinner hp
        intro name node hnode
        have hname := (find?_of_mem_entries hinner hnode).1
        exact ihinner hinner hnode (p.bytes_child_ne_nil hname)

/-- Every path on a walk comes before all that are met later. -/
theorem pairwise_visits {d : Directory α} (hproper : d.isProper = true) {p : Path}
    (hp : p.bytes ≠ []) : (d.visits p).Pairwise fun v w => v.path.Before w.path := by
  apply pairwise_visits_of_nodes hproper hp
  intro name node hmem
  have hname := (find?_of_mem_entries hproper hmem).1
  exact pairwise_node_visits hproper hmem (p.bytes_child_ne_nil hname)

/-- What a walk meets depends only on what stands where. -/
theorem visits_congr {d d' : Directory α} (hproper : d.isProper = true)
    (hproper' : d'.isProper = true) (h : ∀ names, d'.entry names = d.entry names) {p : Path}
    (hp : p.bytes ≠ []) : d'.visits p = d.visits p := by
  apply eq_of_pairwise_of_mem_iff (fun _ _ => Path.Before.asymm) (pairwise_visits hproper' hp)
    (pairwise_visits hproper hp)
  intro v
  rw [mem_visits_iff hproper', mem_visits_iff hproper]
  simp only [h]

theorem visits_outline_deep (p : Path) (d : Directory α) :
    (d.outline true).visits p = d.visits p := by
  have hentries : (d.outline true).visitsByEntry p = d.visitsByEntry p := by
    induction d generalizing p with
    | empty => rfl
    | file name content others ih => rw [outline, visitsByEntry, visitsByEntry, ih]
    | folder name inner others ihinner ih =>
      rw [outline, if_pos rfl, visitsByEntry, visitsByEntry, ih, ihinner]
  rw [visits, visits, hentries]

theorem isNone_find?_outline (deep : Bool) (d : Directory α) (name : Bytes) :
    ((d.outline deep).find? name).isNone = (d.find? name).isNone := by
  induction d with
  | empty => rfl
  | file other _ others ih | folder other _ others _ ih =>
    by_cases hname : other = name
    · simp [outline, find?, hname]
    · simp [outline, find?, hname, ih]

theorem isProper_outline {deep : Bool} {d : Directory α} (h : d.isProper = true) :
    (d.outline deep).isProper = true := by
  induction d with
  | empty => rfl
  | file name content others ih =>
    simp only [isProper, Bool.and_eq_true] at h
    simp only [outline, isProper, Bool.and_eq_true, isNone_find?_outline]
    exact ⟨h.1, ih h.2⟩
  | folder name inner others ihinner ih =>
    simp only [isProper, Bool.and_eq_true] at h
    simp only [outline, isProper, Bool.and_eq_true, isNone_find?_outline]
    refine ⟨⟨h.1.1, ?_⟩, ih h.2⟩
    split_ifs
    · exact ihinner h.1.2
    · rfl

theorem visitsByEntry_outline_shallow (p : Path) (d : Directory α) :
    (d.outline false).visitsByEntry p =
      d.entries.map fun e => (e.1, [⟨p.child e.1, e.2.content?.isSome⟩]) := by
  induction d with
  | empty => rfl
  | file name content others ih =>
    rw [outline, visitsByEntry, entries, List.map_cons, ih]
    rfl
  | folder name inner others _ ih =>
    have hempty : byName ((empty : Directory Unit).visitsByEntry (p.child name)) = [] := by
      simp [visitsByEntry, byName]
    rw [outline, if_neg Bool.false_ne_true, visitsByEntry, entries, List.map_cons, ih, hempty]
    rfl

/-- Without inner directories, a walk meets what stands right in the directory. -/
theorem mem_visits_outline_shallow {d : Directory α} (hproper : d.isProper = true) {p : Path}
    {v : Visit} : v ∈ (d.outline false).visits p ↔ ∃ name content,
      d.entry [name] = some content ∧ v = ⟨p.child name, content.isSome⟩ := by
  rw [visits, visitsByEntry_outline_shallow, mem_byName]
  constructor
  · rintro ⟨e, he, hv⟩
    obtain ⟨⟨name, node⟩, hmem, rfl⟩ := List.mem_map.mp he
    refine ⟨name, node.content?, ?_, List.mem_singleton.mp hv⟩
    rw [entry, lookup_singleton, (find?_of_mem_entries hproper hmem).2]
    rfl
  · rintro ⟨name, content, hentry, rfl⟩
    rw [entry, lookup_singleton] at hentry
    obtain ⟨node, hnode, rfl⟩ := Option.map_eq_some_iff.mp hentry
    exact ⟨_, List.mem_map_of_mem (mem_entries_of_find? hnode), List.mem_singleton_self _⟩

/-- The sources below the directory at `p`. -/
def sources (p : Path) (d : Directory α) : List Path := (d.files p).filter Path.isSource

theorem sources_outline_deep (p : Path) (d : Directory α) :
    (d.outline true).sources p = d.sources p := by
  rw [sources, files, visits_outline_deep, sources, files]

theorem mem_files {d : Directory α} {p q : Path} : q ∈ d.files p ↔ ⟨q, true⟩ ∈ d.visits p := by
  constructor
  · intro h
    obtain ⟨v, hv, rfl⟩ := List.mem_map.mp h
    obtain ⟨hv, hfile⟩ := List.mem_filter.mp hv
    rw [← hfile]
    exact hv
  · intro h
    exact List.mem_map.mpr ⟨_, List.mem_filter.mpr ⟨h, rfl⟩, rfl⟩

section
variable {d : Directory α} (hproper : d.isProper = true) {p : Path}
include hproper

theorem pairwise_sources (hp : p.bytes ≠ []) : (d.sources p).Pairwise Path.Before := by
  have hfiles : (d.files p).Pairwise Path.Before :=
    List.pairwise_map.mpr ((pairwise_visits hproper hp).filter _)
  exact hfiles.filter _

theorem mem_sources {q : Path} : q ∈ d.sources p ↔ ∃ names content,
    d.lookup names = some (.file content) ∧ q = p.below names ∧ q.isSource = true := by
  rw [sources, List.mem_filter, mem_files, mem_visits_iff hproper]
  constructor
  · rintro ⟨⟨names, content, -, hentry, hv⟩, hsource⟩
    obtain ⟨hq, hfile⟩ := Visit.mk.inj hv
    obtain ⟨bytes, rfl⟩ := Option.isSome_iff_exists.mp hfile.symm
    exact ⟨names, bytes, entry_eq_file.mp hentry, hq, hsource⟩
  · rintro ⟨names, content, hlookup, rfl, hsource⟩
    refine ⟨⟨names, some content, ?_, entry_eq_file.mpr hlookup, rfl⟩, hsource⟩
    rintro rfl
    cases hlookup

/-- Locations below a directory have different paths. -/
theorem names_eq_of_below (hp : p.bytes ≠ []) {names names' : List Bytes}
    {content content' : Option α} (h : d.entry names = some content)
    (h' : d.entry names' = some content') (heq : p.below names = p.below names') :
    names = names' := by
  have hcomponents := congrArg Path.components heq
  rw [Path.components_below hp (isName_of_entry hproper h),
    Path.components_below hp (isName_of_entry hproper h')] at hcomponents
  exact List.map_injective_iff.mpr (fun _ _ => Path.Component.name.inj)
    (List.append_cancel_left hcomponents)

theorem not_mem_sources_of_folder (hp : p.bytes ≠ []) {names : List Bytes} {inner : Directory α}
    (h : d.lookup names = some (.folder inner)) : p.below names ∉ d.sources p := by
  intro hmem
  obtain ⟨names', content, hlookup, heq, -⟩ := (mem_sources hproper).mp hmem
  have hentry : d.entry names = some none := entry_eq_folder.mpr ⟨inner, h⟩
  have hsame := names_eq_of_below hproper hp hentry (entry_eq_file.mpr hlookup) heq
  rw [← hsame, h] at hlookup
  cases hlookup

theorem holds_below_iff (hp : p.bytes ≠ []) {names : List Bytes} {content : Option α}
    (h : d.entry names = some content) (hne : names ≠ []) :
    p.holds (p.below names) = true ↔ ∃ name, names = [name] := by
  rw [Path.holds, beq_iff_eq, Path.components_below hp (isName_of_entry hproper h)]
  cases names with
  | nil => exact absurd rfl hne
  | cons name names =>
    rw [List.map_cons, List.dropLast_append_of_ne_nil (List.cons_ne_nil _ _)]
    cases names with
    | nil => simp
    | cons next names => simp

/-- Without inner directories, there are the same sources but for those that lie deeper. -/
theorem sources_outline_shallow (hp : p.bytes ≠ []) :
    (d.outline false).sources p = (d.sources p).filter p.holds := by
  apply eq_of_pairwise_of_mem_iff (fun _ _ => Path.Before.asymm)
    (pairwise_sources (isProper_outline hproper) hp) ((pairwise_sources hproper hp).filter _)
  intro q
  rw [List.mem_filter, mem_sources hproper, sources, List.mem_filter, mem_files,
    mem_visits_outline_shallow hproper]
  constructor
  · rintro ⟨⟨name, content, hentry, hv⟩, hsource⟩
    obtain ⟨rfl, hfile⟩ := Visit.mk.inj hv
    obtain ⟨bytes, rfl⟩ := Option.isSome_iff_exists.mp hfile.symm
    refine ⟨⟨[name], bytes, entry_eq_file.mp hentry, rfl, hsource⟩, ?_⟩
    exact (holds_below_iff hproper hp hentry (List.cons_ne_nil _ _)).mpr ⟨name, rfl⟩
  · rintro ⟨⟨names, content, hlookup, rfl, hsource⟩, hholds⟩
    have hentry := entry_eq_file.mpr hlookup
    have hne : names ≠ [] := by
      rintro rfl
      cases hlookup
    obtain ⟨name, rfl⟩ := (holds_below_iff hproper hp hentry hne).mp hholds
    exact ⟨⟨name, some content, hentry, rfl⟩, hsource⟩

theorem tooDeep?_eq_none (hp : fitsPath p = true) : d.tooDeep? p = none ↔
    ∀ names inner, d.lookup names = some (.folder inner) → fitsPath (p.below names) = true := by
  rw [tooDeep?, Option.map_eq_none_iff, List.find?_eq_none]
  constructor
  · intro h names inner hlookup
    cases names with
    | nil => exact hp
    | cons name names =>
      have hentry := entry_eq_folder.mpr ⟨inner, hlookup⟩
      have hvisit : ⟨p.below (name :: names), false⟩ ∈ d.visits p :=
        (mem_visits_iff hproper).mpr ⟨_, none, List.cons_ne_nil _ _, hentry, rfl⟩
      simpa using h _ hvisit
  · intro h v hv
    obtain ⟨names, content, -, hentry, rfl⟩ := (mem_visits_iff hproper).mp hv
    cases content with
    | some content => simp
    | none =>
      obtain ⟨inner, hlookup⟩ := entry_eq_folder.mp hentry
      simp [h names inner hlookup]

end

/-- In a tree with the same entries, a path leads to a directory with the same entries. -/
theorem exists_node_of_entry {root root' d : Directory α}
    (h : ∀ location, root'.entry location = root.entry location) {base : List Bytes} {p : Path}
    (hnode : root.node base p = .ok (.folder d)) :
    ∃ d', root'.node base p = .ok (.folder d') ∧ ∀ names, d'.entry names = d.entry names := by
  have hsame : SameFolders root root' := fun location => by rw [h]
  obtain ⟨location, hresolve⟩ := node_eq_folder.mp hnode
  obtain ⟨spot, hresolve', hplace, hfolder⟩ := hsame.resolve hresolve
  cases spot with
  | file | absent => cases hfolder
  | folder location' d' =>
    cases hplace
    refine ⟨d', node_eq_folder.mpr ⟨location, hresolve'⟩, ?_⟩
    have hlookup : root.lookup location = some (.folder d) :=
      (resolve_eq_ok.mp hresolve).2.stands
    have hlookup' : root'.lookup location = some (.folder d') :=
      (resolve_eq_ok.mp hresolve').2.stands
    intro names
    have hentry := h (location ++ names)
    rw [entry, entry, lookup_append hlookup, lookup_append hlookup'] at hentry
    exact hentry

end Directory

namespace Build

theorem isProper_of_node {w : World} (hsound : w.Sound) {root : Path} {d : FileTree}
    (h : w.files.node w.base root = .ok (.folder d)) : d.isProper = true ∧ root.Valid := by
  obtain ⟨location, hresolve⟩ := Directory.node_eq_folder.mp h
  obtain ⟨hvalid, hfollows⟩ := Directory.resolve_eq_ok.mp hresolve
  exact ⟨Directory.isProper_of_lookup hsound.proper hfollows.stands, hvalid⟩

/-- A directory is walked through, unless a directory below it lies too deep. -/
theorem run_discover_folder {w : World} {root : Path} {d : FileTree}
    (h : w.files.node w.base root = .ok (.folder d)) (recursive : Bool) :
    w.run (discover root recursive).run =
      ((if recursive then d.tooDeep? root else none).elim
        (.ok ((d.outline recursive).sources root))
        (fun place => .error (.unreadable (.listing place .nameTooLong))), w) := by
  have houtline : w.run (ExceptT.mk (Host.outline (m := StateM World) root recursive)).run =
      (w.outline root recursive, w) := rfl
  have hadapted := World.run_adapt houtline Error.unreadable
  have hfolder : w.outline root recursive = (if recursive then d.tooDeep? root else none).elim
      (.ok (.folder (d.outline recursive))) fun place => .error (.listing place .nameTooLong) := by
    rw [World.outline, h]
    dsimp only
    cases (if recursive then d.tooDeep? root else none) with
    | none => rfl
    | some place => rfl
  rw [hfolder] at hadapted
  cases hplace : (if recursive then d.tooDeep? root else none) with
  | none =>
    rw [hplace] at hadapted
    exact World.run_bind_ok hadapted _
  | some place =>
    rw [hplace] at hadapted
    exact World.run_bind_error hadapted _

/-- What is found does not depend on the order in which directories list their entries. -/
theorem discover_congr {w w' : World} (hsound : w.Sound) (hsound' : w'.Sound)
    (hbase : w'.base = w.base)
    (hentry : ∀ location, w'.files.entry location = w.files.entry location) {root : Path}
    {d : FileTree} (hroot : w.files.node w.base root = .ok (.folder d)) (recursive : Bool) :
    (w'.run (discover root recursive).run).1 = (w.run (discover root recursive).run).1 := by
  obtain ⟨d', hroot', hsame⟩ := Directory.exists_node_of_entry hentry hroot
  rw [← hbase] at hroot'
  obtain ⟨hproper, hvalid⟩ := isProper_of_node hsound hroot
  obtain ⟨hproper', -⟩ := isProper_of_node hsound' hroot'
  have hvisits := Directory.visits_congr hproper hproper' hsame hvalid.ne_nil
  have hdeep : d'.tooDeep? root = d.tooDeep? root := by
    rw [Directory.tooDeep?, hvisits, Directory.tooDeep?]
  have hsources : d'.sources root = d.sources root := by
    rw [Directory.sources, Directory.files, hvisits, Directory.sources, Directory.files]
  have houtline : (d'.outline recursive).sources root = (d.outline recursive).sources root := by
    cases recursive with
    | true => rw [Directory.sources_outline_deep, Directory.sources_outline_deep, hsources]
    | false =>
      rw [Directory.sources_outline_shallow hproper' hvalid.ne_nil,
        Directory.sources_outline_shallow hproper hvalid.ne_nil, hsources]
  rw [run_discover_folder hroot, run_discover_folder hroot', hdeep, houtline]

/-- All sources below a directory are found, and nothing else. -/
theorem discover_lists_sources {w : World} (hsound : w.Sound) {root : Path} {d : FileTree}
    (hroot : w.files.node w.base root = .ok (.folder d)) :
    ∃ sources : List Path,
      (d.tooDeep? root = none → w.run (discover root true).run = (.ok sources, w)) ∧
      (∀ place, d.tooDeep? root = some place → w.run (discover root true).run =
        (.error (.unreadable (.listing place .nameTooLong)), w)) ∧
      (d.tooDeep? root = none ↔ ∀ names inner, d.lookup names = some (.folder inner) →
        fitsPath (root.below names) = true) ∧
      w.run (discover root false).run = (.ok (sources.filter root.holds), w) ∧
      (∀ q, q ∈ sources ↔ ∃ names content, d.lookup names = some (.file content) ∧
        q = root.below names ∧ q.extension? = some (Bytes.ofString "nl")) ∧
      (∀ names inner, d.lookup names = some (.folder inner) → root.below names ∉ sources) ∧
      sources.Pairwise Path.Before ∧ sources.Nodup ∧
      ∀ w' : World, w'.Sound → w'.base = w.base →
        (∀ location, w'.files.entry location = w.files.entry location) →
        ∀ recursive, (w'.run (discover root recursive).run).1 =
          (w.run (discover root recursive).run).1 := by
  obtain ⟨hproper, hvalid⟩ := isProper_of_node hsound hroot
  have hsorted := Directory.pairwise_sources hproper hvalid.ne_nil
  refine ⟨d.sources root, ?_, ?_, Directory.tooDeep?_eq_none hproper hvalid.fits, ?_, ?_, ?_,
    hsorted, ?_, ?_⟩
  · intro hdeep
    rw [run_discover_folder hroot, if_pos rfl, hdeep, Directory.sources_outline_deep]
    rfl
  · intro place hdeep
    rw [run_discover_folder hroot, if_pos rfl, hdeep]
    rfl
  · rw [run_discover_folder hroot, if_neg Bool.false_ne_true,
      Directory.sources_outline_shallow hproper hvalid.ne_nil]
    rfl
  · intro q
    rw [Directory.mem_sources hproper, Path.isSource, beq_iff_eq]
    rfl
  · intro names inner hlookup
    exact Directory.not_mem_sources_of_folder hproper hvalid.ne_nil hlookup
  · exact nodup_of_pairwise_asymm (fun _ _ => Path.Before.asymm) hsorted
  · intro w' hsound' hbase hentry recursive
    exact discover_congr hsound hsound' hbase hentry hroot recursive

/-- A directory with the name of a source, and names that are in another order as texts. -/
def nestedSources : World :=
  ⟨.folder "d" (.file "a-b.nl" ByteArray.empty
      (.folder "a.nl" (.file "x.nl" ByteArray.empty .empty)
        (.folder "a" (.file "y" ByteArray.empty (.file "x.nl" ByteArray.empty .empty)) .empty)))
      .empty,
    [], ByteArray.empty, []⟩

theorem discover_nestedSources :
    nestedSources.run (discover ⟨["d"]⟩ true).run =
        (.ok [⟨["d", "a", "x.nl"]⟩, ⟨["d", "a-b.nl"]⟩, ⟨["d", "a.nl", "x.nl"]⟩], nestedSources) ∧
      nestedSources.run (discover ⟨["d"]⟩ false).run =
        (.ok [⟨["d", "a-b.nl"]⟩], nestedSources) ∧
      Path.Before ⟨["d", "a", "x.nl"]⟩ ⟨["d", "a-b.nl"]⟩ := by
  have hsound : nestedSources.Sound := ⟨by decide +kernel, rfl⟩
  obtain ⟨d, hd⟩ : ∃ d : FileTree, d = .file "a-b.nl" ByteArray.empty
      (.folder "a.nl" (.file "x.nl" ByteArray.empty .empty)
        (.folder "a" (.file "y" ByteArray.empty (.file "x.nl" ByteArray.empty .empty)) .empty)) :=
    ⟨_, rfl⟩
  have hroot : nestedSources.files.node nestedSources.base ⟨["d"]⟩ = .ok (.folder d) := by
    rw [hd]
    rfl
  have hvisits : d.visits ⟨["d"]⟩ = [⟨⟨["d", "a"]⟩, false⟩, ⟨⟨["d", "a", "x.nl"]⟩, true⟩,
      ⟨⟨["d", "a", "y"]⟩, true⟩, ⟨⟨["d", "a-b.nl"]⟩, true⟩, ⟨⟨["d", "a.nl"]⟩, false⟩,
      ⟨⟨["d", "a.nl", "x.nl"]⟩, true⟩] := by
    have hnames : Bytes.ofString "d" ≠ [] ∧ Bytes.ofString "a" ≠ [] ∧
        Bytes.ofString "a.nl" ≠ [] := by decide
    have hinner : ¬ Bytes.ofString "y" ≤ Bytes.ofString "x.nl" := by decide
    have houter : Bytes.ofString "a-b.nl" ≤ Bytes.ofString "a.nl" ∧
        ¬ Bytes.ofString "a-b.nl" ≤ Bytes.ofString "a" := by decide
    rw [hd]
    simp [Directory.visits, Directory.byName, Directory.visitsByEntry, List.mergeSort,
      Path.child, hnames, hinner, houter]
  have hdeep : d.tooDeep? ⟨["d"]⟩ = none := by
    rw [Directory.tooDeep?, hvisits]
    decide +kernel
  have hsources : d.sources ⟨["d"]⟩ =
      [⟨["d", "a", "x.nl"]⟩, ⟨["d", "a-b.nl"]⟩, ⟨["d", "a.nl", "x.nl"]⟩] := by
    rw [Directory.sources, Directory.files, hvisits]
    decide +kernel
  have hrun := run_discover_folder hroot true
  rw [if_pos rfl, hdeep, Directory.sources_outline_deep, hsources] at hrun
  obtain ⟨sources, hfound, -, -, hshallow, -, -, hsorted, -, -⟩ :=
    discover_lists_sources hsound hroot
  cases hrun.symm.trans (hfound hdeep)
  refine ⟨hrun, hshallow, ?_⟩
  exact (List.pairwise_cons.mp hsorted).1 _ List.mem_cons_self

end Build

end Scriptwright
