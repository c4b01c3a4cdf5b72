import Mathlib.Data.List.Basic
import Mathlib.Data.List.Induction
import Mathlib.Data.List.Pairwise
import Scriptwright.Record

/-!
# What a record keeps of its written fields

Writing fields one after the other gives each name one field. It stands where the name
was written first, and it has what was written for the name last.
-/

namespace Scriptwright.Record
variable {α : Type}

/-- The last of the fields with each name, in the order in which the names come up. -/
def merged (written : List (String × α)) : Record α :=
  (written.map (·.1)).eraseDups.filterMap fun name => (written.filter (·.1 = name)).getLast?

theorem foldl_insert_cons (written : List (String × α)) (name : String) (value : α)
    (r : Record α) :
    written.foldl (fun fields field => insert field.1 field.2 fields) ((name, value) :: r) =
      (name, ((written.filter (·.1 = name)).getLast?.map (·.2)).getD value) ::
        (written.filter (·.1 ≠ name)).foldl
          (fun fields field => insert field.1 field.2 fields) r := by
  induction written generalizing value r with
  | nil => rfl
  | cons field written ih =>
    rw [List.foldl_cons]
    by_cases h : name = field.1
    · subst h
      simp [insert, ih, List.getLast?_cons]
    · have h' : ¬ field.1 = name := fun e => h e.symm
      simp [insert, ih, h, h']

theorem merged_subset (written : List (String × α)) : merged written ⊆ written := by
  intro field h
  obtain ⟨name, -, hlast⟩ := List.mem_filterMap.mp h
  exact (List.mem_filter.mp (List.mem_of_getLast? hlast)).1

theorem merged_cons (name : String) (value : α) (more : List (String × α)) :
    merged ((name, value) :: more) =
      (name, ((more.filter (·.1 = name)).getLast?.map (·.2)).getD value) ::
        merged (more.filter (·.1 ≠ name)) := by
  have hlast : (((name, value) :: more).filter (·.1 = name)).getLast? =
      some (name, ((more.filter (·.1 = name)).getLast?.map (·.2)).getD value) := by
    rw [List.filter_cons_of_pos (by simp), List.getLast?_cons]
    cases h : (more.filter (·.1 = name)).getLast? with
    | none => rfl
    | some field =>
      have hmem := List.mem_of_getLast? h
      simp only [List.mem_filter, decide_eq_true_eq] at hmem
      simp [← hmem.2]
  have hnames : (more.map (·.1)).filter (fun other => !other == name) =
      (more.filter (·.1 ≠ name)).map (·.1) := by
    rw [List.filter_map]
    congr 1
    refine List.filter_congr ?_
    intro field _
    by_cases h : field.1 = name <;> simp [h]
  have hother : ∀ other ∈ ((more.filter (·.1 ≠ name)).map (·.1)).eraseDups,
      (((name, value) :: more).filter (·.1 = other)).getLast? =
        ((more.filter (·.1 ≠ name)).filter (·.1 = other)).getLast? := by
    intro other hmem
    have hne : name ≠ other := by
      rintro rfl
      simp [List.mem_eraseDups] at hmem
    rw [List.filter_cons_of_neg (by simpa using hne), List.filter_filter]
    congr 1
    refine List.filter_congr ?_
    intro field _
    by_cases h : field.1 = other
    · simp [h, Ne.symm hne]
    · simp [h]
  unfold merged
  rw [List.map_cons, List.eraseDups_cons, List.filterMap_cons, hlast, hnames]
  exact congrArg _ (List.filterMap_congr hother)

theorem pairwise_merged_ne (written : List (String × α)) :
    (merged written).Pairwise fun a b => a.1 ≠ b.1 := by
  cases written with
  | nil => exact .nil
  | cons field more =>
    obtain ⟨name, value⟩ := field
    rw [merged_cons]
    refine List.pairwise_cons.mpr ⟨?_, pairwise_merged_ne (more.filter (·.1 ≠ name))⟩
    intro other hother
    have hne := (List.mem_filter.mp (merged_subset _ hother)).2
    exact fun h => of_decide_eq_true hne h.symm
termination_by written.length
decreasing_by exact Nat.lt_succ_of_le (List.length_filter_le _ _)

/-- What holds between any two written fields holds between any two that are kept. -/
theorem pairwise_merged {R : String × α → String × α → Prop} [Std.Symm R]
    {written : List (String × α)} (h : written.Pairwise R) : (merged written).Pairwise R := by
  refine (pairwise_merged_ne written).imp_of_mem ?_
  intro a b ha hb hne
  refine h.forall (merged_subset written ha) (merged_subset written hb) ?_
  rintro rfl
  exact hne rfl

theorem ofList_eq_merged (written : List (String × α)) : ofList written = merged written := by
  cases written with
  | nil => rfl
  | cons field more =>
    obtain ⟨name, value⟩ := field
    rw [merged_cons, ← ofList_eq_merged (more.filter (·.1 ≠ name))]
    exact foldl_insert_cons more name value []
termination_by written.length
decreasing_by exact Nat.lt_succ_of_le (List.length_filter_le _ _)

/-- What was written last for a name. -/
def lastGiven? (name : String) (written : List (String × α)) : Option α :=
  (written.filter (·.1 = name)).getLast?.map (·.2)

theorem lastGiven?_concat (name : String) (written : List (String × α)) (field : String × α) :
    lastGiven? name (written ++ [field]) =
      if field.1 = name then some field.2 else lastGiven? name written := by
  unfold lastGiven?
  by_cases h : field.1 = name <;> simp [h]

theorem get?_merged (name : String) (written : List (String × α)) :
    get? name (merged written) = lastGiven? name written := by
  rw [← ofList_eq_merged]
  induction written using List.reverseRecOn with
  | nil => rfl
  | append_singleton written field ih =>
    rw [lastGiven?_concat, ← ih, ofList, List.foldl_concat, get?_insert]
    rfl

end Scriptwright.Record
