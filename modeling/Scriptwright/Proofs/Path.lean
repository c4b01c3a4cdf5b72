import Mathlib.Data.List.TakeWhile
import Scriptwright.Path
import Scriptwright.Proofs.Text.Bytes

/-!
# Sources and their outputs

A path that ends with a name is a source if the name ends with the extension of sources and
is more than that. Its output has another name in the same directory, which has as many
bytes. There is one exception: where the two dots of `..nl` are all that is left, the output
goes up and names no file.
-/

namespace Scriptwright.Path

/-- The extension is what follows the last dot, unless nothing stands before that. -/
theorem splitExtension_eq_some {name stem extension : Bytes} :
    splitExtension name = (stem, some extension) ↔
      name = stem ++ [dot] ++ extension ∧ stem ≠ [] ∧ dot ∉ extension := by
  constructor
  · intro h
    have hname := List.takeWhile_append_dropWhile (p := (· != dot)) (l := name.reverse)
    simp only [splitExtension] at h
    split at h
    · simp at h
    · simp at h
    · rename_i first before hbefore hdrop
      obtain ⟨rfl, hextension⟩ := Prod.mk.inj h
      cases hextension
      have hfirst : first = dot := by
        have hhead := List.head?_dropWhile_not (· != dot) name.reverse
        rw [hdrop] at hhead
        simpa using hhead
      rw [hdrop, hfirst] at hname
      refine ⟨?_, ?_, ?_⟩
      · rw [← List.reverse_inj]
        simpa using hname.symm
      · intro hempty
        exact hbefore (List.reverse_eq_nil_iff.mp hempty)
      · intro hmem
        simpa using List.mem_takeWhile_imp (List.mem_reverse.mp hmem)
  · rintro ⟨rfl, hstem, hextension⟩
    have hreverse : (stem ++ [dot] ++ extension).reverse =
        extension.reverse ++ dot :: stem.reverse := by simp
    have hall : ∀ b ∈ extension.reverse, (b != dot) = true := by
      intro b hb
      rw [bne_iff_ne]
      rintro rfl
      exact hextension (List.mem_reverse.mp hb)
    have htake : (extension.reverse ++ dot :: stem.reverse).takeWhile (· != dot) =
        extension.reverse := by
      rw [List.takeWhile_append_of_pos hall]
      simp
    have hdrop : (extension.reverse ++ dot :: stem.reverse).dropWhile (· != dot) =
        dot :: stem.reverse := by
      rw [List.dropWhile_append_of_pos hall]
      simp
    obtain ⟨b, bs, hbs⟩ := List.exists_cons_of_ne_nil (mt List.reverse_eq_nil_iff.mp hstem)
    simp only [splitExtension, hreverse, htake, hdrop]
    rw [hbs]
    simp only [← hbs, List.reverse_reverse]

/-- A segment that leads on, and not up. -/
structure Named (segment : Bytes) : Prop where
  stays : stays segment = false
  ne_up : segment ≠ up

theorem Named.ne_nil {segment : Bytes} (h : Named segment) : segment ≠ [] := by
  rintro rfl
  exact absurd h.stays (by decide)

theorem named_of_extension {stem extension : Bytes} (hstem : stem ≠ [])
    (hextension : extension ≠ []) : Named (stem ++ [dot] ++ extension) := by
  have hlength : 3 ≤ (stem ++ [dot] ++ extension).length := by
    have hstem := List.length_pos_iff.mpr hstem
    have hextension := List.length_pos_iff.mpr hextension
    simp only [List.length_append, List.length_singleton]
    omega
  have hne {short : Bytes} (h : short.length < 3) : stem ++ [dot] ++ extension ≠ short := by
    rintro rfl
    omega
  constructor
  · simp only [stays, Bool.or_eq_false_iff, beq_eq_false_iff_ne]
    exact ⟨hne (by decide), hne (by decide)⟩
  · exact hne (by decide)

/-- An output is never called like a source. -/
theorem outputName_ne_sourceName (stem stem' : Bytes) :
    stem ++ [dot] ++ outputExtension ≠ stem' ++ [dot] ++ sourceExtension := by
  intro h
  have hextension := (List.append_inj' h rfl).2
  exact absurd hextension (by decide)

theorem fromLast_append (init : List Bytes) {name : Bytes} (h : stays name = false) :
    fromLast (init ++ [name]) = name :: init.reverse := by
  simp [fromLast, h]

section
variable {init : List Bytes}

/-- The names of sources end with the extension of sources. -/
theorem isSource_iff {name : Bytes} (h : Named name) :
    isSource ⟨init ++ [name]⟩ = true ↔
      ∃ stem, stem ≠ [] ∧ name = stem ++ [dot] ++ sourceExtension := by
  have hextension : extension? ⟨init ++ [name]⟩ = (splitExtension name).2 := by
    simp only [extension?, fileName?, fromLast_append init h.stays, if_neg h.ne_up,
      Option.bind_some]
  have hdot : dot ∉ sourceExtension := by decide
  rw [isSource, hextension, beq_iff_eq]
  constructor
  · intro h
    have hsplit : splitExtension name = ((splitExtension name).1, some sourceExtension) := by
      rw [← h]
    obtain ⟨hname, hstem, -⟩ := splitExtension_eq_some.mp hsplit
    exact ⟨_, hstem, hname⟩
  · rintro ⟨stem, hstem, rfl⟩
    rw [splitExtension_eq_some.mpr ⟨rfl, hstem, hdot⟩]

/-- The output has the extension of outputs, but for a stem that is a single dot. -/
theorem output_eq {stem : Bytes} (h : stem ≠ []) :
    output ⟨init ++ [stem ++ [dot] ++ sourceExtension]⟩ =
      if stem = [dot] then ⟨init ++ [up]⟩ else ⟨init ++ [stem ++ [dot] ++ outputExtension]⟩ := by
  have hnamed := named_of_extension h (by decide : sourceExtension ≠ [])
  have hsplit : splitExtension (stem ++ [dot] ++ sourceExtension) = (stem, some sourceExtension) :=
    splitExtension_eq_some.mpr ⟨rfl, h, by decide⟩
  simp only [output, withExtension, fromLast_append init hnamed.stays, if_neg hnamed.ne_up, hsplit,
    List.getLast?_concat, Option.isSome_some, and_true, List.reverse_cons,
    List.reverse_reverse]

/-- What `fromLast` leaves out stands at the end and stays. -/
theorem eq_fromLast_append (segments : List Bytes) :
    ∃ trail, segments = (fromLast segments).reverse ++ trail ∧ ∀ s ∈ trail, stays s = true := by
  refine ⟨(segments.reverse.takeWhile stays).reverse, ?_, ?_⟩
  · rw [fromLast, ← List.reverse_append, List.takeWhile_append_dropWhile, List.reverse_reverse]
  · intro s hs
    exact List.mem_takeWhile_imp (List.mem_reverse.mp hs)

theorem stays_of_fromLast {segments kept : List Bytes} {name : Bytes}
    (h : fromLast segments = name :: kept) : stays name = false := by
  have hhead := List.head?_dropWhile_not stays segments.reverse
  rw [fromLast] at h
  rw [h] at hhead
  simpa using hhead

/-- The directory of a path is what stands before the last name, less the segments at its
end that stay. -/
theorem directory?_eq_some {name : Bytes} (h : stays name = false) {q : Path}
    (hq : directory? ⟨init ++ [name]⟩ = some q) :
    ∃ outer last trail, q = ⟨outer ++ [last]⟩ ∧ stays last = false ∧
      init = outer ++ [last] ++ trail ∧ ∀ s ∈ trail, stays s = true := by
  obtain ⟨lead, inner, rfl, hinner⟩ : ∃ lead inner, init = lead ++ inner ∧
      ∃ last kept, fromLast inner = last :: kept ∧ q = ⟨lead ++ (last :: kept).reverse⟩ := by
    cases init with
    | nil =>
      have hlast : fromLast [name] = [name] := fromLast_append [] h
      have hnil : fromLast [] = [] := rfl
      simp [directory?, h, hlast, hnil] at hq
    | cons first more =>
      by_cases hfirst : stays first = true
      · have hmore : fromLast (more ++ [name]) = name :: more.reverse := fromLast_append more h
        simp only [directory?, List.cons_append, hfirst, if_true, hmore,
          List.reverse_reverse] at hq
        refine ⟨[first], more, rfl, ?_⟩
        cases hkept : fromLast more with
        | nil => simp [hkept] at hq
        | cons last kept => exact ⟨last, kept, rfl, by simpa [hkept] using hq.symm⟩
      · have hall : fromLast (first :: (more ++ [name])) = name :: (first :: more).reverse :=
          fromLast_append (first :: more) h
        simp only [directory?, List.cons_append, hfirst, if_false, Bool.false_eq_true, hall,
          List.reverse_reverse] at hq
        refine ⟨[], first :: more, rfl, ?_⟩
        cases hkept : fromLast (first :: more) with
        | nil => simp [hkept] at hq
        | cons last kept => exact ⟨last, kept, rfl, by simpa [hkept] using hq.symm⟩
  obtain ⟨last, kept, hkept, rfl⟩ := hinner
  obtain ⟨trail, heq, htrail⟩ := eq_fromLast_append inner
  rw [hkept, List.reverse_cons] at heq
  refine ⟨lead ++ kept.reverse, last, trail, ?_, stays_of_fromLast hkept, ?_, htrail⟩
  · rw [List.reverse_cons, List.append_assoc]
  · rw [heq]
    simp only [List.append_assoc]

end

theorem directory?_of_directories {p q : Path} {outer : List Path}
    (h : p.directories = q :: outer) : p.directory? = some q := by
  rw [directories] at h
  split at h
  · cases h
  · rename_i hq
    cases h
    exact hq

theorem bytes_append {first second : List Bytes} (hfirst : first ≠ []) (hsecond : second ≠ []) :
    bytes ⟨first ++ second⟩ = bytes ⟨first⟩ ++ [slash] ++ bytes ⟨second⟩ := by
  induction first with
  | nil => exact absurd rfl hfirst
  | cons s first ih =>
    cases first with
    | nil =>
      obtain ⟨t, second, rfl⟩ := List.exists_cons_of_ne_nil hsecond
      simp [bytes, List.intercalate]
    | cons t first =>
      have ih := ih (List.cons_ne_nil _ _)
      simp only [bytes, List.cons_append, List.intercalate_cons_cons] at ih ⊢
      rw [ih]
      simp only [List.append_assoc]

/-- The bytes of a path are the same up to the last name, whatever that is. -/
theorem exists_bytes_front (init : List Bytes) :
    ∃ front, ∀ name, bytes ⟨init ++ [name]⟩ = front ++ name := by
  have hsingle (name : Bytes) : bytes ⟨[name]⟩ = name := List.intercalate_singleton
  cases init with
  | nil => exact ⟨[], hsingle⟩
  | cons first more =>
    refine ⟨bytes ⟨first :: more⟩ ++ [slash], fun name => ?_⟩
    rw [bytes_append (List.cons_ne_nil _ _) (List.cons_ne_nil _ _), hsingle]

theorem bytes_ne_nil (init : List Bytes) {name : Bytes} (h : name ≠ []) :
    bytes ⟨init ++ [name]⟩ ≠ [] := by
  obtain ⟨front, hfront⟩ := exists_bytes_front init
  rw [hfront, Ne, List.append_eq_nil_iff]
  exact fun hempty => h hempty.2

/-- A path of a text is shown as that text. -/
@[simp] theorem text_ofString (text : String) : (ofString text).text = text := by
  rw [Path.text, ofString, bytes_ofBytes, Bytes.shown_ofString]

theorem cut_of_not_mem {segment : Bytes} (h : slash ∉ segment) : cut segment = [segment] := by
  induction segment with
  | nil => rfl
  | cons b segment ih =>
    obtain ⟨hb, hsegment⟩ := (List.mem_cons.not.trans not_or).mp h
    rw [cut, if_neg (Ne.symm hb), ih hsegment]

theorem cut_append_slash {segment : Bytes} (h : slash ∉ segment) (bs : Bytes) :
    cut (segment ++ slash :: bs) = segment :: cut bs := by
  induction segment with
  | nil => rw [List.nil_append, cut, if_pos rfl]
  | cons b segment ih =>
    obtain ⟨hb, hsegment⟩ := (List.mem_cons.not.trans not_or).mp h
    rw [List.cons_append, cut, if_neg (Ne.symm hb), ih hsegment]

theorem not_mem_of_mem_cut {bs segment : Bytes} (h : segment ∈ cut bs) : slash ∉ segment := by
  induction bs generalizing segment with
  | nil =>
    rw [List.mem_singleton.mp h]
    exact List.not_mem_nil
  | cons b bs ih =>
    rw [cut] at h
    split_ifs at h with hb
    · cases h with
      | head => exact List.not_mem_nil
      | tail _ h => exact ih h
    · obtain ⟨first, more, hcut⟩ := List.exists_cons_of_ne_nil (cut_ne_nil bs)
      rw [hcut] at h ih
      cases h with
      | head =>
        have hfirst := ih List.mem_cons_self
        simp [Ne.symm hb, hfirst]
      | tail _ h => exact ih (List.mem_cons_of_mem _ h)

theorem cut_intercalate {segments : List Bytes} (hne : segments ≠ [])
    (h : ∀ segment ∈ segments, slash ∉ segment) :
    cut ([slash].intercalate segments) = segments := by
  induction segments with
  | nil => exact absurd rfl hne
  | cons segment segments ih =>
    obtain ⟨hsegment, hsegments⟩ := List.forall_mem_cons.mp h
    cases segments with
    | nil => simpa [List.intercalate] using cut_of_not_mem hsegment
    | cons next segments =>
      have hcut := ih (List.cons_ne_nil _ _) hsegments
      have hjoin : [slash].intercalate (segment :: next :: segments) =
          segment ++ slash :: [slash].intercalate (next :: segments) := by
        simp [List.intercalate]
      rw [hjoin, cut_append_slash hsegment, hcut]

/-- A path is known by its bytes if there is a segment and no segment has a slash. -/
theorem ofBytes_bytes {p : Path} (hne : p.segments ≠ [])
    (h : ∀ segment ∈ p.segments, slash ∉ segment) : ofBytes p.bytes = p := by
  obtain ⟨segments⟩ := p
  rw [ofBytes, bytes, cut_intercalate hne h]

theorem not_mem_segment_ofBytes {bs segment : Bytes} (h : segment ∈ (ofBytes bs).segments) :
    slash ∉ segment :=
  not_mem_of_mem_cut h

end Scriptwright.Path
