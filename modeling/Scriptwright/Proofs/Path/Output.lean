import Mathlib.Data.List.DropRight
import Scriptwright.Proofs.Path.Order

/-!
# Outputs of sources

A file name may be followed by slashes and dots that lead nowhere else. The extension is
changed on the bytes: as many bytes as the old extension has are cut from the end of the whole
path, whatever they are, and the new extension is put behind the stem of what is then the file
name. What has been cut is the extension or some of what follows the name, so the stem is
still there. Only where the two dots of `..nl` are all that is left there is no file name any
more, and nothing is added.

So an output is no source. It is the source up to the end of its stem with another extension,
and two sources that end with their names have two outputs.
-/

namespace Scriptwright.Path

theorem cut_append_slash_append (cs ds : Bytes) : cut (cs ++ slash :: ds) = cut cs ++ cut ds := by
  induction cs with
  | nil => simp [cut]
  | cons c cs ih =>
    by_cases hslash : c = slash
    · rw [List.cons_append, cut, if_pos hslash, ih, cut, if_pos hslash, List.cons_append]
    · obtain ⟨first, more, hcut⟩ := List.exists_cons_of_ne_nil (cut_ne_nil cs)
      rw [List.cons_append, cut, if_neg hslash, ih, cut, if_neg hslash, hcut]
      rfl

/-- The segments of a prefix are those of the whole up to the last one, of which it may have a
part only. -/
theorem exists_cut_append (ds es : Bytes) : ∃ done last more rest,
    cut ds = done ++ [last] ∧ cut (ds ++ es) = done ++ (last ++ more) :: rest := by
  induction ds with
  | nil =>
    obtain ⟨first, rest, hcut⟩ := List.exists_cons_of_ne_nil (cut_ne_nil es)
    exact ⟨[], [], first, rest, rfl, hcut⟩
  | cons d ds ih =>
    obtain ⟨done, last, more, rest, hds, hall⟩ := ih
    by_cases hslash : d = slash
    · refine ⟨[] :: done, last, more, rest, ?_, ?_⟩
      · rw [cut, if_pos hslash, hds, List.cons_append]
      · rw [List.cons_append, cut, if_pos hslash, hall, List.cons_append]
    · cases done with
      | nil =>
        refine ⟨[], d :: last, more, rest, ?_, ?_⟩
        · rw [cut, if_neg hslash, hds]
          rfl
        · rw [List.cons_append, cut, if_neg hslash, hall]
          rfl
      | cons first done =>
        refine ⟨(d :: first) :: done, last, more, rest, ?_, ?_⟩
        · rw [cut, if_neg hslash, hds]
          rfl
        · rw [List.cons_append, cut, if_neg hslash, hall]
          rfl

theorem stays_iff {segment : Bytes} : stays segment = true ↔ segment = [] ∨ segment = [dot] := by
  rw [stays, Bool.or_eq_true, beq_iff_eq, beq_iff_eq]

/-- What leads nowhere does so as far as it is kept. -/
theorem stays_of_prefix {bs kept : Bytes} (hfront : kept <+: bs)
    (h : ∀ segment ∈ (ofBytes bs).segments, stays segment = true) :
    ∀ segment ∈ (ofBytes kept).segments, stays segment = true := by
  obtain ⟨more, heq⟩ := hfront
  obtain ⟨done, last, added, rest, hkept, hbytes⟩ := exists_cut_append kept more
  rw [heq] at hbytes
  simp only [ofBytes, hkept, hbytes, List.forall_mem_append, List.forall_mem_cons] at h ⊢
  refine ⟨h.1, ?_, List.forall_mem_nil _⟩
  have hlast := stays_iff.mp h.2.1
  rw [stays_iff]
  cases last with
  | nil => exact .inl rfl
  | cons c last =>
    rcases hlast with hlast | hlast
    · cases hlast
    · obtain ⟨rfl, hrest⟩ := List.cons.inj hlast
      rw [(List.append_eq_nil_iff.mp hrest).1]
      exact .inr rfl

/-- The bytes are a name with slashes around it: before the name they end with one, if there are
any, and what follows the name begins with one and leads nowhere. -/
structure Divided (s front name tail : Bytes) : Prop where
  bytes_eq : s = front ++ name ++ tail
  front_end : ∀ b ∈ front.getLast?, b = slash
  named : Named name
  name_slash : slash ∉ name
  tail_start : ∀ b ∈ tail.head?, b = slash
  tail_stays : ∀ segment ∈ (ofBytes tail).segments, stays segment = true

/-- The segments before the name. -/
def outer (front : Bytes) : List Bytes := (ofBytes front).segments.dropLast

/-- The segments behind the name. -/
def behind (tail : Bytes) : List Bytes := (ofBytes tail).segments.tail

theorem nil_start : ∀ b ∈ ([] : Bytes).head?, b = slash := by
  intro b hb
  cases hb

theorem ofBytes_append_behind {name tail : Bytes} (hname : slash ∉ name)
    (htail : ∀ b ∈ tail.head?, b = slash) :
    ofBytes (name ++ tail) = ⟨name :: behind tail⟩ := by
  unfold behind ofBytes
  cases tail with
  | nil => simp [cut_of_not_mem hname, cut]
  | cons b rest =>
    cases htail b rfl
    simp [cut_append_slash hname, cut]

theorem ofBytes_outer_append {front : Bytes} (hfront : ∀ b ∈ front.getLast?, b = slash)
    (rest : Bytes) : ofBytes (front ++ rest) = ⟨outer front ++ (ofBytes rest).segments⟩ := by
  unfold outer ofBytes
  rcases List.eq_nil_or_concat' front with rfl | ⟨bs, b, rfl⟩
  · simp [cut]
  · rw [List.getLast?_concat] at hfront
    cases hfront b rfl
    simp [cut_append_slash_append, cut]

theorem bytes_singleton (segment : Bytes) : bytes ⟨[segment]⟩ = segment :=
  List.intercalate_singleton

/-- What stands before a name is empty or ends with a slash. -/
theorem exists_front (init : List Bytes) : ∃ front : Bytes,
    (∀ b ∈ front.getLast?, b = slash) ∧
      ∀ segments, segments ≠ [] → bytes ⟨init ++ segments⟩ = front ++ bytes ⟨segments⟩ := by
  cases init with
  | nil =>
    refine ⟨[], fun b hb => ?_, fun segments _ => ?_⟩
    · cases hb
    · rfl
  | cons first more =>
    refine ⟨bytes ⟨first :: more⟩ ++ [slash], fun b hb => ?_, fun segments hne => ?_⟩
    · rw [List.getLast?_concat] at hb
      cases hb
      rfl
    · exact bytes_append (List.cons_ne_nil _ _) hne

/-- What stands behind a name is empty or begins with a slash. -/
theorem bytes_cons (name : Bytes) (trail : List Bytes) :
    bytes ⟨name :: trail⟩ = name ++ bytes ⟨[] :: trail⟩ ∧
      ∀ b ∈ (bytes ⟨[] :: trail⟩).head?, b = slash := by
  cases trail with
  | nil =>
    rw [bytes_singleton, bytes_singleton, List.append_nil]
    refine ⟨rfl, ?_⟩
    intro b hb
    cases hb
  | cons next more =>
    have hcons (name : Bytes) :
        bytes ⟨name :: next :: more⟩ = name ++ [slash] ++ bytes ⟨next :: more⟩ := by
      have happend :=
        @bytes_append [name] (next :: more) (List.cons_ne_nil _ _) (List.cons_ne_nil _ _)
      rw [bytes_singleton] at happend
      exact happend
    rw [hcons, hcons, List.nil_append, List.append_assoc]
    refine ⟨rfl, ?_⟩
    intro b hb
    cases hb
    rfl

/-- A file name stands between slashes. -/
theorem exists_divided {s name : Bytes} (h : (ofBytes s).fileName? = some name) :
    ∃ front tail, Divided s front name tail := by
  obtain ⟨trail, heq, htrail⟩ := eq_fromLast_append (ofBytes s).segments
  unfold fileName? at h
  split at h
  · cases h
  · next last before hlast =>
    split_ifs at h with hup
    cases h
    rw [hlast, List.reverse_cons, List.append_assoc, List.singleton_append] at heq
    obtain ⟨front, hend, hfront⟩ := exists_front before.reverse
    obtain ⟨hbytes, hstart⟩ := bytes_cons name trail
    have hslash : ∀ segment ∈ before.reverse ++ name :: trail, slash ∉ segment := by
      intro segment hsegment
      rw [← heq] at hsegment
      exact not_mem_segment_ofBytes hsegment
    have hbehind : ofBytes (bytes ⟨[] :: trail⟩) = ⟨[] :: trail⟩ := by
      apply ofBytes_bytes (List.cons_ne_nil _ _)
      refine List.forall_mem_cons.mpr ⟨List.not_mem_nil, fun segment hsegment => ?_⟩
      exact hslash segment (List.mem_append_right _ (List.mem_cons_of_mem _ hsegment))
    refine ⟨front, bytes ⟨[] :: trail⟩, ?_, hend, ⟨stays_of_fromLast hlast, hup⟩,
      hslash name (List.mem_append_right _ List.mem_cons_self), hstart, ?_⟩
    · calc
        s = bytes ⟨before.reverse ++ name :: trail⟩ := by rw [← heq, bytes_ofBytes]
        _ = front ++ name ++ bytes ⟨[] :: trail⟩ := by
          rw [hfront _ (List.cons_ne_nil _ _), hbytes, List.append_assoc]
    · rw [hbehind]
      exact List.forall_mem_cons.mpr ⟨rfl, htrail⟩

section
variable {s front name tail : Bytes}

theorem Divided.ofBytes_eq (h : Divided s front name tail) :
    ofBytes s = ⟨outer front ++ name :: behind tail⟩ := by
  rw [h.bytes_eq, List.append_assoc, ofBytes_outer_append h.front_end,
    ofBytes_append_behind h.name_slash h.tail_start]

theorem Divided.behind_stays (h : Divided s front name tail) :
    ∀ segment ∈ behind tail, stays segment = true :=
  fun segment hmem => h.tail_stays segment (List.mem_of_mem_tail hmem)

theorem Divided.fromLast_eq (h : Divided s front name tail) :
    fromLast (ofBytes s).segments = name :: (outer front).reverse := by
  have hall : ∀ segment ∈ (behind tail).reverse, stays segment = true :=
    fun segment hmem => h.behind_stays segment (List.mem_reverse.mp hmem)
  rw [h.ofBytes_eq, fromLast, List.reverse_append, List.reverse_cons, List.append_assoc,
    List.dropWhile_append_of_pos hall, List.singleton_append]
  exact List.dropWhile_cons_of_neg (by rw [h.named.stays]; exact Bool.false_ne_true)

theorem Divided.fileName?_eq (h : Divided s front name tail) :
    (ofBytes s).fileName? = some name := by
  rw [fileName?, h.fromLast_eq]
  exact if_neg h.named.ne_up

theorem Divided.extension?_eq (h : Divided s front name tail) :
    (ofBytes s).extension? = (splitExtension name).2 := by
  rw [extension?, h.fileName?_eq, Option.bind_some]

theorem behind_eq_nil_iff (h : ∀ b ∈ tail.head?, b = slash) :
    behind tail = [] ↔ tail = [] := by
  unfold behind ofBytes
  cases tail with
  | nil => simp [cut]
  | cons b rest =>
    cases h b rfl
    simp [cut, cut_ne_nil]

/-- A path that ends with a name ends with its file name, and nothing follows that. -/
theorem Divided.getLast?_eq_some (h : Divided s front name tail) {last : Bytes}
    (hlast : stays last = false) :
    (ofBytes s).segments.getLast? = some last ↔ last = name ∧ tail = [] := by
  rw [← behind_eq_nil_iff h.tail_start, h.ofBytes_eq]
  have hstays := h.behind_stays
  generalize behind tail = trail at hstays
  rcases List.eq_nil_or_concat' trail with rfl | ⟨trail, final, rfl⟩
  · simp [eq_comm]
  · have hne : final ≠ last := by
      rintro rfl
      have hfinal := hstays final (List.mem_append_right _ List.mem_cons_self)
      rw [hlast] at hfinal
      cases hfinal
    rw [← List.cons_append, ← List.append_assoc, List.getLast?_concat]
    simp [hne]

theorem Divided.withExtension_eq (h : Divided s front name tail) (extension : Bytes) :
    (ofBytes s).withExtension extension =
      if (splitExtension name).1 = [dot] ∧ (splitExtension name).2.isSome ∧ tail = [] then
        ⟨outer front ++ [up]⟩
      else ⟨outer front ++ [(splitExtension name).1 ++ [dot] ++ extension]⟩ := by
  simp only [withExtension, h.fromLast_eq, if_neg h.named.ne_up,
    h.getLast?_eq_some h.named.stays, true_and, List.reverse_cons, List.reverse_reverse]

end

/-- The path with the extension behind the stem of its file name, whatever stood there. -/
def setExtension (extension : Bytes) (p : Path) : Path :=
  match fromLast p.segments with
  | [] => p
  | name :: before =>
    if name = up then p
    else ⟨(((splitExtension name).1 ++ [dot] ++ extension) :: before).reverse⟩

/-- What is left of a path when as many bytes as its extension has are cut from its end. -/
def withoutExtension (bs : Bytes) : Bytes :=
  match (ofBytes bs).extension? with
  | none => bs
  | some old => bs.rdrop old.length

theorem Divided.setExtension_eq {s front name tail : Bytes} (h : Divided s front name tail)
    (extension : Bytes) : (ofBytes s).setExtension extension =
      ⟨outer front ++ [(splitExtension name).1 ++ [dot] ++ extension]⟩ := by
  simp only [setExtension, h.fromLast_eq, if_neg h.named.ne_up, List.reverse_cons,
    List.reverse_reverse]

theorem setExtension_of_fileName?_eq_none {p : Path} (extension : Bytes)
    (h : p.fileName? = none) :
    p.setExtension extension = p ∧ p.withExtension extension = p := by
  unfold fileName? at h
  unfold setExtension withExtension
  cases hlast : fromLast p.segments with
  | nil => exact ⟨rfl, rfl⟩
  | cons last before =>
    have hup : last = up := by
      by_contra hne
      simp only [hlast, hne, if_false, reduceCtorEq] at h
    simp only [hup, if_true, and_self]

/-- A stem with a dot behind it is a file name, unless these are the two dots that go up. -/
theorem named_stem_dot {stem : Bytes} (hstem : stem ≠ []) (hdot : stem ≠ [dot]) :
    Named (stem ++ [dot]) := by
  have hcancel {short : Bytes} (h : stem ++ [dot] = short ++ [dot]) : stem = short :=
    List.append_cancel_right h
  constructor
  · simp only [stays, Bool.or_eq_false_iff, beq_eq_false_iff_ne]
    exact ⟨by simp, fun h => hstem (@hcancel [] h)⟩
  · exact fun h => hdot (@hcancel [dot] h)

section
variable {s front stem old tail : Bytes}

/-- Cutting off as much as the extension has leaves the rest of what follows the name, or else
a part of the extension. -/
theorem Divided.rdrop_eq (h : Divided s front (stem ++ [dot] ++ old) tail) :
    s.rdrop old.length = front ++ (stem ++ [dot]) ++
      (old.take tail.length ++ tail.take (tail.length - old.length)) := by
  have hbytes : s = front ++ (stem ++ [dot]) ++ (old ++ tail) := by
    rw [h.bytes_eq]
    simp only [List.append_assoc]
  have hlength : s.length - old.length = (front ++ (stem ++ [dot])).length + tail.length := by
    rw [hbytes, List.length_append, @List.length_append _ old]
    omega
  rw [List.rdrop, hlength, hbytes, List.take_length_add_append, List.take_append]

/-- If something follows the name, then the stem is still there, with some of the extension or
all of it. -/
theorem Divided.exists_kept (h : Divided s front (stem ++ [dot] ++ old) tail) (hstem : stem ≠ [])
    (htail : tail ≠ []) : ∃ kept rest, (∀ b ∈ kept, b ∈ old) ∧
      Divided (s.rdrop old.length) front (stem ++ [dot] ++ kept) rest := by
  obtain ⟨kept, hkept⟩ : ∃ kept, old.take tail.length = kept := ⟨_, rfl⟩
  obtain ⟨rest, hrest⟩ : ∃ rest, tail.take (tail.length - old.length) = rest := ⟨_, rfl⟩
  have hsubset : ∀ b ∈ kept, b ∈ old := fun b hb => List.mem_of_mem_take (hkept ▸ hb)
  have hfront : rest <+: tail := hrest ▸ List.take_prefix _ _
  refine ⟨kept, rest, hsubset, ?_, h.front_end, ?_, ?_, ?_, stays_of_prefix hfront h.tail_stays⟩
  · rw [h.rdrop_eq, hkept, hrest]
    simp only [List.append_assoc]
  · by_cases hold : old = []
    · have hempty : kept = [] := by
        rw [← hkept, hold, List.take_nil]
      rw [hold] at h
      rw [hempty]
      exact h.named
    · refine named_of_extension hstem ?_
      rw [← hkept, Ne, List.take_eq_nil_iff, List.length_eq_zero_iff]
      exact not_or.mpr ⟨htail, hold⟩
  · have hslash := h.name_slash
    rw [List.mem_append] at hslash ⊢
    exact fun hmem => hslash (hmem.imp_right (hsubset _))
  · intro b hb
    obtain ⟨more, hmore⟩ := hfront
    apply h.tail_start b
    rw [← hmore, List.head?_append, hb]
    rfl

/-- If nothing follows the name, then the dot of the extension comes last. -/
theorem Divided.ofBytes_dot (h : Divided s front (stem ++ [dot] ++ old) []) :
    ofBytes (s.rdrop old.length) = ⟨outer front ++ [stem ++ [dot]]⟩ := by
  have hslash : slash ∉ stem ++ [dot] :=
    fun hmem => h.name_slash (List.mem_append_left _ hmem)
  have hdot := ofBytes_append_behind hslash nil_start
  rw [List.append_nil] at hdot
  rw [h.rdrop_eq, List.length_nil, List.take_zero, List.take_nil, List.append_nil, List.append_nil,
    ofBytes_outer_append h.front_end, hdot]
  rfl

end

/-- The extension behind a stem that has nothing but its dot left. -/
theorem setExtension_stem_dot (extension : Bytes) (init : List Bytes) {stem : Bytes}
    (hstem : stem ≠ []) : setExtension extension ⟨init ++ [stem ++ [dot]]⟩ =
      if stem = [dot] then ⟨init ++ [up]⟩ else ⟨init ++ [stem ++ [dot] ++ extension]⟩ := by
  by_cases hdot : stem = [dot]
  · have hlast : fromLast (init ++ [up]) = up :: init.reverse := fromLast_append init rfl
    have hdots : [dot] ++ [dot] = up := rfl
    simp only [hdot, hdots, setExtension, hlast, if_true]
  · have hnamed := named_stem_dot hstem hdot
    have hsplit : splitExtension (stem ++ [dot]) = (stem, some []) :=
      splitExtension_eq_some.mpr ⟨(List.append_nil _).symm, hstem, List.not_mem_nil⟩
    simp only [setExtension, fromLast_append init hnamed.stays, if_neg hnamed.ne_up, hsplit,
      if_neg hdot, List.reverse_cons, List.reverse_reverse]

/-- The extension is changed in two steps. First as much as the old extension has is cut from
the end of the path. Then the new one is put behind the stem of the file name that is left. -/
theorem withExtension_eq_setExtension (extension s : Bytes) :
    (ofBytes s).withExtension extension =
      (ofBytes (withoutExtension s)).setExtension extension := by
  cases hfile : (ofBytes s).fileName? with
  | none =>
    have hsame : withoutExtension s = s := by
      rw [withoutExtension, extension?, hfile]
      rfl
    obtain ⟨hset, hwith⟩ := setExtension_of_fileName?_eq_none extension hfile
    rw [hsame, hset, hwith]
  | some name =>
    obtain ⟨front, tail, h⟩ := exists_divided hfile
    rw [h.withExtension_eq]
    rcases hsplit : splitExtension name with ⟨stem, _ | old⟩
    · have hsame : withoutExtension s = s := by
        rw [withoutExtension, h.extension?_eq, hsplit]
      rw [hsame, h.setExtension_eq, hsplit]
      simp
    · have hcut : withoutExtension s = s.rdrop old.length := by
        rw [withoutExtension, h.extension?_eq, hsplit]
      obtain ⟨rfl, hstem, hold⟩ := splitExtension_eq_some.mp hsplit
      rw [hcut]
      by_cases htail : tail = []
      · subst htail
        rw [h.ofBytes_dot, setExtension_stem_dot extension _ hstem]
        simp
      · obtain ⟨kept, rest, hsubset, hkept⟩ := h.exists_kept hstem htail
        rw [if_neg fun hall => htail hall.2.2, hkept.setExtension_eq,
          splitExtension_eq_some.mpr ⟨rfl, hstem, fun hmem => hold (hsubset _ hmem)⟩]

/-- The last segment of the output of a source. -/
def outputName (stem tail : Bytes) : Bytes :=
  if stem = [dot] ∧ tail = [] then up else stem ++ [dot] ++ outputExtension

theorem outputName_injective {stem tail stem' tail' : Bytes}
    (h : outputName stem tail = outputName stem' tail') : stem = stem' := by
  have hup (stem : Bytes) : stem ++ [dot] ++ outputExtension ≠ up := by
    intro heq
    have hlength := congrArg List.length heq
    rw [List.length_append, List.length_append] at hlength
    have htwo : outputExtension.length = 2 ∧ up.length = 2 := by decide
    rw [htwo.1, htwo.2, List.length_singleton] at hlength
    omega
  unfold outputName at h
  split_ifs at h with hdot hdot' hdot'
  · rw [hdot.1, hdot'.1]
  · exact absurd h.symm (hup _)
  · exact absurd h (hup _)
  · exact List.append_cancel_right (List.append_cancel_right h)

theorem stays_outputName {stem : Bytes} (hstem : stem ≠ []) (tail : Bytes) :
    stays (outputName stem tail) = false := by
  unfold outputName
  split_ifs
  · rfl
  · exact (named_of_extension hstem (by decide)).stays

theorem outputName_slash {stem : Bytes} (hslash : slash ∉ stem) (tail : Bytes) :
    slash ∉ outputName stem tail := by
  unfold outputName
  split_ifs
  · decide
  · have hrest : slash ∉ [dot] ∧ slash ∉ outputExtension := by decide
    simp only [List.mem_append, hslash, hrest.1, hrest.2, or_self, not_false_eq_true]

theorem outputName_ne {stem : Bytes} (hstem : stem ≠ []) (tail : Bytes) :
    outputName stem tail ≠ stem ++ [dot] ++ sourceExtension := by
  unfold outputName
  split_ifs
  · exact (named_of_extension hstem (by decide)).ne_up.symm
  · exact outputName_ne_sourceName stem stem

theorem isSource_outputName (init : List Bytes) {stem : Bytes} (hstem : stem ≠ [])
    (tail : Bytes) : isSource ⟨init ++ [outputName stem tail]⟩ = false := by
  unfold outputName
  split_ifs
  · have hlast : fromLast (init ++ [up]) = up :: init.reverse := fromLast_append init rfl
    simp [isSource, extension?, fileName?, hlast]
  · rw [← Bool.not_eq_true, isSource_iff (named_of_extension hstem (by decide))]
    rintro ⟨other, -, heq⟩
    exact outputName_ne_sourceName stem other heq

/-- The components of a path before its last name. -/
def leading : List Bytes → List Component
  | [] => []
  | first :: others => Component.ofFirst first ++ others.flatMap Component.ofSegment

theorem components_append_cons (init : List Bytes) {last : Bytes} (hlast : stays last = false)
    {trail : List Bytes} (htrail : ∀ s ∈ trail, stays s = true) :
    components ⟨init ++ last :: trail⟩ = leading init ++ Component.ofSegment last := by
  have hne : last ≠ [] := by
    rintro rfl
    cases hlast
  have hdot : last ≠ [dot] := by
    rintro rfl
    cases hlast
  have hbytes : bytes ⟨init ++ last :: trail⟩ ≠ [] := by
    obtain ⟨front, -, hfront⟩ := exists_front init
    rw [hfront _ (List.cons_ne_nil _ _), (bytes_cons last trail).1]
    simp [hne]
  have hnone : trail.flatMap Component.ofSegment = [] := by
    rw [List.flatMap_eq_nil_iff]
    intro s hs
    rw [Component.ofSegment, if_pos (htrail s hs)]
  cases init with
  | nil =>
    rw [List.nil_append] at hbytes ⊢
    rw [components_cons hbytes, hnone, List.append_nil, Component.ofFirst, if_neg hne, if_neg hdot]
    rfl
  | cons first others =>
    rw [List.cons_append] at hbytes ⊢
    rw [components_cons hbytes, List.flatMap_append, List.flatMap_cons, hnone, List.append_nil,
      leading, List.append_assoc]

/-- A segment that leads on is known by its component. -/
theorem ofSegment_eq_singleton {segment : Bytes} (h : stays segment = false) :
    Component.ofSegment segment =
      [if segment = up then Component.up else Component.name segment] := by
  unfold Component.ofSegment
  rw [if_neg (by rw [h]; exact Bool.false_ne_true)]
  split_ifs <;> rfl

theorem append_ofSegment_inj {cs ds : List Component} {a b : Bytes} (ha : stays a = false)
    (hb : stays b = false) :
    cs ++ Component.ofSegment a = ds ++ Component.ofSegment b ↔ cs = ds ∧ a = b := by
  constructor
  · intro h
    rw [ofSegment_eq_singleton ha, ofSegment_eq_singleton hb] at h
    obtain ⟨hlead, hlast⟩ := List.append_inj' h rfl
    refine ⟨hlead, ?_⟩
    have hcomponent := List.head_eq_of_cons_eq hlast
    split_ifs at hcomponent with hup hup' hup'
    · rw [hup, hup']
    · exact Component.name.inj hcomponent
  · rintro ⟨rfl, rfl⟩
    rfl

section
variable {s front stem tail : Bytes}

theorem ofBytes_injective {t : Bytes} (h : ofBytes s = ofBytes t) : s = t := by
  rw [← bytes_ofBytes s, h, bytes_ofBytes]

theorem exists_divided_of_isSource (h : (ofBytes s).isSource = true) :
    ∃ front stem tail, stem ≠ [] ∧ Divided s front (stem ++ [dot] ++ sourceExtension) tail := by
  rw [isSource, beq_iff_eq, extension?, Option.bind_eq_some_iff] at h
  obtain ⟨name, hname, hextension⟩ := h
  have hsplit : splitExtension name = ((splitExtension name).1, some sourceExtension) := by
    rw [← hextension]
  obtain ⟨heq, hstem, -⟩ := splitExtension_eq_some.mp hsplit
  obtain ⟨front, tail, hdivided⟩ := exists_divided hname
  exact ⟨front, _, tail, hstem, heq ▸ hdivided⟩

theorem Divided.output_eq (h : Divided s front (stem ++ [dot] ++ sourceExtension) tail)
    (hstem : stem ≠ []) : (ofBytes s).output = ⟨outer front ++ [outputName stem tail]⟩ := by
  have hsplit : splitExtension (stem ++ [dot] ++ sourceExtension) = (stem, some sourceExtension) :=
    splitExtension_eq_some.mpr ⟨rfl, hstem, by decide⟩
  rw [output, h.withExtension_eq, hsplit, outputName]
  split_ifs <;> simp_all

theorem Divided.ofBytes_output (h : Divided s front (stem ++ [dot] ++ sourceExtension) tail)
    (hstem : stem ≠ []) : ofBytes (front ++ outputName stem tail) = (ofBytes s).output := by
  have hslash : slash ∉ stem := by
    have hname := h.name_slash
    rw [List.append_assoc] at hname
    exact fun hmem => hname (List.mem_append_left _ hmem)
  have hlast := ofBytes_append_behind (outputName_slash hslash tail) nil_start
  rw [List.append_nil] at hlast
  rw [h.output_eq hstem, ofBytes_outer_append h.front_end, hlast]
  rfl

/-- The one name of a source whose output has no extension. -/
theorem Divided.getLast?_eq_dots (h : Divided s front (stem ++ [dot] ++ sourceExtension) tail) :
    (ofBytes s).segments.getLast? = some (Bytes.ofString "..nl") ↔ stem = [dot] ∧ tail = [] := by
  have hsource : Bytes.ofString "..nl" = [dot] ++ [dot] ++ sourceExtension := rfl
  have hdots : Bytes.ofString "..nl" = stem ++ [dot] ++ sourceExtension ↔ stem = [dot] := by
    rw [hsource, List.append_left_inj, List.append_left_inj, eq_comm]
  rw [h.getLast?_eq_some rfl, hdots]

theorem Divided.bytes_output (h : Divided s front (stem ++ [dot] ++ sourceExtension) tail)
    (hstem : stem ≠ []) : (ofBytes s).output.bytes = front ++ outputName stem tail := by
  rw [← h.ofBytes_output hstem, bytes_ofBytes]

theorem Divided.components_eq {name : Bytes} (h : Divided s front name tail) :
    (ofBytes s).components = leading (outer front) ++ Component.ofSegment name := by
  rw [h.ofBytes_eq, components_append_cons _ h.named.stays h.behind_stays]

theorem Divided.components_output (h : Divided s front (stem ++ [dot] ++ sourceExtension) tail)
    (hstem : stem ≠ []) : (ofBytes s).output.components =
      leading (outer front) ++ Component.ofSegment (outputName stem tail) := by
  rw [h.output_eq hstem,
    components_append_cons _ (stays_outputName hstem tail) (List.forall_mem_nil _)]

end

/-- Nothing follows the file name of the path. -/
def EndsWithName (p : Path) : Prop := p.segments.getLast? = p.fileName?

theorem Divided.endsWithName_iff {s front name tail : Bytes} (h : Divided s front name tail) :
    (ofBytes s).EndsWithName ↔ tail = [] := by
  rw [EndsWithName, h.fileName?_eq, h.getLast?_eq_some h.named.stays, and_iff_right rfl]

/-- The output of a source is the path up to the end of the stem of its file name with the other
extension, unless that leaves the two dots of `..nl`. It is another path and no source. Sources
that end with their file names have the same output only if they are the same, as bytes and as
paths. -/
theorem output_avoids_sources {s : Bytes} (hs : (ofBytes s).isSource = true) :
    (ofBytes s).output = (ofBytes (withoutExtension s)).setExtension outputExtension ∧
      ofBytes (ofBytes s).output.bytes = (ofBytes s).output ∧
      (ofBytes s).output.bytes ≠ s ∧
      (ofBytes s).output.components ≠ (ofBytes s).components ∧
      (ofBytes s).output.isSource = false ∧
      (∃ front stem tail, Divided s front (stem ++ [dot] ++ sourceExtension) tail ∧ stem ≠ [] ∧
        ((ofBytes s).segments.getLast? = some (Bytes.ofString "..nl") →
          (ofBytes s).output.bytes = front ++ up) ∧
        ((ofBytes s).segments.getLast? ≠ some (Bytes.ofString "..nl") →
          (ofBytes s).output.bytes = front ++ stem ++ [dot] ++ outputExtension)) ∧
      ∀ t : Bytes, (ofBytes t).isSource = true → (ofBytes s).EndsWithName →
        (ofBytes t).EndsWithName →
          ((ofBytes s).output.bytes = (ofBytes t).output.bytes → s = t) ∧
          ((ofBytes s).output.components = (ofBytes t).output.components →
            (ofBytes s).components = (ofBytes t).components) := by
  obtain ⟨front, stem, tail, hstem, h⟩ := exists_divided_of_isSource hs
  have hcomponents : (ofBytes s).output.components ≠ (ofBytes s).components := by
    rw [h.components_output hstem, h.components_eq, Ne,
      append_ofSegment_inj (stays_outputName hstem tail) h.named.stays]
    exact fun heq => outputName_ne hstem tail heq.2
  have hdots := h.getLast?_eq_dots
  refine ⟨withExtension_eq_setExtension _ _, ?_, ?_, hcomponents, ?_, ?_, ?_⟩
  · rw [h.bytes_output hstem, h.ofBytes_output hstem]
  · intro heq
    apply hcomponents
    rw [← h.ofBytes_output hstem, ← h.bytes_output hstem, heq]
  · rw [h.output_eq hstem]
    exact isSource_outputName _ hstem tail
  · refine ⟨front, stem, tail, h, hstem, ?_, ?_⟩
    · intro hlast
      rw [h.bytes_output hstem, outputName, if_pos (hdots.mp hlast)]
    · intro hlast
      rw [h.bytes_output hstem, outputName, if_neg (mt hdots.mpr hlast)]
      simp only [List.append_assoc]
  · intro t ht hends hends'
    obtain ⟨front', stem', tail', hstem', h'⟩ := exists_divided_of_isSource ht
    cases h.endsWithName_iff.mp hends
    cases h'.endsWithName_iff.mp hends'
    constructor
    · intro hbytes
      have hpath : (ofBytes s).output = (ofBytes t).output := by
        rw [← h.ofBytes_output hstem, ← h'.ofBytes_output hstem', ← h.bytes_output hstem,
          ← h'.bytes_output hstem', hbytes]
      rw [h.output_eq hstem, h'.output_eq hstem'] at hpath
      obtain ⟨houter, hlast⟩ := List.append_inj' (mk.inj hpath) rfl
      have hsame := outputName_injective (List.head_eq_of_cons_eq hlast)
      apply ofBytes_injective
      rw [h.ofBytes_eq, h'.ofBytes_eq, houter, hsame]
    · intro hsame
      rw [h.components_output hstem, h'.components_output hstem',
        append_ofSegment_inj (stays_outputName hstem []) (stays_outputName hstem' [])] at hsame
      rw [h.components_eq, h'.components_eq, hsame.1, outputName_injective hsame.2]

theorem output_of_hidden_and_dots :
    (ofBytes "lib//.a.b.nl/./").isSource = true ∧
      (ofBytes "lib//.a.b.nl/./").output.bytes = Bytes.ofString "lib//.a.b.js" ∧
      (ofBytes "lib//.a.b.nl/./").output.isSource = false ∧
      (ofBytes "./..nl").isSource = true ∧ (ofBytes "./..nl").EndsWithName ∧
      (ofBytes "./..nl").output.components ≠ (ofBytes "./..nl").components ∧
      (ofBytes "..nl").isSource = true ∧ (ofBytes "..nl").EndsWithName ∧
      (ofBytes "./..nl").output.bytes ≠ (ofBytes "..nl").output.bytes := by
  have hhidden : (ofBytes "lib//.a.b.nl/./").isSource = true := by decide +kernel
  have hdots : (ofBytes "./..nl").isSource = true := by decide +kernel
  have hbare : (ofBytes "..nl").isSource = true := by decide +kernel
  have hends : (ofBytes "./..nl").EndsWithName := by
    unfold EndsWithName
    decide +kernel
  have hends' : (ofBytes "..nl").EndsWithName := by
    unfold EndsWithName
    decide +kernel
  obtain ⟨-, -, -, -, hsource, -, -⟩ := output_avoids_sources hhidden
  obtain ⟨-, -, -, hcomponents, -, -, hcollide⟩ := output_avoids_sources hdots
  refine ⟨hhidden, by decide +kernel, hsource, hdots, hends, hcomponents, hbare, hends', ?_⟩
  exact fun heq => absurd ((hcollide "..nl" hbare hends hends').1 heq) (by decide)

end Scriptwright.Path
